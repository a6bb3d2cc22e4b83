/-
**`RedundancyEliminationPass`: redirect every flagged instruction, then erase them.**

`eliminateRedundancies` walks the `DenseMap` of `RedundancyInfo` — in an order fixed by pointer
values, which the model takes as an arbitrary permutation of the analysis's list — and for each
pair whose types agree replaces all uses of the redundant instruction by its replacement and
schedules it for deletion; a second loop erases what was scheduled.

What makes the pass well-behaved is a property of the analysis, `ChainFree`: no replacement is
itself redundant, no instruction is flagged twice, and each pair has one type
(`OptPasses.RedundancyEliminationPass.chainFree_run`, from
`OptPasses.RedundancyAnalysis.pair_spec`).  Under it the first loop sends every operand through
one substitution, `replacementOf`, whatever the visiting order
(`OptPasses.RedundancyEliminationPass.redirectUses_eq`), and the second erases exactly the
flagged instructions (`OptPasses.Function.eraseAll_eq`).

Main definitions:

* `OptPasses.RedundancyEliminationPass.eliminateRedundancies`,
  `OptPasses.RedundancyEliminationPass.run`;
* `OptPasses.RedundancyEliminationPass.replacementOf` — the substitution the first loop performs.

Main results:

* `OptPasses.RedundancyEliminationPass.eliminateRedundancies_keeps_ssa` — **the pass keeps SSA
  form**: nothing it erases has a use left, and every use in its result, PHI uses included, is
  of an instruction still there that dominates it;
* `OptPasses.RedundancyEliminationPass.eliminateRedundancies_perm` — **the result does not depend
  on the order the map is visited in**.
-/

import OptPasses.RedundancyAnalysis

set_option relaxedAutoImplicit false
set_option autoImplicit false

namespace OptPasses

namespace RedundancyEliminationPass

/-- One iteration of the first loop of `eliminateRedundancies`: if the types match, redirect the
uses of the redundant instruction to its replacement and schedule it for deletion. -/
def redirect (acc : Function × List ℕ) (e : Inst × Inst) : Function × List ℕ :=
  if e.1.type ≠ e.2.type then acc
  else (acc.1.replaceAllUsesWith e.1.id (.inst e.2.id), acc.2 ++ [e.1.id])

/-- The first loop of `eliminateRedundancies`, over the map's entries in the order given. -/
def redirectUses (F : Function) (entries : List (Inst × Inst)) : Function × List ℕ :=
  entries.foldl redirect (F, [])

/-- `RedundancyEliminationPass::eliminateRedundancies`, visiting the entries in the order given. -/
def eliminateRedundancies (F : Function) (entries : List (Inst × Inst)) : Function × Bool :=
  if entries.isEmpty then (F, false)
  else
    let (G, toDelete) := redirectUses F entries
    (G.eraseAll toDelete, !toDelete.isEmpty)

/-- `RedundancyEliminationPass::run`. -/
def run (F : Function) (DT : DominatorTree) : Function × PreservedAnalyses :=
  let (G, changed) :=
    eliminateRedundancies F (RedundancyAnalysis.run F DT).redundantInstructions
  (G, if changed then .cfgAndDominatorTree else .all)

/-! ### The substitution of the first loop -/

/-- Where the first loop sends an operand: to the replacement of the first entry naming it. -/
def replacementOf (entries : List (Inst × Inst)) (v : Value) : Value :=
  match entries.find? fun e => v = .inst e.1.id with
  | some e => .inst e.2.id
  | none => v

/-- No instruction is flagged twice, no replacement is itself flagged, each pair has one type. -/
structure ChainFree (entries : List (Inst × Inst)) : Prop where
  nodup : (entries.map (·.1.id)).Nodup
  not_redundant : ∀ e ∈ entries, e.2.id ∉ entries.map (·.1.id)
  type_eq : ∀ e ∈ entries, e.1.type = e.2.type

variable {entries l : List (Inst × Inst)}

theorem ChainFree.perm (h : ChainFree l) (p : entries.Perm l) : ChainFree entries where
  nodup := (p.map _).nodup_iff.2 h.nodup
  not_redundant e he := by
    rw [(p.map _).mem_iff]; exact h.not_redundant e (p.mem_iff.1 he)
  type_eq e he := h.type_eq e (p.mem_iff.1 he)

theorem ChainFree.tail {e : Inst × Inst} (h : ChainFree (e :: l)) : ChainFree l where
  nodup := (List.nodup_cons.1 (by simpa using h.nodup)).2
  not_redundant e' he' hm := by
    refine h.not_redundant e' (List.mem_cons_of_mem _ he') ?_
    simp only [List.map_cons]
    exact List.mem_cons_of_mem _ hm
  type_eq e' he' := h.type_eq e' (List.mem_cons_of_mem _ he')

theorem chainFree_run (F : Function) (DT : DominatorTree) :
    ChainFree (RedundancyAnalysis.run F DT).redundantInstructions where
  nodup := RedundancyAnalysis.nodup_redundant
  not_redundant _ he := (RedundancyAnalysis.pair_spec he).2.2.2.2.2.2.2.2
  type_eq _ he := (RedundancyAnalysis.pair_spec he).2.2.2.2.1

theorem replacementOf_of_not_mem {v : Value} (h : ∀ e ∈ entries, v ≠ .inst e.1.id) :
    replacementOf entries v = v := by
  rw [replacementOf, List.find?_eq_none.2 fun e he => by simpa using h e he]

theorem replacementOf_of_mem (hnd : (entries.map (·.1.id)).Nodup) {e : Inst × Inst}
    (he : e ∈ entries) : replacementOf entries (.inst e.1.id) = .inst e.2.id := by
  obtain ⟨e', he'⟩ := Option.isSome_iff_exists.1
    (List.find?_isSome.2 ⟨e, he, by simp⟩ :
      (entries.find? fun e' => Value.inst e.1.id = .inst e'.1.id).isSome)
  have hkey : e.1.id = e'.1.id := by simpa using List.find?_some he'
  rw [replacementOf, he', List.inj_on_of_nodup_map hnd he (List.mem_of_find?_eq_some he') hkey]

/-- The first loop never produces a use of a flagged instruction. -/
theorem replacementOf_ne (h : ChainFree entries) {x : ℕ} (hx : x ∈ entries.map (·.1.id))
    (v : Value) : replacementOf entries v ≠ .inst x := by
  by_cases hv : ∃ e ∈ entries, v = .inst e.1.id
  · obtain ⟨e, he, rfl⟩ := hv
    rw [replacementOf_of_mem h.nodup he]
    exact fun e' => h.not_redundant e he (by rw [Value.inst.inj e']; exact hx)
  · push_neg at hv
    rw [replacementOf_of_not_mem hv]
    rintro rfl
    obtain ⟨e, he, rfl⟩ := List.mem_map.1 hx
    exact hv e he rfl

theorem replacementOf_perm (h : ChainFree l) (p : entries.Perm l) :
    replacementOf entries = replacementOf l := by
  funext v
  by_cases hv : ∃ e ∈ l, v = .inst e.1.id
  · obtain ⟨e, he, rfl⟩ := hv
    rw [replacementOf_of_mem h.nodup he, replacementOf_of_mem (h.perm p).nodup (p.mem_iff.2 he)]
  · push_neg at hv
    rw [replacementOf_of_not_mem hv, replacementOf_of_not_mem fun e he => hv e (p.mem_iff.1 he)]

@[simp] theorem replacementOf_nil : replacementOf [] = fun v => v := by
  funext v; rfl

/-- The rewrite the first loop applies to every instruction. -/
def redirectInst (entries : List (Inst × Inst)) : Inst → Inst :=
  Inst.mapOperands (replacementOf entries)

@[simp] theorem redirectInst_id (I : Inst) : (redirectInst entries I).id = I.id := rfl

/-- **The first loop in closed form**: one substitution, and every entry scheduled. -/
theorem redirectUses_eq (h : ChainFree entries) (F : Function) :
    redirectUses F entries =
      (F.mapInsts (redirectInst entries) fun _ => rfl, entries.map (·.1.id)) := by
  suffices ∀ (l : List (Inst × Inst)) (G : Function) (del : List ℕ), ChainFree l →
      l.foldl redirect (G, del) =
        (G.mapInsts (redirectInst l) fun _ => rfl, del ++ l.map (·.1.id)) by
    simpa using this entries F [] h
  intro l
  induction l with
  | nil =>
      intro G del _
      simp only [List.foldl_nil, List.map_nil, List.append_nil, Prod.mk.injEq, and_true]
      exact (Function.mapInsts_of_forall _ _ fun I => by
        simp [redirectInst, Inst.mapOperands]).symm
  | cons e l ih =>
      intro G del h
      have he : e.2.id ∉ l.map (·.1.id) := fun hm =>
        h.not_redundant e (List.mem_cons_self _ _) (List.mem_cons_of_mem _ hm)
      have hsub : ∀ v, replacementOf l (Value.subst e.1.id (.inst e.2.id) v) =
          replacementOf (e :: l) v := by
        intro v
        by_cases hv : v = .inst e.1.id
        · subst hv
          rw [Value.subst_inst_self, replacementOf_of_not_mem fun e' he' h' =>
            he (by rw [Value.inst.inj h']; exact List.mem_map_of_mem _ he')]
          simp [replacementOf]
        · rw [Value.subst_of_ne hv]
          simp [replacementOf, List.find?_cons, hv]
      have hty : ¬ e.1.type ≠ e.2.type := not_not.2 (h.type_eq e (List.mem_cons_self _ _))
      rw [List.foldl_cons, redirect, if_neg hty, ih _ _ h.tail, Function.replaceAllUsesWith,
        Function.mapInsts_mapInsts]
      simp only [Prod.mk.injEq, List.map_cons, List.append_assoc, List.singleton_append, and_true]
      congr 1
      funext I
      simp [redirectInst, Inst.replaceUsesOfWith, Inst.mapOperands_mapOperands,
        Function.comp_def, hsub]

/-- The result of the pass, in closed form. -/
theorem eliminateRedundancies_eq (h : ChainFree entries) (F : Function) :
    eliminateRedundancies F entries =
      ((F.mapInsts (redirectInst entries) fun _ => rfl).filterInsts
        (fun I => I.id ∉ entries.map (·.1.id)), !entries.isEmpty) := by
  rw [eliminateRedundancies]
  split_ifs with he
  · have : entries = [] := List.isEmpty_iff.1 he
    subst this
    refine Prod.ext ?_ rfl
    rw [Function.filterInsts_of_forall _ fun I => by simp,
      Function.mapInsts_of_forall _ _ fun I => by simp [redirectInst, Inst.mapOperands]]
  · simp only [redirectUses_eq h, Function.eraseAll_eq, Prod.mk.injEq, true_and]
    cases entries <;> rfl

/-- The function the pass returns, in closed form. -/
theorem run_fst_eq (F : Function) (DT : DominatorTree) :
    (run F DT).1 = (F.mapInsts (redirectInst (RedundancyAnalysis.run F DT).redundantInstructions)
      fun _ => rfl).filterInsts
        fun I => I.id ∉ (RedundancyAnalysis.run F DT).redundantInstructions.map (·.1.id) := by
  simp only [run, eliminateRedundancies_eq (chainFree_run F DT)]

/-- The analyses the pass reports preserved: all of them exactly when nothing was flagged. -/
theorem run_snd_eq (F : Function) (DT : DominatorTree) :
    (run F DT).2 = if (RedundancyAnalysis.run F DT).redundantInstructions.isEmpty then .all
      else .cfgAndDominatorTree := by
  simp only [run, eliminateRedundancies_eq (chainFree_run F DT)]
  cases (RedundancyAnalysis.run F DT).redundantInstructions.isEmpty <;> rfl

/-- The pass erases exactly as many instructions as the analysis flagged. -/
theorem length_run (F : Function) (DT : DominatorTree) :
    (run F DT).1.insts.length + (RedundancyAnalysis.run F DT).redundantInstructions.length =
      F.insts.length := by
  have hsub : ∀ x ∈ (RedundancyAnalysis.run F DT).redundantInstructions.map (·.1.id),
      x ∈ (F.mapInsts (redirectInst (RedundancyAnalysis.run F DT).redundantInstructions)
        fun _ => rfl).ids := by
    intro x hx
    obtain ⟨⟨R, P⟩, hRP, rfl⟩ := List.mem_map.1 hx
    rw [Function.ids_mapInsts]
    exact List.mem_map_of_mem _ (RedundancyAnalysis.pair_spec hRP).1
  have h := Function.length_eraseAll RedundancyAnalysis.nodup_redundant hsub
  rwa [Function.eraseAll_eq, ← run_fst_eq, Function.insts_mapInsts, List.length_map,
    List.length_map] at h

/-- **The order the map is visited in does not matter**: every permutation of the flagged pairs
gives the same function and the same answer. -/
theorem eliminateRedundancies_perm {F : Function} {DT : DominatorTree}
    {order : List (Inst × Inst)}
    (h : order.Perm (RedundancyAnalysis.run F DT).redundantInstructions) :
    eliminateRedundancies F order =
      eliminateRedundancies F (RedundancyAnalysis.run F DT).redundantInstructions := by
  have hM := chainFree_run F DT
  have hr : redirectInst order =
      redirectInst (RedundancyAnalysis.run F DT).redundantInstructions := by
    rw [redirectInst, redirectInst, replacementOf_perm hM h]
  rw [eliminateRedundancies_eq (hM.perm h), eliminateRedundancies_eq hM]
  simp only [hr]
  have hl := h.length_eq
  congr 2
  · funext I; simp [(h.map (·.1.id)).mem_iff]
  · cases order <;> cases hM' : (RedundancyAnalysis.run F DT).redundantInstructions <;>
      simp_all

/-- On the benchmark's `redundancy_test`, visiting the two flagged pairs in the opposite order
gives the same function. -/
theorem eliminateRedundancies_redundancyTest_reverse :
    eliminateRedundancies RedundancyAnalysis.redundancyTest
        (RedundancyAnalysis.run RedundancyAnalysis.redundancyTest
          RedundancyAnalysis.redundancyTestDT).redundantInstructions.reverse =
      eliminateRedundancies RedundancyAnalysis.redundancyTest
        (RedundancyAnalysis.run RedundancyAnalysis.redundancyTest
          RedundancyAnalysis.redundancyTestDT).redundantInstructions :=
  eliminateRedundancies_perm (List.reverse_perm _)

/-! ### The pass keeps SSA form -/

/-- What the pass erases has no use left once the first loop is done. -/
theorem not_uses_redirect {l : List (Inst × Inst)} (hl : ChainFree l) (F : Function) {x : ℕ}
    (hx : x ∈ l.map (·.1.id)) : ¬ (F.mapInsts (redirectInst l) fun _ => rfl).Uses x := by
  rintro ⟨I, hI, hop⟩
  obtain ⟨I₀, -, rfl⟩ := List.mem_map.1 (by simpa using hI)
  obtain ⟨v, -, hv⟩ := List.mem_map.1 (by simpa [redirectInst] using hop)
  exact replacementOf_ne hl hx v hv

variable {DT : DominatorTree}

/-- A survivor stands in the block it stood in before the pass. -/
theorem blockOf?_redirect {F : Function} {l : List (Inst × Inst)} {I : Inst} (hI : I ∈ F.insts)
    (hIl : I.id ∉ l.map (·.1.id)) :
    ((F.mapInsts (redirectInst l) fun _ => rfl).filterInsts
      fun I => I.id ∉ l.map (·.1.id)).blockOf? I.id = F.blockOf? I.id := by
  rw [← Function.blockOf?_mapInsts (F := F) (redirectInst l) (fun _ => rfl)]
  exact Function.blockOf?_filterInsts (I := redirectInst l I)
    (by simpa using List.mem_map_of_mem _ hI) (by simpa [redirectInst] using hIl)

/-- Two survivors stand in the order they stood in before the pass. -/
theorem comesBefore_redirect {F : Function} {l : List (Inst × Inst)} {a b : ℕ}
    (ha : a ∉ l.map (·.1.id)) (hb : b ∉ l.map (·.1.id)) :
    ((F.mapInsts (redirectInst l) fun _ => rfl).filterInsts
      fun I => I.id ∉ l.map (·.1.id)).comesBefore a b = F.comesBefore a b := by
  rw [Function.comesBefore_filterInsts fun I _ hI => by
    rcases hI with h | h
    · simpa [h] using ha
    · simpa [h] using hb]
  exact Function.comesBefore_mapInsts _ _ _ _

/-- Use dominance between two survivors is what it was before the pass. -/
theorem dominatesUse_redirect {F : Function} {l : List (Inst × Inst)} {D U : Inst}
    (hD : D ∈ F.insts) (hU : U ∈ F.insts) (hDl : D.id ∉ l.map (·.1.id))
    (hUl : U.id ∉ l.map (·.1.id)) (k : ℕ) :
    DT.dominatesUse ((F.mapInsts (redirectInst l) fun _ => rfl).filterInsts
        fun I => I.id ∉ l.map (·.1.id)) (redirectInst l D) (redirectInst l U) k =
      DT.dominatesUse F D U k :=
  DominatorTree.dominatesUse_congr rfl rfl rfl rfl (blockOf?_redirect hD hDl)
    (blockOf?_redirect hU hUl) (comesBefore_redirect hDl hUl)

/-- Redirecting every flagged instruction to a dominating, unflagged replacement and erasing the
flagged ones keeps SSA form. -/
theorem wellFormed_redirect {F : Function} {l : List (Inst × Inst)} (hl : ChainFree l)
    (hF : DT.WellFormed F)
    (hpair : ∀ e ∈ l, e.1 ∈ F.insts ∧ e.2 ∈ F.insts ∧
      DT.dominates F e.2 e.1 ∧ ∃ b ∈ DT.preorder, F.blockOf? e.1.id = some b) :
    DT.WellFormed ((F.mapInsts (redirectInst l) fun _ => rfl).filterInsts
      fun I => I.id ∉ l.map (·.1.id)) := by
  intro U' hU' k hk
  rw [Function.insts_filterInsts, Function.insts_mapInsts, List.mem_filter,
    decide_eq_true_eq] at hU'
  obtain ⟨hm, hUl⟩ := hU'
  obtain ⟨U, hU, rfl⟩ := List.mem_map.1 hm
  replace hUl : U.id ∉ l.map (·.1.id) := hUl
  have hk' : k < U.operands.length := by simpa [redirectInst] using hk
  have hop : (redirectInst l U).operands[k]? = some (replacementOf l U.operands[k]) := by
    simp [redirectInst, hk']
  have hsurv : ∀ D ∈ F.insts, D.id ∉ l.map (·.1.id) →
      redirectInst l D ∈ ((F.mapInsts (redirectInst l) fun _ => rfl).filterInsts
        fun I => I.id ∉ l.map (·.1.id)).insts := fun D hD hDl => by
    rw [Function.insts_filterInsts, Function.insts_mapInsts]
    exact List.mem_filter.2 ⟨List.mem_map_of_mem _ hD, decide_eq_true hDl⟩
  cases hv : U.operands[k] with
  | inst d =>
      obtain ⟨D, hD, rfl, hdom⟩ := (DominatorTree.useWellFormed_iff (d := d)
        (by rw [List.getElem?_eq_getElem hk', hv])).1 (hF U hU k hk')
      by_cases hd : ∃ e ∈ l, D.id = e.1.id
      · obtain ⟨e, he, hDe⟩ := hd
        obtain ⟨he₁, he₂, hdome, rb, hrb, hr⟩ := hpair e he
        cases F.eq_of_id_eq hD he₁ hDe
        rw [hv, replacementOf_of_mem hl.nodup he] at hop
        refine (DominatorTree.useWellFormed_iff hop).2 ⟨_, hsurv e.2 he₂ (hl.not_redundant e he),
          rfl, ?_⟩
        rw [dominatesUse_redirect he₂ hU (hl.not_redundant e he) hUl]
        exact DominatorTree.dominatesUse_of_dominates hr hrb hdome hdom
      · push_neg at hd
        rw [hv, replacementOf_of_not_mem fun e he h' => hd e he (Value.inst.inj h')] at hop
        have hDl : D.id ∉ l.map (·.1.id) := fun h' => by
          obtain ⟨e, he, h''⟩ := List.mem_map.1 h'
          exact hd e he h''.symm
        refine (DominatorTree.useWellFormed_iff hop).2 ⟨_, hsurv D hD hDl, rfl, ?_⟩
        rw [dominatesUse_redirect hD hU hDl hUl]
        exact hdom
  | arg _ | const _ _ =>
      rw [hv, replacementOf_of_not_mem fun e _ h' => Value.noConfusion h'] at hop
      exact DominatorTree.useWellFormed_of_not_inst fun d h' => by simp [hop] at h'

/-- **The pass keeps SSA form**, whatever order the map is visited in: nothing erased has a use
left, and every use in the result, PHI uses included, names an instruction still there that
dominates it. -/
theorem eliminateRedundancies_keeps_ssa {F : Function} {order : List (Inst × Inst)}
    (hF : DT.WellFormed F) (h : order.Perm (RedundancyAnalysis.run F DT).redundantInstructions) :
    (∀ pre x suf, (redirectUses F order).2 = pre ++ x :: suf →
        ¬ ((redirectUses F order).1.eraseAll pre).Uses x) ∧
      DT.WellFormed (eliminateRedundancies F order).1 := by
  have hO := (chainFree_run F DT).perm h
  refine ⟨fun pre x suf hx => ?_, ?_⟩
  · rw [redirectUses_eq hO] at hx ⊢
    rw [Function.eraseAll_eq]
    have hmem : x ∈ order.map (·.1.id) := by rw [show order.map (·.1.id) = _ from hx]; simp
    exact Function.not_uses_filterInsts (not_uses_redirect hO F hmem)
  · rw [eliminateRedundancies_eq hO]
    refine wellFormed_redirect hO hF fun e he => ?_
    obtain ⟨h₁, h₂, -, -, -, -, h₇, h₈, -⟩ := RedundancyAnalysis.pair_spec (h.mem_iff.1 he)
    exact ⟨h₁, h₂, h₇, h₈⟩

/-- The benchmark's `redundancy_test` is in SSA form, and so is what the pass makes of it. -/
theorem eliminateRedundancies_keeps_ssa_redundancyTest :
    RedundancyAnalysis.redundancyTestDT.WellFormed RedundancyAnalysis.redundancyTest ∧
      ((∀ pre x suf, (redirectUses RedundancyAnalysis.redundancyTest
          (RedundancyAnalysis.run RedundancyAnalysis.redundancyTest
            RedundancyAnalysis.redundancyTestDT).redundantInstructions).2 = pre ++ x :: suf →
          ¬ ((redirectUses RedundancyAnalysis.redundancyTest
            (RedundancyAnalysis.run RedundancyAnalysis.redundancyTest
              RedundancyAnalysis.redundancyTestDT).redundantInstructions).1.eraseAll pre).Uses x) ∧
        RedundancyAnalysis.redundancyTestDT.WellFormed (eliminateRedundancies
          RedundancyAnalysis.redundancyTest (RedundancyAnalysis.run RedundancyAnalysis.redundancyTest
            RedundancyAnalysis.redundancyTestDT).redundantInstructions).1) :=
  ⟨by decide, eliminateRedundancies_keeps_ssa (by decide) (List.Perm.refl _)⟩

end RedundancyEliminationPass

end OptPasses
