/-
**Redundancy elimination refines the function, for a semantics that reads only the key.**

`RedundancyEliminationPass` redirects every use of a flagged instruction `R` to its replacement
`P` and erases `R`.  This module proves that the result refines the original on every input,
under four assumptions: the semantics reads of an instruction only what an expression key records
(`OptPasses.KeySoundness.KeyDetermined`; LLVM's does not, see `OptPasses.KeySoundness.gepPair`),
the numbering does not wrap around, the function is in SSA form with each block ending in its
only terminator, and the tree handed to the pass is a dominator tree of the function
(`OptPasses.DominatorTree.Sound`).

The proof is a simulation of the original by the result, block by block.  The real step is an
invariant of the original's run, `OptPasses.EliminationCorrect.Current`: at each point of a block,
every instruction before it (earlier in the block, or in a block strictly dominating it) holds
the value it computes from the current results.  SSA form keeps it: the instruction executing is
used by none of those.  Dominance closes it under replacements: the replacement of a flagged
instruction in scope is in scope, and both compute one value there, so the result's reading of
`P` where the original reads `R` gives the same value.  A PHI reads its operand at the end of the
block control came from, so the relation carried into a block (`OptPasses.EliminationCorrect.Entry`)
also records that every flagged instruction whose block dominates that one agrees with its
replacement there.

Main definitions:

* `OptPasses.DominatorTree.Sound` — the tree starts at the entry block, and along every edge out
  of a reachable block the target is reachable and its strict dominators dominate the source;
* `OptPasses.Function.TerminatorsLast` — no terminator stands before the last instruction of a
  block;
* `OptPasses.EliminationCorrect.Current` — the results in scope are what their instructions
  compute;
* `OptPasses.EliminationCorrect.Entry` — what the simulation carries into a block.

Main results:

* `OptPasses.EliminationCorrect.current_step` — executing an instruction keeps the results in
  scope current;
* `OptPasses.EliminationCorrect.eq_of_flagged` — in scope, a flagged instruction and its
  replacement hold the same result;
* `OptPasses.EliminationCorrect.simInsts_survivors` — the code of a block of the result simulates
  the block of the original;
* `OptPasses.EliminationCorrect.refines_redirect` — the function the pass builds, in closed form,
  refines the original;
* `OptPasses.EliminationCorrect.run_refines` — **under a key-determined semantics and without
  wrap-around, the pass refines every function in SSA form**;
* `OptPasses.EliminationCorrect.run_preservedAnalyses` — the pass reports all analyses preserved
  exactly when it changes nothing, keeps the control-flow graph, and keeps a sound dominator tree
  sound, as the `PreservedAnalyses` it returns otherwise claim.
-/

import OptPasses.KeySoundness

set_option relaxedAutoImplicit false
set_option autoImplicit false

namespace OptPasses

/-! ### What the pass assumes of its input -/

/-- `DT` is sound as the dominator tree of `F`: its preorder starts at the entry block, and along
every edge out of a reachable block the target is reachable and each of its strict dominators
dominates the source.  The tree LLVM computes has both properties. -/
def DominatorTree.Sound (DT : DominatorTree) (F : Function) : Prop :=
  DT.preorder.head? = F.entry? ∧
    ∀ B ∈ F.blocks.filter (fun b : Block => DT.isReachableFromEntry b.label),
      ∀ I ∈ B.insts.filter (fun J : Inst => J.opcode.isTerminator), ∀ t ∈ I.blocks,
        t ∈ DT.preorder ∧
        ∀ a ∈ DT.preorder.filter (fun a => a ≠ t && DT.dominatesBlock a t),
          DT.dominatesBlock a B.label

instance DominatorTree.decidableSound (DT : DominatorTree) (F : Function) :
    Decidable (DT.Sound F) :=
  inferInstanceAs (Decidable (DT.preorder.head? = F.entry? ∧
    ∀ B ∈ F.blocks.filter (fun b : Block => DT.isReachableFromEntry b.label),
      ∀ I ∈ B.insts.filter (fun J : Inst => J.opcode.isTerminator), ∀ t ∈ I.blocks,
        t ∈ DT.preorder ∧
        ∀ a ∈ DT.preorder.filter (fun a => a ≠ t && DT.dominatesBlock a t),
          DT.dominatesBlock a B.label))

/-- No terminator stands before the last instruction of a block, as LLVM's verifier requires. -/
def Function.TerminatorsLast (F : Function) : Prop :=
  ∀ B ∈ F.blocks, ∀ I ∈ B.insts.dropLast, I.opcode.isTerminator = false

instance Function.decidableTerminatorsLast (F : Function) : Decidable F.TerminatorsLast :=
  inferInstanceAs (Decidable (∀ B ∈ F.blocks, ∀ I ∈ B.insts.dropLast,
    I.opcode.isTerminator = false))

/-- Rewriting instructions without changing their opcodes or successors keeps a sound tree
sound. -/
theorem DominatorTree.Sound.mapInsts {DT : DominatorTree} {F : Function} (h : DT.Sound F)
    (f : Inst → Inst) (hf : ∀ I, (f I).id = I.id)
    (hop : ∀ I, (f I).opcode = I.opcode ∧ (f I).blocks = I.blocks) :
    DT.Sound (F.mapInsts f hf) := by
  refine ⟨h.1.trans (Function.entry?_mapInsts f hf).symm, fun B hB I hI t ht => ?_⟩
  obtain ⟨hB, hr⟩ := List.mem_filter.1 hB
  obtain ⟨B₀, hB₀, rfl⟩ := (Function.mem_blocks_mapInsts f hf).1 hB
  obtain ⟨hI, hterm⟩ := List.mem_filter.1 hI
  obtain ⟨I₀, hI₀, rfl⟩ := List.mem_map.1 hI
  rw [(hop I₀).2] at ht
  exact h.2 B₀ (List.mem_filter.2 ⟨hB₀, hr⟩) I₀ (List.mem_filter.2 ⟨hI₀, (hop I₀).1 ▸ hterm⟩) t ht

/-- Erasing instructions keeps a sound tree sound. -/
theorem DominatorTree.Sound.filterInsts {DT : DominatorTree} {F : Function} (h : DT.Sound F)
    (p : Inst → Bool) : DT.Sound (F.filterInsts p) := by
  refine ⟨h.1.trans (Function.entry?_filterInsts p).symm, fun B hB I hI t ht => ?_⟩
  obtain ⟨hB, hr⟩ := List.mem_filter.1 hB
  obtain ⟨B₀, hB₀, rfl⟩ := (Function.mem_blocks_filterInsts p).1 hB
  obtain ⟨hI, hterm⟩ := List.mem_filter.1 hI
  exact h.2 B₀ (List.mem_filter.2 ⟨hB₀, hr⟩) I
    (List.mem_filter.2 ⟨(List.mem_filter.1 hI).1, hterm⟩) t ht

/-- A sound dominator tree reads of the function only its control-flow graph. -/
theorem DominatorTree.sound_iff_cfg {DT : DominatorTree} {F : Function} :
    DT.Sound F ↔ DT.preorder.head? = F.cfg.head?.map Prod.fst ∧
      ∀ e ∈ F.cfg, DT.isReachableFromEntry e.1 → ∀ t ∈ e.2, t ∈ DT.preorder ∧
        ∀ a ∈ DT.preorder.filter (fun a => a ≠ t && DT.dominatesBlock a t),
          DT.dominatesBlock a e.1 := by
  simp only [DominatorTree.Sound, Function.cfg, Function.entry?, List.head?_map, Option.map_map]
  simp only [List.mem_filter, List.mem_map, List.mem_flatMap, Function.comp_def,
    forall_exists_index, and_imp, forall_apply_eq_imp_iff₂, Bool.and_eq_true, decide_eq_true_eq]
  exact and_congr_right fun _ => ⟨fun h B hB hr t I hI hterm ht => h B hB hr I hI hterm t ht,
    fun h B hB hr I hI hterm t ht => h B hB hr t I hI hterm ht⟩

/-- A tree sound for a function is sound for every function with its control-flow graph. -/
theorem DominatorTree.Sound.of_cfg_eq {DT : DominatorTree} {F G : Function} (h : DT.Sound F)
    (hcfg : G.cfg = F.cfg) : DT.Sound G :=
  DominatorTree.sound_iff_cfg.2 (by rw [hcfg]; exact DominatorTree.sound_iff_cfg.1 h)

/-- A terminator is the last instruction of its block. -/
theorem Function.TerminatorsLast.eq_nil {F : Function} (h : F.TerminatorsLast) {B : Block}
    (hB : B ∈ F.blocks) {done rest : List Inst} {I : Inst} (hpos : B.insts = done ++ I :: rest)
    (hI : I.opcode.isTerminator) : rest = [] := by
  by_contra hne
  have hmem : I ∈ B.insts.dropLast := by
    rw [hpos, List.dropLast_append_of_ne_nil _ (List.cons_ne_nil _ _),
      List.dropLast_cons_of_ne_nil hne]
    simp
  simp [h B hB I hmem] at hI

/-- Keeping every terminator of a list in which only the last element may be one leaves a list in
which only the last element may be one. -/
theorem forall_dropLast_filter {p q : Inst → Bool} :
    ∀ {l : List Inst}, (∀ I ∈ l.dropLast, q I = false) → (∀ I ∈ l, q I → p I) →
      ∀ I ∈ (l.filter p).dropLast, q I = false
  | [], _, _ => by simp
  | [a], _, _ => fun I hI => by
      rw [List.filter_cons] at hI
      split at hI <;> simp at hI
  | a :: b :: l, hq, hp => fun I hI => by
      rw [List.dropLast_cons₂] at hq
      have ih := forall_dropLast_filter (l := b :: l) (fun J hJ => hq J (List.mem_cons_of_mem _ hJ))
        fun J hJ => hp J (List.mem_cons_of_mem _ hJ)
      rw [List.filter_cons] at hI
      split at hI
      · by_cases hn : (b :: l).filter p = []
        · rw [hn] at hI; simp at hI
        · rw [List.dropLast_cons_of_ne_nil hn] at hI
          rcases List.mem_cons.1 hI with rfl | hI
          · exact hq I (List.mem_cons_self _ _)
          · exact ih I hI
      · exact ih I hI

/-- Rewriting instructions without changing their opcodes keeps the terminators last. -/
theorem Function.TerminatorsLast.mapInsts {F : Function} (h : F.TerminatorsLast)
    (f : Inst → Inst) (hf : ∀ I, (f I).id = I.id) (hop : ∀ I, (f I).opcode = I.opcode) :
    (F.mapInsts f hf).TerminatorsLast := by
  intro B hB I hI
  obtain ⟨B₀, hB₀, rfl⟩ := (Function.mem_blocks_mapInsts f hf).1 hB
  rw [← List.map_dropLast] at hI
  obtain ⟨I₀, hI₀, rfl⟩ := List.mem_map.1 hI
  rw [hop]
  exact h B₀ hB₀ I₀ hI₀

/-- Erasing instructions other than terminators keeps the terminators last. -/
theorem Function.TerminatorsLast.filterInsts {F : Function} (h : F.TerminatorsLast)
    (p : Inst → Bool) (hp : ∀ I ∈ F.insts, I.opcode.isTerminator → p I) :
    (F.filterInsts p).TerminatorsLast := by
  intro B hB
  obtain ⟨B₀, hB₀, rfl⟩ := (Function.mem_blocks_filterInsts p).1 hB
  exact forall_dropLast_filter (h B₀ hB₀) fun I hI => hp I (Function.mem_insts.2 ⟨B₀, hB₀, hI⟩)

namespace EliminationCorrect

open Semantics RedundancyAnalysis RedundancyEliminationPass KeySoundness

variable {sem : Inst → List ℤ → Option ℤ} {F : Function} {DT : DominatorTree}

theorem isPhi_eq_false_of_isTerminator {I : Inst} (h : I.opcode.isTerminator) :
    I.isPhi = false := by
  rw [Inst.isPhi, decide_eq_false_iff_not]
  intro hphi
  rw [hphi] at h
  exact absurd h (by decide)

/-! ### Where SSA form puts the definition of an operand -/

section Ssa

variable (hwf : DT.WellFormed F)
include hwf

/-- The definition of an operand of an instruction other than a PHI, in a reachable block, stands
in a block that dominates it, and before the use if in the same block. -/
theorem exists_def_of_operand {U : Inst} (hU : U ∈ F.insts) {ub : ℕ}
    (hub : F.blockOf? U.id = some ub) (hubr : ub ∈ DT.preorder) (hphi : U.isPhi = false)
    {x : ℕ} (hx : Value.inst x ∈ U.operands) :
    ∃ D ∈ F.insts, D.id = x ∧ ∃ db, F.blockOf? D.id = some db ∧
      (db ≠ ub → DT.dominatesBlock db ub) ∧ (db = ub → F.comesBefore D.id U.id) := by
  obtain ⟨k, hk, hkx⟩ := List.getElem_of_mem hx
  obtain ⟨D, hD, rfl, hdom⟩ := (DominatorTree.useWellFormed_iff
    (by rw [List.getElem?_eq_getElem hk, hkx])).1 (hwf U hU k hk)
  have hu : DominatorTree.useBlock? F U k = some ub := by
    simp [DominatorTree.useBlock?, hphi, hub]
  cases hdb : F.blockOf? D.id with
  | none => simp [DominatorTree.dominatesUse, hdb] at hdom
  | some db =>
      rcases (DominatorTree.dominatesUse_iff hdb hu).1 hdom with h | ⟨-, h₁, h₂⟩
      · exact absurd hubr h
      · exact ⟨D, hD, rfl, db, hdb, h₁, fun e => (h₂ e).resolve_left (by simp [hphi])⟩

/-- The definition of a PHI's operand for the block `pred` control came from stands in a block
dominating `pred`. -/
theorem exists_def_of_phi_operand {U : Inst} (hU : U ∈ F.insts) (hphi : U.isPhi) {pred : ℕ}
    (hpred : pred ∈ DT.preorder) {x : ℕ}
    (hx : U.operands[U.blocks.indexOf pred]? = some (.inst x)) :
    ∃ D ∈ F.insts, D.id = x ∧ ∃ db, F.blockOf? D.id = some db ∧ DT.dominatesBlock db pred := by
  obtain ⟨hk, -⟩ := List.getElem?_eq_some_iff.1 hx
  obtain ⟨D, hD, rfl, hdom⟩ := (DominatorTree.useWellFormed_iff hx).1 (hwf U hU _ hk)
  cases hdb : F.blockOf? D.id with
  | none => simp [DominatorTree.dominatesUse, hdb] at hdom
  | some db =>
      refine ⟨D, hD, rfl, db, hdb, ?_⟩
      by_cases hin : pred ∈ U.blocks
      · have hu : DominatorTree.useBlock? F U (U.blocks.indexOf pred) = some pred := by
          simp [DominatorTree.useBlock?, hphi, hin]
        rcases (DominatorTree.dominatesUse_iff hdb hu).1 hdom with h | ⟨hdbr, h₁, -⟩
        · exact absurd hpred h
        · by_cases he : db = pred
          · exact he ▸ DominatorTree.dominatesBlock_refl hdbr
          · exact h₁ he
      · have hlen : U.blocks.length ≤ U.blocks.indexOf pred :=
          Nat.le_of_not_lt fun h => hin (List.indexOf_lt_length.1 h)
        have hu : DominatorTree.useBlock? F U (U.blocks.indexOf pred) = none := by
          simp [DominatorTree.useBlock?, hphi, hlen]
        simp [DominatorTree.dominatesUse, hdb, hu] at hdom

end Ssa

/-! ### Results in scope -/

section Scope

variable (F DT)

/-- `d` stands before the point of block `c` reached after the instructions `done` of `c`: among
them, or in a block strictly dominating `c`. -/
def Before (c : ℕ) (done : List Inst) (d : Inst) : Prop :=
  d ∈ done ∨ ∃ db, F.blockOf? d.id = some db ∧ db ≠ c ∧ DT.dominatesBlock db c

variable (sem) in
/-- At the point of block `c` reached after `done`, every instruction before it, other than a PHI
or a terminator, holds what it computes from the current results. -/
def Current (args : List ℤ) (c : ℕ) (done : List Inst) (env : ℕ → Option ℤ) : Prop :=
  ∀ d ∈ F.insts, d.isPhi = false → d.opcode.isTerminator = false → Before F DT c done d →
    env d.id = (evalValues args env d.operands).bind (sem d.operation)

variable {F DT}

variable {B : Block} (hB : B ∈ F.blocks) (hc : B.label ∈ DT.preorder)
include hB hc

/-- **Scope is closed under dominance**: an instruction dominating one in scope is in scope. -/
theorem before_of_dominates {done rest : List Inst} (hpos : B.insts = done ++ rest) {R P : Inst}
    (hP : P ∈ F.insts) (hRb : Before F DT B.label done R)
    (hPR : DT.dominates F P R) : Before F DT B.label done P := by
  obtain ⟨pb, hpb⟩ := DominatorTree.exists_blockOf_of_dominates hPR
  rcases hRb with hRd | ⟨rb, hrb, hne, hdom⟩
  · have hrb := Function.blockOf?_of_mem hB (hpos ▸ List.mem_append_left rest hRd)
    obtain ⟨-, -, h₁, h₂⟩ := DominatorTree.dominates_spec hpb hrb hc hPR
    by_cases he : pb = B.label
    · exact .inl (Function.mem_left_of_comesBefore hB hpos
        (Function.mem_of_blockOf? hB hP (he ▸ hpb)) hRd (h₂ he))
    · exact .inr ⟨pb, hpb, he, h₁ he⟩
  · have hrbr := (DominatorTree.dominatesBlock_iff.1 hdom).1
    obtain ⟨-, -, h₁, -⟩ := DominatorTree.dominates_spec hpb hrb hrbr hPR
    by_cases hpr : pb = rb
    · exact .inr ⟨pb, hpb, hpr ▸ hne, hpr ▸ hdom⟩
    · refine .inr ⟨pb, hpb, fun he => hne ?_, DominatorTree.dominatesBlock_trans (h₁ hpr) hdom⟩
      exact DominatorTree.dominatesBlock_antisymm hdom (he ▸ h₁ hpr)

variable (hwf : DT.WellFormed F)
include hwf

/-- Under SSA, the definition of an operand of an instruction other than a PHI is before it. -/
theorem before_of_operand {done rest : List Inst} {U : Inst} (hpos : B.insts = done ++ U :: rest)
    (hphi : U.isPhi = false) {x : ℕ} (hx : Value.inst x ∈ U.operands) :
    ∃ D ∈ F.insts, D.id = x ∧ Before F DT B.label done D := by
  have hU : U ∈ B.insts := hpos ▸ List.mem_append_right _ (List.mem_cons_self _ _)
  obtain ⟨D, hD, rfl, db, hdb, h₁, h₂⟩ := exists_def_of_operand hwf (Function.mem_insts.2
    ⟨B, hB, hU⟩) (Function.blockOf?_of_mem hB hU) hc hphi hx
  refine ⟨D, hD, rfl, ?_⟩
  by_cases he : db = B.label
  · have hDU := h₂ he
    have hD' := Function.mem_left_of_comesBefore hB
      (by simp [hpos] : B.insts = (done ++ [U]) ++ rest) (Function.mem_of_blockOf? hB hD (he ▸ hdb))
      (List.mem_append_right _ (List.mem_singleton_self U)) hDU
    refine .inl ((List.mem_append.1 hD').resolve_right fun hDU' => ?_)
    rw [List.mem_singleton.1 hDU', Function.comesBefore_irrefl] at hDU
    exact absurd hDU (by decide)
  · exact .inr ⟨db, hdb, he, h₁ he⟩

/-- Under SSA, no instruction other than a PHI before the point after `I` uses `I`, `I`
included. -/
theorem not_mem_operands {done rest : List Inst} {I : Inst} (hpos : B.insts = done ++ I :: rest)
    {d : Inst} (hd : d ∈ F.insts) (hphi : d.isPhi = false)
    (hbef : Before F DT B.label (done ++ [I]) d) : Value.inst I.id ∉ d.operands := by
  intro hx
  have hI : I ∈ B.insts := hpos ▸ List.mem_append_right _ (List.mem_cons_self _ _)
  have hIb := Function.blockOf?_of_mem hB hI
  rcases hbef with hdd | ⟨db, hdb, hne, hdom⟩
  · have hdb : d ∈ B.insts := by
      rw [hpos]
      simp only [List.mem_append, List.mem_singleton, List.mem_cons] at hdd ⊢
      tauto
    obtain ⟨D, hD, hDI, ib, hib, -, h₂⟩ := exists_def_of_operand hwf hd
      (Function.blockOf?_of_mem hB hdb) hc hphi hx
    cases F.eq_of_id_eq hD (Function.mem_insts.2 ⟨B, hB, hI⟩) hDI
    rw [hIb, Option.some.injEq] at hib
    have hId := h₂ hib.symm
    rcases List.mem_append.1 hdd with hdd | hdd
    · have := Function.comesBefore_asymm hId
      rw [Function.comesBefore_of_append hB hpos hdd (List.mem_cons_self _ _)] at this
      exact absurd this (by decide)
    · rw [List.mem_singleton.1 hdd, Function.comesBefore_irrefl] at hId
      exact absurd hId (by decide)
  · obtain ⟨D, hD, hDI, ib, hib, h₁, -⟩ := exists_def_of_operand hwf hd hdb
      (DominatorTree.dominatesBlock_iff.1 hdom).1 hphi hx
    cases F.eq_of_id_eq hD (Function.mem_insts.2 ⟨B, hB, hI⟩) hDI
    rw [hIb, Option.some.injEq] at hib
    subst hib
    exact hne (DominatorTree.dominatesBlock_antisymm hdom (h₁ (Ne.symm hne)))

/-- **The step of the invariant.**  Executing an instruction of the block that is not a
terminator keeps the results in scope current, with the instruction's own result when it is in
scope itself. -/
theorem current_step {args : List ℤ} {done rest : List Inst} {I : Inst}
    (hpos : B.insts = done ++ I :: rest) {env : ℕ → Option ℤ}
    (hcur : Current sem F DT args B.label done env) (a : ℤ)
    (ha : I.isPhi = false → (evalValues args env I.operands).bind (sem I.operation) = some a) :
    Current sem F DT args B.label (done ++ [I]) (Function.update env I.id (some a)) := by
  intro d hd hphi hterm hbef
  have hI : I ∈ F.insts :=
    Function.mem_insts.2 ⟨B, hB, hpos ▸ List.mem_append_right _ (List.mem_cons_self _ _)⟩
  have hnu := not_mem_operands hB hc hwf hpos hd hphi hbef
  rw [evalValues_congr fun v hv => by
    cases v with
    | inst y => exact Function.update_noteq (fun e => hnu (by rw [← e]; exact hv)) _ _
    | arg _ => rfl
    | const _ _ => rfl]
  by_cases hdI : d = I
  · subst hdI
    rw [Function.update_same, ha hphi]
  · have hne : d.id ≠ I.id := fun e => hdI (F.eq_of_id_eq hd hI e)
    rw [Function.update_noteq hne]
    refine hcur d hd hphi hterm (hbef.imp_left fun hdd => ?_)
    exact (List.mem_append.1 hdd).resolve_right fun h => hdI (List.mem_singleton.1 h)

variable (hsem : KeyDetermined sem) (hb : numberingBound F + 1 < 2 ^ 32)
include hsem hb

omit hwf in
/-- **In scope, a flagged instruction and its replacement hold the same result**: the
replacement dominates it, so is in scope too, and both compute one value from the same
results. -/
theorem eq_of_flagged {args : List ℤ} {done rest : List Inst} (hpos : B.insts = done ++ rest)
    {env : ℕ → Option ℤ} (hcur : Current sem F DT args B.label done env) {R P : Inst}
    (h : (R, P) ∈ (RedundancyAnalysis.run F DT).redundantInstructions)
    (hR : Before F DT B.label done R) : env R.id = env P.id := by
  obtain ⟨hRF, hPF, hRa, hPa, -, -, hdom, -⟩ := pair_spec h
  obtain ⟨hRphi, hRterm⟩ := isPhi_isTerminator_of_isAnalyzable hRa
  obtain ⟨hPphi, hPterm⟩ := isPhi_isTerminator_of_isAnalyzable hPa
  have hsame := evalInst_eq_of_sameKey hsem hRphi (sameKey_of_mem_run hb h) args env env 0
  rw [evalInst_of_isPhi_eq_false hRphi, evalInst_of_isPhi_eq_false hPphi] at hsame
  calc env R.id = (evalValues args env R.operands).bind (sem R.operation) :=
        hcur R hRF hRphi hRterm hR
    _ = (evalValues args env P.operands).bind (sem P.operation) := hsame
    _ = env P.id :=
        (hcur P hPF hPphi hPterm (before_of_dominates hB hc hpos hPF hR hdom)).symm

end Scope

/-! ### The simulation -/

section Simulation

/-- Where the original and the result agree but at the erased instructions, and every flagged
instruction the operand names holds its replacement's result, the redirected operand has the
original's value. -/
theorem evalValue_replacementOf {args : List ℤ} {envG envF : ℕ → Option ℤ}
    (hag : ∀ y ∉ (RedundancyAnalysis.run F DT).redundantInstructions.map (·.1.id),
      envG y = envF y) {v : Value}
    (hv : ∀ R P, (R, P) ∈ (RedundancyAnalysis.run F DT).redundantInstructions →
      v = .inst R.id → envF R.id = envF P.id) (a : ℤ) (h : evalValue args envF v = some a) :
    evalValue args envG (replacementOf (RedundancyAnalysis.run F DT).redundantInstructions v) =
      some a := by
  by_cases hf : ∃ e ∈ (RedundancyAnalysis.run F DT).redundantInstructions, v = .inst e.1.id
  · obtain ⟨⟨R, P⟩, he, rfl⟩ := hf
    rw [replacementOf_of_mem nodup_redundant he]
    simp only [evalValue] at h ⊢
    rw [hag P.id (pair_spec he).2.2.2.2.2.2.2.2, ← hv R P he rfl, h]
  · push_neg at hf
    rw [replacementOf_of_not_mem hf]
    cases v with
    | inst y =>
        refine (hag y fun hy => ?_).trans h
        obtain ⟨e, he, rfl⟩ := List.mem_map.1 hy
        exact hf e he rfl
    | arg _ => exact h
    | const _ _ => exact h

/-- No terminator is flagged. -/
theorem not_mem_redundant_of_isTerminator {I : Inst} (hI : I ∈ F.insts)
    (hterm : I.opcode.isTerminator) :
    I.id ∉ (RedundancyAnalysis.run F DT).redundantInstructions.map (·.1.id) := fun hm => by
  obtain ⟨⟨R, P⟩, hRP, hRI⟩ := List.mem_map.1 hm
  obtain ⟨hRF, -, hRa, -⟩ := pair_spec hRP
  cases F.eq_of_id_eq hRF hI hRI
  rw [(isPhi_isTerminator_of_isAnalyzable hRa).2] at hterm
  exact absurd hterm (by decide)

variable (sem F DT) in
/-- What the simulation carries into block `cur` from `pred`: both blocks reachable, the results
agreeing but at erased instructions, the original's current, and each flagged instruction whose
block dominates `pred` holding its replacement's result. -/
structure Entry (args : List ℤ) (pred cur : ℕ) (envG envF : ℕ → Option ℤ) : Prop where
  pred_mem : pred ∈ DT.preorder
  cur_mem : cur ∈ DT.preorder
  agree : ∀ y ∉ (RedundancyAnalysis.run F DT).redundantInstructions.map (·.1.id), envG y = envF y
  current : Current sem F DT args cur [] envF
  flagged : ∀ R P, (R, P) ∈ (RedundancyAnalysis.run F DT).redundantInstructions → ∀ rb,
    F.blockOf? R.id = some rb → DT.dominatesBlock rb pred → envF R.id = envF P.id

variable (hsem : KeyDetermined sem) (hb : numberingBound F + 1 < 2 ^ 32)
  (hwf : DT.WellFormed F) (hsound : DT.Sound F) (hlast : F.TerminatorsLast)

/-- At the end of a block, an instruction other than a terminator whose block dominates it is
before the end. -/
theorem before_of_exit {B : Block} (hB : B ∈ F.blocks) {done : List Inst} {T : Inst}
    (hpos : B.insts = done ++ [T]) (hT : T.opcode.isTerminator) {d : Inst} (hd : d ∈ F.insts)
    (hterm : d.opcode.isTerminator = false) {db : ℕ} (hdb : F.blockOf? d.id = some db)
    (hdom : DT.dominatesBlock db B.label) : Before F DT B.label done d := by
  by_cases he : db = B.label
  · have hdB := Function.mem_of_blockOf? hB hd (he ▸ hdb)
    rw [hpos] at hdB
    refine .inl ((List.mem_append.1 hdB).resolve_right fun h => ?_)
    rw [List.mem_singleton.1 h, hT] at hterm
    exact absurd hterm (by decide)
  · exact .inr ⟨db, hdb, he, hdom⟩

include hsem hb hsound in
/-- **The edge out of a block.**  Leaving a reachable block along an edge of its terminator,
with the results of the original current at the end, hands the target what the simulation
carries. -/
theorem entry_of_exit {args : List ℤ} {B : Block} (hB : B ∈ F.blocks)
    (hc : B.label ∈ DT.preorder) {done : List Inst} {T : Inst} (hpos : B.insts = done ++ [T])
    (hT : T.opcode.isTerminator) {envG envF : ℕ → Option ℤ}
    (hag : ∀ y ∉ (RedundancyAnalysis.run F DT).redundantInstructions.map (·.1.id),
      envG y = envF y)
    (hcur : Current sem F DT args B.label done envF) {t : ℕ} (ht : t ∈ T.blocks) :
    Entry sem F DT args B.label t envG envF := by
  obtain ⟨htr, hdomt⟩ := hsound.2 B (List.mem_filter.2 ⟨hB, decide_eq_true hc⟩) T
    (List.mem_filter.2 ⟨hpos ▸ by simp, hT⟩) t ht
  refine ⟨hc, htr, hag, fun d hd hphi hterm hbef => ?_, fun R P h rb hrb hdom => ?_⟩
  · obtain ⟨db, hdb, hne, hdom⟩ := hbef.resolve_left (List.not_mem_nil d)
    exact hcur d hd hphi hterm (before_of_exit hB hpos hT hd hterm hdb (hdomt db
      (List.mem_filter.2 ⟨(DominatorTree.dominatesBlock_iff.1 hdom).1, by simp [hne, hdom]⟩)))
  · obtain ⟨hRF, -, hRa, -⟩ := pair_spec h
    exact eq_of_flagged hB hc hsem hb hpos hcur h
      (before_of_exit hB hpos hT hRF (isPhi_isTerminator_of_isAnalyzable hRa).2 hrb hdom)

include hsem hb hwf in
/-- At a point of a reachable block where the results agree but at the erased instructions and
those of the original are current, every operand of the next instruction, if it is not a PHI,
keeps its value once redirected. -/
theorem evalValue_redirect {args : List ℤ} {B : Block} (hB : B ∈ F.blocks)
    (hc : B.label ∈ DT.preorder) {done rest : List Inst} {U : Inst}
    (hpos : B.insts = done ++ U :: rest) {envG envF : ℕ → Option ℤ}
    (hag : ∀ y ∉ (RedundancyAnalysis.run F DT).redundantInstructions.map (·.1.id),
      envG y = envF y)
    (hcur : Current sem F DT args B.label done envF) (hphi : U.isPhi = false) :
    ∀ v ∈ U.operands, ∀ a, evalValue args envF v = some a → evalValue args envG
      (replacementOf (RedundancyAnalysis.run F DT).redundantInstructions v) = some a :=
  fun v hv => evalValue_replacementOf hag fun R P hRP hvR => by
    subst hvR
    obtain ⟨D, hD, hDR, hbef⟩ := before_of_operand hB hc hwf hpos hphi hv
    cases F.eq_of_id_eq hD (pair_spec hRP).1 hDR
    exact eq_of_flagged hB hc hsem hb hpos hcur hRP hbef

include hwf in
/-- On entry to a block from `pred`, the operand a PHI of the block reads for `pred` keeps its
value once redirected. -/
theorem evalValue_redirect_phi {args : List ℤ} {pred cur : ℕ} {entryG entryF : ℕ → Option ℤ}
    (hentry : Entry sem F DT args pred cur entryG entryF) {U : Inst} (hU : U ∈ F.insts)
    (hphi : U.isPhi) : ∀ v, U.operands[U.blocks.indexOf pred]? = some v → ∀ a,
      evalValue args entryF v = some a → evalValue args entryG
        (replacementOf (RedundancyAnalysis.run F DT).redundantInstructions v) = some a :=
  fun v hv => evalValue_replacementOf hentry.agree fun R P hRP hvR => by
    subst hvR
    obtain ⟨D, hD, hDR, db, hdb, hdom⟩ := exists_def_of_phi_operand hwf hU hphi hentry.pred_mem hv
    cases F.eq_of_id_eq hD (pair_spec hRP).1 hDR
    exact hentry.flagged R P hRP db hdb hdom

include hsem hb hwf hsound hlast in
/-- **The step of the simulation.**  From a reachable block, with the results agreeing but at
erased instructions, the result's code leaves the block as the original's does and hands the
target what the simulation carries. -/
theorem simInsts_survivors {args : List ℤ} {pred : ℕ} {B : Block} (hB : B ∈ F.blocks)
    {entryG entryF : ℕ → Option ℤ} (hentry : Entry sem F DT args pred B.label entryG entryF) :
    ∀ (rest done : List Inst) (envG envF : ℕ → Option ℤ) (e : Exit) (envF' : ℕ → Option ℤ),
      B.insts = done ++ rest →
      (∀ y ∉ (RedundancyAnalysis.run F DT).redundantInstructions.map (·.1.id),
        envG y = envF y) →
      Current sem F DT args B.label done envF →
      execInsts sem args entryF pred rest envF = some (e, envF') →
      ∃ envG', execInsts sem args entryG pred
          ((rest.map (redirectInst (RedundancyAnalysis.run F DT).redundantInstructions)).filter
            fun I => I.id ∉ (RedundancyAnalysis.run F DT).redundantInstructions.map (·.1.id))
          envG = some (e, envG') ∧
        ∀ t, e = .jump t → Entry sem F DT args B.label t envG' envF'
  | [], _, _, _, _, _, _, _, _, h => by simp [execInsts] at h
  | I :: rest, done, envG, envF, e, envF', hpos, hag, hcur, h => by
      have hc := hentry.cur_mem
      have hIF : I ∈ F.insts :=
        Function.mem_insts.2 ⟨B, hB, hpos ▸ List.mem_append_right _ (List.mem_cons_self _ _)⟩
      have hops := evalValue_redirect hsem hb hwf hB hc hpos hag hcur
      cases hterm : I.opcode.isTerminator
      · rw [execInsts_cons_of_not_isTerminator hterm] at h
        obtain ⟨a, ha, h⟩ := Option.bind_eq_some.1 h
        have hcur' := current_step hB hc hwf hpos hcur a fun hphi => by
          rwa [evalInst_of_isPhi_eq_false hphi] at ha
        have hpos' : B.insts = (done ++ [I]) ++ rest := by simp [hpos]
        have ih := simInsts_survivors hB hentry rest (done ++ [I])
        by_cases hIE : I.id ∈ (RedundancyAnalysis.run F DT).redundantInstructions.map (·.1.id)
        · -- erased: the result skips it
          rw [List.map_cons, List.filter_cons_of_neg (by simpa [redirectInst] using hIE)]
          refine ih envG _ e envF' hpos' (fun y hy => ?_) hcur' h
          rw [Function.update_noteq fun e => hy (by rw [e]; exact hIE), hag y hy]
        · -- kept: the redirected instruction computes the same value
          have haG : evalInst sem args entryG envG pred
              (redirectInst (RedundancyAnalysis.run F DT).redundantInstructions I) = some a :=
            evalInst_mapOperands (evalValue_redirect_phi hwf hentry hIF) hops ha
          rw [List.map_cons, List.filter_cons_of_pos (by simpa [redirectInst] using hIE),
            execInsts_cons_of_not_isTerminator (I := redirectInst _ I) hterm, haG, Option.some_bind]
          refine ih _ _ e envF' hpos' (fun y hy => ?_) hcur' h
          by_cases hyI : y = I.id
          · subst hyI; simp
          · rw [redirectInst_id, Function.update_noteq hyI, Function.update_noteq hyI, hag y hy]
      · -- the terminator: same successor, and the edge hands over the relation
        obtain ⟨⟨vals, hvals, he⟩, rfl⟩ := execInsts_cons_of_isTerminator_eq_some hterm h
        have hIE : I.id ∉ (RedundancyAnalysis.run F DT).redundantInstructions.map (·.1.id) :=
          not_mem_redundant_of_isTerminator hIF hterm
        have hvalsG := evalValues_map (hops (isPhi_eq_false_of_isTerminator hterm)) hvals
        rw [List.map_cons, List.filter_cons_of_pos (by simpa [redirectInst] using hIE),
          execInsts_cons_of_isTerminator (I := redirectInst _ I) hterm]
        refine ⟨envG, by simp [redirectInst, hvalsG, he], fun t ht => ?_⟩
        subst ht
        have hrest := hlast.eq_nil hB hpos hterm
        subst hrest
        exact entry_of_exit hsem hb hsound hB hc hpos hterm hag hcur
          (mem_blocks_of_terminate he)

include hsem hb hwf hsound hlast in
/-- The function the pass builds, in the closed form of
`OptPasses.RedundancyEliminationPass.eliminateRedundancies_eq`, refines the original. -/
theorem refines_redirect :
    Refines sem ((F.mapInsts (redirectInst (RedundancyAnalysis.run F DT).redundantInstructions)
      fun _ => rfl).filterInsts
        fun I => I.id ∉ (RedundancyAnalysis.run F DT).redundantInstructions.map (·.1.id)) F := by
  refine refines_of_simBlocks (by simp) (fun args pred cur envG envF =>
    Entry sem F DT args pred cur envG envF) (fun args l hl => ?_) ?_
  · -- the entry block: nothing strictly dominates it
    have hl' : DT.preorder.head? = some l := hsound.1.trans hl
    have hlm : l ∈ DT.preorder := List.mem_of_mem_head? hl'
    refine ⟨hlm, hlm, fun _ _ => rfl, fun d _ _ _ hbef => ?_, fun _ _ _ _ _ _ => rfl⟩
    obtain ⟨db, -, hne, hdom⟩ := hbef.resolve_left (List.not_mem_nil d)
    have hpos := DominatorTree.pos_lt_of_dominatesBlock hdom hne
    have h0 : DT.pos l = 0 := by
      obtain ⟨tl, htl⟩ := List.head?_eq_some_iff.1 hl'
      simp [DominatorTree.pos, htl]
    omega
  · intro args pred cur BF envG envF e envF' hBF hrel hx
    have hBm : BF ∈ F.blocks := List.mem_of_find?_eq_some hBF
    have hlab : BF.label = cur := by simpa using List.find?_some hBF
    subst hlab
    obtain ⟨envG', hxG, hnext⟩ := simInsts_survivors hsem hb hwf hsound hlast hBm hrel BF.insts []
      envG envF e envF' rfl hrel.agree hrel.current hx
    exact ⟨_, envG', by rw [Function.block?_filterInsts, Function.block?_mapInsts, hBF]; rfl,
      hxG, hnext⟩

include hsem hb hwf hsound hlast in
/-- **Redundancy elimination refines every function in SSA form** with terminators last and a
sound dominator tree, under a key-determined semantics and without wrap-around of the
numbering. -/
theorem run_refines : Refines sem (RedundancyEliminationPass.run F DT).1 F := by
  simp only [RedundancyEliminationPass.run, eliminateRedundancies_eq (chainFree_run F DT)]
  exact refines_redirect hsem hb hwf hsound hlast

/-- On the benchmark's `redundancy_test`, under `byteSem`. -/
theorem run_refines_redundancyTest :
    numberingBound redundancyTest + 1 < 2 ^ 32 ∧ redundancyTestDT.WellFormed redundancyTest ∧
      redundancyTestDT.Sound redundancyTest ∧ redundancyTest.TerminatorsLast ∧
      Refines byteSem (RedundancyEliminationPass.run redundancyTest redundancyTestDT).1
        redundancyTest :=
  ⟨by decide, by decide, by decide, by decide,
    run_refines byteSem_keyDetermined (by decide) (by decide) (by decide) (by decide)⟩

end Simulation

/-! ### The analyses the pass reports preserved -/

/-- The pass erases no terminator. -/
theorem keeps_terminators {I : Inst}
    (hI : I ∈ (F.mapInsts (redirectInst (RedundancyAnalysis.run F DT).redundantInstructions)
      fun _ => rfl).insts) (hterm : I.opcode.isTerminator) :
    decide (I.id ∉ (RedundancyAnalysis.run F DT).redundantInstructions.map (·.1.id)) = true := by
  obtain ⟨J, hJ, rfl⟩ := List.mem_map.1 (by simpa using hI)
  simpa using not_mem_redundant_of_isTerminator hJ hterm

variable (F DT) in
/-- The pass keeps the control-flow graph. -/
theorem cfg_run : (RedundancyEliminationPass.run F DT).1.cfg = F.cfg := by
  rw [run_fst_eq, Function.cfg_filterInsts fun I hI hterm => keeps_terminators hI hterm]
  exact Function.cfg_mapInsts _ fun _ => ⟨rfl, rfl⟩

/-- **What the pass reports preserved is preserved.**  It reports all analyses preserved exactly
when it changes nothing, and it keeps the control-flow graph, so that a dominator tree sound for
the input is sound for the result. -/
theorem run_preservedAnalyses (F : Function) (DT : DominatorTree) :
    ((RedundancyEliminationPass.run F DT).2 = .all ↔ (RedundancyEliminationPass.run F DT).1 = F) ∧
      (RedundancyEliminationPass.run F DT).1.cfg = F.cfg ∧
      (DT.Sound F → DT.Sound (RedundancyEliminationPass.run F DT).1) := by
  refine ⟨?_, cfg_run F DT, fun h => h.of_cfg_eq (cfg_run F DT)⟩
  rw [run_snd_eq, run_fst_eq]
  cases hM : (RedundancyAnalysis.run F DT).redundantInstructions with
  | nil =>
      simp only [List.isEmpty_nil, if_true, true_iff, List.map_nil, List.not_mem_nil,
        not_false_eq_true]
      rw [Function.filterInsts_of_forall _ fun _ => decide_eq_true trivial,
        Function.mapInsts_of_forall _ _ fun I => by simp [redirectInst, Inst.mapOperands]]
  | cons e M =>
      -- a flagged instruction is erased, so the result is shorter
      simp only [List.isEmpty_cons, if_false, reduceCtorEq, false_iff]
      intro hG
      have hlen := RedundancyEliminationPass.length_run F DT
      rw [run_fst_eq, hM, hG, List.length_cons] at hlen
      omega

end EliminationCorrect

end OptPasses
