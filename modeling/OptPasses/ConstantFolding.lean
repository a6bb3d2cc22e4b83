/-
**`ConstantFoldingPass`: collect candidates, then fold to a fixed point.**

`ConstantFoldingPass::run` first lets `ConstantFoldingVisitor` walk the function.  A binary
operator or a compare with two constant operands, a cast with a constant operand, a select with a
constant condition and a GEP with only constant operands is a candidate if
`ConstantFoldInstruction` folds it; every other instruction falls to `visitInstruction`, which
refuses it.  With no candidate the pass returns at once.  Otherwise it sweeps the function until a
sweep changes nothing: a sweep tries `ConstantFoldInstruction` on every instruction as it stands
(a fold earlier in the same sweep may just have made its operands constant), replaces all uses of
each one that folds by the constant and schedules it, then erases what it scheduled.

`ConstantFoldInstruction` belongs to LLVM; the model takes it as a parameter `fold`, which gives
the value of the constant it returns.  `OptPasses.ConstantFoldingPass.foldConstant` is one on
integers, with LLVM's rule for PHIs (all incoming values the same constant).

A sweep that changes something erases an instruction
(`OptPasses.ConstantFoldingPass.length_sweep_lt`), so for `n` instructions `n + 1` sweeps
suffice.  Once a sweep changes nothing, no instruction folds; so the output has no candidate, and
running the pass on it returns at once.  The early return, though, is taken whenever the
*visitor* finds nothing, and the visitor does not look at PHIs, calls, unary or vector
operations: a function whose foldable instructions are all of these is returned as it is.

Main definitions:

* `OptPasses.ConstantFoldingPass.visit` — `ConstantFoldingVisitor`, one definition per `visit*`
  method;
* `OptPasses.ConstantFoldingPass.sweep`, `OptPasses.ConstantFoldingPass.loop` — the body of the
  `do … while (Changed)` loop, and the loop;
* `OptPasses.ConstantFoldingPass.run`;
* `OptPasses.ConstantFoldingPass.Sound` — the evaluator agrees with a semantics.

Main results:

* `OptPasses.ConstantFoldingPass.loop_isSome` — the loop stops within `n + 1` sweeps;
* `OptPasses.ConstantFoldingPass.run_preserves` — a property that replacing the uses of a folded
  instruction by its constant and erasing an unused instruction both keep, the pass keeps;
* `OptPasses.ConstantFoldingPass.run_idempotent` — **the pass changes nothing on its own output**;
* `OptPasses.ConstantFoldingPass.run_terminates_and_refines` — **with a sound evaluator the loop
  stops, erases nothing still in use, and its result refines the function**;
* `OptPasses.ConstantFoldingPass.run_leaves_foldable_phi` — the early return leaves a foldable
  PHI in place;
* `OptPasses.ConstantFoldingPass.run_preservedAnalyses_of_lt` — the pass reports all analyses
  preserved exactly when it changes nothing, and, folding no terminator, keeps the control-flow
  graph it claims to keep.
-/

import OptPasses.Semantics

set_option relaxedAutoImplicit false
set_option autoImplicit false

namespace OptPasses

namespace ConstantFoldingPass

open Semantics

/-! ### The visitor -/

/-- `isa<Constant>(I.getOperand(k))`. -/
def operandIsConst (I : Inst) (k : ℕ) : Bool := (I.operands[k]?.map Value.isConst).getD false

/-- `ConstantFoldingVisitor::allOperandsConstant`. -/
def allOperandsConstant (I : Inst) : Bool := I.operands.all Value.isConst

variable (fold : Inst → Option ℤ)

/-- What every `visit*` method that can accept does: the operands it inspects are constants and
`ConstantFoldInstruction` folds the instruction. -/
def visitWith (inspected : Bool) (I : Inst) : Bool := inspected && (fold I).isSome

/-- `ConstantFoldingVisitor::visitBinaryOperator`. -/
def visitBinaryOperator (I : Inst) : Bool :=
  visitWith fold (operandIsConst I 0 && operandIsConst I 1) I

/-- `ConstantFoldingVisitor::visitCastInst`. -/
def visitCastInst (I : Inst) : Bool := visitWith fold (operandIsConst I 0) I

/-- `ConstantFoldingVisitor::visitCmpInst`. -/
def visitCmpInst (I : Inst) : Bool := visitWith fold (operandIsConst I 0 && operandIsConst I 1) I

/-- `ConstantFoldingVisitor::visitSelectInst`: `getCondition()` is the first operand. -/
def visitSelectInst (I : Inst) : Bool := visitWith fold (operandIsConst I 0) I

/-- `ConstantFoldingVisitor::visitGetElementPtrInst`. -/
def visitGetElementPtrInst (I : Inst) : Bool := visitWith fold (allOperandsConstant I) I

/-- `ConstantFoldingVisitor::visitInstruction`, for every other instruction. -/
def visitInstruction (_ : Inst) : Bool := false

/-- `InstVisitor::visit`: the method of the instruction's class. -/
def visit (I : Inst) : Bool :=
  if I.opcode.isBinaryOp then visitBinaryOperator fold I
  else if I.opcode.isCast then visitCastInst fold I
  else if I.opcode.isCmp then visitCmpInst fold I
  else if I.opcode = .select then visitSelectInst fold I
  else if I.opcode = .getElementPtr then visitGetElementPtrInst fold I
  else visitInstruction I

/-- Phase 1: the candidates the visitor collects, block by block. -/
def candidates (F : Function) : List Inst := F.insts.filter (visit fold)

/-! ### The sweeps -/

/-- One iteration of a sweep, on the instruction with handle `id` as it stands: if `tryFold`
succeeds, `replaceAndScheduleRemoval`. -/
def foldStep (acc : Function × List ℕ) (id : ℕ) : Function × List ℕ :=
  match acc.1.inst? id with
  | some I =>
      match fold I with
      | some c => (acc.1.replaceAllUsesWith id (.const I.type c), acc.2 ++ [id])
      | none => acc
  | none => acc

/-- The nested loops of a sweep over the blocks and their instructions.  Nothing is erased during
them (`make_early_inc_range` aside), so they visit the handles of the function on entry. -/
def foldAll (F : Function) : Function × List ℕ := F.ids.foldl (foldStep fold) (F, [])

/-- One pass of the `do … while (Changed)` loop: fold, then erase what was scheduled; with the
number of instructions folded. -/
def sweep (F : Function) : Function × ℕ :=
  ((foldAll fold F).1.eraseAll (foldAll fold F).2, (foldAll fold F).2.length)

/-- The `do … while (Changed)` loop, for at most `fuel` sweeps, accumulating `TotalFolded` (an
`unsigned`); `none` if no sweep within `fuel` changes nothing. -/
def loop : ℕ → Function → ℕ → Option (Function × ℕ)
  | 0, _, _ => none
  | fuel + 1, F, total =>
      if (sweep fold F).2 = 0 then some ((sweep fold F).1, total)
      else loop fuel (sweep fold F).1 ((total + (sweep fold F).2) % 2 ^ 32)

/-- `ConstantFoldingPass::run`.  The loop gets the `n + 1` sweeps it needs for `n` instructions
(`OptPasses.ConstantFoldingPass.loop_isSome`), so its `none` is never met. -/
def run (F : Function) : Function × PreservedAnalyses :=
  if (candidates fold F).isEmpty then (F, .all)
  else
    match loop fold (F.insts.length + 1) F 0 with
    | some (G, total) => (G, if total > 0 then .none else .all)
    | none => (F, .all)

variable {fold}

/-! ### The visitor accepts only what folds -/

theorem isSome_of_visitWith {b : Bool} {I : Inst} (h : visitWith fold b I = true) :
    (fold I).isSome := by
  simp only [visitWith, Bool.and_eq_true] at h
  exact h.2

theorem isSome_of_visit {I : Inst} (h : visit fold I = true) : (fold I).isSome := by
  unfold visit at h
  split_ifs at h
  all_goals first | exact isSome_of_visitWith h | cases h

theorem candidates_eq_nil {F : Function} (h : ∀ I ∈ F.insts, fold I = none) :
    candidates fold F = [] :=
  List.filter_eq_nil_iff.2 fun I hI hv => by simpa [h I hI] using isSome_of_visit hv

/-- With no candidate the pass returns at once. -/
theorem run_of_candidates_eq_nil {F : Function} (h : candidates fold F = []) :
    run fold F = (F, .all) := by
  simp [run, h]

/-! ### One iteration of a sweep -/

variable (fold) in
/-- **The step lemma**: an iteration leaves the state alone, the instruction `id` not folding, or
folds it as it stands. -/
theorem foldStep_cases (acc : Function × List ℕ) (id : ℕ) :
    (foldStep fold acc id = acc ∧ ∀ I, acc.1.inst? id = some I → fold I = none) ∨
      ∃ I c, acc.1.inst? id = some I ∧ fold I = some c ∧
        foldStep fold acc id = (acc.1.replaceAllUsesWith id (.const I.type c), acc.2 ++ [id]) := by
  unfold foldStep
  cases h : acc.1.inst? id with
  | none => simp
  | some I =>
      cases hc : fold I with
      | none => simp [hc]
      | some c => exact .inr ⟨I, c, rfl, hc, by simp [hc]⟩

variable (fold) in
/-- What a sweep's state satisfies, with `F` the function on entry. -/
structure SweepInv (F : Function) (acc : Function × List ℕ) : Prop where
  length : acc.1.insts.length = F.insts.length
  ids : acc.1.ids = F.ids
  /-- What was scheduled is an instruction of `F`, and nothing uses it any more. -/
  scheduled : ∀ x ∈ acc.2, x ∈ F.ids ∧ ¬ acc.1.Uses x
  /-- A scheduled instruction has the opcode of one the evaluator folded. -/
  folded : ∀ I ∈ acc.1.insts, I.id ∈ acc.2 → ∃ J c, fold J = some c ∧ J.opcode = I.opcode

theorem sweepInv_init (F : Function) : SweepInv fold F (F, []) :=
  ⟨rfl, rfl, by simp, by simp⟩

/-- An iteration keeps the invariant. -/
theorem sweepInv_foldStep {F : Function} {acc : Function × List ℕ} (h : SweepInv fold F acc)
    (id : ℕ) : SweepInv fold F (foldStep fold acc id) := by
  rcases foldStep_cases fold acc id with ⟨he, -⟩ | ⟨I, c, hI, hc, he⟩
  · rwa [he]
  rw [he]
  obtain ⟨hIm, rfl⟩ := Function.inst?_eq_some.1 hI
  have hnew : Value.const I.type c ≠ .inst I.id := fun h => Value.noConfusion h
  refine ⟨by simpa [Function.replaceAllUsesWith] using h.length,
    by simpa [Function.replaceAllUsesWith] using h.ids, fun x hx => ?_, fun I' hI' hx => ?_⟩
  · rcases List.mem_append.1 hx with hx | hx
    · exact ⟨(h.scheduled x hx).1,
        Function.not_uses_replaceAllUsesWith_of_not_uses (h.scheduled x hx).2 (by simp)⟩
    · obtain rfl : x = I.id := by simpa using hx
      exact ⟨h.ids ▸ Function.mem_ids.2 ⟨I, hIm, rfl⟩,
        Function.not_uses_replaceAllUsesWith hnew⟩
  · simp only [Function.replaceAllUsesWith, Function.insts_mapInsts, List.mem_map] at hI'
    obtain ⟨J, hJ, rfl⟩ := hI'
    rcases List.mem_append.1 hx with hx | hx
    · exact h.folded J hJ hx
    · obtain rfl : J = I := acc.1.eq_of_id_eq hJ hIm (by simpa using hx)
      exact ⟨J, c, hc, rfl⟩

theorem sweepInv_foldl {F : Function} :
    ∀ (l : List ℕ) {acc : Function × List ℕ}, SweepInv fold F acc →
      SweepInv fold F (l.foldl (foldStep fold) acc)
  | [], _, h => h
  | id :: l, _, h => sweepInv_foldl l (sweepInv_foldStep h id)

variable (fold) in
theorem sweepInv_foldAll (F : Function) : SweepInv fold F (foldAll fold F) :=
  sweepInv_foldl _ (sweepInv_init F)

/-- The schedule only grows, by handles visited, each once. -/
theorem foldl_foldStep_snd :
    ∀ (l : List ℕ) (acc : Function × List ℕ),
      ∃ s, (l.foldl (foldStep fold) acc).2 = acc.2 ++ s ∧ s.Sublist l
  | [], _ => ⟨[], by simp⟩
  | id :: l, acc => by
      obtain ⟨s, hs, hsub⟩ := foldl_foldStep_snd l (foldStep fold acc id)
      rcases foldStep_cases fold acc id with ⟨he, -⟩ | ⟨_, _, -, -, he⟩
      · exact ⟨s, by rw [List.foldl_cons, hs, he], hsub.cons _⟩
      · exact ⟨[id] ++ s, by rw [List.foldl_cons, hs, he, List.append_assoc], hsub.cons₂ _⟩

/-- A sweep that schedules nothing changed nothing, and found nothing to fold. -/
theorem foldl_foldStep_of_nil {G : Function} :
    ∀ l : List ℕ, (l.foldl (foldStep fold) (G, [])).2 = [] →
      l.foldl (foldStep fold) (G, []) = (G, []) ∧ ∀ id ∈ l, ∀ I, G.inst? id = some I → fold I = none
  | [], _ => ⟨rfl, by simp⟩
  | id :: l, h => by
      rcases foldStep_cases fold (G, []) id with ⟨he, hnone⟩ | ⟨I, c, -, -, he⟩
      · rw [List.foldl_cons, he] at h ⊢
        obtain ⟨h₁, h₂⟩ := foldl_foldStep_of_nil l h
        exact ⟨h₁, List.forall_mem_cons.2 ⟨hnone, h₂⟩⟩
      · obtain ⟨s, hs, -⟩ := foldl_foldStep_snd l (foldStep fold (G, []) id)
        rw [List.foldl_cons, hs, he] at h
        simp at h

/-! ### Sweeps -/

/-- A sweep that folds nothing leaves the function as it is, and then nothing in it folds. -/
theorem sweep_of_zero {F : Function} (h : (sweep fold F).2 = 0) :
    (sweep fold F).1 = F ∧ ∀ I ∈ F.insts, fold I = none := by
  have hnil : (foldAll fold F).2 = [] := List.eq_nil_of_length_eq_zero h
  obtain ⟨he, hnone⟩ := foldl_foldStep_of_nil F.ids hnil
  refine ⟨?_, fun I hI => hnone I.id (Function.mem_ids.2 ⟨I, hI, rfl⟩) I
    (Function.inst?_eq_some.2 ⟨hI, rfl⟩)⟩
  simp only [sweep, foldAll, he]
  rfl

variable (fold) in
/-- A sweep erases exactly the instructions it folds. -/
theorem length_sweep (F : Function) :
    (sweep fold F).1.insts.length + (sweep fold F).2 = F.insts.length := by
  have hinv := sweepInv_foldAll fold F
  obtain ⟨s, hs, hsub⟩ := foldl_foldStep_snd F.ids (F, [])
  rw [List.nil_append] at hs
  rw [sweep, ← hinv.length]
  refine Function.length_eraseAll ?_ fun x hx => hinv.ids ▸ (hinv.scheduled x hx).1
  rw [foldAll, hs]
  exact (Function.ids_nodup' (F := F)).sublist hsub

/-- A sweep that folds something erases at least one instruction. -/
theorem length_sweep_lt {F : Function} (h : (sweep fold F).2 ≠ 0) :
    (sweep fold F).1.insts.length < F.insts.length := by
  have := length_sweep fold F
  omega

variable (fold) in
/-- **The loop stops**: with more sweeps than instructions it reaches a sweep that changes
nothing. -/
theorem loop_isSome : ∀ (fuel : ℕ) (F : Function) (total : ℕ), F.insts.length < fuel →
    (loop fold fuel F total).isSome
  | 0, _, _, h => absurd h (Nat.not_lt_zero _)
  | fuel + 1, F, total, h => by
      unfold loop
      split_ifs with hz
      · rfl
      · exact loop_isSome fuel _ _ (by have := length_sweep_lt hz; omega)

/-- When the loop stops, no instruction folds. -/
theorem loop_spec : ∀ {fuel : ℕ} {F G : Function} {total t : ℕ},
    loop fold fuel F total = some (G, t) → ∀ I ∈ G.insts, fold I = none
  | 0, _, _, _, _, h => by simp [loop] at h
  | fuel + 1, F, G, total, t, h => by
      unfold loop at h
      split_ifs at h with hz
      · obtain ⟨rfl, -⟩ := Prod.mk.inj (Option.some.inj h)
        rw [(sweep_of_zero hz).1]
        exact (sweep_of_zero hz).2
      · exact loop_spec h

/-- What the loop returns: the function as it was with the total unchanged, or a shorter function
with the total grown, modulo `2 ^ 32`, by the number of instructions erased. -/
theorem loop_eq_some : ∀ {fuel : ℕ} {F G : Function} {total t : ℕ}, total < 2 ^ 32 →
    loop fold fuel F total = some (G, t) → (G = F ∧ t = total) ∨
      (G.insts.length < F.insts.length ∧
        t = (total + (F.insts.length - G.insts.length)) % 2 ^ 32)
  | 0, _, _, _, _, _, h => by simp [loop] at h
  | fuel + 1, F, G, total, t, ht, h => by
      unfold loop at h
      split_ifs at h with hz
      · obtain ⟨rfl, rfl⟩ := Prod.mk.inj (Option.some.inj h)
        exact .inl ⟨(sweep_of_zero hz).1, rfl⟩
      · have hlen := length_sweep fold F
        right
        rcases loop_eq_some (Nat.mod_lt _ (Nat.two_pow_pos 32)) h with ⟨rfl, rfl⟩ | ⟨hlt, rfl⟩
        · exact ⟨by omega, by congr 1; omega⟩
        · exact ⟨by omega, by rw [Nat.mod_add_mod]; congr 1; omega⟩

/-- The output of the pass has no candidate. -/
theorem candidates_run (F : Function) : candidates fold (run fold F).1 = [] := by
  unfold run
  split_ifs with hc
  · exact List.isEmpty_iff.1 hc
  · split
    · exact candidates_eq_nil (loop_spec ‹_›)
    · rename_i hnone
      have := loop_isSome fold (F.insts.length + 1) F 0 (by omega)
      rw [hnone] at this
      cases this

/-- **The pass is idempotent**: run on its own output it changes nothing and preserves every
analysis. -/
theorem run_idempotent (F : Function) : run fold (run fold F).1 = ((run fold F).1, .all) :=
  run_of_candidates_eq_nil (candidates_run F)

/-! ### What every step of the pass keeps

A property of functions that replacing the uses of a folded instruction by its constant and
erasing an unused instruction other than a terminator both keep is kept by the pass. -/

section Preserve

variable (P : Function → Prop)
  (hrep : ∀ G I c, I ∈ G.insts → fold I = some c → P G →
    P (G.replaceAllUsesWith I.id (.const I.type c)))
  (herase : ∀ G x, ¬ G.Uses x → (∀ I ∈ G.insts, I.id = x → I.opcode.isTerminator = false) →
    P G → P (G.eraseFromParent x))

include hrep in
theorem foldl_preserves :
    ∀ (l : List ℕ) (acc : Function × List ℕ), P acc.1 → P (l.foldl (foldStep fold) acc).1
  | [], _, h => h
  | id :: l, acc, h => by
      refine foldl_preserves l _ ?_
      rcases foldStep_cases fold acc id with ⟨he, -⟩ | ⟨I, c, hI, hc, he⟩
      · rwa [he]
      · obtain ⟨hIm, rfl⟩ := Function.inst?_eq_some.1 hI
        rw [he]
        exact hrep _ I c hIm hc h

include herase in
/-- The deletion loop keeps the property when nothing uses what it erases and none of it is a
terminator. -/
theorem eraseAll_preserves : ∀ {G : Function} (toDelete : List ℕ), (∀ x ∈ toDelete, ¬ G.Uses x) →
    (∀ I ∈ G.insts, I.id ∈ toDelete → I.opcode.isTerminator = false) → P G →
      P (G.eraseAll toDelete)
  | _, [], _, _, h => h
  | G, x :: toDelete, hu, ht, h => by
      have hsub : ∀ I ∈ (G.eraseFromParent x).insts, I ∈ G.insts := fun I hI => by
        simp only [Function.eraseFromParent, Function.insts_filterInsts, List.mem_filter] at hI
        exact hI.1
      exact eraseAll_preserves toDelete
        (fun y hy => Function.not_uses_filterInsts (hu y (List.mem_cons_of_mem _ hy)))
        (fun I hI hy => ht I (hsub I hI) (List.mem_cons_of_mem _ hy))
        (herase G x (hu x (List.mem_cons_self _ _))
          (fun I hI hIx => ht I hI (hIx ▸ List.mem_cons_self _ _)) h)

variable (hterm : ∀ I c, fold I = some c → I.opcode.isTerminator = false)
include hterm hrep herase

theorem sweep_preserves {F : Function} (h : P F) : P (sweep fold F).1 := by
  have hinv := sweepInv_foldAll fold F
  refine eraseAll_preserves P herase _ (fun x hx => (hinv.scheduled x hx).2) (fun I hI hx => ?_)
    (foldl_preserves P hrep F.ids (F, []) h)
  obtain ⟨J, c, hc, hop⟩ := hinv.folded I hI hx
  exact hop ▸ hterm J c hc

theorem loop_preserves : ∀ {fuel : ℕ} {F G : Function} {total t : ℕ},
    loop fold fuel F total = some (G, t) → P F → P G
  | 0, _, _, _, _, h => by simp [loop] at h
  | fuel + 1, F, G, total, t, h => fun hF => by
      unfold loop at h
      split_ifs at h with hz
      · obtain ⟨rfl, -⟩ := Prod.mk.inj (Option.some.inj h)
        exact sweep_preserves P hrep herase hterm hF
      · exact loop_preserves h (sweep_preserves P hrep herase hterm hF)

/-- **Every step of the pass keeps the property, so the pass does.** -/
theorem run_preserves {F : Function} (h : P F) : P (run fold F).1 := by
  unfold run
  split_ifs
  · exact h
  · split
    · exact loop_preserves P hrep herase hterm ‹_› h
    · exact h

end Preserve

/-! ### What the pass reports preserved -/

/-- When `ConstantFoldInstruction` folds no terminator, the pass keeps the control-flow graph. -/
theorem cfg_run (hterm : ∀ I c, fold I = some c → I.opcode.isTerminator = false) (F : Function) :
    (run fold F).1.cfg = F.cfg :=
  run_preserves (fun G => G.cfg = F.cfg)
    (fun _ _ _ _ _ h => (Function.cfg_replaceAllUsesWith _ _).trans h)
    (fun _ _ _ ht h => (Function.cfg_eraseFromParent ht).trans h) hterm rfl

/-- **What the pass reports preserved is preserved.**  Below `2 ^ 32` instructions it reports all
analyses preserved exactly when it changes nothing; folding no terminator, it keeps the
control-flow graph. -/
theorem run_preservedAnalyses_of_lt (F : Function) (hF : F.insts.length < 2 ^ 32) :
    ((run fold F).2 = .all ↔ (run fold F).1 = F) ∧
      ((∀ I c, fold I = some c → I.opcode.isTerminator = false) → (run fold F).1.cfg = F.cfg) := by
  refine ⟨?_, fun hterm => cfg_run hterm F⟩
  unfold run
  split_ifs
  · simp
  · obtain ⟨⟨G, t⟩, hl⟩ := Option.isSome_iff_exists.1 (loop_isSome fold _ F 0 (Nat.lt_succ_self _))
    rw [hl]
    rcases loop_eq_some (Nat.two_pow_pos 32) hl with ⟨rfl, rfl⟩ | ⟨hlt, rfl⟩
    · simp
    · have hne : G ≠ F := fun e => by rw [e] at hlt; exact lt_irrefl _ hlt
      simp only [hne, iff_false, Nat.zero_add]
      rw [Nat.mod_eq_of_lt (by omega), if_pos (by omega)]
      exact fun h => PreservedAnalyses.noConfusion h

/-! ### Soundness -/

/-- The evaluator is sound for the semantics `sem`: what it folds is not a terminator, and every
execution of it that yields a value yields the folded constant. -/
def Sound (sem : Inst → List ℤ → Option ℤ) (fold : Inst → Option ℤ) : Prop :=
  ∀ I c, fold I = some c → I.opcode.isTerminator = false ∧
    ∀ args entry env pred a, evalInst sem args entry env pred I = some a → a = c

/-! ### A constant evaluator on integers -/

/-- A `ConstantFoldInstruction` on integers.  Every operand must be a constant; a PHI whose
incoming values are all one constant folds to it, as LLVM's does, and any other instruction folds
to what `intSem` gives it. -/
def foldConstant (I : Inst) : Option ℤ :=
  match evalValues [] (fun _ => none) I.operands with
  | none => none
  | some vals =>
      if I.isPhi then
        match vals with
        | c :: cs => if cs.all (· = c) then some c else none
        | [] => none
      else intSem I.operation vals

/-- `foldConstant` folds only instructions whose operands are all constants. -/
theorem foldConstant_operands_const (I : Inst) (h : (foldConstant I).isSome) :
    ∀ v ∈ I.operands, v.isConst := by
  unfold foldConstant at h
  split at h
  · simp at h
  · rename_i vals hvals
    intro v hv
    obtain ⟨k, hk⟩ := List.getElem?_of_mem hv
    obtain ⟨a, -, ha⟩ := evalValue_of_getElem? hvals hk
    cases v <;> simp_all [evalValue, Value.isConst]

theorem intSem_isTerminator {I : Inst} {vals : List ℤ} {c : ℤ} (h : intSem I vals = some c) :
    I.opcode.isTerminator = false := by
  unfold intSem at h
  -- each case that yields a value is an arithmetic, compare, select or GEP opcode
  split at h <;> rename_i hop <;> first | (rw [hop]; rfl) | simp at h

/-- **`foldConstant` is sound for `intSem`.** -/
theorem foldConstant_sound : Sound intSem foldConstant := by
  intro I c h
  unfold foldConstant at h
  split at h
  · cases h
  rename_i vals hvals
  by_cases hphi : I.isPhi
  · simp only [hphi, if_true] at h
    refine ⟨by rw [of_decide_eq_true hphi]; rfl, fun args entry env pred a ha => ?_⟩
    cases vals with
    | nil => cases h
    | cons c' cs =>
      simp only at h
      split_ifs at h with hall
      cases h
      simp only [evalInst, hphi, if_true, Option.bind_eq_some] at ha
      obtain ⟨v, hv, hva⟩ := ha
      obtain ⟨b, hb, hclosed⟩ := evalValue_of_getElem? hvals hv
      rw [evalValue_closed hclosed] at hva
      cases hva
      have hmem := List.getElem?_mem hb
      rcases List.mem_cons.1 hmem with rfl | hmem
      · rfl
      · simpa using List.all_eq_true.1 hall _ hmem
  · simp only [hphi, Bool.false_eq_true, if_false] at h
    refine ⟨intSem_isTerminator h, fun args entry env pred a ha => ?_⟩
    have hvals' : evalValues args env (I.operands.map id) = some vals :=
      evalValues_map (fun v _ b hb => evalValue_closed hb) hvals
    rw [List.map_id] at hvals'
    simp only [evalInst, hphi, Bool.false_eq_true, if_false, hvals', Option.some_bind,
      Inst.operation] at ha
    exact Option.some.inj (ha.symm.trans h)

/-- `constant_folding_test` of the benchmark in SSA form: `a = 10 + 20`, `b = a * 2`, `c = b / 3`,
`d = 5 * 4 + 6 * 3`, and `a + b + c + d` returned when `100 > 50`, else `0`. -/
def constantFoldingTest : Function where
  numArgs := 0
  blocks := [
    ⟨0, [{ id := 1, opcode := .add, type := 32, operands := [.const 32 10, .const 32 20] },
      { id := 2, opcode := .mul, type := 32, operands := [.inst 1, .const 32 2] },
      { id := 3, opcode := .sDiv, type := 32, operands := [.inst 2, .const 32 3] },
      { id := 4, opcode := .mul, type := 32, operands := [.const 32 5, .const 32 4] },
      { id := 5, opcode := .mul, type := 32, operands := [.const 32 6, .const 32 3] },
      { id := 6, opcode := .add, type := 32, operands := [.inst 4, .inst 5] },
      { id := 7, opcode := .iCmp, type := 1, operands := [.const 32 100, .const 32 50],
        predicate := 38 },
      { id := 8, opcode := .br, type := 0, operands := [.inst 7], blocks := [1, 2] }]⟩,
    ⟨1, [{ id := 9, opcode := .add, type := 32, operands := [.inst 1, .inst 2] },
      { id := 10, opcode := .add, type := 32, operands := [.inst 9, .inst 3] },
      { id := 11, opcode := .add, type := 32, operands := [.inst 10, .inst 6] },
      { id := 12, opcode := .br, type := 0, operands := [], blocks := [2] }]⟩,
    ⟨2, [{ id := 13, opcode := .phi, type := 32, blocks := [0, 1],
           operands := [.const 32 0, .inst 11] },
      { id := 14, opcode := .ret, type := 0, operands := [.inst 13] }]⟩]
  labels_nodup := by decide
  ids_nodup := by decide

section Sound

variable {sem : Inst → List ℤ → Option ℤ} (hsound : Sound sem fold)
include hsound

/-- Under a sound evaluator the pass refines the function: replacing the uses of a folded
instruction by its constant and erasing an unused instruction both do. -/
theorem refines_run (F : Function) : Refines sem (run fold F).1 F :=
  run_preserves (fun G => Refines sem G F)
    (fun G I c hI hc h => (refines_replaceAllUsesWith _ fun J hJ hJI => by
      obtain rfl : J = I := G.eq_of_id_eq hJ hI hJI
      exact (hsound J c hc).2).trans h)
    (fun _ _ hx ht h => (refines_eraseFromParent hx ht).trans h)
    (fun I c hc => (hsound I c hc).1) (Refines.refl F)

/-- **Constant folding is correct.**  Under a sound evaluator, the loop stops within `n + 1`
sweeps for `n` instructions; in every sweep, each instruction the deletion loop erases has no use
left when it is erased; and the pass's result refines the function. -/
theorem run_terminates_and_refines (F : Function) :
    (loop fold (F.insts.length + 1) F 0).isSome ∧
      (∀ G pre x suf, (foldAll fold G).2 = pre ++ x :: suf →
        ¬ ((foldAll fold G).1.eraseAll pre).Uses x) ∧
      Refines sem (run fold F).1 F := by
  refine ⟨loop_isSome fold _ F 0 (Nat.lt_succ_self _), fun G pre x suf hx => ?_,
    refines_run hsound F⟩
  exact Function.not_uses_eraseAll ((sweepInv_foldAll fold G).scheduled x (by simp [hx])).2 pre

end Sound

/-- On the benchmark's `constant_folding_test`, with `foldConstant`. -/
theorem run_terminates_and_refines_constantFoldingTest :
    (loop foldConstant (constantFoldingTest.insts.length + 1) constantFoldingTest 0).isSome ∧
      (∀ G pre x suf, (foldAll foldConstant G).2 = pre ++ x :: suf →
        ¬ ((foldAll foldConstant G).1.eraseAll pre).Uses x) ∧
      Refines intSem (run foldConstant constantFoldingTest).1 constantFoldingTest :=
  run_terminates_and_refines foldConstant_sound constantFoldingTest

/-- The pass folds `constant_folding_test` down to its branches, the PHI and the return, and both
return `148`. -/
example : (run foldConstant constantFoldingTest).1.insts.length = 4 ∧
    execute intSem constantFoldingTest [] 3 = .returned (some 148) ∧
    execute intSem (run foldConstant constantFoldingTest).1 [] 3 = .returned (some 148) := by
  decide

/-- On the benchmark's `constant_folding_test`, with `foldConstant`: the pass reports what it
changed and keeps the control-flow graph. -/
theorem run_preservedAnalyses_of_lt_constantFoldingTest :
    constantFoldingTest.insts.length < 2 ^ 32 ∧
      ((run foldConstant constantFoldingTest).2 = .all ↔
        (run foldConstant constantFoldingTest).1 = constantFoldingTest) ∧
      (run foldConstant constantFoldingTest).1.cfg = constantFoldingTest.cfg :=
  have h := @run_preservedAnalyses_of_lt foldConstant constantFoldingTest (by decide)
  ⟨by decide, h.1, h.2 fun I c hc => (foldConstant_sound I c hc).1⟩

/-! ### The early return -/

/-- A PHI with one incoming constant: entry `br label %1`; `%1`: `%2 = phi i32 [ 7, %entry ]`,
`ret i32 %2`. -/
def phiSeven : Function where
  numArgs := 0
  blocks := [⟨0, [{ id := 1, opcode := .br, type := 0, operands := [], blocks := [1] }]⟩,
    ⟨1, [{ id := 2, opcode := .phi, type := 32, operands := [.const 32 7], blocks := [0] },
      { id := 3, opcode := .ret, type := 0, operands := [.inst 2] }]⟩]
  labels_nodup := by decide
  ids_nodup := by decide

/-- **The early return disagrees with the loop.**  Whatever evaluator folds the PHI of
`phiSeven`, the visitor finds no candidate and the pass returns the function unchanged, though the
first sweep of the loop would fold it. -/
theorem run_leaves_foldable_phi (fold : Inst → Option ℤ)
    (h : ∀ I ∈ phiSeven.insts, I.isPhi → (fold I).isSome) :
    run fold phiSeven = (phiSeven, .all) ∧ (∃ I ∈ phiSeven.insts, (fold I).isSome) ∧
      (sweep fold phiSeven).2 ≠ 0 := by
  obtain ⟨P, hP, hphi⟩ : ∃ P ∈ phiSeven.insts, P.isPhi := by decide
  have hfold := h P hP hphi
  exact ⟨run_of_candidates_eq_nil rfl, ⟨P, hP, hfold⟩,
    fun hz => by simp [(sweep_of_zero hz).2 P hP] at hfold⟩

/-- With `foldConstant`, which folds the PHI to `7`. -/
theorem run_leaves_foldable_phi_foldConstant :
    run foldConstant phiSeven = (phiSeven, .all) ∧
      (∃ I ∈ phiSeven.insts, (foldConstant I).isSome) ∧ (sweep foldConstant phiSeven).2 ≠ 0 :=
  run_leaves_foldable_phi foldConstant (by decide)

end ConstantFoldingPass

end OptPasses
