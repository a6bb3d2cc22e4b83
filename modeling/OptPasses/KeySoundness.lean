/-
**What an expression key leaves out.**

`RedundancyAnalysis` takes two instructions for one computation when their expression keys are
equal.  A key records the opcode, the result type, the value numbers of the operands (sorted for
a commutative opcode), a compare's predicate and a GEP's in-bounds flag; `OptPasses.SameKey` is
that list of fields with the numbers taken away, and without wrap-around every flagged pair agrees
on it (`OptPasses.RedundancyAnalysis.sameKey_of_mem_run`).  Equal keys make equal results only for
a semantics that reads nothing else of an instruction
(`OptPasses.KeySoundness.KeyDetermined`): under one, a flagged instruction and its replacement
compute the same value in every state.

LLVM's semantics is not one.  The result of a GEP depends on its source element type, that of an
`extractvalue` on its indices, that of a `shufflevector` on its mask, and none of them is in the
key.  `OptPasses.KeySoundness.gepPair` holds two GEPs that differ only in their source element
type: the walk gives them equal keys, the analysis flags the second as redundant with the first,
and the pass makes the function return the other address.

Main definitions:

* `OptPasses.KeySoundness.KeyDetermined` — a semantics that reads only what a key records;
* `OptPasses.KeySoundness.gepPair` — a byte GEP and a word GEP over one base and index.

Main results:

* `OptPasses.KeySoundness.evalInst_eq_of_sameKey` — instructions that agree on the key fields
  compute the same value under a key-determined semantics;
* `OptPasses.KeySoundness.evalInst_eq_of_mem_run` — **under a key-determined semantics, every
  flagged pair computes one function of the state**;
* `OptPasses.KeySoundness.intSem_not_keyDetermined` — the integer semantics, which sizes a GEP's
  step by its source element type, is not key-determined;
* `OptPasses.KeySoundness.gepPair_keys_collide` — **equal keys at states of the walk, different
  results**;
* `OptPasses.KeySoundness.run_gepPair_not_refines` — **the pass miscompiles `gepPair`**.
-/

import OptPasses.RedundancyElimination
import OptPasses.Semantics

set_option relaxedAutoImplicit false
set_option autoImplicit false

namespace OptPasses

namespace KeySoundness

open Semantics RedundancyAnalysis ValueNumberTable

/-- A semantics that reads of an instruction only what its expression key records: the opcode,
the result type, a compare's predicate, a GEP's in-bounds flag and the operand values, in either
order for a commutative opcode. -/
structure KeyDetermined (sem : Inst → List ℤ → Option ℤ) : Prop where
  congr : ∀ I J : Inst, I.opcode = J.opcode → I.type = J.type →
    (I.opcode.isCmp → I.predicate = J.predicate) →
    (I.opcode = .getElementPtr → I.inBounds = J.inBounds) → sem I.operation = sem J.operation
  comm : ∀ (I : Inst) (a b : ℤ), isCommutative I.opcode = true →
    sem I.operation [a, b] = sem I.operation [b, a]

variable {sem : Inst → List ℤ → Option ℤ}

/-- Under a key-determined semantics, two instructions other than PHIs that agree on the key
fields compute the same value in every state. -/
theorem evalInst_eq_of_sameKey (hsem : KeyDetermined sem) {I J : Inst} (hI : I.isPhi = false)
    (h : SameKey I J) (args : List ℤ) (entry env : ℕ → Option ℤ) (pred : ℕ) :
    evalInst sem args entry env pred I = evalInst sem args entry env pred J := by
  obtain ⟨hop, hty, hpred, hinb, hops⟩ := h
  have hJ : J.isPhi = false := by simpa [Inst.isPhi, hop] using hI
  simp only [evalInst, hI, hJ, Bool.false_eq_true, if_false,
    hsem.congr I J hop hty hpred hinb]
  rcases hops with h | ⟨hc, hl, h⟩
  · rw [h]
  · obtain ⟨u, v, huv⟩ := List.length_eq_two.1 (by simpa [h] using hl : J.operands.length = 2)
    rw [h, huv]
    simp only [List.reverse_cons, List.reverse_nil, List.nil_append, List.cons_append, evalValues]
    cases evalValue args env u <;> cases evalValue args env v <;>
      simp [hsem.comm J _ _ (hop ▸ hc)]

/-- The integer semantics with every GEP stepping over bytes: it reads nothing a key leaves
out. -/
def byteSem (I : Inst) (vals : List ℤ) : Option ℤ := intSem { I with attrs := [1] } vals

theorem byteSem_keyDetermined : KeyDetermined byteSem where
  congr I J hop _ hpred _ := by
    funext vals
    have hp : I.opcode = .iCmp → I.predicate = J.predicate := fun h => hpred (by rw [h]; rfl)
    simp only [byteSem, intSem, Inst.operation, hop]
    split <;> simp_all
  comm I a b hc := by
    simp only [byteSem, intSem, Inst.operation]
    cases hI : I.opcode <;> simp_all [isCommutative, Int.add_comm, Int.mul_comm]

/-- **Every flagged pair computes one function of the state**, under a key-determined semantics
and without wrap-around: in every state, the flagged instruction and its replacement define the
same value, or both none. -/
theorem evalInst_eq_of_mem_run (hsem : KeyDetermined sem) {F : Function} {DT : DominatorTree}
    (hb : numberingBound F + 1 < 2 ^ 32) {R P : Inst}
    (h : (R, P) ∈ (run F DT).redundantInstructions) (args : List ℤ) (entry env : ℕ → Option ℤ)
    (pred : ℕ) : evalInst sem args entry env pred R = evalInst sem args entry env pred P := by
  exact evalInst_eq_of_sameKey hsem (isPhi_isTerminator_of_isAnalyzable (pair_spec h).2.2.1).1
    (sameKey_of_mem_run hb h) args entry env pred

/-- Under `byteSem`, on the benchmark's `redundancy_test`: `c = x + y` and its replacement
`a = x + y`. -/
theorem evalInst_eq_of_mem_run_redundancyTest :
    numberingBound redundancyTest + 1 < 2 ^ 32 ∧
      (({ id := 5, opcode := .add, type := 32, operands := [.arg 0, .arg 1] } : Inst),
        ({ id := 3, opcode := .add, type := 32, operands := [.arg 0, .arg 1] } : Inst)) ∈
        (run redundancyTest redundancyTestDT).redundantInstructions ∧
      evalInst byteSem [1, 2, 3] (fun _ => none) (fun _ => none) 0
          { id := 5, opcode := .add, type := 32, operands := [.arg 0, .arg 1] } =
        evalInst byteSem [1, 2, 3] (fun _ => none) (fun _ => none) 0
          { id := 3, opcode := .add, type := 32, operands := [.arg 0, .arg 1] } :=
  ⟨by decide, by decide, @evalInst_eq_of_mem_run byteSem byteSem_keyDetermined redundancyTest
    redundancyTestDT (by decide) _ _ (by decide) _ _ _ _⟩

/-! ### Two GEPs that differ in their source element type -/

/-- `getelementptr i8, ptr %0, i64 1`: one byte past the argument. -/
def gepByte : Inst :=
  { id := 1, opcode := .getElementPtr, type := 64, operands := [.arg 0, .const 64 1],
    attrs := [1] }

/-- `getelementptr i32, ptr %0, i64 1`: one word past the argument. -/
def gepWord : Inst :=
  { id := 2, opcode := .getElementPtr, type := 64, operands := [.arg 0, .const 64 1],
    attrs := [4] }

/-- `ret ptr %2`. -/
def retWord : Inst := { id := 3, opcode := .ret, type := 0, operands := [.inst 2] }

/-- One block: both GEPs, then the word GEP is returned. -/
def gepPair : Function where
  numArgs := 1
  blocks := [⟨0, [gepByte, gepWord, retWord]⟩]
  labels_nodup := by decide
  ids_nodup := by decide

/-- Its dominator tree: the entry block alone. -/
def gepPairDT : DominatorTree := ⟨[(0, 0)], by decide⟩

/-- The integer semantics sizes a GEP's step by its source element type, which no key records. -/
theorem intSem_not_keyDetermined : ¬ KeyDetermined intSem := fun h => by
  have := congrFun (h.congr gepByte gepWord rfl rfl (by decide) (fun _ => rfl)) [1000, 1]
  revert this
  decide

/-- **Equal keys, different results.**  The byte and word GEPs of `gepPair` get one key, each in
the state the walk meets it in and both in the later one; with the argument `1000` they compute
`1001` and `1004`. -/
theorem gepPair_keys_collide :
    traversal gepPair gepPairDT = [gepByte, gepWord, retWord] ∧
      isAnalyzable gepByte ∧ isAnalyzable gepWord ∧
      ((numberArguments gepPair).createExpressionKey gepByte).1 =
        ((processInst gepPair gepPairDT (numberArguments gepPair, ⟨[]⟩) gepByte).1.createExpressionKey
          gepWord).1 ∧
      ((processInst gepPair gepPairDT (numberArguments gepPair, ⟨[]⟩) gepByte).1.createExpressionKey
          gepByte).1 =
        ((processInst gepPair gepPairDT (numberArguments gepPair, ⟨[]⟩) gepByte).1.createExpressionKey
          gepWord).1 ∧
      evalInst intSem [1000] (fun _ => none) (fun _ => none) 0 gepByte = some 1001 ∧
      evalInst intSem [1000] (fun _ => none) (fun _ => none) 0 gepWord = some 1004 := by
  decide

/-- **The pass miscompiles `gepPair`.**  The analysis flags the word GEP, with the byte GEP as
replacement; `gepPair` returns `1004` on the argument `1000`, and what the pass makes of it
returns `1001`.  The output does not refine the function. -/
theorem run_gepPair_not_refines :
    (run gepPair gepPairDT).redundantInstructions = [(gepWord, gepByte)] ∧
      execute intSem gepPair [1000] 1 = .returned (some 1004) ∧
      execute intSem (RedundancyEliminationPass.run gepPair gepPairDT).1 [1000] 1 =
        .returned (some 1001) ∧
      ¬ Refines intSem (RedundancyEliminationPass.run gepPair gepPairDT).1 gepPair := by
  refine ⟨by decide, by decide, by decide, fun h => ?_⟩
  have := h [1000] 1 (by decide)
  revert this
  decide

end KeySoundness

end OptPasses
