/-
**The counters the redundancy passes report.**

`RedundancyAnalysis::run` keeps, in `RedundancyInfo::Statistics`, three `unsigned` counters that
`processBlock` moves as it goes: every instruction it visits, the ones it flags, and the ones it
adds to the expression table; `print<custom-redundancy>` prints them beside the map.
`RedundancyEliminationPass` counts, across the functions it runs on, the instructions it
schedules for deletion.

The counters say what their names say, modulo `2 ^ 32`.  Every instruction of a reachable block
is counted once, as redundant, as a unique expression, or not analyzable; the redundant ones are
the entries of the map; the "unique expressions" are the analyzable instructions left unflagged,
which two of them sharing a key (in blocks neither of which dominates the other) both count.  The
elimination counts what the analysis flagged, and erases exactly that many instructions.

Main definitions:

* `OptPasses.RedundancyAnalysis.Stats`, `OptPasses.RedundancyAnalysis.countInst`,
  `OptPasses.RedundancyAnalysis.runWithStatistics` — the analysis with its counters;
* `OptPasses.RedundancyEliminationPass.Statistics`,
  `OptPasses.RedundancyEliminationPass.runCounting` — the elimination with its counters.

Main results:

* `OptPasses.RedundancyAnalysis.runWithStatistics_fst` — counting changes nothing else;
* `OptPasses.RedundancyAnalysis.runWithStatistics_counts` — **every instruction visited is counted
  once, and each counter counts what it names**;
* `OptPasses.RedundancyEliminationPass.runCounting_eliminated` — **the elimination returns what
  `run` does, erases exactly the keys of the map and counts them**.
-/

import OptPasses.RedundancyElimination

set_option relaxedAutoImplicit false
set_option autoImplicit false

namespace OptPasses

namespace RedundancyAnalysis

open ValueNumberTable

/-! ### The counters of the analysis -/

/-- `RedundancyInfo::Stats`: `unsigned` counters. -/
structure Stats where
  totalInstructions : ℕ := 0
  redundantInstructions : ℕ := 0
  uniqueExpressions : ℕ := 0
  deriving DecidableEq, Repr

variable (F : Function) (DT : DominatorTree)

/-- What one iteration of the loop of `processBlock` counts, from the state it starts in: the
instruction, then, if it is analyzable, a redundant instruction or a unique expression as
`findAvailableValue` answers. -/
def countInst (st : ValueNumberTable × RedundancyInfo) (stats : Stats) (I : Inst) : Stats :=
  let stats := { stats with totalInstructions := (stats.totalInstructions + 1) % 2 ^ 32 }
  if !isAnalyzable I then stats
  else
    let (key, t) := st.1.createExpressionKey I
    match t.findAvailableValue key I DT F with
    | some _ => { stats with redundantInstructions := (stats.redundantInstructions + 1) % 2 ^ 32 }
    | none => { stats with uniqueExpressions := (stats.uniqueExpressions + 1) % 2 ^ 32 }

/-- One iteration of the loop of `processBlock`, with `Result.Statistics`. -/
def processInstCounting (acc : (ValueNumberTable × RedundancyInfo) × Stats) (I : Inst) :
    (ValueNumberTable × RedundancyInfo) × Stats :=
  (processInst F DT acc.1 I, countInst F DT acc.1 acc.2 I)

/-- `RedundancyAnalysis::run`, with `Result.Statistics`. -/
def runWithStatistics : RedundancyInfo × Stats :=
  let r := DT.preorder.foldl
    (fun acc b => match F.block? b with
      | some BB => BB.insts.foldl (processInstCounting F DT) acc
      | none => acc)
    ((numberArguments F, ⟨[]⟩), {})
  (r.1.2, r.2)

variable {F DT}

theorem foldl_blocks_counting (labels : List ℕ) (acc : (ValueNumberTable × RedundancyInfo) × Stats) :
    labels.foldl (fun acc b => match F.block? b with
      | some BB => BB.insts.foldl (processInstCounting F DT) acc
      | none => acc) acc =
      (labels.flatMap fun b => ((F.block? b).map Block.insts).getD []).foldl
        (processInstCounting F DT) acc := by
  induction labels generalizing acc with
  | nil => rfl
  | cons b bs ih =>
      rw [List.foldl_cons, List.flatMap_cons, List.foldl_append, ih]
      cases F.block? b <;> rfl

/-- The counting rides along: the state is the one of the walk without counters. -/
theorem foldl_processInstCounting_fst :
    ∀ (l : List Inst) (acc : (ValueNumberTable × RedundancyInfo) × Stats),
      (l.foldl (processInstCounting F DT) acc).1 = l.foldl (processInst F DT) acc.1
  | [], _ => rfl
  | I :: l, acc => foldl_processInstCounting_fst l (processInst F DT acc.1 I, _)

/-- Counting changes nothing else: the map is the one `run` returns. -/
theorem runWithStatistics_fst : (runWithStatistics F DT).1 = run F DT := by
  rw [runWithStatistics, foldl_blocks_counting, foldl_processInstCounting_fst, run_eq_finalState]
  rfl

variable (F DT) in
/-- **What one step counts**, beside what it does: the instruction, and a redundant instruction
exactly when one is flagged, a unique expression exactly when an analyzable one is not. -/
theorem countInst_cases (st : ValueNumberTable × RedundancyInfo) (stats : Stats) (I : Inst) :
    (countInst F DT st stats I).totalInstructions = (stats.totalInstructions + 1) % 2 ^ 32 ∧
      ((isAnalyzable I = false ∧ (processInst F DT st I).2 = st.2 ∧
          (countInst F DT st stats I).redundantInstructions = stats.redundantInstructions ∧
          (countInst F DT st stats I).uniqueExpressions = stats.uniqueExpressions) ∨
        (isAnalyzable I = true ∧ (∃ P, (processInst F DT st I).2.redundantInstructions =
            st.2.redundantInstructions ++ [(I, P)]) ∧
          (countInst F DT st stats I).redundantInstructions =
            (stats.redundantInstructions + 1) % 2 ^ 32 ∧
          (countInst F DT st stats I).uniqueExpressions = stats.uniqueExpressions) ∨
        (isAnalyzable I = true ∧ (processInst F DT st I).2 = st.2 ∧
          (countInst F DT st stats I).redundantInstructions = stats.redundantInstructions ∧
          (countInst F DT st stats I).uniqueExpressions =
            (stats.uniqueExpressions + 1) % 2 ^ 32)) := by
  unfold countInst processInst
  cases ha : isAnalyzable I
  · exact ⟨rfl, .inl ⟨rfl, rfl, rfl, rfl⟩⟩
  · simp only [Bool.not_true, Bool.false_eq_true, if_false]
    cases hf : (st.1.createExpressionKey I).2.findAvailableValue (st.1.createExpressionKey I).1 I
      DT F with
    | some P => exact ⟨rfl, .inr (.inl ⟨trivial, ⟨P, by simp [hf]⟩, by simp [hf], by simp [hf]⟩)⟩
    | none => exact ⟨rfl, .inr (.inr ⟨trivial, by simp [hf], by simp [hf], by simp [hf]⟩)⟩

/-- What the counters hold once the walk has processed `done`, with the map it has built. -/
structure CountInv (done : List Inst) (acc : (ValueNumberTable × RedundancyInfo) × Stats) :
    Prop where
  flagged_mem : ∀ e ∈ acc.1.2.redundantInstructions, e.1 ∈ done
  total : acc.2.totalInstructions = done.length % 2 ^ 32
  redundant : acc.2.redundantInstructions = acc.1.2.redundantInstructions.length % 2 ^ 32
  unique : acc.2.uniqueExpressions = (done.filter fun I => isAnalyzable I &&
    decide (I.id ∉ acc.1.2.redundantInstructions.map (·.1.id))).length % 2 ^ 32
  /-- Each processed instruction is flagged, a unique expression, or not analyzable. -/
  partition : done.length = acc.1.2.redundantInstructions.length +
    (done.filter fun I => isAnalyzable I &&
      decide (I.id ∉ acc.1.2.redundantInstructions.map (·.1.id))).length +
    (done.filter fun I => !isAnalyzable I).length

theorem countInv_init : CountInv [] ((numberArguments F, ⟨[]⟩), {}) :=
  ⟨by simp, rfl, rfl, rfl, rfl⟩

/-- **The step lemma**: processing a fresh instruction keeps the counters right. -/
theorem countInv_processInstCounting {done : List Inst}
    {acc : (ValueNumberTable × RedundancyInfo) × Stats} {I : Inst}
    (hinv : CountInv done acc) (hI : I.id ∉ done.map Inst.id) :
    CountInv (done ++ [I]) (processInstCounting F DT acc I) := by
  have hfresh : ∀ J ∈ done, J.id ≠ I.id := fun J hJ e => hI (e ▸ List.mem_map_of_mem _ hJ)
  have hunflagged : I.id ∉ acc.1.2.redundantInstructions.map (·.1.id) := fun h => by
    obtain ⟨e, he, heI⟩ := List.mem_map.1 h
    exact hfresh e.1 (hinv.flagged_mem e he) heI
  obtain ⟨htotal, hcase⟩ := countInst_cases F DT acc.1 acc.2 I
  have htotal' : (countInst F DT acc.1 acc.2 I).totalInstructions = (done ++ [I]).length % 2 ^ 32 := by
    rw [htotal, hinv.total, List.length_append, List.length_singleton]; omega
  simp only [processInstCounting]
  rcases hcase with ⟨ha, hr, h₁, h₂⟩ | ⟨ha, ⟨P, hr⟩, h₁, h₂⟩ | ⟨ha, hr, h₁, h₂⟩
  · -- not analyzable: counted among all instructions only
    refine ⟨fun e he => ?_, htotal', by rw [h₁, hr, hinv.redundant], ?_, ?_⟩
    · rw [hr] at he; exact List.mem_append_left _ (hinv.flagged_mem e he)
    · rw [h₂, hr, hinv.unique, List.filter_append]; simp [ha]
    · have := hinv.partition
      rw [hr, List.filter_append, List.filter_append]
      simp [ha] at this ⊢; omega
  · -- flagged: its entry is new, and no earlier instruction changes its status
    have hold : (done.filter fun J => isAnalyzable J &&
        decide (J.id ∉ (acc.1.2.redundantInstructions ++ [(I, P)]).map (·.1.id))) =
        done.filter fun J => isAnalyzable J &&
          decide (J.id ∉ acc.1.2.redundantInstructions.map (·.1.id)) :=
      List.filter_congr fun J hJ => by
        simp only [List.map_append, List.map_cons, List.map_nil, List.mem_append,
          List.mem_singleton, hfresh J hJ, or_false]
    refine ⟨fun e he => ?_, htotal', ?_, ?_, ?_⟩
    · rw [hr] at he
      rcases List.mem_append.1 he with he | he
      · exact List.mem_append_left _ (hinv.flagged_mem e he)
      · obtain rfl := List.mem_singleton.1 he; simp
    · rw [h₁, hr, hinv.redundant, List.length_append, List.length_singleton]; omega
    · rw [h₂, hr, hinv.unique, List.filter_append, hold]
      simp
    · have := hinv.partition
      rw [hr, List.filter_append, hold, List.filter_append]
      simp [ha] at this ⊢; omega
  · -- a unique expression: analyzable, and not flagged
    refine ⟨fun e he => ?_, htotal', by rw [h₁, hr, hinv.redundant], ?_, ?_⟩
    · rw [hr] at he; exact List.mem_append_left _ (hinv.flagged_mem e he)
    · rw [h₂, hr, hinv.unique, List.filter_append, List.length_append]
      simp [ha, hunflagged]
    · have := hinv.partition
      rw [hr, List.filter_append, List.filter_append]
      simp [ha, hunflagged] at this ⊢; omega

theorem countInv_foldl : ∀ (suf done : List Inst) (acc : (ValueNumberTable × RedundancyInfo) × Stats),
    ((done ++ suf).map Inst.id).Nodup → CountInv done acc →
      CountInv (done ++ suf) (suf.foldl (processInstCounting F DT) acc)
  | [], done, acc, _, h => by simpa using h
  | I :: suf, done, acc, hnd, h => by
      have hI : I.id ∉ done.map Inst.id := fun hm => by
        rw [List.map_append, List.nodup_append] at hnd
        exact hnd.2.2 hm (List.mem_map_of_mem _ (List.mem_cons_self _ _))
      simpa using countInv_foldl suf (done ++ [I]) _ (by simpa using hnd)
        (countInv_processInstCounting h hI)

/-- **Every instruction visited is counted once, and each counter counts what it names**, while
the map is the one `run` computes without counting. -/
theorem runWithStatistics_counts (F : Function) (DT : DominatorTree) :
    let stats := (runWithStatistics F DT).2
    let unique := (traversal F DT).filter fun I => isAnalyzable I &&
      decide (I.id ∉ (run F DT).redundantInstructions.map (·.1.id))
    (runWithStatistics F DT).1 = run F DT ∧
      stats.totalInstructions = (traversal F DT).length % 2 ^ 32 ∧
      stats.redundantInstructions = (run F DT).redundantInstructions.length % 2 ^ 32 ∧
      stats.uniqueExpressions = unique.length % 2 ^ 32 ∧
      (traversal F DT).length = (run F DT).redundantInstructions.length + unique.length +
        ((traversal F DT).filter fun I => !isAnalyzable I).length := by
  have h := @countInv_foldl F DT (traversal F DT) [] ((numberArguments F, ⟨[]⟩), {})
    (by simpa using traversal_ids_nodup) countInv_init
  rw [List.nil_append] at h
  have hfst := @runWithStatistics_fst F DT
  rw [runWithStatistics, foldl_blocks_counting] at hfst ⊢
  rw [← hfst]
  exact ⟨rfl, h.total, h.redundant, h.unique, h.partition⟩

/-- On `redundancy_test`: eight instructions, `c` and `d` redundant, the other five additions and
multiplications unique, the return not analyzable. -/
example : (runWithStatistics redundancyTest redundancyTestDT).2 =
    { totalInstructions := 8, redundantInstructions := 2, uniqueExpressions := 5 } := by decide

end RedundancyAnalysis

namespace RedundancyEliminationPass

/-! ### The counters of the elimination -/

/-- `RedundancyEliminationPass::Statistics`: `unsigned` counters, kept across the functions the
pass runs on. -/
structure Statistics where
  instructionsEliminated : ℕ := 0
  functionsProcessed : ℕ := 0
  deriving DecidableEq, Repr

/-- `eliminateRedundancies`, with `Stats.InstructionsEliminated`: the first loop adds one for
each instruction it schedules for deletion, which are the instructions of `toDelete`. -/
def eliminateRedundanciesCounting (stats : Statistics) (F : Function)
    (entries : List (Inst × Inst)) : (Function × Bool) × Statistics :=
  if entries.isEmpty then ((F, false), stats)
  else
    let (G, toDelete) := redirectUses F entries
    ((G.eraseAll toDelete, !toDelete.isEmpty),
      { stats with
        instructionsEliminated := (stats.instructionsEliminated + toDelete.length) % 2 ^ 32 })

/-- `RedundancyEliminationPass::run`, with its counters. -/
def runCounting (stats : Statistics) (F : Function) (DT : DominatorTree) :
    (Function × PreservedAnalyses) × Statistics :=
  let stats := { stats with functionsProcessed := (stats.functionsProcessed + 1) % 2 ^ 32 }
  let ((G, changed), stats) :=
    eliminateRedundanciesCounting stats F (RedundancyAnalysis.run F DT).redundantInstructions
  ((G, if changed then .cfgAndDominatorTree else .all), stats)

theorem eliminateRedundanciesCounting_fst (stats : Statistics) (F : Function)
    (entries : List (Inst × Inst)) :
    (eliminateRedundanciesCounting stats F entries).1 = eliminateRedundancies F entries := by
  unfold eliminateRedundanciesCounting eliminateRedundancies
  split_ifs <;> rfl

/-- Counting changes nothing else: the function and the preserved analyses are those of `run`. -/
theorem runCounting_fst (stats : Statistics) (F : Function) (DT : DominatorTree) :
    (runCounting stats F DT).1 = run F DT := by
  simp only [runCounting, run, ← eliminateRedundanciesCounting_fst { stats with
    functionsProcessed := (stats.functionsProcessed + 1) % 2 ^ 32 }]

/-- **The elimination counts the instructions it erases, which are the map's keys**: it returns
what `run` returns, without the map's keys and shorter by their number, and adds that number to
`InstructionsEliminated` (a counter that fits its `unsigned`) and one to `FunctionsProcessed`. -/
theorem runCounting_eliminated (stats : Statistics) (F : Function) (DT : DominatorTree)
    (hs : stats.instructionsEliminated < 2 ^ 32) :
    (runCounting stats F DT).1 = run F DT ∧
      (runCounting stats F DT).1.1.ids = F.ids.filter
        (fun x => x ∉ (RedundancyAnalysis.run F DT).redundantInstructions.map (·.1.id)) ∧
      (runCounting stats F DT).1.1.insts.length +
          (RedundancyAnalysis.run F DT).redundantInstructions.length = F.insts.length ∧
      (runCounting stats F DT).2.instructionsEliminated = (stats.instructionsEliminated +
        (RedundancyAnalysis.run F DT).redundantInstructions.length) % 2 ^ 32 ∧
      (runCounting stats F DT).2.functionsProcessed = (stats.functionsProcessed + 1) % 2 ^ 32 := by
  have hfst := runCounting_fst stats F DT
  refine ⟨hfst, ?_, hfst ▸ length_run F DT, ?_⟩
  · rw [hfst, run_fst_eq]
    simp [Function.ids, List.filter_map, Function.comp_def]
  unfold runCounting eliminateRedundanciesCounting
  cases he : (RedundancyAnalysis.run F DT).redundantInstructions.isEmpty
  · simp only [Bool.false_eq_true, if_false, redirectUses_eq (chainFree_run F DT), List.length_map,
      and_self]
  · simp only [List.isEmpty_iff.1 he, if_true, List.length_nil, Nat.add_zero, Nat.mod_eq_of_lt hs,
      and_self]

open RedundancyAnalysis (redundancyTest redundancyTestDT) in
/-- On `redundancy_test`, from fresh counters: `c` and `d` erased, and two instructions counted. -/
theorem runCounting_eliminated_redundancyTest :
    ({} : Statistics).instructionsEliminated < 2 ^ 32 ∧
      (runCounting {} redundancyTest redundancyTestDT).1 = run redundancyTest redundancyTestDT ∧
      (runCounting {} redundancyTest redundancyTestDT).1.1.ids = redundancyTest.ids.filter
        (fun x => x ∉ (RedundancyAnalysis.run redundancyTest
          redundancyTestDT).redundantInstructions.map (·.1.id)) ∧
      (runCounting {} redundancyTest redundancyTestDT).1.1.insts.length +
          (RedundancyAnalysis.run redundancyTest redundancyTestDT).redundantInstructions.length =
        redundancyTest.insts.length ∧
      (runCounting {} redundancyTest redundancyTestDT).2.instructionsEliminated =
        (({} : Statistics).instructionsEliminated + (RedundancyAnalysis.run redundancyTest
          redundancyTestDT).redundantInstructions.length) % 2 ^ 32 ∧
      (runCounting {} redundancyTest redundancyTestDT).2.functionsProcessed =
        (({} : Statistics).functionsProcessed + 1) % 2 ^ 32 :=
  ⟨by decide, runCounting_eliminated {} redundancyTest redundancyTestDT (by decide)⟩

end RedundancyEliminationPass

end OptPasses
