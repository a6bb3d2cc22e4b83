/-
**`LoopUnrollingPass`: choosing loops and unroll factors.**

`LoopAnalyzer::analyzeLoop` reads a loop's trip count and trip multiple from scalar evolution,
counts its instructions (PHIs and terminators aside) and looks for calls that may touch memory,
volatile and atomic operations; `determineStrategy` and `calculateUnrollFactor` then choose, in
the `unsigned` arithmetic of the code, between full, partial, runtime and no unrolling, and a
factor.  `getCandidates` analyses the loops of the forest in the order `depth_first` visits each
tree and keeps those with a strategy; `LoopUnrollingPass::run` hands them to LLVM's `UnrollLoop`
in that order.

Scalar evolution and `UnrollLoop` belong to LLVM: the first is a parameter, the second an oracle
saying whether it changed a loop.

`depth_first` is a preorder: a loop comes before the loops nested in it, so the candidates list
an outer loop before its inner ones (`OptPasses.LoopUnrollingPass.sublist_getCandidates`), against
the comment "post-order (innermost first)" above it.

The selection is compared with the one section 4.4 of the specification describes
(`OptPasses.LoopUnrollingPass.specSelection`).  While no `unsigned` product wraps around, the
strategy is always the specification's; the partial factor is not always, because
`calculateUnrollFactor` runs its divisor search before its size search and never returns to
divisibility.  The two agree exactly when the factor divides the trip count.

Main definitions:

* `OptPasses.LoopUnrollingPass.Loop` — a loop of `LoopInfo`, with its subloops;
* `OptPasses.LoopUnrollingPass.analyzeLoop`, `OptPasses.LoopUnrollingPass.determineStrategy`,
  `OptPasses.LoopUnrollingPass.calculateUnrollFactor`;
* `OptPasses.LoopUnrollingPass.getCandidates`, `OptPasses.LoopUnrollingPass.run`;
* `OptPasses.LoopUnrollingPass.specSelection` — the strategy and factor of section 4.4, over the
  naturals;
* `OptPasses.LoopUnrollingPass.Host`, `OptPasses.LoopUnrollingPass.runOn` — the pass call by call,
  against a `LoopInfo` and an `UnrollLoop` that carry state, with its `Statistics`.

Main results:

* `OptPasses.LoopUnrollingPass.mem_getCandidates` — the candidates are the analyses of the loops
  of the forest whose strategy is not `NoUnroll`;
* `OptPasses.LoopUnrollingPass.sublist_getCandidates` — **an outer loop's candidate comes before
  the candidates of the loops inside it**;
* `OptPasses.LoopUnrollingPass.getCandidates_nested` — the nested pair on which the order is
  outer first;
* `OptPasses.LoopUnrollingPass.selection_eq_specSelection_iff` — **without wrap-around the code
  selects section 4.4's strategy, and its whole selection exactly when a partial factor divides
  the trip count**;
* `OptPasses.LoopUnrollingPass.calculateUnrollFactor_eightTrips` — a partial factor of `3` for
  `8` iterations under the default configuration, where the specification selects `2`;
* `OptPasses.LoopUnrollingPass.determineStrategy_wideLoop` — the `unsigned` products wrap, and a
  loop of `2 ^ 32` instructions once unrolled passes both size checks;
* `OptPasses.LoopUnrollingPass.analyzeLoop_unrollFactor` — the factor of every loop's candidate is
  within its bounds, and a partial one keeps the unrolled size within the limit;
* `OptPasses.LoopUnrollingPass.runOn_statistics` — **every call to `UnrollLoop` is counted once,
  under its strategy, and the pass reports a change exactly when one of them succeeded**.
-/

import OptPasses.IR
import Mathlib.Data.Nat.Find

set_option relaxedAutoImplicit false
set_option autoImplicit false

namespace OptPasses

namespace LoopUnrollingPass

/-! ### Loops -/

/-- A loop of `LoopInfo`: its header, its blocks (those of the loops inside it included, as
`Loop::blocks()`), its preheader and latch if it has one, and the loops directly inside it. -/
inductive Loop
  | mk (header : ℕ) (blocks : List ℕ) (preheader? latch? : Option ℕ) (subLoops : List Loop)
  deriving Repr

namespace Loop

def header : Loop → ℕ
  | mk h _ _ _ _ => h

def blocks : Loop → List ℕ
  | mk _ bs _ _ _ => bs

def preheader? : Loop → Option ℕ
  | mk _ _ p _ _ => p

def latch? : Loop → Option ℕ
  | mk _ _ _ l _ => l

def subLoops : Loop → List Loop
  | mk _ _ _ _ subs => subs

end Loop

mutual

/-- `depth_first(L)`: `L`, then the loops inside it, each tree in preorder. -/
def depthFirst : Loop → List Loop
  | L@(.mk _ _ _ _ subs) => L :: depthFirstList subs

/-- The loops of a forest, each tree in `depth_first` order. -/
def depthFirstList : List Loop → List Loop
  | [] => []
  | L :: Ls => depthFirst L ++ depthFirstList Ls

end

theorem depthFirst_eq (L : Loop) : depthFirst L = L :: depthFirstList L.subLoops := by
  cases L; rw [depthFirst]; rfl

/-! ### Analysing one loop -/

/-- What scalar evolution answers about a loop, by its header: `getSmallConstantTripCount` (`0`
if unknown) and `getSmallConstantTripMultiple`. -/
structure ScalarEvolution where
  smallConstantTripCount : ℕ → ℕ
  smallConstantTripMultiple : ℕ → ℕ

/-- `LoopUnrollCandidate::UnrollStrategy`. -/
inductive UnrollStrategy
  | fullUnroll
  | partialUnroll
  | runtimeUnroll
  | noUnroll
  deriving DecidableEq, Repr

/-- `LoopUnrollCandidate`; the counts are `unsigned`. -/
structure LoopUnrollCandidate where
  L : Loop
  tripCount : ℕ
  tripMultiple : ℕ
  instructionCount : ℕ
  isSimple : Bool
  hasSideEffects : Bool
  strategy : UnrollStrategy
  unrollFactor : ℕ

/-- `LoopUnrollConfig` and its defaults, for the fields the analysis reads. -/
structure LoopUnrollConfig where
  fullUnrollMaxCount : ℕ := 8
  fullUnrollMaxInstructions : ℕ := 100
  partialUnrollFactor : ℕ := 4
  allowRuntimeUnroll : Bool := true
  unrollLoopsWithCalls : Bool := false
  maxUnrolledSize : ℕ := 400

variable (config : LoopUnrollConfig) (SE : ScalarEvolution) (F : Function)

/-- `LoopAnalyzer::computeTripCount`. -/
def computeTripCount (L : Loop) : ℕ :=
  let tripCount := SE.smallConstantTripCount L.header
  if tripCount > 0 then tripCount else 0

/-- `LoopAnalyzer::countInstructions`: the instructions of the loop's blocks that are neither PHIs
nor terminators, counted in an `unsigned`. -/
def countInstructions (L : Loop) : ℕ :=
  (L.blocks.foldl (fun count b => count + ((F.block? b).map fun B =>
    (B.insts.filter fun I => !I.isPhi && !I.opcode.isTerminator).length).getD 0) 0) % 2 ^ 32

/-- `LoopAnalyzer::isSimpleLoop`: a preheader and a unique latch. -/
def isSimpleLoop (L : Loop) : Bool := L.preheader?.isSome && L.latch?.isSome

/-- `LoopAnalyzer::hasSideEffects`: a call to a function not known to leave memory alone, a
volatile or an atomic operation, in one of the loop's blocks. -/
def hasSideEffects (L : Loop) : Bool :=
  L.blocks.any fun b =>
    ((F.block? b).map fun B => B.insts.any fun I =>
      (I.opcode = .call && !I.calleeDoesNotAccessMemory) || I.isVolatile || I.isAtomic).getD false

/-- `LoopAnalyzer::determineStrategy`; the product is an `unsigned` one. -/
def determineStrategy (c : LoopUnrollCandidate) : UnrollStrategy :=
  if c.hasSideEffects && !config.unrollLoopsWithCalls then .noUnroll
  else if c.tripCount > 0 && c.tripCount ≤ config.fullUnrollMaxCount &&
      (c.instructionCount * c.tripCount) % 2 ^ 32 ≤ config.fullUnrollMaxInstructions then .fullUnroll
  else if c.tripCount > 0 then .partialUnroll
  else if config.allowRuntimeUnroll && c.isSimple then .runtimeUnroll
  else .noUnroll

/-- `while (Factor > 1 && p(Factor)) Factor--;`. -/
def decrementWhile (p : ℕ → Bool) : ℕ → ℕ
  | 0 => 0
  | f + 1 => if f + 1 > 1 && p (f + 1) then decrementWhile p f else f + 1

/-- `LoopAnalyzer::calculateUnrollFactor`. -/
def calculateUnrollFactor (c : LoopUnrollCandidate) : ℕ :=
  match c.strategy with
  | .fullUnroll => c.tripCount
  | .partialUnroll =>
      let factor := decrementWhile (fun f => c.tripCount % f ≠ 0) config.partialUnrollFactor
      decrementWhile (fun f => (c.instructionCount * f) % 2 ^ 32 > config.maxUnrolledSize) factor
  | .runtimeUnroll => config.partialUnrollFactor
  | .noUnroll => 1

/-- `LoopAnalyzer::analyzeLoop`. -/
def analyzeLoop (L : Loop) : LoopUnrollCandidate :=
  let c : LoopUnrollCandidate :=
    { L, tripCount := computeTripCount SE L
      tripMultiple := SE.smallConstantTripMultiple L.header
      instructionCount := countInstructions F L
      isSimple := isSimpleLoop L
      hasSideEffects := hasSideEffects F L
      strategy := .noUnroll
      unrollFactor := 1 }
  let c := { c with strategy := determineStrategy config c }
  { c with unrollFactor := calculateUnrollFactor config c }

/-- What `while (Factor > 1 && p(Factor)) Factor--;` leaves: no more than it started from, every
value it stepped over satisfies `p`, it stops on a value failing `p` unless it reached `1`, and
it does not reach `0` from a positive start. -/
theorem decrementWhile_spec (p : ℕ → Bool) :
    ∀ f, decrementWhile p f ≤ f ∧ (∀ k, decrementWhile p f < k → k ≤ f → p k = true) ∧
      (1 < decrementWhile p f → p (decrementWhile p f) = false) ∧
      (0 < f → 0 < decrementWhile p f)
  | 0 => ⟨le_rfl, fun _ h₁ h₂ => absurd h₁ (by simpa [decrementWhile] using h₂),
      fun h => absurd h (by simp [decrementWhile]), id⟩
  | f + 1 => by
      rw [decrementWhile]
      by_cases h : (f + 1 > 1 && p (f + 1)) = true
      · obtain ⟨h₁, h₂, h₃, h₄⟩ := decrementWhile_spec p f
        simp only [Bool.and_eq_true, decide_eq_true_eq] at h
        rw [if_pos (by simp [h])]
        refine ⟨by omega, fun k hk hk' => ?_, h₃, fun _ => h₄ (by omega)⟩
        rcases Nat.lt_or_eq_of_le hk' with hk' | rfl
        · exact h₂ k hk (by omega)
        · exact h.2
      · rw [if_neg h]
        simp only [Bool.and_eq_true, decide_eq_true_eq, not_and, Bool.not_eq_true] at h
        exact ⟨le_rfl, fun k h₁ h₂ => absurd h₂ (by omega), h, fun _ => by omega⟩

/-! ### The factor a loop is given -/

/-- What `determineStrategy` can choose, with the guards that lead there. -/
theorem determineStrategy_cases (c : LoopUnrollCandidate) :
    (determineStrategy config c = .fullUnroll ∧ 0 < c.tripCount ∧
        c.tripCount ≤ config.fullUnrollMaxCount) ∨
      (determineStrategy config c = .partialUnroll ∧ 0 < c.tripCount) ∨
      (determineStrategy config c = .runtimeUnroll ∧ c.tripCount = 0) ∨
      determineStrategy config c = .noUnroll := by
  unfold determineStrategy
  split_ifs with h₁ h₂ h₃ h₄
  · exact .inr (.inr (.inr rfl))
  · simp only [Bool.and_eq_true, decide_eq_true_eq] at h₂
    exact .inl ⟨rfl, h₂.1.1, h₂.1.2⟩
  · exact .inr (.inl ⟨rfl, by simpa using h₃⟩)
  · exact .inr (.inr (.inl ⟨rfl, by simpa using h₃⟩))
  · exact .inr (.inr (.inr rfl))

/-- The partial factor is at most `PartialUnrollFactor` and the trip count, `0` only when
`PartialUnrollFactor` is, and above `1` only within `MaxUnrolledSize`. -/
theorem partialFactor_spec (c : LoopUnrollCandidate) (hpos : 0 < c.tripCount) :
    calculateUnrollFactor config { c with strategy := .partialUnroll } ≤
        config.partialUnrollFactor ∧
      calculateUnrollFactor config { c with strategy := .partialUnroll } ≤ c.tripCount ∧
      (calculateUnrollFactor config { c with strategy := .partialUnroll } = 0 ↔
        config.partialUnrollFactor = 0) ∧
      (1 < calculateUnrollFactor config { c with strategy := .partialUnroll } →
        c.instructionCount * calculateUnrollFactor config { c with strategy := .partialUnroll } %
          2 ^ 32 ≤ config.maxUnrolledSize) := by
  simp only [calculateUnrollFactor]
  obtain ⟨hD₁, -, hD₃, hD₄⟩ :=
    decrementWhile_spec (fun f => c.tripCount % f ≠ 0) config.partialUnrollFactor
  generalize decrementWhile (fun f => c.tripCount % f ≠ 0) config.partialUnrollFactor = D at *
  obtain ⟨hr₁, -, hr₃, hr₄⟩ := decrementWhile_spec
    (fun f => c.instructionCount * f % 2 ^ 32 > config.maxUnrolledSize) D
  -- the divisor search stops at a divisor of the trip count, or at `1`
  have hDt : D ≤ c.tripCount := by
    rcases Nat.lt_or_ge 1 D with h | h
    · exact Nat.le_of_dvd hpos (Nat.dvd_of_mod_eq_zero (by simpa using hD₃ h))
    · omega
  refine ⟨hr₁.trans hD₁, hr₁.trans hDt, ⟨fun h0 => ?_, fun h0 => by omega⟩,
    fun h1 => by simpa using hr₃ h1⟩
  by_contra hP
  have := hr₄ (hD₄ (Nat.pos_of_ne_zero hP))
  omega

/-- The factor the selection gives a candidate, by strategy. -/
theorem unrollFactor_spec (c : LoopUnrollCandidate) :
    let s := determineStrategy config c
    let f := calculateUnrollFactor config { c with strategy := s }
    (s = .fullUnroll → f = c.tripCount ∧ 0 < c.tripCount ∧
        c.tripCount ≤ config.fullUnrollMaxCount) ∧
      (s = .partialUnroll → 0 < c.tripCount ∧ f ≤ config.partialUnrollFactor ∧ f ≤ c.tripCount ∧
        (1 < f → c.instructionCount * f % 2 ^ 32 ≤ config.maxUnrolledSize)) ∧
      (s = .runtimeUnroll → c.tripCount = 0 ∧ f = config.partialUnrollFactor) ∧
      (s = .noUnroll → f = 1) ∧
      (f = 0 ↔ config.partialUnrollFactor = 0 ∧ (s = .partialUnroll ∨ s = .runtimeUnroll)) := by
  intro s f
  rcases determineStrategy_cases config c with ⟨hs, h₁, h₂⟩ | ⟨hs, h₁⟩ | ⟨hs, h₁⟩ | hs
  · simp [s, f, hs, calculateUnrollFactor, h₁, h₂, Nat.pos_iff_ne_zero.1 h₁]
  · obtain ⟨p₁, p₂, p₃, p₄⟩ := partialFactor_spec config c h₁
    simp only [s, f, hs]
    exact ⟨by simp, fun _ => ⟨h₁, p₁, p₂, p₄⟩, by simp, by simp, by simp [p₃]⟩
  · simp [s, f, hs, calculateUnrollFactor, h₁]
  · simp [s, f, hs, calculateUnrollFactor]

/-- **The factor a loop is given**, by strategy: its trip count when full; at most
`PartialUnrollFactor` and the trip count, and within `MaxUnrolledSize` above `1`, when partial;
`PartialUnrollFactor` at run time.  It is `0` only with `PartialUnrollFactor`. -/
theorem analyzeLoop_unrollFactor (L : Loop) :
    let c := analyzeLoop config SE F L
    (c.strategy = .fullUnroll → c.unrollFactor = c.tripCount ∧ 0 < c.tripCount ∧
        c.tripCount ≤ config.fullUnrollMaxCount) ∧
      (c.strategy = .partialUnroll → 0 < c.tripCount ∧
        c.unrollFactor ≤ config.partialUnrollFactor ∧ c.unrollFactor ≤ c.tripCount ∧
        (1 < c.unrollFactor → c.instructionCount * c.unrollFactor % 2 ^ 32 ≤
          config.maxUnrolledSize)) ∧
      (c.strategy = .runtimeUnroll → c.tripCount = 0 ∧
        c.unrollFactor = config.partialUnrollFactor) ∧
      (c.strategy = .noUnroll → c.unrollFactor = 1) ∧
      (c.unrollFactor = 0 ↔ config.partialUnrollFactor = 0 ∧
        (c.strategy = .partialUnroll ∨ c.strategy = .runtimeUnroll)) :=
  unrollFactor_spec config _

/-! ### The candidates and the pass -/

/-- The inner loop of `getCandidates`, over one worklist. -/
def keepCandidates (Ls : List Loop) : List LoopUnrollCandidate :=
  Ls.filterMap fun L =>
    if (analyzeLoop config SE F L).strategy ≠ .noUnroll then some (analyzeLoop config SE F L)
    else none

/-- `LoopAnalyzer::getCandidates`: for each loop of the forest, its tree in `depth_first` order,
keeping the loops with a strategy. -/
def getCandidates (LI : List Loop) : List LoopUnrollCandidate :=
  LI.flatMap fun L => keepCandidates config SE F (depthFirst L)

/-- `LoopUnrollingPass::run`: the candidates handed to `UnrollLoop`, in order, and the analyses
preserved.  `unrollLoop` answers whether the loop still exists and `UnrollLoop` changed it. -/
def run (LI : List Loop) (unrollLoop : LoopUnrollCandidate → Bool) :
    List LoopUnrollCandidate × PreservedAnalyses :=
  if LI.isEmpty then ([], .all)
  else
    let candidates := getCandidates config SE F LI
    if candidates.isEmpty then ([], .all)
    else (candidates, if candidates.any unrollLoop then .dominatorTree else .all)

/-! ### `depth_first` is a preorder -/

theorem getCandidates_eq (LI : List Loop) :
    getCandidates config SE F LI = keepCandidates config SE F (depthFirstList LI) := by
  induction LI with
  | nil => rfl
  | cons L LI ih =>
      rw [getCandidates, List.flatMap_cons, ← getCandidates, ih, depthFirstList, keepCandidates,
        keepCandidates, keepCandidates, List.filterMap_append]

mutual

/-- The tree of a loop met in a traversal lies in the traversal. -/
theorem depthFirst_sublist_of_mem {L M : Loop} (h : L ∈ depthFirst M) :
    (depthFirst L).Sublist (depthFirst M) := by
  cases M with
  | mk hd bs p l subs =>
      rw [depthFirst] at h ⊢
      rcases List.mem_cons.1 h with rfl | h
      · rw [depthFirst]
      · exact (depthFirstList_sublist_of_mem h).trans (List.sublist_cons_self _ _)
termination_by sizeOf M

theorem depthFirstList_sublist_of_mem {L : Loop} {Ms : List Loop} (h : L ∈ depthFirstList Ms) :
    (depthFirst L).Sublist (depthFirstList Ms) := by
  cases Ms with
  | nil => simp [depthFirstList] at h
  | cons M Ms =>
      rw [depthFirstList] at h ⊢
      rcases List.mem_append.1 h with h | h
      · exact (depthFirst_sublist_of_mem h).trans (List.sublist_append_left _ _)
      · exact (depthFirstList_sublist_of_mem h).trans (List.sublist_append_right _ _)
termination_by sizeOf Ms

end

/-- A loop comes before every loop inside it. -/
theorem pair_sublist_depthFirst {L L' : Loop} (h : L' ∈ depthFirstList L.subLoops) :
    [L, L'].Sublist (depthFirst L) := by
  cases L with
  | mk hd bs p l subs =>
      rw [depthFirst]
      exact (List.singleton_sublist.2 h).cons₂ _

/-- **The candidates are the loops with a strategy.** -/
theorem mem_getCandidates {LI : List Loop} {c : LoopUnrollCandidate} :
    c ∈ getCandidates config SE F LI ↔
      ∃ L ∈ depthFirstList LI, c = analyzeLoop config SE F L ∧ c.strategy ≠ .noUnroll := by
  rw [getCandidates_eq, keepCandidates, List.mem_filterMap]
  constructor
  · rintro ⟨L, hL, hc⟩
    split_ifs at hc with hs
    cases hc
    exact ⟨L, hL, rfl, hs⟩
  · rintro ⟨L, hL, rfl, hs⟩
    exact ⟨L, hL, by simp [hs]⟩

/-- **Outer loops first.**  If a loop of the forest and a loop inside it are both candidates, the
outer one's candidate comes first in `getCandidates`. -/
theorem sublist_getCandidates {LI : List Loop} {L L' : Loop} (hL : L ∈ depthFirstList LI)
    (hL' : L' ∈ depthFirstList L.subLoops) (hs : (analyzeLoop config SE F L).strategy ≠ .noUnroll)
    (hs' : (analyzeLoop config SE F L').strategy ≠ .noUnroll) :
    [analyzeLoop config SE F L, analyzeLoop config SE F L'].Sublist
      (getCandidates config SE F LI) := by
  rw [getCandidates_eq, keepCandidates]
  have := ((pair_sublist_depthFirst hL').trans (depthFirstList_sublist_of_mem hL)).filterMap
    fun L => if (analyzeLoop config SE F L).strategy ≠ .noUnroll then
      some (analyzeLoop config SE F L) else none
  simpa [hs, hs'] using this

/-! ### A nest of two loops -/

/-- A loop with header `2` and no loop inside it. -/
def innerLoop : Loop := .mk 2 [2] (some 1) (some 2) []

/-- A loop with header `1` around `innerLoop`. -/
def outerLoop : Loop := .mk 1 [1, 2, 3] (some 0) (some 3) [innerLoop]

/-- Scalar evolution counting every loop to run four times. -/
def fourTrips : ScalarEvolution := ⟨fun _ => 4, fun _ => 4⟩

/-- **`getCandidates` lists the outer loop first.**  With the default configuration, both loops of
the nest `outerLoop` (whose blocks hold nothing here) are fully unrolled candidates; `innerLoop`
lies inside `outerLoop`, yet comes second in `getCandidates`, and `run` hands the outer loop to
`UnrollLoop` first. -/
theorem getCandidates_nested :
    innerLoop ∈ depthFirstList outerLoop.subLoops ∧
      (getCandidates {} fourTrips ⟨0, [], by decide, by decide⟩ [outerLoop]).map
          (fun c => (c.L.header, c.strategy)) = [(1, .fullUnroll), (2, .fullUnroll)] ∧
      ∀ unrollLoop, (run {} fourTrips ⟨0, [], by decide, by decide⟩ [outerLoop] unrollLoop).1.map
          (fun c => c.L.header) = [1, 2] :=
  ⟨by simp [outerLoop, Loop.subLoops, depthFirstList, depthFirst_eq], by decide, fun _ => rfl⟩

/-! ### The pass, call by call -/

/-- `LoopUnrollingPass::Statistics`: `unsigned` counters the pass keeps across the functions it
runs on, read through `getStatistics`. -/
structure Statistics where
  loopsAnalyzed : ℕ := 0
  loopsFullyUnrolled : ℕ := 0
  loopsPartiallyUnrolled : ℕ := 0
  loopsRuntimeUnrolled : ℕ := 0
  loopsSkipped : ℕ := 0
  deriving DecidableEq, Repr

/-- What the pass asks of LLVM as it goes, on a state `σ` of the host's `LoopInfo` and IR: whether
`LI.getLoopFor(L->getHeader())` still finds a loop, and whether `UnrollLoop` changed a candidate's
loop, with the state it leaves. -/
structure Host (σ : Type) where
  getLoopFor : σ → ℕ → Bool
  unrollLoop : σ → LoopUnrollCandidate → Bool × σ

variable {σ : Type} (H : Host σ)

/-- The `switch` on a loop `UnrollLoop` changed: the counter of its strategy grows by one;
`NoUnroll` falls to `default` and counts nothing. -/
def Statistics.recordUnrolled (stats : Statistics) : UnrollStrategy → Statistics
  | .fullUnroll => { stats with loopsFullyUnrolled := (stats.loopsFullyUnrolled + 1) % 2 ^ 32 }
  | .partialUnroll =>
      { stats with loopsPartiallyUnrolled := (stats.loopsPartiallyUnrolled + 1) % 2 ^ 32 }
  | .runtimeUnroll =>
      { stats with loopsRuntimeUnrolled := (stats.loopsRuntimeUnrolled + 1) % 2 ^ 32 }
  | .noUnroll => stats

/-- One iteration of the loop over the candidates in `LoopUnrollingPass::run`: a loop no longer
found is passed over; any other goes to `UnrollLoop`, and its outcome is counted. -/
def processCandidate (acc : σ × Bool × Statistics) (c : LoopUnrollCandidate) :
    σ × Bool × Statistics :=
  if H.getLoopFor acc.1 c.L.header then
    if (H.unrollLoop acc.1 c).1 then ((H.unrollLoop acc.1 c).2, true, acc.2.2.recordUnrolled c.strategy)
    else ((H.unrollLoop acc.1 c).2, acc.2.1,
      { acc.2.2 with loopsSkipped := (acc.2.2.loopsSkipped + 1) % 2 ^ 32 })
  else acc

/-- `LoopUnrollingPass::run` from a host state and the statistics so far: the analyses preserved,
the host state after it, and the statistics. -/
def runOn (s : σ) (stats : Statistics) (LI : List Loop) : PreservedAnalyses × σ × Statistics :=
  if LI.isEmpty then (.all, s, stats)
  else
    let stats := { stats with
      loopsAnalyzed := (stats.loopsAnalyzed + (depthFirstList LI).length) % 2 ^ 32 }
    let candidates := getCandidates config SE F LI
    if candidates.isEmpty then (.all, s, stats)
    else
      let r := candidates.foldl (processCandidate H) (s, false, stats)
      (if r.2.1 then .dominatorTree else .all, r.1, r.2.2)

/-- The calls the loop over the candidates makes to `UnrollLoop`, in order, with their answers. -/
def unrollCalls : σ → List LoopUnrollCandidate → List (LoopUnrollCandidate × Bool)
  | _, [] => []
  | s, c :: cs =>
      if H.getLoopFor s c.L.header then
        (c, (H.unrollLoop s c).1) :: unrollCalls (H.unrollLoop s c).2 cs
      else unrollCalls s cs

/-- The counter of the loops unrolled under a strategy; `NoUnroll` has none. -/
def Statistics.unrolledUnder (stats : Statistics) : UnrollStrategy → ℕ
  | .fullUnroll => stats.loopsFullyUnrolled
  | .partialUnroll => stats.loopsPartiallyUnrolled
  | .runtimeUnroll => stats.loopsRuntimeUnrolled
  | .noUnroll => 0

/-- The `switch` adds one to the counter of the strategy unrolled, and to no other. -/
theorem Statistics.unrolledUnder_recordUnrolled (stats : Statistics) {strategy : UnrollStrategy}
    (h : strategy ≠ .noUnroll) (s : UnrollStrategy) :
    (stats.recordUnrolled strategy).unrolledUnder s % 2 ^ 32 =
      (stats.unrolledUnder s + if strategy = s then 1 else 0) % 2 ^ 32 := by
  cases strategy
  case noUnroll => exact absurd rfl h
  all_goals cases s <;> simp only [recordUnrolled, unrolledUnder, reduceCtorEq, if_true, if_false,
    Nat.add_zero, Nat.mod_mod]

@[simp] theorem Statistics.loopsSkipped_recordUnrolled (stats : Statistics) (s : UnrollStrategy) :
    (stats.recordUnrolled s).loopsSkipped = stats.loopsSkipped := by
  cases s <;> rfl

@[simp] theorem Statistics.loopsAnalyzed_recordUnrolled (stats : Statistics) (s : UnrollStrategy) :
    (stats.recordUnrolled s).loopsAnalyzed = stats.loopsAnalyzed := by
  cases s <;> rfl

@[simp] theorem Statistics.unrolledUnder_skipped (stats : Statistics) (n : ℕ) (s : UnrollStrategy) :
    ({ stats with loopsSkipped := n } : Statistics).unrolledUnder s = stats.unrolledUnder s := by
  cases s <;> rfl

@[simp] theorem Statistics.unrolledUnder_analyzed (stats : Statistics) (n : ℕ) (s : UnrollStrategy) :
    ({ stats with loopsAnalyzed := n } : Statistics).unrolledUnder s = stats.unrolledUnder s := by
  cases s <;> rfl

theorem strategy_ne_of_mem_getCandidates (LI : List Loop) :
    ∀ c ∈ getCandidates config SE F LI, c.strategy ≠ .noUnroll := fun _ hc => by
  obtain ⟨-, -, -, h⟩ := (mem_getCandidates config SE F).1 hc; exact h

/-- **The run lemma of the loop**: over candidates none of which is `NoUnroll`, the pass has
changed something exactly when some call to `UnrollLoop` did, each successful call is counted
under its strategy, and each failed one as skipped. -/
theorem foldl_processCandidate :
    ∀ (cs : List LoopUnrollCandidate), (∀ c ∈ cs, c.strategy ≠ .noUnroll) →
      ∀ (s : σ) (changed : Bool) (stats : Statistics),
      (cs.foldl (processCandidate H) (s, changed, stats)).2.1 =
          (changed || (unrollCalls H s cs).any (·.2)) ∧
        (∀ strategy, (cs.foldl (processCandidate H) (s, changed, stats)).2.2.unrolledUnder
            strategy % 2 ^ 32 = (stats.unrolledUnder strategy + ((unrollCalls H s cs).filter
              fun call => call.2 && decide (call.1.strategy = strategy)).length) % 2 ^ 32) ∧
        (cs.foldl (processCandidate H) (s, changed, stats)).2.2.loopsSkipped % 2 ^ 32 =
          (stats.loopsSkipped + ((unrollCalls H s cs).filter fun call => !call.2).length) %
            2 ^ 32 ∧
        (cs.foldl (processCandidate H) (s, changed, stats)).2.2.loopsAnalyzed =
          stats.loopsAnalyzed
  | [], _, _, _, _ => by simp [unrollCalls]
  | c :: cs, hcs, s, changed, stats => by
      have ih := foldl_processCandidate cs fun c' h => hcs c' (List.mem_cons_of_mem _ h)
      rw [List.foldl_cons, unrollCalls]
      by_cases hl : H.getLoopFor s c.L.header
      · by_cases hu : (H.unrollLoop s c).1
        · -- a success, counted under the candidate's strategy
          obtain ⟨i₁, i₂, i₃, i₄⟩ := ih (H.unrollLoop s c).2 true (stats.recordUnrolled c.strategy)
          have hr := stats.unrolledUnder_recordUnrolled (hcs c (List.mem_cons_self _ _))
          simp only [processCandidate, hl, hu, if_true, List.any_cons, List.filter_cons,
            Bool.not_true, Bool.or_true, Bool.true_or, Bool.true_and, Bool.false_eq_true,
            if_false] at i₁ i₃ i₄ ⊢
          refine ⟨i₁, fun st => ?_, by rw [i₃, Statistics.loopsSkipped_recordUnrolled],
            by rw [i₄, Statistics.loopsAnalyzed_recordUnrolled]⟩
          have h₁ := hr st
          rw [i₂ st]
          by_cases hs : c.strategy = st <;> simp only [hs, decide_True, decide_False, if_true,
            Bool.false_eq_true, if_false, List.length_cons, Nat.add_zero] at h₁ ⊢ <;> omega
        · -- a failure, counted as skipped
          obtain ⟨i₁, i₂, i₃, i₄⟩ := ih (H.unrollLoop s c).2 changed
            { stats with loopsSkipped := (stats.loopsSkipped + 1) % 2 ^ 32 }
          simp only [Bool.not_eq_true] at hu
          simp only [processCandidate, hl, hu, if_true, List.any_cons, List.length_cons,
            List.filter_cons, Bool.not_false, Bool.false_or, Bool.false_and, if_false,
            Statistics.unrolledUnder_skipped, reduceCtorEq, Bool.false_eq_true] at i₁ i₂ i₃ i₄ ⊢
          refine ⟨i₁, i₂, by rw [i₃]; omega, i₄⟩
      · simp only [Bool.not_eq_true] at hl
        simp only [processCandidate, hl, if_false, reduceCtorEq]
        exact ih s changed stats

/-- **Every call to `UnrollLoop` is counted once, under its strategy.**  The pass reports a change
exactly when a call succeeded, `LoopsAnalyzed` grows by the loops of the function, each strategy's
counter by its successful calls, and `LoopsSkipped` by the failed ones. -/
theorem runOn_statistics (s : σ) (stats : Statistics) (LI : List Loop) :
    ((runOn config SE F H s stats LI).1 = .dominatorTree ↔
        ∃ c, (c, true) ∈ unrollCalls H s (getCandidates config SE F LI)) ∧
      (runOn config SE F H s stats LI).2.2.loopsAnalyzed % 2 ^ 32 =
        (stats.loopsAnalyzed + (depthFirstList LI).length) % 2 ^ 32 ∧
      (∀ strategy, (runOn config SE F H s stats LI).2.2.unrolledUnder strategy % 2 ^ 32 =
        (stats.unrolledUnder strategy + ((unrollCalls H s (getCandidates config SE F LI)).filter
          fun call => call.2 && decide (call.1.strategy = strategy)).length) % 2 ^ 32) ∧
      (runOn config SE F H s stats LI).2.2.loopsSkipped % 2 ^ 32 =
        (stats.loopsSkipped + ((unrollCalls H s (getCandidates config SE F LI)).filter
          fun call => !call.2).length) % 2 ^ 32 := by
  unfold runOn
  by_cases hLI : LI = []
  · subst hLI
    simp [getCandidates, depthFirstList, unrollCalls]
  by_cases hcand : getCandidates config SE F LI = []
  · simp [hLI, hcand, unrollCalls]
  obtain ⟨h₁, h₂, h₃, h₄⟩ := foldl_processCandidate H _
    (strategy_ne_of_mem_getCandidates config SE F LI) s false
    { stats with loopsAnalyzed := (stats.loopsAnalyzed + (depthFirstList LI).length) % 2 ^ 32 }
  simp only [List.isEmpty_iff, hLI, hcand, if_false]
  refine ⟨?_, by rw [h₄]; simp, fun st => by rw [h₂ st, Statistics.unrolledUnder_analyzed], by rw [h₃]⟩
  rw [h₁]
  simp [List.any_eq_true]

/-- A host that keeps no state: every loop is still found, and `UnrollLoop` answers by the
candidate alone. -/
def Host.stateless (u : LoopUnrollCandidate → Bool) : Host Unit :=
  ⟨fun _ _ => true, fun _ c => (u c, ())⟩

theorem unrollCalls_stateless (u : LoopUnrollCandidate → Bool) :
    ∀ cs : List LoopUnrollCandidate, unrollCalls (Host.stateless u) () cs = cs.map fun c => (c, u c)
  | [] => rfl
  | c :: cs => by
      have h : (Host.stateless u).getLoopFor () c.L.header = true := rfl
      rw [unrollCalls, if_pos h]
      exact congrArg _ (unrollCalls_stateless u cs)

/-- `run` is the pass on a host that keeps no state. -/
theorem runOn_stateless (u : LoopUnrollCandidate → Bool) (stats : Statistics) (LI : List Loop) :
    (runOn config SE F (Host.stateless u) () stats LI).1 = (run config SE F LI u).2 := by
  unfold runOn run
  by_cases hLI : LI = []
  · simp [hLI]
  by_cases hcand : getCandidates config SE F LI = []
  · simp [hLI, hcand]
  obtain ⟨h₁, -⟩ := foldl_processCandidate (Host.stateless u) _
    (strategy_ne_of_mem_getCandidates config SE F LI) () false
    { stats with loopsAnalyzed := (stats.loopsAnalyzed + (depthFirstList LI).length) % 2 ^ 32 }
  simp only [List.isEmpty_iff, hLI, hcand, if_false, h₁, unrollCalls_stateless, Bool.false_or]
  simp [Function.comp_def]

/-! ### The selection of the specification -/

/-- The selection of section 4.4 of the specification, over the naturals: a partial unroll takes
the largest divisor `F ≤ PartialUnrollFactor` of the trip count with
`F · InstructionCount ≤ MaxUnrolledSize`, or `1`. -/
def specSelection (c : LoopUnrollCandidate) : UnrollStrategy × ℕ :=
  if c.hasSideEffects && !config.unrollLoopsWithCalls then (.noUnroll, 1)
  else if 0 < c.tripCount && c.tripCount ≤ config.fullUnrollMaxCount &&
      c.tripCount * c.instructionCount ≤ config.fullUnrollMaxInstructions then
    (.fullUnroll, c.tripCount)
  else if 0 < c.tripCount then
    (.partialUnroll, max 1 (Nat.findGreatest (fun F => c.tripCount % F = 0 ∧
      F * c.instructionCount ≤ config.maxUnrolledSize) config.partialUnrollFactor))
  else if config.allowRuntimeUnroll && c.isSimple then (.runtimeUnroll, config.partialUnrollFactor)
  else (.noUnroll, 1)

/-- Without wrap-around the code's partial factor is the specification's exactly when it divides
the trip count: the divisor search stops at the largest divisor not above `PartialUnrollFactor`,
and the size search that follows steps down from it without checking divisibility again. -/
theorem partialFactor_eq_iff (c : LoopUnrollCandidate) (hpos : 0 < c.tripCount)
    (hfactor : c.instructionCount * config.partialUnrollFactor < 2 ^ 32) :
    calculateUnrollFactor config { c with strategy := .partialUnroll } =
        max 1 (Nat.findGreatest (fun F => c.tripCount % F = 0 ∧
          F * c.instructionCount ≤ config.maxUnrolledSize) config.partialUnrollFactor) ↔
      calculateUnrollFactor config { c with strategy := .partialUnroll } ∣ c.tripCount := by
  simp only [calculateUnrollFactor]
  set D := decrementWhile (fun f => c.tripCount % f ≠ 0) config.partialUnrollFactor
  set r := decrementWhile (fun f => c.instructionCount * f % 2 ^ 32 > config.maxUnrolledSize) D
  set G := Nat.findGreatest (fun F => c.tripCount % F = 0 ∧
    F * c.instructionCount ≤ config.maxUnrolledSize) config.partialUnrollFactor with hG
  obtain ⟨hD₁, hD₂, -, -⟩ := decrementWhile_spec _ config.partialUnrollFactor
  obtain ⟨hr₁, hr₂, hr₃, -⟩ := decrementWhile_spec _ D
  -- below the partial factor, the `unsigned` products are the exact ones
  have hwrap : ∀ k ≤ config.partialUnrollFactor,
      c.instructionCount * k % 2 ^ 32 = c.instructionCount * k := fun k hk =>
    Nat.mod_eq_of_lt (lt_of_le_of_lt (Nat.mul_le_mul_left _ hk) hfactor)
  constructor
  · intro h
    rw [h]
    rcases Nat.eq_zero_or_pos G with h0 | h0
    · rw [h0]; exact Nat.one_dvd _
    · rw [max_eq_right h0]
      exact Nat.dvd_of_mod_eq_zero (Nat.findGreatest_of_ne_zero hG.symm h0.ne').1
  · intro hdvd
    have hr0 : 0 < r := Nat.pos_of_ne_zero fun e => by
      rw [e, Nat.zero_dvd] at hdvd; omega
    apply le_antisymm
    · -- `r` fits and divides, so the search of the specification reaches it
      rcases Nat.lt_or_ge 1 r with h1 | h1
      · have hfit := hr₃ h1
        simp only [gt_iff_lt, decide_eq_false_iff_not, not_lt] at hfit
        rw [hwrap r (hr₁.trans hD₁)] at hfit
        exact (Nat.le_findGreatest (hr₁.trans hD₁)
          ⟨Nat.mod_eq_zero_of_dvd hdvd, by rwa [Nat.mul_comm]⟩).trans (le_max_right _ _)
      · exact h1.trans (le_max_left _ _)
    · -- the specification's factor is a divisor that fits: neither search steps over it
      refine max_le hr0 (Nat.le_of_not_lt fun hlt => ?_)
      have hG0 : G ≠ 0 := by omega
      obtain ⟨hGd, hGs⟩ := Nat.findGreatest_of_ne_zero hG.symm hG0
      have hGP : G ≤ config.partialUnrollFactor := Nat.findGreatest_le _
      have hGD : G ≤ D := Nat.le_of_not_lt fun h => by simpa [hGd] using hD₂ G h hGP
      have := hr₂ G hlt hGD
      simp only [gt_iff_lt, decide_eq_true_eq, hwrap G hGP] at this
      rw [Nat.mul_comm] at hGs
      omega

/-- **Over the naturals, the code follows section 4.4 except in its partial factor**: without
wrap-around it chooses the specification's strategy, and its whole selection exactly when the
partial factor divides the trip count. -/
theorem selection_eq_specSelection_iff (c : LoopUnrollCandidate)
    (hfull : c.tripCount ≤ config.fullUnrollMaxCount → c.instructionCount * c.tripCount < 2 ^ 32)
    (hfactor : c.instructionCount * config.partialUnrollFactor < 2 ^ 32) :
    determineStrategy config c = (specSelection config c).1 ∧
      ((determineStrategy config c,
          calculateUnrollFactor config { c with strategy := determineStrategy config c }) =
          specSelection config c ↔
        (determineStrategy config c = .partialUnroll →
          calculateUnrollFactor config { c with strategy := .partialUnroll } ∣ c.tripCount)) := by
  -- the product is computed only once the trip count passes `FullUnrollMaxCount`
  have hcond : (decide (c.tripCount > 0) && decide (c.tripCount ≤ config.fullUnrollMaxCount) &&
      decide (c.instructionCount * c.tripCount % 2 ^ 32 ≤ config.fullUnrollMaxInstructions)) =
      (decide (0 < c.tripCount) && decide (c.tripCount ≤ config.fullUnrollMaxCount) &&
        decide (c.tripCount * c.instructionCount ≤ config.fullUnrollMaxInstructions)) := by
    by_cases hm : c.tripCount ≤ config.fullUnrollMaxCount
    · rw [Nat.mod_eq_of_lt (hfull hm), Nat.mul_comm]
    · simp [hm]
  unfold determineStrategy specSelection
  rw [hcond]
  split_ifs with h₁ h₂ h₃ h₄ <;> simp only [calculateUnrollFactor, true_and, Prod.mk.injEq,
    reduceCtorEq, false_implies, iff_true, forall_const]
  simp only [Bool.and_eq_true, decide_eq_true_eq, not_and, Bool.not_eq_true] at h₃
  exact partialFactor_eq_iff config c h₃ hfactor

/-- A loop of `8` iterations whose body holds `120` instructions, with no side effects. -/
def eightTrips : LoopUnrollCandidate :=
  { L := innerLoop, tripCount := 8, tripMultiple := 8, instructionCount := 120, isSimple := true,
    hasSideEffects := false, strategy := .noUnroll, unrollFactor := 1 }

/-- With the default configuration, on `eightTrips`: the selection of section 4.4 is made. -/
theorem selection_eq_specSelection_iff_eightTrips :
    (eightTrips.tripCount ≤ ({} : LoopUnrollConfig).fullUnrollMaxCount →
        eightTrips.instructionCount * eightTrips.tripCount < 2 ^ 32) ∧
      eightTrips.instructionCount * ({} : LoopUnrollConfig).partialUnrollFactor < 2 ^ 32 ∧
      (determineStrategy {} eightTrips = (specSelection {} eightTrips).1 ∧
        ((determineStrategy {} eightTrips,
            calculateUnrollFactor {} { eightTrips with strategy := determineStrategy {} eightTrips }) =
            specSelection {} eightTrips ↔
          (determineStrategy {} eightTrips = .partialUnroll →
            calculateUnrollFactor {} { eightTrips with strategy := .partialUnroll } ∣
              eightTrips.tripCount))) :=
  ⟨fun _ => by decide, by decide,
    selection_eq_specSelection_iff {} eightTrips (fun _ => by decide) (by decide)⟩

/-- **The partial factor need not divide the trip count.**  By default, for `8` iterations of
`120` instructions the divisor search stops at `4` and the size search at `3`, where section 4.4
selects `2`. -/
theorem calculateUnrollFactor_eightTrips :
    determineStrategy {} eightTrips = .partialUnroll ∧
      calculateUnrollFactor {} { eightTrips with strategy := .partialUnroll } = 3 ∧
      ¬ 3 ∣ eightTrips.tripCount ∧ specSelection {} eightTrips = (.partialUnroll, 2) := by
  decide

/-- A configuration `setConfig` accepts: full unrolling up to `65536` iterations, partial
unrolling by up to `65536`. -/
def wideConfig : LoopUnrollConfig := { fullUnrollMaxCount := 65536, partialUnrollFactor := 65536 }

/-- A loop of `trips` iterations whose body holds `65536` instructions, with no side effects. -/
def wideLoop (trips : ℕ) : LoopUnrollCandidate :=
  { L := innerLoop, tripCount := trips, tripMultiple := trips, instructionCount := 65536,
    isSimple := true, hasSideEffects := false, strategy := .noUnroll, unrollFactor := 1 }

/-- **The `unsigned` products wrap around.**  Under `wideConfig`, `65536` iterations of `65536`
instructions are unrolled fully, and `131072` partially by `65536`, each product wrapping to
`0`. -/
theorem determineStrategy_wideLoop :
    wideConfig.fullUnrollMaxCount < 2 ^ 32 ∧ wideConfig.partialUnrollFactor < 2 ^ 32 ∧
      determineStrategy wideConfig (wideLoop 65536) = .fullUnroll ∧
      ¬ (wideLoop 65536).tripCount * (wideLoop 65536).instructionCount ≤
        wideConfig.fullUnrollMaxInstructions ∧
      determineStrategy wideConfig (wideLoop 131072) = .partialUnroll ∧
      calculateUnrollFactor wideConfig { wideLoop 131072 with strategy := .partialUnroll } =
        65536 ∧
      ¬ 65536 * (wideLoop 131072).instructionCount ≤ wideConfig.maxUnrolledSize := by
  decide

end LoopUnrollingPass

end OptPasses
