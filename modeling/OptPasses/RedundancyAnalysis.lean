/-
**`RedundancyAnalysis`: value numbering over the dominator tree.**

`RedundancyAnalysis::run` numbers the arguments, then walks the blocks in dominator-tree preorder
and each block top to bottom (`processBlock`).  An instruction that is not analyzable only gets a
value number.  An analyzable one gets an expression key; if the key's bucket holds an instruction
that dominates it, the pair is recorded as redundant, and otherwise the instruction joins the
bucket.  Either way it then gets a value number of its own.

The two nested loops are one loop over `OptPasses.RedundancyAnalysis.traversal`, the instructions
of the reachable blocks in walk order (`OptPasses.RedundancyAnalysis.run_eq_finalState`), and
every fact about the walk is proved once per step (`OptPasses.RedundancyAnalysis.processInst_cases`
says what a step can do) and carried along it by `OptPasses.RedundancyAnalysis.walk_induction`.
The walk meets a dominator before what it dominates.  Along it
(`OptPasses.RedundancyAnalysis.Invariant`), every bucket member was processed, is analyzable, was
never flagged and has the bucket's key; every flagged instruction has a dominating replacement in
the bucket of its key; and an analyzable instruction left unflagged sits in its key's bucket.
While the `unsigned` counter does not wrap around, the numbering is injective, so equal keys mean
equal key fields (`OptPasses.SameKey`).  Whether or not it wraps, the replacement of a flagged
instruction is pinned down by keys and dominance alone: dominators of an instruction are ordered
by dominance, and of two unflagged instructions with one key neither dominates the other.

Main definitions:

* `OptPasses.RedundancyInfo` — the flagged pairs, in the order they were recorded, with the
  queries `isRedundant` and `getReplacement`;
* `OptPasses.RedundancyAnalysis.isAnalyzable`, `OptPasses.RedundancyAnalysis.processBlock`,
  `OptPasses.RedundancyAnalysis.run`;
* `OptPasses.RedundancyAnalysis.numberingBound`, `OptPasses.RedundancyAnalysis.walkValues` — how
  many values the walk may number, and which.

Main results:

* `OptPasses.RedundancyAnalysis.pair_spec` — **every flagged pair `(R, P)`**: both are
  analyzable instructions of the function, `R` lies in a reachable block, `P ≠ R`, `P` dominates
  `R`, they have one result type, and `P` is not itself flagged;
* `OptPasses.RedundancyAnalysis.nodup_redundant` — no instruction is flagged twice;
* `OptPasses.RedundancyAnalysis.getReplacement_spec` — what the queries tell a client: an
  instruction is redundant exactly when it has a replacement, which dominates it and is not
  redundant itself;
* `OptPasses.RedundancyAnalysis.sameKey_of_mem_run` — without wrap-around, a flagged pair agrees
  on the key fields;
* `OptPasses.RedundancyAnalysis.not_sameKey_of_dominates` — nothing the criterion detects is
  missed: two unflagged analyzable instructions, one dominating the other, differ in a key field;
* `OptPasses.RedundancyAnalysis.flagged_iff` — **what the analysis computes**: an instruction of
  the walk is flagged exactly when an unflagged analyzable instruction with the same key fields
  dominates it;
* `OptPasses.RedundancyAnalysis.exists_runOps_finalState`, `OptPasses.RedundancyAnalysis.finalState_dense`
  — the table of the walk is a run of `ValueNumberTable` operations from a fresh table, so that,
  while the walk numbers fewer than `2 ^ 32 - 1` distinct values, its numbers are distinct and
  exactly `1, …, NextValueNumber - 1`;
* `OptPasses.RedundancyAnalysis.redundant_iff_availableAt` — **the map, exactly, with no bound on
  the counter**: an instruction of a reachable block is flagged exactly when another analyzable
  instruction with the key it got during the run dominates it, and its replacement is the only
  such instruction left unflagged, whatever the order of the buckets.
-/

import OptPasses.ValueNumbering

set_option relaxedAutoImplicit false
set_option autoImplicit false

namespace OptPasses

/-- `RedundancyInfo`: the map from each redundant instruction to its replacement, as its entries in
the order they were inserted.  A `DenseMap` iterates in an order fixed by pointer values, so the
consumer is modelled over every permutation of this list. -/
structure RedundancyInfo where
  redundantInstructions : List (Inst × Inst)

/-- `RedundancyInfo::hasRedundancies`. -/
def RedundancyInfo.hasRedundancies (RI : RedundancyInfo) : Bool := !RI.redundantInstructions.isEmpty

/-- `RedundancyInfo::isRedundant`: the map has an entry for the instruction (its handle is its
id). -/
def RedundancyInfo.isRedundant (RI : RedundancyInfo) (I : Inst) : Bool :=
  RI.redundantInstructions.any fun e => e.1.id == I.id

/-- `RedundancyInfo::getReplacement`, with `nullptr` as `none`. -/
def RedundancyInfo.getReplacement (RI : RedundancyInfo) (I : Inst) : Option Inst :=
  (RI.redundantInstructions.find? fun e => e.1.id == I.id).map Prod.snd

namespace RedundancyAnalysis

open ValueNumberTable

/-- `RedundancyAnalysis::isAnalyzable`. -/
def isAnalyzable (I : Inst) : Bool :=
  !I.isPhi && !I.opcode.isTerminator && !I.mayHaveSideEffects && !I.isVolatile &&
    !(I.opcode = .load || I.opcode = .store) && I.opcode ≠ .alloca &&
    !(I.opcode = .call || I.opcode = .invoke)

/-- An analyzable instruction is neither a PHI nor a terminator. -/
theorem isPhi_isTerminator_of_isAnalyzable {I : Inst} (h : isAnalyzable I) :
    I.isPhi = false ∧ I.opcode.isTerminator = false := by
  simp only [isAnalyzable, Bool.and_eq_true, Bool.not_eq_true'] at h
  exact ⟨h.1.1.1.1.1.1, h.1.1.1.1.1.2⟩

/-- An analyzable instruction is no `invoke`, `callbr` or PHI, so dominance by it and of it is
the plain one. -/
theorem ordinary_of_isAnalyzable {I : Inst} (h : isAnalyzable I) :
    (I.opcode = .invoke || I.opcode = .callBr || I.isPhi) = false := by
  obtain ⟨hphi, hterm⟩ := isPhi_isTerminator_of_isAnalyzable h
  have h₁ : I.opcode ≠ .invoke := fun e => by simp [e, Opcode.isTerminator] at hterm
  have h₂ : I.opcode ≠ .callBr := fun e => by simp [e, Opcode.isTerminator] at hterm
  simp [h₁, h₂, hphi]

variable (F : Function) (DT : DominatorTree)

/-- One iteration of the loop of `RedundancyAnalysis::processBlock`. -/
def processInst (st : ValueNumberTable × RedundancyInfo) (I : Inst) :
    ValueNumberTable × RedundancyInfo :=
  if !isAnalyzable I then ((st.1.getValueNumber (.inst I.id)).2, st.2)
  else
    let (key, t) := st.1.createExpressionKey I
    match t.findAvailableValue key I DT F with
    | some P => ((t.getValueNumber (.inst I.id)).2, ⟨st.2.redundantInstructions ++ [(I, P)]⟩)
    | none => (((t.addExpression key I).getValueNumber (.inst I.id)).2, st.2)

/-- `RedundancyAnalysis::processBlock`. -/
def processBlock (BB : Block) (st : ValueNumberTable × RedundancyInfo) :
    ValueNumberTable × RedundancyInfo :=
  BB.insts.foldl (processInst F DT) st

/-- The table after `run` has numbered the arguments. -/
def numberArguments : ValueNumberTable :=
  (List.range F.numArgs).foldl (fun t i => (t.getValueNumber (.arg i)).2) ValueNumberTable.init

/-- `RedundancyAnalysis::run`. -/
def run : RedundancyInfo :=
  (DT.preorder.foldl
    (fun st b => match F.block? b with
      | some BB => processBlock F DT BB st
      | none => st)
    (numberArguments F, ⟨[]⟩)).2

/-- The instructions `run` processes, in order: those of the reachable blocks, in preorder. -/
def traversal : List Inst := DT.preorder.flatMap fun b => ((F.block? b).map Block.insts).getD []

/-- The state the walk of `run` ends in: the table, and the flagged pairs. -/
def finalState : ValueNumberTable × RedundancyInfo :=
  (traversal F DT).foldl (processInst F DT) (numberArguments F, ⟨[]⟩)

/-- The values the analysis of `F` may number: the arguments, and each instruction with its
operands.  Below `2 ^ 32 - 1` of them the `unsigned` counter cannot wrap around. -/
def numberingBound : ℕ :=
  F.numArgs + (F.insts.flatMap fun I => Value.inst I.id :: I.operands).length

/-- The values the walk of `run` numbers, in order, repeats included: the arguments, then, for
each instruction, its operands if it is analyzable, and its result. -/
def walkValues : List Value :=
  (List.range F.numArgs).map Value.arg ++
    (traversal F DT).flatMap fun I => (if isAnalyzable I then I.operands else []) ++ [.inst I.id]

variable {F DT}

/-! ### One loop instead of two -/

theorem foldl_blocks_eq (labels : List ℕ) (st : ValueNumberTable × RedundancyInfo) :
    labels.foldl (fun st b => match F.block? b with
      | some BB => processBlock F DT BB st
      | none => st) st =
      (labels.flatMap fun b => ((F.block? b).map Block.insts).getD []).foldl
        (processInst F DT) st := by
  induction labels generalizing st with
  | nil => rfl
  | cons b bs ih =>
      rw [List.foldl_cons, List.flatMap_cons, List.foldl_append, ih]
      cases F.block? b <;> rfl

theorem run_eq_finalState : run F DT = (finalState F DT).2 := by
  rw [run, foldl_blocks_eq]; rfl

theorem block?_spec {b : ℕ} {B : Block} (h : F.block? b = some B) :
    B ∈ F.blocks ∧ B.label = b :=
  ⟨List.mem_of_find?_eq_some h, by simpa using List.find?_some h⟩

/-- An instruction of the walk is an instruction of the function in a reachable block. -/
theorem mem_traversal {I : Inst} (h : I ∈ traversal F DT) :
    I ∈ F.insts ∧ ∃ b ∈ DT.preorder, F.blockOf? I.id = some b := by
  obtain ⟨b, hb, hI⟩ := List.mem_flatMap.1 h
  cases hB : F.block? b with
  | none => simp [hB] at hI
  | some B =>
      obtain ⟨hBm, rfl⟩ := block?_spec hB
      simp only [hB, Option.map_some', Option.getD_some] at hI
      exact ⟨Function.mem_insts.2 ⟨B, hBm, hI⟩, B.label, hb, F.blockOf?_of_mem hBm hI⟩

/-- An instruction of the function in a reachable block is met by the walk. -/
theorem mem_traversal_of {I : Inst} (hI : I ∈ F.insts) {b : ℕ} (hb : b ∈ DT.preorder)
    (hIb : F.blockOf? I.id = some b) : I ∈ traversal F DT := by
  obtain ⟨B, hB, hIB⟩ := Function.mem_insts.1 hI
  obtain rfl : B.label = b := by rw [F.blockOf?_of_mem hB hIB] at hIb; exact Option.some.inj hIb
  refine List.mem_flatMap.2 ⟨B.label, hb, ?_⟩
  simpa [F.block?_of_mem hB] using hIB

theorem traversal_mapInsts (f : Inst → Inst) (hf : ∀ I, (f I).id = I.id) :
    traversal (F.mapInsts f hf) DT = (traversal F DT).map f := by
  simp only [traversal, Function.block?_mapInsts, List.map_flatMap]
  congr 1; funext b; cases F.block? b <;> rfl

theorem traversal_filterInsts (p : Inst → Bool) :
    traversal (F.filterInsts p) DT = (traversal F DT).filter p := by
  simp only [traversal, Function.block?_filterInsts, List.filter_flatMap]
  congr 1; funext b; cases F.block? b <;> rfl

/-- The walk meets each instruction at most once. -/
theorem traversal_ids_nodup : ((traversal F DT).map Inst.id).Nodup := by
  rw [traversal, List.map_flatMap, List.nodup_flatMap]
  refine ⟨fun b _ => ?_, DT.nodup.pairwise_of_forall_ne fun b _ b' _ hne => ?_⟩
  · cases hB : F.block? b with
    | none => simp
    | some B => simpa using F.block_ids_nodup (block?_spec hB).1
  · cases hB : F.block? b with
    | none => simp [Function.onFun, hB]
    | some B =>
        cases hB' : F.block? b' with
        | none => simp [Function.onFun, hB']
        | some B' =>
            simp only [Function.onFun, hB, hB', Option.map_some', Option.getD_some]
            intro a ha ha'
            obtain ⟨hBm, rfl⟩ := block?_spec hB
            obtain ⟨hBm', rfl⟩ := block?_spec hB'
            exact hne (congrArg Block.label (F.block_eq_of_mem_ids hBm hBm' ha ha'))

/-- **Induction over the walk.**  A property of the processed prefix and of the state that holds
before the walk, and survives the processing of each next instruction, holds at its end. -/
theorem walk_induction (Q : List Inst → ValueNumberTable × RedundancyInfo → Prop)
    (h₀ : Q [] (numberArguments F, ⟨[]⟩))
    (step : ∀ done I suf st, traversal F DT = done ++ I :: suf → Q done st →
      Q (done ++ [I]) (processInst F DT st I)) :
    Q (traversal F DT) (finalState F DT) := by
  suffices ∀ suf done st, traversal F DT = done ++ suf → Q done st →
      Q (done ++ suf) (suf.foldl (processInst F DT) st) by
    simpa using this (traversal F DT) [] _ rfl h₀
  intro suf
  induction suf with
  | nil => intro done st _ h; simpa using h
  | cons I suf ih =>
      intro done st hT h
      simpa using ih (done ++ [I]) _ (by simpa using hT) (step done I suf st hT h)

theorem id_not_mem_of_traversal_eq {done suf : List Inst} {I : Inst}
    (h : traversal F DT = done ++ I :: suf) : I.id ∉ done.map Inst.id := by
  have hnd := @traversal_ids_nodup F DT
  rw [h, List.map_append, List.nodup_append] at hnd
  exact fun hI => hnd.2.2 hI (List.mem_cons_self _ _)

/-! ### A dominator is processed first -/

/-- **The walk meets a dominator first**: no instruction of the walk is dominated by one it
meets later. -/
theorem traversal_pairwise :
    (traversal F DT).Pairwise fun P Q => DT.dominates F Q P = false := by
  rw [traversal, List.pairwise_flatMap]
  refine ⟨fun b hb => ?_, DT.preorder_pairwise.imp_of_mem fun {a b} ha _ hab P hP Q hQ => ?_⟩
  · -- within a block, the order of the block
    cases hB : F.block? b with
    | none => simp
    | some B =>
        obtain ⟨hBm, rfl⟩ := block?_spec hB
        simp only [Option.map_some', Option.getD_some]
        have hnd := F.block_ids_nodup hBm
        refine (List.pairwise_map.1 (Function.pairwise_precedesIn hnd)).imp_of_mem
          fun {P Q} hP hQ hPQ => Bool.eq_false_iff.2 fun hdom => ?_
        obtain ⟨-, -, -, hc⟩ := DominatorTree.dominates_spec (F.blockOf?_of_mem hBm hQ)
          (F.blockOf?_of_mem hBm hP) hb hdom
        obtain ⟨B', hB', hQP⟩ := Function.comesBefore_iff.1 (hc rfl)
        cases F.block_eq_of_mem_ids hBm hB' (List.mem_map_of_mem _ hP)
          (Function.mem_of_precedesIn hQP).2
        simpa [Function.precedesIn_irrefl hnd] using Function.precedesIn_trans hnd hPQ hQP
  · -- across blocks, the preorder
    cases hA : F.block? a with
    | none => simp [hA] at hP
    | some A =>
        cases hB : F.block? b with
        | none => simp [hB] at hQ
        | some B =>
            obtain ⟨hAm, rfl⟩ := block?_spec hA
            obtain ⟨hBm, rfl⟩ := block?_spec hB
            simp only [hA, hB, Option.map_some', Option.getD_some] at hP hQ
            refine Bool.eq_false_iff.2 fun hdom => ?_
            obtain ⟨-, -, hd, -⟩ := DominatorTree.dominates_spec (F.blockOf?_of_mem hBm hQ)
              (F.blockOf?_of_mem hAm hP) ha hdom
            have hne : B.label ≠ A.label := fun e => by rw [e] at hab; exact lt_irrefl _ hab
            exact absurd hab (not_lt.2 (DominatorTree.dominatesBlock_iff.1 (hd hne)).2.2.1)

theorem dominates_eq_false_of_traversal_eq {done suf : List Inst} {I J : Inst}
    (h : traversal F DT = done ++ I :: suf) (hJ : J ∈ done) : DT.dominates F I J = false := by
  have hp := @traversal_pairwise F DT
  rw [h, List.pairwise_append] at hp
  exact hp.2.2 J hJ I (List.mem_cons_self _ _)

/-! ### What one step does -/

variable (F DT) in
/-- **What one step does.**  A non-analyzable instruction only gets a number.  An analyzable one
gets its key, then a replacement from the key's bucket or a place in it, then a number. -/
theorem processInst_cases (st : ValueNumberTable × RedundancyInfo) (I : Inst) :
    (isAnalyzable I = false ∧
      processInst F DT st I = ((st.1.getValueNumber (.inst I.id)).2, st.2)) ∨
    (isAnalyzable I = true ∧ ∃ P ∈ st.1.expressionTable
        (keyWith (st.1.numberOperands I).valueNumbers I), P.id ≠ I.id ∧ DT.dominates F P I ∧
      processInst F DT st I = (((st.1.numberOperands I).getValueNumber (.inst I.id)).2,
        ⟨st.2.redundantInstructions ++ [(I, P)]⟩)) ∨
    (isAnalyzable I = true ∧ (∀ P ∈ st.1.expressionTable
        (keyWith (st.1.numberOperands I).valueNumbers I), P.id ≠ I.id →
          DT.dominates F P I = false) ∧
      processInst F DT st I = ((((st.1.numberOperands I).addExpression
        (keyWith (st.1.numberOperands I).valueNumbers I) I).getValueNumber (.inst I.id)).2,
          st.2)) := by
  unfold processInst
  cases ha : isAnalyzable I
  · exact .inl ⟨rfl, rfl⟩
  · simp only [Bool.not_true, Bool.false_eq_true, if_false, ValueNumberTable.createExpressionKey_eq]
    split
    · rename_i P hf
      obtain ⟨hP, hne, hdom⟩ := findAvailableValue_spec hf
      exact .inr (.inl ⟨trivial, P, by simpa using hP, hne, hdom, rfl⟩)
    · rename_i hf
      refine .inr (.inr ⟨trivial, fun P hP hne => ?_, rfl⟩)
      simpa [hne] using List.find?_eq_none.1 hf P (by simpa using hP)

variable (F DT) in
/-- What one step does to the numbering: the instruction gets a number, and so do the operands
of an analyzable one; no value loses its number; the counter moves by at most one per operand and
one for the instruction. -/
theorem table_processInst (st : ValueNumberTable × RedundancyInfo) (I : Inst) :
    ((processInst F DT st I).1.valueNumbers (.inst I.id)).isSome ∧
      (isAnalyzable I → ∀ V ∈ I.operands, ((processInst F DT st I).1.valueNumbers V).isSome) ∧
      Extends st.1 (processInst F DT st I).1 ∧
      (processInst F DT st I).1.nextValueNumber ≤
        st.1.nextValueNumber + (I.operands.length + 1) := by
  obtain ⟨hops, hext, hnext⟩ := st.1.numberOperands_spec I
  have key : ∀ t : ValueNumberTable, Extends st.1 t →
      t.nextValueNumber ≤ st.1.nextValueNumber + I.operands.length →
      (isAnalyzable I → ∀ V ∈ I.operands, (t.valueNumbers V).isSome) →
      ((t.getValueNumber (.inst I.id)).2.valueNumbers (.inst I.id)).isSome ∧
      (isAnalyzable I → ∀ V ∈ I.operands,
        ((t.getValueNumber (.inst I.id)).2.valueNumbers V).isSome) ∧
      Extends st.1 (t.getValueNumber (.inst I.id)).2 ∧
      (t.getValueNumber (.inst I.id)).2.nextValueNumber ≤
        st.1.nextValueNumber + (I.operands.length + 1) := fun t h₁ h₂ h₃ => by
    obtain ⟨g₁, g₂, g₃⟩ := t.getValueNumber_spec (.inst I.id)
    exact ⟨by simp [g₁], fun ha V hV => g₂.isSome (h₃ ha V hV), h₁.trans g₂, by omega⟩
  rcases processInst_cases F DT st I with ⟨ha, h⟩ | ⟨-, _, -, -, -, h⟩ | ⟨-, -, h⟩ <;> rw [h]
  · exact key _ (.refl _) (by omega) (by simp [ha])
  · exact key _ hext hnext fun _ => hops
  · exact key _ hext hnext fun _ => hops

/-- A step only adds flags. -/
theorem redundant_subset_processInst (st : ValueNumberTable × RedundancyInfo) (I : Inst) :
    st.2.redundantInstructions ⊆ (processInst F DT st I).2.redundantInstructions := by
  rcases processInst_cases F DT st I with ⟨-, h⟩ | ⟨-, _, -, -, -, h⟩ | ⟨-, -, h⟩ <;> rw [h]
  · exact List.Subset.refl _
  · exact List.subset_append_left _ _
  · exact List.Subset.refl _

/-- An analyzable instruction keeps, after its step, the key its numbered operands gave it. -/
theorem keyWith_processInst (st : ValueNumberTable × RedundancyInfo) {I : Inst}
    (ha : isAnalyzable I) :
    keyWith (processInst F DT st I).1.valueNumbers I =
      keyWith (st.1.numberOperands I).valueNumbers I := by
  have hops := (st.1.numberOperands_spec I).1
  rcases processInst_cases F DT st I with ⟨ha', -⟩ | ⟨-, _, -, -, -, h⟩ | ⟨-, -, h⟩
  · simp [ha] at ha'
  · rw [h]; exact keyWith_of_extends (getValueNumber_spec _).2.1 hops
  · rw [h]; exact keyWith_of_extends (getValueNumber_spec _).2.1 hops

/-- The walk only adds numbers. -/
theorem extends_foldl : ∀ (l : List Inst) (st : ValueNumberTable × RedundancyInfo),
    Extends st.1 (l.foldl (processInst F DT) st).1
  | [], st => Extends.refl st.1
  | I :: l, st => (table_processInst F DT st I).2.2.1.trans (extends_foldl l _)

/-! ### The invariant of the walk -/

variable (F DT) in
/-- What the state of `run` satisfies once the instructions `done` are processed. -/
structure Invariant (done : List Inst) (st : ValueNumberTable × RedundancyInfo) : Prop where
  /-- A bucket member was processed, is analyzable, was never flagged, and has the bucket's
  key. -/
  bucket : ∀ key, ∀ P ∈ st.1.expressionTable key, P ∈ done ∧ isAnalyzable P ∧
    P.id ∉ st.2.redundantInstructions.map (·.1.id) ∧ key = keyWith st.1.valueNumbers P
  /-- A flagged instruction was processed, is analyzable, and its replacement is another
  instruction dominating it, in the bucket of its key. -/
  pair : ∀ R P, (R, P) ∈ st.2.redundantInstructions → R ∈ done ∧ isAnalyzable R ∧
    R.id ≠ P.id ∧ DT.dominates F P R ∧ P ∈ st.1.expressionTable (keyWith st.1.valueNumbers R)
  /-- No instruction is flagged twice. -/
  nodup : (st.2.redundantInstructions.map (·.1.id)).Nodup
  /-- The operands of a processed analyzable instruction have numbers. -/
  numbered : ∀ I ∈ done, isAnalyzable I → ∀ V ∈ I.operands, (st.1.valueNumbers V).isSome
  /-- A processed analyzable instruction left unflagged sits in the bucket of its key. -/
  member : ∀ I ∈ done, isAnalyzable I → I.id ∉ st.2.redundantInstructions.map (·.1.id) →
    I ∈ st.1.expressionTable (keyWith st.1.valueNumbers I)

theorem expressionTable_numberArguments (key : ExpressionKey) :
    (numberArguments F).expressionTable key = [] := by
  suffices ∀ (l : List ℕ) (t : ValueNumberTable),
      (l.foldl (fun t i => (t.getValueNumber (.arg i)).2) t).expressionTable = t.expressionTable by
    rw [numberArguments, this]; rfl
  intro l
  induction l with
  | nil => intro t; rfl
  | cons i l ih => intro t; rw [List.foldl_cons, ih]; simp

theorem invariant_init : Invariant F DT [] (numberArguments F, ⟨[]⟩) where
  bucket key P hP := by simp [expressionTable_numberArguments] at hP
  pair R P h := by simp at h
  nodup := List.nodup_nil
  numbered I hI := by simp at hI
  member I hI := by simp at hI

/-- **The step lemma**: processing a fresh instruction keeps the invariant. -/
theorem invariant_processInst {done : List Inst} {st : ValueNumberTable × RedundancyInfo}
    {I : Inst} (hinv : Invariant F DT done st) (hI : I.id ∉ done.map Inst.id) :
    Invariant F DT (done ++ [I]) (processInst F DT st I) := by
  obtain ⟨-, hopsI, hext, -⟩ := table_processInst F DT st I
  set st' := processInst F DT st I with hst'
  have hfresh : ∀ P ∈ done, P.id ≠ I.id := fun P hP e => hI (e ▸ List.mem_map_of_mem _ hP)
  have hdone : I.id ∉ st.2.redundantInstructions.map (·.1.id) := fun h => by
    obtain ⟨⟨R, P⟩, hRP, e⟩ := List.mem_map.1 h
    exact hfresh R (hinv.pair R P hRP).1 e
  -- what was processed keeps its key, since its operands keep their numbers
  have hkey : ∀ P ∈ done, isAnalyzable P →
      keyWith st'.1.valueNumbers P = keyWith st.1.valueNumbers P :=
    fun P hP ha => keyWith_of_extends hext (hinv.numbered P hP ha)
  have hbucket : ∀ key, ∀ P ∈ st.1.expressionTable key, P ∈ done ++ [I] ∧ isAnalyzable P ∧
      P.id ∉ st.2.redundantInstructions.map (·.1.id) ∧ key = keyWith st'.1.valueNumbers P :=
    fun key P hP => by
      obtain ⟨h₁, h₂, h₃, h₄⟩ := hinv.bucket key P hP
      exact ⟨List.mem_append_left _ h₁, h₂, h₃, h₄.trans (hkey P h₁ h₂).symm⟩
  have hpair : ∀ R P, (R, P) ∈ st.2.redundantInstructions → R ∈ done ++ [I] ∧
      isAnalyzable R ∧ R.id ≠ P.id ∧ DT.dominates F P R ∧
      P ∈ st.1.expressionTable (keyWith st'.1.valueNumbers R) := fun R P h => by
    obtain ⟨h₁, h₂, h₃, h₄, h₅⟩ := hinv.pair R P h
    exact ⟨List.mem_append_left _ h₁, h₂, h₃, h₄, by rwa [hkey R h₁ h₂]⟩
  have hmember : ∀ J ∈ done, isAnalyzable J → J.id ∉ st.2.redundantInstructions.map (·.1.id) →
      J ∈ st.1.expressionTable (keyWith st'.1.valueNumbers J) := fun J hJ ha hr => by
    rw [hkey J hJ ha]; exact hinv.member J hJ ha hr
  have hnumbered : ∀ J ∈ done ++ [I], isAnalyzable J →
      ∀ V ∈ J.operands, (st'.1.valueNumbers V).isSome := fun J hJ ha => by
    rcases List.mem_append.1 hJ with hJ | hJ
    · exact fun V hV => hext.isSome (hinv.numbered J hJ ha V hV)
    · obtain rfl := List.mem_singleton.1 hJ; exact hopsI ha
  rcases processInst_cases F DT st I with ⟨ha, h⟩ | ⟨ha, P, hPb, hPI, hdom, h⟩ | ⟨ha, -, h⟩
  · -- not analyzable: only the numbering changes
    have ht : st'.1.expressionTable = st.1.expressionTable := by rw [hst', h]; simp
    have hr : st'.2 = st.2 := by rw [hst', h]
    refine ⟨fun key Q hQ => ?_, fun R Q hRQ => ?_, by rw [hr]; exact hinv.nodup, hnumbered,
      fun J hJ hJa hJr => ?_⟩
    · rw [hr]; exact hbucket key Q (by rwa [ht] at hQ)
    · rw [ht]; exact hpair R Q (by rwa [hr] at hRQ)
    · rcases List.mem_append.1 hJ with hJ | hJ
      · rw [ht]; exact hmember J hJ hJa (by rwa [hr] at hJr)
      · obtain rfl := List.mem_singleton.1 hJ; simp [ha] at hJa
  · -- flagged, with replacement `P` from the bucket of its key
    have ht : st'.1.expressionTable = st.1.expressionTable := by rw [hst', h]; simp
    have hr : st'.2.redundantInstructions = st.2.redundantInstructions ++ [(I, P)] := by
      rw [hst', h]
    have hkeyI : keyWith st'.1.valueNumbers I = keyWith (st.1.numberOperands I).valueNumbers I :=
      keyWith_processInst st ha
    refine ⟨fun key Q hQ => ?_, fun R Q hRQ => ?_, ?_, hnumbered, fun J hJ hJa hJr => ?_⟩
    · rw [ht] at hQ
      obtain ⟨h₁, h₂, h₃, h₄⟩ := hbucket key Q hQ
      exact ⟨h₁, h₂, by simpa [hr, hfresh Q (hinv.bucket key Q hQ).1] using h₃, h₄⟩
    · rw [hr] at hRQ
      rw [ht]
      rcases List.mem_append.1 hRQ with hRQ | hRQ
      · exact hpair R Q hRQ
      · obtain ⟨rfl, rfl⟩ : R = I ∧ Q = P := by simpa using hRQ
        exact ⟨by simp, ha, hPI.symm, hdom, by rwa [hkeyI]⟩
    · rw [hr]
      simpa [List.nodup_append] using
        ⟨hinv.nodup, fun R P h e => hdone (List.mem_map.2 ⟨(R, P), h, e⟩)⟩
    · rw [hr] at hJr
      rcases List.mem_append.1 hJ with hJ | hJ
      · rw [ht]; exact hmember J hJ hJa fun h' => hJr (by simp [h'])
      · obtain rfl := List.mem_singleton.1 hJ; simp at hJr
  · -- joins the bucket of its key
    have ht : st'.1.expressionTable = ((st.1.numberOperands I).addExpression
        (keyWith (st.1.numberOperands I).valueNumbers I) I).expressionTable := by rw [hst', h]; simp
    have hr : st'.2 = st.2 := by rw [hst', h]
    have hkeyI : keyWith st'.1.valueNumbers I = keyWith (st.1.numberOperands I).valueNumbers I :=
      keyWith_processInst st ha
    have hgrow : ∀ key, ∀ Q ∈ st.1.expressionTable key, Q ∈ st'.1.expressionTable key :=
      fun key Q hQ => by rw [ht]; exact mem_expressionTable_addExpression _ _ (by simpa using hQ)
    refine ⟨fun key Q hQ => ?_, fun R Q hRQ => ?_, by rw [hr]; exact hinv.nodup, hnumbered,
      fun J hJ hJa hJr => ?_⟩
    · rw [ht, mem_expressionTable_addExpression_iff, expressionTable_numberOperands] at hQ
      rw [hr]
      rcases hQ with hQ | ⟨rfl, rfl⟩
      · exact hbucket key Q hQ
      · exact ⟨by simp, ha, hdone, hkeyI.symm⟩
    · obtain ⟨h₁, h₂, h₃, h₄, h₅⟩ := hpair R Q (by rwa [hr] at hRQ)
      exact ⟨h₁, h₂, h₃, h₄, hgrow _ Q h₅⟩
    · rw [hr] at hJr
      rcases List.mem_append.1 hJ with hJ | hJ
      · exact hgrow _ J (hmember J hJ hJa hJr)
      · obtain rfl := List.mem_singleton.1 hJ
        rw [ht, hkeyI]
        exact mem_expressionTable_addExpression_iff.2 (.inr ⟨rfl, rfl⟩)

/-- **The run lemma**: the invariant holds at the end of the walk. -/
theorem invariant_run : Invariant F DT (traversal F DT) (finalState F DT) :=
  walk_induction _ invariant_init fun _ _ _ _ hT hinv =>
    invariant_processInst hinv (id_not_mem_of_traversal_eq hT)

/-- **Every flagged pair.** -/
theorem pair_spec {R P : Inst} (h : (R, P) ∈ (run F DT).redundantInstructions) :
    R ∈ F.insts ∧ P ∈ F.insts ∧ isAnalyzable R ∧ isAnalyzable P ∧ R.type = P.type ∧
      R.id ≠ P.id ∧ DT.dominates F P R ∧ (∃ b ∈ DT.preorder, F.blockOf? R.id = some b) ∧
      P.id ∉ (run F DT).redundantInstructions.map (·.1.id) := by
  rw [run_eq_finalState] at h ⊢
  obtain ⟨hR, hRa, hne, hdom, hP⟩ := invariant_run.pair R P h
  obtain ⟨hPd, hPa, hPr, hkey⟩ := invariant_run.bucket _ P hP
  exact ⟨(mem_traversal hR).1, (mem_traversal hPd).1, hRa, hPa,
    congrArg ExpressionKey.resultType hkey, hne, hdom, (mem_traversal hR).2, hPr⟩

/-- **No instruction is flagged twice.** -/
theorem nodup_redundant : ((run F DT).redundantInstructions.map (·.1.id)).Nodup := by
  rw [run_eq_finalState]; exact invariant_run.nodup

theorem isRedundant_iff {RI : RedundancyInfo} {I : Inst} :
    RI.isRedundant I ↔ I.id ∈ RI.redundantInstructions.map (·.1.id) := by
  simp [RedundancyInfo.isRedundant]

/-- **What a client of the analysis may rely on**: an instruction of the function is redundant
exactly when it has a replacement, and its replacement is another analyzable instruction of the
function, of its type, dominating it, and not redundant itself. -/
theorem getReplacement_spec {I : Inst} (hI : I ∈ F.insts) :
    ((run F DT).isRedundant I ↔ ((run F DT).getReplacement I).isSome) ∧
      ∀ P, (run F DT).getReplacement I = some P →
        P ∈ F.insts ∧ isAnalyzable I ∧ isAnalyzable P ∧ I.type = P.type ∧ I.id ≠ P.id ∧
          DT.dominates F P I ∧ (run F DT).isRedundant P = false := by
  refine ⟨by simp [RedundancyInfo.isRedundant, RedundancyInfo.getReplacement, List.any_eq_true],
    fun P hP => ?_⟩
  obtain ⟨e, he, rfl⟩ := Option.map_eq_some'.1 hP
  have hid : e.1.id = I.id := by simpa using List.find?_some he
  obtain ⟨hR, hPi, hRa, hPa, hty, hne, hdom, -, hPr⟩ := pair_spec (List.mem_of_find?_eq_some he)
  obtain rfl := F.eq_of_id_eq hR hI hid
  exact ⟨hPi, hRa, hPa, hty, hne, hdom, Bool.eq_false_iff.2 fun h => hPr (isRedundant_iff.1 h)⟩

/-! ### Numbering without wrap-around -/

variable (F DT) in
/-- The operations of `ValueNumberTable` one iteration of `processBlock` issues, in order: a
number for an instruction that is not analyzable; otherwise its key, the search of the key's
bucket, the addition to the bucket when the search finds nothing, and its number. -/
def processInstOps (st : ValueNumberTable × RedundancyInfo) (I : Inst) : List Op :=
  if !isAnalyzable I then [.getValueNumber (.inst I.id)]
  else
    let (key, t) := st.1.createExpressionKey I
    [.createExpressionKey I, .findAvailableValue key I DT F] ++
      (match t.findAvailableValue key I DT F with
        | some _ => []
        | none => [.addExpression key I]) ++ [.getValueNumber (.inst I.id)]

/-- A step of the walk leaves the table its operations leave. -/
theorem processInst_fst (st : ValueNumberTable × RedundancyInfo) (I : Inst) :
    (processInst F DT st I).1 = (processInstOps F DT st I).foldl Op.apply st.1 := by
  unfold processInst processInstOps
  cases isAnalyzable I
  · rfl
  · simp only [Bool.not_true, Bool.false_eq_true, if_false, createExpressionKey_eq]
    split <;> simp [Op.apply, createExpressionKey_eq]

theorem freshCount_processInstOps (st : ValueNumberTable × RedundancyInfo) (I : Inst) :
    freshCount (processInstOps F DT st I) ≤ I.operands.length + 1 := by
  unfold processInstOps
  cases isAnalyzable I
  · simp [freshCount, Op.fresh]
  · simp only [Bool.not_true, Bool.false_eq_true, if_false, createExpressionKey_eq]
    split <;> simp [freshCount, Op.fresh, freshCount_append]

/-- A step of the walk numbers the operands of an analyzable instruction, then its result. -/
theorem foldl_record_processInstOps (st : ValueNumberTable × RedundancyInfo) (I : Inst)
    (vs : List Value) : (processInstOps F DT st I).foldl Op.record vs =
      vs ++ ((if isAnalyzable I then I.operands else []) ++ [.inst I.id]) := by
  unfold processInstOps
  cases isAnalyzable I
  · rfl
  · simp only [Bool.not_true, Bool.false_eq_true, if_false, if_true, createExpressionKey_eq]
    split <;> simp [Op.record, Op.values]

theorem numberArguments_eq : numberArguments F = runOps (argumentOps F.numArgs) := by
  rw [numberArguments, runOps, argumentOps, List.foldl_map]; rfl

theorem numberedSinceClear_argumentOps (n : ℕ) :
    numberedSinceClear (argumentOps n) = (List.range n).map Value.arg := by
  rw [numberedSinceClear, foldl_record_of_forall_ne_clear _ _ fun op hop => by
    obtain ⟨i, -, rfl⟩ := List.mem_map.1 hop; exact fun h => Op.noConfusion h]
  simp only [argumentOps, List.flatMap_map, Op.values]
  exact (List.map_eq_flatMap _ _).symm

theorem length_flatMap_le {l₁ l₂ : List Inst} (g : Inst → List Value) (h : l₁.Subperm l₂) :
    (l₁.flatMap g).length ≤ (l₂.flatMap g).length := by
  obtain ⟨l, hp, hs⟩ := h
  rw [← (hp.flatMap_right g).length_eq]
  clear hp
  induction hs with
  | slnil => exact le_rfl
  | cons a _ ih => rw [List.flatMap_cons, List.length_append]; omega
  | cons₂ a _ ih => simp only [List.flatMap_cons, List.length_append]; omega

/-- Rewriting operands, keeping their number, and erasing instructions only lowers the bound. -/
theorem numberingBound_le {G : Function} (hargs : G.numArgs = F.numArgs) (f : Inst → Inst)
    (hf : ∀ I, (f I).id = I.id ∧ (f I).operands.length = I.operands.length)
    (hsub : G.insts.Sublist (F.insts.map f)) : numberingBound G ≤ numberingBound F := by
  have hmap : ∀ l : List Inst, ((l.map f).flatMap fun I => Value.inst I.id :: I.operands).length =
      (l.flatMap fun I => Value.inst I.id :: I.operands).length := by
    intro l
    induction l with
    | nil => rfl
    | cons I l ih => simp [List.flatMap_cons, (hf I).2, ih]
  have := length_flatMap_le (fun I => Value.inst I.id :: I.operands) hsub.subperm
  rw [numberingBound, numberingBound, hargs, ← hmap F.insts]; omega

theorem numberingBound_mapInsts_le (f : Inst → Inst) (hf : ∀ I, (f I).id = I.id)
    (hlen : ∀ I, (f I).operands.length = I.operands.length) :
    numberingBound (F.mapInsts f hf) ≤ numberingBound F :=
  numberingBound_le rfl f (fun I => ⟨hf I, hlen I⟩) (by rw [Function.insts_mapInsts])

theorem numberingBound_filterInsts_le (p : Inst → Bool) :
    numberingBound (F.filterInsts p) ≤ numberingBound F :=
  numberingBound_le rfl id (fun _ => ⟨rfl, rfl⟩) (by simp)

/-- The walk numbers at most the values `numberingBound` counts. -/
theorem length_flatMap_traversal_le :
    ((traversal F DT).flatMap fun I => Value.inst I.id :: I.operands).length + F.numArgs ≤
      numberingBound F := by
  have hsub : (traversal F DT).Subperm F.insts :=
    (List.Nodup.of_map _ traversal_ids_nodup).subperm fun I hI => (mem_traversal hI).1
  have := length_flatMap_le (fun I => Value.inst I.id :: I.operands) hsub
  rw [numberingBound]; omega

/-- **The table of the walk is a run of the table's operations** from a fresh table, numbering at
most the values `numberingBound` counts, and numbering the values of `walkValues`. -/
theorem exists_runOps_finalState :
    ∃ ops, (finalState F DT).1 = runOps ops ∧ freshCount ops ≤ numberingBound F ∧
      numberedSinceClear ops = walkValues F DT := by
  have hT := @length_flatMap_traversal_le F DT
  obtain ⟨ops, h, hc, hv⟩ := walk_induction (fun done st => ∃ ops, st.1 = runOps ops ∧
      freshCount ops ≤ F.numArgs + (done.flatMap fun I => Value.inst I.id :: I.operands).length ∧
      numberedSinceClear ops = (List.range F.numArgs).map Value.arg ++
        done.flatMap fun I => (if isAnalyzable I then I.operands else []) ++ [.inst I.id])
    ⟨argumentOps F.numArgs, numberArguments_eq, by simp [freshCount_argumentOps],
      by simp [numberedSinceClear_argumentOps]⟩
    fun done I _ st _ ⟨ops, h, hc, hv⟩ => ⟨ops ++ processInstOps F DT st I,
      by rw [processInst_fst, h, runOps_append], by
        have := @freshCount_processInstOps F DT st I
        simp only [freshCount_append, List.flatMap_append, List.flatMap_cons, List.flatMap_nil,
          List.append_nil, List.length_append, List.length_cons]
        omega,
      by rw [numberedSinceClear, List.foldl_append, ← numberedSinceClear, hv,
        foldl_record_processInstOps, List.flatMap_append, List.flatMap_singleton,
        List.append_assoc]⟩
  exact ⟨ops, h, by omega, hv⟩

/-- **Without wrap-around the final table is well numbered**: numbers are nonzero, below the
counter, and distinct. -/
theorem wellNumbered_finalState (hb : numberingBound F + 1 < 2 ^ 32) :
    (finalState F DT).1.WellNumbered := by
  obtain ⟨ops, h, hc, -⟩ := @exists_runOps_finalState F DT
  rw [h]
  exact (dense_foldl ops dense_init (by simp only [init]; omega)).toWellNumbered

/-- **The analysis numbers values densely.**  When the walk numbers fewer than `2 ^ 32 - 1`
distinct values, `run` hands out distinct numbers, exactly `1, …, NextValueNumber - 1`, so that
`lookupValueNumber` reads `0` only for values without a number. -/
theorem finalState_dense (hb : (walkValues F DT).toFinset.card + 1 < 2 ^ 32) :
    (∀ U V n, (finalState F DT).1.valueNumbers U = some n →
      (finalState F DT).1.valueNumbers V = some n → U = V) ∧
    (∀ n, (∃ V, (finalState F DT).1.valueNumbers V = some n) ↔
      1 ≤ n ∧ n ≤ (finalState F DT).1.nextValueNumber - 1) ∧
    ∀ V, (finalState F DT).1.lookupValueNumber V = 0 ↔ (finalState F DT).1.valueNumbers V = none := by
  obtain ⟨ops, h, -, hv⟩ := @exists_runOps_finalState F DT
  rw [← hv] at hb
  have hd : Dense (finalState F DT).1 := h ▸ (tracks_foldl ops (.inl tracks_init) hb).dense
  exact ⟨hd.inj, hd.range_iff, hd.lookupValueNumber_eq_zero_iff⟩

/-! ### Keys along the walk -/

/-- **Every flagged pair agrees on the key fields**, when the counter does not wrap around. -/
theorem sameKey_of_mem_run (hb : numberingBound F + 1 < 2 ^ 32) {R P : Inst}
    (h : (R, P) ∈ (run F DT).redundantInstructions) : SameKey R P := by
  rw [run_eq_finalState] at h
  obtain ⟨hR, hRa, -, -, hP⟩ := invariant_run.pair R P h
  obtain ⟨hPd, hPa, -, hkey⟩ := invariant_run.bucket _ P hP
  exact (keyWith_eq_iff (wellNumbered_finalState hb).inj (invariant_run.numbered R hR hRa)
    (invariant_run.numbered P hPd hPa)).1 hkey

/-! ### Nothing the criterion detects is missed -/

variable (F DT) in
/-- Among the processed analyzable instructions left unflagged, none has the key of one that
dominates it. -/
def Complete (done : List Inst) (st : ValueNumberTable × RedundancyInfo) : Prop :=
  ∀ J ∈ done, ∀ K ∈ done, isAnalyzable J → isAnalyzable K →
    J.id ∉ st.2.redundantInstructions.map (·.1.id) →
    K.id ∉ st.2.redundantInstructions.map (·.1.id) →
    DT.dominates F K J → keyWith st.1.valueNumbers J ≠ keyWith st.1.valueNumbers K

theorem complete_processInst {done suf : List Inst} {st : ValueNumberTable × RedundancyInfo}
    {I : Inst} (hT : traversal F DT = done ++ I :: suf) (hk : Invariant F DT done st)
    (hc : Complete F DT done st) : Complete F DT (done ++ [I]) (processInst F DT st I) := by
  have hext := (table_processInst F DT st I).2.2.1
  have hkey : ∀ P ∈ done, isAnalyzable P →
      keyWith (processInst F DT st I).1.valueNumbers P = keyWith st.1.valueNumbers P :=
    fun P hP ha => keyWith_of_extends hext (hk.numbered P hP ha)
  have hred : ∀ x, x ∉ (processInst F DT st I).2.redundantInstructions.map (·.1.id) →
      x ∉ st.2.redundantInstructions.map (·.1.id) :=
    fun x hx h => hx (List.map_subset _ (redundant_subset_processInst st I) h)
  have hwalk : ∀ J ∈ done ++ [I], ∃ b ∈ DT.preorder, F.blockOf? J.id = some b := fun J hJ =>
    (mem_traversal (hT ▸ (((List.nil_sublist suf).cons₂ I).append_left done).subset hJ)).2
  intro J hJ K hK hJa hKa hJr hKr hdom heq
  obtain ⟨jb, hjb, hJb⟩ := hwalk J hJ
  obtain ⟨kb, -, hKb⟩ := hwalk K hK
  obtain ⟨-, hne, -, -⟩ := DominatorTree.dominates_spec hKb hJb hjb hdom
  rcases List.mem_append.1 hJ with hJd | hJI <;> rcases List.mem_append.1 hK with hKd | hKI
  · -- both processed before
    rw [hkey J hJd hJa, hkey K hKd hKa] at heq
    exact hc J hJd K hKd hJa hKa (hred _ hJr) (hred _ hKr) hdom heq
  · -- `I` dominates an instruction met before it
    obtain rfl := List.mem_singleton.1 hKI
    simp [dominates_eq_false_of_traversal_eq hT hJd] at hdom
  · -- `I` is left unflagged: the step found no dominating instruction of its key
    obtain rfl := List.mem_singleton.1 hJI
    rcases processInst_cases F DT st J with ⟨ha, -⟩ | ⟨-, P, -, -, -, h⟩ | ⟨-, hnone, h⟩
    · simp [ha] at hJa
    · simp [h] at hJr
    · rw [keyWith_processInst st hJa, hkey K hKd hKa] at heq
      have := hnone K (heq ▸ hk.member K hKd hKa (hred _ hKr)) hne
      simp [this] at hdom
  · -- one instruction
    obtain rfl := List.mem_singleton.1 hJI
    obtain rfl := List.mem_singleton.1 hKI
    exact hne rfl

theorem complete_run : Complete F DT (traversal F DT) (finalState F DT) :=
  (walk_induction (fun done st => Invariant F DT done st ∧ Complete F DT done st)
    ⟨invariant_init, fun J hJ => by simp at hJ⟩
    fun _ _ _ _ hT ⟨hk, hc⟩ => ⟨invariant_processInst hk (id_not_mem_of_traversal_eq hT),
      complete_processInst hT hk hc⟩).2

/-- **Nothing the criterion detects is missed.**  Of two analyzable instructions of the walk that
are both left unflagged, one dominating the other, the two differ in a key field. -/
theorem not_sameKey_of_dominates {J K : Inst} (hJ : J ∈ traversal F DT) (hK : K ∈ traversal F DT)
    (hJa : isAnalyzable J) (hKa : isAnalyzable K)
    (hJr : J.id ∉ (run F DT).redundantInstructions.map (·.1.id))
    (hKr : K.id ∉ (run F DT).redundantInstructions.map (·.1.id))
    (hdom : DT.dominates F K J) : ¬ SameKey J K := by
  rw [run_eq_finalState] at hJr hKr
  exact fun h => complete_run J hJ K hK hJa hKa hJr hKr hdom (keyWith_eq_of_sameKey h)

/-- **What the analysis computes.**  Without wrap-around of the counter, an instruction of the
walk is flagged exactly when it is analyzable and an analyzable instruction of the walk that is
left unflagged dominates it and agrees with it on the key fields. -/
theorem flagged_iff (hb : numberingBound F + 1 < 2 ^ 32) {R : Inst} (hR : R ∈ traversal F DT) :
    R.id ∈ (run F DT).redundantInstructions.map (·.1.id) ↔
      isAnalyzable R ∧ ∃ P ∈ traversal F DT, isAnalyzable P ∧
        P.id ∉ (run F DT).redundantInstructions.map (·.1.id) ∧ DT.dominates F P R ∧ SameKey R P := by
  constructor
  · rintro hid
    obtain ⟨⟨R', P⟩, h, e⟩ := List.mem_map.1 hid
    obtain ⟨hR', -, hRa, hPa, -, -, hdom, ⟨b, hb', hRb⟩, hPr⟩ := pair_spec h
    obtain rfl : R' = R := F.eq_of_id_eq hR' (mem_traversal hR).1 e
    obtain ⟨pb, hPb⟩ := DominatorTree.exists_blockOf_of_dominates hdom
    have hpb := (DominatorTree.dominates_spec hPb hRb hb' hdom).1
    exact ⟨hRa, P, mem_traversal_of (pair_spec h).2.1 hpb hPb, hPa, hPr, hdom,
      sameKey_of_mem_run hb h⟩
  · rintro ⟨hRa, P, hP, hPa, hPr, hdom, hkey⟩
    by_contra hRr
    exact not_sameKey_of_dominates hR hP hRa hPa hRr hPr hdom hkey

/-! ### The benchmark's `redundancy_test` -/

/-- `redundancy_test` of the benchmark in SSA form: the arguments `x y z` are `arg 0`, `arg 1`,
`arg 2`; `a = x + y`, `b = x * z`, `c = x + y`, `d = x * z` are `%3`–`%6`, and `a + b + c + d` is
returned. -/
def redundancyTest : Function where
  numArgs := 3
  blocks := [⟨0, [
    { id := 3, opcode := .add, type := 32, operands := [.arg 0, .arg 1] },
    { id := 4, opcode := .mul, type := 32, operands := [.arg 0, .arg 2] },
    { id := 5, opcode := .add, type := 32, operands := [.arg 0, .arg 1] },
    { id := 6, opcode := .mul, type := 32, operands := [.arg 0, .arg 2] },
    { id := 7, opcode := .add, type := 32, operands := [.inst 3, .inst 4] },
    { id := 8, opcode := .add, type := 32, operands := [.inst 7, .inst 5] },
    { id := 9, opcode := .add, type := 32, operands := [.inst 8, .inst 6] },
    { id := 10, opcode := .ret, type := 0, operands := [.inst 9] }]⟩]
  labels_nodup := by decide
  ids_nodup := by decide

/-- Its dominator tree: the entry block alone. -/
def redundancyTestDT : DominatorTree := ⟨[(0, 0)], by decide⟩

/-- The analysis flags `c` (replaced by `a`) and `d` (replaced by `b`), and nothing else. -/
example : ((run redundancyTest redundancyTestDT).redundantInstructions.map
    fun e => (e.1.id, e.2.id)) = [(5, 3), (6, 4)] := by decide

/-- On `redundancy_test`, `c = x + y` is flagged, and `a = x + y` is an unflagged instruction
dominating it with the same key fields. -/
theorem flagged_iff_redundancyTest :
    numberingBound redundancyTest + 1 < 2 ^ 32 ∧
      ({ id := 5, opcode := .add, type := 32, operands := [.arg 0, .arg 1] } : Inst) ∈
        traversal redundancyTest redundancyTestDT ∧
      (5 ∈ (run redundancyTest redundancyTestDT).redundantInstructions.map (·.1.id) ↔
        isAnalyzable { id := 5, opcode := .add, type := 32, operands := [.arg 0, .arg 1] } ∧
          ∃ P ∈ traversal redundancyTest redundancyTestDT, isAnalyzable P ∧
            P.id ∉ (run redundancyTest redundancyTestDT).redundantInstructions.map (·.1.id) ∧
            redundancyTestDT.dominates redundancyTest P
              { id := 5, opcode := .add, type := 32, operands := [.arg 0, .arg 1] } ∧
            SameKey { id := 5, opcode := .add, type := 32, operands := [.arg 0, .arg 1] } P) :=
  ⟨by decide, by decide, @flagged_iff redundancyTest redundancyTestDT (by decide)
    { id := 5, opcode := .add, type := 32, operands := [.arg 0, .arg 1] } (by decide)⟩

/-- On `redundancy_test` the counter cannot wrap, and the numbering of the analysis is dense. -/
theorem finalState_dense_redundancyTest :
    (walkValues redundancyTest redundancyTestDT).toFinset.card + 1 < 2 ^ 32 ∧
      (∀ U V n, (finalState redundancyTest redundancyTestDT).1.valueNumbers U = some n →
        (finalState redundancyTest redundancyTestDT).1.valueNumbers V = some n → U = V) ∧
      (∀ n, (∃ V, (finalState redundancyTest redundancyTestDT).1.valueNumbers V = some n) ↔
        1 ≤ n ∧ n ≤ (finalState redundancyTest redundancyTestDT).1.nextValueNumber - 1) ∧
      ∀ V, (finalState redundancyTest redundancyTestDT).1.lookupValueNumber V = 0 ↔
        (finalState redundancyTest redundancyTestDT).1.valueNumbers V = none :=
  ⟨by decide, finalState_dense (by decide)⟩

/-- On `redundancy_test`, what a client learns of `c = x + y`. -/
theorem getReplacement_spec_redundancyTest :
    ({ id := 5, opcode := .add, type := 32, operands := [.arg 0, .arg 1] } : Inst) ∈
        redundancyTest.insts ∧
      (((run redundancyTest redundancyTestDT).isRedundant
          { id := 5, opcode := .add, type := 32, operands := [.arg 0, .arg 1] } ↔
        ((run redundancyTest redundancyTestDT).getReplacement
          { id := 5, opcode := .add, type := 32, operands := [.arg 0, .arg 1] }).isSome) ∧
      ∀ P, (run redundancyTest redundancyTestDT).getReplacement
          { id := 5, opcode := .add, type := 32, operands := [.arg 0, .arg 1] } = some P →
        P ∈ redundancyTest.insts ∧
          isAnalyzable { id := 5, opcode := .add, type := 32, operands := [.arg 0, .arg 1] } ∧
          isAnalyzable P ∧ (32 : ℕ) = P.type ∧ 5 ≠ P.id ∧
          redundancyTestDT.dominates redundancyTest P
            { id := 5, opcode := .add, type := 32, operands := [.arg 0, .arg 1] } ∧
          (run redundancyTest redundancyTestDT).isRedundant P = false) :=
  ⟨by decide, getReplacement_spec (by decide)⟩

/-! ### The map `run` computes, exactly -/

variable (F DT) in
/-- The key `createExpressionKey` gives `I` when the walk of `run` reaches it, from the state the
walk is in just before `I`. -/
def runKey (I : Inst) : ExpressionKey :=
  ((((traversal F DT).takeWhile fun J => J.id != I.id).foldl (processInst F DT)
    (numberArguments F, ⟨[]⟩)).1.createExpressionKey I).1

/-- The key an analyzable instruction gets during the run is its key under the final numbering:
its operands keep the numbers they had when it was processed. -/
theorem runKey_eq {I : Inst} (hI : I ∈ traversal F DT) (ha : isAnalyzable I) :
    runKey F DT I = keyWith (finalState F DT).1.valueNumbers I := by
  obtain ⟨done, suf, hT⟩ := List.append_of_mem hI
  have hne := id_not_mem_of_traversal_eq hT
  have hdone : (traversal F DT).takeWhile (fun J => J.id != I.id) = done := by
    rw [hT, List.takeWhile_append_of_pos fun J hJ => bne_iff_ne.2 fun e : J.id = I.id =>
      hne (e ▸ List.mem_map_of_mem _ hJ),
      List.takeWhile_cons_of_neg (by simp), List.append_nil]
  set st := done.foldl (processInst F DT) (numberArguments F, ⟨[]⟩)
  have hfin : finalState F DT = suf.foldl (processInst F DT) (processInst F DT st I) := by
    rw [finalState, hT, List.foldl_append, List.foldl_cons]
  rw [runKey, hdone, createExpressionKey_eq, hfin,
    keyWith_of_extends (extends_foldl suf _) ((table_processInst F DT st I).2.1 ha),
    keyWith_processInst st ha]

variable (F DT) in
/-- `J` is available at `I`: another analyzable instruction of `F`, dominating `I`, that got the
key of `I` during the run. -/
def AvailableAt (J I : Inst) : Prop :=
  J ∈ F.insts ∧ isAnalyzable J ∧ J ≠ I ∧ runKey F DT J = runKey F DT I ∧ DT.dominates F J I

/-- An instruction available at an instruction of the walk is met by the walk. -/
theorem mem_traversal_of_availableAt {I J : Inst} (hI : I ∈ traversal F DT)
    (hJ : AvailableAt F DT J I) : J ∈ traversal F DT := by
  obtain ⟨ib, hib, hIb⟩ := (mem_traversal hI).2
  obtain ⟨jb, hjb⟩ := DominatorTree.exists_blockOf_of_dominates hJ.2.2.2.2
  exact mem_traversal_of hJ.1 (DominatorTree.dominates_spec hjb hIb hib hJ.2.2.2.2).1 hjb

/-- An instruction of the function is a key of the map exactly when its handle is. -/
theorem mem_map_fst_iff {J : Inst} (hJ : J ∈ F.insts) :
    J ∈ (run F DT).redundantInstructions.map Prod.fst ↔
      J.id ∈ (run F DT).redundantInstructions.map (·.1.id) := by
  constructor
  · intro h
    obtain ⟨e, he, rfl⟩ := List.mem_map.1 h
    exact List.mem_map_of_mem (·.1.id) he
  · intro h
    obtain ⟨⟨R, P⟩, he, e⟩ := List.mem_map.1 h
    obtain rfl := F.eq_of_id_eq (pair_spec he).1 hJ e
    exact List.mem_map_of_mem Prod.fst he

/-- The replacement of a flagged instruction is available at it, is not flagged itself, and has
its result type. -/
theorem availableAt_of_mem_run {R P : Inst} (h : (R, P) ∈ (run F DT).redundantInstructions) :
    AvailableAt F DT P R ∧ P ∉ (run F DT).redundantInstructions.map Prod.fst ∧
      P.type = R.type := by
  obtain ⟨-, hPF, hRa, hPa, hty, hne, hdom, -, hPr⟩ := pair_spec h
  rw [run_eq_finalState] at h
  obtain ⟨hR, -, -, -, hP⟩ := invariant_run.pair R P h
  obtain ⟨hPd, -, -, hkey⟩ := invariant_run.bucket _ P hP
  refine ⟨⟨hPF, hPa, fun e => hne (congrArg Inst.id e.symm), ?_, hdom⟩,
    fun hm => hPr ((mem_map_fst_iff hPF).1 hm), hty.symm⟩
  rw [runKey_eq hPd hPa, runKey_eq hR hRa, ← hkey]

/-- An unflagged instruction available at an unflagged analyzable one of the walk contradicts
what the walk guarantees. -/
theorem not_availableAt_of_unflagged {I K : Inst} (hI : I ∈ traversal F DT)
    (ha : isAnalyzable I) (hIr : I ∉ (run F DT).redundantInstructions.map Prod.fst)
    (hK : AvailableAt F DT K I) (hKr : K ∉ (run F DT).redundantInstructions.map Prod.fst) :
    False := by
  have hKT := mem_traversal_of_availableAt hI hK
  rw [mem_map_fst_iff (mem_traversal hI).1, run_eq_finalState] at hIr
  rw [mem_map_fst_iff hK.1, run_eq_finalState] at hKr
  exact complete_run I hI K hKT ha hK.2.1 hIr hKr hK.2.2.2.2
    (by rw [← runKey_eq hI ha, ← runKey_eq hKT hK.2.1, hK.2.2.2.1])

/-- An analyzable instruction of the walk with an instruction available at it is flagged: if the
available one is flagged itself, its own replacement is available too. -/
theorem mem_run_of_availableAt {I J : Inst} (hI : I ∈ traversal F DT) (ha : isAnalyzable I)
    (hJ : AvailableAt F DT J I) : I ∈ (run F DT).redundantInstructions.map Prod.fst := by
  by_contra hIr
  by_cases hJr : J ∈ (run F DT).redundantInstructions.map Prod.fst
  · obtain ⟨⟨R, Q⟩, hRQ, rfl⟩ := List.mem_map.1 hJr
    obtain ⟨⟨hQF, hQa, -, hQk, hQd⟩, hQr, -⟩ := availableAt_of_mem_run hRQ
    obtain ⟨ib, hib, hIb⟩ := (mem_traversal hI).2
    have hQI := DominatorTree.dominates_trans hIb hib hQd hJ.2.2.2.2
    obtain ⟨qb, hqb⟩ := DominatorTree.exists_blockOf_of_dominates hQI
    exact not_availableAt_of_unflagged hI ha hIr ⟨hQF, hQa,
      fun e => (DominatorTree.dominates_spec hqb hIb hib hQI).2.1 (congrArg Inst.id e),
      hQk.trans hJ.2.2.2.1, hQI⟩ hQr
  · exact not_availableAt_of_unflagged hI ha hIr hJ hJr

/-- Of the instructions available at an instruction of the walk, at most one is not flagged: two
of them are ordered by dominance, and an unflagged one dominating another has another key. -/
theorem eq_of_availableAt {I J P : Inst} (hI : I ∈ traversal F DT) (hJ : AvailableAt F DT J I)
    (hP : AvailableAt F DT P I) (hJr : J ∉ (run F DT).redundantInstructions.map Prod.fst)
    (hPr : P ∉ (run F DT).redundantInstructions.map Prod.fst) : J = P := by
  obtain ⟨ib, hib, hIb⟩ := (mem_traversal hI).2
  have hJT := mem_traversal_of_availableAt hI hJ
  have hPT := mem_traversal_of_availableAt hI hP
  have hkey : keyWith (finalState F DT).1.valueNumbers J =
      keyWith (finalState F DT).1.valueNumbers P := by
    rw [← runKey_eq hJT hJ.2.1, ← runKey_eq hPT hP.2.1, hJ.2.2.2.1, hP.2.2.2.1]
  rw [mem_map_fst_iff hJ.1, run_eq_finalState] at hJr
  rw [mem_map_fst_iff hP.1, run_eq_finalState] at hPr
  rcases DominatorTree.dominates_total hJ.1 hP.1 (ordinary_of_isAnalyzable hJ.2.1)
    (ordinary_of_isAnalyzable hP.2.1) hIb hib hJ.2.2.2.2 hP.2.2.2.2 with h | h | h
  · exact h
  · exact absurd hkey.symm (complete_run P hPT J hJT hP.2.1 hJ.2.1 hPr hJr h)
  · exact absurd hkey (complete_run J hJT P hPT hJ.2.1 hP.2.1 hJr hPr h)

/-- **What `run` computes, exactly.**  An instruction of a reachable block is flagged exactly when
it is analyzable and another is available at it; its replacement, of its type, is then the one
available instruction left unflagged, whatever the order of the buckets. -/
theorem redundant_iff_availableAt {I : Inst} (hI : I ∈ F.insts) {b : ℕ}
    (hIb : F.blockOf? I.id = some b) (hb : DT.isReachableFromEntry b) :
    (I ∈ (run F DT).redundantInstructions.map Prod.fst ↔
      isAnalyzable I ∧ ∃ J, AvailableAt F DT J I) ∧
    ∀ P, (I, P) ∈ (run F DT).redundantInstructions →
      AvailableAt F DT P I ∧ P ∉ (run F DT).redundantInstructions.map Prod.fst ∧
        P.type = I.type ∧
        ∀ J, AvailableAt F DT J I → J ∉ (run F DT).redundantInstructions.map Prod.fst → J = P := by
  have hIT := mem_traversal_of hI (by simpa [DominatorTree.isReachableFromEntry] using hb) hIb
  refine ⟨⟨fun h => ?_, fun ⟨ha, J, hJ⟩ => mem_run_of_availableAt hIT ha hJ⟩, fun P h => ?_⟩
  · obtain ⟨⟨R, P⟩, hRP, rfl⟩ := List.mem_map.1 h
    exact ⟨(pair_spec hRP).2.2.1, P, (availableAt_of_mem_run hRP).1⟩
  · obtain ⟨hP, hPr, hty⟩ := availableAt_of_mem_run h
    exact ⟨hP, hPr, hty, fun J hJ hJr => eq_of_availableAt hIT hJ hP hJr hPr⟩

/-- On `redundancy_test`, `c = x + y` lies in the entry block; the theorem applies to it. -/
theorem redundant_iff_availableAt_redundancyTest :
    ({ id := 5, opcode := .add, type := 32, operands := [.arg 0, .arg 1] } : Inst) ∈
        redundancyTest.insts ∧
      redundancyTest.blockOf? 5 = some 0 ∧ redundancyTestDT.isReachableFromEntry 0 ∧
      ((({ id := 5, opcode := .add, type := 32, operands := [.arg 0, .arg 1] } : Inst) ∈
          (run redundancyTest redundancyTestDT).redundantInstructions.map Prod.fst ↔
        isAnalyzable { id := 5, opcode := .add, type := 32, operands := [.arg 0, .arg 1] } ∧
          ∃ J, AvailableAt redundancyTest redundancyTestDT J
            { id := 5, opcode := .add, type := 32, operands := [.arg 0, .arg 1] }) ∧
      ∀ P, ({ id := 5, opcode := .add, type := 32, operands := [.arg 0, .arg 1] }, P) ∈
          (run redundancyTest redundancyTestDT).redundantInstructions →
        AvailableAt redundancyTest redundancyTestDT P
            { id := 5, opcode := .add, type := 32, operands := [.arg 0, .arg 1] } ∧
          P ∉ (run redundancyTest redundancyTestDT).redundantInstructions.map Prod.fst ∧
          P.type = 32 ∧
          ∀ J, AvailableAt redundancyTest redundancyTestDT J
              { id := 5, opcode := .add, type := 32, operands := [.arg 0, .arg 1] } →
            J ∉ (run redundancyTest redundancyTestDT).redundantInstructions.map Prod.fst →
            J = P) :=
  ⟨by decide, by decide, by decide, redundant_iff_availableAt (b := 0) (by decide) (by decide)
    (by decide)⟩

end RedundancyAnalysis

end OptPasses
