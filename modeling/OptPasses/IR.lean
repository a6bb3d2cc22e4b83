/-
**The SSA intermediate representation the passes read and rewrite.**

The three transformations of `llvm-opt-passes` (`ConstantFoldingPass`, `RedundancyEliminationPass`,
`LoopUnrollingPass`) and the analysis they share (`RedundancyAnalysis`) operate on LLVM's IR: a
function is a list of basic blocks, a block a list of instructions ending in a terminator, and an
instruction an opcode applied to an ordered list of operand values.  This module fixes that data
model and the two IR mutations the passes perform, `replaceAllUsesWith` and `eraseFromParent`.

An instruction is named by a handle (its address in the host).  Two invariants that LLVM gets for
free from pointer identity are carried by `OptPasses.Function` itself, so that no theorem has to
assume them: block labels are distinct, and instruction handles are distinct across the whole
function.  Both mutations preserve them (`Function.replaceAllUsesWith`, `Function.eraseFromParent`
are built from `Function.mapInsts` and `Function.filterInsts`).

Main definitions:

* `OptPasses.Value`, `OptPasses.Opcode`, `OptPasses.Inst`, `OptPasses.Block`,
  `OptPasses.Function` — the IR;
* `OptPasses.Function.replaceAllUsesWith`, `OptPasses.Function.eraseFromParent` — the mutations;
* `OptPasses.Function.Uses` — some instruction has the given one as an operand;
* `OptPasses.Function.blockOf?`, `OptPasses.Function.comesBefore` — where an instruction stands,
  which is what instruction-level dominance reads;
* `OptPasses.Function.cfg` — the control-flow graph: each block with its terminators'
  successors.

Main results:

* `OptPasses.Function.eq_of_id_eq` — an instruction handle names one instruction;
* `OptPasses.Function.not_uses_replaceAllUsesWith` — after `replaceAllUsesWith` nothing uses the
  replaced instruction;
* `OptPasses.Function.blockOf?_filterInsts`, `OptPasses.Function.comesBefore_filterInsts` —
  erasing instructions moves no survivor to another block and reorders none;
* `OptPasses.Function.length_eraseAll` — erasing distinct instructions of the function removes
  exactly that many;
* `OptPasses.Function.cfg_replaceAllUsesWith`, `OptPasses.Function.cfg_eraseFromParent` —
  rewriting operands, and erasing a non-terminator, keep the control-flow graph.
-/

import Mathlib.Data.List.Nodup
import Mathlib.Data.List.Pairwise
import Mathlib.Data.List.Perm.Subperm
import Mathlib.Algebra.Group.Nat.Basic

set_option relaxedAutoImplicit false
set_option autoImplicit false

namespace OptPasses

/-! ### Values and instructions -/

/-- An SSA value (`llvm::Value`): a function argument, a constant literal of a type (constants are
uniqued by type and value, as `ConstantInt::get` does), or the result of the instruction with the
given handle. -/
inductive Value
  | arg (index : ℕ)
  | const (type : ℕ) (val : ℤ)
  | inst (id : ℕ)
  deriving DecidableEq, Repr

namespace Value

/-- `isa<Constant>(V)`. -/
def isConst : Value → Bool
  | const _ _ => true
  | _ => false

/-- The substitution `replaceAllUsesWith` applies to one operand. -/
def subst (old : ℕ) (new v : Value) : Value :=
  if v = inst old then new else v

@[simp] theorem subst_inst_self (old : ℕ) (new : Value) : subst old new (inst old) = new := by
  simp [subst]

theorem subst_of_ne {old : ℕ} {new v : Value} (h : v ≠ inst old) : subst old new v = v := by
  simp [subst, h]

@[simp] theorem isConst_const (t : ℕ) (k : ℤ) : (const t k).isConst = true := rfl

theorem isConst_subst {old : ℕ} {new v : Value} (h : new.isConst = false) :
    (subst old new v).isConst = v.isConst := by
  by_cases hv : v = inst old
  · subst hv; simpa using h
  · rw [subst_of_ne hv]

end Value

/-- LLVM's instruction opcodes (`llvm/IR/Instruction.def`), in that file's order. -/
inductive Opcode
  | ret | br | switch | indirectBr | invoke | resume | unreachable | cleanupRet | catchRet
  | catchSwitch | callBr
  | fNeg
  | add | fAdd | sub | fSub | mul | fMul | uDiv | sDiv | fDiv | uRem | sRem | fRem
  | shl | lShr | aShr | and | or | xor
  | alloca | load | store | getElementPtr | fence | atomicCmpXchg | atomicRMW
  | trunc | zExt | sExt | fpToUI | fpToSI | uiToFP | siToFP | fpTrunc | fpExt | ptrToInt
  | intToPtr | bitCast | addrSpaceCast
  | cleanupPad | catchPad
  | iCmp | fCmp | phi | call | select | userOp1 | userOp2 | vaArg | extractElement
  | insertElement | shuffleVector | extractValue | insertValue | landingPad | freeze
  deriving DecidableEq, Repr

namespace Opcode

/-- `Instruction::isTerminator()`. -/
def isTerminator : Opcode → Bool
  | ret | br | switch | indirectBr | invoke | resume | unreachable | cleanupRet | catchRet
  | catchSwitch | callBr => true
  | _ => false

/-- The opcodes of `BinaryOperator`. -/
def isBinaryOp : Opcode → Bool
  | add | fAdd | sub | fSub | mul | fMul | uDiv | sDiv | fDiv | uRem | sRem | fRem
  | shl | lShr | aShr | and | or | xor => true
  | _ => false

/-- The opcodes of `CastInst`. -/
def isCast : Opcode → Bool
  | trunc | zExt | sExt | fpToUI | fpToSI | uiToFP | siToFP | fpTrunc | fpExt | ptrToInt
  | intToPtr | bitCast | addrSpaceCast => true
  | _ => false

/-- The opcodes of `CmpInst`. -/
def isCmp : Opcode → Bool
  | iCmp | fCmp => true
  | _ => false

end Opcode

/-- An instruction: its handle, opcode, result type (by identity), operands, and what the passes
read.  `attrs` stands for whatever else fixes its result (GEP source type, flags, masks);
`blocks` holds a PHI's incoming blocks, or a terminator's successors. -/
structure Inst where
  id : ℕ
  opcode : Opcode
  type : ℕ
  operands : List Value
  /-- `CmpInst::getPredicate()`. -/
  predicate : ℕ := 0
  /-- `GetElementPtrInst::isInBounds()`. -/
  inBounds : Bool := false
  attrs : List ℕ := []
  blocks : List ℕ := []
  isVolatile : Bool := false
  isAtomic : Bool := false
  /-- `Instruction::mayHaveSideEffects()`, as the host computes it from the opcode and the
  callee's attributes. -/
  mayHaveSideEffects : Bool := false
  /-- For a call: the callee is a known function with `doesNotAccessMemory()`. -/
  calleeDoesNotAccessMemory : Bool := false
  deriving DecidableEq, Repr

namespace Inst

/-- `isa<PHINode>(I)`. -/
def isPhi (I : Inst) : Bool := I.opcode = .phi

/-- Rewrite every operand by `f`. -/
def mapOperands (f : Value → Value) (I : Inst) : Inst := { I with operands := I.operands.map f }

/-- `User::replaceUsesOfWith`: every operand naming the instruction `old` now names `new`. -/
def replaceUsesOfWith (old : ℕ) (new : Value) (I : Inst) : Inst :=
  I.mapOperands (Value.subst old new)

section mapOperands

variable (f : Value → Value) (I : Inst)

@[simp] theorem mapOperands_id : (I.mapOperands f).id = I.id := rfl

@[simp] theorem mapOperands_opcode : (I.mapOperands f).opcode = I.opcode := rfl

@[simp] theorem mapOperands_type : (I.mapOperands f).type = I.type := rfl

@[simp] theorem mapOperands_blocks : (I.mapOperands f).blocks = I.blocks := rfl

@[simp] theorem mapOperands_operands : (I.mapOperands f).operands = I.operands.map f := rfl

@[simp] theorem mapOperands_isPhi : (I.mapOperands f).isPhi = I.isPhi := rfl

theorem mapOperands_self : Inst.mapOperands (fun v => v) = fun I => I := by
  funext I
  simp [mapOperands]

theorem mapOperands_mapOperands (g : Value → Value) :
    (I.mapOperands f).mapOperands g = I.mapOperands (g ∘ f) := by
  simp [mapOperands]

end mapOperands

end Inst

/-- `PreservedAnalyses`, for the sets the passes of this repository return. -/
inductive PreservedAnalyses
  /-- `PreservedAnalyses::all()`. -/
  | all
  /-- `PreservedAnalyses::none()`. -/
  | none
  /-- `preserveSet<CFGAnalyses>()` and `preserve<DominatorTreeAnalysis>()`. -/
  | cfgAndDominatorTree
  /-- `preserve<DominatorTreeAnalysis>()`. -/
  | dominatorTree
  deriving DecidableEq, Repr

/-! ### Blocks and functions -/

/-- A basic block: its label and its instructions, the terminator last. -/
structure Block where
  label : ℕ
  insts : List Inst
  deriving DecidableEq, Repr

/-- A function: the number of its arguments and its blocks, the entry block first.  Labels and
instruction handles are distinct, as the host's pointers are. -/
structure Function where
  numArgs : ℕ
  blocks : List Block
  labels_nodup : (blocks.map Block.label).Nodup
  ids_nodup : ((blocks.flatMap Block.insts).map Inst.id).Nodup

namespace Function

variable (F : Function)

/-- Every instruction of the function, in block order. -/
def insts : List Inst := F.blocks.flatMap Block.insts

/-- The handles of `insts`. -/
def ids : List ℕ := F.insts.map Inst.id

/-- The instruction with handle `id`. -/
def inst? (id : ℕ) : Option Inst := F.insts.find? (·.id = id)

/-- The block labelled `l`. -/
def block? (l : ℕ) : Option Block := F.blocks.find? (·.label = l)

/-- `I->getParent()`: the label of the block holding the instruction `id`. -/
def blockOf? (id : ℕ) : Option ℕ :=
  (F.blocks.find? fun B => B.insts.any (·.id = id)).map Block.label

/-- `a` comes before `b` in `l`. -/
def precedesIn (a b : ℕ) : List ℕ → Bool
  | [] => false
  | x :: xs => if x = a then b ∈ xs else if x = b then false else precedesIn a b xs

/-- `Instruction::comesBefore`: `a` and `b` stand in one block, `a` first. -/
def comesBefore (a b : ℕ) : Bool :=
  F.blocks.any fun B => precedesIn a b (B.insts.map Inst.id)

/-- Some instruction of the function has the instruction `id` as an operand. -/
def Uses (id : ℕ) : Prop := ∃ I ∈ F.insts, Value.inst id ∈ I.operands

instance (id : ℕ) : Decidable (F.Uses id) := by unfold Uses; infer_instance

variable {F}

@[ext] theorem ext {G : Function} (h₁ : F.numArgs = G.numArgs) (h₂ : F.blocks = G.blocks) :
    F = G := by
  cases F; cases G; cases h₁; cases h₂; rfl

theorem ids_nodup' : F.ids.Nodup := F.ids_nodup

theorem mem_insts {I : Inst} : I ∈ F.insts ↔ ∃ B ∈ F.blocks, I ∈ B.insts := List.mem_flatMap

/-- **An instruction handle names one instruction.** -/
theorem eq_of_id_eq {I J : Inst} (hI : I ∈ F.insts) (hJ : J ∈ F.insts) (h : I.id = J.id) :
    I = J :=
  List.inj_on_of_nodup_map F.ids_nodup hI hJ h

theorem inst?_eq_some {id : ℕ} {I : Inst} : F.inst? id = some I ↔ I ∈ F.insts ∧ I.id = id := by
  constructor
  · intro h
    exact ⟨List.mem_of_find?_eq_some h, by simpa using List.find?_some h⟩
  · rintro ⟨hI, rfl⟩
    cases hJ : F.inst? I.id with
    | none => simp only [inst?, List.find?_eq_none] at hJ; exact absurd (by simp) (hJ I hI)
    | some J =>
        have hJid : J.id = I.id := by simpa using List.find?_some hJ
        rw [eq_of_id_eq (List.mem_of_find?_eq_some hJ) hI hJid]

theorem mem_ids {id : ℕ} : id ∈ F.ids ↔ ∃ I ∈ F.insts, I.id = id := List.mem_map

theorem blocks_nodup : F.blocks.Nodup := List.Nodup.of_map _ F.labels_nodup

theorem block?_of_mem {B : Block} (hB : B ∈ F.blocks) : F.block? B.label = some B := by
  obtain ⟨B', hB'⟩ := Option.isSome_iff_exists.1
    (List.find?_isSome.2 ⟨B, hB, by simp⟩ : (F.blocks.find? (·.label = B.label)).isSome)
  have hlab : B'.label = B.label := by simpa using List.find?_some hB'
  rw [block?, hB', List.inj_on_of_nodup_map F.labels_nodup (List.mem_of_find?_eq_some hB') hB hlab]

/-- Two blocks of a function share no instruction. -/
theorem block_eq_of_mem {B B' : Block} {I : Inst} (hB : B ∈ F.blocks) (hB' : B' ∈ F.blocks)
    (hI : I ∈ B.insts) (hI' : I ∈ B'.insts) : B = B' := by
  have hd := F.ids_nodup
  rw [List.map_flatMap, List.nodup_flatMap] at hd
  by_contra hne
  exact List.disjoint_left.1 (hd.2.forall (fun _ _ h => List.disjoint_symm h) hB hB' hne)
    (List.mem_map_of_mem _ hI) (List.mem_map_of_mem _ hI')

theorem blockOf?_of_mem {B : Block} {I : Inst} (hB : B ∈ F.blocks) (hI : I ∈ B.insts) :
    F.blockOf? I.id = some B.label := by
  obtain ⟨B', hB'⟩ := Option.isSome_iff_exists.1
    (List.find?_isSome.2 ⟨B, hB, by simpa using ⟨I, hI, rfl⟩⟩ :
      (F.blocks.find? fun B => B.insts.any (·.id = I.id)).isSome)
  obtain ⟨J, hJ, hJI⟩ : ∃ J ∈ B'.insts, J.id = I.id := by simpa using List.find?_some hB'
  have hB'm := List.mem_of_find?_eq_some hB'
  have hJI : J = I := eq_of_id_eq (mem_insts.2 ⟨B', hB'm, hJ⟩) (mem_insts.2 ⟨B, hB, hI⟩) hJI
  subst hJI
  simp [blockOf?, hB', block_eq_of_mem hB'm hB hJ hI]

theorem blockOf?_eq_some {id l : ℕ} :
    F.blockOf? id = some l ↔ ∃ B ∈ F.blocks, B.label = l ∧ ∃ I ∈ B.insts, I.id = id := by
  constructor
  · intro h
    obtain ⟨B, hB, rfl⟩ := Option.map_eq_some'.1 h
    exact ⟨B, List.mem_of_find?_eq_some hB, rfl, by simpa using List.find?_some hB⟩
  · rintro ⟨B, hB, rfl, I, hI, rfl⟩
    exact blockOf?_of_mem hB hI

/-- An instruction of the function placed in the block of `B`'s label is one of `B`'s. -/
theorem mem_of_blockOf? {B : Block} {I : Inst} (hB : B ∈ F.blocks) (hI : I ∈ F.insts)
    (h : F.blockOf? I.id = some B.label) : I ∈ B.insts := by
  obtain ⟨B', hB', hl, J, hJ, hJI⟩ := blockOf?_eq_some.1 h
  cases eq_of_id_eq (mem_insts.2 ⟨B', hB', hJ⟩) hI hJI
  cases List.inj_on_of_nodup_map F.labels_nodup hB' hB hl
  exact hJ

/-! ### Order within a block -/

theorem mem_of_precedesIn {a b : ℕ} : ∀ {l : List ℕ}, precedesIn a b l → a ∈ l ∧ b ∈ l
  | [], h => by simp [precedesIn] at h
  | x :: xs, h => by
      unfold precedesIn at h
      split_ifs at h with hxa hxb
      · exact ⟨hxa ▸ List.mem_cons_self _ _, List.mem_cons_of_mem _ (by simpa using h)⟩
      · have := mem_of_precedesIn h
        exact ⟨List.mem_cons_of_mem _ this.1, List.mem_cons_of_mem _ this.2⟩

theorem precedesIn_trans {a b c : ℕ} :
    ∀ {l : List ℕ}, l.Nodup → precedesIn a b l → precedesIn b c l → precedesIn a c l
  | [], _, h, _ => by simp [precedesIn] at h
  | x :: xs, hnd, hab, hbc => by
      have hx := (List.nodup_cons.1 hnd).1
      unfold precedesIn at hab hbc ⊢
      by_cases hxa : x = a
      · subst hxa
        have hxb : x ≠ b := fun e => hx (e ▸ by simpa using hab)
        simp only [hxb, if_false] at hbc
        split_ifs at hbc with hxc
        simpa using (mem_of_precedesIn hbc).2
      · by_cases hxb : x = b
        · rw [if_neg hxa, if_pos hxb] at hab; exact absurd hab Bool.false_ne_true
        · simp only [hxa, hxb, if_false] at hab hbc ⊢
          split_ifs at hbc with hxc
          simpa [hxc] using precedesIn_trans (List.nodup_cons.1 hnd).2 hab hbc

theorem precedesIn_irrefl {a : ℕ} : ∀ {l : List ℕ}, l.Nodup → precedesIn a a l = false
  | [], _ => rfl
  | x :: xs, hnd => by
      have hx := (List.nodup_cons.1 hnd).1
      unfold precedesIn
      by_cases hxa : x = a
      · subst hxa; simpa using hx
      · simp [hxa, precedesIn_irrefl (List.nodup_cons.1 hnd).2]

/-- Of two distinct handles of a list, one comes before the other. -/
theorem precedesIn_total {a b : ℕ} (hab : a ≠ b) :
    ∀ {l : List ℕ}, a ∈ l → b ∈ l → precedesIn a b l ∨ precedesIn b a l
  | [], ha, _ => absurd ha (List.not_mem_nil _)
  | x :: xs, ha, hb => by
      unfold precedesIn
      by_cases hxa : x = a
      · subst hxa; exact .inl (by simpa [Ne.symm hab] using hb)
      · by_cases hxb : x = b
        · subst hxb; exact .inr (by simpa [Ne.symm hxa] using ha)
        · simp only [hxa, hxb, if_false]
          exact precedesIn_total hab ((List.mem_cons.1 ha).resolve_left (Ne.symm hxa))
            ((List.mem_cons.1 hb).resolve_left (Ne.symm hxb))

/-- A list of distinct handles lists them in the order `precedesIn` tells. -/
theorem pairwise_precedesIn : ∀ {l : List ℕ}, l.Nodup → l.Pairwise fun a b => precedesIn a b l
  | [], _ => List.Pairwise.nil
  | x :: xs, hnd => by
      obtain ⟨hx, hxs⟩ := List.nodup_cons.1 hnd
      refine List.pairwise_cons.2 ⟨fun b hb => by simp [precedesIn, hb],
        (pairwise_precedesIn hxs).imp_of_mem fun {a b} ha hb h => ?_⟩
      have hxa : x ≠ a := fun e => hx (e ▸ ha)
      have hxb : x ≠ b := fun e => hx (e ▸ hb)
      simpa [precedesIn, hxa, hxb] using h

theorem block_ids_nodup {B : Block} (hB : B ∈ F.blocks) : (B.insts.map Inst.id).Nodup := by
  have hd := F.ids_nodup
  rw [List.map_flatMap, List.nodup_flatMap] at hd
  exact hd.1 B hB

theorem comesBefore_iff {a b : ℕ} :
    F.comesBefore a b ↔ ∃ B ∈ F.blocks, precedesIn a b (B.insts.map Inst.id) := by
  simp [comesBefore]

/-- Two instructions handles in the lists of two blocks, one handle shared: one block. -/
theorem block_eq_of_mem_ids {B B' : Block} {a : ℕ} (hB : B ∈ F.blocks) (hB' : B' ∈ F.blocks)
    (ha : a ∈ B.insts.map Inst.id) (ha' : a ∈ B'.insts.map Inst.id) : B = B' := by
  obtain ⟨I, hI, rfl⟩ := List.mem_map.1 ha
  obtain ⟨I', hI', hII'⟩ := List.mem_map.1 ha'
  cases eq_of_id_eq (mem_insts.2 ⟨B', hB', hI'⟩) (mem_insts.2 ⟨B, hB, hI⟩) hII'
  exact block_eq_of_mem hB hB' hI hI'

theorem comesBefore_trans {a b c : ℕ} (hab : F.comesBefore a b) (hbc : F.comesBefore b c) :
    F.comesBefore a c := by
  obtain ⟨B, hB, h₁⟩ := comesBefore_iff.1 hab
  obtain ⟨B', hB', h₂⟩ := comesBefore_iff.1 hbc
  cases block_eq_of_mem_ids hB hB' (mem_of_precedesIn h₁).2 (mem_of_precedesIn h₂).1
  exact comesBefore_iff.2 ⟨B, hB, precedesIn_trans (block_ids_nodup hB) h₁ h₂⟩

theorem comesBefore_irrefl (a : ℕ) : F.comesBefore a a = false := by
  simpa [comesBefore] using fun B hB => precedesIn_irrefl (a := a) (block_ids_nodup hB)

theorem comesBefore_asymm {a b : ℕ} (h : F.comesBefore a b) : F.comesBefore b a = false :=
  Bool.eq_false_iff.2 fun h' => by simpa [comesBefore_irrefl] using comesBefore_trans h h'

/-- Of two instructions of one block, one comes before the other. -/
theorem comesBefore_total {I J : Inst} (hI : I ∈ F.insts) (hJ : J ∈ F.insts)
    (hb : F.blockOf? I.id = F.blockOf? J.id) (hne : I.id ≠ J.id) :
    F.comesBefore I.id J.id ∨ F.comesBefore J.id I.id := by
  obtain ⟨B, hB, hIB⟩ := mem_insts.1 hI
  have hJB := mem_of_blockOf? hB hJ (hb ▸ blockOf?_of_mem hB hIB)
  exact (precedesIn_total hne (List.mem_map_of_mem _ hIB) (List.mem_map_of_mem _ hJB)).imp
    (fun h => comesBefore_iff.2 ⟨B, hB, h⟩) fun h => comesBefore_iff.2 ⟨B, hB, h⟩

/-- In a block cut in two, each instruction of the first part comes before each of the second. -/
theorem comesBefore_of_append {B : Block} (hB : B ∈ F.blocks) {l₁ l₂ : List Inst}
    (h : B.insts = l₁ ++ l₂) {I J : Inst} (hI : I ∈ l₁) (hJ : J ∈ l₂) :
    F.comesBefore I.id J.id := by
  have hnd := block_ids_nodup hB
  refine comesBefore_iff.2 ⟨B, hB, ?_⟩
  rw [h, List.map_append] at hnd ⊢
  exact (List.pairwise_append.1 (pairwise_precedesIn hnd)).2.2 _ (List.mem_map_of_mem _ hI) _
    (List.mem_map_of_mem _ hJ)

/-- In a block cut in two, what comes before an instruction of the first part is in the first
part. -/
theorem mem_left_of_comesBefore {B : Block} (hB : B ∈ F.blocks) {l₁ l₂ : List Inst}
    (h : B.insts = l₁ ++ l₂) {I J : Inst} (hI : I ∈ B.insts) (hJ : J ∈ l₁)
    (hIJ : F.comesBefore I.id J.id) : I ∈ l₁ := by
  rw [h] at hI
  refine (List.mem_append.1 hI).resolve_right fun hI₂ => ?_
  simpa [comesBefore_asymm hIJ] using comesBefore_of_append hB h hJ hI₂

/-- Instructions in order stand in one block. -/
theorem blockOf?_eq_of_comesBefore {a b : ℕ} (h : F.comesBefore a b) :
    F.blockOf? a = F.blockOf? b := by
  obtain ⟨B, hB, hab⟩ := comesBefore_iff.1 h
  obtain ⟨I, hI, rfl⟩ := List.mem_map.1 (mem_of_precedesIn hab).1
  obtain ⟨J, hJ, rfl⟩ := List.mem_map.1 (mem_of_precedesIn hab).2
  rw [blockOf?_of_mem hB hI, blockOf?_of_mem hB hJ]

/-! ### Rewriting every instruction, and erasing some -/

theorem flatMap_mapInsts (f : Inst → Inst) (bs : List Block) :
    (bs.map fun B => { B with insts := B.insts.map f }).flatMap Block.insts =
      (bs.flatMap Block.insts).map f := by
  simp [List.flatMap_map, List.map_flatMap]

theorem flatMap_filterInsts (p : Inst → Bool) (bs : List Block) :
    (bs.map fun B => { B with insts := B.insts.filter p }).flatMap Block.insts =
      (bs.flatMap Block.insts).filter p := by
  simp [List.flatMap_map, List.filter_flatMap]

variable (F)

/-- Rewrite every instruction by `f`, which keeps handles. -/
def mapInsts (f : Inst → Inst) (hf : ∀ I, (f I).id = I.id) : Function where
  numArgs := F.numArgs
  blocks := F.blocks.map fun B => { B with insts := B.insts.map f }
  labels_nodup := by simpa [Function.comp_def] using F.labels_nodup
  ids_nodup := by
    rw [flatMap_mapInsts, List.map_map]
    simpa [Function.comp_def, hf] using F.ids_nodup

/-- Keep the instructions satisfying `p`. -/
def filterInsts (p : Inst → Bool) : Function where
  numArgs := F.numArgs
  blocks := F.blocks.map fun B => { B with insts := B.insts.filter p }
  labels_nodup := by simpa [Function.comp_def] using F.labels_nodup
  ids_nodup := by
    rw [flatMap_filterInsts]
    exact F.ids_nodup.sublist ((List.filter_sublist _).map _)

variable {F}

section mapFilter

variable (f : Inst → Inst) (hf : ∀ I, (f I).id = I.id) (p : Inst → Bool)

@[simp] theorem numArgs_mapInsts : (F.mapInsts f hf).numArgs = F.numArgs := rfl

@[simp] theorem numArgs_filterInsts : (F.filterInsts p).numArgs = F.numArgs := rfl

@[simp] theorem insts_mapInsts : (F.mapInsts f hf).insts = F.insts.map f :=
  flatMap_mapInsts f F.blocks

@[simp] theorem insts_filterInsts : (F.filterInsts p).insts = F.insts.filter p :=
  flatMap_filterInsts p F.blocks

theorem mem_blocks_mapInsts {B : Block} :
    B ∈ (F.mapInsts f hf).blocks ↔ ∃ B₀ ∈ F.blocks, B = { B₀ with insts := B₀.insts.map f } := by
  simp [mapInsts, eq_comm]

theorem mem_blocks_filterInsts {B : Block} :
    B ∈ (F.filterInsts p).blocks ↔ ∃ B₀ ∈ F.blocks, B = { B₀ with insts := B₀.insts.filter p } := by
  simp [filterInsts, eq_comm]

@[simp] theorem ids_mapInsts : (F.mapInsts f hf).ids = F.ids := by
  simp [ids, Function.comp_def, hf]

@[simp] theorem blockOf?_mapInsts (id : ℕ) : (F.mapInsts f hf).blockOf? id = F.blockOf? id := by
  simp [blockOf?, mapInsts, List.find?_map, Function.comp_def, hf]

@[simp] theorem comesBefore_mapInsts (a b : ℕ) :
    (F.mapInsts f hf).comesBefore a b = F.comesBefore a b := by
  simp [comesBefore, mapInsts, Function.comp_def, hf]

theorem mapInsts_mapInsts (g : Inst → Inst) (hg : ∀ I, (g I).id = I.id) :
    (F.mapInsts f hf).mapInsts g hg = F.mapInsts (g ∘ f) fun I => by simp [hf, hg] := by
  ext <;> simp [mapInsts]

theorem filterInsts_filterInsts (q : Inst → Bool) :
    (F.filterInsts p).filterInsts q = F.filterInsts fun I => p I && q I := by
  ext <;> simp [filterInsts, List.filter_filter, Bool.and_comm]

theorem filterInsts_of_forall (h : ∀ I, p I) : F.filterInsts p = F := by
  ext
  · rfl
  · simp [filterInsts, List.filter_eq_self.2 fun I _ => h I]

theorem mapInsts_of_forall (h : ∀ I, f I = I) : F.mapInsts f hf = F := by
  obtain rfl : f = fun I => I := funext h
  ext <;> simp [mapInsts]

theorem block?_mapInsts (l : ℕ) :
    (F.mapInsts f hf).block? l = (F.block? l).map fun B => { B with insts := B.insts.map f } := by
  simp [block?, mapInsts, List.find?_map, Function.comp_def]

theorem block?_filterInsts (l : ℕ) :
    (F.filterInsts p).block? l =
      (F.block? l).map fun B => { B with insts := B.insts.filter p } := by
  simp [block?, filterInsts, List.find?_map, Function.comp_def]

end mapFilter

theorem precedesIn_filter {a b : ℕ} {p : Inst → Bool} :
    ∀ {l : List Inst}, (∀ I ∈ l, I.id = a ∨ I.id = b → p I) →
      precedesIn a b ((l.filter p).map Inst.id) = precedesIn a b (l.map Inst.id)
  | [], _ => rfl
  | I :: l, h => by
      have ih := precedesIn_filter (l := l) fun J hJ => h J (List.mem_cons_of_mem _ hJ)
      have hb : (b ∈ (l.filter p).map Inst.id) = (b ∈ l.map Inst.id) := by
        simp only [List.mem_map, List.mem_filter, eq_iff_iff]
        exact ⟨fun ⟨J, hJ, hJb⟩ => ⟨J, hJ.1, hJb⟩,
          fun ⟨J, hJ, hJb⟩ => ⟨J, ⟨hJ, h J (List.mem_cons_of_mem _ hJ) (.inr hJb)⟩, hJb⟩⟩
      by_cases hp : p I
      · simp [List.filter_cons, hp, precedesIn, ih, hb]
      · have ha : I.id ≠ a := fun e => hp (h I (List.mem_cons_self _ _) (.inl e))
        have hb' : I.id ≠ b := fun e => hp (h I (List.mem_cons_self _ _) (.inr e))
        simp [List.filter_cons, hp, precedesIn, ha, hb', ih]

theorem any_congr_mem {α : Type} {f g : α → Bool} :
    ∀ {l : List α}, (∀ x ∈ l, f x = g x) → l.any f = l.any g
  | [], _ => rfl
  | x :: l, h => by
      simp only [List.any_cons, h x (List.mem_cons_self _ _),
        any_congr_mem fun y hy => h y (List.mem_cons_of_mem _ hy)]

/-- **Erasing instructions reorders no survivor.** -/
theorem comesBefore_filterInsts {p : Inst → Bool} {a b : ℕ}
    (h : ∀ I ∈ F.insts, I.id = a ∨ I.id = b → p I) :
    (F.filterInsts p).comesBefore a b = F.comesBefore a b := by
  simp only [comesBefore, filterInsts, List.any_map, Function.comp_def]
  exact any_congr_mem fun B hB => precedesIn_filter fun I hI => h I (mem_insts.2 ⟨B, hB, hI⟩)

/-- **Erasing instructions moves no survivor to another block.** -/
theorem blockOf?_filterInsts {p : Inst → Bool} {I : Inst} (hI : I ∈ F.insts) (hp : p I) :
    (F.filterInsts p).blockOf? I.id = F.blockOf? I.id := by
  obtain ⟨B, hB, hIB⟩ := mem_insts.1 hI
  rw [blockOf?_of_mem hB hIB]
  exact blockOf?_of_mem (F := F.filterInsts p) (B := { B with insts := B.insts.filter p })
    ((mem_blocks_filterInsts p).2 ⟨B, hB, rfl⟩) (List.mem_filter.2 ⟨hIB, hp⟩)

variable (F)

/-- `Value::replaceAllUsesWith`: every use of the instruction `old`, in every block, now uses
`new`. -/
def replaceAllUsesWith (old : ℕ) (new : Value) : Function :=
  F.mapInsts (Inst.replaceUsesOfWith old new) fun _ => rfl

variable {F}

/-- Erasing instructions removes no use but theirs: it adds none. -/
theorem not_uses_filterInsts {p : Inst → Bool} {id : ℕ} (h : ¬ F.Uses id) :
    ¬ (F.filterInsts p).Uses id := by
  rintro ⟨I, hI, hop⟩
  rw [insts_filterInsts, List.mem_filter] at hI
  exact h ⟨I, hI.1, hop⟩

variable (F) in
/-- `Instruction::eraseFromParent`. -/
def eraseFromParent (id : ℕ) : Function := F.filterInsts (·.id ≠ id)

variable (F) in
/-- The deletion loop both transformations end with: `for (Instruction *I : ToDelete)
I->eraseFromParent();`. -/
def eraseAll (toDelete : List ℕ) : Function := toDelete.foldl eraseFromParent F

/-- The deletion loop keeps the instructions not scheduled, in place. -/
theorem eraseAll_eq (toDelete : List ℕ) :
    F.eraseAll toDelete = F.filterInsts fun I => I.id ∉ toDelete := by
  induction toDelete generalizing F with
  | nil => exact (filterInsts_of_forall _ fun I => by simp).symm
  | cons x xs ih =>
      rw [eraseAll, List.foldl_cons, ← eraseAll, ih, eraseFromParent, filterInsts_filterInsts]
      congr 1
      funext I
      simp [and_comm]

/-- The deletion loop erases one instruction for each handle it is given, when these are
distinct handles of the function. -/
theorem length_eraseAll {toDelete : List ℕ} (hnd : toDelete.Nodup)
    (hsub : ∀ x ∈ toDelete, x ∈ F.ids) :
    (F.eraseAll toDelete).insts.length + toDelete.length = F.insts.length := by
  rw [eraseAll_eq, insts_filterInsts]
  have hperm : ((F.insts.filter fun I => !decide (I.id ∉ toDelete)).map Inst.id).Perm toDelete :=
    (List.perm_ext_iff_of_nodup ((ids_nodup' (F := F)).sublist ((List.filter_sublist _).map _))
      hnd).2 fun x => by
        simp only [List.mem_map, List.mem_filter, decide_not, Bool.not_not, decide_eq_true_eq]
        exact ⟨by rintro ⟨I, ⟨-, h⟩, rfl⟩; exact h, fun hx => by
          obtain ⟨I, hI, rfl⟩ := mem_ids.1 (hsub x hx); exact ⟨I, ⟨hI, hx⟩, rfl⟩⟩
  have := (List.filter_append_perm (fun I : Inst => decide (I.id ∉ toDelete)) F.insts).length_eq
  rw [List.length_append] at this
  rw [← hperm.length_eq, List.length_map]
  exact this

/-- After `replaceAllUsesWith`, nothing uses the replaced instruction. -/
theorem not_uses_replaceAllUsesWith {old : ℕ} {new : Value} (h : new ≠ .inst old) :
    ¬ (F.replaceAllUsesWith old new).Uses old := by
  rintro ⟨I, hI, hop⟩
  simp only [replaceAllUsesWith, insts_mapInsts, List.mem_map] at hI
  obtain ⟨J, -, rfl⟩ := hI
  simp only [Inst.replaceUsesOfWith, Inst.mapOperands_operands, List.mem_map] at hop
  obtain ⟨v, -, hv⟩ := hop
  by_cases hvo : v = .inst old
  · subst hvo; exact h (by simpa using hv)
  · exact hvo (by simpa [Value.subst_of_ne hvo] using hv)

/-- `replaceAllUsesWith` adds no use of an instruction but the new value's. -/
theorem not_uses_replaceAllUsesWith_of_not_uses {old x : ℕ} {new : Value} (hx : ¬ F.Uses x)
    (h : new ≠ .inst x) : ¬ (F.replaceAllUsesWith old new).Uses x := by
  rintro ⟨I, hI, hop⟩
  simp only [replaceAllUsesWith, insts_mapInsts, List.mem_map] at hI
  obtain ⟨J, hJ, rfl⟩ := hI
  simp only [Inst.replaceUsesOfWith, Inst.mapOperands_operands, List.mem_map] at hop
  obtain ⟨v, hv, hvx⟩ := hop
  by_cases hvo : v = .inst old
  · subst hvo; exact h (by simpa using hvx)
  · rw [Value.subst_of_ne hvo] at hvx
    exact hx ⟨J, hJ, hvx ▸ hv⟩

/-- The deletion loop adds no use. -/
theorem not_uses_eraseAll {x : ℕ} (hx : ¬ F.Uses x) (toDelete : List ℕ) :
    ¬ (F.eraseAll toDelete).Uses x := by
  rw [eraseAll_eq]; exact not_uses_filterInsts hx

/-! ### The control-flow graph -/

variable (F) in
/-- The control-flow graph, as the `CFGAnalyses` see it: every block, in order, with the
successors of its terminators. -/
def cfg : List (ℕ × List ℕ) :=
  F.blocks.map fun B => (B.label, (B.insts.filter (·.opcode.isTerminator)).flatMap Inst.blocks)

/-- Rewriting instructions without touching their opcodes or successors keeps the graph. -/
theorem cfg_mapInsts {f : Inst → Inst} (hf : ∀ I, (f I).id = I.id)
    (hop : ∀ I, (f I).opcode = I.opcode ∧ (f I).blocks = I.blocks) :
    (F.mapInsts f hf).cfg = F.cfg := by
  simp [cfg, mapInsts, List.filter_map, List.flatMap_map, Function.comp_def, hop]

/-- Erasing instructions other than terminators keeps the graph. -/
theorem cfg_filterInsts {p : Inst → Bool}
    (hp : ∀ I ∈ F.insts, I.opcode.isTerminator → p I) : (F.filterInsts p).cfg = F.cfg := by
  simp only [cfg, filterInsts, List.map_map]
  refine List.map_congr_left fun B hB => ?_
  simp only [Function.comp_apply, List.filter_filter]
  congr 2
  exact List.filter_congr fun I hI => by
    cases h : I.opcode.isTerminator <;> simp [h, hp I (mem_insts.2 ⟨B, hB, hI⟩)]

@[simp] theorem cfg_replaceAllUsesWith (old : ℕ) (new : Value) :
    (F.replaceAllUsesWith old new).cfg = F.cfg :=
  cfg_mapInsts _ fun _ => ⟨rfl, rfl⟩

theorem cfg_eraseFromParent {x : ℕ}
    (h : ∀ I ∈ F.insts, I.id = x → I.opcode.isTerminator = false) :
    (F.eraseFromParent x).cfg = F.cfg :=
  cfg_filterInsts fun I hI hterm => decide_eq_true fun e => by rw [h I hI e] at hterm; cases hterm

end Function

end OptPasses
