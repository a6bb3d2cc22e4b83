/-
**The value-numbering table of `RedundancyAnalysis`.**

`ValueNumberTable` maps SSA values to value numbers and expression keys to the instructions that
computed them.  Its operations are translated here one for one, with the table passed explicitly:
`getValueNumber` hands out the next number from a 32-bit counter (`NextValueNumber++` on an
`unsigned`), `createExpressionKey` numbers an instruction's operands in order and sorts the two
operand numbers of a commutative opcode, `findAvailableValue` scans the bucket of a key for an
instruction dominating the query point, `addExpression` appends to a bucket.

While the counter stays below `2 ^ 32` the numbers handed out are nonzero, below the counter and
distinct (`OptPasses.ValueNumberTable.WellNumbered`), and a value keeps its number
(`OptPasses.ValueNumberTable.Extends`).  Over whole runs of the table's operations
(`OptPasses.ValueNumberTable.runOps`) the numbers are exactly `1, …, NextValueNumber - 1`
(`OptPasses.ValueNumberTable.Dense`) while fewer than `2 ^ 32 - 1` distinct values have been
numbered since the last `clear` (`OptPasses.ValueNumberTable.numberedSinceClear`); once `2 ^ 32`
values are numbered it hands out `0`, then numbers already taken.  The key of an instruction is then a function of the
numbering (`OptPasses.ValueNumberTable.keyWith`), and an injective numbering gives two
instructions one key exactly when they agree on the fields the key records (`OptPasses.SameKey`).

Main definitions:

* `OptPasses.ExpressionKey` — opcode, operand value numbers, result type, predicate, in-bounds
  flag; equality is field-wise, as `ExpressionKey::operator==`;
* `OptPasses.ValueNumberTable` with `getValueNumber`, `lookupValueNumber`, `createExpressionKey`,
  `findAvailableValue`, `addExpression`, `clear`;
* `OptPasses.SameKey` — what a key compares, without the numbering;
* `OptPasses.ValueNumberTable.Op`, `OptPasses.ValueNumberTable.runOps` — the table's operations,
  and a run of them from a fresh table;
* `OptPasses.ValueNumberTable.numberedSinceClear` — the values a run numbers after its last
  `clear`;
* `OptPasses.ValueNumberTable.getNumValueNumbers` — `NextValueNumber - 1`, as an `unsigned`.

Main results:

* `OptPasses.ValueNumberTable.expressionTable_createExpressionKey` — numbering operands leaves the
  expression table alone, so buckets change only by `addExpression`;
* `OptPasses.ValueNumberTable.findAvailableValue_spec` — what a found candidate satisfies;
* `OptPasses.ValueNumberTable.wellNumbered_getValueNumber` — without wrap-around, numbering keeps
  the table well numbered;
* `OptPasses.ValueNumberTable.keyWith_eq_iff` — **under an injective numbering, equal keys are
  equal key fields**;
* `OptPasses.ValueNumberTable.runOps_numbering` — **along every run a value keeps its number until
  `clear`, and while fewer than `2 ^ 32 - 1` distinct values are numbered since the last `clear`
  the numbering is injective onto `1, …, NextValueNumber - 1`**; `OptPasses.ValueNumberTable.runOps_argumentOps_wraps` — after
  `2 ^ 32` numbers it is neither;
* `OptPasses.ValueNumberTable.getNumValueNumbers_runOps` — under the same bound,
  `getNumValueNumbers` counts the values that have a number;
* `OptPasses.ValueNumberTable.createExpressionKey_swap` — commuted operands of a commutative opcode
  give one key in every state, and of another opcode two keys in a well-numbered one;
  `OptPasses.ValueNumberTable.createExpressionKey_sub_wraps` — not once the counter has wrapped.
-/

import OptPasses.Dominators
import Mathlib.Data.Finset.Card

set_option relaxedAutoImplicit false
set_option autoImplicit false

namespace OptPasses

/-- `ExpressionKey`: the canonical identity of a computation. -/
structure ExpressionKey where
  opcode : Opcode
  operandValueNumbers : List ℕ
  resultType : ℕ
  predicate : ℕ := 0
  inBounds : Bool := false
  deriving DecidableEq, Repr

/-- `ValueNumberTable`: the counter, the value numbers handed out, and the expression table, each
bucket in insertion order. -/
structure ValueNumberTable where
  nextValueNumber : ℕ
  valueNumbers : Value → Option ℕ
  expressionTable : ExpressionKey → List Inst

namespace ValueNumberTable

/-- The table as `ValueNumberTable()` constructs it. -/
def init : ValueNumberTable := ⟨1, fun _ => none, fun _ => []⟩

/-- `ValueNumberTable::isCommutative`. -/
def isCommutative : Opcode → Bool
  | .add | .fAdd | .mul | .fMul | .and | .or | .xor => true
  | _ => false

/-- `ValueNumberTable::canonicalizeOperands`: the two operand numbers of a commutative opcode,
smaller first. -/
def canonicalizeOperands (ops : List ℕ) (opcode : Opcode) : List ℕ :=
  if isCommutative opcode then
    match ops with
    | [a, b] => if a > b then [b, a] else [a, b]
    | _ => ops
  else ops

variable (t : ValueNumberTable)

/-- `ValueNumberTable::getValueNumber`: the number of `V`, handing out the next one (the counter
is an `unsigned`) if `V` has none. -/
def getValueNumber (V : Value) : ℕ × ValueNumberTable :=
  match t.valueNumbers V with
  | some vn => (vn, t)
  | none =>
      (t.nextValueNumber,
        { t with
          nextValueNumber := (t.nextValueNumber + 1) % 2 ^ 32
          valueNumbers := Function.update t.valueNumbers V (some t.nextValueNumber) })

/-- `ValueNumberTable::lookupValueNumber`: `0` for a value not numbered. -/
def lookupValueNumber (V : Value) : ℕ := (t.valueNumbers V).getD 0

/-- `ValueNumberTable::getNumValueNumbers`: `NextValueNumber - 1`, in `unsigned` arithmetic. -/
def getNumValueNumbers : ℕ := (t.nextValueNumber + (2 ^ 32 - 1)) % 2 ^ 32

/-- The operand loop of `createExpressionKey`: number the values in order. -/
def getValueNumbers : List Value → ValueNumberTable → List ℕ × ValueNumberTable
  | [], t => ([], t)
  | V :: Vs, t =>
      let (n, t) := t.getValueNumber V
      let (ns, t) := getValueNumbers Vs t
      (n :: ns, t)

/-- `ValueNumberTable::createExpressionKey`. -/
def createExpressionKey (I : Inst) : ExpressionKey × ValueNumberTable :=
  let (vns, t) := getValueNumbers I.operands t
  ({ opcode := I.opcode
     operandValueNumbers := canonicalizeOperands vns I.opcode
     resultType := I.type
     predicate := if I.opcode.isCmp then I.predicate else 0
     inBounds := if I.opcode = .getElementPtr then I.inBounds else false }, t)

/-- `ValueNumberTable::findAvailableValue`: the first instruction of the key's bucket, other than
the query point, that dominates it. -/
def findAvailableValue (key : ExpressionKey) (queryPoint : Inst) (DT : DominatorTree)
    (F : Function) : Option Inst :=
  (t.expressionTable key).find? fun C => C.id ≠ queryPoint.id && DT.dominates F C queryPoint

/-- `ValueNumberTable::addExpression`. -/
def addExpression (key : ExpressionKey) (I : Inst) : ValueNumberTable :=
  { t with expressionTable := Function.update t.expressionTable key (t.expressionTable key ++ [I]) }

/-- `ValueNumberTable::clear`. -/
def clear : ValueNumberTable := init

/-! ### What each operation leaves alone -/

variable {t}

@[simp] theorem expressionTable_getValueNumber (V : Value) :
    (t.getValueNumber V).2.expressionTable = t.expressionTable := by
  unfold getValueNumber; split <;> rfl

@[simp] theorem expressionTable_getValueNumbers :
    ∀ (Vs : List Value) (t : ValueNumberTable),
      (getValueNumbers Vs t).2.expressionTable = t.expressionTable
  | [], _ => rfl
  | V :: Vs, t => by
      simp [getValueNumbers, expressionTable_getValueNumbers Vs]

@[simp] theorem expressionTable_createExpressionKey (I : Inst) :
    (t.createExpressionKey I).2.expressionTable = t.expressionTable := by
  simp [createExpressionKey]

@[simp] theorem createExpressionKey_opcode (I : Inst) :
    (t.createExpressionKey I).1.opcode = I.opcode := rfl

@[simp] theorem createExpressionKey_resultType (I : Inst) :
    (t.createExpressionKey I).1.resultType = I.type := rfl

@[simp] theorem valueNumbers_addExpression (key : ExpressionKey) (I : Inst) :
    (t.addExpression key I).valueNumbers = t.valueNumbers := rfl

@[simp] theorem nextValueNumber_addExpression (key : ExpressionKey) (I : Inst) :
    (t.addExpression key I).nextValueNumber = t.nextValueNumber := rfl

theorem expressionTable_addExpression (key : ExpressionKey) (I : Inst) (k : ExpressionKey) :
    (t.addExpression key I).expressionTable k =
      if k = key then t.expressionTable key ++ [I] else t.expressionTable k := by
  simp only [addExpression, Function.update_apply]

/-- Buckets only grow. -/
theorem mem_expressionTable_addExpression (key : ExpressionKey) (I : Inst) {k : ExpressionKey}
    {P : Inst} (h : P ∈ t.expressionTable k) : P ∈ (t.addExpression key I).expressionTable k := by
  rw [expressionTable_addExpression]
  split_ifs with hk
  · subst hk; exact List.mem_append_left _ h
  · exact h

theorem mem_expressionTable_addExpression_iff {key k : ExpressionKey} {I P : Inst} :
    P ∈ (t.addExpression key I).expressionTable k ↔
      P ∈ t.expressionTable k ∨ (k = key ∧ P = I) := by
  rw [expressionTable_addExpression]
  split_ifs with hk
  · subst hk; simp
  · simp [hk]

/-- What a candidate `findAvailableValue` returns satisfies. -/
theorem findAvailableValue_spec {key : ExpressionKey} {Q P : Inst} {DT : DominatorTree}
    {F : Function} (h : t.findAvailableValue key Q DT F = some P) :
    P ∈ t.expressionTable key ∧ P.id ≠ Q.id ∧ DT.dominates F P Q := by
  have hp := List.find?_some h
  simp only [Bool.and_eq_true, decide_eq_true_eq] at hp
  exact ⟨List.mem_of_find?_eq_some h, hp⟩

/-- `findAvailableValue` finds a candidate whenever the bucket holds one. -/
theorem findAvailableValue_isSome {key : ExpressionKey} {Q P : Inst} {DT : DominatorTree}
    {F : Function} (hP : P ∈ t.expressionTable key) (hid : P.id ≠ Q.id)
    (hdom : DT.dominates F P Q) : (t.findAvailableValue key Q DT F).isSome :=
  List.find?_isSome.2 ⟨P, hP, by simp [hid, hdom]⟩

/-! ### Numbering without wrap-around -/

/-- `t'` keeps every number `t` handed out. -/
def Extends (t t' : ValueNumberTable) : Prop :=
  ∀ V n, t.valueNumbers V = some n → t'.valueNumbers V = some n

theorem Extends.refl (t : ValueNumberTable) : Extends t t := fun _ _ h => h

theorem Extends.trans {t' t'' : ValueNumberTable} (h : Extends t t') (h' : Extends t' t'') :
    Extends t t'' := fun V n hV => h' V n (h V n hV)

/-- The counter is positive and the numbers handed out are nonzero, below it, and distinct. -/
structure WellNumbered (t : ValueNumberTable) : Prop where
  pos : 0 < t.nextValueNumber
  lt : ∀ V n, t.valueNumbers V = some n → 0 < n ∧ n < t.nextValueNumber
  inj : ∀ U V n, t.valueNumbers U = some n → t.valueNumbers V = some n → U = V

theorem wellNumbered_init : WellNumbered init := ⟨by decide, by simp [init], by simp [init]⟩

theorem WellNumbered.addExpression (h : WellNumbered t) (key : ExpressionKey) (I : Inst) :
    WellNumbered (t.addExpression key I) :=
  ⟨h.pos, h.lt, h.inj⟩

theorem getValueNumber_of_some {V : Value} {n : ℕ} (h : t.valueNumbers V = some n) :
    t.getValueNumber V = (n, t) := by
  simp [getValueNumber, h]

theorem getValueNumber_of_none {V : Value} (h : t.valueNumbers V = none) :
    t.getValueNumber V = (t.nextValueNumber,
      { t with nextValueNumber := (t.nextValueNumber + 1) % 2 ^ 32
               valueNumbers := Function.update t.valueNumbers V (some t.nextValueNumber) }) := by
  simp [getValueNumber, h]

/-- What `getValueNumber` does: `V` keeps the number it has or gets the counter's, no other value
loses its number, and the counter moves by at most one. -/
theorem getValueNumber_spec (V : Value) :
    (t.getValueNumber V).2.valueNumbers V = some (t.getValueNumber V).1 ∧
      Extends t (t.getValueNumber V).2 ∧
      (t.getValueNumber V).2.nextValueNumber ≤ t.nextValueNumber + 1 := by
  cases h : t.valueNumbers V with
  | some n => rw [getValueNumber_of_some h]; exact ⟨h, Extends.refl t, Nat.le_succ _⟩
  | none =>
      rw [getValueNumber_of_none h]
      refine ⟨by simp, fun U n hU => ?_, Nat.mod_le _ _⟩
      have hUV : U ≠ V := fun e => by simp [e, h] at hU
      simp [Function.update_noteq hUV, hU]

/-- Below `2 ^ 32` numbers the counter does not wrap, and numbering keeps the table well
numbered. -/
theorem wellNumbered_getValueNumber (h : WellNumbered t) (hb : t.nextValueNumber + 1 < 2 ^ 32)
    (V : Value) : WellNumbered (t.getValueNumber V).2 := by
  cases hV : t.valueNumbers V with
  | some n => rw [getValueNumber_of_some hV]; exact h
  | none =>
      rw [getValueNumber_of_none hV]
      have hpos := h.pos
      refine ⟨show 0 < (t.nextValueNumber + 1) % 2 ^ 32 by rw [Nat.mod_eq_of_lt hb]; omega,
        fun U n hU => ?_, fun U W n hU hW => ?_⟩
      · simp only [Function.update_apply, Nat.mod_eq_of_lt hb] at hU ⊢
        split_ifs at hU
        · cases hU; omega
        · have := h.lt U n hU; omega
      · simp only [Function.update_apply] at hU hW
        split_ifs at hU hW with eU eW eW
        · rw [eU, eW]
        · cases hU; have := h.lt W _ hW; omega
        · cases hW; have := h.lt U _ hU; omega
        · exact h.inj U W n hU hW

/-- What numbering a list of operands does: each gets a number, the numbers are listed in order,
no value loses its number, and the counter moves by at most the list's length. -/
theorem getValueNumbers_spec : ∀ (Vs : List Value) (t : ValueNumberTable),
    (∀ V ∈ Vs, ((getValueNumbers Vs t).2.valueNumbers V).isSome) ∧
      (getValueNumbers Vs t).1 =
        Vs.map (fun V => ((getValueNumbers Vs t).2.valueNumbers V).getD 0) ∧
      Extends t (getValueNumbers Vs t).2 ∧
      (getValueNumbers Vs t).2.nextValueNumber ≤ t.nextValueNumber + Vs.length
  | [], t => ⟨by simp, rfl, Extends.refl t, by simp [getValueNumbers]⟩
  | V :: Vs, t => by
      obtain ⟨hV, hext, hnext⟩ := t.getValueNumber_spec V
      obtain ⟨ih₁, ih₂, ih₃, ih₄⟩ := getValueNumbers_spec Vs (t.getValueNumber V).2
      have hV' := ih₃ V _ hV
      simp only [getValueNumbers, List.mem_cons, List.map_cons, List.length_cons]
      refine ⟨fun W hW => ?_, by rw [hV', ih₂]; rfl, hext.trans ih₃, by omega⟩
      rcases hW with rfl | hW
      · simp [hV']
      · exact ih₁ W hW

/-! ### Keys -/

/-- The key of `I` under the numbering `vn`: what `createExpressionKey` builds once the operands
are numbered. -/
def keyWith (vn : Value → Option ℕ) (I : Inst) : ExpressionKey :=
  { opcode := I.opcode
    operandValueNumbers := canonicalizeOperands (I.operands.map fun V => (vn V).getD 0) I.opcode
    resultType := I.type
    predicate := if I.opcode.isCmp then I.predicate else 0
    inBounds := if I.opcode = .getElementPtr then I.inBounds else false }

/-- The table once the operands of `I` are numbered, as `createExpressionKey` leaves it. -/
def numberOperands (t : ValueNumberTable) (I : Inst) : ValueNumberTable :=
  (getValueNumbers I.operands t).2

@[simp] theorem expressionTable_numberOperands (I : Inst) :
    (t.numberOperands I).expressionTable = t.expressionTable :=
  expressionTable_getValueNumbers I.operands t

theorem numberOperands_spec (I : Inst) :
    (∀ V ∈ I.operands, ((t.numberOperands I).valueNumbers V).isSome) ∧
      Extends t (t.numberOperands I) ∧
      (t.numberOperands I).nextValueNumber ≤ t.nextValueNumber + I.operands.length :=
  let h := getValueNumbers_spec I.operands t
  ⟨h.1, h.2.2⟩

/-- `createExpressionKey` numbers the operands, then builds the key under the new numbering. -/
theorem createExpressionKey_eq (I : Inst) :
    t.createExpressionKey I =
      (keyWith (t.numberOperands I).valueNumbers I, t.numberOperands I) := by
  have h := (getValueNumbers_spec I.operands t).2.1
  simp only [createExpressionKey, keyWith, numberOperands]
  rw [← h]

theorem Extends.isSome {t' : ValueNumberTable} (h : Extends t t') {V : Value}
    (hV : (t.valueNumbers V).isSome) : (t'.valueNumbers V).isSome := by
  obtain ⟨n, hn⟩ := Option.isSome_iff_exists.1 hV
  simp [h V n hn]

theorem keyWith_congr {vn vn' : Value → Option ℕ} {I : Inst}
    (h : ∀ V ∈ I.operands, vn V = vn' V) : keyWith vn I = keyWith vn' I := by
  simp only [keyWith, List.map_congr_left fun V hV => congrArg (Option.getD · 0) (h V hV)]

/-- Once its operands are numbered, an instruction's key no longer changes. -/
theorem keyWith_of_extends {t' : ValueNumberTable} (h : Extends t t') {I : Inst}
    (hI : ∀ V ∈ I.operands, (t.valueNumbers V).isSome) :
    keyWith t'.valueNumbers I = keyWith t.valueNumbers I := by
  refine keyWith_congr fun V hV => ?_
  obtain ⟨n, hn⟩ := Option.isSome_iff_exists.1 (hI V hV)
  rw [h V n hn, hn]

/-- Two operand lists canonicalize alike only if they are equal, or a swapped pair for a
commutative opcode. -/
theorem canonicalizeOperands_eq {ops ops' : List ℕ} {op : Opcode}
    (h : canonicalizeOperands ops op = canonicalizeOperands ops' op) :
    ops = ops' ∨ (isCommutative op = true ∧ ops.length = 2 ∧ ops = ops'.reverse) := by
  unfold canonicalizeOperands at h
  split_ifs at h with hc
  · -- by the lengths of the two lists: only two pairs can be swapped
    rcases ops with _ | ⟨a, _ | ⟨b, _ | ⟨a', ops⟩⟩⟩ <;>
      rcases ops' with _ | ⟨c, _ | ⟨d, _ | ⟨c', ops'⟩⟩⟩ <;>
      dsimp only at h <;> (try split_ifs at h) <;> simp_all
  · exact .inl h

theorem canonicalizeOperands_reverse {ops : List ℕ} {op : Opcode} (hc : isCommutative op = true)
    (h : ops.length = 2) : canonicalizeOperands ops.reverse op = canonicalizeOperands ops op := by
  match ops, h with
  | [a, b], _ =>
      simp only [canonicalizeOperands, hc, if_true, List.reverse_cons, List.reverse_nil,
        List.nil_append, List.cons_append]
      split_ifs <;> simp only [List.cons.injEq, and_true] <;> omega

/-- A numbering injective on the values of two lists tells the lists apart. -/
theorem map_getD_inj {vn : Value → Option ℕ}
    (hinj : ∀ U V n, vn U = some n → vn V = some n → U = V) :
    ∀ {Us Vs : List Value}, (∀ U ∈ Us, (vn U).isSome) → (∀ V ∈ Vs, (vn V).isSome) →
      Us.map (fun V => (vn V).getD 0) = Vs.map (fun V => (vn V).getD 0) → Us = Vs
  | [], [], _, _, _ => rfl
  | [], _ :: _, _, _, h => by simp at h
  | _ :: _, [], _, _, h => by simp at h
  | U :: Us, V :: Vs, hU, hV, h => by
      simp only [List.map_cons, List.cons.injEq] at h
      obtain ⟨m, hm⟩ := Option.isSome_iff_exists.1 (hU U (List.mem_cons_self _ _))
      obtain ⟨n, hn⟩ := Option.isSome_iff_exists.1 (hV V (List.mem_cons_self _ _))
      rw [hm, hn, Option.getD_some, Option.getD_some] at h
      rw [hinj U V n (h.1 ▸ hm) hn,
        map_getD_inj hinj (fun U' h' => hU U' (List.mem_cons_of_mem _ h'))
          (fun V' h' => hV V' (List.mem_cons_of_mem _ h')) h.2]

end ValueNumberTable

open ValueNumberTable in
/-- What an expression key records of an instruction, with the numbering taken away: the opcode,
the result type, a compare's predicate, a GEP's in-bounds flag, and the operands, a swapped pair
counting as the same for a commutative opcode.  Nothing else of the instruction is compared. -/
def SameKey (I J : Inst) : Prop :=
  I.opcode = J.opcode ∧ I.type = J.type ∧ (I.opcode.isCmp → I.predicate = J.predicate) ∧
    (I.opcode = .getElementPtr → I.inBounds = J.inBounds) ∧
    (I.operands = J.operands ∨
      (isCommutative I.opcode = true ∧ I.operands.length = 2 ∧ I.operands = J.operands.reverse))

namespace ValueNumberTable

/-- Instructions with the same key fields get the same key under any numbering. -/
theorem keyWith_eq_of_sameKey {vn : Value → Option ℕ} {I J : Inst} (h : SameKey I J) :
    keyWith vn I = keyWith vn J := by
  obtain ⟨hop, hty, hpred, hinb, hops⟩ := h
  simp only [keyWith, ExpressionKey.mk.injEq, hop, hty, true_and]
  refine ⟨?_, ?_, ?_⟩
  · rcases hops with h | ⟨hc, hl, h⟩
    · rw [h]
    · rw [h, List.map_reverse, canonicalizeOperands_reverse (hop ▸ hc) (by simpa [h] using hl)]
  · split_ifs with hc
    · exact hpred (hop ▸ hc)
    · rfl
  · split_ifs with hg
    · exact hinb (hop ▸ hg)
    · rfl

/-- **What equal keys mean.**  Under a numbering injective on their operands, two instructions
have equal keys exactly when they agree on the key fields. -/
theorem keyWith_eq_iff {vn : Value → Option ℕ}
    (hinj : ∀ U V n, vn U = some n → vn V = some n → U = V) {I J : Inst}
    (hI : ∀ V ∈ I.operands, (vn V).isSome) (hJ : ∀ V ∈ J.operands, (vn V).isSome) :
    keyWith vn I = keyWith vn J ↔ SameKey I J := by
  refine ⟨fun h => ?_, keyWith_eq_of_sameKey⟩
  simp only [keyWith, ExpressionKey.mk.injEq] at h
  obtain ⟨hop, hops, hty, hpred, hinb⟩ := h
  refine ⟨hop, hty, fun hc => by simpa [hc, ← hop] using hpred,
    fun hg => by simpa [hg, ← hop] using hinb, ?_⟩
  rw [← hop] at hops
  rcases canonicalizeOperands_eq hops with h | ⟨hc, hl, h⟩
  · exact .inl (map_getD_inj hinj hI hJ h)
  · refine .inr ⟨hc, by simpa using hl,
      map_getD_inj hinj hI (fun V hV => hJ V (List.mem_reverse.1 hV)) ?_⟩
    rw [h, List.map_reverse]

/-! ### Runs of the table -/

/-- The operations of `ValueNumberTable`, with their arguments. -/
inductive Op
  | getValueNumber (V : Value)
  | createExpressionKey (I : Inst)
  | addExpression (key : ExpressionKey) (I : Inst)
  | findAvailableValue (key : ExpressionKey) (queryPoint : Inst) (DT : DominatorTree) (F : Function)
  | clear

namespace Op

/-- The table an operation leaves; `findAvailableValue` only reads it. -/
def apply (t : ValueNumberTable) : Op → ValueNumberTable
  | getValueNumber V => (t.getValueNumber V).2
  | createExpressionKey I => (t.createExpressionKey I).2
  | addExpression key I => t.addExpression key I
  | findAvailableValue _ _ _ _ => t
  | clear => ValueNumberTable.clear

/-- How many values an operation may number. -/
def fresh : Op → ℕ
  | getValueNumber _ => 1
  | createExpressionKey I => I.operands.length
  | _ => 0

end Op

/-- How many values a run of operations may number. -/
def freshCount : List Op → ℕ
  | [] => 0
  | op :: ops => op.fresh + freshCount ops

/-- The table after a run of operations from a fresh one. -/
def runOps (ops : List Op) : ValueNumberTable := ops.foldl Op.apply init

theorem freshCount_append (l₁ l₂ : List Op) :
    freshCount (l₁ ++ l₂) = freshCount l₁ + freshCount l₂ := by
  induction l₁ with
  | nil => simp [freshCount]
  | cons op l ih => simp [freshCount, ih, Nat.add_assoc]

theorem runOps_append (l₁ l₂ : List Op) : runOps (l₁ ++ l₂) = l₂.foldl Op.apply (runOps l₁) :=
  List.foldl_append _ _ _ _

/-- The values an operation numbers, in order. -/
def Op.values : Op → List Value
  | .getValueNumber V => [V]
  | .createExpressionKey I => I.operands
  | _ => []

/-- The values numbered since the last `clear`, once `op` has run after `vs`. -/
def Op.record (vs : List Value) : Op → List Value
  | .clear => []
  | op => vs ++ op.values

/-- The values a run numbers after its last `clear`, in order, repeats included. -/
def numberedSinceClear (ops : List Op) : List Value := ops.foldl Op.record []

/-- Without a `clear`, a run records every value it numbers. -/
theorem foldl_record_of_forall_ne_clear : ∀ (ops : List Op) (vs : List Value),
    (∀ op ∈ ops, op ≠ .clear) → ops.foldl Op.record vs = vs ++ ops.flatMap Op.values
  | [], vs, _ => by simp
  | op :: ops, vs, h => by
      have hop : op.record vs = vs ++ op.values := by
        cases op <;> first | rfl | exact absurd rfl (h _ (List.mem_cons_self _ _))
      rw [List.foldl_cons, hop, foldl_record_of_forall_ne_clear ops _
        fun op' h' => h op' (List.mem_cons_of_mem _ h'), List.flatMap_cons, List.append_assoc]

variable {t : ValueNumberTable}

/-- The numbering the header promises: well numbered, and every number below the counter handed
out, so that the numbers are exactly `1, …, NextValueNumber - 1`. -/
structure Dense (t : ValueNumberTable) extends WellNumbered t : Prop where
  onto : ∀ n, 0 < n → n < t.nextValueNumber → ∃ V, t.valueNumbers V = some n

/-- In a dense table the numbers handed out are exactly `1, …, NextValueNumber - 1`. -/
theorem Dense.range_iff (h : Dense t) (n : ℕ) :
    (∃ V, t.valueNumbers V = some n) ↔ 1 ≤ n ∧ n ≤ t.nextValueNumber - 1 :=
  ⟨fun ⟨V, hV⟩ => by have := h.lt V n hV; omega, fun hn => h.onto n (by omega) (by omega)⟩

/-- In a dense table `lookupValueNumber` answers `0` exactly for the values not numbered. -/
theorem Dense.lookupValueNumber_eq_zero_iff (h : Dense t) (V : Value) :
    t.lookupValueNumber V = 0 ↔ t.valueNumbers V = none := by
  cases hV : t.valueNumbers V with
  | none => simp [lookupValueNumber, hV]
  | some n => simp [lookupValueNumber, hV, (h.lt V n hV).1.ne']

theorem dense_init : Dense init :=
  ⟨wellNumbered_init, fun n h₁ h₂ => absurd h₂ (by simp [init]; omega)⟩

theorem dense_getValueNumber (h : Dense t) (hb : t.nextValueNumber + 1 < 2 ^ 32) (V : Value) :
    Dense (t.getValueNumber V).2 := by
  refine ⟨wellNumbered_getValueNumber h.toWellNumbered hb V, fun n h₁ h₂ => ?_⟩
  cases hV : t.valueNumbers V with
  | some m => rw [getValueNumber_of_some hV] at h₂ ⊢; exact h.onto n h₁ h₂
  | none =>
      rw [getValueNumber_of_none hV] at h₂ ⊢
      dsimp only at h₂ ⊢
      rw [Nat.mod_eq_of_lt hb] at h₂
      rcases Nat.lt_or_ge n t.nextValueNumber with hn | hn
      · obtain ⟨W, hW⟩ := h.onto n h₁ hn
        exact ⟨W, by rwa [Function.update_noteq fun e => by simp [e, hV] at hW]⟩
      · exact ⟨V, by simp [show n = t.nextValueNumber by omega]⟩

theorem dense_getValueNumbers : ∀ (Vs : List Value) {t : ValueNumberTable}, Dense t →
    t.nextValueNumber + Vs.length < 2 ^ 32 → Dense (getValueNumbers Vs t).2
  | [], _, h, _ => h
  | V :: Vs, t, h, hb => by
      have hnext := (t.getValueNumber_spec V).2.2
      simp only [List.length_cons] at hb
      have := dense_getValueNumbers Vs (dense_getValueNumber h (by omega) V) (by omega)
      exact this

/-- **The step lemma**: an operation that cannot make the counter wrap keeps the numbering dense. -/
theorem dense_apply (h : Dense t) (op : Op) (hb : t.nextValueNumber + op.fresh < 2 ^ 32) :
    Dense (op.apply t) := by
  cases op with
  | getValueNumber V => exact dense_getValueNumber h hb V
  | createExpressionKey I =>
      rw [Op.apply, createExpressionKey_eq]; exact dense_getValueNumbers _ h hb
  | addExpression key I => exact ⟨h.toWellNumbered.addExpression key I, h.onto⟩
  | findAvailableValue => exact h
  | clear => exact dense_init

/-- An operation moves the counter by at most the values it numbers, or resets it. -/
theorem nextValueNumber_apply_le (h : 0 < t.nextValueNumber) (op : Op) :
    (op.apply t).nextValueNumber ≤ t.nextValueNumber + op.fresh := by
  cases op with
  | getValueNumber V => exact (t.getValueNumber_spec V).2.2
  | createExpressionKey I => rw [Op.apply, createExpressionKey_eq]; exact (t.numberOperands_spec I).2.2
  | addExpression | findAvailableValue => exact Nat.le_add_right _ _
  | clear => exact h

/-- **The run lemma**: a run that cannot make the counter wrap keeps the numbering dense. -/
theorem dense_foldl : ∀ (ops : List Op) {t : ValueNumberTable}, Dense t →
    t.nextValueNumber + freshCount ops < 2 ^ 32 → Dense (ops.foldl Op.apply t)
  | [], _, h, _ => h
  | op :: ops, t, h, hb => by
      have hnext := nextValueNumber_apply_le h.pos op
      simp only [freshCount] at hb
      exact dense_foldl ops (dense_apply h op (by omega)) (by omega)

/-! ### The counter counts the values numbered since the last `clear` -/

/-- What a run keeps once it has numbered `vs` since its last `clear`: the table is dense, the
values with a number are those of `vs`, and the counter is one past the number of them. -/
structure Tracks (t : ValueNumberTable) (vs : List Value) : Prop where
  dense : Dense t
  numbered : ∀ V, (t.valueNumbers V).isSome ↔ V ∈ vs
  next_eq : t.nextValueNumber = vs.toFinset.card + 1

theorem tracks_init : Tracks init [] := ⟨dense_init, fun _ => by simp [init], rfl⟩

theorem card_toFinset_le_append (l₁ l₂ : List Value) :
    l₁.toFinset.card ≤ (l₁ ++ l₂).toFinset.card :=
  Finset.card_le_card fun V hV => by
    rw [List.mem_toFinset] at hV ⊢; exact List.mem_append_left _ hV

theorem toFinset_append_singleton (vs : List Value) (V : Value) :
    (vs ++ [V]).toFinset = insert V vs.toFinset := by
  ext W; simp [or_comm]

theorem Tracks.getValueNumber {vs : List Value} (h : Tracks t vs) (V : Value)
    (hb : (vs ++ [V]).toFinset.card + 1 < 2 ^ 32) : Tracks (t.getValueNumber V).2 (vs ++ [V]) := by
  rw [toFinset_append_singleton] at hb
  cases hV : t.valueNumbers V with
  | some n =>
      -- a value already numbered: nothing changes
      have hmem : V ∈ vs := (h.numbered V).1 (by simp [hV])
      rw [getValueNumber_of_some hV]
      refine ⟨h.dense, fun W => ?_, ?_⟩
      · rw [h.numbered, List.mem_append, List.mem_singleton]
        exact ⟨.inl, fun hW => hW.elim id fun e => e ▸ hmem⟩
      · rw [toFinset_append_singleton, Finset.insert_eq_of_mem (List.mem_toFinset.2 hmem)]
        exact h.next_eq
  | none =>
      -- a fresh value: it gets the counter, which moves on by one
      have hmem : V ∉ vs := fun hm => by simpa [hV] using (h.numbered V).2 hm
      have hcard := Finset.card_insert_of_not_mem (mt List.mem_toFinset.1 hmem)
      have hnext := h.next_eq
      refine ⟨dense_getValueNumber h.dense (by omega) V, fun W => ?_, ?_⟩
      · rw [getValueNumber_of_none hV, List.mem_append, List.mem_singleton]
        by_cases hW : W = V
        · subst hW; simp
        · simp [Function.update_noteq hW, h.numbered, hW]
      · rw [getValueNumber_of_none hV, toFinset_append_singleton, hcard]; dsimp only; omega

theorem Tracks.getValueNumbers : ∀ (Vs : List Value) {t : ValueNumberTable} {vs : List Value},
    Tracks t vs → (vs ++ Vs).toFinset.card + 1 < 2 ^ 32 →
      Tracks (ValueNumberTable.getValueNumbers Vs t).2 (vs ++ Vs)
  | [], _, vs, h, _ => by simpa using h
  | V :: Vs, t, vs, h, hb => by
      have hle := card_toFinset_le_append (vs ++ [V]) Vs
      rw [List.append_assoc, List.singleton_append] at hle
      simpa using Tracks.getValueNumbers Vs (h.getValueNumber V (by omega)) (by simpa using hb)

/-- **The step lemma**: an operation that leaves fewer than `2 ^ 32 - 1` values numbered since the
last `clear` keeps the count. -/
theorem Tracks.apply {vs : List Value} (h : Tracks t vs) (op : Op)
    (hb : (op.record vs).toFinset.card + 1 < 2 ^ 32) : Tracks (op.apply t) (op.record vs) := by
  cases op with
  | getValueNumber V => exact h.getValueNumber V hb
  | createExpressionKey I =>
      rw [Op.apply, createExpressionKey_eq]; exact Tracks.getValueNumbers I.operands h hb
  | addExpression key I =>
      simpa [Op.record, Op.values] using
        (⟨⟨h.dense.toWellNumbered.addExpression key I, h.dense.onto⟩, h.numbered, h.next_eq⟩ :
          Tracks (t.addExpression key I) vs)
  | findAvailableValue => simpa [Op.record, Op.values] using h
  | clear => exact tracks_init

/-- **The run lemma**: a run keeps the count from its last `clear` on, whatever came before. -/
theorem tracks_foldl : ∀ (ops : List Op) {t : ValueNumberTable} {vs : List Value},
    (Tracks t vs ∨ Op.clear ∈ ops) → (ops.foldl Op.record vs).toFinset.card + 1 < 2 ^ 32 →
      Tracks (ops.foldl Op.apply t) (ops.foldl Op.record vs)
  | [], _, _, h, _ => h.resolve_right (List.not_mem_nil _)
  | op :: ops, t, vs, h, hb => by
      by_cases hc : Op.clear ∈ ops
      · exact tracks_foldl ops (.inr hc) hb
      refine tracks_foldl ops (.inl ?_) hb
      by_cases hop : op = .clear
      · subst hop; exact tracks_init
      -- no later `clear`: the values numbered so far are among those the bound counts
      have ht : Tracks t vs := h.resolve_right (by simp [Ne.symm hop, hc])
      rw [List.foldl_cons, foldl_record_of_forall_ne_clear ops _ fun _ hm e => hc (e ▸ hm)] at hb
      have := card_toFinset_le_append (op.record vs) (ops.flatMap Op.values)
      exact ht.apply op (by omega)

/-- Every operation but `clear` keeps the numbers handed out. -/
theorem extends_apply {op : Op} (hop : op ≠ .clear) : Extends t (op.apply t) := by
  cases op with
  | getValueNumber V => exact (t.getValueNumber_spec V).2.1
  | createExpressionKey I => rw [Op.apply, createExpressionKey_eq]; exact (t.numberOperands_spec I).2.1
  | addExpression key I => exact Extends.refl t
  | findAvailableValue => exact Extends.refl t
  | clear => exact absurd rfl hop

theorem extends_foldl_apply : ∀ (ops : List Op) (t : ValueNumberTable),
    (∀ op ∈ ops, op ≠ .clear) → Extends t (ops.foldl Op.apply t)
  | [], t, _ => Extends.refl t
  | op :: ops, _, h => (extends_apply (h op (List.mem_cons_self _ _))).trans
      (extends_foldl_apply ops _ fun op' h' => h op' (List.mem_cons_of_mem _ h'))

/-- **The numbering along a run.**  Between two clears a value keeps its number; with fewer than
`2 ^ 32 - 1` distinct values numbered since the last `clear`, the numbers are distinct and
exactly `1, …, NextValueNumber - 1`. -/
theorem runOps_numbering :
    (∀ ops V ops', (∀ op ∈ ops', op ≠ .clear) →
      ((runOps (ops ++ .getValueNumber V :: ops')).getValueNumber V).1 =
        ((runOps ops).getValueNumber V).1) ∧
    ∀ ops, (numberedSinceClear ops).toFinset.card + 1 < 2 ^ 32 →
      (∀ U V n, (runOps ops).valueNumbers U = some n → (runOps ops).valueNumbers V = some n →
        U = V) ∧
      (∀ n, (∃ V, (runOps ops).valueNumbers V = some n) ↔
        1 ≤ n ∧ n ≤ (runOps ops).nextValueNumber - 1) ∧
      ∀ V, (runOps ops).lookupValueNumber V = 0 ↔ (runOps ops).valueNumbers V = none := by
  refine ⟨fun ops V ops' hops => ?_, fun ops hb => ?_⟩
  · have hrun : runOps (ops ++ .getValueNumber V :: ops') =
        ops'.foldl Op.apply ((runOps ops).getValueNumber V).2 := by
      simp only [runOps, List.foldl_append, List.foldl_cons]; rfl
    have hV := ((runOps ops).getValueNumber_spec V).1
    rw [hrun, getValueNumber_of_some (extends_foldl_apply ops' _ hops V _ hV)]
  · have h : Dense (runOps ops) := (tracks_foldl ops (.inl tracks_init) hb).dense
    exact ⟨h.inj, h.range_iff, h.lookupValueNumber_eq_zero_iff⟩

/-- A dense table numbers `n` values with the numbers `1, …, n`, for each `n` below its
counter. -/
theorem Dense.exists_values (h : Dense t) : ∀ n, n < t.nextValueNumber →
    ∃ vs : List Value, vs.Nodup ∧
      (∀ V, V ∈ vs ↔ ∃ k, t.valueNumbers V = some k ∧ 1 ≤ k ∧ k ≤ n) ∧ vs.length = n
  | 0, _ => ⟨[], List.nodup_nil, fun V => by simp only [List.not_mem_nil, false_iff]; omega, rfl⟩
  | n + 1, hn => by
      obtain ⟨vs, hnd, hmem, hlen⟩ := h.exists_values n (by omega)
      obtain ⟨V, hV⟩ := h.onto (n + 1) (by omega) hn
      have hVvs : V ∉ vs := fun hm => by
        obtain ⟨k, hk, -, hkn⟩ := (hmem V).1 hm
        rw [hV, Option.some.injEq] at hk
        omega
      refine ⟨vs ++ [V], List.nodup_append.2 ⟨hnd, List.nodup_singleton V, by simpa using hVvs⟩,
        fun W => ?_, by simp [hlen]⟩
      rw [List.mem_append, hmem, List.mem_singleton]
      constructor
      · rintro (⟨k, hk, h₁, h₂⟩ | rfl)
        · exact ⟨k, hk, h₁, by omega⟩
        · exact ⟨n + 1, hV, by omega, le_rfl⟩
      · rintro ⟨k, hk, h₁, h₂⟩
        rcases Nat.lt_or_ge k (n + 1) with hkn | hkn
        · exact .inl ⟨k, hk, h₁, by omega⟩
        · exact .inr (h.inj W V k hk (by rw [hV]; congr 1; omega))

/-- In a dense table whose counter has not wrapped, `getNumValueNumbers` counts the values
numbered. -/
theorem Dense.getNumValueNumbers_eq (h : Dense t) (hlt : t.nextValueNumber < 2 ^ 32) :
    ∃ vs : List Value, vs.Nodup ∧ (∀ V, V ∈ vs ↔ (t.valueNumbers V).isSome) ∧
      vs.length = t.getNumValueNumbers := by
  obtain ⟨vs, hnd, hmem, hlen⟩ := h.exists_values (t.nextValueNumber - 1) (by have := h.pos; omega)
  refine ⟨vs, hnd, fun V => ?_, by rw [hlen, getNumValueNumbers]; have := h.pos; omega⟩
  rw [hmem, Option.isSome_iff_exists]
  exact ⟨fun ⟨k, hk, _⟩ => ⟨k, hk⟩, fun ⟨k, hk⟩ => ⟨k, hk, by have := h.lt V k hk; omega⟩⟩

/-- **`getNumValueNumbers` counts the values numbered**, after every run from a fresh table that
numbers fewer than `2 ^ 32 - 1` distinct values since its last `clear`. -/
theorem getNumValueNumbers_runOps (ops : List Op)
    (hb : (numberedSinceClear ops).toFinset.card + 1 < 2 ^ 32) :
    ∃ vs : List Value, vs.Nodup ∧ (∀ V, V ∈ vs ↔ ((runOps ops).valueNumbers V).isSome) ∧
      vs.length = (runOps ops).getNumValueNumbers := by
  have h := tracks_foldl ops (.inl tracks_init) hb
  exact h.dense.getNumValueNumbers_eq (h.next_eq.trans_lt hb)

/-- The operations that number the arguments `0, …, n - 1` one after the other, as `run` does. -/
def argumentOps (n : ℕ) : List Op := (List.range n).map fun i => .getValueNumber (.arg i)

theorem freshCount_argumentOps (n : ℕ) : freshCount (argumentOps n) = n := by
  induction n with
  | zero => rfl
  | succ n ih =>
      rw [argumentOps, List.range_succ, List.map_append, freshCount_append, ← argumentOps, ih]
      rfl

/-- On a fresh table, numbering three arguments: the numbering is injective and dense. -/
theorem runOps_numbering_argumentOps :
    (numberedSinceClear (argumentOps 3)).toFinset.card + 1 < 2 ^ 32 ∧
      (∀ U V n, (runOps (argumentOps 3)).valueNumbers U = some n →
        (runOps (argumentOps 3)).valueNumbers V = some n → U = V) ∧
      (∀ n, (∃ V, (runOps (argumentOps 3)).valueNumbers V = some n) ↔
        1 ≤ n ∧ n ≤ (runOps (argumentOps 3)).nextValueNumber - 1) ∧
      ∀ V, (runOps (argumentOps 3)).lookupValueNumber V = 0 ↔
        (runOps (argumentOps 3)).valueNumbers V = none :=
  ⟨by decide, runOps_numbering.2 (argumentOps 3) (by decide)⟩

/-- Numbering three arguments: `getNumValueNumbers` is `3`, and three values have a number. -/
theorem getNumValueNumbers_argumentOps :
    (numberedSinceClear (argumentOps 3)).toFinset.card + 1 < 2 ^ 32 ∧
      (runOps (argumentOps 3)).getNumValueNumbers = 3 ∧
      ∃ vs : List Value, vs.Nodup ∧
        (∀ V, V ∈ vs ↔ ((runOps (argumentOps 3)).valueNumbers V).isSome) ∧
        vs.length = (runOps (argumentOps 3)).getNumValueNumbers :=
  ⟨by decide, by decide, getNumValueNumbers_runOps (argumentOps 3) (by decide)⟩

/-- Numbering the arguments one after the other hands out `1, 2, …` modulo `2 ^ 32`. -/
theorem runOps_argumentOps : ∀ n : ℕ,
    (runOps (argumentOps n)).nextValueNumber = (n + 1) % 2 ^ 32 ∧
      ∀ i, (runOps (argumentOps n)).valueNumbers (.arg i) =
        if i < n then some ((i + 1) % 2 ^ 32) else none
  | 0 => ⟨rfl, fun i => rfl⟩
  | n + 1 => by
      obtain ⟨ih₁, ih₂⟩ := runOps_argumentOps n
      have hrun : runOps (argumentOps (n + 1)) =
          ((runOps (argumentOps n)).getValueNumber (.arg n)).2 := by
        rw [runOps, argumentOps, List.range_succ, List.map_append, List.foldl_append]; rfl
      have hn : (runOps (argumentOps n)).valueNumbers (.arg n) = none := by simp [ih₂]
      rw [hrun, getValueNumber_of_none hn, ih₁]
      refine ⟨by simp [Nat.add_mod], fun i => ?_⟩
      dsimp only
      by_cases hi : i = n
      · subst hi; simp
      · rw [Function.update_noteq (by simpa using hi), ih₂]
        by_cases h : i < n
        · simp [h, show i < n + 1 by omega]
        · simp [h, show ¬ i < n + 1 by omega]

/-- **The counter wraps.**  After `2 ^ 32 + 1` arguments are numbered on a fresh table, the
argument `2 ^ 32 - 1` has number `0`, which `lookupValueNumber` reads as "not numbered", and the
arguments `0` and `2 ^ 32` share the number `1`. -/
theorem runOps_argumentOps_wraps :
    (runOps (argumentOps (2 ^ 32 + 1))).valueNumbers (.arg (2 ^ 32 - 1)) = some 0 ∧
      (runOps (argumentOps (2 ^ 32 + 1))).lookupValueNumber (.arg (2 ^ 32 - 1)) = 0 ∧
      (runOps (argumentOps (2 ^ 32 + 1))).valueNumbers (.arg 0) = some 1 ∧
      (runOps (argumentOps (2 ^ 32 + 1))).valueNumbers (.arg (2 ^ 32)) = some 1 := by
  simp only [lookupValueNumber, (runOps_argumentOps _).2]
  decide

/-! ### Commuted operands -/

/-- A commutative opcode is neither a compare nor a GEP. -/
theorem isCmp_of_isCommutative {op : Opcode} (h : isCommutative op = true) :
    op.isCmp = false ∧ op ≠ .getElementPtr := by
  unfold isCommutative at h
  split at h <;> first | exact ⟨rfl, by decide⟩ | exact absurd h (by decide)

/-- The key of `op b, a` built right after that of `op a, b` reads the numbers the first one gave
`a` and `b`. -/
theorem keyWith_numberOperands_swap {I J : Inst} {a b : Value} (hI : I.operands = [a, b])
    (hJ : J.operands = [b, a]) :
    keyWith ((t.numberOperands I).numberOperands J).valueNumbers J =
      keyWith (t.numberOperands I).valueNumbers J :=
  keyWith_of_extends ((t.numberOperands I).numberOperands_spec J).2.1 fun V hV =>
    (t.numberOperands_spec I).1 V (by rw [hJ] at hV; rw [hI]; simp only [List.mem_cons,
      List.mem_singleton, List.not_mem_nil, or_false] at hV ⊢; exact hV.symm)

/-- In a well-numbered table, `createExpressionKey` numbers two distinct operands apart, whether
or not they had numbers, and even when the counter wraps. -/
theorem getValueNumbers_pair_ne (h : WellNumbered t) {a b : Value} (hab : a ≠ b) :
    ∃ x y, (getValueNumbers [a, b] t).1 = [x, y] ∧ x ≠ y := by
  have hba : b ≠ a := Ne.symm hab
  cases ha : t.valueNumbers a with
  | some m =>
      have hm := h.lt a m ha
      cases hb : t.valueNumbers b with
      | some n => exact ⟨m, n, by simp [getValueNumbers, getValueNumber, ha, hb],
          fun e => hab (h.inj a b m ha (e ▸ hb))⟩
      | none => exact ⟨m, t.nextValueNumber, by simp [getValueNumbers, getValueNumber, ha, hb],
          by omega⟩
  | none =>
      cases hb : t.valueNumbers b with
      | some n => exact ⟨t.nextValueNumber, n, by
            simp [getValueNumbers, getValueNumber, ha, hb, Function.update_noteq hba],
          by have := h.lt b n hb; omega⟩
      | none => exact ⟨t.nextValueNumber, (t.nextValueNumber + 1) % 2 ^ 32, by
            simp [getValueNumbers, getValueNumber, ha, hb, Function.update_noteq hba], by omega⟩

/-- **Commuted operands.**  For a commutative opcode, `op a, b` and then `op b, a` get one key, in
every state; for any other opcode they get two when `a ≠ b`, in every well-numbered state. -/
theorem createExpressionKey_swap :
    (∀ (t : ValueNumberTable) (I J : Inst) (a b : Value), isCommutative I.opcode = true →
      J.opcode = I.opcode → J.type = I.type → I.operands = [a, b] → J.operands = [b, a] →
      ((t.createExpressionKey I).2.createExpressionKey J).1 = (t.createExpressionKey I).1) ∧
    ∀ (t : ValueNumberTable) (I J : Inst) (a b : Value), t.WellNumbered →
      isCommutative I.opcode = false →
      I.operands = [a, b] → J.operands = [b, a] → a ≠ b →
      ((t.createExpressionKey I).2.createExpressionKey J).1 ≠ (t.createExpressionKey I).1 := by
  refine ⟨fun t I J a b hc hop hty hI hJ => ?_, fun t I J a b ht hc hI hJ hab => ?_⟩ <;>
    simp only [createExpressionKey_eq, keyWith_numberOperands_swap hI hJ]
  · -- the two instructions agree on every key field
    obtain ⟨hcmp, hgep⟩ := isCmp_of_isCommutative hc
    exact keyWith_eq_of_sameKey ⟨hop, hty, fun h => absurd h (by rw [hop, hcmp]; decide),
      fun h => absurd (hop ▸ h) hgep, .inr ⟨hop ▸ hc, by rw [hJ]; rfl, by rw [hI, hJ]; rfl⟩⟩
  · -- `a` and `b` get two numbers, which the second key lists the other way round
    intro heq
    obtain ⟨x, y, hxy, hne⟩ := getValueNumbers_pair_ne ht hab
    have hmap := (getValueNumbers_spec [a, b] t).2.1
    have hop : J.opcode = I.opcode := congrArg ExpressionKey.opcode heq
    have hops := congrArg ExpressionKey.operandValueNumbers heq
    simp only [keyWith, hop, canonicalizeOperands, hc, numberOperands,
      hI, hJ, Bool.false_eq_true, if_false] at hops
    rw [hxy] at hmap
    simp only [List.map_cons, List.map_nil, List.cons.injEq, and_true] at hmap hops
    exact hne (hmap.1.trans (hops.2.trans hmap.2.symm))

/-- On a fresh table, `add %0, %1` and `add %1, %0` get one key, and `sub %0, %1`, `sub %1, %0`
two. -/
theorem createExpressionKey_swap_init :
    isCommutative Opcode.add = true ∧
      ((init.createExpressionKey
          { id := 1, opcode := .add, type := 32, operands := [.arg 0, .arg 1] }).2.createExpressionKey
          { id := 2, opcode := .add, type := 32, operands := [.arg 1, .arg 0] }).1 =
        (init.createExpressionKey
          { id := 1, opcode := .add, type := 32, operands := [.arg 0, .arg 1] }).1 ∧
      init.WellNumbered ∧ isCommutative Opcode.sub = false ∧
      Value.arg 0 ≠ Value.arg 1 ∧
      ((init.createExpressionKey
          { id := 1, opcode := .sub, type := 32, operands := [.arg 0, .arg 1] }).2.createExpressionKey
          { id := 2, opcode := .sub, type := 32, operands := [.arg 1, .arg 0] }).1 ≠
        (init.createExpressionKey
          { id := 1, opcode := .sub, type := 32, operands := [.arg 0, .arg 1] }).1 :=
  ⟨rfl, createExpressionKey_swap.1 init _ _ (.arg 0) (.arg 1) rfl rfl rfl rfl rfl,
    wellNumbered_init, rfl, by decide,
    createExpressionKey_swap.2 init _ _ (.arg 0) (.arg 1) wellNumbered_init rfl rfl rfl (by decide)⟩

/-- In a table where `%0` has number `1`, `%4294967296` none, and the counter stands at `1`,
`sub %0, %4294967296` and `sub %4294967296, %0` get one key. -/
theorem createExpressionKey_sub_collide_of (h0 : t.valueNumbers (.arg 0) = some 1)
    (hN : t.valueNumbers (.arg (2 ^ 32)) = none) (h1 : t.nextValueNumber = 1) :
    ((t.createExpressionKey
        { id := 1, opcode := .sub, type := 32, operands := [.arg 0, .arg (2 ^ 32)] }).2.createExpressionKey
        { id := 2, opcode := .sub, type := 32, operands := [.arg (2 ^ 32), .arg 0] }).1 =
      (t.createExpressionKey
        { id := 1, opcode := .sub, type := 32, operands := [.arg 0, .arg (2 ^ 32)] }).1 := by
  -- the second operand of the first `sub` gets the counter, `1`, which `%0` already has
  have hu1 : Function.update t.valueNumbers (.arg (2 ^ 32)) (some 1) (.arg (2 ^ 32)) = some 1 :=
    Function.update_same _ _ _
  have hu0 : Function.update t.valueNumbers (.arg (2 ^ 32)) (some 1) (.arg 0) = some 1 := by
    rw [Function.update_noteq (by decide), h0]
  simp only [createExpressionKey, getValueNumbers, getValueNumber, h0, hN, h1, hu1, hu0]

/-- **Wrapped numbers merge distinct operands.**  After `2 ^ 32` arguments are numbered,
`sub %0, %4294967296` gives its second operand the number `1` of `%0`, and
`sub %4294967296, %0` gets the same key. -/
theorem createExpressionKey_sub_wraps :
    isCommutative Opcode.sub = false ∧ Value.arg 0 ≠ Value.arg (2 ^ 32) ∧
      (((runOps (argumentOps (2 ^ 32))).createExpressionKey
          { id := 1, opcode := .sub, type := 32, operands := [.arg 0, .arg (2 ^ 32)] }).2.createExpressionKey
          { id := 2, opcode := .sub, type := 32, operands := [.arg (2 ^ 32), .arg 0] }).1 =
        ((runOps (argumentOps (2 ^ 32))).createExpressionKey
          { id := 1, opcode := .sub, type := 32, operands := [.arg 0, .arg (2 ^ 32)] }).1 := by
  obtain ⟨hnext, hvn⟩ := runOps_argumentOps (2 ^ 32)
  refine ⟨rfl, by decide, createExpressionKey_sub_collide_of ?_ ?_ ?_⟩
  · rw [hvn]; decide
  · rw [hvn]; decide
  · rw [hnext]; decide

end ValueNumberTable

end OptPasses
