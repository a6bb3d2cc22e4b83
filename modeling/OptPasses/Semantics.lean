/-
**A reference semantics for the IR, and refinement.**

None of the passes of this repository runs the IR; what their correctness means is stated against
how LLVM runs it.  This module gives that meaning for the part of it the passes touch: an
instruction computes a value from its operand values and the attributes it carries, a PHI takes
its operand for the block control came from, a terminator picks the next block or returns.  What
each opcode computes is a parameter `sem`, as the constant evaluator the folder is compared with
(`ConstantFoldInstruction`) is: both live in LLVM, not in this repository.  Memory is not
modelled; an instruction that reads or writes it is, under `sem`, a function of its operands.

A run counts the blocks it enters (`fuel`) and ends by returning, by getting stuck (undefined
behaviour: an operand without a value, an instruction `sem` does not define, a block without a
terminator) or by running out of fuel.  `G` refines `F` when, on every input and every budget on
which `F` does not get stuck, `G` has `F`'s outcome; it refines `F`'s results when it returns the
same values, within budgets of its own (`OptPasses.Semantics.RefinesResults`), as an unrolled loop
does.

The two IR mutations of the passes are proved correct here once, for any `sem`, by a lockstep
simulation: replacing every use of an instruction that can only yield `c` by the constant `c`, and
erasing an unused instruction that is not a terminator.

Main definitions:

* `OptPasses.Semantics.evalInst`, `OptPasses.Semantics.execInsts` — one instruction, and a
  block's code up to its terminator;
* `OptPasses.Semantics.execute` — a function applied to arguments, with a budget of blocks;
* `OptPasses.Semantics.Refines`, `OptPasses.Semantics.RefinesResults` — refinement budget for
  budget, and of the results;
* `OptPasses.Semantics.intSem` — the integer meaning of the opcodes the benchmarks use.

Main results:

* `OptPasses.Semantics.runFrom_simBlocks` — blocks that simulate blocks, under a relation indexed
  by the edge taken, give runs with equal outcomes;
* `OptPasses.Semantics.refines_replaceAllUsesWith` — **replacing the uses of an instruction that
  can only yield `c` by `c` refines the function**;
* `OptPasses.Semantics.refines_eraseFromParent` — **erasing an unused instruction that is not a
  terminator refines the function**.
-/

import OptPasses.IR
import Mathlib.Logic.Function.Basic

set_option relaxedAutoImplicit false
set_option autoImplicit false

namespace OptPasses

/-- What an instruction computes apart from its operands: the instruction with its handle and
operands blanked out.  The semantics reads only this and the operand values. -/
def Inst.operation (I : Inst) : Inst := { I with id := 0, operands := [] }

@[simp] theorem Inst.operation_mapOperands (f : Value → Value) (I : Inst) :
    (I.mapOperands f).operation = I.operation := rfl

/-- The label of the entry block, the first. -/
def Function.entry? (F : Function) : Option ℕ := F.blocks.head?.map Block.label

@[simp] theorem Function.entry?_mapInsts {F : Function} (f : Inst → Inst)
    (hf : ∀ I, (f I).id = I.id) : (F.mapInsts f hf).entry? = F.entry? := by
  cases h : F.blocks <;> simp [Function.entry?, Function.mapInsts, h]

@[simp] theorem Function.entry?_filterInsts {F : Function} (p : Inst → Bool) :
    (F.filterInsts p).entry? = F.entry? := by
  cases h : F.blocks <;> simp [Function.entry?, Function.filterInsts, h]

namespace Semantics

/-! ### Operands and instructions -/

/-- The value of an operand: an argument, a constant, or the last result of an instruction. -/
def evalValue (args : List ℤ) (env : ℕ → Option ℤ) : Value → Option ℤ
  | .arg i => args[i]?
  | .const _ c => some c
  | .inst id => env id

/-- The values of the operands, in order; `none` if one has none. -/
def evalValues (args : List ℤ) (env : ℕ → Option ℤ) : List Value → Option (List ℤ)
  | [] => some []
  | v :: vs =>
      match evalValue args env v, evalValues args env vs with
      | some a, some as => some (a :: as)
      | _, _ => none

theorem evalValues_cons_eq_some {args : List ℤ} {env : ℕ → Option ℤ} {v : Value}
    {vs : List Value} {xs : List ℤ} :
    evalValues args env (v :: vs) = some xs ↔
      ∃ a as, evalValue args env v = some a ∧ evalValues args env vs = some as ∧ xs = a :: as := by
  simp only [evalValues]
  cases evalValue args env v <;> cases evalValues args env vs <;> simp [eq_comm]

/-- **Operand evaluation is monotone**: if every operand that has a value keeps it after `f`, in
another environment, so does the list. -/
theorem evalValues_map {args args' : List ℤ} {env env' : ℕ → Option ℤ} {f : Value → Value} :
    ∀ {vs : List Value} {xs : List ℤ},
      (∀ v ∈ vs, ∀ a, evalValue args env v = some a → evalValue args' env' (f v) = some a) →
        evalValues args env vs = some xs → evalValues args' env' (vs.map f) = some xs
  | [], _, _, h => h
  | v :: vs, _, hf, h => by
      obtain ⟨a, as, ha, has, rfl⟩ := evalValues_cons_eq_some.1 h
      exact evalValues_cons_eq_some.2 ⟨a, as, hf v (List.mem_cons_self _ _) a ha,
        evalValues_map (fun w hw => hf w (List.mem_cons_of_mem _ hw)) has, rfl⟩

/-- Operands whose values two environments agree on have the same values in both. -/
theorem evalValues_congr {args : List ℤ} {env env' : ℕ → Option ℤ} :
    ∀ {vs : List Value}, (∀ v ∈ vs, evalValue args env v = evalValue args env' v) →
      evalValues args env vs = evalValues args env' vs
  | [], _ => rfl
  | v :: vs, h => by
      simp only [evalValues, h v (List.mem_cons_self _ _),
        evalValues_congr fun w hw => h w (List.mem_cons_of_mem _ hw)]

/-- An operand with a value under no arguments and no results is a constant: it has that value
everywhere. -/
theorem evalValue_closed {args : List ℤ} {env : ℕ → Option ℤ} {v : Value} {a : ℤ}
    (h : evalValue [] (fun _ => none) v = some a) : evalValue args env v = some a := by
  cases v with
  | arg i => simp [evalValue] at h
  | const t k => exact h
  | inst id => simp [evalValue] at h

/-- In a list of operands that all have values, the one at place `k` has the value at place
`k`. -/
theorem evalValue_of_getElem? {args : List ℤ} {env : ℕ → Option ℤ} :
    ∀ {vs : List Value} {xs : List ℤ} {k : ℕ} {v : Value}, evalValues args env vs = some xs →
      vs[k]? = some v → ∃ a, xs[k]? = some a ∧ evalValue args env v = some a
  | [], _, _, _, _, hv => by simp at hv
  | w :: vs, _, k, v, h, hv => by
      obtain ⟨a, as, ha, has, rfl⟩ := evalValues_cons_eq_some.1 h
      cases k with
      | zero => obtain rfl : w = v := by simpa using hv
                exact ⟨a, by simp, ha⟩
      | succ k => simpa using evalValue_of_getElem? has (by simpa using hv)

variable (sem : Inst → List ℤ → Option ℤ)

/-- The value `I` defines in a block entered from `pred`: a PHI takes its operand for `pred` from
the results `entry` on entry; any other instruction applies `sem` to its operands' values in
`env`. -/
def evalInst (args : List ℤ) (entry env : ℕ → Option ℤ) (pred : ℕ) (I : Inst) : Option ℤ :=
  if I.isPhi then (I.operands[I.blocks.indexOf pred]?).bind (evalValue args entry)
  else (evalValues args env I.operands).bind (sem I.operation)

variable {sem}

theorem evalInst_of_isPhi_eq_false {args : List ℤ} {entry env : ℕ → Option ℤ} {pred : ℕ}
    {I : Inst} (h : I.isPhi = false) :
    evalInst sem args entry env pred I =
      (evalValues args env I.operands).bind (sem I.operation) := by
  simp [evalInst, h]

/-- An instruction with rewritten operands defines the same value, as long as every operand it
reads keeps its value: a PHI its operand for `pred` on entry to the block, any other instruction
all of its operands now. -/
theorem evalInst_mapOperands {args : List ℤ} {entry env entry' env' : ℕ → Option ℤ} {pred : ℕ}
    {I : Inst} {f : Value → Value} {a : ℤ}
    (hentry : I.isPhi → ∀ v, I.operands[I.blocks.indexOf pred]? = some v → ∀ a,
      evalValue args entry v = some a → evalValue args entry' (f v) = some a)
    (henv : I.isPhi = false → ∀ v ∈ I.operands, ∀ a, evalValue args env v = some a →
      evalValue args env' (f v) = some a)
    (h : evalInst sem args entry env pred I = some a) :
    evalInst sem args entry' env' pred (I.mapOperands f) = some a := by
  unfold evalInst at h ⊢
  simp only [Inst.mapOperands_isPhi, Inst.mapOperands_blocks, Inst.mapOperands_operands,
    Inst.operation_mapOperands, List.getElem?_map] at h ⊢
  cases hphi : I.isPhi
  · simp only [hphi, Bool.false_eq_true, if_false] at h ⊢
    obtain ⟨xs, hxs, ha⟩ := Option.bind_eq_some.1 h
    rw [evalValues_map (henv hphi) hxs]
    exact ha
  · simp only [hphi, if_true] at h ⊢
    obtain ⟨v, hv, ha⟩ := Option.bind_eq_some.1 h
    simp only [hv, Option.map_some', Option.some_bind]
    exact hentry hphi v hv a ha

/-! ### Terminators, blocks and runs -/

/-- Where a terminator sends control. -/
inductive Exit
  | jump (target : ℕ)
  | ret (value : Option ℤ)
  deriving DecidableEq, Repr

/-- `ret`, `br` and `switch`, from the values of their operands and their successors `I.blocks`;
a `switch` lists its case values after the condition and its default before the case
destinations.  The other terminators have no modelled successor. -/
def terminate (I : Inst) (vals : List ℤ) : Option Exit :=
  match I.opcode, vals, I.blocks with
  | .ret, [], _ => some (.ret none)
  | .ret, [v], _ => some (.ret (some v))
  | .br, [], [t] => some (.jump t)
  | .br, [c], [t, f] => some (.jump (if c ≠ 0 then t else f))
  | .switch, c :: cases, dflt :: dests =>
      some (.jump ((((cases.zip dests).find? (·.1 = c)).map Prod.snd).getD dflt))
  | _, _, _ => none

@[simp] theorem terminate_mapOperands (f : Value → Value) (I : Inst) :
    terminate (I.mapOperands f) = terminate I := rfl

/-- A terminator jumps only to one of its successors. -/
theorem mem_blocks_of_terminate {I : Inst} {vals : List ℤ} {t : ℕ}
    (h : terminate I vals = some (.jump t)) : t ∈ I.blocks := by
  unfold terminate at h
  split at h <;> simp only [Option.some.injEq, Exit.jump.injEq, reduceCtorEq] at h
  · simp_all
  · split_ifs at h <;> simp_all
  · rename_i c cases dflt dests _ hb
    rw [hb, ← h]
    cases hf : (cases.zip dests).find? (·.1 = c) with
    | none => simp
    | some p => exact List.mem_cons_of_mem _ (List.of_mem_zip (List.mem_of_find?_eq_some hf)).2

variable (sem)

/-- Run the code of a block, with `env` the results so far: the exit its first terminator takes
and the results at that point, or `none` if an instruction has no value or no terminator comes. -/
def execInsts (args : List ℤ) (entry : ℕ → Option ℤ) (pred : ℕ) :
    List Inst → (ℕ → Option ℤ) → Option (Exit × (ℕ → Option ℤ))
  | [], _ => none
  | I :: rest, env =>
      if I.opcode.isTerminator then
        ((evalValues args env I.operands).bind (terminate I)).map (·, env)
      else
        match evalInst sem args entry env pred I with
        | some v => execInsts args entry pred rest (Function.update env I.id (some v))
        | none => none

section execInsts

variable {sem} {args : List ℤ} {entry env : ℕ → Option ℤ} {pred : ℕ} {I : Inst} {rest : List Inst}

theorem execInsts_cons_of_isTerminator (hI : I.opcode.isTerminator = true) :
    execInsts sem args entry pred (I :: rest) env =
      ((evalValues args env I.operands).bind (terminate I)).map (·, env) := by
  simp [execInsts, hI]

theorem execInsts_cons_of_not_isTerminator (hI : I.opcode.isTerminator = false) :
    execInsts sem args entry pred (I :: rest) env =
      (evalInst sem args entry env pred I).bind fun a =>
        execInsts sem args entry pred rest (Function.update env I.id (some a)) := by
  simp only [execInsts, hI, Bool.false_eq_true, if_false]
  cases evalInst sem args entry env pred I <;> rfl

/-- A terminator leaves the block as its operand values say, with the results unchanged. -/
theorem execInsts_cons_of_isTerminator_eq_some {e : Exit} {env' : ℕ → Option ℤ}
    (hI : I.opcode.isTerminator = true)
    (h : execInsts sem args entry pred (I :: rest) env = some (e, env')) :
    (∃ vals, evalValues args env I.operands = some vals ∧ terminate I vals = some e) ∧
      env' = env := by
  rw [execInsts_cons_of_isTerminator hI] at h
  obtain ⟨e', he', he⟩ := Option.map_eq_some'.1 h
  obtain ⟨rfl, rfl⟩ := Prod.mk.inj he
  exact ⟨Option.bind_eq_some.1 he', rfl⟩

end execInsts

/-- How a run ends. -/
inductive Outcome
  | returned (value : Option ℤ)
  | stuck
  | outOfFuel
  deriving DecidableEq, Repr

/-- Run `F` from block `cur`, entered from `pred`, entering at most `fuel` blocks. -/
def runFrom (F : Function) (args : List ℤ) : ℕ → (ℕ → Option ℤ) → ℕ → ℕ → Outcome
  | 0, _, _, _ => .outOfFuel
  | fuel + 1, env, pred, cur =>
      match F.block? cur with
      | none => .stuck
      | some B =>
          match execInsts sem args env pred B.insts env with
          | none => .stuck
          | some (.ret v, _) => .returned v
          | some (.jump t, env') => runFrom F args fuel env' cur t

/-- `F` applied to `args`, entering at most `fuel` blocks; the entry block counts as entered from
itself. -/
def execute (F : Function) (args : List ℤ) (fuel : ℕ) : Outcome :=
  match F.entry? with
  | none => .stuck
  | some l => runFrom sem F args fuel (fun _ => none) l l

/-- `G` refines `F`: on every input and every budget on which `F` does not get stuck, `G` has
`F`'s outcome. -/
def Refines (G F : Function) : Prop :=
  ∀ args fuel, execute sem F args fuel ≠ .stuck → execute sem G args fuel = execute sem F args fuel

variable {sem}

theorem Refines.refl (F : Function) : Refines sem F F := fun _ _ _ => rfl

theorem Refines.trans {H G F : Function} (hHG : Refines sem H G) (hGF : Refines sem G F) :
    Refines sem H F := fun args fuel h => by
  rw [hHG args fuel (by rwa [hGF args fuel h]), hGF args fuel h]

variable (sem) in
/-- `G` refines `F` whatever the budget: on every input on which `F` never gets stuck, neither does
`G`, and `G` returns within some budget exactly the values `F` returns within some budget. -/
def RefinesResults (G F : Function) : Prop :=
  ∀ args, (∀ fuel, execute sem F args fuel ≠ .stuck) →
    (∀ fuel, execute sem G args fuel ≠ .stuck) ∧
      ∀ v, (∃ fuel, execute sem G args fuel = .returned v) ↔
        ∃ fuel, execute sem F args fuel = .returned v

theorem RefinesResults.refl (F : Function) : RefinesResults sem F F :=
  fun _ h => ⟨h, fun _ => Iff.rfl⟩

theorem RefinesResults.trans {H G F : Function} (hHG : RefinesResults sem H G)
    (hGF : RefinesResults sem G F) : RefinesResults sem H F := fun args h =>
  let ⟨hG, hGv⟩ := hGF args h
  let ⟨hH, hHv⟩ := hHG args hG
  ⟨hH, fun v => (hHv v).trans (hGv v)⟩

section Simulation

variable (sem) (R : (ℕ → Option ℤ) → (ℕ → Option ℤ) → Prop)

/-- The code `IG` simulates `IF` under `R`: from related results on entry and related current
results, whenever `IF` leaves the block, `IG` leaves it the same way with related results. -/
def SimInsts (args : List ℤ) (pred : ℕ) (IG IF : List Inst) : Prop :=
  ∀ entryG entryF envG envF e envF', R entryG entryF → R envG envF →
    execInsts sem args entryF pred IF envF = some (e, envF') →
      ∃ envG', execInsts sem args entryG pred IG envG = some (e, envG') ∧ R envG' envF'

variable {sem R}

/-- **Simulation, block by block.**  If from results related by `Rel` each block of `F` is left
as `G`'s block of that label is, with related results for the target, then related runs have
equal outcomes wherever `F`'s is not stuck. -/
theorem runFrom_simBlocks {F G : Function} {args : List ℤ}
    (Rel : ℕ → ℕ → (ℕ → Option ℤ) → (ℕ → Option ℤ) → Prop)
    (hblock : ∀ pred cur BF envG envF e envF', F.block? cur = some BF →
      Rel pred cur envG envF → execInsts sem args envF pred BF.insts envF = some (e, envF') →
        ∃ BG envG', G.block? cur = some BG ∧
          execInsts sem args envG pred BG.insts envG = some (e, envG') ∧
          ∀ t, e = .jump t → Rel cur t envG' envF') :
    ∀ fuel envG envF pred cur, Rel pred cur envG envF →
      runFrom sem F args fuel envF pred cur ≠ .stuck →
        runFrom sem G args fuel envG pred cur = runFrom sem F args fuel envF pred cur := by
  intro fuel
  induction fuel with
  | zero => intros; rfl
  | succ fuel ih =>
      intro envG envF pred cur hR hF
      cases hBF : F.block? cur with
      | none => simp [runFrom, hBF] at hF
      | some BF =>
          cases hx : execInsts sem args envF pred BF.insts envF with
          | none => simp [runFrom, hBF, hx] at hF
          | some r =>
              obtain ⟨e, envF'⟩ := r
              obtain ⟨BG, envG', hBG, hxG, hR'⟩ := hblock pred cur BF envG envF e envF' hBF hR hx
              cases e with
              | ret v => simp [runFrom, hBF, hBG, hx, hxG]
              | jump t =>
                  simp only [runFrom, hBF, hBG, hx, hxG] at hF ⊢
                  exact ih envG' envF' cur t (hR' t rfl) hF

/-- Simulation of every block, from related empty results on entry, gives refinement. -/
theorem refines_of_simBlocks {F G : Function} (hentry : G.entry? = F.entry?)
    (Rel : List ℤ → ℕ → ℕ → (ℕ → Option ℤ) → (ℕ → Option ℤ) → Prop)
    (hinit : ∀ args l, F.entry? = some l → Rel args l l (fun _ => none) (fun _ => none))
    (hblock : ∀ args pred cur BF envG envF e envF', F.block? cur = some BF →
      Rel args pred cur envG envF → execInsts sem args envF pred BF.insts envF = some (e, envF') →
        ∃ BG envG', G.block? cur = some BG ∧
          execInsts sem args envG pred BG.insts envG = some (e, envG') ∧
          ∀ t, e = .jump t → Rel args cur t envG' envF') :
    Refines sem G F := by
  intro args fuel hF
  unfold execute at hF ⊢
  rw [hentry]
  cases h : F.entry? with
  | none => simp [h] at hF
  | some l =>
      simp only [h] at hF ⊢
      exact runFrom_simBlocks (Rel args) (hblock args) fuel _ _ l l (hinit args l h) hF

/-- **Lockstep simulation.**  Code of `G` simulating the code of each block of `F` under one
relation, from empty results on both sides, gives refinement. -/
theorem refines_of_sim {F G : Function} (hentry : G.entry? = F.entry?)
    (hinit : R (fun _ => none) (fun _ => none))
    (hblock : ∀ args l BF, F.block? l = some BF →
      ∃ BG, G.block? l = some BG ∧ ∀ pred, SimInsts sem R args pred BG.insts BF.insts) :
    Refines sem G F :=
  refines_of_simBlocks hentry (fun _ _ _ => R) (fun _ _ _ => hinit)
    fun args pred cur BF envG envF e envF' hBF hR hx =>
      let ⟨BG, hBG, hsim⟩ := hblock args cur BF hBF
      let ⟨envG', hxG, hR'⟩ := hsim pred envG envF envG envF e envF' hR hR hx
      ⟨BG, envG', hBG, hxG, fun _ _ => hR'⟩

/-- **The lockstep step for rewriting operands and erasing instructions.**  A block filtered by
`p` with its operands rewritten by `f` simulates it under `R`, when `f` keeps operand values, `R`
survives every result, and nothing erased is a terminator. -/
theorem simInsts_filter_map (f : Value → Value) (p : Inst → Bool) (args : List ℤ) (pred : ℕ) :
    ∀ IF : List Inst,
      (∀ I ∈ IF, ∀ eG eF, R eG eF → ∀ v ∈ I.operands, ∀ a, evalValue args eF v = some a →
        evalValue args eG (f v) = some a) →
      (∀ I ∈ IF, p I → ∀ entry eG eF a, R eG eF → evalInst sem args entry eF pred I = some a →
        R (Function.update eG I.id (some a)) (Function.update eF I.id (some a))) →
      (∀ I ∈ IF, p I = false → I.opcode.isTerminator = false ∧
        ∀ eG eF a, R eG eF → R eG (Function.update eF I.id (some a))) →
      SimInsts sem R args pred ((IF.filter p).map (Inst.mapOperands f)) IF
  | [], _, _, _ => fun _ _ _ _ _ _ _ _ h => by simp [execInsts] at h
  | I :: rest, hops, hkeep, hdrop => by
      intro entryG entryF envG envF e envF' hentry henv h
      have ih := simInsts_filter_map f p args pred rest
        (fun J hJ => hops J (List.mem_cons_of_mem _ hJ))
        (fun J hJ => hkeep J (List.mem_cons_of_mem _ hJ))
        (fun J hJ => hdrop J (List.mem_cons_of_mem _ hJ))
      have hI := List.mem_cons_self I rest
      cases hp : p I
      · -- erased: the result skips it
        obtain ⟨hterm, hR⟩ := hdrop I hI hp
        rw [execInsts_cons_of_not_isTerminator hterm] at h
        obtain ⟨a, -, h⟩ := Option.bind_eq_some.1 h
        rw [List.filter_cons_of_neg (by simp [hp])]
        exact ih entryG entryF envG _ e envF' hentry (hR _ _ a henv) h
      rw [List.filter_cons_of_pos hp, List.map_cons]
      cases hterm : I.opcode.isTerminator
      · -- kept: same operand values, same value
        rw [execInsts_cons_of_not_isTerminator hterm] at h
        obtain ⟨a, ha, h⟩ := Option.bind_eq_some.1 h
        have haG := evalInst_mapOperands
          (fun _ v hv => hops I hI _ _ hentry v (List.getElem?_mem hv))
          (fun _ => hops I hI _ _ henv) ha
        rw [execInsts_cons_of_not_isTerminator (I := I.mapOperands f) hterm, haG, Option.some_bind,
          Inst.mapOperands_id]
        exact ih entryG entryF _ _ e envF' hentry (hkeep I hI hp entryF envG envF a henv ha) h
      · -- the terminator: same operand values, same exit
        obtain ⟨⟨vals, hvals, he⟩, rfl⟩ := execInsts_cons_of_isTerminator_eq_some hterm h
        refine ⟨envG, ?_, henv⟩
        rw [execInsts_cons_of_isTerminator (I := I.mapOperands f) hterm, Inst.mapOperands_operands,
          evalValues_map (hops I hI _ _ henv) hvals]
        simp [he]

end Simulation

theorem mem_insts_of_block? {F : Function} {l : ℕ} {B : Block} (h : F.block? l = some B) :
    ∀ I ∈ B.insts, I ∈ F.insts :=
  fun _ hI => Function.mem_insts.2 ⟨B, List.mem_of_find?_eq_some h, hI⟩

/-! ### Replacing by a constant -/

section ReplaceByConstant

variable {F : Function} {x : ℕ} {c : ℤ}

/-- The results of a run in which `x` has only ever yielded `c`. -/
def OnlyYields (x : ℕ) (c : ℤ) (env : ℕ → Option ℤ) : Prop := ∀ w, env x = some w → w = c

/-- Where `x` has only yielded `c`, an operand keeps its value when `x` is replaced by `c`. -/
theorem evalValue_subst {args : List ℤ} {env : ℕ → Option ℤ} (t : ℕ) (h : OnlyYields x c env)
    (v : Value) (a : ℤ) (hv : evalValue args env v = some a) :
    evalValue args env (Value.subst x (.const t c) v) = some a := by
  by_cases hvx : v = .inst x
  · subst hvx
    simp only [Value.subst_inst_self, evalValue]
    exact congrArg some (h a hv).symm
  · rwa [Value.subst_of_ne hvx]

/-- **Replacing by a constant.**  If every execution of `x` that yields a value yields `c`,
replacing the uses of `x` by the constant `c` refines the function. -/
theorem refines_replaceAllUsesWith (t : ℕ)
    (hx : ∀ I ∈ F.insts, I.id = x → ∀ args entry env pred a,
      evalInst sem args entry env pred I = some a → a = c) :
    Refines sem (F.replaceAllUsesWith x (.const t c)) F :=
  refines_of_sim (R := fun eG eF => eG = eF ∧ OnlyYields x c eF)
    (by simp [Function.replaceAllUsesWith]) ⟨rfl, fun _ h => by simp at h⟩ fun args l BF hBF =>
      ⟨{ BF with insts := BF.insts.map (Inst.replaceUsesOfWith x (.const t c)) },
        by rw [Function.replaceAllUsesWith, Function.block?_mapInsts, hBF]; rfl, fun pred => by
        have := @simInsts_filter_map sem (fun eG eF => eG = eF ∧ OnlyYields x c eF)
          (Value.subst x (.const t c)) (fun _ => true) args pred BF.insts
          (fun _ _ _ _ ⟨hGF, hc⟩ v _ => by subst hGF; exact evalValue_subst t hc v)
          (fun I hI _ entry _ _ a hR ha => ⟨hR.1 ▸ rfl, fun w hw => by
            by_cases hIx : I.id = x
            · subst hIx
              rw [Function.update_same, Option.some.injEq] at hw
              exact hw ▸ hx I (mem_insts_of_block? hBF I hI) rfl args entry _ pred a (hR.1 ▸ ha)
            · rw [Function.update_noteq (Ne.symm hIx)] at hw
              exact hR.2 w hw⟩)
          fun _ _ h => absurd h (by simp)
        rwa [List.filter_true] at this⟩

end ReplaceByConstant

/-! ### Erasing an unused instruction -/

section Erase

variable {F : Function} {x : ℕ}

/-- Away from `x`, results that agree give every operand of an instruction not using `x` the same
value. -/
theorem evalValue_of_agree {args : List ℤ} {eG eF : ℕ → Option ℤ} (hR : ∀ y, y ≠ x → eG y = eF y)
    {I : Inst} (hIx : Value.inst x ∉ I.operands) :
    ∀ v ∈ I.operands, ∀ a, evalValue args eF v = some a → evalValue args eG (id v) = some a
  | .inst y, hv, a, ha => by
      have hy : y ≠ x := fun e => hIx (e ▸ hv)
      simpa [evalValue, hR y hy] using ha
  | .arg _, _, _, ha => ha
  | .const _ _, _, _, ha => ha

/-- **Erasing an unused instruction** that is not a terminator refines the function: a run of the
result skips it, and the run of the original either computes a value nobody reads or gets stuck
there. -/
theorem refines_eraseFromParent (hx : ¬ F.Uses x)
    (hterm : ∀ I ∈ F.insts, I.id = x → I.opcode.isTerminator = false) :
    Refines sem (F.eraseFromParent x) F :=
  refines_of_sim (R := fun eG eF => ∀ y, y ≠ x → eG y = eF y)
    (by simp [Function.eraseFromParent]) (fun _ _ => rfl) fun args l BF hBF =>
      ⟨{ BF with insts := BF.insts.filter (·.id ≠ x) },
        by rw [Function.eraseFromParent, Function.block?_filterInsts, hBF]; rfl, fun pred => by
        have := @simInsts_filter_map sem (fun eG eF => ∀ y, y ≠ x → eG y = eF y) (fun v => v)
          (·.id ≠ x) args pred BF.insts
          (fun I hI _ _ hR =>
            evalValue_of_agree hR fun hm => hx ⟨I, mem_insts_of_block? hBF I hI, hm⟩)
          (fun I _ _ _ _ _ a hR _ y hy => by
            by_cases hyI : y = I.id
            · subst hyI; simp
            · rw [Function.update_noteq hyI, Function.update_noteq hyI, hR y hy])
          fun I hI hIx => by
            have hIx : I.id = x := by simpa using hIx
            refine ⟨hterm I (mem_insts_of_block? hBF I hI) hIx, fun _ _ a hR y hy => ?_⟩
            rw [hR y hy, Function.update_noteq (hIx ▸ hy)]
        rwa [Inst.mapOperands_self, List.map_id'] at this⟩

end Erase

/-! ### The integers -/

/-- `icmp` on signed integers, by its predicate's code in `CmpInst::Predicate`. -/
def icmp (pred : ℕ) (a b : ℤ) : Option Bool :=
  match pred with
  | 32 => some (a = b)
  | 33 => some (a ≠ b)
  | 38 => some (a > b)
  | 39 => some (a ≥ b)
  | 40 => some (a < b)
  | 41 => some (a ≤ b)
  | _ => none

/-- The meaning of the opcodes the benchmarks use, on unbounded signed integers: arithmetic
(`sdiv`, `srem` undefined on a zero divisor), `icmp`, `select`, and a one-index `getelementptr`,
which adds the index times the size of its source element type (the first of `attrs`). -/
def intSem (I : Inst) (vals : List ℤ) : Option ℤ :=
  match I.opcode, vals with
  | .add, [a, b] => some (a + b)
  | .sub, [a, b] => some (a - b)
  | .mul, [a, b] => some (a * b)
  | .sDiv, [a, b] => if b = 0 then none else some (a.tdiv b)
  | .sRem, [a, b] => if b = 0 then none else some (a.tmod b)
  | .iCmp, [a, b] => (icmp I.predicate a b).map fun r => if r then 1 else 0
  | .select, [c, a, b] => some (if c ≠ 0 then a else b)
  | .getElementPtr, [base, idx] => some (base + idx * (I.attrs.headD 0 : ℤ))
  | _, _ => none

end Semantics

end OptPasses
