/-
**The host's dominator tree, and the dominance queries the passes make of it.**

`RedundancyAnalysis::run` walks `depth_first(DT.getRootNode())` and asks
`DT.dominates(Candidate, QueryPoint)` for instructions; SSA well-formedness asks the use form
`DT.dominates(Def, U)`.  The dominator tree is supplied by the host (`DominatorTreeAnalysis`), so
it is modelled as what the passes can observe of it: the blocks reachable from the entry in
depth-first preorder, each with its depth in the tree (`DomTreeNode::getLevel`).  A block
dominates another exactly when the second lies in the first's subtree, which in a preorder with
depths means: it comes at or after the first, and every node in between is deeper.

Main definitions:

* `OptPasses.DominatorTree` — the tree, as a preorder of `(block, level)` pairs;
* `OptPasses.DominatorTree.dominatesBlock` — block dominance;
* `OptPasses.DominatorTree.dominates` — `DominatorTree::dominates(const Instruction *, const
  Instruction *)`;
* `OptPasses.DominatorTree.dominatesUse` — `DominatorTree::dominates(const Value *, const Use &)`,
  for an instruction used as the `k`-th operand of another.

Main results:

* `OptPasses.DominatorTree.dominatesBlock_refl`, `OptPasses.DominatorTree.dominatesBlock_trans`,
  `OptPasses.DominatorTree.dominatesBlock_antisymm` — block dominance is a partial order on the
  reachable blocks;
* `OptPasses.DominatorTree.dominatesBlock_total` — the dominators of a block are totally ordered;
* `OptPasses.DominatorTree.pos_lt_of_dominatesBlock` — a dominator comes first in the preorder,
  which is why `RedundancyAnalysis::run` walks it;
* `OptPasses.DominatorTree.dominates_trans`, `OptPasses.DominatorTree.dominates_total` —
  instruction dominance is transitive, and two dominators of one instruction (neither an
  `invoke`, a `callbr` nor a PHI) are ordered by it;
* `OptPasses.DominatorTree.dominatesUse_of_dominates` — **if `p` dominates `r` and `r` dominates
  a use, then `p` dominates that use**, PHI uses included.  This is the fact that makes redirecting
  the uses of a redundant instruction to its dominating replacement keep SSA form;
* `OptPasses.DominatorTree.wellFormed_mapOperands`, `OptPasses.DominatorTree.wellFormed_filterInsts`
  — replacing operands by constants and erasing unused instructions keep SSA form.
-/

import OptPasses.IR

set_option relaxedAutoImplicit false
set_option autoImplicit false

namespace OptPasses

/-- The dominator tree of the blocks reachable from the entry: each block with its depth
(`DomTreeNode::getLevel`), in the order `depth_first(DT.getRootNode())` visits them. -/
structure DominatorTree where
  nodes : List (ℕ × ℕ)
  nodup : (nodes.map Prod.fst).Nodup

namespace DominatorTree

variable (DT : DominatorTree)

/-- The blocks, in depth-first preorder. -/
def preorder : List ℕ := DT.nodes.map Prod.fst

/-- `DominatorTree::isReachableFromEntry`. -/
def isReachableFromEntry (b : ℕ) : Bool := b ∈ DT.preorder

/-- The place of a block in the preorder. -/
def pos (b : ℕ) : ℕ := DT.preorder.indexOf b

/-- The depth of the node at place `i`. -/
def level (i : ℕ) : ℕ := (DT.nodes.getD i (0, 0)).2

/-- `DominatorTree::dominates(const BasicBlock *, const BasicBlock *)` on reachable blocks: `b`
lies in the subtree of `a`. -/
def dominatesBlock (a b : ℕ) : Bool :=
  DT.isReachableFromEntry a && DT.isReachableFromEntry b && decide (DT.pos a ≤ DT.pos b) &&
    (List.range' (DT.pos a + 1) (DT.pos b - DT.pos a)).all fun k => DT.level (DT.pos a) < DT.level k

/-- The block in which the `k`-th operand of `u` is used: a PHI uses its `k`-th incoming value at
the end of its `k`-th incoming block. -/
def useBlock? (F : Function) (u : Inst) (k : ℕ) : Option ℕ :=
  if u.isPhi then u.blocks[k]? else F.blockOf? u.id

/-- `DominatorTree::dominates(const Instruction *Def, const Instruction *User)`.  The host's
special case for an `invoke` definition (dominance of its normal edge) is approximated by the
PHI-user case; no caller in this repository asks about an `invoke`. -/
def dominates (F : Function) (d u : Inst) : Bool :=
  match F.blockOf? d.id, F.blockOf? u.id with
  | some db, some ub =>
      if !DT.isReachableFromEntry ub then true
      else if !DT.isReachableFromEntry db then false
      else if d.id = u.id then false
      else if d.opcode = .invoke || d.opcode = .callBr || u.isPhi then
        decide (db ≠ ub) && DT.dominatesBlock db ub
      else if db ≠ ub then DT.dominatesBlock db ub
      else F.comesBefore d.id u.id
  | _, _ => false

/-- `DominatorTree::dominates(const Value *Def, const Use &U)` for the instruction `d` used as the
`k`-th operand of `u`. -/
def dominatesUse (F : Function) (d u : Inst) (k : ℕ) : Bool :=
  match F.blockOf? d.id, useBlock? F u k with
  | some db, some ub =>
      if !DT.isReachableFromEntry ub then true
      else if !DT.isReachableFromEntry db then false
      else if db ≠ ub then DT.dominatesBlock db ub
      else u.isPhi || F.comesBefore d.id u.id
  | _, _ => false

variable {DT}

/-! ### Block dominance is a partial order, compatible with the preorder -/

theorem dominatesBlock_iff {a b : ℕ} :
    DT.dominatesBlock a b ↔ a ∈ DT.preorder ∧ b ∈ DT.preorder ∧ DT.pos a ≤ DT.pos b ∧
      ∀ k, DT.pos a < k → k ≤ DT.pos b → DT.level (DT.pos a) < DT.level k := by
  simp only [dominatesBlock, isReachableFromEntry, Bool.and_eq_true, decide_eq_true_eq,
    List.all_eq_true, List.mem_range'_1]
  constructor
  · rintro ⟨⟨⟨ha, hb⟩, hab⟩, h⟩
    exact ⟨ha, hb, hab, fun k h₁ h₂ => h k ⟨h₁, by omega⟩⟩
  · rintro ⟨ha, hb, hab, h⟩
    exact ⟨⟨⟨ha, hb⟩, hab⟩, fun k hk => h k hk.1 (by omega)⟩

theorem dominatesBlock_refl {a : ℕ} (h : a ∈ DT.preorder) : DT.dominatesBlock a a :=
  dominatesBlock_iff.2 ⟨h, h, le_rfl, fun _ h₁ h₂ => absurd h₂ (by omega)⟩

theorem dominatesBlock_trans {a b c : ℕ} (hab : DT.dominatesBlock a b)
    (hbc : DT.dominatesBlock b c) : DT.dominatesBlock a c := by
  obtain ⟨ha, -, h₁, l₁⟩ := dominatesBlock_iff.1 hab
  obtain ⟨-, hc, h₂, l₂⟩ := dominatesBlock_iff.1 hbc
  refine dominatesBlock_iff.2 ⟨ha, hc, h₁.trans h₂, fun k hk₁ hk₂ => ?_⟩
  by_cases hk : k ≤ DT.pos b
  · exact l₁ k hk₁ hk
  · have hb : DT.level (DT.pos a) ≤ DT.level (DT.pos b) := by
      rcases Nat.lt_or_eq_of_le h₁ with h | h
      · exact (l₁ _ h le_rfl).le
      · rw [h]
    exact lt_of_le_of_lt hb (l₂ k (by omega) hk₂)

theorem pos_inj {a b : ℕ} (ha : a ∈ DT.preorder) (hb : b ∈ DT.preorder) (h : DT.pos a = DT.pos b) :
    a = b :=
  (List.indexOf_inj ha hb).1 h

theorem dominatesBlock_antisymm {a b : ℕ} (hab : DT.dominatesBlock a b)
    (hba : DT.dominatesBlock b a) : a = b := by
  obtain ⟨ha, hb, h₁, -⟩ := dominatesBlock_iff.1 hab
  exact pos_inj ha hb (le_antisymm h₁ (dominatesBlock_iff.1 hba).2.2.1)

/-- The dominators of a block are totally ordered by dominance. -/
theorem dominatesBlock_total {a b c : ℕ} (hac : DT.dominatesBlock a c)
    (hbc : DT.dominatesBlock b c) : DT.dominatesBlock a b ∨ DT.dominatesBlock b a := by
  obtain ⟨ha, -, hac, la⟩ := dominatesBlock_iff.1 hac
  obtain ⟨hb, -, hbc, lb⟩ := dominatesBlock_iff.1 hbc
  rcases le_total (DT.pos a) (DT.pos b) with h | h
  · exact .inl (dominatesBlock_iff.2 ⟨ha, hb, h, fun k h₁ h₂ => la k h₁ (h₂.trans hbc)⟩)
  · exact .inr (dominatesBlock_iff.2 ⟨hb, ha, h, fun k h₁ h₂ => lb k h₁ (h₂.trans hac)⟩)

/-- **A dominator comes first in the preorder.** -/
theorem pos_lt_of_dominatesBlock {a b : ℕ} (h : DT.dominatesBlock a b) (hne : a ≠ b) :
    DT.pos a < DT.pos b := by
  obtain ⟨ha, hb, h₁, -⟩ := dominatesBlock_iff.1 h
  exact lt_of_le_of_ne h₁ fun e => hne (pos_inj ha hb e)

theorem pairwise_indexOf_lt :
    ∀ {l : List ℕ}, l.Nodup → l.Pairwise fun a b => l.indexOf a < l.indexOf b
  | [], _ => List.Pairwise.nil
  | c :: cs, hnd => by
      obtain ⟨hc, hcs⟩ := List.nodup_cons.1 hnd
      have hne : ∀ b ∈ cs, c ≠ b := fun b hb e => hc (e ▸ hb)
      refine List.pairwise_cons.2 ⟨fun b hb => ?_,
        (pairwise_indexOf_lt hcs).imp_of_mem fun ha hb h => ?_⟩
      · simp [List.indexOf_cons_self, List.indexOf_cons_ne _ (hne b hb)]
      · simpa [List.indexOf_cons_ne _ (hne _ ha), List.indexOf_cons_ne _ (hne _ hb)] using h

variable (DT) in
/-- The preorder meets each block at its own place, in increasing order. -/
theorem preorder_pairwise : DT.preorder.Pairwise fun a b => DT.pos a < DT.pos b :=
  pairwise_indexOf_lt DT.nodup

/-! ### Instruction and use dominance -/

variable {F : Function} {d u : Inst} {db ub : ℕ}

/-- What `dominates d u` says once `u`'s block is known to be reachable: `d` is another
instruction, in a reachable block that dominates `u`'s; in `u`'s own block only if `d` is no
`invoke`/`callbr` and `u` no PHI, and then before `u`. -/
theorem dominates_iff (hd : F.blockOf? d.id = some db) (hu : F.blockOf? u.id = some ub)
    (hub : ub ∈ DT.preorder) :
    DT.dominates F d u ↔ db ∈ DT.preorder ∧ d.id ≠ u.id ∧ (db ≠ ub → DT.dominatesBlock db ub) ∧
      (db = ub → (d.opcode = .invoke || d.opcode = .callBr || u.isPhi) = false ∧
        F.comesBefore d.id u.id) := by
  by_cases hdb : db ∈ DT.preorder
  · by_cases hid : d.id = u.id
    · simp [dominates, hd, hu, isReachableFromEntry, hub, hdb, hid]
    · by_cases he : db = ub
      · subst he
        cases hs : (d.opcode = .invoke || d.opcode = .callBr || u.isPhi) <;>
          simp [dominates, hd, hu, isReachableFromEntry, hdb, hid, hs]
      · cases hs : (d.opcode = .invoke || d.opcode = .callBr || u.isPhi) <;>
          simp [dominates, hd, hu, isReachableFromEntry, hub, hdb, hid, he, hs]
  · simp [dominates, hd, hu, isReachableFromEntry, hub, hdb]

/-- What `dominates d u` says once `u`'s block is known to be reachable, whatever the opcodes. -/
theorem dominates_spec (hd : F.blockOf? d.id = some db) (hu : F.blockOf? u.id = some ub)
    (hub : ub ∈ DT.preorder) (h : DT.dominates F d u) :
    db ∈ DT.preorder ∧ d.id ≠ u.id ∧ (db ≠ ub → DT.dominatesBlock db ub) ∧
      (db = ub → F.comesBefore d.id u.id) :=
  let ⟨h₁, h₂, h₃, h₄⟩ := (dominates_iff hd hu hub).1 h
  ⟨h₁, h₂, h₃, fun e => (h₄ e).2⟩

theorem exists_blockOf_of_dominates (h : DT.dominates F d u) : ∃ db, F.blockOf? d.id = some db := by
  cases hd : F.blockOf? d.id with
  | none => simp [dominates, hd] at h
  | some db => exact ⟨db, rfl⟩

/-- **Instruction dominance is transitive** towards an instruction of a reachable block. -/
theorem dominates_trans {p r : Inst} (hu : F.blockOf? u.id = some ub) (hub : ub ∈ DT.preorder)
    (hpr : DT.dominates F p r) (hru : DT.dominates F r u) : DT.dominates F p u := by
  obtain ⟨rb, hr⟩ := exists_blockOf_of_dominates hru
  obtain ⟨pb, hp⟩ := exists_blockOf_of_dominates hpr
  obtain ⟨hrb, -, hru₁, hru₂⟩ := (dominates_iff hr hu hub).1 hru
  obtain ⟨hpb, -, hpr₁, hpr₂⟩ := (dominates_iff hp hr hrb).1 hpr
  have hblock : pb ≠ ub → DT.dominatesBlock pb ub := fun hne => by
    by_cases h₁ : pb = rb
    · exact h₁ ▸ hru₁ (h₁ ▸ hne)
    · by_cases h₂ : rb = ub
      · exact h₂ ▸ hpr₁ h₁
      · exact dominatesBlock_trans (hpr₁ h₁) (hru₁ h₂)
  -- `p` stands in `u`'s block only if `r` does too: blocks do not dominate each other
  have hsame : pb = ub → pb = rb ∧ rb = ub := fun e => by
    by_cases h : rb = ub
    · exact ⟨e.trans h.symm, h⟩
    · have h' : pb ≠ rb := fun e' => h (e'.symm.trans e)
      exact absurd (dominatesBlock_antisymm (hpr₁ h') (e ▸ hru₁ h)) h'
  refine (dominates_iff hp hu hub).2 ⟨hpb, fun e => ?_, hblock, fun e => ?_⟩
  · obtain ⟨rfl, rfl⟩ := hsame (Option.some.inj (hp.symm.trans (e ▸ hu)))
    simpa [F.comesBefore_irrefl, e] using F.comesBefore_trans (hpr₂ rfl).2 (hru₂ rfl).2
  · obtain ⟨rfl, rfl⟩ := hsame e
    obtain ⟨s₁, c₁⟩ := hpr₂ rfl
    obtain ⟨s₂, c₂⟩ := hru₂ rfl
    simp only [Bool.or_eq_false_iff] at s₁ s₂ ⊢
    exact ⟨⟨s₁.1, s₂.2⟩, F.comesBefore_trans c₁ c₂⟩

/-- **Two dominators of an instruction in a reachable block are ordered by dominance**, when
neither is an `invoke`, a `callbr` or a PHI. -/
theorem dominates_total {p q : Inst} (hp : p ∈ F.insts) (hq : q ∈ F.insts)
    (hpo : (p.opcode = .invoke || p.opcode = .callBr || p.isPhi) = false)
    (hqo : (q.opcode = .invoke || q.opcode = .callBr || q.isPhi) = false)
    (hu : F.blockOf? u.id = some ub) (hub : ub ∈ DT.preorder)
    (hpu : DT.dominates F p u) (hqu : DT.dominates F q u) :
    p = q ∨ DT.dominates F p q ∨ DT.dominates F q p := by
  obtain ⟨pb, hpb⟩ := exists_blockOf_of_dominates hpu
  obtain ⟨qb, hqb⟩ := exists_blockOf_of_dominates hqu
  obtain ⟨hp₁, -, hp₂, -⟩ := (dominates_iff hpb hu hub).1 hpu
  obtain ⟨hq₁, -, hq₂, -⟩ := (dominates_iff hqb hu hub).1 hqu
  by_cases hid : p.id = q.id
  · exact .inl (F.eq_of_id_eq hp hq hid)
  simp only [Bool.or_eq_false_iff] at hpo hqo
  have spq : (p.opcode = .invoke || p.opcode = .callBr || q.isPhi) = false := by
    simp only [Bool.or_eq_false_iff]; exact ⟨hpo.1, hqo.2⟩
  have sqp : (q.opcode = .invoke || q.opcode = .callBr || p.isPhi) = false := by
    simp only [Bool.or_eq_false_iff]; exact ⟨hqo.1, hpo.2⟩
  right
  by_cases he : pb = qb
  · -- one block: the order of the block
    subst he
    rcases F.comesBefore_total hp hq (hpb.trans hqb.symm) hid with h | h
    · exact .inl ((dominates_iff hpb hqb hp₁).2 ⟨hp₁, hid, fun h' => absurd rfl h', fun _ => ⟨spq, h⟩⟩)
    · exact .inr ((dominates_iff hqb hpb hp₁).2
        ⟨hp₁, Ne.symm hid, fun h' => absurd rfl h', fun _ => ⟨sqp, h⟩⟩)
  · -- two blocks, both dominating `u`'s
    have hblocks : DT.dominatesBlock pb qb ∨ DT.dominatesBlock qb pb := by
      by_cases h₁ : pb = ub
      · exact .inr (h₁ ▸ hq₂ (h₁ ▸ Ne.symm he))
      · by_cases h₂ : qb = ub
        · exact .inl (h₂ ▸ hp₂ (h₂ ▸ he))
        · exact dominatesBlock_total (hp₂ h₁) (hq₂ h₂)
    rcases hblocks with h | h
    · exact .inl ((dominates_iff hpb hqb hq₁).2 ⟨hp₁, hid, fun _ => h, fun e => absurd e he⟩)
    · exact .inr ((dominates_iff hqb hpb hp₁).2
        ⟨hq₁, Ne.symm hid, fun _ => h, fun e => absurd e.symm he⟩)

/-- What `dominatesUse d u k` says, once the blocks are known. -/
theorem dominatesUse_iff (hd : F.blockOf? d.id = some db) {k : ℕ}
    (hu : DominatorTree.useBlock? F u k = some ub) :
    DT.dominatesUse F d u k ↔ ub ∉ DT.preorder ∨ (db ∈ DT.preorder ∧
      (db ≠ ub → DT.dominatesBlock db ub) ∧ (db = ub → u.isPhi ∨ F.comesBefore d.id u.id)) := by
  simp only [dominatesUse, hd, hu, isReachableFromEntry]
  by_cases hub : ub ∈ DT.preorder
  · by_cases hdb : db ∈ DT.preorder
    · by_cases hne : db = ub
      · simp [hub, hdb, hne]
      · simp [hub, hdb, hne]
    · simp [hub, hdb]
  · simp [hub]

/-- **Dominance composes through a use.**  If `p` dominates `r`, whose block is reachable, then
`p` dominates every use `r` dominates. -/
theorem dominatesUse_of_dominates {p r : Inst} {k : ℕ} {rb : ℕ}
    (hr : F.blockOf? r.id = some rb) (hrb : rb ∈ DT.preorder)
    (hpr : DT.dominates F p r) (hru : DT.dominatesUse F r u k) : DT.dominatesUse F p u k := by
  obtain ⟨pb, hp⟩ : ∃ pb, F.blockOf? p.id = some pb := by
    cases h : F.blockOf? p.id with
    | none => simp [dominates, h] at hpr
    | some pb => exact ⟨pb, rfl⟩
  obtain ⟨ub, hu⟩ : ∃ ub, DominatorTree.useBlock? F u k = some ub := by
    cases h : DominatorTree.useBlock? F u k with
    | none => simp [dominatesUse, hr, h] at hru
    | some ub => exact ⟨ub, rfl⟩
  obtain ⟨hpb, -, hpr₁, hpr₂⟩ := dominates_spec hp hr hrb hpr
  rcases (dominatesUse_iff hr hu).1 hru with hub | ⟨-, hru₁, hru₂⟩
  · exact (dominatesUse_iff hp hu).2 (.inl hub)
  refine (dominatesUse_iff hp hu).2 (.inr ⟨hpb, fun hne => ?_, fun heq => ?_⟩)
  · by_cases h₁ : pb = rb
    · subst h₁; exact hru₁ hne
    · by_cases h₂ : rb = ub
      · subst h₂; exact hpr₁ h₁
      · exact dominatesBlock_trans (hpr₁ h₁) (hru₁ h₂)
  · subst heq
    by_cases h₁ : pb = rb
    · subst h₁
      exact (hru₂ rfl).imp_right (F.comesBefore_trans (hpr₂ rfl))
    · exact absurd (dominatesBlock_antisymm (hpr₁ h₁) (hru₁ (Ne.symm h₁))) h₁

/-! ### SSA form -/

variable (DT)

/-- The `k`-th operand of `U` is a use SSA form allows: if it names an instruction, that
instruction belongs to the function and dominates the use. -/
def useWellFormed (F : Function) (U : Inst) (k : ℕ) : Bool :=
  match U.operands[k]? with
  | some (.inst d) => F.insts.any fun D => D.id = d && DT.dominatesUse F D U k
  | _ => true

/-- SSA form (`I1`–`I3`): every operand naming an instruction names one of the function whose
definition dominates the use — a PHI operand at the end of its incoming block. -/
def WellFormed (F : Function) : Prop :=
  ∀ U ∈ F.insts, ∀ k < U.operands.length, DT.useWellFormed F U k

instance (F : Function) : Decidable (DT.WellFormed F) :=
  inferInstanceAs (Decidable (∀ U ∈ F.insts, ∀ k < U.operands.length, DT.useWellFormed F U k))

variable {DT}

theorem useWellFormed_iff {F : Function} {U : Inst} {k d : ℕ}
    (h : U.operands[k]? = some (.inst d)) :
    DT.useWellFormed F U k ↔ ∃ D ∈ F.insts, D.id = d ∧ DT.dominatesUse F D U k := by
  simp [useWellFormed, h]

theorem useWellFormed_of_not_inst {F : Function} {U : Inst} {k : ℕ}
    (h : ∀ d, U.operands[k]? ≠ some (.inst d)) : DT.useWellFormed F U k := by
  unfold useWellFormed
  split
  · exact absurd ‹_› (h _)
  · rfl

/-- Use dominance reads only the handles, the blocks and the order of the two instructions. -/
theorem dominatesUse_congr {F G : Function} {d d' u u' : Inst} {k : ℕ}
    (hd : d'.id = d.id) (hu : u'.id = u.id) (hphi : u'.isPhi = u.isPhi)
    (hb : u'.blocks = u.blocks) (hdb : G.blockOf? d.id = F.blockOf? d.id)
    (hub : G.blockOf? u.id = F.blockOf? u.id)
    (hc : G.comesBefore d.id u.id = F.comesBefore d.id u.id) :
    DT.dominatesUse G d' u' k = DT.dominatesUse F d u k := by
  simp only [dominatesUse, useBlock?, hd, hu, hphi, hb, hdb, hub, hc]

/-- **Rewriting operands keeps SSA form** when each operand is left alone or becomes one that
names no instruction. -/
theorem wellFormed_mapOperands {F : Function} (hF : DT.WellFormed F) (f : Value → Value)
    (hf : ∀ v, f v = v ∨ ∀ d, f v ≠ .inst d) :
    DT.WellFormed (F.mapInsts (Inst.mapOperands f) fun _ => rfl) := by
  intro U' hU' k hk
  rw [Function.insts_mapInsts] at hU'
  obtain ⟨U, hU, rfl⟩ := List.mem_map.1 hU'
  have hk' : k < U.operands.length := by simpa using hk
  have hop : (U.mapOperands f).operands[k]? = some (f U.operands[k]) := by simp [hk']
  rcases hf U.operands[k] with he | hne
  · cases hv : U.operands[k] with
    | inst d =>
        obtain ⟨D, hD, rfl, hdom⟩ := (useWellFormed_iff (d := d)
          (by rw [List.getElem?_eq_getElem hk', hv])).1 (hF U hU k hk')
        rw [he, hv] at hop
        refine (useWellFormed_iff hop).2 ⟨D.mapOperands f, ?_, rfl, ?_⟩
        · rw [Function.insts_mapInsts]; exact List.mem_map_of_mem _ hD
        · rw [dominatesUse_congr rfl rfl rfl rfl (Function.blockOf?_mapInsts (F := F) _ _ _)
            (Function.blockOf?_mapInsts _ _ _) (Function.comesBefore_mapInsts _ _ _ _)]
          exact hdom
    | arg _ | const _ _ =>
        exact useWellFormed_of_not_inst fun d h => by rw [hop, he, hv] at h; cases h
  · exact useWellFormed_of_not_inst fun d h => hne d (Option.some.inj (hop.symm.trans h))

/-- **Erasing instructions keeps SSA form** when no instruction left uses one erased. -/
theorem wellFormed_filterInsts {F : Function} (hF : DT.WellFormed F) (p : Inst → Bool)
    (hp : ∀ U ∈ F.insts, p U → ∀ D ∈ F.insts, Value.inst D.id ∈ U.operands → p D) :
    DT.WellFormed (F.filterInsts p) := by
  intro U hU k hk
  rw [Function.insts_filterInsts, List.mem_filter] at hU
  obtain ⟨hU, hpU⟩ := hU
  cases hv : U.operands[k] with
  | inst d =>
      have hop : U.operands[k]? = some (.inst d) := by rw [List.getElem?_eq_getElem hk, hv]
      obtain ⟨D, hD, rfl, hdom⟩ := (useWellFormed_iff hop).1 (hF U hU k hk)
      have hpD := hp U hU hpU D hD (hv ▸ List.getElem_mem hk)
      refine (useWellFormed_iff hop).2 ⟨D, ?_, rfl, ?_⟩
      · rw [Function.insts_filterInsts]; exact List.mem_filter.2 ⟨hD, hpD⟩
      · rw [dominatesUse_congr rfl rfl rfl rfl (Function.blockOf?_filterInsts hD hpD)
          (Function.blockOf?_filterInsts hU hpU) (Function.comesBefore_filterInsts fun I hI h =>
            h.elim (fun e => F.eq_of_id_eq hI hD e ▸ hpD) fun e => F.eq_of_id_eq hI hU e ▸ hpU)]
        exact hdom
  | arg i =>
      exact useWellFormed_of_not_inst fun d h => by
        rw [List.getElem?_eq_getElem hk, hv] at h; cases h
  | const t c =>
      exact useWellFormed_of_not_inst fun d h => by
        rw [List.getElem?_eq_getElem hk, hv] at h; cases h

end DominatorTree

end OptPasses
