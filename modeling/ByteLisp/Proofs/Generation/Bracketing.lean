/-
  ByteLisp: blocks bracket what they declare.

  While code is generated, what is in view of a draft is changed by a few operations. Between
  the start of a block and its end they may come in any order, with blocks within it.

  * `Draft.Op` are the operations, `Draft.perform` does one and `Draft.performAll` several;
    `Draft.Reachable` drafts are those that any operations lead to;
  * `Op.Balanced`: blocks that are entered are left; `Draft.Permits`: a variable that is taken
    out of view belongs to the current block;
  * `Draft.Holds`: what an open block has put in view lies on top of what was there before;
    `Holds.perform` keeps it, and so does `Balanced.holds`;
  * `Reachable.bracket`: a block finds all variables that remain of it at its end, and leaves
    what was in view as it was, while the lists of names in the code object have grown.
-/
import ByteLisp.Proofs.Generation.View

namespace ByteLisp

namespace Draft

/-! ## Operations -/

/-- A change of a draft. -/
inductive Op where
  | addLocal (name : String) (slot : Nat)
  | dropLatest
  | addBlockCell (name : String)
  | enterBlock
  | exitBlock
  /-- Code and constants are generated, and values come and go on the stack. -/
  | generate (offset depth : Nat) (constants : Array Value)

/-- A draft after a change. -/
def perform (d : Draft) : Op → Draft
  | .addLocal name slot => d.addLocal name slot
  | .dropLatest => d.dropLatest
  | .addBlockCell name => d.addBlockCell name
  | .enterBlock => d.enterBlock
  | .exitBlock => d.exitBlock
  | .generate offset depth constants => { d with offset, depth, constants }

/-- A draft after some changes, the first one first. -/
def performAll (d : Draft) (ops : List Op) : Draft := ops.foldl perform d

/-- What some changes of a new draft lead to, in whatever order. -/
def Reachable (d : Draft) : Prop :=
  ∃ name arity depth free own ops, d = (start name arity depth free own).performAll ops

@[simp] theorem performAll_nil (d : Draft) : d.performAll [] = d := rfl

@[simp] theorem performAll_cons (d : Draft) (op : Op) (ops : List Op) :
    d.performAll (op :: ops) = (d.perform op).performAll ops := rfl

@[simp] theorem performAll_append (d : Draft) (ops ops' : List Op) :
    d.performAll (ops ++ ops') = (d.performAll ops).performAll ops' := List.foldl_append

namespace Op

/-- Blocks that are entered are left, and no others. -/
inductive Balanced : List Op → Prop
  | nil : Balanced []
  | cons {op ops} : op ≠ .enterBlock → op ≠ .exitBlock → Balanced ops → Balanced (op :: ops)
  | block {inner ops} : Balanced inner → Balanced ops →
      Balanced (.enterBlock :: inner ++ .exitBlock :: ops)

/-- The variable that is declared in a slot, if one is. -/
def local? : Op → Option LocalName
  | .addLocal name slot => some ⟨name, slot⟩
  | _ => none

/-- The name of the cell that is declared, if one is. -/
def cell? : Op → Option String
  | .addBlockCell name => some name
  | _ => none

/-- Whether a variable is taken out of view. -/
def drops : Op → Bool
  | .dropLatest => true
  | _ => false

/-- The operations at the outermost level, given the number of blocks that are open. -/
def outermost : Nat → List Op → List Op
  | _, [] => []
  | n, .enterBlock :: ops => outermost (n + 1) ops
  | n, .exitBlock :: ops => outermost (n - 1) ops
  | 0, op :: ops => op :: outermost 0 ops
  | n + 1, _ :: ops => outermost (n + 1) ops

/-- How many variables are declared in slots at the outermost level. -/
def declared (ops : List Op) : Nat := (outermost 0 ops).countP (·.local?.isSome)

/-- How many are taken out of view there. -/
def dropped (ops : List Op) : Nat := (outermost 0 ops).countP drops

end Op

/-- The latest variable with a slot is taken out of view only if the current block declares it. -/
def Allows (d : Draft) (op : Op) : Prop :=
  op = .dropLatest → d.slots.head?.map (·.level) = some d.level

/-- All operations are allowed when their turn comes. -/
def Permits (d : Draft) : List Op → Prop
  | [] => True
  | op :: ops => d.Allows op ∧ (d.perform op).Permits ops

theorem permits_append {d : Draft} {ops ops' : List Op} :
    d.Permits (ops ++ ops') ↔ d.Permits ops ∧ (d.performAll ops).Permits ops' := by
  induction ops generalizing d with
  | nil => simp [Permits]
  | cons op ops ih => simp [Permits, ih, and_assoc]

/-! ## Levels -/

theorem leveled_start (name : String) (arity depth : Nat) (free own : Array String) :
    (start name arity depth free own).view.Leveled := by
  refine ⟨by simp [start, view], fun x hx => ?_⟩
  simp only [start, view, List.mem_reverse, List.mem_map] at hx
  obtain ⟨c, -, rfl⟩ := hx
  exact Nat.le_refl _

/-- Nothing in view is of a deeper level than the current one, whatever is done. -/
theorem leveled_perform {d : Draft} (h : d.view.Leveled) (op : Op) :
    (d.perform op).view.Leveled := by
  obtain ⟨slots, cells⟩ := h
  cases op with
  | addLocal name slot => exact ⟨List.forall_mem_cons.2 ⟨Nat.le_refl _, slots⟩, cells⟩
  | dropLatest => exact ⟨fun x hx => slots x (List.mem_of_mem_tail hx), cells⟩
  | addBlockCell name => exact ⟨slots, List.forall_mem_cons.2 ⟨Nat.le_refl _, cells⟩⟩
  | enterBlock =>
    exact ⟨fun x hx => Nat.le_succ_of_le (slots x hx), fun x hx => Nat.le_succ_of_le (cells x hx)⟩
  | exitBlock =>
    have kept {xs : List InView} {x : InView} (hx : x ∈ xs.filter (·.level < d.level)) :
        x.level ≤ d.level - 1 := by
      have := (List.mem_filter.1 hx).2
      simp only [decide_eq_true_eq] at this
      omega
    exact ⟨fun x hx => kept hx, fun x hx => kept hx⟩
  | generate offset depth constants => exact ⟨slots, cells⟩

theorem leveled_performAll {d : Draft} (h : d.view.Leveled) (ops : List Op) :
    (d.performAll ops).view.Leveled := by
  induction ops generalizing d with
  | nil => exact h
  | cons op ops ih => exact ih (leveled_perform h op)

theorem Reachable.leveled {d : Draft} (h : d.Reachable) : d.view.Leveled := by
  obtain ⟨name, arity, depth, free, own, ops, rfl⟩ := h
  exact leveled_performAll (leveled_start ..) ops

/-! ## An open block -/

/-- All that is in view comes from around the current block, which has declared nothing yet. -/
structure AtStart (d : Draft) : Prop where
  slots : ∀ x ∈ d.slots, x.level < d.level
  cells : ∀ x ∈ d.cells, x.level < d.level

theorem atStart_enterBlock {d : Draft} (h : d.view.Leveled) : d.enterBlock.AtStart :=
  ⟨fun x hx => Nat.lt_succ_of_le (h.slots x hx), fun x hx => Nat.lt_succ_of_le (h.cells x hx)⟩

/-- A block that started with the draft `b` has put `k` variables with slots and some with cells in
    view, and nothing else has come or gone. -/
structure Holds (b : Draft) (k : Nat) (d : Draft) : Prop where
  level : d.level = b.level
  slots : ∃ own, d.slots = own ++ b.slots ∧ own.length = k ∧ ∀ x ∈ own, x.level = b.level
  cells : ∃ own, d.cells = own ++ b.cells ∧ ∀ x ∈ own, x.level = b.level

variable {b d d' : Draft} {k : Nat} {op : Op} {inner ops : List Op}

theorem Holds.refl (b : Draft) : b.Holds 0 b := ⟨rfl, ⟨[], rfl, rfl, by simp⟩, [], rfl, by simp⟩

theorem Holds.of_view (h : b.Holds k d) (hl : d'.level = d.level) (hs : d'.slots = d.slots)
    (hc : d'.cells = d.cells) : b.Holds k d' :=
  ⟨hl.trans h.level, hs ▸ h.slots, hc ▸ h.cells⟩

theorem Holds.leveled (hb : b.AtStart) (h : b.Holds k d) : d.view.Leveled := by
  obtain ⟨hlevel, ⟨own, hslots, -, hown⟩, own', hcells, hown'⟩ := h
  have below {own around : List InView} (hown : ∀ x ∈ own, x.level = b.level)
      (haround : ∀ x ∈ around, x.level < b.level) : ∀ x ∈ own ++ around, x.level ≤ d.level := by
    intro x hx
    rw [hlevel]
    rcases List.mem_append.1 hx with hx | hx
    · exact Nat.le_of_eq (hown x hx)
    · exact Nat.le_of_lt (haround x hx)
  constructor
  · intro x hx
    exact below hown hb.slots x (hslots ▸ hx)
  · intro x hx
    exact below hown' hb.cells x (hcells ▸ hx)

/-- An operation in a block, blocks within it apart. -/
theorem Holds.perform (hb : b.AtStart) (h : b.Holds k d) (henter : op ≠ .enterBlock)
    (hexit : op ≠ .exitBlock) (ha : d.Allows op) :
    ∃ k', k' + [op].countP Op.drops = k + [op].countP (·.local?.isSome) ∧
      b.Holds k' (d.perform op) := by
  obtain ⟨hlevel, ⟨own, hslots, hk, hown⟩, own', hcells, hown'⟩ := h
  cases op with
  | addLocal name slot =>
    refine ⟨k + 1, rfl, hlevel, ⟨⟨name, slot, d.level⟩ :: own, ?_, by simp [hk], ?_⟩, own', hcells,
      hown'⟩
    · simp [Draft.perform, addLocal, hslots]
    · exact List.forall_mem_cons.2 ⟨hlevel, hown⟩
  | dropLatest =>
    cases own with
    | nil =>
      -- The latest variable would be of a block around, and those stay.
      obtain ⟨x, hx, hxl⟩ := Option.map_eq_some_iff.1 (ha rfl)
      rw [hslots] at hx
      have := hb.slots x (List.mem_of_head? hx)
      omega
    | cons x own =>
      have hcount : own.length + [Op.dropLatest].countP Op.drops = k := by
        simpa [Op.drops] using hk
      refine ⟨own.length, hcount, hlevel, ⟨own, ?_, rfl, ?_⟩, own', hcells, hown'⟩
      · simp [Draft.perform, dropLatest, hslots]
      · exact fun y hy => hown y (List.mem_cons_of_mem x hy)
  | addBlockCell name =>
    refine ⟨k, rfl, hlevel, ⟨own, hslots, hk, hown⟩,
      ⟨name, d.free.size + d.own.size, d.level⟩ :: own', ?_, ?_⟩
    · simp [Draft.perform, addBlockCell, hcells]
    · exact List.forall_mem_cons.2 ⟨hlevel, hown'⟩
  | enterBlock => exact absurd rfl henter
  | exitBlock => exact absurd rfl hexit
  | generate offset depth constants =>
    exact ⟨k, rfl, hlevel, ⟨own, hslots, hk, hown⟩, own', hcells, hown'⟩

/-- At the end of a block its variables with slots are counted, and all of its variables go out of
    view. -/
theorem Holds.exitBlock (hb : b.AtStart) (h : b.Holds k d) :
    d.blockLocals = k ∧ d.exitBlock.slots = b.slots ∧ d.exitBlock.cells = b.cells := by
  obtain ⟨hlevel, ⟨own, hslots, hk, hown⟩, own', hcells, hown'⟩ := h
  have keep {xs : List InView} (h : ∀ x ∈ xs, x.level < b.level) :
      xs.filter (·.level < b.level) = xs := by
    simpa [List.filter_eq_self] using h
  have drop {xs : List InView} (h : ∀ x ∈ xs, x.level = b.level) :
      xs.filter (·.level < b.level) = [] := by
    rw [List.filter_eq_nil_iff]
    intro x hx
    simp [h x hx]
  refine ⟨?_, ?_, ?_⟩
  · have around : b.slots.countP (·.level = b.level) = 0 := by
      rw [List.countP_eq_zero]
      intro x hx
      have := hb.slots x hx
      simp
      omega
    have inside : own.countP (·.level = b.level) = k := by
      rw [← hk, List.countP_eq_length]
      intro x hx
      simpa using hown x hx
    rw [blockLocals, hlevel, hslots, List.countP_append, around, inside, Nat.add_zero]
  · simp [Draft.exitBlock, hlevel, hslots, List.filter_append, keep hb.slots, drop hown]
  · simp [Draft.exitBlock, hlevel, hcells, List.filter_append, keep hb.cells, drop hown']

/-! ## Blocks within a block -/

namespace Op

theorem Balanced.outermost_append (h : Balanced inner) (n : Nat) (ops : List Op) :
    outermost (n + 1) (inner ++ ops) = outermost (n + 1) ops := by
  induction h generalizing n ops with
  | nil => rfl
  | @cons op inner henter hexit _ ih =>
    cases op with
    | enterBlock => exact absurd rfl henter
    | exitBlock => exact absurd rfl hexit
    | _ => exact ih n ops
  | @block inner rest _ _ ih ih' =>
    have := ih (n + 1) (.exitBlock :: rest ++ ops)
    simp only [List.cons_append, List.append_assoc, outermost] at this ⊢
    rw [this]
    exact ih' n ops

theorem Balanced.outermost_block (h : Balanced inner) (ops : List Op) :
    outermost 0 (.enterBlock :: inner ++ .exitBlock :: ops) = outermost 0 ops := by
  rw [List.cons_append, outermost, h.outermost_append]
  rfl

theorem outermost_cons (henter : op ≠ .enterBlock) (hexit : op ≠ .exitBlock) :
    outermost 0 (op :: ops) = op :: outermost 0 ops := by
  cases op with
  | enterBlock => exact absurd rfl henter
  | exitBlock => exact absurd rfl hexit
  | _ => rfl

end Op

/-- The operations in a block keep what was in view before, and leave in view of the block what it
    has declared and not dropped. -/
theorem Op.Balanced.holds (h : Op.Balanced ops) (hb : b.AtStart) (hd : b.Holds k d)
    (hp : d.Permits ops) :
    ∃ k', k' + Op.dropped ops = k + Op.declared ops ∧ b.Holds k' (d.performAll ops) := by
  induction h generalizing b d k with
  | nil => exact ⟨k, rfl, hd⟩
  | @cons op ops henter hexit _ ih =>
    obtain ⟨ha, hp⟩ := hp
    obtain ⟨k₁, hk₁, h₁⟩ := hd.perform hb henter hexit ha
    obtain ⟨k₂, hk₂, h₂⟩ := ih hb h₁ hp
    refine ⟨k₂, ?_, h₂⟩
    rw [Op.dropped, Op.declared] at hk₂ ⊢
    rw [Op.outermost_cons henter hexit, ← List.singleton_append, List.countP_append,
      List.countP_append]
    omega
  | @block inner ops hinner _ ih ih' =>
    have leveled := hd.leveled hb
    have hp : d.enterBlock.Permits (inner ++ .exitBlock :: ops) := hp.2
    rw [permits_append] at hp
    obtain ⟨hpi, -, hpo⟩ := hp
    obtain ⟨k₁, -, h₁⟩ := ih (atStart_enterBlock leveled) (.refl _) hpi
    obtain ⟨-, hslots, hcells⟩ := h₁.exitBlock (atStart_enterBlock leveled)
    have hlevel : (d.enterBlock.performAll inner).exitBlock.level = d.level := by
      rw [Draft.exitBlock, h₁.level]
      rfl
    have h₂ : b.Holds k (d.enterBlock.performAll inner).exitBlock :=
      hd.of_view hlevel hslots hcells
    obtain ⟨k₃, hk₃, h₃⟩ := ih' hb h₂ hpo
    refine ⟨k₃, ?_, ?_⟩
    · rwa [Op.dropped, Op.declared, hinner.outermost_block]
    · simpa [Draft.perform] using h₃

/-! ## Names -/

/-- The lists of names in the code object only grow, by the variables that are declared. -/
theorem names_performAll (d : Draft) (ops : List Op) :
    (d.performAll ops).locals = d.locals ++ (ops.filterMap Op.local?).toArray ∧
      (d.performAll ops).free = d.free ∧
      (d.performAll ops).own = d.own ++ (ops.filterMap Op.cell?).toArray := by
  induction ops generalizing d with
  | nil => simp
  | cons op ops ih =>
    obtain ⟨hlocals, hfree, hown⟩ := ih (d.perform op)
    rw [performAll_cons, hlocals, hfree, hown]
    cases op <;> simp [perform, addLocal, dropLatest, addBlockCell, enterBlock, exitBlock,
      List.filterMap_cons, Op.local?, Op.cell?]

/-! ## Brackets -/

/-- Whatever is done between the start of a block and its end, the end finds the variables that the
    block has declared in slots and not dropped; then the level and what is in view are as before
    the block, and the names in the code object have grown by all that was declared. -/
theorem Reachable.bracket (hd : d.Reachable) (hb : Op.Balanced ops) (hp : d.enterBlock.Permits ops) :
    let inside := d.performAll (.enterBlock :: ops)
    let after := d.performAll (.enterBlock :: ops ++ [.exitBlock])
    inside.blockLocals + Op.dropped ops = Op.declared ops ∧
    after.level = d.level ∧ (∀ name, after.slot? name = d.slot? name) ∧
    (∀ name, after.cell? name = d.cell? name) ∧
    after.locals = d.locals ++ (ops.filterMap Op.local?).toArray ∧ after.free = d.free ∧
    after.own = d.own ++ (ops.filterMap Op.cell?).toArray := by
  intro inside after
  have start := atStart_enterBlock hd.leveled
  obtain ⟨k, hk, holds⟩ := hb.holds start (.refl _) hp
  obtain ⟨hcount, hslots, hcells⟩ := holds.exitBlock start
  have hafter : after = inside.exitBlock := by simp [after, inside, perform]
  obtain ⟨hlocals, hfree, hown⟩ := d.enterBlock.names_performAll ops
  rw [hafter]
  refine ⟨?_, ?_, fun name => ?_, fun name => ?_, hlocals, hfree, hown⟩
  · rw [← Nat.zero_add (Op.declared ops), ← hk]
    exact congrArg (· + _) hcount
  · change (d.enterBlock.performAll ops).level - 1 = d.level
    rw [holds.level]
    rfl
  · exact congrArg (fun xs => (xs.find? (·.name = name)).map InView.place) hslots
  · exact congrArg (fun xs => (xs.find? (·.name = name)).map InView.place) hcells

/-- The start of a function with a parameter `x` that captures `n`. -/
def shadowed : Draft := (start "f" 1 2 #["n"] #[]).performAll [.addLocal "f" 0, .addLocal "x" 1]

/-- A block that shadows both of them; within it are a block and a loop with a variable. -/
def shadowing : List Op :=
  [.addBlockCell "n", .addLocal "x" 2, .enterBlock, .addLocal "y" 3, .exitBlock, .addLocal "i" 3,
    .dropLatest, .addLocal "y" 3]

theorem bracket_shadowing :
    let inside := shadowed.performAll (.enterBlock :: shadowing)
    let after := shadowed.performAll (.enterBlock :: shadowing ++ [.exitBlock])
    shadowed.Reachable ∧ Op.Balanced shadowing ∧ shadowed.enterBlock.Permits shadowing ∧
      (inside.blockLocals + 1 = 3 ∧ inside.slot? "x" = some 2 ∧ inside.cell? "n" = some 1) ∧
      after.level = 0 ∧
      (∀ name, after.slot? name = shadowed.slot? name) ∧ shadowed.slot? "x" = some 1 ∧
      (∀ name, after.cell? name = shadowed.cell? name) ∧ shadowed.cell? "n" = some 0 ∧
      after.locals = #[⟨"f", 0⟩, ⟨"x", 1⟩, ⟨"x", 2⟩, ⟨"y", 3⟩, ⟨"i", 3⟩, ⟨"y", 3⟩] ∧
      after.free = #["n"] ∧ after.own = #["n"] := by
  have reachable : shadowed.Reachable := ⟨_, _, _, _, _, _, rfl⟩
  have inner : Op.Balanced [.addLocal "y" 3] := .cons nofun nofun .nil
  have rest : Op.Balanced [.addLocal "i" 3, .dropLatest, .addLocal "y" 3] :=
    .cons nofun nofun (.cons nofun nofun (.cons nofun nofun .nil))
  have balanced : Op.Balanced shadowing :=
    .cons nofun nofun (.cons nofun nofun (.block inner rest))
  have permits : shadowed.enterBlock.Permits shadowing :=
    ⟨nofun, nofun, nofun, nofun, nofun, nofun, fun _ => rfl, nofun, trivial⟩
  obtain ⟨count, level, slots, cells, locals, free, own⟩ := reachable.bracket balanced permits
  exact ⟨reachable, balanced, permits, ⟨count, rfl, rfl⟩, level, slots, rfl, cells, rfl, locals,
    free, own⟩

end Draft

end ByteLisp
