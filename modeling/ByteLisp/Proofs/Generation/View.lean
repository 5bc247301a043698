/-
  ByteLisp: what a draft sees at a point of the code.

  A view is the part of a draft that follows the nesting of blocks: the depth of
  the stack, the level, and the variables in view.

  * `View` and `Draft.view`; `View.push` and `View.bind` put a value and a
    variable on the stack, `View.enter` enters a block with its cells;
  * `View.Leveled`: no variable in view is of a deeper level;
    `View.Valid` also bounds the places;
  * `View.Binds`: some variables have been declared since;
    `Draft.view_exitBlock` takes them back at the end of a block.
-/
import ByteLisp.Emit

namespace ByteLisp

/-- What is in view at a point of the code. -/
structure View where
  depth : Nat
  level : Nat
  slots : List InView
  cells : List InView
deriving Repr, DecidableEq

/-- The view of a draft. -/
def Draft.view (d : Draft) : View := ⟨d.depth, d.level, d.slots, d.cells⟩

namespace View

/-- The slot of a variable. -/
def slot? (v : View) (name : String) : Option Nat :=
  (v.slots.find? (·.name = name)).map (·.place)

/-- The cell of a variable. -/
def cell? (v : View) (name : String) : Option Nat :=
  (v.cells.find? (·.name = name)).map (·.place)

/-- The view at the start of a program: the stack holds the main function. -/
def start : View := ⟨1, 0, [], []⟩

/-- `n` more values on the stack. -/
def push (v : View) (n : Nat) : View := { v with depth := v.depth + n }

/-- One more value on the stack, which is a new variable. -/
def bind (v : View) (name : String) : View :=
  { v with depth := v.depth + 1, slots := ⟨name, v.depth, v.level⟩ :: v.slots }

/-- New cells, the first one at the place `ix`. -/
def addCells (v : View) (ix : Nat) : List String → View
  | [] => v
  | name :: names => ({ v with cells := ⟨name, ix, v.level⟩ :: v.cells }).addCells (ix + 1) names

/-- The view at the start of a block with cells, the first one at the place `ix`. -/
def enter (v : View) (ix : Nat) (names : List String) : View :=
  ({ v with level := v.level + 1 }).addCells ix names

@[simp] theorem push_zero (v : View) : v.push 0 = v := rfl

@[simp] theorem push_push (v : View) (m n : Nat) : (v.push m).push n = v.push (m + n) := by
  simp [push, Nat.add_assoc]

@[simp] theorem depth_push (v : View) (n : Nat) : (v.push n).depth = v.depth + n := rfl

@[simp] theorem level_push (v : View) (n : Nat) : (v.push n).level = v.level := rfl

@[simp] theorem slots_push (v : View) (n : Nat) : (v.push n).slots = v.slots := rfl

@[simp] theorem cells_push (v : View) (n : Nat) : (v.push n).cells = v.cells := rfl

@[simp] theorem depth_bind (v : View) (name : String) : (v.bind name).depth = v.depth + 1 := rfl

@[simp] theorem level_bind (v : View) (name : String) : (v.bind name).level = v.level := rfl

@[simp] theorem cells_bind (v : View) (name : String) : (v.bind name).cells = v.cells := rfl

/-- New cells, the latest first. -/
theorem addCells_eq (v : View) (ix : Nat) (names : List String) :
    v.addCells ix names = { v with
      cells := ((names.zipIdx ix).map fun c => ⟨c.1, c.2, v.level⟩).reverse ++ v.cells } := by
  induction names generalizing v ix with
  | nil => rfl
  | cons name names ih => rw [addCells, ih]; simp

@[simp] theorem depth_enter (v : View) (ix : Nat) (names : List String) :
    (v.enter ix names).depth = v.depth := by simp [enter, addCells_eq]

@[simp] theorem level_enter (v : View) (ix : Nat) (names : List String) :
    (v.enter ix names).level = v.level + 1 := by simp [enter, addCells_eq]

@[simp] theorem slots_enter (v : View) (ix : Nat) (names : List String) :
    (v.enter ix names).slots = v.slots := by simp [enter, addCells_eq]

theorem cells_enter (v : View) (ix : Nat) (names : List String) :
    (v.enter ix names).cells =
      ((names.zipIdx ix).map fun c => ⟨c.1, c.2, v.level + 1⟩).reverse ++ v.cells := by
  simp [enter, addCells_eq]

/-! ## Levels -/

/-- No variable in view is of a deeper level. -/
structure Leveled (v : View) : Prop where
  slots : ∀ x ∈ v.slots, x.level ≤ v.level
  cells : ∀ x ∈ v.cells, x.level ≤ v.level

theorem leveled_start : start.Leveled := ⟨by simp [start], by simp [start]⟩

theorem Leveled.push {v : View} (h : v.Leveled) (n : Nat) : (v.push n).Leveled := ⟨h.slots, h.cells⟩

theorem Leveled.bind {v : View} (h : v.Leveled) (name : String) : (v.bind name).Leveled where
  slots x hx := by
    rcases List.mem_cons.1 hx with rfl | hx
    · exact Nat.le_refl _
    · exact h.slots x hx
  cells := h.cells

theorem Leveled.enter {v : View} (h : v.Leveled) (ix : Nat) (names : List String) :
    (v.enter ix names).Leveled where
  slots x hx := by
    rw [slots_enter] at hx
    rw [level_enter]
    exact Nat.le_succ_of_le (h.slots x hx)
  cells x hx := by
    rw [cells_enter, List.mem_append, List.mem_reverse, List.mem_map] at hx
    rw [level_enter]
    rcases hx with ⟨c, -, rfl⟩ | hx
    · exact Nat.le_refl _
    · exact Nat.le_succ_of_le (h.cells x hx)

/-! ## Declarations in a block -/

/-- Since the view `v`, `k` variables have been declared on the stack. -/
structure Binds (v : View) (k : Nat) (w : View) : Prop where
  depth : w.depth = v.depth + k
  level : w.level = v.level
  cells : w.cells = v.cells
  slots : ∃ added : List InView,
    added.length = k ∧ (∀ x ∈ added, x.level = v.level) ∧ w.slots = added ++ v.slots

theorem Binds.refl (v : View) : v.Binds 0 v := ⟨rfl, rfl, rfl, [], rfl, by simp, rfl⟩

theorem Binds.bind (v : View) (name : String) : v.Binds 1 (v.bind name) :=
  ⟨rfl, rfl, rfl, [⟨name, v.depth, v.level⟩], rfl, by simp, rfl⟩

theorem Binds.trans {u v w : View} {j k : Nat} (h : u.Binds j v) (h' : v.Binds k w) :
    u.Binds (j + k) w := by
  obtain ⟨added, ha, hl, hs⟩ := h.slots
  obtain ⟨added', ha', hl', hs'⟩ := h'.slots
  refine ⟨by rw [h'.depth, h.depth, Nat.add_assoc], h'.level.trans h.level, h'.cells.trans h.cells,
    added' ++ added, by simp [ha, ha', Nat.add_comm], ?_, by rw [hs', hs, List.append_assoc]⟩
  intro x hx
  rcases List.mem_append.1 hx with hx | hx
  · exact (hl' x hx).trans h.level
  · exact hl x hx

theorem Binds.leveled {v w : View} {k : Nat} (h : v.Binds k w) (hv : v.Leveled) : w.Leveled where
  slots x hx := by
    obtain ⟨added, -, hl, hs⟩ := h.slots
    rw [hs, List.mem_append] at hx
    rw [h.level]
    rcases hx with hx | hx
    · exact Nat.le_of_eq (hl x hx)
    · exact hv.slots x hx
  cells x hx := by
    rw [h.cells] at hx
    rw [h.level]
    exact hv.cells x hx

end View

namespace Draft

@[simp] theorem slot?_view (d : Draft) (name : String) : d.view.slot? name = d.slot? name := rfl

@[simp] theorem cell?_view (d : Draft) (name : String) : d.view.cell? name = d.cell? name := rfl

/-- Variables in a row of slots, the latest first. -/
theorem addLocals_eq (d : Draft) (slot : Nat) (names : List String) :
    d.addLocals slot names = { d with
      locals := d.locals ++ ((names.zipIdx slot).map fun x => ⟨x.1, x.2⟩).toArray
      slots := ((names.zipIdx slot).map fun x => ⟨x.1, x.2, d.level⟩).reverse ++ d.slots } := by
  induction names generalizing d slot with
  | nil => simp [addLocals]
  | cons name names ih => rw [addLocals, ih]; simp [addLocal]

theorem view_addBlockCells (d : Draft) (names : List String) :
    (d.addBlockCells names).view = d.view.addCells (d.free.size + d.own.size) names := by
  unfold addBlockCells
  induction names generalizing d with
  | nil => rfl
  | cons name names ih =>
    rw [List.foldl_cons, ih, View.addCells]
    simp [addBlockCell, view, Nat.add_assoc]

@[simp] theorem offset_addBlockCells (d : Draft) (names : List String) :
    (d.addBlockCells names).offset = d.offset := by
  unfold addBlockCells
  induction names generalizing d with
  | nil => rfl
  | cons name names ih => exact ih _

theorem own_addBlockCells (d : Draft) (names : List String) :
    (d.addBlockCells names).own = d.own ++ names.toArray := by
  unfold addBlockCells
  induction names generalizing d with
  | nil => simp
  | cons name names ih => rw [List.foldl_cons, ih]; simp [addBlockCell]

/-- The variables that a block has declared on the stack. -/
theorem blockLocals_of_binds {d : Draft} {u v : View} {ix k : Nat} {names : List String}
    (hv : v.Leveled) (hu : (v.enter ix names).Binds k u) (hd : d.view = u.push 1) :
    d.blockLocals = k := by
  obtain ⟨added, hk, hl, hs⟩ := hu.slots
  have hslots : d.slots = u.slots := congrArg View.slots hd
  have hlevel : d.level = u.level := congrArg View.level hd
  have old : v.slots.countP (·.level = v.level + 1) = 0 := by
    rw [List.countP_eq_zero]
    intro x hx
    have := hv.slots x hx
    simp
    omega
  have new : added.countP (·.level = v.level + 1) = k := by
    rw [← hk, List.countP_eq_length]
    intro x hx
    simpa using hl x hx
  rw [blockLocals, hslots, hlevel, hs, hu.level, View.level_enter, View.slots_enter,
    List.countP_append, old, new, Nat.add_zero]

/-- At the end of a block its variables are out of view. -/
theorem view_exitBlock {d : Draft} {u v : View} {ix k : Nat} {names : List String}
    (hv : v.Leveled) (hu : (v.enter ix names).Binds k u) (hd : d.view = u.push 1) :
    d.exitBlock.view = v.push (k + 1) := by
  obtain ⟨added, hk, hl, hs⟩ := hu.slots
  have hslots : d.slots = u.slots := congrArg View.slots hd
  have hcells : d.cells = u.cells := congrArg View.cells hd
  have hlevel : d.level = v.level + 1 :=
    (congrArg View.level hd).trans (hu.level.trans (View.level_enter ..))
  have hdepth : d.depth = v.depth + k + 1 := by
    have := congrArg View.depth hd
    rw [View.depth_push, hu.depth, View.depth_enter] at this
    exact this
  have keep {xs : List InView} (h : ∀ x ∈ xs, x.level ≤ v.level) :
      xs.filter (·.level < v.level + 1) = xs := by
    rw [List.filter_eq_self]
    intro x hx
    have := h x hx
    simp
    omega
  have drop {xs : List InView} (h : ∀ x ∈ xs, x.level = v.level + 1) :
      xs.filter (·.level < v.level + 1) = [] := by
    rw [List.filter_eq_nil_iff]
    intro x hx
    simp [h x hx]
  have fresh : ∀ x ∈ ((names.zipIdx ix).map fun c => InView.mk c.1 c.2 (v.level + 1)).reverse,
      x.level = v.level + 1 := by
    intro x hx
    obtain ⟨c, -, rfl⟩ := List.mem_map.1 (List.mem_reverse.1 hx)
    rfl
  simp only [view, exitBlock, View.push, View.mk.injEq, hdepth, hlevel, hslots, hcells, hs,
    hu.cells, View.slots_enter, View.cells_enter, List.filter_append, keep hv.slots, keep hv.cells,
    drop fresh, drop (fun x hx => (hl x hx).trans (View.level_enter ..)), List.nil_append]
  exact ⟨rfl, rfl, trivial, trivial⟩

end Draft

/-! ## The start of a function -/

section

variable (name : String) (params : List String) (sc : Scope)

theorem Emit.slots_draftOf : (draftOf name params sc).slots =
    ((name :: params).zipIdx.map fun x => InView.mk x.1 x.2 0).reverse := by
  simp [draftOf, Draft.addLocals_eq, Draft.start]

theorem Emit.cells_draftOf : (draftOf name params sc).cells =
    ((sc.free ++ sc.cells).zipIdx.map fun x => InView.mk x.1 x.2 0).reverse := by
  simp [draftOf, Draft.addLocals_eq, Draft.start]

theorem Emit.depth_draftOf : (draftOf name params sc).view.depth = params.length + 1 := by
  simp [draftOf, Draft.addLocals_eq, Draft.start, Draft.view]

theorem Emit.leveled_draftOf : (draftOf name params sc).view.Leveled where
  slots x hx := by
    change x ∈ (draftOf name params sc).slots at hx
    rw [slots_draftOf, List.mem_reverse] at hx
    obtain ⟨y, -, rfl⟩ := List.mem_map.1 hx
    exact Nat.zero_le _
  cells x hx := by
    change x ∈ (draftOf name params sc).cells at hx
    rw [cells_draftOf, List.mem_reverse] at hx
    obtain ⟨y, -, rfl⟩ := List.mem_map.1 hx
    exact Nat.zero_le _

/-- All cells in view have been named. -/
theorem Emit.named_draftOf {v : View} (hv : (draftOf name params sc).view = v) :
    ∀ x ∈ v.cells, x.place <
      (draftOf name params sc).free.size + (draftOf name params sc).own.size := by
  subst hv
  intro x hx
  change x ∈ (draftOf name params sc).cells at hx
  rw [cells_draftOf, List.mem_reverse] at hx
  obtain ⟨y, hy, rfl⟩ := List.mem_map.1 hx
  have := List.snd_lt_of_mem_zipIdx hy
  simpa [draftOf, Draft.addLocals_eq, Draft.start] using this

/-- The function and its arguments are the lowest values of an activation. -/
theorem Emit.view_draftOf_eq_push : ∃ v : View, v.Leveled ∧
    (draftOf name params sc).view = v.push (params.length + 1) := by
  have hl := leveled_draftOf name params sc
  refine ⟨{ (draftOf name params sc).view with depth := 0 }, ⟨hl.slots, hl.cells⟩, ?_⟩
  simp [View.push, Draft.view, draftOf, Draft.addLocals_eq, Draft.start]

end

end ByteLisp
