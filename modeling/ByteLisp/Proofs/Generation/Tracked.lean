/-
  ByteLisp: whose the variables in view are.

  A draft knows variables by their names and the nesting of the blocks. Here they
  are related to the scopes that declare them.

  * `Scopes.holder` is the scope of a variable in view;
  * `View.Cells` says what cells are in view: those of the blocks around, over
    those of the function; `Cells.found` tells which one a name gives;
  * `View.Slots` says the same of slots, at a point of the walk.
-/
import ByteLisp.Proofs.Generation.Coded
import ByteLisp.Proofs.Scope.Walk
import ByteLisp.Proofs.Scope.Within

namespace ByteLisp

/-- The scope of a variable in view from `s`, which lies at the given level. -/
def Scopes.holder (T : Scopes) (s : ScopeId) (level : Nat) (x : InView) : Option ScopeId :=
  (T.chain s)[level - x.level]?

theorem Scopes.holder_block {T : Scopes} {s b : ScopeId} {level : Nat} {x : InView}
    (hb : T.chain b = b :: T.chain s) (hx : x.level ≤ level) :
    T.holder b (level + 1) x = T.holder s level x := by
  rw [holder, holder, hb, Nat.succ_sub hx, List.getElem?_cons_succ]

theorem Scopes.holder_self {T : Scopes} {s : ScopeId} {x : InView} :
    T.holder s x.level x = some s := by
  rw [holder, Nat.sub_self, chain, List.getElem?_cons_zero]

/-! ## Rows of variables -/

/-- Variables in a row of places, the latest first. -/
def InView.row (ix level : Nat) (names : List String) : List InView :=
  ((names.zipIdx ix).map fun c => ⟨c.1, c.2, level⟩).reverse

section

variable {ix level : Nat} {names : List String} {name : String} {x : InView}

theorem InView.mem_row : x ∈ row ix level names ↔
    x.level = level ∧ ix ≤ x.place ∧ names[x.place - ix]? = some x.name := by
  rw [row, List.mem_reverse, List.mem_map]
  constructor
  · rintro ⟨⟨name, place⟩, hm, rfl⟩
    exact ⟨rfl, List.mem_zipIdx_iff_le_and_getElem?_sub.1 hm⟩
  · rintro ⟨rfl, hle, hn⟩
    exact ⟨(x.name, x.place), List.mem_zipIdx_iff_le_and_getElem?_sub.2 ⟨hle, hn⟩, rfl⟩

theorem InView.find?_row_eq_none : (row ix level names).find? (·.name = name) = none ↔ name ∉ names := by
  rw [List.find?_eq_none]
  constructor
  · intro h hn
    obtain ⟨i, hi, rfl⟩ := List.getElem_of_mem hn
    have hx : (⟨names[i], ix + i, level⟩ : InView) ∈ row ix level names :=
      mem_row.2 ⟨rfl, Nat.le_add_right .., by simp [List.getElem?_eq_getElem hi]⟩
    exact h _ hx (decide_eq_true rfl)
  · intro h x hx hn
    exact h (of_decide_eq_true hn ▸ List.mem_of_getElem? (mem_row.1 hx).2.2)

theorem InView.row_append {more : List String} :
    row ix level (names ++ more) = row (ix + names.length) level more ++ row ix level names := by
  simp [row, List.zipIdx_append]

theorem InView.sorted_row :
    (row ix level names).Pairwise fun x y => y.place < x.place ∧ y.level ≤ x.level := by
  rw [row, List.pairwise_reverse, List.pairwise_map, List.pairwise_iff_getElem]
  intro i j hi hj hij
  simp only [List.getElem_zipIdx]
  exact ⟨Nat.add_lt_add_left hij ix, Nat.le_refl _⟩

/-- A name is found in a row if it is there, else in what lies below. -/
theorem InView.find?_row_append {ys : List InView}
    (hx : (row ix level names ++ ys).find? (fun y => y.name = name) = some x) :
    name ∈ names ∧ x ∈ row ix level names ∨
      name ∉ names ∧ ys.find? (fun y => y.name = name) = some x := by
  rw [List.find?_append] at hx
  cases hr : (row ix level names).find? (fun y => y.name = name) with
  | none =>
    rw [hr, Option.none_or] at hx
    exact Or.inr ⟨find?_row_eq_none.1 hr, hx⟩
  | some y =>
    rw [hr, Option.some_or, Option.some.injEq] at hx
    subst hx
    have hm := List.mem_of_find?_eq_some hr
    have hn : y.name = name := by simpa using List.find?_some hr
    exact Or.inl ⟨hn ▸ List.mem_of_getElem? (mem_row.1 hm).2.2, hm⟩

end

/-! ## Cells -/

/-- The cells in view from a scope at a level: in the main code of a program there are none
    but those of blocks, a function starts with those that it captures and its own. -/
inductive View.Cells (T : Scopes) (c : Code) : ScopeId → Nat → List InView → Prop
  | main {s level} : (T.scope s).kind = .global → Cells T c s level []
  | function {f} : (T.scope f).kind = .function → c.free = (T.scope f).free.toArray →
      Cells T c f 0 (InView.row 0 0 ((T.scope f).free ++ (T.scope f).cells))
  | block {s b level k xs} : Cells T c s level xs → (T.scope b).kind = .block →
      T.chain b = b :: T.chain s → (∀ x ∈ xs, x.place < c.free.size + k) →
      Cells T c b (level + 1)
        (InView.row (c.free.size + k) (level + 1) (T.scope b).cells ++ xs)

namespace View

variable {T : Scopes} {c : Code} {s o : ScopeId} {level : Nat} {xs : List InView} {x y : InView}
  {name : String}

theorem Cells.level_le (h : Cells T c s level xs) : ∀ x ∈ xs, x.level ≤ level := by
  induction h with
  | main => nofun
  | function => exact fun x hx => Nat.le_of_eq (InView.mem_row.1 hx).1
  | block _ _ _ _ ih =>
    intro x hx
    rcases List.mem_append.1 hx with hx | hx
    · exact Nat.le_of_eq (InView.mem_row.1 hx).1
    · exact Nat.le_succ_of_le (ih x hx)

/-- Different cells in view have different places. -/
theorem Cells.eq_of_place (h : Cells T c s level xs) :
    ∀ x ∈ xs, ∀ y ∈ xs, x.place = y.place → x = y := by
  have same {ix level : Nat} {names : List String} {x y : InView} (hx : x ∈ InView.row ix level names)
      (hy : y ∈ InView.row ix level names) (hp : x.place = y.place) : x = y := by
    obtain ⟨hl, -, hn⟩ := InView.mem_row.1 hx
    obtain ⟨hl', -, hn'⟩ := InView.mem_row.1 hy
    rw [hp, hn'] at hn
    cases x
    cases y
    simp_all
  induction h with
  | main => nofun
  | function => exact fun x hx y hy => same hx hy
  | block _ _ _ hk ih =>
    intro x hx y hy hp
    rcases List.mem_append.1 hx with hx | hx <;> rcases List.mem_append.1 hy with hy | hy
    · exact same hx hy hp
    · have := (InView.mem_row.1 hx).2.1
      have := hk y hy
      omega
    · have := (InView.mem_row.1 hy).2.1
      have := hk x hx
      omega
    · exact ih x hx y hy hp

/-- A name gives the cell of the innermost scope of the function that has a cell of that name;
    if there is none, a captured cell. -/
theorem Cells.found (h : Cells T c s level xs) (hx : xs.find? (fun y => y.name = name) = some x) :
    (∃ t, (T.within s).find? (fun t => (T.scope t).cells.contains name) = some t ∧
      T.holder s level x = some t ∧ c.free.size ≤ x.place) ∨
    (T.within s).find? (fun t => (T.scope t).cells.contains name) = none ∧
      c.free[x.place]? = some name := by
  have hname : x.name = name := by simpa using List.find?_some hx
  induction h with
  | main => cases hx
  | @function f hk hfree =>
    rw [InView.row_append, Nat.zero_add] at hx
    rw [Scopes.within_function hk]
    rcases InView.find?_row_append hx with ⟨hn, hm⟩ | ⟨hn, hx⟩
    · obtain ⟨hl, hle, -⟩ := InView.mem_row.1 hm
      refine Or.inl ⟨f, List.find?_cons_of_pos (List.contains_iff_mem.2 hn), ?_, ?_⟩
      · rw [← hl]
        exact Scopes.holder_self
      · rw [hfree]
        exact hle
    · rw [← List.append_nil (InView.row ..)] at hx
      rcases InView.find?_row_append hx with ⟨-, hm⟩ | ⟨-, hx⟩
      · refine Or.inr ⟨List.find?_cons_of_neg fun h => hn (List.contains_iff_mem.1 h), ?_⟩
        have hf := (InView.mem_row.1 hm).2.2
        rwa [Nat.sub_zero, hname, ← List.getElem?_toArray, ← hfree] at hf
      · cases hx
  | @block s b level k xs h hk hb hp ih =>
    rw [Scopes.within_block hk hb]
    rcases InView.find?_row_append hx with ⟨hn, hm⟩ | ⟨hn, hx⟩
    · obtain ⟨hl, hle, -⟩ := InView.mem_row.1 hm
      refine Or.inl ⟨b, List.find?_cons_of_pos (List.contains_iff_mem.2 hn), ?_, by omega⟩
      rw [← hl]
      exact Scopes.holder_self
    · have hne : ¬(T.scope b).cells.contains name = true := fun h => hn (List.contains_iff_mem.1 h)
      rw [List.find?_cons_of_neg (p := fun t => (T.scope t).cells.contains name) hne,
        Scopes.holder_block hb (h.level_le x (List.mem_of_find?_eq_some hx))]
      exact ih hx

end View

/-! ## Slots -/

/-- A label of the function with the scope `t`, which has no name of its own; the table before
    its walk satisfies `P`. -/
def Labelled (P : Scopes → Prop) (t : ScopeId) (label : String) : Prop :=
  ∃ U s, P U ∧ U.size = t ∧ s < U.size ∧ U.Labels s label

/-- The slots in view at a point of the walk: each belongs to a scope that has declared the name,
    but for the slot of a function itself, which may only have a label. `N` are the functions
    with a name of their own. -/
structure View.Slots (P : Scopes → Prop) (N : List (ScopeId × String)) (T : Scopes) (s : ScopeId)
    (v : View) : Prop where
  base : 0 < v.depth
  sorted : v.slots.Pairwise fun x y => y.place < x.place ∧ y.level ≤ x.level
  below : ∀ x ∈ v.slots, x.place < v.depth ∧ x.level ≤ v.level
  held : ∀ x ∈ v.slots, ∃ t, T.holder s v.level x = some t ∧
    (x.name ∈ (T.scope t).declared ∧ (x.place = 0 → (t, x.name) ∈ N) ∨
      x.place = 0 ∧ x.level = 0 ∧ Labelled P t x.name)

namespace View.Slots

variable {P : Scopes → Prop} {N : List (ScopeId × String)} {T T' : Scopes} {s b o : ScopeId}
  {v : View} {x y : InView} {name : String}

theorem start : View.start.Slots P N T s :=
  ⟨Nat.zero_lt_one, List.Pairwise.nil, nofun, nofun⟩

/-- At the start of a function there are slots for the function and its parameters. -/
theorem function {label : String} {params names : List String} {sc : Scope}
    (hn : names = label :: params ∧ (T.size, label) ∈ N ∨
      names = params ∧ Labelled P T.size label) :
    (Emit.draftOf label params sc).view.Slots P N (T.openFunction s names) T.size := by
  have hslots : (Emit.draftOf label params sc).view.slots = InView.row 0 0 (label :: params) :=
    Emit.slots_draftOf label params sc
  have hlevel : (Emit.draftOf label params sc).view.level = 0 := by
    simp [Draft.view, Emit.draftOf, Draft.addLocals_eq, Draft.start]
  have hself {x : InView} (hx : x.level = 0) :
      (T.openFunction s names).holder T.size 0 x = some T.size := hx ▸ Scopes.holder_self
  refine ⟨?_, ?_, fun x hx => ?_, fun x hx => ?_⟩
  · rw [Emit.depth_draftOf]
    exact Nat.succ_pos _
  · rw [hslots]
    exact InView.sorted_row
  · rw [hslots, InView.mem_row] at hx
    obtain ⟨hl, -, hx⟩ := hx
    rw [Emit.depth_draftOf, hlevel]
    exact ⟨(List.getElem?_eq_some_iff.1 hx).1, Nat.le_of_eq hl⟩
  · rw [hslots, InView.mem_row, Nat.sub_zero] at hx
    obtain ⟨hl, -, hx⟩ := hx
    rw [hlevel]
    refine ⟨T.size, hself hl, ?_⟩
    rcases hn with ⟨rfl, hN⟩ | ⟨rfl, hP⟩
    · refine Or.inl ⟨Scopes.mem_openFunction (List.mem_of_getElem? hx), fun h0 => ?_⟩
      rw [h0] at hx
      cases hx
      exact hN
    · cases hp : x.place with
      | zero =>
        rw [hp] at hx
        cases hx
        exact Or.inr ⟨rfl, hl, hP⟩
      | succ i =>
        rw [hp] at hx
        exact Or.inl ⟨Scopes.mem_openFunction (List.mem_of_getElem? hx), by simp⟩

theorem push (h : v.Slots P N T s) (n : Nat) : (v.push n).Slots P N T s :=
  ⟨Nat.lt_add_right n h.base, h.sorted,
    fun x hx => ⟨Nat.lt_add_right n (h.below x hx).1, (h.below x hx).2⟩, h.held⟩

theorem bind (h : v.Slots P N T s) (hn : name ∈ (T.scope s).declared) :
    (v.bind name).Slots P N T s where
  base := Nat.succ_pos _
  sorted := List.pairwise_cons.2 ⟨h.below, h.sorted⟩
  below x hx := by
    rcases List.mem_cons.1 hx with rfl | hx
    · exact ⟨Nat.lt_succ_self _, Nat.le_refl _⟩
    · exact ⟨Nat.lt_succ_of_lt (h.below x hx).1, (h.below x hx).2⟩
  held x hx := by
    rcases List.mem_cons.1 hx with rfl | hx
    · exact ⟨s, Scopes.holder_self (x := ⟨name, v.depth, v.level⟩),
        Or.inl ⟨hn, fun h0 => absurd h0 (Nat.ne_of_gt h.base)⟩⟩
    · exact h.held x hx

theorem kept (h : v.Slots P N T s) {o : Outcome}
    (hn : ∀ name ix, o = .slot name ix → name ∈ (T.scope s).declared) : (v.kept o).Slots P N T s := by
  cases o with
  | slot name ix => exact h.bind (hn name ix rfl)
  | _ => exact h

theorem enter (h : v.Slots P N T s) (hb : T.chain b = b :: T.chain s) (ix : Nat)
    (names : List String) : (v.enter ix names).Slots P N T b := by
  refine ⟨?_, ?_, fun x hx => ?_, fun x hx => ?_⟩
  · rw [depth_enter]
    exact h.base
  · rw [slots_enter]
    exact h.sorted
  · rw [slots_enter] at hx
    rw [depth_enter, level_enter]
    exact ⟨(h.below x hx).1, Nat.le_succ_of_le (h.below x hx).2⟩
  · rw [slots_enter] at hx
    rw [level_enter, Scopes.holder_block hb (h.below x hx).2]
    exact h.held x hx

theorem later (h : v.Slots P N T s) (hT : T.Nested) (hs : s < T.size) (hl : T.Later T') :
    v.Slots P N T' s := by
  refine ⟨h.base, h.sorted, h.below, fun x hx => ?_⟩
  obtain ⟨t, ht, hd⟩ := h.held x hx
  have hsize : t < T.size := hT.lt_of_mem hs (List.mem_of_getElem? ht)
  refine ⟨t, ?_, hd.imp_left fun hd => ⟨hl.declared t x.name hsize hd.1, hd.2⟩⟩
  rwa [Scopes.holder, hl.chain hs]

/-- If a slot of the declaration that a name is bound to is in view, then the name gives such a
    slot. -/
theorem found (h : v.Slots P N T s) (hT : T.Nested) (hs : s < T.size)
    (ho : T.lookup s name = some o) (hx : v.slots.find? (fun y => y.name = name) = some x)
    (hy : y ∈ v.slots) (hn : y.name = name) (hh : T.holder s v.level y = some o)
    (h0 : y.place = 0 → (o, name) ∈ N) :
    T.holder s v.level x = some o ∧ (x.place = 0 → (o, name) ∈ N) := by
  have hname : x.name = name := by simpa using List.find?_some hx
  obtain ⟨-, pre, post, hslots, hpre⟩ := List.find?_eq_some_iff_append.1 hx
  obtain ⟨t, ht, hd⟩ := h.held x (List.mem_of_find?_eq_some hx)
  -- the slot is the one that is found or lies below it
  have hxy : y = x ∨ y.place < x.place ∧ y.level ≤ x.level := by
    rw [hslots] at hy
    rcases List.mem_append.1 hy with hy | hy
    · simpa [hn] using hpre y hy
    · have hsorted := h.sorted
      rw [hslots, List.pairwise_append] at hsorted
      exact (List.mem_cons.1 hy).imp_right fun hy => List.rel_of_pairwise_cons hsorted.2.1 hy
  rcases hxy with rfl | ⟨hplace, hlevel⟩
  · exact ⟨hh, h0⟩
  rcases hd with ⟨hd, h0⟩ | ⟨hzero, -⟩
  · -- no scope that is nearer than `o` has declared the name
    obtain ⟨-, near, far, hchain, hnear⟩ := List.find?_eq_some_iff_append.1 ho
    have hlen : near.length ≤ v.level - x.level := by
      refine Nat.le_of_not_lt fun hlt => ?_
      rw [Scopes.holder, hchain, List.getElem?_append_left hlt] at ht
      have := hnear t (List.mem_of_getElem? ht)
      rw [hname] at hd
      simp [Scope.declares, hd] at this
    have hat : (T.chain s)[near.length]? = some o := by simp [hchain]
    have hi : v.level - y.level = near.length := by
      have hlt : v.level - y.level < (T.chain s).length := (List.getElem?_eq_some_iff.1 hh).1
      exact (List.getElem?_inj hlt (hT.nodup_chain hs)).1 (hh.trans hat.symm)
    have hj : v.level - x.level = near.length := by omega
    rw [Scopes.holder, hj, hat] at ht
    cases ht
    refine ⟨by rw [Scopes.holder, hj, hat], ?_⟩
    rwa [hname] at h0
  · omega

end View.Slots

end ByteLisp
