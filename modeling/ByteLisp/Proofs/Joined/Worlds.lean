/-
  ByteLisp: two worlds with related objects.

  Two runs allocate their objects at different handles. A relation between handles
  tells which objects correspond; it grows while the runs go on.

  * `Worlds`: related objects are twins, and a cell has one partner only; the spare
    cells of the second world have none yet;
  * `Worlds.alloc`, `Worlds.setCell`, `Worlds.setGlobal`: what happens to both worlds;
    `Worlds.extend`: objects are added to either world;
  * `World.Tame`: a world that corresponds to itself, up to some objects that nothing
    in it leads to; `Worlds.tame`.
-/
import ByteLisp.Proofs.Joined.Twins
import ByteLisp.Proofs.Machine.Boundaries
import ByteLisp.Proofs.Machine.Lasting

namespace ByteLisp

variable {R R' : Nat → Nat → Prop} {S : Nat → Prop} {W W' V V' : World} {i j : Nat}
  {u u' : Value} {o o' : Object}

/-- The second table has the variables of the first one with corresponding values, and then some that have
    no value yet. -/
structure Globals.Ahead (R : Nat → Nat → Prop) (g g' : Globals) : Prop where
  global : ∀ ix x, g.get? ix = some x →
    ∃ x', g'.get? ix = some x' ∧ x'.name = x.name ∧ Option.Rel (Value.Twin R) x.value x'.value
  fresh : ∀ ix x', g.size ≤ ix → g'.get? ix = some x' → x'.value = none

/-- Related objects are twins. A cell is related to one cell only, and a spare cell to none. -/
structure Worlds (S : Nat → Prop) (R : Nat → Nat → Prop) (W W' : World) : Prop where
  objects : ∀ i j, R i j → ∃ o o', W.heap.get? i = some o ∧ W'.heap.get? j = some o' ∧ o.Twin R o'
  right : ∀ i j j', R i j → R i j' → W.heap.IsCell i → j' = j
  left : ∀ i i' j, R i j → R i' j → W'.heap.IsCell j → i' = i
  spare : ∀ j, S j → W'.heap.cell? j = some (.boolean false) ∧ ∀ i, ¬ R i j
  globals : W.globals.Ahead R W'.globals

namespace Worlds

/-! ## Looking at related objects -/

theorem lt (h : Worlds S R W W') (hR : R i j) : i < W.heap.size ∧ j < W'.heap.size := by
  obtain ⟨o, o', ho, ho', -⟩ := h.objects i j hR
  exact ⟨Heap.lt_size_of_get? ho, Heap.lt_size_of_get? ho'⟩

theorem get? (h : Worlds S R W W') (hR : R i j) (ho : W.heap.get? i = some o) :
    ∃ o', W'.heap.get? j = some o' ∧ o.Twin R o' := by
  obtain ⟨p, o', hp, ho', htwin⟩ := h.objects i j hR
  cases hp.symm.trans ho
  exact ⟨o', ho', htwin⟩

theorem code? (h : Worlds S R W W') (hR : R i j) {c : Code} (hc : W.heap.code? i = some c) :
    ∃ c', W'.heap.code? j = some c' ∧ c.Twin R c' := by
  obtain ⟨o', ho', htwin⟩ := h.get? hR (Heap.code?_eq_some.1 hc)
  cases htwin with
  | code hc => exact ⟨_, Heap.code?_eq_some.2 ho', hc⟩

theorem cell? (h : Worlds S R W W') (hR : R i j) {v : Value} (hv : W.heap.cell? i = some v) :
    ∃ v', W'.heap.cell? j = some v' ∧ v.Twin R v' := by
  obtain ⟨o', ho', htwin⟩ := h.get? hR (Heap.cell?_eq_some.1 hv)
  cases htwin with
  | cell hv => exact ⟨_, Heap.cell?_eq_some.2 ho', hv⟩

theorem isCell (h : Worlds S R W W') (hR : R i j) : W'.heap.IsCell j ↔ W.heap.IsCell i := by
  obtain ⟨o, o', ho, ho', htwin⟩ := h.objects i j hR
  unfold Heap.IsCell Heap.cell?
  rw [ho, ho']
  cases htwin <;> simp

theorem string? (h : Worlds S R W W') (hR : R i j) : W'.heap.string? j = W.heap.string? i := by
  obtain ⟨o, o', ho, ho', htwin⟩ := h.objects i j hR
  rw [Heap.string?, Heap.string?, ho, ho']
  cases htwin <;> rfl

theorem text? (h : Worlds S R W W') (hu : u.Twin R u') : W'.heap.text? u' = W.heap.text? u := by
  cases hu with
  | object hR => exact h.string? hR
  | _ => rfl

end Worlds

/-! ## Global variables -/

namespace Globals.Ahead

variable {g g' k k' : Globals} {ix : Nat}

theorem mono (h : g.Ahead R g') (hR : ∀ i j, R i j → R' i j) : g.Ahead R' g' where
  global ix x hx := by
    obtain ⟨x', hx', hname, hv⟩ := h.global ix x hx
    refine ⟨x', hx', hname, ?_⟩
    generalize x.value = v, x'.value = v' at hv
    cases hv with
    | some hv => exact .some (hv.mono hR)
    | none => exact .none
  fresh := h.fresh

theorem size_le (h : g.Ahead R g') : g.size ≤ g'.size := by
  refine Nat.le_of_not_lt fun hlt => ?_
  obtain ⟨x', hx', -⟩ := h.global g'.size _ (Array.getElem?_eq_getElem hlt)
  exact absurd (Array.getElem?_eq_some_iff.1 hx').1 (Nat.lt_irrefl _)

theorem set (h : g.Ahead R g') (hix : ix < g.size) (hu : u.Twin R u') :
    (g.set ix u).Ahead R (g'.set ix u') where
  global j x hx := by
    rw [get?_set] at hx
    obtain ⟨y, hy, rfl⟩ := Option.map_eq_some_iff.1 hx
    obtain ⟨y', hy', hname, hv⟩ := h.global j y hy
    refine ⟨_, by rw [get?_set, hy']; rfl, ?_⟩
    by_cases hj : ix = j
    · simp only [if_pos hj]
      exact ⟨hname, .some hu⟩
    · simp only [if_neg hj]
      exact ⟨hname, hv⟩
  fresh j x' hj hx' := by
    have hle : g.size ≤ j := by simpa [Globals.set, size] using hj
    rw [get?_set] at hx'
    obtain ⟨y', hy', rfl⟩ := Option.map_eq_some_iff.1 hx'
    rw [if_neg (by omega)]
    exact h.fresh j y' hle hy'

end Globals.Ahead

namespace Worlds

/-! ## Changes -/

theorem setGlobal (h : Worlds S R W W') {ix : Nat} (hix : ix < W.globals.size) (hu : u.Twin R u') :
    Worlds S R ⟨W.heap, W.globals.set ix u⟩ ⟨W'.heap, W'.globals.set ix u'⟩ :=
  { h with globals := h.globals.set hix hu }

theorem setCell (h : Worlds S R W W') (hR : R i j) (hi : W.heap.IsCell i) (hu : u.Twin R u') :
    Worlds S R ⟨W.heap.setCell i u, W.globals⟩ ⟨W'.heap.setCell j u', W'.globals⟩ := by
  have hj := (h.isCell hR).2 hi
  have isCell {W : World} {i k : Nat} {u : Value} (hi : W.heap.IsCell i) :
      (W.heap.setCell i u).IsCell k ↔ W.heap.IsCell k := by
    by_cases hk : k = i
    · subst hk
      exact ⟨fun _ => hi, fun _ => Heap.isCell_of_get? (Heap.get?_setCell hi)⟩
    · rw [Heap.IsCell, Heap.IsCell, Heap.cell?, Heap.cell?, Heap.get?_setCell_of_ne hk]
  refine ⟨fun k l hkl => ?_, fun k l l' hkl hkl' hk => h.right k l l' hkl hkl' ((isCell hi).1 hk),
    fun k k' l hkl hkl' hl => h.left k k' l hkl hkl' ((isCell hj).1 hl), fun k hk => ?_, h.globals⟩
  · -- A cell has one partner only, so both cells change, or neither does.
    by_cases hki : k = i
    · subst hki
      obtain rfl := h.right k j l hR hkl hi
      exact ⟨_, _, Heap.get?_setCell hi, Heap.get?_setCell hj, .cell hu⟩
    · have hlj : l ≠ j := by
        rintro rfl
        exact hki (h.left i k l hR hkl hj)
      rw [Heap.get?_setCell_of_ne hki, Heap.get?_setCell_of_ne hlj]
      exact h.objects k l hkl
  · obtain ⟨hcell, hnone⟩ := h.spare k hk
    have hkj : k ≠ j := by
      rintro rfl
      exact hnone i hR
    exact ⟨by rw [Heap.cell?, Heap.get?_setCell_of_ne hkj]; exact hcell, hnone⟩

/-- Objects that correspond, none of them a cell, are added to the relation, while either world grows. -/
theorem extend (h : Worlds S R W W') (hR : ∀ i j, R i j → R' i j)
    (hW : ∀ i o, W.heap.get? i = some o → V.heap.get? i = some o)
    (hW' : ∀ i o, W'.heap.get? i = some o → V'.heap.get? i = some o)
    (hnew : ∀ i j, R' i j → R i j ∨ ∃ o o', V.heap.get? i = some o ∧ V'.heap.get? j = some o' ∧ o.Twin R' o' ∧
      ∀ v, o ≠ .cell v)
    (hglobals : V.globals.Ahead R' V'.globals) : Worlds S R' V V' := by
  have kept {W V : World} {i : Nat} {o : Object} (hW : ∀ i o, W.heap.get? i = some o → V.heap.get? i = some o)
      (ho : W.heap.get? i = some o) (hi : V.heap.IsCell i) : W.heap.IsCell i := by
    obtain ⟨v, hv⟩ := hi
    have := (hW i o ho).symm.trans (Heap.cell?_eq_some.1 hv)
    cases this
    exact Heap.isCell_of_get? ho
  have old {i j} (hij : R' i j) (hi : V.heap.IsCell i) : R i j ∧ W.heap.IsCell i := by
    rcases hnew i j hij with hij | ⟨o, o', ho, -, -, hcell⟩
    · obtain ⟨o, o', ho, -⟩ := h.objects i j hij
      exact ⟨hij, kept hW ho hi⟩
    · obtain ⟨v, hv⟩ := hi
      cases ho.symm.trans (Heap.cell?_eq_some.1 hv)
      exact absurd rfl (hcell v)
  have old' {i j} (hij : R' i j) (hj : V'.heap.IsCell j) : R i j ∧ W'.heap.IsCell j := by
    rcases hnew i j hij with hij | ⟨o, o', ho, ho', htwin, hcell⟩
    · obtain ⟨o, o', -, ho', -⟩ := h.objects i j hij
      exact ⟨hij, kept hW' ho' hj⟩
    · obtain ⟨v, hv⟩ := hj
      cases ho'.symm.trans (Heap.cell?_eq_some.1 hv)
      cases htwin
      exact absurd rfl (hcell _)
  refine ⟨fun i j hij => ?_, fun i j j' hij hij' hi => ?_, fun i i' j hij hij' hj => ?_,
    fun j hj => ?_, hglobals⟩
  · rcases hnew i j hij with hij | ⟨o, o', ho, ho', htwin, -⟩
    · obtain ⟨o, o', ho, ho', htwin⟩ := h.objects i j hij
      exact ⟨o, o', hW i o ho, hW' j o' ho', htwin.mono hR⟩
    · exact ⟨o, o', ho, ho', htwin⟩
  · exact h.right i j j' (old hij hi).1 (old hij' hi).1 (old hij hi).2
  · exact h.left i i' j (old' hij hj).1 (old' hij' hj).1 (old' hij hj).2
  · obtain ⟨hcell, hnone⟩ := h.spare j hj
    have hcell' := Heap.cell?_eq_some.2 (hW' j _ (Heap.cell?_eq_some.1 hcell))
    exact ⟨hcell', fun i hij => hnone i (old' hij ⟨_, hcell'⟩).1⟩

/-- Objects that are allocated in both worlds correspond. -/
theorem alloc (h : Worlds S R W W') (ho : o.Twin R o') (hc : ∀ v, o ≠ .cell v) :
    ∃ R', (∀ i j, R i j → R' i j) ∧ R' W.heap.size W'.heap.size ∧
      Worlds S R' ⟨W.heap.alloc o, W.globals⟩ ⟨W'.heap.alloc o', W'.globals⟩ := by
  let R' : Nat → Nat → Prop := fun i j => R i j ∨ i = W.heap.size ∧ j = W'.heap.size
  have hR : ∀ i j, R i j → R' i j := fun _ _ => Or.inl
  refine ⟨R', hR, Or.inr ⟨rfl, rfl⟩, h.extend hR (fun i p hp => Heap.get?_alloc_of_some hp)
    (fun i p hp => Heap.get?_alloc_of_some hp) (fun i j hij => ?_) (h.globals.mono hR)⟩
  rcases hij with hij | ⟨rfl, rfl⟩
  · exact Or.inl hij
  · exact Or.inr ⟨o, o', Heap.get?_alloc_size .., Heap.get?_alloc_size .., ho.mono hR, hc⟩

/-- Spare cells need not be looked after. -/
theorem fewer {S' : Nat → Prop} (h : Worlds S R W W') (hS : ∀ j, S' j → S j) : Worlds S' R W W' :=
  { h with spare := fun j hj => h.spare j (hS j hj) }

/-- Objects are added to either world that correspond to nothing. -/
theorem grow (h : Worlds S R W W') (hW : ∀ i o, W.heap.get? i = some o → V.heap.get? i = some o)
    (hW' : ∀ i o, W'.heap.get? i = some o → V'.heap.get? i = some o) (hg : V.globals = W.globals)
    (hg' : V'.globals = W'.globals) : Worlds S R V V' :=
  h.extend (fun _ _ => id) hW hW' (fun _ _ => Or.inl) (by rw [hg, hg']; exact h.globals)

theorem isCell_addCells {h : Heap} {n i : Nat} (hi : i < h.size) : (h.addCells n).IsCell i ↔ h.IsCell i := by
  have ho : h.get? i = some h.objects[i] := Array.getElem?_eq_getElem hi
  rw [Heap.IsCell, Heap.IsCell, Heap.cell?, Heap.cell?, ho, Heap.get?_addCells_of_some n ho]

/-- New cells in both worlds correspond. -/
theorem addCells (h : Worlds S R W W') (n : Nat) :
    ∃ R', (∀ i j, R i j → R' i j) ∧ (∀ k < n, R' (W.heap.size + k) (W'.heap.size + k)) ∧
      Worlds S R' ⟨W.heap.addCells n, W.globals⟩ ⟨W'.heap.addCells n, W'.globals⟩ := by
  let R' : Nat → Nat → Prop := fun i j => R i j ∨ ∃ k < n, i = W.heap.size + k ∧ j = W'.heap.size + k
  have hR : ∀ i j, R i j → R' i j := fun _ _ => Or.inl
  refine ⟨R', hR, fun k hk => Or.inr ⟨k, hk, rfl, rfl⟩, fun i j hij => ?_, fun i j j' hij hij' hi => ?_,
    fun i i' j hij hij' hj => ?_, fun j hj => ?_, h.globals.mono hR⟩
  · rcases hij with hij | ⟨k, hk, rfl, rfl⟩
    · obtain ⟨o, o', ho, ho', htwin⟩ := h.objects i j hij
      exact ⟨o, o', Heap.get?_addCells_of_some n ho, Heap.get?_addCells_of_some n ho', htwin.mono hR⟩
    · exact ⟨_, _, Heap.cell?_eq_some.1 (Heap.cell?_addCells hk),
        Heap.cell?_eq_some.1 (Heap.cell?_addCells hk),
        .cell (.boolean false)⟩
  · rcases hij with hij | ⟨k, hk, rfl, rfl⟩ <;> rcases hij' with hij' | ⟨l, hl, hkl, rfl⟩
    · exact h.right i j j' hij hij' ((isCell_addCells (h.lt hij).1).1 hi)
    · have := (h.lt hij).1
      omega
    · have := (h.lt hij').1
      omega
    · omega
  · rcases hij with hij | ⟨k, hk, rfl, rfl⟩ <;> rcases hij' with hij' | ⟨l, hl, rfl, hkl⟩
    · exact h.left i i' j hij hij' ((isCell_addCells (h.lt hij).2).1 hj)
    · have := (h.lt hij).2
      omega
    · have := (h.lt hij').2
      omega
    · omega
  · obtain ⟨hcell, hnone⟩ := h.spare j hj
    have hlt : j < W'.heap.size := Heap.lt_size_of_get? (Heap.cell?_eq_some.1 hcell)
    refine ⟨Heap.cell?_eq_some.2 (Heap.get?_addCells_of_some n (Heap.cell?_eq_some.1 hcell)), fun i hij => ?_⟩
    rcases hij with hij | ⟨k, hk, -, rfl⟩
    · exact hnone i hij
    · omega

/-- New cells of the second world are spare. -/
theorem addSpare (h : Worlds (fun _ => False) R W W') (n : Nat) :
    Worlds (fun j => W'.heap.size ≤ j ∧ j < W'.heap.size + n) R W ⟨W'.heap.addCells n, W'.globals⟩ := by
  have hgrow : Worlds (fun _ => False) R W ⟨W'.heap.addCells n, W'.globals⟩ :=
    h.grow (fun _ _ ho => ho) (fun _ _ ho => Heap.get?_addCells_of_some n ho) rfl rfl
  refine { hgrow with spare := fun j ⟨hj, hlt⟩ => ⟨?_, fun i hij => ?_⟩ }
  · obtain ⟨k, rfl⟩ := Nat.exists_eq_add_of_le hj
    exact Heap.cell?_addCells (by omega)
  · have := (h.lt hij).2
    omega

/-- New cells of the first world take the spare cells of the second one. -/
theorem takeSpare {b n : Nat} (h : Worlds (fun j => b ≤ j ∧ j < b + n) R W W') :
    ∃ R', (∀ i j, R i j → R' i j) ∧ (∀ k < n, R' (W.heap.size + k) (b + k)) ∧
      Worlds (fun _ => False) R' ⟨W.heap.addCells n, W.globals⟩ W' := by
  let R' : Nat → Nat → Prop := fun i j => R i j ∨ ∃ k < n, i = W.heap.size + k ∧ j = b + k
  have hR : ∀ i j, R i j → R' i j := fun _ _ => Or.inl
  have free {k i : Nat} (hk : k < n) : ¬ R i (b + k) := (h.spare (b + k) ⟨Nat.le_add_right .., by omega⟩).2 i
  refine ⟨R', hR, fun k hk => Or.inr ⟨k, hk, rfl, rfl⟩, fun i j hij => ?_, fun i j j' hij hij' hi => ?_,
    fun i i' j hij hij' hj => ?_, fun _ hj => hj.elim, h.globals.mono hR⟩
  · rcases hij with hij | ⟨k, hk, rfl, rfl⟩
    · obtain ⟨o, o', ho, ho', htwin⟩ := h.objects i j hij
      exact ⟨o, o', Heap.get?_addCells_of_some n ho, ho', htwin.mono hR⟩
    · have hcell := (h.spare (b + k) ⟨Nat.le_add_right .., by omega⟩).1
      exact ⟨_, _, Heap.cell?_eq_some.1 (Heap.cell?_addCells hk), Heap.cell?_eq_some.1 hcell,
        .cell (.boolean false)⟩
  · rcases hij with hij | ⟨k, hk, rfl, rfl⟩ <;> rcases hij' with hij' | ⟨l, hl, hkl, rfl⟩
    · exact h.right i j j' hij hij' ((isCell_addCells (h.lt hij).1).1 hi)
    · have := (h.lt hij).1
      omega
    · have := (h.lt hij').1
      omega
    · omega
  · rcases hij with hij | ⟨k, hk, rfl, rfl⟩ <;> rcases hij' with hij' | ⟨l, hl, rfl, hkl⟩
    · exact h.left i i' j hij hij' hj
    · exact absurd (hkl ▸ hij) (free hl)
    · exact absurd hij' (free hk)
    · omega

end Worlds

/-! ## Worlds that correspond to themselves -/

/-- A world whose objects that matter correspond to themselves. -/
def World.Tame (W : World) : Prop := ∃ P : Nat → Prop, Worlds (fun _ => False) (fun i j => P i ∧ i = j) W W

theorem forall₂_self {α β : Type} {P : α → β → Prop} {Q : α → α → Prop} {as : List α} {bs : List β}
    (h : List.Forall₂ P as bs) (hQ : ∀ a b, P a b → Q a a) : List.Forall₂ Q as as := by
  induction h with
  | nil => exact .nil
  | cons h _ ih => exact .cons (hQ _ _ h) ih

/-- Handles that are related to some handle correspond to themselves. -/
abbrev Partnered (R : Nat → Nat → Prop) (i j : Nat) : Prop := (∃ k, R i k) ∧ i = j

theorem Value.Twin.self (h : u.Twin R u') : u.Twin (Partnered R) u := by
  cases h with
  | number x => exact .number x
  | boolean b => exact .boolean b
  | object h => exact .object ⟨⟨_, h⟩, rfl⟩

theorem Code.Twin.self {c c' : Code} (h : c.Twin R c') : c.Twin (Partnered R) c := by
  obtain ⟨is, is', hb, -, hi⟩ := h.instrs
  refine ⟨rfl, rfl, rfl, is, is, hb, hb, forall₂_self hi fun a b h => ?_⟩
  cases h with
  | fixed h => exact .fixed h
  | const h h' hu => exact .const h h hu.self
  | jump h => exact .jump rfl
  | jumpIfFalse h => exact .jumpIfFalse rfl
  | getCell h => exact .getCell rfl
  | setCell h => exact .setCell rfl
  | loadCell h => exact .loadCell rfl

theorem Object.Twin.self (h : o.Twin R o') : o.Twin (Partnered R) o := by
  cases h with
  | string text => exact .string text
  | native h => exact .native h
  | code h => exact .code h.self
  | function hc h => exact .function ⟨⟨_, hc⟩, rfl⟩ (forall₂_self h fun _ b hb => ⟨⟨b, hb⟩, rfl⟩)
  | cell h => exact .cell h.self

/-- A world that corresponds to another one corresponds to itself. -/
theorem Worlds.tame (h : Worlds S R W W') : W.Tame := by
  refine ⟨fun i => ∃ k, R i k, fun i j ⟨⟨k, hik⟩, hij⟩ => ?_,
    fun i j j' ⟨_, hj⟩ ⟨_, hj'⟩ _ => hj'.symm.trans hj,
    fun i i' j ⟨_, hi⟩ ⟨_, hi'⟩ _ => hi'.trans hi.symm, fun _ hj => hj.elim,
    ⟨fun ix x hx => ⟨x, hx, rfl, ?_⟩, fun ix x hle hx => ?_⟩⟩
  · subst hij
    obtain ⟨o, o', ho, -, htwin⟩ := h.objects i k hik
    exact ⟨o, o, ho, ho, htwin.self⟩
  · obtain ⟨y, -, -, hv⟩ := h.globals.global ix x hx
    generalize x.value = v, y.value = w at hv
    cases hv with
    | some hv => exact .some hv.self
    | none => exact .none
  · exact absurd (Array.getElem?_eq_some_iff.1 hx).1 (Nat.not_lt.2 hle)

end ByteLisp
