/-
  ByteLisp: values and memory on the machine.

  The locations that functions capture are cells on the heap; the other ones are
  slots of the stack. A link says which cell a location is.

  * `Function.Compiled`: a code object is that of a function of the program;
  * `Val.Is`: a value of the machine is a value of the evaluation;
  * `Linked`: what the cells and the global variables hold is what the memory says;
    `Linked.setCell` and the lemmas around it: so it is after a change of both;
  * `Grown`: what may change while a part of a program is evaluated.
-/
import ByteLisp.Proofs.Generation.Coded
import ByteLisp.Proofs.Machine.Activations
import ByteLisp.Proofs.Scope.Scoped

namespace ByteLisp

namespace Meaning

/-! ## Values -/

/-- The cells of the locations that have one. -/
abbrev Link := Location → Option Handle

/-- The code object with the handle is that of a function of the program, the numbers in which
    satisfy `N`. -/
structure Function.Compiled (T : Scopes) (W : World) (N : Float → Prop) (f : Function) (k : Handle) :
    Prop where
  code : ∃ c code as, W.heap.code? k = some c ∧ Coded T W c f.scope (.code f.name f.params f.body)
    (Emit.draftOf f.name f.params (T.scope f.scope)).view 0 code as
  stands : ∃ s, s < T.size ∧ T.OpensFunction s f
  forms : f.body.Scoped T f.scope
  blocks : (f.body.collect Form.block? f.scope).Nodup
  numbers : ∀ x ∈ f.body.collect Form.number? f.scope, N x

/-- The cells that a closure holds are those of the variables that its function captures, in the
    activations in which it was made. -/
structure Function.Holds (T : Scopes) (L : Link) (f : Function) (env : Env) (cells : Array Handle) :
    Prop where
  size : cells.size = (T.scope f.scope).free.length
  cell : ∀ (j : Nat) x o, (T.scope f.scope).free[j]? = some x → T.Captured f.scope x o →
    ∃ i, cells[j]? = some i ∧ L ⟨env (T.home o), o, x⟩ = some i

/-- A value of the machine is a value of the evaluation. -/
inductive Val.Is (T : Scopes) (W : World) (N : Float → Prop) (L : Link) (h : Heap) : Val → Value → Prop
  | number (x : Float) : Val.Is T W N L h (.number x) (.number x)
  | boolean (b : Bool) : Val.Is T W N L h (.boolean b) (.boolean b)
  | string {text : String} {i : Handle} : h.get? i = some (.string text) →
      Val.Is T W N L h (.string text) (.object i)
  | builtin {g : Builtin} {i : Handle} : h.get? i = some (.native g.native) →
      Val.Is T W N L h (.builtin g) (.object i)
  | closure {f : Function} {env : Env} {i k : Handle} {cells : Array Handle} :
      h.get? i = some (.function ⟨k, cells⟩) → f.Compiled T W N k → f.Holds T L env cells →
      Val.Is T W N L h (.closure f env) (.object i)

section

variable {T : Scopes} {W V V' : World} {N : Float → Prop} {L L' : Link} {h : Heap} {x : Val} {v : Value}

theorem Val.Is.later (hx : x.Is T W N L V.heap v) (hL : ∀ ℓ i, L ℓ = some i → L' ℓ = some i)
    (hV : V.Leads V') : x.Is T W N L' V'.heap v := by
  cases hx with
  | number x => exact .number x
  | boolean b => exact .boolean b
  | string hi => exact .string (hV.objects _ _ hi nofun)
  | builtin hi => exact .builtin (hV.objects _ _ hi nofun)
  | closure hi hc hh =>
    refine .closure (hV.objects _ _ hi nofun) hc ⟨hh.size, fun j y o hj ho => ?_⟩
    obtain ⟨i, hi, hl⟩ := hh.cell j y o hj ho
    exact ⟨i, hi, hL _ i hl⟩

theorem Val.Is.tag? (hx : x.Is T W N L h v) : h.tag? v = some x.tag := by
  cases hx with
  | number x => rfl
  | boolean b => rfl
  | string hi | builtin hi | closure hi => simp only [Heap.tag?, hi, Option.map_some]; rfl

/-- The text of a value that is a string. -/
def Val.text? : Val → Option String
  | string text => some text
  | _ => none

theorem Val.Is.text? (hx : x.Is T W N L h v) : h.text? v = x.text? := by
  cases hx with
  | number x => rfl
  | boolean b => rfl
  | string hi | builtin hi | closure hi =>
    simp only [Heap.text?, Value.handle?, Option.bind_some, Heap.string?, hi, Val.text?]

end

/-! ## Memory -/

/-- The cells of locations, the memory of an evaluation, and the heap and the globals of a machine. -/
structure Stage where
  link : Link
  memory : Memory
  world : World

/-- A value of the machine is a value of the evaluation at that stage. -/
abbrev Stage.Is (S : Stage) (T : Scopes) (W : World) (N : Float → Prop) (x : Val) (v : Value) : Prop :=
  x.Is T W N S.link S.world.heap v

/-- The cells and the global variables hold what the memory says. -/
structure Linked (T : Scopes) (W : World) (N : Float → Prop) (S : Stage) : Prop where
  leads : W.Leads S.world
  names : S.world.globals.names.Nodup
  assigned : ∀ n x, S.memory.globals n = some x →
    ∃ v, S.world.globals.value? n = some v ∧ S.Is T W N x v
  unassigned : ∀ n, S.memory.globals n = none → S.world.globals.value? n = none
  cells : ∀ ℓ i, S.link ℓ = some i →
    ∃ v, S.world.heap.cell? i = some v ∧ S.Is T W N (S.memory.store ℓ) v
  captured : ∀ ℓ i, S.link ℓ = some i → ℓ.name ∈ (T.scope ℓ.scope).cells
  injective : ∀ ℓ ℓ' i, S.link ℓ = some i → S.link ℓ' = some i → ℓ = ℓ'
  new : ∀ ℓ, S.memory.next ≤ ℓ.activation → S.link ℓ = none ∧ S.memory.store ℓ = .boolean false

/-- What may change from one stage to a later one: the slots of activations in `P` and of new ones,
    the cells, and the global variables. -/
structure Grown (T : Scopes) (P : Nat → Prop) (S S' : Stage) : Prop where
  link : ∀ ℓ i, S.link ℓ = some i → S'.link ℓ = some i
  world : S.world.Leads S'.world
  next : S.memory.next ≤ S'.memory.next
  spares : ∀ ℓ, ℓ.activation < S.memory.next → ¬ P ℓ.activation →
    T.storage (some ℓ.scope) ℓ.name = .slot → S'.memory.store ℓ = S.memory.store ℓ

section

variable {T : Scopes} {W V : World} {N : Float → Prop} {P P' : Nat → Prop} {S S' S'' : Stage} {L : Link}
  {σ : Memory} {x : Val} {v : Value} {ℓ : Location} {i : Handle} {n : String} {ix : Nat}

/-- The code of the world at hand is there later. -/
theorem Linked.code? {m : Machine} {h : Handle} {c : Code} (hl : Linked T W N ⟨L, σ, m.world⟩)
    (hc : W.heap.code? h = some c) : m.heap.code? h = some c :=
  (show W.Leads m.world from hl.leads).code? hc

theorem Grown.refl (T : Scopes) (P : Nat → Prop) (S : Stage) : Grown T P S S :=
  ⟨fun _ _ h => h, .refl _, Nat.le_refl _, fun _ _ _ _ => rfl⟩

theorem Grown.trans (h : Grown T P S S') (h' : Grown T P S' S'') : Grown T P S S'' where
  link ℓ i hi := h'.link ℓ i (h.link ℓ i hi)
  world := h.world.trans h'.world
  next := Nat.le_trans h.next h'.next
  spares ℓ hl hP hs :=
    (h'.spares ℓ (Nat.lt_of_lt_of_le hl h.next) hP hs).trans (h.spares ℓ hl hP hs)

theorem Grown.mono (h : Grown T P S S') (hP : ∀ a, P a → P' a) : Grown T P' S S' :=
  ⟨h.link, h.world, h.next, fun ℓ hl hn => h.spares ℓ hl fun hp => hn (hP _ hp)⟩

theorem Stage.Is.later (hx : S.Is T W N x v) (h : Grown T P S S') : S'.Is T W N x v :=
  Val.Is.later hx h.link h.world

/-- Slots have no cells. -/
theorem Linked.link_slot (h : Linked T W N S) (hs : T.storage (some ℓ.scope) ℓ.name = .slot) :
    S.link ℓ = none := by
  cases hi : S.link ℓ with
  | none => rfl
  | some i =>
    have hc := h.captured ℓ i hi
    rw [Scopes.storage] at hs
    cases hk : (T.scope ℓ.scope).kind <;> simp [hk, hc] at hs

/-! ## Changes of the memory -/

/-- A new object that is no cell. -/
theorem Linked.alloc (h : Linked T W N ⟨L, σ, V⟩) (o : Object) :
    Linked T W N ⟨L, σ, ⟨V.heap.alloc o, V.globals⟩⟩ := by
  have hl : V.Leads ⟨V.heap.alloc o, V.globals⟩ := V.leads_alloc o
  have later {x : Val} {v : Value} (hx : x.Is T W N L V.heap v) : x.Is T W N L (V.heap.alloc o) v :=
    hx.later (fun _ _ h => h) hl
  refine ⟨h.leads.trans hl, h.names, fun n x hx => ?_, h.unassigned, fun ℓ i hi => ?_, h.captured,
    h.injective, h.new⟩
  · obtain ⟨v, hv, hx⟩ := h.assigned n x hx
    exact ⟨v, hv, later hx⟩
  · obtain ⟨v, hv, hx⟩ := h.cells ℓ i hi
    exact ⟨v, Heap.cell?_eq_some.2 (Heap.get?_alloc_of_some (Heap.cell?_eq_some.1 hv)), later hx⟩

theorem grown_alloc (o : Object) :
    Grown T P ⟨L, σ, V⟩ ⟨L, σ, ⟨V.heap.alloc o, V.globals⟩⟩ :=
  ⟨fun _ _ h => h, V.leads_alloc o, Nat.le_refl _, fun _ _ _ _ => rfl⟩

theorem store_put_of_ne {ℓ' : Location} (hne : ℓ' ≠ ℓ) : (σ.put ℓ x).store ℓ' = σ.store ℓ' :=
  if_neg hne

/-- A value is put into a cell. -/
theorem Linked.setCell (h : Linked T W N ⟨L, σ, V⟩) (hi : L ℓ = some i) (hx : x.Is T W N L V.heap v) :
    Linked T W N ⟨L, σ.put ℓ x, ⟨V.heap.setCell i v, V.globals⟩⟩ := by
  have hcell : V.heap.IsCell i := by
    obtain ⟨u, hu, -⟩ := h.cells ℓ i hi
    exact ⟨u, hu⟩
  have hl : V.Leads ⟨V.heap.setCell i v, V.globals⟩ := World.leads_setCell hcell
  have later {x : Val} {u : Value} (hx : x.Is T W N L V.heap u) : x.Is T W N L (V.heap.setCell i v) u :=
    hx.later (fun _ _ h => h) hl
  refine ⟨h.leads.trans hl, h.names, fun n y hy => ?_, h.unassigned, fun ℓ' j hj => ?_, h.captured,
    h.injective, fun ℓ' ha => ?_⟩
  · obtain ⟨u, hu, hy⟩ := h.assigned n y hy
    exact ⟨u, hu, later hy⟩
  · by_cases hne : ℓ' = ℓ
    · subst hne
      cases hi.symm.trans hj
      refine ⟨v, Heap.cell?_eq_some.2 (Heap.get?_setCell hcell), ?_⟩
      have : (σ.put ℓ' x).store ℓ' = x := if_pos rfl
      rw [Stage.Is, this]
      exact later hx
    · obtain ⟨u, hu, hy⟩ := h.cells ℓ' j hj
      have hji : j ≠ i := fun he => hne (h.injective ℓ' ℓ i (he ▸ hj) hi)
      refine ⟨u, ?_, ?_⟩
      · rw [Heap.cell?_eq_some] at hu ⊢
        exact (Heap.get?_setCell_of_ne hji).trans hu
      · rw [Stage.Is, store_put_of_ne hne]
        exact later hy
  · have hn := h.new ℓ' ha
    refine ⟨hn.1, ?_⟩
    rw [store_put_of_ne ?_]
    · exact hn.2
    · rintro rfl
      cases hi.symm.trans hn.1

theorem grown_setCell (h : Linked T W N ⟨L, σ, V⟩) (hi : L ℓ = some i) :
    Grown T P ⟨L, σ, V⟩ ⟨L, σ.put ℓ x, ⟨V.heap.setCell i v, V.globals⟩⟩ := by
  obtain ⟨u, hu, -⟩ := h.cells ℓ i hi
  refine ⟨fun _ _ h => h, World.leads_setCell ⟨u, hu⟩, Nat.le_refl _, fun ℓ' _ _ hs => ?_⟩
  refine store_put_of_ne fun he => ?_
  have := h.link_slot hs
  rw [he] at this
  cases hi.symm.trans this

/-- A value is put into a slot. -/
theorem Linked.putSlot (h : Linked T W N ⟨L, σ, V⟩) (hs : T.storage (some ℓ.scope) ℓ.name = .slot)
    (ha : ℓ.activation < σ.next) : Linked T W N ⟨L, σ.put ℓ x, V⟩ := by
  refine ⟨h.leads, h.names, h.assigned, h.unassigned, fun ℓ' i hi => ?_, h.captured, h.injective,
    fun ℓ' hn => ?_⟩
  · obtain ⟨v, hv, hx⟩ := h.cells ℓ' i hi
    refine ⟨v, hv, ?_⟩
    rw [Stage.Is, store_put_of_ne]
    · exact hx
    · rintro rfl
      cases hi.symm.trans (h.link_slot hs)
  · refine ⟨(h.new ℓ' hn).1, ?_⟩
    rw [store_put_of_ne]
    · exact (h.new ℓ' hn).2
    · rintro rfl
      exact absurd ha (Nat.not_lt.2 hn)

theorem grown_putSlot (hP : P ℓ.activation) : Grown T P ⟨L, σ, V⟩ ⟨L, σ.put ℓ x, V⟩ :=
  ⟨fun _ _ h => h, .refl _, Nat.le_refl _, fun _ _ hP' _ =>
    store_put_of_ne fun he => hP' (he ▸ hP)⟩

end

end Meaning

/-! ## Global variables -/

namespace Globals

variable {g : Globals} {ix : Nat} {n m : String} {v u : Value}

/-- If all names are different, a name is that of one place only. -/
theorem indexOf?_of_name? (hd : g.names.Nodup) (hn : g.name? ix = some n) : g.indexOf? n = some ix := by
  obtain ⟨x, hx, hxn⟩ := Option.map_eq_some_iff.1 hn
  obtain ⟨hlt, rfl⟩ := Array.getElem?_eq_some_iff.1 hx
  rw [indexOf?, Array.findIdx?_eq_some_iff_getElem]
  refine ⟨hlt, by simpa using hxn, fun j hj hjn => ?_⟩
  have hji : j < g.names.length := by
    simp only [names, List.length_map, Array.length_toList]
    omega
  have hlt' : ix < g.names.length := by simpa [names] using hlt
  have heq : g.names[j] = g.names[ix] := by
    simp only [names, List.getElem_map, Array.getElem_toList]
    rw [hxn]
    simpa using hjn
  exact absurd ((List.Nodup.getElem_inj_iff hd).1 heq) (Nat.ne_of_lt hj)

theorem value?_eq_some (hd : g.names.Nodup) :
    g.value? n = some v ↔ ∃ ix x, g.get? ix = some x ∧ x.name = n ∧ x.value = some v := by
  constructor
  · intro h
    obtain ⟨ix, hix, h⟩ := Option.bind_eq_some_iff.1 h
    obtain ⟨x, hx, hn⟩ := get?_of_indexOf? hix
    rw [hx] at h
    exact ⟨ix, x, hx, hn, h⟩
  · rintro ⟨ix, x, hx, rfl, hv⟩
    have hix : g.indexOf? x.name = some ix := indexOf?_of_name? hd (by rw [name?, hx]; rfl)
    rw [value?, hix, Option.bind_some, hx]
    exact hv

theorem value?_of_get? (hd : g.names.Nodup) {x : Global} (hx : g.get? ix = some x) :
    g.value? x.name = x.value := by
  have hix : g.indexOf? x.name = some ix := indexOf?_of_name? hd (by rw [name?, hx]; rfl)
  rw [value?, hix, Option.bind_some, hx]
  rfl

/-- Only the variable at the place gets another value. -/
theorem value?_set (hd : g.names.Nodup) (hn : g.name? ix = some n) :
    (g.set ix v).value? m = if m = n then some v else g.value? m := by
  have hd' : (g.set ix v).names.Nodup := by rwa [Machine.names_set]
  obtain ⟨y, hy, rfl⟩ := Option.map_eq_some_iff.1 hn
  split
  · next hm =>
    subst hm
    have hget : (g.set ix v).get? ix = some ⟨y.name, some v⟩ := by
      rw [get?_set, hy, Option.map_some, if_pos rfl]
    exact value?_of_get? hd' hget
  · next hm =>
    cases hjx : g.indexOf? m with
    | none =>
      have hx' : (g.set ix v).indexOf? m = none := by
        rwa [indexOf?_eq_none, Machine.names_set, ← indexOf?_eq_none]
      rw [value?, value?, hjx, hx']
      rfl
    | some jx =>
      obtain ⟨x, hx, rfl⟩ := get?_of_indexOf? hjx
      have hne : ix ≠ jx := by
        rintro rfl
        cases hy.symm.trans hx
        exact hm rfl
      rw [value?_of_get? hd hx]
      have hget : (g.set ix v).get? jx = some x := by
        rw [get?_set, hx, Option.map_some, if_neg hne]
      exact value?_of_get? hd' hget

end Globals

namespace Meaning

section

variable {T : Scopes} {W V : World} {N : Float → Prop} {P : Nat → Prop} {L : Link}
  {σ : Memory} {x : Val} {v : Value} {n : String} {ix : Nat}

/-- A value is given to a global variable. -/
theorem Linked.setGlobal (h : Linked T W N ⟨L, σ, V⟩) (hn : V.globals.name? ix = some n)
    (hx : x.Is T W N L V.heap v) :
    Linked T W N ⟨L, σ.putGlobal n x, ⟨V.heap, V.globals.set ix v⟩⟩ := by
  have hl : V.Leads ⟨V.heap, V.globals.set ix v⟩ := V.leads_setGlobal ix v
  refine ⟨h.leads.trans hl, ?_, fun m y hy => ?_, fun m hm => ?_, h.cells, h.captured, h.injective,
    h.new⟩
  · rw [Machine.names_set]
    exact h.names
  · rw [Globals.value?_set h.names hn]
    change (if m = n then some x else σ.globals m) = some y at hy
    split at hy
    · next hmn =>
      cases hy
      exact ⟨v, if_pos hmn, hx⟩
    · next hmn =>
      obtain ⟨u, hu, hy⟩ := h.assigned m y hy
      exact ⟨u, (if_neg hmn).trans hu, hy⟩
  · rw [Globals.value?_set h.names hn]
    change (if m = n then some x else σ.globals m) = none at hm
    split at hm
    · cases hm
    · next hmn => exact (if_neg hmn).trans (h.unassigned m hm)

theorem grown_setGlobal : Grown T P ⟨L, σ, V⟩ ⟨L, σ.putGlobal n x, ⟨V.heap, V.globals.set ix v⟩⟩ :=
  ⟨fun _ _ h => h, V.leads_setGlobal ix v, Nat.le_refl _, fun _ _ _ _ => rfl⟩

end

end Meaning

end ByteLisp
