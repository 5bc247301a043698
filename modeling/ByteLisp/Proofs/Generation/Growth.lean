/-
  ByteLisp: code generation only adds.

  Generating code adds objects to the heap, variables to the table of globals, and
  constants and cells to the draft; what is there stays as it is.

  * `bind_ok` and the lemmas around it take a successful action apart;
  * `Globals.Adds`: a table has more names at its end, `World.Extends` orders the
    heap and the globals, `Emission.Grows` also the drafts;
  * `Emit.Growing`: an action grows the emission if it succeeds, and extends it
    even if it fails; `emit_growing` says so of every form whose global
    declarations are allowed (`Form.Admits`).
-/
import ByteLisp.Emit
import ByteLisp.Proofs.Scope.Collect

namespace ByteLisp

/-! ## Objects and global variables -/

theorem getElem?_push_of_some {α : Type} {xs : Array α} {x y : α} {i : Nat} (h : xs[i]? = some x) :
    (xs.push y)[i]? = some x := by
  obtain ⟨hlt, -⟩ := Array.getElem?_eq_some_iff.1 h
  rw [Array.getElem?_push_lt hlt, ← h, Array.getElem?_eq_getElem hlt]

namespace Heap

theorem get?_alloc_of_some {h : Heap} {o o' : Object} {i : Handle} (hi : h.get? i = some o') :
    (h.alloc o).get? i = some o' := by
  exact getElem?_push_of_some hi

@[simp] theorem get?_alloc_size (h : Heap) (o : Object) : (h.alloc o).get? h.size = some o := by
  simp [get?, alloc, size]

@[simp] theorem size_alloc (h : Heap) (o : Object) : (h.alloc o).size = h.size + 1 := by
  simp [alloc, size]

theorem get?_alloc_cases {h : Heap} {o o' : Object} {i : Handle} (hi : (h.alloc o).get? i = some o') :
    h.get? i = some o' ∨ i = h.size ∧ o' = o := by
  unfold get? alloc size at *
  rw [Array.getElem?_push] at hi
  split at hi
  · next he => exact Or.inr ⟨he, (Option.some.inj hi).symm⟩
  · exact Or.inl hi

theorem lt_size_of_get? {h : Heap} {i : Handle} {o : Object} (hi : h.get? i = some o) : i < h.size :=
  (Array.getElem?_eq_some_iff.1 hi).1

theorem code?_eq_some {h : Heap} {i : Handle} {c : Code} :
    h.code? i = some c ↔ h.get? i = some (.code c) := by
  unfold code?
  split <;> simp_all

theorem string?_eq_some {h : Heap} {i : Handle} {text : String} :
    h.string? i = some text ↔ h.get? i = some (.string text) := by
  unfold string?
  split <;> simp_all

theorem cell?_eq_some {h : Heap} {i : Handle} {v : Value} :
    h.cell? i = some v ↔ h.get? i = some (.cell v) := by
  unfold cell?
  split <;> simp_all

theorem cell?_of_cell?_alloc {h : Heap} {o : Object} {i : Handle} {v : Value}
    (ho : ∀ v, o ≠ .cell v) (hi : (h.alloc o).cell? i = some v) : h.cell? i = some v := by
  rw [cell?_eq_some] at hi ⊢
  rcases get?_alloc_cases hi with hi | ⟨-, rfl⟩
  · exact hi
  · exact absurd rfl (ho v)

end Heap

namespace Globals

theorem get?_of_indexOf? {g : Globals} {name : String} {ix : Nat} (h : g.indexOf? name = some ix) :
    ∃ x, g.get? ix = some x ∧ x.name = name := by
  unfold indexOf? at h
  obtain ⟨hlt, hn, -⟩ := Array.findIdx?_eq_some_iff_getElem.1 h
  exact ⟨g.entries[ix], Array.getElem?_eq_getElem hlt, by simpa using hn⟩

theorem name?_of_indexOf? {g : Globals} {name : String} {ix : Nat} (h : g.indexOf? name = some ix) :
    g.name? ix = some name := by
  obtain ⟨x, hx, hn⟩ := get?_of_indexOf? h
  simp [name?, hx, hn]

theorem lt_size_of_name? {g : Globals} {ix : Nat} {name : String} (h : g.name? ix = some name) :
    ix < g.size := by
  obtain ⟨x, hx, -⟩ := Option.map_eq_some_iff.1 h
  exact (Array.getElem?_eq_some_iff.1 hx).1

theorem name?_define (g : Globals) (name : String) :
    (g.define name).2.name? (g.define name).1 = some name := by
  unfold define insertNew
  split
  · next h => exact name?_of_indexOf? h
  · simp [name?, get?, size]

/-- The names of the variables, in order. -/
def names (g : Globals) : List String := g.entries.toList.map (·.name)

theorem names_getElem? (g : Globals) (ix : Nat) : g.names[ix]? = g.name? ix := by
  simp [names, name?, get?]

theorem indexOf?_eq_some {g : Globals} {name : String} {ix : Nat} :
    g.indexOf? name = some ix ↔ g.name? ix = some name ∧ ∀ j < ix, g.name? j ≠ some name := by
  simp only [indexOf?, Array.findIdx?_eq_some_iff_getElem, decide_eq_true_eq]
  constructor
  · rintro ⟨hlt, hname, hfirst⟩
    refine ⟨by simp [name?, get?, hlt, hname], fun j hj hj' => hfirst j hj ?_⟩
    simpa [name?, get?, Nat.lt_trans hj hlt] using hj'
  · rintro ⟨hname, hfirst⟩
    have hlt : ix < g.entries.size := lt_size_of_name? hname
    refine ⟨hlt, ?_, fun j hj hj' => hfirst j hj ?_⟩
    · simpa [name?, get?, hlt] using hname
    · have hlt : j < g.entries.size := Nat.lt_trans hj hlt
      simp [name?, get?, hlt, hj']

/-- The table with more variables at its end, which have no value. -/
def adding (g : Globals) (ns : List String) : Globals :=
  ⟨g.entries ++ (ns.map fun n => (⟨n, none⟩ : Global)).toArray⟩

@[simp] theorem adding_nil (g : Globals) : g.adding [] = g := by simp [adding]

@[simp] theorem adding_adding (g : Globals) (ns ms : List String) :
    (g.adding ns).adding ms = g.adding (ns ++ ms) := by simp [adding, Array.append_assoc]

@[simp] theorem names_adding (g : Globals) (ns : List String) :
    (g.adding ns).names = g.names ++ ns := by simp [names, adding, Function.comp_def]

theorem get?_adding {g : Globals} {ns : List String} {ix : Nat} {x : Global}
    (h : g.get? ix = some x) : (g.adding ns).get? ix = some x := by
  unfold get? adding at *
  rw [Array.getElem?_append_left (Array.getElem?_eq_some_iff.1 h).1, h]

/-- A variable with a value is none of those that were added. -/
theorem get?_of_get?_adding {g : Globals} {ns : List String} {ix : Nat} {x : Global} {v : Value}
    (h : (g.adding ns).get? ix = some x) (hv : x.value = some v) : g.get? ix = some x := by
  unfold get? adding at *
  rw [Array.getElem?_append] at h
  split at h
  · exact h
  · obtain ⟨n, -, rfl⟩ := List.mem_map.1 (Array.mem_toList_iff.2 (Array.mem_of_getElem? h))
    cases hv

theorem indexOf?_eq_none {g : Globals} {name : String} : g.indexOf? name = none ↔ name ∉ g.names := by
  simp [indexOf?, names]

theorem mem_names_of_name? {g : Globals} {name : String} {ix : Nat} (h : g.name? ix = some name) :
    name ∈ g.names := by
  obtain ⟨x, hx, rfl⟩ := Option.map_eq_some_iff.1 h
  exact List.mem_map_of_mem (Array.mem_toList_iff.2 (Array.mem_of_getElem? hx))

theorem define_of_mem {g : Globals} {name : String} (h : name ∈ g.names) : (g.define name).2 = g := by
  unfold define insertNew
  split
  · rfl
  · next hn => exact absurd h (indexOf?_eq_none.1 hn)

theorem define_of_not_mem {g : Globals} {name : String} (h : name ∉ g.names) :
    (g.define name).2 = g.adding [name] := by
  rw [← indexOf?_eq_none] at h
  simp [define, insertNew, h, adding]

/-- A table with more variables at its end: their names are new and satisfy `N`, and they have
    no value. -/
def Adds (N : String → Prop) (g g' : Globals) : Prop :=
  ∃ ns, g' = g.adding ns ∧ ns.Nodup ∧ ∀ n ∈ ns, N n ∧ n ∉ g.names

variable {N : String → Prop} {g g' g₁ g₂ : Globals}

theorem Adds.refl (g : Globals) : g.Adds N g := ⟨[], by simp, List.nodup_nil, nofun⟩

theorem Adds.trans (h : g.Adds N g₁) (h' : g₁.Adds N g₂) : g.Adds N g₂ := by
  obtain ⟨ns, rfl, hd, hns⟩ := h
  obtain ⟨ms, rfl, hd', hms⟩ := h'
  have fresh : ∀ m ∈ ms, m ∉ g.names ∧ m ∉ ns := fun m hm => by simpa using (hms m hm).2
  refine ⟨ns ++ ms, adding_adding .., ?_, fun n hn => ?_⟩
  · exact List.nodup_append.2 ⟨hd, hd', fun a ha b hb h => (fresh b hb).2 (h ▸ ha)⟩
  · rcases List.mem_append.1 hn with hn | hn
    · exact hns n hn
    · exact ⟨(hms n hn).1, (fresh n hn).1⟩

theorem Adds.truncate (h : g.Adds N g') : g'.truncate g.size = g := by
  obtain ⟨ns, rfl, -⟩ := h
  simp [Globals.truncate, adding, size]

theorem adds_define {name : String} (hN : N name) : g.Adds N (g.define name).2 := by
  by_cases h : name ∈ g.names
  · rw [define_of_mem h]
    exact .refl g
  · refine ⟨[name], define_of_not_mem h, by simp, fun n hn => ?_⟩
    obtain rfl := List.mem_singleton.1 hn
    exact ⟨hN, h⟩

end Globals

/-! ## Growing emissions -/

/-- The heap and the globals that code refers to. -/
structure World where
  heap : Heap
  globals : Globals

/-- What is on the heap and in the table of globals is still there later, and no cell is new; the
    new global variables have no value, and their names satisfy `N`. -/
structure World.Extends (N : String → Prop) (W W' : World) : Prop where
  heap : ∀ i o, W.heap.get? i = some o → W'.heap.get? i = some o
  cells : ∀ i v, W'.heap.cell? i = some v → W.heap.cell? i = some v
  added : W.globals.Adds N W'.globals

/-- The heap and the globals of an emission. -/
abbrev Emission.world (e : Emission) : World := ⟨e.heap, e.globals⟩

/-- All of a draft but its places. -/
def Draft.pools (d : Draft) :
    String × Nat × Array String × Array Value × Array String :=
  (d.name, d.arity, d.free, d.constants, d.own)

/-- What is in the pools of a draft is still there in a later one of the same function. -/
structure Draft.Grows (d d' : Draft) : Prop where
  name : d'.name = d.name
  arity : d'.arity = d.arity
  free : d'.free = d.free
  constants : ∀ (i : Nat) v, d.constants[i]? = some v → d'.constants[i]? = some v
  own : ∀ (i : Nat) x, d.own[i]? = some x → d'.own[i]? = some x

/-- The heap, the globals and the draft are still there. -/
structure Emission.Grows (N : String → Prop) (e e' : Emission) : Prop
    extends e.world.Extends N e'.world where
  draft : e.draft.Grows e'.draft

variable {N : String → Prop}

namespace World

theorem Extends.refl (W : World) : W.Extends N W := ⟨fun _ _ h => h, fun _ _ h => h, .refl _⟩

theorem Extends.trans {W₁ W₂ W₃ : World} (h : W₁.Extends N W₂) (h' : W₂.Extends N W₃) :
    W₁.Extends N W₃ :=
  ⟨fun i o ho => h'.heap i o (h.heap i o ho), fun i v hv => h.cells i v (h'.cells i v hv),
    h.added.trans h'.added⟩

theorem Extends.globals {W W' : World} (h : W.Extends N W') {ix : Nat} {x : Global}
    (hx : W.globals.get? ix = some x) : W'.globals.get? ix = some x := by
  obtain ⟨ns, hns, -⟩ := h.added
  rw [hns]
  exact Globals.get?_adding hx

theorem Extends.values {W W' : World} (h : W.Extends N W') {ix : Nat} {x : Global} {v : Value}
    (hx : W'.globals.get? ix = some x) (hv : x.value = some v) : W.globals.get? ix = some x := by
  obtain ⟨ns, hns, -⟩ := h.added
  rw [hns] at hx
  exact Globals.get?_of_get?_adding hx hv

theorem extends_alloc (W : World) {o : Object} (ho : ∀ v, o ≠ .cell v) :
    W.Extends N ⟨W.heap.alloc o, W.globals⟩ :=
  ⟨fun _ _ h => Heap.get?_alloc_of_some h, fun _ _ h => Heap.cell?_of_cell?_alloc ho h, .refl _⟩

end World

namespace Draft

theorem Grows.refl (d : Draft) : d.Grows d := ⟨rfl, rfl, rfl, fun _ _ h => h, fun _ _ h => h⟩

theorem Grows.trans {d₁ d₂ d₃ : Draft} (h : d₁.Grows d₂) (h' : d₂.Grows d₃) : d₁.Grows d₃ :=
  ⟨h'.name.trans h.name, h'.arity.trans h.arity, h'.free.trans h.free,
    fun i v hv => h'.constants i v (h.constants i v hv), fun i x hx => h'.own i x (h.own i x hx)⟩

theorem grows_addBlockCells (d : Draft) (names : List String) : d.Grows (d.addBlockCells names) := by
  unfold addBlockCells
  induction names generalizing d with
  | nil => exact .refl d
  | cons name names ih =>
    have first : d.Grows (d.addBlockCell name) :=
      ⟨rfl, rfl, rfl, fun _ _ h => h, fun _ _ hx => getElem?_push_of_some hx⟩
    exact first.trans (ih _)

end Draft

namespace Emission

theorem Grows.refl (e : Emission) : e.Grows N e := ⟨.refl _, .refl _⟩

theorem Grows.trans {e₁ e₂ e₃ : Emission} (h : e₁.Grows N e₂) (h' : e₂.Grows N e₃) :
    e₁.Grows N e₃ :=
  ⟨h.toExtends.trans h'.toExtends, h.draft.trans h'.draft⟩

end Emission

namespace Emit

variable {α β : Type}

/-! ## Successful actions -/

theorem bind_ok {x : Emit α} {f : α → Emit β} {e e' : Emission} {b : β} :
    (x >>= f) e = .ok b e' ↔ ∃ a e₁, x e = .ok a e₁ ∧ f a e₁ = .ok b e' := by
  change EStateM.bind x f e = _ ↔ _
  unfold EStateM.bind
  cases hx : x e with
  | error err e₁ => simp
  | ok a e₁ =>
    constructor
    · exact fun h => ⟨a, e₁, rfl, h⟩
    · rintro ⟨_, _, hx', h⟩
      cases hx'
      exact h

theorem pure_ok {a b : α} {e e' : Emission} : (pure a : Emit α) e = .ok b e' ↔ a = b ∧ e = e' := by
  change EStateM.Result.ok a e = _ ↔ _
  simp

theorem throw_ok {err : CompileError} {b : α} {e e' : Emission} :
    (throw err : Emit α) e = .ok b e' ↔ False := by
  change EStateM.Result.error err e = _ ↔ _
  simp

theorem get_ok {e e' e₁ : Emission} : (get : Emit Emission) e = .ok e₁ e' ↔ e₁ = e ∧ e' = e := by
  change EStateM.Result.ok e e = _ ↔ _
  simp [eq_comm]

theorem set_ok {e e' e₁ : Emission} {u : PUnit} : (set e₁ : Emit PUnit) e = .ok u e' ↔ e' = e₁ := by
  change EStateM.Result.ok _ e₁ = _ ↔ _
  simp [eq_comm]

theorem draft_ok {e e' : Emission} {d : Draft} : draft e = .ok d e' ↔ d = e.draft ∧ e' = e := by
  change EStateM.Result.ok e.draft e = _ ↔ _
  simp [eq_comm]

theorem update_ok {f : Draft → Draft} {e e' : Emission} {u : Unit} :
    update f e = .ok u e' ↔ e' = { e with draft := f e.draft } := by
  change EStateM.Result.ok () { e with draft := f e.draft } = _ ↔ _
  simp [eq_comm]

theorem instr_ok {i : Instr} {e e' : Emission} {is : List Instr} :
    instr i e = .ok is e' ↔ is = [i] ∧ e' = { e with draft := e.draft.advance i.size } := by
  change EStateM.Result.ok [i] { e with draft := e.draft.advance i.size } = _ ↔ _
  simp [eq_comm]

theorem reserve_ok {e e' : Emission} {u : Unit} :
    reserve e = .ok u e' ↔ e' = { e with draft := e.draft.advance 3 } := update_ok

theorem note_ok {text : String} {e e' : Emission} {u : Unit} :
    note text e = .ok u e' ↔ e' = { e with notes := e.notes.push text } := by
  change EStateM.Result.ok () { e with notes := e.notes.push text } = _ ↔ _
  simp [eq_comm]

theorem alloc_ok {o : Object} {e e' : Emission} {h : Handle} :
    alloc o e = .ok h e' ↔ h = e.heap.size ∧ e' = { e with heap := e.heap.alloc o } := by
  change EStateM.Result.ok e.heap.size { e with heap := e.heap.alloc o } = _ ↔ _
  simp [eq_comm]

theorem ite_ok {p : Prop} [Decidable p] {x y : Emit α} {e e' : Emission} {a : α} :
    (if p then x else y) e = .ok a e' ↔ p ∧ x e = .ok a e' ∨ ¬ p ∧ y e = .ok a e' := by
  split <;> simp_all

theorem map_ok {f : α → β} {x : Emit α} {e e' : Emission} {b : β} :
    (f <$> x) e = .ok b e' ↔ ∃ a, x e = .ok a e' ∧ f a = b := by
  change EStateM.map f x e = _ ↔ _
  unfold EStateM.map
  cases x e <;> simp; grind

/-! ## Growing actions -/

theorem bind_error {x : Emit α} {f : α → Emit β} {e e' : Emission} {err : CompileError} :
    (x >>= f) e = .error err e' ↔
      x e = .error err e' ∨ ∃ a e₁, x e = .ok a e₁ ∧ f a e₁ = .error err e' := by
  change EStateM.bind x f e = _ ↔ _
  unfold EStateM.bind
  cases hx : x e with
  | error err e₁ => simp
  | ok a e₁ =>
    constructor
    · exact fun h => Or.inr ⟨a, e₁, rfl, h⟩
    · rintro (h | ⟨_, _, hx', h⟩)
      · cases h
      · cases hx'
        exact h

/-- The emission extends the one before, however the action ends. -/
structure Extending (N : String → Prop) (x : Emit α) : Prop where
  ok : ∀ {e a e'}, x e = .ok a e' → e.world.Extends N e'.world
  error : ∀ {e err e'}, x e = .error err e' → e.world.Extends N e'.world

/-- The emission grows if the action succeeds, and extends the one before if it fails. -/
structure Growing (N : String → Prop) (x : Emit α) : Prop where
  ok : ∀ {e a e'}, x e = .ok a e' → e.Grows N e'
  error : ∀ {e err e'}, x e = .error err e' → e.world.Extends N e'.world

theorem Growing.extending {x : Emit α} (h : Growing N x) : Extending N x :=
  ⟨fun he => (h.ok he).toExtends, h.error⟩

theorem extending_bind {x : Emit α} {f : α → Emit β} (hx : Extending N x)
    (hf : ∀ a, Extending N (f a)) : Extending N (x >>= f) where
  ok h := by
    obtain ⟨a, e₁, h₁, h₂⟩ := bind_ok.1 h
    exact (hx.ok h₁).trans ((hf a).ok h₂)
  error h := by
    rcases bind_error.1 h with h | ⟨a, e₁, h₁, h₂⟩
    · exact hx.error h
    · exact (hx.ok h₁).trans ((hf a).error h₂)

theorem growing_bind {x : Emit α} {f : α → Emit β} (hx : Growing N x) (hf : ∀ a, Growing N (f a)) :
    Growing N (x >>= f) where
  ok h := by
    obtain ⟨a, e₁, h₁, h₂⟩ := bind_ok.1 h
    exact (hx.ok h₁).trans ((hf a).ok h₂)
  error := (extending_bind hx.extending fun a => (hf a).extending).error

theorem growing_pure (a : α) : Growing N (pure a : Emit α) where
  ok h := by
    obtain ⟨-, rfl⟩ := pure_ok.1 h
    exact .refl _
  error h := nomatch h

theorem growing_throw (err : CompileError) : Growing N (throw err : Emit α) where
  ok h := (throw_ok.1 h).elim
  error h := by cases h; exact .refl _

theorem growing_ite {p : Prop} [Decidable p] {x y : Emit α} (hx : Growing N x) (hy : Growing N y) :
    Growing N (if p then x else y) := by
  split
  · exact hx
  · exact hy

theorem growing_map {f : α → β} {x : Emit α} (hx : Growing N x) : Growing N (f <$> x) where
  ok h := by
    obtain ⟨a, h, -⟩ := map_ok.1 h
    exact hx.ok h
  error {e err e'} h := by
    change EStateM.map f x e = _ at h
    unfold EStateM.map at h
    cases hxe : x e with
    | ok a e₁ => rw [hxe] at h; cases h
    | error err₁ e₁ => rw [hxe] at h; cases h; exact hx.error hxe

theorem growing_get : Growing N (get : Emit Emission) where
  ok h := by
    obtain ⟨-, rfl⟩ := get_ok.1 h
    exact .refl _
  error h := nomatch h

theorem growing_draft : Growing N draft := growing_bind growing_get fun _ => growing_pure _

theorem extending_update (f : Draft → Draft) : Extending N (update f) where
  ok h := by cases update_ok.1 h; exact .refl _
  error h := nomatch h

/-- Changing the draft grows the emission if the pools only grow. -/
theorem growing_update {f : Draft → Draft} (hf : ∀ d : Draft, d.Grows (f d)) :
    Growing N (update f) where
  ok h := by cases update_ok.1 h; exact ⟨.refl _, hf _⟩
  error h := nomatch h

/-- A change of the draft that leaves all but its places as it is. -/
theorem growing_keep {f : Draft → Draft} (h : ∀ d, (f d).pools = d.pools) :
    Growing N (update f) := by
  refine growing_update fun d => ?_
  obtain ⟨hn, ha, hf, hc, ho⟩ : (f d).name = d.name ∧ (f d).arity = d.arity ∧
      (f d).free = d.free ∧ (f d).constants = d.constants ∧ (f d).own = d.own := by
    simpa [Draft.pools] using h d
  exact ⟨hn, ha, hf, fun i v hi => by rwa [hc], fun i x hi => by rwa [ho]⟩

theorem growing_grow {n : Nat} : Growing N (update (·.grow n)) := growing_keep fun _ => rfl

theorem growing_shrink {n : Nat} : Growing N (update (·.shrink n)) := growing_keep fun _ => rfl

theorem growing_addLocal {name : String} {slot : Nat} : Growing N (update (·.addLocal name slot)) :=
  growing_keep fun _ => rfl

theorem growing_enterBlock : Growing N (update (·.enterBlock)) := growing_keep fun _ => rfl

theorem growing_exitBlock : Growing N (update (·.exitBlock)) := growing_keep fun _ => rfl

theorem growing_instr (i : Instr) : Growing N (instr i) :=
  growing_bind (growing_keep fun _ => rfl) fun _ => growing_pure _

theorem growing_reserve : Growing N reserve := growing_keep fun _ => rfl

theorem growing_note (text : String) : Growing N (note text) where
  ok h := by cases note_ok.1 h; exact ⟨.refl _, .refl _⟩
  error h := nomatch h

theorem growing_alloc {o : Object} (ho : ∀ v, o ≠ .cell v) : Growing N (alloc o) where
  ok h := by
    obtain ⟨-, rfl⟩ := alloc_ok.1 h
    exact ⟨World.extends_alloc _ ho, .refl _⟩
  error h := nomatch h

theorem growing_address : Growing N address :=
  growing_bind growing_draft fun _ => growing_ite (growing_pure _) (growing_throw _)

theorem growing_addressOf (offset : Nat) : Growing N (addressOf offset) :=
  growing_ite (growing_pure _) (growing_bind growing_draft fun _ => growing_throw _)

theorem growing_placeOperand (n : Nat) : Growing N (placeOperand n) :=
  growing_ite (growing_pure _) (growing_bind growing_draft fun _ => growing_throw _)

theorem growing_countOperand (n : Nat) (whole : Form) (why : Malformation) :
    Growing N (countOperand n whole why) :=
  growing_ite (growing_pure _) (growing_throw _)

/-- An action that at each emission does what some growing action does. -/
theorem growing_of_forall {x : Emit α} (h : ∀ e, ∃ y : Emit α, Growing N y ∧ x e = y e) :
    Growing N x where
  ok {e a e'} he := by
    obtain ⟨y, hy, hxy⟩ := h e
    exact hy.ok (hxy ▸ he)
  error {e err e'} he := by
    obtain ⟨y, hy, hxy⟩ := h e
    exact hy.error (hxy ▸ he)

/-! ## Constants and variables -/

/-- Adds a constant. -/
def addConstant (v : Value) : Emit Unit :=
  update fun d => { d with constants := d.constants.push v }

/-- Defines a global variable. -/
def defineGlobal (name : String) : Emit Unit :=
  modify fun e => { e with globals := (e.globals.define name).2 }

theorem growing_addConstant (v : Value) : Growing N (addConstant v) :=
  growing_update fun _ => ⟨rfl, rfl, rfl, fun _ _ h => getElem?_push_of_some h, fun _ _ h => h⟩

theorem growing_defineGlobal {name : String} (hN : N name) : Growing N (defineGlobal name) where
  ok h := by
    cases h
    exact ⟨⟨fun _ _ h => h, fun _ _ h => h, Globals.adds_define hN⟩, .refl _⟩
  error h := nomatch h

theorem constantIndex_apply (v : Value) (e : Emission) :
    constantIndex v e =
      match e.draft.constants.findIdx? (e.heap.sameConstant · v) with
      | some ix => constantIndex.check e.draft.name ix e
      | none =>
        (do addConstant v; constantIndex.check e.draft.name e.draft.constants.size :
          Emit UInt8) e := by
  change (match e.draft.constants.findIdx? (e.heap.sameConstant · v) with
    | some ix => constantIndex.check e.draft.name ix
    | none => _ : Emit UInt8) e = _
  cases e.draft.constants.findIdx? (e.heap.sameConstant · v) <;> rfl

theorem globalIndex_apply (T : Scopes) (name : String) (e : Emission) :
    globalIndex T name e =
      match e.globals.indexOf? name with
      | some ix => globalIndex.check ix e
      | none =>
        if T.isGlobal name then
          (do defineGlobal name; globalIndex.check (e.globals.define name).1 : Emit UInt8) e
        else .error (.reference name) e := by
  change (match e.globals.indexOf? name with
    | some ix => globalIndex.check ix
    | none => _ : Emit UInt8) e = _
  cases e.globals.indexOf? name with
  | some ix => rfl
  | none => cases T.isGlobal name <;> rfl

theorem growing_constantIndex (v : Value) : Growing N (constantIndex v) := by
  have check (name ix) : Growing N (constantIndex.check name ix) :=
    growing_ite (growing_pure _) (growing_throw _)
  refine growing_of_forall fun e => ?_
  rw [constantIndex_apply]
  split
  · exact ⟨_, check _ _, rfl⟩
  · exact ⟨_, growing_bind (growing_addConstant v) fun _ => check _ _, rfl⟩

theorem growing_constant (v : Value) : Growing N (constant v) :=
  growing_bind (growing_constantIndex v) fun _ =>
    growing_bind growing_grow fun _ => growing_instr _

theorem growing_globalIndex {T : Scopes} {name : String} (hN : T.isGlobal name = true → N name) :
    Growing N (globalIndex T name) := by
  have check (ix) : Growing N (globalIndex.check ix) :=
    growing_ite (growing_pure _) (growing_throw _)
  refine growing_of_forall fun e => ?_
  rw [globalIndex_apply]
  split
  · exact ⟨_, check _, rfl⟩
  · split
    · next hg => exact ⟨_, growing_bind (growing_defineGlobal (hN hg)) fun _ => check _, rfl⟩
    · exact ⟨_, growing_throw (.reference name), rfl⟩

theorem growing_slotIndex (name : String) : Growing N (slotIndex name) := by
  refine growing_bind growing_draft fun d => ?_
  split
  · exact growing_placeOperand _
  · exact growing_throw _

theorem growing_cellIndex (name : String) : Growing N (cellIndex name) := by
  refine growing_bind growing_draft fun d => ?_
  split
  · exact growing_placeOperand _
  · exact growing_throw _

theorem growing_read (T : Scopes) (s : ScopeId) {name : String} (binding : Binding)
    (hN : T.isGlobal name = true → N name) : Growing N (read T s name binding) := by
  have rest (i) : Growing N (do update (·.grow 1); instr i) :=
    growing_bind growing_grow fun _ => growing_instr i
  unfold read
  dsimp only
  split
  · exact growing_bind (growing_map (growing_globalIndex hN)) rest
  · exact growing_bind (growing_map (growing_slotIndex name)) rest
  · exact growing_bind (growing_map (growing_cellIndex name)) rest

theorem growing_write (T : Scopes) (s : ScopeId) {name : String} (binding : Binding)
    (hN : T.isGlobal name = true → N name) : Growing N (write T s name binding) := by
  unfold write
  dsimp only
  split
  · exact growing_bind (growing_map (growing_globalIndex hN)) growing_instr
  · exact growing_bind (growing_map (growing_slotIndex name)) growing_instr
  · exact growing_bind (growing_map (growing_cellIndex name)) growing_instr

theorem growing_declare {T : Scopes} {s : ScopeId} {whole : Form} {name : String} {direct : Bool}
    (hN : T.storageOf s name .unbound = .global → N name) :
    Growing N (declare T s whole name direct) := by
  unfold declare
  split
  · next hs =>
    refine growing_of_forall fun e => ⟨do
      defineGlobal name
      let ix ← globalIndex.check (e.globals.define name).1
      return (.value, ← instr (.setGlobal ix)), ?_, rfl⟩
    exact growing_bind (growing_defineGlobal (hN hs)) fun _ =>
      growing_bind (growing_ite (growing_pure _) (growing_throw _)) fun ix =>
        growing_bind (growing_instr _) fun _ => growing_pure _
  · refine growing_bind (growing_cellIndex name) fun ix => growing_bind (growing_instr _) fun _ =>
      growing_bind (growing_instr _) fun _ => growing_bind growing_shrink fun _ => ?_
    exact growing_ite (growing_pure _) (growing_bind growing_grow fun _ =>
      growing_bind (growing_instr _) fun _ => growing_pure _)
  · refine growing_ite ?_ (growing_throw _)
    exact growing_bind growing_draft fun _ => growing_bind growing_addLocal fun _ =>
      growing_bind (growing_placeOperand _) fun _ =>
        growing_bind (growing_instr _) fun _ => growing_pure _

/-! ## Composed actions -/

variable {x y z : Emit (List Instr)} {f : Emit (Effect × List Instr)}

theorem growing_operation (op : Operator) (hx : Growing N x) (hy : Growing N y) :
    Growing N (operation op x y) :=
  growing_bind hx fun _ => growing_bind hy fun _ => growing_bind growing_shrink fun _ =>
    growing_bind (growing_instr _) fun _ => growing_pure _

theorem growing_branch (hx : Growing N x) (hy : Growing N y) (hz : Growing N z) :
    Growing N (branch x y z) :=
  growing_bind hx fun _ => growing_bind growing_reserve fun _ => growing_bind growing_shrink fun _ =>
    growing_bind growing_draft fun _ => growing_bind hy fun _ => growing_bind growing_reserve fun _ =>
      growing_bind growing_address fun _ => growing_bind (growing_keep fun _ => rfl) fun _ =>
        growing_bind hz fun _ => growing_bind growing_address fun _ => growing_pure _

theorem growing_discard : Growing N discard :=
  growing_bind growing_shrink fun _ => growing_instr _

theorem growing_modify? {modifier : Option (Emit (List Instr))}
    (h : ∀ x ∈ modifier, Growing N x) : Growing N (modify? modifier) := by
  cases modifier with
  | none => exact growing_pure _
  | some x =>
    exact growing_bind (h x rfl) fun _ => growing_bind growing_discard fun _ => growing_pure _

theorem growing_loop {modifier : Option (Emit (List Instr))} (hx : Growing N x) (hy : Growing N y)
    (hm : ∀ x ∈ modifier, Growing N x) : Growing N (loop x y modifier) :=
  growing_bind growing_draft fun _ => growing_bind hx fun _ => growing_bind growing_reserve fun _ =>
    growing_bind growing_shrink fun _ => growing_bind hy fun _ =>
      growing_bind growing_discard fun _ => growing_bind (growing_modify? hm) fun _ =>
        growing_bind (growing_addressOf _) fun _ => growing_bind (growing_instr _) fun _ =>
          growing_bind growing_address fun _ => growing_bind (growing_constant _) fun _ =>
            growing_pure _

theorem growing_forLoop (hf : Growing N f) (hx : Growing N x) : Growing N (forLoop f x) := by
  refine growing_bind hf fun (effect, first) => ?_
  cases effect with
  | value =>
    exact growing_bind growing_discard fun _ => growing_bind hx fun _ => growing_pure _
  | stored ix => exact growing_bind hx fun _ => growing_pure _
  | slot ix =>
    exact growing_bind hx fun _ => growing_bind (growing_instr _) fun _ =>
      growing_bind (growing_keep fun _ => rfl) fun _ => growing_pure _

theorem growing_separate (hf : Growing N f) : Growing N (separate f) := by
  refine growing_bind hf fun (effect, code) => ?_
  cases effect with
  | value => exact growing_bind growing_discard fun _ => growing_pure _
  | stored ix => exact growing_pure _
  | slot ix => exact growing_pure _

theorem growing_conclude (hf : Growing N f) : Growing N (conclude f) := by
  refine growing_bind hf fun (effect, code) => ?_
  cases effect with
  | value => exact growing_pure _
  | stored ix =>
    exact growing_bind growing_grow fun _ => growing_bind (growing_instr _) fun _ => growing_pure _
  | slot ix =>
    exact growing_bind growing_grow fun _ => growing_bind (growing_instr _) fun _ => growing_pure _

theorem growing_exit (n : Nat) (whole : Form) : Growing N (exit n whole) :=
  growing_ite (growing_pure _) (growing_bind (growing_countOperand _ _ _) fun _ =>
    growing_bind growing_shrink fun _ => growing_instr _)

/-- The code of a block from its first form on. -/
def blockEnd (whole : Form) (extra : Nat) (body : Emit (List Instr)) : Emit (List Instr) := do
  let code ← body
  let n := (← draft).blockLocals + extra
  update (·.exitBlock)
  return code ++ (← exit n whole)

theorem growing_blockEnd (whole : Form) (extra : Nat) (hx : Growing N x) :
    Growing N (blockEnd whole extra x) :=
  growing_bind hx fun _ => growing_bind growing_draft fun _ => growing_bind growing_exitBlock fun _ =>
    growing_bind (growing_exit _ _) fun _ => growing_pure _

theorem growing_block (T : Scopes) (whole : Form) (b : ScopeId) (extra : Nat) (hx : Growing N x) :
    Growing N (block T whole b extra x) := by
  refine growing_bind growing_enterBlock fun _ => ?_
  dsimp only
  split
  · exact growing_bind (growing_update fun d => Draft.grows_addBlockCells d _) fun _ =>
      growing_blockEnd whole extra hx
  · exact growing_blockEnd whole extra hx

theorem growing_moveCaptured (sc : Scope) (slot : Nat) (names : List String) :
    Growing N (moveCaptured sc slot names) := by
  induction names generalizing slot with
  | nil => exact growing_pure _
  | cons name names ih =>
    refine growing_ite ?_ (ih (slot + 1))
    exact growing_bind (growing_placeOperand _) fun _ => growing_bind (growing_cellIndex _) fun _ =>
      growing_bind (growing_instr _) fun _ => growing_bind (growing_instr _) fun _ =>
        growing_bind (growing_instr _) fun _ => growing_bind (ih (slot + 1)) fun _ => growing_pure _

theorem growing_loadCells (names : List String) : Growing N (loadCells names) := by
  induction names with
  | nil => exact growing_pure _
  | cons name names ih =>
    exact growing_bind (growing_cellIndex _) fun _ => growing_bind growing_grow fun _ =>
      growing_bind (growing_instr _) fun _ => growing_bind ih fun _ => growing_pure _

theorem growing_functionBody (T : Scopes) (whole : Form) (params : List String) (body : Form)
    (hx : Growing N x) (hy : Growing N y) : Growing N (functionBody T whole params body x y) := by
  unfold functionBody
  split
  · exact growing_block T _ _ _ hx
  · exact growing_bind hy fun _ => growing_bind (growing_countOperand _ _ _) fun _ =>
      growing_bind (growing_instr _) fun _ => growing_pure _

theorem functionCode_ok {T : Scopes} {name : String} {f : ScopeId} {params : List String}
    {e e' : Emission} {h : Handle} {c : Code} :
    functionCode T name f params x e = .ok (h, c) e' →
      ∃ moved e₁ code e₂,
        moveCaptured (T.scope f) 0 (name :: params)
          { e with draft := draftOf name params (T.scope f) } = .ok moved e₁ ∧
        x e₁ = .ok code e₂ ∧
        c = (e₂.draft.advance 1).finish (moved ++ code ++ [.ret]) ∧
        h = e₂.heap.size ∧
        e'.heap = e₂.heap.alloc (.code c) ∧ e'.globals = e₂.globals ∧ e'.draft = e.draft := by
  intro he
  unfold functionCode at he
  simp only [bind_ok, draft_ok, update_ok, instr_ok, note_ok, alloc_ok, pure_ok] at he
  obtain ⟨_, _, ⟨rfl, rfl⟩, _, _, rfl, moved, e₁, hm, code, e₂, hx, _, _, ⟨rfl, rfl⟩, _, _,
    ⟨rfl, rfl⟩, _, _, rfl, _, _, rfl, _, _, ⟨rfl, rfl⟩, hc, rfl⟩ := he
  cases hc
  exact ⟨moved, e₁, code, e₂, hm, hx, rfl, rfl, rfl, rfl, rfl⟩

/-- The draft of a function stands in for the outer one, which is the same again at the end. -/
theorem growing_functionCode (T : Scopes) (name : String) (f : ScopeId) (params : List String)
    (hx : Growing N x) : Growing N (functionCode T name f params x) where
  ok {e r e'} he := by
    obtain ⟨moved, e₁, code, e₂, hm, hc, -, -, hh, hg, hd⟩ := functionCode_ok he
    have h₁ := ((growing_moveCaptured _ _ _).ok hm).trans (hx.ok hc)
    have hw : e'.world = ⟨e₂.world.heap.alloc (.code r.2), e₂.world.globals⟩ := by
      rw [Emission.world, hh, hg]
    refine ⟨?_, hd ▸ .refl _⟩
    rw [hw]
    exact h₁.toExtends.trans (World.extends_alloc _ (by simp))
  error {e err e'} he :=
    (extending_bind growing_draft.extending fun _ => extending_bind (extending_update _) fun _ =>
      extending_bind (growing_moveCaptured _ _ _).extending fun _ =>
        extending_bind hx.extending fun _ => extending_bind (growing_instr _).extending fun _ =>
          extending_bind growing_draft.extending fun _ => extending_bind (extending_update _) fun _ =>
            (growing_bind (growing_note _) fun _ => growing_bind (growing_alloc (by simp)) fun _ =>
              growing_pure _).extending).error he

theorem growing_function (T : Scopes) (whole : Form) (name : String) (f : ScopeId)
    (params : List String) (hx : Growing N x) : Growing N (function T whole name f params x) := by
  refine growing_bind (growing_functionCode T name f params hx) fun (handle, c) => ?_
  refine growing_ite ?_ ?_
  · exact growing_bind (growing_alloc (by simp)) fun _ => growing_constant _
  · exact growing_bind (growing_loadCells _) fun _ => growing_bind (growing_constant _) fun _ =>
      growing_bind (growing_countOperand _ _ _) fun _ => growing_bind growing_shrink fun _ =>
        growing_bind (growing_instr _) fun _ => growing_pure _

theorem growing_call (whole : Form) (argc : Nat) (hx : Growing N x) (hy : Growing N y) :
    Growing N (call whole argc x y) :=
  growing_bind hx fun _ => growing_bind hy fun _ => growing_bind (growing_countOperand _ _ _) fun _ =>
    growing_bind growing_shrink fun _ => growing_bind (growing_instr _) fun _ => growing_pure _

theorem growing_only (hf : Growing N f) : Growing N (only f) :=
  growing_bind hf fun _ => growing_pure _

theorem growing_valued (hx : Growing N x) : Growing N (valued x) :=
  growing_bind hx fun _ => growing_pure _

end Emit

/-! ## Forms -/

namespace Form

/-- The names that code generation may add for some forms: those declared at the top of the
    program, and those of variables that are declared globally. -/
structure Admits (T : Scopes) (N : String → Prop) (s : ScopeId) (fs : List Form) : Prop where
  top : ∀ n, T.isGlobal n = true → N n
  declared : ∀ d ∈ collectAll declaration? s fs, T.storageOf d.1 d.2 .unbound = .global → N d.2

theorem Admits.part {T : Scopes} {s t : ScopeId} {fs gs : List Form} (h : Admits T N s fs)
    (hsub : ∀ d ∈ collectAll declaration? t gs, d ∈ collectAll declaration? s fs := by
      simp +contextual [collect, collectAll]) : Admits T N t gs :=
  ⟨h.top, fun d hd => h.declared d (hsub d hd)⟩

/-- All names may be added. -/
theorem admits_true {T : Scopes} {s : ScopeId} {fs : List Form} : Admits T (fun _ => True) s fs :=
  ⟨fun _ _ => trivial, fun _ _ _ => trivial⟩

open Emit

mutual

theorem emit_growing {T : Scopes} {s : ScopeId} {direct : Bool} {f : Form} (h : Admits T N s [f]) :
    Growing N (f.emit T s direct) := by
  cases f with
  | number x => exact growing_valued (growing_constant _)
  | string text =>
    exact growing_bind (growing_alloc (by simp)) fun _ => growing_valued (growing_constant _)
  | boolean b => exact growing_valued (growing_constant _)
  | reference name binding => exact growing_valued (growing_read T s binding (h.top name))
  | block b body =>
    exact growing_valued (growing_block T _ b 0 (emitBody_growing h.part))
  | declare name init =>
    have inner : Growing N (init.emit T s false) := emit_growing h.part
    exact growing_bind (growing_only inner) fun _ =>
      growing_bind (growing_declare (h.declared (s, name) (by simp [collect, collectAll, declaration?])))
        fun _ => growing_pure _
  | assign name binding value =>
    have inner : Growing N (value.emit T s false) := emit_growing h.part
    exact growing_bind (growing_only inner) fun _ =>
      growing_bind (growing_write T s binding (h.top name)) fun _ => growing_pure _
  | ifThen test thn =>
    exact growing_valued (growing_branch
      (growing_only (emit_growing h.part))
      (growing_only (emit_growing h.part)) (growing_constant _))
  | ifElse test thn els =>
    exact growing_valued (growing_branch
      (growing_only (emit_growing h.part))
      (growing_only (emit_growing h.part))
      (growing_only (emit_growing h.part)))
  | whileLoop test body =>
    exact growing_valued (growing_loop
      (growing_only (emit_growing h.part))
      (growing_only (emit_growing h.part)) (by simp))
  | forLoop init test modifier body =>
    refine growing_valued (growing_forLoop (emit_growing h.part)
      (growing_loop (growing_only (emit_growing h.part))
        (growing_only (emit_growing h.part)) ?_))
    rintro _ ⟨⟩
    exact growing_only (emit_growing h.part)
  | define name f params body =>
    have inner : Growing N (emitInside T body) := emitInside_growing (s := f) h.part
    have plain : Growing N (body.emit T f false) := emit_growing h.part
    exact growing_bind (growing_function T _ name f params
      (growing_functionBody T _ params body inner (growing_only plain))) fun _ =>
        growing_bind (growing_declare (h.declared (s, name) (by simp [collect, collectAll, declaration?])))
          fun _ => growing_pure _
  | lambda label f params body =>
    have inner : Growing N (emitInside T body) := emitInside_growing (s := f) h.part
    have plain : Growing N (body.emit T f false) := emit_growing h.part
    exact growing_valued (growing_function T _ label f params
      (growing_functionBody T _ params body inner (growing_only plain)))
  | operation op x y =>
    exact growing_valued (growing_operation op
      (growing_only (emit_growing h.part))
      (growing_only (emit_growing h.part)))
  | call callee args =>
    exact growing_valued (growing_call _ _
      (growing_only (emit_growing h.part))
      (emitAll_growing h.part))
  | malformed e why => exact growing_throw _

theorem emitInside_growing {T : Scopes} {s : ScopeId} {f : Form} (h : Admits T N s [f]) :
    Growing N (emitInside T f) := by
  cases f with
  | block b body => exact emitBody_growing h.part
  | _ => exact growing_pure _

theorem emitBody_growing {T : Scopes} {s : ScopeId} {fs : List Form} (h : Admits T N s fs) :
    Growing N (emitBody T s fs) := by
  match fs with
  | [] => exact growing_constant _
  | [f] => exact growing_conclude (emit_growing h)
  | f :: g :: fs =>
    exact growing_bind (growing_separate (emit_growing h.part)) fun _ =>
      growing_bind (emitBody_growing h.part) fun _ => growing_pure _

theorem emitAll_growing {T : Scopes} {s : ScopeId} {fs : List Form} (h : Admits T N s fs) :
    Growing N (emitAll T s fs) := by
  cases fs with
  | nil => exact growing_pure _
  | cons f fs =>
    exact growing_bind (growing_only (emit_growing h.part)) fun _ =>
      growing_bind (emitAll_growing h.part) fun _ => growing_pure _

end

end Form

end ByteLisp
