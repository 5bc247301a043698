/-
  ByteLisp: compiling a program again gives the same code.

  Code generation looks at the heap for the texts of constant strings only, and at the
  table of globals for the places of names. Where names have the places that they got the
  first time, the second time goes the same way, with other handles for the new objects.

  * `Value.rename`, `Code.rename`, `Object.rename`: other handles;
  * `Emission.Mirrors`: the second emission is the first one with other handles;
  * `Emit.Retraces`: if an action succeeds on the first emission, then another one does on
    the second, with the same result up to renaming; `Form.emit_repeats` says so of forms;
  * `Expr.compile_retraces` is the result for programs.
-/
import ByteLisp.Proofs.Generation.Emitted
import ByteLisp.Proofs.Machine.Store

namespace ByteLisp

/-! ## Renaming -/

/-- The value with another handle. -/
def Value.rename (ρ : Handle → Handle) : Value → Value
  | .object i => .object (ρ i)
  | v => v

/-- The code object with other handles among its constants. -/
def Code.rename (ρ : Handle → Handle) (c : Code) : Code :=
  { c with constants := c.constants.map (Value.rename ρ) }

/-- The function with other handles of its code and its cells. -/
def Closure.rename (ρ : Handle → Handle) (f : Closure) : Closure := ⟨ρ f.code, f.cells.map ρ⟩

/-- The object with other handles. -/
def Object.rename (ρ : Handle → Handle) : Object → Object
  | .code c => .code (c.rename ρ)
  | .function f => .function (f.rename ρ)
  | .cell v => .cell (v.rename ρ)
  | o => o

/-- The draft with other handles among its constants. -/
def Draft.rename (ρ : Handle → Handle) (d : Draft) : Draft :=
  { d with constants := d.constants.map (Value.rename ρ) }

namespace Draft

variable {ρ : Handle → Handle}

theorem rename_addBlockCells (d : Draft) (names : List String) :
    (d.addBlockCells names).rename ρ = (d.rename ρ).addBlockCells names := by
  unfold addBlockCells
  induction names generalizing d with
  | nil => rfl
  | cons name names ih => exact ih (d.addBlockCell name)

theorem rename_addLocals (d : Draft) (slot : Nat) (names : List String) :
    (d.addLocals slot names).rename ρ = (d.rename ρ).addLocals slot names := by
  induction names generalizing d slot with
  | nil => rfl
  | cons name names ih => exact ih (d.addLocal name slot) (slot + 1)

theorem rename_draftOf (name : String) (params : List String) (sc : Scope) :
    (Emit.draftOf name params sc).rename ρ = Emit.draftOf name params sc := by
  rw [Emit.draftOf, rename_addLocals]
  simp [rename, start]

end Draft

/-! ## Two emissions -/

namespace Heap

variable {h h' : Heap} {ρ : Handle → Handle}

theorem get?_alloc (h : Heap) (o : Object) (i : Handle) :
    (h.alloc o).get? i = if i = h.size then some o else h.get? i := Array.getElem?_push

/-- Whether constants are the same depends on handles being the same and on the texts of strings. -/
theorem sameConstant_rename (hρ : Function.Injective ρ) (hs : ∀ i, h'.string? (ρ i) = h.string? i)
    (u v : Value) : h'.sameConstant (u.rename ρ) (v.rename ρ) = h.sameConstant u v := by
  cases u <;> cases v <;> simp [sameConstant, Value.rename, hs, hρ.eq_iff]

end Heap

/-- The second emission is the first one with other handles: objects are allocated on both in the same
    order, where those of the first are the ones from `n` on, strings have the same text, and the
    drafts have the same constants. The table of the second emission is `G`. -/
structure Emission.Mirrors (ρ : Handle → Handle) (n : Nat) (G : Globals) (e d : Emission) : Prop where
  next : ∀ k, ρ (e.heap.size + k) = d.heap.size + k
  strings : ∀ i, d.heap.string? (ρ i) = e.heap.string? i
  objects : ∀ i o, n ≤ i → e.heap.get? i = some o → d.heap.get? (ρ i) = some (o.rename ρ)
  globals : d.globals = G
  draft : d.draft = e.draft.rename ρ

/-- All variables of a table have the same places in another one. -/
def Globals.Places (g G : Globals) : Prop := ∀ ix name, g.name? ix = some name → G.name? ix = some name

variable {ρ : Handle → Handle} {n : Nat} {G : Globals} {e e' d : Emission}

namespace Globals

variable {g g' : Globals} {name : String}

theorem Places.trans (h : g.Places g') (h' : g'.Places G) : g.Places G :=
  fun ix name hn => h' ix name (h ix name hn)

theorem places_define (g : Globals) (name : String) : g.Places (g.define name).2 := by
  intro ix other hother
  by_cases h : name ∈ g.names
  · rwa [define_of_mem h]
  · obtain ⟨x, hx, rfl⟩ := Option.map_eq_some_iff.1 hother
    rw [define_of_not_mem h, name?, get?_adding hx]
    rfl

/-- The place at which a name is defined is the one that it has in any table with the same places. -/
theorem Places.indexOf?_define (h : (g.define name).2.Places G) :
    G.indexOf? name = some (g.define name).1 := by
  refine indexOf?_later h ?_
  unfold define insertNew
  cases hn : g.indexOf? name with
  | some ix => exact hn
  | none =>
    have hsize : ∀ j < g.size, g.name? j ≠ some name := fun j _ hj =>
      indexOf?_eq_none.1 hn (mem_names_of_name? hj)
    refine indexOf?_eq_some.2 ⟨by simp [name?, get?, size], fun j hj hname => hsize j hj ?_⟩
    rwa [name?, get?, Array.getElem?_push_lt hj, ← Array.getElem?_eq_getElem hj] at hname

end Globals

namespace Emission.Mirrors

/-- Allocating an object on both heaps. -/
theorem alloc (h : e.Mirrors ρ n G d) (hρ : Function.Injective ρ) (o : Object) :
    Mirrors ρ n G { e with heap := e.heap.alloc o } { d with heap := d.heap.alloc (o.rename ρ) } := by
  have hsize : ρ e.heap.size = d.heap.size := h.next 0
  have same (i : Handle) : ρ i = d.heap.size ↔ i = e.heap.size := by rw [← hsize, hρ.eq_iff]
  refine ⟨fun k => ?_, fun i => ?_, fun i p hi hp => ?_, h.globals, h.draft⟩
  · simp only [Heap.size_alloc, Nat.add_assoc]
    exact h.next (1 + k)
  · have hstring := h.strings i
    simp only [Heap.string?, Heap.get?_alloc, same] at hstring ⊢
    by_cases hi : i = e.heap.size
    · rw [if_pos hi, if_pos hi]
      cases o <;> rfl
    · rw [if_neg hi, if_neg hi]
      exact hstring
  · simp only [Heap.get?_alloc, same] at hp ⊢
    split
    · next hsize => rw [if_pos hsize] at hp; cases hp; rfl
    · next hsize => rw [if_neg hsize] at hp; exact h.objects i p hi hp

/-- Changing both drafts. -/
theorem update (h : e.Mirrors ρ n G d) {F F' : Draft → Draft}
    (hF : ∀ d, (F d).rename ρ = F' (d.rename ρ)) :
    Mirrors ρ n G { e with draft := F e.draft } { d with draft := F' d.draft } :=
  ⟨h.next, h.strings, h.objects, h.globals, by rw [h.draft]; exact (hF _).symm⟩

/-- Adding a global variable to the first table. -/
theorem define (h : e.Mirrors ρ n G d) (g : Globals) : Mirrors ρ n G { e with globals := g } d :=
  ⟨h.next, h.strings, h.objects, h.globals, h.draft⟩

end Emission.Mirrors

namespace Emit

variable {α β γ δ : Type}

/-- If the action `x` succeeds on the first of two emissions, then `y` succeeds on the second; the
    result is renamed by `f`. The first emission may get new global variables, but only at places that
    they have in the table `G` of the second one. -/
structure Retraces (ρ : Handle → Handle) (n : Nat) (G : Globals) (f : α → β) (x : Emit α) (y : Emit β) :
    Prop where
  places : ∀ {e a e'}, x e = .ok a e' → e.globals.Places e'.globals
  again : ∀ {e a e' d}, x e = .ok a e' → e'.globals.Places G → e.Mirrors ρ n G d →
    ∃ d', y d = .ok (f a) d' ∧ e'.Mirrors ρ n G d'

/-- An action that succeeds on the second emission as well, with the same result. -/
abbrev Repeats (ρ : Handle → Handle) (n : Nat) (G : Globals) (x : Emit α) : Prop :=
  Retraces ρ n G id x x

theorem retraces_bind {f : α → β} {g : γ → δ} {x : Emit α} {y : Emit β} {u : α → Emit γ} {v : β → Emit δ}
    (hx : Retraces ρ n G f x y) (hu : ∀ a, Retraces ρ n G g (u a) (v (f a))) :
    Retraces ρ n G g (x >>= u) (y >>= v) where
  places h := by
    obtain ⟨a, e₁, h₁, h₂⟩ := bind_ok.1 h
    exact (hx.places h₁).trans ((hu a).places h₂)
  again h hG he := by
    obtain ⟨a, e₁, h₁, h₂⟩ := bind_ok.1 h
    obtain ⟨d₁, hd₁, he₁⟩ := hx.again h₁ (((hu a).places h₂).trans hG) he
    obtain ⟨d₂, hd₂, he₂⟩ := (hu a).again h₂ hG he₁
    exact ⟨d₂, bind_ok.2 ⟨f a, d₁, hd₁, hd₂⟩, he₂⟩

theorem retraces_pure {f : α → β} {a : α} {b : β} (hb : f a = b) : Retraces ρ n G f (pure a) (pure b) where
  places h := by
    obtain ⟨-, rfl⟩ := pure_ok.1 h
    exact fun _ _ h => h
  again {e a' e' d} h _ he := by
    obtain ⟨rfl, rfl⟩ := pure_ok.1 h
    exact ⟨d, pure_ok.2 ⟨hb.symm, rfl⟩, he⟩

theorem repeats_pure (a : α) : Repeats ρ n G (pure a : Emit α) := retraces_pure rfl

theorem retraces_throw {f : α → β} {y : Emit β} (err : CompileError) : Retraces ρ n G f (throw err) y :=
  ⟨fun h => (throw_ok.1 h).elim, fun h => (throw_ok.1 h).elim⟩

theorem retraces_ite {f : α → β} {p : Prop} [Decidable p] {x x' : Emit α} {y y' : Emit β}
    (hx : Retraces ρ n G f x y) (hx' : Retraces ρ n G f x' y') :
    Retraces ρ n G f (if p then x else x') (if p then y else y') := by
  split
  · exact hx
  · exact hx'

theorem repeats_map {f : α → β} {x : Emit α} (hx : Repeats ρ n G x) : Repeats ρ n G (f <$> x) where
  places h := by
    obtain ⟨a, h, -⟩ := map_ok.1 h
    exact hx.places h
  again h hG he := by
    obtain ⟨a, hx', rfl⟩ := map_ok.1 h
    obtain ⟨d', hd', he'⟩ := hx.again hx' hG he
    exact ⟨d', map_ok.2 ⟨a, hd', rfl⟩, he'⟩

/-! ## Actions -/

theorem retraces_draft : Retraces ρ n G (Draft.rename ρ) draft draft where
  places h := by
    obtain ⟨-, rfl⟩ := draft_ok.1 h
    exact fun _ _ h => h
  again {e a e' d} h _ he := by
    obtain ⟨rfl, rfl⟩ := draft_ok.1 h
    exact ⟨d, draft_ok.2 ⟨he.draft.symm, rfl⟩, he⟩

theorem retraces_update {F F' : Draft → Draft} (hF : ∀ d, (F d).rename ρ = F' (d.rename ρ)) :
    Retraces ρ n G id (update F) (update F') where
  places h := by
    cases update_ok.1 h
    exact fun _ _ h => h
  again h _ he := by
    cases update_ok.1 h
    exact ⟨_, update_ok.2 rfl, he.update hF⟩

theorem retraces_note (text text' : String) : Retraces ρ n G id (note text) (note text') where
  places h := by
    cases note_ok.1 h
    exact fun _ _ h => h
  again h _ he := by
    cases note_ok.1 h
    exact ⟨_, note_ok.2 rfl, he.next, he.strings, he.objects, he.globals, he.draft⟩

theorem retraces_alloc (hρ : Function.Injective ρ) (o : Object) :
    Retraces ρ n G ρ (alloc o) (alloc (o.rename ρ)) where
  places h := by
    obtain ⟨-, rfl⟩ := alloc_ok.1 h
    exact fun _ _ h => h
  again {e a e' d} h _ he := by
    obtain ⟨rfl, rfl⟩ := alloc_ok.1 h
    exact ⟨_, alloc_ok.2 ⟨he.next 0, rfl⟩, he.alloc hρ o⟩

theorem repeats_instr (i : Instr) : Repeats ρ n G (instr i) :=
  retraces_bind (retraces_update fun _ => rfl) fun _ => repeats_pure _

theorem repeats_reserve : Repeats ρ n G reserve := retraces_update fun _ => rfl

theorem repeats_address : Repeats ρ n G address :=
  retraces_bind retraces_draft fun _ => retraces_ite (repeats_pure _) (retraces_throw _)

theorem repeats_addressOf (offset : Nat) : Repeats ρ n G (addressOf offset) :=
  retraces_ite (repeats_pure _) (retraces_bind retraces_draft fun _ => retraces_throw _)

theorem repeats_placeOperand (k : Nat) : Repeats ρ n G (placeOperand k) :=
  retraces_ite (repeats_pure _) (retraces_bind retraces_draft fun _ => retraces_throw _)

theorem repeats_countOperand (k : Nat) (whole : Form) (why : Malformation) :
    Repeats ρ n G (countOperand k whole why) := retraces_ite (repeats_pure _) (retraces_throw _)

theorem retraces_constantIndex (hρ : Function.Injective ρ) (v : Value) :
    Retraces ρ n G id (constantIndex v) (constantIndex (v.rename ρ)) := by
  have check (name : String) (ix : Nat) : Repeats ρ n G (constantIndex.check name ix) :=
    retraces_ite (repeats_pure _) (retraces_throw _)
  have added (name : String) (ix : Nat) : Retraces ρ n G id
      (do addConstant v; constantIndex.check name ix)
      (do addConstant (v.rename ρ); constantIndex.check name ix) :=
    retraces_bind (retraces_update fun d => by simp [Draft.rename]) fun _ => check name ix
  constructor
  · intro e a e' h
    rw [constantIndex_apply] at h
    split at h
    · exact (check _ _).places h
    · exact (added _ _).places h
  · intro e a e' d h hG he
    have hfind : d.draft.constants.findIdx? (d.heap.sameConstant · (v.rename ρ)) =
        e.draft.constants.findIdx? (e.heap.sameConstant · v) := by
      rw [he.draft, Draft.rename, Array.findIdx?_map]
      congr 1
      funext u
      exact Heap.sameConstant_rename hρ he.strings u v
    rw [constantIndex_apply] at h ⊢
    rw [hfind, show d.draft.name = e.draft.name by rw [he.draft]; rfl,
      show d.draft.constants.size = e.draft.constants.size by rw [he.draft]; exact Array.size_map]
    split at h
    · exact (check _ _).again h hG he
    · exact (added _ _).again h hG he

theorem retraces_constant (hρ : Function.Injective ρ) (v : Value) :
    Retraces ρ n G id (constant v) (constant (v.rename ρ)) :=
  retraces_bind (retraces_constantIndex hρ v) fun _ =>
    retraces_bind (retraces_update fun _ => rfl) fun _ => repeats_instr _

/-! ## Variables -/

theorem check_ok {ix : Nat} {a : UInt8} (h : globalIndex.check ix e = .ok a e') :
    e' = e ∧ ∀ d, globalIndex.check ix d = .ok a d := by
  obtain ⟨hlt, h⟩ | ⟨-, h⟩ := ite_ok.1 h
  · obtain ⟨rfl, rfl⟩ := pure_ok.1 h
    exact ⟨rfl, fun d => ite_ok.2 (Or.inl ⟨hlt, rfl⟩)⟩
  · exact (throw_ok.1 h).elim

/-- The place of a variable, which is defined if it is not there. -/
def definedIndex (name : String) : Emit UInt8 := fun e =>
  (do defineGlobal name; globalIndex.check (e.globals.define name).1 : Emit UInt8) e

theorem definedIndex_ok {name : String} {a : UInt8} (h : definedIndex name e = .ok a e') :
    e' = { e with globals := (e.globals.define name).2 } ∧
      ∀ d, globalIndex.check (e.globals.define name).1 d = .ok a d := by
  obtain ⟨_, e₁, h₁, h₂⟩ := bind_ok.1 h
  cases h₁
  obtain ⟨rfl, hcheck⟩ := check_ok h₂
  exact ⟨rfl, hcheck⟩

theorem definedIndex_of_indexOf? {name : String} {ix : Nat} (h : d.globals.indexOf? name = some ix) :
    definedIndex name d = globalIndex.check ix d := by
  have hdefine : d.globals.define name = (ix, d.globals) := by simp [Globals.define, Globals.insertNew, h]
  change globalIndex.check (d.globals.define name).1 { d with globals := (d.globals.define name).2 } = _
  rw [hdefine]

theorem repeats_definedIndex (name : String) : Repeats ρ n G (definedIndex name) where
  places h := by
    obtain ⟨rfl, -⟩ := definedIndex_ok h
    exact Globals.places_define _ name
  again {e a e' d} h hG he := by
    obtain ⟨rfl, hcheck⟩ := definedIndex_ok h
    refine ⟨d, ?_, he.define _⟩
    have hix := Globals.Places.indexOf?_define hG
    rw [← he.globals] at hix
    rw [definedIndex_of_indexOf? hix]
    exact hcheck d

theorem repeats_globalIndex (T : Scopes) (name : String) : Repeats ρ n G (globalIndex T name) := by
  -- On the first emission it is defined if it is not there, on the second one it is there.
  have defined {e a e'} (h : globalIndex T name e = .ok a e') : definedIndex name e = .ok a e' := by
    rw [globalIndex_apply] at h
    split at h
    · next hix => rwa [definedIndex_of_indexOf? hix]
    · split at h
      · exact h
      · cases h
  constructor
  · exact fun h => (repeats_definedIndex (ρ := ρ) (n := n) (G := G) name).places (defined h)
  · intro e a e' d h hG he
    have h := defined h
    obtain ⟨d', hd', he'⟩ := (repeats_definedIndex name).again h hG he
    refine ⟨d', ?_, he'⟩
    obtain ⟨rfl, -⟩ := definedIndex_ok h
    have hix := Globals.Places.indexOf?_define hG
    rw [← he.globals] at hix
    rw [globalIndex_apply, hix]
    rwa [definedIndex_of_indexOf? hix] at hd'

theorem repeats_slotIndex (name : String) : Repeats ρ n G (slotIndex name) := by
  refine retraces_bind retraces_draft fun d => ?_
  have hslot : (Draft.rename ρ d).slot? name = d.slot? name := rfl
  rw [hslot]
  split
  · exact repeats_placeOperand _
  · exact retraces_throw _

theorem repeats_cellIndex (name : String) : Repeats ρ n G (cellIndex name) := by
  refine retraces_bind retraces_draft fun d => ?_
  have hcell : (Draft.rename ρ d).cell? name = d.cell? name := rfl
  rw [hcell]
  split
  · exact repeats_placeOperand _
  · exact retraces_throw _

theorem repeats_read (T : Scopes) (s : ScopeId) (name : String) (binding : Binding) :
    Repeats ρ n G (read T s name binding) := by
  have rest (i) : Repeats ρ n G (do update (·.grow 1); instr i) :=
    retraces_bind (retraces_update fun _ => rfl) fun _ => repeats_instr i
  unfold read
  dsimp only
  split
  · exact retraces_bind (repeats_map (repeats_globalIndex T name)) rest
  · exact retraces_bind (repeats_map (repeats_slotIndex name)) rest
  · exact retraces_bind (repeats_map (repeats_cellIndex name)) rest

theorem repeats_write (T : Scopes) (s : ScopeId) (name : String) (binding : Binding) :
    Repeats ρ n G (write T s name binding) := by
  unfold write
  dsimp only
  split
  · exact retraces_bind (repeats_map (repeats_globalIndex T name)) repeats_instr
  · exact retraces_bind (repeats_map (repeats_slotIndex name)) repeats_instr
  · exact retraces_bind (repeats_map (repeats_cellIndex name)) repeats_instr

theorem repeats_declare (T : Scopes) (s : ScopeId) (whole : Form) (name : String) (direct : Bool) :
    Repeats ρ n G (declare T s whole name direct) := by
  unfold declare
  split
  · have heq : (do
        let e ← get
        let defined := e.globals.define name
        set { e with globals := defined.2 }
        let ix ← globalIndex.check defined.1
        return (.value, ← instr (.setGlobal ix)) : Emit (Effect × List Instr)) =
        (do
          let ix ← definedIndex name
          return (.value, ← instr (.setGlobal ix))) := rfl
    rw [heq]
    exact retraces_bind (repeats_definedIndex name) fun _ =>
      retraces_bind (repeats_instr _) fun _ => repeats_pure _
  · refine retraces_bind (repeats_cellIndex name) fun ix => retraces_bind (repeats_instr _) fun _ =>
      retraces_bind (repeats_instr _) fun _ => retraces_bind (retraces_update fun _ => rfl) fun _ => ?_
    exact retraces_ite (repeats_pure _) (retraces_bind (retraces_update fun _ => rfl) fun _ =>
      retraces_bind (repeats_instr _) fun _ => repeats_pure _)
  · refine retraces_ite ?_ (retraces_throw _)
    exact retraces_bind retraces_draft fun _ => retraces_bind (retraces_update fun _ => rfl) fun _ =>
      retraces_bind (repeats_placeOperand _) fun _ => retraces_bind (repeats_instr _) fun _ => repeats_pure _

/-! ## Composed actions -/

variable {x y z : Emit (List Instr)} {f : Emit (Effect × List Instr)}

theorem repeats_operation (op : Operator) (hx : Repeats ρ n G x) (hy : Repeats ρ n G y) :
    Repeats ρ n G (operation op x y) :=
  retraces_bind hx fun _ => retraces_bind hy fun _ => retraces_bind (retraces_update fun _ => rfl) fun _ =>
    retraces_bind (repeats_instr _) fun _ => repeats_pure _

theorem retraces_branch {z' : Emit (List Instr)} (hx : Repeats ρ n G x) (hy : Repeats ρ n G y)
    (hz : Retraces ρ n G id z z') : Retraces ρ n G id (branch x y z) (branch x y z') :=
  retraces_bind hx fun _ => retraces_bind repeats_reserve fun _ =>
    retraces_bind (retraces_update fun _ => rfl) fun _ => retraces_bind retraces_draft fun _ =>
      retraces_bind hy fun _ => retraces_bind repeats_reserve fun _ => retraces_bind repeats_address fun _ =>
        retraces_bind (retraces_update fun _ => rfl) fun _ => retraces_bind hz fun _ =>
          retraces_bind repeats_address fun _ => repeats_pure _

theorem repeats_discard : Repeats ρ n G discard :=
  retraces_bind (retraces_update fun _ => rfl) fun _ => repeats_instr _

theorem repeats_modify? {modifier : Option (Emit (List Instr))} (h : ∀ x ∈ modifier, Repeats ρ n G x) :
    Repeats ρ n G (modify? modifier) := by
  cases modifier with
  | none => exact repeats_pure _
  | some x => exact retraces_bind (h x rfl) fun _ => retraces_bind repeats_discard fun _ => repeats_pure _

theorem repeats_boolean (hρ : Function.Injective ρ) (b : Bool) : Repeats ρ n G (constant (.boolean b)) :=
  retraces_constant hρ (.boolean b)

theorem repeats_loop (hρ : Function.Injective ρ) {modifier : Option (Emit (List Instr))}
    (hx : Repeats ρ n G x) (hy : Repeats ρ n G y) (hm : ∀ x ∈ modifier, Repeats ρ n G x) :
    Repeats ρ n G (loop x y modifier) :=
  retraces_bind retraces_draft fun _ => retraces_bind hx fun _ => retraces_bind repeats_reserve fun _ =>
    retraces_bind (retraces_update fun _ => rfl) fun _ => retraces_bind hy fun _ =>
      retraces_bind repeats_discard fun _ => retraces_bind (repeats_modify? hm) fun _ =>
        retraces_bind (repeats_addressOf _) fun _ => retraces_bind (repeats_instr _) fun _ =>
          retraces_bind repeats_address fun _ => retraces_bind (repeats_boolean hρ _) fun _ => repeats_pure _

theorem repeats_forLoop (hf : Repeats ρ n G f) (hx : Repeats ρ n G x) : Repeats ρ n G (forLoop f x) := by
  refine retraces_bind hf fun (effect, first) => ?_
  cases effect with
  | value => exact retraces_bind repeats_discard fun _ => retraces_bind hx fun _ => repeats_pure _
  | stored ix => exact retraces_bind hx fun _ => repeats_pure _
  | slot ix =>
    exact retraces_bind hx fun _ => retraces_bind (repeats_instr _) fun _ =>
      retraces_bind (retraces_update fun _ => rfl) fun _ => repeats_pure _

theorem repeats_separate (hf : Repeats ρ n G f) : Repeats ρ n G (separate f) := by
  refine retraces_bind hf fun (effect, code) => ?_
  cases effect with
  | value => exact retraces_bind repeats_discard fun _ => repeats_pure _
  | stored ix | slot ix => exact repeats_pure _

theorem repeats_conclude (hf : Repeats ρ n G f) : Repeats ρ n G (conclude f) := by
  refine retraces_bind hf fun (effect, code) => ?_
  cases effect with
  | value => exact repeats_pure _
  | stored ix | slot ix =>
    exact retraces_bind (retraces_update fun _ => rfl) fun _ => retraces_bind (repeats_instr _) fun _ =>
      repeats_pure _

theorem repeats_exit (k : Nat) (whole : Form) : Repeats ρ n G (exit k whole) :=
  retraces_ite (repeats_pure _) (retraces_bind (repeats_countOperand _ _ _) fun _ =>
    retraces_bind (retraces_update fun _ => rfl) fun _ => repeats_instr _)

theorem repeats_block (T : Scopes) (whole : Form) (b : ScopeId) (extra : Nat) (hx : Repeats ρ n G x) :
    Repeats ρ n G (block T whole b extra x) := by
  have rest : Repeats ρ n G (blockEnd whole extra x) :=
    retraces_bind hx fun _ => retraces_bind retraces_draft fun _ =>
      retraces_bind (retraces_update fun _ => rfl) fun _ =>
        retraces_bind (repeats_exit _ _) fun _ => repeats_pure _
  refine retraces_bind (retraces_update fun _ => rfl) fun _ => ?_
  dsimp only
  split
  · exact retraces_bind (retraces_update fun d => d.rename_addBlockCells _) fun _ => rest
  · exact rest

theorem repeats_moveCaptured (sc : Scope) (slot : Nat) (names : List String) :
    Repeats ρ n G (moveCaptured sc slot names) := by
  induction names generalizing slot with
  | nil => exact repeats_pure _
  | cons name names ih =>
    refine retraces_ite ?_ (ih (slot + 1))
    exact retraces_bind (repeats_placeOperand _) fun _ => retraces_bind (repeats_cellIndex _) fun _ =>
      retraces_bind (repeats_instr _) fun _ => retraces_bind (repeats_instr _) fun _ =>
        retraces_bind (repeats_instr _) fun _ => retraces_bind (ih (slot + 1)) fun _ => repeats_pure _

theorem repeats_loadCells (names : List String) : Repeats ρ n G (loadCells names) := by
  induction names with
  | nil => exact repeats_pure _
  | cons name names ih =>
    exact retraces_bind (repeats_cellIndex _) fun _ => retraces_bind (retraces_update fun _ => rfl) fun _ =>
      retraces_bind (repeats_instr _) fun _ => retraces_bind ih fun _ => repeats_pure _

theorem repeats_functionBody (T : Scopes) (whole : Form) (params : List String) (body : Form)
    (hx : Repeats ρ n G x) (hy : Repeats ρ n G y) : Repeats ρ n G (functionBody T whole params body x y) := by
  unfold functionBody
  split
  · exact repeats_block T _ _ _ hx
  · exact retraces_bind hy fun _ => retraces_bind (repeats_countOperand _ _ _) fun _ =>
      retraces_bind (repeats_instr _) fun _ => repeats_pure _

/-- The code object of a function has other handles the second time, and is another object. -/
theorem retraces_functionCode (hρ : Function.Injective ρ) (T : Scopes) (name : String) (s : ScopeId)
    (params : List String) (hx : Repeats ρ n G x) :
    Retraces ρ n G (Prod.map ρ (Code.rename ρ)) (functionCode T name s params x)
      (functionCode T name s params x) :=
  retraces_bind retraces_draft fun _ =>
    retraces_bind (retraces_update fun _ => Draft.rename_draftOf name params (T.scope s)) fun _ =>
      retraces_bind (repeats_moveCaptured _ _ _) fun _ => retraces_bind hx fun _ =>
        retraces_bind (repeats_instr _) fun _ => retraces_bind retraces_draft fun _ =>
          retraces_bind (retraces_update fun _ => rfl) fun _ => retraces_bind (retraces_note _ _) fun _ =>
            retraces_bind (retraces_alloc hρ _) fun _ => retraces_pure rfl

theorem repeats_function (hρ : Function.Injective ρ) (T : Scopes) (whole : Form) (name : String) (s : ScopeId)
    (params : List String) (hx : Repeats ρ n G x) : Repeats ρ n G (function T whole name s params x) := by
  refine retraces_bind (retraces_functionCode hρ T name s params hx) fun (handle, c) => ?_
  refine retraces_ite ?_ ?_
  · have halloc : Retraces ρ n G ρ (alloc (.function ⟨handle, #[]⟩)) (alloc (.function ⟨ρ handle, #[]⟩)) := by
      simpa [Object.rename, Closure.rename] using retraces_alloc hρ (.function ⟨handle, #[]⟩)
    exact retraces_bind halloc fun i => retraces_constant hρ (.object i)
  · exact retraces_bind (repeats_loadCells _) fun _ =>
      retraces_bind (retraces_constant hρ (.object handle)) fun _ =>
        retraces_bind (repeats_countOperand _ _ _) fun _ =>
          retraces_bind (retraces_update fun _ => rfl) fun _ =>
            retraces_bind (repeats_instr _) fun _ => repeats_pure _

theorem repeats_call (whole : Form) (argc : Nat) (hx : Repeats ρ n G x) (hy : Repeats ρ n G y) :
    Repeats ρ n G (call whole argc x y) :=
  retraces_bind hx fun _ => retraces_bind hy fun _ => retraces_bind (repeats_countOperand _ _ _) fun _ =>
    retraces_bind (retraces_update fun _ => rfl) fun _ =>
      retraces_bind (repeats_instr _) fun _ => repeats_pure _

theorem repeats_only (hf : Repeats ρ n G f) : Repeats ρ n G (only f) :=
  retraces_bind hf fun _ => repeats_pure _

theorem repeats_valued (hx : Repeats ρ n G x) : Repeats ρ n G (valued x) :=
  retraces_bind hx fun _ => repeats_pure _

end Emit

/-! ## Forms -/

namespace Form

open Emit

mutual

/-- The code of a form is the same the second time. -/
theorem emit_repeats (hρ : Function.Injective ρ) (T : Scopes) (s : ScopeId) (direct : Bool) (f : Form) :
    Repeats ρ n G (f.emit T s direct) := by
  cases f with
  | number x => exact repeats_valued (retraces_constant hρ (.number x))
  | string text =>
    refine retraces_bind (retraces_alloc hρ (.string text)) fun i => ?_
    exact retraces_bind (retraces_constant hρ (.object i)) fun _ => repeats_pure _
  | boolean b => exact repeats_valued (repeats_boolean hρ b)
  | reference name binding => exact repeats_valued (repeats_read T s name binding)
  | block b body => exact repeats_valued (repeats_block T _ b 0 (emitBody_repeats hρ T b body))
  | declare name init =>
    exact retraces_bind (repeats_only (emit_repeats hρ T s false init)) fun _ =>
      retraces_bind (repeats_declare T s _ name direct) fun _ => repeats_pure _
  | assign name binding value =>
    exact retraces_bind (repeats_only (emit_repeats hρ T s false value)) fun _ =>
      retraces_bind (repeats_write T s name binding) fun _ => repeats_pure _
  | ifThen test thn =>
    exact repeats_valued (retraces_branch (repeats_only (emit_repeats hρ T s false test))
      (repeats_only (emit_repeats hρ T s false thn)) (repeats_boolean hρ false))
  | ifElse test thn els =>
    exact repeats_valued (retraces_branch (repeats_only (emit_repeats hρ T s false test))
      (repeats_only (emit_repeats hρ T s false thn)) (repeats_only (emit_repeats hρ T s false els)))
  | whileLoop test body =>
    exact repeats_valued (repeats_loop hρ (repeats_only (emit_repeats hρ T s false test))
      (repeats_only (emit_repeats hρ T s false body)) nofun)
  | forLoop init test modifier body =>
    refine repeats_valued (repeats_forLoop (emit_repeats hρ T s true init)
      (repeats_loop hρ (repeats_only (emit_repeats hρ T s false test))
        (repeats_only (emit_repeats hρ T s false body)) ?_))
    rintro _ ⟨⟩
    exact repeats_only (emit_repeats hρ T s false modifier)
  | define name f params body =>
    exact retraces_bind (repeats_function hρ T _ name f params (repeats_functionBody T _ params body
      (emitInside_repeats hρ T body) (repeats_only (emit_repeats hρ T f false body)))) fun _ =>
        retraces_bind (repeats_declare T s _ name direct) fun _ => repeats_pure _
  | lambda label f params body =>
    exact repeats_valued (repeats_function hρ T _ label f params (repeats_functionBody T _ params body
      (emitInside_repeats hρ T body) (repeats_only (emit_repeats hρ T f false body))))
  | operation op x y =>
    exact repeats_valued (repeats_operation op (repeats_only (emit_repeats hρ T s false x))
      (repeats_only (emit_repeats hρ T s false y)))
  | call callee args =>
    exact repeats_valued (repeats_call _ _ (repeats_only (emit_repeats hρ T s false callee))
      (emitAll_repeats hρ T s args))
  | malformed e why => exact retraces_throw _

theorem emitInside_repeats (hρ : Function.Injective ρ) (T : Scopes) (f : Form) :
    Repeats ρ n G (emitInside T f) := by
  cases f with
  | block b body => exact emitBody_repeats hρ T b body
  | _ => exact repeats_pure _

theorem emitBody_repeats (hρ : Function.Injective ρ) (T : Scopes) (s : ScopeId) (fs : List Form) :
    Repeats ρ n G (emitBody T s fs) := by
  match fs with
  | [] => exact repeats_boolean hρ false
  | [f] => exact repeats_conclude (emit_repeats hρ T s true f)
  | f :: g :: fs =>
    exact retraces_bind (repeats_separate (emit_repeats hρ T s true f)) fun _ =>
      retraces_bind (emitBody_repeats hρ T s (g :: fs)) fun _ => repeats_pure _

theorem emitAll_repeats (hρ : Function.Injective ρ) (T : Scopes) (s : ScopeId) (fs : List Form) :
    Repeats ρ n G (emitAll T s fs) := by
  cases fs with
  | nil => exact repeats_pure _
  | cons f fs =>
    exact retraces_bind (repeats_only (emit_repeats hρ T s false f)) fun _ =>
      retraces_bind (emitAll_repeats hρ T s fs) fun _ => repeats_pure _

end

end Form

/-! ## Programs -/

theorem Emit.retraces_main (hρ : Function.Injective ρ) (T : Scopes) (program : Form) :
    Retraces ρ n G ρ (Emit.main T program) (Emit.main T program) :=
  retraces_bind (repeats_only (Form.emit_repeats hρ T _ _ program)) fun _ =>
    retraces_bind (repeats_instr _) fun _ => retraces_bind retraces_draft fun _ =>
      retraces_bind (retraces_note _ _) fun _ => retraces_alloc hρ _

/-- A program that compiles does so again where names have the places that they got. The new objects
    are the same, in the same order, with other handles, and no variable is added. -/
theorem Expr.compile_retraces {program : Expr} {h h' : Heap} {g : Globals} {main : Handle}
    (hρ : Function.Injective ρ) (hnext : ∀ k, ρ (h.size + k) = h'.size + k)
    (hstrings : ∀ i, h'.string? (ρ i) = h.string? i) (hr : (program.compile h g).result = .ok main)
    (hG : (program.compile h g).globals.Places G) :
    let r := program.compile h g
    let r' := program.compile h' G
    r'.result = .ok (ρ main) ∧ r'.globals = G ∧ (∀ k, ρ (r.heap.size + k) = r'.heap.size + k) ∧
      ∀ i o, h.size ≤ i → r.heap.get? i = some o → r'.heap.get? (ρ i) = some (o.rename ρ) := by
  obtain ⟨notes, hfirst⟩ := program.compile_cases h g
  obtain ⟨notes', hsecond⟩ := program.compile_cases h' G
  split at hfirst
  · next main' e hm =>
    rw [hfirst] at hr hG
    cases hr
    have hstart : (Emission.start h g notes).Mirrors ρ h.size G (.start h' G notes') := by
      refine ⟨hnext, hstrings, fun i o hi ho => ?_, rfl, by simp [Emission.start, Draft.rename, Draft.start]⟩
      exact absurd (Heap.lt_size_of_get? ho) (Nat.not_lt.2 hi)
    obtain ⟨d, hd, he⟩ := (Emit.retraces_main hρ _ _).again hm hG hstart
    rw [hd] at hsecond
    simp only [hfirst, hsecond]
    exact ⟨trivial, he.globals, he.next, he.objects⟩
  · rw [hfirst] at hr
    cases hr

end ByteLisp
