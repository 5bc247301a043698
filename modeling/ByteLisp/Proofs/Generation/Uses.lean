/-
  ByteLisp: the variables that code works on.

  A form has an instruction for each time that it reads, writes or declares a variable,
  and for each variable that a function in it captures.

  * `Use` is such a time; `Form.uses` are those of a form in the order of its code,
    `Form.Function.uses` those of a function, without those in functions in them;
  * `Place.Bears`: what is recorded of a place for the listing is the name of the variable;
  * `Code.Fits`: a code object has an instruction for each use, in order, with a place that
    bears the name;
  * `Draft.Recorded`: all variables in view are recorded; `Draft.Retains` and
    `Emission.Retains`: what is recorded stays so.
-/
import ByteLisp.Proofs.Generation.Emitted
import Mathlib.Data.List.Forall2

namespace ByteLisp

/-! ## Uses -/

/-- What an instruction does with a variable. -/
inductive Use.Kind where
  | get
  | set
  /-- A function captures the variable. -/
  | load
deriving Repr, DecidableEq

/-- A variable of some name is used. -/
structure Use where
  kind : Use.Kind
  name : String
deriving Repr, DecidableEq

/-- The instruction for a variable that is found at a place. -/
def Use.instr (u : Use) (place : Place) : Instr :=
  match u.kind with
  | .get => place.get
  | .set => place.set
  | .load => place.load

/-- A variable can be used at any place, but functions capture cells only. -/
def Use.Allows (u : Use) : Place → Prop
  | .cell _ => True
  | _ => u.kind ≠ .load

theorem Use.allows {u : Use} {place : Place} (h : u.kind ≠ .load) : u.Allows place := by
  cases place with
  | cell ix => trivial
  | _ => exact h

namespace Form

/-- The uses of a declaration, which directly in a block leaves no value of a variable in a cell. -/
def declared (T : Scopes) (s : ScopeId) (direct : Bool) (name : String) : List Use :=
  match direct, T.storageOf s name .unbound with
  | false, .cell => [⟨.set, name⟩, ⟨.get, name⟩]
  | _, _ => [⟨.set, name⟩]

/-- The uses of a variable on the stack or in a cell at the end of a block that ends with its
    declaration; a global variable leaves its value. -/
def kept (T : Scopes) (s : ScopeId) (direct : Bool) (name : String) : List Use :=
  match direct, T.storageOf s name .unbound with
  | true, .slot | true, .cell => [⟨.get, name⟩]
  | _, _ => []

/-- The uses at the end of a block of the variable that its last form declares. -/
def left (T : Scopes) (s : ScopeId) (direct : Bool) : Form → List Use
  | .declare name _ | .define name _ _ _ => kept T s direct name
  | _ => []

/-- The uses of the variables that a function captures. -/
def captured (T : Scopes) (f : ScopeId) : List Use := (T.scope f).free.map (⟨.load, ·⟩)

mutual

/-- The uses of a form in the scope `s`, without those in functions. -/
def uses (T : Scopes) (s : ScopeId) (direct : Bool) : Form → List Use
  | .number _ | .string _ | .boolean _ | .malformed _ _ => []
  | .reference name _ => [⟨.get, name⟩]
  | .block b body => usesBody T b body
  | .declare name init => uses T s false init ++ declared T s direct name
  | .assign name _ value => uses T s false value ++ [⟨.set, name⟩]
  | .ifThen test thn => uses T s false test ++ uses T s false thn
  | .ifElse test thn els => uses T s false test ++ uses T s false thn ++ uses T s false els
  | .whileLoop test body => uses T s false test ++ uses T s false body
  | .forLoop init test modifier body =>
    uses T s true init ++ (uses T s false test ++ uses T s false body ++ uses T s false modifier)
  | .define name f _ _ => captured T f ++ declared T s direct name
  | .lambda _ f _ _ => captured T f
  | .operation _ x y => uses T s false x ++ uses T s false y
  | .call callee args => uses T s false callee ++ usesAll T s args

/-- The uses of the forms of a block. -/
def usesBody (T : Scopes) (s : ScopeId) : List Form → List Use
  | [] => []
  | [f] => uses T s true f ++ left T s true f
  | f :: g :: fs => uses T s true f ++ usesBody T s (g :: fs)

/-- The uses of some forms. -/
def usesAll (T : Scopes) (s : ScopeId) : List Form → List Use
  | [] => []
  | f :: fs => uses T s false f ++ usesAll T s fs

end

/-- A function of a program. -/
structure Function where
  label : String
  scope : ScopeId
  params : List String
  body : Form

/-- The function that a form makes. -/
def function? (_ : ScopeId) : Form → List Function
  | .define name f params body | .lambda name f params body => [⟨name, f, params, body⟩]
  | _ => []

/-- The functions of a program. -/
def functions (program : Form) : List Function := program.collect function? Scopes.root

/-- The uses of the parameters that are captured, which are moved to cells. -/
def moved (sc : Scope) (names : List String) : List Use :=
  names.flatMap fun name =>
    if sc.declares name && sc.cells.contains name then [⟨.get, name⟩, ⟨.set, name⟩] else []

/-- The uses of a function, without those in functions in it. -/
def Function.uses (T : Scopes) (f : Function) : List Use :=
  moved (T.scope f.scope) (f.label :: f.params) ++ f.body.uses T f.scope false

end Form

/-! ## Records -/

/-- What is recorded of a place is the name of a variable; a slot can be that of several ones. -/
def Place.Bears (globals : Globals) (c : Code) (name : String) : Place → Prop
  | .global ix => globals.name? ix.toNat = some name
  | .slot ix => ⟨name, ix.toNat⟩ ∈ c.locals
  | .cell ix => c.cellName? ix.toNat = some name

/-- An instruction for a variable. -/
def Instr.ofVariable : Instr → Bool
  | .getGlobal _ | .setGlobal _ | .getLocal _ | .setLocal _ | .getCell _ | .setCell _ | .loadCell _ => true
  | _ => false

/-- The instructions for variables among some instructions. -/
def variablesOf (code : List Instr) : List Instr := code.filter Instr.ofVariable

/-- There is an instruction for each use, in order, with a place that bears its name. -/
def Fit (globals : Globals) (c : Code) (is : List Instr) (us : List Use) : Prop :=
  List.Forall₂
    (fun i u => ∃ place : Place, u.Allows place ∧ i = u.instr place ∧ place.Bears globals c u.name) is us

/-- The instructions of a code object fit the uses of its part of the program. -/
def Code.Fits (globals : Globals) (c : Code) (us : List Use) : Prop :=
  ∃ code, c.bytes = Instr.bytes code ∧ Fit globals c (variablesOf code) us

namespace Draft

/-- The code object that a draft is, but for its bytes. -/
abbrev records (d : Draft) : Code := d.finish []

/-- The variables in view are recorded. -/
structure Recorded (d : Draft) : Prop where
  slots : ∀ x ∈ d.slots, ⟨x.name, x.place⟩ ∈ d.locals
  cells : ∀ x ∈ d.cells, d.records.cellName? x.place = some x.name

/-- What is recorded is still so, and what has come into view is recorded. -/
structure Retains (d d' : Draft) : Prop where
  locals : ∀ x ∈ d.locals, x ∈ d'.locals
  cells : ∀ ix name, d.records.cellName? ix = some name → d'.records.cellName? ix = some name
  free : d'.free = d.free
  recorded : d.Recorded → d'.Recorded

variable {d d' d₁ : Draft}

theorem Retains.refl (d : Draft) : d.Retains d := ⟨fun _ h => h, fun _ _ h => h, rfl, id⟩

theorem Retains.trans (h : d.Retains d₁) (h' : d₁.Retains d') : d.Retains d' :=
  ⟨fun x hx => h'.locals x (h.locals x hx), fun ix n hn => h'.cells ix n (h.cells ix n hn),
    h'.free.trans h.free, fun hd => h'.recorded (h.recorded hd)⟩

/-- Nothing is recorded, and nothing comes into view. -/
theorem retains_of_subset (hl : d'.locals = d.locals) (hf : d'.free = d.free) (ho : d'.own = d.own)
    (hs : d'.slots ⊆ d.slots) (hc : d'.cells ⊆ d.cells) : d.Retains d' := by
  have cells (ix : Nat) : d'.records.cellName? ix = d.records.cellName? ix := by
    simp only [Code.cellName?, finish, hf, ho]
  refine ⟨fun x hx => hl ▸ hx, fun ix n hn => (cells ix).trans hn, hf,
    fun hd => ⟨fun x hx => ?_, fun x hx => ?_⟩⟩
  · rw [hl]
    exact hd.slots x (hs hx)
  · rw [cells]
    exact hd.cells x (hc hx)

theorem retains_addLocal (d : Draft) (name : String) (slot : Nat) : d.Retains (d.addLocal name slot) where
  locals _ hx := Array.mem_push_of_mem _ hx
  cells _ _ hn := hn
  free := rfl
  recorded hd := by
    refine ⟨fun x hx => ?_, hd.cells⟩
    rcases List.mem_cons.1 hx with rfl | hx
    · exact Array.mem_push_self
    · exact Array.mem_push_of_mem _ (hd.slots x hx)

theorem cellName?_addBlockCell (name : String) {ix : Nat} {n : String} (h : d.records.cellName? ix = some n) :
    (d.addBlockCell name).records.cellName? ix = some n := by
  unfold Code.cellName? at h ⊢
  simp only [finish, addBlockCell] at h ⊢
  split
  · rwa [if_pos ‹_›] at h
  · rw [if_neg ‹_›] at h
    exact getElem?_push_of_some h

theorem retains_addBlockCell (d : Draft) (name : String) : d.Retains (d.addBlockCell name) where
  locals _ hx := hx
  cells _ _ hn := cellName?_addBlockCell name hn
  free := rfl
  recorded hd := by
    refine ⟨hd.slots, fun x hx => ?_⟩
    rcases List.mem_cons.1 hx with rfl | hx
    · simp [Code.cellName?, finish, addBlockCell]
    · exact cellName?_addBlockCell name (hd.cells x hx)

theorem retains_addBlockCells (d : Draft) (names : List String) : d.Retains (d.addBlockCells names) := by
  unfold addBlockCells
  induction names generalizing d with
  | nil => exact .refl d
  | cons name names ih => exact (d.retains_addBlockCell name).trans (ih _)

end Draft

/-- The parameters of a function are recorded from the start, and its cells are. -/
theorem Emit.recorded_draftOf (name : String) (params : List String) (sc : Scope) :
    (draftOf name params sc).Recorded ∧
      ∀ i n, (name :: params)[i]? = some n → ⟨n, i⟩ ∈ (draftOf name params sc).locals := by
  have hlocals : (draftOf name params sc).locals =
      (((name :: params).zipIdx).map fun x => LocalName.mk x.1 x.2).toArray := by
    simp [draftOf, Draft.addLocals_eq, Draft.start]
  have hmem (i : Nat) (n : String) (hi : (name :: params)[i]? = some n) :
      ⟨n, i⟩ ∈ (draftOf name params sc).locals := by
    rw [hlocals, List.mem_toArray]
    exact List.mem_map.2 ⟨(n, i), List.mem_zipIdx_iff_getElem?.2 hi, rfl⟩
  refine ⟨⟨fun x hx => ?_, fun x hx => ?_⟩, hmem⟩
  · rw [slots_draftOf, List.mem_reverse] at hx
    obtain ⟨⟨n, i⟩, hy, rfl⟩ := List.mem_map.1 hx
    exact hmem i n (List.mem_zipIdx_iff_getElem?.1 hy)
  · rw [cells_draftOf, List.mem_reverse] at hx
    obtain ⟨⟨n, i⟩, hy, rfl⟩ := List.mem_map.1 hx
    have hi : (sc.free ++ sc.cells)[i]? = some n := List.mem_zipIdx_iff_getElem?.1 hy
    have hfree : (draftOf name params sc).free = sc.free.toArray := by
      simp [draftOf, Draft.addLocals_eq, Draft.start]
    have hown : (draftOf name params sc).own = sc.cells.toArray := by
      simp [draftOf, Draft.addLocals_eq, Draft.start]
    rw [List.getElem?_append] at hi
    simpa [Code.cellName?, Draft.finish, hfree, hown] using hi

/-- What reads a variable that has just been declared. -/
def Effect.leave : Effect → List Instr
  | .value => []
  | .slot ix => [.getLocal ix]
  | .stored ix => [.getCell ix]

/-! ## Emissions -/

/-- What is recorded is still so, and new code objects are those of functions in `F`. -/
structure Emission.Retains (T : Scopes) (F : List Form.Function) (e e' : Emission) : Prop where
  globals : ∀ ix name, e.globals.name? ix = some name → e'.globals.name? ix = some name
  draft : e.draft.Retains e'.draft
  functions : ∀ i c, e'.heap.code? i = some c →
    e.heap.code? i = some c ∨ ∃ f ∈ F, c.Fits e'.globals (f.uses T)

section

variable {T : Scopes} {F : List Form.Function} {g g' : Globals} {c c' : Code} {is js : List Instr}
  {us ws : List Use} {name : String} {place : Place} {e e₁ e' : Emission}

theorem Place.Bears.mono (h : place.Bears g c name)
    (hg : ∀ ix n, g.name? ix = some n → g'.name? ix = some n) (hl : ∀ x ∈ c.locals, x ∈ c'.locals)
    (hc : ∀ ix n, c.cellName? ix = some n → c'.cellName? ix = some n) : place.Bears g' c' name := by
  cases place with
  | global ix => exact hg _ _ h
  | slot ix => exact hl _ h
  | cell ix => exact hc _ _ h

theorem Fit.mono (h : Fit g c is us) (hg : ∀ ix n, g.name? ix = some n → g'.name? ix = some n)
    (hl : ∀ x ∈ c.locals, x ∈ c'.locals)
    (hc : ∀ ix n, c.cellName? ix = some n → c'.cellName? ix = some n) : Fit g' c' is us :=
  h.imp fun _ _ hu => by
    obtain ⟨place, ha, hi, hb⟩ := hu
    exact ⟨place, ha, hi, hb.mono hg hl hc⟩

theorem Fit.append (h : Fit g c is us) (h' : Fit g c js ws) : Fit g c (is ++ js) (us ++ ws) :=
  List.rel_append h h'

theorem Use.fit (u : Use) (h : place.Bears g c u.name) (ha : u.Allows place) : Fit g c [u.instr place] [u] :=
  .cons ⟨place, ha, rfl, h⟩ .nil

theorem Code.Fits.mono (h : c.Fits g us) (hg : ∀ ix n, g.name? ix = some n → g'.name? ix = some n) :
    c.Fits g' us := by
  obtain ⟨code, hb, hf⟩ := h
  exact ⟨code, hb, hf.mono hg (fun _ hx => hx) fun _ _ hn => hn⟩

@[simp] theorem variablesOf_append (is js : List Instr) :
    variablesOf (is ++ js) = variablesOf is ++ variablesOf js :=
  List.filter_append ..

theorem variablesOf_cons (i : Instr) (is : List Instr) :
    variablesOf (i :: is) = if i.ofVariable then i :: variablesOf is else variablesOf is :=
  List.filter_cons

theorem Use.ofVariable_instr (u : Use) (place : Place) : (u.instr place).ofVariable = true := by
  obtain ⟨kind, name⟩ := u
  cases kind <;> cases place <;> rfl

theorem Use.variablesOf_instr (u : Use) (place : Place) : variablesOf [u.instr place] = [u.instr place] := by
  simp [variablesOf, u.ofVariable_instr place]

namespace Emission

/-- What fits what is recorded in an emission. -/
abbrev Shows (e : Emission) (is : List Instr) (us : List Use) : Prop := Fit e.globals e.draft.records is us

theorem Retains.refl (e : Emission) : e.Retains T F e := ⟨fun _ _ h => h, .refl _, fun _ _ h => Or.inl h⟩

theorem Retains.trans (h : e.Retains T F e₁) (h' : e₁.Retains T F e') : e.Retains T F e' where
  globals ix n hn := h'.globals ix n (h.globals ix n hn)
  draft := h.draft.trans h'.draft
  functions i c hc := by
    rcases h'.functions i c hc with hc | hf
    · rcases h.functions i c hc with hc | ⟨f, hf, hfits⟩
      · exact Or.inl hc
      · exact Or.inr ⟨f, hf, hfits.mono h'.globals⟩
    · exact Or.inr hf

theorem Retains.shows (h : e.Retains T F e') (hs : e.Shows is us) : e'.Shows is us :=
  hs.mono h.globals h.draft.locals h.draft.cells

/-- Only the draft has changed. -/
theorem retains_of_draft {d : Draft} (h : e.draft.Retains d) : e.Retains T F { e with draft := d } :=
  ⟨fun _ _ hn => hn, h, fun _ _ hc => Or.inl hc⟩

/-- Of the draft only places in the code and on the stack and its constants have changed. -/
theorem retains_of_eq {d : Draft} (hl : d.locals = e.draft.locals) (hf : d.free = e.draft.free)
    (ho : d.own = e.draft.own) (hs : d.slots = e.draft.slots) (hc : d.cells = e.draft.cells) :
    e.Retains T F { e with draft := d } :=
  retains_of_draft (Draft.retains_of_subset hl hf ho (hs ▸ List.Subset.refl _) (hc ▸ List.Subset.refl _))

end Emission

end

end ByteLisp
