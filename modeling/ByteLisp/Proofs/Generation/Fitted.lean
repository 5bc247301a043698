/-
  ByteLisp: code fits the variables of its program.

  * `Emit.Retaining` and `Emit.Plain`: an action retains what is recorded, and gives no
    instruction for a variable;
  * `Emit.Uses`: an action gives an instruction for each use, in order, with a place that
    bears the name; `Emit.UsesForm` says so of the code of a form, whose value may have
    become a variable;
  * `Form.emit_uses` is the result for forms, by their structure, and `Expr.compile_fits`
    that for programs: each new code object is that of the program or of a function in it,
    and fits its uses.
-/
import ByteLisp.Proofs.Generation.Uses

namespace ByteLisp

namespace Emit

variable {T : Scopes} {F : List Form.Function} {α β : Type} {π : α → List Instr} {ρ : β → List Instr}
  {pre : List Instr} {us ws : List Use}

/-- An action retains what is recorded. -/
structure Retaining (T : Scopes) (F : List Form.Function) (x : Emit α) : Prop where
  ok : ∀ {e a e'}, x e = .ok a e' → e.Retains T F e'

theorem retaining_bind {x : Emit α} {f : α → Emit β} (hx : Retaining T F x) (hf : ∀ a, Retaining T F (f a)) :
    Retaining T F (x >>= f) where
  ok h := by
    obtain ⟨a, e₁, h₁, h₂⟩ := bind_ok.1 h
    exact (hx.ok h₁).trans ((hf a).ok h₂)

theorem retaining_pure (a : α) : Retaining T F (pure a : Emit α) where
  ok h := by
    obtain ⟨-, rfl⟩ := pure_ok.1 h
    exact .refl _

theorem retaining_draft : Retaining T F draft where
  ok h := by
    obtain ⟨-, rfl⟩ := draft_ok.1 h
    exact .refl _

theorem retaining_update {f : Draft → Draft} (hf : ∀ d : Draft, d.Retains (f d)) :
    Retaining T F (update f) where
  ok h := by
    cases update_ok.1 h
    exact Emission.retains_of_draft (hf _)

/-- A change of the draft by which nothing comes into view. -/
theorem retaining_keep {f : Draft → Draft} (hl : ∀ d, (f d).locals = d.locals := by exact fun _ => rfl)
    (hf : ∀ d, (f d).free = d.free := by exact fun _ => rfl)
    (ho : ∀ d, (f d).own = d.own := by exact fun _ => rfl)
    (hs : ∀ d, (f d).slots ⊆ d.slots := by exact fun _ => List.Subset.refl _)
    (hc : ∀ d, (f d).cells ⊆ d.cells := by exact fun _ => List.Subset.refl _) : Retaining T F (update f) :=
  retaining_update fun d => Draft.retains_of_subset (hl d) (hf d) (ho d) (hs d) (hc d)

theorem retaining_grow {n : Nat} : Retaining T F (update (·.grow n)) := retaining_keep

theorem retaining_shrink {n : Nat} : Retaining T F (update (·.shrink n)) := retaining_keep

theorem retaining_enterBlock : Retaining T F (update (·.enterBlock)) := retaining_keep

theorem retaining_exitBlock : Retaining T F (update (·.exitBlock)) :=
  retaining_update fun _ =>
    Draft.retains_of_subset rfl rfl rfl List.filter_sublist.subset List.filter_sublist.subset

theorem retaining_reserve : Retaining T F reserve := retaining_keep

theorem retaining_instr (i : Instr) : Retaining T F (instr i) :=
  retaining_bind retaining_keep fun _ => retaining_pure _

/-- An action that leaves the emission as it is. -/
theorem retaining_of_eq {x : Emit α} (h : ∀ {e a e'}, x e = .ok a e' → e' = e) : Retaining T F x where
  ok hx := h hx ▸ .refl _

theorem retaining_countOperand (n : Nat) (whole : Form) (why : Malformation) :
    Retaining T F (countOperand n whole why) :=
  retaining_of_eq fun h => (countOperand_ok h).2

theorem retaining_address : Retaining T F address := retaining_of_eq fun h => (address_ok h).2

theorem retaining_addressOf (n : Nat) : Retaining T F (addressOf n) :=
  retaining_of_eq fun h => (addressOf_ok h).2

theorem retaining_constantIndex (v : Value) : Retaining T F (constantIndex v) where
  ok h := by
    obtain ⟨-, cs, rfl⟩ := constantIndex_ok h
    exact Emission.retains_of_eq rfl rfl rfl rfl rfl

theorem retaining_alloc {o : Object} (ho : ∀ c, o ≠ .code c) : Retaining T F (alloc o) where
  ok h := by
    obtain ⟨-, rfl⟩ := alloc_ok.1 h
    refine ⟨fun _ _ hn => hn, .refl _, fun i c hc => ?_⟩
    rw [Heap.code?_eq_some] at hc
    rcases Heap.get?_alloc_cases hc with hc | ⟨-, hc⟩
    · exact Or.inl (Heap.code?_eq_some.2 hc)
    · exact absurd hc.symm (ho c)

theorem retaining_define (name : String) : Retaining T F (defineGlobal name) where
  ok {e a e'} h := by
    cases h
    refine ⟨fun ix n hn => ?_, .refl _, fun _ _ hc => Or.inl hc⟩
    obtain ⟨ns, hns, -⟩ : e.globals.Adds (fun _ => True) (e.globals.define name).2 :=
      Globals.adds_define trivial
    obtain ⟨x, hx, rfl⟩ := Option.map_eq_some_iff.1 hn
    refine Option.map_eq_some_iff.2 ⟨x, ?_, rfl⟩
    dsimp only
    rw [hns]
    exact Globals.get?_adding hx

/-! ## Actions without variables -/

/-- An action whose instructions, which `π` takes from its result, are not for variables. -/
structure Plain (T : Scopes) (F : List Form.Function) (π : α → List Instr) (x : Emit α) : Prop
    extends Retaining T F x where
  code : ∀ {e a e'}, x e = .ok a e' → variablesOf (π a) = []

theorem plain_instr {i : Instr} (h : i.ofVariable = false) : Plain T F id (instr i) where
  toRetaining := retaining_instr i
  code hi := by
    obtain ⟨rfl, -⟩ := instr_ok.1 hi
    simp [variablesOf, h]

theorem plain_bind {x : Emit α} {f : α → Emit β} (hx : Retaining T F x) (hf : ∀ a, Plain T F ρ (f a)) :
    Plain T F ρ (x >>= f) where
  toRetaining := retaining_bind hx fun a => (hf a).toRetaining
  code h := by
    obtain ⟨a, e₁, -, h₂⟩ := bind_ok.1 h
    exact (hf a).code h₂

theorem plain_constant (v : Value) : Plain T F id (constant v) :=
  plain_bind (retaining_constantIndex v) fun _ => plain_bind retaining_grow fun _ => plain_instr rfl

theorem plain_discard : Plain T F id discard := plain_bind retaining_shrink fun _ => plain_instr rfl

theorem plain_exit (n : Nat) (whole : Form) : Plain T F id (exit n whole) := by
  unfold exit
  split
  · exact ⟨retaining_pure _, fun h => by obtain ⟨rfl, -⟩ := pure_ok.1 h; rfl⟩
  · exact plain_bind (retaining_countOperand ..) fun _ => plain_bind retaining_shrink fun _ => plain_instr rfl

/-! ## Actions with variables -/

/-- An action that retains what is recorded, after which there is an instruction for each use: behind
    the instructions `pre`, which were there before. -/
structure Uses (T : Scopes) (F : List Form.Function) (pre : List Instr) (π : α → List Instr) (us : List Use)
    (x : Emit α) : Prop where
  ok : ∀ {e a e'}, x e = .ok a e' → e.draft.Recorded → e.Retains T F e' ∧
    ∃ is, variablesOf (π a) = pre ++ is ∧ e'.Shows is us

/-- An action that gives the code of a form, after which its value may have to be read. -/
structure UsesForm (T : Scopes) (F : List Form.Function) (us ws : List Use) (x : Emit (Effect × List Instr)) :
    Prop where
  ok : ∀ {e eff code e'}, x e = .ok (eff, code) e' → e.draft.Recorded → e.Retains T F e' ∧
    e'.Shows (variablesOf code) us ∧ e'.Shows eff.leave ws

theorem uses_bind {x : Emit α} {f : α → Emit β} (hx : Uses T F [] π us x)
    (hf : ∀ a, Uses T F (pre ++ variablesOf (π a)) ρ ws (f a)) : Uses T F pre ρ (us ++ ws) (x >>= f) where
  ok h hd := by
    obtain ⟨a, e₁, h₁, h₂⟩ := bind_ok.1 h
    obtain ⟨hr₁, is, his, hs₁⟩ := hx.ok h₁ hd
    obtain ⟨hr₂, js, hjs, hs₂⟩ := (hf a).ok h₂ (hr₁.draft.recorded hd)
    refine ⟨hr₁.trans hr₂, is ++ js, ?_, (hr₂.shows hs₁).append hs₂⟩
    rw [hjs, his, List.nil_append, List.append_assoc]

/-- An action behind which no variable is used. -/
theorem uses_last {x : Emit α} {f : α → Emit β} (hx : Uses T F [] π us x)
    (hf : ∀ a, Uses T F (pre ++ variablesOf (π a)) ρ [] (f a)) : Uses T F pre ρ us (x >>= f) := by
  have h := uses_bind hx hf
  rwa [List.append_nil] at h

/-- An action before another one of whose result something is known. -/
theorem uses_knowing {x : Emit α} {f : α → Emit β} {P : α → Prop} (hx : Retaining T F x)
    (hP : ∀ {e a e'}, x e = .ok a e' → P a) (hf : ∀ a, P a → Uses T F pre ρ us (f a)) :
    Uses T F pre ρ us (x >>= f) where
  ok h hd := by
    obtain ⟨a, e₁, h₁, h₂⟩ := bind_ok.1 h
    obtain ⟨hr, is, his, hs⟩ := (hf a (hP h₁)).ok h₂ ((hx.ok h₁).draft.recorded hd)
    exact ⟨(hx.ok h₁).trans hr, is, his, hs⟩

/-- A retaining action before another one. -/
theorem uses_after {x : Emit α} {f : α → Emit β} (hx : Retaining T F x) (hf : ∀ a, Uses T F pre ρ us (f a)) :
    Uses T F pre ρ us (x >>= f) := uses_knowing hx (fun _ => trivial) fun a _ => hf a

/-- A plain action before another one. -/
theorem uses_plain {x : Emit α} {f : α → Emit β} (hx : Plain T F π x)
    (hf : ∀ a, variablesOf (π a) = [] → Uses T F pre ρ us (f a)) : Uses T F pre ρ us (x >>= f) :=
  uses_knowing hx.toRetaining hx.code hf

theorem uses_pure {a : α} (h : variablesOf (π a) = pre) : Uses T F pre π [] (pure a) where
  ok ha _ := by
    obtain ⟨rfl, rfl⟩ := pure_ok.1 ha
    exact ⟨.refl _, [], by rw [h, List.append_nil], .nil⟩

theorem Plain.uses {x : Emit α} (h : Plain T F π x) : Uses T F [] π [] x where
  ok hx _ := ⟨h.ok hx, [], h.code hx, .nil⟩

/-! ## Variables -/

theorem retaining_globalIndex (name : String) : Retaining T F (globalIndex T name) where
  ok h := by
    rw [globalIndex_apply] at h
    split at h
    · exact (globalCheck_ok h).2 ▸ .refl _
    · split at h
      · obtain ⟨_, e₁, h₁, h₂⟩ := bind_ok.1 h
        obtain ⟨-, rfl⟩ := globalCheck_ok h₂
        exact (retaining_define name).ok h₁
      · cases h

theorem bears_slot {d : Draft} {g : Globals} {name : String} {ix : UInt8} (hd : d.Recorded)
    (h : d.view.slot? name = some ix.toNat) : (Place.slot ix).Bears g d.records name := by
  obtain ⟨x, hx, hix⟩ := Option.map_eq_some_iff.1 h
  obtain rfl : x.name = name := by simpa using List.find?_some hx
  have hmem := hd.slots x (List.mem_of_find?_eq_some hx)
  rwa [hix] at hmem

theorem bears_cell {d : Draft} {g : Globals} {name : String} {ix : UInt8} (hd : d.Recorded)
    (h : d.view.cell? name = some ix.toNat) : (Place.cell ix).Bears g d.records name := by
  obtain ⟨x, hx, hix⟩ := Option.map_eq_some_iff.1 h
  obtain rfl : x.name = name := by simpa using List.find?_some hx
  have hcell := hd.cells x (List.mem_of_find?_eq_some hx)
  rwa [hix] at hcell

/-- An action that finds the place for a use. -/
structure Finds (T : Scopes) (F : List Form.Function) (u : Use) (x : Emit Instr) : Prop where
  ok : ∀ {e i e'}, x e = .ok i e' → e.draft.Recorded → e.Retains T F e' ∧
    ∃ place : Place, u.Allows place ∧ i = u.instr place ∧ place.Bears e'.globals e'.draft.records u.name

variable {u : Use} {i : Instr}

theorem finds_global {f : UInt8 → Instr} (hu : u.kind ≠ .load) (hf : ∀ ix, f ix = u.instr (.global ix)) :
    Finds T F u (f <$> globalIndex T u.name) where
  ok h _ := by
    obtain ⟨ix, hix, rfl⟩ := map_ok.1 h
    exact ⟨(retaining_globalIndex _).ok hix, .global ix, hu, hf ix, (globalIndex_ok hix).1⟩

theorem finds_slot {f : UInt8 → Instr} (hu : u.kind ≠ .load) (hf : ∀ ix, f ix = u.instr (.slot ix)) :
    Finds T F u (f <$> slotIndex u.name) where
  ok h hd := by
    obtain ⟨ix, hix, rfl⟩ := map_ok.1 h
    obtain ⟨hslot, rfl⟩ := slotIndex_ok hix
    exact ⟨.refl _, .slot ix, hu, hf ix, bears_slot hd hslot⟩

theorem finds_cell {f : UInt8 → Instr} (hf : ∀ ix, f ix = u.instr (.cell ix)) :
    Finds T F u (f <$> cellIndex u.name) where
  ok h hd := by
    obtain ⟨ix, hix, rfl⟩ := map_ok.1 h
    obtain ⟨hcell, rfl⟩ := cellIndex_ok hix
    exact ⟨.refl _, .cell ix, trivial, hf ix, bears_cell hd hcell⟩

/-- The place of a variable is found, and then its instruction is the code. -/
theorem uses_found {x : Emit Instr} {f : Instr → Emit (List Instr)} (hx : Finds T F u x)
    (hf : ∀ i, Retaining T F (f i)) (hcode : ∀ i e code e', f i e = .ok code e' → code = [i]) :
    Uses T F [] id [u] (x >>= f) where
  ok h hd := by
    obtain ⟨i, e₁, h₁, h₂⟩ := bind_ok.1 h
    obtain ⟨hr, place, ha, rfl, hb⟩ := hx.ok h₁ hd
    obtain rfl := hcode _ _ _ _ h₂
    have hrest := (hf _).ok h₂
    exact ⟨hr.trans hrest, [u.instr place], u.variablesOf_instr place, hrest.shows (u.fit hb ha)⟩

theorem uses_read (s : ScopeId) (name : String) (binding : Binding) :
    Uses T F [] id [⟨.get, name⟩] (read T s name binding) := by
  have retaining (i : Instr) : Retaining T F (do update (·.grow 1); instr i : Emit (List Instr)) :=
    retaining_bind retaining_grow fun _ => retaining_instr i
  have code (i : Instr) (e code e')
      (h : (do update (·.grow 1); instr i : Emit (List Instr)) e = .ok code e') :
      code = [i] := by
    obtain ⟨_, e₁, -, h⟩ := bind_ok.1 h
    exact (instr_ok.1 h).1
  unfold read
  dsimp only
  split
  · exact uses_found (finds_global (by simp) fun _ => rfl) retaining code
  · exact uses_found (finds_slot (by simp) fun _ => rfl) retaining code
  · exact uses_found (finds_cell fun _ => rfl) retaining code

theorem uses_write (s : ScopeId) (name : String) (binding : Binding) :
    Uses T F [] id [⟨.set, name⟩] (write T s name binding) := by
  have code (i : Instr) (e code e') (h : instr i e = .ok code e') : code = [i] := (instr_ok.1 h).1
  unfold write
  dsimp only
  split
  · exact uses_found (finds_global (by simp) fun _ => rfl) retaining_instr code
  · exact uses_found (finds_slot (by simp) fun _ => rfl) retaining_instr code
  · exact uses_found (finds_cell fun _ => rfl) retaining_instr code

/-- A declaration stores the value, which is read again where it is not left on the stack. -/
theorem uses_declare (s : ScopeId) (whole : Form) (name : String) (direct : Bool) :
    UsesForm T F (Form.declared T s direct name) (Form.kept T s direct name)
      (declare T s whole name direct) where
  ok {e eff code e'} h hd := by
    have advanced {e₁ : Emission} {n : Nat} : e₁.Retains T F { e₁ with draft := e₁.draft.advance n } :=
      Emission.retains_of_eq rfl rfl rfl rfl rfl
    unfold declare at h
    unfold Form.declared Form.kept
    cases hs : T.storageOf s name .unbound with
    | global =>
      simp only [hs, bind_ok, get_ok, set_ok, instr_ok, pure_ok] at h
      obtain ⟨_, e, ⟨rfl, rfl⟩, _, _, rfl, ix, _, h₁, _, _, ⟨rfl, rfl⟩, h, rfl⟩ := h
      obtain ⟨hix, rfl⟩ := globalCheck_ok h₁
      cases h
      have hb : (Place.global ix).Bears (e.globals.define name).2 e.draft.records name := by
        rw [Place.Bears, hix]
        exact Globals.name?_define ..
      have hdefine : e.Retains T F { e with globals := (e.globals.define name).2 } :=
        (retaining_define name).ok rfl
      refine ⟨hdefine.trans advanced, ?_, ?_⟩
      · cases direct <;> exact advanced.shows (Use.fit ⟨.set, name⟩ hb (Use.allows (by simp)))
      · cases direct <;> exact .nil
    | cell =>
      simp only [hs, bind_ok, instr_ok, update_ok, ite_ok, pure_ok] at h
      obtain ⟨ix, e₁, h₁, _, _, ⟨rfl, rfl⟩, _, _, ⟨rfl, rfl⟩, _, _, rfl, h⟩ := h
      obtain ⟨hcell, rfl⟩ := cellIndex_ok h₁
      have hb : (Place.cell ix).Bears e₁.globals e₁.draft.records name := bears_cell hd hcell
      have set := Use.fit ⟨.set, name⟩ hb (Use.allows (by simp))
      have get := Use.fit ⟨.get, name⟩ hb (Use.allows (by simp))
      rcases h with ⟨rfl, h, rfl⟩ | ⟨hdirect, _, _, rfl, _, _, ⟨rfl, rfl⟩, h, rfl⟩
      · cases h
        exact ⟨Emission.retains_of_eq rfl rfl rfl rfl rfl, set, get⟩
      · cases h
        rw [Bool.not_eq_true] at hdirect
        subst hdirect
        exact ⟨Emission.retains_of_eq rfl rfl rfl rfl rfl, set.append get, .nil⟩
    | slot =>
      simp only [hs, bind_ok, draft_ok, instr_ok, update_ok, ite_ok, pure_ok, throw_ok, and_false,
        or_false] at h
      obtain ⟨rfl, _, e, ⟨rfl, rfl⟩, _, _, rfl, ix, e₁, h₁, _, _, ⟨rfl, rfl⟩, h, rfl⟩ := h
      obtain ⟨hix, rfl⟩ := placeOperand_ok h₁
      cases h
      have hadd : e.Retains T F { e with draft := e.draft.addLocal name (e.draft.depth - 1) } :=
        Emission.retains_of_draft (Draft.retains_addLocal ..)
      have hb : (Place.slot ix).Bears e.globals (e.draft.addLocal name (e.draft.depth - 1)).records name := by
        rw [Place.Bears, hix]
        exact Array.mem_push_self
      exact ⟨hadd.trans advanced, Use.fit ⟨.set, name⟩ hb (Use.allows (by simp)),
        Use.fit ⟨.get, name⟩ hb (Use.allows (by simp))⟩

/-- The parameters that are captured are read from their slots and written to their cells. -/
theorem uses_moveCaptured {sc : Scope} {slot : Nat} {names : List String} {e e' : Emission}
    {code : List Instr} (h : moveCaptured sc slot names e = .ok code e') (hd : e.draft.Recorded)
    (hn : ∀ i n, names[i]? = some n → ⟨n, slot + i⟩ ∈ e.draft.locals) :
    e.Retains T F e' ∧ e'.Shows (variablesOf code) (Form.moved sc names) := by
  induction names generalizing slot e code with
  | nil =>
    obtain ⟨rfl, rfl⟩ := pure_ok.1 h
    exact ⟨.refl _, .nil⟩
  | cons name names ih =>
    have hrest (i : Nat) (n : String) (hi : names[i]? = some n) : ⟨n, slot + 1 + i⟩ ∈ e.draft.locals := by
      rw [Nat.add_assoc, Nat.add_comm 1 i]
      exact hn (i + 1) n hi
    unfold moveCaptured at h
    rw [Form.moved, List.flatMap_cons, ← Form.moved]
    simp only [ite_ok, bind_ok, instr_ok, pure_ok] at h
    rcases h with ⟨hc, ix, _, h₁, cell, e₂, h₂, _, _, ⟨rfl, rfl⟩, _, _, ⟨rfl, rfl⟩, _, _, ⟨rfl, rfl⟩,
      rest, e₃, h₃, rfl, rfl⟩ | ⟨hc, h⟩
    · obtain ⟨hix, rfl⟩ := placeOperand_ok h₁
      obtain ⟨hcell, rfl⟩ := cellIndex_ok h₂
      have hslot : (Place.slot ix).Bears e₂.globals e₂.draft.records name := by
        rw [Place.Bears, hix]
        exact hn 0 name rfl
      have hcell : (Place.cell cell).Bears e₂.globals e₂.draft.records name := bears_cell hd hcell
      have moves := (Use.fit ⟨.get, name⟩ hslot (Use.allows (by simp))).append
        (Use.fit ⟨.set, name⟩ hcell (Use.allows (by simp)))
      have hadvance : e₂.Retains T F { e₂ with draft := ((e₂.draft.advance 2).advance 2).advance 1 } :=
        Emission.retains_of_eq rfl rfl rfl rfl rfl
      obtain ⟨hr, hs⟩ := ih h₃ (hadvance.draft.recorded hd) hrest
      rw [if_pos hc]
      exact ⟨hadvance.trans hr, ((hadvance.trans hr).shows moves).append hs⟩
    · rw [if_neg hc]
      exact ih h hd hrest

theorem uses_loadCells (names : List String) :
    Uses T F [] id (names.map (⟨.load, ·⟩)) (loadCells names) := by
  induction names with
  | nil => exact uses_pure rfl
  | cons name names ih =>
    have load : Uses T F [] id [⟨.load, name⟩]
        (do let i ← Instr.loadCell <$> cellIndex name; update (·.grow 1); instr i) := by
      refine uses_found (finds_cell fun _ => rfl)
        (fun i => retaining_bind retaining_grow fun _ => retaining_instr i) ?_
      intro i e code e' h
      obtain ⟨_, e₁, -, h⟩ := bind_ok.1 h
      exact (instr_ok.1 h).1
    have h : Uses T F [] id ([⟨.load, name⟩] ++ names.map (⟨.load, ·⟩)) (do
        let first ← (do let i ← Instr.loadCell <$> cellIndex name; update (·.grow 1); instr i)
        let rest ← loadCells names
        return first ++ rest) :=
      uses_bind load fun first => uses_last ih fun rest => uses_pure (by simp)
    refine ⟨fun {e code e'} he hd => h.ok ?_ hd⟩
    unfold loadCells at he
    simp only [bind_ok, map_ok, update_ok, instr_ok, pure_ok] at he ⊢
    obtain ⟨ix, e₁, h₁, _, _, rfl, _, _, ⟨rfl, rfl⟩, rest, e₂, h₂, rfl, rfl⟩ := he
    exact ⟨_, _, ⟨_, _, ⟨ix, h₁, rfl⟩, ⟨⟩, _, rfl, rfl, rfl⟩, rest, _, h₂, rfl, rfl⟩

/-! ## Composed actions -/

variable {x y z : Emit (List Instr)} {f : Emit (Effect × List Instr)} {ux uy uz : List Use}

theorem UsesForm.code (hf : UsesForm T F us ws f) : Uses T F [] Prod.snd us f where
  ok h hd := by
    obtain ⟨hr, hs, -⟩ := hf.ok h hd
    exact ⟨hr, _, rfl, hs⟩

theorem UsesForm.left (hf : UsesForm T F us ws f) : Uses T F [] (fun r => r.2 ++ r.1.leave) (us ++ ws) f where
  ok {e r e'} h hd := by
    obtain ⟨effect, code⟩ := r
    obtain ⟨hr, hs, hl⟩ := hf.ok h hd
    have hleave : variablesOf effect.leave = effect.leave := by cases effect <;> rfl
    refine ⟨hr, variablesOf code ++ effect.leave, ?_, hs.append hl⟩
    rw [variablesOf_append, hleave, List.nil_append]

theorem uses_only (hf : UsesForm T F us ws f) : Uses T F [] id us (only f) :=
  uses_last hf.code fun _ => uses_pure (by simp)

theorem uses_valued (hx : Uses T F [] id us x) : UsesForm T F us [] (valued x) where
  ok {e eff code e'} h hd := by
    obtain ⟨code, e₁, h₁, h₂⟩ := bind_ok.1 h
    obtain ⟨hp, rfl⟩ := pure_ok.1 h₂
    cases hp
    obtain ⟨hr, is, his, hs⟩ := hx.ok h₁ hd
    refine ⟨hr, ?_, .nil⟩
    rw [show variablesOf code = is from his]
    exact hs

theorem uses_operation (op : Operator) (hx : Uses T F [] id ux x) (hy : Uses T F [] id uy y) :
    Uses T F [] id (ux ++ uy) (operation op x y) := by
  have hop : (operator op).ofVariable = false := by cases op <;> rfl
  exact uses_bind hx fun first => uses_last hy fun second => uses_after retaining_shrink fun _ =>
    uses_plain (plain_instr hop) fun i hi => uses_pure (by simp_all)

theorem uses_branch (hx : Uses T F [] id ux x) (hy : Uses T F [] id uy y) (hz : Uses T F [] id uz z) :
    Uses T F [] id (ux ++ uy ++ uz) (branch x y z) := by
  rw [List.append_assoc]
  exact uses_bind hx fun asked => uses_after retaining_reserve fun _ => uses_after retaining_shrink fun _ =>
    uses_after retaining_draft fun _ => uses_bind hy fun consequent => uses_after retaining_reserve fun _ =>
      uses_after retaining_address fun _ => uses_after retaining_keep fun _ =>
        uses_last hz fun alternate => uses_after retaining_address fun _ =>
          uses_pure (by simp [variablesOf_cons, Instr.ofVariable])

theorem uses_modify? (hx : Uses T F [] id ux x) : Uses T F [] id ux (modify? (some x)) :=
  uses_last hx fun code => uses_plain plain_discard fun pop hp => uses_pure (by simp_all)

theorem uses_loop {modifier : Option (Emit (List Instr))} (hx : Uses T F [] id ux x)
    (hy : Uses T F [] id uy y) (hm : Uses T F [] id uz (modify? modifier)) :
    Uses T F [] id (ux ++ uy ++ uz) (loop x y modifier) := by
  rw [List.append_assoc]
  exact uses_after retaining_draft fun _ => uses_bind hx fun asked => uses_after retaining_reserve fun _ =>
    uses_after retaining_shrink fun _ => uses_bind hy fun body => uses_plain plain_discard fun pop hp =>
      uses_last hm fun modified => uses_after (retaining_addressOf _) fun _ =>
        uses_plain (plain_instr rfl) fun back hb => uses_after retaining_address fun _ =>
          uses_plain (plain_constant _) fun result hr =>
            uses_pure (by simp_all [variablesOf_cons, Instr.ofVariable])

theorem uses_forLoop (hf : UsesForm T F us ws f) (hx : Uses T F [] id ux x) :
    Uses T F [] id (us ++ ux) (forLoop f x) := by
  refine uses_bind hf.code fun (effect, first) => ?_
  cases effect with
  | value => exact uses_plain plain_discard fun pop hp => uses_last hx fun code => uses_pure (by simp_all)
  | stored ix => exact uses_last hx fun code => uses_pure (by simp)
  | slot ix =>
    have dropped (d : Draft) : d.Retains (d.shrink 1).dropLatest :=
      Draft.retains_of_subset rfl rfl rfl (List.tail_sublist _).subset (List.Subset.refl _)
    exact uses_last hx fun code => uses_plain (plain_instr rfl) fun exit he =>
      uses_after (retaining_update dropped) fun _ => uses_pure (by simp_all)

theorem uses_separate (hf : UsesForm T F us ws f) : Uses T F [] id us (separate f) := by
  refine uses_last hf.code fun (effect, code) => ?_
  cases effect with
  | value => exact uses_plain plain_discard fun pop hp => uses_pure (by simp_all)
  | stored ix | slot ix => exact uses_pure (by simp)

/-- The value of the last form of a block is read again if it has become a variable. -/
theorem uses_conclude (hf : UsesForm T F us ws f) : Uses T F [] id (us ++ ws) (conclude f) := by
  refine uses_last hf.left fun (effect, code) => ?_
  cases effect with
  | value => exact uses_pure (by simp [Effect.leave])
  | stored ix | slot ix =>
    exact uses_after retaining_grow fun _ =>
      uses_knowing (retaining_instr _) (fun h => (instr_ok.1 h).1) fun get hget =>
        uses_pure (by simp [hget, Effect.leave])

theorem uses_block (whole : Form) (b : ScopeId) (extra : Nat) (hx : Uses T F [] id ux x) :
    Uses T F [] id ux (block T whole b extra x) := by
  have rest : Uses T F [] id ux (blockEnd whole extra x) :=
    uses_last hx fun code => uses_after retaining_draft fun _ => uses_after retaining_exitBlock fun _ =>
      uses_plain (plain_exit _ _) fun exit he => uses_pure (by simp_all)
  refine uses_after retaining_enterBlock fun _ => ?_
  dsimp only
  split
  · exact uses_after (retaining_update fun d => Draft.retains_addBlockCells d _) fun _ => rest
  · exact rest

theorem uses_functionBody (whole : Form) (params : List String) (body : Form)
    (hx : ∀ b forms, body = .block b forms → Uses T F [] id ux x) (hy : Uses T F [] id ux y) :
    Uses T F [] id ux (functionBody T whole params body x y) := by
  unfold functionBody
  split
  · exact uses_block _ _ _ (hx _ _ rfl)
  · exact uses_last hy fun code => uses_after (retaining_countOperand _ _ _) fun _ =>
      uses_plain (plain_instr rfl) fun exit he => uses_pure (by simp_all)

theorem uses_call (whole : Form) (argc : Nat) (hx : Uses T F [] id ux x) (hy : Uses T F [] id uy y) :
    Uses T F [] id (ux ++ uy) (call whole argc x y) :=
  uses_bind hx fun function => uses_last hy fun arguments =>
    uses_after (retaining_countOperand _ _ _) fun _ => uses_after retaining_shrink fun _ =>
      uses_plain (plain_instr rfl) fun call hc => uses_pure (by simp_all)

/-- The code object of a function fits its uses, and its captured names are those of its scope. -/
theorem functionCode_uses {g : Form.Function} {e e' : Emission} {h : Handle} {c : Code} (hg : g ∈ F)
    (hx : Uses T F [] id (g.body.uses T g.scope false) x)
    (hc : functionCode T g.label g.scope g.params x e = .ok (h, c) e') :
    e.Retains T F e' ∧ c.free = (T.scope g.scope).free.toArray := by
  obtain ⟨moved, e₁, code, e₂, hm, hbody, rfl, rfl, hheap, hglobals, hdraft⟩ := functionCode_ok hc
  obtain ⟨hrecorded, hslots⟩ := recorded_draftOf g.label g.params (T.scope g.scope)
  obtain ⟨hr₁, hs₁⟩ := uses_moveCaptured hm hrecorded fun i n hi => by simpa using hslots i n hi
  obtain ⟨hr₂, is, his, hs₂⟩ := hx.ok hbody (hr₁.draft.recorded hrecorded)
  have hr : Emission.Retains T F { e with draft := draftOf g.label g.params (T.scope g.scope) } e₂ :=
    hr₁.trans hr₂
  have hfits : ((e₂.draft.advance 1).finish (moved ++ code ++ [.ret])).Fits e'.globals (g.uses T) := by
    refine ⟨_, rfl, ?_⟩
    rw [variablesOf_append, variablesOf_append, show variablesOf code = is from his, hglobals,
      ← List.append_nil (g.uses T)]
    exact (((hr₂.shows hs₁).append hs₂).append .nil).mono (fun _ _ hn => hn) (fun _ hx => hx) fun _ _ hn => hn
  refine ⟨⟨fun ix n hn => hglobals ▸ hr.globals ix n hn, hdraft ▸ .refl _, fun i c hi => ?_⟩, ?_⟩
  · rw [hheap, Heap.code?_eq_some] at hi
    rcases Heap.get?_alloc_cases hi with hi | ⟨-, hi⟩
    · rcases hr.functions i c (Heap.code?_eq_some.2 hi) with hi | ⟨k, hk, hfits⟩
      · exact Or.inl hi
      · exact Or.inr ⟨k, hk, hglobals ▸ hfits⟩
    · cases hi
      exact Or.inr ⟨g, hg, hfits⟩
  · refine hr.draft.free.trans ?_
    simp [draftOf, Draft.addLocals_eq, Draft.start]

theorem uses_function (whole : Form) {g : Form.Function} (hg : g ∈ F)
    (hx : Uses T F [] id (g.body.uses T g.scope false) x) :
    Uses T F [] id (Form.captured T g.scope) (function T whole g.label g.scope g.params x) := by
  refine uses_knowing (P := fun r => r.2.free = (T.scope g.scope).free.toArray)
    ⟨fun h => (functionCode_uses hg hx h).1⟩
    (fun h => (functionCode_uses hg hx h).2) fun (handle, c) hfree => ?_
  dsimp only at hfree ⊢
  split
  · next hempty =>
    have hnone : Form.captured T g.scope = [] := by
      have : (T.scope g.scope).free = [] := by simpa [hfree] using hempty
      rw [Form.captured, this]
      rfl
    rw [hnone]
    exact uses_after (retaining_alloc (by simp)) fun _ => (plain_constant _).uses
  · have hnames : c.free.toList = (T.scope g.scope).free := congrArg Array.toList hfree
    rw [Form.captured, ← hnames]
    exact uses_last (uses_loadCells _) fun cells => uses_plain (plain_constant _) fun code hc =>
      uses_after (retaining_countOperand _ _ _) fun _ => uses_after retaining_shrink fun _ =>
        uses_plain (plain_instr rfl) fun made hm => uses_pure (by simp_all)

theorem uses_declared (s : ScopeId) (whole : Form) (name : String) (direct : Bool)
    (hx : Uses T F [] id ux x) :
    UsesForm T F (ux ++ Form.declared T s direct name) (Form.kept T s direct name) (do
      let code ← x
      let (effect, store) ← declare T s whole name direct
      return (effect, code ++ store) : Emit (Effect × List Instr)) where
  ok {e eff code e'} h hd := by
    obtain ⟨first, e₁, h₁, h₂⟩ := bind_ok.1 h
    obtain ⟨⟨effect, store⟩, e₂, hstore, h₃⟩ := bind_ok.1 h₂
    obtain ⟨hp, rfl⟩ := pure_ok.1 h₃
    cases hp
    obtain ⟨hr₁, is, his, hs₁⟩ := hx.ok h₁ hd
    obtain ⟨hr₂, hs₂, hl⟩ := (uses_declare (F := F) s whole name direct).ok hstore (hr₁.draft.recorded hd)
    refine ⟨hr₁.trans hr₂, ?_, hl⟩
    rw [variablesOf_append, show variablesOf first = is from his]
    exact (hr₂.shows hs₁).append hs₂

end Emit

/-! ## Forms -/

namespace Form

open Emit

/-- All functions in some forms, which stand in the scope `s`, are in `F`. -/
def MadeIn (F : List Function) (s : ScopeId) (fs : List Form) : Prop := ∀ g ∈ collectAll function? s fs, g ∈ F

theorem MadeIn.part {F : List Function} {s t : ScopeId} {fs gs : List Form} (h : MadeIn F s fs)
    (hsub : ∀ g ∈ collectAll function? t gs, g ∈ collectAll function? s fs := by
      simp +contextual [collect, collectAll]) : MadeIn F t gs := fun g hg => h g (hsub g hg)

mutual

theorem emit_uses {T : Scopes} {F : List Function} {s : ScopeId} {direct : Bool} {f : Form}
    (h : MadeIn F s [f]) :
    UsesForm T F (f.uses T s direct) (f.left T s direct) (f.emit T s direct) := by
  cases f with
  | number x => exact uses_valued (plain_constant _).uses
  | string text =>
    refine ⟨fun {e eff code e'} he hd => ?_⟩
    obtain ⟨i, e₁, h₁, h₂⟩ := bind_ok.1 he
    have halloc := (retaining_alloc (T := T) (F := F) (o := .string text) (by simp)).ok h₁
    obtain ⟨hr, hs⟩ := (uses_valued (plain_constant _).uses).ok h₂ (halloc.draft.recorded hd)
    exact ⟨halloc.trans hr, hs⟩
  | boolean b => exact uses_valued (plain_constant _).uses
  | reference name binding => exact uses_valued (uses_read s name binding)
  | block b body => exact uses_valued (uses_block _ b 0 (emitBody_uses h.part))
  | declare name init => exact uses_declared s _ name direct (uses_only (emit_uses h.part))
  | assign name binding value =>
    refine ⟨fun {e eff code e'} he hd => ?_⟩
    obtain ⟨first, e₁, h₁, h₂⟩ := bind_ok.1 he
    obtain ⟨store, e₂, hstore, h₃⟩ := bind_ok.1 h₂
    obtain ⟨hp, rfl⟩ := pure_ok.1 h₃
    cases hp
    have value : Uses T F [] id (value.uses T s false) (Emit.only (emit T s false value)) :=
      uses_only (emit_uses h.part)
    obtain ⟨hr₁, is, his, hs₁⟩ := value.ok h₁ hd
    obtain ⟨hr₂, js, hjs, hs₂⟩ := (uses_write (F := F) s name binding).ok hstore (hr₁.draft.recorded hd)
    refine ⟨hr₁.trans hr₂, ?_, .nil⟩
    rw [variablesOf_append, show variablesOf first = is from his, show variablesOf store = js from hjs]
    exact (hr₂.shows hs₁).append hs₂
  | ifThen test thn =>
    have h : Uses T F [] id (test.uses T s false ++ thn.uses T s false ++ []) (Emit.branch
        (Emit.only (emit T s false test)) (Emit.only (emit T s false thn))
        (Emit.constant (.boolean false))) :=
      uses_branch (uses_only (emit_uses h.part)) (uses_only (emit_uses h.part)) (plain_constant _).uses
    rw [List.append_nil] at h
    exact uses_valued h
  | ifElse test thn els =>
    exact uses_valued (uses_branch (uses_only (emit_uses h.part)) (uses_only (emit_uses h.part))
      (uses_only (emit_uses h.part)))
  | whileLoop test body =>
    have none : Uses T F [] id [] (modify? none) := uses_pure rfl
    have h : Uses T F [] id (test.uses T s false ++ body.uses T s false ++ [])
        (Emit.loop (Emit.only (emit T s false test)) (Emit.only (emit T s false body)) .none) :=
      uses_loop (uses_only (emit_uses h.part)) (uses_only (emit_uses h.part)) none
    rw [List.append_nil] at h
    exact uses_valued h
  | forLoop init test modifier body =>
    exact uses_valued (uses_forLoop (emit_uses h.part) (uses_loop (uses_only (emit_uses h.part))
      (uses_only (emit_uses h.part)) (uses_modify? (uses_only (emit_uses h.part)))))
  | define name f params body =>
    exact uses_declared s _ name direct (uses_function _ (g := ⟨name, f, params, body⟩)
      (h _ (by simp [collect, collectAll, function?]))
      (uses_functionBody _ params body (emitInside_uses h.part) (uses_only (emit_uses h.part))))
  | lambda label f params body =>
    exact uses_valued (uses_function _ (g := ⟨label, f, params, body⟩)
      (h _ (by simp [collect, collectAll, function?]))
      (uses_functionBody _ params body (emitInside_uses h.part) (uses_only (emit_uses h.part))))
  | operation op x y =>
    exact uses_valued (uses_operation op (uses_only (emit_uses h.part)) (uses_only (emit_uses h.part)))
  | call callee args =>
    exact uses_valued (uses_call _ _ (uses_only (emit_uses h.part)) (emitAll_uses h.part))
  | malformed e why => exact ⟨fun he => (throw_ok.1 he).elim⟩

theorem emitInside_uses {T : Scopes} {F : List Function} {s : ScopeId} {f : Form} (h : MadeIn F s [f])
    (b : ScopeId) (forms : List Form) (hf : f = .block b forms) :
    Uses T F [] id (f.uses T s false) (emitInside T f) := by
  cases f with
  | block b body => exact emitBody_uses h.part
  | _ => cases hf

theorem emitBody_uses {T : Scopes} {F : List Function} {s : ScopeId} {fs : List Form} (h : MadeIn F s fs) :
    Uses T F [] id (usesBody T s fs) (emitBody T s fs) := by
  match fs with
  | [] => exact (plain_constant _).uses
  | [f] => exact uses_conclude (emit_uses h)
  | f :: g :: fs =>
    exact uses_bind (uses_separate (emit_uses h.part)) fun _ =>
      uses_last (emitBody_uses h.part) fun _ => uses_pure (by simp)

theorem emitAll_uses {T : Scopes} {F : List Function} {s : ScopeId} {fs : List Form} (h : MadeIn F s fs) :
    Uses T F [] id (usesAll T s fs) (emitAll T s fs) := by
  cases fs with
  | nil => exact uses_pure rfl
  | cons f fs =>
    exact uses_bind (uses_only (emit_uses h.part)) fun _ =>
      uses_last (emitAll_uses h.part) fun _ => uses_pure (by simp)

end

end Form

/-! ## Programs -/

/-- A compilation that succeeds allocates the code object of the program, which fits its uses, and
    all others that it allocates fit those of a function of the program. -/
theorem Expr.compile_fits {e : Expr} {heap : Heap} {globals : Globals} {main : Handle}
    (h : (e.compile heap globals).result = .ok main) :
    let r := e.compile heap globals
    let T := e.resolveProgram.2
    let program := Form.ofResolved "lambda" e.resolveProgram.1
    (∃ c, r.heap.code? main = some c ∧ c.Fits r.globals (program.uses T Scopes.root false)) ∧
      ∀ i c, r.heap.code? i = some c → heap.code? i = some c ∨ i = main ∨
        ∃ f ∈ program.functions, c.Fits r.globals (f.uses T) := by
  obtain ⟨notes, hr⟩ := e.compile_cases heap globals
  split at hr
  · next h' e' hm =>
    rw [hr] at h
    cases h
    obtain ⟨code, e₁, c, h₁, rfl, rfl, hheap, hglobals⟩ := Emit.main_ok hm
    have hmade : Form.MadeIn (Form.ofResolved "lambda" e.resolveProgram.1).functions Scopes.root
        [Form.ofResolved "lambda" e.resolveProgram.1] := fun g hg => by
      simpa [Form.functions, Form.collectAll] using hg
    have hstart : (Emission.start heap globals notes).draft.Recorded := ⟨nofun, nofun⟩
    obtain ⟨hret, is, his, hs⟩ := (Emit.uses_only (Form.emit_uses hmade)).ok h₁ hstart
    have hmain : e'.heap.code? e₁.heap.size = some ((e₁.draft.advance 1).finish (code ++ [.halt])) := by
      rw [Heap.code?_eq_some, hheap]
      exact Heap.get?_alloc_size ..
    rw [hr]
    refine ⟨⟨_, hmain, code ++ [.halt], rfl, ?_⟩, fun i c hi => ?_⟩
    · rw [variablesOf_append, show variablesOf code = is from his, hglobals,
        ← List.append_nil (Form.uses _ _ _ _)]
      exact (hs.append .nil).mono (fun _ _ hn => hn) (fun _ hx => hx) fun _ _ hn => hn
    · dsimp only at hi
      rw [Heap.code?_eq_some, hheap] at hi
      rcases Heap.get?_alloc_cases hi with hi | ⟨rfl, -⟩
      · exact (hret.functions i c (Heap.code?_eq_some.2 hi)).imp_right fun hf => Or.inr (by rwa [hglobals])
      · exact Or.inr (Or.inl rfl)
  · rw [hr] at h
    cases h

end ByteLisp
