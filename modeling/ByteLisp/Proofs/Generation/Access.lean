/-
  ByteLisp: whether the code finds the variables that the walk has bound.

  The walk binds a name to the scope that declares it at that point; the code
  finds slots and cells by name among those in view.

  * `Access.Right`: an access is one of the variable of the scope that it is for
    (`Access.For`);
  * `Access.Clear`: the declaration is in view, or no cell of that name that
    belongs to a scope nearer than it;
  * `right_iff_clear`: this is exactly when an access is right;
  * `Expr.compile_accessed` is the result for programs, `Expr.shadowing` a program with
    an access that is not right.
-/
import ByteLisp.Proofs.Generation.Emitted
import ByteLisp.Proofs.Generation.Traced
import ByteLisp.Proofs.Scope.Capture

namespace ByteLisp

theorem Scopes.contains_of_storage {T : Scopes} {o : ScopeId} {name : String}
    (h : T.storage (some o) name = .cell) : (T.scope o).cells.contains name = true := by
  simp only [storage] at h
  split at h
  · cases h
  · split at h
    · assumption
    · cases h

theorem Scopes.storage_cell {T : Scopes} {o : ScopeId} {name : String}
    (hk : (T.scope o).kind ≠ .global) (hc : name ∈ (T.scope o).cells) :
    T.storage (some o) name = .cell := by
  rw [storage]
  cases hkind : (T.scope o).kind with
  | global => exact absurd hkind hk
  | _ => simp [hc]

namespace Access

/-! ## Right accesses -/

/-- What an access is for: a reference means the declaration to which the walk has bound it; a
    function captures what a reference within captures on its way through the function. -/
inductive For (T : Scopes) (as : List Access) (a : Access) : Option ScopeId → Prop
  | refer {write owner} : a.purpose = .refer write (.reference owner) → For T as a owner
  | capture {f r o} : a.purpose = .capture f → r ∈ as.filterMap Access.reference? →
      r.name = a.name → r.Passes T f o → For T as a (some o)

/-- A slot in view that the scope `o` has declared under the name of an access. The slot of a
    function itself is one only if the function has a name of its own, `N`. -/
structure Shows (T : Scopes) (N : List (ScopeId × String)) (a : Access) (o : ScopeId) (x : InView) :
    Prop where
  mem : x ∈ a.view.slots
  name : x.name = a.name
  holder : T.holder a.scope a.view.level x = some o
  own : x.place = 0 → (o, a.name) ∈ N

/-- An access is one of the global variable of its name, of a slot that the scope has declared, of
    a cell of the scope in the same function, or else of the captured cell. -/
inductive Right (T : Scopes) (W : World) (N : List (ScopeId × String)) (a : Access) :
    Option ScopeId → Prop
  | global {owner ix} : T.storage owner a.name = .global → a.place = .global ix →
      W.globals.name? ix.toNat = some a.name → Right T W N a owner
  | slot {o ix x} : T.storage (some o) a.name = .slot → a.place = .slot ix →
      a.Shows T N o x → x.place = ix.toNat → Right T W N a (some o)
  | own {o ix x} : T.storage (some o) a.name = .cell → a.place = .cell ix → o ∈ T.within a.scope →
      x ∈ a.view.cells → x.name = a.name → T.holder a.scope a.view.level x = some o →
      x.place = ix.toNat → a.code.free.size ≤ ix.toNat → Right T W N a (some o)
  | captured {o ix} : T.storage (some o) a.name = .cell → a.place = .cell ix →
      o ∉ T.within a.scope → a.code.free[ix.toNat]? = some a.name → Right T W N a (some o)

/-- Nothing hides a declaration from an access: a slot of it is in view, or no scope of the same
    function that is nearer than it has a cell of that name. -/
def Clear (T : Scopes) (N : List (ScopeId × String)) (a : Access) : Option ScopeId → Prop
  | none => True
  | some o =>
    match T.storage (some o) a.name with
    | .global => True
    | .slot => ∃ x, a.Shows T N o x
    | .cell => ∀ t ∈ T.passed a.scope o, a.name ∉ (T.scope t).cells

section

variable {P : Scopes → Prop} {N : List (ScopeId × String)} {T : Scopes} {W : World} {a : Access}
  {o : ScopeId} {ix : UInt8} {owner : Option ScopeId}

theorem cell_right_iff (ha : a.Traced P N T W) (hs : T.storage (some o) a.name = .cell)
    (hp : a.place = .cell ix) (hc : a.view.cell? a.name = some ix.toNat) :
    a.Right T W N (some o) ↔ a.Clear T N (some o) := by
  have hclear : a.Clear T N (some o) ↔
      ∀ t ∈ T.passed a.scope o, ((T.scope t).cells.contains a.name) = false := by
    simp [Clear, hs]
  obtain ⟨x, hx, hix⟩ := Option.map_eq_some_iff.1 hc
  have hmem := List.mem_of_find?_eq_some hx
  have hname : x.name = a.name := by simpa using List.find?_some hx
  have hown := Scopes.contains_of_storage hs
  rw [hclear]
  by_cases ho : o ∈ T.within a.scope
  · constructor
    · intro h
      cases h with
      | global hs' => rw [hs] at hs'; cases hs'
      | slot hs' => rw [hs] at hs'; cases hs'
      | captured _ _ ho' => exact absurd ho ho'
      | @own _ ix' y _ hp' _ hy _ hh hplace _ =>
        -- different cells have different places
        cases hp.symm.trans hp'
        cases ha.cells.eq_of_place y hy x hmem (hplace.trans hix.symm)
        rcases ha.cells.found hx with ⟨t, ht, hh', -⟩ | ⟨hnone, -⟩
        · cases hh.symm.trans hh'
          exact Scopes.passed_of_find? ht
        · exact absurd hown (List.find?_eq_none.1 hnone o ho)
    · intro h
      have hfind := Scopes.find?_within ho (p := fun t => (T.scope t).cells.contains a.name) hown h
      rcases ha.cells.found hx with ⟨t, ht, hh, hle⟩ | ⟨hnone, -⟩
      · cases hfind.symm.trans ht
        exact .own hs hp ho hmem hname hh hix (hix ▸ hle)
      · cases hfind.symm.trans hnone
  · rw [Scopes.passed_of_not_mem ho]
    constructor
    · intro h
      cases h with
      | global hs' => rw [hs] at hs'; cases hs'
      | slot hs' => rw [hs] at hs'; cases hs'
      | own _ _ ho' => exact absurd ho' ho
      | @captured _ ix' _ hp' _ hf =>
        cases hp.symm.trans hp'
        rcases ha.cells.found hx with ⟨t, -, -, hle⟩ | ⟨hnone, -⟩
        · have := (Array.getElem?_eq_some_iff.1 hf).1
          omega
        · simpa using List.find?_eq_none.1 hnone
    · intro h
      rcases ha.cells.found hx with ⟨t, ht, -, -⟩ | ⟨-, hf⟩
      · have := h t (List.mem_of_find?_eq_some ht)
        have := List.find?_some ht
        simp_all
      · exact .captured hs hp ho (hix ▸ hf)

theorem slot_right_iff {T₀ : Scopes} (hn : T₀.Nested)
    (hi : a.scope < T₀.size) (hl : T₀.Later T) (ho : T₀.lookup a.scope a.name = some o)
    (hslots : a.view.Slots P N T₀ a.scope) (hs : T.storage (some o) a.name = .slot)
    (hp : a.place = .slot ix) (hc : a.view.slot? a.name = some ix.toNat) :
    a.Right T W N (some o) ↔ a.Clear T N (some o) := by
  have hclear : a.Clear T N (some o) ↔ ∃ x, a.Shows T N o x := by simp [Clear, hs]
  have hholder : ∀ x, T.holder a.scope a.view.level x = T₀.holder a.scope a.view.level x :=
    fun x => by rw [Scopes.holder, Scopes.holder, hl.chain hi]
  obtain ⟨x, hx, hix⟩ := Option.map_eq_some_iff.1 hc
  have hname : x.name = a.name := by simpa using List.find?_some hx
  rw [hclear]
  constructor
  · intro h
    cases h with
    | global hs' => rw [hs] at hs'; cases hs'
    | own hs' => rw [hs] at hs'; cases hs'
    | captured hs' => rw [hs] at hs'; cases hs'
    | slot _ _ hy => exact ⟨_, hy⟩
  · rintro ⟨y, hy⟩
    obtain ⟨hh, h0⟩ := hslots.found hn hi ho hx hy.mem hy.name (hholder y ▸ hy.holder) hy.own
    exact .slot hs hp ⟨List.mem_of_find?_eq_some hx, hname, (hholder x).trans hh, h0⟩ hix

/-- A reference or an assignment is right exactly when its declaration is clear. -/
theorem refer_right_iff (ha : a.Traced P N T W) {write : Bool}
    (hr : a.purpose = .refer write (.reference owner)) :
    a.Right T W N owner ↔ a.Clear T N owner := by
  obtain ⟨hloc, T₀, T₁, -, hn, hi, ht, hl, hslots⟩ := ha.bound write _ hr
  obtain ⟨-, ho, hT⟩ := Walk.target_reference ht
  have later : T₀.Later T := by
    refine Scopes.Later.trans ?_ hl
    rw [hT]
    cases owner with
    | none => exact .refl _
    | some o => exact Scopes.later_capture
  have hstorage : T.storageOf a.scope a.name (.reference owner) = T.storage owner a.name := rfl
  cases hplace : a.place with
  | global ix =>
    rw [hplace] at hloc
    cases hloc with
    | global hs hname =>
      have hright : a.Right T W N owner := .global hs hplace hname
      refine ⟨fun _ => ?_, fun _ => hright⟩
      rw [hstorage] at hs
      cases owner with
      | none => trivial
      | some o => simp [Clear, hs]
  | slot ix =>
    rw [hplace] at hloc
    cases hloc with
    | slot hs hc =>
      cases owner with
      | none => cases hs
      | some o => exact slot_right_iff hn hi later ho hslots hs hplace hc
  | cell ix =>
    rw [hplace] at hloc
    cases hloc with
    | cell hs hc =>
      cases owner with
      | none => cases hs
      | some o => exact cell_right_iff ha hs hplace hc

theorem refer_of_reference? {b : Access} {r : Form.Reference} (h : b.reference? = some r) :
    b.purpose = .refer r.write r.binding ∧ b.scope = r.scope ∧ b.name = r.name := by
  unfold reference? at h
  split at h
  · next hp =>
    cases h
    exact ⟨hp, rfl, rfl⟩
  · cases h

/-- What a reference captures is in a cell. -/
theorem storage_of_passes {b : Access} {r : Form.Reference} {f : ScopeId} (hb : b.Traced P N T W)
    (hr : b.reference? = some r) (hp : r.Passes T f o) : T.storage (some o) r.name = .cell := by
  obtain ⟨hpurpose, hscope, hname⟩ := refer_of_reference? hr
  obtain ⟨hbinding, hcaptures, -⟩ := hp
  rw [hbinding] at hpurpose
  obtain ⟨-, T₀, T₁, -, hn, hi, ht, hl, -⟩ := hb.bound _ _ hpurpose
  obtain ⟨-, ho, hT⟩ := Walk.target_reference ht
  rw [hscope, hname] at ho hT
  rw [hscope] at hi
  have later : T₀.Later T := Scopes.Later.trans (hT ▸ Scopes.later_capture) hl
  have hsize := hn.lt_of_mem hi (Scopes.lookup_mem ho)
  have hglobal : (T.scope o).kind ≠ .global := by
    simp only [Scopes.captures, Bool.and_eq_true, decide_eq_true_eq] at hcaptures
    exact hcaptures.1
  rw [later.captures hn hi hsize] at hcaptures
  refine Scopes.storage_cell hglobal (hl.cells o r.name ?_ ?_)
  · rw [hT]
    exact Nat.lt_of_lt_of_le hsize Scopes.later_capture.size
  · rw [hT]
    exact Scopes.cells_capture hcaptures hsize

/-- The code finds the declaration that an access is for exactly when nothing hides it. -/
theorem right_iff_clear {as : List Access} (has : ∀ b ∈ as, b.Traced P N T W) (ha : a ∈ as)
    (hfor : a.For T as owner) : a.Right T W N owner ↔ a.Clear T N owner := by
  cases hfor with
  | refer hr => exact refer_right_iff (has a ha) hr
  | capture hc hr hname hp =>
    obtain ⟨-, -, -, ix, hplace, hcell⟩ := (has a ha).captured _ hc
    obtain ⟨b, hb, hr⟩ := List.mem_filterMap.1 hr
    exact cell_right_iff (has a ha) (hname ▸ storage_of_passes (has b hb) hr hp) hplace hcell

end

end Access

/-! ## Programs -/

/-- The accesses of the code of a program: there is one for each reference, a captured variable is
    captured for a reference, and an access is right exactly when nothing hides its declaration. -/
structure Accessed (T : Scopes) (W : World) (program : Form) (c : Code) (as : List Access) :
    Prop where
  coded : ∃ code, Coded T W c Scopes.root (.form false program .value) .start 0 code as ∧
    c.bytes = Instr.bytes (code ++ [.halt])
  references : as.filterMap Access.reference? = program.references
  placed : ∀ a ∈ as, a.Placed W
  captures : ∀ a ∈ as, ∀ f, a.purpose = .capture f → ∃ o, a.For T as (some o)
  right_iff : ∀ a ∈ as, ∀ owner, a.For T as owner →
    (a.Right T W program.named owner ↔ a.Clear T program.named owner)

section

variable {P : Scopes → Prop} {T : Scopes} {W : World} {program : Form} {c : Code}

/-- Going through the forms at the top is going through the program. -/
theorem Form.collectAll_top {α : Type} {find : ScopeId → Form → List α}
    (hf : ∀ fs, find Scopes.root (.block Scopes.root fs) = []) (f : Form) :
    Form.collectAll find Scopes.root f.top = f.collect find Scopes.root := by
  rcases f.top_cases with ⟨fs, rfl, htop⟩ | htop
  · rw [htop, Form.collect, hf, List.append_nil]
  · rw [htop, Form.collectAll, Form.collectAll, List.append_nil]

theorem Coded.traced_main {code : List Instr} {as : List Access}
    (h : Coded T W c Scopes.root (.form false program .value) .start 0 code as)
    (hw : Walks P .initial Scopes.root program.top T) :
    ∀ a ∈ as, a.Traced P program.named T W := by
  have inside : Scopes.root < Scopes.initial.size := Nat.zero_lt_one
  have later := (hw.extends inside).later
  have hk : (T.scope Scopes.root).kind = .global := later.kind _ inside
  rcases program.top_cases with ⟨fs, rfl, htop⟩ | htop
  · rw [htop] at hw
    have named : ∀ p ∈ Form.collectAll Form.named? Scopes.root fs,
        p ∈ (Form.block Scopes.root fs).named := fun p hp => List.mem_append_left _ hp
    cases h with
    | block hu hb _ =>
      have hcells : T.blockCells Scopes.root = [] := by simp [Scopes.blockCells, hk]
      cases hu with
      | mk _ _ =>
        rw [hcells] at hb
        exact hb.traced _ _ hw named ⟨Scopes.nested_initial, inside, .refl T, .main hk,
          Nat.zero_lt_one, List.Pairwise.nil, by simp [View.start], by simp [View.start]⟩
  · rw [htop] at hw
    exact h.traced _ _ hw (fun p hp => hp) ⟨Scopes.nested_initial, inside, .refl T, .main hk, .start⟩

theorem Coded.no_malformed {s : ScopeId} {task : Task} {v : View} {pos : Nat} {code : List Instr}
    {as : List Access} (h : Coded T W c s task v pos code as) :
    task.collect Form.malformed? s = [] := by
  induction h with
  | _ => simp_all [Task.collect, Form.collect, Form.collectAll, Form.malformed?]

/-- The code of a program that compiles has the accesses of the program. -/
theorem Expr.compile_accessed {e : Expr} {heap : Heap} {globals : Globals} {main : Handle}
    (h : (e.compile heap globals).result = .ok main) :
    let r := e.compile heap globals
    ∃ c as, r.heap.code? main = some c ∧
      Accessed e.resolveProgram.2 r.world (Form.ofResolved "lambda" e.resolveProgram.1) c as := by
  obtain ⟨⟨c, hc, -, -, -, code, as, hcoded, hbytes⟩, -⟩ := Expr.compile_ok h
  have walked := e.resolveProgram_walks
  have inside : Scopes.root < Scopes.initial.size := Nat.zero_lt_one
  have traced := hcoded.traced_main walked
  refine ⟨c, as, hc, ⟨code, hcoded, hbytes⟩, hcoded.references, ?_, fun a ha f hf => ?_,
    fun a ha owner hfor => Access.right_iff_clear traced ha hfor⟩
  · exact hcoded.fetched ⟨main, hc⟩ (Code.lies_of_bytes hbytes).left
  · obtain ⟨hfree, -⟩ := (traced a ha).captured f hf
    have malformed := (Form.collectAll_top (fun _ => rfl) _).trans hcoded.no_malformed
    rcases walked.free inside Scopes.nested_initial malformed (.refl _) hfree with hfree | hr
    · cases f <;> cases hfree
    · obtain ⟨r, hr, o, hname, hp⟩ := hr
      rw [Form.collectAll_top fun _ => rfl] at hr
      exact ⟨o, .capture hf (hcoded.references ▸ hr) hname hp⟩

end

/-- A program with an inner block that declares a captured variable of the name of a captured
    parameter only after it has referred to the parameter: `(begin (def f (x) (begin
    (var g (lambda () x)) (begin (var y x) (var x "b") (var h (lambda () x)) y))) (f "a"))`. -/
def Expr.shadowing : Expr :=
  .list [.symbol "begin",
    .list [.symbol "def", .symbol "f", .list [.symbol "x"],
      .list [.symbol "begin",
        .list [.symbol "var", .symbol "g", .list [.symbol "lambda", .list [], .symbol "x"]],
        .list [.symbol "begin",
          .list [.symbol "var", .symbol "y", .symbol "x"],
          .list [.symbol "var", .symbol "x", .string "b"],
          .list [.symbol "var", .symbol "h", .list [.symbol "lambda", .list [], .symbol "x"]],
          .symbol "y"]]],
    .list [.symbol "f", .string "a"]]

set_option maxRecDepth 4000 in
/-- There the access for the reference to the parameter is not right. -/
theorem Expr.compile_accessed_shadowing :
    let r := Expr.shadowing.compile .empty .empty
    let T := Expr.shadowing.resolveProgram.2
    let program := Form.ofResolved "lambda" Expr.shadowing.resolveProgram.1
    r.result = .ok 6 ∧ ∃ c as, r.heap.code? 6 = some c ∧ Accessed T r.world program c as ∧
      ∃ a ∈ as, a.reference? = some ⟨4, "x", false, .reference (some 1)⟩ ∧
        ¬a.Right T r.world program.named (some 1) := by
  have h : (Expr.shadowing.compile .empty .empty).result = .ok 6 :=
    Compilation.result_eq_ok (by decide +kernel)
  obtain ⟨c, as, hc, ha⟩ := Expr.compile_accessed h
  refine ⟨h, c, as, hc, ha, ?_⟩
  have hr : ⟨4, "x", false, .reference (some 1)⟩ ∈
      (Form.ofResolved "lambda" Expr.shadowing.resolveProgram.1).references := by
    have : (Form.ofResolved "lambda" Expr.shadowing.resolveProgram.1).references[1]? =
        some ⟨4, "x", false, .reference (some 1)⟩ := rfl
    exact List.mem_of_getElem? this
  rw [← ha.references] at hr
  obtain ⟨a, hmem, hr⟩ := List.mem_filterMap.1 hr
  obtain ⟨hp, hs, hn⟩ := Access.refer_of_reference? hr
  refine ⟨a, hmem, hr, ?_⟩
  rw [ha.right_iff a hmem _ (.refer hp)]
  intro hclear
  have storage : Expr.shadowing.resolveProgram.2.storage (some 1) "x" = .cell := rfl
  rw [Access.Clear, hn, hs, storage] at hclear
  have passed : Expr.shadowing.resolveProgram.2.passed 4 1 = [4, 2] := rfl
  have cells : (Expr.shadowing.resolveProgram.2.scope 4).cells = ["x"] := rfl
  exact hclear 4 (passed ▸ List.mem_cons_self) (cells ▸ List.mem_cons_self)

end ByteLisp
