/-
  ByteLisp: captured variables have cells.

  Code generation looks up the cell of a captured variable by its name among the
  cells of the current function and of the blocks around.

  * `Scopes.Supplies`: the function at a place has a cell of a name;
  * `Form.Supplied`: it has one wherever the form needs it, and the walk is not to
    blame for lists that are no forms;
  * `Expr.resolveProgram_supplied`: so it is in every program.
-/
import ByteLisp.Proofs.Scope.Exact
import ByteLisp.Proofs.Scope.Within

namespace ByteLisp

/-- A scope of the function at the place `s` has a cell of the name, or the function captures
    the name. -/
def Scopes.Supplies (T : Scopes) (s : ScopeId) (name : String) : Prop :=
  ∃ t ∈ T.within s, name ∈ (T.scope t).cells ∨
    (T.scope t).kind = .function ∧ name ∈ (T.scope t).free

/-- If a variable is stored in a cell, there is one in the scope `s`. -/
def Scopes.Reaches (T : Scopes) (s : ScopeId) (name : String) (binding : Binding) : Prop :=
  T.storageOf s name binding = .cell → T.Supplies s name

/-- The scope `s` supplies what a function in it captures. -/
structure Scopes.SuppliesFunction (T : Scopes) (s f : ScopeId) : Prop where
  kind : (T.scope f).kind = .function
  free : ∀ n ∈ (T.scope f).free, T.Supplies s n

namespace Form

mutual

/-- The cells that a form needs are supplied. -/
def Supplied (T : Scopes) (s : ScopeId) : Form → Prop
  | .number _ | .string _ | .boolean _ => True
  | .reference name binding => T.Reaches s name binding
  | .block b fs => (T.Opens .block b s ∨ (T.scope b).kind = .global) ∧ AllSupplied T b fs
  | .declare name init => T.Reaches s name .unbound ∧ Supplied T s init
  | .assign name binding value => T.Reaches s name binding ∧ Supplied T s value
  | .ifThen test thn => Supplied T s test ∧ Supplied T s thn
  | .ifElse test thn els => Supplied T s test ∧ Supplied T s thn ∧ Supplied T s els
  | .whileLoop test body => Supplied T s test ∧ Supplied T s body
  | .forLoop init test modifier body =>
    Supplied T s init ∧ Supplied T s test ∧ Supplied T s modifier ∧ Supplied T s body
  | .define name f _ body =>
    T.Reaches s name .unbound ∧ T.SuppliesFunction s f ∧ Supplied T f body
  | .lambda _ f _ body => T.SuppliesFunction s f ∧ Supplied T f body
  | .operation _ x y => Supplied T s x ∧ Supplied T s y
  | .call callee args => Supplied T s callee ∧ AllSupplied T s args
  | .malformed _ why => why.isFault = false

/-- The cells that some forms need are supplied. -/
def AllSupplied (T : Scopes) (s : ScopeId) : List Form → Prop
  | [] => True
  | f :: fs => Supplied T s f ∧ AllSupplied T s fs

end

end Form

namespace Scopes

variable {T T₀ : Scopes} {s o f first : ScopeId} {name : String} {es : List Event}

theorem Tree.outer_of_global {t : ScopeId} (h : T.Tree first es) (hk : (T.scope t).kind = .global) :
    (T.scope t).outer = [] := by
  by_cases ht : t < T.size
  · rcases Nat.eq_zero_or_pos t with rfl | hpos
    · exact h.outermost
    · exact absurd hk (h.inside t hpos ht).1
  · rw [scope_of_le (Nat.le_of_not_lt ht)]
    rfl

/-- A cell of a scope around is supplied if all functions on the way capture its name. -/
theorem Records.supplies (h : T.Records first es) (hs : s < T.size) (ho : o ∈ T.chain s)
    (hk : (T.scope o).kind ≠ .global) (hc : name ∈ (T.scope o).cells)
    (hf : ∀ g ∈ T.chain s, o ∈ (T.scope g).outer → (T.scope g).kind = .function →
      name ∈ (T.scope g).free) : T.Supplies s name := by
  rcases h.nested.within_or_function (fun _ => h.tree.outer_of_global) hs ho hk with ho | ⟨g, hg, hkg, hin⟩
  · exact ⟨o, ho, Or.inl hc⟩
  · exact ⟨g, hg, Or.inr ⟨hkg, hf g (mem_chain_of_within hg) hin hkg⟩⟩

/-- A function captures what the function around it supplies. -/
theorem Records.suppliesFunction (h : T.Records first es) (hs : s < T.size)
    (hf : T.Opens .function f s) : T.SuppliesFunction s f := by
  refine ⟨hf.kind, fun n hn => ?_⟩
  obtain ⟨m, o, hm, rfl, hcaptures, hmem, ho⟩ := (h.taken.free f n).1 hn
  have houter : (T.scope f).outer = T.chain s := (List.cons_inj_right f).1 hf.chain
  rw [houter] at ho
  refine h.supplies hs ho hcaptures.2.1 ((h.taken.cells o m.name).2 ⟨m, hm, rfl, hcaptures⟩) ?_
  intro g hg hin _
  refine (h.taken.free g m.name).2 ⟨m, o, hm, rfl, hcaptures, ?_, hin⟩
  obtain ⟨near, hnear⟩ := h.nested.chain_of_mem (h.nearest.scope m hm) hmem
  rw [hnear, hf.chain]
  exact List.mem_append_right near (List.mem_cons_of_mem f hg)

theorem mem_within_self (hk : (T.scope s).kind ≠ .global) : s ∈ T.within s := by
  rw [within, chain, inner]
  cases hks : (T.scope s).kind with
  | global => exact absurd hks hk
  | function => exact List.mem_cons_self
  | block => exact List.mem_cons_self

theorem storage_eq_cell {owner : Option ScopeId} (h : T.storage owner name = .cell) :
    ∃ o, owner = some o ∧ (T.scope o).kind ≠ .global ∧ name ∈ (T.scope o).cells := by
  unfold storage at h
  cases owner with
  | none => cases h
  | some o =>
    refine ⟨o, rfl, ?_⟩
    cases hk : (T.scope o).kind with
    | global => simp [hk] at h
    | _ => simpa [hk] using h

/-- A scope supplies the variables that it declares. -/
theorem reaches_declared (hd : name ∈ (T.scope s).declared) : T.Reaches s name .unbound := by
  intro hcell
  have hlookup : T.lookup s name = some s := by
    rw [lookup, chain, List.find?_cons_of_pos]
    simpa [Scope.declares] using hd
  obtain ⟨o, ho, hk, hc⟩ := storage_eq_cell hcell
  rw [hlookup] at ho
  cases ho
  exact ⟨s, mem_within_self hk, Or.inl hc⟩

/-- The target of a walk is supplied afterwards. -/
theorem Records.reaches_target {T₁ : Scopes} {binding : Binding} (h : T.Records first es)
    (ht : Walk.target s name T₀ = (binding, T₁)) (hs : s < T₀.size) (hn : T₀.Nested)
    (hl : T₁.Later T) : T.Reaches s name binding := by
  intro hcell
  cases binding with
  | unbound =>
    -- a truth value is never referred to, so it is no cell
    unfold Walk.target at ht
    split at ht
    · next htruth =>
      obtain ⟨o, -, -, hc⟩ := storage_eq_cell hcell
      obtain ⟨m, hm, rfl, -⟩ := (h.taken.cells o name).1 hc
      rw [h.nearest.name m hm] at htruth
      cases htruth
    · unfold Walk.refer at ht
      split at ht <;> cases ht
  | reference owner =>
    obtain ⟨-, hlookup, hT⟩ := Walk.target_reference ht
    obtain ⟨o, rfl, hk, hc⟩ := storage_eq_cell hcell
    have captured : T₀.Later (T₀.capture s o name) := later_capture
    have later : T₀.Later T := (hT ▸ captured : T₀.Later T₁).trans hl
    have ho := lookup_mem hlookup
    have hin : s < T.size := Nat.lt_of_lt_of_le hs later.size
    refine h.supplies hin (later.chain hs ▸ ho) hk hc fun g hg hog hkg => ?_
    have hcaptures : T₀.captures s o = true := by
      rw [← later.captures hn hs (hn.lt_of_mem hs ho), captures_iff h.nested hin (later.chain hs ▸ ho)]
      exact ⟨hk, g, hg, hog, hkg⟩
    have hg₀ : g ∈ T₀.chain s := later.chain hs ▸ hg
    have hlt := hn.lt_of_mem hs hg₀
    have hpath : g ∈ T₀.pathTo s o := (mem_pathTo hn hs ho).2 ⟨hg₀, later.outer g hlt ▸ hog⟩
    have hfree := free_capture (n := name) hcaptures (fun t ht => hn.lt_of_mem hs ht) hpath
    subst hT
    exact hl.free g name (Nat.lt_of_lt_of_le hlt captured.size) hfree

end Scopes

/-! ## The walk supplies cells -/

theorem Scopes.Opens.openFunction {T : Scopes} {s : ScopeId} {names : List String} (hs : s < T.size) :
    (T.openFunction s names).Opens .function T.size s :=
  let h := Scopes.openFunction_scope hs
  ⟨h.1, h.2⟩

section

variable {P : Scopes → Prop} {T T₀ T₁ : Scopes} {s first : ScopeId} {fs : List Form} {es : List Event}

/-- The cells that forms need are supplied by the table at the end of the walk. -/
theorem Walks.supplied (h : Walks P T₀ s fs T₁) (hs : s < T₀.size) (hn : T₀.Nested)
    (hl : T₁.Later T) (hT : T.Records first es) : Form.AllSupplied T s fs := by
  induction h with
  | nil => trivial
  | number | string | boolean => exact ⟨trivial, trivial⟩
  | malformed hwhy _ => exact ⟨hwhy, trivial⟩
  | cons h₁ h₂ ih₁ ih₂ =>
    have hx := h₁.extends hs
    have first := ih₁ hs hn ((h₂.extends (hx.lt hs)).later.trans hl)
    exact ⟨first.1, ih₂ (hx.lt hs) (hx.nested hn) hl⟩
  | reference _ _ ht => exact ⟨hT.reaches_target ht hs hn hl, trivial⟩
  | @block T₀ s fs T₁ hw ih =>
    have inside := ih Scopes.lt_size_push (hn.push hs _) hl
    have pushed : T₀.Later (T₀.push .block s) := Scopes.later_push T₀ _ s
    have later := (hw.extends Scopes.lt_size_push).later.trans hl
    refine ⟨⟨Or.inl (Scopes.Opens.later ⟨?_, ?_⟩ later Scopes.lt_size_push
      (Nat.lt_of_lt_of_le hs pushed.size)), inside⟩, trivial⟩
    · rw [Scopes.scope_push_size]
      rfl
    · rw [pushed.chain hs, Scopes.chain, Scopes.scope_push_size]
      rfl
  | @declare T₀ s name init T₁ hw ih =>
    have hs' : s < (T₀.modify s (·.declare name)).size := by rwa [Scopes.size_modify]
    have inside := ih hs' (hn.modify (Scopes.adds_declare name)) hl
    have later := (hw.extends hs').later.trans hl
    exact ⟨⟨Scopes.reaches_declared (later.declared s name hs'
      ((Scopes.mem_declared_declare hs).2 (Or.inr ⟨rfl, rfl⟩))), inside.1⟩, trivial⟩
  | @assign T₀ s name binding value T₂ T₁ _ ht hw ih =>
    have hx : T₀.Extends (Walk.target s name T₀).2 := extends_target
    rw [ht] at hx
    have inside := ih (hx.lt hs) (hx.nested hn) hl
    have later := (hw.extends (hx.lt hs)).later.trans hl
    exact ⟨⟨hT.reaches_target ht hs hn later, inside.1⟩, trivial⟩
  | @define T₀ s name params body U T₁ hU hw ih =>
    have hx : T₀.Extends U := hU ▸ Scopes.extends_declare
    have opened : U.Extends (U.openFunction s (name :: params)) :=
      Scopes.extends_openFunction (hx.lt hs)
    have inside := ih Scopes.lt_size_openFunction (opened.nested (hx.nested hn)) hl
    have later := (hw.extends Scopes.lt_size_openFunction).later.trans hl
    have hlt := Nat.lt_of_lt_of_le (opened.lt (hx.lt hs)) later.size
    refine ⟨⟨Scopes.reaches_declared ?_, hT.suppliesFunction hlt ?_, inside.1⟩, trivial⟩
    · refine (opened.later.trans later).declared s name (hx.lt hs) ?_
      rw [hU, Scopes.mem_declared_declare hs]
      exact Or.inr ⟨rfl, rfl⟩
    · exact Scopes.Opens.later (.openFunction (hx.lt hs)) later Scopes.lt_size_openFunction
        (opened.lt (hx.lt hs))
  | @lambda T₀ s label params body T₁ _ _ hw ih =>
    have opened : T₀.Extends (T₀.openFunction s params) := Scopes.extends_openFunction hs
    have inside := ih Scopes.lt_size_openFunction (opened.nested hn) hl
    have later := (hw.extends Scopes.lt_size_openFunction).later.trans hl
    exact ⟨⟨hT.suppliesFunction (Nat.lt_of_lt_of_le (opened.lt hs) later.size)
      (Scopes.Opens.later (.openFunction hs) later Scopes.lt_size_openFunction (opened.lt hs)),
      inside.1⟩, trivial⟩
  | ifThen _ ih | whileLoop _ ih | operation _ ih =>
    obtain ⟨first, second, -⟩ := ih hs hn hl
    exact ⟨⟨first, second⟩, trivial⟩
  | ifElse _ ih =>
    obtain ⟨test, thn, els, -⟩ := ih hs hn hl
    exact ⟨⟨test, thn, els⟩, trivial⟩
  | forLoop _ ih =>
    obtain ⟨init, test, modifier, body, -⟩ := ih hs hn hl
    exact ⟨⟨init, test, modifier, body⟩, trivial⟩
  | call _ ih =>
    have all := ih hs hn hl
    exact ⟨⟨all.1, all.2⟩, trivial⟩

end

/-! ## Programs -/

/-- The cells that a program needs are supplied, and the walk gives a scope to each block and
    function. -/
theorem Expr.resolveProgram_supplied (e : Expr) :
    (Form.ofResolved "lambda" e.resolveProgram.1).Supplied e.resolveProgram.2 Scopes.root := by
  have hT := e.records_resolveProgram
  have walked := e.resolveProgram_walks
  have supplied := walked.supplied Nat.zero_lt_one Scopes.nested_initial (.refl _) hT
  rcases (Form.ofResolved "lambda" e.resolveProgram.1).top_cases with ⟨fs, hprogram, htop⟩ | htop
  · rw [htop] at supplied
    rw [hprogram]
    exact ⟨Or.inr hT.tree.global, supplied⟩
  · rw [htop] at supplied
    exact supplied.1

end ByteLisp
