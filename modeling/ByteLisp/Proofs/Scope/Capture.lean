/-
  ByteLisp: where captured names come from.

  * `Walk.target_reference`: what the walk does at a reference;
  * `Walks.free`: a name is free in a scope only because a reference within passes
    the scope on its way out.
-/
import ByteLisp.Proofs.Scope.Collect
import ByteLisp.Proofs.Scope.Walk

namespace ByteLisp

namespace Scopes

variable {T T' : Scopes} {s t o : ScopeId} {k : Scope.Kind} {n m : String}

theorem Later.pathTo (h : T.Later T') (hs : s < T.size) : T'.pathTo s o = T.pathTo s o := by
  rw [Scopes.pathTo, Scopes.pathTo, h.chain hs]

theorem Later.captures (h : T.Later T') (hn : T.Nested) (hs : s < T.size) (ho : o < T.size) :
    T'.captures s o = T.captures s o := by
  have hkind : ∀ t ∈ T.pathTo s o, (T'.scope t).kind = (T.scope t).kind := fun t ht =>
    h.kind t (hn.lt_of_mem hs ((List.takeWhile_sublist _).mem ht))
  have hany : (T.pathTo s o).any (fun t => decide ((T'.scope t).kind = .function)) =
      (T.pathTo s o).any (fun t => decide ((T.scope t).kind = .function)) := by
    rw [Bool.eq_iff_iff, List.any_eq_true, List.any_eq_true]
    exact exists_congr fun t => and_congr_right fun ht => by rw [hkind t ht]
  rw [Scopes.captures, Scopes.captures, h.kind o ho, h.pathTo hs, hany]

theorem lookup_mem (h : T.lookup s n = some o) : o ∈ T.chain s := List.mem_of_find?_eq_some h

/-! ## Free names -/

theorem free_of_push (h : n ∈ ((T.push k s).scope t).free) : n ∈ (T.scope t).free := by
  rcases Nat.lt_trichotomy t T.size with ht | rfl | ht
  · rwa [scope_push_of_lt ht] at h
  · rw [scope_push_size] at h
    cases h
  · have hsize : (T.push k s).size ≤ t := size_push.symm ▸ ht
    rw [scope, Array.getElem?_eq_none hsize] at h
    cases h

theorem free_declare : ((T.modify s (·.declare m)).scope t).free = (T.scope t).free := by
  by_cases hs : s < T.size
  · rw [scope_modify hs]
    split <;> rfl
  · rw [scope_modify_of_le (Nat.le_of_not_lt hs)]

theorem free_declareAll {names : List String} :
    ((T.declareAll s names).scope t).free = (T.scope t).free := by
  induction names generalizing T with
  | nil => rfl
  | cons name names ih => exact ih.trans free_declare

theorem free_of_openFunction {names : List String}
    (h : n ∈ ((T.openFunction s names).scope t).free) : n ∈ (T.scope t).free := by
  rw [openFunction, free_declareAll] at h
  exact free_of_push h

theorem free_of_foldl_addFree {path : List ScopeId}
    (h : n ∈ ((path.foldl (fun T t => T.modify t (·.addFree m)) T).scope t).free) :
    n ∈ (T.scope t).free ∨ n = m ∧ t ∈ path := by
  induction path generalizing T with
  | nil => exact Or.inl h
  | cons u path ih =>
    rcases ih h with h | ⟨rfl, ht⟩
    · by_cases hu : u < T.size
      · rw [scope_modify hu] at h
        split at h
        · next htu =>
          exact (mem_addName.1 h).imp_right fun h => ⟨h, htu ▸ List.mem_cons_self⟩
        · exact Or.inl h
      · rw [scope_modify_of_le (Nat.le_of_not_lt hu)] at h
        exact Or.inl h
    · exact Or.inr ⟨rfl, List.mem_cons_of_mem u ht⟩

/-- A reference makes its name free in the scopes that it passes, if it captures. -/
theorem free_of_capture (h : n ∈ ((T.capture s o m).scope t).free) :
    n ∈ (T.scope t).free ∨ n = m ∧ T.captures s o = true ∧ t ∈ T.pathTo s o := by
  unfold capture at h
  split at h
  · next hc =>
    rcases free_of_foldl_addFree h with h | ⟨rfl, ht⟩
    · refine Or.inl ?_
      by_cases ho : o < T.size
      · rw [scope_modify ho] at h
        split at h <;> exact h
      · rwa [scope_modify_of_le (Nat.le_of_not_lt ho)] at h
    · exact Or.inr ⟨rfl, hc, ht⟩
  · exact Or.inl h

end Scopes

/-- What the walk does at a reference. -/
theorem Walk.target_reference {T T' : Scopes} {s : ScopeId} {name : String}
    {owner : Option ScopeId} (h : Walk.target s name T = (.reference owner, T')) :
    isTruth name = false ∧ T.lookup s name = owner ∧
      T' = owner.elim T (T.capture s · name) := by
  unfold target at h
  split at h
  · cases h
  · next ht =>
    refine ⟨Bool.eq_false_iff.2 ht, ?_⟩
    unfold refer at h
    split at h
    · next o ho =>
      cases h
      exact ⟨ho, rfl⟩
    · next ho =>
      cases h
      exact ⟨ho, rfl⟩

/-- The reason why a form has no code. -/
def Form.malformed? (_ : ScopeId) : Form → List Malformation
  | .malformed _ why => [why]
  | _ => []

/-- A reference captures its name from the scope `o`, and passes the scope `f` on its way. -/
def Form.Reference.Passes (T : Scopes) (r : Form.Reference) (f o : ScopeId) : Prop :=
  r.binding = .reference (some o) ∧ T.captures r.scope o = true ∧ f ∈ T.pathTo r.scope o

section

variable {P : Scopes → Prop} {T T₀ T₁ : Scopes} {s f : ScopeId} {name n : String} {binding : Binding}

/-- A reference makes only its own name free, in the scopes that it passes. -/
theorem Walk.free_of_target (h : Walk.target s name T₀ = (binding, T₁)) (hs : s < T₀.size)
    (hn : T₀.Nested) (hl : T₁.Later T) (hf : n ∈ (T₁.scope f).free) (write : Bool) :
    n ∈ (T₀.scope f).free ∨
      ∃ o, name = n ∧ Form.Reference.Passes T ⟨s, name, write, binding⟩ f o := by
  cases binding with
  | unbound =>
    unfold target at h
    split at h
    · cases h
      exact Or.inl hf
    · unfold refer at h
      split at h <;> cases h
  | reference owner =>
    obtain ⟨-, ho, hT⟩ := target_reference h
    cases owner with
    | none =>
      subst hT
      exact Or.inl hf
    | some o =>
      have later : T₀.Later T := Scopes.Later.trans (hT ▸ Scopes.later_capture) hl
      subst hT
      have hsize := hn.lt_of_mem hs (Scopes.lookup_mem ho)
      refine (Scopes.free_of_capture hf).imp_right ?_
      rintro ⟨hname, hc, hp⟩
      refine ⟨o, hname.symm, rfl, ?_, ?_⟩
      · rwa [later.captures hn hs hsize]
      · rwa [later.pathTo hs]

/-- A name becomes free only because a reference captures it on its way out. -/
theorem Walks.free {fs : List Form} (h : Walks P T₀ s fs T₁) (hs : s < T₀.size) (hn : T₀.Nested)
    (hm : Form.collectAll Form.malformed? s fs = []) (hl : T₁.Later T) (hf : n ∈ (T₁.scope f).free) :
    n ∈ (T₀.scope f).free ∨ ∃ r ∈ Form.collectAll Form.reference? s fs, ∃ o, r.name = n ∧
      r.Passes T f o := by
  induction h with
  | nil | number | string | boolean => exact Or.inl hf
  | @cons T₀ s g g' gs T₂ T₁ h₁ h₂ ih₁ ih₂ =>
    rw [Form.collectAll, List.append_eq_nil_iff] at hm
    have hx := h₁.extends hs
    have later := (h₂.extends (hx.lt hs)).later.trans hl
    rcases ih₂ (hx.lt hs) (hx.nested hn) hm.2 hl hf with hf | ⟨r, hr, h⟩
    · refine (ih₁ hs hn ?_ later hf).imp_right fun ⟨r, hr, h⟩ => ⟨r, ?_, h⟩
      · simpa [Form.collectAll] using hm.1
      · simp only [Form.collectAll, List.append_nil] at hr
        exact List.mem_append_left _ hr
    · exact Or.inr ⟨r, List.mem_append_right _ hr, h⟩
  | reference _ _ ht =>
    refine (Walk.free_of_target ht hs hn hl hf false).imp_right fun ⟨o, hname, hp⟩ =>
      ⟨_, ?_, o, hname, hp⟩
    simp [Form.collectAll, Form.collect, Form.reference?]
  | @block T₀ s fs T₁ _ ih =>
    have hm : Form.collectAll Form.malformed? T₀.size fs = [] := by
      simpa [Form.collectAll, Form.collect, Form.malformed?] using hm
    refine (ih Scopes.lt_size_push (hn.push hs _) hm hl hf).imp Scopes.free_of_push
      fun ⟨r, hr, h⟩ => ⟨r, ?_, h⟩
    simpa [Form.collectAll, Form.collect, Form.reference?] using hr
  | @declare T₀ s name init T₁ _ ih =>
    have hm : Form.collectAll Form.malformed? s [init] = [] := by
      simpa [Form.collectAll, Form.collect, Form.malformed?] using hm
    refine (ih (Scopes.size_modify.symm ▸ hs) (Scopes.extends_declare.nested hn) hm hl hf).imp
      (fun h => Scopes.free_declare ▸ h) fun ⟨r, hr, h⟩ => ⟨r, ?_, h⟩
    simpa [Form.collectAll, Form.collect, Form.reference?] using hr
  | @assign T₀ s name binding value T₂ T₁ _ ht hw ih =>
    have hx : T₀.Extends (Walk.target s name T₀).2 := extends_target
    rw [ht] at hx
    have later := (hw.extends (hx.lt hs)).later.trans hl
    have hm : Form.collectAll Form.malformed? s [value] = [] := by
      simpa [Form.collectAll, Form.collect, Form.malformed?] using hm
    rcases ih (hx.lt hs) (hx.nested hn) hm hl hf with hf | ⟨r, hr, h⟩
    · refine (Walk.free_of_target ht hs hn later hf true).imp_right fun ⟨o, hname, hp⟩ =>
        ⟨_, ?_, o, hname, hp⟩
      simp [Form.collectAll, Form.collect, Form.reference?]
    · refine Or.inr ⟨r, ?_, h⟩
      simp only [Form.collectAll, Form.collect, List.append_nil] at hr ⊢
      exact List.mem_append_left _ hr
  | @define T₀ s name params body U T₁ hU _ ih =>
    subst hU
    have hm : Form.collectAll Form.malformed? (T₀.modify s (·.declare name)).size [body] = [] := by
      simpa [Form.collectAll, Form.collect, Form.malformed?] using hm
    have hx : T₀.Extends (T₀.modify s (·.declare name)) := Scopes.extends_declare
    refine (ih Scopes.lt_size_openFunction
      ((Scopes.extends_openFunction (hx.lt hs)).nested (hx.nested hn)) hm hl hf).imp
      (fun h => Scopes.free_declare ▸ Scopes.free_of_openFunction h) fun ⟨r, hr, h⟩ => ⟨r, ?_, h⟩
    simpa [Form.collectAll, Form.collect, Form.reference?] using hr
  | @lambda T₀ s label params body T₁ _ _ _ ih =>
    have hm : Form.collectAll Form.malformed? T₀.size [body] = [] := by
      simpa [Form.collectAll, Form.collect, Form.malformed?] using hm
    refine (ih Scopes.lt_size_openFunction ((Scopes.extends_openFunction hs).nested hn) hm hl hf).imp
      Scopes.free_of_openFunction fun ⟨r, hr, h⟩ => ⟨r, ?_, h⟩
    simpa [Form.collectAll, Form.collect, Form.reference?] using hr
  | malformed => cases hm
  | ifThen _ ih | ifElse _ ih | whileLoop _ ih | operation _ ih | call _ ih =>
    refine (ih hs hn ?_ hl hf).imp_right fun ⟨r, hr, h⟩ => ⟨r, ?_, h⟩
    · simpa [Form.collectAll, Form.collect, Form.malformed?, and_assoc] using hm
    · simpa [Form.collectAll, Form.collect, Form.reference?] using hr
  | forLoop _ ih =>
    -- the code of the body comes before that of the modifier
    refine (ih hs hn ?_ hl hf).imp_right fun ⟨r, hr, h⟩ => ⟨r, ?_, h⟩
    · simp_all [Form.collectAll, Form.collect, Form.malformed?]
    · simp only [Form.collectAll, Form.collect, Form.reference?, List.append_nil, List.mem_append]
        at hr ⊢
      exact hr.imp_right fun h => h.imp_right Or.symm

end

end ByteLisp
