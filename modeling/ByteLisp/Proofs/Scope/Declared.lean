/-
  ByteLisp: which scope declares which names.

  * `Expr.surface` are the names that an expression declares in the scope in which
    it stands, `Expr.topNames` those that a program declares at its top;
  * `mem_declared_resolve` and `mem_topNames`: these are the names that the walk
    declares there;
  * `Walks.declarations` and `Walks.declared_of_mem`: the walk declares the names of
    the declarations among the forms, and no others.
-/
import ByteLisp.Proofs.Scope.Capture

namespace ByteLisp

/-! ## The names of expressions -/

namespace Expr

mutual

/-- The names that an expression declares in the scope in which it stands. Blocks and functions
    keep the names inside them to themselves. -/
def surface : Expr → List String
  | .list items =>
    match Head.ofItems? items with
    | some .block | some .lambda => []
    | some .define => symbolAt items 1
    | some .declare => symbolAt items 1 ++ surfaceEntries 2 items
    | some _ => surfaceEntries 1 items
    | none => surfaceEntries 0 items
  | _ => []

/-- The names that the entries of a list declare, but for the first few. -/
def surfaceEntries : Nat → List Expr → List String
  | _, [] => []
  | 0, e :: es => surface e ++ surfaceEntries 0 es
  | skip + 1, _ :: es => surfaceEntries skip es

end

/-- The names that a program declares at its top: the block of a program is no inner one. -/
def topNames : Expr → List String
  | .list items =>
    match Head.ofItems? items with
    | some .block => surfaceEntries 1 items
    | _ => surface (.list items)
  | e => surface e

end Expr

/-! ## The names of a changed table -/

namespace Scopes

variable {T : Scopes} {s t o : ScopeId} {k : Scope.Kind} {n m : String} {names : List String}

theorem declared_modify {f : Scope → Scope} (hf : ∀ sc, (f sc).declared = sc.declared) :
    ((T.modify s f).scope t).declared = (T.scope t).declared := by
  by_cases hs : s < T.size
  · rw [scope_modify hs]
    split
    · exact hf _
    · rfl
  · rw [scope_modify_of_le (Nat.le_of_not_lt hs)]

theorem declared_capture : ((T.capture s o m).scope t).declared = (T.scope t).declared := by
  have marked (path : List ScopeId) (T : Scopes) :
      ((path.foldl (fun T t => T.modify t (·.addFree m)) T).scope t).declared =
        (T.scope t).declared := by
    induction path generalizing T with
    | nil => rfl
    | cons u path ih => exact (ih _).trans (declared_modify fun _ => rfl)
  unfold capture
  split
  · exact (marked _ _).trans (declared_modify fun _ => rfl)
  · rfl

theorem declared_refer : ((Walk.refer s m T).2.scope t).declared = (T.scope t).declared := by
  unfold Walk.refer
  split
  · exact declared_capture
  · rfl

theorem declared_target : ((Walk.target s m T).2.scope t).declared = (T.scope t).declared := by
  unfold Walk.target
  split
  · rfl
  · exact declared_refer

theorem mem_declared_declare (hs : s < T.size) :
    n ∈ ((T.modify s (·.declare m)).scope t).declared ↔
      n ∈ (T.scope t).declared ∨ t = s ∧ n = m := by
  rw [scope_modify hs]
  split
  · next ht =>
    simp only [Scope.declare, List.mem_cons, ht, true_and]
    exact or_comm
  · next ht => simp [ht]

theorem mem_declared_declareAll (hs : s < T.size) :
    n ∈ ((T.declareAll s names).scope t).declared ↔
      n ∈ (T.scope t).declared ∨ t = s ∧ n ∈ names := by
  induction names generalizing T with
  | nil => simp [declareAll, Walk.declareAll]
  | cons m names ih =>
    have hs' : s < (T.modify s (·.declare m)).size := by rwa [size_modify]
    have step : T.declareAll s (m :: names) = (T.modify s (·.declare m)).declareAll s names := rfl
    rw [step, ih hs', mem_declared_declare hs, List.mem_cons, and_or_left, or_assoc]

/-- A new function declares nothing in the scopes before. -/
theorem mem_declared_openFunction (ht : t < T.size) :
    n ∈ ((T.openFunction s names).scope t).declared ↔ n ∈ (T.scope t).declared := by
  rw [openFunction, mem_declared_declareAll lt_size_push, scope_push_of_lt ht]
  exact or_iff_left fun h => Nat.ne_of_lt ht h.1

end Scopes

/-! ## The walk over expressions -/

namespace Expr

variable {t : ScopeId} {n : String}

mutual

/-- The walk over an expression declares its names in the scope in which it stands, and no names
    in the other scopes that are there before. -/
theorem mem_declared_resolve {s : ScopeId} (e : Expr) (T : Scopes) (hs : s < T.size) (ht : t < T.size) :
    n ∈ ((resolve s e T).2.scope t).declared ↔
      n ∈ (T.scope t).declared ∨ t = s ∧ n ∈ surface e := by
  cases e with
  | number x => simp [resolve, surface]
  | string text => simp [resolve, surface]
  | symbol name =>
    rw [resolve]
    split
    · simp [surface]
    · simp [surface, Scopes.declared_refer]
  | list items =>
    have entries := fun {s : ScopeId} skip T => mem_declared_resolveEntries (s := s) skip items T
    rw [resolve, surface]
    cases Head.ofItems? items with
    | none => exact entries 0 T hs ht
    | some head =>
      cases head with
      | block =>
        have h := entries 1 (T.push .block s) Scopes.lt_size_push (Nat.lt_trans ht Scopes.lt_size_push)
        rw [Scopes.scope_push_of_lt ht] at h
        exact h.trans (by simp [Nat.ne_of_lt ht])
      | declare =>
        have hs' : s < (T.declareAll s (symbolAt items 1)).size := by rwa [Scopes.size_declareAll]
        have ht' : t < (T.declareAll s (symbolAt items 1)).size := by rwa [Scopes.size_declareAll]
        have h := entries 2 _ hs' ht'
        rw [Scopes.mem_declared_declareAll hs, or_assoc, ← and_or_left, ← List.mem_append] at h
        exact h
      | define =>
        have hs' : s < (T.declareAll s (symbolAt items 1)).size := by rwa [Scopes.size_declareAll]
        have ht' : t < (T.declareAll s (symbolAt items 1)).size := by rwa [Scopes.size_declareAll]
        have h := entries 3 ((T.declareAll s (symbolAt items 1)).openFunction s
          (symbolAt items 1 ++ symbolsAt items 2)) Scopes.lt_size_openFunction
          (Nat.lt_trans ht' Scopes.lt_size_openFunction)
        rw [Scopes.mem_declared_openFunction ht', Scopes.mem_declared_declareAll hs,
          Scopes.openFunction, Scopes.declareAll_append] at h
        exact h.trans (or_iff_left fun h => Nat.ne_of_lt ht' h.1)
      | lambda =>
        have h := entries 2 (T.openFunction s (symbolsAt items 1)) Scopes.lt_size_openFunction
          (Nat.lt_trans ht Scopes.lt_size_openFunction)
        rw [Scopes.mem_declared_openFunction ht] at h
        exact h.trans (by simp [Nat.ne_of_lt ht])
      | _ => exact entries 1 T hs ht

theorem mem_declared_resolveEntries {s : ScopeId} (skip : Nat) (es : List Expr) (T : Scopes)
    (hs : s < T.size) (ht : t < T.size) :
    n ∈ ((resolveEntries s skip es T).2.scope t).declared ↔
      n ∈ (T.scope t).declared ∨ t = s ∧ n ∈ surfaceEntries skip es := by
  cases es with
  | nil => cases skip <;> simp [resolveEntries, surfaceEntries]
  | cons e es =>
    cases skip with
    | zero =>
      have first := resolve_extends s e T hs
      have rest := mem_declared_resolveEntries 0 es _ (first.lt hs) (first.lt ht)
      rw [mem_declared_resolve e T hs ht, or_assoc, ← and_or_left, ← List.mem_append] at rest
      exact rest
    | succ skip => exact mem_declared_resolveEntries skip es T hs ht

end

/-- The global scope declares the names at the top of the program. -/
theorem mem_topNames {e : Expr} : n ∈ topNames e ↔ e.resolveProgram.2.isGlobal n = true := by
  have inside : Scopes.root < Scopes.initial.size := Nat.zero_lt_one
  have none : n ∉ (Scopes.initial.scope Scopes.root).declared := by
    intro h
    cases h
  have other : n ∈ ((resolve Scopes.root e .initial).2.scope Scopes.root).declared ↔ n ∈ surface e :=
    (mem_declared_resolve e .initial inside inside).trans (by simp [none])
  rw [Scopes.isGlobal, Scope.declares, List.contains_iff_mem]
  unfold resolveProgram StateT.run
  cases e with
  | list items =>
    rw [resolveRoot, topNames]
    cases hh : Head.ofItems? items with
    | none => exact other.symm
    | some head =>
      cases head with
      | block =>
        have h := mem_declared_resolveEntries (n := n) 1 items .initial inside inside
        exact (h.trans (by simp [none])).symm
      | _ => exact other.symm
  | _ => exact other.symm

/-- The top of a program reaches into choices and calls, but not into inner blocks and functions. -/
example : topNames (.list [.symbol "begin",
    .list [.symbol "if", .symbol "x", .list [.symbol "var", .symbol "y", .symbol "x"]],
    .list [.symbol "begin", .list [.symbol "var", .symbol "z", .symbol "x"]],
    .list [.symbol "def", .symbol "f", .list [.symbol "a"],
      .list [.symbol "var", .symbol "b", .symbol "a"]]]) = ["y", "f"] := by decide

end Expr

/-! ## The walk over forms -/

section

variable {P : Scopes → Prop} {T T' T₁ : Scopes} {s t : ScopeId} {n : String} {fs : List Form}

/-- A declaration has been made in a scope, which is `s` or a later one and then not global. -/
structure Scopes.Makes (T : Scopes) (s : ScopeId) (d : ScopeId × String) : Prop where
  lt : d.1 < T.size
  declared : d.2 ∈ (T.scope d.1).declared
  inner : d.1 = s ∨ (T.scope d.1).kind ≠ .global

theorem Scopes.Makes.later {d : ScopeId × String} (h : T.Makes s d) (hl : T.Later T') : T'.Makes s d where
  lt := Nat.lt_of_lt_of_le h.lt hl.size
  declared := hl.declared _ _ h.lt h.declared
  inner := by rw [hl.kind _ h.lt]; exact h.inner

theorem Scopes.Makes.inside {d : ScopeId × String} {f : ScopeId} (h : T.Makes f d)
    (hf : (T.scope f).kind ≠ .global) : T.Makes s d where
  lt := h.lt
  declared := h.declared
  inner := by
    rcases h.inner with rfl | hk
    · exact Or.inr hf
    · exact Or.inr hk

/-- The walk makes the declarations among the forms. -/
theorem Walks.declarations (h : Walks P T s fs T') (hs : s < T.size) :
    ∀ d ∈ Form.collectAll Form.declaration? s fs, T'.Makes s d := by
  induction h with
  | nil | number | string | boolean | reference | malformed =>
    simp [Form.collectAll, Form.collect, Form.declaration?]
  | cons h₁ h₂ ih₁ ih₂ =>
    have hx := h₁.extends hs
    intro d hd
    rw [Form.collectAll, List.mem_append] at hd
    rcases hd with hd | hd
    · exact (ih₁ hs d (by simpa [Form.collectAll] using hd)).later (h₂.extends (hx.lt hs)).later
    · exact ih₂ (hx.lt hs) d hd
  | @block T s fs T' hw ih =>
    have hk : (T'.scope T.size).kind ≠ .global := by
      rw [(hw.extends Scopes.lt_size_push).later.kind _ Scopes.lt_size_push, Scopes.scope_push_size]
      simp [Scope.empty]
    intro d hd
    refine (ih Scopes.lt_size_push d ?_).inside hk
    simpa [Form.collectAll, Form.collect, Form.declaration?] using hd
  | @declare T s name init T' hw ih =>
    have hs' : s < (T.modify s (·.declare name)).size := by rwa [Scopes.size_modify]
    intro d hd
    simp only [Form.collectAll, Form.collect, Form.declaration?, List.append_nil, List.mem_append,
      List.mem_singleton] at hd
    rcases hd with hd | rfl
    · exact ih hs' d (by simpa [Form.collectAll] using hd)
    · exact Scopes.Makes.later ⟨hs', (Scopes.mem_declared_declare hs).2 (Or.inr ⟨rfl, rfl⟩), Or.inl rfl⟩
        (hw.extends hs').later
  | @assign T s name binding value T₁ T' _ ht hw ih =>
    have hx : T.Extends T₁ := by
      have h : T.Extends (Walk.target s name T).2 := extends_target
      rwa [ht] at h
    intro d hd
    refine ih (hx.lt hs) d ?_
    simpa [Form.collectAll, Form.collect, Form.declaration?] using hd
  | @define T s name params body U T' hU hw ih =>
    have hs' : s < U.size := by rwa [hU, Scopes.size_modify]
    have later := (hw.extends Scopes.lt_size_openFunction).later
    have hk : (T'.scope U.size).kind ≠ .global := by
      rw [later.kind _ Scopes.lt_size_openFunction, (Scopes.openFunction_scope hs').1]
      simp
    intro d hd
    simp only [Form.collectAll, Form.collect, Form.declaration?, List.append_nil, List.mem_append,
      List.mem_singleton] at hd
    rcases hd with hd | rfl
    · exact (ih Scopes.lt_size_openFunction d (by simpa [Form.collectAll] using hd)).inside hk
    · refine Scopes.Makes.later ⟨hs', ?_, Or.inl rfl⟩
        ((Scopes.extends_openFunction hs').later.trans later)
      rw [hU]
      exact (Scopes.mem_declared_declare hs).2 (Or.inr ⟨rfl, rfl⟩)
  | @lambda T s label params body T' _ _ hw ih =>
    have hk : (T'.scope T.size).kind ≠ .global := by
      rw [(hw.extends Scopes.lt_size_openFunction).later.kind _ Scopes.lt_size_openFunction,
        (Scopes.openFunction_scope hs).1]
      simp
    intro d hd
    refine (ih Scopes.lt_size_openFunction d ?_).inside hk
    simpa [Form.collectAll, Form.collect, Form.declaration?] using hd
  | forLoop _ ih =>
    intro d hd
    refine ih hs d ?_
    simp only [Form.collectAll, Form.collect, Form.declaration?, List.append_nil, List.mem_append]
      at hd ⊢
    exact hd.imp_right fun h => h.imp_right Or.symm
  | ifThen _ ih | ifElse _ ih | whileLoop _ ih | operation _ ih | call _ ih =>
    intro d hd
    refine ih hs d ?_
    simpa [Form.collectAll, Form.collect, Form.declaration?] using hd

/-- A name is declared in a scope that was there before only if there is a declaration of it among
    the forms. -/
theorem Walks.declared_of_mem (h : Walks P T s fs T') (hs : s < T.size) (ht : t < T.size)
    (hm : Form.collectAll Form.malformed? s fs = []) (hn : n ∈ (T'.scope t).declared) :
    n ∈ (T.scope t).declared ∨ (t, n) ∈ Form.collectAll Form.declaration? s fs := by
  induction h with
  | nil | number | string | boolean => exact Or.inl hn
  | malformed => cases hm
  | @reference T s name binding T' _ _ href =>
    have h : ((Walk.target s name T).2.scope t).declared = (T.scope t).declared :=
      Scopes.declared_target
    rw [href] at h
    exact Or.inl (h ▸ hn)
  | cons h₁ h₂ ih₁ ih₂ =>
    rw [Form.collectAll, List.append_eq_nil_iff] at hm
    have hx := h₁.extends hs
    rw [Form.collectAll, List.mem_append]
    rcases ih₂ (hx.lt hs) (hx.lt ht) hm.2 hn with hn | hn
    · refine (ih₁ hs ht (by simpa [Form.collectAll] using hm.1) hn).imp_right fun h => Or.inl ?_
      simpa [Form.collectAll] using h
    · exact Or.inr (Or.inr hn)
  | @block T s fs T' _ ih =>
    have hm : Form.collectAll Form.malformed? T.size fs = [] := by
      simpa [Form.collectAll, Form.collect, Form.malformed?] using hm
    have h := ih Scopes.lt_size_push (Nat.lt_trans ht Scopes.lt_size_push) hm hn
    rw [Scopes.scope_push_of_lt ht] at h
    refine h.imp_right fun hd => ?_
    simpa [Form.collectAll, Form.collect, Form.declaration?] using hd
  | @declare T s name init T' _ ih =>
    have hm : Form.collectAll Form.malformed? s [init] = [] := by
      simpa [Form.collectAll, Form.collect, Form.malformed?] using hm
    have h := ih (by rwa [Scopes.size_modify]) (by rwa [Scopes.size_modify]) hm hn
    rw [Scopes.mem_declared_declare hs, or_assoc] at h
    refine h.imp_right fun hd => ?_
    simp only [Form.collectAll, Form.collect, Form.declaration?, List.append_nil, List.mem_append,
      List.mem_singleton, Prod.mk.injEq] at hd ⊢
    exact hd.symm
  | @assign T s name binding value T₁ T' _ href hw ih =>
    have hm : Form.collectAll Form.malformed? s [value] = [] := by
      simpa [Form.collectAll, Form.collect, Form.malformed?] using hm
    have hx : T.Extends (Walk.target s name T).2 := extends_target
    have same : ((Walk.target s name T).2.scope t).declared = (T.scope t).declared :=
      Scopes.declared_target
    rw [href] at hx same
    have h := ih (hx.lt hs) (hx.lt ht) hm hn
    rw [same] at h
    refine h.imp_right fun hd => ?_
    simpa [Form.collectAll, Form.collect, Form.declaration?] using hd
  | @define T s name params body U T' hU hw ih =>
    have hm : Form.collectAll Form.malformed? U.size [body] = [] := by
      simpa [Form.collectAll, Form.collect, Form.malformed?] using hm
    have ht' : t < U.size := by rwa [hU, Scopes.size_modify]
    have h := ih Scopes.lt_size_openFunction (Nat.lt_trans ht' Scopes.lt_size_openFunction) hm hn
    rw [Scopes.mem_declared_openFunction ht', hU, Scopes.mem_declared_declare hs, or_assoc] at h
    refine h.imp_right fun hd => ?_
    simp only [Form.collectAll, Form.collect, Form.declaration?, List.append_nil, List.mem_append,
      List.mem_singleton, Prod.mk.injEq] at hd ⊢
    exact hU ▸ hd.symm
  | @lambda T s label params body T' _ _ _ ih =>
    have hm : Form.collectAll Form.malformed? T.size [body] = [] := by
      simpa [Form.collectAll, Form.collect, Form.malformed?] using hm
    have h := ih Scopes.lt_size_openFunction (Nat.lt_trans ht Scopes.lt_size_openFunction) hm hn
    rw [Scopes.mem_declared_openFunction ht] at h
    refine h.imp_right fun hd => ?_
    simpa [Form.collectAll, Form.collect, Form.declaration?] using hd
  | forLoop _ ih =>
    refine (ih hs ht ?_ hn).imp_right fun hd => ?_
    · simp_all [Form.collectAll, Form.collect, Form.malformed?]
    · simp only [Form.collectAll, Form.collect, Form.declaration?, List.append_nil, List.mem_append]
        at hd ⊢
      exact hd.imp_right fun h => h.imp_right Or.symm
  | ifThen _ ih | ifElse _ ih | whileLoop _ ih | operation _ ih | call _ ih =>
    refine (ih hs ht ?_ hn).imp_right fun hd => ?_
    · simpa [Form.collectAll, Form.collect, Form.malformed?, and_assoc] using hm
    · simpa [Form.collectAll, Form.collect, Form.declaration?] using hd

end

end ByteLisp
