/-
  ByteLisp: the scopes of one function.

  * `Scopes.within` lists the blocks around a point of the program and the function
    that they belong to;
  * `Nested.within_or_function`: a scope around a point is one of them, or lies
    outside the function;
  * `Scopes.passed` are those of them that a reference passes on its way out to a
    declaration.
-/
import ByteLisp.Proofs.Scope.Later
import Mathlib.Data.List.TakeWhile

namespace ByteLisp

namespace Scopes

variable {T : Scopes} {s b o : ScopeId} {p : ScopeId → Bool}

/-- The blocks at the start of a chain, and the function after them. -/
def inner (T : Scopes) : List ScopeId → List ScopeId
  | [] => []
  | t :: ts =>
    match (T.scope t).kind with
    | .block => t :: inner T ts
    | .function => [t]
    | .global => []

/-- The scopes around `s`, itself included, that belong to the same function. -/
def within (T : Scopes) (s : ScopeId) : List ScopeId := T.inner (T.chain s)

/-- The scopes of the same function from `s` out to but without `o`. -/
def passed (T : Scopes) (s o : ScopeId) : List ScopeId := (T.within s).takeWhile (· ≠ o)

theorem within_block (hb : (T.scope b).kind = .block) (hc : T.chain b = b :: T.chain s) :
    T.within b = b :: T.within s := by
  rw [within, hc, inner, hb, within]

theorem within_function (h : (T.scope s).kind = .function) : T.within s = [s] := by
  rw [within, chain, inner, h]

theorem within_global (h : (T.scope s).kind = .global) : T.within s = [] := by
  rw [within, chain, inner, h]

/-- The chain starts with the scopes of the same function. -/
theorem inner_sublist (ts : List ScopeId) : (T.inner ts).Sublist ts := by
  induction ts with
  | nil => exact List.Sublist.refl _
  | cons t ts ih =>
    rw [inner]
    cases (T.scope t).kind with
    | block => exact ih.cons_cons t
    | function => exact (List.nil_sublist ts).cons_cons t
    | global => exact List.nil_sublist _

theorem mem_chain_of_within {t : ScopeId} (h : t ∈ T.within s) : t ∈ T.chain s :=
  (inner_sublist _).mem h

/-- A scope around a place is one of the same function, or lies outside that function. -/
theorem Nested.within_or_function (hn : T.Nested)
    (hg : ∀ t, (T.scope t).kind = .global → (T.scope t).outer = []) (hs : s < T.size)
    (ho : o ∈ T.chain s) (hk : (T.scope o).kind ≠ .global) :
    o ∈ T.within s ∨
      ∃ f ∈ T.within s, (T.scope f).kind = .function ∧ o ∈ (T.scope f).outer := by
  induction s using Nat.strongRecOn with
  | ind s ih =>
    cases hks : (T.scope s).kind with
    | global =>
      rw [chain, hg s hks] at ho
      exact absurd (List.mem_singleton.1 ho ▸ hks) hk
    | function =>
      rw [within_function hks]
      exact (List.mem_cons.1 ho).imp List.mem_singleton.2 fun ho =>
        ⟨s, List.mem_singleton.2 rfl, hks, ho⟩
    | block =>
      have first : T.within s = s :: T.inner (T.scope s).outer := by rw [within, chain, inner, hks]
      rcases List.mem_cons.1 ho with rfl | ho
      · exact Or.inl (first ▸ List.mem_cons_self)
      · rcases hn s hs with houter | ⟨p, hp, houter⟩
        · rw [houter] at ho
          cases ho
        · rw [houter] at ho first
          rw [first]
          rcases ih p hp (Nat.lt_trans hp hs) ho with ho | ⟨f, hf, h⟩
          · exact Or.inl (List.mem_cons_of_mem s ho)
          · exact Or.inr ⟨f, List.mem_cons_of_mem s hf, h⟩

theorem passed_of_eq_append {pre post : List ScopeId} (hw : T.within s = pre ++ o :: post)
    (ho : o ∉ pre) : T.passed s o = pre := by
  have hne : ∀ t ∈ pre, decide (t ≠ o) = true := fun t ht =>
    decide_eq_true fun h => ho (h ▸ ht)
  rw [passed, hw, List.takeWhile_append_of_pos hne, List.takeWhile_cons_of_neg (by simp),
    List.append_nil]

/-- A declaration is found first if no scope that is passed has one. -/
theorem find?_within (ho : o ∈ T.within s) (hp : p o = true)
    (hn : ∀ t ∈ T.passed s o, p t = false) : (T.within s).find? p = some o := by
  obtain ⟨pre, post, hw, hpre⟩ := List.eq_append_cons_of_mem ho
  rw [passed_of_eq_append hw hpre] at hn
  rw [List.find?_eq_some_iff_append]
  exact ⟨hp, pre, post, hw, fun t ht => by simp [hn t ht]⟩

/-- No scope that is passed has a declaration that would be found first. -/
theorem passed_of_find? (h : (T.within s).find? p = some o) : ∀ t ∈ T.passed s o, p t = false := by
  obtain ⟨hp, pre, post, hw, hpre⟩ := List.find?_eq_some_iff_append.1 h
  have ho : o ∉ pre := fun hm => by
    have := hpre o hm
    simp [hp] at this
  rw [passed_of_eq_append hw ho]
  intro t ht
  simpa using hpre t ht

/-- A reference to a declaration outside the function passes all its scopes. -/
theorem passed_of_not_mem (ho : o ∉ T.within s) : T.passed s o = T.within s :=
  List.takeWhile_eq_self_iff.2 fun _ ht => decide_eq_true fun h => ho (h ▸ ht)

end Scopes

end ByteLisp
