/-
  ByteLisp: the table of scopes grows.

  * `Scopes.Later`: scopes stay where they are, and names are only added;
  * `Scopes.Nested`: a scope lies inside scopes that were opened before, as in a tree;
  * `capture_free` and `capture_cells`: what a reference records on its way to the
    declaration.
-/
import ByteLisp.Scope.Resolve

namespace ByteLisp

namespace Scopes

variable {T T' T₁ T₂ : Scopes} {s t o : ScopeId} {k : Scope.Kind} {f : Scope → Scope} {n : String}

/-! ## Scopes of a changed table -/

@[simp] theorem size_push : (T.push k s).size = T.size + 1 := Array.size_push ..

@[simp] theorem size_modify : (T.modify s f).size = T.size := Array.size_modify ..

theorem scope_push_of_lt (h : t < T.size) : (T.push k s).scope t = T.scope t := by
  unfold scope push
  rw [Array.getElem?_push_lt h, Array.getElem?_eq_getElem h]

theorem scope_push_size : (T.push k s).scope T.size = .empty k (T.chain s) := by
  simp [scope, push, size]

theorem scope_modify (h : s < T.size) :
    (T.modify s f).scope t = if t = s then f (T.scope t) else T.scope t := by
  unfold scope modify
  rw [Array.getElem?_modify]
  by_cases hs : s = t
  · subst hs
    rw [if_pos rfl, if_pos rfl, Array.getElem?_eq_getElem h]
    rfl
  · rw [if_neg hs, if_neg (Ne.symm hs)]

theorem scope_modify_of_le (h : T.size ≤ s) : (T.modify s f).scope t = T.scope t := by
  unfold scope modify
  rw [Array.getElem?_modify]
  by_cases hs : s = t
  · subst hs
    rw [if_pos rfl, Array.getElem?_eq_none h]
    rfl
  · rw [if_neg hs]

/-! ## Growth -/

/-- Scopes stay where they are, and names are only added. -/
structure Later (T T' : Scopes) : Prop where
  size : T.size ≤ T'.size
  kind : ∀ s, s < T.size → (T'.scope s).kind = (T.scope s).kind
  outer : ∀ s, s < T.size → (T'.scope s).outer = (T.scope s).outer
  declared : ∀ s n, s < T.size → n ∈ (T.scope s).declared → n ∈ (T'.scope s).declared
  free : ∀ s n, s < T.size → n ∈ (T.scope s).free → n ∈ (T'.scope s).free
  cells : ∀ s n, s < T.size → n ∈ (T.scope s).cells → n ∈ (T'.scope s).cells

theorem Later.refl (T : Scopes) : T.Later T :=
  ⟨Nat.le_refl _, fun _ _ => rfl, fun _ _ => rfl, fun _ _ _ h => h, fun _ _ _ h => h,
    fun _ _ _ h => h⟩

theorem Later.trans (h : T.Later T₁) (h' : T₁.Later T₂) : T.Later T₂ where
  size := Nat.le_trans h.size h'.size
  kind s hs := (h'.kind s (Nat.lt_of_lt_of_le hs h.size)).trans (h.kind s hs)
  outer s hs := (h'.outer s (Nat.lt_of_lt_of_le hs h.size)).trans (h.outer s hs)
  declared s n hs hn := h'.declared s n (Nat.lt_of_lt_of_le hs h.size) (h.declared s n hs hn)
  free s n hs hn := h'.free s n (Nat.lt_of_lt_of_le hs h.size) (h.free s n hs hn)
  cells s n hs hn := h'.cells s n (Nat.lt_of_lt_of_le hs h.size) (h.cells s n hs hn)

theorem Later.chain (h : T.Later T') (hs : s < T.size) : T'.chain s = T.chain s := by
  rw [Scopes.chain, Scopes.chain, h.outer s hs]

theorem later_push (T : Scopes) (k : Scope.Kind) (s : ScopeId) : T.Later (T.push k s) where
  size := by rw [size_push]; exact Nat.le_succ _
  kind t ht := by rw [scope_push_of_lt ht]
  outer t ht := by rw [scope_push_of_lt ht]
  declared t n ht hn := by rwa [scope_push_of_lt ht]
  free t n ht hn := by rwa [scope_push_of_lt ht]
  cells t n ht hn := by rwa [scope_push_of_lt ht]

/-- A change of one scope that only adds names. -/
structure Adds (f : Scope → Scope) : Prop where
  kind : ∀ sc, (f sc).kind = sc.kind
  outer : ∀ sc, (f sc).outer = sc.outer
  declared : ∀ sc, ∀ n ∈ sc.declared, n ∈ (f sc).declared
  free : ∀ sc, ∀ n ∈ sc.free, n ∈ (f sc).free
  cells : ∀ sc, ∀ n ∈ sc.cells, n ∈ (f sc).cells

theorem mem_addName {names : List String} {m : String} :
    m ∈ Scope.addName names n ↔ m ∈ names ∨ m = n := by
  unfold Scope.addName
  split
  · next h =>
    rw [List.contains_iff_mem] at h
    constructor
    · exact Or.inl
    · rintro (hm | rfl)
      · exact hm
      · exact h
  · simp

theorem adds_declare (n : String) : Adds (·.declare n) :=
  ⟨fun _ => rfl, fun _ => rfl, fun _ _ h => List.mem_cons_of_mem _ h, fun _ _ h => h, fun _ _ h => h⟩

theorem adds_addFree (n : String) : Adds (·.addFree n) :=
  ⟨fun _ => rfl, fun _ => rfl, fun _ _ h => h, fun _ _ h => mem_addName.2 (Or.inl h), fun _ _ h => h⟩

theorem adds_addCell (n : String) : Adds (·.addCell n) :=
  ⟨fun _ => rfl, fun _ => rfl, fun _ _ h => h, fun _ _ h => h, fun _ _ h => mem_addName.2 (Or.inl h)⟩

theorem later_modify (s : ScopeId) (hf : Adds f) : T.Later (T.modify s f) := by
  by_cases h : s < T.size
  · refine ⟨Nat.le_of_eq size_modify.symm, ?_, ?_, ?_, ?_, ?_⟩
    all_goals
      intro t
      rw [scope_modify h]
      split
    · exact fun _ => hf.kind _
    · exact fun _ => rfl
    · exact fun _ => hf.outer _
    · exact fun _ => rfl
    · exact fun n _ hn => hf.declared _ n hn
    · exact fun n _ hn => hn
    · exact fun n _ hn => hf.free _ n hn
    · exact fun n _ hn => hn
    · exact fun n _ hn => hf.cells _ n hn
    · exact fun n _ hn => hn
  · have same {t : ScopeId} : (T.modify s f).scope t = T.scope t :=
      scope_modify_of_le (Nat.le_of_not_lt h)
    refine ⟨Nat.le_of_eq size_modify.symm, ?_, ?_, ?_, ?_, ?_⟩
    all_goals simp only [same, implies_true, imp_self]

theorem later_foldl_addFree (n : String) (path : List ScopeId) :
    T.Later (path.foldl (fun T t => T.modify t (·.addFree n)) T) := by
  induction path generalizing T with
  | nil => exact .refl T
  | cons t path ih => exact (later_modify t (adds_addFree n)).trans ih

theorem size_capture : (T.capture s o n).size = T.size := by
  have marked (path : List ScopeId) (T : Scopes) :
      (path.foldl (fun T t => T.modify t (·.addFree n)) T).size = T.size := by
    induction path generalizing T with
    | nil => rfl
    | cons u path ih => exact (ih _).trans size_modify
  unfold capture
  split
  · exact (marked _ _).trans size_modify
  · rfl

theorem later_capture : T.Later (T.capture s o n) := by
  unfold capture
  split
  · exact (later_modify o (adds_addCell n)).trans (later_foldl_addFree n _)
  · exact .refl T

/-! ## Captured names -/

theorem free_foldl_addFree {path : List ScopeId} (hp : ∀ t ∈ path, t < T.size) (ht : t ∈ path) :
    n ∈ ((path.foldl (fun T t => T.modify t (·.addFree n)) T).scope t).free := by
  induction path generalizing T with
  | nil => cases ht
  | cons u path ih =>
    have hsize : ∀ t ∈ path, t < (T.modify u (·.addFree n)).size := fun t ht => by
      rw [size_modify]
      exact hp t (List.mem_cons_of_mem u ht)
    rw [List.foldl_cons]
    rcases List.mem_cons.1 ht with rfl | ht
    · refine (later_foldl_addFree n path).free t n ?_ ?_
      · rw [size_modify]
        exact hp t List.mem_cons_self
      · rw [scope_modify (hp t List.mem_cons_self), if_pos rfl]
        exact mem_addName.2 (Or.inr rfl)
    · exact ih hsize ht

/-- A captured name is free in all scopes on the way to its declaration. -/
theorem free_capture (hc : T.captures s o = true) (hs : ∀ t ∈ T.chain s, t < T.size)
    (ht : t ∈ T.pathTo s o) : n ∈ ((T.capture s o n).scope t).free := by
  rw [capture, if_pos hc]
  refine free_foldl_addFree (fun t ht => ?_) ht
  rw [size_modify]
  exact hs t ((List.takeWhile_sublist _).mem ht)

/-- A captured name is a cell of the scope that declares it. -/
theorem cells_capture (hc : T.captures s o = true) (ho : o < T.size) :
    n ∈ ((T.capture s o n).scope o).cells := by
  rw [capture, if_pos hc]
  refine (later_foldl_addFree n _).cells o n ?_ ?_
  · rw [size_modify]
    exact ho
  · rw [scope_modify ho, if_pos rfl]
    exact mem_addName.2 (Or.inr rfl)

/-! ## Nesting -/

/-- Each scope lies in one that was opened before and in the scopes around that one. -/
def Nested (T : Scopes) : Prop :=
  ∀ s, s < T.size → (T.scope s).outer = [] ∨ ∃ p, p < s ∧ (T.scope s).outer = T.chain p

theorem nested_initial : initial.Nested := by
  intro s hs
  have : s = 0 := Nat.lt_one_iff.1 hs
  subst this
  exact Or.inl rfl

/-- The scopes around a scope of the chain are the rest of the chain. -/
theorem Nested.chain_of_mem (h : T.Nested) (hs : s < T.size) (ht : t ∈ T.chain s) :
    ∃ pre, T.chain s = pre ++ T.chain t := by
  induction s using Nat.strongRecOn with
  | ind s ih =>
    rcases List.mem_cons.1 ht with rfl | ht
    · exact ⟨[], rfl⟩
    · rcases h s hs with ho | ⟨p, hp, ho⟩
      · rw [ho] at ht
        cases ht
      · rw [ho] at ht
        obtain ⟨pre, hpre⟩ := ih p hp (Nat.lt_trans hp hs) ht
        exact ⟨s :: pre, by rw [chain, ho, hpre]; rfl⟩

theorem Nested.le_of_mem (h : T.Nested) (hs : s < T.size) (ht : t ∈ T.chain s) : t ≤ s := by
  induction s using Nat.strongRecOn with
  | ind s ih =>
    rcases List.mem_cons.1 ht with rfl | ht
    · exact Nat.le_refl _
    · rcases h s hs with ho | ⟨p, hp, ho⟩
      · rw [ho] at ht
        cases ht
      · rw [ho] at ht
        exact Nat.le_of_lt (Nat.lt_of_le_of_lt (ih p hp (Nat.lt_trans hp hs) ht) hp)

theorem Nested.lt_of_mem (h : T.Nested) (hs : s < T.size) (ht : t ∈ T.chain s) : t < T.size :=
  Nat.lt_of_le_of_lt (h.le_of_mem hs ht) hs

theorem Nested.lt_of_mem_outer (h : T.Nested) (hs : s < T.size) (ht : t ∈ (T.scope s).outer) :
    t < s := by
  rcases h s hs with ho | ⟨p, hp, ho⟩
  · rw [ho] at ht
    cases ht
  · rw [ho] at ht
    exact Nat.lt_of_le_of_lt (h.le_of_mem (Nat.lt_trans hp hs) ht) hp

/-- No scope lies in itself. -/
theorem Nested.nodup_chain (h : T.Nested) (hs : s < T.size) : (T.chain s).Nodup := by
  induction s using Nat.strongRecOn with
  | ind s ih =>
    refine List.nodup_cons.2 ⟨fun hm => Nat.lt_irrefl _ (h.lt_of_mem_outer hs hm), ?_⟩
    rcases h s hs with ho | ⟨p, hp, ho⟩
    · rw [ho]
      exact List.nodup_nil
    · rw [ho]
      exact ih p hp (Nat.lt_trans hp hs)

theorem Nested.of_outer (h : T.Nested) (hsize : T'.size = T.size)
    (ho : ∀ s, (T'.scope s).outer = (T.scope s).outer) : T'.Nested := by
  intro s hs
  rw [ho]
  refine (h s (hsize ▸ hs)).imp_right fun ⟨p, hp, hc⟩ => ⟨p, hp, ?_⟩
  rw [hc, chain, chain, ho]

theorem Nested.push (h : T.Nested) (hs : s < T.size) (k : Scope.Kind) : (T.push k s).Nested := by
  intro t ht
  rw [size_push] at ht
  rcases Nat.lt_succ_iff_lt_or_eq.1 ht with ht | rfl
  · rw [scope_push_of_lt ht]
    refine (h t ht).imp_right fun ⟨p, hp, hc⟩ => ⟨p, hp, ?_⟩
    rw [hc, (later_push T k s).chain (Nat.lt_trans hp ht)]
  · rw [scope_push_size]
    exact Or.inr ⟨s, hs, ((later_push T k s).chain hs).symm⟩

theorem Nested.modify (h : T.Nested) (hf : Adds f) : (T.modify s f).Nested := by
  refine h.of_outer size_modify fun t => ?_
  by_cases hs : s < T.size
  · rw [scope_modify hs]
    split
    · exact hf.outer _
    · rfl
  · rw [scope_modify_of_le (Nat.le_of_not_lt hs)]

theorem nested_foldl_addFree (h : T.Nested) (path : List ScopeId) :
    (path.foldl (fun T t => T.modify t (·.addFree n)) T).Nested := by
  induction path generalizing T with
  | nil => exact h
  | cons t path ih => exact ih (h.modify (adds_addFree n))

theorem Nested.capture (h : T.Nested) : (T.capture s o n).Nested := by
  unfold Scopes.capture
  split
  · exact nested_foldl_addFree (h.modify (adds_addCell n)) _
  · exact h

end Scopes

end ByteLisp
