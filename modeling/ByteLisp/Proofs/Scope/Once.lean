/-
  ByteLisp: programs that declare no name twice.

  The walk over forms changes the table step by step. If it declares each name at
  most once, where a function declares its own name inside and outside, then a name
  has one declaration for all points of the program at which it is visible.

  * `Scopes.Changes`: the steps of a walk, with the names that they declare;
    `Walks.changes`: the walk over forms makes such steps;
  * `Scopes.Once`: no two scopes declare the same name, but for a function and what
    is around it; `Changes.once`: so it stays while new names are declared;
  * `Scopes.Settled`: the names declared so far get no other declarations, so that
    look-ups give the same ever after (`Settled.lookup`).
-/
import ByteLisp.Proofs.Scope.Declared
import ByteLisp.Proofs.Scope.Within
import Mathlib.Data.List.Basic

namespace ByteLisp

/-- In a loop with a start, the code of the body comes before that of the modifier. -/
theorem Form.perm_forLoop {α : Type} (find : ScopeId → Form → List α) {s : ScopeId}
    {init test modifier body : Form} (h : find s (.forLoop init test modifier body) = []) :
    (collectAll find s [init, test, modifier, body]).Perm
      (collectAll find s [.forLoop init test modifier body]) := by
  simp only [collectAll, collect, h, List.append_nil]
  exact (List.perm_append_comm.append_left _).append_left _

namespace Scopes

variable {T T' T₁ : Scopes} {s t u o b f : ScopeId} {n m : String} {ns ms : List String}
  {k : Scope.Kind}

/-! ## Steps of a walk -/

/-- Some scope declares the name. -/
def Names (T : Scopes) (n : String) : Prop := ∃ t, n ∈ (T.scope t).declared

/-- A walk that declares some names turns one table into another. -/
inductive Changes : List String → Scopes → Scopes → Prop
  | refl {T : Scopes} : Changes [] T T
  | append {ns ms : List String} {T T₁ T' : Scopes} : Changes ns T T₁ → Changes ms T₁ T' →
      Changes (ns ++ ms) T T'
  | perm {ns ms : List String} {T T' : Scopes} : Changes ns T T' → ns.Perm ms → Changes ms T T'
  | block {s : ScopeId} {T : Scopes} : s < T.size → Changes [] T (T.push .block s)
  | declare {s : ScopeId} {n : String} {T : Scopes} : s < T.size →
      Changes [n] T (T.modify s (·.declare n))
  | define {s : ScopeId} {n : String} {ns : List String} {T : Scopes} : s < T.size →
      Changes (n :: ns) T ((T.modify s (·.declare n)).openFunction s (n :: ns))
  | lambda {s : ScopeId} {ns : List String} {T : Scopes} : s < T.size →
      Changes ns T (T.openFunction s ns)
  | capture {s o : ScopeId} {n : String} {T : Scopes} : T.lookup s n = some o →
      Changes [] T (T.capture s o n)

theorem scope_of_le (h : T.size ≤ t) : T.scope t = default := by
  rw [scope, Array.getElem?_eq_none h]
  rfl

theorem lt_size_of_declared (h : n ∈ (T.scope t).declared) : t < T.size := by
  refine Nat.lt_of_not_le fun hle => ?_
  rw [scope_of_le hle] at h
  cases h

theorem declared_push : ((T.push k s).scope t).declared = (T.scope t).declared := by
  rcases Nat.lt_trichotomy t T.size with ht | rfl | ht
  · rw [scope_push_of_lt ht]
  · rw [scope_push_size, scope_of_le (Nat.le_refl _)]
    rfl
  · rw [scope_of_le (Nat.le_of_lt ht), scope_of_le (by rwa [size_push])]

theorem mem_declared_opened : n ∈ ((T.openFunction s ns).scope t).declared ↔
    n ∈ (T.scope t).declared ∨ t = T.size ∧ n ∈ ns := by
  rw [openFunction, mem_declared_declareAll lt_size_push, declared_push]

theorem Changes.extends (h : Changes ns T T') : T.Extends T' := by
  induction h with
  | refl => exact .refl _
  | append _ _ ih ih' => exact ih.trans ih'
  | perm _ _ ih => exact ih
  | block hs => exact extends_push hs _
  | declare _ => exact extends_declare
  | define hs => exact extends_declare.trans (extends_openFunction (by rwa [size_modify]))
  | lambda hs => exact extends_openFunction hs
  | capture _ => exact ⟨later_capture, fun hn => hn.capture⟩

/-- A declaration is an earlier one or one of a new name. -/
theorem Changes.declared (h : Changes ns T T') (hn : n ∈ (T'.scope t).declared) :
    n ∈ (T.scope t).declared ∨ n ∈ ns := by
  induction h with
  | refl => exact Or.inl hn
  | append _ _ ih ih' =>
    rw [List.mem_append]
    rcases ih' hn with hn | hn
    · exact (ih hn).imp_right Or.inl
    · exact Or.inr (Or.inr hn)
  | perm _ hp ih => exact (ih hn).imp_right hp.mem_iff.1
  | block _ => exact Or.inl (declared_push ▸ hn)
  | declare hs =>
    exact ((mem_declared_declare hs).1 hn).imp_right fun h => List.mem_singleton.2 h.2
  | define hs =>
    rcases mem_declared_opened.1 hn with hn | ⟨-, hn⟩
    · exact ((mem_declared_declare hs).1 hn).imp_right fun h => List.mem_cons.2 (Or.inl h.2)
    · exact Or.inr hn
  | lambda _ => exact (mem_declared_opened.1 hn).imp_right And.right
  | capture _ => exact Or.inl (declared_capture ▸ hn)

theorem Changes.names (h : Changes ns T T') (hn : T'.Names n) : T.Names n ∨ n ∈ ns := by
  obtain ⟨t, ht⟩ := hn
  exact (h.declared ht).imp_left fun h => ⟨t, h⟩

/-! ## Names that are declared once -/

/-- The scope `f` of a kind stands in the scope `s`. -/
structure Opens (T : Scopes) (k : Scope.Kind) (f s : ScopeId) : Prop where
  kind : (T.scope f).kind = k
  chain : T.chain f = f :: T.chain s

/-- No two scopes declare the same name, but for a function, which may declare a name of the scope
    in which it stands; cells are declared, and nothing is around the program. -/
structure Once (T : Scopes) : Prop where
  nested : T.Nested
  unique : ∀ {n t u}, n ∈ (T.scope t).declared → n ∈ (T.scope u).declared →
    t = u ∨ T.Opens .function t u ∨ T.Opens .function u t
  nodup : ∀ t, (T.scope t).cells.Nodup
  cells : ∀ {t n}, n ∈ (T.scope t).cells → n ∈ (T.scope t).declared
  global : ∀ {t}, (T.scope t).kind = .global → (T.scope t).outer = []

theorem Opens.later (h : T.Opens k f s) (hl : T.Later T') (hf : f < T.size) (hs : s < T.size) :
    T'.Opens k f s := ⟨(hl.kind f hf).trans h.kind, by rw [hl.chain hf, h.chain, hl.chain hs]⟩

theorem cells_modify_declare : ((T.modify s (·.declare n)).scope t).cells = (T.scope t).cells := by
  by_cases hs : s < T.size
  · rw [scope_modify hs]
    split <;> rfl
  · rw [scope_modify_of_le (Nat.le_of_not_lt hs)]

theorem cells_declareAll : ((T.declareAll s ns).scope t).cells = (T.scope t).cells := by
  induction ns generalizing T with
  | nil => rfl
  | cons n ns ih => exact ih.trans cells_modify_declare

theorem cells_push : ((T.push k s).scope t).cells = (T.scope t).cells := by
  rcases Nat.lt_trichotomy t T.size with ht | rfl | ht
  · rw [scope_push_of_lt ht]
  · rw [scope_push_size, scope_of_le (Nat.le_refl _)]
    rfl
  · rw [scope_of_le (Nat.le_of_lt ht), scope_of_le (by rwa [size_push])]

theorem cells_openFunction : ((T.openFunction s ns).scope t).cells = (T.scope t).cells :=
  cells_declareAll.trans cells_push

/-- A reference makes at most its own name a cell, of the scope that declares it. -/
theorem cells_of_capture : ((T.capture s o n).scope t).cells = (T.scope t).cells ∨
    t = o ∧ ((T.capture s o n).scope t).cells = Scope.addName (T.scope t).cells n := by
  have marked (path : List ScopeId) (T : Scopes) :
      ((path.foldl (fun T t => T.modify t (·.addFree n)) T).scope t).cells = (T.scope t).cells := by
    induction path generalizing T with
    | nil => rfl
    | cons u path ih =>
      refine (ih _).trans ?_
      by_cases hu : u < T.size
      · rw [scope_modify hu]
        split <;> rfl
      · rw [scope_modify_of_le (Nat.le_of_not_lt hu)]
  unfold capture
  split
  · rw [marked]
    by_cases ho : o < T.size
    · rw [scope_modify ho]
      split
      · next h => exact Or.inr ⟨h, rfl⟩
      · exact Or.inl rfl
    · rw [scope_modify_of_le (Nat.le_of_not_lt ho)]
      exact Or.inl rfl
  · exact Or.inl rfl

/-- A later table of the same size has the same global scopes. -/
theorem Later.global (h : T.Later T') (hsize : T'.size = T.size)
    (hg : ∀ {t}, (T.scope t).kind = .global → (T.scope t).outer = [])
    (hk : (T'.scope t).kind = .global) : (T'.scope t).outer = [] := by
  by_cases ht : t < T.size
  · rw [h.outer t ht]
    exact hg (h.kind t ht ▸ hk)
  · rw [scope_of_le (hsize ▸ Nat.le_of_not_lt ht)]
    rfl

theorem global_push (hg : ∀ {t}, (T.scope t).kind = .global → (T.scope t).outer = [])
    (hne : k ≠ .global) (hk : ((T.push k s).scope t).kind = .global) :
    ((T.push k s).scope t).outer = [] := by
  rcases Nat.lt_trichotomy t T.size with ht | rfl | ht
  · rw [scope_push_of_lt ht] at hk ⊢
    exact hg hk
  · rw [scope_push_size] at hk
    exact absurd hk hne
  · rw [scope_of_le (by rwa [size_push])]
    rfl

theorem scope_initial : initial.scope t = .empty .global [] := by
  cases t <;> rfl

theorem once_initial : initial.Once := by
  refine ⟨nested_initial, fun h => ?_, fun t => ?_, fun h => ?_, fun _ => ?_⟩
  · rw [scope_initial] at h
    cases h
  · rw [scope_initial]
    exact List.nodup_nil
  · rw [scope_initial] at h
    cases h
  · rw [scope_initial]
    rfl

/-- A table that has the declarations of `T` and some of new names. -/
theorem Once.unique_later (h : T.Once) (hl : T.Later T') {d : ScopeId → String → Prop}
    (hd : ∀ {t n}, n ∈ (T'.scope t).declared → n ∈ (T.scope t).declared ∨ d t n ∧ ¬ T.Names n)
    (hnew : ∀ {t u n}, d t n → d u n → t = u ∨ T'.Opens .function t u ∨ T'.Opens .function u t)
    (ht : n ∈ (T'.scope t).declared) (hu : n ∈ (T'.scope u).declared) :
    t = u ∨ T'.Opens .function t u ∨ T'.Opens .function u t := by
  rcases hd ht with ht | ⟨ht, hn⟩
  · rcases hd hu with hu | ⟨-, hn⟩
    · have lt := lt_size_of_declared ht
      have lu := lt_size_of_declared hu
      exact (h.unique ht hu).imp_right fun h => h.imp (·.later hl lt lu) (·.later hl lu lt)
    · exact absurd ⟨t, ht⟩ hn
  · rcases hd hu with hu | ⟨hu, -⟩
    · exact absurd ⟨u, hu⟩ hn
    · exact hnew ht hu

/-- While new names are declared, no name is declared twice. -/
theorem Changes.once (h : Changes ns T T') (hns : ns.Nodup) (hnew : ∀ n ∈ ns, ¬ T.Names n)
    (hT : T.Once) : T'.Once := by
  induction h with
  | refl => exact hT
  | @append ns ms T T₁ T' h₁ h₂ ih ih' =>
    have hns := List.nodup_append.1 hns
    refine ih' hns.2.1 (fun n hn hm => ?_) (ih hns.1 (fun n hn => hnew n (List.mem_append_left _ hn)) hT)
    rcases h₁.names hm with hm | hm
    · exact hnew n (List.mem_append_right _ hn) hm
    · exact hns.2.2 n hm n hn rfl
  | perm _ hp ih => exact ih (hp.nodup_iff.2 hns) (fun n hn => hnew n (hp.mem_iff.1 hn)) hT
  | @block s T hs =>
    refine ⟨hT.nested.push hs _, fun ht hu => ?_, fun t => ?_, fun h => ?_,
      global_push hT.global (by simp)⟩
    · exact hT.unique_later (later_push T _ s) (d := fun _ _ => False)
        (fun h => Or.inl (declared_push ▸ h)) (fun h => h.elim) ht hu
    · rw [cells_push]
      exact hT.nodup t
    · rw [declared_push]
      exact hT.cells (cells_push ▸ h)
  | @declare s n T hs =>
    have hl : T.Later (T.modify s (·.declare n)) := extends_declare.later
    refine ⟨extends_declare.nested hT.nested, fun ht hu => ?_, fun t => ?_, fun h => ?_,
      hl.global size_modify hT.global⟩
    · refine hT.unique_later hl (d := fun t m => t = s ∧ m = n) (fun h => ?_)
        (fun h h' => Or.inl (h.1.trans h'.1.symm)) ht hu
      refine ((mem_declared_declare hs).1 h).imp_right fun h => ⟨h, ?_⟩
      rw [h.2]
      exact hnew n List.mem_cons_self
    · rw [cells_modify_declare]
      exact hT.nodup t
    · exact (mem_declared_declare hs).2 (Or.inl (hT.cells (cells_modify_declare ▸ h)))
  | @define s n ns T hs =>
    have hs' : s < (T.modify s (·.declare n)).size := by rwa [size_modify]
    have hl : T.Later ((T.modify s (·.declare n)).openFunction s (n :: ns)) :=
      extends_declare.later.trans (extends_openFunction hs').later
    have declared : T.Later (T.modify s (·.declare n)) := extends_declare.later
    have opened : (T.modify s (·.declare n)).Extends
        ((T.modify s (·.declare n)).openFunction s (n :: ns)) := extends_openFunction hs'
    have hopens : ((T.modify s (·.declare n)).openFunction s (n :: ns)).Opens .function
        (T.modify s (·.declare n)).size s :=
      ⟨(openFunction_scope hs').1, (openFunction_scope hs').2⟩
    have hcells {t : ScopeId} :
        (((T.modify s (·.declare n)).openFunction s (n :: ns)).scope t).cells = (T.scope t).cells :=
      cells_openFunction.trans cells_modify_declare
    refine ⟨opened.nested (extends_declare.nested hT.nested), fun ht hu => ?_, fun t => ?_,
      fun h => ?_, fun h => ?_⟩
    · refine hT.unique_later hl
        (d := fun t m => t = s ∧ m = n ∨ t = (T.modify s (·.declare n)).size ∧ m ∈ n :: ns)
        (fun h => ?_) ?_ ht hu
      · rcases mem_declared_opened.1 h with h | h
        · refine ((mem_declared_declare hs).1 h).imp_right fun h => ⟨Or.inl h, ?_⟩
          rw [h.2]
          exact hnew n List.mem_cons_self
        · exact Or.inr ⟨Or.inr h, hnew _ h.2⟩
      · rintro t u m (⟨rfl, rfl⟩ | ⟨rfl, -⟩) (⟨rfl, -⟩ | ⟨rfl, -⟩)
        · exact Or.inl rfl
        · exact Or.inr (Or.inr hopens)
        · exact Or.inr (Or.inl hopens)
        · exact Or.inl rfl
    · rw [hcells]
      exact hT.nodup t
    · exact mem_declared_opened.2 (Or.inl ((mem_declared_declare hs).2 (Or.inl (hT.cells (hcells ▸ h)))))
    · exact extends_declareAll.later.global size_declareAll
        (global_push (declared.global size_modify hT.global) (by simp)) h
  | @lambda s ns T hs =>
    have opened : T.Extends (T.openFunction s ns) := extends_openFunction hs
    refine ⟨opened.nested hT.nested, fun ht hu => ?_, fun t => ?_, fun h => ?_, fun h => ?_⟩
    · refine hT.unique_later opened.later (d := fun t m => t = T.size ∧ m ∈ ns) (fun h => ?_)
        (fun h h' => Or.inl (h.1.trans h'.1.symm)) ht hu
      exact (mem_declared_opened.1 h).imp_right fun h => ⟨h, hnew _ h.2⟩
    · rw [cells_openFunction]
      exact hT.nodup t
    · exact mem_declared_opened.2 (Or.inl (hT.cells (cells_openFunction ▸ h)))
    · exact extends_declareAll.later.global size_declareAll (global_push hT.global (by simp)) h
  | @capture s o n T ho =>
    have hdeclared : n ∈ (T.scope o).declared := by
      simpa [Scope.declares] using List.find?_some ho
    refine ⟨hT.nested.capture, fun ht hu => ?_, fun t => ?_, fun {t m} h => ?_,
      later_capture.global size_capture hT.global⟩
    · exact hT.unique_later later_capture (d := fun _ _ => False)
        (fun h => Or.inl (declared_capture ▸ h)) (fun h => h.elim) ht hu
    · rcases cells_of_capture (T := T) (s := s) (o := o) (n := n) (t := t) with h | ⟨-, h⟩
      · exact h ▸ hT.nodup t
      · rw [h, Scope.addName]
        split
        · exact hT.nodup t
        · next hc =>
          rw [List.contains_iff_mem] at hc
          refine List.nodup_append.2 ⟨hT.nodup t, by simp, fun a ha b hb hab => hc ?_⟩
          rwa [← List.mem_singleton.1 hb, ← hab]
    · rw [declared_capture]
      rcases cells_of_capture (T := T) (s := s) (o := o) (n := n) (t := t) with hc | ⟨rfl, hc⟩
      · exact hT.cells (hc ▸ h)
      · rw [hc, mem_addName] at h
        rcases h with h | rfl
        · exact hT.cells h
        · exact hdeclared

/-! ## Look-ups -/

/-- What comes after a scope in a chain is around it. -/
theorem Nested.outer_eq {as bs : List ScopeId} (hn : T.Nested) (hs : s < T.size)
    (hc : T.chain s = as ++ t :: bs) : (T.scope t).outer = bs := by
  obtain ⟨pre, hpre⟩ := hn.chain_of_mem hs (t := t) (by simp [hc])
  have hnodup := hn.nodup_chain hs
  have once {xs ys : List ScopeId} (hxy : T.chain s = xs ++ t :: ys) : t ∉ xs ∧ t ∉ ys := by
    rw [hxy] at hnodup
    obtain ⟨-, hy, hd⟩ := List.nodup_append.1 hnodup
    exact ⟨fun h => hd t h t List.mem_cons_self rfl, (List.nodup_cons.1 hy).1⟩
  exact ((List.append_cons_inj_of_notMem (once hpre).1 (once hpre).2).1 (hpre.symm.trans hc)).2.2

/-- The scopes on the way to `o` are those around `s` that lie strictly inside `o`. -/
theorem mem_pathTo (hn : T.Nested) (hs : s < T.size) (ho : o ∈ T.chain s) :
    t ∈ T.pathTo s o ↔ t ∈ T.chain s ∧ o ∈ (T.scope t).outer := by
  obtain ⟨path, hpath⟩ := hn.chain_of_mem hs ho
  have fresh : ∀ u ∈ path, u ≠ o := by
    have nodup := hn.nodup_chain hs
    rw [hpath] at nodup
    exact fun u hu => (List.nodup_append.1 nodup).2.2 u hu o List.mem_cons_self
  have hpathTo : T.pathTo s o = path := by
    rw [pathTo, hpath, List.takeWhile_append_of_pos (by simpa using fresh), chain]
    simp
  rw [hpathTo]
  constructor
  · intro ht
    obtain ⟨as, bs, rfl⟩ := List.append_of_mem ht
    refine ⟨hpath ▸ List.mem_append_left _ ht, ?_⟩
    have houter : (T.scope t).outer = bs ++ T.chain o :=
      hn.outer_eq hs (by rw [hpath, List.append_assoc, List.cons_append])
    exact houter ▸ List.mem_append_right _ List.mem_cons_self
  · rintro ⟨ht, hin⟩
    have hlt : o < t := hn.lt_of_mem_outer (hn.lt_of_mem hs ht) hin
    rw [hpath] at ht
    rcases List.mem_append.1 ht with ht | ht
    · exact ht
    · exact absurd (hn.le_of_mem (hn.lt_of_mem hs ho) ht) (Nat.not_le_of_lt hlt)

theorem declared_of_lookup (h : T.lookup s n = some o) : n ∈ (T.scope o).declared := by
  have := List.find?_some h
  simpa [Scope.declares] using this

/-- A block declares no name that is visible around it. -/
theorem Once.not_mem_block (hT : T.Once) (hb : T.Opens .block b s) (hlt : b < T.size)
    (ht : t ∈ T.chain s) (hd : n ∈ (T.scope t).declared) : n ∉ (T.scope b).declared := by
  have houter : t ∈ (T.scope b).outer := by
    have := (List.cons.inj hb.chain).2
    rwa [this]
  have hlt' := hT.nested.lt_of_mem_outer hlt houter
  intro hdb
  rcases hT.unique hd hdb with h | h | h
  · exact absurd h (Nat.ne_of_lt hlt')
  · have hmem : b ∈ (T.scope t).outer := by
      have := (List.cons.inj h.chain).2
      rw [this]
      exact List.mem_cons_self
    exact absurd hlt' (Nat.lt_asymm (hT.nested.lt_of_mem_outer (lt_size_of_declared hd) hmem))
  · cases hb.kind.symm.trans h.kind

/-- In a later table, the names that are declared have no other declarations. -/
def Settled (T T' : Scopes) : Prop :=
  ∀ {n t u}, n ∈ (T.scope t).declared → n ∈ (T'.scope u).declared → n ∈ (T.scope u).declared

theorem Changes.settled (h : Changes ns T T') (hnew : ∀ n ∈ ns, ¬ T.Names n) : T.Settled T' :=
  fun ht hu => (h.declared hu).resolve_right fun hn => hnew _ hn ⟨_, ht⟩

/-- What has been found is found ever after. -/
theorem Settled.lookup (h : T.Settled T') (hl : T.Later T') (hs : s < T.size)
    (ho : T.lookup s n = some o) : T'.lookup s n = some o := by
  have hod := declared_of_lookup ho
  rw [Scopes.lookup, hl.chain hs, ← ho, Scopes.lookup]
  congr 1
  funext t
  rw [Bool.eq_iff_iff, Scope.declares, Scope.declares, List.contains_iff_mem, List.contains_iff_mem]
  exact ⟨fun ht => h hod ht, fun ht => hl.declared t n (lt_size_of_declared ht) ht⟩

end Scopes

/-! ## The walk over forms -/

section

variable {P : Scopes → Prop} {T T' : Scopes} {s : ScopeId} {fs : List Form} {name : String}
  {binding : Binding}

theorem Walk.changes_target (h : Walk.target s name T = (binding, T')) : Scopes.Changes [] T T' := by
  unfold Walk.target at h
  split at h
  · cases h
    exact .refl
  · unfold Walk.refer at h
    split at h
    · next ho =>
      cases h
      exact .capture ho
    · cases h
      exact .refl

/-- The walk over forms declares their names. -/
theorem Walks.changes (h : Walks P T s fs T') (hs : s < T.size)
    (hm : Form.collectAll Form.malformed? s fs = []) :
    Scopes.Changes (Form.collectAll Form.declares? s fs) T T' := by
  induction h with
  | nil | number | string | boolean => exact .refl
  | malformed => cases hm
  | cons h₁ h₂ ih₁ ih₂ =>
    rw [Form.collectAll, List.append_eq_nil_iff] at hm
    have first := ih₁ hs (by simpa [Form.collectAll] using hm.1)
    rw [Form.collectAll, Form.collectAll, List.append_nil] at first
    exact first.append (ih₂ ((h₁.extends hs).lt hs) hm.2)
  | reference _ _ ht => exact Walk.changes_target ht
  | @block T s fs T' _ ih =>
    have inner := ih Scopes.lt_size_push (by simpa [Form.collectAll, Form.collect, Form.malformed?] using hm)
    have all := (Scopes.Changes.block hs).append inner
    simpa [Form.collectAll, Form.collect, Form.declares?] using all
  | @declare T s name init T' _ ih =>
    have inner := ih (by rwa [Scopes.size_modify])
      (by simpa [Form.collectAll, Form.collect, Form.malformed?] using hm)
    have all := (Scopes.Changes.declare (n := name) hs).append inner
    refine all.perm ?_
    simpa [Form.collectAll, Form.collect, Form.declares?] using (List.perm_append_comm : ([name] ++ _).Perm _)
  | @assign T s name binding value T₁ T' _ ht hw ih =>
    have first := Walk.changes_target ht
    have inner := ih (first.extends.lt hs)
      (by simpa [Form.collectAll, Form.collect, Form.malformed?] using hm)
    simpa [Form.collectAll, Form.collect, Form.declares?] using first.append inner
  | @define T s name params body U T' hU hw ih =>
    subst hU
    have inner := ih Scopes.lt_size_openFunction
      (by simpa [Form.collectAll, Form.collect, Form.malformed?] using hm)
    have opened : T.Changes (name :: params)
        ((T.modify s (·.declare name)).openFunction s (name :: params)) := .define hs
    have all := opened.append inner
    refine all.perm ?_
    simpa [Form.collectAll, Form.collect, Form.declares?] using
      (List.perm_append_comm : ((name :: params) ++ _).Perm _)
  | @lambda T s label params body T' _ _ hw ih =>
    have inner := ih Scopes.lt_size_openFunction
      (by simpa [Form.collectAll, Form.collect, Form.malformed?] using hm)
    have opened : T.Changes params (T.openFunction s params) := .lambda hs
    have all := opened.append inner
    refine all.perm ?_
    simpa [Form.collectAll, Form.collect, Form.declares?] using (List.perm_append_comm : (params ++ _).Perm _)
  | @forLoop T s init test modifier body T' _ ih =>
    exact (ih hs (by simp_all [Form.collectAll, Form.collect, Form.malformed?])).perm
      (Form.perm_forLoop _ rfl)
  | ifThen _ ih | ifElse _ ih | whileLoop _ ih | operation _ ih | call _ ih =>
    have all := ih hs (by simpa [Form.collectAll, Form.collect, Form.malformed?, and_assoc] using hm)
    simpa [Form.collectAll, Form.collect, Form.declares?] using all

end

end ByteLisp
