/-
  ByteLisp: what the walk finds is exact.

  * `Scopes.Crosses`: a function lies between a place and a scope around it;
  * `Scopes.Records`: a table says of its scopes just what the events of a walk say;
    each step of the walk keeps this (`Records.declare`, `Records.push`,
    `Records.refer`), and so does the whole walk (`Expr.records_resolve`);
  * `Expr.resolveProgram_exact`: the walk leaves the program as it is; its scopes are a
    tree, one for each node that opens a scope; references are bound to the nearest
    declaration before them, and the captured names are those that references take
    into a function.
-/
import ByteLisp.Proofs.Scope.Capture
import ByteLisp.Proofs.Scope.Events
import ByteLisp.Proofs.Scope.Once

namespace ByteLisp

/-! ## Functions between a place and a scope -/

/-- A function around the place `s` lies strictly inside the scope `o`. -/
def Scopes.Crosses (T : Scopes) (s o : ScopeId) : Prop :=
  ∃ f ∈ T.chain s, o ∈ (T.scope f).outer ∧ (T.scope f).kind = .function

/-- A reference takes a name of the scope `o`, which is not global, into a function. -/
def Mention.Captures (m : Mention) (T : Scopes) (o : ScopeId) : Prop :=
  m.binding = .reference (some o) ∧ (T.scope o).kind ≠ .global ∧ T.Crosses m.scope o

namespace Scopes

variable {T T' : Scopes} {s t o p : ScopeId} {n m : String} {k : Scope.Kind}

theorem captures_iff (hn : T.Nested) (hs : s < T.size) (ho : o ∈ T.chain s) :
    T.captures s o = true ↔ (T.scope o).kind ≠ .global ∧ T.Crosses s o := by
  simp [captures, Crosses, mem_pathTo hn hs ho, and_assoc]

theorem Later.crosses (h : T.Later T') (hn : T.Nested) (hs : s < T.size) :
    T'.Crosses s o ↔ T.Crosses s o := by
  unfold Crosses
  rw [h.chain hs]
  refine exists_congr fun f => and_congr_right fun hf => ?_
  have hlt := hn.lt_of_mem hs hf
  rw [h.outer f hlt, h.kind f hlt]

/-! ## What a reference records -/

theorem mem_cells_capture (ho : o < T.size) : n ∈ ((T.capture s o m).scope t).cells ↔
    n ∈ (T.scope t).cells ∨ t = o ∧ n = m ∧ T.captures s o = true := by
  by_cases hc : T.captures s o = true
  · constructor
    · intro h
      rcases cells_of_capture (T := T) (s := s) (o := o) (n := m) (t := t) with same | ⟨rfl, added⟩
      · exact Or.inl (same ▸ h)
      · rw [added, mem_addName] at h
        exact h.imp_right fun h => ⟨rfl, h, hc⟩
    · rintro (h | ⟨rfl, rfl, -⟩)
      · by_cases ht : t < T.size
        · exact later_capture.cells t n ht h
        · rw [scope_of_le (Nat.le_of_not_lt ht)] at h
          cases h
      · exact cells_capture hc ho
  · simp [capture, hc]

theorem mem_free_capture (hn : T.Nested) (hs : s < T.size) : n ∈ ((T.capture s o m).scope t).free ↔
    n ∈ (T.scope t).free ∨ n = m ∧ T.captures s o = true ∧ t ∈ T.pathTo s o := by
  refine ⟨free_of_capture, ?_⟩
  rintro (h | ⟨rfl, hc, ht⟩)
  · by_cases ht : t < T.size
    · exact later_capture.free t n ht h
    · rw [scope_of_le (Nat.le_of_not_lt ht)] at h
      cases h
  · exact free_capture hc (fun u hu => hn.lt_of_mem hs hu) ht

/-! ## Tables and events -/

/-- The scopes of a table are a tree below the global scope, and the events open them in their
    order, starting with the scope `first`. -/
structure Tree (first : ScopeId) (T : Scopes) (es : List Event) : Prop where
  pos : root < T.size
  global : (T.scope root).kind = .global
  outermost : (T.scope root).outer = []
  inside : ∀ t, root < t → t < T.size →
    (T.scope t).kind ≠ .global ∧ ∃ p < t, (T.scope t).outer = T.chain p
  opens : ∀ node t k parent, .opens node t k parent ∈ es →
    t < T.size ∧ (T.scope t).kind = k ∧ (T.scope t).outer = parent.elim [] T.chain ∧
      ∀ p ∈ parent, p < t
  start : first ≤ T.size
  order : (es.filterMap Event.opening?).map Prod.fst = (List.range T.size).drop first

/-- References are bound to the nearest scope that declares their name before them. -/
structure Nearest (T : Scopes) (es : List Event) : Prop where
  scope : ∀ m, .refers m ∈ es → m.scope < T.size
  name : ∀ m, .refers m ∈ es → isTruth m.name = false
  binding : ∀ pre m post, es = pre ++ .refers m :: post →
    m.binding = .reference ((T.chain m.scope).find? fun t => .declares t m.name ∈ pre)

/-- The captured names of a table are those that references take into a function. -/
structure Taken (T : Scopes) (es : List Event) : Prop where
  cells : ∀ t n, n ∈ (T.scope t).cells ↔ ∃ m, .refers m ∈ es ∧ m.name = n ∧ m.Captures T t
  free : ∀ t n, n ∈ (T.scope t).free ↔ ∃ m o, .refers m ∈ es ∧ m.name = n ∧ m.Captures T o ∧
    t ∈ T.chain m.scope ∧ o ∈ (T.scope t).outer

/-- A table says of its scopes what the events of a walk say. -/
structure Records (first : ScopeId) (T : Scopes) (es : List Event) : Prop where
  nested : T.Nested
  tree : T.Tree first es
  declared : ∀ t n, n ∈ (T.scope t).declared ↔ .declares t n ∈ es
  nearest : T.Nearest es
  taken : T.Taken es

variable {first : ScopeId} {es : List Event} {e : Event}

/-! ### The tree of scopes -/

theorem Tree.later (h : T.Tree first es) (hl : T.Later T') (hsize : T'.size = T.size)
    (he : ∀ node t k parent, e ≠ .opens node t k parent) :
    T'.Tree first (es ++ [e]) where
  pos := hsize ▸ h.pos
  global := by rw [hl.kind root h.pos, h.global]
  outermost := by rw [hl.outer root h.pos, h.outermost]
  inside t ht hlt := by
    rw [hsize] at hlt
    obtain ⟨hk, p, hp, ho⟩ := h.inside t ht hlt
    rw [hl.kind t hlt, hl.outer t hlt]
    exact ⟨hk, p, hp, by rw [ho, hl.chain (Nat.lt_trans hp hlt)]⟩
  opens node t k parent hmem := by
    have hmem := (List.mem_append.1 hmem).resolve_right fun h =>
      he node t k parent (List.mem_singleton.1 h).symm
    obtain ⟨hlt, hk, ho, hp⟩ := h.opens node t k parent hmem
    refine ⟨hsize ▸ hlt, by rw [hl.kind t hlt, hk], ?_, hp⟩
    rw [hl.outer t hlt, ho]
    cases parent with
    | none => rfl
    | some p => exact (hl.chain (Nat.lt_trans (hp p rfl) hlt)).symm
  start := hsize ▸ h.start
  order := by
    have none : e.opening? = none := by
      cases e with
      | opens node t k parent => exact absurd rfl (he node t k parent)
      | _ => rfl
    simp [List.filterMap_append, none, h.order, hsize]

theorem Tree.push (h : T.Tree first es) (hs : s < T.size) (hk : k ≠ .global) (node : Nat) :
    (T.push k s).Tree first (es ++ [.opens node T.size k (some s)]) := by
  have hl : T.Later (T.push k s) := later_push T k s
  refine ⟨?_, ?_, ?_, ?_, ?_, ?_, ?_⟩
  · exact Nat.lt_of_lt_of_le h.pos hl.size
  · rw [hl.kind root h.pos, h.global]
  · rw [hl.outer root h.pos, h.outermost]
  · intro t ht hlt
    rw [size_push] at hlt
    rcases Nat.lt_succ_iff_lt_or_eq.1 hlt with hlt | rfl
    · obtain ⟨hk, p, hp, ho⟩ := h.inside t ht hlt
      rw [hl.kind t hlt, hl.outer t hlt]
      exact ⟨hk, p, hp, by rw [ho, hl.chain (Nat.lt_trans hp hlt)]⟩
    · rw [scope_push_size]
      exact ⟨hk, s, hs, (hl.chain hs).symm⟩
  · intro node' t k' parent hmem
    rcases List.mem_append.1 hmem with hmem | hmem
    · obtain ⟨hlt, hk, ho, hp⟩ := h.opens node' t k' parent hmem
      refine ⟨Nat.lt_of_lt_of_le hlt hl.size, by rw [hl.kind t hlt, hk], ?_, hp⟩
      rw [hl.outer t hlt, ho]
      cases parent with
      | none => rfl
      | some p => exact (hl.chain (Nat.lt_trans (hp p rfl) hlt)).symm
    · cases List.mem_singleton.1 hmem
      rw [scope_push_size]
      refine ⟨lt_size_push, rfl, (hl.chain hs).symm, ?_⟩
      rintro p ⟨⟩
      exact hs
  · exact Nat.le_trans h.start hl.size
  · rw [List.filterMap_append, List.map_append, h.order, size_push, List.range_succ,
      List.drop_append_of_le_length (by simpa using h.start)]
    rfl

/-! ### Bindings and captured names -/

theorem Nearest.append (h : T.Nearest es) (hl : T.Later T')
    (he : ∀ m, e = .refers m → m.scope < T.size ∧ isTruth m.name = false ∧
      m.binding = .reference ((T.chain m.scope).find? fun t => .declares t m.name ∈ es)) :
    T'.Nearest (es ++ [e]) where
  scope m hm := by
    refine Nat.lt_of_lt_of_le ?_ hl.size
    rcases List.mem_append.1 hm with hm | hm
    · exact h.scope m hm
    · exact (he m (List.mem_singleton.1 hm).symm).1
  name m hm := by
    rcases List.mem_append.1 hm with hm | hm
    · exact h.name m hm
    · exact (he m (List.mem_singleton.1 hm).symm).2.1
  binding pre m post hes := by
    rcases List.eq_nil_or_concat post with rfl | ⟨post, e', rfl⟩
    · obtain ⟨rfl, hm⟩ := List.append_inj' hes rfl
      obtain ⟨hs, -, hb⟩ := he m (List.singleton_inj.1 hm)
      rw [hl.chain hs, hb]
    · rw [List.concat_eq_append, ← List.cons_append, ← List.append_assoc] at hes
      have hes : es = pre ++ .refers m :: post := (List.append_inj' hes rfl).1
      have hm : .refers m ∈ es := by simp [hes]
      rw [hl.chain (h.scope m hm), h.binding pre m post hes]

theorem Nearest.mem_chain {m : Mention} (h : T.Nearest es) (hm : .refers m ∈ es)
    (ho : m.binding = .reference (some o)) : o ∈ T.chain m.scope := by
  obtain ⟨pre, post, hes⟩ := List.append_of_mem hm
  rw [h.binding pre m post hes] at ho
  exact List.mem_of_find?_eq_some (Binding.reference.inj ho)

/-- What a reference captures does not change when the table grows. -/
theorem Nearest.captures {m : Mention} (h : T.Nearest es) (hn : T.Nested) (hl : T.Later T')
    (hm : .refers m ∈ es) : m.Captures T' o ↔ m.Captures T o := by
  have hs := h.scope m hm
  refine and_congr_right fun ho => ?_
  rw [hl.kind o (hn.lt_of_mem hs (h.mem_chain hm ho)), hl.crosses hn hs]

/-- A reference of the table passes the same scopes when the table grows. -/
theorem Nearest.passes {m : Mention} (h : T.Nearest es) (hn : T.Nested) (hl : T.Later T')
    (hm : .refers m ∈ es) : t ∈ T'.chain m.scope ∧ o ∈ (T'.scope t).outer ↔
      t ∈ T.chain m.scope ∧ o ∈ (T.scope t).outer := by
  have hs := h.scope m hm
  rw [hl.chain hs]
  exact and_congr_right fun ht => by rw [hl.outer t (hn.lt_of_mem hs ht)]

/-- A step that captures nothing. -/
theorem Taken.quiet (h : T.Taken es) (hb : T.Nearest es) (hn : T.Nested) (hl : T.Later T')
    (hcells : ∀ t, (T'.scope t).cells = (T.scope t).cells)
    (hfree : ∀ t, (T'.scope t).free = (T.scope t).free) (he : ∀ m, e ≠ .refers m) :
    T'.Taken (es ++ [e]) := by
  have old {m : Mention} : .refers m ∈ es ++ [e] ↔ .refers m ∈ es := by
    simp [(he m).symm]
  constructor
  · intro t n
    rw [hcells, h.cells]
    refine exists_congr fun m => ?_
    rw [old]
    exact and_congr_right fun hm => and_congr_right fun _ => (hb.captures hn hl hm).symm
  · intro t n
    rw [hfree, h.free]
    refine exists_congr fun m => exists_congr fun o => ?_
    rw [old]
    refine and_congr_right fun hm => and_congr_right fun _ => ?_
    rw [hb.captures hn hl hm, hb.passes hn hl hm]

/-- The name of a reference is captured if it crosses a function. -/
theorem Taken.capture {m : Mention} (h : T.Taken es) (hb : T.Nearest es) (hn : T.Nested)
    (hs : m.scope < T.size) (hm : m.binding = .reference (some o)) (ho : o ∈ T.chain m.scope) :
    (T.capture m.scope o m.name).Taken (es ++ [.refers m]) := by
  have hl : T.Later (T.capture m.scope o m.name) := later_capture
  have captures {o'} : m.Captures (T.capture m.scope o m.name) o' ↔
      o' = o ∧ T.captures m.scope o = true := by
    rw [captures_iff hn hs ho, Mention.Captures, hm]
    constructor
    · rintro ⟨hb, hk, hc⟩
      cases hb
      exact ⟨rfl, hl.kind o (hn.lt_of_mem hs ho) ▸ hk, (hl.crosses hn hs).1 hc⟩
    · rintro ⟨rfl, hk, hc⟩
      exact ⟨rfl, (hl.kind o' (hn.lt_of_mem hs ho)).symm ▸ hk, (hl.crosses hn hs).2 hc⟩
  constructor
  · intro t n
    rw [mem_cells_capture (hn.lt_of_mem hs ho), h.cells]
    simp only [List.mem_append, List.mem_singleton, Event.refers.injEq, or_and_right, exists_or,
      exists_eq_left, captures]
    refine or_congr (exists_congr fun m' => and_congr_right fun hm' => and_congr_right fun _ =>
      (hb.captures hn hl hm').symm) ?_
    constructor
    · rintro ⟨rfl, rfl, hc⟩
      exact ⟨rfl, rfl, hc⟩
    · rintro ⟨rfl, rfl, hc⟩
      exact ⟨rfl, rfl, hc⟩
  · intro t n
    rw [mem_free_capture hn hs, h.free, mem_pathTo hn hs ho]
    simp only [List.mem_append, List.mem_singleton, Event.refers.injEq, or_and_right, exists_or]
    refine or_congr (exists_congr fun m' => exists_congr fun o' => and_congr_right fun hm' =>
      and_congr_right fun _ => ?_) ?_
    · rw [hb.captures hn hl hm', hb.passes hn hl hm']
    · constructor
      · rintro ⟨rfl, hc, ht, hin⟩
        refine ⟨m, o, rfl, rfl, captures.2 ⟨rfl, hc⟩, hl.chain hs ▸ ht, ?_⟩
        rwa [hl.outer t (hn.lt_of_mem hs ht)]
      · rintro ⟨_, o', rfl, rfl, hc, ht, hin⟩
        obtain ⟨rfl, hc⟩ := captures.1 hc
        rw [hl.chain hs] at ht
        exact ⟨rfl, hc, ht, hl.outer t (hn.lt_of_mem hs ht) ▸ hin⟩

/-- A reference that no scope declares captures nothing. -/
theorem Taken.unbound {m : Mention} (h : T.Taken es) (hm : m.binding = .reference none) :
    T.Taken (es ++ [.refers m]) := by
  have captures {o} : ¬ m.Captures T o := by
    rintro ⟨hb, -⟩
    rw [hm] at hb
    cases hb
  constructor
  · intro t n
    simp [h.cells, or_and_right, exists_or, captures]
  · intro t n
    simp [h.free, or_and_right, exists_or, captures]

/-! ### Steps of the walk -/

theorem Records.declare (h : T.Records first es) (hs : s < T.size) :
    (T.modify s (·.declare n)).Records first (es ++ [.declares s n]) where
  nested := h.nested.modify (adds_declare n)
  tree := h.tree.later (later_modify s (adds_declare n)) size_modify (by simp)
  declared t m := by
    rw [mem_declared_declare hs, h.declared]
    simp
  nearest := h.nearest.append (later_modify s (adds_declare n)) (by simp)
  taken := h.taken.quiet h.nearest h.nested (later_modify s (adds_declare n))
    (fun _ => cells_modify_declare) (fun _ => free_declare) (by simp)

theorem Records.declareAll (h : T.Records first es) (hs : s < T.size) (ns : List String) :
    (T.declareAll s ns).Records first (es ++ ns.map (Event.declares s)) := by
  induction ns generalizing T es with
  | nil => exact (List.append_nil es).symm ▸ h
  | cons n ns ih =>
    rw [List.map_cons, List.append_cons]
    exact ih (h.declare hs) (size_modify.symm ▸ hs)

theorem free_push : ((T.push k s).scope t).free = (T.scope t).free := by
  rcases Nat.lt_trichotomy t T.size with ht | rfl | ht
  · rw [scope_push_of_lt ht]
  · rw [scope_push_size, scope_of_le (Nat.le_refl _)]
    rfl
  · rw [scope_of_le (Nat.le_of_lt ht), scope_of_le (by rwa [size_push])]

theorem Records.push (h : T.Records first es) (hs : s < T.size) (hk : k ≠ .global) (node : Nat) :
    (T.push k s).Records first (es ++ [.opens node T.size k (some s)]) where
  nested := h.nested.push hs k
  tree := h.tree.push hs hk node
  declared t n := by
    rw [declared_push, h.declared]
    simp
  nearest := h.nearest.append (later_push T k s) (by simp)
  taken := h.taken.quiet h.nearest h.nested (later_push T k s)
    (fun _ => cells_push) (fun _ => free_push) (by simp)

theorem Records.refer (h : T.Records first es) (hs : s < T.size) (hname : isTruth n = false)
    (node : Nat) :
    (Walk.refer s n T).2.Records first (es ++ [.refers ⟨node, n, (Walk.refer s n T).1, s⟩]) := by
  have hx : T.Extends (Walk.refer s n T).2 := extends_refer
  have hlookup : T.lookup s n = (T.chain s).find? fun t => .declares t n ∈ es := by
    unfold lookup Scope.declares
    congr 1
    funext t
    rw [Bool.eq_iff_iff, List.contains_iff_mem, decide_eq_true_iff]
    exact h.declared t n
  refine ⟨hx.nested h.nested, h.tree.later hx.later ?_ (by simp), fun t m => ?_,
    h.nearest.append hx.later ?_, ?_⟩
  · unfold Walk.refer
    split
    · exact size_capture
    · rfl
  · rw [declared_refer, h.declared]
    simp
  · rintro m ⟨⟩
    refine ⟨hs, hname, ?_⟩
    rw [← hlookup]
    unfold Walk.refer
    split
    · next o ho => exact congrArg Binding.reference ho.symm
    · next ho => exact congrArg Binding.reference ho.symm
  · unfold Walk.refer
    split
    · next o ho =>
      let m : Mention := ⟨node, n, .reference (some o), s⟩
      have hs : m.scope < T.size := hs
      exact h.taken.capture h.nearest h.nested hs rfl (lookup_mem ho)
    · exact h.taken.unbound rfl

end Scopes

/-! ## The whole walk -/

namespace Expr

variable {first : ScopeId}

mutual

/-- The walk over an expression records its events. -/
theorem records_resolve (s : ScopeId) (base : Nat) (e : Expr) (T : Scopes) (es : List Event)
    (hs : s < T.size) (h : T.Records first es) :
    (resolve s e T).2.Records first (es ++ Resolved.eventsFrom s base (resolve s e T).1) := by
  cases e with
  | number x => exact (List.append_nil es).symm ▸ h
  | string text => exact (List.append_nil es).symm ▸ h
  | symbol name =>
    rw [resolve_symbol, Resolved.eventsFrom]
    unfold Walk.target
    split
    · exact (List.append_nil es).symm ▸ h
    · next hname => exact h.refer hs (Bool.eq_false_iff.2 hname) base
  | list items =>
    have outside := h.declareAll hs (Visit.ofItems items).outside
    have hs' : s < (T.declareAll s (Visit.ofItems items).outside).size :=
      Scopes.size_declareAll.symm ▸ hs
    cases ho : (Visit.ofItems items).opens with
    | none =>
      have inside := records_resolveEntries s base (Visit.ofItems items).skip items _ _ hs' outside
      simpa [resolve_stays ho, Resolved.eventsFrom, eraseEntries_resolve, ho, Visit.inside_eq_nil ho]
        using inside
    | some kind =>
      have opened := outside.push hs' (Visit.ne_global ho) (base + sizeEntries items)
      rw [Scopes.size_declareAll] at opened
      have hlt : T.size < ((T.declareAll s (Visit.ofItems items).outside).push kind s).size := by
        rw [Scopes.size_push, Scopes.size_declareAll]
        exact Nat.lt_succ_self _
      have declared := opened.declareAll hlt (Visit.ofItems items).inside
      have inside := records_resolveEntries T.size base (Visit.ofItems items).skip items _ _
        (Nat.lt_of_lt_of_eq hlt Scopes.size_declareAll.symm) declared
      simpa [resolve_opens ho, Resolved.eventsFrom, eraseEntries_resolve, ho] using inside

theorem records_resolveEntries (s : ScopeId) (base skip : Nat) (items : List Expr) (T : Scopes)
    (es : List Event) (hs : s < T.size) (h : T.Records first es) :
    (resolveEntries s skip items T).2.Records first
      (es ++ Resolved.entryEvents s base skip (resolveEntries s skip items T).1) := by
  cases items with
  | nil =>
    have none : es ++ Resolved.entryEvents s base skip (resolveEntries s skip [] T).1 = es := by
      cases skip <;> exact List.append_nil es
    rw [none]
    cases skip <;> exact h
  | cons e items =>
    cases skip with
    | zero =>
      have head := records_resolve s base e T es hs h
      have rest := records_resolveEntries s (base + e.size) 0 items _ _
        ((resolve_extends s e T hs).lt hs) head
      simpa [resolveEntries, Resolved.entryEvents, Resolved.erase_resolve] using rest
    | succ skip =>
      have rest := records_resolveEntries s (base + e.size) skip items T es hs h
      simpa [resolveEntries, Resolved.entryEvents, Resolved.erase_plain] using rest

end

/-- Whether a program is a list headed by `begin`, which opens the global scope. -/
def isBlock : Expr → Bool
  | .list items => Head.ofItems? items = some .block
  | _ => false

theorem records_initial : Scopes.initial.Records 1 [] where
  nested := Scopes.nested_initial
  tree := by
    refine ⟨Nat.zero_lt_one, rfl, rfl, fun t ht hlt => ?_, by simp, Nat.le_refl 1, rfl⟩
    exact absurd (Nat.lt_one_iff.1 hlt) (Nat.ne_of_gt ht)
  declared := by simp [Scopes.scope_initial, Scope.empty]
  nearest := ⟨by simp, by simp, by simp⟩
  taken := ⟨by simp [Scopes.scope_initial, Scope.empty], by simp [Scopes.scope_initial, Scope.empty]⟩

/-- A program that is a block opens the global scope. -/
theorem records_root (node : Nat) :
    Scopes.initial.Records 0 [.opens node Scopes.root .global none] where
  nested := Scopes.nested_initial
  tree := by
    refine ⟨Nat.zero_lt_one, rfl, rfl, records_initial.tree.inside, ?_, Nat.zero_le 1, rfl⟩
    simp only [List.mem_singleton, Event.opens.injEq]
    rintro _ t k parent ⟨-, rfl, rfl, rfl⟩
    exact ⟨Nat.zero_lt_one, rfl, rfl, by simp⟩
  declared := by simp [Scopes.scope_initial, Scope.empty]
  nearest := ⟨by simp, by simp, fun pre m post h => by simp [List.singleton_eq_append_iff] at h⟩
  taken := ⟨by simp [Scopes.scope_initial, Scope.empty], by simp [Scopes.scope_initial, Scope.empty]⟩

theorem resolveProgram_of_block {items : List Expr} (h : Head.ofItems? items = some .block) :
    resolveProgram (.list items) =
      (.list (some Scopes.root) (resolveEntries Scopes.root 1 items .initial).1,
        (resolveEntries Scopes.root 1 items .initial).2) := by
  simp [resolveProgram, resolveRoot, StateT.run, h]

theorem resolveProgram_of_not_block {e : Expr} (h : e.isBlock = false) :
    e.resolveProgram = resolve Scopes.root e .initial := by
  unfold resolveProgram StateT.run
  cases e with
  | list items =>
    have hh : Head.ofItems? items ≠ some .block := by simpa [isBlock] using h
    rw [resolveRoot]
    cases hd : Head.ofItems? items with
    | none => rfl
    | some head =>
      cases head with
      | block => exact absurd hd hh
      | _ => rfl
  | _ => rfl

theorem events_of_not_block {r : Resolved} (h : r.erase.isBlock = false) :
    r.events = Resolved.eventsFrom Scopes.root 0 r := by
  unfold Resolved.events
  split
  · split
    · next hb => simp [isBlock, Resolved.erase, hb] at h
    · rfl
  · rfl

/-- A program is walked over like any other expression, or its entries in the global scope. -/
theorem resolveProgram_cases (e : Expr) :
    (e.isBlock = false ∧ e.resolveProgram = resolve Scopes.root e .initial ∧
      e.resolveProgram.1.events = Resolved.eventsFrom Scopes.root 0 e.resolveProgram.1) ∨
    e.isBlock = true ∧ ∃ items, let entries := resolveEntries Scopes.root 1 items .initial
      e.resolveProgram = (.list (some Scopes.root) entries.1, entries.2) ∧
      e.resolveProgram.1.events = .opens (sizeEntries items) Scopes.root .global none ::
        Resolved.entryEvents Scopes.root 0 1 entries.1 := by
  cases hb : e.isBlock with
  | false =>
    have hevents : e.resolveProgram.1.events =
        Resolved.eventsFrom Scopes.root 0 e.resolveProgram.1 :=
      events_of_not_block (by rwa [Resolved.erase_resolveProgram])
    exact Or.inl ⟨rfl, resolveProgram_of_not_block hb, hevents⟩
  | true =>
    cases e with
    | list items =>
      have hh : Head.ofItems? items = some .block := by simpa [isBlock] using hb
      refine Or.inr ⟨rfl, items, resolveProgram_of_block hh, ?_⟩
      simp only [resolveProgram_of_block hh, Resolved.events, eraseEntries_resolve, hh]
    | _ => cases hb

/-- The table of a program says of its scopes what the events of the walk say. -/
theorem records_resolveProgram (e : Expr) :
    e.resolveProgram.2.Records (if e.isBlock then 0 else 1) e.resolveProgram.1.events := by
  have hs : Scopes.root < Scopes.initial.size := Nat.zero_lt_one
  rcases e.resolveProgram_cases with ⟨hb, hprogram, hevents⟩ | ⟨hb, items, hprogram, hevents⟩
  · rw [hb, hevents, hprogram]
    exact records_resolve Scopes.root 0 e .initial [] hs records_initial
  · rw [hb, hevents, hprogram]
    exact records_resolveEntries Scopes.root 0 1 items .initial _ hs (records_root _)

theorem openings_resolveProgram (e : Expr) :
    e.resolveProgram.1.openings.Perm (e.resolveProgram.1.events.filterMap Event.opening?) := by
  rcases e.resolveProgram_cases with ⟨-, hprogram, hevents⟩ | ⟨-, items, hprogram, hevents⟩
  · rw [hevents, hprogram]
    exact (openings_resolve Scopes.root 0 e .initial).symm
  · have openings := openings_resolveEntries Scopes.root 0 1 items .initial
    rw [hevents, hprogram, Resolved.openings, Resolved.openingsFrom, Resolved.entryOpenings_snd,
      eraseEntries_resolve, Nat.zero_add]
    exact (List.perm_append_singleton ..).trans (openings.symm.cons _)

theorem mentions_resolveProgram (e : Expr) :
    e.resolveProgram.1.events.filterMap Event.mention? =
      e.resolveProgram.1.mentions.filter Mention.isBound := by
  rcases e.resolveProgram_cases with ⟨-, hprogram, hevents⟩ | ⟨-, items, hprogram, hevents⟩
  · rw [hevents, hprogram]
    exact mentions_resolve Scopes.root 0 e .initial
  · rw [hevents, hprogram, Resolved.mentions, Resolved.mentionsFrom]
    exact mentions_resolveEntries Scopes.root 0 1 items .initial

/-- Scope analysis is exact: it leaves the program as it is, the scopes are a tree and belong to the
    nodes that open them, each reference is bound to the nearest scope that declared its name before,
    and a name is captured just where a reference takes it into a function. -/
theorem resolveProgram_exact (e : Expr) :
    let r := e.resolveProgram.1
    let T := e.resolveProgram.2
    r.erase = e ∧
    (T.Tree (if e.isBlock then 0 else 1) r.events ∧
      r.openings.Perm (r.events.filterMap Event.opening?) ∧ (r.openings.map Prod.snd).Nodup) ∧
    (T.Nearest r.events ∧ r.events.filterMap Event.mention? = r.mentions.filter Mention.isBound) ∧
    T.Taken r.events := by
  have records := e.records_resolveProgram
  exact ⟨Resolved.erase_resolveProgram e,
    ⟨records.tree, e.openings_resolveProgram, Resolved.nodup_openings _⟩,
    ⟨records.nearest, e.mentions_resolveProgram⟩, records.taken⟩

end Expr

end ByteLisp
