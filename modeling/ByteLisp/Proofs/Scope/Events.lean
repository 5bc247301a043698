/-
  ByteLisp: the walk as a list of events.

  The events of a walk are read off the resolved program alone, without the table of
  scopes: a node opens a scope, a scope declares a name, a symbol refers to a name.

  * `Visit` is what the walk does at a list before it enters the entries;
  * `Resolved.events` lists the events of the walk over a program in order;
  * `openings_perm`, `mentions_events`: the nodes that have scopes are those that
    open one in some event, and the symbols that have bindings those that refer;
  * `sorted_openings`: no node opens two scopes.
-/
import ByteLisp.Proofs.Scope.Declared
import ByteLisp.Scope.Survey

namespace ByteLisp

/-! ## Events -/

/-- What a walk does at a list. -/
structure Visit where
  /-- The number of entries at the start that it does not enter. -/
  skip : Nat
  /-- The kind of the scope that the list opens for its entries. -/
  opens : Option Scope.Kind
  /-- The names that it declares in the scope in which the list stands. -/
  outside : List String
  /-- The names that it declares in the scope that the list opens. -/
  inside : List String

/-- The visit of a list with a head. -/
def Visit.ofHead (items : List Expr) : Option Head → Visit
  | some .block => ⟨1, some .block, [], []⟩
  | some .declare => ⟨2, none, Expr.symbolAt items 1, []⟩
  | some .define =>
    ⟨3, some .function, Expr.symbolAt items 1, Expr.symbolAt items 1 ++ Expr.symbolsAt items 2⟩
  | some .lambda => ⟨2, some .function, [], Expr.symbolsAt items 1⟩
  | some _ => ⟨1, none, [], []⟩
  | none => ⟨0, none, [], []⟩

/-- The visit of a list. -/
def Visit.ofItems (items : List Expr) : Visit := .ofHead items (Head.ofItems? items)

/-- What happens on a walk. -/
inductive Event where
  /-- A node opens a scope of a kind in another scope. -/
  | opens (node : Nat) (scope : ScopeId) (kind : Scope.Kind) (parent : Option ScopeId)
  /-- A scope declares a name. -/
  | declares (scope : ScopeId) (name : String)
  /-- A symbol refers to a name. -/
  | refers (symbol : Mention)
deriving Repr, DecidableEq

/-- The scope that is opened, with the node that opens it. -/
def Event.opening? : Event → Option (ScopeId × Nat)
  | opens node scope _ _ => some (scope, node)
  | _ => none

/-- The symbol that refers to a name. -/
def Event.mention? : Event → Option Mention
  | refers m => some m
  | _ => none

/-- Whether the walk took a symbol for a reference. -/
def Mention.isBound (m : Mention) : Bool := m.binding ≠ .unbound

namespace Resolved

mutual

/-- The events of the walk over an expression in the scope `s` whose nodes are numbered
    from `base`. -/
def eventsFrom (s : ScopeId) (base : Nat) : Resolved → List Event
  | .symbol name binding => if isTruth name then [] else [.refers ⟨base, name, binding, s⟩]
  | .list scope items =>
    let visit := Visit.ofItems (eraseEntries items)
    let inner := scope.getD s
    let opened := visit.opens.toList.map fun kind =>
      Event.opens (base + Expr.sizeEntries (eraseEntries items)) inner kind (some s)
    visit.outside.map (Event.declares s) ++ opened ++ visit.inside.map (Event.declares inner) ++
      entryEvents inner base visit.skip items
  | _ => []

/-- The events of the walk over the entries of a list but for the first few. -/
def entryEvents (s : ScopeId) (base : Nat) : Nat → List Resolved → List Event
  | _, [] => []
  | 0, r :: rs => eventsFrom s base r ++ entryEvents s (base + r.erase.size) 0 rs
  | skip + 1, r :: rs => entryEvents s (base + r.erase.size) skip rs

end

/-- The events of the walk over a program: a list headed by `begin` opens the global scope. -/
def events (r : Resolved) : List Event :=
  match r with
  | .list (some s) items =>
    match Head.ofItems? (eraseEntries items) with
    | some .block =>
      .opens (Expr.sizeEntries (eraseEntries items)) s .global none :: entryEvents s 0 1 items
    | _ => eventsFrom Scopes.root 0 r
  | _ => eventsFrom Scopes.root 0 r

end Resolved

/-! ## The walk at a list -/

/-- A list that opens no scope declares nothing in one. -/
theorem Visit.inside_eq_nil {items : List Expr} (h : (ofItems items).opens = none) :
    (ofItems items).inside = [] := by
  unfold ofItems at h ⊢
  cases hh : Head.ofItems? items with
  | none => rfl
  | some head =>
    rw [hh] at h
    cases head with
    | block | define | lambda => cases h
    | _ => rfl

/-- Lists do not open the global scope. -/
theorem Visit.ne_global {items : List Expr} {kind : Scope.Kind} (h : (ofItems items).opens = some kind) :
    kind ≠ .global := by
  unfold ofItems at h
  cases hh : Head.ofItems? items with
  | none => simp [hh, ofHead] at h
  | some head =>
    rw [hh] at h
    cases head with
    | block | define | lambda =>
      cases h
      exact Scope.Kind.noConfusion
    | _ => cases h

namespace Expr

variable {T : Scopes} {s : ScopeId} {items : List Expr}

/-- The walk over a list that opens a scope. -/
theorem resolve_opens {kind : Scope.Kind} (h : (Visit.ofItems items).opens = some kind) :
    let visit := Visit.ofItems items
    let entries := resolveEntries T.size visit.skip items
      (((T.declareAll s visit.outside).push kind s).declareAll T.size visit.inside)
    resolve s (.list items) T = (.list (some T.size) entries.1, entries.2) := by
  have size : T.size = (T.declareAll s (Visit.ofItems items).outside).size :=
    Scopes.size_declareAll.symm
  rw [resolve, size]
  unfold Visit.ofItems at h ⊢
  cases hh : Head.ofItems? items with
  | none => simp [hh, Visit.ofHead] at h
  | some head =>
    rw [hh] at h
    cases head with
    | block | lambda =>
      cases h
      rfl
    | define =>
      cases h
      simp only [Visit.ofHead, Scopes.declareAll_append]
      rfl
    | _ => cases h

/-- The walk over a list that opens no scope. -/
theorem resolve_stays (h : (Visit.ofItems items).opens = none) :
    let visit := Visit.ofItems items
    let entries := resolveEntries s visit.skip items (T.declareAll s visit.outside)
    resolve s (.list items) T = (.list none entries.1, entries.2) := by
  rw [resolve]
  unfold Visit.ofItems at h ⊢
  cases hh : Head.ofItems? items with
  | none => rfl
  | some head =>
    rw [hh] at h
    cases head with
    | block | lambda | define => cases h
    | _ => rfl

end Expr

/-! ## Scopes and bindings at nodes -/

namespace Resolved

variable {s : ScopeId} {base n : Nat}

mutual

theorem openingsFrom_snd (base : Nat) (r : Resolved) : (openingsFrom base r).2 = r.erase.size := by
  cases r with
  | list scope items =>
    simp [openingsFrom, erase, Expr.size, entryOpenings_snd base items]
  | _ => rfl

theorem entryOpenings_snd (base : Nat) (rs : List Resolved) :
    (entryOpenings base rs).2 = Expr.sizeEntries (eraseEntries rs) := by
  cases rs with
  | nil => rfl
  | cons r rs =>
    simp [entryOpenings, eraseEntries, Expr.sizeEntries, openingsFrom_snd base r, entryOpenings_snd _ rs]

end

mutual

theorem mentionsFrom_snd (s : ScopeId) (base : Nat) (r : Resolved) :
    (mentionsFrom s base r).2 = r.erase.size := by
  cases r with
  | list scope items =>
    simp [mentionsFrom, erase, Expr.size, entryMentions_snd _ base items]
  | _ => rfl

theorem entryMentions_snd (s : ScopeId) (base : Nat) (rs : List Resolved) :
    (entryMentions s base rs).2 = Expr.sizeEntries (eraseEntries rs) := by
  cases rs with
  | nil => rfl
  | cons r rs =>
    simp [entryMentions, eraseEntries, Expr.sizeEntries, mentionsFrom_snd s base r,
      entryMentions_snd s _ rs]

end

mutual

/-- A node that opens a scope is one of those numbered, and nodes come in their order. -/
theorem sorted_openingsFrom (base : Nat) (r : Resolved) :
    ((openingsFrom base r).1.map Prod.snd).Pairwise (· < ·) ∧
      ∀ n ∈ (openingsFrom base r).1.map Prod.snd, base ≤ n ∧ n < base + r.erase.size := by
  cases r with
  | list scope items =>
    obtain ⟨sorted, bounds⟩ := sorted_entryOpenings base items
    simp only [openingsFrom, entryOpenings_snd, List.map_append, erase, Expr.size]
    refine ⟨List.pairwise_append.2 ⟨sorted, ?_, ?_⟩, ?_⟩
    · cases scope <;> simp
    · intro n hn m hm
      have := (bounds n hn).2
      cases scope <;> simp_all
    · intro n hn
      rcases List.mem_append.1 hn with hn | hn
      · have := bounds n hn
        omega
      · cases scope <;> simp_all
  | _ => simp [openingsFrom]

theorem sorted_entryOpenings (base : Nat) (rs : List Resolved) :
    ((entryOpenings base rs).1.map Prod.snd).Pairwise (· < ·) ∧
      ∀ n ∈ (entryOpenings base rs).1.map Prod.snd,
        base ≤ n ∧ n < base + Expr.sizeEntries (eraseEntries rs) := by
  cases rs with
  | nil => simp [entryOpenings]
  | cons r rs =>
    obtain ⟨sorted, bounds⟩ := sorted_openingsFrom base r
    obtain ⟨sorted', bounds'⟩ := sorted_entryOpenings (base + r.erase.size) rs
    simp only [entryOpenings, openingsFrom_snd, List.map_append, eraseEntries, Expr.sizeEntries]
    refine ⟨List.pairwise_append.2 ⟨sorted, sorted', ?_⟩, ?_⟩
    · intro n hn m hm
      exact Nat.lt_of_lt_of_le (bounds n hn).2 (bounds' m hm).1
    · intro n hn
      rcases List.mem_append.1 hn with hn | hn
      · have := bounds n hn
        omega
      · have := bounds' n hn
        omega

end

/-- Each node opens at most one scope. -/
theorem nodup_openings (r : Resolved) : (r.openings.map Prod.snd).Nodup :=
  (sorted_openingsFrom 0 r).1.imp Nat.ne_of_lt

mutual

theorem openingsFrom_plain (base : Nat) (e : Expr) : (openingsFrom base (plain e)).1 = [] := by
  cases e with
  | list items => simp [plain, openingsFrom, entryOpenings_plain base items]
  | _ => rfl

theorem entryOpenings_plain (base : Nat) (es : List Expr) :
    (entryOpenings base (plainEntries es)).1 = [] := by
  cases es with
  | nil => rfl
  | cons e es => simp [plainEntries, entryOpenings, openingsFrom_plain, entryOpenings_plain _ es]

end

mutual

theorem mentionsFrom_plain (s : ScopeId) (base : Nat) (e : Expr) :
    (mentionsFrom s base (plain e)).1.filter Mention.isBound = [] := by
  cases e with
  | list items => simp [plain, mentionsFrom, entryMentions_plain]
  | symbol name => rfl
  | _ => rfl

theorem entryMentions_plain (s : ScopeId) (base : Nat) (es : List Expr) :
    (entryMentions s base (plainEntries es)).1.filter Mention.isBound = [] := by
  cases es with
  | nil => rfl
  | cons e es =>
    simp [plainEntries, entryMentions, List.filter_append, mentionsFrom_plain s base e,
      entryMentions_plain s _ es]

end

end Resolved

namespace Expr

variable {s : ScopeId} {base : Nat}

theorem eraseEntries_resolve (s : ScopeId) (skip : Nat) (es : List Expr) (T : Scopes) :
    Resolved.eraseEntries (resolveEntries s skip es T).1 = es :=
  Resolved.eraseEntries_resolveEntries s skip es T

mutual

/-- The nodes with scopes are those that open a scope. -/
theorem openings_resolve (s : ScopeId) (base : Nat) (e : Expr) (T : Scopes) :
    ((Resolved.eventsFrom s base (resolve s e T).1).filterMap Event.opening?).Perm
      (Resolved.openingsFrom base (resolve s e T).1).1 := by
  cases e with
  | number x => rfl
  | string text => rfl
  | symbol name =>
    rw [resolve_symbol, Resolved.eventsFrom]
    split <;> rfl
  | list items =>
    have declared (t : ScopeId) (names : List String) :
        (names.map (Event.declares t)).filterMap Event.opening? = [] := by
      simp [List.filterMap_map, Function.comp_def, Event.opening?]
    cases ho : (Visit.ofItems items).opens with
    | none =>
      have inside := openings_resolveEntries s base (Visit.ofItems items).skip items
        (T.declareAll s (Visit.ofItems items).outside)
      simpa [resolve_stays ho, Resolved.eventsFrom, Resolved.openingsFrom, eraseEntries_resolve, ho,
        List.filterMap_append, declared] using inside
    | some kind =>
      let U := ((T.declareAll s (Visit.ofItems items).outside).push kind s).declareAll T.size
        (Visit.ofItems items).inside
      have inside := openings_resolveEntries T.size base (Visit.ofItems items).skip items U
      have node := (List.perm_append_singleton (T.size, base + sizeEntries items)
        (Resolved.entryOpenings base
          (resolveEntries T.size (Visit.ofItems items).skip items U).1).1).symm
      simpa [resolve_opens ho, Resolved.eventsFrom, Resolved.openingsFrom, eraseEntries_resolve, ho,
        List.filterMap_append, declared, Event.opening?, Resolved.entryOpenings_snd] using
        (inside.cons _).trans node

theorem openings_resolveEntries (s : ScopeId) (base skip : Nat) (es : List Expr) (T : Scopes) :
    ((Resolved.entryEvents s base skip (resolveEntries s skip es T).1).filterMap Event.opening?).Perm
      (Resolved.entryOpenings base (resolveEntries s skip es T).1).1 := by
  cases es with
  | nil => cases skip <;> rfl
  | cons e es =>
    cases skip with
    | zero =>
      have first := openings_resolve s base e T
      have rest := openings_resolveEntries s (base + e.size) 0 es (resolve s e T).2
      simpa [resolveEntries, Resolved.entryEvents, Resolved.entryOpenings, Resolved.openingsFrom_snd,
        List.filterMap_append, Resolved.erase_resolve] using first.append rest
    | succ skip =>
      have rest := openings_resolveEntries s (base + e.size) skip es T
      simpa [resolveEntries, Resolved.entryEvents, Resolved.entryOpenings, Resolved.openingsFrom_snd,
        Resolved.openingsFrom_plain, Resolved.erase_plain] using rest

end

mutual

/-- The symbols with bindings are those that refer to a name. -/
theorem mentions_resolve (s : ScopeId) (base : Nat) (e : Expr) (T : Scopes) :
    (Resolved.eventsFrom s base (resolve s e T).1).filterMap Event.mention? =
      (Resolved.mentionsFrom s base (resolve s e T).1).1.filter Mention.isBound := by
  cases e with
  | number x => rfl
  | string text => rfl
  | symbol name =>
    rw [resolve_symbol, Resolved.eventsFrom, Resolved.mentionsFrom]
    unfold Walk.target
    split
    · rfl
    · have bound : (Walk.refer s name T).1 ≠ .unbound := by
        unfold Walk.refer
        split <;> exact Binding.noConfusion
      simp [Mention.isBound, Event.mention?, bound]
  | list items =>
    have declared (t : ScopeId) (names : List String) :
        (names.map (Event.declares t)).filterMap Event.mention? = [] := by
      simp [List.filterMap_map, Function.comp_def, Event.mention?]
    cases ho : (Visit.ofItems items).opens with
    | none =>
      have inside := mentions_resolveEntries s base (Visit.ofItems items).skip items
        (T.declareAll s (Visit.ofItems items).outside)
      simpa [resolve_stays ho, Resolved.eventsFrom, Resolved.mentionsFrom, eraseEntries_resolve, ho,
        List.filterMap_append, declared] using inside
    | some kind =>
      have inside := mentions_resolveEntries T.size base (Visit.ofItems items).skip items
        (((T.declareAll s (Visit.ofItems items).outside).push kind s).declareAll T.size
          (Visit.ofItems items).inside)
      have opened : (Event.opens (base + sizeEntries items) T.size kind (some s)).mention? = none := rfl
      simpa [resolve_opens ho, Resolved.eventsFrom, Resolved.mentionsFrom, eraseEntries_resolve, ho,
        List.filterMap_append, declared, List.filterMap_cons_none opened] using inside

theorem mentions_resolveEntries (s : ScopeId) (base skip : Nat) (es : List Expr) (T : Scopes) :
    (Resolved.entryEvents s base skip (resolveEntries s skip es T).1).filterMap Event.mention? =
      (Resolved.entryMentions s base (resolveEntries s skip es T).1).1.filter Mention.isBound := by
  cases es with
  | nil => cases skip <;> rfl
  | cons e es =>
    cases skip with
    | zero =>
      have first := mentions_resolve s base e T
      have rest := mentions_resolveEntries s (base + e.size) 0 es (resolve s e T).2
      simp [resolveEntries, Resolved.entryEvents, Resolved.entryMentions, Resolved.mentionsFrom_snd,
        List.filterMap_append, Resolved.erase_resolve, first, rest]
    | succ skip =>
      have rest := mentions_resolveEntries s (base + e.size) skip es T
      simp [resolveEntries, Resolved.entryEvents, Resolved.entryMentions, Resolved.mentionsFrom_snd,
        Resolved.mentionsFrom_plain, Resolved.erase_plain, rest]

end

end Expr

end ByteLisp
