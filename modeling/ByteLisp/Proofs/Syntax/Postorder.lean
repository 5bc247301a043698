/-
  ByteLisp: the nodes of a text are a tree in post-order.

  * `Arena.IsTree`: the root comes last, each other node is an entry of one list, once, and the
    entries of a list come in their order, before the list;
  * `IsTree.existsUnique_path`: then just one path leads from the root to a node, so that a node
    stands for a place in the text;
  * `Arena.atoms`: the nodes without entries, which are the atoms among the tokens;
  * `Arena.Keys`: scopes belong to lists and references to symbols, not two to one node;
  * `Arena.parse_postorder` says all this of what is read from a text.
-/
import ByteLisp.Proofs.Scope.Events
import ByteLisp.Proofs.Syntax.Allocation
import ByteLisp.Proofs.Syntax.Recognition
import Mathlib.Data.List.Nodup

namespace ByteLisp

/-! ## Entries -/

/-- The numbers of the entries of a node; none if it is an atom. -/
def Node.entries : Node → List Nat
  | .list ns => ns
  | _ => []

/-- The atom that a node is, if it is one. -/
def Node.atom? : Node → Option Expr
  | .number x => some (.number x)
  | .string text => some (.string text)
  | .symbol name => some (.symbol name)
  | .list _ => none

namespace Arena

/-- The number of an entry of a node. -/
def child? (a : Arena) (l k : Nat) : Option Nat := a.nodes[l]?.bind (·.entries[k]?)

/-- Where a path leads: at each node it takes one of the entries. -/
def follow (a : Arena) (n : Nat) : List Nat → Option Nat
  | [] => some n
  | k :: path => (a.child? n k).bind fun m => a.follow m path

/-- The atoms in the order in which they were added. -/
def atoms (a : Arena) : List Expr := a.nodes.toList.filterMap Node.atom?

/-- The nodes are a tree whose root comes last and whose lists come behind their entries. -/
structure IsTree (a : Arena) : Prop where
  last : a.nodes.size = a.root + 1
  sorted : ∀ (l : Nat) (ns : List Nat), a.nodes[l]? = some (.list ns) →
    ns.Pairwise (· < ·) ∧ ∀ n ∈ ns, n < l
  once : ∀ n < a.root, ∃! place : Nat × Nat, a.child? place.1 place.2 = some n

/-! ## Paths -/

variable {a : Arena} {l k n : Nat}

theorem child?_eq_some :
    a.child? l k = some n ↔ ∃ ns, a.nodes[l]? = some (.list ns) ∧ ns[k]? = some n := by
  unfold child?
  constructor
  · intro h
    obtain ⟨row, hrow, hk⟩ := Option.bind_eq_some_iff.1 h
    cases row with
    | list ns => exact ⟨ns, hrow, hk⟩
    | _ => simp [Node.entries] at hk
  · rintro ⟨ns, hrow, hk⟩
    simp [hrow, Node.entries, hk]

theorem follow_concat (n : Nat) (path : List Nat) (k : Nat) :
    a.follow n (path ++ [k]) = (a.follow n path).bind fun m => a.child? m k := by
  induction path generalizing n with
  | nil => simp [follow]
  | cons j path ih => simp [follow, ih, Option.bind_assoc]

namespace IsTree

theorem child_lt (h : a.IsTree) (he : a.child? l k = some n) : n < l ∧ l ≤ a.root := by
  obtain ⟨ns, hl, hk⟩ := child?_eq_some.1 he
  obtain ⟨hlt, -⟩ := Array.getElem?_eq_some_iff.1 hl
  refine ⟨(h.sorted l ns hl).2 n (List.mem_of_getElem? hk), ?_⟩
  rw [h.last] at hlt
  omega

/-- Just one path leads from the root to a node. -/
theorem existsUnique_path (h : a.IsTree) (n : Nat) (hn : n ≤ a.root) :
    ∃! path, a.follow a.root path = some n := by
  -- Lists come behind their entries, so the induction goes down from the root.
  induction hd : a.root - n using Nat.strongRecOn generalizing n with
  | ind d ih =>
    by_cases hroot : n = a.root
    · subst hroot
      refine ⟨[], rfl, fun path hpath => ?_⟩
      cases path using List.reverseRecOn with
      | nil => rfl
      | append_singleton path k =>
        rw [follow_concat] at hpath
        obtain ⟨m, -, hm⟩ := Option.bind_eq_some_iff.1 hpath
        have := h.child_lt hm
        omega
    · obtain ⟨⟨l, k⟩, hlk, unique⟩ := h.once n (by omega)
      have hl := h.child_lt hlk
      obtain ⟨path, hpath, only⟩ := ih (a.root - l) (by omega) l hl.2 rfl
      refine ⟨path ++ [k], by simp [follow_concat, hpath, hlk], fun path' hpath' => ?_⟩
      cases path' using List.reverseRecOn with
      | nil => exact absurd (Option.some.inj hpath').symm hroot
      | append_singleton path' k' =>
        rw [follow_concat] at hpath'
        obtain ⟨m, hm, hk'⟩ := Option.bind_eq_some_iff.1 hpath'
        obtain ⟨rfl, rfl⟩ := Prod.mk.inj (unique (m, k') hk')
        rw [only path' hm]

end IsTree

end Arena

/-! ## The nodes of an expression -/

/-- What occurs once in some lists has one place in one of them. -/
theorem existsUnique_place {α : Type} {rows : List α} {f : α → List Nat} {n : Nat}
    (h : (rows.flatMap f).Nodup) (hn : n ∈ rows.flatMap f) :
    ∃! place : Nat × Nat, (rows[place.1]?.bind fun row => (f row)[place.2]?) = some n := by
  obtain ⟨each, apart⟩ := List.nodup_flatMap.1 h
  obtain ⟨row, hrow, hmem⟩ := List.mem_flatMap.1 hn
  obtain ⟨i, hi⟩ := List.mem_iff_getElem?.1 hrow
  obtain ⟨j, hj⟩ := List.mem_iff_getElem?.1 hmem
  refine ⟨(i, j), by simp [hi, hj], fun ⟨i', j'⟩ hplace => ?_⟩
  obtain ⟨row', hi', hj'⟩ := Option.bind_eq_some_iff.1 hplace
  have same : i' = i := by
    by_contra hne
    obtain ⟨hlt, rfl⟩ := List.getElem?_eq_some_iff.1 hi
    obtain ⟨hlt', rfl⟩ := List.getElem?_eq_some_iff.1 hi'
    have hmem' := List.mem_of_getElem? hj'
    rcases Nat.lt_or_gt_of_ne hne with hi | hi
    · exact List.pairwise_iff_getElem.1 apart i' i hlt' hlt hi hmem' hmem
    · exact List.pairwise_iff_getElem.1 apart i i' hlt hlt' hi hmem hmem'
  subst same
  obtain rfl : row' = row := Option.some.inj (hi'.symm.trans hi)
  obtain ⟨hlt, -⟩ := List.getElem?_eq_some_iff.1 hj'
  exact Prod.ext rfl ((List.getElem?_inj hlt (each row' hrow)).1 (hj'.trans hj.symm))

namespace Expr

mutual

/-- The entries of all lists are all nodes but the last. -/
theorem entries_nodesFrom (base : Nat) (e : Expr) :
    ((nodesFrom base e).flatMap Node.entries).Perm (List.range' base (e.size - 1)) := by
  cases e with
  | list items =>
    have := entries_entryNodes base items
    simpa [nodesFrom, size, Node.entries] using this
  | _ => simp [nodesFrom, size, Node.entries]

theorem entries_entryNodes (base : Nat) (es : List Expr) :
    ((entryNodes base es).1.flatMap Node.entries ++ (entryNodes base es).2).Perm
      (List.range' base (sizeEntries es)) := by
  cases es with
  | nil => simp [entryNodes, sizeEntries]
  | cons e es =>
    have first := entries_nodesFrom base e
    have rest := entries_entryNodes (base + e.size) es
    have hpos := e.size_pos
    have last : List.range' base e.size = List.range' base (e.size - 1) ++ [base + e.size - 1] := by
      obtain ⟨n, hn⟩ := Nat.exists_eq_succ_of_ne_zero hpos.ne'
      rw [hn, List.range'_1_concat]
      rfl
    rw [sizeEntries, ← List.range'_append_1, last, List.append_assoc]
    simp only [entryNodes, length_nodesFrom, List.flatMap_append, List.append_assoc]
    exact first.append (List.perm_middle.trans (rest.cons _))

end

theorem entries_bounds (base : Nat) (es : List Expr) :
    (entryNodes base es).2.Pairwise (· < ·) ∧
      ∀ n ∈ (entryNodes base es).2, base ≤ n ∧ n < base + sizeEntries es := by
  induction es generalizing base with
  | nil => simp [entryNodes]
  | cons e es ih =>
    obtain ⟨sorted, bounds⟩ := ih (base + e.size)
    have hpos := e.size_pos
    simp only [entryNodes, length_nodesFrom, sizeEntries, List.pairwise_cons, List.forall_mem_cons]
    refine ⟨⟨fun n hn => ?_, sorted⟩, by omega, fun n hn => ?_⟩
    · have := bounds n hn
      omega
    · have := bounds n hn
      omega

mutual

/-- The entries of a list come in their order and before the list. -/
theorem sorted_nodesFrom {base i : Nat} {e : Expr} {ns : List Nat}
    (h : (nodesFrom base e)[i]? = some (.list ns)) :
    ns.Pairwise (· < ·) ∧ ∀ n ∈ ns, n < base + i := by
  cases e with
  | list items =>
    rw [nodesFrom, List.getElem?_append] at h
    split at h
    · exact sorted_entryNodes h
    · next hi =>
      obtain ⟨sorted, bounds⟩ := entries_bounds base items
      obtain ⟨-, rfl⟩ :
          i - (entryNodes base items).1.length = 0 ∧ (entryNodes base items).2 = ns := by
        simpa [List.getElem?_singleton] using h
      refine ⟨sorted, fun n hn => ?_⟩
      have := bounds n hn
      rw [length_entryNodes] at hi
      omega
  | _ => simp [nodesFrom, List.getElem?_singleton] at h

theorem sorted_entryNodes {base i : Nat} {es : List Expr} {ns : List Nat}
    (h : (entryNodes base es).1[i]? = some (.list ns)) :
    ns.Pairwise (· < ·) ∧ ∀ n ∈ ns, n < base + i := by
  cases es with
  | nil => simp [entryNodes] at h
  | cons e es =>
    rw [entryNodes, List.getElem?_append] at h
    split at h
    · exact sorted_nodesFrom h
    · next hi =>
      obtain ⟨sorted, bounds⟩ := sorted_entryNodes h
      refine ⟨sorted, fun n hn => ?_⟩
      have := bounds n hn
      omega

end

theorem length_nodes (e : Expr) : e.nodes.length = e.size := length_nodesFrom 0 e

end Expr

/-- The nodes of an expression in post-order are a tree. -/
theorem Arena.isTree_ofExpr (e : Expr) : (ofExpr e).IsTree where
  last := by
    have := e.size_pos
    simp only [ofExpr, List.size_toArray, Expr.length_nodes]
    omega
  sorted l ns h := by
    have h : (Expr.nodesFrom 0 e)[l]? = some (.list ns) := by simpa [ofExpr, Expr.nodes] using h
    simpa using Expr.sorted_nodesFrom h
  once n hn := by
    have entries := Expr.entries_nodesFrom 0 e
    have hmem : n ∈ e.nodes.flatMap Node.entries := by
      refine entries.mem_iff.2 (List.mem_range'_1.2 ?_)
      simp only [ofExpr, Expr.length_nodes] at hn
      omega
    have := existsUnique_place (entries.nodup_iff.2 (List.nodup_range' 1)) hmem
    simpa [child?, ofExpr, Expr.nodes] using this

/-! ## Atoms -/

instance (t : Token) : Decidable t.IsAtom := inferInstanceAs (Decidable (_ ∧ _))

/-- The atoms among some tokens, in their order. -/
def Token.atoms (ts : List Token) : List Expr := (ts.filter (·.IsAtom)).map Token.atom

@[simp] theorem Token.atoms_append (ts us : List Token) : atoms (ts ++ us) = atoms ts ++ atoms us := by
  simp [atoms]

theorem Token.atoms_of_kind {t : Token} (h : t.kind = .parenOpen ∨ t.kind = .parenClose) :
    atoms [t] = [] := by
  rcases h with h | h <;> simp [atoms, Token.IsAtom, h]

namespace ParseTree

theorem atoms_atom {t : Token} (ht : t.IsAtom) (base : Nat) :
    (t.atom.nodesFrom base).filterMap Node.atom? = Token.atoms [t] := by
  have single (e : Expr) (he : ∀ items, e ≠ .list items) :
      (e.nodesFrom base).filterMap Node.atom? = [e] := by
    cases e with
    | list items => exact absurd rfl (he items)
    | _ => rfl
  rw [Token.atoms, List.filter_singleton, decide_eq_true ht]
  refine single t.atom fun items => ?_
  unfold Token.atom
  split <;> exact Expr.noConfusion

mutual

/-- The nodes without entries are the atoms that are derived. -/
theorem atoms_expr (d : ParseTree) (base : Nat) :
    (d.expr.nodesFrom base).filterMap Node.atom? = Token.atoms d.tokens := by
  cases d with
  | atom t ht => exact atoms_atom ht base
  | list l hl entries r hr =>
    have := atoms_exprs entries base
    have hl := Token.atoms_of_kind (.inl hl)
    have hr := Token.atoms_of_kind (.inr hr)
    rw [tokens, ← List.singleton_append, Token.atoms_append, Token.atoms_append, hl, hr]
    simp [expr, Expr.nodesFrom, Node.atom?, this]

theorem atoms_exprs (ds : List ParseTree) (base : Nat) :
    (Expr.entryNodes base (exprs ds)).1.filterMap Node.atom? = Token.atoms (allTokens ds) := by
  cases ds with
  | nil => rfl
  | cons d ds => simp [exprs, allTokens, Expr.entryNodes, atoms_expr d base, atoms_exprs ds]

end

end ParseTree

/-! ## Scopes and references -/

namespace Resolved

/-- A symbol with the number of its node. -/
def symbolAt : Node × Nat → Option (String × Nat)
  | (.symbol name, n) => some (name, n)
  | _ => none

/-- The number of a list. -/
def listAt : Node × Nat → Option Nat
  | (.list _, n) => some n
  | _ => none

theorem snd_symbolAt {x : Node × Nat} {y : String × Nat} (h : symbolAt x = some y) : y.2 = x.2 := by
  obtain ⟨row, n⟩ := x
  cases row with
  | symbol name => exact congrArg Prod.snd (Option.some.inj h).symm
  | _ => cases h

mutual

/-- The symbols of a program are the nodes that are symbols, in their order. -/
theorem symbols_mentionsFrom (s : ScopeId) (base : Nat) (r : Resolved) :
    (mentionsFrom s base r).1.map (fun m => (m.name, m.node)) =
      ((r.erase.nodesFrom base).zipIdx base).filterMap symbolAt := by
  cases r with
  | list scope items =>
    have := symbols_entryMentions (scope.getD s) base items
    simp [mentionsFrom, erase, Expr.nodesFrom, List.zipIdx_append, symbolAt, this]
  | _ => rfl

theorem symbols_entryMentions (s : ScopeId) (base : Nat) (rs : List Resolved) :
    (entryMentions s base rs).1.map (fun m => (m.name, m.node)) =
      ((Expr.entryNodes base (eraseEntries rs)).1.zipIdx base).filterMap symbolAt := by
  cases rs with
  | nil => rfl
  | cons r rs =>
    simp [entryMentions, eraseEntries, Expr.entryNodes, List.zipIdx_append, mentionsFrom_snd,
      Expr.length_nodesFrom, symbols_mentionsFrom s base r, symbols_entryMentions s _ rs]

end

mutual

/-- The nodes that open scopes are lists, in their order. -/
theorem lists_openingsFrom (base : Nat) (r : Resolved) :
    ((openingsFrom base r).1.map Prod.snd).Sublist
      (((r.erase.nodesFrom base).zipIdx base).filterMap listAt) := by
  cases r with
  | list scope items =>
    have inside := lists_entryOpenings base items
    have node : (scope.toList.map fun _ => base + Expr.sizeEntries (eraseEntries items)).Sublist
        [base + Expr.sizeEntries (eraseEntries items)] := by
      cases scope <;> simp
    simpa [openingsFrom, erase, Expr.nodesFrom, List.zipIdx_append, entryOpenings_snd,
      Expr.length_entryNodes, listAt, Function.comp_def] using inside.append node
  | _ => simp [openingsFrom]

theorem lists_entryOpenings (base : Nat) (rs : List Resolved) :
    ((entryOpenings base rs).1.map Prod.snd).Sublist
      (((Expr.entryNodes base (eraseEntries rs)).1.zipIdx base).filterMap listAt) := by
  cases rs with
  | nil => simp [entryOpenings]
  | cons r rs =>
    have first := lists_openingsFrom base r
    have rest := lists_entryOpenings (base + r.erase.size) rs
    simpa [entryOpenings, eraseEntries, Expr.entryNodes, List.zipIdx_append, openingsFrom_snd,
      Expr.length_nodesFrom] using first.append rest

end

end Resolved

namespace Arena

/-- Scope analysis keeps scopes and references by node: a scope belongs to a list and a reference to
    the symbol of its name, and no two of them have the same node. -/
structure Keys (a : Arena) (r : Resolved) : Prop where
  scopes : (r.openings.map Prod.snd).Nodup
  scope_at : ∀ x ∈ r.openings, ∃ ns, a.nodes[x.2]? = some (.list ns)
  references : (r.mentions.map (·.node)).Nodup
  reference_at : ∀ m ∈ r.mentions, a.nodes[m.node]? = some (.symbol m.name)

theorem keys_ofExpr (r : Resolved) : (ofExpr r.erase).Keys r where
  scopes := r.nodup_openings
  scope_at x hx := by
    have hlists := Resolved.lists_openingsFrom 0 r
    obtain ⟨⟨row, n⟩, hrow, hn⟩ := List.mem_filterMap.1 (hlists.subset (List.mem_map_of_mem hx))
    cases row with
    | list ns =>
      obtain rfl : n = x.2 := Option.some.inj hn
      exact ⟨ns, by simpa [ofExpr, Expr.nodes] using List.mk_mem_zipIdx_iff_getElem?.1 hrow⟩
    | _ => cases hn
  references := by
    have hsymbols := congrArg (List.map Prod.snd) (Resolved.symbols_mentionsFrom Scopes.root 0 r)
    have hrows : ((r.erase.nodesFrom 0).zipIdx.map Prod.snd).Nodup := by
      rw [List.zipIdx_map_snd]
      exact List.nodup_range' 1
    rw [List.map_map] at hsymbols
    change (r.mentions.map (·.node)) = _ at hsymbols
    rw [hsymbols, List.Nodup, List.pairwise_map]
    rw [List.Nodup, List.pairwise_map] at hrows
    refine hrows.filterMap Resolved.symbolAt fun x y hxy b hb c hc => ?_
    rw [Resolved.snd_symbolAt hb, Resolved.snd_symbolAt hc]
    exact hxy
  reference_at m hm := by
    have hsymbols := Resolved.symbols_mentionsFrom Scopes.root 0 r
    have hmem : (m.name, m.node) ∈ (r.erase.nodes.zipIdx).filterMap Resolved.symbolAt :=
      hsymbols ▸ List.mem_map_of_mem hm
    obtain ⟨⟨row, n⟩, hrow, hn⟩ := List.mem_filterMap.1 hmem
    cases row with
    | symbol name =>
      obtain ⟨rfl, rfl⟩ := Prod.mk.inj (Option.some.inj hn)
      simpa [ofExpr] using List.mk_mem_zipIdx_iff_getElem?.1 hrow
    | _ => cases hn

/-! ## Texts -/

/-- The arena has the nodes of an expression and is a tree, in which each node is in one place, so
    that scopes and references can be kept by node. -/
structure Holds (a : Arena) (e : Expr) : Prop extends a.IsTree where
  nodes_eq : a = ofExpr e
  place : ∀ n ≤ a.root, ∃! path, a.follow a.root path = some n
  keys : a.Keys e.resolveProgram.1

theorem holds_ofExpr (e : Expr) : (ofExpr e).Holds e where
  toIsTree := isTree_ofExpr e
  nodes_eq := rfl
  place := (isTree_ofExpr e).existsUnique_path
  keys := by
    have := keys_ofExpr e.resolveProgram.1
    rwa [Resolved.erase_resolveProgram] at this

/-- What is read from a text is a tree of nodes in post-order, with the atoms among the tokens as
    its leaves, in their order; for a program there is `begin` before them. -/
theorem parse_postorder (src : List Char) :
    (∀ a, parse src = .ok a → a.atoms = Token.atoms (lex src).tokens ∧
      ∃ e, Expr.parse src = .ok e ∧ a.Holds e) ∧
    (∀ a, parseProgram src = .ok a → a.atoms = .symbol "begin" :: Token.atoms (lex src).tokens ∧
      ∃ e, Expr.parseProgram src = .ok e ∧ a.Holds e) ∧
    (∀ e, Expr.parse src = .ok e → parse src = .ok (ofExpr e)) ∧
    ∀ e, Expr.parseProgram src = .ok e → parseProgram src = .ok (ofExpr e) := by
  have inv {x : Except ParseError Expr} {a : Arena} (h : x.map ofExpr = .ok a) :
      ∃ e, x = .ok e ∧ ofExpr e = a := by
    cases x with
    | error err => cases h
    | ok e => exact ⟨e, rfl, Except.ok.inj h⟩
  refine ⟨fun a h => ?_, fun a h => ?_, fun e h => ?_, fun e h => ?_⟩
  · rw [parse_eq] at h
    obtain ⟨e, he, rfl⟩ := inv h
    obtain ⟨d, hd, rfl⟩ := Expr.parse_ok_iff.1 he
    refine ⟨?_, d.expr, he, holds_ofExpr d.expr⟩
    rw [← (Lexed.derives_singleton.1 hd).2]
    exact d.atoms_expr 0
  · rw [parseProgram_eq] at h
    obtain ⟨e, he, rfl⟩ := inv h
    obtain ⟨ds, hd, rfl⟩ := Expr.parseProgram_ok_iff.1 he
    refine ⟨?_, _, he, holds_ofExpr _⟩
    rw [← hd.2]
    simp [atoms, ofExpr, Expr.nodes, Expr.nodesFrom, Expr.entryNodes, Node.atom?,
      ParseTree.atoms_exprs]
  · rw [parse_eq, h]
    rfl
  · rw [parseProgram_eq, h]
    rfl

/-- A list within a list, with all kinds of atoms. -/
def nested : List Char := "(f (g 1) \"a\")".toList

/-- As a program it has two nodes more. -/
theorem parse_postorder_nested :
    let one := Numeral.read ['1']
    let a : Arena :=
      ⟨#[.symbol "f", .symbol "g", .number one, .list [1, 2], .string "a", .list [0, 3, 4]], 5⟩
    let b : Arena :=
      ⟨#[.symbol "begin", .symbol "f", .symbol "g", .number one, .list [2, 3], .string "a",
        .list [1, 4, 5], .list [0, 6]], 7⟩
    (parse nested = .ok a ∧ a.atoms = Token.atoms (lex nested).tokens ∧
      ∃ e, Expr.parse nested = .ok e ∧ a.Holds e) ∧
    (parseProgram nested = .ok b ∧ b.atoms = .symbol "begin" :: Token.atoms (lex nested).tokens ∧
      ∃ e, Expr.parseProgram nested = .ok e ∧ b.Holds e) := by
  intro one a b
  let d : ParseTree := .list ⟨.parenOpen, ['('], ⟨0, 1⟩⟩ rfl
    [.atom ⟨.symbol, ['f'], ⟨1, 2⟩⟩ ⟨nofun, nofun⟩,
      .list ⟨.parenOpen, ['('], ⟨3, 4⟩⟩ rfl
        [.atom ⟨.symbol, ['g'], ⟨4, 5⟩⟩ ⟨nofun, nofun⟩,
          .atom ⟨.number, ['1'], ⟨6, 7⟩⟩ ⟨nofun, nofun⟩]
        ⟨.parenClose, [')'], ⟨7, 8⟩⟩ rfl,
      .atom ⟨.string, ['"', 'a', '"'], ⟨9, 12⟩⟩ ⟨nofun, nofun⟩]
    ⟨.parenClose, [')'], ⟨12, 13⟩⟩ rfl
  have derives : (lex nested).Derives [d] := ⟨⟨13, by decide +kernel⟩, by decide +kernel⟩
  obtain ⟨expression, program, accepted, acceptedProgram⟩ := parse_postorder nested
  have ha : parse nested = .ok a := accepted d.expr (Expr.parse_ok_iff.2 ⟨d, derives, rfl⟩)
  have hb : parseProgram nested = .ok b :=
    acceptedProgram (.list [.symbol "begin", d.expr])
      (Expr.parseProgram_ok_iff.2 ⟨[d], derives, rfl⟩)
  exact ⟨⟨ha, expression a ha⟩, hb, program b hb⟩

end Arena

end ByteLisp
