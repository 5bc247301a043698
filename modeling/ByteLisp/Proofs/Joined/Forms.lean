/-
  ByteLisp: the forms of two programs, one behind the other.

  * `Form.behind`: a form of the second program, by what it is alone;
  * `Form.Below`: the scopes of a form are in a table;
  * `Aligned.storageOf` and the lemmas around it: code generation finds the same in
    both tables;
  * `Expr.topForms` are the forms at the top of a program, `topForms_append` are those
    of two programs.
-/
import ByteLisp.Proofs.Joined.Walk
import ByteLisp.Proofs.Generation.Coded
import ByteLisp.Proofs.Scope.Capture

namespace ByteLisp

open Scopes

/-! ## Forms behind another program -/

namespace Form

mutual

/-- The form behind the scopes `U`. -/
def behind (U : Scopes) : Form → Form
  | .number x => .number x
  | .string text => .string text
  | .boolean b => .boolean b
  | .reference name binding => .reference name (binding.behind U name)
  | .block b body => .block (U.shift b) (allBehind U body)
  | .declare name init => .declare name (behind U init)
  | .assign name binding value => .assign name (binding.behind U name) (behind U value)
  | .ifThen test thn => .ifThen (behind U test) (behind U thn)
  | .ifElse test thn els => .ifElse (behind U test) (behind U thn) (behind U els)
  | .whileLoop test body => .whileLoop (behind U test) (behind U body)
  | .forLoop init test modifier body =>
    .forLoop (behind U init) (behind U test) (behind U modifier) (behind U body)
  | .define name f params body => .define name (U.shift f) params (behind U body)
  | .lambda label f params body => .lambda label (U.shift f) params (behind U body)
  | .operation op x y => .operation op (behind U x) (behind U y)
  | .call callee args => .call (behind U callee) (allBehind U args)
  | .malformed e why => .malformed e why

/-- Some forms behind the scopes `U`. -/
def allBehind (U : Scopes) : List Form → List Form
  | [] => []
  | f :: fs => behind U f :: allBehind U fs

end

theorem length_allBehind (U : Scopes) (fs : List Form) : (allBehind U fs).length = fs.length := by
  induction fs with
  | nil => rfl
  | cons f fs ih => rw [allBehind, List.length_cons, ih, List.length_cons]

end Form

namespace Resolved

mutual

@[simp] theorem erase_behind (U : Scopes) (r : Resolved) : (r.behind U).erase = r.erase := by
  cases r with
  | list scope items => rw [behind, erase, eraseEntries_behindEntries U items, erase]
  | _ => rfl

@[simp] theorem eraseEntries_behindEntries (U : Scopes) (rs : List Resolved) :
    eraseEntries (behindEntries U rs) = eraseEntries rs := by
  cases rs with
  | nil => rfl
  | cons r rs =>
    rw [behindEntries, eraseEntries, erase_behind U r, eraseEntries_behindEntries U rs, eraseEntries]

end

end Resolved

namespace Form

variable {U : Scopes}

theorem symbol?_behind (r : Resolved) :
    symbol? (r.behind U) = (symbol? r).map fun x => (x.1, x.2.behind U x.1) := by
  cases r <;> rfl

theorem list?_behind (r : Resolved) :
    list? (r.behind U) = (list? r).map (Resolved.behindEntries U) := by
  cases r <;> rfl

theorem params?_behindEntries (ps : List Resolved) :
    params? (Resolved.behindEntries U ps) = params? ps := by
  induction ps with
  | nil => rfl
  | cons p ps ih =>
    rw [params?, params?, Resolved.behindEntries, List.mapM_cons, List.mapM_cons, symbol?_behind,
      Option.map_map]
    rw [params?, params?] at ih
    rw [ih]
    rfl

theorem head?_behindEntries (rs : List Resolved) : head? (Resolved.behindEntries U rs) = head? rs := by
  rcases rs with - | ⟨r, rs⟩
  · rfl
  · cases r <;> rfl

theorem function_behind {e : Expr} {scope : Option ScopeId} {ps : Resolved}
    {make make' : ScopeId → List String → Form}
    (hm : ∀ s names, make' (U.shift s) names = (make s names).behind U) :
    function (malformed e) (scope.map U.shift) (ps.behind U) make' =
      (function (malformed e) scope ps make).behind U := by
  unfold function
  rw [list?_behind]
  cases list? ps with
  | none => rfl
  | some ps =>
    cases scope with
    | none => rfl
    | some s =>
      simp only [Option.map_some, params?_behindEntries]
      cases params? ps with
      | none => rfl
      | some names => exact hm s names

mutual

/-- The form of an expression that is resolved behind another program. -/
theorem ofResolved_behind (label : String) (r : Resolved) :
    ofResolved label (r.behind U) = (ofResolved label r).behind U := by
  cases r with
  | number x => rfl
  | string text => rfl
  | symbol name binding =>
    rw [Resolved.behind, ofResolved, ofResolved]
    split
    · rfl
    · split <;> rfl
  | list scope items =>
    rw [Resolved.behind, ofResolved, head?_behindEntries, ofResolved]
    exact ofList_behind label scope (head? items) items

theorem ofList_behind (label : String) (scope : Option ScopeId) (head : Option Head)
    (items : List Resolved) :
    ofList label (scope.map U.shift) head (Resolved.behindEntries U items) =
      (ofList label scope head items).behind U := by
  match head, items with
  | none, [] | some _, [] => simp only [Resolved.behindEntries, ofList, behind]
  | none, callee :: args =>
    simp only [Resolved.behindEntries, ofList, behind, ofResolved_behind "lambda" callee,
      ofEntries_behind args]
  | some .block, _ :: entries =>
    simp only [Resolved.behindEntries, ofList, ofEntries_behind entries]
    cases scope with
    | none => simp [Resolved.eraseEntries, behind]
    | some b => rfl
  | some .declare, [_, target, init] =>
    simp only [Resolved.behindEntries, ofList, symbol?_behind, ofResolved_behind _ init]
    cases symbol? target with
    | none => simp [Resolved.eraseEntries, behind]
    | some x => rfl
  | some .assign, [_, target, value] =>
    simp only [Resolved.behindEntries, ofList, symbol?_behind, ofResolved_behind _ value]
    cases symbol? target with
    | none => simp [Resolved.eraseEntries, behind]
    | some x => rfl
  | some .branch, [_, test, thn] =>
    simp only [Resolved.behindEntries, ofList, behind, ofResolved_behind _ test, ofResolved_behind _ thn]
  | some .branch, [_, test, thn, els] =>
    simp only [Resolved.behindEntries, ofList, behind, ofResolved_behind _ test, ofResolved_behind _ thn,
      ofResolved_behind _ els]
  | some .whileLoop, [_, test, body] =>
    simp only [Resolved.behindEntries, ofList, behind, ofResolved_behind _ test, ofResolved_behind _ body]
  | some .forLoop, [_, init, test, modifier, body] =>
    simp only [Resolved.behindEntries, ofList, behind, ofResolved_behind _ init, ofResolved_behind _ test,
      ofResolved_behind _ modifier, ofResolved_behind _ body]
  | some .define, [_, target, ps, body] =>
    simp only [Resolved.behindEntries, ofList, symbol?_behind, ofResolved_behind _ body]
    cases symbol? target with
    | none => simp [Resolved.eraseEntries, behind]
    | some x =>
      simp only [Option.map_some, Resolved.eraseEntries, Resolved.erase_behind]
      exact function_behind fun _ _ => rfl
  | some .lambda, [_, ps, body] =>
    simp only [Resolved.behindEntries, ofList, Resolved.eraseEntries, Resolved.erase_behind,
      ofResolved_behind _ body]
    exact function_behind fun _ _ => rfl
  | some (.operator op), [_, x, y] =>
    simp only [Resolved.behindEntries, ofList, behind, ofResolved_behind _ x, ofResolved_behind _ y]
  | some .declare, [_] | some .declare, [_, _] | some .declare, _ :: _ :: _ :: _ :: _
  | some .assign, [_] | some .assign, [_, _] | some .assign, _ :: _ :: _ :: _ :: _
  | some .branch, [_] | some .branch, [_, _] | some .branch, _ :: _ :: _ :: _ :: _ :: _
  | some .whileLoop, [_] | some .whileLoop, [_, _] | some .whileLoop, _ :: _ :: _ :: _ :: _
  | some .forLoop, [_] | some .forLoop, [_, _] | some .forLoop, [_, _, _]
  | some .forLoop, [_, _, _, _] | some .forLoop, _ :: _ :: _ :: _ :: _ :: _ :: _
  | some .define, [_] | some .define, [_, _] | some .define, [_, _, _]
  | some .define, _ :: _ :: _ :: _ :: _ :: _
  | some .lambda, [_] | some .lambda, [_, _] | some .lambda, _ :: _ :: _ :: _ :: _
  | some (.operator _), [_] | some (.operator _), [_, _] | some (.operator _), _ :: _ :: _ :: _ :: _ =>
    simp only [Resolved.behindEntries, ofList, behind, Resolved.eraseEntries, Resolved.erase_behind,
      Resolved.eraseEntries_behindEntries]

theorem ofEntries_behind (rs : List Resolved) :
    ofEntries (Resolved.behindEntries U rs) = allBehind U (ofEntries rs) := by
  cases rs with
  | nil => rfl
  | cons r rs =>
    rw [Resolved.behindEntries, ofEntries, ofResolved_behind "lambda" r, ofEntries_behind rs, ofEntries,
      allBehind]

end

end Form

/-! ## Reading tables -/

/-- The declaration that a binding gives is in the first `n` scopes. -/
def Binding.Below (n : Nat) : Binding → Prop
  | .reference (some o) => o < n
  | _ => True

namespace Scopes

variable {U T T' : Scopes} {n : Nat} {s : Nat} {name : String}

/-- The program in front finds its own scopes, as they were when it had been walked over. -/
theorem Behind.front (h : Behind U T T') (hU : Behind initial U U) : Aligned initial U T' U.size where
  pos := hU.pos
  top := hU.top
  top' := h.top'
  scope s hs hlt := by
    rw [shift_initial, h.old s hs hlt, ← hU.scope s hs hlt, shift_initial]
  rooted := hU.rooted

namespace Aligned

theorem moved (h : Aligned U T T' n) (hs : s < n) (name : String) :
    ((T'.scope (U.shift s)).declares name && (T'.scope (U.shift s)).cells.contains name) =
      ((T.scope s).declares name && (T.scope s).cells.contains name) := by
  by_cases hr : s = root
  · subst hr
    rw [shift_root, h.top.cells, h.top'.cells]
    simp
  · rw [h.scope s hr hs]
    rfl

theorem blockCells (h : Aligned U T T' n) (hs : s < n) : T'.blockCells (U.shift s) = T.blockCells s := by
  rw [Scopes.blockCells, Scopes.blockCells, h.kind hs, h.cells hs]

theorem draftOf (h : Aligned U T T' n) (hs : s < n) (name : String) (params : List String) :
    Emit.draftOf name params (T'.scope (U.shift s)) = Emit.draftOf name params (T.scope s) := by
  rw [Emit.draftOf, Emit.draftOf, h.free hs, h.cells hs]

theorem storage (h : Aligned U T T' n) (hs : s < n) :
    T'.storage (some (U.shift s)) name = T.storage (some s) name := by
  simp only [Scopes.storage, h.kind hs, h.cells hs]

theorem storage_root (h : (T.scope root).Top) : T.storage (some root) name = .global := by
  simp only [Scopes.storage, h.kind]

/-- A variable lives where it lives alone. -/
theorem storageOf (h : Aligned U T T' n) (hs : s < n) {b : Binding} (hb : b.Below n) :
    T'.storageOf (U.shift s) name (b.behind U name) = T.storageOf s name b := by
  match b with
  | .reference (some o) => exact h.storage hb
  | .reference none =>
    rw [Binding.behind]
    split
    · exact storage_root h.top'
    · rfl
  | .unbound =>
    obtain ⟨found, hlt, alone, joined⟩ := h.found hs name
    rw [Binding.behind, Scopes.storageOf, Scopes.storageOf, alone, joined]
    cases found with
    | some o => exact h.storage (hlt o rfl)
    | none =>
      have free {S : Scopes} (hS : (S.scope root).Top) :
          S.storage ((none : Option Nat).or (if S.isGlobal name then some root else none)) name =
            .global := by
        split
        · exact storage_root hS
        · rfl
      exact (free h.top').trans (free h.top).symm

end Aligned

end Scopes

/-! ## Forms whose scopes are in a table -/

namespace Form

mutual

/-- The scopes of a form are among the first `n`. -/
def Below (n : Nat) : Form → Prop
  | .number _ | .string _ | .boolean _ | .malformed _ _ => True
  | .reference _ binding => binding.Below n
  | .block b fs => b < n ∧ AllBelow n fs
  | .declare _ init => Below n init
  | .assign _ binding value => binding.Below n ∧ Below n value
  | .ifThen test thn => Below n test ∧ Below n thn
  | .ifElse test thn els => Below n test ∧ Below n thn ∧ Below n els
  | .whileLoop test body => Below n test ∧ Below n body
  | .forLoop init test modifier body => Below n init ∧ Below n test ∧ Below n modifier ∧ Below n body
  | .define _ f _ body => f < n ∧ Below n body
  | .lambda _ f _ body => f < n ∧ Below n body
  | .operation _ x y => Below n x ∧ Below n y
  | .call callee args => Below n callee ∧ AllBelow n args

/-- So are those of some forms. -/
def AllBelow (n : Nat) : List Form → Prop
  | [] => True
  | f :: fs => Below n f ∧ AllBelow n fs

end

end Form

theorem Walk.below_target {T T' : Scopes} {s n : Nat} {name : String} {binding : Binding}
    (h : Walk.target s name T = (binding, T')) (hs : s < T.size) (hT : T.Nested) (hn : T.size ≤ n) :
    binding.Below n := by
  match binding with
  | .unbound | .reference none => trivial
  | .reference (some o) =>
    obtain ⟨-, hlookup, -⟩ := Walk.target_reference h
    exact Nat.lt_of_lt_of_le (hT.lt_of_mem hs (lookup_mem hlookup)) hn

/-- The walk over forms gives them scopes of the table. -/
theorem Walks.allBelow {P : Scopes → Prop} {T T' : Scopes} {s n : Nat} {fs : List Form}
    (h : Walks P T s fs T') (hs : s < T.size) (hT : T.Nested) (hn : T'.size ≤ n) : Form.AllBelow n fs := by
  induction h with
  | nil => trivial
  | number | string | boolean | malformed => exact ⟨trivial, trivial⟩
  | cons h₁ h₂ ih₁ ih₂ =>
    have hx := h₁.extends hs
    have hx' := h₂.extends (hx.lt hs)
    exact ⟨(ih₁ hs hT (Nat.le_trans hx'.later.size hn)).1, ih₂ (hx.lt hs) (hx.nested hT) hn⟩
  | @reference T s name binding T' _ _ ht =>
    have hx : T.Extends (Walk.target s name T).2 := extends_target
    rw [ht] at hx
    exact ⟨Walk.below_target ht hs hT (Nat.le_trans hx.later.size hn), trivial⟩
  | block h ih =>
    have hlt := Nat.lt_of_lt_of_le ((h.extends Scopes.lt_size_push).lt Scopes.lt_size_push) hn
    exact ⟨⟨hlt, ih Scopes.lt_size_push (hT.push hs _) hn⟩, trivial⟩
  | @declare T s name init T' _ ih =>
    have hs' : s < (T.modify s (·.declare name)).size := by rwa [Scopes.size_modify]
    exact ih hs' (hT.modify (Scopes.adds_declare name)) hn
  | @assign T s name binding value T₁ T' _ ht h ih =>
    have hx : T.Extends (Walk.target s name T).2 := extends_target
    rw [ht] at hx
    have hsize := Nat.le_trans hx.later.size (Nat.le_trans (h.extends (hx.lt hs)).later.size hn)
    exact ⟨⟨Walk.below_target ht hs hT hsize, (ih (hx.lt hs) (hx.nested hT) hn).1⟩, trivial⟩
  | @define T s name params body U T' hU h ih =>
    have hx : T.Extends U := hU ▸ Scopes.extends_declare
    have opened : U.Extends (U.openFunction s (name :: params)) := Scopes.extends_openFunction (hx.lt hs)
    have hlt := Nat.lt_of_lt_of_le ((h.extends Scopes.lt_size_openFunction).lt Scopes.lt_size_openFunction) hn
    exact ⟨⟨hlt, (ih Scopes.lt_size_openFunction (opened.nested (hx.nested hT)) hn).1⟩, trivial⟩
  | @lambda T s label params body T' _ _ h ih =>
    have opened : T.Extends (T.openFunction s params) := Scopes.extends_openFunction hs
    have hlt := Nat.lt_of_lt_of_le ((h.extends Scopes.lt_size_openFunction).lt Scopes.lt_size_openFunction) hn
    exact ⟨⟨hlt, (ih Scopes.lt_size_openFunction (opened.nested hT) hn).1⟩, trivial⟩
  | ifThen _ ih | whileLoop _ ih | operation _ ih =>
    obtain ⟨first, second, -⟩ := ih hs hT hn
    exact ⟨⟨first, second⟩, trivial⟩
  | ifElse _ ih =>
    obtain ⟨test, thn, els, -⟩ := ih hs hT hn
    exact ⟨⟨test, thn, els⟩, trivial⟩
  | forLoop _ ih =>
    obtain ⟨init, test, modifier, body, -⟩ := ih hs hT hn
    exact ⟨⟨init, test, modifier, body⟩, trivial⟩
  | call _ ih =>
    have all := ih hs hT hn
    exact ⟨⟨all.1, all.2⟩, trivial⟩

/-! ## Programs -/

namespace Form

mutual

/-- Behind the global scope alone a form is as it is. -/
theorem behind_initial (f : Form) : f.behind .initial = f := by
  have bound (name : String) (binding : Binding) : binding.behind .initial name = binding := by
    match binding with
    | .unbound => rfl
    | .reference (some o) => rw [Binding.behind, shift_initial]
    | .reference none => rfl
  cases f with
  | number x | string text | boolean b | malformed e why => rfl
  | reference name binding => rw [behind, bound]
  | block b fs => rw [behind, shift_initial, allBehind_initial fs]
  | declare name init => rw [behind, behind_initial init]
  | assign name binding value => rw [behind, bound, behind_initial value]
  | ifThen test thn => rw [behind, behind_initial test, behind_initial thn]
  | ifElse test thn els => rw [behind, behind_initial test, behind_initial thn, behind_initial els]
  | whileLoop test body => rw [behind, behind_initial test, behind_initial body]
  | forLoop init test modifier body =>
    rw [behind, behind_initial init, behind_initial test, behind_initial modifier, behind_initial body]
  | define name f params body | lambda name f params body => rw [behind, shift_initial, behind_initial body]
  | operation op x y => rw [behind, behind_initial x, behind_initial y]
  | call callee args => rw [behind, behind_initial callee, allBehind_initial args]

theorem allBehind_initial (fs : List Form) : allBehind .initial fs = fs := by
  cases fs with
  | nil => rfl
  | cons f fs => rw [allBehind, behind_initial f, allBehind_initial fs]

end

theorem ofEntries_append (rs rs' : List Resolved) :
    ofEntries (rs ++ rs') = ofEntries rs ++ ofEntries rs' := by
  induction rs with
  | nil => rfl
  | cons r rs ih => rw [List.cons_append, ofEntries, ih, ofEntries, List.cons_append]

end Form

namespace Expr

/-- The program with the given expressions at the top. -/
def program (es : List Expr) : Expr := .list (.symbol "begin" :: es)

/-- What the walk finds about the expressions at the top of a program, and the scopes. -/
def topWalk (es : List Expr) : List Resolved × Scopes := resolveEntries root 0 es .initial

/-- The scopes of a program. -/
def topScopes (es : List Expr) : Scopes := (topWalk es).2

/-- The forms at the top of a program. -/
def topForms (es : List Expr) : List Form := Form.ofEntries (topWalk es).1

theorem resolveProgram_program (es : List Expr) :
    (program es).resolveProgram =
      (.list (some root) (Resolved.plain (.symbol "begin") :: (topWalk es).1), topScopes es) :=
  rfl

theorem ofResolved_program (es : List Expr) :
    Form.ofResolved "lambda" (program es).resolveProgram.1 = .block root (topForms es) := by
  rw [resolveProgram_program, Form.ofResolved]
  rfl

theorem resolveEntries_append {s : Nat} {T : Scopes} (es es' : List Expr) :
    resolveEntries s 0 (es ++ es') T =
      ((resolveEntries s 0 es T).1 ++ (resolveEntries s 0 es' (resolveEntries s 0 es T).2).1,
        (resolveEntries s 0 es' (resolveEntries s 0 es T).2).2) := by
  induction es generalizing T with
  | nil => rfl
  | cons e es ih =>
    rw [List.cons_append, resolveEntries, resolveEntries]
    simp only [Walk.bind_apply, Walk.pure_apply, ih, List.cons_append]

theorem behind_alone (es : List Expr) : Behind .initial (topScopes es) (topScopes es) := by
  have hs : root < Scopes.initial.size := Nat.zero_lt_one
  exact (resolveEntries_behind (Scopes.behind_initial hs top_initial) hs 0 es).2

/-- The walk over a program whose expressions are those of two programs. -/
theorem topWalk_append (as bs : List Expr) :
    topForms (as ++ bs) = topForms as ++ Form.allBehind (topScopes as) (topForms bs) ∧
      Behind (topScopes as) (topScopes bs) (topScopes (as ++ bs)) := by
  have front := behind_alone as
  have hs : root < Scopes.initial.size := Nat.zero_lt_one
  obtain ⟨hr, hT⟩ := resolveEntries_behind (Scopes.behind_initial front.pos front.top) hs 0 bs
  refine ⟨?_, ?_⟩
  · rw [topForms, topWalk, resolveEntries_append, Form.ofEntries_append]
    refine congrArg (topForms as ++ ·) ?_
    rw [topForms, ← Form.ofEntries_behind]
    exact congrArg Form.ofEntries hr
  · have last : topScopes (as ++ bs) = (resolveEntries root 0 bs (topScopes as)).2 := by
      rw [topScopes, topWalk, resolveEntries_append]
      rfl
    rw [last]
    exact hT

theorem topForms_below (es : List Expr) : Form.AllBelow (topScopes es).size (topForms es) := by
  have walks := (program es).resolveProgram_walks
  rw [ofResolved_program] at walks
  exact walks.allBelow Nat.zero_lt_one nested_initial (Nat.le_refl _)

end Expr

end ByteLisp
