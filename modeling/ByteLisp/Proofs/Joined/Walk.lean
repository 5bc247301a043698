/-
  ByteLisp: the walk over a program that stands behind another one.

  The global scope is shared, and the other scopes of the second program come behind
  those of the first. A name that only the first one declares is found in the global
  scope, where no scope would declare it else. Apart from that the walk goes as it
  does over the second program alone.

  * `Scopes.shift`: the number that a scope has behind other scopes;
  * `Scopes.Behind`: what the tables have in common during the two walks;
  * `Resolved.behind`: what the walk finds behind another program, by what it finds
    alone;
  * `resolveEntries_behind` is the result.
-/
import ByteLisp.Proofs.Scope.Walk
import Mathlib.Data.List.Find

namespace ByteLisp

/-! ## Numbers of scopes -/

namespace Scopes

/-- The number that a scope has behind the scopes `U`. The global scope is the same. -/
def shift (U : Scopes) (s : Nat) : Nat := if s = root then root else s + (U.size - 1)

end Scopes

/-- The scope behind other scopes. -/
def Scope.shift (U : Scopes) (sc : Scope) : Scope := { sc with outer := sc.outer.map U.shift }

/-- A scope at the top: nothing is around it, and nothing is captured. -/
structure Scope.Top (sc : Scope) : Prop where
  kind : sc.kind = .global
  outer : sc.outer = []
  free : sc.free = []
  cells : sc.cells = []

/-- The first `n` scopes of the table `T` are those of the table `T'` behind the scopes `U`, apart from
    what the global scope declares. -/
structure Scopes.Aligned (U T T' : Scopes) (n : Nat) : Prop where
  pos : 0 < n
  top : (T.scope root).Top
  top' : (T'.scope root).Top
  scope : ∀ s, s ≠ root → s < n → T'.scope (U.shift s) = (T.scope s).shift U
  rooted : ∀ s, s < n → ∃ pre, T.chain s = pre ++ [root] ∧ ∀ t ∈ pre, t ≠ root ∧ t < n

/-- The table `T` of a walk over a program alone, and the table `T'` of the walk over it behind a
    program with the scopes `U`. -/
structure Scopes.Behind (U T T' : Scopes) : Prop extends Scopes.Aligned U T T' T.size where
  size : T'.size + 1 = T.size + U.size
  before : 0 < U.size
  global : ∀ n, T'.isGlobal n = (T.isGlobal n || U.isGlobal n)
  old : ∀ s, s ≠ root → s < U.size → T'.scope s = U.scope s

namespace Scopes

variable {U T T' : Scopes} {s t o : Nat} {n : String} {f : Scope → Scope}

@[simp] theorem shift_root : U.shift root = root := rfl

theorem shift_of_ne (hs : s ≠ root) : U.shift s = s + (U.size - 1) := if_neg hs

theorem shift_injective (U : Scopes) : Function.Injective U.shift := by
  intro s t h
  by_cases hs : s = root <;> by_cases ht : t = root
  · rw [hs, ht]
  · rw [hs, shift_root, shift_of_ne ht] at h
    exact absurd (Nat.eq_zero_of_add_eq_zero_right h.symm) ht
  · rw [ht, shift_root, shift_of_ne hs] at h
    exact absurd (Nat.eq_zero_of_add_eq_zero_right h) hs
  · rw [shift_of_ne hs, shift_of_ne ht] at h
    exact Nat.add_right_cancel h

theorem shift_ne_root (hs : s ≠ root) : U.shift s ≠ root := fun h => hs (U.shift_injective h)

theorem size_le_shift (hs : s ≠ root) : U.size ≤ U.shift s := by
  have hpos := Nat.pos_of_ne_zero hs
  rw [shift_of_ne hs]
  omega

@[simp] theorem shift_initial : initial.shift s = s := by
  unfold shift
  split
  · next h => exact h.symm
  · rfl

theorem chain_root (h : (T.scope root).Top) : T.chain root = [root] := by rw [chain, h.outer]

theorem find?_root (T : Scopes) (n : String) :
    [root].find? (fun t => (T.scope t).declares n) = if T.isGlobal n then some root else none := by
  rw [List.find?_singleton, isGlobal]

theorem isGlobal_initial : initial.isGlobal n = false := rfl

theorem top_initial : (initial.scope root).Top := ⟨rfl, rfl, rfl, rfl⟩

namespace Aligned

variable {n : Nat}

theorem chain (h : Aligned U T T' n) (hs : s < n) :
    T'.chain (U.shift s) = (T.chain s).map U.shift := by
  by_cases hr : s = root
  · subst hr
    rw [shift_root, chain_root h.top, chain_root h.top']
    rfl
  · rw [Scopes.chain, h.scope s hr hs]
    rfl

theorem chain_lt (h : Aligned U T T' n) (hs : s < n) (ht : t ∈ T.chain s) : t < n := by
  obtain ⟨pre, hpre, hlt⟩ := h.rooted s hs
  rw [hpre, List.mem_append, List.mem_singleton] at ht
  rcases ht with ht | rfl
  · exact (hlt t ht).2
  · exact h.pos

theorem kind (h : Aligned U T T' n) (hs : s < n) :
    (T'.scope (U.shift s)).kind = (T.scope s).kind := by
  by_cases hr : s = root
  · subst hr
    rw [shift_root, h.top.kind, h.top'.kind]
  · rw [h.scope s hr hs]
    rfl

theorem free (h : Aligned U T T' n) (hs : s < n) :
    (T'.scope (U.shift s)).free = (T.scope s).free := by
  by_cases hr : s = root
  · subst hr
    rw [shift_root, h.top.free, h.top'.free]
  · rw [h.scope s hr hs]
    rfl

theorem cells (h : Aligned U T T' n) (hs : s < n) :
    (T'.scope (U.shift s)).cells = (T.scope s).cells := by
  by_cases hr : s = root
  · subst hr
    rw [shift_root, h.top.cells, h.top'.cells]
  · rw [h.scope s hr hs]
    rfl

/-- A name is found below the global scope in both tables or in neither. -/
theorem found (h : Aligned U T T' n) (hs : s < n) (name : String) :
    ∃ found : Option Nat, (∀ o, found = some o → o < n) ∧
      T.lookup s name = found.or (if T.isGlobal name then some root else none) ∧
      T'.lookup (U.shift s) name = (found.map U.shift).or (if T'.isGlobal name then some root else none) := by
  obtain ⟨pre, hpre, hlt⟩ := h.rooted s hs
  have inner : (pre.map U.shift).find? (fun t => (T'.scope t).declares name) =
      (pre.find? fun t => (T.scope t).declares name).map U.shift := by
    rw [List.find?_map]
    congr 1
    refine List.find?_congr fun t ht => ?_
    rw [Function.comp_apply, h.scope t (hlt t ht).1 (hlt t ht).2]
    rfl
  refine ⟨pre.find? fun t => (T.scope t).declares name, fun o ho => (hlt o (List.mem_of_find?_eq_some ho)).2,
    ?_, ?_⟩
  · rw [lookup, hpre, List.find?_append, find?_root]
  · rw [lookup, h.chain hs, hpre, List.map_append, List.find?_append, inner, List.map_singleton,
      shift_root, find?_root]

theorem pathTo (h : Aligned U T T' n) (hs : s < n) :
    T'.pathTo (U.shift s) (U.shift o) = (T.pathTo s o).map U.shift := by
  rw [Scopes.pathTo, h.chain hs, List.takeWhile_map, Scopes.pathTo]
  congr 2
  funext t
  simp [(U.shift_injective).eq_iff]

theorem captures (h : Aligned U T T' n) (hs : s < n) (ho : o < n) :
    T'.captures (U.shift s) (U.shift o) = T.captures s o := by
  have path : ((T.pathTo s o).map U.shift).any (fun t => decide ((T'.scope t).kind = .function)) =
      (T.pathTo s o).any fun t => decide ((T.scope t).kind = .function) := by
    rw [List.any_map, Bool.eq_iff_iff, List.any_eq_true, List.any_eq_true]
    refine exists_congr fun t => and_congr_right fun ht => ?_
    rw [Function.comp_apply, h.kind (h.chain_lt hs ((List.takeWhile_sublist _).mem ht))]
  rw [Scopes.captures, Scopes.captures, h.kind ho, h.pathTo hs, path]

end Aligned

/-- Before the second program is walked over there are only the scopes of the first. -/
theorem behind_initial (hU : 0 < U.size) (ht : (U.scope root).Top) : Behind U initial U where
  size := Nat.add_comm _ _
  pos := Nat.zero_lt_one
  before := hU
  top := top_initial
  top' := ht
  global n := by rw [isGlobal_initial, Bool.false_or]
  scope s hs h := absurd (Nat.lt_one_iff.1 h) hs
  old _ _ _ := rfl
  rooted s hs := ⟨[], by rw [Nat.lt_one_iff.1 hs]; rfl, fun _ h => nomatch h⟩

namespace Behind

theorem shift_size (h : Behind U T T') : U.shift T.size = T'.size := by
  have hsize := h.size
  have hbefore := h.before
  rw [shift_of_ne (Nat.ne_of_gt h.pos)]
  omega

theorem shift_lt (h : Behind U T T') (hs : s < T.size) : U.shift s < T'.size := by
  have hsize := h.size
  have hbefore := h.before
  by_cases hr : s = root
  · have hpos := h.pos
    rw [hr, shift_root, root]
    omega
  · rw [shift_of_ne hr]
    omega

/-- A name is found where it is found alone, or else in the global scope. -/
theorem lookup (h : Behind U T T') (hs : s < T.size) (n : String) :
    T'.lookup (U.shift s) n =
      match T.lookup s n with
      | some o => some (U.shift o)
      | none => if U.isGlobal n then some root else none := by
  obtain ⟨found, -, alone, joined⟩ := h.found hs n
  rw [alone, joined, h.global]
  cases found with
  | some o => rfl
  | none => cases T.isGlobal n <;> rfl

/-! ## Steps of the walk -/

/-- Changing a scope other than the global one. -/
theorem modify (h : Behind U T T') (hs : s ≠ root) (hlt : s < T.size)
    (hf : ∀ sc, (f sc).shift U = f (sc.shift U)) (ho : ∀ sc, (f sc).outer = sc.outer) :
    Behind U (T.modify s f) (T'.modify (U.shift s) f) := by
  have same {t} : ((T.modify s f).scope t).outer = (T.scope t).outer := by
    rw [scope_modify hlt]
    split
    · exact ho _
    · rfl
  have first : (T.modify s f).scope root = T.scope root := by rw [scope_modify hlt, if_neg hs.symm]
  have second : (T'.modify (U.shift s) f).scope root = T'.scope root := by
    rw [scope_modify (h.shift_lt hlt), if_neg (shift_ne_root hs).symm]
  refine ⟨⟨by rw [size_modify]; exact h.pos, first ▸ h.top, second ▸ h.top', fun t ht htlt => ?_,
    fun t htlt => ?_⟩, by rw [size_modify, size_modify, h.size], h.before, fun n => ?_,
    fun t ht htlt => ?_⟩
  · rw [size_modify] at htlt
    rw [scope_modify (h.shift_lt hlt), scope_modify hlt]
    simp only [(U.shift_injective).eq_iff]
    split
    · rw [h.scope t ht htlt, hf]
    · exact h.scope t ht htlt
  · rw [size_modify] at htlt ⊢
    rw [Scopes.chain, same]
    exact h.rooted t htlt
  · rw [isGlobal, isGlobal, first, second]
    exact h.global n
  · have hne : t ≠ U.shift s := Nat.ne_of_lt (Nat.lt_of_lt_of_le htlt (size_le_shift hs))
    rw [scope_modify (h.shift_lt hlt), if_neg hne]
    exact h.old t ht htlt

/-- Declaring a name. -/
theorem declare (h : Behind U T T') (hs : s < T.size) (n : String) :
    Behind U (T.modify s (·.declare n)) (T'.modify (U.shift s) (·.declare n)) := by
  by_cases hr : s = root
  · subst hr
    have hs' : root < T'.size := h.shift_lt hs
    have first : (T.modify root (·.declare n)).scope root = (T.scope root).declare n := by
      rw [scope_modify hs, if_pos rfl]
    have second : (T'.modify root (·.declare n)).scope root = (T'.scope root).declare n := by
      rw [scope_modify hs', if_pos rfl]
    refine ⟨⟨by rw [size_modify]; exact h.pos, ?_, ?_, fun t ht htlt => ?_, fun t htlt => ?_⟩,
      by rw [size_modify, size_modify, h.size], h.before, fun m => ?_, fun t ht htlt => ?_⟩
    · rw [first]
      exact ⟨h.top.kind, h.top.outer, h.top.free, h.top.cells⟩
    · rw [shift_root, second]
      exact ⟨h.top'.kind, h.top'.outer, h.top'.free, h.top'.cells⟩
    · rw [size_modify] at htlt
      rw [shift_root, scope_modify hs', scope_modify hs, if_neg (shift_ne_root ht), if_neg ht]
      exact h.scope t ht htlt
    · rw [size_modify] at htlt ⊢
      have same : (T.modify root (·.declare n)).chain t = T.chain t := by
        rw [Scopes.chain, scope_modify hs]
        split <;> rfl
      rw [same]
      exact h.rooted t htlt
    · have hm := h.global m
      simp only [isGlobal, Scope.declares] at hm
      rw [shift_root, isGlobal, isGlobal, first, second]
      simp only [Scope.declares, Scope.declare, List.contains_cons, hm, isGlobal, Bool.or_assoc]
    · rw [shift_root, scope_modify hs', if_neg ht]
      exact h.old t ht htlt
  · exact h.modify hr hs (fun _ => rfl) fun _ => rfl

theorem declareAll (h : Behind U T T') (hs : s < T.size) (names : List String) :
    Behind U (T.declareAll s names) (T'.declareAll (U.shift s) names) := by
  induction names generalizing T T' with
  | nil => exact h
  | cons n names ih =>
    refine ih (h.declare hs n) ?_
    rw [size_modify]
    exact hs

/-- Opening a scope. -/
theorem push (h : Behind U T T') (hs : s < T.size) (k : Scope.Kind) :
    Behind U (T.push k s) (T'.push k (U.shift s)) := by
  have hpos' : root < T'.size := h.shift_lt h.pos
  have first : (T.push k s).scope root = T.scope root := scope_push_of_lt h.pos
  have second : (T'.push k (U.shift s)).scope root = T'.scope root := scope_push_of_lt hpos'
  refine ⟨⟨by rw [size_push]; exact Nat.succ_pos _, first ▸ h.top, second ▸ h.top', fun t ht htlt => ?_,
    fun t htlt => ?_⟩, ?_, h.before, fun n => ?_, fun t ht htlt => ?_⟩
  · rw [size_push] at htlt
    rcases Nat.lt_succ_iff_lt_or_eq.1 htlt with hlt | rfl
    · rw [scope_push_of_lt (h.shift_lt hlt), scope_push_of_lt hlt]
      exact h.scope t ht hlt
    · rw [h.shift_size, scope_push_size, scope_push_size, h.chain hs]
      rfl
  · rw [size_push] at htlt ⊢
    rcases Nat.lt_succ_iff_lt_or_eq.1 htlt with hlt | rfl
    · obtain ⟨pre, hpre, hin⟩ := h.rooted t hlt
      rw [(later_push T k s).chain hlt]
      exact ⟨pre, hpre, fun u hu => ⟨(hin u hu).1, Nat.lt_succ_of_lt (hin u hu).2⟩⟩
    · obtain ⟨pre, hpre, hin⟩ := h.rooted s hs
      refine ⟨T.size :: pre, ?_, fun u hu => ?_⟩
      · rw [Scopes.chain, scope_push_size]
        exact congrArg (T.size :: ·) hpre
      · rcases List.mem_cons.1 hu with rfl | hu
        · exact ⟨Nat.ne_of_gt h.pos, Nat.lt_succ_self _⟩
        · exact ⟨(hin u hu).1, Nat.lt_succ_of_lt (hin u hu).2⟩
  · have := h.size
    rw [size_push, size_push]
    omega
  · rw [isGlobal, isGlobal, first, second]
    exact h.global n
  · have hsize := h.size
    have hpos := h.pos
    rw [scope_push_of_lt (Nat.lt_of_lt_of_le htlt (by omega))]
    exact h.old t ht htlt

theorem openFunction (h : Behind U T T') (hs : s < T.size) (names : List String) :
    Behind U (T.openFunction s names) (T'.openFunction (U.shift s) names) := by
  rw [Scopes.openFunction, Scopes.openFunction, ← h.shift_size]
  exact (h.push hs .function).declareAll lt_size_push names

theorem addFree (h : Behind U T T') {path : List ScopeId} (hp : ∀ t ∈ path, t ≠ root ∧ t < T.size) :
    Behind U (path.foldl (fun T t => T.modify t (·.addFree n)) T)
      ((path.map U.shift).foldl (fun T t => T.modify t (·.addFree n)) T') := by
  induction path generalizing T T' with
  | nil => exact h
  | cons t path ih =>
    have ht := hp t List.mem_cons_self
    have marked : Behind U (T.modify t (·.addFree n)) (T'.modify (U.shift t) (·.addFree n)) :=
      h.modify ht.1 ht.2 (fun _ => rfl) fun _ => rfl
    refine ih marked fun u hu => ?_
    rw [size_modify]
    exact hp u (List.mem_cons_of_mem t hu)

/-- The scopes on the way to a scope that is not global are not global either. -/
theorem pathTo_ne_root (h : Behind U T T') (hs : s < T.size) (hm : o ∈ T.chain s) (ho : o ≠ root)
    (ht : t ∈ T.pathTo s o) : t ≠ root := by
  obtain ⟨pre, hpre, hin⟩ := h.rooted s hs
  rw [hpre, List.mem_append, List.mem_singleton] at hm
  obtain ⟨before, after, hsplit⟩ := List.append_of_mem (hm.resolve_right ho)
  rw [Scopes.pathTo, hpre, hsplit, List.append_assoc, List.takeWhile_append] at ht
  split at ht
  · rw [List.cons_append, List.takeWhile_cons_of_neg (by simp), List.append_nil] at ht
    exact (hin t (hsplit ▸ List.mem_append_left _ ht)).1
  · exact (hin t (hsplit ▸ List.mem_append_left _ ((List.takeWhile_sublist _).mem ht))).1

/-- Recording a reference to a name that is found. -/
theorem capture (h : Behind U T T') (hs : s < T.size) (ho : T.lookup s n = some o) :
    Behind U (T.capture s o n) (T'.capture (U.shift s) (U.shift o) n) := by
  have hm : o ∈ T.chain s := List.mem_of_find?_eq_some ho
  have hlt := h.chain_lt hs hm
  unfold Scopes.capture
  rw [h.captures hs hlt]
  split
  · next hc =>
    have hr : o ≠ root := by
      rintro rfl
      rw [Scopes.captures, h.top.kind] at hc
      simp at hc
    rw [h.pathTo hs]
    have marked : Behind U (T.modify o (·.addCell n)) (T'.modify (U.shift o) (·.addCell n)) :=
      h.modify hr hlt (fun _ => rfl) fun _ => rfl
    refine marked.addFree fun t ht => ?_
    rw [size_modify]
    exact ⟨h.pathTo_ne_root hs hm hr ht, h.chain_lt hs ((List.takeWhile_sublist _).mem ht)⟩
  · exact h

end Behind

/-- A reference to a global variable captures nothing. -/
theorem capture_root (h : (T.scope root).Top) : T.capture s root n = T := by
  rw [capture, captures, h.kind, if_neg (by simp)]

end Scopes

/-! ## Resolved expressions -/

/-- What the walk finds about a name behind the scopes `U`, by what it finds alone. -/
def Binding.behind (U : Scopes) (n : String) : Binding → Binding
  | .unbound => .unbound
  | .reference (some o) => .reference (some (U.shift o))
  | .reference none => .reference (if U.isGlobal n then some Scopes.root else none)

namespace Resolved

mutual

/-- The resolved expression behind the scopes `U`. -/
def behind (U : Scopes) : Resolved → Resolved
  | .number x => .number x
  | .string text => .string text
  | .symbol name binding => .symbol name (binding.behind U name)
  | .list scope items => .list (scope.map U.shift) (behindEntries U items)

/-- The entries of a list behind the scopes `U`. -/
def behindEntries (U : Scopes) : List Resolved → List Resolved
  | [] => []
  | r :: rs => behind U r :: behindEntries U rs

end

mutual

theorem behind_plain (U : Scopes) (e : Expr) : (plain e).behind U = plain e := by
  cases e with
  | list items => simp [plain, behind, behindEntries_plainEntries U items]
  | _ => rfl

theorem behindEntries_plainEntries (U : Scopes) (es : List Expr) :
    behindEntries U (plainEntries es) = plainEntries es := by
  cases es with
  | nil => rfl
  | cons e es =>
    simp [plainEntries, behindEntries, behind_plain U e, behindEntries_plainEntries U es]

end

end Resolved

/-! ## The walk -/

variable {U : Scopes}

open Scopes

theorem Walk.refer_behind {T T' : Scopes} {s : Nat} (h : Behind U T T') (hs : s < T.size) (n : String) :
    (refer (U.shift s) n T').1 = (refer s n T).1.behind U n ∧
      Behind U (refer s n T).2 (refer (U.shift s) n T').2 := by
  unfold refer
  rw [h.lookup hs]
  cases ho : T.lookup s n with
  | some o => exact ⟨rfl, h.capture hs ho⟩
  | none =>
    simp only [Binding.behind]
    cases U.isGlobal n with
    | true =>
      simp only [if_true, capture_root h.top']
      exact ⟨trivial, h⟩
    | false => exact ⟨rfl, h⟩

namespace Expr

mutual

/-- The walk over an expression behind another program. -/
theorem resolve_behind {T T' : Scopes} {s : Nat} (h : Behind U T T') (hs : s < T.size) (e : Expr) :
    (resolve (U.shift s) e T').1 = (resolve s e T).1.behind U ∧
      Behind U (resolve s e T).2 (resolve (U.shift s) e T').2 := by
  cases e with
  | number x => exact ⟨rfl, h⟩
  | string text => exact ⟨rfl, h⟩
  | symbol name =>
    rw [resolve, resolve]
    split
    · exact ⟨rfl, h⟩
    · obtain ⟨hb, hT⟩ := Walk.refer_behind h hs name
      exact ⟨congrArg (Resolved.symbol name) hb, hT⟩
  | list items =>
    rw [resolve, resolve]
    cases Head.ofItems? items with
    | none =>
      obtain ⟨hr, hT⟩ := resolveEntries_behind h hs 0 items
      exact ⟨congrArg (Resolved.list none) hr, hT⟩
    | some head =>
      cases head with
      | block =>
        obtain ⟨hr, hT⟩ := resolveEntries_behind (h.push hs .block) lt_size_push 1 items
        rw [h.shift_size] at hr hT
        refine ⟨?_, hT⟩
        change Resolved.list (some T'.size) _ = Resolved.list (some (U.shift T.size)) _
        rw [h.shift_size, hr]
      | declare =>
        have hs' : s < (T.declareAll s (symbolAt items 1)).size := size_declareAll.symm ▸ hs
        obtain ⟨hr, hT⟩ := resolveEntries_behind (h.declareAll hs _) hs' 2 items
        exact ⟨congrArg (Resolved.list none) hr, hT⟩
      | define =>
        have hs' : s < (T.declareAll s (symbolAt items 1)).size := size_declareAll.symm ▸ hs
        have declared := h.declareAll hs (symbolAt items 1)
        have opened := (declared.openFunction hs' (symbolAt items 1)).declareAll lt_size_openFunction
          (symbolsAt items 2)
        obtain ⟨hr, hT⟩ := resolveEntries_behind opened
          (Nat.lt_of_lt_of_eq lt_size_openFunction size_declareAll.symm) 3 items
        rw [declared.shift_size] at hr hT
        refine ⟨?_, hT⟩
        change Resolved.list (some (T'.declareAll (U.shift s) (symbolAt items 1)).size) _ =
          Resolved.list (some (U.shift (T.declareAll s (symbolAt items 1)).size)) _
        rw [declared.shift_size]
        exact congrArg (Resolved.list _) hr
      | lambda =>
        obtain ⟨hr, hT⟩ := resolveEntries_behind (h.openFunction hs (symbolsAt items 1))
          lt_size_openFunction 2 items
        rw [h.shift_size] at hr hT
        refine ⟨?_, hT⟩
        change Resolved.list (some T'.size) _ = Resolved.list (some (U.shift T.size)) _
        rw [h.shift_size]
        exact congrArg (Resolved.list _) hr
      | _ =>
        obtain ⟨hr, hT⟩ := resolveEntries_behind h hs 1 items
        exact ⟨congrArg (Resolved.list none) hr, hT⟩

/-- The walk over the entries of a list behind another program. -/
theorem resolveEntries_behind {T T' : Scopes} {s : Nat} (h : Behind U T T') (hs : s < T.size)
    (skip : Nat) (es : List Expr) :
    (resolveEntries (U.shift s) skip es T').1 = Resolved.behindEntries U (resolveEntries s skip es T).1 ∧
      Behind U (resolveEntries s skip es T).2 (resolveEntries (U.shift s) skip es T').2 := by
  cases es with
  | nil => cases skip <;> exact ⟨rfl, h⟩
  | cons e es =>
    cases skip with
    | zero =>
      obtain ⟨hr, hT⟩ := resolve_behind h hs e
      obtain ⟨hrs, hT'⟩ := resolveEntries_behind hT ((resolve_extends s e T hs).lt hs) 0 es
      refine ⟨?_, hT'⟩
      change (resolve (U.shift s) e T').1 :: _ = _ :: _
      rw [hr]
      exact congrArg _ hrs
    | succ skip =>
      obtain ⟨hrs, hT'⟩ := resolveEntries_behind h hs skip es
      refine ⟨?_, hT'⟩
      change Resolved.plain e :: _ = Resolved.behind U (Resolved.plain e) :: _
      rw [Resolved.behind_plain]
      exact congrArg _ hrs

end

end Expr

end ByteLisp
