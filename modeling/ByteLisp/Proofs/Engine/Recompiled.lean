/-
  ByteLisp: compiling a source again.

  A source that has been compiled compiles at any later time: the variables that it uses are
  there, at the same places, and the new objects have other handles.

  * `Engine.renamed`: the handles that new objects get the second time;
  * `Engine.Repeated`: what the second compilation gives, as compared with the first;
  * `Serves.recompiles` is the result for all sessions.
-/
import ByteLisp.Proofs.Engine.Sessions
import ByteLisp.Proofs.Generation.Renamed

namespace ByteLisp

/-- The code objects with their handles from `n` on, in the order of allocation. -/
def Heap.codesFrom (h : Heap) (n : Nat) : List (Handle × Code) := h.codes.filter fun p => n ≤ p.1

theorem Heap.codesFrom_eq (h : Heap) {n k : Nat} (hs : h.size = n + k) :
    h.codesFrom n = (List.range k).filterMap fun j => (h.code? (n + j)).map (n + j, ·) := by
  rw [codesFrom, codes, hs, List.range_add, List.filterMap_append, List.filter_append, List.filterMap_map]
  have before :
      ((List.range n).filterMap fun i => (h.code? i).map (i, ·)).filter (fun p => n ≤ p.1) = [] := by
    refine List.filter_eq_nil_iff.2 fun p hp => ?_
    obtain ⟨i, hi, hp⟩ := List.mem_filterMap.1 hp
    obtain ⟨c, -, rfl⟩ := Option.map_eq_some_iff.1 hp
    simpa using hi
  rw [before, List.nil_append]
  refine List.filter_eq_self.2 fun p hp => ?_
  obtain ⟨j, -, hp⟩ := List.mem_filterMap.1 hp
  obtain ⟨c, -, rfl⟩ := Option.map_eq_some_iff.1 hp
  simp

namespace Engine

variable {e e₁ e₂ e₃ : Engine} {mains mains₂ : List Handle} {main : Handle} {src : List Char}

/-- Where the engine `e` allocates its next objects, the engine `e'` allocates these; objects that `e`
    has keep their handles. -/
def renamed (e e' : Engine) (i : Nat) : Nat :=
  if i < e.heap.size then i else e'.heap.size + (i - e.heap.size)

theorem renamed_new (e e' : Engine) (k : Nat) : e.renamed e' (e.heap.size + k) = e'.heap.size + k := by
  rw [renamed, if_neg (by omega), Nat.add_sub_cancel_left]

theorem renamed_injective (hs : e.heap.size ≤ e₂.heap.size) : Function.Injective (e.renamed e₂) := by
  intro i j hij
  unfold renamed at hij
  split at hij <;> split at hij <;> omega

/-- Strings keep their texts, and no other object becomes a string. -/
theorem Permanent.strings (h : e.Permanent e₂) (i : Handle) :
    e₂.heap.string? (e.renamed e₂ i) = e.heap.string? i := by
  unfold renamed
  split
  · next hi =>
    have ho : e.heap.get? i = some _ := Array.getElem?_eq_getElem hi
    rw [Heap.string?, Heap.string?, ho]
    rcases h.objects i _ ho with hsame | ⟨v, v', hv, hv'⟩
    · rw [hsame]
    · rw [hv, hv']
  · next hi =>
    have first : e.heap.get? i = none := Array.getElem?_eq_none (Nat.le_of_not_lt hi)
    have second : e₂.heap.get? (e₂.heap.size + (i - e.heap.size)) = none :=
      Array.getElem?_eq_none (Nat.le_add_right _ _)
    rw [Heap.string?, Heap.string?, first, second]

/-- The engine `e` has compiled a source and become `e₁`, and later `e₂` has compiled it again and become
    `e₃`. No variable is added the second time. The code objects are the same, in the same order: they
    have the same names, arities, bytes, local variables and cells, and the same constants but for the
    handles of objects, which were all new; so are all other new objects. -/
structure Repeated (e e₁ e₂ e₃ : Engine) : Prop where
  globals : e₃.globals = e₂.globals
  codes : e₃.heap.codesFrom e₂.heap.size = (e₁.heap.codesFrom e.heap.size).map fun p =>
    (e.renamed e₂ p.1, p.2.rename (e.renamed e₂))
  fresh : ∀ p ∈ e₁.heap.codesFrom e.heap.size, ∀ i, .object i ∈ p.2.constants →
    e.heap.size ≤ i ∧ i < e₁.heap.size
  objects : ∀ i o, e.heap.size ≤ i → e₁.heap.get? i = some o →
    e₃.heap.get? (e.renamed e₂ i) = some (o.rename (e.renamed e₂))

/-! ## Compilations that succeed -/

theorem ends_parse_ok {program : Expr} {Q : Expr → Engine → Prop} {E : ProgramError → Engine → Prop}
    (hp : Expr.parseProgram src = .ok program) (h : ∀ log, Q program { e with log := log }) :
    Ends (parse src) e Q E := by
  unfold parse
  rw [hp]
  exact ends_bind (ends_debug fun _ => ends_bind (ends_debug fun log => ends_pure (h log)))

theorem ends_compileProgram_ok {program : Expr} (hr : (program.compile e.heap e.globals).result = .ok main) :
    Ends (compileProgram program) e
      (fun main' e' => main' = main ∧ e'.world = (program.compile e.heap e.globals).world)
      fun _ _ => False := by
  refine ends_bind (ends_get (ends_bind (ends_set (ends_bind (ends_debugAll fun log => ?_)))))
  rw [hr]
  exact ends_bind (ends_modify (ends_pure ⟨rfl, rfl⟩))

/-- A source is compiled if it is a program that is. -/
theorem compile_of_result {program : Expr} (hp : Expr.parseProgram src = .ok program)
    (hr : (program.compile e.heap e.globals).result = .ok main) :
    ∃ e', compile src e = .ok main e' ∧ e'.world = (program.compile e.heap e.globals).world := by
  have h : Ends (compile src) e
      (fun main' e' => main' = main ∧ e'.world = (program.compile e.heap e.globals).world) fun _ _ => False :=
    ends_bind (ends_parse_ok hp fun log => ends_compileProgram_ok (e := { e with log := log }) hr)
  cases hx : compile src e with
  | ok main' e' =>
    obtain ⟨rfl, hw⟩ := h.ok hx
    exact ⟨e', rfl, hw⟩
  | error err e' => exact (h.error hx).elim

/-- If a source is compiled, it is a program that is. -/
theorem result_of_compile (h : compile src e = .ok main e₁) :
    ∃ program, Expr.parseProgram src = .ok program ∧
      (program.compile e.heap e.globals).result = .ok main ∧
      e₁.world = (program.compile e.heap e.globals).world := by
  have hends : Ends (compile src) e (fun main' e' => ∃ program : Expr, Expr.parseProgram src = .ok program ∧
      (program.compile e.heap e.globals).result = .ok main' ∧
      e'.world = (program.compile e.heap e.globals).world) fun _ _ => True := by
    refine ends_bind (ends_parse (fun program log hp => ?_) fun _ _ => trivial)
    exact (ends_compileProgram_keeps program { e with log := log }).mono
      (fun _ _ h => ⟨program, hp, h.2⟩) fun _ _ _ => trivial
  exact hends.ok h

/-! ## Sessions -/

/-- A source that compiles does so again at any later time, and gives the same code. -/
theorem Serves.recompiles (hc : compile src e = .ok main e₁) (h : e₁.Serves mains e₂ mains₂) :
    ∃ e₃, compile src e₂ = .ok (e.renamed e₂ main) e₃ ∧ Repeated e e₁ e₂ e₃ := by
  obtain ⟨program, hp, hr, hw⟩ := result_of_compile hc
  have hheap : e₁.heap = (program.compile e.heap e.globals).heap := congrArg World.heap hw
  have hkeeps : e.Keeps e₁ := ((ends_compile_keeps src e).ok hc).1
  have hlasts : e.Permanent e₂ := (hkeeps.trans h.keeps).lasts
  have hglobals₁ : e₁.globals = (program.compile e.heap e.globals).globals := congrArg World.globals hw
  have hplaces : (program.compile e.heap e.globals).globals.Places e₂.globals := by
    rw [← hglobals₁]
    exact h.keeps.world.globals
  obtain ⟨hr₂, hglobals, hnext, hobjects⟩ := Expr.compile_retraces (renamed_injective hlasts.size)
    (e.renamed_new e₂) hlasts.strings hr hplaces
  obtain ⟨e₃, hc₂, hw₂⟩ := compile_of_result hp hr₂
  have hheap₃ : e₃.heap = (program.compile e₂.heap e₂.globals).heap := congrArg World.heap hw₂
  rw [← hheap] at hnext hobjects
  rw [← hheap₃] at hnext hobjects
  obtain ⟨k, hk⟩ := Nat.exists_eq_add_of_le hkeeps.lasts.size
  have hk₃ : e₃.heap.size = e₂.heap.size + k := by
    have hlast := hnext 0
    rw [Nat.add_zero, Nat.add_zero, hk, renamed_new] at hlast
    exact hlast.symm
  refine ⟨e₃, hc₂, (congrArg World.globals hw₂).trans hglobals, ?_, ?_, hobjects⟩
  · rw [Heap.codesFrom_eq _ hk₃, Heap.codesFrom_eq _ hk, List.map_filterMap]
    refine List.filterMap_congr fun j hj => ?_
    have hlt : e.heap.size + j < e₁.heap.size := by
      rw [hk]
      exact Nat.add_lt_add_left (List.mem_range.1 hj) _
    have ho := Array.getElem?_eq_getElem hlt
    have ho₃ := hobjects _ _ (Nat.le_add_right _ j) ho
    rw [renamed_new] at ho₃
    rw [Heap.code?, Heap.code?, ho₃, show e₁.heap.get? _ = _ from ho]
    cases e₁.heap.objects[e.heap.size + j] <;> simp [Object.rename, renamed_new]
  · intro p hmem i hi
    rw [Heap.codesFrom_eq _ hk] at hmem
    obtain ⟨j, -, hmem⟩ := List.mem_filterMap.1 hmem
    obtain ⟨c, hcode, rfl⟩ := Option.map_eq_some_iff.1 hmem
    rw [hheap] at hcode ⊢
    exact ((program.compile_fresh hr).2 _ _ (Nat.le_add_right _ j)
      (Heap.code?_eq_some.1 hcode) _ hi).handle i rfl

/-- A function with a function inside and a string. -/
def greeting : List Char := "(def f (x) (begin (def g () x) \"a\")) (f \"b\")".toList

set_option maxRecDepth 4000 in
theorem recompiles_greeting :
    let e := start .usual .quiet
    let e₁ := after (compile greeting e)
    let e₂ := after (execute 50 9 e₁)
    compile greeting e = .ok 9 e₁ ∧ e₁.Serves [9] e₂ [9] ∧
      ∃ e₃, compile greeting e₂ = .ok (e.renamed e₂ 9) e₃ ∧ Repeated e e₁ e₂ e₃ := by
  have hc : compile greeting (start .usual .quiet) = .ok 9 (after (compile greeting (start .usual .quiet))) :=
    ok_of_returned (by cbv)
  have hs : (after (compile greeting (start .usual .quiet))).Serves [9] _ [9] :=
    Serves.refl.call (.run 50 List.mem_cons_self)
  exact ⟨hc, hs, Serves.recompiles hc hs⟩

end Engine

end ByteLisp
