/-
  ByteLisp: what stays over all calls of an engine.

  Compiled code refers to global variables by their places. Programs are compiled
  and run in any order, native functions are added in between, and any of these
  calls may fail.

  * `Engine.Call`: one call of an engine, `Engine.Serves`: any calls one after the
    other; `serves_eval` says that compiling and running at once is two of them;
  * `Engine.Permanent`: variables keep their places, and only the values in cells
    change on the heap;
  * `Expr.compile_uses`: what a program leads to uses variables that are there;
  * `Serves.permanent` puts this together for all sessions.
-/
import ByteLisp.Proofs.Code.WellFormed
import ByteLisp.Proofs.Engine.Safety
import ByteLisp.Proofs.Generation.Fresh
import ByteLisp.Proofs.Machine.Lasting
import Mathlib.Data.List.Nodup

namespace ByteLisp

/-! ## Names -/

namespace Globals

theorem Adds.nodup {N : String → Prop} {g g' : Globals} (h : g.Adds N g') (hn : g.names.Nodup) :
    g'.names.Nodup := by
  obtain ⟨ns, rfl, hns, hnew⟩ := h
  rw [names_adding]
  exact List.nodup_append.2 ⟨hn, hns, fun a ha b hb hab => (hnew b hb).2 (hab ▸ ha)⟩

end Globals

namespace Engine

variable {e e' e'' : Engine} {mains mains' mains'' : List Handle} {main : Handle}

/-! ## Calls -/

/-- One call of an engine, with the main code objects that compilations have returned: compiling a
    program, running one that was compiled, with or without a listing first, and adding a native
    function. Each may fail. -/
inductive Call (e : Engine) (mains : List Handle) : Engine → List Handle → Prop
  | compile (src : List Char) :
    Call e mains (after (compile src e)) (returned (compile src e) ++ mains)
  | run (budget : Nat) {main : Handle} (hm : main ∈ mains) :
    Call e mains (after (execute budget main e)) mains
  | launch (budget : Nat) {main : Handle} (hm : main ∈ mains) :
    Call e mains (after (launch budget main e)) mains
  | addNative (n : Native) : Call e mains (after (addNative n e)) mains

/-- Any number of calls. -/
inductive Serves (e : Engine) (mains : List Handle) : Engine → List Handle → Prop
  | refl : Serves e mains e mains
  | call {e' e'' : Engine} {mains' mains'' : List Handle} (h : Serves e mains e' mains')
    (hc : Call e' mains' e'' mains'') : Serves e mains e'' mains''

/-- Compiling a program and running it at once is a compilation and then a run. -/
theorem eval_eq (budget : Nat) (src : List Char) :
    eval budget src = (do launch budget (← compile src)) := by
  simp only [eval, evalProgram, compile, bind_assoc]

theorem serves_eval (budget : Nat) (src : List Char) (e : Engine) (mains : List Handle) :
    e.Serves mains (after (eval budget src e)) (returned (compile src e) ++ mains) := by
  have hcompile : e.Serves mains _ _ := Serves.refl.call (.compile src)
  have heval : eval budget src e = EStateM.bind (compile src) (launch budget) e := by rw [eval_eq]; rfl
  rw [heval, EStateM.bind]
  cases hx : compile src e with
  | error err e' =>
    rw [hx] at hcompile
    exact hcompile
  | ok main e' =>
    rw [hx] at hcompile
    exact hcompile.call (.launch budget List.mem_cons_self)

/-! ## What one call keeps -/

/-- Objects and variables stay, and names stay distinct. -/
structure Keeps (e e' : Engine) : Prop where
  world : e.world.Leads e'.world
  names : e.globals.names.Nodup → e'.globals.names.Nodup

theorem Keeps.refl (e : Engine) : e.Keeps e := ⟨.refl _, fun h => h⟩

theorem Keeps.trans (h : e.Keeps e') (h' : e'.Keeps e'') : e.Keeps e'' :=
  ⟨h.world.trans h'.world, fun hn => h'.names (h.names hn)⟩

theorem keeps_extends {N : String → Prop} (h : e.world.Extends N e'.world) : e.Keeps e' :=
  ⟨h.leads, h.added.nodup⟩

theorem ends_compileProgram_keeps (program : Expr) (e : Engine) :
    Ends (compileProgram program) e
      (fun main e' => e.Keeps e' ∧ (program.compile e.heap e.globals).result = .ok main ∧
        e'.world = (program.compile e.heap e.globals).world)
      fun _ e' => e.Keeps e' := by
  have hx : e.world.Extends (fun _ => True) (program.compile e.heap e.globals).world :=
    Expr.compile_extends Form.admits_true
  refine ends_bind (ends_get (ends_bind (ends_set (ends_bind (ends_debugAll fun log => ?_)))))
  cases hr : (program.compile e.heap e.globals).result with
  | ok main => exact ends_bind (ends_modify (ends_pure ⟨keeps_extends hx, rfl, rfl⟩))
  | error err => exact ends_bind (ends_modify (ends_throw (keeps_extends hx.truncate)))

theorem ends_compile_keeps (src : List Char) (e : Engine) :
    Ends (compile src) e
      (fun main e' => e.Keeps e' ∧ ∃ program : Expr,
        (program.compile e.heap e.globals).result = .ok main ∧
          e'.world = (program.compile e.heap e.globals).world)
      fun _ e' => e.Keeps e' := by
  refine ends_bind (ends_parse (fun program log _ => ?_) fun _ log => ⟨.refl _, fun h => h⟩)
  exact (ends_compileProgram_keeps program { e with log := log }).mono
    (fun _ _ h => ⟨⟨h.1.world, h.1.names⟩, program, h.2⟩) fun _ _ h => ⟨h.world, h.names⟩

theorem keeps_machine {m : Machine} (h : e.machine.Preserves m) :
    e.Keeps { e with heap := m.heap, globals := m.globals } :=
  ⟨h.world, fun hn => h.names ▸ hn⟩

theorem ends_runMain_keeps (budget : Nat) (main : Handle) (e : Engine) :
    Ends (runMain budget main) e (fun _ e' => e.Keeps e') fun _ e' => e.Keeps e' := by
  cases hr : e.machine.runMain budget main with
  | none => exact ends_of_ok none e (by rw [runMain, hr]) (.refl e)
  | some ending =>
    have hp := Machine.runMain_preserves hr
    cases ending with
    | ok v m =>
      exact ends_of_ok (some v) { e with heap := m.heap, globals := m.globals } (by rw [runMain, hr])
        (keeps_machine hp)
    | error f m =>
      exact ends_of_error (.fault f) { e with heap := m.heap, globals := m.globals }
        (by rw [runMain, hr]) (keeps_machine hp)

theorem ends_execute_keeps (budget : Nat) (main : Handle) (e : Engine) :
    Ends (execute budget main) e (fun _ e' => e.Keeps e') fun _ e' => e.Keeps e' := by
  refine ends_bind (ends_get ?_)
  split
  · exact ends_bind (ends_get (ends_bind (ends_modify ((ends_runMain_keeps budget main _).mono
      (fun _ _ h => ⟨h.world, h.names⟩) fun _ _ h => ⟨h.world, h.names⟩))))
  · exact ends_runMain_keeps budget main e

theorem ends_launch_keeps (budget : Nat) (main : Handle) (e : Engine) :
    Ends (launch budget main) e (fun _ e' => e.Keeps e') fun _ e' => e.Keeps e' := by
  refine ends_bind (ends_get ?_)
  split
  · refine ends_bind (ends_list (fun text => ?_) fun _ => .refl e)
    exact ends_bind (ends_debug fun log => (ends_execute_keeps budget main _).mono
      (fun _ _ h => ⟨h.world, h.names⟩) fun _ _ h => ⟨h.world, h.names⟩)
  · exact ends_execute_keeps budget main e

theorem ends_addNative_keeps (n : Native) (e : Engine) :
    Ends (addNative n) e (fun _ e' => e.Keeps e') fun _ e' => e.Keeps e' := by
  change e.Keeps { e with
    globals := (e.globals.addNative e.heap n).2.1
    heap := (e.globals.addNative e.heap n).2.2 }
  unfold Globals.addNative
  cases hix : e.globals.indexOf? n.name with
  | some ix => exact .refl e
  | none =>
    have halloc := e.world.leads_alloc (.native n)
    refine ⟨⟨halloc.objects, halloc.cells, fun ix name hname => ?_⟩, fun hnodup => ?_⟩
    · obtain ⟨x, hx, rfl⟩ := Option.map_eq_some_iff.1 hname
      exact Option.map_eq_some_iff.2 ⟨x, getElem?_push_of_some hx, rfl⟩
    · have hnew := Globals.indexOf?_eq_none.1 hix
      have hnames : Globals.names ⟨e.globals.entries.push ⟨n.name, some (.object e.heap.size)⟩⟩ =
          e.globals.names ++ [n.name] := by simp [Globals.names]
      rw [hnames]
      exact List.nodup_append.2 ⟨hnodup, List.nodup_singleton _, fun a ha b hb hab =>
        hnew (List.mem_singleton.1 hb ▸ hab ▸ ha)⟩

theorem keeps_after {α : Type} {x : Session α}
    (h : Ends x e (fun _ e' => e.Keeps e') fun _ e' => e.Keeps e') : e.Keeps (after (x e)) := by
  cases hx : x e with
  | ok a e' => exact h.ok hx
  | error err e' => exact h.error hx

theorem Call.keeps (h : e.Call mains e' mains') : e.Keeps e' := by
  cases h with
  | compile src => exact keeps_after ((ends_compile_keeps src e).mono (fun _ _ h => h.1) fun _ _ h => h)
  | run budget => exact keeps_after (ends_execute_keeps budget _ e)
  | launch budget => exact keeps_after (ends_launch_keeps budget _ e)
  | addNative n => exact keeps_after (ends_addNative_keeps n e)

theorem Serves.keeps (h : e.Serves mains e' mains') : e.Keeps e' := by
  induction h with
  | refl => exact .refl e
  | call _ hc ih => exact ih.trans hc.keeps

/-! ## What all calls keep -/

/-- Variables keep their places, the heap grows, and only the values in cells change on it. -/
structure Permanent (e e' : Engine) : Prop where
  indices : ∀ name ix, e.globals.indexOf? name = some ix → e'.globals.indexOf? name = some ix
  size : e.heap.size ≤ e'.heap.size
  objects : ∀ i o, e.heap.get? i = some o →
    e'.heap.get? i = some o ∨ ∃ v v', o = .cell v ∧ e'.heap.get? i = some (.cell v')

theorem Keeps.lasts (h : e.Keeps e') : e.Permanent e' := by
  have objects : ∀ i o, e.heap.get? i = some o →
      e'.heap.get? i = some o ∨ ∃ v v', o = .cell v ∧ e'.heap.get? i = some (.cell v') := by
    intro i o hi
    by_cases ho : ∃ v, o = .cell v
    · obtain ⟨v, rfl⟩ := ho
      obtain ⟨v', hv'⟩ := h.world.cells i ⟨v, Heap.cell?_eq_some.2 hi⟩
      exact Or.inr ⟨v, v', rfl, Heap.cell?_eq_some.1 hv'⟩
    · exact Or.inl (h.world.objects i o hi (not_exists.1 ho))
  refine ⟨fun name ix hix => ?_, ?_, objects⟩
  · exact Globals.indexOf?_later h.world.globals hix
  · refine Nat.le_of_not_lt fun hlt => ?_
    obtain ⟨o, ho⟩ : ∃ o, e.heap.get? e'.heap.size = some o := ⟨_, Array.getElem?_eq_getElem hlt⟩
    rcases objects _ o ho with hi | ⟨_, _, -, hi⟩
    all_goals exact Nat.lt_irrefl _ (Heap.lt_size_of_get? hi)

end Engine

/-! ## Variables of compiled code -/

/-- A code object refers to the global variable at a place. -/
def Code.Uses (c : Code) (ix : UInt8) : Prop :=
  ∃ is p, c.instrs = .ok is ∧ ((p, .getGlobal ix) ∈ is ∨ (p, .setGlobal ix) ∈ is)

/-- What a program leads to was allocated when it was compiled, and has not changed since. -/
theorem Expr.compile_reaches {e : Expr} {heap : Heap} {globals : Globals} {main i : Handle} {W : World}
    (h : (e.compile heap globals).result = .ok main) (hl : (e.compile heap globals).world.Leads W)
    (hi : W.heap.Reaches main i) :
    i.Between heap.size (e.compile heap globals).heap.size ∧
      (e.compile heap globals).heap.get? i = W.heap.get? i := by
  obtain ⟨hmain, hnew⟩ := e.compile_fresh h
  have same {j : Handle} (hj : j.Between heap.size (e.compile heap globals).heap.size) :
      (e.compile heap globals).heap.get? j = W.heap.get? j := by
    have hobj := Array.getElem?_eq_getElem hj.2
    have ho := hnew j _ hj.1 hobj
    refine hobj.trans (hl.objects j _ hobj fun v hv => ?_).symm
    rw [hv] at ho
    exact ho
  induction hi with
  | refl => exact ⟨hmain, same hmain⟩
  | next _ ho hk ih =>
    have hk := (hnew _ _ ih.1.1 (ih.2.trans ho)).mentions hk
    exact ⟨hk, same hk⟩

/-- The code objects that a program leads to decode, and use variables that are in the table. -/
theorem Expr.compile_uses {e : Expr} {heap : Heap} {globals : Globals} {main i : Handle} {W : World}
    {c : Code} (h : (e.compile heap globals).result = .ok main)
    (hl : (e.compile heap globals).world.Leads W) (hi : W.heap.Reaches main i)
    (hc : W.heap.code? i = some c) :
    (∃ is, c.instrs = .ok is) ∧ ∀ ix, c.Uses ix → ix.toNat < (e.compile heap globals).globals.size := by
  obtain ⟨hnew, hsame⟩ := e.compile_reaches h hl hi
  have hc : (e.compile heap globals).heap.code? i = some c :=
    Heap.code?_eq_some.2 (hsame.trans (Heap.code?_eq_some.1 hc))
  obtain ⟨⟨d, hd, hmain⟩, hfun⟩ := Expr.compile_wellFormed h
  obtain ⟨last, body, his, -, hsense, -⟩ : ∃ last, c.WellFormed (e.compile heap globals).heap
      (e.compile heap globals).globals last := by
    by_cases him : i = main
    · subst him
      cases hd.symm.trans hc
      exact ⟨.halt, hmain⟩
    · exact ⟨.ret, hfun i c hnew.1 him hc⟩
  refine ⟨⟨_, his⟩, ?_⟩
  rintro ix ⟨is, p, his', huse⟩
  cases his.symm.trans his'
  refine hsense.globals ix (huse.imp (fun hm => ?_) fun hm => ?_)
  all_goals
    obtain ⟨pre, post, hcode, -⟩ := Instr.mem_placed.1 hm
    simp [hcode]

namespace Engine

variable {e e' : Engine} {mains mains' : List Handle} {limits : Limits} {verbosity : Verbosity}

theorem names_start :
    (start limits verbosity).globals.names = ["VERSION", "square", "abs", "max", "min"] := by
  cbv

/-- Over all calls, global variables keep their places and stay distinct, the heap only grows, and only
    the values in cells change on it. All code that a compiled program leads to uses, at all later
    times, the variables that it was compiled for. -/
theorem Serves.permanent (h : (start limits verbosity).Serves [] e mains)
    (h' : e.Serves mains e' mains') :
    e'.globals.names.Nodup ∧ e.Permanent e' ∧
      ∀ src main e₁, compile src e = .ok main e₁ → ∀ e₂ mains₂, e₁.Serves (main :: mains) e₂ mains₂ →
        ∀ i c, e₂.heap.Reaches main i → e₂.heap.code? i = some c →
          (∃ is, c.instrs = .ok is) ∧ ∀ ix, c.Uses ix →
            ∃ name, e₁.globals.indexOf? name = some ix.toNat ∧
              e₂.globals.indexOf? name = some ix.toNat := by
  have hnames : e.globals.names.Nodup := h.keeps.names (by rw [names_start]; decide)
  refine ⟨h'.keeps.names hnames, h'.keeps.lasts, fun src main e₁ hcompile e₂ mains₂ hlater i c hi hc => ?_⟩
  obtain ⟨hkeeps, program, hr, hworld⟩ := (ends_compile_keeps src e).ok hcompile
  have hlater := hlater.keeps
  obtain ⟨his, huses⟩ := program.compile_uses hr (hworld ▸ hlater.world) hi hc
  refine ⟨his, fun ix hix => ?_⟩
  have hlt : ix.toNat < e₁.globals.size := by
    have hglobals : e₁.globals = (program.compile e.heap e.globals).globals := congrArg World.globals hworld
    rw [hglobals]
    exact huses ix hix
  obtain ⟨name, hname⟩ := Globals.name?_of_lt_size hlt
  have hfirst : e₁.globals.indexOf? name = some ix.toNat := by
    refine Globals.indexOf?_eq_some.2 ⟨hname, fun j hj hj' => ?_⟩
    have hlength : ix.toNat < e₁.globals.names.length := by simpa [Globals.names, Globals.size] using hlt
    refine List.nodup_iff_getElem?_ne_getElem?.1 (hkeeps.names hnames) j ix.toNat hj hlength ?_
    rw [Globals.names_getElem?, Globals.names_getElem?, hj', hname]
  exact ⟨name, hfirst, hlater.lasts.indices name _ hfirst⟩

/-- A function that refers to itself. -/
def returning : List Char := "(def f () f)".toList

/-- A function that refers to itself and then to a variable that is not declared. -/
def failing : List Char := "(def g () (begin g z))".toList

set_option maxRecDepth 4000 in
theorem permanent_returning :
    (start .usual .quiet).Serves [] (after (compile failing (start .usual .quiet))) [] ∧
      (after (compile failing (start .usual .quiet))).Serves []
        (after (compile returning (after (compile failing (start .usual .quiet))))) [6] ∧
      (after (compile returning (after (compile failing (start .usual .quiet))))).globals.names =
        ["VERSION", "square", "abs", "max", "min", "f"] ∧
      (after (compile failing (start .usual .quiet))).Permanent
        (after (compile returning (after (compile failing (start .usual .quiet))))) := by
  have hnone : returned (compile failing (start .usual .quiet)) = [] := by cbv
  have hmain : returned (compile returning (after (compile failing (start .usual .quiet)))) = [6] := by cbv
  have h₁ : (start .usual .quiet).Serves [] _ _ := Serves.refl.call (.compile failing)
  rw [hnone] at h₁
  have h₂ : (after (compile failing (start .usual .quiet))).Serves [] _ _ :=
    Serves.refl.call (.compile returning)
  rw [hmain] at h₂
  exact ⟨h₁, h₂, by cbv, (Serves.permanent h₁ h₂).2.1⟩

end Engine

end ByteLisp
