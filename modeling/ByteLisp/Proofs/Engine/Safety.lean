/-
  ByteLisp: engines run only sound code.

  * `Engine.Reachable`: an engine after any calls, with the main code objects
    that compilations have returned;
  * `Engine.Holds` is the invariant of engines, with any property that all compiled
    code has (`CodeLaw`), and `Reachable.holds` says that all calls keep it;
    `ReachableBy.holds` says so where only some programs are compiled, and a property that
    their code has;
  * `Reachable.run_sound` is the result: runs of compiled programs never get
    stuck, and at each step the stack is as high as the code says.

  Mathlib is imported whole: sessions are evaluated (`cbv`) by equations of the state
  monad that none of its parts has.
-/
import ByteLisp.Engine
import ByteLisp.Proofs.Generation.Typing
import ByteLisp.Proofs.Machine.Safety
import Mathlib

namespace ByteLisp

variable {A A' : Handle → Prop} {N : String → Prop} {W W' : World} {main : Handle}

/-! ## Worlds -/

theorem Program.later (hp : Program A W main) (hA : ∀ i, A i → A' i) (hl : W.Leads W') :
    Program A' W' main := by
  obtain ⟨ha, r, hc, hr, hlast, harity, hfree⟩ := hp
  exact ⟨hA _ ha, r, hl.code? hc, hr.later hA hl, hlast, harity, hfree⟩

theorem World.Stored.extends (hs : W.Stored A) (hA : ∀ i, A i → A' i) (hx : W.Extends N W') :
    W'.Stored A' where
  cells i v hi := (hs.cells i v (hx.cells i v hi)).later hA hx.leads
  globals ix x v hg hv := (hs.globals ix x v (hx.values hg hv) hv).later hA hx.leads

theorem World.Safe.extends (hs : W.Safe A) (hx : W.Extends N W') : W'.Safe A :=
  hs.later hx.leads (hs.toStored.extends (fun _ h => h) hx)

/-- Forgetting the variables that a failed compilation added leaves an extension. -/
theorem World.Extends.truncate (hx : W.Extends N W') :
    W.Extends N ⟨W'.heap, W'.globals.truncate W.globals.size⟩ := by
  rw [hx.added.truncate]
  exact ⟨hx.heap, hx.cells, .refl _⟩

namespace Engine

/-- The heap and the globals of an engine. -/
abbrev world (e : Engine) : World := ⟨e.heap, e.globals⟩

/-- The engine after an action. -/
def after {α : Type} : EStateM.Result ProgramError Engine α → Engine
  | .ok _ e => e
  | .error _ e => e

/-- The main code object that a compilation returns. -/
def returned : EStateM.Result ProgramError Engine Handle → List Handle
  | .ok main _ => [main]
  | .error _ _ => []

theorem ok_of_returned {r : EStateM.Result ProgramError Engine Handle} {main : Handle}
    (h : returned r = [main]) : r = .ok main (after r) := by
  cases r with
  | ok main' e =>
    cases h
    rfl
  | error err e => cases h

/-- Engines after any calls, each of which may fail, with the main code objects that were returned.
    Only these are run. -/
inductive Reachable : Engine → List Handle → Prop
  | start (limits : Limits) (verbosity : Verbosity) : Reachable (.start limits verbosity) []
  | compile {e : Engine} {mains : List Handle} (src : List Char) (he : Reachable e mains) :
    Reachable (after (compile src e)) (returned (compile src e) ++ mains)
  | run {e : Engine} {mains : List Handle} {main : Handle} (budget : Nat) (he : Reachable e mains)
    (hm : main ∈ mains) : Reachable (after (execute budget main e)) mains
  | eval {e : Engine} {mains : List Handle} (budget : Nat) (src : List Char)
    (he : Reachable e mains) : Reachable (after (eval budget src e)) mains

/-- A property that code keeps as time goes on. -/
structure Stable (P : World → Handle → Prop) : Prop where
  later {W W' : World} {i : Handle} (hl : W.Leads W') (h : P W i) : P W' i

/-- A property that all compiled code has, and keeps as time goes on. -/
structure CodeLaw (P : World → Handle → Prop) : Prop extends Stable P where
  compiled {T : Scopes} {W : World} {i : Handle} {c : Code} (hc : W.heap.code? i = some c)
    (h : Compiled T W c) : P W i
  main {T : Scopes} {W : World} {program : Form} {i : Handle} {c : Code}
    (hc : W.heap.code? i = some c) (h : CompiledMain T W program c) : P W i

/-- Only sound code that has the property `P` can be run, and only values that programs see are
    stored. -/
def Holds (P : World → Handle → Prop) (mains : List Handle) (e : Engine) : Prop :=
  ∃ A, e.world.Safe A ∧ (∀ i, A i → P e.world i) ∧ ∀ main ∈ mains, Program A e.world main

/-- A program that can be run, all of whose code is sound and has the property `P`. -/
def Supplies (P : World → Handle → Prop) (W : World) (main : Handle) : Prop :=
  ∃ B, (∀ i, B i → P W i ∧ ∃ r : Routine, W.heap.code? i = some r.code ∧ r.Sound B W) ∧
    Program B W main

variable {h : Heap} {e : Engine} {mains : List Handle} {budget : Nat} {src : List Char}
  {P : World → Handle → Prop}

/-! ## The start -/

theorem stored_push {g : Globals} {x : Global} (hs : World.Stored A ⟨h, g⟩)
    (hx : ∀ v, x.value = some v → Visible A h v) : World.Stored A ⟨h, ⟨g.entries.push x⟩⟩ where
  cells := hs.cells
  globals ix y v hy hv := by
    unfold Globals.get? at hy
    rw [Array.getElem?_push] at hy
    split at hy
    · cases hy
      exact hx v hv
    · exact hs.globals ix y v hy hv

theorem stored_addConstant {g : Globals} (name : String) (x : Float) (hs : World.Stored A ⟨h, g⟩) :
    World.Stored A ⟨h, (g.addConstant name x).2⟩ := by
  unfold Globals.addConstant Globals.insertNew
  split
  · exact hs
  · refine stored_push hs fun v hv => ?_
    cases hv
    exact .number x

theorem stored_addNatives {g : Globals} {ns : List Native} (hs : World.Stored A ⟨h, g⟩)
    (hn : ∀ n ∈ ns, n ∈ Native.builtins) :
    World.Stored A ⟨(g.addNatives h ns).2, (g.addNatives h ns).1⟩ := by
  induction ns generalizing g h with
  | nil => exact hs
  | cons n ns ih =>
    refine ih ?_ fun k hk => hn k (List.mem_cons_of_mem n hk)
    unfold Globals.addNative
    split
    · exact hs
    · refine stored_push (hs.alloc nofun) fun v hv => ?_
      cases hv
      exact .native (Heap.get?_alloc_size ..) (hn n List.mem_cons_self)

theorem stored_installBuiltins : World.Stored A
    ⟨(Globals.empty.installBuiltins .empty).2, (Globals.empty.installBuiltins .empty).1⟩ := by
  have empty : World.Stored A ⟨.empty, .empty⟩ :=
    ⟨fun i v hi => by simp [Heap.cell?, Heap.get?, Heap.empty] at hi,
      fun ix x v hx => by simp [Globals.get?, Globals.empty] at hx⟩
  unfold Globals.installBuiltins
  exact stored_addNatives (stored_addConstant "VERSION" 1 empty) fun n hn => hn

theorem holds_start (limits : Limits) (verbosity : Verbosity) :
    (start limits verbosity).Holds P [] := by
  refine ⟨fun _ => False, ⟨?_, fun i hi => hi.elim⟩, fun i hi => hi.elim, fun main hm => nomatch hm⟩
  have hs : World.Stored (fun _ => False) _ := stored_installBuiltins
  unfold start
  generalize Globals.empty.installBuiltins .empty = installed at hs
  exact hs

/-! ## Calls -/

theorem ends_debug {text : String} {Q : Unit → Engine → Prop} {E : ProgramError → Engine → Prop}
    (h : ∀ log, Q () { e with log := log }) : Ends (debug text) e Q E := by
  refine ends_modify ?_
  split
  · exact h e.log
  · exact h _

theorem ends_debugAll {texts : List String} {Q : Unit → Engine → Prop}
    {E : ProgramError → Engine → Prop} (h : ∀ log, Q () { e with log := log }) :
    Ends (debugAll texts) e Q E := by
  induction texts generalizing e with
  | nil => exact ends_pure (h e.log)
  | cons text texts ih => exact ends_bind (ends_debug fun log => ih fun log' => h log')

theorem ends_parse {Q : Expr → Engine → Prop} {E : ProgramError → Engine → Prop}
    (h : ∀ program log, Expr.parseProgram src = .ok program → Q program { e with log := log })
    (hE : ∀ err log, E err { e with log := log }) : Ends (parse src) e Q E := by
  unfold parse
  cases hp : Expr.parseProgram src with
  | error err => exact ends_bind (ends_debug fun log => ends_throw (hE _ log))
  | ok program =>
    exact ends_bind (ends_debug fun _ =>
      ends_bind (ends_debug fun log => ends_pure (h program log hp)))

/-- The functions of a program can be called, and the program itself can be run. -/
theorem CodeLaw.supplies (hP : CodeLaw P) {program : Expr} {h : Heap} {g : Globals}
    (hr : (program.compile h g).result = .ok main) : Supplies P (program.compile h g).world main := by
  obtain ⟨⟨c, hc, hmain⟩, -⟩ := Expr.compile_ok hr
  let B : Handle → Prop := fun i =>
    i = main ∨ Allocated program.resolveProgram.2 (program.compile h g).world i
  have new : ∀ i, Allocated _ _ i → B i := fun i hi => Or.inr hi
  obtain ⟨r, rfl, hlast, hr⟩ := hmain.checked.routine_halt
  have hr := hr.later new (.refl _)
  have ⟨_, harity, hfree, _⟩ := hmain
  refine ⟨B, ?_, Or.inl rfl, r, hc, hr, hlast, harity, hfree⟩
  rintro i (rfl | ⟨c, hc, hcompiled⟩)
  · exact ⟨hP.main hc hmain, r, hc, hr⟩
  · obtain ⟨r, rfl, -, hr⟩ := hcompiled.checked.routine_ret
    exact ⟨hP.compiled hc hcompiled, r, hc, hr.later new (.refl _)⟩

theorem holds_supplied (hP : Stable P) {e' : Engine} (he : e.Holds P mains)
    (hx : e.world.Extends N e'.world) (hs : Supplies P e'.world main) :
    e'.Holds P (main :: mains) := by
  obtain ⟨A, hsafe, hA, hp⟩ := he
  obtain ⟨B, hB, hmain⟩ := hs
  have old : ∀ i, A i → A i ∨ B i := fun i hi => Or.inl hi
  have new : ∀ i, B i → A i ∨ B i := fun i hi => Or.inr hi
  refine ⟨fun i => A i ∨ B i, ⟨hsafe.toStored.extends old hx, ?_⟩, ?_, ?_⟩
  · rintro i (hi | hi)
    · obtain ⟨r, hc, hr⟩ := hsafe.codes i hi
      exact ⟨r, hx.leads.code? hc, hr.later old hx.leads⟩
    · obtain ⟨-, r, hc, hr⟩ := hB i hi
      exact ⟨r, hc, hr.later new (.refl _)⟩
  · rintro i (hi | hi)
    · exact hP.later hx.leads (hA i hi)
    · exact (hB i hi).1
  · intro i hi
    rcases List.mem_cons.1 hi with rfl | hi
    · exact hmain.later new (.refl _)
    · exact (hp i hi).later old hx.leads

/-- Compiling a program adds it to those that can be run. -/
theorem ends_compileProgram (hP : Stable P) {program : Expr} (he : e.Holds P mains)
    (hs : ∀ main, (program.compile e.heap e.globals).result = .ok main →
      Supplies P (program.compile e.heap e.globals).world main) :
    Ends (compileProgram program) e (fun main e' => e'.Holds P (main :: mains))
      fun _ e' => e'.Holds P mains := by
  have hx : e.world.Extends (fun _ => True) (program.compile e.heap e.globals).world :=
    Expr.compile_extends Form.admits_true
  refine ends_bind (ends_get (ends_bind (ends_set (ends_bind (ends_debugAll fun log => ?_)))))
  cases hr : (program.compile e.heap e.globals).result with
  | ok main => exact ends_bind (ends_modify (ends_pure (holds_supplied hP he hx (hs main hr))))
  | error err =>
    obtain ⟨A, hs, hA, hp⟩ := he
    have hl := hx.truncate.leads
    exact ends_bind (ends_modify (ends_throw ⟨A, hs.extends hx.truncate,
      fun i hi => hP.later hl (hA i hi), fun main hm => (hp main hm).later (fun _ h => h) hl⟩))

/-- If a source is a program that compiles, its code has the property `P`. -/
def Offers (P : World → Handle → Prop) (e : Engine) (src : List Char) : Prop :=
  ∀ program, Expr.parseProgram src = .ok program →
    ∀ main, (program.compile e.heap e.globals).result = .ok main →
      Supplies P (program.compile e.heap e.globals).world main

/-- If a source is a program that compiles, it is of the class `C`. -/
def Admits (C : Expr → Prop) (e : Engine) (src : List Char) : Prop :=
  ∀ program, Expr.parseProgram src = .ok program →
    ∀ main, (program.compile e.heap e.globals).result = .ok main → C program

theorem ends_compile (hP : Stable P) (he : e.Holds P mains) (hs : e.Offers P src) :
    Ends (compile src) e (fun main e' => e'.Holds P (main :: mains)) fun _ e' => e'.Holds P mains :=
  ends_bind (ends_parse (fun program log hp =>
    ends_compileProgram (e := { e with log := log }) hP he (hs program hp)) fun _ _ => he)

theorem ends_runMain (hP : Stable P) (he : e.Holds P mains) (hm : main ∈ mains) :
    Ends (runMain budget main) e (fun _ e' => e'.Holds P mains) fun _ e' => e'.Holds P mains := by
  obtain ⟨A, hW, hA, hp⟩ := he
  -- A run leaves a safe world, in which the same programs can be run.
  have later {e' : Engine} (hl : e.world.Leads e'.world) (hs : e'.world.Stored A) : e'.Holds P mains :=
    ⟨A, hW.later hl hs, fun i hi => hP.later hl (hA i hi),
      fun main hm => (hp main hm).later (fun _ h => h) hl⟩
  cases hr : e.machine.runMain budget main with
  | none => exact ends_of_ok none e (by rw [runMain, hr]) ⟨A, hW, hA, hp⟩
  | some ending =>
    have hsafe := Machine.runMain_safe hW (hp main hm) rfl hr
    cases ending with
    | ok v m =>
      exact ends_of_ok (some v) { e with heap := m.heap, globals := m.globals } (by rw [runMain, hr])
        (later hsafe.2.1 hsafe.2.2)
    | error f m =>
      exact ends_of_error (.fault f) { e with heap := m.heap, globals := m.globals }
        (by rw [runMain, hr]) (later hsafe.2.1 hsafe.2.2)

theorem ends_execute (hP : Stable P) (he : e.Holds P mains) (hm : main ∈ mains) :
    Ends (execute budget main) e (fun _ e' => e'.Holds P mains) fun _ e' => e'.Holds P mains := by
  refine ends_bind (ends_get ?_)
  split
  · exact ends_bind (ends_get (ends_bind (ends_modify (ends_runMain hP he hm))))
  · exact ends_runMain hP he hm

theorem ends_list {Q : String → Engine → Prop} {E : ProgramError → Engine → Prop}
    (h : ∀ text, Q text e) (hE : ∀ err, E err e) : Ends (list main) e Q E := by
  cases hl : Listing.all e.heap e.globals main with
  | ok text => exact ends_of_ok text e (by rw [list, hl]) (h text)
  | error err => exact ends_of_error (.decode err) e (by rw [list, hl]) (hE _)

theorem ends_launch (hP : Stable P) (he : e.Holds P mains) (hm : main ∈ mains) :
    Ends (launch budget main) e (fun _ e' => e'.Holds P mains) fun _ e' => e'.Holds P mains := by
  refine ends_bind (ends_get ?_)
  split
  · refine ends_bind (ends_list (fun text => ?_) fun _ => he)
    exact ends_bind (ends_debug fun log => ends_execute hP he hm)
  · exact ends_execute hP he hm

theorem ends_eval (hP : Stable P) (he : e.Holds P mains) (hs : e.Offers P src) :
    Ends (eval budget src) e (fun _ e' => e'.Holds P mains) fun _ e' => e'.Holds P mains := by
  have forget {e : Engine} {main : Handle} (h : e.Holds P (main :: mains)) : e.Holds P mains := by
    obtain ⟨A, hW, hA, hp⟩ := h
    exact ⟨A, hW, hA, fun i hi => hp i (List.mem_cons_of_mem main hi)⟩
  refine ends_bind (ends_parse (fun program log hp => ?_) fun _ _ => he)
  have hc : Ends (compileProgram program) { e with log := log } _ _ :=
    ends_compileProgram hP he (hs program hp)
  refine ends_bind (hc.mono (fun main e' h => ?_) fun _ _ h => h)
  exact (ends_launch hP h List.mem_cons_self).mono (fun _ _ h => forget h) fun _ _ h => forget h

theorem holds_after {α : Type} {x : Session α}
    (h : Ends x e (fun _ e' => e'.Holds P mains) fun _ e' => e'.Holds P mains) :
    (after (x e)).Holds P mains := by
  cases hx : x e with
  | ok a e' => exact h.ok hx
  | error err e' => exact h.error hx

/-- Engines after any calls, each of which may fail, where all programs that were compiled are of
    the class `C`. -/
inductive ReachableBy (C : Expr → Prop) : Engine → List Handle → Prop
  | start (limits : Limits) (verbosity : Verbosity) : ReachableBy C (.start limits verbosity) []
  | compile {e : Engine} {mains : List Handle} (src : List Char) (he : ReachableBy C e mains)
    (hc : e.Admits C src) : ReachableBy C (after (compile src e)) (returned (compile src e) ++ mains)
  | run {e : Engine} {mains : List Handle} {main : Handle} (budget : Nat) (he : ReachableBy C e mains)
    (hm : main ∈ mains) : ReachableBy C (after (execute budget main e)) mains
  | eval {e : Engine} {mains : List Handle} (budget : Nat) (src : List Char)
    (he : ReachableBy C e mains) (hc : e.Admits C src) : ReachableBy C (after (eval budget src e)) mains

theorem Reachable.by (he : Reachable e mains) : ReachableBy (fun _ => True) e mains := by
  induction he with
  | start limits verbosity => exact .start limits verbosity
  | compile src _ ih => exact .compile src ih fun _ _ _ _ => trivial
  | run budget _ hm ih => exact .run budget ih hm
  | eval budget src _ ih => exact .eval budget src ih fun _ _ _ _ => trivial

/-- What holds of all code of the programs of a class holds of all code that can be run. -/
theorem ReachableBy.holds {C : Expr → Prop} (hP : Stable P)
    (hC : ∀ program h g main, C program → (program.compile h g).result = .ok main →
      Supplies P (program.compile h g).world main) (he : ReachableBy C e mains) : e.Holds P mains := by
  have offers {e : Engine} {src : List Char} (h : e.Admits C src) : e.Offers P src :=
    fun program hp main hr => hC program _ _ main (h program hp main hr) hr
  induction he with
  | start limits verbosity => exact holds_start limits verbosity
  | @compile e mains src _ hc ih =>
    have h : Ends (Engine.compile src) e _ _ := ends_compile hP ih (offers hc)
    cases hx : Engine.compile src e with
    | ok main e' => exact h.ok hx
    | error err e' => exact h.error hx
  | run budget _ hm ih => exact holds_after (ends_execute hP ih hm)
  | eval budget src _ hc ih => exact holds_after (ends_eval hP ih (offers hc))

theorem Reachable.holds (hP : CodeLaw P) (he : Reachable e mains) : e.Holds P mains :=
  he.by.holds hP.toStable fun _ _ _ _ _ hr => hP.supplies hr

/-- Only sound code can be run, and only values that programs see are stored. -/
theorem Reachable.safe (he : Reachable e mains) :
    ∃ A, e.world.Safe A ∧ ∀ main ∈ mains, Program A e.world main := by
  have none : CodeLaw fun _ _ => True := ⟨⟨fun _ _ => trivial⟩, fun _ _ => trivial, fun _ _ => trivial⟩
  obtain ⟨A, hW, -, hp⟩ := he.holds none
  exact ⟨A, hW, hp⟩

/-! ## Runs -/

/-- How a run may end: with a value that programs see, or with a fault as programs cause it. -/
def Acceptable : Machine.Ending → Prop
  | .ok v m => m.heap.Shown v ∧ m.StoresShown
  | .error f m => f.Expected ∧ m.StoresShown

/-- A program that was compiled never gets stuck, however often and in whichever order programs have
    been compiled and run before: at every step the stack is as high as the code object says for the
    place, no code object and no cell lies where programs can see it, and the run ends as programs
    may. -/
theorem Reachable.run_sound (he : Reachable e mains) (hm : main ∈ mains) :
    (∀ m m', Machine.load main e.machine = .ok () m → m.Reaches m' → m'.Consistent) ∧
      ∀ budget ending, Machine.runMain budget main e.machine = some ending → Acceptable ending := by
  obtain ⟨A, hW, hp⟩ := he.safe
  refine ⟨fun m m' hl hr => ?_, fun budget ending hr => ?_⟩
  · have hs := (Machine.load_sound hW (hp main hm) rfl).ok hl
    exact (hr.sound hW hs).consistent
  · have hs := Machine.runMain_safe hW (hp main hm) rfl hr
    cases ending with
    | ok v m => exact ⟨hs.1.tag, hs.2.2.shown⟩
    | error f m => exact ⟨hs.1, hs.2.2.shown⟩

/-- A program that makes a closure: its value is a function that holds a cell. -/
def holding : List Char := "((lambda (x) (lambda () x)) true)".toList

set_option maxRecDepth 4000 in
theorem run_sound_holding :
    Reachable (after (compile holding (.start .usual .quiet))) [7] ∧
      (Machine.runMain 20 7 (after (compile holding (.start .usual .quiet))).machine).isSome ∧
        ∀ budget ending,
          Machine.runMain budget 7 (after (compile holding (.start .usual .quiet))).machine =
            some ending → Acceptable ending := by
  have hm : returned (compile holding (.start .usual .quiet)) = [7] := by cbv
  have he : Reachable (after (compile holding (.start .usual .quiet))) [7] := by
    rw [← hm, ← List.append_nil (returned _)]
    exact .compile holding (.start .usual .quiet)
  exact ⟨he, by cbv, (Reachable.run_sound he List.mem_cons_self).2⟩

end Engine

end ByteLisp
