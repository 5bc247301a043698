/-
  ByteLisp: the log changes nothing.

  With the log on, a program is listed between its compilation and its run, and a listing that fails
  would end the call.

  * `Engine.muted` is an engine without its log; `Engine.Discreet`: an action gives the same with and
    without it;
  * `Expr.compile_listed`: what is listed of a compiled program decodes, and its constants can be
    written without looking into cells;
  * `discreet_launch`: so the listing is never in the way;
  * `eval_verbosity` is the result for sources, at any verbosity.
-/
import ByteLisp.Proofs.Code.Listing
import ByteLisp.Proofs.Engine.Sessions

namespace ByteLisp

/-! ## Listings of compiled programs -/

/-- A value that can be written as it is: if it is an object, then one that is there and no cell. -/
def Heap.Writes (h : Heap) (v : Value) : Prop :=
  ∀ i, v = .object i → ∃ o, h.get? i = some o ∧ ∀ w, o ≠ .cell w

/-- The text of such a value does not depend on how many cells may be looked into. -/
theorem Heap.Writes.displayWithin {h : Heap} {v : Value} (hv : h.Writes v) (depth : Nat) :
    h.displayWithin depth v = h.display v := by
  unfold display
  cases v with
  | number x => simp only [Heap.displayWithin]
  | boolean b => simp only [Heap.displayWithin]
  | object i =>
    obtain ⟨o, ho, hcell⟩ := hv i rfl
    cases o with
    | cell w => exact absurd rfl (hcell w)
    | _ => simp only [Heap.displayWithin, ho]

/-- The code objects that are listed for a compiled program decode, at any later time, and their
    constants can be written. -/
theorem Expr.compile_listed {e : Expr} {heap : Heap} {globals : Globals} {main : Handle} {W : World}
    {c : Code} (h : (e.compile heap globals).result = .ok main)
    (hl : (e.compile heap globals).world.Leads W) (hc : c ∈ Listing.reachable W.heap main) :
    (∃ is, c.instrs = .ok is) ∧ ∀ v ∈ c.constants, W.heap.Writes v := by
  obtain ⟨i, hi, hcode⟩ := Listing.mem_reachable hc
  refine ⟨(e.compile_uses h hl hi hcode).1, ?_⟩
  rintro v hv j rfl
  obtain ⟨hnew, hsame⟩ := e.compile_reaches h hl (hi.next (Heap.code?_eq_some.1 hcode) hv)
  have ho : (e.compile heap globals).heap.get? j = some _ := Array.getElem?_eq_getElem hnew.2
  refine ⟨_, hsame.symm.trans ho, fun w hw => ?_⟩
  have hbetween := (e.compile_fresh h).2 j _ hnew.1 ho
  rw [hw] at hbetween
  exact hbetween

namespace Engine

variable {α β : Type} {e e' : Engine} {main : Handle} {budget : Nat} {src : List Char}

/-! ## Engines without their log -/

/-- An engine that logs nothing. -/
def muted (e : Engine) : Engine := { e with verbosity := .quiet, log := #[] }

/-- How a call ends, but for the log. -/
def unlogged : EStateM.Result ProgramError Engine α → EStateM.Result ProgramError Engine α
  | .ok a e => .ok a e.muted
  | .error err e => .error err e.muted

/-- On the engine `e` an action ends as it does without a log. -/
def DiscreetAt (e : Engine) (x : Session α) : Prop := unlogged (x e) = unlogged (x e.muted)

/-- An action that ends as it does without a log. -/
def Discreet (x : Session α) : Prop := ∀ e : Engine, e.DiscreetAt x

theorem discreetAt_bind {x : Session α} {f : α → Session β} (hx : e.DiscreetAt x)
    (hf : ∀ a e₁, x e = .ok a e₁ → ∀ e₂ : Engine, e₂.muted = e₁.muted →
      unlogged (f a e₁) = unlogged (f a e₂)) : e.DiscreetAt (x >>= f) := by
  change unlogged (EStateM.bind x f e) = unlogged (EStateM.bind x f e.muted)
  unfold EStateM.bind
  unfold DiscreetAt at hx
  cases h : x e with
  | ok a e₁ =>
    cases h' : x e.muted with
    | ok a' e₂ =>
      rw [h, h'] at hx
      obtain ⟨rfl, hmuted⟩ := EStateM.Result.ok.inj hx
      exact hf a e₁ h e₂ hmuted.symm
    | error err e₂ => rw [h, h'] at hx; cases hx
  | error err e₁ =>
    cases h' : x e.muted with
    | ok a' e₂ => rw [h, h'] at hx; cases hx
    | error err' e₂ =>
      rw [h, h'] at hx
      obtain ⟨rfl, hmuted⟩ := EStateM.Result.error.inj hx
      exact congrArg (EStateM.Result.error err) hmuted

theorem Discreet.congr {x : Session α} (hx : Discreet x) {e₁ e₂ : Engine} (h : e₁.muted = e₂.muted) :
    unlogged (x e₁) = unlogged (x e₂) := by
  rw [hx e₁, hx e₂, h]

theorem discreet_bind {x : Session α} {f : α → Session β} (hx : Discreet x) (hf : ∀ a, Discreet (f a)) :
    Discreet (x >>= f) :=
  fun e => discreetAt_bind (hx e) fun a _ _ _ h => (hf a).congr h.symm

theorem discreet_pure (a : α) : Discreet (pure a : Session α) := fun _ => rfl

theorem discreet_throw (err : ProgramError) : Discreet (throw err : Session α) := fun _ => rfl

/-- A change of an engine that does the same without the log. -/
theorem discreet_modify {f : Engine → Engine} (h : ∀ e : Engine, (f e).muted = (f e.muted).muted) :
    Discreet (modify f) :=
  fun e => congrArg (EStateM.Result.ok PUnit.unit) (h e)

theorem discreet_debug (text : String) : Discreet (debug text) := by
  refine discreet_modify fun e => ?_
  split <;> rfl

theorem discreet_debugAll (texts : List String) : Discreet (debugAll texts) := by
  induction texts with
  | nil => exact discreet_pure ()
  | cons text texts ih => exact discreet_bind (discreet_debug text) fun _ => ih

/-! ## Calls -/

theorem discreet_parse (src : List Char) : Discreet (parse src) := by
  unfold parse
  split
  · exact discreet_bind (discreet_debug _) fun _ => discreet_throw _
  · exact discreet_bind (discreet_debug _) fun _ =>
      discreet_bind (discreet_debug _) fun _ => discreet_pure _

/-- What comes after the heap is in place looks at no other part of the engine than the globals. -/
theorem discreet_compileProgram (program : Expr) : Discreet (compileProgram program) := by
  intro e
  unfold DiscreetAt compileProgram
  change unlogged ((debugAll _ >>= _) { e with heap := (program.compile e.heap e.globals).heap }) =
    unlogged ((debugAll _ >>= _) { e.muted with heap := (program.compile e.heap e.globals).heap })
  refine Discreet.congr (discreet_bind (discreet_debugAll _) fun _ => ?_) rfl
  split
  · exact discreet_bind (discreet_modify fun _ => rfl) fun _ => discreet_pure _
  · exact discreet_bind (discreet_modify fun _ => rfl) fun _ => discreet_throw _

theorem discreet_compile (src : List Char) : Discreet (compile src) :=
  discreet_bind (discreet_parse src) discreet_compileProgram

theorem discreet_runMain (budget : Nat) (main : Handle) : Discreet (runMain budget main) := by
  intro e
  unfold DiscreetAt runMain
  rw [show e.muted.machine = e.machine from rfl]
  cases e.machine.runMain budget main with
  | none => rfl
  | some ending => cases ending <;> rfl

theorem discreet_execute (budget : Nat) (main : Handle) : Discreet (execute budget main) := by
  intro e
  by_cases hv : e.verbosity = .trace
  · have h : execute budget main e = runMain budget main
        { e with log := e.log ++ ((e.machine.traceMain budget main).map .trace).toArray } := by
      change (if e.verbosity = .trace then _ else _ : Session _) e = _
      rw [if_pos hv]
      rfl
    exact (congrArg unlogged h).trans ((discreet_runMain budget main).congr rfl)
  · have h : execute budget main e = runMain budget main e := by
      change (if e.verbosity = .trace then _ else _ : Session _) e = _
      rw [if_neg hv]
    exact (congrArg unlogged h).trans (discreet_runMain budget main e)

/-- A listing that does not fail is not in the way of a run. -/
theorem discreet_launch {text : String} (h : Listing.all e.heap e.globals main = .ok text) :
    e.DiscreetAt (launch budget main) := by
  by_cases hv : e.verbosity = .quiet
  · have hquiet : launch budget main e = execute budget main e := by
      change (if e.verbosity ≠ .quiet then _ else _ : Session _) e = _
      rw [if_neg (not_not.2 hv)]
    exact (congrArg unlogged hquiet).trans (discreet_execute budget main e)
  · have hlist : list main e = .ok text e := by rw [list, h]
    have hlaunch : launch budget main e =
        (do debug ("\n" ++ text); execute budget main : Session (Option Value)) e := by
      change (if e.verbosity ≠ .quiet then _ else _ : Session _) e = _
      rw [if_pos hv]
      change EStateM.bind (list main) _ e = _
      rw [EStateM.bind, hlist]
    have rest : Discreet (do debug ("\n" ++ text); execute budget main : Session (Option Value)) :=
      discreet_bind (discreet_debug _) fun _ => discreet_execute budget main
    exact (congrArg unlogged hlaunch).trans (rest e)

theorem discreet_eval (budget : Nat) (src : List Char) : Discreet (eval budget src) := by
  intro e
  rw [eval_eq]
  refine discreetAt_bind (discreet_compile src e) fun main e₁ h₁ e₂ hmuted => ?_
  obtain ⟨-, program, hr, hworld⟩ := (ends_compile_keeps src e).ok h₁
  have hleads : (program.compile e.heap e.globals).world.Leads e₁.world := hworld ▸ .refl _
  obtain ⟨text, htext⟩ := Listing.exists_all e₁.globals fun c hc =>
    (program.compile_listed hr hleads hc).1
  have hheap : e₂.muted.heap = e₁.muted.heap := by rw [hmuted]
  have hglobals : e₂.muted.globals = e₁.muted.globals := by rw [hmuted]
  have htext₂ : Listing.all e₂.muted.heap e₂.muted.globals main = .ok text := by
    rw [hheap, hglobals]
    exact htext
  calc unlogged (launch budget main e₁) = unlogged (launch budget main e₁.muted) := discreet_launch htext
    _ = unlogged (launch budget main e₂.muted) := by rw [hmuted]
    _ = unlogged (launch budget main e₂) := (discreet_launch (e := e₂) htext₂).symm

/-! ## Results -/

/-- How much is logged makes no difference to the value or error of a call, nor to what the engine is
    afterwards but for its log. A listing of a compiled program always succeeds, at whatever later
    time; it writes no value that is not on the heap or that leads through cells. -/
theorem eval_verbosity (e : Engine) (v v' : Verbosity) (budget : Nat) (src : List Char) :
    unlogged (eval budget src { e with verbosity := v }) =
        unlogged (eval budget src { e with verbosity := v' }) ∧
      ∀ main e₁, compile src e = .ok main e₁ →
        ∀ e₂ mains₂, e₁.Serves [main] e₂ mains₂ → (∃ text, list main e₂ = .ok text e₂) ∧
          ∀ c ∈ Listing.reachable e₂.heap main, ∀ w ∈ c.constants, e₂.heap.Writes w ∧
            ∀ depth, e₂.heap.displayWithin depth w = e₂.heap.display w := by
  refine ⟨(discreet_eval budget src).congr rfl, fun main e₁ h₁ e₂ mains₂ hlater => ?_⟩
  obtain ⟨-, program, hr, hworld⟩ := (ends_compile_keeps src e).ok h₁
  have hleads : (program.compile e.heap e.globals).world.Leads e₂.world := hworld ▸ hlater.keeps.world
  have hlisted := fun c hc => program.compile_listed (c := c) hr hleads hc
  refine ⟨?_, fun c hc w hw => ?_⟩
  · obtain ⟨text, htext⟩ := Listing.exists_all e₂.globals fun c hc => (hlisted c hc).1
    exact ⟨text, by rw [list, htext]⟩
  · have hwrites := (hlisted c hc).2 w hw
    exact ⟨hwrites, hwrites.displayWithin⟩

set_option maxRecDepth 4000 in
/-- The listing of a program that makes a closure, after it has run. -/
theorem eval_verbosity_holding :
    let e := start ⟨20, 5⟩ .debug
    let e₁ := after (compile holding e)
    let e₂ := after (execute 20 7 e₁)
    compile holding e = .ok 7 e₁ ∧ e₁.Serves [7] e₂ [7] ∧ (∃ text, list 7 e₂ = .ok text e₂) ∧
      unlogged (eval 20 holding { e with verbosity := .debug }) =
        unlogged (eval 20 holding { e with verbosity := .quiet }) := by
  have hc : compile holding (start ⟨20, 5⟩ .debug) = .ok 7 (after (compile holding (start ⟨20, 5⟩ .debug))) :=
    ok_of_returned (by cbv)
  have hs : (after (compile holding (start ⟨20, 5⟩ .debug))).Serves [7] _ [7] :=
    Serves.refl.call (.run 20 List.mem_cons_self)
  obtain ⟨hsame, hlist⟩ := eval_verbosity (start ⟨20, 5⟩ .debug) .debug .quiet 20 holding
  exact ⟨hc, hs, (hlist 7 _ hc _ _ hs).1, hsame⟩

end Engine

end ByteLisp
