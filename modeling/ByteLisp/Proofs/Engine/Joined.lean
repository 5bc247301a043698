/-
  ByteLisp: two programs in turn, or both of them in one.

  * `Engine.Outcome`: what the evaluation of a program gives and leaves behind;
  * `Engine.Evaluated`: engines that have evaluated some sources; `Evaluated.tame`: what
    such an engine holds corresponds to itself;
  * `Worlds.display`: what corresponds is written in the same way;
  * `Engine.eval_joined` is the result: the evaluation of a source with the forms
    of two programs is like that of the one and then the other.
-/
import ByteLisp.Proofs.Engine.Logging
import ByteLisp.Proofs.Engine.Recompiled
import ByteLisp.Proofs.Joined.Composition

namespace ByteLisp

variable {R : Nat → Nat → Prop} {S : Nat → Prop} {W W' : World} {u u' : Value}

/-! ## What is shown of worlds that correspond -/

namespace Worlds

/-- A value that programs see is written like the one it corresponds to. -/
theorem display (h : Worlds S R W W') (hu : u.Twin R u') (hs : W.heap.Shown u) :
    W'.heap.display u' = W.heap.display u := by
  unfold Heap.display
  cases hu with
  | number x | boolean b => simp only [Heap.displayWithin]
  | object hR =>
    obtain ⟨o, o', ho, ho', htwin⟩ := h.objects _ _ hR
    obtain ⟨tag, htag, hcode, hcell⟩ := hs
    rw [Heap.tag?, ho] at htag
    cases htag
    cases htwin with
    | string text => simp only [Heap.displayWithin, ho, ho']
    | native hn => simp only [Heap.displayWithin, ho, ho']
    | code hc => exact absurd rfl hcode
    | cell hu => exact absurd rfl hcell
    | function hf _ =>
      obtain ⟨p, p', hp, hp', hcode⟩ := h.objects _ _ hf
      simp only [Heap.displayWithin, ho, ho', Heap.code?, hp, hp']
      cases hcode with
      | code hc => simp only [hc.name, hc.arity]
      | _ => rfl

end Worlds

/-- The global variables in order, each with its value as it is written. -/
def World.variables (W : World) : List (String × Option String) :=
  W.globals.entries.toList.map fun x => (x.name, x.value.map W.heap.display)

/-- Two worlds with the same variables, whose values correspond, are shown in the same way. -/
theorem Worlds.variables (h : Worlds S R W W') (hnames : W'.globals.names = W.globals.names)
    (hs : ∀ ix x v, W.globals.get? ix = some x → x.value = some v → W.heap.Shown v) :
    W'.variables = W.variables := by
  have hsize : W'.globals.entries.size = W.globals.entries.size := by
    simpa [Globals.names] using congrArg List.length hnames
  refine List.ext_getElem? fun ix => ?_
  rw [World.variables, World.variables, List.getElem?_map, List.getElem?_map, Array.getElem?_toList,
    Array.getElem?_toList]
  cases hx : W.globals.entries[ix]? with
  | none =>
    have hle := Array.getElem?_eq_none_iff.1 hx
    rw [Array.getElem?_eq_none_iff.2 (by omega)]
    rfl
  | some x =>
    obtain ⟨x', hx', hname, hv⟩ := h.globals.global ix x hx
    rw [show W'.globals.entries[ix]? = some x' from hx', Option.map_some, Option.map_some, hname]
    have hshown := hs ix x
    generalize x.value = v, x'.value = v' at hv hshown
    cases hv with
    | none => rfl
    | some hv => rw [Option.map_some, Option.map_some, h.display hv (hshown _ hx rfl)]

namespace Engine

variable {e e₁ e₂ : Engine} {budget : Nat} {src : List Char} {program : Expr}

/-! ## Evaluations -/

/-- The value with which a run has ended. -/
def returnedValue : Machine.Ending → Option Value
  | .ok v _ => some v
  | .error _ _ => none

/-- What comes of a main code object in a world. -/
inductive Launched (budget : Nat) (main : Handle) (limits : Limits) (W : World) : Option Value → World → Prop
  /-- It does not run, or not to its end. -/
  | stays : Launched budget main limits W none W
  | ended {ending : Machine.Ending} (hrun : (W.machine limits).runMain budget main = some ending) :
    Launched budget main limits W (returnedValue ending) ending.machine.world

/-- What the evaluation of a program gives, and the world that it leaves behind. -/
inductive Outcome (budget : Nat) (program : Expr) (limits : Limits) (W : World) : Option Value → World → Prop
  | refused {err : CompileError} (hr : (program.compile W.heap W.globals).result = .error err) :
    Outcome budget program limits W none
      ⟨(program.compile W.heap W.globals).heap,
        (program.compile W.heap W.globals).globals.truncate W.globals.size⟩
  | launched {main : Handle} {o : Option Value} {V : World}
    (hr : (program.compile W.heap W.globals).result = .ok main)
    (h : Launched budget main limits (program.compile W.heap W.globals).world o V) :
    Outcome budget program limits W o V

theorem ends_runMain_launched (budget : Nat) (main : Handle) (e : Engine) :
    Ends (runMain budget main) e
      (fun o e' => Launched budget main e.limits e.world o e'.world ∧ e'.limits = e.limits)
      fun _ e' => Launched budget main e.limits e.world none e'.world := by
  cases hr : e.machine.runMain budget main with
  | none => exact ends_of_ok none e (by rw [runMain, hr]) ⟨.stays, rfl⟩
  | some ending =>
    have hended := Launched.ended (W := e.world) hr
    cases ending with
    | ok v m =>
      exact ends_of_ok (some v) { e with heap := m.heap, globals := m.globals }
        (by rw [runMain, hr]) ⟨hended, rfl⟩
    | error f m =>
      exact ends_of_error (.fault f) { e with heap := m.heap, globals := m.globals }
        (by rw [runMain, hr]) hended

theorem ends_launch_launched (budget : Nat) (main : Handle) (e : Engine) :
    Ends (launch budget main) e
      (fun o e' => Launched budget main e.limits e.world o e'.world ∧ e'.limits = e.limits)
      fun _ e' => Launched budget main e.limits e.world none e'.world := by
  have executed (e : Engine) : Ends (execute budget main) e
      (fun o e' => Launched budget main e.limits e.world o e'.world ∧ e'.limits = e.limits)
      fun _ e' => Launched budget main e.limits e.world none e'.world := by
    refine ends_bind (ends_get ?_)
    split
    · exact ends_bind (ends_get (ends_bind (ends_modify (ends_runMain_launched budget main _))))
    · exact ends_runMain_launched budget main e
  refine ends_bind (ends_get ?_)
  split
  · exact ends_bind (ends_list (fun text => ends_bind (ends_debug fun log => executed _)) fun _ => .stays)
  · exact executed e

theorem ends_evalProgram (budget : Nat) (program : Expr) (e : Engine) :
    Ends (evalProgram budget program) e
      (fun o e' => Outcome budget program e.limits e.world o e'.world ∧ e'.limits = e.limits)
      fun _ e' => Outcome budget program e.limits e.world none e'.world := by
  refine ends_bind (ends_bind (ends_get (ends_bind (ends_set (ends_bind (ends_debugAll fun log => ?_))))))
  cases hr : (program.compile e.heap e.globals).result with
  | ok main =>
    refine ends_bind (ends_modify (ends_pure
      ((ends_launch_launched budget main _).mono (fun o e' h => ?_) fun _ e' h => ?_)))
    · exact ⟨.launched hr h.1, h.2⟩
    · exact .launched hr h
  | error err => exact ends_bind (ends_modify (ends_throw (.refused hr)))

/-- What the evaluation of a source gives is what that of its program does. -/
theorem ends_eval_outcome (budget : Nat) (src : List Char) (e : Engine) :
    Ends (eval budget src) e
      (fun o e' => ∃ program, Expr.parseProgram src = .ok program ∧
        Outcome budget program e.limits e.world o e'.world ∧ e'.limits = e.limits)
      fun _ e' => e'.world = e.world ∨ ∃ program, Expr.parseProgram src = .ok program ∧
        Outcome budget program e.limits e.world none e'.world := by
  refine ends_bind (ends_parse (fun program log hp => ?_) fun _ log => Or.inl rfl)
  exact (ends_evalProgram budget program { e with log }).mono (fun o e' h => ⟨program, hp, h⟩)
    fun _ e' h => Or.inr ⟨program, hp, h⟩

theorem launch_quiet {main : Handle} (hq : e.verbosity = .quiet) :
    launch budget main e = runMain budget main e := by
  have hexecute : execute budget main e = runMain budget main e := by
    change (if e.verbosity = .trace then _ else _ : Session _) e = _
    rw [if_neg (by rw [hq]; nofun)]
  change (if e.verbosity ≠ .quiet then _ else _ : Session _) e = _
  rw [if_neg (not_not.2 hq)]
  exact hexecute

theorem ends_runMain_ok {main : Handle} {v : Value} {m : Machine}
    (hrun : (e.world.machine e.limits).runMain budget main = some (.ok v m)) :
    Ends (runMain budget main) e (fun o e' => o = some v ∧ e'.world = m.world) fun _ _ => False := by
  refine ends_of_ok (some v) { e with heap := m.heap, globals := m.globals } ?_ ⟨rfl, rfl⟩
  have hmachine : e.machine.runMain budget main = some (.ok v m) := hrun
  rw [runMain, hmachine]

/-- A program that runs to its end is evaluated, whatever is logged. -/
theorem eval_of_runMain {main : Handle} {v : Value} {m : Machine} (hp : Expr.parseProgram src = .ok program)
    (hr : (program.compile e.heap e.globals).result = .ok main)
    (hrun : ((program.compile e.heap e.globals).world.machine e.limits).runMain budget main =
      some (.ok v m)) :
    ∃ e', eval budget src e = .ok (some v) e' ∧ e'.world = m.world := by
  have quiet : Ends (eval budget src) e.muted (fun o e' => o = some v ∧ e'.world = m.world)
      fun _ _ => False := by
    refine ends_bind (ends_parse_ok hp fun log => ?_)
    refine ends_bind (ends_bind (ends_get (ends_bind (ends_set (ends_bind (ends_debugAll fun log => ?_))))))
    have hmuted : (program.compile e.muted.heap e.muted.globals).result = .ok main := hr
    simp only [hmuted]
    refine ends_bind (ends_modify (ends_pure ?_))
    rw [Ends, launch_quiet rfl, ← Ends]
    exact ends_runMain_ok hrun
  have same := discreet_eval budget src e
  rw [DiscreetAt] at same
  cases hq : eval budget src e.muted with
  | error err e' => exact (quiet.error hq).elim
  | ok o e' =>
    obtain ⟨rfl, hw⟩ := quiet.ok hq
    rw [hq] at same
    cases h : eval budget src e with
    | error err e' => rw [h] at same; cases same
    | ok o e'' =>
      rw [h] at same
      obtain ⟨rfl, hmuted⟩ := EStateM.Result.ok.inj same
      exact ⟨e'', rfl, (congrArg world hmuted).trans hw⟩

/-! ## Sessions -/

/-- Engines after evaluations of sources, each of which may fail. -/
inductive Evaluated : Engine → Prop
  | start (limits : Limits) (verbosity : Verbosity) : Evaluated (.start limits verbosity)
  | eval {e : Engine} (budget : Nat) (src : List Char) (he : Evaluated e) :
      Evaluated (after (eval budget src e))

theorem Evaluated.reachable (he : Evaluated e) : Reachable e [] := by
  induction he with
  | start limits verbosity => exact .start limits verbosity
  | eval budget src _ ih => exact .eval budget src ih

/-- The strings and functions of the host correspond to themselves. -/
theorem tame_start (limits : Limits) (verbosity : Verbosity) : (start limits verbosity).world.Tame := by
  have hs : World.Stored (fun _ => False) (start limits verbosity).world := stored_installBuiltins
  refine ⟨fun i => (∃ text, (start limits verbosity).heap.get? i = some (.string text)) ∨
    ∃ n ∈ Native.builtins, (start limits verbosity).heap.get? i = some (.native n),
    fun i j ⟨hi, hij⟩ => ?_, fun i j j' hj hj' _ => hj'.2.symm.trans hj.2,
    fun i i' j hi hi' _ => hi'.2.trans hi.2.symm, fun _ h => h.elim,
    fun ix x hx => ⟨x, hx, rfl, ?_⟩, fun ix x hle hx => ?_⟩
  · subst hij
    rcases hi with ⟨text, ho⟩ | ⟨n, hn, ho⟩
    · exact ⟨_, _, ho, ho, .string text⟩
    · exact ⟨_, _, ho, ho, .native hn⟩
  · cases hv : x.value with
    | none => exact .none
    | some v =>
      refine .some ?_
      cases hs.globals ix x v hx hv with
      | number x => exact .number x
      | boolean b => exact .boolean b
      | string ho => exact .object ⟨Or.inl ⟨_, ho⟩, rfl⟩
      | native ho hn => exact .object ⟨Or.inr ⟨_, hn, ho⟩, rfl⟩
      | function _ hf => exact hf.elim
  · exact absurd (Array.getElem?_eq_some_iff.1 hx).1 (Nat.not_lt.2 hle)

/-- An evaluation leaves behind a world that corresponds to itself. -/
theorem Outcome.tame {A : Handle → Prop} {es : List Expr} {limits : Limits} {o : Option Value}
    (h : Outcome budget (.program es) limits W o W') (ht : W.Tame) (hW : W.Safe A)
    (hp : (Expr.program es).Plain) : W'.Tame := by
  have added : W.Extends (fun _ => True) ((Expr.program es).compile W.heap W.globals).world :=
    Expr.compile_extends Form.admits_true
  cases h with
  | refused hr => exact ht.extends added.truncate
  | launched hr h =>
    cases h with
    | stays => exact ht.extends added
    | ended hrun => exact ht.run hW hp hr hrun

theorem eq_program (h : Expr.parseProgram src = .ok program) : ∃ es, program = .program es := by
  obtain ⟨ds, -, rfl⟩ := Expr.parseProgram_ok_iff.1 h
  exact ⟨_, rfl⟩

theorem Evaluated.tame (he : Evaluated e) : e.world.Tame := by
  induction he with
  | start limits verbosity => exact tame_start limits verbosity
  | @eval e budget src he ih =>
    obtain ⟨A, hW, -⟩ := he.reachable.safe
    have later {program : Expr} {o : Option Value} {V : World} (hp : Expr.parseProgram src = .ok program)
        (h : Outcome budget program e.limits e.world o V) : V.Tame := by
      obtain ⟨es, rfl⟩ := eq_program hp
      exact h.tame ih hW (Expr.parseProgram_plain hp)
    have hends := ends_eval_outcome budget src e
    cases hx : Engine.eval budget src e with
    | ok o e' =>
      obtain ⟨program, hp, h, -⟩ := hends.ok hx
      exact later hp h
    | error err e' =>
      rcases hends.error hx with heq | ⟨program, hp, h⟩
      · exact (congrArg World.Tame heq).mpr ih
      · exact later hp h

/-- A value that an evaluation gives is that of a run. -/
theorem Outcome.some {limits : Limits} {v : Value} (h : Outcome budget program limits W (some v) W') :
    ∃ main m, (program.compile W.heap W.globals).result = .ok main ∧
      ((program.compile W.heap W.globals).world.machine limits).runMain budget main = some (.ok v m) ∧
      W' = m.world := by
  generalize ho : Option.some v = o at h
  cases h with
  | refused => cases ho
  | launched hr h =>
    cases h with
    | stays => cases ho
    | @ended ending hrun =>
      cases ending with
      | error f m => cases ho
      | ok w m =>
        obtain rfl := Option.some.inj ho
        exact ⟨_, m, hr, hrun, rfl⟩

/-- One source with the forms of two programs is evaluated like the one program and then the other. -/
theorem eval_joined (he : Evaluated e) {a b c : List Char} {as bs : List Expr} {budget₁ budget₂ : Nat}
    {u v : Value} {main : Handle} {e' : Engine} (ha : Expr.parseProgram a = .ok (.program as))
    (hb : Expr.parseProgram b = .ok (.program bs)) (hbs : bs ≠ [])
    (hc : Expr.parseProgram c = .ok (.program (as ++ bs))) (h₁ : eval budget₁ a e = .ok (some u) e₁)
    (h₂ : eval budget₂ b e₁ = .ok (some v) e₂) (hcompiles : compile c e = .ok main e') :
    ∃ budget w e₃, eval budget c e = .ok (some w) e₃ ∧ e₃.heap.display w = e₂.heap.display v ∧
      e₃.world.variables = e₂.world.variables := by
  obtain ⟨p, ha', hout₁, hl₁⟩ := (ends_eval_outcome budget₁ a e).ok h₁
  obtain rfl := Except.ok.inj (ha.symm.trans ha')
  obtain ⟨main₁, m₁, hr₁, hrun₁, hw₁⟩ := hout₁.some
  obtain ⟨p, hb', hout₂, -⟩ := (ends_eval_outcome budget₂ b e₁).ok h₂
  obtain rfl := Except.ok.inj (hb.symm.trans hb')
  rw [hl₁, hw₁] at hout₂
  obtain ⟨main₂, m₂, hr₂, hrun₂, hw₂⟩ := hout₂.some
  obtain ⟨p, hc', hr, -⟩ := result_of_compile hcompiles
  obtain rfl := Except.ok.inj (hc.symm.trans hc')
  have he₁ : Evaluated e₁ := by
    have h := he.eval budget₁ a
    rwa [h₁] at h
  have he₂ : Evaluated e₂ := by
    have h := he₁.eval budget₂ b
    rwa [h₂] at h
  obtain ⟨A, hsafe, -⟩ := he.reachable.safe
  obtain ⟨A₁, hsafe₁, -⟩ := he₁.reachable.safe
  obtain ⟨A₂, hsafe₂, -⟩ := he₂.reachable.safe
  rw [hw₁] at hsafe₁
  obtain ⟨budget, R, w, m, hrun, hvalue, hworlds, hnames⟩ := Expr.runs_joined he.tame hsafe hbs
    (Expr.parseProgram_plain ha) (Expr.parseProgram_plain hb) hr₁ hrun₁ hsafe₁ hr₂ hrun₂ hr
  obtain ⟨e₃, heval, hw₃⟩ := eval_of_runMain hc hr hrun
  -- What the second program gives and leaves behind can be seen by programs.
  obtain ⟨B, -, hB, hmain, -⟩ := Expr.compile_runs hsafe₁ hr₂
  have hended := Machine.runMain_safe
    (m := ((Expr.program bs).compile m₁.world.heap m₁.world.globals).world.machine e.limits)
    hB hmain rfl hrun₂
  have hshown : m₂.heap.Shown v := hended.1.tag
  rw [hw₂] at hsafe₂
  have hstored := (World.Stored.shown (m := m₂) hsafe₂.toStored).globals
  refine ⟨budget, w, e₃, heval, ?_, ?_⟩
  · rw [show e₃.heap = m.heap from congrArg World.heap hw₃,
      show e₂.heap = m₂.heap from congrArg World.heap hw₂]
    exact hworlds.display hvalue hshown
  · rw [hw₃, hw₂]
    exact hworlds.variables hnames hstored

/-- A function that makes closures. -/
def keeping : List Char := "(def f (x) (lambda () x))".toList

/-- A closure that is made and called. -/
def recalling : List Char := "(var g (f \"a\")) (g)".toList

/-- The value that an evaluation gives. -/
def given : EStateM.Result ProgramError Engine (Option Value) → Option Value
  | .ok o _ => o
  | .error _ _ => none

theorem ok_of_given {r : EStateM.Result ProgramError Engine (Option Value)} {v : Value}
    (h : given r = some v) : r = .ok (some v) (after r) := by
  cases r with
  | ok o e =>
    cases h
    rfl
  | error err e => cases h

set_option maxRecDepth 4000 in
/-- A closure is made and called apart from the function that makes it, or together with it. -/
theorem eval_joined_recalling :
    let e := start ⟨20, 5⟩ .quiet
    let e₁ := after (eval 40 keeping e)
    let e₂ := after (eval 40 recalling e₁)
    ∃ budget w e₃, eval budget (keeping ++ ' ' :: recalling) e = .ok (some w) e₃ ∧
      e₃.heap.display w = "\"a\"" ∧ e₃.world.variables = e₂.world.variables := by
  let as : List Expr := [.list [.symbol "def", .symbol "f", .list [.symbol "x"],
    .list [.symbol "lambda", .list [], .symbol "x"]]]
  let bs : List Expr :=
    [.list [.symbol "var", .symbol "g", .list [.symbol "f", .string "a"]], .list [.symbol "g"]]
  have ha : Expr.parseProgram keeping = .ok (.program as) := by cbv
  have hb : Expr.parseProgram recalling = .ok (.program bs) := by cbv
  have hc : Expr.parseProgram (keeping ++ ' ' :: recalling) = .ok (.program (as ++ bs)) := by cbv
  have h₁ : given (eval 40 keeping (start ⟨20, 5⟩ .quiet)) = some (.object 6) := by cbv
  have h₂ : given (eval 40 recalling (after (eval 40 keeping (start ⟨20, 5⟩ .quiet)))) =
      some (.object 9) := by cbv
  have hcompiles : returned (compile (keeping ++ ' ' :: recalling) (start ⟨20, 5⟩ .quiet)) = [8] := by cbv
  have hdisplay : (after (eval 40 recalling (after (eval 40 keeping
      (start ⟨20, 5⟩ .quiet))))).heap.display (.object 9) = "\"a\"" := by cbv
  obtain ⟨budget, w, e₃, heval, hw, hvariables⟩ := eval_joined (.start ⟨20, 5⟩ .quiet) ha hb
    (List.cons_ne_nil _ _) hc (ok_of_given h₁) (ok_of_given h₂) (ok_of_returned hcompiles)
  exact ⟨budget, w, e₃, heval, hw.trans hdisplay, hvariables⟩

end Engine

end ByteLisp
