/-
  ByteLisp: programs do what they mean.

  A program that declares no name twice is compiled on a fresh engine. Then its run
  ends as the evaluation of the program does, unless the stack overflows, and it does
  not end if the evaluation does not.

  * `Val.Shown` and `Agrees`: a run ends as an evaluation says;
  * `Coded.follows_main`: so it is for the code of the program in an activation that
    starts;
  * `Linked.initial`: the built-in functions are there at the start;
  * `Engine.run_means` is the result for sources.
-/
import ByteLisp.Proofs.Engine.Recompiled
import ByteLisp.Proofs.Machine.Limits
import ByteLisp.Proofs.Meaning.Called
import ByteLisp.Proofs.Syntax.Literals
import Mathlib.Tactic.FinCases

namespace ByteLisp

open Machine

namespace Meaning

/-! ## How runs and evaluations end -/

/-- A value of the machine shows a value of the evaluation. -/
inductive Val.Shown (h : Heap) : Val → Value → Prop
  | number (x : Float) : Val.Shown h (.number x) (.number x)
  | boolean (b : Bool) : Val.Shown h (.boolean b) (.boolean b)
  | string {text : String} {i : Handle} : h.get? i = some (.string text) →
      Val.Shown h (.string text) (.object i)
  | builtin {f : Builtin} {i : Handle} : h.get? i = some (.native f.native) →
      Val.Shown h (.builtin f) (.object i)
  | closure {f : Function} {env : Env} {i : Handle} {g : Closure} {c : Code} :
      h.get? i = some (.function g) → h.code? g.code = some c → c.name = f.name →
      c.arity = f.params.length → Val.Shown h (.closure f env) (.object i)

/-- The global variables of the machine show those of the evaluation. -/
structure Memory.Shown (σ : Memory) (V : World) : Prop where
  assigned : ∀ n x, σ.globals n = some x → ∃ v, V.globals.value? n = some v ∧ x.Shown V.heap v
  unassigned : ∀ n, σ.globals n = none → V.globals.value? n = none

/-- A run ends as an evaluation does. -/
def Agrees : EStateM.Result Stop Memory Val → EStateM.Result Fault Machine Value → Prop
  | .ok x σ, .ok v m => x.Shown m.heap v ∧ σ.Shown m.world
  | .error (.fault f) σ, .error f' m => f' = f ∧ σ.Shown m.world
  | _, _ => False

section

variable {T : Scopes} {W : World} {N : Float → Prop} {g : Setting} {v : View} {n k pos : Nat} {L : Link}
  {σ : Memory} {ls : List Value} {m : Machine} {x : Val} {a : Value} {c : Code} {program : Form}
  {code : List Instr} {as : List Access}

theorem Val.Is.shown (hx : x.Is T W N L m.heap a) (hW : W.Leads m.world) : x.Shown m.heap a := by
  cases hx with
  | number x => exact .number x
  | boolean b => exact .boolean b
  | string hi => exact .string hi
  | builtin hi => exact .builtin hi
  | closure hi hF _ =>
    obtain ⟨c, code, as, hc, hcoded⟩ := hF.code
    cases hcoded with
    | code hname harity => exact .closure hi (hW.code? hc) hname harity

theorem Linked.shown (h : Linked T W N ⟨L, σ, m.world⟩) : σ.Shown m.world where
  assigned n x hx := by
    obtain ⟨v, hv, hx⟩ := h.assigned n x hx
    exact ⟨v, hv, Val.Is.shown hx h.leads⟩
  unassigned := h.unassigned

/-! ## The code of a program -/

/-- What the code of a program leaves: its value on top of the main function. -/
def Setting.Gives (g : Setting) (T : Scopes) (W : World) (N : Float → Prop) (pos : Nat) (x : Val)
    (σ : Memory) (m : Machine) : Prop :=
  ∃ L a b, Linked T W N ⟨L, σ, m.world⟩ ∧ m.At g pos [a, b] ∧ x.Is T W N L m.heap b

theorem Setting.Leaves.gives {s : ScopeId} {S : Stage}
    (h : g.Leaves T W N s v S ls pos .value x σ m) (hv : v.depth = 1) : g.Gives T W N pos x σ m := by
  obtain ⟨L, ls', b, hp, hx⟩ := h
  obtain ⟨a, rfl⟩ := List.length_eq_one_iff.1 ((hp.length rfl).trans hv)
  exact ⟨L, a, b, hp.situated.linked, hp.situated.place, hx⟩

section

variable (hT : T.Fits program) (hd : program.declares.Nodup) (hN : ∀ x ∈ program.numbers, N x)

include hT hd hN in
/-- What is known of the forms of a program apart from its code. -/
theorem placed_top (hs : v.slots = []) : Placed T N Scopes.root v program.top where
  standing :=
    ⟨hT.inside, by simp [hs], by simp [hs], by simp [hs], by simp [hs], by
      rwa [Form.collectAll_top fun _ => rfl]⟩
  forms := hT.forms
  blocks := hT.blocks
  numbers x hx := hN x (by rwa [Form.collectAll_top fun _ => rfl] at hx)

include hT hd hN in
/-- The code of a program does what the evaluation says. -/
theorem Coded.follows_main (hW : Numbered W N) (hl : c.Lies 0 code)
    (h : Coded T W c Scopes.root (.form false program .value) .start 0 code as) :
    ∃ bs, Laid T c (T.home Scopes.root) bs ∧ ∀ g : Setting, g.code = c → g.blocks = bs →
      ∀ L σ ls m, Situated T W N g Scopes.root .start 0 L σ ls m →
        m.Follows n (g.Gives T W N (Instr.total code)) (Halted T W N)
          (eval T (call T n) n g.env Scopes.root program σ) := by
  have hcalls : CallsFollow T W N n := callsFollow hT.once hW hT.captured n
  rcases program.top_cases with ⟨fs, rfl, htop⟩ | htop
  · cases h with
    | @block _ _ _ _ _ _ u _ k _ exit _ hE hcoded hexit =>
      cases hE with | @mk k₀ _ _ =>
      have hcells : T.blockCells Scopes.root = [] := by simp [Scopes.blockCells, hT.root]
      rw [hcells] at hcoded
      have placed := htop ▸ placed_top hT hd hN (v := View.start.enter (c.free.size + k₀) [])
        (by simp [View.start])
      obtain ⟨bs, ho, hdoes⟩ := Coded.simulates hT.once hW hT.captured hcalls hcoded hl.left placed
      refine ⟨bs, ⟨hT.blocks.sublist (htop ▸ ho.sub), ho.home, ho.own⟩, ?_⟩
      rintro g rfl rfl L σ ls m hs
      rw [eval]
      have hs' : Situated T W N g Scopes.root (View.start.enter (g.code.free.size + k₀) []) 0 L σ ls m :=
        hs.put hs.place rfl (by simpa using hs.depth) (by simp [View.cells_enter]) (by simp) fun _ _ => rfl
      refine Follows.further (hdoes g rfl (fun p hp => hp) L σ ls m hs') fun x σ₁ m₁ hx => ?_
      obtain ⟨L₁, ls₁, us, a, hus, p₁, hx⟩ := hx
      rw [← Nat.zero_add (Instr.total _), Instr.total_append, ← Nat.add_assoc]
      exact (p₁.situated.follows_exit placed.standing hus hx hexit hl.right).mono fun y σ₂ m₂ hy =>
        hy.gives (by simp [View.start])
  · have placed := htop ▸ placed_top hT hd hN (v := View.start) rfl
    obtain ⟨bs, ho, hdoes⟩ := Coded.simulates hT.once hW hT.captured hcalls h hl placed
    refine ⟨bs, ⟨?_, ho.home, ho.own⟩, ?_⟩
    · exact hT.blocks.sublist (htop ▸ by simpa [Task.collect, Form.collectAll] using ho.sub)
    rintro g rfl rfl L σ ls m hs
    rw [← Nat.zero_add (Instr.total _)]
    exact (hdoes g rfl (fun p hp => hp) L σ ls m hs).mono fun y σ₂ m₂ hy =>
        hy.gives (by simp [View.start])

end

end

/-! ## The start of a run -/

theorem Memory.initial_cases {name : String} {x : Val} (h : Memory.initial.globals name = some x) :
    name = "VERSION" ∧ x = .number 1 ∨ ∃ f ∈ Builtin.all, f.name = name ∧ x = .builtin f := by
  change (if name = "VERSION" then some (Val.number 1) else _) = some x at h
  split at h
  · next hn => exact Or.inl ⟨hn, (Option.some.inj h).symm⟩
  · obtain ⟨f, hf, rfl⟩ := Option.map_eq_some_iff.1 h
    exact Or.inr ⟨f, List.mem_of_find?_eq_some hf, by simpa using List.find?_some hf, rfl⟩

theorem Memory.initial_eq_none {name : String} (h : Memory.initial.globals name = none) :
    name ∉ ["VERSION", "square", "abs", "max", "min"] := by
  intro hm
  fin_cases hm <;> cases h

section

variable {T : Scopes} {W : World} {N : Float → Prop} {limits : Limits} {verbosity : Verbosity}

/-- A built-in function is there at the start. -/
theorem builtin_start (limits : Limits) (verbosity : Verbosity) {f : Builtin} (hf : f ∈ Builtin.all) :
    ∃ ix i, (Engine.start limits verbosity).globals.get? ix = some ⟨f.name, some (.object i)⟩ ∧
      (Engine.start limits verbosity).heap.get? i = some (.native f.native) := by
  fin_cases hf
  · exact ⟨1, 0, by cbv, by cbv⟩
  · exact ⟨2, 1, by cbv, by cbv⟩
  · exact ⟨3, 2, by cbv, by cbv⟩
  · exact ⟨4, 3, by cbv, by cbv⟩

/-- The global variables at the start are those of the evaluation, and no location has a cell. -/
theorem linked_initial {P : String → Prop} (hW : (Engine.start limits verbosity).world.Extends P W) :
    Linked T W N ⟨fun _ => none, .initial, W⟩ := by
  have hnames : (Engine.start limits verbosity).globals.names.Nodup := by
    rw [Engine.names_start]
    decide
  have hnodup : W.globals.names.Nodup := hW.added.nodup hnames
  refine ⟨.refl W, hnodup, fun name x hx => ?_, fun name hn => ?_, nofun, nofun, nofun,
    fun _ _ => ⟨rfl, rfl⟩⟩
  · rcases Memory.initial_cases hx with ⟨rfl, rfl⟩ | ⟨f, hf, rfl, rfl⟩
    · refine ⟨.number 1, (Globals.value?_eq_some hnodup).2 ⟨0, ⟨"VERSION", some (.number 1)⟩, ?_, rfl, rfl⟩,
        .number 1⟩
      exact hW.globals (by cbv)
    · obtain ⟨ix, i, hix, hi⟩ := builtin_start limits verbosity hf
      exact ⟨.object i, (Globals.value?_eq_some hnodup).2 ⟨ix, _, hW.globals hix, rfl, rfl⟩,
        .builtin (hW.heap i _ hi)⟩
  · -- the names that were added have no value
    cases hv : W.globals.value? name with
    | none => rfl
    | some v =>
      obtain ⟨ix, x, hx, rfl, hvalue⟩ := (Globals.value?_eq_some hnodup).1 hv
      obtain ⟨ns, hadd, -⟩ := hW.added
      have hx := Globals.get?_of_get?_adding (hadd ▸ hx) hvalue
      have hname : (Engine.start limits verbosity).globals.name? ix = some x.name := by
        rw [Globals.name?, hx]
        rfl
      have hm := Globals.mem_names_of_name? hname
      rw [Engine.names_start] at hm
      exact absurd hm (Memory.initial_eq_none hn)

end

section

variable {T : Scopes} {W : World} {N : Float → Prop} {g : Setting} {n pos : Nat} {σ : Memory}
  {m : Machine} {x : Val} {c : Code} {program : Form} {code : List Instr} {as : List Access} {main : Handle}
  {bs : List (ScopeId × Nat)}

/-- The activation of a program that starts. -/
def Setting.opening (m : Machine) (main : Handle) (c : Code) (bs : List (ScopeId × Nat)) : Setting where
  frame := ⟨0, 0, main, Array.range' (m.heap.size + 1) c.own.size⟩
  code := c
  callers := #[]
  below := []
  env _ := 0
  blocks := bs

/-- The cells of a program are those of its locations when it starts. -/
theorem situated_opening (hT : T.Once) (hb : Laid T c (T.home Scopes.root) bs)
    (hl : Linked T W N ⟨fun _ => none, .initial, m.world⟩) (hs : m.stack.values = [])
    (hfree : c.free = #[]) (hc : W.heap.code? main = some c) :
    ∃ L, Situated T W N (.opening m main c bs) Scopes.root .start 0 L .initial [.object m.heap.size]
      (m.opening main c) := by
  obtain ⟨linked, -⟩ := (hl.alloc (.function ⟨main, #[]⟩)).enter (P := fun _ => False) hT hb Nat.zero_lt_one
    fun _ _ => ⟨rfl, rfl⟩
  refine ⟨_, linked, ⟨rfl, rfl, rfl, ?_⟩, hc, rfl, Nat.zero_lt_one, fun p hp i x hx => ?_, nofun, nofun⟩
  · rw [Machine.opening, hs]
    rfl
  · refine ⟨_, ?_, hb.enter_eq hT hp hx⟩
    have hlt := (Array.getElem?_eq_some_iff.1 (hb.own p hp i x hx)).1
    simp only [Setting.opening, hfree, List.size_toArray, List.length_nil, Nat.zero_add]
    rw [Array.getElem?_range', if_pos hlt, Nat.one_mul, ← Nat.add_assoc, Heap.size_alloc]

/-- The run of a program ends with the value on top. -/
theorem Setting.Gives.finishes (h : g.Gives T W N pos x σ m) (hc : W.heap.code? g.frame.code = some g.code)
    (hl : g.code.Lies pos [.halt]) :
    ∃ v m', m.Finishes (.ok v m') ∧ x.Shown m'.heap v ∧ σ.Shown m'.world := by
  obtain ⟨L, a, b, hlinked, hat, hx⟩ := h
  have hi := hat.instr? (hlinked.code? hc) hl
  have hvals : (m.past .halt).stack.values = b :: a :: g.below.reverse := by
    rw [(hat.past (i := .halt)).values]
    simp
  have hend : Ends (execute .halt) (m.past .halt)
      (fun o m' => o = some b ∧ m' = (m.past .halt).put (a :: g.below.reverse)) fun _ _ => False := by
    refine ends_map (ends_bind (ends_height ?_))
    rw [hvals, if_pos (by simp)]
    exact ends_pop hvals ⟨rfl, rfl⟩
  have hstep := step_of_instr? hi
  cases hx' : execute .halt (m.past .halt) with
  | error f m' => exact (hend.error hx').elim
  | ok o m' =>
    obtain ⟨rfl, rfl⟩ := hend.ok hx'
    exact ⟨b, _, finishes_of_value (hstep.trans hx'), hx.shown hlinked.leads, hlinked.shown⟩

end

/-! ## Runs of programs -/

/-- The run ends as a result says or overflows the stack; if the bound `n` is exceeded, it may also take
    more than `n` steps. -/
def Concludes (m : Machine) (main : Handle) (n : Nat) (r : EStateM.Result Stop Memory Val) : Prop :=
  (∃ k e, m.runMain k main = some e ∧ (Machine.Ending.Overflows e ∨ Agrees r e)) ∨
    (∃ σ, r = .error .exhausted σ) ∧ m.runMain n main = none

section

variable {T : Scopes} {W : World} {N : Float → Prop} {m : Machine} {main : Handle} {c : Code}
  {program : Form}

theorem runMain_of_load {m m' : Machine} {k : Nat} (h : load main m = .ok () m') :
    runMain k main m = run k m' := by
  rw [runMain, h]

/-- The run of a program does what the evaluation says. -/
theorem CompiledMain.concludes (h : CompiledMain T W program c) (hT : T.Fits program)
    (hd : program.declares.Nodup) (hW : Numbered W N) (hN : ∀ x ∈ program.numbers, N x)
    (hl : Linked T W N ⟨fun _ => none, .initial, m.world⟩) (hs : m.stack.values = [])
    (hc : W.heap.code? main = some c) (n : Nat) :
    Concludes m main n (evalProgram T program n .initial) := by
  obtain ⟨-, -, hfree, code, as, hcoded, hbytes⟩ := h
  have hlies : c.Lies 0 (code ++ [.halt]) := Code.lies_of_bytes hbytes
  obtain ⟨bs, laid, hdoes⟩ := Coded.follows_main (n := n) hT hd hN hW hlies.left hcoded
  obtain ⟨L, situated⟩ := situated_opening hT.once laid hl hs hfree hc
  have hload : Ends (load main) m (fun _ m' => m' = m.opening main c) fun f _ => f = .stackOverflow :=
    ends_loadCode (hl.code? hc) rfl rfl
  cases hm : load main m with
  | error f m' =>
    refine Or.inl ⟨0, .error f m', ?_, Or.inl (hload.error hm)⟩
    rw [runMain, hm]
  | ok _ m' =>
    obtain rfl := hload.ok hm
    have runs (k : Nat) := runMain_of_load (k := k) hm
    have follows := hdoes (.opening m main c bs) rfl rfl L _ _ _ situated
    have ends {r e} (h : (m.opening main c).Finishes e) (he : Machine.Ending.Overflows e ∨ Agrees r e) :
        Concludes m main n r := by
      obtain ⟨k, hk⟩ := h
      exact Or.inl ⟨k, e, (runs k).trans hk, he⟩
    unfold evalProgram
    rcases follows with ⟨m', h⟩ | h
    · exact ends h (Or.inl rfl)
    change Concludes m main n (eval T (call T n) n (fun _ => 0) Scopes.root program Memory.initial)
    cases hr : eval T (call T n) n (fun _ => 0) Scopes.root program Memory.initial with
    | ok x σ =>
      rw [show (Setting.opening m main c bs).env = fun _ => 0 from rfl, hr] at h
      obtain ⟨m', hreach, hgives⟩ := h
      have hhalt : c.Lies (Instr.total code) [.halt] := by simpa using hlies.right
      obtain ⟨v, m'', hfin, hx, hσ⟩ := hgives.finishes hc hhalt
      exact ends (hfin.of_reaches hreach) (Or.inr ⟨hx, hσ⟩)
    | error s σ =>
      rw [show (Setting.opening m main c bs).env = fun _ => 0 from rfl, hr] at h
      cases s with
      | fault f =>
        obtain ⟨m', hfin, L', hlinked⟩ := h
        exact ends hfin (Or.inr ⟨rfl, hlinked.shown⟩)
      | exhausted => exact Or.inr ⟨⟨σ, rfl⟩, (runs n).trans h⟩
      | malformed why => exact h.elim

end

theorem runMain_unique {m : Machine} {main : Handle} {k l : Nat} {e e' : Machine.Ending}
    (h : m.runMain k main = some e) (h' : m.runMain l main = some e') : e = e' := by
  cases hm : load main m with
  | error f m' =>
    rw [runMain, hm] at h h'
    exact Option.some.inj (h.symm.trans h')
  | ok _ m' =>
    rw [runMain_of_load hm] at h h'
    exact Finishes.unique ⟨k, h⟩ ⟨l, h'⟩

end Meaning

namespace Engine

variable {src : List Char} {program : Expr} {limits : Limits} {verbosity : Verbosity} {main : Handle}
  {e : Engine}

/-- There are only built-in functions on the heap at the start. -/
theorem native_of_start {i : Handle} {o : Object} (h : (start limits verbosity).heap.get? i = some o) :
    ∃ f ∈ Native.builtins, o = .native f := by
  have hobjects : (start limits verbosity).heap.objects =
      (Native.builtins.map Object.native).toArray := by cbv
  rw [Heap.get?, hobjects, List.getElem?_toArray] at h
  obtain ⟨f, hf, rfl⟩ := List.mem_map.1 (List.mem_of_getElem? h)
  exact ⟨f, hf, rfl⟩

/-- A program that declares no name twice is compiled on a fresh engine. If its run ends, then it
    overflows the stack, or the program has a result and the run ends as this says; and if the program
    has a result, then the run ends. -/
theorem run_means (hp : Expr.parseProgram src = .ok program)
    (hd : (Form.ofResolved "lambda" program.resolveProgram.1).Distinct)
    (hc : compile src (start limits verbosity) = .ok main e) :
    (∀ budget ending, e.machine.runMain budget main = some ending →
      Machine.Ending.Overflows ending ∨ ∃ r, program.Means r ∧ Meaning.Agrees r ending) ∧
    ∀ r, program.Means r → ∃ budget ending, e.machine.runMain budget main = some ending ∧
      (Machine.Ending.Overflows ending ∨ Meaning.Agrees r ending) := by
  obtain ⟨program', hp', hr, hw⟩ := result_of_compile hc
  cases hp.symm.trans hp'
  obtain ⟨⟨c, hcode, hmain⟩, -⟩ := program.compile_ok hr
  have hcoded := hmain
  obtain ⟨-, -, -, code, as, hcoded, -⟩ := hcoded
  have hplain := Expr.plain_numbers (Expr.parseProgram_plain hp)
  have fits := program.resolveProgram_fits hcoded.no_malformed hd
  have hextends : (start limits verbosity).world.Extends (fun _ => True) e.world :=
    hw ▸ Expr.compile_extends Form.admits_true
  have numbered : Meaning.Numbered e.world Double.Plain := by
    refine ⟨fun x y hx hy h => hx.eq_of_beq hy h, fun i c x hc hx => ?_⟩
    rcases Nat.lt_or_ge i (start limits verbosity).heap.size with hi | hi
    · have hstart := Array.getElem?_eq_getElem hi
      obtain ⟨f, -, hf⟩ := native_of_start hstart
      have := (hextends.heap i _ hstart).symm.trans (Heap.code?_eq_some.1 hc)
      rw [hf] at this
      cases this
    · rw [hw] at hc
      exact hplain x ((((program.compile_fresh hr).2 i _ hi (Heap.code?_eq_some.1 hc)) _ hx).number x rfl)
  have concludes (n : Nat) : Meaning.Concludes e.machine main n (program.meaning n) :=
    Meaning.CompiledMain.concludes (hw ▸ hmain) fits hd.nodup numbered hplain
      (Meaning.linked_initial hextends) rfl (hw ▸ hcode) n
  refine ⟨fun budget ending hrun => ?_, fun r ⟨hr, n, hn⟩ => ?_⟩
  · rcases concludes budget with ⟨k, e', hk, h⟩ | ⟨-, hnone⟩
    · obtain rfl := Meaning.runMain_unique hrun hk
      refine h.imp_right fun h => ⟨_, ⟨fun σ hσ => ?_, budget, rfl⟩, h⟩
      rw [hσ] at h
      cases ending <;> exact h
    · cases hrun.symm.trans hnone
  · rcases hn ▸ concludes n with ⟨k, ending, h⟩ | ⟨⟨σ, hσ⟩, -⟩
    · exact ⟨k, ending, h⟩
    · exact absurd hσ (hr σ)

/-- A function whose parameter another function changes. -/
def flipping : List Char := "(def flip (x) (begin ((lambda () (set x true))) x)) (flip \"a\")".toList

/-- The program as a tree. -/
def flippingTree : Expr :=
  .list [.symbol "begin",
    .list [.symbol "def", .symbol "flip", .list [.symbol "x"],
      .list [.symbol "begin",
        .list [.list [.symbol "lambda", .list [], .list [.symbol "set", .symbol "x", .symbol "true"]]],
        .symbol "x"]],
    .list [.symbol "flip", .string "a"]]

theorem run_means_flipping :
    let e := after (compile flipping (start .usual .quiet))
    Expr.parseProgram flipping = .ok flippingTree ∧
      (Form.ofResolved "lambda" flippingTree.resolveProgram.1).Distinct ∧
      compile flipping (start .usual .quiet) = .ok 8 e ∧
      ∃ σ, flippingTree.meaning 3 = .ok (.boolean true) σ ∧
        ∃ budget ending, e.machine.runMain budget 8 = some ending ∧
          (Machine.Ending.Overflows ending ∨ Meaning.Agrees (.ok (.boolean true) σ) ending) := by
  have hp : Expr.parseProgram flipping = .ok flippingTree := by cbv
  have declares : (Form.ofResolved "lambda" flippingTree.resolveProgram.1).declares = ["flip", "x"] := by cbv
  have hd : (Form.ofResolved "lambda" flippingTree.resolveProgram.1).Distinct := by
    refine ⟨?_, ?_⟩
    · rw [declares]
      decide
    · rw [declares]
      decide
  have hc : compile flipping (start .usual .quiet) = .ok 8 (after (compile flipping (start .usual .quiet))) :=
    ok_of_returned (by cbv)
  obtain ⟨σ, hσ⟩ : ∃ σ, flippingTree.meaning 3 = .ok (.boolean true) σ := ⟨_, by cbv⟩
  have hmeans : flippingTree.Means (.ok (.boolean true) σ) := ⟨fun _ h => (by cases h), 3, hσ⟩
  exact ⟨hp, hd, hc, σ, hσ, (run_means hp hd hc).2 _ hmeans⟩

end Engine

end ByteLisp
