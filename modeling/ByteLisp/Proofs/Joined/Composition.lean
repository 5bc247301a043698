/-
  ByteLisp: two programs, and both of them in one.

  * `World.Tame.run`: a run of a program leaves a world that corresponds to itself;
  * `Halfway`: the first program has ended, and the joined one stands behind its code;
    `Expr.Split.halfway` and `Expr.Split.halfway_nil` say how it gets there;
  * `Halfway.finish`: from there on it does what the second program does.
-/
import ByteLisp.Proofs.Joined.Openings
import ByteLisp.Proofs.Machine.Activations

namespace ByteLisp

variable {A : Handle → Prop} {N N' : String → Prop} {W W' V V' : World} {Q R : Nat → Nat → Prop}
  {S : Nat → Prop}
  {main main' : Handle} {c c' : Code} {limits : Limits} {dist skip : Nat}

/-! ## Worlds after compilations -/

theorem World.Extends.size_le (h : W.Extends N V) : W.globals.size ≤ V.globals.size := by
  obtain ⟨ns, hns, -⟩ := h.added
  rw [hns, Globals.size, Globals.size, Globals.adding, Array.size_append]
  exact Nat.le_add_right ..

/-- New global variables have no value. -/
theorem Worlds.ahead (h : Worlds S R W W') (hx : W.Extends N V) (hx' : W'.Extends N' V') {ns : List String}
    (hnames : V'.globals.names = V.globals.names ++ ns) : V.globals.Ahead R V'.globals := by
  refine ⟨fun ix x hix => ?_, fun ix x' hle hix => ?_⟩
  · have hname : V'.globals.name? ix = some x.name := by
      have hlt : ix < V.globals.names.length := by
        rw [Globals.names, List.length_map, Array.length_toList]
        exact (Array.getElem?_eq_some_iff.1 hix).1
      rw [← Globals.names_getElem?, hnames, List.getElem?_append_left hlt, Globals.names_getElem?,
        Globals.name?, hix]
      rfl
    obtain ⟨x', hix', hname⟩ := Option.map_eq_some_iff.1 hname
    refine ⟨x', hix', hname, ?_⟩
    -- A variable that is new in either world has no value.
    rcases Nat.lt_or_ge ix W.globals.size with hlt | hge
    · have hold := Array.getElem?_eq_getElem hlt
      obtain rfl := Option.some.inj (hix.symm.trans (hx.globals hold))
      obtain ⟨y', hy', -, hv⟩ := h.globals.global ix _ hold
      obtain rfl := Option.some.inj (hix'.symm.trans (hx'.globals hy'))
      exact hv
    · have new : x.value = none := by
        cases hv : x.value with
        | none => rfl
        | some v => exact absurd (Array.getElem?_eq_some_iff.1 (hx.values hix hv)).1 (Nat.not_lt.2 hge)
      have new' : x'.value = none := by
        cases hv : x'.value with
        | none => rfl
        | some v => exact hv.symm.trans (h.globals.fresh ix x' hge (hx'.values hix' hv))
      rw [new, new']
      exact .none
  · cases hv : x'.value with
    | none => rfl
    | some v => exact hv.symm.trans (h.globals.fresh ix x' (Nat.le_trans hx.size_le hle) (hx'.values hix hv))

theorem World.Tame.extends (h : W.Tame) (hx : W.Extends N V) : V.Tame := by
  obtain ⟨P, hw⟩ := h
  exact ⟨P, hw.extend (fun _ _ => id) hx.heap hx.heap (fun _ _ => Or.inl)
    (hw.ahead hx hx (List.append_nil _).symm)⟩

theorem World.Tame.grow (h : W.Tame) (hW : ∀ i o, W.heap.get? i = some o → V.heap.get? i = some o)
    (hg : V.globals = W.globals) : V.Tame := by
  obtain ⟨P, hw⟩ := h
  exact ⟨P, hw.grow hW hW hg hg⟩

namespace Expr

variable {es : List Expr} {h : Heap} {g : Globals} {code code' : List Instr} {e d₀ d : Emission}

namespace Generates

theorem not_cell (hg : Generates es h g main code e) {k : Nat} {o : Object}
    (ho : e.heap.get? (h.size + k) = some o) :
    ∀ v, o ≠ .cell v := by
  rintro v rfl
  have hcell : ((program es).compile h g).heap.get? (h.size + k) = some (.cell v) := by
    rw [hg.heap]
    exact Heap.get?_alloc_of_some ho
  exact (compile_fresh hg.result).2 _ _ (Nat.le_add_right h.size k) hcell

/-- The code object of the program is what was generated. -/
theorem code_main (hg : Generates es h g main code e)
    (hc : ((program es).compile h g).world.heap.code? main = some c) :
    c = e.draft.main code :=
  Object.code.inj (Option.some.inj ((Heap.code?_eq_some.1 hc).symm.trans hg.get_main))

theorem get? (hg : Generates es h g main code e) {i : Handle} {o : Object} (ho : e.heap.get? i = some o) :
    ((program es).compile h g).world.heap.get? i = some o := by
  rw [show ((program es).compile h g).world.heap = _ from hg.heap]
  exact Heap.get?_alloc_of_some ho

/-- What a program and a part of another one allocate corresponds. -/
theorem link (hg : Generates es h g main code e) (hw : Worlds S Q ⟨h, g⟩ W')
    {e' d' : Emission} (hS : Emission.Twin (sides (Linking Q h e d₀ d) h e code d₀ d code') e' d')
    (he : e'.heap = e.heap) (hd : ∀ i o, d'.heap.get? i = some o → d.heap.get? i = some o)
    (hd' : ∀ i o, d.heap.get? i = some o → (∀ v, o ≠ .cell v) → V'.heap.get? i = some o)
    (hW' : ∀ i o, W'.heap.get? i = some o → V'.heap.get? i = some o)
    (hglobals : ((program es).compile h g).globals.Ahead Q V'.globals) :
    Worlds S (Linking Q h e d₀ d) ((program es).compile h g).world V' := by
  have added : World.Extends (fun _ => True) ⟨h, g⟩ ((program es).compile h g).world :=
    compile_extends Form.admits_true
  refine hw.link added.heap hW' (fun i o => hg.get?) hd' (fun k o ho => ⟨hg.not_cell ho, ?_⟩)
    (hglobals.mono fun _ _ => Or.inl)
  obtain ⟨o', ho', htwin⟩ := hS.objects k o (he ▸ ho)
  exact ⟨o', hd _ _ ho', htwin⟩

end Generates

end Expr

/-! ## One program -/

/-- The state that a machine reaches leads on from the first one. -/
theorem Machine.Reaches.preserves {m m' : Machine} (h : m.Reaches m') : m.Preserves m' := by
  induction h with
  | start => exact lasting_preserves.refl m
  | step _ hs ih => exact lasting_preserves.trans ih ((step_preserves _).ok hs)

/-- A run of a program leaves a world that corresponds to itself. -/
theorem World.Tame.run (ht : W.Tame) (hW : W.Safe A) {es : List Expr} (hp : (Expr.program es).Plain)
    (hr : ((Expr.program es).compile W.heap W.globals).result = .ok main)
    {budget : Nat} {ending : Machine.Ending}
    (hrun : (((Expr.program es).compile W.heap W.globals).world.machine limits).runMain budget main =
      some ending) :
    ending.machine.world.Tame := by
  have added : W.Extends (fun _ => True) ((Expr.program es).compile W.heap W.globals).world :=
    Expr.compile_extends Form.admits_true
  have htame := ht.extends added
  obtain ⟨P, hw⟩ := ht
  obtain ⟨code, e, hg⟩ := Expr.generates hr
  obtain ⟨B, c, hB, hprog, hc, harity, hclear⟩ := Expr.compile_runs hW hr
  obtain rfl := hg.code_main hc
  obtain ⟨notes, hbody⟩ := hg.body
  have hR : Expr.Relates (Linking (fun i j => P i ∧ i = j) W.heap e
      (.opened W.heap W.globals notes) e) W.heap e
      (.opened W.heap W.globals notes) e := relates_linking
  have hF := Expr.fair_sides hg hg hp hp (Nat.le_refl _) hR
  obtain ⟨hinstrs, htwin⟩ := hg.twins_self hp ⟨notes, rfl⟩ hF
  have hworlds := hg.link hw htwin rfl (fun _ _ h => h) (fun i o ho _ => hg.get? ho) added.heap
    (hw.ahead added added (List.append_nil _).symm)
  have part : (e.draft.main code).Part _ 0 0 [.halt] (e.draft.main code) :=
    ⟨[], code, code, [.halt], rfl, rfl, rfl, hinstrs⟩
  obtain ⟨R', htwins⟩ := Machine.twins_opening limits hworlds hc hc (b := 0) rfl part
  rcases Machine.runMain_opening hc hrun with ⟨m, rfl, hheap, hglobals⟩ | ⟨-, hload, hrun⟩
  · have kept : ∀ i o, ((Expr.program es).compile W.heap W.globals).world.heap.get? i = some o →
        m.world.heap.get? i = some o :=
      fun i o ho => (congrArg (Heap.get? · i) hheap).trans (Heap.get?_alloc_of_some ho)
    exact htame.grow kept hglobals
  · have hsound := Machine.sound_opening hB hprog hload
    have hfollow := htwins.tandem.run hB ⟨harity, hclear⟩ hsound hrun
    cases ending with
    | error f m => exact hfollow
    | ok v m =>
      obtain ⟨m₁, M₁, harr, -, hm⟩ := hfollow
      obtain ⟨R', v', htwins⟩ := harr.twins
      exact hm ▸ htwins.tame

/-! ## The first of two programs -/

/-- Where the second machine goes on with another instruction. -/
theorem Machine.Arrived.next {G : Ground} {v : Value} {m M : Machine} (h : Arrived S G v m M) {i : Instr}
    {code pre post : List Instr} (hcode : G.code.bytes = Instr.bytes (code ++ [.halt]))
    (hb : G.code'.bytes = Instr.bytes (pre ++ i :: post))
    (htotal : Instr.total pre = Instr.total code + G.dist) :
    M.current = ⟨Instr.total pre, 0, G.main', G.cells'⟩ ∧ M.instr? = some i := by
  obtain ⟨code₁, hcode₁, hcurrent⟩ := h.current
  obtain rfl := List.append_cancel_right (Instr.bytes_inj (hcode₁.symm.trans hcode))
  rw [← htotal] at hcurrent
  obtain ⟨R, v', htwins⟩ := h.twins
  refine ⟨hcurrent, instr?_eq (c := G.code') (by rw [hcurrent]; exact htwins.code') ?_⟩
  rw [hb, hcurrent]
  exact Instr.fetch_bytes ..

/-- The first of two programs has ended, in the world `W`, and the joined program stands behind its code,
    where it was compiled up to `d`. Its further cells are still spare; the first of its cells is `base`. -/
structure Halfway (limits : Limits) (d : Emission) (base : Nat) (main' : Handle) (c' : Code)
    (W : World) (M : Machine) : Prop where
  worlds : ∃ R, Worlds (fun j => base + d.draft.own.size ≤ j ∧ j < base + c'.own.size) R W M.world
  names : W.globals.names = d.globals.names
  code : M.heap.code? main' = some c'
  values : ∃ low, M.stack.values = [low]
  limit : M.stack.limit = limits.stack
  frameLimit : M.frameLimit = limits.frames
  current : M.current = ⟨d.draft.offset, 0, main', Array.range' base c'.own.size⟩
  callers : M.callers = #[]

namespace Expr.Split

variable {as bs : List Expr} {d₀ d₁ d e : Emission} {first second code : List Instr}

/-- The forms of the second program only add. -/
theorem grows_second {h : Heap} {g : Globals} (hs : Split as bs h g d₀ d₁ d first second) :
    d₁.Grows (fun _ => True) d := (Form.emitBody_growing Form.admits_true).ok hs.second

theorem size_le {h : Heap} {g : Globals} (hs : Split as bs h g d₀ d₁ d first second) :
    h.size ≤ d₁.heap.size := by
  obtain ⟨notes, rfl⟩ := hs.start
  exact hs.grows.toExtends.leads.size_le

theorem own_le {h : Heap} {g : Globals} (hs : Split as bs h g d₀ d₁ d first second) :
    d₁.draft.own.size ≤ d.draft.own.size := by
  refine Nat.le_of_not_lt fun hlt => ?_
  have hlast := hs.grows_second.draft.own _ _ (Array.getElem?_eq_getElem hlt)
  exact absurd (Array.getElem?_eq_some_iff.1 hlast).1 (Nat.lt_irrefl _)

theorem names_second {h : Heap} {g : Globals} (hs : Split as bs h g d₀ d₁ d first second) :
    ∃ ns, d.globals.names = d₁.globals.names ++ ns := by
  obtain ⟨ns, hns, -⟩ := hs.grows_second.added
  exact ⟨ns, by rw [show d.globals = d₁.globals.adding ns from hns, Globals.names_adding]⟩

/-- After both compilations, the first program is a part of the joined one. -/
theorem linked_first (hs : Split as bs W.heap W.globals d₀ d₁ d first second) (has : as ≠ []) (ht : W.Tame)
    (hpa : (program as).Plain) (hpj : (program (as ++ bs)).Plain)
    (hga : Generates as W.heap W.globals main code e)
    (hgj : Generates (as ++ bs) W.heap W.globals main' (first ++ second) d) :
    ∃ R, Worlds (fun _ => False) R ((program as).compile W.heap W.globals).world
        ((program (as ++ bs)).compile W.heap W.globals).world ∧
      (e.draft.main code).Part R 0 0 [.halt] (d.draft.main (first ++ second)) ∧
      (∃ is', first = is' ++ [.pop] ∧ Instr.total is' = Instr.total code) ∧
      d₁.draft.own.size = e.draft.own.size ∧ d₁.globals.names = e.globals.names := by
  have added : W.Extends (fun _ => True) ((program as).compile W.heap W.globals).world :=
    compile_extends Form.admits_true
  have added' : W.Extends (fun _ => True) ((program (as ++ bs)).compile W.heap W.globals).world :=
    compile_extends Form.admits_true
  obtain ⟨P, hw⟩ := ht
  obtain ⟨notes, rfl⟩ := id hs.start
  have hR : Relates (Linking (fun i j => P i ∧ i = j) W.heap e (.opened W.heap W.globals notes) d) W.heap e
      (.opened W.heap W.globals notes) d := relates_linking
  have hF := fair_sides hga hgj hpa hpj (Nat.le_refl _) hR
  obtain ⟨hinstrs, htwin⟩ := hs.twins_first has hga hpa hF
  -- The joined program has declared the variables of the second one as well.
  obtain ⟨ns, hns⟩ := hs.names_second
  have hnames : ((program (as ++ bs)).compile W.heap W.globals).globals.names =
      ((program as).compile W.heap W.globals).globals.names ++ ns := by
    rw [hgj.globals, hga.globals, hns, ← htwin.names]
  have hworlds := hga.link hw htwin rfl hs.grows_second.heap (fun i o ho _ => hgj.get? ho) added'.heap
    (hw.ahead added added' hnames)
  obtain ⟨is', js, rfl, hcode, hpop⟩ := forall₂_append_left hinstrs
  obtain ⟨i', rfl⟩ : ∃ i', js = [i'] := List.length_eq_one_iff.1 hpop.length_eq.symm
  obtain ⟨hpop, -⟩ := List.forall₂_cons.1 hpop
  cases hpop with
  | fixed =>
    refine ⟨_, hworlds, ⟨[], code, is', .pop :: (second ++ [.halt]), rfl, ?_, rfl, hcode⟩,
      ⟨is', rfl, Instr.total_twins hcode⟩, htwin.draft.own, htwin.names.symm⟩
    change Instr.bytes _ = _
    simp

/-- The joined program does what the first one does alone, and drops its value. -/
theorem halfway (hs : Split as bs W.heap W.globals d₀ d₁ d first second) (has : as ≠ []) (ht : W.Tame)
    (hW : W.Safe A) (hpa : (program as).Plain) (hpj : (program (as ++ bs)).Plain)
    (hga : Generates as W.heap W.globals main code e)
    (hgj : Generates (as ++ bs) W.heap W.globals main' (first ++ second) d)
    {budget : Nat} {u : Value} {m : Machine}
    (hrun : (((program as).compile W.heap W.globals).world.machine limits).runMain budget main =
      some (.ok u m)) :
    ∃ M, ((((program (as ++ bs)).compile W.heap W.globals).world.machine limits).opening main'
        (d.draft.main (first ++ second))).Reaches M ∧
      Halfway limits d₁ (((program (as ++ bs)).compile W.heap W.globals).heap.size + 1) main'
        (d.draft.main (first ++ second)) m.world M := by
  obtain ⟨B, c, hB, hprog, hc, harity, hclear⟩ := compile_runs hW hga.result
  obtain rfl := hga.code_main hc
  have hc' : ((program (as ++ bs)).compile W.heap W.globals).world.heap.code? main' =
      some (d.draft.main (first ++ second)) :=
    Heap.code?_eq_some.2 hgj.get_main
  obtain ⟨R, hworlds, part, ⟨is', hfirst, htotal⟩, hown, hnames⟩ := hs.linked_first has ht hpa hpj hga hgj
  have hsize : (d.draft.main (first ++ second)).own.size =
      (e.draft.main code).own.size + (d.draft.own.size - d₁.draft.own.size) := by
    change d.draft.own.size = e.draft.own.size + _
    have := hs.own_le
    omega
  obtain ⟨R', htwins⟩ := Machine.twins_opening limits hworlds hc hc' hsize part
  rcases Machine.runMain_opening hc hrun with ⟨_, h, -⟩ | ⟨-, hload, hrun⟩
  · cases h
  obtain ⟨m₁, M₁, harr, hreach, hm⟩ := htwins.tandem.run hB ⟨harity, hclear⟩
    (Machine.sound_opening hB hprog hload) hrun
  have hbytes : (d.draft.main (first ++ second)).bytes =
      Instr.bytes (is' ++ .pop :: (second ++ [.halt])) := by
    rw [hfirst]
    change Instr.bytes _ = _
    simp
  have hcode : (e.draft.main code).bytes = Instr.bytes (code ++ [.halt]) := rfl
  obtain ⟨hcurrent, hpop⟩ := harr.next hcode hbytes htotal
  obtain ⟨R₁, u', htwins₁⟩ := harr.twins
  obtain ⟨low, hl⟩ := htwins₁.values'
  have hstep : Machine.step M₁ = .ok none ((M₁.past .pop).put [low]) := by
    rw [Machine.step_of_instr? hpop]
    exact ok_of_ends (ends_bind (Machine.ends_pop hl (ends_pure ⟨rfl, rfl⟩)))
  refine ⟨_, hreach.step hstep, ?_⟩
  have kept := (Machine.run_preserves hrun).names
  refine ⟨⟨R₁, ?_⟩, ?_, htwins₁.code', ⟨low, rfl⟩, htwins₁.limit', htwins₁.frameLimit', ?_, harr.callers⟩
  · rw [hm]
    refine htwins₁.worlds.fewer fun j ⟨hle, hlt⟩ => ⟨?_, ?_⟩
    · rw [hown] at hle
      exact hle
    · rw [hsize, ← Nat.add_assoc] at hlt
      exact hlt
  · exact kept.trans ((congrArg Globals.names hga.globals).trans hnames.symm)
  · rw [hfirst] at hs
    have hoffset := hs.at_top.offset
    rw [Instr.total_append, Instr.total_cons, Instr.total_nil] at hoffset
    change { M₁.current with ip := M₁.current.ip + 1 } = _
    rw [hcurrent, hoffset]
    rfl

end Expr.Split

/-! ## The empty program -/

/-- The next instruction of code that is laid out before it. -/
theorem Machine.instr?_at {m : Machine} {p q : List Instr} {i : Instr}
    (hc : m.heap.code? m.current.code = some c) (hb : c.bytes = Instr.bytes (p ++ i :: q))
    (hip : m.current.ip = Instr.total p) : m.instr? = some i :=
  instr?_eq hc (by rw [hb, hip]; exact Instr.fetch_bytes ..)

/-- The run of code that only pushes a constant leaves the world as it is. -/
theorem Machine.run_constant {m m' : Machine} {ix : UInt8} {budget : Nat} {u : Value}
    (hc : m.heap.code? m.current.code = some c) (hb : c.bytes = Instr.bytes [.const ix, .halt])
    (hip : m.current.ip = 0) (hr : run budget m = some (.ok u m')) : m'.world = m.world := by
  have first : Ends step m (fun o m₁ => o = none ∧ m₁.world = m.world ∧ m₁.current.code = m.current.code ∧
      m₁.current.ip = 2) fun _ _ => True := by
    unfold Ends
    rw [step_of_instr? (instr?_at (p := []) hc hb hip)]
    refine ends_bind (ends_get (ends_bind (ends_codeAt hc (ends_bind ?_))))
    cases c.constant? ix.toNat with
    | none => exact ends_throw trivial
    | some w =>
      exact ends_pure
        (ends_bind (ends_push trivial (ends_pure ⟨rfl, rfl, rfl, by rw [put, past, hip]; rfl⟩)))
  cases budget with
  | zero => cases hr
  | succ budget =>
    rw [run] at hr
    cases hs : step m with
    | error f m₁ => rw [hs] at hr; cases hr
    | ok o m₁ =>
      obtain ⟨rfl, hw, hcode, hip₁⟩ := first.ok hs
      rw [hs] at hr
      have hc₁ : m₁.heap.code? m₁.current.code = some c := by
        rw [hcode, show m₁.heap = m.heap from congrArg World.heap hw]
        exact hc
      have hi : m₁.instr? = some .halt := instr?_at (p := [.const ix]) hc₁ hb hip₁
      cases budget with
      | zero => cases hr
      | succ budget =>
        simp only [run, step_of_instr? hi] at hr
        have second : Ends (execute .halt) (m₁.past .halt)
            (fun o m₂ => (∃ w, o = some w) ∧ m₂.world = m₁.world) fun _ _ => True := by
          refine ends_map (ends_bind (ends_height ?_))
          cases hv : (m₁.past .halt).stack.values with
          | nil => exact ends_pure ⟨⟨_, rfl⟩, rfl⟩
          | cons v vs =>
            split
            · exact ends_pop hv ⟨⟨_, rfl⟩, rfl⟩
            · exact ends_pure ⟨⟨_, rfl⟩, rfl⟩
        cases hhalt : execute .halt (m₁.past .halt) with
        | error f m₂ => rw [hhalt] at hr; cases hr
        | ok o m₂ =>
          obtain ⟨⟨w, rfl⟩, hw₂⟩ := second.ok hhalt
          rw [hhalt] at hr
          cases hr
          exact hw₂.trans hw

namespace Expr

variable {bs es : List Expr} {h : Heap} {g : Globals} {first second code : List Instr} {e d₀ d₁ d : Emission}

/-- The code of the empty program pushes a constant. -/
theorem Generates.code_nil (hg : Generates [] h g main code e) :
    (∃ ix, code = [.const ix]) ∧ e.heap = h ∧ e.globals = g := by
  obtain ⟨notes, hbody⟩ := hg.body
  change Emit.constant (.boolean false) _ = _ at hbody
  unfold Emit.constant at hbody
  simp only [Emit.bind_ok, Emit.update_ok, Emit.instr_ok] at hbody
  obtain ⟨ix, e₁, h₁, _, _, rfl, rfl, rfl⟩ := hbody
  obtain ⟨-, cs, rfl⟩ := Emit.constantIndex_ok h₁
  exact ⟨⟨ix, rfl⟩, rfl, rfl⟩

/-- The empty program changes nothing but what the heap has at its end. -/
theorem Generates.run_nil (hg : Generates [] W.heap W.globals main code e)
    {budget : Nat} {u : Value} {m : Machine}
    (hrun : (((program []).compile W.heap W.globals).world.machine limits).runMain budget main =
      some (.ok u m)) :
    (∀ i o, W.heap.get? i = some o → m.heap.get? i = some o) ∧ m.globals = W.globals := by
  obtain ⟨⟨ix, rfl⟩, hheap, hglobals⟩ := hg.code_nil
  have hc : ((program []).compile W.heap W.globals).world.heap.code? main = some (e.draft.main [.const ix]) :=
    Heap.code?_eq_some.2 hg.get_main
  rcases Machine.runMain_opening hc hrun with ⟨_, h, -⟩ | ⟨-, -, hrun⟩
  · cases h
  have kept {i : Handle} {o : Object} (ho : ((program []).compile W.heap W.globals).heap.get? i = some o) :
      ((((program []).compile W.heap W.globals).world.machine limits).opening main
        (e.draft.main [.const ix])).heap.get? i = some o :=
    Heap.get?_addCells_of_some _ (Heap.get?_alloc_of_some ho)
  have hworld := Machine.run_constant (Heap.code?_eq_some.2 (kept hg.get_main)) rfl rfl hrun
  refine ⟨fun i o ho => ?_, (congrArg World.globals hworld).trans (hg.globals.trans hglobals)⟩
  rw [show m.heap = _ from congrArg World.heap hworld]
  refine kept ?_
  rw [hg.heap, hheap]
  exact Heap.get?_alloc_of_some ho

/-- Behind the empty program, the joined one stands at its start. -/
theorem Split.halfway_nil (hs : Split [] bs W.heap W.globals d₀ d₁ d first second) (ht : W.Tame)
    (hga : Generates [] W.heap W.globals main code e)
    (hgj : Generates bs W.heap W.globals main' (first ++ second) d) {budget : Nat} {u : Value} {m : Machine}
    (hrun : (((program []).compile W.heap W.globals).world.machine limits).runMain budget main =
      some (.ok u m)) :
    Halfway limits d₁ (((program bs).compile W.heap W.globals).heap.size + 1) main'
      (d.draft.main (first ++ second)) m.world
      ((((program bs).compile W.heap W.globals).world.machine limits).opening main'
        (d.draft.main (first ++ second))) := by
  obtain ⟨hheap, hglobals⟩ := hga.run_nil hrun
  obtain ⟨P, hw⟩ := ht
  obtain ⟨notes, rfl⟩ := hs.start
  obtain ⟨rfl, rfl⟩ := Emit.pure_ok.1 hs.first
  have added : W.Extends (fun _ => True) ((program bs).compile W.heap W.globals).world :=
    compile_extends Form.admits_true
  obtain ⟨ns, hns, -⟩ := added.added
  have hnames : ((program bs).compile W.heap W.globals).globals.names = W.globals.names ++ ns := by
    rw [show ((program bs).compile W.heap W.globals).globals = _ from hns, Globals.names_adding]
  have hahead := hw.ahead (N := fun _ => True) (.refl W) added hnames
  have hworlds : Worlds (fun _ => False) _ m.world
      ⟨((program bs).compile W.heap W.globals).heap.alloc (.function ⟨main', #[]⟩),
        ((program bs).compile W.heap W.globals).globals⟩ :=
    hw.extend (fun _ _ => id) hheap (fun i o ho => Heap.get?_alloc_of_some (added.heap i o ho))
      (fun _ _ => Or.inl)
      (by rw [show m.world.globals = W.globals from hglobals]; exact hahead)
  have hspare := hworlds.addSpare (d.draft.main ([] ++ second)).own.size
  rw [Heap.size_alloc] at hspare
  exact ⟨⟨_, hspare⟩, congrArg Globals.names hglobals,
    Heap.code?_eq_some.2 (Heap.get?_addCells_of_some _ (Heap.get?_alloc_of_some hgj.get_main)),
    ⟨_, rfl⟩, rfl, rfl, rfl, rfl⟩

end Expr

/-! ## The second program -/

namespace Expr.Split

variable {as bs : List Expr} {d₀ d₁ d e : Emission} {first second code : List Instr} {M : Machine}
  {base : Nat}

/-- Behind the first program, the joined one does what the second one does alone. -/
theorem finish (hs : Split as bs W.heap W.globals d₀ d₁ d first second)
    (hh : Halfway limits d₁ base main' (d.draft.main (first ++ second)) V M) (hV : V.Safe A)
    (hpb : (program bs).Plain) (hpj : (program (as ++ bs)).Plain)
    (hgb : Generates bs V.heap V.globals main code e)
    (hgj : Generates (as ++ bs) W.heap W.globals main' (first ++ second) d)
    (hkept : ∀ i o, d.heap.get? i = some o → (∀ v, o ≠ .cell v) → M.heap.get? i = some o)
    (hnames : M.globals.names = d.globals.names) {budget : Nat} {v : Value} {m : Machine}
    (hrun : (((program bs).compile V.heap V.globals).world.machine limits).runMain budget main =
      some (.ok v m)) :
    ∃ R v' M', M.Finishes (.ok v' M') ∧ v.Twin R v' ∧ Worlds (fun _ => False) R m.world M'.world ∧
      M'.globals.names = m.globals.names := by
  obtain ⟨Q, hw⟩ := hh.worlds
  obtain ⟨B, c, hB, hprog, hc, harity, hclear⟩ := compile_runs hV hgb.result
  obtain rfl := hgb.code_main hc
  have hR : Relates (Linking Q V.heap e d₁ d) V.heap e d₁ d := relates_linking
  have hF := fair_sides hgb hgj hpb hpj hs.size_le hR
  obtain ⟨hinstrs, htwin⟩ := hs.twins_second hgb hpb hh.names hF
  have added : V.Extends (fun _ => True) ((program bs).compile V.heap V.globals).world :=
    compile_extends Form.admits_true
  have hcompiled : M.globals.names = ((program bs).compile V.heap V.globals).globals.names := by
    rw [hgb.globals, htwin.names, hnames]
  have hworlds := hgb.link hw htwin rfl (fun _ _ h => h) hkept (fun _ _ h => h)
    (hw.ahead added (.refl M.world : World.Extends (fun _ => True) M.world M.world)
      (hcompiled.trans (List.append_nil _).symm))
  -- The second program takes the spare cells.
  have hown : (d.draft.main (first ++ second)).own.size =
      d₁.draft.own.size + (e.draft.main code).own.size := by
    change d.draft.own.size = _ + e.draft.own.size
    rw [htwin.draft.own, Nat.add_comm]
    rfl
  rw [hown, ← Nat.add_assoc] at hworlds
  have part : (e.draft.main code).Part (Linking Q V.heap e d₁ d) d₁.draft.offset d₁.draft.own.size [.halt]
      (d.draft.main (first ++ second)) := ⟨first, code, second, [.halt], rfl, rfl, hs.at_top.offset, hinstrs⟩
  have hcells : ∀ k < (e.draft.main code).own.size,
      (Array.range' base (d.draft.main (first ++ second)).own.size)[k + d₁.draft.own.size]? =
        some (base + d₁.draft.own.size + k) := by
    intro k hk
    have hlt : k + d₁.draft.own.size < (d.draft.main (first ++ second)).own.size := by omega
    rw [Array.getElem?_eq_getElem (by rw [Array.size_range']; exact hlt), Array.getElem_range']
    exact congrArg some (by omega)
  obtain ⟨low, hvalues⟩ := hh.values
  obtain ⟨R, htwins⟩ := Machine.twins_resumed hworlds hc hh.code hvalues hh.limit hh.frameLimit
    hh.current hh.callers
    hcells part
  rcases Machine.runMain_opening hc hrun with ⟨_, h, -⟩ | ⟨-, hload, hopened⟩
  · cases h
  obtain ⟨m₁, M₁, harr, hreach, hm⟩ := htwins.tandem.run hB ⟨harity, hclear⟩
    (Machine.sound_opening hB hprog hload) hopened
  have hcode : (e.draft.main code).bytes = Instr.bytes (code ++ [.halt]) := rfl
  have hbytes : (d.draft.main (first ++ second)).bytes = Instr.bytes ((first ++ second) ++ .halt :: []) := rfl
  have htotal : Instr.total (first ++ second) = Instr.total code + d₁.draft.offset := by
    rw [Instr.total_append, Instr.total_twins hinstrs, hs.at_top.offset, Nat.add_comm]
  obtain ⟨-, hhalt⟩ := harr.next hcode hbytes htotal
  obtain ⟨R₁, v', htwins₁⟩ := harr.twins
  obtain ⟨low', hl⟩ := htwins₁.values'
  refine ⟨R₁, v', _, (Machine.finishes_of_value (Machine.step_halt hhalt hl)).of_reaches hreach,
    (List.forall₂_cons.1 htwins₁.stack).1, hm ▸ htwins₁.worlds, ?_⟩
  exact hreach.preserves.names.trans (hcompiled.trans (Machine.runMain_preserves hrun).names.symm)

end Expr.Split

/-! ## Both programs -/

namespace Expr

variable {as bs : List Expr}

/-- A program whose forms are those of two programs does what they do one after the other. -/
theorem runs_joined {A' : Handle → Prop} (ht : W.Tame) (hW : W.Safe A) (hbs : bs ≠ [])
    (hpa : (program as).Plain) (hpb : (program bs).Plain)
    {main₁ main₂ : Handle} {budget₁ budget₂ : Nat} {u v : Value} {m₁ m₂ : Machine}
    (h₁ : ((program as).compile W.heap W.globals).result = .ok main₁)
    (hrun₁ : (((program as).compile W.heap W.globals).world.machine limits).runMain budget₁ main₁ =
      some (.ok u m₁))
    (hsafe : m₁.world.Safe A')
    (h₂ : ((program bs).compile m₁.heap m₁.globals).result = .ok main₂)
    (hrun₂ : (((program bs).compile m₁.heap m₁.globals).world.machine limits).runMain budget₂ main₂ =
      some (.ok v m₂))
    (hj : ((program (as ++ bs)).compile W.heap W.globals).result = .ok main) :
    ∃ budget R v' m',
      (((program (as ++ bs)).compile W.heap W.globals).world.machine limits).runMain budget main =
        some (.ok v' m') ∧
      v.Twin R v' ∧ Worlds (fun _ => False) R m₂.world m'.world ∧
      m'.globals.names = m₂.globals.names := by
  have hpj : (program (as ++ bs)).Plain := ⟨trivial, allPlain_append.2 ⟨hpa.2, hpb.2⟩⟩
  obtain ⟨code₁, e₁, hg₁⟩ := generates h₁
  obtain ⟨code₂, e₂, hg₂⟩ := generates h₂
  obtain ⟨code, d, hgj⟩ := generates hj
  obtain ⟨d₀, d₁, first, second, hs, rfl⟩ := hgj.split hbs
  have hc : ((program (as ++ bs)).compile W.heap W.globals).world.heap.code? main =
      some (d.draft.main (first ++ second)) :=
    Heap.code?_eq_some.2 hgj.get_main
  obtain ⟨M, hreach, hh⟩ :
    ∃ M, ((((program (as ++ bs)).compile W.heap W.globals).world.machine limits).opening main
        (d.draft.main (first ++ second))).Reaches M ∧
      Halfway limits d₁ (((program (as ++ bs)).compile W.heap W.globals).heap.size + 1) main
        (d.draft.main (first ++ second)) m₁.world M := by
    cases as with
    | nil => exact ⟨_, .start, hs.halfway_nil ht hg₁ hgj hrun₁⟩
    | cons a as => exact hs.halfway (List.cons_ne_nil a as) ht hW hpa hpj hg₁ hgj hrun₁
  have kept := hreach.preserves
  obtain ⟨R, v', m', hfinish, hv, hw, hnames⟩ := hs.finish hh hsafe hpb hpj hg₂ hgj
    (fun i o ho hcell => kept.world.objects i o
      (Heap.get?_addCells_of_some _ (Heap.get?_alloc_of_some (hgj.get? ho))) hcell)
    (kept.names.trans (congrArg Globals.names hgj.globals)) hrun₂
  have hl : 0 < limits.stack := by
    rcases Machine.runMain_opening (V := ((program bs).compile m₁.heap m₁.globals).world)
      (Heap.code?_eq_some.2 hg₂.get_main) hrun₂ with ⟨_, h, -⟩ | ⟨hl, -⟩
    · cases h
    · exact hl
  obtain ⟨budget, hrun⟩ := Machine.runMain_finishes hc hl (hfinish.of_reaches hreach)
  exact ⟨budget, R, v', m', hrun, hv, hw, hnames⟩

end Expr

end ByteLisp
