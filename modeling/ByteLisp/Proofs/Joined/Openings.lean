/-
  ByteLisp: the starts of two runs in step.

  * `Linking` relates what two compilations allocate; `Worlds.link`: the worlds after
    them correspond;
  * `Machine.twins_opening`: two programs start at the same time;
    `Machine.twins_resumed`: a program starts while another one goes on with the same
    code;
  * `Expr.compile_runs`: what is known of a program that is compiled in a safe world.
-/
import ByteLisp.Proofs.Engine.Safety
import ByteLisp.Proofs.Joined.Programs
import ByteLisp.Proofs.Joined.Steps
import ByteLisp.Proofs.Machine.Leftovers

namespace ByteLisp

variable {A : Handle → Prop} {W W' V V' : World} {Q R : Nat → Nat → Prop} {S : Nat → Prop}
  {main main' : Handle} {c c' : Code} {limits : Limits} {dist skip : Nat}

/-! ## Related objects -/

/-- Two handles were related before, or they belong to objects that two compilations have allocated at
    the same time, or to strings with the same text. -/
def Linking (Q : Nat → Nat → Prop) (h : Heap) (e d₀ d : Emission) (i j : Nat) : Prop :=
  Q i j ∨ (∃ k, h.size + k < e.heap.size ∧ i = h.size + k ∧ j = d₀.heap.size + k) ∨
    ∃ text, e.heap.string? i = some text ∧ d.heap.string? j = some text

section

variable {h : Heap} {e d₀ d : Emission}

theorem relates_linking : Expr.Relates (Linking Q h e d₀ d) h e d₀ d where
  new k hk := Or.inr (Or.inl ⟨k, hk, rfl, rfl⟩)
  string _ _ text hi hj := Or.inr (Or.inr ⟨text, hi, hj⟩)

/-- What two compilations allocate is added to worlds that correspond. -/
theorem Worlds.link (hw : Worlds S Q W W') (hW : ∀ i o, W.heap.get? i = some o → V.heap.get? i = some o)
    (hW' : ∀ i o, W'.heap.get? i = some o → V'.heap.get? i = some o)
    (he : ∀ i o, e.heap.get? i = some o → V.heap.get? i = some o)
    (hd : ∀ i o, d.heap.get? i = some o → (∀ v, o ≠ .cell v) → V'.heap.get? i = some o)
    (hobjects : ∀ k o, e.heap.get? (h.size + k) = some o →
      (∀ v, o ≠ .cell v) ∧ ∃ o', d.heap.get? (d₀.heap.size + k) = some o' ∧ o.Twin (Linking Q h e d₀ d) o')
    (hglobals : V.globals.Ahead (Linking Q h e d₀ d) V'.globals) : Worlds S (Linking Q h e d₀ d) V V' := by
  refine hw.extend (fun _ _ => Or.inl) hW hW' (fun i j hij => ?_) hglobals
  rcases hij with hij | ⟨k, hk, rfl, rfl⟩ | ⟨text, hi, hj⟩
  · exact Or.inl hij
  · have ho := Array.getElem?_eq_getElem hk
    obtain ⟨hc, o', ho', htwin⟩ := hobjects k _ ho
    refine Or.inr ⟨_, o', he _ _ ho, hd _ _ ho' fun v hv => ?_, htwin, hc⟩
    subst hv
    generalize e.heap.objects[h.size + k] = o at htwin hc
    cases htwin
    exact hc _ rfl
  · exact Or.inr ⟨_, _, he _ _ (Heap.string?_eq_some.1 hi), hd _ _ (Heap.string?_eq_some.1 hj)
      (by simp), .string text,
      by simp⟩

end

/-! ## Loading -/

theorem Heap.addCells_add (h : Heap) (a b : Nat) : (h.addCells a).addCells b = h.addCells (a + b) := by
  rw [addCells, addCells, addCells, Array.append_assoc, Array.replicate_append_replicate]

theorem Heap.size_addCells (h : Heap) (n : Nat) : (h.addCells n).size = h.size + n := by
  rw [addCells, size, Array.size_append, Array.size_replicate, size]

/-- A machine in some world that has not run yet. -/
def World.machine (W : World) (limits : Limits) : Machine := .start W.heap W.globals limits

namespace Machine

/-- A run of a main code object overflows the stack at once, or it is loaded and runs. -/
theorem runMain_opening {budget : Nat} {ending : Ending} (hc : V.heap.code? main = some c)
    (hr : (V.machine limits).runMain budget main = some ending) :
    (∃ m, ending = .error .stackOverflow m ∧ m.heap = V.heap.alloc (.function ⟨main, #[]⟩) ∧
      m.globals = V.globals) ∨
      0 < limits.stack ∧ load main (V.machine limits) = .ok () ((V.machine limits).opening main c) ∧
        run budget ((V.machine limits).opening main c) = some ending := by
  rw [runMain] at hr
  rcases Nat.eq_zero_or_pos limits.stack with hl | hl
  · rw [load_full (m := V.machine limits) hc (Nat.le_of_eq hl)] at hr
    cases hr
    exact Or.inl ⟨_, rfl, rfl, rfl⟩
  · have hload := load_room (m := V.machine limits) hc hl
    rw [hload] at hr
    exact Or.inr ⟨hl, hload, hr⟩

/-- A loaded program that comes to an end does so within some budget. -/
theorem runMain_finishes {ending : Ending} (hc : V.heap.code? main = some c) (hl : 0 < limits.stack)
    (hf : ((V.machine limits).opening main c).Finishes ending) :
    ∃ budget, (V.machine limits).runMain budget main = some ending := by
  obtain ⟨budget, hbudget⟩ := hf
  refine ⟨budget, ?_⟩
  rw [runMain, load_room (m := V.machine limits) hc hl]
  exact hbudget

/-- The state in which the run of a program starts is sound. -/
theorem sound_opening {m : Machine} (hV : V.Safe A) (hp : Program A V main)
    (hload : load main (V.machine limits) = .ok () m) : m.Sound A V :=
  (load_sound (m := V.machine limits) hV hp rfl).ok hload

theorem getElem?_range' {a n k : Nat} {i : Nat} (h : (Array.range' a n)[k]? = some i) :
    k < n ∧ i = a + k := by
  obtain ⟨hk, rfl⟩ := Array.getElem?_eq_some_iff.1 h
  rw [Array.size_range'] at hk
  exact ⟨hk, by rw [Array.getElem_range', Nat.one_mul]⟩

/-- Two programs start, of which the first is the start of the second; its cells that the first one does
    not have are spare. -/
theorem twins_opening (limits : Limits) (h : Worlds (fun _ => False) R V V') (hc : V.heap.code? main = some c)
    (hc' : V'.heap.code? main' = some c') {b : Nat} (hown : c'.own.size = c.own.size + b)
    (hp : c.Part R 0 0 [.halt] c') :
    ∃ R', Twins (fun j => V'.heap.size + 1 + c.own.size ≤ j ∧ j < V'.heap.size + 1 + c.own.size + b) R'
      ⟨main, main', c, c', 0, 0, Array.range' (V'.heap.size + 1) c'.own.size, limits⟩ [] []
      ((V.machine limits).opening main c) ((V'.machine limits).opening main' c') := by
  have h₁ : Worlds (fun _ => False) R ⟨V.heap.alloc (.function ⟨main, #[]⟩), V.globals⟩
      ⟨V'.heap.alloc (.function ⟨main', #[]⟩), V'.globals⟩ :=
    h.grow (fun _ _ ho => Heap.get?_alloc_of_some ho) (fun _ _ ho => Heap.get?_alloc_of_some ho) rfl rfl
  obtain ⟨R', hR, hnew, h₂⟩ := h₁.addCells c.own.size
  have h₃ := h₂.addSpare b
  rw [Heap.addCells_add, ← hown, Heap.size_addCells, Heap.size_alloc] at h₃
  have kept {W : World} {o : Object} {n : Nat} {main : Handle} {c : Code} (hc : W.heap.code? main = some c) :
      ((W.heap.alloc o).addCells n).code? main = some c :=
    Heap.code?_eq_some.2 (Heap.get?_addCells_of_some n (Heap.get?_alloc_of_some (Heap.code?_eq_some.1 hc)))
  refine ⟨R', h₃, ⟨_, rfl⟩, ⟨_, rfl⟩, .nil, rfl, rfl, rfl, rfl, ?_, kept hc, kept hc', hp.mono hR⟩
  refine .ground ⟨rfl, rfl, fun k i hi => ?_⟩ rfl rfl rfl rfl
  obtain ⟨hk, rfl⟩ := getElem?_range' hi
  have hk' : k < c'.own.size := by omega
  have hpair := hnew k hk
  rw [Heap.size_alloc, Heap.size_alloc] at hpair
  refine ⟨V'.heap.size + 1 + k, ?_, hpair⟩
  change (Array.range' (V'.heap.size + 1) c'.own.size)[k + 0]? = _
  rw [Array.getElem?_eq_getElem (by rw [Array.size_range']; exact hk'), Array.getElem_range', Nat.one_mul]
  rfl

/-- A program starts, while another machine goes on with the same code and takes the spare cells. -/
theorem twins_resumed {M : Machine} {low : Value} {b : Nat} {cells' : Array Handle}
    (h : Worlds (fun j => b ≤ j ∧ j < b + c.own.size) R V M.world) (hc : V.heap.code? main = some c)
    (hc' : M.heap.code? main' = some c') (hvalues : M.stack.values = [low])
    (hlimit : M.stack.limit = limits.stack)
    (hframes : M.frameLimit = limits.frames) (hcurrent : M.current = ⟨dist, 0, main', cells'⟩)
    (hcallers : M.callers = #[]) (hcells : ∀ k < c.own.size, cells'[k + skip]? = some (b + k))
    (hp : c.Part R dist skip [.halt] c') :
    ∃ R', Twins (fun _ => False) R' ⟨main, main', c, c', dist, skip, cells', limits⟩ [] []
      ((V.machine limits).opening main c) M := by
  have h₁ : Worlds (fun j => b ≤ j ∧ j < b + c.own.size) R
      ⟨V.heap.alloc (.function ⟨main, #[]⟩), V.globals⟩ M.world :=
    h.grow (fun _ _ ho => Heap.get?_alloc_of_some ho) (fun _ _ ho => ho) rfl rfl
  obtain ⟨R', hR, hnew, h₂⟩ := h₁.takeSpare
  have hkept : ((V.heap.alloc (.function ⟨main, #[]⟩)).addCells c.own.size).code? main = some c :=
    Heap.code?_eq_some.2 (Heap.get?_addCells_of_some _ (Heap.get?_alloc_of_some (Heap.code?_eq_some.1 hc)))
  refine ⟨R', h₂, ⟨_, rfl⟩, ⟨low, hvalues⟩, .nil, rfl, hlimit, rfl, hframes, ?_, hkept, hc', hp.mono hR⟩
  have hM : M.frames = [⟨dist, 0, main', cells'⟩] := by rw [frames, hcurrent, hcallers]; rfl
  rw [hM]
  refine .ground ⟨(Nat.zero_add dist).symm, rfl, fun k i hi => ?_⟩ rfl rfl rfl rfl
  obtain ⟨hk, rfl⟩ := getElem?_range' hi
  have hpair := hnew k hk
  rw [Heap.size_alloc] at hpair
  exact ⟨b + k, hcells k hk, hpair⟩

end Machine

/-! ## Compiled programs -/

/-- A program that is compiled in a safe world may be run, and does not reach its main function. -/
theorem Expr.compile_runs {program : Expr} (hW : W.Safe A)
    (hr : (program.compile W.heap W.globals).result = .ok main) :
    ∃ B c, (program.compile W.heap W.globals).world.Safe B ∧
      Program B (program.compile W.heap W.globals).world main ∧
      (program.compile W.heap W.globals).world.heap.code? main = some c ∧ c.arity = 0 ∧
        ∀ code, c.bytes = Instr.bytes (code ++ [.halt]) →
          Clear (program.compile W.heap W.globals).world c 0 (plain 1) code := by
  obtain ⟨⟨c, hc, hmain⟩, -⟩ := compile_ok hr
  have law : Engine.CodeLaw fun _ _ => True := ⟨⟨fun _ _ => trivial⟩, fun _ _ => trivial, fun _ _ => trivial⟩
  have added : W.Extends (fun _ => True) (program.compile W.heap W.globals).world :=
    compile_extends Form.admits_true
  have holds : Engine.Holds (fun _ _ => True) [] ⟨W.heap, W.globals, .usual, .quiet, #[]⟩ :=
    ⟨A, hW, fun _ _ => trivial, nofun⟩
  have holds' : Engine.Holds (fun _ _ => True) [main]
      ⟨(program.compile W.heap W.globals).heap, (program.compile W.heap W.globals).globals,
        .usual, .quiet, #[]⟩ :=
    Engine.holds_supplied law.toStable holds added (law.supplies hr)
  obtain ⟨B, hsafe, -, hmains⟩ := holds'
  exact ⟨B, c, hsafe, hmains main List.mem_cons_self, hc, hmain.2.1, fun code => hmain.clear⟩

end ByteLisp
