/-
  ByteLisp: what earlier runs leave on the stack.

  A run begins on top of what earlier ones left, but the base of the program is the bottom of the
  stack. So only the local variables of the program itself can tell.

  * `Stack.atop` and `Machine.atop`: the same state on top of some values, with as much more room;
    the bases of all activations but the first are higher by as much;
  * `Code.Slotless`: code without local variables on the stack;
  * `run_atop` and `outcome_atop`: a program with such code runs on top of some values as it does
    on the empty stack.
-/
import ByteLisp.Proofs.Machine.Calls
import ByteLisp.Proofs.Machine.Limits

namespace ByteLisp

/-- Code that neither reads nor writes a slot of the stack. -/
def Code.Slotless (c : Code) : Prop := ∀ is, c.instrs = .ok is → ∀ p ∈ is, p.2.slot? = none

/-! ## The stack -/

namespace Stack

variable {below : List Value}

/-- The stack on top of some values. -/
def atop (below : List Value) (s : Stack) : Stack :=
  ⟨s.values ++ below, s.height + below.length, s.limit + below.length, by simp [s.height_eq]⟩

theorem atop_push (v : Value) : Tolerates (¬ ·.Expected) (atop below) (push v) where
  ends s := by
    unfold ToleratesAt Alike Ends push
    have same : s.limit ≤ s.height ↔ (s.atop below).limit ≤ (s.atop below).height :=
      (Nat.add_le_add_iff_right (n := below.length)).symm
    by_cases hs : s.limit ≤ s.height
    · rw [if_pos hs, if_pos (same.1 hs)]
      exact Or.inr rfl
    · rw [if_neg hs, if_neg fun h => hs (same.2 h)]
      simp [atop, Nat.add_right_comm]

theorem atop_pop : Tolerates (¬ ·.Expected) (atop below) pop where
  ends s := by
    obtain ⟨values, height, limit, h⟩ := s
    cases values with
    | nil => exact Or.inl id
    | cons v vs =>
      subst h
      simp [ToleratesAt, Alike, Ends, pop, atop, Nat.add_right_comm]

theorem atop_peek (n : Nat) : Tolerates (¬ ·.Expected) (atop below) (peek n) := tolerates_look fun s => by
  cases hv : s.values[n]? with
  | none => exact Or.inr ⟨.stackUnderflow, by simp only [peek, hv], Or.inl id⟩
  | some v =>
    have hlt := (List.getElem?_eq_some_iff.1 hv).1
    have hw : (s.atop below).values[n]? = some v := (List.getElem?_append_left hlt).trans hv
    exact Or.inl ⟨v, by simp only [peek, hv], by simp only [peek, hw]⟩

theorem atop_drop (n : Nat) : Tolerates (¬ ·.Expected) (atop below) (drop n) where
  ends s := by
    unfold ToleratesAt Alike Ends drop
    by_cases hs : n ≤ s.height
    · have hw : n ≤ (s.atop below).height := Nat.le_add_right_of_le hs
      rw [if_pos hs, if_pos hw]
      have hv : n ≤ s.values.length := s.height_eq ▸ hs
      simp [atop, List.drop_append_of_le_length hv, Nat.sub_add_comm hs]
    · rw [if_neg hs]
      exact Or.inl id

/-- The slots are counted from the bottom. -/
theorem atop_get (ix : Nat) (s : Stack) :
    Alike (¬ ·.Expected) (atop below) (get ix) (get (ix + below.length)) s := by
  unfold Alike Ends get
  by_cases hs : ix < s.height
  · have hw : ix + below.length < (s.atop below).height := Nat.add_lt_add_right hs _
    rw [if_pos hs, if_pos hw]
    have hlt : s.height - 1 - ix < s.values.length := by rw [← s.height_eq]; omega
    have hsub : (s.atop below).height - 1 - (ix + below.length) = s.height - 1 - ix := by
      simp only [atop]
      omega
    rw [hsub, show (s.atop below).values = s.values ++ below from rfl, List.getElem?_append_left hlt,
      List.getElem?_eq_getElem hlt]
  · rw [if_neg hs]
    exact Or.inl id

theorem atop_set (ix : Nat) (v : Value) (s : Stack) :
    Alike (¬ ·.Expected) (atop below) (set ix v) (set (ix + below.length) v) s := by
  unfold Alike Ends set
  by_cases hs : ix < s.height
  · have hw : ix + below.length < (s.atop below).height := Nat.add_lt_add_right hs _
    rw [if_pos hs, if_pos hw]
    have hlt : s.height - 1 - ix < s.values.length := by rw [← s.height_eq]; omega
    have hsub : s.height + below.length - 1 - (ix + below.length) = s.height - 1 - ix := by omega
    simp [atop, hsub, List.set_append_left _ _ hlt]
  · rw [if_neg hs]
    exact Or.inl id

theorem overlay_atop : Overlay (¬ ·.Expected) below.length (atop below) where
  height _ := rfl
  push := atop_push
  pop := atop_pop
  peek := atop_peek
  drop := atop_drop
  take {s} _ hn := List.take_append_of_le_length (s.height_eq ▸ hn)
  lacks := Or.inr id

end Stack

/-! ## The machine -/

/-- The activation with its base higher by `k`, unless it is the first one. -/
def Frame.lift (k depth : Nat) (f : Frame) : Frame :=
  { f with base := if depth = 0 then f.base else f.base + k }

namespace Machine

variable {below : List Value} {A : Handle → Prop} {W : World} {m m' : Machine} {main : Handle} {c : Code}
  {budget : Nat}

/-- The machine on top of some values. -/
def atop (below : List Value) (m : Machine) : Machine :=
  { m with
    stack := m.stack.atop below
    current := m.current.lift below.length m.callers.size
    callers := m.callers.mapIdx (Frame.lift below.length) }

theorem overlay_atop : Overlay (¬ ·.Expected) below.length (Stack.atop below) (atop below) where
  values := Stack.overlay_atop
  heap _ := rfl
  globals _ := rfl
  stack _ := rfl
  ip _ := rfl
  code _ := rfl
  cells _ := rfl
  withHeap _ _ := rfl
  withGlobals _ _ := rfl
  withStack _ _ := rfl
  withIp _ _ := rfl
  frames m := Or.inl (by simp [atop])
  enter f m := by
    simp [Alike, Ends, enter, atop, Frame.lift]
  ret := ⟨fun m => by
    unfold ToleratesAt Alike Ends
    cases hb : m.callers.back? with
    | none =>
      simp only [ret, hb]
      exact Or.inl id
    | some f =>
      obtain ⟨fs, hfs⟩ := Array.back?_eq_some_iff.1 hb
      simp [ret, atop, hfs]⟩

theorem atop_halt (hm : 1 < m.stack.height) : ToleratesAt (¬ ·.Expected) (atop below) (execute .halt) m := by
  refine Alike.bind (overlay_atop.height ?_) fun _ _ _ => (tolerates_pure _).ends _
  rw [if_pos hm, if_pos (Nat.lt_add_right _ hm)]
  exact overlay_atop.pop.ends m

/-- The slots of all activations but the first have moved with their bases. -/
theorem atop_slot {i : Instr} (hi : i.slot? ≠ none) (hm : m.callers.size ≠ 0) :
    ToleratesAt (¬ ·.Expected) (atop below) (execute i) m := by
  have base {m' : Machine} (hc : m'.current = m.current) (hn : m'.callers = m.callers) (slot : UInt8) :
      (m'.atop below).current.base + slot.toNat = m'.current.base + slot.toNat + below.length := by
    change (m'.current.lift below.length m'.callers.size).base + _ = _
    rw [hn, Frame.lift, if_neg hm]
    exact Nat.add_right_comm ..
  have changed {α : Type} (f : Machine → Run α) (m : Machine) :
      ((get : Run Machine) >>= f) (m.atop below) = f (m.atop below) (m.atop below) := rfl
  cases i with
  | getLocal slot =>
    rw [ToleratesAt, Alike, execute, changed, base rfl rfl]
    refine ends_bind (ends_get ?_)
    exact (overlay_atop.alike_onStack (Stack.atop_get ..)).bind fun _ m' _ =>
      ((tolerates_bind (overlay_atop.push _) fun _ => tolerates_pure _).ends m')
  | setLocal slot =>
    refine ((overlay_atop.peek 0).ends m).bind fun v m' hp => ?_
    obtain ⟨rfl, -⟩ := peek_ok hp
    rw [Alike, changed, base rfl rfl]
    refine ends_bind (ends_get ?_)
    exact (overlay_atop.alike_onStack (Stack.atop_set ..)).bind fun _ m' _ => (tolerates_pure _).ends m'
  | _ => exact absurd rfl hi

/-! ## Steps of sound code -/

/-- The next instruction is one of those that decoding gives. -/
theorem Sound.mem_instrs (h : m.Sound A W) (hc : m.heap.code? m.current.code = some c) :
    ∃ is i, c.instrs = .ok is ∧ (m.current.ip, i) ∈ is ∧ m.instr? = some i := by
  obtain ⟨r, σ, vs, rest, hr, pre, post, hbody, hip, -⟩ := h
  cases hr.code?.symm.trans hc
  rw [Nat.zero_add] at hip
  obtain ⟨i, post', hpost⟩ : ∃ i post', post ++ [r.last] = i :: post' := by
    cases post with
    | nil => exact ⟨r.last, [], rfl⟩
    | cons i post => exact ⟨i, post ++ [r.last], rfl⟩
  have hbytes : r.code.bytes = Instr.bytes (pre ++ i :: post') := by
    rw [hr.runs.sound.bytes, hbody, List.append_assoc, hpost]
  refine ⟨_, i, Code.instrs_eq_placed hbytes, Instr.mem_placed.2 ⟨pre, post', rfl, ?_⟩, instr?_eq hc ?_⟩
  · rw [hip, Nat.zero_add]
  · rw [hbytes, hip]
    exact Instr.fetch_bytes pre i post'

/-- Below the value of a program lies its function. -/
theorem Sound.height_halt (h : m.Sound A W) (hi : m.instr? = some .halt) : 1 < m.stack.height := by
  obtain ⟨r, σ, vs, rest, hr, hp⟩ := h
  obtain ⟨r', σ', vs', i, hr', hi', ⟨hlast, hσ⟩ | ⟨hf, -⟩⟩ := SoundOn.next ⟨r, σ, vs, hr, hp⟩
  · cases hi.symm.trans hi'
    rcases hr'.runs.sound.last with ⟨hl, -⟩ | ⟨-, hd⟩
    · cases hlast.trans hl
    · rw [hr'.height, hσ, hd, length_plain]
      omega
  · cases hi.symm.trans hi'
    exact hf.operand.elim

/-- Only built-in functions are called besides those of programs. -/
theorem Sound.callsBuiltins (h : m.Sound A W) : m.CallsBuiltins := by
  intro argc u g hi hu hg
  obtain ⟨r, σ, vs, rest, hr, hp⟩ := h
  obtain ⟨r', σ', vs', i, hr', hi', ⟨hlast, hσ⟩ | ⟨hf, -⟩⟩ := SoundOn.next ⟨r, σ, vs, hr, hp⟩
  · cases hi.symm.trans hi'
    rcases hr'.runs.sound.last with ⟨hl, -⟩ | ⟨hl, -⟩ <;> cases hlast.trans hl
  · cases hi.symm.trans hi'
    obtain ⟨n, hn, rfl⟩ := hf.awaits
    obtain ⟨hlen, hvis⟩ := Segment.plain_iff.1 hr'.segment
    have hlt : argc.toNat < vs'.length := by
      rw [hlen]
      exact hn
    rw [hr'.values, List.getElem?_append_left hlt] at hu
    have hv := hvis u (List.mem_of_getElem? hu)
    cases hv with
    | number x | boolean b => cases hg
    | string hi => cases hi.symm.trans hg
    | native hi hn => cases hi.symm.trans hg; exact hn
    | function hi => cases hi.symm.trans hg

/-- The first activation. -/
def first (m : Machine) : Frame := m.callers[0]?.getD m.current

theorem first_of_size (hm : m.callers.size = 0) : m.first = m.current := by
  rw [first, Array.getElem?_eq_none (Nat.le_of_eq hm)]
  rfl

/-- The first activation stays the first one when another one is entered above it. -/
theorem getD_push (fs : Array Frame) (f g : Frame) : (fs.push f)[0]?.getD g = fs[0]?.getD f := by
  rw [Array.getElem?_push]
  split
  · next h => rw [Array.getElem?_eq_none (Nat.le_of_eq h.symm)]; rfl
  · next h =>
    obtain ⟨f', hf⟩ : ∃ f', fs[0]? = some f' :=
      ⟨_, Array.getElem?_eq_getElem (Nat.pos_of_ne_zero (Ne.symm h))⟩
    rw [hf]
    rfl

theorem SameFrames.first (h : m.SameFrames m') : m'.first.code = m.first.code := by
  rw [Machine.first, Machine.first, h.callers]
  cases m.callers[0]? with
  | none => exact h.code
  | some f => rfl

/-- Calls and returns leave the first activation where it is. -/
theorem step_first (m : Machine) :
    Ends step m (fun o m' => o = none → m'.first.code = m.first.code) fun _ _ => True := by
  have past (i : Instr) : m.SameFrames (m.past i) := ⟨rfl, rfl, rfl, rfl⟩
  refine (ends_step lasting_sameFrames fun _ _ _ _ _ _ _ => trivial).mono (fun o m' ha ho => ?_)
    fun _ _ _ => trivial
  subst ho
  cases ha with
  | stays _ _ _ hs => exact ((past _).trans hs).first
  | @jumps _ t m₁ _ _ hs hm =>
    have moved : m₁.SameFrames (m₁.moved t.toNat) := ⟨rfl, rfl, rfl, rfl⟩
    subst hm
    exact ((past _).trans (hs.trans moved)).first
  | @enters argc _ _ _ _ _ _ _ hm =>
    subst hm
    exact (congrArg Frame.code (getD_push ..)).trans (past (.call argc)).first
  | returns _ hf hm =>
    subst hm
    obtain ⟨fs, hfs⟩ := Array.back?_eq_some_iff.1 hf
    rw [first, first, hfs, Array.pop_push, getD_push]

theorem atop_step (h : m.Sound A W) (hc : ∀ c, m.heap.code? m.first.code = some c → c.Slotless) :
    ToleratesAt (¬ ·.Expected) (atop below) step m := by
  refine overlay_atop.step fun i hi => ?_
  cases hs : i.slot? with
  | some slot =>
    refine atop_slot (by rw [hs]; exact nofun) fun h0 => ?_
    obtain ⟨r, σ, vs, rest, hr, -⟩ := id h
    obtain ⟨is, j, his, hmem, hj⟩ := h.mem_instrs hr.code?
    cases hi.symm.trans hj
    have hcode := hr.code?
    rw [← first_of_size (m := m) h0] at hcode
    cases hs.symm.trans (hc r.code hcode is his _ hmem)
  | none =>
    cases i with
    | halt => exact atop_halt (h.height_halt hi)
    | call argc =>
      have hm : ∀ u g, (m.past (.call argc)).stack.values[argc.toNat]? = some u → _ :=
        fun u g => h.callsBuiltins argc u g hi
      exact (overlay_atop.call hm).bind fun _ _ _ => (tolerates_pure _).ends _
    | _ => exact (overlay_atop.execute (by simp) (by simp) hs).ends _

/-! ## Runs -/

/-- Sound code whose program does without local variables runs on top of any values as it does on the
    empty stack. -/
theorem run_atop (hW : W.Safe A) (h : m.Sound A W) (hmain : W.heap.code? m.first.code = some c)
    (hc : c.Slotless) : run budget (m.atop below) = (run budget m).map (Ending.changed (atop below)) := by
  let P (m' : Machine) : Prop := m'.Sound A W ∧ m'.first.code = m.first.code
  have slotless (m' : Machine) (hm : P m') (c' : Code)
      (hc' : m'.heap.code? m'.first.code = some c') : c'.Slotless := by
    obtain ⟨⟨r, σ, vs, rest, hr, -⟩, hfirst⟩ := hm
    rw [hfirst, hr.since.code? hmain] at hc'
    cases hc'
    exact hc
  refine run_alike (P := P) (fun m' hm => atop_step hm.1 (slotless m' hm)) (fun m' hm => ?_)
    ⟨h, rfl⟩ fun e he => ?_
  · refine ((step_sound hW hm.1).and (step_first m')).mono (fun o m'' hk ho => ?_) fun _ _ _ => trivial
    subst ho
    exact ⟨hk.1, (hk.2 rfl).trans hm.2⟩
  · have hsafe := run_safe hW h he
    cases e with
    | ok v m' => exact id
    | error f m' => exact fun hf => hf hsafe.1

/-- How a run of a main code object ends, if it does within the budget. -/
def outcome (budget : Nat) (main : Handle) (m : Machine) : Option (Except Fault Value × World) :=
  (runMain budget main m).map Ending.report

theorem load_room (hc : m.heap.code? main = some c) (hl : m.stack.height < m.stack.limit) :
    load main m = .ok () (m.opening main c) := by
  have hpush : ¬ m.stack.limit ≤ m.stack.values.length := m.stack.height_eq ▸ Nat.not_le.2 hl
  simp [load, bind, EStateM.bind, codeAt, hc, alloc, push, onStack, Stack.push, hpush,
    allocCells_eq, opening, put,
    m.stack.height_eq]
  rfl

theorem load_full (hc : m.heap.code? main = some c) (hl : m.stack.limit ≤ m.stack.height) :
    load main m = .error .stackOverflow { m with heap := m.heap.alloc (.function ⟨main, #[]⟩) } := by
  simp [load, bind, EStateM.bind, codeAt, hc, alloc, push, onStack, Stack.push, hl]

/-- The program has no local variables on the stack, or the stack is empty. -/
def Spares (m : Machine) (main : Handle) : Prop :=
  m.stack.height = 0 ∨ ∀ c, m.heap.code? main = some c → c.Slotless

/-- What is on the stack only takes room, if the program has no local variables on the stack. -/
theorem outcome_atop (budget : Nat) (hW : m.world.Safe A) (hp : Program A m.world main) (hs : m.Spares main) :
    m.outcome budget main =
      (start m.heap m.globals ⟨m.stack.limit - m.stack.height, m.frameLimit⟩).outcome budget main := by
  obtain ⟨-, r, hc, -⟩ := id hp
  generalize hm₀ : start m.heap m.globals ⟨m.stack.limit - m.stack.height, m.frameLimit⟩ = m₀
  have hc₀ : m₀.heap.code? main = some r.code := by subst hm₀; exact hc
  rw [outcome, outcome, runMain, runMain]
  by_cases hl : m.stack.height < m.stack.limit
  · have hl₀ : m₀.stack.height < m₀.stack.limit := by subst hm₀; exact Nat.sub_pos_of_lt hl
    rw [load_room hc hl, load_room hc₀ hl₀]
    have hover : m.opening main r.code = (m₀.opening main r.code).atop m.stack.values := by
      have hlen := m.stack.height_eq
      subst hm₀
      simp [opening, put, start, atop, Stack.atop, Stack.empty, Frame.lift, Nat.add_comm]
      omega
    rcases hs with h0 | hs
    · have hnil : m.stack.values = [] := List.eq_nil_of_length_eq_zero (m.stack.height_eq ▸ h0)
      have hsame : m.opening main r.code = m₀.opening main r.code := by
        rw [hover, hnil]
        subst hm₀
        simp [opening, put, start, atop, Stack.atop, Frame.lift]
      rw [hsame]
    · have hW₀ : m₀.world.Safe A := by subst hm₀; exact hW
      have hp₀ : Program A m₀.world main := by subst hm₀; exact hp
      have hsound := (load_sound hW₀ hp₀ (by subst hm₀; rfl)).ok (load_room hc₀ hl₀)
      simp only
      rw [hover, run_atop hW₀ hsound hc₀ (hs r.code hc), Option.map_map]
      exact congrArg (Option.map · _) (funext (Ending.report_changed overlay_atop))
  · have hl₀ : m₀.stack.limit ≤ m₀.stack.height := by
      subst hm₀
      exact Nat.le_of_eq (Nat.sub_eq_zero_of_le (Nat.le_of_not_lt hl))
    rw [load_full hc (Nat.le_of_not_lt hl), load_full hc₀ hl₀]
    subst hm₀
    rfl

/-- A run of a program that does not overflow the stack ends in the same way with more room. -/
theorem outcome_widen {heap : Heap} {globals : Globals} {small large : Limits}
    (hW : World.Safe A ⟨heap, globals⟩) (hp : Program A ⟨heap, globals⟩ main) (hs : small.stack ≤ large.stack)
    (hf : small.frames ≤ large.frames)
    (he : ∀ W, (start heap globals small).outcome budget main ≠ some (.error .stackOverflow, W)) :
    (start heap globals large).outcome budget main = (start heap globals small).outcome budget main := by
  obtain ⟨k, hk⟩ := Nat.exists_eq_add_of_le hs
  obtain ⟨l, hl⟩ := Nat.exists_eq_add_of_le hf
  have widened : start heap globals large = (start heap globals small).widen k l := by
    rw [start, hk, hl]
    rfl
  have hfails : ∀ e, runMain budget main (start heap globals small) = some e → ¬ e.Overflows := by
    intro e hr
    have hne := he e.machine.world
    rw [outcome, hr] at hne
    cases e with
    | ok v m => exact id
    | error f m => exact fun hf => hne (by cases hf; rfl)
  have hload := load_sound (m := start heap globals small) hW hp rfl
  have hrun := runMain_widen (k := k) (l := l) (P := Sound A ⟨heap, globals⟩) (fun m hm => hm.callsBuiltins)
    (fun m hm => (step_sound hW hm).mono (fun o m' h ho => by subst ho; exact h) fun _ _ _ => trivial)
    (hload.mono (fun _ _ h => h) fun _ _ _ => trivial) hfails
  rw [outcome, outcome, widened, hrun, Option.map_map]
  exact congrArg (Option.map · _) (funext (Ending.report_changed overlay_widen))

/-- The world at the end of a run is the one that its report gives. -/
theorem Ending.snd_report (e : Ending) : e.report.2 = e.machine.world := by
  cases e <;> rfl

theorem Ending.Safe.later {e : Ending} (h : e.Safe A W) :
    W.Leads e.machine.world ∧ e.machine.world.Stored A := by
  cases e with
  | ok v m => exact h.2
  | error f m => exact h.2

end Machine

end ByteLisp
