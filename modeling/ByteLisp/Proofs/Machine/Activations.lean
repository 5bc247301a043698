/-
  ByteLisp: the cells of activations.

  * `Chronicle`: a state of a run with all activations that have begun so far,
    those included that have ended; `Chronicle.after` makes steps;
  * `Activation.LaidOut`: the cells of an activation are those that the called
    closure holds and new ones, as many as its code object names;
  * `Chronicle.Separate`: so are the cells of all activations, and no new cell
    belongs to two of them; steps keep this (`Chronicle.separate_next`).
-/
import ByteLisp.Proofs.Machine.Calls

namespace ByteLisp

/-- An activation as it began. -/
structure Activation where
  /-- The closure that was called. -/
  closure : Closure
  cells : Array Handle
  /-- The heap before the call. -/
  before : Heap

/-- The cells that were allocated for an activation. -/
def Activation.own (a : Activation) : List Handle := a.cells.toList.drop a.closure.cells.size

/-- A state of a run with the activations that have begun so far, the latest last. -/
structure Chronicle where
  machine : Machine
  begun : List Activation

/-- The closure that the next instruction calls, if there is one. -/
def Machine.called? (m : Machine) : Option Closure :=
  match m.instr? with
  | some (.call argc) => m.callee? argc.toNat
  | _ => none

namespace Chronicle

/-- The run of a main code object at its start. -/
def start (m : Machine) (main : Handle) : Option Chronicle :=
  match m.load main with
  | .ok () m₀ => some ⟨m₀, [⟨⟨main, #[]⟩, m₀.current.cells, m.heap⟩]⟩
  | .error _ _ => none

/-- After one more step, which does not end the run. -/
def next (h : Chronicle) : Option Chronicle :=
  match h.machine.step with
  | .ok none m =>
    some ⟨m, h.begun ++ (h.machine.called?.map (⟨·, m.current.cells, h.machine.heap⟩)).toList⟩
  | _ => none

/-- After some steps. -/
def after (h : Chronicle) : Nat → Option Chronicle
  | 0 => some h
  | k + 1 => (h.after k).bind next

end Chronicle

/-- The cells of an activation of a code object: one for each name, the captured ones first, the
    others new. -/
structure Activation.LaidOut (a : Activation) (h : Heap) (c : Code) : Prop where
  code : h.code? a.closure.code = some c
  size : a.cells.size = c.cellNames.size
  cells : ∀ i ∈ a.cells, h.IsCell i
  free : a.closure.cells.size = c.free.size
  captured : a.cells.toList.take c.free.size = a.closure.cells.toList
  fresh : ∀ i ∈ a.own, a.before.get? i = none

/-- An activation on the machine is the given one. -/
def Frame.Of (f : Frame) (a : Activation) : Prop := f.code = a.closure.code ∧ f.cells = a.cells

/-- No cell has been allocated for two activations, and those on the machine are among those that
    have begun. -/
structure Chronicle.Separate (h : Chronicle) : Prop where
  laidOut : ∀ a ∈ h.begun, ∃ c, a.LaidOut h.machine.heap c
  own : (h.begun.flatMap Activation.own).Nodup
  live : ∃ waiting a, (waiting ++ [a]).Sublist h.begun ∧
    List.Forall₂ Frame.Of h.machine.callers.toList waiting ∧ h.machine.current.Of a

variable {A : Handle → Prop} {W W' : World} {m m' : Machine} {a : Activation} {c : Code} {f : Closure}
  {main : Handle} {h h' : Chronicle} {rest : List Value}

/-! ## Activations -/

theorem World.Leads.size_le (hl : W.Leads W') : W.heap.size ≤ W'.heap.size := by
  by_cases h0 : W.heap.size = 0
  · omega
  obtain ⟨i, hi⟩ : ∃ i, W.heap.size = i + 1 := ⟨W.heap.size - 1, by omega⟩
  have hlt : i < W.heap.objects.size := by
    change i < W.heap.size
    omega
  have hget : W.heap.get? i = some W.heap.objects[i] := Array.getElem?_eq_getElem hlt
  have later : i < W'.heap.size := by
    by_cases hc : ∃ v, W.heap.objects[i] = .cell v
    · obtain ⟨v, hv⟩ := hc
      obtain ⟨u, hu⟩ := hl.cells i (Heap.isCell_of_get? (hget.trans (congrArg some hv)))
      exact Heap.lt_size_of_get? (Heap.cell?_eq_some.1 hu)
    · exact Heap.lt_size_of_get? (hl.objects i _ hget (not_exists.1 hc))
  omega

theorem Heap.IsCell.lt_size {h : Heap} {i : Handle} (hi : h.IsCell i) : i < h.size := by
  obtain ⟨v, hv⟩ := hi
  exact Heap.lt_size_of_get? (Heap.cell?_eq_some.1 hv)

theorem Activation.LaidOut.later (ha : a.LaidOut W.heap c) (hl : W.Leads W') : a.LaidOut W'.heap c :=
  { ha with
    code := hl.code? ha.code
    cells := fun i hi => hl.cells i (ha.cells i hi) }

/-- The cells of an activation are on the heap. -/
theorem Activation.LaidOut.lt_size {h : Heap} (ha : a.LaidOut h c) {i : Handle} (hi : i ∈ a.own) :
    i < h.size := (ha.cells i (Array.mem_toList_iff.1 (List.mem_of_mem_drop hi))).lt_size

/-- New cells behind those of a closure. -/
theorem own_of_cells {n k : Nat} (ha : a.cells = a.closure.cells ++ Array.range' n k) :
    a.own = List.range' n k := by
  simp [Activation.own, ha]

/-- An activation in the first state of which the invariant holds is laid out as it should be. -/
theorem Machine.SoundOn.laidOut (hm : m.SoundOn A W rest) (hcode : m.current.code = a.closure.code)
    (hcells : m.current.cells = a.cells) (hc : m.heap.code? m.current.code = some c) {n : Nat}
    (hnew : a.cells = a.closure.cells ++ Array.range' n c.own.size) (hle : a.before.size ≤ n) :
    a.LaidOut m.heap c := by
  obtain ⟨r, σ, vs, hr, -⟩ := hm
  cases hr.code?.symm.trans hc
  have hsize := hr.runs.size
  rw [hcells] at hsize
  have hfree : a.closure.cells.size = r.code.free.size := by
    rw [hnew, Code.cellNames, Array.size_append, Array.size_append, Array.size_range'] at hsize
    omega
  refine ⟨hcode ▸ hc, hsize, hcells ▸ hr.runs.cells, hfree, ?_, fun i hi => ?_⟩
  · rw [← hfree, hnew]
    simp
  · rw [own_of_cells hnew, List.mem_range'_1] at hi
    exact Array.getElem?_eq_none (Nat.le_trans hle hi.1)

namespace Chronicle

/-! ## Steps -/

theorem start_eq_some (hs : start m main = some h) :
    ∃ m₀, m.load main = .ok () m₀ ∧ h = ⟨m₀, [⟨⟨main, #[]⟩, m₀.current.cells, m.heap⟩]⟩ := by
  unfold start at hs
  split at hs
  · next m₀ hl =>
    cases hs
    exact ⟨m₀, hl, rfl⟩
  · cases hs

theorem next_eq_some (hn : h.next = some h') :
    h.machine.step = .ok none h'.machine ∧ h'.begun =
      h.begun ++ (h.machine.called?.map (⟨·, h'.machine.current.cells, h.machine.heap⟩)).toList := by
  unfold next at hn
  split at hn
  · next m hs =>
    cases hn
    exact ⟨hs, rfl⟩
  · cases hn

theorem called?_eq_none (hc : ∀ argc, ¬ m.Calls argc) : m.called? = none := by
  unfold Machine.called?
  split
  · next argc hi => exact Option.eq_none_iff_forall_ne_some.2 fun f hf => hc argc ⟨hi, f, hf⟩
  · rfl

theorem called?_eq_some {argc : UInt8} (hi : m.instr? = some (.call argc))
    (hf : m.callee? argc.toNat = some f) : m.called? = some f := by
  unfold Machine.called?
  rw [hi]
  exact hf

/-- What is so at the start of a run. -/
theorem separate_start (hW : m.world.Safe A) (hp : Program A m.world main) (hv : m.stack.values = [])
    (hs : start m main = some h) : h.Separate := by
  obtain ⟨m₀, hl, rfl⟩ := start_eq_some hs
  obtain ⟨r, σ, vs, rest, hr⟩ := (Machine.load_sound hW hp hv).ok hl
  have hm : m₀.SoundOn A m.world rest := ⟨r, σ, vs, hr⟩
  have hload : Ends (Machine.load main) m
      (fun _ m' => ∃ c, m.heap.code? main = some c ∧ m' = m.opening main c) fun _ _ => True :=
    Machine.ends_load trivial trivial fun c hc => ⟨c, hc, rfl⟩
  obtain ⟨c, hc, rfl⟩ := hload.ok hl
  have hnew : (m.opening main c).current.cells = #[] ++ Array.range' (m.heap.size + 1) c.own.size :=
    Array.empty_append.symm
  have hlays : Activation.LaidOut ⟨⟨main, #[]⟩, (m.opening main c).current.cells, m.heap⟩
      (m.opening main c).heap c :=
    hm.laidOut rfl rfl ((hr.1.since.code? hc)) hnew (Nat.le_succ _)
  refine ⟨fun a ha => ?_, ?_, ⟨[], _, List.Sublist.refl _, .nil, rfl, rfl⟩⟩
  · cases List.mem_singleton.1 ha
    exact ⟨c, hlays⟩
  · rw [List.flatMap_singleton, own_of_cells hnew]
    exact List.nodup_range'

/-- A step keeps it. -/
theorem separate_next (hW : W.Safe A) (hsound : h.machine.Sound A W) (hs : h.Separate)
    (hn : h.next = some h') : h'.Separate := by
  obtain ⟨hstep, hbegun⟩ := next_eq_some hn
  have hl : h.machine.world.Leads h'.machine.world :=
    ((Machine.step_preserves h.machine).ok hstep).world
  have old : ∀ a ∈ h.begun, ∃ c, a.LaidOut h'.machine.heap c := fun a ha => by
    obtain ⟨c, hc⟩ := hs.laidOut a ha
    exact ⟨c, Activation.LaidOut.later (W := h.machine.world) hc hl⟩
  obtain ⟨waiting, a, hsub, hwait, hcur⟩ := hs.live
  -- Without a call nothing begins.
  have same (hc : h.machine.called? = none) (hlive : ∃ waiting a, (waiting ++ [a]).Sublist h.begun ∧
      List.Forall₂ Frame.Of h'.machine.callers.toList waiting ∧ h'.machine.current.Of a) :
      h'.Separate := by
    rw [hc, Option.map_none, Option.toList_none, List.append_nil] at hbegun
    exact ⟨hbegun ▸ old, hbegun ▸ hs.own, hbegun ▸ hlive⟩
  have stays (hf : h.machine.SameFrames h'.machine) : ∃ waiting a, (waiting ++ [a]).Sublist h.begun ∧
      List.Forall₂ Frame.Of h'.machine.callers.toList waiting ∧ h'.machine.current.Of a :=
    ⟨waiting, a, hsub, hf.callers ▸ hwait, hf.code.trans hcur.1, hf.cells.trans hcur.2⟩
  cases (Machine.ends_step Machine.lasting_sameFrames fun _ _ _ _ _ _ _ => trivial).ok hstep with
  | @stays i hi _ hc hf =>
    have hpast : h.machine.SameFrames (h.machine.past i) := ⟨rfl, rfl, rfl, rfl⟩
    exact same (called?_eq_none hc) (stays (hpast.trans hf))
  | @jumps i t m₁ hi ht hf hm =>
    have hpast : h.machine.SameFrames (h.machine.past i) := ⟨rfl, rfl, rfl, rfl⟩
    have hmoved : m₁.SameFrames h'.machine := hm ▸ ⟨rfl, rfl, rfl, rfl⟩
    refine same (called?_eq_none ?_) (stays (hpast.trans (hf.trans hmoved)))
    rintro argc ⟨hi', -⟩
    cases hi.symm.trans hi'
    cases ht
  | @returns f hi hf hm =>
    refine same (called?_eq_none ?_) ?_
    · rintro argc ⟨hi', -⟩
      cases hi.symm.trans hi'
    · obtain ⟨fs, hfs⟩ := Array.back?_eq_some_iff.1 hf
      rw [hfs, Array.toList_push] at hwait
      obtain ⟨waiting, last, rfl, hws, hlast⟩ := forall₂_append_left hwait
      cases hlast with
      | @cons _ b _ _ hb hnil =>
        cases hnil
        rw [hm, hfs, Array.pop_push]
        exact ⟨waiting, b, (List.sublist_append_left ..).trans hsub, hws, hb⟩
  | @enters argc f c hi hf hc ha hlt hm =>
    obtain ⟨rest, hon⟩ : ∃ rest, h'.machine.SoundOn A W rest := by
      obtain ⟨r, σ, vs, rest, hr⟩ := ((Machine.step_sound hW hsound).ok hstep : h'.machine.Sound A W)
      exact ⟨rest, r, σ, vs, hr⟩
    rw [called?_eq_some hi hf, Option.map_some, Option.toList_some] at hbegun
    have hcells : h'.machine.current.cells = f.cells ++ Array.range' h.machine.heap.size c.own.size := by
      rw [hm]
      rfl
    have hcode : h'.machine.current.code = f.code := by
      rw [hm]
      rfl
    have hlays : Activation.LaidOut ⟨f, h'.machine.current.cells, h.machine.heap⟩ h'.machine.heap c :=
      hon.laidOut hcode rfl (hcode ▸ World.Leads.code? (W := h.machine.world) hl hc) hcells (Nat.le_refl _)
    refine ⟨fun a ha => ?_, ?_, waiting ++ [a], _, hbegun ▸ hsub.append (List.Sublist.refl _), ?_, hcode, rfl⟩
    · rw [hbegun] at ha
      rcases List.mem_append.1 ha with ha | ha
      · exact old a ha
      · cases List.mem_singleton.1 ha
        exact ⟨c, hlays⟩
    · rw [hbegun, List.flatMap_append, List.flatMap_singleton, own_of_cells hcells]
      refine List.nodup_append.2 ⟨hs.own, List.nodup_range', ?_⟩
      rintro i hi j hj rfl
      obtain ⟨b, hb, hib⟩ := List.mem_flatMap.1 hi
      obtain ⟨d, hd⟩ := hs.laidOut b hb
      exact absurd (hd.lt_size hib) (Nat.not_lt.2 (List.mem_range'_1.1 hj).1)
    · rw [hm]
      change List.Forall₂ Frame.Of (h.machine.callers.push _).toList (waiting ++ [a])
      rw [Array.toList_push]
      exact List.rel_append hwait (.cons hcur .nil)

/-- The states of chronicles are those of the run. -/
theorem reaches_after {k : Nat} (hk : h.after k = some h') : h.machine.Reaches h'.machine := by
  induction k generalizing h' with
  | zero =>
    cases hk
    exact .start
  | succ k ih =>
    obtain ⟨h₁, hk, hn⟩ := Option.bind_eq_some_iff.1 hk
    exact (ih hk).step (next_eq_some hn).1

/-- Each state of a run has a chronicle. -/
theorem after_of_reaches (hr : h.machine.Reaches m) : ∃ k h', h.after k = some h' ∧ h'.machine = m := by
  induction hr with
  | start => exact ⟨0, h, rfl, rfl⟩
  | @step _ m' _ hs ih =>
    obtain ⟨k, h', hk, rfl⟩ := ih
    obtain ⟨h'', hn, hm⟩ : ∃ h'', h'.next = some h'' ∧ h''.machine = m' := by
      rw [next, hs]
      exact ⟨_, rfl, rfl⟩
    exact ⟨k + 1, h'', by rw [after, hk, Option.bind_some, hn], hm⟩

theorem separate_after (hW : W.Safe A) (hm : h.machine.Sound A W) (hs : h.Separate) {k : Nat}
    (hk : h.after k = some h') : h'.Separate := by
  induction k generalizing h' with
  | zero =>
    cases hk
    exact hs
  | succ k ih =>
    obtain ⟨h₁, hk, hn⟩ := Option.bind_eq_some_iff.1 hk
    exact separate_next hW ((reaches_after hk).sound hW hm) (ih hk) hn

end Chronicle

end ByteLisp
