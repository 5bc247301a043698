/-
  ByteLisp: calls keep to their own part of the stack.

  From a call of a function of the program until it returns, what lies below the
  function on the stack and the activations that wait for it stay as they are.

  * `Machine.SameFrames`: only calls and returns change which activation runs and
    which ones wait (`step_sameFrames`);
  * `Machine.Within`: the states of a call, from its entry until its return, with
    the number of calls that are open inside it; `Machine.follow` computes them;
  * `Inside` is the invariant of these states; `SoundOn.within` says that a step
    keeps it;
  * `Machine.Protects` and `Machine.Resumes` are what follows for the caller.
-/
import ByteLisp.Proofs.Machine.Lasting

namespace ByteLisp

namespace Machine

/-! ## Activations -/

/-- The same activation runs, maybe at another place, and the same ones wait. -/
structure SameFrames (m m' : Machine) : Prop where
  callers : m'.callers = m.callers
  base : m'.current.base = m.current.base
  code : m'.current.code = m.current.code
  cells : m'.current.cells = m.current.cells

theorem SameFrames.refl (m : Machine) : m.SameFrames m := ⟨rfl, rfl, rfl, rfl⟩

theorem SameFrames.trans {m₁ m₂ m₃ : Machine} (h : m₁.SameFrames m₂) (h' : m₂.SameFrames m₃) :
    m₁.SameFrames m₃ :=
  ⟨h'.callers.trans h.callers, h'.base.trans h.base, h'.code.trans h.code, h'.cells.trans h.cells⟩

theorem lasting_sameFrames : Lasting SameFrames fun _ => True where
  raised _ _ := trivial
  refl := .refl
  trans := .trans
  stack _ _ := ⟨rfl, rfl, rfl, rfl⟩
  alloc _ _ _ := ⟨rfl, rfl, rfl, rfl⟩
  setCell _ _ _ _ := ⟨rfl, rfl, rfl, rfl⟩
  setGlobal _ _ _ := ⟨rfl, rfl, rfl, rfl⟩

/-- Only calls and returns change which activation runs and which ones wait. -/
theorem step_sameFrames {m m' : Machine} (hs : step m = .ok none m') (hr : m.instr? ≠ some .ret)
    (hc : ∀ argc, ¬ m.Calls argc) : m.SameFrames m' := by
  have past (i : Instr) : m.SameFrames (m.past i) := ⟨rfl, rfl, rfl, rfl⟩
  cases (ends_step lasting_sameFrames fun _ _ _ _ _ _ _ => trivial).ok hs with
  | stays _ _ _ h => exact (past _).trans h
  | jumps _ _ h hm =>
    subst hm
    exact (past _).trans (h.trans ⟨rfl, rfl, rfl, rfl⟩)
  | enters hi hf => exact absurd ⟨hi, _, hf⟩ (hc _)
  | returns hi => exact absurd hi hr

/-! ## The states of a call -/

/-- The states of a call that has just entered an activation at `m`, until it returns, each with the
    number of calls that are open inside it. -/
inductive Within (m : Machine) : Nat → Machine → Prop
  | start : Within m 0 m
  | stays {n : Nat} {m' m'' : Machine} (h : Within m n m') (hs : step m' = .ok none m'')
    (hc : ∀ argc, ¬ m'.Calls argc) (hr : m'.instr? ≠ some .ret) : Within m n m''
  | calls {n : Nat} {m' m'' : Machine} {argc : UInt8} (h : Within m n m')
    (hs : step m' = .ok none m'') (hc : m'.Calls argc) : Within m (n + 1) m''
  | returns {n : Nat} {m' m'' : Machine} (h : Within m (n + 1) m') (hs : step m' = .ok none m'')
    (hr : m'.instr? = some .ret) : Within m n m''

theorem Within.reaches {m m' : Machine} {n : Nat} (h : m.Within n m') : m.Reaches m' := by
  induction h with
  | start => exact .start
  | stays _ hs _ _ ih | calls _ hs _ ih | returns _ hs _ ih => exact ih.step hs

/-- Follows a call for some steps, as long as it has not returned. -/
def follow (m : Machine) : Nat → Option (Nat × Machine)
  | 0 => some (0, m)
  | k + 1 =>
    match follow m k with
    | none => none
    | some (n, m') =>
      match step m', m'.instr? with
      | .ok none m'', some .ret => if n = 0 then none else some (n - 1, m'')
      | .ok none m'', some (.call argc) =>
        some (if (m'.callee? argc.toNat).isSome then n + 1 else n, m'')
      | .ok none m'', _ => some (n, m'')
      | _, _ => none

theorem within_of_follow {m m' : Machine} {k n : Nat} (h : m.follow k = some (n, m')) :
    m.Within n m' := by
  induction k generalizing n m' with
  | zero => cases h; exact .start
  | succ k ih =>
    rw [follow] at h
    split at h
    · cases h
    · next n₁ m₁ hk =>
      have hw := ih hk
      split at h
      · next hs hi =>
        split at h
        · cases h
        · next hn =>
          cases h
          exact .returns (by rwa [Nat.sub_add_cancel (Nat.pos_of_ne_zero hn)]) hs hi
      · next argc hs hi =>
        cases h
        split
        · next hc => exact .calls hw hs ⟨hi, Option.isSome_iff_exists.1 hc⟩
        · next hc =>
          refine .stays hw hs (fun argc' hcall => hc ?_) (by rw [hi]; nofun)
          cases hi.symm.trans hcall.1
          exact Option.isSome_iff_exists.2 hcall.2
      · next hs hret hcall =>
        cases h
        exact .stays hw hs (fun argc hc => hcall argc hc.1) hret
      · cases h

/-- The invariant of the states of a call, inside which `n` calls are open: `cs` are the activations
    that wait for it, and `below` is what lies below its function. -/
structure Inside (A : Handle → Prop) (W : World) (cs : Array Frame) (below : List Value) (n : Nat)
    (m : Machine) : Prop where
  sound : ∃ rest, m.SoundOn A W rest ∧ below <:+ rest
  frames : ∃ nested : List Frame, m.callers.toList = cs.toList ++ nested ∧ nested.length = n ∧
    (∀ f ∈ nested, below.length ≤ f.base) ∧
    (nested ++ [m.current]).head?.map Frame.base = some below.length

variable {A : Handle → Prop} {W : World} {m m' m'' : Machine} {rest below : List Value}
  {cs : Array Frame} {n : Nat}

theorem SoundOn.base (h : m.SoundOn A W rest) : m.current.base = rest.length := by
  obtain ⟨r, σ, vs, hr, -⟩ := h
  exact hr.base

theorem SoundOn.values (h : m.SoundOn A W rest) : rest <:+ m.stack.values := by
  obtain ⟨r, σ, vs, hr, -⟩ := h
  exact ⟨vs, hr.values.symm⟩

/-- The values below an activation are those above its base. -/
theorem SoundOn.unique (h : m.SoundOn A W rest) (h' : m.SoundOn A W below) : rest = below := by
  have hl : rest.length = below.length := h.base.symm.trans h'.base
  exact (List.suffix_of_suffix_length_le h.values h'.values (Nat.le_of_eq hl)).eq_of_length hl

/-- A call starts with no call open inside it. -/
theorem Entered.inside {argc : Nat} (h : Entered A W rest argc m m') :
    Inside A W (m.callers.push m.current) (m.stack.values.drop (argc + 1)) 0 m' where
  sound := ⟨_, h.sound, List.suffix_refl _⟩
  frames := ⟨[], by rw [h.callers, List.append_nil], rfl, nofun, by simp [h.sound.base]⟩

theorem Inside.stays (hi : Inside A W cs below n m) (hs : m'.SoundOn A W rest)
    (hm : m.SoundOn A W rest) (hf : m.SameFrames m') : Inside A W cs below n m' where
  sound := by
    obtain ⟨rest', hm', hb⟩ := hi.sound
    rw [hm'.unique hm] at hb
    exact ⟨rest, hs, hb⟩
  frames := by
    obtain ⟨nested, hcs, hn, hbase, hbottom⟩ := hi.frames
    refine ⟨nested, by rw [hf.callers, hcs], hn, hbase, ?_⟩
    cases nested with
    | nil => simpa [hf.base] using hbottom
    | cons f fs => exact hbottom

theorem Inside.calls {argc : UInt8} (hi : Inside A W cs below n m) (hm : m.SoundOn A W rest)
    (h : Entered A W rest argc.toNat (m.past (.call argc)) m') : Inside A W cs below (n + 1) m' := by
  obtain ⟨rest', hm', hb⟩ := hi.sound
  rw [hm'.unique hm] at hb
  obtain ⟨nested, hcs, hn, hbase, hbottom⟩ := hi.frames
  refine ⟨⟨_, h.sound, hb.trans h.above⟩, nested ++ [(m.past (.call argc)).current], ?_, ?_, ?_, ?_⟩
  · rw [h.callers, Array.toList_push, ← List.append_assoc, ← hcs]
    rfl
  · rw [List.length_append, hn, List.length_singleton]
  · intro f hf
    rcases List.mem_append.1 hf with hf | hf
    · exact hbase f hf
    · rw [List.mem_singleton.1 hf]
      exact hm.base ▸ hb.length_le
  · cases nested with
    | nil => exact hbottom
    | cons f fs => exact hbottom

theorem Inside.returns (hi : Inside A W cs below (n + 1) m) (hm : m.SoundOn A W rest)
    (h : Returned A W rest m m') : Inside A W cs below n m' := by
  obtain ⟨rest', hm', hb⟩ := hi.sound
  rw [hm'.unique hm] at hb
  obtain ⟨nested, hcs, hn, hbase, hbottom⟩ := hi.frames
  obtain ⟨vs, under, hrest, hs⟩ := h.sound
  obtain ⟨nested, last, rfl⟩ := (List.eq_nil_or_concat' nested).resolve_left
    (List.ne_nil_of_length_eq_add_one hn)
  rw [h.callers, Array.toList_push, ← List.append_assoc, List.append_singleton_inj] at hcs
  obtain ⟨hcs, rfl⟩ := hcs
  refine ⟨⟨under, hs, ?_⟩, nested, hcs, by simpa using hn, fun f hf => ?_, ?_⟩
  · refine List.suffix_of_suffix_length_le hb ⟨vs, hrest.symm⟩ ?_
    rw [← hs.base]
    exact hbase _ (by simp)
  · exact hbase f (List.mem_append_left _ hf)
  · cases nested with
    | nil => exact hbottom
    | cons f fs => exact hbottom

/-- The states of a call keep its invariant. -/
theorem Within.inside (hW : W.Safe A) (h : m.Within n m') (hi : Inside A W cs below 0 m) :
    Inside A W cs below n m' := by
  induction h with
  | start => exact hi
  | stays h hs hc hr ih =>
    obtain ⟨rest, hm, -⟩ := ih.sound
    cases (step_moves hW hm).ok hs with
    | stays h =>
      exact ih.stays h hm (step_sameFrames hs hr hc)
    | enters hcall => exact absurd hcall (hc _)
    | returns hret => exact absurd hret hr
  | calls h hs hc ih =>
    obtain ⟨rest, hm, -⟩ := ih.sound
    cases (step_moves hW hm).ok hs with
    | stays _ hn => exact absurd hc (hn _)
    | enters hcall h => exact ih.calls hm h
    | returns hret => cases hret.symm.trans hc.1
  | returns h hs hr ih =>
    obtain ⟨rest, hm, -⟩ := ih.sound
    cases (step_moves hW hm).ok hs with
    | stays _ _ hn => exact absurd hr hn
    | enters hcall => cases hr.symm.trans hcall.1
    | returns _ h => exact ih.returns hm h

/-- A return does not fail. -/
theorem step_returns (hW : W.Safe A) (hm : m.SoundOn A W rest) (hr : m.instr? = some .ret) :
    ∃ m', step m = .ok none m' ∧ Returned A W rest m m' := by
  have hmoves := step_moves hW hm
  have hstep : step m = EStateM.bind ret (fun _ => pure none) (m.past .ret) := step_of_instr? hr
  rw [EStateM.bind, ret] at hstep
  cases hback : (m.past .ret).callers.back? with
  | none =>
    rw [hback] at hstep
    exact (hmoves.error hstep).1.elim
  | some f =>
    rw [hback] at hstep
    refine ⟨_, hstep, ?_⟩
    cases hmoves.ok hstep with
    | stays _ _ hn => exact absurd hr hn
    | enters hcall => cases hr.symm.trans hcall.1
    | returns _ h => exact h

/-! ## The caller -/

/-- The slot of the function that a call with `argc` arguments calls. -/
def calleeSlot (m : Machine) (argc : UInt8) : Nat := m.stack.height - (argc.toNat + 1)

/-- What lies on the stack below the function that is called, from the bottom. -/
def belowCallee (m : Machine) (argc : UInt8) : List Value := m.stack.toList.take (m.calleeSlot argc)

/-- A state of the call that `m` makes: what lies below the function is as it was, variables are read
    and written only above, and the activations that wait at the call still do. -/
structure Protects (m : Machine) (argc : UInt8) (m' : Machine) : Prop where
  stack : m.belowCallee argc <+: m'.stack.toList
  locals : ∀ slot, m'.instr? = some (.getLocal slot) ∨ m'.instr? = some (.setLocal slot) →
    m.calleeSlot argc ≤ m'.current.base + slot.toNat ∧
      m'.current.base + slot.toNat < m'.stack.height
  callers : (m.callers.push (m.past (.call argc)).current).toList <+: m'.callers.toList

/-- The state after the return of the call that `m` makes: the result has taken the place of the
    function and its arguments, and the activation that called goes on behind the call. -/
structure Resumes (m : Machine) (argc : UInt8) (m' : Machine) : Prop where
  stack : ∃ v, m'.stack.toList = m.belowCallee argc ++ [v]
  height : m'.stack.height = m.calleeSlot argc + 1
  current : m'.current = (m.past (.call argc)).current
  callers : m'.callers = m.callers

variable {argc : UInt8}

theorem belowCallee_eq : m.belowCallee argc = (m.stack.values.drop (argc.toNat + 1)).reverse := by
  rw [belowCallee, calleeSlot, Stack.toList, m.stack.height_eq, List.reverse_drop]

theorem length_drop_callee : (m.stack.values.drop (argc.toNat + 1)).length = m.calleeSlot argc := by
  rw [List.length_drop, calleeSlot, m.stack.height_eq]

/-- A variable that is read or written lies within the activation. -/
theorem SoundOn.local_lt (hm : m.SoundOn A W rest) {slot : UInt8}
    (hi : m.instr? = some (.getLocal slot) ∨ m.instr? = some (.setLocal slot)) :
    m.current.base + slot.toNat < m.stack.height := by
  obtain ⟨r, σ, vs, i, hr, hj, hlast | ⟨hf, -⟩⟩ := hm.next
  · rcases hr.runs.sound.last with ⟨hl, -⟩ | ⟨hl, -⟩ <;>
      · rw [hj, hlast.1, hl] at hi
        rcases hi with hi | hi <;> cases hi
  · have ho : σ.reverse[slot.toNat]? = some .plain := by
      rcases hi with hi | hi <;>
        · cases hj.symm.trans hi
          exact hf.operand
    have hlt := (List.getElem?_eq_some_iff.1 ho).1
    rw [List.length_reverse] at hlt
    rw [hr.height]
    omega

/-- What holds inside a call protects the caller. -/
theorem Inside.protects
    (hi : Inside A W (m.callers.push (m.past (.call argc)).current)
      (m.stack.values.drop (argc.toNat + 1)) n m') : m.Protects argc m' := by
  obtain ⟨rest, hm, hb⟩ := hi.sound
  obtain ⟨nested, hcs, -⟩ := hi.frames
  refine ⟨?_, fun slot hs => ⟨?_, hm.local_lt hs⟩, ⟨nested, hcs.symm⟩⟩
  · rw [belowCallee_eq, Stack.toList, List.reverse_prefix]
    exact hb.trans hm.values
  · rw [hm.base, ← length_drop_callee]
    exact Nat.le_add_right_of_le hb.length_le

/-- A return when no call is open inside the call resumes the caller. -/
theorem Inside.resumes (hW : W.Safe A)
    (hi : Inside A W (m.callers.push (m.past (.call argc)).current)
      (m.stack.values.drop (argc.toNat + 1)) 0 m') (hr : m'.instr? = some .ret) :
    ∃ m'', step m' = .ok none m'' ∧ m.Resumes argc m'' := by
  obtain ⟨rest, hm, hb⟩ := hi.sound
  obtain ⟨nested, hcs, hn, -, hbottom⟩ := hi.frames
  obtain ⟨m'', hs, hret⟩ := step_returns hW hm hr
  obtain ⟨v, hv⟩ := hret.result
  rw [List.length_eq_zero_iff] at hn
  subst hn
  rw [hret.callers, Array.toList_push, Array.toList_push, List.append_nil,
    List.append_singleton_inj] at hcs
  have hrest : m.stack.values.drop (argc.toNat + 1) = rest := by
    refine hb.eq_of_length ?_
    rw [← hm.base]
    simpa using hbottom.symm
  refine ⟨m'', hs, ⟨v, ?_⟩, ?_, hcs.2, Array.toList_inj.1 hcs.1⟩
  · rw [Stack.toList, hret.stack, hv, List.reverse_cons, ← hrest, belowCallee_eq]
  · rw [hret.stack, m'.stack.height_eq, hv, List.length_cons, ← hrest, length_drop_callee]

end Machine

end ByteLisp
