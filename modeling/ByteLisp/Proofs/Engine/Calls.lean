/-
  ByteLisp: compiled programs keep the discipline of calls.

  * `Reachable.call_discipline`: in every run of a compiled program, a call of a
    function of the program leaves the caller's part of the stack and the waiting
    activations alone until it returns, and then leaves one value in place of the
    function and its arguments.
-/
import ByteLisp.Proofs.Engine.Safety
import ByteLisp.Proofs.Machine.Calls

namespace ByteLisp

namespace Engine

variable {e : Engine} {mains : List Handle} {main : Handle}

/-- From a call of a function of the program until the return that belongs to it, however many calls
    are made and left inside, what lies below the function on the stack is neither changed nor read
    or written as a variable, and the activations that wait still do. The return does not fail: it
    leaves one value in place of the function and its arguments, and the caller goes on behind the
    call with its own code, base and cells. -/
theorem Reachable.call_discipline (he : Reachable e mains) (hm : main ∈ mains)
    {m₀ m m₁ m₂ : Machine} (hl : Machine.load main e.machine = .ok () m₀) (hr : m₀.Reaches m)
    {argc : UInt8} (hc : m.Calls argc) (hs : Machine.step m = .ok none m₁) {n : Nat}
    (hw : m₁.Within n m₂) :
    m.Protects argc m₂ ∧
      (n = 0 → m₂.instr? = some .ret →
        ∃ m₃, Machine.step m₂ = .ok none m₃ ∧ m.Resumes argc m₃) := by
  obtain ⟨A, hW, hp⟩ := he.safe
  obtain ⟨r, σ, vs, rest, hsound⟩ := hr.sound hW ((Machine.load_sound hW (hp main hm) rfl).ok hl)
  have hon : m.SoundOn A e.machine.world rest := ⟨r, σ, vs, hsound⟩
  have hi : Machine.Inside A e.machine.world (m.callers.push (m.past (.call argc)).current)
      (m.stack.values.drop (argc.toNat + 1)) n m₂ := by
    cases (Machine.step_moves hW hon).ok hs with
    | stays _ hn => exact absurd hc (hn argc)
    | @enters argc' hc' h =>
      cases hc.1.symm.trans hc'.1
      exact hw.inside hW h.inside
    | returns hret => exact nomatch hret.symm.trans hc.1
  refine ⟨hi.protects, fun hn hret => ?_⟩
  subst hn
  exact hi.resumes hW hret

/-- A program that calls a function, which calls another one. -/
def calling : List Char := "((lambda (g) (g true)) (lambda (x) x))".toList

/-- After two steps the program calls, and seven steps later the call is about to return. -/
def callsEarly (m : Machine) : Bool :=
  match Machine.load 8 m with
  | .ok () m₀ =>
    match m₀.follow 2 with
    | some (_, m) =>
      match Machine.step m with
      | .ok none m₁ =>
        match m₁.follow 7 with
        | some (0, m₂) => decide (m.instr? = some (.call 1)) && (m.callee? 1).isSome &&
            decide (m₂.instr? = some .ret)
        | _ => false
      | _ => false
    | none => false
  | .error _ _ => false

set_option maxRecDepth 4000 in
theorem call_discipline_calling :
    ∃ m₀ m m₁ m₂ : Machine,
      Machine.load 8 (after (compile calling (.start .usual .quiet))).machine = .ok () m₀ ∧
        m₀.Reaches m ∧ m.Calls 1 ∧ Machine.step m = .ok none m₁ ∧ m₁.Within 0 m₂ ∧
          m₂.instr? = some .ret ∧ m.Protects 1 m₂ ∧
            ∃ m₃, Machine.step m₂ = .ok none m₃ ∧ m.Resumes 1 m₃ := by
  have hm : returned (compile calling (.start .usual .quiet)) = [8] := by cbv
  have he : Reachable (after (compile calling (.start .usual .quiet))) [8] := by
    rw [← hm, ← List.append_nil (returned _)]
    exact .compile calling (.start .usual .quiet)
  have hrun : callsEarly (after (compile calling (.start .usual .quiet))).machine = true := by cbv
  unfold callsEarly at hrun
  split at hrun
  · next m₀ hl =>
    split at hrun
    · next n m hr =>
      split at hrun
      · next m₁ hs =>
        split at hrun
        · next m₂ hw =>
          simp only [Bool.and_eq_true, decide_eq_true_eq] at hrun
          obtain ⟨⟨hi, hf⟩, hret⟩ := hrun
          have hr := (Machine.within_of_follow hr).reaches
          have hc : m.Calls 1 := ⟨hi, Option.isSome_iff_exists.1 hf⟩
          have hw := Machine.within_of_follow hw
          have h := he.call_discipline List.mem_cons_self hl hr hc hs hw
          exact ⟨m₀, m, m₁, m₂, hl, hr, hc, hs, hw, hret, h.1, h.2 rfl hret⟩
        · cases hrun
      · cases hrun
    · cases hrun
  · cases hrun

end Engine

end ByteLisp
