/-
  ByteLisp: runs of the machine.

  A run may go on for ever, so it gets a budget of steps; a run that ends within
  some budget ends in the same way within any greater one (`run_mono`).

  * `Machine.run` makes steps until the run ends or the budget is used up;
  * `Machine.runMain` runs a main code object;
  * `Machine.trace` lists the instructions of a run as they are fetched.
-/
import ByteLisp.Machine

namespace ByteLisp

namespace Machine

/-- How a run ends: with a value or a fault, and the machine as it then is. -/
abbrev Ending := EStateM.Result Fault Machine Value

/-- Makes steps until the run ends; none if it does not within the budget. -/
def run : Nat → Machine → Option Ending
  | 0, _ => none
  | budget + 1, m =>
    match step m with
    | .ok none m => run budget m
    | .ok (some v) m => some (.ok v m)
    | .error f m => some (.error f m)

/-- Runs a main code object; none if the run does not end within the budget. -/
def runMain (budget : Nat) (main : Handle) (m : Machine) : Option Ending :=
  match load main m with
  | .ok () m => run budget m
  | .error f m => some (.error f m)

/-- What the log says of the next instruction, if there is one. -/
def traceLine (m : Machine) : Option String := do
  let c ← m.heap.code? m.current.code
  let op ← (Instr.fetchOp c.bytes m.current.ip).toOption
  let place := Text.hex 4 m.current.ip
  let name := Text.padRight 16 op.name
  some s!"{place} {name} sp={m.stack.height} bp={m.current.base}"

/-- The log of a run, at most for the steps of the budget. -/
def trace : Nat → Machine → List String
  | 0, _ => []
  | budget + 1, m =>
    match traceLine m with
    | none => []
    | some line =>
      match step m with
      | .ok none m => line :: trace budget m
      | _ => [line]

/-- The log of a run of a main code object. -/
def traceMain (budget : Nat) (main : Handle) (m : Machine) : List String :=
  match load main m with
  | .ok () m => trace budget m
  | .error _ _ => []

theorem run_mono {n k : Nat} {m : Machine} {e : Ending} (h : run n m = some e) :
    run (n + k) m = some e := by
  induction n generalizing m with
  | zero => simp [run] at h
  | succ n ih =>
    rw [Nat.add_right_comm]
    simp only [run] at h ⊢
    cases hs : step m with
    | error f m' => rw [hs] at h; exact h
    | ok v m' =>
      rw [hs] at h
      cases v with
      | none => exact ih h
      | some v => exact h

end Machine

end ByteLisp
