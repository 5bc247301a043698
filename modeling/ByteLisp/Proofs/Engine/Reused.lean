/-
  ByteLisp: a machine may run one program after the other.

  * `Machine.Used`: the states of a machine between runs of programs, each of which has no local
    variables on the stack, or the empty stack to itself;
  * `Reachable.run_reused` is the result: such a run ends as it would on a new machine with the same
    limits, unless it overflows the stack because earlier runs have left values on it.

  Other programs may read and overwrite what earlier runs have left; see the example at the end.
-/
import ByteLisp.Proofs.Engine.Safety
import ByteLisp.Proofs.Machine.Leftovers

namespace ByteLisp

variable {A : Handle → Prop} {mains : List Handle} {main : Handle} {m m₀ : Machine} {budget : Nat}
  {e : Engine}

/-- The states of a machine after runs of some programs, each of which ended with a value or a fault. -/
inductive Machine.Used (mains : List Handle) (m₀ : Machine) : Machine → Prop
  | fresh : Used mains m₀ m₀
  | ran {m : Machine} {main : Handle} {budget : Nat} {ending : Machine.Ending} (h : Used mains m₀ m)
    (hm : main ∈ mains) (hs : m.Spares main) (hr : m.runMain budget main = some ending) :
    Used mains m₀ ending.machine

namespace Machine

/-- What is stored stays safe, and the same programs can be run. -/
theorem Used.safe (hu : m₀.Used mains m)
    (h₀ : ∃ A, m₀.world.Safe A ∧ ∀ main ∈ mains, Program A m₀.world main) :
    ∃ A, m.world.Safe A ∧ ∀ main ∈ mains, Program A m.world main := by
  induction hu with
  | fresh => exact h₀
  | @ran m main budget ending _ hm hs hr ih =>
    obtain ⟨A, hW, hp⟩ := ih
    have houtcome := outcome_atop budget hW (hp main hm) hs
    rw [outcome, hr] at houtcome
    obtain ⟨ending', hr', hreport⟩ := Option.map_eq_some_iff.1 houtcome.symm
    have hworld : ending'.machine.world = ending.machine.world := by
      rw [← Ending.snd_report, ← Ending.snd_report, hreport]
    have hsafe := runMain_safe (m := start m.heap m.globals ⟨m.stack.limit - m.stack.height, m.frameLimit⟩) hW
      (hp main hm) rfl hr'
    obtain ⟨hleads, hstored⟩ := hsafe.later
    rw [hworld] at hleads hstored
    exact ⟨A, hW.later hleads hstored, fun main hm => (hp main hm).later (fun _ h => h) hleads⟩

end Machine

namespace Engine

/-- On a machine that has run any programs without local variables on the stack, or whose stack is
    empty, a run of such a program ends as on a new machine over the same heap and the same global
    variables, with as much less room as there is on the stack. So it ends as on a new machine with
    the same limits, unless it overflows the stack. -/
theorem Reachable.run_reused (he : e.Reachable mains) (hu : e.machine.Used mains m) (hm : main ∈ mains)
    (hs : m.Spares main) (budget : Nat) :
    m.outcome budget main = (Machine.start m.heap m.globals
        ⟨m.stack.limit - m.stack.height, m.frameLimit⟩).outcome budget main ∧
      ((∀ W, m.outcome budget main ≠ some (.error .stackOverflow, W)) →
        m.outcome budget main =
          (Machine.start m.heap m.globals ⟨m.stack.limit, m.frameLimit⟩).outcome budget main) := by
  obtain ⟨A, hW, hp⟩ := hu.safe he.safe
  have hroom := Machine.outcome_atop budget hW (hp main hm) hs
  refine ⟨hroom, fun hfits => ?_⟩
  rw [hroom] at hfits ⊢
  have hless : (⟨m.stack.limit - m.stack.height, m.frameLimit⟩ : Limits).stack ≤
      (⟨m.stack.limit, m.frameLimit⟩ : Limits).stack := Nat.sub_le ..
  exact Eq.symm (Machine.outcome_widen hW (hp main hm) hless (Nat.le_refl _) hfits)

set_option maxRecDepth 4000 in
/-- The program with a closure, run a second time on the same machine. -/
theorem run_reused_holding :
    ∃ m, (after (compile holding (.start .usual .quiet))).machine.Used [7] m ∧ m.stack.height = 1 ∧
      m.Spares 7 ∧ m.outcome 20 7 = (Machine.start m.heap m.globals
        ⟨m.stack.limit - m.stack.height, m.frameLimit⟩).outcome 20 7 ∧
      ((∀ W, m.outcome 20 7 ≠ some (.error .stackOverflow, W)) →
        m.outcome 20 7 =
          (Machine.start m.heap m.globals ⟨m.stack.limit, m.frameLimit⟩).outcome 20 7) := by
  have hm : returned (compile holding (.start .usual .quiet)) = [7] := by cbv
  have he : Reachable (after (compile holding (.start .usual .quiet))) [7] := by
    rw [← hm, ← List.append_nil (returned _)]
    exact .compile holding (.start .usual .quiet)
  generalize he₀ : after (compile holding (.start .usual .quiet)) = e at he
  have hbytes : (e.heap.code? 7).map (·.bytes) = some #[0x01, 0x00, 0x01, 0x01, 0x0F, 0x01, 0x00] := by
    rw [← he₀]
    cbv
  obtain ⟨c, hc, hbytes⟩ := Option.map_eq_some_iff.1 hbytes
  have hslotless : c.Slotless := by
    have hinstrs : c.bytes = Instr.bytes [.const 0, .const 1, .call 1, .halt] := hbytes
    intro is his
    cases his.symm.trans (Code.instrs_eq_placed hinstrs)
    decide
  have hheight : ((e.machine.runMain 20 7).map fun ending => ending.machine.stack.height) = some 1 := by
    rw [← he₀]
    cbv
  obtain ⟨ending, hr, hone⟩ := Option.map_eq_some_iff.1 hheight
  have hu : e.machine.Used [7] ending.machine := .ran .fresh List.mem_cons_self (Or.inl rfl) hr
  have hs : ending.machine.Spares 7 := by
    refine Or.inr fun c' hc' => ?_
    cases hc'.symm.trans ((Machine.runMain_preserves hr).world.code? hc)
    exact hslotless
  exact ⟨ending.machine, hu, hone, hs, he.run_reused hu List.mem_cons_self hs 20⟩

/-- A program with a local variable outside of functions. -/
def shifting : List Char := "((lambda (a b) a) true (begin (var x false) x))".toList

set_option maxRecDepth 8000 in
/-- The second time the variable lies where the argument `a` is. -/
example : ((after (compile shifting (.start .usual .quiet))).machine.runMain 50 6).bind (fun first =>
    (first.machine.runMain 50 6).map fun second => (first.report.1, second.report.1)) =
      some (.ok (.boolean true), .ok (.boolean false)) := by
  cbv

end Engine

end ByteLisp
