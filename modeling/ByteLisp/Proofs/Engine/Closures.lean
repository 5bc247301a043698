/-
  ByteLisp: compiled programs share variables through cells.

  * `Reachable.closures_capture`: in every run of a compiled program, each
    activation has the cells of its closure and new ones that no other activation
    gets, and each closure that is made holds the cells that its code captures by
    name.
-/
import ByteLisp.Proofs.Engine.Safety
import ByteLisp.Proofs.Machine.Activations
import ByteLisp.Proofs.Machine.Gathering

namespace ByteLisp

/-- All compiled code makes closures from the cells and the code that it has pushed before. -/
theorem codeLaw_makesClosures :
    Engine.CodeLaw fun W i => ∃ c, W.heap.code? i = some c ∧ c.MakesClosures W where
  later hl h := by
    obtain ⟨c, hc, h⟩ := h
    exact ⟨c, hl.code? hc, h.later hl⟩
  compiled hc h := ⟨_, hc, h.makesClosures⟩
  main hc h := ⟨_, hc, h.makesClosures⟩

namespace Engine

variable {e : Engine} {mains : List Handle} {main : Handle}

/-- In every run of a compiled program, and with all activations that have begun so far, ended or
    not: an activation has one cell for each name of its code object; the first ones are those that
    the called closure holds, in their order, and the others were not on the heap before and belong to
    no other activation. A closure that an instruction makes holds one cell for each name that its
    code object captures: the cell of this name that the current activation has. -/
theorem Reachable.closures_capture (he : Reachable e mains) (hm : main ∈ mains) {h₀ h : Chronicle}
    (hs : Chronicle.start e.machine main = some h₀) {k : Nat} (hk : h₀.after k = some h) :
    h.Separate ∧ ∀ n m', h.machine.instr? = some (.makeFunction n) →
      Machine.step h.machine = .ok none m' →
        ∃ i g c c', m'.stack.values.head? = some (.object i) ∧ m'.heap.get? i = some (.function g) ∧
          h.machine.Captures g c c' := by
  obtain ⟨A, hW, hA, hp⟩ := he.holds codeLaw_makesClosures
  obtain ⟨m₀, hl, hh⟩ := Chronicle.start_eq_some hs
  obtain rfl : h₀.machine = m₀ := by rw [hh]
  have hsound : h₀.machine.Sound A e.world := (Machine.load_sound hW (hp main hm) rfl).ok hl
  have hr := Chronicle.reaches_after hk
  have hstart := Chronicle.separate_start hW (hp main hm) rfl hs
  refine ⟨Chronicle.separate_after hW hsound hstart hk, fun n m' hi hstep => ?_⟩
  obtain ⟨r, σ, vs, rest, hon⟩ := hr.sound hW hsound
  have hg := hr.gathering hW hsound (Machine.load_gathering hW (hp main hm) rfl hl)
  exact Machine.step_captures ⟨r, σ, vs, hon⟩ hg hA hi hstep

/-- After eight steps the program makes a closure that captures the argument of its function. -/
def capturesEarly (m : Machine) : Bool :=
  match Chronicle.start m 7 with
  | some h₀ =>
    match h₀.after 8 with
    | some h =>
      match Machine.step h.machine with
      | .ok none _ => decide (h.machine.instr? = some (.makeFunction 1))
      | _ => false
    | none => false
  | none => false

set_option maxRecDepth 4000 in
theorem closures_capture_holding :
    ∃ h₀ h m', Chronicle.start (after (compile holding (.start .usual .quiet))).machine 7 = some h₀ ∧
      h₀.after 8 = some h ∧ h.Separate ∧ h.machine.instr? = some (.makeFunction 1) ∧
        Machine.step h.machine = .ok none m' ∧
          ∃ i g c c', m'.stack.values.head? = some (.object i) ∧ m'.heap.get? i = some (.function g) ∧
            h.machine.Captures g c c' := by
  have hm : returned (compile holding (.start .usual .quiet)) = [7] := by cbv
  have he : Reachable (after (compile holding (.start .usual .quiet))) [7] := by
    rw [← hm, ← List.append_nil (returned _)]
    exact .compile holding (.start .usual .quiet)
  have hrun : capturesEarly (after (compile holding (.start .usual .quiet))).machine = true := by cbv
  unfold capturesEarly at hrun
  split at hrun
  · next h₀ hs =>
    split at hrun
    · next h hk =>
      split at hrun
      · next m' hstep =>
        have hi := of_decide_eq_true hrun
        have hall := he.closures_capture List.mem_cons_self hs hk
        exact ⟨h₀, h, m', hs, hk, hall.1, hi, hstep, hall.2 1 m' hi hstep⟩
      · cases hrun
    · cases hrun
  · cases hrun

end Engine

end ByteLisp
