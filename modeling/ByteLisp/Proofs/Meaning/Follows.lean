/-
  ByteLisp: a run that does what an evaluation says.

  An evaluation with a bound `n` has a value, or fails, or exceeds the bound. A run
  follows it if it reaches a corresponding state, or fails in the same way, or takes
  more than `n` steps; and it may always overflow the stack.

  * `Machine.Finishes`: a run ends; `reaches_run`: a state of a run is the start of
    the rest of it;
  * `Machine.Follows`: a run follows a result; `Follows.bind` puts evaluations one
    after the other;
  * `follows_execute`: one instruction, from what is to be shown of its action.
-/
import ByteLisp.Proofs.Machine.Ends
import ByteLisp.Proofs.Machine.Safety
import ByteLisp.Proofs.Meaning.Evaluator

namespace ByteLisp

namespace Machine

variable {m m' m'' : Machine} {n k : Nat} {e : Ending}

/-! ## Runs -/

theorem run_succ (hs : step m = .ok none m') : run (n + 1) m = run n m' := by rw [run, hs]

theorem Reaches.trans (h : m.Reaches m') (h' : m'.Reaches m'') : m.Reaches m'' := by
  induction h' with
  | start => exact h
  | step _ hs ih => exact ih.step hs

theorem reaches_step (hs : step m = .ok none m') : m.Reaches m' := Reaches.start.step hs

/-- A run goes on from each of its states. -/
theorem reaches_run (h : m.Reaches m') : ∃ k, ∀ n, run (n + k) m = run n m' := by
  induction h with
  | start => exact ⟨0, fun n => rfl⟩
  | step _ hs ih =>
    obtain ⟨k, hk⟩ := ih
    exact ⟨k + 1, fun n => by rw [Nat.add_comm k, ← Nat.add_assoc, hk, run_succ hs]⟩

/-- The run ends. -/
def Finishes (m : Machine) (e : Ending) : Prop := ∃ k, run k m = some e

theorem Finishes.of_reaches (h : m'.Finishes e) (hr : m.Reaches m') : m.Finishes e := by
  obtain ⟨n, hn⟩ := h
  obtain ⟨k, hk⟩ := reaches_run hr
  exact ⟨n + k, (hk n).trans hn⟩

theorem finishes_of_error {f : Fault} (hs : step m = .error f m') : m.Finishes (.error f m') :=
  ⟨1, by rw [run, hs]⟩

theorem finishes_of_value {v : Value} (hs : step m = .ok (some v) m') : m.Finishes (.ok v m') :=
  ⟨1, by rw [run, hs]⟩

theorem Finishes.unique {e' : Ending} (h : m.Finishes e) (h' : m.Finishes e') : e = e' := by
  obtain ⟨k, hk⟩ := h
  obtain ⟨l, hl⟩ := h'
  have hk := run_mono (k := l) hk
  rw [Nat.add_comm, run_mono hl] at hk
  exact (Option.some.inj hk).symm

theorem run_eq_none_of_le (h : run n m = none) (hk : k ≤ n) : run k m = none := by
  cases hr : run k m with
  | none => rfl
  | some e =>
    obtain ⟨l, rfl⟩ := Nat.exists_eq_add_of_le hk
    rw [run_mono hr] at h
    cases h

theorem run_eq_none_of_reaches (hr : m.Reaches m') (h : run n m' = none) : run n m = none := by
  obtain ⟨k, hk⟩ := reaches_run hr
  exact run_eq_none_of_le ((hk n).trans h) (Nat.le_add_right n k)

/-! ## Following an evaluation -/

open Meaning

/-- The run from `m` on follows a result: it overflows the stack, or reaches a state for a value, or
    ends with the fault, or takes more than `n` steps if the bound is exceeded. -/
def Follows {α : Type} (n : Nat) (m : Machine) (Q : α → Memory → Machine → Prop)
    (E : Memory → Machine → Prop) (r : EStateM.Result Stop Memory α) : Prop :=
  (∃ m', m.Finishes (.error .stackOverflow m')) ∨
    match r with
    | .ok a σ => ∃ m', m.Reaches m' ∧ Q a σ m'
    | .error (.fault f) σ => ∃ m', m.Finishes (.error f m') ∧ E σ m'
    | .error .exhausted _ => run n m = none
    | .error (.malformed _) _ => False

/-- A failure that a result allows. -/
def Allowed {α : Type} (E : Memory → Machine → Prop) (r : EStateM.Result Stop Memory α) (f : Fault)
    (m : Machine) : Prop :=
  f = .stackOverflow ∨ ∃ σ, r = .error (.fault f) σ ∧ E σ m

section

variable {α β : Type} {Q Q' : α → Memory → Machine → Prop} {R : β → Memory → Machine → Prop}
  {E : Memory → Machine → Prop} {r : EStateM.Result Stop Memory α} {σ : Memory}

theorem follows_pure {a : α} (h : Q a σ m) : m.Follows n Q E ((pure a : Eval α) σ) :=
  Or.inr ⟨m, .start, h⟩

theorem Follows.mono (h : m.Follows n Q E r) (hQ : ∀ a σ m', Q a σ m' → Q' a σ m') :
    m.Follows n Q' E r := by
  refine h.imp_right fun h => ?_
  cases r with
  | ok a σ =>
    obtain ⟨m', hr, h⟩ := h
    exact ⟨m', hr, hQ a σ m' h⟩
  | error s σ => cases s <;> exact h

theorem Follows.anti (h : m.Follows n Q E r) (hk : k ≤ n) : m.Follows k Q E r := by
  refine h.imp_right fun h => ?_
  cases r with
  | ok a σ => exact h
  | error s σ =>
    cases s with
    | exhausted => exact run_eq_none_of_le h hk
    | _ => exact h

/-- What follows a result after some steps does so from the start. -/
theorem Follows.of_reaches (h : m'.Follows n Q E r) (hr : m.Reaches m') : m.Follows n Q E r := by
  rcases h with ⟨m'', h⟩ | h
  · exact Or.inl ⟨m'', h.of_reaches hr⟩
  refine Or.inr ?_
  cases r with
  | ok a σ =>
    obtain ⟨m'', hr', h⟩ := h
    exact ⟨m'', hr.trans hr', h⟩
  | error s σ =>
    cases s with
    | fault f =>
      obtain ⟨m'', hf, h⟩ := h
      exact ⟨m'', hf.of_reaches hr, h⟩
    | exhausted => exact run_eq_none_of_reaches hr h
    | malformed why => exact h

/-- One more step. -/
theorem Follows.step (h : m'.Follows n Q E r) (hs : step m = .ok none m') :
    m.Follows (n + 1) Q E r := by
  rcases h with ⟨m'', h⟩ | h
  · exact Or.inl ⟨m'', h.of_reaches (reaches_step hs)⟩
  refine Or.inr ?_
  cases r with
  | ok a σ =>
    obtain ⟨m'', hr, h⟩ := h
    exact ⟨m'', (reaches_step hs).trans hr, h⟩
  | error s σ =>
    cases s with
    | fault f =>
      obtain ⟨m'', hf, h⟩ := h
      exact ⟨m'', hf.of_reaches (reaches_step hs), h⟩
    | exhausted => exact (run_succ hs).trans h
    | malformed why => exact h

/-- What comes after a value. -/
theorem Follows.after {a : α} {r : EStateM.Result Stop Memory β} (h : m.Follows n Q E (.ok a σ))
    (hr : ∀ m', Q a σ m' → m'.Follows n R E r) : m.Follows n R E r := by
  rcases h with h | ⟨m', hm, h⟩
  · exact Or.inl h
  · exact (hr m' h).of_reaches hm

/-- What the machine alone does after an evaluation. -/
theorem Follows.further (h : m.Follows n Q E r)
    (hf : ∀ a σ m', Q a σ m' → m'.Follows n Q' E (.ok a σ)) : m.Follows n Q' E r := by
  cases r with
  | ok a σ => exact h.after fun m' hq => hf a σ m' hq
  | error s σ => exact h.imp_right fun h => by cases s <;> exact h

/-- Evaluations one after the other. -/
theorem Follows.bind {x : Eval α} {f : α → Eval β} (h : m.Follows n Q E (x σ))
    (hf : ∀ a σ' m', Q a σ' m' → m'.Follows n R E (f a σ')) : m.Follows n R E ((x >>= f) σ) := by
  change m.Follows n R E (EStateM.bind x f σ)
  rw [EStateM.bind]
  cases hx : x σ with
  | ok a σ' => exact (hx ▸ h).after fun m' hq => hf a σ' m' hq
  | error s σ' =>
    rw [hx] at h
    exact h.imp_right fun h => by cases s <;> exact h

/-- One instruction that cannot fail. -/
theorem reaches_execute {i : Instr} {P : Machine → Prop} (hi : m.instr? = some i)
    (h : Ends (execute i) (m.past i) (fun o m' => o = none ∧ P m') fun _ _ => False) :
    ∃ m', step m = .ok none m' ∧ P m' := by
  have hs := step_of_instr? hi
  unfold Ends at h
  cases hx : execute i (m.past i) with
  | ok o m' =>
    rw [hx] at h hs
    obtain ⟨rfl, h⟩ := h
    exact ⟨m', hs, h⟩
  | error f m' =>
    rw [hx] at h
    exact h.elim

/-- One instruction, which has been fetched. -/
theorem follows_execute {i : Instr} (hi : m.instr? = some i)
    (h : Ends (execute i) (m.past i) (fun o m' => o = none ∧ m'.Follows n Q E r) (Allowed E r)) :
    m.Follows (n + 1) Q E r := by
  have hs := step_of_instr? hi
  unfold Ends at h
  cases hx : execute i (m.past i) with
  | ok o m' =>
    rw [hx] at h hs
    obtain ⟨rfl, h⟩ := h
    exact h.step hs
  | error f m' =>
    rw [hx] at h hs
    rcases h with rfl | ⟨σ, rfl, h⟩
    · exact Or.inl ⟨m', finishes_of_error hs⟩
    · exact Or.inr ⟨m', finishes_of_error hs, h⟩

end

end Machine

end ByteLisp
