/-
  ByteLisp: how actions with a state end.

  * `Ends x s Q E`: if the action `x` succeeds on the state `s`, then `Q` holds of
    its result, and if it fails, then `E`;
  * one lemma for each way to put actions together says what is to be shown for
    the whole from what is to be shown afterwards.
-/
namespace ByteLisp

section

variable {ε σ α β : Type} {x : EStateM ε σ α} {s s' : σ} {Q Q' : α → σ → Prop}
  {E E' : ε → σ → Prop}

/-- What holds when an action ends. -/
def Ends (x : EStateM ε σ α) (s : σ) (Q : α → σ → Prop) (E : ε → σ → Prop) : Prop :=
  match x s with
  | .ok a s' => Q a s'
  | .error e s' => E e s'

theorem ends_of_ok (a : α) (s' : σ) (hx : x s = .ok a s') (h : Q a s') : Ends x s Q E := by
  rw [Ends, hx]
  exact h

theorem ends_of_error (e : ε) (s' : σ) (hx : x s = .error e s') (h : E e s') : Ends x s Q E := by
  rw [Ends, hx]
  exact h

theorem Ends.ok {a : α} (h : Ends x s Q E) (hx : x s = .ok a s') : Q a s' := by
  rwa [Ends, hx] at h

theorem Ends.error {e : ε} (h : Ends x s Q E) (hx : x s = .error e s') : E e s' := by
  rwa [Ends, hx] at h

theorem Ends.mono (h : Ends x s Q E) (hQ : ∀ a s', Q a s' → Q' a s')
    (hE : ∀ e s', E e s' → E' e s') : Ends x s Q' E' := by
  unfold Ends at *
  split
  · next hx => rw [hx] at h; exact hQ _ _ h
  · next hx => rw [hx] at h; exact hE _ _ h

theorem Ends.and (h : Ends x s Q E) (h' : Ends x s Q' E') :
    Ends x s (fun a s' => Q a s' ∧ Q' a s') fun e s' => E e s' ∧ E' e s' := by
  unfold Ends at *
  split
  · next hx => rw [hx] at h h'; exact ⟨h, h'⟩
  · next hx => rw [hx] at h h'; exact ⟨h, h'⟩

theorem ends_bind {f : α → EStateM ε σ β} {Q : β → σ → Prop}
    (h : Ends x s (fun a s' => Ends (f a) s' Q E) E) : Ends (x >>= f) s Q E := by
  change match EStateM.bind x f s with | .ok a s' => Q a s' | .error e s' => E e s'
  unfold EStateM.bind
  unfold Ends at h
  cases hx : x s with
  | ok a s' => rw [hx] at h; exact h
  | error e s' => rw [hx] at h; exact h

theorem ends_pure {a : α} (h : Q a s) : Ends (pure a) s Q E := h

theorem ends_throw {e : ε} (h : E e s) : Ends (throw e : EStateM ε σ α) s Q E := h

/-- A guard that fails, or goes on. -/
theorem ends_guard {p : Prop} [Decidable p] {e : ε} {g : Unit → EStateM ε σ α} (he : p → E e s)
    (h : ¬ p → Ends (g ()) s Q E) : Ends (if p then throw e >>= g else g ()) s Q E := by
  split
  · next hp => exact ends_bind (ends_throw (he hp))
  · next hp => exact h hp

theorem ends_map {f : α → β} {Q : β → σ → Prop} (h : Ends x s (fun a s' => Q (f a) s') E) :
    Ends (f <$> x) s Q E := by
  change match EStateM.map f x s with | .ok a s' => Q a s' | .error e s' => E e s'
  unfold EStateM.map
  unfold Ends at h
  cases hx : x s with
  | ok a s' => rw [hx] at h; exact h
  | error e s' => rw [hx] at h; exact h

theorem ends_get {Q : σ → σ → Prop} (h : Q s s) : Ends (get : EStateM ε σ σ) s Q E := h

theorem ends_set {Q : PUnit → σ → Prop} (h : Q ⟨⟩ s') : Ends (set s' : EStateM ε σ PUnit) s Q E := h

theorem ends_modify {f : σ → σ} {Q : PUnit → σ → Prop} (h : Q ⟨⟩ (f s)) :
    Ends (modify f : EStateM ε σ PUnit) s Q E := h

end

end ByteLisp
