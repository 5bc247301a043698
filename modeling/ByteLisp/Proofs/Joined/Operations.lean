/-
  ByteLisp: the operations of two machines in step.

  * `Machine.Tandem`: two machines go on in step, whatever their values are;
  * `both_add` to `both_makeFunction`: there is one lemma for each operation. What
    is asked for is that it does not reach the main functions.
-/
import ByteLisp.Proofs.Joined.Lockstep

namespace ByteLisp

variable {S : Nat → Prop} {R R' : Nat → Nat → Prop} {G : Ground} {us us' vs vs' : List Value}
  {u u' v v' x x' y y' : Value} {m M : Machine} {n argc : Nat}

/-! ## Native functions -/

namespace Native

variable {s s' : Stack} {name : String} {k : Nat}

/-- The top values of two stacks correspond. -/
def TopTwins (R : Nat → Nat → Prop) (n : Nat) (s s' : Stack) : Prop :=
  ∀ k < n, ∃ u u', s.values[k]? = some u ∧ s'.values[k]? = some u' ∧ u.Twin R u'

theorem numberArg_twins (name : String) (h : TopTwins R n s s') (hk : k < n) :
    (∃ x, numberArg name k s = .ok x s ∧ numberArg name k s' = .ok x s') ∨
      ∃ e, numberArg name k s = .error e s := by
  obtain ⟨u, u', hu, hu', htwin⟩ := h k hk
  unfold numberArg
  simp only [bind, EStateM.bind, Stack.peek, hu, hu']
  cases htwin with
  | number x => exact Or.inl ⟨x, rfl, rfl⟩
  | boolean b | object h => exact Or.inr ⟨_, rfl⟩

theorem unary_twins {g : Float → Float} (h : TopTwins R 1 s s') :
    (∃ x, (unary name g).run s = Stack.push (.number x) s ∧
      (unary name g).run s' = Stack.push (.number x) s') ∨
      ∃ e, (unary name g).run s = .error e s := by
  simp only [unary, bind, EStateM.bind]
  rcases numberArg_twins name h Nat.one_pos with ⟨x, hx, hx'⟩ | ⟨e, hx⟩
  · exact Or.inl ⟨g x, by rw [hx], by rw [hx']⟩
  · exact Or.inr ⟨e, by rw [hx]⟩

theorem binary_twins {g : Float → Float → Float} (h : TopTwins R 2 s s') :
    (∃ x, (binary name g).run s = Stack.push (.number x) s ∧
      (binary name g).run s' = Stack.push (.number x) s') ∨
      ∃ e, (binary name g).run s = .error e s := by
  simp only [binary, bind, EStateM.bind]
  rcases numberArg_twins name h Nat.one_lt_two with ⟨x, hx, hx'⟩ | ⟨e, hx⟩
  · rw [hx, hx']
    rcases numberArg_twins name h Nat.two_pos with ⟨y, hy, hy'⟩ | ⟨e, hy⟩
    · exact Or.inl ⟨g x y, by simp only [hy], by simp only [hy']⟩
    · exact Or.inr ⟨e, by simp only [hy]⟩
  · exact Or.inr ⟨e, by rw [hx]⟩

/-- A built-in function pushes the same number on both stacks, or refuses. -/
theorem builtin_twins {g : Native} (hg : g ∈ builtins) (h : TopTwins R g.arity s s') :
    (∃ x, g.run s = Stack.push (.number x) s ∧ g.run s' = Stack.push (.number x) s') ∨
      ∃ e, g.run s = .error e s := by
  simp only [builtins, List.mem_cons, List.not_mem_nil, or_false] at hg
  rcases hg with rfl | rfl | rfl | rfl
  · exact unary_twins h
  · exact unary_twins h
  · exact binary_twins h
  · exact binary_twins h

end Native

namespace Machine

/-- Two machines that go on in step. -/
def Tandem (S : Nat → Prop) (G : Ground) (m m' : Machine) : Prop := ∃ R us us', Twins S R G us us' m m'

theorem Twins.tandem (h : Twins S R G us us' m M) : Tandem S G m M := ⟨R, us, us', h⟩

/-- If the first operation succeeds, then so does the second one, and the machines go on in step. -/
abbrev Matched (S : Nat → Prop) (G : Ground) (op op' : Run Unit) (m M : Machine) : Prop :=
  Both op op' m M fun _ _ => Tandem S G

theorem matched_push (h : Twins S R G us us' m M) (hu : u.Twin R u') : Matched S G (push u) (push u') m M :=
  both_push h hu fun _ _ h => h.tandem

/-! ## Operators -/

/-- Taking two values. -/
theorem both_popTwo {α : Type} {op op' : Value → Value → Run α} {Q : α → α → Machine → Machine → Prop}
    (h : Twins S R G us us' m M) (hn : 2 ≤ us.length)
    (hQ : ∀ x x' y y' ws ws' m' M', Twins S R G ws ws' m' M' → x.Twin R x' → y.Twin R y' →
      Both (op x y) (op' x' y') m' M' Q) :
    Both (do let y ← pop; let x ← pop; op x y) (do let y ← pop; let x ← pop; op' x y) m M Q := by
  refine both_bind (both_pop h (Nat.lt_of_succ_lt hn) fun y y' ws ws' m₁ M₁ hus _ hy h₁ => ?_)
  have hws : 0 < ws.length := by
    rw [hus, List.length_cons] at hn
    omega
  exact both_bind (both_pop h₁ hws fun x x' _ _ m₂ M₂ _ _ hx h₂ => hQ x x' y y' _ _ m₂ M₂ h₂ hx hy)

theorem matched_arithmetic (op : Op) (g : Float → Float → Float) (h : Twins S R G us us' m M)
    (hn : 2 ≤ us.length) :
    Matched S G (arithmetic op g) (arithmetic op g) m M := by
  refine both_popTwo h hn fun x x' y y' ws ws' m' M' h hx hy => ?_
  cases hx with
  | number a =>
    cases hy with
    | number b => exact matched_push h (.number (g a b))
    | boolean | object => exact both_typeFault h.tame
  | boolean | object => exact both_typeFault h.tame

/-- Operands that are not both numbers must both be strings. -/
theorem matched_texts {o : Op} {g : String → String → Run Unit} (h : Twins S R G us us' m M)
    (hx : x.Twin R x') (hy : y.Twin R y') (hg : ∀ s t, Matched S G (g s t) (g s t) m M) :
    Matched S G (do
      match ← textOf x, ← textOf y with
      | some s, some t => g s t
      | some _, none => typeFault o .string y
      | none, _ =>
        match x with
        | .number _ => typeFault o .number y
        | _ => typeFault o .number x)
      (do
      match ← textOf x', ← textOf y' with
      | some s, some t => g s t
      | some _, none => typeFault o .string y'
      | none, _ =>
        match x' with
        | .number _ => typeFault o .number y'
        | _ => typeFault o .number x') m M := by
  refine both_bind (both_textOf h hx (both_bind (both_textOf h hy ?_)))
  cases m.heap.text? x with
  | none => cases hx <;> exact both_typeFault h.tame
  | some s =>
    cases m.heap.text? y with
    | none => exact both_typeFault h.tame
    | some t => exact hg s t

theorem matched_string (text : String) (h : Twins S R G us us' m M) :
    Matched S G (do push (.object (← alloc (.string text))))
      (do push (.object (← alloc (.string text)))) m M :=
  both_bind (both_alloc h (.string text) (by simp) fun _ _ _ _ _ _ hij h => matched_push h (.object hij))

theorem matched_add (h : Twins S R G us us' m M) (hn : 2 ≤ us.length) : Matched S G add add m M := by
  refine both_popTwo h hn fun x x' y y' ws ws' m' M' h hx hy => ?_
  have texts := matched_texts (o := .add) h hx hy fun s t => matched_string (s ++ t) h
  cases hx with
  | number a =>
    cases hy with
    | number b => exact matched_push h (.number (a + b))
    | boolean | object => exact texts
  | boolean | object => exact texts

theorem matched_compare (c : Comparison) (h : Twins S R G us us' m M) (hn : 2 ≤ us.length) :
    Matched S G (compare c) (compare c) m M := by
  refine both_popTwo h hn fun x x' y y' ws ws' m' M' h hx hy => ?_
  have texts := matched_texts (o := .cmp) h hx hy fun s t => matched_push h (.boolean (c.strings s t))
  cases hx with
  | number a =>
    cases hy with
    | number b => exact matched_push h (.boolean (c.numbers a b))
    | boolean | object => exact texts
  | boolean a =>
    cases hy with
    | boolean b =>
      dsimp only
      split
      · exact matched_push h (.boolean (c.booleans a b))
      · exact both_typeFault h.tame
    | number | object => exact both_typeFault h.tame
  | object => cases hy <;> exact texts

/-! ## Calls -/

theorem both_native {g : Native} (hg : g ∈ Native.builtins) (h : Twins S R G us us' m M)
    (hn : g.arity ≤ us.length) {Q : Unit → Unit → Machine → Machine → Prop}
    (hQ : ∀ x m' M', Twins S R G (.number x :: us) (.number x :: us') m' M' → Q () () m' M') :
    Both (onStack g.run) (onStack g.run) m M Q := by
  have top : Native.TopTwins R g.arity m.stack M.stack := by
    intro k hk
    obtain ⟨low, hl⟩ := h.values
    obtain ⟨low', hl'⟩ := h.values'
    have hlt : k < us.length := Nat.lt_of_lt_of_le hk hn
    have hlt' : k < us'.length := h.length_eq ▸ hlt
    refine ⟨us[k], us'[k], ?_, ?_, h.stack.get hlt hlt'⟩
    · rw [hl, List.getElem?_append_left hlt, List.getElem?_eq_getElem hlt]
    · rw [hl', List.getElem?_append_left hlt', List.getElem?_eq_getElem hlt']
  rcases Native.builtin_twins hg top with ⟨x, hx, hx'⟩ | ⟨e, hx⟩
  · have same : onStack g.run m = push (.number x) m := by rw [push, onStack, onStack, hx]
    have same' : onStack g.run M = push (.number x) M := by rw [push, onStack, onStack, hx']
    have hpush := both_push (Q := Q) h (.number x) fun m' M' h => hQ x m' M' h
    unfold Both Ends at hpush ⊢
    rwa [same, same']
  · exact ends_of_error e m (by rw [onStack, hx]) h.tame

theorem matched_callNative {g : Native} (hg : g ∈ Native.builtins) (h : Twins S R G us us' m M)
    (hn : argc < us.length) :
    Matched S G (callNative g argc) (callNative g argc) m M := by
  unfold callNative
  refine both_guard h.tame id fun harity => ?_
  rw [not_not] at harity
  refine both_bind
    (both_height h (both_bind (both_native hg h (harity ▸ Nat.le_of_lt hn) fun x m₁ M₁ h₁ => ?_)))
  refine both_bind (both_height h₁ ?_)
  refine both_guard h₁.tame id fun _ => ?_
  refine both_bind (both_pop h₁ (Nat.succ_pos _) fun u u' ws ws' m₂ M₂ hus hus' hu h₂ => ?_)
  cases hus
  cases hus'
  exact both_bind (both_drop h₂ hn fun _ _ h₃ => matched_push h₃ hu)

/-- A call of a function of the program enters it. -/
theorem matched_callFunction {f f' : Closure} (hcode : R f.code f'.code)
    (hcells : List.Forall₂ R f.cells.toList f'.cells.toList) (h : Twins S R G us us' m M)
    (hn : argc < us.length) :
    Matched S G (callFunction f argc) (callFunction f' argc) m M := by
  refine both_bind (both_codeAt h hcode fun c c' hc => ?_)
  refine both_guard h.tame (by rw [hc.arity]; exact id) fun _ => both_get (both_guard h.tame ?_ fun _ => ?_)
  · have hlen := h.frames.length_eq
    simp only [frames, List.length_cons, List.length_reverse, Array.length_toList] at hlen
    rw [h.frameLimit, h.frameLimit', Nat.succ.inj hlen]
    exact id
  rw [← hc.own]
  refine both_bind (both_allocCells h hcells c.own.size fun R' cs cs' m₁ M₁ hR hcs h₁ => ?_)
  refine both_bind (both_height h₁ (ends_of_ok () _ rfl ⟨(), _, rfl, R', us, us', ?_⟩))
  refine { h₁ with frames := ?_ }
  have cells (k : Nat) (i : Handle) (hi : cs[k]? = some i) : ∃ j, cs'[k]? = some j ∧ R' i j := by
    rw [← Array.getElem?_toList] at hi
    obtain ⟨hk, rfl⟩ := List.getElem?_eq_some_iff.1 hi
    have hk' : k < cs'.toList.length := hcs.length_eq ▸ hk
    exact ⟨cs'.toList[k], by rw [← Array.getElem?_toList, List.getElem?_eq_getElem hk'], hcs.get hk hk'⟩
  have entered (m : Machine) (f : Frame) :
      { m with current := f, callers := m.callers.push m.current }.frames = f :: m.frames := by
    simp [frames]
  rw [entered, entered]
  exact .call ⟨(Nat.zero_add _).symm, rfl, cells⟩ (by dsimp only; omega) (hR _ _ hcode) h₁.frames

theorem matched_call (h : Twins S R G us us' m M) (hn : argc < us.length) :
    Matched S G (call argc) (call argc) m M := by
  refine both_bind (both_peek h hn fun u u' _ _ hu => both_get ?_)
  have refused {y : Run Unit} : Matched S G (do throw (.notCallable (← tagOf u))) y m M := both_refuse h.tame
  cases hu with
  | number x | boolean b => exact refused
  | @object i j hij =>
    simp only [Value.handle?, Option.bind_some]
    cases ho : m.heap.get? i with
    | none => exact refused
    | some o =>
      obtain ⟨o', ho', htwin⟩ := h.worlds.get? hij ho
      rw [ho']
      cases htwin with
      | native hg => exact matched_callNative hg h hn
      | function hcode hcells => exact matched_callFunction hcode hcells h hn
      | string | code | cell => exact refused

/-- A return goes back to activations that correspond. -/
theorem matched_ret (h : Twins S R G us us' m M) : Matched S G ret ret m M := by
  have hframes := h.frames
  have back {m : Machine} {f : Frame} {fs : List Frame} (hfs : m.callers.toList.reverse = f :: fs) :
      ret m = .ok () { m with current := f, callers := fs.reverse.toArray } := by
    have hcallers : m.callers = fs.reverse.toArray.push f := by
      rw [← Array.toList_inj, Array.toList_push, ← List.reverse_cons, ← hfs, List.reverse_reverse]
    rw [ret, Array.back?_eq_some_iff.2 ⟨_, hcallers⟩, hcallers, Array.pop_push]
  unfold frames at hframes
  generalize hfs : m.callers.toList.reverse = fs, hfs' : M.callers.toList.reverse = fs' at hframes
  cases hframes with
  | ground =>
    refine ends_of_error .corrupted m ?_ h.tame
    rw [List.reverse_eq_nil_iff, Array.toList_eq_nil_iff] at hfs
    rw [ret, hfs]
    rfl
  | call _ _ _ hs =>
    have below (f : Frame) (fs : List Frame) : f :: fs.reverse.toArray.toList.reverse = f :: fs := by simp
    cases hs with
    | ground ht hb hc hc' hcells =>
      refine ends_of_ok () _ (back hfs) ⟨(), _, back hfs', R, us, us', { h with frames := ?_ }⟩
      exact .ground ht hb hc hc' hcells
    | call ht hb hc hs =>
      refine ends_of_ok () _ (back hfs) ⟨(), _, back hfs', R, us, us', { h with frames := ?_ }⟩
      unfold frames
      dsimp only
      rw [below, below]
      exact .call ht hb hc hs

/-! ## Closures -/

theorem mapM_handle?_twins (h : List.Forall₂ (Value.Twin R) vs vs') {is : List Handle}
    (his : vs.mapM Value.handle? = some is) :
    ∃ js, vs'.mapM Value.handle? = some js ∧ List.Forall₂ R is js := by
  induction h generalizing is with
  | nil =>
    cases his
    exact ⟨[], rfl, .nil⟩
  | cons hv _ ih =>
    rw [List.mapM_cons] at his
    cases hv with
    | number | boolean => cases his
    | @object i j hij =>
      obtain ⟨k, hk, his⟩ := Option.bind_eq_some_iff.1 his
      obtain ⟨ks, hks, his⟩ := Option.bind_eq_some_iff.1 his
      cases hk
      cases his
      obtain ⟨js, hjs, hR⟩ := ih hks
      exact ⟨j :: js, by rw [List.mapM_cons, hjs]; rfl, .cons hij hR⟩

theorem matched_makeFunction (h : Twins S R G us us' m M) (hn : n < us.length) :
    Matched S G (makeFunction n) (makeFunction n) m M := by
  refine both_bind (both_pop h (Nat.zero_lt_of_lt hn) fun top top' ws ws' m₁ M₁ hus _ htop h₁ => both_get ?_)
  have hws : n ≤ ws.length := by
    rw [hus, List.length_cons] at hn
    omega
  refine both_bind (both_expect h₁.tame fun i hi => ?_)
  obtain ⟨hi, hcode⟩ := Option.filter_eq_some_iff.1 hi
  cases htop with
  | number | boolean => cases hi
  | @object _ j hij =>
    cases hi
    obtain ⟨c, hc⟩ := Option.isSome_iff_exists.1 hcode
    obtain ⟨c', hc', -⟩ := h₁.worlds.code? hij hc
    refine ⟨j, Option.filter_eq_some_iff.2 ⟨rfl, by rw [hc']; rfl⟩, ?_⟩
    obtain ⟨hh, hh'⟩ := h₁.height
    refine both_guard h₁.tame (by rw [hh, hh']; exact id) fun _ =>
      both_bind (both_expect h₁.tame fun is his => ?_)
    obtain ⟨low, hl⟩ := h₁.values
    obtain ⟨low', hl'⟩ := h₁.values'
    rw [hl, List.take_append_of_le_length hws] at his
    obtain ⟨js, hjs, hR⟩ := mapM_handle?_twins (List.forall₂_reverse_iff.2 (List.forall₂_take n h₁.stack)) his
    refine ⟨js, by rw [hl', List.take_append_of_le_length (h₁.length_eq ▸ hws)]; exact hjs, ?_⟩
    refine both_bind (both_drop h₁ hws fun m₂ M₂ h₂ => both_bind ?_)
    exact both_alloc h₂ (.function hij hR) (by simp) fun _ _ _ _ _ _ hnew h₃ => matched_push h₃ (.object hnew)

end Machine

end ByteLisp
