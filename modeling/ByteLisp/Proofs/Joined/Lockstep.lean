/-
  ByteLisp: two machines in step.

  A program that runs alone, and the same program as a part of another one: the
  machines execute corresponding instructions on corresponding values. What the first
  machine does, the second one does as well.

  * `Code.Part`: the instructions of a code object are a part of another one;
  * `Frames` relates the activations, `Machine.Twins` the machines; the main
    functions below all other values need not correspond;
  * `Both`: when the first action succeeds, so does the second one. There is one
    lemma for each action of the machine.
-/
import ByteLisp.Proofs.Joined.Floor
import ByteLisp.Proofs.Joined.Worlds
import ByteLisp.Proofs.Machine.Safety

namespace ByteLisp

/-! ## Code -/

/-- The instructions of `c` before `last` are a part of `c'`, `dist` bytes further. -/
def Code.Part (R : Nat → Nat → Prop) (dist skip : Nat) (last : List Instr) (c c' : Code) : Prop :=
  ∃ pre is is' post, c.bytes = Instr.bytes (is ++ last) ∧ c'.bytes = Instr.bytes (pre ++ is' ++ post) ∧
    dist = Instr.total pre ∧ List.Forall₂ (Instr.Twin R c.constants c'.constants dist skip) is is'

section

variable {R R' : Nat → Nat → Prop} {dist skip : Nat} {last : List Instr} {c c' : Code}

theorem Code.Part.mono (h : c.Part R dist skip last c') (hR : ∀ i j, R i j → R' i j) :
    c.Part R' dist skip last c' := by
  obtain ⟨pre, is, is', post, hb, hb', hd, hi⟩ := h
  exact ⟨pre, is, is', post, hb, hb', hd, hi.imp fun _ _ hi => hi.mono hR⟩

theorem Code.Twin.part (h : c.Twin R c') : c.Part R 0 0 [] c' := by
  obtain ⟨is, is', hb, hb', hi⟩ := h.instrs
  refine ⟨[], is, is', [], ?_, ?_, rfl, hi⟩
  · rw [List.append_nil]
    exact hb
  · rw [List.nil_append, List.append_nil]
    exact hb'

theorem Instr.total_twins {is is' : List Instr} {cs cs' : Array Value}
    (h : List.Forall₂ (Instr.Twin R cs cs' dist skip) is is') : total is' = total is := by
  induction h with
  | nil => rfl
  | cons h _ ih => rw [total_cons, total_cons, ih, h.size_eq]

/-- Where the first code has an instruction, the second one has the corresponding one, up to the end
    of the part. -/
theorem Code.Part.fetch (h : c.Part R dist skip last c') {pre post : List Instr} {i : Instr}
    (hb : c.bytes = Instr.bytes (pre ++ i :: post)) :
    i ∈ last ∨ ∃ i', Instr.fetch c'.bytes (Instr.total pre + dist) = .ok i' ∧
      Instr.Twin R c.constants c'.constants dist skip i i' := by
  obtain ⟨before, is, is', after, hc, hc', rfl, hi⟩ := h
  have heq := Instr.bytes_inj (hb.symm.trans hc)
  rcases List.append_eq_append_iff.1 heq with ⟨rest, rfl, hrest⟩ | ⟨rest, rfl, hrest⟩
  · cases rest with
    | nil => exact Or.inl (by rw [List.nil_append] at hrest; rw [← hrest]; exact List.mem_cons_self)
    | cons j rest =>
      obtain ⟨rfl, rfl⟩ := List.cons_eq_cons.1 hrest
      obtain ⟨us, ws, rfl, hu, hw⟩ := forall₂_append_left hi
      cases hw with
      | @cons _ i' _ ws hii hw =>
        refine Or.inr ⟨i', ?_, hii⟩
        have hsplit : before ++ (us ++ i' :: ws) ++ after = (before ++ us) ++ i' :: (ws ++ after) := by simp
        rw [hc', hsplit, Nat.add_comm, ← Instr.total_twins hu, ← Instr.total_append]
        exact Instr.fetch_bytes ..
  · refine Or.inl ?_
    rw [hrest]
    exact List.mem_append_right _ List.mem_cons_self

end

/-! ## Lists that correspond -/

theorem forall₂_set {α β : Type} {P : α → β → Prop} {as : List α} {bs : List β}
    (h : List.Forall₂ P as bs) {n : Nat} {a : α} {b : β} (hab : P a b) :
    List.Forall₂ P (as.set n a) (bs.set n b) := by
  induction h generalizing n with
  | nil => exact .nil
  | cons h hs ih =>
    cases n with
    | zero => exact .cons hab hs
    | succ n => exact .cons h ih

theorem forall₂_range' {R : Nat → Nat → Prop} {a b n : Nat} (h : ∀ k < n, R (a + k) (b + k)) :
    List.Forall₂ R (List.range' a n) (List.range' b n) := by
  rw [List.range'_eq_map_range, List.range'_eq_map_range, List.forall₂_map_left_iff,
    List.forall₂_map_right_iff, List.forall₂_same]
  exact fun k hk => h k (List.mem_range.1 hk)

/-! ## Machines -/

/-- The main code objects of two runs. The second one has the first one as a part. -/
structure Ground where
  main : Handle
  main' : Handle
  code : Code
  code' : Code
  dist : Nat
  skip : Nat
  cells' : Array Handle
  limits : Limits

/-- An activation goes on at the same place of a part of the code, with cells that correspond. -/
structure Frame.Twin (R : Nat → Nat → Prop) (dist skip : Nat) (f f' : Frame) : Prop where
  ip : f'.ip = f.ip + dist
  base : f'.base = f.base
  cells : ∀ (k : Nat) (i : Handle), f.cells[k]? = some i → ∃ j, f'.cells[k + skip]? = some j ∧ R i j

/-- Activations correspond, the latest first. The earliest ones run the main code objects. -/
inductive Frames (R : Nat → Nat → Prop) (G : Ground) : List Frame → List Frame → Prop
  | ground {f f' : Frame} (h : f.Twin R G.dist G.skip f') (hb : f.base = 0) (hc : f.code = G.main)
    (hc' : f'.code = G.main') (hcells : f'.cells = G.cells') : Frames R G [f] [f']
  | call {f f' : Frame} {fs fs' : List Frame} (h : f.Twin R 0 0 f') (hb : 0 < f.base) (hc : R f.code f'.code)
    (hs : Frames R G fs fs') : Frames R G (f :: fs) (f' :: fs')

namespace Machine

/-- All activations, the latest first. -/
def frames (m : Machine) : List Frame := m.current :: m.callers.toList.reverse

/-- Two machines that go on in step: `us` and `us'` are the values above the main functions. -/
structure Twins (S : Nat → Prop) (R : Nat → Nat → Prop) (G : Ground) (us us' : List Value) (m m' : Machine) :
    Prop where
  worlds : Worlds S R m.world m'.world
  values : ∃ low, m.stack.values = us ++ [low]
  values' : ∃ low, m'.stack.values = us' ++ [low]
  stack : List.Forall₂ (Value.Twin R) us us'
  limit : m.stack.limit = G.limits.stack
  limit' : m'.stack.limit = G.limits.stack
  frameLimit : m.frameLimit = G.limits.frames
  frameLimit' : m'.frameLimit = G.limits.frames
  frames : Frames R G m.frames m'.frames
  code : m.heap.code? G.main = some G.code
  code' : m'.heap.code? G.main' = some G.code'
  part : G.code.Part R G.dist G.skip [.halt] G.code'

end Machine

variable {S : Nat → Prop} {R R' : Nat → Nat → Prop} {G : Ground} {us us' vs vs' : List Value} {u u' : Value}
  {m m' M M' : Machine} {dist skip : Nat} {f f' : Frame} {fs fs' : List Frame}

theorem Frame.Twin.mono (h : f.Twin R dist skip f') (hR : ∀ i j, R i j → R' i j) :
    f.Twin R' dist skip f' where
  ip := h.ip
  base := h.base
  cells k i hi := by
    obtain ⟨j, hj, hij⟩ := h.cells k i hi
    exact ⟨j, hj, hR i j hij⟩

theorem Frames.mono (h : Frames R G fs fs') (hR : ∀ i j, R i j → R' i j) : Frames R' G fs fs' := by
  induction h with
  | ground h hb hc hc' hcells => exact .ground (h.mono hR) hb hc hc' hcells
  | call h hb hc _ ih => exact .call (h.mono hR) hb (hR _ _ hc) ih

theorem Frames.length_eq (h : Frames R G fs fs') : fs'.length = fs.length := by
  induction h with
  | ground => rfl
  | call _ _ _ _ ih => rw [List.length_cons, List.length_cons, ih]

/-- The current activations go on at other places. -/
theorem Frames.moved (h : Frames R G (f :: fs) (f' :: fs')) {ip ip' : Nat}
    (hip : ∀ dist, f'.ip = f.ip + dist → ip' = ip + dist) :
    Frames R G ({ f with ip := ip } :: fs) ({ f' with ip := ip' } :: fs') := by
  cases h with
  | ground h hb hc hc' hcells => exact .ground ⟨hip _ h.ip, h.base, h.cells⟩ hb hc hc' hcells
  | call h hb hc hs => exact .call ⟨hip _ h.ip, h.base, h.cells⟩ hb hc hs

/-! ## Actions -/

/-- If the first action succeeds, then so does the second one, and `Q` holds of the results; if it fails,
    then the world still corresponds to itself. -/
def Both {α β : Type} (x : Run α) (y : Run β) (m M : Machine) (Q : α → β → Machine → Machine → Prop) : Prop :=
  Ends x m (fun a m' => ∃ b M', y M = .ok b M' ∧ Q a b m' M') fun _ m' => m'.world.Tame

section

variable {α β γ δ : Type} {x : Run α} {y : Run β} {Q Q' : α → β → Machine → Machine → Prop}
  {P : γ → δ → Machine → Machine → Prop}

theorem ok_of_ends {a : α} (h : Ends x m (fun b s => b = a ∧ s = m') fun _ _ => False) : x m = .ok a m' := by
  unfold Ends at h
  cases hx : x m with
  | ok b s =>
    rw [hx] at h
    obtain ⟨rfl, rfl⟩ := h
    rfl
  | error e s =>
    rw [hx] at h
    exact h.elim

theorem Both.mono (h : Both x y m M Q) (hQ : ∀ a b m' M', Q a b m' M' → Q' a b m' M') : Both x y m M Q' :=
  Ends.mono h (fun _ _ ⟨b, M', hy, h⟩ => ⟨b, M', hy, hQ _ _ _ _ h⟩) fun _ _ h => h

theorem both_bind {f : α → Run γ} {g : β → Run δ}
    (h : Both x y m M fun a b m' M' => Both (f a) (g b) m' M' P) :
    Both (x >>= f) (y >>= g) m M P := by
  refine ends_bind (Ends.mono h (fun a m' ⟨b, M', hy, h⟩ => ?_) fun _ _ h => h)
  have hbind : (y >>= g) M = g b M' := by
    change EStateM.bind y g M = _
    rw [EStateM.bind, hy]
  rw [hbind]
  exact h

theorem both_pure {a : α} {b : β} (h : Q a b m M) : Both (pure a) (pure b) m M Q := ends_pure ⟨b, M, rfl, h⟩

theorem both_throw {e : Fault} (h : m.world.Tame) : Both (throw e : Run α) y m M Q := ends_throw h

/-- Reading the states. -/
theorem both_get {f g : Machine → Run γ} {P : γ → γ → Machine → Machine → Prop} (h : Both (f m) (g M) m M P) :
    Both (get >>= f) (get >>= g) m M P := both_bind (ends_get ⟨M, M, rfl, h⟩)

/-- A guard that the second action passes as well; nothing happens if the first one fails. -/
theorem both_guard {p q : Prop} [Decidable p] [Decidable q] {e e' : Fault} {f : Unit → Run α}
    {g : Unit → Run β} (ht : m.world.Tame) (hpq : q → p) (h : ¬ p → Both (f ()) (g ()) m M Q) :
    Both (if p then throw e >>= f else f ()) (if q then throw e' >>= g else g ()) m M Q := by
  by_cases hp : p
  · rw [if_pos hp]
    exact ends_bind (ends_throw ht)
  · rw [if_neg hp, if_neg fun hq => hp (hpq hq)]
    exact h hp

end

namespace Machine

theorem Twins.tame (h : Twins S R G us us' m M) : m.world.Tame := h.worlds.tame

theorem Twins.length_eq (h : Twins S R G us us' m M) : us'.length = us.length := h.stack.length_eq.symm

theorem Twins.height (h : Twins S R G us us' m M) :
    m.stack.height = us.length + 1 ∧ M.stack.height = us.length + 1 := by
  obtain ⟨low, hl⟩ := h.values
  obtain ⟨low', hl'⟩ := h.values'
  rw [m.stack.height_eq, M.stack.height_eq, hl, hl', List.length_append, List.length_append, h.length_eq]
  exact ⟨rfl, rfl⟩

/-- Other values above the main functions. -/
theorem Twins.put (h : Twins S R G us us' m M) {low low' : Value} (hv : List.Forall₂ (Value.Twin R) vs vs') :
    Twins S R G vs vs' (m.put (vs ++ [low])) (M.put (vs' ++ [low'])) where
  worlds := h.worlds
  values := ⟨low, rfl⟩
  values' := ⟨low', rfl⟩
  stack := hv
  limit := h.limit
  limit' := h.limit'
  frameLimit := h.frameLimit
  frameLimit' := h.frameLimit'
  frames := h.frames
  code := h.code
  code' := h.code'
  part := h.part

/-- Other worlds. -/
theorem Twins.later (h : Twins S R G us us' m M) (hR : ∀ i j, R i j → R' i j) {W W' : World}
    (hw : Worlds S R' W W') (hc : W.heap.code? G.main = some G.code)
    (hc' : W'.heap.code? G.main' = some G.code') :
    Twins S R' G us us' { m with heap := W.heap, globals := W.globals }
      { M with heap := W'.heap, globals := W'.globals } where
  worlds := hw
  values := h.values
  values' := h.values'
  stack := h.stack.imp fun _ _ hv => hv.mono hR
  limit := h.limit
  limit' := h.limit'
  frameLimit := h.frameLimit
  frameLimit' := h.frameLimit'
  frames := h.frames.mono hR
  code := hc
  code' := hc'
  part := h.part.mono hR

/-! ## The stack -/

variable {Q : Unit → Unit → Machine → Machine → Prop} {V : Value → Value → Machine → Machine → Prop} {n : Nat}

theorem both_push (h : Twins S R G us us' m M) (hu : u.Twin R u')
    (hQ : ∀ m' M', Twins S R G (u :: us) (u' :: us') m' M' → Q () () m' M') :
    Both (push u) (push u') m M Q := by
  obtain ⟨low, hl⟩ := h.values
  obtain ⟨low', hl'⟩ := h.values'
  obtain ⟨hh, hh'⟩ := h.height
  by_cases hlim : m.stack.limit ≤ m.stack.height
  · refine ends_of_error .stackOverflow m ?_ h.tame
    rw [push, onStack, Stack.push, if_pos hlim]
  · have pushed {v : Value} {m : Machine} (hlim : ¬ m.stack.limit ≤ m.stack.height) :
        push v m = .ok () (m.put (v :: m.stack.values)) := by
      rw [push, onStack, Stack.push, if_neg hlim]
      simp [Machine.put, m.stack.height_eq]
    refine ends_of_ok () _ (pushed hlim) ⟨(), _,
      pushed (by rw [h.limit', ← h.limit, hh', ← hh]; exact hlim), ?_⟩
    rw [hl, hl']
    exact hQ _ _ (h.put (.cons hu h.stack))

theorem both_pop (h : Twins S R G us us' m M) (hn : 0 < us.length)
    (hQ : ∀ u u' ws ws' m' M', us = u :: ws → us' = u' :: ws' → u.Twin R u' →
      Twins S R G ws ws' m' M' → V u u' m' M') :
    Both pop pop m M V := by
  obtain ⟨low, hl⟩ := h.values
  obtain ⟨low', hl'⟩ := h.values'
  have hs := h.stack
  cases hs with
  | nil => exact absurd hn (Nat.lt_irrefl 0)
  | @cons u u' ws ws' hu hs =>
    exact ends_pop hl ⟨u', M.put (ws' ++ [low']), ok_of_ends (ends_pop hl' ⟨rfl, rfl⟩),
      hQ u u' ws ws' _ _ rfl rfl hu (h.put hs)⟩

theorem both_peek (h : Twins S R G us us' m M) (hn : n < us.length)
    (hQ : ∀ u u', us[n]? = some u → us'[n]? = some u' → u.Twin R u' → V u u' m M) :
    Both (peek n) (peek n) m M V := by
  obtain ⟨low, hl⟩ := h.values
  obtain ⟨low', hl'⟩ := h.values'
  have hn' : n < us'.length := h.length_eq ▸ hn
  have hu : m.stack.values[n]? = some us[n] := by
    rw [hl, List.getElem?_append_left hn, List.getElem?_eq_getElem hn]
  have hu' : M.stack.values[n]? = some us'[n] := by
    rw [hl', List.getElem?_append_left hn', List.getElem?_eq_getElem hn']
  exact ends_peek hu ⟨us'[n], M, ok_of_ends (ends_peek hu' ⟨rfl, rfl⟩),
    hQ _ _ (List.getElem?_eq_getElem hn) (List.getElem?_eq_getElem hn') (h.stack.get hn hn')⟩

theorem both_drop (h : Twins S R G us us' m M) (hn : n ≤ us.length)
    (hQ : ∀ m' M', Twins S R G (us.drop n) (us'.drop n) m' M' → Q () () m' M') :
    Both (onStack (Stack.drop n)) (onStack (Stack.drop n)) m M Q := by
  obtain ⟨low, hl⟩ := h.values
  obtain ⟨low', hl'⟩ := h.values'
  have split (us : List Value) (low : Value) : us ++ [low] = us.take n ++ (us.drop n ++ [low]) := by
    rw [← List.append_assoc, List.take_append_drop]
  have take {us : List Value} (hn : n ≤ us.length) : n = (us.take n).length := by
    rw [List.length_take, Nat.min_eq_left hn]
  refine ends_drop (hl.trans (split us low)) (take hn) ⟨(), M.put (us'.drop n ++ [low']), ?_, ?_⟩
  · exact ok_of_ends (ends_drop (hl'.trans (split us' low')) (take (h.length_eq ▸ hn)) ⟨rfl, rfl⟩)
  · exact hQ _ _ (h.put (List.forall₂_drop n h.stack))

/-- A slot above the main function. -/
theorem both_local {ix : Nat} (h : Twins S R G us us' m M) (hix : 0 < ix)
    (hQ : ∀ u u', u.Twin R u' → V u u' m M) :
    Both (onStack (Stack.get ix)) (onStack (Stack.get ix)) m M V := by
  obtain ⟨low, hl⟩ := h.values
  obtain ⟨low', hl'⟩ := h.values'
  by_cases hlt : ix ≤ us.length
  · have hn : us.length - ix < us.length := by omega
    have hn' : us.length - ix < us'.length := h.length_eq ▸ hn
    have at_slot {us : List Value} {l : Value} {n : Nat} (hlen : us.length = n) (hn : n - ix < us.length)
        (hle : ix ≤ n) : (us ++ [l]).reverse[ix]? = some us[n - ix] := by
      subst hlen
      rw [List.getElem?_reverse (by simp; omega), List.length_append, List.length_singleton,
        Nat.add_sub_cancel, List.getElem?_append_left hn, List.getElem?_eq_getElem hn]
    have hu := at_slot (l := low) rfl hn hlt
    have hu' := at_slot (l := low') h.length_eq hn' hlt
    rw [← hl] at hu
    rw [← hl'] at hu'
    exact ends_local hu ⟨_, M, ok_of_ends (ends_local hu' ⟨rfl, rfl⟩), hQ _ _ (h.stack.get hn hn')⟩
  · refine ends_of_error .stackUnderflow m ?_ h.tame
    rw [onStack, Stack.get, if_neg (by rw [h.height.1]; omega)]

theorem both_setLocal {ix : Nat} (h : Twins S R G us us' m M) (hix : 0 < ix) (hu : u.Twin R u')
    (hQ : ∀ ws ws' m' M', ws.length = us.length → Twins S R G ws ws' m' M' → Q () () m' M') :
    Both (onStack (Stack.set ix u)) (onStack (Stack.set ix u')) m M Q := by
  obtain ⟨low, hl⟩ := h.values
  obtain ⟨low', hl'⟩ := h.values'
  by_cases hlt : ix ≤ us.length
  · have set_slot {us : List Value} {low u : Value} {n : Nat} (hlen : us.length = n) (hle : ix ≤ n) :
        (us ++ [low]).set ((us ++ [low]).length - 1 - ix) u = us.set (n - ix) u ++ [low] := by
      subst hlen
      rw [List.length_append, List.length_singleton, Nat.add_sub_cancel, List.set_append_left _ _ (by omega)]
    have inside {us : List Value} {low : Value} {m : Machine} (hl : m.stack.values = us ++ [low])
        (hle : ix ≤ us.length) : ix < m.stack.values.length := by
      rw [hl, List.length_append]
      exact Nat.lt_succ_of_le hle
    have hle' : ix ≤ us'.length := h.length_eq ▸ hlt
    refine ends_setLocal (inside hl hlt) ⟨(), _, ok_of_ends (ends_setLocal (inside hl' hle') ⟨rfl, rfl⟩), ?_⟩
    rw [hl, hl', set_slot rfl hlt, set_slot h.length_eq hlt]
    exact hQ _ _ _ _ List.length_set (h.put (forall₂_set h.stack hu))
  · refine ends_of_error .stackUnderflow m ?_ h.tame
    rw [onStack, Stack.set, if_neg (by rw [h.height.1]; omega)]

/-! ## The heap -/

theorem both_alloc {o o' : Object} {P : Handle → Handle → Machine → Machine → Prop}
    (h : Twins S R G us us' m M) (ho : o.Twin R o') (hc : ∀ v, o ≠ .cell v)
    (hQ : ∀ R' i j m' M', (∀ i j, R i j → R' i j) → R' i j → Twins S R' G us us' m' M' → P i j m' M') :
    Both (alloc o) (alloc o') m M P := by
  obtain ⟨R', hR, hnew, hw⟩ := h.worlds.alloc ho hc
  refine ends_alloc ⟨M.heap.size, _, rfl, hQ R' _ _ _ _ hR hnew (h.later hR hw ?_ ?_)⟩
  · exact Heap.code?_eq_some.2 (Heap.get?_alloc_of_some (Heap.code?_eq_some.1 h.code))
  · exact Heap.code?_eq_some.2 (Heap.get?_alloc_of_some (Heap.code?_eq_some.1 h.code'))

/-- New cells after some that correspond. -/
theorem both_allocCells {cells cells' : Array Handle}
    {P : Array Handle → Array Handle → Machine → Machine → Prop}
    (h : Twins S R G us us' m M) (hcells : List.Forall₂ R cells.toList cells'.toList) (n : Nat)
    (hQ : ∀ R' cs cs' m' M', (∀ i j, R i j → R' i j) → List.Forall₂ R' cs.toList cs'.toList →
      Twins S R' G us us' m' M' → P cs cs' m' M') :
    Both (allocCells cells n) (allocCells cells' n) m M P := by
  obtain ⟨R', hR, hnew, hw⟩ := h.worlds.addCells n
  refine ends_of_ok _ _ (allocCells_eq ..) ⟨_, _, allocCells_eq .., hQ R' _ _ _ _ hR ?_ (h.later hR hw ?_ ?_)⟩
  · rw [Array.toList_append, Array.toList_append, Array.toList_range', Array.toList_range']
    exact List.rel_append (hcells.imp hR) (forall₂_range' hnew)
  · exact Heap.code?_eq_some.2 (Heap.get?_addCells_of_some n (Heap.code?_eq_some.1 h.code))
  · exact Heap.code?_eq_some.2 (Heap.get?_addCells_of_some n (Heap.code?_eq_some.1 h.code'))

theorem both_expect {α β : Type} {o : Option α} {o' : Option β} {P : α → β → Machine → Machine → Prop}
    (ht : m.world.Tame) (h : ∀ a, o = some a → ∃ b, o' = some b ∧ P a b m M) :
    Both (expect o) (expect o') m M P := by
  cases o with
  | none => exact ends_throw ht
  | some a =>
    obtain ⟨b, rfl, hP⟩ := h a rfl
    exact both_pure hP

theorem both_textOf {P : Option String → Option String → Machine → Machine → Prop}
    (h : Twins S R G us us' m M) (hu : u.Twin R u') (hQ : P (m.heap.text? u) (m.heap.text? u) m M) :
    Both (textOf u) (textOf u') m M P := by
  refine ends_textOf ⟨_, M, rfl, ?_⟩
  rw [show M.heap.text? u' = _ from h.worlds.text? hu]
  exact hQ

/-- Failing with a fault that tells the kind of a value. -/
theorem both_refuse {α β : Type} {g : Tag → Fault} {y : Run β} {P : α → β → Machine → Machine → Prop}
    (ht : m.world.Tame) : Both (tagOf u >>= fun t => throw (g t)) y m M P := by
  refine ends_bind ?_
  cases hu : m.heap.tag? u with
  | some t => exact ends_tagOf hu (ends_throw ht)
  | none =>
    have hfail : ∃ e, tagOf u m = .error e m := by
      unfold tagOf
      rw [hu]
      cases u <;> exact ⟨_, rfl⟩
    obtain ⟨e, he⟩ := hfail
    exact ends_of_error e m he ht

theorem both_typeFault {α β : Type} {op : Op} {expected : Tag} {y : Run β}
    {P : α → β → Machine → Machine → Prop} (ht : m.world.Tame) :
    Both (typeFault op expected u) y m M P := both_refuse ht

theorem both_height {P : Nat → Nat → Machine → Machine → Prop} (h : Twins S R G us us' m M)
    (hQ : P (us.length + 1) (us.length + 1) m M) : Both height height m M P := by
  obtain ⟨hh, hh'⟩ := h.height
  exact ends_of_ok _ m rfl ⟨_, M, rfl, by rw [hh, hh']; exact hQ⟩

theorem both_codeAt {P : Code → Code → Machine → Machine → Prop} {i j : Handle} (h : Twins S R G us us' m M)
    (hij : R i j) (hQ : ∀ c c', c.Twin R c' → P c c' m M) : Both (codeAt i) (codeAt j) m M P := by
  cases hc : m.heap.code? i with
  | none => exact ends_of_error .corrupted m (by rw [codeAt, hc]) h.tame
  | some c =>
    obtain ⟨c', hc', htwin⟩ := h.worlds.code? hij hc
    exact ends_codeAt hc ⟨c', M, ok_of_ends (ends_codeAt hc' ⟨rfl, rfl⟩), hQ c c' htwin⟩

end Machine

end ByteLisp
