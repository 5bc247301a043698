/-
  ByteLisp: the two code generators, action by action.

  * `Emission.writing` is the state of the generator that writes bytes where `Emit` has
    the same heap, globals, notes and draft;
  * `Agree`: two actions succeed together or fail together with the same error, which
    is not a fault of the compiler;
  * the lemmas after it put actions together, and one lemma says of each action on the
    bytes what it does;
  * `agree_patch`, `patched_jump`: patching a jump gives the bytes of the jump to the
    address that is known by then.
-/
import ByteLisp.Proofs.Code.Layout
import ByteLisp.Proofs.Ends
import ByteLisp.Proofs.Generation.Growth
import ByteLisp.Proofs.Generation.Writer
import ByteLisp.Proofs.Scope.Walk

namespace ByteLisp

/-- The compiler itself is to blame. -/
def CompileError.isFault : CompileError → Bool
  | .unresolvedCell _ => true
  | .malformed _ why => why.isFault
  | _ => false

namespace Emission

/-- The generator that writes bytes, with the bytes of the innermost function and the functions
    around it. -/
def writing (e : Emission) (bytes : List UInt8) (frames : List Write.Frame) : Writing :=
  ⟨e.heap, e.globals, e.notes, ⟨e.draft, bytes⟩ :: frames⟩

/-- Both generators have the same results. -/
structure Leaves (e : Emission) (w : Writing) : Prop where
  heap : w.heap = e.heap
  globals : w.globals = e.globals
  notes : w.notes = e.notes

end Emission

/-! ## Agreement -/

section

variable {α β γ δ : Type} {x : Emit α} {y : Write β} {e e' : Emission} {w w' : Writing} {a : α} {b : β}
  {Q Q₁ : α → Emission → β → Writing → Prop} {R : γ → Emission → δ → Writing → Prop}

/-- The actions both succeed, and `Q` holds of their results, or both fail with the same error,
    which is not a fault of the compiler. -/
def Agree (x : Emit α) (y : Write β) (e : Emission) (w : Writing)
    (Q : α → Emission → β → Writing → Prop) : Prop :=
  Ends x e (fun a e' => ∃ b w', y w = .ok b w' ∧ Q a e' b w') fun err e' =>
    err.isFault = false ∧ ∃ w', y w = .error (.error err) w' ∧ e'.Leaves w'

theorem agree_ok (hx : x e = .ok a e') (hy : y w = .ok b w') (h : Q a e' b w') : Agree x y e w Q :=
  ends_of_ok a e' hx ⟨b, w', hy, h⟩

theorem agree_error {err : CompileError} (hx : x e = .error err e') (hy : y w = .error (.error err) w')
    (herr : err.isFault = false) (h : e'.Leaves w') : Agree x y e w Q :=
  ends_of_error err e' hx ⟨herr, w', hy, h⟩

theorem Agree.mono (h : Agree x y e w Q₁)
    (hQ : ∀ a e' b w', x e = .ok a e' → Q₁ a e' b w' → Q a e' b w') : Agree x y e w Q := by
  cases hx : x e with
  | ok a e' =>
    obtain ⟨b, w', hy, hq⟩ := Ends.ok h hx
    exact agree_ok hx hy (hQ a e' b w' hx hq)
  | error err e' =>
    obtain ⟨herr, w', hy, hl⟩ := Ends.error h hx
    exact agree_error hx hy herr hl

/-- The first action does something on its own. -/
theorem agree_left {f : α → Emit γ} {y : Write δ} (hx : x e = .ok a e') (hf : Agree (f a) y e' w R) :
    Agree (x >>= f) y e w R := ends_bind (ends_of_ok a e' hx hf)

theorem Write.bind_of_ok {g : β → Write δ} (hy : y w = .ok b w') : (y >>= g) w = g b w' := by
  change EStateM.bind y g w = _
  rw [EStateM.bind, hy]

theorem Write.bind_of_error {g : β → Write δ} {stop : Write.Stop} (hy : y w = .error stop w') :
    (y >>= g) w = .error stop w' := by
  change EStateM.bind y g w = _
  rw [EStateM.bind, hy]

/-- The second action does something on its own. -/
theorem agree_right {x : Emit γ} {g : β → Write δ} (hy : y w = .ok b w') (hg : Agree x (g b) e w' R) :
    Agree x (y >>= g) e w R := by
  rw [Agree, Write.bind_of_ok hy]
  exact hg

/-- Actions that agree stand in front of actions that agree after them. -/
theorem agree_bind {f : α → Emit γ} {g : β → Write δ} (h : Agree x y e w Q)
    (hf : ∀ a e' b w', x e = .ok a e' → Q a e' b w' → Agree (f a) (g b) e' w' R) :
    Agree (x >>= f) (y >>= g) e w R := by
  cases hx : x e with
  | ok a e' =>
    obtain ⟨b, w', hy, hq⟩ := Ends.ok h hx
    exact agree_left hx (agree_right hy (hf a e' b w' hx hq))
  | error err e' =>
    obtain ⟨herr, w', hy, hl⟩ := Ends.error h hx
    exact ends_bind (ends_of_error err e' hx ⟨herr, w', Write.bind_of_error hy, hl⟩)

/-- Actions that agree stand in front of the rest of the first one. -/
theorem agree_then {f : α → Emit γ} {R : γ → Emission → β → Writing → Prop} (h : Agree x y e w Q)
    (hf : ∀ a e' b w', x e = .ok a e' → Q a e' b w' → ∃ c, f a e' = .ok c e' ∧ R c e' b w') :
    Agree (x >>= f) y e w R := by
  cases hx : x e with
  | ok a e' =>
    obtain ⟨b, w', hy, hq⟩ := Ends.ok h hx
    obtain ⟨c, hc, hr⟩ := hf a e' b w' hx hq
    exact agree_left hx (agree_ok hc hy hr)
  | error err e' =>
    obtain ⟨herr, w', hy, hl⟩ := Ends.error h hx
    exact ends_bind (ends_of_error err e' hx ⟨herr, w', hy, hl⟩)

/-- The result of the first action is used. -/
theorem agree_map {f : α → γ} (h : Agree x y e w Q) :
    Agree (f <$> x) y e w fun c e' b w' => ∃ a, c = f a ∧ Q a e' b w' := by
  refine ends_map (Ends.mono h ?_ fun _ _ h => h)
  rintro a e' ⟨b, w', hy, hq⟩
  exact ⟨b, w', hy, a, rfl, hq⟩

end

/-! ## Actions of both generators -/

theorem Emit.draft_apply {e : Emission} : Emit.draft e = .ok e.draft e := rfl

theorem Emit.update_apply {e : Emission} {g : Draft → Draft} :
    Emit.update g e = .ok () { e with draft := g e.draft } := rfl

theorem Emit.instr_apply {e : Emission} (i : Instr) :
    Emit.instr i e = .ok [i] { e with draft := e.draft.advance i.size } := rfl

namespace Write

variable {α : Type} {e : Emission} {bytes : List UInt8} {frames : List Frame}

theorem instr_writing (i : Instr) : instr i (e.writing bytes frames) =
    .ok () ({ e with draft := e.draft.advance i.size }.writing (bytes ++ i.encode) frames) := rfl

theorem put_writing : put (e.writing bytes frames) =
    .ok () ({ e with draft := e.draft.grow 1 }.writing bytes frames) := rfl

theorem update_draft {g : Draft → Draft} : update (fun f => { f with draft := g f.draft })
      (e.writing bytes frames) =
    .ok () ({ e with draft := g e.draft }.writing bytes frames) := rfl

theorem frame_writing : frame (e.writing bytes frames) =
    .ok ⟨e.draft, bytes⟩ (e.writing bytes frames) := rfl

theorem take_writing {n : Nat} (h : n ≤ e.draft.depth) : take n (e.writing bytes frames) =
    .ok () ({ e with draft := e.draft.shrink n }.writing bytes frames) := by
  change (if n ≤ e.draft.depth then _ else _ : Write Unit) (e.writing bytes frames) = _
  rw [if_pos h]
  rfl

theorem alloc_writing (o : Object) : alloc o (e.writing bytes frames) =
    .ok e.heap.size ({ e with heap := e.heap.alloc o }.writing bytes frames) := rfl

theorem pushFrame_writing (d : Draft) : pushFrame ⟨d, []⟩ (e.writing bytes frames) =
    .ok () ({ e with draft := d }.writing [] (⟨e.draft, bytes⟩ :: frames)) := rfl

/-- A jump whose address is not known yet is the size of any jump. -/
theorem jump_writing {i : UInt16 → Instr} {op : UInt8} (hi : ∀ a, (i a).encode = op :: bytesOf a) :
    jump i (e.writing bytes frames) = .ok (bytes.length + 1)
      ({ e with draft := e.draft.advance 3 }.writing (bytes ++ (i 0).encode) frames) := by
  have hsize : (i 0).size = 3 := by
    rw [← Instr.length_encode, hi]
    rfl
  rw [← hsize]
  rfl

/-- An action that writes no code does the same on the innermost function. -/
theorem agree_lift {x : Emit α} (h : ∀ err e', x e = .error err e' → err.isFault = false) :
    Agree x (lift x) e (e.writing bytes frames) fun a e' b w' =>
      a = b ∧ w' = e'.writing bytes frames := by
  have lifted : lift x (e.writing bytes frames) = ending ⟨e.draft, bytes⟩ frames (x e) := rfl
  cases hx : x e with
  | ok a e' =>
    rw [hx] at lifted
    exact agree_ok hx lifted ⟨rfl, rfl⟩
  | error err e' =>
    rw [hx] at lifted
    exact agree_error hx lifted (h err e' hx) ⟨rfl, rfl, rfl⟩

/-- The bytes with an address at a place. -/
def patched (bytes : List UInt8) (place : Nat) (target : UInt16) : List UInt8 :=
  bytes.take place ++ bytesOf target ++ bytes.drop (place + 2)

/-- A jump that is patched is the jump to the address. -/
theorem patched_jump {i : UInt16 → Instr} {op : UInt8} (hi : ∀ a, (i a).encode = op :: bytesOf a)
    (pre post : List UInt8) (target : UInt16) :
    patched (pre ++ (i 0).encode ++ post) (pre.length + 1) target =
      pre ++ (i target).encode ++ post := by
  have before : (pre ++ (i 0).encode ++ post).take (pre.length + 1) = pre ++ [op] := by
    rw [hi, show pre ++ op :: bytesOf 0 ++ post = (pre ++ [op]) ++ (bytesOf 0 ++ post) by simp]
    exact List.take_left' (by simp)
  have after : (pre ++ (i 0).encode ++ post).drop (pre.length + 1 + 2) = post := by
    rw [hi]
    exact List.drop_left' (by simp [bytesOf])
  rw [patched, before, after, hi]
  simp

/-- Patching a jump forward fixes its address, which is the end of the code. -/
theorem agree_patch (i : UInt16 → Instr) {op : UInt8} {place : Nat} (pre post : List UInt8)
    (hi : ∀ a, (i a).encode = op :: bytesOf a) (hb : bytes = pre ++ (i 0).encode ++ post)
    (hplace : place = pre.length + 1) (ho : e.draft.offset = bytes.length) :
    Agree Emit.address (patch place) e (e.writing bytes frames) fun a e' _ w' =>
      e = e' ∧ w' = e.writing (pre ++ (i a).encode ++ post) frames := by
  have hp : place + 2 ≤ bytes.length := by
    simp only [hb, hplace, hi, bytesOf, List.length_append, List.length_cons, List.length_nil]
    omega
  have jumps (target) : patched bytes place target = pre ++ (i target).encode ++ post := by
    rw [hb, hplace, patched_jump hi]
  by_cases h : bytes.length < 65536
  · have fixed : Emit.address e = .ok bytes.length.toUInt16 e := by
      change (if e.draft.offset < 65536 then _ else _ : Emit UInt16) e = _
      rw [if_pos (ho ▸ h), ho]
      rfl
    have patches : patch place (e.writing bytes frames) =
        .ok () (e.writing (patched bytes place bytes.length.toUInt16) frames) := by
      change (address bytes.length >>= _ : Write Unit) _ = _
      rw [address, if_pos h]
      change (if place + 2 ≤ bytes.length then _ else _ : Write Unit) _ = _
      rw [if_pos hp]
      rfl
    exact agree_ok fixed patches ⟨rfl, congrArg (e.writing · frames) (jumps _)⟩
  · have fails : Emit.address e = .error (.jumpTooFar e.draft.name) e := by
      change (if e.draft.offset < 65536 then _ else _ : Emit UInt16) e = _
      rw [if_neg (ho ▸ h)]
      rfl
    have stops : patch place (e.writing bytes frames) =
        .error (.error (.jumpTooFar e.draft.name)) (e.writing bytes frames) := by
      change (address bytes.length >>= _ : Write Unit) _ = _
      rw [address, if_neg h]
      rfl
    exact agree_error fails stops rfl ⟨rfl, rfl, rfl⟩

/-- Code is as long with one address in a jump as with another one. -/
theorem length_jump {i : UInt16 → Instr} {op : UInt8} (hi : ∀ a, (i a).encode = op :: bytesOf a)
    (pre post : List UInt8) (a b : UInt16) :
    (pre ++ (i a).encode ++ post).length = (pre ++ (i b).encode ++ post).length := by
  simp [hi, bytesOf]

theorem agree_addressOf {offset : Nat} :
    Agree (Emit.addressOf offset) (address offset) e (e.writing bytes frames) fun a e' b w' =>
      a = b ∧ e = e' ∧ w' = e.writing bytes frames := by
  unfold Emit.addressOf address
  split
  · exact agree_ok rfl rfl ⟨rfl, rfl, rfl⟩
  · exact agree_error rfl rfl rfl ⟨rfl, rfl, rfl⟩

end Write

end ByteLisp
