/-
  ByteLisp: the depth of the stack at each place of a code object.

  * `Code.depthAt` is the number of values above the base at a place, as it
    follows from the bytes of the code object alone;
  * `depthAt_eq`: it is the length of the shape that typing gives;
  * `Code.gatheredAt` is the number of values on top from which a function is
    about to be made, again from the bytes alone; `gatheredAt_eq` says the same
    of the shape.
-/
import ByteLisp.Proofs.Code.Shape

namespace ByteLisp

namespace Instr

/-- The number of values at the next instruction; there are `d` at this one, which is at `pos`. -/
def depthAfter (pos d : Nat) : Instr → Nat
  | .const _ | .getGlobal _ | .getLocal _ | .getCell _ | .loadCell _ => d + 1
  | .add | .sub | .mul | .div | .cmp _ => d - 2 + 1
  | .jump target => if target.toNat ≤ pos then d else d - 1
  | .jumpIfFalse _ | .pop => d - 1
  | .scopeExit n => d - n.toNat
  | .call n | .makeFunction n => d - (n.toNat + 1) + 1
  | .setGlobal _ | .setLocal _ | .setCell _ | .halt | .ret => d

/-- The number of values after some instructions, each with its place. -/
def depthOver (d : Nat) : List (Nat × Instr) → Nat
  | [] => d
  | (pos, i) :: is => depthOver (i.depthAfter pos d) is

end Instr

/-- The number of values above the base at a place: at the start there are the function and its
    arguments, and each instruction before the place has its effect. -/
def Code.depthAt (c : Code) (pos : Nat) : Nat :=
  match c.instrs with
  | .ok is => Instr.depthOver (c.arity + 1) (is.takeWhile fun (p, _) => p < pos)
  | .error _ => 0

namespace Instr

/-- The number of cells loaded right before the next instruction; it is `k` at this one. -/
def loadedAfter (k : Nat) : Instr → Nat
  | .loadCell _ => k + 1
  | _ => 0

/-- The number of cells that the last of some instructions load. -/
def loadedOver (k : Nat) : List (Nat × Instr) → Nat
  | [] => k
  | (_, i) :: is => loadedOver (i.loadedAfter k) is

/-- The number of operands of `makeFunction` on the stack at an instruction: it takes them all, and
    before it there are the cells that have been loaded. -/
def gathered (k : Nat) : Instr → Nat
  | .makeFunction n => n.toNat + 1
  | _ => k

end Instr

/-- The number of values on top, at a place, from which a function is about to be made. -/
def Code.gatheredAt (c : Code) (pos : Nat) : Nat :=
  match c.instrs, Instr.fetch c.bytes pos with
  | .ok is, .ok i => i.gathered (Instr.loadedOver 0 (is.takeWhile fun (p, _) => p < pos))
  | _, _ => 0

variable {A : Handle → Prop} {W : World} {c : Code} {P : Nat → Shape → Prop} {pos p : Nat}
  {σ : Shape} {i : Instr} {pre post : List Instr}

theorem Instr.Fits.length_next (hf : i.Fits A W c σ) :
    (i.next W.heap c pos σ).length = i.depthAfter pos σ.length := by
  cases i with
  | scopeExit n =>
    have hlt : n.toNat < σ.length := hf.operand
    rw [next, depthAfter, List.length_append, List.length_take, List.length_drop]
    omega
  | jump t =>
    rw [next, depthAfter]
    split
    · rfl
    · exact List.length_drop
  | _ => simp [next, depthAfter]

theorem Typed.depthOver_placed (ht : Typed A W c P pos σ (pre ++ post)) :
    Instr.depthOver σ.length (Instr.placed pos pre) = (Instr.scan W.heap c pos σ pre).length := by
  induction pre generalizing pos σ with
  | nil => rfl
  | cons i pre ih =>
    have hi : i.Fits A W c σ := (ht [] i (pre ++ post) rfl).1
    rw [Instr.placed, Instr.depthOver, ← hi.length_next]
    exact ih fun pre' j post' h => ht (i :: pre') j post' (congrArg (i :: ·) h)

theorem takeWhile_placed :
    (Instr.placed pos (pre ++ post)).takeWhile (fun x => x.1 < pos + Instr.total pre) =
      Instr.placed pos pre := by
  induction pre generalizing pos with
  | nil => cases post <;> simp [Instr.placed]
  | cons i pre ih =>
    have hlt : pos < pos + (i.size + Instr.total pre) := by
      have := i.size_pos
      omega
    rw [List.cons_append, Instr.placed, Instr.total_cons, List.takeWhile_cons_of_pos (by simpa using hlt),
      ← Nat.add_assoc, ih, Instr.placed]

theorem takeWhile_instrs {code : List Instr} (hb : c.bytes = Instr.bytes code) (hc : code = pre ++ post) :
    ∃ is, c.instrs = .ok is ∧
      is.takeWhile (fun (p, _) => p < Instr.total pre) = Instr.placed 0 pre := by
  subst hc
  have h : (Instr.placed 0 (pre ++ post)).takeWhile (fun x => x.1 < 0 + Instr.total pre) =
      Instr.placed 0 pre := takeWhile_placed
  rw [Nat.zero_add] at h
  exact ⟨_, Code.instrs_eq_placed hb, h⟩

/-- At each place of well-typed code, and at its end, the depth is the length of the shape. -/
theorem depthAt_eq {last : Instr} {n : Nat} {code : List Instr}
    (hb : c.bytes = Instr.bytes (code ++ [last])) (hc : Balanced A W c 0 (c.arity + 1) code n)
    (hp : Point W.heap c 0 (plain (c.arity + 1)) code p σ) : c.depthAt p = σ.length := by
  obtain ⟨pre, post, rfl, rfl, rfl⟩ := hp
  obtain ⟨is, his, htake⟩ := takeWhile_instrs hb (List.append_assoc pre post [last])
  rw [Code.depthAt, his, Nat.zero_add]
  dsimp only
  rw [htake, ← hc.typed.depthOver_placed, length_plain]

/-! ## Operands of a function -/

/-- The number of cells on top. -/
def Shape.cells (σ : Shape) : Nat := (σ.takeWhile (· = .cell)).length

@[simp] theorem cells_cons_cell : Shape.cells (.cell :: σ) = σ.cells + 1 := by
  simp [Shape.cells]

theorem cells_cons {k : Kind} (hk : k ≠ .cell) : Shape.cells (k :: σ) = 0 := by
  simp [Shape.cells, hk]

@[simp] theorem cells_plain (n : Nat) : (plain n).cells = 0 := by
  cases n with
  | zero => rfl
  | succ n => exact cells_cons nofun

@[simp] theorem cells_loaded (k n : Nat) : (loaded k n).cells = k := by
  induction k with
  | zero => exact cells_plain n
  | succ k ih => rw [loaded, List.replicate_succ, List.cons_append, cells_cons_cell, ← loaded, ih]

/-- A constant is no cell. -/
theorem Admits.kind_ne_cell {h : Heap} {v : Value} (ha : Admits A h v) : h.kind v ≠ .cell := by
  cases ha with
  | number | boolean => nofun
  | string hi | code hi | function hi => simp [Heap.kind, hi]

/-- Only `loadCell` leaves a cell on top. -/
theorem Instr.Fits.cells_next (hf : i.Fits A W c σ) :
    (i.next W.heap c pos σ).cells = i.loadedAfter σ.cells := by
  have ha := hf.awaits
  cases i with
  | loadCell ix => exact cells_cons_cell
  | const ix =>
    obtain ⟨v, hv, hadm⟩ := hf.operand
    refine cells_cons ?_
    rw [Code.kind, hv]
    exact hadm.kind_ne_cell
  | makeFunction n => exact cells_cons nofun
  | jump t =>
    obtain ⟨m, -, rfl⟩ := ha
    rw [next, drop_plain]
    split <;> exact cells_plain _
  | jumpIfFalse _ | pop =>
    obtain ⟨m, -, rfl⟩ := ha
    rw [next, drop_plain]
    exact cells_plain _
  | scopeExit n =>
    obtain ⟨_ | m, hm, rfl⟩ := ha
    · cases hm
    · exact cells_cons nofun
  | setGlobal _ | setLocal _ | setCell _ | halt | ret =>
    obtain ⟨m, -, rfl⟩ := ha
    exact cells_plain m
  | _ => exact cells_cons nofun

theorem Typed.loadedOver_placed (ht : Typed A W c P pos σ (pre ++ post)) :
    Instr.loadedOver σ.cells (Instr.placed pos pre) = (Instr.scan W.heap c pos σ pre).cells := by
  induction pre generalizing pos σ with
  | nil => rfl
  | cons i pre ih =>
    have hi : i.Fits A W c σ := (ht [] i (pre ++ post) rfl).1
    rw [Instr.placed, Instr.loadedOver, ← hi.cells_next]
    exact ih fun pre' j post' h => ht (i :: pre') j post' (congrArg (i :: ·) h)

/-- At each instruction of well-typed code, what is gathered are the cells on top of the shape, or
    the operands of this instruction. -/
theorem gatheredAt_eq {last : Instr} {n : Nat} {code : List Instr}
    (hb : c.bytes = Instr.bytes (code ++ [last])) (hc : Balanced A W c 0 (c.arity + 1) code n)
    (hcode : code = pre ++ i :: post) : c.gatheredAt (Instr.total pre) =
      i.gathered (Instr.scan W.heap c 0 (plain (c.arity + 1)) pre).cells := by
  subst hcode
  obtain ⟨is, his, htake⟩ := takeWhile_instrs hb (List.append_assoc pre (i :: post) [last])
  have hfetch : Instr.fetch c.bytes (Instr.total pre) = .ok i := by
    rw [hb, List.append_assoc]
    exact Instr.fetch_bytes pre i _
  rw [Code.gatheredAt, his, hfetch]
  dsimp only
  rw [htake, ← hc.typed.loadedOver_placed, cells_plain]

end ByteLisp
