/-
  ByteLisp: what lies on the stack at each instruction.

  Reading instructions one after the other tells which kinds of values an
  activation has on the stack: `Instr.next` is the effect of one instruction on a
  shape, `Instr.scan` that of several. After a jump forward comes code that is
  reached from the test before, so the value of the code that jumps is gone.

  * `Kind` and `Heap.kind`; a value of the kind `plain` is one that programs see;
  * `Instr.Fits`: an instruction can be executed on a shape;
  * `Typed`: all instructions fit, and jumps go where the shape is the same;
  * `Balanced`: well-typed code between two depths, the lemmas on its parts
    (`Balanced.append`, `balanced_branch`, `balanced_loop`) follow the code of
    forms;
  * `Checked`: a whole code object.
-/
import ByteLisp.Proofs.Code.Layout
import ByteLisp.Proofs.Generation.Coded

namespace ByteLisp

/-- What kind of value lies on the stack. -/
inductive Kind where
  | plain
  | cell
  /-- A code object with that number of captured cells. -/
  | code (free : Nat)
deriving Repr, DecidableEq

/-- The kind of a value. -/
def Heap.kind (h : Heap) : Value → Kind
  | .object i =>
    match h.get? i with
    | some (.code c) => .code c.free.size
    | some (.cell _) => .cell
    | _ => .plain
  | _ => .plain

/-- The kind of a constant. -/
def Code.kind (h : Heap) (c : Code) (ix : UInt8) : Kind :=
  h.kind (c.constants[ix.toNat]?.getD (.boolean false))

/-- A constant that code may refer to: code objects and functions are among those given. -/
inductive Admits (A : Handle → Prop) (h : Heap) : Value → Prop
  | number (x : Float) : Admits A h (.number x)
  | boolean (b : Bool) : Admits A h (.boolean b)
  | string {i : Handle} {text : String} (hi : h.get? i = some (.string text)) : Admits A h (.object i)
  | code {i : Handle} {c : Code} (hi : h.get? i = some (.code c)) (ha : A i) : Admits A h (.object i)
  | function {i : Handle} {f : Closure} {c : Code} (hi : h.get? i = some (.function f))
    (ha : A f.code) (hcells : f.cells = #[]) (hc : h.code? f.code = some c) (hs : c.free.size = 0) :
    Admits A h (.object i)

/-- The kinds of the values above the base of an activation, the top first. -/
abbrev Shape := List Kind

/-- The shape of a stack with variables and intermediate values only. -/
def plain (n : Nat) : Shape := List.replicate n .plain

@[simp] theorem length_plain (n : Nat) : (plain n).length = n := List.length_replicate

theorem plain_succ (n : Nat) : plain (n + 1) = .plain :: plain n := rfl

theorem drop_plain (m n : Nat) : (plain n).drop m = plain (n - m) := List.drop_replicate ..

theorem eq_plain_of_mem {n : Nat} {k : Kind} (h : k ∈ plain n) : k = .plain :=
  List.eq_of_mem_replicate h

/-- Cells that are loaded lie on top of the plain values. -/
def loaded (k m : Nat) : Shape := List.replicate k .cell ++ plain m

theorem code_not_mem_loaded {k m j : Nat} : .code j ∉ loaded k m := by
  intro h
  rcases List.mem_append.1 h with h | h
  · exact nomatch List.eq_of_mem_replicate h
  · exact nomatch eq_plain_of_mem h

namespace Instr

/-- The shape at the next instruction; `pos` is the place of this one. -/
def next (h : Heap) (c : Code) (pos : Nat) (σ : Shape) : Instr → Shape
  | .const ix => c.kind h ix :: σ
  | .add | .sub | .mul | .div | .cmp _ => .plain :: σ.drop 2
  | .jump target => if target.toNat ≤ pos then σ else σ.drop 1
  | .jumpIfFalse _ | .pop => σ.drop 1
  | .getGlobal _ | .getLocal _ | .getCell _ => .plain :: σ
  | .scopeExit n => σ.take 1 ++ σ.drop (n.toNat + 1)
  | .call n | .makeFunction n => .plain :: σ.drop (n.toNat + 1)
  | .loadCell _ => .cell :: σ
  | .setGlobal _ | .setLocal _ | .setCell _ | .halt | .ret => σ

/-- The shape at the target of a jump. -/
def taken (σ : Shape) : Instr → Shape
  | .jumpIfFalse _ => σ.drop 1
  | _ => σ

/-- The shape after some instructions, the first of which is at `pos`. -/
def scan (h : Heap) (c : Code) : Nat → Shape → List Instr → Shape
  | _, σ, [] => σ
  | pos, σ, i :: is => scan h c (pos + i.size) (i.next h c pos σ) is

/-- The number of values, all plain, that an instruction needs on top. -/
def takes : Instr → Nat
  | .add | .sub | .mul | .div | .cmp _ => 2
  | .jumpIfFalse _ | .pop | .setGlobal _ | .setLocal _ | .setCell _ | .scopeExit _ => 1
  | .call n => n.toNat + 1
  | _ => 0

/-- The operand of an instruction means something. -/
def Operand (A : Handle → Prop) (W : World) (c : Code) (σ : Shape) : Instr → Prop
  | .const ix => ∃ v, c.constants[ix.toNat]? = some v ∧ Admits A W.heap v
  | .cmp code => (Comparison.ofCode? code).isSome
  | .getGlobal ix | .setGlobal ix => ix.toNat < W.globals.size
  | .getLocal slot | .setLocal slot => σ.reverse[slot.toNat]? = some .plain
  | .scopeExit n => n.toNat < σ.length
  | .getCell ix | .setCell ix | .loadCell ix => ix.toNat < c.cellNames.size
  | .makeFunction n => ∃ m, σ = .code n.toNat :: loaded n.toNat m
  | .halt | .ret => False
  | _ => True

/-- All values are plain where an instruction stands, unless it is one of those that make a
    function: they load its cells and its code object first. -/
def Awaits (σ : Shape) : Instr → Prop
  | .const _ | .loadCell _ => ∃ k m, σ = loaded k m
  | .makeFunction _ => True
  | i => ∃ m, i.takes ≤ m ∧ σ = plain m

/-- An instruction can be executed on a shape. -/
structure Fits (A : Handle → Prop) (W : World) (c : Code) (σ : Shape) (i : Instr) : Prop where
  awaits : i.Awaits σ
  operand : i.Operand A W c σ

end Instr

/-! ## Typed code -/

/-- A place in some code, with the shape there. -/
def Point (h : Heap) (c : Code) (pos : Nat) (σ : Shape) (code : List Instr) (p : Nat) (τ : Shape) :
    Prop :=
  ∃ pre post, code = pre ++ post ∧ p = pos + Instr.total pre ∧ τ = Instr.scan h c pos σ pre

/-- All instructions of some code fit, and all jumps go to points `P`. -/
def Typed (A : Handle → Prop) (W : World) (c : Code) (P : Nat → Shape → Prop) (pos : Nat) (σ : Shape)
    (code : List Instr) : Prop :=
  ∀ pre i post, code = pre ++ i :: post →
    i.Fits A W c (Instr.scan W.heap c pos σ pre) ∧
      ∀ t, i.address? = some t → P t.toNat (i.taken (Instr.scan W.heap c pos σ pre))

section

variable {A : Handle → Prop} {W : World} {h : Heap} {c : Code} {P Q : Nat → Shape → Prop}
  {pos p : Nat} {σ τ : Shape} {code is js : List Instr}

theorem scan_append :
    Instr.scan h c pos σ (is ++ js) =
      Instr.scan h c (pos + Instr.total is) (Instr.scan h c pos σ is) js := by
  induction is generalizing pos σ with
  | nil => rfl
  | cons i is ih =>
    rw [List.cons_append, Instr.scan, ih, Instr.scan, Instr.total_cons, Nat.add_assoc]

theorem scan_trans {υ : Shape} (hi : Instr.scan h c pos σ is = τ)
    (hj : Instr.scan h c (pos + Instr.total is) τ js = υ) : Instr.scan h c pos σ (is ++ js) = υ := by
  rw [scan_append, hi, hj]

theorem point_start : Point h c pos σ code pos σ := ⟨[], code, rfl, rfl, rfl⟩

theorem point_end : Point h c pos σ code (pos + Instr.total code) (Instr.scan h c pos σ code) :=
  ⟨code, [], (List.append_nil _).symm, rfl, rfl⟩

theorem Point.left (hp : Point h c pos σ is p τ) : Point h c pos σ (is ++ js) p τ := by
  obtain ⟨pre, post, rfl, rfl, rfl⟩ := hp
  exact ⟨pre, post ++ js, List.append_assoc .., rfl, rfl⟩

theorem Point.tail {i : Instr} (hp : Point h c (pos + i.size) (i.next h c pos σ) is p τ) :
    Point h c pos σ (i :: is) p τ := by
  obtain ⟨pre, post, rfl, rfl, rfl⟩ := hp
  exact ⟨i :: pre, post, rfl, by rw [Instr.total_cons, Nat.add_assoc], rfl⟩

theorem Point.after {υ : Shape} (hi : Instr.scan h c pos σ is = τ)
    (hp : Point h c (pos + Instr.total is) τ js p υ) : Point h c pos σ (is ++ js) p υ := by
  subst hi
  obtain ⟨pre, post, rfl, rfl, rfl⟩ := hp
  refine ⟨is ++ pre, post, (List.append_assoc ..).symm, ?_, scan_append.symm⟩
  rw [Instr.total_append, Nat.add_assoc]

theorem Typed.mono (ht : Typed A W c P pos σ code) (hPQ : ∀ p τ, P p τ → Q p τ) :
    Typed A W c Q pos σ code := fun pre i post hcode =>
  ⟨(ht pre i post hcode).1, fun t ha => hPQ _ _ ((ht pre i post hcode).2 t ha)⟩

theorem typed_nil : Typed A W c P pos σ [] := fun pre i post h => by simp at h

theorem Typed.cons {i : Instr} (hi : i.Fits A W c σ)
    (ha : ∀ t, i.address? = some t → P t.toNat (i.taken σ))
    (ht : Typed A W c P (pos + i.size) (i.next W.heap c pos σ) is) :
    Typed A W c P pos σ (i :: is) := by
  intro pre j post hcode
  cases pre with
  | nil => cases hcode; exact ⟨hi, ha⟩
  | cons k pre =>
    cases hcode
    exact ht pre j post rfl

theorem Typed.trans (hi : Typed A W c P pos σ is) (hs : Instr.scan W.heap c pos σ is = τ)
    (hj : Typed A W c P (pos + Instr.total is) τ js) : Typed A W c P pos σ (is ++ js) := by
  subst hs
  induction is generalizing pos σ with
  | nil => exact hj
  | cons i is ih =>
    refine .cons (hi [] i is rfl).1 (hi [] i is rfl).2 (ih (fun pre j post h => ?_) ?_)
    · subst h
      exact hi (i :: pre) j post rfl
    · rw [Instr.total_cons, ← Nat.add_assoc] at hj
      exact hj

end

/-! ## Balanced code -/

/-- Well-typed code that starts with `m` plain values and ends with `n`. Its jumps stay in it. -/
structure Balanced (A : Handle → Prop) (W : World) (c : Code) (pos m : Nat) (code : List Instr)
    (n : Nat) : Prop where
  typed : Typed A W c (Point W.heap c pos (plain m) code) pos (plain m) code
  scan : Instr.scan W.heap c pos (plain m) code = plain n

section

variable {A : Handle → Prop} {W : World} {c : Code} {pos l m n : Nat} {code is js : List Instr}

namespace Balanced

theorem nil : Balanced A W c pos m [] m := ⟨typed_nil, rfl⟩

theorem append (hi : Balanced A W c pos l is m)
    (hj : Balanced A W c (pos + Instr.total is) m js n) : Balanced A W c pos l (is ++ js) n where
  typed := .trans (hi.typed.mono fun _ _ hp => hp.left) hi.scan
    (hj.typed.mono fun _ _ hp => .after hi.scan hp)
  scan := scan_trans hi.scan hj.scan

end Balanced

theorem fits_plain {i : Instr} (hi : i.takes ≤ m) (ho : i.Operand A W c (plain m)) :
    i.Fits A W c (plain m) where
  awaits := by
    cases i with
    | const _ | loadCell _ => exact ⟨0, m, rfl⟩
    | makeFunction _ => trivial
    | _ => exact ⟨m, hi, rfl⟩
  operand := ho

/-- One instruction that is no jump. -/
theorem balanced_instr {i : Instr} (hi : i.takes ≤ m) (ho : i.Operand A W c (plain m))
    (ha : i.address? = none) (hn : i.next W.heap c pos (plain m) = plain n) :
    Balanced A W c pos m [i] n where
  typed := .cons (fits_plain hi ho) (fun t ht => by rw [ha] at ht; cases ht) typed_nil
  scan := hn

@[simp] theorem Instr.size_jump (t : UInt16) : (Instr.jump t).size = 3 := rfl

@[simp] theorem Instr.size_jumpIfFalse (t : UInt16) : (Instr.jumpIfFalse t).size = 3 := rfl

theorem takes_call {n : UInt8} : (Instr.call n).takes = n.toNat + 1 := rfl

theorem next_call {h : Heap} {σ : Shape} {n : UInt8} :
    (Instr.call n).next h c pos σ = .plain :: σ.drop (n.toNat + 1) := rfl

theorem next_scopeExit {h : Heap} {σ : Shape} {n : UInt8} :
    (Instr.scopeExit n).next h c pos σ = σ.take 1 ++ σ.drop (n.toNat + 1) := rfl

theorem next_jump_forward {h : Heap} {σ : Shape} {t : UInt16} (ht : pos < t.toNat) :
    (Instr.jump t).next h c pos σ = σ.drop 1 := if_neg (by omega)

theorem next_jump_back {h : Heap} {σ : Shape} {t : UInt16} (ht : t.toNat ≤ pos) :
    (Instr.jump t).next h c pos σ = σ := if_pos ht

/-- A choice: both parts start at the same depth, and end at the same. -/
theorem balanced_branch {asked consequent alternate : List Instr} {otherwise done : UInt16}
    (ht : Balanced A W c pos m asked (m + 1))
    (hc : Balanced A W c (pos + Instr.total asked + 3) m consequent (m + 1))
    (ho : otherwise.toNat = pos + Instr.total asked + 3 + Instr.total consequent + 3)
    (ha : Balanced A W c otherwise.toNat m alternate (m + 1))
    (hd : done.toNat = otherwise.toNat + Instr.total alternate) :
    Balanced A W c pos m
      (asked ++ .jumpIfFalse otherwise :: (consequent ++ .jump done :: alternate)) (m + 1) := by
  have forward : pos + Instr.total asked + 3 + Instr.total consequent < done.toNat := by omega
  have hscan : Instr.scan W.heap c pos (plain m)
      (asked ++ .jumpIfFalse otherwise :: (consequent ++ .jump done :: alternate)) =
        plain (m + 1) := by
    refine scan_trans ht.scan (scan_trans hc.scan ?_)
    rw [Instr.scan, Instr.size_jumpIfFalse, next_jump_forward forward]
    exact ho ▸ ha.scan
  have inConsequent {p τ} (hp : Point W.heap c (pos + Instr.total asked + 3) (plain m)
      (consequent ++ .jump done :: alternate) p τ) : Point W.heap c pos (plain m)
      (asked ++ .jumpIfFalse otherwise :: (consequent ++ .jump done :: alternate)) p τ :=
    .after ht.scan (.tail hp)
  have inAlternate {p τ} (hp : Point W.heap c otherwise.toNat (plain m) alternate p τ) :
      Point W.heap c pos (plain m)
        (asked ++ .jumpIfFalse otherwise :: (consequent ++ .jump done :: alternate)) p τ := by
    refine inConsequent (.after hc.scan (.tail ?_))
    rw [next_jump_forward forward]
    exact ho ▸ hp
  refine ⟨.trans (ht.typed.mono fun _ _ hp => hp.left) ht.scan (.cons ?_ ?_ (.trans
    (hc.typed.mono fun _ _ hp => inConsequent hp.left) hc.scan (.cons ?_ ?_ ?_))), hscan⟩
  · exact fits_plain (Nat.le_add_left ..) trivial
  · rintro _ ⟨⟩
    exact inAlternate point_start
  · exact fits_plain (Nat.zero_le _) trivial
  · rintro _ ⟨⟩
    have hp : Point W.heap c otherwise.toNat (plain m) alternate
        (otherwise.toNat + Instr.total alternate)
        (Instr.scan W.heap c otherwise.toNat (plain m) alternate) := point_end
    rw [ha.scan, ← hd] at hp
    exact inAlternate hp
  · change Typed A W c _ (pos + Instr.total asked + 3 + Instr.total consequent + 3) _ alternate
    rw [← ho, Instr.size_jumpIfFalse, next_jump_forward forward]
    exact ha.typed.mono fun _ _ hp => inAlternate hp

/-- A loop comes back to its start with what was there, and is left from its test. -/
theorem balanced_loop {asked dropped result : List Instr} {start done : UInt16}
    (ht : Balanced A W c pos m asked (m + 1))
    (hb : Balanced A W c (pos + Instr.total asked + 3) m dropped m)
    (hs : start.toNat = pos)
    (hd : done.toNat = pos + Instr.total asked + 3 + Instr.total dropped + 3)
    (hr : Balanced A W c done.toNat m result (m + 1)) :
    Balanced A W c pos m (asked ++ .jumpIfFalse done :: (dropped ++ .jump start :: result))
      (m + 1) := by
  have back : start.toNat ≤ pos + Instr.total asked + 3 + Instr.total dropped := by omega
  have hscan : Instr.scan W.heap c pos (plain m)
      (asked ++ .jumpIfFalse done :: (dropped ++ .jump start :: result)) = plain (m + 1) := by
    refine scan_trans ht.scan (scan_trans hb.scan ?_)
    rw [Instr.scan, Instr.size_jumpIfFalse, next_jump_back back]
    exact hd ▸ hr.scan
  have inBody {p τ} (hp : Point W.heap c (pos + Instr.total asked + 3) (plain m)
      (dropped ++ .jump start :: result) p τ) : Point W.heap c pos (plain m)
      (asked ++ .jumpIfFalse done :: (dropped ++ .jump start :: result)) p τ :=
    .after ht.scan (.tail hp)
  have inResult {p τ} (hp : Point W.heap c done.toNat (plain m) result p τ) :
      Point W.heap c pos (plain m)
        (asked ++ .jumpIfFalse done :: (dropped ++ .jump start :: result)) p τ := by
    refine inBody (.after hb.scan (.tail ?_))
    rw [next_jump_back back]
    exact hd ▸ hp
  refine ⟨.trans (ht.typed.mono fun _ _ hp => hp.left) ht.scan (.cons ?_ ?_ (.trans
    (hb.typed.mono fun _ _ hp => inBody hp.left) hb.scan (.cons ?_ ?_ ?_))), hscan⟩
  · exact fits_plain (Nat.le_add_left ..) trivial
  · rintro _ ⟨⟩
    exact inResult point_start
  · exact fits_plain (Nat.zero_le _) trivial
  · rintro _ ⟨⟩
    rw [hs]
    exact point_start
  · change Typed A W c _ (pos + Instr.total asked + 3 + Instr.total dropped + 3) _ result
    rw [← hd, Instr.size_jumpIfFalse, next_jump_back back]
    exact hr.typed.mono fun _ _ hp => inResult hp

end

/-- A whole code object: its last instruction is given, with the depth there. -/
def Checked (A : Handle → Prop) (W : World) (c : Code) (last : Instr) (n : Nat) : Prop :=
  ∃ code, c.bytes = Instr.bytes (code ++ [last]) ∧ Balanced A W c 0 (c.arity + 1) code n

end ByteLisp
