/-
  ByteLisp: the numbers of a program.

  A numeral of a program has no sign. So no two numbers of a program compare equal
  unless they have the same bits.

  * `Double.Plain`: a double has no negative sign; `Double.Plain.eq_of_beq`: such
    doubles that compare equal are the same;
  * `Double.plain_read`: a row of digits stands for such a double;
  * `Expr.parseProgram_plain` is the result for programs.
-/
import ByteLisp.Proofs.Scope.Collect
import ByteLisp.Proofs.Syntax.Recognition
import Mathlib.Algebra.Group.Nat.Defs

namespace ByteLisp

/-! ## Doubles without a negative sign -/

namespace Double

open Float.Model Float.Model.UnpackedFloat

/-- A number has no negative sign, if it is one. -/
def Unsigned : UnpackedFloat → Prop
  | .infinity s | .zero s | .finite s _ _ _ => s = .positive
  | .notANumber => True

variable {spec : Format} {b b' : BitVec spec.numBits} {u v : UnpackedFloat} {x y : Float}

theorem unpackSign_packComponents {s : Sign} {e : BitVec spec.exponentBits}
    {m : BitVec spec.mantissaBitsWithoutImplicit} :
    unpackSign (packComponents spec s e m) = s.toBitVec := by
  ext i hi
  obtain rfl : i = 0 := by omega
  change (((packComponents spec s e m).extractLsb _ _).cast _)[0] = _
  simp [packComponents, BitVec.getLsbD_append, BitVec.getElem_append]

theorem unpackSign_pack (h : Unsigned u) : unpackSign (UnpackedFloat.pack spec u) = 0#1 := by
  cases u with
  | notANumber => exact unpackSign_packComponents
  | infinity s | zero s =>
    cases h
    exact unpackSign_packComponents
  | finite s m e hm =>
    cases h
    change unpackSign (if _ then _ else if _ then _ else _) = 0#1
    split
    · exact unpackSign_packComponents
    · split
      · exact unpackSign_packComponents
      · exact unpackSign_packComponents

/-- The three parts of the bits determine them. -/
theorem eq_of_parts (hs : unpackSign b = unpackSign b') (he : unpackExponent b = unpackExponent b')
    (hm : unpackMantissa b = unpackMantissa b') : b = b' := by
  refine BitVec.eq_of_getLsbD_eq fun i hi => ?_
  have hnum : spec.numBits = 1 + spec.exponentBits + spec.mantissaBitsWithoutImplicit := rfl
  have bit {lo hi w j : Nat} {hw : hi - lo + 1 = w} (hj : j ≤ hi - lo)
      (h : (b.extractLsb hi lo).cast hw = (b'.extractLsb hi lo).cast hw) :
      b.getLsbD (lo + j) = b'.getLsbD (lo + j) := by
    have := congrArg (·.getLsbD j) h
    simpa [BitVec.getLsbD_extractLsb, hj] using this
  rcases Nat.lt_or_ge i spec.mantissaBitsWithoutImplicit with h₁ | h₁
  · have := bit (j := i) (by omega) hm
    rwa [Nat.zero_add] at this
  rcases Nat.lt_or_ge i (spec.mantissaBitsWithoutImplicit + spec.exponentBits) with h₂ | h₂
  · have := bit (j := i - spec.mantissaBitsWithoutImplicit) (by omega) he
    rwa [Nat.add_sub_cancel' h₁] at this
  · obtain rfl : i = spec.mantissaBitsWithoutImplicit + spec.exponentBits := by omega
    exact bit (j := 0) (Nat.zero_le _) hs

theorem toNat_cons_one {n : Nat} (m : BitVec n) : (1#1 ++ m).toNat = 2 ^ n + m.toNat := by
  rw [BitVec.toNat_append, ← Nat.shiftLeft_add_eq_or_of_lt m.isLt, Nat.shiftLeft_eq]
  simp

/-- What the parts of the bits stand for, without a negative sign. -/
theorem unpack_cases (hb : unpackSign b = 0#1) :
    (UnpackedFloat.unpack spec b = .infinity .positive ∧ unpackExponent b = -1#_ ∧ unpackMantissa b = 0#_) ∨
      UnpackedFloat.unpack spec b = .notANumber ∨
      (UnpackedFloat.unpack spec b = .zero .positive ∧ unpackExponent b = 0#_ ∧ unpackMantissa b = 0#_) ∨
      ∃ k e hk, UnpackedFloat.unpack spec b = .finite .positive k e hk ∧
        k = (if (unpackExponent b).toNat = 0 then 0 else 2 ^ spec.mantissaBitsWithoutImplicit) +
          (unpackMantissa b).toNat ∧
        e = max ((unpackExponent b).toNat : Int) 1 -
          (spec.exponentBias + spec.mantissaBitsWithoutImplicit) := by
  unfold UnpackedFloat.unpack
  rw [hb]
  dsimp only
  by_cases he : unpackExponent b = -1#_
  · rw [if_pos he]
    by_cases hm : unpackMantissa b = 0#_
    · rw [if_pos hm]
      exact Or.inl ⟨rfl, he, hm⟩
    · rw [if_neg hm]
      exact Or.inr (Or.inl rfl)
  rw [if_neg he]
  refine Or.inr (Or.inr ?_)
  by_cases he : unpackExponent b = 0#_
  · rw [if_pos he]
    have hzero : (unpackExponent b).toNat = 0 := by simp [he]
    by_cases hm : unpackMantissa b = 0#_
    · rw [dif_pos hm]
      exact Or.inl ⟨rfl, he, hm⟩
    · rw [dif_neg hm]
      have hm : 0 < (unpackMantissa b).toNat := Nat.pos_of_ne_zero fun h => hm (BitVec.eq_of_toNat_eq h)
      refine Or.inr ⟨_, _, hm, rfl, ?_, ?_⟩
      · rw [if_pos hzero, Nat.zero_add]
      · omega
  · rw [if_neg he]
    have he : (unpackExponent b).toNat ≠ 0 := fun h => he (BitVec.eq_of_toNat_eq h)
    have hm := toNat_cons_one (unpackMantissa b)
    refine Or.inr ⟨_, _, hm ▸ Nat.add_pos_left (Nat.two_pow_pos _) _, rfl, ?_, ?_⟩
    · rw [if_neg he, hm]
    · omega

theorem unsigned_unpack (hb : unpackSign b = 0#1) : Unsigned (UnpackedFloat.unpack spec b) := by
  obtain ⟨h, -⟩ | h | ⟨h, -⟩ | ⟨_, _, _, h, -⟩ := unpack_cases hb <;> rw [h] <;> trivial

/-- Two doubles without a negative sign that compare equal have the same bits. -/
theorem eq_of_compare (hb : unpackSign b = 0#1) (hb' : unpackSign b' = 0#1)
    (h : (UnpackedFloat.unpack spec b).compare (UnpackedFloat.unpack spec b') = some .eq) : b = b' := by
  suffices unpackExponent b = unpackExponent b' ∧ unpackMantissa b = unpackMantissa b' from
    eq_of_parts (hb.trans hb'.symm) this.1 this.2
  obtain ⟨h₁, he, hm⟩ | h₁ | ⟨h₁, he, hm⟩ | ⟨k, e, hk, h₁, hk₁, he₁⟩ := unpack_cases hb <;>
    obtain ⟨h₂, he', hm'⟩ | h₂ | ⟨h₂, he', hm'⟩ | ⟨k', e', hk', h₂, hk₂, he₂⟩ := unpack_cases hb' <;>
    rw [h₁, h₂] at h <;> try cases h
  · exact ⟨he.trans he'.symm, hm.trans hm'.symm⟩
  · exact ⟨he.trans he'.symm, hm.trans hm'.symm⟩
  · have hlt := (unpackMantissa b).isLt
    have hlt' := (unpackMantissa b').isLt
    have h := Option.some.inj h
    simp only [Ordering.then_eq_eq, Std.LawfulEqCmp.compare_eq_iff_eq] at h
    rw [← BitVec.toNat_inj, ← BitVec.toNat_inj]
    split at hk₁ <;> split at hk₂ <;> omega

/-- A double has no negative sign. -/
def Plain (x : Float) : Prop := @unpackSign .binary64 x.toModel.toBits.toBitVec = 0#1

instance (x : Float) : Decidable (Plain x) := inferInstanceAs (Decidable (_ = _))

theorem Plain.eq_of_beq (hx : Plain x) (hy : Plain y) (h : (x == y) = true) : x = y := by
  obtain ⟨⟨⟨b⟩, _⟩⟩ := x
  obtain ⟨⟨⟨b'⟩, _⟩⟩ := y
  cases @eq_of_compare .binary64 b b' hx hy (LawfulBEq.eq_of_beq h)
  rfl

theorem unsigned_dite {p : Prop} [Decidable p] {u : p → UnpackedFloat} {v : ¬p → UnpackedFloat}
    (hu : ∀ h, Unsigned (u h)) (hv : ∀ h, Unsigned (v h)) : Unsigned (if h : p then u h else v h) := by
  by_cases h : p
  · rw [dif_pos h]
    exact hu h
  · rw [dif_neg h]
    exact hv h

theorem unsigned_ite {p : Prop} [Decidable p] (hu : Unsigned u) (hv : Unsigned v) :
    Unsigned (if p then u else v) :=
  unsigned_dite (fun _ => hu) fun _ => hv

theorem unsigned_roundWithAccuracy {m : Nat} {e : Int} {a : Accuracy} :
    Unsigned (roundWithAccuracy spec .positive m e a) := by
  unfold roundWithAccuracy
  exact unsigned_dite (fun _ => rfl) fun _ => rfl

theorem unsigned_mul (hu : Unsigned u) (hv : Unsigned v) : Unsigned (UnpackedFloat.mul spec u v) := by
  cases u <;> cases v <;> cases hu <;> cases hv <;> first | trivial | exact unsigned_roundWithAccuracy

theorem unsigned_ofNat (n : Nat) : Unsigned (UnpackedFloat.ofNat spec n) := by
  unfold UnpackedFloat.ofNat UnpackedFloat.ofInt UnpackedFloat.normalize
  split
  · next h =>
    have := Int.compare_eq_lt.1 h
    omega
  · rfl
  · exact unsigned_roundWithAccuracy

theorem plain_pack (hu : Unsigned u) : Plain (.ofModel (Float.Model.pack u)) := unpackSign_pack hu

theorem plain_mul (hx : Plain x) (hy : Plain y) : Plain (x * y) :=
  plain_pack (unsigned_mul (unsigned_unpack hx) (unsigned_unpack hy))

theorem plain_ofNat (n : Nat) : Plain (.ofModel (Float.Model.ofNat n)) := plain_pack (unsigned_ofNat n)

theorem unsigned_ofScientific (n : Nat) : Unsigned (UnpackedFloat.ofScientific spec n 0) := by
  unfold UnpackedFloat.ofScientific
  refine unsigned_dite (fun _ => rfl) fun hn => unsigned_ite rfl (unsigned_ite rfl ?_)
  rw [if_pos (Int.le_refl 0)]
  exact unsigned_roundWithAccuracy

/-- The double nearest to a row of digits has no negative sign. -/
theorem plain_read (digits : List Char) : Plain (Numeral.read digits) := by
  unfold Numeral.read Float.ofScientific
  split
  · have hlt : 0 < Float.exactlyRepresentablePowersOfTen.size := by decide
    have one : Plain Float.exactlyRepresentablePowersOfTen[0] := by decide +revert
    exact plain_mul (plain_ofNat _) one
  · exact plain_pack (unsigned_ofScientific _)

end Double

/-! ## Programs -/

open Double

mutual

/-- No number of an expression has a negative sign. -/
def Expr.Plain : Expr → Prop
  | .number x => Double.Plain x
  | .list items => Expr.AllPlain items
  | _ => True

/-- No number of some expressions has a negative sign. -/
def Expr.AllPlain : List Expr → Prop
  | [] => True
  | e :: es => e.Plain ∧ Expr.AllPlain es

end

theorem Expr.allPlain_append {es es' : List Expr} :
    Expr.AllPlain (es ++ es') ↔ Expr.AllPlain es ∧ Expr.AllPlain es' := by
  induction es with
  | nil => simp [Expr.AllPlain]
  | cons e es ih => simp [Expr.AllPlain, ih, and_assoc]

theorem Token.plain_atom (t : Token) : t.atom.Plain := by
  unfold Token.atom
  split
  · exact plain_read _
  · trivial
  · trivial

namespace ParseTree

mutual

/-- What is derived has plain numbers only. -/
theorem plain_expr (d : ParseTree) : d.expr.Plain := by
  cases d with
  | atom t ht => exact t.plain_atom
  | list l hl ds r hr => exact allPlain_exprs ds

theorem allPlain_exprs (ds : List ParseTree) : Expr.AllPlain (exprs ds) := by
  cases ds with
  | nil => trivial
  | cons d ds => exact ⟨plain_expr d, allPlain_exprs ds⟩

end

end ParseTree

namespace Form

mutual

/-- The numbers of a form are those of the expression that it stands for. -/
theorem plain_of_mem_collect {f : Form} {s : ScopeId} (h : f.toExpr.Plain) :
    ∀ x ∈ f.collect number? s, Double.Plain x := by
  cases f with
  | number x => exact List.forall_mem_singleton.2 h
  | string text | boolean b | reference name binding | malformed e why => nofun
  | block b fs => simpa [collect, number?] using plain_of_mem_collectAll h.2
  | declare name init | assign name _ init =>
    obtain ⟨-, -, hi, -⟩ := h
    simpa [collect, number?] using plain_of_mem_collect hi
  | ifThen test thn | whileLoop test thn | operation op test thn =>
    obtain ⟨-, ht, hc, -⟩ := h
    simp only [collect, number?, List.append_nil, List.forall_mem_append]
    exact ⟨plain_of_mem_collect ht, plain_of_mem_collect hc⟩
  | ifElse test thn els =>
    obtain ⟨-, ht, hc, ha, -⟩ := h
    simp only [collect, number?, List.append_nil, List.forall_mem_append]
    exact ⟨⟨plain_of_mem_collect ht, plain_of_mem_collect hc⟩, plain_of_mem_collect ha⟩
  | forLoop init test modifier body =>
    obtain ⟨-, hi, ht, hm, hb, -⟩ := h
    simp only [collect, number?, List.append_nil, List.forall_mem_append]
    exact ⟨plain_of_mem_collect hi, plain_of_mem_collect ht, plain_of_mem_collect hb,
      plain_of_mem_collect hm⟩
  | define name f params body =>
    obtain ⟨-, -, -, hb, -⟩ := h
    simpa [collect, number?] using plain_of_mem_collect hb
  | lambda label f params body =>
    obtain ⟨-, -, hb, -⟩ := h
    simpa [collect, number?] using plain_of_mem_collect hb
  | call callee args =>
    simp only [collect, number?, List.append_nil, List.forall_mem_append]
    exact ⟨plain_of_mem_collect h.1, plain_of_mem_collectAll h.2⟩

theorem plain_of_mem_collectAll {fs : List Form} {s : ScopeId} (h : Expr.AllPlain (toExprs fs)) :
    ∀ x ∈ collectAll number? s fs, Double.Plain x := by
  cases fs with
  | nil => simp [collectAll]
  | cons f fs =>
    rw [collectAll, List.forall_mem_append]
    exact ⟨plain_of_mem_collect h.1, plain_of_mem_collectAll h.2⟩

end

end Form

theorem Expr.plain_numbers {e : Expr} (h : e.Plain) :
    ∀ x ∈ (Form.ofResolved "lambda" e.resolveProgram.1).numbers, Double.Plain x :=
  Form.plain_of_mem_collect (by rwa [Form.toExpr_ofResolved, Resolved.erase_resolveProgram])

/-- No number of a program has a negative sign. -/
theorem Expr.parseProgram_plain {src : List Char} {e : Expr} (h : parseProgram src = .ok e) : e.Plain := by
  obtain ⟨ds, -, rfl⟩ := parseProgram_ok_iff.1 h
  exact ⟨trivial, ParseTree.allPlain_exprs ds⟩

end ByteLisp
