/-
  ByteLisp: the code that makes closures.

  A function that captures variables is made from its code object and the cells of
  these variables, which the instructions before push.

  * `Gathers`: some instructions end with those that push the cells of the captured
    names of a code object, in their order, and the code object;
  * `Closing`: such instructions stand before each `makeFunction`; `Coded.closing`
    proves it by induction on the code;
  * `Compiled.makesClosures` and `CompiledMain.makesClosures` are the results for
    code objects.
-/
import ByteLisp.Proofs.Generation.Typing
import ByteLisp.Proofs.Machine.Store

namespace ByteLisp

variable {T : Scopes} {W W' : World} {c : Code} {s : ScopeId} {v : View} {n : UInt8}
  {pre code is js : List Instr}

/-- The last instructions push the cells whose names a code object with `n` captured names lists, in
    their order, and then this code object. -/
def Gathers (W : World) (c : Code) (n : UInt8) (pre : List Instr) : Prop :=
  ∃ (before : List Instr) (cells : List UInt8) (ix : UInt8) (h : Handle) (c' : Code),
     pre = before ++ cells.map .loadCell ++ [.const ix] ∧
    c.constants[ix.toNat]? = some (.object h) ∧ W.heap.code? h = some c' ∧
      n ≠ 0 ∧ n.toNat = c'.free.size ∧ cells.map (fun l => c.cellNames[l.toNat]?) = c'.free.toList.map some

/-- Such instructions stand before each `makeFunction`. -/
def Closing (W : World) (c : Code) (code : List Instr) : Prop :=
  ∀ pre n post, code = pre ++ .makeFunction n :: post → Gathers W c n pre

theorem Gathers.append_left (h : Gathers W c n pre) (is : List Instr) : Gathers W c n (is ++ pre) := by
  obtain ⟨before, cells, ix, i, c', rfl, h⟩ := h
  exact ⟨is ++ before, cells, ix, i, c', by simp, h⟩

theorem Gathers.later (h : Gathers W c n pre) (hl : W.Leads W') : Gathers W' c n pre := by
  obtain ⟨before, cells, ix, i, c', hpre, hx, hc, h⟩ := h
  exact ⟨before, cells, ix, i, c', hpre, hx, hl.code? hc, h⟩

theorem closing_of_not_mem (h : ∀ n, .makeFunction n ∉ code) : Closing W c code := by
  rintro pre n post rfl
  exact absurd (List.mem_append_right pre List.mem_cons_self) (h n)

theorem Closing.append (hi : Closing W c is) (hj : Closing W c js) : Closing W c (is ++ js) := by
  intro pre n post h
  rcases List.append_eq_append_iff.1 h with ⟨mid, rfl, hmid⟩ | ⟨mid, rfl, hmid⟩
  · exact (hj mid n post hmid).append_left is
  · cases mid with
    | nil => simpa using (hj [] n post hmid.symm).append_left pre
    | cons i mid =>
      cases hmid
      exact hi pre n mid rfl

/-! ## Parts of the code -/

theorem closing_exits {k : Nat} (h : Exits k code) : Closing W c code := by
  refine closing_of_not_mem fun n => ?_
  cases h <;> simp

theorem closing_declares {name : String} {direct : Bool} {o : Outcome}
    (h : Declares T W s v name direct o code) : Closing W c code := by
  refine closing_of_not_mem fun n => ?_
  cases h <;> simp

theorem closing_moves {sc : Scope} {slot : Nat} {names : List String} (h : Moves sc v slot names code) :
    Closing W c code := by
  refine closing_of_not_mem fun n => ?_
  induction h with
  | nil => simp
  | stay _ _ ih => exact ih
  | move _ _ _ _ ih => simpa using ih

theorem closing_get (place : Place) : Closing W c [place.get] := by
  refine closing_of_not_mem fun n => ?_
  cases place <;> simp [Place.get]

theorem closing_set (place : Place) : Closing W c [place.set] := by
  refine closing_of_not_mem fun n => ?_
  cases place <;> simp [Place.set]

theorem closing_drop (o : Outcome) : Closing W c o.drop := by
  refine closing_of_not_mem fun n => ?_
  cases o <;> simp [Outcome.drop]

theorem closing_leave (o : Outcome) : Closing W c o.leave := by
  refine closing_of_not_mem fun n => ?_
  cases o <;> simp [Outcome.leave]

theorem closing_const (ix : UInt8) : Closing W c [.const ix] := closing_of_not_mem (by simp)

/-- What is loaded are the cells with the given names. -/
theorem Loads.cells {f : ScopeId} {pos : Nat} {names : List String} {as : List Access}
    (h : Loads c s v f pos names code as) (hv : v.Valid c) :
    ∃ cells : List UInt8, code = cells.map .loadCell ∧
      cells.map (fun l => c.cellNames[l.toNat]?) = names.map some := by
  induction h with
  | nil => exact ⟨[], rfl, rfl⟩
  | @cons pos name names ix code as hcell _ ih =>
    obtain ⟨cells, rfl, hnames⟩ := ih
    exact ⟨ix :: cells, rfl, by rw [List.map_cons, List.map_cons, hnames, hv.cellName hcell]⟩

theorem closing_made {f : ScopeId} {pos : Nat} {as : List Access} {c' : Code} {h : Handle} {ix : UInt8}
    (hv : v.Valid c) (hl : Loads c s v f pos c'.free.toList code as)
    (hx : c.constants[ix.toNat]? = some (.object h)) (hc : W.heap.code? h = some c')
    (hne : n ≠ 0) (hn : n.toNat = c'.free.size) : Closing W c (code ++ [.const ix, .makeFunction n]) := by
  obtain ⟨cells, rfl, hnames⟩ := hl.cells hv
  intro pre k post hcode
  have hcode : cells.map .loadCell ++ [.const ix] ++ [.makeFunction n] = pre ++ .makeFunction k :: post := by
    simpa using hcode
  have hloads : ∀ k, Instr.makeFunction k ∉ cells.map .loadCell ++ [.const ix] := by simp
  rcases List.append_eq_append_iff.1 hcode with ⟨mid, rfl, hmid⟩ | ⟨mid, hpre, hmid⟩
  · cases mid with
    | nil =>
      cases hmid
      exact ⟨[], cells, ix, h, c', by simp, hx, hc, hne, hn, hnames⟩
    | cons i mid => simp at hmid
  · cases mid with
    | nil =>
      cases hmid
      exact ⟨[], cells, ix, h, c', by simpa using hpre.symm, hx, hc, hne, hn, hnames⟩
    | cons i mid =>
      cases hmid
      exact absurd (hpre ▸ List.mem_append_right pre List.mem_cons_self) (hloads k)

/-! ## All code -/

theorem Coded.closing {task : Task} {pos : Nat} {as : List Access}
    (h : Coded T W c s task v pos code as) : v.Valid c → Closing W c code := by
  have single {c : Code} {i : Instr} (hi : ∀ n, i ≠ .makeFunction n) : Closing W c [i] :=
    closing_of_not_mem fun n hm => hi n (List.mem_singleton.1 hm).symm
  induction h with
  | number | string | boolean | constant => exact fun _ => closing_const _
  | reference => exact fun _ => closing_get _
  | block hu _ hx ih => exact fun hv => (ih (hv.enter hu)).append (closing_exits hx)
  | declare _ hd ih | define _ hd ih => exact fun hv => (ih hv).append (closing_declares hd)
  | assign _ _ ih => exact fun hv => (ih hv).append (closing_set _)
  | ifThen _ ih | whileLoop _ ih | lambda _ ih | empty _ ih => exact ih
  | ifElse _ _ _ _ _ iht ihc iha =>
    intro hv
    rw [List.append_assoc, List.cons_append]
    exact (iht hv).append ((single (by simp)).append ((ihc hv).append ((single (by simp)).append (iha hv))))
  | @forLoop c s direct init test modifier body o v pos first code as bs _ _ ihi ihl =>
    intro hv
    refine (((ihi hv).append (closing_drop o)).append (ihl (hv.kept o))).append ?_
    split
    · exact closing_of_not_mem (by simp)
    · exact single (by simp)
  | @operation c s direct op x y v pos first second as bs _ _ ihx ihy =>
    intro hv
    refine ((ihx hv).append (ihy (hv.push 1))).append (single ?_)
    cases op <;> simp [Emit.operator]
  | call _ _ _ ihf iha => exact fun hv => ((ihf hv).append (iha (hv.push 1))).append (single (by simp))
  | @last c s f o v pos code as _ ih => exact fun hv => (ih hv).append (closing_leave o)
  | @next c s f g fs o k v pos code rest as bs _ _ ihf ihr =>
    exact fun hv => ((ihf hv).append (closing_drop o)).append (ihr (hv.kept o))
  | noArgs | noDrops => exact fun _ => closing_of_not_mem (by simp)
  | args _ _ ihf ihr => exact fun hv => (ihf hv).append (ihr (hv.push 1))
  | drops _ _ ihf ihr => exact fun hv => (ihf hv).append ((single (by simp)).append (ihr hv))
  | loop _ _ _ _ _ iht ihb ihr =>
    intro hv
    rw [List.append_assoc, List.cons_append]
    exact (iht hv).append ((single (by simp)).append ((ihb hv).append ((single (by simp)).append (ihr hv))))
  | made _ hcode hl h hn hne =>
    exact fun hv => closing_made hv hl (h.object (string?_of_code hcode)) hcode hne hn
  | finishBlock hu _ hx ih => exact fun hv => (ih (hv.enter hu)).append (closing_exits hx)
  | finish _ _ ih => exact fun hv => (ih hv).append (single (by simp))
  | code _ _ _ _ _ hm _ _ ih =>
    exact fun hv => ((closing_moves hm).append (ih hv)).append (single (by simp))

/-- The cells of a closure and its code are pushed before each `makeFunction` of a code object. -/
def Code.MakesClosures (W : World) (c : Code) : Prop :=
  ∃ code, c.bytes = Instr.bytes code ∧ Closing W c code

theorem Compiled.makesClosures (h : Compiled T W c) : c.MakesClosures W := by
  obtain ⟨f, name, params, body, v, code, as, h⟩ := h
  have hcode := h
  cases h with
  | code _ _ hfree hown hview _ _ hb =>
    exact ⟨_, hb, hcode.closing (hview ▸ View.valid_draftOf hfree hown)⟩

theorem CompiledMain.makesClosures {program : Form} (h : CompiledMain T W program c) :
    c.MakesClosures W := by
  obtain ⟨-, -, -, code, as, h, hb⟩ := h
  exact ⟨_, hb, (h.closing View.valid_start).append (closing_of_not_mem (by simp))⟩

theorem Code.MakesClosures.later (h : c.MakesClosures W) (hl : W.Leads W') : c.MakesClosures W' := by
  obtain ⟨code, hb, h⟩ := h
  exact ⟨code, hb, fun pre n post hcode => (h pre n post hcode).later hl⟩

end ByteLisp
