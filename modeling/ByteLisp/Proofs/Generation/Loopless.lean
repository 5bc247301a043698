/-
  ByteLisp: code without loops.

  * `Form.loops` are the loops in a program;
  * `Code.Onward`: jumps lead forward, and constants lead to code of a given kind;
  * `Coded.onward`: so it is for the code of a part of a program without loops, where the code
    that constants lead to is that of such parts (`Straight`);
  * `Straight.checked` and `CompiledMain.restrict` are the results for code objects.
-/
import ByteLisp.Proofs.Generation.Idle
import ByteLisp.Proofs.Generation.Traced
import ByteLisp.Proofs.Generation.Typing

namespace ByteLisp

namespace Form

/-- The loop that a form is. -/
def loop? (_ : ScopeId) : Form → List Form
  | .whileLoop test body => [.whileLoop test body]
  | .forLoop init test modifier body => [.forLoop init test modifier body]
  | _ => []

/-- The loops of a program. -/
def loops (program : Form) : List Form := program.collect loop? Scopes.root

end Form

/-- A program without any loop. -/
def Expr.LoopFree (e : Expr) : Prop := (Form.ofResolved "lambda" e.resolveProgram.1).loops = []

/-! ## Jumps and constants -/

/-- All jumps of some instructions, the first of which is at `pos`, lead forward. -/
def Instr.Forward (pos : Nat) (code : List Instr) : Prop :=
  ∀ p i, (p, i) ∈ placed pos code → ∀ t, i.address? = some t → p < t.toNat

theorem Instr.placed_append (pos : Nat) (is js : List Instr) :
    placed pos (is ++ js) = placed pos is ++ placed (pos + total is) js := by
  induction is generalizing pos with
  | nil => rfl
  | cons i is ih => rw [List.cons_append, placed, ih, placed, total_cons, List.cons_append, Nat.add_assoc]

/-- Jumps lead forward, and the constants that are pushed lead to code in `A` only. -/
structure Code.Onward (A : Handle → Prop) (W : World) (c : Code) (pos : Nat) (code : List Instr) :
    Prop where
  forward : Instr.Forward pos code
  constants : ∀ ix, .const ix ∈ code → ∃ u, c.constants[ix.toNat]? = some u ∧ Admits A W.heap u

section

variable {A : Handle → Prop} {W : World} {c : Code} {pos m n : Nat} {code is js : List Instr} {i : Instr}

namespace Code.Onward

theorem nil : c.Onward A W pos [] := ⟨nofun, nofun⟩

theorem append (hi : c.Onward A W pos is) (hj : c.Onward A W (pos + Instr.total is) js) :
    c.Onward A W pos (is ++ js) where
  forward p i h := by
    rw [Instr.placed_append] at h
    exact (List.mem_append.1 h).elim (hi.forward p i) (hj.forward p i)
  constants ix h := (List.mem_append.1 h).elim (hi.constants ix) (hj.constants ix)

theorem cons (ha : ∀ t, i.address? = some t → pos < t.toNat)
    (hc : ∀ ix, i = .const ix → ∃ u, c.constants[ix.toNat]? = some u ∧ Admits A W.heap u)
    (h : c.Onward A W (pos + i.size) is) : c.Onward A W pos (i :: is) where
  forward p j hm := by
    rcases List.mem_cons.1 hm with hm | hm
    · cases hm
      exact ha
    · exact h.forward p j hm
  constants ix hm := by
    rcases List.mem_cons.1 hm with rfl | hm
    · exact hc ix rfl
    · exact h.constants ix hm

/-- An instruction that neither jumps nor pushes a constant. -/
theorem plain (ha : i.address? = none) (hc : i.constant? = none) (h : c.Onward A W (pos + i.size) is) :
    c.Onward A W pos (i :: is) := by
  refine h.cons (fun t ht => ?_) fun ix hi => ?_
  · rw [ha] at ht
    cases ht
  · rw [hi] at hc
    cases hc

theorem const {ix : UInt8} {u : Value} (hu : c.constants[ix.toNat]? = some u) (ha : Admits A W.heap u)
    (h : c.Onward A W (pos + (Instr.const ix).size) is) : c.Onward A W pos (.const ix :: is) := by
  refine h.cons nofun fun jx hj => ?_
  cases hj
  exact ⟨u, hu, ha⟩

end Code.Onward

/-- Well-typed code whose constants lead to code in `A'` only. -/
theorem Balanced.restrict {A' : Handle → Prop} (hb : Balanced A W c pos m code n)
    (h : ∀ ix, .const ix ∈ code → ∃ u, c.constants[ix.toNat]? = some u ∧ Admits A' W.heap u) :
    Balanced A' W c pos m code n where
  scan := hb.scan
  typed pre i post hcode := by
    obtain ⟨hi, hp⟩ := hb.typed pre i post hcode
    refine ⟨⟨hi.awaits, ?_⟩, hp⟩
    have ho := hi.operand
    cases i with
    | const ix => exact h ix (by simp [hcode])
    | _ => exact ho

end

/-! ## Parts of a program -/

/-- A code object of a function without loops. -/
def Straight (T : Scopes) (W : World) (h : Handle) : Prop :=
  ∃ c, W.heap.code? h = some c ∧ ∃ f name params body v pos code as,
    Coded T W c f (.code name params body) v pos code as ∧ body.collect Form.loop? f = []

section

variable {T : Scopes} {W : World} {c : Code} {s : ScopeId} {v : View} {task : Task} {pos : Nat}
  {code : List Instr} {as : List Access} {A : Handle → Prop}

theorem Place.onward_get (place : Place) : c.Onward A W pos [place.get] := by
  cases place <;> exact .plain rfl rfl .nil

theorem Place.onward_set (place : Place) : c.Onward A W pos [place.set] := by
  cases place <;> exact .plain rfl rfl .nil

theorem Declares.onward {name : String} {direct : Bool} {o : Outcome}
    (h : Declares T W s v name direct o code) : c.Onward A W pos code := by
  cases h with
  | global | slot => exact .plain rfl rfl .nil
  | cell => exact .plain rfl rfl (.plain rfl rfl .nil)
  | inside => exact .plain rfl rfl (.plain rfl rfl (.plain rfl rfl .nil))

theorem Exits.onward {n : Nat} (h : Exits n code) : c.Onward A W pos code := by
  cases h with
  | none => exact .nil
  | some => exact .plain rfl rfl .nil

theorem Outcome.onward_drop (o : Outcome) : c.Onward A W pos o.drop := by
  cases o with
  | value => exact .plain rfl rfl .nil
  | _ => exact .nil

theorem Outcome.onward_leave (o : Outcome) : c.Onward A W pos o.leave := by
  cases o with
  | value => exact .nil
  | _ => exact .plain rfl rfl .nil

theorem Moves.onward {sc : Scope} {slot : Nat} {names : List String} (h : Moves sc v slot names code) :
    c.Onward A W pos code := by
  induction h generalizing pos with
  | nil => exact .nil
  | stay _ _ ih => exact ih
  | move _ _ _ _ ih => exact .plain rfl rfl (.plain rfl rfl (.plain rfl rfl ih))

theorem Loads.onward {f : ScopeId} {names : List String} (h : Loads c s v f pos names code as) :
    c.Onward A W pos code := by
  induction h with
  | nil => exact .nil
  | cons _ _ ih => exact .plain rfl rfl ih

theorem onward_boolean {b : Bool} {ix : UInt8} (h : Holds W c ix (.boolean b)) :
    c.Onward A W pos [.const ix] := .const h.boolean (.boolean b) .nil

/-- A choice jumps over its parts. -/
theorem onward_branch {asked consequent alternate : List Instr} {otherwise done : UInt16}
    (ht : c.Onward A W pos asked) (hc : c.Onward A W (pos + Instr.total asked + 3) consequent)
    (ho : otherwise.toNat = pos + Instr.total asked + 3 + Instr.total consequent + 3)
    (ha : c.Onward A W otherwise.toNat alternate)
    (hd : done.toNat = otherwise.toNat + Instr.total alternate) :
    c.Onward A W pos (asked ++ .jumpIfFalse otherwise :: (consequent ++ .jump done :: alternate)) := by
  refine ht.append (.cons ?_ nofun (hc.append (.cons ?_ nofun ?_)))
  · rintro t ⟨⟩
    omega
  · rintro t ⟨⟩
    omega
  · change c.Onward A W (pos + Instr.total asked + 3 + Instr.total consequent + 3) alternate
    rwa [← ho]

/-- The part is the code of a loop alone. -/
def Task.isLoop : Task → Bool
  | .loop .. => true
  | _ => false

/-- The code of a part of a program without loops leads forward, and to such code only. -/
theorem Coded.onward (h : Coded T W c s task v pos code as) (hl : task.collect Form.loop? s = [])
    (hn : task.isLoop = false) : c.Onward (Straight T W) W pos code := by
  induction h with
  | number h =>
    obtain ⟨y, hy, -⟩ := h.number
    exact .const hy (.number y) .nil
  | string ht h =>
    obtain ⟨j, hj, hs⟩ := h.string ht
    exact .const hj (.string (Heap.string?_eq_some.1 hs)) .nil
  | boolean h => exact onward_boolean h
  | reference h => exact Place.onward_get _
  | block _ _ hx ih =>
    simp only [Task.collect, Form.collect, List.append_eq_nil_iff] at hl
    exact (ih hl.1 rfl).append hx.onward
  | declare _ hd ih =>
    simp only [Task.collect, Form.collect, List.append_eq_nil_iff] at hl
    exact (ih hl.1 rfl).append hd.onward
  | assign _ _ ih =>
    simp only [Task.collect, Form.collect, List.append_eq_nil_iff] at hl
    exact (ih hl.1 rfl).append (Place.onward_set _)
  | ifThen _ ih =>
    simp only [Task.collect, Form.collect, List.append_eq_nil_iff] at hl
    exact ih (by simp [Task.collect, Form.collect, Form.loop?, hl]) rfl
  | ifElse _ _ ho _ hd iht ihc iha =>
    simp only [Task.collect, Form.collect, List.append_eq_nil_iff] at hl
    obtain ⟨⟨⟨ht, hc⟩, ha⟩, -⟩ := hl
    have parts := onward_branch (iht ht rfl) (ihc hc rfl) ho (iha ha rfl) hd
    rwa [List.append_assoc, List.cons_append]
  | whileLoop | forLoop => simp [Task.collect, Form.collect, Form.loop?] at hl
  | define _ hd ih =>
    simp only [Task.collect, Form.collect, List.append_eq_nil_iff] at hl
    exact (ih hl.1 rfl).append hd.onward
  | lambda _ ih =>
    simp only [Task.collect, Form.collect, List.append_eq_nil_iff] at hl
    exact ih hl.1 rfl
  | @operation _ _ _ op _ _ _ _ _ _ _ _ _ _ ihx ihy =>
    simp only [Task.collect, Form.collect, List.append_eq_nil_iff] at hl
    refine ((ihx hl.1.1 rfl).append (ihy hl.1.2 rfl)).append ?_
    cases op <;> exact .plain rfl rfl .nil
  | call _ _ _ ihf iha =>
    simp only [Task.collect, Form.collect, List.append_eq_nil_iff] at hl
    exact ((ihf hl.1.1 rfl).append (iha hl.1.2 rfl)).append (.plain rfl rfl .nil)
  | empty _ ih => exact ih rfl rfl
  | @last _ _ _ o _ _ _ _ _ ih =>
    simp only [Task.collect, Form.collectAll, List.append_nil] at hl
    exact (ih hl rfl).append o.onward_leave
  | @next _ _ _ _ _ o _ _ _ _ _ _ _ _ _ ihf ihr =>
    simp only [Task.collect, Form.collectAll, List.append_eq_nil_iff] at hl
    exact ((ihf hl.1 rfl).append o.onward_drop).append (ihr (by simp [Task.collect, Form.collectAll, hl]) rfl)
  | noArgs | noDrops => exact .nil
  | args _ _ ihf ihr =>
    simp only [Task.collect, Form.collectAll, List.append_eq_nil_iff] at hl
    exact (ihf hl.1 rfl).append (ihr hl.2 rfl)
  | drops _ _ ihf ihr =>
    simp only [Task.collect, Form.collectAll, List.append_eq_nil_iff] at hl
    exact (ihf hl.1 rfl).append (.plain rfl rfl (ihr hl.2 rfl))
  | loop => cases hn
  | constant hfree hc hcode hg h ih =>
    have hx := h.object (by simp [Heap.string?, hg])
    exact .const hx (.function hg ⟨_, hcode, _, _, _, _, _, _, _, _, hc, hl⟩ rfl hcode hfree) .nil
  | made hc hcode hloads h hn _ ih =>
    have hx := h.object (string?_of_code hcode)
    refine hloads.onward.append (.const hx ?_ (.plain rfl rfl .nil))
    exact .code (Heap.code?_eq_some.1 hcode) ⟨_, hcode, _, _, _, _, _, _, _, _, hc, hl⟩
  | finishBlock _ _ hx ih =>
    simp only [Task.collect, Form.collect, List.append_eq_nil_iff] at hl
    exact (ih hl.1 rfl).append hx.onward
  | finish _ _ ih => exact (ih hl rfl).append (.plain rfl rfl .nil)
  | code _ _ _ _ _ hm _ _ ih =>
    rw [List.append_assoc]
    have rest := ih hl rfl
    rw [← Nat.zero_add (Instr.total _)] at rest
    exact hm.onward.append (rest.append (.plain rfl rfl .nil))

/-! ## Code objects -/

theorem Coded.bytes_code {f : ScopeId} {name : String} {params : List String} {body : Form}
    (h : Coded T W c f (.code name params body) v pos code as) : c.bytes = Instr.bytes code := by
  cases h with
  | code _ _ _ _ _ _ _ hb => exact hb

/-- The instructions of a code object all jump forward. -/
def Code.Forward (c : Code) : Prop := ∃ is, c.bytes = Instr.bytes is ∧ Instr.Forward 0 is

theorem Checked.restrict {A A' : Handle → Prop} {last : Instr} {n : Nat} (hc : Checked A W c last n)
    (hb : c.bytes = Instr.bytes code) (ho : c.Onward A' W 0 code) : Checked A' W c last n := by
  obtain ⟨body, hbytes, hbal⟩ := hc
  cases Instr.bytes_inj (hb.symm.trans hbytes)
  exact ⟨body, hbytes, hbal.restrict fun ix hix => ho.constants ix (List.mem_append_left _ hix)⟩

/-- Functions without loops are sound code that leads forward. -/
theorem Straight.checked {h : Handle} (hs : Straight T W h) :
    ∃ c, W.heap.code? h = some c ∧ c.Forward ∧ Checked (Straight T W) W c .ret 1 := by
  obtain ⟨c, hc, f, name, params, body, v, pos, code, as, hcoded, hl⟩ := hs
  have hpos : pos = 0 := by cases hcoded; rfl
  subst hpos
  have ho := hcoded.onward hl rfl
  have hb := hcoded.bytes_code
  exact ⟨c, hc, ⟨code, hb, ho.forward⟩, Checked.restrict hcoded.sound hb ho⟩

end

/-- The code of a program without loops, too. -/
theorem CompiledMain.restrict {T : Scopes} {W : World} {program : Form} {c : Code}
    (h : CompiledMain T W program c) (hl : program.loops = []) :
    c.Forward ∧ Checked (Straight T W) W c .halt 2 := by
  have hc := h.checked
  obtain ⟨-, -, -, code, as, hcoded, hb⟩ := h
  have halts : c.Onward (Straight T W) W (0 + Instr.total code) [.halt] := .plain rfl rfl .nil
  have ho := (hcoded.onward hl rfl).append halts
  exact ⟨⟨_, hb, ho.forward⟩, hc.restrict hb ho⟩

end ByteLisp
