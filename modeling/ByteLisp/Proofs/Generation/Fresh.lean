/-
  ByteLisp: compiled code refers to nothing that was there before.

  The objects among the constants of a program are allocated while it is compiled:
  strings, code objects, and functions that capture nothing. So no code object
  leads to one of an earlier program, or of one that failed to compile.

  * `Object.Mentions` and `Heap.Reaches`: what can be reached on the heap;
  * `Emission.Fresh`: all handles in the new objects and in the draft are new;
  * `Form.emit_keeps`: generating the code of a form keeps it so;
  * `Expr.compile_fresh`: the objects of a program lead only to one another.
-/
import ByteLisp.Proofs.Generation.Emitted
import ByteLisp.Proofs.Generation.Idle

namespace ByteLisp

/-! ## What can be reached -/

/-- A handle in an object. -/
def Object.Mentions (k : Handle) : Object → Prop
  | .string _ | .native _ => False
  | .code c => .object k ∈ c.constants
  | .function f => f.code = k ∨ k ∈ f.cells
  | .cell v => v = .object k

/-- What can be reached from a handle on a heap. -/
inductive Heap.Reaches (h : Heap) (i : Handle) : Handle → Prop
  | refl : Heap.Reaches h i i
  | next {j k : Handle} {o : Object} (hj : Heap.Reaches h i j) (ho : h.get? j = some o)
    (hk : o.Mentions k) : Heap.Reaches h i k

/-- A handle from `n` on and below `k`. -/
def Handle.Between (n k : Nat) (i : Handle) : Prop := n ≤ i ∧ i < k

/-- A value whose handle, if it has one, is from `n` on and below `k`, and which satisfies `N` if it
    is a number. -/
structure Value.Between (N : Float → Prop) (n k : Nat) (v : Value) : Prop where
  handle : ∀ i, v = .object i → i.Between n k
  number : ∀ x, v = .number x → N x

/-- An object that a compilation allocates, with handles from `n` on and below `k`; the numbers
    among the constants satisfy `N`. -/
def Object.Between (N : Float → Prop) (n k : Nat) : Object → Prop
  | .string _ => True
  | .code c => ∀ v ∈ c.constants, v.Between N n k
  | .function f => f.code.Between n k ∧ f.cells = #[]
  | .native _ | .cell _ => False

/-- From `n` on, the heap has only objects that were compiled, with handles from `n` on, and so are
    those among the constants of the draft; the numbers among these satisfy `N`. -/
structure Emission.Fresh (N : Float → Prop) (n : Nat) (e : Emission) : Prop where
  size : n ≤ e.heap.size
  constants : ∀ v ∈ e.draft.constants, v.Between N n e.heap.size
  objects : ∀ i o, n ≤ i → e.heap.get? i = some o → o.Between N n e.heap.size

section

variable {N : Float → Prop} {n k l : Nat} {v : Value} {o : Object} {i : Handle}

theorem Handle.Between.mono (h : i.Between n k) (hl : k ≤ l) : i.Between n l :=
  ⟨h.1, Nat.lt_of_lt_of_le h.2 hl⟩

theorem Value.Between.mono (h : v.Between N n k) (hl : k ≤ l) : v.Between N n l :=
  ⟨fun i hi => (h.handle i hi).mono hl, h.number⟩

theorem Value.Between.object (h : i.Between n k) : (Value.object i).Between N n k :=
  ⟨fun _ hi => by cases hi; exact h, nofun⟩

theorem Object.Between.mono (h : o.Between N n k) (hl : k ≤ l) : o.Between N n l := by
  cases o with
  | string text => trivial
  | code c => exact fun v hv => (h v hv).mono hl
  | function f => exact ⟨h.1.mono hl, h.2⟩
  | native g | cell v => exact h.elim

theorem Object.Between.mentions {j : Handle} (h : o.Between N n k) (hj : o.Mentions j) : j.Between n k := by
  cases o with
  | string text | native g => exact hj.elim
  | code c => exact (h _ hj).handle j rfl
  | function f =>
    rcases hj with rfl | hj
    · exact h.1
    · rw [h.2] at hj
      exact absurd hj (Array.not_mem_empty j)
  | cell v => exact h.elim

end

namespace Emission.Fresh

variable {N : Float → Prop} {n : Nat} {e : Emission}

theorem alloc {o : Object} (he : e.Fresh N n) (ho : o.Between N n e.heap.size) :
    Fresh N n { e with heap := e.heap.alloc o } := by
  have hle : e.heap.size ≤ (e.heap.alloc o).size := by simp
  refine ⟨Nat.le_trans he.size hle, fun v hv => (he.constants v hv).mono hle, fun i p hi hp => ?_⟩
  rcases Heap.get?_alloc_cases hp with hp | ⟨-, rfl⟩
  · exact (he.objects i p hi hp).mono hle
  · exact ho.mono hle

end Emission.Fresh

namespace Emit

variable {α β : Type} {N : Float → Prop} {n : Nat}

/-! ## Actions -/

/-- An action that keeps handles new if it succeeds. -/
structure Keeps (N : Float → Prop) (n : Nat) (x : Emit α) : Prop where
  ok : ∀ {e a e'}, x e = .ok a e' → e.Fresh N n → e'.Fresh N n ∧ e.heap.size ≤ e'.heap.size

theorem keeps_bind {x : Emit α} {f : α → Emit β} (hx : Keeps N n x) (hf : ∀ a, Keeps N n (f a)) :
    Keeps N n (x >>= f) where
  ok h he := by
    obtain ⟨a, e₁, h₁, h₂⟩ := bind_ok.1 h
    obtain ⟨he₁, hs₁⟩ := hx.ok h₁ he
    obtain ⟨he₂, hs₂⟩ := (hf a).ok h₂ he₁
    exact ⟨he₂, Nat.le_trans hs₁ hs₂⟩

theorem keeps_pure (a : α) : Keeps N n (pure a : Emit α) where
  ok h he := by
    obtain ⟨-, rfl⟩ := pure_ok.1 h
    exact ⟨he, Nat.le_refl _⟩

theorem keeps_throw (err : CompileError) : Keeps N n (throw err : Emit α) :=
  ⟨fun h => (throw_ok.1 h).elim⟩

/-- An action that changes neither the heap nor the constants. -/
theorem keeps_of_idle {x : Emit α} (h : Idle x) : Keeps N n x where
  ok {e a e'} hx he := by
    obtain ⟨hh, hc⟩ := h.ok hx
    refine ⟨⟨hh ▸ he.size, ?_, ?_⟩, Nat.le_of_eq (congrArg Heap.size hh.symm)⟩
    · rw [hc, hh]
      exact he.constants
    · rw [hh]
      exact he.objects

/-- An idle action before one that keeps handles new. -/
theorem keeps_idle {x : Emit α} {f : α → Emit β} (hx : Idle x) (hf : ∀ a, Keeps N n (f a)) :
    Keeps N n (x >>= f) := keeps_bind (keeps_of_idle hx) hf

/-- A constant whose handle, if it has one, is new. -/
theorem constant_fresh {v : Value} {e e' : Emission} {code : List Instr}
    (h : constant v e = .ok code e') (hv : v.Between N n e.heap.size) (he : e.Fresh N n) :
    e'.Fresh N n ∧ e'.heap = e.heap := by
  have hpush : Emission.Fresh N n
      { e with draft := { e.draft with constants := e.draft.constants.push v } } := by
    refine ⟨he.size, fun u hu => ?_, he.objects⟩
    rcases Array.mem_push.1 hu with hu | rfl
    · exact he.constants u hu
    · exact hv
  obtain ⟨ix, e₁, h₁, h₂⟩ := bind_ok.1 h
  have hfirst : e₁.Fresh N n ∧ e₁.heap = e.heap := by
    rw [constantIndex_apply] at h₁
    split at h₁
    · obtain ⟨-, h₁⟩ | ⟨-, h₁⟩ := ite_ok.1 h₁
      · obtain ⟨-, rfl⟩ := pure_ok.1 h₁
        exact ⟨he, rfl⟩
      · exact (throw_ok.1 h₁).elim
    · obtain ⟨_, e₂, h₂, h₁⟩ := bind_ok.1 h₁
      cases update_ok.1 h₂
      obtain ⟨-, h₁⟩ | ⟨-, h₁⟩ := ite_ok.1 h₁
      · obtain ⟨-, rfl⟩ := pure_ok.1 h₁
        exact ⟨hpush, rfl⟩
      · exact (throw_ok.1 h₁).elim
  obtain ⟨_, e₂, hgrow, hinstr⟩ := bind_ok.1 h₂
  cases update_ok.1 hgrow
  obtain ⟨-, rfl⟩ := instr_ok.1 hinstr
  exact ⟨⟨hfirst.1.size, hfirst.1.constants, hfirst.1.objects⟩, hfirst.2⟩

theorem keeps_constant {v : Value} (hv : ∀ i, v ≠ .object i) (hN : ∀ x, v = .number x → N x) :
    Keeps N n (constant v) where
  ok h he := by
    obtain ⟨he', hh⟩ := constant_fresh h ⟨fun i hi => absurd hi (hv i), hN⟩ he
    exact ⟨he', Nat.le_of_eq (congrArg Heap.size hh.symm)⟩

/-- A new string or function, as a constant. -/
theorem keeps_allocConstant {o : Object} {e e' : Emission} {code : List Instr}
    (h : (do constant (.object (← alloc o)) : Emit (List Instr)) e = .ok code e')
    (ho : o.Between N n e.heap.size) (he : e.Fresh N n) : e'.Fresh N n ∧ e.heap.size ≤ e'.heap.size := by
  obtain ⟨i, e₁, h₁, h₂⟩ := bind_ok.1 h
  obtain ⟨rfl, rfl⟩ := alloc_ok.1 h₁
  have hnew : (Value.object e.heap.size).Between N n (e.heap.alloc o).size := by
    exact .object ⟨he.size, by simp⟩
  obtain ⟨he', hh⟩ := constant_fresh h₂ hnew (he.alloc ho)
  exact ⟨he', by rw [hh]; simp⟩

/-! ## Composed actions -/

variable {x y z : Emit (List Instr)} {f : Emit (Effect × List Instr)}

theorem keeps_operation (op : Operator) (hx : Keeps N n x) (hy : Keeps N n y) :
    Keeps N n (operation op x y) :=
  keeps_bind hx fun _ => keeps_bind hy fun _ => keeps_idle (idle_update fun _ => rfl) fun _ =>
    keeps_idle (idle_instr _) fun _ => keeps_pure _

theorem keeps_branch (hx : Keeps N n x) (hy : Keeps N n y) (hz : Keeps N n z) : Keeps N n (branch x y z) :=
  keeps_bind hx fun _ => keeps_idle idle_reserve fun _ => keeps_idle (idle_update fun _ => rfl) fun _ =>
    keeps_idle idle_draft fun _ => keeps_bind hy fun _ => keeps_idle idle_reserve fun _ =>
      keeps_idle idle_address fun _ => keeps_idle (idle_update fun _ => rfl) fun _ =>
        keeps_bind hz fun _ => keeps_idle idle_address fun _ => keeps_pure _

theorem keeps_modify? {modifier : Option (Emit (List Instr))} (h : ∀ x ∈ modifier, Keeps N n x) :
    Keeps N n (modify? modifier) := by
  cases modifier with
  | none => exact keeps_pure _
  | some x => exact keeps_bind (h x rfl) fun _ => keeps_idle quiet_discard.toIdle fun _ => keeps_pure _

theorem keeps_loop {modifier : Option (Emit (List Instr))} (hx : Keeps N n x) (hy : Keeps N n y)
    (hm : ∀ x ∈ modifier, Keeps N n x) : Keeps N n (loop x y modifier) :=
  keeps_idle idle_draft fun _ => keeps_bind hx fun _ => keeps_idle idle_reserve fun _ =>
    keeps_idle (idle_update fun _ => rfl) fun _ => keeps_bind hy fun _ =>
      keeps_idle quiet_discard.toIdle fun _ => keeps_bind (keeps_modify? hm) fun _ =>
        keeps_idle (idle_addressOf _) fun _ => keeps_idle (idle_instr _) fun _ =>
          keeps_idle idle_address fun _ => keeps_bind (keeps_constant nofun nofun) fun _ => keeps_pure _

theorem keeps_forLoop (hf : Keeps N n f) (hx : Keeps N n x) : Keeps N n (forLoop f x) := by
  refine keeps_bind hf fun (effect, first) => ?_
  cases effect with
  | value => exact keeps_idle quiet_discard.toIdle fun _ => keeps_bind hx fun _ => keeps_pure _
  | stored ix => exact keeps_bind hx fun _ => keeps_pure _
  | slot ix =>
    exact keeps_bind hx fun _ => keeps_idle (idle_instr _) fun _ =>
      keeps_idle (idle_update fun _ => rfl) fun _ => keeps_pure _

theorem keeps_separate (hf : Keeps N n f) : Keeps N n (separate f) := by
  refine keeps_bind hf fun (effect, code) => ?_
  cases effect with
  | value => exact keeps_idle quiet_discard.toIdle fun _ => keeps_pure _
  | stored ix | slot ix => exact keeps_pure _

theorem keeps_conclude (hf : Keeps N n f) : Keeps N n (conclude f) := by
  refine keeps_bind hf fun (effect, code) => ?_
  cases effect with
  | value => exact keeps_pure _
  | stored ix | slot ix =>
    exact keeps_idle (idle_update fun _ => rfl) fun _ => keeps_idle (idle_instr _) fun _ => keeps_pure _

theorem keeps_block (T : Scopes) (whole : Form) (b : ScopeId) (extra : Nat) (hx : Keeps N n x) :
    Keeps N n (block T whole b extra x) := by
  have rest : Keeps N n (blockEnd whole extra x) :=
    keeps_bind hx fun _ => keeps_idle idle_draft fun _ => keeps_idle (idle_update fun _ => rfl) fun _ =>
      keeps_idle (quiet_exit _ _).toIdle fun _ => keeps_pure _
  refine keeps_idle (idle_update fun _ => rfl) fun _ => ?_
  dsimp only
  split
  · exact keeps_idle (idle_update fun d => constants_addBlockCells d _) fun _ => rest
  · exact rest

theorem keeps_functionBody (T : Scopes) (whole : Form) (params : List String) (body : Form)
    (hx : Keeps N n x) (hy : Keeps N n y) : Keeps N n (functionBody T whole params body x y) := by
  unfold functionBody
  split
  · exact keeps_block T _ _ _ hx
  · exact keeps_bind hy fun _ => keeps_idle (idle_countOperand _ _ _) fun _ =>
      keeps_idle (idle_instr _) fun _ => keeps_pure _

/-- The code object of a function refers to new objects only, and is new itself. -/
theorem functionCode_fresh {T : Scopes} {name : String} {s : ScopeId} {params : List String}
    {e e' : Emission} {h : Handle} {c : Code} (hx : Keeps N n x)
    (hc : functionCode T name s params x e = .ok (h, c) e') (he : e.Fresh N n) :
    e'.Fresh N n ∧ e.heap.size ≤ e'.heap.size ∧ h.Between n e'.heap.size := by
  obtain ⟨moved, e₁, code, e₂, hm, hbody, rfl, rfl, hh, -, hd⟩ := functionCode_ok hc
  have hstart : Emission.Fresh N n { e with draft := draftOf name params (T.scope s) } := by
    refine ⟨he.size, fun v hv => ?_, he.objects⟩
    rw [draftOf, constants_addLocals] at hv
    exact absurd hv (Array.not_mem_empty v)
  obtain ⟨he₁, hs₁⟩ := (keeps_of_idle (quiet_moveCaptured _ _ _).toIdle).ok hm hstart
  obtain ⟨he₂, hs₂⟩ := hx.ok hbody he₁
  have hsize : e'.heap.size = e₂.heap.size + 1 := by rw [hh, Heap.size_alloc]
  have hle : e.heap.size ≤ e'.heap.size := by
    have := Nat.le_trans hs₁ hs₂
    rw [hsize]
    exact Nat.le_succ_of_le this
  have hnew := he₂.alloc (o := .code ((e₂.draft.advance 1).finish (moved ++ code ++ [.ret]))) he₂.constants
  refine ⟨⟨Nat.le_trans he.size hle, ?_, ?_⟩, hle, he₂.size, by rw [hsize]; exact Nat.lt_succ_self _⟩
  · rw [hd]
    exact fun v hv => (he.constants v hv).mono hle
  · rw [hh]
    exact hnew.objects

theorem keeps_function (T : Scopes) (whole : Form) (name : String) (s : ScopeId) (params : List String)
    (hx : Keeps N n x) : Keeps N n (function T whole name s params x) where
  ok {e code e'} h he := by
    obtain ⟨⟨handle, c⟩, e₁, h₁, h₂⟩ := bind_ok.1 h
    obtain ⟨he₁, hs₁, hnew⟩ := functionCode_fresh hx h₁ he
    rcases ite_ok.1 h₂ with ⟨-, h₂⟩ | ⟨-, h₂⟩
    · obtain ⟨he', hs'⟩ := keeps_allocConstant h₂ ⟨hnew, rfl⟩ he₁
      exact ⟨he', Nat.le_trans hs₁ hs'⟩
    · obtain ⟨cells, e₂, hcells, h₂⟩ := bind_ok.1 h₂
      obtain ⟨he₂, hs₂⟩ := (keeps_of_idle (quiet_loadCells _).toIdle).ok hcells he₁
      obtain ⟨load, e₃, hload, h₃⟩ := bind_ok.1 h₂
      obtain ⟨he₃, hh₃⟩ := constant_fresh hload (.object (hnew.mono hs₂)) he₂
      have hlast : Keeps N n (do
          let k ← countOperand c.free.size whole .tooManyCaptured
          update (·.shrink c.free.size)
          return cells ++ load ++ (← instr (.makeFunction k)) : Emit (List Instr)) :=
        keeps_idle (idle_countOperand _ _ _) fun _ => keeps_idle (idle_update fun _ => rfl) fun _ =>
          keeps_idle (idle_instr _) fun _ => keeps_pure _
      obtain ⟨he', hs'⟩ := hlast.ok h₃ he₃
      rw [hh₃] at hs'
      exact ⟨he', Nat.le_trans hs₁ (Nat.le_trans hs₂ hs')⟩

theorem keeps_call (whole : Form) (argc : Nat) (hx : Keeps N n x) (hy : Keeps N n y) :
    Keeps N n (call whole argc x y) :=
  keeps_bind hx fun _ => keeps_bind hy fun _ => keeps_idle (idle_countOperand _ _ _) fun _ =>
    keeps_idle (idle_update fun _ => rfl) fun _ => keeps_idle (idle_instr _) fun _ => keeps_pure _

theorem keeps_only (hf : Keeps N n f) : Keeps N n (only f) := keeps_bind hf fun _ => keeps_pure _

theorem keeps_valued (hx : Keeps N n x) : Keeps N n (valued x) := keeps_bind hx fun _ => keeps_pure _

end Emit

/-! ## Forms -/

namespace Form

open Emit

variable {N : Float → Prop} {n : Nat}

/-- The numbers in some forms satisfy `N`. -/
structure NumbersIn (N : Float → Prop) (s : ScopeId) (fs : List Form) : Prop where
  numbers : ∀ x ∈ collectAll number? s fs, N x

theorem NumbersIn.part {s t : ScopeId} {fs gs : List Form} (h : NumbersIn N s fs)
    (hsub : ∀ x ∈ collectAll number? t gs, x ∈ collectAll number? s fs := by
      simp +contextual [collect, collectAll]) : NumbersIn N t gs :=
  ⟨fun x hx => h.numbers x (hsub x hx)⟩

mutual

theorem emit_keeps {T : Scopes} {s : ScopeId} {direct : Bool} {f : Form} (h : NumbersIn N s [f]) :
    Keeps N n (f.emit T s direct) := by
  cases f with
  | number x =>
    refine keeps_valued (keeps_constant nofun fun y hy => ?_)
    cases hy
    exact h.numbers x List.mem_cons_self
  | string text =>
    refine ⟨fun {e a e'} hx he => ?_⟩
    obtain ⟨i, e₁, h₁, h₂⟩ := bind_ok.1 hx
    have h₂ : (constant (.object i) >>= fun code => pure (.value, code)) e₁ = .ok a e' := h₂
    obtain ⟨code, e₂, hc, h₃⟩ := bind_ok.1 h₂
    obtain ⟨-, rfl⟩ := pure_ok.1 h₃
    exact keeps_allocConstant (bind_ok.2 ⟨i, e₁, h₁, hc⟩) trivial he
  | boolean b => exact keeps_valued (keeps_constant nofun nofun)
  | reference name binding => exact keeps_valued (keeps_of_idle (quiet_read T s name binding).toIdle)
  | block b body => exact keeps_valued (keeps_block T _ b 0 (emitBody_keeps h.part))
  | declare name init =>
    exact keeps_bind (keeps_only (emit_keeps h.part)) fun _ =>
      keeps_idle (quiet_declare T s _ name direct).toIdle fun _ => keeps_pure _
  | assign name binding value =>
    exact keeps_bind (keeps_only (emit_keeps h.part)) fun _ =>
      keeps_idle (quiet_write T s name binding).toIdle fun _ => keeps_pure _
  | ifThen test thn =>
    exact keeps_valued (keeps_branch (keeps_only (emit_keeps h.part))
      (keeps_only (emit_keeps h.part)) (keeps_constant nofun nofun))
  | ifElse test thn els =>
    exact keeps_valued (keeps_branch (keeps_only (emit_keeps h.part))
      (keeps_only (emit_keeps h.part)) (keeps_only (emit_keeps h.part)))
  | whileLoop test body =>
    exact keeps_valued (keeps_loop (keeps_only (emit_keeps h.part))
      (keeps_only (emit_keeps h.part)) nofun)
  | forLoop init test modifier body =>
    refine keeps_valued (keeps_forLoop (emit_keeps h.part)
      (keeps_loop (keeps_only (emit_keeps h.part)) (keeps_only (emit_keeps h.part)) ?_))
    rintro _ ⟨⟩
    exact keeps_only (emit_keeps h.part)
  | define name f params body =>
    exact keeps_bind (keeps_function T _ name f params (keeps_functionBody T _ params body
      (emitInside_keeps (s := f) h.part) (keeps_only (emit_keeps h.part)))) fun _ =>
        keeps_idle (quiet_declare T s _ name direct).toIdle fun _ => keeps_pure _
  | lambda label f params body =>
    exact keeps_valued (keeps_function T _ label f params (keeps_functionBody T _ params body
      (emitInside_keeps (s := f) h.part) (keeps_only (emit_keeps h.part))))
  | operation op x y =>
    exact keeps_valued (keeps_operation op (keeps_only (emit_keeps h.part))
      (keeps_only (emit_keeps h.part)))
  | call callee args =>
    exact keeps_valued (keeps_call _ _ (keeps_only (emit_keeps h.part)) (emitAll_keeps h.part))
  | malformed e why => exact keeps_throw _

theorem emitInside_keeps {T : Scopes} {s : ScopeId} {f : Form} (h : NumbersIn N s [f]) :
    Keeps N n (emitInside T f) := by
  cases f with
  | block b body => exact emitBody_keeps h.part
  | _ => exact keeps_pure _

theorem emitBody_keeps {T : Scopes} {s : ScopeId} {fs : List Form} (h : NumbersIn N s fs) :
    Keeps N n (emitBody T s fs) := by
  match fs with
  | [] => exact keeps_constant nofun nofun
  | [f] => exact keeps_conclude (emit_keeps h)
  | f :: g :: fs =>
    exact keeps_bind (keeps_separate (emit_keeps h.part)) fun _ =>
      keeps_bind (emitBody_keeps h.part) fun _ => keeps_pure _

theorem emitAll_keeps {T : Scopes} {s : ScopeId} {fs : List Form} (h : NumbersIn N s fs) :
    Keeps N n (emitAll T s fs) := by
  cases fs with
  | nil => exact keeps_pure _
  | cons f fs =>
    exact keeps_bind (keeps_only (emit_keeps h.part)) fun _ =>
      keeps_bind (emitAll_keeps h.part) fun _ => keeps_pure _

end

end Form

/-! ## Programs -/

/-- The objects of a program lead only to one another, and its code has only numbers of the
    program. -/
theorem Expr.compile_fresh {e : Expr} {heap : Heap} {globals : Globals} {main : Handle}
    (h : (e.compile heap globals).result = .ok main) :
    let r := e.compile heap globals
    main.Between heap.size r.heap.size ∧
      ∀ i o, heap.size ≤ i → r.heap.get? i = some o →
        o.Between (· ∈ (Form.ofResolved "lambda" e.resolveProgram.1).numbers) heap.size
          r.heap.size := by
  obtain ⟨notes, hr⟩ := e.compile_cases heap globals
  split at hr
  · next h' e' hm =>
    rw [hr] at h
    cases h
    obtain ⟨code, e₁, c, h₁, rfl, rfl, hheap, -⟩ := Emit.main_ok hm
    have hstart : (Emission.start heap globals notes).Fresh
        (· ∈ (Form.ofResolved "lambda" e.resolveProgram.1).numbers) heap.size := by
      refine ⟨Nat.le_refl _, fun v hv => absurd hv (Array.not_mem_empty v), fun i o hi ho => ?_⟩
      exact absurd (Heap.lt_size_of_get? ho) (Nat.not_lt.2 hi)
    have numbers : Form.NumbersIn (· ∈ (Form.ofResolved "lambda" e.resolveProgram.1).numbers)
        Scopes.root [Form.ofResolved "lambda" e.resolveProgram.1] :=
      ⟨fun x hx => by simpa [Form.collectAll, Form.numbers] using hx⟩
    obtain ⟨he₁, hs₁⟩ := (Emit.keeps_only (Form.emit_keeps numbers)).ok h₁ hstart
    have hnew := he₁.alloc (o := .code ((e₁.draft.advance 1).finish (code ++ [.halt]))) he₁.constants
    have hmain : e₁.heap.size < e'.heap.size := by rw [hheap]; simp
    simp only [hr]
    refine ⟨⟨he₁.size, hmain⟩, ?_⟩
    rw [hheap]
    exact hnew.objects
  · rw [hr] at h
    cases h

end ByteLisp
