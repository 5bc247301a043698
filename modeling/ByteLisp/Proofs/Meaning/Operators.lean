/-
  ByteLisp: operations, tests and constants on the machine.

  * `Situated.ends_answer`: an instruction that replaces the values on top by the
    value of an evaluation;
  * `Situated.follows_operator`, `Situated.follows_native` and
    `Situated.follows_truth`: operations, calls of built-in functions, and tests do
    what the evaluation says;
  * `Situated.follows_const`: a constant that is the same as a value is that value.
-/
import ByteLisp.Proofs.Generation.Typing
import ByteLisp.Proofs.Meaning.Variables

namespace ByteLisp

open Machine

namespace Meaning

variable {T : Scopes} {W : World} {N : Float → Prop} {g : Setting} {s : ScopeId} {v : View}
  {pos pos' n k : Nat} {L : Link} {σ σ' : Memory} {ls us : List Value} {m m' : Machine}
  {ns : List String} {x y z : Val} {a b w : Value} {E : Memory → Machine → Prop}

/-- A value of the wrong kind is refused. -/
theorem ends_refuse {α β : Type} {Q : α → Machine → Prop} {op : Op} {expected : Tag}
    (hx : x.Is T W N L m.heap a) (hE : E σ m) :
    Ends (typeFault op expected a : Run α) m Q (Allowed E ((refuse op expected x : Eval β) σ)) :=
  ends_typeFault hx.tag? (Or.inr ⟨σ, rfl, hE⟩)

/-- An action looks whether two values are texts. -/
theorem ends_texts {α : Type} {act : Option String → Option String → Run α} {Q : α → Machine → Prop}
    {F : Fault → Machine → Prop} (hx : x.Is T W N L m.heap a) (hy : y.Is T W N L m.heap b)
    (hact : Ends (act x.text? y.text?) m Q F) :
    Ends (do let p ← textOf a; let q ← textOf b; act p q) m Q F :=
  ends_bind (ends_textOf (ends_bind (ends_textOf (by rwa [hx.text?, hy.text?]))))

/-- What an operation leaves: its value, in place of what it is applied to. -/
def Setting.Answers (g : Setting) (T : Scopes) (W : World) (N : Float → Prop) (S : Stage) (ls : List Value)
    (pos : Nat) (x : Val) (σ : Memory) (m : Machine) : Prop :=
  ∃ L a, Linked T W N ⟨L, σ, m.world⟩ ∧ Grown T (fun _ => False) S ⟨L, σ, m.world⟩ ∧
    m.At g pos (ls ++ [a]) ∧ x.Is T W N L m.heap a

theorem Situated.leaves (h : Situated T W N g s (v.push k) pos L σ (ls ++ us) m)
    (hv : Standing T s v ns) (hk : us.length = k)
    (ha : g.Answers T W N ⟨L, σ, m.world⟩ ls pos' z σ' m') :
    g.Leaves T W N s v ⟨L, σ, m.world⟩ ls pos' .value z σ' m' := by
  have hd : ls.length = v.depth := by
    have := h.depth
    rw [List.length_append, hk, View.depth_push] at this
    exact Nat.add_right_cancel this
  obtain ⟨L', w, hl, hg, hat, hz⟩ := ha
  refine ⟨L', ls, w, ⟨?_, hg.mono fun _ h => h.elim, .refl v ls⟩, hz⟩
  refine h.next hl hg hat (by rw [List.length_append, hd]; rfl) rfl rfl fun y hy => ?_
  have hlt := hd ▸ hv.depth y hy
  rw [List.getElem?_append_left hlt, List.getElem?_append_left hlt]

/-- An instruction replaces the values on top by the value of an evaluation. -/
theorem Situated.ends_answer (h : Situated T W N g s (v.push k) pos L σ (ls ++ us) m)
    (hv : Standing T s v ns) (hk : us.length = k) (hat : m'.At g pos' ls)
    (hl : Linked T W N ⟨L, σ, m'.world⟩)
    (hg : Grown T (fun _ => False) ⟨L, σ, m.world⟩ ⟨L, σ, m'.world⟩) (hz : z.Is T W N L m'.heap w) :
    Ends (Machine.push w) m'
      (fun _ m'' => m''.Follows n (g.Leaves T W N s v ⟨L, σ, m.world⟩ ls pos' .value) (Halted T W N)
        (.ok z σ))
      (Allowed (Halted T W N) (.ok z σ : EStateM.Result Stop Memory Val)) :=
  ends_push (Or.inl rfl) (Or.inr ⟨_, .start, h.leaves hv hk ⟨L, w, hl, hg, hat.push w, hz⟩⟩)

/-! ## Operations -/

section

variable (h : Situated T W N g s (v.push 2) pos L σ (ls ++ [a, b]) m) (hx : x.Is T W N L m.heap a)
  (hy : y.Is T W N L m.heap b)
include h hx hy

/-- Two values are popped, and something is done with them. -/
theorem Situated.follows_two {i : Instr} {act : Run Unit} {body : Value → Value → Run Unit}
    {r : EStateM.Result Stop Memory Val} (hl : g.code.Lies pos [i])
    (hi : execute i = do act; pure none) (hact : act = do let q ← pop; let p ← pop; body p q)
    (hbody : ∀ m' : Machine, m'.At g (pos + i.size) ls → Linked T W N ⟨L, σ, m'.world⟩ →
      Grown T (fun _ => False) ⟨L, σ, m.world⟩ ⟨L, σ, m'.world⟩ → x.Is T W N L m'.heap a →
      y.Is T W N L m'.heap b → Ends (body a b) m'
        (fun _ m'' => m''.Follows n
          (g.Leaves T W N s v ⟨L, σ, m.world⟩ ls (pos + i.size) .value) (Halted T W N) r)
        (Allowed (Halted T W N) r)) :
    m.Follows n (g.Leaves T W N s v ⟨L, σ, m.world⟩ ls (pos + i.size) .value) (Halted T W N) r := by
  have hat := h.place.past (i := i)
  have hvals : (m.past i).stack.values = b :: a :: (g.below ++ ls).reverse := by
    rw [hat.values]
    simp
  refine (follows_execute (h.instr? hl) ?_).anti (Nat.le_succ n)
  rw [hi, hact]
  refine ends_seq (ends_bind (ends_pop hvals (ends_bind (ends_pop rfl ?_))))
  rw [put_put]
  exact hbody _ (hat.put rfl) h.linked (.refl ..) hx hy

variable (hv : Standing T s v ns)
include hv

theorem Situated.follows_arithmetic {i : Instr} {op : Op} {f : Float → Float → Float}
    (hl : g.code.Lies pos [i]) (hi : execute i = do Machine.arithmetic op f; pure none) :
    m.Follows n (g.Leaves T W N s v ⟨L, σ, m.world⟩ ls (pos + i.size) .value) (Halted T W N)
      (arithmetic op f x y σ) := by
  refine h.follows_two hx hy hl hi rfl fun m' hat linked grown hx' hy' => ?_
  cases hx with
  | number p =>
    cases hy with
    | number q => exact h.ends_answer hv rfl hat linked grown (.number (f p q))
    | _ => exact ends_refuse hy' ⟨L, linked⟩
  | _ => exact ends_refuse hx' ⟨L, linked⟩

theorem Situated.follows_add (hl : g.code.Lies pos [.add]) :
    m.Follows n (g.Leaves T W N s v ⟨L, σ, m.world⟩ ls (pos + 1) .value) (Halted T W N)
      (add x y σ) := by
  refine h.follows_two (i := .add) hx hy hl rfl rfl fun m' hat linked grown hx' hy' => ?_
  cases hx with
  | number p =>
    cases hy with
    | number q => exact h.ends_answer hv rfl hat linked grown (.number (p + q))
    | _ => exact ends_texts hx' hy' (ends_refuse hy' ⟨L, linked⟩)
  | @string p =>
    cases hy with
    | @string q =>
      refine ends_texts hx' hy' (ends_bind (ends_alloc ?_))
      exact h.ends_answer hv rfl (hat.of_same rfl rfl rfl) (linked.alloc (.string (p ++ q)))
        (grown.trans (grown_alloc _)) (.string (Heap.get?_alloc_size ..))
    | _ => exact ends_texts hx' hy' (ends_refuse hy' ⟨L, linked⟩)
  | _ => cases hy <;> exact ends_texts hx' hy' (ends_refuse hx' ⟨L, linked⟩)

theorem Situated.follows_compare (c : Comparison) (hl : g.code.Lies pos [.cmp c.code]) :
    m.Follows n (g.Leaves T W N s v ⟨L, σ, m.world⟩ ls (pos + 2) .value) (Halted T W N)
      (compare c x y σ) := by
  have hi : execute (.cmp c.code) = (do Machine.compare c; pure none) := by
    rw [execute, Comparison.ofCode?_code]
  refine h.follows_two (i := .cmp c.code) hx hy hl hi rfl fun m' hat linked grown hx' hy' => ?_
  cases hx with
  | number p =>
    cases hy with
    | number q => exact h.ends_answer hv rfl hat linked grown (.boolean (c.numbers p q))
    | _ => exact ends_texts hx' hy' (ends_refuse hy' ⟨L, linked⟩)
  | boolean p =>
    cases hy with
    | boolean q =>
      rw [compare]
      dsimp only
      split
      · exact h.ends_answer hv rfl hat linked grown (.boolean (c.booleans p q))
      · exact ends_refuse hx' ⟨L, linked⟩
    | _ => exact ends_refuse hx' ⟨L, linked⟩
  | @string p =>
    cases hy with
    | @string q =>
      exact ends_texts hx' hy' (h.ends_answer hv rfl hat linked grown (.boolean (c.strings p q)))
    | _ => exact ends_texts hx' hy' (ends_refuse hy' ⟨L, linked⟩)
  | _ => cases hy <;> exact ends_texts hx' hy' (ends_refuse hx' ⟨L, linked⟩)

/-- The instruction of an operation. -/
theorem Situated.follows_operator (op : Operator) (hl : g.code.Lies pos [Emit.operator op]) :
    m.Follows n (g.Leaves T W N s v ⟨L, σ, m.world⟩ ls (pos + (Emit.operator op).size) .value)
      (Halted T W N) (operate op x y σ) := by
  cases op with
  | add => exact h.follows_add hx hy hv hl
  | compare c => exact h.follows_compare hx hy hv c hl
  | sub | mul | div => exact h.follows_arithmetic hx hy hv hl rfl

end

/-! ## Tests and jumps -/

namespace Situated

/-- A test goes on by its truth value. -/
theorem follows_truth {α : Type} {f : Bool → Eval α} {Q : α → Memory → Machine → Prop} {t : UInt16}
    (h : Situated T W N g s (v.push 1) pos L σ (ls ++ [a]) m) (hv : Standing T s v ns)
    (hx : x.Is T W N L m.heap a) (hl : g.code.Lies pos [.jumpIfFalse t])
    (hf : ∀ b m', Situated T W N g s v (if b then pos + 3 else t.toNat) L σ ls m' →
      m'.world = m.world → m'.Follows n Q (Halted T W N) (f b σ)) :
    m.Follows (n + 1) Q (Halted T W N) ((truth x >>= f) σ) := by
  have hat := h.place.past (i := .jumpIfFalse t)
  refine follows_execute (h.instr? hl) (ends_bind (ends_pop hat.values_top ?_))
  have hx' : x.Is T W N L ((m.past (.jumpIfFalse t)).put (g.below ++ ls).reverse).heap a := hx
  cases hx with
  | boolean b =>
    cases b with
    | true => exact ends_pure ⟨rfl, hf true _ (h.drop hv rfl hat.pop rfl) rfl⟩
    | false => exact ends_seq (ends_modify (hf false _ (h.drop hv rfl (hat.pop.goto _) rfl) rfl))
  | _ => exact ends_bind (ends_refuse hx' ⟨L, h.linked⟩)

/-- A jump goes on elsewhere. -/
theorem step_jump {t : UInt16} (h : Situated T W N g s v pos L σ ls m) (hl : g.code.Lies pos [.jump t]) :
    ∃ m', step m = .ok none m' ∧ m'.world = m.world ∧ Situated T W N g s v t.toNat L σ ls m' := by
  obtain ⟨m', hs, hw, h⟩ := reaches_execute (i := .jump t)
    (P := fun m' => m'.world = m.world ∧ Situated T W N g s v t.toNat L σ ls m') (h.instr? hl)
    (ends_seq (ends_modify ⟨rfl, h.put ((h.place.past (i := .jump t)).goto _) rfl h.depth rfl rfl
      fun _ _ => rfl⟩))
  exact ⟨m', hs, hw, h⟩

/-- Variables under the top are dropped. -/
theorem follows_exit {is : List Instr}
    (h : Situated T W N g s (v.push (k + 1)) pos L σ (ls ++ (us ++ [a])) m) (hv : Standing T s v ns)
    (hk : us.length = k) (hx : x.Is T W N L m.heap a) (he : Exits k is) (hl : g.code.Lies pos is) :
    m.Follows n (g.Leaves T W N s v ⟨L, σ, m.world⟩ ls (pos + Instr.total is) .value) (Halted T W N)
      (.ok x σ) := by
  cases he with
  | none =>
    rw [List.length_eq_zero_iff.1 hk] at h
    exact Or.inr ⟨m, .start, L, ls, a, ⟨h, .refl .., .refl v ls⟩, hx⟩
  | @some k hne =>
    have hat := h.place.past (i := .scopeExit k)
    have hvals : (m.past (.scopeExit k)).stack.values =
        a :: (us.reverse ++ (g.below ++ ls).reverse) := by
      rw [hat.values]
      simp
    refine (follows_execute (h.instr? hl) ?_).anti (Nat.le_succ n)
    rw [execute, if_pos hne]
    refine ends_bind (ends_pop hvals (ends_bind (ends_drop rfl (by simp [hk]) (ends_seq ?_))))
    exact h.ends_answer hv (by simp [hk]) (hat.put rfl) h.linked (.refl ..) hx

end Situated

/-! ## Constants -/

/-- The numbers among the constants satisfy `N`, and two of them that are equal are the same. -/
structure Numbered (W : World) (N : Float → Prop) : Prop where
  same : ∀ x y, N x → N y → (x == y) = true → x = y
  constants : ∀ i c x, W.heap.code? i = some c → Value.number x ∈ c.constants → N x

section

variable {c : Code} {i : Handle} {ix : UInt8} {p : Float}

theorem holds_number (hW : Numbered W N) (hp : N p) (hc : W.heap.code? i = some c)
    (h : Holds W c ix (.number p)) : c.constants[ix.toNat]? = some (.number p) := by
  obtain ⟨u, hu, rfl | hs⟩ := h
  · exact hu
  · cases u with
    | number r =>
      have hr : N r := hW.constants i c r hc (Array.mem_of_getElem? hu)
      rw [hu, hW.same r p hr hp hs]
    | boolean r => cases hs
    | object j => cases hs

/-- An instruction that pushes a constant. -/
theorem Situated.follows_const {u : Value} (h : Situated T W N g s v pos L σ ls m)
    (hv : Standing T s v ns) (hl : g.code.Lies pos [.const ix])
    (hu : g.code.constants[ix.toNat]? = some u) (hx : x.Is T W N L m.heap u) :
    m.Follows n (g.Leaves T W N s v ⟨L, σ, m.world⟩ ls (pos + 2) .value) (Halted T W N) (.ok x σ) := by
  refine h.follows_push hv hl hx fun he => ends_bind (ends_get (ends_bind (ends_codeAt (c := g.code) ?_
    (ends_bind (ends_expect (a := u) hu (ends_seq he))))))
  rw [h.place.past.current]
  exact h.code?

end

end Meaning

end ByteLisp
