/-
  ByteLisp: compiled code is well-formed.

  * `Code.Sensible`: all operands of some instructions of a code object mean
    something, and all jumps go to instructions;
  * `Code.WellFormed`: a code object decodes to such instructions, and ends with
    the given one;
  * `Expr.compile_wellFormed`: so do all code objects of a program.
-/
import ByteLisp.Proofs.Generation.Typing

namespace ByteLisp

/-- All operands mean something in a code object, and all jumps go to instructions. -/
structure Code.Sensible (heap : Heap) (globals : Globals) (c : Code) (code : List Instr) : Prop where
  jumps : ∀ i ∈ code, ∀ t, i.address? = some t → ∃ j, (t.toNat, j) ∈ Instr.placed 0 code
  constants : ∀ ix, .const ix ∈ code → ix.toNat < c.constants.size
  cells : ∀ ix, .getCell ix ∈ code ∨ .setCell ix ∈ code ∨ .loadCell ix ∈ code →
    ix.toNat < c.cellNames.size
  comparisons : ∀ b, .cmp b ∈ code → ∃ o, Comparison.ofCode? b = some o
  globals : ∀ ix, .getGlobal ix ∈ code ∨ .setGlobal ix ∈ code → ix.toNat < globals.size
  /-- A function is made from the code object that is loaded just before. -/
  functions : ∀ pre n post, code = pre ++ .makeFunction n :: post →
    ∃ pre' ix h c', pre = pre' ++ [.const ix] ∧ c.constants[ix.toNat]? = some (.object h) ∧
      heap.code? h = some c' ∧ n.toNat = c'.free.size

/-- A code object decodes to instructions that cover its bytes, and the last of them is the
    only one that ends an activation or the run. -/
def Code.WellFormed (heap : Heap) (globals : Globals) (c : Code) (last : Instr) : Prop :=
  ∃ body, c.instrs = .ok (Instr.placed 0 (body ++ [last])) ∧
    c.bytes = ((body ++ [last]).flatMap Instr.encode).toArray ∧
    c.Sensible heap globals (body ++ [last]) ∧ .halt ∉ body ∧ .ret ∉ body

/-! ## Code objects on the stack -/

section

variable {A : Handle → Prop} {W : World} {h : Heap} {c : Code} {pos k : Nat} {σ : Shape}

theorem constant_of_kind {ix : UInt8} (hk : c.kind h ix = .code k) :
    ∃ i c', c.constants[ix.toNat]? = some (.object i) ∧ h.code? i = some c' ∧ c'.free.size = k := by
  unfold Code.kind at hk
  cases hx : c.constants[ix.toNat]? with
  | none => rw [hx] at hk; cases hk
  | some v =>
    rw [hx, Option.getD_some] at hk
    unfold Heap.kind at hk
    split at hk
    · next i =>
      split at hk
      · next c' hc =>
        cases hk
        exact ⟨i, c', rfl, Heap.code?_eq_some.2 hc, rfl⟩
      · cases hk
      · cases hk
    · cases hk

/-- Code objects are only there for `makeFunction`. -/
theorem Instr.Fits.clear {i : Instr} (hi : i.Fits A W c σ) (hm : ∀ n, i ≠ .makeFunction n) (k : Nat) :
    .code k ∉ σ := by
  have h := hi.awaits
  cases i with
  | makeFunction n => exact absurd rfl (hm n)
  | const _ | loadCell _ =>
    obtain ⟨j, m, rfl⟩ := h
    exact code_not_mem_loaded
  | _ =>
    obtain ⟨m, -, rfl⟩ := h
    exact fun hk => nomatch eq_plain_of_mem hk

/-- Only a constant puts a code object on the stack. -/
theorem Instr.Fits.const_of_mem_next {i : Instr} (hi : i.Fits A W c σ)
    (hk : .code k ∈ i.next W.heap c pos σ) : ∃ ix, i = .const ix ∧ c.kind W.heap ix = .code k := by
  by_cases hm : ∃ n, i = .makeFunction n
  · obtain ⟨n, rfl⟩ := hm
    obtain ⟨m, rfl⟩ := hi.operand
    rw [next, List.drop_succ_cons, List.mem_cons] at hk
    rcases hk with hk | hk
    · cases hk
    · exact absurd (List.mem_of_mem_drop hk) code_not_mem_loaded
  · have clear := hi.clear (fun n hn => hm ⟨n, hn⟩) k
    have dropped {m : Nat} (h : Kind.code k ∈ σ.drop m) : False := clear (List.mem_of_mem_drop h)
    cases i with
    | const ix =>
      rcases List.mem_cons.1 hk with hk | hk
      · exact ⟨ix, rfl, hk.symm⟩
      · exact absurd hk clear
    | makeFunction n => exact absurd ⟨n, rfl⟩ hm
    | jump t =>
      rw [next] at hk
      split at hk
      · exact absurd hk clear
      · exact (dropped hk).elim
    | scopeExit n =>
      rcases List.mem_append.1 hk with hk | hk
      · exact absurd (List.mem_of_mem_take hk) clear
      · exact (dropped hk).elim
    | jumpIfFalse _ | pop => exact (dropped hk).elim
    | setGlobal _ | setLocal _ | setCell _ | halt | ret => exact absurd hk clear
    | add | sub | mul | div | cmp _ | call _ =>
      rcases List.mem_cons.1 hk with hk | hk
      · cases hk
      · exact (dropped hk).elim
    | getGlobal _ | getLocal _ | getCell _ | loadCell _ =>
      rcases List.mem_cons.1 hk with hk | hk
      · cases hk
      · exact absurd hk clear

/-- Where a code object lies on the stack, the instruction before pushes it. -/
theorem Typed.const_before {P : Nat → Shape → Prop} {code pre post : List Instr}
    (ht : Typed A W c P pos σ code) (hcode : code = pre ++ post) (hσ : ∀ k, .code k ∉ σ)
    (hk : .code k ∈ Instr.scan W.heap c pos σ pre) :
    ∃ pre' ix, pre = pre' ++ [.const ix] ∧ c.kind W.heap ix = .code k := by
  rcases List.eq_nil_or_concat pre with rfl | ⟨pre', i, rfl⟩
  · exact absurd hk (hσ k)
  · rw [List.concat_eq_append] at hcode hk ⊢
    rw [scan_append] at hk
    rw [List.append_assoc] at hcode
    obtain ⟨ix, rfl, hk'⟩ := (ht pre' i post hcode).1.const_of_mem_next hk
    exact ⟨pre', ix, rfl, hk'⟩

end

/-! ## Code objects -/

theorem Checked.wellFormed {A : Handle → Prop} {W : World} {c : Code} {last : Instr} {n : Nat}
    (h : Checked A W c last n) (hl : last = .halt ∨ last = .ret) :
    c.WellFormed W.heap W.globals last := by
  obtain ⟨body, hb, ht, -⟩ := h
  have fits {i : Instr} (hi : i ∈ body) : ∃ σ, i.Fits A W c σ := by
    obtain ⟨pre, post, rfl⟩ := List.append_of_mem hi
    exact ⟨_, (ht pre i post rfl).1⟩
  have inBody {i : Instr} (hi : i ∈ body ++ [last]) (hh : i ≠ .halt) (hr : i ≠ .ret) : i ∈ body := by
    rcases List.mem_append.1 hi with hi | hi
    · exact hi
    · rw [List.mem_singleton.1 hi] at hh hr
      exact (hl.elim hh hr).elim
  refine ⟨body, Code.instrs_eq_placed hb, hb, ?_, ?_, ?_⟩
  · constructor
    · intro i hi t ha
      have hi := inBody hi (fun h => by subst h; cases ha) (fun h => by subst h; cases ha)
      obtain ⟨pre, post, rfl⟩ := List.append_of_mem hi
      obtain ⟨pre', post', hcode, hp, -⟩ := (ht pre i post rfl).2 t ha
      rw [hcode, List.append_assoc]
      cases post' with
      | nil => exact ⟨last, Instr.mem_placed.2 ⟨pre', [], rfl, hp⟩⟩
      | cons j post' => exact ⟨j, Instr.mem_placed.2 ⟨pre', post' ++ [last], rfl, hp⟩⟩
    · intro ix hi
      obtain ⟨σ, hf⟩ := fits (inBody hi nofun nofun)
      obtain ⟨v, hv, -⟩ := hf.operand
      exact (Array.getElem?_eq_some_iff.1 hv).1
    · rintro ix (hi | hi | hi)
      all_goals
        obtain ⟨σ, hf⟩ := fits (inBody hi nofun nofun)
        exact hf.operand
    · intro b hi
      obtain ⟨σ, hf⟩ := fits (inBody hi nofun nofun)
      exact Option.isSome_iff_exists.1 hf.operand
    · rintro ix (hi | hi)
      all_goals
        obtain ⟨σ, hf⟩ := fits (inBody hi nofun nofun)
        exact hf.operand
    · intro pre n post hcode
      rcases List.eq_nil_or_concat post with rfl | ⟨post', i, rfl⟩
      · have := (List.append_inj' hcode rfl).2
        rcases hl with rfl | rfl <;> cases this
      · rw [List.concat_eq_append, ← List.cons_append, ← List.append_assoc] at hcode
        obtain ⟨rfl, -⟩ := List.append_inj' hcode rfl
        obtain ⟨m, hτ⟩ := (ht pre _ post' rfl).1.operand
        have top : Kind.code n.toNat ∈ Instr.scan W.heap c 0 (plain (c.arity + 1)) pre := by
          rw [hτ]
          exact List.mem_cons_self
        obtain ⟨pre', ix, rfl, hk⟩ := ht.const_before rfl (fun k h => nomatch eq_plain_of_mem h) top
        obtain ⟨i, c', hx, hc', hf⟩ := constant_of_kind hk
        exact ⟨pre', ix, i, c', rfl, hx, hc', hf.symm⟩
  · intro hi
    obtain ⟨σ, hf⟩ := fits hi
    exact hf.operand
  · intro hi
    obtain ⟨σ, hf⟩ := fits hi
    exact hf.operand

/-- Every code object that a successful compilation allocates is well-formed: the main one ends
    with the only `halt`, the functions of the program end with their only `ret`. -/
theorem Expr.compile_wellFormed {e : Expr} {heap : Heap} {globals : Globals} {main : Handle}
    (h : (e.compile heap globals).result = .ok main) :
    let r := e.compile heap globals
    (∃ c, r.heap.code? main = some c ∧ c.WellFormed r.heap r.globals .halt) ∧
      ∀ i c, heap.size ≤ i → i ≠ main → r.heap.code? i = some c →
        c.WellFormed r.heap r.globals .ret := by
  obtain ⟨⟨c, hc, hmain⟩, hcodes⟩ := Expr.compile_ok h
  refine ⟨⟨c, hc, hmain.checked.wellFormed (Or.inl rfl)⟩, fun i c' hi hne hc' => ?_⟩
  rcases hcodes i c' hc' with hold | rfl | hnew
  · exact absurd (Heap.lt_size_of_get? (Heap.code?_eq_some.1 hold)) (Nat.not_lt.2 hi)
  · exact absurd rfl hne
  · exact hnew.checked.wellFormed (Or.inr rfl)

/-- A program with a function that makes closures: `(begin (def f (x) (lambda () x)) ((f "a")))`. -/
def Expr.keeping : Expr :=
  .list [.symbol "begin",
    .list [.symbol "def", .symbol "f", .list [.symbol "x"],
      .list [.symbol "lambda", .list [], .symbol "x"]],
    .list [.list [.symbol "f", .string "a"]]]

theorem compile_wellFormed_keeping :
    (Expr.keeping.compile .empty .empty).result = .ok 4 ∧
      ∃ c, (Expr.keeping.compile .empty .empty).heap.code? 4 = some c ∧
        c.WellFormed (Expr.keeping.compile .empty .empty).heap
          (Expr.keeping.compile .empty .empty).globals .halt := by
  have h : (Expr.keeping.compile .empty .empty).result = .ok 4 :=
    Compilation.result_eq_ok (by decide +kernel)
  exact ⟨h, (Expr.compile_wellFormed h).1⟩

end ByteLisp
