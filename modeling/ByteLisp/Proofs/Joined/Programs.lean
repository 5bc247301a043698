/-
  ByteLisp: the code at the top of a program.

  The variables at the top of a program are global, so that between two forms of it
  the stack holds the main function only, and no variable is in view.

  * `Form.emitDropped`: the code of forms whose values are dropped; what follows on
    them can be generated afterwards (`emitBody_append`);
  * `Form.emitDropped_of_emitBody`: dropping the value of a program as well;
  * `Expr.compile_body`: a compilation generates the code of the forms at the top.
-/
import ByteLisp.Proofs.Generation.Fresh
import ByteLisp.Proofs.Joined.Emission

namespace ByteLisp

namespace Form

open Emit Scopes

/-! ## Forms whose values are dropped -/

/-- The code of forms that leave nothing but variables. -/
def emitDropped (T : Scopes) (s : ScopeId) : List Form → Emit (List Instr)
  | [] => return []
  | f :: fs => do
    let code ← separate (emit T s true f)
    return code ++ (← emitDropped T s fs)

variable {T : Scopes} {s : ScopeId} {f : Form} {fs gs : List Form} {direct : Bool} {e e' : Emission}
  {code : List Instr} {eff : Effect}

/-- The forms of a block before some others. -/
theorem emitBody_append (hgs : gs ≠ []) (h : emitBody T s (fs ++ gs) e = .ok code e') :
    ∃ first e₁ second, emitDropped T s fs e = .ok first e₁ ∧ emitBody T s gs e₁ = .ok second e' ∧
      code = first ++ second := by
  induction fs generalizing e code with
  | nil => exact ⟨[], e, code, rfl, h, rfl⟩
  | cons f fs ih =>
    obtain ⟨g, rest, hrest⟩ : ∃ g rest, fs ++ gs = g :: rest := List.exists_cons_of_ne_nil (by simp [hgs])
    rw [List.cons_append, hrest, emitBody] at h
    simp only [bind_ok, pure_ok] at h
    obtain ⟨c, e₁, h₁, r, e₂, h₂, rfl, rfl⟩ := h
    rw [← hrest] at h₂
    obtain ⟨first, e₃, second, h₃, h₄, rfl⟩ := ih h₂
    refine ⟨c ++ first, e₃, second, ?_, h₄, (List.append_assoc ..).symm⟩
    rw [emitDropped, bind_ok]
    exact ⟨c, e₁, h₁, bind_ok.2 ⟨first, e₃, h₃, rfl⟩⟩

/-- What is declared at the top is global. -/
theorem storageOf_root (hT : (T.scope root).Top) (name : String) :
    T.storageOf root name .unbound = .global := by
  rw [Scopes.storageOf, Scopes.lookup, chain_root hT, find?_root]
  split
  · exact Aligned.storage_root hT
  · rfl

theorem declare_root (hT : (T.scope root).Top) {whole : Form} {name : String}
    (h : Emit.declare T root whole name direct e = .ok (eff, code) e') : eff = .value := by
  unfold Emit.declare at h
  rw [storageOf_root hT] at h
  simp only [bind_ok, pure_ok] at h
  obtain ⟨_, _, -, _, _, -, _, _, -, _, _, -, h, -⟩ := h
  exact (Prod.mk.inj h).1.symm

/-- A form at the top leaves its value. -/
theorem emit_root (hT : (T.scope root).Top) (h : f.emit T root direct e = .ok (eff, code) e') :
    eff = .value := by
  cases f with
  | declare name init | define name f params body =>
    simp only [emit, bind_ok, pure_ok] at h
    obtain ⟨_, _, -, _, _, hd, h, -⟩ := h
    cases h
    exact declare_root hT hd
  | malformed x why => exact (throw_ok.1 h).elim
  | _ =>
    simp only [emit, valued, bind_ok, pure_ok, Prod.mk.injEq] at h
    grind

/-- Dropping the value of a program as well. -/
theorem emitDropped_of_emitBody (hT : (T.scope root).Top) (hfs : fs ≠ [])
    (h : emitBody T root fs e = .ok code e') :
    emitDropped T root fs e = .ok (code ++ [.pop]) { e' with draft := (e'.draft.shrink 1).advance 1 } := by
  induction fs generalizing e code with
  | nil => exact absurd rfl hfs
  | cons f fs ih =>
    rw [emitDropped, bind_ok]
    cases fs with
    | nil =>
      obtain ⟨⟨eff, c⟩, e₁, h₁, h₂⟩ := bind_ok.1 h
      obtain rfl := emit_root hT h₁
      obtain ⟨rfl, rfl⟩ := pure_ok.1 h₂
      refine ⟨c ++ [.pop], _, bind_ok.2 ⟨(.value, c), e₁, h₁, rfl⟩, ?_⟩
      rw [emitDropped, bind_ok]
      exact ⟨[], _, rfl, by rw [List.append_nil]; rfl⟩
    | cons g rest =>
      rw [emitBody] at h
      simp only [bind_ok, pure_ok] at h
      obtain ⟨c, e₁, h₁, r, e₂, h₂, rfl, rfl⟩ := h
      exact ⟨c, e₁, h₁, bind_ok.2 ⟨_, _, ih (List.cons_ne_nil g rest) h₂, by rw [List.append_assoc]; rfl⟩⟩

theorem emitDropped_twins {S : Sides} {U T' : Scopes} {n : Nat} (hS : S.Fair)
    (hT : Aligned U T T' n) {s : Nat}
    (hs : s < n) (fs : List Form) (hf : AllBelow n fs) (hp : Expr.AllPlain (toExprs fs)) :
    Twins S True S.Instrs (emitDropped T s fs) (emitDropped T' (U.shift s) (allBehind U fs)) := by
  induction fs with
  | nil => exact twins_pure fun _ => .nil
  | cons f fs ih =>
    refine twins_bind (twins_separate (emit_twins hS hT hs true f hf.1 hp.1)) fun _ _ => ?_
    refine twins_bind ((ih hf.2 hp.2).weaken And.right) fun _ _ => twins_pure ?_
    rintro ⟨hrest, hfirst, _⟩
    exact Sides.instrs_append hfirst hrest

/-! ## Where the emission stands -/

theorem within_self (e : Emission) : e.Within e.world (e.draft.finish []) :=
  ⟨fun _ _ h => h, fun _ _ h => h, fun _ _ h => h, fun _ _ h => h, rfl⟩

theorem growing_dropped : Growing (fun _ => True) (emitDropped T s fs) := by
  induction fs with
  | nil => exact growing_pure _
  | cons f fs ih =>
    exact growing_bind (growing_separate (emit_growing admits_true)) fun _ =>
      growing_bind ih fun _ => growing_pure _

/-- Between forms at the top the same is in view as at the start. -/
theorem at_emitDropped (hT : (T.scope root).Top) {v : View} {pos : Nat} (hv : v.Leveled) (ha : e.At v pos)
    (h : emitDropped T root fs e = .ok code e') : e'.At v (pos + Instr.total code) := by
  induction fs generalizing e pos code with
  | nil =>
    obtain ⟨rfl, rfl⟩ := pure_ok.1 h
    exact ha
  | cons f fs ih =>
    rw [emitDropped] at h
    simp only [bind_ok, pure_ok] at h
    obtain ⟨c, e₁, h₁, r, e₂, h₂, rfl, rfl⟩ := h
    obtain ⟨⟨eff, c'⟩, e₃, h₃, h₄⟩ := bind_ok.1 h₁
    obtain rfl := emit_root hT h₃
    obtain ⟨_, e₄, hd, hp⟩ := bind_ok.1 h₄
    obtain ⟨rfl, rfl⟩ := pure_ok.1 hp
    -- The value of the form is dropped, so the view is the same again.
    obtain ⟨o, ho, -, a₃, -⟩ := (emit_yields T e₃.world root true f).ok h₃ ha hv (within_self e₃)
    cases o with
    | slot name ix | cell name ix => cases ho
    | value =>
      simp only [Emit.discard, bind_ok, update_ok, instr_ok] at hd
      obtain ⟨_, _, rfl, rfl, rfl⟩ := hd
      have a₄ : Emission.At v (pos + Instr.total c' + 1)
          { e₃ with draft := (e₃.draft.shrink 1).advance Instr.pop.size } :=
        ⟨view_drop a₃.view, congrArg (· + 1) a₃.offset, a₃.named⟩
      rw [Instr.total_append, Instr.total_append, ← Nat.add_assoc, ← Nat.add_assoc]
      exact ih a₄ h₂

end Form

/-! ## Programs -/

open Scopes

variable {T : Scopes} {W : World} {c : Code} {v : View} {pos k : Nat} {code : List Instr} {as : List Access}

theorem Coded.value_root {f : Form} {direct : Bool} {o : Outcome} (hT : (T.scope root).Top)
    (h : Coded T W c root (.form direct f o) v pos code as) : o = .value := by
  have none {store name o} (h : Declares T W root v name direct o store) : o = .value := by
    cases h with
    | global => rfl
    | cell hs | inside hs | slot hs => cases (Form.storageOf_root hT _).symm.trans hs
  cases h with
  | declare _ hd | define _ hd => exact none hd
  | _ => rfl

/-- The forms at the top declare nothing on the stack. -/
theorem Coded.no_locals {fs : List Form} (hT : (T.scope root).Top)
    (h : Coded T W c root (.body fs k) v pos code as) : k = 0 := by
  induction fs generalizing v pos k code as with
  | nil => cases h; rfl
  | cons f fs ih =>
    cases h with
    | last hf => rw [hf.value_root hT]; rfl
    | next hf hr => rw [hf.value_root hT, ih hr]; rfl

/-- The view between the forms at the top: the main function is on the stack. -/
def View.top : View := View.start.enter 0 []

/-- Where the code of the forms at the top starts. -/
def Emission.opened (heap : Heap) (globals : Globals) (notes : Array String) : Emission :=
  ⟨heap, globals, notes, (Draft.start "main" 0 1 #[] #[]).enterBlock⟩

/-- The main code object, whose code was generated up to the end of the forms at the top. -/
def Draft.main (d : Draft) (code : List Instr) : Code := (d.exitBlock.advance 1).finish (code ++ [.halt])

theorem Emission.at_opened (heap : Heap) (globals : Globals) (notes : Array String) :
    (Emission.opened heap globals notes).At .top 0 := ⟨rfl, rfl, nofun⟩

theorem View.leveled_top : View.top.Leveled := View.leveled_start.enter 0 []

theorem Scopes.blockCells_root (hT : (T.scope root).Top) : T.blockCells root = [] := by
  rw [blockCells, hT.kind]
  rfl

/-- A block at the top drops nothing at its end. -/
theorem Emit.block_root {whole : Form} {fs : List Form} {h : Heap} {g : Globals} {notes : Array String}
    {e' : Emission} (hT : (T.scope root).Top)
    (hb : Emit.block T whole root 0 (Form.emitBody T root fs) (.start h g notes) = .ok code e') :
    ∃ e, Form.emitBody T root fs (.opened h g notes) = .ok code e ∧
      e' = { e with draft := e.draft.exitBlock } := by
  rw [block_eq, blockCells_root hT] at hb
  unfold blockEnd at hb
  simp only [bind_ok, draft_ok, update_ok, pure_ok] at hb
  obtain ⟨inner, _, hbody, _, e, ⟨rfl, rfl⟩, _, _, rfl, exit, e₂, hexit, rfl, rfl⟩ := hb
  obtain ⟨k, u, hk, ha, -, as, hc⟩ := (Form.emitBody_yields T e.world root fs).ok hbody
    (Emission.at_opened h g notes) View.leveled_top (Form.within_self e)
  obtain rfl := hc.no_locals hT
  rw [Draft.blockLocals_of_binds View.leveled_start hk ha.view] at hexit
  obtain ⟨rfl, rfl⟩ := pure_ok.1 hexit
  exact ⟨e, by rw [List.append_nil]; exact hbody, rfl⟩

/-- What a compilation generates for the forms at the top. -/
theorem Expr.compile_body {es : List Expr} {h : Heap} {g : Globals} {main : Handle}
    (hr : ((program es).compile h g).result = .ok main) :
    ∃ notes code e, Form.emitBody (topScopes es) root (topForms es) (.opened h g notes) = .ok code e ∧
      main = e.heap.size ∧ ((program es).compile h g).heap = e.heap.alloc (.code (e.draft.main code)) ∧
      ((program es).compile h g).globals = e.globals := by
  have hT := (behind_alone es).top
  obtain ⟨notes, hfirst⟩ := (program es).compile_cases h g
  split at hfirst
  · next main' e' hm =>
    rw [hfirst] at hr
    cases hr
    obtain ⟨code, e₁, c, h₁, rfl, rfl, hheap, hglobals⟩ := Emit.main_ok hm
    rw [ofResolved_program, resolveProgram_program] at h₁
    simp only [Emit.only, Form.emit, Emit.valued, Emit.bind_ok, Emit.pure_ok] at h₁
    obtain ⟨_, _, ⟨_, _, hb, rfl, rfl⟩, rfl, rfl⟩ := h₁
    obtain ⟨e₂, hbody, rfl⟩ := Emit.block_root hT hb
    exact ⟨notes, _, e₂, hbody, rfl, by rw [hfirst]; exact hheap, by rw [hfirst]; exact hglobals⟩
  · rw [hfirst] at hr
    cases hr

/-! ## One program behind another -/

namespace Expr

variable {as bs es : List Expr} {h h₁ : Heap} {g g₁ : Globals} {main : Handle} {e d d₀ : Emission}
  {code' : List Instr}

/-- The generation of the forms at the top of a program, up to the end. -/
structure Generates (es : List Expr) (h : Heap) (g : Globals) (main : Handle) (code : List Instr)
    (e : Emission) : Prop where
  body : ∃ notes, Form.emitBody (topScopes es) root (topForms es) (.opened h g notes) = .ok code e
  result : ((program es).compile h g).result = .ok main
  main : main = e.heap.size
  heap : ((program es).compile h g).heap = e.heap.alloc (.code (e.draft.main code))
  globals : ((program es).compile h g).globals = e.globals

theorem generates (hr : ((program es).compile h g).result = .ok main) :
    ∃ code e, Generates es h g main code e := by
  obtain ⟨notes, code, e, hbody, hmain, hheap, hglobals⟩ := compile_body hr
  exact ⟨code, e, ⟨notes, hbody⟩, hr, hmain, hheap, hglobals⟩

namespace Generates

theorem get_main (hg : Generates es h g main code e) :
    ((program es).compile h g).heap.get? main = some (.code (e.draft.main code)) := by
  rw [hg.heap, hg.main]
  exact Heap.get?_alloc_size ..

/-- The numbers of new code objects are those of the program. -/
theorem plain (hg : Generates es h g main code e) (hp : (program es).Plain) {i : Handle} {c : Code}
    {x : Float}
    (hi : h.size ≤ i) (hc : ((program es).compile h g).heap.code? i = some c) (hx : .number x ∈ c.constants) :
    Double.Plain x :=
  plain_numbers hp x ((((compile_fresh hg.result).2 i _ hi (Heap.code?_eq_some.1 hc)) _ hx).number x rfl)

theorem plain_main (hg : Generates es h g main code e) (hp : (program es).Plain) {x : Float}
    (hx : .number x ∈ (e.draft.main code).constants) : Double.Plain x :=
  hg.plain hp (compile_fresh hg.result).1.1 (Heap.code?_eq_some.2 hg.get_main) hx

theorem code? (hg : Generates es h g main code e) {i : Handle} {c : Code} (hc : e.heap.code? i = some c) :
    ((program es).compile h g).heap.code? i = some c := by
  rw [hg.heap, Heap.code?_eq_some]
  exact Heap.get?_alloc_of_some (Heap.code?_eq_some.1 hc)

end Generates

/-- A compilation of a program, and the part of another one that starts at `d₀`. -/
def sides (R : Handle → Handle → Prop) (h : Heap) (e : Emission) (code : List Instr) (d₀ d : Emission)
    (code' : List Instr) : Sides where
  world := e.world
  world' := d.world
  related := R
  start := h.size
  start' := d₀.heap.size
  code := e.draft.main code
  code' := d.draft.main code'
  dist := d₀.draft.offset
  skip := d₀.draft.own.size

/-- New objects are related in the order of allocation, and strings by their texts. -/
structure Relates (R : Handle → Handle → Prop) (h : Heap) (e d₀ d : Emission) : Prop where
  new : ∀ k, h.size + k < e.heap.size → R (h.size + k) (d₀.heap.size + k)
  string : ∀ i j text, e.heap.string? i = some text → d.heap.string? j = some text → R i j

theorem fair_sides {R : Handle → Handle → Prop} {main' : Handle} (hg : Generates es h₁ g₁ main code e)
    (hg' : Generates bs h g main' code' d) (hp : (program es).Plain) (hp' : (program bs).Plain)
    (hle : h.size ≤ d₀.heap.size) (hR : Relates R h₁ e d₀ d) : (sides R h₁ e code d₀ d code').Fair where
  new := hR.new
  string := hR.string
  numbers _ _ _ hi hc hx := hg.plain hp hi (hg.code? hc) hx
  numbers' _ _ _ hi hc hx := hg'.plain hp' (Nat.le_trans hle hi) (hg'.code? hc) hx
  here _ hx := hg.plain_main hp hx
  here' _ hx := hg'.plain_main hp' hx

theorem within_main (e : Emission) (code : List Instr) : e.Within e.world (e.draft.main code) :=
  ⟨fun _ _ h => h, fun _ _ h => h, fun _ _ h => h, fun _ _ h => h, rfl⟩

theorem length_topForms (es : List Expr) : (topForms es).length = es.length := by
  have entries (rs : List Resolved) : (Form.ofEntries rs).length = rs.length := by
    induction rs with
    | nil => rfl
    | cons r rs ih => rw [Form.ofEntries, List.length_cons, ih, List.length_cons]
  have resolved (es : List Expr) (s : Nat) (T : Scopes) : (resolveEntries s 0 es T).1.length = es.length := by
    induction es generalizing T with
    | nil => rfl
    | cons e es ih =>
      rw [resolveEntries]
      simp only [Walk.bind_apply, Walk.pure_apply, List.length_cons, ih]
  rw [topForms, entries, topWalk, resolved]

theorem plain_topForms (hp : (program es).Plain) : AllPlain (Form.toExprs (topForms es)) := by
  have h : (Form.block root (topForms es)).toExpr = program es := by
    rw [← ofResolved_program, Form.toExpr_ofResolved, Resolved.erase_resolveProgram]
  rw [← h] at hp
  exact hp.2

/-- The generation of a program whose forms are those of two programs: the forms of the first one, whose
    values are dropped, and the forms of the second one. -/
structure Split (as bs : List Expr) (h : Heap) (g : Globals) (d₀ d₁ d : Emission)
    (first second : List Instr) : Prop where
  start : ∃ notes, d₀ = .opened h g notes
  first : Form.emitDropped (topScopes (as ++ bs)) root (topForms as) d₀ = .ok first d₁
  second : Form.emitBody (topScopes (as ++ bs)) root (Form.allBehind (topScopes as) (topForms bs)) d₁ =
    .ok second d

theorem Generates.split (hg : Generates (as ++ bs) h g main code d) (hbs : bs ≠ []) :
    ∃ d₀ d₁ first second, Split as bs h g d₀ d₁ d first second ∧ code = first ++ second := by
  obtain ⟨notes, hbody⟩ := hg.body
  have hne : Form.allBehind (topScopes as) (topForms bs) ≠ [] := by
    rw [← List.length_pos_iff, Form.length_allBehind, length_topForms, List.length_pos_iff]
    exact hbs
  rw [(topWalk_append as bs).1] at hbody
  obtain ⟨first, d₁, second, h₁, h₂, rfl⟩ := Form.emitBody_append hne hbody
  exact ⟨_, d₁, first, second, ⟨⟨notes, rfl⟩, h₁, h₂⟩, rfl⟩

/-- A program gives the same code as itself. -/
theorem Generates.twins_self {R : Handle → Handle → Prop} (hg : Generates es h g main code e)
    (hp : (program es).Plain)
    (hd : ∃ notes, d₀ = .opened h g notes) (hF : (sides R h e code d₀ e code).Fair) :
    (sides R h e code d₀ e code).Instrs code code ∧ Emission.Twin (sides R h e code d₀ e code) e e := by
  obtain ⟨notes, hbody⟩ := hg.body
  obtain ⟨notes', rfl⟩ := hd
  have start : Emission.Twin (sides R h e code (.opened h g notes') e code) (.opened h g notes)
      (.opened h g notes) :=
    ⟨⟨0, rfl, rfl⟩, fun k o ho =>
      absurd (Heap.lt_size_of_get? ho) (Nat.not_lt.2 (Nat.le_add_right ..)), rfl, .refl _⟩
  have hT := (behind_alone es).toAligned
  have step := Form.emitBody_twins hF hT hT.pos (topForms es) (topForms_below es) (plain_topForms hp)
  rw [Form.allBehind_initial, Scopes.shift_initial] at step
  exact step.ok trivial hbody hbody (within_main e code) (within_main e code) start

namespace Split

variable {first second : List Instr} {d₁ : Emission} {R : Handle → Handle → Prop}

theorem within (hs : Split as bs h g d₀ d₁ d first second) (code : List Instr) :
    d₁.Within d.world (d.draft.main code) :=
  ((Form.emitBody_growing Form.admits_true).ok hs.second).within (within_main d code)

theorem grows (hs : Split as bs h g d₀ d₁ d first second) : d₀.Grows (fun _ => True) d₁ :=
  Form.growing_dropped.ok hs.first

theorem at_top (hs : Split as bs h g d₀ d₁ d first second) : d₁.At .top (Instr.total first) := by
  obtain ⟨notes, rfl⟩ := hs.start
  have ha := Form.at_emitDropped (topWalk_append as bs).2.top' View.leveled_top
    (Emission.at_opened h g notes) hs.first
  rwa [Nat.zero_add] at ha

/-- The forms of the first program give the same code as alone, and then the value is dropped. -/
theorem twins_first (hs : Split as bs h g d₀ d₁ d first second) (has : as ≠ [])
    (hg : Generates as h g main code e)
    (hp : (program as).Plain) {code' : List Instr} (hF : (sides R h e code d₀ d code').Fair) :
    (sides R h e code d₀ d code').Instrs (code ++ [.pop]) first ∧
      Emission.Twin (sides R h e code d₀ d code') { e with draft := (e.draft.shrink 1).advance 1 } d₁ := by
  obtain ⟨hscopes, hwalk⟩ := topWalk_append as bs
  obtain ⟨notes, hbody⟩ := hg.body
  have hne : topForms as ≠ [] := by
    rw [← List.length_pos_iff, length_topForms, List.length_pos_iff]
    exact has
  have hdrop := Form.emitDropped_of_emitBody (behind_alone as).top hne hbody
  have hs' := hs
  obtain ⟨⟨notes', rfl⟩, hfirst, -⟩ := hs'
  have start : Emission.Twin (sides R h e code (.opened h g notes') d code') (.opened h g notes)
      (.opened h g notes') :=
    ⟨⟨0, rfl, rfl⟩, fun k o ho =>
      absurd (Heap.lt_size_of_get? ho) (Nat.not_lt.2 (Nat.le_add_right ..)), rfl, .refl _⟩
  have step := Form.emitDropped_twins hF (hwalk.front (behind_alone as)) (behind_alone as).pos (topForms as)
    (topForms_below as) (plain_topForms hp)
  rw [Form.allBehind_initial, Scopes.shift_initial] at step
  exact step.ok trivial hdrop hfirst ⟨fun _ _ h => h, fun _ _ h => h, fun _ _ h => h, fun _ _ h => h, rfl⟩
    (hs.within _) start

/-- The forms of the second program give the same code as alone, after any run of the first one. -/
theorem twins_second (hs : Split as bs h g d₀ d₁ d first second) (hg : Generates bs h₁ g₁ main code e)
    (hp : (program bs).Plain) (hn : g₁.names = d₁.globals.names) {code' : List Instr}
    (hF : (sides R h₁ e code d₁ d code').Fair) :
    (sides R h₁ e code d₁ d code').Instrs code second ∧ Emission.Twin (sides R h₁ e code d₁ d code') e d := by
  obtain ⟨notes, hbody⟩ := hg.body
  have start : Emission.Twin (sides R h₁ e code d₁ d code') (.opened h₁ g₁ notes) d₁ := by
    obtain ⟨⟨notes', rfl⟩, -, -⟩ := id hs
    have hd := hs.grows.draft
    have hv := hs.at_top.view
    refine ⟨⟨0, rfl, rfl⟩, fun k o ho =>
      absurd (Heap.lt_size_of_get? ho) (Nat.not_lt.2 (Nat.le_add_right ..)), hn, ?_⟩
    exact ⟨hd.name, hd.arity, (Nat.zero_add _).symm, congrArg View.depth hv, congrArg View.level hv,
      congrArg View.slots hv, congrArg View.cells hv, hd.free, (Nat.zero_add _).symm⟩
  have step := Form.emitBody_twins hF (topWalk_append as bs).2.toAligned (behind_alone bs).pos (topForms bs)
    (topForms_below bs) (plain_topForms hp)
  have shift : (topScopes as).shift 0 = root := Scopes.shift_root ..
  rw [shift] at step
  exact step.ok trivial hbody hs.second (within_main e code) (within_main d code') start

end Split

end Expr

end ByteLisp
