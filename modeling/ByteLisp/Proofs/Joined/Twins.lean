/-
  ByteLisp: the code of a form in two compilations.

  A form that is compiled alone and behind another program gives the same
  instructions, but for the places of its constants, its cells and its addresses.
  The objects that are allocated on the way correspond to one another.

  * `Value.Twin` to `Object.Twin`: the same up to handles that are related;
  * `Sides`: two compilations at the same point; `Emission.Twin`: where they stand;
  * `Emit.Twins`: two actions that give related results and go on in step; there is
    one lemma for each action, up to `Form.emit_twins` and `Form.emitBody_twins`.
-/
import ByteLisp.Proofs.Generation.Renamed
import ByteLisp.Proofs.Joined.Forms
import ByteLisp.Proofs.Syntax.Literals
import Mathlib.Data.List.Forall2

namespace ByteLisp

/-! ## Related values, code and objects -/

/-- The same value, or objects whose handles are related. -/
inductive Value.Twin (R : Handle → Handle → Prop) : Value → Value → Prop
  | number (x : Float) : Twin R (.number x) (.number x)
  | boolean (b : Bool) : Twin R (.boolean b) (.boolean b)
  | object {i j : Handle} (h : R i j) : Twin R (.object i) (.object j)

/-- The instructions that are the same in both compilations; none of them ends a run. -/
def Instr.Fixed : Instr → Prop
  | .halt | .const _ | .jump _ | .jumpIfFalse _ | .getCell _ | .setCell _ | .loadCell _ => False
  | _ => True

/-- The same instruction, where the constants are `cs` and `cs'`, and the second code stands `dist`
    bytes further and has its cells `skip` places further. -/
inductive Instr.Twin (R : Handle → Handle → Prop) (cs cs' : Array Value) (dist skip : Nat) :
    Instr → Instr → Prop
  | fixed {i : Instr} (h : i.Fixed) : Twin R cs cs' dist skip i i
  | const {ix ix' : UInt8} {u u' : Value} (h : cs[ix.toNat]? = some u) (h' : cs'[ix'.toNat]? = some u')
    (hu : u.Twin R u') : Twin R cs cs' dist skip (.const ix) (.const ix')
  | jump {t t' : UInt16} (h : t'.toNat = t.toNat + dist) : Twin R cs cs' dist skip (.jump t) (.jump t')
  | jumpIfFalse {t t' : UInt16} (h : t'.toNat = t.toNat + dist) :
    Twin R cs cs' dist skip (.jumpIfFalse t) (.jumpIfFalse t')
  | getCell {ix ix' : UInt8} (h : ix'.toNat = ix.toNat + skip) :
    Twin R cs cs' dist skip (.getCell ix) (.getCell ix')
  | setCell {ix ix' : UInt8} (h : ix'.toNat = ix.toNat + skip) :
    Twin R cs cs' dist skip (.setCell ix) (.setCell ix')
  | loadCell {ix ix' : UInt8} (h : ix'.toNat = ix.toNat + skip) :
    Twin R cs cs' dist skip (.loadCell ix) (.loadCell ix')

/-- Code objects of the same function. -/
structure Code.Twin (R : Handle → Handle → Prop) (c c' : Code) : Prop where
  name : c.name = c'.name
  arity : c.arity = c'.arity
  own : c.own.size = c'.own.size
  instrs : ∃ is is', c.bytes = Instr.bytes is ∧ c'.bytes = Instr.bytes is' ∧
    List.Forall₂ (Instr.Twin R c.constants c'.constants 0 0) is is'

/-- The same object up to handles. -/
inductive Object.Twin (R : Handle → Handle → Prop) : Object → Object → Prop
  | string (text : String) : Twin R (.string text) (.string text)
  | native {n : Native} (h : n ∈ Native.builtins) : Twin R (.native n) (.native n)
  | code {c c' : Code} (h : c.Twin R c') : Twin R (.code c) (.code c')
  | function {f f' : Closure} (hc : R f.code f'.code) (h : List.Forall₂ R f.cells.toList f'.cells.toList) :
    Twin R (.function f) (.function f')
  | cell {u u' : Value} (h : u.Twin R u') : Twin R (.cell u) (.cell u')

section

variable {R R' : Handle → Handle → Prop} {u u' : Value} {cs cs' : Array Value} {dist skip : Nat}
  {i i' : Instr} {c c' : Code} {o o' : Object}

theorem Value.Twin.mono (h : u.Twin R u') (hR : ∀ i j, R i j → R' i j) : u.Twin R' u' := by
  cases h with
  | number x => exact .number x
  | boolean b => exact .boolean b
  | object h => exact .object (hR _ _ h)

theorem Instr.Twin.mono (h : Instr.Twin R cs cs' dist skip i i') (hR : ∀ i j, R i j → R' i j) :
    Instr.Twin R' cs cs' dist skip i i' := by
  cases h with
  | fixed h => exact .fixed h
  | const h h' hu => exact .const h h' (hu.mono hR)
  | jump h => exact .jump h
  | jumpIfFalse h => exact .jumpIfFalse h
  | getCell h => exact .getCell h
  | setCell h => exact .setCell h
  | loadCell h => exact .loadCell h

theorem Instr.Twin.size_eq (h : Instr.Twin R cs cs' dist skip i i') : i.size = i'.size := by
  cases h <;> rfl

theorem Code.Twin.mono (h : c.Twin R c') (hR : ∀ i j, R i j → R' i j) : c.Twin R' c' := by
  obtain ⟨is, is', hb, hb', hi⟩ := h.instrs
  exact ⟨h.name, h.arity, h.own, is, is', hb, hb', hi.imp fun _ _ hi => hi.mono hR⟩

theorem Object.Twin.mono (h : o.Twin R o') (hR : ∀ i j, R i j → R' i j) : o.Twin R' o' := by
  cases h with
  | string text => exact .string text
  | native h => exact .native h
  | code h => exact .code (h.mono hR)
  | function hc h => exact .function (hR _ _ hc) (h.imp hR)
  | cell h => exact .cell (h.mono hR)

end

/-! ## Two compilations -/

/-- Two compilations: their final worlds, the code objects that they are at, by how many bytes and cells
    the code is further in the second one, and how handles are related. -/
structure Sides where
  world : World
  world' : World
  related : Handle → Handle → Prop
  /-- The numbers of objects at the start. -/
  start : Nat
  start' : Nat
  code : Code
  code' : Code
  dist : Nat
  skip : Nat

namespace Sides

/-- New objects are related in the order of allocation, and strings are if they have the same text. The
    numbers among the constants are told apart by being equal. -/
structure Fair (S : Sides) : Prop where
  new : ∀ k, S.start + k < S.world.heap.size → S.related (S.start + k) (S.start' + k)
  string : ∀ i j text, S.world.heap.string? i = some text → S.world'.heap.string? j = some text →
    S.related i j
  numbers : ∀ i c x, S.start ≤ i → S.world.heap.code? i = some c → .number x ∈ c.constants → Double.Plain x
  numbers' : ∀ i c x, S.start' ≤ i → S.world'.heap.code? i = some c → .number x ∈ c.constants →
    Double.Plain x
  here : ∀ x, .number x ∈ S.code.constants → Double.Plain x
  here' : ∀ x, .number x ∈ S.code'.constants → Double.Plain x

/-- The code objects of a function inside. -/
def inside (S : Sides) (c c' : Code) : Sides := { S with code := c, code' := c', dist := 0, skip := 0 }

/-- Related instructions. -/
abbrev Instrs (S : Sides) : List Instr → List Instr → Prop :=
  List.Forall₂ (Instr.Twin S.related S.code.constants S.code'.constants S.dist S.skip)

/-- Values that are the same constant. -/
inductive Constant (S : Sides) : Value → Value → Prop
  | number {x : Float} (h : Double.Plain x) : Constant S (.number x) (.number x)
  | boolean (b : Bool) : Constant S (.boolean b) (.boolean b)
  | string {i j : Handle} {text : String} (h : S.world.heap.string? i = some text)
    (h' : S.world'.heap.string? j = some text) : Constant S (.object i) (.object j)
  | object {i j : Handle} (h : S.world.heap.string? i = none) (h' : S.world'.heap.string? j = none)
    (hr : S.related i j) : Constant S (.object i) (.object j)

end Sides

/-- The effect is the same, but for the place of a cell. -/
inductive Effect.Twin (skip : Nat) : Effect → Effect → Prop
  | value : Twin skip .value .value
  | slot (ix : UInt8) : Twin skip (.slot ix) (.slot ix)
  | stored {ix ix' : UInt8} (h : ix'.toNat = ix.toNat + skip) : Twin skip (.stored ix) (.stored ix')

/-- The variable with another place. -/
def InView.further (skip : Nat) (x : InView) : InView := { x with place := x.place + skip }

/-- The drafts have the same variables in view. -/
structure Draft.Twin (dist skip : Nat) (d d' : Draft) : Prop where
  name : d'.name = d.name
  arity : d'.arity = d.arity
  offset : d'.offset = d.offset + dist
  depth : d'.depth = d.depth
  level : d'.level = d.level
  slots : d'.slots = d.slots
  cells : d'.cells = d.cells.map (·.further skip)
  free : d'.free = d.free
  own : d'.own.size = d.own.size + skip

/-- The objects allocated since the start correspond, and so do the drafts. -/
structure Emission.Twin (S : Sides) (e d : Emission) : Prop where
  next : ∃ k, e.heap.size = S.start + k ∧ d.heap.size = S.start' + k
  objects : ∀ k o, e.heap.get? (S.start + k) = some o →
    ∃ o', d.heap.get? (S.start' + k) = some o' ∧ o.Twin S.related o'
  names : e.globals.names = d.globals.names
  draft : e.draft.Twin S.dist S.skip d.draft

variable {S : Sides} {dist skip : Nat}

namespace Draft.Twin

variable {d d' : Draft}

theorem refl (d : Draft) : d.Twin 0 0 d where
  name := rfl
  arity := rfl
  offset := rfl
  depth := rfl
  level := rfl
  slots := rfl
  cells := (List.map_id _).symm
  free := rfl
  own := rfl

theorem cell? (h : d.Twin dist skip d') (name : String) : d'.cell? name = (d.cell? name).map (· + skip) := by
  rw [Draft.cell?, Draft.cell?, h.cells, List.find?_map, Option.map_map, Option.map_map]
  rfl

theorem slot? (h : d.Twin dist skip d') (name : String) : d'.slot? name = d.slot? name := by
  rw [Draft.slot?, Draft.slot?, h.slots]

theorem addBlockCell (h : d.Twin dist skip d') (name : String) :
    (d.addBlockCell name).Twin dist skip (d'.addBlockCell name) where
  name := h.name
  arity := h.arity
  offset := h.offset
  depth := h.depth
  level := h.level
  slots := h.slots
  cells := by
    simp only [Draft.addBlockCell, List.map_cons, h.cells, h.free, h.own, h.level, InView.further,
      Nat.add_assoc]
  free := h.free
  own := by
    simp only [Draft.addBlockCell, Array.size_push, h.own]
    omega

theorem addBlockCells (h : d.Twin dist skip d') (names : List String) :
    (d.addBlockCells names).Twin dist skip (d'.addBlockCells names) := by
  unfold Draft.addBlockCells
  induction names generalizing d d' with
  | nil => exact h
  | cons name names ih => exact ih (h.addBlockCell name)

theorem exitBlock (h : d.Twin dist skip d') : d.exitBlock.Twin dist skip d'.exitBlock where
  name := h.name
  arity := h.arity
  offset := h.offset
  depth := h.depth
  level := congrArg (· - 1) h.level
  slots := by rw [Draft.exitBlock, Draft.exitBlock, h.slots, h.level]
  cells := by
    simp only [Draft.exitBlock, h.cells, h.level, List.filter_map]
    rfl
  free := h.free
  own := h.own

theorem blockLocals (h : d.Twin dist skip d') : d'.blockLocals = d.blockLocals := by
  rw [Draft.blockLocals, Draft.blockLocals, h.slots, h.level]

end Draft.Twin

end ByteLisp
