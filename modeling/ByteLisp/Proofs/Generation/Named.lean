/-
  ByteLisp: what a listing calls a variable.

  The listing looks up names when the code is complete, and finds that of a slot in the list
  of all variables on the stack: blocks that follow each other use the same slots, and then
  the last of their variables gives its name to all of them.

  * `Code.Latest`: a variable is the last one that is recorded for a slot, which is the one
    that `localName?` finds (`localName?_eq_some`);
  * `Listing.Shows`: a line ends with the operand and a name in parentheses;
  * `Listing.Named`: the line for a use shows its variable if that is global or in a cell,
    and the last variable of the slot if it is on the stack;
  * `Expr.compile_named` says so of each line for a variable, in all code of a program.
-/
import ByteLisp.Proofs.Generation.Fitted
import ByteLisp.Proofs.Code.Listing

namespace ByteLisp

/-! ## Slots -/

/-- The last variable that is recorded for a slot has the name. -/
def Code.Latest (c : Code) (slot : Nat) (name : String) : Prop :=
  ∃ before after, c.locals.toList = before ++ ⟨name, slot⟩ :: after ∧ ∀ x ∈ after, x.slot ≠ slot

theorem Code.localName?_eq_some {c : Code} {slot : Nat} {name : String} :
    c.localName? slot = some name ↔ c.Latest slot name := by
  rw [localName?, Option.map_eq_some_iff]
  constructor
  · rintro ⟨x, hx, rfl⟩
    obtain ⟨hslot, after, before, hsplit, hafter⟩ := List.find?_eq_some_iff_append.1 hx
    obtain rfl : x.slot = slot := by simpa using hslot
    refine ⟨before.reverse, after.reverse, ?_, fun y hy => by simpa using hafter y (List.mem_reverse.1 hy)⟩
    simpa using List.reverse_eq_iff.1 hsplit
  · rintro ⟨before, after, hsplit, hafter⟩
    refine ⟨⟨name, slot⟩,
      List.find?_eq_some_iff_append.2 ⟨by simp, after.reverse, before.reverse, ?_, ?_⟩, rfl⟩
    · simp [hsplit]
    · intro y hy
      simpa using hafter y (List.mem_reverse.1 hy)

/-- A slot with a variable has a last one. -/
theorem Code.exists_latest {c : Code} {slot : Nat} {name : String} (h : ⟨name, slot⟩ ∈ c.locals) :
    ∃ last, c.Latest slot last := by
  have hfound : (c.locals.toList.reverse.find? (·.slot = slot)).isSome :=
    List.find?_isSome.2 ⟨_, List.mem_reverse.2 (Array.mem_toList_iff.2 h), by simp⟩
  obtain ⟨x, hx⟩ := Option.isSome_iff_exists.1 hfound
  exact ⟨x.name, Code.localName?_eq_some.1 (by rw [localName?, hx]; rfl)⟩

/-! ## Lines -/

/-- The name that the listing finds for a place. -/
def Place.found? (globals : Globals) (c : Code) : Place → Option String
  | .global ix => globals.name? ix.toNat
  | .slot ix => c.localName? ix.toNat
  | .cell ix => c.cellName? ix.toNat

/-- A text that does not end in a blank stays as it is. -/
theorem Text.trimEndString_push (text : String) {last : Char} (h : isBlank last = false) :
    trimEndString (text.push last) = text.push last := by
  rw [trimEndString, trimEnd, String.toList_push, List.reverse_append, List.reverse_singleton,
    List.singleton_append, List.dropWhile_cons_of_neg (by simp [h]), ← List.singleton_append,
    ← List.reverse_singleton, ← List.reverse_append, List.reverse_reverse, ← String.toList_push,
    String.ofList_toList]

namespace Listing

variable {heap : Heap} {globals : Globals} {c : Code} {pos : Nat} {i : Instr} {u : Use} {name : String}

/-- The line of an instruction ends with its operand and a name in parentheses. -/
def Shows (heap : Heap) (globals : Globals) (c : Code) (pos : Nat) (i : Instr) (name : String) : Prop :=
  ∃ arg, i.arg? = some arg ∧ line heap globals c pos i =
    Text.hex 4 pos ++ "    " ++ Text.padRight 12 (bytes i) ++ Text.padRight 20 i.op.name ++
      (toString arg.toNat ++ " (" ++ name ++ ")")

theorem shows_of_meaning (hv : i.ofVariable = true) (hm : meaning heap globals c i = some name) :
    Shows heap globals c pos i name := by
  obtain ⟨arg, harg, haddress⟩ : ∃ arg, i.arg? = some arg ∧ i.address? = none := by
    cases i <;> first | exact ⟨_, rfl, rfl⟩ | cases hv
  have hoperand : operand heap globals c i = toString arg.toNat ++ " (" ++ name ++ ")" := by
    rw [operand, haddress, harg]
    dsimp only
    rw [hm]
  have closed (text : String) : text ++ ")" = text.push ')' := rfl
  refine ⟨arg, harg, ?_⟩
  rw [line, hoperand, ← String.append_assoc, closed]
  exact Text.trimEndString_push _ (by decide)

/-- A line shows one name only. -/
theorem Shows.unique {name' : String} (h : Shows heap globals c pos i name)
    (h' : Shows heap globals c pos i name') : name = name' := by
  obtain ⟨arg, harg, hline⟩ := h
  obtain ⟨arg', harg', hline'⟩ := h'
  obtain rfl : arg = arg' := Option.some.inj (harg.symm.trans harg')
  have hnames := congrArg String.toList (hline.symm.trans hline')
  simp only [String.toList_append, List.append_cancel_left_eq, List.append_cancel_right_eq] at hnames
  exact String.toList_inj.1 hnames

/-- The line for a use shows its variable if that is global or in a cell, and the last variable of
    the slot if it is on the stack. -/
def Named (heap : Heap) (globals : Globals) (c : Code) (pos : Nat) (i : Instr) (u : Use) : Prop :=
  ∃ place : Place, u.Allows place ∧ i = u.instr place ∧ match place with
    | .global _ | .cell _ => Shows heap globals c pos i u.name
    | .slot ix => ⟨u.name, ix.toNat⟩ ∈ c.locals ∧ (∃ last, Shows heap globals c pos i last) ∧
        ∀ name, Shows heap globals c pos i name ↔ c.Latest ix.toNat name

theorem meaning_instr (u : Use) (place : Place) :
    meaning heap globals c (u.instr place) = some ((place.found? globals c).getD "?") := by
  obtain ⟨kind, name⟩ := u
  cases kind <;> cases place <;> rfl

theorem shows_of_found (u : Use) (place : Place) (h : place.found? globals c = some name) :
    Shows heap globals c pos (u.instr place) name :=
  shows_of_meaning (u.ofVariable_instr place) (by rw [meaning_instr, h]; rfl)

theorem named_of_bears {place : Place} (ha : u.Allows place) (h : place.Bears globals c u.name) :
    Named heap globals c pos (u.instr place) u := by
  refine ⟨place, ha, rfl, ?_⟩
  cases place with
  | global ix => exact shows_of_found u (.global ix) h
  | cell ix => exact shows_of_found u (.cell ix) h
  | slot ix =>
    have shown {name : String} (hlatest : c.Latest ix.toNat name) :
        Shows heap globals c pos (u.instr (.slot ix)) name :=
      shows_of_found u (.slot ix) (Code.localName?_eq_some.2 hlatest)
    obtain ⟨last, hlast⟩ := Code.exists_latest h
    refine ⟨h, ⟨last, shown hlast⟩, fun name => ⟨fun hname => ?_, shown⟩⟩
    rwa [hname.unique (shown hlast)]

/-- The listing of a code object has a line for each use, in order, and no other lines for variables. -/
def NamedAll (heap : Heap) (globals : Globals) (c : Code) (us : List Use) : Prop :=
  ∃ xs, c.instrs = .ok xs ∧
    ofCode heap globals c = .ok (String.join
      ((title c :: xs.map fun x => line heap globals c x.1 x.2).map (· ++ "\n"))) ∧
    List.Forall₂ (fun x u => Named heap globals c x.1 x.2 u) (xs.filter (·.2.ofVariable)) us

theorem namedAll_of_fits {us : List Use} (h : c.Fits globals us) : NamedAll heap globals c us := by
  obtain ⟨code, hbytes, hfit⟩ := h
  have hinstrs := Code.instrs_eq_placed hbytes
  refine ⟨_, hinstrs, by rw [ofCode, hinstrs]; rfl, ?_⟩
  have hcode : variablesOf code = ((Instr.placed 0 code).filter (·.2.ofVariable)).map Prod.snd := by
    conv_lhs => rw [variablesOf, ← Instr.map_snd_placed 0 code, List.filter_map]
    rfl
  rw [Fit, hcode, List.forall₂_map_left_iff] at hfit
  refine hfit.imp fun x u hu => ?_
  obtain ⟨place, ha, hi, hb⟩ := hu
  rw [hi]
  exact named_of_bears ha hb

end Listing

/-! ## Programs -/

/-- All lines for variables in the code of a program show the names of these variables, but
    those on the stack may show the name of a later variable of the slot. -/
theorem Expr.compile_named {e : Expr} {heap : Heap} {globals : Globals} {main : Handle}
    (h : (e.compile heap globals).result = .ok main) :
    let r := e.compile heap globals
    let T := e.resolveProgram.2
    let program := Form.ofResolved "lambda" e.resolveProgram.1
    (∃ c, r.heap.code? main = some c ∧
      Listing.NamedAll r.heap r.globals c (program.uses T Scopes.root false)) ∧
      ∀ i c, r.heap.code? i = some c → heap.code? i = some c ∨ i = main ∨
        ∃ f ∈ program.functions, Listing.NamedAll r.heap r.globals c (f.uses T) := by
  obtain ⟨⟨c, hc, hfits⟩, hfunctions⟩ := Expr.compile_fits h
  refine ⟨⟨c, hc, Listing.namedAll_of_fits hfits⟩, fun i d hd => ?_⟩
  rcases hfunctions i d hd with hold | rfl | ⟨f, hf, hfits⟩
  · exact Or.inl hold
  · exact Or.inr (Or.inl rfl)
  · exact Or.inr (Or.inr ⟨f, hf, Listing.namedAll_of_fits hfits⟩)

/-- A program with two blocks that use the same slot:
    `(begin (begin (var a "x") a) (begin (var b "y") b))`. -/
def Expr.reusing : Expr :=
  .list [.symbol "begin",
    .list [.symbol "begin", .list [.symbol "var", .symbol "a", .string "x"], .symbol "a"],
    .list [.symbol "begin", .list [.symbol "var", .symbol "b", .string "y"], .symbol "b"]]

set_option maxRecDepth 4000 in
/-- There the line for the declaration of the first variable shows the name of the second one. -/
theorem Expr.compile_named_reusing :
    let r := Expr.reusing.compile .empty .empty
    r.result = .ok 2 ∧ ∃ c, r.heap.code? 2 = some c ∧
      Listing.NamedAll r.heap r.globals c [⟨.set, "a"⟩, ⟨.get, "a"⟩, ⟨.set, "b"⟩, ⟨.get, "b"⟩] ∧
      (∃ rest, c.instrs = .ok ((0, .const 0) :: (2, .setLocal 1) :: rest)) ∧
      Listing.Shows r.heap r.globals c 2 (.setLocal 1) "b" ∧
      ¬Listing.Shows r.heap r.globals c 2 (.setLocal 1) "a" := by
  have h : (Expr.reusing.compile .empty .empty).result = .ok 2 :=
    Compilation.result_eq_ok (by decide +kernel)
  obtain ⟨c, hc, hnamed⟩ := (Expr.compile_named h).1
  have uses : (Form.ofResolved "lambda" Expr.reusing.resolveProgram.1).uses Expr.reusing.resolveProgram.2
      Scopes.root false = [⟨.set, "a"⟩, ⟨.get, "a"⟩, ⟨.set, "b"⟩, ⟨.get, "b"⟩] := rfl
  have name : ((Expr.reusing.compile .empty .empty).heap.code? 2).bind (·.localName? 1) = some "b" := by
    decide +kernel
  have code : ((Expr.reusing.compile .empty .empty).heap.code? 2).map (·.bytes) =
      some (Instr.bytes [.const 0, .setLocal 1, .getLocal 1, .scopeExit 1, .pop, .const 1, .setLocal 1,
        .getLocal 1, .scopeExit 1, .halt]) := by decide +kernel
  rw [hc] at name code
  have shown : Listing.Shows (Expr.reusing.compile .empty .empty).heap
      (Expr.reusing.compile .empty .empty).globals c 2 (.setLocal 1) "b" :=
    Listing.shows_of_found ⟨.set, "a"⟩ (.slot 1) name
  refine ⟨h, c, hc, uses ▸ hnamed, ⟨_, Code.instrs_eq_placed (Option.some.inj code)⟩, shown, fun first => ?_⟩
  exact absurd (first.unique shown) (by decide)

end ByteLisp
