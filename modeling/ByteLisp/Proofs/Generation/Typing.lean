/-
  ByteLisp: generated code is well-typed.

  * `View.Valid`: the variables in view have slots on the stack and cells among
    those of the code object;
  * `Task.Sound` is what typing says of the code of each part of a program, and
    `Coded.sound` proves it by induction on the code;
  * `Compiled.checked` and `CompiledMain.checked` are the results for code objects.
-/
import ByteLisp.Proofs.Code.Shape
import ByteLisp.Proofs.Generation.Emitted

namespace ByteLisp

/-- The variables in view are where the code object has them. -/
structure View.Valid (c : Code) (v : View) : Prop where
  slots : ∀ x ∈ v.slots, x.place < v.depth
  cells : ∀ x ∈ v.cells, c.cellNames[x.place]? = some x.name

/-- A code object that is a function of the program. -/
def Allocated (T : Scopes) (W : World) (h : Handle) : Prop :=
  ∃ c, W.heap.code? h = some c ∧ Compiled T W c

variable {T : Scopes} {W : World} {c : Code} {s : ScopeId} {v : View}

namespace View

theorem valid_start : start.Valid c := ⟨by simp [start], by simp [start]⟩

theorem Valid.push (h : v.Valid c) (n : Nat) : (v.push n).Valid c :=
  ⟨fun x hx => Nat.lt_add_right n (h.slots x hx), h.cells⟩

theorem Valid.bind (h : v.Valid c) (name : String) : (v.bind name).Valid c where
  slots x hx := by
    rcases List.mem_cons.1 hx with rfl | hx
    · exact Nat.lt_succ_self _
    · exact Nat.lt_succ_of_lt (h.slots x hx)
  cells := h.cells

theorem Valid.kept (h : v.Valid c) (o : Outcome) : (v.kept o).Valid c := by
  cases o with
  | slot name ix => exact h.bind name
  | _ => exact h

theorem Valid.enter {u : View} {b : ScopeId} (h : v.Valid c) (hu : Enters T c b v u) :
    u.Valid c := by
  cases hu with
  | @mk k _ hown =>
    refine ⟨fun x hx => ?_, fun x hx => ?_⟩
    · rw [slots_enter] at hx
      rw [depth_enter]
      exact h.slots x hx
    · rw [cells_enter, List.mem_append, List.mem_reverse, List.mem_map] at hx
      rcases hx with ⟨⟨name, ix⟩, hm, rfl⟩ | hx
      · obtain ⟨hle, hi⟩ := List.mem_zipIdx_iff_le_and_getElem?_sub.1 hm
        have := hown _ _ hi
        dsimp only at hle this ⊢
        rw [Code.cellNames, Array.getElem?_append_right (by omega)]
        rwa [show k + (ix - (c.free.size + k)) = ix - c.free.size by omega] at this
      · exact h.cells x hx

theorem Valid.slot_lt (h : v.Valid c) {name : String} {ix : Nat} (hs : v.slot? name = some ix) :
    ix < v.depth := by
  obtain ⟨x, hx, rfl⟩ := Option.map_eq_some_iff.1 hs
  exact h.slots x (List.mem_of_find?_eq_some hx)

theorem Valid.cellName (h : v.Valid c) {name : String} {ix : Nat} (hc : v.cell? name = some ix) :
    c.cellNames[ix]? = some name := by
  obtain ⟨x, hx, rfl⟩ := Option.map_eq_some_iff.1 hc
  have hn : x.name = name := by simpa using List.find?_some hx
  exact hn ▸ h.cells x (List.mem_of_find?_eq_some hx)

theorem Valid.cell_lt (h : v.Valid c) {name : String} {ix : Nat} (hc : v.cell? name = some ix) :
    ix < c.cellNames.size := (Array.getElem?_eq_some_iff.1 (h.cellName hc)).1

/-- At the start of a function all its cells are in view. -/
theorem valid_draftOf {name : String} {params : List String} {sc : Scope}
    (hf : c.free = sc.free.toArray)
    (ho : ∀ (i : Nat) x, sc.cells[i]? = some x → c.own[i]? = some x) :
    (Emit.draftOf name params sc).view.Valid c where
  slots x hx := by
    change x ∈ (Emit.draftOf name params sc).slots at hx
    rw [Emit.slots_draftOf, List.mem_reverse] at hx
    obtain ⟨⟨n, ix⟩, hm, rfl⟩ := List.mem_map.1 hx
    obtain ⟨-, hi⟩ := List.mem_zipIdx_iff_le_and_getElem?_sub.1 hm
    obtain ⟨v, -, hv⟩ := Emit.view_draftOf_eq_push name params sc
    rw [hv, depth_push]
    have := (List.getElem?_eq_some_iff.1 hi).1
    simp at this ⊢
    omega
  cells x hx := by
    change x ∈ (Emit.draftOf name params sc).cells at hx
    rw [Emit.cells_draftOf, List.mem_reverse] at hx
    obtain ⟨⟨n, ix⟩, hm, rfl⟩ := List.mem_map.1 hx
    obtain ⟨-, hi⟩ := List.mem_zipIdx_iff_le_and_getElem?_sub.1 hm
    rw [Nat.sub_zero] at hi
    by_cases hlt : ix < sc.free.length
    · rw [List.getElem?_append_left hlt] at hi
      rw [Code.cellNames, hf, Array.getElem?_append_left (by simpa using hlt)]
      simpa using hi
    · rw [List.getElem?_append_right (by omega)] at hi
      rw [Code.cellNames, hf, Array.getElem?_append_right (by simpa using hlt)]
      simpa using ho _ _ hi

end View

/-! ## Constants -/

theorem sameConstant_object {h : Heap} {u : Value} {i : Handle}
    (hu : h.sameConstant u (.object i) = true) :
    u = .object i ∨ ∃ j t, u = .object j ∧ h.string? j = some t ∧ h.string? i = some t := by
  unfold Heap.sameConstant at hu
  split at hu
  · next he => cases he
  · next he => cases he
  · next j k he =>
    cases he
    rw [Bool.or_eq_true, decide_eq_true_eq] at hu
    rcases hu with rfl | hu
    · exact Or.inl rfl
    · split at hu
      · next hj hi =>
        rw [decide_eq_true_eq] at hu
        exact Or.inr ⟨_, _, rfl, hj, hu ▸ hi⟩
      · cases hu
  · cases hu

theorem Holds.number {x : Float} {ix : UInt8} (h : Holds W c ix (.number x)) :
    ∃ y, c.constants[ix.toNat]? = some (.number y) ∧ (y = x ∨ (y == x) = true) := by
  obtain ⟨u, hu, rfl | hs⟩ := h
  · exact ⟨x, hu, Or.inl rfl⟩
  · cases u with
    | number y => exact ⟨y, hu, Or.inr hs⟩
    | _ => cases hs

theorem Holds.boolean {b : Bool} {ix : UInt8} (h : Holds W c ix (.boolean b)) :
    c.constants[ix.toNat]? = some (.boolean b) := by
  obtain ⟨u, hu, rfl | hs⟩ := h
  · exact hu
  · cases u with
    | boolean b' => rwa [← beq_iff_eq.1 hs]
    | _ => cases hs

theorem Holds.string {i : Handle} {text : String} {ix : UInt8} (h : Holds W c ix (.object i))
    (hi : W.heap.string? i = some text) :
    ∃ j, c.constants[ix.toNat]? = some (.object j) ∧ W.heap.string? j = some text := by
  obtain ⟨u, hu, rfl | hs⟩ := h
  · exact ⟨i, hu, hi⟩
  · rcases sameConstant_object hs with rfl | ⟨j, t, rfl, hj, ht⟩
    · exact ⟨i, hu, hi⟩
    · rw [hi] at ht
      cases ht
      exact ⟨j, hu, hj⟩

theorem Holds.object {i : Handle} {ix : UInt8} (h : Holds W c ix (.object i))
    (hi : W.heap.string? i = none) : c.constants[ix.toNat]? = some (.object i) := by
  obtain ⟨u, hu, rfl | hs⟩ := h
  · exact hu
  · rcases sameConstant_object hs with rfl | ⟨j, t, rfl, hj, ht⟩
    · exact hu
    · rw [hi] at ht
      cases ht

theorem string?_of_code {h : Heap} {i : Handle} (hc : h.code? i = some c) : h.string? i = none := by
  rw [Heap.code?_eq_some] at hc
  simp [Heap.string?, hc]

/-! ## Parts of a program -/

/-- Balanced code between two depths. -/
abbrev Task.Balances (T : Scopes) (W : World) (c : Code) (v : View) (pos : Nat) (code : List Instr)
    (n : Nat) : Prop :=
  v.Valid c → Balanced (Allocated T W) W c pos v.depth code n

/-- What typing says of the code of a part of a program. -/
def Task.Sound (T : Scopes) (W : World) (c : Code) (v : View) (pos : Nat) (code : List Instr) :
    Task → Prop
  | .form _ _ o => Balances T W c v pos code (v.after o).depth
  | .body _ k => Balances T W c v pos code (v.depth + k + 1)
  | .args fs => Balances T W c v pos code (v.depth + fs.length)
  | .drops _ => Balances T W c v pos code v.depth
  | .loop _ _ | .closure _ _ _ _ => Balances T W c v pos code (v.depth + 1)
  | .finish n _ => n < v.depth → Balances T W c v pos code (v.depth - n)
  | .code _ _ _ => Checked (Allocated T W) W c .ret 1

section

variable {A : Handle → Prop} {pos m n : Nat}

theorem balanced_const {ix : UInt8} {x : Value} (hx : c.constants[ix.toNat]? = some x)
    (ha : Admits A W.heap x) (hk : W.heap.kind x = .plain) :
    Balanced A W c pos m [.const ix] (m + 1) := by
  refine balanced_instr (Nat.zero_le _) ⟨x, hx, ha⟩ rfl ?_
  rw [Instr.next, Code.kind, hx, Option.getD_some, hk, plain_succ]

theorem balanced_boolean {b : Bool} {ix : UInt8} (h : Holds W c ix (.boolean b)) :
    Balanced A W c pos m [.const ix] (m + 1) := balanced_const h.boolean (.boolean b) rfl

theorem balanced_pop : Balanced A W c pos (m + 1) [.pop] m :=
  balanced_instr (Nat.le_add_left ..) trivial rfl rfl

theorem balanced_scopeExit {n : UInt8} (h : n.toNat ≤ m) :
    Balanced A W c pos (m + 1) [.scopeExit n] (m + 1 - n.toNat) := by
  refine balanced_instr (Nat.le_add_left ..) ?_ rfl ?_
  · show n.toNat < (plain (m + 1)).length
    rw [length_plain]
    omega
  · rw [next_scopeExit, drop_plain, plain_succ, List.take_succ_cons, List.take_zero,
      show m + 1 - n.toNat = m + 1 - (n.toNat + 1) + 1 by omega, plain_succ]
    rfl

theorem balanced_exits {code : List Instr} (h : Exits n code) (hn : n ≤ m) :
    Balanced A W c pos (m + 1) code (m + 1 - n) := by
  cases h with
  | none => exact .nil
  | some hne => exact balanced_scopeExit hn

theorem getElem?_reverse_plain {ix : Nat} (h : ix < m) : (plain m).reverse[ix]? = some .plain := by
  rw [plain, List.reverse_replicate, List.getElem?_replicate, if_pos h]

theorem balanced_get {name : String} {binding : Binding} {place : Place} (hv : v.Valid c)
    (h : Located T W s v name binding place) :
    Balanced A W c pos v.depth [place.get] (v.depth + 1) := by
  cases h with
  | global hs hn => exact balanced_instr (Nat.zero_le _) (Globals.lt_size_of_name? hn) rfl rfl
  | slot hs hn =>
    exact balanced_instr (Nat.zero_le _) (getElem?_reverse_plain (hv.slot_lt hn)) rfl rfl
  | cell hs hn => exact balanced_instr (Nat.zero_le _) (hv.cell_lt hn) rfl rfl

theorem balanced_set {name : String} {binding : Binding} {place : Place} (hv : v.Valid c)
    (h : Located T W s v name binding place) (hd : 0 < v.depth) :
    Balanced A W c pos v.depth [place.set] v.depth := by
  cases h with
  | global hs hn => exact balanced_instr hd (Globals.lt_size_of_name? hn) rfl rfl
  | slot hs hn => exact balanced_instr hd (getElem?_reverse_plain (hv.slot_lt hn)) rfl rfl
  | cell hs hn => exact balanced_instr hd (hv.cell_lt hn) rfl rfl

theorem balanced_declares {name : String} {direct : Bool} {o : Outcome} {store : List Instr}
    (hv : v.Valid c) (h : Declares T W s v name direct o store) :
    Balanced A W c pos (v.depth + 1) store (v.after o).depth := by
  have hd : 0 < v.depth + 1 := Nat.succ_pos _
  cases h with
  | global hs hn => exact balanced_instr hd (Globals.lt_size_of_name? hn) rfl rfl
  | @cell ix hs hn =>
    have store : Balanced A W c pos (v.depth + 1) [.setCell ix] (v.depth + 1) :=
      balanced_instr hd (hv.cell_lt hn) rfl rfl
    exact store.append balanced_pop
  | @inside ix hs hn =>
    have store : Balanced A W c pos (v.depth + 1) [.setCell ix] (v.depth + 1) :=
      balanced_instr hd (hv.cell_lt hn) rfl rfl
    refine (store.append balanced_pop).append ?_
    exact balanced_instr (Nat.zero_le _) (hv.cell_lt hn) rfl rfl
  | slot hs hix =>
    exact balanced_instr hd (getElem?_reverse_plain (by omega)) rfl rfl

theorem balanced_moves {sc : Scope} {slot : Nat} {names : List String} {code : List Instr}
    (hv : v.Valid c) (h : Moves sc v slot names code) (hs : slot + names.length ≤ v.depth) :
    Balanced A W c pos v.depth code v.depth := by
  induction h generalizing pos with
  | nil => exact .nil
  | stay hc h ih =>
    rw [List.length_cons] at hs
    exact ih (by omega)
  | @move slot name names code ix cell hc hix hcell h ih =>
    rw [List.length_cons] at hs
    have get : Balanced A W c pos v.depth [.getLocal ix] (v.depth + 1) :=
      balanced_instr (Nat.zero_le _) (getElem?_reverse_plain (by omega)) rfl rfl
    have set : Balanced A W c (pos + 2) (v.depth + 1) [.setCell cell] (v.depth + 1) :=
      balanced_instr (Nat.le_add_left ..) (hv.cell_lt hcell) rfl rfl
    exact get.append (set.append (balanced_pop.append (ih (by omega))))

theorem typed_loads {f : ScopeId} {P : Nat → Shape → Prop} {k : Nat} {names : List String}
    {code : List Instr} {as : List Access} (hv : v.Valid c) (h : Loads c s v f pos names code as) :
    Typed A W c P pos (loaded k m) code ∧
      Instr.scan W.heap c pos (loaded k m) code = loaded (k + names.length) m := by
  induction h generalizing k with
  | nil => exact ⟨typed_nil, rfl⟩
  | @cons pos name names ix code as hcell h ih =>
    obtain ⟨ht, hs⟩ := @ih (k + 1)
    refine ⟨.cons ⟨⟨k, m, rfl⟩, hv.cell_lt hcell⟩ nofun ht, ?_⟩
    rw [List.length_cons, ← Nat.add_assoc, Nat.add_right_comm]
    exact hs

theorem balanced_made {f : ScopeId} {names : List String} {cells : List Instr} {as : List Access}
    {h : Handle} {c' : Code} {ix n : UInt8} (hv : v.Valid c) (hl : Loads c s v f pos names cells as)
    (hx : c.constants[ix.toNat]? = some (.object h)) (hc : W.heap.code? h = some c') (ha : A h)
    (hn : n.toNat = names.length) (hf : c'.free.size = n.toNat) :
    Balanced A W c pos m (cells ++ [.const ix, .makeFunction n]) (m + 1) := by
  have hget := Heap.code?_eq_some.1 hc
  have hkind : c.kind W.heap ix = .code n.toNat := by
    simp [Code.kind, hx, Heap.kind, hget, hf]
  let P := Point W.heap c pos (plain m) (cells ++ [.const ix, .makeFunction n])
  have loads : Typed A W c P pos (loaded 0 m) cells ∧
      Instr.scan W.heap c pos (loaded 0 m) cells = loaded (0 + names.length) m := typed_loads hv hl
  obtain ⟨ht, hs⟩ := loads
  rw [Nat.zero_add, ← hn] at hs
  have htop : Instr.next W.heap c (pos + Instr.total cells) (loaded n.toNat m) (.const ix) =
      .code n.toNat :: loaded n.toNat m := by rw [Instr.next, hkind]
  refine ⟨.trans ht hs (.cons ⟨⟨n.toNat, m, rfl⟩, _, hx, .code hget ha⟩ nofun
    (.cons ⟨trivial, m, htop⟩ nofun typed_nil)), scan_trans hs ?_⟩
  rw [Instr.scan, htop, Instr.scan, Instr.scan, Instr.next, List.drop_succ_cons, loaded,
    List.drop_left' List.length_replicate, plain_succ]

end

/-! ## All code -/

theorem Enters.depth {u : View} {b : ScopeId} (h : Enters T c b v u) : u.depth = v.depth := by
  cases h
  exact View.depth_enter ..

theorem balanced_drop {A : Handle → Prop} {pos : Nat} (o : Outcome) :
    Balanced A W c pos (v.after o).depth o.drop (v.kept o).depth := by
  cases o with
  | value => exact balanced_pop
  | _ => exact .nil

/-- Where the variable is that a form leaves. -/
def Outcome.PlacedIn (v : View) : Outcome → Prop
  | value => True
  | slot _ ix => ix.toNat = v.depth
  | cell name ix => v.cell? name = some ix.toNat

theorem Declares.placed {name : String} {direct : Bool} {o : Outcome} {store : List Instr}
    (h : Declares T W s v name direct o store) : o.PlacedIn v := by
  cases h with
  | cell hs hn => exact hn
  | slot hs hix => exact hix
  | _ => trivial

theorem Coded.placed {direct : Bool} {f : Form} {o : Outcome} {pos : Nat} {code : List Instr}
    {as : List Access} (h : Coded T W c s (.form direct f o) v pos code as) : o.PlacedIn v := by
  cases h with
  | declare hc hd => exact hd.placed
  | define hc hd => exact hd.placed
  | _ => trivial

theorem balanced_leave {A : Handle → Prop} {direct : Bool} {f : Form} {o : Outcome} {pos p : Nat}
    {code : List Instr} {as : List Access} (hv : v.Valid c)
    (h : Coded T W c s (.form direct f o) v pos code as) :
    Balanced A W c p (v.after o).depth o.leave (v.depth + o.locals + 1) := by
  have hp := h.placed
  cases o with
  | value => exact .nil
  | slot name ix =>
    refine balanced_instr (Nat.zero_le _) (getElem?_reverse_plain ?_) rfl rfl
    exact Nat.lt_succ_of_le (Nat.le_of_eq hp)
  | cell name ix => exact balanced_instr (Nat.zero_le _) (hv.cell_lt hp) rfl rfl

theorem Coded.sound {task : Task} {pos : Nat} {code : List Instr} {as : List Access}
    (h : Coded T W c s task v pos code as) : task.Sound T W c v pos code := by
  induction h with
  | number h =>
    intro hv
    obtain ⟨y, hy, -⟩ := h.number
    exact balanced_const hy (.number y) rfl
  | string hs h =>
    intro hv
    obtain ⟨j, hj, ht⟩ := h.string hs
    have hget := Heap.string?_eq_some.1 ht
    exact balanced_const hj (.string hget) (by simp [Heap.kind, hget])
  | boolean h => exact fun hv => balanced_boolean h
  | reference h => exact fun hv => balanced_get hv h
  | @block c s direct b body v u pos k code exit as hu hc hx ih =>
    intro hv
    have body := ih (hv.enter hu)
    rw [hu.depth] at body
    have exit : Balanced (Allocated T W) W c (pos + Instr.total code) (v.depth + k + 1) exit
        (v.depth + k + 1 - k) := balanced_exits hx (Nat.le_add_left k v.depth)
    rw [Nat.add_right_comm, Nat.add_sub_cancel] at exit
    rw [Nat.add_right_comm] at body
    exact body.append exit
  | declare hc hd ih => exact fun hv => (ih hv).append (balanced_declares hv hd)
  | assign hc hl ih =>
    exact fun hv => (ih hv).append (balanced_set (hv.push 1) hl (Nat.succ_pos _))
  | ifThen hc ih => exact ih
  | ifElse ht hc ho ha hd iht ihc iha =>
    intro hv
    rw [List.append_assoc, List.cons_append]
    exact balanced_branch (iht hv) (ihc hv) ho (iha hv) hd
  | whileLoop hc ih => exact ih
  | @forLoop c s direct init test modifier body o v pos first code as bs hi hl ihi ihl =>
    intro hv
    refine (((ihi hv).append (balanced_drop o)).append (ihl (hv.kept o))).append ?_
    cases o with
    | slot name ix => exact balanced_scopeExit (Nat.le_add_left ..)
    | _ => exact .nil
  | define hc hd ih => exact fun hv => (ih hv).append (balanced_declares hv hd)
  | lambda hc ih => exact ih
  | @operation c s direct op x y v pos first second as bs hx hy ihx ihy =>
    intro hv
    refine ((ihx hv).append (ihy (hv.push 1))).append ?_
    cases op with
    | compare o =>
      refine balanced_instr (Nat.le_add_left ..) ?_ rfl rfl
      show (Comparison.ofCode? o.code).isSome
      rw [Comparison.ofCode?_code]
      rfl
    | _ => exact balanced_instr (Nat.le_add_left ..) trivial rfl rfl
  | @call c s direct callee args v pos function arguments as bs n hf ha hn ihf iha =>
    intro hv
    refine ((ihf hv).append (iha (hv.push 1))).append (balanced_instr ?_ trivial rfl ?_)
    · rw [takes_call, View.depth_push]
      omega
    · rw [next_call, drop_plain, View.depth_push,
        show v.depth + 1 + args.length - (n.toNat + 1) = v.depth by omega]
      rfl
  | empty hc ih => exact ih
  | last hc ih => exact fun hv => (ih hv).append (balanced_leave hv hc)
  | @next c s f g fs o k v pos code rest as bs hf hr ihf ihr =>
    intro hv
    have rest := ihr (hv.kept o)
    rw [(v.binds_kept o).depth, Nat.add_assoc v.depth] at rest
    refine Balanced.append (m := v.depth + o.locals) ?_ rest
    have first := (ihf hv).append (balanced_drop o)
    rwa [(v.binds_kept o).depth] at first
  | noArgs => exact fun hv => .nil
  | args hf hr ihf ihr =>
    intro hv
    have rest := ihr (hv.push 1)
    rw [View.depth_push, Nat.add_assoc, Nat.add_comm 1] at rest
    exact (ihf hv).append rest
  | noDrops => exact fun hv => .nil
  | drops hf hr ihf ihr => exact fun hv => (ihf hv).append (balanced_pop.append (ihr hv))
  | loop ht hb hs hd hr iht ihb ihr =>
    intro hv
    rw [List.append_assoc, List.cons_append]
    exact balanced_loop (iht hv) (ihb hv) hs hd (ihr hv)
  | constant hfree hc hcode hg h ih =>
    intro hv
    have hx := h.object (by simp [Heap.string?, hg])
    exact balanced_const hx (.function hg ⟨_, hcode, _, _, _, _, _, _, _, hc⟩ rfl hcode hfree)
      (by simp [Heap.kind, hg])
  | @made c s name f params body v pos c' code' h ix cells as bs n hc hcode hl h hn hne ih =>
    intro hv
    have ha : Allocated T W _ := ⟨_, hcode, _, _, _, _, _, _, _, hc⟩
    exact balanced_made hv hl (h.object (string?_of_code hcode)) hcode ha
      (hn.trans Array.length_toList.symm) hn.symm
  | @finishBlock c s n b body v u pos k code exit as hu hc hx ih =>
    intro hn hv
    have body := ih (hv.enter hu)
    rw [hu.depth] at body
    have exit : Balanced (Allocated T W) W c (pos + Instr.total code) (v.depth + k + 1) exit
        (v.depth + k + 1 - (k + (n + 1))) := balanced_exits hx (by omega)
    rw [show v.depth + k + 1 - (k + (n + 1)) = v.depth - n by omega] at exit
    exact body.append exit
  | @finish c s n f v pos code as m hc hm ih =>
    intro hn hv
    refine (ih hv).append ?_
    have exit : Balanced (Allocated T W) W c (pos + Instr.total code) (v.depth + 1) [.scopeExit m]
        (v.depth + 1 - m.toNat) := balanced_scopeExit (by omega)
    rwa [show v.depth + 1 - m.toNat = v.depth - n by omega] at exit
  | @code c f name params body v moved code as hname harity hfree hown hview hm hc hb ih =>
    have hv : v.Valid c := by
      rw [hview]
      exact View.valid_draftOf hfree hown
    have hd : v.depth = params.length + 1 := by rw [hview, Emit.depth_draftOf]
    have start : Balanced (Allocated T W) W c 0 v.depth moved v.depth :=
      balanced_moves hv hm (by simp [hd])
    have rest := ih (by omega) hv
    rw [show v.depth - params.length = 1 by omega, ← Nat.zero_add (Instr.total moved)] at rest
    refine ⟨moved ++ code, hb, ?_⟩
    rw [harity, ← hd]
    exact start.append rest

/-- A function of the program leaves its value when it returns. -/
theorem Compiled.checked (h : Compiled T W c) : Checked (Allocated T W) W c .ret 1 := by
  obtain ⟨f, name, params, body, v, code, as, h⟩ := h
  exact h.sound

/-- The program leaves its value above the main function. -/
theorem CompiledMain.checked {program : Form} (h : CompiledMain T W program c) :
    Checked (Allocated T W) W c .halt 2 := by
  obtain ⟨-, harity, -, code, as, h, hb⟩ := h
  refine ⟨code, hb, ?_⟩
  rw [harity]
  exact h.sound View.valid_start

end ByteLisp
