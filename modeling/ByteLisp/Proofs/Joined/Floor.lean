/-
  ByteLisp: a program leaves its main function alone.

  The main function is the lowest value on the stack while a program runs. The code
  of the program itself never takes it or looks at it.

  * `Instr.reach` is the number of values on top that an instruction looks at,
    `Instr.Clears` says that it does not reach the lowest value;
  * `Coded.clear`: so it is with all code of the parts of a program.
-/
import ByteLisp.Proofs.Generation.Typing
import ByteLisp.Proofs.Machine.Overlay

namespace ByteLisp

namespace Instr

/-- The number of values on top that an instruction takes or looks at. -/
def reach : Instr → Nat
  | .add | .sub | .mul | .div | .cmp _ => 2
  | .jumpIfFalse _ | .pop | .setGlobal _ | .setLocal _ | .setCell _ => 1
  | .scopeExit n | .call n | .makeFunction n => n.toNat + 1
  | _ => 0

@[simp] theorem reach_call (n : UInt8) : (call n).reach = n.toNat + 1 := rfl

@[simp] theorem reach_makeFunction (n : UInt8) : (makeFunction n).reach = n.toNat + 1 := rfl

/-- An instruction does not reach the lowest value of a shape. -/
structure Clears (σ : Shape) (i : Instr) : Prop where
  reach : i.reach < σ.length
  slot : ∀ ix, i.slot? = some ix → 0 < ix.toNat

end Instr

/-- No instruction of some code reaches the lowest value; the first instruction is at `pos`. -/
def Clear (W : World) (c : Code) (pos : Nat) (σ : Shape) (code : List Instr) : Prop :=
  ∀ pre i post, code = pre ++ i :: post → i.Clears (Instr.scan W.heap c pos σ pre)

/-- The lowest value is no variable. -/
structure View.Floored (v : View) : Prop where
  depth : 0 < v.depth
  slots : ∀ x ∈ v.slots, 0 < x.place

section

variable {W : World} {c : Code} {pos m : Nat} {σ τ : Shape} {i : Instr} {is js : List Instr}

theorem clear_nil : Clear W c pos σ [] := fun pre i post h => by simp at h

theorem Clear.cons (hi : i.Clears σ) (h : Clear W c (pos + i.size) (i.next W.heap c pos σ) is) :
    Clear W c pos σ (i :: is) := by
  intro pre j post hcode
  cases pre with
  | nil => cases hcode; exact hi
  | cons k pre =>
    cases hcode
    exact h pre j post rfl

theorem Clear.trans (hi : Clear W c pos σ is) (hs : Instr.scan W.heap c pos σ is = τ)
    (hj : Clear W c (pos + Instr.total is) τ js) : Clear W c pos σ (is ++ js) := by
  subst hs
  induction is generalizing pos σ with
  | nil => exact hj
  | cons i is ih =>
    refine .cons (hi [] i is rfl) (ih (fun pre j post h => ?_) ?_)
    · subst h
      exact hi (i :: pre) j post rfl
    · rw [Instr.total_cons, ← Nat.add_assoc] at hj
      exact hj

theorem clear_one (hi : i.reach < m) (hs : ∀ ix, i.slot? = some ix → 0 < ix.toNat) :
    Clear W c pos (plain m) [i] :=
  .cons ⟨by rwa [length_plain], hs⟩ clear_nil

end

variable {T : Scopes} {W : World} {c : Code} {s : ScopeId} {v : View} {pos m : Nat}

namespace View.Floored

theorem push (h : v.Floored) (n : Nat) : (v.push n).Floored :=
  ⟨Nat.lt_of_lt_of_le h.depth (Nat.le_add_right ..), h.slots⟩

theorem bind (h : v.Floored) (name : String) : (v.bind name).Floored where
  depth := Nat.succ_pos _
  slots x hx := by
    rcases List.mem_cons.1 hx with rfl | hx
    · exact h.depth
    · exact h.slots x hx

theorem kept (h : v.Floored) (o : Outcome) : (v.kept o).Floored := by
  cases o with
  | slot name ix => exact h.bind name
  | _ => exact h

theorem enter {u : View} {b : ScopeId} (h : v.Floored) (hu : Enters T c b v u) : u.Floored := by
  cases hu with
  | mk => exact ⟨by rw [depth_enter]; exact h.depth, by rw [slots_enter]; exact h.slots⟩

theorem slot (h : v.Floored) {name : String} {ix : Nat} (hs : v.slot? name = some ix) : 0 < ix := by
  obtain ⟨x, hx, rfl⟩ := Option.map_eq_some_iff.1 hs
  exact h.slots x (List.mem_of_find?_eq_some hx)

end View.Floored

theorem floored_start : View.start.Floored := ⟨Nat.one_pos, nofun⟩

/-! ## The code of parts of a program -/

theorem clear_get {name : String} {binding : Binding} {place : Place} (hf : v.Floored)
    (h : Located T W s v name binding place) : Clear W c pos (plain v.depth) [place.get] := by
  cases h with
  | slot hs hn => exact clear_one hf.depth fun _ hix => by cases hix; exact hf.slot hn
  | _ => exact clear_one hf.depth nofun

theorem clear_set {name : String} {binding : Binding} {place : Place} (hf : v.Floored)
    (h : Located T W s (v.push 1) name binding place) :
    Clear W c pos (plain (v.push 1).depth) [place.set] := by
  have hd : 1 < (v.push 1).depth := Nat.succ_lt_succ hf.depth
  cases h with
  | slot hs hn => exact clear_one hd fun _ hix => by cases hix; exact hf.slot hn
  | _ => exact clear_one hd nofun

theorem clear_declares {name : String} {direct : Bool} {o : Outcome} {store : List Instr} (hf : v.Floored)
    (h : Declares T W s v name direct o store) : Clear W c pos (plain (v.depth + 1)) store := by
  have hd : 1 < v.depth + 1 := Nat.succ_lt_succ hf.depth
  have hd' : 1 < (plain (v.depth + 1)).length := by rwa [length_plain]
  cases h with
  | global => exact clear_one hd nofun
  | cell => exact .cons ⟨hd', nofun⟩ (clear_one hd nofun)
  | inside => exact .cons ⟨hd', nofun⟩ (.cons ⟨hd', nofun⟩ (clear_one hf.depth nofun))
  | slot hs hix => exact clear_one hd fun _ h => by cases h; rw [hix]; exact hf.depth

theorem clear_exits {n : Nat} {code : List Instr} (h : Exits n code) (hm : n < m) :
    Clear W c pos (plain (m + 1)) code := by
  cases h with
  | none => exact clear_nil
  | some => exact clear_one (Nat.succ_lt_succ hm) nofun

theorem clear_drop (o : Outcome) (hf : v.Floored) : Clear W c pos (plain (v.after o).depth) o.drop := by
  cases o with
  | value => exact clear_one (Nat.succ_lt_succ hf.depth) nofun
  | _ => exact clear_nil

theorem clear_loads {f : ScopeId} {k : Nat} {names : List String} {code : List Instr} {as : List Access}
    (hm : 0 < m) (h : Loads c s v f pos names code as) : Clear W c pos (loaded k m) code := by
  induction h generalizing k with
  | nil => exact clear_nil
  | cons hcell h ih =>
    have hlen : (loaded k m).length = k + m := by simp [loaded]
    refine .cons ⟨hlen ▸ Nat.lt_of_lt_of_le hm (Nat.le_add_left ..), fun ix hix => ?_⟩ (ih (k := k + 1))
    cases hix

/-- What is said of the code of a part of a program. -/
def Task.Clear (W : World) (c : Code) (v : View) (pos : Nat) (code : List Instr) : Task → Prop
  | .code _ _ _ | .finish _ _ => True
  | _ => v.Valid c → v.Floored → ByteLisp.Clear W c pos (plain v.depth) code

theorem Coded.clear {task : Task} {code : List Instr} {as : List Access}
    (h : Coded T W c s task v pos code as) :
    task.Clear W c v pos code := by
  induction h with
  | number | string | boolean => exact fun _ hf => clear_one hf.depth nofun
  | reference h => exact fun _ hf => clear_get hf h
  | @block c s direct b body v u pos k code exit as hu hc hx ih =>
    intro hv hf
    have first := ih (hv.enter hu) (hf.enter hu)
    have scan := (hc.sound (hv.enter hu)).scan
    rw [hu.depth] at first scan
    exact first.trans scan (clear_exits hx (by have := hf.depth; omega))
  | declare hc hd ih => exact fun hv hf => (ih hv hf).trans (hc.sound hv).scan (clear_declares hf hd)
  | assign hc hl ih => exact fun hv hf => (ih hv hf).trans (hc.sound hv).scan (clear_set hf hl)
  | ifThen hc ih => exact ih
  | @ifElse c s direct test thn els v pos asked consequent alternate as bs cs otherwise done ht hc
      ho ha hd iht ihc iha =>
    intro hv hf
    have forward : pos + Instr.total asked + 3 + Instr.total consequent < done.toNat := by omega
    have hd₁ : 1 < (plain (v.depth + 1)).length := by rw [length_plain]; exact Nat.succ_lt_succ hf.depth
    rw [List.append_assoc, List.cons_append]
    refine (iht hv hf).trans (ht.sound hv).scan (.cons ⟨hd₁, nofun⟩ ?_)
    refine (ihc hv hf).trans (hc.sound hv).scan (.cons ⟨Nat.lt_of_succ_lt hd₁, nofun⟩ ?_)
    rw [Instr.size_jump, next_jump_forward forward, ← ho]
    exact iha hv hf
  | whileLoop hc ih => exact ih
  | @forLoop c s direct init test modifier body o v pos first code as bs hi hl ihi ihl =>
    intro hv hf
    have start := (hi.sound hv).append (balanced_drop o)
    have all := start.append (hl.sound (hv.kept o))
    refine (((ihi hv hf).trans (hi.sound hv).scan (clear_drop o hf)).trans start.scan
      (ihl (hv.kept o) (hf.kept o))).trans all.scan ?_
    cases o with
    | slot name ix => exact clear_one (Nat.succ_lt_succ (Nat.succ_lt_succ hf.depth)) nofun
    | _ => exact clear_nil
  | define hc hd ih => exact fun hv hf => (ih hv hf).trans (hc.sound hv).scan (clear_declares hf hd)
  | lambda hc ih => exact ih
  | @operation c s direct op x y v pos first second as bs hx hy ihx ihy =>
    intro hv hf
    refine ((ihx hv hf).trans (hx.sound hv).scan (ihy (hv.push 1) (hf.push 1))).trans
      ((hx.sound hv).append (hy.sound (hv.push 1))).scan ?_
    have hd : 2 < (v.push 1).depth + 1 := Nat.succ_lt_succ (Nat.succ_lt_succ hf.depth)
    cases op <;> exact clear_one hd nofun
  | @call c s direct callee args v pos function arguments as bs n hx hy hn ihx ihy =>
    intro hv hf
    refine ((ihx hv hf).trans (hx.sound hv).scan (ihy (hv.push 1) (hf.push 1))).trans
      ((hx.sound hv).append (hy.sound (hv.push 1))).scan (clear_one ?_ nofun)
    have := hf.depth
    rw [Instr.reach_call, View.depth_push]
    omega
  | empty hc ih => exact ih
  | @last c s f o v pos code as hc ih =>
    intro hv hf
    refine (ih hv hf).trans (hc.sound hv).scan ?_
    have hp := hc.placed
    cases o with
    | value => exact clear_nil
    | slot name ix =>
      refine clear_one (Nat.succ_pos _) fun _ h => ?_
      cases h
      exact hp ▸ hf.depth
    | cell name ix => exact clear_one hf.depth nofun
  | @next c s f g fs o k v pos code rest as bs hx hr ihx ihr =>
    intro hv hf
    exact ((ihx hv hf).trans (hx.sound hv).scan (clear_drop o hf)).trans
      ((hx.sound hv).append (balanced_drop o)).scan (ihr (hv.kept o) (hf.kept o))
  | noArgs | noDrops => exact fun _ _ => clear_nil
  | args hx hr ihx ihr =>
    exact fun hv hf => (ihx hv hf).trans (hx.sound hv).scan (ihr (hv.push 1) (hf.push 1))
  | drops hx hr ihx ihr =>
    intro hv hf
    refine (ihx hv hf).trans (hx.sound hv).scan (.cons ⟨?_, nofun⟩ (ihr hv hf))
    rw [length_plain]
    exact Nat.succ_lt_succ hf.depth
  | @loop c s test fs v pos asked dropped result as bs cs start done ht hb hs hd hr iht ihb ihr =>
    intro hv hf
    have hd₁ : 1 < (plain (v.depth + 1)).length := by rw [length_plain]; exact Nat.succ_lt_succ hf.depth
    have hd₀ : 0 < (plain v.depth).length := by rw [length_plain]; exact hf.depth
    have back : start.toNat ≤ pos + Instr.total asked + 3 + Instr.total dropped := by omega
    rw [List.append_assoc, List.cons_append]
    refine (iht hv hf).trans (ht.sound hv).scan (.cons ⟨hd₁, nofun⟩ ?_)
    refine (ihb hv hf).trans (hb.sound hv).scan (.cons ⟨hd₀, nofun⟩ ?_)
    rw [Instr.size_jump, next_jump_back back, ← hd]
    exact ihr hv hf
  | constant => exact fun _ hf => clear_one hf.depth nofun
  | @made c s name f params body v pos c' code' h ix cells as bs n hc hcode hl h hn hne ih =>
    intro hv hf
    have hd := hf.depth
    have loads : Typed (fun _ => True) W c (fun _ _ => True) pos (loaded 0 v.depth) cells ∧
        Instr.scan W.heap c pos (loaded 0 v.depth) cells = loaded (0 + c'.free.toList.length) v.depth :=
      typed_loads hv hl
    refine (clear_loads hd hl).trans loads.2 (.cons ⟨?_, nofun⟩ (.cons ⟨?_, nofun⟩ clear_nil))
    · exact Nat.lt_of_lt_of_le hd (by simp [loaded])
    · simp [loaded, Instr.next, hn]
      omega
  | finishBlock | finish | code => trivial

/-- A program does not reach its main function. -/
theorem CompiledMain.clear {program : Form} (h : CompiledMain T W program c) {code : List Instr}
    (hb : c.bytes = Instr.bytes (code ++ [.halt])) : Clear W c 0 (plain 1) code := by
  obtain ⟨-, -, -, code', as, h, hb'⟩ := h
  obtain rfl := List.append_cancel_right (Instr.bytes_inj (hb.symm.trans hb'))
  exact h.clear View.valid_start floored_start

end ByteLisp
