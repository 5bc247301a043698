/-
  ByteLisp: the machine runs the instructions that decoding gives.

  The code need not be compiled: all that is asked of a code object is that its
  bytes decode and that its jumps lead to instructions.

  * `Code.Boundary`: a place of an instruction, or the end of the code;
    `Code.Decodes`: code that decodes, with such jumps;
  * `Frame.Aligned`, `Machine.Aligned`: the activations are all at such places,
    which a step keeps (`Advances.aligned`);
  * `Machine.FollowsDecoder`: what the machine reads next is what decoding gives at
    the place, and `runs_follow_decoder` says so of all states of all runs.
-/
import ByteLisp.Proofs.Machine.Lasting

namespace ByteLisp

/-! ## Places of instructions -/

namespace Code

variable {bytes : Array UInt8} {c : Code} {pos p ip : Nat} {i : Instr} {is : List (Nat × Instr)}

theorem instrsFrom_ok (h : instrsFrom bytes pos = .ok is) :
    (bytes.size ≤ pos ∧ is = []) ∨ ∃ i rest, Instr.fetch bytes pos = .ok i ∧
      instrsFrom bytes (pos + i.size) = .ok rest ∧ is = (pos, i) :: rest := by
  rw [instrsFrom] at h
  split at h
  · split at h
    · next i hi =>
      cases hr : instrsFrom bytes (pos + i.size) with
      | error e => rw [hr] at h; cases h
      | ok rest => rw [hr] at h; cases h; exact Or.inr ⟨i, rest, hi, hr, rfl⟩
    · cases h
    · cases h
  · next hlt => cases h; exact Or.inl ⟨Nat.le_of_not_lt hlt, rfl⟩

theorem fetch_of_mem (h : instrsFrom bytes pos = .ok is) (hm : (p, i) ∈ is) :
    Instr.fetch bytes p = .ok i := by
  induction is generalizing pos with
  | nil => cases hm
  | cons a is ih =>
    obtain ⟨-, ⟨⟩⟩ | ⟨j, rest, hj, hrest, heq⟩ := instrsFrom_ok h
    cases heq
    rcases List.mem_cons.1 hm with hm | hm
    · cases hm
      exact hj
    · exact ih hrest hm

theorem fetchOp_lt {op : Op} (h : Instr.fetchOp bytes pos = .ok op) : pos < bytes.size := by
  unfold Instr.fetchOp at h
  split at h
  · cases h
  · next hb => exact (Array.getElem?_eq_some_iff.1 hb).1

theorem fetch_le (h : Instr.fetch bytes pos = .ok i) : pos + i.size ≤ bytes.size := by
  cases hop : Instr.fetchOp bytes pos with
  | error e => rw [Instr.fetch_of_error hop] at h; cases h
  | ok op =>
    cases ht : op.template with
    | plain j =>
      cases (Instr.fetch_plain ht hop).symm.trans h
      rw [Op.size_plain ht]
      exact fetchOp_lt hop
    | byte make =>
      rw [Instr.fetch_byte ht hop] at h
      split at h
      · next x hx =>
        cases h
        rw [Op.size_byte ht]
        exact (Array.getElem?_eq_some_iff.1 hx).1
      · cases h
    | word make =>
      rw [Instr.fetch_word ht hop] at h
      split at h
      · next hi lo _ hlo =>
        cases h
        rw [Op.size_word ht]
        exact (Array.getElem?_eq_some_iff.1 hlo).1
      · cases h

/-- The place of an instruction, or the end of the code. -/
def Boundary (bytes : Array UInt8) (is : List (Nat × Instr)) (ip : Nat) : Prop :=
  ip = bytes.size ∨ ∃ i, (ip, i) ∈ is

theorem boundary_start (h : instrsFrom bytes pos = .ok is) (hp : pos ≤ bytes.size) :
    Boundary bytes is pos := by
  obtain ⟨hle, -⟩ | ⟨i, rest, -, -, rfl⟩ := instrsFrom_ok h
  · exact Or.inl (Nat.le_antisymm hp hle)
  · exact Or.inr ⟨i, List.mem_cons_self⟩

theorem Boundary.cons {a : Nat × Instr} (h : Boundary bytes is ip) : Boundary bytes (a :: is) ip :=
  h.imp_right fun ⟨i, hi⟩ => ⟨i, List.mem_cons_of_mem a hi⟩

/-- Behind an instruction there is another one, or the end of the code. -/
theorem boundary_next (h : instrsFrom bytes pos = .ok is) (hm : (p, i) ∈ is) :
    Boundary bytes is (p + i.size) := by
  induction is generalizing pos with
  | nil => cases hm
  | cons a is ih =>
    obtain ⟨-, ⟨⟩⟩ | ⟨j, rest, hj, hrest, heq⟩ := instrsFrom_ok h
    cases heq
    rcases List.mem_cons.1 hm with hm | hm
    · cases hm
      exact (boundary_start hrest (fetch_le hj)).cons
    · exact (ih hrest hm).cons

/-- Code that decodes and jumps only to its instructions. -/
structure Decodes (c : Code) (is : List (Nat × Instr)) : Prop where
  instrs : c.instrs = .ok is
  targets : ∀ p i t, (p, i) ∈ is → i.address? = some t → ∃ j, (t.toNat, j) ∈ is

end Code

/-! ## The faults of built-in functions -/

namespace Native

theorem numberArg_raised (name : String) (k : Nat) (s : Stack) :
    Ends (numberArg name k) s (fun _ _ => True) fun e _ => e.Raised := by
  refine ends_bind ?_
  unfold Ends
  split
  · next v _ _ =>
    cases v with
    | number x => trivial
    | boolean b => trivial
    | object i => trivial
  · next h => exact Stack.peek_error h

theorem push_raised (v : Value) (s : Stack) :
    Ends (Stack.push v) s (fun _ _ => True) fun e _ => e.Raised := by
  unfold Ends
  split
  · trivial
  · next h => exact Stack.push_error h

theorem builtin_raised {n : Native} (hn : n ∈ builtins) (s : Stack) :
    Ends n.run s (fun _ _ => True) fun e _ => e.Raised := by
  have unary (name : String) (f : Float → Float) :
      Ends (unary name f).run s (fun _ _ => True) fun e _ => e.Raised :=
    ends_bind ((numberArg_raised name 0 s).mono (fun _ _ _ => push_raised _ _) fun _ _ h => h)
  have binary (name : String) (f : Float → Float → Float) :
      Ends (binary name f).run s (fun _ _ => True) fun e _ => e.Raised :=
    ends_bind ((numberArg_raised name 1 s).mono (fun _ s' _ => ends_bind
      ((numberArg_raised name 0 s').mono (fun _ _ _ => push_raised _ _) fun _ _ h => h)) fun _ _ h => h)
  simp only [builtins, List.mem_cons, List.not_mem_nil, or_false] at hn
  rcases hn with rfl | rfl | rfl | rfl
  · exact unary _ _
  · exact unary _ _
  · exact binary _ _
  · exact binary _ _

end Native

/-! ## Activations -/

/-- An activation is at an instruction of its code, or at the end. -/
def Frame.Aligned (h : Heap) (f : Frame) : Prop :=
  ∃ c is, h.code? f.code = some c ∧ c.Decodes is ∧ Code.Boundary c.bytes is f.ip

namespace Machine

/-- All code decodes, only built-in functions can be called besides it, and all activations are at
    instructions. -/
structure Aligned (m : Machine) : Prop where
  codes : ∀ i c, m.heap.code? i = some c → ∃ is, c.Decodes is
  natives : ∀ i n, m.heap.get? i = some (.native n) → n ∈ Native.builtins
  current : m.current.Aligned m.heap
  callers : ∀ f ∈ m.callers, f.Aligned m.heap

/-- The same activation runs at the same place, and neither code nor native functions are added. -/
structure Unmoved (m m' : Machine) : Prop where
  current : m'.current = m.current
  callers : m'.callers = m.callers
  code : ∀ i, m'.heap.code? i = m.heap.code? i
  native : ∀ i n, m'.heap.get? i = some (.native n) → m.heap.get? i = some (.native n)

end Machine

variable {m m' : Machine} {i : Handle} {o : Object} {v : Value} {h : Heap} {n : Native}

namespace Heap

theorem code?_alloc (ho : o.Made) : (h.alloc o).code? i = h.code? i := by
  cases hc : h.code? i with
  | some c => exact code?_eq_some.2 (get?_alloc_of_some (code?_eq_some.1 hc))
  | none =>
    refine Option.eq_none_iff_forall_ne_some.2 fun c hc' => ?_
    rcases get?_alloc_cases (code?_eq_some.1 hc') with hi | ⟨-, rfl⟩
    · exact Option.eq_none_iff_forall_ne_some.1 hc c (code?_eq_some.2 hi)
    · exact ho

theorem code?_setCell (hi : h.IsCell i) (j : Handle) : (h.setCell i v).code? j = h.code? j := by
  by_cases hj : j = i
  · subst hj
    obtain ⟨u, hu⟩ := hi
    rw [code?, code?, get?_setCell ⟨u, hu⟩, cell?_eq_some.1 hu]
  · rw [code?, code?, get?_setCell_of_ne hj]

theorem native_of_alloc (ho : o.Made) (hi : (h.alloc o).get? i = some (.native n)) :
    h.get? i = some (.native n) := by
  rcases get?_alloc_cases hi with hi | ⟨-, rfl⟩
  · exact hi
  · exact ho.elim

theorem native_of_setCell {j : Handle} (hi : h.IsCell i)
    (hj : (h.setCell i v).get? j = some (.native n)) : h.get? j = some (.native n) := by
  by_cases hne : j = i
  · subst hne
    rw [get?_setCell hi] at hj
    cases hj
  · rwa [get?_setCell_of_ne hne] at hj

end Heap

namespace Machine

theorem lasting_unmoved : Lasting Unmoved Fault.Raised where
  raised _ he := he
  refl _ := ⟨rfl, rfl, fun _ => rfl, fun _ _ h => h⟩
  trans h h' := ⟨h'.current.trans h.current, h'.callers.trans h.callers,
    fun i => (h'.code i).trans (h.code i), fun i n hi => h.native i n (h'.native i n hi)⟩
  stack _ _ := ⟨rfl, rfl, fun _ => rfl, fun _ _ h => h⟩
  alloc _ _ ho := ⟨rfl, rfl, fun _ => Heap.code?_alloc ho, fun _ _ => Heap.native_of_alloc ho⟩
  setCell _ _ _ hi := ⟨rfl, rfl, Heap.code?_setCell hi, fun _ _ => Heap.native_of_setCell hi⟩
  setGlobal _ _ _ := ⟨rfl, rfl, fun _ => rfl, fun _ _ h => h⟩

theorem Aligned.nativesRaise (ha : m.Aligned) : m.NativesRaise Fault.Raised :=
  fun i n hi s _ _ he => (Native.builtin_raised (ha.natives i n hi) s).error he

/-- What the machine reads next is the instruction that decoding gives for the place, or the code
    has ended there. -/
structure FollowsDecoder (m : Machine) : Prop where
  reads : ∃ c is, m.heap.code? m.current.code = some c ∧ c.instrs = .ok is ∧
    ((∃ i, (m.current.ip, i) ∈ is ∧ fetch m = .ok i (m.past i)) ∨
      m.current.ip = c.bytes.size ∧ fetch m = .error .corrupted m)
  callers : ∀ f ∈ m.callers, ∃ c is, m.heap.code? f.code = some c ∧ c.instrs = .ok is ∧
    Code.Boundary c.bytes is f.ip

theorem Aligned.followsDecoder (ha : m.Aligned) : m.FollowsDecoder where
  reads := by
    obtain ⟨c, is, hc, hd, hend | ⟨i, hi⟩⟩ := ha.current
    · refine ⟨c, is, hc, hd.instrs, Or.inr ⟨hend, ?_⟩⟩
      have hm := fetch_eq hc
      rwa [hend, Code.fetch_size] at hm
    · refine ⟨c, is, hc, hd.instrs, Or.inl ⟨i, hi, ?_⟩⟩
      have hm := fetch_eq hc
      rwa [Code.fetch_of_mem hd.instrs hi] at hm
  callers f hf := by
    obtain ⟨c, is, hc, hd, hb⟩ := ha.callers f hf
    exact ⟨c, is, hc, hd.instrs, hb⟩

/-- The next instruction is one of those that decoding gives. -/
theorem Aligned.mem_of_instr? {j : Instr} (ha : m.Aligned) (hj : m.instr? = some j) :
    ∃ c is, m.heap.code? m.current.code = some c ∧ c.Decodes is ∧ (m.current.ip, j) ∈ is := by
  obtain ⟨c, is, hc, hd, hend | ⟨i, hi⟩⟩ := ha.current
  · rw [instr?, hc, Option.bind_some, hend, Code.fetch_size] at hj
    cases hj
  · cases hj.symm.trans (instr?_eq hc (Code.fetch_of_mem hd.instrs hi))
    exact ⟨c, is, hc, hd, hi⟩

/-- Operations keep all activations where they are. -/
theorem Aligned.unmoved (ha : m.Aligned) (h : m.Unmoved m') : m'.Aligned := by
  have aligned {f : Frame} (hf : f.Aligned m.heap) : f.Aligned m'.heap := by
    obtain ⟨c, is, hc, hd⟩ := hf
    exact ⟨c, is, (h.code f.code).trans hc, hd⟩
  refine ⟨fun i c hc => ha.codes i c (h.code i ▸ hc), fun i n hn => ha.natives i n (h.native i n hn), ?_, ?_⟩
  · rw [h.current]
    exact aligned ha.current
  · rw [h.callers]
    exact fun f hf => aligned (ha.callers f hf)

/-- Behind the next instruction there is another one, or the end of the code. -/
theorem Aligned.past {j : Instr} (ha : m.Aligned) (hj : m.instr? = some j) : (m.past j).Aligned := by
  obtain ⟨c, is, hc, hd, hi⟩ := ha.mem_of_instr? hj
  exact ⟨ha.codes, ha.natives, ⟨c, is, hc, hd, Code.boundary_next hd.instrs hi⟩, ha.callers⟩

/-- New activations start at the first instruction. -/
theorem Aligned.start {f : Frame} {c : Code} (ha : ∀ i c, m.heap.code? i = some c → ∃ is, c.Decodes is)
    (hc : m.heap.code? f.code = some c) (hf : f.ip = 0) : f.Aligned m.heap := by
  obtain ⟨is, hd⟩ := ha _ c hc
  refine ⟨c, is, hc, hd, ?_⟩
  rw [hf]
  exact Code.boundary_start hd.instrs (Nat.zero_le _)

/-- A step leads from an instruction to an instruction. -/
theorem Advances.aligned (ha : m.Aligned) (h : Advances Unmoved m m') : m'.Aligned := by
  cases h with
  | stays hi _ _ h => exact (ha.past hi).unmoved h
  | @jumps i t m₁ hi ht h hm =>
    subst hm
    have ha₁ := (ha.past hi).unmoved h
    obtain ⟨c, is, hc, hd, hmem⟩ := ha.mem_of_instr? hi
    refine ⟨ha₁.codes, ha₁.natives, ⟨c, is, ?_, hd, Or.inr (hd.targets _ _ _ hmem ht)⟩, ha₁.callers⟩
    change m₁.heap.code? m₁.current.code = some c
    rw [h.current, h.code]
    exact hc
  | @enters argc f c hi hf hc _ _ hm =>
    subst hm
    have hpast := ha.past hi
    have hcells := lasting_unmoved.addCells (m.past (.call argc)) c.own.size
    have hnew := hpast.unmoved hcells
    refine ⟨hnew.codes, hnew.natives, Aligned.start hnew.codes ((hcells.code f.code).trans hc) rfl, ?_⟩
    intro g hg
    rcases Array.mem_push.1 hg with hg | rfl
    · exact hnew.callers g hg
    · exact hnew.current
  | @returns f hi hf hm =>
    subst hm
    obtain ⟨cs, hcs⟩ := Array.back?_eq_some_iff.1 hf
    refine ⟨ha.codes, ha.natives, ha.callers f (by simp [hcs]), fun g hg => ha.callers g ?_⟩
    change g ∈ m.callers.pop at hg
    rw [hcs, Array.pop_push] at hg
    rw [hcs]
    exact Array.mem_push_of_mem _ hg

theorem step_aligned (ha : m.Aligned) :
    Ends step m (fun o m' => o = none → m'.Aligned) fun e _ => e.Raised := by
  refine (ends_step lasting_unmoved ha.nativesRaise).mono (fun o m' h ho => ?_) fun e m' h => ?_
  · subst ho
    exact Advances.aligned ha h
  · rcases h with ⟨i, -, he, -⟩ | ⟨hi, he⟩
    · exact he
    · obtain ⟨c, is, -, -, ⟨i, -, hf⟩ | ⟨-, hf⟩⟩ := ha.followsDecoder.reads
      · cases hf.symm.trans he
      · cases hf.symm.trans he
        trivial

theorem Reaches.aligned (hr : m.Reaches m') (ha : m.Aligned) : m'.Aligned := by
  induction hr with
  | start => exact ha
  | step _ hs ih => exact (step_aligned ih).ok hs rfl

/-- A run starts at the first instruction of the main code. -/
theorem load_aligned {main : Handle} (hc : ∀ i c, m.heap.code? i = some c → ∃ is, c.Decodes is)
    (hn : ∀ i n, m.heap.get? i = some (.native n) → n ∈ Native.builtins) :
    Ends (load main) m (fun _ m' => m'.Aligned) fun e _ => e.Raised := by
  refine ends_load trivial trivial fun c hmain => ?_
  have hfun := lasting_unmoved.alloc m (o := .function ⟨main, #[]⟩) trivial
  have hnew := lasting_unmoved.trans hfun (lasting_unmoved.addCells _ c.own.size)
  have hcodes : ∀ i d, (m.opening main c).heap.code? i = some d → ∃ is, d.Decodes is :=
    fun i d hd => hc i d ((hnew.code i).symm.trans hd)
  refine ⟨hcodes, fun i n hi => hn i n (hnew.native i n hi), ?_, nofun⟩
  exact Aligned.start hcodes ((hnew.code main).trans hmain) rfl

theorem run_raised {budget : Nat} {e : Fault} (ha : m.Aligned) (hr : run budget m = some (.error e m')) :
    e.Raised := by
  induction budget generalizing m with
  | zero => cases hr
  | succ budget ih =>
    have hs := step_aligned ha
    rw [run] at hr
    cases hstep : step m with
    | error e' m₁ =>
      rw [hstep] at hr
      cases hr
      exact hs.error hstep
    | ok o m₁ =>
      rw [hstep] at hr
      cases o with
      | none => exact ih (hs.ok hstep rfl) hr
      | some v => cases hr

/-- If all code on the heap decodes and jumps to instructions, then in all states of all runs the
    machine is at an instruction that decoding gives, or at the end of the code, and reads just that
    instruction. No run fails because of an unknown operation. -/
theorem runs_follow_decoder {main : Handle}
    (hc : ∀ i c, m.heap.code? i = some c → ∃ is, c.Decodes is)
    (hn : ∀ i n, m.heap.get? i = some (.native n) → n ∈ Native.builtins) :
    (∀ m₁ m₂, load main m = .ok () m₁ → m₁.Reaches m₂ → m₂.FollowsDecoder) ∧
      ∀ budget b pos m', runMain budget main m ≠ some (.error (.unknownOpcode b pos) m') := by
  have hl : Ends (load main) m _ _ := load_aligned hc hn
  refine ⟨fun m₁ m₂ hload hr => (hr.aligned (hl.ok hload)).followsDecoder, fun budget b pos m' hr => ?_⟩
  unfold runMain at hr
  cases hload : load main m with
  | ok _ m₁ =>
    rw [hload] at hr
    exact run_raised (hl.ok hload) hr
  | error e m₁ =>
    rw [hload] at hr
    cases hr
    exact hl.error hload

/-- A program that calls a function and jumps over an instruction that never runs. -/
def skipping : Heap where
  objects := #[
    .code { Code.empty "main" 0 with
      bytes := Instr.bytes [.const 0, .call 0, .jumpIfFalse 8, .halt, .const 1, .halt]
      constants := #[.object 2, .boolean true] },
    .code { Code.empty "f" 0 with
      bytes := Instr.bytes [.const 0, .ret]
      constants := #[.boolean false] },
    .function ⟨1, #[]⟩]

theorem skipping_decodes (i : Handle) (c : Code) (h : skipping.code? i = some c) :
    ∃ is, c.Decodes is := by
  match i with
  | 0 =>
    cases h
    refine ⟨_, Code.instrs_eq_placed rfl, fun p j t hm ht => ⟨.const 1, ?_⟩⟩
    simp only [Instr.placed, List.mem_cons, List.not_mem_nil, or_false, Prod.mk.injEq] at hm
    obtain ⟨-, rfl⟩ | ⟨-, rfl⟩ | ⟨-, rfl⟩ | ⟨-, rfl⟩ | ⟨-, rfl⟩ | ⟨-, rfl⟩ := hm <;> cases ht
    decide
  | 1 =>
    cases h
    refine ⟨_, Code.instrs_eq_placed rfl, fun p j t hm ht => ?_⟩
    simp only [Instr.placed, List.mem_cons, List.not_mem_nil, or_false, Prod.mk.injEq] at hm
    obtain ⟨-, rfl⟩ | ⟨-, rfl⟩ := hm <;> cases ht
  | 2 => cases h
  | i + 3 => cases h

theorem runs_follow_decoder_skipping :
    (∀ i c, skipping.code? i = some c → ∃ is, c.Decodes is) ∧
      (∃ m', runMain 8 0 (start skipping .empty .usual) = some (.ok (.boolean true) m')) ∧
      (∀ m₁ m₂, load 0 (start skipping .empty .usual) = .ok () m₁ → m₁.Reaches m₂ →
        m₂.FollowsDecoder) ∧
      ∀ budget b pos m', runMain budget 0 (start skipping .empty .usual) ≠
        some (.error (.unknownOpcode b pos) m') := by
  refine ⟨skipping_decodes, ⟨_, rfl⟩, runs_follow_decoder skipping_decodes fun i n h => ?_⟩
  match i with
  | 0 | 1 | 2 => cases h
  | i + 3 => cases h

end Machine

end ByteLisp
