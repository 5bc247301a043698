/-
  ByteLisp: sound code runs without getting stuck.

  * `Fault.Expected`: a fault that a program may cause, `Machine.Stops`: how a
    run may fail;
  * `Continues`: the current activation goes on with values of a shape; the
    lemmas `continues_*` say so of each operation;
  * `Machine.Sound` is the invariant of a run between two instructions, and
    `step_sound` says that a step keeps it;
  * `Machine.Moves` tells calls and returns from other steps: a call enters an
    activation on the values below its function, a return uncovers the one that
    waits, and any other step leaves the values below the current one alone
    (`step_moves`).
-/
import ByteLisp.Proofs.Machine.Fetching
import ByteLisp.Proofs.Machine.Running

namespace ByteLisp

/-- A fault that programs may cause; the others tell of code that makes no sense. -/
def Fault.Expected : Fault → Prop
  | type _ _ _ | reference _ | stackOverflow | notCallable _ | arity _ _ _ | native _ _ => True
  | _ => False

/-! ## Native functions -/

namespace Native

variable {s : Stack}

theorem numberArg_cases (name : String) {k : Nat} (hk : k < s.height) :
    (∃ x, numberArg name k s = .ok x s) ∨
      ∃ e : Fault, e.Expected ∧ numberArg name k s = .error e s := by
  obtain ⟨v, hv⟩ : ∃ v, s.values[k]? = some v :=
    ⟨_, List.getElem?_eq_getElem (s.height_eq ▸ hk)⟩
  unfold numberArg
  simp only [bind, EStateM.bind, Stack.peek, hv]
  cases v with
  | number x => exact Or.inl ⟨x, rfl⟩
  | boolean b => exact Or.inr ⟨.type name .number .boolean, trivial, rfl⟩
  | object i => exact Or.inr ⟨.native name "expected a number", trivial, rfl⟩

theorem unary_cases (name : String) (g : Float → Float) (hs : 1 ≤ s.height) :
    (∃ x, (unary name g).run s = Stack.push (.number x) s) ∨
      ∃ e : Fault, e.Expected ∧ (unary name g).run s = .error e s := by
  simp only [unary, bind, EStateM.bind]
  rcases numberArg_cases name hs with ⟨x, hx⟩ | ⟨e, he, hx⟩
  · exact Or.inl ⟨g x, by rw [hx]⟩
  · exact Or.inr ⟨e, he, by rw [hx]⟩

theorem binary_cases (name : String) (g : Float → Float → Float) (hs : 2 ≤ s.height) :
    (∃ x, (binary name g).run s = Stack.push (.number x) s) ∨
      ∃ e : Fault, e.Expected ∧ (binary name g).run s = .error e s := by
  simp only [binary, bind, EStateM.bind]
  rcases numberArg_cases name hs with ⟨x, hx⟩ | ⟨e, he, hx⟩
  · rw [hx]
    rcases numberArg_cases name (Nat.lt_of_succ_lt hs) with ⟨y, hy⟩ | ⟨e, he, hy⟩
    · exact Or.inl ⟨g x y, by simp only [hy]⟩
    · exact Or.inr ⟨e, he, by simp only [hy]⟩
  · exact Or.inr ⟨e, he, by rw [hx]⟩

/-- A built-in function pushes a number, or refuses and leaves the stack as it is. -/
theorem builtin_cases {n : Native} (hn : n ∈ builtins) (hs : n.arity ≤ s.height) :
    (∃ x, n.run s = Stack.push (.number x) s) ∨ ∃ e : Fault, e.Expected ∧ n.run s = .error e s := by
  simp only [builtins, List.mem_cons, List.not_mem_nil, or_false] at hn
  rcases hn with rfl | rfl | rfl | rfl
  · exact unary_cases _ _ hs
  · exact unary_cases _ _ hs
  · exact binary_cases _ _ hs
  · exact binary_cases _ _ hs

end Native

namespace Machine

/-- A run that started in the world `W` may fail as programs do. -/
def Stops (A : Handle → Prop) (W : World) (e : Fault) (m : Machine) : Prop :=
  e.Expected ∧ W.Leads m.world ∧ m.world.Stored A

/-- The current activation goes on with values of a shape. -/
def Continues (A : Handle → Prop) (W : World) (r : Routine) (f : Frame) (σ : Shape)
    (rest : List Value) (m : Machine) : Prop := ∃ vs, Running A W r f σ vs rest m

/-- The invariant between two instructions of a run that started in the world `W`. -/
def Sound (A : Handle → Prop) (W : World) (m : Machine) : Prop :=
  ∃ r σ vs rest, Running A W r m.current σ vs rest m ∧ r.At W m.current.ip σ

/-- The invariant, with the values below those of the current activation. -/
def SoundOn (A : Handle → Prop) (W : World) (rest : List Value) (m : Machine) : Prop :=
  ∃ r σ vs, Running A W r m.current σ vs rest m ∧ r.At W m.current.ip σ

/-- The function of the program that lies below `argc` arguments, if there is one. -/
def callee? (m : Machine) (argc : Nat) : Option Closure :=
  match (m.stack.values[argc]?.bind Value.handle?).bind m.heap.get? with
  | some (.function f) => some f
  | _ => none

/-- A call with `argc` arguments has entered an activation: the function and its arguments are its
    first values, and the activation that called waits. -/
structure Entered (A : Handle → Prop) (W : World) (rest : List Value) (argc : Nat)
    (m m' : Machine) : Prop where
  sound : m'.SoundOn A W (m.stack.values.drop (argc + 1))
  above : rest <:+ m.stack.values.drop (argc + 1)
  stack : m'.stack = m.stack
  callers : m'.callers = m.callers.push m.current

/-- The activation that waited is the current one again, with the result on its values. -/
structure Returned (A : Handle → Prop) (W : World) (rest : List Value) (m m' : Machine) : Prop where
  callers : m.callers = m'.callers.push m'.current
  result : ∃ v, m.stack.values = v :: rest
  stack : m'.stack = m.stack
  sound : ∃ vs rest', rest = vs ++ rest' ∧ m'.SoundOn A W rest'

end Machine

variable {A : Handle → Prop} {W : World} {r : Routine} {f : Frame} {σ τ : Shape}
  {vs ws rest : List Value} {u v x y : Value} {m m' : Machine} {k : Kind} {n : Nat}

theorem Running.stops (hr : Running A W r f σ vs rest m) {e : Fault} (he : e.Expected) :
    Machine.Stops A W e m := ⟨he, hr.since, hr.stored⟩

namespace Machine

theorem ends_native {g : Native} (hn : g ∈ Native.builtins) (hs : g.arity ≤ m.stack.height)
    {Q : Unit → Machine → Prop} {E : Fault → Machine → Prop} (he : ∀ e : Fault, e.Expected → E e m)
    (h : ∀ x, Q () (m.put (.number x :: m.stack.values))) : Ends (onStack g.run) m Q E := by
  rcases Native.builtin_cases hn hs with ⟨x, hx⟩ | ⟨e, hx, hg⟩
  · have same : onStack g.run m = push (.number x) m := by rw [push, onStack, onStack, hx]
    rw [Ends, same]
    exact ends_push (he .stackOverflow trivial) (h x)
  · refine ends_of_error e m ?_ (he e hx)
    rw [onStack, hg]

/-- Allocating cells keeps the world safe. -/
theorem ends_allocCells {cells : Array Handle} {Q : Array Handle → Machine → Prop}
    {E : Fault → Machine → Prop} (hs : m.world.Stored A) (hc : ∀ i ∈ cells, m.heap.IsCell i)
    (h : ∀ (cs : Array Handle) heap, cs.size = cells.size + n → (∀ i ∈ cs, heap.IsCell i) →
      m.world.Leads ⟨heap, m.globals⟩ → World.Stored A ⟨heap, m.globals⟩ →
        Q cs { m with heap := heap }) : Ends (allocCells cells n) m Q E := by
  induction n generalizing m cells with
  | zero => exact ends_pure (h cells m.heap rfl hc (.refl _) hs)
  | succ n ih =>
    refine ends_bind (ends_alloc (ih (hs.alloc fun v hv => ?_) (fun i hi => ?_) ?_))
    · cases hv
      exact .boolean false
    · rcases Array.mem_push.1 hi with hi | rfl
      · exact (m.world.leads_alloc _).cells i (hc i hi)
      · exact Heap.isCell_of_get? (Heap.get?_alloc_size ..)
    · intro cs heap hsize hcells hl hsafe
      refine h cs heap ?_ hcells ((m.world.leads_alloc _).trans hl) hsafe
      rw [hsize, Array.size_push, Nat.add_right_comm, Nat.add_assoc]

/-! ## Operations -/

theorem continues_push (hr : Running A W r f σ vs rest m) (hv : HasKind A m.heap k v) :
    Ends (push v) m (fun _ => Continues A W r f (k :: σ) rest) (Stops A W) := by
  refine ends_push (hr.stops trivial) ⟨v :: vs, ?_⟩
  rw [hr.values]
  exact hr.put (.cons hv hr.segment)

theorem continues_pushPlain (hr : Running A W r f (plain n) vs rest m) (hv : Visible A m.heap v) :
    Ends (push v) m (fun _ => Continues A W r f (plain (n + 1)) rest) (Stops A W) :=
  continues_push hr (.plain hv)

theorem stops_typeFault {α : Type} {Q : α → Machine → Prop} {op : Op} {expected : Tag}
    (hr : Running A W r f σ vs rest m) (hv : Visible A m.heap v) :
    Ends (typeFault op expected v : Run α) m Q (Stops A W) := by
  obtain ⟨t, ht, -⟩ := hv.tag
  exact ends_typeFault ht (hr.stops trivial)

theorem continues_pop (hr : Running A W r f (plain (n + 1)) vs rest m) :
    Ends pop m (fun v m' => Visible A m'.heap v ∧ Continues A W r f (plain n) rest m') (Stops A W) := by
  have hs := hr.segment
  rw [plain_succ] at hs
  cases hs with
  | cons hv hs => exact ends_pop hr.values ⟨hasKind_plain.1 hv, _, hr.put hs⟩

/-- Taking two values leaves the heap as it is. -/
theorem continues_popTwo {α : Type} {Q : α → Machine → Prop} {E : Fault → Machine → Prop}
    {op : Value → Value → Run α} (hr : Running A W r f (plain (n + 2)) vs rest m)
    (h : ∀ x y m' ws, Running A W r f (plain n) ws rest m' → Visible A m'.heap x →
      Visible A m'.heap y → Ends (op x y) m' Q E) :
    Ends (do let y ← pop; let x ← pop; op x y) m Q E := by
  have hs := hr.segment
  rw [plain_succ, plain_succ] at hs
  obtain ⟨⟩ | ⟨hy, ⟨⟩ | ⟨hx, hs⟩⟩ := hs
  exact ends_bind (ends_pop hr.values (ends_bind (ends_pop rfl
    (h _ _ _ _ (hr.put hs) (hasKind_plain.1 hx) (hasKind_plain.1 hy)))))

theorem continues_arithmetic (op : Op) (g : Float → Float → Float)
    (hr : Running A W r f (plain (n + 2)) vs rest m) :
    Ends (arithmetic op g) m (fun _ => Continues A W r f (plain (n + 1)) rest) (Stops A W) := by
  refine continues_popTwo hr fun x y m' ws hr hx hy => ?_
  cases x with
  | number a =>
    cases y with
    | number b => exact continues_pushPlain hr (.number (g a b))
    | _ => exact stops_typeFault hr hy
  | _ => exact stops_typeFault hr hx

/-- Operands that are not both numbers must both be strings. -/
theorem continues_texts {o : Op} {g : String → String → Run Unit}
    (hr : Running A W r f (plain n) vs rest m) (hx : Visible A m.heap x) (hy : Visible A m.heap y)
    (h : ∀ s t, Ends (g s t) m (fun _ => Continues A W r f (plain (n + 1)) rest) (Stops A W)) :
    Ends (do
      match ← textOf x, ← textOf y with
      | some s, some t => g s t
      | some _, none => typeFault o .string y
      | none, _ =>
        match x with
        | .number _ => typeFault o .number y
        | _ => typeFault o .number x) m (fun _ => Continues A W r f (plain (n + 1)) rest)
      (Stops A W) := by
  refine ends_bind (ends_textOf (ends_bind (ends_textOf ?_)))
  cases m.heap.text? x with
  | none =>
    cases x with
    | number a => exact stops_typeFault hr hy
    | _ => exact stops_typeFault hr hx
  | some s =>
    cases m.heap.text? y with
    | none => exact stops_typeFault hr hy
    | some t => exact h s t

theorem continues_string (text : String) (hr : Running A W r f (plain n) vs rest m) :
    Ends (do push (.object (← alloc (.string text)))) m
      (fun _ => Continues A W r f (plain (n + 1)) rest) (Stops A W) := by
  have hs : ∀ v, Object.string text = .cell v → Visible A m.heap v := nofun
  exact ends_bind (ends_alloc (continues_pushPlain (hr.alloc hs)
    (.string (Heap.get?_alloc_size ..))))

theorem continues_add (hr : Running A W r f (plain (n + 2)) vs rest m) :
    Ends add m (fun _ => Continues A W r f (plain (n + 1)) rest) (Stops A W) := by
  refine continues_popTwo hr fun x y m' ws hr hx hy => ?_
  have texts := continues_texts (o := .add) hr hx hy fun s t => continues_string (s ++ t) hr
  cases x with
  | number a =>
    cases y with
    | number b => exact continues_pushPlain hr (.number (a + b))
    | _ => exact texts
  | _ => exact texts

theorem continues_compare (c : Comparison) (hr : Running A W r f (plain (n + 2)) vs rest m) :
    Ends (compare c) m (fun _ => Continues A W r f (plain (n + 1)) rest) (Stops A W) := by
  refine continues_popTwo hr fun x y m' ws hr hx hy => ?_
  have texts := continues_texts (o := .cmp) hr hx hy fun s t =>
    continues_pushPlain hr (.boolean (c.strings s t))
  cases x with
  | number a =>
    cases y with
    | number b => exact continues_pushPlain hr (.boolean (c.numbers a b))
    | _ => exact texts
  | boolean a =>
    cases y with
    | boolean b =>
      dsimp only
      split
      · exact continues_pushPlain hr (.boolean (c.booleans a b))
      · exact stops_typeFault hr hx
    | _ => exact stops_typeFault hr hx
  | object i => cases y <;> exact texts

/-! ## Calls -/

/-- The values on top of a segment. -/
theorem exists_top {l : Nat} (hr : Running A W r f (plain (n + l)) vs rest m) :
    ∃ us ws, vs = us ++ ws ∧ us.length = l ∧ (∀ v ∈ us, Visible A m.heap v) ∧
      Segment A m.heap (plain n) ws := by
  have hs := hr.segment
  rw [Nat.add_comm, plain, List.replicate_add] at hs
  obtain ⟨us, ws, rfl, hu, hw⟩ := Segment.append_left hs
  obtain ⟨hlen, hv⟩ := Segment.plain_iff.1 hu
  exact ⟨us, ws, rfl, hlen, hv, hw⟩

theorem continues_callNative {g : Native} {argc : Nat} (hg : g ∈ Native.builtins)
    (hr : Running A W r f (plain (n + (argc + 1))) vs rest m) :
    Ends (callNative g argc) m (fun _ => Continues A W r f (plain (n + 1)) rest) (Stops A W) := by
  unfold callNative
  refine ends_guard (fun _ => hr.stops trivial) fun ha => ?_
  rw [not_not] at ha
  obtain ⟨us, ws, rfl, hlen, hu, hs⟩ := exists_top hr
  have hvals : m.stack.values = us ++ (ws ++ rest) := hr.values.trans (List.append_assoc ..)
  refine ends_bind (ends_height (ends_bind (ends_native hg ?_ (fun e he => hr.stops he) ?_)))
  · rw [m.stack.height_eq, hvals, ha, List.length_append, hlen]
    omega
  · intro x
    refine ends_bind (ends_height (ends_guard (fun h => absurd rfl h) fun _ => ?_))
    refine ends_bind (ends_pop rfl (ends_bind (ends_drop hvals hlen.symm ?_)))
    exact continues_pushPlain (hr.put hs) (.number x)

/-- A call of a function of the program enters it, and the current activation waits. -/
theorem enters_callFunction {g : Closure} {c : Code} {argc : Nat} (hW : W.Safe A) (ha : A g.code)
    (hc : m.heap.code? g.code = some c) (hsize : g.cells.size = c.free.size)
    (hcells : ∀ i ∈ g.cells, m.heap.IsCell i)
    (hr : Running A W r f (plain (n + (argc + 1))) vs rest m)
    (hip : r.At W f.ip (plain (n + 1))) :
    Ends (callFunction g argc) m (fun _ => Entered A W rest argc m) (Stops A W) := by
  refine ends_bind (ends_codeAt hc (ends_guard (fun _ => hr.stops trivial) fun harity => ?_))
  rw [not_not] at harity
  refine ends_bind (ends_get (ends_guard (fun _ => hr.stops trivial) fun _ => ?_))
  refine ends_bind (ends_allocCells hr.stored hcells fun cells heap hlen hnew hl hstored => ?_)
  refine ends_bind (ends_height ?_)
  obtain ⟨us, ws, rfl, hus, hu, hs⟩ := exists_top hr
  obtain ⟨hws, hw⟩ := Segment.plain_iff.1 hs
  obtain ⟨s, hcode, hsound⟩ := hW.codes g.code ha
  rw [hr.since.code? hcode] at hc
  cases hc
  have hvals : m.stack.values = us ++ (ws ++ rest) := hr.values.trans (List.append_assoc ..)
  have hbelow : m.stack.values.drop (argc + 1) = ws ++ rest := by rw [hvals, List.drop_left' hus]
  refine ⟨⟨s, plain (s.code.arity + 1), us, ?_, point_start⟩, ⟨ws, hbelow.symm⟩, rfl, rfl⟩
  rw [hbelow]
  constructor
  · rfl
  · exact hr.since.trans hl
  · exact hstored
  · refine ⟨ha, hcode, hsound, ?_, hnew⟩
    rw [hlen, hsize, Code.cellNames, Array.size_append]
  · exact hvals
  · rw [harity, Segment.plain_iff]
    exact ⟨hus, fun v hv => (hu v hv).later (fun _ h => h) hl⟩
  · change m.stack.values.length - argc - 1 = (ws ++ rest).length
    rw [hvals, List.length_append, hus]
    omega
  · change Waiting A W heap s.last (m.callers.push m.current).toList.reverse (ws ++ rest)
    rw [Array.toList_push, List.reverse_append, hr.current]
    refine .caller (Frame.Runs.later (V := m.world) hr.runs hl) ?_
      (fun v hv => (hw v hv).later (fun _ h => h) hl) hr.base
      (Waiting.later (V := m.world) hr.waiting hl)
    rw [hws]
    exact hip

/-- A call goes on with the result, or enters a function of the program. -/
theorem continues_call {argc : Nat} (hW : W.Safe A)
    (hr : Running A W r f (plain (n + (argc + 1))) vs rest m) (hip : r.At W f.ip (plain (n + 1))) :
    Ends (call argc) m
      (fun _ m' => m.callee? argc = none ∧ Continues A W r f (plain (n + 1)) rest m' ∨
        (∃ g, m.callee? argc = some g) ∧ Entered A W rest argc m m')
      (Stops A W) := by
  obtain ⟨us, ws, rfl, hlen, hu, hs⟩ := exists_top hr
  have hlt : argc < us.length := by omega
  have hcallee : m.stack.values[argc]? = some us[argc] := by
    rw [hr.values, List.append_assoc, List.getElem?_append_left hlt, List.getElem?_eq_getElem hlt]
  refine ends_bind (ends_peek hcallee (ends_bind (ends_get ?_)))
  have hv := hu _ (List.getElem_mem hlt)
  rw [callee?, hcallee, Option.bind_some]
  generalize us[argc] = callee at hv
  have refused {P : Machine → Prop} :
      Ends (do throw (.notCallable (← tagOf callee)) : Run Unit) m (fun _ => P) (Stops A W) := by
    obtain ⟨t, ht, -⟩ := hv.tag
    exact ends_bind (ends_tagOf ht (hr.stops trivial))
  cases hv with
  | number x | boolean b => exact refused
  | string hi =>
    simp only [Value.handle?, Option.bind_some, hi]
    exact refused
  | native hi hg =>
    simp only [Value.handle?, Option.bind_some, hi]
    exact (continues_callNative hg hr).mono (fun _ _ h => Or.inl ⟨trivial, h⟩) fun _ _ h => h
  | function hi ha hc hsize hcells =>
    simp only [Value.handle?, Option.bind_some, hi]
    exact (enters_callFunction hW ha hc hsize hcells hr hip).mono
      (fun _ _ h => Or.inr ⟨⟨_, rfl⟩, h⟩) fun _ _ h => h

/-! ## Closures -/

theorem segment_cells {h : Heap} (hs : Segment A h (List.replicate n .cell) vs) :
    ∃ is : List Handle, vs = is.map .object ∧ is.length = n ∧ ∀ i ∈ is, h.IsCell i := by
  induction n generalizing vs with
  | zero =>
    cases hs
    exact ⟨[], rfl, rfl, nofun⟩
  | succ n ih =>
    rw [List.replicate_succ] at hs
    obtain ⟨⟩ | ⟨hv, hs⟩ := hs
    obtain ⟨is, rfl, hlen, his⟩ := ih hs
    cases hv with
    | @cell i hi => exact ⟨i :: is, rfl, congrArg _ hlen, List.forall_mem_cons.2 ⟨hi, his⟩⟩

theorem mapM_handle? (is : List Handle) : (is.map Value.object).mapM Value.handle? = some is := by
  induction is with
  | nil => rfl
  | cons i is ih => rw [List.map_cons, List.mapM_cons, ih]; rfl

theorem continues_makeFunction {l : Nat}
    (hr : Running A W r f (.code n :: loaded n l) vs rest m) :
    Ends (makeFunction n) m (fun _ => Continues A W r f (plain (l + 1)) rest) (Stops A W) := by
  obtain ⟨⟩ | ⟨hcode, hs⟩ := hr.segment
  obtain ⟨us, ws, rfl, hu, hw⟩ := Segment.append_left hs
  obtain ⟨is, rfl, hlen, his⟩ := segment_cells hu
  cases hcode with
  | @code i c ha hc =>
    have hvals : m.stack.values = .object i :: (is.map .object ++ (ws ++ rest)) := by
      rw [hr.values, List.cons_append, List.append_assoc]
    have hlen' : (is.map Value.object).length = c.free.size := by rw [List.length_map, hlen]
    have hcode : (Value.object i).handle?.filter (fun h => (m.heap.code? h).isSome) = some i := by
      simp [Value.handle?, Option.filter, hc]
    have hcells : ((is.map Value.object ++ (ws ++ rest)).take c.free.size).reverse.mapM Value.handle? =
        some is.reverse := by
      rw [List.take_left' hlen', ← List.map_reverse, mapM_handle?]
    refine ends_bind (ends_pop hvals (ends_bind (ends_get (ends_bind (ends_expect hcode ?_)))))
    refine ends_guard (fun hlt => ?_) fun _ => ?_
    · rw [height_put, List.length_append, hlen'] at hlt
      omega
    refine ends_bind (ends_expect hcells (ends_bind (ends_drop rfl hlen'.symm ?_)))
    have hput : Running A W r f (plain l) ws rest (m.put (ws ++ rest)) := hr.put hw
    have hfun : ∀ v, Object.function ⟨i, is.reverse.toArray⟩ = .cell v → Visible A m.heap v := nofun
    refine ends_bind (ends_alloc (continues_pushPlain (hput.alloc hfun) ?_))
    refine .function (Heap.get?_alloc_size ..) ha ((m.world.leads_alloc _).code? hc) ?_ ?_
    · simp [hlen]
    · intro j hj
      exact (m.world.leads_alloc _).cells j (his j (by simpa using hj))

/-! ## Variables -/

theorem exists_peek (hr : Running A W r f (plain (n + 1)) vs rest m) :
    ∃ v, m.stack.values[0]? = some v ∧ Visible A m.heap v := by
  have hs := hr.segment
  rw [plain_succ] at hs
  obtain ⟨⟩ | ⟨hv, hs⟩ := hs
  exact ⟨_, by rw [hr.values]; rfl, hasKind_plain.1 hv⟩

theorem exists_local {slot : Nat} (hr : Running A W r f (plain n) vs rest m) (hs : slot < n) :
    ∃ v, m.stack.values.reverse[m.current.base + slot]? = some v ∧ Visible A m.heap v := by
  obtain ⟨hlen, hv⟩ := Segment.plain_iff.1 hr.segment
  have hlt : slot < vs.reverse.length := by rw [List.length_reverse, hlen]; exact hs
  refine ⟨vs.reverse[slot], ?_, hv _ (List.mem_reverse.1 (List.getElem_mem hlt))⟩
  rw [hr.values, List.reverse_append, hr.current, hr.base, ← List.length_reverse,
    List.getElem?_append_right (Nat.le_add_right ..), Nat.add_sub_cancel_left,
    List.getElem?_eq_getElem hlt]

theorem continues_setLocal {slot : Nat} (hr : Running A W r f (plain n) vs rest m) (hs : slot < n)
    (hv : Visible A m.heap v) :
    Ends (onStack (Stack.set (m.current.base + slot) v)) m
      (fun _ => Continues A W r f (plain n) rest) (Stops A W) := by
  obtain ⟨hlen, hvs⟩ := Segment.plain_iff.1 hr.segment
  have hlt : m.current.base + slot < m.stack.values.length := by
    rw [hr.values, hr.current, hr.base, List.length_append]
    omega
  refine ends_setLocal hlt ⟨vs.set (n - 1 - slot) v, ?_⟩
  have hset : m.stack.values.set (m.stack.values.length - 1 - (m.current.base + slot)) v =
      vs.set (n - 1 - slot) v ++ rest := by
    rw [hr.values, hr.current, hr.base, List.length_append, hlen,
      show n + rest.length - 1 - (rest.length + slot) = n - 1 - slot by omega,
      List.set_append_left _ _ (by omega)]
  rw [hset]
  refine hr.put (Segment.plain_iff.2 ⟨by rw [List.length_set, hlen], fun u hu => ?_⟩)
  rcases List.mem_or_eq_of_mem_set hu with hu | rfl
  · exact hvs u hu
  · exact hv

theorem exists_cell {ix : UInt8} (hr : Running A W r f σ vs rest m)
    (hix : ix.toNat < r.code.cellNames.size) :
    ∃ i v, m.current.cells[ix.toNat]? = some i ∧ m.heap.cell? i = some v ∧ Visible A m.heap v := by
  have hlt : ix.toNat < f.cells.size := hr.runs.size ▸ hix
  obtain ⟨v, hv⟩ := hr.runs.cells _ (Array.getElem_mem hlt)
  exact ⟨_, v, by rw [hr.current, Array.getElem?_eq_getElem hlt], hv, hr.stored.cells _ v hv⟩

theorem exists_global {ix : UInt8} (hr : Running A W r f σ vs rest m)
    (hix : ix.toNat < W.globals.size) : ∃ x, m.globals.get? ix.toNat = some x :=
  ⟨_, Array.getElem?_eq_getElem (hr.since.globals_lt hix)⟩

/-! ## Instructions -/

theorem ends_seq {α : Type} {x : Run α} {P : Machine → Prop} {E : Fault → Machine → Prop}
    (h : Ends x m (fun _ => P) E) :
    Ends (do let _ ← x; pure none : Run (Option Value)) m (fun o m' => o = none ∧ P m') E :=
  ends_bind (h.mono (fun _ _ h => ends_pure ⟨rfl, h⟩) fun _ _ h => h)

theorem next_scopeExit {W : World} {c : Code} {pos : Nat} {l : UInt8} (hl : l.toNat ≤ n) :
    (Instr.scopeExit l).next W.heap c pos (plain (n + 1)) = plain (n - l.toNat + 1) := by
  rw [Instr.next, drop_plain, show n + 1 - (l.toNat + 1) = n - l.toNat by omega]
  rfl

theorem continues_scopeExit {pos : Nat} {l : UInt8} (hl : l.toNat ≤ n)
    (hr : Running A W r f (plain (n + 1)) vs rest m) :
    Ends (execute (.scopeExit l)) m
      (fun o m' => o = none ∧
        Continues A W r f ((Instr.scopeExit l).next W.heap r.code pos (plain (n + 1))) rest m')
      (Stops A W) := by
  rw [next_scopeExit hl]
  by_cases h0 : l = 0
  · subst h0
    exact ends_pure ⟨rfl, vs, hr⟩
  · rw [show n + 1 = n - l.toNat + (l.toNat + 1) by omega] at hr
    obtain ⟨us, ws, rfl, hlen, hu, hs⟩ := exists_top hr
    obtain ⟨v, us, rfl⟩ := List.exists_cons_of_length_eq_add_one hlen
    rw [List.length_cons, Nat.add_right_cancel_iff] at hlen
    have hvals : m.stack.values = v :: (us ++ (ws ++ rest)) := by
      rw [hr.values, List.cons_append, List.cons_append, List.append_assoc]
    simp only [execute, if_pos h0]
    refine ends_bind (ends_pop hvals (ends_bind (ends_drop rfl hlen.symm (ends_seq ?_))))
    exact continues_pushPlain (hr.put hs) (hu v List.mem_cons_self)

theorem exists_plain {t : Nat} (h : ∃ n, t ≤ n ∧ σ = plain n) : ∃ n, σ = plain (n + t) := by
  obtain ⟨n, ht, rfl⟩ := h
  exact ⟨n - t, by rw [Nat.sub_add_cancel ht]⟩

/-- What neither jumps nor calls changes the stack as its shape says. -/
theorem continues_execute {i : Instr} {pos : Nat} (hf : i.Fits A W r.code σ)
    (hj : i.address? = none) (hc : ∀ n, i ≠ .call n) (hr : Running A W r f σ vs rest m) :
    Ends (execute i) m
      (fun o m' => o = none ∧ Continues A W r f (i.next W.heap r.code pos σ) rest m') (Stops A W) := by
  have ho := hf.operand
  have ha := hf.awaits
  cases i with
  | halt | ret => exact ho.elim
  | jump t | jumpIfFalse t => cases hj
  | call n => exact absurd rfl (hc n)
  | const ix =>
    obtain ⟨v, hv, hadmits⟩ := ho
    refine ends_bind (ends_get (ends_bind (ends_codeAt hr.code? (ends_bind (ends_expect hv ?_)))))
    rw [Instr.next, Code.kind, hv, Option.getD_some]
    exact ends_seq (continues_push hr (hadmits.hasKind.later (fun _ h => h) hr.since))
  | add =>
    obtain ⟨n, rfl⟩ := exists_plain ha
    exact ends_seq (continues_add hr)
  | sub | mul | div =>
    obtain ⟨n, rfl⟩ := exists_plain ha
    exact ends_seq (continues_arithmetic _ _ hr)
  | cmp code =>
    obtain ⟨n, rfl⟩ := exists_plain ha
    obtain ⟨c, hcode⟩ := Option.isSome_iff_exists.1 ho
    simp only [execute, hcode]
    exact ends_seq (continues_compare c hr)
  | getGlobal ix =>
    obtain ⟨n, rfl⟩ := exists_plain ha
    obtain ⟨x, hx⟩ := exists_global hr ho
    refine ends_bind (ends_get (ends_bind (ends_expect hx ?_)))
    cases hv : x.value with
    | none => exact ends_bind (ends_throw (hr.stops trivial))
    | some v => exact ends_seq (continues_pushPlain hr (hr.stored.globals _ x v hx hv))
  | setGlobal ix =>
    obtain ⟨n, rfl⟩ := exists_plain ha
    obtain ⟨v, hv, hvis⟩ := exists_peek hr
    refine ends_bind (ends_peek hv (ends_bind (ends_get (ends_guard (fun hle => ?_) fun _ => ?_))))
    · exact absurd (hr.since.globals_lt ho) (Nat.not_lt.2 hle)
    · exact ends_seq (ends_modify ⟨vs, hr.setGlobal ix.toNat hvis⟩)
  | pop =>
    obtain ⟨n, rfl⟩ := exists_plain ha
    exact ends_seq ((continues_pop hr).mono (fun _ _ h => h.2) fun _ _ h => h)
  | getLocal slot =>
    obtain ⟨n, rfl⟩ := exists_plain ha
    have hlt : slot.toNat < n := by
      have := (List.getElem?_eq_some_iff.1 ho).1
      rwa [List.length_reverse, length_plain] at this
    obtain ⟨v, hv, hvis⟩ := exists_local hr hlt
    exact ends_bind (ends_get (ends_bind (ends_local hv (ends_seq (continues_pushPlain hr hvis)))))
  | setLocal slot =>
    obtain ⟨n, rfl⟩ := exists_plain ha
    have hlt : slot.toNat < n + 1 := by
      have := (List.getElem?_eq_some_iff.1 ho).1
      rwa [List.length_reverse, length_plain] at this
    obtain ⟨v, hv, hvis⟩ := exists_peek hr
    exact ends_bind (ends_peek hv (ends_bind (ends_get (ends_seq (continues_setLocal hr hlt hvis)))))
  | scopeExit l =>
    obtain ⟨n, rfl⟩ := exists_plain ha
    have hlt : l.toNat < (plain (n + 1)).length := ho
    rw [length_plain] at hlt
    exact continues_scopeExit (Nat.le_of_lt_succ hlt) hr
  | getCell ix =>
    obtain ⟨n, rfl⟩ := exists_plain ha
    obtain ⟨i, v, hi, hv, hvis⟩ := exists_cell hr ho
    exact ends_bind (ends_cellAt hi (ends_bind (ends_get (ends_bind (ends_expect hv
      (ends_seq (continues_pushPlain hr hvis)))))))
  | setCell ix =>
    obtain ⟨n, rfl⟩ := exists_plain ha
    obtain ⟨i, u, hi, hu, -⟩ := exists_cell hr ho
    obtain ⟨v, hv, hvis⟩ := exists_peek hr
    refine ends_bind (ends_cellAt hi (ends_bind (ends_peek hv (ends_bind (ends_get (ends_bind
      (ends_expect hu (ends_seq (ends_modify ⟨vs, ?_⟩)))))))))
    exact hr.setCell ⟨u, hu⟩ hvis
  | loadCell ix =>
    obtain ⟨i, v, hi, hv, -⟩ := exists_cell hr ho
    exact ends_bind (ends_cellAt hi (ends_seq (continues_push hr (.cell ⟨v, hv⟩))))
  | makeFunction l =>
    obtain ⟨n, rfl⟩ := ho
    have hnext : (Instr.makeFunction l).next W.heap r.code pos (.code l.toNat :: loaded l.toNat n) =
        plain (n + 1) := by
      rw [Instr.next, List.drop_succ_cons, loaded, List.drop_left' List.length_replicate, plain_succ]
    rw [hnext]
    exact ends_seq (continues_makeFunction hr)

/-! ## Steps -/

/-- The next instruction. -/
def instr? (m : Machine) : Option Instr :=
  (m.heap.code? m.current.code).bind fun c => (Instr.fetch c.bytes m.current.ip).toOption

/-- The current activation after the next instruction is fetched. -/
def past (m : Machine) (i : Instr) : Machine :=
  { m with current := { m.current with ip := m.current.ip + i.size } }

/-- The next instruction calls a function of the program. -/
def Calls (m : Machine) (argc : UInt8) : Prop :=
  m.instr? = some (.call argc) ∧ ∃ f, m.callee? argc.toNat = some f

/-- What a step does that does not end the run; `rest` are the values below those of the current
    activation. -/
inductive Moves (A : Handle → Prop) (W : World) (rest : List Value) (m m' : Machine) : Prop
  | stays (h : m'.SoundOn A W rest) (hc : ∀ argc, ¬ m.Calls argc) (hr : m.instr? ≠ some .ret)
  | enters {argc : UInt8} (hc : m.Calls argc) (h : Entered A W rest argc.toNat (m.past (.call argc)) m')
  | returns (hr : m.instr? = some .ret) (h : Returned A W rest m m')

theorem SoundOn.sound (h : m.SoundOn A W rest) : m.Sound A W := by
  obtain ⟨r, σ, vs, h⟩ := h
  exact ⟨r, σ, vs, rest, h⟩

theorem Continues.soundOn (h : Continues A W r f σ rest m) (hp : r.At W f.ip σ) :
    m.SoundOn A W rest := by
  obtain ⟨vs, hr⟩ := h
  have hf := hr.current
  subst hf
  exact ⟨r, σ, vs, hr, hp⟩

theorem Moves.sound (h : Moves A W rest m m') : m'.Sound A W := by
  cases h with
  | stays h => exact h.sound
  | enters _ h => exact h.sound.sound
  | returns _ h =>
    obtain ⟨vs, rest', -, h⟩ := h.sound
    exact h.sound

theorem instr?_eq {c : Code} {i : Instr} (hc : m.heap.code? m.current.code = some c)
    (hi : Instr.fetch c.bytes m.current.ip = .ok i) : m.instr? = some i := by
  rw [instr?, hc, Option.bind_some, hi]
  rfl

theorem fetch_of_instr? {i : Instr} (hi : m.instr? = some i) : fetch m = .ok i (m.past i) := by
  obtain ⟨c, hc, hf⟩ := Option.bind_eq_some_iff.1 hi
  have hm := fetch_eq hc
  cases hf' : Instr.fetch c.bytes m.current.ip with
  | error e => rw [hf'] at hf; cases hf
  | ok j =>
    rw [hf'] at hf hm
    cases hf
    exact hm

theorem step_of_instr? {i : Instr} (hi : m.instr? = some i) : step m = execute i (m.past i) := by
  change EStateM.bind fetch execute m = _
  rw [EStateM.bind, fetch_of_instr? hi]

/-- The next instruction fits what lies on the stack, and so does what comes after it; or it is the
    last one. -/
theorem SoundOn.next (h : m.SoundOn A W rest) :
    ∃ r σ vs i, Running A W r m.current σ vs rest m ∧ m.instr? = some i ∧
      (i = r.last ∧ σ = plain r.depth ∨
        i.Fits A W r.code σ ∧ (∀ t, i.address? = some t → r.At W t.toNat (i.taken σ)) ∧
          r.At W (m.current.ip + i.size) (i.next W.heap r.code m.current.ip σ)) := by
  obtain ⟨r, σ, vs, hr, pre, post, hbody, hip, hσ⟩ := h
  rw [Nat.zero_add] at hip
  have hs := hr.runs.sound
  have hbytes := hs.bytes
  cases post with
  | nil =>
    rw [List.append_nil] at hbody
    rw [hbody] at hbytes
    refine ⟨r, σ, vs, r.last, hr, instr?_eq hr.code? ?_, Or.inl ⟨rfl, ?_⟩⟩
    · rw [hbytes, hip, Instr.fetch_bytes]
    · rw [hσ, ← hbody, hs.balanced.scan]
  | cons i post =>
    rw [hbody, List.append_assoc, List.cons_append] at hbytes
    obtain ⟨hf, htaken⟩ := hs.balanced.typed pre i post hbody
    rw [← hσ] at hf htaken
    refine ⟨r, σ, vs, i, hr, instr?_eq hr.code? ?_, Or.inr ⟨hf, htaken, pre ++ [i], post, ?_, ?_, ?_⟩⟩
    · rw [hbytes, hip, Instr.fetch_bytes]
    · rw [hbody, List.append_assoc]
      rfl
    · rw [hip, Instr.total_append, Instr.total_cons, Instr.total_nil, Nat.zero_add, Nat.add_zero]
    · rw [scan_append, ← hσ, hip, Nat.zero_add]
      rfl

/-- A function returns to the activation that waits for it. -/
theorem ends_ret (hr : Running A W r f (plain 1) vs rest m) (hl : r.last = .ret) :
    Ends ret m (fun _ => Returned A W rest m) (Stops A W) := by
  have hw := hr.waiting
  obtain ⟨v, rfl⟩ := List.length_eq_one_iff.1 (Segment.plain_iff.1 hr.segment).1
  have hv := (Segment.plain_iff.1 hr.segment).2 v List.mem_cons_self
  rw [hl] at hw
  generalize hfs : m.callers.toList.reverse = fs at hw
  cases hw with
  | @caller _ g fs s us rest hg hip hu hb hw =>
    have hlist : m.callers.toList = fs.reverse ++ [g] := by
      rw [← List.reverse_reverse m.callers.toList, hfs, List.reverse_cons]
    have hcallers : m.callers = fs.reverse.toArray.push g := Array.toList_inj.1 (by simp [hlist])
    have hpop : m.callers.pop = fs.reverse.toArray := by rw [hcallers, Array.pop_push]
    refine ends_of_ok () { m with current := g, callers := m.callers.pop } ?_ ?_
    · rw [ret, Array.back?_eq_some_iff.2 ⟨_, hcallers⟩]
    · refine ⟨by rw [hpop]; exact hcallers, ⟨v, hr.values⟩, rfl, us, rest, rfl, s, _, v :: us,
        ⟨rfl, hr.since, hr.stored, hg, hr.values, ?_, hb, ?_⟩, hip⟩
      · exact Segment.plain_iff.2 ⟨rfl, List.forall_mem_cons.2 ⟨hv, hu⟩⟩
      · change Waiting A W m.heap s.last m.callers.pop.toList.reverse rest
        rw [hpop, List.reverse_reverse]
        exact hw

/-- The value of a run is one that programs see. -/
theorem ends_finish (hr : Running A W r f (plain 2) vs rest m) :
    Ends finish m (fun v m' => Visible A m'.heap v ∧ W.Leads m'.world ∧ m'.world.Stored A)
      (Stops A W) := by
  refine ends_bind (ends_height ?_)
  have hlen : 1 < m.stack.values.length := by
    rw [hr.values, List.length_append, (Segment.plain_iff.1 hr.segment).1]
    omega
  rw [if_pos hlen]
  exact (continues_pop hr).mono (fun _ _ ⟨hv, ws, h⟩ => ⟨hv, h.since, h.stored⟩) fun _ _ h => h

/-- A step that does not end the run has the property `P`; one that does ends it with a value that
    programs see. -/
def Keeps (A : Handle → Prop) (W : World) (P : Machine → Prop) (o : Option Value) (m : Machine) :
    Prop :=
  match o with
  | none => P m
  | some v => Visible A m.heap v ∧ W.Leads m.world ∧ m.world.Stored A

theorem keeps_last {P : Machine → Prop} (hr : Running A W r f (plain r.depth) vs rest m)
    (hP : r.last = .ret → ∀ m', Returned A W rest m m' → P m') :
    Ends (execute r.last) m (Keeps A W P) (Stops A W) := by
  rcases hr.runs.sound.last with ⟨hl, hd⟩ | ⟨hl, hd⟩
  · rw [hd] at hr
    rw [hl]
    exact ends_bind ((ends_ret hr hl).mono (fun _ m' h => ends_pure (hP hl m' h)) fun _ _ h => h)
  · rw [hd] at hr
    rw [hl]
    exact ends_map ((ends_finish hr).mono (fun _ _ h => h) fun _ _ h => h)

theorem keeps_goto {target : Nat} (hr : Running A W r f σ vs rest m) (hp : r.At W target σ) :
    Ends (goto target) m (fun _ => SoundOn A W rest) (Stops A W) :=
  ends_modify (Continues.soundOn ⟨vs, hr.moved target⟩ hp)

theorem keeps_jumpIfFalse {t : UInt16} (hr : Running A W r f (plain (n + 1)) vs rest m)
    (hnext : r.At W f.ip (plain n)) (htaken : r.At W t.toNat (plain n)) :
    Ends (execute (.jumpIfFalse t)) m (Keeps A W (SoundOn A W rest)) (Stops A W) := by
  refine ends_bind ((continues_pop hr).mono (fun v m' h => ?_) fun _ _ h => h)
  obtain ⟨hv, ws, hr⟩ := h
  cases v with
  | boolean b =>
    cases b with
    | true => exact ends_pure (Continues.soundOn ⟨ws, hr⟩ hnext)
    | false => exact ends_bind ((keeps_goto hr htaken).mono (fun _ _ h => ends_pure h) fun _ _ h => h)
  | _ => exact ends_bind (stops_typeFault hr hv)

/-- A step goes on in the current activation, calls, or returns; or else it ends the run with a
    value that programs see. -/
theorem step_moves (hW : W.Safe A) (h : m.SoundOn A W rest) :
    Ends step m (Keeps A W (Moves A W rest m)) (Stops A W) := by
  obtain ⟨r, σ, vs, i, hr, hi, ⟨rfl, rfl⟩ | ⟨hf, htaken, hnext⟩⟩ := h.next
  · have hmoved : Running A W r _ (plain r.depth) vs rest (m.past r.last) := hr.moved _
    rw [Ends, step_of_instr? hi]
    exact keeps_last hmoved fun hl m' h =>
      .returns (hl ▸ hi) ⟨h.callers, h.result, h.stack, h.sound⟩
  · have hmoved : Running A W r _ σ vs rest (m.past i) := hr.moved _
    have ha := hf.awaits
    have hret : i ≠ .ret := fun he => by rw [he] at hf; exact hf.operand
    have stays {m'} (h : SoundOn A W rest m') (hc : ∀ argc, i ≠ .call argc) : Moves A W rest m m' :=
      .stays h (fun argc hcall => hc argc (Option.some.inj (hi.symm.trans hcall.1)))
        fun he => hret (Option.some.inj (hi.symm.trans he))
    rw [Ends, step_of_instr? hi]
    cases i with
    | jump t =>
      exact ends_bind ((keeps_goto hmoved (htaken t rfl)).mono
        (fun _ _ h => ends_pure (stays h (by simp))) fun _ _ h => h)
    | jumpIfFalse t =>
      obtain ⟨n, rfl⟩ := exists_plain ha
      refine (keeps_jumpIfFalse hmoved hnext (htaken t rfl)).mono (fun o m' h => ?_) fun _ _ h => h
      cases o with
      | none => exact stays h (by simp)
      | some v => exact h
    | call l =>
      obtain ⟨n, rfl⟩ := exists_plain ha
      rw [next_call, drop_plain, takes_call, Nat.add_sub_cancel] at hnext
      refine ends_bind ((continues_call hW hmoved hnext).mono (fun _ m' h => ends_pure ?_)
        fun _ _ h => h)
      rcases h with ⟨hnone, h⟩ | ⟨hsome, h⟩
      · refine .stays (h.soundOn hnext) (fun argc hcall => ?_)
          fun he => hret (Option.some.inj (hi.symm.trans he))
        obtain ⟨he, g, hg⟩ := hcall
        cases hi.symm.trans he
        cases hnone.symm.trans hg
      · exact .enters ⟨hi, hsome⟩ h
    | _ =>
      exact (continues_execute hf rfl (by simp) hmoved).mono
        (fun o m' h => by obtain ⟨rfl, h⟩ := h; exact stays (h.soundOn hnext) (by simp)) fun _ _ h => h

/-- A step keeps the invariant, or ends the run with a value that programs see. -/
theorem step_sound (hW : W.Safe A) (h : m.Sound A W) :
    Ends step m (Keeps A W (Sound A W)) (Stops A W) := by
  obtain ⟨r, σ, vs, rest, hr⟩ := h
  have hm : m.SoundOn A W rest := ⟨r, σ, vs, hr⟩
  refine (step_moves hW hm).mono (fun o m' h => ?_) fun _ _ h => h
  cases o with
  | none => exact h.sound
  | some v => exact h

end Machine

end ByteLisp
