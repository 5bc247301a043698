/-
  ByteLisp: code does what the evaluation says.

  * `Task.Placed`: what has to be known of a part of a program apart from its code;
  * `Task.Runs`: a run of the code of a part follows its evaluation;
  * `Simulates`: so it does in each activation with the right cells for the blocks
    within the part; there is one lemma for each rule of `Coded`;
  * `Coded.simulates`: so it is for all code, if calls do what they should.
-/
import ByteLisp.Proofs.Meaning.Operators

namespace ByteLisp

open Machine

/-! ## Parts of a program -/

namespace Meaning

/-- Forms stand in a scope as the table says, and declare none of the names of the slots in view. -/
structure Placed (T : Scopes) (N : Float → Prop) (s : ScopeId) (v : View) (fs : List Form) : Prop where
  standing : Standing T s v (Form.collectAll Form.declares? s fs)
  forms : Form.AllScoped T s fs
  blocks : (Form.collectAll Form.block? s fs).Nodup
  numbers : ∀ x ∈ Form.collectAll Form.number? s fs, N x

/-- Some of the blocks in a list that are of the same function, with the places of their cells. -/
structure Opened (T : Scopes) (c : Code) (s : ScopeId) (scopes : List ScopeId)
    (bs : List (ScopeId × Nat)) : Prop where
  sub : (bs.map Prod.fst).Sublist scopes
  kind : ∀ p ∈ bs, (T.scope p.1).kind = .block
  home : ∀ p ∈ bs, T.home p.1 = T.home s
  own : ∀ p ∈ bs, ∀ (i : Nat) x, (T.scope p.1).cells[i]? = some x → c.own[p.2 + i]? = some x

end Meaning

open Meaning

/-- What has to be known of a part of a program. -/
def Task.Placed (T : Scopes) (N : Float → Prop) (s : ScopeId) (v : View) : Task → Prop
  | .form _ f _ => Meaning.Placed T N s v [f]
  | .body fs _ | .args fs | .drops fs => Meaning.Placed T N s v fs
  | .loop test fs => Meaning.Placed T N s v (test :: fs)
  | .closure name f params inner => Standing T s v [] ∧
    (∃ own, T.OpensFunction s ⟨name, own, f, params, inner⟩) ∧ inner.Scoped T f ∧
      (inner.collect Form.block? f).Nodup ∧ ∀ x ∈ inner.collect Form.number? f, N x
  | .finish _ inner => Meaning.Placed T N s v [inner]
  | .code _ _ _ => False

theorem Scopes.Opens.lt_size {T : Scopes} {kind : Scope.Kind} {b s : ScopeId} (h : T.Opens kind b s)
    (hk : kind ≠ .global) : b < T.size := by
  by_contra hle
  have := h.kind
  rw [Scopes.scope_of_le (Nat.le_of_not_lt hle)] at this
  exact hk this.symm

/-- The first instruction of a part of a code object. -/
theorem Code.Lies.head {c : Code} {pos : Nat} {i : Instr} {is : List Instr} (h : c.Lies pos (i :: is)) :
    c.Lies pos [i] :=
  Code.Lies.left (show c.Lies pos ([i] ++ is) from h)

namespace Meaning

/-! ## What code leaves -/

/-- What arguments leave: their values. -/
def Setting.Supplies (g : Setting) (T : Scopes) (W : World) (N : Float → Prop) (s : ScopeId) (v : View)
    (k pos : Nat) (S : Stage) (ls : List Value) (xs : List Val) (σ : Memory) (m : Machine) : Prop :=
  ∃ L ls' us, us.length = k ∧ g.Passes T W N s v S ls (v.push k) pos us L ls' σ m ∧
    List.Forall₂ (fun x u => x.Is T W N L m.heap u) xs us

/-- What forms leave whose values are dropped: nothing. -/
def Setting.Clears (g : Setting) (T : Scopes) (W : World) (N : Float → Prop) (s : ScopeId) (v : View)
    (pos : Nat) (S : Stage) (ls : List Value) (_ : Unit) (σ : Memory) (m : Machine) : Prop :=
  ∃ L ls', g.Passes T W N s v S ls v pos [] L ls' σ m

/-- What the body of a function leaves: its value alone. -/
def Setting.Returns (g : Setting) (T : Scopes) (W : World) (N : Float → Prop) (s : ScopeId) (pos : Nat)
    (S : Stage) (x : Val) (σ : Memory) (m : Machine) : Prop :=
  ∃ L u, Linked T W N ⟨L, σ, m.world⟩ ∧ Grown T (· = g.env (T.home s)) S ⟨L, σ, m.world⟩ ∧
    m.At g pos [u] ∧ x.Is T W N L m.heap u

/-- From a place of the code, a run does what the evaluation says. -/
def Setting.Does (g : Setting) (T : Scopes) (W : World) (N : Float → Prop) (n : Nat) (s : ScopeId)
    (v : View) (pos : Nat) {α : Type} (e : Eval α)
    (Q : Stage → List Value → α → Memory → Machine → Prop) : Prop :=
  ∀ L σ ls m, Situated T W N g s v pos L σ ls m →
    m.Follows n (Q ⟨L, σ, m.world⟩ ls) (Halted T W N) (e σ)

/-- Evaluates forms for their effects. -/
def evalDrops (T : Scopes) (call : Val → List Val → Eval Val) (rounds : Nat) (env : Env) (s : ScopeId) :
    List Form → Eval Unit
  | [] => pure ()
  | form :: rest => do
    let _ ← eval T call rounds env s form
    evalDrops T call rounds env s rest

end Meaning

/-- A run of the code of a part of a program does what the evaluation says. -/
def Task.Runs (T : Scopes) (W : World) (N : Float → Prop) (n : Nat) (g : Setting) (s : ScopeId) (v : View)
    (pos : Nat) (code : List Instr) : Task → Prop
  | .form _ f o => g.Does T W N n s v pos (eval T (call T n) n g.env s f) fun S ls =>
      g.Leaves T W N s v S ls (pos + Instr.total code) o
  | .body fs k => g.Does T W N n s v pos (evalBody T (call T n) n g.env s fs) fun S ls =>
      g.Yields T W N s v S ls k (pos + Instr.total code)
  | .args fs => g.Does T W N n s v pos (evalArgs T (call T n) n g.env s fs)
      (g.Supplies T W N s v fs.length (pos + Instr.total code))
  | .drops fs => g.Does T W N n s v pos (evalDrops T (call T n) n g.env s fs)
      (g.Clears T W N s v (pos + Instr.total code))
  | .loop test fs => g.Does T W N n s v pos
      (Meaning.loop (do truth (← eval T (call T n) n g.env s test)) (evalDrops T (call T n) n g.env s fs) n)
      fun S ls => g.Leaves T W N s v S ls (pos + Instr.total code) .value
  | .closure name f params inner => ∀ own, T.OpensFunction s ⟨name, own, f, params, inner⟩ →
      g.Does T W N n s v pos (pure (.closure ⟨name, own, f, params, inner⟩ g.env)) fun S ls =>
        g.Leaves T W N s v S ls (pos + Instr.total code) .value
  | .finish k inner => v.depth = k + 1 →
      g.Does T W N n s v pos (eval T (call T n) n g.env s inner) fun S _ =>
        g.Returns T W N s (pos + Instr.total code) S
  | .code _ _ _ => True

namespace Meaning

/-- Calls do what the evaluation says. -/
def CallsFollow (T : Scopes) (W : World) (N : Float → Prop) (n : Nat) : Prop :=
  ∀ (g : Setting) (pos : Nat) (argc : UInt8) (ls : List Value) (u : Value) (us : List Value) (L : Link)
    (σ : Memory) (m : Machine) (f : Val) (xs : List Val), m.At g pos (ls ++ u :: us) →
    m.instr? = some (.call argc) → argc.toNat = us.length → Linked T W N ⟨L, σ, m.world⟩ →
    f.Is T W N L m.heap u → List.Forall₂ (fun x u => x.Is T W N L m.heap u) xs us →
    m.Follows n (g.Answers T W N ⟨L, σ, m.world⟩ ls (pos + 2)) (Halted T W N) (call T n f xs σ)

/-- The code of a part of a program does what the evaluation says, in each activation with the right
    cells for the blocks within the part. -/
def Simulates (T : Scopes) (W : World) (N : Float → Prop) (n : Nat) (c : Code) (s : ScopeId) (task : Task)
    (v : View) (pos : Nat) (code : List Instr) : Prop :=
  c.Lies pos code → task.Placed T N s v → ∃ bs, Opened T c s (task.collect Form.block? s) bs ∧
    ∀ g : Setting, g.code = c → (∀ p ∈ bs, p ∈ g.blocks) → task.Runs T W N n g s v pos code

section

variable {T : Scopes} {W : World} {N : Float → Prop} {g : Setting} {c : Code} {s b : ScopeId}
  {v u : View} {pos n k : Nat} {fs gs : List Form} {bs bs₁ bs₂ : List (ScopeId × Nat)}
  {direct : Bool} {ix : UInt8} {code : List Instr}

theorem Placed.part (h : Placed T N s v fs) (hf : Form.AllScoped T s gs)
    (hsub : ∀ {α : Type} (find : ScopeId → Form → List α),
      (Form.collectAll find s gs).Sublist (Form.collectAll find s fs)) : Placed T N s v gs where
  standing := h.standing.sublist (hsub _)
  forms := hf
  blocks := h.blocks.sublist (hsub _)
  numbers x hx := h.numbers x ((hsub _).mem hx)

theorem Placed.push (h : Placed T N s v fs) (n : Nat) : Placed T N s (v.push n) fs :=
  ⟨h.standing.push n, h.forms, h.blocks, h.numbers⟩

variable {xs ys : List ScopeId}

theorem opened_nil : Opened T c s xs [] := ⟨List.nil_sublist _, nofun, nofun, nofun⟩

theorem Opened.mono (h : Opened T c s xs bs) (hs : xs.Sublist ys) : Opened T c s ys bs :=
  ⟨h.sub.trans hs, h.kind, h.home, h.own⟩

theorem Opened.append (h₁ : Opened T c s xs bs₁) (h₂ : Opened T c s ys bs₂) :
    Opened T c s (xs ++ ys) (bs₁ ++ bs₂) where
  sub := by
    rw [List.map_append]
    exact h₁.sub.append h₂.sub
  kind p hp := (List.mem_append.1 hp).elim (h₁.kind p) (h₂.kind p)
  home p hp := (List.mem_append.1 hp).elim (h₁.home p) (h₂.home p)
  own p hp := (List.mem_append.1 hp).elim (h₁.own p) (h₂.own p)

/-! ## Constants and variables -/

theorem simulates_number {x : Float} (hN : Numbered W N) (hh : Holds W c ix (.number x)) :
    Simulates T W N n c s (.form direct (.number x) .value) v pos [.const ix] := by
  intro hl hp
  refine ⟨[], opened_nil, ?_⟩
  rintro g rfl - L σ ls m h
  rw [eval]
  exact h.follows_const hp.standing hl
    (holds_number hN (hp.numbers x List.mem_cons_self) h.code hh) (.number x)

theorem simulates_string {text : String} {i : Handle} (ht : W.heap.string? i = some text)
    (hh : Holds W c ix (.object i)) :
    Simulates T W N n c s (.form direct (.string text) .value) v pos [.const ix] := by
  intro hl hp
  refine ⟨[], opened_nil, ?_⟩
  rintro g rfl - L σ ls m h
  obtain ⟨j, hj, hs⟩ := hh.string ht
  rw [eval]
  exact h.follows_const hp.standing hl hj
    (.string (h.linked.leads.objects _ _ (Heap.string?_eq_some.1 hs) nofun))

theorem simulates_boolean {q : Bool} (hh : Holds W c ix (.boolean q)) :
    Simulates T W N n c s (.form direct (.boolean q) .value) v pos [.const ix] := by
  intro hl hp
  refine ⟨[], opened_nil, ?_⟩
  rintro g rfl - L σ ls m h
  rw [eval]
  exact h.follows_const hp.standing hl hh.boolean (.boolean q)

theorem simulates_reference {name : String} {binding : Binding} {place : Place} (hT : T.Once)
    (hlocated : Located T W s v name binding place) :
    Simulates T W N n c s (.form direct (.reference name binding) .value) v pos [place.get] := by
  intro hl hp
  refine ⟨[], opened_nil, ?_⟩
  rintro g rfl - L σ ls m h
  rw [eval]
  have h' := h.follows_get (n := n) hp.standing (h.finds hT hp.forms.1 hlocated) hl
  cases place <;> exact h'

theorem simulates_declare {name : String} {init : Form} {o : Outcome} {store : List Instr}
    (h₁ : Simulates T W N n c s (.form false init .value) v pos code)
    (hd : Declares T W s v name direct o store) :
    Simulates T W N n c s (.form direct (.declare name init) o) v pos (code ++ store) := by
  intro hl hp
  obtain ⟨hname, hinit⟩ := hp.forms.1
  obtain ⟨bs, ho, h₁⟩ := h₁ hl.left (hp.part ⟨hinit, trivial⟩ fun find => by
    simp [Form.collectAll, Form.collect])
  refine ⟨bs, ho.mono (by simp [Task.collect, Form.collect]), ?_⟩
  rintro g rfl hbs L σ ls m h
  rw [eval]
  refine (h₁ g rfl hbs L σ ls m h).bind ?_
  rintro x σ₁ m₁ ⟨L₁, ls₁, a, p₁, hx⟩
  refine (p₁.situated.follows_declares hp.standing hname hd hl.right hx).mono fun y σ₂ m₂ hy => ?_
  rw [Instr.total_append, ← Nat.add_assoc]
  exact p₁.leaves hy

theorem simulates_assign {name : String} {binding : Binding} {value : Form} {place : Place} (hT : T.Once)
    (h₁ : Simulates T W N n c s (.form false value .value) v pos code)
    (hlocated : Located T W s (v.push 1) name binding place) :
    Simulates T W N n c s (.form direct (.assign name binding value) .value) v pos
      (code ++ [place.set]) := by
  intro hl hp
  obtain ⟨hname, hvalue⟩ := hp.forms.1
  obtain ⟨bs, ho, h₁⟩ := h₁ hl.left (hp.part ⟨hvalue, trivial⟩ fun find => by
    simp [Form.collectAll, Form.collect])
  refine ⟨bs, ho.mono (by simp [Task.collect, Form.collect]), ?_⟩
  rintro g rfl hbs L σ ls m h
  rw [eval]
  refine (h₁ g rfl hbs L σ ls m h).bind ?_
  rintro x σ₁ m₁ ⟨L₁, ls₁, a, p₁, hx⟩
  refine (p₁.situated.follows_set hp.standing (p₁.situated.finds hT hname hlocated) hl.right hx).bind ?_
  rintro - σ₂ m₂ ⟨L₂, ls₂, p₂⟩
  refine follows_pure ?_
  have htotal : pos + Instr.total code + 2 = pos + Instr.total (code ++ [place.set]) := by
    rw [Instr.total_append, ← Nat.add_assoc]
    cases place <;> rfl
  rw [← htotal]
  exact p₁.leaves ⟨L₂, ls₂, a, p₂, p₂.grown.is hx⟩

theorem simulates_operation {op : Operator} {x y : Form} {first second : List Instr}
    (h₁ : Simulates T W N n c s (.form false x .value) v pos first)
    (h₂ : Simulates T W N n c s (.form false y .value) (v.push 1) (pos + Instr.total first) second) :
    Simulates T W N n c s (.form direct (.operation op x y) .value) v pos
      (first ++ second ++ [Emit.operator op]) := by
  intro hl hp
  obtain ⟨hx, hy⟩ := hp.forms.1
  obtain ⟨bs₁, ho₁, h₁⟩ := h₁ hl.left.left (hp.part ⟨hx, trivial⟩ fun find => by
    simp [Form.collectAll, Form.collect])
  have second : Placed T N s v [y] := hp.part ⟨hy, trivial⟩ fun find => by
    simp [Form.collectAll, Form.collect]
  obtain ⟨bs₂, ho₂, h₂⟩ := h₂ hl.left.right (second.push 1)
  refine ⟨bs₁ ++ bs₂, (ho₁.append ho₂).mono (by simp [Task.collect, Form.collect]), ?_⟩
  rintro g rfl hbs L σ ls m h
  rw [List.forall_mem_append] at hbs
  rw [eval]
  refine (h₁ g rfl hbs.1 L σ ls m h).bind ?_
  rintro a σ₁ m₁ ⟨L₁, ls₁, p, p₁, ha⟩
  refine (h₂ g rfl hbs.2 L₁ σ₁ _ m₁ p₁.situated).bind ?_
  rintro b σ₂ m₂ ⟨L₂, ls₂, q, p₂, hb⟩
  obtain ⟨ls₂, rfl, both⟩ := p₂.absorb hp.standing (p₁.length rfl)
  have hz := both.situated.follows_operator (n := n) (p₂.grown.is ha) hb hp.standing op
    (by rw [Nat.add_assoc, ← Instr.total_append]; exact hl.right)
  refine hz.mono fun z σ₃ m₃ hz => ?_
  have hz := p₁.leaves (both.leaves hz)
  rw [Instr.total_append, Instr.total_append, ← Nat.add_assoc, ← Nat.add_assoc]
  exact hz

/-! ## Choices -/

/-- The value stays on top. -/
theorem Setting.Leaves.follows_jump {S : Stage} {ls : List Value} {x : Val} {σ : Memory} {m : Machine}
    {t : UInt16} (h : g.Leaves T W N s v S ls pos .value x σ m) (hl : g.code.Lies pos [.jump t]) :
    m.Follows n (g.Leaves T W N s v S ls t.toNat .value) (Halted T W N) (.ok x σ) := by
  obtain ⟨L, ls', a, hp, hx⟩ := h
  obtain ⟨m', hs, hw, h⟩ := hp.situated.step_jump hl
  exact Or.inr ⟨m', reaches_step hs, L, ls', a, ⟨h, hw ▸ hp.grown, hp.kept⟩, hx.same hw⟩

theorem simulates_ifElse {test thn els : Form} {asked consequent alternate : List Instr}
    {otherwise done : UInt16} (h₁ : Simulates T W N n c s (.form false test .value) v pos asked)
    (h₂ : Simulates T W N n c s (.form false thn .value) v (pos + Instr.total asked + 3) consequent)
    (ho : otherwise.toNat = pos + Instr.total asked + 3 + Instr.total consequent + 3)
    (h₃ : Simulates T W N n c s (.form false els .value) v otherwise.toNat alternate)
    (hd : done.toNat = otherwise.toNat + Instr.total alternate) :
    Simulates T W N n c s (.form direct (.ifElse test thn els) .value) v pos
      (asked ++ .jumpIfFalse otherwise :: consequent ++ .jump done :: alternate) := by
  intro hl hp
  obtain ⟨htest, hthn, hels⟩ := hp.forms.1
  have hsize : (Instr.jumpIfFalse otherwise).size = 3 := rfl
  have hsize' : (Instr.jump done).size = 3 := rfl
  have hmiddle : pos + Instr.total (asked ++ .jumpIfFalse otherwise :: consequent) =
      pos + Instr.total asked + 3 + Instr.total consequent := by
    rw [Instr.total_append, Instr.total_cons, hsize]
    omega
  have hend : done.toNat = pos +
      Instr.total (asked ++ .jumpIfFalse otherwise :: consequent ++ .jump done :: alternate) := by
    rw [Instr.total_append, Instr.total_cons, hsize', hd, ho]
    omega
  have hjump : c.Lies (pos + Instr.total asked + 3 + Instr.total consequent) (.jump done :: alternate) :=
    hmiddle ▸ hl.right
  obtain ⟨bs₁, ho₁, h₁⟩ := h₁ hl.left.left (hp.part ⟨htest, trivial⟩ fun find => by
    simp [Form.collectAll, Form.collect])
  obtain ⟨bs₂, ho₂, h₂⟩ := h₂ hl.left.right.tail (hp.part ⟨hthn, trivial⟩ fun find => by
    simp [Form.collectAll, Form.collect])
  obtain ⟨bs₃, ho₃, h₃⟩ := h₃ (ho ▸ hjump.tail) (hp.part ⟨hels, trivial⟩ fun find => by
    simpa only [Form.collectAll, Form.collect, List.append_nil] using
      (List.sublist_append_right _ _).trans (List.sublist_append_left _ _))
  refine ⟨bs₁ ++ bs₂ ++ bs₃, ((ho₁.append ho₂).append ho₃).mono (by simp [Task.collect, Form.collect]), ?_⟩
  rintro g rfl hbs L σ ls m h
  rw [List.forall_mem_append, List.forall_mem_append] at hbs
  rw [eval]
  refine (h₁ g rfl hbs.1.1 L σ ls m h).bind ?_
  rintro a σ₁ m₁ ⟨L₁, ls₁, p, p₁, ha⟩
  refine Follows.anti (p₁.situated.follows_truth hp.standing ha hl.left.right.head
    fun q m₂ hs hw => ?_) (Nat.le_succ n)
  have chosen : g.Passes T W N s v ⟨L, σ, m.world⟩ ls v (if q then _ else _) [] L₁ ls₁ σ₁ m₂ :=
    ⟨by rwa [List.append_nil], hw ▸ p₁.grown, p₁.kept⟩
  rw [← hend]
  cases q with
  | true =>
    exact (h₂ g rfl hbs.1.2 L₁ σ₁ ls₁ m₂ hs).further fun x σ₂ m₃ hx =>
      (chosen.leaves hx).follows_jump hjump.head
  | false =>
    rw [hd]
    exact (h₃ g rfl hbs.2 L₁ σ₁ ls₁ m₂ hs).mono fun x σ₂ m₃ hx => chosen.leaves hx

theorem simulates_ifThen {test thn : Form}
    (h₁ : Simulates T W N n c s (.form direct (.ifElse test thn (.boolean false)) .value) v pos code) :
    Simulates T W N n c s (.form direct (.ifThen test thn) .value) v pos code := by
  intro hl hp
  have whole : Placed T N s v [.ifElse test thn (.boolean false)] :=
    ⟨by simpa [Form.collectAll, Form.collect, Form.declares?] using hp.standing,
      ⟨⟨hp.forms.1.1, hp.forms.1.2, trivial⟩, trivial⟩,
      by simpa [Form.collectAll, Form.collect, Form.block?] using hp.blocks,
      by simpa [Form.collectAll, Form.collect, Form.number?] using hp.numbers⟩
  obtain ⟨bs, ho, h₁⟩ := h₁ hl whole
  refine ⟨bs, ho.mono (by simp [Task.collect, Form.collect, Form.block?]), fun g hg hbs L σ ls m h => ?_⟩
  have heval : eval T (call T n) n g.env s (.ifThen test thn) =
      eval T (call T n) n g.env s (.ifElse test thn (.boolean false)) := by
    simp only [eval]
  rw [heval]
  exact h₁ g hg hbs L σ ls m h

/-! ## Blocks -/

theorem Setting.Passes.leave {p : Nat} {S : Stage} {L : Link} {σ : Memory} {ls ls' us : List Value}
    {m : Machine} {names : List String} {i : Nat}
    (h : g.Passes T W N b (v.enter i names) S ls ((v.enter i names).push k) p us L ls' σ m)
    (hT : T.Once) (hb : T.Opens .block b s) (hn : ∀ x ∈ names, x ∈ (T.scope b).declared) :
    g.Passes T W N s v S ls (v.push k) p us L ls' σ m :=
  ⟨h.situated.leave hT hb (hb.lt_size nofun) hn, hb.home_block ▸ h.grown,
    h.kept.of_slots (View.slots_enter ..)⟩

/-- The code of the forms of a block leaves their variables below the value. -/
theorem Simulates.inside (h₁ : Simulates T W N n c b (.body fs k) u pos code) (hT : T.Once)
    (hE : Enters T c b v u) (hl : c.Lies pos code) (hp : Placed T N s v [.block b fs]) :
    ∃ bs, Opened T c s (Form.collect Form.block? s (.block b fs)) bs ∧
      ∀ g : Setting, g.code = c → (∀ p ∈ bs, p ∈ g.blocks) →
        g.Does T W N n s v pos (eval T (call T n) n g.env s (.block b fs)) fun S ls =>
          g.Yields T W N s v S ls k (pos + Instr.total code) := by
  obtain ⟨hb, hfs⟩ := hp.forms.1
  have hlt := hb.lt_size nofun
  cases hE with | @mk k₀ _ hown =>
  rw [Scopes.blockCells, if_pos hb.kind] at h₁ hown
  have sub {α : Type} (find : ScopeId → Form → List α) :
      (Form.collectAll find b fs).Sublist (Form.collectAll find s [.block b fs]) := by
    simp [Form.collectAll, Form.collect]
  obtain ⟨bs, ho, h₁⟩ := h₁ hl ⟨(hp.standing.sublist (sub _)).enter hb hlt _ _, hfs,
    hp.blocks.sublist (sub _), fun x hx => hp.numbers x ((sub _).mem hx)⟩
  refine ⟨bs ++ [(b, k₀)], ⟨?_, ?_, ?_, ?_⟩, ?_⟩
  · simpa [Task.collect, Form.collect, Form.block?] using ho.sub
  · simpa [or_imp, forall_and, hb.kind] using ho.kind
  · simpa [or_imp, forall_and, hb.home_block] using ho.home
  · simpa [or_imp, forall_and] using ⟨fun b k => ho.own (b, k), hown⟩
  rintro g rfl hbs L σ ls m h
  rw [List.forall_mem_append, List.forall_mem_singleton] at hbs
  rw [eval]
  refine (h₁ g rfl hbs.1 L σ ls m (h.enter hp.standing hT hb hlt hbs.2)).mono ?_
  rintro x σ₁ m₁ ⟨L₁, ls₁, us, a, hk, p₁, hx⟩
  exact ⟨L₁, ls₁, us, a, hk, p₁.leave hT hb fun x hx => hT.cells hx, hx⟩

theorem simulates_block {exit : List Instr} (hT : T.Once) (hE : Enters T c b v u)
    (h₁ : Simulates T W N n c b (.body fs k) u pos code) (hexit : Exits k exit) :
    Simulates T W N n c s (.form direct (.block b fs) .value) v pos (code ++ exit) := by
  intro hl hp
  obtain ⟨bs, ho, h₁⟩ := h₁.inside hT hE hl.left hp
  refine ⟨bs, ho, ?_⟩
  rintro g rfl hbs L σ ls m h
  refine (h₁ g rfl hbs L σ ls m h).further ?_
  rintro x σ₁ m₁ ⟨L₁, ls₁, us, a, hk, p₁, hx⟩
  rw [Instr.total_append, ← Nat.add_assoc]
  exact (p₁.situated.follows_exit hp.standing hk hx hexit hl.right).mono
    fun x σ₂ m₂ hx => p₁.leaves hx

/-! ## The forms of a block -/

theorem simulates_empty (h₁ : Simulates T W N n c s (.form false (.boolean false) .value) v pos code) :
    Simulates T W N n c s (.body [] 0) v pos code := by
  intro hl hp
  obtain ⟨bs, ho, h₁⟩ := h₁ hl ⟨hp.standing, ⟨trivial, trivial⟩, hp.blocks, hp.numbers⟩
  refine ⟨bs, ho, fun g hg hbs L σ ls m h => ?_⟩
  have h' := h₁ g hg hbs L σ ls m h
  rw [eval] at h'
  rw [evalBody]
  refine h'.mono ?_
  rintro x σ' m' ⟨L', ls', a, hp, hx⟩
  exact ⟨L', ls', [], a, rfl, hp, hx⟩

/-- A form that leaves a slot declares it. -/
def Declared (T : Scopes) (s : ScopeId) (f : Form) (o : Outcome) : Prop :=
  f.Scoped T s → ∀ name ix, o = .slot name ix →
    name ∈ f.collect Form.declares? s ∧ name ∈ (T.scope s).declared

theorem simulates_last {f : Form} {o : Outcome} (hd : Declared T s f o)
    (h₁ : Simulates T W N n c s (.form true f o) v pos code) :
    Simulates T W N n c s (.body [f] o.locals) v pos (code ++ o.leave) := by
  intro hl hp
  obtain ⟨bs, ho, h₁⟩ := h₁ hl.left hp
  refine ⟨bs, ho.mono (by simp [Task.collect, Form.collectAll]), ?_⟩
  rintro g rfl hbs L σ ls m h
  rw [evalBody, Instr.total_append, ← Nat.add_assoc]
  refine (h₁ g rfl hbs L σ ls m h).further fun x σ₁ m₁ hx => hx.follows_leave hp.standing
    (fun name ix he => ?_) hl.right
  exact (hd hp.forms.1 name ix he).imp_left fun h => by simpa [Form.collectAll] using h

/-- Forms after one whose value is dropped, unless it is a variable. -/
theorem Placed.after {f : Form} {o : Outcome} (h : Placed T N s v (f :: fs)) (hd : Declared T s f o) :
    Placed T N s (v.kept o) fs := by
  have sub {α : Type} (find : ScopeId → Form → List α) :
      (Form.collectAll find s fs).Sublist (Form.collectAll find s (f :: fs)) :=
    List.sublist_append_right _ _
  refine ⟨?_, h.forms.2, h.blocks.sublist (sub _), fun x hx => h.numbers x ((sub _).mem hx)⟩
  cases o with
  | slot name ix =>
    obtain ⟨hn, hds⟩ := hd h.forms.1 name ix rfl
    exact h.standing.bind hn hds
  | value | cell name ix => exact h.standing.sublist (sub _)

theorem simulates_next {f f' : Form} {o : Outcome} {rest : List Instr} (hd : Declared T s f o)
    (h₁ : Simulates T W N n c s (.form true f o) v pos code)
    (h₂ : Simulates T W N n c s (.body (f' :: fs) k) (v.kept o) (pos + Instr.total (code ++ o.drop)) rest) :
    Simulates T W N n c s (.body (f :: f' :: fs) (o.locals + k)) v pos (code ++ o.drop ++ rest) := by
  intro hl hp
  have first : Placed T N s v [f] := hp.part ⟨hp.forms.1, trivial⟩ fun find => by
    simp [Form.collectAll]
  have declared (name ix) (he : o = .slot name ix) :
      name ∈ Form.collectAll Form.declares? s (f :: f' :: fs) :=
    List.mem_append_left _ (hd hp.forms.1 name ix he).1
  obtain ⟨bs₁, ho₁, h₁⟩ := h₁ hl.left.left first
  obtain ⟨bs₂, ho₂, h₂⟩ := h₂ hl.right (hp.after hd)
  refine ⟨bs₁ ++ bs₂, (ho₁.append ho₂).mono (by simp [Task.collect, Form.collectAll]), ?_⟩
  rintro g rfl hbs L σ ls m h
  rw [List.forall_mem_append] at hbs
  rw [evalBody]
  refine (h₁ g rfl hbs.1 L σ ls m h).bind fun x σ₁ m₁ hx => ?_
  obtain ⟨m₂, hr, L₁, ls₁, us, hus, p₁⟩ := hx.follows_drop hp.standing hl.left.right
  have hlen : ls₁.length = v.depth := p₁.length_kept hus
  have hs := p₁.situated
  rw [Nat.add_assoc, ← Instr.total_append] at hs
  refine Follows.of_reaches (Follows.mono (h₂ g rfl hbs.2 L₁ σ₁ _ m₂ hs) fun y σ₂ m₃ hy => ?_) hr
  obtain ⟨L₂, ls₂, ws, b, hws, p₂, hy⟩ := hy
  obtain ⟨ls₃, us₁, hus₁, p₃⟩ := p₂.unbind rfl hp.standing declared hus hlen
  refine ⟨L₂, ls₃, us₁ ++ ws, b, by rw [List.length_append, hus₁, hws], ?_, hy⟩
  rw [List.append_assoc us₁, Nat.add_assoc o.locals, Instr.total_append, ← Nat.add_assoc pos]
  exact p₁.trans p₃ rfl

/-! ## Arguments and calls -/

theorem simulates_noArgs : Simulates T W N n c s (.args []) v pos [] := by
  intro hl hp
  refine ⟨[], opened_nil, fun g hg hbs L σ ls m h => ?_⟩
  rw [evalArgs]
  exact follows_pure ⟨L, ls, [], rfl, ⟨by rwa [List.append_nil], .refl .., .refl v ls⟩, .nil⟩

theorem simulates_args {f : Form} {rest : List Instr}
    (h₁ : Simulates T W N n c s (.form false f .value) v pos code)
    (h₂ : Simulates T W N n c s (.args fs) (v.push 1) (pos + Instr.total code) rest) :
    Simulates T W N n c s (.args (f :: fs)) v pos (code ++ rest) := by
  intro hl hp
  have others : Placed T N s v fs := hp.part hp.forms.2 fun find => by simp [Form.collectAll]
  obtain ⟨bs₁, ho₁, h₁⟩ := h₁ hl.left (hp.part ⟨hp.forms.1, trivial⟩ fun find => by
    simp [Form.collectAll])
  obtain ⟨bs₂, ho₂, h₂⟩ := h₂ hl.right (others.push 1)
  refine ⟨bs₁ ++ bs₂, (ho₁.append ho₂).mono (by simp [Task.collect, Form.collectAll]), ?_⟩
  rintro g rfl hbs L σ ls m h
  rw [List.forall_mem_append] at hbs
  rw [evalArgs]
  refine (h₁ g rfl hbs.1 L σ ls m h).bind ?_
  rintro x σ₁ m₁ ⟨L₁, ls₁, a, p₁, hx⟩
  refine (h₂ g rfl hbs.2 L₁ σ₁ _ m₁ p₁.situated).bind ?_
  rintro xs σ₂ m₂ ⟨L₂, ls₂, us, hus, p₂, hxs⟩
  obtain ⟨ls₂, rfl, both⟩ := p₂.absorb hp.standing (p₁.length rfl)
  refine follows_pure ⟨L₂, ls₂, [a] ++ us, ?_, ?_, .cons (p₂.grown.is hx) hxs⟩
  · rw [List.length_append, hus, Nat.add_comm]
    rfl
  · rw [Instr.total_append, ← Nat.add_assoc, List.length_cons, Nat.add_comm fs.length,
      ← View.push_push]
    exact p₁.trans both rfl

theorem simulates_call {callee : Form} {args : List Form} {function arguments : List Instr}
    {argc : UInt8} (hcalls : CallsFollow T W N n)
    (h₁ : Simulates T W N n c s (.form false callee .value) v pos function)
    (h₂ : Simulates T W N n c s (.args args) (v.push 1) (pos + Instr.total function) arguments)
    (hargc : argc.toNat = args.length) :
    Simulates T W N n c s (.form direct (.call callee args) .value) v pos
      (function ++ arguments ++ [.call argc]) := by
  intro hl hp
  have others : Placed T N s v args := hp.part hp.forms.1.2 fun find => by
    simp [Form.collectAll, Form.collect]
  obtain ⟨bs₁, ho₁, h₁⟩ := h₁ hl.left.left (hp.part ⟨hp.forms.1.1, trivial⟩ fun find => by
    simp [Form.collectAll, Form.collect])
  obtain ⟨bs₂, ho₂, h₂⟩ := h₂ hl.left.right (others.push 1)
  refine ⟨bs₁ ++ bs₂, (ho₁.append ho₂).mono (by simp [Task.collect, Form.collect]), ?_⟩
  rintro g rfl hbs L σ ls m h
  rw [List.forall_mem_append] at hbs
  rw [eval]
  refine (h₁ g rfl hbs.1 L σ ls m h).bind ?_
  rintro f σ₁ m₁ ⟨L₁, ls₁, a, p₁, hf⟩
  refine (h₂ g rfl hbs.2 L₁ σ₁ _ m₁ p₁.situated).bind ?_
  rintro xs σ₂ m₂ ⟨L₂, ls₂, us, hus, p₂, hxs⟩
  obtain ⟨ls₂, rfl, both⟩ := p₂.absorb hp.standing (p₁.length rfl)
  have hs := both.situated
  rw [View.push_push] at hs
  have hlast : g.code.Lies (pos + Instr.total function + Instr.total arguments) [.call argc] := by
    rw [Nat.add_assoc, ← Instr.total_append]
    exact hl.right
  have called := hcalls g _ argc ls₂ a us L₂ σ₂ m₂ f xs hs.place (hs.instr? hlast) (hargc.trans hus.symm)
    hs.linked (p₂.grown.is hf) hxs
  refine called.mono fun z σ₃ m₃ hz => ?_
  rw [Instr.total_append, Instr.total_append, ← Nat.add_assoc, ← Nat.add_assoc]
  exact p₁.leaves (both.leaves (hs.leaves hp.standing (by simp [hus, Nat.add_comm]) hz))

/-! ## Loops -/

theorem simulates_noDrops : Simulates T W N n c s (.drops []) v pos [] := by
  intro hl hp
  refine ⟨[], opened_nil, fun g hg hbs L σ ls m h => ?_⟩
  rw [evalDrops]
  exact follows_pure ⟨L, ls, ⟨by rwa [List.append_nil], .refl .., .refl v ls⟩⟩

theorem simulates_drops {f : Form} {rest : List Instr}
    (h₁ : Simulates T W N n c s (.form false f .value) v pos code)
    (h₂ : Simulates T W N n c s (.drops fs) v (pos + Instr.total code + 1) rest) :
    Simulates T W N n c s (.drops (f :: fs)) v pos (code ++ .pop :: rest) := by
  intro hl hp
  obtain ⟨bs₁, ho₁, h₁⟩ := h₁ hl.left (hp.part ⟨hp.forms.1, trivial⟩ fun find => by
    simp [Form.collectAll])
  obtain ⟨bs₂, ho₂, h₂⟩ := h₂ hl.right.tail (hp.part hp.forms.2 fun find => by simp [Form.collectAll])
  refine ⟨bs₁ ++ bs₂, (ho₁.append ho₂).mono (by simp [Task.collect, Form.collectAll]), ?_⟩
  rintro g rfl hbs L σ ls m h
  rw [List.forall_mem_append] at hbs
  rw [evalDrops]
  refine (h₁ g rfl hbs.1 L σ ls m h).bind ?_
  rintro x σ₁ m₁ ⟨L₁, ls₁, a, p₁, hx⟩
  obtain ⟨m₂, hr, hw, hs⟩ := p₁.situated.reaches_pop hp.standing hl.right.head
  refine Follows.of_reaches (Follows.mono (h₂ g rfl hbs.2 L₁ σ₁ ls₁ m₂ hs) fun _ σ₂ m₃ hy => ?_) hr
  obtain ⟨L₂, ls₂, p₂⟩ := hy
  have htotal : pos + Instr.total (code ++ .pop :: rest) =
      pos + Instr.total code + 1 + Instr.total rest := by
    rw [Instr.total_append, Instr.total_cons]
    simp only [show Instr.size .pop = 1 from rfl]
    omega
  rw [htotal]
  exact ⟨L₂, ls₂, p₂.situated, p₁.grown.trans (hw ▸ p₂.grown), p₁.kept.trans p₂.kept⟩

theorem simulates_loop {test : Form} {asked dropped result : List Instr} {start done : UInt16}
    (h₁ : Simulates T W N n c s (.form false test .value) v pos asked)
    (h₂ : Simulates T W N n c s (.drops fs) v (pos + Instr.total asked + 3) dropped)
    (hstart : start.toNat = pos)
    (hdone : done.toNat = pos + Instr.total asked + 3 + Instr.total dropped + 3)
    (h₃ : Simulates T W N n c s (.form false (.boolean false) .value) v done.toNat result) :
    Simulates T W N n c s (.loop test fs) v pos
      (asked ++ .jumpIfFalse done :: dropped ++ .jump start :: result) := by
  intro hl hp
  have hsize : (Instr.jumpIfFalse done).size = 3 := rfl
  have hsize' : (Instr.jump start).size = 3 := rfl
  have hmiddle : pos + Instr.total (asked ++ .jumpIfFalse done :: dropped) =
      pos + Instr.total asked + 3 + Instr.total dropped := by
    rw [Instr.total_append, Instr.total_cons, hsize]
    omega
  have hend : pos + Instr.total (asked ++ .jumpIfFalse done :: dropped ++ .jump start :: result) =
      done.toNat + Instr.total result := by
    rw [Instr.total_append, Instr.total_cons, hsize', ← Nat.add_assoc, hmiddle, hdone]
    omega
  have hjump : c.Lies (pos + Instr.total asked + 3 + Instr.total dropped) (.jump start :: result) :=
    hmiddle ▸ hl.right
  have nothing : Placed T N s v [.boolean false] :=
    ⟨hp.standing.sublist (List.nil_sublist _), ⟨trivial, trivial⟩, List.nodup_nil, nofun⟩
  obtain ⟨bs₁, ho₁, h₁⟩ := h₁ hl.left.left (hp.part ⟨hp.forms.1, trivial⟩ fun find => by
    simp [Form.collectAll])
  obtain ⟨bs₂, ho₂, h₂⟩ := h₂ hl.left.right.tail (hp.part hp.forms.2 fun find => by
    simp [Form.collectAll])
  obtain ⟨bs₃, ho₃, h₃⟩ := h₃ (hdone ▸ hjump.tail) nothing
  refine ⟨bs₁ ++ bs₂ ++ bs₃, ((ho₁.append ho₂).append ho₃).mono (by
    simp [Task.collect, Form.collect, Form.block?]), ?_⟩
  rintro g rfl hbs
  rw [List.forall_mem_append, List.forall_mem_append] at hbs
  rw [Task.Runs, hend]
  -- by induction on the number of rounds that are left; each takes a step at least
  have rounds (r : Nat) (hr : r ≤ n) : ∀ L σ ls m, Situated T W N g s v pos L σ ls m →
      m.Follows r (g.Leaves T W N s v ⟨L, σ, m.world⟩ ls (done.toNat + Instr.total result) .value)
        (Halted T W N)
        (loop (do truth (← eval T (call T n) n g.env s test)) (evalDrops T (call T n) n g.env s fs) r σ) := by
    induction r with
    | zero => exact fun L σ ls m h => Or.inr rfl
    | succ r ih =>
      intro L σ ls m h
      rw [loop, bind_assoc]
      refine ((h₁ g rfl hbs.1.1 L σ ls m h).anti hr).bind ?_
      rintro a σ₁ m₁ ⟨L₁, ls₁, p, p₁, ha⟩
      refine p₁.situated.follows_truth hp.standing ha hl.left.right.head fun q m₂ hs hw => ?_
      have asked : g.Passes T W N s v ⟨L, σ, m.world⟩ ls v (if q then _ else _) [] L₁ ls₁ σ₁ m₂ :=
        ⟨by rwa [List.append_nil], hw ▸ p₁.grown, p₁.kept⟩
      cases q with
      | true =>
        refine Follows.bind ((h₂ g rfl hbs.1.2 L₁ σ₁ ls₁ m₂ hs).anti (Nat.le_of_succ_le hr)) ?_
        rintro - σ₂ m₃ ⟨L₂, ls₂, p₂⟩
        have hs₂ := p₂.situated
        rw [List.append_nil] at hs₂
        obtain ⟨m₄, hstep, hw₂, hs₃⟩ := hs₂.step_jump hjump.head
        rw [hstart] at hs₃
        refine Follows.of_reaches (Follows.mono (ih (Nat.le_of_succ_le hr) L₂ σ₂ ls₂ m₄ hs₃)
          fun x σ₃ m₅ hx => ?_) (reaches_step hstep)
        rw [hw₂] at hx
        exact asked.leaves (p₂.leaves hx)
      | false =>
        have hresult := h₃ g rfl hbs.2 L₁ σ₁ ls₁ m₂ hs
        rw [eval] at hresult
        exact (Follows.anti hresult (Nat.le_of_succ_le hr)).mono fun x σ₂ m₃ hx => asked.leaves hx
  exact rounds n (Nat.le_refl n)

theorem simulates_whileLoop {test body : Form}
    (h₁ : Simulates T W N n c s (.loop test [body]) v pos code) :
    Simulates T W N n c s (.form direct (.whileLoop test body) .value) v pos code := by
  intro hl hp
  obtain ⟨bs, ho, h₁⟩ := h₁ hl (hp.part ⟨hp.forms.1.1, hp.forms.1.2, trivial⟩ fun find => by
    simp [Form.collectAll, Form.collect])
  refine ⟨bs, ho.mono (by simp [Task.collect, Form.collect, Form.collectAll]),
    fun g hg hbs L σ ls m h => ?_⟩
  have h' := h₁ g hg hbs L σ ls m h
  simp only [evalDrops] at h'
  rw [eval]
  exact h'

theorem simulates_forLoop {init test modifier body : Form} {o : Outcome} {first : List Instr}
    (hd : Declared T s init o) (h₁ : Simulates T W N n c s (.form true init o) v pos first)
    (h₂ : Simulates T W N n c s (.loop test [body, modifier]) (v.kept o)
      (pos + Instr.total (first ++ o.drop)) code) :
    Simulates T W N n c s (.form direct (.forLoop init test modifier body) .value) v pos
      (first ++ o.drop ++ code ++ if o.locals = 0 then [] else [.scopeExit 1]) := by
  intro hl hp
  obtain ⟨hinit, htest, hmodifier, hbody⟩ := hp.forms.1
  have parts : Placed T N s v (init :: [test, body, modifier]) :=
    hp.part ⟨hinit, htest, hbody, hmodifier, trivial⟩ fun find => by
      simp [Form.collectAll, Form.collect]
  have declared (name ix) (he : o = .slot name ix) :
      name ∈ Form.collectAll Form.declares? s (init :: [test, body, modifier]) :=
    List.mem_append_left _ (hd hinit name ix he).1
  obtain ⟨bs₁, ho₁, h₁⟩ := h₁ hl.left.left.left (parts.part ⟨hinit, trivial⟩ fun find => by
    simp [Form.collectAll])
  obtain ⟨bs₂, ho₂, h₂⟩ := h₂ hl.left.right (parts.after hd)
  refine ⟨bs₁ ++ bs₂, (ho₁.append ho₂).mono (by simp [Task.collect, Form.collect, Form.collectAll]), ?_⟩
  rintro g rfl hbs L σ ls m h
  rw [List.forall_mem_append] at hbs
  rw [eval]
  refine (h₁ g rfl hbs.1 L σ ls m h).bind fun x σ₁ m₁ hx => ?_
  obtain ⟨m₂, hr, L₁, ls₁, us, hus, p₁⟩ := hx.follows_drop parts.standing hl.left.left.right
  have hlen : ls₁.length = v.depth := p₁.length_kept hus
  have hs := p₁.situated
  rw [Nat.add_assoc, ← Instr.total_append] at hs
  have looped := h₂ g rfl hbs.2 L₁ σ₁ _ m₂ hs
  simp only [evalDrops] at looped
  refine Follows.of_reaches (Follows.further looped fun y σ₂ m₃ hy => ?_) hr
  obtain ⟨L₂, ls₂, a, p₂, hy⟩ := hy
  obtain ⟨ls₃, us₁, hus₁, p₃⟩ := p₂.unbind rfl parts.standing declared hus hlen
  have exits : Exits o.locals (if o.locals = 0 then [] else [.scopeExit 1]) := by
    cases o with
    | slot name ix => exact Exits.some (n := 1) (by decide)
    | value | cell name ix => exact Exits.none
  rw [Nat.add_assoc, ← Instr.total_append] at p₃
  rw [Instr.total_append _ (ite ..), ← Nat.add_assoc]
  exact (p₃.situated.follows_exit parts.standing hus₁ hy exits hl.right).mono
    fun z σ₃ m₄ hz => p₁.leaves (p₃.leaves hz)

end

end Meaning

end ByteLisp
