/-
  ByteLisp: text measured in UTF-8 bytes.

  Positions in a source text are byte offsets, while texts are lists of
  characters.

  * `size` is the number of bytes of a text (`size_eq_utf8ByteSize`);
  * `takeBytes` and `dropBytes` cut a text at a byte offset: a character that
    does not fit wholly before the offset goes to the second part, so nothing
    is lost (`takeBytes_append_dropBytes`);
  * an offset that ends a prefix cuts there (`takeBytes_append`,
    `dropBytes_append`).
-/
namespace ByteLisp.Text

/-- The number of bytes of a text in UTF-8. -/
def size : List Char → Nat
  | [] => 0
  | c :: cs => c.utf8Size + size cs

/-- The characters that lie wholly within the first `n` bytes. -/
def takeBytes : Nat → List Char → List Char
  | _, [] => []
  | n, c :: cs => if c.utf8Size ≤ n then c :: takeBytes (n - c.utf8Size) cs else []

/-- What follows the characters that lie wholly within the first `n` bytes. -/
def dropBytes : Nat → List Char → List Char
  | _, [] => []
  | n, c :: cs => if c.utf8Size ≤ n then dropBytes (n - c.utf8Size) cs else c :: cs

@[simp] theorem size_nil : size [] = 0 := rfl

@[simp] theorem size_cons (c : Char) (cs : List Char) :
    size (c :: cs) = c.utf8Size + size cs := rfl

@[simp] theorem size_append (xs ys : List Char) : size (xs ++ ys) = size xs + size ys := by
  induction xs with
  | nil => simp
  | cons c cs ih => simp [ih, Nat.add_assoc]

/-- The size of a text is that of its encoding. -/
theorem size_eq_utf8ByteSize (cs : List Char) : size cs = (String.ofList cs).utf8ByteSize := by
  induction cs with
  | nil => simp
  | cons c cs ih =>
    have hc : (String.ofList [c]).utf8ByteSize = c.utf8Size := by
      rw [← String.singleton_eq_ofList, String.utf8ByteSize_singleton]
    rw [size_cons, ih, ← List.singleton_append, String.ofList_append,
      String.utf8ByteSize_append, hc]

theorem takeBytes_append_dropBytes (n : Nat) (cs : List Char) :
    takeBytes n cs ++ dropBytes n cs = cs := by
  induction cs generalizing n with
  | nil => rfl
  | cons c cs ih =>
    by_cases h : c.utf8Size ≤ n
    · simp [takeBytes, dropBytes, h, ih]
    · simp [takeBytes, dropBytes, h]

@[simp] theorem takeBytes_zero (cs : List Char) : takeBytes 0 cs = [] := by
  cases cs with
  | nil => rfl
  | cons c cs => simp [takeBytes, Nat.ne_of_gt c.utf8Size_pos]

@[simp] theorem dropBytes_zero (cs : List Char) : dropBytes 0 cs = cs := by
  cases cs with
  | nil => rfl
  | cons c cs => simp [dropBytes, Nat.ne_of_gt c.utf8Size_pos]

theorem takeBytes_append (xs ys : List Char) : takeBytes (size xs) (xs ++ ys) = xs := by
  induction xs with
  | nil => simp
  | cons c cs ih => simp [takeBytes, ih]

theorem dropBytes_append (xs ys : List Char) : dropBytes (size xs) (xs ++ ys) = ys := by
  induction xs with
  | nil => simp
  | cons c cs ih => simp [dropBytes, ih]

end ByteLisp.Text
