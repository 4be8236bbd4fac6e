import MarkupGrader.Text.Basic

/-! Positions in a text count the bytes of its UTF-8 form. A span is a pair of positions, and the
slice of a text at a span is what lies between them. -/

namespace MarkupGrader

/-- The part of a source from byte `start` up to, and without, byte `stop`. -/
structure Span where
  start : Nat
  stop : Nat
  deriving DecidableEq, Repr, Inhabited

namespace Text

def byteLength : Text → Nat
  | [] => 0
  | c :: rest => c.utf8Size + byteLength rest

@[simp] theorem byteLength_append (a b : Text) :
    byteLength (a ++ b) = byteLength a + byteLength b := by
  induction a with
  | nil => simp [byteLength]
  | cons c rest ih => simp [byteLength, ih, Nat.add_assoc]

def dropBytes (n : Nat) : Text → Text
  | [] => []
  | c :: rest => if n = 0 then c :: rest else dropBytes (n - c.utf8Size) rest

def takeBytes (n : Nat) : Text → Text
  | [] => []
  | c :: rest => if n < c.utf8Size then [] else c :: takeBytes (n - c.utf8Size) rest

def slice (t : Text) (span : Span) : Text :=
  takeBytes (span.stop - span.start) (dropBytes span.start t)

def IsBoundary (t : Text) (n : Nat) : Prop := ∃ k, n = byteLength (t.take k)

@[simp] theorem dropBytes_append_byteLength (a b : Text) :
    dropBytes (byteLength a) (a ++ b) = b := by
  induction a with
  | nil => cases b <;> simp [byteLength, dropBytes]
  | cons c rest ih =>
    have := c.utf8Size_pos
    simp only [List.cons_append, byteLength, dropBytes]
    rw [if_neg (by omega), Nat.add_sub_cancel_left]
    exact ih

@[simp] theorem takeBytes_append_byteLength (a b : Text) :
    takeBytes (byteLength a) (a ++ b) = a := by
  induction a with
  | nil => cases b with
    | nil => rfl
    | cons c rest => simp [byteLength, takeBytes, c.utf8Size_pos]
  | cons c rest ih => simp [byteLength, takeBytes, ih]

/-- Slicing at the position of a middle part gives that part. -/
theorem slice_append (a b c : Text) :
    slice (a ++ (b ++ c)) ⟨byteLength a, byteLength a + byteLength b⟩ = b := by
  simp [slice]

/-- The zero-based line of a byte position and its distance in bytes from the line's beginning. -/
def lineAndColumn (t : Text) (offset : Nat) : Nat × Nat :=
  (takeBytes offset t).foldl (fun (line, column) c =>
    if c = '\n' then (line + 1, 0) else (line, column + c.utf8Size)) (0, 0)

end Text
end MarkupGrader
