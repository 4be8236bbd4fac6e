import MarkupGrader.LineDiff.Basic

/-! The point at which a shortest difference of two lists of lines can be halved. From both ends the
search goes as far as possible along each diagonal with more and more changes, until the two fronts
meet. The point `(x, y)` lies on diagonal `x - y`. -/

namespace MarkupGrader.LineDiff

/-- For each diagonal the number of old lines that have been passed on it. -/
structure Frontier where
  offset : Nat
  reach : Array Nat

namespace Frontier

def empty (size : Nat) : Frontier := ⟨size, Array.replicate (2 * size + 1) 0⟩

def get (f : Frontier) (k : Int) : Nat := f.reach.getD (k + f.offset).toNat 0

def set (f : Frontier) (k : Int) (x : Nat) : Frontier :=
  { f with reach := f.reach.setIfInBounds (k + f.offset).toNat x }

/-- Where diagonal `k` is entered with the last of `d` changes: by a line of the new text from above
or by one of the old text from the left, whichever gets further. -/
def enter (f : Frontier) (d k : Int) : Nat :=
  if k = -d ∨ (k ≠ d ∧ f.get (k - 1) < f.get (k + 1)) then f.get (k + 1)
  else f.get (k - 1) + 1

end Frontier

/-- The number of equal lines from position `x` of the old and `y` of the new text on. -/
def matchingFrom (old new : Array Text) (x y : Nat) : Nat :=
  if h : x < old.size then
    if hy : y < new.size then
      if old[x] = new[y] then matchingFrom old new (x + 1) (y + 1) + 1 else 0
    else 0
  else 0
termination_by old.size - x

/-- A stretch of equal lines on a diagonal, between two positions in the old text. -/
structure Stretch where
  diagonal : Int
  first : Nat
  last : Nat

/-- The position in the new text that belongs to one in the old text. -/
def onDiagonal (k : Int) (x : Nat) : Nat := ((x : Int) - k).toNat

/-- Goes on along each of the diagonals with `d` changes, up to one where `meets` holds. -/
def sweep (old new : Array Text) (d : Int) (meets : Int → Nat → Bool) :
    List Int → Frontier → Frontier × Option Stretch
  | [], f => (f, none)
  | k :: ks, f =>
    let x := f.enter d k
    let reached := x + matchingFrom old new x (onDiagonal k x)
    let f := f.set k reached
    if meets k reached then (f, some ⟨k, x, reached⟩) else sweep old new d meets ks f

def diagonals (d : Nat) : List Int :=
  (List.range (d + 1)).map fun (i : Nat) => (d : Int) - 2 * (i : Int)

/-- Searches with `d` changes from either end and then with more, `left` times. The fronts from the
beginning and from the end are `f` and `g`. -/
def meeting? (old new oldBack newBack : Array Text) :
    (left d : Nat) → (f g : Frontier) → Option (Nat × Nat)
  | 0, _, _, _ => none
  | left + 1, d, f, g =>
    let delta : Int := (old.size : Int) - new.size
    let isOdd : Bool := delta % 2 != 0
    let meetsBack (k : Int) (x : Nat) : Bool :=
      isOdd && (k - delta).natAbs + 1 ≤ d && old.size ≤ x + g.get (delta - k)
    match sweep old new d meetsBack (diagonals d) f with
    | (_, some s) => some (s.first, onDiagonal s.diagonal s.first)
    | (f, none) =>
      let meetsFront (k : Int) (x : Nat) : Bool :=
        !isOdd && (k - delta).natAbs ≤ d && old.size ≤ x + f.get (delta - k)
      match sweep oldBack newBack d meetsFront (diagonals d) g with
      | (_, some s) => some (old.size - s.last, new.size - onDiagonal s.diagonal s.last)
      | (g, none) => meeting? old new oldBack newBack left (d + 1) f g

def halfway? (old new : List Text) : Option (Nat × Nat) :=
  let size := (old.length + new.length + 1) / 2 + 1
  meeting? old.toArray new.toArray old.reverse.toArray new.reverse.toArray size 0
    (.empty size) (.empty size)

end MarkupGrader.LineDiff
