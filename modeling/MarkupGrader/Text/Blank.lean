import MarkupGrader.Text.Basic

/-! Blank characters are those with the Unicode property White_Space. Cutting a text at its runs of
blanks gives its words, and a text is collapsed by writing its words with one space between them. -/

namespace MarkupGrader.Text

def isBlank (c : Char) : Bool :=
  let n := c.toNat
  (0x09 ≤ n && n ≤ 0x0D) || n == 0x20 || n == 0x85 || n == 0xA0 || n == 0x1680 ||
    (0x2000 ≤ n && n ≤ 0x200A) || n == 0x2028 || n == 0x2029 || n == 0x202F || n == 0x205F ||
    n == 0x3000

def dropBlanks (t : Text) : Text := t.filter fun c => !isBlank c

def trimLeft (t : Text) : Text := t.dropWhile isBlank

def trimRight (t : Text) : Text := (t.reverse.dropWhile isBlank).reverse

def trim (t : Text) : Text := trimRight (trimLeft t)

def words : Text → List Text
  | [] => []
  | c :: rest =>
    if isBlank c then words rest
    else if rest.head?.all isBlank then [c] :: words rest
    else match words rest with
      | [] => [[c]]
      | word :: more => (c :: word) :: more

/-- Each run of blanks becomes one space, and none is left at either end. -/
def collapse (t : Text) : Text := join " " (words t)

end MarkupGrader.Text
