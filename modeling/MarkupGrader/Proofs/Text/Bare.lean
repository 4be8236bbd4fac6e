import Mathlib
import MarkupGrader.Markup.Token
import MarkupGrader.Text.Blank
import MarkupGrader.Text.Lines

/-! A text with its blanks taken out. Laying out a text only moves, adds and removes blanks, and so
does nothing to it once they are gone. -/

namespace MarkupGrader.Text

def IsBlankText (t : Text) : Prop := ∀ c ∈ t, isBlank c = true

variable {a b t : Text}

theorem isBlank_of_isSpace {c : Char} (h : Markup.isSpace c = true) : isBlank c = true := by
  simp only [Markup.isSpace, Bool.or_eq_true, beq_iff_eq, Bool.and_eq_true, decide_eq_true_eq] at h
  rcases h with rfl | ⟨low, high⟩
  · decide
  · simp only [isBlank, low, high, decide_true, Bool.and_true, Bool.true_or]

theorem isBlankText_nil : IsBlankText [] := fun _ h => absurd h List.not_mem_nil

theorem isBlankText_append : IsBlankText (a ++ b) ↔ IsBlankText a ∧ IsBlankText b := by
  simp only [IsBlankText, List.mem_append, or_imp, forall_and]

theorem isBlankText_cons {c : Char} :
    IsBlankText (c :: t) ↔ isBlank c = true ∧ IsBlankText t := by
  simp only [IsBlankText, List.mem_cons, forall_eq_or_imp]

@[simp] theorem dropBlanks_nil : dropBlanks [] = [] := rfl

@[simp] theorem dropBlanks_append (a b : Text) :
    dropBlanks (a ++ b) = dropBlanks a ++ dropBlanks b := List.filter_append a b

theorem dropBlanks_cons_of_blank {c : Char} (h : isBlank c = true) (t : Text) :
    dropBlanks (c :: t) = dropBlanks t := by
  rw [dropBlanks, List.filter_cons, if_neg (by simp [h])]
  rfl

theorem dropBlanks_cons_of_not_blank {c : Char} (h : isBlank c = false) (t : Text) :
    dropBlanks (c :: t) = c :: dropBlanks t := by
  rw [dropBlanks, List.filter_cons, if_pos (by simp [h])]
  rfl

theorem dropBlanks_eq_nil : dropBlanks t = [] ↔ IsBlankText t := by
  simp [dropBlanks, IsBlankText]

theorem dropBlanks_flatMap {α : Type} (f : α → Text) (as : List α) :
    dropBlanks (as.flatMap f) = as.flatMap fun a => dropBlanks (f a) := by
  induction as with
  | nil => rfl
  | cons a as ih => rw [List.flatMap_cons, List.flatMap_cons, dropBlanks_append, ih]

theorem isBlankText_replicate (n : Nat) : IsBlankText (List.replicate n ' ') := by
  intro c hc
  rw [List.eq_of_mem_replicate hc]
  decide

theorem dropBlanks_dropWhile (t : Text) : dropBlanks (t.dropWhile isBlank) = dropBlanks t := by
  induction t with
  | nil => rfl
  | cons c t ih =>
    cases blank : isBlank c with
    | true => rw [List.dropWhile_cons_of_pos blank, ih, dropBlanks_cons_of_blank blank]
    | false => rw [List.dropWhile_cons_of_neg (by simp [blank])]

theorem dropBlanks_reverse (t : Text) : dropBlanks t.reverse = (dropBlanks t).reverse :=
  List.filter_reverse

theorem dropBlanks_trim (t : Text) : dropBlanks (trim t) = dropBlanks t := by
  rw [trim, trimRight, dropBlanks_reverse, dropBlanks_dropWhile, dropBlanks_reverse,
    List.reverse_reverse, trimLeft, dropBlanks_dropWhile]

theorem trim_eq_nil : trim t = [] ↔ IsBlankText t := by
  constructor
  · intro h
    rw [← dropBlanks_eq_nil, ← dropBlanks_trim, h]
    rfl
  · intro h
    have none : t.dropWhile isBlank = [] := List.dropWhile_eq_nil_iff.mpr h
    rw [trim, trimLeft, none]
    rfl

theorem flatten_words (t : Text) : (words t).flatten = dropBlanks t := by
  induction t with
  | nil => rfl
  | cons c t ih =>
    unfold words
    split
    · next blank => rw [ih, dropBlanks_cons_of_blank blank]
    · next solid =>
      rw [dropBlanks_cons_of_not_blank (by simpa using solid), ← ih]
      split
      · rfl
      · split
        · next none => rw [none]; rfl
        · next word more found => rw [found]; rfl

theorem words_append_left (h : IsBlankText b) (t : Text) : words (b ++ t) = words t := by
  induction b with
  | nil => rfl
  | cons c b ih =>
    rw [isBlankText_cons] at h
    rw [List.cons_append, words, if_pos h.1, ih h.2]

theorem words_append_right (h : IsBlankText b) (t : Text) : words (t ++ b) = words t := by
  induction t with
  | nil => simpa using words_append_left h []
  | cons c t ih =>
    rw [List.cons_append, words, words, ih]
    cases t with
    | nil =>
      have first : b.head?.all isBlank = true := by
        cases b with
        | nil => rfl
        | cons d b => simpa using (isBlankText_cons.mp h).1
      rw [List.nil_append, first]
      rfl
    | cons d t => rfl

theorem collapse_around (ha : IsBlankText a) (hb : IsBlankText b) (t : Text) :
    collapse (a ++ (t ++ b)) = collapse t := by
  rw [collapse, words_append_left ha, words_append_right hb, collapse]

theorem dropBlanks_collapse (t : Text) : dropBlanks (collapse t) = dropBlanks t := by
  have join_eq : ∀ ws : List Text, dropBlanks (join " " ws) = dropBlanks ws.flatten := by
    intro ws
    induction ws with
    | nil => rfl
    | cons w ws ih =>
      cases ws with
      | nil => simp [join]
      | cons v ws =>
        have space : dropBlanks " ".toList = [] := rfl
        rw [join, List.intercalate_cons_cons, dropBlanks_append, dropBlanks_append, space,
          List.append_nil, List.flatten_cons, dropBlanks_append, ← ih, join]
  rw [collapse, join_eq, flatten_words, dropBlanks, dropBlanks, List.filter_filter]
  simp only [Bool.and_self]

theorem flatMap_dropBlanks_lines (t : Text) : (lines t).flatMap dropBlanks = dropBlanks t := by
  fun_induction lines t with
  | case1 => rfl
  | case2 rest ih => rw [List.flatMap_cons, ih, dropBlanks_cons_of_blank (by decide)]; rfl
  | case3 rest ih =>
    rw [List.flatMap_cons, ih, dropBlanks_cons_of_blank (by decide),
      dropBlanks_cons_of_blank (by decide)]
    rfl
  | case4 c rest _ _ none ih =>
    have split : dropBlanks (c :: rest) = dropBlanks [c] ++ dropBlanks rest :=
      dropBlanks_append [c] rest
    rw [split, ← ih, none]
    rfl
  | case5 c rest _ _ line more found ih =>
    have split : dropBlanks (c :: rest) = dropBlanks [c] ++ dropBlanks rest :=
      dropBlanks_append [c] rest
    have front : dropBlanks (c :: line) = dropBlanks [c] ++ dropBlanks line :=
      dropBlanks_append [c] line
    rw [split, ← ih, found, List.flatMap_cons, List.flatMap_cons, front, List.append_assoc]

end MarkupGrader.Text
