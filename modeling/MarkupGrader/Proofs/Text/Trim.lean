import MarkupGrader.Proofs.Text.Lines
import MarkupGrader.Text.Bytes

/-! What is left of a text when blanks or bytes are taken from its ends. -/

namespace MarkupGrader.Text

variable {a b t : Text}

theorem trim_append_of_blank (hb : IsBlankText b) (t : Text) : trim (t ++ b) = trim t := by
  by_cases blank : IsBlankText t
  · rw [trim_eq_nil.mpr blank, trim_eq_nil.mpr (isBlankText_append.mpr ⟨blank, hb⟩)]
  · have front : t.dropWhile isBlank ≠ [] := fun none => blank (List.dropWhile_eq_nil_iff.mp none)
    have back : ∀ c ∈ b.reverse, isBlank c = true := fun c hc => hb c (List.mem_reverse.mp hc)
    rw [trim, trim, trimLeft, trimLeft, List.dropWhile_append, if_neg (by simpa using front),
      trimRight, trimRight, List.reverse_append, List.dropWhile_append_of_pos back]

theorem trim_cons_of_blank {c : Char} (h : isBlank c = true) (t : Text) : trim (c :: t) = trim t := by
  rw [trim, trimLeft, List.dropWhile_cons_of_pos h]
  rfl

theorem trimRight_append_of_solid (solid : ∀ c ∈ b.getLast?, isBlank c = false) (filled : b ≠ [])
    (a : Text) : trimRight (a ++ b) = a ++ b := by
  have back : ∀ c ∈ (a ++ b).reverse.head?, isBlank c = false := by
    rwa [List.head?_reverse, List.getLast?_append_of_ne_nil _ filled]
  rw [trimRight, dropWhile_of_head? back, List.reverse_reverse]

theorem head?_trim_of_solid {c : Char} (h : isBlank c = false) (t : Text) :
    (trim (c :: t)).head? = some c := by
  rw [trim, trimLeft, List.dropWhile_cons_of_neg (Bool.eq_false_iff.mp h), trimRight,
    List.head?_reverse, List.reverse_cons, List.dropWhile_append]
  split
  · rw [List.dropWhile_cons_of_neg (Bool.eq_false_iff.mp h)]
    rfl
  · exact List.getLast?_concat ..

theorem exists_trimRight (t : Text) : ∃ b, t = trimRight t ++ b ∧ IsBlankText b ∧
    ∀ c ∈ (trimRight t).getLast?, isBlank c = false := by
  have whole := congrArg List.reverse
    (List.takeWhile_append_dropWhile (p := isBlank) (l := t.reverse))
  rw [List.reverse_append, List.reverse_reverse] at whole
  refine ⟨(t.reverse.takeWhile isBlank).reverse, whole.symm,
    fun c hc => List.mem_takeWhile_imp (List.mem_reverse.mp hc), fun c hc => ?_⟩
  have head := List.head?_dropWhile_not isBlank t.reverse
  rw [trimRight, List.getLast?_reverse, Option.mem_def] at hc
  rwa [hc] at head

theorem length_trim_le (t : Text) : (trim t).length ≤ (trimLeft t).length := by
  obtain ⟨b, whole, -, -⟩ := exists_trimRight (trimLeft t)
  have size := congrArg List.length whole
  rw [List.length_append, ← trim] at size
  omega

theorem length_trim_lt (filled : b ≠ []) (solid : ∀ c ∈ b.getLast?, isBlank c = false) (a : Text) :
    (trim a).length < (trim (a ++ b)).length := by
  by_cases blank : IsBlankText a
  · rw [trim_eq_nil.mpr blank]
    refine List.length_pos_iff.mpr fun none => ?_
    have all := (isBlankText_append.mp (trim_eq_nil.mp none)).2
    have last := List.getLast?_eq_some_getLast filled
    exact Bool.false_ne_true ((solid _ last).symm.trans (all _ (List.getLast_mem filled)))
  · have front : a.dropWhile isBlank ≠ [] := fun none => blank (List.dropWhile_eq_nil_iff.mp none)
    have whole : trim (a ++ b) = trimLeft a ++ b := by
      rw [trim, trimLeft, List.dropWhile_append, if_neg (by simpa using front)]
      exact trimRight_append_of_solid solid filled _
    rw [whole, List.length_append]
    have more := List.length_pos_iff.mpr filled
    have less := length_trim_le a
    omega

theorem takeBytes_cons (c : Char) (n : Nat) (t : Text) :
    takeBytes (c.utf8Size + n) (c :: t) = c :: takeBytes n t := by
  rw [takeBytes, if_neg (by omega), Nat.add_sub_cancel_left]

theorem takeWhile_takeBytes (p : Char → Bool) (n : Nat) (t : Text) :
    (takeBytes n t).takeWhile p = takeBytes n (t.takeWhile p) := by
  induction t generalizing n with
  | nil => rfl
  | cons c t ih =>
    cases own : p c with
    | true =>
      rw [List.takeWhile_cons_of_pos own, takeBytes, takeBytes]
      split
      · rfl
      · rw [List.takeWhile_cons_of_pos own, ih]
    | false =>
      have none : takeBytes n [] = [] := rfl
      rw [List.takeWhile_cons_of_neg (by simp [own]), none, takeBytes]
      split
      · rfl
      · exact List.takeWhile_cons_of_neg (by simp [own])

theorem exists_of_lt_byteLength {n : Nat} (short : n < byteLength a) (b : Text) :
    ∃ q, q ≠ [] ∧ takeBytes n (a ++ b) ++ q = a := by
  induction a generalizing n with
  | nil => exact absurd short (Nat.not_lt_zero n)
  | cons c a ih =>
    rw [List.cons_append, takeBytes]
    split
    · exact ⟨c :: a, List.cons_ne_nil c a, rfl⟩
    · rw [byteLength] at short
      obtain ⟨q, more, whole⟩ := ih (n := n - c.utf8Size) (by omega)
      exact ⟨q, more, congrArg (c :: ·) whole⟩

theorem takeBytes_append (n : Nat) (a b : Text) :
    takeBytes (byteLength a + n) (a ++ b) = a ++ takeBytes n b := by
  induction a with
  | nil => rw [byteLength, Nat.zero_add]; rfl
  | cons c a ih => rw [byteLength, Nat.add_assoc, List.cons_append, takeBytes_cons, ih]; rfl

end MarkupGrader.Text
