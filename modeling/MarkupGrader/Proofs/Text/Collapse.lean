import MarkupGrader.Proofs.Text.Squeeze

/-! Collapsing a text piece by piece. Two texts in a row are collapsed to what each is collapsed to,
with at most one space between. -/

namespace MarkupGrader.Text

variable {a b t : Text} {c : Char}

def IsGlue (u : Text) : Prop := u = [] ∨ u = [' ']

theorem collapse_cons_of_blank (blank : isBlank c = true) (t : Text) :
    collapse (c :: t) = collapse t := by
  rw [collapse, words_cons_of_blank blank, collapse]

/-- A text as it is collapsed behind a character that is not blank. -/
def collapseBehind (t : Text) : Text :=
  if t.head?.any isBlank && !(words t).isEmpty then ' ' :: collapse t else collapse t

theorem collapseBehind_of_solid (solid : isBlank c = false) (t : Text) :
    collapseBehind (c :: t) = collapse (c :: t) := by
  rw [collapseBehind, List.head?_cons, Option.any_some, solid]
  rfl

theorem collapseBehind_of_blankText (blank : IsBlankText t) : collapseBehind t = [] := by
  have none := words_eq_nil.mpr blank
  rw [collapseBehind, collapse, none]
  cases t.head?.any isBlank <;> rfl

theorem collapseBehind_of_words (first : isBlank c = true) (some : words t ≠ []) :
    collapseBehind (c :: t) = ' ' :: collapse t := by
  rw [collapseBehind, words_cons_of_blank first, List.head?_cons, Option.any_some, first,
    List.isEmpty_eq_false_iff.mpr some, collapse_cons_of_blank first]
  rfl

theorem exists_collapseBehind (t : Text) : ∃ u, IsGlue u ∧ collapseBehind t = u ++ collapse t := by
  rw [collapseBehind]
  split
  · exact ⟨[' '], .inr rfl, rfl⟩
  · exact ⟨[], .inl rfl, rfl⟩

theorem collapse_cons_of_solid (solid : isBlank c = false) (t : Text) :
    collapse (c :: t) = c :: collapseBehind t := by
  cases t with
  | nil =>
    rw [collapse, words_cons_of_solid solid]
    rfl
  | cons d t =>
    rw [collapse, words_cons_of_solid solid, List.head?_cons, Option.all_some]
    cases first : isBlank d with
    | true =>
      rw [if_pos rfl, words_cons_of_blank first]
      cases found : words t with
      | nil =>
        rw [collapseBehind_of_blankText (isBlankText_cons.mpr ⟨first, words_eq_nil.mp found⟩)]
        rfl
      | cons w ws =>
        rw [join_space_cons_cons,
          collapseBehind_of_words first (found ▸ List.cons_ne_nil w ws), collapse, found]
        rfl
    | false =>
      rw [if_neg Bool.false_ne_true, collapseBehind_of_solid first, collapse]
      cases words (d :: t) with
      | nil => rfl
      | cons w ws => exact join_cons_char c w ws

theorem exists_collapse_append_both (a b : Text) :
    (∃ u, IsGlue u ∧ collapse (a ++ b) = collapse a ++ (u ++ collapse b)) ∧
      ∃ u, IsGlue u ∧ collapseBehind (a ++ b) = collapseBehind a ++ (u ++ collapse b) := by
  induction a with
  | nil => exact ⟨⟨[], .inl rfl, rfl⟩, exists_collapseBehind b⟩
  | cons c a ih =>
    obtain ⟨⟨u, glue, whole⟩, v, glue', behind⟩ := ih
    rw [List.cons_append]
    cases first : isBlank c with
    | false =>
      rw [collapseBehind_of_solid first, collapseBehind_of_solid first, collapse_cons_of_solid first,
        collapse_cons_of_solid first, behind]
      exact ⟨⟨v, glue', rfl⟩, v, glue', rfl⟩
    | true =>
      rw [collapse_cons_of_blank first, collapse_cons_of_blank first]
      refine ⟨⟨u, glue, whole⟩, ?_⟩
      by_cases none : words a = []
      · -- All of `a` is blank, and the space in front is that of what stands behind it.
        have blank := words_eq_nil.mp none
        obtain ⟨w, glue, eq⟩ := exists_collapseBehind (c :: (a ++ b))
        rw [collapse_cons_of_blank first, collapse, words_append_left blank] at eq
        rw [collapseBehind_of_blankText (isBlankText_cons.mpr ⟨first, blank⟩), eq]
        exact ⟨w, glue, rfl⟩
      · have more : words (a ++ b) ≠ [] := by
          rw [Ne, words_eq_nil, isBlankText_append, not_and]
          exact fun blank => absurd (words_eq_nil.mpr blank) none
        rw [collapseBehind_of_words first none, collapseBehind_of_words first more, whole]
        exact ⟨u, glue, rfl⟩

theorem exists_collapse_append (a b : Text) :
    ∃ u, IsGlue u ∧ collapse (a ++ b) = collapse a ++ (u ++ collapse b) :=
  (exists_collapse_append_both a b).1

theorem collapse_append_of_solid (solid : ∀ c ∈ a, isBlank c = false) (nonempty : a ≠ [])
    (b : Text) : collapse (a ++ b) = a ++ collapseBehind b := by
  induction a with
  | nil => exact absurd rfl nonempty
  | cons c a ih =>
    obtain ⟨own, others⟩ := List.forall_mem_cons.mp solid
    rw [List.cons_append, collapse_cons_of_solid own]
    cases a with
    | nil => rfl
    | cons d a =>
      rw [List.cons_append, collapseBehind_of_solid (others d List.mem_cons_self),
        ← List.cons_append, ih others (List.cons_ne_nil d a)]
      rfl

theorem head?_collapseBehind (t : Text) :
    (collapseBehind t).head? = t.head? ∨ (collapseBehind t).head? = some ' ' ∨
      collapseBehind t = [] := by
  cases t with
  | nil => exact .inl rfl
  | cons c t =>
    cases first : isBlank c with
    | false =>
      rw [collapseBehind_of_solid first, collapse_cons_of_solid first]
      exact .inl rfl
    | true =>
      by_cases none : words t = []
      · exact .inr (.inr (collapseBehind_of_blankText
          (isBlankText_cons.mpr ⟨first, words_eq_nil.mp none⟩)))
      · rw [collapseBehind_of_words first none]
        exact .inr (.inl rfl)

end MarkupGrader.Text
