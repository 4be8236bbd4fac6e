import MarkupGrader.Proofs.Text.Trim

/-! Lines that are not blank, written down each behind a line break and an indent. They are the solid
lines of what is written, and a text has at least two of them exactly if a line breaks off within it
once it is trimmed. -/

namespace MarkupGrader.Text

variable {t l nl rest indent last : Text} {ls : List Text}

theorem lines_break (h : Break nl) (rest : Text) : lines (nl ++ rest) = [] :: lines rest := by
  cases h <;> rfl

theorem lines_cons {c : Char} (other : c ≠ '\n') (whole : c ≠ '\r' ∨ t.head? ≠ some '\n')
    {line : Text} {more : List Text} (h : lines t = line :: more) :
    lines (c :: t) = (c :: line) :: more := by
  unfold lines
  split
  · next eq => cases eq
  · next eq => exact absurd (List.cons.inj eq).1 other
  · next eq =>
    obtain ⟨rfl, rfl⟩ := List.cons.inj eq
    exact absurd rfl (whole.resolve_left fun h => h rfl)
  · next eq =>
    obtain ⟨rfl, rfl⟩ := List.cons.inj eq
    rw [h]

/-- A line that does not end with a carriage return is read up to the break behind it. -/
theorem lines_append_break (free : '\n' ∉ l) (ends : l.getLast? ≠ some '\r') (h : Break nl)
    (rest : Text) : lines (l ++ (nl ++ rest)) = l :: lines rest := by
  induction l with
  | nil => exact lines_break h rest
  | cons c l ih =>
    rw [List.mem_cons, not_or] at free
    cases l with
    | nil =>
      refine lines_cons (Ne.symm free.1) (.inl fun eq => ends (congrArg some eq)) ?_
      exact lines_break h rest
    | cons d l =>
      have next : d ≠ '\n' := fun eq => free.2 (eq ▸ List.mem_cons_self)
      refine lines_cons (Ne.symm free.1) (.inr fun eq => ?_) ?_
      · exact next (Option.some.inj eq)
      exact ih free.2 (by rwa [List.getLast?_cons_cons] at ends)

theorem lines_of_free (free : '\n' ∉ t) (nonempty : t ≠ []) : lines t = [t] := by
  induction t with
  | nil => exact absurd rfl nonempty
  | cons c t ih =>
    rw [List.mem_cons, not_or] at free
    cases t with
    | nil =>
      unfold lines
      split
      · next eq => cases eq
      · next eq => exact absurd (List.cons.inj eq).1.symm free.1
      · next eq => cases eq
      · next eq =>
        obtain ⟨rfl, rfl⟩ := List.cons.inj eq
        rfl
    | cons d t =>
      have next : d ≠ '\n' := fun eq => free.2 (eq ▸ List.mem_cons_self)
      refine lines_cons (Ne.symm free.1) (.inr fun eq => ?_) (ih free.2 (List.cons_ne_nil _ _))
      exact next (Option.some.inj eq)

theorem trim_append_left (blank : IsBlankText indent) (t : Text) : trim (indent ++ t) = trim t := by
  induction indent with
  | nil => rfl
  | cons c b ih =>
    rw [isBlankText_cons] at blank
    rw [List.cons_append, trim_cons_of_blank blank.1, ih blank.2]

theorem trim_of_solidLines (few : (solidLines t).length ≤ 1) :
    trim t = ((solidLines t).head?).getD [] := by
  generalize eq : lines t = ls at few
  induction ls generalizing t with
  | nil =>
    rw [lines_eq_nil.mp eq]
    rfl
  | cons l ls ih =>
    obtain ⟨-, ⟨rfl, rfl⟩ | ⟨nl, rest, rfl, break_, rfl⟩⟩ := exists_of_lines_cons eq
    · rw [solidLines, eq]
      cases solid : trim t with
      | nil => simp [solid]
      | cons c u => simp [solid]
    · have split : solidLines (l ++ (nl ++ rest)) =
          [trim l].filter (!·.isEmpty) ++ solidLines rest := by
        rw [solidLines, eq, solidLines, List.map_cons, ← List.singleton_append, List.filter_append]
      have around : IsBlankText nl := break_.blank
      rw [split] at few ⊢
      by_cases blank : IsBlankText l
      · have none : [trim l].filter (!·.isEmpty) = [] := by
          rw [trim_eq_nil.mpr blank]
          rfl
        rw [none, List.nil_append] at few ⊢
        rw [trim_append_left blank, trim_append_left around]
        exact ih few rfl
      · have some : [trim l].filter (!·.isEmpty) = [trim l] := by
          have nonempty : trim l ≠ [] := fun h => blank (trim_eq_nil.mp h)
          simp [nonempty]
        rw [some, List.singleton_append, List.length_cons] at few
        have none : solidLines rest = [] := List.eq_nil_of_length_eq_zero (by omega)
        have empty : trim rest = [] := by
          rw [ih (by rw [none]; exact Nat.zero_le 1) rfl, none]
          rfl
        rw [some, trim_append_of_blank (isBlankText_append.mpr ⟨around, trim_eq_nil.mp empty⟩)]
        rfl

theorem two_le_of_newline_mem_trim (h : '\n' ∈ trim t) : 2 ≤ (solidLines t).length := by
  by_contra few
  rw [trim_of_solidLines (by omega)] at h
  cases first : (solidLines t).head? with
  | none =>
    rw [first] at h
    cases h
  | some l =>
    rw [first] at h
    exact (exists_of_mem_solidLines (List.mem_of_mem_head? first)).2.1 h

/-- Each line behind a break and an indent, and a last line of nothing but white space. -/
def writtenLines (nl indent last : Text) (ls : List Text) : Text :=
  ls.flatMap (nl ++ indent ++ ·) ++ (nl ++ last)

/-- The lines are solid, and the white space before them breaks off no line. -/
structure Writes (nl indent last : Text) (ls : List Text) : Prop where
  break_ : Break nl
  indent : IsBlankText indent ∧ '\n' ∉ indent
  last : IsBlankText last ∧ '\n' ∉ last
  solid : ∀ l ∈ ls, l ≠ [] ∧ '\n' ∉ l ∧ IsTrim l

theorem Writes.tail (h : Writes nl indent last (l :: ls)) : Writes nl indent last ls :=
  ⟨h.break_, h.indent, h.last, (List.forall_mem_cons.mp h.solid).2⟩

theorem Writes.exists_break (h : Writes nl indent last ls) :
    ∃ rest, writtenLines nl indent last ls = nl ++ rest ∧
      lines rest = ls.map (indent ++ ·) ++ lines last := by
  induction ls with
  | nil => exact ⟨last, rfl, rfl⟩
  | cons l ls ih =>
    obtain ⟨rest, eq, found⟩ := ih h.tail
    obtain ⟨nonempty, free, ends⟩ := h.solid l List.mem_cons_self
    refine ⟨indent ++ l ++ (nl ++ rest), ?_, ?_⟩
    · rw [← eq, writtenLines, List.flatMap_cons, writtenLines]
      simp only [List.append_assoc]
    · rw [lines_append_break, found]
      · rfl
      · exact fun mem => (List.mem_append.mp mem).elim h.indent.2 free
      · rw [List.getLast?_append_of_ne_nil _ nonempty]
        intro eq
        cases ends.ends '\r' eq
      · exact h.break_

theorem Writes.solidLines_eq (h : Writes nl indent last ls) :
    solidLines (writtenLines nl indent last ls) = ls := by
  obtain ⟨rest, eq, found⟩ := h.exists_break
  have behind : ((lines last).map trim).filter (!·.isEmpty) = [] := by
    by_cases none : last = []
    · rw [none]
      rfl
    · rw [lines_of_free h.last.2 none, List.map_singleton, trim_eq_nil.mpr h.last.1]
      rfl
  have own : ((ls.map (indent ++ ·)).map trim).filter (!·.isEmpty) = ls := by
    rw [List.map_map, List.filter_eq_self.mpr]
    · refine (List.map_congr_left fun l hl => ?_).trans (List.map_id ls)
      rw [Function.comp_apply, trim_append_left h.indent.1, (h.solid l hl).2.2.trim]
      rfl
    · rw [List.forall_mem_map]
      intro l hl
      rw [Function.comp_apply, trim_append_left h.indent.1, (h.solid l hl).2.2.trim]
      simp [(h.solid l hl).1]
  rw [solidLines, eq, lines_break h.break_, found, List.map_cons, List.map_append,
    List.filter_cons_of_neg (by decide), List.filter_append, own, behind, List.append_nil]

theorem Writes.newline_mem_trim (h : Writes nl indent last ls) (several : 2 ≤ ls.length) :
    '\n' ∈ trim (writtenLines nl indent last ls) := by
  have nonempty : ls ≠ [] := by
    rintro rfl
    simp at several
  obtain ⟨l, ls, rfl⟩ := List.exists_cons_of_ne_nil nonempty
  obtain ⟨before, m, rfl⟩ := (List.eq_nil_or_concat' ls).resolve_left (by rintro rfl; simp at several)
  have first := h.solid l List.mem_cons_self
  have final := h.solid m (by simp)
  have around : IsBlankText (nl ++ indent) ∧ IsBlankText (nl ++ last) :=
    ⟨isBlankText_append.mpr ⟨h.break_.blank, h.indent.1⟩,
      isBlankText_append.mpr ⟨h.break_.blank, h.last.1⟩⟩
  have split : writtenLines nl indent last (l :: (before ++ [m])) =
      (nl ++ indent) ++
        ((l ++ (before.flatMap (nl ++ indent ++ ·) ++ (nl ++ indent) ++ m)) ++ (nl ++ last)) := by
    simp [writtenLines]
  have trimmed : IsTrim (l ++ (before.flatMap (nl ++ indent ++ ·) ++ (nl ++ indent) ++ m)) := by
    constructor
    · rw [List.head?_append_of_ne_nil _ first.1]
      exact first.2.2.begins
    · rw [← List.append_assoc, List.getLast?_append_of_ne_nil _ final.1]
      exact final.2.2.ends
  rw [split, trim_append_left around.1, trim_append_of_blank around.2, trimmed.trim]
  simp [h.break_.mem]

end MarkupGrader.Text
