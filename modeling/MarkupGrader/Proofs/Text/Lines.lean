import MarkupGrader.Proofs.Text.Squeeze

/-! Trimmed texts, and the lines of a text. Trimming takes away what is blank at the ends, and a text
that is written line by line, each line broken off from the others, has these lines again. -/

namespace MarkupGrader.Text

open Markup (isSpace)

variable {a b t line : Text} {more : List Text}

structure IsTrim (t : Text) : Prop where
  begins : ∀ c ∈ t.head?, isBlank c = false
  ends : ∀ c ∈ t.getLast?, isBlank c = false

theorem dropWhile_of_head? {p : Char → Bool} (h : ∀ c ∈ t.head?, p c = false) :
    t.dropWhile p = t := by
  cases t with
  | nil => rfl
  | cons c t => exact List.dropWhile_cons_of_neg (Bool.eq_false_iff.mp (h c rfl))

theorem IsTrim.trim (h : IsTrim t) : trim t = t := by
  have back : ∀ c ∈ t.reverse.head?, isBlank c = false := by
    rw [List.head?_reverse]
    exact h.ends
  rw [Text.trim, trimLeft, dropWhile_of_head? h.begins, trimRight, dropWhile_of_head? back,
    List.reverse_reverse]

theorem exists_trim (t : Text) : ∃ a b, t = a ++ (trim t ++ b) ∧ IsBlankText a ∧ IsBlankText b := by
  have left := List.takeWhile_append_dropWhile (p := isBlank) (l := t)
  have right := congrArg List.reverse
    (List.takeWhile_append_dropWhile (p := isBlank) (l := (t.dropWhile isBlank).reverse))
  rw [List.reverse_append, List.reverse_reverse] at right
  refine ⟨t.takeWhile isBlank, ((t.dropWhile isBlank).reverse.takeWhile isBlank).reverse, ?_,
    fun c hc => List.mem_takeWhile_imp hc, fun c hc => List.mem_takeWhile_imp (List.mem_reverse.mp hc)⟩
  rw [trim, trimRight, trimLeft, right, left]

theorem isTrim_trim (t : Text) : IsTrim (trim t) := by
  have right := congrArg List.reverse
    (List.takeWhile_append_dropWhile (p := isBlank) (l := (t.dropWhile isBlank).reverse))
  rw [List.reverse_append, List.reverse_reverse] at right
  constructor
  · intro c hc
    have head := List.head?_dropWhile_not isBlank t
    obtain ⟨rest, eq⟩ := List.head?_eq_some_iff.mp hc
    rw [← right, show ((t.dropWhile isBlank).reverse.dropWhile isBlank).reverse = c :: rest from eq]
      at head
    simpa using head
  · intro c hc
    have head := List.head?_dropWhile_not isBlank (t.dropWhile isBlank).reverse
    rw [trim, trimRight, List.getLast?_reverse, trimLeft] at hc
    rw [hc] at head
    simpa using head

theorem isTrim_of_spaced (spaced : Spaced t) (begins : isLed t = false)
    (ends : isTrailed t = false) : IsTrim t := by
  constructor
  · intro c hc
    rw [isLed, hc] at begins
    rw [spaced.isBlank_eq (List.mem_of_mem_head? hc)]
    exact begins
  · intro c hc
    rw [isTrailed, hc] at ends
    rw [spaced.isBlank_eq (List.mem_of_getLast? hc)]
    exact ends

theorem exists_of_head?_words {w : Text} (h : (words t).head? = some w) :
    ∃ c u, w = c :: u ∧ isBlank c = false := by
  induction t generalizing w with
  | nil => cases h
  | cons c t ih =>
    cases blank : isBlank c with
    | true =>
      rw [words_cons_of_blank blank] at h
      exact ih h
    | false =>
      rw [words_cons_of_solid blank] at h
      split at h
      · cases h
        exact ⟨c, [], rfl, blank⟩
      · split at h
        · cases h
          exact ⟨c, [], rfl, blank⟩
        · cases h
          exact ⟨c, _, rfl, blank⟩

theorem isLed_collapse (t : Text) : isLed (collapse t) = false := by
  rw [collapse]
  cases found : words t with
  | nil => rfl
  | cons w ws =>
    obtain ⟨c, u, rfl, solid⟩ := exists_of_head?_words (congrArg List.head? found)
    have space : isSpace c = false := isSpace_of_solid solid
    cases ws with
    | nil => exact space
    | cons v ws =>
      rw [join_space_cons_cons]
      exact space

theorem words_append_space {w : Text} (solid : ∀ c ∈ w, isBlank c = false) (nonempty : w ≠ [])
    (rest : Text) : words (w ++ ' ' :: rest) = w :: words rest := by
  induction w with
  | nil => exact absurd rfl nonempty
  | cons c w ih =>
    obtain ⟨own, others⟩ := List.forall_mem_cons.mp solid
    rw [List.cons_append, words_cons_of_solid own]
    cases w with
    | nil =>
      rw [List.nil_append, List.head?_cons, Option.all_some, if_pos (by rfl), words_cons_of_blank rfl]
    | cons d w =>
      have next := others d List.mem_cons_self
      rw [ih others (List.cons_ne_nil _ _), List.cons_append, List.head?_cons, Option.all_some, next,
        if_neg Bool.false_ne_true]

theorem words_of_solid {w : Text} (solid : ∀ c ∈ w, isBlank c = false) (nonempty : w ≠ []) :
    words w = [w] := by
  have blank : IsBlankText " " := List.forall_mem_singleton.mpr rfl
  rw [← words_append_right blank, show (" " : Text) = ' ' :: [] from rfl,
    words_append_space solid nonempty]
  rfl

theorem collapse_of_solid {w : Text} (solid : ∀ c ∈ w, isBlank c = false) (nonempty : w ≠ []) :
    collapse w = w := by
  rw [collapse, words_of_solid solid nonempty, join_singleton]

theorem solid_of_mem_words {w : Text} (h : w ∈ words t) : (∀ c ∈ w, isBlank c = false) ∧ w ≠ [] := by
  induction t generalizing w with
  | nil => cases h
  | cons c t ih =>
    cases blank : isBlank c with
    | true =>
      rw [words_cons_of_blank blank] at h
      exact ih h
    | false =>
      have single : (∀ d ∈ [c], isBlank d = false) ∧ [c] ≠ [] :=
        ⟨List.forall_mem_singleton.mpr blank, List.cons_ne_nil _ _⟩
      rw [words_cons_of_solid blank] at h
      split at h
      · rcases List.mem_cons.mp h with rfl | h
        · exact single
        · exact ih h
      · split at h
        · rw [List.mem_singleton.mp h]
          exact single
        · next word more found =>
          rcases List.mem_cons.mp h with rfl | h
          · have own := ih (found ▸ List.mem_cons_self)
            exact ⟨List.forall_mem_cons.mpr ⟨blank, own.1⟩, List.cons_ne_nil _ _⟩
          · exact ih (found ▸ List.mem_cons_of_mem _ h)

theorem words_join {ws : List Text} (solid : ∀ w ∈ ws, (∀ c ∈ w, isBlank c = false) ∧ w ≠ []) :
    words (join " " ws) = ws := by
  induction ws with
  | nil => rfl
  | cons w ws ih =>
    obtain ⟨own, others⟩ := List.forall_mem_cons.mp solid
    cases ws with
    | nil =>
      rw [show join " " [w] = w from List.intercalate_singleton]
      exact words_of_solid own.1 own.2
    | cons v ws => rw [join_space_cons_cons, words_append_space own.1 own.2, ih others]

theorem collapse_collapse (t : Text) : collapse (collapse t) = collapse t := by
  rw [collapse, collapse, words_join fun w hw => solid_of_mem_words hw]

theorem collapse_ne_nil (h : ¬ IsBlankText t) : collapse t ≠ [] := by
  intro none
  rw [← dropBlanks_eq_nil, ← dropBlanks_collapse, none] at h
  exact h rfl

inductive Break : Text → Prop
  | lf : Break "\n"
  | crlf : Break "\r\n"

theorem Break.blank {nl : Text} (h : Break nl) : IsBlankText nl := by
  cases h with
  | lf => exact List.forall_mem_singleton.mpr rfl
  | crlf => exact List.forall_mem_cons.mpr ⟨rfl, List.forall_mem_singleton.mpr rfl⟩

theorem Break.ne_nil {nl : Text} (h : Break nl) : nl ≠ [] := by
  cases h <;> exact List.cons_ne_nil _ _

theorem Break.mem {nl : Text} (h : Break nl) : '\n' ∈ nl := by
  cases h <;> decide

theorem newline_notMem_collapse (t : Text) : '\n' ∉ collapse t := by
  have solid : ∀ w ∈ words t, ∀ c ∈ w, c ≠ '\n' := by
    rintro w hw _ hc rfl
    cases (solid_of_mem_words hw).1 '\n' hc
  have between : ∀ c ∈ (" " : Text), c ≠ '\n' := List.forall_mem_singleton.mpr (by decide)
  exact fun mem => forall_mem_join between solid '\n' mem rfl

theorem append_newline_inj {r s : Text} (ha : '\n' ∉ a) (hb : '\n' ∉ b) :
    a ++ '\n' :: r = b ++ '\n' :: s ↔ a = b ∧ r = s := by
  induction a generalizing b with
  | nil =>
    cases b with
    | nil => simp
    | cons c b =>
      have other : c ≠ '\n' := fun eq => hb (eq ▸ List.mem_cons_self)
      simp [other.symm]
  | cons c a ih =>
    rw [List.mem_cons, not_or] at ha
    cases b with
    | nil => simp [Ne.symm ha.1]
    | cons d b =>
      rw [List.mem_cons, not_or] at hb
      rw [List.cons_append, List.cons_append, List.cons.injEq, ih ha.2 hb.2, List.cons.injEq,
        and_assoc]

theorem append_line_inj {w r s : Text} (ha : '\n' ∉ a) (hb : '\n' ∉ b) (hw : '\n' ∈ w) :
    a ++ (w ++ r) = b ++ (w ++ s) ↔ a = b ∧ r = s := by
  obtain ⟨front, back, rfl, free⟩ := List.eq_append_cons_of_mem hw
  have left : '\n' ∉ a ++ front := fun h => (List.mem_append.mp h).elim ha free
  have right : '\n' ∉ b ++ front := fun h => (List.mem_append.mp h).elim hb free
  have cut := @append_newline_inj _ _ (back ++ r) (back ++ s) left right
  rw [List.append_cancel_right_eq, List.append_cancel_left_eq] at cut
  simpa only [List.append_assoc, List.cons_append] using cut

theorem lines_eq_nil : lines t = [] ↔ t = [] := by
  refine ⟨fun h => ?_, fun h => by rw [h]; rfl⟩
  unfold lines at h
  split at h
  · rfl
  · cases h
  · cases h
  · split at h <;> cases h

theorem exists_of_lines_cons (h : lines t = line :: more) :
    ('\n' ∉ line) ∧ ((t = line ∧ more = []) ∨
      ∃ nl rest, t = line ++ (nl ++ rest) ∧ Break nl ∧ lines rest = more) := by
  fun_induction lines t generalizing line more with
  | case1 => cases h
  | case2 rest _ =>
    cases h
    exact ⟨List.not_mem_nil, .inr ⟨"\n", rest, rfl, .lf, rfl⟩⟩
  | case3 rest _ =>
    cases h
    exact ⟨List.not_mem_nil, .inr ⟨"\r\n", rest, rfl, .crlf, rfl⟩⟩
  | case4 c rest solid _ none _ =>
    cases h
    rw [lines_eq_nil.mp none]
    refine ⟨?_, .inl ⟨rfl, rfl⟩⟩
    rw [List.mem_singleton]
    exact fun eq => solid eq.symm
  | case5 c rest solid _ first others found ih =>
    cases h
    obtain ⟨free, ends⟩ := ih found
    refine ⟨?_, ?_⟩
    · rw [List.mem_cons, not_or]
      exact ⟨fun eq => solid eq.symm, free⟩
    · rcases ends with ⟨rfl, rfl⟩ | ⟨nl, tail, rfl, break_, rfl⟩
      · exact .inl ⟨rfl, rfl⟩
      · exact .inr ⟨nl, tail, rfl, break_, rfl⟩

theorem blank_getLast?_append (ha : ∀ c ∈ a.getLast?, isBlank c = true) (hb : IsBlankText b) :
    ∀ c ∈ (a ++ b).getLast?, isBlank c = true := by
  intro c hc
  rw [List.getLast?_append] at hc
  cases last : b.getLast? with
  | none =>
    rw [last] at hc
    exact ha c hc
  | some d =>
    rw [last] at hc
    cases hc
    exact hb _ (List.mem_of_getLast? last)

theorem exists_of_mem_lines (h : line ∈ lines t) :
    '\n' ∉ line ∧ ∃ a b, t = a ++ (line ++ b) ∧ ∀ c ∈ a.getLast?, isBlank c = true := by
  generalize eq : lines t = ls at h
  induction ls generalizing t with
  | nil => cases h
  | cons l ls ih =>
    obtain ⟨free, ends⟩ := exists_of_lines_cons eq
    rcases List.mem_cons.mp h with rfl | h
    · refine ⟨free, [], t.drop line.length, ?_, by simp⟩
      rcases ends with ⟨rfl, -⟩ | ⟨nl, rest, rfl, -, -⟩ <;> simp
    · rcases ends with ⟨-, rfl⟩ | ⟨nl, rest, rfl, break_, found⟩
      · cases h
      · obtain ⟨free, a, b, rfl, blank⟩ := ih found h
        refine ⟨free, l ++ nl ++ a, b, by simp, ?_⟩
        cases a with
        | nil =>
          rw [List.append_nil]
          intro c hc
          rw [List.getLast?_append_of_ne_nil _ break_.ne_nil] at hc
          exact break_.blank c (List.mem_of_getLast? hc)
        | cons d a =>
          rwa [List.getLast?_append_of_ne_nil _ (List.cons_ne_nil _ _)]

def solidLines (t : Text) : List Text := ((lines t).map trim).filter (!·.isEmpty)

theorem exists_of_mem_solidLines (h : line ∈ solidLines t) :
    line ≠ [] ∧ '\n' ∉ line ∧ IsTrim line ∧
      ∃ a b, t = a ++ (line ++ b) ∧ ∀ c ∈ a.getLast?, isBlank c = true := by
  obtain ⟨mem, nonempty⟩ := List.mem_filter.mp h
  obtain ⟨whole, inside, rfl⟩ := List.mem_map.mp mem
  obtain ⟨free, a, b, rfl, blank⟩ := exists_of_mem_lines inside
  obtain ⟨p, q, split, front, -⟩ := exists_trim whole
  refine ⟨by simpa using nonempty, ?_, isTrim_trim whole, a ++ p, q ++ b, ?_,
    blank_getLast?_append blank front⟩
  · rw [split] at free
    exact fun hc => free (List.mem_append_right _ (List.mem_append_left _ hc))
  · conv_lhs => rw [split]
    simp

end MarkupGrader.Text
