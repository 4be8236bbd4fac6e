import MarkupGrader.Proofs.Text.Bare

/-! A text is squeezed by writing one space for each run of white space. Where nothing else is
blank, collapsing a text is squeezing it and taking away the blanks at its ends. -/

namespace MarkupGrader.Text

open Markup (isSpace)

def isLed (t : Text) : Bool := t.head?.any isSpace

def isTrailed (t : Text) : Bool := t.getLast?.any isSpace

def squeeze : Text → Text
  | [] => []
  | c :: t =>
    if isSpace c then if isLed t then squeeze t else ' ' :: squeeze t else c :: squeeze t

variable {a b t : Text} {c : Char}

@[simp] theorem isLed_nil : isLed [] = false := rfl

@[simp] theorem isLed_cons (c : Char) (t : Text) : isLed (c :: t) = isSpace c := rfl

theorem isLed_append_of_ne_nil (h : a ≠ []) (b : Text) : isLed (a ++ b) = isLed a := by
  cases a with
  | nil => exact absurd rfl h
  | cons c a => rfl

theorem isTrailed_cons_cons (c d : Char) (t : Text) :
    isTrailed (c :: d :: t) = isTrailed (d :: t) := by
  rw [isTrailed, isTrailed, List.getLast?_cons_cons]

theorem isSpace_space : isSpace ' ' = true := rfl

theorem ne_of_isSpace {d : Char} (space : isSpace c = true) (solid : isSpace d = false) :
    c ≠ d := by
  rintro rfl
  rw [solid] at space
  cases space

@[simp] theorem squeeze_nil : squeeze [] = [] := rfl

theorem squeeze_cons_of_solid (solid : isSpace c = false) (t : Text) :
    squeeze (c :: t) = c :: squeeze t := by
  rw [squeeze, if_neg (by simp [solid])]

theorem squeeze_cons_of_led (space : isSpace c = true) (led : isLed t = true) :
    squeeze (c :: t) = squeeze t := by
  rw [squeeze, if_pos space, if_pos led]

theorem squeeze_cons_of_space (space : isSpace c = true) (led : isLed t = false) :
    squeeze (c :: t) = ' ' :: squeeze t := by
  rw [squeeze, if_pos space, if_neg (by simp [led])]

@[simp] theorem isLed_squeeze (t : Text) : isLed (squeeze t) = isLed t := by
  induction t with
  | nil => rfl
  | cons c t ih =>
    cases space : isSpace c with
    | false => rw [squeeze_cons_of_solid space, isLed_cons, isLed_cons]
    | true =>
      rw [isLed_cons, space]
      cases led : isLed t with
      | true => rw [squeeze_cons_of_led space led, ih, led]
      | false => rw [squeeze_cons_of_space space led, isLed_cons, isSpace_space]

theorem squeeze_eq_nil : squeeze t = [] ↔ t = [] := by
  cases t with
  | nil => simp
  | cons c t =>
    refine iff_of_false (fun none => ?_) (List.cons_ne_nil _ _)
    cases space : isSpace c with
    | false =>
      rw [squeeze_cons_of_solid space] at none
      cases none
    | true =>
      have led := isLed_squeeze (c :: t)
      rw [none, isLed_cons, space] at led
      cases led

theorem squeeze_append (h : isTrailed a = false ∨ isLed b = false) :
    squeeze (a ++ b) = squeeze a ++ squeeze b := by
  induction a with
  | nil => rfl
  | cons c a ih =>
    cases a with
    | nil =>
      cases space : isSpace c with
      | false => rw [squeeze_cons_of_solid space]; exact squeeze_cons_of_solid space b
      | true =>
        have led : isLed b = false := h.resolve_left (by simp [isTrailed, space])
        rw [squeeze_cons_of_space space isLed_nil]
        exact squeeze_cons_of_space space led
    | cons d a =>
      rw [isTrailed_cons_cons] at h
      have more := ih h
      have led : isLed (d :: a ++ b) = isLed (d :: a) := rfl
      rw [List.cons_append]
      cases space : isSpace c with
      | false => rw [squeeze_cons_of_solid space, squeeze_cons_of_solid space, more]; rfl
      | true =>
        cases next : isLed (d :: a) with
        | true =>
          rw [squeeze_cons_of_led space (led.trans next), squeeze_cons_of_led space next, more]
        | false =>
          rw [squeeze_cons_of_space space (led.trans next), squeeze_cons_of_space space next, more]
          rfl

theorem squeeze_of_solid (solid : ∀ c ∈ t, isSpace c = false) : squeeze t = t := by
  induction t with
  | nil => rfl
  | cons c t ih =>
    rw [squeeze_cons_of_solid (solid c List.mem_cons_self),
      ih fun d hd => solid d (List.mem_cons_of_mem _ hd)]

theorem isTrailed_of_solid (solid : ∀ c ∈ t, isSpace c = false) : isTrailed t = false := by
  rw [isTrailed, Option.any_eq_false]
  intro c last
  simpa using solid c (List.mem_of_getLast? last)

theorem squeeze_append_of_solid (solid : ∀ c ∈ a, isSpace c = false) (b : Text) :
    squeeze (a ++ b) = a ++ squeeze b := by
  rw [squeeze_append (.inl (isTrailed_of_solid solid)), squeeze_of_solid solid]

@[simp] theorem isTrailed_squeeze (t : Text) : isTrailed (squeeze t) = isTrailed t := by
  induction t with
  | nil => rfl
  | cons c t ih =>
    cases t with
    | nil =>
      cases space : isSpace c with
      | false => rw [squeeze_cons_of_solid space, squeeze_nil]
      | true =>
        rw [squeeze_cons_of_space space isLed_nil, squeeze_nil]
        simp [isTrailed, space, isSpace_space]
    | cons d t =>
      have nonempty : squeeze (d :: t) ≠ [] := fun none =>
        List.cons_ne_nil _ _ (squeeze_eq_nil.mp none)
      obtain ⟨e, u, eq⟩ := List.exists_cons_of_ne_nil nonempty
      rw [isTrailed_cons_cons, ← ih]
      cases space : isSpace c with
      | false => rw [squeeze_cons_of_solid space, eq, isTrailed_cons_cons]
      | true =>
        cases led : isLed (d :: t) with
        | true => rw [squeeze_cons_of_led space led]
        | false => rw [squeeze_cons_of_space space led, eq, isTrailed_cons_cons]

section Scan

variable {p : Char → Bool}

theorem while_squeeze (same : ∀ c, isSpace c = true → p c = p ' ') (t : Text) :
    (squeeze t).takeWhile p = squeeze (t.takeWhile p) ∧
      (squeeze t).dropWhile p = squeeze (t.dropWhile p) := by
  induction t with
  | nil => exact ⟨rfl, rfl⟩
  | cons c t ih =>
    cases space : isSpace c with
    | false =>
      rw [squeeze_cons_of_solid space]
      cases test : p c with
      | true =>
        simp only [List.takeWhile_cons_of_pos test, List.dropWhile_cons_of_pos test, ih,
          squeeze_cons_of_solid space, and_self]
      | false =>
        simp only [List.takeWhile_cons_of_neg (Bool.eq_false_iff.mp test),
          List.dropWhile_cons_of_neg (Bool.eq_false_iff.mp test), squeeze_nil,
          squeeze_cons_of_solid space, and_self]
    | true =>
      cases led : isLed t with
      | true =>
        obtain ⟨d, u, rfl⟩ : ∃ d u, t = d :: u := by
          cases t with
          | nil => cases led
          | cons d u => exact ⟨d, u, rfl⟩
        rw [squeeze_cons_of_led space led, ih.1, ih.2]
        have next : p d = p c := (same d led).trans (same c space).symm
        cases test : p c with
        | true =>
          rw [test] at next
          rw [List.takeWhile_cons_of_pos test, List.dropWhile_cons_of_pos test,
            List.takeWhile_cons_of_pos next, squeeze_cons_of_led space (isLed_cons d _ ▸ led)]
          exact ⟨rfl, rfl⟩
        | false =>
          rw [test] at next
          rw [List.takeWhile_cons_of_neg (Bool.eq_false_iff.mp test),
            List.dropWhile_cons_of_neg (Bool.eq_false_iff.mp test),
            List.takeWhile_cons_of_neg (Bool.eq_false_iff.mp next),
            List.dropWhile_cons_of_neg (Bool.eq_false_iff.mp next),
            squeeze_cons_of_led space led]
          exact ⟨rfl, rfl⟩
      | false =>
        rw [squeeze_cons_of_space space led]
        have first := (same c space).symm
        cases test : p c with
        | true =>
          rw [test] at first
          have still : isLed (t.takeWhile p) = false := by
            cases t with
            | nil => rfl
            | cons d u =>
              rw [List.takeWhile_cons]
              split
              · exact led
              · rfl
          rw [List.takeWhile_cons_of_pos test, List.dropWhile_cons_of_pos test,
            List.takeWhile_cons_of_pos first, List.dropWhile_cons_of_pos first, ih.1, ih.2,
            squeeze_cons_of_space space still]
          exact ⟨rfl, rfl⟩
        | false =>
          rw [test] at first
          rw [List.takeWhile_cons_of_neg (Bool.eq_false_iff.mp test),
            List.dropWhile_cons_of_neg (Bool.eq_false_iff.mp test),
            List.takeWhile_cons_of_neg (Bool.eq_false_iff.mp first),
            List.dropWhile_cons_of_neg (Bool.eq_false_iff.mp first),
            squeeze_cons_of_space space led]
          exact ⟨rfl, rfl⟩

theorem takeWhile_squeeze (stops : ∀ c, isSpace c = true → p c = false) (t : Text) :
    (squeeze t).takeWhile p = t.takeWhile p := by
  rw [(while_squeeze (fun c hc => (stops c hc).trans (stops ' ' rfl).symm) t).1]
  refine squeeze_of_solid fun c hc => ?_
  rw [← Bool.not_eq_true]
  intro space
  have passed := List.mem_takeWhile_imp hc
  rw [stops c space] at passed
  cases passed

theorem dropWhile_squeeze (stops : ∀ c, isSpace c = true → p c = false) (t : Text) :
    (squeeze t).dropWhile p = squeeze (t.dropWhile p) :=
  (while_squeeze (fun c hc => (stops c hc).trans (stops ' ' rfl).symm) t).2

end Scan

theorem after?_squeeze {p : Text} (solid : ∀ c ∈ p, isSpace c = false) (t : Text) :
    after? p (squeeze t) = (after? p t).map squeeze := by
  induction p generalizing t with
  | nil => rfl
  | cons d p ih =>
    have rest : ∀ c ∈ p, isSpace c = false := fun c hc => solid c (List.mem_cons_of_mem _ hc)
    cases t with
    | nil => rfl
    | cons c t =>
      cases space : isSpace c with
      | false =>
        rw [squeeze_cons_of_solid space, after?, after?]
        split
        · exact ih rest t
        · rfl
      | true =>
        have other {e : Char} (he : isSpace e = true) : d ≠ e :=
          (ne_of_isSpace he (solid d List.mem_cons_self)).symm
        rw [after?, if_neg (other space)]
        have led := isLed_squeeze (c :: t)
        rw [isLed_cons, space] at led
        cases squeezed : squeeze (c :: t) with
        | nil => rfl
        | cons e u =>
          rw [squeezed] at led
          rw [after?, if_neg (other led)]
          rfl

theorem words_cons_of_blank (blank : isBlank c = true) (t : Text) : words (c :: t) = words t := by
  rw [words, if_pos blank]

theorem words_cons_of_solid (solid : isBlank c = false) (t : Text) :
    words (c :: t) =
      if t.head?.all isBlank then [c] :: words t
      else match words t with
        | [] => [[c]]
        | word :: more => (c :: word) :: more := by
  rw [words]
  exact if_neg (Bool.eq_false_iff.mp solid)

theorem words_squeeze (t : Text) : words (squeeze t) = words t := by
  induction t with
  | nil => rfl
  | cons c t ih =>
    cases space : isSpace c with
    | false =>
      have same : (squeeze t).head?.all isBlank = t.head?.all isBlank := by
        cases t with
        | nil => rfl
        | cons d t =>
          cases next : isSpace d with
          | false => rw [squeeze_cons_of_solid next]; rfl
          | true =>
            have led := isLed_squeeze (d :: t)
            rw [isLed_cons, next] at led
            cases squeezed : squeeze (d :: t) with
            | nil => exact (isBlank_of_isSpace next).symm
            | cons e u =>
              rw [squeezed] at led
              exact (isBlank_of_isSpace led).trans (isBlank_of_isSpace next).symm
      cases blank : isBlank c with
      | true =>
        rw [squeeze_cons_of_solid space, words_cons_of_blank blank, words_cons_of_blank blank, ih]
      | false =>
        rw [squeeze_cons_of_solid space, words_cons_of_solid blank, words_cons_of_solid blank, ih,
          same]
    | true =>
      rw [words_cons_of_blank (isBlank_of_isSpace space)]
      cases led : isLed t with
      | true => rw [squeeze_cons_of_led space led, ih]
      | false => rw [squeeze_cons_of_space space led, words_cons_of_blank rfl, ih]

theorem collapse_squeeze (t : Text) : collapse (squeeze t) = collapse t := by
  rw [collapse, words_squeeze, collapse]

theorem words_eq_nil : words t = [] ↔ IsBlankText t := by
  constructor
  · intro none
    rw [← dropBlanks_eq_nil, ← flatten_words, none]
    rfl
  · intro blank
    have none := words_append_right blank []
    rwa [List.nil_append] at none

theorem join_space_cons_cons (w v : Text) (ws : List Text) :
    join " " (w :: v :: ws) = w ++ ' ' :: join " " (v :: ws) := join_cons_cons " " w v ws

theorem join_cons_char (c : Char) (w : Text) (ws : List Text) :
    join " " ((c :: w) :: ws) = c :: join " " (w :: ws) := by
  cases ws with
  | nil => simp [join]
  | cons v ws => rw [join_space_cons_cons, join_space_cons_cons]; rfl

def Spaced (t : Text) : Prop := ∀ c ∈ t, isBlank c = true → isSpace c = true

theorem Spaced.of_subset (spaced : Spaced b) (sub : a ⊆ b) : Spaced a :=
  fun c hc => spaced c (sub hc)

theorem Spaced.cons (spaced : Spaced (c :: t)) : Spaced t :=
  spaced.of_subset (List.subset_cons_self c t)

theorem Spaced.isBlank_eq (spaced : Spaced t) (hc : c ∈ t) : isBlank c = isSpace c := by
  cases space : isSpace c with
  | true => exact isBlank_of_isSpace space
  | false =>
    rw [← Bool.not_eq_true]
    intro blank
    rw [spaced c hc blank] at space
    cases space

theorem isSpace_of_solid {c : Char} (solid : isBlank c = false) : isSpace c = false := by
  rw [← Bool.not_eq_true]
  intro space
  rw [isBlank_of_isSpace space] at solid
  cases solid

theorem Spaced.trimLeft_eq (spaced : Spaced t) : trimLeft t = t.dropWhile isSpace := by
  induction t with
  | nil => rfl
  | cons c t ih =>
    rw [trimLeft, List.dropWhile_cons, List.dropWhile_cons, spaced.isBlank_eq List.mem_cons_self,
      ← ih spaced.cons]
    rfl

theorem squeeze_eq (spaced : Spaced t) (ends : isTrailed t = false) :
    squeeze t = (if isLed t then [' '] else []) ++ collapse t := by
  induction t with
  | nil => rfl
  | cons c t ih =>
    cases t with
    | nil =>
      have space : isSpace c = false := by simpa [isTrailed] using ends
      have solid : isBlank c = false := (spaced.isBlank_eq List.mem_cons_self).trans space
      rw [squeeze_cons_of_solid space, isLed_cons, space, collapse, words_cons_of_solid solid]
      rfl
    | cons d t =>
      rw [isTrailed_cons_cons] at ends
      have more := ih spaced.cons ends
      have words_ne : words (d :: t) ≠ [] := by
        rw [Ne, words_eq_nil]
        intro blank
        have last := List.getLast?_eq_getLast_of_ne_nil (List.cons_ne_nil d t)
        rw [isTrailed, last, Option.any_some] at ends
        have mem := List.getLast_mem (List.cons_ne_nil d t)
        rw [spaced.cons _ mem (blank _ mem)] at ends
        cases ends
      obtain ⟨w, ws, found⟩ := List.exists_cons_of_ne_nil words_ne
      have blank := spaced.isBlank_eq (c := c) List.mem_cons_self
      have next := spaced.isBlank_eq (c := d) (List.mem_cons_of_mem _ List.mem_cons_self)
      cases space : isSpace c with
      | true =>
        have same : collapse (c :: d :: t) = collapse (d :: t) := by
          rw [collapse, words_cons_of_blank (blank.trans space), collapse]
        rw [isLed_cons, space, same, if_pos rfl]
        cases led : isLed (d :: t) with
        | true => rw [squeeze_cons_of_led space led, more, led, if_pos rfl]
        | false =>
          rw [squeeze_cons_of_space space led, more, led, if_neg Bool.false_ne_true]
          rfl
      | false =>
        rw [squeeze_cons_of_solid space, more, isLed_cons, isLed_cons, space,
          if_neg Bool.false_ne_true, List.nil_append, collapse, collapse,
          words_cons_of_solid (blank.trans space), List.head?_cons, Option.all_some, next, found]
        cases isSpace d with
        | true => exact (join_space_cons_cons [c] w ws).symm
        | false => exact (join_cons_char c w ws).symm

theorem collapse_eq_squeeze (spaced : Spaced t) (begins : isLed t = false)
    (ends : isTrailed t = false) : collapse t = squeeze t := by
  rw [squeeze_eq spaced ends, begins]
  rfl

end MarkupGrader.Text
