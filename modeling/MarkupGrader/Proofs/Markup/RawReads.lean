import MarkupGrader.Proofs.Markup.TokenReads

/-! Reading raw text. A scanner looks for the beginning of the end tag. What it remembers is how much
of it is still to come, and a blank makes it start anew, so that raw text may be cut into lines and
indented without an end tag coming up. -/

namespace MarkupGrader.Markup

open Text (isBlank IsBlankText)

variable {d todo begun s t r rest : Text}

/-- What is still to come of the delimiter behind the text; nothing if it has come. -/
def scanRaw (d : Text) : (todo t : Text) → Option Text
  | todo, [] => some todo
  | [], _ :: _ => none
  | x :: more, c :: t =>
    if c.toUpper = x then if more.isEmpty then none else scanRaw d more t else scanRaw d d t

theorem scanRaw_append (todo a b : Text) :
    scanRaw d todo (a ++ b) = (scanRaw d todo a).bind fun next => scanRaw d next b := by
  induction a generalizing todo with
  | nil => cases todo <;> rfl
  | cons c a ih =>
    cases todo with
    | nil => rfl
    | cons x more =>
      rw [List.cons_append, scanRaw, scanRaw]
      split
      · split
        · rfl
        · exact ih more
      · exact ih d

theorem scanRaw_begun (nonempty : todo ≠ []) :
    scanRaw d (Text.upper begun ++ todo) begun = some todo := by
  induction begun with
  | nil => exact scanRaw.eq_1 d todo
  | cons c begun ih =>
    have open_ : (Text.upper begun ++ todo).isEmpty = false := by
      rw [List.isEmpty_eq_false_iff]
      exact List.append_ne_nil_of_right_ne_nil _ nonempty
    have whole : Text.upper (c :: begun) ++ todo = c.toUpper :: (Text.upper begun ++ todo) := rfl
    rw [whole, scanRaw, if_pos rfl, open_, if_neg Bool.false_ne_true, ih]

theorem scanRaw_of_splitRaw? (h : splitRaw? d todo begun s = some (t, rest))
    (nonempty : d ≠ []) (open_ : todo ≠ []) (whole : Text.upper begun ++ todo = d) :
    scanRaw d d t = some d ∧ ∃ b r, rest = b ++ r ∧ Text.upper b = d := by
  induction s generalizing todo begun t with
  | nil => cases h
  | cons c s ih =>
    unfold splitRaw? at h
    split at h
    · exact absurd rfl open_
    · next x more =>
      split at h
      · next same =>
        have longer : Text.upper (begun ++ [c]) ++ more = d := by
          rw [← whole, ← same]
          simp [Text.upper]
        split at h
        · next last =>
          cases h
          rw [List.isEmpty_iff.mp last, List.append_nil] at longer
          exact ⟨by cases d <;> rfl, begun ++ [c], s, by simp, longer⟩
        · next more_ => exact ih h (by simpa using more_) longer
      · next other =>
        obtain ⟨⟨u, v⟩, found, eq⟩ := Option.map_eq_some_iff.mp h
        cases eq
        obtain ⟨scanned, ends⟩ := ih found nonempty rfl
        refine ⟨?_, ends⟩
        have front := @scanRaw_begun d _ begun open_
        rw [whole] at front
        rw [scanRaw_append, front, Option.bind_some, scanRaw, if_neg other, scanned]

theorem splitRaw?_delimiter {b : Text} (d begun : Text) (nonempty : b ≠ []) (r : Text) :
    splitRaw? d (Text.upper b) begun (b ++ r) = some ([], begun ++ (b ++ r)) := by
  induction b generalizing begun with
  | nil => exact absurd rfl nonempty
  | cons c b ih =>
    have whole : Text.upper (c :: b) = c.toUpper :: Text.upper b := rfl
    rw [whole, List.cons_append, splitRaw?, if_pos rfl]
    cases b with
    | nil => rfl
    | cons e b =>
      have more : (Text.upper (e :: b)).isEmpty = false := rfl
      rw [more, if_neg Bool.false_ne_true, ih _ (List.cons_ne_nil e b)]
      simp

theorem splitRaw?_of_scanRaw {b : Text} (h : scanRaw d todo t = some d) (nonempty : d ≠ [])
    (ends : Text.upper b = d) (whole : Text.upper begun ++ todo = d) (r : Text) :
    splitRaw? d todo begun (t ++ (b ++ r)) = some (begun ++ t, b ++ r) := by
  have open_ : b ≠ [] := by
    rintro rfl
    exact nonempty ends.symm
  induction t generalizing todo begun with
  | nil =>
    rw [scanRaw] at h
    cases h
    obtain rfl : begun = [] := by
      have size := congrArg List.length whole
      rw [List.length_append, Text.upper, List.length_map] at size
      exact List.length_eq_zero_iff.mp (by omega)
    have found := splitRaw?_delimiter d [] open_ r
    rwa [ends] at found
  | cons c t ih =>
    cases todo with
    | nil => cases h
    | cons x more =>
      rw [scanRaw] at h
      rw [List.cons_append, splitRaw?]
      split at h
      · next same =>
        have longer : Text.upper (begun ++ [c]) ++ more = d := by
          rw [← whole, ← same]
          simp [Text.upper]
        split at h
        · cases h
        · next last =>
          rw [if_pos same, if_neg last, ih h longer]
          simp
      · next other =>
        rw [if_neg other, ih h rfl]
        simp

abbrev IsSolid (d : Text) : Prop := ∀ c ∈ d, isBlank c = false

theorem toUpper_of_isBlank {c : Char} (h : isBlank c = true) : c.toUpper = c := by
  unfold Char.toUpper
  split
  · next lower =>
    have low : 97 ≤ c.toNat := lower.1
    have high : c.toNat ≤ 122 := lower.2
    simp only [isBlank, Bool.or_eq_true, Bool.and_eq_true, decide_eq_true_eq, beq_iff_eq] at h
    omega
  · rfl

theorem scanRaw_suffix (h : scanRaw d todo t = some rest) (nonempty : d ≠ [])
    (part : todo ≠ [] ∧ todo <:+ d) : rest ≠ [] ∧ rest <:+ d := by
  induction t generalizing todo with
  | nil =>
    rw [scanRaw] at h
    cases h
    exact part
  | cons c t ih =>
    cases todo with
    | nil => cases h
    | cons x more =>
      rw [scanRaw] at h
      split at h
      · split at h
        · cases h
        · next open_ =>
          exact ih h ⟨by simpa using open_, (List.suffix_cons x more).trans part.2⟩
      · exact ih h ⟨nonempty, List.suffix_rfl⟩

theorem scanRaw_blanks (solid : IsSolid d) (nonempty : d ≠ []) (blank : IsBlankText t)
    (some_ : t ≠ []) (part : todo ≠ [] ∧ todo <:+ d) : scanRaw d todo t = some d := by
  induction t generalizing todo with
  | nil => exact absurd rfl some_
  | cons c t ih =>
    obtain ⟨x, more, rfl⟩ := List.exists_cons_of_ne_nil part.1
    rw [Text.isBlankText_cons] at blank
    have other : c.toUpper ≠ x := by
      rintro rfl
      have outside := solid _ (part.2.subset List.mem_cons_self)
      rw [toUpper_of_isBlank blank.1, blank.1] at outside
      cases outside
    rw [scanRaw, if_neg other]
    cases t with
    | nil => cases d <;> rfl
    | cons e t => exact ih blank.2 (List.cons_ne_nil e t) ⟨nonempty, List.suffix_rfl⟩

/-- A piece of the text behind a blank is scanned as if it stood alone, and brings up no delimiter. -/
theorem scanRaw_piece {a b c : Text} (solid : IsSolid d) (nonempty : d ≠ [])
    (h : scanRaw d d (a ++ (b ++ c)) = some rest) (behind : ∀ x ∈ a.getLast?, isBlank x = true) :
    ∃ next, scanRaw d d b = some next := by
  have start : scanRaw d d a = some d := by
    rw [scanRaw_append] at h
    obtain ⟨next, first, -⟩ := Option.bind_eq_some_iff.mp h
    cases last : a.getLast? with
    | none =>
      rw [List.getLast?_eq_none_iff.mp last]
      cases d <;> rfl
    | some x =>
      obtain ⟨front, rfl⟩ := List.getLast?_eq_some_iff.mp last
      rw [scanRaw_append] at first ⊢
      obtain ⟨before, scanned, -⟩ := Option.bind_eq_some_iff.mp first
      have part := scanRaw_suffix scanned nonempty ⟨nonempty, List.suffix_rfl⟩
      have blank : IsBlankText [x] := by
        rw [Text.isBlankText_cons]
        exact ⟨behind x last, Text.isBlankText_nil⟩
      rw [scanned, Option.bind_some, scanRaw_blanks solid nonempty blank (List.cons_ne_nil _ _) part]
  rw [scanRaw_append, start, Option.bind_some, scanRaw_append] at h
  obtain ⟨next, found, -⟩ := Option.bind_eq_some_iff.mp h
  exact ⟨next, found⟩

def rawDelimiter (key : Text) : Text := "</" ++ key

theorem rawDelimiter_ne_nil (key : Text) : rawDelimiter key ≠ [] := List.cons_ne_nil _ _

theorem isSolid_rawDelimiter {key : Text} (h : isRawKey key = true) :
    IsSolid (rawDelimiter key) := by
  simp only [isRawKey, Bool.or_eq_true, beq_iff_eq] at h
  have all : (rawDelimiter key).all (fun c => !isBlank c) = true := by
    rcases h with rfl | rfl <;> rfl
  intro c hc
  simpa using List.all_eq_true.mp all c hc

theorem eq_of_toUpper_eq {c e : Char} (h : c.toUpper = e) (low : e.toNat < 65) : c = e := by
  unfold Char.toUpper at h
  split at h
  · next lower =>
    have first : 97 ≤ c.val.toNat := lower.1
    have last : c.val.toNat ≤ 122 := lower.2
    have value := congrArg Char.toNat h
    have sum : (c.val + ('A'.val - 'a'.val)).toNat = e.toNat := value
    rw [UInt32.toNat_add, show ('A'.val - 'a'.val).toNat = 4294967264 from rfl] at sum
    omega
  · exact h

theorem scanRaw_of_readRaw? {key : Text} (h : readRaw? key s = some (t, rest)) :
    scanRaw (rawDelimiter key) (rawDelimiter key) t = some (rawDelimiter key) ∧
      ∃ r, rest = '<' :: '/' :: r := by
  obtain ⟨scanned, b, r, rfl, ends⟩ := @scanRaw_of_splitRaw? (rawDelimiter key) _ [] s t rest h
    (rawDelimiter_ne_nil key) (rawDelimiter_ne_nil key) rfl
  refine ⟨scanned, ?_⟩
  have split : Text.upper b = '<' :: '/' :: key := ends
  cases b with
  | nil => exact absurd split.symm (List.cons_ne_nil _ _)
  | cons c b =>
    injection split with first split
    cases b with
    | nil => exact absurd split.symm (List.cons_ne_nil _ _)
    | cons e b =>
      injection split with second
      obtain rfl := eq_of_toUpper_eq first (by decide)
      obtain rfl := eq_of_toUpper_eq second (by decide)
      exact ⟨b ++ r, rfl⟩

theorem readRaw?_of_scanRaw {key name : Text} (upper : Text.upper name = key)
    (h : scanRaw (rawDelimiter key) (rawDelimiter key) t = some (rawDelimiter key)) (r : Text) :
    readRaw? key (t ++ ('<' :: '/' :: (name ++ r))) = some (t, '<' :: '/' :: (name ++ r)) := by
  have ends : Text.upper ("</" ++ name) = rawDelimiter key := by
    rw [← upper]
    rfl
  exact @splitRaw?_of_scanRaw _ _ [] _ _ h (rawDelimiter_ne_nil key) ends rfl r

end MarkupGrader.Markup
