import Mathlib
import MarkupGrader.Text.Cut

/-! What can be cut out of a text: what lies between two of its boundaries, in their order. -/

namespace MarkupGrader.Text

variable {t : Text} {n : Nat} {span : Span}

theorem isBoundary_iff : t.isBoundary n = true ↔ t.IsBoundary n := by
  induction t generalizing n with
  | nil =>
    cases n with
    | zero => exact iff_of_true rfl ⟨0, rfl⟩
    | succ n => exact iff_of_false Bool.false_ne_true fun ⟨k, eq⟩ => by simp [byteLength] at eq
  | cons c rest ih =>
    cases n with
    | zero => exact iff_of_true rfl ⟨0, rfl⟩
    | succ n =>
      rw [isBoundary, Bool.and_eq_true, decide_eq_true_eq, ih]
      constructor
      · rintro ⟨fits, k, eq⟩
        refine ⟨k + 1, ?_⟩
        rw [List.take_succ_cons, byteLength]
        omega
      · rintro ⟨k, eq⟩
        cases k with
        | zero => cases eq
        | succ k =>
          rw [List.take_succ_cons, byteLength] at eq
          exact ⟨by omega, k, by omega⟩

instance : DecidablePred t.IsBoundary := fun _ => decidable_of_iff _ isBoundary_iff

theorem IsBoundary.le (h : t.IsBoundary n) : n ≤ t.byteLength := by
  obtain ⟨k, rfl⟩ := h
  have whole := byteLength_append (t.take k) (t.drop k)
  rw [List.take_append_drop] at whole
  omega

theorem cut_eq_ok_iff {u : Text} : t.cut span = .ok u ↔
    (span.start ≤ span.stop ∧ span.stop ≤ t.byteLength ∧ t.IsBoundary span.start ∧
      t.IsBoundary span.stop) ∧ t.slice span = u := by
  rw [cut, ← isBoundary_iff, ← isBoundary_iff]
  split
  · next fits => simp [fits]
  · next unfit => simp [unfit]

theorem cut_of_isBoundary (forward : span.start ≤ span.stop) (start : t.IsBoundary span.start)
    (stop : t.IsBoundary span.stop) : t.cut span = .ok (t.slice span) :=
  cut_eq_ok_iff.mpr ⟨⟨forward, stop.le, start, stop⟩, rfl⟩

end MarkupGrader.Text
