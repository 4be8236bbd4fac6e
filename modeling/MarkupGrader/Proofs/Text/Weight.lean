import Mathlib
import MarkupGrader.Text.Basic

/-! Texts that are joined are told apart again by their lengths. Where none of them is longer than
the other in its place, the joined texts can be the same only if all of them are. -/

namespace MarkupGrader

namespace Text

def weight (parts : List Text) : Nat := (parts.map fun t => t.length + 1).sum

theorem weight_cons (t : Text) (parts : List Text) :
    weight (t :: parts) = t.length + 1 + weight parts := rfl

theorem length_join (separator : Char) {parts : List Text} (nonempty : parts ≠ []) :
    (join [separator] parts).length + 1 = weight parts := by
  induction parts with
  | nil => exact absurd rfl nonempty
  | cons t rest ih =>
    cases rest with
    | nil => rw [join_singleton]; rfl
    | cons second more =>
      have tail := ih (List.cons_ne_nil _ _)
      rw [join_cons_cons, List.length_append, List.length_append, List.length_singleton, weight_cons]
      omega

/-- Each text is at most as long as the other in its place. -/
abbrev Shorter (as bs : List Text) : Prop := List.Forall₂ (fun a b => a.length ≤ b.length) as bs

variable {as bs : List Text}

theorem Shorter.weight_le (h : Shorter as bs) : weight as ≤ weight bs := by
  induction h with
  | nil => exact Nat.le_refl _
  | cons own _ ih =>
    rw [weight_cons, weight_cons]
    omega

theorem Shorter.same_lengths (h : Shorter as bs) (total : weight bs ≤ weight as) :
    List.Forall₂ (fun a b => a.length = b.length) as bs := by
  induction h with
  | nil => exact .nil
  | cons own others ih =>
    have rest := Shorter.weight_le others
    rw [weight_cons, weight_cons] at total
    exact .cons (by omega) (ih (by omega))

theorem eq_of_weight_le
    (h : List.Forall₂ (fun a b => a.length ≤ b.length ∧ (a.length = b.length → a = b)) as bs)
    (total : weight bs ≤ weight as) : as = bs := by
  induction h with
  | nil => rfl
  | cons own others ih =>
    have rest := Shorter.weight_le (others.imp fun _ _ both => both.1)
    rw [weight_cons, weight_cons] at total
    have below := own.1
    rw [own.2 (by omega), ih (by omega)]

theorem eq_of_join_eq {separator : Text} (lengths : List.Forall₂ (fun a b => a.length = b.length) as bs)
    (same : join separator as = join separator bs) : as = bs := by
  induction lengths with
  | nil => rfl
  | @cons a b as bs own others ih =>
    cases others with
    | nil => rw [join_singleton, join_singleton] at same; rw [same]
    | cons _ _ =>
      rw [join_cons_cons, join_cons_cons] at same
      obtain ⟨rfl, rest⟩ := List.append_inj same own
      rw [ih (List.append_cancel_left rest)]

theorem Shorter.eq_of_join_eq {separator : Char} (h : Shorter as bs)
    (same : join [separator] as = join [separator] bs) : as = bs := by
  refine Text.eq_of_join_eq (h.same_lengths ?_) same
  cases h with
  | nil => exact Nat.le_refl _
  | cons _ _ =>
    rw [← length_join separator (List.cons_ne_nil _ _), ← length_join separator (List.cons_ne_nil _ _),
      same]

end Text

theorem eq_of_sublist_of_sum {α : Type} {f : α → Nat} (positive : ∀ a, 0 < f a) {as bs : List α}
    (h : as.Sublist bs) (total : (bs.map f).sum ≤ (as.map f).sum) : as = bs := by
  induction h with
  | slnil => rfl
  | @cons as bs b h ih =>
    have part := (h.map f).sum_le_sum (fun _ _ => Nat.zero_le _)
    have own := positive b
    rw [List.map_cons, List.sum_cons] at total
    omega
  | @cons_cons as bs a h ih =>
    rw [List.map_cons, List.map_cons, List.sum_cons, List.sum_cons] at total
    rw [ih (by omega)]

theorem sum_le_of_subset {α : Type} (f : α → Nat) {as bs : List α} (distinct : as.Nodup)
    (sub : as ⊆ bs) : (as.map f).sum ≤ (bs.map f).sum := by
  obtain ⟨cs, perm, part⟩ := distinct.subperm sub
  rw [← (perm.map f).sum_eq]
  exact (part.map f).sum_le_sum fun _ _ => Nat.zero_le _

/-- Distinct entries of a list that sum up to as much as the list are all of it. -/
theorem perm_of_subset_of_sum {α : Type} {f : α → Nat} (positive : ∀ a, 0 < f a) {as bs : List α}
    (distinct : as.Nodup) (sub : as ⊆ bs) (total : (bs.map f).sum ≤ (as.map f).sum) : as.Perm bs := by
  obtain ⟨cs, perm, part⟩ := distinct.subperm sub
  rw [← (perm.map f).sum_eq] at total
  rw [← eq_of_sublist_of_sum positive part total]
  exact perm.symm

end MarkupGrader
