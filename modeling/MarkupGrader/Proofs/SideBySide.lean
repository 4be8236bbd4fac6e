import Mathlib

/-! Lists side by side. Entries in the same places are related, and what is found, ordered or picked
out on one side is on the other as well. -/

namespace MarkupGrader

variable {α β : Type} {r : α → β → Prop} {p : α → Bool} {q : β → Bool} {as : List α} {bs : List β}

theorem rel_find? (same : ∀ a b, r a b → p a = q b) (h : List.Forall₂ r as bs) :
    Option.Rel r (as.find? p) (bs.find? q) := by
  induction h with
  | nil => exact .none
  | @cons a b as bs first _ ih =>
    rw [List.find?_cons, List.find?_cons, same a b first]
    cases q b with
    | true => exact .some first
    | false => exact ih

theorem forall₂_of_zip (size : as.length = bs.length) (each : ∀ pair ∈ as.zip bs, r pair.1 pair.2) :
    List.Forall₂ r as bs :=
  List.forall₂_iff_zip.mpr ⟨size, fun mem => each _ mem⟩

theorem all_eq_of_forall₂ (h : List.Forall₂ (fun a b => p a = q b) as bs) : as.all p = bs.all q := by
  induction h with
  | nil => rfl
  | cons first _ ih => rw [List.all_cons, List.all_cons, first, ih]

theorem any_eq_of_forall₂ (h : List.Forall₂ (fun a b => p a = q b) as bs) : as.any p = bs.any q := by
  induction h with
  | nil => rfl
  | cons first _ ih => rw [List.any_cons, List.any_cons, first, ih]

theorem find?_of_forall₂ (same : ∀ a b, r a b → q b = p a) (h : List.Forall₂ r as bs) {a : α}
    (found : as.find? p = some a) : ∃ b, bs.find? q = some b ∧ r a b := by
  have both := rel_find? (fun a b related => (same a b related).symm) h
  rw [found] at both
  generalize bs.find? q = other at both
  cases both with
  | some related => exact ⟨_, rfl, related⟩

theorem exists_left_of_mem (h : List.Forall₂ r as bs) {b : β} (mem : b ∈ bs) : ∃ a ∈ as, r a b := by
  induction h with
  | nil => cases mem
  | @cons a _ as bs first _ ih =>
    rcases List.mem_cons.mp mem with rfl | mem
    · exact ⟨a, List.mem_cons_self, first⟩
    · obtain ⟨partner, inside, related⟩ := ih mem
      exact ⟨partner, List.mem_cons_of_mem a inside, related⟩

theorem pairwise_of_forall₂ {s : β → β → Prop} {t : α → α → Prop}
    (transfer : ∀ a b a' b', r a b → r a' b' → s b b' → t a a') (h : List.Forall₂ r as bs)
    (ordered : bs.Pairwise s) : as.Pairwise t := by
  rw [List.pairwise_iff_getElem] at ordered ⊢
  intro i j hi hj lt
  have same := h.length_eq
  exact transfer _ _ _ _ (h.get hi (same ▸ hi)) (h.get hj (same ▸ hj)) (ordered i j _ _ lt)

theorem forall₂_zip_left (h : List.Forall₂ r as bs) :
    List.Forall₂ (fun pair b => pair.1 = b ∧ r pair.2 b) (bs.zip as) bs := by
  induction h with
  | nil => exact .nil
  | cons first _ ih => exact .cons ⟨rfl, first⟩ ih

theorem forall₂_filter_zip (h : List.Forall₂ r as bs) (q : β → Bool) :
    List.Forall₂ r (((bs.zip as).filter fun pair => q pair.1).map Prod.snd) (bs.filter q) := by
  rw [List.forall₂_map_left_iff]
  refine List.Forall₂.imp (fun _ _ pair => pair.2) (List.rel_filter ?_ (forall₂_zip_left h))
  rintro _ _ ⟨rfl, -⟩
  exact Iff.rfl

theorem sublist_filter_zip (bs : List β) (as : List α) (q : β → Bool) :
    (((bs.zip as).filter fun pair => q pair.1).map Prod.snd).Sublist as := by
  induction bs generalizing as with
  | nil => exact List.nil_sublist as
  | cons b bs ih =>
    cases as with
    | nil => exact List.nil_sublist []
    | cons a as =>
      rw [List.zip_cons_cons, List.filter_cons]
      cases q b with
      | true => exact (ih as).cons_cons a
      | false => exact (ih as).cons a

theorem exists_count_filter_zip [DecidableEq α] (h : List.Forall₂ r as bs) (once : as.Nodup) {a : α}
    (mem : a ∈ as) : ∃ b ∈ bs, r a b ∧ ∀ q : β → Bool,
      (((bs.zip as).filter fun pair => q pair.1).map Prod.snd).count a = if q b then 1 else 0 := by
  induction h with
  | nil => cases mem
  | @cons own b as bs first _ ih =>
    obtain ⟨fresh, others⟩ := List.nodup_cons.mp once
    rcases List.mem_cons.mp mem with rfl | mem
    · refine ⟨b, List.mem_cons_self, first, fun q => ?_⟩
      have later : (((bs.zip as).filter fun pair => q pair.1).map Prod.snd).count a = 0 :=
        List.count_eq_zero_of_not_mem fun found => fresh ((sublist_filter_zip bs as q).subset found)
      rw [List.zip_cons_cons, List.filter_cons]
      cases q b with
      | true => simpa using later
      | false => simpa using later
    · obtain ⟨partner, inside, related, count⟩ := ih others mem
      refine ⟨partner, List.mem_cons_of_mem b inside, related, fun q => ?_⟩
      have other : own ≠ a := fun same => fresh (same ▸ mem)
      rw [List.zip_cons_cons, List.filter_cons, ← count q]
      cases q b with
      | true => simp [List.count_cons_of_ne other]
      | false => rfl

end MarkupGrader
