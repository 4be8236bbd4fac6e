import Mathlib
import MarkupGrader.Text.Blank
import MarkupGrader.Text.Bytes
import MarkupGrader.Text.Units

/-! The character zero ends a text wherever texts are passed as units, so what is passed whole are
the texts without it. They are closed under all that is done with pieces of a source. -/

namespace MarkupGrader

/-- The character that ends a text in a buffer. -/
def Text.zero : Char := Char.ofNat 0

abbrev Text.ZeroFree (t : Text) : Prop := Text.zero ∉ t

namespace Text

@[simp] theorem toUnits_nil : toUnits [] = [] := rfl

@[simp] theorem toUnits_cons (c : Char) (t : Text) : toUnits (c :: t) = charUnits c ++ toUnits t :=
  List.flatMap_cons

theorem charUnits_zero : charUnits zero = [0] := by decide

theorem zero_notMem_charUnits {c : Char} (h : c ≠ zero) : 0 ∉ charUnits c := by
  have range := toNat_lt_surrogates_or c
  have nonzero : c.toNat ≠ 0 := fun eq => h (Char.ext (UInt32.toNat_inj.mp eq))
  unfold charUnits
  simp only
  -- In the basic plane the unit is the character itself, and beyond it both units are surrogates.
  split
  · rw [List.mem_singleton, ← UInt16.toNat_inj]
    simp only [UInt16.toNat_zero, Nat.toUInt16_eq, UInt16.toNat_ofNat']
    omega
  · simp only [List.mem_cons, List.not_mem_nil, or_false, ← UInt16.toNat_inj, UInt16.toNat_zero,
      Nat.toUInt16_eq, UInt16.toNat_ofNat']
    omega

theorem takeWhile_append_zero (units rest : Units) :
    (units ++ 0 :: rest).takeWhile (· != 0) = units.takeWhile (· != 0) := by
  induction units with
  | nil => rfl
  | cons u units ih => rw [List.cons_append, List.takeWhile_cons, List.takeWhile_cons, ih]

theorem takeWhile_toUnits (t : Text) :
    (toUnits t).takeWhile (· != 0) = toUnits (t.takeWhile (· != zero)) := by
  induction t with
  | nil => rfl
  | cons c t ih =>
    by_cases h : c = zero
    · subst h
      simp [charUnits_zero]
    · have clear : ∀ u ∈ charUnits c, (u != 0) = true := by
        intro u hu
        have : u ≠ 0 := fun eq => zero_notMem_charUnits h (eq ▸ hu)
        simpa using this
      rw [toUnits_cons, List.takeWhile_append_of_pos clear, ih]
      simp [h]

theorem takeWhile_eq_self_iff {t : Text} : t.takeWhile (· != zero) = t ↔ t.ZeroFree := by
  rw [List.takeWhile_eq_self_iff]
  constructor
  · intro whole mem
    simpa using whole zero mem
  · intro free c mem
    have : c ≠ zero := fun eq => free (eq ▸ mem)
    simpa using this

theorem takeWhile_of_zeroFree {t : Text} (h : t.ZeroFree) : t.takeWhile (· != zero) = t :=
  takeWhile_eq_self_iff.mpr h

theorem zeroFree_of_prefix {p t : Text} (sub : p <+: t) (h : t.ZeroFree) : p.ZeroFree :=
  fun hp => h (sub.subset hp)

theorem zeroFree_of_subset {a b : Text} (sub : a ⊆ b) (h : b.ZeroFree) : a.ZeroFree :=
  fun ha => h (sub ha)

@[simp] theorem zeroFree_append {a b : Text} :
    ZeroFree (a ++ b) ↔ a.ZeroFree ∧ b.ZeroFree := by
  simp only [ZeroFree, List.mem_append, not_or]

theorem zeroFree_flatMap {α : Type} {f : α → Text} {as : List α}
    (h : ∀ a ∈ as, (f a).ZeroFree) : ZeroFree (as.flatMap f) := by
  intro mem
  obtain ⟨a, ha, mem⟩ := List.mem_flatMap.mp mem
  exact h a ha mem

theorem zeroFree_join {separator : Text} (free : separator.ZeroFree) {parts : List Text}
    (h : ∀ p ∈ parts, p.ZeroFree) : (join separator parts).ZeroFree := by
  have between : ∀ c ∈ separator, c ≠ zero := fun c hc eq => free (eq ▸ hc)
  have each : ∀ p ∈ parts, ∀ c ∈ p, c ≠ zero := fun p hp c hc eq => h p hp (eq ▸ hc)
  exact fun mem => forall_mem_join between each zero mem rfl

theorem toLower_ne_zero {c : Char} (h : c ≠ zero) : c.toLower ≠ zero := by
  unfold Char.toLower
  split
  · next upper =>
    intro eq
    have value : (c.val + 32).toNat = 0 := congrArg Char.toNat eq
    have low : 65 ≤ c.val.toNat := upper.1
    have high : c.val.toNat ≤ 90 := upper.2
    rw [UInt32.toNat_add] at value
    have step : (32 : UInt32).toNat = 32 := rfl
    omega
  · exact h

theorem zeroFree_lower {t : Text} (h : t.ZeroFree) : t.lower.ZeroFree := by
  intro mem
  obtain ⟨c, hc, eq⟩ := List.mem_map.mp mem
  exact toLower_ne_zero (fun zero => h (zero ▸ hc)) eq

theorem zeroFree_ofNat (n : Nat) : (ofNat n).ZeroFree := by
  intro mem
  have := Nat.isDigit_of_mem_toDigits (by decide) (by decide) mem
  simp [zero, Char.isDigit] at this

theorem dropBytes_subset (n : Nat) (t : Text) : dropBytes n t ⊆ t := by
  induction t generalizing n with
  | nil => simp [dropBytes]
  | cons c t ih =>
    simp only [dropBytes]
    split
    · exact List.Subset.refl _
    · exact List.subset_cons_of_subset _ (ih _)

theorem takeBytes_subset (n : Nat) (t : Text) : takeBytes n t ⊆ t := by
  induction t generalizing n with
  | nil => simp [takeBytes]
  | cons c t ih =>
    simp only [takeBytes]
    split
    · exact List.nil_subset _
    · exact List.cons_subset_cons _ (ih _)

theorem zeroFree_slice {t : Text} (h : t.ZeroFree) (span : Span) : (slice t span).ZeroFree :=
  zeroFree_of_subset (List.Subset.trans (takeBytes_subset _ _) (dropBytes_subset _ _)) h

theorem trim_subset (t : Text) : trim t ⊆ t := by
  intro c hc
  have inner := (List.dropWhile_sublist isBlank).subset (List.mem_reverse.mp hc)
  exact (List.dropWhile_sublist isBlank).subset (List.mem_reverse.mp inner)

end Text
end MarkupGrader
