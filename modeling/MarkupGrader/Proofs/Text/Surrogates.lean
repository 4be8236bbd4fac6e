import MarkupGrader.Proofs.Text.ZeroFree

/-! The texts among the rows of units. A row of units is read as a text unless one of its surrogates
is half of no pair, and the text that is read has these units for its form. -/

namespace MarkupGrader.Text

variable {u v w : UInt16} {units before behind rest : Units} {t : Text}

/-- A surrogate that makes no pair with the unit it would need on its other side. -/
def IsLone (before : Units) (u : UInt16) (behind : Units) : Prop :=
  (isHighSurrogate u = true ∧ ∀ v ∈ behind.head?, isLowSurrogate v = false) ∨
    (isLowSurrogate u = true ∧ ∀ v ∈ before.getLast?, isHighSurrogate v = false)

def HasLoneSurrogate (units : Units) : Prop :=
  ∃ before u behind, units = before ++ u :: behind ∧ IsLone before u behind

theorem not_isLow_of_isHigh (high : isHighSurrogate u = true) : isLowSurrogate u = false := by
  rw [← Bool.not_eq_true, isLowSurrogate_iff]
  rw [isHighSurrogate_iff] at high
  omega

theorem not_hasLoneSurrogate_nil : ¬ HasLoneSurrogate [] := by
  rintro ⟨before, u, behind, eq, -⟩
  exact List.cons_ne_nil u behind (List.append_eq_nil_iff.mp eq.symm).2

theorem isLone_cons (single : isHighSurrogate u = false) :
    IsLone (u :: before) w behind ↔ IsLone before w behind := by
  cases before with
  | nil => simp [IsLone, single]
  | cons x before => rw [IsLone, IsLone, List.getLast?_cons_cons]

theorem isLone_cons_cons : IsLone (u :: v :: before) w behind ↔ IsLone (v :: before) w behind := by
  rw [IsLone, IsLone, List.getLast?_cons_cons]

theorem HasLoneSurrogate.cons (single : isHighSurrogate u = false) (h : HasLoneSurrogate rest) :
    HasLoneSurrogate (u :: rest) := by
  obtain ⟨before, w, behind, rfl, lone⟩ := h
  exact ⟨u :: before, w, behind, rfl, (isLone_cons single).mpr lone⟩

theorem hasLoneSurrogate_of_high (high : isHighSurrogate u = true)
    (none : ∀ v ∈ rest.head?, isLowSurrogate v = false) : HasLoneSurrogate (u :: rest) :=
  ⟨[], u, rest, rfl, .inl ⟨high, none⟩⟩

theorem hasLoneSurrogate_of_low (low : isLowSurrogate u = true) : HasLoneSurrogate (u :: rest) :=
  ⟨[], u, rest, rfl, .inr ⟨low, by simp⟩⟩

theorem hasLoneSurrogate_cons (high : isHighSurrogate u = false) (low : isLowSurrogate u = false) :
    HasLoneSurrogate (u :: rest) ↔ HasLoneSurrogate rest := by
  constructor
  · rintro ⟨before, w, behind, eq, lone⟩
    cases before with
    | nil =>
      obtain ⟨rfl, rfl⟩ := List.cons.inj eq
      rcases lone with ⟨own, -⟩ | ⟨own, -⟩
      · exact absurd (high.symm.trans own) Bool.false_ne_true
      · exact absurd (low.symm.trans own) Bool.false_ne_true
    | cons x before =>
      obtain ⟨rfl, rfl⟩ := List.cons.inj eq
      exact ⟨before, w, behind, rfl, (isLone_cons high).mp lone⟩
  · exact HasLoneSurrogate.cons high

theorem hasLoneSurrogate_pair (high : isHighSurrogate u = true) (low : isLowSurrogate v = true) :
    HasLoneSurrogate (u :: v :: rest) ↔ HasLoneSurrogate rest := by
  have notHigh : isHighSurrogate v = false := by
    rw [← Bool.not_eq_true]
    intro both
    exact absurd ((not_isLow_of_isHigh both).symm.trans low) Bool.false_ne_true
  constructor
  -- Neither half of the pair is lone, so that what is lone stands behind both.
  · rintro ⟨before, w, behind, eq, lone⟩
    match before with
    | [] =>
      obtain ⟨rfl, rfl⟩ := List.cons.inj eq
      rcases lone with ⟨-, none⟩ | ⟨own, -⟩
      · exact absurd ((none v rfl).symm.trans low) Bool.false_ne_true
      · exact absurd ((not_isLow_of_isHigh high).symm.trans own) Bool.false_ne_true
    | [x] =>
      obtain ⟨rfl, others⟩ := List.cons.inj eq
      obtain ⟨rfl, rfl⟩ := List.cons.inj others
      rcases lone with ⟨own, -⟩ | ⟨-, none⟩
      · exact absurd (notHigh.symm.trans own) Bool.false_ne_true
      · exact absurd ((none u rfl).symm.trans high) Bool.false_ne_true
    | x :: y :: before =>
      obtain ⟨rfl, others⟩ := List.cons.inj eq
      obtain ⟨rfl, rfl⟩ := List.cons.inj others
      exact ⟨before, w, behind, rfl, (isLone_cons notHigh).mp (isLone_cons_cons.mp lone)⟩
  · rintro ⟨before, w, behind, rfl, lone⟩
    exact ⟨u :: v :: before, w, behind, rfl, isLone_cons_cons.mpr ((isLone_cons notHigh).mpr lone)⟩

theorem ofUnits?_eq_none_iff (units : Units) : ofUnits? units = none ↔ HasLoneSurrogate units := by
  fun_induction ofUnits? units with
  | case1 => simp [not_hasLoneSurrogate_nil]
  | case2 u surrogate =>
    rw [Bool.or_eq_true] at surrogate
    refine iff_of_true rfl ?_
    rcases surrogate with high | low
    · exact hasLoneSurrogate_of_high high (by simp)
    · exact hasLoneSurrogate_of_low low
  | case3 u plain =>
    rw [Bool.not_eq_true, Bool.or_eq_false_iff] at plain
    rw [hasLoneSurrogate_cons plain.1 plain.2]
    simp [not_hasLoneSurrogate_nil]
  | case4 u v rest high low ih => rw [Option.map_eq_none_iff, ih, hasLoneSurrogate_pair high low]
  | case5 u v rest high other =>
    refine iff_of_true rfl (hasLoneSurrogate_of_high high fun x hx => ?_)
    obtain rfl : v = x := Option.some.inj hx
    exact Bool.eq_false_iff.mpr other
  | case6 u v rest _ low => exact iff_of_true rfl (hasLoneSurrogate_of_low low)
  | case7 u v rest high low ih =>
    rw [Option.map_eq_none_iff, ih,
      hasLoneSurrogate_cons (Bool.eq_false_iff.mpr high) (Bool.eq_false_iff.mpr low)]

theorem not_hasLoneSurrogate_toUnits (t : Text) : ¬ HasLoneSurrogate (toUnits t) := by
  rw [← ofUnits?_eq_none_iff, ofUnits?_toUnits]
  exact Option.some_ne_none t

theorem charUnits_ne_nil (c : Char) : charUnits c ≠ [] := by
  simp only [charUnits]
  split
  · exact List.cons_ne_nil _ _
  · exact List.cons_ne_nil _ _

theorem charUnits_ofNat (high : isHighSurrogate u = false) (low : isLowSurrogate u = false) :
    charUnits (Char.ofNat u.toNat) = [u] := by
  have bound := u.toNat_lt
  have plain : u.toNat < 0xD800 ∨ 0xE000 ≤ u.toNat := by
    rw [← Bool.not_eq_true, isHighSurrogate_iff] at high
    rw [← Bool.not_eq_true, isLowSurrogate_iff] at low
    omega
  have valid : u.toNat.isValidChar := by
    rw [Nat.isValidChar]
    omega
  have value : (Char.ofNat u.toNat).toNat = u.toNat := by rw [Char.toNat_ofNat, if_pos valid]
  have small : u.toNat < 0x10000 := bound
  simp only [charUnits, value]
  rw [if_pos small, Nat.toUInt16_eq, UInt16.ofNat_toNat]

theorem charUnits_pairedChar (high : isHighSurrogate u = true) (low : isLowSurrogate v = true) :
    charUnits (pairedChar u v) = [u, v] := by
  rw [isHighSurrogate_iff] at high
  rw [isLowSurrogate_iff] at low
  -- The two halves carry ten bits each of what the character has beyond the basic plane.
  have value : (pairedChar u v).toNat =
      0x10000 + (u.toNat - 0xD800) * 0x400 + (v.toNat - 0xDC00) := by
    rw [pairedChar, Char.toNat_ofNat, if_pos]
    rw [Nat.isValidChar]
    omega
  have first : 0xD800 + ((pairedChar u v).toNat - 0x10000) / 0x400 = u.toNat := by omega
  have second : 0xDC00 + ((pairedChar u v).toNat - 0x10000) % 0x400 = v.toNat := by omega
  have large : ¬ (pairedChar u v).toNat < 0x10000 := by omega
  simp only [charUnits]
  rw [if_neg large, first, second, Nat.toUInt16_eq, Nat.toUInt16_eq, UInt16.ofNat_toNat,
    UInt16.ofNat_toNat]

theorem toUnits_of_ofUnits? (h : ofUnits? units = some t) : toUnits t = units := by
  fun_induction ofUnits? units generalizing t with
  | case1 =>
    cases h
    rfl
  | case2 => cases h
  | case3 u plain =>
    rw [Bool.not_eq_true, Bool.or_eq_false_iff] at plain
    cases h
    rw [toUnits_cons, charUnits_ofNat plain.1 plain.2]
    rfl
  | case4 u v rest high low ih =>
    obtain ⟨t, read, rfl⟩ := Option.map_eq_some_iff.mp h
    rw [toUnits_cons, charUnits_pairedChar high low, ih read]
    rfl
  | case5 => cases h
  | case6 => cases h
  | case7 u v rest high low ih =>
    obtain ⟨t, read, rfl⟩ := Option.map_eq_some_iff.mp h
    rw [toUnits_cons, charUnits_ofNat (Bool.eq_false_iff.mpr high) (Bool.eq_false_iff.mpr low),
      ih read]
    rfl

end MarkupGrader.Text
