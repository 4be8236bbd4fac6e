import MarkupGrader.Text.Basic

/-! UTF-16 form of a text. A character beyond the basic plane is written as a high surrogate
followed by a low one; any other unit in the surrogate range has no text. -/

namespace MarkupGrader.Text

abbrev Units := List UInt16

def isHighSurrogate (u : UInt16) : Bool := 0xD800 ≤ u && u < 0xDC00

def isLowSurrogate (u : UInt16) : Bool := 0xDC00 ≤ u && u < 0xE000

theorem isHighSurrogate_iff {u : UInt16} :
    isHighSurrogate u = true ↔ 0xD800 ≤ u.toNat ∧ u.toNat < 0xDC00 := by
  rw [isHighSurrogate, Bool.and_eq_true, decide_eq_true_eq, decide_eq_true_eq,
    UInt16.le_iff_toNat_le, UInt16.lt_iff_toNat_lt]
  rfl

theorem isLowSurrogate_iff {u : UInt16} :
    isLowSurrogate u = true ↔ 0xDC00 ≤ u.toNat ∧ u.toNat < 0xE000 := by
  rw [isLowSurrogate, Bool.and_eq_true, decide_eq_true_eq, decide_eq_true_eq,
    UInt16.le_iff_toNat_le, UInt16.lt_iff_toNat_lt]
  rfl

def charUnits (c : Char) : Units :=
  let n := c.toNat
  if n < 0x10000 then [n.toUInt16]
  else [(0xD800 + (n - 0x10000) / 0x400).toUInt16, (0xDC00 + (n - 0x10000) % 0x400).toUInt16]

def toUnits (t : Text) : Units := t.flatMap charUnits

def pairedChar (high low : UInt16) : Char :=
  Char.ofNat (0x10000 + (high.toNat - 0xD800) * 0x400 + (low.toNat - 0xDC00))

/-- The text whose UTF-16 form is given; none if a surrogate is not part of a pair. -/
def ofUnits? : Units → Option Text
  | [] => some []
  | [u] =>
    if isHighSurrogate u || isLowSurrogate u then none else some [Char.ofNat u.toNat]
  | u :: v :: rest =>
    if isHighSurrogate u then
      if isLowSurrogate v then (ofUnits? rest).map (pairedChar u v :: ·) else none
    else if isLowSurrogate u then none
    else (ofUnits? (v :: rest)).map (Char.ofNat u.toNat :: ·)

theorem toNat_lt_surrogates_or (c : Char) :
    c.toNat < 0xD800 ∨ (0xE000 ≤ c.toNat ∧ c.toNat < 0x110000) := by
  rcases c.valid with low | ⟨above, high⟩
  · exact .inl low
  · exact .inr ⟨above, high⟩

/-- The units of a character are read as that character. -/
theorem ofUnits?_charUnits_append (c : Char) (rest : Units) :
    ofUnits? (charUnits c ++ rest) = (ofUnits? rest).map (c :: ·) := by
  have range := toNat_lt_surrogates_or c
  have back : Char.ofNat c.toNat = c := Char.ofNat_toNat c
  unfold charUnits
  simp only
  split
  · have unit : c.toNat.toUInt16.toNat = c.toNat := by simp [UInt16.toNat_ofNat']; omega
    have high : isHighSurrogate c.toNat.toUInt16 = false := by
      rw [← Bool.not_eq_true, isHighSurrogate_iff, unit]
      omega
    have low : isLowSurrogate c.toNat.toUInt16 = false := by
      rw [← Bool.not_eq_true, isLowSurrogate_iff, unit]
      omega
    cases rest <;> simp [ofUnits?, high, low, unit, back]
  · have first : (0xD800 + (c.toNat - 0x10000) / 0x400).toUInt16.toNat =
        0xD800 + (c.toNat - 0x10000) / 0x400 := by simp [UInt16.toNat_ofNat']; omega
    have second : (0xDC00 + (c.toNat - 0x10000) % 0x400).toUInt16.toNat =
        0xDC00 + (c.toNat - 0x10000) % 0x400 := by simp [UInt16.toNat_ofNat']; omega
    generalize (0xD800 + (c.toNat - 0x10000) / 0x400).toUInt16 = u at first ⊢
    generalize (0xDC00 + (c.toNat - 0x10000) % 0x400).toUInt16 = v at second ⊢
    have high : isHighSurrogate u = true := by
      rw [isHighSurrogate_iff, first]
      omega
    have low : isLowSurrogate v = true := by
      rw [isLowSurrogate_iff, second]
      omega
    have sum : 0x10000 + (u.toNat - 0xD800) * 0x400 + (v.toNat - 0xDC00) = c.toNat := by omega
    simp [ofUnits?, high, low, pairedChar, sum, back]

theorem ofUnits?_toUnits (t : Text) : ofUnits? (toUnits t) = some t := by
  induction t with
  | nil => rfl
  | cons c rest ih =>
    have ih : ofUnits? (rest.flatMap charUnits) = some rest := ih
    rw [toUnits, List.flatMap_cons, ofUnits?_charUnits_append, ih, Option.map_some]

end MarkupGrader.Text
