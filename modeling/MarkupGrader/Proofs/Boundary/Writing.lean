import MarkupGrader.Proofs.Boundary.Crossing
import MarkupGrader.Proofs.Text.Surrogates

/-! Buffers between writing and reading. Units are read as the one text that has them for its form, a
text written to a fresh buffer leaves its longest beginning that fits, and of several writes the last
is heard, unless nothing of it fits into the buffer. -/

namespace MarkupGrader

namespace Buffer

open Text (ZeroFree HasLoneSurrogate Units charUnits toUnits)

variable {b : Buffer} {c room : Nat} {s t : Text} {u : Units}

theorem textOf_eq_ok_iff : textOf u = .ok t ↔ toUnits t = u.takeWhile (· != 0) := by
  unfold textOf
  constructor
  · intro read
    split at read
    · next s found =>
      cases read
      exact Text.toUnits_of_ofUnits? found
    · cases read
  · intro same
    rw [← same, Text.ofUnits?_toUnits]

theorem textOf_eq_error_iff :
    textOf u = .error invalidText ↔ HasLoneSurrogate (u.takeWhile (· != 0)) := by
  rw [← Text.ofUnits?_eq_none_iff]
  unfold textOf
  cases Text.ofUnits? (u.takeWhile (· != 0)) with
  | none => exact iff_of_true rfl rfl
  | some t => simp

/-- A text without the character zero is read back from its units, whatever stands behind a zero that
ends them. Units are read as a text just when this is the text they are the form of, up to the first
zero, and they are refused just when a surrogate there is half of no pair. -/
theorem textOf_codec (zeroFree : t.ZeroFree) (tail u : Units) (s : Text) :
    textOf (toUnits t) = .ok t ∧ textOf (toUnits t ++ 0 :: tail) = .ok t ∧
      (textOf u = .ok s ↔ toUnits s = u.takeWhile (· != 0)) ∧
      (textOf u = .error invalidText ↔ HasLoneSurrogate (u.takeWhile (· != 0))) := by
  have ended : textOf (toUnits t ++ 0 :: tail) = .ok t := by
    rw [textOf_toUnits_append, Text.takeWhile_of_zeroFree zeroFree]
  exact ⟨textOf_toUnits zeroFree, ended, textOf_eq_ok_iff, textOf_eq_error_iff⟩

theorem textOf_codec_surrogates :
    textOf (toUnits "h😀") = .ok "h😀" ∧
      textOf (toUnits "h😀" ++ 0 :: [0xD800]) = .ok "h😀" ∧
      textOf [0x68, 0xD83D, 0, 0xDE00] = .error invalidText := by
  have zeroFree : ZeroFree "h😀" := by decide
  obtain ⟨own, ended, -, error_iff⟩ := textOf_codec zeroFree [0xD800] [0x68, 0xD83D, 0, 0xDE00] []
  exact ⟨own, ended, error_iff.mpr ⟨[0x68], 0xD83D, [], rfl, .inl ⟨by decide, by simp⟩⟩⟩

theorem putText_ofCapacity (large : 2 ≤ c) (t : Text) :
    (ofCapacity c).putText t = toUnits (fitting (c - 1) t) ++
      0 :: (ofCapacity c).drop ((toUnits (fitting (c - 1) t)).length + 1) := by
  have hasRoom : (ofCapacity c).hasRoom = true := hasRoom_ofCapacity.mpr large
  by_cases nonempty : t = []
  · subst nonempty
    obtain ⟨n, rfl⟩ : ∃ n, c = n + 2 := ⟨c - 2, by omega⟩
    rw [putText, if_pos hasRoom, if_pos List.isEmpty_nil, putCode, if_pos hasRoom]
    simp [overwrite, ofCapacity, List.replicate_succ, fitting, noResponse]
  · have written := putText_eq hasRoom nonempty
    rwa [length_ofCapacity] at written

theorem not_hasLoneSurrogate_padded (t : Text) (n : Nat) :
    ¬ HasLoneSurrogate (toUnits t ++ List.replicate n 0) := by
  have zeros : toUnits (List.replicate n Text.zero) = List.replicate n 0 := by
    induction n with
    | zero => rfl
    | succ n ih => rw [List.replicate_succ, Text.toUnits_cons, ih, Text.charUnits_zero]; rfl
  have whole : toUnits (t ++ List.replicate n Text.zero) = toUnits t ++ List.replicate n 0 := by
    rw [← zeros]
    exact List.flatMap_append
  rw [← whole]
  exact Text.not_hasLoneSurrogate_toUnits _

/-- What a text leaves in a fresh buffer, and what is read there. A buffer without room is refused and
has nothing but the refusal in it. Any other holds the longest beginning of the text that fits, in
whole characters, with a zero behind it and nothing changed behind the zero. -/
theorem response_putText_fresh (c : Nat) (zeroFree : t.ZeroFree) :
    (c < 2 → ((ofCapacity c).putText t).response = .refused ∧
      (ofCapacity c).putText t = List.replicate c refusalUnit) ∧
    (2 ≤ c → ∃ p, IsCut (c - 1) t p ∧
      ((ofCapacity c).putText t).response = (if p = [] then .empty else .text p) ∧
      ((ofCapacity c).putText t).take (toUnits p).length = toUnits p ∧
      ((ofCapacity c).putText t)[(toUnits p).length]? = some 0 ∧
      ¬ HasLoneSurrogate ((ofCapacity c).putText t) ∧
      ((ofCapacity c).putText t).drop ((toUnits p).length + 1) =
        (ofCapacity c).drop ((toUnits p).length + 1)) := by
  refine ⟨fun small => ?_, fun large => ?_⟩
  · have noRoom : (ofCapacity c).hasRoom = false := by
      rw [← Bool.not_eq_true, hasRoom_ofCapacity]
      omega
    have written : (ofCapacity c).putText t = (ofCapacity c).refuse := by
      rw [putText, if_neg (Bool.eq_false_iff.mp noRoom)]
    rw [written]
    refine ⟨response_refuse noRoom, ?_⟩
    have one_or_none : c = 0 ∨ c = 1 := by omega
    rcases one_or_none with rfl | rfl
    · rfl
    · rfl
  · have written := putText_ofCapacity large t
    have heard := response_putText large zeroFree
    have cut := isCut_fitting (c - 1) t
    generalize fitting (c - 1) t = p at written heard cut
    have padded : (ofCapacity c).putText t =
        toUnits p ++ List.replicate (c - (toUnits p).length) 0 := by
      have fits := cut.fits
      have size : c - (toUnits p).length = (c - ((toUnits p).length + 1)) + 1 := by omega
      rw [written, ofCapacity, List.drop_replicate, size, List.replicate_succ]
    refine ⟨p, cut, heard, ?_, ?_, ?_, ?_⟩
    · rw [written, List.take_left]
    · rw [written, List.getElem?_append_right (Nat.le_refl _), Nat.sub_self]
      rfl
    · rw [padded]
      exact not_hasLoneSurrogate_padded p _
    · rw [written, ← List.drop_drop, List.drop_left]
      rfl

theorem response_putText_fresh_surrogates :
    ((ofCapacity 4).putText "ab😀").response = .text "ab" ∧
      ((ofCapacity 1).putText "ab😀").response = .refused := by
  have zeroFree : ZeroFree "ab😀" := by decide
  obtain ⟨-, large⟩ := response_putText_fresh 4 zeroFree
  obtain ⟨small, -⟩ := response_putText_fresh 1 zeroFree
  obtain ⟨p, cut, heard, -⟩ := large (by decide)
  obtain rfl : p = "ab" := cut.unique (isCut_fitting 3 "ab😀")
  exact ⟨heard, (small (by decide)).1⟩

/-- What a module may do with a buffer before it returns. -/
inductive Step
  | check
  | text (t : Text)
  | code (n : UInt16)

namespace Step

def run (b : Buffer) : Step → Buffer
  | check => b.refuseIfSmall
  | text t => b.putText t
  | code n => b.putCode n

def isWrite : Step → Bool
  | check => false
  | _ => true

/-- Not even the first character of the text fits. -/
def Overflows (w : Step) (room : Nat) : Prop :=
  ∃ c rest, w = text (c :: rest) ∧ room < (charUnits c).length

end Step

def after (b : Buffer) (steps : List Step) : Buffer := steps.foldl Step.run b

@[simp] theorem length_run (b : Buffer) (s : Step) : (s.run b).length = b.length := by
  cases s with
  | check =>
    show b.refuseIfSmall.length = b.length
    unfold refuseIfSmall
    split
    · rfl
    · exact length_overwrite b _
  | text t => exact length_putText t b
  | code n => exact length_putCode n b

theorem after_append (b : Buffer) (front back : List Step) :
    b.after (front ++ back) = (b.after front).after back := List.foldl_append

theorem length_after (b : Buffer) (steps : List Step) : (b.after steps).length = b.length := by
  induction steps generalizing b with
  | nil => rfl
  | cons s steps ih =>
    show ((s.run b).after steps).length = b.length
    rw [ih, length_run]

theorem after_of_checks (hasRoom : b.hasRoom = true) {steps : List Step}
    (checks : ∀ s ∈ steps, s.isWrite = false) : b.after steps = b := by
  induction steps with
  | nil => rfl
  | cons s steps ih =>
    obtain ⟨own, others⟩ := List.forall_mem_cons.mp checks
    cases s with
    | check =>
      show b.refuseIfSmall.after steps = b
      rw [refuseIfSmall, if_pos hasRoom]
      exact ih others
    | text t => cases own
    | code n => cases own

theorem exists_last_write {steps : List Step} (writes : ∃ s ∈ steps, s.isWrite = true) :
    ∃ front w back, steps = front ++ w :: back ∧ w.isWrite = true ∧
      ∀ s ∈ back, s.isWrite = false := by
  induction steps with
  | nil =>
    obtain ⟨s, mem, -⟩ := writes
    cases mem
  | cons s steps ih =>
    -- This step counts only if no write comes behind it.
    by_cases later : ∃ s ∈ steps, s.isWrite = true
    · obtain ⟨front, w, back, rfl, write, checks⟩ := ih later
      exact ⟨s :: front, w, back, rfl, write, checks⟩
    · have none : ∀ x ∈ steps, x.isWrite = false := by
        intro x mem
        rw [← Bool.not_eq_true]
        exact fun write => later ⟨x, mem, write⟩
      obtain ⟨x, mem, write⟩ := writes
      rcases List.mem_cons.mp mem with rfl | mem
      · exact ⟨[], x, steps, rfl, write, none⟩
      · exact absurd ⟨x, mem, write⟩ later

theorem fitting_eq_nil_iff {d : Char} {rest : Text} :
    fitting room (d :: rest) = [] ↔ room < (charUnits d).length := by
  simp only [fitting]
  split
  · next fits => simp [fits]
  · next exceeds => simpa using exceeds

theorem response_append_zero (nonempty : t ≠ []) (r r' : Units) :
    response (toUnits t ++ 0 :: r) = response (toUnits t ++ 0 :: r') := by
  have same : textOf (toUnits t ++ 0 :: r) = textOf (toUnits t ++ 0 :: r') := by
    rw [textOf_toUnits_append, textOf_toUnits_append]
  -- The zero is at the second place or behind it, so that only what stands before it is looked at.
  match shown : toUnits t with
  | [] =>
    cases t with
    | nil => exact absurd rfl nonempty
    | cons d t =>
      rw [Text.toUnits_cons, List.append_eq_nil_iff] at shown
      exact absurd shown.1 (Text.charUnits_ne_nil d)
  | [x] =>
    rw [shown] at same
    simp only [List.cons_append, List.nil_append] at same ⊢
    rw [response, response, same]
  | x :: y :: more =>
    rw [shown] at same
    simp only [List.cons_append] at same ⊢
    rw [response, response, same]

theorem overflows_iff (nonempty : t ≠ []) :
    (Step.text t).Overflows room ↔ fitting room t = [] := by
  obtain ⟨d, rest, rfl⟩ := List.exists_cons_of_ne_nil nonempty
  rw [fitting_eq_nil_iff]
  constructor
  · rintro ⟨e, more, eq, exceeds⟩
    cases eq
    exact exceeds
  · exact fun exceeds => ⟨d, rest, rfl, exceeds⟩

theorem length_of_overflows (large : 2 ≤ b.length) {w : Step} (exceeds : w.Overflows (b.length - 1)) :
    b.length = 2 := by
  obtain ⟨d, rest, -, wide⟩ := exceeds
  have pair : (charUnits d).length ≤ 2 := by
    simp only [charUnits]
    split
    · exact Nat.le_succ 1
    · exact Nat.le_refl 2
  omega

theorem response_run_of_overflows (hasRoom : b.hasRoom = true) {w : Step}
    (exceeds : w.Overflows (b.length - 1)) {x : UInt16} (left : b[1]? = some x) :
    (w.run b).response = if x = 0 then .empty else .error x := by
  obtain ⟨d, rest, rfl, wide⟩ := exceeds
  have nonempty : d :: rest ≠ [] := List.cons_ne_nil d rest
  have written := putText_eq hasRoom nonempty
  rw [fitting_eq_nil_iff.mpr wide] at written
  obtain ⟨first, second, more, rfl⟩ := exists_of_hasRoom hasRoom
  obtain rfl : second = x := Option.some.inj left
  have shown : (Step.text (d :: rest)).run (first :: second :: more) = 0 :: second :: more := written
  rw [shown]
  rfl

theorem response_run_of_fits (hasRoom : b.hasRoom = true) {w : Step} (write : w.isWrite = true)
    (fits : ¬ w.Overflows (b.length - 1)) :
    (w.run b).response = (w.run (ofCapacity b.length)).response := by
  have large := hasRoom_iff.mp hasRoom
  have fresh : (ofCapacity b.length).hasRoom = true := hasRoom_ofCapacity.mpr large
  cases w with
  | check => cases write
  | code n => exact (response_putCode hasRoom n).trans (response_putCode fresh n).symm
  | text t =>
    show (b.putText t).response = ((ofCapacity b.length).putText t).response
    by_cases nonempty : t = []
    · rw [nonempty, response_putText_nil hasRoom, response_putText_nil fresh]
    · have kept : fitting (b.length - 1) t ≠ [] := fun none => fits ((overflows_iff nonempty).mpr none)
      rw [putText_eq hasRoom nonempty, putText_ofCapacity large]
      exact response_append_zero kept _ _

/-- One write is heard as in a fresh buffer, unless nothing of it fits and a unit that is not zero
has been left behind the first. -/
theorem response_run_iff (hasRoom : b.hasRoom = true) {w : Step} (write : w.isWrite = true) :
    (w.run b).response = (w.run (ofCapacity b.length)).response ↔
      ¬ (w.Overflows (b.length - 1) ∧ b[1]? ≠ some 0) := by
  by_cases exceeds : w.Overflows (b.length - 1)
  · have large := hasRoom_iff.mp hasRoom
    have fresh : (ofCapacity b.length).hasRoom = true := hasRoom_ofCapacity.mpr large
    have zero : (ofCapacity b.length)[1]? = some 0 := List.getElem?_replicate_of_lt large
    have exceedsFresh : w.Overflows ((ofCapacity b.length).length - 1) := by rwa [length_ofCapacity]
    obtain ⟨x, left⟩ : ∃ x, b[1]? = some x := ⟨_, List.getElem?_eq_getElem large⟩
    rw [response_run_of_overflows hasRoom exceeds left,
      response_run_of_overflows fresh exceedsFresh zero, left, if_pos rfl]
    by_cases none : x = 0
    · simp [none]
    · simp [none, exceeds]
  · exact iff_of_true (response_run_of_fits hasRoom write exceeds) fun h => exceeds h.1

/-- Of the writes to a buffer the last is heard, as in a fresh one, whatever stood there before. The
one exception is a text of which nothing fits into the smallest buffer with room: what is heard then
is the unit that was left behind the first, as a code. -/
theorem response_after_iff (large : 2 ≤ b.length) {steps : List Step}
    (writes : ∃ s ∈ steps, s.isWrite = true) :
    ∃ front w back, steps = front ++ w :: back ∧ w.isWrite = true ∧
      (∀ s ∈ back, s.isWrite = false) ∧
      ((b.after steps).response = (w.run (ofCapacity b.length)).response ↔
        ¬ (w.Overflows (b.length - 1) ∧ (b.after front)[1]? ≠ some 0)) ∧
      (w.Overflows (b.length - 1) → b.length = 2 ∧ ∀ x, (b.after front)[1]? = some x →
        (b.after steps).response = if x = 0 then .empty else .error x) := by
  obtain ⟨front, w, back, rfl, write, checks⟩ := exists_last_write writes
  have size := length_after b front
  have hasRoom : (b.after front).hasRoom = true := by rwa [hasRoom_iff, size]
  have written : (w.run (b.after front)).hasRoom = true := by rwa [hasRoom_iff, length_run, size]
  have last : b.after (front ++ w :: back) = w.run (b.after front) := by
    rw [after_append]
    exact after_of_checks written checks
  have heard := response_run_iff hasRoom write
  rw [size] at heard
  refine ⟨front, w, back, rfl, write, checks, ?_, fun exceeds => ?_⟩
  · rw [last]
    exact heard
  · refine ⟨length_of_overflows large exceeds, fun x left => ?_⟩
    rw [last]
    exact response_run_of_overflows hasRoom (by rwa [size]) left

theorem response_after_iff_text :
    (after [7, 8, 9] [.code 5, .text "ab😀"]).response = .text "ab" := by
  obtain ⟨front, w, back, eq, write, checks, heard_iff, -⟩ :=
    @response_after_iff [7, 8, 9] (by decide) [.code 5, .text "ab😀"]
      ⟨.code 5, List.mem_cons_self, rfl⟩
  match front with
  | [] =>
    obtain ⟨-, rfl⟩ := List.cons.inj eq
    exact absurd (checks _ List.mem_cons_self) (by decide)
  | [_] =>
    obtain ⟨-, others⟩ := List.cons.inj eq
    obtain ⟨rfl, rfl⟩ := List.cons.inj others
    refine (heard_iff.mpr ?_).trans (by decide)
    rintro ⟨⟨d, rest, text, wide⟩, -⟩
    obtain ⟨rfl, -⟩ := List.cons.inj (Step.text.inj text)
    exact absurd wide (by decide)
  | _ :: _ :: _ => simp at eq

/-- The code that was written first is heard in place of a text of which nothing fits. -/
theorem not_response_after_overflow :
    let b : Buffer := ofCapacity 2
    let w : Step := .text "😀"
    2 ≤ b.length ∧ (b.after [.code 5, w]).response = .error 5 ∧
      (w.run (ofCapacity b.length)).response = .empty := by
  decide

end Buffer
end MarkupGrader
