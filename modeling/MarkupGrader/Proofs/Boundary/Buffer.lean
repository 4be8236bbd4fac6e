import MarkupGrader.Boundary.Buffer
import MarkupGrader.Proofs.Text.ZeroFree

/-! What a host reads back from a buffer that a module has written. A text comes back as its longest
beginning of whole characters that leaves room for the closing zero, and an error code comes back as
it is. -/

namespace MarkupGrader

namespace Buffer

open Text (ZeroFree toUnits)

theorem prefix_fitting (room : Nat) (t : Text) : fitting room t <+: t := by
  induction t generalizing room with
  | nil => simp [fitting]
  | cons c t ih =>
    simp only [fitting]
    split
    · exact List.cons_prefix_cons.mpr ⟨rfl, ih _⟩
    · exact List.nil_prefix

theorem length_toUnits_fitting (room : Nat) (t : Text) :
    (toUnits (fitting room t)).length ≤ room := by
  induction t generalizing room with
  | nil => simp [fitting]
  | cons c t ih =>
    simp only [fitting]
    split
    · have := ih (room - (Text.charUnits c).length)
      simp only [Text.toUnits_cons, List.length_append]
      omega
    · simp

theorem fitting_of_length_le {room : Nat} {t : Text} (h : (toUnits t).length ≤ room) :
    fitting room t = t := by
  induction t generalizing room with
  | nil => rfl
  | cons c t ih =>
    simp only [Text.toUnits_cons, List.length_append] at h
    rw [fitting, if_pos (by omega), ih (by omega)]

theorem textOf_toUnits_eq (t : Text) : textOf (toUnits t) = .ok (t.takeWhile (· != Text.zero)) := by
  rw [textOf, Text.takeWhile_toUnits, Text.ofUnits?_toUnits]

theorem textOf_toUnits_append (t : Text) (rest : Text.Units) :
    textOf (toUnits t ++ 0 :: rest) = .ok (t.takeWhile (· != Text.zero)) := by
  rw [textOf, Text.takeWhile_append_zero, ← textOf, textOf_toUnits_eq]

theorem textOf_toUnits {t : Text} (h : t.ZeroFree) : textOf (toUnits t) = .ok t := by
  rw [textOf_toUnits_eq, Text.takeWhile_of_zeroFree h]

@[simp] theorem length_ofCapacity (c : Nat) : (ofCapacity c).length = c := by simp [ofCapacity]

theorem hasRoom_iff {b : Buffer} : b.hasRoom = true ↔ 2 ≤ b.length := decide_eq_true_iff

theorem hasRoom_ofCapacity {c : Nat} : (ofCapacity c).hasRoom = true ↔ 2 ≤ c := by
  rw [hasRoom_iff, length_ofCapacity]

theorem response_of_not_hasRoom {b : Buffer} (h : b.hasRoom = false) : b.response = .refused := by
  match b with
  | [] => rfl
  | [_] => rfl
  | _ :: _ :: _ => simp [hasRoom, minimumCapacity] at h

theorem response_refuse {b : Buffer} (h : b.hasRoom = false) : b.refuse.response = .refused := by
  refine response_of_not_hasRoom ?_
  simpa [hasRoom, refuse] using h

theorem exists_of_hasRoom {b : Buffer} (h : b.hasRoom = true) : ∃ u v rest, b = u :: v :: rest := by
  match b with
  | [] => simp [hasRoom, minimumCapacity] at h
  | [_] => simp [hasRoom, minimumCapacity] at h
  | u :: v :: rest => exact ⟨u, v, rest, rfl⟩

theorem response_putCode {b : Buffer} (room : b.hasRoom = true) (code : UInt16) :
    (b.putCode code).response = if code = noResponse then .empty else .error code := by
  obtain ⟨u, v, rest, rfl⟩ := exists_of_hasRoom room
  simp [putCode, room, overwrite, response]

theorem textOf_of_response {b : Buffer} {p : Text} (h : b.response = .text p) :
    textOf b = .ok p := by
  unfold response at h
  split at h
  · split at h
    · split at h <;> cases h
    · split at h
      · next t read =>
        cases h
        exact read
      · cases h
  · cases h

theorem response_of_textOf {b : Buffer} (room : b.hasRoom = true) {t : Text}
    (read : textOf b = .ok t) (nonempty : t ≠ []) : b.response = .text t := by
  obtain ⟨u, v, rest, rfl⟩ := exists_of_hasRoom room
  have nonzero : u ≠ 0 := by
    rintro rfl
    have none : textOf (0 :: v :: rest) = .ok [] := rfl
    rw [none, Except.ok.injEq] at read
    exact nonempty read.symm
  rw [response, if_neg nonzero, read]

theorem response_putText_nil {b : Buffer} (room : b.hasRoom = true) :
    (b.putText []).response = .empty := by
  rw [putText, if_pos room, if_pos List.isEmpty_nil, response_putCode room, if_pos rfl]

theorem putText_eq {b : Buffer} (room : b.hasRoom = true) {t : Text} (nonempty : t ≠ []) :
    b.putText t = toUnits (fitting (b.length - 1) t) ++
      0 :: b.drop ((toUnits (fitting (b.length - 1) t)).length + 1) := by
  have bound := length_toUnits_fitting (b.length - 1) t
  have := hasRoom_iff.mp room
  have whole : (toUnits (fitting (b.length - 1) t) ++ [0]).take b.length =
      toUnits (fitting (b.length - 1) t) ++ [0] := by
    apply List.take_of_length_le
    simp only [List.length_append, List.length_singleton]
    omega
  rw [putText, if_pos room, if_neg (by simpa using nonempty), overwrite, whole]
  simp

theorem hasRoom_putText {b : Buffer} (t : Text) : (b.putText t).hasRoom = b.hasRoom := by
  rw [hasRoom, length_putText, hasRoom]

theorem prefix_of_response_putText {b : Buffer} {t p : Text}
    (h : (b.putText t).response = .text p) : p <+: t := by
  cases room : b.hasRoom with
  | false =>
    rw [response_of_not_hasRoom ((hasRoom_putText t).trans room)] at h
    cases h
  | true =>
    by_cases nonempty : t = []
    · rw [nonempty, response_putText_nil room] at h
      cases h
    · have read := textOf_of_response h
      rw [putText_eq room nonempty, textOf_toUnits_append, Except.ok.injEq] at read
      rw [← read]
      exact (List.takeWhile_prefix _).trans (prefix_fitting _ _)

theorem response_putText {c : Nat} (room : 2 ≤ c) {t : Text} (zeroFree : t.ZeroFree) :
    ((ofCapacity c).putText t).response =
      if fitting (c - 1) t = [] then .empty else .text (fitting (c - 1) t) := by
  have hasRoom : (ofCapacity c).hasRoom = true := hasRoom_ofCapacity.mpr room
  by_cases nonempty : t = []
  · subst nonempty
    exact (response_putText_nil hasRoom).trans (if_pos rfl).symm
  · have written := putText_eq hasRoom nonempty
    rw [length_ofCapacity] at written
    by_cases kept : fitting (c - 1) t = []
    · -- Not even the first character fits, so that the buffer is as it was.
      obtain ⟨n, rfl⟩ : ∃ n, c = n + 2 := ⟨c - 2, by omega⟩
      have zeros : (ofCapacity (n + 2)).putText t = 0 :: 0 :: List.replicate n 0 := by
        rw [written, kept]
        rfl
      rw [zeros, if_pos kept]
      rfl
    · have free := Text.zeroFree_of_prefix (prefix_fitting (c - 1) t) zeroFree
      have read : textOf ((ofCapacity c).putText t) = .ok (fitting (c - 1) t) := by
        rw [written, textOf_toUnits_append, Text.takeWhile_of_zeroFree free]
      rw [if_neg kept]
      exact response_of_textOf ((hasRoom_putText t).trans hasRoom) read kept

end Buffer
end MarkupGrader
