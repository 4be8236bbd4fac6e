import MarkupGrader.Connection
import MarkupGrader.Proofs.Boundary.ErrorCode

/-! Calls through the boundary on a module that publishes a validator. As long as the texts are
zero-free, the host gets the validator's own answer, cut to what the buffer can hold; a fault comes
back with the error code's kind, and a breakdown as a fault of the module. -/

namespace MarkupGrader

theorem Reply.ofExcept_eq_answer {α : Type} {result : Except Fault α} {a : α} :
    Reply.ofExcept result = .answer a ↔ result = .ok a := by
  cases result <;> simp [Reply.ofExcept]

/-- What a host gets for a reply that crosses a buffer of the given capacity. -/
def Reply.hosted {α : Type} (op : Operation) (capacity : Nat) (render : α → Text) :
    Reply α → Except Fault Text
  | .answer a => .ok (Buffer.fitting (capacity - 1) (render a))
  | .fault f => .error (ErrorCode.toFault op (ErrorCode.ofFault f))
  | .breakdown => .error (.moduleFault op ErrorCode.breakdown)

namespace Exports

/-- An entry point as published: refuses a small buffer, or else writes the reply. -/
def reply {α : Type} (render : α → Text) (r : Reply α) (b : Buffer) : Buffer :=
  if b.hasRoom then respond render b r else b.refuse

end Exports

namespace Connection

variable {α : Type} {op : Operation} {c : Nat} {render : α → Text} {r : Reply α}

theorem call_putCode (room : 2 ≤ c) {code : UInt16} (nonzero : code ≠ Buffer.noResponse) :
    call op c (Buffer.putCode code) = .error (ErrorCode.toFault op code) := by
  rw [call, Buffer.response_putCode (Buffer.hasRoom_ofCapacity.mpr room), if_neg nonzero]

theorem call_putText (room : 2 ≤ c) {t : Text} (zeroFree : t.ZeroFree) :
    call op c (Buffer.putText t) = .ok (Buffer.fitting (c - 1) t) := by
  rw [call, Buffer.response_putText room zeroFree]
  by_cases kept : Buffer.fitting (c - 1) t = []
  · simp [kept]
  · simp [kept]

/-- The boundary adds nothing to a reply and takes nothing from it but what does not fit. -/
theorem call_reply (room : 2 ≤ c) (zeroFree : ∀ a, r = .answer a → (render a).ZeroFree) :
    call op c (Exports.reply render r) = r.hosted op c render := by
  have through : call op c (Exports.reply render r) =
      call op c (fun b => Exports.respond render b r) := by
    simp only [call, Exports.reply, Buffer.hasRoom_ofCapacity.mpr room, if_true]
  rw [through]
  cases r with
  | answer a => exact call_putText room (zeroFree a rfl)
  | fault f => exact call_putCode room (ErrorCode.ofFault_ne_noResponse f)
  | breakdown => exact call_putCode room (by decide)

theorem call_reply_of_lt (small : c < 2) :
    call op c (Exports.reply render r) = .error (.bufferTooSmall c) := by
  have closed : (Buffer.ofCapacity c).hasRoom = false := by
    rw [← Bool.not_eq_true, Buffer.hasRoom_ofCapacity]
    omega
  simp only [call, Exports.reply, closed, Bool.false_eq_true, if_false,
    Buffer.response_refuse closed]

theorem answer_of_call_reply {p : Text} (h : call op c (Exports.reply render r) = .ok p)
    (nonempty : p ≠ []) : ∃ a, r = .answer a ∧ p <+: render a := by
  by_cases room : 2 ≤ c
  · have open_ := Buffer.hasRoom_ofCapacity.mpr room
    cases r with
    | answer a =>
      refine ⟨a, rfl, ?_⟩
      simp only [call, Exports.reply, open_, if_true, Exports.respond] at h
      split at h
      · next t read =>
        simp only [Except.ok.injEq] at h
        exact Buffer.prefix_of_response_putText (h ▸ read)
      · simp only [Except.ok.injEq] at h
        exact absurd h.symm nonempty
      · simp at h
      · simp at h
    | fault f =>
      have zeroFree : ∀ a, (Reply.fault f : Reply α) = .answer a → (render a).ZeroFree := by simp
      rw [call_reply room zeroFree] at h
      simp [Reply.hosted] at h
    | breakdown =>
      have zeroFree : ∀ a, (Reply.breakdown : Reply α) = .answer a → (render a).ZeroFree := by simp
      rw [call_reply room zeroFree] at h
      simp [Reply.hosted] at h
  · rw [call_reply_of_lt (by omega)] at h
    simp at h

end Connection

/-- What a connection to a published validator calls. -/
def EntryPoints.ofValidator (v : Validator) (capacity : Nat) : EntryPoints where
  capacity := capacity
  identify := Exports.reply id v.identify
  checkSyntax code b :=
    if b.hasRoom then
      Exports.withText code b fun code => Exports.respond Outcome.toResponse b (v.checkSyntax code)
    else b.refuse
  query code command b :=
    if b.hasRoom then
      Exports.withText code b fun code => Exports.withText command b fun command =>
        Exports.respond Outcome.toResponse b (v.query code command)
    else b.refuse

theorem EntryPoints.ofExports_ofValidator (v : Validator) (capacity : Nat) :
    ofExports (.ofValidator v capacity) = .ok (ofValidator v capacity) := rfl

namespace Connection

/-- The connection is ready and calls the entry points of the table `e`. -/
def ReadyOn (k : Connection) (e : Exports) : Prop :=
  ∃ entry, EntryPoints.ofExports e = .ok entry ∧ k.stage = .ready entry

variable {k : Connection} {v : Validator} {c : Nat} {code command : Text}

theorem entry_of_readyOn (h : k.ReadyOn (.ofValidator v c)) :
    k.entry = .ok (.ofValidator v c) := by
  obtain ⟨found, resolved, ready⟩ := h
  rw [EntryPoints.ofExports_ofValidator, Except.ok.injEq] at resolved
  simp only [entry, ready, resolved]

theorem checkSyntaxText_untilZero (h : k.ReadyOn (.ofValidator v c)) (code : Text) :
    k.checkSyntaxText code = call .checkSyntax c
      (Exports.reply Outcome.toResponse (v.checkSyntax (code.takeWhile (· != Text.zero)))) := by
  have use : (EntryPoints.ofValidator v c).checkSyntax code.toUnits =
      Exports.reply Outcome.toResponse (v.checkSyntax (code.takeWhile (· != Text.zero))) := by
    funext b
    simp only [EntryPoints.ofValidator, Exports.withText, Buffer.textOf_toUnits_eq, Exports.reply]
  rw [checkSyntaxText, entry_of_readyOn h, ← use]
  rfl

theorem checkSyntaxText_eq (h : k.ReadyOn (.ofValidator v c)) (zeroFree : code.ZeroFree) :
    k.checkSyntaxText code =
      call .checkSyntax c (Exports.reply Outcome.toResponse (v.checkSyntax code)) := by
  rw [checkSyntaxText_untilZero h, Text.takeWhile_of_zeroFree zeroFree]

theorem queryText_untilZero (h : k.ReadyOn (.ofValidator v c)) (code command : Text) :
    k.queryText code command = call .query c
      (Exports.reply Outcome.toResponse (v.query (code.takeWhile (· != Text.zero))
        (command.takeWhile (· != Text.zero)))) := by
  have use : (EntryPoints.ofValidator v c).query code.toUnits command.toUnits =
      Exports.reply Outcome.toResponse (v.query (code.takeWhile (· != Text.zero))
        (command.takeWhile (· != Text.zero))) := by
    funext b
    simp only [EntryPoints.ofValidator, Exports.withText, Buffer.textOf_toUnits_eq, Exports.reply]
  rw [queryText, entry_of_readyOn h, ← use]
  rfl

theorem queryText_eq (h : k.ReadyOn (.ofValidator v c)) (codeFree : code.ZeroFree)
    (commandFree : command.ZeroFree) :
    k.queryText code command =
      call .query c (Exports.reply Outcome.toResponse (v.query code command)) := by
  rw [queryText_untilZero h, Text.takeWhile_of_zeroFree codeFree,
    Text.takeWhile_of_zeroFree commandFree]

end Connection
end MarkupGrader
