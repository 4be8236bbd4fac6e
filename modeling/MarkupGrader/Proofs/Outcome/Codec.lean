import Mathlib
import MarkupGrader.Outcome

/-! Outcomes and their response texts. No text is lost when a host recovers an outcome from it, so
what can go wrong on the way is only that another outcome has the same text. The outcomes that come
back as they were are told command by command. -/

namespace MarkupGrader

theorem Text.startsWith_iff {t u : Text} : t.startsWith u = true ↔ u <+: t :=
  List.isPrefixOf_iff_prefix

open Text (startsWith_iff)

namespace Command

variable {t u : Text}

theorem ofText_eq_styleCheck : ofText t = .styleCheck ↔ t = styleWord := by
  unfold ofText
  constructor
  · intro read
    split at read
    · assumption
    · split at read <;> cases read
  · intro style
    rw [if_pos style]

theorem prefix_of_contains (read : ofText t = .contains u) : Selector.keyword <+: t := by
  unfold ofText at read
  split at read
  · cases read
  · split at read
    · next starts => exact startsWith_iff.mp starts
    · cases read

theorem ofText_of_prefix (starts : Selector.keyword <+: t) : ofText t = .contains t := by
  have other : t ≠ styleWord := by
    rintro rfl
    exact absurd (startsWith_iff.mpr starts) (by decide)
  rw [ofText, if_neg other, if_pos (startsWith_iff.mpr starts)]

theorem ofText_of_other (style : t ≠ styleWord) (starts : ¬ Selector.keyword <+: t) :
    ofText t = .other t := by
  rw [ofText, if_neg style, if_neg (mt startsWith_iff.mp starts)]

end Command

namespace Outcome

variable {command t name : Text} {o : Outcome}

theorem eq_successWord_of_ofSyntaxResponse (h : ofSyntaxResponse t = .success) :
    t = successWord := by
  unfold ofSyntaxResponse at h
  split at h
  · assumption
  · cases h

theorem eq_successWord_of_ofQueryResponse (h : ofQueryResponse command t = .success) :
    t = successWord := by
  unfold ofQueryResponse at h
  split at h
  · assumption
  · split at h
    · cases h
    · split at h
      · cases h
      · split at h
        · cases h
        · split at h <;> cases h
        · cases h

theorem missingName?_eq_some :
    missingName? t = some name ↔ t = (missingElement name).toResponse := by
  rw [toResponse, List.append_assoc, missingName?, Option.bind_eq_some_iff]
  constructor
  · rintro ⟨rest, front, back⟩
    rw [Text.after?_eq_some.mp front, Text.before?_eq_some.mp back]
  · intro whole
    exact ⟨name ++ missingAfter, Text.after?_eq_some.mpr whole, Text.before?_eq_some.mpr rfl⟩

/-- What a text means depends on the command it answers: it is neither empty nor a text that means
the same for every command. -/
structure OfCommand (t : Text) : Prop where
  ne_successWord : t ≠ successWord
  nonempty : t.isEmpty = false
  notBlocked : t.startsWith blockedMark = false

theorem ofQueryResponse_of_style (style : command = Command.styleWord) (own : OfCommand t) :
    ofQueryResponse command t = .styleViolation t := by
  simp only [ofQueryResponse, own.ne_successWord, own.nonempty, own.notBlocked,
    Command.ofText_eq_styleCheck.mpr style, Bool.false_eq_true, if_false]

theorem ofQueryResponse_of_contains (chain : Selector.keyword <+: command) (own : OfCommand t) :
    ofQueryResponse command t = ((missingName? t).map .missingElement).getD (.rejected t) := by
  simp only [ofQueryResponse, own.ne_successWord, own.nonempty, own.notBlocked,
    Command.ofText_of_prefix chain, Bool.false_eq_true, if_false]
  cases missingName? t <;> rfl

theorem ofQueryResponse_of_other (style : command ≠ Command.styleWord)
    (chain : ¬ Selector.keyword <+: command) (own : OfCommand t) :
    ofQueryResponse command t = .rejected t := by
  simp only [ofQueryResponse, own.ne_successWord, own.nonempty, own.notBlocked,
    Command.ofText_of_other style chain, Bool.false_eq_true, if_false]

theorem ofQueryResponse_of_blocked (begins : blockedMark <+: t) :
    ofQueryResponse command t = .syntaxErrors t := by
  obtain ⟨rest, rfl⟩ := begins
  rfl

theorem ofCommand_missingElement (name : Text) : OfCommand (missingElement name).toResponse := by
  refine ⟨fun eq => ?_, rfl, rfl⟩
  have first : some 'T' = some 'S' := congrArg List.head? eq
  cases first

theorem common_or_ofCommand (t : Text) :
    t = successWord ∨ t = [] ∨ blockedMark <+: t ∨ OfCommand t := by
  by_cases word : t = successWord
  · exact .inl word
  · cases empty : t.isEmpty with
    | true => exact .inr (.inl (List.isEmpty_iff.mp empty))
    | false =>
      cases blocked : t.startsWith blockedMark with
      | true => exact .inr (.inr (.inl (startsWith_iff.mp blocked)))
      | false => exact .inr (.inr (.inr ⟨word, empty, blocked⟩))

/-- The outcomes that are recovered from their response to a command. -/
inductive Recovers (command : Text) : Outcome → Prop
  | success : Recovers command .success
  | unanswered : Recovers command .unanswered
  | syntaxErrors {t : Text} (begins : blockedMark <+: t) : Recovers command (.syntaxErrors t)
  | styleViolation {t : Text} (style : command = Command.styleWord) (own : OfCommand t) :
      Recovers command (.styleViolation t)
  | missingElement (chain : Selector.keyword <+: command) (name : Text) :
      Recovers command (.missingElement name)
  | rejected {t : Text} (style : command ≠ Command.styleWord) (own : OfCommand t)
      (unnamed : Selector.keyword <+: command → ∀ name, t ≠ missingBefore ++ name ++ missingAfter) :
      Recovers command (.rejected t)

theorem Recovers.recovered (h : Recovers command o) :
    ofQueryResponse command o.toResponse = o := by
  cases h with
  | success => rfl
  | unanswered => rfl
  | syntaxErrors begins => exact ofQueryResponse_of_blocked begins
  | styleViolation style own => exact ofQueryResponse_of_style style own
  | missingElement chain name =>
    rw [ofQueryResponse_of_contains chain (ofCommand_missingElement name),
      missingName?_eq_some.mpr rfl]
    rfl
  | @rejected t style own unnamed =>
    by_cases chain : Selector.keyword <+: command
    · have none : missingName? t = none := by
        rw [Option.eq_none_iff_forall_ne_some]
        exact fun name named => unnamed chain name (missingName?_eq_some.mp named)
      show ofQueryResponse command t = .rejected t
      rw [ofQueryResponse_of_contains chain own, none]
      rfl
    · exact ofQueryResponse_of_other style chain own

theorem recovers_ofQueryResponse (command t : Text) :
    Recovers command (ofQueryResponse command t) ∧ (ofQueryResponse command t).toResponse = t := by
  rcases common_or_ofCommand t with rfl | rfl | begins | own
  · exact ⟨.success, rfl⟩
  · exact ⟨.unanswered, rfl⟩
  · rw [ofQueryResponse_of_blocked begins]
    exact ⟨.syntaxErrors begins, rfl⟩
  · by_cases style : command = Command.styleWord
    · rw [ofQueryResponse_of_style style own]
      exact ⟨.styleViolation style own, rfl⟩
    · by_cases chain : Selector.keyword <+: command
      · rw [ofQueryResponse_of_contains chain own]
        cases named : missingName? t with
        | none =>
          refine ⟨.rejected style own fun _ name form => ?_, rfl⟩
          rw [missingName?_eq_some.mpr form] at named
          cases named
        | some name => exact ⟨.missingElement chain name, (missingName?_eq_some.mp named).symm⟩
      · rw [ofQueryResponse_of_other style chain own]
        exact ⟨.rejected style own fun starts => absurd starts chain, rfl⟩

theorem toResponse_ofSyntaxResponse (t : Text) : (ofSyntaxResponse t).toResponse = t := by
  unfold ofSyntaxResponse
  split
  · next word => exact word.symm
  · rfl

/-- No response text is lost when an outcome is made of it, and only the word for success is read as
success. An outcome is recovered from its response exactly if it is one of those that `Recovers`
lists for the command. -/
theorem response_codec (command t : Text) (o : Outcome) :
    (ofQueryResponse command t).toResponse = t ∧ (ofSyntaxResponse t).toResponse = t ∧
      (ofQueryResponse command t = .success ↔ t = successWord) ∧
      (ofSyntaxResponse t = .success ↔ t = successWord) ∧
      (ofQueryResponse command o.toResponse = o ↔ Recovers command o) := by
  refine ⟨(recovers_ofQueryResponse command t).2, toResponse_ofSyntaxResponse t, ?_, ?_, ?_⟩
  · exact ⟨eq_successWord_of_ofQueryResponse, fun word => word ▸ rfl⟩
  · exact ⟨eq_successWord_of_ofSyntaxResponse, fun word => word ▸ rfl⟩
  · refine ⟨fun back => ?_, Recovers.recovered⟩
    rw [← back]
    exact (recovers_ofQueryResponse command o.toResponse).1

/-- A name that holds the end of the wording is recovered whole. -/
example : ofQueryResponse "contains(body>p)"
    (missingElement "p' element is missing or incorrect").toResponse =
      .missingElement "p' element is missing or incorrect" := by decide

end Outcome
end MarkupGrader
