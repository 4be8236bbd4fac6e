import MarkupGrader.Proofs.Grader.Answer
import MarkupGrader.Proofs.Layout.Terminator

/-! The syntax gate. The style check and, where it is asked for, the queries for elements are held
back by the faults that the syntax check reports, and by nothing else. Once the code is through, the
style check compares it with its layout, but for the line break at the end of the layout. -/

namespace MarkupGrader.Grader

variable (g : Grader) {code command : Text}

/-- The answer to a query is that there are syntax errors. -/
def IsBlocked (answer : Except Fault Outcome) : Prop :=
  ∃ report, answer = .ok (.syntaxErrors report)

theorem checkSyntax_eq_success_iff :
    g.checkSyntax code = .ok .success ↔ g.diagnostics code = [] := by
  unfold checkSyntax
  split
  · next none => exact ⟨fun _ => none, fun _ => rfl⟩
  · next some => exact ⟨nofun, fun none => absurd none some⟩

theorem validate_of_indent (low : 1 ≤ g.options.indent) (high : g.options.indent ≤ 8) :
    g.options.layout.validate = .ok () := if_pos ⟨low, high⟩

theorem query_styleWord (code : Text) : g.query code Command.styleWord = g.checkStyle code := rfl

theorem checkStyle_of_faults (valid : g.options.layout.validate = .ok ())
    (faults : g.diagnostics code ≠ []) :
    g.checkStyle code = .ok (.syntaxErrors blockedBySyntax) := by
  have some : ¬ (g.diagnostics code).isEmpty = true := fun none => faults (List.isEmpty_iff.mp none)
  simp only [checkStyle, valid, bind, Except.bind]
  rw [if_neg some]

theorem checkStyle_of_clean (valid : g.options.layout.validate = .ok ())
    (clean : g.diagnostics code = []) {formatted : Text} (laid : g.format code = .ok formatted) :
    g.checkStyle code =
      .ok (if Layout.isCanonical code formatted then .success
        else .styleViolation styleMismatch) := by
  have none : (g.diagnostics code).isEmpty = true := List.isEmpty_iff.mpr clean
  simp only [checkStyle, valid, laid, bind, Except.bind]
  rw [if_pos none]
  split <;> rfl

theorem isBlocked_checkStyle (valid : g.options.layout.validate = .ok ()) :
    IsBlocked (g.checkStyle code) ↔ g.diagnostics code ≠ [] := by
  constructor
  · rintro ⟨report, blocked⟩ clean
    rw [g.checkStyle_of_clean valid clean (g.format_eq valid code)] at blocked
    split at blocked <;> cases blocked
  · intro faults
    exact ⟨_, g.checkStyle_of_faults valid faults⟩

theorem query_of_contains (starts : command.startsWith Selector.keyword = true) :
    g.query code command = g.contains code command := by
  have other : command ≠ Command.styleWord := by
    rintro rfl
    cases starts
  rw [query, Command.ofText, if_neg other, if_pos starts]

theorem isBlocked_contains :
    IsBlocked (g.contains code command) ↔
      g.options.gateOnSyntax = true ∧ g.diagnostics code ≠ [] := by
  have gate : (g.options.gateOnSyntax && !(g.diagnostics code).isEmpty) = true ↔
      g.options.gateOnSyntax = true ∧ g.diagnostics code ≠ [] := by
    simp only [Bool.and_eq_true, Bool.not_eq_true', List.isEmpty_eq_false_iff]
  rw [← gate]
  unfold contains
  split
  · next shut => exact ⟨fun _ => shut, fun _ => ⟨_, rfl⟩⟩
  · next opened =>
    refine ⟨?_, fun shut => absurd shut opened⟩
    rintro ⟨report, blocked⟩
    -- Behind the gate the chain decides, and it never answers with syntax errors.
    cases followed : g.evaluate code command with
    | error f =>
      rw [followed] at blocked
      cases blocked
    | ok r =>
      simp only [followed, bind, Except.bind] at blocked
      split at blocked <;> cases blocked

/-- The three readers of the code agree on whether it has faults, and the style check of clean code
asks for its layout without the last line break. -/
theorem syntax_gates (low : 1 ≤ g.options.indent) (high : g.options.indent ≤ 8) (code : Text) :
    (g.checkSyntax code = .ok .success ↔ ¬ IsBlocked (g.query code Command.styleWord)) ∧
      (g.options.gateOnSyntax = true →
        (g.checkSyntax code = .ok .success ↔
          ∀ command, command.startsWith Selector.keyword = true →
            ¬ IsBlocked (g.query code command))) ∧
      (g.options.gateOnSyntax = false →
        ∀ command, command.startsWith Selector.keyword = true →
          ¬ IsBlocked (g.query code command)) ∧
      (g.checkSyntax code = .ok .success →
        ∃ formatted, g.format code = .ok formatted ∧
          g.query code Command.styleWord =
            .ok (if formatted = code ++ g.options.lineEnding.resolve code ∨
                formatted = [] ∧ code = []
              then .success else .styleViolation styleMismatch)) := by
  have valid := g.validate_of_indent low high
  refine ⟨?_, fun gated => ⟨fun clean => ?_, fun open_ => ?_⟩, fun ungated => ?_, fun clean => ?_⟩
  · rw [query_styleWord, g.isBlocked_checkStyle valid, checkSyntax_eq_success_iff, not_not]
  · intro command starts blocked
    rw [g.query_of_contains starts, isBlocked_contains] at blocked
    exact blocked.2 (g.checkSyntax_eq_success_iff.mp clean)
  · -- The bare keyword is enough to ask at the gate.
    have starts : Text.startsWith Selector.keyword Selector.keyword = true := rfl
    have through := open_ Selector.keyword starts
    rw [g.query_of_contains starts, isBlocked_contains, not_and, not_not] at through
    exact g.checkSyntax_eq_success_iff.mpr (through gated)
  · intro command starts blocked
    rw [g.query_of_contains starts, isBlocked_contains, ungated] at blocked
    cases blocked.1
  · have laid := g.format_eq valid code
    refine ⟨_, laid, ?_⟩
    rw [query_styleWord,
      g.checkStyle_of_clean valid (g.checkSyntax_eq_success_iff.mp clean) laid]
    simp only [Layout.isCanonical_render]
    rfl

/-- Where the code breaks its lines with carriage returns, so does its layout. -/
theorem syntax_gates_crlf :
    let g : Grader :=
      ⟨{ Options.default with requireDoctype := false, gateOnSyntax := true }, .atEnd⟩
    let code : Text := "<ul>\r\n  <li>a</li>\r\n</ul>"
    1 ≤ g.options.indent ∧ g.options.indent ≤ 8 ∧ g.checkSyntax code = .ok .success ∧
      ¬ IsBlocked (g.query code Command.styleWord) ∧
      (∀ command, command.startsWith Selector.keyword = true →
        ¬ IsBlocked (g.query code command)) ∧
      g.format code = .ok (code ++ "\r\n") ∧ g.query code Command.styleWord = .ok .success := by
  intro g code
  have clean : g.checkSyntax code = .ok .success := by decide +kernel
  have laid : g.format code = .ok (code ++ "\r\n") := by decide +kernel
  obtain ⟨style, gated, -, canonical⟩ := syntax_gates g (by decide) (by decide) code
  obtain ⟨formatted, same, answer⟩ := canonical clean
  rw [laid] at same
  cases same
  refine ⟨by decide, by decide, clean, style.mp clean, (gated rfl).mp clean, laid, ?_⟩
  exact answer

/-- A line break at the end of the code itself is one too many. -/
example :
    let g : Grader := ⟨{ Options.default with requireDoctype := false }, .atEnd⟩
    g.query "<p>a</p>" Command.styleWord = .ok .success ∧
      g.query "<p>a</p>\n" Command.styleWord = .ok (.styleViolation styleMismatch) := by
  decide +kernel

end MarkupGrader.Grader
