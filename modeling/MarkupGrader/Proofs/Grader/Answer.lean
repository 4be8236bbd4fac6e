import MarkupGrader.Grader
import MarkupGrader.Proofs.Diagnostic.Message
import MarkupGrader.Proofs.Layout.Items
import MarkupGrader.Proofs.Outcome.Codec
import MarkupGrader.Proofs.Selector.Names

/-! What the grader of HTML pages may answer. Its faults are only those of its options and of the
selectors. Its answers are few enough for their texts to tell them apart, even when the end of a
text is cut off: no text but that of success begins with the word for success. -/

namespace MarkupGrader

open Text (ZeroFree zeroFree_append)

namespace Grader

inductive IsSyntaxAnswer : Outcome → Prop
  | success : IsSyntaxAnswer .success
  | found (rest : Text) : IsSyntaxAnswer (.syntaxErrors ("line ".toList ++ rest))

/-- The outcomes of a query, by the command it was asked with. -/
inductive IsAnswer : Command → Outcome → Prop
  | success (c : Command) : IsAnswer c .success
  | style : IsAnswer .styleCheck (.styleViolation styleMismatch)
  | blocked (c : Command) : IsAnswer c (.syntaxErrors blockedBySyntax)
  | missing {t name : Text} (sub : name ⊆ t) : IsAnswer (.contains t) (.missingElement name)
  | unanswered (t : Text) : IsAnswer (.other t) .unanswered

inductive IsFault : Fault → Prop
  | configuration (message : Text) : IsFault (.moduleConfigurationFailed message)
  | selector (message : Text) : IsFault (.selectorParseFailed message)

inductive IsResult (c : Command) : Except Fault Outcome → Prop
  | ok {o : Outcome} (h : IsAnswer c o) : IsResult c (.ok o)
  | error {f : Fault} (h : IsFault f) : IsResult c (.error f)

theorem IsSyntaxAnswer.recovered {o : Outcome} (h : IsSyntaxAnswer o) :
    Outcome.ofSyntaxResponse o.toResponse = o := by
  cases h with
  | success => rfl
  | found rest => rfl

theorem IsSyntaxAnswer.toResponse_ne_nil {o : Outcome} (h : IsSyntaxAnswer o) :
    o.toResponse ≠ [] := by
  cases h with
  | success => decide
  | found rest => exact List.cons_ne_nil _ _

theorem IsSyntaxAnswer.eq_success {o : Outcome} (h : IsSyntaxAnswer o)
    (begins : Outcome.successWord <+: o.toResponse) : o = .success := by
  cases h with
  | success => rfl
  | found rest =>
    obtain ⟨more, eq⟩ := begins
    have first : some 'S' = some 'l' := congrArg List.head? eq
    cases first

theorem IsAnswer.recovers {command : Text} {o : Outcome} (h : IsAnswer (.ofText command) o) :
    Outcome.Recovers command o := by
  generalize read : Command.ofText command = c at h
  cases h with
  | success => exact .success
  | style => exact .styleViolation (Command.ofText_eq_styleCheck.mp read) ⟨by decide, rfl, rfl⟩
  | blocked => exact .syntaxErrors (Text.startsWith_iff.mp (by decide))
  | @missing t name sub => exact .missingElement (Command.prefix_of_contains read) name
  | unanswered => exact .unanswered

theorem IsAnswer.eq_success {c : Command} {o : Outcome} (h : IsAnswer c o)
    (begins : Outcome.successWord <+: o.toResponse) : o = .success := by
  obtain ⟨more, eq⟩ := begins
  -- The first two letters are enough: the text of another answer has no S, or no U behind it.
  have first : some 'S' = o.toResponse.head? := congrArg List.head? eq
  have second : some 'U' = o.toResponse.tail.head? := congrArg (·.tail.head?) eq
  cases h with
  | success => rfl
  | style => exact absurd second (by decide)
  | blocked => exact absurd first (by decide)
  | missing =>
    have : some 'S' = some 'T' := first
    cases this
  | unanswered => exact absurd first (by decide)

variable (g : Grader) {code command : Text} {o : Outcome}

theorem isSyntaxAnswer_checkSyntax (h : g.checkSyntax code = .ok o) : IsSyntaxAnswer o := by
  unfold checkSyntax at h
  split at h
  · cases h
    exact .success
  · next found nonempty =>
    cases h
    have : g.diagnostics code ≠ [] := nonempty
    obtain ⟨rest, eq⟩ := Diagnostic.exists_render_eq this
    rw [eq]
    exact .found rest

theorem exists_checkSyntax (code : Text) : ∃ o, g.checkSyntax code = .ok o := by
  unfold checkSyntax
  split <;> exact ⟨_, rfl⟩

theorem evaluate_eq_ok {report : ChainMatch} (h : g.evaluate code command = .ok report)
    {name : Text} (missing : report.missing = some name) : name ⊆ command := by
  unfold evaluate at h
  cases read : Selector.Chain.read command g.options.policy with
  | error failure =>
    rw [read] at h
    cases h
  | ok chain =>
    rw [read] at h
    cases h
    obtain ⟨s, found, rfl⟩ := Option.map_eq_some_iff.mp missing
    exact Selector.Chain.subset_of_mem_read read (List.mem_of_getElem? found)

theorem evaluate_eq_error {f : Fault} (h : g.evaluate code command = .error f) : IsFault f := by
  unfold evaluate at h
  cases read : Selector.Chain.read command g.options.policy with
  | error failure =>
    rw [read] at h
    cases h
    exact .selector _
  | ok chain =>
    rw [read] at h
    cases h

theorem isResult_contains (code command : Text) :
    IsResult (.contains command) (g.contains code command) := by
  unfold contains
  split
  · exact .ok (.blocked _)
  · cases report : g.evaluate code command with
    | error f => exact .error (g.evaluate_eq_error report)
    | ok r =>
      simp only [bind, Except.bind]
      split
      · next name missing => exact .ok (.missing (g.evaluate_eq_ok report missing))
      · exact .ok (.success _)

theorem validate_eq_error {options : Layout.Options} {f : Fault} (h : options.validate = .error f) :
    IsFault f := by
  unfold Layout.Options.validate at h
  split at h
  · cases h
  · cases h
    exact .configuration _

theorem format_eq (valid : g.options.layout.validate = .ok ()) (code : Text) :
    g.format code = .ok (Layout.render (g.document code) g.options.layout) := by
  rw [format, Layout.format, valid]
  rfl

/-- The layout of a page without faults is made of the lines of its items. -/
theorem format_of_items {items : List Markup.Item} (read : Markup.ReadAs code items)
    (tree : Markup.parse g.recovery code = Markup.documentNode code items)
    (plain : ∀ i ∈ items, i.Plain) (valid : g.options.layout.validate = .ok ()) :
    g.format code = .ok ((items.flatMap (·.lines 0)).flatMap
      (Layout.Line.render g.options.layout (g.options.layout.lineEnding.resolve code))) := by
  rw [g.format_eq valid, document, Document.parse, tree, Layout.render,
    Layout.lines_ofSyntax read plain]
  rfl

theorem isResult_checkStyle (code : Text) : IsResult .styleCheck (g.checkStyle code) := by
  unfold checkStyle
  cases valid : g.options.layout.validate with
  | error f => exact .error (validate_eq_error valid)
  | ok u =>
    simp only [bind, Except.bind, g.format_eq valid code]
    split
    · split
      · exact .ok (.success _)
      · exact .ok .style
    · exact .ok (.blocked _)

theorem isResult_query (code command : Text) :
    IsResult (.ofText command) (g.query code command) := by
  unfold query
  cases Command.ofText command with
  | styleCheck => exact g.isResult_checkStyle code
  | contains t => exact g.isResult_contains code t
  | other t => exact .ok (.unanswered t)

theorem isAnswer_query (h : g.query code command = .ok o) : IsAnswer (.ofText command) o := by
  have result := g.isResult_query code command
  rw [h] at result
  cases result with
  | ok answer => exact answer

theorem isFault_query {f : Fault} (h : g.query code command = .error f) : IsFault f := by
  have result := g.isResult_query code command
  rw [h] at result
  cases result with
  | error fault => exact fault

theorem zeroFree_checkSyntax (names : g.recovery.ZeroFreeNames) (zeroFree : code.ZeroFree)
    (h : g.checkSyntax code = .ok o) : o.toResponse.ZeroFree := by
  unfold checkSyntax at h
  split at h
  · cases h
    decide
  · cases h
    exact Diagnostic.zeroFree_render (Diagnostic.zeroFreeMessages_collect zeroFree
      (Markup.zeroFreeNames_parse names code) _)

theorem command_subset {t : Text} (h : Command.ofText command = .contains t) : t = command := by
  unfold Command.ofText at h
  split at h
  · cases h
  · split at h <;> cases h
    rfl

theorem zeroFree_query (zeroFree : command.ZeroFree) (h : g.query code command = .ok o) :
    o.toResponse.ZeroFree := by
  have answer := g.isAnswer_query h
  generalize read : Command.ofText command = c at answer
  cases answer with
  | success => decide
  | style => decide
  | blocked => decide
  | @missing t name sub =>
    rw [command_subset read] at sub
    rw [Outcome.toResponse, zeroFree_append, zeroFree_append]
    exact ⟨⟨by decide, Text.zeroFree_of_subset sub zeroFree⟩, by decide⟩
  | unanswered => exact List.not_mem_nil

end Grader
end MarkupGrader
