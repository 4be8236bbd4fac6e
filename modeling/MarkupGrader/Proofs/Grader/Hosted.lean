import MarkupGrader.Proofs.Boundary.Call
import MarkupGrader.Proofs.Grader.Answer

/-! The grader of HTML pages behind the boundary. A ready connection to it answers what the grader
itself answers, as long as the text of the answer fits the response buffer, and fails where the
grader fails, with a fault of the same code. -/

namespace MarkupGrader

namespace Grader

/-- The table that publishes the grader. -/
def exports (g : Grader) : Exports := .ofValidator g.validator g.options.responseCapacity

/-- The response of an outcome leaves room for the closing zero. -/
def Fits (g : Grader) (o : Outcome) : Prop :=
  o.toResponse.toUnits.length ≤ g.options.responseCapacity - 1

instance (g : Grader) (o : Outcome) : Decidable (g.Fits o) := inferInstanceAs (Decidable (_ ≤ _))

theorem IsFault.code_toFault {f : Fault} (h : IsFault f) (op : Operation) :
    (ErrorCode.toFault op (ErrorCode.ofFault f)).code = f.code := by
  cases h with
  | configuration message => exact ((ErrorCode.Tells.configuration message).toFault_ofFault op).1
  | selector message => exact ((ErrorCode.Tells.selector message).toFault_ofFault op).1

end Grader

namespace Connection

variable {σ : Type} {g : Grader} {k : Connection} {code command : Text}

theorem readyOn_start {r : Registry σ} {id name : Text} {e : Registration σ}
    (found : r.find? id name = some e) (html : e.loader = Registry.htmlLoader g) (w : σ) :
    (start r id name w).1.ReadyOn g.exports := by
  have resolved : r.resolve id name = Registry.htmlLoader g := by
    rw [Registry.resolve, found]
    exact html
  have loaded : (new id name).load r w = (.ok (), ⟨⟨id, name⟩, .loaded g.exports⟩, w) := by
    simp only [load, new, resolved]
    rfl
  rw [start, loaded]
  exact ⟨_, EntryPoints.ofExports_ofValidator _ _, rfl⟩

theorem checkSyntax_eq_of_fits (ready : k.ReadyOn g.exports)
    (room : 2 ≤ g.options.responseCapacity) (names : g.recovery.ZeroFreeNames)
    (zeroFree : code.ZeroFree) {o : Outcome} (answer : g.checkSyntax code = .ok o)
    (fits : g.Fits o) : k.checkSyntax code = .ok o := by
  have reply : g.validator.checkSyntax code = .answer o := Reply.ofExcept_eq_answer.mpr answer
  have free : ∀ a, Reply.answer o = .answer a → a.toResponse.ZeroFree := by
    rintro a ⟨⟩
    exact g.zeroFree_checkSyntax names zeroFree answer
  have whole : Buffer.fitting (g.options.responseCapacity - 1) o.toResponse = o.toResponse :=
    Buffer.fitting_of_length_le fits
  have syntaxAnswer := g.isSyntaxAnswer_checkSyntax answer
  have nonempty : o.toResponse.isEmpty = false := by
    simpa using syntaxAnswer.toResponse_ne_nil
  rw [checkSyntax, checkSyntaxText_eq ready zeroFree, reply, call_reply room free, Reply.hosted,
    whole, Except.map, nonempty, if_neg (by decide), syntaxAnswer.recovered]

theorem query_eq_of_fits (ready : k.ReadyOn g.exports) (room : 2 ≤ g.options.responseCapacity)
    (codeFree : code.ZeroFree) (commandFree : command.ZeroFree) {o : Outcome}
    (answer : g.query code command = .ok o) (fits : g.Fits o) :
    k.query code command = .ok o := by
  have reply : g.validator.query code command = .answer o := Reply.ofExcept_eq_answer.mpr answer
  have free : ∀ a, Reply.answer o = .answer a → a.toResponse.ZeroFree := by
    rintro a ⟨⟩
    exact g.zeroFree_query commandFree answer
  have whole : Buffer.fitting (g.options.responseCapacity - 1) o.toResponse = o.toResponse :=
    Buffer.fitting_of_length_le fits
  rw [query, queryText_eq ready codeFree commandFree, reply, call_reply room free, Reply.hosted,
    whole, Except.map, (g.isAnswer_query answer).recovers.recovered]

theorem query_eq_error (ready : k.ReadyOn g.exports) (room : 2 ≤ g.options.responseCapacity)
    (codeFree : code.ZeroFree) (commandFree : command.ZeroFree) {f : Fault}
    (failed : g.query code command = .error f) :
    ∃ f', k.query code command = .error f' ∧ f'.code = f.code := by
  have reply : g.validator.query code command = .fault f := by
    simp only [Grader.validator, failed, Reply.ofExcept]
  have free : ∀ a, (Reply.fault f : Reply Outcome) = .answer a → a.toResponse.ZeroFree := by
    rintro a ⟨⟩
  refine ⟨_, ?_, (g.isFault_query failed).code_toFault .query⟩
  rw [query, queryText_eq ready codeFree commandFree, reply, call_reply room free, Reply.hosted,
    Except.map]

/-- Hosted is local. An answer whose text fits comes back as it is, and a fault comes back with its
code. -/
theorem answers_eq_grader (code command : Text) (ready : k.ReadyOn g.exports)
    (room : 2 ≤ g.options.responseCapacity) (names : g.recovery.ZeroFreeNames)
    (codeFree : code.ZeroFree) (commandFree : command.ZeroFree) :
    ((∀ o, g.checkSyntax code = .ok o → g.Fits o → k.checkSyntax code = .ok o) ∧
      ∀ f, g.checkSyntax code = .error f →
        ∃ f', k.checkSyntax code = .error f' ∧ f'.code = f.code) ∧
    (∀ o, g.query code command = .ok o → g.Fits o → k.query code command = .ok o) ∧
      ∀ f, g.query code command = .error f →
        ∃ f', k.query code command = .error f' ∧ f'.code = f.code := by
  refine ⟨⟨fun o answer fits => ?_, fun f failed => ?_⟩, fun o answer fits => ?_,
    fun f failed => ?_⟩
  · exact checkSyntax_eq_of_fits ready room names codeFree answer fits
  · -- No syntax check fails, whatever the code.
    obtain ⟨o, answer⟩ := g.exists_checkSyntax code
    rw [answer] at failed
    cases failed
  · exact query_eq_of_fits ready room codeFree commandFree answer fits
  · exact query_eq_error ready room codeFree commandFree failed

theorem answers_eq_grader_div :
    let g : Grader := ⟨.default, .atEnd⟩
    let k := (start (Registry.withBuiltins g) "1" "html" ()).1
    k.checkSyntax "<!DOCTYPE html><p>a</p>" = .ok .success ∧
      k.query "<!DOCTYPE html><p>a</p>" "contains(body>div)" = .ok (.missingElement "div") := by
  intro g k
  have ready : k.ReadyOn g.exports := readyOn_start rfl rfl ()
  have equal := answers_eq_grader "<!DOCTYPE html><p>a</p>" "contains(body>div)" ready (by decide)
    Markup.Recovery.zeroFreeNames_atEnd (by decide) (by decide)
  exact ⟨equal.1.1 .success (by decide +kernel) (by decide +kernel),
    equal.2.1 (.missingElement "div") (by decide +kernel) (by decide +kernel)⟩

end Connection
end MarkupGrader
