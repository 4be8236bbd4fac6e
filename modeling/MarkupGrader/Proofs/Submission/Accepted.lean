import MarkupGrader.Proofs.Boundary.Crossing
import MarkupGrader.Proofs.Settings.Registered
import MarkupGrader.Proofs.Submission.Passed
import MarkupGrader.Proofs.Submission.Verdict

/-! Faultless code under settings that were checked. The word for success has seven letters, so it
comes through a response buffer of eight units and through none that is smaller. The settings admit
buffers from two units on, and with fewer than eight no submission passes at all. -/

namespace MarkupGrader

namespace Outcome

theorem isCut_successWord {c : Nat} {p : Text} (cut : Buffer.IsCut (c - 1) successWord p) :
    p = successWord ↔ 8 ≤ c := by
  have units : successWord.toUnits.length = 7 := by decide
  constructor
  · rintro rfl
    have fits := cut.fits
    rw [units] at fits
    omega
  · intro room
    have fits : successWord.toUnits.length ≤ c - 1 := by omega
    exact cut.isPrefix.eq_of_length_le (cut.longest _ List.prefix_rfl fits).length_le

theorem heardInSyntax_eq_success {t : Text} : heardInSyntax t = .success ↔ t = successWord := by
  refine ⟨fun heard => ?_, fun word => word ▸ rfl⟩
  unfold heardInSyntax at heard
  split at heard
  · cases heard
  · exact eq_successWord_of_ofSyntaxResponse heard

theorem heardInQuery_eq_success {command t : Text} :
    heardInQuery command t = .success ↔ t = successWord := by
  refine ⟨fun heard => ?_, fun word => word ▸ rfl⟩
  rw [heardInQuery_eq] at heard
  exact eq_successWord_of_ofQueryResponse heard

end Outcome

namespace Connection

variable {g : Grader} {k : Connection} {code command : Text}

theorem heardAs_success {op : Operation} {c : Nat} {understand : Text → Outcome}
    (meaning : ∀ t, understand t = .success ↔ t = Outcome.successWord)
    {heard : Except Fault Outcome} (h : (Reply.answer Outcome.success).HeardAs op (c - 1)
      Outcome.toResponse understand heard) :
    heard = .ok .success ↔ 8 ≤ c := by
  cases h with
  | answer cut => rw [Except.ok.injEq, meaning, Outcome.isCut_successWord cut]

theorem zeroFree_success {o : Outcome} (h : Reply.answer Outcome.success = .answer o) :
    o.toResponse.ZeroFree := by
  cases h
  decide

theorem checkSyntax_eq_success (ready : k.ReadyOn g.exports)
    (room : 2 ≤ g.options.responseCapacity) (codeFree : code.ZeroFree)
    (answer : g.checkSyntax code = .ok .success) :
    k.checkSyntax code = .ok .success ↔ 8 ≤ g.options.responseCapacity := by
  have reply : g.validator.checkSyntax code = .answer .success :=
    Reply.ofExcept_eq_answer.mpr answer
  have heard := (hears_of_readyOn ready room).checkSyntax code codeFree
  rw [reply] at heard
  exact heardAs_success (fun _ => Outcome.heardInSyntax_eq_success)
    (heard fun _ => zeroFree_success)

theorem query_eq_success (ready : k.ReadyOn g.exports) (room : 2 ≤ g.options.responseCapacity)
    (codeFree : code.ZeroFree) (commandFree : command.ZeroFree)
    (answer : g.query code command = .ok .success) :
    k.query code command = .ok .success ↔ 8 ≤ g.options.responseCapacity := by
  have reply : g.validator.query code command = .answer .success :=
    Reply.ofExcept_eq_answer.mpr answer
  have heard := (hears_of_readyOn ready room).query code command codeFree commandFree
  rw [reply] at heard
  exact heardAs_success (fun _ => Outcome.heardInQuery_eq_success)
    (heard fun _ => zeroFree_success)

theorem exists_identify (ready : k.ReadyOn g.exports) (room : 2 ≤ g.options.responseCapacity) :
    ∃ identity, k.identify = .ok identity := by
  have named : g.validator.identify = .answer Grader.identity := rfl
  have heard := (hears_of_readyOn ready room).identify
  rw [named] at heard
  have free : ∀ t, Reply.answer Grader.identity = .answer t → t.ZeroFree := by
    rintro t ⟨⟩
    decide
  generalize k.identify = result at heard
  cases heard free with
  | answer cut => exact ⟨_, rfl⟩

end Connection

namespace Submission

variable {σ : Type} {g : Grader} {r : Registry σ} {c : Option Cache} {l : Language} {code : Text}
  {queries : List Text}

theorem passed_iff_of_served (served : Served r c l g) (room : 2 ≤ g.options.responseCapacity)
    (nonempty : code ≠ []) (codeFree : code.ZeroFree) (queriesFree : ∀ q ∈ queries, q.ZeroFree)
    (checked : g.checkSyntax code = .ok .success)
    (all : ∀ q ∈ queries, g.query code q = .ok .success) (w : σ) :
    (run r c l code queries w).1.passed = true ↔ 8 ≤ g.options.responseCapacity := by
  obtain ⟨k, c', opened, ready, -⟩ := served.openConnection w
  have ran : (run r c l code queries w).1 = check k code queries := by
    rw [run, if_neg (by simpa using nonempty), opened]
  have syntaxHeard := Connection.checkSyntax_eq_success ready room codeFree checked
  rw [ran]
  refine ⟨fun passed => syntaxHeard.mp (passed_check passed).1, fun wide => ?_⟩
  obtain ⟨identity, identified⟩ := Connection.exists_identify ready room
  refine passed_of_success identified (syntaxHeard.mpr wide) fun q hq => ?_
  exact (Connection.query_eq_success ready room codeFree (queriesFree q hq) (all q hq)).mpr wide

/-- Accepted settings always give a registry. In it, for every configured language, faultless code
passes exactly if the response capacity leaves room for the word for success. A cache may be used
that has nothing else for the language. -/
theorem passed_iff_of_validate {s : Settings} (accepted : s.validate = .ok ())
    (recovery : Markup.Recovery) :
    ∃ r : Registry σ, s.registry recovery = .ok r ∧
      let g : Grader := ⟨s.options, recovery⟩
      ∀ e ∈ s.languages, ∀ (c : Option Cache) (code : Text) (queries : List Text) (w : σ),
        (∀ known, c = some known → ∀ x, known.get? e.language = some x → x = g.exports) →
        code ≠ [] → code.ZeroFree → (∀ q ∈ queries, q.ZeroFree) →
        g.checkSyntax code = .ok .success → (∀ q ∈ queries, g.query code q = .ok .success) →
        ((run r c e.language code queries w).1.passed = true ↔
          8 ≤ s.options.responseCapacity) := by
  obtain ⟨r, registered, serves⟩ := Settings.exists_registry (σ := σ) accepted recovery
  refine ⟨r, registered, ?_⟩
  intro g e he c code queries w cached nonempty codeFree queriesFree checked all
  have served : Served r c e.language g := ⟨serves e he, cached⟩
  exact passed_iff_of_served served (Settings.capacity_of_validate accepted) nonempty codeFree
    queriesFree checked all w

theorem passed_iff_of_validate_eight :
    let s : Settings :=
      ⟨{ Grader.Options.default with responseCapacity := 8 }, [⟨"7", "Page", "html"⟩]⟩
    s.validate = .ok () ∧ ∃ r : Registry Unit, s.registry .atEnd = .ok r ∧
      (run r none ⟨"7", "Page"⟩ "<!DOCTYPE html><p>a</p>" ["contains(body>p)"] ()).1.passed =
        true := by
  intro s
  have accepted : s.validate = .ok () := by decide +kernel
  obtain ⟨r, registered, passes⟩ := passed_iff_of_validate (σ := Unit) accepted .atEnd
  have served := passes _ (List.mem_singleton.mpr rfl) none "<!DOCTYPE html><p>a</p>"
    ["contains(body>p)"] () (by rintro known ⟨⟩) (by decide) (by decide) (by decide)
    (by decide +kernel) (by decide +kernel)
  exact ⟨accepted, r, registered, served.mpr (by decide)⟩

/-- A buffer of seven units cuts the word for success, and the learner is shown what is left. -/
theorem not_passed_seven :
    let s : Settings :=
      ⟨{ Grader.Options.default with requireDoctype := false, responseCapacity := 7 },
        [⟨"1", "HTML", "html"⟩]⟩
    let g : Grader := ⟨s.options, .atEnd⟩
    let l : Language := ⟨"1", "HTML"⟩
    s.validate = .ok () ∧ g.checkSyntax "<p>a</p>" = .ok .success ∧
      ∃ r : Registry Unit, s.registry .atEnd = .ok r ∧ (run r none l "<p>a</p>" [] ()).1 =
        ⟨l, some "HTML C", some (.syntaxErrors "SUCCES"), [], none, ["SUCCES"], false⟩ := by
  intro s g l
  refine ⟨by decide +kernel, by decide +kernel, _, rfl, by decide +kernel⟩

end Submission
end MarkupGrader
