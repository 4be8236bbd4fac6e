import MarkupGrader.Proofs.Grader.Hosted
import MarkupGrader.Submission.Check

/-! A submission passes only if the grader itself finds nothing wrong with it. What is cut from a
response on its way can turn a failure into another failure, but never into a success, and no step
of the check is left out. -/

namespace MarkupGrader

namespace Connection

variable {g : Grader} {k : Connection} {code command : Text}

theorem checkSyntax_success (ready : k.ReadyOn g.exports) (zeroFree : code.ZeroFree)
    (h : k.checkSyntax code = .ok .success) : g.checkSyntax code = .ok .success := by
  rw [checkSyntax] at h
  cases read : k.checkSyntaxText code with
  | error f =>
    rw [read] at h
    cases h
  | ok t =>
    have heard : t = Outcome.successWord := by
      rw [read] at h
      simp only [Except.map, Except.ok.injEq] at h
      split at h
      · cases h
      · exact Outcome.eq_successWord_of_ofSyntaxResponse h
    rw [heard, checkSyntaxText_eq ready zeroFree] at read
    obtain ⟨o, reply, begins⟩ := answer_of_call_reply read (by decide)
    have answer : g.checkSyntax code = .ok o := Reply.ofExcept_eq_answer.mp reply
    rw [answer, (g.isSyntaxAnswer_checkSyntax answer).eq_success begins]

theorem query_success (ready : k.ReadyOn g.exports) (codeFree : code.ZeroFree)
    (commandFree : command.ZeroFree) (h : k.query code command = .ok .success) :
    g.query code command = .ok .success := by
  rw [query] at h
  cases read : k.queryText code command with
  | error f =>
    rw [read] at h
    cases h
  | ok t =>
    have heard : t = Outcome.successWord := by
      rw [read] at h
      simp only [Except.map, Except.ok.injEq] at h
      exact Outcome.eq_successWord_of_ofQueryResponse h
    rw [heard, queryText_eq ready codeFree commandFree] at read
    obtain ⟨o, reply, begins⟩ := answer_of_call_reply read (by decide)
    have answer : g.query code command = .ok o := Reply.ofExcept_eq_answer.mp reply
    rw [answer, (g.isAnswer_query answer).eq_success begins]

end Connection

namespace Submission

variable {σ : Type} {g : Grader} {r : Registry σ} {c : Option Cache} {l : Language}
  {code : Text} {queries : List Text}

theorem passed_runQueries {ask : Text → Except Fault Outcome} {queries : List Text} {r : Report}
    (open_ : r.passed = false) (h : (runQueries ask queries r).passed = true) :
    r.feedback = [] ∧ ∀ q ∈ queries, ask q = .ok .success := by
  -- Only the end of the list can finish a report as passed, and only if all was well before.
  induction queries generalizing r with
  | nil => exact ⟨List.isEmpty_iff.mp h, by simp⟩
  | cons command rest ih =>
    unfold runQueries at h
    cases answer : ask command with
    | error f =>
      rw [answer] at h
      have : r.passed = true := h
      rw [open_] at this
      cases this
    | ok o =>
      rw [answer] at h
      cases good : o.isSuccess with
      | true =>
        obtain rfl : o = .success := by simpa [Outcome.isSuccess] using good
        obtain ⟨clear, others⟩ := ih (r := r.withQuery command .success) open_ h
        refine ⟨clear, fun q hq => ?_⟩
        rcases List.mem_cons.mp hq with rfl | hq
        · exact answer
        · exact others q hq
      | false =>
        simp [good, Report.finish, Report.withQuery, Report.addFeedback] at h

theorem passed_check {k : Connection} (h : (check k code queries).passed = true) :
    k.checkSyntax code = .ok .success ∧ ∀ q ∈ queries, k.query code q = .ok .success := by
  unfold check at h
  cases identity : k.identify with
  | error f =>
    rw [identity] at h
    cases h
  | ok identity' =>
    cases answer : k.checkSyntax code with
    | error f =>
      rw [identity, answer] at h
      cases h
    | ok o =>
      rw [identity, answer] at h
      obtain ⟨clear, all⟩ := passed_runQueries (by cases good : o.isSuccess <;>
        simp [Report.withSyntax, Report.addFeedback, good, Report.new]) h
      cases good : o.isSuccess with
      | true =>
        obtain rfl : o = .success := by simpa [Outcome.isSuccess] using good
        exact ⟨rfl, all⟩
      | false => simp [Report.withSyntax, Report.addFeedback, good] at clear

/-- A language is served by the grader, from the registry, and from the cache as far as the cache
knows the language. -/
structure Served (r : Registry σ) (c : Option Cache) (l : Language) (g : Grader) : Prop where
  registered : ∃ e, r.find? l.id l.name = some e ∧ e.loader = Registry.htmlLoader g
  cached : ∀ known, c = some known → ∀ e, known.get? l = some e → e = g.exports

theorem Served.resolve (h : Served r c l g) (w : σ) :
    r.resolve l.id l.name w = (.ok g.exports, w) := by
  obtain ⟨e, found, html⟩ := h.registered
  rw [Registry.resolve, found]
  exact congrFun html w

theorem Served.getOrLoad {known : Cache} (h : Served r (some known) l g) (w : σ) :
    ∃ known', known.getOrLoad r l w = (.ok g.exports, known', w) ∧
      Served r (some known') l g := by
  rw [Cache.getOrLoad]
  cases found : known.get? l with
  | some e =>
    obtain rfl := h.cached known rfl e found
    exact ⟨known, rfl, h⟩
  | none =>
    refine ⟨⟨(l, g.exports) :: known.entries⟩, by rw [h.resolve], h.registered, ?_⟩
    intro fresh eq e found
    obtain rfl := Option.some.inj eq
    have same : l.same l = true := Language.same_iff.mpr rfl
    simpa [Cache.get?, same, eq_comm] using found

theorem Served.openConnection (h : Served r c l g) (w : σ) :
    ∃ k c', openConnection r c l w = (.ok k, c', w) ∧ k.ReadyOn g.exports ∧ Served r c' l g := by
  have ready : Connection.ReadyOn ⟨l, .ready (.ofValidator g.validator
      g.options.responseCapacity)⟩ g.exports :=
    ⟨_, EntryPoints.ofExports_ofValidator _ _, rfl⟩
  cases c with
  | none =>
    refine ⟨_, none, ?_, ready, h⟩
    simp only [Submission.openConnection, Connection.load, Connection.new, h.resolve w]
    rfl
  | some known =>
    obtain ⟨known', loaded, served⟩ := h.getOrLoad w
    refine ⟨_, some known', ?_, ready, served⟩
    simp only [Submission.openConnection, Connection.loadCached, Connection.new, loaded]
    rfl

/-- No submission passes that the grader would not let pass. -/
theorem success_of_passed (code : Text) (queries : List Text) (w : σ) (served : Served r c l g)
    (codeFree : code.ZeroFree) (queriesFree : ∀ q ∈ queries, q.ZeroFree)
    (passed : (run r c l code queries w).1.passed = true) :
    code ≠ [] ∧ g.checkSyntax code = .ok .success ∧
      ∀ q ∈ queries, g.query code q = .ok .success := by
  obtain ⟨k, c', opened, ready, -⟩ := served.openConnection w
  unfold Submission.run at passed
  split at passed
  · cases passed
  · next nonempty =>
    rw [opened] at passed
    obtain ⟨syntax_, all⟩ := passed_check passed
    refine ⟨by simpa using nonempty, Connection.checkSyntax_success ready codeFree syntax_, ?_⟩
    intro q hq
    exact Connection.query_success ready codeFree (queriesFree q hq) (all q hq)

theorem success_of_passed_paragraph :
    let g : Grader := ⟨.default, .atEnd⟩
    let r : Registry Unit := Registry.withBuiltins g
    (run r (some .empty) ⟨"1", "html"⟩ "<!DOCTYPE html><p>a</p>" ["contains(body>p)"] ()).1.passed
        = true ∧
      g.checkSyntax "<!DOCTYPE html><p>a</p>" = .ok .success ∧
      g.query "<!DOCTYPE html><p>a</p>" "contains(body>p)" = .ok .success := by
  intro g r
  have served : Served r (some .empty) ⟨"1", "html"⟩ g :=
    ⟨⟨_, rfl, rfl⟩, by rintro _ ⟨⟩ e ⟨⟩⟩
  have passed : (run r (some .empty) ⟨"1", "html"⟩ "<!DOCTYPE html><p>a</p>"
      ["contains(body>p)"] ()).1.passed = true := by decide +kernel
  obtain ⟨-, syntax_, all⟩ := success_of_passed "<!DOCTYPE html><p>a</p>" ["contains(body>p)"] ()
    served (by decide) (by decide) passed
  exact ⟨passed, syntax_, all _ List.mem_cons_self⟩

end Submission
end MarkupGrader
