import MarkupGrader.Proofs.Connection.LifeCycle
import MarkupGrader.Submission.Check

/-! What the report on a submission says, told from what the module answers. The check goes from one
step to the next until a fault or a failing query ends it. Every step up to there is in the report,
nothing behind it matters, and the submission passes exactly if there is nothing to tell the
learner. -/

namespace MarkupGrader

namespace Report

def faultLine (f : Fault) : Text := "CodeChecker Error (" ++ Text.ofNat f.code ++ ")"

def outcomeLines (o : Outcome) : List Text := if o = .success then [] else [o.message]

theorem outcomeLines_eq_nil {o : Outcome} : outcomeLines o = [] ↔ o = .success := by
  unfold outcomeLines
  split
  · next success => exact iff_of_true rfl success
  · next failure => exact iff_of_false (List.cons_ne_nil _ _) failure

theorem addFeedback_eq (r : Report) (o : Outcome) :
    r.addFeedback o = { r with feedback := r.feedback ++ outcomeLines o } := by
  unfold addFeedback outcomeLines
  by_cases success : o = .success
  · simp [success, Outcome.isSuccess]
  · simp [success, Outcome.isSuccess]

end Report

namespace Submission

open Report (faultLine outcomeLines)

variable {σ : Type} {ask : Text → Except Fault Outcome} {queries : List Text}

/-- The results of queries that were all answered with success. -/
def successes (queries : List Text) : List QueryResult := queries.map fun q => ⟨q, .success⟩

/-- Of the queries, the one at place `n` is the first that is not answered with success. -/
structure FirstFailing (ask : Text → Except Fault Outcome) (queries : List Text) (n : Nat)
    (q : Text) : Prop where
  here : queries[n]? = some q
  fails : ask q ≠ .ok .success
  before : ∀ p ∈ queries.take n, ask p = .ok .success

theorem FirstFailing.cons {p q : Text} {n : Nat} (success : ask p = .ok .success)
    (h : FirstFailing ask queries n q) : FirstFailing ask (p :: queries) (n + 1) q where
  here := h.here
  fails := h.fails
  before := List.forall_mem_cons.mpr ⟨success, h.before⟩

theorem firstFailing_cons_self {q : Text} (fails : ask q ≠ .ok .success) :
    FirstFailing ask (q :: queries) 0 q where
  here := rfl
  fails := fails
  before := by simp

/-- What asking the queries brings: the results, the fault that ended it, and what the learner is
shown. -/
inductive Answers (ask : Text → Except Fault Outcome) (queries : List Text) :
    List QueryResult → Option Fault → List Text → Prop
  | complete (all : ∀ q ∈ queries, ask q = .ok .success) :
      Answers ask queries (successes queries) none []
  | failed {n : Nat} {q : Text} {o : Outcome} (first : FirstFailing ask queries n q)
      (answer : ask q = .ok o) :
      Answers ask queries (successes (queries.take n) ++ [⟨q, o⟩]) none [o.message]
  | aborted {n : Nat} {q : Text} {f : Fault} (first : FirstFailing ask queries n q)
      (answer : ask q = .error f) :
      Answers ask queries (successes (queries.take n)) (some f) [faultLine f]

variable {results : List QueryResult} {fault : Option Fault} {shown : List Text}

theorem Answers.cons {q : Text} (success : ask q = .ok .success)
    (h : Answers ask queries results fault shown) :
    Answers ask (q :: queries) (⟨q, .success⟩ :: results) fault shown := by
  cases h with
  | complete all => exact .complete (List.forall_mem_cons.mpr ⟨success, all⟩)
  | failed first answer => exact .failed (first.cons success) answer
  | aborted first answer => exact .aborted (first.cons success) answer

theorem Answers.shown_eq_nil (h : Answers ask queries results fault shown) :
    shown = [] ↔ fault = none ∧ results = successes queries := by
  cases h with
  | complete all => exact iff_of_true rfl ⟨rfl, rfl⟩
  | @failed n q o first answer =>
    refine iff_of_false (List.cons_ne_nil _ _) fun ⟨_, equal⟩ => first.fails ?_
    have success : (⟨q, o⟩ : QueryResult) ∈ successes queries :=
      equal ▸ List.mem_append_right _ (List.mem_singleton.mpr rfl)
    obtain ⟨p, -, same⟩ := List.mem_map.mp success
    cases same
    exact answer
  | aborted first answer =>
    exact iff_of_false (List.cons_ne_nil _ _) fun ⟨noFault, _⟩ => Option.some_ne_none _ noFault

theorem exists_answers (ask : Text → Except Fault Outcome) (queries : List Text) {r : Report}
    (unfinished : r.passed = false) (faultless : r.fault = none) :
    ∃ results fault shown, Answers ask queries results fault shown ∧
      runQueries ask queries r =
        { r with
          queries := r.queries ++ results
          fault
          feedback := r.feedback ++ shown
          passed := (r.feedback ++ shown).isEmpty } := by
  induction queries generalizing r with
  | nil =>
    refine ⟨_, _, _, .complete (by simp), ?_⟩
    cases r
    cases faultless
    simp [runQueries, Report.finish, successes]
  | cons q rest ih =>
    cases answer : ask q with
    | error f =>
      have fails : ask q ≠ .ok .success := by simp [answer]
      have told : (r.feedback ++ [faultLine f]).isEmpty = false := by simp
      refine ⟨_, _, _, .aborted (firstFailing_cons_self fails) answer, ?_⟩
      rw [runQueries, answer, told, ← unfinished, successes, List.take_zero, List.map_nil,
        List.append_nil]
      rfl
    | ok o =>
      by_cases success : o = .success
      · subst success
        have next := ih (r := r.withQuery q .success) unfinished faultless
        obtain ⟨results, fault, shown, answers, eq⟩ := next
        refine ⟨_, _, _, answers.cons answer, ?_⟩
        have step : runQueries ask (q :: rest) r =
            runQueries ask rest (r.withQuery q .success) := by
          simp [runQueries, answer, Outcome.isSuccess]
        rw [step, eq]
        simp [Report.withQuery, Report.addFeedback, Outcome.isSuccess]
      · have fails : ask q ≠ .ok .success := by simp [answer, success]
        refine ⟨_, _, _, .failed (firstFailing_cons_self fails) answer, ?_⟩
        have failure : o.isSuccess = false := by simpa [Outcome.isSuccess] using success
        simp [runQueries, answer, failure, Report.finish, Report.withQuery, Report.addFeedback,
          successes, faultless]

/-- The first query that fails is the last that is asked. -/
theorem runQueries_append (more : List Text) (r : Report)
    (h : ¬ ∀ q ∈ queries, ask q = .ok .success) :
    runQueries ask (queries ++ more) r = runQueries ask queries r := by
  induction queries generalizing r with
  | nil => exact absurd (by simp) h
  | cons q rest ih =>
    rw [List.cons_append, runQueries, runQueries]
    cases answer : ask q with
    | error f => rfl
    | ok o =>
      by_cases success : o.isSuccess = true
      · have later : ¬ ∀ p ∈ rest, ask p = .ok .success := fun all => by
          obtain rfl : o = .success := by simpa [Outcome.isSuccess] using success
          exact h (List.forall_mem_cons.mpr ⟨answer, all⟩)
        simp only [success, if_true, ih _ later]
      · simp only [success, if_false, Bool.false_eq_true]

theorem FirstFailing.not_all {n : Nat} {q : Text} (h : FirstFailing ask queries n q) :
    ¬ ∀ p ∈ queries, ask p = .ok .success := fun all =>
  h.fails (all q (List.mem_of_getElem? h.here))

theorem not_all_of_trouble {r : Report} (unfinished : r.passed = false) (faultless : r.fault = none)
    (unasked : r.queries = [])
    (h : (runQueries ask queries r).fault ≠ none ∨
      ∃ x ∈ (runQueries ask queries r).queries, x.outcome ≠ .success) :
    ¬ ∀ q ∈ queries, ask q = .ok .success := by
  obtain ⟨results, fault, shown, answers, eq⟩ := exists_answers ask queries unfinished faultless
  rw [eq] at h
  cases answers with
  | failed first answer => exact first.not_all
  | aborted first answer => exact first.not_all
  | complete all =>
    rcases h with faulty | ⟨x, mem, failure⟩
    · exact absurd rfl faulty
    · have success : x ∈ successes queries := by simpa [unasked] using mem
      obtain ⟨q, -, rfl⟩ := List.mem_map.mp success
      exact absurd rfl failure

/-- The course of a check, by what opening a connection brought. A fault ends it at once. -/
inductive Course (l : Language) (code : Text) (queries : List Text) :
    Except Fault Connection → Report → Prop
  | notOpened (f : Fault) :
      Course l code queries (.error f) ⟨l, none, none, [], some f, [faultLine f], false⟩
  | notIdentified {k : Connection} {f : Fault} (identified : k.identify = .error f) :
      Course l code queries (.ok k) ⟨l, none, none, [], some f, [faultLine f], false⟩
  | notChecked {k : Connection} {identity : Text} {f : Fault}
      (identified : k.identify = .ok identity) (checked : k.checkSyntax code = .error f) :
      Course l code queries (.ok k)
        ⟨l, some identity, none, [], some f, [faultLine f], false⟩
  | asked {k : Connection} {identity : Text} {o : Outcome} {results : List QueryResult}
      {fault : Option Fault} {shown : List Text} (identified : k.identify = .ok identity)
      (checked : k.checkSyntax code = .ok o)
      (answers : Answers (k.query code) queries results fault shown) :
      Course l code queries (.ok k)
        ⟨l, some identity, some o, results, fault, outcomeLines o ++ shown,
          (outcomeLines o ++ shown).isEmpty⟩

theorem withSyntax_new (l : Language) (identity : Text) (o : Outcome) :
    ({ Report.new l with identity := some identity }).withSyntax o =
      ⟨l, some identity, some o, [], none, outcomeLines o, false⟩ := by
  rw [Report.withSyntax, Report.addFeedback_eq]
  rfl

theorem course_check (k : Connection) (code : Text) (queries : List Text) :
    Course k.language code queries (.ok k) (check k code queries) := by
  unfold check
  cases identified : k.identify with
  | error f => exact .notIdentified identified
  | ok identity =>
    cases checked : k.checkSyntax code with
    | error f => exact .notChecked identified checked
    | ok o =>
      obtain ⟨results, fault, shown, answers, eq⟩ := @exists_answers (k.query code) queries
        ⟨k.language, some identity, some o, [], none, outcomeLines o, false⟩ rfl rfl
      simp only [withSyntax_new, eq, List.nil_append]
      exact .asked identified checked answers

theorem language_of_init {k k' : Connection} (ready : k.init = (.ok (), k')) :
    k'.language = k.language := by
  have kept := Connection.language_use k (.init : Connection.Use Unit)
  rw [Connection.use, ready] at kept
  exact kept

theorem language_openConnection {r : Registry σ} {c : Option Cache} {l : Language} {w : σ}
    {k : Connection} (opened : (openConnection r c l w).1 = .ok k) : k.language = l := by
  unfold openConnection at opened
  -- Both ways of loading leave the connection for the same language, and so does making it ready.
  cases c with
  | none =>
    have kept := Connection.language_use (Connection.new l.id l.name) (.load r w)
    rw [(Connection.use_load _ r w).2.1] at kept
    rcases loaded : (Connection.new l.id l.name).load r w with ⟨_ | _, k₁, w'⟩
    · simp only [loaded] at opened
      cases opened
    · rcases ready : k₁.init with ⟨_ | _, k₂⟩
      · simp only [loaded, ready] at opened
        cases opened
      · simp only [loaded, ready] at opened kept
        cases opened
        exact (language_of_init ready).trans kept
  | some known =>
    have kept := Connection.language_use (Connection.new l.id l.name) (.loadCached r known w)
    rw [(Connection.use_loadCached _ r known w).2.1] at kept
    rcases loaded : (Connection.new l.id l.name).loadCached r known w with ⟨_ | _, k₁, known', w'⟩
    · simp only [loaded] at opened
      cases opened
    · rcases ready : k₁.init with ⟨_ | _, k₂⟩
      · simp only [loaded, ready] at opened
        cases opened
      · simp only [loaded, ready] at opened kept
        cases opened
        exact (language_of_init ready).trans kept

theorem course_run {r : Registry σ} {c : Option Cache} {l : Language} {code : Text}
    (queries : List Text) (w : σ) (nonempty : code ≠ []) :
    Course l code queries (openConnection r c l w).1 (run r c l code queries w).1 := by
  have notEmpty : code.isEmpty = false := by simpa using nonempty
  unfold run
  rw [notEmpty, if_neg Bool.false_ne_true]
  cases opened : openConnection r c l w with
  | mk result rest =>
    cases result with
    | error f => exact .notOpened f
    | ok k =>
      have same : k.language = l := language_openConnection (congrArg Prod.fst opened)
      have course := course_check k code queries
      rwa [same] at course

theorem Course.passed_iff {l : Language} {code : Text} {opened : Except Fault Connection}
    {report : Report} (h : Course l code queries opened report) :
    report.passed = true ↔ report.feedback = [] := by
  cases h with
  | notOpened f => simp
  | notIdentified identified => simp
  | notChecked identified checked => simp
  | asked identified checked answers => exact List.isEmpty_iff

theorem Course.feedback_eq_nil {l : Language} {code : Text} {opened : Except Fault Connection}
    {report : Report} (h : Course l code queries opened report) :
    report.feedback = [] ↔ report.fault = none ∧ report.identity.isSome = true ∧
      report.syntaxResult = some .success ∧ report.queries = successes queries := by
  cases h with
  | notOpened f => simp
  | notIdentified identified => simp
  | notChecked identified checked => simp
  | @asked k identity o results fault shown identified checked answers =>
    have none := Report.outcomeLines_eq_nil (o := o)
    have clear := answers.shown_eq_nil
    simp only [List.append_eq_nil_iff, none, clear, Option.isSome_some, Option.some.injEq]
    tauto

theorem passed_of_success {k : Connection} {code identity : Text}
    (identified : k.identify = .ok identity) (checked : k.checkSyntax code = .ok .success)
    (all : ∀ q ∈ queries, k.query code q = .ok .success) :
    (check k code queries).passed = true := by
  obtain ⟨results, fault, shown, answers, eq⟩ := @exists_answers (k.query code) queries
    ⟨k.language, some identity, some .success, [], none, outcomeLines .success, false⟩ rfl rfl
  have nothing : shown = [] := by
    cases answers with
    | complete _ => rfl
    | failed first _ => exact absurd all first.not_all
    | aborted first _ => exact absurd all first.not_all
  simp only [check, identified, checked, withSyntax_new, eq, nothing]
  rfl

/-- A check that was aborted, or has failed in a query, would go no further with more queries. -/
theorem check_append {k : Connection} {code : Text} (more : List Text)
    (h : (check k code queries).fault ≠ none ∨
      ∃ x ∈ (check k code queries).queries, x.outcome ≠ .success) :
    check k code (queries ++ more) = check k code queries := by
  unfold check at h ⊢
  cases identified : k.identify with
  | error f => rfl
  | ok identity =>
    cases checked : k.checkSyntax code with
    | error f => rfl
    | ok o =>
      simp only [identified, checked] at h ⊢
      rw [withSyntax_new] at h ⊢
      exact runQueries_append more _ (not_all_of_trouble rfl rfl rfl h)

theorem run_append {r : Registry σ} {c : Option Cache} {l : Language} {code : Text}
    (more : List Text) {w : σ} (h : (run r c l code queries w).1.fault ≠ none ∨
      ∃ x ∈ (run r c l code queries w).1.queries, x.outcome ≠ .success) :
    run r c l code (queries ++ more) w = run r c l code queries w := by
  unfold run at h ⊢
  split
  · rfl
  · next nonempty =>
    rw [if_neg nonempty] at h
    rcases opened : openConnection r c l w with ⟨_ | k, c', w'⟩
    · rfl
    · rw [opened] at h
      simp only [check_append more h]

/-- The verdict on a submission. Only the last conjunct is about a submission without code: it is
refused whatever the registry is, and neither the cache nor the loaders' world is touched. -/
theorem verdict (r : Registry σ) (c : Option Cache) (l : Language) (code : Text)
    (queries more : List Text) (w : σ) :
    let report := (run r c l code queries w).1
    (code ≠ [] → Course l code queries (openConnection r c l w).1 report) ∧
    (report.passed = true ↔ report.feedback = []) ∧
    (report.passed = true ↔ report.fault = none ∧ report.identity.isSome = true ∧
      report.syntaxResult = some .success ∧ report.queries = successes queries) ∧
    (report.fault ≠ none ∨ (∃ x ∈ report.queries, x.outcome ≠ .success) →
      run r c l code (queries ++ more) w = run r c l code queries w) ∧
    run r c l [] queries w = (⟨l, none, none, [], none, [Report.noCode], false⟩, c, w) := by
  intro report
  have course : code ≠ [] → Course l code queries (openConnection r c l w).1 report :=
    course_run queries w
  refine ⟨course, ?_, ?_, run_append more, rfl⟩
  · rcases eq_or_ne code [] with rfl | nonempty
    · exact iff_of_false Bool.false_ne_true (List.cons_ne_nil _ _)
    · exact (course nonempty).passed_iff
  · rcases eq_or_ne code [] with rfl | nonempty
    · exact iff_of_false Bool.false_ne_true fun ⟨_, identified, _⟩ => Bool.false_ne_true identified
    · exact (course nonempty).passed_iff.trans (course nonempty).feedback_eq_nil

/-- After syntax errors the queries are asked, up to the second, and a third would not be. -/
theorem verdict_second_query :
    let v : Validator := ⟨.answer "Demo", fun _ => .answer (.syntaxErrors "no end tag"),
      fun _ q => .answer (if q = "one" then .success else .rejected "no two")⟩
    let r : Registry Unit := Registry.empty.register
      ⟨⟨"7", "demo"⟩, "demo", fun w => (.ok (.ofValidator v 64), w)⟩
    let l : Language := ⟨"7", "Demo"⟩
    let report : Report := ⟨l, some "Demo", some (.syntaxErrors "no end tag"),
      [⟨"one", .success⟩, ⟨"two", .rejected "no two"⟩], none, ["no end tag", "no two"], false⟩
    (run r none l "x" ["one", "two"] ()).1 = report ∧
      Course l "x" ["one", "two"] (openConnection r none l ()).1 report ∧
      (run r none l "x" ["one", "two", "three"] ()).1 = report := by
  intro v r l report
  have ran : (run r none l "x" ["one", "two"] ()).1 = report := by decide +kernel
  obtain ⟨course, -, -, append, -⟩ := verdict r none l "x" ["one", "two"] ["three"] ()
  rw [ran] at course append
  have failing : ∃ x ∈ report.queries, x.outcome ≠ .success :=
    ⟨⟨"two", .rejected "no two"⟩, by simp [report], by simp⟩
  have same := append (.inr failing)
  refine ⟨ran, course (by decide), ?_⟩
  rw [← ran]
  exact congrArg Prod.fst same

end Submission
end MarkupGrader
