import MarkupGrader.Connection
import MarkupGrader.Proofs.Language.Loads

/-! All that can be done with a connection, as one step with an effect. The effect says what came
back, what the connection is afterwards, how often a loader was called and which entry point. Calls
of loaders are counted by loading from a registry whose loaders count. -/

namespace MarkupGrader

variable {σ : Type}

namespace Connection

/-- What a connection may be asked, for an outcome or for the bare text. -/
inductive Question
  | identify
  | checkSyntax (code : Text)
  | checkSyntaxText (code : Text)
  | query (code command : Text)
  | queryText (code command : Text)

inductive Answer
  | done
  | text (t : Text)
  | outcome (o : Outcome)

namespace Question

def operation : Question → Operation
  | identify => .identify
  | checkSyntax _ | checkSyntaxText _ => .checkSyntax
  | query _ _ | queryText _ _ => .query

def entryPoint (entry : EntryPoints) : Question → Buffer → Buffer
  | identify => entry.identify
  | checkSyntax code | checkSyntaxText code => entry.checkSyntax code.toUnits
  | query code command | queryText code command => entry.query code.toUnits command.toUnits

/-- What is made of the text that came back. -/
def read (t : Text) : Question → Answer
  | identify | checkSyntaxText _ | queryText _ _ => .text t
  | checkSyntax _ => .outcome (if t.isEmpty then .unanswered else .ofSyntaxResponse t)
  | query _ command => .outcome (.ofQueryResponse command t)

end Question

def ask (k : Connection) : Question → Except Fault Answer
  | .identify => k.identify.map .text
  | .checkSyntax code => (k.checkSyntax code).map .outcome
  | .checkSyntaxText code => (k.checkSyntaxText code).map .text
  | .query code command => (k.query code command).map .outcome
  | .queryText code command => (k.queryText code command).map .text

theorem map_outcome (answer : Except Fault Text) (f : Text → Outcome) :
    (answer.map f).map Answer.outcome = answer.map fun t => .outcome (f t) := by
  cases answer <;> rfl

theorem ask_eq (k : Connection) (q : Question) :
    k.ask q = k.entry >>= fun entry =>
      (call q.operation entry.capacity (q.entryPoint entry)).map fun t => q.read t := by
  cases q with
  | identify =>
    rw [ask, identify]
    cases k.entry <;> rfl
  | checkSyntax code =>
    rw [ask, checkSyntax, checkSyntaxText]
    cases k.entry with
    | error f => rfl
    | ok entry => exact map_outcome _ _
  | checkSyntaxText code =>
    rw [ask, checkSyntaxText]
    cases k.entry <;> rfl
  | query code command =>
    rw [ask, query, queryText]
    cases k.entry with
    | error f => rfl
    | ok entry => exact map_outcome _ _
  | queryText code command =>
    rw [ask, queryText]
    cases k.entry <;> rfl

/-- One operation on a connection. Each loading has a registry, a cache and a world of its own, for
they may have changed since the last. -/
inductive Use (σ : Type)
  | load (r : Registry σ) (w : σ)
  | loadCached (r : Registry σ) (c : Cache) (w : σ)
  | init
  | ask (q : Question)

namespace Use

def cache? : Use σ → Option Cache
  | loadCached _ c _ => some c
  | _ => none

def world? : Use σ → Option σ
  | load _ w | loadCached _ _ w => some w
  | _ => none

def loaded? (l : Language) : Use σ → Option (Except Fault Exports)
  | load r w => some (r.resolve l.id l.name w).1
  | loadCached r c w => some (c.getOrLoad r l w).1
  | _ => none

end Use

structure Effect (σ : Type) where
  result : Except Fault Answer
  connection : Connection
  cache? : Option Cache
  world? : Option σ
  /-- How often a loader was called. -/
  loads : Nat
  /-- The entry point that was called. -/
  called? : Option (Buffer → Buffer)

def use (k : Connection) : Use σ → Effect σ
  | .load r w =>
    let (result, k, w, n) := k.load r.counted (w, 0)
    ⟨result.map fun _ => .done, k, none, some w, n, none⟩
  | .loadCached r c w =>
    let (result, k, c, w, n) := k.loadCached r.counted c (w, 0)
    ⟨result.map fun _ => .done, k, some c, some w, n, none⟩
  | .init =>
    let (result, k) := k.init
    ⟨result.map fun _ => .done, k, none, none, 0, none⟩
  | .ask q => ⟨k.ask q, k, none, none, 0, k.entry.toOption.map q.entryPoint⟩

/-- The effect of an operation that changes nothing. -/
def idle (k : Connection) (u : Use σ) (result : Except Fault Answer) : Effect σ :=
  ⟨result, k, u.cache?, u.world?, 0, none⟩

variable {k : Connection} {u : Use σ}

theorem use_load (k : Connection) (r : Registry σ) (w : σ) :
    (k.use (.load r w)).result = ((k.load r w).1.map fun _ => .done) ∧
      (k.use (.load r w)).connection = (k.load r w).2.1 ∧
      (k.use (.load r w)).world? = some (k.load r w).2.2 := by
  obtain ⟨m, -, eq⟩ := r.resolve_counted k.language.id k.language.name w 0
  unfold use load
  cases k.stage with
  | uninitialized =>
    simp only [eq, and_self]
  | loaded e => exact ⟨rfl, rfl, rfl⟩
  | ready entry => exact ⟨rfl, rfl, rfl⟩
  | failed reason => exact ⟨rfl, rfl, rfl⟩

theorem use_loadCached (k : Connection) (r : Registry σ) (c : Cache) (w : σ) :
    (k.use (.loadCached r c w)).result = ((k.loadCached r c w).1.map fun _ => .done) ∧
      (k.use (.loadCached r c w)).connection = (k.loadCached r c w).2.1 ∧
      (k.use (.loadCached r c w)).cache? = some (k.loadCached r c w).2.2.1 ∧
      (k.use (.loadCached r c w)).world? = some (k.loadCached r c w).2.2.2 := by
  obtain ⟨m, -, eq⟩ := c.getOrLoad_counted r k.language w 0
  unfold use loadCached
  cases k.stage with
  | uninitialized =>
    simp only [eq, and_self]
  | loaded e => exact ⟨rfl, rfl, rfl, rfl⟩
  | ready entry => exact ⟨rfl, rfl, rfl, rfl⟩
  | failed reason => exact ⟨rfl, rfl, rfl, rfl⟩

theorem entry_of_failed {reason : Fault} (h : k.stage = .failed reason) :
    k.entry = .error reason := by
  rw [entry, h]

theorem use_of_failed {reason : Fault} (h : k.stage = .failed reason) (u : Use σ) :
    k.use u = k.idle u (.error reason) := by
  cases u with
  | load r w => simp only [use, load, h, idle, Use.cache?, Use.world?, Except.map]
  | loadCached r c w => simp only [use, loadCached, h, idle, Use.cache?, Use.world?, Except.map]
  | init => simp only [use, init, h, idle, Use.cache?, Use.world?, Except.map]
  | ask q =>
    simp only [use, ask_eq, entry_of_failed h, idle, Use.cache?, Use.world?, bind, Except.bind,
      Except.toOption, Option.map_none]

theorem use_ask (k : Connection) (q : Question) :
    (k.use (.ask q : Use σ)).connection = k ∧ (k.use (.ask q : Use σ)).loads = 0 := ⟨rfl, rfl⟩

theorem use_of_ready {entry : EntryPoints} (h : k.stage = .ready entry) (u : Use σ) :
    (k.use u).connection = k ∧ (k.use u).loads = 0 := by
  cases u with
  | load r w => simp only [use, load, h, and_self]
  | loadCached r c w => simp only [use, loadCached, h, and_self]
  | init => simp only [use, init, h, and_self]
  | ask q => exact use_ask k q

theorem loads_of_loaded {e : Exports} (h : k.stage = .loaded e) (u : Use σ) :
    (k.use u).loads = 0 := by
  cases u with
  | load r w => simp only [use, load, h]
  | loadCached r c w => simp only [use, loadCached, h]
  | init => simp only [use]
  | ask q => exact (use_ask k q).2

theorem loads_le_one (k : Connection) (u : Use σ) : (k.use u).loads ≤ 1 := by
  cases stage : k.stage with
  | uninitialized =>
    cases u with
    | load r w =>
      obtain ⟨m, bound, eq⟩ := r.resolve_counted k.language.id k.language.name w 0
      simpa only [use, load, stage, eq, Nat.zero_add] using bound
    | loadCached r c w =>
      obtain ⟨m, bound, eq⟩ := c.getOrLoad_counted r k.language w 0
      simpa only [use, loadCached, stage, eq, Nat.zero_add] using bound
    | init => exact Nat.zero_le 1
    | ask q => exact Nat.zero_le 1
  | loaded e => rw [loads_of_loaded stage u]; exact Nat.zero_le 1
  | ready entry => rw [(use_of_ready stage u).2]; exact Nat.zero_le 1
  | failed reason => rw [use_of_failed stage u]; exact Nat.zero_le 1

end Connection
end MarkupGrader
