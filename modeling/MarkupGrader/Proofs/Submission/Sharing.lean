import MarkupGrader.Proofs.Language.Cache
import MarkupGrader.Proofs.Language.Loads
import MarkupGrader.Submission.Check

/-! A cache that many connections share. Each call finds its connection as it stands at that moment,
so that the calls may be those of any number of connections, one after another in any order, and what
else is done with a connection in between does not matter. Whatever the loaders do, no language is
loaded again after it was loaded with success; and if what they give depends on nothing, nobody can
tell the cache from none. -/

namespace MarkupGrader

variable {σ : Type}

namespace Connection

variable {r : Registry σ} {c : Cache}

theorem exists_result_of_used {k : Connection} (used : k.stage ≠ .uninitialized) (r : Registry σ)
    (c : Cache) :
    ∃ result, (∀ w, k.loadCached r c w = (result, k, c, w)) ∧
      ∀ w, k.load r w = (result, k, w) := by
  unfold loadCached load
  cases stage : k.stage with
  | uninitialized => exact absurd stage used
  | failed reason => exact ⟨.error reason, fun _ => rfl, fun _ => rfl⟩
  | loaded e => exact ⟨.ok (), fun _ => rfl, fun _ => rfl⟩
  | ready entry => exact ⟨.ok (), fun _ => rfl, fun _ => rfl⟩

theorem loadCached_eq_load (h : c.Compatible r) (det : r.Deterministic) (k : Connection)
    (w w' : σ) :
    (k.loadCached r c w).1 = (k.load r w').1 ∧ (k.loadCached r c w).2.1 = (k.load r w').2.1 ∧
      (k.loadCached r c w).2.2.1.Compatible r := by
  by_cases fresh : k.stage = .uninitialized
  · obtain ⟨same, stays⟩ := h.getOrLoad det k.language w w'
    simp only [loadCached, load, fresh, same, true_and]
    exact stays
  · obtain ⟨result, cached, plain⟩ := exists_result_of_used fresh r c
    rw [cached w, plain w']
    exact ⟨rfl, rfl, h⟩

end Connection

namespace Submission

variable {r : Registry σ} {c : Cache}

def opened (loaded : Except Fault Unit) (k : Connection) : Except Fault Connection :=
  match loaded, k.init with
  | .error f, _ => .error f
  | .ok (), (.error f, _) => .error f
  | .ok (), (.ok (), k) => .ok k

theorem openConnection_some (r : Registry σ) (c : Cache) (l : Language) (w : σ) :
    openConnection r (some c) l w =
      (opened ((Connection.new l.id l.name).loadCached r c w).1
        ((Connection.new l.id l.name).loadCached r c w).2.1,
      some ((Connection.new l.id l.name).loadCached r c w).2.2.1,
      ((Connection.new l.id l.name).loadCached r c w).2.2.2) := by
  rcases loaded : (Connection.new l.id l.name).loadCached r c w with ⟨result, k, c', w'⟩
  simp only [openConnection, loaded, opened]
  cases result with
  | error f => rfl
  | ok =>
    cases k.init with
    | mk result k => cases result <;> rfl

theorem openConnection_none (r : Registry σ) (l : Language) (w : σ) :
    openConnection r none l w =
      (opened ((Connection.new l.id l.name).load r w).1 ((Connection.new l.id l.name).load r w).2.1,
      none, ((Connection.new l.id l.name).load r w).2.2) := by
  rcases loaded : (Connection.new l.id l.name).load r w with ⟨result, k, w'⟩
  simp only [openConnection, loaded, opened]
  cases result with
  | error f => rfl
  | ok =>
    cases k.init with
    | mk result k => cases result <;> rfl

def reportOn (l : Language) (code : Text) (queries : List Text) :
    Except Fault Connection → Report
  | .error f => (Report.new l).abort f
  | .ok k => check k code queries

theorem run_of_code (r : Registry σ) (c : Option Cache) (l : Language) {code : Text}
    (nonempty : ¬ code.isEmpty = true) (queries : List Text) (w : σ) :
    run r c l code queries w =
      (reportOn l code queries (openConnection r c l w).1, (openConnection r c l w).2) := by
  rw [run, if_neg nonempty]
  cases openConnection r c l w with
  | mk result rest => cases result <;> rfl

/-- Through a compatible cache the report is the same as without one. -/
theorem run_eq_without (h : c.Compatible r) (det : r.Deterministic) (l : Language) (code : Text)
    (queries : List Text) (w w' : σ) :
    (run r (some c) l code queries w).1 = (run r none l code queries w').1 := by
  by_cases empty : code.isEmpty = true
  · rw [run, run, if_pos empty, if_pos empty]
  · obtain ⟨result, connection, -⟩ := (Connection.new l.id l.name).loadCached_eq_load h det w w'
    rw [run_of_code r _ l empty, run_of_code r _ l empty, openConnection_some,
      openConnection_none, result, connection]

end Submission

/-- A cache in use: what it holds and what the world is, with all calls of loaders so far and the
keys of all connections that were loaded so far. -/
structure Sharing (σ : Type) where
  cache : Cache
  world : σ
  loads : List Load
  loaded : List (Text × Text)

namespace Sharing

def start (w : σ) : Sharing σ := ⟨.empty, w, [], []⟩

/-- The key that a call with this result has loaded the connection for, if it was uninitialized. -/
def gained (k : Connection) (result : Except Fault Unit) : List (Text × Text) :=
  match k.stage, result with
  | .uninitialized, .ok () => [k.language.key]
  | _, _ => []

/-- A connection is loaded through the cache. The calls of loaders are noted on the side. -/
def call (r : Registry σ) (s : Sharing σ) (k : Connection) : Sharing σ :=
  let (result, _, cache, world) := k.loadCached r s.cache s.world
  let (_, _, _, _, loads) := k.loadCached r.noted s.cache (s.world, s.loads)
  ⟨cache, world, loads, s.loaded ++ gained k result⟩

/-- All that a call can do, with what comes back. -/
inductive Step (r : Registry σ) (s : Sharing σ) (k : Connection) :
    Except Fault Unit → Sharing σ → Prop
  | idle {result : Except Fault Unit} (used : k.stage ≠ .uninitialized) : Step r s k result s
  | kept {e : Exports} (fresh : k.stage = .uninitialized)
      (found : s.cache.get? k.language = some e) :
      Step r s k (.ok ()) { s with loaded := s.loaded ++ [k.language.key] }
  | loaded {e : Exports} {w : σ} (fresh : k.stage = .uninitialized)
      (absent : s.cache.get? k.language = none)
      (done : r.resolve k.language.id k.language.name s.world = (.ok e, w)) :
      Step r s k (.ok ()) ⟨⟨(k.language, e) :: s.cache.entries⟩, w,
        s.loads ++ r.loads k.language s.world, s.loaded ++ [k.language.key]⟩
  | failed {f : Fault} {w : σ} (fresh : k.stage = .uninitialized)
      (absent : s.cache.get? k.language = none)
      (done : r.resolve k.language.id k.language.name s.world = (.error f, w)) :
      Step r s k (.error f) { s with world := w, loads := s.loads ++ r.loads k.language s.world }

theorem gained_of_used {k : Connection} (used : k.stage ≠ .uninitialized)
    (result : Except Fault Unit) : gained k result = [] := by
  unfold gained
  split
  · next stage => exact absurd stage used
  · rfl

theorem step_call (r : Registry σ) (s : Sharing σ) (k : Connection) :
    Step r s k (k.loadCached r s.cache s.world).1 (s.call r k) := by
  by_cases fresh : k.stage = .uninitialized
  · have noted := s.cache.getOrLoad_noted r k.language s.world s.loads
    have obtained := s.cache.obtained_getOrLoad r k.language s.world
    simp only [call, Connection.loadCached, fresh, noted, gained]
    -- What the loaders that note give is told by what the loaders give, and no call reads the list.
    generalize s.cache.getOrLoad r k.language s.world = got at obtained ⊢
    cases obtained with
    | kept found =>
      simp only [found, Option.isSome_some, if_true, List.append_nil]
      exact .kept fresh found
    | loaded absent done =>
      simp only [absent, Option.isSome_none, Bool.false_eq_true, if_false]
      exact .loaded fresh absent done
    | failed absent done =>
      simp only [absent, Option.isSome_none, Bool.false_eq_true, if_false, Except.map,
        Connection.settle, List.append_nil]
      exact .failed fresh absent done
  · obtain ⟨_, plain, -⟩ := Connection.exists_result_of_used fresh r s.cache
    obtain ⟨_, noted, -⟩ := Connection.exists_result_of_used fresh r.noted s.cache
    simp only [call, plain, noted, gained_of_used fresh, List.append_nil]
    exact .idle fresh

/-- After calls on the connections `ks`, each as it stands when its turn comes. -/
def after (r : Registry σ) (s : Sharing σ) (ks : List Connection) : Sharing σ :=
  ks.foldl (call r) s

structure Booked (s : Sharing σ) : Prop where
  distinct : s.cache.keys.Nodup
  known : ∀ key, key ∈ s.cache.keys ↔ key ∈ s.loaded
  succeeded : ∀ load ∈ s.loads, ∀ e, load.result = .ok e → load.language.key ∈ s.cache.keys
  once : s.loads.Pairwise fun earlier later =>
    earlier.language.key = later.language.key → ∃ f, earlier.result = .error f

theorem booked_start (w : σ) : (start w).Booked where
  distinct := List.nodup_nil
  known _ := Iff.rfl
  succeeded := List.forall_mem_nil _
  once := .nil

variable {r : Registry σ} {s s' : Sharing σ} {k : Connection} {result : Except Fault Unit}

theorem Booked.once_append (h : s.Booked) {l : Language} (absent : s.cache.get? l = none) :
    (s.loads ++ r.loads l s.world).Pairwise fun earlier later =>
      earlier.language.key = later.language.key → ∃ f, earlier.result = .error f := by
  refine List.pairwise_append.mpr ⟨h.once, ?_, fun earlier old later new same => ?_⟩
  · unfold Registry.loads
    cases r.find? l.id l.name with
    | none => exact .nil
    | some e => exact List.pairwise_singleton _ _
  · cases result : earlier.result with
    | error f => exact ⟨f, rfl⟩
    | ok e =>
      -- After a success the key would be in the cache.
      have kept := h.succeeded earlier old e result
      rw [same, (Registry.mem_loads new).1] at kept
      exact absurd kept (Cache.get?_eq_none_iff.mp absent)

theorem Booked.step (h : s.Booked) (step : Step r s k result s') : s'.Booked := by
  cases step with
  | idle => exact h
  | kept fresh found =>
    -- The key is noted as loaded once more, and it was in the cache before.
    refine ⟨h.distinct, fun key => ?_, h.succeeded, h.once⟩
    rw [List.mem_append, List.mem_singleton, ← h.known key]
    refine ⟨.inl, ?_⟩
    rintro (old | rfl)
    · exact old
    · exact Cache.mem_keys_of_get? found
  | loaded fresh absent done =>
    refine ⟨List.nodup_cons.mpr ⟨Cache.get?_eq_none_iff.mp absent, h.distinct⟩, fun key => ?_,
      fun load mem e ok => ?_, h.once_append absent⟩
    · rw [List.mem_append, List.mem_singleton, ← h.known key, Or.comm]
      exact List.mem_cons
    · obtain old | new := List.mem_append.mp mem
      · exact List.mem_cons_of_mem _ (h.succeeded load old e ok)
      · rw [(Registry.mem_loads new).1]
        exact List.mem_cons_self
  | failed fresh absent done =>
    -- Only the list of calls grows, by one that did not succeed.
    refine ⟨h.distinct, h.known, fun load mem e ok => ?_, h.once_append absent⟩
    obtain old | new := List.mem_append.mp mem
    · exact h.succeeded load old e ok
    · rw [(Registry.mem_loads new).2, done] at ok
      cases ok

theorem Booked.notMem_loaded (h : s.Booked) {l : Language} (absent : s.cache.get? l = none) :
    l.key ∉ s.loaded := fun mem =>
  Cache.get?_eq_none_iff.mp absent ((h.known l.key).mpr mem)

theorem Booked.loads_call (h : s.Booked) (fresh : k.stage = .uninitialized) :
    (s.call r k).loads = s.loads ++
      if k.language.key ∈ s.loaded then [] else r.loads k.language s.world := by
  have step := step_call r s k
  generalize (k.loadCached r s.cache s.world).1 = result at step
  generalize s.call r k = s' at step ⊢
  cases step with
  | idle used => exact absurd fresh used
  | kept _ found =>
    rw [if_pos ((h.known _).mp (Cache.mem_keys_of_get? found)), List.append_nil]
  | loaded _ absent => rw [if_neg (h.notMem_loaded absent)]
  | failed _ absent => rw [if_neg (h.notMem_loaded absent)]

theorem holds_after {P : Sharing σ → Prop} (kept : ∀ s k, P s → P (s.call r k)) (now : P s)
    (ks : List Connection) : P (s.after r ks) := by
  induction ks generalizing s with
  | nil => exact now
  | cons k rest ih => exact ih (kept s k now)

theorem booked_after (r : Registry σ) (w : σ) (ks : List Connection) :
    ((start w).after r ks).Booked :=
  holds_after (fun s k h => h.step (step_call r s k)) (booked_start w) ks

theorem compatible_after (det : r.Deterministic) (w : σ) (ks : List Connection) :
    ((start w).after r ks).cache.Compatible r := by
  refine holds_after (P := fun s => s.cache.Compatible r) (fun s k h => ?_) ?_ ks
  · exact (Connection.loadCached_eq_load h det k s.world s.world).2.2
  · exact Cache.compatible_empty r

theorem Booked.size_eq (h : s.Booked) : s.cache.size = s.loaded.toFinset.card := by
  have same : s.cache.keys.toFinset = s.loaded.toFinset := by
    ext key
    rw [List.mem_toFinset, List.mem_toFinset, h.known]
  rw [← same, List.toFinset_card_of_nodup h.distinct, Cache.keys, List.length_map, Cache.size]

theorem Booked.retry (h : s.Booked) (fresh : k.stage = .uninitialized) {f : Fault}
    (failed : (k.loadCached r s.cache s.world).1 = .error f) :
    (s.call r k).cache = s.cache ∧ ∀ k', k'.stage = .uninitialized →
      k'.language.key = k.language.key → ((s.call r k).call r k').loads =
        (s.call r k).loads ++ r.loads k'.language (s.call r k).world := by
  have step := step_call r s k
  rw [failed] at step
  generalize s.call r k = s' at step ⊢
  have books := h.step step
  cases step with
  | idle used => exact absurd fresh used
  | failed _ absent =>
    refine ⟨rfl, fun k' fresh' same => ?_⟩
    rw [books.loads_call fresh', same, if_neg (h.notMem_loaded absent)]

theorem run_snd (r : Registry σ) (s : Sharing σ) (l : Language) (code : Text)
    (queries : List Text) :
    let next := if code.isEmpty then s else s.call r (.new l.id l.name)
    (Submission.run r (some s.cache) l code queries s.world).2 = (some next.cache, next.world) := by
  intro next
  by_cases empty : code.isEmpty = true
  · rw [Submission.run, if_pos empty, show next = s from if_pos empty]
  · rw [Submission.run_of_code r _ l empty, Submission.openConnection_some,
      show next = s.call r (.new l.id l.name) from if_neg empty]
    rfl

/-- At every moment of every run, for whatever is called next. If what the loaders give depends on
nothing, calls and checks come out as without the cache. The cache has one entry for each key that
was loaded, so that it may keep them in any order and look them up by any hash of the key. Once a
loader has succeeded it is not called again for the key, and before that it is called each time; a
load that fails adds nothing. A check takes part in the run as a call on a new connection. -/
theorem cache_transparent (r : Registry σ) (w : σ) (ks : List Connection) :
    let s := (start w).after r ks
    (r.Deterministic →
      (∀ (k : Connection) w w', (k.loadCached r s.cache w).1 = (k.load r w').1 ∧
        (k.loadCached r s.cache w).2.1 = (k.load r w').2.1) ∧
      ∀ l code queries w w', (Submission.run r (some s.cache) l code queries w).1 =
        (Submission.run r none l code queries w').1) ∧
    s.cache.keys.Nodup ∧ s.cache.size = s.loaded.toFinset.card ∧
    (∀ {β : Type} [DecidableEq β] (hash : Text × Text → β) (es : List (Language × Exports)),
      es.Perm s.cache.entries → ∀ l,
        ((es.filter fun e => hash e.1.key = hash l.key).find? (·.1.same l)).map Prod.snd =
          s.cache.get? l) ∧
    (s.loads.Pairwise fun earlier later =>
      earlier.language.key = later.language.key → ∃ f, earlier.result = .error f) ∧
    (∀ k, k.stage = .uninitialized → (s.call r k).loads = s.loads ++
      if k.language.key ∈ s.loaded then [] else r.loads k.language s.world) ∧
    (∀ k f, k.stage = .uninitialized → (k.loadCached r s.cache s.world).1 = .error f →
      (s.call r k).cache = s.cache ∧ ∀ k', k'.stage = .uninitialized →
        k'.language.key = k.language.key → ((s.call r k).call r k').loads =
          (s.call r k).loads ++ r.loads k'.language (s.call r k).world) ∧
    ∀ l code queries,
      let next := if code.isEmpty then s else s.call r (.new l.id l.name)
      (Submission.run r (some s.cache) l code queries s.world).2 =
        (some next.cache, next.world) := by
  intro s
  have books : s.Booked := booked_after r w ks
  refine ⟨fun det => ?_, books.distinct, books.size_eq, fun hash es stored l => ?_, books.once,
    fun k fresh => books.loads_call fresh, fun k f fresh failed => books.retry fresh failed,
    run_snd r s⟩
  · have compatible : s.cache.Compatible r := compatible_after det w ks
    refine ⟨fun k w w' => ?_, Submission.run_eq_without compatible det⟩
    obtain ⟨result, connection, -⟩ := k.loadCached_eq_load compatible det w w'
    exact ⟨result, connection⟩
  · exact Cache.get?_eq_hashed books.distinct hash stored l

theorem cache_transparent_spellings :
    let demo : Validator := ⟨.answer "Demo", fun code => .answer (.rejected code),
      fun _ _ => .answer .success⟩
    let r : Registry Nat := ⟨[
      ⟨⟨"1", "Demo"⟩, "demo", fun n => (.ok (.ofValidator demo 64), n + 1)⟩,
      ⟨⟨"2", "Broken"⟩, "broken", fun n => (.error .missingQuery, n + 1)⟩]⟩
    let s := (start 0).after r
      [.new "1" "DEMO", .new "2" "Broken", .new "1" "demo", .new "2" "broken", .new "3" "Demo"]
    r.Deterministic ∧ s.world = 3 ∧ s.cache.size = 1 ∧
      s.loads.map (·.language.id) = ["1", "2", "2"] ∧
      (Submission.run r (some s.cache) ⟨"1", "dEMO"⟩ "x" ["StyleCheck"] 3).1 =
        (Submission.run r none ⟨"1", "dEMO"⟩ "x" ["StyleCheck"] 0).1 ∧
      ((Connection.new "2" "BROKEN").loadCached r s.cache s.world).1 = .error .missingQuery ∧
      ((s.call r (.new "2" "BROKEN")).call r (.new "2" "brOKen")).loads.length = 5 := by
  intro demo r s
  have det : r.Deterministic := by
    intro e mem w w'
    fin_cases mem <;> rfl
  have fails : ((Connection.new "2" "BROKEN").loadCached r s.cache s.world).1 =
      .error .missingQuery := by decide +kernel
  obtain ⟨transparent, -, -, -, -, -, retried, -⟩ := cache_transparent r 0
    [.new "1" "DEMO", .new "2" "Broken", .new "1" "demo", .new "2" "broken", .new "3" "Demo"]
  have again := (retried _ _ rfl fails).2 (.new "2" "brOKen") rfl (by decide +kernel)
  refine ⟨det, by decide +kernel, by decide +kernel, by decide +kernel,
    (transparent det).2 _ _ _ _ _, fails, ?_⟩
  rw [again]
  decide +kernel

end Sharing
end MarkupGrader
