import MarkupGrader.Proofs.Connection.Use

/-! The life of a connection. Its stage moves from uninitialized to loaded to ready, or fails on the
way; a failure and readiness are for good. Over a whole life, in whatever order and however often it
is used, at most one loader is called. -/

namespace MarkupGrader

variable {σ : Type}

/-- All four symbols are in the table, each of the right type. -/
structure Exports.Resolves (e : Exports) (entry : EntryPoints) : Prop where
  capacity : e.get? capacityName = some (.capacity entry.capacity)
  identify : e.get? Operation.identify.name = some (.identify entry.identify)
  checkSyntax : e.get? Operation.checkSyntax.name = some (.checkSyntax entry.checkSyntax)
  query : e.get? Operation.query.name = some (.query entry.query)

namespace Exports

variable {e : Exports}

theorem capacity?_eq_some {n : Nat} :
    e.capacity? = some n ↔ e.get? capacityName = some (.capacity n) := by
  unfold capacity?
  split <;> simp_all

theorem identify?_eq_some {entry : Buffer → Buffer} :
    e.identify? = some entry ↔ e.get? Operation.identify.name = some (.identify entry) := by
  unfold identify?
  split <;> simp_all

theorem checkSyntax?_eq_some {entry : Text.Units → Buffer → Buffer} :
    e.checkSyntax? = some entry ↔
      e.get? Operation.checkSyntax.name = some (.checkSyntax entry) := by
  unfold checkSyntax?
  split <;> simp_all

theorem query?_eq_some {entry : Text.Units → Text.Units → Buffer → Buffer} :
    e.query? = some entry ↔ e.get? Operation.query.name = some (.query entry) := by
  unfold query?
  split <;> simp_all

theorem resolves_iff {entry : EntryPoints} :
    e.Resolves entry ↔ EntryPoints.ofExports e = .ok entry := by
  constructor
  · intro h
    rw [EntryPoints.ofExports, capacity?_eq_some.mpr h.capacity,
      identify?_eq_some.mpr h.identify, checkSyntax?_eq_some.mpr h.checkSyntax,
      query?_eq_some.mpr h.query]
  · intro h
    unfold EntryPoints.ofExports at h
    split at h
    iterate 4 cases h
    next capacity identify checkSyntax query =>
      cases h
      exact ⟨capacity?_eq_some.mp capacity, identify?_eq_some.mp identify,
        checkSyntax?_eq_some.mp checkSyntax, query?_eq_some.mp query⟩

end Exports

namespace Connection

/-- How an operation may move the stage of a connection for a language. -/
inductive Move (l : Language) : Stage → Use σ → Stage → Prop
  | kept (s : Stage) (u : Use σ) : Move l s u s
  | loaded {u : Use σ} {e : Exports} (h : u.loaded? l = some (.ok e)) :
      Move l .uninitialized u (.loaded e)
  | notLoaded {u : Use σ} {f : Fault} (h : u.loaded? l = some (.error f)) :
      Move l .uninitialized u (.failed f)
  | tooEarly : Move l .uninitialized .init (.failed (.moduleLoadFailed l.name))
  | resolved {e : Exports} {entry : EntryPoints} (h : e.Resolves entry) :
      Move l (.loaded e) .init (.ready entry)
  | notResolved {e : Exports} {f : Fault} (h : EntryPoints.ofExports e = .error f) :
      Move l (.loaded e) .init (.failed f)

theorem exists_move_of_kept {k : Connection} {u : Use σ} (same : (k.use u).connection = k) :
    ∃ s, (k.use u).connection = ⟨k.language, s⟩ ∧ Move k.language k.stage u s :=
  ⟨k.stage, same, .kept _ _⟩

/-- All that an operation does to a connection. -/
theorem exists_move (k : Connection) (u : Use σ) :
    ∃ s, (k.use u).connection = ⟨k.language, s⟩ ∧ Move k.language k.stage u s := by
  cases stage : k.stage with
  | uninitialized =>
    cases u with
    | load r w =>
      rw [(use_load k r w).2.1, load, stage]
      cases result : (r.resolve k.language.id k.language.name w).1 with
      | ok e =>
        refine ⟨.loaded e, ?_, .loaded (congrArg some result)⟩
        simp only [result, Except.map, settle]
      | error f =>
        refine ⟨.failed f, ?_, .notLoaded (congrArg some result)⟩
        simp only [result, Except.map, settle]
    | loadCached r c w =>
      rw [(use_loadCached k r c w).2.1, loadCached, stage]
      cases result : (c.getOrLoad r k.language w).1 with
      | ok e =>
        refine ⟨.loaded e, ?_, .loaded (congrArg some result)⟩
        simp only [result, Except.map, settle]
      | error f =>
        refine ⟨.failed f, ?_, .notLoaded (congrArg some result)⟩
        simp only [result, Except.map, settle]
    | init =>
      refine ⟨_, ?_, .tooEarly⟩
      simp only [use, init, stage, settle, absent]
    | ask q =>
      rw [← stage]
      exact exists_move_of_kept (use_ask k q).1
  | loaded e =>
    cases u with
    | load r w =>
      rw [← stage]
      exact exists_move_of_kept (by simp only [use, load, stage])
    | loadCached r c w =>
      rw [← stage]
      exact exists_move_of_kept (by simp only [use, loadCached, stage])
    | init =>
      cases result : EntryPoints.ofExports e with
      | ok entry =>
        refine ⟨.ready entry, ?_, .resolved (Exports.resolves_iff.mpr result)⟩
        simp only [use, init, stage, result, Except.map, settle]
      | error f =>
        refine ⟨.failed f, ?_, .notResolved result⟩
        simp only [use, init, stage, result, Except.map, settle]
    | ask q =>
      rw [← stage]
      exact exists_move_of_kept (use_ask k q).1
  | ready entry =>
    rw [← stage]
    exact exists_move_of_kept (use_of_ready stage u).1
  | failed reason =>
    rw [← stage]
    exact exists_move_of_kept (by rw [use_of_failed stage u, idle])

theorem language_use (k : Connection) (u : Use σ) : (k.use u).connection.language = k.language := by
  obtain ⟨s, eq, -⟩ := exists_move k u
  rw [eq]

theorem move_use (k : Connection) (u : Use σ) :
    Move k.language k.stage u (k.use u).connection.stage := by
  obtain ⟨s, eq, move⟩ := exists_move k u
  rwa [eq]

theorem uninitialized_of_use {k : Connection} {u : Use σ}
    (h : (k.use u).connection.stage = .uninitialized) :
    k.stage = .uninitialized ∧ (k.use u).loads = 0 := by
  have move := move_use k u
  rw [h] at move
  generalize stage : k.stage = s at move
  cases move
  refine ⟨rfl, ?_⟩
  cases u with
  | load r w =>
    rw [(use_load k r w).2.1, load, stage] at h
    cases result : (r.resolve k.language.id k.language.name w).1 <;>
      simp [result, Except.map, settle] at h
  | loadCached r c w =>
    rw [(use_loadCached k r c w).2.1, loadCached, stage] at h
    cases result : (c.getOrLoad r k.language w).1 <;> simp [result, Except.map, settle] at h
  | init => rfl
  | ask q => rfl

/-- The connection after some operations. -/
def after (k : Connection) (us : List (Use σ)) : Connection :=
  us.foldl (fun k u => (k.use u).connection) k

/-- How often a loader is called in the course of some operations. -/
def loads (k : Connection) : List (Use σ) → Nat
  | [] => 0
  | u :: rest => (k.use u).loads + loads (k.use u).connection rest

theorem after_concat (k : Connection) (us : List (Use σ)) (u : Use σ) :
    k.after (us ++ [u]) = ((k.after us).use u).connection := by
  rw [after, List.foldl_append]
  rfl

theorem language_after (k : Connection) (us : List (Use σ)) :
    (k.after us).language = k.language := by
  induction us generalizing k with
  | nil => rfl
  | cons u rest ih => exact (ih _).trans (language_use k u)

theorem after_of_failed {k : Connection} {reason : Fault} (h : k.stage = .failed reason)
    (us : List (Use σ)) : k.after us = k := by
  induction us with
  | nil => rfl
  | cons u rest ih =>
    have : (k.use u).connection = k := by rw [use_of_failed h u, idle]
    rw [after, List.foldl_cons, this]
    exact ih

theorem after_of_ready {k : Connection} {entry : EntryPoints} (h : k.stage = .ready entry)
    (us : List (Use σ)) : k.after us = k := by
  induction us with
  | nil => rfl
  | cons u rest ih =>
    rw [after, List.foldl_cons, (use_of_ready h u).1]
    exact ih

theorem exists_loaded_of_ready {k : Connection} (fresh : ∀ entry, k.stage ≠ .ready entry)
    {us : List (Use σ)} {entry : EntryPoints} (h : (k.after us).stage = .ready entry) :
    ∃ earlier e, earlier <+: us ∧ (k.after earlier).stage = .loaded e ∧ e.Resolves entry := by
  induction us using List.reverseRecOn with
  | nil => exact absurd h (fresh entry)
  | append_singleton us u ih =>
    -- The last operation found the connection ready, or it resolved the table that was loaded.
    have move := move_use (k.after us) u
    rw [← after_concat, h] at move
    generalize stage : (k.after us).stage = s at move
    cases move with
    | kept =>
      obtain ⟨earlier, e, part, rest⟩ := ih stage
      exact ⟨earlier, e, part.trans (List.prefix_append us [u]), rest⟩
    | resolved resolves =>
      exact ⟨us, _, List.prefix_append us _, stage, resolves⟩

theorem loads_eq_zero {k : Connection} (h : k.stage ≠ .uninitialized) (us : List (Use σ)) :
    k.loads us = 0 := by
  induction us generalizing k with
  | nil => rfl
  | cons u rest ih =>
    have none : (k.use u).loads = 0 := by
      cases stage : k.stage with
      | uninitialized => exact absurd stage h
      | loaded e => exact loads_of_loaded stage u
      | ready entry => exact (use_of_ready stage u).2
      | failed reason => rw [use_of_failed stage u, idle]
    rw [loads, none, ih fun fresh => h (uninitialized_of_use fresh).1]

theorem loads_le_one_of_life (k : Connection) (us : List (Use σ)) : k.loads us ≤ 1 := by
  induction us generalizing k with
  | nil => exact Nat.zero_le 1
  | cons u rest ih =>
    rw [loads]
    -- Either the first operation leaves all to the others, or none of the others calls a loader.
    by_cases fresh : (k.use u).connection.stage = .uninitialized
    · rw [(uninitialized_of_use fresh).2, Nat.zero_add]
      exact ih _
    · rw [loads_eq_zero fresh rest]
      exact loads_le_one k u

/-- What holds at every moment of every life of a connection, for whatever is done next and later. -/
theorem life_cycle (id name : Text) (us : List (Use σ)) :
    let k := (new id name).after us
    (∀ u : Use σ, Move ⟨id, name⟩ k.stage u (k.use u).connection.stage) ∧
    (∀ q, (k.use (.ask q : Use σ)).connection = k) ∧
    (∀ reason, k.stage = .failed reason → ∀ (later : List (Use σ)) (u : Use σ),
      (k.after later).use u = k.idle u (.error reason)) ∧
    (∀ entry, k.stage = .ready entry →
      (∃ earlier e, earlier <+: us ∧ ((new id name).after earlier).stage = .loaded e ∧
        e.Resolves entry) ∧
      ∀ later : List (Use σ), k.after later = k) ∧
    (new id name).loads us ≤ 1 := by
  intro k
  refine ⟨fun u => ?_, fun q => (use_ask k q).1, fun reason failed later u => ?_,
    fun entry ready => ⟨?_, after_of_ready ready⟩, loads_le_one_of_life _ us⟩
  · have move := move_use k u
    rwa [language_after (new id name) us] at move
  · rw [after_of_failed failed later]
    exact use_of_failed failed u
  · have fresh : ∀ entry, (new id name).stage ≠ .ready entry := by
      rintro entry ⟨⟩
    exact exists_loaded_of_ready fresh ready

end Connection
end MarkupGrader
