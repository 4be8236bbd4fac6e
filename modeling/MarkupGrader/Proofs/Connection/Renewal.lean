import MarkupGrader.Connection
import MarkupGrader.Proofs.Language.Cache

/-! Registrations, loads and loads through a cache in any order. Without the cache a connection gets
what was registered last. Through the cache it gets what the first load of its key gave that
succeeded, and a registration after that load goes unnoticed. The two agree in the end just if that
is still what is registered, as it is where every language is registered before it is loaded. -/

namespace MarkupGrader

variable {σ : Type}

/-- A registry that languages are added to, and a cache that connections share. -/
structure Shelf (σ : Type) where
  registry : Registry σ
  cache : Cache
  world : σ

namespace Shelf

inductive Step (σ : Type)
  | register (e : Registration σ)
  | load (l : Language)
  | loadCached (l : Language)

def start (r : Registry σ) (w : σ) : Shelf σ := ⟨r, .empty, w⟩

def step (s : Shelf σ) : Step σ → Shelf σ
  | .register e => { s with registry := s.registry.register e }
  | .load l =>
    let (_, _, world) := (Connection.new l.id l.name).load s.registry s.world
    { s with world }
  | .loadCached l =>
    let (_, _, cache, world) :=
      (Connection.new l.id l.name).loadCached s.registry s.cache s.world
    { s with cache, world }

def after (s : Shelf σ) (us : List (Step σ)) : Shelf σ := us.foldl step s

/-- What comes back from loading a new connection, and the connection. -/
def plain (s : Shelf σ) (l : Language) : Except Fault Unit × Connection :=
  let (result, k, _) := (Connection.new l.id l.name).load s.registry s.world
  (result, k)

/-- The same through the cache. -/
def cached (s : Shelf σ) (l : Language) : Except Fault Unit × Connection :=
  let (result, k, _, _) := (Connection.new l.id l.name).loadCached s.registry s.cache s.world
  (result, k)

/-- What a new connection comes to when its module is loaded so. -/
def settled (l : Language) (loaded : Except Fault Exports) : Except Fault Unit × Connection :=
  (Connection.new l.id l.name).settle (loaded.map .loaded)

theorem plain_eq (s : Shelf σ) (l : Language) :
    s.plain l = settled l (s.registry.resolve l.id l.name s.world).1 := rfl

theorem cached_eq (s : Shelf σ) (l : Language) :
    s.cached l = settled l (s.cache.getOrLoad s.registry l s.world).1 := rfl

def registrations (us : List (Step σ)) : List (Registration σ) :=
  us.filterMap fun
    | .register e => some e
    | _ => none

theorem registry_after (s : Shelf σ) (us : List (Step σ)) :
    (s.after us).registry = s.registry.registerEach (registrations us) := by
  induction us generalizing s with
  | nil => rfl
  | cons u rest ih =>
    rw [after, List.foldl_cons]
    refine (ih (s.step u)).trans ?_
    cases u <;> rfl

/-- What a step puts into the cache, if that has nothing for the key. -/
def gain? (s : Shelf σ) (key : Text × Text) : Step σ → Option Exports
  | .loadCached l =>
    if l.key = key then (s.registry.resolve l.id l.name s.world).1.toOption else none
  | _ => none

/-- What the first load of the key through the cache gave that succeeded. -/
def kept? (s : Shelf σ) (key : Text × Text) : List (Step σ) → Option Exports
  | [] => none
  | u :: rest => (s.gain? key u).or ((s.step u).kept? key rest)

theorem exists_loadCached_of_kept? {s : Shelf σ} {key : Text × Text} {us : List (Step σ)}
    {e : Exports} (kept : s.kept? key us = some e) : ∃ l, .loadCached l ∈ us ∧ l.key = key := by
  induction us generalizing s with
  | nil => cases kept
  | cons u rest ih =>
    obtain gained | ⟨-, later⟩ := Option.or_eq_some_iff.mp kept
    · unfold gain? at gained
      split at gained
      · next l =>
        split at gained
        · next same => exact ⟨l, List.mem_cons_self, same⟩
        · cases gained
      · cases gained
    · obtain ⟨l, mem, same⟩ := ih later
      exact ⟨l, List.mem_cons_of_mem _ mem, same⟩

theorem get?_step (s : Shelf σ) (u : Step σ) (l : Language) :
    (s.step u).cache.get? l = (s.cache.get? l).or (s.gain? l.key u) := by
  cases u with
  | register e => exact Option.or_none.symm
  | load l' => exact Option.or_none.symm
  | loadCached l' =>
    have obtained := s.cache.obtained_getOrLoad s.registry l' s.world
    change (s.cache.getOrLoad s.registry l' s.world).2.1.get? l = _
    generalize s.cache.getOrLoad s.registry l' s.world = got at obtained ⊢
    rw [gain?]
    by_cases key : l'.key = l.key
    · rw [if_pos key, ← Cache.get?_of_key key, ← Cache.get?_of_key key]
      cases obtained with
      | kept found => rw [found]; rfl
      | loaded absent done => rw [Cache.get?_cons_self, absent, done]; rfl
      | failed absent done => rw [absent, done]; rfl
    · rw [if_neg key, Option.or_none]
      cases obtained with
      | kept found => rfl
      | loaded absent done => exact Cache.get?_cons_of_ne key
      | failed absent done => rfl

theorem get?_after (s : Shelf σ) (us : List (Step σ)) (l : Language) :
    (s.after us).cache.get? l = (s.cache.get? l).or (s.kept? l.key us) := by
  induction us generalizing s with
  | nil => exact Option.or_none.symm
  | cons u rest ih =>
    rw [after, List.foldl_cons]
    refine (ih (s.step u)).trans ?_
    rw [get?_step, Option.or_assoc]
    rfl

theorem cached_of_kept {s : Shelf σ} {l : Language} {e : Exports}
    (found : s.cache.get? l = some e) : s.cached l = settled l (.ok e) := by
  rw [cached_eq, Cache.getOrLoad, found]

theorem cached_of_absent {s : Shelf σ} {l : Language} (absent : s.cache.get? l = none) :
    s.cached l = s.plain l := by
  rw [cached_eq, plain_eq, Cache.getOrLoad, absent]
  cases s.registry.resolve l.id l.name s.world with
  | mk result w => cases result <;> rfl

theorem exists_loadCached_of_mem_keys {r : Registry σ} {w : σ} {us : List (Step σ)}
    {key : Text × Text} (mem : key ∈ ((start r w).after us).cache.keys) :
    ∃ l, .loadCached l ∈ us ∧ l.key = key := by
  obtain ⟨entry, -, rfl⟩ := List.mem_map.mp mem
  have found : ((start r w).after us).cache.get? entry.1 ≠ none := fun none =>
    Cache.get?_eq_none_iff.mp none mem
  obtain ⟨e, kept⟩ := Option.ne_none_iff_exists'.mp found
  rw [get?_after] at kept
  exact exists_loadCached_of_kept? kept

/-- No language is registered once it was loaded through the cache. -/
def RegisteredAhead (us : List (Step σ)) : Prop :=
  us.Pairwise fun earlier later =>
    ∀ l e, earlier = .loadCached l → later = .register e → l.key ≠ e.language.key

structure Current (s : Shelf σ) : Prop where
  deterministic : s.registry.Deterministic
  compatible : s.cache.Compatible s.registry

theorem Current.step {s : Shelf σ} (h : s.Current) {u : Step σ}
    (det : ∀ e, u = .register e → ∀ w w', (e.loader w).1 = (e.loader w').1)
    (fresh : ∀ e, u = .register e → e.language.key ∉ s.cache.keys) : (s.step u).Current := by
  cases u with
  | register e => exact ⟨h.deterministic.register (det e rfl), h.compatible.register (fresh e rfl)⟩
  | load l => exact ⟨h.deterministic, h.compatible⟩
  | loadCached l =>
    exact ⟨h.deterministic, (h.compatible.getOrLoad h.deterministic l s.world s.world).2⟩

theorem current_after {r : Registry σ} (det : r.Deterministic) (w : σ) {us : List (Step σ)}
    (dets : ∀ e, .register e ∈ us → ∀ w w', (e.loader w).1 = (e.loader w').1)
    (ahead : RegisteredAhead us) : ((start r w).after us).Current := by
  -- By the last step, since a registration has to be fresh for everything loaded before it.
  induction us using List.reverseRecOn with
  | nil => exact ⟨det, Cache.compatible_empty r⟩
  | append_singleton us u ih =>
    obtain ⟨before, -, between⟩ := List.pairwise_append.mp ahead
    have current := ih (fun e mem => dets e (List.mem_append_left _ mem)) before
    rw [after, List.foldl_append]
    refine current.step ?_ ?_
    · rintro e rfl
      exact dets e (List.mem_append_right _ (List.mem_singleton_self _))
    · rintro e rfl mem
      obtain ⟨l, loaded, same⟩ := exists_loadCached_of_mem_keys mem
      exact between _ loaded _ (List.mem_singleton_self _) l e rfl rfl same

theorem Current.cached_eq_plain {s : Shelf σ} (h : s.Current) (l : Language) :
    s.cached l = s.plain l := by
  rw [cached_eq, plain_eq, (h.compatible.getOrLoad h.deterministic l s.world s.world).1]

theorem plain_after (s : Shelf σ) (us : List (Step σ)) (l : Language) :
    (s.after us).plain l = settled l
      (match ((registrations us).reverse.find? (·.language.isCalled l.id l.name)).or
          (s.registry.find? l.id l.name) with
        | some e => (e.loader (s.after us).world).1
        | none => .error (.moduleLoadFailed l.name)) := by
  rw [plain_eq, registry_after, Registry.resolve, Registry.find?_registerEach]
  cases ((registrations us).reverse.find? (·.language.isCalled l.id l.name)).or
    (s.registry.find? l.id l.name) <;> rfl

theorem cached_after (r : Registry σ) (w : σ) (us : List (Step σ)) (l : Language) :
    ((start r w).after us).cached l =
      match (start r w).kept? l.key us with
      | some e => settled l (.ok e)
      | none => ((start r w).after us).plain l := by
  have found := get?_after (start r w) us l
  cases first : (start r w).kept? l.key us with
  | some e =>
    rw [first] at found
    exact cached_of_kept found
  | none =>
    rw [first] at found
    exact cached_of_absent found

theorem agrees_iff (r : Registry σ) (w : σ) (us : List (Step σ)) (l : Language) :
    ((start r w).after us).cached l = ((start r w).after us).plain l ↔
      ∀ e ∈ (start r w).kept? l.key us, ((start r w).after us).plain l = settled l (.ok e) := by
  have through := cached_after r w us l
  cases first : (start r w).kept? l.key us with
  | none =>
    rw [first] at through
    exact iff_of_true through (by rintro e ⟨⟩)
  | some e =>
    rw [first] at through
    rw [through]
    constructor
    · rintro same _ ⟨⟩
      exact same.symm
    · exact fun same => (same e rfl).symm

/-- Without the cache the last registration of the language counts, and through the cache the first
load of its key that succeeded, if there was one. So the two agree exactly if that load gave what is
given now. They always agree if no language is registered after it was loaded through the cache and
the loaders depend on nothing. -/
theorem cached_eq_plain_iff (r : Registry σ) (w : σ) (us : List (Step σ)) (l : Language) :
    let s := (start r w).after us
    let kept := (start r w).kept? l.key us
    s.plain l = settled l
      (match ((registrations us).reverse.find? (·.language.isCalled l.id l.name)).or
          (r.find? l.id l.name) with
        | some e => (e.loader s.world).1
        | none => .error (.moduleLoadFailed l.name)) ∧
    s.cached l = (match kept with
      | some e => settled l (.ok e)
      | none => s.plain l) ∧
    (s.cached l = s.plain l ↔ ∀ e ∈ kept, s.plain l = settled l (.ok e)) ∧
    (r.Deterministic → (∀ e, .register e ∈ us → ∀ w w', (e.loader w).1 = (e.loader w').1) →
      RegisteredAhead us → s.cached l = s.plain l) := by
  intro s kept
  exact ⟨plain_after (start r w) us l, cached_after r w us l, agrees_iff r w us l,
    fun det dets ahead => (current_after det w dets ahead).cached_eq_plain l⟩

/-- A module that is registered late and for another language than was loaded before. -/
theorem cached_eq_plain_iff_late :
    let module (t : Text) : Loader Nat := fun n => (.ok (.ofValidator
      ⟨.answer t, fun _ => .answer .success, fun _ _ => .answer .success⟩ 64), n + 1)
    let us : List (Step Nat) := [.register ⟨⟨"7", "Echo"⟩, "first", module "First"⟩,
      .register ⟨⟨"7", "ECHO"⟩, "second", module "Second"⟩, .load ⟨"8", "Echo"⟩,
      .loadCached ⟨"7", "echo"⟩, .register ⟨⟨"8", "Echo"⟩, "third", module "Third"⟩]
    let s := (start Registry.empty 0).after us
    RegisteredAhead us ∧ s.cached ⟨"7", "Echo"⟩ = s.plain ⟨"7", "Echo"⟩ ∧
      (s.cached ⟨"7", "Echo"⟩).2.init.2.identify = .ok "Second" ∧
      s.cached ⟨"8", "ECHO"⟩ = s.plain ⟨"8", "ECHO"⟩ ∧
      (s.cached ⟨"8", "ECHO"⟩).2.init.2.identify = .ok "Third" := by
  intro module us s
  have ahead : RegisteredAhead us := by
    simp [RegisteredAhead, us, Language.key, Text.lower]
  have det : (Registry.empty : Registry Nat).Deterministic := List.forall_mem_nil _
  have dets : ∀ e, .register e ∈ us → ∀ w w', (e.loader w).1 = (e.loader w').1 := by
    intro e mem w w'
    obtain rfl | rfl | rfl : e = ⟨⟨"7", "Echo"⟩, "first", module "First"⟩ ∨
        e = ⟨⟨"7", "ECHO"⟩, "second", module "Second"⟩ ∨
        e = ⟨⟨"8", "Echo"⟩, "third", module "Third"⟩ := by
      simpa [us] using mem
    all_goals rfl
  have agrees (l : Language) : s.cached l = s.plain l :=
    (cached_eq_plain_iff Registry.empty 0 us l).2.2.2 det dets ahead
  exact ⟨ahead, agrees _, by decide +kernel, agrees _, by decide +kernel⟩

/-- A language that is registered again after it was loaded through the cache. -/
theorem not_cached_current :
    let module (t : Text) : Loader Unit := fun w => (.ok (.ofValidator
      ⟨.answer t, fun _ => .answer .success, fun _ _ => .answer .success⟩ 64), w)
    let l : Language := ⟨"7", "Echo"⟩
    let s := (start Registry.empty ()).after [.register ⟨l, "first", module "First"⟩,
      .loadCached l, .register ⟨⟨"7", "ECHO"⟩, "second", module "Second"⟩]
    s.registry.Deterministic ∧ (s.plain l).2.init.2.identify = .ok "Second" ∧
      (s.cached l).2.init.2.identify = .ok "First" ∧ s.cached l ≠ s.plain l := by
  intro module l s
  have now : (s.plain l).2.init.2.identify = .ok "Second" := by decide +kernel
  have before : (s.cached l).2.init.2.identify = .ok "First" := by decide +kernel
  refine ⟨?_, now, before, fun same => ?_⟩
  · intro e mem w w'
    rfl
  · rw [same, now] at before
    revert before
    decide

end Shelf
end MarkupGrader
