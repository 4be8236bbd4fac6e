import MarkupGrader.Language.Cache
import MarkupGrader.Proofs.Language.History

/-! What a cache of exports says of the registry behind it. Registry and cache look for a language by
its key, so that the same exports serve every spelling of a name. A cache is compatible with the
registry if it keeps what loading gives; it is then no matter whether a language is in it. -/

namespace MarkupGrader

variable {σ : Type}

namespace Registry

theorem find?_of_key {a b : Language} (same : a.key = b.key) (r : Registry σ) :
    r.find? a.id a.name = r.find? b.id b.name := by
  have test (l : Language) : l.isCalled a.id a.name = l.isCalled b.id b.name := by
    rw [Bool.eq_iff_iff, Language.isCalled_iff, Language.isCalled_iff]
    change l.key = a.key ↔ l.key = b.key
    rw [same]
  simp only [find?, test]

theorem key_of_find? {r : Registry σ} {l : Language} {e : Registration σ}
    (found : r.find? l.id l.name = some e) : e.language.key = l.key := by
  have called := List.find?_some found
  exact Language.isCalled_iff.mp called

/-- What a loader gives, the fault included, is the same in every world. -/
def Deterministic (r : Registry σ) : Prop :=
  ∀ e ∈ r.entries, ∀ w w', (e.loader w).1 = (e.loader w').1

variable {r : Registry σ}

theorem Deterministic.resolve_eq (det : r.Deterministic) (id name : Text) (w w' : σ) :
    (r.resolve id name w).1 = (r.resolve id name w').1 := by
  unfold resolve
  cases found : r.find? id name with
  | none => rfl
  | some e => exact det e (List.mem_of_find?_eq_some found) w w'

/-- What was loaded for one spelling is loaded for each. For a fault this does not hold: that no
module serves the language is said with the name as it was spelled. -/
theorem Deterministic.resolve_ok (det : r.Deterministic) {a b : Language} (same : a.key = b.key)
    {w : σ} {e : Exports} (loaded : (r.resolve a.id a.name w).1 = .ok e) (w' : σ) :
    (r.resolve b.id b.name w').1 = .ok e := by
  unfold resolve at loaded ⊢
  rw [← find?_of_key same]
  cases found : r.find? a.id a.name with
  | none =>
    rw [found] at loaded
    cases loaded
  | some entry =>
    rw [found] at loaded
    rw [← loaded]
    exact det entry (List.mem_of_find?_eq_some found) w' w

theorem Deterministic.register (det : r.Deterministic) {e : Registration σ}
    (own : ∀ w w', (e.loader w).1 = (e.loader w').1) : (r.register e).Deterministic := by
  intro old mem
  rw [entries_register] at mem
  obtain kept | new := List.mem_append.mp mem
  · exact det old (List.mem_of_mem_filter kept)
  · rwa [List.mem_singleton.mp new]

theorem resolve_register_of_ne {e : Registration σ} {l : Language} (apart : e.language.key ≠ l.key) :
    (r.register e).resolve l.id l.name = r.resolve l.id l.name := by
  rw [resolve, find?_register, if_neg fun called => apart (Language.isCalled_iff.mp called)]
  rfl

end Registry

namespace Cache

def keys (c : Cache) : List (Text × Text) := c.entries.map (·.1.key)

variable {r : Registry σ} {c : Cache} {l : Language}

theorem mem_and_key_of_find? {es : List (Language × Exports)} {e : Language × Exports}
    (found : es.find? (·.1.same l) = some e) : e ∈ es ∧ e.1.key = l.key := by
  have same := List.find?_some found
  exact ⟨List.mem_of_find?_eq_some found, Language.same_iff.mp same⟩

theorem get?_eq_some {e : Exports} (found : c.get? l = some e) :
    ∃ kept, (kept, e) ∈ c.entries ∧ kept.key = l.key := by
  obtain ⟨⟨kept, _⟩, first, rfl⟩ := Option.map_eq_some_iff.mp found
  exact ⟨kept, mem_and_key_of_find? first⟩

theorem get?_eq_none_iff : c.get? l = none ↔ l.key ∉ c.keys := by
  rw [get?, Option.map_eq_none_iff, List.find?_eq_none, keys, List.mem_map]
  constructor
  · rintro none ⟨e, mem, key⟩
    exact none e mem (Language.same_iff.mpr key)
  · intro absent e mem same
    exact absent ⟨e, mem, Language.same_iff.mp same⟩

theorem mem_keys_of_get? {e : Exports} (found : c.get? l = some e) : l.key ∈ c.keys := by
  obtain ⟨kept, mem, key⟩ := get?_eq_some found
  exact List.mem_map.mpr ⟨_, mem, key⟩

theorem get?_of_key {a b : Language} (same : a.key = b.key) (c : Cache) : c.get? a = c.get? b := by
  have test (e : Language × Exports) : e.1.same a = e.1.same b := by
    rw [Bool.eq_iff_iff, Language.same_iff, Language.same_iff, same]
  simp only [get?, test]

theorem get?_cons_self (c : Cache) (l : Language) (e : Exports) :
    get? ⟨(l, e) :: c.entries⟩ l = some e := by
  have same : l.same l = true := Language.same_iff.mpr rfl
  simp only [get?, List.find?_cons, same, Option.map_some]

theorem get?_cons_of_ne {other : Language} (apart : other.key ≠ l.key) {e : Exports} :
    get? ⟨(other, e) :: c.entries⟩ l = c.get? l := by
  have differs : other.same l = false :=
    Bool.eq_false_iff.mpr fun same => apart (Language.same_iff.mp same)
  simp only [get?, List.find?_cons, differs]

theorem find?_eq_some_iff {es : List (Language × Exports)} (distinct : (es.map (·.1.key)).Nodup)
    {e : Language × Exports} :
    es.find? (·.1.same l) = some e ↔ e ∈ es ∧ e.1.key = l.key :=
  find?_eq_some_iff_of_key (fun _ => Language.same_iff) distinct

theorem get?_eq_hashed (distinct : c.keys.Nodup) {β : Type} [DecidableEq β]
    (hash : Text × Text → β) {es : List (Language × Exports)} (stored : es.Perm c.entries)
    (l : Language) :
    ((es.filter fun e => hash e.1.key = hash l.key).find? (·.1.same l)).map Prod.snd =
      c.get? l := by
  have storedDistinct : (es.map (·.1.key)).Nodup := (stored.map _).nodup_iff.mpr distinct
  have bucketDistinct :
      ((es.filter fun e => hash e.1.key = hash l.key).map (·.1.key)).Nodup :=
    (List.filter_sublist.map _).nodup storedDistinct
  rw [get?]
  congr 1
  ext e
  rw [find?_eq_some_iff bucketDistinct, find?_eq_some_iff distinct, List.mem_filter,
    stored.mem_iff, decide_eq_true_eq]
  constructor
  · rintro ⟨⟨mem, -⟩, key⟩
    exact ⟨mem, key⟩
  · rintro ⟨mem, key⟩
    exact ⟨⟨mem, congrArg hash key⟩, key⟩

inductive Obtained (r : Registry σ) (c : Cache) (l : Language) (w : σ) :
    Except Fault Exports × Cache × σ → Prop
  | kept {e : Exports} (found : c.get? l = some e) : Obtained r c l w (.ok e, c, w)
  | loaded {e : Exports} {w' : σ} (absent : c.get? l = none)
      (done : r.resolve l.id l.name w = (.ok e, w')) :
      Obtained r c l w (.ok e, ⟨(l, e) :: c.entries⟩, w')
  | failed {f : Fault} {w' : σ} (absent : c.get? l = none)
      (done : r.resolve l.id l.name w = (.error f, w')) : Obtained r c l w (.error f, c, w')

theorem obtained_getOrLoad (r : Registry σ) (c : Cache) (l : Language) (w : σ) :
    Obtained r c l w (c.getOrLoad r l w) := by
  rw [getOrLoad]
  cases found : c.get? l with
  | some e => exact .kept found
  | none =>
    cases done : r.resolve l.id l.name w with
    | mk result w' =>
      cases result with
      | ok e => exact .loaded found done
      | error f => exact .failed found done

/-- What the cache keeps for a language is what loading gives for it. -/
def Compatible (r : Registry σ) (c : Cache) : Prop :=
  ∀ e ∈ c.entries, ∀ w, (r.resolve e.1.id e.1.name w).1 = .ok e.2

theorem compatible_empty (r : Registry σ) : empty.Compatible r :=
  List.forall_mem_nil _

/-- Through a compatible cache one gets what loading gives in any world, and the cache stays
compatible. -/
theorem Compatible.getOrLoad (h : c.Compatible r) (det : r.Deterministic) (l : Language)
    (w w' : σ) : (c.getOrLoad r l w).1 = (r.resolve l.id l.name w').1 ∧
      (c.getOrLoad r l w).2.1.Compatible r := by
  have obtained := obtained_getOrLoad r c l w
  generalize c.getOrLoad r l w = got at obtained ⊢
  have anywhere := det.resolve_eq l.id l.name w
  cases obtained with
  | kept found =>
    obtain ⟨kept, mem, key⟩ := get?_eq_some found
    exact ⟨(det.resolve_ok key (h _ mem w') w').symm, h⟩
  | loaded absent done =>
    rw [done] at anywhere
    refine ⟨anywhere w', List.forall_mem_cons.mpr ⟨fun world => ?_, h⟩⟩
    exact (anywhere world).symm
  | failed absent done =>
    rw [done] at anywhere
    exact ⟨anywhere w', h⟩

theorem Compatible.register (h : c.Compatible r) {e : Registration σ}
    (fresh : e.language.key ∉ c.keys) : c.Compatible (r.register e) := by
  intro kept mem w
  have apart : e.language.key ≠ kept.1.key := fun same =>
    fresh (List.mem_map.mpr ⟨kept, mem, same.symm⟩)
  rw [Registry.resolve_register_of_ne apart]
  exact h kept mem w

end Cache
end MarkupGrader
