import MarkupGrader.Proofs.Settings.Registered

/-! A registry and the registrations that made it. Of all registrations with one key the last counts:
its place, its spelling, its module and its loader. The languages of a registry are therefore the
keys of the whole history without repetition, each where it stands last. -/

namespace MarkupGrader

theorem find?_eq_some_iff_of_key {α κ : Type} {key : α → κ} {k : κ} {test : α → Bool}
    (tests : ∀ e, test e = true ↔ key e = k) {es : List α} (distinct : (es.map key).Nodup) {e : α} :
    es.find? test = some e ↔ e ∈ es ∧ key e = k := by
  constructor
  · intro found
    exact ⟨List.mem_of_find?_eq_some found, (tests e).mp (List.find?_some found)⟩
  · rintro ⟨mem, has⟩
    obtain ⟨first, found⟩ : ∃ first, es.find? test = some first := by
      rw [← Option.isSome_iff_exists, List.find?_isSome]
      exact ⟨e, mem, (tests e).mpr has⟩
    have firstHas : key first = k := (tests first).mp (List.find?_some found)
    -- Two entries with the key are the same entry.
    have same : first = e := List.inj_on_of_nodup_map distinct (List.mem_of_find?_eq_some found) mem
      (firstHas.trans has.symm)
    rw [found, same]

variable {σ : Type}

namespace Registration

def Apart (a b : Registration σ) : Prop := a.language.key ≠ b.language.key

instance : DecidableRel (@Apart σ) := fun a b =>
  inferInstanceAs (Decidable (a.language.key ≠ b.language.key))

variable {a b : Registration σ}

theorem not_apart_iff : ¬ a.Apart b ↔ a.language.key = b.language.key := Decidable.not_not

theorem same_eq_not_apart : a.language.same b.language = !decide (a.Apart b) := by
  rw [Bool.eq_iff_iff, Language.same_iff, Bool.not_eq_true', decide_eq_false_iff_not, not_apart_iff]

end Registration

open Registration

namespace Registry

/-- The registry after further registrations. -/
def registerEach (r : Registry σ) (es : List (Registration σ)) : Registry σ := es.foldl register r

theorem registerEach_concat (r : Registry σ) (es : List (Registration σ)) (e : Registration σ) :
    r.registerEach (es ++ [e]) = (r.registerEach es).register e := by
  rw [registerEach, List.foldl_append]
  rfl

theorem entries_register (r : Registry σ) (e : Registration σ) :
    (r.register e).entries = r.entries.filter (fun old => old.Apart e) ++ [e] := by
  rw [register]
  simp only [same_eq_not_apart, Bool.not_not]

theorem pwFilter_concat (es : List (Registration σ)) (e : Registration σ) :
    (es ++ [e]).pwFilter Apart =
      (es.pwFilter Apart).filter (fun old => old.Apart e) ++ [e] := by
  induction es with
  | nil => rfl
  | cons x rest ih =>
    rw [List.cons_append]
    by_cases apart : x.Apart e
    · by_cases last : ∀ y ∈ rest.pwFilter Apart, x.Apart y
      · have stays : ∀ y ∈ (rest ++ [e]).pwFilter Apart, x.Apart y := by
          rw [ih]
          intro y mem
          obtain old | new := List.mem_append.mp mem
          · exact last y (List.mem_of_mem_filter old)
          · rwa [List.mem_singleton.mp new]
        rw [List.pwFilter_cons_of_pos stays, List.pwFilter_cons_of_pos last, ih, List.filter_cons,
          if_pos (decide_eq_true apart), List.cons_append]
      · -- Whatever comes after `x` with its key has another key than `e` and is kept.
        have gone : ¬ ∀ y ∈ (rest ++ [e]).pwFilter Apart, x.Apart y := by
          rw [ih]
          intro all
          refine last fun y mem same => ?_
          have kept : y.Apart e := by rwa [Apart, ← same]
          exact all y (List.mem_append_left _ (List.mem_filter.mpr ⟨mem, decide_eq_true kept⟩)) same
        rw [List.pwFilter_cons_of_neg gone, List.pwFilter_cons_of_neg last, ih]
    · have gone : ¬ ∀ y ∈ (rest ++ [e]).pwFilter Apart, x.Apart y := by
        rw [ih]
        exact fun all => apart (all e (List.mem_append_right _ (List.mem_singleton_self e)))
      rw [List.pwFilter_cons_of_neg gone, ih]
      by_cases last : ∀ y ∈ rest.pwFilter Apart, x.Apart y
      · rw [List.pwFilter_cons_of_pos last,
          List.filter_cons_of_neg (by rwa [decide_eq_true_eq])]
      · rw [List.pwFilter_cons_of_neg last]

/-- A registration is left if none with its key comes later. -/
theorem entries_registerEach (es : List (Registration σ)) :
    (empty.registerEach es).entries = es.pwFilter Apart := by
  induction es using List.reverseRecOn with
  | nil => rfl
  | append_singleton es e ih => rw [registerEach_concat, entries_register, ih, pwFilter_concat]

theorem find?_registerEach (r : Registry σ) (es : List (Registration σ)) (id name : Text) :
    (r.registerEach es).find? id name =
      (es.reverse.find? (·.language.isCalled id name)).or (r.find? id name) := by
  induction es using List.reverseRecOn with
  | nil => rfl
  | append_singleton es e ih =>
    rw [registerEach_concat, find?_register, ih, List.reverse_append, List.reverse_singleton,
      List.singleton_append, List.find?_cons]
    cases e.language.isCalled id name <;> rfl

/-- All that a registry tells of the registrations that made it. -/
structure Reflects (r : Registry σ) (es : List (Registration σ)) : Prop where
  distinct : r.entries.Pairwise fun a b => ¬ a.language.same b.language = true
  /-- Every key is listed once, in the order of the last registrations. -/
  order : r.languages.map (·.1.key) = (es.map (·.language.key)).dedup
  /-- Language and module are spelled as they were registered last. -/
  latest : ∀ p ∈ r.languages, ∃ e,
    es.reverse.find? (·.language.same p.1) = some e ∧ p = (e.language, e.module)
  resolve : ∀ id name, r.resolve id name =
    match es.reverse.find? (·.language.isCalled id name) with
    | some e => e.loader
    | none => fun w => (.error (.moduleLoadFailed name), w)
  findByName : ∀ name l, r.findByName name = some l ↔
    ∃ before module after, r.languages = before ++ (l, module) :: after ∧
      Text.sameName l.name name = true ∧ ∀ p ∈ before, ¬ Text.sameName p.1.name name = true

theorem findByName_eq_some_iff (r : Registry σ) (name : Text) (l : Language) :
    r.findByName name = some l ↔
      ∃ before module after, r.languages = before ++ (l, module) :: after ∧
        Text.sameName l.name name = true ∧ ∀ p ∈ before, ¬ Text.sameName p.1.name name = true := by
  have listed : r.entries.map (·.language) = r.languages.map Prod.fst := by
    rw [languages, List.map_map]
    rfl
  rw [findByName, listed, List.find?_map, Option.map_eq_some_iff]
  constructor
  · rintro ⟨⟨_, module⟩, found, rfl⟩
    obtain ⟨called, before, after, split, others⟩ := List.find?_eq_some_iff_append.mp found
    refine ⟨before, module, after, split, called, fun p mem => ?_⟩
    simpa using others p mem
  · rintro ⟨before, module, after, split, called, others⟩
    refine ⟨(l, module), List.find?_eq_some_iff_append.mpr ⟨called, before, after, split, ?_⟩, rfl⟩
    intro p mem
    simpa using others p mem

theorem find?_of_mem {r : Registry σ} (distinct : r.entries.Pairwise Apart) {e : Registration σ}
    (mem : e ∈ r.entries) : r.find? e.language.id e.language.name = some e :=
  (find?_eq_some_iff_of_key (fun _ => Language.isCalled_iff) (List.pairwise_map.mpr distinct)).mpr
    ⟨mem, rfl⟩

theorem reflects_registerEach (es : List (Registration σ)) : (empty.registerEach es).Reflects es := by
  have left := entries_registerEach es
  have apart : (empty.registerEach es).entries.Pairwise Apart := by
    rw [left]
    exact List.pairwise_pwFilter es
  have last (id name : Text) : (empty.registerEach es).find? id name =
      es.reverse.find? (·.language.isCalled id name) := by
    rw [find?_registerEach]
    exact Option.or_none
  refine ⟨?_, ?_, ?_, fun id name => ?_, findByName_eq_some_iff _⟩
  · exact apart.imp fun apart same => apart (Language.same_iff.mp same)
  · rw [languages, left, List.map_map, List.dedup, List.pwFilter_map]
    rfl
  · intro p mem
    obtain ⟨e, kept, rfl⟩ := List.mem_map.mp mem
    exact ⟨e, (last e.language.id e.language.name).symm.trans (find?_of_mem apart kept), rfl⟩
  · unfold resolve
    exact congrArg (fun
      | some e => e.loader
      | none => fun w => (.error (.moduleLoadFailed name), w)) (last id name)

/-- What the built-in language is registered as. -/
def builtin (g : Grader) : Registration σ := ⟨htmlLanguage, htmlModule, htmlLoader g⟩

end Registry

theorem Language.feed_eq_iff {a b : Language} :
    (∀ {S : Type} (write : S → Text → S) (s : S), a.feed write s = b.feed write s) ↔
      a.key = b.key := by
  constructor
  · intro fed
    have texts := fed (fun read t => read ++ [t]) []
    simpa [feed, key] using texts
  · intro same S write s
    obtain ⟨id, name⟩ := Prod.mk.inj same
    rw [feed, feed, id, name]

theorem Language.equivalence_same : Equivalence fun a b : Language => a.same b = true where
  refl _ := same_iff.mpr rfl
  symm same := same_iff.mpr (same_iff.mp same).symm
  trans first second := same_iff.mpr ((same_iff.mp first).trans (same_iff.mp second))

/-- A registry that was empty or had the built-in language tells of all registrations since, each key
as it was registered last. That two languages are the same is an equivalence, and it is what every
hasher sees of them. -/
theorem Registry.reflects_history (es : List (Registration σ)) :
    (empty.registerEach es).Reflects es ∧
    (∀ g, ((withBuiltins g).registerEach es).Reflects (builtin g :: es)) ∧
    (Equivalence fun a b : Language => a.same b = true) ∧
    ∀ a b : Language, a.same b = true ↔
      ∀ {S : Type} (write : S → Text → S) (s : S), a.feed write s = b.feed write s :=
  ⟨reflects_registerEach es, fun g => reflects_registerEach (builtin g :: es),
    Language.equivalence_same, fun _ _ => Language.same_iff.trans Language.feed_eq_iff.symm⟩

end MarkupGrader
