import Mathlib
import MarkupGrader.Settings.Basic

/-! The registry of settings that were checked. Registering a language changes what is found for it
and for nothing else, so that in the end the grader of the settings serves each configured
language. -/

namespace MarkupGrader

theorem Language.isCalled_iff {l : Language} {id name : Text} :
    l.isCalled id name = true ↔ l.key = (⟨id, name⟩ : Language).key :=
  @Language.same_iff l ⟨id, name⟩

namespace Registry

variable {σ : Type}

theorem find?_register (r : Registry σ) (e : Registration σ) (id name : Text) :
    (r.register e).find? id name =
      if e.language.isCalled id name then some e else r.find? id name := by
  rw [find?, find?, register, List.find?_append, List.find?_filter, List.find?_singleton]
  by_cases called : e.language.isCalled id name = true
  · have replaced : r.entries.find? (fun old =>
        decide ((!old.language.same e.language) = true ∧ old.language.isCalled id name = true)) =
          none := by
      rw [List.find?_eq_none]
      intro old _ left
      obtain ⟨apart, found⟩ := of_decide_eq_true left
      have same : old.language.same e.language = true := by
        rw [Language.same_iff, Language.isCalled_iff.mp found, Language.isCalled_iff.mp called]
      rw [same] at apart
      cases apart
    rw [replaced, Option.none_or, if_pos called, if_pos called]
  · have kept : (fun old : Registration σ => decide
        ((!old.language.same e.language) = true ∧ old.language.isCalled id name = true)) =
          fun old => old.language.isCalled id name := by
      funext old
      rw [Bool.eq_iff_iff, decide_eq_true_eq]
      refine ⟨And.right, fun found => ⟨?_, found⟩⟩
      have apart : ¬ old.language.same e.language = true := by
        rw [Language.same_iff, Language.isCalled_iff.mp found]
        exact fun same => called (Language.isCalled_iff.mpr same.symm)
      rw [Bool.eq_false_iff.mpr apart]
      rfl
    rw [kept, if_neg called, if_neg called, Option.or_none]

theorem builtinLoader?_of_html {module : Text} (html : module = htmlModule) (g : Grader) :
    builtinLoader? module g = some (htmlLoader (σ := σ) g) := if_pos html

def Serves (r : Registry σ) (g : Grader) (l : Language) : Prop :=
  ∃ e, r.find? l.id l.name = some e ∧ e.loader = htmlLoader g

theorem serves_register_self (r : Registry σ) (g : Grader) (l : Language) (module : Text) :
    (r.register ⟨l, module, htmlLoader g⟩).Serves g l := by
  refine ⟨⟨l, module, htmlLoader g⟩, ?_, rfl⟩
  rw [find?_register, if_pos (Language.isCalled_iff.mpr rfl)]

theorem Serves.register {r : Registry σ} {g : Grader} {l : Language} (h : r.Serves g l)
    (other : Language) (module : Text) :
    (r.register ⟨other, module, htmlLoader g⟩).Serves g l := by
  obtain ⟨e, found, html⟩ := h
  unfold Serves
  rw [find?_register]
  split
  · exact ⟨_, rfl, rfl⟩
  · exact ⟨e, found, html⟩

end Registry

namespace Settings

variable {σ : Type} {s : Settings}

theorem issues_of_validate (accepted : s.validate = .ok ()) : s.issues = [] := by
  unfold validate at accepted
  split at accepted
  · next clear => exact List.isEmpty_iff.mp clear
  · cases accepted

theorem capacity_of_validate (accepted : s.validate = .ok ()) : 2 ≤ s.options.responseCapacity := by
  have clear := (List.append_eq_nil_iff.mp (issues_of_validate accepted)).1
  have room := (List.append_eq_nil_iff.mp clear).2
  split at room
  · assumption
  · cases room

theorem module_of_languageIssues {earlier es : List LanguageEntry}
    (clear : languageIssues earlier es = []) : ∀ e ∈ es, e.module = Registry.htmlModule := by
  induction es generalizing earlier with
  | nil => simp
  | cons e rest ih =>
    obtain ⟨own, others⟩ := List.append_eq_nil_iff.mp clear
    refine List.forall_mem_cons.mpr ⟨?_, ih others⟩
    obtain ⟨first, -⟩ := List.append_eq_nil_iff.mp own
    obtain ⟨-, known⟩ := List.append_eq_nil_iff.mp first
    split at known
    · assumption
    · cases known

theorem exists_registerAll (g : Grader) {es : List LanguageEntry}
    (known : ∀ e ∈ es, e.module = Registry.htmlModule) (r : Registry σ) :
    ∃ r', registerAll g es r = .ok r' ∧ (∀ l, r.Serves g l → r'.Serves g l) ∧
      ∀ e ∈ es, r'.Serves g e.language := by
  induction es generalizing r with
  | nil => exact ⟨r, rfl, fun _ served => served, by simp⟩
  | cons e rest ih =>
    obtain ⟨own, others⟩ := List.forall_mem_cons.mp known
    obtain ⟨r', registered, keeps, adds⟩ :=
      ih others (r.register ⟨e.language, e.module, Registry.htmlLoader g⟩)
    refine ⟨r', ?_, fun l served => keeps l (served.register _ _), ?_⟩
    · rw [registerAll, Registry.builtinLoader?_of_html own]
      exact registered
    · exact List.forall_mem_cons.mpr ⟨keeps _ (r.serves_register_self g _ _), adds⟩

theorem exists_registry (accepted : s.validate = .ok ()) (recovery : Markup.Recovery) :
    ∃ r : Registry σ, s.registry recovery = .ok r ∧
      ∀ e ∈ s.languages, r.Serves ⟨s.options, recovery⟩ e.language := by
  have clear := (List.append_eq_nil_iff.mp (issues_of_validate accepted)).2
  obtain ⟨r, registered, -, served⟩ :=
    exists_registerAll ⟨s.options, recovery⟩ (module_of_languageIssues clear)
      (.withBuiltins ⟨s.options, recovery⟩)
  exact ⟨r, registered, served⟩

end Settings
end MarkupGrader
