import MarkupGrader.Proofs.Grader.Hosted
import MarkupGrader.Proofs.Language.History

/-! The registry of settings that were checked, told exactly. Checking compares ids and names in
lower case, registering compares keys; they agree on which entries are repeated. So if the check
finds nothing, no entry takes the place of another, and each is in the registry as it was written,
behind the built-in language unless that is replaced. -/

namespace MarkupGrader

namespace Settings

variable {σ : Type} {s : Settings}

def Issue.isDuplicate : Issue → Bool
  | duplicateLanguage _ _ => true
  | _ => false

/-- What checking the settings reports. -/
def reported (s : Settings) : List Issue :=
  match s.validate with
  | .ok () => []
  | .error issues => issues

def LanguageEntry.repeats (e : LanguageEntry) (earlier : List LanguageEntry) : Bool :=
  earlier.any fun old => old.language.same e.language

def LanguageEntry.duplicate (e : LanguageEntry) : Issue := .duplicateLanguage e.id e.name

/-- The entries that repeat one before them. -/
def repeated (s : Settings) : List LanguageEntry :=
  (s.languages.zipIdx.filter fun (e, i) => e.repeats (s.languages.take i)).map Prod.fst

/-- The entries among `es` that repeat one before them, or one of `earlier`. -/
def repeatedIn (earlier es : List LanguageEntry) : List LanguageEntry :=
  (es.zipIdx.filter fun (e, i) => e.repeats (earlier ++ es.take i)).map Prod.fst

theorem reported_eq (s : Settings) : s.reported = s.issues := by
  rw [reported, validate]
  split
  · next accepted =>
    split at accepted
    · next clear => exact (List.isEmpty_iff.mp clear).symm
    · cases accepted
  · next refused =>
    split at refused
    · cases refused
    · cases refused
      rfl

theorem filter_optionIssues (o : Grader.Options) :
    (optionIssues o).filter Issue.isDuplicate = [] := by
  simp only [optionIssues, List.filter_append, apply_ite (List.filter Issue.isDuplicate),
    List.filter_cons, List.filter_nil, Issue.isDuplicate, Bool.false_eq_true, if_false, ite_self,
    List.nil_append]

theorem filter_entryIssues (earlier : List LanguageEntry) (e : LanguageEntry) :
    (entryIssues earlier e).filter Issue.isDuplicate =
      if e.repeats earlier then [e.duplicate] else [] := by
  simp only [entryIssues, List.filter_append, apply_ite (List.filter Issue.isDuplicate),
    List.filter_cons, List.filter_nil, Issue.isDuplicate, Bool.false_eq_true, if_false, if_true,
    ite_self, List.nil_append]
  rfl

theorem repeats_middle (e other : LanguageEntry) (earlier more : List LanguageEntry) :
    e.repeats (earlier ++ other :: more) = e.repeats (other :: earlier ++ more) := by
  simp only [LanguageEntry.repeats, List.any_append, List.any_cons, List.cons_append,
    Bool.or_left_comm]

theorem repeatedIn_cons (earlier : List LanguageEntry) (e : LanguageEntry)
    (rest : List LanguageEntry) : repeatedIn earlier (e :: rest) =
      (if e.repeats earlier then [e] else []) ++ repeatedIn (e :: earlier) rest := by
  -- Behind `e` the entries are counted from one; what comes before them is only ordered otherwise.
  have others : ((rest.zipIdx 1).filter fun (x, i) =>
      x.repeats (earlier ++ (e :: rest).take i)).map Prod.fst = repeatedIn (e :: earlier) rest := by
    rw [List.zipIdx_succ, List.filter_map, List.map_map]
    simp only [repeatedIn, Function.comp_def, List.take_succ_cons, repeats_middle]
  rw [← others, repeatedIn, List.zipIdx_cons, List.filter_cons]
  simp only [List.take_zero, List.append_nil]
  split <;> rfl

theorem filter_languageIssues (earlier es : List LanguageEntry) :
    (languageIssues earlier es).filter Issue.isDuplicate =
      (repeatedIn earlier es).map LanguageEntry.duplicate := by
  induction es generalizing earlier with
  | nil => rfl
  | cons e rest ih =>
    rw [languageIssues, List.filter_append, filter_entryIssues, ih, repeatedIn_cons,
      List.map_append]
    split <;> rfl

theorem filter_reported (s : Settings) :
    s.reported.filter Issue.isDuplicate = s.repeated.map LanguageEntry.duplicate := by
  rw [reported_eq, issues, List.filter_append, filter_optionIssues, List.nil_append,
    filter_languageIssues]
  rfl

theorem distinct_of_repeatedIn {earlier es : List LanguageEntry} (none : repeatedIn earlier es = []) :
    (es.Pairwise fun a b => a.language.key ≠ b.language.key) ∧
      ∀ e ∈ es, ∀ old ∈ earlier, old.language.key ≠ e.language.key := by
  -- With both parts at once: the entries are apart from `e` as it is one of the earlier ones.
  induction es generalizing earlier with
  | nil => exact ⟨.nil, List.forall_mem_nil _⟩
  | cons e rest ih =>
    rw [repeatedIn_cons] at none
    obtain ⟨own, others⟩ := List.append_eq_nil_iff.mp none
    obtain ⟨distinct, apart⟩ := ih others
    refine ⟨List.pairwise_cons.mpr ⟨fun x mem => apart x mem e List.mem_cons_self, distinct⟩,
      List.forall_mem_cons.mpr ⟨fun old mem same => ?_, fun x mem old held => ?_⟩⟩
    · have repeats : e.repeats earlier = true :=
        List.any_eq_true.mpr ⟨old, mem, Language.same_iff.mpr same⟩
      rw [if_pos repeats] at own
      cases own
    · exact apart x mem old (List.mem_cons_of_mem _ held)

theorem distinct_of_languageIssues {es : List LanguageEntry} (clear : languageIssues [] es = []) :
    es.Pairwise fun a b => a.language.key ≠ b.language.key := by
  have duplicates := filter_languageIssues [] es
  rw [clear] at duplicates
  exact (distinct_of_repeatedIn (List.map_eq_nil_iff.mp duplicates.symm)).1

def LanguageEntry.registration (g : Grader) (e : LanguageEntry) : Registration σ :=
  ⟨e.language, e.module, Registry.htmlLoader g⟩

theorem registerAll_eq (g : Grader) {es : List LanguageEntry}
    (known : ∀ e ∈ es, e.module = Registry.htmlModule) (r : Registry σ) :
    registerAll g es r = .ok (r.registerEach (es.map (·.registration g))) := by
  induction es generalizing r with
  | nil => rfl
  | cons e rest ih =>
    obtain ⟨own, others⟩ := List.forall_mem_cons.mp known
    rw [registerAll, Registry.builtinLoader?_of_html own]
    exact ih others _

def unreplaced (g : Grader) (es : List LanguageEntry) : List (Registration σ) :=
  if es.any (·.language.same Registry.htmlLanguage) then [] else [Registry.builtin g]

theorem entries_of_distinct (g : Grader) {es : List LanguageEntry}
    (distinct : es.Pairwise fun a b => a.language.key ≠ b.language.key) :
    ((Registry.withBuiltins g).registerEach (es.map (·.registration (σ := σ) g))).entries =
      unreplaced g es ++ es.map (·.registration g) := by
  have own : (es.map (·.registration (σ := σ) g)).pwFilter Registration.Apart =
      es.map (·.registration g) := List.pwFilter_eq_self.mpr (List.pairwise_map.mpr distinct)
  refine (Registry.entries_registerEach (Registry.builtin g :: _)).trans ?_
  by_cases replaced : es.any (·.language.same Registry.htmlLanguage) = true
  · obtain ⟨e, mem, same⟩ := List.any_eq_true.mp replaced
    have gone : ¬ ∀ x ∈ (es.map (·.registration (σ := σ) g)).pwFilter Registration.Apart,
        (Registry.builtin g).Apart x := by
      rw [own]
      exact fun apart => apart _ (List.mem_map_of_mem mem) (Language.same_iff.mp same).symm
    rw [List.pwFilter_cons_of_neg gone, own, unreplaced, if_pos replaced, List.nil_append]
  · have stays : ∀ x ∈ (es.map (·.registration (σ := σ) g)).pwFilter Registration.Apart,
        (Registry.builtin g).Apart x := by
      rw [own]
      intro x held same
      obtain ⟨e, mem, rfl⟩ := List.mem_map.mp held
      exact replaced (List.any_eq_true.mpr ⟨e, mem, Language.same_iff.mpr same.symm⟩)
    rw [List.pwFilter_cons_of_pos stays, own, unreplaced, if_neg replaced, List.singleton_append]

theorem indent_of_validate (accepted : s.validate = .ok ()) :
    s.options.layout.validate = .ok () := by
  have clear := (List.append_eq_nil_iff.mp (issues_of_validate accepted)).1
  have range := (List.append_eq_nil_iff.mp clear).1
  split at range
  · next inside => exact if_pos inside
  · cases range

theorem resolve_of_loaders {r : Registry σ} {g : Grader}
    (html : ∀ e ∈ r.entries, e.loader = Registry.htmlLoader g) {id name : Text} {w : σ} {x : Exports}
    (loaded : (r.resolve id name w).1 = .ok x) : x = g.exports := by
  rw [Registry.resolve] at loaded
  cases found : r.find? id name with
  | none =>
    rw [found] at loaded
    cases loaded
  | some e =>
    rw [found] at loaded
    simp only [html e (List.mem_of_find?_eq_some found)] at loaded
    cases loaded
    rfl

theorem resolve_of_serves {r : Registry σ} {g : Grader} {l : Language} (served : r.Serves g l)
    (w : σ) : r.resolve l.id l.name w = (.ok g.exports, w) := by
  obtain ⟨e, found, html⟩ := served
  rw [Registry.resolve, found]
  simp only [html]
  rfl

theorem loader_of_mem {g : Grader} {es : List LanguageEntry} {e : Registration σ}
    (mem : e ∈ unreplaced g es ++ es.map (·.registration g)) : e.loader = Registry.htmlLoader g := by
  unfold unreplaced at mem
  obtain first | configured := List.mem_append.mp mem
  · split at first
    · cases first
    · rw [List.mem_singleton.mp first]
      rfl
  · obtain ⟨_, -, rfl⟩ := List.mem_map.mp configured
    rfl

/-- Settings without issues give a registry with all they configure, in which their grader serves
also the built-in language. -/
theorem exists_entries_of_validate (accepted : s.validate = .ok ()) (recovery : Markup.Recovery) :
    let g : Grader := ⟨s.options, recovery⟩
    ∃ r : Registry σ, s.registry recovery = .ok r ∧
      r.entries = unreplaced g s.languages ++ s.languages.map (·.registration g) ∧
      ∀ l ∈ Registry.htmlLanguage :: s.languages.map (·.language), r.Serves g l := by
  intro g
  have clear : languageIssues [] s.languages = [] :=
    (List.append_eq_nil_iff.mp (issues_of_validate accepted)).2
  have known := module_of_languageIssues clear
  obtain ⟨r, registered, keeps, adds⟩ := exists_registerAll g known (.withBuiltins (σ := σ) g)
  have same : r = _ := Except.ok.inj (registered.symm.trans (registerAll_eq g known _))
  have builtin : r.Serves g Registry.htmlLanguage :=
    keeps _ (Registry.empty.serves_register_self g Registry.htmlLanguage Registry.htmlModule)
  refine ⟨r, registered, ?_, List.forall_mem_cons.mpr ⟨builtin, List.forall_mem_map.mpr adds⟩⟩
  rw [same]
  exact entries_of_distinct g (distinct_of_languageIssues clear)

/-- The check reports exactly the entries that have the key of an earlier one. If it reports nothing,
the registry holds the built-in language, unless an entry replaces it, and then all entries in their
order and spelling; it loads each of them and the built-in language; and whatever it loads is the
grader of the settings, with their response capacity and a layout that is valid. -/
theorem registry_of_validate (s : Settings) :
    s.reported.filter Issue.isDuplicate = s.repeated.map LanguageEntry.duplicate ∧
    (s.validate = .ok () → ∀ recovery, ∃ r : Registry σ, s.registry recovery = .ok r ∧
      let g : Grader := ⟨s.options, recovery⟩
      r.languages = (if s.languages.any (·.language.same Registry.htmlLanguage) then []
        else [(Registry.htmlLanguage, Registry.htmlModule)]) ++
          s.languages.map (fun e => (e.language, e.module)) ∧
      (∀ l ∈ Registry.htmlLanguage :: s.languages.map (·.language), ∀ w,
        r.resolve l.id l.name w = (.ok g.exports, w)) ∧
      ∀ id name w x, (r.resolve id name w).1 = .ok x →
        x = g.exports ∧ x.capacity? = some s.options.responseCapacity ∧
          g.options.layout.validate = .ok ()) := by
  refine ⟨s.filter_reported, fun accepted recovery => ?_⟩
  obtain ⟨r, registered, entries, served⟩ := exists_entries_of_validate (σ := σ) accepted recovery
  refine ⟨r, registered, ?_, fun l mem => resolve_of_serves (served l mem), ?_⟩
  · rw [Registry.languages, entries, unreplaced, List.map_append, List.map_map]
    split <;> rfl
  · rintro id name w x loaded
    obtain rfl := resolve_of_loaders (fun e mem => loader_of_mem (entries ▸ mem)) loaded
    exact ⟨rfl, rfl, indent_of_validate accepted⟩

/-- The built-in language spelled otherwise, and a further one. -/
theorem registry_of_validate_page :
    let s : Settings := ⟨.default, [⟨"1", "html", "html"⟩, ⟨"7", "Page", "html"⟩]⟩
    let g : Grader := ⟨s.options, .atEnd⟩
    s.validate = .ok () ∧ ∃ r : Registry Unit, s.registry .atEnd = .ok r ∧
      r.languages = ([(⟨"1", "html"⟩, "html"), (⟨"7", "Page"⟩, "html")] : List (Language × Text)) ∧
      r.resolve "1" "HTML" () = (.ok g.exports, ()) ∧ g.exports.capacity? = some 4096 := by
  intro s g
  have accepted : s.validate = .ok () := by decide +kernel
  obtain ⟨r, registered, languages, loads, loaded⟩ :=
    (registry_of_validate s).2 accepted .atEnd
  have builtin : r.resolve "1" "HTML" () = (.ok g.exports, ()) :=
    loads Registry.htmlLanguage List.mem_cons_self ()
  exact ⟨accepted, r, registered, languages, builtin,
    (loaded "1" "HTML" () g.exports (congrArg Prod.fst builtin)).2.1⟩

end Settings
end MarkupGrader
