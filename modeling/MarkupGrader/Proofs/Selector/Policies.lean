import MarkupGrader.Proofs.Selector.Formed

/-! What was read of a command, and the two policies beside each other. Only at its left end can a
command have a level whose name the scan was not outside for, so that all selectors but the
outermost of a whole chain have plain names. The strict policy accepts less than the lenient one,
and never another chain. -/

namespace MarkupGrader.Selector

variable {pieces : List Text} {ss : List Selector} {failure : Option Failure} {t piece : Text}
  {s : Selector}

theorem Pieces.crosses_of_mem_dropLast {delimiter : Char} {step : Nesting → Char → Nesting}
    (h : Pieces delimiter step .outside pieces) (mem : piece ∈ pieces.dropLast) :
    Crosses delimiter step .outside piece .outside := by
  generalize out : Nesting.outside = n at h
  induction h with
  | last _ => cases mem
  | cut crossed others ih =>
    rw [List.dropLast_cons_of_ne_nil others.ne_nil] at mem
    rcases List.mem_cons.mp mem with rfl | mem
    · exact out ▸ crossed
    · exact out ▸ ih mem rfl

theorem isLevel_of_mem_levels (h : piece ∈ (levels t).dropLast) : IsLevel piece := by
  have cuts := (levels_eq_iff.mp (rfl : levels t = levels t)).1
  refine cuts.crosses_of_mem_dropLast ?_
  rw [← List.map_dropLast]
  exact List.mem_map_of_mem h

theorem ReadsAs.exists_level (h : ReadsAs pieces ss failure) (mem : s ∈ ss) :
    ∃ piece ∈ pieces, readLevel piece = .ok s := by
  cases h with
  | whole each => exact List.mem_map.mp (each ▸ List.mem_map_of_mem mem)
  | broken each _ =>
    obtain ⟨piece, inside, level⟩ := List.mem_map.mp (each ▸ List.mem_map_of_mem mem)
    exact ⟨piece, List.mem_append_left _ inside, level⟩

theorem ReadsAs.exists_level_of_broken {f : Failure} (h : ReadsAs pieces ss (some f))
    (mem : s ∈ ss) : ∃ piece ∈ pieces.dropLast, readLevel piece = .ok s := by
  cases h with
  | broken each _ =>
    obtain ⟨piece, inside, level⟩ := List.mem_map.mp (each ▸ List.mem_map_of_mem mem)
    rw [List.dropLast_append_of_ne_nil (List.cons_ne_nil _ _)]
    exact ⟨piece, List.mem_append_left _ inside, level⟩

theorem ReadsAs.exists_level_of_mem_dropLast (h : ReadsAs pieces ss failure)
    (mem : s ∈ ss.dropLast) : ∃ piece ∈ pieces.dropLast, readLevel piece = .ok s := by
  cases failure with
  | some f => exact h.exists_level_of_broken (List.mem_of_mem_dropLast mem)
  | none =>
    refine List.mem_map.mp ?_
    rw [List.map_dropLast, h.map_eq, ← List.map_dropLast]
    exact List.mem_map_of_mem mem

/-- All selectors are well formed and their names are plain, but for the outermost of a whole
chain. A reading without a failure has read something. -/
structure PartialChain.IsFormed (p : PartialChain) : Prop where
  formed : ∀ s ∈ p.selectors, s.IsFormed
  inner : ∀ s ∈ p.selectors.tail, s.HasPlainName
  broken : p.failure ≠ none → ∀ s ∈ p.selectors, s.HasPlainName
  filled : p.failure = none → p.selectors ≠ []

theorem PartialChain.IsFormed.isComplete_iff {p : PartialChain} (h : p.IsFormed) :
    p.isComplete = true ↔ p.failure = none := by
  simp only [isComplete, Bool.and_eq_true, Option.isNone_iff_eq_none, Bool.not_eq_true',
    List.isEmpty_eq_false_iff, and_iff_left_iff_imp]
  exact h.filled

theorem exists_readsAs_readParameters (filled : t ≠ []) : ∃ ss failure,
    ReadsAs (levels t) ss failure ∧ readParameters t = ⟨ss.reverse, failure⟩ := by
  obtain ⟨ss, failure, read⟩ := exists_readsAs (levels t)
  refine ⟨ss, failure, read, ?_⟩
  rw [readParameters_of_ne_nil filled, read.readLevels_eq, List.append_nil]

theorem isFormed_readParameters (solid : ∀ c ∈ t, Text.isBlank c = false) :
    (readParameters t).IsFormed := by
  by_cases filled : t = []
  · subst filled
    exact ⟨nofun, nofun, nofun, nofun⟩
  · obtain ⟨ss, failure, read, eq⟩ := exists_readsAs_readParameters filled
    rw [eq]
    refine ⟨fun s mem => ?_, fun s mem => ?_, fun stopped s mem => ?_, fun whole none => ?_⟩
    · obtain ⟨piece, inside, level⟩ := read.exists_level (List.mem_reverse.mp mem)
      exact isFormed_of_readLevel (fun c hc => solid c (subset_of_mem_levels inside hc)) level
    · rw [List.tail_reverse, List.mem_reverse] at mem
      obtain ⟨piece, inside, level⟩ := read.exists_level_of_mem_dropLast mem
      exact hasPlainName_of_readLevel (isLevel_of_mem_levels inside) level
    · obtain ⟨f, rfl⟩ := Option.ne_none_iff_exists'.mp stopped
      obtain ⟨piece, inside, level⟩ := read.exists_level_of_broken (List.mem_reverse.mp mem)
      exact hasPlainName_of_readLevel (isLevel_of_mem_levels inside) level
    · cases whole
      obtain rfl : ss = [] := List.reverse_eq_nil_iff.mp none
      have cut : levels t ≠ [] := fun eq =>
        (levels_eq_iff.mp eq).1.ne_nil rfl
      exact cut (List.map_eq_nil_iff.mp read.map_eq)

theorem readPartial_keyword (rest : Text) :
    readPartial (keyword ++ rest) = .ok (readParameters (withoutParens (Text.dropBlanks rest))) := by
  rw [readPartial, Text.after?_eq_some.mpr rfl]

theorem readPartial_cases (command : Text) :
    readPartial command = .error (.missingKeyword command) ∨
      ∃ rest, command = keyword ++ rest := by
  cases found : Text.after? keyword command with
  | none => exact .inl (by rw [readPartial, found])
  | some rest => exact .inr ⟨rest, Text.after?_eq_some.mp found⟩

theorem isFormed_of_readPartial {command : Text} {p : PartialChain}
    (h : readPartial command = .ok p) : p.IsFormed := by
  rcases readPartial_cases command with missing | ⟨rest, rfl⟩
  · rw [missing] at h
    cases h
  · rw [readPartial_keyword] at h
    cases h
    refine isFormed_readParameters fun c hc => ?_
    simpa using (List.mem_filter.mp (withoutParens_subset _ hc)).2

/-- All that the lenient and the strict policy can make of what was read. -/
inductive PartialChain.Judged (p : PartialChain) : Except Failure Chain → Except Failure Chain → Prop
  | nothing (none : p.selectors = []) :
      p.Judged (.error (p.failure.getD .emptyChain)) (.error (p.failure.getD .emptyChain))
  | broken {c : Chain} {f : Failure} (read : p.selectors = c.toList) (stopped : p.failure = some f) :
      p.Judged (.ok c) (.error f)
  | unanchored {c : Chain} (read : p.selectors = c.toList) (whole : p.failure = none)
      (other : c.first.name ≠ "head" ∧ c.first.name ≠ "body") :
      p.Judged (.ok c) (.error (.invalidAnchor c.first.name))
  | accepted {c : Chain} (read : p.selectors = c.toList) (whole : p.failure = none)
      (anchor : c.first.name = "head" ∨ c.first.name = "body") : p.Judged (.ok c) (.ok c)

theorem PartialChain.judged (p : PartialChain) :
    p.Judged (p.toChain .lenient) (p.toChain .strict) := by
  obtain ⟨selectors, failure⟩ := p
  cases selectors with
  | nil =>
    cases failure with
    | none => exact .nothing rfl
    | some f => exact .nothing rfl
  | cons first rest =>
    cases failure with
    | some f => exact .broken (c := ⟨first, rest⟩) rfl rfl
    | none =>
      by_cases anchor : first.name = "head" ∨ first.name = "body"
      · have taken : toChain ⟨first :: rest, none⟩ .strict = .ok ⟨first, rest⟩ := if_pos anchor
        rw [taken]
        exact .accepted rfl rfl anchor
      · have refused : toChain ⟨first :: rest, none⟩ .strict =
            .error (.invalidAnchor first.name) := if_neg anchor
        rw [refused]
        exact .unanchored (c := ⟨first, rest⟩) rfl rfl (not_or.mp anchor)

theorem readsAs_of_broken {c : Chain} {f : Failure} (read : (readParameters t).selectors = c.toList)
    (stopped : (readParameters t).failure = some f) :
    ∃ ss, ReadsAs (levels t) ss (some f) ∧ c.toList = ss.reverse := by
  by_cases filled : t = []
  · subst filled
    cases read
  · obtain ⟨ss, failure, reads, eq⟩ := exists_readsAs_readParameters filled
    rw [eq] at read stopped
    exact ⟨ss, stopped ▸ reads, read.symm⟩

theorem Chain.read_of_readPartial {command : Text} {p : PartialChain}
    (h : readPartial command = .ok p) (policy : Policy) :
    Chain.read command policy = p.toChain policy := by
  rw [Chain.read, h]
  rfl

theorem Chain.read_strict_iff {command : Text} {c : Chain} : Chain.read command .strict = .ok c ↔
    readPartial command = .ok ⟨c.toList, none⟩ ∧
      (c.first.name = "head" ∨ c.first.name = "body") := by
  constructor
  · intro h
    rcases readPartial_cases command with missing | ⟨rest, rfl⟩
    · rw [Chain.read, missing] at h
      cases h
    · rw [Chain.read_of_readPartial (readPartial_keyword rest)] at h
      rw [readPartial_keyword]
      generalize readParameters (withoutParens (Text.dropBlanks rest)) = p at h ⊢
      have judged := p.judged
      rw [h] at judged
      generalize p.toChain .lenient = lenient at judged
      cases judged with
      | accepted read whole anchor =>
        obtain ⟨selectors, failure⟩ := p
        cases read
        cases whole
        exact ⟨rfl, anchor⟩
  · rintro ⟨read, anchor⟩
    rw [Chain.read_of_readPartial read]
    exact if_pos anchor

theorem hasPlainName_of_anchor (anchor : s.name = "head" ∨ s.name = "body") : s.HasPlainName := by
  rcases anchor with eq | eq <;> simp [HasPlainName, eq]

theorem Chain.formed_of_read_strict {command : Text} {c : Chain}
    (h : Chain.read command .strict = .ok c) : ∀ s ∈ c.toList, s.IsFormed ∧ s.HasPlainName := by
  obtain ⟨read, anchor⟩ := Chain.read_strict_iff.mp h
  have formed := isFormed_of_readPartial read
  intro s mem
  refine ⟨formed.formed s mem, ?_⟩
  rcases List.mem_cons.mp mem with rfl | mem
  · exact hasPlainName_of_anchor anchor
  · exact formed.inner s mem

/-- A command that begins with the keyword is always read, and what is read of it is well formed. A
chain that the strict policy accepts the lenient one accepts too, and what the lenient one refuses
the strict one refuses for the same reason. Where they differ, the chain begins at neither the head
nor the body, or it is what stands to the right of the first level that cannot be read. -/
theorem formed_and_refined (command : Text) :
    (∀ rest, command = keyword ++ rest → ∃ p, readPartial command = .ok p ∧ p.IsFormed ∧
      (p.isComplete = true ↔ p.failure = none)) ∧
    (∀ c, Chain.read command .strict = .ok c → Chain.read command .lenient = .ok c ∧
      ∀ s ∈ c.toList, s.IsFormed ∧ s.HasPlainName) ∧
    (∀ e, Chain.read command .lenient = .error e → Chain.read command .strict = .error e) ∧
    ∀ c e, Chain.read command .lenient = .ok c → Chain.read command .strict = .error e →
      ((c.first.name ≠ "head" ∧ c.first.name ≠ "body") ∧ e = .invalidAnchor c.first.name) ∨
      ∃ rest ss, command = keyword ++ rest ∧
        ReadsAs (levels (withoutParens (Text.dropBlanks rest))) ss (some e) ∧
        c.toList = ss.reverse := by
  refine ⟨?_, fun c accepted => ⟨?_, Chain.formed_of_read_strict accepted⟩, ?_⟩
  · rintro rest rfl
    have formed := isFormed_of_readPartial (readPartial_keyword rest)
    exact ⟨_, readPartial_keyword rest, formed, formed.isComplete_iff⟩
  · obtain ⟨read, -⟩ := Chain.read_strict_iff.mp accepted
    exact Chain.read_of_readPartial read .lenient
  rcases readPartial_cases command with missing | ⟨rest, rfl⟩
  · have refused (policy : Policy) :
        Chain.read command policy = .error (.missingKeyword command) := by
      rw [Chain.read, missing]
      rfl
    rw [refused, refused]
    exact ⟨fun e refusal => refusal, fun c e taken => by cases taken⟩
  · rw [Chain.read_of_readPartial (readPartial_keyword rest),
      Chain.read_of_readPartial (readPartial_keyword rest)]
    generalize same : withoutParens (Text.dropBlanks rest) = t
    have judged := (readParameters t).judged
    generalize (readParameters t).toChain .lenient = lenient,
      (readParameters t).toChain .strict = strict at judged ⊢
    cases judged with
    | nothing none => exact ⟨fun e refusal => refusal, fun c e taken => by cases taken⟩
    | broken read stopped =>
      constructor
      · rintro _ ⟨⟩
      · rintro _ _ ⟨⟩ ⟨⟩
        obtain ⟨ss, reads, kept⟩ := readsAs_of_broken read stopped
        exact .inr ⟨rest, ss, rfl, same ▸ reads, kept⟩
    | unanchored read whole other =>
      constructor
      · rintro _ ⟨⟩
      · rintro _ _ ⟨⟩ ⟨⟩
        exact .inl ⟨other, rfl⟩
    | accepted read whole anchor =>
      constructor
      · rintro _ ⟨⟩
      · rintro _ _ - ⟨⟩

/-- A chain that is read whole, one of which the left end is not read, and a command of which nothing
is. -/
theorem formed_and_refined_commands :
    let whole : Text := "contains(body>a(title=\"x>y\")>b)"
    let broken : Text := "contains(body>div(class)>ul>li)"
    let nothing : Text := "contains(div(class))"
    (∃ p, readPartial broken = .ok p ∧ p.IsFormed ∧ (p.isComplete = true ↔ p.failure = none)) ∧
    (∃ c, Chain.read whole .strict = .ok c ∧ Chain.read whole .lenient = .ok c ∧
      ∀ s ∈ c.toList, s.IsFormed ∧ s.HasPlainName) ∧
    Chain.read nothing .lenient = .error (.missingEquals "div(class)" "class") ∧
    Chain.read nothing .strict = .error (.missingEquals "div(class)" "class") ∧
    Chain.read broken .lenient = .ok ⟨named "ul", [named "li"]⟩ ∧
    Chain.read broken .strict = .error (.missingEquals "div(class)" "class") ∧
    ∃ rest ss, broken = keyword ++ rest ∧
      ReadsAs (levels (withoutParens (Text.dropBlanks rest))) ss
        (some (.missingEquals "div(class)" "class")) ∧
      [named "ul", named "li"] = ss.reverse := by
  intro whole broken nothing
  have kept : Chain.read broken .lenient = .ok ⟨named "ul", [named "li"]⟩ := rfl
  have refused : Chain.read broken .strict = .error (.missingEquals "div(class)" "class") := rfl
  have unread : Chain.read nothing .lenient = .error (.missingEquals "div(class)" "class") := rfl
  obtain ⟨taken, formed⟩ := (formed_and_refined whole).2.1
    ⟨named "body", [(named "a").withAttribute "title" "x>y", named "b"]⟩ rfl
  refine ⟨(formed_and_refined broken).1 "(body>div(class)>ul>li)" rfl, ⟨_, rfl, taken, formed⟩,
    unread, (formed_and_refined nothing).2.2.1 _ unread, kept, refused, ?_⟩
  rcases (formed_and_refined broken).2.2.2 _ _ kept refused with ⟨-, ⟨⟩⟩ | left
  exact left

end MarkupGrader.Selector
