import MarkupGrader.Proofs.Selector.Locality
import MarkupGrader.Proofs.Selector.Names

/-! What holds of every selector that is read. A level that can be read is a name with or without a
list of predicates in parentheses, and from this the rest is derived: the parts of a selector are
never empty where they must not be, and hold none of the characters that end them. -/

namespace MarkupGrader.Selector

variable {piece : Text} {s : Selector}

theorem exists_of_readPredicate {predicate : Text} {p : Text × Text}
    (h : readPredicate piece predicate = .ok p) : p.1 ≠ [] ∧ '=' ∉ p.1 ∧
      ∃ before behind, predicate = p.1 ++ '=' :: (before ++ '"' :: (p.2 ++ '"' :: behind)) := by
  unfold readPredicate at h
  split at h
  · cases h
  · next key rest found =>
    obtain ⟨c, equals, rfl, clear⟩ := Text.splitFirst?_eq_some found
    obtain rfl : c = '=' := of_decide_eq_true equals
    split at h
    · cases h
    · next keyed =>
      split at h
      · cases h
      · next value _ quoted =>
        cases h
        obtain ⟨⟨before, tail⟩, opened, closed⟩ := Option.bind_eq_some_iff.mp quoted
        obtain ⟨⟨behind, turned⟩, last, eq⟩ := Option.map_eq_some_iff.mp closed
        cases eq
        obtain ⟨d, quote, rfl, -⟩ := Text.splitFirst?_eq_some opened
        obtain ⟨e, quote', whole, -⟩ := Text.splitFirst?_eq_some last
        obtain rfl : d = '"' := of_decide_eq_true quote
        obtain rfl : e = '"' := of_decide_eq_true quote'
        have tail_eq : tail = turned.reverse ++ '"' :: behind.reverse := by
          rw [← List.reverse_reverse tail, whole]
          simp
        refine ⟨by simpa using keyed, fun mem => ?_, before, behind.reverse, by rw [tail_eq]⟩
        simpa using clear '=' mem

/-- The selector with more attribute values asked for, from left to right. -/
def withAll (s : Selector) (pairs : List (Text × Text)) : Selector :=
  pairs.foldl (fun s p => s.withAttribute p.1 p.2) s

theorem exists_of_addPredicates {ps : List Text} {s' : Selector}
    (h : addPredicates piece ps s = .ok s') :
    ∃ pairs, ps.map (readPredicate piece) = pairs.map .ok ∧ s' = s.withAll pairs := by
  induction ps generalizing s with
  | nil =>
    cases h
    exact ⟨[], rfl, rfl⟩
  | cons p more ih =>
    unfold addPredicates at h
    cases read : readPredicate piece p with
    | error f =>
      rw [read] at h
      cases h
    | ok pair =>
      rw [read] at h
      obtain ⟨pairs, each, rfl⟩ := ih (s := s.withAttribute pair.1 pair.2) h
      refine ⟨pair :: pairs, ?_, rfl⟩
      rw [List.map_cons, List.map_cons, read, each]

theorem mem_attributes_withAll {pairs : List (Text × Text)} {p : Text × Text}
    (h : p ∈ (s.withAll pairs).attributes) : p ∈ s.attributes ∨ p ∈ pairs := by
  induction pairs generalizing s with
  | nil => exact .inl h
  | cons q rest ih =>
    rcases ih (s := s.withAttribute q.1 q.2) h with h | h
    · rcases mem_insertNew h with rfl | h
      · exact .inr List.mem_cons_self
      · exact .inl h
    · exact .inr (List.mem_cons_of_mem _ h)

theorem splitLevel_cases {name : Text} {inner? : Option Text}
    (h : splitLevel piece = .ok (name, inner?)) : '(' ∉ name ∧
      ((inner? = none ∧ piece = name ∧ ')' ∉ name) ∨
        ∃ inner, inner? = some inner ∧ piece = name ++ '(' :: (inner ++ [')'])) := by
  unfold splitLevel at h
  split at h
  · next none =>
    split at h
    · cases h
    · next closed =>
      cases h
      refine ⟨fun mem => ?_, .inl ⟨rfl, rfl, closed⟩⟩
      obtain ⟨front, back, rfl, clear⟩ := List.eq_append_cons_of_mem mem
      have opened := Text.splitFirst?_append (p := (· = '(')) (c := '(') (by decide)
        (fun d hd => decide_eq_false fun same => clear (same ▸ hd)) back
      rw [opened] at none
      cases none
  · next found =>
    obtain ⟨c, paren, rfl, clear⟩ := Text.splitFirst?_eq_some found
    obtain rfl : c = '(' := of_decide_eq_true paren
    split at h
    · cases h
    · next inner closed =>
      cases h
      rw [Text.before?_eq_some.mp closed]
      exact ⟨fun mem => by simpa using clear '(' mem, .inr ⟨inner, rfl, rfl⟩⟩

/-- A level as it can be written for a selector: the name alone, or with empty parentheses, or with
predicates that amount to the selector's attributes. -/
inductive IsReadFrom (s : Selector) : Text → Prop
  | bare (plain : s.attributes = []) (closed : ')' ∉ s.name) : IsReadFrom s s.name
  | empty (plain : s.attributes = []) : IsReadFrom s (s.name ++ ['(', ')'])
  | filled {inner : Text} {pairs : List (Text × Text)}
      (each : (predicates inner).map (readPredicate (s.name ++ '(' :: (inner ++ [')']))) =
        pairs.map .ok)
      (all : s = (named s.name).withAll pairs) : IsReadFrom s (s.name ++ '(' :: (inner ++ [')']))

theorem isReadFrom_of_readLevel (h : readLevel piece = .ok s) :
    s.name ≠ [] ∧ '(' ∉ s.name ∧ s.IsReadFrom piece := by
  unfold readLevel at h
  cases split : splitLevel piece with
  | error f =>
    rw [split] at h
    cases h
  | ok parts =>
    obtain ⟨name, inner?⟩ := parts
    rw [split] at h
    simp only [bind, Except.bind] at h
    obtain ⟨unopened, form⟩ := splitLevel_cases split
    split at h
    · cases h
    · next filledName =>
      have named : name ≠ [] := by simpa using filledName
      rcases form with ⟨rfl, rfl, closed⟩ | ⟨inner, rfl, rfl⟩
      · cases h
        exact ⟨named, unopened, .bare rfl closed⟩
      · simp only at h
        split at h
        · next none =>
          cases h
          obtain rfl : inner = [] := by simpa using none
          exact ⟨named, unopened, .empty rfl⟩
        · obtain rfl : s.name = name := name_of_addPredicates h
          obtain ⟨pairs, each, all⟩ := exists_of_addPredicates h
          exact ⟨named, unopened, .filled each all⟩

theorem subset_of_mem_predicates {t predicate : Text} (h : predicate ∈ predicates t) :
    predicate ⊆ t := subset_of_mem_splitOutside h

theorem isFormed_of_readLevel (solid : ∀ c ∈ piece, Text.isBlank c = false)
    (h : readLevel piece = .ok s) : s.IsFormed := by
  obtain ⟨named, unopened, form⟩ := isReadFrom_of_readLevel h
  have unopened (c : Char) (hc : c ∈ s.name) : c ≠ '(' := fun same => unopened (same ▸ hc)
  have plain (none : s.attributes = []) (name : ∀ c ∈ s.name, Text.isBlank c = false) :
      s.IsFormed :=
    ⟨named, fun c hc => ⟨name c hc, unopened c hc⟩, by simp [none], by simp [none], by simp [none]⟩
  cases form with
  | bare none _ => exact plain none solid
  | empty none => exact plain none fun c hc => solid c (List.mem_append_left _ hc)
  | @filled inner pairs each all =>
    have pair (p : Text × Text) (hp : p ∈ s.attributes) :
        ∃ predicate ∈ predicates inner, p.1 ≠ [] ∧ '=' ∉ p.1 ∧
          ∃ before behind, predicate = p.1 ++ '=' :: (before ++ '"' :: (p.2 ++ '"' :: behind)) := by
      rw [all] at hp
      have mem : p ∈ pairs := (mem_attributes_withAll hp).resolve_left List.not_mem_nil
      obtain ⟨predicate, inside, read⟩ := List.mem_map.mp (each ▸ List.mem_map_of_mem mem)
      exact ⟨predicate, inside, exists_of_readPredicate read⟩
    have solidIn (predicate : Text) (mem : predicate ∈ predicates inner) :
        ∀ c ∈ predicate, Text.isBlank c = false := fun c hc =>
      solid c (List.mem_append_right _ (List.mem_cons_of_mem _
        (List.mem_append_left _ (subset_of_mem_predicates mem hc))))
    refine ⟨named, fun c hc => ⟨solid c (List.mem_append_left _ hc), unopened c hc⟩,
      fun p hp => ?_, fun p hp c hc => ?_, fun p hp c hc => ?_⟩
    · obtain ⟨_, _, keyed, -⟩ := pair p hp
      exact keyed
    · obtain ⟨_, mem, -, key, before, behind, rfl⟩ := pair p hp
      exact ⟨solidIn _ mem c (List.mem_append_left _ hc), fun same => key (same ▸ hc)⟩
    · obtain ⟨_, mem, -, -, before, behind, rfl⟩ := pair p hp
      refine solidIn _ mem c (List.mem_append_right _ (List.mem_cons_of_mem _
        (List.mem_append_right _ (List.mem_cons_of_mem _ (List.mem_append_left _ hc)))))

/-- The name has nothing of what ends a level. -/
abbrev HasPlainName (s : Selector) : Prop := ∀ c ∈ s.name, c ≠ ')' ∧ c ≠ '>'

theorem Crosses.of_append {delimiter : Char} {step : Nesting → Char → Nesting} {n k : Nesting}
    {t u : Text} (h : Crosses delimiter step n (t ++ u) k) :
    ∃ m, Crosses delimiter step n t m ∧ Crosses delimiter step m u k := by
  induction t generalizing n with
  | nil => exact ⟨n, .nil n, h⟩
  | cons c t ih =>
    cases h with
    | cons uncut rest =>
      obtain ⟨m, front, back⟩ := ih rest
      exact ⟨m, .cons uncut front, back⟩

theorem leftward_eq_outside {n : Nesting} {c : Char} (opening : c ≠ '(')
    (h : n.leftward c = .outside) : n = .outside ∧ c ≠ ')' := by
  unfold Nesting.leftward at h
  split at h
  · next deep =>
    have shallow : n.depth = 0 := congrArg Nesting.depth h
    omega
  · split at h
    · exact absurd (congrArg Nesting.depth h) (Nat.succ_ne_zero _)
    · next unclosed =>
      rw [if_neg fun here => opening here.1] at h
      subst h
      exact ⟨rfl, fun closing => unclosed ⟨closing, rfl⟩⟩

theorem outside_of_crosses {t : Text} {n : Nesting} (unopened : '(' ∉ t)
    (h : Crosses '>' Nesting.leftward n t .outside) :
    n = .outside ∧ ∀ c ∈ t, c ≠ ')' ∧ c ≠ '>' := by
  generalize out : Nesting.outside = k at h
  induction h with
  | nil n => exact ⟨rfl, List.forall_mem_nil _⟩
  | cons uncut _ ih =>
    rw [List.mem_cons, not_or] at unopened
    obtain ⟨next, plain⟩ := ih unopened.2 out
    subst out
    obtain ⟨here, closing⟩ := leftward_eq_outside (Ne.symm unopened.1) next
    exact ⟨here, List.forall_mem_cons.mpr ⟨⟨closing, fun angle => uncut ⟨angle, here⟩⟩, plain⟩⟩

theorem hasPlainName_of_readLevel (level : IsLevel piece) (h : readLevel piece = .ok s) :
    s.HasPlainName := by
  obtain ⟨-, unopened, form⟩ := isReadFrom_of_readLevel h
  have tail : ∃ tail, piece = s.name ++ tail := by
    cases form with
    | bare => exact ⟨[], (List.append_nil _).symm⟩
    | empty => exact ⟨_, rfl⟩
    | filled => exact ⟨_, rfl⟩
  obtain ⟨tail, rfl⟩ := tail
  rw [IsLevel, List.reverse_append] at level
  obtain ⟨m, -, name⟩ := level.of_append
  obtain ⟨-, plain⟩ := outside_of_crosses (by simpa using unopened) name
  exact fun c hc => plain c (List.mem_reverse.mpr hc)

end MarkupGrader.Selector
