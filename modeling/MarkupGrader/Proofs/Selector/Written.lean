import MarkupGrader.Proofs.Selector.Pieces
import MarkupGrader.Selector.Reading

/-! The written form of a chain is read back as that chain. Whatever delimiters an attribute value
holds, its quotes hide them from both splitters, and the parentheses hide those in the attribute
names. -/

namespace MarkupGrader

namespace Text

theorem splitFirst?_append {p : Char → Bool} {left : Text} {c : Char} (hit : p c = true)
    (clear : ∀ d ∈ left, p d = false) (right : Text) :
    splitFirst? p (left ++ c :: right) = some (left, right) := by
  induction left with
  | nil => rw [List.nil_append, splitFirst?, if_pos hit]
  | cons d left ih =>
    obtain ⟨own, others⟩ := List.forall_mem_cons.mp clear
    rw [List.cons_append, splitFirst?, if_neg (Bool.eq_false_iff.mp own), ih others]
    rfl

theorem splitFirst?_eq_none {p : Char → Bool} {t : Text} (clear : ∀ d ∈ t, p d = false) :
    splitFirst? p t = none := by
  induction t with
  | nil => rfl
  | cons d t ih =>
    obtain ⟨own, others⟩ := List.forall_mem_cons.mp clear
    rw [splitFirst?, if_neg (Bool.eq_false_iff.mp own), ih others]
    rfl

theorem splitLast?_append_singleton {p : Char → Bool} {c : Char} (hit : p c = true) (left : Text) :
    splitLast? p (left ++ [c]) = some (left, []) := by
  have reversed : (left ++ [c]).reverse = [] ++ c :: left.reverse := by simp
  rw [splitLast?, reversed, splitFirst?_append hit (by simp)]
  simp

theorem precedes_irrefl (t : Text) : precedes t t = false := by
  induction t with
  | nil => rfl
  | cons c t ih => simp [precedes, ih]

theorem join_ne_nil {parts : List Text} (separator : Text) (nonempty : parts ≠ [])
    (each : ∀ t ∈ parts, t ≠ []) : join separator parts ≠ [] := by
  cases parts with
  | nil => exact absurd rfl nonempty
  | cons t rest =>
    have own : t ≠ [] := each t List.mem_cons_self
    cases rest with
    | nil => rwa [join_singleton]
    | cons second more =>
      rw [join_cons_cons]
      exact List.append_ne_nil_of_left_ne_nil own _

end Text

namespace Selector

def nameEnds : List Char := ['(', ')', '>']

/-- The characters that end an attribute name or would be taken for the end of its predicate. -/
def keyEnds : List Char := ['=', '"', '|', '(', ')']

/-- The written form has no blanks and tells its parts apart. -/
structure IsWritable (s : Selector) : Prop where
  named : s.name ≠ []
  name : ∀ c ∈ s.name, Text.isBlank c = false ∧ c ∉ nameEnds
  keyed : ∀ p ∈ s.attributes, p.1 ≠ []
  key : ∀ p ∈ s.attributes, ∀ c ∈ p.1, Text.isBlank c = false ∧ c ∉ keyEnds
  value : ∀ p ∈ s.attributes, ∀ c ∈ p.2, Text.isBlank c = false ∧ c ≠ '"'

/-- No part of the selector is empty that must not be, and none holds a blank or a character that
ends it. -/
structure IsFormed (s : Selector) : Prop where
  named : s.name ≠ []
  name : ∀ c ∈ s.name, Text.isBlank c = false ∧ c ≠ '('
  keyed : ∀ p ∈ s.attributes, p.1 ≠ []
  key : ∀ p ∈ s.attributes, ∀ c ∈ p.1, Text.isBlank c = false ∧ c ≠ '='
  value : ∀ p ∈ s.attributes, ∀ c ∈ p.2, Text.isBlank c = false

theorem IsWritable.isFormed {s : Selector} (h : s.IsWritable) : s.IsFormed where
  named := h.named
  name c hc := ⟨(h.name c hc).1, fun same => (h.name c hc).2 (same ▸ by decide)⟩
  keyed := h.keyed
  key p hp c hc := ⟨(h.key p hp c hc).1, fun same => (h.key p hp c hc).2 (same ▸ by decide)⟩
  value p hp c hc := (h.value p hp c hc).1

def written (p : Text × Text) : Text := p.1 ++ "=\"" ++ p.2 ++ "\""

theorem written_eq (p : Text × Text) : written p = p.1 ++ '=' :: '"' :: (p.2 ++ ['"']) := by
  simp [written]

theorem display_of_attributes {s : Selector} (h : s.attributes ≠ []) :
    s.display = s.name ++ '(' :: (Text.join "|" (s.attributes.map written) ++ [')']) := by
  have some : s.attributes.isEmpty = false := by simpa using h
  have shown : s.display = s.name ++ "(" ++ Text.join "|" (s.attributes.map written) ++ ")" := by
    rw [display, some, if_neg Bool.false_ne_true]
    rfl
  rw [shown]
  simp

theorem display_of_no_attributes {s : Selector} (h : s.attributes = []) : s.display = s.name := by
  rw [display, h]
  rfl

section Crossings

variable {p : Text × Text}

theorem rightward_of_plain {c : Char} (plain : c ∉ keyEnds) (n : Nesting) : n.rightward c = n := by
  simp only [keyEnds, List.mem_cons, List.not_mem_nil, not_or] at plain
  simp [Nesting.rightward, plain]

theorem leftward_of_plain {c : Char} (plain : c ∉ keyEnds) (n : Nesting) : n.leftward c = n := by
  simp only [keyEnds, List.mem_cons, List.not_mem_nil, not_or] at plain
  simp [Nesting.leftward, plain]

theorem isPredicate_written (key : ∀ c ∈ p.1, c ∉ keyEnds) (value : ∀ c ∈ p.2, c ≠ '"') :
    IsPredicate (written p) := by
  have name : Crosses '|' Nesting.rightward .outside p.1 .outside := by
    refine crosses_of_still fun c hc => ⟨fun ⟨bar, _⟩ => ?_, rightward_of_plain (key c hc) _⟩
    exact key c hc (bar ▸ by decide)
  have inside : Crosses '|' Nesting.rightward ⟨0, true⟩ p.2 ⟨0, true⟩ := by
    refine crosses_of_still fun c hc => ⟨by rintro ⟨_, ⟨⟩⟩, ?_⟩
    simp [Nesting.rightward, value c hc]
  have opening : Crosses '|' Nesting.rightward .outside ['=', '"'] ⟨0, true⟩ :=
    .cons (by decide) (.cons (by decide) (.nil _))
  have closing : Crosses '|' Nesting.rightward ⟨0, true⟩ ['"'] .outside :=
    .cons (by decide) (.nil _)
  rw [written_eq]
  exact name.append (opening.append (inside.append closing))

theorem crosses_reverse_written (key : ∀ c ∈ p.1, c ∉ keyEnds) (value : ∀ c ∈ p.2, c ≠ '"') :
    Crosses '>' Nesting.leftward ⟨1, false⟩ (written p).reverse ⟨1, false⟩ := by
  have name : Crosses '>' Nesting.leftward ⟨1, false⟩ p.1.reverse ⟨1, false⟩ := by
    refine crosses_of_still fun c hc => ⟨by rintro ⟨_, ⟨⟩⟩, ?_⟩
    exact leftward_of_plain (key c (List.mem_reverse.mp hc)) _
  have inside : Crosses '>' Nesting.leftward ⟨1, true⟩ p.2.reverse ⟨1, true⟩ := by
    refine crosses_of_still fun c hc => ⟨by rintro ⟨_, ⟨⟩⟩, ?_⟩
    simp [Nesting.leftward, value c (List.mem_reverse.mp hc)]
  have opening : Crosses '>' Nesting.leftward ⟨1, false⟩ ['"'] ⟨1, true⟩ :=
    .cons (by decide) (.nil _)
  have closing : Crosses '>' Nesting.leftward ⟨1, true⟩ ['"', '='] ⟨1, false⟩ :=
    .cons (by decide) (.cons (by decide) (.nil _))
  have reversed : (written p).reverse = ['"'] ++ (p.2.reverse ++ (['"', '='] ++ p.1.reverse)) := by
    simp [written]
  rw [reversed]
  exact opening.append (inside.append (closing.append name))

theorem crosses_reverse_join {ts : List Text}
    (each : ∀ t ∈ ts, Crosses '>' Nesting.leftward ⟨1, false⟩ t.reverse ⟨1, false⟩) :
    Crosses '>' Nesting.leftward ⟨1, false⟩ (Text.join "|" ts).reverse ⟨1, false⟩ := by
  induction ts with
  | nil => exact .nil _
  | cons t rest ih =>
    obtain ⟨own, others⟩ := List.forall_mem_cons.mp each
    cases rest with
    | nil => rwa [Text.join_singleton]
    | cons second more =>
      have bar : Crosses '>' Nesting.leftward ⟨1, false⟩ ['|'] ⟨1, false⟩ :=
        .cons (by decide) (.nil _)
      rw [Text.join_cons_cons, List.reverse_append, List.reverse_append]
      exact ((ih others).append bar).append own

theorem isLevel_display {s : Selector} (h : s.IsWritable) : IsLevel s.display := by
  have name : Crosses '>' Nesting.leftward .outside s.name.reverse .outside := by
    refine crosses_of_still fun c hc => ?_
    have plain := (h.name c (List.mem_reverse.mp hc)).2
    simp only [nameEnds, List.mem_cons, List.not_mem_nil, not_or] at plain
    exact ⟨fun ⟨angle, _⟩ => plain.2.2.1 angle, by simp [Nesting.leftward, plain, Nesting.outside]⟩
  by_cases none : s.attributes = []
  · rw [IsLevel, display_of_no_attributes none]
    exact name
  · -- From the right: the closing parenthesis, the predicates at depth one, the opening, the name.
    have inner : Crosses '>' Nesting.leftward ⟨1, false⟩
        (Text.join "|" (s.attributes.map written)).reverse ⟨1, false⟩ := by
      refine crosses_reverse_join (List.forall_mem_map.mpr fun p hp => ?_)
      exact crosses_reverse_written (fun c hc => (h.key p hp c hc).2)
        fun c hc => (h.value p hp c hc).2
    have closing : Crosses '>' Nesting.leftward .outside [')'] ⟨1, false⟩ :=
      .cons (by decide) (.nil _)
    have opening : Crosses '>' Nesting.leftward ⟨1, false⟩ ['('] .outside :=
      .cons (by decide) (.nil _)
    have reversed : s.display.reverse = [')'] ++ ((Text.join "|" (s.attributes.map written)).reverse
        ++ (['('] ++ s.name.reverse)) := by
      rw [display_of_attributes none]
      simp
    rw [IsLevel, reversed]
    exact closing.append (inner.append (opening.append name))

end Crossings

theorem readPredicate_written {p : Text × Text} (keyed : p.1 ≠ []) (key : '=' ∉ p.1)
    (piece : Text) : readPredicate piece (written p) = .ok p := by
  have equals : ∀ c ∈ p.1, decide (c = '=') = false :=
    fun c hc => decide_eq_false fun same => key (same ▸ hc)
  have first := Text.splitFirst?_append (p := (· = '=')) (c := '=') rfl equals
    ('"' :: (p.2 ++ ['"']))
  have quote : Text.splitFirst? (· = '"') ('"' :: (p.2 ++ ['"'])) = some ([], p.2 ++ ['"']) := rfl
  have last : Text.splitLast? (· = '"') (p.2 ++ ['"']) = some (p.2, []) :=
    Text.splitLast?_append_singleton rfl p.2
  rw [readPredicate, written_eq, first]
  simp only [List.isEmpty_iff, keyed, if_false, quote, Option.bind_some, last]

theorem insertNew_of_above {key value : Text} {pairs : List (Text × Text)}
    (above : ∀ p ∈ pairs, p.1.precedes key = true) :
    insertNew key value pairs = pairs ++ [(key, value)] := by
  induction pairs with
  | nil => rfl
  | cons p rest ih =>
    obtain ⟨own, others⟩ := List.forall_mem_cons.mp above
    have behind : ¬ key.precedes p.1 = true := fun before =>
      Bool.false_ne_true ((Text.precedes_irrefl key).symm.trans (Text.precedes_trans before own))
    have apart : key ≠ p.1 := by
      rintro same
      rw [same, Text.precedes_irrefl] at own
      cases own
    rw [insertNew, if_neg behind, if_neg apart, ih others]
    rfl

theorem addPredicates_written {piece : Text} {todo : List (Text × Text)}
    (keyed : ∀ p ∈ todo, p.1 ≠ []) (key : ∀ p ∈ todo, '=' ∉ p.1) {s : Selector}
    (ascending : Ascending (s.attributes ++ todo)) :
    addPredicates piece (todo.map written) s = .ok ⟨s.name, s.attributes ++ todo, ascending⟩ := by
  -- The keys ascend, so each is new and goes behind all that were added before it.
  induction todo generalizing s with
  | nil =>
    rw [List.map_nil, addPredicates]
    simp only [List.append_nil]
  | cons p rest ih =>
    obtain ⟨ownKeyed, othersKeyed⟩ := List.forall_mem_cons.mp keyed
    obtain ⟨ownKey, othersKey⟩ := List.forall_mem_cons.mp key
    have above : ∀ q ∈ s.attributes, q.1.precedes p.1 = true := fun q hq =>
      (List.pairwise_append.mp ascending).2.2 q hq p List.mem_cons_self
    have added : (s.withAttribute p.1 p.2).attributes = s.attributes ++ [p] :=
      insertNew_of_above above
    have whole : s.attributes ++ p :: rest = (s.withAttribute p.1 p.2).attributes ++ rest := by
      rw [added, List.append_assoc, List.singleton_append]
    rw [List.map_cons, addPredicates, readPredicate_written ownKeyed ownKey]
    have next := ih othersKeyed othersKey (s := s.withAttribute p.1 p.2) (whole ▸ ascending)
    simp only [bind, Except.bind, next, whole]
    rfl

/-- The written predicates, if there are any, are split where they were joined. -/
def IsLegible (s : Selector) : Prop := s.attributes ≠ [] →
  predicates (Text.join "|" (s.attributes.map written)) = s.attributes.map written

theorem IsWritable.isLegible {s : Selector} (h : s.IsWritable) : s.IsLegible := by
  intro some
  refine predicates_join (List.forall_mem_map.mpr fun p hp => ?_) (by simpa using some)
  exact isPredicate_written (fun c hc => (h.key p hp c hc).2) fun c hc => (h.value p hp c hc).2

theorem readLevel_display {s : Selector} (h : s.IsFormed) (closed : ')' ∉ s.name)
    (legible : s.IsLegible) : readLevel s.display = .ok s := by
  have filledName : s.name.isEmpty = false := by simpa using h.named
  have noOpening : ∀ c ∈ s.name, decide (c = '(') = false :=
    fun c hc => decide_eq_false (h.name c hc).2
  by_cases none : s.attributes = []
  · have opened := Text.splitFirst?_eq_none noOpening
    have alone : s = Selector.named s.name := by
      cases s
      cases none
      rfl
    rw [display_of_no_attributes none, readLevel, splitLevel, opened]
    simp only [closed, if_false, bind, Except.bind, filledName, Bool.false_eq_true]
    rw [← alone]
  · have opened := Text.splitFirst?_append (p := (· = '(')) (c := '(') rfl noOpening
      (Text.join "|" (s.attributes.map written) ++ [')'])
    have closed : Text.before? ")" (Text.join "|" (s.attributes.map written) ++ [')']) =
        some (Text.join "|" (s.attributes.map written)) := Text.before?_eq_some.mpr rfl
    have some : s.attributes.map written ≠ [] := by simpa using none
    have filled : (Text.join "|" (s.attributes.map written)).isEmpty = false := by
      refine List.isEmpty_eq_false_iff.mpr (Text.join_ne_nil _ some ?_)
      exact List.forall_mem_map.mpr fun p _ => by simp [written_eq]
    have added : addPredicates s.display (s.attributes.map written) (Selector.named s.name) =
        .ok s := by
      have ascending : Ascending ((Selector.named s.name).attributes ++ s.attributes) := s.ascending
      exact addPredicates_written h.keyed (fun p hp mem => (h.key p hp _ mem).2 rfl) ascending
    rw [display_of_attributes none] at added ⊢
    rw [readLevel, splitLevel, opened]
    simp only [closed, bind, Except.bind, filledName, Bool.false_eq_true, if_false, filled,
      legible none]
    exact added

theorem readLevels_displays {todo : List Selector} (each : ∀ s ∈ todo, readLevel s.display = .ok s)
    (read : List Selector) :
    readLevels (todo.map display) read = ⟨todo.reverse ++ read, none⟩ := by
  induction todo generalizing read with
  | nil => rfl
  | cons s rest ih =>
    obtain ⟨own, others⟩ := List.forall_mem_cons.mp each
    rw [List.map_cons, readLevels, own]
    simp only [ih others, List.reverse_cons, List.append_assoc, List.singleton_append]

theorem display_ne_nil {s : Selector} (h : s.IsFormed) : s.display ≠ [] := by
  by_cases none : s.attributes = []
  · rw [display_of_no_attributes none]
    exact h.named
  · simp [display_of_attributes none]

theorem not_isBlank_of_mem_display {s : Selector} (h : s.IsFormed) :
    ∀ c ∈ s.display, Text.isBlank c = false := by
  have name : ∀ c ∈ s.name, Text.isBlank c = false := fun c hc => (h.name c hc).1
  by_cases none : s.attributes = []
  · rwa [display_of_no_attributes none]
  · have bar : ∀ c ∈ ['|'], Text.isBlank c = false := List.forall_mem_singleton.mpr rfl
    have each : ∀ t ∈ s.attributes.map written, ∀ c ∈ t, Text.isBlank c = false := by
      refine List.forall_mem_map.mpr fun p hp => ?_
      rw [written_eq, List.forall_mem_append, List.forall_mem_cons, List.forall_mem_cons,
        List.forall_mem_append, List.forall_mem_singleton]
      exact ⟨fun c hc => (h.key p hp c hc).1, rfl, rfl, h.value p hp, rfl⟩
    rw [display_of_attributes none, List.forall_mem_append, List.forall_mem_cons,
      List.forall_mem_append, List.forall_mem_singleton]
    exact ⟨name, rfl, Text.forall_mem_join bar each, rfl⟩

theorem readPartial_enclosed {t : Text} (solid : ∀ c ∈ t, Text.isBlank c = false) :
    readPartial (keyword ++ "(" ++ t ++ ")") = .ok (readParameters t) := by
  have command : Text.after? keyword (keyword ++ "(" ++ t ++ ")") = some ('(' :: (t ++ [')'])) :=
    Text.after?_eq_some.mpr (by simp)
  have kept : Text.dropBlanks ('(' :: (t ++ [')'])) = '(' :: (t ++ [')']) := by
    have all : ∀ c ∈ '(' :: (t ++ [')']), Text.isBlank c = false := by
      rw [List.forall_mem_cons, List.forall_mem_append, List.forall_mem_singleton]
      exact ⟨rfl, solid, rfl⟩
    refine List.filter_eq_self.mpr fun c hc => ?_
    rw [all c hc]
    rfl
  have opened : Text.after? "(" ('(' :: (t ++ [')'])) = some (t ++ [')']) :=
    Text.after?_eq_some.mpr rfl
  have closed : Text.before? ")" (t ++ [')']) = some t := Text.before?_eq_some.mpr rfl
  rw [readPartial, command]
  simp only [kept, withoutParens, opened, Option.bind_some, closed, Option.getD_some]

namespace Chain

variable {c : Chain}

theorem solid_display (formed : ∀ s ∈ c.toList, s.IsFormed) :
    ∀ d ∈ c.display, Text.isBlank d = false := by
  have angle : ∀ d ∈ ['>'], Text.isBlank d = false := List.forall_mem_singleton.mpr rfl
  exact Text.forall_mem_join angle
    (List.forall_mem_map.mpr fun s hs => not_isBlank_of_mem_display (formed s hs))

theorem display_ne_nil (formed : ∀ s ∈ c.toList, s.IsFormed) : c.display ≠ [] := by
  refine Text.join_ne_nil _ (by simp [toList]) ?_
  exact List.forall_mem_map.mpr fun s hs => Selector.display_ne_nil (formed s hs)

/-- Both splitters take the written form apart where it was put together. -/
structure IsLegible (c : Chain) : Prop where
  levels : levels c.display = (c.toList.map Selector.display).reverse
  each : ∀ s ∈ c.toList, s.IsLegible

theorem isLegible_of_writable (writable : ∀ s ∈ c.toList, s.IsWritable) : c.IsLegible where
  levels := levels_join (List.forall_mem_map.mpr fun s hs => isLevel_display (writable s hs))
    (by simp [toList])
  each s hs := (writable s hs).isLegible

theorem readPartial_display (formed : ∀ s ∈ c.toList, s.IsFormed)
    (closed : ∀ s ∈ c.toList, ')' ∉ s.name) (legible : c.IsLegible) :
    readPartial (keyword ++ "(" ++ c.display ++ ")") = .ok ⟨c.toList, none⟩ := by
  have filled : c.display.isEmpty = false := List.isEmpty_eq_false_iff.mpr (display_ne_nil formed)
  have each (s : Selector) (hs : s ∈ c.toList) : readLevel s.display = .ok s :=
    readLevel_display (formed s hs) (closed s hs) (legible.each s hs)
  rw [readPartial_enclosed (solid_display formed), readParameters, filled,
    if_neg Bool.false_ne_true, legible.levels, ← List.map_reverse,
    readLevels_displays fun s hs => each s (List.mem_reverse.mp hs), List.reverse_reverse,
    List.append_nil]

/-- A chain whose names, attribute names and values keep to their characters is read back from its
written form. The strict policy refuses it only when it begins at neither head nor body. -/
theorem read_display (c : Chain) (writable : ∀ s ∈ c.toList, s.IsWritable) :
    Chain.read (keyword ++ "(" ++ c.display ++ ")") .lenient = .ok c ∧
    Chain.read (keyword ++ "(" ++ c.display ++ ")") .strict =
      if c.first.name = "head" ∨ c.first.name = "body" then .ok c
      else .error (.invalidAnchor c.first.name) := by
  have closed : ∀ s ∈ c.toList, ')' ∉ s.name := fun s hs mem =>
    ((writable s hs).name _ mem).2 (by decide)
  rw [Chain.read, Chain.read, readPartial_display (fun s hs => (writable s hs).isFormed) closed
    (isLegible_of_writable writable)]
  exact ⟨rfl, rfl⟩

/-- Below the body, an element whose attribute values hold every delimiter but the quote. -/
def delimited : Chain :=
  ⟨named "body", [⟨"a", [("href", "?p=(1)|q>2"), ("title", ")>(")], by decide⟩]⟩

theorem read_display_delimiters :
    delimited.display = "body>a(href=\"?p=(1)|q>2\"|title=\")>(\")".toList ∧
    Chain.read (keyword ++ "(" ++ delimited.display ++ ")") .lenient = .ok delimited ∧
    Chain.read (keyword ++ "(" ++ delimited.display ++ ")") .strict = .ok delimited := by
  have body : (named "body").IsWritable :=
    ⟨by simp [named], by simp [named, nameEnds, Text.isBlank], by simp [named],
      by simp [named], by simp [named]⟩
  have link : IsWritable ⟨"a", [("href", "?p=(1)|q>2"), ("title", ")>(")], by decide⟩ :=
    ⟨by simp, by simp [nameEnds, Text.isBlank], by simp,
      by simp [keyEnds, Text.isBlank], by simp [Text.isBlank]⟩
  have both : ∀ s ∈ delimited.toList, s.IsWritable := by
    rintro s (_ | ⟨_, _ | ⟨_, ⟨⟩⟩⟩)
    · exact body
    · exact link
  exact ⟨rfl, read_display delimited both⟩

end Chain

end Selector
end MarkupGrader
