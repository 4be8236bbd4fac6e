import MarkupGrader.Text.Basic

/-! A selector asks for an element by its tag name and by values that some of its attributes must
have. A chain of selectors reads from the document's head or body down to the element asked for,
one level for each selector; it is never empty. -/

namespace MarkupGrader

abbrev Ascending (pairs : List (Text × Text)) : Prop :=
  pairs.Pairwise fun p q => p.1.precedes q.1 = true

/-- Adds a pair in the order of the keys. A key that is present keeps its value. -/
def insertNew (key value : Text) : List (Text × Text) → List (Text × Text)
  | [] => [(key, value)]
  | (k, v) :: rest =>
    if key.precedes k then (key, value) :: (k, v) :: rest
    else if key = k then (k, v) :: rest
    else (k, v) :: insertNew key value rest

theorem mem_insertNew {key value : Text} {pairs : List (Text × Text)} {p : Text × Text}
    (h : p ∈ insertNew key value pairs) : p = (key, value) ∨ p ∈ pairs := by
  induction pairs with
  | nil => simpa [insertNew] using h
  | cons q rest ih =>
    unfold insertNew at h
    split at h
    · simpa using h
    · split at h
      · exact .inr h
      · rcases List.mem_cons.mp h with rfl | h
        · exact .inr (List.mem_cons_self ..)
        · exact (ih h).imp_right (List.mem_cons_of_mem _)

theorem ascending_insertNew {key value : Text} {pairs : List (Text × Text)}
    (h : Ascending pairs) : Ascending (insertNew key value pairs) := by
  induction pairs with
  | nil => simp [insertNew, Ascending]
  | cons q rest ih =>
    obtain ⟨below, tail⟩ := List.pairwise_cons.mp h
    unfold insertNew
    split
    · next lt =>
      refine List.pairwise_cons.mpr ⟨fun p hp => ?_, h⟩
      rcases List.mem_cons.mp hp with rfl | hp
      · exact lt
      · exact Text.precedes_trans lt (below p hp)
    · next nlt =>
      split
      · exact h
      · next ne =>
        refine List.pairwise_cons.mpr ⟨fun p hp => ?_, ih tail⟩
        rcases mem_insertNew hp with rfl | hp
        · exact Text.precedes_of_not_precedes (by simpa using nlt) ne
        · exact below p hp

/-- A tag name and the attribute values an element must carry, sorted by attribute name. -/
structure Selector where
  name : Text
  attributes : List (Text × Text)
  ascending : Ascending attributes
  deriving DecidableEq

namespace Selector

def named (name : Text) : Selector := ⟨name, [], .nil⟩

/-- Asks for one more attribute value; the first value asked for under a name is kept. -/
def withAttribute (s : Selector) (key value : Text) : Selector :=
  ⟨s.name, insertNew key value s.attributes, ascending_insertNew s.ascending⟩

def display (s : Selector) : Text :=
  if s.attributes.isEmpty then s.name
  else
    s.name ++ "(" ++
      Text.join "|" (s.attributes.map fun (key, value) => key ++ "=\"" ++ value ++ "\"") ++ ")"

inductive Policy
  | strict
  | lenient
  deriving DecidableEq, Repr

inductive Failure
  | missingKeyword (command : Text)
  | emptyChain
  | missingName (piece : Text)
  | unbalancedParens (piece : Text)
  | missingEquals (piece predicate : Text)
  | unquotedValue (piece predicate : Text)
  | missingAttributeName (piece predicate : Text)
  | invalidAnchor (name : Text)
  deriving DecidableEq

def Failure.message : Failure → Text
  | missingKeyword command =>
    "command does not start with the `contains` keyword: " ++ command
  | emptyChain => "selector chain is empty"
  | missingName piece => "selector `" ++ piece ++ "` has no element name"
  | unbalancedParens piece => "selector `" ++ piece ++ "` has an unbalanced attribute list"
  | missingEquals piece predicate =>
    "attribute predicate `" ++ predicate ++ "` in `" ++ piece ++ "` has no `=`"
  | unquotedValue piece predicate =>
    "attribute predicate `" ++ predicate ++ "` in `" ++ piece ++ "` is not a quoted value"
  | missingAttributeName piece predicate =>
    "attribute predicate `" ++ predicate ++ "` in `" ++ piece ++ "` has no attribute name"
  | invalidAnchor name => "chain must start at `head` or `body`, found `" ++ name ++ "`"

structure Chain where
  first : Selector
  rest : List Selector
  deriving DecidableEq

namespace Chain

def toList (c : Chain) : List Selector := c.first :: c.rest

def ofList : List Selector → Except Failure Chain
  | [] => .error .emptyChain
  | first :: rest => .ok ⟨first, rest⟩

theorem toList_of_ofList {selectors : List Selector} {c : Chain}
    (h : ofList selectors = .ok c) : c.toList = selectors := by
  cases selectors with
  | nil => simp [ofList] at h
  | cons first rest => simp only [ofList, Except.ok.injEq] at h; simp [← h, toList]

def length (c : Chain) : Nat := c.toList.length

def startsAtHead (c : Chain) : Bool := c.first.name == "head"

def display (c : Chain) : Text := Text.join ">" (c.toList.map Selector.display)

end Chain
end Selector
end MarkupGrader
