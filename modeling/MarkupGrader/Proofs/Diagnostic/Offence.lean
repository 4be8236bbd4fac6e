import MarkupGrader.Proofs.Diagnostic.Account

/-! What a syntax tree is blamed for, and where. An offence is a flaw of a node that can be come to
from the root without going through an error node, and every offence is told of once. -/

namespace MarkupGrader

namespace Markup.Node

/-- The second node stands at the place below the first, and no error node is on the way to it. A
place says which child to go down to at each step. -/
inductive Reaches : Node → List Nat → Node → Prop
  | here (n : Node) : Reaches n [] n
  | down {n c m : Node} {i : Nat} {place : List Nat} (understood : n.kind ≠ .error)
      (child : n.children[i]? = some c) (rest : Reaches c place m) : Reaches n (i :: place) m

theorem reaches_iff_of_end {n m : Node} {place : List Nat}
    (ends : n.kind = .error ∨ n.children = []) : n.Reaches place m ↔ place = [] ∧ m = n := by
  constructor
  · rintro (_ | ⟨understood, child, -⟩)
    · exact ⟨rfl, rfl⟩
    · rcases ends with error | childless
      · exact absurd error understood
      · rw [childless] at child
        cases child
  · rintro ⟨rfl, rfl⟩
    exact .here m

theorem reaches_iff {n m : Node} {place : List Nat} (understood : n.kind ≠ .error) :
    n.Reaches place m ↔ (place = [] ∧ m = n) ∨
      ∃ i c rest, n.children[i]? = some c ∧ place = i :: rest ∧ c.Reaches rest m := by
  constructor
  · rintro (_ | ⟨-, child, rest⟩)
    · exact .inl ⟨rfl, rfl⟩
    · exact .inr ⟨_, _, _, child, rfl, rest⟩
  · rintro (⟨rfl, rfl⟩ | ⟨i, c, rest, child, rfl, reaches⟩)
    · exact .here m
    · exact .down understood child reaches

theorem forall_reaches_iff {n : Node} {P : Node → Prop} :
    (∀ place m, n.Reaches place m → P m) ↔
      P n ∧ (n.kind ≠ .error → ∀ c ∈ n.children, ∀ place m, c.Reaches place m → P m) := by
  constructor
  · intro all
    refine ⟨all [] n (.here n), fun understood c hc place m reaches => ?_⟩
    obtain ⟨i, lt, rfl⟩ := List.getElem_of_mem hc
    exact all (i :: place) m (.down understood (List.getElem?_eq_getElem lt) reaches)
  · rintro ⟨own, below⟩ place m (_ | ⟨understood, child, rest⟩)
    · exact own
    · exact below understood _ (List.mem_of_getElem? child) _ m rest

mutual

theorem forall_of_children {P : Node → Prop} (step : ∀ n, (∀ c ∈ n.children, P c) → P n) :
    ∀ n, P n
  | .node _ _ _ children => step _ (forall_mem_of_children step children)

theorem forall_mem_of_children {P : Node → Prop} (step : ∀ n, (∀ c ∈ n.children, P c) → P n) :
    ∀ ns : List Node, ∀ n ∈ ns, P n
  | [] => fun _ h => (List.not_mem_nil h).elim
  | n :: rest =>
    List.forall_mem_cons.mpr ⟨forall_of_children step n, forall_mem_of_children step rest⟩

end

def opens (n : Node) : Bool := n.kind == .startTag || n.kind == .selfClosingTag

/-- An element has one tag at most, an attribute one name, and what is missing has no parts. -/
structure Orderly (n : Node) : Prop where
  tags : n.kind.isElement = true → (n.children.filter opens).length ≤ 1
  names : n.kind = .attribute → (n.children.filter (·.kind == .attributeName)).length ≤ 1
  parts : n.missing = true → n.children = []

instance (n : Node) : Decidable n.Orderly :=
  decidable_of_iff
    ((n.kind.isElement = true → (n.children.filter opens).length ≤ 1) ∧
      (n.kind = .attribute → (n.children.filter (·.kind == .attributeName)).length ≤ 1) ∧
      (n.missing = true → n.children = []))
    ⟨fun ⟨tags, names, parts⟩ => ⟨tags, names, parts⟩,
      fun orderly => ⟨orderly.tags, orderly.names, orderly.parts⟩⟩

def HasName (source : Text) (a : Node) (name : Text) : Prop :=
  a.kind = .attribute ∧ ∃ c ∈ a.children, c.kind = .attributeName ∧ (c.text source).lower = name

/-- The name of an element in lower case, by the parts of its tag. -/
def tagName (source : Text) (parts : List Node) : Text :=
  ((parts.filter (·.kind == .tagName)).getLast?.map fun n => (n.text source).lower).getD []

end Markup.Node

namespace Diagnostic

open Markup (Node Kind)

inductive Flaw
  /-- The document does not say that it is one. -/
  | noDoctype
  /-- The node should not be there, or it should and is not. -/
  | wrong (n : Node)
  /-- The attribute at the index in the tag has the name of an earlier one. -/
  | repeated (tag : Node) (index : Nat) (a : Node) (name : Text)
  /-- The element that begins with the tag does not end. -/
  | unclosed (tag : Node)

namespace Flaw

def diagnostic (source : Text) : Flaw → Diagnostic
  | noDoctype => ⟨1, 1, .warning, "missing <!DOCTYPE> declaration"⟩
  | wrong n =>
    if n.kind = .error then
      of source n .error ("unexpected markup \"" ++ excerpt (n.text source) ++ "\"")
    else if n.missing then of source n .error ("missing " ++ n.kind.words)
    else
      let name := ((n.child? .erroneousEndTagName).map fun c => (c.text source).lower).getD []
      of source n .warning ("discarding unexpected </" ++ name ++ ">")
  | repeated tag index a name =>
    of source a .warning
      ("<" ++ Node.tagName source (tag.children.take index) ++ "> dropping value \"" ++
        writtenValue (a.text source) ++ "\" for repeated attribute \"" ++ name ++ "\"")
  | unclosed tag =>
    of source tag .warning ("missing </" ++ Node.tagName source tag.children ++ ">")

def turn : Flaw → Nat
  | noDoctype => 0
  | wrong _ => 1
  | repeated _ index _ _ => index + 1
  | unclosed tag => tag.children.length + 1

end Flaw

/-- The attribute at the index among the parts of a tag has the name of an earlier one. -/
structure Repeats (source : Text) (parts : List Node) (index : Nat) (a : Node) (name : Text) :
    Prop where
  part : parts[index]? = some a
  named : a.HasName source name
  earlier : ∃ b ∈ parts.take index, b.HasName source name

/-- The flaws of a node. A node is wrong once, for whatever reason. -/
inductive HasFlaw (source : Text) (n : Node) : Flaw → Prop
  | unexpected (error : n.kind = .error) : HasFlaw source n (.wrong n)
  | absent (missing : n.missing = true) (kind : n.kind ≠ .endTag) : HasFlaw source n (.wrong n)
  | discarded (kind : n.kind = .erroneousEndTag) : HasFlaw source n (.wrong n)
  | repeated {tag a : Node} {index : Nat} {name : Text} (element : n.kind.isElement = true)
      (mem : tag ∈ n.children) (opens : tag.opens = true)
      (repeats : Repeats source tag.children index a name) :
      HasFlaw source n (.repeated tag index a name)
  | unclosed {tag : Node} (element : n.kind.isElement = true) (mem : tag ∈ n.children)
      (starts : tag.kind = .startTag)
      (endless : ∀ c ∈ n.children, c.kind = .endTag → c.missing = true)
      (filled : ElementClass.isVoid (Node.tagName source tag.children) = false)
      (due : ElementClass.hasOptionalEnd (Node.tagName source tag.children) = false) :
      HasFlaw source n (.unclosed tag)

/-- A flaw and the place of the node that has it. -/
structure Offence where
  place : List Nat
  flaw : Flaw

namespace Offence

def diagnostic (source : Text) (o : Offence) : Diagnostic := o.flaw.diagnostic source

/-- The walk comes to a node before it comes to those below it, and from left to right. -/
def Before (o p : Offence) : Prop :=
  o.place < p.place ∨ o.place = p.place ∧ o.flaw.turn < p.flaw.turn

/-- Seen from the parent of the node that the place began at. -/
def below (i : Nat) (o : Offence) : Offence := ⟨i :: o.place, o.flaw⟩

theorem before_below {i : Nat} {o p : Offence} (h : o.Before p) : (o.below i).Before (p.below i) := by
  simpa [Before, below, List.cons_lt_cons_iff] using h

theorem before_of_lt {o p : Offence} {i j : Nat} {place rest : List Nat} (ho : o.place = i :: place)
    (hp : p.place = j :: rest) (lt : i < j) : o.Before p := by
  refine .inl ?_
  rw [ho, hp, List.cons_lt_cons_iff]
  exact .inl lt

theorem before_of_nil {o p : Offence} {i : Nat} {rest : List Nat} (ho : o.place = [])
    (hp : p.place = i :: rest) : o.Before p := by
  refine .inl ?_
  rw [ho, hp]
  exact List.nil_lt_cons i rest

end Offence

/-- The offence is one of the node or of what is reached from it. -/
def Offends (source : Text) (n : Node) (o : Offence) : Prop :=
  ∃ m, n.Reaches o.place m ∧ HasFlaw source m o.flaw

/-- Everything that a document is blamed for. -/
def Blamed (source : Text) (root : Node) (requireDoctype : Bool) (o : Offence) : Prop :=
  (o = ⟨[], .noDoctype⟩ ∧ requireDoctype = true ∧ ∀ c ∈ root.children, c.kind ≠ .doctype) ∨
    Offends source root o

/-- Offences are listed by line and column, and those of one position in the order of the walk. -/
def Offence.ListedBefore (source : Text) (o p : Offence) : Prop :=
  let d := o.diagnostic source
  let e := p.diagnostic source
  d.line < e.line ∨ d.line = e.line ∧
    (d.column < e.column ∨ d.column = e.column ∧ o.Before p)

theorem Offence.not_before_self (o : Offence) : ¬ o.Before o := by
  rintro (place | ⟨-, turn⟩)
  · exact lt_irrefl _ place
  · exact Nat.lt_irrefl _ turn

theorem Offence.ne_of_listedBefore {source : Text} {o p : Offence} (h : o.ListedBefore source p) :
    o ≠ p := by
  rintro rfl
  rcases h with line | ⟨-, column | ⟨-, before⟩⟩
  · exact Nat.lt_irrefl _ line
  · exact Nat.lt_irrefl _ column
  · exact o.not_before_self before

theorem HasFlaw.turn_pos {source : Text} {n : Node} {f : Flaw} (h : HasFlaw source n f) :
    0 < f.turn := by
  cases h <;> exact Nat.succ_pos _

end Diagnostic
end MarkupGrader
