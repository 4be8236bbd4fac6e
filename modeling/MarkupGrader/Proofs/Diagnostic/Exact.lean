import MarkupGrader.Proofs.Diagnostic.Offence

/-! The diagnostics of a syntax tree are exactly those of its offences. What is said of one element
is compared with its flaws first, then what is said of a node, and the whole tree follows by
induction on it. -/

namespace MarkupGrader

section List

variable {α : Type} {l : List α} {a : α}

theorem head?_eq_some_iff_mem (one : l.length ≤ 1) : l.head? = some a ↔ a ∈ l := by
  match l, one with
  | [], _ => simp
  | [b], _ => simp [eq_comm]

end List

namespace Markup.Node

variable {source name : Text} {a : Node}

theorem child?_attributeName (a : Node) :
    a.child? .attributeName = (a.children.filter (·.kind == .attributeName)).head? := by
  have named (n : Node) : decide (n.kind.isNamed = true ∧ (n.kind == .attributeName) = true) =
      (n.kind == .attributeName) := by
    cases n.kind <;> rfl
  rw [child?, namedChildren, List.find?_filter, List.head?_filter]
  simp only [named]

def attributeName? (source : Text) (a : Node) : Option Text :=
  if a.kind = .attribute then (a.child? .attributeName).map fun n => (n.text source).lower
  else none

theorem hasName_iff (orderly : a.Orderly) :
    a.HasName source name ↔ a.attributeName? source = some name := by
  by_cases kind : a.kind = .attribute
  · simp only [HasName, attributeName?, kind, true_and, if_true, child?_attributeName,
      Option.map_eq_some_iff, head?_eq_some_iff_mem (orderly.names kind), List.mem_filter,
      beq_iff_eq, and_assoc]
  · simp only [HasName, attributeName?, kind, false_and, if_false, reduceCtorEq]

theorem hasName_unique (orderly : a.Orderly) {other : Text} (h : a.HasName source name)
    (k : a.HasName source other) : other = name := by
  rw [hasName_iff orderly] at h k
  exact Option.some.inj (k.symm.trans h)

theorem tagName_append_singleton (parts : List Node) (n : Node) :
    tagName source (parts ++ [n]) =
      if n.kind = .tagName then (n.text source).lower else tagName source parts := by
  by_cases kind : n.kind = .tagName <;> simp [tagName, kind]

end Markup.Node

namespace Diagnostic

open Markup (Node Kind)

variable {source : Text}

section Tag

variable {tag : Node} {k : Nat}

def RepeatsFrom (source : Text) (tag : Node) (k : Nat) (f : Flaw) : Prop :=
  ∃ j a name, k ≤ j ∧ Repeats source tag.children j a name ∧ f = .repeated tag j a name

theorem repeatsFrom_of_not (new : ∀ a name, ¬ Repeats source tag.children k a name) (f : Flaw) :
    RepeatsFrom source tag k f ↔ RepeatsFrom source tag (k + 1) f := by
  constructor
  · rintro ⟨j, a, name, le, repeats, rfl⟩
    rcases Nat.eq_or_lt_of_le le with rfl | lt
    · exact absurd repeats (new a name)
    · exact ⟨j, a, name, lt, repeats, rfl⟩
  · rintro ⟨j, a, name, le, repeats, rfl⟩
    exact ⟨j, a, name, Nat.le_of_succ_le le, repeats, rfl⟩

theorem repeatsFrom_of_repeats {a : Node} {name : Text} (orderly : a.Orderly)
    (again : Repeats source tag.children k a name) (f : Flaw) :
    RepeatsFrom source tag k f ↔ f = .repeated tag k a name ∨ RepeatsFrom source tag (k + 1) f := by
  constructor
  · rintro ⟨j, b, other, le, repeats, rfl⟩
    rcases Nat.eq_or_lt_of_le le with rfl | lt
    · obtain rfl : a = b := Option.some.inj (again.part.symm.trans repeats.part)
      rw [Node.hasName_unique orderly again.named repeats.named]
      exact .inl rfl
    · exact .inr ⟨j, b, other, lt, repeats, rfl⟩
  · rintro (rfl | ⟨j, b, other, le, repeats, rfl⟩)
    · exact ⟨k, a, name, Nat.le_refl k, again, rfl⟩
    · exact ⟨j, b, other, Nat.le_of_succ_le le, repeats, rfl⟩

/-- What is said of a tag from some index on: its name at last, and the attributes it repeats. -/
structure SaysOf (source : Text) (tag : Node) (k : Nat) (said : List Diagnostic × Text) : Prop where
  name : said.2 = Node.tagName source tag.children
  repeats : Accounts (Flaw.diagnostic source) (fun f g => f.turn < g.turn)
    (RepeatsFrom source tag k) said.1

theorem SaysOf.skip {said : List Diagnostic × Text} (h : SaysOf source tag (k + 1) said)
    (new : ∀ a name, ¬ Repeats source tag.children k a name) : SaysOf source tag k said :=
  ⟨h.name, h.repeats.congr (repeatsFrom_of_not new)⟩

theorem SaysOf.cons {said : List Diagnostic × Text} {a : Node} {name : Text}
    (h : SaysOf source tag (k + 1) said) (orderly : a.Orderly)
    (again : Repeats source tag.children k a name) :
    SaysOf source tag k (Flaw.diagnostic source (.repeated tag k a name) :: said.1, said.2) := by
  refine ⟨h.name, (Accounts.single fun f => Iff.rfl).append h.repeats ?_
    (repeatsFrom_of_repeats orderly again)⟩
  rintro f g rfl ⟨j, b, other, le, -, rfl⟩
  exact Nat.succ_lt_succ le

theorem ofTag_cons_of_unnamed {part : Node} (unnamed : part.attributeName? source = none)
    (front rest : List Node) (seen : List Text) :
    ofTag source (Node.tagName source front) seen (part :: rest) =
      ofTag source (Node.tagName source (front ++ [part])) seen rest := by
  rw [ofTag, Node.tagName_append_singleton]
  by_cases isTagName : part.kind = .tagName
  · rw [if_pos isTagName, if_pos isTagName]
  · rw [if_neg isTagName, if_neg isTagName]
    by_cases isAttribute : part.kind = .attribute
    · rw [Node.attributeName?, if_pos isAttribute] at unnamed
      rw [if_pos isAttribute, unnamed]
    · rw [if_neg isAttribute]

theorem ofTag_cons_of_named {part : Node} {name : Text}
    (named : part.attributeName? source = some name) (front rest : List Node) (seen : List Text) :
    ofTag source (Node.tagName source front) seen (part :: rest) =
      let later := ofTag source (Node.tagName source (front ++ [part])) (name :: seen) rest
      (ofAttribute source (Node.tagName source front) name seen part ++ later.1, later.2) := by
  by_cases isAttribute : part.kind = .attribute
  · have other : part.kind ≠ .tagName := by
      rw [isAttribute]
      decide
    rw [Node.attributeName?, if_pos isAttribute] at named
    rw [ofTag, Node.tagName_append_singleton, if_neg other, if_neg other, if_pos isAttribute, named]
  · rw [Node.attributeName?, if_neg isAttribute] at named
    cases named

theorem saysOf_ofTag {front back : List Node} {seen : List Text}
    (parts : tag.children = front ++ back) (orderly : ∀ a ∈ back, a.Orderly)
    (known : ∀ name, seen.contains name = true ↔ ∃ b ∈ front, b.HasName source name) :
    SaysOf source tag front.length (ofTag source (Node.tagName source front) seen back) := by
  -- Each step moves a part from `back` to `front`, and `seen` has the names of those in `front`.
  induction back generalizing front seen with
  | nil =>
    rw [List.append_nil] at parts
    refine ⟨by rw [parts]; rfl, .nil ?_⟩
    rintro f ⟨j, a, name, le, repeats, -⟩
    have lt := (List.getElem?_eq_some_iff.mp repeats.part).1
    rw [parts] at lt
    exact absurd lt (Nat.not_lt.mpr le)
  | cons part rest ih =>
    obtain ⟨own, others⟩ := List.forall_mem_cons.mp orderly
    have here : tag.children[front.length]? = some part := by rw [parts]; simp
    have before : tag.children.take front.length = front := by rw [parts]; simp
    have split : tag.children = (front ++ [part]) ++ rest := by rw [parts]; simp
    have length : (front ++ [part]).length = front.length + 1 := by simp
    have passed (name : Text) : (∃ b ∈ front ++ [part], b.HasName source name) ↔
        (∃ b ∈ front, b.HasName source name) ∨ part.attributeName? source = some name := by
      rw [← Node.hasName_iff own]
      simp [or_and_right, exists_or]
    have repeats_iff (a : Node) (name : Text) : Repeats source tag.children front.length a name ↔
        a = part ∧ part.attributeName? source = some name ∧ seen.contains name = true := by
      rw [known, ← Node.hasName_iff own]
      constructor
      · rintro ⟨there, named, earlier⟩
        obtain rfl : part = a := Option.some.inj (here.symm.trans there)
        exact ⟨rfl, named, before ▸ earlier⟩
      · rintro ⟨rfl, named, earlier⟩
        exact ⟨here, named, before.symm ▸ earlier⟩
    cases named : part.attributeName? source with
    | none =>
      simp only [named, reduceCtorEq, false_and, and_false, or_false] at passed repeats_iff
      have next := ih split others fun name => (known name).trans (passed name).symm
      rw [length] at next
      rw [ofTag_cons_of_unnamed named]
      exact next.skip fun a name => (repeats_iff a name).mp
    | some name =>
      simp only [named, Option.some.injEq] at passed repeats_iff
      have noted (other : Text) : (name :: seen).contains other = true ↔
          ∃ b ∈ front ++ [part], b.HasName source other := by
        rw [passed, List.contains_cons, Bool.or_eq_true, known other, or_comm, beq_iff_eq, eq_comm]
      have next := ih split others noted
      rw [length] at next
      rw [ofTag_cons_of_named named, ofAttribute]
      by_cases again : seen.contains name = true
      · have both := next.cons own ((repeats_iff part name).mpr ⟨rfl, rfl, again⟩)
        rw [Flaw.diagnostic, before] at both
        rw [if_pos again]
        exact both
      · rw [if_neg again]
        refine next.skip fun a other repeats => again ?_
        obtain ⟨-, rfl, earlier⟩ := (repeats_iff a other).mp repeats
        exact earlier

end Tag

section Element

variable {n tag : Node} {f : Flaw}

theorem opens_iff {c : Node} : c.opens = true ↔ c.kind = .startTag ∨ c.kind = .selfClosingTag := by
  simp [Node.opens]

theorem hasFlaw_iff_of_element (element : n.kind.isElement = true) (there : n.missing = false) :
    HasFlaw source n f ↔ ∃ tag, (tag ∈ n.children ∧ tag.opens = true) ∧
      (RepeatsFrom source tag 0 f ∨ f = .unclosed tag ∧ HasFlaw source n (.unclosed tag)) := by
  constructor
  · intro h
    cases h with
    | unexpected error =>
      rw [error] at element
      cases element
    | absent missing _ =>
      rw [missing] at there
      cases there
    | discarded kind =>
      rw [kind] at element
      cases element
    | repeated _ mem opens repeats =>
      exact ⟨_, ⟨mem, opens⟩, .inl ⟨_, _, _, Nat.zero_le _, repeats, rfl⟩⟩
    | unclosed _ mem starts endless filled due =>
      exact ⟨_, ⟨mem, opens_iff.mpr (.inl starts)⟩, .inr ⟨rfl, .unclosed element mem starts endless
        filled due⟩⟩
  · rintro ⟨tag, ⟨mem, opens⟩, ⟨j, a, name, -, repeats, rfl⟩ | ⟨rfl, h⟩⟩
    · exact .repeated element mem opens repeats
    · exact h

theorem hasFlaw_unclosed_iff (element : n.kind.isElement = true) (mem : tag ∈ n.children)
    (opens : tag.opens = true) :
    HasFlaw source n (.unclosed tag) ↔
      ([tag].any (·.kind == .selfClosingTag) ||
        n.children.any (fun p => p.kind == .endTag && !p.missing) ||
        ElementClass.isVoid (Node.tagName source tag.children) ||
        ElementClass.hasOptionalEnd (Node.tagName source tag.children)) = false := by
  have starts : [tag].any (·.kind == .selfClosingTag) = false ↔ tag.kind = .startTag := by
    rw [List.any_cons, List.any_nil, Bool.or_false, beq_eq_false_iff_ne]
    rcases opens_iff.mp opens with kind | kind <;> rw [kind] <;> decide
  have endless : n.children.any (fun p => p.kind == .endTag && !p.missing) = false ↔
      ∀ c ∈ n.children, c.kind = .endTag → c.missing = true := by
    simp
  rw [Bool.or_eq_false_iff, Bool.or_eq_false_iff, Bool.or_eq_false_iff, starts, endless]
  constructor
  · intro h
    cases h with
    | unclosed _ _ starts endless filled due => exact ⟨⟨⟨starts, endless⟩, filled⟩, due⟩
  · rintro ⟨⟨⟨starts, endless⟩, filled⟩, due⟩
    exact .unclosed element mem starts endless filled due

theorem accounts_ofElement (element : n.kind.isElement = true) (there : n.missing = false)
    (orderly : n.Orderly)
    (parts : ∀ tag ∈ n.children, tag.opens = true → ∀ a ∈ tag.children, a.Orderly) :
    Accounts (Flaw.diagnostic source) (fun f g => f.turn < g.turn) (HasFlaw source n)
      (ofElement source n.children) := by
  have tags : (n.children.filter fun p => p.kind == .startTag || p.kind == .selfClosingTag) =
      n.children.filter Node.opens := rfl
  have opening (t : Node) : t ∈ n.children ∧ t.opens = true ↔ t ∈ n.children.filter Node.opens :=
    List.mem_filter.symm
  rw [ofElement, tags]
  match only : n.children.filter Node.opens, orderly.tags element with
  | [], _ =>
    rw [only] at opening
    refine .nil fun f h => ?_
    obtain ⟨tag, tagged, -⟩ := (hasFlaw_iff_of_element element there).mp h
    exact List.not_mem_nil ((opening tag).mp tagged)
  | [tag], _ =>
    rw [only] at opening
    have ⟨mem, opens⟩ := (opening tag).mpr (List.mem_singleton_self tag)
    have either (f : Flaw) : HasFlaw source n f ↔ RepeatsFrom source tag 0 f ∨
        (f = .unclosed tag ∧ HasFlaw source n (.unclosed tag)) := by
      rw [hasFlaw_iff_of_element element there]
      simp only [opening, List.mem_singleton, exists_eq_left]
    have none : ∀ name, ([] : List Text).contains name = true ↔
        ∃ b ∈ ([] : List Node), b.HasName source name := by simp
    have said : SaysOf source tag 0 (ofTag source [] [] tag.children) :=
      saysOf_ofTag (List.nil_append tag.children).symm (parts tag mem opens) none
    have due : HasFlaw source n (.unclosed tag) ↔ _ := hasFlaw_unclosed_iff element mem opens
    simp only [List.getLast?_singleton, said.name]
    refine said.repeats.append ?_ ?_ either
    · split
      · next closed =>
        rw [closed] at due
        exact .nil fun f h => absurd (due.mp h.2) (by decide)
      · next unended =>
        have unclosed := due.mpr (Bool.eq_false_iff.mpr unended)
        exact .single fun f => and_iff_left unclosed
    · rintro f g ⟨j, a, name, -, repeats, rfl⟩ ⟨rfl, -⟩
      exact Nat.succ_lt_succ (List.getElem?_eq_some_iff.mp repeats.part).1

end Element

section Node

variable {n m : Node} {f : Flaw}

theorem hasFlaw_iff_of_end (ends : n.kind = .error ∨ n.missing = true ∧ n.children = []) :
    HasFlaw source n f ↔ f = .wrong n ∧ n.kind ≠ .endTag := by
  have childless : n.kind.isElement = true → n.children = [] := fun element => by
    rcases ends with error | ⟨-, none⟩
    · rw [error] at element
      cases element
    · exact none
  constructor
  · intro h
    cases h with
    | unexpected error =>
      refine ⟨rfl, ?_⟩
      rw [error]
      decide
    | absent _ kind => exact ⟨rfl, kind⟩
    | discarded kind =>
      refine ⟨rfl, ?_⟩
      rw [kind]
      decide
    | repeated element mem =>
      rw [childless element] at mem
      cases mem
    | unclosed element mem =>
      rw [childless element] at mem
      cases mem
  · rintro ⟨rfl, kind⟩
    rcases ends with error | ⟨missing, -⟩
    · exact .unexpected error
    · exact .absent missing kind

theorem offends_iff_of_end (ends : n.kind = .error ∨ n.missing = true ∧ n.children = [])
    (o : Offence) : Offends source n o ↔ o = ⟨[], .wrong n⟩ ∧ n.kind ≠ .endTag := by
  obtain ⟨place, flaw⟩ := o
  have reaches (m : Node) : n.Reaches place m ↔ place = [] ∧ m = n :=
    Node.reaches_iff_of_end (ends.imp_right And.right)
  simp only [Offends, reaches, Offence.mk.injEq, and_assoc, exists_and_left, exists_eq_left,
    hasFlaw_iff_of_end ends]

theorem ofNode_of_end (ends : n.kind = .error ∨ n.missing = true ∧ n.children = []) :
    ofNode source n = if n.kind = .endTag then [] else [Flaw.diagnostic source (.wrong n)] := by
  obtain ⟨kind, span, missing, children⟩ := n
  by_cases error : kind = .error
  · subst error
    simp [ofNode, Flaw.diagnostic, Node.kind]
  · have missing : missing = true := (ends.resolve_left error).1
    simp [ofNode, Flaw.diagnostic, Node.kind, Node.missing, error, missing]

theorem accounts_of_end (ends : n.kind = .error ∨ n.missing = true ∧ n.children = []) :
    Accounts (Offence.diagnostic source) Offence.Before (Offends source n) (ofNode source n) := by
  rw [ofNode_of_end ends]
  by_cases kind : n.kind = .endTag
  · rw [if_pos kind]
    exact .nil fun o h => ((offends_iff_of_end ends o).mp h).2 kind
  · rw [if_neg kind]
    have only (o : Offence) : Offends source n o ↔ o = ⟨[], .wrong n⟩ :=
      (offends_iff_of_end ends o).trans (and_iff_left kind)
    exact .single only

/-- What is said of a node itself, when the walk does not end at it. -/
def own (source : Text) (n : Node) : List Diagnostic :=
  if n.kind = .erroneousEndTag then
    let name := ((n.child? .erroneousEndTagName).map fun c => (c.text source).lower).getD []
    [of source n .warning ("discarding unexpected </" ++ name ++ ">")]
  else if n.kind.isElement then ofElement source n.children
  else []

theorem ofNode_eq (understood : n.kind ≠ .error) (there : n.missing = false) :
    ofNode source n = own source n ++ ofNodes source n.children := by
  obtain ⟨kind, span, missing, children⟩ := n
  obtain rfl : missing = false := there
  have understood : kind ≠ .error := understood
  rw [ofNode, if_neg understood]
  rfl

theorem accounts_own (understood : n.kind ≠ .error) (there : n.missing = false)
    (orderly : ∀ place m, n.Reaches place m → m.Orderly) :
    Accounts (Flaw.diagnostic source) (fun f g => f.turn < g.turn) (HasFlaw source n)
      (own source n) := by
  rw [own]
  by_cases discarded : n.kind = .erroneousEndTag
  · have said : of source n .warning ("discarding unexpected </" ++
        ((n.child? .erroneousEndTagName).map fun c => (c.text source).lower).getD [] ++ ">") =
        Flaw.diagnostic source (.wrong n) := by
      rw [Flaw.diagnostic, if_neg understood, there, if_neg Bool.false_ne_true]
    have inelement : ¬ n.kind.isElement = true := by
      rw [discarded]
      decide
    rw [if_pos discarded]
    simp only [said]
    refine .single fun f => ⟨fun h => ?_, ?_⟩
    · cases h with
      | unexpected => rfl
      | absent => rfl
      | discarded => rfl
      | repeated element => exact absurd element inelement
      | unclosed element => exact absurd element inelement
    · rintro rfl
      exact .discarded discarded
  · rw [if_neg discarded]
    by_cases element : n.kind.isElement = true
    · rw [if_pos element]
      obtain ⟨own, below⟩ := Node.forall_reaches_iff.mp orderly
      refine accounts_ofElement element there own fun tag mem opens a ha => ?_
      have tagged : tag.kind ≠ .error := by
        rcases opens_iff.mp opens with kind | kind <;> rw [kind] <;> decide
      have parts := (Node.forall_reaches_iff.mp (below understood tag mem)).2 tagged
      exact (Node.forall_reaches_iff.mp (parts a ha)).1
    · rw [if_neg element]
      refine .nil fun f h => ?_
      cases h with
      | unexpected error => exact understood error
      | absent missing => cases missing.symm.trans there
      | discarded kind => exact discarded kind
      | repeated kind => exact element kind
      | unclosed kind => exact element kind

/-- The offence is one of the nodes or of what is reached from them; the index of the first of the
nodes is given. -/
def OffendsIn (source : Text) (i : Nat) (ns : List Node) (o : Offence) : Prop :=
  ∃ j c place, ns[j]? = some c ∧ o.place = (i + j) :: place ∧ Offends source c ⟨place, o.flaw⟩

theorem offendsIn_cons {i : Nat} {ns : List Node} {o : Offence} :
    OffendsIn source i (n :: ns) o ↔
      (∃ p, Offends source n p ∧ p.below i = o) ∨ OffendsIn source (i + 1) ns o := by
  constructor
  · obtain ⟨spot, flaw⟩ := o
    rintro ⟨_ | j, c, place, mem, there, h⟩
    · obtain rfl : n = c := Option.some.inj mem
      obtain rfl : spot = i :: place := there
      exact .inl ⟨⟨place, flaw⟩, h, rfl⟩
    · refine .inr ⟨j, c, place, mem, ?_, h⟩
      rw [there, Nat.add_right_comm, Nat.add_assoc]
  · rintro (⟨p, h, rfl⟩ | ⟨j, c, place, mem, there, h⟩)
    · exact ⟨0, n, p.place, rfl, rfl, h⟩
    · refine ⟨j + 1, c, place, mem, ?_, h⟩
      rw [there, Nat.add_right_comm, Nat.add_assoc]

theorem accounts_ofNodes {ns : List Node}
    (each : ∀ n ∈ ns, Accounts (Offence.diagnostic source) Offence.Before (Offends source n)
      (ofNode source n)) (i : Nat) :
    Accounts (Offence.diagnostic source) Offence.Before (OffendsIn source i ns)
      (ofNodes source ns) := by
  induction ns generalizing i with
  | nil =>
    refine .nil ?_
    rintro o ⟨j, c, place, mem, -⟩
    cases mem
  | cons n rest ih =>
    obtain ⟨own, others⟩ := List.forall_mem_cons.mp each
    have first : Accounts (Offence.diagnostic source) Offence.Before
        (fun o => ∃ p, Offends source n p ∧ p.below i = o) (ofNode source n) :=
      own.image (Offence.below i) (fun o => rfl) (fun o p => Offence.before_below) fun o => Iff.rfl
    rw [ofNodes]
    refine first.append (ih others (i + 1)) ?_ fun o => offendsIn_cons
    rintro o p ⟨o, -, rfl⟩ ⟨j, c, place, -, there, -⟩
    exact Offence.before_of_lt rfl there (by omega)

theorem offends_iff (understood : n.kind ≠ .error) (o : Offence) :
    Offends source n o ↔
      (∃ f, HasFlaw source n f ∧ ⟨[], f⟩ = o) ∨ OffendsIn source 0 n.children o := by
  obtain ⟨place, flaw⟩ := o
  constructor
  · rintro ⟨m, reaches, h⟩
    rcases (Node.reaches_iff understood).mp reaches with ⟨rfl, rfl⟩ | ⟨i, c, rest, mem, rfl, below⟩
    · exact .inl ⟨flaw, h, rfl⟩
    · exact .inr ⟨i, c, rest, mem, by rw [Nat.zero_add], m, below, h⟩
  · rintro (⟨f, h, ⟨⟩⟩ | ⟨i, c, rest, mem, there, m, reaches, h⟩)
    · exact ⟨n, .here n, h⟩
    · obtain rfl : place = i :: rest := by rw [← Nat.zero_add i]; exact there
      exact ⟨m, .down understood mem reaches, h⟩

/-- What is said of a node and of what is in it accounts for the offences there. -/
theorem accounts_ofNode (n : Node) : (∀ place m, n.Reaches place m → m.Orderly) →
    Accounts (Offence.diagnostic source) Offence.Before (Offends source n) (ofNode source n) := by
  induction n using Node.forall_of_children with
  | step n ih =>
    intro orderly
    obtain ⟨here, below⟩ := Node.forall_reaches_iff.mp orderly
    -- Below an error node nothing is reached, and a missing node has nothing below it.
    by_cases ends : n.kind = .error ∨ n.missing = true
    · exact accounts_of_end (ends.imp_right fun missing => ⟨missing, here.parts missing⟩)
    · obtain ⟨error, missing⟩ := not_or.mp ends
      have there : n.missing = false := Bool.eq_false_iff.mpr missing
      rw [ofNode_eq error there]
      have own : Accounts (Offence.diagnostic source) Offence.Before
          (fun o => ∃ f, HasFlaw source n f ∧ ⟨[], f⟩ = o) (own source n) :=
        (accounts_own error there orderly).image (Offence.mk []) (fun f => rfl)
          (fun f g turn => .inr ⟨rfl, turn⟩) fun o => Iff.rfl
      refine own.append (accounts_ofNodes (fun c hc => ih c hc (below error c hc)) 0) ?_ (offends_iff error)
      rintro o p ⟨f, -, rfl⟩ ⟨j, c, place, -, there, -⟩
      exact Offence.before_of_nil rfl there

end Node

section Document

variable {root : Node} {requireDoctype : Bool}

/-- What is said of a document before its nodes are gone over. -/
def first (root : Node) (requireDoctype : Bool) : List Diagnostic :=
  if requireDoctype && !root.children.any (·.kind == .doctype) then
    [⟨1, 1, .warning, "missing <!DOCTYPE> declaration"⟩]
  else []

theorem collect_eq : collect source root requireDoctype =
    (first root requireDoctype ++ ofNode source root).mergeSort precedes := rfl

theorem accounts_first :
    Accounts (Offence.diagnostic source) Offence.Before
      (fun o => o = ⟨[], .noDoctype⟩ ∧ requireDoctype = true ∧
        ∀ c ∈ root.children, c.kind ≠ .doctype)
      (first root requireDoctype) := by
  have due : (requireDoctype && !root.children.any (·.kind == .doctype)) = true ↔
      requireDoctype = true ∧ ∀ c ∈ root.children, c.kind ≠ .doctype := by
    simp
  rw [first]
  by_cases absent : (requireDoctype && !root.children.any (·.kind == .doctype)) = true
  · rw [if_pos absent]
    have only (o : Offence) : (o = ⟨[], .noDoctype⟩ ∧ requireDoctype = true ∧
        ∀ c ∈ root.children, c.kind ≠ .doctype) ↔ o = ⟨[], .noDoctype⟩ :=
      and_iff_left (due.mp absent)
    exact .single only
  · rw [if_neg absent]
    exact .nil fun o h => absent (due.mpr h.2)

theorem before_of_noDoctype {o p : Offence} (ho : o = ⟨[], .noDoctype⟩)
    (hp : Offends source root p) : o.Before p := by
  obtain ⟨m, -, flaw⟩ := hp
  obtain ⟨place, f⟩ := p
  subst ho
  cases place with
  | nil => exact .inr ⟨rfl, flaw.turn_pos⟩
  | cons i rest => exact Offence.before_of_nil rfl rfl

theorem accounts_collect (orderly : ∀ place n, root.Reaches place n → n.Orderly) :
    Accounts (Offence.diagnostic source) (Offence.ListedBefore source)
      (Blamed source root requireDoctype) (collect source root requireDoctype) := by
  have walked : Accounts (Offence.diagnostic source) Offence.Before
      (Blamed source root requireDoctype) (first root requireDoctype ++ ofNode source root) :=
    accounts_first.append (accounts_ofNode root orderly)
      (fun o p ho hp => before_of_noDoctype ho.1 hp) fun o => Iff.rfl
  rw [collect_eq]
  -- Offences at one position are a tie for the sort, which leaves them in the order of the walk.
  refine walked.sort.imp fun o p ⟨le, tie⟩ => ?_
  rw [precedes_iff] at le tie
  by_cases same : (o.diagnostic source).line = (p.diagnostic source).line ∧
      (o.diagnostic source).column = (p.diagnostic source).column
  · exact .inr ⟨same.1, .inr ⟨same.2, tie (.inr ⟨same.1.symm, same.2.ge⟩)⟩⟩
  · rcases le with line | ⟨line, column⟩
    · exact .inl line
    · have apart := fun eq => same ⟨line, eq⟩
      exact .inr ⟨line, .inl (Nat.lt_of_le_of_ne column apart)⟩

end Document

/-- The diagnostics of a document, one for each offence and none for anything else. They stand in
the order of their positions, and there are none exactly when there is no offence. -/
theorem collect_exact (source : Text) (root : Node) (requireDoctype : Bool)
    (orderly : ∀ place n, root.Reaches place n → n.Orderly) :
    (∃ offences : List Offence, offences.Nodup ∧
      (∀ o, o ∈ offences ↔ Blamed source root requireDoctype o) ∧
      offences.Pairwise (Offence.ListedBefore source) ∧
      collect source root requireDoctype = offences.map (Offence.diagnostic source)) ∧
    (collect source root requireDoctype = [] ↔ ∀ o, ¬ Blamed source root requireDoctype o) := by
  have accounts : Accounts (Offence.diagnostic source) (Offence.ListedBefore source)
      (Blamed source root requireDoctype) (collect source root requireDoctype) :=
    accounts_collect orderly
  obtain ⟨offences, mem, order, told⟩ := accounts
  refine ⟨⟨offences, order.imp Offence.ne_of_listedBefore, mem, order, told⟩, ?_⟩
  rw [told, List.map_eq_nil_iff, List.eq_nil_iff_forall_not_mem]
  exact forall_congr' fun o => not_congr (mem o)

/-- A page without a doctype whose paragraph repeats an attribute and does not end, and which was
not understood behind it. -/
def faulty : Node :=
  .node .document ⟨0, 13⟩ false
    [.node .element ⟨0, 9⟩ false
      [.node .startTag ⟨0, 9⟩ false
        [.node .tagName ⟨1, 2⟩ false [],
          .node .attribute ⟨3, 5⟩ false [.node .attributeName ⟨3, 5⟩ false []],
          .node .attribute ⟨6, 8⟩ false [.node .attributeName ⟨6, 8⟩ false []]],
        .node .endTag ⟨9, 9⟩ true []],
      .node .error ⟨9, 13⟩ false [.node .erroneousEndTag ⟨9, 13⟩ false []]]

theorem collect_exact_faulty :
    (∀ place n, faulty.Reaches place n → n.Orderly) ∧
    collect "<p id ID></b>" faulty true ≠ [] ∧
    ∃ offences : List Offence, offences.Nodup ∧
      (∀ o, o ∈ offences ↔ Blamed "<p id ID></b>" faulty true o) ∧
      offences.Pairwise (Offence.ListedBefore "<p id ID></b>") ∧
      collect "<p id ID></b>" faulty true =
        offences.map (Offence.diagnostic "<p id ID></b>") := by
  have step (kind : Kind) (span : Span) (missing : Bool) (children : List Node) :
      (∀ place m, (Node.node kind span missing children).Reaches place m → m.Orderly) ↔
        (Node.node kind span missing children).Orderly ∧
          (kind ≠ .error → ∀ c ∈ children, ∀ place m, c.Reaches place m → m.Orderly) :=
    Node.forall_reaches_iff
  have orderly : ∀ place n, faulty.Reaches place n → n.Orderly := by
    simp only [faulty, step, List.forall_mem_cons, List.not_mem_nil, false_imp_iff, implies_true,
      and_true]
    decide
  have undeclared : Blamed "<p id ID></b>" faulty true ⟨[], .noDoctype⟩ :=
    .inl ⟨rfl, rfl, by decide⟩
  have ⟨exact, none_iff⟩ := collect_exact "<p id ID></b>" faulty true orderly
  exact ⟨orderly, fun none => none_iff.mp none _ undeclared, exact⟩

end Diagnostic
end MarkupGrader
