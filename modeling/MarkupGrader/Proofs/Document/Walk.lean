import MarkupGrader.Document.Cursor
import MarkupGrader.Proofs.Document.Arena

/-! Walks over an arena. Going from place to place visits the children of a node in their order, and
it is the walk of a cursor over the tree: a place shows a cursor when its number stands for the
cursor's node and the siblings behind it for those behind the cursor. -/

namespace MarkupGrader.Document

variable {d : Document} {a : Arena}

namespace Arena

/-- The place reached from the first child of a node by going on so many times. -/
def onward? (a : Arena) (p : Place) : Nat → Option Place
  | 0 => a.firstChild? p
  | k + 1 => (a.onward? p k).bind a.nextSibling?

theorem nextSibling?_of_child? {parent index : Nat} {p : Place} (h : a.child? parent index = some p) :
    a.nextSibling? p = a.child? parent (index + 1) := by
  obtain ⟨number, -, rfl⟩ := Option.map_eq_some_iff.mp h
  rfl

theorem onward?_eq (a : Arena) (p : Place) (k : Nat) : a.onward? p k = a.child? p.number k := by
  induction k with
  | zero => rfl
  | succ k ih =>
    rw [onward?, ih]
    cases here : a.child? p.number k with
    | none =>
      have ended := List.getElem?_eq_none_iff.mp (Option.map_eq_none_iff.mp here)
      rw [child?, List.getElem?_eq_none (Nat.le_succ_of_le ended)]
      rfl
    | some q => exact nextSibling?_of_child? here

end Arena

namespace Arena

/-- The numbers of the siblings behind a place. -/
def later (a : Arena) (p : Place) : List Nat :=
  match p.parent with
  | none => []
  | some parent => (a.childrenOf parent).drop (p.index + 1)

structure Shows (a : Arena) (p : Place) (c : Cursor) : Prop where
  node : Stands a.entries p.number c.node
  later : List.Forall₂ (Stands a.entries) (a.later p) c.later

variable {p : Place} {c : Cursor}

theorem shows_child? {parent index : Nat} {ns : List Node}
    (stand : List.Forall₂ (Stands a.entries) ((a.childrenOf parent).drop index) ns) :
    Option.Rel a.Shows (a.child? parent index) (Cursor.firstOf? ns) := by
  rw [child?]
  cases ns with
  | nil =>
    rw [List.forall₂_nil_right_iff, List.drop_eq_nil_iff] at stand
    rw [List.getElem?_eq_none stand]
    exact .none
  | cons n rest =>
    cases behind : (a.childrenOf parent).drop index with
    | nil =>
      rw [behind] at stand
      cases stand
    | cons i others =>
      rw [behind] at stand
      obtain ⟨first, rest⟩ := List.forall₂_cons.mp stand
      -- The child at the index is the first of what is left from there on.
      have here : (a.childrenOf parent)[index]? = some i := by
        rw [← Nat.add_zero index, ← List.getElem?_drop, behind]
        rfl
      have tail : (a.childrenOf parent).drop (index + 1) = others := by
        rw [← List.drop_drop, behind]
        rfl
      rw [here]
      rw [← tail] at rest
      exact .some ⟨first, rest⟩

theorem Shows.firstChild? (h : a.Shows p c) : Option.Rel a.Shows (a.firstChild? p) c.firstChild? :=
  shows_child? h.node.childrenOf

theorem Shows.nextSibling? (h : a.Shows p c) :
    Option.Rel a.Shows (a.nextSibling? p) c.nextSibling? := by
  have stand := h.later
  rw [Arena.later] at stand
  rw [Arena.nextSibling?, Cursor.nextSibling?]
  split at stand
  · next root =>
    rw [root, List.forall₂_nil_left_iff.mp stand]
    exact .none
  · next parent under =>
    rw [under]
    exact shows_child? stand

/-- A step of a walk, down to the first child or on to the next sibling. -/
inductive Move
  | down
  | on

def move? (a : Arena) (p : Place) : Move → Option Place
  | .down => a.firstChild? p
  | .on => a.nextSibling? p

end Arena

def Cursor.move? (c : Cursor) : Arena.Move → Option Cursor
  | .down => c.firstChild?
  | .on => c.nextSibling?

namespace Arena

variable {p : Place} {c : Cursor}

theorem Shows.move? (h : a.Shows p c) (m : Move) : Option.Rel a.Shows (a.move? p m) (c.move? m) := by
  cases m with
  | down => exact h.firstChild?
  | on => exact h.nextSibling?

/-- Both walks come to the same node, or both end. -/
theorem Shows.walk (h : a.Shows p c) (moves : List Move) :
    Option.Rel a.Shows (moves.foldlM a.move? p) (moves.foldlM Cursor.move? c) := by
  induction moves generalizing p c with
  | nil => exact .some h
  | cons m rest ih =>
    have step := h.move? m
    rw [List.foldlM_cons, List.foldlM_cons]
    generalize a.move? p m = next at step
    generalize c.move? m = there at step
    cases step with
    | none => exact .none
    | some shown => exact ih shown

end Arena

theorem stands_addAnchor (h : Begins a d) {entries : List Entry} {name : Text}
    {adopts : Node → Bool} (within : Within a.entries 0 (addAnchor d entries name adopts).1) :
    Stands a.entries (addAnchor d entries name adopts).2
      ((d.top.find? (·.isElement name)).getD (.implied name (d.top.filter adopts))) := by
  have top : List.Forall₂ (Stands a.entries) (topNumbers d) d.top := h.topNumbers_eq ▸ h.stands_top
  have named : ∀ (pair : Node × Nat) (n : Node), pair.1 = n ∧ Stands a.entries pair.2 n →
      pair.1.isElement name = n.isElement name := fun pair n same => by rw [same.1]
  have found := rel_find? named (forall₂_zip_left top)
  rw [addAnchor] at within ⊢
  generalize (d.top.zip (topNumbers d)).find? _ = first at found within
  generalize d.top.find? _ = second at found
  cases found with
  | none =>
    have own := within entries.length _ List.getElem?_concat_length
    rw [Nat.zero_add] at own
    exact .element own (forall₂_filter_zip top adopts)
  | some same => exact same.2

theorem within_addAnchor (d : Document) (entries : List Entry) (name : Text) (adopts : Node → Bool) :
    Within (addAnchor d entries name adopts).1 0 entries := by
  intro j entry here
  rw [Nat.zero_add]
  rcases addAnchor_cases d entries name adopts with ⟨i, -, found⟩ | lacking
  · rw [found, here]
  · rw [lacking, List.getElem?_append_left (List.getElem?_eq_some_iff.mp here).1, here]

theorem shows_headPlace (d : Document) : d.arena.Shows d.arena.headPlace (Cursor.head d) where
  node := stands_addAnchor (begins_arena d) (within_addAnchor d _ "body" Node.belongsToBody)
  later := .nil

theorem shows_bodyPlace (d : Document) : d.arena.Shows d.arena.bodyPlace (Cursor.body d) where
  node := stands_addAnchor (begins_arena d) fun j entry here => by rwa [Nat.zero_add]
  later := .nil

theorem shows_walk (d : Document) (moves : List Arena.Move) :
    Option.Rel d.arena.Shows (moves.foldlM d.arena.move? d.arena.headPlace)
        (moves.foldlM Cursor.move? (Cursor.head d)) ∧
      Option.Rel d.arena.Shows (moves.foldlM d.arena.move? d.arena.bodyPlace)
        (moves.foldlM Cursor.move? (Cursor.body d)) :=
  ⟨(shows_headPlace d).walk moves, (shows_bodyPlace d).walk moves⟩

end MarkupGrader.Document
