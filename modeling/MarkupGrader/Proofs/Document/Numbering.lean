import MarkupGrader.Document.Place
import MarkupGrader.Proofs.Document.Subject

/-! Numbering the nodes of a document. Nodes in a row and all below them take the numbers of one block
without gaps. Each number of a block is given out once, to a node in the row or to a child of a
node of the block, and children have smaller numbers than their parent. -/

namespace MarkupGrader.Document

/-- Entries that are numbered from `start` on, and the numbers of those that no other entry of them
has among its children. -/
structure Block (start : Nat) (entries : List Entry) (numbers : List Nat) : Prop where
  smaller : ∀ j entry, entries[j]? = some entry → ∀ c ∈ entry.children, c < start + j
  once : (numbers ++ entries.flatMap Entry.children).Perm (List.range' start entries.length)

namespace Block

variable {start : Nat} {entries others : List Entry} {numbers more : List Nat}

theorem bounds (h : Block start entries numbers) :
    ∀ i ∈ numbers, start ≤ i ∧ i < start + entries.length := by
  intro i hi
  have mem : i ∈ List.range' start entries.length :=
    h.once.mem_iff.mp (List.mem_append_left _ hi)
  rwa [List.mem_range'_1] at mem

theorem nil (start : Nat) : Block start [] [] where
  smaller := fun j entry here => by cases here
  once := .nil

theorem leaf (start : Nat) (kind : LeafKind) (span : Span) :
    Block start [.leaf kind span] [start] where
  smaller := by
    intro j entry here c hc
    obtain rfl : Entry.leaf kind span = entry :=
      (List.mem_singleton.mp (List.mem_of_getElem? here)).symm
    cases hc
  once := .refl _

theorem element (h : Block start entries numbers) (e : Element) :
    Block start (entries ++ [.element e numbers]) [start + entries.length] where
  smaller := by
    intro j entry here c hc
    rw [List.getElem?_append] at here
    split at here
    · exact h.smaller j entry here c hc
    · next beyond =>
      obtain rfl : Entry.element e numbers = entry :=
        (List.mem_singleton.mp (List.mem_of_getElem? here)).symm
      have inside := (h.bounds c hc).2
      omega
  once := by
    rw [List.flatMap_append, List.flatMap_singleton, List.length_append, List.length_singleton,
      List.range'_concat, Nat.one_mul]
    refine List.perm_append_comm.trans (List.Perm.append_right _ ?_)
    exact List.perm_append_comm.trans h.once

theorem append (h : Block start entries numbers) (k : Block (start + entries.length) others more) :
    Block start (entries ++ others) (numbers ++ more) where
  smaller := by
    intro j entry here c hc
    rw [List.getElem?_append] at here
    split at here
    · exact h.smaller j entry here c hc
    · next beyond =>
      have below := k.smaller _ entry here c hc
      omega
  once := by
    rw [List.flatMap_append, List.length_append, ← List.range'_append_1]
    -- Only the children in the first block and the numbers of the second change places.
    refine .trans ?_ (h.once.append k.once)
    rw [List.append_assoc, List.append_assoc]
    refine List.Perm.append_left numbers ?_
    rw [← List.append_assoc, ← List.append_assoc]
    exact List.Perm.append_right _ List.perm_append_comm

end Block

mutual

theorem block_entriesOf (start : Nat) : ∀ n : Node,
    Block start (entriesOf start n) [start + (entriesOf start n).length - 1]
  | .leaf kind span => .leaf start kind span
  | .element e children => by
    have whole := (block_numbered start children).element e
    rw [entriesOf, List.length_append, List.length_singleton]
    exact whole

theorem block_numbered (start : Nat) : ∀ ns : List Node,
    Block start (numbered start ns).1 (numbered start ns).2
  | [] => .nil start
  | n :: rest => by
    rw [numbered]
    exact (block_entriesOf start n).append (block_numbered _ rest)

end

/-- The entry of the number tells of the node, and so do the entries of its children of the node's
children. -/
inductive Stands (entries : List Entry) : Nat → Node → Prop
  | leaf {i : Nat} {kind : LeafKind} {span : Span} (entry : entries[i]? = some (.leaf kind span)) :
      Stands entries i (.leaf kind span)
  | element {i : Nat} {e : Element} {numbers : List Nat} {children : List Node}
      (entry : entries[i]? = some (.element e numbers))
      (below : List.Forall₂ (Stands entries) numbers children) :
      Stands entries i (.element e children)

/-- The entries of the list stand in the whole from `start` on. -/
def Within (whole : List Entry) (start : Nat) (entries : List Entry) : Prop :=
  ∀ j entry, entries[j]? = some entry → whole[start + j]? = some entry

theorem within_append {whole entries others : List Entry} {start : Nat} :
    Within whole start (entries ++ others) ↔
      Within whole start entries ∧ Within whole (start + entries.length) others := by
  constructor
  · intro h
    refine ⟨fun j entry here => ?_, fun j entry here => ?_⟩
    · refine h j entry ?_
      rw [List.getElem?_append_left (List.getElem?_eq_some_iff.mp here).1, here]
    · rw [Nat.add_assoc]
      refine h _ entry ?_
      rw [List.getElem?_append_right (Nat.le_add_right _ _), Nat.add_sub_cancel_left, here]
  · rintro ⟨h, k⟩ j entry here
    rw [List.getElem?_append] at here
    split at here
    · exact h j entry here
    · next beyond =>
      have there := k _ entry here
      rwa [Nat.add_assoc, Nat.add_sub_cancel' (Nat.not_lt.mp beyond)] at there

mutual

theorem stands_entriesOf {whole : List Entry} {start : Nat} : ∀ n : Node,
    Within whole start (entriesOf start n) →
      Stands whole (start + (entriesOf start n).length - 1) n
  | .leaf kind span => fun h => .leaf (h 0 _ rfl)
  | .element e children => by
    intro h
    rw [entriesOf] at h ⊢
    obtain ⟨inside, own⟩ := within_append.mp h
    rw [List.length_append, List.length_singleton]
    exact .element (own 0 _ rfl) (stands_numbered children inside)

theorem stands_numbered {whole : List Entry} {start : Nat} : ∀ ns : List Node,
    Within whole start (numbered start ns).1 →
      List.Forall₂ (Stands whole) (numbered start ns).2 ns
  | [] => fun _ => .nil
  | n :: rest => by
    intro h
    rw [numbered] at h ⊢
    obtain ⟨first, others⟩ := within_append.mp h
    exact .cons (stands_entriesOf n first) (stands_numbered rest others)

end

mutual

theorem exists_holds_entriesOf {whole : List Entry} {start : Nat} : ∀ n : Node,
    Within whole start (entriesOf start n) → ∀ j < (entriesOf start n).length,
      ∃ m, Holds [n] m ∧ Stands whole (start + j) m
  | .leaf kind span => by
    intro h j inside
    obtain rfl : j = 0 := Nat.lt_one_iff.mp inside
    exact ⟨_, .here List.mem_cons_self, .leaf (h 0 _ rfl)⟩
  | .element e children => by
    intro h j inside
    have own := stands_entriesOf (.element e children) h
    rw [entriesOf] at h inside own
    rw [List.length_append, List.length_singleton] at inside own
    rcases Nat.lt_succ_iff_lt_or_eq.mp inside with inside | rfl
    · obtain ⟨m, held, stands⟩ :=
        exists_holds_numbered children (within_append.mp h).1 j inside
      exact ⟨m, .inside List.mem_cons_self held, stands⟩
    · exact ⟨_, .here List.mem_cons_self, own⟩

theorem exists_holds_numbered {whole : List Entry} {start : Nat} : ∀ ns : List Node,
    Within whole start (numbered start ns).1 → ∀ j < (numbered start ns).1.length,
      ∃ m, Holds ns m ∧ Stands whole (start + j) m
  | [] => fun h j inside => absurd inside (Nat.not_lt_zero j)
  | n :: rest => by
    intro h j inside
    rw [numbered] at h inside
    obtain ⟨first, others⟩ := within_append.mp h
    rw [List.length_append] at inside
    by_cases near : j < (entriesOf start n).length
    · obtain ⟨m, held, stands⟩ := exists_holds_entriesOf n first j near
      exact ⟨m, held.mono (by simp), stands⟩
    · have beyond := Nat.not_lt.mp near
      obtain ⟨m, held, stands⟩ :=
        exists_holds_numbered rest others (j - (entriesOf start n).length) (by omega)
      rw [Nat.add_assoc, Nat.add_sub_cancel' beyond] at stands
      exact ⟨m, held.mono (List.subset_cons_self _ _), stands⟩

end

end MarkupGrader.Document
