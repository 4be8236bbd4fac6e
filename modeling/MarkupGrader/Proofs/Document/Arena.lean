import MarkupGrader.Proofs.Document.Numbering
import MarkupGrader.Proofs.SideBySide

/-! The arena of a document. Every node of the source is listed once, below the node that it stands
in or at the top, and always with a smaller number than its parent, so that walks end. An implied head
and an implied body share the nodes of the top with the source, but not with each other. -/

namespace MarkupGrader

namespace Document

variable {whole : List Entry} {i : Nat} {n : Node}

theorem Stands.entry (h : Stands whole i n) : ∃ entry, whole[i]? = some entry ∧
    List.Forall₂ (Stands whole) entry.children n.children := by
  cases h with
  | leaf entry => exact ⟨_, entry, .nil⟩
  | element entry below => exact ⟨_, entry, below⟩

theorem Stands.isElement_eq (h : Stands whole i n) (name : Text) :
    whole[i]?.any (·.isElement name) = n.isElement name := by
  cases h with
  | leaf entry =>
    rw [entry]
    rfl
  | element entry _ =>
    rw [entry]
    rfl

theorem Stands.isDoctype_eq (h : Stands whole i n) : whole[i]?.any Entry.isDoctype = n.isDoctype := by
  cases h with
  | @leaf i kind span entry =>
    rw [entry]
    cases kind <;> rfl
  | element entry _ =>
    rw [entry]
    rfl

theorem Stands.childrenOf {a : Arena} (h : Stands a.entries i n) :
    List.Forall₂ (Stands a.entries) (a.childrenOf i) n.children := by
  obtain ⟨entry, here, below⟩ := h.entry
  rwa [Arena.childrenOf, here]

theorem numbered_cons (start : Nat) (n : Node) (rest : List Node) :
    numbered start (n :: rest) =
      (entriesOf start n ++ (numbered (start + (entriesOf start n).length) rest).1,
        (start + (entriesOf start n).length - 1) ::
          (numbered (start + (entriesOf start n).length) rest).2) := by
  rw [numbered]

theorem numbered_append (start : Nat) (ns ms : List Node) :
    numbered start (ns ++ ms) =
      ((numbered start ns).1 ++ (numbered (start + (numbered start ns).1.length) ms).1,
        (numbered start ns).2 ++ (numbered (start + (numbered start ns).1.length) ms).2) := by
  induction ns generalizing start with
  | nil => rfl
  | cons n ns ih =>
    simp only [List.cons_append, numbered_cons, ih, List.append_assoc, List.length_append,
      Nat.add_assoc]

theorem find?_eq_none_of_stands {numbers : List Nat} {ns : List Node} {name : Text}
    (h : List.Forall₂ (Stands whole) numbers ns) (lacking : ∀ n ∈ ns, n.isElement name = false) :
    numbers.find? (fun i => whole[i]?.any (·.isElement name)) = none := by
  have found := rel_find? (fun i n (stands : Stands whole i n) => stands.isElement_eq name) h
  have none : ns.find? (·.isElement name) = none :=
    List.find?_eq_none.mpr fun n hn => Bool.eq_false_iff.mp (lacking n hn)
  rw [none] at found
  generalize numbers.find? _ = first at found
  cases found
  rfl

variable {d : Document} {a : Arena}

theorem childrenOf_of_within {start : Nat} {e : Element} {children : List Node}
    (h : Within a.entries start (entriesOf start (.element e children))) :
    a.childrenOf (start + (entriesOf start (.element e children)).length - 1) =
      (numbered start children).2 := by
  rw [entriesOf] at h ⊢
  have here := (within_append.mp h).2 0 _ rfl
  rw [Nat.add_zero] at here
  rw [List.length_append, List.length_singleton, Arena.childrenOf, ← Nat.add_assoc,
    Nat.add_sub_cancel, here]
  rfl

structure Begins (a : Arena) (d : Document) : Prop where
  entries : Within a.entries 0 (numbered 0 d.roots).1
  roots : a.roots = (numbered 0 d.roots).2

theorem Begins.stands_roots (h : Begins a d) : List.Forall₂ (Stands a.entries) a.roots d.roots := by
  rw [h.roots]
  exact stands_numbered d.roots h.entries

theorem Begins.stands_top (h : Begins a d) : List.Forall₂ (Stands a.entries) a.top d.top := by
  have found := rel_find? (fun i n (stands : Stands a.entries i n) => stands.isElement_eq "html")
    h.stands_roots
  rw [Arena.top, top]
  generalize a.roots.find? _ = first at found
  generalize d.roots.find? _ = second at found
  cases found with
  | none => exact h.stands_roots
  | some stands => exact stands.childrenOf

theorem Begins.topNumbers_eq (h : Begins a d) : topNumbers d = a.top := by
  cases found : d.roots.find? (·.isElement "html") with
  | none =>
    have lacking : ∀ n ∈ d.roots, n.isElement "html" = false := fun n hn =>
      Bool.eq_false_iff.mpr (List.find?_eq_none.mp found n hn)
    have missed := find?_eq_none_of_stands h.stands_roots lacking
    rw [topNumbers, found, Arena.top, missed]
    exact h.roots.symm
  | some html =>
    obtain ⟨named, before, after, split, clear⟩ := List.find?_eq_some_iff_append.mp found
    obtain ⟨e, children, rfl⟩ : ∃ e children, html = .element e children := by
      cases html with
      | leaf kind span => cases named
      | element e children => exact ⟨e, children, rfl⟩
    -- What stands before `html` is one block, and the entries below `html` begin behind it.
    have front : d.roots.takeWhile (!·.isElement "html") = before := by
      rw [split, List.takeWhile_append_of_pos clear, List.takeWhile_cons, named]
      exact List.append_nil before
    have entries := h.entries
    have roots := h.roots
    simp only [split, numbered_append, numbered_cons] at entries roots
    obtain ⟨first, others⟩ := within_append.mp entries
    obtain ⟨own, -⟩ := within_append.mp others
    have html := stands_entriesOf _ own
    have lacking : ∀ n ∈ before, n.isElement "html" = false := fun n hn => by
      simpa using clear n hn
    have missed := find?_eq_none_of_stands (stands_numbered before first) lacking
    rw [topNumbers, found, front, Arena.top, roots, List.find?_append, missed, Option.none_or,
      List.find?_cons_of_pos (by rw [html.isElement_eq]; exact named)]
    have listed := childrenOf_of_within own
    rw [Nat.zero_add] at listed
    simp only [Nat.zero_add, listed]
    rfl

theorem Begins.entry_iff (h : Begins a d) {entry : Entry} (inside : i < (numbered 0 d.roots).1.length) :
    a.entries[i]? = some entry ↔ (numbered 0 d.roots).1[i]? = some entry := by
  have here := h.entries i _ (List.getElem?_eq_getElem inside)
  rw [Nat.zero_add] at here
  rw [here, List.getElem?_eq_getElem inside]

theorem Begins.top_sublist (h : Begins a d) :
    a.top.Sublist (a.roots ++ (numbered 0 d.roots).1.flatMap Entry.children) := by
  rw [Arena.top]
  split
  · next html found =>
    have bound := (block_numbered 0 d.roots).bounds html
    rw [← h.roots, Nat.zero_add] at bound
    have inside := (bound (List.mem_of_find?_eq_some found)).2
    have here := (h.entry_iff inside).mpr (List.getElem?_eq_getElem inside)
    rw [Arena.childrenOf, here, List.flatMap_def]
    have mem : ((numbered 0 d.roots).1[html]).children ∈
        (numbered 0 d.roots).1.map Entry.children :=
      List.mem_map_of_mem (List.getElem_mem inside)
    exact (List.sublist_flatten_of_mem mem).trans (List.sublist_append_right _ _)
  · exact List.sublist_append_left _ _

theorem Begins.once (h : Begins a d) :
    (a.roots ++ (numbered 0 d.roots).1.flatMap Entry.children).Perm
      (List.range' 0 (numbered 0 d.roots).1.length) := by
  rw [h.roots]
  exact (block_numbered 0 d.roots).once

theorem Begins.top_nodup (h : Begins a d) : a.top.Nodup :=
  h.top_sublist.nodup (h.once.nodup_iff.mpr (List.nodup_range' ..))

theorem Begins.top_lt (h : Begins a d) (mem : i ∈ a.top) : i < (numbered 0 d.roots).1.length := by
  have listed := h.once.mem_iff.mp (h.top_sublist.subset mem)
  rw [List.mem_range'_1, Nat.zero_add] at listed
  exact listed.2

def impliedEntry (name : Text) (children : List Nat) : Entry :=
  .element ⟨some name, [], ⟨0, 0⟩, none, false⟩ children

/-- The numbers of the nodes of the top that an implied element takes in. -/
def adopted (d : Document) (adopts : Node → Bool) : List Nat :=
  ((d.top.zip (topNumbers d)).filter fun pair => adopts pair.1).map Prod.snd

theorem addAnchor_of_lacking {name : Text} (lacking : ∀ n ∈ d.top, n.isElement name = false)
    (entries : List Entry) (adopts : Node → Bool) :
    addAnchor d entries name adopts =
      (entries ++ [impliedEntry name (adopted d adopts)], entries.length) := by
  have none : (d.top.zip (topNumbers d)).find? (fun pair => pair.1.isElement name) = none := by
    refine List.find?_eq_none.mpr fun pair mem => ?_
    rw [lacking pair.1 (List.of_mem_zip mem).1]
    exact Bool.false_ne_true
  rw [addAnchor, none]
  rfl

theorem addAnchor_cases (d : Document) (entries : List Entry) (name : Text) (adopts : Node → Bool) :
    (∃ i ∈ topNumbers d, addAnchor d entries name adopts = (entries, i)) ∨
      addAnchor d entries name adopts =
        (entries ++ [impliedEntry name (adopted d adopts)], entries.length) := by
  cases found : (d.top.zip (topNumbers d)).find? (fun pair => pair.1.isElement name) with
  | none =>
    right
    rw [addAnchor, found]
    rfl
  | some pair =>
    left
    refine ⟨pair.2, (List.of_mem_zip (List.mem_of_find?_eq_some found)).2, ?_⟩
    rw [addAnchor, found]

/-- Entries behind those of the source are implied and only take in nodes of the top. -/
def Adopting (d : Document) (added : List Entry) : Prop :=
  ∀ entry ∈ added, entry.isImplied = true ∧ entry.children.Sublist (topNumbers d)

theorem exists_addAnchor_eq {entries : List Entry}
    (inside : ∀ i ∈ topNumbers d, i < entries.length)
    (name : Text) (adopts : Node → Bool) :
    ∃ added number, addAnchor d entries name adopts = (entries ++ added, number) ∧
      Adopting d added ∧ number < (entries ++ added).length := by
  rcases addAnchor_cases d entries name adopts with ⟨i, mem, found⟩ | lacking
  · refine ⟨[], i, ?_, fun entry h => (List.not_mem_nil h).elim, ?_⟩
    · rw [found, List.append_nil]
    · rw [List.append_nil]
      exact inside i mem
  · refine ⟨_, _, lacking, fun entry h => ?_, ?_⟩
    · obtain rfl := List.mem_singleton.mp h
      exact ⟨rfl, sublist_filter_zip d.top (topNumbers d) adopts⟩
    · rw [List.length_append]
      exact Nat.lt_succ_self _

theorem topNumbers_lt (d : Document) : ∀ i ∈ topNumbers d, i < (numbered 0 d.roots).1.length := by
  intro i mem
  have begins : Begins ⟨(numbered 0 d.roots).1, (numbered 0 d.roots).2, 0, 0⟩ d :=
    ⟨fun j entry here => by rwa [Nat.zero_add], rfl⟩
  rw [begins.topNumbers_eq] at mem
  exact begins.top_lt mem

/-- An arena is the entries of the source and at most the head and the body behind them. -/
theorem exists_arena_entries (d : Document) : ∃ added,
    d.arena.entries = (numbered 0 d.roots).1 ++ added ∧ Adopting d added ∧
      d.arena.head < d.arena.entries.length ∧ d.arena.body < d.arena.entries.length := by
  have inside := topNumbers_lt d
  obtain ⟨first, head, addHead, adoptingFirst, headLt⟩ :=
    exists_addAnchor_eq inside "head" Node.belongsToHead
  have further : ∀ i ∈ topNumbers d, i < ((numbered 0 d.roots).1 ++ first).length := fun i mem => by
    rw [List.length_append]
    exact Nat.lt_add_right _ (inside i mem)
  obtain ⟨second, body, addBody, adoptingSecond, bodyLt⟩ :=
    exists_addAnchor_eq further "body" Node.belongsToBody
  have arena : d.arena =
      ⟨(numbered 0 d.roots).1 ++ first ++ second, (numbered 0 d.roots).2, head, body⟩ := by
    simp only [Document.arena, addHead, addBody]
  rw [arena]
  refine ⟨first ++ second, List.append_assoc .., List.forall_mem_append.mpr
    ⟨adoptingFirst, adoptingSecond⟩, ?_, bodyLt⟩
  rw [List.length_append]
  exact Nat.lt_add_right _ headLt

theorem begins_arena (d : Document) : Begins d.arena d := by
  obtain ⟨added, entries, -⟩ := exists_arena_entries d
  refine ⟨fun j entry here => ?_, rfl⟩
  rw [entries, Nat.zero_add, List.getElem?_append_left (List.getElem?_eq_some_iff.mp here).1, here]

theorem acyclic_arena (d : Document) {i : Nat} {entry : Entry}
    (here : d.arena.entries[i]? = some entry) : ∀ c ∈ entry.children, c < i := by
  obtain ⟨added, entries, adopting, -⟩ := exists_arena_entries d
  rw [entries, List.getElem?_append] at here
  intro c hc
  split at here
  · have smaller := (block_numbered 0 d.roots).smaller i entry here c hc
    rwa [Nat.zero_add] at smaller
  · next beyond =>
    have taken := (adopting entry (List.mem_of_getElem? here)).2.subset hc
    have inside := topNumbers_lt d c taken
    omega

end Document
end MarkupGrader
