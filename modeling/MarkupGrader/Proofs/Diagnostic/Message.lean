import MarkupGrader.Diagnostic
import MarkupGrader.Markup.Reading
import MarkupGrader.Proofs.Text.ZeroFree

/-! What the messages of diagnostics are made of: fixed words, pieces of the source, and the names of
tokens that are missing. So they are zero-free if the source and these names are, and a list of
diagnostics is never rendered as a text that could be taken for anything else. -/

namespace MarkupGrader

namespace Markup

mutual

/-- The tokens that a tree says are missing have zero-free names. -/
def Node.ZeroFreeNames : Node → Prop
  | .node kind _ missing children =>
    (missing = true → kind.words.ZeroFree) ∧ Node.AllZeroFreeNames children

def Node.AllZeroFreeNames : List Node → Prop
  | [] => True
  | n :: rest => n.ZeroFreeNames ∧ Node.AllZeroFreeNames rest

end

/-- A recovery only misses tokens of a grammar, whose names never hold the character zero. -/
def Recovery.ZeroFreeNames (r : Recovery) : Prop := ∀ source, (r source).ZeroFreeNames

namespace Outline

mutual

theorem zeroFreeNames_locate (start : Nat) :
    ∀ o : Outline, Node.AllZeroFreeNames (o.locate start)
  | .gap t => by simp only [locate, Node.AllZeroFreeNames]
  | .leaf kind t => by simp [locate, Node.AllZeroFreeNames, Node.ZeroFreeNames]
  | .group kind parts => by
    simp only [locate, Node.AllZeroFreeNames, Node.ZeroFreeNames, Bool.false_eq_true,
      false_implies, true_and, and_true]
    exact zeroFreeNames_locateAll start parts

theorem zeroFreeNames_locateAll (start : Nat) :
    ∀ os : List Outline, Node.AllZeroFreeNames (locateAll start os)
  | [] => by simp only [locateAll, Node.AllZeroFreeNames]
  | o :: rest => by
    rw [locateAll]
    have first := zeroFreeNames_locate start o
    have more := zeroFreeNames_locateAll (start + Text.byteLength o.source) rest
    generalize o.locate start = front at first
    induction front with
    | nil => exact more
    | cons n front ih =>
      rw [Node.AllZeroFreeNames] at first
      exact ⟨first.1, ih first.2⟩

end

end Outline

theorem zeroFreeNames_documentNode (source : Text) (items : List Item) :
    (documentNode source items).ZeroFreeNames :=
  ⟨by simp, Outline.zeroFreeNames_locateAll _ _⟩

theorem zeroFreeNames_parse {r : Recovery} (h : r.ZeroFreeNames) (source : Text) :
    (parse r source).ZeroFreeNames := by
  unfold parse
  cases read : read? source with
  | none => exact h source
  | some n =>
    obtain ⟨items, -, rfl⟩ := Option.map_eq_some_iff.mp read
    exact zeroFreeNames_documentNode source items

theorem Recovery.zeroFreeNames_atEnd : Recovery.atEnd.ZeroFreeNames := by
  intro source
  unfold Recovery.atEnd
  split
  · exact zeroFreeNames_documentNode source _
  · simp [Recovery.wholeError, Node.ZeroFreeNames, Node.AllZeroFreeNames]

end Markup

namespace Diagnostic

open Text (ZeroFree zeroFree_append zeroFree_lower zeroFree_slice zeroFree_of_subset)
open Markup (Node Kind)

theorem zeroFree_text {source : Text} (h : source.ZeroFree) (n : Node) : (n.text source).ZeroFree :=
  zeroFree_slice h n.span

theorem zeroFree_excerpt {t : Text} (h : t.ZeroFree) : (excerpt t).ZeroFree := by
  have trimmed : (Text.trim t).ZeroFree := zeroFree_of_subset (Text.trim_subset t) h
  refine Text.zeroFree_flatMap fun c hc => ?_
  have clear : c ≠ Text.zero := by
    rintro rfl
    split at hc
    · rcases List.mem_append.mp hc with hc | hc
      · exact trimmed (List.mem_of_mem_take hc)
      · exact absurd hc (by decide)
    · exact trimmed hc
  split
  · decide
  · simpa [ZeroFree] using clear.symm

theorem zeroFree_writtenValue {t : Text} (h : t.ZeroFree) : (writtenValue t).ZeroFree := by
  unfold writtenValue
  split
  · exact List.not_mem_nil
  · next left value found =>
    obtain ⟨c, -, eq, -⟩ := Text.splitFirst?_eq_some found
    intro mem
    have inner := (List.dropWhile_sublist isQuote).subset (List.mem_reverse.mp mem)
    have trimmed := (List.dropWhile_sublist isQuote).subset (List.mem_reverse.mp inner)
    exact h (by simp [eq, Text.trim_subset value trimmed])

def ZeroFreeMessages (ds : List Diagnostic) : Prop := ∀ d ∈ ds, d.message.ZeroFree

theorem zeroFreeMessages_append {as bs : List Diagnostic} (ha : ZeroFreeMessages as)
    (hb : ZeroFreeMessages bs) : ZeroFreeMessages (as ++ bs) := fun d hd =>
  (List.mem_append.mp hd).elim (ha d) (hb d)

theorem zeroFreeMessages_of {source message : Text} {n : Node} {severity : Severity}
    (h : message.ZeroFree) : ZeroFreeMessages [of source n severity message] := by
  intro d hd
  rw [List.mem_singleton.mp hd]
  exact h

theorem zeroFreeMessages_nil : ZeroFreeMessages [] := fun _ hd => absurd hd List.not_mem_nil

variable {source : Text}

theorem zeroFreeMessages_ofAttribute (h : source.ZeroFree) {tagName name : Text}
    (tagFree : tagName.ZeroFree) (nameFree : name.ZeroFree) (seen : List Text) (a : Node) :
    ZeroFreeMessages (ofAttribute source tagName name seen a) := by
  unfold ofAttribute
  split
  · apply zeroFreeMessages_of
    have value := zeroFree_writtenValue (zeroFree_text h a)
    simp only [zeroFree_append]
    exact ⟨⟨⟨⟨⟨⟨by decide, tagFree⟩, by decide⟩, value⟩, by decide⟩, nameFree⟩, by decide⟩
  · exact zeroFreeMessages_nil

theorem zeroFree_ofTag (h : source.ZeroFree) {tagName : Text} (tagFree : tagName.ZeroFree)
    (seen : List Text) (parts : List Node) :
    ZeroFreeMessages (ofTag source tagName seen parts).1 ∧
      (ofTag source tagName seen parts).2.ZeroFree := by
  induction parts generalizing tagName seen with
  | nil => exact ⟨zeroFreeMessages_nil, tagFree⟩
  | cons part rest ih =>
    unfold ofTag
    split
    · exact ih (zeroFree_lower (zeroFree_text h part)) seen
    · split
      · split
        · exact ih tagFree seen
        · next name found =>
          obtain ⟨n, -, rfl⟩ := Option.map_eq_some_iff.mp found
          have nameFree := zeroFree_lower (zeroFree_text h n)
          have more := ih tagFree ((n.text source).lower :: seen)
          exact ⟨zeroFreeMessages_append
            (zeroFreeMessages_ofAttribute h tagFree nameFree seen part) more.1, more.2⟩
      · exact ih tagFree seen

theorem zeroFreeMessages_ofElement (h : source.ZeroFree) (parts : List Node) :
    ZeroFreeMessages (ofElement source parts) := by
  unfold ofElement
  simp only
  split
  · exact zeroFreeMessages_nil
  · next tag _ =>
    have empty : ZeroFree [] := List.not_mem_nil
    have inner := zeroFree_ofTag h empty [] tag.children
    refine zeroFreeMessages_append inner.1 ?_
    split
    · exact zeroFreeMessages_nil
    · apply zeroFreeMessages_of
      simp only [zeroFree_append]
      exact ⟨⟨by decide, inner.2⟩, by decide⟩

mutual

theorem zeroFreeMessages_ofNode (h : source.ZeroFree) :
    ∀ n : Node, n.ZeroFreeNames → ZeroFreeMessages (ofNode source n)
  | .node kind span missing children => by
    intro names
    rw [Node.ZeroFreeNames] at names
    unfold ofNode
    simp only
    -- An error quotes the source, a missing token is named, and all else is made of names in tags.
    split
    · apply zeroFreeMessages_of
      have := zeroFree_excerpt (zeroFree_text h (.node kind span missing children))
      simp only [zeroFree_append]
      exact ⟨⟨by decide, this⟩, by decide⟩
    · split
      · next gone =>
        split
        · exact zeroFreeMessages_nil
        · apply zeroFreeMessages_of
          rw [zeroFree_append]
          exact ⟨by decide, names.1 gone⟩
      · refine zeroFreeMessages_append ?_ (zeroFreeMessages_ofNodes h children names.2)
        split
        · apply zeroFreeMessages_of
          simp only [zeroFree_append]
          refine ⟨⟨by decide, ?_⟩, by decide⟩
          cases Node.child? (.node kind span missing children) .erroneousEndTagName with
          | none => exact List.not_mem_nil
          | some c => exact zeroFree_lower (zeroFree_text h c)
        · split
          · exact zeroFreeMessages_ofElement h children
          · exact zeroFreeMessages_nil

theorem zeroFreeMessages_ofNodes (h : source.ZeroFree) :
    ∀ ns : List Node, Node.AllZeroFreeNames ns → ZeroFreeMessages (ofNodes source ns)
  | [] => by
    intro _
    exact zeroFreeMessages_nil
  | n :: rest => by
    intro names
    rw [Node.AllZeroFreeNames] at names
    rw [ofNodes]
    exact zeroFreeMessages_append (zeroFreeMessages_ofNode h n names.1)
      (zeroFreeMessages_ofNodes h rest names.2)

end

theorem zeroFreeMessages_collect (h : source.ZeroFree) {root : Node} (names : root.ZeroFreeNames)
    (requireDoctype : Bool) : ZeroFreeMessages (collect source root requireDoctype) := by
  intro d hd
  rw [collect, List.mem_mergeSort] at hd
  refine zeroFreeMessages_append ?_ (zeroFreeMessages_ofNode h root names) d hd
  split
  · intro d hd
    rw [List.mem_singleton.mp hd]
    decide
  · exact zeroFreeMessages_nil

theorem zeroFree_display {d : Diagnostic} (h : d.message.ZeroFree) : d.display.ZeroFree := by
  have name : d.severity.name.ZeroFree := by cases d.severity <;> decide
  unfold display
  iterate 7 rw [zeroFree_append]
  exact ⟨⟨⟨⟨⟨⟨⟨by decide, Text.zeroFree_ofNat _⟩, by decide⟩, Text.zeroFree_ofNat _⟩, by decide⟩,
    name⟩, by decide⟩, h⟩

theorem zeroFree_render {ds : List Diagnostic} (h : ZeroFreeMessages ds) : (render ds).ZeroFree := by
  refine Text.zeroFree_join (by decide) fun p hp => ?_
  obtain ⟨d, hd, rfl⟩ := List.mem_map.mp hp
  exact zeroFree_display (h d hd)

theorem exists_display_eq (d : Diagnostic) : ∃ rest, d.display = "line ".toList ++ rest := by
  unfold display
  iterate 6 rw [List.append_assoc]
  exact ⟨_, rfl⟩

theorem exists_render_eq {ds : List Diagnostic} (h : ds ≠ []) :
    ∃ rest, render ds = "line ".toList ++ rest := by
  obtain ⟨d, ds, rfl⟩ := List.exists_cons_of_ne_nil h
  obtain ⟨rest, eq⟩ := exists_display_eq d
  cases ds with
  | nil =>
    refine ⟨rest, ?_⟩
    rw [render, Text.join, List.map_cons, List.map_nil, List.intercalate_singleton, eq]
  | cons e ds =>
    rw [render, Text.join, List.map_cons, List.map_cons, List.intercalate_cons_cons, eq,
      List.append_assoc, List.append_assoc]
    exact ⟨_, rfl⟩

end Diagnostic
end MarkupGrader
