import MarkupGrader.Proofs.Layout.Page
import MarkupGrader.Proofs.Markup.Spelling
import MarkupGrader.Proofs.SideBySide

/-! The layouts of two pages that differ in the spelling of their tags. Where a tag has a line of its
own, or begins one, the layout writes it anew, and its spelling is lost. What stands within a line is
copied from the source with its tags as they are spelled there. So the layouts differ exactly if the
copies do. -/

namespace MarkupGrader

open Layout (Line)

theorem LineEnding.resolve_eq {e : LineEnding} (fixed : e ≠ .auto) (source other : Text) :
    e.resolve source = e.resolve other := by
  cases e with
  | auto => exact absurd rfl fixed
  | lf => rfl
  | crlf => rfl

namespace Layout

/-- The lines `ls` and `ms` are the same, but for the texts `cs` and `ds` that are copied into them. -/
inductive Alike : List Line → List Text → List Line → List Text → Prop
  | nil : Alike [] [] [] []
  | same {ls cs ms ds} (l : Line) (more : Alike ls cs ms ds) : Alike (l :: ls) cs (l :: ms) ds
  | copied {ls cs ms ds} (depth : Nat) (front back : Text) {a b : Text} (ha : '\n' ∉ a)
      (hb : '\n' ∉ b) (more : Alike ls cs ms ds) :
      Alike (⟨depth, front ++ a ++ back⟩ :: ls) (a :: cs) (⟨depth, front ++ b ++ back⟩ :: ms)
        (b :: ds)

namespace Alike

variable {ls ls' ms ms' : List Line} {cs cs' ds ds' : List Text}

theorem refl (ls : List Line) : Alike ls [] ls [] := by
  induction ls with
  | nil => exact .nil
  | cons l ls ih => exact .same l ih

theorem append (h : Alike ls cs ms ds) (h' : Alike ls' cs' ms' ds') :
    Alike (ls ++ ls') (cs ++ cs') (ms ++ ms') (ds ++ ds') := by
  induction h with
  | nil => exact h'
  | same l _ ih => exact .same l ih
  | copied depth front back ha hb _ ih => exact .copied depth front back ha hb ih

theorem flatMap {α β : Type} {f : α → List Line} {f' : β → List Line} {g : α → List Text}
    {g' : β → List Text} {as : List α} {bs : List β}
    (h : List.Forall₂ (fun a b => Alike (f a) (g a) (f' b) (g' b)) as bs) :
    Alike (as.flatMap f) (as.flatMap g) (bs.flatMap f') (bs.flatMap g') := by
  induction h with
  | nil => exact .nil
  | cons first _ ih =>
    simp only [List.flatMap_cons]
    exact first.append ih

theorem copy (depth : Nat) {a b : Text} (ha : '\n' ∉ a) (hb : '\n' ∉ b) :
    Alike [⟨depth, a⟩] [a] [⟨depth, b⟩] [b] := by
  have line := Alike.copied depth [] [] ha hb .nil
  rwa [List.nil_append, List.nil_append, List.append_nil, List.append_nil] at line

theorem render_eq_iff (h : Alike ls cs ms ds) (o : Options) {newline : Text}
    (break_ : Text.Break newline) :
    ls.flatMap (Line.render o newline) = ms.flatMap (Line.render o newline) ↔ cs = ds := by
  induction h with
  | nil => exact iff_of_true rfl rfl
  | same l _ ih => rw [List.flatMap_cons, List.flatMap_cons, List.append_cancel_left_eq, ih]
  | copied depth front back ha hb _ ih =>
    -- Neither copy has a line end, and what follows them has one, in the same place on both sides.
    have ends : '\n' ∈ back ++ newline := List.mem_append_right back break_.mem
    rw [List.flatMap_cons, List.flatMap_cons, Line.render, Line.render]
    simp only [List.append_assoc, List.append_cancel_left_eq]
    rw [← List.append_assoc back, ← List.append_assoc back, Text.append_line_inj ha hb ends, ih,
      List.cons.injEq]

end Alike
end Layout

namespace Markup

theorem Token.Respelled.leafKind?_eq {t u : Token} (h : t.Respelled u) :
    t.leafKind? = u.leafKind? := by
  cases h <;> rfl

namespace Item

variable {i j : Item} {content content' : List Item}

theorem Respelled.isGap_eq (h : i.Respelled j) : i.isGap = j.isGap := by
  cases h with
  | leaf tokens => rw [isGap, isGap, tokens.leafKind?_eq]
  | element => rfl

theorem Respelled.isInline_eq (h : i.Respelled j) : i.isInline = j.isInline := by
  induction h with
  | leaf tokens => rw [isInline, isInline, tokens.leafKind?_eq]
  | element tags size _ _ ih =>
    have inner := all_eq_of_forall₂ (forall₂_of_zip size ih)
    rw [isInline, isInline, tags.name, allInline_eq_all, allInline_eq_all, inner]

theorem Respelled.hasText_eq (h : i.Respelled j) : i.hasText = j.hasText := by
  induction h with
  | leaf tokens => cases tokens <;> rfl
  | element tags size _ _ ih =>
    have inner := any_eq_of_forall₂ (forall₂_of_zip size ih)
    rw [hasText, hasText, anyText_eq_any, anyText_eq_any, inner]

theorem soleRaw?_eq (h : List.Forall₂ Respelled content content') :
    soleRaw? content = soleRaw? content' := by
  have shown : List.Forall₂ Respelled (content.filter (!·.isGap)) (content'.filter (!·.isGap)) := by
    refine List.rel_filter (fun i j related => ?_) h
    show (!i.isGap) = true ↔ (!j.isGap) = true
    rw [related.isGap_eq]
  unfold soleRaw?
  generalize content.filter (!·.isGap) = is at shown ⊢
  generalize content'.filter (!·.isGap) = js at shown ⊢
  cases shown with
  | nil => rfl
  | cons first rest =>
    cases rest with
    | nil =>
      cases first with
      | leaf tokens => cases tokens <;> rfl
      | element => rfl
    | cons => cases first <;> rfl

theorem rel_inlineContent? (h : List.Forall₂ Respelled content content') :
    Option.Rel (fun a b : Text => '\n' ∉ a ∧ '\n' ∉ b) (inlineContent? content)
      (inlineContent? content') := by
  have inline := all_eq_of_forall₂ (h.imp fun _ _ related => related.isInline_eq)
  have text := any_eq_of_forall₂ (h.imp fun _ _ related => related.hasText_eq)
  rw [← allInline_eq_all, ← allInline_eq_all] at inline
  rw [← anyText_eq_any, ← anyText_eq_any] at text
  unfold inlineContent?
  rw [← soleRaw?_eq h, ← inline, ← text]
  split
  · split
    · exact .none
    · next free => exact .some ⟨free, free⟩
  · split
    · exact .some ⟨Text.newline_notMem_collapse _, Text.newline_notMem_collapse _⟩
    · exact .none

end Item

/-- The elements are laid out alike, but for what is copied into the line. -/
inductive Shape.Alike : Shape → Shape → Prop
  | bare : Alike .bare .bare
  | empty : Alike .empty .empty
  | inline {a b : Text} (ha : '\n' ∉ a) (hb : '\n' ∉ b) : Alike (.inline a) (.inline b)
  | block : Alike .block .block

namespace Item

theorem shape_alike {tag tag' : Tag} (tags : tag.Respelled tag')
    (h : List.Forall₂ Respelled content content') :
    (shape tag content).Alike (shape tag' content') := by
  have gaps := all_eq_of_forall₂ (h.imp fun _ _ related => related.isGap_eq)
  have inline := rel_inlineContent? h
  unfold shape
  rw [← tags.name, ← gaps]
  split
  · exact .bare
  · split
    · exact .empty
    · cases ElementClass.structurals.contains tag.elementName with
      | true => exact .block
      | false =>
        simp only [Bool.false_eq_true, if_false]
        generalize inlineContent? content = a at inline ⊢
        generalize inlineContent? content' = b at inline ⊢
        cases inline with
        | none => exact .block
        | some free => exact .inline free.1 free.2

inductive Row.Alike {α β : Type} (r : α → β → Prop) : Row α → Row β → Prop
  | shared (run run' : List Item) : Alike r (.shared run) (.shared run')
  | alone {a : α} {b : β} (h : r a b) : Alike r (.alone a) (.alone b)

section Rows

variable {α β : Type} {r : α → β → Prop} {run rest : List (Item × α)} {run' rest' : List (Item × β)}

/-- The items, which decide on the rows, are related, and so is what is made of them. -/
abbrev Paired (r : α → β → Prop) (p : Item × α) (q : Item × β) : Prop :=
  p.1.Respelled q.1 ∧ r p.2 q.2

theorem flush_alike (h : List.Forall₂ (Paired r) run run') :
    List.Forall₂ (Row.Alike r) (flush run) (flush run') := by
  have text : anyText (run.map Prod.fst) = anyText (run'.map Prod.fst) := by
    rw [anyText_eq_any, anyText_eq_any, List.any_map, List.any_map]
    exact any_eq_of_forall₂ (h.imp fun _ _ pair => pair.1.hasText_eq)
  unfold flush
  rw [text]
  split
  · exact .cons (.shared _ _) .nil
  · rw [List.forall₂_map_left_iff, List.forall₂_map_right_iff]
    exact h.imp fun _ _ pair => .alone pair.2

theorem rows_alike (h : List.Forall₂ (Paired r) run run')
    (h' : List.Forall₂ (Paired r) rest rest') :
    List.Forall₂ (Row.Alike r) (rows run rest) (rows run' rest') := by
  induction h' generalizing run run' with
  | nil => exact flush_alike h
  | @cons p q rest rest' first _ ih =>
    obtain ⟨i, a⟩ := p
    obtain ⟨j, b⟩ := q
    have inline : i.isInline = j.isInline := first.1.isInline_eq
    rw [rows, rows, inline]
    split
    · exact ih (List.rel_append h (.cons first .nil))
    · exact List.rel_append (flush_alike h) (.cons (.alone first.2) (ih .nil))

end Rows

theorem rowsOf_alike {r : Item → Item → Prop}
    (h : List.Forall₂ (fun i j => i.Respelled j ∧ r i j) content content') :
    List.Forall₂ (Row.Alike r) (rowsOf content) (rowsOf content') := by
  have pairs : List.Forall₂ (Paired r) (content.map fun i => (i, i))
      (content'.map fun i => (i, i)) := by
    rw [List.forall₂_map_left_iff, List.forall₂_map_right_iff]
    exact h
  exact rows_alike .nil pairs

def Row.copies : Row (List Text) → List Text
  | shared run => [Text.collapse (sources run)]
  | alone ts => ts

mutual

/-- What the layout copies from the source, line by line: the content of an element that stays on one
line, and the rows that items share. -/
def copies : Item → List Text
  | leaf _ => []
  | element tag content _ =>
    match shape tag content with
    | .inline text => [text]
    | .block => (rows [] (eachCopies content)).flatMap Row.copies
    | _ => []

def eachCopies : List Item → List (Item × List Text)
  | [] => []
  | i :: rest => (i, i.copies) :: eachCopies rest

end

theorem flatMap_rows_eachCopies (content : List Item) :
    (rows [] (eachCopies content)).flatMap Row.copies =
      (rowsOf content).flatMap fun row => (row.map copies).copies := by
  have pairs : eachCopies content = content.map fun i => (i, i.copies) := by
    induction content with
    | nil => rfl
    | cons i content ih => rw [eachCopies, ih, List.map_cons]
  rw [pairs, rows_eq, List.flatMap_map]

/-- The items have the same lines at every depth, but for the copies. -/
def LaidAlike (i j : Item) : Prop :=
  ∀ depth, Layout.Alike (i.lines depth) i.copies (j.lines depth) j.copies

theorem Row.Alike.lines {row row' : Row Item} (h : Row.Alike LaidAlike row row') (depth : Nat) :
    Layout.Alike (Row.lines depth (row.map (·.lines depth))) (row.map Item.copies).copies
      (Row.lines depth (row'.map (·.lines depth))) (row'.map Item.copies).copies := by
  cases h with
  | shared run run' =>
    exact .copy depth (Text.newline_notMem_collapse _) (Text.newline_notMem_collapse _)
  | alone items => exact items depth

theorem laidAlike_leaf {t u : Token} (h : t.Respelled u) : LaidAlike (leaf t) (leaf u) := by
  intro depth
  rw [copies, copies]
  cases h with
  | tag => exact .nil
  | endTag => exact .nil
  | same t => exact .refl _

theorem laidAlike_element {tag tag' : Tag} (closing closing' : Closing)
    (tags : tag.Respelled tag')
    (h : List.Forall₂ (fun i j => i.Respelled j ∧ LaidAlike i j) content content') :
    LaidAlike (element tag content closing) (element tag' content' closing') := by
  intro depth
  have opening : tag.opening = tag'.opening := by
    rw [Tag.opening, Tag.opening, tags.name, tags.attributes]
  have inner : innerDepth tag depth = innerDepth tag' depth := by
    rw [innerDepth, innerDepth, tags.name]
  have alike := shape_alike tags (h.imp fun _ _ both => both.1)
  rw [lines, lines, copies, copies, opening, inner, tags.name]
  generalize shape tag content = kind at alike ⊢
  generalize shape tag' content' = kind' at alike ⊢
  cases alike with
  | bare => exact .refl _
  | empty => exact .refl _
  | inline ha hb => exact .copied depth _ _ ha hb .nil
  | block =>
    have rows := (rowsOf_alike h).imp fun _ _ row => row.lines (innerDepth tag' depth)
    simp only [flatMap_rows_eachLines, flatMap_rows_eachCopies]
    have all := (Layout.Alike.flatMap rows).append
      (.refl [⟨depth, Layout.endTag tag'.elementName⟩])
    rw [List.append_nil, List.append_nil] at all
    exact .same _ all

theorem Respelled.laidAlike (h : i.Respelled j) : LaidAlike i j := by
  induction h with
  | leaf tokens => exact laidAlike_leaf tokens
  | element tags size each closings ih =>
    exact laidAlike_element _ _ tags
      (forall₂_of_zip size fun pair mem => ⟨each pair mem, ih pair mem⟩)

end Item
end Markup

namespace Layout

open Markup (Item)

/-- Items that are spelled anew have the same layout exactly if what is copied of them is the same. -/
theorem render_lines_eq_iff {items others : List Item}
    (h : List.Forall₂ Item.Respelled items others) (o : Options) {newline : Text}
    (break_ : Text.Break newline) :
    (items.flatMap (·.lines 0)).flatMap (Line.render o newline) =
        (others.flatMap (·.lines 0)).flatMap (Line.render o newline) ↔
      items.flatMap Item.copies = others.flatMap Item.copies := by
  have lines := h.imp fun _ _ related => related.laidAlike 0
  exact (Alike.flatMap lines).render_eq_iff o break_

end Layout
end MarkupGrader
