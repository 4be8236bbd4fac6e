import MarkupGrader.Proofs.Markup.Plain
import MarkupGrader.Proofs.Text.Occurs

/-! What is content in a source: its texts, entities, raw texts, comments and doctypes, wherever they
stand. All the rest is markup. A comment inside a doctype is content of its own and also a part of
the doctype's text. -/

namespace MarkupGrader.Markup

def Kind.isContent : Kind → Bool
  | text | entity | rawText | comment | doctype => true
  | _ => false

mutual

/-- The texts of the nodes that are content, each before those inside it. -/
def Node.contents (source : Text) : Node → List Text
  | .node kind span _ children =>
    (if kind.isContent then [Text.slice source span] else []) ++ Node.allContents source children

def Node.allContents (source : Text) : List Node → List Text
  | [] => []
  | n :: rest => n.contents source ++ Node.allContents source rest

end

inductive Piece
  | markup (t : Text)
  | content (t : Text)

namespace Piece

def text : Piece → Text
  | markup t => t
  | content t => t

def content? : Piece → Option Text
  | markup _ => none
  | content t => some t

def contentOf (ps : List Piece) : List Text := ps.filterMap content?

@[simp] theorem contentOf_nil : contentOf [] = [] := rfl

@[simp] theorem contentOf_append (ps qs : List Piece) :
    contentOf (ps ++ qs) = contentOf ps ++ contentOf qs := List.filterMap_append

@[simp] theorem contentOf_markup (t : Text) (ps : List Piece) :
    contentOf (.markup t :: ps) = contentOf ps := rfl

@[simp] theorem contentOf_content (t : Text) (ps : List Piece) :
    contentOf (.content t :: ps) = t :: contentOf ps := rfl

theorem contentOf_flatMap {α : Type} (f : α → List Piece) (as : List α) :
    contentOf (as.flatMap f) = as.flatMap fun a => contentOf (f a) := List.filterMap_flatMap

theorem occurs_contentOf (ps : List Piece) :
    Text.Occurs ((contentOf ps).map Text.dropBlanks) (Text.dropBlanks (ps.flatMap text)) := by
  induction ps with
  | nil => exact .nil _
  | cons p ps ih =>
    rw [List.flatMap_cons, Text.dropBlanks_append]
    cases p with
    | markup t => exact ih.append_left _
    | content t => exact .cons [] (Text.dropBlanks t) ih

end Piece

namespace Outline

open Piece (contentOf)

variable {source pre post : Text}

mutual

def contents : Outline → List Text
  | gap _ => []
  | leaf kind t => if kind.isContent then [t] else []
  | group kind parts =>
    (if kind.isContent then [sourceAll parts] else []) ++ allContents parts

def allContents : List Outline → List Text
  | [] => []
  | o :: rest => o.contents ++ allContents rest

end

/-- The content inside an outline, without its own. -/
def inner : Outline → List Text
  | gap _ => []
  | leaf _ _ => []
  | group _ parts => allContents parts

mutual

def pieces : Outline → List Piece
  | gap t => [.markup t]
  | leaf kind t => if kind.isContent then [.content t] else [.markup t]
  | group kind parts => if kind.isContent then [.content (sourceAll parts)] else allPieces parts

def allPieces : List Outline → List Piece
  | [] => []
  | o :: rest => o.pieces ++ allPieces rest

end

inductive Flat : Outline → Prop
  | gap (t : Text) : Flat (gap t)
  | leaf (kind : Kind) (t : Text) : Flat (leaf kind t)
  | group {kind : Kind} {parts : List Outline} (markup : kind.isContent = false)
      (flat : ∀ o ∈ parts, Flat o) : Flat (group kind parts)

theorem allContents_append (os ps : List Outline) :
    allContents (os ++ ps) = allContents os ++ allContents ps := by
  induction os with
  | nil => rfl
  | cons o os ih => rw [List.cons_append, allContents, allContents, ih, List.append_assoc]

theorem allContents_eq_flatMap (os : List Outline) : allContents os = os.flatMap contents := by
  induction os with
  | nil => rfl
  | cons o os ih => rw [allContents, ih, List.flatMap_cons]

theorem allContents_nodes_append (ns ms : List Node) :
    Node.allContents source (ns ++ ms) =
      Node.allContents source ns ++ Node.allContents source ms := by
  induction ns with
  | nil => rfl
  | cons n ns ih =>
    rw [List.cons_append, Node.allContents, Node.allContents, ih, List.append_assoc]

mutual

theorem allContents_locate {pre post : Text} :
    ∀ o : Outline, source = pre ++ (o.source ++ post) →
      Node.allContents source (o.locate (Text.byteLength pre)) = o.contents
  | .gap t => fun _ => rfl
  | .leaf kind t => by
    intro h
    have text := slice_eq h
    rw [Outline.source] at text
    rw [locate, Node.allContents, Node.contents, Node.allContents, text, contents, List.append_nil,
      List.append_nil]
  | .group kind parts => by
    intro h
    have text := slice_eq h
    rw [Outline.source] at text h
    rw [locate, Node.allContents, Node.contents, Node.allContents, text, contents,
      List.append_nil, allContents_locateAll parts h]

theorem allContents_locateAll {pre post : Text} :
    ∀ os : List Outline, source = pre ++ (sourceAll os ++ post) →
      Node.allContents source (locateAll (Text.byteLength pre) os) = allContents os
  | [] => fun _ => rfl
  | o :: rest => by
    intro h
    rw [sourceAll_cons, List.append_assoc] at h
    have there : source = (pre ++ o.source) ++ (sourceAll rest ++ post) := by
      rw [h, List.append_assoc]
    rw [locateAll, allContents, allContents_nodes_append, allContents_locate o h,
      ← Text.byteLength_append, allContents_locateAll rest there]

end

mutual

theorem flatMap_text_pieces : ∀ o : Outline, o.pieces.flatMap Piece.text = o.source
  | .gap t => List.append_nil t
  | .leaf kind t => by
    rw [pieces]
    split <;> exact List.append_nil t
  | .group kind parts => by
    rw [pieces, source]
    split
    · exact List.append_nil _
    · exact flatMap_text_allPieces parts

theorem flatMap_text_allPieces :
    ∀ os : List Outline, (allPieces os).flatMap Piece.text = sourceAll os
  | [] => rfl
  | o :: rest => by
    rw [allPieces, List.flatMap_append, flatMap_text_pieces o, flatMap_text_allPieces rest]
    rfl

end

theorem contentOf_pieces {o : Outline} (flat : o.Flat) : contentOf o.pieces = o.contents := by
  induction flat with
  | gap t => rfl
  | leaf kind t =>
    rw [pieces, contents]
    split <;> rfl
  | @group kind parts markup _ ih =>
    rw [pieces, contents, markup, if_neg Bool.false_ne_true, if_neg Bool.false_ne_true,
      List.nil_append]
    induction parts with
    | nil => rfl
    | cons o parts more =>
      rw [allPieces, allContents, Piece.contentOf_append, ih o List.mem_cons_self,
        more (fun p hp => ‹∀ o ∈ _, Flat o› p (List.mem_cons_of_mem _ hp))
          fun p hp => ih p (List.mem_cons_of_mem _ hp)]

theorem flat_literal (t : Text) : (literal t).Flat := .leaf _ t

theorem flat_filler (f : Filler) : f.outline.Flat := by
  cases f with
  | space t => exact .gap t
  | comment t => exact .leaf _ t

theorem flat_value (v : Value) : v.outline.Flat := by
  cases v with
  | bare t => exact .leaf _ t
  | quoted quote lead t =>
    refine .group rfl ?_
    simp only [List.forall_mem_append, List.forall_mem_cons, List.forall_mem_map]
    refine ⟨⟨⟨flat_literal _, fun f _ => flat_filler f⟩, ?_⟩, flat_literal _, by simp⟩
    split
    · simp
    · simpa using Flat.leaf _ t

theorem flat_part (p : TagPart) : p.outline.Flat := by
  cases p with
  | filler f => exact flat_filler f
  | attr a =>
    obtain ⟨name, assigned⟩ := a
    refine .group rfl ?_
    rw [List.forall_mem_cons]
    refine ⟨.leaf _ name, ?_⟩
    cases assigned with
    | none => simp
    | some assigned =>
      simp only [List.forall_mem_append, List.forall_mem_cons, List.forall_mem_map]
      exact ⟨fun f _ => flat_filler f, flat_literal _, fun f _ => flat_filler f,
        flat_value assigned.value, by simp⟩

theorem flat_tag (t : Tag) : t.outline.Flat := by
  have kind : (if t.selfClosing then Kind.selfClosingTag else Kind.startTag).isContent = false := by
    cases t.selfClosing <;> rfl
  refine .group kind ?_
  simp only [List.forall_mem_append, List.forall_mem_cons, List.forall_mem_map]
  exact ⟨flat_literal _, fun f _ => flat_filler f, .leaf _ t.name, fun p _ => flat_part p,
    flat_literal _, by simp⟩

theorem flat_endTag {kind : Kind} (markup : kind.isContent = false) (nameKind : Kind) (t : EndTag) :
    (t.outline kind nameKind).Flat := by
  refine .group markup ?_
  simp only [List.forall_mem_append, List.forall_mem_cons, List.forall_mem_map]
  exact ⟨flat_literal _, fun f _ => flat_filler f, .leaf _ t.name, fun f _ => flat_filler f,
    flat_literal _, by simp⟩

theorem flat_closing (closing : Closing) : ∀ o ∈ closing.outline, o.Flat := by
  cases closing with
  | endTag t => simpa [Closing.outline] using flat_endTag rfl .tagName t
  | implied => simp [Closing.outline]
  | selfClosed => simp [Closing.outline]

end Outline
end MarkupGrader.Markup
