import MarkupGrader.Layout.Cut
import MarkupGrader.Proofs.Document.Spans
import MarkupGrader.Proofs.Layout.Items
import MarkupGrader.Proofs.Text.Cut

/-! Laying out with cut texts. Where the nodes of a document are in their places, the texts of nodes,
the contents of elements and the runs of inline nodes can all be cut out of the source. A run is cut
from its first node to its last, which stand in a row wherever in an error they were recovered. -/

namespace MarkupGrader

theorem Document.Node.Placed.cut {source : Text} {n : Document.Node}
    (placed : n.Placed source.IsBoundary) :
    Text.cut source n.span = .ok (Text.slice source n.span) := by
  obtain ⟨forward, start, stop⟩ := placed.span
  exact Text.cut_of_isBoundary forward start stop

namespace Layout.Cut

open Document (Node Element)

variable {source : Text}

mutual

theorem hasText_eq : ∀ n : Node, n.Placed source.IsBoundary →
    hasText source n = .ok (Layout.hasText source n)
  | .leaf kind span => by
    intro placed
    have own : Text.cut source span = .ok (Text.slice source span) := placed.cut
    cases kind with
    | text =>
      rw [hasText, own]
      rfl
    | _ => rfl
  | .element e children => by
    intro placed
    cases placed with
    | element _ _ _ _ each =>
      rw [hasText, Layout.hasText]
      exact anyText_eq children each

theorem anyText_eq : ∀ ns : List Node, (∀ n ∈ ns, n.Placed source.IsBoundary) →
    anyText source ns = .ok (Layout.anyText source ns)
  | [] => fun _ => rfl
  | n :: rest => by
    intro placed
    obtain ⟨own, others⟩ := List.forall_mem_cons.mp placed
    have later := anyText_eq rest others
    rw [anyText, Layout.anyText, hasText_eq n own]
    cases Layout.hasText source n with
    | true => rfl
    | false => exact later

end

theorem inlineContent_eq {e : Element} {children : List Node}
    (placed : (Node.element e children).Placed source.IsBoundary) :
    inlineContent source e children = .ok (Layout.inlineContent source e children) := by
  cases placed with
  | element _ _ content _ each =>
    by_cases raw : ∃ span, children = [.leaf .rawText span]
    · obtain ⟨span, rfl⟩ := raw
      have own : Text.cut source span = .ok (Text.slice source span) :=
        (each _ List.mem_cons_self).cut
      rw [inlineContent, own]
      rfl
    · rw [inlineContent, Layout.inlineContent, anyText_eq children each]
      · cases allInline children with
        | false => rfl
        | true =>
          cases Layout.anyText source children with
          | false => rfl
          | true =>
            cases found : e.content with
            | none => rfl
            | some span =>
              obtain ⟨inside, start, stop⟩ := content span found
              simp only [Text.cut_of_isBoundary inside.forward start stop]
              rfl
      · exact fun span only => raw ⟨span, only⟩
      · exact fun span only => raw ⟨span, only⟩

def made (pair : Node × List Line) : Node × Except Span (List Line) := (pair.1, .ok pair.2)

theorem mapM_made (pairs : List (Node × List Line)) :
    (pairs.map made).mapM Prod.snd = .ok (pairs.map Prod.snd) := by
  induction pairs with
  | nil => rfl
  | cons pair rest ih =>
    rw [List.map_cons, List.mapM_cons, ih]
    rfl

theorem runLines_eq {run : List (Node × List Line)} {start stop : Nat} (depth : Nat)
    (placed : ∀ pair ∈ run, pair.1.Placed source.IsBoundary)
    (row : Span.Row start (run.map fun pair => pair.1.span) stop) :
    runLines source depth (run.map made) = .ok (Layout.runLines source depth run) := by
  have nodes : (run.map made).map Prod.fst = run.map Prod.fst := by
    rw [List.map_map]
    rfl
  have each : ∀ n ∈ run.map Prod.fst, n.Placed source.IsBoundary := fun n mem => by
    obtain ⟨pair, inside, rfl⟩ := List.mem_map.mp mem
    exact placed pair inside
  rw [runLines, Layout.runLines, List.head?_map, List.getLast?_map, nodes, anyText_eq _ each,
    mapM_made]
  cases head : run.head? with
  | none => rfl
  | some first =>
    cases last : run.getLast? with
    | none => rfl
    | some final =>
      obtain ⟨-, begins, -⟩ := (placed first (List.mem_of_head? head)).span
      obtain ⟨-, -, ends⟩ := (placed final (List.mem_of_getLast? last)).span
      have forward := row.head_le_last (by rw [List.head?_map, head]; rfl)
        (by rw [List.getLast?_map, last]; rfl)
      have whole : Text.cut source ⟨first.1.span.start, final.1.span.stop⟩ =
          .ok (Text.slice source ⟨first.1.span.start, final.1.span.stop⟩) :=
        Text.cut_of_isBoundary forward begins ends
      cases Layout.anyText source (run.map Prod.fst) with
      | true =>
        simp only [Option.map_some, made, whole]
        rfl
      | false => rfl

theorem blockLines_eq {run pairs : List (Node × List Line)} {start stop : Nat} (depth : Nat)
    (placed : ∀ pair ∈ run ++ pairs, pair.1.Placed source.IsBoundary)
    (row : Span.Row start ((run ++ pairs).map fun pair => pair.1.span) stop) :
    blockLines source depth (run.map made) (pairs.map made) =
      .ok (Layout.blockLines source depth run pairs) := by
  -- The run and what is still to come stand in one row, which is parted where the run ends.
  induction pairs generalizing run start with
  | nil =>
    rw [List.append_nil] at placed row
    exact runLines_eq depth placed row
  | cons pair rest ih =>
    rw [List.map_cons, made, blockLines, Layout.blockLines]
    split
    · have run' : run.map made ++ [(pair.1, .ok pair.2)] = (run ++ [pair]).map made := by
        rw [List.map_append]
        rfl
      rw [run']
      exact ih (by rwa [List.append_assoc]) (by rwa [List.append_assoc])
    · rw [List.map_append] at row
      obtain ⟨middle, before, behind⟩ := row.of_append
      obtain ⟨placedRun, placedRest⟩ := List.forall_mem_append.mp placed
      rw [runLines_eq depth placedRun before]
      cases behind with
      | cons _ _ later =>
        have rest := @ih [] _ (List.forall_mem_cons.mp placedRest).2 later
        rw [List.map_nil] at rest
        simp only [rest]
        rfl

theorem blockLines_children {children : List Node} {start stop : Nat} (depth : Nat)
    (row : Span.Row start (children.map Node.span) stop)
    (each : ∀ n ∈ children, n.Placed source.IsBoundary) :
    blockLines source depth [] ((Layout.eachLines source depth children).map made) =
      .ok (Layout.blockLines source depth [] (Layout.eachLines source depth children)) := by
  have nodes : (Layout.eachLines source depth children).map Prod.fst = children :=
    map_fst_eachLines depth children
  refine @blockLines_eq _ [] _ start stop depth (fun pair mem => each pair.1 ?_) ?_
  · rw [← nodes]
    exact List.mem_map_of_mem mem
  · rw [← nodes, List.map_map] at row
    exact row

mutual

theorem nodeLines_eq (depth : Nat) : ∀ n : Node, n.Placed source.IsBoundary →
    nodeLines source depth n = .ok (Layout.nodeLines source depth n)
  | .leaf kind span => by
    intro placed
    have own : Text.cut source span = .ok (Text.slice source span) := placed.cut
    cases kind with
    | text =>
      rw [nodeLines, own]
      rfl
    | rawText =>
      rw [nodeLines, own]
      rfl
    | comment =>
      simp only [nodeLines, own]
      rfl
    | doctype =>
      simp only [nodeLines, own]
      rfl
  | .element e children => by
    intro placed
    have content := inlineContent_eq placed
    cases placed with
    | element _ _ _ row each =>
      have block : ∀ inner, blockLines source inner [] (eachLines source inner children) =
          .ok (Layout.blockLines source inner [] (Layout.eachLines source inner children)) := by
        intro inner
        rw [eachLines_eq inner children each]
        exact blockLines_children inner row each
      rw [nodeLines, Layout.nodeLines]
      simp only [content, block]
      split
      · rfl
      · split
        · rfl
        · cases ElementClass.structurals.contains (e.name.getD []) with
          | true => rfl
          | false =>
            cases Layout.inlineContent source e children with
            | none => rfl
            | some text => rfl

theorem eachLines_eq (depth : Nat) : ∀ ns : List Node, (∀ n ∈ ns, n.Placed source.IsBoundary) →
    eachLines source depth ns = (Layout.eachLines source depth ns).map made
  | [] => fun _ => rfl
  | n :: rest => by
    intro placed
    obtain ⟨own, others⟩ := List.forall_mem_cons.mp placed
    rw [eachLines, nodeLines_eq depth n own, eachLines_eq depth rest others]
    rfl

end

theorem format_eq {d : Document} (placed : ∀ n ∈ d.roots, n.Placed d.source.IsBoundary)
    (o : Options) : format d o = .ok (Layout.format d o) := by
  rw [format, Layout.format]
  cases o.validate with
  | error fault => rfl
  | ok _ =>
    simp only [eachLines_eq 0 d.roots placed, mapM_made]
    rfl

end Layout.Cut
end MarkupGrader
