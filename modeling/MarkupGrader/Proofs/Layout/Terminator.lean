import MarkupGrader.Proofs.Layout.Page

/-! The end of a layout. A line may be empty but never ends with a blank. So what stands before the
last line break is never a carriage return of its own, and taking the terminator away takes away the
line break that was put there and nothing else. -/

namespace MarkupGrader

namespace Text

variable {t : Text}

def EndsSolid (t : Text) : Prop := ∀ c ∈ t.getLast?, isBlank c = false

theorem endsSolid_concat (t : Text) {c : Char} (solid : isBlank c = false) :
    EndsSolid (t ++ [c]) := by
  intro d hd
  rw [List.getLast?_concat] at hd
  cases hd
  exact solid

theorem EndsSolid.append (h : EndsSolid t) (nonempty : t ≠ []) (front : Text) :
    EndsSolid (front ++ t) := by
  rw [EndsSolid, List.getLast?_append_of_ne_nil front nonempty]
  exact h

theorem EndsSolid.getLast?_ne (h : EndsSolid t) : t.getLast? ≠ some '\r' := by
  intro last
  have solid : isBlank '\r' = false := h '\r' last
  cases solid

theorem endsSolid_join {ws : List Text} (solid : ∀ w ∈ ws, (∀ c ∈ w, isBlank c = false) ∧ w ≠ []) :
    EndsSolid (join " " ws) := by
  induction ws with
  | nil => exact fun c hc => nomatch hc
  | cons w ws ih =>
    obtain ⟨own, others⟩ := List.forall_mem_cons.mp solid
    cases ws with
    | nil =>
      rw [join_singleton]
      exact fun c hc => own.1 c (List.mem_of_getLast? hc)
    | cons v ws =>
      have nonempty : v ≠ [] := (others v List.mem_cons_self).2
      obtain ⟨c, v', rfl⟩ := List.exists_cons_of_ne_nil nonempty
      have some : join " " ((c :: v') :: ws) ≠ [] := by
        rw [join_cons_char]
        exact List.cons_ne_nil _ _
      rw [join_space_cons_cons, ← List.singleton_append, ← List.append_assoc]
      exact (ih others).append some _

theorem endsSolid_collapse (t : Text) : EndsSolid (collapse t) :=
  endsSolid_join fun _ hw => solid_of_mem_words hw

theorem endsSolid_trim (t : Text) : EndsSolid (trim t) := (isTrim_trim t).ends

theorem Break.getLast? {newline : Text} (h : Break newline) : newline.getLast? = some '\n' := by
  cases h <;> rfl

end Text

namespace Layout

open Document (Node Element)
open Text (EndsSolid)

variable {source : Text} {depth : Nat}

theorem endsSolid_startTag (e : Element) (name : Text) : EndsSolid (startTag e name) :=
  Text.endsSolid_concat _ rfl

theorem endsSolid_append_endTag (front name : Text) : EndsSolid (front ++ endTag name) := by
  rw [endTag, ← List.append_assoc]
  exact Text.endsSolid_concat _ rfl

section Content

variable {P : Line → Prop} {run rest : List (Node × List Line)}

theorem forall_runLines (shared : ∀ t, P ⟨depth, Text.collapse t⟩)
    (own : ∀ pair ∈ run, ∀ l ∈ pair.2, P l) : ∀ l ∈ runLines source depth run, P l := by
  intro l hl
  unfold runLines at hl
  split at hl
  · split at hl
    · rw [List.mem_singleton.mp hl]
      exact shared _
    · obtain ⟨pair, hp, hl⟩ := List.mem_flatMap.mp hl
      exact own pair hp l hl
  · cases hl

theorem forall_blockLines (shared : ∀ t, P ⟨depth, Text.collapse t⟩)
    (ran : ∀ pair ∈ run, ∀ l ∈ pair.2, P l) (own : ∀ pair ∈ rest, ∀ l ∈ pair.2, P l) :
    ∀ l ∈ blockLines source depth run rest, P l := by
  induction rest generalizing run with
  | nil => exact forall_runLines shared ran
  | cons pair rest ih =>
    obtain ⟨n, lines⟩ := pair
    obtain ⟨here, behind⟩ := List.forall_mem_cons.mp own
    unfold blockLines
    split
    · refine ih (List.forall_mem_append.mpr ⟨ran, ?_⟩) behind
      exact List.forall_mem_singleton.mpr here
    · intro l hl
      rcases List.mem_append.mp hl with hl | hl
      · rcases List.mem_append.mp hl with hl | hl
        · exact forall_runLines shared ran l hl
        · exact here l hl
      · exact ih (List.forall_mem_nil _) behind l hl

end Content

mutual

theorem endsSolid_nodeLines (source : Text) (depth : Nat) :
    ∀ n : Node, ∀ l ∈ nodeLines source depth n, EndsSolid l.text
  | .leaf kind span => by
    intro l hl
    cases kind with
    | text =>
      rw [List.mem_singleton.mp hl]
      exact Text.endsSolid_collapse _
    | rawText =>
      obtain ⟨line, mem, rfl⟩ := List.mem_map.mp hl
      obtain ⟨whole, -, rfl⟩ := List.mem_map.mp (List.mem_filter.mp mem).1
      exact Text.endsSolid_trim whole
    | comment =>
      rw [List.mem_singleton.mp hl]
      exact Text.endsSolid_trim _
    | doctype =>
      rw [List.mem_singleton.mp hl]
      exact Text.endsSolid_trim _
  | .element e children => by
    intro l hl
    have opening : EndsSolid (startTag e (e.name.getD [])) := endsSolid_startTag e _
    have closing : EndsSolid (endTag (e.name.getD [])) := endsSolid_append_endTag [] _
    unfold nodeLines at hl
    dsimp only at hl
    -- Every line of the element's own is a tag or ends with one.
    split at hl
    · rw [List.mem_singleton.mp hl]
      exact opening
    · split at hl
      · rw [List.mem_singleton.mp hl]
        exact endsSolid_append_endTag _ _
      · split at hl
        · rw [List.mem_singleton.mp hl]
          exact endsSolid_append_endTag _ _
        · rcases List.mem_cons.mp hl with rfl | hl
          · exact opening
          rcases List.mem_append.mp hl with hl | hl
          · refine forall_blockLines (P := fun l => EndsSolid l.text) (fun t => ?_)
              (List.forall_mem_nil _) ?_ l hl
            · exact Text.endsSolid_collapse t
            · exact endsSolid_eachLines source _ children
          · rw [List.mem_singleton.mp hl]
            exact closing

theorem endsSolid_eachLines (source : Text) (depth : Nat) :
    ∀ ns : List Node, ∀ pair ∈ eachLines source depth ns, ∀ l ∈ pair.2, EndsSolid l.text
  | [] => by
    intro pair hp
    cases hp
  | n :: rest => by
    intro pair hp
    rcases List.mem_cons.mp hp with rfl | hp
    · exact endsSolid_nodeLines source depth n
    · exact endsSolid_eachLines source depth rest pair hp

end

theorem endsSolid_lines (d : Document) : ∀ l ∈ lines d, EndsSolid l.text := by
  intro l hl
  obtain ⟨pair, hp, hl⟩ := List.mem_flatMap.mp hl
  exact endsSolid_eachLines d.source 0 d.roots pair hp l hl

theorem getLast?_render_ne (o : Options) {newline : Text} (h : Text.Break newline)
    (ls : List Line) : (ls.flatMap (Line.render o newline)).getLast? ≠ some '\r' := by
  rcases List.eq_nil_or_concat ls with rfl | ⟨before, l, rfl⟩
  · exact fun last => nomatch last
  · rw [List.concat_eq_append, List.flatMap_append, List.flatMap_singleton, Line.render,
      ← List.append_assoc, List.getLast?_append_of_ne_nil _ h.ne_nil, h.getLast?]
    decide

/-- A layout has no lines, or ends with a line break that is preceded by no carriage return. -/
theorem render_eq (d : Document) (o : Options) :
    render d o = [] ∨ ∃ front, render d o = front ++ o.lineEnding.resolve d.source ∧
      front.getLast? ≠ some '\r' := by
  have newline : Text.Break (o.lineEnding.resolve d.source) := break_resolve _ _
  have solid := endsSolid_lines d
  rw [render]
  rcases List.eq_nil_or_concat (lines d) with none | ⟨before, l, eq⟩
  · rw [none]
    exact .inl rfl
  · rw [eq, List.concat_eq_append] at solid ⊢
    have own : EndsSolid l.text := solid l (List.mem_append_right _ (List.mem_singleton_self l))
    refine .inr ⟨before.flatMap (Line.render o (o.lineEnding.resolve d.source)) ++
      (Text.indent o.indent l.depth ++ l.text), ?_, fun last => ?_⟩
    · simp only [List.flatMap_append, List.flatMap_singleton, Line.render, List.append_assoc]
    -- The last character is one of the text, of the indent or of the line break above.
    · rw [List.getLast?_append, List.getLast?_append, Option.or_eq_some_iff,
        Option.or_eq_some_iff] at last
      rcases last with (last | ⟨-, last⟩) | ⟨-, last⟩
      · exact own.getLast?_ne last
      · have space : '\r' = ' ' := List.eq_of_mem_replicate (List.mem_of_getLast? last)
        cases space
      · exact getLast?_render_ne o newline before last

theorem withoutTerminator_append {front newline : Text} (h : Text.Break newline)
    (bare : front.getLast? ≠ some '\r') : withoutTerminator (front ++ newline) = front := by
  cases h with
  | crlf =>
    have found : Text.before? "\r\n" (front ++ "\r\n") = some front := Text.before?_eq_some.mpr rfl
    rw [withoutTerminator, found]
    rfl
  | lf =>
    have found : Text.before? "\n" (front ++ "\n") = some front := Text.before?_eq_some.mpr rfl
    have none : Text.before? "\r\n" (front ++ "\n") = none := by
      refine Option.eq_none_iff_forall_ne_some.mpr fun shorter both => ?_
      have split : front ++ ['\n'] = (shorter ++ ['\r']) ++ ['\n'] := by
        rw [List.append_assoc]
        exact Text.before?_eq_some.mp both
      have before : front = shorter ++ ['\r'] := List.append_cancel_right split
      rw [before, List.getLast?_concat] at bare
      exact bare rfl
    rw [withoutTerminator, none, found]
    rfl

theorem isCanonical_render {d : Document} {o : Options} {source : Text} :
    isCanonical source (render d o) = true ↔
      render d o = source ++ o.lineEnding.resolve d.source ∨ render d o = [] ∧ source = [] := by
  have newline : Text.Break (o.lineEnding.resolve d.source) := break_resolve _ _
  rw [isCanonical, beq_iff_eq]
  rcases render_eq d o with none | ⟨front, eq, bare⟩
  · rw [none]
    have empty : withoutTerminator [] = [] := rfl
    rw [empty]
    constructor
    · rintro rfl
      exact .inr ⟨rfl, rfl⟩
    · rintro (eq | ⟨-, rfl⟩)
      · exact (List.append_eq_nil_iff.mp eq.symm).1
      · rfl
  · rw [eq, withoutTerminator_append newline bare, List.append_left_inj]
    constructor
    · rintro rfl
      exact .inl rfl
    · rintro (rfl | ⟨none, -⟩)
      · rfl
      · exact absurd (List.append_eq_nil_iff.mp none).2 newline.ne_nil

end Layout
end MarkupGrader
