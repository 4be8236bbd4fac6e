import MarkupGrader.Proofs.Layout.Again

/-! Laying out a page that was laid out. By induction over its items each is laid out as it was, in the
same shape and with the same lines. -/

namespace MarkupGrader

namespace Markup

theorem Tag.opening_printed (t : Tag) : t.printed.opening = t.opening := by
  rw [opening, opening, t.elementName_printed, t.attributes_printed]

namespace Item

variable {sep : Nat → Text} {depth : Nat} {tag : Tag} {content items : List Item} {closing : Closing}

theorem soleRaw?_of_forall (raw : ∀ t, leaf (.raw t) ∉ items) : soleRaw? items = none := by
  cases sole : soleRaw? items with
  | none => rfl
  | some text =>
    obtain ⟨front, t, back, rfl, -, -, kind, -⟩ := Layout.soleRaw?_eq_some sole
    cases t with
    | raw t => exact absurd (by simp) (raw t)
    | filler f => cases f <;> cases kind
    | _ => cases kind

theorem inlineContent?_of_none (none : soleRaw? content = none) :
    inlineContent? content =
      if allInline content && anyText content then some (Text.collapse (sources content))
      else Option.none := by
  rw [inlineContent?, none]

theorem shape_congr (gaps : items.all isGap = content.all isGap)
    (same : inlineContent? items = inlineContent? content) : shape tag items = shape tag content := by
  rw [shape, shape, gaps, same]

theorem shape_eq_block : shape tag content = .block ↔
    ElementClass.isVoid tag.elementName = false ∧ content.all isGap = false ∧
      (ElementClass.structurals.contains tag.elementName = true ∨ inlineContent? content = none) := by
  rw [shape]
  cases ElementClass.isVoid tag.elementName with
  | true => simp
  | false =>
    cases content.all isGap with
    | true => simp
    | false =>
      cases ElementClass.structurals.contains tag.elementName with
      | true => simp
      | false => cases inlineContent? content <;> simp

theorem shape_nil (kind : shape tag content = .empty) : shape tag [] = .empty := by
  rw [shape] at kind ⊢
  split at kind
  · cases kind
  · next solid =>
    rw [if_neg solid]
    rfl

theorem shape_printed (tag : Tag) (content : List Item) :
    shape tag.printed content = shape tag content := by
  rw [shape, shape, tag.elementName_printed]

theorem lines_printed (tag : Tag) (content : List Item) (closing closing' : Closing) (depth : Nat) :
    (element tag.printed content closing').lines depth =
      (element tag content closing).lines depth := by
  have inner : innerDepth tag.printed depth = innerDepth tag depth := by
    rw [innerDepth, innerDepth, tag.elementName_printed]
  rw [lines, lines, shape_printed, tag.opening_printed, tag.elementName_printed, inner]

theorem lines_of_block (kind : shape tag content = .block) (closing : Closing) (depth : Nat) :
    (element tag content closing).lines depth =
      ⟨depth, tag.opening⟩ :: (block (innerDepth tag depth) content ++
        [⟨depth, Layout.endTag tag.elementName⟩]) := by
  rw [lines, kind]
  rfl

theorem replaces_element {inner : List Item} {closing' : Closing}
    (inline : ElementClass.inlines.contains tag.elementName = true →
      allInline inner = allInline content)
    (text : allInline content = true → anyText content = false → anyText inner = false) :
    Replaces [element tag.printed inner closing'] [element tag content closing] := by
  refine replaces_singleton ?_ ?_ rfl fun t eq => by cases eq
  · rw [isInline, isInline, tag.elementName_printed]
    cases may : ElementClass.inlines.contains tag.elementName with
    | true => rw [inline may]
    | false => rfl
  · intro own none
    rw [isInline, Bool.and_eq_true] at own
    exact text own.2 none

theorem Replaces.element {inner : List Item} {closing' : Closing} (replaces : Replaces inner content) :
    Replaces [element tag.printed inner closing'] [element tag content closing] :=
  replaces_element (fun _ => replaces.inline) replaces.text

theorem relaid_element
    (each : ∀ depth, ∃ body closing', (element tag content closing).reprint sep depth =
        [lineBreak sep depth, element tag.printed body closing'] ∧
      Replaces [element tag.printed (absorbAll (settled body)) closing']
        [element tag content closing] ∧
      (element tag (absorbAll (settled body)) closing).lines depth =
        (element tag content closing).lines depth) :
    Relaid sep (element tag content closing) := by
  constructor
  · intro depth
    obtain ⟨body, closing', eq, replaces, -⟩ := each depth
    rw [eq]
    exact (replaces_lineBreak depth).append replaces
  · intro depth
    obtain ⟨body, closing', eq, -, same⟩ := each depth
    rw [eq, ← same, ← lines_printed tag _ closing closing']
    exact List.append_nil _

theorem replaces_gap {i : Item} (gap : i.isGap = true) : Replaces [] [i] where
  inline := (allInline_singleton i).trans (isInline_of_isGap gap) |>.symm
  text _ _ := rfl
  gaps := by rw [List.all_cons, gap]; rfl
  raw _ mem := by cases mem

theorem relaid_leaf {t : Token} (reads : ∃ r, t.Reads r) : Relaid sep (leaf t) := by
  have kind : t.reprinted.leafKind? = t.leafKind? := by
    cases t with
    | filler f => rfl
    | _ => rfl
  have text : (leaf t.reprinted).hasText = (leaf t).hasText := by
    cases t with
    | text t => exact hasText_leaf_squeeze (.text t)
    | filler f => rfl
    | _ => rfl
  have same (depth : Nat) : t.reprinted.lines depth = t.lines depth := by
    cases t with
    | filler f => rfl
    | text t =>
      have line (u : Text) : (Token.text u).lines depth = [⟨depth, Text.collapse u⟩] := rfl
      have squeezed : (Token.text t).reprinted = .text (Text.squeeze t) := rfl
      rw [squeezed, line, line, Text.collapse_squeeze]
    | _ => rfl
  have raw : ∀ u, leaf t.reprinted ≠ leaf (.raw u) := by
    rintro u eq
    cases t with
    | raw t => exact reads.elim fun _ h => h
    | filler f => cases eq
    | _ => cases eq
  have own : Replaces [leaf t.reprinted] [leaf t] :=
    replaces_singleton (by rw [isInline, isInline, kind]) (fun _ none => text.trans none)
      (by rw [isGap, isGap, kind]) raw
  have written (depth : Nat) : t.leafKind?.isNone = true ∧ (leaf t).reprint sep depth = [] ∨
      (leaf t).reprint sep depth = [lineBreak sep depth, leaf t.reprinted] := by
    rw [reprint]
    cases gap : t.leafKind?.isNone with
    | true => exact .inl ⟨rfl, rfl⟩
    | false => exact .inr rfl
  constructor
  · intro depth
    rcases written depth with ⟨gap, eq⟩ | eq
    · rw [eq]
      exact replaces_gap gap
    · rw [eq]
      exact (replaces_lineBreak depth).append own
  · intro depth
    rcases written depth with ⟨gap, eq⟩ | eq
    · rw [eq]
      exact (lines_of_isGap gap depth).symm
    · rw [eq]
      exact (List.append_nil _).trans (same depth)

/-- Raw text that is cut into lines is cut into the same lines again. -/
def CutsAgain (sep : Nat → Text) : Prop := ∀ inner depth raw, '\n' ∈ Text.trim raw →
  '\n' ∈ Text.trim (rawBlock sep inner depth raw) ∧
    Text.solidLines (rawBlock sep inner depth raw) = Text.solidLines raw

theorem cutsAgain_breakBefore (o : Layout.Options) {newline : Text} (h : Text.Break newline) :
    CutsAgain (Layout.breakBefore o newline) := by
  intro inner depth raw several
  have spaces (depth : Nat) : Text.IsBlankText (Text.indent o.indent depth) ∧
      '\n' ∉ Text.indent o.indent depth :=
    ⟨Text.isBlankText_replicate _, fun mem => by cases List.eq_of_mem_replicate mem⟩
  have writes : Text.Writes newline (Text.indent o.indent inner) (Text.indent o.indent depth)
      (Text.solidLines raw) := by
    refine ⟨h, spaces inner, spaces depth, fun l hl => ?_⟩
    obtain ⟨nonempty, free, trimmed, -⟩ := Text.exists_of_mem_solidLines hl
    exact ⟨nonempty, free, trimmed⟩
  exact ⟨writes.newline_mem_trim (Text.two_le_of_newline_mem_trim several), writes.solidLines_eq⟩

theorem block_raw (depth : Nat) (t : Text) :
    block depth [leaf (.raw t)] = (Text.solidLines t).map (⟨depth, ·⟩) := by
  have own : isInline (leaf (.raw t)) = false := rfl
  exact (@block_append_cons depth [] rfl _ own []).trans (List.append_nil _)

theorem relaid_raw (cuts : CutsAgain sep) {raw : Text} {e : EndTag}
    (key : isRawKey tag.key = true) :
    Relaid sep (element tag [leaf (.raw raw)] (.endTag e)) := by
  refine relaid_element fun depth => ⟨[leaf (.raw (reprintedRaw sep tag depth raw))],
    .endTag tag.printedEnd, ?_, ?_, ?_⟩
  · rw [reprint_raw key]
  · exact replaces_element (fun _ => rfl) fun inline => by cases inline
  · have alone (t : Text) : absorbAll (settled [leaf (.raw t)]) = [leaf (.raw t)] := rfl
    rw [alone, reprintedRaw]
    split
    · next several =>
      obtain ⟨breaks, same⟩ := cuts (innerDepth tag depth) depth raw several
      have block_ {t : Text} (breaks : '\n' ∈ Text.trim t) : shape tag [leaf (.raw t)] = .block := by
        rw [shape_raw key, if_pos breaks]
      rw [lines_of_block (block_ breaks), lines_of_block (block_ several), block_raw, block_raw, same]
    · next line =>
      have same : Text.trim (Text.trim raw) = Text.trim raw := (Text.isTrim_trim raw).trim
      rw [lines, lines, shape_raw key, shape_raw key, same, if_neg line]

theorem replaces_inline {text : Text} (regular : ∀ i ∈ content, i.Regular)
    (sheltered : Sheltered false content) (reads : ∃ r, AllRead r (tokensOf content))
    (spaced : Text.Spaced (sources content)) (kind : shape tag content = .inline text) :
    Replaces (absorbAll (settled (copy content))) content ∧
      shape tag (absorbAll (settled (copy content))) = .inline text := by
  have none := soleRaw?_of_regular regular
  obtain ⟨rfl, inline, hasText⟩ := inline_of_shape none kind
  have closed : Stands false [] := fun _ _ _ eq => by cases eq
  have absorbs := (passes_copy regular spaced inline sheltered [] closed).1
  have replaces := (replaces_copy regular spaced inline hasText).absorbAll absorbs
  have source : sources (absorbAll (settled (copy content))) = Text.collapse (sources content) :=
    (sources_absorbAll _).trans ((sources_settled _).trans (copy_reads regular inline reads spaced).1)
  have text : anyText (absorbAll (settled (copy content))) = true :=
    (anyText_absorbAll _).trans ((anyText_copy content).trans hasText)
  refine ⟨replaces, ?_⟩
  rw [← kind]
  refine shape_congr replaces.gaps ?_
  rw [inlineContent?_of_none (soleRaw?_of_forall replaces.raw), inlineContent?_of_none none,
    replaces.inline, text, hasText, source, Text.collapse_collapse]

theorem shape_of_replaces (replaces : Replaces items content) (none : soleRaw? content = none)
    (kind : shape tag content = .block) : shape tag items = .block := by
  obtain ⟨solid, visible, apart⟩ := shape_eq_block.mp kind
  refine shape_eq_block.mpr ⟨solid, replaces.gaps.trans visible, apart.imp_right fun apart => ?_⟩
  rw [inlineContent?_of_none none] at apart
  rw [inlineContent?_of_none (soleRaw?_of_forall replaces.raw), replaces.inline]
  cases inline : allInline content with
  | false => rfl
  | true =>
    cases text : anyText content with
    | true =>
      rw [inline, text] at apart
      cases apart
    | false => rw [replaces.text inline text]; rfl

theorem replaces_block (breaks : Breaks sep) (rows : ∀ row ∈ rowsOf content, row.Spaced)
    (steady : ∀ i ∈ content, i.isSteady = true) (sheltered : Sheltered false content)
    (relaid : ∀ i ∈ content, i.Relaid sep) (inner depth : Nat) :
    let again := absorbAll (settled (written sep inner content ++ [lineBreak sep depth]))
    Replaces again content ∧ block inner again = block inner content := by
  intro again
  have absorbs := absorbs_block breaks rows steady sheltered inner depth
  have last : Replaces (settled [lineBreak sep depth]) [] := replaces_lineBreak depth
  have replaces := (@replaces_written sep inner content rows relaid).append last
  rw [← settled_append, List.append_nil] at replaces
  refine ⟨replaces.absorbAll absorbs, (block_absorbAll absorbs).trans ?_⟩
  rw [settled_append]
  exact block_written breaks rows relaid depth

theorem relaid_of_regular (breaks : Breaks sep) (cuts : CutsAgain sep) {i : Item}
    (regular : i.Regular) (spaced : Text.Spaced i.source) (steady : i.isSteady = true) :
    i.Relaid sep := by
  induction regular with
  | leaf _ reads _ => exact relaid_leaf reads
  | raw _ key _ _ _ _ => exact relaid_raw cuts key
  | @element tag content closing own key regular reads settled_ _ _ _ ih =>
    obtain ⟨bare, keeps, steady⟩ := isSteady_element.mp steady
    have none := soleRaw?_of_regular regular
    have sheltered : Sheltered false content :=
      sheltered_of_settled regular settled_ fun open_ => by cases open_
    have within := spaced.of_subset sources_subset
    have relaid : ∀ i ∈ content, i.Relaid sep := fun i hi =>
      ih i hi (within.of_subset (source_subset hi)) (steady i hi)
    refine relaid_element fun depth => ⟨_, _, by rw [reprint], ?_⟩
    cases kind : shape tag content with
    | bare =>
      have void := isVoid_of_shape kind
      rw [body_bare kind]
      refine ⟨replaces_element (fun may => ?_) fun _ _ => rfl, ?_⟩
      · rw [keepsRow, void, may] at keeps
        exact keeps.symm
      · rw [lines_of_void void, lines_of_void void]
    | empty =>
      have gaps := all_isGap_of_shape kind
      have empty : absorbAll (settled []) = [] := rfl
      rw [body_empty kind, empty]
      refine ⟨replaces_element (fun _ => (allInline_of_gaps gaps).symm) fun _ _ => rfl, ?_⟩
      rw [lines, lines, kind, shape_nil kind]
    | inline text =>
      obtain ⟨replaces, same⟩ := replaces_inline regular sheltered reads within kind
      rw [body_inline kind none]
      refine ⟨replaces.element, ?_⟩
      rw [lines, lines, kind, same]
    | block =>
      have rows := spaced_rows regular reads within
      rw [body_block kind none, ← written]
      obtain ⟨replaces, same⟩ :=
        replaces_block breaks rows steady sheltered relaid (innerDepth tag depth) depth
      refine ⟨replaces.element, ?_⟩
      rw [lines_of_block (shape_of_replaces replaces none kind), lines_of_block kind]
      exact congrArg (fun ls => _ :: (ls ++ _)) same

/-- The roots of a page are laid out as they were. -/
theorem lines_again (breaks : Breaks sep) (cuts : CutsAgain sep) {tail : List Item}
    (regular : ∀ i ∈ items, i.Regular) (spaced : Text.Spaced (sources items))
    (settled_ : Settled items) (steady : ∀ i ∈ items, i.isSteady = true) (ends : IsTail sep tail) :
    (again sep items tail).flatMap (·.lines 0) = items.flatMap (·.lines 0) := by
  have sheltered : Sheltered false items :=
    sheltered_of_settled regular settled_ fun open_ => by cases open_
  have last : Passes TakesIdle (openAfter false items) (settled tail) (openAfter false items) := by
    rcases ends with rfl | rfl
    · exact passes_lineBreak breaks 0
    · exact passes_nil
  have passes := (passes_reprints breaks steady sheltered 0).append last
  rw [← settled_append] at passes
  have absorbs := (passes [] fun _ _ _ eq => (nomatch eq)).1
  -- White space has no lines, in a void element or behind it.
  have roots : (absorbAll (settled (items.flatMap (reprint sep 0) ++ tail))).flatMap (·.lines 0) =
      (settled (items.flatMap (reprint sep 0) ++ tail)).flatMap (·.lines 0) := by
    refine absorbAll_eq_of_absorbs (f := List.flatMap (·.lines 0)) ?_ absorbs
    intro front tag content t back idle
    simp only [List.flatMap_append, List.flatMap_cons, lines_of_void idle.void,
      lines_of_isGap idle.gap, List.nil_append]
  have each : (settled (items.flatMap (reprint sep 0))).flatMap (·.lines 0) =
      items.flatMap (·.lines 0) := by
    rw [settled_flatMap, List.flatMap_assoc]
    exact List.flatMap_congr fun i hi =>
      (relaid_of_regular breaks cuts (regular i hi) (spaced.of_subset (source_subset hi))
        (steady i hi)).lines 0
  have none : (settled tail).flatMap (·.lines 0) = [] := by
    rcases ends with rfl | rfl <;> rfl
  have whole : (settled (items.flatMap (reprint sep 0) ++ tail)).flatMap (·.lines 0) =
      items.flatMap (·.lines 0) := by
    rw [settled_append, List.flatMap_append, each, none, List.append_nil]
  rw [whole] at roots
  rcases again_eq items ends with ⟨empty, nothing⟩ | some
  · rw [← roots, empty, nothing]
    rfl
  · rw [← roots, some]
    rfl

end Item
end Markup
end MarkupGrader
