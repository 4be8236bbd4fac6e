import MarkupGrader.Proofs.Layout.Copied
import MarkupGrader.Proofs.Text.SolidLines

/-! Laying out a layout. What is written of an item is laid out as the item is: a row that is copied
makes the same line again, and what has lines of its own is kept apart from the rows around it. -/

namespace MarkupGrader

open Text (IsBlankText)

namespace Markup.Item

variable {sep : Nat → Text} {depth : Nat}

structure Replaces (items others : List Item) : Prop where
  inline : allInline items = allInline others
  text : allInline others = true → anyText others = false → anyText items = false
  gaps : items.all isGap = others.all isGap
  raw : ∀ t, leaf (.raw t) ∉ items

theorem replaces_nil : Replaces [] [] := ⟨rfl, fun _ _ => rfl, rfl, by simp⟩

theorem Replaces.append {a b c d : List Item} (h : Replaces a b) (h' : Replaces c d) :
    Replaces (a ++ c) (b ++ d) where
  inline := by rw [allInline_append, allInline_append, h.inline, h'.inline]
  text inline none := by
    rw [allInline_append, Bool.and_eq_true] at inline
    rw [anyText_append, Bool.or_eq_false_iff] at none
    rw [anyText_append, h.text inline.1 none.1, h'.text inline.2 none.2]
    rfl
  gaps := by rw [List.all_append, List.all_append, h.gaps, h'.gaps]
  raw t mem := (List.mem_append.mp mem).elim (h.raw t) (h'.raw t)

theorem replaces_lineBreak (depth : Nat) : Replaces [lineBreak sep depth] [] :=
  ⟨rfl, fun _ _ => rfl, rfl, fun t mem => by cases List.mem_singleton.mp mem⟩

theorem replaces_singleton {i j : Item} (inline : j.isInline = i.isInline)
    (text : i.isInline = true → i.hasText = false → j.hasText = false)
    (gaps : j.isGap = i.isGap) (raw : ∀ t, j ≠ leaf (.raw t)) : Replaces [j] [i] where
  inline := by rw [allInline_singleton, allInline_singleton, inline]
  text inline none := by
    rw [allInline_singleton] at inline
    rw [anyText_singleton] at none ⊢
    exact text inline none
  gaps := by rw [List.all_cons, List.all_cons, gaps]
  raw t mem := raw t (List.mem_singleton.mp mem).symm

theorem replaces_flatMap {α : Type} {f g : α → List Item} {as : List α}
    (each : ∀ a ∈ as, Replaces (f a) (g a)) : Replaces (as.flatMap f) (as.flatMap g) := by
  induction as with
  | nil => exact replaces_nil
  | cons a as ih =>
    obtain ⟨own, others⟩ := List.forall_mem_cons.mp each
    exact own.append (ih others)

theorem leaf_mem_absorbAll {items : List Item} {t : Token} (h : leaf t ∈ absorbAll items) :
    leaf t ∈ items := by
  have each : ∀ before : List Item, leaf t ∈ items.foldl push before →
      leaf t ∈ before ∨ leaf t ∈ items := by
    clear h
    induction items with
    | nil => exact fun _ h => .inl h
    | cons i items ih =>
      intro before h
      rcases ih _ h with first | behind
      · unfold push at first
        split at first
        · rcases List.mem_cons.mp first with eq | mem
          · cases eq
          · exact .inl (List.mem_cons_of_mem _ mem)
        · rcases List.mem_cons.mp first with rfl | mem
          · exact .inr List.mem_cons_self
          · exact .inl mem
      · exact .inr (List.mem_cons_of_mem _ behind)
  exact (each [] (List.mem_reverse.mp h)).resolve_left List.not_mem_nil

theorem Replaces.absorbAll {items others : List Item} (h : Replaces items others)
    (absorbs : Absorbs Fades [] items) : Replaces (absorbAll items) others where
  inline := (allInline_absorbAll absorbs).trans h.inline
  text inline none := (anyText_absorbAll items).trans (h.text inline none)
  gaps := (all_isGap_absorbAll items).trans h.gaps
  raw t mem := h.raw t (leaf_mem_absorbAll mem)

/-- What is written of the item is laid out as it is. -/
structure Relaid (sep : Nat → Text) (i : Item) : Prop where
  replaces : ∀ depth, Replaces (settled (i.reprint sep depth)) [i]
  lines : ∀ depth, (settled (i.reprint sep depth)).flatMap (·.lines depth) = i.lines depth

theorem replaces_copy {run : List Item} (regular : ∀ i ∈ run, i.Regular)
    (spaced : Text.Spaced (sources run)) (inline : allInline run = true) (text : anyText run = true) :
    Replaces (settled (copy run)) run where
  inline := (allInline_copy regular spaced inline).trans inline.symm
  text _ none := by rw [text] at none; cases none
  gaps := by
    have visible {items : List Item} (text : anyText items = true) : items.all isGap = false := by
      rw [← Bool.not_eq_true]
      intro gaps
      rw [anyText_of_gaps gaps] at text
      cases text
    rw [visible text, visible ((anyText_copy run).trans text)]
  raw t mem := by cases (copied_of_mem regular spaced inline _ mem).inline

def written (sep : Nat → Text) (depth : Nat) (content : List Item) : List Item :=
  (rowsOf content).flatMap fun row => (row.map (reprint sep depth)).reprinted sep depth

theorem settled_flatMap {α : Type} (f : α → List Item) (as : List α) :
    settled (as.flatMap f) = as.flatMap fun a => settled (f a) := by
  rw [settled_eq_map, List.map_flatMap]
  exact List.flatMap_congr fun a _ => (settled_eq_map _).symm

theorem replaces_row {row : Row Item} (spaced : row.Spaced) (relaid : ∀ i ∈ row.items, i.Relaid sep) :
    Replaces (settled ((row.map (reprint sep depth)).reprinted sep depth)) row.items := by
  cases row with
  | alone i => exact (relaid i (List.mem_singleton_self i)).replaces depth
  | shared run =>
    obtain ⟨own, spaced⟩ := spaced
    exact (replaces_lineBreak depth).append (replaces_copy own.regular spaced own.inline own.text)

theorem replaces_written {content : List Item} (spaced : ∀ row ∈ rowsOf content, row.Spaced)
    (relaid : ∀ i ∈ content, i.Relaid sep) :
    Replaces (settled (written sep depth content)) content := by
  have all := replaces_flatMap fun row hrow =>
    @replaces_row sep depth row (spaced row hrow) fun i hi => relaid i (mem_of_mem_rowsOf hrow hi)
  rwa [flatMap_items, ← settled_flatMap] at all

theorem passes_rows (breaks : Breaks sep) {o : Bool} {rows : List (Row Item)}
    (spaced : ∀ row ∈ rows, row.Spaced)
    (steady : ∀ i ∈ rows.flatMap Row.items, i.isSteady = true)
    (sheltered : Sheltered o (rows.flatMap Row.items)) :
    Passes Fades o
      (settled (rows.flatMap fun row => (row.map (reprint sep depth)).reprinted sep depth))
      (openAfter o (rows.flatMap Row.items)) := by
  induction rows generalizing o with
  | nil => exact passes_nil
  | cons row rows ih =>
    obtain ⟨⟨own, spaced⟩, others⟩ := List.forall_mem_cons.mp spaced
    rw [List.flatMap_cons, List.forall_mem_append] at steady
    rw [List.flatMap_cons, sheltered_append] at sheltered
    rw [List.flatMap_cons, List.flatMap_cons, settled_append, openAfter_append]
    refine .append ?_ (ih others steady.2 sheltered.2)
    cases row with
    | alone i =>
      exact (passes_reprint breaks (steady.1 i (List.mem_singleton_self i)) sheltered.1.1 depth).imp
        .inl
    | shared run =>
      exact ((passes_lineBreak breaks depth).imp .inl).append
        (passes_copy own.regular spaced own.inline sheltered.1)

theorem absorbs_block (breaks : Breaks sep) {content : List Item}
    (spaced : ∀ row ∈ rowsOf content, row.Spaced) (steady : ∀ i ∈ content, i.isSteady = true)
    (sheltered : Sheltered false content) (inner depth : Nat) :
    Absorbs Fades [] (settled (written sep inner content ++ [lineBreak sep depth])) := by
  rw [← flatMap_items content] at steady sheltered
  have rows := @passes_rows sep inner breaks _ _ spaced steady sheltered
  have last : Passes Fades (openAfter false ((rowsOf content).flatMap Row.items))
      [lineBreak sep depth] _ := (passes_lineBreak breaks depth).imp .inl
  rw [settled_append]
  exact ((rows.append last) [] fun _ _ _ none => (nomatch none)).1

theorem induction_runs {P : List Item → Prop} (run : ∀ run, allInline run = true → P run)
    (cons : ∀ run i more, allInline run = true → i.isInline = false → P more →
      P (run ++ i :: more)) (items : List Item) : P items := by
  obtain ⟨first, rest, rfl, inline, rfl | ⟨i, more, rfl, block⟩⟩ := exists_run items
  · rw [List.append_nil]
    exact run first inline
  · exact cons first i more inline block (induction_runs run cons more)
termination_by items.length
decreasing_by
  subst_vars
  simp only [List.length_append, List.length_cons]
  omega

def writtenRun (sep : Nat → Text) (depth : Nat) (run : List Item) : List Item :=
  if anyText run then lineBreak sep depth :: copy run else run.flatMap (reprint sep depth)

theorem rowsOf_of_inline {run : List Item} (inline : allInline run = true) :
    rowsOf run = flush (run.map fun i => (i, i)) := by
  have all := rows_of_inline (f := id) inline [] []
  rwa [List.append_nil, List.nil_append] at all

theorem rowsOf_append_cons {run : List Item} (inline : allInline run = true) {i : Item}
    (block : i.isInline = false) (rest : List Item) :
    rowsOf (run ++ i :: rest) = flush (run.map fun i => (i, i)) ++ .alone i :: rowsOf rest := by
  have all := rows_of_inline (f := id) inline [] ((i :: rest).map fun i => (i, i))
  rw [rowsOf, List.map_append]
  refine all.trans ?_
  rw [List.map_cons, rows, block, if_neg Bool.false_ne_true]
  rfl

theorem map_fst_pairs (run : List Item) : (run.map fun i => (i, i)).map Prod.fst = run := by
  rw [List.map_map]
  exact List.map_id run

theorem flatMap_flush_reprinted (run : List Item) :
    (flush (run.map fun i => (i, i))).flatMap
      (fun row => (row.map (reprint sep depth)).reprinted sep depth) = writtenRun sep depth run := by
  rw [flush, map_fst_pairs, writtenRun]
  split
  · exact List.append_nil _
  · rw [List.map_map, List.flatMap_map]
    rfl

theorem written_of_inline {run : List Item} (inline : allInline run = true) :
    written sep depth run = writtenRun sep depth run := by
  rw [written, rowsOf_of_inline inline, flatMap_flush_reprinted]

theorem written_append_cons {run : List Item} (inline : allInline run = true) {i : Item}
    (block : i.isInline = false) (rest : List Item) :
    written sep depth (run ++ i :: rest) =
      writtenRun sep depth run ++ (i.reprint sep depth ++ written sep depth rest) := by
  rw [written, rowsOf_append_cons inline block, List.flatMap_append, flatMap_flush_reprinted]
  rfl

theorem runLines_written (breaks : Breaks sep) {run : List Item} (inline : allInline run = true)
    (spaced : ∀ row ∈ rowsOf run, row.Spaced) (relaid : ∀ i ∈ run, i.Relaid sep)
    (depth' : Nat) :
    runLines depth (settled (writtenRun sep depth run) ++ [lineBreak sep depth']) =
      runLines depth run := by
  have blank (depth : Nat) : IsBlankText (sep depth) := fun c hc =>
    Text.isBlank_of_isSpace (breaks.spaces depth c hc)
  have replaces := @replaces_written sep depth run spaced relaid
  rw [written_of_inline inline] at replaces
  cases text : anyText run with
  | true =>
    have shared : rowsOf run = [.shared run] := by
      rw [rowsOf_of_inline inline, flush, map_fst_pairs, if_pos text]
    obtain ⟨own, spaced⟩ : Row.Spaced (.shared run) :=
      spaced _ (by rw [shared]; exact List.mem_singleton_self _)
    have copied : sources (settled (copy run)) = Text.collapse (sources run) :=
      (sources_settled _).trans (copy_reads own.regular own.inline own.reads spaced).1
    have shows : anyText (settled (writtenRun sep depth run) ++ [lineBreak sep depth']) = true := by
      rw [writtenRun, if_pos text, anyText_append, settled, anyText, anyText_copy, text, Bool.or_true,
        Bool.true_or]
    rw [runLines, if_pos shows, runLines, if_pos text, writtenRun, if_pos text, settled,
      List.cons_append, sources_cons, sources_append, copied, sources_cons, sources_nil,
      List.append_nil, source_settle, source_lineBreak, source_lineBreak,
      Text.collapse_around (blank depth) (blank depth'), Text.collapse_collapse]
  | false =>
    have none : anyText (settled (writtenRun sep depth run) ++ [lineBreak sep depth']) = false := by
      rw [anyText_append, replaces.text inline text]
      rfl
    have each : (settled (writtenRun sep depth run)).flatMap (·.lines depth) =
        run.flatMap (·.lines depth) := by
      rw [writtenRun, if_neg (by rw [text]; exact Bool.false_ne_true), settled_flatMap,
        List.flatMap_assoc]
      exact List.flatMap_congr fun i hi => (relaid i hi).lines depth
    rw [runLines, if_neg (by rw [none]; exact Bool.false_ne_true), runLines,
      if_neg (by rw [text]; exact Bool.false_ne_true), List.flatMap_append, each]
    exact List.append_nil _

theorem exists_block {i : Item} (relaid : i.Relaid sep) (block : i.isInline = false) (depth : Nat) :
    ∃ j, settled (i.reprint sep depth) = [lineBreak sep depth, j] ∧ j.isInline = false ∧
      j.lines depth = i.lines depth := by
  have inline := (relaid.replaces depth).inline
  have lines := relaid.lines depth
  rw [allInline_singleton, block] at inline
  rcases reprint_eq sep depth i with none | ⟨j, some⟩
  · rw [none] at inline
    cases inline
  · rw [some] at inline lines
    refine ⟨j.settle, by rw [some]; rfl, (Bool.and_true _).symm.trans inline, ?_⟩
    rw [← lines]
    exact (List.append_nil _).symm

/-- What is written of a content makes the lines of the content. -/
theorem block_written (breaks : Breaks sep) {content : List Item}
    (spaced : ∀ row ∈ rowsOf content, row.Spaced) (relaid : ∀ i ∈ content, i.Relaid sep)
    (depth' : Nat) :
    block depth (settled (written sep depth content) ++ [lineBreak sep depth']) =
      block depth content := by
  induction content using induction_runs with
  | run run inline =>
    have replaces := @replaces_written sep depth run spaced relaid
    have all : allInline (settled (written sep depth run) ++ [lineBreak sep depth']) = true := by
      rw [allInline_append, replaces.inline, inline]
      rfl
    rw [block_of_inline all, block_of_inline inline, written_of_inline inline,
      runLines_written breaks inline spaced relaid]
  | cons run i more inline block_ ih =>
    rw [rowsOf_append_cons inline block_, List.forall_mem_append, List.forall_mem_cons] at spaced
    rw [List.forall_mem_append, List.forall_mem_cons] at relaid
    have first : ∀ row ∈ rowsOf run, row.Spaced := by
      rw [rowsOf_of_inline inline]
      exact spaced.1
    have replaces := @replaces_written sep depth run first relaid.1
    obtain ⟨j, split, own, lines⟩ := exists_block relaid.2.1 block_ depth
    rw [written_of_inline inline] at replaces
    have all : allInline (settled (writtenRun sep depth run) ++ [lineBreak sep depth]) = true := by
      rw [allInline_append, replaces.inline, inline]
      rfl
    have whole : settled (written sep depth (run ++ i :: more)) ++ [lineBreak sep depth'] =
        (settled (writtenRun sep depth run) ++ [lineBreak sep depth]) ++
          j :: (settled (written sep depth more) ++ [lineBreak sep depth']) := by
      rw [written_append_cons inline block_, settled_append, settled_append, split]
      simp only [List.append_assoc, List.cons_append, List.nil_append]
    rw [whole, block_append_cons all own, block_append_cons inline block_,
      runLines_written breaks inline first relaid.1, lines, ih spaced.2.2 relaid.2.2]

end Markup.Item
end MarkupGrader
