import MarkupGrader.Layout
import MarkupGrader.Proofs.Document.Items

/-! The rows into which the content of a block is cut. Inline items that stand in a row and have text
among them share a line, and all others have lines of their own. White space counts as inline here,
for it never shows at the ends of a line. -/

namespace MarkupGrader.Markup.Item

def isGap : Item → Bool
  | leaf t => t.leafKind?.isNone
  | element _ _ _ => false

mutual

def isInline : Item → Bool
  | leaf t => t.leafKind?.all (· == .text)
  | element tag content _ =>
    ElementClass.inlines.contains tag.elementName && allInline content

def allInline : List Item → Bool
  | [] => true
  | i :: rest => i.isInline && allInline rest

end

mutual

def hasText : Item → Bool
  | leaf t => t.leafKind? == some .text && !(Text.trim t.source).isEmpty
  | element _ content _ => anyText content

def anyText : List Item → Bool
  | [] => false
  | i :: rest => i.hasText || anyText rest

end

theorem allInline_eq_all (items : List Item) : allInline items = items.all isInline := by
  induction items with
  | nil => rfl
  | cons i items ih => rw [allInline, ih, List.all_cons]

theorem anyText_eq_any (items : List Item) : anyText items = items.any hasText := by
  induction items with
  | nil => rfl
  | cons i items ih => rw [anyText, ih, List.any_cons]

theorem isInline_of_isGap {i : Item} (gap : i.isGap = true) : i.isInline = true := by
  cases i with
  | leaf t =>
    have none : t.leafKind? = none := by simpa [isGap] using gap
    rw [isInline, none]
    rfl
  | element => cases gap

/-- A row of a block, with what is made of the items that stand alone. -/
inductive Row (α : Type)
  | shared (run : List Item)
  | alone (a : α)

namespace Row

variable {α β : Type}

def map (f : α → β) : Row α → Row β
  | shared run => shared run
  | alone a => alone (f a)

def items : Row Item → List Item
  | shared run => run
  | alone i => [i]

end Row

variable {α β : Type}

def flush (run : List (Item × α)) : List (Row α) :=
  if anyText (run.map Prod.fst) then [.shared (run.map Prod.fst)]
  else run.map fun pair => .alone pair.2

def rows (run : List (Item × α)) : List (Item × α) → List (Row α)
  | [] => flush run
  | (i, a) :: rest =>
    if i.isInline then rows (run ++ [(i, a)]) rest
    else flush run ++ .alone a :: rows [] rest

def rowsOf (content : List Item) : List (Row Item) := rows [] (content.map fun i => (i, i))

theorem flush_map (f : α → β) (run : List (Item × α)) :
    flush (run.map fun pair => (pair.1, f pair.2)) = (flush run).map (Row.map f) := by
  have same : (run.map fun pair => (pair.1, f pair.2)).map Prod.fst = run.map Prod.fst := by
    rw [List.map_map]
    rfl
  unfold flush
  rw [same]
  split
  · rfl
  · rw [List.map_map, List.map_map]
    rfl

theorem rows_map (f : α → β) (run rest : List (Item × α)) :
    rows (run.map fun pair => (pair.1, f pair.2)) (rest.map fun pair => (pair.1, f pair.2)) =
      (rows run rest).map (Row.map f) := by
  induction rest generalizing run with
  | nil => exact flush_map f run
  | cons pair rest ih =>
    obtain ⟨i, a⟩ := pair
    simp only [List.map_cons, rows]
    split
    · rw [← ih, List.map_append]
      rfl
    · have others := ih []
      rw [List.map_nil] at others
      rw [others, flush_map, List.map_append, List.map_cons]
      rfl

theorem rows_eq (f : Item → β) (content : List Item) :
    rows [] (content.map fun i => (i, f i)) = (rowsOf content).map (Row.map f) := by
  have := rows_map f [] (content.map fun i => (i, i))
  rwa [List.map_map, List.map_nil] at this

theorem flatMap_items_flush (run : List (Item × Item)) (same : ∀ pair ∈ run, pair.1 = pair.2) :
    (flush run).flatMap Row.items = run.map Prod.fst := by
  unfold flush
  split
  · simp [Row.items]
  · have alone : ∀ pair : Item × Item, Row.items (.alone pair.2) = [pair.2] := fun _ => rfl
    rw [List.flatMap_map]
    simp only [alone]
    rw [← List.map_eq_flatMap]
    exact List.map_congr_left fun pair hp => (same pair hp).symm

theorem flatMap_items_rows (run rest : List (Item × Item))
    (same : ∀ pair ∈ run ++ rest, pair.1 = pair.2) :
    (rows run rest).flatMap Row.items = (run ++ rest).map Prod.fst := by
  induction rest generalizing run with
  | nil =>
    rw [List.append_nil] at same ⊢
    exact flatMap_items_flush run same
  | cons pair rest ih =>
    obtain ⟨i, a⟩ := pair
    unfold rows
    split
    · rw [ih]
      · rw [List.append_assoc]
        rfl
      · rwa [List.append_assoc]
    · have first : ∀ pair ∈ run, pair.1 = pair.2 := fun pair hp =>
        same pair (List.mem_append_left _ hp)
      have here : i = a := same (i, a) (List.mem_append_right _ List.mem_cons_self)
      have more : ∀ pair ∈ [] ++ rest, pair.1 = pair.2 := fun pair hp =>
        same pair (List.mem_append_right _ (List.mem_cons_of_mem _ hp))
      rw [List.flatMap_append, List.flatMap_cons, flatMap_items_flush run first, ih [] more,
        List.map_append, List.map_append, List.map_cons, ← here]
      rfl

theorem flatMap_items (content : List Item) : (rowsOf content).flatMap Row.items = content := by
  rw [rowsOf, flatMap_items_rows _ _ (by simp), List.nil_append, List.map_map]
  exact List.map_id content

theorem mem_of_mem_rowsOf {content : List Item} {row : Row Item} {i : Item}
    (hrow : row ∈ rowsOf content) (hi : i ∈ row.items) : i ∈ content := by
  rw [← flatMap_items content]
  exact List.mem_flatMap.mpr ⟨row, hrow, hi⟩

theorem shared_of_mem_flush {run : List (Item × α)} {shared : List Item}
    (h : Row.shared shared ∈ flush run) : shared = run.map Prod.fst ∧ anyText shared = true := by
  unfold flush at h
  split at h
  · next text =>
    obtain rfl : shared = run.map Prod.fst := by simpa using h
    exact ⟨rfl, text⟩
  · simp at h

theorem shared_of_mem_rows {run rest : List (Item × α)} {shared : List Item}
    (inline : allInline (run.map Prod.fst) = true) (h : Row.shared shared ∈ rows run rest) :
    allInline shared = true ∧ anyText shared = true := by
  -- Only inline items join `run`, and a row that is shared is all of it.
  induction rest generalizing run with
  | nil =>
    obtain ⟨rfl, text⟩ := shared_of_mem_flush h
    exact ⟨inline, text⟩
  | cons pair rest ih =>
    obtain ⟨i, a⟩ := pair
    unfold rows at h
    split at h
    · next here =>
      refine ih ?_ h
      rw [allInline_eq_all] at inline ⊢
      rw [List.map_append, List.all_append, inline, Bool.true_and]
      simpa using here
    · rcases List.mem_append.mp h with h | h
      · obtain ⟨rfl, text⟩ := shared_of_mem_flush h
        exact ⟨inline, text⟩
      · exact ih rfl (by simpa using h)

end MarkupGrader.Markup.Item
