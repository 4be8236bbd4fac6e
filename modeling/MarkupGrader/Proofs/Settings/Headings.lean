import MarkupGrader.Proofs.Text.Cut
import MarkupGrader.Proofs.Text.Trim
import MarkupGrader.Proofs.Text.ZeroFree
import MarkupGrader.Settings.Reading

/-! The table that a refused text is said to be wrong in. Its name is looked for in what stands in
front of the byte at which the text is refused. So it is the complete name of the last header that
begins there, unless the byte stands in that name or at the bracket in front of it. -/

namespace MarkupGrader.Settings

open Text

/-- A line that begins with a bracket: the byte of the bracket, and the line from there on. -/
structure Heading where
  start : Nat
  line : Text
  deriving DecidableEq

namespace Heading

/-- What stands in front of the first closing bracket. -/
def front (h : Heading) : Text := h.line.takeWhile (· != ']')

/-- What is read as the name. -/
def name (h : Heading) : Text := trim (h.front.dropWhile (· == '['))

/-- The byte behind what is read as the name. -/
def nameStop (h : Heading) : Nat := h.start + byteLength (trimRight h.front)

def cut (h : Heading) (stop : Nat) : Heading := ⟨h.start, takeBytes (stop - h.start) h.line⟩

/-- What may stand between the brackets of a header: keys, dots and blanks, and not blanks alone. A
quoted key may have a closing bracket in it. -/
structure IsInside (inside : Text) : Prop where
  filled : trim inside ≠ []
  keys : ∀ k ∈ Toml.tokens 0 inside, k.kind = .dot ∨ k.kind = .blank ∨ Toml.isKey k = true

/-- The header of a table, or of an element of an array of tables, with the name in it. -/
inductive IsHeader : Heading → Text → Prop
  | table (start : Nat) (inside behind : Text) (isInside : IsInside inside) :
      IsHeader ⟨start, '[' :: (inside ++ ']' :: behind)⟩ (trim inside)
  | element (start : Nat) (inside behind : Text) (isInside : IsInside inside) :
      IsHeader ⟨start, '[' :: '[' :: (inside ++ ']' :: ']' :: behind)⟩ (trim inside)

end Heading

/-- The lines that begin with a bracket in a text that begins at byte `start`; `fresh` if nothing but
blanks stands in front of it on its line. -/
def headingsFrom (start : Nat) (fresh : Bool) : Text → List Heading
  | [] => []
  | c :: rest =>
    let next := start + c.utf8Size
    if c = '\n' then headingsFrom next true rest
    else if fresh ∧ c = '[' then
      ⟨start, c :: rest.takeWhile (· != '\n')⟩ :: headingsFrom next false rest
    else headingsFrom next (fresh && isBlank c) rest

def headings (t : Text) : List Heading := headingsFrom 0 true t

/-- The last header whose bracket is at a byte or in front of it. -/
def lastUpTo? (t : Text) (offset : Nat) : Option Heading :=
  ((headings t).filter fun h => decide (h.start ≤ offset)).getLast?

/-- The last header whose bracket is in front of a byte. -/
def lastBefore? (t : Text) (offset : Nat) : Option Heading :=
  ((headings t).filter fun h => decide (h.start < offset)).getLast?

variable {start : Nat} {fresh : Bool} {t line inside name : Text} {g h : Heading} {offset : Nat}

theorem headingsFrom_newline (start : Nat) (fresh : Bool) (rest : Text) :
    headingsFrom start fresh ('\n' :: rest) = headingsFrom (start + 1) true rest := by
  rw [headingsFrom, if_pos rfl]
  rfl

theorem headingsFrom_bracket (start : Nat) (rest : Text) : headingsFrom start true ('[' :: rest) =
    ⟨start, '[' :: rest.takeWhile (· != '\n')⟩ :: headingsFrom (start + 1) false rest := rfl

theorem headingsFrom_other {c : Char} (solid : c ≠ '\n') (other : ¬ (fresh = true ∧ c = '['))
    (rest : Text) : headingsFrom start fresh (c :: rest) =
      headingsFrom (start + c.utf8Size) (fresh && isBlank c) rest := by
  rw [headingsFrom, if_neg solid, if_neg other]

theorem headingsFrom_cases (start : Nat) (fresh : Bool) (c : Char) (rest : Text) :
    (c = '\n' ∧ headingsFrom start fresh (c :: rest) = headingsFrom (start + 1) true rest) ∨
    (fresh = true ∧ c = '[' ∧ headingsFrom start fresh (c :: rest) =
      ⟨start, '[' :: rest.takeWhile (· != '\n')⟩ :: headingsFrom (start + 1) false rest) ∨
    (c ≠ '\n' ∧ ¬ (fresh = true ∧ c = '[') ∧ headingsFrom start fresh (c :: rest) =
      headingsFrom (start + c.utf8Size) (fresh && isBlank c) rest) := by
  by_cases newline : c = '\n'
  · subst newline
    exact .inl ⟨rfl, headingsFrom_newline ..⟩
  · by_cases bracket : fresh = true ∧ c = '['
    · obtain ⟨rfl, rfl⟩ := bracket
      exact .inr (.inl ⟨rfl, rfl, rfl⟩)
    · exact .inr (.inr ⟨newline, bracket, headingsFrom_other newline bracket rest⟩)

theorem start_le_of_mem (mem : h ∈ headingsFrom start fresh t) : start ≤ h.start := by
  induction t generalizing start fresh with
  | nil => cases mem
  | cons c rest ih =>
    rcases headingsFrom_cases start fresh c rest with ⟨-, eq⟩ | ⟨-, -, eq⟩ | ⟨-, -, eq⟩
    · rw [eq] at mem
      exact (Nat.le_succ _).trans (ih mem)
    · rw [eq] at mem
      rcases List.mem_cons.mp mem with rfl | mem
      · exact Nat.le_refl _
      · exact (Nat.le_succ _).trans (ih mem)
    · rw [eq] at mem
      exact (Nat.le_add_right _ _).trans (ih mem)

theorem line_le_of_mem (mem : h ∈ headingsFrom start false t) :
    start + byteLength (t.takeWhile (· != '\n')) < h.start := by
  induction t generalizing start with
  | nil => cases mem
  | cons c rest ih =>
    rcases headingsFrom_cases start false c rest with ⟨rfl, eq⟩ | ⟨⟨⟩, -⟩ | ⟨solid, -, eq⟩
    · rw [eq] at mem
      exact start_le_of_mem mem
    · rw [eq] at mem
      have later := ih mem
      rw [List.takeWhile_cons_of_pos (by simpa using solid), byteLength]
      omega

theorem pairwise_headingsFrom (start : Nat) (fresh : Bool) (t : Text) :
    (headingsFrom start fresh t).Pairwise fun a b => a.start + byteLength a.line < b.start := by
  induction t generalizing start fresh with
  | nil => exact .nil
  | cons c rest ih =>
    rcases headingsFrom_cases start fresh c rest with ⟨-, eq⟩ | ⟨-, -, eq⟩ | ⟨-, -, eq⟩
    · rw [eq]
      exact ih _ _
    · rw [eq]
      refine List.pairwise_cons.mpr ⟨fun b mem => ?_, ih _ _⟩
      have later := line_le_of_mem mem
      change start + (1 + byteLength (rest.takeWhile (· != '\n'))) < b.start
      omega
    · rw [eq]
      exact ih _ _

theorem line_head?_of_mem (mem : h ∈ headingsFrom start fresh t) : h.line.head? = some '[' := by
  induction t generalizing start fresh with
  | nil => cases mem
  | cons c rest ih =>
    rcases headingsFrom_cases start fresh c rest with ⟨-, eq⟩ | ⟨-, -, eq⟩ | ⟨-, -, eq⟩
    · rw [eq] at mem
      exact ih mem
    · rw [eq] at mem
      rcases List.mem_cons.mp mem with rfl | mem
      · rfl
      · exact ih mem
    · rw [eq] at mem
      exact ih mem

theorem takeBytes_takeWhile_append (p : Char → Bool) (a b : Text) :
    takeBytes (byteLength a) ((a ++ b).takeWhile p) = a.takeWhile p := by
  rw [← takeWhile_takeBytes, takeBytes_append_byteLength]

/-- In the beginning of a text stand the headings that begin there, each as far as it goes. -/
theorem headingsFrom_front (start : Nat) (fresh : Bool) (a b : Text) : headingsFrom start fresh a =
    ((headingsFrom start fresh (a ++ b)).filter
      fun h => decide (h.start < start + byteLength a)).map (·.cut (start + byteLength a)) := by
  induction a generalizing start fresh with
  | nil =>
    have none : (headingsFrom start fresh b).filter
        (fun h => decide (h.start < start + byteLength [])) = [] := by
      refine List.filter_eq_nil_iff.mpr fun h mem => ?_
      have first := start_le_of_mem mem
      simpa [byteLength] using first
    rw [List.nil_append, none]
    rfl
  | cons c a ih =>
    have total : start + byteLength (c :: a) = start + c.utf8Size + byteLength a := by
      rw [byteLength, Nat.add_assoc]
    rw [total]
    rcases headingsFrom_cases start fresh c a with ⟨rfl, eq⟩ | ⟨rfl, rfl, eq⟩ | ⟨solid, other, eq⟩
    · rw [eq, List.cons_append, headingsFrom_newline]
      exact ih _ _
    · have inFront : decide (start < start + '['.utf8Size + byteLength a) = true := by
        have size : '['.utf8Size = 1 := rfl
        rw [size]
        exact decide_eq_true (by omega)
      have own : Heading.cut ⟨start, '[' :: (a ++ b).takeWhile (· != '\n')⟩
          (start + '['.utf8Size + byteLength a) = ⟨start, '[' :: a.takeWhile (· != '\n')⟩ := by
        rw [Heading.cut, Nat.add_assoc, Nat.add_sub_cancel_left, takeBytes_cons,
          takeBytes_takeWhile_append]
      rw [eq, List.cons_append, headingsFrom_bracket, List.filter_cons, if_pos inFront, List.map_cons,
        own]
      exact congrArg _ (ih _ _)
    · rw [eq, List.cons_append, headingsFrom_other solid other]
      exact ih _ _

def isOpened (line : Text) : Bool := line.head? == some '['

theorem headingsFrom_false_append (free : '\n' ∉ line) (start : Nat) (tail : Text) :
    headingsFrom start false (line ++ tail) =
      headingsFrom (start + byteLength line) false tail := by
  induction line generalizing start with
  | nil => rfl
  | cons c line ih =>
    rw [List.mem_cons, not_or] at free
    rw [List.cons_append, headingsFrom_other (Ne.symm free.1) (by simp), byteLength, ← Nat.add_assoc]
    exact ih free.2 _

theorem map_trim_line (free : '\n' ∉ line) (start : Nat) (tail : Text)
    (ends : ∀ c ∈ tail.head?, c = '\n') :
    (headingsFrom start true (line ++ tail)).map (fun h => trim h.line) =
      [trim line].filter isOpened ++
        (headingsFrom (start + byteLength line) false tail).map fun h => trim h.line := by
  induction line generalizing start with
  | nil =>
    have same : headingsFrom start true tail = headingsFrom start false tail := by
      cases tail with
      | nil => rfl
      | cons c rest =>
        obtain rfl := ends c rfl
        rw [headingsFrom_newline, headingsFrom_newline]
    rw [List.nil_append, same]
    rfl
  | cons c line ih =>
    rw [List.mem_cons, not_or] at free
    have alone : (line ++ tail).takeWhile (· != '\n') = line := by
      have all : ∀ d ∈ line, (d != '\n') = true := fun d hd => by
        simpa using fun same : d = '\n' => free.2 (same ▸ hd)
      rw [List.takeWhile_append_of_pos all]
      cases tail with
      | nil => exact List.append_nil _
      | cons d rest =>
        obtain rfl := ends d rfl
        exact List.append_nil _
    rw [byteLength, ← Nat.add_assoc, List.cons_append]
    rcases headingsFrom_cases start true c (line ++ tail) with ⟨eq, -⟩ | ⟨-, rfl, eq⟩ | ⟨-, other, eq⟩
    · exact absurd eq.symm free.1
    · have opened : isOpened (trim ('[' :: line)) = true := by
        rw [isOpened, head?_trim_of_solid rfl]
        rfl
      rw [eq, List.map_cons, alone, headingsFrom_false_append free.2, List.filter_cons, if_pos opened]
      rfl
    · rw [eq, Bool.true_and]
      cases blank : isBlank c with
      | true =>
        rw [trim_cons_of_blank blank]
        exact ih free.2 _
      | false =>
        have unopened : isOpened (trim (c :: line)) = false := by
          rw [isOpened, head?_trim_of_solid blank]
          exact beq_eq_false_iff_ne.mpr fun same => other ⟨rfl, Option.some.inj same⟩
        rw [headingsFrom_false_append free.2, List.filter_cons, if_neg (by simp [unopened])]
        rfl

theorem map_trim_headingsFrom (start : Nat) (t : Text) :
    (headingsFrom start true t).map (fun h => trim h.line) =
      ((lines t).map trim).filter isOpened := by
  generalize eq : lines t = ls
  induction ls generalizing start t with
  | nil =>
    rw [lines_eq_nil.mp eq]
    rfl
  | cons line more ih =>
    obtain ⟨free, ends⟩ := exists_of_lines_cons eq
    have split : ((line :: more).map trim).filter isOpened =
        [trim line].filter isOpened ++ (more.map trim).filter isOpened := by
      rw [← List.filter_append]
      rfl
    rw [split]
    rcases ends with ⟨rfl, rfl⟩ | ⟨nl, rest, rfl, lf | crlf, found⟩
    · have whole := map_trim_line free start [] (by simp)
      rwa [List.append_nil] at whole
    · have next := map_trim_line free start ('\n' :: rest) (by simp)
      rw [headingsFrom_newline, ih _ _ found] at next
      exact next
    · -- The carriage return is a blank at the end of the line.
      have blank : IsBlankText ['\r'] := List.forall_mem_singleton.mpr rfl
      have freeToo : '\n' ∉ line ++ ['\r'] := by simpa using free
      have next := map_trim_line freeToo start ('\n' :: rest) (by simp)
      rw [headingsFrom_newline, ih _ _ found, trim_append_of_blank blank, List.append_assoc] at next
      exact next

theorem dropWhile_append_of_blank {b : Text} (blank : IsBlankText b) (a : Text) :
    (a ++ b).dropWhile (· == '[') = a.dropWhile (· == '[') ++ b := by
  rw [List.dropWhile_append]
  split
  · next none =>
    have start : ∀ c ∈ b.head?, (c == '[') = false := by
      rintro c hc
      have solid := blank c (List.mem_of_mem_head? hc)
      refine beq_eq_false_iff_ne.mpr ?_
      rintro rfl
      cases solid
    rw [dropWhile_of_head? start, List.isEmpty_iff.mp none, List.nil_append]
  · rfl

theorem trim_dropWhile_append {b : Text} (blank : IsBlankText b) (a : Text) :
    trim ((a ++ b).dropWhile (· == '[')) = trim (a.dropWhile (· == '[')) := by
  rw [dropWhile_append_of_blank blank, trim_append_of_blank blank]

theorem trim_dropWhile_ne {a b : Text} (more : b ≠ []) (solid : ∀ c ∈ b.getLast?, isBlank c = false)
    (filled : trim ((a ++ b).dropWhile (· == '[')) ≠ []) :
    trim (a.dropWhile (· == '[')) ≠ trim ((a ++ b).dropWhile (· == '[')) := by
  rw [List.dropWhile_append] at filled ⊢
  split at filled
  · next none =>
    -- Nothing but brackets is seen, and so no name.
    rw [if_pos none, List.isEmpty_iff.mp none]
    exact filled.symm
  · next some =>
    rw [if_neg some]
    exact fun same => (length_trim_lt more solid _).ne (congrArg List.length same)

theorem takeWhile_dropWhile_brackets (t : Text) :
    (t.dropWhile (· == '[')).takeWhile (· != ']') =
      (t.takeWhile (· != ']')).dropWhile (· == '[') := by
  induction t with
  | nil => rfl
  | cons c t ih =>
    by_cases bracket : c = '['
    · subst bracket
      exact ih
    · have other : ¬ (c == '[') = true := by simpa using bracket
      rw [List.dropWhile_cons_of_neg (p := (· == '[')) other]
      by_cases closing : c = ']'
      · subst closing
        rfl
      · have inside : (c != ']') = true := by simpa using closing
        rw [List.takeWhile_cons_of_pos (p := (· != ']')) inside,
          List.dropWhile_cons_of_neg (p := (· == '[')) other]

theorem name_trim (opened : h.line.head? = some '[') :
    trim (((trim h.line).dropWhile (· == '[')).takeWhile (· != ']')) = h.name := by
  obtain ⟨a, b, whole, front, back⟩ := exists_trim h.line
  obtain rfl : a = [] := by
    cases a with
    | nil => rfl
    | cons c a =>
      rw [whole, List.cons_append, List.head?_cons] at opened
      cases opened
      cases front _ List.mem_cons_self
  rw [takeWhile_dropWhile_brackets, Heading.name, Heading.front]
  rw [List.nil_append] at whole
  generalize trim h.line = t at whole
  rw [whole, List.takeWhile_append]
  split
  · next all =>
    have blank : IsBlankText (b.takeWhile (· != ']')) :=
      fun c hc => back c ((List.takeWhile_prefix _).subset hc)
    rw [trim_dropWhile_append blank, (List.takeWhile_prefix _).eq_of_length all]
  · rfl

def filled? (name : Text) : Option Text := if name.isEmpty then none else some name

theorem heading?_eq_bind (t : Text) (offset : Nat) : heading? t offset =
    (((lines (takeBytes offset t)).map trim).reverse.find? isOpened).bind fun line =>
      filled? (trim ((line.dropWhile (· == '[')).takeWhile (· != ']'))) := by
  have opened : (fun line : Text => line.head? == some '[') = isOpened := rfl
  cases found : ((lines (takeBytes offset t)).map trim).reverse.find? isOpened with
  | none => simp only [heading?, opened, found, Option.bind_none]
  | some line => simp only [heading?, opened, found, Option.bind_some, filled?]

theorem heading?_eq (boundary : t.IsBoundary offset) : heading? t offset =
    (lastBefore? t offset).bind fun h => filled? (h.cut offset).name := by
  obtain ⟨k, rfl⟩ := boundary
  obtain ⟨a, b, rfl, size⟩ : ∃ a b, t = a ++ b ∧ byteLength (t.take k) = byteLength a :=
    ⟨t.take k, t.drop k, (List.take_append_drop k t).symm, rfl⟩
  rw [size]
  have seen : (headings a).getLast? = (lastBefore? (a ++ b) (byteLength a)).map
      (·.cut (byteLength a)) := by
    rw [headings, headingsFrom_front 0 true a b, List.getLast?_map, Nat.zero_add]
    rfl
  have last : ((lines a).map trim).reverse.find? isOpened =
      (headings a).getLast?.map fun h => trim h.line := by
    rw [← List.getLast?_filter, ← map_trim_headingsFrom 0, List.getLast?_map]
    rfl
  rw [heading?_eq_bind, takeBytes_append_byteLength, last]
  cases found : lastBefore? (a ++ b) (byteLength a) with
  | none =>
    rw [seen, found]
    rfl
  | some h =>
    have mem : h.cut (byteLength a) ∈ headings a := by
      refine List.mem_of_getLast? ?_
      rw [seen, found]
      rfl
    have opened := line_head?_of_mem mem
    rw [seen, found]
    exact congrArg filled? (name_trim opened)

theorem filled?_eq_some {a b : Text} : filled? a = some b ↔ a = b ∧ b ≠ [] := by
  cases a with
  | nil => simp [filled?]
  | cons c a => simpa [filled?] using fun same : c :: a = b => same ▸ List.cons_ne_nil c a

theorem heading?_eq_some_iff (boundary : t.IsBoundary offset) : heading? t offset = some name ↔
    ∃ g, lastBefore? t offset = some g ∧ (g.cut offset).name = name ∧ name ≠ [] := by
  simp only [heading?_eq boundary, Option.bind_eq_some_iff, filled?_eq_some]

namespace Heading

theorem front_cut (h : Heading) (stop : Nat) :
    (h.cut stop).front = takeBytes (stop - h.start) h.front :=
  takeWhile_takeBytes _ _ _

theorem closing_not_mem_name (h : Heading) : ']' ∉ h.name := by
  intro mem
  have inFront := (List.dropWhile_sublist _).subset (trim_subset _ mem)
  simpa using List.mem_takeWhile_imp inFront

theorem name_cut_of_le {stop : Nat} (complete : h.nameStop ≤ stop) : (h.cut stop).name = h.name := by
  obtain ⟨b, whole, blank, -⟩ := exists_trimRight h.front
  obtain ⟨more, rfl⟩ := Nat.exists_eq_add_of_le complete
  have seen : (h.cut (h.nameStop + more)).front = trimRight h.front ++ takeBytes more b := by
    rw [front_cut, nameStop, Nat.add_assoc, Nat.add_sub_cancel_left, ← takeBytes_append, ← whole]
  have blankToo : IsBlankText (takeBytes more b) :=
    fun c hc => blank c (takeBytes_subset _ _ hc)
  rw [name, seen, trim_dropWhile_append blankToo, ← trim_dropWhile_append blank, ← whole, name]

theorem name_cut_ne {stop : Nat} (opened : h.start ≤ stop) (inside : stop < h.nameStop)
    (filled : h.name ≠ []) : (h.cut stop).name ≠ h.name := by
  obtain ⟨b, whole, blank, solid⟩ := exists_trimRight h.front
  rw [nameStop] at inside
  have short : stop - h.start < byteLength (trimRight h.front) := by omega
  obtain ⟨q, more, split⟩ := exists_of_lt_byteLength short b
  rw [← whole, ← front_cut] at split
  have own : h.name = trim (((h.cut stop).front ++ q).dropWhile (· == '[')) := by
    rw [split, ← trim_dropWhile_append blank, ← whole, name]
  rw [← split, List.getLast?_append_of_ne_nil _ more] at solid
  rw [own] at filled ⊢
  exact trim_dropWhile_ne more solid filled

theorem IsInside.head?_ne (isInside : IsInside inside) : inside.head? ≠ some '[' := by
  intro opened
  obtain ⟨rest, rfl⟩ := List.head?_eq_some_iff.mp opened
  have first : ⟨.leftBracket, 0, ['[']⟩ ∈ Toml.tokens 0 ('[' :: rest) := by
    rw [Toml.tokens]
    exact List.mem_cons_self
  simpa [Toml.isKey, Toml.Token.isString] using isInside.keys _ first

theorem name_of_line (opening : Text) {rest : Text} (isInside : IsInside inside)
    (plain : ']' ∉ trim inside) (opens : ∀ c ∈ opening, c = '[') (line : h.line = opening ++ (inside ++ ']' :: rest)) :
    h.name = trim inside := by
  have unclosed : ']' ∉ inside := by
    obtain ⟨a, b, whole, front, back⟩ := exists_trim inside
    rw [whole, List.mem_append, List.mem_append, not_or, not_or]
    exact ⟨fun mem => (by cases front _ mem), plain, fun mem => (by cases back _ mem)⟩
  have inFront : ∀ c ∈ opening ++ inside, (c != ']') = true := by
    rintro c mem
    refine bne_iff_ne.mpr ?_
    rintro rfl
    rcases List.mem_append.mp mem with mem | mem
    · cases opens _ mem
    · exact unclosed mem
  have front : h.front = opening ++ inside := by
    rw [Heading.front, line, ← List.append_assoc, List.takeWhile_append_of_pos inFront]
    exact List.append_nil _
  have unopened : ∀ c ∈ inside.head?, (c == '[') = false :=
    fun c hc => beq_eq_false_iff_ne.mpr fun same => isInside.head?_ne (same ▸ hc)
  rw [name, front, List.dropWhile_append_of_pos fun c hc => beq_iff_eq.mpr (opens c hc),
    dropWhile_of_head? unopened]

theorem IsHeader.name_eq (isHeader : h.IsHeader name) (plain : ']' ∉ name) : h.name = name := by
  cases isHeader with
  | table _ _ _ isInside => exact name_of_line ['['] isInside plain (by simp) rfl
  | element _ _ _ isInside => exact name_of_line ['[', '['] isInside plain (by simp) rfl

theorem IsHeader.ne_nil (isHeader : h.IsHeader name) : name ≠ [] := by
  cases isHeader with
  | table _ _ _ isInside => exact isInside.filled
  | element _ _ _ isInside => exact isInside.filled

theorem IsHeader.start_lt_nameStop (isHeader : h.IsHeader name) : h.start < h.nameStop := by
  have bracket : '[' ∈ h.front := by
    cases isHeader with
    | table => exact List.mem_cons_self
    | element => exact List.mem_cons_self
  obtain ⟨b, whole, blank, -⟩ := exists_trimRight h.front
  rw [nameStop]
  cases kept : trimRight h.front with
  | nil =>
    rw [kept, List.nil_append] at whole
    rw [whole] at bracket
    cases blank _ bracket
  | cons c rest =>
    have size := c.utf8Size_pos
    rw [byteLength]
    omega

theorem nameStop_le (h : Heading) : h.nameStop ≤ h.start + byteLength h.line := by
  obtain ⟨b, whole, -, -⟩ := exists_trimRight h.front
  obtain ⟨rest, line⟩ := List.takeWhile_prefix (l := h.line) (· != ']')
  have size := congrArg byteLength line
  rw [byteLength_append, ← front, whole, byteLength_append] at size
  rw [nameStop]
  omega

end Heading

theorem filter_before (t : Text) (offset : Nat) :
    (headings t).filter (fun h => decide (h.start < offset)) =
      ((headings t).filter fun h => decide (h.start ≤ offset)).filter
        fun h => decide (h.start < offset) := by
  rw [List.filter_filter]
  refine List.filter_congr fun h _ => ?_
  rw [← Bool.decide_and]
  exact decide_eq_decide.mpr ⟨fun lt => ⟨lt, lt.le⟩, And.left⟩

theorem lastBefore?_of_lastUpTo?_eq_none (last : lastUpTo? t offset = none) :
    lastBefore? t offset = none := by
  rw [lastBefore?, filter_before, List.getLast?_eq_none_iff.mp last]
  rfl

theorem lastBefore?_of_lt (last : lastUpTo? t offset = some h) (lt : h.start < offset) :
    lastBefore? t offset = some h := by
  obtain ⟨front, all⟩ := List.getLast?_eq_some_iff.mp last
  have kept : [h].filter (fun h => decide (h.start < offset)) = [h] :=
    List.filter_cons_of_pos (decide_eq_true lt)
  rw [lastBefore?, filter_before, all, List.filter_append, kept]
  exact List.getLast?_concat ..

theorem mem_of_lastUpTo? (last : lastUpTo? t offset = some h) :
    h ∈ headings t ∧ h.start ≤ offset := by
  have mem := List.mem_filter.mp (List.mem_of_getLast? last)
  exact ⟨mem.1, of_decide_eq_true mem.2⟩

theorem mem_of_lastBefore? (last : lastBefore? t offset = some g) :
    g ∈ headings t ∧ g.start < offset := by
  have mem := List.mem_filter.mp (List.mem_of_getLast? last)
  exact ⟨mem.1, of_decide_eq_true mem.2⟩

theorem nameStop_le_of_lt (hg : g ∈ headings t) (hh : h ∈ headings t) (lt : g.start < h.start) :
    g.nameStop ≤ h.start := by
  have name := g.nameStop_le
  obtain ⟨x, y, split⟩ := List.append_of_mem hh
  have apart := pairwise_headingsFrom 0 true t
  rw [← headings, split, List.pairwise_append, List.pairwise_cons] at apart
  rw [split, List.mem_append, List.mem_cons] at hg
  rcases hg with hg | rfl | hg
  · have ends := apart.2.2 g hg h List.mem_cons_self
    omega
  · omega
  · have ends := apart.2.1.1 g hg
    omega

theorem heading?_eq_some_iff_of_lt (isHeader : h.IsHeader name) (boundary : t.IsBoundary offset)
    (last : lastUpTo? t offset = some h) (lt : h.start < offset) :
    heading? t offset = some name ↔ ']' ∉ name ∧ h.nameStop ≤ offset := by
  rw [heading?_eq_some_iff boundary, lastBefore?_of_lt last lt]
  constructor
  · rintro ⟨g, ⟨rfl⟩, read, filled⟩
    have plain : ']' ∉ name := read ▸ Heading.closing_not_mem_name _
    have whole := isHeader.name_eq plain
    refine ⟨plain, Nat.not_lt.mp fun inside => ?_⟩
    exact Heading.name_cut_ne lt.le inside (whole ▸ filled) (read.trans whole.symm)
  · rintro ⟨plain, complete⟩
    exact ⟨h, rfl, (Heading.name_cut_of_le complete).trans (isHeader.name_eq plain), isHeader.ne_nil⟩

theorem heading?_eq_some_iff_at (isHeader : h.IsHeader name) (boundary : t.IsBoundary h.start)
    (mem : h ∈ headings t) : heading? t h.start = some name ↔
      ']' ∉ name ∧ (lastBefore? t h.start).map Heading.name = some name := by
  have before : ∀ g, lastBefore? t h.start = some g → (g.cut h.start).name = g.name :=
    fun g found => Heading.name_cut_of_le
      (nameStop_le_of_lt (mem_of_lastBefore? found).1 mem (mem_of_lastBefore? found).2)
  rw [heading?_eq_some_iff boundary]
  constructor
  · rintro ⟨g, found, read, -⟩
    refine ⟨read ▸ Heading.closing_not_mem_name _, ?_⟩
    rw [found, Option.map_some, ← before g found, read]
  · rintro ⟨-, same⟩
    obtain ⟨g, found, read⟩ := Option.map_eq_some_iff.mp same
    exact ⟨g, found, (before g found).trans read, isHeader.ne_nil⟩

/-- In a text in which only headers begin with a bracket, the name of the last header at or in front
of a byte is found exactly if there is none, or its name has no closing bracket in it, and either it
ends in front of the byte, or the byte is that of its bracket and the header before it is read as one
of the same name. -/
theorem heading?_eq_iff {names : Heading → Text}
    (headers : ∀ h ∈ headings t, h.IsHeader (names h)) (boundary : t.IsBoundary offset) :
    heading? t offset = (lastUpTo? t offset).map names ↔
      ∀ h, lastUpTo? t offset = some h → ']' ∉ names h ∧
        (h.nameStop ≤ offset ∨
          h.start = offset ∧ (lastBefore? t offset).map Heading.name = some (names h)) := by
  cases last : lastUpTo? t offset with
  | none =>
    have found : heading? t offset = none := by
      rw [heading?_eq boundary, lastBefore?_of_lastUpTo?_eq_none last]
      rfl
    exact iff_of_true found fun h same => by cases same
  | some h =>
    obtain ⟨mem, le⟩ := mem_of_lastUpTo? last
    have isHeader := headers h mem
    have only (p : Heading → Prop) : (∀ g, some h = some g → p g) ↔ p h := by simp
    rw [only, Option.map_some]
    rcases Nat.lt_or_eq_of_le le with lt | rfl
    · simp [heading?_eq_some_iff_of_lt isHeader boundary last lt, lt.ne]
    · have inside := Nat.not_le.mpr isHeader.start_lt_nameStop
      simp [heading?_eq_some_iff_at isHeader boundary mem, inside]

theorem heading?_eq_iff_indented :
    heading? "  [ html ]\r\nindent = x\r\n[[languages]]\n" 20 = some "html" := by
  have headers : ∀ h ∈ headings "  [ html ]\r\nindent = x\r\n[[languages]]\n",
      h.IsHeader h.name := by
    have all : headings "  [ html ]\r\nindent = x\r\n[[languages]]\n" =
        [⟨2, "[ html ]\r"⟩, ⟨24, "[[languages]]"⟩] := by decide +kernel
    rw [all]
    rintro h (_ | ⟨_, _ | ⟨_, ⟨⟩⟩⟩)
    · exact .table _ " html " "\r" ⟨by decide, by decide +kernel⟩
    · exact .element _ "languages" [] ⟨by decide, by decide +kernel⟩
  have boundary : IsBoundary "  [ html ]\r\nindent = x\r\n[[languages]]\n" 20 :=
    ⟨20, by decide +kernel⟩
  have last : lastUpTo? "  [ html ]\r\nindent = x\r\n[[languages]]\n" 20 =
      some ⟨2, "[ html ]\r"⟩ := by decide +kernel
  have found := (heading?_eq_iff headers boundary).mpr fun h same => by
    obtain rfl := Option.some.inj (last.symm.trans same)
    exact ⟨by decide, .inl (by decide)⟩
  rw [found, last]
  decide

/-- The entry in the second table is refused at the bracket in front of its name, and so in the name
of the first. Two bytes further on no name is seen. -/
theorem not_heading_at_bracket :
    (∀ h ∈ headings "[html]\nindent = 2\n[[languages]]\nid = \"1\"\n", h.IsHeader h.name) ∧
    IsBoundary "[html]\nindent = 2\n[[languages]]\nid = \"1\"\n" 18 ∧
    (lastUpTo? "[html]\nindent = 2\n[[languages]]\nid = \"1\"\n" 18).map Heading.name =
      some "languages" ∧
    heading? "[html]\nindent = 2\n[[languages]]\nid = \"1\"\n" 18 = some "html" ∧
    heading? "[html]\nindent = 2\n[[languages]]\nid = \"1\"\n" 20 = none ∧
    read "[html]\nindent = 2\n[[languages]]\nid = \"1\"\n" =
      .error (.notToml (some "html")) := by
  refine ⟨?_, ⟨18, by decide +kernel⟩, by decide +kernel, by decide +kernel, by decide +kernel,
    by decide +kernel⟩
  have all : headings "[html]\nindent = 2\n[[languages]]\nid = \"1\"\n" =
      [⟨0, "[html]"⟩, ⟨18, "[[languages]]"⟩] := by decide +kernel
  rw [all]
  rintro h (_ | ⟨_, _ | ⟨_, ⟨⟩⟩⟩)
  · exact .table _ "html" [] ⟨by decide, by decide +kernel⟩
  · exact .element _ "languages" [] ⟨by decide, by decide +kernel⟩

end MarkupGrader.Settings
