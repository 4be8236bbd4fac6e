import MarkupGrader.Markup.Lexer
import MarkupGrader.Proofs.Text.Squeeze

/-! Reading gaps. White space is read up to the first other character, and a comment up to its end,
whatever stands behind. So a gap is read again in front of another text, if that text neither goes on
with white space nor begins with a comment. -/

namespace MarkupGrader.Markup

open Text (isLed isLed_cons isLed_append_of_ne_nil)

variable {s t r rest : Text}

theorem isLed_eq_false_of_takeWhile (h : (s.takeWhile isSpace).isEmpty = true) :
    isLed s = false := by
  cases s with
  | nil => rfl
  | cons c s =>
    cases space : isSpace c with
    | false => exact space
    | true =>
      rw [List.takeWhile_cons_of_pos space] at h
      cases h

theorem takeWhile_of_isLed (h : isLed s = false) : s.takeWhile isSpace = [] := by
  cases s with
  | nil => rfl
  | cons c s => exact List.takeWhile_cons_of_neg (Bool.eq_false_iff.mp h)

theorem isLed_dropWhile (s : Text) : isLed (s.dropWhile isSpace) = false := by
  have head := List.head?_dropWhile_not isSpace s
  cases rest : s.dropWhile isSpace with
  | nil => rfl
  | cons c u =>
    rw [rest] at head
    simpa using head

theorem closeComment?_before {dashes : Nat} (h : closeComment? dashes s = some (t, rest)) (r : Text) :
    closeComment? dashes (t ++ r) = some (t, r) := by
  induction s generalizing dashes t with
  | nil => cases h
  | cons c s ih =>
    unfold closeComment? at h
    split at h
    · next closes =>
      cases h
      rw [List.singleton_append, closeComment?, if_pos closes]
    · next goes =>
      obtain ⟨⟨u, v⟩, found, eq⟩ := Option.map_eq_some_iff.mp h
      cases eq
      rw [List.cons_append, closeComment?, if_neg goes, ih found]
      rfl

/-- The text begins with the opening of a comment, perhaps behind white space. -/
def opensComment (t : Text) : Bool := ("<!--" : Text).isPrefixOf (t.dropWhile isSpace)

theorem readComment?_of_opens (h : ("<!--" : Text).isPrefixOf s = false) : readComment? s = none := by
  unfold readComment?
  cases found : Text.after? "<!--" s with
  | none => rfl
  | some inner =>
    rw [Text.after?_eq_some.mp found] at h
    simp at h

theorem readComment?_cons_of_ne {c : Char} (h : c ≠ '<') (s : Text) : readComment? (c :: s) = none := by
  refine readComment?_of_opens ?_
  rw [← Bool.not_eq_true]
  intro opens
  obtain ⟨u, eq⟩ := List.isPrefixOf_iff_prefix.mp opens
  injection eq with first
  exact h first.symm

theorem readComment?_before (h : readComment? s = some (t, rest)) (r : Text) :
    readComment? (t ++ r) = some (t, r) := by
  obtain ⟨inner, opens, h⟩ := Option.bind_eq_some_iff.mp h
  obtain ⟨⟨u, v⟩, found, eq⟩ := Option.map_eq_some_iff.mp h
  cases eq
  have front : Text.after? "<!--" ("<!--" ++ u ++ r) = some (u ++ r) := by
    rw [List.append_assoc]
    exact Text.after?_eq_some.mpr rfl
  rw [readComment?, front, Option.bind_some, closeComment?_before found]
  rfl

theorem isLed_of_readComment? (h : readComment? s = some (t, rest)) : isLed t = false := by
  obtain ⟨inner, -, h⟩ := Option.bind_eq_some_iff.mp h
  obtain ⟨⟨u, v⟩, -, eq⟩ := Option.map_eq_some_iff.mp h
  cases eq
  rfl

theorem readFiller?_of_isLed (h : isLed s = false) :
    readFiller? s = (readComment? s).map fun (t, rest) => (.comment t, rest) := by
  rw [readFiller?, takeWhile_of_isLed h]
  rfl

theorem readFiller?_spaces (spaces : ∀ c ∈ t, isSpace c = true) (nonempty : t ≠ [])
    (h : isLed r = false) : readFiller? (t ++ r) = some (.space t, r) := by
  have taken : (t ++ r).takeWhile isSpace = t := by
    rw [List.takeWhile_append_of_pos spaces, takeWhile_of_isLed h, List.append_nil]
  have left : (t ++ r).dropWhile isSpace = r := by
    have whole := take_drop_while (p := isSpace) (t ++ r)
    rw [taken] at whole
    exact List.append_cancel_left whole
  rw [readFiller?, taken, left, if_neg (by simpa using nonempty)]

theorem readFiller?_cons_of_solid {c : Char} (solid : isSpace c = false) (ne : c ≠ '<') (s : Text) :
    readFiller? (c :: s) = none := by
  have led : isLed (c :: s) = false := solid
  rw [readFiller?_of_isLed led, readComment?_cons_of_ne ne]
  rfl

theorem isLed_of_readFiller?_none (h : readFiller? s = none) : isLed s = false := by
  unfold readFiller? at h
  simp only at h
  split at h
  · next none => exact isLed_eq_false_of_takeWhile none
  · cases h

theorem readFiller?_eq_some {f : Filler} (h : readFiller? s = some (f, rest)) :
    (∃ t, f = .space t ∧ t ≠ [] ∧ (∀ c ∈ t, isSpace c = true) ∧ isLed rest = false) ∨
      ∃ t, f = .comment t ∧ readComment? s = some (t, rest) := by
  unfold readFiller? at h
  simp only at h
  split at h
  · obtain ⟨⟨t, r⟩, found, eq⟩ := Option.map_eq_some_iff.mp h
    cases eq
    exact .inr ⟨t, rfl, found⟩
  · next nonempty =>
    cases h
    exact .inl ⟨_, rfl, by simpa using nonempty, fun c hc => List.mem_takeWhile_imp hc,
      isLed_dropWhile s⟩

def Filler.Reads (r : Text) (f : Filler) : Prop := readFiller? (f.source ++ r) = some (f, r)

theorem Filler.reads_of_read {f : Filler} (h : readFiller? s = some (f, rest)) : f.Reads rest := by
  rw [Filler.Reads, (readFiller?_append h).1, h]

theorem Filler.Reads.space (h : (Filler.space t).Reads rest) :
    t ≠ [] ∧ (∀ c ∈ t, isSpace c = true) ∧ isLed rest = false := by
  obtain ⟨u, eq, nonempty, spaces, led⟩ | ⟨u, eq, -⟩ := readFiller?_eq_some h
  · cases eq
    exact ⟨nonempty, spaces, led⟩
  · cases eq

theorem Filler.reads_space (nonempty : t ≠ []) (spaces : ∀ c ∈ t, isSpace c = true)
    (led : isLed r = false) : (Filler.space t).Reads r := readFiller?_spaces spaces nonempty led

theorem Filler.reads_comment (h : readComment? s = some (t, rest)) (r : Text) :
    (Filler.comment t).Reads r := by
  have led : isLed (t ++ r) = false := by
    rw [isLed_append_of_ne_nil (readComment?_append h).2, isLed_of_readComment? h]
  rw [Filler.Reads, Filler.source, readFiller?_of_isLed led, readComment?_before h r]
  rfl

theorem Filler.Reads.before {f : Filler} (h : f.Reads rest)
    (led : isLed r = true → isLed rest = true) : f.Reads r := by
  obtain ⟨t, rfl, nonempty, spaces, stops⟩ | ⟨t, rfl, found⟩ := readFiller?_eq_some h
  · refine Filler.reads_space nonempty spaces ?_
    rw [← Bool.not_eq_true]
    intro goes
    rw [led goes] at stops
    cases stops
  · exact Filler.reads_comment found r

/-- The gap is read in front of the text, piece by piece. -/
def Gap.Reads (r : Text) : Gap → Prop
  | [] => True
  | f :: g => f.Reads (Gap.source g ++ r) ∧ Gap.Reads r g

theorem Gap.source_append (g h : Gap) : Gap.source (g ++ h) = g.source ++ h.source :=
  List.flatMap_append

theorem Gap.source_cons (f : Filler) (g : Gap) : Gap.source (f :: g) = f.source ++ g.source :=
  List.flatMap_cons

theorem Gap.reads_append {g h : Gap} :
    Gap.Reads r (g ++ h) ↔ Gap.Reads (h.source ++ r) g ∧ Gap.Reads r h := by
  induction g with
  | nil => simp [Gap.Reads]
  | cons f g ih =>
    rw [List.cons_append, Gap.Reads, Gap.Reads, ih, Gap.source_append, List.append_assoc, and_assoc]

theorem readGap_of_none (h : readFiller? s = none) : readGap s = ([], s) := by
  rw [readGap]
  split
  · rfl
  · next found =>
    rw [h] at found
    cases found

theorem readGap_of_some {f : Filler} (h : readFiller? s = some (f, rest)) :
    readGap s = (f :: (readGap rest).1, (readGap rest).2) := by
  rw [readGap]
  split
  · next found =>
    rw [h] at found
    cases found
  · next found =>
    rw [h] at found
    cases found
    rfl

theorem readGap_cons_of_solid {c : Char} (solid : isSpace c = false) (ne : c ≠ '<') (s : Text) :
    readGap (c :: s) = ([], c :: s) := readGap_of_none (readFiller?_cons_of_solid solid ne s)

theorem readFiller?_readGap (s : Text) : readFiller? (readGap s).2 = none := by
  fun_induction readGap s with
  | case1 s found => exact found
  | case2 s f rest found _ gap r eq ih => rwa [eq] at ih

theorem Gap.reads_readGap (s : Text) : Gap.Reads (readGap s).2 (readGap s).1 := by
  fun_induction readGap s with
  | case1 s found => trivial
  | case2 s f rest found _ gap r eq ih =>
    have whole := readGap_append rest
    rw [eq] at ih whole
    refine ⟨?_, ih⟩
    rw [whole]
    exact Filler.reads_of_read found

theorem readGap_append_of_reads {g : Gap} (h : Gap.Reads r g) :
    readGap (g.source ++ r) = (g ++ (readGap r).1, (readGap r).2) := by
  induction g with
  | nil => rfl
  | cons f g ih =>
    rw [Gap.source_cons, List.append_assoc, readGap_of_some h.1, ih h.2]
    rfl

theorem readGap_eq_of_reads {g : Gap} (h : Gap.Reads r g) (stops : readFiller? r = none) :
    readGap (g.source ++ r) = (g, r) := by
  rw [readGap_append_of_reads h, readGap_of_none stops, List.append_nil]

theorem Gap.Reads.before {g : Gap} (h : Gap.Reads rest g)
    (led : isLed r = true → isLed rest = true) : Gap.Reads r g := by
  induction g with
  | nil => trivial
  | cons f g ih =>
    refine ⟨h.1.before ?_, ih h.2⟩
    by_cases none : Gap.source g = []
    · rw [none]
      exact led
    · rw [isLed_append_of_ne_nil none, isLed_append_of_ne_nil none]
      exact id

theorem Gap.Reads.head {g : Gap} (h : Gap.Reads rest g) (nonempty : g ≠ []) :
    ∃ c u, g.source = c :: u ∧ (isSpace c = true ∨ c = '<') := by
  cases g with
  | nil => exact absurd rfl nonempty
  | cons f g =>
    rw [Gap.source_cons]
    obtain ⟨t, rfl, nonempty, spaces, -⟩ | ⟨t, rfl, found⟩ := readFiller?_eq_some h.1
    · obtain ⟨c, u, rfl⟩ := List.exists_cons_of_ne_nil nonempty
      exact ⟨c, u ++ Gap.source g, rfl, .inl (spaces c List.mem_cons_self)⟩
    · obtain ⟨inner, -, more⟩ := Option.bind_eq_some_iff.mp found
      obtain ⟨⟨u, v⟩, -, eq⟩ := Option.map_eq_some_iff.mp more
      cases eq
      exact ⟨'<', _, rfl, .inr rfl⟩

def Gap.EndsSolid (g : Gap) : Prop := ∀ t, g.getLast? ≠ some (.space t)

theorem readComments_of_reads {g : Gap} (h : Gap.Reads r g) (solid : g.EndsSolid)
    (clear : opensComment r = false) : readComments (g.source ++ r) = (g, r) := by
  have stops : readFiller? (r.dropWhile isSpace) = none := by
    rw [readFiller?_of_isLed (isLed_dropWhile r), readComment?_of_opens clear]
    rfl
  have whole := take_drop_while (p := isSpace) r
  by_cases none : r.takeWhile isSpace = []
  · rw [none, List.nil_append] at whole
    rw [whole] at stops
    rw [readComments, readGap_eq_of_reads h stops]
    simp only
    split
    · next t last => exact absurd last (solid t)
    · rfl
  · have spaces : ∀ c ∈ r.takeWhile isSpace, isSpace c = true := fun c hc =>
      List.mem_takeWhile_imp hc
    have first := readFiller?_spaces spaces none (isLed_dropWhile r)
    rw [whole] at first
    rw [readComments, readGap_append_of_reads h, readGap_of_some first, readGap_of_none stops]
    simp only [List.getLast?_append, List.getLast?_singleton, Option.some_or, List.dropLast_concat,
      whole]

theorem reads_readComments (s : Text) :
    Gap.Reads (readComments s).2 (readComments s).1 ∧ (readComments s).1.EndsSolid := by
  have reads := Gap.reads_readGap s
  unfold readComments
  split
  next gap rest eq =>
  rw [eq] at reads
  split
  · next t last =>
    obtain ⟨front, rfl⟩ := List.getLast?_eq_some_iff.mp last
    have both := Gap.reads_append.mp reads
    have source : Gap.source [.space t] = t := by simp [Gap.source, Filler.source]
    rw [source] at both
    rw [List.dropLast_concat]
    refine ⟨both.1, fun u before => ?_⟩
    -- White space that is followed by white space would have been read as one piece with it.
    obtain ⟨outer, rfl⟩ := List.getLast?_eq_some_iff.mp before
    have previous := (Gap.reads_append.mp both.1).2.1
    obtain ⟨-, -, stops⟩ := Filler.Reads.space previous
    obtain ⟨nonempty, spaces, -⟩ := Filler.Reads.space both.2.1
    obtain ⟨c, v, rfl⟩ := List.exists_cons_of_ne_nil nonempty
    have led : isSpace c = false := stops
    rw [spaces c List.mem_cons_self] at led
    cases led
  · next other => exact ⟨reads, fun t last => other t last⟩

end MarkupGrader.Markup
