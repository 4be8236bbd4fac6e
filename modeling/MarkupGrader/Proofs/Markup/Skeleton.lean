import MarkupGrader.Proofs.Markup.Copy
import MarkupGrader.Proofs.Text.Collapse

/-! The skeleton of a source: its tags, doctypes and raw texts. It does not depend on where texts begin
and end, and so it can be told of a source in which texts run into each other or are left out. -/

namespace MarkupGrader.Markup

open Text (isLed isTrailed Spaced IsGlue)

variable {r s t rest : Text} {ts us : List Token}

def Token.isMarkup : Token → Bool
  | filler _ | text _ | entity _ => false
  | _ => true

def skeleton (ts : List Token) : List Token := ts.filter Token.isMarkup

def skeleton? (s : Text) : Option (List Token) := (tokens? s).map skeleton

theorem skeleton_append (ts us : List Token) : skeleton (ts ++ us) = skeleton ts ++ skeleton us :=
  List.filter_append ts us

theorem Token.isMarkup_squeeze (t : Token) : t.squeeze.isMarkup = t.isMarkup := by
  cases t with
  | filler f => cases f <;> rfl
  | _ => rfl

theorem skeleton_squeeze (ts : List Token) :
    skeleton (ts.map Token.squeeze) = (skeleton ts).map Token.squeeze := by
  rw [skeleton, skeleton, List.filter_map]
  exact congrArg (List.map Token.squeeze)
    (List.filter_congr fun t _ => t.isMarkup_squeeze)

theorem AllRead.skeleton? (h : AllRead r ts) :
    skeleton? (Token.sources ts ++ r) = (Markup.skeleton? r).map (skeleton ts ++ ·) := by
  rw [Markup.skeleton?, Markup.skeleton?, h.tokens?_append, Option.map_map, Option.map_map]
  exact Option.map_congr fun us _ => skeleton_append ts us

theorem skeleton?_nil : skeleton? [] = some [] := by
  have all := AllRead.nil.tokens?
  rw [skeleton?, show tokens? [] = some [] from all]
  rfl

/-- A text that holds nothing but texts and white space can be read as such. -/
def IsBare (r s : Text) : Prop := ∃ ts, AllRead r ts ∧ Token.sources ts = s ∧ skeleton ts = []

theorem isBare_spaces (spaces : ∀ c ∈ s, isSpace c = true) (led : isLed r = false) : IsBare r s := by
  by_cases none : s = []
  · exact ⟨[], .nil, none.symm, rfl⟩
  · exact ⟨[.filler (.space s)], .cons (Filler.reads_space none spaces led) .nil,
      List.append_nil s, rfl⟩

theorem IsBare.append {a b : Text} (first : IsBare (b ++ r) a) (second : IsBare r b) :
    IsBare r (a ++ b) := by
  obtain ⟨ts, reads, rfl, none⟩ := first
  obtain ⟨us, more, rfl, none'⟩ := second
  exact ⟨ts ++ us, reads.append more, Token.sources_append ts us,
    by rw [skeleton_append, none, none']; rfl⟩

theorem isBare_of_textReads (h : TextReads r t) : IsBare r t :=
  ⟨[.text t], .cons h .nil, List.append_nil t, rfl⟩

theorem isLed_of_stops (stops : r.head?.any isTextChar = false) : isLed r = false := by
  cases r with
  | nil => rfl
  | cons c r =>
    rw [Text.isLed_cons, ← Bool.not_eq_true]
    intro space
    rw [List.head?_cons, Option.any_some, isTextChar_of_isSpace space] at stops
    cases stops

/-- Between white space at its ends, a text is read as one. -/
theorem isBare_of_chars (chars : ∀ c ∈ s, isTextChar c = true)
    (stops : r.head?.any isTextChar = false) : IsBare r s := by
  have solid := isLed_of_stops stops
  -- White space is cut off at both ends, and what is left between is a text unless it is empty.
  have front := take_drop_while (p := isSpace) s
  have begins := isLed_dropWhile s
  generalize inner : s.dropWhile isSpace = u at front begins
  have back := congrArg List.reverse (take_drop_while (p := isSpace) u.reverse)
  rw [List.reverse_append, List.reverse_reverse] at back
  have ends := isLed_dropWhile u.reverse
  generalize (u.reverse.dropWhile isSpace) = t at back ends
  have spaces : ∀ c ∈ (u.reverse.takeWhile isSpace).reverse, isSpace c = true := fun c hc =>
    List.mem_takeWhile_imp (List.mem_reverse.mp hc)
  generalize (u.reverse.takeWhile isSpace).reverse = b at back spaces
  have behind : IsBare r u := by
    by_cases empty : t.reverse = []
    · rw [empty, List.nil_append] at back
      exact isBare_spaces (back ▸ spaces) solid
    · have led : isLed t.reverse = false := by
        rw [← back, Text.isLed_append_of_ne_nil empty] at begins
        exact begins
      have own : ∀ c ∈ t.reverse, isTextChar c = true := fun c hc => chars c (by
        rw [← front, ← back]
        exact List.mem_append_right _ (List.mem_append_left _ hc))
      rw [← back]
      refine (isBare_of_textReads ⟨own, empty, led, ?_, ?_⟩).append (isBare_spaces spaces solid)
      · rwa [isTrailed_eq_isLed_reverse, List.reverse_reverse]
      · rwa [(takeWhile_append_of_stops spaces solid).2]
  rw [← front]
  refine IsBare.append (isBare_spaces (fun c hc => List.mem_takeWhile_imp hc) ?_) behind
  cases u with
  | nil => exact solid
  | cons c u => exact begins

/-- Text does not matter for the skeleton, also where it runs into a text behind it. -/
theorem skeleton?_append (chars : ∀ c ∈ s, isTextChar c = true) (r : Text) :
    skeleton? (s ++ r) = skeleton? r := by
  have stops := any_head?_dropWhile isTextChar r
  have run := take_drop_while (p := isTextChar) r
  -- Both sides are read from where the text behind stops, since it may be one text with `s`.
  have skip : ∀ u, (∀ c ∈ u, isTextChar c = true) →
      skeleton? (u ++ r.dropWhile isTextChar) = skeleton? (r.dropWhile isTextChar) := by
    intro u chars
    obtain ⟨ts, reads, rfl, none⟩ := isBare_of_chars chars stops
    rw [reads.skeleton?, none]
    exact Option.map_id'
  have own : ∀ c ∈ r.takeWhile isTextChar, isTextChar c = true := fun c hc =>
    List.mem_takeWhile_imp hc
  rw [← run, ← List.append_assoc, skip _ (List.forall_mem_append.mpr ⟨chars, own⟩), skip _ own]

theorem isTextChar_of_isBlank {c : Char} (blank : Text.isBlank c = true) : isTextChar c = true := by
  have ne : ∀ d : Char, Text.isBlank d = false → (c == d) = false := by
    rintro d solid
    rw [beq_eq_false_iff_ne]
    rintro rfl
    rw [blank] at solid
    cases solid
  rw [isTextChar, ne '<' rfl, ne '>' rfl, ne '&' rfl]
  rfl

theorem isTextChar_collapse (chars : ∀ c ∈ s, isTextChar c = true) :
    ∀ c ∈ Text.collapse s, isTextChar c = true := by
  intro c hc
  cases blank : Text.isBlank c with
  | true => exact isTextChar_of_isBlank blank
  | false =>
    have kept : c ∈ Text.dropBlanks (Text.collapse s) :=
      List.mem_filter.mpr ⟨hc, by rw [blank]; rfl⟩
    rw [Text.dropBlanks_collapse] at kept
    exact chars c (List.mem_of_mem_filter kept)

theorem isTextChar_of_isGlue {u : Text} (glue : IsGlue u) : ∀ c ∈ u, isTextChar c = true := by
  rcases glue with rfl | rfl
  · simp
  · exact List.forall_mem_singleton.mpr rfl

theorem skeleton?_collapse_append (a b r : Text) :
    ∃ u : Text, Text.collapse (a ++ b) ++ r = Text.collapse a ++ (u ++ (Text.collapse b ++ r)) ∧
      skeleton? (u ++ (Text.collapse b ++ r)) = skeleton? (Text.collapse b ++ r) := by
  obtain ⟨u, glue, eq⟩ := Text.exists_collapse_append a b
  exact ⟨u, by rw [eq, List.append_assoc, List.append_assoc],
    skeleton?_append (isTextChar_of_isGlue glue) _⟩

theorem skeleton?_collapse_chars (chars : ∀ c ∈ s, isTextChar c = true) (b r : Text) :
    skeleton? (Text.collapse (s ++ b) ++ r) = skeleton? (Text.collapse b ++ r) := by
  obtain ⟨u, eq, same⟩ := skeleton?_collapse_append s b r
  rw [eq, skeleton?_append (isTextChar_collapse chars), same]

theorem Token.Reads.skeleton? {t : Token} (h : t.Reads s) :
    skeleton? (t.source ++ s) = (Markup.skeleton? s).map (skeleton [t] ++ ·) := by
  have single := (AllRead.cons h .nil : AllRead s [t]).skeleton?
  rwa [Token.sources, List.flatMap_singleton] at single

theorem Token.Reads.collapse {t : Token} (h : t.Reads r) (phrase : t.isPhrase = true)
    (clear : t.isClear = true) (markup : t.isMarkup = true) (spaced : Spaced t.source) :
    Text.collapse t.source = t.squeeze.source ∧ ∀ s, t.squeeze.Reads s := by
  have visible : t.isSpace = false := by
    cases t with
    | filler f => cases markup
    | _ => rfl
  have follows : ∀ rest s, t.squeeze.Follows rest s := by
    intro rest s
    cases t with
    | filler f => cases markup
    | text t => cases markup
    | entity t => cases markup
    | _ => trivial
  have alone : t.Reads [] := h.before clear (t.follows_of_halts phrase visible halts_nil r)
  obtain ⟨reads, whole⟩ := alone.squeeze phrase
  rw [List.append_nil, Text.squeeze_nil, List.append_nil] at whole
  rw [Text.collapse_eq_squeeze spaced (h.isLed visible phrase) (h.isTrailed visible phrase), whole]
  exact ⟨rfl, fun s => reads.before (t.isClear_squeeze.trans clear) (follows _ s)⟩

theorem goesOn_collapseBehind {p : Char → Bool} (space : p ' ' = false)
    (stops : r.head?.any p = false) (s rest : Text) :
    GoesOn p (s ++ rest) (Text.collapseBehind s ++ r) := by
  rcases Text.head?_collapseBehind s with same | glued | none
  · cases s with
    | nil => exact .inr stops
    | cons c s =>
      obtain ⟨u, eq⟩ := List.head?_eq_some_iff.mp same
      exact .inl (by rw [eq]; rfl)
  · obtain ⟨u, eq⟩ := List.head?_eq_some_iff.mp glued
    exact .inr (by rw [eq]; exact space)
  · exact .inr (by rw [none]; exact stops)

theorem Token.Reads.skeleton?_collapse {t : Token} (h : t.Reads (rest ++ r))
    (phrase : t.isPhrase = true) (clear : t.isClear = true)
    (spaced : t.isMarkup = true → Spaced t.source)
    (stops : s.head?.any (fun c => c.isAlphanum || c == ';') = false) :
    Markup.skeleton? (Text.collapse (t.source ++ rest) ++ s) =
      (Markup.skeleton? (Text.collapse rest ++ s)).map (skeleton [t.squeeze] ++ ·) := by
  cases markup : t.isMarkup with
  | true =>
    obtain ⟨whole, reads⟩ := h.collapse phrase clear markup (spaced markup)
    obtain ⟨u, eq, same⟩ := skeleton?_collapse_append t.source rest s
    rw [eq, whole, (reads _).skeleton?, same]
  | false =>
    have none : skeleton [t.squeeze] = [] :=
      List.filter_cons_of_neg (Bool.eq_false_iff.mp (t.isMarkup_squeeze.trans markup))
    have kept : (Markup.skeleton? (Text.collapse rest ++ s)).map ([] ++ ·) =
        Markup.skeleton? (Text.collapse rest ++ s) := Option.map_id'
    rw [none, kept]
    cases t with
    | filler f =>
      cases f with
      | comment t => cases phrase
      | space t =>
        exact skeleton?_collapse_chars
          (fun c hc => isTextChar_of_isSpace ((Filler.Reads.space h).2.1 c hc)) rest s
    | text t => exact skeleton?_collapse_chars (TextReads.chars h) rest s
    | entity e =>
      obtain ⟨u, glue, eq⟩ := Text.exists_collapseBehind rest
      have reads : (Token.entity e).Reads (Text.collapseBehind rest ++ s) :=
        Token.Reads.before h clear (goesOn_collapseBehind rfl stops rest r)
      have whole := Text.collapse_append_of_solid h.1.visible h.source_ne_nil rest
      rw [Token.source, whole, List.append_assoc]
      refine reads.skeleton?.trans ?_
      rw [eq, List.append_assoc, skeleton?_append (isTextChar_of_isGlue glue)]
      exact kept
    | doctype d => cases markup
    | tag t => cases markup
    | endTag t => cases markup
    | raw t => cases markup

/-- A row that is collapsed has the tags of the row, squeezed, whatever its texts are. -/
theorem AllRead.skeleton?_collapse (h : AllRead r ts)
    (phrase : ∀ t ∈ ts, t.isPhrase = true ∧ t.isClear = true)
    (spaced : ∀ t ∈ ts, t.isMarkup = true → Spaced t.source)
    (stops : s.head?.any (fun c => c.isAlphanum || c == ';') = false) :
    Markup.skeleton? (Text.collapse (Token.sources ts) ++ s) =
      (Markup.skeleton? s).map (skeleton (ts.map Token.squeeze) ++ ·) := by
  induction h with
  | nil => exact Option.map_id'.symm
  | @cons t ts h _ ih =>
    obtain ⟨⟨own, clear⟩, others⟩ := List.forall_mem_cons.mp phrase
    obtain ⟨tagged, more⟩ := List.forall_mem_cons.mp spaced
    rw [Token.sources, List.flatMap_cons, h.skeleton?_collapse own clear tagged stops,
      ih others more, Option.map_map, List.map_cons]
    exact Option.map_congr fun us _ => by
      rw [Function.comp_apply, ← List.append_assoc, ← skeleton_append]
      rfl
  | @raw t raw ts _ _ _ _ _ _ => cases (phrase (.raw raw) (by simp)).1

end MarkupGrader.Markup
