/-! Text is a list of characters, so that every function on it is a recursion on a list. String
literals are read as text, and the other modules of this folder give the few operations that the
graders need: blanks, lines, byte positions, sixteen-bit units and quoting. -/

namespace MarkupGrader

abbrev Text := List Char

instance : Coe String Text := ⟨String.toList⟩

namespace Text

def lower (t : Text) : Text := t.map Char.toLower

def upper (t : Text) : Text := t.map Char.toUpper

/-- Two texts are the same name when they differ at most in the case of ASCII letters. -/
def sameName (a b : Text) : Bool := a.lower == b.lower

theorem sameName_iff {a b : Text} : sameName a b = true ↔ a.lower = b.lower := by
  simp [sameName]

def after? : (p t : Text) → Option Text
  | [], t => some t
  | _ :: _, [] => none
  | p :: ps, c :: cs => if p = c then after? ps cs else none

theorem after?_eq_some {p t rest : Text} : after? p t = some rest ↔ t = p ++ rest := by
  induction p generalizing t with
  | nil => simp [after?]
  | cons p ps ih =>
    cases t with
    | nil => simp [after?]
    | cons c cs =>
      by_cases h : p = c
      · simp [after?, h, ih]
      · simp [after?, h, Ne.symm h]

def before? (p t : Text) : Option Text := (after? p.reverse t.reverse).map List.reverse

theorem before?_eq_some {p t front : Text} : before? p t = some front ↔ t = front ++ p := by
  simp only [before?, Option.map_eq_some_iff, after?_eq_some]
  constructor
  · rintro ⟨r, eq, rfl⟩
    simpa using congrArg List.reverse eq
  · rintro rfl
    exact ⟨front.reverse, by simp⟩

def startsWith (t p : Text) : Bool := p.isPrefixOf t

def precedes : Text → Text → Bool
  | _, [] => false
  | [], _ :: _ => true
  | c :: cs, d :: ds => decide (c.toNat < d.toNat) || (c == d && precedes cs ds)

theorem precedes_trans {a b c : Text} (ab : precedes a b = true) (bc : precedes b c = true) :
    precedes a c = true := by
  induction a generalizing b c with
  | nil =>
    cases c with
    | nil => cases b <;> simp [precedes] at bc
    | cons z zs => rfl
  | cons x xs ih =>
    cases b with
    | nil => simp [precedes] at ab
    | cons y ys =>
      cases c with
      | nil => simp [precedes] at bc
      | cons z zs =>
        simp only [precedes, Bool.or_eq_true, decide_eq_true_eq, Bool.and_eq_true, beq_iff_eq]
          at ab bc ⊢
        rcases ab with lt | ⟨rfl, ab⟩ <;> rcases bc with lt' | ⟨rfl, bc⟩
        · exact .inl (Nat.lt_trans lt lt')
        · exact .inl lt
        · exact .inl lt'
        · exact .inr ⟨rfl, ih ab bc⟩

theorem precedes_of_not_precedes {a b : Text} (h : precedes a b = false) (ne : a ≠ b) :
    precedes b a = true := by
  induction a generalizing b with
  | nil =>
    cases b with
    | nil => exact absurd rfl ne
    | cons y ys => simp [precedes] at h
  | cons x xs ih =>
    cases b with
    | nil => rfl
    | cons y ys =>
      simp only [precedes, Bool.or_eq_false_iff, decide_eq_false_iff_not, Bool.and_eq_false_iff,
        beq_eq_false_iff_ne, Nat.not_lt] at h
      simp only [precedes, Bool.or_eq_true, decide_eq_true_eq, Bool.and_eq_true, beq_iff_eq]
      by_cases same : x = y
      · subst same
        exact .inr ⟨rfl, ih (by simpa using h.2) (by simpa using ne)⟩
      · have : x.toNat ≠ y.toNat := fun eq => same (Char.ext (UInt32.toNat_inj.mp eq))
        exact .inl (by omega)

def join (separator : Text) (parts : List Text) : Text := separator.intercalate parts

theorem join_singleton (separator t : Text) : join separator [t] = t := by
  simp [join, List.intercalate]

theorem join_cons_cons (separator first second : Text) (more : List Text) :
    join separator (first :: second :: more) =
      first ++ (separator ++ join separator (second :: more)) := by
  simp [join, List.intercalate]

theorem forall_mem_join {P : Char → Prop} {separator : Text} (between : ∀ c ∈ separator, P c)
    {parts : List Text} (each : ∀ t ∈ parts, ∀ c ∈ t, P c) : ∀ c ∈ join separator parts, P c := by
  induction parts with
  | nil => simp [join]
  | cons t rest ih =>
    obtain ⟨own, others⟩ := List.forall_mem_cons.mp each
    cases rest with
    | nil => rwa [join_singleton]
    | cons second more =>
      rw [join_cons_cons, List.forall_mem_append, List.forall_mem_append]
      exact ⟨own, between, ih others⟩

def replaceChar (c : Char) (replacement : Text) (t : Text) : Text :=
  t.flatMap fun d => if d = c then replacement else [d]

def ofNat (n : Nat) : Text := Nat.toDigits 10 n

/-- Splits at the first character with property `p`; that character belongs to neither part. -/
def splitFirst? (p : Char → Bool) : Text → Option (Text × Text)
  | [] => none
  | c :: rest =>
    if p c then some ([], rest)
    else (splitFirst? p rest).map fun (left, right) => (c :: left, right)

/-- Splits at the last character with property `p`; that character belongs to neither part. -/
def splitLast? (p : Char → Bool) (t : Text) : Option (Text × Text) :=
  (splitFirst? p t.reverse).map fun (right, left) => (left.reverse, right.reverse)

theorem splitFirst?_eq_some {p : Char → Bool} {t left right : Text}
    (h : splitFirst? p t = some (left, right)) :
    ∃ c, p c = true ∧ t = left ++ c :: right ∧ ∀ d ∈ left, p d = false := by
  induction t generalizing left with
  | nil => simp [splitFirst?] at h
  | cons c rest ih =>
    unfold splitFirst? at h
    split at h
    · next hc => exact ⟨c, hc, by simp_all⟩
    · next hc =>
      simp only [Option.map_eq_some_iff, Prod.exists, Prod.mk.injEq] at h
      obtain ⟨l, r, found, rfl, rfl⟩ := h
      obtain ⟨d, hd, rfl, clear⟩ := ih found
      refine ⟨d, hd, rfl, fun e he => ?_⟩
      rcases List.mem_cons.mp he with rfl | he
      · simpa using hc
      · exact clear e he

/-- The blanks in front of a line at nesting `depth`, with `width` of them for each level. -/
def indent (width depth : Nat) : Text := List.replicate (depth * width) ' '

/-- The text with blanks on its right so that it is at least `width` characters long. -/
def padRight (width : Nat) (t : Text) : Text := t ++ List.replicate (width - t.length) ' '

/-- The text with blanks on its left so that it is at least `width` characters long. -/
def padLeft (width : Nat) (t : Text) : Text := List.replicate (width - t.length) ' ' ++ t

end Text
end MarkupGrader
