import MarkupGrader.Proofs.Selector.Policies
import MarkupGrader.Proofs.Text.Weight

/-! When the written form of a chain that was read means that chain. What can be read of a text is
never longer, when it is written, than the text. So a written form that is read as its chain leaves
no room for anything else, and is split exactly where it was joined. -/

namespace MarkupGrader.Selector

variable {s : Selector} {pairs : List (Text × Text)} {piece inner : Text}

theorem Ascending.nodup_keys {pairs : List (Text × Text)} (h : Ascending pairs) :
    (pairs.map Prod.fst).Nodup := by
  refine List.pairwise_map.mpr (h.imp fun before same => ?_)
  rw [same, Text.precedes_irrefl] at before
  cases before

theorem splitFirst?_written {p : Text × Text} (key : '=' ∉ p.1) (t : Text) :
    Text.splitFirst? (· = '=') (written p ++ t) = some (p.1, '"' :: (p.2 ++ '"' :: t)) := by
  have clear : ∀ c ∈ p.1, decide (c = '=') = false :=
    fun c hc => decide_eq_false fun eq => key (eq ▸ hc)
  have whole : written p ++ t = p.1 ++ '=' :: '"' :: (p.2 ++ '"' :: t) := by simp [written]
  rw [whole]
  exact Text.splitFirst?_append (p := (· = '=')) rfl clear _

theorem key_eq_of_written {p q : Text × Text} (hp : '=' ∉ p.1) (hq : '=' ∉ q.1) {t u : Text}
    (same : written p ++ t = written q ++ u) : p.1 = q.1 := by
  have split := congrArg (Text.splitFirst? (· = '=')) same
  rw [splitFirst?_written hp, splitFirst?_written hq] at split
  exact (Prod.mk.inj (Option.some.inj split)).1

theorem eq_of_perm_of_join {as bs : List (Text × Text)} (distinct : (bs.map Prod.fst).Nodup)
    (key : ∀ p ∈ bs, '=' ∉ p.1) (perm : as.Perm bs)
    (same : Text.join "|" (as.map written) = Text.join "|" (bs.map written)) : as = bs := by
  induction bs generalizing as with
  | nil => exact perm.eq_nil
  | cons b bs ih =>
    obtain ⟨own, others⟩ := List.nodup_cons.mp distinct
    cases as with
    | nil => exact perm.nil_eq
    | cons a as =>
      have lengths := perm.length_eq
      -- Behind the first predicates stands nothing on both sides, or a bar and the others.
      have front : ∃ t u, written a ++ t = written b ++ u ∧
          (t = u → Text.join "|" (as.map written) = Text.join "|" (bs.map written)) := by
        cases as with
        | nil =>
          obtain rfl : bs = [] := List.eq_nil_of_length_eq_zero (by simpa using lengths.symm)
          refine ⟨[], [], ?_, fun _ => rfl⟩
          simpa only [List.map_singleton, Text.join_singleton, List.append_nil] using same
        | cons second more =>
          obtain ⟨third, rest, rfl⟩ := List.exists_cons_of_length_pos (l := bs) (by simp at lengths; omega)
          exact ⟨_, _, by simpa only [List.map_cons, Text.join_cons_cons] using same,
            List.append_cancel_left⟩
      obtain ⟨t, u, joined, rest⟩ := front
      have mem : a ∈ b :: bs := perm.subset List.mem_cons_self
      have first : a = b := by
        have keys := key_eq_of_written (key a mem) (key b List.mem_cons_self) joined
        rcases List.mem_cons.mp mem with rfl | mem
        · rfl
        · exact absurd (List.mem_map_of_mem mem) (keys ▸ own)
      subst first
      rw [ih others (fun p hp => key p (List.mem_cons_of_mem _ hp)) perm.cons_inv
        (rest (List.append_cancel_left joined))]

structure Fills (s : Selector) (inner : Text) (pairs : List (Text × Text)) : Prop where
  each : List.Forall₂ (fun p q => p.1 ≠ [] ∧ '=' ∉ p.1 ∧
    ∃ before behind, q = p.1 ++ '=' :: (before ++ '"' :: (p.2 ++ '"' :: behind))) pairs
      (predicates inner)
  attributes : s.attributes ⊆ pairs

theorem fills_of_map (each : (predicates inner).map (readPredicate piece) = pairs.map .ok)
    (all : s = (named s.name).withAll pairs) : s.Fills inner pairs where
  each := by
    have sides : List.Forall₂ (· = ·) (pairs.map .ok) ((predicates inner).map (readPredicate piece)) :=
      List.forall₂_eq_eq_eq ▸ each.symm
    rw [List.forall₂_map_left_iff, List.forall₂_map_right_iff] at sides
    exact sides.imp fun p q read => exists_of_readPredicate read.symm
  attributes := by
    intro p hp
    rw [all] at hp
    exact (mem_attributes_withAll hp).resolve_left List.not_mem_nil

theorem join_predicates (t : Text) : Text.join "|" (predicates t) = t := (predicates_eq_iff.mp rfl).2

theorem weight_predicates (t : Text) : Text.weight (predicates t) = t.length + 1 := by
  have nonempty : predicates t ≠ [] := splitOutside_ne_nil
  rw [← Text.length_join '|' nonempty]
  exact congrArg (List.length · + 1) (join_predicates t)

namespace Fills

variable (h : s.Fills inner pairs)
include h

theorem written_or_shorter : List.Forall₂
    (fun t q => t.length ≤ q.length ∧ (t.length = q.length → t = q)) (pairs.map written)
    (predicates inner) := by
  rw [List.forall₂_map_left_iff]
  refine h.each.imp fun p q read => ?_
  obtain ⟨-, -, before, behind, rfl⟩ := read
  simp only [written_eq, List.length_append, List.length_cons, List.length_nil]
  refine ⟨by omega, fun same => ?_⟩
  obtain rfl : before = [] := List.eq_nil_of_length_eq_zero (by omega)
  obtain rfl : behind = [] := List.eq_nil_of_length_eq_zero (by rw [List.length_nil] at same; omega)
  rfl

theorem weight_attributes_le :
    Text.weight (s.attributes.map written) ≤ Text.weight (pairs.map written) := by
  rw [Text.weight, Text.weight, List.map_map, List.map_map]
  exact sum_le_of_subset _ (Ascending.nodup_keys s.ascending).of_map h.attributes

theorem weight_pairs_le : Text.weight (pairs.map written) ≤ inner.length + 1 := by
  rw [← weight_predicates]
  exact Text.Shorter.weight_le (h.written_or_shorter.imp fun _ _ both => both.1)

theorem predicates_eq (key : ∀ p ∈ s.attributes, '=' ∉ p.1) (some : s.attributes ≠ [])
    (whole : inner = Text.join "|" (s.attributes.map written)) :
    predicates inner = s.attributes.map written := by
  have total : inner.length + 1 = Text.weight (s.attributes.map written) := by
    rw [whole]
    exact Text.length_join '|' (by simpa using some)
  have each : pairs.map written = predicates inner := by
    refine Text.eq_of_weight_le h.written_or_shorter ?_
    rw [weight_predicates, total]
    exact h.weight_attributes_le
  have perm : s.attributes.Perm pairs := by
    refine perm_of_subset_of_sum (f := fun p => (written p).length + 1) (fun _ => Nat.succ_pos _)
      (Ascending.nodup_keys s.ascending).of_map h.attributes ?_
    have most := h.weight_pairs_le.trans total.le
    rwa [Text.weight, Text.weight, List.map_map, List.map_map] at most
  have same : Text.join "|" (pairs.map written) = Text.join "|" (s.attributes.map written) := by
    rw [each, join_predicates, whole]
  rw [← each, eq_of_perm_of_join (Ascending.nodup_keys s.ascending) key perm.symm same]

end Fills

theorem isLegible_of_readLevel (formed : s.IsFormed) (h : readLevel s.display = .ok s) :
    s.IsLegible := by
  intro some
  obtain ⟨-, -, form⟩ := isReadFrom_of_readLevel h
  rw [display_of_attributes some] at form
  generalize shown : s.name ++ '(' :: (Text.join "|" (s.attributes.map written) ++ [')']) = piece
    at form
  cases form with
  | bare plain _ => exact absurd plain some
  | empty plain => exact absurd plain some
  | filled each all =>
    obtain rfl := List.append_cancel_right (List.cons.inj (List.append_cancel_left shown)).2
    exact (fills_of_map each all).predicates_eq (fun p hp mem => (formed.key p hp _ mem).2 rfl)
      some rfl

theorem length_display_le (h : readLevel piece = .ok s) : s.display.length ≤ piece.length := by
  obtain ⟨-, -, form⟩ := isReadFrom_of_readLevel h
  by_cases none : s.attributes = []
  · rw [display_of_no_attributes none]
    cases form with
    | bare _ _ => exact Nat.le_refl _
    | empty _ => simp
    | filled _ _ => simp
  · cases form with
    | bare plain _ => exact absurd plain none
    | empty plain => exact absurd plain none
    | @filled inner pairs each all =>
      have fills := fills_of_map each all
      have nonempty : s.attributes.map written ≠ [] := by simpa using none
      have room := fills.weight_attributes_le.trans fills.weight_pairs_le
      rw [display_of_attributes none, List.length_append, List.length_append, List.length_cons,
        List.length_cons, List.length_append, List.length_append]
      have total : (Text.join "|" (s.attributes.map written)).length + 1 =
          Text.weight (s.attributes.map written) := Text.length_join '|' nonempty
      omega

namespace Chain

variable {c : Chain} {command : Text}

theorem isLegible_of_readPartial (formed : ∀ s ∈ c.toList, s.IsFormed)
    (h : readPartial (keyword ++ "(" ++ c.display ++ ")") = .ok ⟨c.toList, none⟩) :
    c.IsLegible := by
  rw [readPartial_enclosed (solid_display formed), Except.ok.injEq] at h
  obtain ⟨ss, failure, read, eq⟩ := exists_readsAs_readParameters (display_ne_nil formed)
  rw [eq, PartialChain.mk.injEq] at h
  obtain ⟨turned, rfl⟩ := h
  obtain rfl : ss = c.toList.reverse := by rw [← turned, List.reverse_reverse]
  have each : (levels c.display).reverse.map readLevel = c.toList.map .ok := by
    rw [List.map_reverse, read.map_eq, ← List.map_reverse, List.reverse_reverse]
  -- No level is shorter than its selector's display, and all of them are as long as all displays.
  have shorter : Text.Shorter (c.toList.map Selector.display) (levels c.display).reverse := by
    have sides : List.Forall₂ (· = ·) (c.toList.map .ok) ((levels c.display).reverse.map readLevel) :=
      List.forall₂_eq_eq_eq ▸ each.symm
    rw [List.forall₂_map_left_iff, List.forall₂_map_right_iff] at sides
    rw [Text.Shorter, List.forall₂_map_left_iff]
    exact sides.imp fun s piece level => length_display_le level.symm
  have joined : Text.join ['>'] (c.toList.map Selector.display) =
      Text.join ['>'] (levels c.display).reverse := ((levels_eq_iff.mp rfl).2).symm
  have pieces := shorter.eq_of_join_eq joined
  refine ⟨by rw [pieces, List.reverse_reverse], fun s hs => ?_⟩
  rw [← pieces, List.map_map] at each
  exact isLegible_of_readLevel (formed s hs) (List.map_inj_left.mp each s hs)

theorem isLegible_of_plain (formed : ∀ s ∈ c.toList, s.IsFormed ∧ s.HasPlainName)
    (plain : ∀ s ∈ c.toList, ∀ p ∈ s.attributes, (∀ x ∈ p.1, x ∉ keyEnds) ∧ ∀ x ∈ p.2, x ≠ '"') :
    c.IsLegible := by
  refine isLegible_of_writable fun s hs => ?_
  obtain ⟨own, name⟩ := formed s hs
  refine ⟨own.named, fun x hx => ⟨(own.name x hx).1, ?_⟩, own.keyed,
    fun p hp x hx => ⟨(own.key p hp x hx).1, (plain s hs p hp).1 x hx⟩,
    fun p hp x hx => ⟨own.value p hp x hx, (plain s hs p hp).2 x hx⟩⟩
  simp only [nameEnds, List.mem_cons, List.not_mem_nil, or_false, not_or]
  exact ⟨(own.name x hx).2, (name x hx).1, (name x hx).2⟩

/-- A chain that the strict policy accepts is read back from its written form exactly if that form is
split again where it was put together. It is if no attribute name has a quote, a bar or a parenthesis
and no value has a quote. -/
theorem reread_iff (accepted : Chain.read command .strict = .ok c) :
    (Chain.read (keyword ++ "(" ++ c.display ++ ")") .strict = .ok c ↔ c.IsLegible) ∧
    ((∀ s ∈ c.toList, ∀ p ∈ s.attributes, (∀ x ∈ p.1, x ∉ keyEnds) ∧ ∀ x ∈ p.2, x ≠ '"') →
      c.IsLegible) := by
  have formed := formed_of_read_strict accepted
  have each : ∀ s ∈ c.toList, s.IsFormed := fun s hs => (formed s hs).1
  obtain ⟨-, anchor⟩ := read_strict_iff.mp accepted
  refine ⟨⟨fun reread => ?_, fun legible => ?_⟩, isLegible_of_plain formed⟩
  · exact isLegible_of_readPartial each (read_strict_iff.mp reread).1
  · have closed : ∀ s ∈ c.toList, ')' ∉ s.name := fun s hs mem => ((formed s hs).2 _ mem).1 rfl
    exact read_strict_iff.mpr ⟨readPartial_display each closed legible, anchor⟩

/-- Quotes in a value come in pairs here, the parentheses around the other value are left out, and the
attributes are put in their order. -/
theorem reread_iff_quotes :
    let command : Text := "contains(body>a(title=\"x\"y\"z\"|id=(\"k\")))"
    let c : Chain := ⟨named "body", [⟨"a", [("id", "k"), ("title", "x\"y\"z")], by decide⟩]⟩
    Chain.read command .strict = .ok c ∧
      c.display = "body>a(id=\"k\"|title=\"x\"y\"z\")".toList ∧
      Chain.read (keyword ++ "(" ++ c.display ++ ")") .strict = .ok c ∧ c.IsLegible := by
  intro command c
  have accepted : Chain.read command .strict = .ok c := rfl
  have reread : Chain.read (keyword ++ "(" ++ c.display ++ ")") .strict = .ok c := rfl
  exact ⟨accepted, rfl, reread, (reread_iff accepted).1.mp reread⟩

/-- Without the parentheses that hid its delimiter, a value is read as two. -/
theorem not_reread_parentheses :
    let command : Text := "contains(body(a=(\"x\"|b=\"y\")))"
    let c : Chain := ⟨⟨"body", [("a", "x\"|b=\"y")], by decide⟩, []⟩
    Chain.read command .strict = .ok c ∧ c.display = "body(a=\"x\"|b=\"y\")".toList ∧
      Chain.read (keyword ++ "(" ++ c.display ++ ")") .strict =
        .ok ⟨⟨"body", [("a", "x"), ("b", "y")], by decide⟩, []⟩ ∧
      Chain.read (keyword ++ "(" ++ c.display ++ ")") .strict ≠ .ok c := by
  intro command c
  refine ⟨rfl, rfl, rfl, ?_⟩
  have other : Chain.read (keyword ++ "(" ++ c.display ++ ")") .strict =
      .ok ⟨⟨"body", [("a", "x"), ("b", "y")], by decide⟩, []⟩ := rfl
  rw [other]
  simp [c]

end Chain

end MarkupGrader.Selector
