import MarkupGrader.Proofs.Text.Bare

/-! Texts that occur in another text, one behind the other. -/

namespace MarkupGrader.Text

/-- The texts occur in this order at places that do not overlap. -/
inductive Occurs : List Text → Text → Prop
  | nil (t : Text) : Occurs [] t
  | cons (front t : Text) {ts : List Text} {rest : Text} (h : Occurs ts rest) :
      Occurs (t :: ts) (front ++ (t ++ rest))

variable {ts us : List Text} {a b t : Text}

theorem Occurs.append_left (h : Occurs ts b) (a : Text) : Occurs ts (a ++ b) := by
  cases h with
  | nil => exact .nil _
  | @cons front t ts rest h =>
    rw [← List.append_assoc]
    exact .cons (a ++ front) t h

theorem Occurs.infix (h : Occurs [t] a) : t <:+: a := by
  cases h with
  | @cons front t ts rest h => exact ⟨front, rest, List.append_assoc _ _ _⟩

/-- The texts without their blanks, and without those of which nothing remains. -/
def solid (ts : List Text) : List Text := (ts.map dropBlanks).filter (!·.isEmpty)

def allBlank (ts : List Text) : Bool := ts.all fun t => t.all isBlank

@[simp] theorem solid_nil : solid [] = [] := rfl

@[simp] theorem solid_append (ts us : List Text) : solid (ts ++ us) = solid ts ++ solid us := by
  rw [solid, List.map_append, List.filter_append]
  rfl

theorem solid_eq_nil : solid ts = [] ↔ allBlank ts = true := by
  rw [solid, List.filter_eq_nil_iff, List.forall_mem_map, allBlank, List.all_eq_true]
  refine forall₂_congr fun t _ => ?_
  have blank : dropBlanks t = [] ↔ t.all isBlank = true := by
    rw [dropBlanks_eq_nil, List.all_eq_true]
    rfl
  rw [← blank]
  simp

theorem solid_flatMap {α : Type} (f : α → List Text) (as : List α) :
    solid (as.flatMap f) = as.flatMap fun a => solid (f a) := by
  induction as with
  | nil => rfl
  | cons a as ih => rw [List.flatMap_cons, List.flatMap_cons, solid_append, ih]

theorem occurs_of_solid (h : Occurs (solid ts) a) : Occurs (ts.map dropBlanks) a := by
  induction ts generalizing a with
  | nil => exact .nil a
  | cons t ts ih =>
    rw [List.map_cons]
    cases empty : dropBlanks t with
    | nil =>
      have skip : solid (t :: ts) = solid ts := by
        rw [solid, List.map_cons, empty]
        rfl
      rw [skip] at h
      exact .cons [] [] (ih h)
    | cons c rest =>
      have keep : solid (t :: ts) = (c :: rest) :: solid ts := by
        rw [solid, List.map_cons, empty]
        rfl
      rw [keep] at h
      cases h with
      | @cons front _ _ behind h => exact .cons front (c :: rest) (ih h)

theorem occurs_congr (same : solid ts = solid us) (h : Occurs (ts.map dropBlanks) a) :
    Occurs (us.map dropBlanks) a := by
  refine occurs_of_solid ?_
  rw [← same]
  clear same
  induction ts generalizing a with
  | nil => exact .nil a
  | cons t ts ih =>
    rw [List.map_cons] at h
    cases h with
    | @cons front _ _ behind h =>
      cases empty : dropBlanks t with
      | nil =>
        have skip : solid (t :: ts) = solid ts := by
          rw [solid, List.map_cons, empty]
          rfl
        rw [skip, List.nil_append]
        exact (ih h).append_left front
      | cons c rest =>
        have keep : solid (t :: ts) = (c :: rest) :: solid ts := by
          rw [solid, List.map_cons, empty]
          rfl
        rw [keep]
        exact .cons front (c :: rest) (ih h)

variable {α β : Type}

theorem append_eq_iff_of_sublist {as as' bs bs' : List α} (ha : as.Sublist as')
    (hb : bs.Sublist bs') : as ++ bs = as' ++ bs' ↔ as = as' ∧ bs = bs' := by
  constructor
  · intro h
    have total := congrArg List.length h
    rw [List.length_append, List.length_append] at total
    have first := ha.length_le
    have second := hb.length_le
    exact ⟨ha.eq_of_length (by omega), hb.eq_of_length (by omega)⟩
  · rintro ⟨rfl, rfl⟩
    rfl

theorem flatMap_sublist {f g : β → List α} {bs : List β} (h : ∀ b ∈ bs, (f b).Sublist (g b)) :
    (bs.flatMap f).Sublist (bs.flatMap g) := by
  induction bs with
  | nil => exact List.Sublist.refl _
  | cons b bs ih =>
    rw [List.flatMap_cons, List.flatMap_cons]
    exact (h b List.mem_cons_self).append (ih fun c hc => h c (List.mem_cons_of_mem _ hc))

theorem flatMap_eq_iff_of_sublist {f g : β → List α} {bs : List β}
    (h : ∀ b ∈ bs, (f b).Sublist (g b)) :
    bs.flatMap f = bs.flatMap g ↔ ∀ b ∈ bs, f b = g b := by
  induction bs with
  | nil => simp
  | cons b bs ih =>
    have rest : ∀ c ∈ bs, (f c).Sublist (g c) := fun c hc => h c (List.mem_cons_of_mem _ hc)
    rw [List.flatMap_cons, List.flatMap_cons,
      append_eq_iff_of_sublist (h b List.mem_cons_self) (flatMap_sublist rest), ih rest,
      List.forall_mem_cons]

end MarkupGrader.Text
