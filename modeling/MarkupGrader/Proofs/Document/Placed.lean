import MarkupGrader.Proofs.Document.Subject

/-! Spans in a row. The parts of a node stand one behind the other between its two ends, and so do the
subjects among them, wherever in an error they were recovered. -/

namespace MarkupGrader

inductive Span.Row : Nat → List Span → Nat → Prop
  | nil {start stop : Nat} (forward : start ≤ stop) : Row start [] stop
  | cons {start stop : Nat} {s : Span} {rest : List Span} (behind : start ≤ s.start)
      (forward : s.start ≤ s.stop) (others : Row s.stop rest stop) : Row start (s :: rest) stop

namespace Span.Row

variable {start middle stop : Nat} {ss others : List Span}

theorem le (h : Row start ss stop) : start ≤ stop := by
  induction h with
  | nil forward => exact forward
  | cons behind forward _ ih => exact Nat.le_trans behind (Nat.le_trans forward ih)

theorem of_le {first : Nat} (le : first ≤ start) (h : Row start ss stop) : Row first ss stop := by
  cases h with
  | nil forward => exact .nil (Nat.le_trans le forward)
  | cons behind forward others => exact .cons (Nat.le_trans le behind) forward others

theorem append (h : Row start ss middle) (k : Row middle others stop) :
    Row start (ss ++ others) stop := by
  induction h with
  | nil forward => exact k.of_le forward
  | cons behind forward _ ih => exact .cons behind forward (ih k)

theorem bounds (h : Row start ss stop) :
    ∀ s ∈ ss, start ≤ s.start ∧ s.start ≤ s.stop ∧ s.stop ≤ stop := by
  induction h with
  | nil => exact fun s hs => by cases hs
  | cons behind forward others ih =>
    refine List.forall_mem_cons.mpr ⟨⟨behind, forward, others.le⟩, fun s hs => ?_⟩
    have later := ih s hs
    exact ⟨by omega, later.2⟩

theorem pairwise (h : Row start ss stop) : ss.Pairwise fun s t => s.stop ≤ t.start := by
  induction h with
  | nil => exact .nil
  | cons _ _ others ih => exact .cons (fun t ht => (others.bounds t ht).1) ih

end Span.Row

/-- The node and all below it begin and end where something may, and the parts of each stand one
behind the other in it. -/
inductive Markup.Node.Placed (fits : Nat → Prop) : Markup.Node → Prop
  | node {kind : Markup.Kind} {span : Span} {missing : Bool} {children : List Markup.Node}
      (start : fits span.start) (stop : fits span.stop)
      (row : Span.Row span.start (children.map Markup.Node.span) span.stop)
      (each : ∀ c ∈ children, Placed fits c) : Placed fits (.node kind span missing children)

theorem Markup.Node.Placed.parts {fits : Nat → Prop} {m : Markup.Node} (placed : m.Placed fits) :
    Span.Row m.span.start (m.children.map Markup.Node.span) m.span.stop ∧
      ∀ c ∈ m.children, c.Placed fits := by
  cases placed with
  | node _ _ row each => exact ⟨row, each⟩

theorem Markup.Node.Placed.ends {fits : Nat → Prop} {m : Markup.Node} (placed : m.Placed fits) :
    fits m.span.start ∧ fits m.span.stop := by
  cases placed with
  | node start stop _ _ => exact ⟨start, stop⟩

section Test

variable (fits : Nat → Prop) [DecidablePred fits]

mutual

def Markup.Node.isPlaced : Markup.Node → Bool
  | .node _ span _ children =>
    decide (fits span.start) && decide (fits span.stop) && inRow span.start span.stop children

/-- Whether nodes in their places stand one behind the other between two positions. -/
def Markup.Node.inRow (start stop : Nat) : List Markup.Node → Bool
  | [] => start ≤ stop
  | m :: rest =>
    decide (start ≤ m.span.start) && decide (m.span.start ≤ m.span.stop) && m.isPlaced &&
      inRow m.span.stop stop rest

end

variable {fits}

mutual

theorem Markup.Node.placed_of_isPlaced : ∀ m : Markup.Node, m.isPlaced fits = true → m.Placed fits
  | .node kind span missing children => by
    intro test
    rw [isPlaced, Bool.and_eq_true, Bool.and_eq_true, decide_eq_true_eq, decide_eq_true_eq] at test
    obtain ⟨⟨start, stop⟩, below⟩ := test
    obtain ⟨row, each⟩ := row_of_inRow children below
    exact .node start stop row each

theorem Markup.Node.row_of_inRow {stop : Nat} : ∀ ms : List Markup.Node, ∀ {start : Nat},
    inRow fits start stop ms = true →
      Span.Row start (ms.map Markup.Node.span) stop ∧ ∀ m ∈ ms, m.Placed fits
  | [] => fun test => ⟨.nil (of_decide_eq_true test), fun m mem => (List.not_mem_nil mem).elim⟩
  | m :: rest => by
    intro test
    rw [inRow, Bool.and_eq_true, Bool.and_eq_true, Bool.and_eq_true, decide_eq_true_eq,
      decide_eq_true_eq] at test
    obtain ⟨⟨⟨behind, forward⟩, own⟩, others⟩ := test
    obtain ⟨row, each⟩ := row_of_inRow rest others
    exact ⟨.cons behind forward row, List.forall_mem_cons.mpr ⟨placed_of_isPlaced m own, each⟩⟩

end

end Test

namespace Document

open Markup (Kind)

variable {fits : Nat → Prop}

mutual

theorem row_subjects : ∀ m : Markup.Node, m.Placed fits →
    Span.Row m.span.start ((subjects m).map Markup.Node.span) m.span.stop ∧
      ∀ s ∈ subjects m, s.Placed fits
  | .node kind span missing children => by
    intro placed
    obtain ⟨row, each⟩ := placed.parts
    by_cases error : kind = .error
    · subst error
      exact row_allSubjects children each row
    · have understood : (Markup.Node.node kind span missing children).kind ≠ .error := error
      rw [subjects_of_ne_error understood]
      split
      · exact ⟨.cons (Nat.le_refl _) row.le (.nil (Nat.le_refl _)), by simpa using placed⟩
      · exact ⟨.nil row.le, fun s hs => by cases hs⟩

theorem row_allSubjects : ∀ ms : List Markup.Node, (∀ m ∈ ms, m.Placed fits) →
    ∀ {start stop : Nat}, Span.Row start (ms.map Markup.Node.span) stop →
      Span.Row start ((allSubjects ms).map Markup.Node.span) stop ∧
        ∀ s ∈ allSubjects ms, s.Placed fits
  | [] => fun _ _ _ row => ⟨row, fun s hs => by cases hs⟩
  | m :: rest => by
    intro placed start stop row
    obtain ⟨own, others⟩ := List.forall_mem_cons.mp placed
    cases row with
    | cons behind forward later =>
      obtain ⟨first, firstPlaced⟩ := row_subjects m own
      obtain ⟨more, morePlaced⟩ := row_allSubjects rest others later
      rw [allSubjects, List.map_append, List.forall_mem_append]
      exact ⟨(first.of_le behind).append more, firstPlaced, morePlaced⟩

end

end Document
end MarkupGrader
