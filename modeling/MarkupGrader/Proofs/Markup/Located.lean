import MarkupGrader.Proofs.Markup.Nest

/-! Looking up nodes by their kinds among the nodes of outlines in a row. The node that is found
begins as many bytes behind the first outline as there are in front of it. -/

namespace MarkupGrader.Markup.Outline

variable {source pre post t : Text} {start : Nat} {p : Kind → Bool}

theorem locateAll_append (start : Nat) (os ps : List Outline) :
    locateAll start (os ++ ps) =
      locateAll start os ++ locateAll (start + Text.byteLength (sourceAll os)) ps := by
  induction os generalizing start with
  | nil => rfl
  | cons o os ih =>
    rw [List.cons_append, locateAll, locateAll, ih, sourceAll_cons, Text.byteLength_append,
      List.append_assoc, Nat.add_assoc]

theorem slice_eq (h : source = pre ++ (t ++ post)) :
    Text.slice source ⟨Text.byteLength pre, Text.byteLength pre + Text.byteLength t⟩ = t := by
  rw [h, Text.slice_append]

def Lacks (p : Kind → Bool) : Outline → Prop
  | gap _ => True
  | leaf kind _ => p kind = false
  | group kind _ => p kind = false

theorem Lacks.mono {q : Kind → Bool} {o : Outline} (h : o.Lacks p)
    (sub : ∀ k, q k = true → p k = true) : o.Lacks q := by
  have clear : ∀ k, p k = false → q k = false := by
    intro k hk
    cases found : q k with
    | false => rfl
    | true => rw [sub k found] at hk; cases hk
  cases o with
  | gap t => trivial
  | leaf kind t => exact clear kind h
  | group kind parts => exact clear kind h

theorem filter_locate_of_lacks {o : Outline} (h : o.Lacks p) :
    (o.locate start).filter (fun n => p n.kind) = [] := by
  cases o with
  | gap t => rfl
  | leaf kind t =>
    have : p kind = false := h
    simp [locate, Node.kind, this]
  | group kind parts =>
    have : p kind = false := h
    simp [locate, Node.kind, this]

theorem filter_locateAll_of_lacks (start : Nat) {os : List Outline} (h : ∀ o ∈ os, o.Lacks p) :
    (locateAll start os).filter (fun n => p n.kind) = [] := by
  induction os generalizing start with
  | nil => rfl
  | cons o os ih =>
    rw [locateAll, List.filter_append, filter_locate_of_lacks (h o List.mem_cons_self),
      ih _ fun x hx => h x (List.mem_cons_of_mem _ hx)]
    rfl

theorem filter_locateAll (start : Nat) {front back : List Outline} (o : Outline)
    (before : ∀ x ∈ front, x.Lacks p) (behind : ∀ x ∈ back, x.Lacks p) :
    (locateAll start (front ++ o :: back)).filter (fun n => p n.kind) =
      (o.locate (start + Text.byteLength (sourceAll front))).filter fun n => p n.kind := by
  rw [locateAll_append, List.filter_append, filter_locateAll_of_lacks _ before, List.nil_append,
    locateAll, List.filter_append, filter_locateAll_of_lacks _ behind, List.append_nil]

theorem lacks_gap {g : Gap} (h : p .comment = false) : ∀ o ∈ g.map Filler.outline, o.Lacks p := by
  intro o ho
  obtain ⟨f, -, rfl⟩ := List.mem_map.mp ho
  cases f with
  | space t => trivial
  | comment t => exact h

theorem missing_locate (start : Nat) (o : Outline) : ∀ n ∈ o.locate start, n.missing = false := by
  cases o with
  | gap t => simp [locate]
  | leaf kind t => simp [locate, Node.missing]
  | group kind parts => simp [locate, Node.missing]

theorem missing_locateAll (start : Nat) (os : List Outline) :
    ∀ n ∈ locateAll start os, n.missing = false := by
  induction os generalizing start with
  | nil => simp [locateAll]
  | cons o os ih =>
    intro n hn
    rcases List.mem_append.mp hn with hn | hn
    · exact missing_locate start o n hn
    · exact ih _ n hn

end MarkupGrader.Markup.Outline
