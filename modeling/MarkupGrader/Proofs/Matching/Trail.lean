import Mathlib.Data.List.Basic
import MarkupGrader.Matching

/-! The trail of a chain through a tree. From the anchor on, each selector leads to the first child
that fits it, and the trail ends with the chain or at a node none of whose children fits. There is
one such trail and no other, and a match reports its length. A longer chain follows the trail of a
shorter one to its end, and goes on from there only if the shorter one was found whole. -/

namespace MarkupGrader

open Selector (Chain)

namespace Selector.Chain

/-- The chain with more selectors behind its own. -/
def append (c : Chain) (more : List Selector) : Chain := ⟨c.first, c.rest ++ more⟩

theorem toList_append (c : Chain) (more : List Selector) :
    (c.append more).toList = c.toList ++ more := rfl

end Selector.Chain

namespace TreeView

variable {ν : Type} (t : TreeView ν) {c : Chain} {s : Selector} {node parent child last : ν}
  {ss : List Selector} {nodes : List ν}

/-- A node fits a selector that asks for its tag name and for none but its attributes. A name may be
repeated among these, with the value asked for at any of its places. -/
structure Fits (s : Selector) (node : ν) : Prop where
  named : t.tagName node = some s.name
  carries : ∀ pair ∈ s.attributes, pair ∈ t.attributes node

structure FirstChild (s : Selector) (parent child : ν) : Prop where
  fits : t.Fits s child
  position : ∃ before after, t.children parent = before ++ child :: after ∧
    ∀ n ∈ before, ¬ t.Fits s n

def Barren (s : Selector) (parent : ν) : Prop := ∀ child ∈ t.children parent, ¬ t.Fits s child

variable {t}

theorem satisfies_iff : t.satisfies s node = true ↔ t.Fits s node := by
  have own : t.hasAttributes node s = true ↔ ∀ pair ∈ s.attributes, pair ∈ t.attributes node := by
    simp only [hasAttributes, List.all_eq_true, List.any_eq_true, beq_iff_eq, exists_eq_right]
  rw [satisfies, Bool.and_eq_true, beq_iff_eq, own]
  exact ⟨fun h => ⟨h.1, h.2⟩, fun h => ⟨h.named, h.carries⟩⟩

theorem satisfies_eq_false_iff : t.satisfies s node = false ↔ ¬ t.Fits s node := by
  rw [← satisfies_iff, Bool.not_eq_true]

theorem childFor_eq_some : t.childFor parent s = some child ↔ t.FirstChild s parent child := by
  rw [childFor, List.find?_eq_some_iff_append]
  simp only [Bool.not_eq_true', satisfies_eq_false_iff, satisfies_iff]
  exact ⟨fun h => ⟨h.1, h.2⟩, fun h => ⟨h.fits, h.position⟩⟩

theorem childFor_eq_none : t.childFor parent s = none ↔ t.Barren s parent := by
  simp only [childFor, List.find?_eq_none, satisfies_iff, Barren]

theorem FirstChild.unique {other : ν} (h : t.FirstChild s parent child)
    (h' : t.FirstChild s parent other) : child = other := by
  have found := childFor_eq_some.mpr h
  rw [childFor_eq_some.mpr h'] at found
  exact (Option.some.inj found).symm

theorem FirstChild.not_barren (h : t.FirstChild s parent child) : ¬ t.Barren s parent := by
  intro barren
  have found := childFor_eq_some.mpr h
  rw [childFor_eq_none.mpr barren] at found
  cases found

theorem descend_of_barren (h : t.Barren s node) : t.descend node (s :: ss) = [] := by
  rw [descend, childFor_eq_none.mpr h]

theorem descend_of_firstChild (h : t.FirstChild s node child) :
    t.descend node (s :: ss) = child :: t.descend child ss := by
  rw [descend, childFor_eq_some.mpr h]

theorem barren_or_firstChild (t : TreeView ν) (s : Selector) (node : ν) :
    t.Barren s node ∨ ∃ child, t.FirstChild s node child := by
  cases found : t.childFor node s with
  | none => exact .inl (childFor_eq_none.mp found)
  | some child => exact .inr ⟨child, childFor_eq_some.mp found⟩

theorem descend_cons_eq_nil : t.descend node (s :: ss) = [] ↔ t.Barren s node := by
  rcases barren_or_firstChild t s node with barren | ⟨child, first⟩
  · exact ⟨fun _ => barren, descend_of_barren⟩
  · rw [descend_of_firstChild first]
    exact ⟨nofun, fun barren => absurd barren first.not_barren⟩

theorem length_descend_le (t : TreeView ν) (node : ν) (ss : List Selector) :
    (t.descend node ss).length ≤ ss.length := by
  induction ss generalizing node with
  | nil => exact Nat.le_refl 0
  | cons s ss ih =>
    rcases barren_or_firstChild t s node with barren | ⟨child, first⟩
    · rw [descend_of_barren barren]
      exact Nat.zero_le _
    · rw [descend_of_firstChild first]
      exact Nat.succ_le_succ (ih child)

theorem firstChild_of_descend {i : Nat} (hs : ss[i]? = some s)
    (hp : (node :: t.descend node ss)[i]? = some parent)
    (hc : (t.descend node ss)[i]? = some child) : t.FirstChild s parent child := by
  induction ss generalizing node i with
  | nil => cases hs
  | cons s₀ ss ih =>
    rcases barren_or_firstChild t s₀ node with barren | ⟨next, first⟩
    · rw [descend_of_barren barren] at hc
      cases hc
    · rw [descend_of_firstChild first] at hp hc
      cases i with
      | zero =>
        cases hs
        cases hp
        cases hc
        exact first
      | succ i => exact ih hs hp hc

theorem barren_of_descend (hs : ss[(t.descend node ss).length]? = some s)
    (hl : (node :: t.descend node ss).getLast? = some last) : t.Barren s last := by
  induction ss generalizing node with
  | nil => cases hs
  | cons s₀ ss ih =>
    rcases barren_or_firstChild t s₀ node with barren | ⟨next, first⟩
    · rw [descend_of_barren barren] at hs hl
      cases hs
      cases hl
      exact barren
    · rw [descend_of_firstChild first] at hs hl
      exact ih hs hl

/-- The nodes found for the selectors of a chain, each for the one at its place. -/
structure IsTrail (t : TreeView ν) (c : Chain) (nodes : List ν) : Prop where
  starts : nodes[0]? = some (if c.first.name = ("head" : Text) then t.head else t.body)
  within : nodes.length ≤ c.length
  step : ∀ i s parent child, c.toList[i + 1]? = some s → nodes[i]? = some parent →
    nodes[i + 1]? = some child → t.FirstChild s parent child
  ends : ∀ s last, c.toList[nodes.length]? = some s → nodes.getLast? = some last → t.Barren s last

def trail (t : TreeView ν) (c : Chain) : List ν := t.anchor c :: t.descend (t.anchor c) c.rest

theorem isTrail_trail (t : TreeView ν) (c : Chain) : t.IsTrail c (t.trail c) where
  starts := by
    simp only [trail, anchor, Chain.startsAtHead, beq_iff_eq, List.getElem?_cons_zero]
  within := Nat.succ_le_succ (length_descend_le t _ _)
  step i s parent child hs hp hc := by
    have asked : c.rest[i]? = some s := hs
    exact firstChild_of_descend asked hp hc
  ends s last hs hl := by
    have asked : c.rest[(t.descend (t.anchor c) c.rest).length]? = some s := hs
    exact barren_of_descend asked hl

/-- Where two trails of a chain agree and one goes on, the other goes on to the same node. -/
theorem IsTrail.goes_on {others : List ν} {i : Nat} (h : t.IsTrail c nodes)
    (h' : t.IsTrail c others) (same : nodes[i]? = others[i]?)
    (found : nodes[i + 1]? = some child) : others[i + 1]? = some child := by
  have inside : i + 1 < nodes.length := (List.getElem?_eq_some_iff.mp found).1
  have room : i + 1 < c.toList.length := Nat.lt_of_lt_of_le inside h.within
  obtain ⟨s, asked⟩ : ∃ s, c.toList[i + 1]? = some s := ⟨_, List.getElem?_eq_getElem room⟩
  have parent : nodes[i]? = some nodes[i] := List.getElem?_eq_getElem (Nat.lt_of_succ_lt inside)
  have first := h.step i _ _ _ asked parent found
  rw [same] at parent
  have there : i < others.length := (List.getElem?_eq_some_iff.mp parent).1
  rcases Nat.lt_or_ge (i + 1) others.length with further | beyond
  · have other := h'.step i _ _ _ asked parent (List.getElem?_eq_getElem further)
    rw [List.getElem?_eq_getElem further, first.unique other]
  · -- The other trail cannot end here, for its last node has a child that fits.
    have length : others.length = i + 1 := Nat.le_antisymm beyond there
    have last : others.getLast? = some nodes[i] := by
      rw [List.getLast?_eq_getElem?, length]
      exact parent
    rw [← length] at asked
    exact absurd (h'.ends _ _ asked last) first.not_barren

theorem IsTrail.unique {others : List ν} (h : t.IsTrail c nodes) (h' : t.IsTrail c others) :
    nodes = others := by
  refine List.ext_getElem? fun i => ?_
  induction i with
  | zero => rw [h.starts, h'.starts]
  | succ i ih =>
    refine Option.ext fun child => ?_
    exact ⟨h.goes_on h' ih, h'.goes_on h ih.symm⟩

theorem matched_eq (t : TreeView ν) (c : Chain) : (t.follow c).matched = (t.trail c).length :=
  Nat.add_comm 1 _

theorem missing_eq (t : TreeView ν) (c : Chain) :
    (t.follow c).missing = (c.toList[(t.follow c).matched]?).map Selector.name := rfl

theorem isComplete_iff : (t.follow c).isComplete = true ↔ (t.follow c).matched = c.length :=
  beq_iff_eq

theorem matched_le (t : TreeView ν) (c : Chain) : (t.follow c).matched ≤ c.length := by
  rw [matched_eq]
  exact (isTrail_trail t c).within

/-- A match reports how long the trail of the chain is, and the selector at which it ends. -/
theorem follow_trail (t : TreeView ν) (c : Chain) :
    let r := t.follow c
    1 ≤ r.matched ∧ r.matched ≤ c.length ∧ r.chainLength = c.length ∧
      (∃ nodes, t.IsTrail c nodes ∧ nodes.length = r.matched ∧
        ∀ others, t.IsTrail c others → others = nodes) ∧
      (∀ short : r.matched < c.length, r.missing = some (c.toList.get ⟨r.matched, short⟩).name) ∧
      (r.matched = c.length → r.missing = none) ∧
      (r.isComplete = true ↔ r.missing = none) := by
  intro r
  have missing : r.missing = (c.toList[r.matched]?).map Selector.name := missing_eq t c
  have none_iff : r.missing = none ↔ c.length ≤ r.matched := by
    rw [missing, Option.map_eq_none_iff, List.getElem?_eq_none_iff]
    rfl
  have bound : r.matched ≤ c.length := matched_le t c
  have trail := isTrail_trail t c
  refine ⟨Nat.le_add_right 1 _, bound, rfl, ?_, fun short => ?_, fun whole => ?_, ?_⟩
  · exact ⟨t.trail c, trail, (matched_eq t c).symm, fun others h => h.unique trail⟩
  · rw [missing, List.getElem?_eq_getElem short]
    rfl
  · exact none_iff.mpr (Nat.le_of_eq whole.symm)
  · rw [isComplete_iff, none_iff]
    exact ⟨fun whole => Nat.le_of_eq whole.symm, fun beyond => Nat.le_antisymm bound beyond⟩

def reached (t : TreeView ν) (node : ν) (ss : List Selector) : ν :=
  (t.descend node ss).getLast?.getD node

theorem getLast?_trail (t : TreeView ν) (c : Chain) :
    (t.trail c).getLast? = some (t.reached (t.anchor c) c.rest) := List.getLast?_cons

theorem descend_append (t : TreeView ν) (node : ν) (ss more : List Selector) :
    t.descend node (ss ++ more) = t.descend node ss ++
      if (t.descend node ss).length = ss.length then t.descend (t.reached node ss) more
      else [] := by
  induction ss generalizing node with
  | nil => rfl
  | cons s ss ih =>
    rcases barren_or_firstChild t s node with barren | ⟨child, first⟩
    · rw [List.cons_append, descend_of_barren barren, descend_of_barren barren]
      rfl
    · have deeper : t.reached node (s :: ss) = t.reached child ss := by
        rw [reached, descend_of_firstChild first, List.getLast?_cons]
        rfl
      have same : (child :: t.descend child ss).length = (s :: ss).length ↔
          (t.descend child ss).length = ss.length := Nat.succ_inj
      rw [List.cons_append, descend_of_firstChild first, descend_of_firstChild first, ih, deeper,
        List.cons_append]
      simp only [same]

theorem matched_append_of_lt (more : List Selector) (part : (t.follow c).matched < c.length) :
    (t.follow (c.append more)).matched = (t.follow c).matched := by
  have short : (t.descend (t.anchor c) c.rest).length ≠ c.rest.length := by
    rw [matched_eq] at part
    exact Nat.ne_of_lt (Nat.lt_of_succ_lt_succ part)
  have same : t.trail (c.append more) = t.trail c := by
    show t.anchor c :: t.descend (t.anchor c) (c.rest ++ more) = t.trail c
    rw [descend_append, if_neg short, List.append_nil]
    rfl
  rw [matched_eq, matched_eq, same]

theorem matched_append_of_eq (more : List Selector) (whole : (t.follow c).matched = c.length) :
    (t.follow (c.append more)).matched =
      c.length + (t.descend (t.reached (t.anchor c) c.rest) more).length := by
  have full : (t.descend (t.anchor c) c.rest).length = c.rest.length := by
    rw [matched_eq] at whole
    exact Nat.succ.inj whole
  have longer : t.trail (c.append more) =
      t.trail c ++ t.descend (t.reached (t.anchor c) c.rest) more := by
    show t.anchor c :: t.descend (t.anchor c) (c.rest ++ more) = _
    rw [descend_append, if_pos full]
    rfl
  rw [matched_eq, longer, List.length_append, ← matched_eq, whole]

/-- A longer chain follows the trail of a shorter one, and goes on from its end only if the shorter
one was found whole. -/
theorem follow_append (t : TreeView ν) (c : Chain) (more : List Selector) :
    let short := t.follow c
    let long := t.follow (c.append more)
    (short.isComplete = false → long.matched = short.matched ∧ long.missing = short.missing) ∧
      (short.isComplete = true → c.length ≤ long.matched ∧
        ∃ nodes last, t.IsTrail c nodes ∧ nodes.getLast? = some last ∧
          ∀ s rest, more = s :: rest → (long.matched = c.length ↔ t.Barren s last)) ∧
      short.matched = min c.length long.matched := by
  intro short long
  have bound : short.matched ≤ c.length := matched_le t c
  refine ⟨fun incomplete => ?_, fun complete => ?_, ?_⟩
  · have part : (t.follow c).matched < c.length := by
      refine Nat.lt_of_le_of_ne bound fun whole => ?_
      rw [isComplete_iff.mpr whole] at incomplete
      cases incomplete
    have inside : (t.follow c).matched < c.toList.length := part
    have same := matched_append_of_lt more part
    refine ⟨same, ?_⟩
    rw [missing_eq, missing_eq, same, Chain.toList_append, List.getElem?_append_left inside]
  · have matched := matched_append_of_eq more (isComplete_iff.mp complete)
    refine ⟨matched ▸ Nat.le_add_right _ _, t.trail c, _, isTrail_trail t c,
      getLast?_trail t c, ?_⟩
    rintro s rest rfl
    rw [matched, Nat.add_eq_left, List.length_eq_zero_iff, descend_cons_eq_nil]
  · rcases Nat.lt_or_eq_of_le bound with part | whole
    · have same : long.matched = short.matched := matched_append_of_lt more part
      rw [same, Nat.min_eq_right bound]
    · have matched : long.matched = _ := matched_append_of_eq more whole
      rw [matched, Nat.min_eq_left (Nat.le_add_right _ _), whole]

/-- The second `div` has a paragraph but is never tried, for the first one fits as well. -/
example :
    let page : TreeView Nat :=
      { head := 0
        body := 1
        children := fun n => if n = 1 then [2, 3] else if n = 3 then [4] else []
        tagName := fun n => if n = 4 then some "p" else some "div"
        attributes := fun _ => [] }
    page.follow ⟨.named "body", [.named "div"]⟩ = ⟨2, 2, none⟩ ∧
      page.follow ⟨.named "body", [.named "div", .named "p"]⟩ = ⟨2, 3, some "p"⟩ := by
  decide

end TreeView
end MarkupGrader
