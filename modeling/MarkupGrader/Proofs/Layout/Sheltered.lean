import MarkupGrader.Proofs.Diagnostic.Again
import MarkupGrader.Proofs.Layout.Blocks

/-! What void elements take in of a layout that is read again. In a page nothing stands alone right
behind an element that is left open. So each takes in the white space of the line break behind it, and
what stands with it in a row and was in it already. -/

namespace MarkupGrader

open Text (IsBlankText)

namespace Markup

theorem isBareVoid_eq_true {tag : Tag} {closing : Closing} (h : isBareVoid tag closing = true)
    (void : ElementClass.isVoid tag.elementName = true) : closing = .implied := by
  rw [isBareVoid, void] at h
  cases closing with
  | implied => rfl
  | endTag e => cases h
  | selfClosed => cases h

namespace Item

theorem isSteady_element {tag : Tag} {content : List Item} {closing : Closing} :
    (element tag content closing).isSteady = true ↔
      isBareVoid tag closing = true ∧ keepsRow tag content = true ∧
        ∀ i ∈ content, i.isSteady = true := by
  rw [isSteady, everyElement, every_element_iff, Bool.and_eq_true, and_assoc]

variable {o o' : Bool} {i : Item} {items more before run : List Item}

/-- Whether a void element is open behind the item, if one is or is not before it. -/
def opens (o : Bool) : Item → Bool
  | leaf _ => o
  | element tag content closing => (element tag content closing).isOpenVoid

abbrev openAfter (o : Bool) (items : List Item) : Bool := items.foldl opens o

theorem openAfter_append (o : Bool) (items more : List Item) :
    openAfter o (items ++ more) = openAfter (openAfter o items) more := List.foldl_append

/-- The last element is a void element that is open at the end of what was read. -/
abbrev openVoidAt (before : List Item) : Bool := before.head?.any isOpenVoid

theorem openVoidAt_push (before : List Item) (i : Item) :
    openVoidAt (push before i) = opens (openVoidAt before) i := by
  cases i with
  | element tag content closing =>
    rw [push_element]
    rfl
  | leaf t =>
    cases before with
    | nil => rfl
    | cons j before =>
      cases j with
      | leaf u => rfl
      | element tag content closing => cases closing <;> rfl

theorem openVoidAt_foldl_push (items before : List Item) :
    openVoidAt (items.foldl push before) = openAfter (openVoidAt before) items := by
  induction items generalizing before with
  | nil => rfl
  | cons i items ih => rw [List.foldl_cons, ih, openVoidAt_push]; rfl

theorem openAfter_of_leaves (leaves : ∀ i ∈ items, i.isLeaf = true) : openAfter o items = o := by
  induction items with
  | nil => rfl
  | cons i items ih =>
    obtain ⟨own, others⟩ := List.forall_mem_cons.mp leaves
    cases i with
    | leaf t => exact ih others
    | element tag content closing => cases own

theorem openAfter_mono (h : o = true → o' = true) :
    openAfter o items = true → openAfter o' items = true := by
  induction items generalizing o o' with
  | nil => exact h
  | cons i items ih =>
    refine ih ?_
    cases i with
    | leaf t => exact h
    | element tag content closing => exact id

theorem openAfter_map {f : Item → Item} (same : ∀ o i, opens o (f i) = opens o i)
    (items : List Item) : openAfter o (items.map f) = openAfter o items := by
  rw [openAfter, List.foldl_map]
  exact congrArg (fun g => items.foldl g o) (funext fun o => funext fun i => same o i)

theorem openAfter_settled (items : List Item) : openAfter o (settled items) = openAfter o items := by
  rw [settled_eq_map]
  refine openAfter_map (fun o i => ?_) items
  cases i with
  | leaf t => rfl
  | element tag content closing => cases closing <;> rfl

theorem openAfter_squeezeAll (items : List Item) :
    openAfter o (squeezeAll items) = openAfter o items := by
  rw [squeezeAll_eq_map]
  refine openAfter_map (fun o i => ?_) items
  cases i with
  | leaf t => rfl
  | element tag content closing => cases closing <;> rfl

theorem isLeaf_of_isGap (gap : i.isGap = true) : i.isLeaf = true := by
  cases i with
  | leaf t => rfl
  | element => cases gap

theorem loosenAll_of_leaves (leaves : ∀ i ∈ items, i.isLeaf = true) : loosenAll items = items := by
  induction items with
  | nil => rfl
  | cons i items ih =>
    obtain ⟨own, others⟩ := List.forall_mem_cons.mp leaves
    cases i with
    | leaf t => rw [loosenAll, ih others]; rfl
    | element tag content closing => cases own

theorem leaves_of_implied {tag : Tag} {content : List Item}
    (regular : (element tag content .implied).Regular)
    (inline : (element tag content .implied).isInline = true) :
    ElementClass.isVoid tag.elementName = true ∧ ∀ i ∈ content, i.isLeaf = true := by
  rw [isInline, Bool.and_eq_true] at inline
  cases regular with
  | element _ _ _ _ _ _ void ends =>
    cases ends with
    | implied _ may =>
      have isVoid := isVoid_of_inline inline.1 may
      exact ⟨isVoid, void (isVoid_key isVoid)⟩

theorem openAfter_loosen (regular : i.Regular) (inline : i.isInline = true) (o : Bool) :
    openAfter o i.loosen = opens o i := by
  cases i with
  | leaf t => rfl
  | element tag content closing =>
    cases closing with
    | endTag e => rfl
    | selfClosed => rfl
    | implied =>
      have leaves := (leaves_of_implied regular inline).2
      rw [loosen, loosenAll_of_leaves leaves]
      exact openAfter_of_leaves leaves

theorem openAfter_copy (regular : ∀ i ∈ run, i.Regular) (inline : allInline run = true) :
    openAfter o (settled (copy run)) = openAfter o run := by
  have loose : openAfter o (loosenAll run) = openAfter o run := by
    induction run generalizing o with
    | nil => rfl
    | cons i run ih =>
      obtain ⟨own, others⟩ := List.forall_mem_cons.mp regular
      rw [allInline, Bool.and_eq_true] at inline
      have here := openAfter_loosen own inline.1 o
      rw [loosenAll, openAfter_append, here, ih others inline.2]
      rfl
  obtain ⟨front, back, whole, frontGaps, backGaps⟩ := exists_trimGaps (loosenAll run)
  have gaps {o : Bool} {items : List Item} (all : items.all isGap = true) :
      openAfter o items = o :=
    openAfter_of_leaves fun i hi => isLeaf_of_isGap (List.all_eq_true.mp all i hi)
  rw [whole, openAfter_append, openAfter_append, gaps frontGaps, gaps backGaps] at loose
  rw [openAfter_settled, copy, openAfter_squeezeAll, loose]

def Sheltered : Bool → List Item → Prop
  | _, [] => True
  | o, i :: rest => (o = true → i.isLeaf = false) ∧ Sheltered (opens o i) rest

theorem sheltered_append :
    Sheltered o (items ++ more) ↔ Sheltered o items ∧ Sheltered (openAfter o items) more := by
  induction items generalizing o with
  | nil => exact ⟨fun h => ⟨trivial, h⟩, And.right⟩
  | cons i items ih =>
    rw [List.cons_append, Sheltered, Sheltered, ih, and_assoc]
    rfl

theorem isLeaf_of_endsOther (regular : i.Regular) (other : i.endsOther = true) :
    i.isLeaf = false := by
  cases regular with
  | @leaf t plain _ _ =>
    cases t with
    | endTag e => exact absurd plain id
    | _ => cases other
  | raw _ _ _ _ _ _ => rfl
  | element _ _ _ _ _ _ _ _ => rfl

theorem sheltered_of_settled (regular : ∀ i ∈ items, i.Regular) (settled_ : Settled items)
    (first : o = true → ∀ i ∈ items.head?, i.isLeaf = false) : Sheltered o items := by
  induction items generalizing o with
  | nil => trivial
  | cons i items ih =>
    obtain ⟨-, others⟩ := List.forall_mem_cons.mp regular
    refine ⟨fun open_ => first open_ i rfl, ih others settled_.tail fun open_ j hj => ?_⟩
    obtain ⟨rest, rfl⟩ := List.head?_eq_some_iff.mp hj
    have next := (List.isChain_cons_cons.mp settled_).1
    refine isLeaf_of_endsOther (others j List.mem_cons_self) (next ?_)
    cases i with
    | leaf t => cases first open_ _ rfl
    | element tag content closing => exact open_

theorem absorbs_append {takes : Tag → List Item → Token → Prop} :
    Absorbs takes before (items ++ more) ↔
      Absorbs takes before items ∧ Absorbs takes (items.foldl push before) more := by
  induction items generalizing before with
  | nil => exact ⟨fun h => ⟨trivial, h⟩, And.right⟩
  | cons i items ih =>
    rw [List.cons_append, Absorbs, Absorbs, ih, and_assoc]
    rfl

theorem Absorbs.imp {takes takes' : Tag → List Item → Token → Prop}
    (h : ∀ {tag content t}, takes tag content t → takes' tag content t)
    (absorbs : Absorbs takes before items) : Absorbs takes' before items := by
  induction items generalizing before with
  | nil => trivial
  | cons i items ih =>
    exact ⟨fun tag content outer t b eq => h (absorbs.1 tag content outer t b eq), ih absorbs.2⟩

/-- The last element before may be open if so it is said, and is void. -/
def Stands (o : Bool) (before : List Item) : Prop :=
  ∀ tag content outer, before = element tag content .implied :: outer →
    o = true ∧ ElementClass.isVoid tag.elementName = true

/-- Behind an element that may be open if so it is said, the items leave one open if so it is said,
and elements take in of them what they may. -/
def Passes (takes : Tag → List Item → Token → Prop) (o : Bool) (items : List Item) (o' : Bool) :
    Prop :=
  ∀ before, Stands o before → Absorbs takes before items ∧ Stands o' (items.foldl push before)

section Passes

variable {takes : Tag → List Item → Token → Prop} {o'' : Bool} {t : Token}

theorem passes_nil : Passes takes o [] o := fun _ stands => ⟨trivial, stands⟩

theorem Passes.append (h : Passes takes o items o') (h' : Passes takes o' more o'') :
    Passes takes o (items ++ more) o'' := by
  intro before stands
  obtain ⟨absorbs, next⟩ := h before stands
  obtain ⟨absorbs', last⟩ := h' _ next
  rw [List.foldl_append]
  exact ⟨absorbs_append.mpr ⟨absorbs, absorbs'⟩, last⟩

theorem Passes.imp {takes' : Tag → List Item → Token → Prop}
    (h : ∀ {tag content t}, takes tag content t → takes' tag content t)
    (passes : Passes takes o items o') : Passes takes' o items o' :=
  fun before stands => (passes before stands).imp_left (Absorbs.imp h)

theorem passes_leaf
    (may : o = true → ∀ tag content, ElementClass.isVoid tag.elementName = true →
      takes tag content t) : Passes takes o [leaf t] o := by
  intro before stands
  refine ⟨⟨fun tag content outer u eq same => ?_, trivial⟩, fun tag content outer eq => ?_⟩
  · cases same
    obtain ⟨open_, void⟩ := stands tag content outer eq
    exact may open_ tag content void
  · rw [List.foldl_cons, List.foldl_nil] at eq
    unfold push at eq
    split at eq
    · cases eq
      exact stands _ _ _ rfl
    · cases eq

theorem passes_element {tag : Tag} {content : List Item} {closing : Closing}
    (h : closing = .implied → o' = true ∧ ElementClass.isVoid tag.elementName = true) :
    Passes takes o [element tag content closing] o' := by
  intro before _
  refine ⟨⟨fun _ _ _ _ _ same => (nomatch same), trivial⟩, fun tag' content' outer eq => ?_⟩
  rw [List.foldl_cons, List.foldl_nil, push_element] at eq
  cases eq
  exact h rfl

end Passes

abbrev TakesIdle (tag : Tag) (_ : List Item) (t : Token) : Prop := Idle tag t

variable {sep : Nat → Text}

theorem passes_lineBreak (breaks : Breaks sep) (depth : Nat) :
    Passes TakesIdle o [lineBreak sep depth] o :=
  passes_leaf fun _ _ _ void =>
    ⟨void, rfl, fun c hc => Text.isBlank_of_isSpace (breaks.spaces depth c hc)⟩

theorem passes_reprint (breaks : Breaks sep) (steady : i.isSteady = true)
    (first : o = true → i.isLeaf = false) (depth : Nat) :
    Passes TakesIdle o (settled (i.reprint sep depth)) (opens o i) := by
  have break_ := passes_lineBreak (o := o) breaks depth
  cases i with
  | leaf t =>
    rw [reprint]
    split
    · exact passes_nil
    · exact break_.append (passes_leaf fun open_ => Bool.noConfusion (first open_))
  | element tag content closing =>
    obtain ⟨bare, -⟩ := isSteady_element.mp steady
    rw [reprint]
    refine break_.append (passes_element fun ends => ?_)
    have void : ElementClass.isVoid tag.elementName = true := by
      rw [← isOpenEnded_closing tag content [], ends]
      rfl
    rw [opens, isBareVoid_eq_true bare void, tag.elementName_printed]
    exact ⟨isVoid_key void, void⟩

theorem passes_reprints (breaks : Breaks sep) (steady : ∀ i ∈ items, i.isSteady = true)
    (sheltered : Sheltered o items) (depth : Nat) :
    Passes TakesIdle o (settled (items.flatMap (reprint sep depth))) (openAfter o items) := by
  induction items generalizing o with
  | nil => exact passes_nil
  | cons i items ih =>
    obtain ⟨own, others⟩ := List.forall_mem_cons.mp steady
    rw [List.flatMap_cons, settled_append]
    exact (passes_reprint breaks own sheltered.1 depth).append (ih others sheltered.2)

end Item
end Markup
end MarkupGrader
