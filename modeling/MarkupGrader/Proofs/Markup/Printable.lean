import MarkupGrader.Proofs.Layout.Items
import MarkupGrader.Proofs.Markup.RawReads

/-! Properties that the items of a page may have, all told by looking at one token or one element at a
time. A page with those named here is read from its layout as it was laid out. -/

namespace MarkupGrader.Markup

/-- No attribute value holds a double quote, so that each can stand between double quotes. -/
def Tag.isQuotable (t : Tag) : Bool := t.attributes.all fun a => a.value.all fun v => !v.contains '"'

namespace Item

mutual

/-- All tokens that stand alone pass one test, and all elements pass another. -/
def every (leaf : Token → Bool) (element : Tag → List Item → Closing → Bool) : Item → Bool
  | .leaf t => leaf t
  | .element tag content closing => element tag content closing && everyOf leaf element content

def everyOf (leaf : Token → Bool) (element : Tag → List Item → Closing → Bool) : List Item → Bool
  | [] => true
  | i :: rest => i.every leaf element && everyOf leaf element rest

end

abbrev everyElement (element : Tag → List Item → Closing → Bool) : Item → Bool :=
  every (fun _ => true) element

theorem everyOf_eq_all (leaf : Token → Bool) (element : Tag → List Item → Closing → Bool)
    (items : List Item) : everyOf leaf element items = items.all (every leaf element) := by
  induction items with
  | nil => rfl
  | cons i items ih => rw [everyOf, ih, List.all_cons]

variable {leafTest : Token → Bool} {elementTest : Tag → List Item → Closing → Bool}

theorem every_element (tag : Tag) (content : List Item) (closing : Closing) :
    (element tag content closing).every leafTest elementTest =
      (elementTest tag content closing && content.all (every leafTest elementTest)) := by
  rw [every, everyOf_eq_all]

theorem every_element_iff {tag : Tag} {content : List Item} {closing : Closing} :
    (element tag content closing).every leafTest elementTest = true ↔
      elementTest tag content closing = true ∧
        ∀ i ∈ content, i.every leafTest elementTest = true := by
  rw [every_element, Bool.and_eq_true, List.all_eq_true]

/-- A tag without a gap in front of its name may stand for the item's in an element of the name. -/
def fits (parent : Text) : Item → Bool
  | leaf _ => true
  | element tag _ _ => TagName.canContain parent tag.key

/-- Raw text that is put on the line of its tags leaves nothing of the end tag begun. -/
def isSafe (key : Text) (content : List Item) : Bool :=
  (soleRaw? content).all fun raw =>
    (Text.trim raw).contains '\n' ||
      scanRaw (rawDelimiter key) (rawDelimiter key) (Text.trim raw) == some (rawDelimiter key)

/-- The layout of the item is read as it was laid out. -/
abbrev isPrintable : Item → Bool :=
  every Token.isClear fun tag content _ =>
    tag.isQuotable && tag.isClear && content.all (fits tag.key) && isSafe tag.key content

end Item

def Closing.isImplied : Closing → Bool
  | implied => true
  | _ => false

/-- A void element is written as a start tag alone. -/
def isBareVoid (tag : Tag) (closing : Closing) : Bool :=
  !ElementClass.isVoid tag.elementName || closing.isImplied

namespace Item

/-- A void element that may share a line holds nothing that may not. -/
def keepsRow (tag : Tag) (content : List Item) : Bool :=
  !(ElementClass.isVoid tag.elementName && ElementClass.inlines.contains tag.elementName) ||
    allInline content

/-- What the item shares a line with does not change when void elements are written anew. -/
abbrev isSteady : Item → Bool :=
  everyElement fun tag content closing => isBareVoid tag closing && keepsRow tag content

/-- The tags of an element that may share a line hold no blanks but white space. -/
abbrev hasSpacedTags : Item → Bool :=
  everyElement fun tag _ closing =>
    !ElementClass.inlines.contains tag.elementName ||
      (tag.source ++ closing.source).all fun c => !Text.isBlank c || Markup.isSpace c

end Item

/-- There is a doctype that no void element before it would take in. -/
def showsDoctype (open_ : Bool) : List Item → Bool
  | [] => false
  | .leaf (.doctype _) :: rest => !open_ || showsDoctype open_ rest
  | .leaf _ :: rest => showsDoctype open_ rest
  | .element tag _ _ :: rest => showsDoctype (ElementClass.isVoid tag.elementName) rest

end MarkupGrader.Markup
