import MarkupGrader.Settings.Basic
import MarkupGrader.Toml.Table

/-! Settings from the entries of a TOML text. A record is a table, or an array with the fields in
their order. Fields that are left out keep their defaults, and entries with other names do not
matter. A failure is the byte at which the refused item begins. -/

namespace MarkupGrader.Settings

/-- A given field of a record. An item without a beginning of its own begins at its key. -/
structure Field where
  name : Text
  start : Nat
  item : Toml.Item

namespace Field

def ofEntry (entry : Toml.Key × Toml.Item) : Field :=
  ⟨entry.1.name, entry.2.start?.getD entry.1.start, entry.2⟩

/-- The fields of a record, whose names are `names` in the order of the fields. -/
def fields (names : List Text) (f : Field) : Except Nat (List Field) :=
  match f.item with
  | .table _ _ entries => .ok (entries.map ofEntry)
  | .array _ items =>
    .ok ((names.zip items).map fun (name, item) => ⟨name, item.start?.getD f.start, item⟩)
  | .tables elements =>
    .ok ((names.zip elements).map fun (name, start, entries) =>
      ⟨name, start, .table (some start) .header entries⟩)
  | .scalar _ _ => .error f.start

def elements (f : Field) : Except Nat (List Field) :=
  match f.item with
  | .array _ items => .ok (items.map fun item => ⟨f.name, item.start?.getD f.start, item⟩)
  | .tables elements =>
    .ok (elements.map fun (start, entries) => ⟨f.name, start, .table (some start) .header entries⟩)
  | _ => .error f.start

def text (f : Field) : Except Nat Text :=
  match f.item with
  | .scalar _ (.string t) => .ok t
  | _ => .error f.start

def boolean (f : Field) : Except Nat Bool :=
  match f.item with
  | .scalar _ (.boolean b) => .ok b
  | _ => .error f.start

def natural (f : Field) : Except Nat Nat :=
  match f.item with
  | .scalar _ (.integer (.ofNat n)) => .ok n
  | _ => .error f.start

def isEmptyItem : Toml.Item → Bool
  | .table _ _ entries => entries.isEmpty
  | .array _ items => items.isEmpty
  | .tables elements => elements.isEmpty
  | .scalar _ _ => false

/-- One of several values by its name, which may also be the only key of a table with nothing at
that key. -/
def choice {α : Type} (values : List (Text × α)) (f : Field) : Except Nat α :=
  let find (start : Nat) (name : Text) : Except Nat α :=
    match values.lookup name with
    | some a => .ok a
    | none => .error start
  match f.item with
  | .scalar _ (.string t) => find f.start t
  | .table _ _ [(k, item)] => do
    let a ← find k.start k.name
    if isEmptyItem item then .ok a else .error (item.start?.getD f.start)
  | _ => .error f.start

end Field

def policies : List (Text × Selector.Policy) := [("strict", .strict), ("lenient", .lenient)]

def lineEndings : List (Text × LineEnding) := [("auto", .auto), ("lf", .lf), ("crlf", .crlf)]

def htmlFields : List Text :=
  ["indent", "require_doctype", "line_ending", "response_capacity", "gate_contains_on_syntax"]

def languageFields : List Text := ["id", "name", "module"]

def setSelector (o : Grader.Options) (f : Field) : Except Nat Grader.Options :=
  if f.name = "policy" then (f.choice policies).map fun policy => { o with policy }
  else .ok o

def setHtml (o : Grader.Options) (f : Field) : Except Nat Grader.Options :=
  if f.name = "indent" then f.natural.map fun indent => { o with indent }
  else if f.name = "require_doctype" then
    f.boolean.map fun requireDoctype => { o with requireDoctype }
  else if f.name = "line_ending" then
    (f.choice lineEndings).map fun lineEnding => { o with lineEnding }
  else if f.name = "response_capacity" then
    f.natural.map fun responseCapacity => { o with responseCapacity }
  else if f.name = "gate_contains_on_syntax" then
    f.boolean.map fun gateOnSyntax => { o with gateOnSyntax }
  else .ok o

/-- An entry of the languages of which not all fields may be known. -/
structure PartialEntry where
  id? : Option Text
  name? : Option Text
  module : Text

def PartialEntry.set (e : PartialEntry) (f : Field) : Except Nat PartialEntry :=
  if f.name = "id" then f.text.map fun id => { e with id? := some id }
  else if f.name = "name" then f.text.map fun name => { e with name? := some name }
  else if f.name = "module" then f.text.map fun module => { e with module }
  else .ok e

def languageEntry (f : Field) : Except Nat LanguageEntry := do
  let given ← f.fields languageFields
  let e ← given.foldlM PartialEntry.set ⟨none, none, Registry.htmlModule⟩
  match e.id?, e.name? with
  | some id, some name => .ok ⟨id, name, e.module⟩
  | _, _ => .error f.start

def set (s : Settings) (f : Field) : Except Nat Settings :=
  if f.name = "selector" then do
    let given ← f.fields ["policy"]
    let options ← given.foldlM setSelector s.options
    .ok { s with options }
  else if f.name = "html" then do
    let given ← f.fields htmlFields
    let options ← given.foldlM setHtml s.options
    .ok { s with options }
  else if f.name = "languages" then do
    let elements ← f.elements
    let languages ← elements.mapM languageEntry
    .ok { s with languages }
  else .ok s

def ofEntries (entries : Toml.Entries) : Except Nat Settings :=
  (entries.map Field.ofEntry).foldlM set default

end MarkupGrader.Settings
