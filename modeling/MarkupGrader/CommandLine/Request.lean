import MarkupGrader.CommandLine.Switch

/-! What a command line asks for. The words are read from left to right, and the first one that
cannot be used, or that asks for help, decides. -/

namespace MarkupGrader.CommandLine

inductive Task
  | check (language : Text) (id? : Option Text) (file : Text) (queries : List Text) (asJson : Bool)
  | identify (language : Text) (id? : Option Text)
  | selector (command : Text)
  | format (file : Text) (asDiff : Bool)
  | languages
  deriving DecidableEq

inductive Topic
  | program
  | verb (v : Verb)
  | help
  deriving DecidableEq

inductive Request
  | run (config? : Option Text) (task : Task)
  | help (topic : Topic)
  | version
  deriving DecidableEq

inductive Stop
  | misuse
  | help
  | version
  deriving DecidableEq

/-- The switches with their values, and the operand, as far as they have been read. -/
structure Given where
  values : List (Switch × Text)
  operand? : Option Text

namespace Given

def empty : Given := ⟨[], none⟩

def has (g : Given) (s : Switch) : Bool := g.values.any fun pair => pair.1 == s

def values? (g : Given) (s : Switch) : List Text :=
  (g.values.filter fun pair => pair.1 == s).map Prod.snd

def value? (g : Given) (s : Switch) : Option Text := (g.values? s).head?

/-- Adds a switch, or stops if it asks for that or must not be given so. -/
def add (g : Given) (s : Switch) (value : Text) : Except Stop Given :=
  let added : Given := { g with values := g.values ++ [(s, value)] }
  match s.kind with
  | .help => .error .help
  | .version => .error .version
  | .flag => if g.has s then .error .misuse else .ok added
  | .path => if g.has s || value.isEmpty then .error .misuse else .ok added
  | .text isRepeatable => if g.has s && !isRepeatable then .error .misuse else .ok added

def addOperand (g : Given) (operand : Operand) (t : Text) : Except Stop Given :=
  if operand = .none ∨ g.operand?.isSome ∨ (operand = .path ∧ t.isEmpty) then .error .misuse
  else .ok { g with operand? := some t }

end Given

/-- Reads what follows two dashes. A switch still without its value is given back. -/
def readLong (switches : List Switch) (t : Text) (g : Given) :
    Except Stop (Given × Option Switch) :=
  let (name, value?) : Text × Option Text := match Text.splitFirst? (· == '=') t with
    | some (name, value) => (name, some value)
    | none => (t, none)
  match switches.find? fun s => s.name == name, value? with
  | none, _ => .error .misuse
  | some s, some value =>
    if s.takesValue then (g.add s value).map fun g => (g, none) else .error .misuse
  | some s, none =>
    if s.takesValue then .ok (g, some s) else (g.add s []).map fun g => (g, none)

/-- Reads the letters that follow a single dash. The rest behind a switch with a value is that
value, and a sign of equality in front of it does not count. -/
def readLetters (switches : List Switch) : Text → Given → Except Stop (Given × Option Switch)
  | [], g => .ok (g, none)
  | c :: rest, g =>
    match switches.find? fun s => s.letter? == some c with
    | none => .error .misuse
    | some s =>
      if s.takesValue then
        match rest with
        | [] => .ok (g, some s)
        | '=' :: value => (g.add s value).map fun g => (g, none)
        | value => (g.add s value).map fun g => (g, none)
      else do
        let g ← g.add s []
        readLetters switches rest g

/-- Reads words behind the mark after which none of them is a switch. -/
def readOperands (operand : Operand) (words : List Text) (g : Given) : Except Stop Given :=
  words.foldlM (fun g w => g.addOperand operand w) g

/-- Reads words up to one that is a verb, which is left over with what follows it. The switch
`pending?` waits for its value. -/
def readWords (switches : List Switch) (operand : Operand) (isVerb : Text → Bool) :
    List Text → Option Switch → Given → Except Stop (Given × List Text)
  | [], none, g => .ok (g, [])
  | [], some _, _ => .error .misuse
  | w :: rest, pending?, g =>
    match pending?, w with
    | some _, '-' :: _ :: _ => .error .misuse
    | some s, w => do
      let g ← g.add s w
      readWords switches operand isVerb rest none g
    | none, ['-', '-'] => (readOperands operand rest g).map fun g => (g, [])
    | none, '-' :: '-' :: t => do
      let (g, pending?) ← readLong switches t g
      readWords switches operand isVerb rest pending? g
    | none, '-' :: c :: t => do
      let (g, pending?) ← readLetters switches (c :: t) g
      readWords switches operand isVerb rest pending? g
    | none, w =>
      if isVerb w then .ok (g, w :: rest)
      else do
        let g ← g.addOperand operand w
        readWords switches operand isVerb rest none g

def Given.task? (g : Given) : Verb → Option Task
  | .check => do
    let language ← g.value? .language
    let file ← g.operand?
    some (.check language (g.value? .id) file (g.values? .query) (g.has .json))
  | .identify => (g.value? .language).map fun language => .identify language (g.value? .id)
  | .selector => g.operand?.map .selector
  | .format => g.operand?.map fun file => .format file (g.has .diff)
  | .languages => some .languages

def Topic.ofWords? : List Text → Option Topic
  | [] => some .program
  | [w] => if w = helpVerb then some .help else (Verb.ofName? w).map .verb
  | _ => none

/-- Reads what follows a verb. A file of settings named there counts instead of `config?`. -/
def readVerb (config? : Option Text) (v : Verb) (words : List Text) : Option Request :=
  match readWords v.switches v.operand (fun _ => false) words none .empty with
  | .error .help => some (.help (.verb v))
  | .error _ => none
  | .ok (g, _) => (g.task? v).map (.run ((g.value? .config).or config?))

def Request.read (words : List Text) : Option Request :=
  let isVerb (w : Text) : Bool := w == helpVerb || (Verb.ofName? w).isSome
  match readWords leadingSwitches .none isVerb words none .empty with
  | .error .help => some (.help .program)
  | .error .version => some .version
  | .error .misuse => none
  | .ok (_, []) => none
  | .ok (g, w :: rest) =>
    if w = helpVerb then (Topic.ofWords? rest).map .help
    else (Verb.ofName? w).bind fun v => readVerb (g.value? .config) v rest

def Request.files : Request → List Text
  | run config? task =>
    let own : List Text := match task with
      | .check _ _ file _ _ => [file]
      | .format file _ => [file]
      | _ => []
    config?.toList ++ own
  | help _ => []
  | version => []

end MarkupGrader.CommandLine
