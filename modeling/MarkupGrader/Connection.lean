import MarkupGrader.Language.Cache

/-! A connection to one language's module. It is first loaded and then made ready, and anything that
goes wrong on the way is kept for good as the reason why it failed. Only a ready connection can be
asked. -/

namespace MarkupGrader

structure EntryPoints where
  capacity : Nat
  identify : Buffer → Buffer
  checkSyntax : Text.Units → Buffer → Buffer
  query : Text.Units → Text.Units → Buffer → Buffer

/-- The capacity and the entry points of a table, or the first that it lacks. -/
def EntryPoints.ofExports (e : Exports) : Except Fault EntryPoints :=
  match e.capacity?, e.identify?, e.checkSyntax?, e.query? with
  | none, _, _, _ => .error .missingCapacity
  | _, none, _, _ => .error .missingIdentify
  | _, _, none, _ => .error .missingCheckSyntax
  | _, _, _, none => .error .missingQuery
  | some capacity, some identify, some checkSyntax, some query =>
    .ok ⟨capacity, identify, checkSyntax, query⟩

inductive Stage
  | uninitialized
  | loaded (exports : Exports)
  | ready (entry : EntryPoints)
  | failed (reason : Fault)

def Stage.name : Stage → Text
  | uninitialized => "Uninitialized"
  | loaded _ => "Loaded"
  | ready _ => "Ready"
  | failed _ => "Failed"

structure Connection where
  language : Language
  stage : Stage

namespace Connection

variable {σ : Type}

def new (id name : Text) : Connection := ⟨⟨id, name⟩, .uninitialized⟩

def reason? (k : Connection) : Option Fault :=
  match k.stage with
  | .failed reason => some reason
  | _ => none

def describe (k : Connection) : Text :=
  "ModuleHandle \x7b language: " ++ k.language.describe ++ ", state: " ++ k.stage.name ++ " \x7d"

def absent (k : Connection) : Fault := .moduleLoadFailed k.language.name

def settle (k : Connection) (result : Except Fault Stage) : Except Fault Unit × Connection :=
  match result with
  | .ok stage => (.ok (), ⟨k.language, stage⟩)
  | .error fault => (.error fault, ⟨k.language, .failed fault⟩)

def load (k : Connection) (r : Registry σ) (w : σ) : Except Fault Unit × Connection × σ :=
  match k.stage with
  | .uninitialized =>
    let (exports, w) := r.resolve k.language.id k.language.name w
    let (result, k) := k.settle (exports.map .loaded)
    (result, k, w)
  | .failed reason => (.error reason, k, w)
  | .loaded _ | .ready _ => (.ok (), k, w)

def loadCached (k : Connection) (r : Registry σ) (c : Cache) (w : σ) :
    Except Fault Unit × Connection × Cache × σ :=
  match k.stage with
  | .uninitialized =>
    let (exports, c, w) := c.getOrLoad r k.language w
    let (result, k) := k.settle (exports.map .loaded)
    (result, k, c, w)
  | .failed reason => (.error reason, k, c, w)
  | .loaded _ | .ready _ => (.ok (), k, c, w)

def init (k : Connection) : Except Fault Unit × Connection :=
  match k.stage with
  | .loaded exports => k.settle ((EntryPoints.ofExports exports).map .ready)
  | .ready _ => (.ok (), k)
  | .failed reason => (.error reason, k)
  | .uninitialized => k.settle (.error k.absent)

def start (r : Registry σ) (id name : Text) (w : σ) : Connection × σ :=
  match (new id name).load r w with
  | (.ok (), k, w) => (k.init.2, w)
  | (.error _, k, w) => (k, w)

def entry (k : Connection) : Except Fault EntryPoints :=
  match k.stage with
  | .ready entry => .ok entry
  | .failed reason => .error reason
  | .uninitialized | .loaded _ => .error k.absent

/-- Calls an entry point on a fresh buffer and reads what it wrote. -/
def call (operation : Operation) (capacity : Nat) (use : Buffer → Buffer) : Except Fault Text :=
  match (use (Buffer.ofCapacity capacity)).response with
  | .text t => .ok t
  | .empty => .ok []
  | .error code => .error (ErrorCode.toFault operation code)
  | .refused => .error (.bufferTooSmall capacity)

def identify (k : Connection) : Except Fault Text := do
  let entry ← k.entry
  call .identify entry.capacity entry.identify

def checkSyntaxText (k : Connection) (code : Text) : Except Fault Text := do
  let entry ← k.entry
  call .checkSyntax entry.capacity (entry.checkSyntax code.toUnits)

def queryText (k : Connection) (code command : Text) : Except Fault Text := do
  let entry ← k.entry
  call .query entry.capacity (entry.query code.toUnits command.toUnits)

def checkSyntax (k : Connection) (code : Text) : Except Fault Outcome :=
  (k.checkSyntaxText code).map fun t =>
    if t.isEmpty then .unanswered else Outcome.ofSyntaxResponse t

def query (k : Connection) (code command : Text) : Except Fault Outcome :=
  (k.queryText code command).map (Outcome.ofQueryResponse command)

end Connection
end MarkupGrader
