import MarkupGrader.CommandLine.Answer

/-! The program. It reads the files that its arguments name, and prints the answer. -/

namespace MarkupGrader

def osFault : IO.Error → FileFault
  | .noFileOrDirectory .. => .absent
  | .permissionDenied .. => .denied
  | .inappropriateType _ code details =>
    if code = 20 then .notDirectory
    else if code = 21 then .isDirectory
    else .other details.toList
  | e => .other (toString e).toList

def readTextFile (path : Text) : IO (Except FileFault Text) := do
  try
    let bytes ← IO.FS.readBinFile (String.ofList path)
    match String.fromUTF8? bytes with
    | some s => return .ok s.toList
    | none => return .error .notUtf8
  catch e => return .error (osFault e)

end MarkupGrader

open MarkupGrader CommandLine in
def main (args : List String) : IO UInt32 := do
  let request := Request.read (args.map String.toList)
  let contents ← (request.toList.flatMap Request.files).mapM fun path => do
    return (path, ← readTextFile path)
  let a := answer .atEnd (fun path => (contents.lookup path).getD (.error .absent)) request
  (← IO.getStdout).putStr (String.ofList a.stdout)
  (← IO.getStderr).putStr (String.ofList a.stderr)
  return a.code.toUInt32
