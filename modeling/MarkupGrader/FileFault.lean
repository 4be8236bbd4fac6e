import MarkupGrader.Text.Basic

/-! Why a text file cannot be read, in the words of the operating system where it has some. -/

namespace MarkupGrader

inductive FileFault
  | absent
  | denied
  | notDirectory
  | isDirectory
  | notUtf8
  | other (reason : Text)
  deriving DecidableEq

def FileFault.message : FileFault → Text
  | absent => "No such file or directory (os error 2)"
  | denied => "Permission denied (os error 13)"
  | notDirectory => "Not a directory (os error 20)"
  | isDirectory => "Is a directory (os error 21)"
  | notUtf8 => "stream did not contain valid UTF-8"
  | other reason => reason

end MarkupGrader
