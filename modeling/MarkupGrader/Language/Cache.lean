import MarkupGrader.Language.Registry

/-! Exports that were loaded before, by language. Only what was loaded with success is kept. -/

namespace MarkupGrader

structure Cache where
  entries : List (Language × Exports)

namespace Cache

variable {σ : Type}

def empty : Cache := ⟨[]⟩

def size (c : Cache) : Nat := c.entries.length

def get? (c : Cache) (l : Language) : Option Exports :=
  (c.entries.find? (·.1.same l)).map Prod.snd

def getOrLoad (c : Cache) (r : Registry σ) (l : Language) (w : σ) :
    Except Fault Exports × Cache × σ :=
  match c.get? l with
  | some exports => (.ok exports, c, w)
  | none =>
    match r.resolve l.id l.name w with
    | (.ok exports, w) => (.ok exports, ⟨(l, exports) :: c.entries⟩, w)
    | (.error fault, w) => (.error fault, c, w)

end Cache
end MarkupGrader
