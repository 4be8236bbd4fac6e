import MarkupGrader.Markup.Node

/-! An outline is a syntax tree with source text in the place of positions. Walking over it while
counting bytes gives the tree. -/

namespace MarkupGrader.Markup

inductive Outline
  /-- Source text without a node. -/
  | gap (t : Text)
  | leaf (kind : Kind) (t : Text)
  | group (kind : Kind) (parts : List Outline)

namespace Outline

mutual

def source : Outline → Text
  | gap t => t
  | leaf _ t => t
  | group _ parts => sourceAll parts

def sourceAll : List Outline → Text
  | [] => []
  | o :: rest => source o ++ sourceAll rest

end

mutual

def locate (start : Nat) : Outline → List Node
  | gap _ => []
  | leaf kind t => [.node kind ⟨start, start + Text.byteLength t⟩ false []]
  | group kind parts =>
    [.node kind ⟨start, start + Text.byteLength (sourceAll parts)⟩ false (locateAll start parts)]

def locateAll (start : Nat) : List Outline → List Node
  | [] => []
  | o :: rest => locate start o ++ locateAll (start + Text.byteLength (source o)) rest

end

def literal (t : Text) : Outline := .leaf (.literal t) t

end Outline
end MarkupGrader.Markup
