import GoCompact.Text.Basic

namespace GoCompact.Text

-- The pieces so far, the last one first.
structure Builder where
  pieces : List Text
deriving DecidableEq, Repr

namespace Builder

def empty : Builder := ⟨[]⟩

-- Adds a piece and gives its length. Empty pieces are not kept.
def write (b : Builder) (s : Text) : Nat × Builder :=
  (s.length, if s = "" then b else ⟨s :: b.pieces⟩)

def text (b : Builder) : Text := Text.join b.pieces.reverse

-- The length of each piece with the text after it.
def trace (b : Builder) : List Text → List (Nat × Text)
  | [] => []
  | s :: rest =>
    let (count, b) := b.write s
    (count, b.text) :: trace b rest

end Builder

end GoCompact.Text
