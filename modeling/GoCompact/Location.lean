import GoCompact.Json.Value

namespace GoCompact

-- The line and column of a token, counted from one, the offsets of its two ends, and the file. Locations
-- also arrive in documents, where nothing checks them.
structure Location where
  line : Json
  column : Json
  offset : Json
  endOffset : Json
  file : Json
deriving Inhabited

namespace Location

-- The location of a part that no source text holds.
def unknown : Location := ⟨.int 0, .int 0, .int 0, .int 0, .null⟩

-- A location points into a text when its line is positive, which cannot be said of a line that is
-- no number.
def isKnown? (l : Location) : Option Bool :=
  match l.line with
  | .int n => some (decide (0 < n))
  | .bool b => some b
  | .real x => some x.isPositive
  | _ => none

-- The file, if there is one, the line and the column.
def text (l : Location) : Text :=
  let place := l.line.bare ++ ":" ++ l.column.bare
  if l.file.isPresent then l.file.bare ++ ":" ++ place else place

def same (a b : Location) : Bool :=
  a.line.same b.line && a.column.same b.column && a.offset.same b.offset &&
    a.endOffset.same b.endOffset && a.file.same b.file

end Location

end GoCompact
