import GoCompact.Token.Kind

namespace GoCompact

open CodePoint (char)

namespace Operator

-- The longest operator that a text begins with; none has more than three characters.
def munch? (cs : List CodePoint) : Option Operator :=
  [3, 2, 1].findSome? fun n => ofSpelling? (Text.ofList (cs.take n))

end Operator

-- The two characters that begin a comment.
def beginsComment (cs : List CodePoint) : Bool :=
  cs.take 2 == [char '/', char '/'] || cs.take 2 == [char '/', char '*']

-- The punctuation that a text begins with: the beginning of a comment, the longest operator, or
-- nothing.
def punctuation (cs : List CodePoint) : Text :=
  if beginsComment cs then Text.ofList (cs.take 2)
  else match Operator.munch? cs with
    | some o => o.spelling
    | none => ""

namespace Text

-- A position in a text of a given length. A negative one counts from the end.
def position (length : Nat) (i : Int) : Nat := if i < 0 then (i + length).toNat else i.toNat

-- The part of a text between two positions.
def slice (cs : List CodePoint) (start stop : Int) : List CodePoint :=
  (cs.take (position cs.length stop)).drop (position cs.length start)

end Text

-- The punctuation at a position. What is looked at ends a few characters further on; for a position
-- that counts from the end, this end may be counted from the beginning again.
def punctuationAt (cs : List CodePoint) (start : Int) : Text :=
  let part (n : Nat) : List CodePoint := Text.slice cs start (start + n)
  if beginsComment (cs.drop (Text.position cs.length start)) then Text.ofList (part 2)
  else
    let found := [3, 2, 1].find? fun n =>
      (part n).length == n && (Operator.ofSpelling? (Text.ofList (part n))).isSome
    Text.ofList ((found.map part).getD [])

-- Whether `left`, written directly before `right`, is no longer read as `left`.
def fuses (left right : Text) : Bool := punctuation (left.toList ++ right.toList) != left

end GoCompact
