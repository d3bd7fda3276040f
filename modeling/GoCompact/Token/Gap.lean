import GoCompact.Text.Basic

namespace GoCompact

-- One piece of a gap. A line comment stops before the end of its line.
inductive Gap
  | blank (c : CodePoint)
  | newline
  | lineComment (body : List CodePoint)
  | blockComment (body : List CodePoint)
deriving DecidableEq, Repr

namespace Gap

open CodePoint (char)

def isBlank (c : CodePoint) : Bool := c == ' ' || c == '\t' || c == '\r'

def text : Gap → List CodePoint
  | .blank c => [c]
  | .newline => ['\n']
  | .lineComment body => '/' :: '/' :: body
  | .blockComment body => char '/' :: char '*' :: body ++ [char '*', char '/']

-- Pieces that bring a line to its end. A line comment does: nothing else can follow it there.
def endsLine : Gap → Bool
  | .blank _ => false
  | .newline => true
  | .lineComment _ => true
  | .blockComment body => body.contains '\n'

-- The inside of a block comment and what follows it, if it is closed.
def blockBody : List CodePoint → Option (List CodePoint × List CodePoint)
  | '*' :: '/' :: rest => some ([], rest)
  | c :: rest => (blockBody rest).map fun (body, rest) => (c :: body, rest)
  | [] => none

-- What a text begins with.
inductive Reading
  | piece (gap : Gap) (rest : List CodePoint)
  | unfinished
  | none
deriving DecidableEq, Repr

def read (cs : List CodePoint) : Reading :=
  match cs with
  | '\n' :: rest => .piece .newline rest
  | '/' :: '/' :: rest =>
    .piece (.lineComment (rest.takeWhile (· != '\n'))) (rest.dropWhile (· != '\n'))
  | '/' :: '*' :: rest =>
    match blockBody rest with
    | some (body, rest) => .piece (.blockComment body) rest
    | Option.none => .unfinished
  | c :: rest => if isBlank c then .piece (.blank c) rest else .none
  | [] => .none

end Gap

end GoCompact
