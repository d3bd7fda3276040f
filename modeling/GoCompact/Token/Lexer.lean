import GoCompact.Token.Gap
import GoCompact.Token.Scan

namespace GoCompact

structure Lexer where
  source : List CodePoint
  file : Option Text
  rest : List CodePoint
  offset : Nat
  line : Nat
  lineStart : Nat
  -- Whether the end of a line would be given as a semicolon.
  pending : Bool
deriving DecidableEq, Repr

namespace Lexer

open CodePoint (char)

def new (source : Text) (file : Option Text) : Lexer where
  source := source.toList
  file := file
  rest := source.toList
  offset := 0
  line := 1
  lineStart := 0
  pending := false

-- The line and column of an offset, found by counting in the source.
def lineAt (source : List CodePoint) (offset : Nat) : Nat := (source.take offset).count (char '\n') + 1

def columnAt (source : List CodePoint) (offset : Nat) : Nat :=
  ((source.take offset).reverse.takeWhile (· != char '\n')).length + 1

def diagnose (s : Lexer) (cause : Cause) : Diagnostic where
  cause := cause
  line := lineAt s.source s.offset
  column := columnAt s.source s.offset
  file := s.file

-- The token of a given length that begins here.
def tokenHere (s : Lexer) (kind : TokenKind) (text : Text) (length : Nat) : Token where
  kind := kind
  text := text
  line := s.line
  column := s.offset - s.lineStart + 1
  offset := s.offset
  endOffset := s.offset + length
  file := s.file

def insertedSemicolon (s : Lexer) : Token := s.tokenHere (.op .Semicolon) lineEnd 0

-- Moves past a text whose line ends do not count.
def moveFlat (s : Lexer) (text rest : List CodePoint) : Lexer :=
  { s with rest := rest, offset := s.offset + text.length }

-- Moves past a text whose line ends count.
def move (s : Lexer) (text rest : List CodePoint) : Lexer :=
  { s with
    rest := rest
    offset := s.offset + text.length
    line := s.line + text.count (char '\n')
    lineStart :=
      if text.contains '\n' then
        s.offset + text.length - (text.reverse.takeWhile (· != char '\n')).length
      else s.lineStart }

-- The end of the text: a semicolon first, if one is pending.
def atEnd (s : Lexer) : Token × Lexer :=
  if s.pending then (s.insertedSemicolon, { s with pending := false })
  else (s.tokenHere .eof "" 0, s)

-- The token that begins here.
def scanned (s : Lexer) (scan : Scan) : Token × Lexer :=
  let moved := if scan.raw then s.move scan.text scan.rest else s.moveFlat scan.text scan.rest
  (s.tokenHere scan.kind (Text.ofList scan.text) scan.text.length,
    { moved with pending := scan.kind.endsStatement })

-- Passes over the pieces of a gap to the next token. A pending semicolon is given before the piece that
-- ends the line. There is no more than one piece for each
-- character of the first argument.
def nextWithin : List CodePoint → Lexer → Except Diagnostic (Token × Lexer)
  | [], s => .ok s.atEnd
  | _ :: bound, s =>
    match Gap.read s.rest with
    | .unfinished => .error (s.diagnose (.unfinished .comment))
    | .piece gap rest =>
      if s.pending && gap.endsLine then .ok (s.insertedSemicolon, { s with pending := false })
      else nextWithin bound (s.move gap.text rest)
    | .none =>
      match s.rest with
      | [] => .ok s.atEnd
      | c :: cs =>
        match Scan.token c cs with
        | .ok scan => .ok (s.scanned scan)
        | .error cause => .error (s.diagnose cause)

-- The next token. A gap has no more pieces than the text has characters.
def next (s : Lexer) : Except Diagnostic (Token × Lexer) := nextWithin s.rest s

-- Passes over the pieces of a gap, at most one for each character of the first argument.
def haltWithin : List CodePoint → Lexer → Lexer
  | [], s => s
  | _ :: bound, s =>
    match Gap.read s.rest with
    | .piece gap rest => haltWithin bound (s.move gap.text rest)
    | _ => s

-- Where the lexer stays when there is a fault behind the gap: the gap is passed over by then.
def halted (s : Lexer) : Lexer := haltWithin s.rest s

-- Why no more tokens were drawn.
inductive Stop
  | enough
  | ended
  | failed (diagnostic : Diagnostic)
deriving DecidableEq, Repr

structure Drawn where
  tokens : List Token
  lexer : Lexer
  stop : Stop
deriving DecidableEq, Repr

-- Draws up to `n` tokens, none after the end token.
def draw : Nat → Lexer → Drawn
  | 0, s => ⟨[], s, .enough⟩
  | n + 1, s =>
    match s.next with
    | .error d => ⟨[], s.halted, .failed d⟩
    | .ok (t, s) =>
      if t.kind = .eof then ⟨[t], s, .ended⟩
      else
        let drawn := draw n s
        { drawn with tokens := t :: drawn.tokens }

-- Draws for each number in turn from what the draws before it left.
def drawEach : List Nat → Lexer → List Drawn
  | [], _ => []
  | n :: ns, s =>
    let drawn := s.draw n
    drawn :: drawEach ns drawn.lexer

-- All tokens of a source, the end token last. A stream that has not ended after two tokens for
-- each character never will: it stands before a digit that begins an empty number.
def tokens (source : Text) (file : Option Text) : Except Diagnostic (List Token) :=
  let drawn := (new source file).draw (2 * source.length + 2)
  match drawn.stop with
  | .ended => .ok drawn.tokens
  | .failed d => .error d
  | .enough => .error (drawn.lexer.diagnose (.illegalCharacter (drawn.lexer.rest.headD ' ')))

end Lexer

end GoCompact
