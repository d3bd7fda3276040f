import GoCompact.Location
import GoCompact.Token.Kind

namespace GoCompact

-- What a token is, wherever it stands.
structure Lexeme where
  kind : TokenKind
  text : Text
deriving DecidableEq, Repr, Inhabited

structure Token extends Lexeme where
  line : Nat
  column : Nat
  offset : Nat
  endOffset : Nat
  file : Option Text
deriving DecidableEq, Repr, Inhabited

-- The text of a semicolon that stands for the end of a line.
def lineEnd : Text := "\n"

-- Whether a lexeme stands for the end of a line and not for a semicolon in the text.
def Lexeme.isInserted (l : Lexeme) : Bool := l.kind == .op .Semicolon && l.text == lineEnd

namespace Token

def location (t : Token) : Location where
  line := .int t.line
  column := .int t.column
  offset := .int t.offset
  endOffset := .int t.endOffset
  file := (t.file.map Json.str).getD .null

-- The start of a long text stands for the whole.
def abridged (s : Text) : Text :=
  if 20 < s.length then Text.ofList (s.toList.take 17) ++ "..." else s

-- A token as a listing shows it.
def shown (t : Token) : Text :=
  "Token(" ++ t.kind.name ++ ", " ++ Text.quoted (abridged t.text) ++ ", " ++
    toString t.line ++ ":" ++ toString t.column ++ ")"

end Token

end GoCompact
