import GoCompact.Grammar.Cursor

namespace GoCompact

-- The parts of the grammar that rules come back to. Each is entered only after a token was read, so that
-- rules applied to rules as often as there are tokens make up the whole grammar.
structure Grammar where
  -- An expression of operators that bind at least as tightly as a precedence.
  binary : Nat → Parser Tree
  unary : Parser Tree
  -- A type, if the current token can begin one.
  type? : Parser (Option Tree)
  -- The braces of a literal whose type is left out.
  bareLiteral : Parser Tree
  statement : Parser Tree
  ifStatement : Parser Tree

namespace Grammar

open GoCompact.Parser

def expression (g : Grammar) : Parser Tree := g.binary 1

-- A type that has to be there.
def required (p : Parser (Option Tree)) : Parser Tree := do
  match ← p with
  | some t => return t
  | none => expected .type

def type (g : Grammar) : Parser Tree := required g.type?

def ident : Parser Tree := do
  if (← peek) = .ident then
    let t ← advance
    return .ident t.place (.text t.text)
  else expected .identifier

-- A string literal that is the current token.
def stringLiteral : Parser Tree := do
  let t ← advance
  return .basicLit t.place (.token (.literal .Text)) (.text t.text)

-- Where a list of statements ends.
def endsStatements : TokenKind → Bool
  | .word .Case | .word .Default | .op .RBrace | .eof => true
  | _ => false

def statements (g : Grammar) : Parser (List Tree) :=
  manyWhile (fun k => !endsStatements k) g.statement

def block (g : Grammar) : Parser Tree := do
  let brace ← expect (.op .LBrace)
  let stmts ← g.statements
  discard (expect (.op .RBrace))
  return .block brace.place (.tuple stmts)

end Grammar

end GoCompact
