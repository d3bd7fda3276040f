import GoCompact.Grammar.Statement
import GoCompact.Token.Lexer

namespace GoCompact

namespace Grammar

-- The parts of the grammar by rules over given parts.
def extend (g : Grammar) : Grammar where
  binary := g.binaryRule
  unary := g.unaryRule
  type? := g.typeRule?
  bareLiteral := g.literalValue none
  statement := g.statementRule
  ifStatement := g.ifRule

-- A grammar that refuses everything.
def empty : Grammar where
  binary _ := Parser.refuse .nestingTooDeep
  unary := Parser.refuse .nestingTooDeep
  type? := Parser.refuse .nestingTooDeep
  bareLiteral := Parser.refuse .nestingTooDeep
  statement := Parser.refuse .nestingTooDeep
  ifStatement := Parser.refuse .nestingTooDeep

-- The grammar for texts that come back to its parts at most `n` times in each other.
def upTo : Nat → Grammar
  | 0 => empty
  | n + 1 => (upTo n).extend

end Grammar

-- What a text is read as.
inductive Fragment
  | file | expression | statement | declaration
deriving DecidableEq, Repr, Inhabited

namespace Fragment

open GoCompact.Parser

-- Nothing but the end of a statement may follow.
def finish : Parser Unit := do
  discard (got (.op .Semicolon))
  if (← peek) ≠ .eof then expected .endOfText

-- One part with nothing after it.
def alone (p : Parser Tree) : Parser Tree := do
  let t ← p
  finish
  return t

-- A package clause, imports, and declarations.
def fileRule (g : Grammar) : Parser Tree := do
  let start ← expect (.word .Package)
  let package ← Grammar.ident
  expectEnd
  let imports ← manyWhile (· == .word .Import) (g.genDecl .Import)
  let others ← manyWhile (· != .eof) g.declaration
  return .file start.place package (.tuple (imports ++ others))

def rule (g : Grammar) : Fragment → Parser Tree
  | .file => fileRule g
  | .expression => alone g.expressionRule
  | .statement => alone g.statementRule
  | .declaration => alone g.declaration

-- Reads tokens in a scope. Each time a rule comes back to a part of the grammar a token was read, so
-- the number of tokens is enough.
def parseIn (fragment : Fragment) (scope : Scope) (tokens : List Token) : Except Refusal Tree :=
  match (fragment.rule (Grammar.upTo tokens.length)).run scope |>.run (Cursor.ofTokens tokens) with
  | .ok (t, _) => .ok t
  | .error refusal => .error refusal

-- Reads tokens under a limit on nesting.
def parseTokens (fragment : Fragment) (limit : Limit) (tokens : List Token) : Except Refusal Tree :=
  fragment.parseIn ⟨0, 0, limit⟩ tokens

end Fragment

namespace Refusal

def diagnostic (r : Refusal) (file : Option Text) : Diagnostic :=
  ⟨r.cause, r.token.line, r.token.column, file⟩

end Refusal

-- Reads a source text.
def Fragment.parse (fragment : Fragment) (limit : Limit) (source : Text) (file : Option Text) :
    Except Diagnostic Tree := do
  let tokens ← Lexer.tokens source file
  match fragment.parseTokens limit tokens with
  | .ok t => return t
  | .error refusal => throw (refusal.diagnostic file)

end GoCompact
