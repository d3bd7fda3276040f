import GoCompact.Diagnostic
import GoCompact.Limit
import GoCompact.Tree.Shape

namespace GoCompact

-- The current token and those after it. The end token, which comes last, is never passed.
structure Cursor where
  current : Token
  upcoming : List Token
deriving DecidableEq, Repr

namespace Cursor

def endToken : Token := ⟨⟨.eof, ""⟩, 1, 1, 0, 0, none⟩

def ofTokens : List Token → Cursor
  | [] => ⟨endToken, []⟩
  | t :: ts => ⟨t, ts⟩

def advance (c : Cursor) : Cursor :=
  match c.upcoming with
  | [] => c
  | t :: ts => ⟨t, ts⟩

end Cursor

structure Scope where
  -- Negative inside the header of a statement, where a brace begins the body.
  level : Int
  depth : Nat
  limit : Limit
deriving DecidableEq, Repr

-- A refusal: its cause, the token it is about, and where the parser stood and at what level.
structure Refusal where
  cause : Cause
  token : Token
  cursor : Cursor
  level : Int
deriving DecidableEq, Repr

-- A parser reads tokens one at a time and decides by the current one alone.
abbrev Parser := ReaderT Scope (StateT Cursor (Except Refusal))

namespace Token

def place (t : Token) : Tree := .location t.location

end Token

namespace Parser

def current : Parser Token := return (← get).current

def peek : Parser TokenKind := return (← get).current.kind

-- Moves past the current token and gives it.
def advance : Parser Token := do
  let c ← get
  set c.advance
  return c.current

def refuseAt {α : Type} (cause : Cause) (token : Token) : Parser α := do
  throw ⟨cause, token, ← get, (← read).level⟩

def refuse {α : Type} (cause : Cause) : Parser α := do
  refuseAt cause (← current)

def expected {α : Type} (what : Wanted) : Parser α := do
  refuse (.expected what (← current).toLexeme)

-- Moves past a token of a kind, if it is the current one.
def got (kind : TokenKind) : Parser Bool := do
  if (← peek) = kind then
    discard advance
    return true
  else return false

def expect (kind : TokenKind) : Parser Token := do
  if (← peek) = kind then advance else expected (.token kind)

-- The end of a statement, which may be left out before a closing bracket and at the end.
def expectEnd : Parser Unit := do
  match ← peek with
  | .op .RParen | .op .RBrace | .eof => return
  | .op .Semicolon => discard advance
  | _ => expected (.token (.op .Semicolon))

-- Runs a parser one level deeper, if the limit allows it.
def nested {α : Type} (p : Parser α) : Parser α := do
  let scope ← read
  match scope.limit.admits (scope.depth + 1) with
  | some true => withReader (fun s => { s with depth := s.depth + 1 }) p
  | some false => refuse .nestingTooDeep
  | none => refuse .limitNotANumber

-- Runs a parser inside brackets, where braces no longer begin the body of a statement.
def bracketed {α : Type} (p : Parser α) : Parser α :=
  withReader (fun s => { s with level := s.level + 1 }) p

-- Runs a parser in the header of a statement.
def inHeader {α : Type} (p : Parser α) : Parser α :=
  withReader (fun s => { s with level := -1 }) p

-- The tokens ahead. Each round of a loop reads one of them, so they bound its rounds, and when there
-- are none the end is reached and no loop goes on.
def ahead : Parser (List Token) := return (← get).upcoming

-- Lets a tree grow to the right as long as `step` finds more of it.
def growWithin (step : Tree → Parser (Option Tree)) : List Token → Tree → Parser Tree
  | [], t => return t
  | _ :: rounds, t => do
    match ← step t with
    | none => return t
    | some t => growWithin step rounds t

def grow (step : Tree → Parser (Option Tree)) (t : Tree) : Parser Tree := do
  growWithin step (← ahead) t

-- Repeats a parser as long as the current token is of the right kind.
def manyWithin {α : Type} (more : TokenKind → Bool) (p : Parser α) :
    List Token → Parser (List α)
  | [] => return []
  | _ :: rounds => do
    if more (← peek) then
      let x ← p
      let xs ← manyWithin more p rounds
      return x :: xs
    else return []

def manyWhile {α : Type} (more : TokenKind → Bool) (p : Parser α) : Parser (List α) := do
  manyWithin more p (← ahead)

-- Items after commas. A comma before the closing token, if one is given, ends them.
def afterCommasWithin {α : Type} (closing : Option TokenKind) (p : Parser α) :
    List Token → Parser (List α)
  | [] => return []
  | _ :: rounds => do
    if ← got (.op .Comma) then
      if some (← peek) = closing then return []
      else
        let x ← p
        let xs ← afterCommasWithin closing p rounds
        return x :: xs
    else return []

def afterCommas {α : Type} (closing : Option TokenKind) (p : Parser α) : Parser (List α) := do
  afterCommasWithin closing p (← ahead)

-- One or more items with commas between them.
def commaList {α : Type} (p : Parser α) : Parser (List α) := do
  let x ← p
  let xs ← afterCommas none p
  return x :: xs

-- Items up to a closing token, which is left unread. After the last one a comma may stand.
def itemsWithin {α : Type} (closing : TokenKind) (p : Parser α) : List Token → Parser (List α)
  | [] => return []
  | _ :: rounds => do
    let kind ← peek
    if kind = closing ∨ kind = .eof then return []
    else
      let x ← p
      if ← got (.op .Comma) then
        let xs ← itemsWithin closing p rounds
        return x :: xs
      else return [x]

def itemsUntil {α : Type} (closing : TokenKind) (p : Parser α) : Parser (List α) := do
  itemsWithin closing p (← ahead)

end Parser

end GoCompact
