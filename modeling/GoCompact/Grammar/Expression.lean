import GoCompact.Grammar.Type

namespace GoCompact

namespace Tree

-- The tree inside any parentheses.
def unparen : Tree → Tree
  | .paren _ x => unparen x
  | t => t

end Tree

namespace Grammar

open GoCompact.Parser

-- A function type, or a function literal if a body follows.
def functionTypeOrLiteral (g : Grammar) : Parser Tree := do
  let func ← expect (.word .Func)
  let typ ← g.signature func.place true
  if (← peek) = .op .LBrace then
    let body ← bracketed g.block
    return .funcLit func.place typ body
  else return typ

def parenthesized (g : Grammar) : Parser Tree := do
  let paren ← advance
  let x ← bracketed g.expression
  discard (expect (.op .RParen))
  return .paren paren.place x

def basicLiteral : Parser Tree := do
  let t ← advance
  return .basicLit t.place (.token t.kind) (.text t.text)

def operand (g : Grammar) : Parser Tree := do
  match ← peek with
  | .ident => ident
  | .literal _ => basicLiteral
  | .op .LParen => g.parenthesized
  | .word .Func => g.functionTypeOrLiteral
  | _ =>
    match ← g.typeRule? with
    | some typ => return typ
    | none => expected .operand

-- Whether a brace after a tree begins a literal of that type. In the header of a statement it
-- does not after a type name.
def isLiteralType (x : Tree) : Parser Bool := do
  let isName := x.unparen.is .Ident || x.unparen.is .SelectorExpr || x.unparen.is .IndexExpr
  let isLiteral := x.unparen.is .ArrayType || x.unparen.is .StructType || x.unparen.is .MapType
  if isLiteral || (isName && 0 ≤ (← read).level) then
    if x.is .ParenExpr then refuse .parenthesizedLiteralType else return true
  else return false

-- A key or a value of a literal element, which may be a literal without its type.
def elementPart (g : Grammar) : Parser Tree := do
  if (← peek) = .op .LBrace then g.bareLiteral else g.expression

def element (g : Grammar) : Parser Tree := do
  let x ← g.elementPart
  if ← got (.op .Colon) then
    let value ← g.elementPart
    return .keyValue x.placeOf x value
  else return x

-- The braces of a literal, whose type was read before or is left out.
def literalValue (g : Grammar) (typ : Option Tree) : Parser Tree := do
  let brace ← expect (.op .LBrace)
  let elts ← bracketed (itemsUntil (.op .RBrace) g.element)
  discard (expect (.op .RBrace))
  let place := (typ.map Tree.placeOf).getD brace.place
  return .compositeLit place (.ofOption typ) (.tuple elts)

-- A bound of a slice, if there is one.
def sliceBound (g : Grammar) : Parser (Option Tree) := do
  match ← peek with
  | .op .Colon | .op .RBrack | .eof => return none
  | _ => some <$> g.expression

-- What stands in the brackets after an operand.
inductive Brackets
  | indices (items : List Tree)
  | slice (low high : Option Tree)
  | fullSlice (low high max : Option Tree)

-- The inside of brackets after the first expression, if there is one.
def bracketsAfter (g : Grammar) (low : Option Tree) : Parser Brackets := do
  if ← got (.op .Colon) then
    let high ← g.sliceBound
    if ← got (.op .Colon) then
      let max ← g.sliceBound
      return .fullSlice low high max
    else return .slice low high
  else
    let others ← afterCommas (some (.op .RBrack)) g.type
    return .indices (low.toList ++ others)

def bracketContents (g : Grammar) : Parser Brackets :=
  bracketed do
    if (← peek) = .op .Colon then g.bracketsAfter none
    else
      let first ← g.expression
      g.bracketsAfter (some first)

-- An index, several type arguments, or a slice.
def indexOrSlice (g : Grammar) (x : Tree) : Parser Tree := do
  discard (expect (.op .LBrack))
  if (← peek) = .op .RBrack then expected .operand
  let contents ← g.bracketContents
  discard (expect (.op .RBrack))
  match contents with
  | .indices items => return .index x.placeOf x (.tuple items)
  | .slice low high => return .slice x.placeOf x (.ofOption low) (.ofOption high) .absent
  | .fullSlice low high max =>
    if high.isNone || max.isNone then refuse .incompleteSlice
    else return .slice x.placeOf x (.ofOption low) (.ofOption high) (.ofOption max)

-- The arguments of a call, and whether the last one is spread by three dots.
def argumentsWithin (g : Grammar) : List Token → Parser (List Tree × Bool)
  | [] => return ([], false)
  | _ :: rounds => do
    match ← peek with
    | .op .RParen | .eof => return ([], false)
    | _ =>
      let x ← g.expression
      let spread ← got (.op .Ellipsis)
      let comma ← got (.op .Comma)
      if comma && !spread then
        let (xs, spread) ← argumentsWithin g rounds
        return (x :: xs, spread)
      else return ([x], spread)

def call (g : Grammar) (callee : Tree) : Parser Tree := do
  discard (expect (.op .LParen))
  let (args, spread) ← bracketed do g.argumentsWithin (← ahead)
  discard (expect (.op .RParen))
  return .call callee.placeOf callee (.tuple args) (.flag spread)

-- The type of an assertion, which a type switch leaves open.
def assertedType (g : Grammar) : Parser (Option Tree) := do
  if ← got (.word .Type) then return none else some <$> g.type

-- What follows a point.
def selectorOrAssertion (g : Grammar) (x : Tree) : Parser Tree := do
  discard (expect (.op .Period))
  if (← peek) = .ident then
    let sel ← ident
    return .selector x.placeOf x sel
  else if ← got (.op .LParen) then
    let typ ← g.assertedType
    discard (expect (.op .RParen))
    return .typeAssert x.placeOf x (.ofOption typ)
  else expected .selector

def primaryStep (g : Grammar) (x : Tree) : Parser (Option Tree) := do
  match ← peek with
  | .op .Period => some <$> g.selectorOrAssertion x
  | .op .LBrack => some <$> g.indexOrSlice x
  | .op .LParen => some <$> g.call x
  | .op .LBrace => do
    if ← isLiteralType x then some <$> g.literalValue (some x) else return none
  | _ => return none

-- Everything that follows an operand and belongs to it.
def primaryAfter (g : Grammar) (x : Tree) : Parser Tree := grow g.primaryStep x

-- Operators that may stand before an operand, pointers and channels apart.
def isUnary : TokenKind → Bool
  | .op o => o == .Add || o == .Sub || o == .Not || o == .Xor || o == .And || o == .Tilde
  | _ => false

def unaryHere (g : Grammar) : Parser Tree := do
  let t ← current
  if isUnary t.kind then
    discard advance
    let x ← g.unary
    return .unary t.place (.token t.kind) x
  else match t.kind with
    | .op .Arrow => do
      discard advance
      let x ← g.unary
      if x.is .ChanType then receiving x
      else return .unary t.place (.token (.op .Arrow)) x
    | .op .Mul => do
      discard advance
      let x ← g.unary
      return .star t.place x
    | _ => do
      let x ← g.operand
      g.primaryAfter x

def unaryRule (g : Grammar) : Parser Tree := nested g.unaryHere

-- Operators group to the left: after one only those that bind more tightly belong to its right
-- side.
def binaryStep (g : Grammar) (least : Nat) (x : Tree) : Parser (Option Tree) := do
  let op ← peek
  if op.precedence < least then return none
  else
    discard advance
    let y ← g.binary (op.precedence + 1)
    return some (.binary x.placeOf x (.token op) y)

def binaryAfter (g : Grammar) (least : Nat) (x : Tree) : Parser Tree := grow (g.binaryStep least) x

def binaryRule (g : Grammar) (least : Nat) : Parser Tree := do
  let x ← g.unaryRule
  g.binaryAfter least x

def expressionRule (g : Grammar) : Parser Tree := g.binaryRule 1

def expressionList (g : Grammar) : Parser (List Tree) := commaList g.expressionRule

end Grammar

end GoCompact
