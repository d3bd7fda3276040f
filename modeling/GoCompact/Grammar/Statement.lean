import GoCompact.Grammar.Declaration

namespace GoCompact.Grammar

open GoCompact.Parser

-- An assignment after its operator.
def assignmentAfter (g : Grammar) (start op : Token) (lhs : List Tree) : Parser Tree := do
  let rhs ← g.expressionList
  return .assign start.place (.tuple lhs) (.token op.kind) (.tuple rhs)

-- A simple statement after its first expressions, if it is no assignment. Where labels are
-- allowed, a name before a colon is one.
def simpleAfter (g : Grammar) (labels : Bool) (start : Token) (lhs : List Tree) :
    Parser Tree := do
  match lhs with
  | [x] =>
    match ← peek with
    | .op .Colon =>
      if labels && x.is .Ident then
        discard advance
        let stmt ← g.statement
        return .labeled start.place x stmt
      else return .exprStmt start.place x
    | .op .Arrow =>
      discard advance
      let value ← g.expressionRule
      return .send start.place x value
    | .op .Inc | .op .Dec =>
      let t ← advance
      return .incDec start.place x (.token t.kind)
    | _ => return .exprStmt start.place x
  | _ => expected .oneExpression

-- A simple statement without its end.
def simpleStatement (g : Grammar) (labels : Bool) : Parser Tree := do
  let start ← current
  let lhs ← g.expressionList
  if (← peek).isAssignment then
    let op ← advance
    g.assignmentAfter start op lhs
  else g.simpleAfter labels start lhs

-- The call of a `go` or `defer` statement.
def callStatement (g : Grammar) (word : CallWord) : Parser Tree := do
  let x ← g.expressionRule
  if x.is .ParenExpr then refuse (.parenthesizedCall word)
  else if x.is .CallExpr then return x
  else refuse (.notACall word)

-- The expression that a header needs, if there is anything.
def headerExpression (part : HeaderPart) (stmt : Option Tree) : Parser (Option Tree) :=
  match stmt with
  | none => return none
  | some (.exprStmt _ x) => return some x
  | some _ => refuse (.expectedExpression part)

-- The statement before the condition, or the condition itself.
def ifFirst (g : Grammar) : Parser (Option Tree) := do
  match ← peek with
  | .op .Semicolon => return none
  | .word .Var => refuse .variableInHeader
  | _ => some <$> g.simpleStatement false

-- The condition after the semicolon of a header.
def ifCondition (g : Grammar) : Parser (Option Tree) := do
  if (← peek) = .op .LBrace then return none
  else
    let stmt ← g.simpleStatement false
    headerExpression .condition (some stmt)

def ifClauses (g : Grammar) : Parser (Option Tree × Option Tree) := do
  let first ← g.ifFirst
  if (← peek) = .op .Semicolon then
    let semicolon ← advance
    if semicolon.text = lineEnd then refuseAt .newlineInHeader semicolon
    else
      let cond ← g.ifCondition
      return (first, cond)
  else
    let cond ← headerExpression .condition first
    return (none, cond)

-- The statement before the condition, if there is one, and the condition.
def ifHeader (g : Grammar) : Parser (Tree × Tree) := do
  if (← peek) = .op .LBrace then refuse .missingCondition
  else
    let (init, cond) ← inHeader g.ifClauses
    match cond with
    | some cond => return (.ofOption init, cond)
    | none => refuse .missingCondition

-- What follows the body of an `if`, up to the end of the statement.
def elseBranch (g : Grammar) : Parser Tree := do
  if ← got (.word .Else) then
    match ← peek with
    | .word .If => g.ifStatement
    | .op .LBrace => do
      let body ← g.block
      expectEnd
      return body
    | _ => expected .ifOrBlock
  else
    expectEnd
    return .absent

def ifRule (g : Grammar) : Parser Tree := do
  let start ← expect (.word .If)
  let (init, cond) ← g.ifHeader
  let body ← g.block
  let otherwise ← g.elseBranch
  return .ifStmt start.place init cond body otherwise

-- Whether the tag of a switch asks for the type of a value.
def isTypeGuard : Tree → Bool
  | .exprStmt _ (.typeAssert _ _ .absent) => true
  | .assign _ (.tuple [name]) (.token (.op .Define)) (.tuple [.typeAssert _ _ .absent]) =>
    name.is .Ident
  | _ => false

def isClause : TokenKind → Bool
  | .word .Case | .word .Default => true
  | _ => false

-- A clause of a switch. The values are types if the switch is one on types.
def caseClause (g : Grammar) (types : Bool) : Parser Tree := do
  let start ← current
  let values ←
    if ← got (.word .Case) then
      if types then commaList g.typeRule else g.expressionList
    else
      discard (expect (.word .Default))
      pure []
  discard (expect (.op .Colon))
  let body ← g.statements
  return .caseClause start.place (.tuple values) (.tuple body)

def switchFirst (g : Grammar) : Parser (Option Tree) := do
  if (← peek) = .op .Semicolon then return none else some <$> g.simpleStatement false

-- The statement before the tag, and the tag.
def switchHeader (g : Grammar) : Parser (Option Tree × Option Tree) := do
  if (← peek) = .op .LBrace then return (none, none)
  else inHeader do
    let first ← g.switchFirst
    if ← got (.op .Semicolon) then
      if (← peek) = .op .LBrace then return (first, none)
      else
        let tag ← g.simpleStatement false
        return (first, some tag)
    else return (none, first)

-- The clauses of a switch or select in their braces.
def clauses (clause : Parser Tree) : Parser Tree := do
  let brace ← expect (.op .LBrace)
  let items ← manyWhile isClause clause
  discard (expect (.op .RBrace))
  expectEnd
  return .block brace.place (.tuple items)

def switchStatement (g : Grammar) : Parser Tree := do
  let start ← expect (.word .Switch)
  let (init, tag) ← g.switchHeader
  if tag.any isTypeGuard then
    let body ← clauses (g.caseClause true)
    return .typeSwitch start.place (.ofOption init) (.ofOption tag) body
  else
    let body ← clauses (g.caseClause false)
    let tag ← headerExpression .switchTag tag
    return .switchStmt start.place (.ofOption init) (.ofOption tag) body

-- The communication of a select clause.
def communication (g : Grammar) : Parser Tree := do
  let start ← current
  let lhs ← g.expressionList
  match ← peek, lhs with
  | .op .Arrow, [x] => do
    discard advance
    let value ← g.expressionRule
    return .send start.place x value
  | .op .Assign, lhs | .op .Define, lhs => do
    if 2 < lhs.length then expected .twoExpressions
    let t ← advance
    let rhs ← g.expressionRule
    return .assign start.place (.tuple lhs) (.token t.kind) (.tuple [rhs])
  | _, [x] => return .exprStmt start.place x
  | _, _ => expected .oneExpression

def commClause (g : Grammar) : Parser Tree := do
  let start ← current
  let comm ←
    if ← got (.word .Case) then g.communication
    else
      discard (expect (.word .Default))
      pure .absent
  discard (expect (.op .Colon))
  let body ← g.statements
  return .commClause start.place comm (.tuple body)

def selectStatement (g : Grammar) : Parser Tree := do
  let start ← expect (.word .Select)
  let body ← clauses g.commClause
  return .selectStmt start.place body

-- The header of a loop: three parts of which any may be missing, or a range with its variables and
-- the operator after them.
inductive LoopHeader
  | parts (init cond post : Option Tree)
  | range (vars : List Tree) (op : TokenKind) (x : Tree)

-- Operators that may stand before a range.
def bindsRange (kind : TokenKind) : Bool := kind == .op .Assign || kind == .op .Define

def loopCondition (g : Grammar) : Parser (Option Tree) := do
  if (← peek) = .op .Semicolon then return none else some <$> g.simpleStatement false

def loopPost (g : Grammar) : Parser (Option Tree) := do
  if (← peek) = .op .LBrace then return none else some <$> g.simpleStatement false

-- The header after its first part.
def loopAfter (g : Grammar) (first : Option Tree) : Parser LoopHeader := do
  if ← got (.op .Semicolon) then
    let cond ← g.loopCondition
    discard (expect (.op .Semicolon))
    let post ← g.loopPost
    return .parts first cond post
  else return .parts none first none

-- The range after its variables.
def rangeAfter (g : Grammar) (vars : List Tree) (op : TokenKind) : Parser LoopHeader := do
  discard (expect (.word .Range))
  let x ← g.expressionRule
  return .range vars op x

-- A header that begins with a simple statement or with the variables of a range.
def loopFirst (g : Grammar) : Parser LoopHeader := do
  let start ← current
  let lhs ← g.expressionList
  if (← peek).isAssignment then
    let op ← advance
    if bindsRange op.kind && (← peek) == .word .Range then g.rangeAfter lhs op.kind
    else
      let first ← g.assignmentAfter start op lhs
      g.loopAfter (some first)
  else
    let first ← g.simpleAfter false start lhs
    g.loopAfter (some first)

def loopClauses (g : Grammar) : Parser LoopHeader := do
  match ← peek with
  | .op .Semicolon => g.loopAfter none
  | .word .Range => g.rangeAfter [] (.op .Assign)
  | _ => g.loopFirst

def loopHeader (g : Grammar) : Parser LoopHeader := do
  if (← peek) = .op .LBrace then return .parts none none none
  else inHeader g.loopClauses

def forStatement (g : Grammar) : Parser Tree := do
  let start ← expect (.word .For)
  let header ← g.loopHeader
  let body ← g.block
  expectEnd
  match header with
  | .parts init cond post =>
    let cond ← headerExpression .loopCondition cond
    return .forStmt start.place (.ofOption init) (.ofOption cond) (.ofOption post) body
  | .range [] _ x => return .rangeStmt start.place .absent .absent .absent x body
  | .range [key] op x => return .rangeStmt start.place key .absent (.token op) x body
  | .range [key, value] op x => return .rangeStmt start.place key value (.token op) x body
  | .range _ _ _ => refuseAt .tooManyRangeVariables start

-- Kinds that can begin a simple statement.
def beginsSimple : TokenKind → Bool
  | .ident | .literal _ => true
  | .op o =>
    o == .LParen || o == .LBrack || o == .Add || o == .Sub || o == .Mul || o == .And ||
      o == .Xor || o == .Arrow || o == .Not || o == .Tilde
  | .word k => k == .Func || k == .Struct || k == .Map || k == .Chan || k == .Interface
  | .eof => false

def isBranch (k : Keyword) : Bool :=
  k == .Break || k == .Continue || k == .Goto || k == .Fallthrough

def declarationStatement (g : Grammar) (t : Token) (keyword : Keyword) : Parser Tree := do
  let decl ← g.genDecl keyword
  return .declStmt t.place decl

-- A simple statement with its end, which a labelled statement has read already.
def endedSimple (g : Grammar) : Parser Tree := do
  let stmt ← g.simpleStatement true
  if stmt.is .LabeledStmt then return stmt
  else
    expectEnd
    return stmt

def goStatement (g : Grammar) (t : Token) : Parser Tree := do
  discard advance
  let call ← g.callStatement .go
  expectEnd
  return .goStmt t.place call

def deferStatement (g : Grammar) (t : Token) : Parser Tree := do
  discard advance
  let call ← g.callStatement .defer
  expectEnd
  return .deferStmt t.place call

def returned (g : Grammar) : Parser (List Tree) := do
  match ← peek with
  | .op .Semicolon | .op .RBrace => return []
  | _ => g.expressionList

def returnStatement (g : Grammar) (t : Token) : Parser Tree := do
  discard advance
  let results ← g.returned
  expectEnd
  return .returnStmt t.place (.tuple results)

-- A branch takes a label, except for the one into the next clause.
def branchLabel (k : Keyword) : Parser Tree := do
  if k ≠ .Fallthrough ∧ (← peek) = .ident then ident else return .absent

def branchStatement (t : Token) (k : Keyword) : Parser Tree := do
  discard advance
  let label ← branchLabel k
  expectEnd
  return .branch t.place (.token t.kind) label

def blockStatement (g : Grammar) : Parser Tree := do
  let body ← g.block
  expectEnd
  return body

-- A statement and its end, so that a list of statements is one after another.
def statementHere (g : Grammar) : Parser Tree := do
  let t ← current
  if beginsSimple t.kind then g.endedSimple
  else match t.kind with
    | .word .Const => g.declarationStatement t .Const
    | .word .Type => g.declarationStatement t .Type
    | .word .Var => g.declarationStatement t .Var
    | .word .Go => g.goStatement t
    | .word .Defer => g.deferStatement t
    | .word .Return => g.returnStatement t
    | .word .If => g.ifRule
    | .word .Switch => g.switchStatement
    | .word .Select => g.selectStatement
    | .word .For => g.forStatement
    | .word k => if isBranch k then branchStatement t k else expected .statement
    | .op .LBrace => g.blockStatement
    | .op .Semicolon => do
      discard advance
      return .emptyStmt t.place (.flag (t.text == lineEnd))
    -- A label may stand directly before the closing brace.
    | .op .RBrace => return .emptyStmt t.place (.flag true)
    | _ => expected .statement

def statementRule (g : Grammar) : Parser Tree := nested g.statementHere

end GoCompact.Grammar
