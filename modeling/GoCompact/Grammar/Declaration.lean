import GoCompact.Grammar.Expression
import GoCompact.Grammar.TypeParameter

namespace GoCompact.Grammar

open GoCompact.Parser

-- The name under which a package is imported: an identifier, a point, or none.
def importName : Parser Tree := do
  match ← peek with
  | .ident => ident
  | .op .Period => do
    let point ← advance
    return .ident point.place (.text ".")
  | _ => return .absent

def importSpec : Parser Tree := do
  let start ← current
  let name ← importName
  if (← peek) = .literal .Text then
    let path ← stringLiteral
    expectEnd
    return .importSpec start.place name path
  else expected .importPath

def initialValues (g : Grammar) : Parser (List Tree) := do
  if ← got (.op .Assign) then g.expressionList else return []

-- The type and the values of a constant, both of which may be left out.
def constantTail (g : Grammar) : Parser (Tree × List Tree) := do
  match ← peek with
  | .eof | .op .Semicolon | .op .RParen => return (.absent, [])
  | _ =>
    let typ ← g.typeRule?
    let values ← g.initialValues
    return (.ofOption typ, values)

-- The type and the values of a variable, one of which may be left out.
def variableTail (g : Grammar) : Parser (Tree × List Tree) := do
  let typ ← if (← peek) = .op .Assign then pure .absent else g.typeRule
  let values ← g.initialValues
  return (typ, values)

def valueSpec (g : Grammar) (keyword : Keyword) : Parser Tree := do
  let start ← current
  let names ← commaList ident
  let (typ, values) ← if keyword = .Const then g.constantTail else g.variableTail
  expectEnd
  return .valueSpec start.place (.tuple names) typ (.tuple values)

-- The expression after the opening bracket of a type declaration that begins with a name.
def leadingExpression (g : Grammar) : Parser Tree := do
  let name ← ident
  if (← peek) = .op .LBrack then return name
  else bracketed do
    let x ← g.primaryAfter name
    g.binaryAfter 1 x

-- The rest of the type parameters after the first name and, if it was read, its constraint.
def typeParametersAfter (g : Grammar) (place : Tree) (name : Tree) (constraint : Option Tree) :
    Parser Tree := do
  let first ← match constraint with
    | some typ => g.completed true ⟨some name, some typ⟩
    | none => g.entryAfterName true name
  let entries ← g.entriesAfter (.op .RBrack) true first
  listOf place entries

-- A type declaration after its type parameters.
def genericTail (g : Grammar) (name params : Tree) : Parser Tree := do
  discard (expect (.op .RBrack))
  let isAlias ← got (.op .Assign)
  let typ ← g.typeRule
  return .typeSpec name.placeOf name typ params (.flag isAlias)

def plainSpec (name typ : Tree) (isAlias : Bool) : Tree :=
  .typeSpec name.placeOf name typ .absent (.flag isAlias)

-- A type declaration after the opening bracket: type parameters or an array type.
def bracketedTypeSpec (g : Grammar) (place name : Tree) : Parser Tree := do
  if (← peek) = .ident then
    let x ← g.leadingExpression
    let kind ← peek
    match x.typeParameter? (kind == .op .Comma) with
    | some (parameter, constraint) =>
      if constraint.isSome || kind != .op .RBrack then
        let params ← g.typeParametersAfter place parameter constraint
        g.genericTail name params
      else
        let typ ← g.arrayElement place (some x)
        return plainSpec name typ false
    | none =>
      let typ ← g.arrayElement place (some x)
      return plainSpec name typ false
  else
    let typ ← g.arrayType place
    return plainSpec name typ false

-- A type declaration after its name.
def typeSpecAfter (g : Grammar) (name : Tree) : Parser Tree := do
  if (← peek) = .op .LBrack then
    let bracket ← advance
    g.bracketedTypeSpec bracket.place name
  else
    let isAlias ← got (.op .Assign)
    let typ ← g.typeRule
    return plainSpec name typ isAlias

def typeSpec (g : Grammar) : Parser Tree := do
  let name ← ident
  let spec ← g.typeSpecAfter name
  expectEnd
  return spec

def spec (g : Grammar) (keyword : Keyword) : Parser Tree :=
  match keyword with
  | .Import => importSpec
  | .Type => g.typeSpec
  | _ => g.valueSpec keyword

-- A declaration of a keyword: one spec, or any number of them in parentheses.
def genDecl (g : Grammar) (keyword : Keyword) : Parser Tree := do
  let start ← expect (.word keyword)
  if ← got (.op .LParen) then
    let specs ← manyWhile (fun k => k != .op .RParen && k != .eof) (g.spec keyword)
    discard (expect (.op .RParen))
    expectEnd
    return .genDecl start.place (.token (.word keyword)) (.tuple specs) (.flag true)
  else
    let spec ← g.spec keyword
    return .genDecl start.place (.token (.word keyword)) (.tuple [spec]) (.flag false)

-- What a condition lets through, or nothing.
def ifNext (kind : TokenKind) (p : Parser Tree) : Parser Tree := do
  if (← peek) = kind then p else return .absent

def funcDecl (g : Grammar) : Parser Tree := do
  let start ← expect (.word .Func)
  let recv ← ifNext (.op .LParen) g.parameters
  let name ← ident
  let typeParams ← ifNext (.op .LBrack) g.typeParameters
  let params ← g.parameters
  let results ← g.results
  let typ := Tree.funcType start.place params (.ofOption results) typeParams (.flag true)
  let body ← ifNext (.op .LBrace) (bracketed g.block)
  expectEnd
  return .funcDecl start.place recv name typ body

def declaration (g : Grammar) : Parser Tree := do
  match ← peek with
  | .word .Const => g.genDecl .Const
  | .word .Type => g.genDecl .Type
  | .word .Var => g.genDecl .Var
  | .word .Import => g.genDecl .Import
  | .word .Func => g.funcDecl
  | _ => expected .declaration

end GoCompact.Grammar
