import GoCompact.Grammar.Basic

namespace GoCompact.Grammar

open GoCompact.Parser

-- A name, or the selection of one from a package.
def qualified (name : Tree) : Parser Tree := do
  if ← got (.op .Period) then
    let sel ← ident
    return .selector name.placeOf name sel
  else return name

-- The type arguments of an instance.
def typeArguments (g : Grammar) (typ : Tree) : Parser Tree := do
  discard (expect (.op .LBrack))
  let first ← g.type
  let others ← afterCommas (some (.op .RBrack)) g.type
  discard (expect (.op .RBrack))
  return .index typ.placeOf typ (.tuple (first :: others))

-- A type, with type arguments if there are any.
def instantiated (g : Grammar) (typ : Tree) : Parser Tree := do
  if (← peek) = .op .LBrack then g.typeArguments typ else return typ

-- A type name with its type arguments.
def namedType (g : Grammar) (name : Tree) : Parser Tree := do
  g.instantiated (← qualified name)

-- Three dots that stand for a length.
def openLength : Parser Tree := do
  let dots ← advance
  return .ellipsis dots.place .absent

-- The length of an array, of which nothing may be there.
def arrayLength (g : Grammar) : Parser (Option Tree) :=
  bracketed do
    match ← peek with
    | .op .Ellipsis => some <$> openLength
    | .op .RBrack => return none
    | _ => some <$> g.expression

-- An array type after its length: the closing bracket and the element type.
def arrayElement (g : Grammar) (place : Tree) (length : Option Tree) : Parser Tree := do
  discard (expect (.op .RBrack))
  let elt ← g.type
  return .arrayType place (.ofOption length) elt

-- An array or slice type after its opening bracket.
def arrayType (g : Grammar) (place : Tree) : Parser Tree := do
  let length ← g.arrayLength
  g.arrayElement place length

def mapType (g : Grammar) : Parser Tree := do
  let start ← expect (.word .Map)
  discard (expect (.op .LBrack))
  let key ← g.type
  discard (expect (.op .RBrack))
  let value ← g.type
  return .mapType start.place key value

def chanDirection : Parser Direction := do
  if ← got (.word .Chan) then
    if ← got (.op .Arrow) then return .send else return .both
  else
    discard (expect (.op .Arrow))
    discard (expect (.word .Chan))
    return .receive

def chanType (g : Grammar) : Parser Tree := do
  let start ← current
  let direction ← chanDirection
  let value ← g.type
  return .chanType start.place (.direction direction) value

-- An arrow before a channel type makes it a channel to receive from. If the type was a channel to
-- send to, its arrow belongs to the element type instead.
def receiving : Tree → Parser Tree
  | .chanType place (.direction .send) value =>
    if value.is .ChanType then do
      let value ← receiving value
      return .chanType place (.direction .receive) value
    else expected .channelType
  | .chanType _ (.direction .receive) _ => refuse .expectedChan
  | .chanType place _ value => return .chanType place (.direction .receive) value
  | t => return t

-- A type with a tilde before it, or a type.
def constraintTerm (g : Grammar) : Parser Tree := do
  if (← peek) = .op .Tilde then
    let tilde ← advance
    let typ ← g.type
    return .unary tilde.place (.token (.op .Tilde)) typ
  else g.type

def unionStep (g : Grammar) (x : Tree) : Parser (Option Tree) := do
  if ← got (.op .Or) then
    let y ← g.constraintTerm
    return some (.binary x.placeOf x (.token (.op .Or)) y)
  else return none

-- The terms after the first one of a union.
def union (g : Grammar) (first : Tree) : Parser Tree := grow g.unionStep first

-- One entry of a parameter list as it was read: a name, a type or both.
structure Entry where
  name : Option Tree
  type : Option Tree

namespace Entry

def isComplete (e : Entry) : Bool := e.name.isSome && e.type.isSome

end Entry

-- A list without names: each entry is a type.
def unnamedFields (entries : List Entry) : List Tree :=
  entries.filterMap fun e =>
    (e.type.or e.name).map fun t => .field t.placeOf (.tuple []) t .absent

def namedField (names : List Tree) (typ : Tree) : Tree :=
  .field (names.head?.map Tree.placeOf |>.getD .unknownPlace) (.tuple names) typ .absent

-- A list with names: a name without a type takes the type of the next entry that has one.
def namedFields : List Tree → List Entry → Except Cause (List Tree)
  | [], [] => .ok []
  | _ :: _, [] => .error .missingParameterType
  | _, ⟨none, _⟩ :: _ => .error .mixedParameters
  | names, ⟨some name, none⟩ :: rest => namedFields (names ++ [name]) rest
  | names, ⟨some name, some typ⟩ :: rest => do
    let fields ← namedFields [] rest
    return namedField (names ++ [name]) typ :: fields

-- The fields of a list, which has names if one of its entries has a name and a type.
def fieldsOf (entries : List Entry) : Except Cause (List Tree) :=
  if entries.any Entry.isComplete then namedFields [] entries else .ok (unnamedFields entries)

-- The type of the last parameter of a variadic function.
def variadicType (g : Grammar) : Parser Tree := do
  let dots ← expect (.op .Ellipsis)
  let elt ← g.type
  return .ellipsis dots.place elt

-- The bracketed list after a name: nothing, a length or type arguments.
def bracketItems (g : Grammar) : Parser (List Tree) := do
  if (← peek) = .op .RBrack then return []
  else bracketed do
    let first ← if (← peek) = .op .Ellipsis then openLength else g.expression
    let others ← afterCommas (some (.op .RBrack)) g.type
    return first :: others

-- After a name a bracket begins an array type, or the arguments of a generic type of that name.
def arrayOrInstance (g : Grammar) (name : Tree) : Parser (Option Tree × Tree) := do
  let bracket ← expect (.op .LBrack)
  let items ← g.bracketItems
  discard (expect (.op .RBrack))
  match items with
  | [] => do
    let elt ← g.type
    return (some name, .arrayType bracket.place .absent elt)
  | [length] => do
    match ← g.type? with
    | some elt => return (some name, .arrayType bracket.place length elt)
    | none => return (none, .index name.placeOf name (.tuple [length]))
  | _ => return (none, .index name.placeOf name (.tuple items))

-- Kinds that begin the type of a parameter after its name.
def beginsParameterType : TokenKind → Bool
  | .ident => true
  | .op o => o == .Mul || o == .Arrow || o == .LParen
  | .word k => k == .Func || k == .Chan || k == .Map || k == .Struct || k == .Interface
  | _ => false

-- The rest of a constraint after its first term.
def completed (g : Grammar) (constraints : Bool) (e : Entry) : Parser Entry := do
  match e.type with
  | some typ =>
    if constraints && (← peek) == .op .Or then return { e with type := some (← g.union typ) }
    else return e
  | none => return e

-- An entry after its name.
def entryAfterName (g : Grammar) (constraints : Bool) (name : Tree) : Parser Entry := do
  let kind ← peek
  if beginsParameterType kind then
    let typ ← g.type
    g.completed constraints ⟨some name, some typ⟩
  else match kind with
    | .op .LBrack => do
      let (name, typ) ← g.arrayOrInstance name
      g.completed constraints ⟨name, some typ⟩
    | .op .Ellipsis => do
      let typ ← g.variadicType
      return ⟨some name, some typ⟩
    | .op .Period => do
      let typ ← g.namedType name
      g.completed constraints ⟨none, some typ⟩
    | .op .Tilde => do
      if constraints then
        let typ ← g.constraintTerm
        g.completed constraints ⟨some name, some typ⟩
      else return ⟨some name, none⟩
    | .op .Or => do
      if constraints then g.completed constraints ⟨none, some name⟩
      else return ⟨some name, none⟩
    | _ => return ⟨some name, none⟩

-- One entry of a parameter list. Among type parameters the types are constraints.
def entry (g : Grammar) (constraints : Bool) : Parser Entry := do
  match ← peek with
  | .ident => do
    let name ← ident
    g.entryAfterName constraints name
  | .op .Ellipsis => do
    let typ ← g.variadicType
    return ⟨none, some typ⟩
  | .op .Tilde => do
    let typ ← if constraints then g.constraintTerm else g.type
    g.completed constraints ⟨none, some typ⟩
  | _ => do
    let typ ← g.type
    g.completed constraints ⟨none, some typ⟩

-- The entries after the first one, which was read already.
def entriesAfter (g : Grammar) (closing : TokenKind) (constraints : Bool) (first : Entry) :
    Parser (List Entry) := do
  if ← got (.op .Comma) then
    let others ← itemsUntil closing (g.entry constraints)
    return first :: others
  else return [first]

def listOf (place : Tree) (entries : List Entry) : Parser Tree := do
  match fieldsOf entries with
  | .ok fields => return .fieldList place (.tuple fields)
  | .error cause => refuse cause

def parameters (g : Grammar) : Parser Tree := do
  let paren ← expect (.op .LParen)
  let entries ← itemsUntil (.op .RParen) (g.entry false)
  let list ← listOf paren.place entries
  discard (expect (.op .RParen))
  return list

-- The type parameters of a function, of which there has to be one.
def typeParameters (g : Grammar) : Parser Tree := do
  let bracket ← expect (.op .LBrack)
  let entries ← itemsUntil (.op .RBrack) (g.entry true)
  let list ← listOf bracket.place entries
  if entries.isEmpty then refuse .emptyTypeParameters
  discard (expect (.op .RBrack))
  return list

-- The results of a function: a list in parentheses, one type, or nothing.
def results (g : Grammar) : Parser (Option Tree) := do
  if (← peek) = .op .LParen then some <$> g.parameters
  else match ← g.type? with
    | some typ =>
      return some (.fieldList typ.placeOf
        (.tuple [.field typ.placeOf (.tuple []) typ .absent]))
    | none => return none

def signature (g : Grammar) (place : Tree) (funcKeyword : Bool) : Parser Tree := do
  let params ← g.parameters
  let results ← g.results
  return .funcType place params (.ofOption results) .absent (.flag funcKeyword)

-- What stands directly after the name of an embedded type.
def followsEmbedded : TokenKind → Bool
  | .op o => o == .Period || o == .Semicolon || o == .RBrace
  | .literal l => l == .Text
  | _ => false

-- The names and the type of a field that begins with a name.
def namesAndType (g : Grammar) : Parser (List Tree × Tree) := do
  let name ← ident
  if followsEmbedded (← peek) then
    let typ ← g.namedType name
    return ([], typ)
  else
    let others ← afterCommas none ident
    if others.isEmpty && (← peek) == .op .LBrack then
      let (name, typ) ← g.arrayOrInstance name
      return (name.toList, typ)
    else
      let typ ← g.type
      return (name :: others, typ)

-- The type of a field without a name that is a pointer.
def embeddedPointer (g : Grammar) : Parser (List Tree × Tree) := do
  let star ← advance
  let typ ← g.namedType (← ident)
  return ([], .star star.place typ)

def tag : Parser Tree := do
  if (← peek) = .literal .Text then stringLiteral else return .absent

def structField (g : Grammar) : Parser Tree := do
  let start ← current
  let (names, typ) ← match start.kind with
    | .ident => g.namesAndType
    | .op .Mul => g.embeddedPointer
    | _ => refuse .parenthesizedEmbeddedType
  let tag ← tag
  expectEnd
  return .field start.place (.tuple names) typ tag

def beginsStructField : TokenKind → Bool
  | .ident => true
  | .op o => o == .Mul || o == .LParen
  | _ => false

def structType (g : Grammar) : Parser Tree := do
  let start ← expect (.word .Struct)
  let brace ← expect (.op .LBrace)
  let fields ← manyWhile beginsStructField g.structField
  discard (expect (.op .RBrace))
  return .structType start.place (.fieldList brace.place (.tuple fields))

-- The field of an interface element that is a type or a union.
def interfaceUnion (g : Grammar) (first : Tree) : Parser Tree := do
  let typ ← g.union first
  return .field typ.placeOf (.tuple []) typ .absent

-- A method, or an element that is a type or a union.
def interfaceElement (g : Grammar) : Parser Tree := do
  if (← peek) = .ident then
    let name ← ident
    if (← peek) = .op .LParen then
      let method ← g.signature name.placeOf false
      return .field name.placeOf (.tuple [name]) method .absent
    else
      let typ ← g.namedType name
      g.interfaceUnion typ
  else
    let typ ← g.constraintTerm
    g.interfaceUnion typ

def interfaceType (g : Grammar) : Parser Tree := do
  let start ← expect (.word .Interface)
  let brace ← expect (.op .LBrace)
  let methods ← manyWhile (fun k => k != .op .RBrace && k != .eof) do
    let element ← g.interfaceElement
    expectEnd
    return element
  discard (expect (.op .RBrace))
  return .interfaceType start.place (.fieldList brace.place (.tuple methods))

-- The type that begins with the current token, if one does.
def typeHere (g : Grammar) : Parser (Option Tree) := do
  match ← peek with
  | .ident => some <$> do
    let name ← ident
    g.namedType name
  | .op .LBrack => some <$> do
    let bracket ← advance
    g.arrayType bracket.place
  | .word .Struct => some <$> g.structType
  | .op .Mul => some <$> do
    let star ← advance
    let typ ← g.type
    return .star star.place typ
  | .word .Func => some <$> do
    let func ← advance
    g.signature func.place true
  | .word .Interface => some <$> g.interfaceType
  | .word .Map => some <$> g.mapType
  | .word .Chan | .op .Arrow => some <$> g.chanType
  | .op .LParen => some <$> do
    let paren ← advance
    let typ ← g.type
    discard (expect (.op .RParen))
    return .paren paren.place typ
  | _ => return none

def typeRule? (g : Grammar) : Parser (Option Tree) := nested g.typeHere

def typeRule (g : Grammar) : Parser Tree := required g.typeRule?

end GoCompact.Grammar
