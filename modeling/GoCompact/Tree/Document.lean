import GoCompact.Json.Printer
import GoCompact.Json.Reader
import GoCompact.Tree.Schema

namespace GoCompact

-- Why a document is no tree.
inductive DocumentFault
  | notAnObject
  | missingKind
  | unknownKind (given : Json)
  | unusableKind
  | missingField (kind : NodeKind) (field : Text)
  | missingMember (name : Text)
  | unknownToken
  | badDirection
deriving Inhabited

namespace DocumentFault

-- The message of the faults that have one.
def message? : DocumentFault → Option Text
  | .missingKind => some "Missing '_type' field in serialized node"
  | .unknownKind given => some ("Unknown node type: " ++ given.shown)
  | _ => none

end DocumentFault

namespace Location

def toJson (l : Location) : Json :=
  .obj [("_type", .str "SourceLocation"), ("lineno", l.line), ("col_offset", l.column),
    ("offset", l.offset), ("end_offset", l.endOffset), ("source_file", l.file)]

def ofMembers (members : List (Text × Json)) : Except DocumentFault Location := do
  let some line := members.lookup ("lineno" : Text) | throw (.missingMember "lineno")
  let some column := members.lookup ("col_offset" : Text) | throw (.missingMember "col_offset")
  return {
    line := line
    column := column
    offset := (members.lookup ("offset" : Text)).getD (.int 0)
    endOffset := (members.lookup ("end_offset" : Text)).getD (.int 0)
    file := (members.lookup ("source_file" : Text)).getD .null }

end Location

namespace Tree

mutual

def toJson (locations : Bool) : Tree → Json
  | .datum v => v
  | .tuple items => .arr (toJsonAll locations items)
  | .token k => .obj [("_type", .str "TokenType"), ("name", .str k.name)]
  | .direction d => .obj [("_type", .str "ChanDir"), ("value", .int d.value)]
  | .location l => l.toJson
  | .node k place fields =>
    .obj ((Text.ofString "_type", .str k.name) ::
      (if locations then [(Text.ofString "location", toJson locations place)] else []) ++
      k.fieldNames.zip (toJsonAll locations fields))

def toJsonAll (locations : Bool) : List Tree → List Json
  | [] => []
  | t :: ts => toJson locations t :: toJsonAll locations ts

end

def tokenOfMembers (members : List (Text × Json)) : Except DocumentFault Tree :=
  match members.lookup ("name" : Text) with
  | none => throw (.missingMember "name")
  | some (.str name) =>
    match TokenKind.ofName? name with
    | some k => return .token k
    | none => throw .unknownToken
  | some (.arr _) => throw .unusableKind
  | some (.obj _) => throw .unusableKind
  | some _ => throw .unknownToken

-- A direction is a whole number, of which the bits that stand for no direction are dropped, or a number or
-- truth value equal to one of the four directions.
def directionOfMembers (members : List (Text × Json)) : Except DocumentFault Tree :=
  match members.lookup ("value" : Text) with
  | none => throw (.missingMember "value")
  | some (.int n) => return .direction (.ofInt n)
  | some v =>
    match v.toInt? with
    | some n => if 0 ≤ n ∧ n ≤ 3 then return .direction (.ofInt n) else throw .badDirection
    | none => throw .badDirection

-- The kind that an object names.
def kindNamed (given : Json) : Except DocumentFault NodeKind :=
  match given with
  | .str name =>
    match NodeKind.ofName? name with
    | some k => return k
    | none => throw (.unknownKind given)
  | .arr _ => throw .unusableKind
  | .obj _ => throw .unusableKind
  | _ => throw (.unknownKind given)

-- Members of an object, each with what it was read as.
abbrev ReadMembers := List (Text × Except DocumentFault Tree)

-- The given fields of a kind in their order, up to the first fault.
def givenFields (members : ReadMembers) : List FieldRule → Except DocumentFault (List (Option Tree))
  | [] => return []
  | field :: rest =>
    match members.lookup field.name with
    | some read => do
      let t ← read
      let ts ← givenFields members rest
      return some t :: ts
    | none => do
      let ts ← givenFields members rest
      return none :: ts

-- The fields with the defaults of those that were not given.
def completedFields (kind : NodeKind) :
    List FieldRule → List (Option Tree) → Except DocumentFault (List Tree)
  | field :: rest, given :: others =>
    match given.or field.default with
    | some t => do
      let ts ← completedFields kind rest others
      return t :: ts
    | none => throw (.missingField kind field.name)
  | _, _ => return []

-- The node of a kind with the given members.
def nodeOfMembers (kind : NodeKind) (members : ReadMembers) : Except DocumentFault Tree := do
  let place ← (members.lookup ("location" : Text)).getD (return .unknownPlace)
  let given ← givenFields members kind.fields
  let fields ← completedFields kind kind.fields given
  return .node kind place fields

-- The node that an object stands for.
def nodeOfObject (members : List (Text × Json)) (read : ReadMembers) :
    Except DocumentFault Tree := do
  match members.lookup ("_type" : Text) with
  | none | some .null => throw .missingKind
  | some given =>
    let kind ← kindNamed given
    nodeOfMembers kind read

-- What an object inside a node stands for.
def valueOfObject (members : List (Text × Json)) (read : ReadMembers) :
    Except DocumentFault Tree :=
  match members.lookup ("_type" : Text) with
  | none | some .null => return .datum (.obj members)
  | some (.str name) =>
    if name = "SourceLocation" then .location <$> Location.ofMembers members
    else if name = "TokenType" then tokenOfMembers members
    else if name = "ChanDir" then directionOfMembers members
    else nodeOfObject members read
  | some _ => nodeOfObject members read

mutual

-- Reads the value of a field. An object that names no kind stays as it is.
def ofValue : Json → Except DocumentFault Tree
  | .arr items => do
    let ts ← ofValues items
    return .tuple ts
  | .obj members => valueOfObject members (ofMembers members)
  | v => return .datum v

def ofValues : List Json → Except DocumentFault (List Tree)
  | [] => return []
  | v :: vs => do
    let t ← ofValue v
    let ts ← ofValues vs
    return t :: ts

def ofMembers : List (Text × Json) → ReadMembers
  | [] => []
  | (name, v) :: rest => (name, ofValue v) :: ofMembers rest

end

-- Reads a whole document, which has to be a node.
def ofJson : Json → Except DocumentFault Tree
  | .obj members => nodeOfObject members (ofMembers members)
  | _ => throw .notAnObject

-- The document of a tree as text. There is none if a number of a location is too long.
def documentIn? (style : Json.Style) (locations : Bool) (t : Tree) : Option Text :=
  (t.toJson locations).textIn? style

-- The text on one line.
def document? (locations : Bool) (t : Tree) : Option Text := t.documentIn? .compact locations

end Tree

end GoCompact
