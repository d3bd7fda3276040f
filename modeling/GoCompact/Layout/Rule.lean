import GoCompact.Grammar.TypeParameter
import GoCompact.Layout.Adjacency
import GoCompact.Layout.Emission
import GoCompact.Tree.Schema

namespace GoCompact

-- What the members of a list are written as.
inductive Item
  | expression
  | statement
  | declaration
  | spec
  | field (separator : Text)
  | fieldType
  | interfaceElement
deriving DecidableEq, Repr

-- What the text around a node expects it to be.
inductive Role
  | unit
  | declaration
  | spec
  | statement
  | block
  | expression
  -- An operand on the left of operators, and the emission of what follows it.
  | operand (rest : Emission)
  | signature
  | results
  | fieldList (separator : Text)
  | field
  | fieldType
  | methods
  | interfaceElement
  | each (item : Item)

namespace Item

def role : Item → Role
  | .expression => .expression
  | .statement => .statement
  | .declaration => .declaration
  | .spec => .spec
  | .field _ => .field
  | .fieldType => .fieldType
  | .interfaceElement => .interfaceElement

def separator : Item → Text
  | .expression => ","
  | .field separator => separator
  | _ => ";"

end Item

namespace Rule

-- What a tree holds under a name, which has to be a text.
def fieldText (name : Text) (t : Tree) : Emission :=
  match t.field? name with
  | some t => .writeText t
  | none => .stop .noSuchPart

def nameOf (t : Tree) : Emission := fieldText "name" t

end Rule

-- A part of a node with its emission in every role.
structure Part where
  tree : Tree
  emitted : Role → Emission

namespace Part

def isPresent (p : Part) : Bool := p.tree.isPresent

def isAbsent (p : Part) : Bool := p.tree.isAbsent

def expression (p : Part) : Emission := p.emitted .expression

def statement (p : Part) : Emission := p.emitted .statement

def block (p : Part) : Emission := p.emitted .block

-- The name of an identifier.
def name (p : Part) : Emission := Rule.nameOf p.tree

-- The text of a literal.
def literal (p : Part) : Emission := Rule.fieldText "value" p.tree

-- An emission that begins with the spelling of a token.
def spelled (p : Part) (f : Text → Emission) : Emission :=
  match p.tree with
  | .token kind => f kind.spelling
  | _ => .stop .noSuchPart

def spelling (p : Part) : Emission := p.spelled .write

end Part

namespace Tree

-- Whether the statement after this one needs no semicolon before it: a clause without statements
-- is followed by the next one, and an explicit empty statement is a semicolon itself.
def isSelfTerminated : Tree → Bool
  | .caseClause _ _ (.tuple []) => true
  | .commClause _ _ (.tuple []) => true
  | .emptyStmt _ (.flag false) => true
  | .labeled _ _ stmt => isSelfTerminated stmt
  | _ => false

-- Whether a constraint directly after the name of a type parameter would be read together with it,
-- as a product or as a call.
def combinesWithName : Tree → Bool
  | .star _ x => !x.isTypeElement
  | .paren _ x => !x.isTypeElement
  | .binary _ x _ y => combinesWithName x && !y.isTypeElement
  | _ => false

-- Whether a list of type parameters would be read as the length of an array.
def readsAsLength (t : Tree) : Bool :=
  match t.field? "fields" with
  | some (.tuple [.field _ (.tuple [_]) constraint _]) => constraint.combinesWithName
  | _ => false

-- What stands first in a list. Objects and directions have members but no order of them.
def first : Tree → Except RenderFault Tree
  | .tuple (t :: _) => .ok t
  | .datum (.obj _) => .error .noSuchEntry
  | .datum v =>
    match v.elements? with
    | some (d :: _) => .ok (.datum d)
    | _ => .error .wrongSort
  | _ => .error .wrongSort

mutual

-- Whether a tree can be looked up in a table. It cannot if it holds a plain object or list; where
-- its nodes stand does not matter.
def isKey : Tree → Bool
  | .datum v => v.isKey
  | .tuple items => areKeys items
  | .token _ => true
  | .direction _ => true
  | .location l => l.line.isKey && l.column.isKey && l.offset.isKey && l.endOffset.isKey && l.file.isKey
  | .node _ _ fields => areKeys fields

def areKeys : List Tree → Bool
  | [] => true
  | t :: ts => isKey t && areKeys ts

end

end Tree

namespace Rule

open Emission

-- An operator before an operand, with a blank between them where one is needed.
def operatorBefore (op : Text) (operand : Part) : Emission :=
  write op ++ when (operand.tree.needsBlank op) (write " ") ++ operand.expression

-- The blank between an operator and a list, if the first member needs one.
def blankBefore (op : Text) (list : Tree) : Emission :=
  match list.first with
  | .ok t => when (t.needsBlank op) (write " ")
  | .error fault => stop fault

-- An operator before a list.
def operatorBeforeList (op : Text) (list : Part) : Emission :=
  write op ++ when list.isPresent (blankBefore op list.tree) ++ list.emitted (.each .expression)

def expressions (p : Part) : Emission := p.emitted (.each .expression)

def optional (p : Part) (e : Emission) : Emission := when (!p.isAbsent) e

def names (p : Part) : Emission :=
  match p.tree.elements? with
  | some ts => separated "," (ts.map nameOf)
  | none => stop .wrongSort

def channelMark (p : Part) : Emission :=
  match p.tree with
  | .direction .both => write "chan "
  | .direction .send => write "chan<- "
  | .direction .receive => write "<-chan "
  | t => stop (if t.isKey then .noSuchEntry else .wrongSort)

-- The type parameters before the parameters, if there are any.
def signatureStart (typeParams : Part) : Emission :=
  optional typeParams (write "[" ++ typeParams.emitted (.fieldList ",") ++ write "]") ++ write "("

-- Parameters and results, with the type parameters before them.
def signature (params results typeParams : Part) : Emission :=
  signatureStart typeParams ++ params.emitted (.fieldList ",") ++ write ")" ++
    optional results (results.emitted .results)

def expression (t : Tree) (kind : NodeKind) (parts : List Part) : Emission :=
  match kind, parts with
  | .Ident, [name] => writeText name.tree
  | .BasicLit, [_, value] => writeText value.tree
  | .UnaryExpr, [op, x] => op.spelled fun s => operatorBefore s x
  | .BinaryExpr, [x, op, y] => x.emitted (.operand (op.spelled fun s => operatorBefore s y))
  | .StarExpr, [x] => operatorBefore "*" x
  | .ParenExpr, [x] => write "(" ++ x.expression ++ write ")"
  | .SelectorExpr, [x, sel] => x.expression ++ write "." ++ sel.name
  | .IndexExpr, [x, indices] => x.expression ++ write "[" ++ expressions indices ++ write "]"
  | .SliceExpr, [x, low, high, max] =>
    x.expression ++ write "[" ++ optional low low.expression ++ write ":" ++
      optional high high.expression ++ optional max (write ":" ++ max.expression) ++ write "]"
  | .TypeAssertExpr, [x, typ] =>
    x.expression ++ write ".(" ++ (if typ.isAbsent then write "type" else typ.expression) ++
      write ")"
  | .CallExpr, [callee, args, ellipsis] =>
    callee.expression ++ write "(" ++ expressions args ++ when ellipsis.isPresent (write "...") ++
      write ")"
  | .CompositeLit, [typ, elts] =>
    optional typ typ.expression ++ write "\x7b" ++ expressions elts ++ write "\x7d"
  | .KeyValueExpr, [key, value] => key.expression ++ write ":" ++ value.expression
  | .FuncLit, [typ, body] => write "func" ++ typ.emitted .signature ++ body.block
  | .Ellipsis, [elt] => write "..." ++ optional elt elt.expression
  | .ArrayType, [len, elt] =>
    write "[" ++ optional len len.expression ++ write "]" ++ elt.expression
  | .MapType, [key, value] => write "map[" ++ key.expression ++ write "]" ++ value.expression
  | .ChanType, [dir, value] => channelMark dir ++ value.expression
  | .FuncType, [params, results, typeParams, funcKeyword] =>
    when funcKeyword.isPresent (write "func") ++ signature params results typeParams
  | .StructType, [fields] => write "struct\x7b" ++ fields.emitted (.fieldList ";") ++ write "\x7d"
  | .InterfaceType, [methods] => write "interface\x7b" ++ methods.emitted .methods ++ write "\x7d"
  | _, _ => unsupported .expression t

-- An operand on the left of operators. A chain of them is followed down its left sides, and what
-- comes after each is put before what came after the ones around it.
def operand (t : Tree) (kind : NodeKind) (parts : List Part) (rest : Emission) : Emission :=
  match kind, parts with
  | .BinaryExpr, [x, op, y] => x.emitted (.operand (op.spelled (fun s => operatorBefore s y) ++ rest))
  | _, _ => expression t kind parts ++ rest

-- The other branch of an `if`.
def otherwise (p : Part) : Emission :=
  match p.tree with
  | .absent => nothing
  | .node .IfStmt _ _ => write "else " ++ p.statement
  | .node .BlockStmt _ _ => write "else" ++ p.block
  | t => unsupported .elseBranch t

def loopHeader (init cond post : Part) : Emission :=
  if init.isAbsent && post.isAbsent then
    if cond.isAbsent then write "for" else write "for " ++ cond.expression
  else
    write "for " ++ optional init init.statement ++ write ";" ++ optional cond cond.expression ++
      write ";" ++ optional post post.statement

def rangeHeader (key value tok : Part) : Emission :=
  if key.isAbsent then write "for range "
  else
    write "for " ++ key.expression ++ optional value (write "," ++ value.expression) ++
      (if tok.isPresent then tok.spelling else write ":=") ++ write "range "

def switchHeader (init tag : Part) : Emission :=
  if init.isAbsent && tag.isAbsent then write "switch"
  else
    write "switch " ++ optional init (init.statement ++ write ";") ++ optional tag tag.expression

def statement (t : Tree) (kind : NodeKind) (parts : List Part) : Emission :=
  match kind, parts with
  | .ExprStmt, [x] => x.expression
  | .AssignStmt, [lhs, tok, rhs] =>
    expressions lhs ++ tok.spelled fun op => operatorBeforeList op rhs
  | .IncDecStmt, [x, tok] => x.expression ++ tok.spelling
  | .SendStmt, [chan, value] => chan.expression ++ operatorBefore "<-" value
  | .BlockStmt, [stmts] => write "\x7b" ++ stmts.emitted (.each .statement) ++ write "\x7d"
  | .IfStmt, [init, cond, body, elsePart] =>
    write "if " ++ optional init (init.statement ++ write ";") ++ cond.expression ++ body.block ++
      otherwise elsePart
  | .ForStmt, [init, cond, post, body] => loopHeader init cond post ++ body.block
  | .RangeStmt, [key, value, tok, x, body] =>
    rangeHeader key value tok ++ x.expression ++ body.block
  | .SwitchStmt, [init, tag, body] => switchHeader init tag ++ body.block
  | .TypeSwitchStmt, [init, assign, body] =>
    write "switch " ++ optional init (init.statement ++ write ";") ++ assign.statement ++ body.block
  | .SelectStmt, [body] => write "select" ++ body.block
  | .CaseClause, [values, body] =>
    (if values.isPresent then write "case " ++ expressions values ++ write ":"
     else write "default:") ++ body.emitted (.each .statement)
  | .CommClause, [comm, body] =>
    (if comm.isAbsent then write "default:" else write "case " ++ comm.statement ++ write ":") ++
      body.emitted (.each .statement)
  | .ReturnStmt, [results] =>
    write "return" ++ when results.isPresent (write " " ++ expressions results)
  | .BranchStmt, [tok, label] => tok.spelling ++ optional label (write " " ++ label.name)
  | .GoStmt, [call] => write "go " ++ call.expression
  | .DeferStmt, [call] => write "defer " ++ call.expression
  | .LabeledStmt, [label, stmt] => label.name ++ write ":" ++ stmt.statement
  | .DeclStmt, [decl] => decl.emitted .declaration
  | .EmptyStmt, [implicit] => when (!implicit.isPresent) (write ";")
  | _, _ => unsupported .statement t

-- Braces around statements.
def block (kind : NodeKind) (parts : List Part) : Emission :=
  write "\x7b" ++
    (match kind, parts with
     | .BlockStmt, [stmts] => stmts.emitted (.each .statement)
     | _, _ => stop .noSuchPart) ++
    write "\x7d"

-- Whether a list has just one member.
def isSingle (list : Part) : Except RenderFault Bool :=
  match list.tree.size? with
  | some n => .ok (n == 1)
  | none => .error .wrongSort

-- The member of a list that has just one.
def single (item : Item) (list : Part) : Emission :=
  match list.tree.first with
  | .ok _ => list.emitted (.each item)
  | .error fault => stop fault

-- A single spec stands without parentheses, unless it was grouped.
def isUngrouped (specs grouped : Part) : Except RenderFault Bool :=
  if grouped.isPresent then .ok false else isSingle specs

def genDecl (tok specs grouped : Part) : Emission :=
  tok.spelling ++
    (match isUngrouped specs grouped with
     | .ok true => write " " ++ single .spec specs
     | .ok false => write "(" ++ specs.emitted (.each .spec) ++ write ")"
     | .error fault => stop fault)

def funcDecl (recv name typ body : Part) : Emission :=
  (if recv.isAbsent then write "func "
   else write "func(" ++ recv.emitted (.fieldList ",") ++ write ")") ++
    name.name ++ typ.emitted .signature ++ optional body body.block

def declaration (t : Tree) (kind : NodeKind) (parts : List Part) : Emission :=
  match kind, parts with
  | .FuncDecl, [recv, name, typ, body] => funcDecl recv name typ body
  | .GenDecl, [tok, specs, grouped] => genDecl tok specs grouped
  | _, _ => unsupported .declaration t

-- Type parameters in brackets. A comma keeps a lone one from being read as a length.
def typeParameters (params : Part) : Emission :=
  write "[" ++ params.emitted (.fieldList ",") ++ when params.tree.readsAsLength (write ",") ++
    write "]"

def spec (t : Tree) (kind : NodeKind) (parts : List Part) : Emission :=
  match kind, parts with
  | .ImportSpec, [name, path] => optional name name.name ++ path.literal
  | .ValueSpec, [idents, typ, values] =>
    names idents ++ optional typ (write " " ++ typ.expression) ++
      when values.isPresent (operatorBeforeList "=" values)
  | .TypeSpec, [name, typ, typeParams, assign] =>
    name.name ++ optional typeParams (typeParameters typeParams) ++
      (if assign.isPresent then write "=" else when typeParams.isAbsent (write " ")) ++
      typ.expression
  | _, _ => unsupported .spec t

def unit (t : Tree) (kind : NodeKind) (parts : List Part) : Emission :=
  match kind, parts with
  | .File, [package, decls] =>
    write "package " ++ package.name ++ write ";" ++ decls.emitted (.each .declaration)
  | _, _ => unsupported .emit t

-- The fields of a list, or of anything else that has fields.
def inFieldList (kind : NodeKind) (parts : List Part) (f : Part → Emission) : Emission :=
  match kind, parts with
  | .FieldList, [fields] => f fields
  | .StructType, [fields] => f fields
  | _, _ => stop .noSuchPart

-- Whether a list has just one member, and that one no name.
def isLoneType (list : Part) : Except RenderFault Bool := do
  if ← isSingle list then
    match (← list.tree.first).field? "names" with
    | some names => return !names.isPresent
    | none => throw .noSuchPart
  else return false

-- A single result without a name stands without parentheses.
def results (fields : Part) : Emission :=
  match isLoneType fields with
  | .ok true => fields.emitted (.each .fieldType)
  | .ok false => write "(" ++ fields.emitted (.each (.field ",")) ++ write ")"
  | .error fault => stop fault

-- The names and the type of a field.
def fieldStart (idents typ : Part) : Emission :=
  when idents.isPresent (names idents ++ write " ") ++ typ.expression

-- A field. What declares values begins like one, and has no place for a tag.
def field (kind : NodeKind) (parts : List Part) : Emission :=
  match kind, parts with
  | .Field, [idents, typ, tag] =>
    fieldStart idents typ ++ optional tag tag.literal
  | .ValueSpec, [idents, typ, _] => fieldStart idents typ ++ stop .noSuchPart
  | _, _ => stop .noSuchPart

def fieldType (kind : NodeKind) (parts : List Part) : Emission :=
  match kind, parts with
  | .Field, [_, typ, _] => typ.expression
  | .ValueSpec, [_, typ, _] => typ.expression
  | _, _ => stop .noSuchPart

-- A method, whose signature follows its name, or an element without a name.
def interfaceElement (t : Tree) (kind : NodeKind) (parts : List Part) : Emission :=
  match kind, parts with
  | .Field, [idents, typ, _] =>
    match idents.tree with
    | .tuple [_] =>
      if typ.tree.is .FuncType then names idents ++ typ.emitted .signature
      else unsupported .interface t
    | .tuple [] => typ.expression
    | _ => unsupported .interface t
  | _, _ => unsupported .interface t

-- A node in a role.
def node (t : Tree) (kind : NodeKind) (parts : List Part) : Role → Emission
  | .unit => unit t kind parts
  | .declaration => declaration t kind parts
  | .spec => spec t kind parts
  | .statement => statement t kind parts
  | .block => block kind parts
  | .expression => expression t kind parts
  | .operand rest => operand t kind parts rest
  | .signature =>
    match kind, parts with
    | .FuncType, [params, results, typeParams, _] => signature params results typeParams
    | .TypeSpec, [_, _, typeParams, _] => signatureStart typeParams ++ stop .noSuchPart
    | _, _ => stop .noSuchPart
  | .results => inFieldList kind parts results
  | .fieldList separator => inFieldList kind parts fun p => p.emitted (.each (.field separator))
  | .field => field kind parts
  | .fieldType => fieldType kind parts
  | .methods => inFieldList kind parts fun p => p.emitted (.each .interfaceElement)
  | .interfaceElement => interfaceElement t kind parts
  | .each _ => stop .wrongSort

-- Anything but a node, where a node is meant.
def other (t : Tree) : Role → Emission
  | .unit => unsupported .emit t
  | .declaration => unsupported .declaration t
  | .spec => unsupported .spec t
  | .statement => unsupported .statement t
  | .block => write "\x7b" ++ stop .noSuchPart
  | .expression => unsupported .expression t
  | .operand rest => unsupported .expression t ++ rest
  | .interfaceElement => unsupported .interface t
  | .each _ => stop .wrongSort
  | _ => stop .noSuchPart

-- Statements with semicolons between them, where they are needed.
def statements : List Part → Emission
  | [] => nothing
  | [s] => s.statement
  | s :: rest => s.statement ++ (when (!s.tree.isSelfTerminated) (write ";") ++ statements rest)

def sequence (item : Item) (parts : List Part) : Emission :=
  match item with
  | .statement => statements parts
  | _ => separated item.separator (parts.map fun p => p.emitted item.role)

def tuple (t : Tree) (parts : List Part) : Role → Emission
  | .each item => sequence item parts
  | role => other t role

-- Anything but a node or a list.
def plain (t : Tree) : Role → Emission
  | .each item =>
    match t.elements? with
    | some ts => sequence item (ts.map fun t => ⟨t, other t⟩)
    | none => stop .wrongSort
  | role => other t role

end Rule

end GoCompact
