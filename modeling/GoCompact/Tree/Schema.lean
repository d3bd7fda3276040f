import GoCompact.Tree.Basic

namespace GoCompact

-- The nodes that a field is meant for.
inductive NodeClass
  | only (kind : NodeKind)
  | expression
  | statement
  | declaration
  | spec
deriving DecidableEq, Repr

namespace NodeClass

def holds : NodeClass → NodeKind → Bool
  | .only kind, k => k == kind
  | .expression, k => k.isExpression
  | .statement, k => k.family == .statement
  | .declaration, k => k.family == .declaration
  | .spec, k => k.family == .spec

end NodeClass

-- What a field is meant to hold.
inductive Slot
  | text
  | flag
  | token
  | optionalToken
  | direction
  | one (of : NodeClass)
  | optional (of : NodeClass)
  | many (of : NodeClass)
deriving DecidableEq, Repr

structure FieldRule where
  name : Text
  slot : Slot
  -- None for a field that must be given.
  default : Option Tree

namespace FieldRule

def text (name : Text) : FieldRule := ⟨name, .text, none⟩

def token (name : Text) : FieldRule := ⟨name, .token, none⟩

-- A flag with its default.
def flag (name : Text) (value : Bool) : FieldRule := ⟨name, .flag, some (.flag value)⟩

def one (name : Text) (of : NodeClass) : FieldRule := ⟨name, .one of, none⟩

-- A field that may hold nothing, and must still be given.
def given (name : Text) (of : NodeClass) : FieldRule := ⟨name, .optional of, none⟩

-- A field that may be left out.
def optional (name : Text) (of : NodeClass) : FieldRule := ⟨name, .optional of, some .absent⟩

def many (name : Text) (of : NodeClass) : FieldRule := ⟨name, .many of, none⟩

-- A list that may be left out.
def anyNumber (name : Text) (of : NodeClass) : FieldRule := ⟨name, .many of, some (.tuple [])⟩

end FieldRule

namespace NodeKind

-- The fields in their order, the location apart.
def fields : NodeKind → List FieldRule
  | .File => [.one "package" (.only .Ident), .anyNumber "decls" .declaration]
  | .FuncDecl =>
    [.given "recv" (.only .FieldList), .one "name" (.only .Ident), .one "type" (.only .FuncType),
     .optional "body" (.only .BlockStmt)]
  | .GenDecl => [.token "tok", .many "specs" .spec, .flag "grouped" false]
  | .ImportSpec => [.given "name" (.only .Ident), .one "path" (.only .BasicLit)]
  | .ValueSpec =>
    [.many "names" (.only .Ident), .optional "type" .expression, .anyNumber "values" .expression]
  | .TypeSpec =>
    [.one "name" (.only .Ident), .one "type" .expression,
     .optional "type_params" (.only .FieldList), .flag "assign" false]
  | .Ident => [.text "name"]
  | .BasicLit => [.token "kind", .text "value"]
  | .Ellipsis => [.optional "elt" .expression]
  | .ParenExpr => [.one "x" .expression]
  | .SelectorExpr => [.one "x" .expression, .one "sel" (.only .Ident)]
  | .IndexExpr => [.one "x" .expression, .many "indices" .expression]
  | .SliceExpr =>
    [.one "x" .expression, .optional "low" .expression, .optional "high" .expression,
     .optional "max" .expression]
  | .TypeAssertExpr => [.one "x" .expression, .optional "type" .expression]
  | .CallExpr => [.one "fun" .expression, .anyNumber "args" .expression, .flag "ellipsis" false]
  | .StarExpr => [.one "x" .expression]
  | .UnaryExpr => [.token "op", .one "x" .expression]
  | .BinaryExpr => [.one "x" .expression, .token "op", .one "y" .expression]
  | .KeyValueExpr => [.one "key" .expression, .one "value" .expression]
  | .CompositeLit => [.given "type" .expression, .anyNumber "elts" .expression]
  | .FuncLit => [.one "type" (.only .FuncType), .one "body" (.only .BlockStmt)]
  | .Field =>
    [.many "names" (.only .Ident), .one "type" .expression, .optional "tag" (.only .BasicLit)]
  | .FieldList => [.anyNumber "fields" (.only .Field)]
  | .ArrayType => [.given "len" .expression, .one "elt" .expression]
  | .MapType => [.one "key" .expression, .one "value" .expression]
  | .ChanType => [⟨"dir", .direction, none⟩, .one "value" .expression]
  | .FuncType =>
    [.one "params" (.only .FieldList), .optional "results" (.only .FieldList),
     .optional "type_params" (.only .FieldList), .flag "func_keyword" true]
  | .StructType => [.one "fields" (.only .FieldList)]
  | .InterfaceType => [.one "methods" (.only .FieldList)]
  | .DeclStmt => [.one "decl" (.only .GenDecl)]
  | .EmptyStmt => [.flag "implicit" false]
  | .LabeledStmt => [.one "label" (.only .Ident), .one "stmt" .statement]
  | .ExprStmt => [.one "x" .expression]
  | .SendStmt => [.one "chan" .expression, .one "value" .expression]
  | .IncDecStmt => [.one "x" .expression, .token "tok"]
  | .AssignStmt => [.many "lhs" .expression, .token "tok", .many "rhs" .expression]
  | .GoStmt => [.one "call" (.only .CallExpr)]
  | .DeferStmt => [.one "call" (.only .CallExpr)]
  | .ReturnStmt => [.anyNumber "results" .expression]
  | .BranchStmt => [.token "tok", .optional "label" (.only .Ident)]
  | .BlockStmt => [.anyNumber "stmts" .statement]
  | .IfStmt =>
    [.given "init" .statement, .one "cond" .expression, .one "body" (.only .BlockStmt),
     .optional "else_" .statement]
  | .CaseClause => [.many "values" .expression, .anyNumber "body" .statement]
  | .SwitchStmt =>
    [.given "init" .statement, .given "tag" .expression, .one "body" (.only .BlockStmt)]
  | .TypeSwitchStmt =>
    [.given "init" .statement, .one "assign" .statement, .one "body" (.only .BlockStmt)]
  | .CommClause => [.given "comm" .statement, .anyNumber "body" .statement]
  | .SelectStmt => [.one "body" (.only .BlockStmt)]
  | .ForStmt =>
    [.given "init" .statement, .given "cond" .expression, .given "post" .statement,
     .one "body" (.only .BlockStmt)]
  | .RangeStmt =>
    [.given "key" .expression, .given "value" .expression, ⟨"tok", .optionalToken, none⟩,
     .one "x" .expression, .one "body" (.only .BlockStmt)]

def fieldNames (k : NodeKind) : List Text := k.fields.map (·.name)

end NodeKind

namespace Tree

-- What a tree holds under a name: a field of a node, or the name or the value of a token kind or a
-- direction.
def field? (t : Tree) (name : Text) : Option Tree :=
  match t with
  | .node k _ fields => (k.fieldNames.zip fields).lookup name
  | .token k => List.lookup name [("name", .text k.name), ("value", .text k.spelling)]
  | .direction d =>
    List.lookup name [("name", ofOption (d.name?.map .text)), ("value", .datum (.int d.value))]
  | _ => none

end Tree

end GoCompact
