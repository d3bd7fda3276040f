import GoCompact.Text.Basic

namespace GoCompact

inductive NodeKind
  | File | FuncDecl | GenDecl | ImportSpec | ValueSpec | TypeSpec | Ident | BasicLit | Ellipsis
  | ParenExpr | SelectorExpr | IndexExpr | SliceExpr | TypeAssertExpr | CallExpr | StarExpr
  | UnaryExpr | BinaryExpr | KeyValueExpr | CompositeLit | FuncLit | Field | FieldList | ArrayType
  | MapType | ChanType | FuncType | StructType | InterfaceType | DeclStmt | EmptyStmt
  | LabeledStmt | ExprStmt | SendStmt | IncDecStmt | AssignStmt | GoStmt | DeferStmt | ReturnStmt
  | BranchStmt | BlockStmt | IfStmt | CaseClause | SwitchStmt | TypeSwitchStmt | CommClause
  | SelectStmt | ForStmt | RangeStmt
deriving DecidableEq, Repr, Inhabited

-- The families of nodes. A type literal is an expression of a special sort.
inductive Family
  | unit | declaration | spec | expression | typeExpression | statement | field | fieldList
deriving DecidableEq, Repr, Inhabited

namespace Family

-- The family as a message names it.
def category : Family → Text
  | .unit => "unit"
  | .declaration | .spec => "declaration"
  | .expression => "expression"
  | .typeExpression | .field | .fieldList => "type"
  | .statement => "statement"

end Family

namespace NodeKind

def all : List NodeKind :=
  [.File, .FuncDecl, .GenDecl, .ImportSpec, .ValueSpec, .TypeSpec, .Ident, .BasicLit, .Ellipsis,
  .ParenExpr, .SelectorExpr, .IndexExpr, .SliceExpr, .TypeAssertExpr, .CallExpr, .StarExpr,
  .UnaryExpr, .BinaryExpr, .KeyValueExpr, .CompositeLit, .FuncLit, .Field, .FieldList, .ArrayType,
  .MapType, .ChanType, .FuncType, .StructType, .InterfaceType, .DeclStmt, .EmptyStmt,
  .LabeledStmt, .ExprStmt, .SendStmt, .IncDecStmt, .AssignStmt, .GoStmt, .DeferStmt, .ReturnStmt,
  .BranchStmt, .BlockStmt, .IfStmt, .CaseClause, .SwitchStmt, .TypeSwitchStmt, .CommClause,
  .SelectStmt, .ForStmt, .RangeStmt]

def name : NodeKind → Text
  | .File => "File" | .FuncDecl => "FuncDecl" | .GenDecl => "GenDecl"
  | .ImportSpec => "ImportSpec" | .ValueSpec => "ValueSpec" | .TypeSpec => "TypeSpec"
  | .Ident => "Ident" | .BasicLit => "BasicLit" | .Ellipsis => "Ellipsis"
  | .ParenExpr => "ParenExpr" | .SelectorExpr => "SelectorExpr" | .IndexExpr => "IndexExpr"
  | .SliceExpr => "SliceExpr" | .TypeAssertExpr => "TypeAssertExpr" | .CallExpr => "CallExpr"
  | .StarExpr => "StarExpr" | .UnaryExpr => "UnaryExpr" | .BinaryExpr => "BinaryExpr"
  | .KeyValueExpr => "KeyValueExpr" | .CompositeLit => "CompositeLit" | .FuncLit => "FuncLit"
  | .Field => "Field" | .FieldList => "FieldList" | .ArrayType => "ArrayType"
  | .MapType => "MapType" | .ChanType => "ChanType" | .FuncType => "FuncType"
  | .StructType => "StructType" | .InterfaceType => "InterfaceType" | .DeclStmt => "DeclStmt"
  | .EmptyStmt => "EmptyStmt" | .LabeledStmt => "LabeledStmt" | .ExprStmt => "ExprStmt"
  | .SendStmt => "SendStmt" | .IncDecStmt => "IncDecStmt" | .AssignStmt => "AssignStmt"
  | .GoStmt => "GoStmt" | .DeferStmt => "DeferStmt" | .ReturnStmt => "ReturnStmt"
  | .BranchStmt => "BranchStmt" | .BlockStmt => "BlockStmt" | .IfStmt => "IfStmt"
  | .CaseClause => "CaseClause" | .SwitchStmt => "SwitchStmt"
  | .TypeSwitchStmt => "TypeSwitchStmt" | .CommClause => "CommClause"
  | .SelectStmt => "SelectStmt" | .ForStmt => "ForStmt" | .RangeStmt => "RangeStmt"

def ofName? (name : Text) : Option NodeKind := all.find? (·.name == name)

def family : NodeKind → Family
  | .File => .unit
  | .FuncDecl | .GenDecl => .declaration
  | .ImportSpec | .ValueSpec | .TypeSpec => .spec
  | .Ident | .BasicLit | .Ellipsis | .ParenExpr | .SelectorExpr | .IndexExpr | .SliceExpr
  | .TypeAssertExpr | .CallExpr | .StarExpr | .UnaryExpr | .BinaryExpr | .KeyValueExpr
  | .CompositeLit | .FuncLit => .expression
  | .ArrayType | .MapType | .ChanType | .FuncType | .StructType | .InterfaceType
  => .typeExpression
  | .Field => .field
  | .FieldList => .fieldList
  | _ => .statement

def category (k : NodeKind) : Text := k.family.category

def isExpression (k : NodeKind) : Bool := k.family == .expression || k.family == .typeExpression

end NodeKind

end GoCompact
