import GoCompact.Tree.Basic

namespace GoCompact.Tree

@[match_pattern] abbrev file (place package decls : Tree) : Tree :=
  .node .File place [package, decls]

@[match_pattern] abbrev funcDecl (place recv name typ body : Tree) : Tree :=
  .node .FuncDecl place [recv, name, typ, body]

@[match_pattern] abbrev genDecl (place tok specs grouped : Tree) : Tree :=
  .node .GenDecl place [tok, specs, grouped]

@[match_pattern] abbrev importSpec (place name path : Tree) : Tree :=
  .node .ImportSpec place [name, path]

@[match_pattern] abbrev valueSpec (place names typ values : Tree) : Tree :=
  .node .ValueSpec place [names, typ, values]

@[match_pattern] abbrev typeSpec (place name typ typeParams assign : Tree) : Tree :=
  .node .TypeSpec place [name, typ, typeParams, assign]

@[match_pattern] abbrev ident (place name : Tree) : Tree :=
  .node .Ident place [name]

@[match_pattern] abbrev basicLit (place kind value : Tree) : Tree :=
  .node .BasicLit place [kind, value]

@[match_pattern] abbrev ellipsis (place elt : Tree) : Tree :=
  .node .Ellipsis place [elt]

@[match_pattern] abbrev paren (place x : Tree) : Tree :=
  .node .ParenExpr place [x]

@[match_pattern] abbrev selector (place x sel : Tree) : Tree :=
  .node .SelectorExpr place [x, sel]

@[match_pattern] abbrev index (place x indices : Tree) : Tree :=
  .node .IndexExpr place [x, indices]

@[match_pattern] abbrev slice (place x low high max : Tree) : Tree :=
  .node .SliceExpr place [x, low, high, max]

@[match_pattern] abbrev typeAssert (place x typ : Tree) : Tree :=
  .node .TypeAssertExpr place [x, typ]

@[match_pattern] abbrev call (place callee args ellipsis : Tree) : Tree :=
  .node .CallExpr place [callee, args, ellipsis]

@[match_pattern] abbrev star (place x : Tree) : Tree :=
  .node .StarExpr place [x]

@[match_pattern] abbrev unary (place op x : Tree) : Tree :=
  .node .UnaryExpr place [op, x]

@[match_pattern] abbrev binary (place x op y : Tree) : Tree :=
  .node .BinaryExpr place [x, op, y]

@[match_pattern] abbrev keyValue (place key value : Tree) : Tree :=
  .node .KeyValueExpr place [key, value]

@[match_pattern] abbrev compositeLit (place typ elts : Tree) : Tree :=
  .node .CompositeLit place [typ, elts]

@[match_pattern] abbrev funcLit (place typ body : Tree) : Tree :=
  .node .FuncLit place [typ, body]

@[match_pattern] abbrev field (place names typ tag : Tree) : Tree :=
  .node .Field place [names, typ, tag]

@[match_pattern] abbrev fieldList (place fields : Tree) : Tree :=
  .node .FieldList place [fields]

@[match_pattern] abbrev arrayType (place len elt : Tree) : Tree :=
  .node .ArrayType place [len, elt]

@[match_pattern] abbrev mapType (place key value : Tree) : Tree :=
  .node .MapType place [key, value]

@[match_pattern] abbrev chanType (place dir value : Tree) : Tree :=
  .node .ChanType place [dir, value]

@[match_pattern] abbrev funcType (place params results typeParams funcKeyword : Tree) : Tree :=
  .node .FuncType place [params, results, typeParams, funcKeyword]

@[match_pattern] abbrev structType (place fields : Tree) : Tree :=
  .node .StructType place [fields]

@[match_pattern] abbrev interfaceType (place methods : Tree) : Tree :=
  .node .InterfaceType place [methods]

@[match_pattern] abbrev declStmt (place decl : Tree) : Tree :=
  .node .DeclStmt place [decl]

@[match_pattern] abbrev emptyStmt (place implicit : Tree) : Tree :=
  .node .EmptyStmt place [implicit]

@[match_pattern] abbrev labeled (place label stmt : Tree) : Tree :=
  .node .LabeledStmt place [label, stmt]

@[match_pattern] abbrev exprStmt (place x : Tree) : Tree :=
  .node .ExprStmt place [x]

@[match_pattern] abbrev send (place chan value : Tree) : Tree :=
  .node .SendStmt place [chan, value]

@[match_pattern] abbrev incDec (place x tok : Tree) : Tree :=
  .node .IncDecStmt place [x, tok]

@[match_pattern] abbrev assign (place lhs tok rhs : Tree) : Tree :=
  .node .AssignStmt place [lhs, tok, rhs]

@[match_pattern] abbrev goStmt (place call : Tree) : Tree :=
  .node .GoStmt place [call]

@[match_pattern] abbrev deferStmt (place call : Tree) : Tree :=
  .node .DeferStmt place [call]

@[match_pattern] abbrev returnStmt (place results : Tree) : Tree :=
  .node .ReturnStmt place [results]

@[match_pattern] abbrev branch (place tok label : Tree) : Tree :=
  .node .BranchStmt place [tok, label]

@[match_pattern] abbrev block (place stmts : Tree) : Tree :=
  .node .BlockStmt place [stmts]

@[match_pattern] abbrev ifStmt (place init cond body otherwise : Tree) : Tree :=
  .node .IfStmt place [init, cond, body, otherwise]

@[match_pattern] abbrev caseClause (place values body : Tree) : Tree :=
  .node .CaseClause place [values, body]

@[match_pattern] abbrev switchStmt (place init tag body : Tree) : Tree :=
  .node .SwitchStmt place [init, tag, body]

@[match_pattern] abbrev typeSwitch (place init assign body : Tree) : Tree :=
  .node .TypeSwitchStmt place [init, assign, body]

@[match_pattern] abbrev commClause (place comm body : Tree) : Tree :=
  .node .CommClause place [comm, body]

@[match_pattern] abbrev selectStmt (place body : Tree) : Tree :=
  .node .SelectStmt place [body]

@[match_pattern] abbrev forStmt (place init cond post body : Tree) : Tree :=
  .node .ForStmt place [init, cond, post, body]

@[match_pattern] abbrev rangeStmt (place key value tok x body : Tree) : Tree :=
  .node .RangeStmt place [key, value, tok, x, body]

end GoCompact.Tree
