import GoCompact.Tree.Shape

namespace GoCompact.Tree

-- The members of a list.
def members : Tree → List Tree
  | .tuple items => items
  | _ => []

-- The specs of a declaration, if it is an import.
def importSpecs : Tree → List Tree
  | .genDecl _ (.token (.word .Import)) (.tuple specs) _ => specs.filter (·.is .ImportSpec)
  | _ => []

-- The declarations of a file.
def declarations : Tree → List Tree
  | .file _ _ decls => decls.members
  | _ => []

-- All import specs of a file in their order.
def imports (t : Tree) : List Tree := t.declarations.flatMap importSpecs

-- The clauses of a switch.
def caseClauses : Tree → List Tree
  | .switchStmt _ _ _ (.block _ clauses) => clauses.members.filter (·.is .CaseClause)
  | .typeSwitch _ _ _ (.block _ clauses) => clauses.members.filter (·.is .CaseClause)
  | _ => []

-- A clause without values is taken when no other one is.
def isDefault : Tree → Bool
  | .caseClause _ values _ => !values.isPresent
  | _ => false

end GoCompact.Tree
