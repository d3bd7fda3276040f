import GoCompact.Token.Munch
import GoCompact.Tree.Shape

namespace GoCompact.Tree

-- The part of an expression that is written first, where it is not the expression itself.
def leftmost : Tree → Tree
  | .binary _ x _ _ => leftmost x
  | .selector _ x _ => leftmost x
  | .index _ x _ => leftmost x
  | .slice _ x _ _ _ => leftmost x
  | .typeAssert _ x _ => leftmost x
  | .call _ x _ _ => leftmost x
  | .keyValue _ x _ => leftmost x
  | .compositeLit place typ elts =>
    if typ.kind?.any NodeKind.isExpression then leftmost typ else .compositeLit place typ elts
  | t => t

-- A literal begins with its type where that is an expression.
theorem leftmost_compositeLit (place typ elts : Tree) :
    leftmost (.compositeLit place typ elts) =
      if typ.kind?.any NodeKind.isExpression then leftmost typ else .compositeLit place typ elts :=
  rfl

-- The operator that an expression begins with, if it begins with one.
def leadingOperator? (t : Tree) : Option Text :=
  match t.leftmost with
  | .unary _ (.token op) _ => some op.spelling
  | .star _ _ => some "*"
  | .chanType _ (.direction .receive) _ => some "<-"
  | _ => none

-- Whether a blank is needed between an operator and an operand.
def needsBlank (op : Text) (operand : Tree) : Bool :=
  operand.leadingOperator?.any (fuses op)

end GoCompact.Tree
