import GoCompact.Tree.Shape

namespace GoCompact.Tree

-- Whether a tree can only be a type, or a union that holds one.
def isTypeElement : Tree → Bool
  | .binary _ x _ y => isTypeElement x || isTypeElement y
  | .unary _ op _ => match op with
    | .token (.op .Tilde) => true
    | _ => false
  | .paren _ x => isTypeElement x
  | .node k _ _ => k.family == .typeExpression
  | _ => false

-- After `type T[P` the text may go on as a parameter `P *C` or as a length `P * N`, and is read as an
-- expression first. Takes a tree apart into the name of a type parameter and its constraint. When `force` holds, as
-- it does before a comma, a tree that could also be a length is taken for a parameter.
def typeParameter? (force : Bool) : Tree → Option (Tree × Option Tree)
  | .ident place name => some (.ident place name, none)
  | .binary place x op y =>
    match op with
    | .token (.op .Mul) =>
      if x.is .Ident && (force || y.isTypeElement) then some (x, some (.star place y)) else none
    | .token (.op .Or) =>
      match typeParameter? (force || y.isTypeElement) x with
      | some (name, some lhs) => some (name, some (.binary place lhs op y))
      | _ => none
    | _ => none
  | .call _ callee (.tuple [arg]) (.flag false) =>
    if callee.is .Ident && (force || arg.isTypeElement) then
      some (callee, some (.paren arg.placeOf arg))
    else none
  | _ => none

end GoCompact.Tree
