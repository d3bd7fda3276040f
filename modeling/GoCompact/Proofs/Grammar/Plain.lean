import GoCompact.Proofs.Grammar.Built
import GoCompact.Proofs.Grammar.Reading
import GoCompact.Proofs.Layout.Emitted

namespace GoCompact

-- Kinds that begin a type.
def TokenKind.beginsType : TokenKind → Bool
  | .ident => true
  | .op o => o == .LBrack || o == .Mul || o == .Arrow || o == .LParen
  | .word k => k == .Struct || k == .Func || k == .Interface || k == .Map || k == .Chan
  | _ => false

-- Kinds that go on with an operand.
def TokenKind.continues (k : TokenKind) : Bool :=
  k == .op .Period || k == .op .LBrack || k == .op .LParen

namespace Tree

-- Whether a token after a type would be read with it.
def absorbs (k : TokenKind) : Tree → Bool
  | .ident _ _ => k == .op .Period || k == .op .LBrack
  | .selector _ _ _ => k == .op .LBrack
  | .star _ x => absorbs k x
  | .arrayType _ _ elt => absorbs k elt
  | .mapType _ _ value => absorbs k value
  | .chanType _ _ value => absorbs k value
  | .funcType _ _ .absent _ _ => k.beginsType
  | .funcType _ _ (.fieldList _ (.tuple [.field _ (.tuple []) t _])) _ _ => absorbs k t
  | _ => false

-- Whether a token after an expression would be read with a type at its end.
def edge (k : TokenKind) : Tree → Bool
  | .binary _ _ _ y => edge k y
  | .unary _ _ x => edge k x
  | .star _ x => edge k x
  | .node kind p fields =>
    kind.family == .typeExpression && absorbs k (.node kind p fields)
  | _ => false

-- Only a point and what begins a type are read with a type.
theorem absorbs_eq_false {k : TokenKind} (hpoint : k ≠ .op .Period) (hk : k.beginsType = false)
    (t : Tree) : t.absorbs k = false := by
  have hbracket : k ≠ .op .LBrack := by
    rintro rfl
    cases hk
  induction t using absorbs.induct <;> simp only [absorbs] <;> simp [*]

theorem edge_eq_false {k : TokenKind} (hpoint : k ≠ .op .Period) (hk : k.beginsType = false)
    (t : Tree) : t.edge k = false := by
  fun_induction edge k t <;> simp_all [absorbs_eq_false hpoint hk]

-- The type in a list of one field without a name.
def lone? : Tree → Option Tree
  | .fieldList _ (.tuple [.field _ (.tuple []) t _]) => some t
  | _ => none

-- After results in parentheses nothing is read with a function type.
theorem absorbs_funcType {results : Tree} (h : results.lone? = none)
    (habsent : results.isAbsent = false) (p params typeParams funcKeyword : Tree)
    (k : TokenKind) : absorbs k (.funcType p params results typeParams funcKeyword) = false := by
  unfold absorbs
  split
  any_goals rfl
  all_goals
    rename_i heq
    simp only [node.injEq, reduceCtorEq, false_and, List.cons.injEq] at heq
  · rw [heq.2.2.2.1] at habsent
    cases habsent
  · rw [heq.2.2.2.1] at h
    cases h

-- What a node of a kind needs to be plain.
def isPlainNode : NodeKind → List Tree → Bool
  | .FuncType, [_, results, _, _] => results.lone?.all fun t => t.isType && !t.is .ParenExpr
  | .SelectorExpr, [x, _] => !x.edge (.op .Period)
  | .TypeAssertExpr, [x, _] => !x.edge (.op .Period)
  | .IndexExpr, [x, _] => !x.edge (.op .LBrack)
  | .SliceExpr, [x, _, _, _] => !x.edge (.op .LBrack)
  | .CallExpr, [x, _, _] => !x.edge (.op .LParen)
  | .BinaryExpr, [x, .token k, _] => !x.edge k
  | .SendStmt, [chan, _] => !chan.edge (.op .Arrow)
  | .TypeSpec, [_, _, params, _] => !params.lone?.any (·.is .Ident)
  | .ForStmt, [init, cond, post, _] => !(init.isAbsent && post.isAbsent && cond.takesBrace)
  | _, _ => true

mutual

def plain : Tree → Bool
  | .node kind _ fields => isPlainNode kind fields && allPlain fields
  | .tuple items => allPlain items
  | _ => true

def allPlain : List Tree → Bool
  | [] => true
  | t :: ts => plain t && allPlain ts

end

-- Whether the header of a loop is written with a semicolon first.
def opensLoop : NodeKind → List Tree → Bool
  | .ForStmt, [init, _, post, _] => init.isAbsent && !post.isAbsent
  | _, _ => false

mutual

-- The number of loops whose header is written so.
def loops : Tree → Nat
  | .node kind _ fields => (if opensLoop kind fields then 1 else 0) + loopsAll fields
  | .tuple items => loopsAll items
  | _ => 0

def loopsAll : List Tree → Nat
  | [] => 0
  | t :: ts => loops t + loopsAll ts

end

end Tree

end GoCompact
