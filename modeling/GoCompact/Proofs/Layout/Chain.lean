import GoCompact.Proofs.Layout.Emitted

namespace GoCompact.Tree

open Emission

-- An operator with the operand on its right, and a blank between them where one is needed.
def emittedRight (op y : Tree) (written : Emission) : Emission :=
  match op with
  | .token kind => write kind.spelling ++ when (y.needsBlank kind.spelling) (write " ") ++ written
  | _ => stop .noSuchPart

-- The operators of a chain with the operands on their right, the last one first.
def spine : Tree → List (Tree × Tree)
  | .binary _ x op y => (op, y) :: spine x
  | _ => []

-- The operand that stands first in a chain.
def chainStart : Tree → Tree
  | .binary _ x _ _ => chainStart x
  | t => t

-- A chain written along its spine.
def emittedChain (t : Tree) : Emission :=
  t.spine.reverse.foldl (fun e (op, y) => e ++ emittedRight op y (y.emittedAs .expression))
    (t.chainStart.emittedAs .expression)

-- An operation written by recursion into both operands.
def emittedInOrder : Tree → Emission
  | .binary _ x op y => emittedInOrder x ++ emittedRight op y (emittedInOrder y)
  | t => t.emittedAs .expression

-- Any operation, whatever stands in the place of its operator.
theorem emitted_operation (p x op y : Tree) :
    (Tree.binary p x op y).emittedAs .expression =
      x.emittedAs .expression ++ emittedRight op y (y.emittedAs .expression) := by
  rw [← emitted_operand]
  cases op <;> rfl

theorem emittedInOrder_eq (t : Tree) : t.emittedInOrder = t.emittedAs .expression := by
  induction t using emittedInOrder.induct with
  | case1 p x op y ihx ihy => rw [emittedInOrder, ihx, ihy, emitted_operation]
  | case2 t h => rw [emittedInOrder]; exact h

theorem emittedChain_eq (t : Tree) : t.emittedChain = t.emittedAs .expression := by
  induction t using chainStart.induct with
  | case1 p x op y ih =>
      rw [emitted_operation, ← ih]
      simp [emittedChain, spine, chainStart]
  | case2 t h =>
      have hspine : t.spine = [] := by rw [spine]; exact h
      have hstart : t.chainStart = t := by rw [chainStart]; exact h
      simp [emittedChain, hspine, hstart]

-- An operation is written along its spine, with the writes and the fault of the recursive rule.
theorem emission_operation (p x op y : Tree) :
    (Tree.binary p x op y).emission = (Tree.binary p x op y).emittedChain ∧
      (Tree.binary p x op y).emission = (Tree.binary p x op y).emittedInOrder :=
  ⟨(emittedChain_eq _).symm, (emittedInOrder_eq _).symm⟩

end GoCompact.Tree
