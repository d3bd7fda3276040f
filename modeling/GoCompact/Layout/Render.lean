import GoCompact.Layout.Rule

namespace GoCompact.Tree

mutual

-- The emission of a tree in a role, put together from those of its parts.
def emittedAs : Tree → Role → Emission
  | .node kind place fields => Rule.node (.node kind place fields) kind (parts fields)
  | .tuple items => Rule.tuple (.tuple items) (parts items)
  | .datum v => Rule.plain (.datum v)
  | .token kind => Rule.plain (.token kind)
  | .direction d => Rule.plain (.direction d)
  | .location l => Rule.plain (.location l)

def parts : List Tree → List Part
  | [] => []
  | t :: ts => ⟨t, emittedAs t⟩ :: parts ts

end

-- The role in which a tree is written by itself.
def ownRole (t : Tree) : Role :=
  match t.kind?.map NodeKind.family with
  | some .declaration => .declaration
  | some .spec => .spec
  | some .statement => .statement
  | some .expression | some .typeExpression => .expression
  | some .field => .field
  | some .fieldList => .fieldList ","
  | some .unit | none => .unit

def emission (t : Tree) : Emission := t.emittedAs t.ownRole

-- The compact text of a tree.
def render (t : Tree) : Except RenderFault Text :=
  match t.emission.fault with
  | none => .ok t.emission.text
  | some fault => .error fault

end GoCompact.Tree
