import GoCompact.Location
import GoCompact.Token.Kind
import GoCompact.Tree.Kind

namespace GoCompact

-- The direction of a channel. A document can also give one that does neither.
inductive Direction
  | neither | send | receive | both
deriving DecidableEq, Repr, Inhabited

namespace Direction

def value : Direction → Nat
  | .neither => 0
  | .send => 1
  | .receive => 2
  | .both => 3

def name? : Direction → Option Text
  | .neither => none
  | .send => some "SEND"
  | .receive => some "RECV"
  | .both => some "BOTH"

-- The single ways that a direction is made of.
def ways : Direction → List Direction
  | .neither => []
  | .send => [.send]
  | .receive => [.receive]
  | .both => [.send, .receive]

-- Only the two lowest bits of a number count.
def ofInt (n : Int) : Direction :=
  match n % 4 with
  | 1 => .send
  | 2 => .receive
  | 3 => .both
  | _ => .neither

end Direction

-- A node has its fields in a fixed order. In a tree that is read from a document, a field may hold
-- anything.
inductive Tree
  | datum (value : Json)
  | tuple (items : List Tree)
  | token (kind : TokenKind)
  | direction (d : Direction)
  | location (l : Location)
  | node (kind : NodeKind) (place : Tree) (fields : List Tree)
deriving Inhabited

namespace Tree

@[match_pattern] abbrev text (s : Text) : Tree := .datum (.str s)

@[match_pattern] abbrev flag (b : Bool) : Tree := .datum (.bool b)

-- What stands in an optional field that is left out.
@[match_pattern] abbrev absent : Tree := .datum .null

def unknownPlace : Tree := .location .unknown

def ofOption (t : Option Tree) : Tree := t.getD .absent

-- Whether a field holds something: an empty list or text, zero and false do not count.
def isPresent : Tree → Bool
  | .datum v => v.isPresent
  | .tuple items => !items.isEmpty
  | .direction d => d != .neither
  | _ => true

-- The number of things in a list, a text, an object or a direction.
def size? : Tree → Option Nat
  | .tuple items => some items.length
  | .direction d => some d.ways.length
  | .datum v => v.size?
  | _ => none

-- What going through a list, a text, an object or a direction gives.
def elements? : Tree → Option (List Tree)
  | .tuple items => some items
  | .direction d => some (d.ways.map .direction)
  | .datum v => v.elements?.map fun vs => vs.map .datum
  | _ => none

def isAbsent : Tree → Bool
  | .absent => true
  | _ => false

def kind? : Tree → Option NodeKind
  | .node k _ _ => some k
  | _ => none

def is (t : Tree) (k : NodeKind) : Bool := t.kind? == some k

-- The location of a node. Anything else has none.
def place? : Tree → Option Tree
  | .node _ place _ => some place
  | _ => none

-- The location of a node that has one.
def placeOf (t : Tree) : Tree := t.place?.getD .unknownPlace

-- The name of the sort of thing that a tree is.
def typeName : Tree → Text
  | .datum .null => "NoneType"
  | .datum (.bool _) => "bool"
  | .datum (.int _) => "int"
  | .datum (.real _) => "float"
  | .datum (.str _) => "str"
  | .datum (.arr _) => "list"
  | .datum (.obj _) => "dict"
  | .tuple _ => "tuple"
  | .token _ => "TokenType"
  | .direction _ => "ChanDir"
  | .location _ => "SourceLocation"
  | .node k _ _ => k.name

def category : Tree → Text
  | .node k _ _ => k.category
  | _ => "node"

end Tree

end GoCompact
