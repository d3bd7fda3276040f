import GoCompact.Json.Binary64
import GoCompact.Text.Quoted

namespace GoCompact

inductive Json
  | null
  | bool (b : Bool)
  | int (n : Int)
  | real (x : Binary64)
  | str (s : Text)
  | arr (items : List Json)
  | obj (members : List (Text × Json))
deriving Inhabited

namespace Json

-- Sets a member, keeping the place of an earlier one of the same name.
def setMember (members : List (Text × Json)) (key : Text) (value : Json) :
    List (Text × Json) :=
  match members with
  | [] => [(key, value)]
  | (k, v) :: rest => if k = key then (k, value) :: rest else (k, v) :: setMember rest key value

-- Nothing, zero and whatever is empty count as absent.
def isPresent : Json → Bool
  | .null => false
  | .bool b => b
  | .int n => n != 0
  | .real x => !x.isZero
  | .str s => s != ""
  | .arr items => !items.isEmpty
  | .obj members => !members.isEmpty

-- The number of things in a list, a text or an object.
def size? : Json → Option Nat
  | .str s => some s.length
  | .arr items => some items.length
  | .obj members => some members.length
  | _ => none

-- What going through a value gives: the items of a list, the characters of a text, the names of an
-- object.
def elements? : Json → Option (List Json)
  | .arr items => some items
  | .str s => some (s.toList.map fun c => .str (Text.ofList [c]))
  | .obj members => some (members.map fun m => .str m.1)
  | _ => none

-- Whether a value can be looked up in a table, as containers cannot.
def isKey : Json → Bool
  | .arr _ | .obj _ => false
  | _ => true

-- The whole number that a number or a truth value stands for.
def toInt? : Json → Option Int
  | .bool b => some (if b then 1 else 0)
  | .int n => some n
  | .real x => x.toInt?
  | _ => none

mutual

-- Equality by value: truth values count as zero and one, numbers compare across their forms, and
-- the order of members does not matter.
def same : Json → Json → Bool
  | .null, .null => true
  | .str a, .str b => a == b
  | .arr xs, .arr ys => sameItems xs ys
  | .obj xs, .obj ys => xs.length == ys.length && sameMembers xs ys
  | .real a, .real b => a == b || (a.isZero && b.isZero)
  | a, b =>
    match a.toInt?, b.toInt? with
    | some m, some n => m == n
    | _, _ => false

def sameItems : List Json → List Json → Bool
  | [], [] => true
  | x :: xs, y :: ys => same x y && sameItems xs ys
  | _, _ => false

def sameMembers : List (Text × Json) → List (Text × Json) → Bool
  | [], _ => true
  | (k, v) :: rest, others =>
    (match others.lookup k with
     | some w => same v w
     | none => false) && sameMembers rest others

end

-- The most digits that a whole number may have where it is written or read.
def mostDigits : Nat := 4300

mutual

-- Whether no whole number in a value is too long to be written.
def isShort : Json → Bool
  | .int n => n.natAbs < Nat.pow 10 mostDigits
  | .arr items => areShort items
  | .obj members => haveShort members
  | _ => true

def areShort : List Json → Bool
  | [] => true
  | v :: vs => isShort v && areShort vs

def haveShort : List (Text × Json) → Bool
  | [] => true
  | (_, v) :: rest => isShort v && haveShort rest

end

-- Words separated by a comma and a blank.
def commaSeparated (words : List Text) : Text := Text.intercalate ", " words

mutual

-- A value as a message shows it inside another value, where texts are quoted.
def shown : Json → Text
  | .null => "None"
  | .bool b => if b then "True" else "False"
  | .int n => toString n
  | .real x => x.text
  | .str s => Text.quoted s
  | .arr items => "[" ++ commaSeparated (shownItems items) ++ "]"
  | .obj members => "\x7b" ++ commaSeparated (shownMembers members) ++ "\x7d"

def shownItems : List Json → List Text
  | [] => []
  | x :: xs => shown x :: shownItems xs

def shownMembers : List (Text × Json) → List Text
  | [] => []
  | (k, v) :: rest => (Text.quoted k ++ ": " ++ shown v) :: shownMembers rest

end

-- A value as a message shows it by itself, where a text stands without quotes.
def bare : Json → Text
  | .str s => s
  | v => shown v

end Json

end GoCompact
