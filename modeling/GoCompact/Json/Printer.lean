import GoCompact.Json.Value

namespace GoCompact.Json

open CodePoint (char)

def unitEscape (n : Nat) : List CodePoint := '\\' :: 'u' :: Text.hex 4 n

def escapeChar (c : CodePoint) : List CodePoint :=
  if c == '"' then ['\\', '"']
  else if c == '\\' then ['\\', '\\']
  else if c == '\n' then ['\\', 'n']
  else if c == '\r' then ['\\', 'r']
  else if c == '\t' then ['\\', 't']
  else if c == '\x0c' then ['\\', 'f']
  else if c == '\x08' then ['\\', 'b']
  else if 32 ≤ c.toNat && c.toNat < 127 then [c]
  else if c.toNat < 0x10000 then unitEscape c.toNat
  else
    let n := c.toNat - 0x10000
    unitEscape (0xD800 + n / 0x400) ++ unitEscape (0xDC00 + n % 0x400)

def writeString (s : Text) : List CodePoint := char '"' :: s.toList.flatMap escapeChar ++ [char '"']

def writeNumber (x : Binary64) : String := x.textWith "NaN" "Infinity"

-- How the items of a container are set apart: on one line, or each on a line of its own, with an
-- indent for each level.
inductive Style
  | compact
  | indented (indent : List CodePoint)
deriving DecidableEq, Repr

namespace Style

def lineAt (depth : Nat) : Style → List CodePoint
  | .compact => []
  | .indented indent => '\n' :: (List.replicate depth indent).flatten

def comma (depth : Nat) : Style → List CodePoint
  | .compact => [',', ' ']
  | style => ',' :: style.lineAt depth

-- A container at a depth around its written items.
def enclose (style : Style) (opening closing : CodePoint) (depth : Nat) :
    List (List CodePoint) → List CodePoint
  | [] => [opening, closing]
  | items =>
    opening :: style.lineAt (depth + 1) ++ (style.comma (depth + 1)).intercalate items ++
      style.lineAt depth ++ [closing]

end Style

-- Names are in order when their characters are, the first that differ deciding.
def inOrder : List CodePoint → List CodePoint → Bool
  | [], _ => true
  | _ :: _, [] => false
  | c :: cs, d :: ds => c.toNat < d.toNat || (c == d && inOrder cs ds)

mutual

def write (style : Style) (depth : Nat) : Json → List CodePoint
  | .null => Text.toList "null"
  | .bool b => Text.toList (if b then "true" else "false")
  | .int n => Text.toList (toString n)
  | .real x => Text.toList (writeNumber x)
  | .str s => writeString s
  | .arr items => style.enclose '[' ']' depth (writeItems style (depth + 1) items)
  | .obj members =>
    style.enclose '{' '}' depth
      (((writeMembers style (depth + 1) members).mergeSort fun a b => inOrder a.1 b.1).map
        fun m => writeString (Text.ofList m.1) ++ [char ':', char ' '] ++ m.2)

def writeItems (style : Style) (depth : Nat) : List Json → List (List CodePoint)
  | [] => []
  | x :: xs => write style depth x :: writeItems style depth xs

-- The members with their names, not yet in order.
def writeMembers (style : Style) (depth : Nat) :
    List (Text × Json) → List (List CodePoint × List CodePoint)
  | [] => []
  | (k, v) :: rest => (k.toList, write style depth v) :: writeMembers style depth rest

end

-- The text of a value, if all its numbers can be written.
def textIn? (style : Style) (v : Json) : Option Text :=
  if v.isShort then some (Text.ofList (write style 0 v)) else none

end GoCompact.Json
