import GoCompact.Json.Value

namespace GoCompact.Json

def isBlank (c : CodePoint) : Bool := c == ' ' || c == '\t' || c == '\n' || c == '\r'

def skipBlanks (cs : List CodePoint) : List CodePoint := cs.dropWhile isBlank

-- The character of a two-character escape.
def simpleEscape? (c : CodePoint) : Option CodePoint :=
  if c == '"' || c == '\\' || c == '/' then some c
  else if c == 'b' then some '\x08'
  else if c == 'f' then some '\x0c'
  else if c == 'n' then some '\n'
  else if c == 'r' then some '\r'
  else if c == 't' then some '\t'
  else none

def isHighSurrogate (n : Nat) : Bool := 0xD800 ≤ n && n < 0xDC00

def isLowSurrogate (n : Nat) : Bool := 0xDC00 ≤ n && n < 0xE000

def joinSurrogates (high low : Nat) : Nat := 0x10000 + (high - 0xD800) * 0x400 + (low - 0xDC00)

-- What a string is written with: code points, and escapes that give one by its number.
inductive StringUnit
  | plain (c : CodePoint)
  | escape (n : Nat)
deriving DecidableEq, Repr

-- What stands after an opening quote up to the closing one, and what follows.
def stringUnits : List CodePoint → Option (List StringUnit × List CodePoint)
  | [] => none
  | '"' :: rest => some ([], rest)
  | '\\' :: 'u' :: a :: b :: c :: d :: rest => do
    let unit ← Text.hexQuad? a b c d
    let (units, rest) ← stringUnits rest
    return (.escape unit :: units, rest)
  | '\\' :: c :: rest => do
    let c ← simpleEscape? c
    let (units, rest) ← stringUnits rest
    return (.plain c :: units, rest)
  | c :: rest =>
    if c.toNat < 32 || c == '\\' then none
    else do
      let (units, rest) ← stringUnits rest
      return (.plain c :: units, rest)

-- Two escapes side by side that give a pair of surrogates are one character. Any other surrogate stays
-- what it is, also one that stands beside another without an escape.
def codePointsOfUnits : List StringUnit → List CodePoint
  | .escape high :: .escape low :: rest =>
    if isHighSurrogate high && isLowSurrogate low then
      CodePoint.ofNat (joinSurrogates high low) :: codePointsOfUnits rest
    else CodePoint.ofNat high :: codePointsOfUnits (.escape low :: rest)
  | .escape n :: rest => CodePoint.ofNat n :: codePointsOfUnits rest
  | .plain c :: rest => c :: codePointsOfUnits rest
  | [] => []

def natOfDigits (ds : List CodePoint) : Nat :=
  ds.foldl (fun n d => n * 10 + (d.toNat - 48)) 0

-- A whole part: a zero, or digits that do not begin with one.
def wholePart : List CodePoint → Option (List CodePoint × List CodePoint)
  | '0' :: rest => some (['0'], rest)
  | cs =>
    match cs.takeWhile CodePoint.isDigit with
    | [] => none
    | ds => some (ds, cs.dropWhile CodePoint.isDigit)

-- The digits after a point; a point without digits is left unread.
def fractionPart : List CodePoint → List CodePoint × List CodePoint
  | '.' :: rest =>
    match rest.takeWhile CodePoint.isDigit with
    | [] => ([], '.' :: rest)
    | ds => (ds, rest.dropWhile CodePoint.isDigit)
  | cs => ([], cs)

-- An exponent; a mark without digits is left unread.
def exponentPart (cs : List CodePoint) : Option Int × List CodePoint :=
  match cs with
  | mark :: rest =>
    if mark == 'e' || mark == 'E' then
      let (negative, digits) := match rest with
        | '+' :: r => (false, r)
        | '-' :: r => (true, r)
        | r => (false, r)
      match digits.takeWhile CodePoint.isDigit with
      | [] => (none, cs)
      | ds =>
        let n : Int := natOfDigits ds
        (some (if negative then -n else n), digits.dropWhile CodePoint.isDigit)
    else (none, cs)
  | [] => (none, [])

-- Why a text is no JSON text: it breaks the rules, or a whole number in it is too long.
inductive Flaw
  | malformed
  | longNumber
deriving DecidableEq, Repr

def orMalformed {α : Type} (x : Option α) : Except Flaw α := x.elim (throw .malformed) pure

-- A number; it is whole when it has neither a fraction nor an exponent.
def number (negative : Bool) (cs : List CodePoint) : Except Flaw (Json × List CodePoint) := do
  let (whole, rest) ← orMalformed (wholePart cs)
  let (fraction, rest) := fractionPart rest
  let (power, rest) := exponentPart rest
  let digits := natOfDigits (whole ++ fraction)
  match fraction, power with
  | [], none =>
    if mostDigits < whole.length then throw .longNumber
    else return (.int (if negative then -digits else digits), rest)
  | _, _ => return (.real (.ofDecimal negative ⟨digits, power.getD 0 - fraction.length⟩), rest)

def readString (cs : List CodePoint) : Except Flaw (Text × List CodePoint) := do
  let (units, rest) ← orMalformed (stringUnits cs)
  return (Text.ofList (codePointsOfUnits units), rest)

-- Values that are neither strings nor containers.
def scalar : List CodePoint → Except Flaw (Json × List CodePoint)
  | 'n' :: 'u' :: 'l' :: 'l' :: rest => return (.null, rest)
  | 't' :: 'r' :: 'u' :: 'e' :: rest => return (.bool true, rest)
  | 'f' :: 'a' :: 'l' :: 's' :: 'e' :: rest => return (.bool false, rest)
  | 'N' :: 'a' :: 'N' :: rest => return (.real .nan, rest)
  | 'I' :: 'n' :: 'f' :: 'i' :: 'n' :: 'i' :: 't' :: 'y' :: rest =>
    return (.real (.infinite false), rest)
  | '-' :: 'I' :: 'n' :: 'f' :: 'i' :: 'n' :: 'i' :: 't' :: 'y' :: rest =>
    return (.real (.infinite true), rest)
  | '-' :: rest => number true rest
  | cs => number false cs

mutual

-- Each call reads a character or goes on to a call that does, so twice the length bounds the depth.
def value : Nat → List CodePoint → Except Flaw (Json × List CodePoint)
  | 0, _ => throw .malformed
  | _ + 1, '"' :: rest => do
    let (s, rest) ← readString rest
    return (.str s, rest)
  | bound + 1, '[' :: rest =>
    match skipBlanks rest with
    | ']' :: rest => return (.arr [], rest)
    | rest => do
      let (items, rest) ← items bound rest
      return (.arr items, rest)
  | bound + 1, '{' :: rest =>
    match skipBlanks rest with
    | '}' :: rest => return (.obj [], rest)
    | rest => do
      let (members, rest) ← members bound [] rest
      return (.obj members, rest)
  | _ + 1, cs => scalar cs

-- The items of a list up to its closing bracket.
def items : Nat → List CodePoint → Except Flaw (List Json × List CodePoint)
  | 0, _ => throw .malformed
  | bound + 1, cs => do
    let (v, rest) ← value bound cs
    match skipBlanks rest with
    | ']' :: rest => return ([v], rest)
    | ',' :: rest =>
      let (vs, rest) ← items bound (skipBlanks rest)
      return (v :: vs, rest)
    | _ => throw .malformed

-- The members of an object up to its closing brace, added to those read before.
def members :
    Nat → List (Text × Json) → List CodePoint → Except Flaw (List (Text × Json) × List CodePoint)
  | 0, _, _ => throw .malformed
  | bound + 1, before, '"' :: cs => do
    let (key, rest) ← readString cs
    match skipBlanks rest with
    | ':' :: rest =>
      let (v, rest) ← value bound (skipBlanks rest)
      let before := setMember before key v
      match skipBlanks rest with
      | '}' :: rest => return (before, rest)
      | ',' :: rest => members bound before (skipBlanks rest)
      | _ => throw .malformed
    | _ => throw .malformed
  | _, _, _ => throw .malformed

end

-- Reads a whole text.
def read (text : Text) : Except Flaw Json := do
  let cs := text.toList
  let (v, rest) ← value (2 * cs.length + 2) (skipBlanks cs)
  if (skipBlanks rest).isEmpty then return v else throw .malformed

end GoCompact.Json
