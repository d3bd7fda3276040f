import GoCompact.Diagnostic
import GoCompact.Token.Munch

namespace GoCompact

-- A scanned token and the text that follows it. Digits are not checked against the base, nor escapes
-- against the quotes. In a raw string the line ends count as such.
structure Scan where
  kind : TokenKind
  text : List CodePoint
  rest : List CodePoint
  raw : Bool
deriving DecidableEq, Repr

namespace Scan

def backquote : CodePoint := .char (Char.ofNat 96)

def splitWhile (p : CodePoint → Bool) (cs : List CodePoint) : List CodePoint × List CodePoint :=
  (cs.takeWhile p, cs.dropWhile p)

-- A name, which is a keyword if it is spelled like one.
def name (cs : List CodePoint) : Scan :=
  let (text, rest) := splitWhile Text.continuesName cs
  let kind := match Keyword.ofSpelling? (Text.ofList text) with
    | some k => .word k
    | none => .ident
  ⟨kind, text, rest, false⟩

def isDecimalDigit (c : CodePoint) : Bool := c.isDigit || c == '_'

def isHexDigit (c : CodePoint) : Bool :=
  isDecimalDigit c || ('a' ≤ c && c ≤ 'f') || ('A' ≤ c && c ≤ 'F')

-- The mark of a base, whether it is the hexadecimal one, and what follows.
def baseMark : List CodePoint → List CodePoint × Bool × List CodePoint
  | '0' :: c :: rest =>
    if c == 'x' || c == 'X' then (['0', c], true, rest)
    else if c == 'b' || c == 'B' || c == 'o' || c == 'O' then (['0', c], false, rest)
    else ([], false, '0' :: c :: rest)
  | cs => ([], false, cs)

-- A point and the digits after it.
def fraction (digit : CodePoint → Bool) : List CodePoint → List CodePoint × List CodePoint
  | '.' :: rest => ('.' :: rest.takeWhile digit, rest.dropWhile digit)
  | cs => ([], cs)

def sign : List CodePoint → List CodePoint × List CodePoint
  | '+' :: rest => (['+'], rest)
  | '-' :: rest => (['-'], rest)
  | cs => ([], cs)

-- The mark of an exponent with its sign and digits, of which there may be none.
def exponent (hexadecimal : Bool) : List CodePoint → List CodePoint × List CodePoint
  | c :: rest =>
    let isMark := if hexadecimal then c == 'p' || c == 'P' else c == 'e' || c == 'E'
    if isMark then
      let (s, rest) := sign rest
      (c :: s ++ rest.takeWhile isDecimalDigit, rest.dropWhile isDecimalDigit)
    else ([], c :: rest)
  | [] => ([], [])

def imaginaryMark : List CodePoint → List CodePoint × List CodePoint
  | 'i' :: rest => (['i'], rest)
  | cs => ([], cs)

-- A number. A digit outside ASCII begins one that is empty.
def number (cs : List CodePoint) : Scan :=
  let (mark, hexadecimal, rest) := baseMark cs
  let digit := if hexadecimal then isHexDigit else isDecimalDigit
  let (whole, rest) := splitWhile digit rest
  let (fraction, rest) := fraction digit rest
  let (exponent, rest) := exponent hexadecimal rest
  let (imaginary, rest) := imaginaryMark rest
  let kind :=
    if !imaginary.isEmpty then .Imaginary
    else if !fraction.isEmpty || !exponent.isEmpty then .Floating
    else .Integer
  ⟨.literal kind, mark ++ whole ++ fraction ++ exponent ++ imaginary, rest, false⟩

-- The text up to and with a closing quote, and what follows. A backslash takes the next character
-- with it, also the end of a line; any other end of a line leaves the literal open.
def quotedBody (quote : CodePoint) : List CodePoint → Option (List CodePoint × List CodePoint)
  | '\\' :: c :: rest =>
    (quotedBody quote rest).map fun (body, rest) => ('\\' :: c :: body, rest)
  | c :: rest =>
    if c == '\n' || c == '\\' then none
    else if c == quote then some ([c], rest)
    else (quotedBody quote rest).map fun (body, rest) => (c :: body, rest)
  | [] => none

def quoted (literal : Literal) (what : Unfinished) (quote : CodePoint) (cs : List CodePoint) :
    Except Cause Scan :=
  match quotedBody quote cs with
  | some (body, rest) => .ok ⟨.literal literal, quote :: body, rest, false⟩
  | none => .error (.unfinished what)

-- A raw string ends at the next backquote.
def rawString (cs : List CodePoint) : Except Cause Scan :=
  let (body, rest) := splitWhile (· != backquote) cs
  match rest with
  | quote :: rest => .ok ⟨.literal .Text, backquote :: body ++ [quote], rest, true⟩
  | [] => .error (.unfinished .rawString)

def operator (c : CodePoint) (cs : List CodePoint) : Except Cause Scan :=
  match Operator.munch? (c :: cs) with
  | some o =>
    .ok ⟨.op o, o.spelling.toList, (c :: cs).drop o.spelling.length, false⟩
  | none => .error (.illegalCharacter c)

def beginsNumber (c : CodePoint) (cs : List CodePoint) : Bool :=
  Text.isDigit c || (c == '.' && cs.head?.any Text.isDigit)

-- The token that begins with the character `c`.
def token (c : CodePoint) (cs : List CodePoint) : Except Cause Scan :=
  if Text.beginsName c then .ok (name (c :: cs))
  else if beginsNumber c cs then .ok (number (c :: cs))
  else if c == '"' then quoted .Text .string '"' cs
  else if c == backquote then rawString cs
  else if c == '\'' then quoted .Rune .rune '\'' cs
  else operator c cs

end Scan

end GoCompact
