import GoCompact.Text.Hex

namespace GoCompact.Utf8

inductive Reason
  | start | continuation | ending
deriving DecidableEq, Repr

-- The position of the bytes at fault, their number, the first of them and what is wrong.
structure Fault where
  position : Nat
  length : Nat
  byte : UInt8
  reason : Reason
deriving DecidableEq, Repr

namespace Reason

def name : Reason → Text
  | .start => "invalid start byte"
  | .continuation => "invalid continuation byte"
  | .ending => "unexpected end of data"

end Reason

namespace Fault

def message (f : Fault) : Text :=
  let bytes :=
    if f.length = 1 then
      "byte 0x" ++ Text.ofList (Text.hex 2 f.byte.toNat) ++ " in position " ++ toString f.position
    else
      "bytes in position " ++ toString f.position ++ "-" ++ toString (f.position + f.length - 1)
  "'utf-8' codec can't decode " ++ bytes ++ ": " ++ f.reason.name

end Fault

-- How many bytes follow a first byte, and the bits of the character it carries.
def lead? (b : UInt8) : Option (Nat × Nat) :=
  if b < 0x80 then some (0, b.toNat)
  else if b < 0xC2 then none
  else if b < 0xE0 then some (1, b.toNat - 0xC0)
  else if b < 0xF0 then some (2, b.toNat - 0xE0)
  else if b < 0xF5 then some (3, b.toNat - 0xF0)
  else none

def isContinuation (b : UInt8) : Bool := 0x80 ≤ b && b < 0xC0

-- After some first bytes the second one is restricted further: no longer form than needed, no
-- surrogate, nothing beyond the last character.
def fitsSecond (first second : UInt8) : Bool :=
  if first == 0xE0 then 0xA0 ≤ second
  else if first == 0xED then second < 0xA0
  else if first == 0xF0 then 0x90 ≤ second
  else if first == 0xF4 then second < 0x90
  else true

-- The rest of a character of which `taken` bytes were read.
def continued (first : UInt8) (position : Nat) :
    Nat → Nat → Nat → List UInt8 → Except Fault (Nat × List UInt8)
  | 0, _, bits, rest => .ok (bits, rest)
  | _ + 1, taken, _, [] => .error ⟨position, taken, first, .ending⟩
  | more + 1, taken, bits, b :: rest =>
    if isContinuation b && (taken != 1 || fitsSecond first b) then
      continued first position more (taken + 1) (bits * 64 + (b.toNat - 0x80)) rest
    else .error ⟨position, taken, first, .continuation⟩

-- Each round reads a byte at least, so as many as there are bytes are enough.
def decodeWithin : Nat → Nat → List UInt8 → Except Fault (List CodePoint)
  | 0, _, _ => .ok []
  | _ + 1, _, [] => .ok []
  | n + 1, position, b :: rest =>
    match lead? b with
    | none => .error ⟨position, 1, b, .start⟩
    | some (more, bits) =>
      match continued b position more 1 bits rest with
      | .error fault => .error fault
      | .ok (code, rest) =>
        match decodeWithin n (position + more + 1) rest with
        | .error fault => .error fault
        | .ok cs => .ok (.char (Char.ofNat code) :: cs)

def decode (bytes : List UInt8) : Except Fault (List CodePoint) := decodeWithin bytes.length 0 bytes

-- Every sort of line end becomes a newline.
def unifyLines : List CodePoint → List CodePoint
  | '\r' :: '\n' :: rest => '\n' :: unifyLines rest
  | '\r' :: rest => '\n' :: unifyLines rest
  | c :: rest => c :: unifyLines rest
  | [] => []

end GoCompact.Utf8
