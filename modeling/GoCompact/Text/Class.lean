import GoCompact.Text.Basic
import GoCompact.Text.Letters
import GoCompact.Text.Numerals
import GoCompact.Text.Digits
import GoCompact.Text.Printable

namespace GoCompact.Text

-- A point is a member when an odd number of changes lie at or below it.
def within (bounds : List Nat) (c : CodePoint) : Bool :=
  bounds.countP (· ≤ c.toNat) % 2 == 1

def isAscii (c : CodePoint) : Bool := c.toNat < 128

def isLetter (c : CodePoint) : Bool :=
  if isAscii c then c.isAlpha else within letterBounds c

def isNumeral (c : CodePoint) : Bool :=
  if isAscii c then c.isDigit else within numeralBounds c

def isDigit (c : CodePoint) : Bool :=
  if isAscii c then c.isDigit else within digitBounds c

def isPrintable (c : CodePoint) : Bool :=
  if isAscii c then 32 ≤ c.toNat && c.toNat < 127 else within printableBounds c

-- What may begin a name, and what may follow in it.
def beginsName (c : CodePoint) : Bool := isLetter c || c == '_'

def continuesName (c : CodePoint) : Bool := isLetter c || isNumeral c || c == '_'

end GoCompact.Text
