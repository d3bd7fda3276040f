import GoCompact.Text.Class
import GoCompact.Text.Hex

namespace GoCompact.Text

-- Double quotes stand around a text that holds a single quote and no double one.
def quoteFor (s : List CodePoint) : CodePoint :=
  if s.contains '\'' && !s.contains '"' then '"' else '\''

def escape (quote c : CodePoint) : List CodePoint :=
  if c == quote || c == '\\' then ['\\', c]
  else if c == '\n' then ['\\', 'n']
  else if c == '\r' then ['\\', 'r']
  else if c == '\t' then ['\\', 't']
  else if isPrintable c then [c]
  else if c.toNat < 0x100 then '\\' :: 'x' :: hex 2 c.toNat
  else if c.toNat < 0x10000 then '\\' :: 'u' :: hex 4 c.toNat
  else '\\' :: 'U' :: hex 8 c.toNat

def quoted (s : Text) : Text :=
  let quote := quoteFor s.toList
  Text.ofList (quote :: s.toList.flatMap (escape quote) ++ [quote])

end GoCompact.Text
