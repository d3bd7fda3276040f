import GoCompact.Grammar.Fragment
import GoCompact.Layout.Render
import GoCompact.Settings

namespace GoCompact

-- Why no text was produced.
inductive Fault
  | reading (diagnostic : Diagnostic)
  | writing (fault : RenderFault)
deriving Inhabited

def version : Text := "0.1.0"

-- The text of a tree, if it has one.
def renderTree (t : Tree) : Except Fault Text :=
  match t.render with
  | .ok text => .ok text
  | .error fault => .error (.writing fault)

-- The text of what was read, if it was.
def writeRead : Except Diagnostic Tree → Except Fault Text
  | .ok t => renderTree t
  | .error d => .error (.reading d)

-- Reads a source text and writes it again.
def compact (fragment : Fragment) (limit : Limit) (source : Text) (file : Option Text) :
    Except Fault Text :=
  writeRead (fragment.parse limit source file)

-- The compact text of a file.
def minify (settings : Settings) (source : Text) (file : Option Text) :
    Except Fault Text := do
  let text ← compact .file settings.limit source file
  return if settings.endsLine then text ++ "\n" else text

end GoCompact
