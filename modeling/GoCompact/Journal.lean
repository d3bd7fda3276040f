import GoCompact.Minify

namespace GoCompact

structure Entry where
  channel : Text
  message : Text
deriving DecidableEq, Repr

namespace Entry

-- All channels lie below one root.
def channelNamed (name : Text) : Text :=
  if name = "gomin" ∨ (Text.toList "gomin.").isPrefixOf name.toList then name else "gomin." ++ name

def ofReading (message : Text) : Entry := ⟨"gomin.parser", message⟩

def ofWriting (message : Text) : Entry := ⟨"gomin.renderers.minified", message⟩

end Entry

-- A file as the journal names it.
def journalName (file : Option Text) : Text :=
  match file with
  | some name => if name = "" then "<string>" else name
  | none => "<string>"

-- The name of the package of a file, and the number of its declarations.
def packageEntry : Tree → Option Entry
  | .file _ (.ident _ (.text name)) (.tuple decls) =>
    some (.ofReading ("Parsed package " ++ name ++ ": " ++ toString decls.length ++ " declarations"))
  | _ => none

-- The records of reading. Only files leave any, once their tokens are known.
def readingJournal (fragment : Fragment) (limit : Limit) (source : Text) (file : Option Text) :
    List Entry :=
  match fragment, Lexer.tokens source file with
  | .file, .ok tokens =>
    .ofReading ("Parsing " ++ journalName file ++ " (" ++ toString tokens.length ++ " tokens)") ::
      (match fragment.parse limit source file with
       | .ok t => (packageEntry t).toList
       | .error _ => [])
  | _, _ => []

-- The records of writing.
def writingJournal (t : Tree) : List Entry :=
  .ofWriting ("Emitting " ++ t.typeName) ::
    (match t.emission.fault with
     | some (.unsupported site part) =>
       [.ofWriting ("Unsupported " ++ part.category ++ " " ++ part.typeName ++ " in " ++ site.name)]
     | _ => [])

end GoCompact
