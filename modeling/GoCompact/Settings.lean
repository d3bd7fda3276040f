import GoCompact.Limit

namespace GoCompact

-- Settings arrive in documents, where nothing checks them.
structure Settings where
  -- How deep expressions, types and statements may be nested.
  nestingLimit : Json
  -- Whether a line end follows the text of a file.
  finalNewline : Json
deriving Inhabited

namespace Settings

def standard : Settings := ⟨.int 100, .bool false⟩

-- Settings by their names; the others stay as they are by default, and unknown names are ignored.
def ofMembers (members : List (Text × Json)) : Settings where
  nestingLimit := (members.lookup ("max_nesting_depth" : Text)).getD standard.nestingLimit
  finalNewline := (members.lookup ("final_newline" : Text)).getD standard.finalNewline

def toMembers (s : Settings) : List (Text × Json) :=
  [("max_nesting_depth", s.nestingLimit), ("final_newline", s.finalNewline)]

def limit (s : Settings) : Limit := .ofJson s.nestingLimit

def endsLine (s : Settings) : Bool := s.finalNewline.isPresent

def same (s t : Settings) : Bool :=
  s.nestingLimit.same t.nestingLimit && s.finalNewline.same t.finalNewline

end Settings

end GoCompact
