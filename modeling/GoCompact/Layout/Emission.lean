import GoCompact.Tree.Basic

namespace GoCompact

-- The place in the rules where a tree was rejected.
inductive Site
  | emit | declaration | spec | statement | elseBranch | expression | interface
deriving DecidableEq, Repr

namespace Site

def name : Site → Text
  | .emit => "emit"
  | .declaration => "decl"
  | .spec => "spec"
  | .statement => "stmt"
  | .elseBranch => "else"
  | .expression => "expr"
  | .interface => "interface"

end Site

-- Why no text came of a tree: a part that no rule handles, a value that is not of the sort a rule
-- needs, a part or an entry that is not there, something among the texts that is none, or a sink
-- that takes no more.
inductive RenderFault
  | unsupported (site : Site) (tree : Tree)
  | wrongSort
  | noSuchPart
  | noSuchEntry
  | notText
  | sinkClosed
deriving Inhabited

namespace RenderFault

-- Where a message places a part. A location whose line is no number cannot be told.
def position? : Option Location → Option Text
  | none => some "<?>"
  | some l => l.isKnown?.map fun known => if known then l.text else "<?>"

-- The message for a construct that no rule handles.
def unsupportedText (category typeName position site : Text) : Text :=
  position ++ ": " ++ (if site = "" then "" else site ++ ": " : Text) ++
    "unhandled " ++ category ++ " " ++ typeName

def locationOf (t : Tree) : Option Location :=
  match t.place? with
  | some (.location l) => some l
  | _ => none

def message? : RenderFault → Option Text
  | .unsupported site t =>
    (position? (locationOf t)).map fun position =>
      unsupportedText t.category t.typeName position site.name
  | .sinkClosed => some "sink closed"
  | _ => none

end RenderFault

-- What is handed to a sink at once: a text, or what a tree holds in the place of one.
inductive Write
  | text (s : Text)
  | other (t : Tree)
deriving Inhabited

namespace Write

-- The text of a write. What is no text adds none.
def spelling : Write → Text
  | .text s => s
  | .other _ => ""

-- Texts are put together from what has a size. Nothing else is taken for it.
def hasSize : Write → Bool
  | .text _ => true
  | .other t => t.size?.isSome

-- What is no text may stand among the texts if it has no members.
def joins : Write → Bool
  | .text _ => true
  | .other t => t.size? == some 0

end Write

-- The writes that the rules make, and the fault that ends them, if one does.
structure Emission where
  made : List Write
  ending : Option RenderFault
deriving Inhabited

namespace Emission

def nothing : Emission := ⟨[], none⟩

def write (s : Text) : Emission := ⟨[.text s], none⟩

def stop (fault : RenderFault) : Emission := ⟨[], some fault⟩

-- A part that no rule handles, if it can be told where it stands.
def unsupported (site : Site) (t : Tree) : Emission :=
  match RenderFault.position? (RenderFault.locationOf t) with
  | some _ => stop (.unsupported site t)
  | none => stop .wrongSort

-- One emission after another. Nothing follows a fault.
def andThen (a b : Emission) : Emission :=
  match a.ending with
  | none => ⟨a.made ++ b.made, b.ending⟩
  | some _ => a

instance : Append Emission := ⟨andThen⟩

-- Emissions with a text between them.
def separated (separator : Text) : List Emission → Emission
  | [] => nothing
  | [e] => e
  | e :: es => e ++ (write separator ++ separated separator es)

-- An emission that is made only under a condition.
def when (condition : Bool) (e : Emission) : Emission := if condition then e else nothing

-- Writes what stands where a text should.
def writeText : Tree → Emission
  | .text s => write s
  | t => ⟨[.other t], none⟩

-- The texts that are written.
def writes (e : Emission) : List Text := e.made.map Write.spelling

-- All that was written.
def text (e : Emission) : Text := Text.join e.writes

-- The fault that comes of putting the texts together, if one does. What has no size is found when it is
-- written, before the rules end, and what is no text only when they have ended.
def fault (e : Emission) : Option RenderFault :=
  if e.made.all Write.hasSize then
    e.ending.or (if e.made.all Write.joins then none else some .notText)
  else some .wrongSort

end Emission

-- A place to write to: what was written so far, the last write first, and how many more writes it
-- takes, if there is a limit.
structure Sink where
  taken : List Write
  room : Option Nat

namespace Sink

def unlimited : Sink := ⟨[], none⟩

def limited (n : Nat) : Sink := ⟨[], some n⟩

-- What was written, in order.
def writes (s : Sink) : List Write := s.taken.reverse

-- The texts that were written.
def written (s : Sink) : List Text := s.writes.map Write.spelling

def write (s : Sink) (w : Write) : Except RenderFault Sink :=
  match s.room with
  | none => .ok ⟨w :: s.taken, none⟩
  | some 0 => .error .sinkClosed
  | some (n + 1) => .ok ⟨w :: s.taken, some n⟩

-- Makes writes until one is refused.
def writeAll (s : Sink) : List Write → Sink × Option RenderFault
  | [] => (s, none)
  | w :: rest =>
    match s.write w with
    | .ok s => writeAll s rest
    | .error fault => (s, some fault)

-- Carries out an emission. A fault of the sink comes before the one that ends the emission.
def receive (s : Sink) (e : Emission) : Sink × Option RenderFault :=
  let (s, fault) := s.writeAll e.made
  (s, fault.or e.ending)

end Sink

end GoCompact
