import GoCompact.Minify

namespace GoCompact

-- A reader of one source, made for later use. It keeps the nesting limit that is active when it is made,
-- and how deep constructs are nested and at what level it reads, as its last run left them.
structure Reader where
  source : Text
  file : Option Text
  limit : Limit
  depth : Nat
  level : Int
deriving DecidableEq, Repr

namespace Reader

def new (source : Text) (file : Option Text) (limit : Limit) : Reader := ⟨source, file, limit, 0, 0⟩

def start (r : Reader) : Reader := { r with depth := 0, level := 0 }

-- A refusal leaves the level where it was met. The depth is counted back, except for the level that
-- could not be entered.
def refused (r : Reader) (refusal : Refusal) : Reader :=
  let entering := refusal.cause = .nestingTooDeep ∨ refusal.cause = .limitNotANumber
  { r with depth := r.depth + if entering then 1 else 0, level := refusal.level }

-- Reads the source, and gives the reader as the run leaves it. A text without tokens is refused before
-- anything is counted.
def run (r : Reader) (fragment : Fragment) : Reader × Except Diagnostic Tree :=
  match Lexer.tokens r.source r.file with
  | .error d => (r, .error d)
  | .ok tokens =>
    let r := r.start
    match fragment.parseIn ⟨r.level, r.depth, r.limit⟩ tokens with
    | .ok t => (r, .ok t)
    | .error refusal => (r.refused refusal, .error (refusal.diagnostic r.file))

end Reader

-- The active settings, and the readers made for later use.
structure Session where
  settings : Settings
  -- The settings before each context that is still open, the innermost first.
  outer : List Settings
  readers : List (Text × Reader)

inductive Step
  | get
  | set (settings : Settings)
  | reset
  | enter (settings : Settings)
  | leave
  | fail
  | minify (source : Text) (file : Option Text)
  | render (fragment : Fragment) (source : Text)
  | make (id : Text) (source : Text) (file : Option Text)
  | run (id : Text) (fragment : Fragment)
  | unknown

-- What a step shows besides the settings after it.
inductive StepResult
  | nothing
  | text (text : Text)
  | fault (fault : Fault)
  -- A failure that left its context is passed on.
  | passedOn
  | unknownReader
  | unknownStep

namespace StepResult

def ofText : Except Fault Text → StepResult
  | .ok written => .text written
  | .error reason => .fault reason

end StepResult

namespace Session

def new (settings : Settings) : Session := ⟨settings, [], []⟩

-- Brings back the settings before the innermost open context.
def leave (s : Session) : Session :=
  match s.outer with
  | [] => s
  | previous :: rest => { s with settings := previous, outer := rest }

def step (s : Session) : Step → Session × StepResult
  | .get => (s, .nothing)
  | .set settings => ({ s with settings := settings }, .nothing)
  | .reset => ({ s with settings := .standard }, .nothing)
  | .enter settings => ({ s with settings := settings, outer := s.settings :: s.outer }, .nothing)
  | .leave => (s.leave, .nothing)
  | .fail => (s.leave, .passedOn)
  | .minify source file => (s, .ofText (GoCompact.minify s.settings source file))
  | .render fragment source =>
    (s, .ofText (compact fragment s.settings.limit source none))
  | .make id source file =>
    ({ s with readers := (id, .new source file s.settings.limit) :: s.readers }, .nothing)
  | .run id fragment =>
    match s.readers.lookup id with
    | some r =>
      let (r, read) := r.run fragment
      ({ s with readers := (id, r) :: s.readers }, .ofText (writeRead read))
    | none => (s, .unknownReader)
  | .unknown => (s, .unknownStep)

-- The settings after each step, with what the step shows.
def run (s : Session) : List Step → List (Settings × StepResult)
  | [] => []
  | step :: rest =>
    let (s, result) := s.step step
    (s.settings, result) :: run s rest

end Session

end GoCompact
