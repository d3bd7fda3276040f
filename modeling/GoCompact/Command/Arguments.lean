import GoCompact.Text.Quoted

namespace GoCompact.Arguments

open CodePoint (char)

-- What an argument is. After two dashes everything is an operand, and so are a single dash, a negative
-- number, and an argument with a blank in it that is no known option.
inductive Shape
  | operand
  | separator
  -- The help option, with what was attached to it, and whether in its short form.
  | help (short : Bool) (attached : Option (List CodePoint))
  | unknown
deriving DecidableEq, Repr

def helpName : List CodePoint := Text.toList "--help"

-- A dash and a number, whole or with a fraction.
def isNegativeNumber : List CodePoint → Bool
  | '-' :: cs =>
    let whole := cs.takeWhile Text.isDigit
    match cs.dropWhile Text.isDigit with
    | [] => !whole.isEmpty
    | '.' :: fraction => !fraction.isEmpty && fraction.all Text.isDigit
    | _ => false
  | _ => false

-- The name and the value of an argument with an equals sign.
def splitValue (cs : List CodePoint) : List CodePoint × Option (List CodePoint) :=
  match cs.dropWhile (· != char '=') with
  | [] => (cs, none)
  | _ :: value => (cs.takeWhile (· != char '='), some value)

-- Arguments that are no option although they begin with a dash.
def fallback (cs : List CodePoint) : Shape :=
  if isNegativeNumber cs || cs.contains ' ' then .operand else .unknown

def shapeOf (arg : Text) : Shape :=
  match arg.toList with
  | '-' :: '-' :: [] => .separator
  | '-' :: '-' :: cs =>
    let (name, value) := splitValue ('-' :: '-' :: cs)
    if name.isPrefixOf helpName then .help false value else fallback ('-' :: '-' :: cs)
  | ['-', 'h'] => .help true none
  | '-' :: 'h' :: '=' :: value => .help true (some value)
  | '-' :: 'h' :: attached => .help true (some attached)
  | '-' :: c :: cs => fallback ('-' :: c :: cs)
  | _ => .operand

-- What a help option with something attached comes to: the short form may be repeated, anything
-- else attached is an error.
def refused? (short : Bool) : List CodePoint → Option (List CodePoint)
  | [] => some []
  | c :: cs =>
    if short && c == 'h' then
      match cs with
      | [] => none
      | _ => refused? short cs
    else some (c :: cs)

inductive Outcome
  | path (name : Text)
  | help
  | usage (message : Text)
deriving DecidableEq, Repr

def requiredMessage : Text := "the following arguments are required: path"

def unrecognizedMessage (extras : List Text) : Text :=
  "unrecognized arguments: " ++ Text.intercalate " " extras

def attachedMessage (attached : List CodePoint) : Text :=
  "argument -h/--help: ignored explicit argument " ++ Text.quoted (Text.ofList attached)

def conclude (path : Option Text) (extras : List Text) : Outcome :=
  match path, extras with
  | none, _ => .usage requiredMessage
  | some name, [] => .path name
  | some _, extras => .usage (unrecognizedMessage extras)

-- Everything after two dashes. They are dropped where they stand next to the path.
def afterSeparator (path : Option Text) (adjacent : Bool) (extras : List Text) :
    List Text → Outcome
  | args =>
    match path, args with
    | none, name :: rest => conclude (some name) (extras ++ rest)
    | none, [] => conclude none (extras ++ [Text.ofString "--"])
    | some name, rest =>
      conclude (some name) (extras ++ (if adjacent then [] else [Text.ofString "--"]) ++ rest)

-- Goes through the arguments with the path and the surplus ones found so far; `adjacent` holds
-- directly after the path.
def gather (path : Option Text) (adjacent : Bool) (extras : List Text) :
    List Text → Outcome
  | [] => conclude path extras
  | arg :: rest =>
    match shapeOf arg with
    | .separator => afterSeparator path adjacent extras rest
    | .help _ none => .help
    | .help short (some attached) =>
      match refused? short attached with
      | none => .help
      | some attached => .usage (attachedMessage attached)
    | .unknown => gather path false (extras ++ [arg]) rest
    | .operand =>
      match path with
      | none => gather (some arg) true extras rest
      | some _ => gather path false (extras ++ [arg]) rest

def read (args : List Text) : Outcome := gather none false [] args

end GoCompact.Arguments
