import GoCompact.Command.Arguments
import GoCompact.Command.Directory
import GoCompact.Command.Utf8
import GoCompact.Minify

namespace GoCompact.Command

structure Report where
  status : Nat
  output : Text
  errors : Text
deriving DecidableEq, Repr

-- What stops the command before it can report: a path that cannot be written in bytes, a path that no
-- file can have, or a limit on nesting that is no number.
inductive Abort
  | unwritablePath
  | unusablePath
  | unusableLimit
deriving DecidableEq, Repr

def programName : Text := "gomin"

def usageLine : Text := "usage: " ++ programName ++ " [-h] path\n"

def helpText : Text :=
  usageLine ++ "\nMinify a Go source file\n\npositional arguments:\n  path        Go source file\n\n" ++
    "options:\n  -h, --help  show this help message and exit\n"

def failed (message : Text) : Report := ⟨1, "", programName ++ ": " ++ message ++ "\n"⟩

def misused (message : Text) : Report :=
  ⟨2, "", usageLine ++ programName ++ ": error: " ++ message ++ "\n"⟩

-- A failure of the system to give a file.
def systemMessage (number : Nat) (text : Text) (path : Path) : Text :=
  "[Errno " ++ toString number ++ "] " ++ text ++ ": " ++ Text.quoted path.text

def faultMessage : Fault → Text
  | .reading d => d.text
  | .writing fault => fault.message?.getD ""

def isLimitFault : Fault → Bool
  | .reading d => d.cause == .limitNotANumber
  | .writing _ => false

-- Minifies the bytes of a file.
def minifyBytes (settings : Settings) (path : Path) (bytes : List UInt8) : Except Abort Report :=
  match Utf8.decode bytes with
  | .error fault => return failed fault.message
  | .ok cs =>
    match minify settings (Text.ofList (Utf8.unifyLines cs)) (some path.text) with
    | .ok text => return ⟨0, text, ""⟩
    | .error fault =>
      if isLimitFault fault then throw .unusableLimit else return failed (faultMessage fault)

-- Minifies what a path leads to.
def minifyTarget (settings : Settings) (path : Path) : Target → Except Abort Report
  | .file bytes => minifyBytes settings path bytes
  | .missing => return failed (systemMessage 2 "No such file or directory" path)
  | .notADirectory => return failed (systemMessage 20 "Not a directory" path)
  | .directory => return failed (systemMessage 21 "Is a directory" path)
  | .nameTooLong => return failed (systemMessage 36 "File name too long" path)

-- Carries out a command line, given what its path leads to.
def run (settings : Settings) (find : Path → Target) (args : List Text) : Except Abort Report :=
  match Arguments.read args with
  | .help => return ⟨0, helpText, ""⟩
  | .usage message => return misused message
  | .path name =>
    let path := Path.ofString name
    if name.toList.any fun c => (Path.byteCount? c).isNone then throw .unwritablePath
    else if name.toList.contains '\x00' then throw .unusablePath
    else minifyTarget settings path (find path)

end GoCompact.Command
