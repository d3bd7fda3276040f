import GoCompact.Command.Run

namespace GoCompact.Command

-- A text for the system, which knows no surrogates.
def plain (t : Text) : String :=
  String.ofList (t.toList.map fun
    | .char c => c
    | .surrogate _ => '\uFFFD')

-- What a path leads to in the file system.
def findFile (path : Path) : IO Target := do
  try
    let bytes ← IO.FS.readBinFile (plain path.text)
    return .file bytes.toList
  catch
    | .noFileOrDirectory _ _ _ => return .missing
    | .invalidArgument _ 36 _ => return .nameTooLong
    | .inappropriateType _ 20 _ => return .notADirectory
    | .inappropriateType _ _ _ => return .directory
    | e => throw e

end GoCompact.Command

open GoCompact in
def main (args : List String) : IO UInt32 := do
  let args := args.map Text.ofString
  let target ← match Arguments.read args with
    | .path name => Command.findFile (Path.ofString name)
    | _ => pure Target.missing
  match Command.run Settings.standard (fun _ => target) args with
  | .ok report =>
    (← IO.getStdout).putStr (Command.plain report.output)
    (← IO.getStderr).putStr (Command.plain report.errors)
    return UInt32.ofNat report.status
  | .error _ => return 1
