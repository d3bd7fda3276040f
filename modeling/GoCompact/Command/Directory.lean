import GoCompact.Text.Basic

namespace GoCompact

-- A path in normal form: without empty parts and single points.
structure Path where
  -- The slashes in front of an absolute path.
  root : Text
  parts : List Text
deriving DecidableEq, Repr

namespace Path

open CodePoint (char)

-- Two slashes in front are kept, more count as one.
def ofString (s : Text) : Path :=
  let slashes := (s.toList.takeWhile (· == char '/')).length
  { root := if slashes = 0 then "" else if slashes = 2 then "//" else "/"
    parts := ((s.toList.splitOn (char '/')).map Text.ofList).filter fun part =>
      part != "" && part != "." }

def text (p : Path) : Text :=
  if p.root = "" ∧ p.parts = [] then "." else p.root ++ Text.intercalate "/" p.parts

end Path

-- What a path leads to.
inductive Target
  | file (bytes : List UInt8)
  | missing
  | notADirectory
  | directory
  | nameTooLong

-- The files and directories below a working directory by their paths.
structure Directory where
  directories : List (List Text)
  files : List (List Text × List UInt8)

namespace Path

-- The most bytes that a name, and a path as a whole, may have.
def longestName : Nat := 255

def longestPath : Nat := 4095

-- The number of bytes of a code point in a path. The surrogates for the bytes from 128 on stand for one
-- byte that is no part of a character, and no other surrogate can be in a path.
def byteCount? : CodePoint → Option Nat
  | .char c => some c.utf8Size
  | .surrogate n => if 0x480 ≤ n.val ∧ n.val < 0x500 then some 1 else none

def byteCount (t : Text) : Nat := (t.toList.filterMap byteCount?).foldl (· + ·) 0

def isLongName (part : Text) : Bool := longestName < byteCount part

end Path

namespace Directory

def holdsDirectory (d : Directory) (place : List Text) : Bool :=
  place.isEmpty || d.directories.any (fun p => place.isPrefixOf p) ||
    d.files.any (fun f => place.isPrefixOf f.1 && place != f.1)

-- Follows the parts of a path. Nothing is known of what lies outside the working directory.
def follow (d : Directory) : Option (List Text) → List Text → Target
  | _, [] => .directory
  | none, part :: rest =>
    if part = ".." then follow d none rest
    else if Path.isLongName part then .nameTooLong
    else .missing
  | some place, part :: rest =>
    if part = ".." then
      if place.isEmpty then follow d none rest else follow d (some place.dropLast) rest
    else if Path.isLongName part then .nameTooLong
    else
      let next := place ++ [part]
      match d.files.lookup next with
      | some bytes => if rest.isEmpty then .file bytes else .notADirectory
      | none => if d.holdsDirectory next then follow d (some next) rest else .missing

def find (d : Directory) (p : Path) : Target :=
  if Path.longestPath < Path.byteCount p.text then .nameTooLong
  else d.follow (if p.root = "" then some [] else none) p.parts

end Directory

end GoCompact
