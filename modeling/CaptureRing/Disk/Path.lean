/-
  CaptureRing.Disk.Path — the text of a path, and the file name at its end.

  Parts stand between slashes. Empty parts and single dots name nothing, except as the
  first part, where an empty one is the root and a dot the working directory. A path
  that ends in the root, a dot or two dots has no file name.

  A name is cut at its last dot into a stem and an extension; a dot in front belongs
  to the stem.
-/

import CaptureRing.Text.Blank

namespace CaptureRing.Path

def isVoid (part : List Char) : Bool := part == [] || part == ['.']

/-- The parts of a path up to the last one that names something. -/
def parts (path : List Char) : List (List Char) :=
  match Text.split '/' path with
  | [] => []
  | first :: rest => first :: (rest.reverse.dropWhile isVoid).reverse

def fileName? (path : List Char) : Option (List Char) :=
  (parts path).getLast?.filter fun s => !(isVoid s || s == ['.', '.'])

def join (ps : List (List Char)) : List Char := (ps.intersperse ['/']).flatten

def parent (path : List Char) : List Char :=
  match (parts path).dropLast with
  | [] => []
  | first :: rest =>
    let rest := (rest.reverse.dropWhile isVoid).reverse
    if first.isEmpty && rest.isEmpty then ['/'] else join (first :: rest)

def push (name directory : List Char) : List Char :=
  match directory.getLast? with
  | none => name
  | some c => if c = '/' then directory ++ name else directory ++ '/' :: name

/-- The path with another file name, or with a first one behind it. -/
def withFileName (name path : List Char) : List Char :=
  push name (if (fileName? path).isSome then parent path else path)

/-- What stands in front of the last dot and behind it, if there is something in front. -/
def splitName? (name : List Char) : Option (List Char × List Char) :=
  match Text.splitOnce? '.' name.reverse with
  | some (extension, stem) =>
    if stem.isEmpty then none else some (stem.reverse, extension.reverse)
  | none => none

def stem (name : List Char) : List Char := ((splitName? name).map (·.1)).getD name

def extension? (name : List Char) : Option (List Char) := (splitName? name).map (·.2)

end CaptureRing.Path
