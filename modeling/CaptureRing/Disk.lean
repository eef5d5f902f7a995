/-
  CaptureRing.Disk — the files that a capture reads and writes.

  A disk holds directories and regular files below the root, and a few devices in `/dev`.
  A file is known by a number: a name leads to it, and what is open keeps it, so that a
  file whose name is gone can still be written. A path is followed part by part; every
  part but the last has to be a directory.

  Proved: what is written to a file stands behind what it held (`content_append_self`), and
  no other file changes (`content_append_of_ne`).
-/

import CaptureRing.Disk.Path
import CaptureRing.Error
import CaptureRing.Reader
import CaptureRing.Text.Utf8

namespace CaptureRing

inductive Device where
  /-- Takes nothing. -/
  | full
  | zero
  | null
  deriving DecidableEq, Repr

inductive Target where
  | file (number : Nat)
  | device (d : Device)
  deriving DecidableEq, Repr

/-- A place: the parts of the path from the root. -/
abbrev Place := List (List Char)

inductive Entry where
  | directory
  | target (t : Target)
  deriving DecidableEq, Repr

structure Disk where
  /-- The working directory. -/
  working : Place
  directories : List Place
  names : List (Place × Nat)
  /-- What was written to each file, by its number, the last of it first. -/
  written : List (List Bytes)
  deriving DecidableEq, Repr

namespace Disk

def devices : List (Place × Device) := [
  (["dev".toList, "full".toList], .full), (["dev".toList, "zero".toList], .zero),
  (["dev".toList, "null".toList], .null)]

def standardDirectories : List Place := ["dev", "etc", "proc", "tmp", "usr"].map fun s => [s.toList]

def empty : Disk := ⟨["work".toList], [] :: ["work".toList] :: standardDirectories, [], []⟩

def entry? (p : Place) (d : Disk) : Option Entry :=
  if d.directories.contains p then some .directory
  else match d.names.find? (·.1 == p) with
    | some (_, n) => some (.target (.file n))
    | none => (devices.find? (·.1 == p)).map fun x => .target (.device x.2)

def content (n : Nat) (d : Disk) : Bytes := (d.written[n]?.getD []).reverse.flatten

/-! ## Following a path -/

def maxPart : Nat := 255

def maxPath : Nat := 4095

def isTooLong (part : List Char) : Bool := maxPart < (Utf8.encode part).length

/-- From a directory into the part below it, which has to be a directory too. -/
def enter (d : Disk) (dir : Place) (part : List Char) : Except IoFault Place :=
  if part = [] ∨ part = ['.'] then .ok dir
  else if part = ['.', '.'] then .ok dir.dropLast
  else if isTooLong part then .error .nameTooLong
  else match d.entry? (dir ++ [part]) with
    | some .directory => .ok (dir ++ [part])
    | some (.target _) => .error .notADirectory
    | none => .error .noSuchFile

/-- Where a path leads: a directory, and a name in it unless the path ends in a part that
    only moves between directories. -/
structure Spot where
  directory : Place
  name : Option (List Char)
  /-- A slash stands behind the name. -/
  slash : Bool
  deriving DecidableEq, Repr

def locate (path : String) (d : Disk) : Except IoFault Spot := do
  let cs := path.toList
  if cs.contains '\x00' then throw .nulInPath
  else if cs.isEmpty then throw .noSuchFile
  else if maxPath < (Utf8.encode cs).length then throw .nameTooLong
  else
    let start := if cs.head? = some '/' then [] else d.working
    let ps := (Text.split '/' cs).filter (!·.isEmpty)
    let directory ← ps.dropLast.foldlM d.enter start
    match ps.getLast? with
    | none => return ⟨directory, none, true⟩
    | some part =>
      if part = ['.'] ∨ part = ['.', '.'] then return ⟨← d.enter directory part, none, true⟩
      else return ⟨directory, some part, cs.getLast? = some '/'⟩

/-! ## Files -/

/-- Opens a file for writing, without content; it is made if it is not there. -/
def create (path : String) (d : Disk) : Except IoFault (Target × Disk) := do
  let spot ← d.locate path
  match spot.name with
  | none => throw .isADirectory
  | some name =>
    if spot.slash then throw .isADirectory
    else if isTooLong name then throw .nameTooLong
    else
      let place := spot.directory ++ [name]
      match d.entry? place with
      | some .directory => throw .isADirectory
      | some (.target (.file n)) => return (.file n, { d with written := d.written.set n [] })
      | some (.target t) => return (t, d)
      | none =>
        return (.file d.written.length,
          { d with names := d.names ++ [(place, d.written.length)],
                   written := d.written ++ [[]] })

def append (n : Nat) (bs : Bytes) (d : Disk) : Disk :=
  { d with written := d.written.modify n (bs :: ·) }

def put (t : Target) (bs : Bytes) (d : Disk) : Except IoFault Disk :=
  match t with
  | .file n => .ok (d.append n bs)
  | .device .full => if bs.isEmpty then .ok d else .error .noSpace
  | .device .zero | .device .null => .ok d

def write (path : String) (bs : Bytes) (d : Disk) : Except IoFault Disk := do
  let (t, d) ← d.create path
  d.put t bs

def open? (path : String) (d : Disk) : Except IoFault Entry := do
  let spot ← d.locate path
  match spot.name with
  | none => return .directory
  | some name =>
    if isTooLong name then throw .nameTooLong
    else match d.entry? (spot.directory ++ [name]) with
      | none => throw .noSuchFile
      | some .directory => return .directory
      | some (.target t) => if spot.slash then throw .notADirectory else return .target t

/-- A reader of what a path leads to. A directory can be opened, but not read; of a
    device's zeros four are as good as any number, for no stream starts with them. -/
def reader (path : String) (d : Disk) : Except IoFault Reader := do
  match ← d.open? path with
  | .directory => return ⟨[.failed], none⟩
  | .target (.file n) => return Reader.ofBytes (d.content n)
  | .target (.device .null) => return Reader.ofBytes []
  | .target (.device _) => return Reader.ofBytes [0, 0, 0, 0]

/-- All bytes of what a path leads to, if it can be read and they end. -/
def bytes? (path : String) (d : Disk) : Option Bytes :=
  match d.open? path with
  | .ok (.target (.file n)) => some (d.content n)
  | .ok (.target (.device .null)) => some []
  | _ => none

def regular? (path : String) (d : Disk) : Option Bytes :=
  match d.open? path with
  | .ok (.target (.file n)) => some (d.content n)
  | _ => none

/-! ## Directories -/

def makePlace (d : Disk) (dir : Place) : List (List Char) → Option Disk
  | [] => some d
  | part :: ps =>
    if part = [] ∨ part = ['.'] then makePlace d dir ps
    else if part = ['.', '.'] then makePlace d dir.dropLast ps
    else if isTooLong part then none
    else
      let place := dir ++ [part]
      match d.entry? place with
      | some .directory => makePlace d place ps
      | some (.target _) => none
      | none => makePlace { d with directories := d.directories ++ [place] } place ps

/-- Makes a directory and those above it; `none` where something else is in the way. -/
def makeDirectories (path : String) (d : Disk) : Option Disk :=
  let cs := path.toList
  if cs.contains '\x00' then none
  else d.makePlace (if cs.head? = some '/' then [] else d.working) (Text.split '/' cs)

def without (gone : Place → Bool) (d : Disk) : Disk :=
  { d with directories := d.directories.filter (!gone ·), names := d.names.filter (!gone ·.1) }

/-- Removes a directory and all below it; false where there is none. One that is named by a
    dot loses what is below it and stays. -/
def removeDirectory (path : String) (d : Disk) : Bool × Disk :=
  match d.locate path with
  | .ok ⟨dir, some name, _⟩ =>
    let place := dir ++ [name]
    if d.directories.contains place then (true, d.without place.isPrefixOf) else (false, d)
  | .ok ⟨dir, none, _⟩ =>
    if ((Text.split '/' path.toList).filter (!·.isEmpty)).getLast? = some ['.'] then
      (false, d.without fun p => dir.isPrefixOf p && p != dir)
    else (false, d)
  | _ => (false, d)

/-! ## Small facts -/

theorem content_append_self {n : Nat} {d : Disk} (h : n < d.written.length) (bs : Bytes) :
    (d.append n bs).content n = d.content n ++ bs := by
  simp [append, content, List.getElem?_eq_getElem h]

theorem content_append_of_ne {n m : Nat} (h : n ≠ m) (bs : Bytes) (d : Disk) :
    (d.append n bs).content m = d.content m := by
  simp [append, content, h]

end Disk

end CaptureRing
