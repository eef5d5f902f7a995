/-
  CaptureRing.Output — the current output file, and the ring of files written so far.

  A file is filled until one of the policy's triggers is met; then it is rotating, and
  whoever writes the next block opens the next file first, with a seed for it to start
  with. With a cap on the files kept, the oldest one's path is written over.

  Every operation gives its answer, the controller and the world after it, whether it
  went well or not.
-/

import CaptureRing.Condition
import CaptureRing.Disk.Path
import CaptureRing.Text.Digits
import CaptureRing.World

namespace CaptureRing

inductive OutputState where
  | filling
  /-- The current file met a trigger, the next block goes to a new one. -/
  | rotating
  | closed
  deriving DecidableEq, Repr

/-- The file being written, or the last one that was. -/
structure OutputFile where
  path : String
  bytes : Nat
  packets : Nat
  /-- When it was opened, in nanoseconds. -/
  opened : Nat
  deriving DecidableEq, Repr

structure Output where
  /-- What file names are made from. -/
  template : String
  policy : RotationPolicy
  state : OutputState
  /-- A file is open for writing. -/
  handle : Bool
  current : Option OutputFile
  /-- How many files were to be opened so far. -/
  sequence : Nat
  /-- The paths of the files kept, oldest first. -/
  ring : List String
  deriving DecidableEq, Repr

namespace Output

def make (template : String) (policy : RotationPolicy) : Output :=
  ⟨template, policy, .closed, false, none, 0, []⟩

/-! ## Names -/

/-- The name of the file of this number and date: `stem_NNNNN_date.extension`. -/
def numberedName (template : String) (number : Nat) (date : String) : String :=
  let path := template.toList
  let name := (Path.fileName? path).getD []
  let extension := match Path.extension? name with
    | some e => '.' :: e
    | none => []
  String.ofList (Path.withFileName
    (Path.stem name ++ '_' :: Text.zeroFill 5 (Text.decimal number) ++ '_' :: date.toList
      ++ extension) path)

def reused? (o : Output) : Option (String × List String) :=
  match o.policy.ring, o.ring with
  | some cap, oldest :: rest =>
    if o.policy.isEnabled ∧ 0 < cap ∧ cap.toNat ≤ o.ring.length then some (oldest, rest) else none
  | _, _ => none

variable {σ : Type} [World σ]

def freshPath (o : Output) (w : σ) : String × σ :=
  if o.policy.isEnabled then
    let (m, w) := World.now w
    (numberedName o.template o.sequence m.calendar, w)
  else (o.template, w)

/-- The path of the next file; one that is written over leaves the ring. -/
def nextPath (o : Output) (w : σ) : String × Output × σ :=
  let o := { o with sequence := o.sequence + 1 }
  match o.reused? with
  | some (oldest, rest) => (oldest, { o with ring := rest }, w)
  | none =>
    let (path, w) := o.freshPath w
    (path, o, w)

/-! ## Writing -/

def meets (now : Nat) (f : OutputFile) : Trigger → Bool
  | .packets n => n.toNat ≤ f.packets
  | .bytes n => n.toNat ≤ f.bytes
  | .duration d => d.nanos ≤ now - f.opened

/-- Looks at the triggers; true when the file that is filled has just met one. -/
def checkRotation (o : Output) (w : σ) : Bool × Output × σ :=
  match o.state, o.current with
  | .filling, some f =>
    let (m, w) := World.now w
    if o.policy.triggers.any (meets m.instant f) then
      (true, { o with state := .rotating }, w)
    else (false, o, w)
  | _, _ => (false, o, w)

/-- Writes a block; true when the file has met a trigger with it. -/
def write (data : Bytes) (packet : Bool) (o : Output) (w : σ) :
    Except CaptureError Bool × Output × σ :=
  match o.handle, o.current with
  | true, some f =>
    match World.write data w with
    | (.error e, w) => (.error (.outputWrite f.path e), o, w)
    | (.ok (), w) =>
      let f := { f with bytes := f.bytes + data.length }
      if packet then
        let (met, o, w) :=
          checkRotation { o with current := some { f with packets := f.packets + 1 } } w
        (.ok met, o, w)
      else (.ok false, { o with current := some f }, w)
  | _, _ => (.error (.outputWrite o.template .noFileOpen), o, w)

def close (o : Output) (w : σ) : Except CaptureError Unit × Output × σ :=
  if o.handle then
    let path := (o.current.map (·.path)).getD ""
    let o := { o with handle := false }
    match World.release w with
    | (.error e, w) => (.error (.outputWrite path e), o, w)
    | (.ok (), w) => (.ok (), { o with state := .closed }, w)
  else (.ok (), { o with state := .closed }, w)

def start (path : String) (now : Nat) (o : Output) : Output :=
  { o with
    state := .filling
    handle := true
    current := some ⟨path, 0, 0, now⟩
    ring := o.ring.filter (· ≠ path) ++ [path] }

/-- Seals the current file and opens the next one, which starts with `seed`. -/
def openNext (seed : Bytes) (o : Output) (w : σ) : Except CaptureError Unit × Output × σ :=
  match o.close w with
  | (.error e, o, w) => (.error e, o, w)
  | (.ok (), o, w) =>
    let (path, o, w) := o.nextPath w
    match World.create path w with
    | (.error e, w) => (.error (.rotationFailure path e), o, w)
    | (.ok (), w) =>
      let (m, w) := World.now w
      let o := o.start path m.instant
      if seed.isEmpty then (.ok (), o, w)
      else
        match o.write seed false w with
        | (.error e, o, w) => (.error e, o, w)
        | (.ok _, o, w) => (.ok (), o, w)

/-- Lets go of the controller: what is held back for an open file is still written. -/
def abandon (o : Output) (w : σ) : σ := if o.handle then (World.release w).2 else w

def files (o : Output) : List String := o.ring

end Output

end CaptureRing
