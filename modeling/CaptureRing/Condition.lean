/-
  CaptureRing.Condition — thresholds that end an output file or a whole capture.

  A condition is written `key:value`, the value a positive number: whole for `packets`
  and `files`, in thousands of bytes for `filesize`, in seconds for `duration`. Blanks
  around key and value do not count. Numbers are read as binary64 values; one beyond
  64 bits becomes the greatest threshold there is. A duration that no span of time can
  hold breaks the parser down.

  A rotation policy has triggers, and may have a cap on the files kept. Without a
  trigger there is no rotation, whatever the cap.
-/

import CaptureRing.Duration
import CaptureRing.Error
import CaptureRing.Number.Numeral
import CaptureRing.Text.Blank

namespace CaptureRing

inductive Condition where
  | packets (n : UInt64)
  | bytes (n : UInt64)
  | duration (d : Duration)
  | files (n : UInt64)
  deriving DecidableEq, Repr

def saturate64 (n : Nat) : UInt64 := UInt64.ofNat (min n (2 ^ 64 - 1))

namespace Condition

def count? (d : Dyadic) : Option UInt64 :=
  if d.isWhole then some (saturate64 d.floor) else none

/-- A number of thousands, rounded like every binary64 product and then cut to whole bytes;
    at least one. -/
def thousands? (d : Dyadic) : Option UInt64 :=
  let n := match binary64.nearest (d.num * 1000) d.den with
    | some p => saturate64 p.floor
    | none => saturate64 (2 ^ 64)
  if n = 0 then none else some n

def ofValue (text key : String) (value : Dyadic) : Result Condition :=
  let refused := CaptureError.invalidCondition text
  let orRefuse (c : Option Condition) : Result Condition := c.elim (fail refused) .ok
  if key = "packets" then orRefuse ((count? value).map .packets)
  else if key = "filesize" then orRefuse ((thousands? value).map .bytes)
  else if key = "duration" then ((Duration.ofSeconds? value).map .duration).elim (.error .crash) .ok
  else if key = "files" then orRefuse ((count? value).map .files)
  else fail refused

/-- Reads a condition; a refused text is part of the error. -/
def parse (s : String) : Result Condition :=
  match Text.splitOnce? ':' s.toList with
  | none => fail (.invalidCondition s)
  | some (key, value) =>
    match positiveNumber? (Text.trim value) with
    | none => fail (.invalidCondition s)
    | some d => ofValue s (String.ofList (Text.trim key)) d

end Condition

/-! ## Rotation -/

inductive Trigger where
  | packets (n : UInt64)
  | bytes (n : UInt64)
  | duration (d : Duration)
  deriving DecidableEq, Repr

structure RotationPolicy where
  triggers : List Trigger
  /-- Most files kept. -/
  ring : Option UInt64
  deriving DecidableEq, Repr

namespace RotationPolicy

def never : RotationPolicy := ⟨[], none⟩

def isEnabled (p : RotationPolicy) : Bool := !p.triggers.isEmpty

/-- Adds a condition; a number of files is the cap on those kept. -/
def add (c : Condition) (p : RotationPolicy) : RotationPolicy :=
  match c with
  | .packets n => { p with triggers := p.triggers ++ [.packets n] }
  | .bytes n => { p with triggers := p.triggers ++ [.bytes n] }
  | .duration d => { p with triggers := p.triggers ++ [.duration d] }
  | .files n => { p with ring := some n }

def condition (s : String) (p : RotationPolicy) : Result RotationPolicy :=
  (Condition.parse s).map fun c => p.add c

end RotationPolicy

/-! ## Ending a capture -/

abbrev Autostop := List Condition

def Autostop.condition (s : String) (a : Autostop) : Result Autostop :=
  (Condition.parse s).map fun c => a ++ [c]

end CaptureRing
