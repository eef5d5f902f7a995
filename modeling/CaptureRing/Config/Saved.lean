/-
  CaptureRing.Config.Saved — a configuration as bytes.

  Numbers up to 250 take one byte; greater ones a marker, 251, 252 or 253, and two, four
  or eight bytes, little endian. Lists and texts have their length in front, an optional
  value a zero or a one, an alternative its index. Readers cannot be saved.

  Decoding is lenient where encoding is not: it takes a number in more bytes than it
  needs, nanoseconds beyond a second, and bytes behind the end.

  There is room for every text of fewer than 2^63 bytes. So where bytes are missing behind
  such a length the text is refused, also where it is so great (from about 2^47 on) that a
  machine would break down before it read the first of them.
-/

import CaptureRing.Bytes.Order
import CaptureRing.Config
import CaptureRing.Text.Utf8

namespace CaptureRing.Saved

/-! ## Encoding -/

def putNat (n : Nat) : Bytes :=
  if n < 251 then [UInt8.ofNat n]
  else if n < 2 ^ 16 then 251 :: digits 2 n
  else if n < 2 ^ 32 then 252 :: digits 4 n
  else 253 :: digits 8 n

def put64 (n : UInt64) : Bytes := putNat n.toNat

def putBytes (bs : Bytes) : Bytes := putNat bs.length ++ bs

def putText (s : String) : Bytes := putBytes (Utf8.encode s.toList)

def putList {α : Type} (put : α → Bytes) (xs : List α) : Bytes :=
  putNat xs.length ++ xs.flatMap put

def putOption {α : Type} (put : α → Bytes) : Option α → Bytes
  | none => [0]
  | some a => 1 :: put a

def putDuration (d : Duration) : Bytes := put64 d.secs ++ putNat d.subsecNanos.toNat

/-- `none` for what cannot be saved. -/
def putSource : Source → Option Bytes
  | .fifo path => some (putNat 0 ++ putText path)
  | .file path => some (putNat 1 ++ putText path)
  | .stdin => some (putNat 2)
  | .interface name => some (putNat 3 ++ putText name)
  | .reader _ => none

def putTrigger : Trigger → Bytes
  | .packets n => putNat 0 ++ put64 n
  | .bytes n => putNat 1 ++ put64 n
  | .duration d => putNat 2 ++ putDuration d

def putCondition : Condition → Bytes
  | .packets n => putNat 0 ++ put64 n
  | .bytes n => putNat 1 ++ put64 n
  | .duration d => putNat 2 ++ putDuration d
  | .files n => putNat 3 ++ put64 n

def putRotation (p : RotationPolicy) : Bytes :=
  putList putTrigger p.triggers ++ putOption put64 p.ring

/-! ## Decoding -/

abbrev Decoder := StateT Bytes Result

def refuse {α : Type} : Decoder α := fun _ => fail .configRead

def takeBytes (n : Nat) : Decoder Bytes := fun bs =>
  match split? n bs with
  | some r => .ok r
  | none => fail .configRead

def getByte : Decoder UInt8
  | b :: bs => .ok (b, bs)
  | [] => fail .configRead

/-- A number of at most `width` bytes, four or eight. -/
def getNat (width : Nat) : Decoder Nat := do
  let b ← getByte
  if b < 251 then return b.toNat
  else if b = 251 then return ofDigits (← takeBytes 2)
  else if b = 252 then return ofDigits (← takeBytes 4)
  else if b = 253 ∧ width = 8 then return ofDigits (← takeBytes 8)
  else refuse

def get64 : Decoder UInt64 := return UInt64.ofNat (← getNat 8)

def getIndex : Decoder Nat := getNat 4

/-- A text; a length from 2^63 on breaks the decoder down, and any other is taken to fit into
    memory. -/
def getText : Decoder String := do
  let n ← getNat 8
  if 2 ^ 63 ≤ n then throw .crash
  else
    let bs ← takeBytes n
    match Utf8.decode? bs with
    | some cs => return String.ofList cs
    | none => refuse

def getTimes {α : Type} (get : Decoder α) : Nat → Decoder (List α)
  | 0 => return []
  | n + 1 => do
    let a ← get
    let as ← getTimes get n
    return a :: as

def getList {α : Type} (get : Decoder α) : Decoder (List α) := do
  getTimes get (← getNat 8)

def getOption {α : Type} (get : Decoder α) : Decoder (Option α) := do
  let b ← getByte
  if b = 0 then return none
  else if b = 1 then return some (← get)
  else refuse

def getDuration : Decoder Duration := do
  let secs ← get64
  let nanos ← getNat 4
  match Duration.ofParts? secs (UInt32.ofNat nanos) with
  | some d => return d
  | none => refuse

def getSource : Decoder Source := do
  match ← getIndex with
  | 0 => return .fifo (← getText)
  | 1 => return .file (← getText)
  | 2 => return .stdin
  | 3 => return .interface (← getText)
  | _ => refuse

def getTrigger : Decoder Trigger := do
  match ← getIndex with
  | 0 => return .packets (← get64)
  | 1 => return .bytes (← get64)
  | 2 => return .duration (← getDuration)
  | _ => refuse

def getCondition : Decoder Condition := do
  match ← getIndex with
  | 0 => return .packets (← get64)
  | 1 => return .bytes (← get64)
  | 2 => return .duration (← getDuration)
  | 3 => return .files (← get64)
  | _ => refuse

def getConfig : Decoder Config := do
  let sources ← getList getSource
  let triggers ← getList getTrigger
  let ring ← getOption get64
  let autostop ← getList getCondition
  let output ← getText
  let snaplen ← get64
  let timeout ← takeBytes 4
  let capacity ← get64
  return ⟨sources, ⟨triggers, ring⟩, autostop, output, snaplen, UInt32.ofNat (ofDigits timeout),
    capacity⟩

end CaptureRing.Saved

namespace CaptureRing.Config

open Saved in
def encode (c : Config) : Result Bytes :=
  match c.sources.mapM putSource with
  | none => fail .configWrite
  | some sources =>
    .ok (putNat sources.length ++ sources.flatten ++ putRotation c.rotation
      ++ putList putCondition c.autostop ++ putText c.output ++ put64 c.snaplen
      ++ digits 4 c.timeout.toNat ++ put64 c.capacity)

def decode (bs : Bytes) : Result Config := (Saved.getConfig bs).map (·.1)

end CaptureRing.Config
