/-
  CaptureRing.Stream — cutting what a reader delivers into blocks.

  The first four bytes tell the format. A sectioned stream is then read block by block:
  twelve bytes give the length, and the section header last read gives the byte order.
  A classic capture is a file header and records.

  The first result that is not a block ends the stream: every later one is the end, and
  the reader is not asked again. Once the format is known, a block that is cut short or
  a section header with a wrong magic means that the stream is corrupt.

  Proved: what ends a stream ends it for good (`next_of_finished`, `finished_next`).
-/

import CaptureRing.Block
import CaptureRing.Reader

namespace CaptureRing

inductive StreamFormat where
  | sectioned
  | classic (format : PcapFormat)
  deriving DecidableEq, Repr

structure Stream where
  reader : Reader
  /-- Known once the first four bytes are read. -/
  format : Option StreamFormat
  /-- The byte order of the current section. -/
  order : Option ByteOrder
  finished : Bool
  deriving DecidableEq, Repr

/-- A step of reading a stream. Where it fails it has still read. -/
abbrev Pull := ExceptT Failure (StateM Stream)

namespace Stream

def ofReader (r : Reader) : Stream := ⟨r, none, none, false⟩

def fill (n : Nat) : Pull Bytes := do
  let s ← get
  let (got, reader) := s.reader.fill n
  set { s with reader }
  match got with
  | some bs => return bs
  | none => throw (.error .io)

/-- The bytes with `n` more behind them; less is a block cut short. -/
def extend (buf : Bytes) (n : Nat) : Pull Bytes := do
  let got ← fill n
  if got.length < n then
    throw (.error (.truncatedBlock (buf.length + n) (buf.length + got.length)))
  else return buf ++ got

/-- The first `n` bytes of a block, `none` at a clean end. -/
def head (n : Nat) : Pull (Option Bytes) := do
  let got ← fill n
  if got.isEmpty then return none
  else if got.length < n then throw (.error (.truncatedBlock n got.length))
  else return some got

def formatOf (magic : Bytes) : Result StreamFormat :=
  match PcapFormat.ofMagic? magic with
  | some f => .ok (.classic f)
  | none =>
    let m := UInt32.ofNat (ByteOrder.littleEndian.get magic)
    if m = BlockKind.sectionHeader.number then .ok .sectioned else fail (.unknownMagic m)

def nextSectioned (buf : Bytes) : Pull Block := do
  let buf ← extend buf (Block.minSize - buf.length)
  let order := (← get).order
  let (_, length) ← ExceptT.mk (pure (Block.frameHeader order buf))
  let buf ← extend buf (length - buf.length)
  let b ← ExceptT.mk (pure (Block.read order buf))
  match b.content with
  | .sectionHeader _ => modify fun s => { s with order := some b.order }
  | _ => pure ()
  return b

def nextRecord (f : PcapFormat) : Pull (Option Block) := do
  match ← head Record.headerSize with
  | none => return none
  | some buf =>
    let length ← ExceptT.mk (pure (Block.recordLength f.order buf))
    let buf ← extend buf (length - Record.headerSize)
    let b ← ExceptT.mk (pure (Block.readRecord f buf))
    return some b

def first : Pull (Option Block) := do
  match ← head 4 with
  | none => return none
  | some magic =>
    let format ← ExceptT.mk (pure (formatOf magic))
    modify fun s => { s with format := some format }
    match format with
    | .sectioned => some <$> nextSectioned magic
    | .classic f =>
      let buf ← extend magic (FileHeader.size - 4)
      let b ← ExceptT.mk (pure (Block.readFileHeader buf))
      modify fun s => { s with order := some f.order }
      return some b

/-- The next block of the format, `none` at a clean end. -/
def pull : Option StreamFormat → Pull (Option Block)
  | none => first
  | some .sectioned => do
    match ← head Block.minSize with
    | none => return none
    | some buf => some <$> nextSectioned buf
  | some (.classic f) => nextRecord f

/-- In the middle of a stream, what would be another kind of input is corruption. -/
def midStream : Failure → Failure
  | .error (.truncatedBlock needed available) =>
    .error (.streamCorrupt (.truncated needed available))
  | .error (.unknownMagic m) => .error (.streamCorrupt (.magic m))
  | f => f

def isBlock : Result (Option Block) → Bool
  | .ok (some _) => true
  | _ => false

def next (s : Stream) : Result (Option Block) × Stream :=
  if s.finished then (.ok none, s)
  else
    let p := (pull s.format).run.run s
    let r := if s.format.isSome then p.1.mapError midStream else p.1
    (r, { p.2 with finished := !isBlock r })

/-- The results of reading on, each with the stream after it, up to the first that is not
    a block; at most `n`. -/
def pulls : Nat → Stream → List (Result (Option Block) × Stream)
  | 0, _ => []
  | n + 1, s =>
    let p := s.next
    p :: if isBlock p.1 then pulls n p.2 else []

/-- All results up to the first that is not a block; every block takes at least a byte. -/
def run (s : Stream) : List (Result (Option Block) × Stream) := pulls (s.reader.remaining + 1) s

/-! ## Small facts -/

theorem run_fill {n : Nat} {s : Stream} {bs : Bytes} {r : Reader} (h : s.reader.fill n = (some bs, r)) :
    (fill n).run.run s = (.ok bs, { s with reader := r }) := by
  show (match (Reader.fill n s.reader).1 with
    | some bs => (pure bs : Pull Bytes)
    | none => throw (Failure.error .io)).run.run { s with reader := (Reader.fill n s.reader).2 } = _
  rw [h]
  rfl

/-- A read that fails is what the stream fails with. -/
theorem run_fill_none {n : Nat} {s : Stream} {r : Reader} (h : s.reader.fill n = (none, r)) :
    (fill n).run.run s = (.error (.error .io), { s with reader := r }) := by
  show (match (Reader.fill n s.reader).1 with
    | some bs => (pure bs : Pull Bytes)
    | none => throw (Failure.error .io)).run.run { s with reader := (Reader.fill n s.reader).2 } = _
  rw [h]
  rfl

/-! ## The end is final -/

theorem next_of_finished {s : Stream} (h : s.finished = true) : s.next = (.ok none, s) := by
  simp [next, h]

theorem finished_next {s : Stream} (h : isBlock s.next.1 = false) : s.next.2.finished = true := by
  unfold next at h ⊢
  split
  · assumption
  · next hf =>
    rw [if_neg hf] at h
    simp only at h ⊢
    rw [h]
    rfl

end Stream

end CaptureRing
