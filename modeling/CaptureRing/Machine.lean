/-
  CaptureRing.Machine — a world with a disk of its own.

  Small writes are held back until a buffer is full; a write as large as the buffer goes
  straight to the disk. Time passes a little whenever the clock is read, and otherwise
  only when someone waits.
-/

import CaptureRing.Disk
import CaptureRing.World

namespace CaptureRing

structure OpenFile where
  target : Target
  /-- The writes held back, the last one first. -/
  held : List Bytes
  /-- Number of bytes held back. -/
  size : Nat
  deriving DecidableEq, Repr

namespace OpenFile

def ofTarget (t : Target) : OpenFile := ⟨t, [], 0⟩

def hold (bs : Bytes) (f : OpenFile) : OpenFile :=
  { f with held := bs :: f.held, size := f.size + bs.length }

def bytes (f : OpenFile) : Bytes := f.held.reverse.flatten

@[simp] theorem bytes_hold (bs : Bytes) (f : OpenFile) : (f.hold bs).bytes = f.bytes ++ bs := by
  simp [hold, bytes]

end OpenFile

structure Machine where
  disk : Disk
  /-- Nanoseconds. -/
  clock : Nat
  calendar : String
  file : Option OpenFile
  deriving DecidableEq, Repr

namespace Machine

def bufferSize : Nat := 8192

/-- Nanoseconds from one reading of the clock to the next. -/
def tick : Nat := 100

def ofDisk (d : Disk) : Machine := ⟨d, 0, "20240102030405", none⟩

def wait (nanos : Nat) (m : Machine) : Machine := { m with clock := m.clock + nanos }

def now (m : Machine) : Moment × Machine := (⟨m.clock, m.calendar⟩, m.wait tick)

def create (path : String) (m : Machine) : Except IoFault Unit × Machine :=
  match m.disk.create path with
  | .ok (t, d) => (.ok (), { m with disk := d, file := some (.ofTarget t) })
  | .error e => (.error e, m)

/-- Writes what is held back. Where that fails it stays held back. -/
def flush (m : Machine) : Except IoFault Unit × Machine :=
  match m.file with
  | none => (.ok (), m)
  | some f =>
    match m.disk.put f.target f.bytes with
    | .ok d => (.ok (), { m with disk := d, file := some (.ofTarget f.target) })
    | .error e => (.error e, m)

/-- Holds bytes back, or writes them where they are too many. -/
def accept (bs : Bytes) (m : Machine) : Except IoFault Unit × Machine :=
  match m.file with
  | none => (.error .noFileOpen, m)
  | some f =>
    if bs.length < bufferSize then
      (.ok (), { m with file := some (f.hold bs) })
    else match m.disk.put f.target bs with
      | .ok d => (.ok (), { m with disk := d })
      | .error e => (.error e, m)

def write (bs : Bytes) (m : Machine) : Except IoFault Unit × Machine :=
  match m.file with
  | none => (.error .noFileOpen, m)
  | some f =>
    if f.size + bs.length ≤ bufferSize then m.accept bs
    else match m.flush with
      | (.ok (), m) => m.accept bs
      | failed => failed

def release (m : Machine) : Except IoFault Unit × Machine :=
  let (r, m) := m.flush
  (r, { m with file := none })

instance : World Machine where
  now := now
  create := create
  write := write
  release := release

end Machine

end CaptureRing
