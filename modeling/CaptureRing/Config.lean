/-
  CaptureRing.Config — everything a capture needs to know before it starts.

  The poll interval is kept as the bits of a binary32 number of seconds. One that is not
  positive and finite stands for a second; one that no span of time can hold breaks
  the capture down, and so does a capacity that no memory can hold.
-/

import CaptureRing.Condition
import CaptureRing.Source

namespace CaptureRing

structure Config where
  sources : List Source
  rotation : RotationPolicy
  autostop : Autostop
  /-- The output file; with rotation, what the files' names are made from. -/
  output : String
  /-- Most bytes captured of a packet on a network interface. -/
  snaplen : UInt64
  /-- The bits of the poll interval. -/
  timeout : UInt32
  /-- Blocks held between the sources and the writer. -/
  capacity : UInt64
  deriving DecidableEq, Repr

namespace Config

def ofOutput (output : String) : Config :=
  ⟨[], .never, [], output, 65535, 0x3F800000, 1024⟩

/-- There is always room for a block. -/
def withCapacity (n : UInt64) (c : Config) : Config := { c with capacity := max n 1 }

/-- Memory has room for so many blocks, were each of them a single byte. -/
def hasRoom (c : Config) : Bool := c.capacity.toNat < 2 ^ 48

/-- How long the writer waits for a block before it looks around, and how long a quiet
    source holds the others back. -/
def poll (c : Config) : Result Duration :=
  match binary32Positive? c.timeout with
  | none => .ok Duration.second
  | some d => (Duration.ofSeconds? d).elim (.error .crash) .ok

end Config

end CaptureRing
