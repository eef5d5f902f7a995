/-
  CaptureRing.Pcap.FileHeader — the header of a classic capture file.

  Its magic tells the byte order of the file and the unit of its times, microseconds or
  nanoseconds. The header stands for the only interface of the file.

  Proved: the magic is told apart in both orders and both units (`ofMagic?_put32`).
-/

import CaptureRing.Pcapng.Interface

namespace CaptureRing

structure PcapFormat where
  order : ByteOrder
  /-- Times in nanoseconds, not microseconds. -/
  nanosecond : Bool
  deriving DecidableEq, Repr

namespace PcapFormat

def magic (nanosecond : Bool) : UInt32 := if nanosecond then 0xA1B23C4D else 0xA1B2C3D4

def ofMagic? (bs : Bytes) : Option PcapFormat :=
  [⟨.littleEndian, false⟩, ⟨.littleEndian, true⟩, ⟨.bigEndian, false⟩, ⟨.bigEndian, true⟩].find?
    fun f : PcapFormat => f.order.put32 (magic f.nanosecond) == bs

theorem ofMagic?_put32 (o : ByteOrder) (nanosecond : Bool) (h : o ≠ .wiresharkDefault) :
    ofMagic? (o.put32 (magic nanosecond)) = some ⟨o, nanosecond⟩ := by
  cases o <;> cases nanosecond <;> first | exact absurd rfl h | decide

end PcapFormat

structure FileHeader where
  magic : UInt32
  major : UInt16
  minor : UInt16
  /-- Two words that mean nothing, and are kept. -/
  reserved₁ : UInt32
  reserved₂ : UInt32
  snaplen : UInt32
  /-- The link layer in the lower half, how frames are checked in the upper one. -/
  linktype : UInt32
  deriving DecidableEq, Repr

namespace FileHeader

def size : Nat := 24

def make (nanosecond : Bool) (snaplen : UInt32) (linktype : UInt16) : FileHeader :=
  ⟨PcapFormat.magic nanosecond, 2, 4, 0, 0, snaplen, linktype.toUInt32⟩

def nanosecond (h : FileHeader) : Bool := h.magic == PcapFormat.magic true

/-- The interface the header stands for, with the exponent of its unit where that is not
    the microsecond. -/
def toInterface (h : FileHeader) : Interface :=
  Interface.make h.linktype.toUInt16 h.snaplen
    (if h.nanosecond then Options.ofList [BlockOption.make Interface.resolutionCode [9]] else [])

def encode (o : ByteOrder) (h : FileHeader) : Bytes :=
  o.put32 h.magic ++ o.put16 h.major ++ o.put16 h.minor ++ o.put32 h.reserved₁
    ++ o.put32 h.reserved₂ ++ o.put32 h.snaplen ++ o.put32 h.linktype

def decode (o : ByteOrder) (raw : Bytes) : Except Malformed FileHeader := do
  let magic ← field32 o 0 raw
  let major ← field16 o 4 raw
  let minor ← field16 o 6 raw
  let reserved₁ ← field32 o 8 raw
  let reserved₂ ← field32 o 12 raw
  let snaplen ← field32 o 16 raw
  let linktype ← field32 o 20 raw
  return ⟨magic, major, minor, reserved₁, reserved₂, snaplen, linktype⟩

def parse (o : ByteOrder) (raw : Bytes) : Result FileHeader :=
  if raw.length < size then fail (.truncatedBlock size raw.length)
  else corruptAs .fileHeader (decode o raw)

theorem length_encode (o : ByteOrder) (h : FileHeader) : (h.encode o).length = size := by
  simp [encode, ByteOrder.put16, ByteOrder.put32, size]

end FileHeader

end CaptureRing
