/-
  CaptureRing.Pcapng.SectionHeader — the block that opens a section and fixes its byte order.

  Its type and its magic are known in both orders, so that a reader can tell the order
  from the first twelve bytes. Only major version 1 is read.
-/

import CaptureRing.Pcapng.Frame

namespace CaptureRing

def byteOrderMagic : UInt32 := 0x1A2B3C4D

structure SectionHeader where
  magic : UInt32
  major : UInt16
  minor : UInt16
  /-- Bytes in the section after this block, -1 where that is not told. -/
  length : Int64
  options : Options
  deriving DecidableEq, Repr

namespace SectionHeader

def hardwareCode : UInt16 := 2

def systemCode : UInt16 := 3

def applicationCode : UInt16 := 4

def ofOptions (options : Options) : SectionHeader := ⟨byteOrderMagic, 1, 0, -1, options⟩

def size (s : SectionHeader) : Nat := 28 + s.options.size

def applications (s : SectionHeader) : List String := s.options.texts applicationCode

def encode (o : ByteOrder) (s : SectionHeader) : Bytes :=
  frame o BlockKind.sectionHeader.number
    (o.put32 s.magic ++ o.put16 s.major ++ o.put16 s.minor ++ o.put64 s.length.toUInt64
      ++ s.options.encode o)

def decode (o : ByteOrder) (raw : Bytes) : Except Malformed SectionHeader := do
  let magic ← field32 o 8 raw
  let major ← field16 o 12 raw
  let minor ← field16 o 14 raw
  let length ← field64 o 16 raw
  let options ← Options.decode o (optionsArea 24 raw)
  return ⟨magic, major, minor, length.toInt64, options⟩

def parse (o : ByteOrder) (raw : Bytes) : Result SectionHeader := do
  let s ← decodeFrame .sectionHeader (decode o) raw
  if s.major = 1 then return s else corrupt (.version s.major s.minor)

theorem length_encode (o : ByteOrder) (s : SectionHeader) : (s.encode o).length = s.size := by
  simp only [encode, length_frame, ByteOrder.put16, ByteOrder.put32, ByteOrder.put64,
    List.length_append, ByteOrder.length_put, Options.length_encode, size]
  omega

end SectionHeader

end CaptureRing
