/-
  CaptureRing.Pcapng.Statistics — counters of an interface at a time.
-/

import CaptureRing.Pcapng.Frame

namespace CaptureRing

structure Statistics where
  /-- The index of its interface in the section. -/
  interface : UInt32
  tsHigh : UInt32
  tsLow : UInt32
  options : Options
  deriving DecidableEq, Repr

namespace Statistics

def size (s : Statistics) : Nat := 24 + s.options.size

def encode (o : ByteOrder) (s : Statistics) : Bytes :=
  frame o BlockKind.interfaceStatistics.number
    (o.put32 s.interface ++ o.put32 s.tsHigh ++ o.put32 s.tsLow ++ s.options.encode o)

def decode (o : ByteOrder) (raw : Bytes) : Except Malformed Statistics := do
  let interface ← field32 o 8 raw
  let tsHigh ← field32 o 12 raw
  let tsLow ← field32 o 16 raw
  let options ← Options.decode o (optionsArea 20 raw)
  return ⟨interface, tsHigh, tsLow, options⟩

def parse (o : ByteOrder) (raw : Bytes) : Result Statistics :=
  decodeFrame .interfaceStatistics (decode o) raw

def swapOptions (s : Statistics) : Statistics :=
  { s with options := s.options.swap OptionLayout.ofStatistics }

theorem length_encode (o : ByteOrder) (s : Statistics) : (s.encode o).length = s.size := by
  simp only [encode, length_frame, ByteOrder.put32,
    List.length_append, ByteOrder.length_put, Options.length_encode, size]
  omega

end Statistics

end CaptureRing
