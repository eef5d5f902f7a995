/-
  CaptureRing.Pcapng.Packet — a packet in the enhanced form, and the three kinds of block
  that carry one.

  The obsolete block has a 16-bit interface index and a count of drops where the enhanced
  one has a 32-bit index. The simple block has neither index nor time nor options: its
  packet is one of the first interface, and its length on the wire, cut to what the
  block can hold, is taken for the captured length.

  Proved: the 64-bit time is kept by the two halves it is stored in
  (`timestamp_withTimestamp`).
-/

import CaptureRing.Pcapng.Frame

namespace CaptureRing

structure Packet where
  /-- The index of its interface in the section. -/
  interface : UInt32
  /-- The upper and the lower half of its time, in units of the interface. -/
  tsHigh : UInt32
  tsLow : UInt32
  /-- The length of the data, as it is written. -/
  captured : UInt32
  /-- The packet's length on the network. -/
  onWire : UInt32
  data : Bytes
  options : Options
  deriving DecidableEq, Repr

namespace Packet

def timestamp (p : Packet) : UInt64 := UInt64.ofNat (p.tsHigh.toNat * 2 ^ 32 + p.tsLow.toNat)

def withTimestamp (ts : UInt64) (p : Packet) : Packet :=
  { p with tsHigh := UInt32.ofNat (ts.toNat / 2 ^ 32), tsLow := UInt32.ofNat (ts.toNat % 2 ^ 32) }

/-- A packet of `data` on an interface, cut to `snaplen` bytes unless that is zero, at time zero. -/
def ofData (interface : UInt32) (data : Bytes) (snaplen : Nat) : Packet :=
  let kept := if snaplen = 0 then data else data.take snaplen
  ⟨interface, 0, 0, UInt32.ofNat kept.length, UInt32.ofNat data.length, kept, []⟩

def size (p : Packet) : Nat := 32 + paddedLength p.data.length + p.options.size

/-- As an enhanced packet block. -/
def encode (o : ByteOrder) (p : Packet) : Bytes :=
  frame o BlockKind.enhancedPacket.number
    (o.put32 p.interface ++ o.put32 p.tsHigh ++ o.put32 p.tsLow ++ o.put32 p.captured
      ++ o.put32 p.onWire ++ pad p.data ++ p.options.encode o)

/-- The captured bytes, if the block has room for them behind its fixed fields. -/
def capturedData (captured : UInt32) (raw : Bytes) : Except Malformed Bytes :=
  if raw.length < 28 + paddedLength captured.toNat + 4 then
    .error (.capturedTooLong captured raw.length)
  else fieldBytes 28 captured.toNat raw

/-- What follows the interface index, the same in enhanced and obsolete blocks. -/
def decodeOn (interface : UInt32) (o : ByteOrder) (raw : Bytes) : Except Malformed Packet := do
  let tsHigh ← field32 o 12 raw
  let tsLow ← field32 o 16 raw
  let captured ← field32 o 20 raw
  let onWire ← field32 o 24 raw
  let data ← capturedData captured raw
  let options ← Options.decode o (optionsArea (28 + paddedLength captured.toNat) raw)
  return ⟨interface, tsHigh, tsLow, captured, onWire, data, options⟩

def decodeEnhanced (o : ByteOrder) (raw : Bytes) : Except Malformed Packet := do
  decodeOn (← field32 o 8 raw) o raw

def decodeObsolete (o : ByteOrder) (raw : Bytes) : Except Malformed Packet := do
  let interface ← field16 o 8 raw
  let _drops ← field16 o 10 raw
  decodeOn interface.toUInt32 o raw

def decodeSimple (o : ByteOrder) (raw : Bytes) : Except Malformed Packet := do
  let onWire ← field32 o 8 raw
  let captured := min onWire.toNat (raw.length - 16)
  let data ← fieldBytes 12 captured raw
  return ⟨0, 0, 0, UInt32.ofNat captured, onWire, data, []⟩

/-- Reads a whole block; what is neither a simple nor an obsolete packet is taken for
    an enhanced one. -/
def parse (kind : BlockKind) (o : ByteOrder) (raw : Bytes) : Result Packet :=
  decodeFrame (.packet kind)
    (match kind with
      | .simplePacket => decodeSimple o
      | .packet => decodeObsolete o
      | _ => decodeEnhanced o) raw

def swapOptions (p : Packet) : Packet :=
  { p with options := p.options.swap OptionLayout.ofPacket }

theorem length_encode (o : ByteOrder) (p : Packet) : (p.encode o).length = p.size := by
  simp only [encode, length_frame, ByteOrder.put32,
    List.length_append, ByteOrder.length_put, length_pad, Options.length_encode, size]
  omega

theorem timestamp_withTimestamp (ts : UInt64) (p : Packet) :
    (p.withTimestamp ts).timestamp = ts := by
  have h := ts.toNat_lt
  apply UInt64.toNat.inj
  simp only [timestamp, withTimestamp, UInt64.toNat_ofNat', UInt32.toNat_ofNat']
  omega

end Packet

end CaptureRing
