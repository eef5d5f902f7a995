/-
  CaptureRing.Pcap.Record — a packet of a classic capture file: its time, its two lengths
  and its data, without padding.

  Proved: seconds and fraction always fit the 64-bit time of the enhanced form
  (`time_lt`).
-/

import CaptureRing.Pcap.FileHeader
import CaptureRing.Pcapng.Packet

namespace CaptureRing

structure Record where
  seconds : UInt32
  /-- Microseconds or nanoseconds, as the file header tells. -/
  fraction : UInt32
  captured : UInt32
  onWire : UInt32
  data : Bytes
  deriving DecidableEq, Repr

namespace Record

def headerSize : Nat := 16

def ofData (seconds fraction : UInt32) (data : Bytes) : Record :=
  ⟨seconds, fraction, UInt32.ofNat data.length, UInt32.ofNat data.length, data⟩

def unitsPerSecond (nanosecond : Bool) : Nat := if nanosecond then 1000000000 else 1000000

def time (nanosecond : Bool) (r : Record) : Nat :=
  r.seconds.toNat * unitsPerSecond nanosecond + r.fraction.toNat

/-- The same packet in the enhanced form, its time in the units of the file. -/
def toPacket (interface : UInt32) (nanosecond : Bool) (r : Record) : Packet :=
  Packet.withTimestamp (UInt64.ofNat (r.time nanosecond))
    ⟨interface, 0, 0, r.captured, r.onWire, r.data, []⟩

/-- The captured length in a record's header; the caller answers for its bytes being there. -/
def capturedLength (o : ByteOrder) (head : Bytes) : Result UInt32 := wordAt o 8 head

def encode (o : ByteOrder) (r : Record) : Bytes :=
  o.put32 r.seconds ++ o.put32 r.fraction ++ o.put32 r.captured ++ o.put32 r.onWire ++ r.data

def decode (o : ByteOrder) (raw : Bytes) : Except Malformed Record := do
  let seconds ← field32 o 0 raw
  let fraction ← field32 o 4 raw
  let captured ← field32 o 8 raw
  let onWire ← field32 o 12 raw
  match slice? headerSize (headerSize + captured.toNat) raw with
  | some data => return ⟨seconds, fraction, captured, onWire, data⟩
  | none => throw .cutShort

def parse (o : ByteOrder) (raw : Bytes) : Result Record := corruptAs .record (decode o raw)

theorem length_encode (o : ByteOrder) (r : Record) :
    (r.encode o).length = headerSize + r.data.length := by
  simp only [encode, ByteOrder.put32, headerSize, List.length_append, ByteOrder.length_put]

theorem time_lt (nanosecond : Bool) (r : Record) : r.time nanosecond < 2 ^ 64 := by
  have h₁ := r.seconds.toNat_lt
  have h₂ := r.fraction.toNat_lt
  cases nanosecond <;> simp only [time, unitsPerSecond] <;> grind

end Record

end CaptureRing
