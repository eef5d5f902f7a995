/-
  CaptureRing.Block — one block of a capture stream, and reading it from the front of a
  byte string.

  A stream is either a sequence of sections, whose headers choose the byte order of the
  blocks after them, or a classic capture, whose file header and records are blocks here
  too. Reading is pure: it is given the bytes and the order of the section they are in,
  `none` before the first section header.

  The offsets of lengths and magics are taken with `wordAt`, which crashes outside the
  bytes; the checks in front of it keep that from happening.

  Proved: a block keeps its bytes as they were read (`raw_read`).
-/

import CaptureRing.Pcap.Record
import CaptureRing.Pcapng.SectionHeader
import CaptureRing.Pcapng.Statistics

namespace CaptureRing

inductive PacketFormat where
  | enhanced
  | simple
  | obsolete
  | record (nanosecond : Bool)
  deriving DecidableEq, Repr

inductive BlockContent where
  | sectionHeader (header : SectionHeader)
  | interface (i : Interface)
  | packet (format : PacketFormat) (p : Packet)
  /-- A block of a type that is only carried along. -/
  | other (kind : UInt32)
  /-- The header of a classic capture, section and only interface in one. -/
  | fileHeader (header : FileHeader)
  deriving DecidableEq, Repr

structure Block where
  order : ByteOrder
  /-- The bytes as they were read. -/
  raw : Bytes
  content : BlockContent
  deriving DecidableEq, Repr

namespace Block

def isPacket (b : Block) : Bool :=
  match b.content with
  | .packet .. => true
  | _ => false

def startsSection (b : Block) : Bool :=
  match b.content with
  | .sectionHeader _ | .fileHeader _ => true
  | _ => false

/-! ## Framing -/

def minSize : Nat := 12

/-- Larger blocks are taken for corruption. -/
def maxSize : Nat := 16 * 1024 * 1024

/-- The byte order that a block's first twelve bytes call for: a section header's magic
    tells its own, any other block has that of its section. -/
def orderOf (current : Option ByteOrder) (head : Bytes) : Result ByteOrder := do
  let kind ← wordAt .littleEndian 0 head
  -- the type of a section header reads the same in both orders
  if kind = BlockKind.sectionHeader.number then
    let little ← wordAt .littleEndian 8 head
    let big ← wordAt .bigEndian 8 head
    if little = byteOrderMagic then return .littleEndian
    else if big = byteOrderMagic then return .bigEndian
    else fail (.unknownMagic little)
  else match current with
    | some o => return o
    | none => corrupt .outsideSection

def frameHeader (current : Option ByteOrder) (head : Bytes) : Result (ByteOrder × Nat) := do
  if head.length < minSize then fail (.truncatedBlock minSize head.length)
  else
    let order ← orderOf current head
    let total ← wordAt order 4 head
    let length := total.toNat
    if length < minSize ∨ length % 4 ≠ 0 ∨ maxSize < length then corrupt (.blockLength length)
    else return (order, length)

def contentOf (o : ByteOrder) (raw : Bytes) : Result BlockContent := do
  let kind ← wordAt o 0 raw
  match BlockKind.ofNumber? kind with
  | some .sectionHeader => .sectionHeader <$> SectionHeader.parse o raw
  | some .interfaceDescription => .interface <$> Interface.parse o raw
  | some .enhancedPacket => .packet .enhanced <$> Packet.parse .enhancedPacket o raw
  | some .simplePacket => .packet .simple <$> Packet.parse .simplePacket o raw
  | some .packet => .packet .obsolete <$> Packet.parse .packet o raw
  | _ => return .other kind

def read (current : Option ByteOrder) (buf : Bytes) : Result Block := do
  let (order, length) ← frameHeader current buf
  if buf.length < length then fail (.truncatedBlock length buf.length)
  else
    let trailing ← wordAt order (length - 4) buf
    if trailing.toNat ≠ length then corrupt (.trailingLength trailing.toNat length)
    else
      let raw := buf.take length
      let content ← contentOf order raw
      return ⟨order, raw, content⟩

/-! ## Classic captures -/

def readFileHeader (buf : Bytes) : Result Block := do
  if buf.length < FileHeader.size then fail (.truncatedBlock FileHeader.size buf.length)
  else
    let magic := buf.take 4
    match PcapFormat.ofMagic? magic with
    | none => fail (.unknownMagic (UInt32.ofNat (ByteOrder.littleEndian.get magic)))
    | some format =>
      let raw := buf.take FileHeader.size
      let header ← FileHeader.parse format.order raw
      return ⟨format.order, raw, .fileHeader header⟩

def recordLength (o : ByteOrder) (head : Bytes) : Result Nat := do
  if head.length < Record.headerSize then fail (.truncatedBlock Record.headerSize head.length)
  else
    let captured ← Record.capturedLength o head
    if maxSize < captured.toNat then corrupt (.recordLength captured.toNat)
    else return Record.headerSize + captured.toNat

/-- Reads the record at the front of `buf`, as a packet of the only interface. -/
def readRecord (format : PcapFormat) (buf : Bytes) : Result Block := do
  let length ← recordLength format.order buf
  if buf.length < length then fail (.truncatedBlock length buf.length)
  else
    let raw := buf.take length
    let r ← Record.parse format.order raw
    return ⟨format.order, raw, .packet (.record format.nanosecond) (r.toPacket 0 format.nanosecond)⟩

/-! ## Small facts -/

theorem bind_eq_ok {ε α β : Type} {r : Except ε α} {f : α → Except ε β} {b : β}
    (h : r >>= f = .ok b) : ∃ a, r = .ok a ∧ f a = .ok b := by
  cases r with
  | error e => cases h
  | ok a => exact ⟨a, rfl, h⟩

theorem raw_read {current : Option ByteOrder} {buf : Bytes} {b : Block}
    (h : read current buf = .ok b) : b.raw = buf.take b.raw.length := by
  unfold read at h
  obtain ⟨⟨order, length⟩, -, h⟩ := bind_eq_ok h
  dsimp only at h
  split at h
  · cases h
  · obtain ⟨trailing, -, h⟩ := bind_eq_ok h
    split at h
    · cases h
    · obtain ⟨content, -, h⟩ := bind_eq_ok h
      cases h
      simp only [List.length_take]
      rw [Nat.min_eq_left (by omega)]

end Block

end CaptureRing
