/-
  CaptureRing.Proofs.Draft — blocks that are to be written, and what they are read as.

  A draft is the content of a block without an order: it is encoded in the order of the
  section it is put into. What a capture holds is drafted as sections or as a classic
  capture; `Fits` is what the format asks of a draft, and `ReadAs` what a reader makes of
  its bytes.

  Proved:
  - `SectionBlock.exists_read`: a fitting block is read as itself in the order of its
    section and leaves that order;
  - `Packet.exists_simple`: a simple packet block is read whatever its body.
-/

import CaptureRing.Proofs.RoundTrip

namespace CaptureRing

inductive SectionBlock where
  | interface (i : Interface)
  | packet (p : Packet)
  | statistics (st : Statistics)
  /-- A block of any other type, with the body that is written. -/
  | other (kind : UInt32) (body : Bytes)
  deriving DecidableEq, Repr

structure SectionDraft where
  order : ByteOrder
  header : SectionHeader
  blocks : List SectionBlock
  deriving DecidableEq, Repr

structure ClassicDraft where
  format : PcapFormat
  header : FileHeader
  records : List Record
  deriving DecidableEq, Repr

/-! ## What is written -/

def SectionBlock.encode (o : ByteOrder) : SectionBlock → Bytes
  | .interface i => i.encode o
  | .packet p => p.encode o
  | .statistics st => st.encode o
  | .other kind body => frame o kind body

def SectionDraft.encode (d : SectionDraft) : Bytes :=
  d.header.encode d.order ++ d.blocks.flatMap (SectionBlock.encode d.order)

def ClassicDraft.encode (d : ClassicDraft) : Bytes :=
  d.header.encode d.format.order ++ d.records.flatMap (Record.encode d.format.order)

/-! ## What the format asks -/

structure SectionHeader.Fits (s : SectionHeader) : Prop where
  magic : s.magic = byteOrderMagic
  major : s.major = 1
  options : s.options.Regular
  size : s.size ≤ Block.maxSize

/-- Options are regular, data has its length, and no block is too long. The types with a
    decoder of their own are no other types; the body of an obsolete packet is one. -/
def SectionBlock.Fits (o : ByteOrder) : SectionBlock → Prop
  | .interface i => i.options.Regular ∧ i.size ≤ Block.maxSize
  | .packet p => p.Proper ∧ p.size ≤ Block.maxSize
  | .statistics st => st.options.Regular ∧ st.size ≤ Block.maxSize
  | .other kind body =>
    kind ∉ [BlockKind.sectionHeader.number, BlockKind.interfaceDescription.number, BlockKind.enhancedPacket.number] ∧
      body.length % 4 = 0 ∧ 12 + body.length ≤ Block.maxSize ∧
      (kind = BlockKind.packet.number → ∃ p, Packet.parse .packet o (frame o kind body) = .ok p)

structure SectionDraft.Fits (d : SectionDraft) : Prop where
  order : d.order ≠ .wiresharkDefault
  header : d.header.Fits
  blocks : ∀ x ∈ d.blocks, x.Fits d.order

structure Record.Fits (r : Record) : Prop where
  captured : r.captured.toNat = r.data.length
  size : r.captured.toNat ≤ Block.maxSize

structure ClassicDraft.Fits (d : ClassicDraft) : Prop where
  order : d.format.order ≠ .wiresharkDefault
  magic : d.header.magic = PcapFormat.magic d.format.nanosecond
  records : ∀ r ∈ d.records, r.Fits

/-! ## What is read -/

/-- The block has the order and the bytes that were written, and the fields; a packet of an
    older form has those that its bytes have by themselves. -/
def SectionBlock.ReadAs (o : ByteOrder) (x : SectionBlock) (b : Block) : Prop :=
  b.order = o ∧ b.raw = x.encode o ∧
    match x with
    | .interface i => b.content = .interface i
    | .packet p => b.content = .packet .enhanced p
    | .statistics st =>
      b.content = .other BlockKind.interfaceStatistics.number ∧ Statistics.parse o b.raw = .ok st
    | .other kind _ =>
      match BlockKind.ofNumber? kind with
      | some .packet => ∃ p, Packet.parse .packet o b.raw = .ok p ∧ b.content = .packet .obsolete p
      | some .simplePacket => ∃ p, Packet.parse .simplePacket o b.raw = .ok p ∧ b.content = .packet .simple p
      | _ => b.content = .other kind

def SectionDraft.ReadAs (d : SectionDraft) (bs : List Block) : Prop :=
  ∃ rest, bs = ⟨d.order, d.header.encode d.order, .sectionHeader d.header⟩ :: rest ∧
    List.Forall₂ (SectionBlock.ReadAs d.order) d.blocks rest

/-- A packet in the enhanced form; the fields of the record itself are in its bytes. -/
def Record.ReadAs (f : PcapFormat) (r : Record) (b : Block) : Prop :=
  b.order = f.order ∧ b.raw = r.encode f.order ∧ Record.parse f.order b.raw = .ok r ∧
    b.content = .packet (.record f.nanosecond) (r.toPacket 0 f.nanosecond)

def ClassicDraft.ReadAs (d : ClassicDraft) (bs : List Block) : Prop :=
  ∃ rest, bs = ⟨d.format.order, d.header.encode d.format.order, .fileHeader d.header⟩ :: rest ∧
    List.Forall₂ (Record.ReadAs d.format) d.records rest

/-! ## Other types -/

/-- What a simple packet block has room for is at most what it has, so it is always read. -/
theorem Packet.exists_simple (o : ByteOrder) {raw : Bytes} (h : 12 ≤ raw.length) :
    ∃ p, parse .simplePacket o raw = .ok p := by
  have hwire : ∃ v, field32 o 8 raw = .ok v := by
    have hroom : 8 + 4 ≤ raw.length := h
    obtain ⟨bs, hbs⟩ := exists_fieldBytes hroom
    exact ⟨_, congrArg (Except.map _) hbs⟩
  obtain ⟨onWire, hwire⟩ := hwire
  have hroom : 12 + min onWire.toNat (raw.length - 16) ≤ raw.length := by omega
  obtain ⟨data, hdata⟩ := exists_fieldBytes hroom
  refine ⟨⟨0, 0, 0, UInt32.ofNat (min onWire.toNat (raw.length - 16)), onWire, data, []⟩, ?_⟩
  exact decodeFrame_iff.mpr ⟨by omega, decodeSimple_iff.mpr ⟨hwire, rfl, hdata, rfl, rfl, rfl, rfl⟩⟩

/-! ## Reading a draft -/

namespace Block

variable {o : ByteOrder} {kind : UInt32} {body : Bytes}

theorem read_of_content {content : BlockContent} (hkind : kind ≠ BlockKind.sectionHeader.number)
    (hmod : body.length % 4 = 0) (hsize : 12 + body.length ≤ maxSize)
    (hcontent : contentOf o (frame o kind body) = .ok content) :
    read (some o) (frame o kind body) = .ok ⟨o, frame o kind body, content⟩ := by
  have hlen := length_frame o kind body
  apply read_of_frame (frame o kind body) rfl (orderOf_frame hkind body)
  · omega
  · omega
  · exact hcontent

end Block

theorem SectionBlock.exists_read {o : ByteOrder} {x : SectionBlock} (h : x.Fits o) :
    ∃ b, x.ReadAs o b ∧ Block.read (some o) b.raw = .ok b ∧ ∀ s, b.content ≠ .sectionHeader s := by
  cases x with
  | interface i => exact ⟨⟨o, i.encode o, .interface i⟩, ⟨rfl, rfl, rfl⟩, Block.read_interface h.1 h.2, nofun⟩
  | packet p => exact ⟨⟨o, p.encode o, .packet .enhanced p⟩, ⟨rfl, rfl, rfl⟩, Block.read_packet h.1 h.2, nofun⟩
  | statistics st =>
    exact ⟨⟨o, st.encode o, .other BlockKind.interfaceStatistics.number⟩,
      ⟨rfl, rfl, rfl, Statistics.parse_encode o h.1⟩, Block.read_statistics h.2, nofun⟩
  | other kind body =>
    obtain ⟨htype, hmod, hsize, hobsolete⟩ := h
    simp only [List.mem_cons, List.not_mem_nil, or_false, not_or] at htype
    obtain ⟨hheader, hinterface, henhanced⟩ := htype
    have hlen : 12 ≤ (frame o kind body).length := by rw [length_frame]; omega
    -- the decoder is chosen by the type
    have hcontent : ∃ c, Block.contentOf o (frame o kind body) = .ok c ∧
        SectionBlock.ReadAs o (.other kind body) ⟨o, frame o kind body, c⟩ ∧ ∀ s, c ≠ .sectionHeader s := by
      unfold Block.contentOf SectionBlock.ReadAs
      rw [wordAt_frame, ok_bind]
      dsimp only
      cases hk : BlockKind.ofNumber? kind with
      | none => exact ⟨.other kind, rfl, ⟨rfl, rfl, rfl⟩, nofun⟩
      | some k =>
        have hnumber := BlockKind.number_of_ofNumber? hk
        cases k with
        | sectionHeader => exact absurd hnumber.symm hheader
        | interfaceDescription => exact absurd hnumber.symm hinterface
        | enhancedPacket => exact absurd hnumber.symm henhanced
        | packet =>
          obtain ⟨p, hp⟩ := hobsolete hnumber.symm
          exact ⟨.packet .obsolete p, by dsimp only; rw [hp]; rfl, ⟨rfl, rfl, p, hp, rfl⟩, nofun⟩
        | simplePacket =>
          obtain ⟨p, hp⟩ := Packet.exists_simple o hlen
          exact ⟨.packet .simple p, by dsimp only; rw [hp]; rfl, ⟨rfl, rfl, p, hp, rfl⟩, nofun⟩
        | nameResolution | interfaceStatistics | decryptionSecrets | custom | customNoCopy =>
          exact ⟨.other kind, rfl, ⟨rfl, rfl, rfl⟩, nofun⟩
    obtain ⟨c, hc, hreads, hne⟩ := hcontent
    exact ⟨_, hreads, Block.read_of_content hheader hmod hsize hc, hne⟩

end CaptureRing
