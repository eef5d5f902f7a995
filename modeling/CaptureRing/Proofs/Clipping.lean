/-
  CaptureRing.Proofs.Clipping — what a simple packet block carries into the merge.

  An interface keeps no more of a packet than its snap length. A simple packet block has the
  packet's length on the wire and what was kept, padded to 32 bits, but not how much that is. Its
  reader takes the length on the wire for it, cut to the room in the block, and does not look at
  the interface. So where the interface clipped the packet, the padding is in that room too, and
  is taken for the data that was not kept.

  Proved:
  - `Packet.parse_simpleBlock`: the data of a simple packet is what was kept, and as much of the
    padding as the packet was clipped by;
  - `simple_packet_carries`: so it is of what the merger writes, and it is the kept data alone
    exactly if the packet was not clipped or the snap length needs no padding;
  - `clipped_packet_gains_padding`: a packet clipped to five bytes, which leaves the merger with
    eight.
-/

import CaptureRing.Proofs.Translation

namespace CaptureRing

/-- How many bytes an interface keeps of a packet of this length; a snap length of zero is no limit. -/
def Interface.keeps (i : Interface) (onWire : Nat) : Nat :=
  if i.snaplen = 0 then onWire else min onWire i.snaplen.toNat

/-- A simple packet block: the packet's length on the wire, what was kept of it, and padding. -/
def simpleBlock (o : ByteOrder) (onWire : UInt32) (kept padding : Bytes) : Bytes :=
  frame o BlockKind.simplePacket.number (o.put32 onWire ++ kept ++ padding)

def simplePacketOf (onWire : UInt32) (kept padding : Bytes) : Packet :=
  let data := kept ++ padding.take (onWire.toNat - kept.length)
  ⟨0, 0, 0, UInt32.ofNat data.length, onWire, data, []⟩

/-! ## Reading -/

section Reading

variable {o : ByteOrder} {onWire : UInt32} {kept padding : Bytes}

theorem length_simpleBlock : (simpleBlock o onWire kept padding).length = 16 + kept.length + padding.length := by
  unfold simpleBlock
  rw [length_frame]
  simp only [List.length_append, ByteOrder.length_put32]
  omega

/-- No more is kept than there was on the wire, so the length on the wire cuts the padding alone. -/
theorem Packet.parse_simpleBlock (hkept : kept.length ≤ onWire.toNat) :
    parse .simplePacket o (simpleBlock o onWire kept padding) = .ok (simplePacketOf onWire kept padding) := by
  have hlen : (simpleBlock o onWire kept padding).length = _ := length_simpleBlock
  have hroom : min onWire.toNat ((simpleBlock o onWire kept padding).length - 16) =
      (kept ++ padding.take (onWire.toNat - kept.length)).length := by
    rw [hlen, List.length_append, List.length_take]
    omega
  refine decodeFrame_iff.mpr ⟨by omega, decodeSimple_iff.mpr ⟨?_, congrArg UInt32.ofNat hroom.symm, ?_, rfl, rfl, rfl, rfl⟩⟩
  · unfold simpleBlock frame
    simp (disch := simp) only [List.append_assoc, field32_append, ByteOrder.length_put32, Nat.reduceSub, field32_put32,
      Nat.sub_self]
    rfl
  · show fieldBytes 12 (min onWire.toNat _) _ = _
    rw [hroom]
    have hdata : simpleBlock o onWire kept padding = o.put32 BlockKind.simplePacket.number ++
        (o.put32 (UInt32.ofNat (12 + (o.put32 onWire ++ kept ++ padding).length)) ++ (o.put32 onWire ++
          ((kept ++ padding.take (onWire.toNat - kept.length)) ++ (padding.drop (onWire.toNat - kept.length) ++
            o.put32 (UInt32.ofNat (12 + (o.put32 onWire ++ kept ++ padding).length)))))) := by
      unfold simpleBlock frame
      simp only [List.append_assoc]
      rw [← List.append_assoc (padding.take _), List.take_append_drop]
    rw [hdata]
    simp (disch := simp) only [fieldBytes_append, ByteOrder.length_put32, Nat.reduceSub]
    exact fieldBytes_front rfl _

/-- A simple packet block of a whole number of words is read whatever it holds. -/
theorem Block.read_simpleBlock (hkept : kept.length ≤ onWire.toNat) (hmod : (kept.length + padding.length) % 4 = 0)
    (hsize : (simpleBlock o onWire kept padding).length ≤ maxSize) :
    read (some o) (simpleBlock o onWire kept padding) =
      .ok ⟨o, simpleBlock o onWire kept padding, .packet .simple (simplePacketOf onWire kept padding)⟩ := by
  have hlen : (simpleBlock o onWire kept padding).length = _ := length_simpleBlock
  have hkind : wordAt o 0 (simpleBlock o onWire kept padding) = .ok BlockKind.simplePacket.number := wordAt_frame o _ _
  apply read_of_frame (simpleBlock o onWire kept padding) rfl (orderOf_frame (by decide) _) (by omega) hsize
  simp only [contentOf, hkind, ok_bind, BlockKind.ofNumber?_number, Packet.parse_simpleBlock hkept]
  rfl

end Reading

/-! ## Merging -/

/-- What is written for a packet of a known interface is read as that packet. -/
theorem Synthesized.process_packet {s : Synthesized} {source : Nat} {b : Block} {format : PacketFormat} {p : Packet}
    {id : UInt32} (hb : b.Accepted) (hc : b.content = .packet format p) (hid : s.renumber source p.interface = some id) :
    ∃ bytes, s.process source b = (.ok (some bytes), s) ∧
      Packet.parse .enhancedPacket .littleEndian bytes = .ok (p.translated id b.order) := by
  obtain ⟨hproper, hnone⟩ := Block.proper_of_accepted hb hc
  refine ⟨(p.translated id b.order).encode .littleEndian, ?_, Packet.parse_encode _ ?_ hproper.captured⟩
  · unfold process
    rw [hc]
    simp only [hid, packetInOutputOrder_eq id b.order hnone, Packet.encode_outputOrder]
  · unfold Packet.translated
    cases b.order.isBig with
    | false => exact hproper.options
    | true => exact hproper.options.swap _

theorem exists_first_place (host : Host) {sources : Nat} (hn : 1 < sources) {order : List (Nat × Block)} {source : Nat}
    {first : Interface} {more : List Interface} (hsection : openSection (ofSource source order) = first :: more) :
    ∃ s id, (Merger.ofCount host sources).after order = .synthesized s ∧ s.renumber source 0 = some id := by
  obtain ⟨s, hs, hnum⟩ := ofCount_numbers hn host order
  have hknown : (s.renumber source 0).isSome = true := by
    rw [hnum.renumber_isSome, hsection]
    rfl
  obtain ⟨id, hid⟩ := Option.isSome_iff_exists.mp hknown
  exact ⟨s, id, hs, hid⟩

/-- None of the padding is taken if the packet is whole, or if there is none. -/
theorem padding_taken_iff (i : Interface) (onWire : Nat) {kept padding : Bytes} (hkept : kept.length = i.keeps onWire)
    (hpadding : padding.length = paddedLength kept.length - kept.length) :
    kept ++ padding.take (onWire - kept.length) = kept ↔
      i.snaplen = 0 ∨ onWire ≤ i.snaplen.toNat ∨ i.snaplen.toNat % 4 = 0 := by
  have hzero : i.snaplen = 0 ↔ i.snaplen.toNat = 0 := by
    rw [← UInt32.toNat_inj]
    rfl
  rw [List.append_right_eq_self, ← List.length_eq_zero_iff, List.length_take, hpadding, hzero]
  unfold Interface.keeps at hkept
  unfold paddedLength
  split at hkept
  · rename_i h
    rw [hzero] at h
    omega
  · omega

/-- A simple packet block of an interface's section, which holds what the interface keeps of a packet
    and padding to 32 bits, is read and merged. What is written has the length on the wire and the
    data that was kept, and behind it as many bytes of the padding as the packet was clipped by and
    there are. So it has the kept data alone exactly if the packet was not clipped, or was clipped to
    a length that needs no padding. -/
theorem simple_packet_carries (host : Host) {sources : Nat} (hn : 1 < sources) (order : List (Nat × Block)) (source : Nat)
    {first : Interface} {more : List Interface} (hsection : openSection (ofSource source order) = first :: more)
    (o : ByteOrder) (onWire : UInt32) (kept padding : Bytes) (hkept : kept.length = first.keeps onWire.toNat)
    (hpadding : padding.length = paddedLength kept.length - kept.length)
    (hsize : (simpleBlock o onWire kept padding).length ≤ Block.maxSize) :
    ∃ b s id bytes p, Block.read (some o) (simpleBlock o onWire kept padding) = .ok b ∧
      (Merger.ofCount host sources).after order = .synthesized s ∧ s.renumber source 0 = some id ∧
      s.process source b = (.ok (some bytes), s) ∧ Packet.parse .enhancedPacket .littleEndian bytes = .ok p ∧
      p.interface = id ∧ p.onWire = onWire ∧ p.captured.toNat = p.data.length ∧
      p.data = kept ++ padding.take (onWire.toNat - kept.length) ∧
      (p.data = kept ↔ first.snaplen = 0 ∨ onWire.toNat ≤ first.snaplen.toNat ∨ first.snaplen.toNat % 4 = 0) := by
  have hle : kept.length ≤ onWire.toNat := by
    rw [hkept]
    unfold Interface.keeps
    split <;> omega
  have hmod : (kept.length + padding.length) % 4 = 0 := by
    have := le_paddedLength kept.length
    have := paddedLength_mod kept.length
    omega
  have hread := Block.read_simpleBlock hle hmod hsize
  have haccepted : Block.Accepted _ := .inl ⟨_, _, hread⟩
  obtain ⟨s, id, hs, hid⟩ := exists_first_place host hn hsection
  obtain ⟨bytes, hprocess, hparse⟩ := Synthesized.process_packet haccepted rfl hid
  exact ⟨_, s, id, bytes, _, hread, hs, hid, hprocess, hparse, rfl, rfl, (Block.proper_of_accepted haccepted rfl).1.captured,
    rfl, padding_taken_iff first onWire.toNat hkept hpadding⟩

/-- A section of big endian, whose only interface keeps five bytes of a packet. -/
def clippingInterface : Interface := Interface.make 1 5 []

def clippingSection : List (Nat × Block) := [
  (0, ⟨.bigEndian, (SectionHeader.ofOptions []).encode .bigEndian, .sectionHeader (SectionHeader.ofOptions [])⟩),
  (0, ⟨.bigEndian, clippingInterface.encode .bigEndian, .interface clippingInterface⟩)]

theorem simple_packet_carries_clipped :
    openSection (ofSource 0 clippingSection) = [clippingInterface] ∧
    ∃ b s id bytes p, Block.read (some .bigEndian) (simpleBlock .bigEndian 7 [1, 2, 3, 4, 5] [0xA, 0xB, 0xC]) = .ok b ∧
      (Merger.ofCount ⟨none, none⟩ 2).after clippingSection = .synthesized s ∧ s.renumber 0 0 = some id ∧
      s.process 0 b = (.ok (some bytes), s) ∧ Packet.parse .enhancedPacket .littleEndian bytes = .ok p ∧
      p.interface = id ∧ p.onWire = 7 ∧ p.captured.toNat = p.data.length ∧ p.data = [1, 2, 3, 4, 5, 0xA, 0xB] := by
  have hsection : openSection (ofSource 0 clippingSection) = [clippingInterface] := by decide +kernel
  obtain ⟨b, s, id, bytes, p, hread, hs, hid, hprocess, hparse, hinterface, hwire, hcaptured, hdata, -⟩ :=
    simple_packet_carries ⟨none, none⟩ (by decide : 1 < 2) clippingSection 0 hsection .bigEndian 7 [1, 2, 3, 4, 5]
      [0xA, 0xB, 0xC] (by decide) (by decide) (by decide)
  exact ⟨hsection, b, s, id, bytes, p, hread, hs, hid, hprocess, hparse, hinterface, hwire, hcaptured, hdata⟩

/-- A packet of nine bytes that was clipped to five, and has three bytes of padding behind them:
    the merger writes a packet of eight. -/
theorem clipped_packet_gains_padding :
    openSection (ofSource 0 clippingSection) = [clippingInterface] ∧ clippingInterface.keeps 9 = 5 ∧
    ∃ b s bytes p, Block.read (some .bigEndian) (simpleBlock .bigEndian 9 [1, 2, 3, 4, 5] [0, 0, 0]) = .ok b ∧
      (Merger.ofCount ⟨none, none⟩ 2).after clippingSection = .synthesized s ∧
      s.process 0 b = (.ok (some bytes), s) ∧ Packet.parse .enhancedPacket .littleEndian bytes = .ok p ∧
      p.captured = 8 ∧ p.data = [1, 2, 3, 4, 5, 0, 0, 0] := by
  have hsection : openSection (ofSource 0 clippingSection) = [clippingInterface] := by decide +kernel
  have hread : Block.read (some .bigEndian) (simpleBlock .bigEndian 9 [1, 2, 3, 4, 5] [0, 0, 0]) = .ok _ :=
    Block.read_simpleBlock (by decide) (by decide) (by decide)
  obtain ⟨s, id, hs, hid⟩ := exists_first_place ⟨none, none⟩ (by decide : 1 < 2) hsection
  obtain ⟨bytes, hprocess, hparse⟩ := Synthesized.process_packet (.inl ⟨_, _, hread⟩) rfl hid
  exact ⟨hsection, by decide, _, s, bytes, _, hread, hs, hprocess, hparse, rfl, rfl⟩

end CaptureRing
