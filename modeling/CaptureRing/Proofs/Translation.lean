/-
  CaptureRing.Proofs.Translation — a merged packet is the packet that was read.

  Packets arrive in four framings and two orders, and leave in one. What they are is their
  time, their two lengths, their data and their options; the merger changes the number of the
  interface, and turns the numbers among the option values of a big-endian block around.

  The time of a record is counted in the unit of its file. Two places look at that unit: the
  reader, when it tells the format of the stream, and the interface that stands for the file
  header. Both go by the same magic.

  Proved:
  - `Block.proper_of_accepted`: what was read as a packet can be written as one;
  - `record_of_accepted`: the records of a stream count time in the unit of the interface that
    its file header declares;
  - `merged_packet_same`: the bytes that are written for a packet are read as that packet.
-/

import CaptureRing.Proofs.Acceptance
import CaptureRing.Proofs.Numbering
import CaptureRing.Proofs.RoundTrip

namespace CaptureRing

/-! ## Packets that were read -/

def Block.Accepted (b : Block) : Prop :=
  (∃ current buf, Block.read current buf = .ok b) ∨ ∃ f buf, Block.readRecord f buf = .ok b

namespace Block

/-- A framed packet is in one of three forms, and a simple one has no options. -/
theorem packet_of_contentOf {o : ByteOrder} {raw : Bytes} {format : PacketFormat} {p : Packet}
    (h : contentOf o raw = .ok (.packet format p)) :
    p.Proper ∧ (∀ nanosecond, format ≠ .record nanosecond) ∧ (format = .simple → p.options = []) := by
  cases contentOf_cases h with
  | enhanced hp => exact ⟨(Packet.proper_of_parse hp).1, nofun, nofun⟩
  | simple hp =>
    obtain ⟨hproper, hnone⟩ := Packet.proper_of_parse hp
    exact ⟨hproper, nofun, fun _ => hnone rfl⟩
  | obsolete hp => exact ⟨(Packet.proper_of_parse hp).1, nofun, nofun⟩

/-- A record is read in the order and the unit of its file, as a packet without options. -/
theorem record_of_readRecord {f : PcapFormat} {buf : Bytes} {b : Block} (h : readRecord f buf = .ok b) :
    ∃ r, Record.parse f.order b.raw = .ok r ∧ b.order = f.order ∧
      b.content = .packet (.record f.nanosecond) (r.toPacket 0 f.nanosecond) := by
  obtain ⟨_, r, -, -, hr, rfl⟩ := readRecord_eq_ok h
  exact ⟨r, hr, rfl, rfl⟩

/-- What was read as a packet can be written as one, and where its framing has no options it has none. -/
theorem proper_of_accepted {b : Block} {format : PacketFormat} {p : Packet} (h : b.Accepted)
    (hc : b.content = .packet format p) :
    p.Proper ∧ (format ≠ .enhanced → format ≠ .obsolete → p.options = []) := by
  rcases h with ⟨current, buf, h⟩ | ⟨f, buf, h⟩
  · have hcontent := contentOf_of_read h
    rw [hc] at hcontent
    obtain ⟨hproper, hrecord, hsimple⟩ := packet_of_contentOf hcontent
    refine ⟨hproper, fun he ho => ?_⟩
    cases format with
    | enhanced => exact absurd rfl he
    | obsolete => exact absurd rfl ho
    | simple => exact hsimple rfl
    | record nanosecond => exact absurd rfl (hrecord nanosecond)
  · obtain ⟨r, hr, -, hcontent⟩ := record_of_readRecord h
    rw [hc] at hcontent
    cases hcontent
    exact ⟨⟨Record.captured_of_parse hr, .nil⟩, fun _ _ => rfl⟩

end Block

/-! ## The packet that is written -/

def Packet.translated (id : UInt32) (order : ByteOrder) (p : Packet) : Packet :=
  { p with interface := id, options := if order.isBig then p.options.swap OptionLayout.ofPacket else p.options }

/-- Where a framing has no options, there are none to turn around. -/
theorem packetInOutputOrder_eq {format : PacketFormat} {p : Packet} (id : UInt32) (order : ByteOrder)
    (h : format ≠ .enhanced → format ≠ .obsolete → p.options = []) :
    Synthesized.packetInOutputOrder order format { p with interface := id } = p.translated id order := by
  unfold Packet.translated Synthesized.packetInOutputOrder
  cases format with
  | enhanced | obsolete => cases order.isBig <;> rfl
  | simple =>
    rw [h nofun nofun]
    cases order.isBig <;> rfl
  | record nanosecond =>
    rw [h nofun nofun]
    cases order.isBig <;> rfl

theorem Packet.encode_outputOrder (p : Packet) : p.encode outputOrder = p.encode .littleEndian := rfl

theorem read_translated {p : Packet} (hp : p.Proper) (hsize : p.size ≤ Block.maxSize) (id : UInt32) (order : ByteOrder) :
    Block.read (some .littleEndian) ((p.translated id order).encode .littleEndian) =
      .ok ⟨.littleEndian, (p.translated id order).encode .littleEndian, .packet .enhanced (p.translated id order)⟩ := by
  apply Block.read_packet
  · refine ⟨hp.captured, ?_⟩
    unfold Packet.translated
    cases order.isBig with
    | false => exact hp.options
    | true => exact hp.options.swap _
  · have : (p.translated id order).size = p.size := by
      unfold Packet.translated Packet.size
      cases order.isBig <;> simp
    omega

/-! ## The time of a record -/

/-- How many units of its time an interface counts in a second: nanoseconds if it says so. -/
def Interface.unitsPerSecond (i : Interface) : Nat :=
  if (i.options.find Interface.resolutionCode).map BlockOption.value = some [9] then 10 ^ 9 else 10 ^ 6

theorem FileHeader.unitsPerSecond_toInterface (h : FileHeader) :
    h.toInterface.unitsPerSecond = Record.unitsPerSecond h.nanosecond := by
  unfold toInterface
  cases h.nanosecond <;> rfl

theorem Record.timestamp_toPacket (interface : UInt32) (nanosecond : Bool) (r : Record) :
    (r.toPacket interface nanosecond).timestamp.toNat = r.time nanosecond := by
  unfold toPacket
  rw [Packet.timestamp_withTimestamp, UInt64.toNat_ofNat']
  exact Nat.mod_eq_of_lt (r.time_lt nanosecond)

/-- The reader goes by the four bytes that stand in the header as its magic. -/
theorem nanosecond_of_readFileHeader {buf : Bytes} {b : Block} {f : PcapFormat}
    (h : Block.readFileHeader buf = .ok b) (hf : PcapFormat.ofMagic? (buf.take 4) = some f) :
    ∃ header, b.content = .fileHeader header ∧ header.nanosecond = f.nanosecond := by
  have hmagic : f.order.put32 (PcapFormat.magic f.nanosecond) = buf.take 4 := by
    simpa using List.find?_some hf
  obtain ⟨f', header, -, hf', hparse, rfl⟩ := Block.readFileHeader_eq_ok h
  obtain rfl : f = f' := Option.some.inj (hf.symm.trans hf')
  refine ⟨header, rfl, ?_⟩
  have hraw : buf.take FileHeader.size = f.order.put32 (PcapFormat.magic f.nanosecond)
      ++ (buf.take FileHeader.size).drop 4 := by
    rw [hmagic, show buf.take 4 = (buf.take FileHeader.size).take 4 by rw [List.take_take]; rfl, List.take_append_drop]
  have hfield := field32_put32 f.order ((buf.take FileHeader.size).drop 4) (PcapFormat.magic f.nanosecond)
  rw [← hraw, FileHeader.magic_of_parse hparse] at hfield
  unfold FileHeader.nanosecond
  rw [Except.ok.inj hfield]
  cases f.nanosecond <;> decide

theorem content_ne_record {current : Option ByteOrder} {buf : Bytes} {b : Block} {nanosecond : Bool} {p : Packet}
    (h : Block.read current buf = .ok b) : b.content ≠ .packet (.record nanosecond) p := by
  intro hc
  have hcontent := Block.contentOf_of_read h
  rw [hc] at hcontent
  exact (Block.packet_of_contentOf hcontent).2.1 nanosecond rfl

/-- A stream with a record in it is that of a classic capture: the header of the file, and then
    records. -/
theorem classic_of_record {r : Reader} {before : List Block} {b : Block} {nanosecond : Bool} {p : Packet}
    (h : before ++ [b] <+: (Stream.ofReader r).accepted) (hc : b.content = .packet (.record nanosecond) p) :
    ∃ (f : PcapFormat) (first : Block) (header : FileHeader) (records : List Block), before = first :: records ∧
      first.content = .fileHeader header ∧ header.nanosecond = f.nanosecond ∧
      ∀ x ∈ records ++ [b], ∃ buf, Block.readRecord f buf = .ok x := by
  rcases Stream.accepted_cases r with hnone | ⟨format, first, rest, hall, hbegins, hrest⟩
  · rw [hnone] at h
    simp at h
  rw [hall] at h
  cases before with
  | nil =>
    -- the first block of a stream is a framed one, or the header of a file
    have he : b = first := by simpa using h
    subst he
    cases format with
    | sectioned =>
      obtain ⟨current, buf, hread⟩ := hbegins
      exact absurd hc (content_ne_record hread)
    | classic f =>
      obtain ⟨buf, hread, hf⟩ := hbegins
      obtain ⟨header, hcontent, -⟩ := nanosecond_of_readFileHeader hread hf
      rw [hc] at hcontent
      cases hcontent
  | cons first' records =>
    obtain ⟨he, hlead⟩ := List.cons_prefix_cons.mp h
    subst he
    have hmem : ∀ x ∈ records ++ [b], format.Reads x := fun x hx => hrest x (hlead.subset hx)
    cases format with
    | sectioned =>
      obtain ⟨current, buf, hread⟩ := hmem b (by simp)
      exact absurd hc (content_ne_record hread)
    | classic f =>
      obtain ⟨buf, hread, hf⟩ := hbegins
      obtain ⟨header, hheader, hunit⟩ := nanosecond_of_readFileHeader hread hf
      exact ⟨f, first', header, records, rfl, hheader, hunit, hmem⟩

theorem openSection_records {f : PcapFormat} {first : Block} {header : FileHeader} {records : List Block}
    (hfirst : first.content = .fileHeader header) (h : ∀ x ∈ records, ∃ buf, Block.readRecord f buf = .ok x) :
    openSection (first :: records) = [header.toInterface] := by
  induction records using List.reverseRecOn with
  | nil =>
    show openSection ([] ++ [first]) = _
    rw [openSection_snoc]
    simp [Block.startsSection, Block.declares?, hfirst]
  | append_singleton records b ih =>
    obtain ⟨buf, hread⟩ := h b (by simp)
    obtain ⟨_, -, -, hcontent⟩ := Block.record_of_readRecord hread
    rw [← List.cons_append, openSection_snoc, ih fun x hx => h x (List.mem_append_left _ hx)]
    simp [Block.startsSection, Block.declares?, hcontent]

/-- The records of a stream are packets of the interface that its file header declares, and count
    their time in its unit. -/
theorem record_of_accepted {r : Reader} {before : List Block} {b : Block} {nanosecond : Bool} {p : Packet}
    (h : before ++ [b] <+: (Stream.ofReader r).accepted) (hc : b.content = .packet (.record nanosecond) p) :
    ∃ (header : FileHeader) (record : Record), openSection before = [header.toInterface] ∧ Record.parse b.order b.raw = .ok record ∧
      p.interface = 0 ∧ p.timestamp.toNat =
        record.seconds.toNat * header.toInterface.unitsPerSecond + record.fraction.toNat := by
  obtain ⟨f, first, header, records, rfl, hfirst, hunit, hrecords⟩ := classic_of_record h hc
  obtain ⟨buf, hb⟩ := hrecords b (by simp)
  obtain ⟨record, hparse, horder, hcontent⟩ := Block.record_of_readRecord hb
  rw [hc] at hcontent
  cases hcontent
  refine ⟨header, record, openSection_records hfirst fun x hx => hrecords x (List.mem_append_left _ hx), ?_, rfl, ?_⟩
  · rw [horder]
    exact hparse
  · rw [Record.timestamp_toPacket, FileHeader.unitsPerSecond_toInterface, hunit]
    rfl

/-! ## The packet is the same -/

/-- A packet that a reader accepted, of an interface that its source declared, is written as
    bytes that are read as that packet: on the place of its interface among all, with its time,
    its lengths, its data and its options, whose numbers are turned around if and only if they
    stood in big endian. A record's time is counted in the unit of the interface that its
    stream's file header declares, and always fits. -/
theorem merged_packet_same (host : Host) {sources : Nat} (hn : 1 < sources) (order : List (Nat × Block)) (source : Nat)
    {b : Block} {format : PacketFormat} {p : Packet} (hb : b.Accepted) (hc : b.content = .packet format p)
    (hdeclared : p.interface.toNat < (openSection (ofSource source order)).length) (hsize : p.size ≤ Block.maxSize) :
    (∃ s id bytes, (Merger.ofCount host sources).after order = .synthesized s ∧
      s.renumber source p.interface = some id ∧
      ((announced order).length ≤ 2 ^ 32 → ∃ i, (openSection (ofSource source order))[p.interface.toNat]? = some i ∧
        s.interfaces.toList[id.toNat]? = some i) ∧
      s.process source b = (.ok (some bytes), s) ∧
      Block.read (some .littleEndian) bytes =
        .ok ⟨.littleEndian, bytes, .packet .enhanced (p.translated id b.order)⟩) ∧
    ∀ (nanosecond : Bool) (r : Reader), format = .record nanosecond →
      ofSource source order ++ [b] <+: (Stream.ofReader r).accepted →
      ∃ (header : FileHeader) (record : Record), openSection (ofSource source order) = [header.toInterface] ∧
        Record.parse b.order b.raw = .ok record ∧
        p.timestamp.toNat =
          record.seconds.toNat * header.toInterface.unitsPerSecond + record.fraction.toNat := by
  obtain ⟨hproper, hnone⟩ := Block.proper_of_accepted hb hc
  obtain ⟨s, hs, hnum⟩ := ofCount_numbers hn host order
  have hsome : (s.renumber source p.interface).isSome = true := by
    rw [hnum.renumber_isSome]
    exact decide_eq_true hdeclared
  obtain ⟨id, hid⟩ := Option.isSome_iff_exists.mp hsome
  refine ⟨⟨s, id, (p.translated id b.order).encode .littleEndian, hs, hid, fun hlen => ?_, ?_,
    read_translated hproper hsize id b.order⟩, fun nanosecond r hformat hlead => ?_⟩
  · rw [hnum.interfaces]
    exact hnum.place hlen source _ id hid
  · unfold Synthesized.process
    rw [hc]
    simp only [hid, packetInOutputOrder_eq id b.order hnone, Packet.encode_outputOrder]
  · rw [hformat] at hc
    obtain ⟨header, record, hsection, hparse, -, htime⟩ := record_of_accepted hlead hc
    exact ⟨header, record, hsection, hparse, htime⟩

def filedHeader : Block :=
  ⟨.bigEndian, (FileHeader.make true 0 1).encode .bigEndian, .fileHeader (FileHeader.make true 0 1)⟩

def filedRecord : Block :=
  ⟨.bigEndian, (Record.ofData 3 7 [1, 2, 3]).encode .bigEndian,
    .packet (.record true) ((Record.ofData 3 7 [1, 2, 3]).toPacket 0 true)⟩

theorem merged_packet_same_record :
    (∃ s id bytes, (Merger.ofCount ⟨none, none⟩ 2).after [(0, filedHeader)] = .synthesized s ∧
      s.renumber 0 0 = some id ∧ s.process 0 filedRecord = (.ok (some bytes), s) ∧
      Block.read (some .littleEndian) bytes = .ok ⟨.littleEndian, bytes,
        .packet .enhanced (((Record.ofData 3 7 [1, 2, 3]).toPacket 0 true).translated id .bigEndian)⟩) ∧
    ∃ (header : FileHeader) (record : Record), openSection [filedHeader] = [header.toInterface] ∧
      Record.parse .bigEndian filedRecord.raw = .ok record ∧
      ((Record.ofData 3 7 [1, 2, 3]).toPacket 0 true).timestamp.toNat =
        record.seconds.toNat * header.toInterface.unitsPerSecond + record.fraction.toNat := by
  have hread : Block.readRecord ⟨.bigEndian, true⟩ filedRecord.raw = .ok filedRecord := by decide +kernel
  have hlead : [filedHeader] ++ [filedRecord] <+:
      (Stream.ofReader (Reader.ofBytes (filedHeader.raw ++ filedRecord.raw))).accepted := by decide +kernel
  obtain ⟨⟨s, id, bytes, hs, hid, -, hprocess, hsame⟩, htime⟩ :=
    merged_packet_same ⟨none, none⟩ (by decide : 1 < 2) [(0, filedHeader)] 0 (.inr ⟨_, _, hread⟩)
      (rfl : filedRecord.content = _) (by decide) (by decide)
  exact ⟨⟨s, id, bytes, hs, hid, hprocess, hsame⟩, htime true _ rfl hlead⟩

end CaptureRing
