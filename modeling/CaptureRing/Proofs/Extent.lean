/-
  CaptureRing.Proofs.Extent — how far into a block its fields reach.

  A block ends with its length, told a second time, and what was read of it should not come from
  there. The packets that tell how much was captured are only read if their data ends in front of it.
  The other kinds are read as soon as all their fixed fields have bytes, so that in the shortest block
  that is read the trailing length is taken for the last of them.

  Proved:
  - `FoundIn.sameAhead` for each kind of block: with room for the trailing length behind the fixed
    fields, another one in its place changes nothing;
  - `ahead_or_ends` for each kind: there is this room, or the block ends with its fixed fields;
  - `fields_ahead_or_ending`: so nothing is read from the trailing length, except the last
    fixed field of a block that ends with it;
  - `short_blocks_are_read`: blocks of which this is so.
-/

import CaptureRing.Proofs.Readback
import CaptureRing.Proofs.Refusals

namespace CaptureRing

/-! ## The bytes in front of the trailing length -/

/-- As many bytes, and the same up to the trailing length. -/
structure SameAhead (raw raw' : Bytes) : Prop where
  length : raw'.length = raw.length
  ahead : raw'.take (raw.length - 4) = raw.take (raw.length - 4)

namespace SameAhead

variable {o : ByteOrder} {raw raw' : Bytes} {offset width : Nat}

theorem fieldBytes (h : SameAhead raw raw') (hroom : offset + width + 4 ≤ raw.length) :
    fieldBytes offset width raw' = fieldBytes offset width raw := by
  have hfront : (raw'.drop offset).take width = (raw.drop offset).take width := by
    have hcut : ∀ bs : Bytes, (bs.drop offset).take width = ((bs.take (raw.length - 4)).drop offset).take width := by
      intro bs
      rw [List.drop_take, List.take_take, Nat.min_eq_left (by omega)]
    rw [hcut raw', hcut raw, h.ahead]
  rw [fieldBytes_eq, fieldBytes_eq, hfront]

theorem field16 (h : SameAhead raw raw') (hroom : offset + 6 ≤ raw.length) :
    field16 o offset raw' = field16 o offset raw := by
  unfold CaptureRing.field16
  rw [h.fieldBytes (by omega)]

theorem field32 (h : SameAhead raw raw') (hroom : offset + 8 ≤ raw.length) :
    field32 o offset raw' = field32 o offset raw := by
  unfold CaptureRing.field32
  rw [h.fieldBytes (by omega)]

theorem field64 (h : SameAhead raw raw') (hroom : offset + 12 ≤ raw.length) :
    field64 o offset raw' = field64 o offset raw := by
  unfold CaptureRing.field64
  rw [h.fieldBytes (by omega)]

theorem optionsArea (h : SameAhead raw raw') (start : Nat) : optionsArea start raw' = optionsArea start raw := by
  unfold CaptureRing.optionsArea
  rw [h.length, h.ahead]

theorem capturedData (h : SameAhead raw raw') (captured : UInt32) :
    Packet.capturedData captured raw' = Packet.capturedData captured raw := by
  unfold Packet.capturedData
  rw [h.length]
  split
  · rfl
  · have := le_paddedLength captured.toNat
    exact h.fieldBytes (by omega)

end SameAhead

/-! ## Where the trailing length is not read -/

section Kinds

variable {o : ByteOrder} {raw raw' : Bytes}

theorem SectionHeader.FoundIn.sameAhead {s : SectionHeader} (h : s.FoundIn o raw) (hsame : SameAhead raw raw')
    (hroom : 28 ≤ raw.length) : s.FoundIn o raw' where
  magic := (hsame.field32 (by omega)).trans h.magic
  major := (hsame.field16 (by omega)).trans h.major
  minor := (hsame.field16 (by omega)).trans h.minor
  length := (hsame.field64 (by omega)).trans h.length
  options := hsame.optionsArea _ ▸ h.options

theorem Interface.FoundIn.sameAhead {i : Interface} (h : i.FoundIn o raw) (hsame : SameAhead raw raw')
    (hroom : 20 ≤ raw.length) : i.FoundIn o raw' where
  linktype := (hsame.field16 (by omega)).trans h.linktype
  reserved := (hsame.field16 (by omega)).trans h.reserved
  snaplen := (hsame.field32 (by omega)).trans h.snaplen
  options := hsame.optionsArea _ ▸ h.options

theorem Statistics.FoundIn.sameAhead {st : Statistics} (h : st.FoundIn o raw) (hsame : SameAhead raw raw')
    (hroom : 24 ≤ raw.length) : st.FoundIn o raw' where
  interface := (hsame.field32 (by omega)).trans h.interface
  tsHigh := (hsame.field32 (by omega)).trans h.tsHigh
  tsLow := (hsame.field32 (by omega)).trans h.tsLow
  options := hsame.optionsArea _ ▸ h.options

/-- There is room for the data, and so for the fields in front of it. -/
theorem Packet.FoundIn.length {p : Packet} (h : p.FoundIn o raw) : 32 ≤ raw.length := by
  have hdata := h.data
  unfold capturedData at hdata
  split at hdata
  · cases hdata
  · omega

theorem Packet.FoundIn.sameAhead {p : Packet} (h : p.FoundIn o raw) (hsame : SameAhead raw raw') : p.FoundIn o raw' :=
  have hroom := h.length
  { tsHigh := (hsame.field32 (by omega)).trans h.tsHigh
    tsLow := (hsame.field32 (by omega)).trans h.tsLow
    captured := (hsame.field32 (by omega)).trans h.captured
    onWire := (hsame.field32 (by omega)).trans h.onWire
    data := (hsame.capturedData _).trans h.data
    options := hsame.optionsArea _ ▸ h.options }

theorem Packet.SimpleIn.sameAhead {p : Packet} (h : p.SimpleIn o raw) (hsame : SameAhead raw raw')
    (hroom : 16 ≤ raw.length) : p.SimpleIn o raw' where
  onWire := (hsame.field32 (by omega)).trans h.onWire
  captured := by rw [hsame.length]; exact h.captured
  data := by
    rw [hsame.length]
    exact (hsame.fieldBytes (by omega)).trans h.data
  interface := h.interface
  tsHigh := h.tsHigh
  tsLow := h.tsLow
  options := h.options

/-! ## Fields that end a block -/

theorem field32_of_wordAt {offset : Nat} {v : UInt32} (h : wordAt o offset raw = .ok v) : field32 o offset raw = .ok v := by
  unfold wordAt slice? at h
  rw [if_pos (Nat.le_add_right _ _), Nat.add_sub_cancel_left] at h
  unfold field32 fieldBytes
  cases hs : split? 4 (raw.drop offset) with
  | none =>
    rw [hs] at h
    cases h
  | some p =>
    rw [hs] at h
    exact congrArg Except.ok (Except.ok.inj h)

/-- Options that would start behind the trailing length are none. -/
theorem options_eq_nil {start : Nat} {xs : Options} (h : Options.decode o (optionsArea start raw) = .ok xs)
    (hshort : raw.length ≤ start + 4) : xs = [] := by
  have hnone : optionsArea start raw = [] := List.drop_of_length_le (by rw [List.length_take]; omega)
  rw [hnone] at h
  simpa [Options.decode] using h.symm

theorem put_get_of_fieldBytes {offset width : Nat} {bs : Bytes} (h : fieldBytes offset width raw = .ok bs) :
    o.put width (o.get bs) = bs ∧ o.get bs < 256 ^ width := by
  have hput := o.put_get bs
  have hlt := o.get_lt bs
  rw [length_of_fieldBytes h] at hput hlt
  exact ⟨hput, hlt⟩

theorem put32_of_field32 {offset : Nat} {v : UInt32} (h : field32 o offset raw = .ok v) :
    (raw.drop offset).take 4 = o.put32 v := by
  obtain ⟨bs, hbs, rfl⟩ := field32_iff.mp h
  obtain ⟨hput, hlt⟩ := put_get_of_fieldBytes (o := o) hbs
  unfold ByteOrder.put32
  rw [UInt32.toNat_ofNat', Nat.mod_eq_of_lt (show o.get bs < 2 ^ 32 from hlt), hput]
  exact (fieldBytes_iff.mp hbs).2

theorem put64_of_field64 {offset : Nat} {v : UInt64} (h : field64 o offset raw = .ok v) :
    (raw.drop offset).take 8 = o.put64 v := by
  obtain ⟨bs, hbs, rfl⟩ := field64_iff.mp h
  obtain ⟨hput, hlt⟩ := put_get_of_fieldBytes (o := o) hbs
  unfold ByteOrder.put64
  rw [UInt64.toNat_ofNat', Nat.mod_eq_of_lt (show o.get bs < 2 ^ 64 from hlt), hput]
  exact (fieldBytes_iff.mp hbs).2

end Kinds

/-! ## In front of the trailing length, or ending with it -/

/-- There is room for so many bytes of fields and for the trailing length, and what was read does
    not depend on the latter. -/
structure Ahead {α : Type} (fixed : Nat) (parse : Bytes → Result α) (raw : Bytes) (a : α) : Prop where
  room : fixed + 4 ≤ raw.length
  kept : ∀ raw', SameAhead raw raw' → parse raw' = .ok a

structure Trailed (o : ByteOrder) (raw : Bytes) : Prop where
  whole : raw.length % 4 = 0
  trailing : wordAt o (raw.length - 4) raw = .ok (UInt32.ofNat raw.length)

section Kinds

variable {o : ByteOrder} {raw : Bytes}

theorem Trailed.field32 (h : Trailed o raw) {fixed : Nat} (hends : raw.length = fixed + 4) :
    field32 o fixed raw = .ok (UInt32.ofNat (fixed + 4)) := by
  have htrailing := h.trailing
  rw [hends, Nat.add_sub_cancel] at htrailing
  exact field32_of_wordAt htrailing

theorem sameAhead_trailing {fixed : Nat} (hends : raw.length = fixed + 4) (v : UInt32) :
    SameAhead raw (raw.take fixed ++ o.put32 v) ∧ field32 o fixed (raw.take fixed ++ o.put32 v) = .ok v := by
  have hfront : (raw.take fixed).length = fixed := by
    rw [List.length_take]
    omega
  refine ⟨⟨?_, ?_⟩, ?_⟩
  · rw [List.length_append, hfront, ByteOrder.length_put32, hends]
  · rw [hends, Nat.add_sub_cancel, List.take_left' hfront]
  · have hfield := field32_append o (o.put32 v) (Nat.le_of_eq hfront)
    rw [hfield, hfront, Nat.sub_self]
    simpa using field32_put32 o [] v

/-- The length of a section has eight bytes; with another trailing length the last four are others. -/
theorem SectionHeader.FoundIn.trailing {s : SectionHeader} (h : s.FoundIn o raw) (hends : raw.length = 20 + 4) (v : UInt32) :
    ∃ length, SectionHeader.FoundIn o (raw.take 20 ++ o.put32 v) { s with length } ∧
      o.put64 length.toUInt64 = (o.put64 s.length.toUInt64).take 4 ++ o.put32 v := by
  obtain ⟨hsame, -⟩ := sameAhead_trailing (o := o) hends v
  have hlen := hsame.length
  obtain ⟨bs, hbs⟩ := exists_fieldBytes (show 16 + 8 ≤ (raw.take 20 ++ o.put32 v).length by omega)
  have hlength : field64 o 16 (raw.take 20 ++ o.put32 v) = .ok (UInt64.ofNat (o.get bs)) :=
    field64_iff.mpr ⟨bs, hbs, rfl⟩
  refine ⟨(UInt64.ofNat (o.get bs)).toInt64, ⟨?_, ?_, ?_, hlength, ?_⟩, ?_⟩
  · exact (hsame.field32 (by omega)).trans h.magic
  · exact (hsame.field16 (by omega)).trans h.major
  · exact (hsame.field16 (by omega)).trans h.minor
  · exact hsame.optionsArea _ ▸ h.options
  · have hfront : 16 ≤ (raw.take 20).length := by
      rw [List.length_take]
      omega
    refine (put64_of_field64 hlength).symm.trans ?_
    rw [← put64_of_field64 h.length, List.take_take, List.drop_append_of_le_length hfront, List.drop_take]
    refine List.take_of_length_le ?_
    rw [List.length_append, List.length_take, List.length_drop, ByteOrder.length_put32]
    omega

theorem SectionHeader.ahead_or_ends {s : SectionHeader} (ht : Trailed o raw) (h : parse o raw = .ok s) :
    Ahead 24 (parse o) raw s ∨ (raw.length = 24 ∧ s.options = [] ∧
      (o.put64 s.length.toUInt64).drop 4 = o.put32 24 ∧ ∀ v, ∃ length, parse o (raw.take 20 ++ o.put32 v) =
        .ok { s with length } ∧ o.put64 length.toUInt64 = (o.put64 s.length.toUInt64).take 4 ++ o.put32 v) := by
  obtain ⟨hlen, hfound, hmajor⟩ := parse_iff.mp h
  have hle := le_length_of_field64 hfound.length
  by_cases hroom : 28 ≤ raw.length
  · exact .inl ⟨hroom, fun raw' hsame =>
      parse_iff.mpr ⟨by rw [hsame.length]; exact hlen, hfound.sameAhead hsame hroom, hmajor⟩⟩
  · have hwhole := ht.whole
    have hends : raw.length = 20 + 4 := by omega
    refine .inr ⟨hends, options_eq_nil hfound.options (by omega), ?_, fun v => ?_⟩
    · rw [← put64_of_field64 hfound.length, List.drop_take, List.drop_drop]
      exact put32_of_field32 (ht.field32 hends)
    · obtain ⟨length, hother, hbytes⟩ := hfound.trailing hends v
      refine ⟨length, parse_iff.mpr ⟨?_, hother, hmajor⟩, hbytes⟩
      rw [(sameAhead_trailing hends v).1.length]
      exact hlen

theorem Interface.ahead_or_ends {i : Interface} (ht : Trailed o raw) (h : parse o raw = .ok i) :
    Ahead 16 (parse o) raw i ∨ (raw.length = 16 ∧ i.options = [] ∧ i.snaplen = 16 ∧
      ∀ v, parse o (raw.take 12 ++ o.put32 v) = .ok { i with snaplen := v }) := by
  obtain ⟨hlen, hfound⟩ := parse_iff.mp h
  have hle := le_length_of_field32 hfound.snaplen
  by_cases hroom : 20 ≤ raw.length
  · exact .inl ⟨hroom, fun raw' hsame =>
      parse_iff.mpr ⟨by rw [hsame.length]; exact hlen, hfound.sameAhead hsame hroom⟩⟩
  · have hwhole := ht.whole
    have hends : raw.length = 12 + 4 := by omega
    refine .inr ⟨hends, options_eq_nil hfound.options (by omega),
      Except.ok.inj (hfound.snaplen.symm.trans (ht.field32 hends)), fun v => ?_⟩
    obtain ⟨hsame, hlast⟩ := sameAhead_trailing (o := o) hends v
    refine parse_iff.mpr ⟨by rw [hsame.length]; exact hlen, ?_, ?_, hlast, ?_⟩
    · exact (hsame.field16 (by omega)).trans hfound.linktype
    · exact (hsame.field16 (by omega)).trans hfound.reserved
    · exact hsame.optionsArea _ ▸ hfound.options

theorem Statistics.ahead_or_ends {st : Statistics} (ht : Trailed o raw) (h : parse o raw = .ok st) :
    Ahead 20 (parse o) raw st ∨ (raw.length = 20 ∧ st.options = [] ∧ st.tsLow = 20 ∧
      ∀ v, parse o (raw.take 16 ++ o.put32 v) = .ok { st with tsLow := v }) := by
  obtain ⟨hlen, hfound⟩ := parse_iff.mp h
  have hle := le_length_of_field32 hfound.tsLow
  by_cases hroom : 24 ≤ raw.length
  · exact .inl ⟨hroom, fun raw' hsame =>
      parse_iff.mpr ⟨by rw [hsame.length]; exact hlen, hfound.sameAhead hsame hroom⟩⟩
  · have hwhole := ht.whole
    have hends : raw.length = 16 + 4 := by omega
    refine .inr ⟨hends, options_eq_nil hfound.options (by omega),
      Except.ok.inj (hfound.tsLow.symm.trans (ht.field32 hends)), fun v => ?_⟩
    obtain ⟨hsame, hlast⟩ := sameAhead_trailing (o := o) hends v
    refine parse_iff.mpr ⟨by rw [hsame.length]; exact hlen, ?_, ?_, hlast, ?_⟩
    · exact (hsame.field32 (by omega)).trans hfound.interface
    · exact (hsame.field32 (by omega)).trans hfound.tsHigh
    · exact hsame.optionsArea _ ▸ hfound.options

namespace Packet

variable {p : Packet}

theorem simple_ahead_or_ends (ht : Trailed o raw) (h : parse .simplePacket o raw = .ok p) :
    Ahead 12 (parse .simplePacket o) raw p ∨ (raw.length = 12 ∧ p.data = [] ∧ p.onWire = 12 ∧
      ∀ v, parse .simplePacket o (raw.take 8 ++ o.put32 v) = .ok { p with onWire := v }) := by
  obtain ⟨hlen, hdecode⟩ := decodeFrame_iff.mp h
  have hfound := decodeSimple_iff.mp hdecode
  have hle := le_length_of_field32 hfound.onWire
  by_cases hroom : 16 ≤ raw.length
  · exact .inl ⟨hroom, fun raw' hsame =>
      decodeFrame_iff.mpr ⟨by rw [hsame.length]; exact hlen, decodeSimple_iff.mpr (hfound.sameAhead hsame hroom)⟩⟩
  · have hwhole := ht.whole
    have hends : raw.length = 8 + 4 := by omega
    -- there is no room for data, whatever the length on the wire
    have hnone (v : UInt32) : min v.toNat (raw.length - 16) = 0 := by omega
    have hdata : p.data = [] := List.length_eq_zero_iff.mp ((length_of_fieldBytes hfound.data).trans (hnone _))
    refine .inr ⟨hends, hdata, Except.ok.inj (hfound.onWire.symm.trans (ht.field32 hends)), fun v => ?_⟩
    obtain ⟨hsame, hlast⟩ := sameAhead_trailing (o := o) hends v
    refine decodeFrame_iff.mpr ⟨by rw [hsame.length]; exact hlen, decodeSimple_iff.mpr ⟨hlast, ?_, ?_, hfound.interface,
      hfound.tsHigh, hfound.tsLow, hfound.options⟩⟩
    · rw [hsame.length, hnone v, hfound.captured, hnone]
    · rw [hsame.length, hnone v, hdata]
      exact fieldBytes_iff.mpr ⟨rfl, List.take_zero⟩

/-- With a captured length of its own the packet is never too short. -/
theorem enhanced_ahead (h : parse .enhancedPacket o raw = .ok p) : Ahead 28 (parse .enhancedPacket o) raw p := by
  obtain ⟨hlen, hdecode⟩ := decodeFrame_iff.mp h
  obtain ⟨hinterface, hfound⟩ := decodeEnhanced_iff.mp hdecode
  have hroom := hfound.length
  refine ⟨hroom, fun raw' hsame => decodeFrame_iff.mpr ⟨by rw [hsame.length]; exact hlen, ?_⟩⟩
  exact decodeEnhanced_iff.mpr ⟨(hsame.field32 (by omega)).trans hinterface, hfound.sameAhead hsame⟩

theorem obsolete_ahead (h : parse .packet o raw = .ok p) : Ahead 28 (parse .packet o) raw p := by
  obtain ⟨hlen, hdecode⟩ := decodeFrame_iff.mp h
  obtain ⟨⟨index, drops, hindex, hdrops, hinterface⟩, hfound⟩ := decodeObsolete_iff.mp hdecode
  have hroom := hfound.length
  refine ⟨hroom, fun raw' hsame => decodeFrame_iff.mpr ⟨by rw [hsame.length]; exact hlen, ?_⟩⟩
  exact decodeObsolete_iff.mpr ⟨⟨index, drops, (hsame.field16 (by omega)).trans hindex,
    (hsame.field16 (by omega)).trans hdrops, hinterface⟩, hfound.sameAhead hsame⟩

end Packet

end Kinds

/-! ## Blocks -/

namespace Block

/-- All fields of the block are read from in front of its trailing length. -/
def FieldsAhead (b : Block) : Prop :=
  match b.content with
  | .sectionHeader s => Ahead 24 (SectionHeader.parse b.order) b.raw s
  | .interface i => Ahead 16 (Interface.parse b.order) b.raw i
  | .packet .enhanced p => Ahead 28 (Packet.parse .enhancedPacket b.order) b.raw p
  | .packet .obsolete p => Ahead 28 (Packet.parse .packet b.order) b.raw p
  | .packet .simple p => Ahead 12 (Packet.parse .simplePacket b.order) b.raw p
  | .packet (.record _) _ | .other _ | .fileHeader _ => True

/-- The block ends with its fixed fields, and the last four bytes of these are its trailing length: any
    other in its place would be read as they are, and nothing else would change. -/
def EndsInField (b : Block) : Prop :=
  match b.content with
  | .sectionHeader s =>
    b.raw.length = 24 ∧ s.options = [] ∧ (b.order.put64 s.length.toUInt64).drop 4 = b.order.put32 24 ∧
      ∀ v, ∃ length, SectionHeader.parse b.order (b.raw.take 20 ++ b.order.put32 v) = .ok { s with length } ∧
        b.order.put64 length.toUInt64 = (b.order.put64 s.length.toUInt64).take 4 ++ b.order.put32 v
  | .interface i =>
    b.raw.length = 16 ∧ i.options = [] ∧ i.snaplen = 16 ∧
      ∀ v, Interface.parse b.order (b.raw.take 12 ++ b.order.put32 v) = .ok { i with snaplen := v }
  | .packet .simple p =>
    b.raw.length = 12 ∧ p.data = [] ∧ p.onWire = 12 ∧
      ∀ v, Packet.parse .simplePacket b.order (b.raw.take 8 ++ b.order.put32 v) = .ok { p with onWire := v }
  | _ => False

structure Framed (current : Option ByteOrder) (buf : Bytes) (o : ByteOrder) (length : Nat) : Prop where
  header : frameHeader current buf = .ok (o, length)
  whole : length ≤ buf.length
  trailing : wordAt o (length - 4) buf = .ok (UInt32.ofNat length)

variable {current : Option ByteOrder} {buf : Bytes} {o : ByteOrder} {length : Nat} {b : Block}

/-- What is read of a framed block depends on its content alone. -/
theorem read_of_framed (h : Framed current buf o length) :
    read current buf = contentOf o (buf.take length) >>= fun content => .ok ⟨o, buf.take length, content⟩ := by
  have hbound := (frameHeader_eq_ok h.header).2.2.2
  have htotal : (UInt32.ofNat length).toNat = length := by
    rw [UInt32.toNat_ofNat']
    unfold maxSize at hbound
    exact Nat.mod_eq_of_lt (by omega)
  unfold read
  rw [h.header]
  simp only [ok_bind, if_neg (Nat.not_lt.mpr h.whole), h.trailing, htotal, ne_eq, not_true_eq_false, if_false]
  rfl

theorem framed_of_read (h : read current buf = .ok b) : Framed current buf b.order b.raw.length := by
  obtain ⟨length, hheader, hwhole, hraw, -⟩ := read_eq_ok h
  have hlen : b.raw.length = length := by
    rw [hraw, List.length_take]
    omega
  rw [hlen]
  refine ⟨hheader, hwhole, ?_⟩
  unfold read at h
  rw [hheader, ok_bind] at h
  dsimp only at h
  rw [if_neg (Nat.not_lt.mpr hwhole)] at h
  obtain ⟨trailing, htrailing, h⟩ := bind_eq_ok h
  split at h
  · cases h
  · rename_i hsame
    rw [htrailing, ← not_not.mp hsame, UInt32.ofNat_toNat]

theorem trailed_of_read (h : read current buf = .ok b) : Trailed b.order b.raw := by
  have hframed := framed_of_read h
  have hmin := minSize_le_of_frameHeader hframed.header
  unfold minSize at hmin
  have hwhole : buf = b.raw ++ buf.drop b.raw.length := by
    conv_lhs => rw [← List.take_append_drop b.raw.length buf, ← raw_read h]
  have htrailing := hframed.trailing
  rw [hwhole, wordAt_append _ (by omega)] at htrailing
  exact ⟨(length_of_read h).1, htrailing⟩

/-- What is read lies in front of the trailing length, or ends with it. -/
theorem ahead_or_ends (h : read current buf = .ok b) : b.FieldsAhead ∨ b.EndsInField := by
  have ht := trailed_of_read h
  have hcontent := contentOf_cases (contentOf_of_read h)
  unfold FieldsAhead EndsInField
  generalize b.content = content at hcontent
  cases hcontent with
  | sectionHeader _ hparse => exact SectionHeader.ahead_or_ends ht hparse
  | interface hparse => exact Interface.ahead_or_ends ht hparse
  | enhanced hparse => exact .inl (Packet.enhanced_ahead hparse)
  | obsolete hparse => exact .inl (Packet.obsolete_ahead hparse)
  | simple hparse => exact Packet.simple_ahead_or_ends ht hparse
  | other kind => exact .inl trivial

def leastSize : BlockKind → Nat
  | .sectionHeader => 24
  | .interfaceDescription => 16
  | .packet | .enhancedPacket => 32
  | _ => minSize

theorem leastSize_le {raw : Bytes} {kind : BlockKind} {content : BlockContent} (hkind : wordAt o 0 raw = .ok kind.number)
    (hmin : minSize ≤ raw.length) (h : contentOf o raw = .ok content) : leastSize kind ≤ raw.length := by
  unfold contentOf at h
  rw [hkind, ok_bind, BlockKind.ofNumber?_number] at h
  cases kind with
  | sectionHeader =>
    obtain ⟨s, hs, -⟩ := map_eq_ok h
    exact le_length_of_field64 (SectionHeader.parse_iff.mp hs).2.1.length
  | interfaceDescription =>
    obtain ⟨i, hi, -⟩ := map_eq_ok h
    exact le_length_of_field32 (Interface.parse_iff.mp hi).2.snaplen
  | packet =>
    obtain ⟨p, hp, -⟩ := map_eq_ok h
    exact (Packet.decodeObsolete_iff.mp (decodeFrame_iff.mp hp).2).2.length
  | enhancedPacket =>
    obtain ⟨p, hp, -⟩ := map_eq_ok h
    exact (Packet.decodeEnhanced_iff.mp (decodeFrame_iff.mp hp).2).2.length
  | simplePacket | nameResolution | interfaceStatistics | decryptionSecrets | custom | customNoCopy => exact hmin

theorem corrupt_of_short {kind : BlockKind} (h : Framed current buf o length) (hkind : wordAt o 0 buf = .ok kind.number)
    (hshort : length < leastSize kind) : ∃ c, read current buf = corrupt c := by
  have hmin := minSize_le_of_frameHeader h.header
  have hlen : (buf.take length).length = length := by
    rw [List.length_take]
    exact Nat.min_eq_left h.whole
  have hkind' : wordAt o 0 (buf.take length) = .ok kind.number := by
    unfold minSize at hmin
    rw [← wordAt_append o (by omega) (buf.drop length), List.take_append_drop]
    exact hkind
  rw [read_of_framed h]
  cases hc : contentOf o (buf.take length) with
  | error e =>
    obtain ⟨c, rfl⟩ := contentOf_fails (by unfold minSize at hmin; omega) e hc
    exact ⟨c, rfl⟩
  | ok content =>
    have := leastSize_le hkind' (by omega) hc
    omega

/-- Statistics are only read when they are merged. -/
theorem statistics_corrupt_of_short (h : read current buf = .ok b) (hshort : b.raw.length < 20) :
    ∃ c, Statistics.parse b.order b.raw = corrupt c := by
  have hmin := minSize_le_of_frameHeader (framed_of_read h).header
  unfold minSize at hmin
  cases hst : Statistics.parse b.order b.raw with
  | error e =>
    obtain ⟨c, rfl⟩ := Statistics.parse_fails (by omega) e hst
    exact ⟨c, rfl⟩
  | ok st =>
    have := le_length_of_field32 (Statistics.parse_iff.mp hst).2.tsLow
    omega

/-- Whatever bytes are read, all that is read of a block stands in front of its trailing length, and would
    be the same with any other there. Only a section header, an interface description and a simple packet
    may be just as long as their fixed fields: then the last four bytes of these are the trailing length,
    and nothing else depends on it. A block that is shorter still is corrupt, and so is a packet with a
    captured length of its own that has not room for both. With statistics it is the same. -/
theorem fields_ahead_or_ending (current : Option ByteOrder) (buf : Bytes) :
    (∀ b, read current buf = .ok b → b.FieldsAhead ∨ b.EndsInField) ∧
    (∀ o length kind, Framed current buf o length → wordAt o 0 buf = .ok (BlockKind.number kind) →
      length < leastSize kind → ∃ c, read current buf = corrupt c) ∧
    ∀ b, read current buf = .ok b →
      (∀ st, Statistics.parse b.order b.raw = .ok st → Ahead 20 (Statistics.parse b.order) b.raw st ∨
        (b.raw.length = 20 ∧ st.options = [] ∧ st.tsLow = 20 ∧
          ∀ v, Statistics.parse b.order (b.raw.take 16 ++ b.order.put32 v) = .ok { st with tsLow := v })) ∧
      (b.raw.length < 20 → ∃ c, Statistics.parse b.order b.raw = corrupt c) :=
  ⟨fun _ h => ahead_or_ends h, fun _ _ _ h hkind hshort => corrupt_of_short h hkind hshort,
    fun _ h => ⟨fun _ hst => Statistics.ahead_or_ends (trailed_of_read h) hst, statistics_corrupt_of_short h⟩⟩

/-- A packet of three bytes with an option, and nothing that ends the options. -/
def tightPacket : Bytes :=
  frame .bigEndian BlockKind.enhancedPacket.number
    (List.replicate 11 (0 : UInt8) ++ [9, 0, 0, 0, 3, 0, 0, 0, 3] ++ [1, 2, 3, 0] ++ [0, 1, 0, 3, 7, 7, 7, 0])

/-- It is read with any trailing length, and its fixed fields alone are corrupt if they are framed. -/
theorem fields_ahead_or_ending_tight :
    (∃ b, read (some .bigEndian) tightPacket = .ok b ∧ b.isPacket = true ∧ b.FieldsAhead) ∧
      ∃ c, read (some .bigEndian) (frame .bigEndian BlockKind.enhancedPacket.number (List.replicate 16 0)) = corrupt c := by
  have hread : read (some .bigEndian) tightPacket =
      .ok ⟨.bigEndian, tightPacket, .packet .enhanced ⟨0, 0, 9, 3, 3, [1, 2, 3], [⟨1, 3, [7, 7, 7]⟩]⟩⟩ := by
    decide +kernel
  refine ⟨⟨_, hread, rfl, ((fields_ahead_or_ending _ _).1 _ hread).resolve_right id⟩, ?_⟩
  refine (fields_ahead_or_ending _ _).2.1 .bigEndian 28 .enhancedPacket ⟨?_, ?_, ?_⟩ ?_ (by decide)
  all_goals decide +kernel

end Block

/-! ## Blocks that end in a field -/

def shortHeader : Bytes :=
  frame .littleEndian BlockKind.sectionHeader.number
    (ByteOrder.littleEndian.put32 byteOrderMagic ++ [1, 0, 0, 0] ++ [0, 0, 0, 0])

def shortInterface : Bytes := frame .littleEndian BlockKind.interfaceDescription.number [1, 0, 0, 0]

def shortPacket : Bytes := frame .littleEndian BlockKind.simplePacket.number []

def shortStatistics : Bytes := frame .littleEndian BlockKind.interfaceStatistics.number [0, 0, 0, 0, 0, 0, 0, 0]

/-- All of them are read, and what they do not have is read from their trailing length. -/
theorem short_blocks_are_read :
    (∃ b, Block.read none shortHeader = .ok b ∧ b.raw.length < 28 ∧ ¬ b.FieldsAhead) ∧
    (∃ b, Block.read (some .littleEndian) shortInterface = .ok b ∧ b.raw.length < 20 ∧ ¬ b.FieldsAhead) ∧
    (∃ b, Block.read (some .littleEndian) shortPacket = .ok b ∧ b.raw.length < 16 ∧ ¬ b.FieldsAhead) ∧
    ∃ st, Statistics.parse .littleEndian shortStatistics = .ok st ∧ shortStatistics.length < 24 ∧ st.tsLow = 20 := by
  refine ⟨⟨⟨.littleEndian, shortHeader, .sectionHeader ⟨byteOrderMagic, 1, 0, 0x1800000000, []⟩⟩, ?_, ?_, fun h => ?_⟩,
    ⟨⟨.littleEndian, shortInterface, .interface ⟨1, 0, 16, []⟩⟩, ?_, ?_, fun h => ?_⟩,
    ⟨⟨.littleEndian, shortPacket, .packet .simple ⟨0, 0, 0, 0, 12, [], []⟩⟩, ?_, ?_, fun h => ?_⟩,
    ⟨0, 0, 20, []⟩, ?_, ?_, rfl⟩
  case refine_3 | refine_6 | refine_9 => exact absurd h.room (by decide +kernel)
  all_goals decide +kernel

end CaptureRing
