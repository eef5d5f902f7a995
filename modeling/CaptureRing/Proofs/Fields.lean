/-
  CaptureRing.Proofs.Fields — where a block has its fields.

  A decoder takes each field by its offset in the whole block, and stops at the first that is not
  there. So a block is decoded exactly if all its fields stand at their offsets, and what comes out
  is these fields; of every kind of block this is said once, and nothing else opens its decoder.

  Proved:
  - `fieldBytes_append`, `field32_put32` and the like: what was written is found where it was written;
  - `length_of_fieldBytes`, `le_length_of_fieldBytes`: a field has its width, and lies in the bytes;
  - `decode_iff` for each kind of block: it is decoded to the fields that stand in it.
-/

import CaptureRing.Proofs.Framing

namespace CaptureRing

/-! ## Fixed fields -/

namespace ByteOrder

variable (o : ByteOrder)

@[simp] theorem length_put16 (v : UInt16) : (o.put16 v).length = 2 := o.length_put 2 _

@[simp] theorem length_put32 (v : UInt32) : (o.put32 v).length = 4 := o.length_put 4 _

@[simp] theorem length_put64 (v : UInt64) : (o.put64 v).length = 8 := o.length_put 8 _

@[simp] theorem get_put16 (v : UInt16) : UInt16.ofNat (o.get (o.put16 v)) = v := by
  have := v.toNat_lt
  simp only [put16, get_put]
  rw [Nat.mod_eq_of_lt (by omega), UInt16.ofNat_toNat]

@[simp] theorem get_put32 (v : UInt32) : UInt32.ofNat (o.get (o.put32 v)) = v := by
  have := v.toNat_lt
  simp only [put32, get_put]
  rw [Nat.mod_eq_of_lt (by omega), UInt32.ofNat_toNat]

@[simp] theorem get_put64 (v : UInt64) : UInt64.ofNat (o.get (o.put64 v)) = v := by
  have := v.toNat_lt
  simp only [put64, get_put]
  rw [Nat.mod_eq_of_lt (by omega), UInt64.ofNat_toNat]

end ByteOrder

/-- A field behind `front` is one of what follows it. -/
theorem fieldBytes_append {front : Bytes} {offset : Nat} (h : front.length ≤ offset) (width : Nat) (rest : Bytes) :
    fieldBytes offset width (front ++ rest) = fieldBytes (offset - front.length) width rest := by
  unfold fieldBytes
  rw [List.drop_append, List.drop_of_length_le h, List.nil_append]

theorem fieldBytes_front {front : Bytes} {width : Nat} (h : front.length = width) (rest : Bytes) :
    fieldBytes 0 width (front ++ rest) = .ok front := by
  subst h
  simp [fieldBytes, split?_append]

theorem fieldBytes_eq (offset width : Nat) (raw : Bytes) : fieldBytes offset width raw =
    if ((raw.drop offset).take width).length = width then .ok ((raw.drop offset).take width) else .error .runsPast := by
  unfold fieldBytes split?
  by_cases h : ((raw.drop offset).take width).length = width
  · simp only [if_pos h]
  · simp only [if_neg h]

theorem fieldBytes_iff {offset width : Nat} {raw bs : Bytes} :
    fieldBytes offset width raw = .ok bs ↔ bs.length = width ∧ (raw.drop offset).take width = bs := by
  rw [fieldBytes_eq]
  split
  · rename_i hlen
    constructor
    · intro h
      cases h
      exact ⟨hlen, rfl⟩
    · rintro ⟨-, rfl⟩
      rfl
  · rename_i hlen
    exact ⟨nofun, fun ⟨hwidth, hbs⟩ => absurd (hbs ▸ hwidth) hlen⟩

theorem length_of_fieldBytes {offset width : Nat} {raw bs : Bytes} (h : fieldBytes offset width raw = .ok bs) :
    bs.length = width := (fieldBytes_iff.mp h).1

/-- A field lies in the bytes. -/
theorem le_length_of_fieldBytes {offset width : Nat} {raw bs : Bytes} (h : fieldBytes offset width raw = .ok bs)
    (hwidth : 0 < width) : offset + width ≤ raw.length := by
  obtain ⟨hlen, rfl⟩ := fieldBytes_iff.mp h
  rw [List.length_take, List.length_drop] at hlen
  omega

theorem exists_split {n : Nat} {bs : Bytes} (h : n ≤ bs.length) : ∃ rest, split? n bs = some (bs.take n, rest) :=
  ⟨_, split?_eq_some_iff.mpr ⟨(List.take_append_drop n bs).symm, by rw [List.length_take]; omega⟩⟩

theorem exists_fieldBytes {offset width : Nat} {raw : Bytes} (h : offset + width ≤ raw.length) :
    ∃ bs, fieldBytes offset width raw = .ok bs := by
  have hlen : width ≤ (raw.drop offset).length := by rw [List.length_drop]; omega
  obtain ⟨rest, hsplit⟩ := exists_split hlen
  simp [fieldBytes, hsplit]

theorem field32_iff {o : ByteOrder} {offset : Nat} {raw : Bytes} {v : UInt32} :
    field32 o offset raw = .ok v ↔ ∃ bs, fieldBytes offset 4 raw = .ok bs ∧ UInt32.ofNat (o.get bs) = v := by
  unfold field32
  cases fieldBytes offset 4 raw with
  | error m => exact ⟨nofun, nofun⟩
  | ok bs => simp [Except.map]

theorem field64_iff {o : ByteOrder} {offset : Nat} {raw : Bytes} {v : UInt64} :
    field64 o offset raw = .ok v ↔ ∃ bs, fieldBytes offset 8 raw = .ok bs ∧ UInt64.ofNat (o.get bs) = v := by
  unfold field64
  cases fieldBytes offset 8 raw with
  | error m => exact ⟨nofun, nofun⟩
  | ok bs => simp [Except.map]

theorem le_length_of_field32 {o : ByteOrder} {offset : Nat} {raw : Bytes} {v : UInt32} (h : field32 o offset raw = .ok v) :
    offset + 4 ≤ raw.length := by
  obtain ⟨bs, hbs, -⟩ := field32_iff.mp h
  exact le_length_of_fieldBytes hbs (by decide)

theorem le_length_of_field64 {o : ByteOrder} {offset : Nat} {raw : Bytes} {v : UInt64} (h : field64 o offset raw = .ok v) :
    offset + 8 ≤ raw.length := by
  obtain ⟨bs, hbs, -⟩ := field64_iff.mp h
  exact le_length_of_fieldBytes hbs (by decide)

section Fields

variable (o : ByteOrder) {front : Bytes} {offset : Nat} (rest : Bytes)

theorem field16_append (h : front.length ≤ offset) :
    field16 o offset (front ++ rest) = field16 o (offset - front.length) rest := by
  simp only [field16, fieldBytes_append h]

theorem field32_append (h : front.length ≤ offset) :
    field32 o offset (front ++ rest) = field32 o (offset - front.length) rest := by
  simp only [field32, fieldBytes_append h]

theorem field64_append (h : front.length ≤ offset) :
    field64 o offset (front ++ rest) = field64 o (offset - front.length) rest := by
  simp only [field64, fieldBytes_append h]

theorem field16_put16 (v : UInt16) : field16 o 0 (o.put16 v ++ rest) = .ok v := by
  simp [field16, fieldBytes_front, Except.map]

theorem field32_put32 (v : UInt32) : field32 o 0 (o.put32 v ++ rest) = .ok v := by
  simp [field32, fieldBytes_front, Except.map]

theorem field64_put64 (v : UInt64) : field64 o 0 (o.put64 v ++ rest) = .ok v := by
  simp [field64, fieldBytes_front, Except.map]

theorem wordAt_put32 (front : Bytes) (h : front.length = offset) (v : UInt32) :
    wordAt o offset (front ++ (o.put32 v ++ rest)) = .ok v := by
  have hslice : slice? offset (offset + 4) (front ++ (o.put32 v ++ rest)) = some (o.put32 v) := by
    have hsplit := @split?_append (o.put32 v) rest
    rw [ByteOrder.length_put32] at hsplit
    simp [slice?, List.drop_left' h, hsplit]
  simp [wordAt, hslice]

theorem exists_wordAt {bs : Bytes} (h : offset + 4 ≤ bs.length) : ∃ v, wordAt o offset bs = .ok v := by
  have hlen : 4 ≤ (bs.drop offset).length := by rw [List.length_drop]; omega
  obtain ⟨rest', hsplit⟩ := exists_split hlen
  simp [wordAt, slice?, hsplit]

end Fields

@[simp] theorem ok_bind {ε α β : Type} (a : α) (f : α → Except ε β) : (Except.ok a >>= f) = f a := rfl

/-- The options start where the fixed fields of the body end. -/
theorem optionsArea_frame (o : ByteOrder) (kind : UInt32) {start : Nat} {fixed : Bytes} (h : start = 8 + fixed.length)
    (options : Bytes) : optionsArea start (frame o kind (fixed ++ options)) = options := by
  subst h
  unfold optionsArea
  rw [length_frame]
  unfold frame
  simp only []
  rw [List.take_left' (by simp; omega), ← List.append_assoc, List.drop_left' (by simp; omega)]

theorem corruptAs_iff {α : Type} {cause : Malformed → Corruption} {r : Except Malformed α} {a : α} :
    corruptAs cause r = .ok a ↔ r = .ok a := by
  cases r with
  | error m => exact ⟨nofun, nofun⟩
  | ok b =>
    constructor
    · intro h
      cases h
      rfl
    · intro h
      cases h
      rfl

theorem decodeFrame_iff {α : Type} {cause : Malformed → Corruption} {decode : Bytes → Except Malformed α} {raw : Bytes}
    {a : α} : decodeFrame cause decode raw = .ok a ↔ 8 ≤ raw.length ∧ decode raw = .ok a := by
  unfold decodeFrame
  split
  · exact ⟨nofun, fun h => by omega⟩
  · rw [corruptAs_iff]
    exact (and_iff_right (by omega)).symm

/-! ## Kinds of blocks -/

section Kinds

variable {o : ByteOrder} {raw : Bytes}

structure SectionHeader.FoundIn (o : ByteOrder) (raw : Bytes) (s : SectionHeader) : Prop where
  magic : field32 o 8 raw = .ok s.magic
  major : field16 o 12 raw = .ok s.major
  minor : field16 o 14 raw = .ok s.minor
  length : field64 o 16 raw = .ok s.length.toUInt64
  options : Options.decode o (optionsArea 24 raw) = .ok s.options

theorem SectionHeader.decode_iff {s : SectionHeader} : decode o raw = .ok s ↔ s.FoundIn o raw := by
  constructor
  · intro h
    obtain ⟨magic, hmagic, h⟩ := Block.bind_eq_ok h
    obtain ⟨major, hmajor, h⟩ := Block.bind_eq_ok h
    obtain ⟨minor, hminor, h⟩ := Block.bind_eq_ok h
    obtain ⟨length, hlength, h⟩ := Block.bind_eq_ok h
    obtain ⟨options, hoptions, h⟩ := Block.bind_eq_ok h
    cases h
    exact ⟨hmagic, hmajor, hminor, hlength, hoptions⟩
  · rintro ⟨hmagic, hmajor, hminor, hlength, hoptions⟩
    simp only [decode, hmagic, hmajor, hminor, hlength, hoptions, ok_bind]
    rfl

/-- Only major version 1 is read. -/
theorem SectionHeader.parse_iff {s : SectionHeader} :
    parse o raw = .ok s ↔ 8 ≤ raw.length ∧ s.FoundIn o raw ∧ s.major = 1 := by
  unfold parse
  constructor
  · intro h
    obtain ⟨s', hs, h⟩ := Block.bind_eq_ok h
    obtain ⟨hlen, hdecode⟩ := decodeFrame_iff.mp hs
    split at h
    · rename_i hmajor
      cases h
      exact ⟨hlen, decode_iff.mp hdecode, hmajor⟩
    · cases h
  · rintro ⟨hlen, hfound, hmajor⟩
    rw [decodeFrame_iff.mpr ⟨hlen, decode_iff.mpr hfound⟩]
    exact if_pos hmajor

structure Interface.FoundIn (o : ByteOrder) (raw : Bytes) (i : Interface) : Prop where
  linktype : field16 o 8 raw = .ok i.linktype
  reserved : field16 o 10 raw = .ok i.reserved
  snaplen : field32 o 12 raw = .ok i.snaplen
  options : Options.decode o (optionsArea 16 raw) = .ok i.options

theorem Interface.decode_iff {i : Interface} : decode o raw = .ok i ↔ i.FoundIn o raw := by
  constructor
  · intro h
    obtain ⟨linktype, hlinktype, h⟩ := Block.bind_eq_ok h
    obtain ⟨reserved, hreserved, h⟩ := Block.bind_eq_ok h
    obtain ⟨snaplen, hsnaplen, h⟩ := Block.bind_eq_ok h
    obtain ⟨options, hoptions, h⟩ := Block.bind_eq_ok h
    cases h
    exact ⟨hlinktype, hreserved, hsnaplen, hoptions⟩
  · rintro ⟨hlinktype, hreserved, hsnaplen, hoptions⟩
    simp only [decode, hlinktype, hreserved, hsnaplen, hoptions, ok_bind]
    rfl

theorem Interface.parse_iff {i : Interface} : parse o raw = .ok i ↔ 8 ≤ raw.length ∧ i.FoundIn o raw :=
  decodeFrame_iff.trans (and_congr_right fun _ => decode_iff)

structure Statistics.FoundIn (o : ByteOrder) (raw : Bytes) (st : Statistics) : Prop where
  interface : field32 o 8 raw = .ok st.interface
  tsHigh : field32 o 12 raw = .ok st.tsHigh
  tsLow : field32 o 16 raw = .ok st.tsLow
  options : Options.decode o (optionsArea 20 raw) = .ok st.options

theorem Statistics.decode_iff {st : Statistics} : decode o raw = .ok st ↔ st.FoundIn o raw := by
  constructor
  · intro h
    obtain ⟨interface, hinterface, h⟩ := Block.bind_eq_ok h
    obtain ⟨tsHigh, hhigh, h⟩ := Block.bind_eq_ok h
    obtain ⟨tsLow, hlow, h⟩ := Block.bind_eq_ok h
    obtain ⟨options, hoptions, h⟩ := Block.bind_eq_ok h
    cases h
    exact ⟨hinterface, hhigh, hlow, hoptions⟩
  · rintro ⟨hinterface, hhigh, hlow, hoptions⟩
    simp only [decode, hinterface, hhigh, hlow, hoptions, ok_bind]
    rfl

theorem Statistics.parse_iff {st : Statistics} : parse o raw = .ok st ↔ 8 ≤ raw.length ∧ st.FoundIn o raw :=
  decodeFrame_iff.trans (and_congr_right fun _ => decode_iff)

structure Packet.FoundIn (o : ByteOrder) (raw : Bytes) (p : Packet) : Prop where
  tsHigh : field32 o 12 raw = .ok p.tsHigh
  tsLow : field32 o 16 raw = .ok p.tsLow
  captured : field32 o 20 raw = .ok p.captured
  onWire : field32 o 24 raw = .ok p.onWire
  data : capturedData p.captured raw = .ok p.data
  options : Options.decode o (optionsArea (28 + paddedLength p.captured.toNat) raw) = .ok p.options

theorem Packet.decodeOn_iff {interface : UInt32} {p : Packet} :
    decodeOn interface o raw = .ok p ↔ interface = p.interface ∧ p.FoundIn o raw := by
  constructor
  · intro h
    obtain ⟨tsHigh, hhigh, h⟩ := Block.bind_eq_ok h
    obtain ⟨tsLow, hlow, h⟩ := Block.bind_eq_ok h
    obtain ⟨captured, hcaptured, h⟩ := Block.bind_eq_ok h
    obtain ⟨onWire, hwire, h⟩ := Block.bind_eq_ok h
    obtain ⟨data, hdata, h⟩ := Block.bind_eq_ok h
    obtain ⟨options, hoptions, h⟩ := Block.bind_eq_ok h
    cases h
    exact ⟨rfl, hhigh, hlow, hcaptured, hwire, hdata, hoptions⟩
  · rintro ⟨rfl, hhigh, hlow, hcaptured, hwire, hdata, hoptions⟩
    simp only [decodeOn, hhigh, hlow, hcaptured, hwire, hdata, hoptions, ok_bind]
    rfl

theorem Packet.decodeEnhanced_iff {p : Packet} :
    decodeEnhanced o raw = .ok p ↔ field32 o 8 raw = .ok p.interface ∧ p.FoundIn o raw := by
  constructor
  · intro h
    obtain ⟨interface, hinterface, h⟩ := Block.bind_eq_ok h
    obtain ⟨rfl, hfound⟩ := decodeOn_iff.mp h
    exact ⟨hinterface, hfound⟩
  · rintro ⟨hinterface, hfound⟩
    simp only [decodeEnhanced, hinterface, ok_bind]
    exact decodeOn_iff.mpr ⟨rfl, hfound⟩

/-- The index has half the width it has in an enhanced packet, and the other half counts drops. -/
theorem Packet.decodeObsolete_iff {p : Packet} : decodeObsolete o raw = .ok p ↔
    (∃ index drops, field16 o 8 raw = .ok index ∧ field16 o 10 raw = .ok drops ∧ index.toUInt32 = p.interface) ∧
      p.FoundIn o raw := by
  constructor
  · intro h
    obtain ⟨index, hindex, h⟩ := Block.bind_eq_ok h
    obtain ⟨drops, hdrops, h⟩ := Block.bind_eq_ok h
    obtain ⟨hinterface, hfound⟩ := decodeOn_iff.mp h
    exact ⟨⟨index, drops, hindex, hdrops, hinterface⟩, hfound⟩
  · rintro ⟨⟨index, drops, hindex, hdrops, hinterface⟩, hfound⟩
    simp only [decodeObsolete, hindex, hdrops, ok_bind]
    exact decodeOn_iff.mpr ⟨hinterface, hfound⟩

/-- A simple packet has its length on the wire alone, and as much of its data as there is room for. -/
structure Packet.SimpleIn (o : ByteOrder) (raw : Bytes) (p : Packet) : Prop where
  onWire : field32 o 8 raw = .ok p.onWire
  captured : p.captured = UInt32.ofNat (min p.onWire.toNat (raw.length - 16))
  data : fieldBytes 12 (min p.onWire.toNat (raw.length - 16)) raw = .ok p.data
  interface : p.interface = 0
  tsHigh : p.tsHigh = 0
  tsLow : p.tsLow = 0
  options : p.options = []

theorem Packet.decodeSimple_iff {p : Packet} : decodeSimple o raw = .ok p ↔ p.SimpleIn o raw := by
  constructor
  · intro h
    obtain ⟨onWire, hwire, h⟩ := Block.bind_eq_ok h
    obtain ⟨data, hdata, h⟩ := Block.bind_eq_ok h
    cases h
    exact ⟨hwire, rfl, hdata, rfl, rfl, rfl, rfl⟩
  · obtain ⟨interface, tsHigh, tsLow, captured, onWire, data, options⟩ := p
    rintro ⟨hwire, hcaptured, hdata, hinterface, hhigh, hlow, hoptions⟩
    dsimp only at hwire hcaptured hdata hinterface hhigh hlow hoptions
    subst hcaptured hinterface hhigh hlow hoptions
    simp only [decodeSimple, hwire, ok_bind, hdata]
    rfl

structure Record.FoundIn (o : ByteOrder) (raw : Bytes) (r : Record) : Prop where
  seconds : field32 o 0 raw = .ok r.seconds
  fraction : field32 o 4 raw = .ok r.fraction
  captured : field32 o 8 raw = .ok r.captured
  onWire : field32 o 12 raw = .ok r.onWire
  data : slice? headerSize (headerSize + r.captured.toNat) raw = some r.data

theorem Record.decode_iff {r : Record} : decode o raw = .ok r ↔ r.FoundIn o raw := by
  constructor
  · intro h
    obtain ⟨seconds, hseconds, h⟩ := Block.bind_eq_ok h
    obtain ⟨fraction, hfraction, h⟩ := Block.bind_eq_ok h
    obtain ⟨captured, hcaptured, h⟩ := Block.bind_eq_ok h
    obtain ⟨onWire, hwire, h⟩ := Block.bind_eq_ok h
    split at h
    · rename_i data hdata
      cases h
      exact ⟨hseconds, hfraction, hcaptured, hwire, hdata⟩
    · cases h
  · rintro ⟨hseconds, hfraction, hcaptured, hwire, hdata⟩
    simp only [decode, hseconds, hfraction, hcaptured, hwire, ok_bind, hdata]
    rfl

theorem Record.parse_iff {r : Record} : parse o raw = .ok r ↔ r.FoundIn o raw := corruptAs_iff.trans decode_iff

end Kinds

end CaptureRing
