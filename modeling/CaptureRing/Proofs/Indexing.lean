/-
  CaptureRing.Proofs.Indexing — reading a block stays inside its bytes.

  A reader cuts parts out of the bytes by their offsets, and takes lengths from one another. `take`,
  `drop` and the difference of two numbers have an answer for everything, so they would hide a part
  that is not there or a length below zero. Here blocks are read with each of these guarded: reading
  breaks down unless the part lies in the bytes, the difference is not negative, and the padded
  length fits 64 bits. Options are walked by a position in their data, which moves behind
  each value and behind as much of its padding as there is.

  Proved:
  - `Guarded.walk_eq`: from any position in the data the walk reads what is left of the options;
  - `Guarded.contentOf_eq`: the fields of a block, of whatever kind, are read as without the guards;
  - `Guarded.read_eq`, `Guarded.readRecord_eq`, `Guarded.readFileHeader_eq`: so are blocks, records and
    file headers, from any bytes;
  - `not_crash_of_refusal`: and of these none breaks down, so no guard is ever needed.
-/

import CaptureRing.Proofs.Refusals

namespace CaptureRing

/-! ## Fields and options behind a position -/

section Positions

variable {o : ByteOrder} {data : Bytes}

theorem corruptAs_bind {α β : Type} (cause : Malformed → Corruption) (r : Except Malformed α)
    (f : α → Except Malformed β) :
    corruptAs cause (r >>= f) = corruptAs cause r >>= fun a => corruptAs cause (f a) := by
  cases r <;> rfl

theorem fieldBytes_drop (pos offset width : Nat) (data : Bytes) :
    fieldBytes offset width (data.drop pos) = fieldBytes (pos + offset) width data := by
  unfold fieldBytes
  rw [List.drop_drop]

theorem field16_drop (o : ByteOrder) (pos offset : Nat) (data : Bytes) :
    field16 o offset (data.drop pos) = field16 o (pos + offset) data := by
  unfold field16
  rw [fieldBytes_drop]

theorem field32_drop (o : ByteOrder) (pos offset : Nat) (data : Bytes) :
    field32 o offset (data.drop pos) = field32 o (pos + offset) data := by
  unfold field32
  rw [fieldBytes_drop]

theorem field64_drop (o : ByteOrder) (pos offset : Nat) (data : Bytes) :
    field64 o offset (data.drop pos) = field64 o (pos + offset) data := by
  unfold field64
  rw [fieldBytes_drop]

/-- Three bytes are no option. -/
theorem Options.decode_of_short (h : data.length < 4) : decode o data = .ok [] := by
  match data, h with
  | [], _ | [_], _ | [_, _], _ | [_, _, _], _ => simp [decode]

/-- One option by its fields, and the others behind its padding. -/
theorem Options.decode_step (h : 4 ≤ data.length) : Options.decode o data = (do
    let code ← field16 o 0 data
    let length ← field16 o 2 data
    if code = 0 then return [BlockOption.terminator]
    else
      let value ← fieldBytes 4 length.toNat data
      let xs ← Options.decode o (data.drop (4 + paddedLength length.toNat))
      return ⟨code, length, value⟩ :: xs) := by
  match data, h with
  | c₀ :: c₁ :: l₀ :: l₁ :: rest, _ =>
    have hcode : field16 o 0 (c₀ :: c₁ :: l₀ :: l₁ :: rest) = .ok (UInt16.ofNat (o.get [c₀, c₁])) := rfl
    have hlength : field16 o 2 (c₀ :: c₁ :: l₀ :: l₁ :: rest) = .ok (UInt16.ofNat (o.get [l₀, l₁])) := rfl
    have hvalue (width : Nat) : fieldBytes 4 width (c₀ :: c₁ :: l₀ :: l₁ :: rest) = fieldBytes 0 width rest := rfl
    have hrest (n : Nat) : (c₀ :: c₁ :: l₀ :: l₁ :: rest).drop (4 + n) = rest.drop n := by
      rw [← List.drop_drop]
      rfl
    rw [hcode, hlength, ok_bind, ok_bind, Options.decode]
    generalize UInt16.ofNat (o.get [l₀, l₁]) = length
    rw [hvalue, hrest]
    unfold fieldBytes
    rw [List.drop_zero]
    split
    · rfl
    · cases split? length.toNat rest with
      | none => rfl
      | some p =>
        cases Options.decode o (rest.drop (paddedLength length.toNat)) with
        | error m => rfl
        | ok xs => rfl

end Positions

namespace Guarded

/-! ## Guards -/

/-- The difference of two lengths; the caller answers for the second being no greater. -/
def difference (a b : Nat) : Result Nat := if b ≤ a then .ok (a - b) else .error .crash

/-- The bytes from one offset up to another; the caller answers for both of them. -/
def part (a b : Nat) (bs : Bytes) : Result Bytes :=
  match slice? a b bs with
  | some p => .ok p
  | none => .error .crash

def padded (n : Nat) : Result Nat :=
  match paddedLength? n with
  | some p => .ok p
  | none => .error .crash

theorem difference_eq {a b : Nat} (h : b ≤ a) : difference a b = .ok (a - b) := if_pos h

theorem part_eq {a b : Nat} {bs : Bytes} (hab : a ≤ b) (hb : b ≤ bs.length) :
    part a b bs = .ok ((bs.take b).drop a) := by
  obtain ⟨rest, hsplit⟩ := exists_split (show b - a ≤ (bs.drop a).length by rw [List.length_drop]; omega)
  rw [List.drop_take]
  unfold part slice?
  rw [if_pos hab, hsplit]
  rfl

theorem part_front {n : Nat} {bs : Bytes} (h : n ≤ bs.length) : part 0 n bs = .ok (bs.take n) :=
  part_eq (Nat.zero_le n) h

theorem padded_eq {n : Nat} (h : n < 2 ^ 32) : padded n = .ok (paddedLength n) := by
  unfold padded
  rw [paddedLength?_eq_some (by omega)]

-- one too many of each
example : difference 3 4 = .error .crash ∧ part 2 4 [1, 2, 3] = .error .crash ∧
    padded (2 ^ 64 - 3) = .error .crash := by decide

/-! ## Options -/

/-- Options from a position in the data on, up to a terminator or to the last three bytes. -/
def walk (cause : Malformed → Corruption) (o : ByteOrder) (data : Bytes) (pos : Nat) : Result Options :=
  if data.length < pos then .error .crash
  else if data.length - pos < 4 then .ok []
  else do
    let code ← corruptAs cause (field16 o pos data)
    let length ← corruptAs cause (field16 o (pos + 2) data)
    if code = 0 then return [BlockOption.terminator]
    else
      let value ← corruptAs cause (fieldBytes (pos + 4) length.toNat data)
      let behind := pos + 4 + length.toNat
      let padding ← difference (← padded length.toNat) length.toNat
      let remain ← difference data.length behind
      let xs ← walk cause o data (behind + min padding remain)
      return ⟨code, length, value⟩ :: xs
termination_by data.length - pos
decreasing_by omega

/-- The bytes of the options, from the end of the fixed fields up to the trailing length; none if
    they would not start in front of it. -/
def area (start : Nat) (raw : Bytes) : Result Bytes :=
  -- this difference is meant to stop at zero
  let stop := raw.length - 4
  if stop ≤ start then .ok [] else part start stop raw

def options (cause : Malformed → Corruption) (o : ByteOrder) (start : Nat) (raw : Bytes) : Result Options := do
  walk cause o (← area start raw) 0

/-! ## Options are read within their bytes -/

section Options

variable {data : Bytes} {pos : Nat}

/-- A value that is there ends in the data, even if it is empty. -/
theorem end_of_value {width : Nat} {value : Bytes} (h : fieldBytes pos width data = .ok value)
    (hpos : pos ≤ data.length) : pos + width ≤ data.length := by
  rcases Nat.eq_zero_or_pos width with rfl | hwidth
  · exact hpos
  · exact le_length_of_fieldBytes h hwidth

/-- Padding that is not there leaves nothing behind it. -/
theorem drop_padding (behind padding : Nat) (data : Bytes) :
    data.drop (behind + min padding (data.length - behind)) = data.drop (behind + padding) := by
  rcases Nat.le_total padding (data.length - behind) with hle | hle
  · rw [Nat.min_eq_left hle]
  · rw [Nat.min_eq_right hle, List.drop_of_length_le (by omega), List.drop_of_length_le (by omega)]

/-- The position never leaves the data, and what is read from there on is what the data hold. -/
theorem walk_eq (cause : Malformed → Corruption) (o : ByteOrder) (hpos : pos ≤ data.length) :
    walk cause o data pos = corruptAs cause (Options.decode o (data.drop pos)) := by
  induction hn : data.length - pos using Nat.strongRecOn generalizing pos with
  | _ n ih =>
    have hleft : (data.drop pos).length = data.length - pos := List.length_drop
    unfold walk
    rw [if_neg (Nat.not_lt.mpr hpos)]
    by_cases hshort : data.length - pos < 4
    · rw [if_pos hshort, Options.decode_of_short (by omega)]
      rfl
    rw [if_neg hshort, Options.decode_step (by omega)]
    simp only [field16_drop, fieldBytes_drop, List.drop_drop, corruptAs_bind, Nat.add_zero]
    congr 1
    funext code
    congr 1
    funext length
    split
    · rfl
    cases hvalue : fieldBytes (pos + 4) length.toNat data with
    | error m => rfl
    | ok value =>
      have hend := end_of_value hvalue (by omega)
      have hlength := length.toNat_lt
      have hpadding := le_paddedLength length.toNat
      have hbehind : pos + 4 + length.toNat + (paddedLength length.toNat - length.toNat) =
          pos + (4 + paddedLength length.toNat) := by omega
      -- as much of the padding as there is ends in the data again
      have hrest : walk cause o data (pos + 4 + length.toNat +
            min (paddedLength length.toNat - length.toNat) (data.length - (pos + 4 + length.toNat))) =
          corruptAs cause (Options.decode o (data.drop (pos + (4 + paddedLength length.toNat)))) := by
        rw [ih _ (by omega) (by omega) rfl, drop_padding, hbehind]
      show (padded length.toNat >>= _) = corruptAs cause (Options.decode o _ >>= _)
      rw [padded_eq (by omega), ok_bind, difference_eq hpadding, ok_bind, difference_eq hend, ok_bind, hrest,
        corruptAs_bind]
      rfl

theorem area_eq (start : Nat) (raw : Bytes) : area start raw = .ok (optionsArea start raw) := by
  unfold area optionsArea
  dsimp only
  split
  · rename_i hnone
    rw [List.drop_of_length_le (by rw [List.length_take]; omega)]
  · exact part_eq (by omega) (by omega)

theorem options_eq (cause : Malformed → Corruption) (o : ByteOrder) (start : Nat) (raw : Bytes) :
    options cause o start raw = corruptAs cause (Options.decode o (optionsArea start raw)) := by
  unfold options
  rw [area_eq, ok_bind, walk_eq cause o (Nat.zero_le _), List.drop_zero]

end Options

/-! ## Kinds of blocks -/

def sectionHeader (o : ByteOrder) (raw : Bytes) : Result SectionHeader := do
  let body ← part 8 raw.length raw
  let magic ← corruptAs .sectionHeader (field32 o 0 body)
  let major ← corruptAs .sectionHeader (field16 o 4 body)
  let minor ← corruptAs .sectionHeader (field16 o 6 body)
  let length ← corruptAs .sectionHeader (field64 o 8 body)
  let options ← options .sectionHeader o 24 raw
  if major = 1 then return ⟨magic, major, minor, length.toInt64, options⟩ else corrupt (.version major minor)

def interface (o : ByteOrder) (raw : Bytes) : Result Interface := do
  let body ← part 8 raw.length raw
  let linktype ← corruptAs .interfaceDescription (field16 o 0 body)
  let reserved ← corruptAs .interfaceDescription (field16 o 2 body)
  let snaplen ← corruptAs .interfaceDescription (field32 o 4 body)
  let options ← options .interfaceDescription o 16 raw
  return ⟨linktype, reserved, snaplen, options⟩

def packetOn (cause : Malformed → Corruption) (o : ByteOrder) (raw body : Bytes) (index : UInt32) : Result Packet := do
  let tsHigh ← corruptAs cause (field32 o 4 body)
  let tsLow ← corruptAs cause (field32 o 8 body)
  let captured ← corruptAs cause (field32 o 12 body)
  let onWire ← corruptAs cause (field32 o 16 body)
  let room ← padded captured.toNat
  if raw.length < 28 + room + 4 then corrupt (cause (.capturedTooLong captured raw.length))
  else
    let data ← corruptAs cause (fieldBytes 20 captured.toNat body)
    let options ← options cause o (28 + room) raw
    return ⟨index, tsHigh, tsLow, captured, onWire, data, options⟩

def enhanced (o : ByteOrder) (raw : Bytes) : Result Packet := do
  let body ← part 8 raw.length raw
  packetOn (.packet .enhancedPacket) o raw body (← corruptAs (.packet .enhancedPacket) (field32 o 0 body))

def obsolete (o : ByteOrder) (raw : Bytes) : Result Packet := do
  let body ← part 8 raw.length raw
  let index ← corruptAs (.packet .packet) (field16 o 0 body)
  let _drops ← corruptAs (.packet .packet) (field16 o 2 body)
  packetOn (.packet .packet) o raw body index.toUInt32

def simple (o : ByteOrder) (raw : Bytes) : Result Packet := do
  let body ← part 8 raw.length raw
  let onWire ← corruptAs (.packet .simplePacket) (field32 o 0 body)
  let captured := min onWire.toNat (raw.length - 16)
  let data ← corruptAs (.packet .simplePacket) (fieldBytes 4 captured body)
  return ⟨0, 0, 0, UInt32.ofNat captured, onWire, data, []⟩

def contentOf (o : ByteOrder) (raw : Bytes) : Result BlockContent := do
  let kind ← wordAt o 0 raw
  match BlockKind.ofNumber? kind with
  | some .sectionHeader => .sectionHeader <$> sectionHeader o raw
  | some .interfaceDescription => .interface <$> interface o raw
  | some .enhancedPacket => .packet .enhanced <$> enhanced o raw
  | some .simplePacket => .packet .simple <$> simple o raw
  | some .packet => .packet .obsolete <$> obsolete o raw
  | _ => return .other kind

/-! ## Kinds are read within their bytes -/

section Kinds

variable (o : ByteOrder) (raw : Bytes)

/-- A decoder that takes its fields from behind the first eight bytes, which it trusts its caller with. -/
theorem decodeFrame_of_body {α β : Type} {cause : Malformed → Corruption} {decode : Bytes → Except Malformed α}
    {f : Bytes → Result β} {next : α → Result β} (h : f (raw.drop 8) = corruptAs cause (decode raw) >>= next) :
    part 8 raw.length raw >>= f = decodeFrame cause decode raw >>= next := by
  unfold decodeFrame
  split
  · unfold part slice?
    rw [if_neg (by omega)]
    rfl
  · rw [part_eq (by omega) (Nat.le_refl _), List.take_length, ok_bind, h]

theorem sectionHeader_eq : sectionHeader o raw = SectionHeader.parse o raw := by
  refine decodeFrame_of_body raw ?_
  unfold SectionHeader.decode
  simp only [field16_drop, field32_drop, field64_drop, options_eq, corruptAs_bind, bind_assoc]
  rfl

theorem interface_eq : interface o raw = Interface.parse o raw := by
  rw [← bind_pure (Interface.parse o raw)]
  refine decodeFrame_of_body raw ?_
  unfold Interface.decode
  simp only [field16_drop, field32_drop, options_eq, corruptAs_bind, bind_assoc]
  rfl

theorem packetOn_eq (cause : Malformed → Corruption) (index : UInt32) :
    packetOn cause o raw (raw.drop 8) index = corruptAs cause (Packet.decodeOn index o raw) := by
  unfold packetOn Packet.decodeOn
  simp only [field32_drop, fieldBytes_drop, options_eq, corruptAs_bind, Nat.reduceAdd]
  congr 1
  funext tsHigh
  congr 1
  funext tsLow
  congr 1
  funext captured
  congr 1
  funext onWire
  rw [padded_eq captured.toNat_lt, ok_bind]
  unfold Packet.capturedData
  split
  · rfl
  · rfl

theorem enhanced_eq : enhanced o raw = Packet.parse .enhancedPacket o raw := by
  rw [← bind_pure (Packet.parse .enhancedPacket o raw)]
  refine decodeFrame_of_body raw ?_
  unfold Packet.decodeEnhanced
  simp only [field32_drop, packetOn_eq, corruptAs_bind, bind_pure]

theorem obsolete_eq : obsolete o raw = Packet.parse .packet o raw := by
  rw [← bind_pure (Packet.parse .packet o raw)]
  refine decodeFrame_of_body raw ?_
  unfold Packet.decodeObsolete
  simp only [field16_drop, packetOn_eq, corruptAs_bind, bind_pure]

theorem simple_eq : simple o raw = Packet.parse .simplePacket o raw := by
  rw [← bind_pure (Packet.parse .simplePacket o raw)]
  refine decodeFrame_of_body raw ?_
  unfold Packet.decodeSimple
  simp only [field32_drop, fieldBytes_drop, corruptAs_bind, bind_pure]
  rfl

theorem contentOf_eq : contentOf o raw = Block.contentOf o raw := by
  unfold contentOf Block.contentOf
  congr 1
  funext kind
  cases BlockKind.ofNumber? kind with
  | none => rfl
  | some k =>
    cases k with
    | sectionHeader => exact congrArg (_ <$> ·) (sectionHeader_eq o raw)
    | interfaceDescription => exact congrArg (_ <$> ·) (interface_eq o raw)
    | enhancedPacket => exact congrArg (_ <$> ·) (enhanced_eq o raw)
    | simplePacket => exact congrArg (_ <$> ·) (simple_eq o raw)
    | packet => exact congrArg (_ <$> ·) (obsolete_eq o raw)
    | nameResolution | interfaceStatistics | decryptionSecrets | custom | customNoCopy => rfl

end Kinds

/-! ## Blocks -/

def read (current : Option ByteOrder) (buf : Bytes) : Result Block := do
  let (order, length) ← Block.frameHeader current buf
  if buf.length < length then fail (.truncatedBlock length buf.length)
  else
    let trailing ← wordAt order (← difference length 4) buf
    if trailing.toNat ≠ length then corrupt (.trailingLength trailing.toNat length)
    else
      let raw ← part 0 length buf
      let content ← contentOf order raw
      return ⟨order, raw, content⟩

def readRecord (f : PcapFormat) (buf : Bytes) : Result Block := do
  let length ← Block.recordLength f.order buf
  if buf.length < length then fail (.truncatedBlock length buf.length)
  else
    let raw ← part 0 length buf
    let r ← Record.parse f.order raw
    return ⟨f.order, raw, .packet (.record f.nanosecond) (r.toPacket 0 f.nanosecond)⟩

def readFileHeader (buf : Bytes) : Result Block := do
  if buf.length < FileHeader.size then fail (.truncatedBlock FileHeader.size buf.length)
  else
    let magic ← part 0 4 buf
    match PcapFormat.ofMagic? magic with
    | none => fail (.unknownMagic (UInt32.ofNat (ByteOrder.littleEndian.get magic)))
    | some f =>
      let raw ← part 0 FileHeader.size buf
      let header ← FileHeader.parse f.order raw
      return ⟨f.order, raw, .fileHeader header⟩

/-- The length of a block is at least that of its header, so its trailing length starts in it. -/
theorem read_eq (current : Option ByteOrder) (buf : Bytes) : read current buf = Block.read current buf := by
  unfold read Block.read
  cases hframe : Block.frameHeader current buf with
  | error e => rfl
  | ok frame =>
    obtain ⟨order, length⟩ := frame
    have hmin := Block.minSize_le_of_frameHeader hframe
    unfold Block.minSize at hmin
    rw [ok_bind, ok_bind]
    dsimp only
    split
    · rfl
    · rw [difference_eq (by omega), ok_bind, part_front (by omega)]
      simp only [ok_bind, contentOf_eq]

theorem readRecord_eq (f : PcapFormat) (buf : Bytes) : readRecord f buf = Block.readRecord f buf := by
  unfold readRecord Block.readRecord
  congr 1
  funext length
  split
  · rfl
  · rw [part_front (by omega), ok_bind]

theorem readFileHeader_eq (buf : Bytes) : readFileHeader buf = Block.readFileHeader buf := by
  unfold readFileHeader Block.readFileHeader
  split
  · rfl
  · rename_i hlen
    unfold FileHeader.size at hlen
    rw [part_front (by omega), part_front (by unfold FileHeader.size; omega)]
    rfl

end Guarded

/-- Bytes that are refused are not what a reader breaks down on. -/
theorem not_crash_of_refusal {α : Type} {r : Result α} (h : FailsAs Failure.Refusal r) : r ≠ .error .crash :=
  fun hr => nomatch h _ hr

end CaptureRing
