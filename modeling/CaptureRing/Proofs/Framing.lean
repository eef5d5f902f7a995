/-
  CaptureRing.Proofs.Framing — what it means that a block was read.

  A block tells its length and its byte order in its first bytes, and reading it depends on no
  more than these say. Reading goes through several checks, any of which may fail; what holds
  when all went well is said here, once for each of its functions.

  Proved:
  - `frameHeader_append`, `recordLength_append`: what follows the first bytes of a block or a
    record makes no difference to its length (`frameHeader_take`, `recordLength_take`: nor what is cut off);
  - `frameHeader_eq_ok`, `read_eq_ok`, `recordLength_eq_ok`, `readRecord_eq_ok`,
    `readFileHeader_eq_ok`: what a success of each function tells;
  - `contentOf_cases`: what a block may hold, by its type.
-/

import CaptureRing.Stream

namespace CaptureRing

/-! ## Words -/

theorem wordAt_append (o : ByteOrder) {offset : Nat} {bs : Bytes} (h : offset + 4 ≤ bs.length) (more : Bytes) :
    wordAt o offset (bs ++ more) = wordAt o offset bs := by
  have hslice : slice? offset (offset + 4) (bs ++ more) = slice? offset (offset + 4) bs := by
    unfold slice? split?
    have hdrop : (bs.drop offset).length = bs.length - offset := List.length_drop
    rw [List.drop_append_of_le_length (by omega), List.take_append_of_le_length (by omega)]
    dsimp only
    split
    · split <;> rfl
    · rfl
  unfold wordAt
  rw [hslice]

/-- The type of a section header reads the same in every byte order. -/
theorem wordAt_sectionHeader {o : ByteOrder} {bs : Bytes} (h : wordAt o 0 bs = .ok BlockKind.sectionHeader.number)
    (o' : ByteOrder) : wordAt o' 0 bs = .ok BlockKind.sectionHeader.number := by
  unfold wordAt at h ⊢
  split at h
  · rename_i w hw
    obtain ⟨p, hp, rfl⟩ := Option.map_eq_some_iff.mp ((if_pos (Nat.le_add_right 0 4)).symm.trans hw)
    obtain ⟨-, hlen⟩ := split?_eq_some_iff.mp hp
    obtain ⟨w, rest⟩ := p
    match w, hlen with
    | [a, b, c, d], _ =>
      have hn : (UInt32.ofNat (o.get [a, b, c, d])).toNat = 0x0A0D0D0A :=
        congrArg UInt32.toNat (Except.ok.inj h)
      have ha := a.toNat_lt
      have hb := b.toNat_lt
      have hc := c.toNat_lt
      have hd := d.toNat_lt
      rw [UInt32.toNat_ofNat'] at hn
      -- the four bytes are the same from either end
      have hrev : ofDigits [d, c, b, a] = ofDigits [a, b, c, d] := by
        cases o with
        | bigEndian =>
          have hbig : ofDigits [d, c, b, a] % 2 ^ 32 = 0x0A0D0D0A := hn
          simp only [ofDigits] at hbig ⊢
          omega
        | littleEndian | wiresharkDefault =>
          have hlittle : ofDigits [a, b, c, d] % 2 ^ 32 = 0x0A0D0D0A := hn
          simp only [ofDigits] at hlittle ⊢
          omega
      have hget : ∀ o : ByteOrder, o.get [a, b, c, d] = ofDigits [a, b, c, d] := by
        intro o
        cases o with
        | bigEndian => exact hrev
        | littleEndian | wiresharkDefault => rfl
      show Except.ok (UInt32.ofNat (o'.get [a, b, c, d])) = _
      rw [hget o', ← hget o]
      exact h
  · cases h

theorem BlockKind.number_of_ofNumber? {n : UInt32} {k : BlockKind} (h : ofNumber? n = some k) : k.number = n := by
  have := List.find?_some h
  simpa using this

namespace Block

theorem map_eq_ok {α β : Type} {r : Result α} {f : α → β} {b : β} (h : f <$> r = .ok b) :
    ∃ a, r = .ok a ∧ f a = b := by
  cases r with
  | error e => cases h
  | ok a => exact ⟨a, rfl, Except.ok.inj h⟩

/-! ## The front of a block -/

section Front

variable {current : Option ByteOrder} {o : ByteOrder} {f : PcapFormat} {bs : Bytes} {length : Nat} {b : Block}

theorem orderOf_append (current : Option ByteOrder) {bs : Bytes} (h : 12 ≤ bs.length) (more : Bytes) :
    orderOf current (bs ++ more) = orderOf current bs := by
  unfold orderOf
  rw [wordAt_append _ (by omega), wordAt_append _ (by omega), wordAt_append _ (by omega)]

/-- The first twelve bytes tell the length of a block. -/
theorem frameHeader_append (current : Option ByteOrder) {bs : Bytes} (h : 12 ≤ bs.length) (more : Bytes) :
    frameHeader current (bs ++ more) = frameHeader current bs := by
  have hlen : ¬ (bs ++ more).length < minSize := by
    rw [List.length_append]
    unfold minSize
    omega
  unfold frameHeader
  rw [if_neg hlen, if_neg (by unfold minSize; omega), orderOf_append current h more]
  congr 1
  funext order
  rw [wordAt_append _ (by omega)]

theorem recordLength_append (o : ByteOrder) {bs : Bytes} (h : Record.headerSize ≤ bs.length) (more : Bytes) :
    recordLength o (bs ++ more) = recordLength o bs := by
  have hlen : ¬ (bs ++ more).length < Record.headerSize := by
    rw [List.length_append]
    omega
  unfold recordLength Record.capturedLength
  unfold Record.headerSize at h
  rw [if_neg hlen, if_neg (by unfold Record.headerSize; omega), wordAt_append _ (by omega)]

theorem frameHeader_take (current : Option ByteOrder) {bs : Bytes} {n : Nat} (hmin : minSize ≤ n) (hle : n ≤ bs.length) :
    frameHeader current (bs.take n) = frameHeader current bs := by
  have hlen : 12 ≤ (bs.take n).length := by
    rw [List.length_take, Nat.min_eq_left hle]
    exact hmin
  rw [← frameHeader_append current hlen (bs.drop n), List.take_append_drop]

theorem recordLength_take (o : ByteOrder) {bs : Bytes} {n : Nat} (hmin : Record.headerSize ≤ n) (hle : n ≤ bs.length) :
    recordLength o (bs.take n) = recordLength o bs := by
  have hlen : Record.headerSize ≤ (bs.take n).length := by
    rw [List.length_take, Nat.min_eq_left hle]
    exact hmin
  rw [← recordLength_append o hlen (bs.drop n), List.take_append_drop]

/-! ## What was read -/

theorem frameHeader_eq_ok (h : frameHeader current bs = .ok (o, length)) :
    orderOf current bs = .ok o ∧ minSize ≤ length ∧ length % 4 = 0 ∧ length ≤ maxSize := by
  unfold frameHeader at h
  split at h
  · cases h
  · obtain ⟨order, horder, h⟩ := bind_eq_ok h
    obtain ⟨total, -, h⟩ := bind_eq_ok h
    dsimp only at h
    split at h
    · cases h
    · rename_i hbounds
      cases h
      exact ⟨horder, by omega, by omega, by omega⟩

theorem read_eq_ok (h : read current bs = .ok b) : ∃ length, frameHeader current bs = .ok (b.order, length) ∧
    length ≤ bs.length ∧ b.raw = bs.take length ∧ contentOf b.order b.raw = .ok b.content := by
  unfold read at h
  obtain ⟨⟨order, length⟩, hframe, h⟩ := bind_eq_ok h
  dsimp only at h
  split at h
  · cases h
  · obtain ⟨trailing, -, h⟩ := bind_eq_ok h
    split at h
    · cases h
    · obtain ⟨content, hcontent, h⟩ := bind_eq_ok h
      cases h
      exact ⟨length, hframe, by omega, rfl, hcontent⟩

theorem recordLength_eq_ok (h : recordLength o bs = .ok length) :
    Record.headerSize ≤ length ∧ length ≤ Record.headerSize + maxSize := by
  unfold recordLength at h
  split at h
  · cases h
  · obtain ⟨captured, -, h⟩ := bind_eq_ok h
    split at h
    · cases h
    · cases h
      omega

theorem readRecord_eq_ok (h : readRecord f bs = .ok b) : ∃ length r, recordLength f.order bs = .ok length ∧
    length ≤ bs.length ∧ Record.parse f.order (bs.take length) = .ok r ∧
    b = ⟨f.order, bs.take length, .packet (.record f.nanosecond) (r.toPacket 0 f.nanosecond)⟩ := by
  unfold readRecord at h
  obtain ⟨length, hlength, h⟩ := bind_eq_ok h
  split at h
  · cases h
  · obtain ⟨r, hr, h⟩ := bind_eq_ok h
    cases h
    exact ⟨length, r, hlength, by omega, hr, rfl⟩

theorem readFileHeader_eq_ok (h : readFileHeader bs = .ok b) : ∃ f header, FileHeader.size ≤ bs.length ∧
    PcapFormat.ofMagic? (bs.take 4) = some f ∧ FileHeader.parse f.order (bs.take FileHeader.size) = .ok header ∧
    b = ⟨f.order, bs.take FileHeader.size, .fileHeader header⟩ := by
  unfold readFileHeader at h
  split at h
  · cases h
  · dsimp only at h
    split at h
    · cases h
    · rename_i f hf
      obtain ⟨header, hheader, h⟩ := bind_eq_ok h
      cases h
      exact ⟨f, header, by omega, hf, hheader, rfl⟩

inductive ContentOf (o : ByteOrder) (raw : Bytes) : BlockContent → Prop
  | sectionHeader {header : SectionHeader} : wordAt o 0 raw = .ok BlockKind.sectionHeader.number →
      SectionHeader.parse o raw = .ok header → ContentOf o raw (.sectionHeader header)
  | interface {i : Interface} : Interface.parse o raw = .ok i → ContentOf o raw (.interface i)
  | enhanced {p : Packet} : Packet.parse .enhancedPacket o raw = .ok p → ContentOf o raw (.packet .enhanced p)
  | simple {p : Packet} : Packet.parse .simplePacket o raw = .ok p → ContentOf o raw (.packet .simple p)
  | obsolete {p : Packet} : Packet.parse .packet o raw = .ok p → ContentOf o raw (.packet .obsolete p)
  | other (kind : UInt32) : ContentOf o raw (.other kind)

theorem contentOf_cases {raw : Bytes} {content : BlockContent} (h : contentOf o raw = .ok content) :
    ContentOf o raw content := by
  unfold contentOf at h
  obtain ⟨kind, hkind, h⟩ := bind_eq_ok h
  split at h
  · rename_i hk
    obtain ⟨header, hheader, rfl⟩ := map_eq_ok h
    exact .sectionHeader (by rw [hkind, ← BlockKind.number_of_ofNumber? hk]) hheader
  · obtain ⟨i, hi, rfl⟩ := map_eq_ok h
    exact .interface hi
  · obtain ⟨p, hp, rfl⟩ := map_eq_ok h
    exact .enhanced hp
  · obtain ⟨p, hp, rfl⟩ := map_eq_ok h
    exact .simple hp
  · obtain ⟨p, hp, rfl⟩ := map_eq_ok h
    exact .obsolete hp
  · cases h
    exact .other kind

/-! ## Small facts -/

theorem minSize_le_of_frameHeader (h : frameHeader current bs = .ok (o, length)) : minSize ≤ length :=
  (frameHeader_eq_ok h).2.1

theorem raw_of_read (hf : frameHeader current bs = .ok (o, length)) (h : read current bs = .ok b) :
    b.raw = bs.take length := by
  obtain ⟨n, hframe, -, hraw, -⟩ := read_eq_ok h
  rw [hf] at hframe
  cases hframe
  exact hraw

theorem headerSize_le_of_recordLength (h : recordLength o bs = .ok length) : Record.headerSize ≤ length :=
  (recordLength_eq_ok h).1

theorem raw_of_readRecord (hl : recordLength f.order bs = .ok length) (h : readRecord f bs = .ok b) :
    b.raw = bs.take length := by
  obtain ⟨n, r, hn, -, -, rfl⟩ := readRecord_eq_ok h
  rw [hl] at hn
  cases hn
  rfl

/-- The content of a block is read from its own bytes, in its own order. -/
theorem contentOf_of_read (h : read current bs = .ok b) : contentOf b.order b.raw = .ok b.content := by
  obtain ⟨_, -, -, -, hcontent⟩ := read_eq_ok h
  exact hcontent

/-- A block that bears the type of a section header is one. -/
theorem startsSection_of_read {current : Option ByteOrder} {bs : Bytes} {b : Block} (h : read current bs = .ok b)
    (hk : wordAt .littleEndian 0 b.raw = .ok BlockKind.sectionHeader.number) : b.startsSection = true := by
  have hc := contentOf_of_read h
  unfold contentOf at hc
  rw [wordAt_sectionHeader hk b.order] at hc
  obtain ⟨kind, hkind, hc⟩ := bind_eq_ok hc
  cases hkind
  rw [BlockKind.ofNumber?_number] at hc
  obtain ⟨header, -, hc⟩ := map_eq_ok hc
  unfold startsSection
  rw [← hc]

theorem startsSection_of_readFileHeader (h : readFileHeader bs = .ok b) : b.startsSection = true := by
  obtain ⟨_, _, -, -, -, rfl⟩ := readFileHeader_eq_ok h
  rfl

theorem raw_of_readFileHeader (h : readFileHeader bs = .ok b) : b.raw = bs.take FileHeader.size := by
  obtain ⟨_, _, -, -, -, rfl⟩ := readFileHeader_eq_ok h
  rfl

end Front

end Block

/-- A stream is sectioned if its first four bytes are the type of a section header. -/
theorem wordAt_of_formatOf {magic : Bytes} (hlen : magic.length = 4)
    (h : Stream.formatOf magic = .ok .sectioned) :
    wordAt .littleEndian 0 magic = .ok BlockKind.sectionHeader.number := by
  have hslice : slice? 0 (0 + 4) magic = some magic := by
    unfold slice?
    rw [if_pos (Nat.zero_le _)]
    exact congrArg (Option.map (·.1)) (split?_eq_some_iff.mpr ⟨(List.append_nil magic).symm, hlen⟩)
  unfold Stream.formatOf at h
  split at h
  · cases h
  · dsimp only at h
    split at h
    · rename_i hm
      unfold wordAt
      rw [hslice]
      exact congrArg Except.ok hm
    · cases h

end CaptureRing
