/-
  CaptureRing.Proofs.Delimiting — a block tells where it ends.

  What is read from the front of a buffer has a header of a fixed size, and the header tells how long
  the whole is. A reader asks for the header first, then for as many bytes as it tells, and what it
  makes of these depends on no others. Of blocks, records and file headers this is said in the same
  words (`Headed`), and then what follows from it once for all three.

  Proved:
  - `Headed.delimits`: what was read has the first bytes of the buffer as its own, is the same in front
    of any others, and cannot be read from fewer; how many were needed is told with the failure;
  - `headed_read`, `headed_readRecord`, `headed_readFileHeader`: how each of the three is headed;
  - `self_delimiting`: so all of them are told by their own bytes, and reading them stays inside
    the buffer, whatever is in it.
-/

import CaptureRing.Proofs.Indexing
import CaptureRing.Proofs.Legibility

namespace CaptureRing

namespace Block

/-! ## A header that tells the length -/

/-- A reader that needs so many bytes to tell how long a block is, and then the block. -/
structure Headed (header : Nat) (lengthOf : Bytes → Result Nat) (reader : Bytes → Result Block) : Prop where
  /-- Without a header there is no block. -/
  headless : ∀ {bs : Bytes}, bs.length < header → reader bs = fail (.truncatedBlock header bs.length)
  least : ∀ {bs : Bytes} {n : Nat}, lengthOf bs = .ok n → header ≤ n
  /-- The length is told by the header alone. -/
  told : ∀ {bs : Bytes} {n : Nat}, header ≤ n → n ≤ bs.length → lengthOf (bs.take n) = lengthOf bs
  lacking : ∀ {bs : Bytes} {n : Nat}, lengthOf bs = .ok n → bs.length < n →
    reader bs = fail (.truncatedBlock n bs.length)
  /-- What is read is read from as many bytes as were told. -/
  whole : ∀ {bs : Bytes} {n : Nat}, lengthOf bs = .ok n → n ≤ bs.length → reader bs = reader (bs.take n)
  own : ∀ {bs : Bytes} {b : Block}, reader bs = .ok b → lengthOf bs = .ok b.raw.length ∧ b.raw = bs.take b.raw.length

structure DelimitedBy (header : Nat) (reader : Bytes → Result Block) (buf : Bytes) (b : Block) : Prop where
  /-- They are the first of the buffer. -/
  front : buf.take b.raw.length = b.raw
  /-- In front of any others they are the same block. -/
  alone : ∀ rest, reader (b.raw ++ rest) = .ok b
  /-- Fewer of them are no block: the header is lacking, or what it tells of. -/
  cut : ∀ m, m < b.raw.length →
    reader (buf.take m) = fail (.truncatedBlock (if m < header then header else b.raw.length) m)

namespace Headed

variable {header : Nat} {lengthOf : Bytes → Result Nat} {reader : Bytes → Result Block} {buf : Bytes} {b : Block}

theorem delimits (h : Headed header lengthOf reader) (hread : reader buf = .ok b) :
    DelimitedBy header reader buf b := by
  obtain ⟨hlength, hraw⟩ := h.own hread
  have hleast := h.least hlength
  have hle : b.raw.length ≤ buf.length := by
    have hlen := congrArg List.length hraw
    rw [List.length_take] at hlen
    omega
  have hown : reader b.raw = .ok b := by
    rw [hraw, ← h.whole hlength hle, hread]
  have htold := h.told hleast hle
  rw [← hraw, hlength] at htold
  refine ⟨hraw.symm, fun rest => ?_, fun m hm => ?_⟩
  · have hlonger : b.raw.length ≤ (b.raw ++ rest).length := by
      rw [List.length_append]
      omega
    have hsame := h.told hleast hlonger
    rw [List.take_left, htold] at hsame
    rw [h.whole hsame.symm hlonger, List.take_left, hown]
  · have hlen : (buf.take m).length = m := by
      rw [List.length_take]
      omega
    split
    · rename_i hshort
      rw [h.headless (by omega), hlen]
    · rename_i hheader
      -- the header is there, and tells of more bytes than there are
      have hmore : lengthOf (buf.take m) = .ok b.raw.length := by
        rw [h.told (by omega) (by omega), hlength]
      rw [h.lacking hmore (by omega), hlen]

end Headed

/-! ## Blocks, records and file headers -/

def frameLength (current : Option ByteOrder) (bs : Bytes) : Result Nat := (·.2) <$> frameHeader current bs

theorem frameLength_eq_ok {current : Option ByteOrder} {bs : Bytes} {n : Nat} (h : frameLength current bs = .ok n) :
    ∃ o, frameHeader current bs = .ok (o, n) := by
  obtain ⟨⟨o, length⟩, hframe, rfl⟩ := map_eq_ok h
  exact ⟨o, hframe⟩

/-- Twelve bytes tell the length of a block. -/
theorem headed_read (current : Option ByteOrder) : Headed minSize (frameLength current) (read current) where
  headless {bs} h := by
    unfold read frameHeader
    rw [if_pos h]
    rfl
  least h := by
    obtain ⟨o, hframe⟩ := frameLength_eq_ok h
    exact minSize_le_of_frameHeader hframe
  told hmin hle := by
    unfold frameLength
    rw [frameHeader_take current hmin hle]
  lacking {bs n} h hlt := by
    obtain ⟨o, hframe⟩ := frameLength_eq_ok h
    unfold read
    rw [hframe, ok_bind]
    exact if_pos hlt
  whole {bs n} h hle := by
    obtain ⟨o, hframe⟩ := frameLength_eq_ok h
    have hown : frameHeader current (bs.take n) = .ok (o, (bs.take n).length) := by
      rw [frameHeader_take current (minSize_le_of_frameHeader hframe) hle, hframe, List.length_take,
        Nat.min_eq_left hle]
    rw [← read_append hown (bs.drop n), List.take_append_drop]
  own {bs b} h := by
    refine ⟨?_, raw_read h⟩
    obtain ⟨length, hframe, hle, hraw, -⟩ := read_eq_ok h
    unfold frameLength
    rw [hframe, hraw, List.length_take, Nat.min_eq_left hle]
    rfl

/-- Sixteen bytes tell the length of a record, in the order of its file. -/
theorem headed_readRecord (f : PcapFormat) : Headed Record.headerSize (recordLength f.order) (readRecord f) where
  headless {bs} h := by
    unfold readRecord recordLength
    rw [if_pos h]
    rfl
  least h := headerSize_le_of_recordLength h
  told hmin hle := recordLength_take f.order hmin hle
  lacking {bs n} h hlt := by
    unfold readRecord
    rw [h, ok_bind]
    exact if_pos hlt
  whole {bs n} h hle := by
    have hlen : (bs.take n).length = n := by
      rw [List.length_take]
      omega
    have hown : recordLength f.order (bs.take n) = .ok n := by
      rw [recordLength_take f.order (headerSize_le_of_recordLength h) hle, h]
    unfold readRecord
    rw [h, hown, ok_bind, ok_bind, if_neg (by omega), if_neg (by omega), List.take_take, Nat.min_self]
  own {bs b} h := by
    obtain ⟨length, r, hlength, hle, -, rfl⟩ := readRecord_eq_ok h
    dsimp only
    rw [List.length_take, Nat.min_eq_left hle]
    exact ⟨hlength, rfl⟩

/-- A file header is all header. -/
theorem headed_readFileHeader : Headed FileHeader.size (fun _ => .ok FileHeader.size) readFileHeader where
  headless h := if_pos h
  least h := Nat.le_of_eq (Except.ok.inj h)
  told _ _ := rfl
  lacking h hlt := by
    cases h
    exact if_pos hlt
  whole {bs n} h hle := by
    cases h
    unfold readFileHeader
    rw [if_neg (by omega), if_neg (by rw [List.length_take]; omega), List.take_take, List.take_take, Nat.min_self]
    rfl
  own {bs b} h := by
    have hlen := (readFileHeader_raw h).2
    rw [hlen]
    exact ⟨rfl, raw_of_readFileHeader h⟩

/-! ## Told by their own bytes -/

/-- For any bytes and any order of the section or the file: a block, a record or a file header that is
    read has the first bytes of the buffer as its own, is read from these whatever follows them, and
    from no fewer. Then it is truncated, and needs 12, 16 or 24 bytes for its header; with the header,
    as many as it tells. And with every index and every difference of lengths guarded, the buffer gives
    the same, block or failure, and reading it does not break down. -/
theorem self_delimiting (current : Option ByteOrder) (f : PcapFormat) (buf : Bytes) :
    ((∀ b, read current buf = .ok b → DelimitedBy 12 (read current) buf b) ∧
      (∀ b, readRecord f buf = .ok b → DelimitedBy 16 (readRecord f) buf b) ∧
      ∀ b, readFileHeader buf = .ok b → DelimitedBy 24 readFileHeader buf b ∧ b.raw.length = 24) ∧
    (Guarded.read current buf = read current buf ∧ read current buf ≠ .error .crash) ∧
    (Guarded.readRecord f buf = readRecord f buf ∧ readRecord f buf ≠ .error .crash) ∧
    Guarded.readFileHeader buf = readFileHeader buf ∧ readFileHeader buf ≠ .error .crash := by
  refine ⟨⟨fun b h => ?_, fun b h => ?_, fun b h => ⟨?_, ?_⟩⟩, ⟨?_, ?_⟩, ⟨?_, ?_⟩, ?_, ?_⟩
  · exact (headed_read current).delimits h
  · exact (headed_readRecord f).delimits h
  · exact headed_readFileHeader.delimits h
  · exact (readFileHeader_raw h).2
  · exact Guarded.read_eq current buf
  · exact not_crash_of_refusal read_fails
  · exact Guarded.readRecord_eq f buf
  · exact not_crash_of_refusal readRecord_fails
  · exact Guarded.readFileHeader_eq buf
  · exact not_crash_of_refusal readFileHeader_fails

def paddedPacket : Packet := ⟨0, 0, 9, 3, 5, [1, 2, 3], Options.ofList [BlockOption.make 1 [7, 7, 7]]⟩

def oddRecord : Record := Record.ofData 1 2 [1, 2, 3]

/-- With other bytes behind them, a block, a record and a file header are read as they stand; cut short,
    each tells what is lacking of it. -/
theorem self_delimiting_padded :
    (∃ b, read (some .bigEndian) (paddedPacket.encode .bigEndian ++ [10, 13]) = .ok b ∧ b.raw.length = 48 ∧
      (∀ rest, read (some .bigEndian) (b.raw ++ rest) = .ok b) ∧
      read (some .bigEndian) ((paddedPacket.encode .bigEndian ++ [10, 13]).take 11) = fail (.truncatedBlock 12 11) ∧
      read (some .bigEndian) ((paddedPacket.encode .bigEndian ++ [10, 13]).take 47) = fail (.truncatedBlock 48 47)) ∧
    (∃ b, readRecord ⟨.bigEndian, true⟩ (oddRecord.encode .bigEndian ++ [10]) = .ok b ∧ b.raw.length = 19 ∧
      readRecord ⟨.bigEndian, true⟩ ((oddRecord.encode .bigEndian ++ [10]).take 16) = fail (.truncatedBlock 19 16)) ∧
    ∃ b, readFileHeader ((FileHeader.make true 0 1).encode .littleEndian ++ [10]) = .ok b ∧
      readFileHeader (((FileHeader.make true 0 1).encode .littleEndian ++ [10]).take 4) =
        fail (.truncatedBlock 24 4) := by
  have hblock : read (some .bigEndian) (paddedPacket.encode .bigEndian ++ [10, 13]) =
      .ok ⟨.bigEndian, paddedPacket.encode .bigEndian, .packet .enhanced paddedPacket⟩ := by
    decide +kernel
  have hrecord : readRecord ⟨.bigEndian, true⟩ (oddRecord.encode .bigEndian ++ [10]) =
      .ok ⟨.bigEndian, oddRecord.encode .bigEndian, .packet (.record true) (oddRecord.toPacket 0 true)⟩ := by
    decide +kernel
  have hheader : readFileHeader ((FileHeader.make true 0 1).encode .littleEndian ++ [10]) =
      .ok ⟨.littleEndian, (FileHeader.make true 0 1).encode .littleEndian, .fileHeader (FileHeader.make true 0 1)⟩ := by
    decide +kernel
  have hblocked := (self_delimiting (some .bigEndian) ⟨.bigEndian, true⟩ _).1.1 _ hblock
  have hrecorded := (self_delimiting none ⟨.bigEndian, true⟩ _).1.2.1 _ hrecord
  have hheaded := ((self_delimiting none ⟨.littleEndian, true⟩ _).1.2.2 _ hheader).1
  refine ⟨⟨_, hblock, by decide, hblocked.alone, ?_, ?_⟩, ⟨_, hrecord, by decide, ?_⟩, _, hheader, ?_⟩
  · exact hblocked.cut 11 (by decide)
  · exact hblocked.cut 47 (by decide)
  · exact hrecorded.cut 16 (by decide)
  · exact hheaded.cut 4 (by decide)

end Block

end CaptureRing
