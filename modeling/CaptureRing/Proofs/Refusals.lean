/-
  CaptureRing.Proofs.Refusals — what becomes of bytes that are no block.

  Every word of a block is taken behind a check that its bytes are there, so reading never breaks
  down. It refuses the bytes: some are missing, their magic is unknown, or something in them is
  corrupt. The fields of a block are read when it is there as a whole, and of these failures only the
  last is left then.

  Proved:
  - `contentOf_fails`, `Statistics.parse_fails`: fields that cannot be read are corrupt;
  - `read_fails`, `readFileHeader_fails`, `readRecord_fails`: bytes of which no block can be read are
    refused;
  - `midStream_of_refusal`: in the middle of a stream every refusal is a corruption.
-/

import CaptureRing.Proofs.RoundTrip

namespace CaptureRing

namespace Failure

def IsCorruption (e : Failure) : Prop := ∃ c, e = .error (.streamCorrupt c)

inductive Refusal : Failure → Prop
  | truncated (needed available : Nat) : Refusal (.error (.truncatedBlock needed available))
  | magic (m : UInt32) : Refusal (.error (.unknownMagic m))
  | corrupt (c : Corruption) : Refusal (.error (.streamCorrupt c))

theorem IsCorruption.refusal {e : Failure} (h : e.IsCorruption) : e.Refusal := by
  obtain ⟨c, rfl⟩ := h
  exact .corrupt c

end Failure

/-- In the middle of a stream whatever is refused is corrupt. -/
theorem Stream.midStream_of_refusal {e : Failure} (h : e.Refusal) : (midStream e).IsCorruption := by
  cases h with
  | truncated needed available => exact ⟨.truncated needed available, rfl⟩
  | magic m => exact ⟨.magic m, rfl⟩
  | corrupt c => exact ⟨c, rfl⟩

/-! ## How a computation fails -/

def FailsAs {α : Type} (P : Failure → Prop) (r : Result α) : Prop := ∀ e, r = .error e → P e

namespace FailsAs

variable {α β : Type} {P Q : Failure → Prop} {r : Result α}

theorem ok (a : α) : FailsAs P (.ok a) := nofun

theorem error {e : Failure} (h : P e) : FailsAs P (.error e : Result α) := by
  intro e' he
  cases he
  exact h

theorem of_ok {a : α} (h : r = .ok a) : FailsAs P r := h ▸ ok a

theorem mono (h : FailsAs P r) (hpq : ∀ e, P e → Q e) : FailsAs Q r := fun e he => hpq e (h e he)

theorem bind {f : α → Result β} (h : FailsAs P r) (hnext : ∀ a, r = .ok a → FailsAs P (f a)) :
    FailsAs P (r >>= f) := by
  cases r with
  | error e => exact error (h e rfl)
  | ok a => exact hnext a rfl

theorem map {f : α → β} (h : FailsAs P r) : FailsAs P (f <$> r) := by
  cases r with
  | error e => exact error (h e rfl)
  | ok a => exact ok (f a)

theorem wordAt {o : ByteOrder} {offset : Nat} {bs : Bytes} (h : offset + 4 ≤ bs.length) :
    FailsAs P (wordAt o offset bs) := by
  obtain ⟨v, hv⟩ := exists_wordAt o h
  exact of_ok hv

theorem corruptAs (cause : Malformed → Corruption) (r : Except Malformed α) :
    FailsAs Failure.IsCorruption (corruptAs cause r) := by
  cases r with
  | error m => exact error ⟨cause m, rfl⟩
  | ok a => exact ok a

theorem decodeFrame (cause : Malformed → Corruption) (decode : Bytes → Except Malformed α) {raw : Bytes}
    (h : 8 ≤ raw.length) : FailsAs Failure.IsCorruption (decodeFrame cause decode raw) := by
  unfold CaptureRing.decodeFrame
  rw [if_neg (by omega)]
  exact corruptAs cause _

end FailsAs

/-! ## Fields -/

section Fields

variable {o : ByteOrder} {raw : Bytes}

theorem SectionHeader.parse_fails (h : 8 ≤ raw.length) : FailsAs Failure.IsCorruption (parse o raw) := by
  unfold parse
  refine .bind (.decodeFrame _ _ h) fun s _ => ?_
  split
  · exact .ok s
  · exact .error ⟨_, rfl⟩

theorem Interface.parse_fails (h : 8 ≤ raw.length) : FailsAs Failure.IsCorruption (parse o raw) := .decodeFrame _ _ h

theorem Packet.parse_fails (kind : BlockKind) (h : 8 ≤ raw.length) : FailsAs Failure.IsCorruption (parse kind o raw) :=
  .decodeFrame _ _ h

theorem Statistics.parse_fails (h : 8 ≤ raw.length) : FailsAs Failure.IsCorruption (parse o raw) := .decodeFrame _ _ h

/-- Of a whole block the fields may be corrupt, and nothing else can be wrong with it. -/
theorem Block.contentOf_fails (h : 8 ≤ raw.length) : FailsAs Failure.IsCorruption (contentOf o raw) := by
  unfold contentOf
  refine .bind (.wordAt (by omega)) fun kind _ => ?_
  split
  · exact .map (SectionHeader.parse_fails h)
  · exact .map (Interface.parse_fails h)
  · exact .map (Packet.parse_fails _ h)
  · exact .map (Packet.parse_fails _ h)
  · exact .map (Packet.parse_fails _ h)
  · exact .ok _

end Fields

/-! ## Blocks -/

namespace Block

variable {current : Option ByteOrder} {f : PcapFormat} {buf : Bytes}

theorem orderOf_fails (h : minSize ≤ buf.length) : FailsAs Failure.Refusal (orderOf current buf) := by
  unfold minSize at h
  unfold orderOf
  refine .bind (.wordAt (by omega)) fun kind _ => ?_
  split
  · refine .bind (.wordAt (by omega)) fun little _ => .bind (.wordAt (by omega)) fun big _ => ?_
    split
    · exact .ok _
    · split
      · exact .ok _
      · exact .error (.magic little)
  · split
    · exact .ok _
    · exact .error (.corrupt _)

theorem frameHeader_fails : FailsAs Failure.Refusal (frameHeader current buf) := by
  unfold frameHeader
  split
  · exact .error (.truncated _ _)
  · rename_i hlen
    have hmin : minSize ≤ buf.length := by omega
    refine .bind (orderOf_fails hmin) fun order _ => .bind (.wordAt (by unfold minSize at hmin; omega)) fun total _ => ?_
    dsimp only
    split
    · exact .error (.corrupt _)
    · exact .ok _

theorem read_fails : FailsAs Failure.Refusal (read current buf) := by
  unfold read
  refine .bind frameHeader_fails fun frame hframe => ?_
  obtain ⟨order, length⟩ := frame
  have hmin := minSize_le_of_frameHeader hframe
  unfold minSize at hmin
  dsimp only
  split
  · exact .error (.truncated _ _)
  · refine .bind (.wordAt (by omega)) fun trailing _ => ?_
    split
    · exact .error (.corrupt _)
    · have hraw : 8 ≤ (buf.take length).length := by
        rw [List.length_take]
        omega
      exact .bind ((contentOf_fails hraw).mono fun _ => Failure.IsCorruption.refusal) fun content _ => .ok _

theorem readFileHeader_fails : FailsAs Failure.Refusal (readFileHeader buf) := by
  unfold readFileHeader
  split
  · exact .error (.truncated _ _)
  · rename_i hlen
    dsimp only
    split
    · exact .error (.magic _)
    · have hraw : ¬ (buf.take FileHeader.size).length < FileHeader.size := by
        rw [List.length_take]
        omega
      unfold FileHeader.parse
      rw [if_neg hraw]
      exact .bind ((FailsAs.corruptAs _ _).mono fun _ => Failure.IsCorruption.refusal) fun header _ => .ok _

theorem recordLength_fails {o : ByteOrder} : FailsAs Failure.Refusal (recordLength o buf) := by
  unfold recordLength
  split
  · exact .error (.truncated _ _)
  · rename_i hlen
    unfold Record.headerSize at hlen
    refine .bind (.wordAt (by omega)) fun captured _ => ?_
    split
    · exact .error (.corrupt _)
    · exact .ok _

theorem readRecord_fails : FailsAs Failure.Refusal (readRecord f buf) := by
  unfold readRecord
  refine .bind recordLength_fails fun length _ => ?_
  split
  · exact .error (.truncated _ _)
  · exact .bind ((FailsAs.corruptAs _ _).mono fun _ => Failure.IsCorruption.refusal) fun r _ => .ok _

end Block

theorem Stream.formatOf_fails (magic : Bytes) : FailsAs Failure.Refusal (formatOf magic) := by
  unfold formatOf
  split
  · exact .ok _
  · dsimp only
    split
    · exact .ok _
    · exact .error (.magic _)

end CaptureRing
