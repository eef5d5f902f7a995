/-
  CaptureRing.Pcapng.Frame — what all blocks have in common.

  A block is its type, its total length, a body and the total length again; the body
  ends with the block's options. The decoder of a kind of block takes its fields by
  their offset in the whole block, and trusts its caller for the eight bytes in front
  of the body.

  Proved: the total length is the number of bytes written (`length_frame`).
-/

import CaptureRing.Pcapng.Option

namespace CaptureRing

/-- The word at an offset; the caller answers for its bytes being there. -/
def wordAt (o : ByteOrder) (offset : Nat) (bs : Bytes) : Result UInt32 :=
  match slice? offset (offset + 4) bs with
  | some w => .ok (UInt32.ofNat (o.get w))
  | none => .error .crash

def frame (o : ByteOrder) (kind : UInt32) (body : Bytes) : Bytes :=
  let total := UInt32.ofNat (12 + body.length)
  o.put32 kind ++ o.put32 total ++ body ++ o.put32 total

/-- The options of a block, from the end of its fixed fields up to the trailing length. -/
def optionsArea (start : Nat) (raw : Bytes) : Bytes := (raw.take (raw.length - 4)).drop start

def decodeFrame {α : Type} (cause : Malformed → Corruption) (decode : Bytes → Except Malformed α)
    (raw : Bytes) : Result α :=
  if raw.length < 8 then .error .crash else corruptAs cause (decode raw)

theorem length_frame (o : ByteOrder) (kind : UInt32) (body : Bytes) :
    (frame o kind body).length = 12 + body.length := by
  simp only [frame, ByteOrder.put32, List.length_append, ByteOrder.length_put]; omega

end CaptureRing
