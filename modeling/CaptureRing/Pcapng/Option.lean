/-
  CaptureRing.Pcapng.Option — the options that follow the fixed fields of a block.

  An option is a code, the length of its value and the value padded to 32 bits; code 0
  ends the list. The length is stored beside the value: it is 16 bits wide, so for a
  value of 65536 bytes or more it is not the value's length.

  Values keep the byte order of the section they were read in. `OptionLayout` says how
  the value of a code is rearranged when its block changes the order.
-/

import CaptureRing.Bytes.Order
import CaptureRing.Text.Blank
import CaptureRing.Text.Utf8
import CaptureRing.Error

namespace CaptureRing

/-! ## Fixed fields -/

def fieldBytes (offset width : Nat) (raw : Bytes) : Except Malformed Bytes :=
  match split? width (raw.drop offset) with
  | some (bs, _) => .ok bs
  | none => .error .runsPast

def field16 (o : ByteOrder) (offset : Nat) (raw : Bytes) : Except Malformed UInt16 :=
  (fieldBytes offset 2 raw).map fun bs => UInt16.ofNat (o.get bs)

def field32 (o : ByteOrder) (offset : Nat) (raw : Bytes) : Except Malformed UInt32 :=
  (fieldBytes offset 4 raw).map fun bs => UInt32.ofNat (o.get bs)

def field64 (o : ByteOrder) (offset : Nat) (raw : Bytes) : Except Malformed UInt64 :=
  (fieldBytes offset 8 raw).map fun bs => UInt64.ofNat (o.get bs)

/-! ## Layouts -/

/-- What a change of byte order does to an option value. -/
inductive OptionLayout where
  /-- Strings and byte arrays, copied as they are. -/
  | verbatim
  | word32
  | word64
  /-- A timestamp in two 32-bit halves. -/
  | halves32
  deriving DecidableEq, Repr

namespace OptionLayout

def ofInterface (code : UInt16) : OptionLayout :=
  if code = 8 ∨ code = 14 then .word64
  else if code = 10 then .word32
  else .verbatim

def ofPacket (code : UInt16) : OptionLayout :=
  if code = 2 ∨ code = 6 then .word32
  else if code = 4 ∨ code = 5 then .word64
  else .verbatim

def ofStatistics (code : UInt16) : OptionLayout :=
  if code = 2 ∨ code = 3 then .halves32
  else if 4 ≤ code ∧ code ≤ 8 then .word64
  else .verbatim

/-- The value in the other byte order; one of an unexpected size is left as it is. -/
def swap (l : OptionLayout) (v : Bytes) : Bytes :=
  match l with
  | .verbatim => v
  | .word32 => if v.length = 4 then v.reverse else v
  | .word64 => if v.length = 8 then v.reverse else v
  | .halves32 => if v.length = 8 then (v.take 4).reverse ++ (v.drop 4).reverse else v

end OptionLayout

/-! ## Options -/

structure BlockOption where
  code : UInt16
  /-- The length as it is written. -/
  length : UInt16
  /-- The value without its padding. -/
  value : Bytes
  deriving DecidableEq, Repr

namespace BlockOption

def make (code : UInt16) (value : Bytes) : BlockOption := ⟨code, UInt16.ofNat value.length, value⟩

def terminator : BlockOption := ⟨0, 0, []⟩

def isTerminator (x : BlockOption) : Bool := x.code == 0

def size (x : BlockOption) : Nat := 4 + paddedLength x.value.length

/-- The value as text: malformed bytes replaced, NULs at the end left out. -/
def text (x : BlockOption) : String :=
  String.ofList (Text.dropEndWhile (· == '\x00') (Utf8.decodeLossy x.value))

def encode (o : ByteOrder) (x : BlockOption) : Bytes :=
  o.put16 x.code ++ o.put16 x.length ++ pad x.value

def swap (l : OptionLayout) (x : BlockOption) : BlockOption := { x with value := l.swap x.value }

end BlockOption

abbrev Options := List BlockOption

namespace Options

/-- The options, ended by a terminator unless there are none or it is there already. -/
def ofList (xs : List BlockOption) : Options :=
  match xs.getLast? with
  | none => []
  | some x => if x.isTerminator then xs else xs ++ [BlockOption.terminator]

def size (xs : Options) : Nat := (xs.map BlockOption.size).sum

def find (code : UInt16) (xs : Options) : Option BlockOption := xs.find? (·.code == code)

def texts (code : UInt16) (xs : Options) : List String :=
  (xs.filter fun x => !x.isTerminator && x.code == code).map BlockOption.text

def encode (o : ByteOrder) (xs : Options) : Bytes := xs.flatMap (BlockOption.encode o)

def swap (layout : UInt16 → OptionLayout) (xs : Options) : Options :=
  xs.map fun x => x.swap (layout x.code)

/-- Reads options up to a terminator or to the last three bytes. Whatever follows is
    ignored, and the padding of the last value may be missing. -/
def decode (o : ByteOrder) : Bytes → Except Malformed Options
  | c₀ :: c₁ :: l₀ :: l₁ :: rest =>
    let code := UInt16.ofNat (o.get [c₀, c₁])
    let length := UInt16.ofNat (o.get [l₀, l₁])
    if code = 0 then .ok [BlockOption.terminator]
    else match split? length.toNat rest with
      | none => .error .runsPast
      | some (value, _) =>
        (decode o (rest.drop (paddedLength length.toNat))).map (⟨code, length, value⟩ :: ·)
  | _ => .ok []
termination_by bs => bs.length
decreasing_by simp only [List.length_cons, List.length_drop]; omega

def parse (o : ByteOrder) (bs : Bytes) : Result Options := corruptAs .options (decode o bs)

end Options

/-! ## Lengths -/

theorem BlockOption.length_encode (o : ByteOrder) (x : BlockOption) :
    (x.encode o).length = x.size := by
  simp [encode, ByteOrder.put16, size]
  omega

theorem Options.length_encode (o : ByteOrder) (xs : Options) :
    (Options.encode o xs).length = Options.size xs := by
  induction xs with
  | nil => rfl
  | cons x xs ih =>
    simp only [Options.encode, List.flatMap_cons, List.length_append, Options.size, List.map_cons,
      List.sum_cons, BlockOption.length_encode] at ih ⊢
    omega

end CaptureRing
