/-
  CaptureRing.Bytes.Order — the orders in which the bytes of an integer are written.

  An integer of `w` bytes is its `w` digits to the base 256. Little endian writes the
  least significant digit first, big endian last. The order a tool picks when nothing
  prescribes one is little endian, but stays a value of its own: an answer that names
  an order tells the two apart.

  Proved: reading undoes writing in the same order (`get_put`), and writing in one
  order what was read in it restores the bytes (`put_get`).
-/

import CaptureRing.Bytes

namespace CaptureRing

inductive ByteOrder where
  | bigEndian
  | littleEndian
  /-- Little endian, chosen because nothing prescribes an order. -/
  | wiresharkDefault
  deriving DecidableEq, Repr, Inhabited

def ByteOrder.isBig : ByteOrder → Bool
  | .bigEndian => true
  | .littleEndian | .wiresharkDefault => false

/-- The `w` least significant digits of `n` to the base 256, least significant first. -/
def digits : Nat → Nat → Bytes
  | 0, _ => []
  | w + 1, n => UInt8.ofNat (n % 256) :: digits w (n / 256)

def ofDigits : Bytes → Nat
  | [] => 0
  | b :: bs => b.toNat + 256 * ofDigits bs

namespace ByteOrder

/-- Digits from the least significant one into this order, and back. -/
def arrange (o : ByteOrder) (bs : Bytes) : Bytes := if o.isBig then bs.reverse else bs

def put (o : ByteOrder) (w n : Nat) : Bytes := o.arrange (digits w n)

def get (o : ByteOrder) (bs : Bytes) : Nat := ofDigits (o.arrange bs)

def put16 (o : ByteOrder) (v : UInt16) : Bytes := o.put 2 v.toNat

def put32 (o : ByteOrder) (v : UInt32) : Bytes := o.put 4 v.toNat

def put64 (o : ByteOrder) (v : UInt64) : Bytes := o.put 8 v.toNat

end ByteOrder

/-! ## Digits -/

@[simp] theorem length_digits (w n : Nat) : (digits w n).length = w := by
  induction w generalizing n with
  | zero => rfl
  | succ w ih => simp [digits, ih]

theorem ofDigits_lt (bs : Bytes) : ofDigits bs < 256 ^ bs.length := by
  induction bs with
  | nil => simp [ofDigits]
  | cons b bs ih =>
    have := b.toNat_lt
    simp only [ofDigits, List.length_cons, Nat.pow_succ]
    omega

theorem ofDigits_digits (w n : Nat) : ofDigits (digits w n) = n % 256 ^ w := by
  induction w generalizing n with
  | zero => simp [digits, ofDigits, Nat.mod_one]
  | succ w ih =>
    simp only [digits, ofDigits, ih, UInt8.toNat_ofNat']
    have h : 256 ^ (w + 1) = 256 * 256 ^ w := by rw [Nat.pow_succ, Nat.mul_comm]
    rw [h, Nat.mod_mul]
    omega

theorem digits_ofDigits (bs : Bytes) : digits bs.length (ofDigits bs) = bs := by
  induction bs with
  | nil => rfl
  | cons b bs ih =>
    have := b.toNat_lt
    have h1 : (b.toNat + 256 * ofDigits bs) % 256 = b.toNat := by omega
    have h2 : (b.toNat + 256 * ofDigits bs) / 256 = ofDigits bs := by omega
    simp only [List.length_cons, ofDigits, digits, h1, h2, ih, UInt8.ofNat_toNat]

/-! ## Orders -/

@[simp] theorem ByteOrder.length_arrange (o : ByteOrder) (bs : Bytes) :
    (o.arrange bs).length = bs.length := by
  unfold arrange; split <;> simp

@[simp] theorem ByteOrder.arrange_arrange (o : ByteOrder) (bs : Bytes) :
    o.arrange (o.arrange bs) = bs := by
  unfold arrange; split <;> simp

@[simp] theorem ByteOrder.length_put (o : ByteOrder) (w n : Nat) : (o.put w n).length = w := by
  simp [put]

theorem ByteOrder.get_put (o : ByteOrder) (w n : Nat) : o.get (o.put w n) = n % 256 ^ w := by
  simp [get, put, ofDigits_digits]

theorem ByteOrder.put_get (o : ByteOrder) (bs : Bytes) : o.put bs.length (o.get bs) = bs := by
  have h := digits_ofDigits (o.arrange bs)
  rw [o.length_arrange] at h
  simp [get, put, h]

theorem ByteOrder.get_lt (o : ByteOrder) (bs : Bytes) : o.get bs < 256 ^ bs.length := by
  have := ofDigits_lt (o.arrange bs)
  simpa [get] using this

end CaptureRing
