/-
  CaptureRing.Reader — a byte source that delivers its bytes piece by piece.

  One `read` gives at most the bytes asked for, at most `limit`, and never bytes of two
  pieces. A read may be interrupted, fail, or give nothing: a piece without bytes is an
  end after which data may follow; behind the last piece every read gives nothing.

  `fill` asks again until it has its bytes, through interruptions, and gives up at the
  first read that gives nothing.

  Proved: every read that is not an end shortens what is left (`weight_read_lt`).
-/

import CaptureRing.Bytes

namespace CaptureRing

inductive Piece where
  | bytes (bs : Bytes)
  /-- A read is interrupted, once. -/
  | interrupted
  /-- A read fails, once. -/
  | failed
  deriving DecidableEq, Repr

/-- Bytes as they are delivered together; no bytes are no piece. -/
def Piece.ofBytes (bs : Bytes) : List Piece := if bs.isEmpty then [] else [.bytes bs]

/-- The pieces that are still to be delivered, and the most bytes of one read. -/
structure Reader where
  pieces : List Piece
  /-- Most bytes that one read gives. -/
  limit : Option Nat
  deriving DecidableEq, Repr

/-- What one read gives; no bytes are the end. -/
inductive Reading where
  | bytes (bs : Bytes)
  | interrupted
  | failed
  deriving DecidableEq, Repr

namespace Reader

def ofBytes (bs : Bytes) : Reader := ⟨Piece.ofBytes bs, none⟩

def most (r : Reader) (n : Nat) : Nat :=
  match r.limit with
  | some l => min n l
  | none => n

def read (n : Nat) (r : Reader) : Reading × Reader :=
  match r.pieces with
  | [] => (.bytes [], r)
  | .interrupted :: ps => (.interrupted, { r with pieces := ps })
  | .failed :: ps => (.failed, { r with pieces := ps })
  | .bytes bs :: ps =>
    let rest := bs.drop (r.most n)
    (.bytes (bs.take (r.most n)),
      { r with pieces := if rest.isEmpty then ps else .bytes rest :: ps })

def pieceSize : Piece → Nat
  | .bytes bs => bs.length
  | .interrupted | .failed => 0

def remaining (r : Reader) : Nat := (r.pieces.map pieceSize).sum

/-- What is still to come, each piece counting for itself. -/
def weight (r : Reader) : Nat := (r.pieces.map fun p => pieceSize p + 1).sum

theorem weight_read_lt (n : Nat) (r : Reader) (h : (r.read n).1 ≠ .bytes []) :
    (r.read n).2.weight < r.weight := by
  obtain ⟨pieces, limit⟩ := r
  match pieces with
  | [] => exact absurd rfl h
  | .interrupted :: ps => simp [read, weight, pieceSize]
  | .failed :: ps => simp [read, weight, pieceSize]
  | .bytes bs :: ps =>
    simp only [read, ne_eq, Reading.bytes.injEq] at h
    simp only [read, weight]
    by_cases hd : (bs.drop (most ⟨.bytes bs :: ps, limit⟩ n)).isEmpty
    · simp [hd]
    · simp only [hd, Bool.false_eq_true, if_false, List.map_cons, List.sum_cons, pieceSize,
        List.length_drop]
      have h1 : (bs.take (most ⟨.bytes bs :: ps, limit⟩ n)).length ≠ 0 := by
        simpa using h
      simp only [List.length_take] at h1
      omega

/-- Reads until `n` more bytes are there or a read gives none; `got` are the bytes before,
    the last one first. `none` where a read failed. -/
def fillOnto (got : Bytes) (n : Nat) (r : Reader) : Option Bytes × Reader :=
  if n = 0 then (some got.reverse, r)
  else
    match _h : r.read n with
    | (.bytes [], r') => (some got.reverse, r')
    | (.bytes (b :: bs), r') => fillOnto ((b :: bs).reverseAux got) (n - (bs.length + 1)) r'
    | (.interrupted, r') => fillOnto got n r'
    | (.failed, r') => (none, r')
termination_by r.weight
decreasing_by
  · have := weight_read_lt n r (by rw [_h]; simp)
    rw [_h] at this
    exact this
  · have := weight_read_lt n r (by rw [_h]; simp)
    rw [_h] at this
    exact this

/-- Up to `n` bytes, fewer only where a read gives none. -/
def fill (n : Nat) (r : Reader) : Option Bytes × Reader := fillOnto [] n r

end Reader

end CaptureRing
