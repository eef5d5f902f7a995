/-
  CaptureRing.Preamble — blocks held back until every source has shown its interfaces.

  Interfaces are then numbered source by source, in whatever order the sources happened
  to deliver them. A source is ready at its first packet, at its end, or once it has
  been quiet for long enough: since its first block, or since the preamble began where
  it has sent nothing at all.
-/

import CaptureRing.Block

namespace CaptureRing

structure HeldSource where
  /-- Its blocks, the last one first. -/
  newest : List Block
  ready : Bool
  /-- When its first block came. -/
  firstSeen : Option Nat
  deriving DecidableEq, Repr

structure Preamble where
  sources : List HeldSource
  began : Nat
  deriving DecidableEq, Repr

namespace HeldSource

def empty : HeldSource := ⟨[], false, none⟩

def blocks (s : HeldSource) : List Block := s.newest.reverse

def push (b : Block) (now : Nat) (s : HeldSource) : HeldSource :=
  ⟨b :: s.newest, s.ready || b.isPacket, some (s.firstSeen.getD now)⟩

@[simp] theorem blocks_push (b : Block) (now : Nat) (s : HeldSource) :
    (s.push b now).blocks = s.blocks ++ [b] := by
  simp [push, blocks]

/-- Ready after `wait` without a packet. -/
def expire (now wait began : Nat) (s : HeldSource) : HeldSource :=
  { s with ready := s.ready || decide (wait ≤ now - s.firstSeen.getD began) }

def head (s : HeldSource) : List Block := s.blocks.takeWhile (!·.isPacket)

def tail (s : HeldSource) : List Block := s.blocks.dropWhile (!·.isPacket)

end HeldSource

namespace Preamble

def start (sources now : Nat) : Preamble := ⟨List.replicate sources HeldSource.empty, now⟩

def push (source : Nat) (b : Block) (now : Nat) (p : Preamble) : Preamble :=
  { p with sources := p.sources.modify source (HeldSource.push b now) }

def markReady (source : Nat) (p : Preamble) : Preamble :=
  { p with sources := p.sources.modify source fun s => { s with ready := true } }

def allReady (p : Preamble) : Bool := p.sources.all (·.ready)

def expire (now wait : Nat) (p : Preamble) : Preamble :=
  { p with sources := p.sources.map (HeldSource.expire now wait p.began) }

def collect (part : HeldSource → List Block) (p : Preamble) : List (Nat × Block) :=
  p.sources.zipIdx.flatMap fun (s, i) => (part s).map fun b => (i, b)

/-- Everything before the first packet of each source, then the rest, source by source. -/
def inOrder (p : Preamble) : List (Nat × Block) :=
  p.collect HeldSource.head ++ p.collect HeldSource.tail

end Preamble

end CaptureRing
