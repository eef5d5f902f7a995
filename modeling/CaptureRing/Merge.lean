/-
  CaptureRing.Merge — deciding, block by block, what reaches the output.

  The blocks of a single source pass through untouched. Those of several are merged into
  one section: it starts with a header of our own, holds the interfaces of all sources
  in one table, and every block is written again in the output's byte order, its
  interface renumbered. Section headers are taken in, and so are blocks that refer to
  an interface unknown to their section or that cannot be merged.

  `seed` is what a new output file starts with, so that the blocks after it mean in that
  file what they mean in the stream.
-/

import CaptureRing.Block
import CaptureRing.Host

namespace CaptureRing

def applicationName : String := "Ringcap (pcapture) 0.1.0"

def outputOrder : ByteOrder := .wiresharkDefault

inductive MergeMode where
  | passthrough
  | synthesized
  deriving DecidableEq, Repr

structure Passthrough where
  /-- Its header as it was read, if there is one yet. -/
  header : Option Bytes
  /-- The header of a classic capture, which stands for an interface too. -/
  classic : Bool
  /-- Its interface descriptions as they were read. -/
  interfaces : Array Bytes
  deriving DecidableEq, Repr

structure Synthesized where
  /-- Our own section header. -/
  header : Bytes
  interfaces : Array Interface
  /-- For each source, the place in `interfaces` of each interface of its section. -/
  tables : List (Array UInt32)
  deriving DecidableEq, Repr

inductive Merger where
  | passthrough (p : Passthrough)
  | synthesized (s : Synthesized)
  deriving DecidableEq, Repr

/-! ## A single source -/

namespace Passthrough

def empty : Passthrough := ⟨none, false, #[]⟩

def note (b : Block) (p : Passthrough) : Passthrough :=
  match b.content with
  | .sectionHeader _ => ⟨some b.raw, false, #[]⟩
  | .fileHeader _ => ⟨some b.raw, true, #[]⟩
  | .interface _ => { p with interfaces := p.interfaces.push b.raw }
  | _ => p

/-- The section so far, unless the next block starts one of its own. -/
def seed (next : Option Block) (p : Passthrough) : Bytes :=
  if next.any Block.startsSection then [] else p.header.getD [] ++ p.interfaces.toList.flatten

end Passthrough

/-! ## Several sources -/

namespace Synthesized

def table (source : Nat) (s : Synthesized) : Array UInt32 := s.tables[source]?.getD #[]

def setTable (source : Nat) (t : Array UInt32) (s : Synthesized) : Synthesized :=
  let tables := s.tables ++ List.replicate (source + 1 - s.tables.length) #[]
  { s with tables := tables.set source t }

def startSection (source : Nat) (s : Synthesized) : Synthesized := s.setTable source #[]

def register (source : Nat) (i : Interface) (s : Synthesized) : Bytes × Synthesized :=
  (i.encode outputOrder,
    { s with interfaces := s.interfaces.push i }.setTable source
      ((s.table source).push (UInt32.ofNat s.interfaces.size)))

/-- The place in the section of all sources of an interface of one. -/
def renumber (source : Nat) (index : UInt32) (s : Synthesized) : Option UInt32 :=
  (s.table source)[index.toNat]?

/-- Numbers among option values stand in the order of the block they were read from;
    of the packets, only enhanced and obsolete ones have options. -/
def packetInOutputOrder (order : ByteOrder) (format : PacketFormat) (p : Packet) : Packet :=
  match format with
  | .enhanced | .obsolete => if order.isBig then p.swapOptions else p
  | .simple | .record _ => p

def process (source : Nat) (b : Block) (s : Synthesized) : Result (Option Bytes) × Synthesized :=
  match b.content with
  | .sectionHeader _ => (.ok none, s.startSection source)
  | .fileHeader h =>
    let (data, s) := (s.startSection source).register source h.toInterface
    (.ok (some data), s)
  | .interface i =>
    let (data, s) := s.register source (if b.order.isBig then i.swapOptions else i)
    (.ok (some data), s)
  | .packet format p =>
    match s.renumber source p.interface with
    | none => (.ok none, s)
    | some id =>
      let p := packetInOutputOrder b.order format { p with interface := id }
      (.ok (some (p.encode outputOrder)), s)
  | .other kind =>
    if kind = BlockKind.interfaceStatistics.number then
      match Statistics.parse b.order b.raw with
      | .error e => (.error e, s)
      | .ok st =>
        match s.renumber source st.interface with
        | none => (.ok none, s)
        | some id =>
          let st := { st with interface := id }
          let st := if b.order.isBig then st.swapOptions else st
          (.ok (some (st.encode outputOrder)), s)
    else (.ok none, s)

def seed (s : Synthesized) : Bytes :=
  s.header ++ s.interfaces.toList.flatMap (Interface.encode outputOrder)

end Synthesized

namespace Merger

def ofCount (h : Host) (sources : Nat) : Merger :=
  if 1 < sources then
    .synthesized ⟨(SectionHeader.ofHost h applicationName).encode outputOrder, #[],
      List.replicate sources #[]⟩
  else .passthrough Passthrough.empty

def mode : Merger → MergeMode
  | passthrough _ => .passthrough
  | synthesized _ => .synthesized

/-- How many interfaces a new file starts with. -/
def interfaceCount : Merger → Nat
  | passthrough p => p.interfaces.size + (if p.classic then 1 else 0)
  | synthesized s => s.interfaces.size

/-- What is written for a block of a source, `none` where it is taken in. -/
def process (source : Nat) (b : Block) : Merger → Result (Option Bytes) × Merger
  | passthrough p => (.ok (some b.raw), passthrough (p.note b))
  | synthesized s =>
    let (r, s) := s.process source b
    (r, synthesized s)

/-- What a new output file starts with, if `next` is the block to be written into it. -/
def seed (next : Option Block) : Merger → Bytes
  | passthrough p => p.seed next
  | synthesized s => s.seed

end Merger

end CaptureRing
