/-
  CaptureRing.Proofs.Endianness — the merge does not see the byte order of its sources.

  What a source sends is a draft that was written in some order: fixed fields in that order
  by the encoder, and the numbers among the option values in it already (`inOrder`). Reading
  restores the fixed fields and keeps the values, and the merger turns the values of a
  big-endian block around. What is merged is therefore a function of the draft (`Draft.merge`),
  and the same for every order.

  Proved:
  - `Draft.readAs_block`: a draft is read back in either order;
  - `Draft.process_block`: a block read from a draft is merged as the draft is;
  - `merge_ignores_byte_order`: along any sequence of drafts from any sources, each in an order
    of its own, every answer and every seed is what it is in little endian.
-/

import Mathlib.Data.List.Forall2
import CaptureRing.Proofs.Draft
import CaptureRing.Proofs.Filing

namespace CaptureRing

inductive Draft where
  | sectionHeader (s : SectionHeader)
  | interface (i : Interface)
  | packet (p : Packet)
  | statistics (st : Statistics)
  | fileHeader (h : FileHeader)
  | record (nanosecond : Bool) (r : Record)
  deriving DecidableEq, Repr

namespace Draft

/-- Numbers among the option values as they stand in a section of this order; a section
    header has none. -/
def inOrder (o : ByteOrder) (d : Draft) : Draft :=
  if o.isBig then
    match d with
    | .interface i => .interface i.swapOptions
    | .packet p => .packet p.swapOptions
    | .statistics st => .statistics st.swapOptions
    | .sectionHeader _ | .fileHeader _ | .record _ _ => d
  else d

def encode (o : ByteOrder) : Draft → Bytes
  | .sectionHeader s => s.encode o
  | .interface i => i.encode o
  | .packet p => p.encode o
  | .statistics st => st.encode o
  | .fileHeader h => h.encode o
  | .record _ r => r.encode o

def read (o : ByteOrder) (buf : Bytes) : Draft → Result Block
  | .sectionHeader _ => Block.read none buf
  | .interface _ | .packet _ | .statistics _ => Block.read (some o) buf
  | .fileHeader _ => Block.readFileHeader buf
  | .record nanosecond _ => Block.readRecord ⟨o, nanosecond⟩ buf

def Fits : Draft → Prop
  | .sectionHeader s => s.Fits
  | .interface i => i.options.Regular ∧ i.size ≤ Block.maxSize
  | .packet p => p.Proper ∧ p.size ≤ Block.maxSize
  | .statistics st => st.options.Regular ∧ st.size ≤ Block.maxSize
  | .fileHeader h => ∃ nanosecond, h.magic = PcapFormat.magic nanosecond
  | .record _ r => r.Fits

def ReadAs (o : ByteOrder) (d : Draft) (b : Block) : Prop := d.read o ((d.inOrder o).encode o) = .ok b

/-- What is merged of a draft, and the tables after it. -/
def merge (source : Nat) (s : Synthesized) : Draft → Option Bytes × Synthesized
  | .sectionHeader _ => (none, s.startSection source)
  | .interface i => ((s.register source i).1, (s.register source i).2)
  | .packet p => ((s.renumber source p.interface).map fun id => { p with interface := id }.encode outputOrder, s)
  | .statistics st => ((s.renumber source st.interface).map fun id => { st with interface := id }.encode outputOrder, s)
  | .fileHeader h =>
    (((s.startSection source).register source h.toInterface).1, ((s.startSection source).register source h.toInterface).2)
  | .record nanosecond r =>
    ((s.renumber source 0).map fun id => (r.toPacket id nanosecond).encode outputOrder, s)

end Draft

/-! ## Reading a draft -/

@[simp] theorem Interface.swapOptions_swapOptions (i : Interface) : i.swapOptions.swapOptions = i := by
  simp [swapOptions]

@[simp] theorem Statistics.swapOptions_swapOptions (st : Statistics) : st.swapOptions.swapOptions = st := by
  simp [swapOptions]

namespace Draft

variable {o : ByteOrder} {d : Draft}

theorem Fits.inOrder (h : d.Fits) (o : ByteOrder) : (d.inOrder o).Fits := by
  unfold Draft.inOrder
  cases o.isBig with
  | false => exact h
  | true =>
    cases d with
    | sectionHeader | fileHeader | record => exact h
    | interface i =>
      refine ⟨h.1.swap _, ?_⟩
      have hsize := h.2
      simpa [Interface.swapOptions, Interface.size] using hsize
    | packet p =>
      refine ⟨⟨h.1.captured, h.1.options.swap _⟩, ?_⟩
      have hsize := h.2
      simpa [Packet.swapOptions, Packet.size] using hsize
    | statistics st =>
      refine ⟨h.1.swap _, ?_⟩
      have hsize := h.2
      simpa [Statistics.swapOptions, Statistics.size] using hsize

def content : Draft → BlockContent
  | .sectionHeader s => .sectionHeader s
  | .interface i => .interface i
  | .packet p => .packet .enhanced p
  | .statistics _ => .other BlockKind.interfaceStatistics.number
  | .fileHeader h => .fileHeader h
  | .record nanosecond r => .packet (.record nanosecond) (r.toPacket 0 nanosecond)

theorem read_encode (ho : o ≠ .wiresharkDefault) (h : d.Fits) :
    d.read o (d.encode o) = .ok ⟨o, d.encode o, d.content⟩ := by
  cases d with
  | sectionHeader s => exact Block.read_sectionHeader ho h.magic h.major h.options h.size
  | interface i => exact Block.read_interface h.1 h.2
  | packet p => exact Block.read_packet h.1 h.2
  | statistics st => exact Block.read_statistics h.2
  | fileHeader header =>
    obtain ⟨nanosecond, hmagic⟩ := h
    exact Block.readFileHeader_encode ho hmagic
  | record nanosecond r => exact Block.readRecord_encode h.captured h.size

theorem read_inOrder (o : ByteOrder) (d : Draft) (buf : Bytes) : (d.inOrder o).read o buf = d.read o buf := by
  unfold inOrder
  cases o.isBig <;> cases d <;> rfl

def block (o : ByteOrder) (d : Draft) : Block := ⟨o, (d.inOrder o).encode o, (d.inOrder o).content⟩

theorem readAs_block (ho : o ≠ .wiresharkDefault) (h : d.Fits) : d.ReadAs o (d.block o) := by
  unfold ReadAs
  rw [← read_inOrder, read_encode ho (h.inOrder o)]
  rfl

/-! ## Merging a draft -/

/-- Statistics are merged by the fields in their bytes. -/
theorem parse_statistics {st : Statistics} (h : (statistics st).Fits) (o : ByteOrder) :
    ∃ st', Statistics.parse o ((inOrder o (statistics st)).encode o) = .ok st' ∧ st'.interface = st.interface ∧
      (if o.isBig then st'.swapOptions else st') = st := by
  have hfits := h.inOrder o
  unfold inOrder at hfits ⊢
  cases hbig : o.isBig with
  | false =>
    rw [hbig] at hfits
    exact ⟨st, Statistics.parse_encode o hfits.1, rfl, rfl⟩
  | true =>
    rw [hbig] at hfits
    exact ⟨st.swapOptions, Statistics.parse_encode o hfits.1, rfl, st.swapOptions_swapOptions⟩

/-- What is written for a block that was read from a draft is what is merged of the draft. -/
theorem process_block (h : d.Fits) (o : ByteOrder) (source : Nat) (s : Synthesized) :
    s.process source (d.block o) = (.ok (d.merge source s).1, (d.merge source s).2) := by
  unfold block
  cases d with
  | sectionHeader header => cases hbig : o.isBig <;> simp [inOrder, hbig, content, Synthesized.process, merge]
  | fileHeader header => cases hbig : o.isBig <;> simp [inOrder, hbig, content, Synthesized.process, merge]
  | interface i => cases hbig : o.isBig <;> simp [inOrder, hbig, content, Synthesized.process, merge]
  | packet p =>
    cases hbig : o.isBig <;> cases hid : s.renumber source p.interface <;>
      simp [inOrder, hbig, content, Synthesized.process, merge, hid, Packet.swapOptions,
        Synthesized.packetInOutputOrder]
  | record nanosecond r =>
    have hinterface : (r.toPacket 0 nanosecond).interface = 0 := rfl
    cases hbig : o.isBig <;> cases hid : s.renumber source 0 <;>
      simp [inOrder, hbig, content, Synthesized.process, merge, hinterface, hid, Synthesized.packetInOutputOrder] <;> rfl
  | statistics st =>
    obtain ⟨st', hparse, hinterface, hswap⟩ := parse_statistics h o
    have hcontent : (inOrder o (statistics st)).content = .other BlockKind.interfaceStatistics.number := by
      unfold inOrder
      cases o.isBig <;> rfl
    simp only [Synthesized.process, hcontent, if_true, hparse, hinterface, merge]
    cases s.renumber source st.interface with
    | none => rfl
    | some id =>
      subst hswap
      cases o.isBig <;> rfl

end Draft

/-! ## A whole course -/

structure Sending where
  source : Nat
  /-- The order it is written in. -/
  order : ByteOrder
  draft : Draft
  deriving DecidableEq, Repr

def Sending.arrives (o : ByteOrder) (e : Sending) : Nat × Block := (e.source, e.draft.block o)

def Sending.ReadAs (o : ByteOrder) (e : Sending) (a : Nat × Block) : Prop := a.1 = e.source ∧ e.draft.ReadAs o a.2

namespace Merger

def answers (m : Merger) : List (Nat × Block) → List (Result (Option Bytes))
  | [] => []
  | (source, b) :: rest => (m.process source b).1 :: answers (m.process source b).2 rest

theorem after_synthesized (s : Synthesized) (order : List (Nat × Block)) :
    ∃ s', (synthesized s).after order = synthesized s' := by
  induction order generalizing s with
  | nil => exact ⟨s, rfl⟩
  | cons e order ih => exact ih (s.process e.1 e.2).2

/-- Two courses of the same drafts, written in whatever orders, run alike. -/
theorem course_eq {es : List Sending} (h : ∀ e ∈ es, e.draft.Fits) (o o' : Sending → ByteOrder) (s : Synthesized) :
    (synthesized s).answers (es.map fun e => e.arrives (o e)) = (synthesized s).answers (es.map fun e => e.arrives (o' e)) ∧
      (synthesized s).after (es.map fun e => e.arrives (o e)) = (synthesized s).after (es.map fun e => e.arrives (o' e)) := by
  induction es generalizing s with
  | nil => exact ⟨rfl, rfl⟩
  | cons e es ih =>
    have hfits := h e List.mem_cons_self
    have hstep : ∀ o, (synthesized s).process e.source (e.draft.block o)
        = (.ok (e.draft.merge e.source s).1, synthesized (e.draft.merge e.source s).2) := by
      intro o
      simp only [process, Draft.process_block hfits]
    obtain ⟨hanswers, hafter⟩ := ih (fun x hx => h x (List.mem_cons_of_mem _ hx)) (e.draft.merge e.source s).2
    simp only [List.map_cons, answers, after, List.foldl_cons, Sending.arrives, hstep] at hanswers hafter ⊢
    exact ⟨congrArg _ hanswers, hafter⟩

end Merger

/-- The sources may be of any orders, and change them: what is written for each of their blocks,
    and what a new file would start with before any of them, is what it were in little endian. -/
theorem merge_ignores_byte_order (host : Host) {sources : Nat} (hn : 1 < sources) (es : List Sending)
    (hfits : ∀ e ∈ es, e.draft.Fits) (horder : ∀ e ∈ es, e.order ≠ .wiresharkDefault) :
    ∃ chosen little : List (Nat × Block),
      List.Forall₂ (fun e => e.ReadAs e.order) es chosen ∧ List.Forall₂ (fun e => e.ReadAs .littleEndian) es little ∧
      (Merger.ofCount host sources).answers chosen = (Merger.ofCount host sources).answers little ∧
      ∀ k next next', ((Merger.ofCount host sources).after (chosen.take k)).seed next
        = ((Merger.ofCount host sources).after (little.take k)).seed next' := by
  unfold Merger.ofCount
  rw [if_pos hn]
  generalize (⟨_, _, _⟩ : Synthesized) = s
  refine ⟨es.map fun e => e.arrives e.order, es.map fun e => e.arrives .littleEndian, ?_, ?_,
    (Merger.course_eq hfits _ _ s).1, fun k next next' => ?_⟩
  · rw [List.forall₂_map_right_iff, List.forall₂_same]
    exact fun e he => ⟨rfl, Draft.readAs_block (horder e he) (hfits e he)⟩
  · rw [List.forall₂_map_right_iff, List.forall₂_same]
    exact fun e he => ⟨rfl, Draft.readAs_block (by decide) (hfits e he)⟩
  · have htake : ∀ e ∈ es.take k, e.draft.Fits := fun e he => hfits e (List.mem_of_mem_take he)
    rw [← List.map_take, ← List.map_take, (Merger.course_eq htake _ (fun _ => .littleEndian) s).2]
    obtain ⟨s', hs'⟩ := Merger.after_synthesized s ((es.take k).map fun e => e.arrives .littleEndian)
    rw [hs']
    rfl

/-- Two sources: one of big endian, whose values are numbers, and one that is a classic capture. -/
def mixedSendings : List Sending := [
  ⟨0, .bigEndian, .sectionHeader (SectionHeader.ofOptions [])⟩,
  ⟨0, .bigEndian, .interface (Interface.make 1 0 [BlockOption.make 8 [1, 2, 3, 4, 5, 6, 7, 8]])⟩,
  ⟨1, .bigEndian, .fileHeader (FileHeader.make true 0 1)⟩,
  ⟨0, .bigEndian, .packet ⟨0, 1, 2, 3, 60, [7, 8, 9], [BlockOption.make 2 [1, 2, 3, 4], BlockOption.terminator]⟩⟩,
  ⟨1, .bigEndian, .record true (Record.ofData 1 2 [3, 4, 5])⟩,
  ⟨0, .bigEndian, .statistics ⟨0, 1, 2, [BlockOption.make 2 [1, 2, 3, 4, 5, 6, 7, 8]]⟩⟩]

theorem merge_ignores_byte_order_mixed :
    (∀ e ∈ mixedSendings, e.draft.Fits) ∧ (∀ e ∈ mixedSendings, e.order ≠ .wiresharkDefault) ∧
    ∃ chosen little : List (Nat × Block),
      List.Forall₂ (fun e => e.ReadAs e.order) mixedSendings chosen ∧
      List.Forall₂ (fun e => e.ReadAs .littleEndian) mixedSendings little ∧
      (Merger.ofCount ⟨none, none⟩ 2).answers chosen = (Merger.ofCount ⟨none, none⟩ 2).answers little ∧
      ∀ k next next', ((Merger.ofCount ⟨none, none⟩ 2).after (chosen.take k)).seed next
        = ((Merger.ofCount ⟨none, none⟩ 2).after (little.take k)).seed next' := by
  have hone : ∀ code value, code ≠ 0 → value.length < 2 ^ 16 → Options.Regular [BlockOption.make code value] :=
    fun _ _ hc hv => .cons (BlockOption.proper_make hc hv) .nil
  have hfits : ∀ e ∈ mixedSendings, e.draft.Fits := by
    unfold mixedSendings
    simp only [List.forall_mem_cons, List.not_mem_nil, false_imp_iff, implies_true, and_true]
    exact ⟨⟨rfl, rfl, .nil, by decide⟩, ⟨hone _ _ (by decide) (by decide), by decide⟩, ⟨true, rfl⟩,
      ⟨⟨rfl, .cons (BlockOption.proper_make (by decide) (by decide)) .terminator⟩, by decide⟩,
      ⟨rfl, by decide⟩, ⟨hone _ _ (by decide) (by decide), by decide⟩⟩
  have horder : ∀ e ∈ mixedSendings, e.order ≠ .wiresharkDefault := by decide
  exact ⟨hfits, horder, merge_ignores_byte_order ⟨none, none⟩ (by decide) mixedSendings hfits horder⟩

end CaptureRing
