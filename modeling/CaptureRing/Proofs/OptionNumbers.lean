/-
  CaptureRing.Proofs.OptionNumbers — the numbers among option values, when their block is merged.

  Option values are bytes in the order of their section. What the format puts into the value of
  a code is its shape: a number of 32 or 64 bits, a time in two halves, a vendor's number with
  that vendor's own data behind it, or no number at all. The merger goes by layouts of its own.
  They agree with the shapes but for the speeds of sending and of receiving, and for the options
  of vendors, which it copies as they are.

  Proved:
  - `OptionKind.shape_eq`: where the layout of a code is that of its shape;
  - `OptionKind.turned_swap`: what becomes of one option;
  - `merged_numbers_kept`: of all options of a merged block, each number is read as what it was,
    exactly if its code is not one of those or it reads the same from either end;
  - `sending_speed_changes`: a speed and a vendor, which become others.
-/

import Mathlib.Data.List.Forall2
import CaptureRing.Proofs.Readback

namespace CaptureRing

/-! ## Shapes -/

structure Span where
  start : Nat
  width : Nat
  deriving DecidableEq, Repr

namespace Span

def of (s : Span) (v : Bytes) : Bytes := (v.drop s.start).take s.width

def Covers (s : Span) (j : Nat) : Prop := s.start ≤ j ∧ j < s.start + s.width

end Span

inductive ValueShape where
  /-- Text or bytes, with no number of more than one byte. -/
  | plain
  | word32
  | word64
  /-- A time in two numbers of 32 bits. -/
  | halves32
  /-- The number of a vendor, in 32 bits, and what that vendor defines. -/
  | vendor
  deriving DecidableEq, Repr

namespace ValueShape

def spans : ValueShape → List Span
  | plain => []
  | word32 | vendor => [⟨0, 4⟩]
  | word64 => [⟨0, 8⟩]
  | halves32 => [⟨0, 4⟩, ⟨4, 4⟩]

def Sized (v : Bytes) : ValueShape → Prop
  | plain => True
  | word32 => v.length = 4
  | word64 | halves32 => v.length = 8
  | vendor => 4 ≤ v.length

def ofLayout : OptionLayout → ValueShape
  | .verbatim => plain
  | .word32 => word32
  | .word64 => word64
  | .halves32 => halves32

end ValueShape

inductive OptionKind where
  | interface
  | packet
  | statistics
  deriving DecidableEq, Repr

namespace OptionKind

def layout : OptionKind → UInt16 → OptionLayout
  | interface => OptionLayout.ofInterface
  | packet => OptionLayout.ofPacket
  | statistics => OptionLayout.ofStatistics

/-- The options that vendors define, in any block: text and bytes, to be copied along or not. -/
def vendorCodes : List UInt16 := [2988, 2989, 19372, 19373]

def shape (k : OptionKind) (code : UInt16) : ValueShape :=
  if code ∈ vendorCodes then .vendor
  else match k with
    | interface =>
      -- speed, offset of the time, speeds of sending and of receiving; time zone
      if code ∈ [8, 14, 16, 17] then .word64 else if code = 10 then .word32 else .plain
    | packet =>
      -- flags, queue; count of drops, number of the packet
      if code ∈ [2, 6] then .word32 else if code ∈ [4, 5] then .word64 else .plain
    | statistics =>
      -- start and end; counters
      if code ∈ [2, 3] then .halves32 else if 4 ≤ code ∧ code ≤ 8 then .word64 else .plain

/-- The codes whose numbers the merger does not know of. -/
def Overlooked (k : OptionKind) (code : UInt16) : Prop :=
  code ∈ vendorCodes ∨ k = interface ∧ (code = 16 ∨ code = 17)

theorem layout_of_overlooked {k : OptionKind} {code : UInt16} (h : k.Overlooked code) : k.layout code = .verbatim := by
  rcases h with hvendor | ⟨rfl, rfl | rfl⟩
  · unfold vendorCodes at hvendor
    simp only [List.mem_cons, List.not_mem_nil, or_false] at hvendor
    rcases hvendor with rfl | rfl | rfl | rfl <;> cases k <;> decide
  · decide
  · decide

/-- All other codes are rearranged by their shape. -/
theorem shape_eq {k : OptionKind} {code : UInt16} (h : ¬ k.Overlooked code) :
    k.shape code = ValueShape.ofLayout (k.layout code) := by
  unfold Overlooked at h
  simp only [not_or, not_and] at h
  obtain ⟨hvendor, hspeeds⟩ := h
  unfold shape
  rw [if_neg hvendor]
  cases k with
  | interface =>
    obtain ⟨hsending, hreceiving⟩ := hspeeds rfl
    simp only [layout, OptionLayout.ofInterface, List.mem_cons, List.not_mem_nil, or_false, hsending, hreceiving]
    split
    · rfl
    · split <;> rfl
  | packet =>
    simp only [layout, OptionLayout.ofPacket, List.mem_cons, List.not_mem_nil, or_false]
    split
    · rfl
    · split <;> rfl
  | statistics =>
    simp only [layout, OptionLayout.ofStatistics, List.mem_cons, List.not_mem_nil, or_false]
    split
    · rfl
    · split <;> rfl

end OptionKind

/-! ## One value -/

/-- Bytes are the same number in both orders exactly if they are the same from either end. -/
theorem get_little_eq_get_big_iff (bs : Bytes) :
    ByteOrder.littleEndian.get bs = ByteOrder.bigEndian.get bs ↔ bs.reverse = bs := by
  show ofDigits bs = ofDigits bs.reverse ↔ _
  constructor
  · intro h
    have hdigits := digits_ofDigits bs.reverse
    rw [← h, List.length_reverse, digits_ofDigits] at hdigits
    exact hdigits.symm
  · intro h
    rw [h]

namespace OptionLayout

open ValueShape

/-- The bytes of each number are turned around where they stand. -/
theorem of_swap {l : OptionLayout} {v : Bytes} (hsize : (ofLayout l).Sized v) {s : Span} (hs : s ∈ (ofLayout l).spans) :
    s.of (l.swap v) = (s.of v).reverse := by
  cases l with
  | verbatim => cases hs
  | word32 =>
    have hv : v.length = 4 := hsize
    obtain rfl := List.mem_singleton.mp hs
    simp [Span.of, swap, hv, List.take_of_length_le]
  | word64 =>
    have hv : v.length = 8 := hsize
    obtain rfl := List.mem_singleton.mp hs
    simp [Span.of, swap, hv, List.take_of_length_le]
  | halves32 =>
    have hv : v.length = 8 := hsize
    have hfront : (v.take 4).reverse.length = 4 := by simp [hv]
    have hback : (v.drop 4).length = 4 := by simp [hv]
    unfold swap
    dsimp only
    rw [if_pos hv]
    rcases List.mem_cons.mp hs with rfl | hs
    · rw [Span.of, List.drop_zero, List.take_left' hfront]
      rfl
    · obtain rfl := List.mem_singleton.mp hs
      rw [Span.of, List.drop_left' hfront, List.take_of_length_le (by simp [hback])]
      rw [Span.of, List.take_of_length_le (by simp [hback])]

theorem swap_of_not_sized {l : OptionLayout} {v : Bytes} (hsize : ¬ (ofLayout l).Sized v) : l.swap v = v := by
  cases l with
  | verbatim => rfl
  | word32 | word64 | halves32 => exact if_neg hsize

/-- What is no byte of a number stays where it is. -/
theorem getElem?_swap {l : OptionLayout} {v : Bytes} {j : Nat} (hj : ∀ s ∈ (ofLayout l).spans, ¬ s.Covers j) :
    (l.swap v)[j]? = v[j]? := by
  by_cases hsize : (ofLayout l).Sized v
  · have hbeyond : l ≠ .verbatim → v.length ≤ j := by
      intro hl
      cases l with
      | verbatim => exact absurd rfl hl
      | word32 | word64 =>
        have hv : v.length = _ := hsize
        have := hj _ (List.mem_singleton.mpr rfl)
        simp only [Span.Covers] at this
        omega
      | halves32 =>
        have hv : v.length = 8 := hsize
        have h₀ := hj ⟨0, 4⟩ (by decide)
        have h₁ := hj ⟨4, 4⟩ (by decide)
        simp only [Span.Covers] at h₀ h₁
        omega
    by_cases hl : l = .verbatim
    · rw [hl]
      rfl
    · rw [List.getElem?_eq_none (by rw [length_swap]; exact hbeyond hl), List.getElem?_eq_none (hbeyond hl)]
  · rw [swap_of_not_sized hsize]

end OptionLayout

/-! ## One option -/

structure OptionKind.Turned (k : OptionKind) (x y : BlockOption) : Prop where
  code : y.code = x.code
  length : y.length = x.length
  /-- A number is read as what it was, unless the merger overlooks it and it is another from its other end. -/
  numbers : (k.shape x.code).Sized x.value → ∀ s ∈ (k.shape x.code).spans,
    (ByteOrder.littleEndian.get (s.of y.value) = ByteOrder.bigEndian.get (s.of x.value) ↔
      ¬ k.Overlooked x.code ∨ (s.of x.value).reverse = s.of x.value)
  /-- All else is copied. -/
  rest : ∀ j, (∀ s ∈ (k.shape x.code).spans, ¬ s.Covers j) → y.value[j]? = x.value[j]?
  /-- So is a value of a size that the format does not know. -/
  unsized : ¬ (k.shape x.code).Sized x.value → y.value = x.value

theorem OptionKind.turned_swap (k : OptionKind) (x : BlockOption) : k.Turned x (x.swap (k.layout x.code)) := by
  by_cases h : k.Overlooked x.code
  · have hsame : x.swap (k.layout x.code) = x := by rw [layout_of_overlooked h]; rfl
    rw [hsame]
    refine ⟨rfl, rfl, fun _ s _ => ?_, fun _ _ => rfl, fun _ => rfl⟩
    rw [get_little_eq_get_big_iff]
    simp [h]
  · have hshape := shape_eq h
    refine ⟨rfl, rfl, fun hsize s hs => ?_, fun j hj => ?_, fun hsize => ?_⟩
    · rw [hshape] at hsize hs
      have hturned : s.of (x.swap (k.layout x.code)).value = (s.of x.value).reverse := OptionLayout.of_swap hsize hs
      rw [hturned]
      exact iff_of_true rfl (Or.inl h)
    · rw [hshape] at hj
      exact OptionLayout.getElem?_swap hj
    · rw [hshape] at hsize
      exact OptionLayout.swap_of_not_sized hsize

theorem OptionKind.turned_options (k : OptionKind) (xs : Options) : List.Forall₂ k.Turned xs (xs.swap k.layout) := by
  unfold Options.swap
  rw [List.forall₂_map_right_iff, List.forall₂_same]
  exact fun x _ => k.turned_swap x

/-! ## A block -/

inductive Block.Carries (b : Block) : OptionKind → Options → Prop
  | interface {i : Interface} : b.content = .interface i → Carries b .interface i.options
  /-- Simple packets and records have no options. -/
  | packet {format : PacketFormat} {p : Packet} : b.content = .packet format p → format = .enhanced ∨ format = .obsolete →
      Carries b .packet p.options
  | statistics {st : Statistics} : b.content = .other BlockKind.interfaceStatistics.number →
      Statistics.parse b.order b.raw = .ok st → Carries b .statistics st.options

namespace Synthesized

variable {s s' : Synthesized} {source : Nat} {b : Block} {bytes : Bytes}

theorem merged?_of_process (h : s.process source b = (.ok (some bytes), s')) :
    ∃ x, s.merged? source 0 b = some x ∧ x.encode = bytes := by
  have hgives : (Merger.synthesized s).gives source b = some bytes := by
    unfold Merger.gives Merger.process
    dsimp only
    rw [h]
    rfl
  rw [gives_eq source 0] at hgives
  exact Option.map_eq_some_iff.mp hgives

theorem interface_carries {i : Interface} (hb : b.Accepted) (hturn : b.order.isBig = true) (hc : b.content = .interface i)
    {x : MergedBlock} (hx : s.merged? source 0 b = some x) :
    ∃ b', Block.read (some .littleEndian) x.encode = .ok b' ∧ b'.Carries .interface i.swapOptions.options := by
  have hdeclares : b.declares? = some i.swapOptions := by
    unfold Block.declares?
    simp only [hc, hturn, if_true]
  have hx' : x = .interface i.swapOptions := by
    unfold merged? at hx
    simp only [hc, hturn, if_true] at hx
    exact (Option.some.inj hx).symm
  obtain ⟨hregular, hsize⟩ := Block.interface_of_declares? (.inl hb) hdeclares
  rw [hx']
  exact ⟨_, Block.read_interface hregular hsize, .interface rfl⟩

/-- Only a record or a simple packet may outgrow a block. -/
theorem packet_carries {format : PacketFormat} {p : Packet} (hb : b.Accepted) (hturn : b.order.isBig = true)
    (hc : b.content = .packet format p) (hformat : format = .enhanced ∨ format = .obsolete)
    {x : MergedBlock} (hx : s.merged? source 0 b = some x) :
    ∃ b', Block.read (some .littleEndian) x.encode = .ok b' ∧ b'.Carries .packet (p.options.swap OptionLayout.ofPacket) := by
  have hx' : ∃ id, x = .packet source 0 (packetInOutputOrder b.order format { p with interface := id }) := by
    unfold merged? at hx
    simp only [hc] at hx
    obtain ⟨id, -, rfl⟩ := Option.map_eq_some_iff.mp hx
    exact ⟨id, rfl⟩
  obtain ⟨id, rfl⟩ := hx'
  obtain ⟨hproper, hnone⟩ := Block.proper_of_accepted hb hc
  have hgrows : b.outgrows = false := by
    unfold Block.outgrows
    rw [hc]
    rcases hformat with rfl | rfl <;> rfl
  have hread := read_translated hproper ((Block.packet_bounds hb hc).2.1 hgrows) id b.order
  have hoptions : p.options.swap OptionLayout.ofPacket = (p.translated id b.order).options := by
    unfold Packet.translated
    rw [if_pos hturn]
  rw [packetInOutputOrder_eq id b.order hnone, hoptions]
  exact ⟨_, hread, .packet rfl (.inl rfl)⟩

theorem statistics_carries {st : Statistics} (hb : b.Accepted) (hturn : b.order.isBig = true)
    (hc : b.content = .other BlockKind.interfaceStatistics.number) (hst : Statistics.parse b.order b.raw = .ok st)
    {x : MergedBlock} (hx : s.merged? source 0 b = some x) :
    ∃ b', Block.read (some .littleEndian) x.encode = .ok b' ∧ b'.Carries .statistics st.swapOptions.options := by
  have hx' : ∃ id, x = .statistics source 0 { st with interface := id }.swapOptions := by
    unfold merged? at hx
    simp only [hc, if_true, hst, Except.toOption, Option.bind] at hx
    obtain ⟨id, -, rfl⟩ := Option.map_eq_some_iff.mp hx
    refine ⟨id, ?_⟩
    unfold statisticsInOutputOrder
    rw [if_pos hturn]
  obtain ⟨id, rfl⟩ := hx'
  obtain ⟨hregular, hsize⟩ := Block.statistics_of_accepted hb hc hst
  have hwritten : ({ st with interface := id }.swapOptions).size ≤ Block.maxSize := by
    simpa [Statistics.swapOptions, Statistics.size] using hsize
  refine ⟨_, Block.read_statistics hwritten, ?_⟩
  show Block.Carries _ .statistics ({ st with interface := id }.swapOptions).options
  exact .statistics rfl (Statistics.parse_encode .littleEndian (hregular.swap _))

/-- What is written for a block of big endian is a block of the same kind, and has its options, each
    rearranged by the layout of its code. -/
theorem exists_carries (hb : b.Accepted) (hbig : b.order = .bigEndian) {k : OptionKind} {xs : Options}
    (hxs : b.Carries k xs) (h : s.process source b = (.ok (some bytes), s')) :
    ∃ b', Block.read (some .littleEndian) bytes = .ok b' ∧ b'.Carries k (xs.swap k.layout) := by
  have hturn : b.order.isBig = true := by rw [hbig]; rfl
  obtain ⟨x, hx, rfl⟩ := merged?_of_process h
  cases hxs with
  | interface hc => exact interface_carries hb hturn hc hx
  | packet hc hformat => exact packet_carries hb hturn hc hformat hx
  | statistics hc hst => exact statistics_carries hb hturn hc hst hx

end Synthesized

/-- Of a block of big endian that is merged, each option is found again in the block that is written, under its
    code and with its length. Each number that the format puts into it is read in little endian as what it was
    in big endian, exactly if its code is not a speed of sending or receiving, nor a vendor's, or if it is the
    same number from its other end; and all other bytes of the value are what they were. -/
theorem merged_numbers_kept {b : Block} (hb : b.Accepted) (hbig : b.order = .bigEndian) {k : OptionKind} {xs : Options}
    (hxs : b.Carries k xs) {s s' : Synthesized} {source : Nat} {bytes : Bytes}
    (h : s.process source b = (.ok (some bytes), s')) :
    ∃ b' ys, Block.read (some .littleEndian) bytes = .ok b' ∧ b'.Carries k ys ∧ List.Forall₂ k.Turned xs ys := by
  obtain ⟨b', hread, hcarries⟩ := Synthesized.exists_carries hb hbig hxs h
  exact ⟨b', _, hread, hcarries, k.turned_options xs⟩

def speedyInterface : Interface := Interface.make 1 0 [
  BlockOption.make 8 [0, 0, 0, 0, 0x3B, 0x9A, 0xCA, 0], BlockOption.make 10 [0, 0, 0x0E, 0x10],
  BlockOption.make 16 [0, 0, 0, 0, 0x3B, 0x9A, 0xCA, 0], BlockOption.make 2988 [0, 0, 0x7E, 0xD9, 0x68, 0x69]]

def speedyBlock : Block := ⟨.bigEndian, speedyInterface.encode .bigEndian, .interface speedyInterface⟩

def freshTables : Synthesized := ⟨[], #[], [#[], #[]]⟩

theorem merged_numbers_kept_speedy :
    speedyBlock.Accepted ∧ speedyBlock.Carries .interface speedyInterface.options ∧
    ∃ bytes s' b' ys, freshTables.process 0 speedyBlock = (.ok (some bytes), s') ∧
      Block.read (some .littleEndian) bytes = .ok b' ∧ b'.Carries .interface ys ∧
      List.Forall₂ OptionKind.interface.Turned speedyInterface.options ys := by
  have haccepted : speedyBlock.Accepted := .inl ⟨some .bigEndian, speedyBlock.raw, by decide +kernel⟩
  have hprocess : freshTables.process 0 speedyBlock = (.ok (some _), _) := rfl
  obtain ⟨b', ys, hread, hys, hturned⟩ := merged_numbers_kept haccepted rfl (.interface rfl) hprocess
  exact ⟨haccepted, .interface rfl, _, _, b', ys, hprocess, hread, hys, hturned⟩

/-- The interface is read from its bytes and merged. Its speed of sending, a gigabit, becomes another number,
    and so does the vendor. -/
theorem sending_speed_changes :
    Block.read (some .bigEndian) speedyBlock.raw = .ok speedyBlock ∧
    ∃ bytes s' i, freshTables.process 0 speedyBlock = (.ok (some bytes), s') ∧ Interface.parse .littleEndian bytes = .ok i ∧
      (speedyInterface.options.find 16).map (fun x => ByteOrder.bigEndian.get x.value) = some 1000000000 ∧
      (i.options.find 16).map (fun x => ByteOrder.littleEndian.get x.value) = some 57027523489300480 ∧
      (speedyInterface.options.find 2988).map (fun x => ByteOrder.bigEndian.get (x.value.take 4)) = some 32473 ∧
      (i.options.find 2988).map (fun x => ByteOrder.littleEndian.get (x.value.take 4)) = some 3648913408 :=
  ⟨by decide +kernel, _, _, speedyInterface.swapOptions, rfl, by decide +kernel, by decide +kernel, by decide +kernel,
    by decide +kernel, by decide +kernel⟩

end CaptureRing
