/-
  CaptureRing.Proofs.RoundTrip — what was encoded is read back.

  Every kind of block is written and read by the same field sizes, so a decoder meets each
  field where the encoder left it. The options of a block have no count: they are read up to
  the trailing length, or to a terminator, which is why a list is read back only if its
  terminator stands last and every other option has the length that is written for it.

  Proved:
  - `Options.decode_encode`: a regular list of options is read back in either order, and
    `Options.regular_of_decode`: whatever is read is regular;
  - `parse_encode` of interfaces, packets, statistics, section headers, file headers and
    records;
  - `reencoding_loses_nothing`: so what was read of any bytes is read again where it is written
    in another order;
  - `Block.read_encode…`: the same for whole blocks, in the order of their section.
-/

import Mathlib.Data.List.Basic
import CaptureRing.Proofs.Cutting
import CaptureRing.Proofs.Fields

namespace CaptureRing

/-! ## Options -/

/-- The written length is that of the value, and the code does not end a list. -/
structure BlockOption.Proper (x : BlockOption) : Prop where
  code : x.code ≠ 0
  length : x.length.toNat = x.value.length

/-- Options that are read as they are written: a terminator stands last, if there is one. -/
inductive Options.Regular : Options → Prop
  | nil : Regular []
  | terminator : Regular [BlockOption.terminator]
  | cons {x : BlockOption} {xs : Options} : x.Proper → Regular xs → Regular (x :: xs)

theorem BlockOption.proper_make {code : UInt16} {value : Bytes} (hc : code ≠ 0) (hv : value.length < 2 ^ 16) :
    (make code value).Proper := by
  refine ⟨hc, ?_⟩
  simp only [make, UInt16.toNat_ofNat']
  omega

namespace Options

theorem decode_terminator (o : ByteOrder) (rest : Bytes) :
    decode o (BlockOption.terminator.encode o ++ rest) = .ok [BlockOption.terminator] := by
  cases o <;>
    simp [BlockOption.encode, BlockOption.terminator, ByteOrder.put16, ByteOrder.put, ByteOrder.arrange,
      ByteOrder.isBig, digits, pad, paddedLength, decode, ByteOrder.get, ofDigits]

theorem decode_cons (o : ByteOrder) {x : BlockOption} (h : x.Proper) (rest : Bytes) :
    decode o (x.encode o ++ rest) = (decode o rest).map (x :: ·) := by
  obtain ⟨code, length, value⟩ := x
  obtain ⟨hc, hl⟩ := h
  dsimp only at hc hl
  obtain ⟨c₀, c₁, hcode⟩ := List.length_eq_two.mp (o.length_put16 code)
  obtain ⟨l₀, l₁, hlength⟩ := List.length_eq_two.mp (o.length_put16 length)
  have hbytes : BlockOption.encode o ⟨code, length, value⟩ ++ rest = c₀ :: c₁ :: l₀ :: l₁ :: (pad value ++ rest) := by
    simp [BlockOption.encode, hcode, hlength]
  have hdrop : (pad value ++ rest).drop (paddedLength value.length) = rest := List.drop_left' (length_pad value)
  rw [hbytes, decode, ← hcode, ← hlength, ByteOrder.get_put16, ByteOrder.get_put16, if_neg hc, hl, hdrop]
  simp [pad, split?_append]

theorem decode_encode (o : ByteOrder) {xs : Options} (h : xs.Regular) : decode o (encode o xs) = .ok xs := by
  induction h with
  | nil => simp [encode, decode]
  | terminator => simpa [encode] using decode_terminator o []
  | cons hx _ ih =>
    simp only [encode, List.flatMap_cons] at ih ⊢
    rw [decode_cons o hx, ih]
    rfl

theorem regular_of_decode {o : ByteOrder} {bs : Bytes} {xs : Options} (h : decode o bs = .ok xs) : xs.Regular := by
  fun_induction decode o bs generalizing xs with
  | case1 => cases h; exact .terminator
  | case2 => cases h
  | case3 c₀ c₁ l₀ l₁ rest code length hc value tail hsplit =>
    rename_i ih
    cases hd : decode o (rest.drop (paddedLength length.toNat)) with
    | error m => rw [hd] at h; cases h
    | ok ys =>
      rw [hd] at h
      cases h
      exact .cons ⟨hc, (split?_eq_some_iff.mp hsplit).2.symm⟩ (ih hd)
  | case4 => cases h; exact .nil

end Options

/-! ## Numbers in the other order -/

@[simp] theorem OptionLayout.length_swap (l : OptionLayout) (v : Bytes) : (l.swap v).length = v.length := by
  cases l <;> simp only [swap]
  all_goals split <;> simp; try omega

@[simp] theorem OptionLayout.swap_swap (l : OptionLayout) (v : Bytes) : l.swap (l.swap v) = v := by
  cases l with
  | verbatim => rfl
  | word32 => by_cases h : v.length = 4 <;> simp [swap, h]
  | word64 => by_cases h : v.length = 8 <;> simp [swap, h]
  | halves32 =>
    by_cases h : v.length = 8
    · have hfront : (v.take 4).reverse.length = 4 := by simp; omega
      simp [swap, h, List.take_left' hfront, List.drop_left' hfront]
    · simp [swap, h]

@[simp] theorem BlockOption.swap_swap (l : OptionLayout) (x : BlockOption) : (x.swap l).swap l = x := by
  simp [swap]

theorem BlockOption.Proper.swap {x : BlockOption} (h : x.Proper) (l : OptionLayout) : (x.swap l).Proper :=
  ⟨h.code, h.length.trans (l.length_swap x.value).symm⟩

namespace Options

@[simp] theorem swap_swap (layout : UInt16 → OptionLayout) (xs : Options) :
    swap layout (swap layout xs) = xs := by
  have h : ∀ x : BlockOption, (x.swap (layout x.code)).swap (layout (x.swap (layout x.code)).code) = x :=
    fun x => BlockOption.swap_swap (layout x.code) x
  simp [swap, Function.comp_def, h]

@[simp] theorem size_swap (layout : UInt16 → OptionLayout) (xs : Options) : size (swap layout xs) = size xs := by
  have h : (BlockOption.size ∘ fun x : BlockOption => x.swap (layout x.code)) = BlockOption.size := by
    funext x
    simp [BlockOption.size, BlockOption.swap]
  simp [size, swap, h]

theorem Regular.swap {xs : Options} (h : xs.Regular) (layout : UInt16 → OptionLayout) :
    Regular (Options.swap layout xs) := by
  induction h with
  | nil => exact .nil
  | terminator =>
    have he : Options.swap layout [BlockOption.terminator] = [BlockOption.terminator] := by
      have hv := (layout BlockOption.terminator.code).length_swap []
      simp only [Options.swap, BlockOption.swap, List.map_cons, List.map_nil]
      rw [show BlockOption.terminator.value = [] from rfl, List.length_eq_zero_iff.mp hv]
      rfl
    rw [he]
    exact .terminator
  | cons hx _ ih => exact .cons (hx.swap _) ih

end Options

/-! ## Kinds of blocks -/

section Kinds

variable (o : ByteOrder)

theorem Interface.parse_encode {i : Interface} (h : i.options.Regular) : parse o (i.encode o) = .ok i := by
  have hoptions : optionsArea 16 (i.encode o) = i.options.encode o := optionsArea_frame o _ (by simp) _
  refine parse_iff.mpr ⟨by rw [length_encode]; unfold size; omega, ?_, ?_, ?_, ?_⟩
  case refine_4 => rw [hoptions, Options.decode_encode o h]
  all_goals
    unfold encode frame
    simp (disch := simp) only [List.append_assoc, field16_append, field32_append, ByteOrder.length_put16,
      ByteOrder.length_put32, Nat.reduceSub, field16_put16, field32_put32, Nat.sub_self]

theorem Statistics.parse_encode {st : Statistics} (h : st.options.Regular) : parse o (st.encode o) = .ok st := by
  have hoptions : optionsArea 20 (st.encode o) = st.options.encode o := optionsArea_frame o _ (by simp) _
  refine parse_iff.mpr ⟨by rw [length_encode]; unfold size; omega, ?_, ?_, ?_, ?_⟩
  case refine_4 => rw [hoptions, Options.decode_encode o h]
  all_goals
    unfold encode frame
    simp (disch := simp) only [List.append_assoc, field32_append, ByteOrder.length_put32, Nat.reduceSub, field32_put32,
      Nat.sub_self]

theorem SectionHeader.parse_encode {s : SectionHeader} (h : s.options.Regular) (hmajor : s.major = 1) :
    parse o (s.encode o) = .ok s := by
  have hoptions : optionsArea 24 (s.encode o) = s.options.encode o := optionsArea_frame o _ (by simp) _
  refine parse_iff.mpr ⟨by rw [length_encode]; unfold size; omega, ⟨?_, ?_, ?_, ?_, ?_⟩, hmajor⟩
  case refine_5 => rw [hoptions, Options.decode_encode o h]
  all_goals
    unfold encode frame
    simp (disch := simp) only [List.append_assoc, field16_append, field32_append, field64_append,
      ByteOrder.length_put16, ByteOrder.length_put32, Nat.reduceSub, field16_put16, field32_put32, field64_put64,
      Nat.sub_self]

theorem Packet.parse_encode {p : Packet} (h : p.options.Regular) (hdata : p.captured.toNat = p.data.length) :
    parse .enhancedPacket o (p.encode o) = .ok p := by
  have hoptions : optionsArea (28 + paddedLength p.captured.toNat) (p.encode o) = p.options.encode o :=
    optionsArea_frame o _ (by simp [hdata]; omega) _
  have hcaptured : capturedData p.captured (p.encode o) = .ok p.data := by
    unfold capturedData
    rw [length_encode, if_neg (by unfold size; rw [hdata]; omega), hdata]
    unfold encode frame pad
    simp (disch := simp) only [List.append_assoc, fieldBytes_append, ByteOrder.length_put32, Nat.reduceSub]
    exact fieldBytes_front rfl _
  refine decodeFrame_iff.mpr ⟨by rw [length_encode]; unfold size; omega, ?_⟩
  refine decodeEnhanced_iff.mpr ⟨?_, ?_, ?_, ?_, ?_, hcaptured, by rw [hoptions, Options.decode_encode o h]⟩
  all_goals
    unfold encode frame
    simp (disch := simp) only [List.append_assoc, field32_append, ByteOrder.length_put32, Nat.reduceSub, field32_put32,
      Nat.sub_self]

theorem FileHeader.parse_encode (h : FileHeader) (rest : Bytes) : parse o (h.encode o ++ rest) = .ok h := by
  unfold parse
  rw [if_neg (by rw [List.length_append, length_encode]; omega)]
  unfold decode encode
  simp (disch := simp) only [List.append_assoc, field16_append, field32_append, ByteOrder.length_put16,
    ByteOrder.length_put32, Nat.reduceSub, field16_put16, field32_put32, Nat.sub_self]
  rfl

theorem Record.parse_encode {r : Record} (h : r.captured.toNat = r.data.length) (rest : Bytes) :
    parse o (r.encode o ++ rest) = .ok r := by
  have hslice : slice? headerSize (headerSize + r.captured.toNat) (r.encode o ++ rest) = some r.data := by
    have hdrop : (r.encode o ++ rest).drop headerSize = r.data ++ rest := by
      unfold encode
      rw [List.append_assoc]
      exact List.drop_left' (by simp [headerSize])
    simp [slice?, hdrop, h, split?_append]
  refine parse_iff.mpr ⟨?_, ?_, ?_, ?_, hslice⟩
  all_goals
    unfold encode
    simp (disch := simp) only [List.append_assoc, field32_append, ByteOrder.length_put32, Nat.reduceSub, field32_put32,
      Nat.sub_self]

end Kinds

/-! ## What was read can be written again -/

structure Packet.Proper (p : Packet) : Prop where
  captured : p.captured.toNat = p.data.length
  options : p.options.Regular

namespace Packet

theorem FoundIn.proper {o : ByteOrder} {raw : Bytes} {p : Packet} (h : p.FoundIn o raw) : p.Proper := by
  refine ⟨?_, Options.regular_of_decode h.options⟩
  have hdata := h.data
  unfold capturedData at hdata
  split at hdata
  · cases hdata
  · exact (length_of_fieldBytes hdata).symm

theorem SimpleIn.proper {o : ByteOrder} {raw : Bytes} {p : Packet} (h : p.SimpleIn o raw) : p.Proper := by
  have := p.onWire.toNat_lt
  refine ⟨?_, h.options ▸ .nil⟩
  rw [h.captured, length_of_fieldBytes h.data, UInt32.toNat_ofNat']
  exact Nat.mod_eq_of_lt (by omega)

theorem proper_of_parse {kind : BlockKind} {o : ByteOrder} {raw : Bytes} {p : Packet} (h : parse kind o raw = .ok p) :
    p.Proper ∧ (kind = .simplePacket → p.options = []) := by
  obtain ⟨-, hdecode⟩ := decodeFrame_iff.mp h
  split at hdecode
  · have hsimple := decodeSimple_iff.mp hdecode
    exact ⟨hsimple.proper, fun _ => hsimple.options⟩
  · exact ⟨(decodeObsolete_iff.mp hdecode).2.proper, nofun⟩
  · rename_i hkind _
    exact ⟨(decodeEnhanced_iff.mp hdecode).2.proper, fun he => absurd he hkind⟩

end Packet

theorem Record.captured_of_parse {o : ByteOrder} {raw : Bytes} {r : Record} (h : parse o raw = .ok r) :
    r.captured.toNat = r.data.length := by
  have hdata := (parse_iff.mp h).data
  rw [slice?, if_pos (Nat.le_add_right _ _)] at hdata
  obtain ⟨⟨front, rest⟩, hsplit, hfront⟩ := Option.map_eq_some_iff.mp hdata
  have := (split?_eq_some_iff.mp hsplit).2
  dsimp only at hfront
  rw [← hfront]
  omega

theorem FileHeader.magic_of_parse {o : ByteOrder} {raw : Bytes} {h : FileHeader} (hp : parse o raw = .ok h) :
    field32 o 0 raw = .ok h.magic := by
  unfold parse at hp
  split at hp
  · cases hp
  · have hd := corruptAs_iff.mp hp
    unfold decode at hd
    obtain ⟨magic, hmagic, hd⟩ := Block.bind_eq_ok hd
    obtain ⟨major, -, hd⟩ := Block.bind_eq_ok hd
    obtain ⟨minor, -, hd⟩ := Block.bind_eq_ok hd
    obtain ⟨reserved₁, -, hd⟩ := Block.bind_eq_ok hd
    obtain ⟨reserved₂, -, hd⟩ := Block.bind_eq_ok hd
    obtain ⟨snaplen, -, hd⟩ := Block.bind_eq_ok hd
    obtain ⟨linktype, -, hd⟩ := Block.bind_eq_ok hd
    cases hd
    exact hmagic

/-! ## Writing again what was read -/

structure Options.Consistent (xs : Options) : Prop where
  lengths : ∀ x ∈ xs, x.length.toNat = x.value.length
  ended : ∀ x ∈ xs.dropLast, x.isTerminator = false

theorem Options.Regular.consistent {xs : Options} (h : xs.Regular) : xs.Consistent := by
  induction h with
  | nil => exact ⟨nofun, nofun⟩
  | terminator => exact ⟨List.forall_mem_singleton.mpr rfl, nofun⟩
  | @cons x xs hx _ ih =>
    refine ⟨List.forall_mem_cons.mpr ⟨hx.length, ih.lengths⟩, ?_⟩
    cases xs with
    | nil => exact nofun
    | cons y ys => exact List.forall_mem_cons.mpr ⟨beq_false_of_ne hx.code, ih.ended⟩

section Again

variable {p : ByteOrder} {raw : Bytes}

theorem Options.parse_again {xs : Options} (h : parse p raw = .ok xs) (q : ByteOrder) :
    parse q (encode q xs) = .ok xs ∧ xs.Consistent := by
  have hregular := regular_of_decode (corruptAs_iff.mp h)
  exact ⟨corruptAs_iff.mpr (decode_encode q hregular), hregular.consistent⟩

theorem SectionHeader.parse_again {s : SectionHeader} (h : parse p raw = .ok s) (q : ByteOrder) :
    parse q (s.encode q) = .ok s ∧ s.options.Consistent := by
  obtain ⟨-, hfound, hmajor⟩ := parse_iff.mp h
  have hregular := Options.regular_of_decode hfound.options
  exact ⟨parse_encode q hregular hmajor, hregular.consistent⟩

theorem Interface.parse_again {i : Interface} (h : parse p raw = .ok i) (q : ByteOrder) :
    parse q (i.encode q) = .ok i ∧ i.options.Consistent := by
  have hregular := Options.regular_of_decode (parse_iff.mp h).2.options
  exact ⟨parse_encode q hregular, hregular.consistent⟩

theorem Statistics.parse_again {st : Statistics} (h : parse p raw = .ok st) (q : ByteOrder) :
    parse q (st.encode q) = .ok st ∧ st.options.Consistent := by
  have hregular := Options.regular_of_decode (parse_iff.mp h).2.options
  exact ⟨parse_encode q hregular, hregular.consistent⟩

/-- Whatever kind of packet it was, it is written as an enhanced one. -/
theorem Packet.parse_again {kind : BlockKind} {x : Packet} (h : parse kind p raw = .ok x) (q : ByteOrder) :
    parse .enhancedPacket q (x.encode q) = .ok x ∧ x.options.Consistent ∧ x.captured.toNat = x.data.length := by
  obtain ⟨hproper, -⟩ := proper_of_parse h
  exact ⟨parse_encode q hproper.options hproper.captured, hproper.options.consistent, hproper.captured⟩

end Again

/-- What was parsed of any bytes in any order is found again where it is written in any other: all the
    fields of a block, its options and its data, and a bare list of options too. Whatever follows the
    end of the options or is missing behind them, those that were read have the lengths they tell, and
    only the last of them can end them. -/
theorem reencoding_loses_nothing (p q : ByteOrder) (raw : Bytes) :
    (∀ s, SectionHeader.parse p raw = .ok s →
      SectionHeader.parse q (s.encode q) = .ok s ∧ s.options.Consistent) ∧
    (∀ i, Interface.parse p raw = .ok i → Interface.parse q (i.encode q) = .ok i ∧ i.options.Consistent) ∧
    (∀ st, Statistics.parse p raw = .ok st → Statistics.parse q (st.encode q) = .ok st ∧ st.options.Consistent) ∧
    (∀ kind x, Packet.parse kind p raw = .ok x →
      Packet.parse .enhancedPacket q (x.encode q) = .ok x ∧ x.options.Consistent ∧
        x.captured.toNat = x.data.length) ∧
    ∀ xs, Options.parse p raw = .ok xs → Options.parse q (xs.encode q) = .ok xs ∧ xs.Consistent :=
  ⟨fun _ h => SectionHeader.parse_again h q, fun _ h => Interface.parse_again h q, fun _ h => Statistics.parse_again h q,
    fun _ _ h => Packet.parse_again h q, fun _ h => Options.parse_again h q⟩

/-- An interface description whose options are ended with a value, and go on behind their end. -/
def untidyInterface : Bytes :=
  frame .littleEndian BlockKind.interfaceDescription.number
    ([1, 0, 0, 0, 0xFF, 0xFF, 0, 0] ++ [2, 0, 3, 0, 0x65, 0x74, 0x68, 0x30] ++ [0, 0, 2, 0, 7, 7, 0, 0] ++ [2, 0, 1, 0])

def untidyPacket : Bytes :=
  frame .bigEndian BlockKind.packet.number
    ([0, 1, 0, 2] ++ List.replicate 8 0 ++ [0, 0, 0, 3, 0, 0, 0, 9] ++ [1, 2, 3, 0] ++ [0, 2, 0, 1, 5])

theorem reencoding_loses_nothing_untidy :
    (∃ i, Interface.parse .littleEndian untidyInterface = .ok i ∧ Interface.parse .bigEndian (i.encode .bigEndian) = .ok i ∧
      i.options = [⟨2, 3, [0x65, 0x74, 0x68]⟩, BlockOption.terminator]) ∧
    ∃ x, Packet.parse .packet .bigEndian untidyPacket = .ok x ∧
      Packet.parse .enhancedPacket .littleEndian (x.encode .littleEndian) = .ok x ∧ x.options = [⟨2, 1, [5]⟩] := by
  have hinterface : Interface.parse .littleEndian untidyInterface =
      .ok ⟨1, 0, 0xFFFF, [⟨2, 3, [0x65, 0x74, 0x68]⟩, BlockOption.terminator]⟩ := by decide +kernel
  have hpacket : Packet.parse .packet .bigEndian untidyPacket =
      .ok ⟨1, 0, 0, 3, 9, [1, 2, 3], [⟨2, 1, [5]⟩]⟩ := by decide +kernel
  obtain ⟨-, hinterfaces, -, -⟩ := reencoding_loses_nothing .littleEndian .bigEndian untidyInterface
  obtain ⟨-, -, -, hpackets, -⟩ := reencoding_loses_nothing .bigEndian .littleEndian untidyPacket
  exact ⟨⟨_, hinterface, (hinterfaces _ hinterface).1, rfl⟩, ⟨_, hpacket, (hpackets _ _ hpacket).1, rfl⟩⟩

/-! ## Whole blocks -/

theorem Options.size_mod (xs : Options) : xs.size % 4 = 0 := by
  induction xs with
  | nil => rfl
  | cons x xs ih =>
    have := paddedLength_mod x.value.length
    simp only [size, List.map_cons, List.sum_cons, BlockOption.size] at ih ⊢
    omega

theorem wordAt_frame (o : ByteOrder) (kind : UInt32) (body : Bytes) : wordAt o 0 (frame o kind body) = .ok kind := by
  have h := wordAt_put32 o (o.put32 (UInt32.ofNat (12 + body.length)) ++ (body
    ++ o.put32 (UInt32.ofNat (12 + body.length)))) [] rfl kind
  simpa [frame] using h

namespace Block

theorem orderOf_frame {o : ByteOrder} {kind : UInt32} (h : kind ≠ BlockKind.sectionHeader.number) (body : Bytes) :
    orderOf (some o) (frame o kind body) = .ok o := by
  have hlen : 0 + 4 ≤ (frame o kind body).length := by rw [length_frame]; omega
  obtain ⟨k, hk⟩ := exists_wordAt .littleEndian hlen
  have hne : k ≠ BlockKind.sectionHeader.number := by
    intro he
    have := wordAt_sectionHeader (he ▸ hk) o
    rw [wordAt_frame] at this
    exact h (Except.ok.inj this)
  simp only [orderOf, hk, ok_bind, if_neg hne]
  rfl

/-- The magic tells the order, whatever it was before. -/
theorem orderOf_sectionHeader (current : Option ByteOrder) {o : ByteOrder} (ho : o ≠ .wiresharkDefault)
    {s : SectionHeader} (hs : s.magic = byteOrderMagic) : orderOf current (s.encode o) = .ok o := by
  have hkind : wordAt .littleEndian 0 (s.encode o) = .ok BlockKind.sectionHeader.number := by
    have h : o.put32 BlockKind.sectionHeader.number = ByteOrder.littleEndian.put32 BlockKind.sectionHeader.number := by
      cases o <;> rfl
    unfold SectionHeader.encode frame
    rw [h]
    simpa using wordAt_put32 .littleEndian _ [] rfl BlockKind.sectionHeader.number
  have hmagic : ∀ read : ByteOrder, ∀ v : UInt32, o.put32 byteOrderMagic = read.put32 v →
      wordAt read 8 (s.encode o) = .ok v := by
    intro read v h
    unfold SectionHeader.encode frame
    rw [hs, h]
    simpa using wordAt_put32 read _ (o.put32 BlockKind.sectionHeader.number ++ o.put32 _) (by simp) v
  cases o with
  | wiresharkDefault => exact absurd rfl ho
  | littleEndian =>
    simp only [orderOf, hkind, ok_bind, hmagic .littleEndian byteOrderMagic rfl, hmagic .bigEndian 0x4D3C2B1A (by decide)]
    rfl
  | bigEndian =>
    simp only [orderOf, hkind, ok_bind, hmagic .littleEndian 0x4D3C2B1A (by decide), hmagic .bigEndian byteOrderMagic rfl]
    rfl

theorem wordAt_length_frame (o : ByteOrder) (kind : UInt32) (body : Bytes) :
    wordAt o 4 (frame o kind body) = .ok (UInt32.ofNat (12 + body.length)) := by
  have h := wordAt_put32 o (body ++ o.put32 (UInt32.ofNat (12 + body.length))) (o.put32 kind)
    (o.length_put32 kind) (UInt32.ofNat (12 + body.length))
  simpa [frame] using h

/-- A block that is too long is refused by its length, whatever it holds. -/
theorem read_frame_too_long {current : Option ByteOrder} {o : ByteOrder} {kind : UInt32} {body : Bytes}
    (horder : orderOf current (frame o kind body) = .ok o) (hsize : maxSize < 12 + body.length)
    (hfits : 12 + body.length < 2 ^ 32) :
    read current (frame o kind body) = corrupt (.blockLength (12 + body.length)) := by
  have hlen := length_frame o kind body
  have htotal : (UInt32.ofNat (12 + body.length)).toNat = 12 + body.length := by
    rw [UInt32.toNat_ofNat']
    omega
  have hheader : frameHeader current (frame o kind body) = corrupt (.blockLength (12 + body.length)) := by
    unfold frameHeader
    rw [if_neg (by unfold minSize; omega), horder]
    simp only [ok_bind, wordAt_length_frame, htotal]
    rw [if_pos (by omega)]
  unfold read
  rw [hheader]
  rfl

theorem frameHeader_frame {current : Option ByteOrder} {o : ByteOrder} {kind : UInt32} {body : Bytes}
    (horder : orderOf current (frame o kind body) = .ok o) (hmod : (frame o kind body).length % 4 = 0)
    (hsize : (frame o kind body).length ≤ maxSize) :
    frameHeader current (frame o kind body) = .ok (o, (frame o kind body).length) := by
  have hlen := length_frame o kind body
  have htotal : (UInt32.ofNat (12 + body.length)).toNat = (frame o kind body).length := by
    rw [UInt32.toNat_ofNat']
    unfold maxSize at hsize
    omega
  unfold frameHeader
  rw [if_neg (by unfold minSize; omega), horder]
  simp only [ok_bind, wordAt_length_frame, htotal]
  rw [if_neg (by unfold minSize; omega)]
  rfl

/-- A block is read where its lengths are right, its order is known and its content can be read. -/
theorem read_of_frame {current : Option ByteOrder} {o : ByteOrder} {kind : UInt32} {body : Bytes}
    {content : BlockContent} (raw : Bytes) (hraw : raw = frame o kind body) (horder : orderOf current raw = .ok o)
    (hmod : raw.length % 4 = 0) (hsize : raw.length ≤ maxSize) (hcontent : contentOf o raw = .ok content) :
    read current raw = .ok ⟨o, raw, content⟩ := by
  have hlen : raw.length = 12 + body.length := hraw ▸ length_frame o kind body
  have htotal : (UInt32.ofNat (12 + body.length)).toNat = raw.length := by
    rw [UInt32.toNat_ofNat']
    unfold maxSize at hsize
    omega
  have hlast : wordAt o (raw.length - 4) raw = .ok (UInt32.ofNat (12 + body.length)) := by
    have hfront : (o.put32 kind ++ (o.put32 (UInt32.ofNat (12 + body.length)) ++ body)).length = raw.length - 4 := by
      rw [hlen]
      simp
      omega
    have h := wordAt_put32 o [] _ hfront (UInt32.ofNat (12 + body.length))
    rw [← h, hraw]
    simp [frame]
  have hheader : frameHeader current raw = .ok (o, raw.length) := by
    subst hraw
    exact frameHeader_frame horder hmod hsize
  unfold read
  simp only [hheader, ok_bind, hlast, htotal, List.take_length, hcontent, Nat.lt_irrefl, if_false, ne_eq,
    not_true_eq_false]
  rfl

section Encoded

variable {current : Option ByteOrder} {o : ByteOrder}

theorem read_sectionHeader (ho : o ≠ .wiresharkDefault) {s : SectionHeader} (hmagic : s.magic = byteOrderMagic)
    (hmajor : s.major = 1) (hoptions : s.options.Regular) (hsize : s.size ≤ maxSize) :
    read current (s.encode o) = .ok ⟨o, s.encode o, .sectionHeader s⟩ := by
  have hlen := s.length_encode o
  have hkind : wordAt o 0 (s.encode o) = .ok BlockKind.sectionHeader.number := wordAt_frame o _ _
  apply read_of_frame (s.encode o) rfl (orderOf_sectionHeader current ho hmagic)
  · have := Options.size_mod s.options
    simp only [hlen, SectionHeader.size]
    omega
  · omega
  · simp only [contentOf, hkind, ok_bind, BlockKind.ofNumber?_number, SectionHeader.parse_encode o hoptions hmajor]
    rfl

theorem read_interface {i : Interface} (hoptions : i.options.Regular) (hsize : i.size ≤ maxSize) :
    read (some o) (i.encode o) = .ok ⟨o, i.encode o, .interface i⟩ := by
  have hlen := i.length_encode o
  have hkind : wordAt o 0 (i.encode o) = .ok BlockKind.interfaceDescription.number := wordAt_frame o _ _
  apply read_of_frame (i.encode o) rfl (orderOf_frame (by decide) _)
  · have := Options.size_mod i.options
    simp only [hlen, Interface.size]
    omega
  · omega
  · simp only [contentOf, hkind, ok_bind, BlockKind.ofNumber?_number, Interface.parse_encode o hoptions]
    rfl

theorem read_packet {p : Packet} (hp : p.Proper) (hsize : p.size ≤ maxSize) :
    read (some o) (p.encode o) = .ok ⟨o, p.encode o, .packet .enhanced p⟩ := by
  have hlen := p.length_encode o
  have hkind : wordAt o 0 (p.encode o) = .ok BlockKind.enhancedPacket.number := wordAt_frame o _ _
  apply read_of_frame (p.encode o) rfl (orderOf_frame (by decide) _)
  · have := paddedLength_mod p.data.length
    have := Options.size_mod p.options
    simp only [hlen, Packet.size]
    omega
  · omega
  · simp only [contentOf, hkind, ok_bind, BlockKind.ofNumber?_number, Packet.parse_encode o hp.options hp.captured]
    rfl

/-- Statistics are only carried along until they are merged. -/
theorem read_statistics {st : Statistics} (hsize : st.size ≤ maxSize) :
    read (some o) (st.encode o) = .ok ⟨o, st.encode o, .other BlockKind.interfaceStatistics.number⟩ := by
  have hlen := st.length_encode o
  have hkind : wordAt o 0 (st.encode o) = .ok BlockKind.interfaceStatistics.number := wordAt_frame o _ _
  apply read_of_frame (st.encode o) rfl (orderOf_frame (by decide) _)
  · have := Options.size_mod st.options
    simp only [hlen, Statistics.size]
    omega
  · omega
  · simp only [contentOf, hkind, ok_bind, BlockKind.ofNumber?_number]
    rfl

theorem readFileHeader_encode (ho : o ≠ .wiresharkDefault) {h : FileHeader} {nanosecond : Bool}
    (hmagic : h.magic = PcapFormat.magic nanosecond) :
    readFileHeader (h.encode o) = .ok ⟨o, h.encode o, .fileHeader h⟩ := by
  have hlen := h.length_encode o
  have htake : (h.encode o).take 4 = o.put32 (PcapFormat.magic nanosecond) := by
    unfold FileHeader.encode
    rw [hmagic]
    simp only [List.append_assoc]
    exact List.take_left' (o.length_put32 _)
  have hparse : FileHeader.parse o (h.encode o) = .ok h := by simpa using FileHeader.parse_encode o h []
  have hall : (h.encode o).take FileHeader.size = h.encode o := List.take_of_length_le (Nat.le_of_eq hlen)
  simp only [readFileHeader, if_neg (Nat.not_lt.mpr (Nat.le_of_eq hlen.symm)), htake,
    PcapFormat.ofMagic?_put32 o nanosecond ho, hall, hparse, ok_bind]
  rfl

theorem readRecord_encode {f : PcapFormat} {r : Record} (hdata : r.captured.toNat = r.data.length)
    (hsize : r.captured.toNat ≤ maxSize) : readRecord f (r.encode f.order) =
      .ok ⟨f.order, r.encode f.order, .packet (.record f.nanosecond) (r.toPacket 0 f.nanosecond)⟩ := by
  have hlen := r.length_encode f.order
  have hcaptured : Record.capturedLength f.order (r.encode f.order) = .ok r.captured := by
    have hfront : (f.order.put32 r.seconds ++ f.order.put32 r.fraction).length = 8 := by simp
    have h := wordAt_put32 f.order (f.order.put32 r.onWire ++ r.data) _ hfront r.captured
    simpa [Record.capturedLength, Record.encode] using h
  have hlength : recordLength f.order (r.encode f.order) = .ok (Record.headerSize + r.captured.toNat) := by
    simp only [recordLength, if_neg (show ¬ (r.encode f.order).length < Record.headerSize by omega), hcaptured,
      ok_bind, if_neg (show ¬ maxSize < r.captured.toNat by omega)]
    rfl
  have hall : (r.encode f.order).take (Record.headerSize + r.captured.toNat) = r.encode f.order :=
    List.take_of_length_le (by omega)
  have hparse : Record.parse f.order (r.encode f.order) = .ok r := by
    simpa using Record.parse_encode f.order hdata []
  simp only [readRecord, hlength, ok_bind, if_neg (show ¬ (r.encode f.order).length < Record.headerSize
    + r.captured.toNat by omega), hall, hparse]
  rfl

end Encoded

end Block

end CaptureRing
