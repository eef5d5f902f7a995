/-
  CaptureRing.Proofs.Readback — what the merger writes can be read again, unless it outgrows a block.

  A reader takes no block longer than `maxSize`, a writer does not look at the length. Most blocks
  are written no longer than they were read: their framing stays, and what the reader ignored
  of their options is left out. But records and simple packets are written in the longer frame
  of an enhanced packet, so one with almost as much data as a block may have becomes too long.

  Proved:
  - `Options.size_le_of_decode`: options are written in the room they were read from;
  - `written_reads_back`: what is written for a block that was read is read as one block, and
    what outgrows one is refused by its length;
  - `run_interfaces`: a section header and interfaces are read as these blocks and nothing else;
  - `merged_output_reads_back`: both for all that is written along an order, if the names of the
    host fit their options;
  - `record_outgrows_block`: the largest record and an overlong name, for which it fails.
-/

import CaptureRing.Proofs.Attribution
import CaptureRing.Proofs.Legibility
import CaptureRing.Proofs.Translation

namespace CaptureRing

/-! ## Written in the room it was read from -/

/-- The padding of a value may be missing at the end of the options, but not if they end on 32 bits. -/
theorem Options.size_le_of_decode {o : ByteOrder} {bs : Bytes} {xs : Options} (h : decode o bs = .ok xs)
    (hmod : bs.length % 4 = 0) : size xs ≤ bs.length := by
  fun_induction decode o bs generalizing xs with
  | case1 =>
    cases h
    simp [size, BlockOption.size, BlockOption.terminator, paddedLength]
  | case2 => cases h
  | case3 c₀ c₁ l₀ l₁ rest code length hc value tail hsplit =>
    rename_i ih
    obtain ⟨hrest, hvalue⟩ := split?_eq_some_iff.mp hsplit
    cases hd : decode o (rest.drop (paddedLength length.toNat)) with
    | error m => rw [hd] at h; cases h
    | ok ys =>
      rw [hd] at h
      cases h
      have hlen := congrArg List.length hrest
      simp only [List.length_cons, List.length_append, List.length_drop] at hmod hlen ih ⊢
      have hpadded : paddedLength value.length ≤ rest.length := by
        unfold paddedLength
        omega
      have := paddedLength_mod length.toNat
      have hys := ih hd (by rw [← hvalue] at this ⊢; omega)
      simp only [size, List.map_cons, List.sum_cons, BlockOption.size] at hys ⊢
      rw [← hvalue] at hys
      omega
  | case4 => cases h; simp [size]

theorem length_optionsArea (start : Nat) (raw : Bytes) : (optionsArea start raw).length = raw.length - 4 - start := by
  unfold optionsArea
  rw [List.length_drop, List.length_take]
  omega

section Sizes

variable {o : ByteOrder} {raw : Bytes}

theorem Interface.fits_of_parse {i : Interface} (h : parse o raw = .ok i) (hmod : raw.length % 4 = 0) :
    i.options.Regular ∧ i.size ≤ max 20 raw.length := by
  obtain ⟨-, hfound⟩ := parse_iff.mp h
  have hsize := Options.size_le_of_decode hfound.options (by rw [length_optionsArea]; omega)
  rw [length_optionsArea] at hsize
  refine ⟨Options.regular_of_decode hfound.options, ?_⟩
  unfold size
  omega

theorem Statistics.size_le_of_parse {st : Statistics} (h : parse o raw = .ok st) (hmod : raw.length % 4 = 0) :
    st.size ≤ max 24 raw.length := by
  obtain ⟨-, hfound⟩ := parse_iff.mp h
  have hsize := Options.size_le_of_decode hfound.options (by rw [length_optionsArea]; omega)
  rw [length_optionsArea] at hsize
  unfold size
  omega

theorem Packet.FoundIn.size_le {p : Packet} (h : p.FoundIn o raw) (hmod : raw.length % 4 = 0) : p.size ≤ raw.length := by
  have hdata := h.data
  unfold capturedData at hdata
  split at hdata
  · cases hdata
  · rename_i hroom
    have hlen := length_of_fieldBytes hdata
    have hpadded := paddedLength_mod p.captured.toNat
    have hsize := Options.size_le_of_decode h.options (by rw [length_optionsArea]; omega)
    rw [length_optionsArea] at hsize
    unfold size
    rw [hlen]
    omega

theorem Packet.size_le_of_parse {kind : BlockKind} {p : Packet} (h : parse kind o raw = .ok p)
    (hkind : kind ≠ .simplePacket) (hmod : raw.length % 4 = 0) : p.size ≤ raw.length := by
  obtain ⟨-, hdecode⟩ := decodeFrame_iff.mp h
  split at hdecode
  · exact absurd rfl hkind
  · exact (decodeObsolete_iff.mp hdecode).2.size_le hmod
  · exact (decodeEnhanced_iff.mp hdecode).2.size_le hmod

theorem Packet.length_data_of_simple {p : Packet} (h : parse .simplePacket o raw = .ok p) : p.data.length ≤ raw.length := by
  obtain ⟨-, hdecode⟩ := decodeFrame_iff.mp h
  have := length_of_fieldBytes (decodeSimple_iff.mp hdecode).data
  omega

theorem Record.length_data_of_parse {r : Record} (h : parse o raw = .ok r) : headerSize + r.data.length ≤ raw.length := by
  have hfound := parse_iff.mp h
  have hfields := le_length_of_field32 hfound.onWire
  have hdata := hfound.data
  rw [slice?, if_pos (Nat.le_add_right _ _)] at hdata
  obtain ⟨⟨front, rest⟩, hsplit, hfront⟩ := Option.map_eq_some_iff.mp hdata
  have hlen := congrArg List.length (split?_eq_some_iff.mp hsplit).1
  rw [List.length_drop, List.length_append] at hlen
  dsimp only at hfront
  rw [← hfront]
  unfold headerSize at hlen ⊢
  omega

end Sizes

namespace Block

theorem length_of_read {current : Option ByteOrder} {buf : Bytes} {b : Block} (h : read current buf = .ok b) :
    b.raw.length % 4 = 0 ∧ b.raw.length ≤ maxSize := by
  obtain ⟨o, hframe⟩ := Stream.frameHeader_of_read (read_raw h) rfl
  obtain ⟨-, -, hmod, hle⟩ := frameHeader_eq_ok hframe
  exact ⟨hmod, hle⟩

theorem length_of_readRecord {f : PcapFormat} {buf : Bytes} {b : Block} (h : readRecord f buf = .ok b) :
    b.raw.length ≤ Record.headerSize + maxSize := by
  obtain ⟨hlength, -⟩ := Stream.recordLength_of_read (readRecord_raw h) rfl
  exact (recordLength_eq_ok hlength).2

/-- A packet that is written in a longer frame than it was read from, and has so much data that
    it is too long for a block in that frame. -/
def outgrows (b : Block) : Bool :=
  match b.content with
  | .packet .simple p | .packet (.record _) p => maxSize < 32 + paddedLength p.data.length
  | _ => false

theorem packet_bounds {b : Block} {format : PacketFormat} {p : Packet} (h : b.Accepted)
    (hc : b.content = .packet format p) :
    p.size < 2 ^ 32 ∧ (b.outgrows = false → p.size ≤ maxSize) ∧ (b.outgrows = true → maxSize < p.size) := by
  obtain ⟨-, hnone⟩ := proper_of_accepted h hc
  have hplain : p.options = [] → p.size = 32 + paddedLength p.data.length := by
    intro ho
    unfold Packet.size
    rw [ho]
    rfl
  -- a simple packet and a record have no options, and as much data as their own frame has room for
  have hlonger : p.options = [] → b.outgrows = decide (maxSize < 32 + paddedLength p.data.length) →
      p.data.length ≤ maxSize →
      p.size < 2 ^ 32 ∧ (b.outgrows = false → p.size ≤ maxSize) ∧ (b.outgrows = true → maxSize < p.size) := by
    intro ho hb hdata
    have := paddedLength_lt p.data.length
    rw [hplain ho, hb, decide_eq_false_iff_not, decide_eq_true_iff]
    unfold maxSize at *
    omega
  have hwithin : b.outgrows = false → p.size ≤ maxSize →
      p.size < 2 ^ 32 ∧ (b.outgrows = false → p.size ≤ maxSize) ∧ (b.outgrows = true → maxSize < p.size) := by
    intro hb hsize
    rw [hb]
    unfold maxSize at *
    exact ⟨by omega, fun _ => hsize, nofun⟩
  rcases h with ⟨current, buf, h⟩ | ⟨f, buf, h⟩
  · obtain ⟨hmod, hle⟩ := length_of_read h
    have hcontent := contentOf_of_read h
    rw [hc] at hcontent
    cases contentOf_cases hcontent with
    | enhanced hp =>
      exact hwithin (by unfold outgrows; rw [hc]) (Nat.le_trans (Packet.size_le_of_parse hp nofun hmod) hle)
    | simple hp =>
      exact hlonger (hnone nofun nofun) (by unfold outgrows; rw [hc]) (Nat.le_trans (Packet.length_data_of_simple hp) hle)
    | obsolete hp =>
      exact hwithin (by unfold outgrows; rw [hc]) (Nat.le_trans (Packet.size_le_of_parse hp nofun hmod) hle)
  · have hle := length_of_readRecord h
    obtain ⟨r, hr, -, hcontent⟩ := record_of_readRecord h
    rw [hc] at hcontent
    cases hcontent
    have hdata : r.data.length ≤ maxSize := by
      have := Record.length_data_of_parse hr
      omega
    exact hlonger (hnone nofun nofun) (by unfold outgrows; rw [hc]) hdata

theorem interface_of_declares? {b : Block} {i : Interface} (h : b.Accepted ∨ ∃ header, b.content = .fileHeader header)
    (hi : b.declares? = some i) : i.options.Regular ∧ i.size ≤ maxSize := by
  unfold declares? at hi
  split at hi
  · rename_i header hc
    cases hi
    unfold FileHeader.toInterface
    have hunit : (BlockOption.make Interface.resolutionCode [9]).Proper := BlockOption.proper_make (by decide) (by decide)
    cases header.nanosecond with
    | true => exact ⟨.cons hunit .terminator, (by decide : 32 ≤ maxSize)⟩
    | false => exact ⟨.nil, (by decide : 20 ≤ maxSize)⟩
  · rename_i j hc
    rcases h with (⟨current, buf, h⟩ | ⟨f, buf, h⟩) | ⟨header, h⟩
    · obtain ⟨hmod, hle⟩ := length_of_read h
      have hcontent := contentOf_of_read h
      rw [hc] at hcontent
      have hparse : Interface.parse b.order b.raw = .ok j := by
        cases contentOf_cases hcontent with
        | interface hj => exact hj
      obtain ⟨hregular, hsize⟩ := Interface.fits_of_parse hparse hmod
      have hfits : j.size ≤ maxSize := by
        unfold maxSize at *
        omega
      cases hi
      split
      · refine ⟨hregular.swap _, ?_⟩
        unfold Interface.swapOptions Interface.size
        rw [Options.size_swap]
        exact hfits
      · exact ⟨hregular, hfits⟩
    · obtain ⟨_, -, -, hcontent⟩ := record_of_readRecord h
      rw [hc] at hcontent
      cases hcontent
    · rw [hc] at h
      cases h
  · cases hi

theorem statistics_of_accepted {b : Block} {st : Statistics} (h : b.Accepted)
    (hc : b.content = .other BlockKind.interfaceStatistics.number) (hst : Statistics.parse b.order b.raw = .ok st) :
    st.options.Regular ∧ st.size ≤ maxSize := by
  refine ⟨Options.regular_of_decode (Statistics.parse_iff.mp hst).2.options, ?_⟩
  rcases h with ⟨current, buf, hread⟩ | ⟨f, buf, hread⟩
  · obtain ⟨hmod, hle⟩ := length_of_read hread
    have hsize := Statistics.size_le_of_parse hst hmod
    unfold maxSize at *
    omega
  · obtain ⟨_, -, -, hcontent⟩ := record_of_readRecord hread
    rw [hc] at hcontent
    cases hcontent

end Block

/-- The blocks of a stream were made by a reader. -/
theorem Stream.accepted_or_fileHeader {r : Reader} {b : Block} (h : b ∈ (ofReader r).accepted) :
    b.Accepted ∨ ∃ header, b.content = .fileHeader header := by
  rcases accepted_cases r with hnone | ⟨format, first, rest, hall, hbegins, hrest⟩
  · rw [hnone] at h
    exact absurd h List.not_mem_nil
  · rw [hall] at h
    rcases List.mem_cons.mp h with rfl | h
    · cases format with
      | sectioned => exact Or.inl (Or.inl hbegins)
      | classic f =>
        obtain ⟨buf, hread, hf⟩ := hbegins
        obtain ⟨header, hc, -⟩ := nanosecond_of_readFileHeader hread hf
        exact Or.inr ⟨header, hc⟩
    · have hreads := hrest b h
      cases format with
      | sectioned => exact Or.inl (Or.inl hreads)
      | classic f =>
        obtain ⟨buf, hread⟩ := hreads
        exact Or.inl (Or.inr ⟨f, buf, hread⟩)

/-! ## What is written for a block -/

/-- The bytes are those of one block of a section of little endian. -/
def ReadsAsBlock (bytes : Bytes) : Prop := ∃ block, Block.read (some .littleEndian) bytes = .ok block ∧ block.raw = bytes

/-- What is written for a packet is read, or refused by its length. -/
theorem translated_reads_back {p : Packet} (hp : p.Proper) (hfits : p.size < 2 ^ 32) (id : UInt32) (order : ByteOrder) :
    (p.size ≤ Block.maxSize → ReadsAsBlock ((p.translated id order).encode .littleEndian)) ∧
      (Block.maxSize < p.size →
        Block.read (some .littleEndian) ((p.translated id order).encode .littleEndian) =
          corrupt (.blockLength ((p.translated id order).encode .littleEndian).length)) := by
  constructor
  · intro hsize
    exact ⟨_, read_translated hp hsize id order, rfl⟩
  · intro hsize
    have hlen := (p.translated id order).length_encode .littleEndian
    have hsame : (p.translated id order).size = p.size := by
      unfold Packet.translated Packet.size
      cases order.isBig <;> simp
    unfold Packet.encode at hlen ⊢
    rw [length_frame] at hlen ⊢
    exact Block.read_frame_too_long (Block.orderOf_frame (by decide) _) (by omega) (by omega)

theorem written_reads_back {s : Synthesized} {source : Nat} {b : Block}
    (hb : b.Accepted ∨ ∃ header, b.content = .fileHeader header) {bytes : Bytes}
    (hbytes : (Merger.synthesized s).gives source b = some bytes) :
    (b.outgrows = false → ReadsAsBlock bytes) ∧
      (b.outgrows = true → Block.read (some .littleEndian) bytes = corrupt (.blockLength bytes.length)) := by
  rw [Synthesized.gives_eq source 0] at hbytes
  obtain ⟨x, hx, rfl⟩ := Option.map_eq_some_iff.mp hbytes
  rcases Synthesized.merged?_cases hx with ⟨i, hi, rfl⟩ | ⟨format, p, k, hc, -, rfl⟩ | ⟨st, k, hc, hst, -, rfl⟩
  · obtain ⟨hregular, hsize⟩ := Block.interface_of_declares? hb hi
    have hgrows : b.outgrows = false := by
      unfold Block.declares? at hi
      unfold Block.outgrows
      split at hi
      · rename_i hc; rw [hc]
      · rename_i hc; rw [hc]
      · cases hi
    rw [hgrows]
    exact ⟨fun _ => ⟨_, Block.read_interface hregular hsize, rfl⟩, nofun⟩
  · have hb : b.Accepted := by
      rcases hb with hb | ⟨header, hheader⟩
      · exact hb
      · rw [hc] at hheader
        cases hheader
    obtain ⟨hproper, hnone⟩ := Block.proper_of_accepted hb hc
    obtain ⟨hfits, hwithin, hlonger⟩ := Block.packet_bounds hb hc
    obtain ⟨hread, hrefused⟩ := translated_reads_back hproper hfits k b.order
    unfold MergedBlock.encode
    dsimp only
    rw [packetInOutputOrder_eq k b.order hnone]
    exact ⟨fun h => hread (hwithin h), fun h => hrefused (hlonger h)⟩
  · have hgrows : b.outgrows = false := by
      unfold Block.outgrows
      rw [hc]
    have hb : b.Accepted := by
      rcases hb with hb | ⟨header, hheader⟩
      · exact hb
      · rw [hc] at hheader
        cases hheader
    have hsize := (Block.statistics_of_accepted hb hc hst).2
    have hsame : (statisticsInOutputOrder b.order { st with interface := k }).size = st.size := by
      unfold statisticsInOutputOrder Statistics.size
      split
      · simp [Statistics.swapOptions]
      · rfl
    rw [hgrows]
    exact ⟨fun _ => ⟨_, Block.read_statistics (hsame ▸ hsize), rfl⟩, nofun⟩

/-! ## What a new file starts with -/

structure Host.Brief (h : Host) : Prop where
  processor : ∀ name, h.processorModel = .ok name → (Utf8.encode name.toList).length < 2 ^ 16
  system : ∀ name, h.systemName = .ok name → (Utf8.encode name.toList).length < 2 ^ 16

theorem BlockOption.Proper.size_lt {x : BlockOption} (h : x.Proper) : x.size < 2 ^ 17 := by
  have := h.length
  have := x.length.toNat_lt
  have := paddedLength_lt x.value.length
  unfold size
  omega

namespace Options

theorem regular_of_proper {xs : Options} (h : ∀ x ∈ xs, x.Proper) : Regular (xs ++ [BlockOption.terminator]) := by
  induction xs with
  | nil => exact .terminator
  | cons x xs ih =>
    obtain ⟨hx, hxs⟩ := List.forall_mem_cons.mp h
    exact .cons hx (ih hxs)

theorem size_le_of_proper {xs : Options} (h : ∀ x ∈ xs, x.Proper) : size xs ≤ xs.length * 2 ^ 17 := by
  induction xs with
  | nil => exact Nat.le_refl 0
  | cons x xs ih =>
    obtain ⟨hx, hxs⟩ := List.forall_mem_cons.mp h
    have hle := ih hxs
    have := hx.size_lt
    unfold size at hle ⊢
    rw [List.map_cons, List.sum_cons, List.length_cons, Nat.add_mul]
    omega

end Options

theorem textOption_proper (code : UInt16) {r : Result String} (hcode : code ≠ 0)
    (h : ∀ name, r = .ok name → (Utf8.encode name.toList).length < 2 ^ 16) :
    (∀ x ∈ textOption code r, x.Proper) ∧ (textOption code r).length ≤ 1 := by
  unfold textOption
  cases r with
  | error e => exact ⟨fun x hx => absurd hx List.not_mem_nil, Nat.zero_le _⟩
  | ok name =>
    refine ⟨fun x hx => ?_, Nat.le_refl _⟩
    rw [List.mem_singleton.mp hx]
    exact BlockOption.proper_make hcode (h name rfl)

/-- The options of our own header: the names there are, and the application last. -/
theorem options_ofHost (h : Host) : (SectionHeader.ofHost h applicationName).options =
    (textOption SectionHeader.hardwareCode h.processorModel ++ textOption SectionHeader.systemCode h.systemName ++
      [BlockOption.make SectionHeader.applicationCode (Utf8.encode applicationName.toList)]) ++
      [BlockOption.terminator] := by
  unfold SectionHeader.ofHost SectionHeader.ofOptions Options.ofList
  dsimp only
  rw [show textOption SectionHeader.applicationCode (.ok applicationName)
      = [BlockOption.make SectionHeader.applicationCode (Utf8.encode applicationName.toList)] from rfl,
    List.getLast?_concat]
  rfl

theorem SectionHeader.magic_ofHost (h : Host) : (ofHost h applicationName).magic = byteOrderMagic := rfl

theorem Host.Brief.fits {h : Host} (hb : h.Brief) : (SectionHeader.ofHost h applicationName).Fits := by
  obtain ⟨hp, hplen⟩ := textOption_proper SectionHeader.hardwareCode (by decide) hb.processor
  obtain ⟨hs, hslen⟩ := textOption_proper SectionHeader.systemCode (by decide) hb.system
  have happlication : (BlockOption.make SectionHeader.applicationCode (Utf8.encode applicationName.toList)).Proper :=
    BlockOption.proper_make (by decide) (by decide)
  have hproper : ∀ x ∈ textOption SectionHeader.hardwareCode h.processorModel
      ++ textOption SectionHeader.systemCode h.systemName
      ++ [BlockOption.make SectionHeader.applicationCode (Utf8.encode applicationName.toList)], x.Proper := by
    intro x hx
    rcases List.mem_append.mp hx with hx | hx
    · rcases List.mem_append.mp hx with hx | hx
      · exact hp x hx
      · exact hs x hx
    · rw [List.mem_singleton.mp hx]
      exact happlication
  have hsize := Options.size_le_of_proper hproper
  refine ⟨SectionHeader.magic_ofHost h, rfl, ?_, ?_⟩
  · rw [options_ofHost]
    exact Options.regular_of_proper hproper
  · unfold SectionHeader.size
    rw [options_ofHost]
    unfold Options.size at hsize ⊢
    rw [List.map_append, List.sum_append, List.map_singleton, List.sum_singleton]
    have hterminator : BlockOption.terminator.size = 4 := rfl
    simp only [List.length_append, List.length_singleton] at hsize
    unfold Block.maxSize
    omega

theorem interfaces_of_readAs {o : ByteOrder} {is : List Interface} {bs : List Block}
    (h : List.Forall₂ (SectionBlock.ReadAs o) (is.map .interface) bs) :
    bs.length = is.length ∧ ∀ b ∈ bs, b.isInterface = true := by
  induction is generalizing bs with
  | nil =>
    cases h
    exact ⟨rfl, fun b hb => absurd hb List.not_mem_nil⟩
  | cons i is ih =>
    cases h with
    | cons hb hrest =>
      obtain ⟨hlen, hall⟩ := ih hrest
      refine ⟨congrArg (· + 1) hlen, List.forall_mem_cons.mpr ⟨?_, hall⟩⟩
      unfold Block.isInterface
      rw [hb.2.2]

/-- A section of interfaces is read as its header and the interfaces. -/
theorem run_interfaces {header : SectionHeader} (hheader : header.Fits) {is : List Interface}
    (his : ∀ i ∈ is, i.options.Regular ∧ i.size ≤ Block.maxSize) {r : Reader}
    (hr : r.Delivers (header.encode .littleEndian ++ is.flatMap (Interface.encode .littleEndian))) :
    ∃ interfaces : List Block, (∀ b ∈ interfaces, b.isInterface = true) ∧ interfaces.length = is.length ∧
      (Stream.ofReader r).run.map (·.1) =
        (⟨.littleEndian, header.encode .littleEndian, .sectionHeader header⟩ :: interfaces).map (fun b => .ok (some b))
          ++ [.ok none] := by
  let draft : SectionDraft := ⟨.littleEndian, header, is.map .interface⟩
  have hfits : draft.Fits := by
    refine ⟨ByteOrder.noConfusion, hheader, fun x hx => ?_⟩
    obtain ⟨i, hi, rfl⟩ := List.mem_map.mp hx
    exact his i hi
  have hbytes : header.encode .littleEndian ++ is.flatMap (Interface.encode .littleEndian)
      = [draft].flatMap SectionDraft.encode := by
    rw [List.flatMap_singleton]
    show _ = header.encode .littleEndian ++ (is.map SectionBlock.interface).flatMap (SectionBlock.encode .littleEndian)
    rw [List.flatMap_map]
    rfl
  rw [hbytes] at hr
  obtain ⟨bss, hbss, hrun⟩ := Stream.run_sections (fun d hd => by rw [List.mem_singleton.mp hd]; exact hfits) hr
  cases hbss with
  | cons hd hrest =>
    cases hrest
    obtain ⟨interfaces, rfl, hreads⟩ := hd
    obtain ⟨hlen, hall⟩ := interfaces_of_readAs hreads
    rw [List.flatten_singleton] at hrun
    exact ⟨interfaces, hall, hlen, hrun⟩

/-! ## Everything that is written -/

/-- Everything that the merger writes for blocks that were read from streams is read as one block,
    unless it outgrows one, and is then refused by its length. What a new file starts with is read
    as a section header and as many interfaces as there are, if the names of the host fit. -/
theorem merged_output_reads_back (host : Host) {sources : Nat} (hn : 1 < sources) {order : List (Nat × Block)}
    (haccepted : ∀ e ∈ order, ∃ r, e.2 ∈ (Stream.ofReader r).accepted) :
    (∀ e ∈ given (Merger.ofCount host sources) order,
      (e.block.outgrows = false → ∃ block, Block.read (some .littleEndian) (e.bytes (Merger.ofCount host sources)) =
        .ok block ∧ block.raw = e.bytes (Merger.ofCount host sources)) ∧
      (e.block.outgrows = true → Block.read (some .littleEndian) (e.bytes (Merger.ofCount host sources)) =
        corrupt (.blockLength (e.bytes (Merger.ofCount host sources)).length))) ∧
    (host.Brief → ∀ (next : Option Block) (r : Reader),
      r.Delivers (((Merger.ofCount host sources).after order).seed next) →
        ∃ (header : Block) (interfaces : List Block), (∃ h, header.content = .sectionHeader h) ∧
          (∀ b ∈ interfaces, b.isInterface = true) ∧
          interfaces.length = ((Merger.ofCount host sources).after order).interfaceCount ∧
          (Stream.ofReader r).run.map (·.1) = (header :: interfaces).map (fun b => .ok (some b)) ++ [.ok none]) := by
  have hmade : ∀ e ∈ order, e.2.Accepted ∨ ∃ header, e.2.content = .fileHeader header := by
    intro e he
    obtain ⟨r, hr⟩ := haccepted e he
    exact Stream.accepted_or_fileHeader hr
  constructor
  · intro e he
    obtain ⟨before, after, hsplit⟩ := List.append_of_mem he
    obtain ⟨-, hprefix, hsome⟩ := given_before hsplit
    have hmem : (e.source, e.block) ∈ order := hprefix.subset (by simp)
    obtain ⟨s, hs, -⟩ := ofCount_numbers hn host e.before
    obtain ⟨bytes, hbytes⟩ := Option.isSome_iff_exists.mp hsome
    have hwritten : e.bytes (Merger.ofCount host sources) = bytes := by
      unfold Written.bytes
      rw [hbytes]
      rfl
    rw [hs] at hbytes
    rw [hwritten]
    exact written_reads_back (hmade _ hmem) hbytes
  · intro hbrief next r hr
    obtain ⟨s, hs, hnum⟩ := ofCount_numbers hn host order
    have hseed : ((Merger.ofCount host sources).after order).seed next =
        (SectionHeader.ofHost host applicationName).encode .littleEndian ++
          (announced order).flatMap (Interface.encode .littleEndian) := by
      rw [hs]
      show s.header ++ s.interfaces.toList.flatMap _ = _
      rw [hnum.header, hnum.interfaces]
      rfl
    rw [hseed] at hr
    have hinterfaces : ∀ i ∈ announced order, i.options.Regular ∧ i.size ≤ Block.maxSize := by
      intro i hi
      obtain ⟨e, he, hi⟩ := List.mem_filterMap.mp hi
      exact Block.interface_of_declares? (hmade e he) hi
    obtain ⟨interfaces, hall, hlen, hrun⟩ := run_interfaces hbrief.fits hinterfaces hr
    refine ⟨_, interfaces, ⟨_, rfl⟩, hall, ?_, hrun⟩
    rw [hlen, hs, ← hnum.interfaces, Array.length_toList]
    rfl

/-- All blocks of a stream of two sections, for a merger of two sources. -/
theorem merged_output_reads_back_lone :
    let order := (Stream.ofReader (Reader.ofBytes loneStream)).accepted.map fun b => (0, b)
    let m := Merger.ofCount ⟨none, none⟩ 2
    (given m order).length = 5 ∧ (∀ e ∈ given m order, ∃ block,
      Block.read (some .littleEndian) (e.bytes m) = .ok block ∧ block.raw = e.bytes m) ∧
    ∃ (header : Block) (interfaces : List Block), interfaces.length = 2 ∧
      (Stream.ofReader (Reader.ofBytes ((m.after order).seed none))).run.map (·.1)
        = (header :: interfaces).map (fun b => .ok (some b)) ++ [.ok none] := by
  intro order m
  have haccepted : ∀ e ∈ order, ∃ r, e.2 ∈ (Stream.ofReader r).accepted := by
    intro e he
    obtain ⟨b, hb, rfl⟩ := List.mem_map.mp he
    exact ⟨_, hb⟩
  have hsmall : ∀ e ∈ given m order, e.block.outgrows = false := by decide +kernel
  obtain ⟨hwritten, hseed⟩ := merged_output_reads_back ⟨none, none⟩ (by decide : 1 < 2) haccepted
  obtain ⟨header, interfaces, -, -, hlen, hrun⟩ := hseed ⟨nofun, nofun⟩ none _ (Reader.ofBytes_delivers _)
  refine ⟨by decide +kernel, fun e he => (hwritten e he).1 (hsmall e he), header, interfaces, ?_, hrun⟩
  rw [hlen]
  decide +kernel

/-! ## A record that outgrows a block, and a name that outgrows its option -/

def captureOf (data : Bytes) : ClassicDraft :=
  ⟨⟨.littleEndian, false⟩, FileHeader.make false 0 1, [Record.ofData 0 0 data]⟩

def captureHeader : Block :=
  ⟨.littleEndian, (FileHeader.make false 0 1).encode .littleEndian, .fileHeader (FileHeader.make false 0 1)⟩

def captureRecord (data : Bytes) : Block :=
  ⟨.littleEndian, (Record.ofData 0 0 data).encode .littleEndian,
    .packet (.record false) ((Record.ofData 0 0 data).toPacket 0 false)⟩

section FullRecord

variable {data : Bytes}

theorem accepted_captureOf (hdata : data.length ≤ Block.maxSize) :
    (Stream.ofReader (Reader.ofBytes (captureOf data).encode)).accepted = [captureHeader, captureRecord data] := by
  have hcaptured : (Record.ofData 0 0 data).captured.toNat = data.length := by
    show (UInt32.ofNat data.length).toNat = data.length
    rw [UInt32.toNat_ofNat']
    unfold Block.maxSize at hdata
    omega
  have hfits : (captureOf data).Fits := by
    refine ⟨ByteOrder.noConfusion, rfl, fun r hr => ?_⟩
    rw [List.mem_singleton.mp hr]
    exact ⟨hcaptured, by rw [hcaptured]; exact hdata⟩
  obtain ⟨bs, ⟨rest, rfl, hrest⟩, hrun⟩ := Stream.run_classic hfits (Reader.ofBytes_delivers _)
  cases hrest with
  | @cons _ b _ _ hb hnil =>
    cases hnil
    obtain ⟨o, raw, content⟩ := b
    obtain ⟨ho, hraw, -, hcontent⟩ := hb
    dsimp only at ho hraw hcontent
    subst ho hraw hcontent
    exact Stream.accepted_of_run hrun

/-- A record that a reader takes may be refused as the merger writes it. -/
theorem refused_captureRecord (hdata : data.length ≤ Block.maxSize)
    (hgrows : Block.maxSize < 32 + paddedLength data.length) (host : Host) :
    ∃ bytes, ((Merger.ofCount host 2).after [(0, captureHeader)]).gives 0 (captureRecord data) = some bytes ∧
      Block.read (some .littleEndian) bytes = corrupt (.blockLength bytes.length) := by
  obtain ⟨s, hs, hnum⟩ := ofCount_numbers (by decide : 1 < 2) host [(0, captureHeader)]
  have hsome : (s.renumber 0 0).isSome = true := by
    rw [hnum.renumber_isSome]
    rfl
  obtain ⟨id, hid⟩ := Option.isSome_iff_exists.mp hsome
  have hgives : (Merger.synthesized s).gives 0 (captureRecord data) =
      some ((Synthesized.packetInOutputOrder .littleEndian (.record false)
        { (Record.ofData 0 0 data).toPacket 0 false with interface := id }).encode outputOrder) := by
    unfold Merger.gives Merger.process Synthesized.process captureRecord
    dsimp only
    rw [show ((Record.ofData 0 0 data).toPacket 0 false).interface = 0 from rfl, hid]
    rfl
  have hmem : captureRecord data ∈ (Stream.ofReader (Reader.ofBytes (captureOf data).encode)).accepted := by
    rw [accepted_captureOf hdata]
    exact List.mem_cons_of_mem _ (List.mem_singleton_self _)
  rw [hs]
  refine ⟨_, hgives, (written_reads_back (Stream.accepted_or_fileHeader hmem) hgives).2 ?_⟩
  exact decide_eq_true hgrows

end FullRecord

/-! A name of 65536 letters is written with a length of zero, and its letters are taken for options. -/

/-- A section header whose options cannot be read is not the only block of any stream. -/
theorem Stream.run_ne_of_malformed {header : SectionHeader} (hmagic : header.magic = byteOrderMagic) {e : Malformed}
    (hoptions : Options.decode .littleEndian (header.options.encode .littleEndian) = .error e) {r : Reader}
    (hr : r.Delivers (header.encode .littleEndian)) (b : Block) :
    (ofReader r).run.map (·.1) ≠ [.ok (some b), .ok none] := by
  intro hrun
  have haccepted : (ofReader r).accepted = [b] := accepted_of_run hrun
  have hok : ∀ p ∈ (ofReader r).run, ∃ o, p.1 = .ok o := by
    intro p hp
    have hmem : p.1 ∈ (ofReader r).run.map (·.1) := List.mem_map_of_mem hp
    rw [hrun] at hmem
    rcases List.mem_cons.mp hmem with h | h
    · exact ⟨_, h⟩
    · exact ⟨_, List.mem_singleton.mp h⟩
  have hraw := raw_accepted_of_clean hr hok
  rw [haccepted, List.flatMap_singleton] at hraw
  rcases accepted_legible r with hnone | ⟨format, first, order, rest, hall, hopens, -⟩
  · rw [haccepted] at hnone
    cases hnone
  · rw [haccepted] at hall
    cases hall
    cases hopens with
    | sectioned hc hread =>
      have hcontent := Block.contentOf_of_read hread
      rw [hraw] at hread
      obtain ⟨_, hframe, -⟩ := Block.read_eq_ok hread
      have horder := (Block.frameHeader_eq_ok hframe).1
      rw [Block.orderOf_sectionHeader none (by decide) hmagic] at horder
      rw [← Except.ok.inj horder, hraw, hc] at hcontent
      cases Block.contentOf_cases hcontent with
      | sectionHeader _ hparsed =>
        have hdecoded := (SectionHeader.parse_iff.mp hparsed).2.1.options
        unfold SectionHeader.encode at hdecoded
        rw [optionsArea_frame .littleEndian _ (by simp), hoptions] at hdecoded
        cases hdecoded
    | classic hread _ =>
      obtain ⟨-, hsize⟩ := Block.readFileHeader_raw hread
      rw [hraw, SectionHeader.length_encode] at hsize
      unfold SectionHeader.size FileHeader.size at hsize
      omega

/-- Four letters are taken for the code and the length of an option of 24929 bytes. -/
theorem decode_letters (n : Nat) (rest : Bytes) :
    Options.decode .littleEndian (List.replicate (n + 4) 0x61 ++ rest) =
      match split? 24929 (List.replicate n 0x61 ++ rest) with
      | none => .error .runsPast
      | some (value, _) => (Options.decode .littleEndian ((List.replicate n 0x61 ++ rest).drop 24932)).map
          (⟨0x6161, 0x6161, value⟩ :: ·) := by
  have hfront : List.replicate (n + 4) (0x61 : UInt8) ++ rest =
      0x61 :: 0x61 :: 0x61 :: 0x61 :: (List.replicate n 0x61 ++ rest) := by
    simp only [List.replicate_succ, List.cons_append]
  have hword : UInt16.ofNat (ByteOrder.littleEndian.get [0x61, 0x61]) = 0x6161 := by decide
  rw [hfront, Options.decode, hword, if_neg (by decide)]
  rfl

theorem decode_letters_long {n : Nat} {rest : Bytes} {e : Malformed} (hn : 24932 ≤ n)
    (h : Options.decode .littleEndian (List.replicate (n - 24932) 0x61 ++ rest) = .error e) :
    Options.decode .littleEndian (List.replicate (n + 4) 0x61 ++ rest) = .error e := by
  have hroom : 24929 ≤ (List.replicate n (0x61 : UInt8) ++ rest).length := by
    rw [List.length_append, List.length_replicate]
    omega
  obtain ⟨tail, htail⟩ := exists_split hroom
  rw [decode_letters, htail]
  dsimp only
  rw [List.drop_append_of_le_length (by rw [List.length_replicate]; exact hn), List.drop_replicate, h]
  rfl

theorem decode_letters_short (n : Nat) {rest : Bytes} (h : n + rest.length < 24929) :
    Options.decode .littleEndian (List.replicate (n + 4) 0x61 ++ rest) = .error .runsPast := by
  have hnone : split? 24929 (List.replicate n (0x61 : UInt8) ++ rest) = none := by
    unfold split?
    dsimp only
    rw [if_neg]
    rw [List.length_take, List.length_append, List.length_replicate]
    omega
  rw [decode_letters, hnone]

/-- The option of the system's name, as it is read if its length is told as zero. -/
theorem decode_wrapped (bs : Bytes) : Options.decode .littleEndian (3 :: 0 :: 0 :: 0 :: bs) =
    (Options.decode .littleEndian bs).map (⟨3, 0, []⟩ :: ·) := by
  have hcode : UInt16.ofNat (ByteOrder.littleEndian.get [3, 0]) = 3 := by decide
  have hlength : UInt16.ofNat (ByteOrder.littleEndian.get [0, 0]) = 0 := by decide
  rw [Options.decode, hcode, hlength, if_neg (by decide)]
  rfl

def behindName : Options :=
  [BlockOption.make SectionHeader.applicationCode (Utf8.encode applicationName.toList), BlockOption.terminator]

/-- The length of the name is told as zero: 65536 is the first that does not fit its 16 bits. -/
theorem options_of_wrapped {host : Host} {name : String} {e : Failure} (hp : host.processorModel = .error e)
    (hs : host.systemName = .ok name) (hname : (Utf8.encode name.toList).length = 65536) :
    (SectionHeader.ofHost host applicationName).options.encode .littleEndian =
      3 :: 0 :: 0 :: 0 :: (Utf8.encode name.toList ++ behindName.encode .littleEndian) := by
  have hpad : pad (Utf8.encode name.toList) = Utf8.encode name.toList := by
    unfold pad
    rw [hname, show paddedLength 65536 - 65536 = 0 by decide, List.replicate_zero, List.append_nil]
  have hfront : (ByteOrder.littleEndian.put16 SectionHeader.systemCode ++
      ByteOrder.littleEndian.put16 (UInt16.ofNat 65536)) = [3, 0, 0, 0] := by decide
  have hoption : (BlockOption.make SectionHeader.systemCode (Utf8.encode name.toList)).encode .littleEndian =
      3 :: 0 :: 0 :: 0 :: Utf8.encode name.toList := by
    unfold BlockOption.encode BlockOption.make
    dsimp only
    rw [hname, hpad, hfront]
    rfl
  rw [options_ofHost, hp, hs]
  unfold textOption behindName Options.encode
  rw [List.nil_append, List.append_assoc, List.flatMap_append, List.flatMap_singleton, hoption]
  rfl

def Host.named (name : List Char) : Host := ⟨none, some ⟨String.ofList name, true⟩⟩

theorem Host.systemName_named {name : List Char} (h : ∀ c ∈ name, Text.isBlank c = false) :
    (Host.named name).systemName = .ok (String.ofList name) := by
  have htrim : Text.trim name = name := by
    have hkept : ∀ cs : List Char, (∀ c ∈ cs, Text.isBlank c = false) → cs.dropWhile Text.isBlank = cs := by
      intro cs hcs
      cases cs with
      | nil => rfl
      | cons c cs => rw [List.dropWhile_cons, hcs c List.mem_cons_self, if_neg Bool.false_ne_true]
    unfold Text.trim Text.dropEndWhile
    rw [hkept name h, hkept name.reverse fun c hc => h c (List.mem_reverse.mp hc), List.reverse_reverse]
  unfold systemName named
  dsimp only
  rw [if_pos rfl, String.toList_ofList, htrim]

theorem seed_of_new (host : Host) : (Merger.ofCount host 2).seed none =
    (SectionHeader.ofHost host applicationName).encode .littleEndian :=
  List.append_nil _

def wordyName : List Char := List.replicate 65536 'a'

theorem encode_wordyName : Utf8.encode wordyName = List.replicate 65536 0x61 := by
  unfold Utf8.encode wordyName
  rw [List.flatMap_replicate, show Utf8.encodeChar 'a' = [0x61] by decide, List.flatten_replicate_singleton]

theorem decode_wordyName :
    Options.decode .littleEndian ((SectionHeader.ofHost (.named wordyName) applicationName).options.encode .littleEndian)
      = .error .runsPast := by
  have hrest : (behindName.encode .littleEndian).length = 32 := by decide
  have hname : (Host.named wordyName).systemName = .ok (String.ofList wordyName) := by
    refine Host.systemName_named fun c hc => ?_
    rw [List.eq_of_mem_replicate hc]
    decide
  have hbytes : Utf8.encode (String.ofList wordyName).toList = List.replicate 65536 0x61 := by
    rw [String.toList_ofList, encode_wordyName]
  -- two options of the letters take 24932 bytes behind their heads, the third has no room for that
  have hshort : 15660 + (behindName.encode .littleEndian).length < 24929 := by omega
  have hthird := decode_letters_short 15660 hshort
  have hsecond := decode_letters_long (n := 40596) (by decide) hthird
  have hfirst := decode_letters_long (n := 65532) (by decide) hsecond
  rw [options_of_wrapped rfl hname (by rw [hbytes, List.length_replicate]), hbytes, decode_wrapped, hfirst]
  rfl

/-- The largest record a reader takes is written too long to be read, and the header of a host whose
    name has 65536 letters cannot be read. -/
theorem record_outgrows_block :
    (∃ bytes, (Stream.ofReader (Reader.ofBytes (captureOf (List.replicate Block.maxSize 0)).encode)).accepted
        = [captureHeader, captureRecord (List.replicate Block.maxSize 0)] ∧
      ((Merger.ofCount ⟨none, none⟩ 2).after [(0, captureHeader)]).gives 0
        (captureRecord (List.replicate Block.maxSize 0)) = some bytes ∧
      Block.read (some .littleEndian) bytes = corrupt (.blockLength bytes.length)) ∧
    (Merger.ofCount (.named wordyName) 2).interfaceCount = 0 ∧
      ∀ header, (Stream.ofReader (Reader.ofBytes ((Merger.ofCount (.named wordyName) 2).seed none))).run.map (·.1)
        ≠ [.ok (some header), .ok none] := by
  have hdata : (List.replicate Block.maxSize (0 : UInt8)).length = Block.maxSize := List.length_replicate
  refine ⟨?_, rfl, ?_⟩
  · have hle : (List.replicate Block.maxSize (0 : UInt8)).length ≤ Block.maxSize := Nat.le_of_eq hdata
    have hlong : Block.maxSize < 32 + paddedLength (List.replicate Block.maxSize (0 : UInt8)).length := by
      rw [hdata]
      decide
    obtain ⟨bytes, hgives, hrefused⟩ := refused_captureRecord hle hlong ⟨none, none⟩
    exact ⟨bytes, accepted_captureOf hle, hgives, hrefused⟩
  · intro header
    refine Stream.run_ne_of_malformed (SectionHeader.magic_ofHost _) decode_wordyName ?_ header
    rw [seed_of_new]
    exact Reader.ofBytes_delivers _

end CaptureRing
