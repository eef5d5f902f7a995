/-
  CaptureRing.Proofs.Legibility — what was cut from a stream can be cut again.

  A block keeps its bytes, so its bytes are read as the same block wherever the byte order
  is that of its section. Of the blocks of a stream this is so after the blocks before them;
  a section header is read anywhere. So any blocks taken from a stream are a stream of their
  own, if they start with a header and no other header is left out between them.

  Proved:
  - `accepted_legible`: the blocks of a stream are what their own bytes are read as, in turn;
  - `run_contextOf`: a section header and the interface descriptions behind it, or the header
    of a classic capture, are a stream of just these blocks.
-/

import CaptureRing.Proofs.Acceptance
import CaptureRing.Proofs.Context
import CaptureRing.Proofs.Rereading

namespace CaptureRing

/-! ## One block -/

namespace Block

/-- What follows a block makes no difference to it. -/
theorem read_append {current : Option ByteOrder} {raw : Bytes} {o : ByteOrder}
    (h : frameHeader current raw = .ok (o, raw.length)) (rest : Bytes) :
    read current (raw ++ rest) = read current raw := by
  have hmin := minSize_le_of_frameHeader h
  unfold minSize at hmin
  have hframe : frameHeader current (raw ++ rest) = .ok (o, raw.length) := by
    rw [frameHeader_append current hmin, h]
  unfold read
  rw [hframe, h]
  show (if (raw ++ rest).length < raw.length then _ else _) = (if raw.length < raw.length then _ else _)
  rw [if_neg (by rw [List.length_append]; omega), if_neg (Nat.lt_irrefl _), wordAt_append o (by omega),
    List.take_left, List.take_length]

theorem read_raw {current : Option ByteOrder} {buf : Bytes} {b : Block} (h : read current buf = .ok b) :
    read current b.raw = .ok b := by
  obtain ⟨length, hframe, hle, hraw, -⟩ := read_eq_ok h
  have hlen : b.raw.length = length := by
    rw [hraw, List.length_take]
    omega
  have hbuf : b.raw ++ buf.drop length = buf := by rw [hraw, List.take_append_drop]
  have hown : frameHeader current b.raw = .ok (b.order, b.raw.length) := by
    rw [hlen, hraw, frameHeader_take current (minSize_le_of_frameHeader hframe) hle, hframe]
  rw [← read_append hown (buf.drop length), hbuf, h]

theorem minSize_le_of_read {current : Option ByteOrder} {buf : Bytes} {b : Block} (h : read current buf = .ok b) :
    minSize ≤ b.raw.length := by
  obtain ⟨o, hframe⟩ := Stream.frameHeader_of_read (read_raw h) rfl
  exact minSize_le_of_frameHeader hframe

theorem readRecord_raw {f : PcapFormat} {buf : Bytes} {b : Block} (h : readRecord f buf = .ok b) :
    readRecord f b.raw = .ok b := by
  obtain ⟨length, r, hl, hle, hr, rfl⟩ := readRecord_eq_ok h
  have hmin := headerSize_le_of_recordLength hl
  dsimp only
  have hlen : (buf.take length).length = length := by
    rw [List.length_take]
    omega
  have hown : recordLength f.order (buf.take length) = .ok length := by
    rw [recordLength_take f.order hmin hle, hl]
  unfold readRecord
  rw [hown, ok_bind, if_neg (by omega), List.take_of_length_le (Nat.le_of_eq hlen)]
  dsimp only
  rw [hr]
  rfl

theorem readFileHeader_raw {buf : Bytes} {b : Block} (h : readFileHeader buf = .ok b) :
    readFileHeader b.raw = .ok b ∧ b.raw.length = FileHeader.size := by
  have hraw := raw_of_readFileHeader h
  obtain ⟨_, _, hle, -⟩ := readFileHeader_eq_ok h
  have hlen : b.raw.length = FileHeader.size := by
    rw [hraw, List.length_take]
    omega
  refine ⟨?_, hlen⟩
  unfold readFileHeader at h ⊢
  rw [if_neg (by omega)] at h ⊢
  rw [hraw, List.take_take, List.take_take]
  exact h

theorem wordAt_of_contentOf {o : ByteOrder} {raw : Bytes} {header : SectionHeader}
    (h : contentOf o raw = .ok (.sectionHeader header)) : wordAt o 0 raw = .ok BlockKind.sectionHeader.number := by
  cases contentOf_cases h with
  | sectionHeader hword _ => exact hword

/-- A section header chooses its own order, so it is read behind anything. -/
theorem read_sectionHeader_anywhere {current : Option ByteOrder} {raw : Bytes} {b : Block} {header : SectionHeader}
    (h : read current raw = .ok b) (hraw : b.raw = raw) (hc : b.content = .sectionHeader header)
    (other : Option ByteOrder) : read other raw = .ok b := by
  have hcontent := contentOf_of_read h
  rw [hc, hraw] at hcontent
  have hword := wordAt_sectionHeader (wordAt_of_contentOf hcontent) .littleEndian
  have horder : orderOf other raw = orderOf current raw := by
    unfold orderOf
    rw [hword]
    rfl
  unfold read frameHeader at h ⊢
  rw [horder]
  exact h

/-- The blocks of a section hold no header of a classic capture. -/
theorem sectionHeader_of_read {current : Option ByteOrder} {buf : Bytes} {b : Block} (h : read current buf = .ok b)
    (hs : b.startsSection = true) : ∃ header, b.content = .sectionHeader header := by
  have hc := contentOf_cases (contentOf_of_read h)
  unfold startsSection at hs
  cases hcontent : b.content with
  | sectionHeader header => exact ⟨header, rfl⟩
  | fileHeader header =>
    rw [hcontent] at hc
    cases hc
  | interface i => rw [hcontent] at hs; cases hs
  | packet format p => rw [hcontent] at hs; cases hs
  | other kind => rw [hcontent] at hs; cases hs

end Block

/-- A word that is read is written as it stood. -/
theorem take_of_wordAt {o : ByteOrder} {raw : Bytes} {v : UInt32} (h : wordAt o 0 raw = .ok v) :
    raw.take 4 = o.put32 v := by
  unfold wordAt slice? at h
  rw [if_pos (Nat.zero_le _)] at h
  split at h
  · rename_i w hw
    obtain ⟨⟨front, rest⟩, hsplit, rfl⟩ := Option.map_eq_some_iff.mp hw
    obtain ⟨hraw, hlen⟩ := split?_eq_some_iff.mp hsplit
    rw [List.drop_zero] at hraw
    have hlt := o.get_lt front
    have hput := o.put_get front
    rw [hlen] at hlt hput
    cases h
    rw [hraw, List.take_left' hlen, ByteOrder.put32, UInt32.toNat_ofNat']
    show front = o.put 4 (o.get front % 2 ^ 32)
    rw [Nat.mod_eq_of_lt (show o.get front < 2 ^ 32 from hlt)]
    exact hput.symm
  · cases h

namespace Stream

/-! ## The blocks of a stream -/

/-- A block that opens a stream of this format, in which the order behind it is this one. -/
inductive Opens : StreamFormat → Block → Option ByteOrder → Prop
  | sectioned {b : Block} {header : SectionHeader} : b.content = .sectionHeader header →
      Block.read none b.raw = .ok b → Opens .sectioned b (some b.order)
  | classic {f : PcapFormat} {b : Block} : Block.readFileHeader b.raw = .ok b →
      PcapFormat.ofMagic? (b.raw.take 4) = some f → Opens (.classic f) b (some f.order)

theorem Opens.startsSection {format : StreamFormat} {b : Block} {order : Option ByteOrder} (h : Opens format b order) :
    b.startsSection = true := by
  cases h with
  | sectioned hc _ =>
    unfold Block.startsSection
    rw [hc]
  | classic hread _ => exact Block.startsSection_of_readFileHeader hread

theorem orderAfter_of_sectionHeader {b : Block} {header : SectionHeader} (hc : b.content = .sectionHeader header)
    (order : Option ByteOrder) : orderAfter order b = some b.order := by
  unfold orderAfter
  rw [hc]

theorem orderAfter_of_not_startsSection {b : Block} (h : b.startsSection = false) (order : Option ByteOrder) :
    orderAfter order b = order := by
  unfold orderAfter
  unfold Block.startsSection at h
  split
  · rename_i hc
    rw [hc] at h
    cases h
  · rfl

end Stream

namespace Yields

variable {s : Stream}

theorem reread_nextSectioned {buf : Bytes} : Yields s (Stream.nextSectioned buf) fun b s' =>
    s'.order = Stream.orderAfter s.order b ∧ ∃ more, Block.read s.order (buf ++ more) = .ok b := by
  unfold Stream.nextSectioned
  refine bind (extend fun front _ => bind (get ?_))
  refine bind (lift fun frame _ => ?_)
  refine bind (extend fun back _ => bind (lift fun b hread => ?_))
  rw [List.append_assoc] at hread
  split
  · rename_i hc
    exact bind (modify (pure ⟨(Stream.orderAfter_of_sectionHeader hc _).symm, _, hread⟩))
  · rename_i hc
    refine pure ⟨?_, _, hread⟩
    unfold Stream.orderAfter
    split
    · rename_i header he
      exact absurd he (hc header)
    · rfl

theorem reread_nextRecord {f : PcapFormat} : Yields s (Stream.nextRecord f) fun o s' =>
    ∀ b, o = some b → s'.order = s.order ∧ ∃ whole, Block.readRecord f whole = .ok b := by
  unfold Stream.nextRecord
  refine bind (head (fun _ => pure nofun) fun _ _ _ => ?_)
  dsimp only
  refine bind (lift fun _ _ => bind (extend fun _ _ => bind (lift fun b hread => pure fun b' hb => ?_)))
  cases hb
  exact ⟨rfl, _, hread⟩

/-- A block is what its own bytes are read as, in the order that is left for it. -/
theorem reread (format : StreamFormat) : Yields s (Stream.pull (some format)) fun o s' =>
    ∀ b, o = some b → s'.order = Stream.orderAfter s.order b ∧ Stream.Reread format s.order b := by
  cases format with
  | classic f =>
    intro o s' hrun b hb
    obtain ⟨horder, whole, hread⟩ := reread_nextRecord o s' hrun b hb
    have hraw := Block.readRecord_raw hread
    exact ⟨horder.trans (Stream.orderAfter_record hraw s.order).symm, hraw⟩
  | sectioned =>
    unfold Stream.pull
    refine bind (head (fun _ => pure nofun) fun _ _ _ => map fun b s' hrun b' he => ?_)
    cases he
    obtain ⟨horder, more, hread⟩ := reread_nextSectioned b s' hrun
    exact ⟨horder, Block.read_raw hread⟩

theorem opens (hs : s.order = none) : Yields s Stream.first fun o s' =>
    ∀ b, o = some b → ∃ format, s'.format = some format ∧ Stream.Opens format b s'.order := by
  unfold Stream.first
  refine bind (head (fun _ => pure nofun) fun magic _ hlen => ?_)
  dsimp only
  refine bind (lift fun format hformat => bind (modify ?_))
  cases format with
  | sectioned =>
    refine map fun b s' hrun b' he => ?_
    cases he
    obtain ⟨hkept, -⟩ := nextSectioned _ s' hrun
    obtain ⟨horder, more, hread⟩ := reread_nextSectioned _ s' hrun
    dsimp only at horder hread
    rw [hs] at horder hread
    have hword := wordAt_of_formatOf hlen hformat
    have hfront : b.raw.take 4 = magic := by
      have hown := Block.raw_read hread
      have hmin := Block.minSize_le_of_read hread
      unfold Block.minSize at hmin
      rw [hown, List.take_take, Nat.min_eq_left (by omega), List.take_left' hlen]
    have hown : wordAt .littleEndian 0 b.raw = .ok BlockKind.sectionHeader.number := by
      rw [← List.take_append_drop 4 b.raw, hfront, wordAt_append _ (by omega), hword]
    obtain ⟨header, hc⟩ := Block.sectionHeader_of_read hread (Block.startsSection_of_read hread hown)
    rw [horder, Stream.orderAfter_of_sectionHeader hc]
    exact ⟨.sectioned, hkept, .sectioned hc (Block.read_raw hread)⟩
  | classic f =>
    have hmagic : PcapFormat.ofMagic? magic = some f := by
      unfold Stream.formatOf at hformat
      split at hformat
      · rename_i g hg
        cases hformat
        exact hg
      · dsimp only at hformat
        split at hformat <;> cases hformat
    dsimp only
    refine bind (extend fun more _ => bind (lift fun b hread => bind (modify (pure fun b' he => ?_))))
    cases he
    obtain ⟨hown, -⟩ := Block.readFileHeader_raw hread
    refine ⟨.classic f, rfl, .classic hown ?_⟩
    have hfront : b.raw.take 4 = magic := by
      rw [Block.raw_of_readFileHeader hread, List.take_take]
      exact List.take_left' hlen
    rw [hfront]
    exact hmagic

end Yields

namespace Stream

theorem legible_pulls {format : StreamFormat} (n : Nat) {s : Stream} (hf : s.finished = false)
    (hformat : s.format = some format) : Legible format s.order (blocksOf (pulls n s)) := by
  induction n generalizing s with
  | zero => exact .nil
  | succ n ih =>
    cases hb : isBlock s.next.1 with
    | false =>
      rw [blocksOf_pulls_of_end hb]
      exact .nil
    | true =>
      obtain ⟨b, hblock⟩ := exists_of_isBlock hb
      obtain ⟨s', hrun, hnext⟩ := next_of_block hf hblock
      rw [hformat] at hrun
      obtain ⟨hkept, -⟩ := Yields.pull format _ _ hrun
      obtain ⟨horder, hreread⟩ := Yields.reread format _ _ hrun b rfl
      rw [blocksOf_pulls_of_block hblock]
      refine .cons hreread ?_
      have hrest := ih (s := s.next.2) (by rw [hnext]) (by rw [hnext]; exact hkept.trans hformat)
      rw [hnext] at hrest ⊢
      rw [← horder]
      exact hrest

/-- The blocks of a stream, unless there are none: the first opens it, and each after that is
    what its own bytes are read as. -/
theorem accepted_legible (r : Reader) : (ofReader r).accepted = [] ∨
    ∃ format first order rest, (ofReader r).accepted = first :: rest ∧ Opens format first order ∧
      Legible format order rest := by
  unfold accepted run
  cases hb : isBlock (ofReader r).next.1 with
  | false => exact Or.inl (blocksOf_pulls_of_end hb)
  | true =>
    obtain ⟨b, hblock⟩ := exists_of_isBlock hb
    obtain ⟨s', hrun, hnext⟩ := next_of_block rfl hblock
    obtain ⟨format, hformat, hopens⟩ := Yields.opens rfl _ _ hrun b rfl
    rw [blocksOf_pulls_of_block hblock]
    refine Or.inr ⟨format, b, s'.order, _, rfl, hopens, ?_⟩
    have hrest := legible_pulls (ofReader r).reader.remaining (s := (ofReader r).next.2) (by rw [hnext])
      (by rw [hnext]; exact hformat)
    rw [hnext] at hrest ⊢
    exact hrest

/-! ## A section and its interfaces, taken out of a stream -/

variable {format : StreamFormat} {order : Option ByteOrder} {b first : Block} {bs rest : List Block}

theorem Legible.snoc (h : Legible format order bs) (hb : Reread format (bs.foldl orderAfter order) b) :
    Legible format order (bs ++ [b]) := by
  induction h with
  | nil => exact .cons hb .nil
  | cons hc _ ih => exact .cons hc (ih hb)

theorem Legible.of_snoc (h : Legible format order (bs ++ [b])) :
    Legible format order bs ∧ Reread format (bs.foldl orderAfter order) b := by
  induction bs generalizing order with
  | nil =>
    cases h with
    | cons hb _ => exact ⟨.nil, hb⟩
  | cons c bs ih =>
    cases h with
    | cons hc htail =>
      obtain ⟨hbs, hb⟩ := ih htail
      exact ⟨.cons hc hbs, hb⟩

theorem Legible.of_prefix {cs : List Block} (h : Legible format order cs) (hp : bs <+: cs) :
    Legible format order bs := by
  induction bs generalizing order cs with
  | nil => exact .nil
  | cons b bs ih =>
    obtain ⟨tail, rfl⟩ := hp
    cases h with
    | cons hb htail => exact .cons hb (ih htail (List.prefix_append bs tail))

/-- A header in the middle of a stream opens what follows it as well. -/
theorem Reread.opens (h : Reread format order b) (hs : b.startsSection = true) :
    Opens format b (orderAfter order b) := by
  cases format with
  | sectioned =>
    obtain ⟨header, hc⟩ := Block.sectionHeader_of_read h hs
    rw [orderAfter_of_sectionHeader hc]
    exact .sectioned hc (Block.read_sectionHeader_anywhere h rfl hc none)
  | classic f =>
    obtain ⟨_, _, -, -, -, hb⟩ := Block.readRecord_eq_ok h
    rw [hb] at hs
    cases hs

theorem contextOf_snoc (bs : List Block) (b : Block) : contextOf (bs ++ [b]) =
    if b.startsSection then [b] else contextOf bs ++ if b.isInterface then [b] else [] := by
  unfold contextOf
  rw [governing?_snoc, described_snoc]
  split
  · rfl
  · rw [List.append_assoc]

/-- The context of these blocks opens a stream as the first of them did, and leaves the order
    in which the next one is read. -/
theorem Opens.contextOf (h : Opens format first order) (hrest : Legible format order rest) :
    ∃ header order' interfaces, CaptureRing.contextOf (first :: rest) = header :: interfaces ∧
      Opens format header order' ∧ Legible format order' interfaces ∧
      interfaces.foldl orderAfter order' = rest.foldl orderAfter order := by
  induction rest using List.reverseRecOn with
  | nil =>
    have hone := contextOf_snoc [] first
    rw [if_pos h.startsSection, List.nil_append] at hone
    exact ⟨first, order, [], hone, h, .nil, rfl⟩
  | append_singleton rest b ih =>
    obtain ⟨hbefore, hb⟩ := hrest.of_snoc
    obtain ⟨header, order', interfaces, hcontext, hopens, hlegible, horder⟩ := ih hbefore
    rw [← List.cons_append, contextOf_snoc, hcontext, List.foldl_append]
    cases hs : b.startsSection with
    | true => exact ⟨b, _, [], rfl, hb.opens hs, .nil, rfl⟩
    | false =>
      rw [if_neg Bool.false_ne_true]
      cases hi : b.isInterface with
      | true =>
        rw [if_pos rfl, List.cons_append]
        refine ⟨header, order', interfaces ++ [b], rfl, hopens, hlegible.snoc (by rw [horder]; exact hb), ?_⟩
        rw [List.foldl_append, horder]
      | false =>
        rw [if_neg Bool.false_ne_true, List.append_nil]
        refine ⟨header, order', interfaces, rfl, hopens, hlegible, ?_⟩
        rw [horder]
        exact (orderAfter_of_not_startsSection hs _).symm

/-- The first four bytes of a block that opens a stream tell the format. -/
theorem Opens.formatOf (h : Opens format b order) : formatOf (b.raw.take 4) = .ok format := by
  cases h with
  | sectioned hc hread =>
    have hcontent := Block.contentOf_of_read hread
    rw [hc] at hcontent
    rw [take_of_wordAt (Block.wordAt_of_contentOf hcontent)]
    exact formatOf_sectionHeader _
  | classic _ hmagic =>
    unfold Stream.formatOf
    rw [hmagic]

theorem Opens.four_le_length (h : Opens format b order) : 4 ≤ b.raw.length := by
  cases h with
  | sectioned _ hread =>
    have hmin := Block.minSize_le_of_read hread
    unfold Block.minSize at hmin
    omega
  | classic hread _ =>
    rw [(Block.readFileHeader_raw hread).2]
    decide

theorem Opens.run_first {s : Stream} {left : Bytes} (h : Opens format b order) (hs : s.reader.Delivers (b.raw ++ left))
    (horder : s.order = none) :
    ∃ r, Stream.first.run.run s = (.ok (some b), { s with reader := r, format := some format, order }) ∧
      r.Delivers left := by
  have hformat := h.formatOf
  have hmagic : (b.raw.take 4).length = 4 := by
    rw [List.length_take]
    exact Nat.min_eq_left h.four_le_length
  have hraw := (List.take_append_drop 4 b.raw).symm
  cases h with
  | sectioned hc hread =>
    obtain ⟨r, hrun, hr⟩ := run_first_sectioned hs hraw hmagic hformat (horder ▸ hread)
    rw [orderAfter_of_sectionHeader hc] at hrun
    exact ⟨r, hrun, hr⟩
  | classic hread _ =>
    obtain ⟨-, hsize⟩ := Block.readFileHeader_raw hread
    exact run_first_classic hs hraw hmagic hsize hformat hread

/-- A stream of a block that opens it and of legible blocks behind is read as these blocks. -/
theorem Opens.run (h : Opens format first order) (hrest : Legible format order rest) {r : Reader}
    (hr : r.Delivers ((first :: rest).flatMap (·.raw))) :
    (ofReader r).run.map (·.1) = (first :: rest).map (fun b => .ok (some b)) ++ [.ok none] := by
  have hs : (ofReader r).reader.Delivers (first.raw ++ rest.flatMap (·.raw)) := by
    rw [← List.flatMap_cons]
    exact hr
  obtain ⟨r', hrun, hr'⟩ := h.run_first hs rfl
  have := h.four_le_length
  exact run_of_first hr (by omega) hrun hr' hrest

/-- The context of the first blocks of a stream is a stream of its own. -/
theorem run_contextOf {source r : Reader} (hbs : bs <+: (ofReader source).accepted)
    (hr : r.Delivers ((CaptureRing.contextOf bs).flatMap (·.raw))) :
    (ofReader r).run.map (·.1) = (CaptureRing.contextOf bs).map (fun b => .ok (some b)) ++ [.ok none] := by
  cases bs with
  | nil => exact run_of_empty hr
  | cons b bs =>
    rcases accepted_legible source with hnone | ⟨format, first, order, rest, haccepted, hopens, hlegible⟩
    · rw [hnone] at hbs
      exact absurd (List.prefix_nil.mp hbs) (List.cons_ne_nil _ _)
    · rw [haccepted] at hbs
      obtain ⟨rfl, hprefix⟩ := List.cons_prefix_cons.mp hbs
      obtain ⟨header, order', interfaces, hcontext, hheader, hinterfaces, -⟩ :=
        hopens.contextOf (hlegible.of_prefix hprefix)
      rw [hcontext] at hr ⊢
      exact hheader.run hinterfaces hr

theorem accepted_of_run {r : Reader} (h : (ofReader r).run.map (·.1) = bs.map (fun b => .ok (some b)) ++ [.ok none]) :
    (ofReader r).accepted = bs := by
  have hmap : (ofReader r).accepted = ((ofReader r).run.map (·.1)).filterMap (·.toOption.join) := by
    unfold accepted blocksOf
    rw [List.filterMap_map]
    rfl
  rw [hmap, h, List.filterMap_append, List.filterMap_map]
  show bs.filterMap some ++ [] = bs
  rw [List.filterMap_some, List.append_nil]

/-- The blocks of a stream that is read to its end are all of its bytes. -/
theorem raw_of_run {r : Reader} {bytes : Bytes} (hr : r.Delivers bytes)
    (h : (ofReader r).run.map (·.1) = bs.map (fun b => .ok (some b)) ++ [.ok none]) : bs.flatMap (·.raw) = bytes := by
  have hok : ∀ p ∈ (ofReader r).run, ∃ o, p.1 = .ok o := by
    intro p hp
    have hmem : p.1 ∈ (ofReader r).run.map (·.1) := List.mem_map_of_mem hp
    rw [h] at hmem
    rcases List.mem_append.mp hmem with hb | hend
    · obtain ⟨b, -, hb⟩ := List.mem_map.mp hb
      exact ⟨_, hb.symm⟩
    · exact ⟨_, List.mem_singleton.mp hend⟩
  have hraw := raw_accepted_of_clean hr hok
  rw [accepted_of_run h] at hraw
  exact hraw

end Stream

end CaptureRing
