/-
  CaptureRing.Proofs.Rotation — how much goes into an output file.

  A page is full with the first look at its triggers that finds one met, and there is a look after
  every packet. So a limit on packets is never exceeded, and no page is left before it has reached
  it. A limit on bytes holds at every look, and only there. Blocks that are no packets are written
  without one: a file that has reached its limit with such a block takes all that follow, up to and
  including the next packet.

  Proved, for a ledger over any world:
  - `Grown.packets_eq`: a full page has as many packets as its limit, any other has fewer;
  - `packet_rotation_partitions`: so rotation by packets alone cuts the packets into equal parts;
  - `Grown.bytes_lt`: at a look with blocks still to come the limit on bytes was not reached;
  - `bytes_checked_at_looks`: so it is in every file of a capture;
  - `bytes_overrun`: between two looks the limit does not count.
-/

import CaptureRing.Proofs.Paging

namespace CaptureRing

variable {σ : Type} {triggers : List Trigger} {p : Page} {full : Bool}

/-! ## A limit on packets -/

/-- With a limit on packets alone, a full page has reached it exactly and any other has not. -/
theorem Grown.packets_eq {n : UInt64} (h : Grown [.packets n] p full) (hn : 0 < n.toNat) :
    if full then p.packets = n.toNat else p.packets < n.toNat := by
  have hunmet : ∀ q : Page, Looked [.packets n] q false → q.packets < n.toNat := by
    intro q hq
    have hmet := hq.unmet rfl _ (List.mem_singleton_self _)
    exact Nat.lt_of_not_le (of_decide_eq_false hmet)
  have hmet : ∀ q : Page, Looked [.packets n] q true → n.toNat ≤ q.packets := by
    intro q hq
    obtain ⟨t, ht, hfound⟩ := hq.found rfl
    rw [List.mem_singleton.mp ht] at hfound
    rcases hfound with hfound | ⟨d, hd⟩
    · exact of_decide_eq_true hfound
    · cases hd
  induction h with
  | opened path seed => exact hn
  | block data _ ih =>
    simp only [Bool.false_eq_true, if_false, Page.packets_wrote, Nat.add_zero] at ih ⊢
    exact ih
  | @packet q met data _ hlooked ih =>
    simp only [Bool.false_eq_true, if_false] at ih
    cases met with
    | false => exact hunmet _ hlooked
    | true =>
      have hreached := hmet _ hlooked
      simp only [if_true, Page.packets_wrote] at hreached ⊢
      omega
  | @tick q met _ hlooked ih =>
    simp only [Bool.false_eq_true, if_false] at ih
    cases met with
    | false => simpa using ih
    | true => exact absurd (hmet _ hlooked) (Nat.not_le_of_lt ih)
  | rest _ ih => simpa using ih

/-! ## The blocks behind the deeds -/

namespace Deed

/-- The blocks of the pages are those that were written, one after the other. -/
theorem flatMap_blocks (path : String) (seed : Bytes) (log : List Deed) :
    (pages (.opened path seed :: log)).flatMap Page.blocks = log.filterMap block? := by
  suffices h : (∃ before last, pages (.opened path seed :: log) = before ++ [last]) ∧
      (pages (.opened path seed :: log)).flatMap Page.blocks = log.filterMap block? from h.2
  induction log using List.reverseRecOn with
  | nil => exact ⟨⟨[], _, rfl⟩, rfl⟩
  | append_singleton log d ih =>
    obtain ⟨⟨before, last, hpages⟩, hblocks⟩ := ih
    rw [← List.cons_append, pages_snoc, List.filterMap_append, ← hblocks, hpages]
    cases d with
    | opened path' seed' => exact ⟨⟨_, _, rfl⟩, by simp [page, block?, Page.blocks]⟩
    | wrote data packet met =>
      have hpage : page (before ++ [last]) (.wrote data packet met) = before ++ [last.add (.wrote data packet met)] :=
        List.modifyLast_concat ..
      rw [hpage]
      exact ⟨⟨_, _, rfl⟩, by simp [Page.blocks_add, block?]⟩
    | waited met =>
      have hpage : page (before ++ [last]) (.waited met) = before ++ [last.add (.waited met)] :=
        List.modifyLast_concat ..
      rw [hpage]
      exact ⟨⟨_, _, rfl⟩, by simp [Page.blocks_add, block?]⟩

end Deed

theorem Totals.packets_eq (log : List Deed) : (of log).packets = (log.filterMap Deed.block?).countP (·.2) := by
  induction log using List.reverseRecOn with
  | nil => rfl
  | append_singleton log d ih =>
    rw [of_snoc, List.filterMap_append, List.countP_append, ← ih]
    cases d <;> simp [add, Deed.block?]

@[simp] theorem Course.blocks_put [World σ] (data : Bytes) (packet : Bool) (s : Course (Ledger σ)) :
    (s.put data packet).log.filterMap Deed.block? = s.log.filterMap Deed.block? ++ [(data, packet)] :=
  List.filterMap_append

@[simp] theorem Course.blocks_openNext [World σ] (seed : Bytes) (s : Course (Ledger σ)) :
    (s.openNext seed).log.filterMap Deed.block? = s.log.filterMap Deed.block? :=
  List.filterMap_append.trans (List.append_nil _)

structure Told (m : Merger) (order : List (Nat × Block)) (s : Course (Ledger σ)) : Prop where
  merger : s.writer.merger = m.after order
  blocks : s.log.filterMap Deed.block? = (given m order).map fun e => (e.bytes m, e.block.isPacket)

variable [World σ] {m : Merger} {order : List (Nat × Block)}

theorem Told.taken {s s' : Course (Ledger σ)} {e : Nat × Block} (h : Told m order s) (hd : s.writer.isDone = false)
    (ht : Course.Taken e s s') : Told m (order ++ [e]) s' := by
  obtain ⟨hmerger, hblocks⟩ := h
  obtain ⟨source, b⟩ := e
  have hafter : (s.merged (source, b)).writer.merger = m.after (order ++ [(source, b)]) := by
    rw [Merger.after_snoc, ← hmerger]
    rfl
  -- what is written for the block is what the merger gives for it
  have hgiven : ∀ data, s.writer.merger.gives source b = some data →
      (given m (order ++ [(source, b)])).map (fun e => (e.bytes m, e.block.isPacket))
        = s.log.filterMap Deed.block? ++ [(data, b.isPacket)] := by
    intro data hg
    rw [hmerger] at hg
    simp [given_snoc, hg, hblocks, Written.bytes]
  cases ht with
  | ended hdone =>
    rw [hd] at hdone
    cases hdone
  | skipped _ _ hg =>
    refine ⟨hafter, ?_⟩
    rw [hmerger] at hg
    rw [given_snoc, hg]
    show s.log.filterMap Deed.block? = _
    simpa using hblocks
  | put _ hg _ =>
    refine ⟨(Course.merger_put ..).trans hafter, ?_⟩
    rw [hgiven _ hg, Course.blocks_put]
    rfl
  | turned _ hg _ _ =>
    refine ⟨?_, ?_⟩
    · rw [Course.merger_put, Course.merger_openNext]
      exact hafter
    · rw [hgiven _ hg, Course.blocks_put, Course.blocks_openNext]
      rfl

/-- Where nothing ends a capture, what it wrote is what its merger gave for all it took. -/
theorem Course.Along.told {a s : Course (Ledger σ)} (h : Along a order s) (ha : Told m [] a)
    (hconds : Writer.Unstopped a.writer.tally) (he : s.writer.outputError = none) : Told m order s := by
  induction h with
  | start => exact ha
  | @block _ s e hs ih =>
    have hbefore := outputError_of_take he
    have hopen := hs.released.unstopped hconds
    exact (ih hbefore).taken (Writer.isDone_eq_false hbefore hopen.2) (take_taken he)
  | clock _ ih => exact ⟨(ih he).merger, (ih he).blocks⟩
  | aside live preamble sourceErrors _ ih => exact ⟨(ih he).merger, (ih he).blocks⟩
  | @look _ s _ ih =>
    refine ⟨(Writer.lookOver_keeps s.writer s.world).2.1.trans (ih he).merger, ?_⟩
    rw [← (ih he).blocks]
    unfold Course.look
    rw [List.filterMap_append]
    split
    · exact List.append_nil _
    · exact List.append_nil _

/-! ## Rotation by packets -/

def Page.packetBlocks (p : Page) : List Bytes := (p.blocks.filter (·.2)).map (·.1)

open Writer

/-- With a limit on packets alone, all files but the last have exactly that many packets, and the
    last at most. One after the other the files hold all blocks that the merger gave out, in order,
    so their packets are all packets written. -/
theorem packet_rotation_partitions {c : Config} {h : Host} {w : σ} {x : Writer} {l : Ledger σ}
    (hs : startCapture c h (Ledger.blank w) = (.ok x, l)) {n : UInt64} (hn : 0 < n)
    (ht : c.rotation.triggers = [.packets n]) (ha : c.autostop = []) {is : List Input}
    (hw : Within c.sources.length is)
    (he : ((run is x l).1.conclude (run is x l).2).1.outputError = none) :
    let out := (run is x l).1.conclude (run is x l).2
    let m := Merger.ofCount h c.sources.length
    let order := x.order is l
    (∀ source, ofSource source order <+: sent source is) ∧
      ∃ sealed last, Deed.pages (x.history is l) = sealed ++ [last] ∧ out.2.files = (sealed ++ [last]).map Page.file ∧
      ((∀ p ∈ sealed, p.packets = n.toNat) ∧ last.packets ≤ n.toNat) ∧
      (sealed ++ [last]).flatMap Page.blocks = (given m order).map (fun e => (e.bytes m, e.block.isPacket)) ∧
      (sealed ++ [last]).flatMap Page.packetBlocks
        = ((given m order).filter (·.block.isPacket)).map (Written.bytes m) ∧
      out.1.packets = (given m order).countP (·.block.isPacket) := by
  intro out m order
  have hst := startCapture_started hs
  have hpos : 0 < n.toNat := hn
  have halong : Course.Along (Course.begin x l) order (course is x l) := course_along is x l
  have herror : (course is x l).writer.outputError = none := outputError_course he
  have hpaged := halong.paged (ht ▸ startCapture_paged hs) herror
  have htold := halong.told (m := m) ⟨hst.merger, rfl⟩ ⟨hst.conditions.trans ha, hst.fired⟩ herror
  obtain ⟨hfiles, -, sealed, last, full, hpages, hsealed, hlast, -⟩ := hpaged
  -- the first deed opens the first file, so every block stands in a page
  obtain ⟨deeds, hdeeds⟩ := halong.log
  have hblocks : (sealed ++ [last]).flatMap Page.blocks = (given m order).map (fun e => (e.bytes m, e.block.isPacket)) := by
    rw [← hpages, ← htold.blocks, ← hdeeds]
    exact Deed.flatMap_blocks _ _ deeds
  refine ⟨hst.ofSource_order hw, sealed, last, hpages, ?_, ⟨?_, ?_⟩, hblocks, ?_, ?_⟩
  · rw [← hpages, ← hfiles]
    exact conclude_course_files is x l
  · intro p hp
    exact (hsealed p hp).packets_eq hpos
  · have hcount := hlast.packets_eq hpos
    cases full with
    | true => exact Nat.le_of_eq hcount
    | false => exact Nat.le_of_lt hcount
  · show List.flatMap (fun p : Page => (p.blocks.filter (·.2)).map (·.1)) (sealed ++ [last]) = _
    rw [← List.map_flatMap, ← List.filter_flatMap, hblocks, List.filter_map, List.map_map]
    rfl
  · have hbooked : Booked _ (x.course is l) := course_booked hs (fun c hc => absurd (ha ▸ hc) List.not_mem_nil) herror
    rw [hbooked.accounted.packets, Totals.packets_eq]
    show ((x.course is l).log.filterMap Deed.block?).countP (·.2) = _
    rw [htold.blocks, List.countP_map]
    rfl

theorem within_loneInputs : Within 1 loneInputs := by
  have hsound : ∀ i ∈ loneInputs, i.source?.all (· < 1) = true := by decide +kernel
  intro i hi source hsource
  have hall := hsound i hi
  rw [hsource] at hall
  exact of_decide_eq_true hall

/-- Two packets to a file: of the three packets of `loneStream` the last is alone. -/
theorem packet_rotation_partitions_lone : ∃ x l,
    startCapture { loneConfig with rotation := ⟨[.packets 2], none⟩ } ⟨none, none⟩ (Ledger.blank (Machine.ofDisk .empty))
        = (.ok x, l) ∧
      (Deed.pages (x.history loneInputs l)).map Page.packets = [2, 1] ∧
      ∃ sealed last, ((run loneInputs x l).1.conclude (run loneInputs x l).2).2.files
          = (sealed ++ [last]).map Page.file ∧
        (∀ p ∈ sealed, p.packets = 2) ∧ last.packets ≤ 2 := by
  obtain ⟨x, l, hs, hcounts, hok⟩ : ∃ x l,
      startCapture { loneConfig with rotation := ⟨[.packets 2], none⟩ } ⟨none, none⟩
          (Ledger.blank (Machine.ofDisk .empty)) = (.ok x, l) ∧
        (Deed.pages (x.history loneInputs l)).map Page.packets = [2, 1] ∧
        ((run loneInputs x l).1.conclude (run loneInputs x l).2).1.outputError = none :=
    ⟨_, _, rfl, by decide +kernel, by decide +kernel⟩
  obtain ⟨-, sealed, last, -, hfiles, ⟨hsealed, hlast⟩, -⟩ :=
    packet_rotation_partitions hs (n := 2) (by decide) rfl rfl within_loneInputs hok
  exact ⟨x, l, hs, hcounts, sealed, last, hfiles, hsealed, hlast⟩

/-! ## Rotation by size -/

def Deed.looks : Deed → Bool
  | .wrote _ packet _ => packet
  | .waited _ => true
  | .opened .. => false

/-- At a look at an open page, or at one with blocks still to come, the limit on bytes was not
    reached. -/
theorem Grown.bytes_lt {n : UInt64} (h : Grown triggers p full) (hn : .bytes n ∈ triggers) :
    ∀ before d after, p.deeds = before ++ d :: after → d.looks = true →
      (full = true → after.filterMap Deed.block? ≠ []) → ({ p with deeds := before ++ [d] } : Page).bytes < n.toNat := by
  have hunmet : ∀ q : Page, Looked triggers q false → q.bytes < n.toNat := by
    intro q hq
    exact Nat.lt_of_not_le (of_decide_eq_false (hq.unmet rfl _ hn))
  induction h with
  | opened path seed =>
    intro before d after hsplit
    exact absurd hsplit.symm (List.append_ne_nil_of_right_ne_nil _ (List.cons_ne_nil _ _))
  | block data _ ih =>
    intro before d after hsplit hd _
    rcases snoc_eq_append_cons hsplit with ⟨-, rfl, -⟩ | ⟨after', -, hsplit⟩
    · cases hd
    · exact ih before d after' hsplit hd nofun
  | @packet q met data _ hlooked ih =>
    intro before d after hsplit hd hmore
    rcases snoc_eq_append_cons hsplit with ⟨rfl, rfl, rfl⟩ | ⟨after', -, hsplit⟩
    · cases met with
      | false => exact hunmet _ hlooked
      | true => exact absurd rfl (hmore rfl)
    · exact ih before d after' hsplit hd nofun
  | @tick q met _ hlooked ih =>
    intro before d after hsplit hd hmore
    rcases snoc_eq_append_cons hsplit with ⟨rfl, rfl, rfl⟩ | ⟨after', -, hsplit⟩
    · cases met with
      | false =>
        have hsame : (q.add (.waited false)).bytes = q.bytes := q.bytes_waited false
        show (q.add (.waited false)).bytes < _
        rw [hsame]
        exact hunmet q hlooked
      | true => exact absurd rfl (hmore rfl)
    · exact ih before d after' hsplit hd nofun
  | rest _ ih =>
    intro before d after hsplit hd hmore
    rcases snoc_eq_append_cons hsplit with ⟨rfl, -, -⟩ | ⟨after', rfl, hrest⟩
    · exact absurd rfl (hmore rfl)
    · refine ih before d after' hrest hd fun _ => ?_
      have hblocks := hmore rfl
      rw [List.filterMap_append] at hblocks
      simpa [Deed.block?] using hblocks

/-- With a limit on bytes, whatever other limits there are: wherever the triggers were looked at in
    a file, after a packet or in an idle poll interval, and more blocks came to stand in that file,
    it had not reached the limit. -/
theorem bytes_checked_at_looks {c : Config} {h : Host} {w : σ} {x : Writer} {l : Ledger σ}
    (hs : startCapture c h (Ledger.blank w) = (.ok x, l)) {n : UInt64} (hn : .bytes n ∈ c.rotation.triggers)
    {is : List Input} (he : ((run is x l).1.conclude (run is x l).2).1.outputError = none) :
    ((run is x l).1.conclude (run is x l).2).2.files = (Deed.pages (x.history is l)).map Page.file ∧
      ∀ p ∈ Deed.pages (x.history is l), ∀ before d after, p.deeds = before ++ d :: after → d.looks = true →
        after.filterMap Deed.block? ≠ [] → ({ p with deeds := before ++ [d] } : Page).bytes < n.toNat := by
  have herror : (course is x l).writer.outputError = none := outputError_course he
  obtain ⟨hfiles, -, sealed, last, full, hpages, hsealed, hlast, -⟩ :=
    (course_along is x l).paged (startCapture_paged hs) herror
  refine ⟨?_, fun p hp before d after hsplit hd hmore => ?_⟩
  · rw [conclude_course_files]
    exact hfiles
  · change p ∈ Deed.pages (course is x l).log at hp
    rw [hpages] at hp
    rcases List.mem_append.mp hp with hp | hp
    · exact (hsealed p hp).bytes_lt hn before d after hsplit hd fun _ => hmore
    · rw [List.mem_singleton.mp hp] at hsplit ⊢
      exact hlast.bytes_lt hn before d after hsplit hd fun _ => hmore

/-- A hundred bytes to a file: the second packet of `loneStream` reaches them, and what comes then
    goes to another file. -/
theorem bytes_checked_at_looks_lone : ∃ x l,
    startCapture { loneConfig with rotation := ⟨[.bytes 100], none⟩ } ⟨none, none⟩ (Ledger.blank (Machine.ofDisk .empty))
        = (.ok x, l) ∧
      (Deed.pages (x.history loneInputs l)).map Page.bytes = [120, 80] ∧
      ∀ p ∈ Deed.pages (x.history loneInputs l), ∀ before d after, p.deeds = before ++ d :: after →
        d.looks = true → after.filterMap Deed.block? ≠ [] →
          ({ p with deeds := before ++ [d] } : Page).bytes < 100 := by
  obtain ⟨x, l, hs, hbytes, hok⟩ : ∃ x l,
      startCapture { loneConfig with rotation := ⟨[.bytes 100], none⟩ } ⟨none, none⟩
          (Ledger.blank (Machine.ofDisk .empty)) = (.ok x, l) ∧
        (Deed.pages (x.history loneInputs l)).map Page.bytes = [120, 80] ∧
        ((run loneInputs x l).1.conclude (run loneInputs x l).2).1.outputError = none :=
    ⟨_, _, rfl, by decide +kernel, by decide +kernel⟩
  obtain ⟨-, hall⟩ := bytes_checked_at_looks hs (n := 100) (List.mem_singleton_self _) hok
  exact ⟨x, l, hs, hbytes, hall⟩

/-- A section with an interface, and then two blocks of a kind that is only carried along. -/
def carriedStream : Bytes :=
  (SectionHeader.ofOptions []).encode .littleEndian ++ (Interface.make 1 0 []).encode .littleEndian
    ++ frame .littleEndian 0xBAD [1, 2, 3, 4] ++ frame .littleEndian 0xBAD [1, 2, 3, 4]

def carriedInputs : List Input :=
  (Stream.ofReader (Reader.ofBytes carriedStream)).run.map fun p => inputOf 0 p.1

/-- Between two looks the limit does not count: with fifty bytes to a file, the last block of
    `carriedStream` goes to a file that has sixty-four. -/
theorem bytes_overrun : ∃ x l,
    startCapture { loneConfig with rotation := ⟨[.bytes 50], none⟩ } ⟨none, none⟩ (Ledger.blank (Machine.ofDisk .empty))
        = (.ok x, l) ∧
      ((run carriedInputs x l).1.conclude (run carriedInputs x l).2).1.outputError = none ∧
      ((run carriedInputs x l).1.conclude (run carriedInputs x l).2).2.files
        = (Deed.pages (x.history carriedInputs l)).map Page.file ∧
      ∃ p ∈ Deed.pages (x.history carriedInputs l), p.seed.length < 50 ∧
        (p.deeds.getLast?.bind Deed.block?).isSome = true ∧
        50 ≤ ({ p with deeds := p.deeds.dropLast } : Page).bytes :=
  ⟨_, _, rfl, by decide +kernel, by decide +kernel, by decide +kernel⟩

end CaptureRing
