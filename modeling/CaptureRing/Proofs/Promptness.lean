/-
  CaptureRing.Proofs.Promptness — a file is only opened for a block that is written to it at once.

  When the current file has met a trigger it is left as it is, and nothing is opened yet. The next
  file waits for the next block for which the merger gives something; it is opened for this block,
  with the seed of a merger that has not seen it, and then the block is written. A block that the
  merger gives nothing for never gets as far.

  So the blocks that an input lets go account for all files it opens, and a capture has no file
  behind the one that holds the last block it wrote. That block need not be a packet: a block of
  another kind moves on to the next file as well.

  Proved, for a ledger over any world:
  - `FilledAtOnce.turned`: the one way in which a file is opened;
  - `Along.prompt`: along a course every file opened is filled at once;
  - `no_empty_trailing_file`: so it is step by step, and nothing is opened behind the last block;
  - `trailing_block_opens_file`: a block behind the last packet has a file of its own.
-/

import CaptureRing.Proofs.Paging

namespace CaptureRing

variable {σ : Type} {m : Merger} {order order' : List (Nat × Block)} {deeds : List Deed}

/-! ## Files that are filled at once -/

/-- Each file that was opened among these deeds was opened for a block of the order. It starts with
    the seed of the merger as it was before that block, and what the merger gave for the block was
    written to it right away. -/
def FilledAtOnce (m : Merger) (order : List (Nat × Block)) (deeds : List Deed) : Prop :=
  ∀ done path seed rest, deeds = done ++ .opened path seed :: rest →
    ∃ (before : List (Nat × Block)) (e : Nat × Block) (data : Bytes) (met : Bool) (rest' : List Deed),
      before ++ [e] <+: order ∧ (m.after before).gives e.1 e.2 = some data ∧
        seed = (m.after before).seed (some e.2) ∧ rest = .wrote data e.2.isPacket met :: rest'

namespace FilledAtOnce

theorem nil : FilledAtOnce m order [] := by
  intro done path seed rest hsplit
  exact absurd hsplit.symm (List.append_ne_nil_of_right_ne_nil _ (List.cons_ne_nil _ _))

theorem mono (h : FilledAtOnce m order deeds) (ho : order <+: order') : FilledAtOnce m order' deeds := by
  intro done path seed rest hsplit
  obtain ⟨before, e, data, met, rest', hbefore, hfilled⟩ := h done path seed rest hsplit
  exact ⟨before, e, data, met, rest', hbefore.trans ho, hfilled⟩

theorem snoc (h : FilledAtOnce m order deeds) {d : Deed} (hd : d.isOpening = false) :
    FilledAtOnce m order (deeds ++ [d]) := by
  intro done path seed rest hsplit
  rcases snoc_eq_append_cons hsplit with ⟨-, rfl, -⟩ | ⟨rest₀, rfl, hdeeds⟩
  · cases hd
  · obtain ⟨before, e, data, met, rest', hbefore, hgives, hseed, hwrote⟩ := h done path seed rest₀ hdeeds
    refine ⟨before, e, data, met, rest' ++ [d], hbefore, hgives, hseed, ?_⟩
    rw [hwrote, List.cons_append]

/-- A file is opened, and the block it was opened for is written to it. -/
theorem turned (h : FilledAtOnce m order deeds) {e : Nat × Block} {data : Bytes} (path : String) (met : Bool)
    (hgives : (m.after order).gives e.1 e.2 = some data) :
    FilledAtOnce m (order ++ [e])
      (deeds ++ [.opened path ((m.after order).seed (some e.2))] ++ [.wrote data e.2.isPacket met]) := by
  intro done path' seed rest hsplit
  rcases snoc_eq_append_cons hsplit with ⟨-, hd, -⟩ | ⟨rest₀, rfl, hopened⟩
  · cases hd
  rcases snoc_eq_append_cons hopened with ⟨rfl, hd, -⟩ | ⟨rest₁, rfl, hdeeds⟩
  · obtain ⟨-, rfl⟩ := Deed.opened.inj hd
    exact ⟨order, e, data, met, [], List.prefix_rfl, hgives, rfl, rfl⟩
  · obtain ⟨before, e', data', met', rest', hbefore, hgives', hseed, hwrote⟩ := h done path' seed rest₁ hdeeds
    refine ⟨before, e', data', met',
      rest' ++ [.opened path ((m.after order).seed (some e.2))] ++ [.wrote data e.2.isPacket met],
      hbefore.trans (List.prefix_append _ _), hgives', hseed, ?_⟩
    rw [hwrote]
    rfl

theorem no_opening {done rest : List Deed} (h : FilledAtOnce m order (done ++ rest))
    (hrest : rest.filterMap Deed.block? = []) : ∀ d ∈ rest, d.isOpening = false := by
  intro d hd
  cases d with
  | wrote data packet met => rfl
  | waited met => rfl
  | opened path seed =>
    obtain ⟨front, back, rfl⟩ := List.append_of_mem hd
    obtain ⟨-, e, data, met, back', -, -, -, hback⟩ := h (done ++ front) path seed back (List.append_assoc ..).symm
    -- the block it was opened for was written
    have hnone := List.filterMap_eq_nil_iff.mp hrest (.wrote data e.2.isPacket met) (by simp [hback])
    cases hnone

end FilledAtOnce

/-- Deeds that neither open a file nor write to one leave the files alone. -/
theorem Deed.files_append {rest : List Deed} (log : List Deed) (hopen : ∀ d ∈ rest, d.isOpening = false)
    (hblocks : rest.filterMap Deed.block? = []) : Deed.files (log ++ rest) = Deed.files log := by
  induction rest using List.reverseRecOn with
  | nil => rw [List.append_nil]
  | append_singleton rest d ih =>
    rw [List.filterMap_append, List.append_eq_nil_iff] at hblocks
    rw [← List.append_assoc, Deed.files_snoc, ih (fun d' hd' => hopen d' (List.mem_append_left _ hd')) hblocks.1]
    cases d with
    | opened path seed => exact absurd (hopen _ (List.mem_append_right _ (List.mem_singleton_self _))) nofun
    | wrote data packet met => exact absurd hblocks.2 nofun
    | waited met => rfl

/-! ## Along a course -/

namespace Course

variable {a s s' : Course (Ledger σ)}

structure Prompt (order : List (Nat × Block)) (a s : Course (Ledger σ)) : Prop where
  filled : ∃ deeds, s.log = a.log ++ deeds ∧ FilledAtOnce a.writer.merger order deeds
  merger : s.writer.isDone = false → s.writer.merger = a.writer.merger.after order

namespace Prompt

theorem start (a : Course (Ledger σ)) : Prompt [] a a :=
  ⟨⟨[], (List.append_nil _).symm, .nil⟩, fun _ => rfl⟩

theorem of_same (h : Prompt order a s) (hlog : s'.log = s.log) (hmerger : s'.writer.merger = s.writer.merger)
    (hdone : s'.writer.isDone = false → s.writer.isDone = false) : Prompt order a s' :=
  ⟨hlog ▸ h.filled, fun hd => hmerger.trans (h.merger (hdone hd))⟩

variable [World σ]

theorem log_put (data : Bytes) (packet : Bool) (s : Course (Ledger σ)) :
    ∃ met, (s.put data packet).log = s.log ++ [.wrote data packet met] := ⟨_, rfl⟩

theorem log_openNext (seed : Bytes) (s : Course (Ledger σ)) :
    ∃ path, (s.openNext seed).log = s.log ++ [.opened path seed] := ⟨_, rfl⟩

theorem taken {e : Nat × Block} (h : Prompt order a s) (ht : Taken e s s') : Prompt (order ++ [e]) a s' := by
  obtain ⟨⟨deeds, hlog, hfilled⟩, hmerger⟩ := h
  have hlonger : FilledAtOnce a.writer.merger (order ++ [e]) deeds := hfilled.mono (List.prefix_append _ _)
  have hafter (hd : s.writer.isDone = false) : (s.merged e).writer.merger = a.writer.merger.after (order ++ [e]) := by
    rw [Merger.after_snoc, ← hmerger hd]
    rfl
  cases ht with
  | ended hdone =>
    refine ⟨⟨deeds, hlog, hlonger⟩, fun hd => ?_⟩
    rw [hdone] at hd
    cases hd
  | skipped sourceErrors hd _ => exact ⟨⟨deeds, hlog, hlonger⟩, fun _ => hafter hd⟩
  | @put data hd _ _ =>
    obtain ⟨met, hput⟩ := log_put data e.2.isPacket (s.merged e)
    refine ⟨⟨deeds ++ [.wrote data e.2.isPacket met], ?_, hlonger.snoc rfl⟩, fun _ => (merger_put ..).trans (hafter hd)⟩
    rw [hput, ← List.append_assoc, ← hlog]
    rfl
  | @turned data hd hg _ _ =>
    obtain ⟨path, hopened⟩ := log_openNext (s.writer.merger.seed (some e.2)) (s.merged e)
    obtain ⟨met, hput⟩ := log_put data e.2.isPacket ((s.merged e).openNext (s.writer.merger.seed (some e.2)))
    rw [hmerger hd] at hg
    refine ⟨⟨_, ?_, hfilled.turned path met hg⟩, fun _ => ?_⟩
    · rw [hput, hopened, ← hmerger hd, ← List.append_assoc, ← List.append_assoc, ← hlog]
      rfl
    · rw [merger_put, merger_openNext]
      exact hafter hd

theorem look (h : Prompt order a s) : Prompt order a s.look := by
  obtain ⟨⟨deeds, hlog, hfilled⟩, hmerger⟩ := h
  obtain ⟨-, hsame, -, -, -, hdone⟩ := Writer.lookOver_keeps s.writer s.world
  refine ⟨?_, fun hd => hsame.trans (hmerger ?_)⟩
  · unfold Course.look
    dsimp only
    split
    · exact ⟨deeds, (List.append_nil _).trans hlog, hfilled⟩
    · refine ⟨deeds ++ [.waited (s.writer.output.checkRotation s.world).1], ?_, hfilled.snoc rfl⟩
      rw [hlog, List.append_assoc]
  · rw [Bool.eq_false_iff]
    intro hbefore
    rw [show s.look.writer.isDone = true from hdone hbefore] at hd
    cases hd

end Prompt

variable [World σ]

/-- Along a course that does not fail, every file opened is filled at once. -/
theorem Along.prompt (h : Along a order s) (he : s.writer.outputError = none) : Prompt order a s := by
  induction h with
  | start => exact .start a
  | block e _ ih => exact (ih (outputError_of_take he)).taken (take_taken he)
  | clock _ ih => exact (ih he).of_same rfl rfl id
  | aside live preamble sourceErrors _ ih => exact (ih he).of_same rfl rfl id
  | look _ ih => exact (ih he).look

/-- From one moment of a course to the next the files go from those that were told of to those that
    are told of then, and each file that was opened in between was filled at once with one of
    these blocks. -/
structure Turnover (order : List (Nat × Block)) (s s' : Course (Ledger σ)) : Prop where
  before : s.world.files = Deed.files s.log
  after : s'.world.files = Deed.files s'.log
  filled : ∃ deeds, s'.log = s.log ++ deeds ∧ FilledAtOnce s.writer.merger order deeds

theorem Along.turnover {triggers : List Trigger} (h : Along s order s') (hs : Paged triggers s)
    (he : s'.writer.outputError = none) : Turnover order s s' := by
  refine ⟨?_, ?_, (h.prompt he).filled⟩
  · rw [hs.files, Deed.files_eq]
  · rw [(h.paged hs he).files, Deed.files_eq]

/-- An input that is taken, or that comes too late. -/
theorem turnover_advance {triggers : List Trigger} (hs : Paged triggers s) (i : Input)
    (he : (s.advance i).writer.outputError = none) : Turnover (s.writer.gate i s.world).1 s (s.advance i) := by
  unfold advance at he ⊢
  split
  · rename_i hfinished
    rw [if_pos hfinished] at he
    have hstill := (Along.start (a := s)).turnover hs he
    obtain ⟨deeds, hlog, hfilled⟩ := hstill.filled
    exact ⟨hstill.before, hstill.after, deeds, hlog, hfilled.mono List.nil_prefix⟩
  · rename_i hfinished
    rw [if_neg hfinished] at he
    exact ((Along.start (a := s)).step i).turnover hs he

end Course

variable [World σ]

namespace Writer

/-- A block that the merger gives nothing for leaves the files alone, the output and all that is
    counted. -/
theorem handle_of_suppressed {y : Writer} {source : Nat} {b : Block} (hg : y.merger.gives source b = none)
    (v : Ledger σ) :
    (y.handle source b v).2 = v ∧ (y.handle source b v).1.output = y.output ∧
      (y.handle source b v).1.tally = y.tally ∧ (y.handle source b v).1.packets = y.packets ∧
      (y.handle source b v).1.bytes = y.bytes := by
  by_cases hd : y.isDone = true
  · rw [handle_of_isDone hd]
    exact ⟨rfl, rfl, rfl, rfl, rfl⟩
  · obtain ⟨sourceErrors, hh⟩ := handle_of_gives_none (Bool.eq_false_iff.mpr hd) hg v
    rw [hh]
    exact ⟨rfl, rfl, rfl, rfl, rfl⟩

end Writer

open Writer

/-! ## No file is left empty behind the others -/

/-- In a capture without output error, whatever comes in: every file that an input opens, or the end
    of the capture, is opened for a block that was let go then and is written to it at once. A block
    that the merger suppresses or rejects changes nothing of the output and counts for nothing. So
    where the last packet written has met a threshold and nothing is written after it, the files are
    those of that packet. -/
theorem no_empty_trailing_file {c : Config} {h : Host} {w : σ} {x : Writer} {l : Ledger σ}
    (hs : startCapture c h (Ledger.blank w) = (.ok x, l)) {is : List Input}
    (he : ((run is x l).1.conclude (run is x l).2).1.outputError = none) :
    (∀ before, (((Course.begin x l).run before).writer, ((Course.begin x l).run before).world) = run before x l) ∧
    (∀ before i after, is = before ++ i :: after →
      Course.Turnover (gate i (run before x l).1 (run before x l).2).1 ((Course.begin x l).run before)
        ((Course.begin x l).run (before ++ [i]))) ∧
    (Course.Turnover (letGo (run is x l).1 (run is x l).2).1 ((Course.begin x l).run is) (course is x l) ∧
      ((run is x l).1.conclude (run is x l).2).2.files = Deed.files (x.history is l)) ∧
    (∀ (y : Writer) (v : Ledger σ) (source : Nat) (b : Block), y.merger.gives source b = none →
      (y.handle source b v).2 = v ∧ (y.handle source b v).1.output = y.output ∧
        (y.handle source b v).1.tally = y.tally ∧ (y.handle source b v).1.packets = y.packets ∧
        (y.handle source b v).1.bytes = y.bytes) ∧
    ∀ before data after, x.history is l = before ++ .wrote data true true :: after →
      after.filterMap Deed.block? = [] →
        ((run is x l).1.conclude (run is x l).2).2.files = Deed.files (before ++ [.wrote data true true]) := by
  have herror : (course is x l).writer.outputError = none := outputError_course he
  have hfirst := startCapture_paged hs
  have halong (before : List Input) := (Course.Along.start (a := Course.begin x l)).run before
  have hfiles : ((run is x l).1.conclude (run is x l).2).2.files = Deed.files (x.history is l) := by
    rw [conclude_course_files, ((course_along is x l).paged hfirst herror).files, ← Deed.files_eq]
    rfl
  have hend : ((Course.begin x l).run is).writer.outputError = none :=
    ((Course.Along.start (a := (Course.begin x l).run is)).finish).outputError herror
  have herased (before : List Input) :
      (((Course.begin x l).run before).writer, ((Course.begin x l).run before).world) = run before x l :=
    Course.run_erased before _
  refine ⟨herased, fun before i after hsplit => ?_, ⟨?_, hfiles⟩, fun y v source b hg => handle_of_suppressed hg v,
    fun before data after hsplit hafter => ?_⟩
  · have hadvance : (Course.begin x l).run (before ++ [i]) = ((Course.begin x l).run before).advance i := by
      unfold Course.run
      rw [List.foldl_append]
      rfl
    have hrest : (Course.begin x l).run is = (((Course.begin x l).run before).advance i).run after := by
      rw [hsplit]
      unfold Course.run
      rw [List.foldl_append, List.foldl_cons]
    have hstep : (((Course.begin x l).run before).advance i).writer.outputError = none := by
      rw [hrest] at hend
      exact ((Course.Along.start (a := ((Course.begin x l).run before).advance i)).run after).outputError hend
    obtain ⟨blocks, hthen⟩ := (Course.Along.start (a := (Course.begin x l).run before)).advance i
    rw [hadvance, ← herased before]
    exact Course.turnover_advance ((halong before).paged hfirst (hthen.outputError hstep)) i hstep
  · rw [← herased is]
    exact ((Course.Along.start (a := (Course.begin x l).run is)).finish).turnover ((halong is).paged hfirst hend) herror
  · obtain ⟨deeds, hlog, hfilled⟩ := ((course_along is x l).prompt herror).filled
    -- the first file is opened before anything is written
    have hdeeds : .opened (x.output.ring.getLast?.getD "") (x.merger.seed none) :: deeds
        = before ++ .wrote data true true :: after := hlog.symm.trans hsplit
    cases before with
    | nil => cases hdeeds
    | cons first before =>
      obtain ⟨-, htail⟩ := List.cons.inj hdeeds
      have hsplit' : deeds = (before ++ [.wrote data true true]) ++ after := by
        rw [htail, List.append_assoc]
        rfl
      rw [hsplit'] at hfilled
      have hall : x.history is l = (first :: before ++ [.wrote data true true]) ++ after := by
        rw [hsplit, List.append_assoc]
        rfl
      rw [hfiles, hall]
      exact Deed.files_append _ (hfilled.no_opening hafter) hafter

/-- The last of the three packets of `loneStream` meets the threshold of its file, and there is no
    fourth file. -/
theorem no_empty_trailing_file_lone : ∃ x l before data,
    startCapture loneConfig ⟨none, none⟩ (Ledger.blank (Machine.ofDisk .empty)) = (.ok x, l) ∧
      x.history loneInputs l = before ++ [.wrote data true true] ∧
      ((run loneInputs x l).1.conclude (run loneInputs x l).2).2.files = Deed.files (before ++ [.wrote data true true]) ∧
      (Deed.files (before ++ [.wrote data true true])).length = 3 := by
  obtain ⟨x, l, hs, hok, hcount, hlast⟩ : ∃ x l,
      startCapture loneConfig ⟨none, none⟩ (Ledger.blank (Machine.ofDisk .empty)) = (.ok x, l) ∧
        ((run loneInputs x l).1.conclude (run loneInputs x l).2).1.outputError = none ∧
        (Deed.files (x.history loneInputs l)).length = 3 ∧
        (x.history loneInputs l).getLast? = some (.wrote ((Packet.ofData 0 [] 0).encode .littleEndian) true true) :=
    ⟨_, _, rfl, by decide +kernel, by decide +kernel, by decide +kernel⟩
  obtain ⟨before, hbefore⟩ := List.getLast?_eq_some_iff.mp hlast
  obtain ⟨-, -, -, -, htrailing⟩ := no_empty_trailing_file hs hok
  exact ⟨x, l, before, _, hs, hbefore, htrailing before _ [] hbefore rfl, hbefore ▸ hcount⟩

def trailedStream : Bytes :=
  (SectionHeader.ofOptions []).encode .littleEndian ++ (Interface.make 1 0 []).encode .littleEndian
    ++ (Packet.ofData 0 [7] 0).encode .littleEndian ++ frame .littleEndian 0xBAD [1, 2, 3, 4]

def trailedInputs : List Input :=
  (Stream.ofReader (Reader.ofBytes trailedStream)).run.map fun p => inputOf 0 p.1

/-- The only packet of `trailedStream` meets the threshold and no packet is written after it, and yet
    there is another file: the block behind it stands there. -/
theorem trailing_block_opens_file : ∃ x l before data after,
    startCapture loneConfig ⟨none, none⟩ (Ledger.blank (Machine.ofDisk .empty)) = (.ok x, l) ∧
      ((run trailedInputs x l).1.conclude (run trailedInputs x l).2).1.outputError = none ∧
      x.history trailedInputs l = before ++ .wrote data true true :: after ∧
      (∀ b ∈ after.filterMap Deed.block?, b.2 = false) ∧
      (Deed.files (before ++ [.wrote data true true])).length = 1 ∧
      ((run trailedInputs x l).1.conclude (run trailedInputs x l).2).2.files.length = 2 := by
  let packet := (Packet.ofData 0 [7] 0).encode .littleEndian
  obtain ⟨x, l, hs, hok, hlog, hrest, hbefore, hfiles⟩ : ∃ x l,
      startCapture loneConfig ⟨none, none⟩ (Ledger.blank (Machine.ofDisk .empty)) = (.ok x, l) ∧
        ((run trailedInputs x l).1.conclude (run trailedInputs x l).2).1.outputError = none ∧
        x.history trailedInputs l = (x.history trailedInputs l).take 3 ++
          .wrote packet true true :: (x.history trailedInputs l).drop 4 ∧
        (∀ b ∈ ((x.history trailedInputs l).drop 4).filterMap Deed.block?, b.2 = false) ∧
        (Deed.files ((x.history trailedInputs l).take 3 ++ [.wrote packet true true])).length = 1 ∧
        ((run trailedInputs x l).1.conclude (run trailedInputs x l).2).2.files.length = 2 :=
    ⟨_, _, rfl, by decide +kernel, by decide +kernel, by decide +kernel, by decide +kernel, by decide +kernel⟩
  exact ⟨x, l, _, packet, _, hs, hok, hlog, hrest, hbefore, hfiles⟩

end CaptureRing
