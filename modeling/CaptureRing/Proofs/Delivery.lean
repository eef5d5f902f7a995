/-
  CaptureRing.Proofs.Delivery — the merge loses no packet, doubles none and keeps their order.

  A packet can be written if its section has declared its interface before it. Which
  packets of a source these are is known from what the source sent, without a look at the
  other sources, the preamble or the files.

  Proved, for every world, every order of arrivals, every flush of the preamble and every
  rotation, is `merged_output_complete`: with no condition to meet and no output error,
  the files hold of each source just these packets, in the source's own order, and
  the packets counted are all of them. A source that failed is no exception.
-/

import CaptureRing.Proofs.Attribution
import Mathlib.Algebra.BigOperators.Group.Finset.Basic

namespace CaptureRing

/-! ## Packets that can be written -/

def Block.isPacketOn (interfaces : List Interface) (b : Block) : Bool :=
  match b.content with
  | .packet _ p => p.interface.toNat < interfaces.length
  | _ => false

theorem Block.isPacketOn_eq_false {b : Block} (hb : b.isPacket = false) (is : List Interface) : b.isPacketOn is = false := by
  obtain ⟨byteOrder, raw, content⟩ := b
  cases content with
  | packet format p => cases hb
  | sectionHeader _ => rfl
  | fileHeader _ => rfl
  | interface _ => rfl
  | other _ => rfl

/-- Which blocks of a source are packets on an interface that their section had declared. -/
def packetPlaces (bs : List Block) : List Nat :=
  (List.range bs.length).filter fun n => bs[n]?.any (Block.isPacketOn (openSection (bs.take n)))

@[simp] theorem packetPlaces_nil : packetPlaces [] = [] := rfl

theorem packetPlaces_snoc (bs : List Block) (b : Block) :
    packetPlaces (bs ++ [b]) = packetPlaces bs ++ if b.isPacketOn (openSection bs) then [bs.length] else [] := by
  unfold packetPlaces
  rw [List.length_append, List.length_singleton, List.range_succ, List.filter_append]
  congr 1
  · refine List.filter_congr fun n hn => ?_
    have hlt : n < bs.length := List.mem_range.mp hn
    rw [List.getElem?_append_left hlt, List.take_append_of_le_length (Nat.le_of_lt hlt)]
  · rw [List.filter_singleton, List.getElem?_concat_length, List.take_left' rfl, Option.any_some, Bool.cond_eq_ite]

theorem packetPlaces_ofSource_snoc (order : List (Nat × Block)) (source : Nat) (b : Block) (s : Nat) :
    packetPlaces (ofSource s (order ++ [(source, b)])) = packetPlaces (ofSource s order) ++
      if source = s ∧ b.isPacketOn (openSection (ofSource source order)) = true
        then [(ofSource source order).length] else [] := by
  rw [ofSource_append, ofSource_singleton]
  by_cases h : source = s
  · subst h
    rw [if_pos rfl, packetPlaces_snoc]
    simp
  · rw [if_neg h, if_neg fun hs => h hs.1, List.append_nil, List.append_nil]

namespace Synthesized

variable {header : Bytes} {order : List (Nat × Block)} {t : Synthesized}

/-- A packet is written exactly if its interface is declared, and as a packet. -/
theorem merged?_of_isPacket (h : NumberedAfter header order t) (source place : Nat) {b : Block}
    (hb : b.isPacket = true) :
    (b.isPacketOn (openSection (ofSource source order)) = false ∧ t.merged? source place b = none) ∨
      (b.isPacketOn (openSection (ofSource source order)) = true ∧
        ∃ p, t.merged? source place b = some (.packet source place p)) := by
  obtain ⟨byteOrder, raw, content⟩ := b
  cases content with
  | packet format p =>
    have hsome := h.renumber_isSome source p.interface
    unfold merged? Block.isPacketOn
    dsimp only at hsome ⊢
    rw [← hsome]
    cases t.renumber source p.interface with
    | none => exact Or.inl ⟨rfl, rfl⟩
    | some id => exact Or.inr ⟨rfl, _, rfl⟩
  | sectionHeader _ => cases hb
  | fileHeader _ => cases hb
  | interface _ => cases hb
  | other _ => cases hb

/-- What becomes of a block that is no packet is no packet. -/
theorem packetPlace?_of_not_isPacket {source place : Nat} {b : Block} (hb : b.isPacket = false) {x : MergedBlock}
    (hx : t.merged? source place b = some x) (s : Nat) : x.packetPlace? s = none := by
  rcases merged?_cases hx with ⟨i, -, rfl⟩ | ⟨format, p, k, hc, -, -⟩ | ⟨st, k, -, -, -, rfl⟩
  · rfl
  · unfold Block.isPacket at hb
    rw [hc] at hb
    cases hb
  · rfl

theorem filterMap_packetPlace? (h : NumberedAfter header order t) (source place : Nat) (b : Block) (s : Nat) :
    (t.merged? source place b).toList.filterMap (MergedBlock.packetPlace? s)
      = if source = s ∧ b.isPacketOn (openSection (ofSource source order)) = true then [place] else [] := by
  cases hb : b.isPacket with
  | true =>
    rcases merged?_of_isPacket h source place hb with ⟨hon, hx⟩ | ⟨hon, p, hx⟩
    · rw [hon, hx, if_neg fun hs => Bool.false_ne_true hs.2]; rfl
    · rw [hon, hx]
      by_cases hs : source = s
      · simp [MergedBlock.packetPlace?, hs]
      · simp [MergedBlock.packetPlace?, hs]
  | false =>
    rw [Block.isPacketOn_eq_false hb, if_neg fun hs => Bool.false_ne_true hs.2, List.filterMap_eq_nil_iff]
    exact fun x hx => packetPlace?_of_not_isPacket hb (Option.mem_toList.mp hx) s

end Synthesized

variable {m : Merger} {header : Bytes}

/-- The packets of a source that are written are those that can be. -/
theorem packetPlaces_mergedOf (hm : m.Numbers header) (order : List (Nat × Block)) (s : Nat) :
    (mergedOf m order).filterMap (MergedBlock.packetPlace? s) = packetPlaces (ofSource s order) := by
  induction order using List.reverseRecOn with
  | nil => rfl
  | append_singleton order e ih =>
    obtain ⟨source, b⟩ := e
    obtain ⟨t, ht, hnum⟩ := hm order
    rw [mergedOf_snoc ht, List.filterMap_append, ih, Synthesized.filterMap_packetPlace? hnum,
      packetPlaces_ofSource_snoc]

/-- Counted block by block, the packets written are as many as the sources sent together. -/
theorem countP_given (hm : m.Numbers header) {n : Nat} {order : List (Nat × Block)} (hn : ∀ e ∈ order, e.1 < n) :
    (given m order).countP (·.block.isPacket) = ∑ s ∈ Finset.range n, (packetPlaces (ofSource s order)).length := by
  induction order using List.reverseRecOn with
  | nil => simp
  | append_singleton order e ih =>
    obtain ⟨source, b⟩ := e
    obtain ⟨t, ht, hnum⟩ := hm order
    have hsource : source < n := hn (source, b) (List.mem_append_right _ (List.mem_singleton_self _))
    -- the block is counted for its source and for no other
    have hlast : (if ((m.after order).gives source b).isSome then [(⟨order, source, b⟩ : Written)] else []).countP
        (·.block.isPacket) = if b.isPacketOn (openSection (ofSource source order)) = true then 1 else 0 := by
      rw [ht, Synthesized.gives_eq source 0, Option.isSome_map]
      cases hb : b.isPacket with
      | true =>
        rcases Synthesized.merged?_of_isPacket hnum source 0 hb with ⟨hon, hx⟩ | ⟨hon, p, hx⟩
        · rw [hon, hx]; rfl
        · rw [hon, hx]; simp [hb]
      | false =>
        rw [Block.isPacketOn_eq_false hb]
        split <;> simp [hb]
    have hadded : ∑ s ∈ Finset.range n, (if source = s ∧ b.isPacketOn (openSection (ofSource source order)) = true
        then [(ofSource source order).length] else []).length
        = if b.isPacketOn (openSection (ofSource source order)) = true then 1 else 0 := by
      rw [Finset.sum_eq_single_of_mem source (Finset.mem_range.mpr hsource)]
      · split <;> simp_all
      · intro s _ hs
        rw [if_neg fun h => hs h.1.symm]
        rfl
    rw [given_snoc, List.countP_append, ih fun e he => hn e (List.mem_append_left _ he), hlast, ← hadded,
      ← Finset.sum_add_distrib]
    refine Finset.sum_congr rfl fun s _ => ?_
    rw [packetPlaces_ofSource_snoc, List.length_append]

/-! ## A capture that was not cut short -/

variable {σ : Type} [World σ]

namespace Writer

/-- A source that has sent everything by the end: it was taken in, or nothing of it was left. -/
theorem sent_taken {n : Nat} {x : Writer} {w : σ} {is taken rest : List Input} {order : List (Nat × Block)}
    {b : Writer × σ} (hp : Passed n (x, w) taken order b) (hlive : x.live = List.replicate n true)
    (hw : Within n is) (ho : Orderly is) (hsplit : is = taken ++ rest)
    (hrest : rest ≠ [] → b.1.isFinished = true) (hd : b.1.isDone = false) (s : Nat) : sent s taken = sent s is := by
  by_cases hr : rest = []
  · rw [hsplit, hr, List.append_nil]
  · have hf := hrest hr
    unfold isFinished at hf
    rw [hd, Bool.false_or, Bool.and_eq_true] at hf
    by_cases hs : s < n
    · -- the source is not live any more, so it has ended among the inputs taken
      have hlen : s < b.1.live.length := by
        have hl : x.live.length = n := by rw [hlive, List.length_replicate]
        rw [hp.liveLength, hl]
        exact hs
      have hdead : b.1.live[s]? = some false := by
        rw [List.getElem?_eq_getElem hlen]
        have hall := List.all_eq_true.mp hf.2 b.1.live[s] (List.getElem_mem hlen)
        rw [Bool.not_eq_true'] at hall
        rw [hall]
      rcases hp.closed s hdead with h | h
      · have hl : x.live[s]? = some false := h
        rw [hlive, List.getElem?_replicate, if_pos hs] at hl
        cases hl
      · exact sent_of_finished ho hsplit h
    · have hnone : ∀ js : List Input, (∀ i ∈ js, i ∈ is) → sent s js = [] := fun js hjs =>
        sent_eq_nil fun i hi he => hs (hw i (hjs i hi) s he)
      rw [hnone taken fun i hi => hsplit ▸ List.mem_append_left _ hi, hnone is fun i hi => hi]

/-- With no condition to meet and no output error, everything that was sent has gone through
    the merger by the end, and the files hold what became of it. -/
theorem Started.complete {c : Config} {h : Host} {x : Writer} {l : Ledger σ} (hst : Started c h x l)
    (ha : c.autostop = []) {is : List Input} (hw : Within c.sources.length is) (ho : Orderly is)
    (hok : ((run is x l).1.conclude (run is x l).2).1.outputError = none) :
    ∃ order vols, Released (x, l) order ((run is x l).1.flush (run is x l).2) ∧
      (∀ e ∈ order, e.1 < c.sources.length) ∧ (∀ s, ofSource s order = sent s is) ∧
      ((run is x l).1.flush (run is x l).2).1.outputError = none ∧
      Kept (Merger.ofCount h c.sources.length) order ((run is x l).1.flush (run is x l).2).1
        ((run is x l).1.flush (run is x l).2).2 order vols [] := by
  obtain ⟨taken, rest, order, hsplit, hrest, hp⟩ := run_passed l hst.sized hw
  obtain ⟨⟨flushed, hflush⟩, hempty⟩ := flush_passed (run is x l).2 hp.sized
  have hpf := hp.trans hflush
  have herr := outputError_of_conclude hok
  obtain ⟨_, vols, _, hk⟩ := hpf.released.kept hst.kept
  -- nothing has ended the writing, neither before the last flush nor in it
  have hd : ((run is x l).1.flush (run is x l).2).1.isDone = false :=
    isDone_eq_false herr (hpf.released.unstopped ⟨hst.conditions.trans ha, hst.fired⟩).2
  have hd' : (run is x l).1.isDone = false :=
    Bool.eq_false_iff.mpr fun hdone => Bool.false_ne_true (hd.symm.trans (hflush.released.isDone hdone))
  obtain ⟨rfl, -⟩ := hk.upToDate hd
  obtain rfl := hk.noneInVain herr
  refine ⟨order ++ flushed, vols, hpf.released, hpf.within, fun s => ?_, herr, hk⟩
  have hc := hpf.conserved s
  have hheld : Writer.held s ((run is x l).1.flush (run is x l).2).1 = [] := by
    unfold Writer.held; rw [hempty]; rfl
  rw [hheld, hst.held, List.append_nil, List.append_nil, List.nil_append] at hc
  rw [hc]
  exact sent_taken hp hst.live hw ho hsplit hrest hd' s

end Writer

open Writer

/-- Of each source the files of a capture hold just the packets on declared interfaces, each
    once and in the source's own order, in whatever order the sources deliver, wait for each
    other and end, and wherever files change. -/
theorem merged_output_complete {c : Config} {h : Host} {w : σ} {x : Writer} {l : Ledger σ}
    (hs : startCapture c h (Ledger.blank w) = (.ok x, l)) (hn : 1 < c.sources.length) (ha : c.autostop = [])
    {is : List Input} (hw : Within c.sources.length is) (ho : Orderly is)
    (hok : ((run is x l).1.conclude (run is x l).2).1.outputError = none) :
    ∃ files : List (List MergedBlock),
      ((run is x l).1.conclude (run is x l).2).2.contents
          = files.map (fun f => mergedHeader h ++ f.flatMap MergedBlock.encode) ∧
        (∀ f ∈ files, ∀ y ∈ f, (∃ i, y = .interface i) ∨ ∃ s n l k, Stems (fun s => sent s is) y s n l k) ∧
        (∀ s, files.flatten.filterMap (MergedBlock.packetPlace? s) = packetPlaces (sent s is)) ∧
        ((run is x l).1.conclude (run is x l).2).1.packets
          = ∑ s ∈ Finset.range c.sources.length, (packetPlaces (sent s is)).length := by
  have hst := startCapture_started hs
  have hm := ofCount_numbers hn h
  obtain ⟨order, vols, -, hwithin, hall, herr, hk⟩ := hst.complete ha hw ho hok
  have hbegin : ∀ s, ofSource s order <+: sent s is := fun s => by rw [hall]
  have hself := hk.selfDescribing hm herr hbegin
  rw [conclude_contents, conclude_packets]
  refine ⟨vols.map (Volume.merged _), hself.contents, fun f hf y hy => ?_, fun s => ?_, ?_⟩
  · obtain ⟨v, hv, rfl⟩ := List.mem_map.mp hf
    obtain ⟨front, back, hsplit⟩ := List.append_of_mem hy
    rcases interfacesOf_before hm hk.filed hv hsplit with hi | ⟨e, he, hey, -⟩
    · exact Or.inl hi
    · rcases stems_of_written hm hbegin he hey with hi | ⟨s, n, l, k, hstems, -⟩
      · exact Or.inl hi
      · exact Or.inr ⟨s, n, l, k, hstems⟩
  · rw [filterMap_merged hk.filed fun _ => rfl, packetPlaces_mergedOf hm, hall]
  · have hcount : ∀ vs : List Volume, (vs.map Volume.packets).sum = (vs.flatMap (·.entries)).countP (·.block.isPacket) := by
      intro vs
      rw [List.countP_flatMap]
      rfl
    rw [hk.packets, hcount, hk.filed.flatMap_entries, countP_given hm hwithin]
    exact Finset.sum_congr rfl fun s _ => by rw [hall]

theorem merged_output_complete_pair : ∃ x l,
    startCapture pairConfig ⟨none, none⟩ (Ledger.blank (Machine.ofDisk .empty)) = (.ok x, l) ∧
      Within pairConfig.sources.length pairInputs ∧ Orderly pairInputs ∧
      ∃ files : List (List MergedBlock),
        ((run pairInputs x l).1.conclude (run pairInputs x l).2).2.contents
            = files.map (fun f => mergedHeader ⟨none, none⟩ ++ f.flatMap MergedBlock.encode) ∧
          files.flatten.filterMap (MergedBlock.packetPlace? 0) = [2] ∧
          files.flatten.filterMap (MergedBlock.packetPlace? 1) = [2] := by
  have hw : Within pairConfig.sources.length pairInputs := by
    unfold Within
    decide
  have ho : Orderly pairInputs := by
    simp [Orderly, pairInputs, Input.source?, Input.closes]
  obtain ⟨x, l, hs, hok⟩ : ∃ x l,
      startCapture pairConfig ⟨none, none⟩ (Ledger.blank (Machine.ofDisk .empty)) = (.ok x, l) ∧
        ((run pairInputs x l).1.conclude (run pairInputs x l).2).1.outputError = none :=
    ⟨_, _, rfl, by decide +kernel⟩
  obtain ⟨files, hcontents, -, hplaces, -⟩ := merged_output_complete hs (by decide) rfl hw ho hok
  exact ⟨x, l, hs, hw, ho, files, hcontents, hplaces 0, hplaces 1⟩

end CaptureRing
