/-
  CaptureRing.Proofs.Attribution — what stands in the files of several sources, and whose it is.

  A file of the merged capture is one section header of our own and then blocks of three
  kinds. A packet and a block of statistics remember here which source sent them, and as
  which of its blocks.

  Proved, for every world, every order of arrivals and every rotation, is
  `merged_output_attributed`: at every moment without an output error each file is such a
  section, and the interface number of every packet and of all statistics leads, in that
  very file, to the interface they were captured on.
-/

import CaptureRing.Machine
import CaptureRing.Proofs.Numbering

namespace CaptureRing

/-! ## The blocks of a merged file -/

/-- A block behind the section header of a merged file. Where it goes back to a block of a
    source, `place` tells which of the source's blocks it was. -/
inductive MergedBlock where
  | interface (i : Interface)
  | packet (source place : Nat) (p : Packet)
  | statistics (source place : Nat) (st : Statistics)
  deriving DecidableEq, Repr

namespace MergedBlock

def encode : MergedBlock → Bytes
  | interface i => i.encode .littleEndian
  | packet _ _ p => p.encode .littleEndian
  | statistics _ _ st => st.encode .littleEndian

def interface? : MergedBlock → Option Interface
  | interface i => some i
  | packet .. | statistics .. => none

def place? (s : Nat) : MergedBlock → Option Nat
  | interface _ => none
  | packet source place _ | statistics source place _ => if source = s then some place else none

def packetPlace? (s : Nat) : MergedBlock → Option Nat
  | interface _ | statistics .. => none
  | packet source place _ => if source = s then some place else none

end MergedBlock

def interfacesOf (ms : List MergedBlock) : List Interface := ms.filterMap MergedBlock.interface?

/-- The numbers among the options of statistics stand in the order of the block they were
    read from, and are written in the order of the output. -/
def statisticsInOutputOrder (order : ByteOrder) (st : Statistics) : Statistics :=
  if order.isBig then st.swapOptions else st

/-- The block is what was written for the packet, or for the statistics, that source `s` sent as
    its block `n` on its interface `l`: now it has number `k`, and numbers among its options
    stand in the order of the output. -/
inductive Stems (sent : Nat → List Block) : MergedBlock → Nat → Nat → UInt32 → UInt32 → Prop
  | packet {s n : Nat} {b : Block} {format : PacketFormat} {p : Packet} (k : UInt32) :
      (sent s)[n]? = some b → b.content = .packet format p →
      Stems sent (.packet s n (Synthesized.packetInOutputOrder b.order format { p with interface := k }))
        s n p.interface k
  | statistics {s n : Nat} {b : Block} {st : Statistics} (k : UInt32) :
      (sent s)[n]? = some b → b.content = .other BlockKind.interfaceStatistics.number →
      Statistics.parse b.order b.raw = .ok st →
      Stems sent (.statistics s n (statisticsInOutputOrder b.order { st with interface := k })) s n st.interface k

/-! ## What the merger writes -/

namespace Synthesized

/-- What is written for a block of a source, its block `place`. -/
def merged? (source place : Nat) (b : Block) (s : Synthesized) : Option MergedBlock :=
  match b.content with
  | .sectionHeader _ => none
  | .fileHeader h => some (.interface h.toInterface)
  | .interface i => some (.interface (if b.order.isBig then i.swapOptions else i))
  | .packet format p => (s.renumber source p.interface).map fun id =>
      .packet source place (packetInOutputOrder b.order format { p with interface := id })
  | .other kind =>
    if kind = BlockKind.interfaceStatistics.number then
      (Statistics.parse b.order b.raw).toOption.bind fun st => (s.renumber source st.interface).map fun id =>
        .statistics source place (statisticsInOutputOrder b.order { st with interface := id })
    else none

/-- The order of the output is little endian. -/
theorem gives_eq (source place : Nat) (b : Block) (s : Synthesized) :
    (Merger.synthesized s).gives source b = (s.merged? source place b).map MergedBlock.encode := by
  unfold Merger.gives Merger.process Synthesized.process merged?
  dsimp only
  cases b.content with
  | sectionHeader _ => rfl
  | fileHeader _ => rfl
  | interface _ => rfl
  | packet format p =>
    dsimp only
    cases s.renumber source p.interface with
    | none => rfl
    | some id => rfl
  | other kind =>
    dsimp only
    by_cases hk : kind = BlockKind.interfaceStatistics.number
    · rw [if_pos hk, if_pos hk]
      cases Statistics.parse b.order b.raw with
      | error e => rfl
      | ok st =>
        dsimp only [Except.toOption, Option.bind]
        cases s.renumber source st.interface with
        | none => rfl
        | some id => rfl
    · rw [if_neg hk, if_neg hk]; rfl

theorem seed_eq (s : Synthesized) :
    s.seed = s.header ++ (s.interfaces.toList.map MergedBlock.interface).flatMap MergedBlock.encode := by
  unfold seed
  rw [List.flatMap_map]
  rfl

/-- A block becomes an interface exactly if it declares one. -/
theorem interface?_merged? (source place : Nat) (b : Block) (s : Synthesized) :
    (s.merged? source place b).bind MergedBlock.interface? = b.declares? := by
  unfold merged? Block.declares?
  cases b.content with
  | sectionHeader _ => rfl
  | fileHeader _ => rfl
  | interface _ => rfl
  | packet format p =>
    dsimp only
    cases s.renumber source p.interface with
    | none => rfl
    | some id => rfl
  | other kind =>
    dsimp only
    split
    · cases Statistics.parse b.order b.raw with
      | error e => rfl
      | ok st =>
        dsimp only [Except.toOption, Option.bind]
        cases s.renumber source st.interface with
        | none => rfl
        | some id => rfl
    · rfl

theorem merged?_cases {source place : Nat} {b : Block} {s : Synthesized} {x : MergedBlock}
    (hx : s.merged? source place b = some x) :
    (∃ i, b.declares? = some i ∧ x = .interface i) ∨
      (∃ format p k, b.content = .packet format p ∧ s.renumber source p.interface = some k ∧
        x = .packet source place (packetInOutputOrder b.order format { p with interface := k })) ∨
      ∃ st k, b.content = .other BlockKind.interfaceStatistics.number ∧ Statistics.parse b.order b.raw = .ok st ∧
        s.renumber source st.interface = some k ∧
        x = .statistics source place (statisticsInOutputOrder b.order { st with interface := k }) := by
  unfold merged? at hx
  unfold Block.declares?
  split at hx
  · cases hx
  · rename_i h hc
    cases hx
    exact Or.inl ⟨_, by rw [hc], rfl⟩
  · rename_i i hc
    cases hx
    exact Or.inl ⟨_, by rw [hc], rfl⟩
  · rename_i format p hc
    obtain ⟨k, hk, rfl⟩ := Option.map_eq_some_iff.mp hx
    exact Or.inr (Or.inl ⟨format, p, k, hc, hk, rfl⟩)
  · rename_i kind hc
    split at hx
    · rename_i hkind
      obtain ⟨st, hst, hx⟩ := Option.bind_eq_some_iff.mp hx
      obtain ⟨k, hk, rfl⟩ := Option.map_eq_some_iff.mp hx
      have hparse : Statistics.parse b.order b.raw = .ok st := by
        cases hp : Statistics.parse b.order b.raw with
        | error e => rw [hp] at hst; cases hst
        | ok st' => rw [hp] at hst; cases hst; rfl
      exact Or.inr (Or.inr ⟨st, k, hkind ▸ hc, hparse, hk, rfl⟩)
    · cases hx

/-- What is no interface goes back to the block it was written for, and its number is that
    of the table. -/
theorem stems_of_merged? {sent : Nat → List Block} {source place : Nat} {b : Block} {s : Synthesized}
    {x : MergedBlock} (hb : (sent source)[place]? = some b) (hx : s.merged? source place b = some x) :
    (∃ i, x = .interface i) ∨ ∃ l k, Stems sent x source place l k ∧ s.renumber source l = some k := by
  rcases merged?_cases hx with ⟨i, -, rfl⟩ | ⟨format, p, k, hc, hk, rfl⟩ | ⟨st, k, hc, hst, hk, rfl⟩
  · exact Or.inl ⟨i, rfl⟩
  · exact Or.inr ⟨_, k, .packet k hb hc, hk⟩
  · exact Or.inr ⟨_, k, .statistics k hb hc hst, hk⟩

theorem place?_merged? {source place : Nat} {b : Block} {s : Synthesized} {x : MergedBlock}
    (hx : s.merged? source place b = some x) {src n : Nat} (hn : x.place? src = some n) :
    src = source ∧ n = place := by
  have hplace : (if source = src then some place else none) = some n → src = source ∧ n = place := by
    intro h
    split at h
    · cases h; exact ⟨‹source = src›.symm, rfl⟩
    · cases h
  rcases merged?_cases hx with ⟨i, -, rfl⟩ | ⟨_, _, _, -, -, rfl⟩ | ⟨_, _, -, -, -, rfl⟩
  · cases hn
  · exact hplace hn
  · exact hplace hn

end Synthesized

/-! ## The blocks of a file -/

def Written.merged? (m : Merger) (e : Written) : Option MergedBlock :=
  match m.after e.before with
  | .synthesized s => s.merged? e.source (ofSource e.source e.before).length e.block
  | .passthrough _ => none

def Volume.merged (m : Merger) (v : Volume) : List MergedBlock :=
  (announced v.before).map .interface ++ v.entries.filterMap (Written.merged? m)

def mergedOf (m : Merger) (order : List (Nat × Block)) : List MergedBlock :=
  (given m order).filterMap (Written.merged? m)

variable {m : Merger} {header : Bytes} {order : List (Nat × Block)} {vols : List Volume}

theorem Written.bytes_eq (hm : m.Numbers header) (e : Written) :
    e.bytes m = (e.merged? m).toList.flatMap MergedBlock.encode := by
  obtain ⟨s, hs, -⟩ := hm e.before
  unfold Written.bytes Written.merged?
  rw [hs, Synthesized.gives_eq e.source (ofSource e.source e.before).length]
  dsimp only
  cases s.merged? e.source (ofSource e.source e.before).length e.block with
  | none => rfl
  | some x => exact (List.append_nil _).symm

theorem Volume.flatten_merged (hm : m.Numbers header) (v : Volume) :
    (v.writes m).flatten = header ++ (v.merged m).flatMap MergedBlock.encode := by
  obtain ⟨s, hs, hnum⟩ := hm v.before
  have hseed : v.seed m = header ++ ((announced v.before).map MergedBlock.interface).flatMap MergedBlock.encode := by
    unfold Volume.seed
    rw [hs, ← hnum.header, ← hnum.interfaces]
    exact s.seed_eq
  have hentries : ∀ es : List Written, es.flatMap (Written.bytes m)
      = (es.filterMap (Written.merged? m)).flatMap MergedBlock.encode := by
    intro es
    induction es with
    | nil => rfl
    | cons e rest ih =>
      rw [List.flatMap_cons, ih, Written.bytes_eq hm, List.filterMap_cons]
      cases e.merged? m with
      | none => rfl
      | some x => simp
  rw [flatten_writes, hseed, hentries, List.append_assoc, ← List.flatMap_append]
  rfl

theorem mergedOf_snoc {s : Synthesized} (hs : m.after order = .synthesized s) (source : Nat) (b : Block) :
    mergedOf m (order ++ [(source, b)])
      = mergedOf m order ++ (s.merged? source (ofSource source order).length b).toList := by
  unfold mergedOf
  rw [given_snoc, List.filterMap_append, hs, Synthesized.gives_eq source (ofSource source order).length]
  congr 1
  cases hx : s.merged? source (ofSource source order).length b with
  | none => rfl
  | some x =>
    have he : Written.merged? m ⟨order, source, b⟩ = some x := by
      unfold Written.merged?
      rw [hs]
      exact hx
    rw [Option.map_some, Option.isSome_some, if_pos rfl, List.filterMap_cons, he]
    rfl

/-- All interfaces announced are written, and in order. -/
theorem interfacesOf_mergedOf (hm : m.Numbers header) (order : List (Nat × Block)) :
    interfacesOf (mergedOf m order) = announced order := by
  induction order using List.reverseRecOn with
  | nil => rfl
  | append_singleton order e ih =>
    obtain ⟨source, b⟩ := e
    obtain ⟨s, hs, -⟩ := hm order
    have hb := s.interface?_merged? source (ofSource source order).length b
    rw [mergedOf_snoc hs, announced_snoc, ← hb, ← ih]
    unfold interfacesOf
    rw [List.filterMap_append]
    cases s.merged? source (ofSource source order).length b with
    | none => rfl
    | some x => cases hx : x.interface? <;> simp [hx]

theorem interfacesOf_map_interface (is : List Interface) : interfacesOf (is.map .interface) = is := by
  unfold interfacesOf
  rw [List.filterMap_map]
  exact List.filterMap_some

/-- In front of a block that was written, its file has all interfaces announced before it. -/
theorem interfacesOf_before (hm : m.Numbers header) (h : Filed m order vols) {v : Volume} (hv : v ∈ vols)
    {front back : List MergedBlock} {x : MergedBlock} (hx : v.merged m = front ++ x :: back) :
    (∃ i, x = .interface i) ∨ ∃ e, e ∈ given m order ∧ e.merged? m = some x ∧
      interfacesOf front = announced e.before := by
  -- the block is one of the seed, or stands behind it
  have hlate : ∀ front', front = (announced v.before).map .interface ++ front' →
      v.entries.filterMap (Written.merged? m) = front' ++ x :: back →
      ∃ e, e ∈ given m order ∧ e.merged? m = some x ∧ interfacesOf front = announced e.before := by
    intro front' hf hb
    obtain ⟨before, rest, he, hfront, hrest⟩ := List.filterMap_eq_append_iff.mp hb
    obtain ⟨skipped, e, after, hsplit, hskip, hex, -⟩ := List.filterMap_eq_cons_iff.mp hrest
    have hentries : v.entries = (before ++ skipped) ++ e :: after := by
      rw [he, hsplit, List.append_assoc]
    have hgiven := h.given_entry hv hentries
    refine ⟨e, ?_, hex, ?_⟩
    · rw [← h.flatMap_entries]
      refine List.mem_flatMap.mpr ⟨v, hv, ?_⟩
      rw [hentries]
      exact List.mem_append_right _ List.mem_cons_self
    · have hnone : skipped.filterMap (Written.merged? m) = [] := List.filterMap_eq_nil_iff.mpr hskip
      rw [← interfacesOf_mergedOf hm e.before]
      unfold mergedOf
      rw [hgiven, List.filterMap_append, List.filterMap_append, hnone, hfront, List.append_nil, hf]
      unfold interfacesOf
      rw [List.filterMap_append, List.filterMap_append]
      congr 1
      exact (interfacesOf_map_interface _).trans (interfacesOf_mergedOf hm v.before).symm
  unfold Volume.merged at hx
  rcases List.append_eq_append_iff.mp hx with ⟨front', hf, hb⟩ | ⟨seed', hf, hb⟩
  · exact Or.inr (hlate front' hf hb)
  · cases seed' with
    | nil => exact Or.inr (hlate [] (by rw [hf, List.append_nil, List.append_nil]) hb.symm)
    | cons y ys =>
      have hy : x = y := (List.cons.inj hb).1
      have hmem : y ∈ (announced v.before).map MergedBlock.interface := by
        rw [hf]
        exact List.mem_append_right _ List.mem_cons_self
      obtain ⟨i, -, rfl⟩ := List.mem_map.mp hmem
      exact Or.inl ⟨i, hy⟩

/-! ## Where the blocks come from -/

/-- Written blocks go back to blocks of their sources, under numbers that were right when
    they were written. -/
theorem stems_of_written (hm : m.Numbers header) {sent : Nat → List Block} (hsent : ∀ s, ofSource s order <+: sent s)
    {e : Written} (he : e ∈ given m order) {x : MergedBlock} (hx : e.merged? m = some x) :
    (∃ i, x = .interface i) ∨ ∃ s n l k, Stems sent x s n l k ∧ l.toNat < (openSection ((sent s).take n)).length ∧
      ((announced e.before).length ≤ 2 ^ 32 →
        ∃ i, (announced e.before)[k.toNat]? = some i ∧ (openSection ((sent s).take n))[l.toNat]? = some i) := by
  obtain ⟨before, after, hsplit⟩ := List.append_of_mem he
  obtain ⟨-, hbegin, -⟩ := given_before hsplit
  obtain ⟨s, hs, hnum⟩ := hm e.before
  unfold Written.merged? at hx
  rw [hs] at hx
  -- what the source had sent before the block, and the block
  have hat : ofSource e.source e.before ++ [e.block] <+: sent e.source := by
    have hp : ofSource e.source (e.before ++ [(e.source, e.block)]) <+: ofSource e.source order :=
      hbegin.filterMap _
    rw [ofSource_append, ofSource_singleton, if_pos rfl] at hp
    exact hp.trans (hsent e.source)
  obtain ⟨rest, hrest⟩ := hat
  have hblock : (sent e.source)[(ofSource e.source e.before).length]? = some e.block := by
    rw [← hrest, List.append_assoc, List.getElem?_append_right (Nat.le_refl _), Nat.sub_self]
    rfl
  have htake : (sent e.source).take (ofSource e.source e.before).length = ofSource e.source e.before := by
    rw [← hrest, List.append_assoc]
    exact List.take_left' rfl
  rcases Synthesized.stems_of_merged? hblock hx with hi | ⟨l, k, hstems, hk⟩
  · exact Or.inl hi
  · refine Or.inr ⟨_, _, l, k, hstems, ?_, fun hl => ?_⟩
    · have hsome := hnum.renumber_isSome e.source l
      rw [hk] at hsome
      rw [htake]
      exact of_decide_eq_true hsome.symm
    · obtain ⟨i, hi, hp⟩ := hnum.place hl e.source l.toNat k hk
      rw [htake]
      exact ⟨i, hp, hi⟩

/-- What the blocks of all files tell, but for the interfaces, is what those of the order tell. -/
theorem filterMap_merged (h : Filed m order vols) {α : Type} {f : MergedBlock → Option α}
    (hf : ∀ i, f (.interface i) = none) :
    (vols.map (Volume.merged m)).flatten.filterMap f = (mergedOf m order).filterMap f := by
  unfold mergedOf
  rw [← h.flatMap_entries, ← List.flatMap_def]
  have hseed : ∀ is : List Interface, (is.map MergedBlock.interface).filterMap f = [] := by
    intro is
    rw [List.filterMap_map, List.filterMap_eq_nil_iff]
    exact fun i _ => hf i
  clear h
  induction vols with
  | nil => rfl
  | cons v rest ih =>
    simp only [List.flatMap_cons, List.filterMap_append, ih]
    unfold Volume.merged
    rw [List.filterMap_append, hseed, List.nil_append]

/-- The blocks of a source are written in its own order, none twice. -/
theorem places_pairwise (hm : m.Numbers header) (order : List (Nat × Block)) (s : Nat) :
    ((mergedOf m order).filterMap (MergedBlock.place? s)).Pairwise (· < ·) ∧
      ∀ n ∈ (mergedOf m order).filterMap (MergedBlock.place? s), n < (ofSource s order).length := by
  induction order using List.reverseRecOn with
  | nil => exact ⟨List.Pairwise.nil, fun n hn => absurd hn List.not_mem_nil⟩
  | append_singleton order e ih =>
    obtain ⟨source, b⟩ := e
    obtain ⟨hp, hlt⟩ := ih
    obtain ⟨t, ht, -⟩ := hm order
    rw [mergedOf_snoc ht, List.filterMap_append, ofSource_append, ofSource_singleton]
    -- the block that came last is the last of its source
    have hlast : ∀ n ∈ (t.merged? source (ofSource source order).length b).toList.filterMap (MergedBlock.place? s),
        source = s ∧ n = (ofSource s order).length := by
      intro n hn
      obtain ⟨x, hx, hxn⟩ := List.mem_filterMap.mp hn
      obtain ⟨rfl, rfl⟩ := Synthesized.place?_merged? (Option.mem_toList.mp hx) hxn
      exact ⟨rfl, rfl⟩
    refine ⟨List.pairwise_append.mpr ⟨hp, ?_, fun a ha n hn => ?_⟩, fun n hn => ?_⟩
    · cases t.merged? source (ofSource source order).length b with
      | none => exact List.Pairwise.nil
      | some x => cases hx : x.place? s <;> simp [hx]
    · rw [(hlast n hn).2]
      exact hlt a ha
    · rcases List.mem_append.mp hn with hn | hn
      · exact Nat.lt_of_lt_of_le (hlt n hn) (by rw [List.length_append]; omega)
      · obtain ⟨hs, rfl⟩ := hlast n hn
        rw [if_pos hs, List.length_append, List.length_singleton]
        omega

/-! ## Files that describe themselves -/

/-- The block goes back to one that its source sent, and its number leads to the interface,
    among those of this table, that the source had declared under the number it used. -/
def Attributed (sent : Nat → List Block) (table : List Interface) (x : MergedBlock) : Prop :=
  (∃ i, x = .interface i) ∨ ∃ s n l k i, Stems sent x s n l k ∧
    table[k.toNat]? = some i ∧ (openSection ((sent s).take n))[l.toNat]? = some i

/-- These contents are those of merged captures: each is one section header and the blocks
    behind it, every block attributed by what stands before it in its file. -/
structure SelfDescribing (header : Bytes) (sent : Nat → List Block) (contents : List Bytes)
    (files : List (List MergedBlock)) : Prop where
  contents : contents = files.map fun f => header ++ f.flatMap MergedBlock.encode
  attributed : ∀ f ∈ files, ∀ front x back, f = front ++ x :: back → (interfacesOf front).length ≤ 2 ^ 32 →
    Attributed sent (interfacesOf front) x
  /-- The blocks of a source come in its own order, and none comes twice. -/
  inOrder : ∀ s, (files.flatten.filterMap (MergedBlock.place? s)).Pairwise (· < ·)

variable {σ : Type}

namespace Writer

theorem Kept.selfDescribing {taken : List (Nat × Block)} {vain : List (List Bytes)} {x : Writer} {l : Ledger σ}
    (h : Kept m order x l taken vols vain) (hm : m.Numbers header) (hx : x.outputError = none)
    {sent : Nat → List Block} (hsent : ∀ s, ofSource s order <+: sent s) :
    SelfDescribing header sent l.contents (vols.map (Volume.merged m)) where
  contents := by
    obtain rfl := h.noneInVain hx
    rw [l.contents_eq, h.writes, List.append_nil, List.map_map, List.map_map]
    exact List.map_congr_left fun v _ => v.flatten_merged hm
  attributed f hf front b back hb hl := by
    obtain ⟨v, hv, rfl⟩ := List.mem_map.mp hf
    rcases interfacesOf_before hm h.filed hv hb with hi | ⟨e, he, hex, hfront⟩
    · exact Or.inl hi
    · have htaken : ∀ s, ofSource s taken <+: sent s := fun s => (h.behind.filterMap _).trans (hsent s)
      rcases stems_of_written hm htaken he hex with hi | ⟨s, n, l, k, hstems, -, hplace⟩
      · exact Or.inl hi
      · rw [hfront] at hl ⊢
        obtain ⟨i, hk, hi⟩ := hplace hl
        exact Or.inr ⟨s, n, l, k, i, hstems, hk, hi⟩
  inOrder s := by
    rw [filterMap_merged h.filed fun _ => rfl]
    exact (places_pairwise hm taken s).1

end Writer

variable [World σ]

open Writer

/-- At every moment of a capture of several sources, whatever the order in which they deliver
    and wherever files change: as long as no output failed, every file describes itself. So it
    does after a stop at that moment. -/
theorem merged_output_attributed {c : Config} {h : Host} {w : σ} {x : Writer} {l : Ledger σ}
    (hs : startCapture c h (Ledger.blank w) = (.ok x, l)) (hn : 1 < c.sources.length) {is : List Input}
    (hw : Within c.sources.length is) :
    ((run is x l).1.outputError = none →
        ∃ files, SelfDescribing (mergedHeader h) (fun s => sent s is) (run is x l).2.contents files) ∧
      (((run is x l).1.conclude (run is x l).2).1.outputError = none →
        ∃ files, SelfDescribing (mergedHeader h) (fun s => sent s is)
          ((run is x l).1.conclude (run is x l).2).2.contents files) := by
  have hst := startCapture_started hs
  have hm := ofCount_numbers hn h
  obtain ⟨taken, rest, order, hsplit, -, hp⟩ := run_passed l hst.sized hw
  obtain ⟨⟨flushed, hflush⟩, -⟩ := flush_passed (run is x l).2 hp.sized
  have hpf := hp.trans hflush
  have hsent : ∀ {js : List Input} {o : List (Nat × Block)} {b : Writer × Ledger σ},
      Passed c.sources.length (x, l) js o b → js = taken → ∀ s, ofSource s o <+: sent s is := by
    intro js o b hb hj s
    have hc := hb.conserved s
    rw [hst.held, List.nil_append, hj] at hc
    rw [hsplit, sent_append, ← hc, List.append_assoc]
    exact List.prefix_append _ _
  constructor
  · intro he
    obtain ⟨_, _, _, hk⟩ := hp.released.kept hst.kept
    exact ⟨_, hk.selfDescribing hm he (hsent hp rfl)⟩
  · intro he
    obtain ⟨_, _, _, hk⟩ := hpf.released.kept hst.kept
    rw [conclude_contents]
    exact ⟨_, hk.selfDescribing hm (outputError_of_conclude he) (hsent hpf (List.append_nil _))⟩

/-! ## Two sources and a ring of one file -/

def pairConfig : Config :=
  { Config.ofOutput "out.pcapng" with sources := [.stdin, .file "more.pcapng"], rotation := ⟨[.packets 1], some 1⟩ }

/-- Both sources have an interface, each of another kind, and send a packet that they call one
    of interface zero; then the one ends and the other fails. -/
def pairInputs : List Input :=
  let sectionHeader : Block := ⟨.littleEndian, [], .sectionHeader (SectionHeader.ofOptions [])⟩
  let interface (linktype : UInt16) : Block := ⟨.littleEndian, [], .interface (Interface.make linktype 0 [])⟩
  let packet (data : Bytes) : Block := ⟨.littleEndian, [], .packet .enhanced (Packet.ofData 0 data 0)⟩
  [.block 0 sectionHeader, .block 1 sectionHeader, .block 1 (interface 1), .block 0 (interface 101),
    .block 1 (packet [1, 2, 3]), .idle, .block 0 (packet [4]), .ended 1, .failed 0 "gone"]

theorem merged_output_attributed_pair : ∃ x l,
    startCapture pairConfig ⟨none, none⟩ (Ledger.blank (Machine.ofDisk .empty)) = (.ok x, l) ∧
      Within pairConfig.sources.length pairInputs ∧
      ((run pairInputs x l).1.conclude (run pairInputs x l).2).1.packets = 2 ∧
      ∃ files, SelfDescribing (mergedHeader ⟨none, none⟩) (fun s => sent s pairInputs)
        ((run pairInputs x l).1.conclude (run pairInputs x l).2).2.contents files := by
  have hw : Within pairConfig.sources.length pairInputs := by
    unfold Within
    decide
  obtain ⟨x, l, hs, hpackets, hok⟩ : ∃ x l,
      startCapture pairConfig ⟨none, none⟩ (Ledger.blank (Machine.ofDisk .empty)) = (.ok x, l) ∧
        ((run pairInputs x l).1.conclude (run pairInputs x l).2).1.packets = 2 ∧
        ((run pairInputs x l).1.conclude (run pairInputs x l).2).1.outputError = none :=
    ⟨_, _, rfl, by decide +kernel, by decide +kernel⟩
  exact ⟨x, l, hs, hw, hpackets, (merged_output_attributed hs (by decide) hw).2 hok⟩

end CaptureRing
