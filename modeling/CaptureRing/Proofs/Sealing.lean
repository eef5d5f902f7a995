/-
  CaptureRing.Proofs.Sealing — what the output files of a capture begin with.

  A file is sealed when the next one is opened, and should be a capture of its own by then. That of
  several sources is: every file starts with our own section header. That of a single source starts
  with the context of its first block, which is a header of the source, or with a block that is one
  itself. There is one file that neither comes to: the first is opened before the source has sent
  anything, and starts with nothing. If it meets a trigger before the first block, that block goes
  to the next file, and an empty file stays behind. Only an age is met by a file that holds
  nothing, or a size of zero.

  Proved, for a ledger over any world:
  - `SeededInTurn.exists_header`: a file with a block of the source begins with a header of it;
  - `Released.unwritten`: without such a trigger no file is left behind empty;
  - `files_begin_with_header`: what the files of a capture begin with, with this exception;
  - `first_file_sealed_empty`: the exception.
-/

import CaptureRing.Proofs.Attribution
import CaptureRing.Proofs.Balance
import CaptureRing.Proofs.Legibility

namespace CaptureRing

/-! ## Triggers -/

/-- A file that holds nothing can meet it: an age, or no size at all. -/
def Trigger.metByNothing : Trigger → Bool
  | .packets n | .bytes n => n = 0
  | .duration _ => true

namespace Output

variable {σ : Type} [World σ]

theorem metByNothing_of_meets {now : Nat} {f : OutputFile} {t : Trigger} (hb : f.bytes = 0) (hp : f.packets = 0)
    (h : meets now f t = true) : t.metByNothing = true := by
  cases t with
  | packets n | bytes n =>
    have hle := of_decide_eq_true h
    simp only [hb, hp, Nat.le_zero] at hle
    exact decide_eq_true (UInt64.toNat_inj.mp hle)
  | duration d => rfl

/-- A file that has just met a trigger has met one of the policy. -/
theorem exists_trigger {o : Output} {w : σ} (h : (o.checkRotation w).1 = true) :
    ∃ f t now, o.current = some f ∧ t ∈ o.policy.triggers ∧ meets now f t = true := by
  generalize hr : o.checkRotation w = r at h
  cases hr ▸ o.look_cases w with
  | idle _ | unmet _ _ _ => cases h
  | met _ hf ht hmeets => exact ⟨_, _, _, hf, ht, hmeets⟩

end Output

/-! ## The files of a single source -/

/-- Only the first file can be one to which no block was written. -/
theorem Filed.entries_ne_nil {m : Merger} {order : List (Nat × Block)} {vols earlier later : List Volume} {v : Volume}
    (h : Filed m order vols) (hv : vols = earlier ++ v :: later) (hne : earlier ≠ []) : v.entries ≠ [] := by
  induction h generalizing v later with
  | start =>
    rcases snoc_eq_append_cons (l := []) hv with ⟨-, -, he⟩ | ⟨_, -, he⟩
    · exact absurd he.symm hne
    · exact absurd he.symm (List.append_ne_nil_of_right_ne_nil _ (List.cons_ne_nil _ _))
  | skip source b _ _ ih => exact ih hv
  | put source b _ _ ih =>
    rcases snoc_eq_append_cons hv with ⟨-, rfl, rfl⟩ | ⟨later', -, rfl⟩
    · exact List.append_ne_nil_of_right_ne_nil _ (List.cons_ne_nil _ _)
    · exact ih (by rw [List.append_assoc, List.cons_append])
  | turn source b _ _ ih =>
    rcases snoc_eq_append_cons hv with ⟨-, rfl, rfl⟩ | ⟨later', -, rfl⟩
    · exact List.cons_ne_nil _ _
    · exact ih rfl

/-- A file to which no block was written is the first one, and holds nothing. -/
theorem Filed.content_of_untouched {m : Merger} {order : List (Nat × Block)} {before after : List Volume} {v : Volume}
    (hm : m.PassesOn) (h : Filed m order (before ++ v :: after)) (hown : v.part.own = []) :
    before = [] ∧ v.part.content = [] := by
  have hentries : v.entries = [] := List.map_eq_nil_iff.mp hown
  obtain rfl : before = [] := by
    by_contra hne
    exact h.entries_ne_nil rfl hne hentries
  have hsplit : ([] ++ v :: after).map Volume.part = [] ++ v.part :: after.map Volume.part := rfl
  have hseed : v.part.seed = [] := (seed_parts hm h hsplit).trans (seedBlocks_nil _)
  refine ⟨rfl, ?_⟩
  unfold Part.content Part.blocks
  rw [hseed, hown]
  rfl

/-- Where a block of the source stands in it, a file begins with a header of the source. -/
theorem SeededInTurn.exists_header {parts earlier later : List Part} {p : Part} {stream : List Block}
    (h : SeededInTurn parts) (hstarts : ∀ b rest, stream = b :: rest → b.startsSection = true)
    (hown : parts.flatMap (·.own) <+: stream) (hp : parts = earlier ++ p :: later) (hne : p.own ≠ []) :
    ∃ b rest, p.blocks = b :: rest ∧ b.startsSection = true ∧ b ∈ stream := by
  obtain ⟨first, others, hfirst⟩ := List.exists_cons_of_ne_nil hne
  have hprefix : earlier.flatMap (·.own) ++ first :: (others ++ later.flatMap (·.own)) <+: stream := by
    rw [hp, List.flatMap_append, List.flatMap_cons, hfirst] at hown
    exact hown
  have hseed := h earlier p later hp
  rw [hfirst] at hseed
  unfold Part.blocks
  cases hs : first.startsSection with
  | true =>
    have hnone : p.seed = [] := hseed.trans (if_pos hs)
    refine ⟨first, others, by rw [hnone, hfirst]; rfl, hs, hprefix.subset ?_⟩
    exact List.mem_append_right _ List.mem_cons_self
  | false =>
    have hcontext : p.seed = contextOf (earlier.flatMap (·.own)) :=
      hseed.trans (if_neg (by rw [List.head?_cons, Option.any_some, hs]; exact Bool.false_ne_true))
    cases hbefore : earlier.flatMap (·.own) with
    | nil =>
      rw [hbefore, List.nil_append] at hprefix
      obtain ⟨rest, hrest⟩ := hprefix
      rw [hstarts first _ hrest.symm] at hs
      cases hs
    | cons head tail =>
      rw [hbefore] at hprefix hcontext
      obtain ⟨rest, hrest⟩ := hprefix
      obtain ⟨b, hb⟩ := Option.isSome_iff_exists.mp (governing?_isSome (hstarts head _ hrest.symm) tail)
      have hblocks : contextOf (head :: tail) = b :: described (head :: tail) := by
        unfold contextOf
        rw [hb]
        rfl
      refine ⟨b, described (head :: tail) ++ p.own, by rw [hcontext, hblocks]; rfl, startsSection_of_governing? hb, ?_⟩
      rw [← hrest]
      exact List.mem_append_left _ (List.mem_append_left _ (mem_of_mem_contextOf (hblocks ▸ List.mem_cons_self)))

namespace Stream

theorem Legible.raw_pos {format : StreamFormat} {order : Option ByteOrder} {bs : List Block}
    (h : Legible format order bs) : ∀ b ∈ bs, 0 < b.raw.length := by
  induction h with
  | nil => exact fun b hb => absurd hb List.not_mem_nil
  | cons hb _ ih => exact List.forall_mem_cons.mpr ⟨hb.raw_pos, ih⟩

theorem raw_pos_of_mem_accepted {r : Reader} {b : Block} (h : b ∈ (ofReader r).accepted) : 0 < b.raw.length := by
  rcases accepted_legible r with hnone | ⟨format, first, order, rest, hall, hopens, hlegible⟩
  · rw [hnone] at h
    cases h
  · rw [hall] at h
    rcases List.mem_cons.mp h with rfl | h
    · exact Nat.lt_of_lt_of_le (Nat.zero_lt_succ 3) hopens.four_le_length
    · exact hlegible.raw_pos b h

end Stream

/-! ## The first file, before anything is written -/

/-- A write to the last of these files leaves the first one empty only if there are others. -/
theorem exists_of_head_modifyLast {contents : List Bytes} {data : Bytes} (hdata : data ≠ [])
    (h : (contents.modifyLast (· ++ data)).head? = some []) : ∃ rest, rest ≠ [] ∧ contents = [] :: rest := by
  rcases List.eq_nil_or_concat contents with rfl | ⟨others, last, rfl⟩
  · cases h
  · rw [List.concat_eq_append] at h ⊢
    rw [List.modifyLast_concat] at h
    cases others with
    | nil => exact absurd (List.append_eq_nil_iff.mp (Option.some.inj h)).2 hdata
    | cons first others =>
      obtain rfl : first = [] := Option.some.inj h
      exact ⟨others ++ [last], List.append_ne_nil_of_right_ne_nil _ (List.cons_ne_nil _ _), rfl⟩

section Unwritten

variable {σ : Type}

/-- A capture of a single source with these triggers. For as long as its only file is empty the file
    counts nothing and is not rotating; and an empty first file has no other behind it. -/
structure Unwritten (triggers : List Trigger) (x : Writer) (l : Ledger σ) : Prop where
  merger : ∃ p, x.merger = .passthrough p
  triggers : x.output.policy.triggers = triggers
  counts : l.contents = [[]] → ∃ f, x.output.current = some f ∧ f.bytes = 0 ∧ f.packets = 0
  state : l.contents = [[]] → x.output.state ≠ .rotating
  alone : l.contents.head? = some [] → l.contents = [[]]

variable {triggers : List Trigger} {x x' : Writer} {l l' : Ledger σ}

theorem Unwritten.of_same (h : Unwritten triggers x l) (hmerger : ∃ p, x'.merger = .passthrough p)
    (houtput : x'.output = x.output) (hfiles : l'.files = l.files) : Unwritten triggers x' l' := by
  have hcontents : l'.contents = l.contents := congrArg (List.map LedgerFile.content) hfiles
  refine ⟨hmerger, houtput ▸ h.triggers, ?_, ?_, ?_⟩
  · rw [hcontents, houtput]
    exact h.counts
  · rw [hcontents, houtput]
    exact h.state
  · rw [hcontents]
    exact h.alone

/-- Once the first file holds something, or is not the last one, it is no longer of concern. -/
theorem Unwritten.of_head (hmerger : ∃ p, x.merger = .passthrough p) (htriggers : x.output.policy.triggers = triggers)
    (hhead : l.contents.head? ≠ some []) : Unwritten triggers x l := by
  have hne : l.contents ≠ [[]] := by
    intro he
    rw [he] at hhead
    exact hhead rfl
  exact ⟨hmerger, htriggers, fun he => absurd he hne, fun he => absurd he hne, fun he => absurd he hhead⟩

variable [World σ]

theorem Unwritten.handle (h : Unwritten triggers x l) (source : Nat) {b : Block} (hb : b.raw ≠ [])
    (he : (x.handle source b l).1.outputError = none) :
    Unwritten triggers (x.handle source b l).1 (x.handle source b l).2 := by
  obtain ⟨p, hp⟩ := h.merger
  have hgives : x.merger.gives source b = some b.raw := by
    rw [hp]
    rfl
  have hmerger : ∀ {n : Nat} {y : Writer}, Writer.Advanced source b n x y → ∃ p, y.merger = .passthrough p := by
    intro n y hy
    rw [hy.merger, hp]
    exact ⟨_, rfl⟩
  cases Writer.handle_cases source b x l with
  | ended _ hr =>
    rw [hr]
    exact h
  | skipped _ hg =>
    rw [hgives] at hg
    cases hg
  | @put data _ hg _ ha hl hshelf =>
    obtain rfl : b.raw = data := Option.some.inj (hgives.symm.trans hg)
    refine .of_head (hmerger ha) ((congrArg _ hshelf.policy).trans h.triggers) fun hhead => ?_
    rw [Ledger.contents_note hl] at hhead
    obtain ⟨rest, hrest, hcontents⟩ := exists_of_head_modifyLast hb hhead
    have halone := h.alone (by rw [hcontents]; rfl)
    rw [hcontents] at halone
    exact hrest (List.cons.inj halone).2
  | @turned data o l₁ path ring _ hg hs ha _ ho hl hshelf =>
    obtain rfl : b.raw = data := Option.some.inj (hgives.symm.trans hg)
    refine .of_head (hmerger ha) ((congrArg _ (hshelf.policy.trans ho.policy)).trans h.triggers) fun hhead => ?_
    have hopened : l₁.contents = l.contents ++ [x.merger.seed (some b)] := by
      unfold Ledger.contents
      rw [ho.files, List.map_append, List.map_singleton, LedgerFile.content_seeded]
    rw [Ledger.contents_note hl] at hhead
    obtain ⟨rest, hrest, hcontents⟩ := exists_of_head_modifyLast hb hhead
    rw [hopened] at hcontents
    -- the file before the new one was the only one, and a file that is not rotating is not followed by another
    cases hold : l.contents with
    | nil =>
      rw [hold] at hcontents
      exact hrest (List.cons.inj hcontents).2.symm
    | cons first others =>
      rw [hold] at hcontents
      obtain rfl : first = [] := (List.cons.inj hcontents).1
      exact h.state (h.alone (by rw [hold]; rfl)) hs
  | failed _ _ hfailed =>
    rw [he] at hfailed
    cases hfailed

theorem Unwritten.lookOver (h : Unwritten triggers x l) (hnone : ∀ t ∈ triggers, t.metByNothing = false) :
    Unwritten triggers (x.lookOver l).1 (x.lookOver l).2 := by
  have hfiles : (x.lookOver l).2.files = l.files := (Writer.lookOver_keeps x l).1
  have hcontents : (x.lookOver l).2.contents = l.contents := congrArg (List.map LedgerFile.content) hfiles
  refine ⟨h.merger, (congrArg _ (Writer.lookOver_keeps x l).2.2.2.2.1.policy).trans h.triggers, ?_, ?_, ?_⟩
  · intro hc
    rw [hcontents] at hc
    obtain ⟨f, hf, hcounts⟩ := h.counts hc
    exact ⟨f, (Output.checkRotation_current x.output l).trans hf, hcounts⟩
  · intro hc hs
    rw [hcontents] at hc
    obtain ⟨f, hf, hbytes, hpackets⟩ := h.counts hc
    have hmet : (x.output.checkRotation l).1 = true :=
      (Output.checkRotation_met (h.state hc) l).symm.trans (decide_eq_true hs)
    obtain ⟨g, t, now, hg, ht, hmeets⟩ := Output.exists_trigger hmet
    obtain rfl : f = g := Option.some.inj (hf.symm.trans hg)
    rw [h.triggers] at ht
    have := Output.metByNothing_of_meets hbytes hpackets hmeets
    rw [hnone t ht] at this
    cases this
  · rw [hcontents]
    exact h.alone

/-- Where no trigger is met by nothing, no file is left behind empty. -/
theorem Writer.Released.unwritten {a b : Writer × Ledger σ} {order : List (Nat × Block)} (h : Released a order b)
    (hraw : ∀ e ∈ order, e.2.raw ≠ []) (hnone : ∀ t ∈ triggers, t.metByNothing = false)
    (ha : Unwritten triggers a.1 a.2) (he : b.1.outputError = none) : Unwritten triggers b.1 b.2 := by
  induction h with
  | start => exact ha
  | @block order x l source b _ ih =>
    have hx : x.outputError = none := Course.outputError_of_take (s := ⟨[], x, l⟩) (e := (source, b)) he
    have hkept := ih (fun e he => hraw e (List.mem_append_left _ he)) hx
    exact hkept.handle source (hraw (source, b) (List.mem_append_right _ (List.mem_singleton_self _))) he
  | clock _ ih => exact (ih hraw he).of_same (ih hraw he).merger rfl rfl
  | aside live preamble sourceErrors _ ih => exact (ih hraw he).of_same (ih hraw he).merger rfl rfl
  | look _ ih => exact (ih hraw he).lookOver hnone

variable {c : Config} {h : Host} {w : σ}

/-- A single source gives nothing to begin with, so the first file starts empty. -/
theorem Writer.startCapture_unwritten (hs : startCapture c h (Ledger.blank w) = (.ok x, l)) (hn : c.sources.length = 1) :
    Unwritten c.rotation.triggers x l := by
  have hst := startCapture_started hs
  have hmerger : x.merger = .passthrough Passthrough.empty := by
    rw [hst.merger, hn]
    rfl
  have hseed : x.merger.seed none = [] := by
    rw [hmerger]
    rfl
  obtain ⟨_, _, hopen⟩ := startCapture_openNext hs
  obtain ⟨f, hf, hbytes, hpackets⟩ := Output.openNext_counts hopen
  obtain ⟨path, ring, l₀, hl₀, -, ho⟩ := hst.opened
  rw [hseed] at hbytes ho
  have hcontents : l.contents = [[]] := by
    unfold Ledger.contents
    rw [ho.files, hl₀]
    rfl
  exact ⟨⟨_, hmerger⟩, congrArg RotationPolicy.triggers ho.policy, fun _ => ⟨f, hf, hbytes, hpackets⟩,
    fun _ => by rw [ho.state]; exact nofun, fun _ => hcontents⟩

end Unwritten

/-! ## What the files begin with -/

theorem mergedHeader_pos (h : Host) : 0 < (mergedHeader h).length := by
  unfold mergedHeader SectionHeader.encode
  rw [length_frame]
  omega

inductive Begins (c : Config) (h : Host) (stream : List Block) (earlier later : List Bytes) : Bytes → Prop
  /-- With our own section header, where there are several sources. -/
  | merged {content : Bytes} : 1 < c.sources.length → 0 < (mergedHeader h).length → mergedHeader h <+: content →
      Begins c h stream earlier later content
  /-- With a header of the source, where there is one. -/
  | passed {b : Block} {content : Bytes} : c.sources.length = 1 → b ∈ stream → b.startsSection = true →
      0 < b.raw.length → b.raw <+: content → Begins c h stream earlier later content
  /-- With nothing, where it is the first file of a single source, and nothing was written to it. It
      is left behind like that only by a trigger that is met by nothing. -/
  | unwritten : c.sources.length = 1 → earlier = [] →
      (later ≠ [] → ∃ t ∈ c.rotation.triggers, t.metByNothing = true) → Begins c h stream earlier later []

def AllBegin (c : Config) (h : Host) (stream : List Block) (contents : List Bytes) : Prop :=
  ∀ earlier content later, contents = earlier ++ content :: later → Begins c h stream earlier later content

namespace Writer

variable {σ : Type} {c : Config} {h : Host} {y : Writer} {l : Ledger σ} {order taken : List (Nat × Block)}
  {vols : List Volume} {vain : List (List Bytes)}

theorem Kept.begin_merged (hn : 1 < c.sources.length)
    (hk : Kept (Merger.ofCount h c.sources.length) order y l taken vols vain) (he : y.outputError = none)
    (stream : List Block) : AllBegin c h stream l.contents := by
  intro earlier content later hcontents
  obtain rfl := hk.noneInVain he
  have hmem : content ∈ l.contents := by
    rw [hcontents]
    exact List.mem_append_right _ List.mem_cons_self
  rw [l.contents_eq, hk.writes, List.append_nil, List.map_map] at hmem
  obtain ⟨v, -, rfl⟩ := List.mem_map.mp hmem
  refine .merged hn (mergedHeader_pos h) ?_
  show mergedHeader h <+: (v.writes _).flatten
  rw [v.flatten_merged (ofCount_numbers hn h)]
  exact List.prefix_append _ _

/-- A moment of a capture of a single source, up to which these blocks of its stream were taken. -/
theorem Kept.begin_passed {r : Reader} {bs : Bytes} (hn : c.sources.length = 1)
    (hk : Kept (Merger.ofCount h 1) order y l taken vols vain) (he : y.outputError = none) (hr : r.Delivers bs)
    (hstream : order.map (·.2) <+: (Stream.ofReader r).accepted)
    (hunwritten : (∀ t ∈ c.rotation.triggers, t.metByNothing = false) → Unwritten c.rotation.triggers y l) :
    AllBegin c h (Stream.ofReader r).accepted l.contents := by
  intro earlier content later hcontents
  obtain ⟨idle, hparts, hidle, hholds⟩ := hk.holds (ofCount_passesOn h) hstream
  rw [hidle he, List.append_nil] at hparts
  rw [hparts, List.map_map] at hcontents
  obtain ⟨before, rest, rfl, rfl, hrest⟩ := List.map_eq_append_iff.mp hcontents
  obtain ⟨v, after, rfl, rfl, rfl⟩ := List.map_eq_cons_iff.mp hrest
  have hsplit : (before ++ v :: after).map Volume.part = before.map Volume.part ++ v.part :: after.map Volume.part := by
    rw [List.map_append, List.map_cons]
  by_cases hown : v.part.own = []
  · obtain ⟨rfl, hempty⟩ := hk.filed.content_of_untouched (ofCount_passesOn h) hown
    have hcontent : (Part.content ∘ Volume.part) v = [] := hempty
    rw [hcontent]
    refine .unwritten hn rfl fun hlater => ?_
    by_contra hnone
    have hall : ∀ t ∈ c.rotation.triggers, t.metByNothing = false := fun t ht =>
      Bool.eq_false_iff.mpr fun hmet => hnone ⟨t, ht, hmet⟩
    have hcontents : l.contents = [] :: after.map (Part.content ∘ Volume.part) := by
      rw [hparts, List.map_map, List.nil_append, List.map_cons, hcontent]
    have halone := (hunwritten hall).alone (by rw [hcontents]; rfl)
    rw [hcontents] at halone
    exact hlater (List.cons.inj halone).2
  · obtain ⟨b, others, hblocks, hstarts, hb⟩ := hholds.seeded.exists_header
      (fun b rest => Stream.startsSection_of_head_accepted hr) hholds.own hsplit hown
    refine .passed hn hb hstarts (Stream.raw_pos_of_mem_accepted hb) ?_
    show b.raw <+: v.part.content
    unfold Part.content
    rw [hblocks, List.flatMap_cons]
    exact List.prefix_append _ _

end Writer

/-! ## Whole captures -/

open Writer

variable {σ : Type} [World σ] {c : Config} {h : Host} {w : σ} {x : Writer} {l : Ledger σ}

theorem Writer.sources_pos_of_startCapture {w' : σ} (hs : startCapture c h w = (.ok x, w')) : 0 < c.sources.length := by
  unfold startCapture at hs
  split at hs
  · cases hs
  · rename_i hne
    exact List.length_pos_iff.mpr fun he => hne (List.isEmpty_iff.mpr he)

/-- At every moment of a capture that has not failed, and also after a stop at that moment: the
    files of several sources begin with our own section header, and those of a single source with
    one of its headers, packets or not. Only the first file of a single source may be empty; and it
    is sealed like that only by a trigger that a file which holds nothing can meet. -/
theorem files_begin_with_header (hs : startCapture c h (Ledger.blank w) = (.ok x, l)) {is : List Input}
    (hw : Within c.sources.length is) {r : Reader} {bs : Bytes} (hr : r.Delivers bs)
    (hi : c.sources.length = 1 → is.filter (· ≠ .idle) <+: (Stream.ofReader r).run.map fun p => inputOf 0 p.1) :
    ((run is x l).1.outputError = none → AllBegin c h (Stream.ofReader r).accepted (run is x l).2.contents) ∧
      (((run is x l).1.conclude (run is x l).2).1.outputError = none →
        AllBegin c h (Stream.ofReader r).accepted ((run is x l).1.conclude (run is x l).2).2.contents) := by
  have hst := startCapture_started hs
  obtain ⟨taken, rest, order, hsplit, -, hp⟩ := run_passed l hst.sized hw
  obtain ⟨⟨flushed, hflush⟩, -⟩ := flush_passed (run is x l).2 hp.sized
  have hpf := hp.trans hflush
  rw [List.append_nil] at hpf
  suffices hbegin : ∀ {o : List (Nat × Block)} {s : Writer × Ledger σ}, Passed c.sources.length (x, l) taken o s →
      s.1.outputError = none → AllBegin c h (Stream.ofReader r).accepted s.2.contents by
    refine ⟨hbegin hp, fun he => ?_⟩
    rw [conclude_contents]
    exact hbegin hpf (outputError_of_conclude he)
  intro o s hpassed he
  obtain ⟨_, _, _, hk⟩ := hpassed.released.kept hst.kept
  rcases Nat.lt_or_eq_of_le (sources_pos_of_startCapture hs) with hn | hn
  · exact hk.begin_merged hn he _
  · have hone := hn.symm
    rw [hone] at hpassed hk
    have hstream := order_prefix_accepted hpassed (hst.held 0) hsplit (hi hone)
    have hraw : ∀ e ∈ o, e.2.raw ≠ [] := fun e he =>
      List.ne_nil_of_length_pos (Stream.raw_pos_of_mem_accepted (hstream.subset (List.mem_map_of_mem he)))
    exact hk.begin_passed hone he hr hstream fun hnone =>
      hpassed.released.unwritten hraw hnone (startCapture_unwritten hs hone) he

/-- The capture of `loneInputs` has a file for each packet, and waits before the first of them. -/
theorem files_begin_with_header_lone : ∃ x l,
    startCapture loneConfig ⟨none, none⟩ (Ledger.blank (Machine.ofDisk .empty)) = (.ok x, l) ∧
      ((run loneInputs x l).1.conclude (run loneInputs x l).2).2.contents.length = 3 ∧
      AllBegin loneConfig ⟨none, none⟩ (Stream.ofReader (Reader.ofBytes loneStream)).accepted
        ((run loneInputs x l).1.conclude (run loneInputs x l).2).2.contents := by
  have hi : loneInputs.filter (· ≠ .idle) <+:
      (Stream.ofReader (Reader.ofBytes loneStream)).run.map fun p => inputOf 0 p.1 := by
    decide +kernel
  obtain ⟨x, l, hs, hfiles, herror⟩ : ∃ x l,
      startCapture loneConfig ⟨none, none⟩ (Ledger.blank (Machine.ofDisk .empty)) = (.ok x, l) ∧
        ((run loneInputs x l).1.conclude (run loneInputs x l).2).2.contents.length = 3 ∧
        ((run loneInputs x l).1.conclude (run loneInputs x l).2).1.outputError = none :=
    ⟨_, _, rfl, by decide +kernel⟩
  obtain ⟨-, hend⟩ := files_begin_with_header hs (within_of_stream hi) (Reader.ofBytes_delivers loneStream) fun _ => hi
  exact ⟨x, l, hs, hfiles, hend herror⟩

/-- Files that change with their age, and one is old enough after a hundred nanoseconds. -/
def agedConfig : Config := { loneConfig with rotation := ⟨[.duration ⟨100, by decide⟩], none⟩ }

/-- The same inputs, where files change with their age: when the first poll interval is over the
    first file is old enough, so the header of the source goes to the second one, and the first is
    sealed without a byte. Nothing fails. -/
theorem first_file_sealed_empty : ∃ x l,
    startCapture agedConfig ⟨none, none⟩ (Ledger.blank (Machine.ofDisk .empty)) = (.ok x, l) ∧
      loneInputs.filter (· ≠ .idle) <+: ((Stream.ofReader (Reader.ofBytes loneStream)).run.map fun p => inputOf 0 p.1) ∧
      ((run loneInputs x l).1.conclude (run loneInputs x l).2).1.outputError = none ∧
      ((run loneInputs x l).1.conclude (run loneInputs x l).2).2.contents.length = 4 ∧
      ((run loneInputs x l).1.conclude (run loneInputs x l).2).2.contents.head? = some [] := by
  refine ⟨_, _, rfl, by decide +kernel, ?_⟩
  decide +kernel

end CaptureRing
