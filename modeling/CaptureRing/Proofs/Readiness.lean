/-
  CaptureRing.Proofs.Readiness — interfaces are numbered alike, whatever comes first.

  The preamble holds everything back until each source has shown its interfaces: until it has
  sent a packet, has ended or has failed. If that is what ends the preamble, and neither a quiet
  source nor a tick nor a stop does, then each source has by then sent all that it sends before
  its first packet. These blocks go through the merger first, source by source; so the table
  of interfaces begins the same in whatever order the sources were heard.

  Proved:
  - `holding_run`: as long as the preamble is held it has all that was sent, and nothing
    has gone through the merger;
  - `released_when_ready`: with the last source that was waited for, everything held goes through
    the merger in order, and what comes later behind it;
  - `numbering_independent_of_timing`: two captures of the same sources, heard in any two orders,
    begin their tables alike.
-/

import CaptureRing.Proofs.Context
import CaptureRing.Proofs.Course
import CaptureRing.Proofs.Delivery
import Mathlib.Data.List.TakeWhile

namespace CaptureRing

/-! ## What a source has shown -/

/-- After this nothing more is awaited of the source: a packet, its end or its failure. -/
def Input.shows (s : Nat) : Input → Bool
  | block t b => t == s && b.isPacket
  | ended t | failed t _ => t == s
  | idle | disconnected => false

def Shown (s : Nat) (is : List Input) : Prop := ∃ i ∈ is, i.shows s = true

theorem shown_snoc {s : Nat} {is : List Input} {i : Input} :
    Shown s (is ++ [i]) ↔ Shown s is ∨ i.shows s = true := by
  unfold Shown
  constructor
  · rintro ⟨j, hj, hs⟩
    rcases List.mem_append.mp hj with hj | hj
    · exact Or.inl ⟨j, hj, hs⟩
    · exact Or.inr (List.mem_singleton.mp hj ▸ hs)
  · rintro (⟨j, hj, hs⟩ | hs)
    · exact ⟨j, List.mem_append_left _ hj, hs⟩
    · exact ⟨i, List.mem_append_right _ (List.mem_singleton_self i), hs⟩

namespace Preamble

def ReadyAt (s : Nat) (p : Preamble) : Prop := ∀ h, p.sources[s]? = some h → h.ready = true

variable {p : Preamble} {s : Nat}

theorem allReady_iff : p.allReady = true ↔ ∀ s < p.sources.length, p.ReadyAt s := by
  unfold allReady
  rw [List.all_eq_true]
  constructor
  · intro h s _ g hg
    exact h g (List.mem_of_getElem? hg)
  · intro h g hg
    obtain ⟨s, hs⟩ := List.getElem?_of_mem hg
    exact h s (List.getElem?_eq_some_iff.mp hs).1 g hs

theorem allReady_start {n : Nat} (hn : 0 < n) (began : Nat) : (start n began).allReady = false := by
  rw [Bool.eq_false_iff, ne_eq, allReady_iff]
  intro h
  have hfirst := h 0 (by rw [start, List.length_replicate]; exact hn) HeldSource.empty
    (by rw [start, List.getElem?_replicate, if_pos hn])
  cases hfirst

theorem ReadyAt.expire (h : p.ReadyAt s) (now wait : Nat) : (p.expire now wait).ReadyAt s := by
  intro g hg
  unfold Preamble.expire at hg
  rw [List.getElem?_map, Option.map_eq_some_iff] at hg
  obtain ⟨g', hg', rfl⟩ := hg
  unfold HeldSource.expire
  rw [h g' hg']
  rfl

/-- What changes the state of one source for the better leaves all ready that were. -/
theorem ReadyAt.modify {f : HeldSource → HeldSource} (hf : ∀ g, g.ready = true → (f g).ready = true) (h : p.ReadyAt s)
    (source : Nat) : ReadyAt s { p with sources := p.sources.modify source f } := by
  intro g hg
  rw [List.getElem?_modify] at hg
  obtain ⟨g', hg', rfl⟩ := Option.map_eq_some_iff.mp hg
  split
  · exact hf g' (h g' hg')
  · exact h g' hg'

theorem readyAt_modify {f : HeldSource → HeldSource} (hf : ∀ g, (f g).ready = true) (p : Preamble) (s : Nat) :
    ReadyAt s { p with sources := p.sources.modify s f } := by
  intro g hg
  rw [List.getElem?_modify] at hg
  obtain ⟨g', -, rfl⟩ := Option.map_eq_some_iff.mp hg
  rw [if_pos rfl]
  exact hf g'

theorem ReadyAt.push (h : p.ReadyAt s) (source : Nat) (b : Block) (now : Nat) : (p.push source b now).ReadyAt s :=
  h.modify (fun g hg => by unfold HeldSource.push; rw [hg]; rfl) source

theorem readyAt_push {b : Block} (hb : b.isPacket = true) (p : Preamble) (s now : Nat) : (p.push s b now).ReadyAt s :=
  readyAt_modify (fun g => by unfold HeldSource.push; rw [hb]; exact Bool.or_true _) p s

end Preamble

/-! ## A preamble that holds everything -/

structure Holding (n : Nat) (is : List Input) (p : Preamble) : Prop where
  sized : p.sources.length = n
  held : ∀ s, p.heldOf s = sent s is
  ready : ∀ s, Shown s is → p.ReadyAt s

namespace Holding

variable {n : Nat} {is : List Input} {p : Preamble}

theorem start (n began : Nat) : Holding n [] (Preamble.start n began) := by
  refine ⟨List.length_replicate, fun s => Preamble.heldOf_start n began s, fun s hs => ?_⟩
  obtain ⟨i, hi, -⟩ := hs
  exact absurd hi List.not_mem_nil

theorem push (h : Holding n is p) {source : Nat} (hs : source < n) (b : Block) (now : Nat) :
    Holding n (is ++ [.block source b]) (p.push source b now) := by
  refine ⟨(List.length_modify _ _ _).trans h.sized, fun s => ?_, fun s hshown => ?_⟩
  · rw [Preamble.heldOf_push source b now p (by rw [h.sized]; exact hs), h.held, sent_append]
    congr 1
    exact (ofSource_singleton s source b).symm
  · rcases shown_snoc.mp hshown with hbefore | hi
    · exact (h.ready s hbefore).push source b now
    · obtain ⟨ht, hb⟩ := Bool.and_eq_true_iff.mp hi
      rw [eq_of_beq ht]
      exact Preamble.readyAt_push hb p s now

theorem markReady (h : Holding n is p) {source : Nat} {i : Input} (hn : i.arrival? = none)
    (hi : ∀ s, i.shows s = (source == s)) : Holding n (is ++ [i]) (p.markReady source) := by
  refine ⟨(List.length_modify _ _ _).trans h.sized, fun s => ?_, fun s hshown => ?_⟩
  · rw [Preamble.heldOf_markReady, h.held, sent_append]
    simp [sent, arrivals, hn]
  · rcases shown_snoc.mp hshown with hbefore | hs
    · exact (h.ready s hbefore).modify (fun g _ => rfl) source
    · rw [hi] at hs
      rw [eq_of_beq hs]
      exact Preamble.readyAt_modify (fun g => rfl) p s

theorem expire (h : Holding n is p) (now wait : Nat) : Holding n is (p.expire now wait) := by
  refine ⟨(List.length_map _).trans h.sized, fun s => ?_, fun s hshown => (h.ready s hshown).expire now wait⟩
  rw [Preamble.heldOf_expire, h.held]

theorem snoc (h : Holding n is p) {i : Input} (hn : i.arrival? = none) (hi : ∀ s, i.shows s = false) :
    Holding n (is ++ [i]) p := by
  refine ⟨h.sized, fun s => ?_, fun s hshown => ?_⟩
  · rw [h.held, sent_append]
    simp [sent, arrivals, hn]
  · rcases shown_snoc.mp hshown with hbefore | hs
    · exact h.ready s hbefore
    · rw [hi] at hs
      cases hs

theorem allReady (h : Holding n is p) (hall : ∀ s < n, Shown s is) : p.allReady = true := by
  rw [Preamble.allReady_iff, h.sized]
  exact fun s hs => h.ready s (hall s hs)

end Holding

namespace Writer

variable {σ : Type} {n : Nat} {is : List Input} {p : Preamble} {x y : Writer} {w : σ}

/-! ## One input -/

inductive Turn (y : Writer) (p : Preamble) (g : List (Nat × Block) × Writer × σ) : Prop
  | kept (live : List Bool) (sourceErrors : List (Nat × String)) : g.1 = [] → p.allReady = false →
      g.2.1 = { y with live, preamble := some p, sourceErrors } → Turn y p g
  | released (live : List Bool) (sourceErrors : List (Nat × String)) : g.1 = p.inOrder →
      g.2.1 = { y with live, preamble := none, sourceErrors } → Turn y p g

theorem Turn.of_aside (live : List Bool) (sourceErrors : List (Nat × String)) {g : List (Nat × Block) × Writer × σ}
    (h : Turn { y with live, sourceErrors } p g) : Turn y p g := by
  cases h with
  | kept live' sourceErrors' hg hp hy => exact .kept live' sourceErrors' hg hp hy
  | released live' sourceErrors' hg hy => exact .released live' sourceErrors' hg hy

variable [World σ]

theorem await_turn (h : Holding n is p) (y : Writer) (w : σ) : ∃ p', Holding n is p' ∧ Turn y p' (await p y w) := by
  unfold await settle
  by_cases hp : p.allReady = true
  · rw [if_pos hp]
    exact ⟨p, h, .released y.live y.sourceErrors rfl rfl⟩
  · rw [if_neg hp]
    dsimp only
    refine ⟨_, h.expire (World.now w).1.instant y.poll.nanos, ?_⟩
    by_cases he : (p.expire (World.now w).1.instant y.poll.nanos).allReady = true
    · rw [if_pos he]
      exact .released y.live y.sourceErrors rfl rfl
    · rw [if_neg he]
      exact .kept y.live y.sourceErrors rfl (Bool.eq_false_iff.mpr he) rfl

theorem closeSource_turn (hp : y.preamble = some p) (h : Holding n is p) {source : Nat} {i : Input}
    (hn : i.arrival? = none) (hi : ∀ s, i.shows s = (source == s)) (w : σ) :
    ∃ p', Holding n (is ++ [i]) p' ∧ Turn y p' (closeSource source y w) := by
  unfold closeSource
  dsimp only
  rw [hp]
  obtain ⟨p', hp', ht⟩ := await_turn (h.markReady hn hi) { y with live := y.live.set source false } w
  exact ⟨p', hp', Turn.of_aside _ y.sourceErrors ht⟩

theorem gate_turn (hp : y.preamble = some p) (h : Holding n is p) (i : Input)
    (hi : ∀ s, i.source? = some s → s < n) (w : σ) : ∃ p', Holding n (is ++ [i]) p' ∧ Turn y p' (gate i y w) := by
  cases i with
  | block source b =>
    unfold gate
    dsimp only
    rw [hp]
    exact await_turn (h.push (hi source rfl) b _) y _
  | ended source => exact closeSource_turn hp h rfl (fun s => rfl) w
  | failed source error =>
    obtain ⟨p', hp', ht⟩ := closeSource_turn (y := { y with sourceErrors := y.sourceErrors ++ [(source, error)] }) hp h
      (i := .failed source error) rfl (fun s => rfl) w
    exact ⟨p', hp', Turn.of_aside y.live _ ht⟩
  | idle =>
    refine ⟨p, h.snoc rfl fun s => rfl, ?_⟩
    unfold gate letGo
    dsimp only
    rw [hp]
    exact .released y.live y.sourceErrors rfl rfl
  | disconnected =>
    refine ⟨p, h.snoc rfl fun s => rfl, ?_⟩
    unfold gate letGo
    dsimp only
    rw [hp]
    exact .released _ y.sourceErrors rfl rfl

theorem Gated.released {g : List (Nat × Block) × Writer × σ} (h : Gated y w g) : Released (y, w) [] g.2 := by
  obtain ⟨order, z, w'⟩ := g
  obtain ⟨⟨live, preamble, sourceErrors, hz⟩, hw⟩ := h
  dsimp only at hz hw
  subst hz
  rcases hw with rfl | rfl | rfl
  · exact Released.start.aside live preamble sourceErrors
  · exact Released.start.clock.aside live preamble sourceErrors
  · exact Released.start.clock.clock.aside live preamble sourceErrors

theorem step_preamble (i : Input) (y : Writer) (w : σ) : (step i y w).1.preamble = (gate i y w).2.1.preamble := by
  have hpass : (pass (gate i y w)).1.preamble = (gate i y w).2.1.preamble :=
    (foldl_handle_aside (gate i y w).1 (gate i y w).2).1
  rw [step_eq]
  split
  · exact hpass
  · exact hpass

theorem gate_of_none (h : y.preamble = none) (i : Input) (w : σ) : (gate i y w).2.1.preamble = none := by
  cases i with
  | block source b => simp [gate, h]
  | ended source => simp [gate, closeSource, h]
  | failed source error => simp [gate, closeSource, h]
  | idle => simp [gate, letGo, h]
  | disconnected => simp [gate, letGo, h]

/-! ## Any number of inputs -/

theorem run_append (is js : List Input) (x : Writer) (w : σ) :
    run (is ++ js) x w = run js (run is x w).1 (run is x w).2 := by
  unfold run
  rw [List.foldl_append]

theorem run_of_none (h : y.preamble = none) (is : List Input) (w : σ) : (run is y w).1.preamble = none := by
  induction is generalizing y w with
  | nil => exact h
  | cons i rest ih =>
    by_cases hf : y.isFinished = true
    · rw [run_of_isFinished hf]
      exact h
    · rw [run_cons (Bool.eq_false_iff.mpr hf)]
      refine ih ?_ _
      rw [step_preamble]
      exact gate_of_none h i w

theorem not_isFinished (hd : y.isDone = false) (hp : y.preamble = some p) : y.isFinished = false := by
  unfold isFinished
  rw [hd, hp]
  rfl

/-- As long as the preamble is held, it has all that came in, and nothing else has changed. -/
theorem holding_run (hx : x.isDone = false) (hp : x.preamble = some p) (hstart : Holding n [] p)
    (hwaits : p.allReady = false) (w : σ) {is : List Input} (hw : Within n is)
    (hsome : (run is x w).1.preamble.isSome = true) :
    ∃ p' live sourceErrors, (run is x w).1 = { x with live, preamble := some p', sourceErrors } ∧
      Holding n is p' ∧ p'.allReady = false ∧ Released (x, w) [] (run is x w) := by
  induction is using List.reverseRecOn with
  | nil =>
    refine ⟨p, x.live, x.sourceErrors, ?_, hstart, hwaits, .start⟩
    rw [← hp]
    rfl
  | append_singleton is i ih =>
    rw [run_append] at hsome ⊢
    have hwithin : Within n is := fun j hj => hw j (List.mem_append_left _ hj)
    have hbefore : (run is x w).1.preamble.isSome = true := by
      cases hnone : (run is x w).1.preamble with
      | some q => rfl
      | none =>
        rw [run_of_none hnone] at hsome
        cases hsome
    obtain ⟨q, live, sourceErrors, hy, hq, hqwaits, hreleased⟩ := ih hwithin hbefore
    have hpreamble : (run is x w).1.preamble = some q := by rw [hy]
    have hdone : (run is x w).1.isDone = false := by rw [hy]; exact hx
    rw [run_cons (not_isFinished hdone hpreamble)] at hsome ⊢
    rw [show ∀ z : Writer × σ, run [] z.1 z.2 = z from fun z => rfl] at hsome ⊢
    obtain ⟨q', hq', hturn⟩ := gate_turn hpreamble hq i (hw i (by simp)) (run is x w).2
    cases hturn with
    | released live' sourceErrors' hg hz =>
      rw [step_preamble, hz] at hsome
      cases hsome
    | kept live' sourceErrors' hg hwaits' hz =>
      have hidle : i ≠ .idle := by
        rintro rfl
        have hnone : (gate .idle (run is x w).1 (run is x w).2).2.1.preamble = none := by simp [gate, letGo, hpreamble]
        rw [hz] at hnone
        cases hnone
      have hstep : step i (run is x w).1 (run is x w).2 = (gate i (run is x w).1 (run is x w).2).2 := by
        rw [step_eq, if_neg hidle]
        unfold pass takes
        rw [hg]
        rfl
      rw [hstep]
      refine ⟨q', live', sourceErrors', ?_, hq', hwaits', ?_⟩
      · rw [hz, hy]
      · exact hreleased.trans (gate_gated i _ _).released

/-- With the last source that was waited for, everything held goes through the merger. -/
theorem released_when_ready (hx : x.isDone = false) (hp : x.preamble = some p) (hstart : Holding n [] p)
    (hwaits : p.allReady = false) (w : σ) {before : List Input} {i : Input} (hw : Within n (before ++ [i]))
    (hsome : (run before x w).1.preamble.isSome = true) (hall : ∀ s < n, Shown s (before ++ [i])) :
    ∃ p', Holding n (before ++ [i]) p' ∧ (run (before ++ [i]) x w).1.preamble = none ∧
      Passed n (x, w) (before ++ [i]) p'.inOrder (run (before ++ [i]) x w) := by
  have hwithin : Within n before := fun j hj => hw j (List.mem_append_left _ hj)
  obtain ⟨q, live, sourceErrors, hy, hq, hqwaits, hreleased⟩ := holding_run hx hp hstart hwaits w hwithin hsome
  have hpreamble : (run before x w).1.preamble = some q := by rw [hy]
  have hdone : (run before x w).1.isDone = false := by rw [hy]; exact hx
  obtain ⟨q', hq', hturn⟩ := gate_turn hpreamble hq i (hw i (by simp)) (run before x w).2
  cases hturn with
  | kept live' sourceErrors' hg hwaits' hz =>
    rw [hq'.allReady hall] at hwaits'
    cases hwaits'
  | released live' sourceErrors' hg hz =>
    -- a tick shows nothing, so without it all had shown before
    have hidle : i ≠ .idle := by
      rintro rfl
      have hbefore : ∀ s < n, Shown s before := by
        intro s hs
        rcases shown_snoc.mp (hall s hs) with h | h
        · exact h
        · cases h
      rw [hq.allReady hbefore] at hqwaits
      cases hqwaits
    have hrun : run (before ++ [i]) x w = takes q'.inOrder (gate i (run before x w).1 (run before x w).2).2 := by
      rw [run_append, run_cons (not_isFinished hdone hpreamble)]
      show step i _ _ = _
      rw [step_eq, if_neg hidle]
      unfold pass
      rw [hg]
    have hgate := (hreleased.trans (gate_gated i (run before x w).1 (run before x w).2).released)
    have hnone : (run (before ++ [i]) x w).1.preamble = none := by
      rw [hrun]
      unfold takes
      rw [(foldl_handle_aside _ _).1, hz]
    have hsized : Sized n x := by
      intro p' hp'
      rw [hp] at hp'
      cases hp'
      exact hstart.sized
    obtain ⟨taken, rest, order, hsplit, -, hpassed⟩ := run_passed w hsized hw
    refine ⟨q', hq', hnone, ?_, fun s => ?_, fun e he => ?_, fun p' hp' => ?_, fun s hs => ?_, hpassed.liveLength⟩
    · rw [hrun]
      exact hgate.blocks q'.inOrder
    · have hlast : held s (run (before ++ [i]) x w).1 = [] := by
        unfold held
        rw [hnone]
        rfl
      have hfirst : held s x = [] := by
        unfold held
        rw [hp]
        exact hstart.held s
      rw [hlast, hfirst, q'.ofSource_inOrder, hq'.held, List.append_nil, List.nil_append]
    · rw [← hq'.sized]
      exact Preamble.fst_lt_of_mem_inOrder he
    · rw [hnone] at hp'
      cases hp'
    · rcases hpassed.closed s hs with h | ⟨j, hj, hc⟩
      · exact Or.inl h
      · exact Or.inr ⟨j, by rw [hsplit]; exact List.mem_append_left _ hj, hc⟩

end Writer

/-! ## The table -/

def headOf (bs : List Block) : List Block := bs.takeWhile (!·.isPacket)

/-- The interfaces that the sources announce before their first packets, source by source. -/
def openingTable (n : Nat) (blocks : Nat → List Block) : List Interface :=
  (List.range n).flatMap fun s => (headOf (blocks s)).filterMap Block.declares?

theorem Preamble.getD_map_head (p : Preamble) (s : Nat) :
    (p.sources[s]?.map HeldSource.head).getD [] = headOf (p.heldOf s) := by
  unfold heldOf headOf
  cases p.sources[s]? with
  | none => rfl
  | some h => rfl

/-- The heads that are let go announce the opening table. -/
theorem announced_heads (p : Preamble) :
    announced (p.collect HeldSource.head) = openingTable p.sources.length p.heldOf := by
  unfold announced openingTable Preamble.collect
  rw [List.filterMap_flatMap]
  have hrange : p.sources.zipIdx.flatMap (fun e => (e.1.head.map fun b => (e.2, b)).filterMap (·.2.declares?)) =
      (List.range p.sources.length).flatMap fun s => (headOf (p.heldOf s)).filterMap Block.declares? := by
    rw [List.flatMap_def, List.flatMap_def]
    congr 1
    refine List.ext_getElem (by simp) fun s h₁ h₂ => ?_
    have hs : s < p.sources.length := by simpa using h₁
    simp only [List.getElem_map, List.getElem_zipIdx, List.getElem_range, List.filterMap_map]
    rw [← p.getD_map_head, List.getElem?_eq_getElem hs]
    rfl
  exact hrange

/-- What came after a first packet does not change what was before it. -/
theorem headOf_prefix {bs cs : List Block} (hp : bs <+: cs) (hb : ∃ b ∈ bs, b.isPacket = true) :
    headOf bs = headOf cs := by
  obtain ⟨rest, rfl⟩ := hp
  unfold headOf
  rw [List.takeWhile_append]
  split
  · rename_i hlen
    obtain ⟨b, hmem, hpacket⟩ := hb
    -- the packet is not in front of itself
    rw [← (List.takeWhile_prefix _).eq_of_length hlen] at hmem
    have hfront := List.mem_takeWhile_imp hmem
    rw [hpacket] at hfront
    cases hfront
  · rfl

/-- A source that has shown its interfaces has sent all that it sends before its first packet. -/
theorem headOf_sent_of_shown {is js : List Input} {s : Nat} (ho : Orderly (is ++ js)) (hs : Shown s is) :
    headOf (sent s is) = headOf (sent s (is ++ js)) := by
  obtain ⟨i, hi, hshows⟩ := hs
  cases i with
  | block source b =>
    obtain ⟨hsource, hb⟩ := Bool.and_eq_true_iff.mp hshows
    have he := eq_of_beq hsource
    subst he
    have hprefix := sent_prefix (List.prefix_append is js) source
    refine headOf_prefix hprefix ⟨b, ?_, hb⟩
    unfold sent ofSource arrivals
    rw [List.mem_filterMap]
    exact ⟨(source, b), List.mem_filterMap.mpr ⟨_, hi, rfl⟩, if_pos rfl⟩
  | ended source => rw [Writer.sent_of_finished ho rfl ⟨_, hi, hshows⟩]
  | failed source error => rw [Writer.sent_of_finished ho rfl ⟨_, hi, hshows⟩]
  | idle => cases hshows
  | disconnected => cases hshows

/-! ## Two captures -/

/-- The blocks of each source and its end, in whatever order they come in. -/
structure Interleaves (n : Nat) (blocks : Nat → List Block) (is : List Input) : Prop where
  within : Within n is
  orderly : Orderly is
  sent : ∀ s < n, sent s is = blocks s

open Writer

variable {σ : Type} [World σ]

def HeldUntilReady (n : Nat) (is : List Input) (x : Writer) (w : σ) : Prop :=
  ∃ before i after, is = before ++ i :: after ∧ (run before x w).1.preamble.isSome = true ∧
    ∀ s < n, Shown s (before ++ [i])

/-- The table begins with these interfaces, and behind them are those that the sources announce
    after their heads. -/
def BeginsWith (table : List Interface) (n : Nat) (blocks : Nat → List Block) (m : Merger) : Prop :=
  ∃ s later, m = .synthesized s ∧ s.interfaces.toList = table ++ announced later ∧
    ∀ source < n, headOf (blocks source) ++ ofSource source later = blocks source

/-- The interfaces of more than one source are waited for. -/
theorem Writer.Started.preamble_of_many {c : Config} {h : Host} {x : Writer} {l : Ledger σ} (hst : Started c h x l)
    (hn : 1 < c.sources.length) : ∃ began, x.preamble = some (Preamble.start c.sources.length began) := by
  obtain ⟨began, hb⟩ := hst.preamble
  rw [hst.merger] at hb
  unfold Merger.ofCount at hb
  rw [if_pos hn] at hb
  exact ⟨began, hb⟩

/-- Held until every source had shown its interfaces, the table begins with what they announced
    before their first packets. -/
theorem beginsWith_openingTable {c : Config} {h : Host} {w : σ} {x : Writer} {l : Ledger σ}
    (hs : startCapture c h (Ledger.blank w) = (.ok x, l)) (hn : 1 < c.sources.length) (ha : c.autostop = [])
    {blocks : Nat → List Block} {is : List Input} (hi : Interleaves c.sources.length blocks is)
    (hheld : HeldUntilReady c.sources.length is x l) (hok : (run is x l).1.outputError = none) :
    BeginsWith (openingTable c.sources.length blocks) c.sources.length blocks (run is x l).1.merger := by
  have hst := startCapture_started hs
  obtain ⟨before, i, after, rfl, hsome, hall⟩ := hheld
  have hsplit : before ++ i :: after = before ++ [i] ++ after := by rw [List.append_assoc]; rfl
  rw [hsplit] at hi hok ⊢
  have hwithin : Within c.sources.length (before ++ [i]) := fun j hj => hi.within j (List.mem_append_left _ hj)
  obtain ⟨began, hpreamble⟩ := hst.preamble_of_many hn
  obtain ⟨p, hp, hnone, hfirst⟩ := released_when_ready (isDone_eq_false hst.outputError hst.fired) hpreamble (.start _ began)
    (Preamble.allReady_start (by omega) began) l hwithin hsome hall
  obtain ⟨taken, rest, order, hafter, hrest, hthen⟩ := run_passed (run (before ++ [i]) x l).2 hfirst.sized
    fun j hj => hi.within j (List.mem_append_right _ hj)
  rw [← run_append] at hrest hthen
  have hpassed := hfirst.trans hthen
  -- nothing has ended the writing, so all of it went through the merger
  have hdone : (run (before ++ [i] ++ after) x l).1.isDone = false :=
    isDone_eq_false hok (hpassed.released.unstopped ⟨hst.conditions.trans ha, hst.fired⟩).2
  obtain ⟨_, _, _, hkept⟩ := hpassed.released.kept hst.kept
  obtain ⟨-, hmerger⟩ := hkept.upToDate hdone
  obtain ⟨t, ht, hnum⟩ := ofCount_numbers hn h (p.inOrder ++ order)
  have hinOrder : p.inOrder ++ order = p.collect HeldSource.head ++ (p.collect HeldSource.tail ++ order) := by
    unfold Preamble.inOrder
    rw [List.append_assoc]
  have hheads : ∀ s < c.sources.length, headOf (p.heldOf s) = headOf (blocks s) := by
    intro s hs
    rw [hp.held, headOf_sent_of_shown hi.orderly (hall s hs), hi.sent s hs]
  refine ⟨t, p.collect HeldSource.tail ++ order, ?_, ?_, fun s hs => ?_⟩
  · rw [hmerger]
    exact ht
  · have htable : openingTable p.sources.length p.heldOf = openingTable c.sources.length blocks := by
      unfold openingTable
      rw [hp.sized, List.flatMap_def, List.flatMap_def]
      congr 1
      exact List.map_congr_left fun s hs => by rw [hheads s (List.mem_range.mp hs)]
    rw [hnum.interfaces, hinOrder, ← htable, ← announced_heads]
    exact List.filterMap_append
  · have hall := hpassed.conserved s
    have hlast : held s (run (before ++ [i] ++ after) x l).1 = [] := by
      unfold held
      rw [run_append, run_of_none hnone]
      rfl
    have htaken := sent_taken hpassed hst.live hi.within hi.orderly
      (by rw [hafter, ← List.append_assoc]) hrest hdone s
    rw [hlast, hst.held, List.append_nil, List.nil_append, htaken, hi.sent s hs, hinOrder, ofSource_append,
      Preamble.ofSource_collect, Preamble.getD_map_head, hheads s hs] at hall
    exact hall

/-- Whenever the sources are heard, in whatever order: if all that holds the interfaces back is that
    some source has not shown its own yet, they are numbered alike, those that the sources announce
    before their first packets first, source by source. -/
theorem numbering_independent_of_timing {c : Config} {h : Host} {w₁ w₂ : σ} {x₁ x₂ : Writer} {l₁ l₂ : Ledger σ}
    (hs₁ : startCapture c h (Ledger.blank w₁) = (.ok x₁, l₁)) (hs₂ : startCapture c h (Ledger.blank w₂) = (.ok x₂, l₂))
    (hn : 1 < c.sources.length) (ha : c.autostop = []) {blocks : Nat → List Block} {is₁ is₂ : List Input}
    (hi₁ : Interleaves c.sources.length blocks is₁) (hi₂ : Interleaves c.sources.length blocks is₂)
    (hheld₁ : HeldUntilReady c.sources.length is₁ x₁ l₁) (hheld₂ : HeldUntilReady c.sources.length is₂ x₂ l₂)
    (hok₁ : (run is₁ x₁ l₁).1.outputError = none) (hok₂ : (run is₂ x₂ l₂).1.outputError = none) :
    BeginsWith (openingTable c.sources.length blocks) c.sources.length blocks (run is₁ x₁ l₁).1.merger ∧
      BeginsWith (openingTable c.sources.length blocks) c.sources.length blocks (run is₂ x₂ l₂).1.merger :=
  ⟨beginsWith_openingTable hs₁ hn ha hi₁ hheld₁ hok₁, beginsWith_openingTable hs₂ hn ha hi₂ hheld₂ hok₂⟩

/-! ## Two sources, heard in two orders -/

/-- The one source has a section with an interface and a packet, and then another section; the
    other has two interfaces and no packet. -/
def twoSources (source : Nat) : List Block :=
  let header : Block := ⟨.littleEndian, [], .sectionHeader (SectionHeader.ofOptions [])⟩
  let interface (linktype : UInt16) : Block := ⟨.littleEndian, [], .interface (Interface.make linktype 0 [])⟩
  let packet : Block := ⟨.littleEndian, [], .packet .enhanced (Packet.ofData 0 [7] 0)⟩
  match source with
  | 0 => [header, interface 101, packet, header, interface 113]
  | _ => [header, interface 1, interface 2]

def oneByOne : List Input :=
  (twoSources 0).map (.block 0) ++ [.ended 0] ++ (twoSources 1).map (.block 1) ++ [.failed 1 "gone"]

def otherWayRound : List Input :=
  (twoSources 1).map (.block 1) ++ [.failed 1 "gone"] ++ (twoSources 0).map (.block 0) ++ [.ended 0]

theorem numbering_independent_of_timing_two : ∃ x l,
    startCapture pairConfig ⟨none, none⟩ (Ledger.blank (Machine.ofDisk .empty)) = (.ok x, l) ∧
      (openingTable 2 twoSources).map (·.linktype) = [101, 1, 2] ∧
      BeginsWith (openingTable 2 twoSources) 2 twoSources (run oneByOne x l).1.merger ∧
      BeginsWith (openingTable 2 twoSources) 2 twoSources (run otherWayRound x l).1.merger := by
  have hi₁ : Interleaves 2 twoSources oneByOne := by
    refine ⟨by unfold Within; decide, ?_, by decide⟩
    simp [Orderly, oneByOne, twoSources, Input.source?, Input.closes]
  have hi₂ : Interleaves 2 twoSources otherWayRound := by
    refine ⟨by unfold Within; decide, ?_, by decide⟩
    simp [Orderly, otherWayRound, twoSources, Input.source?, Input.closes]
  obtain ⟨x, l, hs, hfirst, hsecond, hok₁, hok₂⟩ : ∃ x l,
      startCapture pairConfig ⟨none, none⟩ (Ledger.blank (Machine.ofDisk .empty)) = (.ok x, l) ∧
        (run (oneByOne.take 9) x l).1.preamble.isSome = true ∧
        (run (otherWayRound.take 6) x l).1.preamble.isSome = true ∧
        (run oneByOne x l).1.outputError = none ∧ (run otherWayRound x l).1.outputError = none :=
    ⟨_, _, rfl, by decide +kernel⟩
  have hshown₁ : ∀ s < 2, Shown s (oneByOne.take 9 ++ [.failed 1 "gone"]) := by
    unfold Shown
    decide
  have hshown₂ : ∀ s < 2, Shown s (otherWayRound.take 6 ++ [.block 0 ((twoSources 0)[2])]) := by
    unfold Shown
    decide
  refine ⟨x, l, hs, by decide, ?_⟩
  exact numbering_independent_of_timing hs hs (by decide) rfl hi₁ hi₂
    ⟨_, _, [], rfl, hfirst, hshown₁⟩ ⟨_, _, otherWayRound.drop 7, rfl, hsecond, hshown₂⟩ hok₁ hok₂

end CaptureRing
