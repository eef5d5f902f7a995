/-
  CaptureRing.Proofs.Waiting — how long a quiet source holds the others back.

  The preamble is looked at after every event: a source that was quiet for a poll interval is not
  waited for any longer. So if it is still held after an event, there is a source that it waits
  for, and that has not been quiet for so long; it has been quiet since its first block, or since
  the capture began if none has come. An idle tick ends the wait, and it does not begin again.

  While the preamble is held the clock is read and nothing else happens in the world, so all that is
  asked of it is a clock that never goes back from one reading to the next.

  Proved, for any world:
  - `step_held`: what an event does to a preamble that is held behind it;
  - `Timed.note`: a preamble knows when each source was first heard of;
  - `held_within_wait`: so a source that is waited for is within its wait at every look.
-/

import CaptureRing.Proofs.Readiness

namespace CaptureRing

namespace World

variable {σ : Type} [World σ]

def time (w : σ) : Nat := (World.now w).1.instant

variable (σ) in
/-- The clock never goes back from one reading to the next. -/
def Steady : Prop := ∀ w : σ, time w ≤ time (World.now w).2

theorem Steady.ledger (h : Steady σ) : Steady (Ledger σ) := fun l => h l.world

end World

open World (time)

variable {σ : Type} [World σ] {n s : Nat} {is : List Input} {i : Input} {p q : Preamble} {x y : Writer} {w : σ}

/-! ## One event -/

namespace Preamble

def note (i : Input) (now : Nat) (p : Preamble) : Preamble :=
  match i with
  | .block source b => p.push source b now
  | .ended source | .failed source _ => p.markReady source
  | .idle | .disconnected => p

end Preamble

namespace Input

/-- The world once the preamble has taken note of an event: the clock is read for a block. -/
def noted (i : Input) (w : σ) : σ :=
  match i with
  | .block .. => (World.now w).2
  | .ended _ | .failed .. | .idle | .disconnected => w

end Input

namespace Writer

/-- A preamble that is kept at a look has a source that is not ready and was not quiet for long
    enough. -/
theorem await_kept (hq : (await p y w).2.1.preamble = some q) :
    q = p.expire (time w) y.poll.nanos ∧ q.allReady = false ∧
      await p y w = ([], { y with preamble := some q }, (World.now w).2) := by
  unfold await settle at hq ⊢
  by_cases hp : p.allReady = true
  · rw [if_pos hp] at hq
    cases hq
  · rw [if_neg hp] at hq ⊢
    dsimp only at hq ⊢
    by_cases he : (p.expire (World.now w).1.instant y.poll.nanos).allReady = true
    · rw [if_pos he] at hq
      cases hq
    · rw [if_neg he] at hq ⊢
      obtain rfl := Option.some.inj hq
      exact ⟨rfl, Bool.eq_false_iff.mpr he, rfl⟩

/-- An event of a source is noted, and then the preamble is looked at. -/
theorem gate_eq_await (hp : y.preamble = some p) (hi : i.source?.isSome = true) (w : σ) :
    ∃ live sourceErrors,
      gate i y w = await (p.note i (time w)) { y with live, sourceErrors } (i.noted w) := by
  cases i with
  | block source b =>
    refine ⟨y.live, y.sourceErrors, ?_⟩
    unfold gate
    dsimp only
    rw [hp]
    rfl
  | ended source =>
    refine ⟨y.live.set source false, y.sourceErrors, ?_⟩
    unfold gate closeSource
    dsimp only
    rw [hp]
    rfl
  | failed source error =>
    refine ⟨y.live.set source false, y.sourceErrors ++ [(source, error)], ?_⟩
    unfold gate closeSource
    dsimp only
    rw [hp]
    rfl
  | idle | disconnected => cases hi

omit [World σ] in
theorem letGo_preamble (y : Writer) (w : σ) : (letGo y w).2.1.preamble = none := by
  unfold letGo
  cases hp : y.preamble with
  | none => exact hp
  | some p => rfl

/-- Without an event of a source the wait is over. -/
theorem gate_letGo (hi : i.source? = none) (y : Writer) (w : σ) : (gate i y w).2.1.preamble = none := by
  cases i with
  | idle | disconnected => exact letGo_preamble _ w
  | block source b | ended source | failed source error => cases hi

/-- A preamble that is held behind an input has noted an event of a source and was looked at after
    it, and nothing else has happened. -/
theorem step_held (hp : y.preamble = some p) (hq : (step i y w).1.preamble = some q) :
    i.source?.isSome = true ∧ q = (p.note i (time w)).expire (time (i.noted w)) y.poll.nanos ∧
      q.allReady = false ∧ (step i y w).2 = (World.now (i.noted w)).2 := by
  rw [step_preamble] at hq
  cases hi : i.source? with
  | none =>
    rw [gate_letGo hi] at hq
    cases hq
  | some source =>
    have hsome : i.source?.isSome = true := by rw [hi]; rfl
    obtain ⟨live, sourceErrors, hgate⟩ := gate_eq_await hp hsome w
    rw [hgate] at hq
    obtain ⟨he, hwaits, hkept⟩ := await_kept hq
    refine ⟨rfl, he, hwaits, ?_⟩
    have hidle : i ≠ .idle := by
      rintro rfl
      cases hi
    rw [step_eq, if_neg hidle, hgate, hkept]
    rfl

end Writer

open Writer

/-! ## Since when a source has been quiet -/

inductive FirstHeard (s : Nat) (x : Writer) (w : σ) (is : List Input) : Option Nat → Prop
  | never : sent s is = [] → FirstHeard s x w is none
  | once (before after : List Input) (b : Block) : is = before ++ .block s b :: after → sent s before = [] →
      FirstHeard s x w is (some (time (run before x w).2))

/-- A source that was heard of before, or that has sent nothing now. -/
theorem FirstHeard.snoc {first : Option Nat} (h : FirstHeard s x w is first)
    (hi : first = none → sent s [i] = []) : FirstHeard s x w (is ++ [i]) first := by
  cases h with
  | never hnone =>
    refine .never ?_
    rw [sent_append, hnone, hi rfl]
    rfl
  | once before after b his hbefore =>
    refine .once before (after ++ [i]) b ?_ hbefore
    rw [his, List.append_assoc, List.cons_append]

/-- A preamble that knows when it began and when each of its sources was first heard of; the clock
    has not gone back since. -/
structure Timed (began now : Nat) (x : Writer) (w : σ) (is : List Input) (p : Preamble) : Prop where
  origin : p.began = began
  heard : ∀ (s : Nat) (g : HeldSource), p.sources[s]? = some g → FirstHeard s x w is g.firstSeen
  past : ∀ (s : Nat) (g : HeldSource), p.sources[s]? = some g → g.firstSeen.getD began ≤ now

namespace Timed

variable {began now later : Nat}

theorem start (n : Nat) (x : Writer) (w : σ) (h : began ≤ now) : Timed began now x w [] (Preamble.start n began) := by
  have hempty : ∀ (s : Nat) (g : HeldSource), (Preamble.start n began).sources[s]? = some g → g = .empty :=
    fun s g hg => List.eq_of_mem_replicate (List.mem_of_getElem? hg)
  refine ⟨rfl, fun s g hg => ?_, fun s g hg => ?_⟩
  · rw [hempty s g hg]
    exact .never rfl
  · rw [hempty s g hg]
    exact h

theorem mono (h : Timed began now x w is p) (hle : now ≤ later) : Timed began later x w is p :=
  ⟨h.origin, h.heard, fun s g hg => Nat.le_trans (h.past s g hg) hle⟩

theorem push {source : Nat} (h : Timed began (time (run is x w).2) x w is p) (b : Block)
    (hle : time (run is x w).2 ≤ later) :
    Timed began later x w (is ++ [.block source b]) (p.push source b (time (run is x w).2)) := by
  refine ⟨h.origin, fun s g hg => ?_, fun s g hg => ?_⟩
  · unfold Preamble.push at hg
    rw [List.getElem?_modify] at hg
    obtain ⟨g', hg', rfl⟩ := Option.map_eq_some_iff.mp hg
    by_cases hs : source = s
    · subst hs
      rw [if_pos rfl]
      cases hfirst : g'.firstSeen with
      | none =>
        have hheard := h.heard source g' hg'
        rw [hfirst] at hheard
        unfold HeldSource.push
        rw [hfirst]
        cases hheard with
        | never hnone => exact .once is [] b rfl hnone
      | some first =>
        have hheard := h.heard source g' hg'
        rw [hfirst] at hheard
        unfold HeldSource.push
        rw [hfirst]
        exact hheard.snoc nofun
    · rw [if_neg hs]
      refine (h.heard s g' hg').snoc fun _ => ?_
      exact (ofSource_singleton s source b).trans (if_neg hs)
  · unfold Preamble.push at hg
    rw [List.getElem?_modify] at hg
    obtain ⟨g', hg', rfl⟩ := Option.map_eq_some_iff.mp hg
    by_cases hs : source = s
    · rw [if_pos hs]
      have hpast := h.past s g' hg'
      unfold HeldSource.push
      cases hfirst : g'.firstSeen with
      | none => exact hle
      | some first =>
        rw [hfirst] at hpast
        exact Nat.le_trans hpast hle
    · rw [if_neg hs]
      exact Nat.le_trans (h.past s g' hg') hle

/-- What says nothing of when the sources were first heard of. -/
theorem of_firstSeen (h : Timed began now x w is p) (hbegan : q.began = p.began)
    (hq : ∀ (s : Nat) (g : HeldSource), q.sources[s]? = some g → ∃ g', p.sources[s]? = some g' ∧ g.firstSeen = g'.firstSeen) :
    Timed began now x w is q := by
  refine ⟨hbegan.trans h.origin, fun s g hg => ?_, fun s g hg => ?_⟩
  · obtain ⟨g', hg', he⟩ := hq s g hg
    rw [he]
    exact h.heard s g' hg'
  · obtain ⟨g', hg', he⟩ := hq s g hg
    rw [he]
    exact h.past s g' hg'

theorem markReady (h : Timed began now x w is p) (source : Nat) : Timed began now x w is (p.markReady source) := by
  refine h.of_firstSeen rfl fun s g hg => ?_
  unfold Preamble.markReady at hg
  rw [List.getElem?_modify] at hg
  obtain ⟨g', hg', rfl⟩ := Option.map_eq_some_iff.mp hg
  refine ⟨g', hg', ?_⟩
  split
  · rfl
  · rfl

theorem expire (h : Timed began now x w is p) (instant wait : Nat) :
    Timed began now x w is (p.expire instant wait) := by
  refine h.of_firstSeen rfl fun s g hg => ?_
  unfold Preamble.expire at hg
  rw [List.getElem?_map] at hg
  obtain ⟨g', hg', rfl⟩ := Option.map_eq_some_iff.mp hg
  exact ⟨g', hg', rfl⟩

theorem snoc (h : Timed began now x w is p) (hi : i.arrival? = none) : Timed began now x w (is ++ [i]) p := by
  refine ⟨h.origin, fun s g hg => (h.heard s g hg).snoc fun _ => ?_, h.past⟩
  simp [sent, arrivals, hi]

theorem note (hsteady : World.Steady σ) (h : Timed began (time (run is x w).2) x w is p) (i : Input) :
    Timed began (time (i.noted (run is x w).2)) x w (is ++ [i]) (p.note i (time (run is x w).2)) := by
  cases i with
  | block source b => exact h.push b (hsteady _)
  | ended source => exact (h.snoc rfl).markReady source
  | failed source error => exact (h.snoc rfl).markReady source
  | idle => exact h.snoc rfl
  | disconnected => exact h.snoc rfl

/-- A preamble that is kept at a look has a source that is not ready and was heard of less than the
    wait ago. -/
theorem within (h : Timed began now x w is p) {wait : Nat} (hp : (p.expire now wait).allReady = false) :
    ∃ (s : Nat) (first : Option Nat), s < p.sources.length ∧ ¬ (p.expire now wait).ReadyAt s ∧
      FirstHeard s x w is first ∧ first.getD began ≤ now ∧ now - first.getD began < wait := by
  rw [Bool.eq_false_iff, ne_eq, Preamble.allReady_iff] at hp
  push Not at hp
  obtain ⟨s, hs, hready⟩ := hp
  have hlt : s < p.sources.length := by rwa [Preamble.expire, List.length_map] at hs
  have hg : p.sources[s]? = some p.sources[s] := List.getElem?_eq_getElem hlt
  refine ⟨s, _, hlt, hready, h.heard s _ hg, h.past s _ hg, ?_⟩
  by_contra hlong
  apply hready
  intro g hexpired
  unfold Preamble.expire at hexpired
  rw [List.getElem?_map, hg, Option.map_some, Option.some.injEq] at hexpired
  subst hexpired
  unfold HeldSource.expire
  rw [h.origin, decide_eq_true (Nat.le_of_not_lt hlong)]
  exact Bool.or_true _

end Timed

/-! ## A run -/

structure HeldOver (n : Nat) (x : Writer) (w : σ) (is : List Input) (i : Input) (p q : Preamble) : Prop where
  event : i.source?.isSome = true
  before : (run is x w).1.preamble = some p
  after : (run (is ++ [i]) x w).1.preamble = some q
  looked : q = (p.note i (time (run is x w).2)).expire (time (i.noted (run is x w).2)) x.poll.nanos
  waits : q.allReady = false
  world : (run (is ++ [i]) x w).2 = (World.now (i.noted (run is x w).2)).2
  holding : Holding n (is ++ [i]) q

structure Begun (n began : Nat) (x : Writer) (w : σ) : Prop where
  many : 0 < n
  running : x.isDone = false
  preamble : x.preamble = some (Preamble.start n began)
  past : began ≤ time w

namespace Begun

variable {began : Nat}

theorem run_held (h : Begun n began x w) (hw : Within n is) (hsome : (run is x w).1.preamble.isSome = true) :
    ∃ p live sourceErrors, (run is x w).1 = { x with live, preamble := some p, sourceErrors } ∧ Holding n is p ∧
      p.allReady = false := by
  obtain ⟨p, live, sourceErrors, hrun, hheld, hwaits, -⟩ :=
    holding_run h.running h.preamble (.start n began) (Preamble.allReady_start h.many began) w hw hsome
  exact ⟨p, live, sourceErrors, hrun, hheld, hwaits⟩

theorem heldOver (h : Begun n began x w) (hw : Within n (is ++ [i]))
    (hsome : (run (is ++ [i]) x w).1.preamble.isSome = true) : ∃ p q, HeldOver n x w is i p q := by
  have hbefore : (run is x w).1.preamble.isSome = true := by
    cases hnone : (run is x w).1.preamble with
    | some p => rfl
    | none =>
      rw [run_append, run_of_none hnone] at hsome
      cases hsome
  obtain ⟨p, live, sourceErrors, hp, -, -⟩ := h.run_held (fun j hj => hw j (List.mem_append_left _ hj)) hbefore
  obtain ⟨q, live', sourceErrors', hq, hheld, hwaits⟩ := h.run_held hw hsome
  have hpreamble : (run is x w).1.preamble = some p := by rw [hp]
  have hafter : (run (is ++ [i]) x w).1.preamble = some q := by rw [hq]
  have hdone : (run is x w).1.isDone = false := by rw [hp]; exact h.running
  have hrun : run (is ++ [i]) x w = step i (run is x w).1 (run is x w).2 := by
    rw [run_append, run_cons (not_isFinished hdone hpreamble)]
    rfl
  have hstep := hafter
  rw [hrun] at hstep
  obtain ⟨hevent, hlooked, -, hworld⟩ := step_held hpreamble hstep
  rw [hp] at hlooked
  exact ⟨p, q, hevent, hpreamble, hafter, hlooked, hwaits, by rw [hrun]; exact hworld, hheld⟩

/-- As long as it is held, the preamble knows when its sources were first heard of. -/
theorem timed (hsteady : World.Steady σ) (h : Begun n began x w) (hw : Within n is)
    (hp : (run is x w).1.preamble = some p) : Timed began (time (run is x w).2) x w is p := by
  induction is using List.reverseRecOn generalizing p with
  | nil =>
    have hstart : some (Preamble.start n began) = some p := h.preamble.symm.trans hp
    cases hstart
    exact .start n x w h.past
  | append_singleton is i ih =>
    obtain ⟨p₀, q, hover⟩ := h.heldOver hw (by rw [hp]; rfl)
    obtain rfl : q = p := Option.some.inj (hover.after.symm.trans hp)
    have hbefore := ih (fun j hj => hw j (List.mem_append_left _ hj)) hover.before
    rw [hover.looked, hover.world]
    exact ((hbefore.note hsteady i).expire _ _).mono (hsteady _)

end Begun

/-! ## The wait is bounded -/

/-- The source has sent no packet and has neither ended nor failed, and by now it has been quiet for
    less than the wait: since its first block, or since the beginning. -/
structure WaitedFor (s began now wait : Nat) (x : Writer) (w : σ) (is : List Input) : Prop where
  awaited : ¬ Shown s is
  quiet : ∃ first, FirstHeard s x w is first ∧ first.getD began ≤ now ∧ now - first.getD began < wait

theorem Begun.waitedFor {began : Nat} (hsteady : World.Steady σ) (h : Begun n began x w) (hw : Within n (is ++ [i]))
    (hsome : (run (is ++ [i]) x w).1.preamble.isSome = true) :
    (run (is ++ [i]) x w).2 = (World.now (i.noted (run is x w).2)).2 ∧
      ∃ s < n, WaitedFor s began (time (i.noted (run is x w).2)) x.poll.nanos x w (is ++ [i]) := by
  obtain ⟨p, q, hover⟩ := h.heldOver hw hsome
  have hbefore := h.timed hsteady (fun j hj => hw j (List.mem_append_left _ hj)) hover.before
  have hwaits := hover.waits
  rw [hover.looked] at hwaits
  obtain ⟨s, first, hs, hready, hfirst, hpast, hshort⟩ := (hbefore.note hsteady i).within hwaits
  rw [← hover.looked] at hready
  have hlength : (p.note i (time (run is x w).2)).sources.length = n := by
    rw [← hover.holding.sized, hover.looked]
    exact (List.length_map _).symm
  exact ⟨hover.world, s, hlength ▸ hs, fun hshown => hready (hover.holding.ready s hshown), first, hfirst, hpast, hshort⟩

/-- The last thing before a capture runs is that the preamble begins, if there is more than one
    source to wait for. -/
theorem startCapture_begun {c : Config} {h : Host} {w : σ} {l : Ledger σ}
    (hs : startCapture c h (Ledger.blank w) = (.ok x, l)) :
    0 < c.sources.length ∧ c.poll = .ok x.poll ∧ ∃ l₀, l = (World.now l₀).2 ∧
      (x.preamble = none ∨ x.preamble = some (Preamble.start c.sources.length (time l₀))) := by
  unfold startCapture at hs
  split at hs
  · cases hs
  rename_i hsources
  have hmany : 0 < c.sources.length := by
    rw [List.length_pos_iff, ne_eq, ← List.isEmpty_iff]
    exact hsources
  split at hs
  · cases hs
  rename_i poll hpoll
  split at hs
  · dsimp only at hs
    split at hs
    · cases hs
    · rename_i l₀ _
      cases hs
      refine ⟨hmany, hpoll, l₀, rfl, ?_⟩
      dsimp only
      cases (Merger.ofCount h c.sources.length).mode with
      | synthesized => exact Or.inr rfl
      | passthrough => exact Or.inl rfl
  · cases hs

/-- With a clock that never goes back, a quiet source holds the others back only within its wait: if
    the preamble is still held when an input was taken, then at the look behind it there is a source
    that is waited for, and not yet for a whole poll interval. A tick ends the wait, and once it has
    ended nothing is held again. -/
theorem held_within_wait {c : Config} {h : Host} {w : σ} {l : Ledger σ} (hsteady : World.Steady σ)
    (hs : startCapture c h (Ledger.blank w) = (.ok x, l)) :
    c.poll = .ok x.poll ∧ ∃ l₀, l = (World.now l₀).2 ∧
      (∀ is i, Within c.sources.length (is ++ [i]) → (run (is ++ [i]) x l).1.preamble.isSome = true →
        let looked := i.noted (run is x l).2
        (run (is ++ [i]) x l).2 = (World.now looked).2 ∧
          ∃ s < c.sources.length, WaitedFor s (time l₀) (time looked) x.poll.nanos x l (is ++ [i])) ∧
      (∀ is, Within c.sources.length is → (run (is ++ [.idle]) x l).1.preamble = none) ∧
      ∀ is js, (run is x l).1.preamble = none → (run (is ++ js) x l).1.preamble = none := by
  have hst := startCapture_started hs
  obtain ⟨hmany, hpoll, l₀, rfl, hpreamble⟩ := startCapture_begun hs
  have hlater : ∀ is js, (run is x (World.now l₀).2).1.preamble = none →
      (run (is ++ js) x (World.now l₀).2).1.preamble = none := by
    intro is js hnone
    rw [run_append]
    exact run_of_none hnone js _
  have hbegun (hstart : x.preamble = some (Preamble.start c.sources.length (time l₀))) :
      Begun c.sources.length (time l₀) x (World.now l₀).2 :=
    ⟨hmany, isDone_eq_false hst.outputError hst.fired, hstart, hsteady.ledger l₀⟩
  refine ⟨hpoll, l₀, rfl, fun is i hw hsome => ?_, fun is hw => ?_, hlater⟩
  · rcases hpreamble with hnone | hstart
    · rw [run_of_none hnone] at hsome
      cases hsome
    · exact (hbegun hstart).waitedFor hsteady.ledger hw hsome
  · rcases hpreamble with hnone | hstart
    · exact run_of_none hnone _ _
    · have hwithin : Within c.sources.length (is ++ [.idle]) := by
        intro i hi s hsource
        rcases List.mem_append.mp hi with hi | hi
        · exact hw i hi s hsource
        · rw [List.mem_singleton.mp hi] at hsource
          cases hsource
      rw [← Option.not_isSome_iff_eq_none]
      intro hsome
      -- a tick is no event of a source, so nothing is held over it
      obtain ⟨p, q, hover⟩ := (hbegun hstart).heldOver hwithin hsome
      cases hover.event

def quietStart : List Input :=
  let header : Block := ⟨.littleEndian, [], .sectionHeader (SectionHeader.ofOptions [])⟩
  [.block 1 header, .block 0 header]

theorem held_within_wait_pair : World.Steady Machine ∧ ∃ x l,
    startCapture pairConfig ⟨none, none⟩ (Ledger.blank (Machine.ofDisk .empty)) = (.ok x, l) ∧
      (run (quietStart ++ [.ended 0]) x l).1.preamble.isSome = true ∧
      ∃ began now, WaitedFor 1 began now x.poll.nanos x l (quietStart ++ [.ended 0]) := by
  have hsteady : World.Steady Machine := fun m => Nat.le_add_right m.clock Machine.tick
  obtain ⟨x, l, hs, hsome⟩ : ∃ x l,
      startCapture pairConfig ⟨none, none⟩ (Ledger.blank (Machine.ofDisk .empty)) = (.ok x, l) ∧
        (run (quietStart ++ [.ended 0]) x l).1.preamble.isSome = true :=
    ⟨_, _, rfl, by decide +kernel⟩
  obtain ⟨-, l₀, -, hheld, -⟩ := held_within_wait hsteady hs
  obtain ⟨-, s, hs', hwaited⟩ := hheld _ _ (by unfold Within; decide) hsome
  have hone : s = 1 := by
    have hfirst : Shown 0 (quietStart ++ [.ended 0]) := by unfold Shown; decide
    have hne : s ≠ 0 := by
      rintro rfl
      exact hwaited.awaited hfirst
    have hlt : s < 2 := hs'
    omega
  subst hone
  exact ⟨hsteady, x, l, hs, hsome, _, _, hwaited⟩

end CaptureRing
