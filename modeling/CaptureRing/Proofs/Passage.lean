/-
  CaptureRing.Proofs.Passage — the ways a course can go, one thing at a time.

  A step of a course takes the blocks of a gate, and looks the output over at an idle tick; before
  them the clock is read and the sources come and go. `Along` says so once for whole courses, with
  the order in which the blocks are taken. What is to be shown of a course then needs a case for
  each of these things, and no more.

  Proved:
  - `Along.log`, `Along.outputError`: what was done stays done, and what has failed, has failed for good;
  - `Along.run`, `course_along`: a run, and a whole capture, goes along the blocks of its gates;
  - `gate_shared`: an input lets the blocks of each source go in the order they were sent;
  - `Started.ofSource_order`: so does a capture from its first file to its end.
-/

import CaptureRing.Proofs.Course

namespace CaptureRing

variable {σ : Type}

/-! ## Along an order -/

namespace Course

variable [World σ]

/-- From one moment of a course to another, these blocks were taken, in this order. In between the
    clock was read, sources came and went, and the output was looked over. -/
inductive Along (a : Course σ) : List (Nat × Block) → Course σ → Prop
  | start : Along a [] a
  | block {order : List (Nat × Block)} {s : Course σ} (e : Nat × Block) :
      Along a order s → Along a (order ++ [e]) (s.take e)
  | clock {order : List (Nat × Block)} {log : List Deed} {x : Writer} {w : σ} :
      Along a order ⟨log, x, w⟩ → Along a order ⟨log, x, (World.now w).2⟩
  | aside {order : List (Nat × Block)} {log : List Deed} {x : Writer} {w : σ} (live : List Bool)
      (preamble : Option Preamble) (sourceErrors : List (Nat × String)) :
      Along a order ⟨log, x, w⟩ → Along a order ⟨log, { x with live, preamble, sourceErrors }, w⟩
  | look {order : List (Nat × Block)} {s : Course σ} : Along a order s → Along a order s.look

namespace Along

variable {a s : Course σ} {order : List (Nat × Block)}

theorem takes (h : Along a order s) (blocks : List (Nat × Block)) : Along a (order ++ blocks) (s.takes blocks) := by
  induction blocks generalizing order s with
  | nil =>
    rw [List.append_nil]
    exact h
  | cons e blocks ih =>
    have htaken := ih (h.block e)
    rwa [List.append_assoc] at htaken

theorem pass (h : Along a order s) {g : List (Nat × Block) × Writer × σ} (hg : Writer.Gated s.writer s.world g) :
    Along a (order ++ g.1) (s.pass g) := by
  obtain ⟨log, x, w⟩ := s
  obtain ⟨blocks, x', w'⟩ := g
  obtain ⟨⟨live, preamble, sourceErrors, hx⟩, hw⟩ := hg
  dsimp only at hx hw
  have haside := h.aside live preamble sourceErrors
  rw [← hx] at haside
  refine takes (s := ⟨log, x', w'⟩) ?_ blocks
  rcases hw with rfl | rfl | rfl
  · exact haside
  · exact haside.clock
  · exact haside.clock.clock

theorem step (h : Along a order s) (i : Input) : Along a (order ++ (s.writer.gate i s.world).1) (s.step i) := by
  have hpass := h.pass (Writer.gate_gated i s.writer s.world)
  unfold Course.step
  split
  · exact hpass.look
  · exact hpass

theorem advance (h : Along a order s) (i : Input) : ∃ blocks, Along a (order ++ blocks) (s.advance i) := by
  unfold Course.advance
  split
  · refine ⟨[], ?_⟩
    rw [List.append_nil]
    exact h
  · exact ⟨_, h.step i⟩

theorem finish (h : Along a order s) : Along a (order ++ (s.writer.letGo s.world).1) s.finish :=
  h.pass (Writer.letGo_gated s.writer s.world)

theorem released (h : Along a order s) : Writer.Released (a.writer, a.world) order (s.writer, s.world) := by
  induction h with
  | start => exact .start
  | block e _ ih => exact ih.block e.1 e.2
  | clock _ ih => exact ih.clock
  | aside live preamble sourceErrors _ ih => exact ih.aside live preamble sourceErrors
  | look _ ih => exact ih.look

theorem log (h : Along a order s) : a.log <+: s.log := by
  induction h with
  | start => exact List.prefix_rfl
  | block e _ ih => exact ih.trans (List.prefix_append _ _)
  | clock _ ih => exact ih
  | aside live preamble sourceErrors _ ih => exact ih
  | look _ ih => exact ih.trans (List.prefix_append _ _)

theorem outputError (h : Along a order s) (he : s.writer.outputError = none) : a.writer.outputError = none := by
  induction h with
  | start => exact he
  | block e _ ih => exact ih (outputError_of_take he)
  | clock _ ih => exact ih he
  | aside live preamble sourceErrors _ ih => exact ih he
  | look _ ih => exact ih he

end Along

end Course

/-! ## What the sources sent -/

namespace Writer

variable {n : Nat} {x : Writer}

structure Shared (n : Nat) (before : Nat → List Block) (g : List (Nat × Block) × Writer × σ) : Prop where
  conserved : ∀ source, ofSource source g.1 ++ held source g.2.1 = before source
  sized : Sized n g.2.1

theorem settle_shared {p : Preamble} (hp : p.sources.length = n) (x : Writer) (w : σ) :
    Shared n (fun source => p.heldOf source) (settle p x w) := by
  unfold settle
  split
  · refine ⟨fun source => ?_, nofun⟩
    show ofSource source p.inOrder ++ [] = _
    rw [List.append_nil, p.ofSource_inOrder]
  · refine ⟨fun source => rfl, fun q hq => ?_⟩
    cases hq
    exact hp

theorem letGo_shared (hs : Sized n x) (w : σ) : Shared n (fun source => held source x) (letGo x w) := by
  unfold letGo
  cases hp : x.preamble with
  | none => exact ⟨fun source => rfl, hs⟩
  | some p =>
    refine ⟨fun source => ?_, nofun⟩
    show ofSource source p.inOrder ++ [] = _
    rw [List.append_nil, p.ofSource_inOrder]
    unfold held
    rw [hp]
    rfl

variable [World σ]

theorem await_shared {p : Preamble} (hp : p.sources.length = n) (x : Writer) (w : σ) :
    Shared n (fun source => p.heldOf source) (await p x w) := by
  unfold await
  split
  · refine ⟨fun source => ?_, nofun⟩
    show ofSource source p.inOrder ++ [] = _
    rw [List.append_nil, p.ofSource_inOrder]
  · obtain ⟨hconserved, hsized⟩ := settle_shared (p := p.expire (World.now w).1.instant x.poll.nanos)
      ((List.length_map _).trans hp) x (World.now w).2
    exact ⟨fun source => (hconserved source).trans (p.heldOf_expire ..), hsized⟩

theorem closeSource_shared (hs : Sized n x) (source : Nat) (w : σ) :
    Shared n (fun s => held s x) (closeSource source x w) := by
  unfold closeSource
  dsimp only
  cases hp : x.preamble with
  | none =>
    refine ⟨fun s => ?_, nofun⟩
    unfold held
    rw [hp]
    rfl
  | some p =>
    obtain ⟨hconserved, hsized⟩ := await_shared (p := p.markReady source)
      ((List.length_modify _ _ _).trans (hs p hp))
      { x with live := x.live.set source false, preamble := some p } w
    refine ⟨fun s => (hconserved s).trans ?_, hsized⟩
    rw [p.heldOf_markReady]
    unfold held
    rw [hp]
    rfl

/-- An input lets go of what was held back and what has come with it, in the order of each
    source, but for what it holds back. -/
theorem gate_shared (hs : Sized n x) {i : Input} (hi : ∀ s, i.source? = some s → s < n) (w : σ) :
    Shared n (fun source => held source x ++ sent source [i]) (gate i x w) := by
  have hnone : i.arrival? = none → ∀ source, held source x ++ sent source [i] = held source x := by
    intro ha source
    unfold sent arrivals
    rw [List.filterMap_cons, ha]
    exact List.append_nil _
  cases i with
  | block source b =>
    have hsent : ∀ s, sent s [.block source b] = if source = s then [b] else [] := fun s =>
      ofSource_singleton s source b
    unfold gate
    cases hp : x.preamble with
    | none =>
      refine ⟨fun s => ?_, hs⟩
      dsimp only
      rw [ofSource_singleton, hsent]
      unfold held
      rw [hp]
      exact List.append_nil _
    | some p =>
      have hlt : source < p.sources.length := (hs p hp).symm ▸ hi source rfl
      obtain ⟨hconserved, hsized⟩ := await_shared (p := p.push source b (World.now w).1.instant)
        ((List.length_modify _ _ _).trans (hs p hp)) x (World.now w).2
      refine ⟨fun s => (hconserved s).trans ?_, hsized⟩
      rw [p.heldOf_push source b _ hlt, hsent]
      unfold held
      rw [hp]
      rfl
  | ended source =>
    simp only [hnone rfl]
    exact closeSource_shared hs source w
  | failed source error =>
    simp only [hnone rfl]
    exact closeSource_shared (x := { x with sourceErrors := x.sourceErrors ++ [(source, error)] }) hs source w
  | idle =>
    simp only [hnone rfl]
    exact letGo_shared hs w
  | disconnected =>
    simp only [hnone rfl]
    exact letGo_shared (x := { x with live := x.live.map fun _ => false }) hs w

end Writer

namespace Course

variable [World σ] {n : Nat} {a s : Course σ}

theorem preamble_takes (blocks : List (Nat × Block)) (s : Course σ) :
    (s.takes blocks).writer.preamble = s.writer.preamble := by
  have herased := congrArg Prod.fst (takes_erased blocks s)
  rw [show (s.takes blocks).writer = _ from herased]
  exact (Writer.foldl_handle_aside blocks (s.writer, s.world)).1

theorem pass_shared {before : Nat → List Block} {g : List (Nat × Block) × Writer × σ}
    (hg : Writer.Shared n before g) (s : Course σ) :
    (∀ source, ofSource source g.1 ++ Writer.held source (s.pass g).writer = before source) ∧
      Writer.Sized n (s.pass g).writer := by
  have hpreamble : (s.pass g).writer.preamble = g.2.1.preamble := preamble_takes g.1 ⟨s.log, g.2.1, g.2.2⟩
  refine ⟨fun source => ?_, fun p hp => hg.sized p (hpreamble ▸ hp)⟩
  rw [← hg.conserved source]
  unfold Writer.held
  rw [hpreamble]

theorem step_shared (hs : Writer.Sized n s.writer) {i : Input} (hi : ∀ src, i.source? = some src → src < n) :
    (∀ source, ofSource source (s.writer.gate i s.world).1 ++ Writer.held source (s.step i).writer
      = Writer.held source s.writer ++ sent source [i]) ∧ Writer.Sized n (s.step i).writer := by
  have hpass := pass_shared (Writer.gate_shared hs hi s.world) s
  unfold step
  split
  · exact hpass
  · exact hpass

theorem run_of_isFinished (h : s.writer.isFinished = true) (is : List Input) : s.run is = s := by
  induction is with
  | nil => rfl
  | cons i is ih =>
    show (s.advance i).run is = s
    unfold advance
    rw [if_pos h]
    exact ih

theorem run_cons (h : s.writer.isFinished = false) (i : Input) (is : List Input) :
    s.run (i :: is) = (s.step i).run is := by
  show (s.advance i).run is = _
  unfold advance
  rw [h, if_neg Bool.false_ne_true]

/-- The blocks that a run takes to the output, in order. -/
def order : List Input → Course σ → List (Nat × Block)
  | [], _ => []
  | i :: is, s => if s.writer.isFinished then [] else (s.writer.gate i s.world).1 ++ order is (s.step i)

theorem Along.run {done : List (Nat × Block)} (h : Along a done s) (is : List Input) :
    Along a (done ++ s.order is) (s.run is) := by
  induction is generalizing done s with
  | nil =>
    rw [order, List.append_nil]
    exact h
  | cons i is ih =>
    rw [order]
    by_cases hf : s.writer.isFinished = true
    · rw [if_pos hf, run_of_isFinished hf, List.append_nil]
      exact h
    · rw [if_neg hf, run_cons (Bool.eq_false_iff.mpr hf), ← List.append_assoc]
      exact ih (h.step i)

/-- The blocks that a run takes and those it holds back still are what was held back before and what
    the inputs it took have brought. -/
theorem order_shared (hs : Writer.Sized n s.writer) {is : List Input} (hw : Within n is) :
    ∃ taken, taken <+: is ∧ Writer.Sized n (s.run is).writer ∧
      ∀ source, ofSource source (s.order is) ++ Writer.held source (s.run is).writer
        = Writer.held source s.writer ++ sent source taken := by
  induction is generalizing s with
  | nil => exact ⟨[], List.prefix_rfl, hs, fun source => (List.append_nil _).symm⟩
  | cons i is ih =>
    rw [order]
    by_cases hf : s.writer.isFinished = true
    · rw [if_pos hf, run_of_isFinished hf]
      exact ⟨[], List.nil_prefix, hs, fun source => (List.append_nil _).symm⟩
    · rw [if_neg hf, run_cons (Bool.eq_false_iff.mpr hf)]
      obtain ⟨hconserved, hsized⟩ := step_shared hs (hw i List.mem_cons_self)
      obtain ⟨taken, hpre, hsized', hall⟩ := ih hsized fun j hj => hw j (List.mem_cons_of_mem _ hj)
      refine ⟨i :: taken, (List.prefix_cons_inj i).mpr hpre, hsized', fun source => ?_⟩
      rw [ofSource_append, List.append_assoc, hall, ← List.append_assoc, hconserved, List.append_assoc,
        ← sent_append]
      rfl

end Course

/-! ## Whole captures -/

namespace Writer

variable [World σ]

def order (is : List Input) (x : Writer) (w : σ) : List (Nat × Block) :=
  (Course.begin x w).order is
    ++ (letGo ((Course.begin x w).run is).writer ((Course.begin x w).run is).world).1

theorem course_along (is : List Input) (x : Writer) (w : σ) :
    Course.Along (Course.begin x w) (x.order is w) (course is x w) := by
  have hrun := (Course.Along.start (a := Course.begin x w)).run is
  exact hrun.finish

/-- A capture takes the blocks of each source in the order they were sent. -/
theorem Started.ofSource_order {c : Config} {h : Host} {x : Writer} {l : Ledger σ} (hst : Started c h x l)
    {is : List Input} (hw : Within c.sources.length is) (source : Nat) :
    ofSource source (x.order is l) <+: sent source is := by
  obtain ⟨taken, ⟨untaken, rfl⟩, hsized, hall⟩ := Course.order_shared (s := Course.begin x l) hst.sized hw
  obtain ⟨hrest, -⟩ := Course.pass_shared (letGo_shared hsized ((Course.begin x l).run (taken ++ untaken)).world)
    ((Course.begin x l).run (taken ++ untaken))
  have hheld : Writer.held source (Course.begin x l).writer = [] := hst.held source
  -- what the run had let go and what it held back are what was sent by then
  have hsent := hall source
  rw [hheld, List.nil_append, ← hrest source] at hsent
  rw [sent_append, ← hsent]
  unfold order
  rw [ofSource_append, List.append_assoc, List.append_assoc]
  exact (List.prefix_append_right_inj _).mpr (List.prefix_append _ _)

end Writer

end CaptureRing
