/-
  CaptureRing.Proofs.Arrivals — from what the sources sent to the order in which it is merged.

  The preamble lets blocks wait, parts them and lets them go in another order. Seen from
  one source nothing of that happens: what was let go and what is still held are together
  what it sent, in its own order.

  Proved, for any world:
  - `ofSource_inOrder`: letting go of the preamble keeps the blocks of each source in order;
  - `step_passed`, `run_passed`: one input and any number of them lose, double and reorder
    nothing of any source, and take blocks to the output in the steps of `Released`;
  - `sent_of_finished`: if all sources ended, every block was taken in.
-/

import CaptureRing.Writer

namespace CaptureRing

/-! ## What the sources send -/

def ofSource (s : Nat) (order : List (Nat × Block)) : List Block :=
  order.filterMap fun e => if e.1 = s then some e.2 else none

@[simp] theorem ofSource_nil (s : Nat) : ofSource s [] = [] := rfl

@[simp] theorem ofSource_append (s : Nat) (a b : List (Nat × Block)) :
    ofSource s (a ++ b) = ofSource s a ++ ofSource s b := List.filterMap_append

theorem ofSource_singleton (s source : Nat) (b : Block) :
    ofSource s [(source, b)] = if source = s then [b] else [] := by
  by_cases h : source = s <;> simp [ofSource, h]

theorem ofSource_map (s source : Nat) (bs : List Block) :
    ofSource s (bs.map fun b => (source, b)) = if source = s then bs else [] := by
  by_cases h : source = s
  · simp [ofSource, h, List.filterMap_map, Function.comp_def]
  · simp [ofSource, h]

/-- A merged order of a single source is that source's. -/
theorem map_snd_of_single {order : List (Nat × Block)} (h : ∀ e ∈ order, e.1 < 1) :
    order.map (·.2) = ofSource 0 order := by
  induction order with
  | nil => rfl
  | cons e rest ih =>
    have he : e.1 = 0 := Nat.lt_one_iff.mp (h e List.mem_cons_self)
    have hr := ih fun x hx => h x (List.mem_cons_of_mem _ hx)
    rw [List.map_cons, hr]
    simp only [ofSource, List.filterMap_cons, he, if_true]

namespace Input

def source? : Input → Option Nat
  | block s _ | ended s | failed s _ => some s
  | idle | disconnected => none

def arrival? : Input → Option (Nat × Block)
  | block s b => some (s, b)
  | ended _ | failed .. | idle | disconnected => none

def closes (s : Nat) : Input → Bool
  | ended t | failed t _ => t == s
  | disconnected => true
  | block .. | idle => false

end Input

def arrivals (is : List Input) : List (Nat × Block) := is.filterMap Input.arrival?

def sent (s : Nat) (is : List Input) : List Block := ofSource s (arrivals is)

@[simp] theorem sent_nil (s : Nat) : sent s [] = [] := rfl

@[simp] theorem sent_append (s : Nat) (is js : List Input) : sent s (is ++ js) = sent s is ++ sent s js := by
  simp [sent, arrivals]

def Within (n : Nat) (is : List Input) : Prop := ∀ i ∈ is, ∀ s, i.source? = some s → s < n

/-- No source speaks once it has ended, has failed, or all are gone. -/
def Orderly (is : List Input) : Prop :=
  is.Pairwise fun i j => ∀ s, i.closes s = true → j.source? ≠ some s

theorem sent_eq_nil {s : Nat} {is : List Input} (h : ∀ i ∈ is, i.source? ≠ some s) : sent s is = [] := by
  unfold sent ofSource arrivals
  rw [List.filterMap_filterMap, List.filterMap_eq_nil_iff]
  intro i hi
  cases i with
  | block t b =>
    have ht : t ≠ s := fun e => h _ hi (congrArg some e)
    simp [Input.arrival?, ht]
  | _ => rfl

/-! ## The preamble, seen from one source -/

namespace Preamble

def heldOf (s : Nat) (p : Preamble) : List Block := (p.sources[s]?.map HeldSource.blocks).getD []

theorem ofSource_collect (part : HeldSource → List Block) (p : Preamble) (s : Nat) :
    ofSource s (p.collect part) = (p.sources[s]?.map part).getD [] := by
  obtain ⟨sources, began⟩ := p
  unfold collect
  suffices h : ∀ k, ofSource (k + s) ((sources.zipIdx k).flatMap fun x => (part x.1).map fun b => (x.2, b))
      = (sources[s]?.map part).getD [] by
    have h0 := h 0
    rwa [Nat.zero_add] at h0
  induction sources generalizing s with
  | nil => intro k; rfl
  | cons h rest ih =>
    intro k
    simp only [List.zipIdx_cons, List.flatMap_cons, ofSource_append, ofSource_map]
    cases s with
    | zero =>
      -- the sources behind have greater numbers
      have hlater : ofSource k ((rest.zipIdx (k + 1)).flatMap fun x => (part x.1).map fun b => (x.2, b)) = [] := by
        unfold ofSource
        rw [List.filterMap_eq_nil_iff]
        intro e he
        obtain ⟨⟨g, i⟩, hgi, he⟩ := List.mem_flatMap.mp he
        obtain ⟨b, -, rfl⟩ := List.mem_map.mp he
        have := List.le_snd_of_mem_zipIdx hgi
        rw [if_neg (by dsimp only at this ⊢; omega)]
      simp [hlater]
    | succ s =>
      have hk : k ≠ k + (s + 1) := by omega
      have hs : k + (s + 1) = k + 1 + s := by omega
      rw [if_neg hk, hs, ih s (k + 1)]
      simp

theorem ofSource_inOrder (p : Preamble) (s : Nat) : ofSource s p.inOrder = p.heldOf s := by
  unfold inOrder heldOf
  rw [ofSource_append, ofSource_collect, ofSource_collect]
  cases p.sources[s]? with
  | none => rfl
  | some h => exact List.takeWhile_append_dropWhile

theorem fst_lt_of_mem_inOrder {p : Preamble} {e : Nat × Block} (h : e ∈ p.inOrder) : e.1 < p.sources.length := by
  have hc : ∀ part : HeldSource → List Block, e ∈ p.collect part → e.1 < p.sources.length := by
    intro part hm
    obtain ⟨⟨g, i⟩, hgi, he⟩ := List.mem_flatMap.mp hm
    obtain ⟨b, -, rfl⟩ := List.mem_map.mp he
    have := List.snd_lt_of_mem_zipIdx hgi
    simpa using this
  rcases List.mem_append.mp h with h | h
  · exact hc _ h
  · exact hc _ h

theorem heldOf_push (source : Nat) (b : Block) (now : Nat) (p : Preamble) (hs : source < p.sources.length) (s : Nat) :
    (p.push source b now).heldOf s = p.heldOf s ++ if source = s then [b] else [] := by
  unfold heldOf push
  rw [List.getElem?_modify]
  by_cases h : source = s
  · subst h
    rw [List.getElem?_eq_getElem hs]
    simp
  · simp [h]

theorem heldOf_markReady (source : Nat) (p : Preamble) (s : Nat) : (p.markReady source).heldOf s = p.heldOf s := by
  unfold heldOf markReady
  rw [List.getElem?_modify]
  cases p.sources[s]? with
  | none => rfl
  | some h => by_cases hs : source = s <;> simp [hs, HeldSource.blocks]

theorem heldOf_expire (now wait : Nat) (p : Preamble) (s : Nat) : (p.expire now wait).heldOf s = p.heldOf s := by
  unfold heldOf expire
  rw [List.getElem?_map, Option.map_map]
  rfl

theorem heldOf_start (n now s : Nat) : (start n now).heldOf s = [] := by
  unfold heldOf start
  rw [List.getElem?_replicate]
  by_cases h : s < n <;> simp [h, HeldSource.empty, HeldSource.blocks]

end Preamble

namespace Writer

variable {σ : Type} [World σ]

/-! ## What one block leaves alone -/

theorem put_aside (data : Bytes) (packet : Bool) (x : Writer) (w : σ) :
    (x.put data packet w).1.preamble = x.preamble ∧ (x.put data packet w).1.live = x.live := by
  unfold put
  split
  · exact ⟨rfl, rfl⟩
  · exact ⟨rfl, rfl⟩

theorem openNext_aside (seed : Bytes) (x : Writer) (w : σ) :
    (x.openNext seed w).1.preamble = x.preamble ∧ (x.openNext seed w).1.live = x.live := by
  unfold openNext
  split
  · exact ⟨rfl, rfl⟩
  · exact ⟨rfl, rfl⟩

theorem handle_aside (source : Nat) (b : Block) (x : Writer) (w : σ) :
    (x.handle source b w).1.preamble = x.preamble ∧ (x.handle source b w).1.live = x.live := by
  unfold handle
  split
  · exact ⟨rfl, rfl⟩
  · dsimp only
    split
    · exact ⟨rfl, rfl⟩
    · exact ⟨rfl, rfl⟩
    · split
      · exact put_aside ..
      · rename_i merger _ _ seed _
        have ho := openNext_aside seed { x with merger } w
        split
        · exact ho
        · exact ⟨(put_aside ..).1.trans ho.1, (put_aside ..).2.trans ho.2⟩

/-! ## What the writer does, one thing at a time -/

/-- The end of an idle poll interval: a look at the triggers and at the conditions. -/
def lookOver (x : Writer) (w : σ) : Writer × σ :=
  let (met, output, w) := x.output.checkRotation w
  { x with output, tally := if met then x.tally.addFile else x.tally }.checkTally w

/-- From one state to another these blocks were taken to the output, in this order. In
    between the clock is read, the bookkeeping of the sources goes on, and polls expire. -/
inductive Released (a : Writer × σ) : List (Nat × Block) → Writer × σ → Prop
  | start : Released a [] a
  | block {order : List (Nat × Block)} {x : Writer} {w : σ} (source : Nat) (b : Block) :
      Released a order (x, w) → Released a (order ++ [(source, b)]) (x.handle source b w)
  | clock {order : List (Nat × Block)} {x : Writer} {w : σ} :
      Released a order (x, w) → Released a order (x, (World.now w).2)
  | aside {order : List (Nat × Block)} {x : Writer} {w : σ} (live : List Bool) (preamble : Option Preamble)
      (sourceErrors : List (Nat × String)) :
      Released a order (x, w) → Released a order ({ x with live, preamble, sourceErrors }, w)
  | look {order : List (Nat × Block)} {x : Writer} {w : σ} :
      Released a order (x, w) → Released a order (x.lookOver w)

theorem Released.trans {a b c : Writer × σ} {o₁ o₂ : List (Nat × Block)} (h₁ : Released a o₁ b)
    (h₂ : Released b o₂ c) : Released a (o₁ ++ o₂) c := by
  induction h₂ with
  | start => rw [List.append_nil]; exact h₁
  | block source bl _ ih => rw [← List.append_assoc]; exact ih.block source bl
  | clock _ ih => exact ih.clock
  | aside live preamble sourceErrors _ ih => exact ih.aside live preamble sourceErrors
  | look _ ih => exact ih.look

theorem Released.blocks {a : Writer × σ} {done : List (Nat × Block)} (order : List (Nat × Block)) {s : Writer × σ}
    (h : Released a done s) :
    Released a (done ++ order) (order.foldl (fun s e => handle e.1 e.2 s.1 s.2) s) := by
  induction order generalizing done s with
  | nil => rw [List.append_nil]; exact h
  | cons e rest ih =>
    have hr := ih (h.block e.1 e.2)
    rwa [List.append_assoc] at hr

theorem foldl_handle_aside (order : List (Nat × Block)) (s : Writer × σ) :
    (order.foldl (fun s e => handle e.1 e.2 s.1 s.2) s).1.preamble = s.1.preamble ∧
      (order.foldl (fun s e => handle e.1 e.2 s.1 s.2) s).1.live = s.1.live := by
  induction order generalizing s with
  | nil => exact ⟨rfl, rfl⟩
  | cons e rest ih =>
    obtain ⟨hp, hl⟩ := ih (handle e.1 e.2 s.1 s.2)
    exact ⟨hp.trans (handle_aside ..).1, hl.trans (handle_aside ..).2⟩

/-! ## Nothing is lost on the way to the merger -/

def held (s : Nat) (x : Writer) : List Block := (x.preamble.map (Preamble.heldOf s)).getD []

def Sized (n : Nat) (x : Writer) : Prop := ∀ p, x.preamble = some p → p.sources.length = n

/-- Between two states the inputs `is` came in and the blocks `order` went out: of each
    source that is what was held before and came, less what is held still. -/
structure Passed (n : Nat) (a : Writer × σ) (is : List Input) (order : List (Nat × Block)) (b : Writer × σ) :
    Prop where
  released : Released a order b
  conserved : ∀ s, ofSource s order ++ held s b.1 = held s a.1 ++ sent s is
  within : ∀ e ∈ order, e.1 < n
  sized : Sized n b.1
  closed : ∀ s : Nat, b.1.live[s]? = some false → a.1.live[s]? = some false ∨ ∃ i ∈ is, i.closes s = true
  liveLength : b.1.live.length = a.1.live.length

variable {n : Nat}

theorem Passed.refl {a : Writer × σ} (hs : Sized n a.1) : Passed n a [] [] a := by
  refine ⟨.start, fun s => ?_, fun e he => absurd he List.not_mem_nil, hs, fun s h => Or.inl h, rfl⟩
  rw [ofSource_nil, sent_nil, List.append_nil, List.nil_append]

theorem Passed.trans {a b c : Writer × σ} {is js : List Input} {o₁ o₂ : List (Nat × Block)}
    (h₁ : Passed n a is o₁ b) (h₂ : Passed n b js o₂ c) : Passed n a (is ++ js) (o₁ ++ o₂) c where
  released := h₁.released.trans h₂.released
  conserved s := by
    rw [ofSource_append, sent_append, List.append_assoc, h₂.conserved s, ← List.append_assoc,
      h₁.conserved s, List.append_assoc]
  within e he := by
    rcases List.mem_append.mp he with he | he
    · exact h₁.within e he
    · exact h₂.within e he
  sized := h₂.sized
  closed s h := by
    rcases h₂.closed s h with h | ⟨i, hi, hc⟩
    · rcases h₁.closed s h with h | ⟨i, hi, hc⟩
      · exact Or.inl h
      · exact Or.inr ⟨i, List.mem_append_left _ hi, hc⟩
    · exact Or.inr ⟨i, List.mem_append_right _ hi, hc⟩
  liveLength := h₂.liveLength.trans h₁.liveLength

/-! ## One input -/

theorem flush_passed {x : Writer} (w : σ) (hs : Sized n x) :
    (∃ order, Passed n (x, w) [] order (x.flush w)) ∧ (x.flush w).1.preamble = none := by
  unfold flush
  split
  · rename_i hp
    exact ⟨⟨[], Passed.refl hs⟩, hp⟩
  · rename_i p hp
    have ha := foldl_handle_aside p.inOrder ({ x with preamble := none }, w)
    have hr : Released (x, w) [] ({ x with preamble := none }, w) := Released.start.aside x.live none x.sourceErrors
    refine ⟨⟨p.inOrder, hr.blocks p.inOrder, fun s => ?_, fun e he => ?_, fun q hq => ?_, fun s h => ?_, ?_⟩, ha.1⟩
    · have hheld : held s x = p.heldOf s := by unfold held; rw [hp]; rfl
      have hnone : held s (p.inOrder.foldl (fun s e => handle e.1 e.2 s.1 s.2) ({ x with preamble := none }, w)).1 = [] := by
        unfold held; rw [ha.1]; rfl
      rw [hnone, hheld, p.ofSource_inOrder, sent_nil]
    · rw [← hs p hp]
      exact Preamble.fst_lt_of_mem_inOrder he
    · rw [ha.1] at hq; cases hq
    · rw [ha.2] at h; exact Or.inl h
    · rw [ha.2]

theorem hold_passed {a : Writer × σ} {x : Writer} {w : σ} {p : Preamble} {is : List Input}
    (h : Passed n a is [] ({ x with preamble := some p }, w)) : ∃ order, Passed n a is order (x.hold p w) := by
  unfold hold
  dsimp only
  split
  · obtain ⟨⟨order, hf⟩, -⟩ := flush_passed w h.sized
    have ht := h.trans hf
    rw [List.append_nil] at ht
    exact ⟨_, ht⟩
  · exact ⟨[], h⟩

theorem expire_passed {x : Writer} (w : σ) (hs : Sized n x) : ∃ order, Passed n (x, w) [] order (x.expire w) := by
  unfold expire
  split
  · exact ⟨[], Passed.refl hs⟩
  · rename_i p hp
    refine hold_passed ⟨Released.start.clock.aside x.live (some _) x.sourceErrors, fun s => ?_,
      fun e he => absurd he List.not_mem_nil, fun q hq => ?_, fun s h => Or.inl h, rfl⟩
    · simp [held, hp, Preamble.heldOf_expire]
    · cases hq
      exact (List.length_map _).trans (hs p hp)

theorem receive_passed {x : Writer} (w : σ) (hs : Sized n x) {source : Nat} (hsource : source < n) (b : Block) :
    ∃ order, Passed n (x, w) [.block source b] order (x.receive source b w) := by
  have hsent : ∀ s, sent s [.block source b] = if source = s then [b] else [] := fun s =>
    ofSource_singleton s source b
  unfold receive
  split
  · rename_i hp
    have ha := handle_aside source b x w
    refine ⟨[(source, b)], .block source b .start, fun s => ?_, fun e he => ?_, fun q hq => ?_, fun s h => ?_, ?_⟩
    · rw [hsent, ofSource_singleton]
      simp [held, ha.1, hp]
    · rw [List.mem_singleton.mp he]; exact hsource
    · rw [ha.1, hp] at hq; cases hq
    · rw [ha.2] at h; exact Or.inl h
    · rw [ha.2]
  · rename_i p hp
    refine hold_passed ⟨Released.start.clock.aside x.live (some _) x.sourceErrors, fun s => ?_,
      fun e he => absurd he List.not_mem_nil, fun q hq => ?_, fun s h => Or.inl h, rfl⟩
    · have hlt : source < p.sources.length := hs p hp ▸ hsource
      rw [hsent]
      simp [held, hp, Preamble.heldOf_push source b _ p hlt]
    · cases hq
      exact (List.length_modify _ _ _).trans (hs p hp)

theorem sourceDone_passed {x : Writer} (w : σ) (hs : Sized n x) {i : Input} {source : Nat}
    (hi : i.closes source = true) (hn : i.arrival? = none) :
    ∃ order, Passed n (x, w) [i] order (x.sourceDone source w) := by
  have hsent : ∀ s, sent s [i] = [] := fun s => by simp [sent, arrivals, hn]
  have hclosed : ∀ s : Nat, (x.live.set source false)[s]? = some false →
      x.live[s]? = some false ∨ ∃ j ∈ [i], j.closes s = true := by
    intro s h
    by_cases he : source = s
    · exact Or.inr ⟨i, List.mem_singleton_self i, he ▸ hi⟩
    · rw [List.getElem?_set_ne he] at h; exact Or.inl h
  unfold sourceDone
  dsimp only
  split
  · rename_i hp
    refine ⟨[], Released.start.aside (x.live.set source false) x.preamble x.sourceErrors, fun s => ?_,
      fun e he => absurd he List.not_mem_nil, hs, hclosed, List.length_set⟩
    rw [hsent, ofSource_nil, List.append_nil, List.nil_append]
    rfl
  · rename_i p hp
    refine hold_passed ⟨Released.start.aside (x.live.set source false) (some _) x.sourceErrors, fun s => ?_,
      fun e he => absurd he List.not_mem_nil, fun q hq => ?_, hclosed, List.length_set⟩
    · have hp' : x.preamble = some p := hp
      simp [held, hp', hsent, Preamble.heldOf_markReady]
    · cases hq
      exact (List.length_modify _ _ _).trans (hs p hp)

theorem idle_passed {x : Writer} (w : σ) (hs : Sized n x) : ∃ order, Passed n (x, w) [.idle] order (x.idle w) := by
  obtain ⟨⟨order, hf⟩, -⟩ := flush_passed w hs
  have hlook : Passed n (x.flush w) [.idle] [] (x.idle w) :=
    ⟨Released.start.look, fun s => (List.append_nil _).symm, fun e he => absurd he List.not_mem_nil, hf.sized,
      fun s h => Or.inl h, rfl⟩
  exact ⟨_, hf.trans hlook⟩

/-- One input: no source loses anything. -/
theorem step_passed {x : Writer} (w : σ) (hs : Sized n x) (i : Input) (hi : ∀ s, i.source? = some s → s < n) :
    ∃ order, Passed n (x, w) [i] order (step i x w) := by
  cases i with
  | block source b =>
    obtain ⟨o₁, h₁⟩ := receive_passed w hs (hi source rfl) b
    obtain ⟨o₂, h₂⟩ := expire_passed (x.receive source b w).2 h₁.sized
    exact ⟨_, h₁.trans h₂⟩
  | ended source =>
    obtain ⟨o₁, h₁⟩ := sourceDone_passed (i := .ended source) w hs (beq_self_eq_true source) rfl
    obtain ⟨o₂, h₂⟩ := expire_passed (x.sourceDone source w).2 h₁.sized
    exact ⟨_, h₁.trans h₂⟩
  | failed source error =>
    let noted : Writer := { x with sourceErrors := x.sourceErrors ++ [(source, error)] }
    have h₀ : Passed n (x, w) [] [] (noted, w) :=
      ⟨Released.start.aside x.live x.preamble _, fun s => (List.append_nil _).symm,
        fun e he => absurd he List.not_mem_nil, hs, fun s h => Or.inl h, rfl⟩
    obtain ⟨o₁, h₁⟩ := sourceDone_passed (x := noted) (i := .failed source error) w hs (beq_self_eq_true source) rfl
    obtain ⟨o₂, h₂⟩ := expire_passed (noted.sourceDone source w).2 h₁.sized
    exact ⟨_, h₀.trans (h₁.trans h₂)⟩
  | idle => exact idle_passed w hs
  | disconnected =>
    let gone : Writer := { x with live := x.live.map fun _ => false }
    have h₀ : Passed n (x, w) [.disconnected] [] (gone, w) :=
      ⟨Released.start.aside _ x.preamble x.sourceErrors, fun s => (List.append_nil _).symm,
        fun e he => absurd he List.not_mem_nil, hs, fun s h => Or.inr ⟨_, List.mem_singleton_self _, rfl⟩,
        List.length_map _⟩
    obtain ⟨⟨o₁, h₁⟩, -⟩ := flush_passed (x := gone) w hs
    exact ⟨_, h₀.trans h₁⟩

/-! ## A run -/

theorem run_of_isFinished {x : Writer} (h : x.isFinished = true) (is : List Input) (w : σ) :
    run is x w = (x, w) := by
  induction is with
  | nil => rfl
  | cons i rest ih =>
    have hc : run (i :: rest) x w = run rest x w := by
      simp only [run, List.foldl_cons, h, if_true]
    rw [hc, ih]

theorem run_cons {x : Writer} (h : x.isFinished = false) (i : Input) (is : List Input) (w : σ) :
    run (i :: is) x w = run is (step i x w).1 (step i x w).2 := by
  simp only [run, List.foldl_cons, h, Bool.false_eq_true, if_false]

/-- A run takes the inputs up to where it has nothing more to wait for, and no source
    loses anything of them. -/
theorem run_passed {x : Writer} (w : σ) (hs : Sized n x) {is : List Input} (hw : Within n is) :
    ∃ taken rest order, is = taken ++ rest ∧ (rest ≠ [] → (run is x w).1.isFinished = true) ∧
      Passed n (x, w) taken order (run is x w) := by
  induction is generalizing x w with
  | nil => exact ⟨[], [], [], rfl, fun h => absurd rfl h, Passed.refl hs⟩
  | cons i rest ih =>
    by_cases hf : x.isFinished = true
    · rw [run_of_isFinished hf]
      exact ⟨[], i :: rest, [], rfl, fun _ => hf, Passed.refl hs⟩
    · rw [run_cons (Bool.eq_false_iff.mpr hf)]
      obtain ⟨o₁, h₁⟩ := step_passed w hs i (hw i List.mem_cons_self)
      obtain ⟨taken, left, o₂, hsplit, hdone, h₂⟩ :=
        ih (step i x w).2 h₁.sized fun j hj => hw j (List.mem_cons_of_mem _ hj)
      exact ⟨i :: taken, left, o₁ ++ o₂, by rw [hsplit]; rfl, hdone, h₁.trans h₂⟩

/-- Where all sources ended in order, nothing they sent was left out. -/
theorem sent_of_finished {is taken rest : List Input} (ho : Orderly is) (hsplit : is = taken ++ rest) {s : Nat}
    (hc : ∃ i ∈ taken, i.closes s = true) : sent s taken = sent s is := by
  obtain ⟨i, hi, hclose⟩ := hc
  have hrest : sent s rest = [] := by
    refine sent_eq_nil fun j hj => ?_
    have hp := (List.pairwise_append.mp (hsplit ▸ ho)).2.2
    exact hp i hi j hj s hclose
  rw [hsplit, sent_append, hrest, List.append_nil]

end Writer

end CaptureRing
