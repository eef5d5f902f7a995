/-
  CaptureRing.Proofs.Autostop — conditions cut a capture off, and do nothing else.

  With conditions on packets, bytes and files, a capture does what it would do without them, up to
  and including the first block or idle tick after which its totals meet one; from then on it does
  nothing (`Cut`). How many packets and files that lets through follows from the deeds alone:
  packets and files count up one by one, and only by what is followed by a look at the conditions.

  Proved, for a ledger over any world:
  - `Cut.packets`: a condition on packets alone lets so many packets through, if they come;
  - `Cut.openings`: with a condition on files, no file is opened beyond that number;
  - `autostop_truncates`: where a capture is cut, and by which condition.
-/

import CaptureRing.Proofs.Accounts
import CaptureRing.Proofs.Attribution

namespace CaptureRing

variable {conds : Autostop} {log whole : List Deed}

/-! ## The cut -/

/-- These deeds are the whole up to the first moment to stop, and this is the condition, the first
    in the list of those that are met there. -/
inductive Cut (conds : Autostop) (whole : List Deed) : List Deed → Option Condition → Prop
  | complete : (∀ p, p <+: whole → ¬ Due conds p) → Cut conds whole whole none
  | cut {log : List Deed} {c : Condition} : log <+: whole → Due conds log →
      (∀ p, p <+: whole → Due conds p → log <+: p) → conds.find? (Totals.of log).meets = some c →
      Cut conds whole log (some c)

theorem Stops.cut {fired : Option Condition} (h : Stops conds log fired) (hlog : log <+: whole)
    (hwhole : fired = none → log = whole) : Cut conds whole log fired := by
  cases fired with
  | none =>
    obtain rfl := hwhole rfl
    exact .complete h
  | some c =>
    obtain ⟨hfind, hdue, hfirst⟩ := h
    refine .cut hlog hdue ?_ hfind
    intro p hp hpdue
    rcases List.prefix_or_prefix_of_prefix hp hlog with hp | hp
    · obtain rfl := hfirst p hp hpdue
      exact List.prefix_rfl
    · exact hp

theorem Cut.behind {stop : Option Condition} (h : Cut conds whole log stop) : log <+: whole := by
  cases h with
  | complete _ => exact List.prefix_rfl
  | cut hlog _ _ _ => exact hlog

/-- Before the cut there was no moment to stop. -/
theorem Cut.not_due {stop : Option Condition} (h : Cut conds whole log stop) {p : List Deed} {d : Deed}
    (hp : p ++ [d] <+: log) {q : List Deed} (hq : q <+: p) : ¬ Due conds q := by
  have hlog := h.behind
  have hqlog : q <+: log := hq.trans ((List.prefix_append p [d]).trans hp)
  intro hdue
  cases h with
  | complete hnone => exact hnone q hqlog hdue
  | cut _ _ hfirst _ =>
    have hlength := (hfirst q (hqlog.trans hlog) hdue).length_le
    have hshort := hp.length_le
    have hshorter := hq.length_le
    simp at hshort
    omega

/-! ## Packets and files count up one by one -/

/-- A condition that opening a file does not meet was met at a moment to stop. -/
theorem exists_due {c : Condition} (hc : c ∈ conds) (hstart : Totals.meets ⟨0, 0, 0⟩ c = false)
    (hopened : ∀ (t : Totals) (path : String) (seed : Bytes), (t.add (.opened path seed)).meets c = t.meets c)
    (h : (Totals.of log).meets c = true) : ∃ p, p <+: log ∧ Due conds p := by
  induction log using List.reverseRecOn with
  | nil =>
    rw [show (Totals.of []).meets c = false from hstart] at h
    cases h
  | append_singleton log d ih =>
    cases hd : d.isOpening with
    | true =>
      cases d with
      | opened path seed =>
        rw [Totals.of_snoc, hopened] at h
        obtain ⟨p, hp, hdue⟩ := ih h
        exact ⟨p, hp.trans (List.prefix_append _ _), hdue⟩
      | wrote | waited => cases hd
    | false => exact ⟨log ++ [d], List.prefix_rfl, ⟨log, d, rfl, hd⟩, List.any_eq_true.mpr ⟨c, hc, h⟩⟩

theorem exists_due_packets {n : UInt64} (hc : .packets n ∈ conds) (hn : 0 < n.toNat)
    (h : n.toNat ≤ (Totals.of log).packets) : ∃ p, p <+: log ∧ Due conds p :=
  exists_due hc (decide_eq_false (by simp; omega)) (fun _ _ _ => rfl) (decide_eq_true h)

theorem exists_due_files {n : UInt64} (hc : .files n ∈ conds) (hn : 0 < n.toNat)
    (h : n.toNat ≤ (Totals.of log).files) : ∃ p, p <+: log ∧ Due conds p :=
  exists_due hc (decide_eq_false (by simp; omega)) (fun _ _ _ => rfl) (decide_eq_true h)

theorem Totals.packets_add (t : Totals) (d : Deed) : t.packets ≤ (t.add d).packets ∧ (t.add d).packets ≤ t.packets + 1 := by
  cases d with
  | opened | waited => simp [add]
  | wrote data packet met => cases packet <;> simp [add]

theorem Totals.packets_mono {p log : List Deed} (h : p <+: log) : (of p).packets ≤ (of log).packets := by
  obtain ⟨rest, rfl⟩ := h
  induction rest using List.reverseRecOn with
  | nil => simp
  | append_singleton rest d ih =>
    rw [← List.append_assoc, of_snoc]
    exact ih.trans (packets_add _ d).1

/-- Each of the files opened was the last one at some time. -/
theorem Deed.exists_opened {n : Nat} (h : n < openings log) :
    ∃ p path seed, p ++ [.opened path seed] <+: log ∧ openings p = n := by
  induction log using List.reverseRecOn with
  | nil => cases h
  | append_singleton log d ih =>
    by_cases hn : n < openings log
    · obtain ⟨p, path, seed, hp, he⟩ := ih hn
      exact ⟨p, path, seed, hp.trans (List.prefix_append _ _), he⟩
    · rw [openings_snoc] at h
      cases d with
      | opened path seed =>
        simp only [isOpening, if_true] at h
        exact ⟨log, path, seed, List.prefix_rfl, by omega⟩
      | wrote | waited =>
        simp [isOpening] at h
        omega

/-! ## What is let through -/

/-- A condition on packets alone lets so many packets through, or all there are. -/
theorem Cut.packets {n : UInt64} {stop : Option Condition} (h : Cut [.packets n] whole log stop) (hn : 0 < n.toNat) :
    (Totals.of log).packets = min n.toNat (Totals.of whole).packets := by
  have hcut := h
  cases h with
  | complete hnone =>
    have hfew : (Totals.of log).packets < n.toNat := by
      by_contra hmany
      obtain ⟨p, hp, hdue⟩ := exists_due_packets (List.mem_singleton_self _) hn (Nat.le_of_not_lt hmany)
      exact hnone p hp hdue
    omega
  | cut hlog hdue hfirst hfind =>
    obtain ⟨⟨p, d, rfl, -⟩, hmet⟩ := hdue
    have henough : n.toNat ≤ (Totals.of (p ++ [d])).packets := by
      simpa [Totals.meets] using hmet
    have hbefore : (Totals.of p).packets < n.toNat := by
      by_contra hmany
      obtain ⟨q, hq, hqdue⟩ := exists_due_packets (List.mem_singleton_self _) hn (Nat.le_of_not_lt hmany)
      exact hcut.not_due List.prefix_rfl hq hqdue
    have hone := (Totals.packets_add (Totals.of p) d).2
    have hall := Totals.packets_mono hlog
    rw [← Totals.of_snoc] at hone
    omega

/-- A file is opened once the one before it has met its threshold, so none is opened after the
    last that may. -/
theorem Cut.openings {n : UInt64} {stop : Option Condition} (h : Cut conds whole log stop) (hc : .files n ∈ conds)
    (hn : 0 < n.toNat)
    (hopened : ∀ p path seed, p ++ [.opened path seed] <+: log → Deed.openings p = (Totals.of p).files) :
    Deed.openings log ≤ n.toNat := by
  by_contra hmany
  obtain ⟨p, path, seed, hp, hcount⟩ := Deed.exists_opened (Nat.lt_of_not_le hmany)
  have hfiles : n.toNat ≤ (Totals.of p).files := by
    rw [← hopened p path seed hp, hcount]
  obtain ⟨q, hq, hdue⟩ := exists_due_files hc hn hfiles
  exact h.not_due hp hq hdue

/-! ## The beginning and the end -/

namespace Writer

variable {σ : Type} [World σ] {c : Config} {h : Host}

/-- The conditions have no part in the beginning. -/
theorem startCapture_freed {w w' : σ} {x : Writer} (hs : startCapture c h w = (.ok x, w')) :
    startCapture { c with autostop := [] } h w = (.ok x.freed, w') := by
  unfold startCapture at hs ⊢
  split at hs
  · cases hs
  · rename_i hsources
    rw [if_neg hsources]
    have hpoll : Config.poll { c with autostop := [] } = c.poll := rfl
    have hroom : Config.hasRoom { c with autostop := [] } = c.hasRoom := rfl
    rw [hpoll, hroom]
    cases hp : c.poll with
    | error e =>
      rw [hp] at hs
      cases hs
    | ok poll =>
      rw [hp] at hs
      dsimp only at hs ⊢
      split at hs
      · rename_i hr
        rw [if_pos hr]
        split at hs
        · cases hs
        · cases hs
          rfl
      · cases hs

theorem startCapture_counts {w w' : σ} {x : Writer} (hs : startCapture c h w = (.ok x, w')) :
    x.bytes = (x.merger.seed none).length ∧ x.tally.totals = ⟨0, (x.merger.seed none).length, 0⟩ := by
  unfold startCapture at hs
  split at hs
  · cases hs
  split at hs
  · cases hs
  split at hs
  · dsimp only at hs
    split at hs
    · cases hs
    · cases hs
      exact ⟨rfl, by simp [Tally.totals, Tally.addBytes, Tally.start]⟩
  · cases hs

theorem startCapture_booked {w : σ} {x : Writer} {l : Ledger σ}
    (hs : startCapture c h (Ledger.blank w) = (.ok x, l)) : Booked c.autostop (Course.begin x l) := by
  have hst := startCapture_started hs
  obtain ⟨hbytes, htotals⟩ := startCapture_counts hs
  obtain ⟨path, ring, l₀, hl₀, -, ho⟩ := hst.opened
  have hpath : x.output.ring.getLast?.getD "" = path := by
    rw [ho.ring]
    simp
  have hof : Totals.of [.opened path (x.merger.seed none)] = ⟨0, (x.merger.seed none).length, 0⟩ := by
    simp [Totals.of, Totals.add]
  unfold Course.begin
  rw [hpath]
  refine ⟨⟨?_, ?_, ?_, ?_, ?_, ?_⟩, hst.conditions, ?_⟩
  · show l.files = [] ++ [_]
    rw [ho.files, hl₀]
  · exact hst.packets.trans (by rw [hof])
  · exact hbytes.trans (by rw [hof])
  · exact fun _ => htotals.trans hof.symm
  · intro _
    show _ + (if x.output.state = .rotating then 1 else 0) = _
    rw [hof, ho.state]
    rfl
  · intro p path' seed' hp
    have hlength := hp.length_le
    simp at hlength
    rw [hlength]
    rfl
  · show Stops _ _ x.tally.fired
    rw [hst.fired]
    exact Stops.nil.opened path (x.merger.seed none)

variable {w : σ} {x : Writer} {l : Ledger σ} {is : List Input}

theorem course_booked (hs : startCapture c h (Ledger.blank w) = (.ok x, l)) (htime : Timeless c.autostop)
    (he : (course is x l).writer.outputError = none) : Booked c.autostop (course is x l) :=
  (course_along is x l).booked (startCapture_booked hs) htime he

end Writer

structure Accounted {σ : Type} (log : List Deed) (out : CaptureResult × Ledger σ) : Prop where
  files : out.2.files = Deed.files log
  packets : out.1.packets = (Totals.of log).packets
  bytes : out.1.bytes = (Totals.of log).bytes
  opened : ∀ p path seed, p ++ [.opened path seed] <+: log → Deed.openings p = (Totals.of p).files

open Writer

theorem Booked.accounted {σ : Type} [World σ] {x : Writer} {l : Ledger σ} {is : List Input}
    (hb : Booked conds (course is x l)) :
    Accounted (x.history is l) ((Writer.run is x l).1.conclude (Writer.run is x l).2) := by
  refine ⟨?_, ?_, ?_, hb.opened⟩
  · rw [conclude_files, ← course_world]
    exact hb.files
  · rw [conclude_packets, ← course_writer]
    exact hb.packets
  · show ((Writer.run is x l).1.flush (Writer.run is x l).2).1.bytes = _
    rw [← course_writer]
    exact hb.bytes

/-! ## The theorem -/

/-- Conditions on packets, bytes and files cut a capture off after the first block or idle tick
    after which its totals meet one, and change nothing before; the result names the first in the
    list of those that are met. Nothing is asked of the capture but that it does not fail without
    conditions. -/
theorem autostop_truncates {σ : Type} [World σ] {c : Config} {h : Host} {w : σ} {x x₀ : Writer} {l l₀ : Ledger σ}
    (hs : startCapture c h (Ledger.blank w) = (.ok x, l))
    (hs₀ : startCapture { c with autostop := [] } h (Ledger.blank w) = (.ok x₀, l₀))
    (htime : Timeless c.autostop) (is : List Input)
    (he : ((run is x₀ l₀).1.conclude (run is x₀ l₀).2).1.outputError = none) :
    let out := (run is x l).1.conclude (run is x l).2
    let out₀ := (run is x₀ l₀).1.conclude (run is x₀ l₀).2
    Accounted (x.history is l) out ∧ Accounted (x₀.history is l₀) out₀ ∧
      Cut c.autostop (x₀.history is l₀) (x.history is l) out.1.stoppedBy ∧
      (∀ n : UInt64, 0 < n → c.autostop = [.packets n] → out.1.packets = min n.toNat out₀.1.packets) ∧
      ∀ n : UInt64, 0 < n → .files n ∈ c.autostop → out.2.files.length ≤ n.toNat := by
  have hsame : x₀ = x.freed ∧ l₀ = l := by
    rw [startCapture_freed hs] at hs₀
    cases hs₀
    exact ⟨rfl, rfl⟩
  have habreast : Course.Abreast (course is x l) (course is x₀ l₀) := by
    obtain ⟨rfl, rfl⟩ := hsame
    exact ((Course.Abreast.of_freed (Course.begin x l₀)).run is).finish
  have herror₀ : (course is x₀ l₀).writer.outputError = none := by
    rw [course_writer]
    exact outputError_of_conclude he
  have hb₀ := course_booked hs₀ (fun c hc => absurd hc List.not_mem_nil) herror₀
  have hb := course_booked hs htime (habreast.outputError herror₀)
  have hcut := hb.stops.cut habreast.log habreast.log_eq
  have hstopped : ((run is x l).1.conclude (run is x l).2).1.stoppedBy = (course is x l).writer.tally.fired := by
    rw [course_writer]
    rfl
  have hacc := hb.accounted
  have hacc₀ := hb₀.accounted
  refine ⟨hacc, hacc₀, ?_, ?_, ?_⟩
  · rw [hstopped]
    exact hcut
  · intro n hn hone
    rw [hone] at hcut
    rw [hacc.packets, hacc₀.packets]
    exact hcut.packets hn
  · intro n hn hmem
    rw [hacc.files, Deed.length_files]
    exact hcut.openings hmem hn hacc.opened

/-- Of the two packets of `pairInputs`, a capture that ends with the first packet writes one. -/
theorem autostop_truncates_pair : ∃ x x₀ l l₀,
    startCapture { pairConfig with autostop := [.packets 1] } ⟨none, none⟩ (Ledger.blank (Machine.ofDisk .empty))
        = (.ok x, l) ∧
      startCapture pairConfig ⟨none, none⟩ (Ledger.blank (Machine.ofDisk .empty)) = (.ok x₀, l₀) ∧
      ((run pairInputs x₀ l₀).1.conclude (run pairInputs x₀ l₀).2).1.packets = 2 ∧
      ((run pairInputs x l).1.conclude (run pairInputs x l).2).1.packets = 1 ∧
      Cut [.packets 1] (x₀.history pairInputs l₀) (x.history pairInputs l) (some (.packets 1)) := by
  obtain ⟨x₀, l₀, hs₀, htwo, hok⟩ : ∃ x₀ l₀,
      startCapture pairConfig ⟨none, none⟩ (Ledger.blank (Machine.ofDisk .empty)) = (.ok x₀, l₀) ∧
        ((run pairInputs x₀ l₀).1.conclude (run pairInputs x₀ l₀).2).1.packets = 2 ∧
        ((run pairInputs x₀ l₀).1.conclude (run pairInputs x₀ l₀).2).1.outputError = none :=
    ⟨_, _, rfl, by decide +kernel, by decide +kernel⟩
  obtain ⟨x, l, hs, hstop⟩ : ∃ x l,
      startCapture { pairConfig with autostop := [.packets 1] } ⟨none, none⟩ (Ledger.blank (Machine.ofDisk .empty))
          = (.ok x, l) ∧
        ((run pairInputs x l).1.conclude (run pairInputs x l).2).1.stoppedBy = some (.packets 1) :=
    ⟨_, _, rfl, by decide +kernel⟩
  have htime : Timeless [.packets 1] := by
    intro c hc d
    rw [List.mem_singleton.mp hc]
    exact nofun
  obtain ⟨-, -, hcut, hpackets, -⟩ := autostop_truncates hs hs₀ htime pairInputs hok
  rw [hstop] at hcut
  have hone := hpackets 1 (by decide) rfl
  rw [htwo] at hone
  exact ⟨x, x₀, l, l₀, hs, hs₀, htwo, hone, hcut⟩

end CaptureRing
