/-
  CaptureRing.Proofs.Session — what the controller counts while it is in use.

  A session is the controller with the machine it writes to, and with all that was done so far. It
  takes calls in any order, and goes on for as long as none of them fails in the world; a write
  without an open file is refused, which changes nothing, and the session goes on.

  The pages of a session are told by its deeds. What the controller counts of the current file is
  what stands on the last page, and a look that finds a trigger met is the only thing that takes it
  from filling to rotating.

  Proved:
  - `called_of_call`: all that a call can do to a session that goes on;
  - `turns_iff`: a call is answered that a threshold was met exactly when the file starts rotating;
  - `Session.Counted.called`: so each page was found full at most once, and is counted as it is.
-/

import CaptureRing.Proofs.Handles
import CaptureRing.Proofs.Paging

namespace CaptureRing

/-! ## What a call leaves of the current file -/

namespace Output

variable {σ : Type} [World σ] {o o' : Output} {f : OutputFile} {data seed : Bytes} {packet met : Bool} {w w' : σ}

/-- A look that finds a trigger met is what makes a file rotate, and any other look changes nothing. -/
theorem checkRotation_turns (h : o.checkRotation w = (met, o', w')) :
    (met = true → o.state = .filling ∧ o'.state = .rotating) ∧ (met = false → o'.state = o.state) := by
  cases h ▸ o.look_cases w with
  | idle _ | unmet _ _ _ => exact ⟨nofun, fun _ => rfl⟩
  | met hfilling _ _ _ => exact ⟨fun _ => ⟨hfilling, rfl⟩, nofun⟩

/-- A write that is answered that a trigger was met makes the file rotate as well, and any other
    leaves the state. -/
theorem write_turns (h : o.write data packet w = (.ok met, o', w')) :
    (met = true → o.state = .filling ∧ o'.state = .rotating) ∧ (met = false → o'.state = o.state) := by
  cases write_cases h with
  | block _ _ _ _ => exact ⟨nofun, fun _ => rfl⟩
  | packet _ _ _ _ hlook =>
    have hturns := checkRotation_turns hlook
    exact hturns

theorem write_keeps (h : o.write data packet w = (.ok met, o', w')) :
    o'.current.map (·.path) = o.current.map (·.path) ∧ o'.ring = o.ring := by
  cases write_cases h with
  | block _ _ hf _ => exact ⟨by rw [hf]; rfl, rfl⟩
  | @packet f w₁ _ _ _ _ _ hf _ hlook =>
    have hcurrent := checkRotation_current (o.counting data packet f) w₁
    have hshelf := checkRotation_shelf (o.counting data packet f) w₁
    rw [hlook] at hcurrent hshelf
    exact ⟨by rw [show o'.current = _ from hcurrent, hf]; rfl, hshelf.ring⟩

theorem Created.current {path : String} (h : Created o w path o' w') :
    o'.current.map (·.path) = some path ∧ o'.ring.getLast?.getD "" = path ∧ o'.state = .filling := by
  cases h
  unfold start
  exact ⟨rfl, by simp, rfl⟩

/-- The file that was opened is the last of the ring, and the controller fills it. -/
theorem openNext_current (h : o.openNext seed w = (.ok (), o', w')) :
    o'.current.map (·.path) = some (o'.ring.getLast?.getD "") ∧ o'.state = .filling := by
  cases openNext_cases h with
  | bare hcreated _ =>
    obtain ⟨hpath, hlast, hfilling⟩ := hcreated.current
    rw [hlast]
    exact ⟨hpath, hfilling⟩
  | seeded hcreated _ hw =>
    obtain ⟨hpath, hlast, hfilling⟩ := hcreated.current
    obtain ⟨hcurrent, hring⟩ := write_keeps hw
    rw [hcurrent, hring, hlast]
    refine ⟨hpath, ?_⟩
    cases write_cases hw with
    | block _ _ _ _ => exact hfilling
    | packet hpacket _ _ _ _ => cases hpacket

/-- Closing with success leaves the last file as the current one. -/
theorem close_eq (h : o.close w = (.ok (), o', w')) : o' = { o with handle := false, state := .closed } := by
  cases close_cases h with
  | idle hclosed => rw [← hclosed]
  | sealed _ _ => rfl

end Output

/-! ## Sessions -/

def Deed.isMet : Deed → Bool
  | .wrote _ _ met | .waited met => met
  | .opened .. => false

structure Session where
  log : List Deed
  output : Output
  ledger : Ledger Machine

namespace Session

def start (template : String) (policy : RotationPolicy) (m : Machine) : Session :=
  ⟨[], Output.make template policy, Ledger.blank m⟩

/-- Takes one call. A write without an open file is refused, and the session goes on; any other failure
    ends it. -/
def call (s : Session) : Call → Except CaptureError Session
  | .clock instant calendar =>
    .ok { s with ledger := ⟨{ s.ledger.world with clock := instant, calendar }, s.ledger.files⟩ }
  | .openNext seed =>
    match s.output.openNext seed s.ledger with
    | (.ok (), o, l) => .ok ⟨s.log ++ [.opened (o.ring.getLast?.getD "") seed], o, l⟩
    | (.error e, _, _) => .error e
  | .write data packet =>
    match s.output.write data packet s.ledger with
    | (.ok met, o, l) => .ok ⟨s.log ++ [.wrote data packet met], o, l⟩
    | (.error e, o, l) => if s.output.handle then .error e else .ok ⟨s.log, o, l⟩
  | .check =>
    let (met, o, l) := s.output.checkRotation s.ledger
    .ok ⟨s.log ++ [.waited met], o, l⟩
  | .close =>
    match s.output.close s.ledger with
    | (.ok (), o, l) => .ok ⟨s.log, o, l⟩
    | (.error e, _, _) => .error e

def run (calls : List Call) (s : Session) : Except CaptureError Session := calls.foldlM call s

inductive Called (s : Session) : Call → Session → Prop
  | clock (instant : Nat) (calendar : String) : Called s (.clock instant calendar)
      { s with ledger := ⟨{ s.ledger.world with clock := instant, calendar }, s.ledger.files⟩ }
  | opened {seed : Bytes} {o : Output} {l : Ledger Machine} : s.output.openNext seed s.ledger = (.ok (), o, l) →
      Called s (.openNext seed) ⟨s.log ++ [.opened (o.ring.getLast?.getD "") seed], o, l⟩
  | wrote {data : Bytes} {packet met : Bool} {o : Output} {l : Ledger Machine} :
      s.output.write data packet s.ledger = (.ok met, o, l) →
      Called s (.write data packet) ⟨s.log ++ [.wrote data packet met], o, l⟩
  | refused (data : Bytes) (packet : Bool) : s.output.handle = false → Called s (.write data packet) s
  | looked {met : Bool} {o : Output} {l : Ledger Machine} : s.output.checkRotation s.ledger = (met, o, l) →
      Called s .check ⟨s.log ++ [.waited met], o, l⟩
  | closed {o : Output} {l : Ledger Machine} : s.output.close s.ledger = (.ok (), o, l) →
      Called s .close ⟨s.log, o, l⟩

variable {s s' : Session} {c : Call}

theorem called_of_call (h : s.call c = .ok s') : Called s c s' := by
  cases c with
  | clock instant calendar =>
    cases h
    exact .clock instant calendar
  | openNext seed =>
    unfold call at h
    dsimp only at h
    split at h
    · rename_i hopen
      cases h
      exact .opened hopen
    · cases h
  | write data packet =>
    unfold call at h
    dsimp only at h
    split at h
    · rename_i hw
      cases h
      exact .wrote hw
    · rename_i hw
      split at h
      · cases h
      · rename_i hclosed
        have hrefused := Output.write_refused (Bool.eq_false_iff.mpr hclosed) data packet s.ledger
        rw [hw] at hrefused
        cases hrefused
        cases h
        exact .refused data packet (Bool.eq_false_iff.mpr hclosed)
  | check =>
    cases h
    exact .looked rfl
  | close =>
    unfold call at h
    dsimp only at h
    split at h
    · rename_i hclose
      cases h
      exact .closed hclose
    · cases h

theorem run_induction {P : Session → Prop} {calls : List Call} (h : P s)
    (hstep : ∀ c ∈ calls, ∀ a b, Called a c b → P a → P b) (hrun : run calls s = .ok s') : P s' := by
  induction calls generalizing s with
  | nil =>
    cases hrun
    exact h
  | cons c calls ih =>
    unfold run at hrun
    rw [List.foldlM_cons] at hrun
    obtain ⟨next, hnext, hrun⟩ := Block.bind_eq_ok hrun
    exact ih (hstep c List.mem_cons_self s next (called_of_call hnext) h)
      (fun d hd => hstep d (List.mem_cons_of_mem _ hd)) hrun

/-- A deed that was done tells that a trigger was met exactly if it did. -/
theorem met_snoc (log : List Deed) (d : Deed) : (∃ d', log ++ [d] = log ++ [d'] ∧ d'.isMet = true) ↔ d.isMet = true := by
  constructor
  · rintro ⟨d', hd, hmet⟩
    rw [List.append_cancel_left_eq, List.singleton_inj] at hd
    exact hd ▸ hmet
  · exact fun hmet => ⟨d, rfl, hmet⟩

/-- Where nothing was done, no trigger was met. -/
theorem not_met (log : List Deed) : ¬ ∃ d, log = log ++ [d] ∧ d.isMet = true := by
  rintro ⟨d, hd, -⟩
  have hlength := congrArg List.length hd
  rw [List.length_append, List.length_singleton] at hlength
  omega

/-- A call is answered that a trigger was met exactly when it takes the controller from filling to
    rotating. -/
theorem turns_iff (h : Called s c s') : s.output.state = .filling ∧ s'.output.state = .rotating ↔
    ∃ d, s'.log = s.log ++ [d] ∧ d.isMet = true := by
  have hsame {o o' : Output} (hstate : o'.state = o.state) : ¬ (o.state = .filling ∧ o'.state = .rotating) := by
    rintro ⟨hfilling, hrotating⟩
    rw [hstate, hfilling] at hrotating
    cases hrotating
  have hturns {o : Output} {met : Bool} (hmet : met = true → s.output.state = .filling ∧ o.state = .rotating)
      (hkept : met = false → o.state = s.output.state) :
      s.output.state = .filling ∧ o.state = .rotating ↔ met = true := by
    cases met with
    | true => exact iff_of_true (hmet rfl) rfl
    | false => exact iff_of_false (hsame (hkept rfl)) nofun
  cases h with
  | clock instant calendar => exact iff_of_false (hsame rfl) (not_met _)
  | refused data packet _ => exact iff_of_false (hsame rfl) (not_met _)
  | opened hopen =>
    rw [met_snoc]
    refine iff_of_false ?_ nofun
    rintro ⟨-, hrotating⟩
    rw [(Output.openNext_current hopen).2] at hrotating
    cases hrotating
  | wrote hw =>
    rw [met_snoc]
    obtain ⟨hmet, hkept⟩ := Output.write_turns hw
    exact hturns hmet hkept
  | looked hlook =>
    rw [met_snoc]
    obtain ⟨hmet, hkept⟩ := Output.checkRotation_turns hlook
    exact hturns hmet hkept
  | closed hclose =>
    refine iff_of_false ?_ (not_met _)
    rintro ⟨-, hrotating⟩
    rw [Output.close_eq hclose] at hrotating
    cases hrotating

/-! ## What is counted -/

/-- The current file of the controller is this page, counted as it is, and it was found full as often
    as the state tells: not yet, or once. -/
structure Tallied (o : Output) (p : Page) : Prop where
  current : ∃ f, o.current = some f ∧ f.path = p.path ∧ f.bytes = p.bytes ∧ f.packets = p.packets
  met : p.deeds.countP Deed.isMet ≤ if o.state = .filling then 0 else 1

structure Counted (s : Session) : Prop where
  unopened : Deed.pages s.log = [] → s.output.handle = false ∧ s.output.state = .closed
  once : ∀ p ∈ Deed.pages s.log, p.deeds.countP Deed.isMet ≤ 1
  last : ∀ earlier p, Deed.pages s.log = earlier ++ [p] → Tallied s.output p

theorem pages_add {log : List Deed} {d : Deed} (hd : d.isOpening = false) :
    Deed.pages (log ++ [d]) = (Deed.pages log).modifyLast (·.add d) := by
  rw [Deed.pages_snoc]
  cases d with
  | opened path seed => cases hd
  | wrote data packet met => rfl
  | waited met => rfl

namespace Counted

theorem start (template : String) (policy : RotationPolicy) (m : Machine) : Counted (start template policy m) := by
  refine ⟨fun _ => ⟨rfl, rfl⟩, nofun, fun earlier p hpages => ?_⟩
  exact absurd hpages.symm (List.append_ne_nil_of_right_ne_nil _ (List.cons_ne_nil _ _))

theorem of_same (h : Counted s) (hlog : s'.log = s.log) (houtput : s'.output = s.output) : Counted s' := by
  obtain ⟨unopened, once, last⟩ := h
  refine ⟨?_, ?_, ?_⟩
  · rw [hlog, houtput]
    exact unopened
  · rw [hlog]
    exact once
  · rw [hlog, houtput]
    exact last

theorem opened {seed : Bytes} {o : Output} {l : Ledger Machine} (h : Counted s)
    (ho : s.output.openNext seed s.ledger = (.ok (), o, l)) :
    Counted ⟨s.log ++ [.opened (o.ring.getLast?.getD "") seed], o, l⟩ := by
  obtain ⟨f, hf, hbytes, hpackets⟩ := Output.openNext_counts ho
  obtain ⟨hpath, hfilling⟩ := Output.openNext_current ho
  have hpages : Deed.pages (s.log ++ [.opened (o.ring.getLast?.getD "") seed])
      = Deed.pages s.log ++ [⟨o.ring.getLast?.getD "", seed, []⟩] := Deed.pages_snoc ..
  rw [hf, Option.map_some, Option.some.injEq] at hpath
  refine ⟨fun hnone => ?_, fun p hp => ?_, fun earlier p hlast => ?_⟩
  · rw [hpages] at hnone
    exact absurd hnone (List.append_ne_nil_of_right_ne_nil _ (List.cons_ne_nil _ _))
  · rw [hpages] at hp
    rcases List.mem_append.mp hp with hp | hp
    · exact h.once p hp
    · rw [List.mem_singleton.mp hp]
      exact Nat.zero_le 1
  · rw [hpages] at hlast
    obtain ⟨-, hpage⟩ := List.append_inj' hlast rfl
    rw [← List.singleton_inj.mp hpage]
    exact ⟨⟨f, hf, hpath, hbytes, hpackets⟩, Nat.zero_le _⟩

theorem added {d : Deed} {o : Output} {l : Ledger Machine} (h : Counted s) (hd : d.isOpening = false)
    (hmet : d.isMet = true → s.output.state = .filling ∧ o.state = .rotating)
    (hkept : d.isMet = false → o.state = s.output.state)
    (hunopened : Deed.pages s.log = [] → o.handle = s.output.handle)
    (hcurrent : ∀ f (p : Page), s.output.current = some f → f.path = p.path → f.bytes = p.bytes → f.packets = p.packets →
      ∃ f', o.current = some f' ∧ f'.path = p.path ∧ f'.bytes = (p.add d).bytes ∧ f'.packets = (p.add d).packets) :
    Counted ⟨s.log ++ [d], o, l⟩ := by
  have hpages : Deed.pages (s.log ++ [d]) = (Deed.pages s.log).modifyLast (·.add d) := pages_add hd
  rcases List.eq_nil_or_concat (Deed.pages s.log) with hnone | ⟨earlier, p, hsome⟩
  · have hstill : Deed.pages (s.log ++ [d]) = [] := by rw [hpages, hnone]; rfl
    obtain ⟨hhandle, hclosed⟩ := h.unopened hnone
    have hstate : o.state = s.output.state := by
      refine hkept (Bool.eq_false_iff.mpr fun hd' => ?_)
      rw [(hmet hd').1] at hclosed
      cases hclosed
    refine ⟨fun _ => ⟨(hunopened hnone).trans hhandle, hstate.trans hclosed⟩, ?_, fun earlier p hlast => ?_⟩
    · rw [hstill]
      exact nofun
    · rw [hstill] at hlast
      exact absurd hlast.symm (List.append_ne_nil_of_right_ne_nil _ (List.cons_ne_nil _ _))
  · rw [List.concat_eq_append] at hsome
    rw [hsome, List.modifyLast_concat] at hpages
    obtain ⟨⟨f, hf, hpath, hbytes, hpackets⟩, htally⟩ := h.last earlier p hsome
    have hlast : Tallied o (p.add d) := by
      refine ⟨hcurrent f p hf hpath hbytes hpackets, ?_⟩
      show (p.deeds ++ [d]).countP Deed.isMet ≤ _
      rw [List.countP_append, List.countP_singleton]
      cases hd' : d.isMet with
      | true =>
        obtain ⟨hfilling, hrotating⟩ := hmet hd'
        rw [if_pos hfilling] at htally
        have hone : (if o.state = .filling then 0 else 1) = 1 := by rw [hrotating]; rfl
        rw [hone, if_pos rfl]
        omega
      | false =>
        rw [hkept hd']
        simpa using htally
    refine ⟨fun hnone => ?_, fun q hq => ?_, fun earlier' q hq => ?_⟩
    · rw [hpages] at hnone
      exact absurd hnone (List.append_ne_nil_of_right_ne_nil _ (List.cons_ne_nil _ _))
    · rw [hpages] at hq
      rcases List.mem_append.mp hq with hq | hq
      · exact h.once q (hsome ▸ List.mem_append_left _ hq)
      · rw [List.mem_singleton.mp hq]
        refine Nat.le_trans hlast.met ?_
        split
        · exact Nat.zero_le 1
        · exact Nat.le_refl 1
    · rw [hpages] at hq
      obtain ⟨-, hpage⟩ := List.append_inj' hq rfl
      rw [← List.singleton_inj.mp hpage]
      exact hlast

theorem called (h : Counted s) (hc : Called s c s') : Counted s' := by
  cases hc with
  | clock instant calendar => exact h.of_same rfl rfl
  | refused data packet _ => exact h
  | opened hopen => exact h.opened hopen
  | @wrote data packet met o l hw =>
    obtain ⟨hmet, hkept⟩ := Output.write_turns hw
    obtain ⟨hopen, hopen', -⟩ := Output.write_ok_world hw
    refine h.added rfl hmet hkept (fun _ => hopen'.trans hopen.symm) fun f p hf hpath hbytes hpackets => ?_
    obtain ⟨f', hf', hbytes', hpackets'⟩ := Output.write_counts hw hf
    have hsame := (Output.write_keeps hw).1
    rw [hf, hf', Option.map_some, Option.map_some, Option.some.injEq] at hsame
    refine ⟨f', hf', hsame.trans hpath, ?_, ?_⟩
    · rw [hbytes', hbytes, Page.bytes_wrote]
    · rw [hpackets', hpackets, Page.packets_wrote]
  | @looked met o l hlook =>
    obtain ⟨hmet, hkept⟩ := Output.checkRotation_turns hlook
    have hcurrent := Output.checkRotation_current s.output s.ledger
    have hhandle := (Output.checkRotation_world s.output s.ledger).1
    rw [hlook] at hcurrent hhandle
    refine h.added rfl hmet hkept (fun _ => hhandle) fun f p hf hpath hbytes hpackets => ?_
    refine ⟨f, hcurrent.trans hf, hpath, ?_, ?_⟩
    · rw [hbytes, Page.bytes_waited]
    · rw [hpackets, Page.packets_waited]
  | closed hclose =>
    rw [Output.close_eq hclose]
    refine ⟨fun _ => ⟨rfl, rfl⟩, h.once, fun earlier p hlast => ⟨(h.last earlier p hlast).current, ?_⟩⟩
    exact h.once p (hlast ▸ List.mem_append_right _ (List.mem_singleton_self p))

end Counted

end Session

end CaptureRing
