/-
  CaptureRing.Proofs.Handles — the state of the controller, and the file it has open.

  The controller keeps apart what state it is in, whether a file is open, and what is known of the
  current file. These go together: it is closed exactly if no file is open, whatever fails and
  whenever it does, with one exception. A file is given up before its last bytes are on the disk;
  if writing them fails then, no file is open any more, but the controller has not been closed. It
  is stranded: it tells that a file is open and refuses to write to it, and a look at the triggers
  may still find that the file has met one. The next file that is opened, or the next attempt to
  close, mends this.

  Proved, for any world, and so for faults of any kind at any time:
  - `Fits.wrote`, `Fits.closed`, `Fits.opened`: what each call leaves of state and file;
  - `state_matches_handle`: so the controller is open exactly if its file is, or it is stranded;
  - `stranded_on_full_device`: a file on a full device strands it.
-/

import CaptureRing.Proofs.Ring

namespace CaptureRing

variable {σ : Type} [World σ]

/-! ## Calls, one after the other -/

namespace Call

/-- The answer to a call, and the controller and the world after it, whether it went well or not.
    The clock goes as the world has it. -/
def answer (o : Output) (w : σ) : Call → Except CaptureError Bool × Output × σ
  | .clock .. => (.ok false, o, w)
  | .openNext seed =>
    let (r, o, w) := o.openNext seed w
    (r.map fun _ => false, o, w)
  | .write data packet => o.write data packet w
  | .check =>
    let (met, o, w) := o.checkRotation w
    (.ok met, o, w)
  | .close =>
    let (r, o, w) := o.close w
    (r.map fun _ => false, o, w)

def seals : Call → Bool
  | .openNext _ | .close => true
  | .clock .. | .write .. | .check => false

end Call

def drive (calls : List Call) (s : Output × σ) : Output × σ := calls.foldl (fun s c => (c.answer s.1 s.2).2) s

theorem drive_snoc (calls : List Call) (c : Call) (s : Output × σ) :
    drive (calls ++ [c]) s = (c.answer (drive calls s).1 (drive calls s).2).2 := by
  unfold drive
  rw [List.foldl_append]
  rfl

/-- The last call that was to give up the open file has failed in doing so. -/
def Stranded (calls : List Call) (s : Output × σ) : Prop :=
  ∃ before c after, calls = before ++ c :: after ∧ c.seals = true ∧ (∀ d ∈ after, d.seals = false) ∧
    ((drive before s).1.close (drive before s).2).1.isOk = false

theorem stranded_snoc_of_seals {calls : List Call} {c : Call} {s : Output × σ} (hc : c.seals = true) :
    Stranded (calls ++ [c]) s ↔ ((drive calls s).1.close (drive calls s).2).1.isOk = false := by
  constructor
  · rintro ⟨before, c', after, hsplit, -, hafter, hfailed⟩
    rcases snoc_eq_append_cons hsplit with ⟨-, -, rfl⟩ | ⟨after', rfl, -⟩
    · exact hfailed
    · rw [hafter c (List.mem_append_right _ (List.mem_singleton_self c))] at hc
      cases hc
  · exact fun hfailed => ⟨calls, c, [], rfl, hc, nofun, hfailed⟩

theorem stranded_snoc {calls : List Call} {c : Call} {s : Output × σ} (hc : c.seals = false) :
    Stranded (calls ++ [c]) s ↔ Stranded calls s := by
  constructor
  · rintro ⟨before, c', after, hsplit, hc', hafter, hfailed⟩
    rcases snoc_eq_append_cons hsplit with ⟨-, rfl, -⟩ | ⟨after', rfl, hcalls⟩
    · rw [hc] at hc'
      cases hc'
    · exact ⟨before, c', after', hcalls, hc', fun d hd => hafter d (List.mem_append_left _ hd), hfailed⟩
  · rintro ⟨before, c', after, rfl, hc', hafter, hfailed⟩
    refine ⟨before, c', after ++ [c], List.append_assoc .., hc', fun d hd => ?_, hfailed⟩
    rcases List.mem_append.mp hd with hd | hd
    · exact hafter d hd
    · rw [List.mem_singleton.mp hd]
      exact hc

/-! ## What each call leaves -/

theorem Output.nextPath_same (o : Output) (w : σ) : (o.nextPath w).2.1.state = o.state ∧
    (o.nextPath w).2.1.handle = o.handle ∧ (o.nextPath w).2.1.current = o.current := by
  unfold nextPath
  dsimp only
  split
  · exact ⟨rfl, rfl, rfl⟩
  · exact ⟨rfl, rfl, rfl⟩

structure Fits (stranded : Prop) (o : Output) : Prop where
  state : o.state ≠ .closed ↔ o.handle = true ∨ stranded
  stranded : stranded → o.handle = false
  current : o.handle = true → o.current.isSome = true

namespace Fits

variable {stranded : Prop} {o o' : Output}

theorem make (template : String) (policy : RotationPolicy) : Fits False (Output.make template policy) :=
  ⟨⟨fun h => absurd rfl h, fun h => h.elim nofun False.elim⟩, False.elim, nofun⟩

/-- What leaves the file alone, and goes no further than from filling to rotating. -/
theorem of_same (h : Fits stranded o) (hstate : o'.state ≠ .closed ↔ o.state ≠ .closed) (hhandle : o'.handle = o.handle)
    (hcurrent : o.current.isSome = true → o'.current.isSome = true) : Fits stranded o' := by
  refine ⟨?_, fun hs => hhandle.trans (h.stranded hs), fun ho => hcurrent (h.current (hhandle.symm.trans ho))⟩
  rw [hstate, hhandle]
  exact h.state

theorem checked (h : Fits stranded o) (w : σ) : Fits stranded (o.checkRotation w).2.1 := by
  rcases Output.checkRotation_cases o w with ⟨w', hc, -⟩ | ⟨hc, hfilling, -⟩
  · rw [hc]
    exact h
  · rw [hc]
    refine h.of_same ?_ rfl id
    rw [hfilling]
    exact iff_of_true nofun nofun

theorem wrote (h : Fits stranded o) (data : Bytes) (packet : Bool) (w : σ) :
    Fits stranded (o.write data packet w).2.1 := by
  have hcounted (f : OutputFile) : Fits stranded (o.counting data packet f) := h.of_same Iff.rfl rfl fun _ => rfl
  generalize hr : o.write data packet w = r
  cases Output.write_cases hr with
  | refused _ | failed _ _ _ => exact h
  | block _ _ _ _ => exact hcounted _
  | @packet f w₁ _ _ _ _ _ _ _ hlook =>
    have hchecked := (hcounted f).checked w₁
    rw [hlook] at hchecked
    exact hchecked

theorem closed (h : Fits stranded o) (w : σ) : Fits ((o.close w).1.isOk = false) (o.close w).2.1 := by
  generalize hr : o.close w = r
  cases Output.close_cases hr with
  | idle hclosed => exact ⟨iff_of_false (fun hs => hs rfl) (by rw [hclosed]; nofun), nofun, by rw [hclosed]; nofun⟩
  | failed hopen _ => exact ⟨iff_of_true (h.state.mpr (Or.inl hopen)) (Or.inr rfl), fun _ => rfl, nofun⟩
  | sealed _ _ => exact ⟨iff_of_false (fun hs => hs rfl) (fun hs => hs.elim nofun nofun), nofun, nofun⟩

theorem created {path : String} {w w' : σ} (hc : Output.Created o w path o' w') :
    Fits ((o.close w).1.isOk = false) o' := by
  cases hc with
  | intro hclose _ _ =>
    rw [hclose]
    exact ⟨iff_of_true nofun (Or.inl rfl), nofun, fun _ => rfl⟩

theorem opened (h : Fits stranded o) (seed : Bytes) (w : σ) :
    Fits ((o.close w).1.isOk = false) (o.openNext seed w).2.1 := by
  have hclosed := h.closed w
  generalize hr : o.openNext seed w = r
  cases Output.openNext_cases hr with
  | unclosed hclose =>
    rw [hclose] at hclosed ⊢
    exact hclosed
  | @uncreated e path o₁ o₂ w₁ w₂ w₃ hclose hnext _ =>
    rw [hclose] at hclosed ⊢
    obtain ⟨hstate, hhandle, hcurrent⟩ := Output.nextPath_same o₁ w₁
    rw [hnext] at hstate hhandle hcurrent
    exact hclosed.of_same (by rw [hstate]) hhandle (by rw [hcurrent]; exact id)
  | bare hcreated _ => exact created hcreated
  | @unseeded _ _ _ _ w₁ _ hcreated _ hw | @seeded _ _ _ _ w₁ _ hcreated _ hw =>
    have hseeded := (created hcreated).wrote seed false w₁
    rw [hw] at hseeded
    exact hseeded

theorem answered {calls : List Call} {s : Output × σ} (h : Fits (Stranded calls s) (drive calls s).1) (c : Call) :
    Fits (Stranded (calls ++ [c]) s) (drive (calls ++ [c]) s).1 := by
  rw [drive_snoc]
  cases c with
  | clock instant calendar =>
    rw [stranded_snoc rfl]
    exact h
  | write data packet =>
    rw [stranded_snoc rfl]
    exact h.wrote data packet _
  | check =>
    rw [stranded_snoc rfl]
    exact h.checked _
  | openNext seed =>
    rw [stranded_snoc_of_seals rfl]
    exact h.opened seed _
  | close =>
    rw [stranded_snoc_of_seals rfl]
    exact h.closed _

theorem drive (template : String) (policy : RotationPolicy) (w : σ) (calls : List Call) :
    Fits (Stranded calls (Output.make template policy, w))
      (CaptureRing.drive calls (Output.make template policy, w)).1 := by
  induction calls using List.reverseRecOn with
  | nil =>
    have hnone : ¬ Stranded [] (Output.make template policy, w) := by
      rintro ⟨before, c, after, hsplit, -⟩
      exact absurd hsplit.symm (List.append_ne_nil_of_right_ne_nil _ (List.cons_ne_nil _ _))
    rw [eq_false hnone]
    exact make template policy
  | append_singleton calls c ih => exact ih.answered c

end Fits

/-! ## State and file -/

namespace Output

variable {o : Output}

/-- Without an open file a write is refused, and changes nothing. -/
theorem write_refused (h : o.handle = false) (data : Bytes) (packet : Bool) (w : σ) :
    o.write data packet w = (.error (.outputWrite o.template .noFileOpen), o, w) := by
  generalize hr : o.write data packet w = r
  cases write_cases hr with
  | refused _ => rfl
  | failed hopen _ _ | block _ hopen _ _ | packet _ hopen _ _ _ => exact absurd hopen (Bool.eq_false_iff.mp h)

/-- With an open file only the world can make a write fail. -/
theorem write_reaches_world {f : OutputFile} (hopen : o.handle = true) (hf : o.current = some f) {data : Bytes}
    {packet : Bool} {w : σ} {e : CaptureError} (he : (o.write data packet w).1 = .error e) :
    ∃ fault, (World.write data w).1 = .error fault ∧ e = .outputWrite f.path fault := by
  generalize hr : o.write data packet w = r at he
  cases write_cases hr with
  | refused hnone => exact absurd hf (hnone f hopen)
  | failed _ hg hw =>
    cases hf.symm.trans hg
    cases he
    exact ⟨_, by rw [hw], rfl⟩
  | block _ _ _ _ | packet _ _ _ _ _ => cases he

/-- A look only reports a threshold of a controller that is filling a file. -/
theorem state_of_reported {w : σ} (h : (o.checkRotation w).1 = true) : o.state = .filling := by
  rcases checkRotation_cases o w with ⟨w', hc, -⟩ | ⟨-, hfilling, -⟩
  · rw [hc] at h
    cases h
  · exact hfilling

end Output

/-- The state of the controller matches its file, whatever it is asked to do and whatever fails: it is
    open or rotating exactly if a file is open for writing, or if the last file could not be given up
    properly. Only without an open file a write is refused for want of one. A threshold is not reported
    for a file that is no longer open, but for one that could not be given up properly. -/
theorem state_matches_handle (template : String) (policy : RotationPolicy) (w : σ) (calls : List Call) :
    let s := drive calls (Output.make template policy, w)
    let stranded := Stranded calls (Output.make template policy, w)
    (s.1.state ≠ .closed ↔ s.1.handle = true ∨ stranded) ∧
    (stranded → s.1.handle = false) ∧
    (s.1.handle = false → ∀ data packet,
      s.1.write data packet s.2 = (.error (.outputWrite s.1.template .noFileOpen), s.1, s.2)) ∧
    (s.1.handle = true → ∃ f, s.1.current = some f ∧ ∀ data packet e, (s.1.write data packet s.2).1 = .error e →
      ∃ fault, (World.write data s.2).1 = .error fault ∧ e = .outputWrite f.path fault) ∧
    ((s.1.checkRotation s.2).1 = true → s.1.handle = true ∨ stranded) := by
  intro s stranded
  have hfits : Fits stranded s.1 := Fits.drive template policy w calls
  refine ⟨hfits.state, hfits.stranded, fun hclosed data packet => Output.write_refused hclosed data packet s.2,
    fun hopen => ?_, fun hmet => ?_⟩
  · obtain ⟨f, hf⟩ := Option.isSome_iff_exists.mp (hfits.current hopen)
    exact ⟨f, hf, fun data packet e he => Output.write_reaches_world hopen hf he⟩
  · refine hfits.state.mp ?_
    rw [Output.state_of_reported hmet]
    exact nofun

/-- What is held back for a full device cannot be written when it is closed: no file is open then, and
    the controller is still filling one. -/
theorem stranded_on_full_device :
    let s := drive [.openNext [115, 101, 101, 100], .close] (Output.make "/dev/full" ⟨[], none⟩, Machine.ofDisk .empty)
    s.1.state = .filling ∧ s.1.handle = false ∧ (s.1.write [1] true s.2).1.isOk = false := by
  decide +kernel

/-- A world that opens a file and takes bytes for it, and can never give it up. -/
structure Jammed where
  deriving DecidableEq, Repr

instance : World Jammed where
  now w := (⟨0, "20240102030405"⟩, w)
  create _ w := (.ok (), w)
  write _ w := (.ok (), w)
  release w := (.error .noSpace, w)

/-- A file that could not be given up is reported to have met its threshold. -/
example :
    let s := drive [.openNext [], .write [7] false, .close] (Output.make "out.pcapng" ⟨[.bytes 1], none⟩, Jammed.mk)
    s.1.handle = false ∧ (s.1.checkRotation s.2).1 = true := by
  decide +kernel

end CaptureRing
