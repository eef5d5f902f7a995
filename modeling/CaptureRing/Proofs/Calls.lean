/-
  CaptureRing.Proofs.Calls — what one call of the output controller can come to.

  Each call is told once, in any world: how it ends, what it asked of the world, and the controller
  it leaves. What a call keeps is read off these cases, so that a change to a call is a change to
  its cases.

  Proved:
  - `look_cases`: a look at the triggers goes by the clock, and by the file that is filled;
  - `write_cases`: a write is refused, or fails in the world, or is counted by the current file;
  - `close_cases`: the current file is given up, whether that goes well or not;
  - `openNext_cases`: opening closes, finds a path, creates the file and seeds it, or fails in one
    of these.
-/

import CaptureRing.Output

namespace CaptureRing

namespace Output

variable {σ : Type} [World σ]

/-! ## A look at the triggers -/

inductive Looking (o : Output) (w : σ) : Bool × Output × σ → Prop
  /-- No file is being filled. -/
  | idle : (∀ f, o.state = .filling → o.current ≠ some f) → Looking o w (false, o, w)
  | unmet {f : OutputFile} : o.state = .filling → o.current = some f →
      (∀ t ∈ o.policy.triggers, meets (World.now w).1.instant f t = false) → Looking o w (false, o, (World.now w).2)
  | met {f : OutputFile} {t : Trigger} : o.state = .filling → o.current = some f → t ∈ o.policy.triggers →
      meets (World.now w).1.instant f t = true → Looking o w (true, { o with state := .rotating }, (World.now w).2)

theorem look_cases (o : Output) (w : σ) : Looking o w (o.checkRotation w) := by
  unfold checkRotation
  split
  · rename_i f hs hf
    dsimp only
    split
    · rename_i hany
      obtain ⟨t, ht, hmeets⟩ := List.any_eq_true.mp hany
      exact .met hs hf ht hmeets
    · rename_i hnone
      refine .unmet hs hf fun t ht => ?_
      exact Bool.eq_false_iff.mpr fun hmeets => hnone (List.any_eq_true.mpr ⟨t, ht, hmeets⟩)
  · rename_i hidle
    exact .idle fun f hs hf => hidle f hs hf

/-- Looking at the triggers reads the clock at most, and may leave the file rotating. -/
theorem checkRotation_cases (o : Output) (w : σ) :
    (∃ w', o.checkRotation w = (false, o, w') ∧ (w' = w ∨ w' = (World.now w).2)) ∨
      o.checkRotation w = (true, { o with state := .rotating }, (World.now w).2) ∧
        o.state = .filling ∧ o.policy.isEnabled = true := by
  generalize hr : o.checkRotation w = r
  cases hr ▸ o.look_cases w with
  | idle _ => exact Or.inl ⟨w, rfl, Or.inl rfl⟩
  | unmet _ _ _ => exact Or.inl ⟨_, rfl, Or.inr rfl⟩
  | met hs _ ht _ =>
    refine Or.inr ⟨rfl, hs, ?_⟩
    unfold RotationPolicy.isEnabled
    rw [Bool.not_eq_true', List.isEmpty_eq_false_iff]
    exact List.ne_nil_of_mem ht

/-! ## A write -/

def counting (data : Bytes) (packet : Bool) (f : OutputFile) (o : Output) : Output :=
  { o with current := some ⟨f.path, f.bytes + data.length, f.packets + if packet then 1 else 0, f.opened⟩ }

inductive Writing (data : Bytes) (packet : Bool) (o : Output) (w : σ) : Except CaptureError Bool × Output × σ → Prop
  | refused : (∀ f, o.handle = true → o.current ≠ some f) →
      Writing data packet o w (.error (.outputWrite o.template .noFileOpen), o, w)
  | failed {f : OutputFile} {e : IoFault} {w' : σ} : o.handle = true → o.current = some f →
      World.write data w = (.error e, w') → Writing data packet o w (.error (.outputWrite f.path e), o, w')
  | block {f : OutputFile} {w' : σ} : packet = false → o.handle = true → o.current = some f →
      World.write data w = (.ok (), w') → Writing data packet o w (.ok false, o.counting data packet f, w')
  /-- After a packet the triggers are looked at. -/
  | packet {f : OutputFile} {w₁ w' : σ} {met : Bool} {o' : Output} : packet = true → o.handle = true →
      o.current = some f → World.write data w = (.ok (), w₁) →
      (o.counting data packet f).checkRotation w₁ = (met, o', w') → Writing data packet o w (.ok met, o', w')

theorem write_cases {data : Bytes} {packet : Bool} {o : Output} {w : σ} {r : Except CaptureError Bool × Output × σ}
    (h : o.write data packet w = r) : Writing data packet o w r := by
  subst h
  unfold write
  split
  · rename_i f hopen hf
    split
    · rename_i hw
      exact .failed hopen hf hw
    · rename_i w₁ hw
      cases packet with
      | true => exact .packet rfl hopen hf hw rfl
      | false => exact .block rfl hopen hf hw
  · rename_i hnone
    exact .refused hnone

/-! ## Closing -/

inductive Closing (o : Output) (w : σ) : Except CaptureError Unit × Output × σ → Prop
  | idle : o.handle = false → Closing o w (.ok (), { o with state := .closed }, w)
  | failed {e : IoFault} {w' : σ} : o.handle = true → World.release w = (.error e, w') →
      Closing o w (.error (.outputWrite ((o.current.map (·.path)).getD "") e), { o with handle := false }, w')
  | sealed {w' : σ} : o.handle = true → World.release w = (.ok (), w') →
      Closing o w (.ok (), { o with handle := false, state := .closed }, w')

theorem close_cases {o : Output} {w : σ} {r : Except CaptureError Unit × Output × σ} (h : o.close w = r) :
    Closing o w r := by
  subst h
  unfold close
  split
  · rename_i hopen
    dsimp only
    split
    · rename_i hr
      exact .failed hopen hr
    · rename_i hr
      exact .sealed hopen hr
  · rename_i hclosed
    exact .idle (Bool.eq_false_iff.mpr hclosed)

/-! ## Opening the next file -/

inductive Created (o : Output) (w : σ) (path : String) : Output → σ → Prop
  | intro {o₁ o₂ : Output} {w₁ w₂ w₃ : σ} : o.close w = (.ok (), o₁, w₁) → o₁.nextPath w₁ = (path, o₂, w₂) →
      World.create path w₂ = (.ok (), w₃) →
      Created o w path (o₂.start path (World.now w₃).1.instant) (World.now w₃).2

inductive Advance (seed : Bytes) (o : Output) (w : σ) : Except CaptureError Unit × Output × σ → Prop
  | unclosed {e : CaptureError} {o' : Output} {w' : σ} : o.close w = (.error e, o', w') →
      Advance seed o w (.error e, o', w')
  | uncreated {e : IoFault} {path : String} {o₁ o' : Output} {w₁ w₂ w' : σ} : o.close w = (.ok (), o₁, w₁) →
      o₁.nextPath w₁ = (path, o', w₂) → World.create path w₂ = (.error e, w') →
      Advance seed o w (.error (.rotationFailure path e), o', w')
  | unseeded {e : CaptureError} {path : String} {o₁ o' : Output} {w₁ w' : σ} : Created o w path o₁ w₁ → seed ≠ [] →
      o₁.write seed false w₁ = (.error e, o', w') → Advance seed o w (.error e, o', w')
  | bare {path : String} {o' : Output} {w' : σ} : Created o w path o' w' → seed = [] → Advance seed o w (.ok (), o', w')
  | seeded {path : String} {met : Bool} {o₁ o' : Output} {w₁ w' : σ} : Created o w path o₁ w₁ → seed ≠ [] →
      o₁.write seed false w₁ = (.ok met, o', w') → Advance seed o w (.ok (), o', w')

theorem openNext_cases {seed : Bytes} {o : Output} {w : σ} {r : Except CaptureError Unit × Output × σ}
    (h : o.openNext seed w = r) : Advance seed o w r := by
  subst h
  unfold openNext
  split
  · rename_i hclose
    exact .unclosed hclose
  · rename_i o₁ w₁ hclose
    rcases hnext : o₁.nextPath w₁ with ⟨path, o₂, w₂⟩
    dsimp only
    split
    · rename_i hcreate
      exact .uncreated hclose hnext hcreate
    · rename_i w₃ hcreate
      have hcreated := Created.intro hclose hnext hcreate
      split
      · rename_i hempty
        exact .bare hcreated (List.isEmpty_iff.mp hempty)
      · rename_i hseed
        have hne : seed ≠ [] := fun hnil => hseed (List.isEmpty_iff.mpr hnil)
        split
        · rename_i hw
          exact .unseeded hcreated hne hw
        · rename_i hw
          exact .seeded hcreated hne hw

end Output

end CaptureRing
