/-
  CaptureRing.Proofs.FileNames — which files an uncapped output keeps.

  A numbered name tells its number, whatever date stands behind it, so no file is ever
  written over another. Without rotation there is the one file of the template.

  Proved:
  - `numberedName_injective`: names of different numbers differ;
  - `Released.shelved`: without a cap on the files, all that were opened are kept, each
    under a name of its own number.
-/

import CaptureRing.Proofs.Filing

namespace CaptureRing

/-! ## Numbers in names -/

/-- A number can be read back from its text, zeros in front or not. -/
theorem zeroFill_decimal_injective {width m n : Nat}
    (h : Text.zeroFill width (Text.decimal m) = Text.zeroFill width (Text.decimal n)) : m = n := by
  have hread : ∀ k, Nat.ofDigitChars 10 (Text.zeroFill width (Text.decimal k)) 0 = k := by
    intro k
    unfold Text.zeroFill Text.decimal
    rw [Nat.ofDigitChars_append, Nat.ofDigitChars_replicate_zero, Nat.mul_zero, Nat.ofDigitChars_ten_toDigits]
  rw [← hread m, h, hread n]

theorem underscore_not_mem_zeroFill (width n : Nat) : '_' ∉ Text.zeroFill width (Text.decimal n) := by
  intro hm
  rcases List.mem_append.mp hm with hm | hm
  · have hz := List.eq_of_mem_replicate hm
    revert hz
    decide
  · exact Nat.underscore_not_in_toDigits hm

theorem Path.withFileName_injective {a b path : List Char}
    (h : Path.withFileName a path = Path.withFileName b path) : a = b := by
  unfold Path.withFileName Path.push at h
  split at h
  · exact h
  · split at h
    · exact List.append_cancel_left h
    · exact (List.cons.inj (List.append_cancel_left h)).2

/-- What stands in front of the first mark is told by the whole. -/
theorem eq_of_append_mark {a b c d : List Char} (ha : '_' ∉ a) (hb : '_' ∉ b) (h : a ++ '_' :: c = b ++ '_' :: d) :
    a = b := by
  have hfront : ∀ {s t : List Char}, '_' ∉ s → (s ++ '_' :: t).takeWhile (· != '_') = s := by
    intro s t hs
    have hall : ∀ x ∈ s, (x != '_') = true := by
      intro x hx
      rw [bne_iff_ne]
      intro he
      exact hs (he ▸ hx)
    rw [List.takeWhile_append_of_pos hall]
    exact List.append_nil s
  rw [← hfront ha, h, hfront hb]

theorem numberedName_injective {template date date' : String} {m n : Nat}
    (h : Output.numberedName template m date = Output.numberedName template n date') : m = n := by
  unfold Output.numberedName at h
  have hname := Path.withFileName_injective (String.ofList_injective h)
  simp only [List.append_assoc, List.cons_append, List.append_cancel_left_eq, List.cons.injEq, true_and] at hname
  exact zeroFill_decimal_injective
    (eq_of_append_mark (underscore_not_mem_zeroFill 5 m) (underscore_not_mem_zeroFill 5 n) hname)

/-! ## The files kept -/

structure Shelved (template : String) (policy : RotationPolicy) (paths : List String) (o : Output) : Prop where
  sameTemplate : o.template = template
  samePolicy : o.policy = policy
  sequence : o.sequence = paths.length
  ring : o.ring = paths
  named : policy.isEnabled = true → ∀ i path, paths[i]? = some path →
    ∃ date, path = Output.numberedName template (i + 1) date
  single : policy.isEnabled = false → paths = [template] ∧ o.state ≠ .rotating

namespace Shelved

variable {template : String} {policy : RotationPolicy} {paths : List String} {o o' : Output}

theorem of_sameShelf (h : Shelved template policy paths o) (hs : Output.SameShelf o o') :
    Shelved template policy paths o' := by
  refine ⟨hs.template.trans h.sameTemplate, hs.policy.trans h.samePolicy, hs.sequence.trans h.sequence,
    hs.ring.trans h.ring, h.named, fun he => ?_⟩
  obtain ⟨hp, hstate⟩ := h.single he
  refine ⟨hp, fun hr => ?_⟩
  rcases hs.rotating hr with hr | hr
  · exact hstate hr
  · rw [h.samePolicy, he] at hr
    cases hr

/-- Names of different numbers differ, so no file stands on the path of another. -/
theorem nodup (h : Shelved template policy paths o) : paths.Nodup := by
  cases he : policy.isEnabled with
  | false =>
    rw [(h.single he).1]
    exact List.pairwise_singleton _ _
  | true =>
    refine List.pairwise_iff_getElem.mpr fun i j hi hj hlt heq => ?_
    obtain ⟨d, hd⟩ := h.named he i paths[i] (List.getElem?_eq_getElem hi)
    obtain ⟨d', hd'⟩ := h.named he j paths[j] (List.getElem?_eq_getElem hj)
    rw [hd, hd'] at heq
    have := numberedName_injective heq
    omega

variable {σ : Type} [World σ] {path : String} {ring : List String}

/-- Without a cap the path of the next file is a new one, and no file leaves the ring. -/
theorem next_fresh (hcap : o.policy.ring = none) (hn : Output.NextPath (σ := σ) o path ring) :
    ring = o.ring ∧ (o.policy.isEnabled = true → ∃ date, path = Output.numberedName o.template (o.sequence + 1) date) ∧
      (o.policy.isEnabled = false → path = o.template) := by
  cases hn with
  | reuse h =>
    unfold Output.reused? at h
    rw [hcap] at h
    cases h
  | fresh w _ =>
    refine ⟨rfl, fun he => ?_, fun he => ?_⟩
    · unfold Output.freshPath
      rw [if_pos he]
      exact ⟨_, rfl⟩
    · unfold Output.freshPath
      rw [if_neg (by rw [he]; exact Bool.false_ne_true)]

theorem start {seed : Bytes} {l l' : Ledger σ} (hcap : policy.ring = none)
    (hn : Output.NextPath (σ := Ledger σ) (Output.make template policy) path ring)
    (ho : Output.Opened seed path ring (Output.make template policy) o' l l') :
    Shelved template policy [path] o' := by
  obtain ⟨hring, hname, hplain⟩ := next_fresh hcap hn
  refine ⟨ho.template, ho.policy, ho.sequence, ?_, fun he i p hp => ?_, fun he => ⟨?_, ?_⟩⟩
  · rw [ho.ring, hring]; rfl
  · cases i with
    | zero =>
      cases hp
      exact hname he
    | succ i => cases hp
  · rw [hplain he]; rfl
  · rw [ho.state]; nofun

theorem opened {seed : Bytes} {l l' : Ledger σ} (h : Shelved template policy paths o) (hcap : policy.ring = none)
    (hrotating : o.state = .rotating) (hn : Output.NextPath (σ := Ledger σ) o path ring)
    (ho : Output.Opened seed path ring o o' l l') : Shelved template policy (paths ++ [path]) o' := by
  obtain ⟨hring, hname, -⟩ := next_fresh (by rw [h.samePolicy]; exact hcap) hn
  have he : policy.isEnabled = true := by
    cases he : policy.isEnabled with
    | true => rfl
    | false => exact absurd hrotating (h.single he).2
  obtain ⟨date, hpath⟩ := hname (by rw [h.samePolicy]; exact he)
  rw [h.sameTemplate, h.sequence] at hpath
  -- the number of the new file is greater than those before it
  have hnew : ∀ p ∈ paths, p ≠ path := by
    intro p hp heq
    obtain ⟨i, hi, hpi⟩ := List.getElem_of_mem hp
    obtain ⟨d, hd⟩ := h.named he i p (by rw [List.getElem?_eq_getElem hi, hpi])
    have := numberedName_injective (hd.symm.trans (heq.trans hpath))
    omega
  refine ⟨ho.template.trans h.sameTemplate, ho.policy.trans h.samePolicy, ?_, ?_, fun _ i p hp => ?_, fun hf => ?_⟩
  · rw [ho.sequence, h.sequence, List.length_append]; rfl
  · rw [ho.ring, hring, h.ring]
    congr 1
    exact List.filter_eq_self.mpr fun p hp => decide_eq_true (hnew p hp)
  · rw [List.getElem?_append] at hp
    split at hp
    · exact h.named he i p hp
    · rename_i hi
      have hlen : i = paths.length := by
        have := (List.getElem?_eq_some_iff.mp hp).1
        rw [List.length_singleton] at this
        omega
      rw [hlen, Nat.sub_self] at hp
      cases hp
      exact ⟨date, by rw [hpath, hlen]⟩
  · rw [he] at hf; cases hf

end Shelved

namespace Writer

variable {σ : Type} [World σ] {template : String} {policy : RotationPolicy} {order : List (Nat × Block)}

/-- Without a cap on the files, all that were opened are kept as long as no output fails. -/
theorem Released.shelved {a b : Writer × Ledger σ} (h : Released a order b) (hcap : policy.ring = none)
    (ha : a.1.outputError = none → Shelved template policy a.2.paths a.1.output) :
    b.1.outputError = none → Shelved template policy b.2.paths b.1.output := by
  induction h with
  | start => exact ha
  | @block _ x l source bl _ ih =>
    intro he
    cases handle_cases source bl x l with
    | ended _ hr =>
      rw [hr] at he ⊢
      exact ih he
    | skipped hd _ _ ho hl =>
      rw [ho, hl]
      exact ih (not_isDone hd).1
    | put hd _ _ _ hl hs =>
      rw [Ledger.paths_note hl]
      exact (ih (not_isDone hd).1).of_sameShelf hs
    | turned path ring hd _ hrotating _ hn ho hl hs =>
      have hpaths : Ledger.paths _ = l.paths ++ [path] := (congrArg (List.map LedgerFile.path) ho.files).trans
        List.map_append
      rw [Ledger.paths_note hl, hpaths]
      exact ((ih (not_isDone hd).1).opened hcap hrotating hn ho).of_sameShelf hs
    | failed _ _ herr => rw [he] at herr; cases herr
  | clock _ ih => exact ih
  | aside live preamble sourceErrors _ ih => exact ih
  | @look _ x l _ ih =>
    intro he
    obtain ⟨hl, -, herr, -, hs, -⟩ := lookOver_keeps x l
    have hpaths : (x.lookOver l).2.paths = l.paths := congrArg (List.map LedgerFile.path) hl
    rw [hpaths]
    exact (ih (herr ▸ he)).of_sameShelf hs

theorem Started.shelved {c : Config} {h : Host} {x : Writer} {l : Ledger σ} (hs : Started c h x l)
    (hcap : c.rotation.ring = none) : Shelved c.output c.rotation l.paths x.output := by
  obtain ⟨path, ring, l₀, hl₀, hn, ho⟩ := hs.opened
  have hpaths : l.paths = [path] := by
    unfold Ledger.paths
    rw [ho.files, hl₀]
    rfl
  rw [hpaths]
  exact Shelved.start hcap hn ho

end Writer

end CaptureRing
