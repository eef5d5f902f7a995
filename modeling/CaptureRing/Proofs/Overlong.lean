/-
  CaptureRing.Proofs.Overlong — times that no span can hold.

  Three things are made into a span of time: the number of a written condition, the poll interval of a
  configuration, and the spans of a configuration that is read from a file. The last are refused
  where they are too long. The first two are only asked whether they are positive and finite, and a
  number of seconds from 2^64 on is both: it breaks down whoever needs the span.

  Proved:
  - `Config.poll_cases`, `Condition.parse_cases`: which poll intervals and which texts break down;
  - `Saved.getDuration_fails`: a span that is too long is refused where it is read from a file;
  - `breaks_down_iff_overlong`: every text is accepted or refused and every configuration has a poll
    interval, except exactly such times, and so a capture starts or reports why it does not;
  - `endless_duration_breaks_down`: a text and a configuration that break down.
-/

import CaptureRing.Proofs.Conditions
import CaptureRing.Proofs.Refusals
import CaptureRing.Config.Saved
import CaptureRing.Capture
import CaptureRing.Machine

namespace CaptureRing

/-! ## Poll intervals -/

section Patterns

variable {bits : UInt32} {d : Dyadic}

/-- The number a pattern stands for. The patterns are in the order of the numbers, and `0x5F800000` is
    that of 2^64. -/
theorem binary32Positive?_cases (h : binary32Positive? bits = some d) :
    d.mantissa < 2 ^ 24 ∧ -149 ≤ d.exponent ∧
      (bits.toNat < 0x5F800000 ∧ d.exponent ≤ 40 ∨
        0x5F800000 ≤ bits.toNat ∧ 2 ^ 23 ≤ d.mantissa ∧ 41 ≤ d.exponent) := by
  have hbits := Nat.div_add_mod bits.toNat (2 ^ 23)
  have hfraction : bits.toNat % 2 ^ 23 < 2 ^ 23 := Nat.mod_lt _ (by decide)
  unfold binary32Positive? at h
  dsimp only at h
  split at h
  · split at h
    · cases h
    · cases h
      dsimp only
      omega
  · split at h
    · cases h
      dsimp only
      omega
    · cases h

theorem binary32Positive?_holds (h : binary32Positive? bits = some d) : binary32.Holds d.value :=
  ⟨d.mantissa, d.exponent, (binary32Positive?_cases h).1, (binary32Positive?_cases h).2.1, rfl⟩

theorem binary32Positive?_overlong (h : binary32Positive? bits = some d) :
    2 ^ 64 ≤ d.value ↔ 0x5F800000 ≤ bits.toNat := by
  obtain ⟨hmantissa, -, ⟨hbits, hexponent⟩ | ⟨hbits, hmantissa', hexponent⟩⟩ := binary32Positive?_cases h
  · refine iff_of_false (not_le.mpr ?_) (not_le.mpr hbits)
    calc d.value < 2 ^ 24 * 2 ^ d.exponent :=
          mul_lt_mul_of_pos_right (by exact_mod_cast hmantissa) (zpow_pos (by norm_num) _)
      _ ≤ 2 ^ 24 * 2 ^ (40 : ℤ) :=
          mul_le_mul_of_nonneg_left (zpow_le_zpow_right₀ (by norm_num) hexponent) (by norm_num)
      _ = 2 ^ 64 := by norm_num
  · refine iff_of_true ?_ hbits
    calc (2 : ℚ) ^ 64 = 2 ^ 23 * 2 ^ (41 : ℤ) := by norm_num
      _ ≤ 2 ^ 23 * 2 ^ d.exponent :=
          mul_le_mul_of_nonneg_left (zpow_le_zpow_right₀ (by norm_num) hexponent) (by norm_num)
      _ ≤ d.value := mul_le_mul_of_nonneg_right (by exact_mod_cast hmantissa') (zpow_nonneg (by norm_num) _)

theorem binary32Positive?_eq_none_iff :
    binary32Positive? bits = none ↔ bits.toNat = 0 ∨ 0x7F800000 ≤ bits.toNat := by
  have hbits := Nat.div_add_mod bits.toNat (2 ^ 23)
  have hfraction : bits.toNat % 2 ^ 23 < 2 ^ 23 := Nat.mod_lt _ (by decide)
  unfold binary32Positive?
  dsimp only
  split
  · split <;> simp <;> omega
  · split <;> simp <;> omega

end Patterns

namespace Config

/-- The poll interval is finite, and 2^64 seconds or more. -/
def Overlong (c : Config) : Prop := 0x5F800000 ≤ c.timeout.toNat ∧ c.timeout.toNat < 0x7F800000

theorem poll_cases (c : Config) :
    (∃ span, c.poll = .ok span) ∧ ¬ c.Overlong ∨ c.poll = .error .crash ∧ c.Overlong := by
  unfold poll Overlong
  cases h : binary32Positive? c.timeout with
  | none =>
    have hnone := binary32Positive?_eq_none_iff.mp h
    exact .inl ⟨⟨_, rfl⟩, by omega⟩
  | some d =>
    have hsome : c.timeout.toNat < 0x7F800000 := by
      by_contra hinf
      rw [binary32Positive?_eq_none_iff.mpr (.inr (not_lt.mp hinf))] at h
      cases h
    have hlong := Duration.ofSeconds?_eq_none_iff (by decide) (binary32Positive?_holds h)
    rw [binary32Positive?_overlong h] at hlong
    cases hspan : Duration.ofSeconds? d with
    | none => exact .inr ⟨by dsimp only; rw [hspan]; rfl, hlong.mp hspan, hsome⟩
    | some span =>
      refine .inl ⟨⟨span, by dsimp only; rw [hspan]; rfl⟩, fun hover => ?_⟩
      rw [hlong.mpr hover.1] at hspan
      cases hspan

end Config

/-- All that breaks a capture down at its start is in the configuration. -/
theorem startCapture_eq_crash_iff {σ : Type} [World σ] (c : Config) (h : Host) (w : σ) :
    (startCapture c h w).1 = .error .crash ↔ c.sources ≠ [] ∧ (c.poll = .error .crash ∨ c.hasRoom = false) := by
  unfold startCapture
  by_cases hsources : c.sources = []
  · rw [if_pos (by rw [hsources]; rfl)]
    exact iff_of_false nofun fun hc => hc.1 hsources
  rw [if_neg (by simpa using hsources)]
  refine Iff.trans ?_ (and_iff_right hsources).symm
  obtain ⟨⟨span, hpoll⟩, -⟩ | ⟨hpoll, -⟩ := c.poll_cases
  · rw [hpoll]
    dsimp only
    split
    · rename_i hroom
      refine iff_of_false ?_ (by simp [hroom])
      split <;> nofun
    · rename_i hroom
      exact iff_of_true rfl (.inr (Bool.eq_false_iff.mpr hroom))
  · rw [hpoll]
    exact iff_of_true rfl (.inl rfl)

/-! ## Spans from a file -/

namespace Saved

variable {α β : Type} {P : Failure → Prop}

theorem bind_fails {get : Decoder α} {k : α → Decoder β} (h : ∀ bs, FailsAs P (get bs))
    (hnext : ∀ a bs, FailsAs P (k a bs)) (bs : Bytes) : FailsAs P ((get >>= k) bs) :=
  .bind (h bs) fun r _ => hnext r.1 r.2

theorem takeBytes_fails (n : ℕ) (bs : Bytes) : FailsAs (· = .error .configRead) (takeBytes n bs) := by
  unfold takeBytes
  split
  · exact .ok _
  · exact .error rfl

theorem getNat_fails (width : ℕ) : ∀ bs, FailsAs (· = .error .configRead) (getNat width bs) := by
  have hpure (n : ℕ) (bs : Bytes) : FailsAs (· = .error .configRead) ((pure n : Decoder ℕ) bs) := .ok _
  unfold getNat
  refine bind_fails (fun bs => ?_) fun b => ?_
  · cases bs with
    | nil => exact .error rfl
    | cons b bs => exact .ok _
  repeat' split
  · exact hpure _
  · exact bind_fails (takeBytes_fails 2) fun _ => hpure _
  · exact bind_fails (takeBytes_fails 4) fun _ => hpure _
  · exact bind_fails (takeBytes_fails 8) fun _ => hpure _
  · exact fun _ => .error rfl

theorem getDuration_fails : ∀ bs, FailsAs (· = .error .configRead) (getDuration bs) := by
  unfold getDuration get64
  refine bind_fails (bind_fails (getNat_fails 8) fun _ _ => .ok _) fun secs => ?_
  refine bind_fails (getNat_fails 4) fun nanos => ?_
  cases Duration.ofParts? secs (UInt32.ofNat nanos) with
  | none => exact fun _ => .error rfl
  | some d => exact fun _ => .ok _

end Saved

/-! ## Texts -/

namespace Condition

def Overlong (s : String) : Prop := ∃ d, Says s "duration" d ∧ 2 ^ 64 ≤ d.value

theorem parse_cases (s : String) :
    ((∃ c, parse s = .ok c) ∨ parse s = fail (.invalidCondition s)) ∧ ¬ Overlong s ∨
      parse s = .error .crash ∧ Overlong s := by
  have hlong {d : Dyadic} (h : Says s "duration" d) : Duration.ofSeconds? d = none ↔ Overlong s := by
    rw [Overlong, h.duration_iff]
    exact Duration.ofSeconds?_eq_none_iff (f := binary64) (by decide) h.holds.2
  have hout := outcome_parse s
  generalize hr : parse s = r at hout
  cases hout with
  | silent h => exact .inl ⟨.inr rfl, fun ⟨d, h', _⟩ => h _ _ h'⟩
  | unknown h hkey => exact .inl ⟨.inr rfl, h.not_duration hkey.2.2.1⟩
  | packets h hn => exact .inl ⟨.inl ⟨_, rfl⟩, h.not_duration (by decide)⟩
  | files h hn => exact .inl ⟨.inl ⟨_, rfl⟩, h.not_duration (by decide)⟩
  | fraction h hn => exact .inl ⟨.inr rfl, h.elim (·.not_duration (by decide)) (·.not_duration (by decide))⟩
  | bytes h hn => exact .inl ⟨.inl ⟨_, rfl⟩, h.not_duration (by decide)⟩
  | crumb h hn => exact .inl ⟨.inr rfl, h.not_duration (by decide)⟩
  | duration h hspan => exact .inl ⟨.inl ⟨_, rfl⟩, (hlong h).not.mp (by simp [hspan])⟩
  | endless h hspan => exact .inr ⟨rfl, (hlong h).mp hspan⟩

end Condition

/-- Texts are accepted or refused, configurations have a poll interval, and a capture starts or
    reports an error, unless 2^64 seconds or more are made into a span of time; but a capacity that no memory
    has room for breaks a capture down as well. Spans in files are refused instead. -/
theorem breaks_down_iff_overlong {σ : Type} [World σ] (s : String) (c : Config) (h : Host) (w : σ) (bs : Bytes) :
    (((∃ c, Condition.Answers s (.ok c)) ∨ Condition.Answers s (fail (.invalidCondition s))) ∧
        ¬ Condition.Overlong s ∨ Condition.Answers s (.error .crash) ∧ Condition.Overlong s) ∧
    ((∃ span, c.poll = .ok span) ∧ ¬ c.Overlong ∨ c.poll = .error .crash ∧ c.Overlong) ∧
    ((startCapture c h w).1 = .error .crash ↔ c.sources ≠ [] ∧ (c.Overlong ∨ c.hasRoom = false)) ∧
    Saved.getDuration bs ≠ .error .crash := by
  refine ⟨?_, c.poll_cases, ?_, fun hcrash => ?_⟩
  · simp only [Condition.answers_iff]
    exact Condition.parse_cases s
  · rw [startCapture_eq_crash_iff]
    obtain ⟨⟨span, hpoll⟩, hfits⟩ | ⟨hpoll, hlong⟩ := c.poll_cases
    · simp [hpoll, hfits]
    · simp [hpoll, hlong]
  · cases Saved.getDuration_fails bs _ hcrash

/-- 10^30 seconds, and the greatest number of seconds a poll interval can be set to. -/
theorem endless_duration_breaks_down : Condition.Answers "duration:1e30" (.error .crash) ∧
    { Config.ofOutput "out" with timeout := 0x7F7FFFFF }.poll = .error .crash ∧
    (startCapture { Config.ofOutput "out" with sources := [.stdin], timeout := 0x7F7FFFFF } ⟨none, none⟩
      (Machine.ofDisk .empty)).1 = .error .crash :=
  ⟨Condition.answers_iff.mpr (by decide +kernel), by decide +kernel, by decide +kernel⟩

end CaptureRing
