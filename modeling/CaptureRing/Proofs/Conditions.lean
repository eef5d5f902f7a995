/-
  CaptureRing.Proofs.Conditions — what becomes of a written condition.

  A text that is not a key and a positive number is refused (`Condition.Says`). The number is a
  binary64 value, and the key decides what is made of it: a whole number, thousands rounded once
  more and cut, or a span of whole nanoseconds. The first two are at least one, or the text is
  refused. A span is only rounded, so a number of seconds of up to half a nanosecond gives the
  empty one, which nothing at all is enough to meet.

  Proved:
  - `Condition.outcome_parse`: everything that a text can come to;
  - `Duration.nanos_roundsTo`, `Duration.ofSeconds?_eq_none_iff`: which span a number of seconds
    gives, and that it gives none from 2^64 seconds on;
  - `Condition.empty_iff_brief`: the threshold of an accepted text is zero exactly for such a time,
    and what is refused leaves the conditions as they were;
  - `Condition.brief_span_is_accepted`: one such time.
-/

import CaptureRing.Proofs.Rounding
import CaptureRing.Condition
import CaptureRing.Output
import CaptureRing.Tally

namespace CaptureRing

/-! ## Numbers -/

theorem toNat_saturate64 (n : ℕ) : (saturate64 n).toNat = min n (2 ^ 64 - 1) := by
  unfold saturate64
  rw [UInt64.toNat_ofNat']
  omega

theorem BinaryFormat.isZero_nearest_zero {f : BinaryFormat} {den : ℕ} {d : Dyadic} (h : f.nearest 0 den = some d) :
    d.isZero = true := by
  unfold nearest at h
  dsimp only at h
  split at h
  · cases h
  · cases h
    simp [roundHalfEven, Dyadic.isZero]

/-- A value that is too great for a fraction is a whole number. -/
theorem BinaryFormat.Holds.le_pred {f : BinaryFormat} {v : ℚ} {k : ℕ} (h : f.Holds v) (hf : f.precision < k)
    (hlt : v < 2 ^ k) : v ≤ 2 ^ k - 1 := by
  obtain ⟨m, e, hm, -, rfl⟩ := h
  rcases le_or_gt 0 e with he | he
  · lift e to ℕ using he
    have hlt' : m * 2 ^ e + 1 ≤ 2 ^ k := Nat.succ_le_of_lt (by exact_mod_cast hlt)
    rw [le_sub_iff_add_le]
    exact_mod_cast hlt'
  · calc (m : ℚ) * 2 ^ e ≤ m * 1 :=
          mul_le_mul_of_nonneg_left (zpow_le_one_of_nonpos₀ (by norm_num) he.le) (Nat.cast_nonneg m)
      _ ≤ 2 ^ k - 1 := by
        have hle : m + 1 ≤ 2 ^ k := hm.trans_le (Nat.pow_le_pow_right (by decide) hf.le)
        rw [mul_one, le_sub_iff_add_le]
        exact_mod_cast hle

namespace Numeral

variable {n : Numeral} {d : Dyadic}

def value (n : Numeral) : ℚ := n.digits * 10 ^ n.exponent

theorem value_eq (n : Numeral) :
    n.value = ((n.digits * 10 ^ n.exponent.toNat : ℕ) : ℚ) / (10 ^ (-n.exponent).toNat : ℕ) := by
  unfold value
  rw [zpow_eq_div]
  push_cast
  ring

/-- A numeral of a positive number is rounded, unless it is too great for binary64. -/
theorem toBinary64?_cases (h : 0 < n.digits) : ∃ d : Dyadic, binary64.Rounds n.value d.value ∧
    n.toBinary64? = if d.value < 2 ^ binary64.bound then some d else none := by
  rw [value_eq]
  exact binary64.nearest_cases (Nat.mul_pos h (Nat.pow_pos (by decide))) (Nat.pow_pos (by decide))

theorem digits_pos (h : n.toBinary64? = some d) (hd : d.isZero = false) : 0 < n.digits := by
  rcases Nat.eq_zero_or_pos n.digits with hzero | hpos
  · unfold toBinary64? at h
    rw [hzero, Nat.zero_mul] at h
    rw [BinaryFormat.isZero_nearest_zero h] at hd
    cases hd
  · exact hpos

theorem value_pos (h : 0 < n.digits) : 0 < n.value := mul_pos (by exact_mod_cast h) (zpow_pos (by norm_num) _)

end Numeral

namespace Dyadic

theorem value_nonneg (d : Dyadic) : 0 ≤ d.value := mul_nonneg (Nat.cast_nonneg _) (zpow_nonneg (by norm_num) _)

theorem value_pos {d : Dyadic} (h : d.isZero = false) : 0 < d.value := by
  refine lt_of_le_of_ne d.value_nonneg fun hzero => ?_
  rw [isZero_iff.mpr hzero.symm] at h
  cases h

end Dyadic

theorem positiveNumber?_holds {cs : List Char} {d : Dyadic} (h : positiveNumber? cs = some d) :
    0 < d.value ∧ binary64.Holds d.value := by
  unfold positiveNumber? at h
  obtain ⟨n, -, h⟩ := Option.bind_eq_some_iff.mp h
  obtain ⟨d', hd', h⟩ := Option.bind_eq_some_iff.mp h
  split at h
  · cases h
  · rename_i hzero
    cases h
    have hzero' : d.isZero = false := Bool.eq_false_iff.mpr hzero
    have hdigits := Numeral.digits_pos hd' hzero'
    obtain ⟨d'', hrounds, hnearest⟩ := Numeral.toBinary64?_cases hdigits
    rw [hnearest] at hd'
    split at hd'
    · cases hd'
      exact ⟨Dyadic.value_pos hzero', hrounds.holds (Numeral.value_pos hdigits) (by decide)⟩
    · cases hd'

/-! ## Spans of time -/

namespace Duration

variable {d : Dyadic} {span : Duration}

theorem roundsTo_seconds (d : Dyadic) :
    RoundsTo (d.value * nanosPerSecond) (roundHalfEven (d.num * nanosPerSecond) d.den) := by
  have hround := roundsTo_roundHalfEven (d.num * nanosPerSecond) d.den_pos
  rwa [Nat.cast_mul, mul_div_right_comm, ← d.value_eq] at hround

theorem nanos_roundsTo (h : ofSeconds? d = some span) : RoundsTo (d.value * nanosPerSecond) span.nanos := by
  unfold ofSeconds? ofNanos? at h
  split at h
  · split at h
    · cases h
      exact roundsTo_seconds d
    · cases h
  · cases h

/-- Half a nanosecond is rounded down. -/
theorem nanos_eq_zero_iff (h : ofSeconds? d = some span) : span.nanos = 0 ↔ 2 * (d.value * nanosPerSecond) ≤ 1 := by
  have hround := nanos_roundsTo h
  have hpos : 0 ≤ d.value * nanosPerSecond := mul_nonneg d.value_nonneg (Nat.cast_nonneg _)
  constructor
  · intro hzero
    have hnear := hround.near
    rw [hzero, Nat.cast_zero, sub_zero, abs_of_nonneg hpos] at hnear
    linarith
  · intro hbrief
    refine hround.unique ⟨?_, fun _ => Even.zero⟩
    rw [Nat.cast_zero, sub_zero, abs_of_nonneg hpos]
    linarith

/-- A value of a binary format stays a second short of 2^64 seconds, or reaches them: no rounding
    to nanoseconds gets there. -/
theorem ofSeconds?_eq_none_iff {f : BinaryFormat} (hf : f.precision < 64) (hd : f.Holds d.value) :
    ofSeconds? d = none ↔ 2 ^ 64 ≤ d.value := by
  have hfloor : d.floor < 2 ^ 64 ↔ d.value < 2 ^ 64 := by
    rw [Dyadic.floor_eq, Nat.floor_lt d.value_nonneg]
    norm_cast
  unfold ofSeconds?
  by_cases hlt : d.value < 2 ^ 64
  · have hshort : roundHalfEven (d.num * nanosPerSecond) d.den < 2 ^ 64 * nanosPerSecond := by
      have hle := hd.le_pred hf hlt
      have hnear := (abs_le.mp (roundsTo_seconds d).near).1
      have hbelow : (roundHalfEven (d.num * nanosPerSecond) d.den : ℚ) < 2 ^ 64 * nanosPerSecond := by
        unfold nanosPerSecond at *
        push_cast at *
        linarith
      exact_mod_cast hbelow
    rw [if_pos (hfloor.mpr hlt), ofNanos?, dif_pos hshort]
    exact iff_of_false (Option.some_ne_none _) (not_le.mpr hlt)
  · rw [if_neg (fun h => hlt (hfloor.mp h))]
    exact iff_of_true rfl (not_lt.mp hlt)

end Duration

namespace Condition

/-! ## Thresholds -/

/-- What a condition waits for, in packets, bytes, files or nanoseconds. -/
def threshold : Condition → ℕ
  | packets n | bytes n | files n => n.toNat
  | duration d => d.nanos

/-- A capture that has only just begun meets the empty conditions. -/
theorem reaches_start (c : Condition) (conditions : Autostop) (now : ℕ) :
    (Tally.start conditions now).reaches now c = true ↔ c.threshold = 0 := by
  cases c <;> simp [Tally.reaches, Tally.start, threshold]

/-- So does a file that has only just been opened, where they are triggers. -/
theorem meets_opened (c : Condition) (path : String) (now : ℕ) :
    (RotationPolicy.never.add c).triggers.any (Output.meets now ⟨path, 0, 0, now⟩) = true ↔
      c.threshold = 0 ∧ ∀ n, c ≠ files n := by
  cases c <;> simp [RotationPolicy.add, RotationPolicy.never, Output.meets, threshold]

variable {d : Dyadic} {n : UInt64}

theorem count?_natCast {m : ℕ} (h : d.value = m) : count? d = some (saturate64 m) := by
  unfold count?
  rw [if_pos (Dyadic.isWhole_iff.mpr ⟨m, h⟩), Dyadic.floor_eq, h, Nat.floor_natCast]

theorem count?_eq_none_iff : count? d = none ↔ ¬ ∃ m : ℕ, d.value = m := by
  rw [← Dyadic.isWhole_iff]
  unfold count?
  split <;> simp_all

theorem count?_pos (hd : 0 < d.value) (h : count? d = some n) : 0 < n.toNat := by
  obtain ⟨m, hm⟩ : ∃ m : ℕ, d.value = m := by
    by_contra hnone
    rw [count?_eq_none_iff.mpr hnone] at h
    cases h
  rw [count?_natCast hm] at h
  cases h
  have hpos : 0 < m := by
    rw [hm] at hd
    exact_mod_cast hd
  rw [toNat_saturate64]
  omega

theorem count?_eq_none_of_lt_one (hd : 0 < d.value) (h : d.value < 1) : count? d = none := by
  refine count?_eq_none_iff.mpr fun ⟨m, hm⟩ => ?_
  rw [hm] at hd h
  norm_cast at hd h
  omega

/-- The product is rounded once more, and cut. Where it is beyond binary64, the cut is as well. -/
theorem thousands?_eq (hd : 0 < d.value) : ∃ v : ℚ, binary64.Rounds (d.value * 1000) v ∧
    thousands? d = if ⌊v⌋₊ = 0 then none else some (saturate64 ⌊v⌋₊) := by
  have hnum : 0 < d.num * 1000 := by
    refine Nat.mul_pos (Nat.pos_of_ne_zero fun hzero => ?_) (by decide)
    rw [d.value_eq, hzero, Nat.cast_zero, zero_div] at hd
    exact lt_irrefl _ hd
  obtain ⟨p, hrounds, hnearest⟩ := binary64.nearest_cases hnum d.den_pos
  rw [Nat.cast_mul, mul_div_right_comm, ← d.value_eq] at hrounds
  refine ⟨p.value, hrounds, ?_⟩
  have hzero (m : ℕ) : saturate64 m = 0 ↔ m = 0 := by
    rw [← UInt64.toNat_inj, toNat_saturate64, UInt64.toNat_zero]
    omega
  have hthousands : thousands? d = if saturate64 ⌊p.value⌋₊ = 0 then none else some (saturate64 ⌊p.value⌋₊) := by
    unfold thousands?
    rw [hnearest]
    by_cases hbound : p.value < 2 ^ binary64.bound
    · rw [if_pos hbound]
      dsimp only
      rw [p.floor_eq]
    · rw [if_neg hbound]
      have hlarge : 2 ^ 64 ≤ ⌊p.value⌋₊ := by
        refine Nat.le_floor (le_trans ?_ (not_lt.mp hbound))
        calc ((2 ^ 64 : ℕ) : ℚ) = 2 ^ (64 : ℤ) := by norm_num
          _ ≤ 2 ^ binary64.bound := zpow_le_zpow_right₀ (by norm_num) (by decide)
      have hsaturated : saturate64 ⌊p.value⌋₊ = saturate64 (2 ^ 64) := by
        rw [← UInt64.toNat_inj, toNat_saturate64, toNat_saturate64]
        omega
      rw [hsaturated]
  rw [hthousands]
  exact if_congr (hzero _) rfl rfl

theorem thousands?_pos (hd : 0 < d.value) (h : thousands? d = some n) : 0 < n.toNat := by
  obtain ⟨v, -, heq⟩ := thousands?_eq hd
  rw [heq] at h
  split at h
  · cases h
  · cases h
    rw [toNat_saturate64]
    omega

theorem thousands?_eq_none_iff {v : ℚ} (hd : 0 < d.value) (hv : binary64.Rounds (d.value * 1000) v) :
    thousands? d = none ↔ v < 1 := by
  obtain ⟨w, hw, heq⟩ := thousands?_eq hd
  rw [heq, hw.unique hv, ← Nat.floor_eq_zero]
  split <;> simp_all

/-! ## Texts -/

variable {s key key' : String} {d' : Dyadic} {c : Condition}

/-- The text gives a key, a colon and a positive number. -/
def Says (s key : String) (d : Dyadic) : Prop :=
  ∃ k v : List Char, Text.splitOnce? ':' s.toList = some (k, v) ∧ String.ofList (Text.trim k) = key ∧
    positiveNumber? (Text.trim v) = some d

theorem Says.unique (h : Says s key d) (h' : Says s key' d') : key = key' ∧ d = d' := by
  obtain ⟨k, v, hsplit, rfl, hv⟩ := h
  obtain ⟨k', v', hsplit', rfl, hv'⟩ := h'
  rw [hsplit] at hsplit'
  cases hsplit'
  rw [hv] at hv'
  cases hv'
  exact ⟨rfl, rfl⟩

theorem Says.duration_iff {P : Dyadic → Prop} (h : Says s "duration" d) : (∃ d, Says s "duration" d ∧ P d) ↔ P d := by
  constructor
  · rintro ⟨d', h', hd⟩
    rwa [(h.unique h').2]
  · exact fun hd => ⟨d, h, hd⟩

theorem Says.not_duration {P : Dyadic → Prop} (h : Says s key d) (hkey : key ≠ "duration") :
    ¬ ∃ d, Says s "duration" d ∧ P d :=
  fun ⟨_, h', _⟩ => hkey (h.unique h').1

theorem Says.holds (h : Says s key d) : 0 < d.value ∧ binary64.Holds d.value := by
  obtain ⟨_, _, _, _, hv⟩ := h
  exact positiveNumber?_holds hv

theorem parse_of_key (h : Says s key d) : parse s = ofValue s key d := by
  obtain ⟨k, v, hsplit, rfl, hv⟩ := h
  unfold parse
  rw [hsplit]
  dsimp only
  rw [hv]

theorem parse_of_silent (h : ∀ key d, ¬ Says s key d) : parse s = fail (.invalidCondition s) := by
  unfold parse
  split
  · rfl
  · rename_i hsplit
    split
    · rfl
    · rename_i hv
      exact absurd ⟨_, _, hsplit, rfl, hv⟩ (h _ _)

inductive Outcome (s : String) : Result Condition → Prop where
  /-- No key with a positive number. -/
  | silent (h : ∀ key d, ¬ Says s key d) : Outcome s (fail (.invalidCondition s))
  | unknown {key : String} {d : Dyadic} (h : Says s key d)
      (hkey : key ≠ "packets" ∧ key ≠ "filesize" ∧ key ≠ "duration" ∧ key ≠ "files") :
      Outcome s (fail (.invalidCondition s))
  | packets {d : Dyadic} {n : UInt64} (h : Says s "packets" d) (hn : count? d = some n) : Outcome s (.ok (.packets n))
  | files {d : Dyadic} {n : UInt64} (h : Says s "files" d) (hn : count? d = some n) : Outcome s (.ok (.files n))
  /-- A fraction of a packet or of a file. -/
  | fraction {d : Dyadic} (h : Says s "packets" d ∨ Says s "files" d) (hn : count? d = none) :
      Outcome s (fail (.invalidCondition s))
  | bytes {d : Dyadic} {n : UInt64} (h : Says s "filesize" d) (hn : thousands? d = some n) : Outcome s (.ok (.bytes n))
  /-- Less than a byte. -/
  | crumb {d : Dyadic} (h : Says s "filesize" d) (hn : thousands? d = none) : Outcome s (fail (.invalidCondition s))
  | duration {d : Dyadic} {span : Duration} (h : Says s "duration" d) (hspan : Duration.ofSeconds? d = some span) :
      Outcome s (.ok (.duration span))
  /-- A time that no span can hold. -/
  | endless {d : Dyadic} (h : Says s "duration" d) (hspan : Duration.ofSeconds? d = none) : Outcome s (.error .crash)

theorem outcome_parse (s : String) : Outcome s (parse s) := by
  by_cases hsaid : ∃ key d, Says s key d
  · obtain ⟨key, d, h⟩ := hsaid
    rw [parse_of_key h]
    unfold ofValue
    dsimp only
    by_cases hpackets : key = "packets"
    · subst hpackets
      rw [if_pos rfl]
      cases hn : count? d with
      | none => exact .fraction (.inl h) hn
      | some n => exact .packets h hn
    rw [if_neg hpackets]
    by_cases hfilesize : key = "filesize"
    · subst hfilesize
      rw [if_pos rfl]
      cases hn : thousands? d with
      | none => exact .crumb h hn
      | some n => exact .bytes h hn
    rw [if_neg hfilesize]
    by_cases hduration : key = "duration"
    · subst hduration
      rw [if_pos rfl]
      cases hspan : Duration.ofSeconds? d with
      | none => exact .endless h hspan
      | some span => exact .duration h hspan
    rw [if_neg hduration]
    by_cases hfiles : key = "files"
    · subst hfiles
      rw [if_pos rfl]
      cases hn : count? d with
      | none => exact .fraction (.inr h) hn
      | some n => exact .files h hn
    · rw [if_neg hfiles]
      exact .unknown h ⟨hpackets, hfilesize, hduration, hfiles⟩
  · have hsilent : ∀ key d, ¬ Says s key d := fun key d h => hsaid ⟨key, d, h⟩
    rw [parse_of_silent hsilent]
    exact .silent hsilent

/-- Whoever reads the text answers `r`: for the condition alone, for one more of a policy, and for
    one more of those that end a capture. -/
structure Answers (s : String) (r : Result Condition) : Prop where
  alone : parse s = r
  rotation (p : RotationPolicy) : RotationPolicy.condition s p = r.map fun c => p.add c
  autostop (a : Autostop) : Autostop.condition s a = r.map fun c => a ++ [c]

theorem answers_iff {r : Result Condition} : Answers s r ↔ parse s = r :=
  ⟨Answers.alone, fun h => ⟨h, fun _ => by rw [RotationPolicy.condition, h], fun _ => by rw [Autostop.condition, h]⟩⟩

/-! ## Empty thresholds -/

def Brief (s : String) : Prop := ∃ d, Says s "duration" d ∧ 2 * (d.value * nanosPerSecond) ≤ 1

inductive Scant (s : String) : Prop where
  /-- Not even a positive number. -/
  | silent (h : ∀ key d, ¬ Says s key d)
  | count {d : Dyadic} (h : Says s "packets" d ∨ Says s "files" d) (hlt : d.value < 1)
  | bytes {d : Dyadic} {v : ℚ} (h : Says s "filesize" d) (hv : binary64.Rounds (d.value * 1000) v) (hlt : v < 1)

theorem threshold_eq_zero_iff (h : parse s = .ok c) : c.threshold = 0 ↔ Brief s := by
  have hout := outcome_parse s
  rw [h] at hout
  cases hout with
  | packets hs hn => exact iff_of_false (count?_pos hs.holds.1 hn).ne' (hs.not_duration (by decide))
  | files hs hn => exact iff_of_false (count?_pos hs.holds.1 hn).ne' (hs.not_duration (by decide))
  | bytes hs hn => exact iff_of_false (thousands?_pos hs.holds.1 hn).ne' (hs.not_duration (by decide))
  | duration hs hspan =>
    rw [Brief, hs.duration_iff]
    exact Duration.nanos_eq_zero_iff hspan

/-- What is rounded to nothing is far from too long. -/
theorem parse_of_brief (h : Brief s) : ∃ span, parse s = .ok (.duration span) := by
  obtain ⟨d, hs, hbrief⟩ := h
  cases hspan : Duration.ofSeconds? d with
  | none =>
    have hlong := (Duration.ofSeconds?_eq_none_iff (f := binary64) (by decide) hs.holds.2).mp hspan
    unfold nanosPerSecond at hbrief
    push_cast at hbrief
    linarith
  | some span =>
    refine ⟨span, ?_⟩
    rw [parse_of_key hs, ofValue]
    simp [hspan]

theorem parse_of_scant (h : Scant s) : parse s = fail (.invalidCondition s) := by
  cases h with
  | silent h => exact parse_of_silent h
  | count h hlt =>
    rcases h with h | h <;>
      · rw [parse_of_key h, ofValue]
        simp [count?_eq_none_of_lt_one h.holds.1 hlt]
  | bytes h hv hlt =>
    rw [parse_of_key h, ofValue]
    simp [(thousands?_eq_none_iff h.holds.1 hv).mpr hlt]

/-! ## One text after the other -/

/-- What the policy is after texts that were offered to it; one that is not accepted leaves it as
    it was. -/
def offerPolicy (texts : List String) (p : RotationPolicy) : RotationPolicy :=
  texts.foldl (fun p s => (RotationPolicy.condition s p).toOption.getD p) p

def offerAutostop (texts : List String) (a : Autostop) : Autostop :=
  texts.foldl (fun a s => (Autostop.condition s a).toOption.getD a) a

def accepted (texts : List String) : List Condition := texts.filterMap fun s => (parse s).toOption

theorem offerPolicy_eq (texts : List String) (p : RotationPolicy) :
    offerPolicy texts p = (accepted texts).foldl (fun p c => p.add c) p := by
  unfold offerPolicy accepted
  induction texts generalizing p with
  | nil => rfl
  | cons s texts ih =>
    rw [List.foldl_cons, ih, RotationPolicy.condition]
    cases h : parse s <;> simp [h, Except.map, Except.toOption]

theorem offerAutostop_eq (texts : List String) (a : Autostop) : offerAutostop texts a = a ++ accepted texts := by
  unfold offerAutostop accepted
  induction texts generalizing a with
  | nil => exact (List.append_nil a).symm
  | cons s texts ih =>
    rw [List.foldl_cons, ih, Autostop.condition]
    cases h : parse s <;> simp [h, Except.map, Except.toOption]

/-- A text that is accepted gives the empty threshold exactly if it is a time of up to half a
    nanosecond, and only then is it met by a capture or a file that has just begun; with less than one
    packet, file or byte it is refused. What is not accepted leaves the conditions as they were. -/
theorem empty_iff_brief (s : String) (texts : List String) (p : RotationPolicy) (a : Autostop) :
    ((∃ c, Answers s (.ok c) ∧ (c.threshold = 0 ↔ Brief s) ∧
        ∀ (conditions : Autostop) (path : String) (now : ℕ),
          ((Tally.start conditions now).reaches now c = true ↔ Brief s) ∧
          ((RotationPolicy.never.add c).triggers.any (Output.meets now ⟨path, 0, 0, now⟩) = true ↔ Brief s)) ∨
      ¬ Brief s ∧ (Answers s (fail (.invalidCondition s)) ∨ Answers s (.error .crash))) ∧
    (Scant s → Answers s (fail (.invalidCondition s))) ∧
    offerPolicy texts p = (accepted texts).foldl (fun p c => p.add c) p ∧
    offerAutostop texts a = a ++ accepted texts := by
  refine ⟨?_, fun h => answers_iff.mpr (parse_of_scant h), offerPolicy_eq texts p, offerAutostop_eq texts a⟩
  cases h : parse s with
  | ok c =>
    have hzero := threshold_eq_zero_iff h
    refine .inl ⟨c, answers_iff.mpr h, hzero, fun conditions path now => ⟨(reaches_start c conditions now).trans hzero, ?_⟩⟩
    rw [meets_opened, hzero]
    refine and_iff_left_of_imp fun hbrief n hfiles => ?_
    obtain ⟨span, hspan⟩ := parse_of_brief hbrief
    rw [h, hfiles] at hspan
    cases hspan
  | error e =>
    refine .inr ⟨fun hbrief => ?_, ?_⟩
    · obtain ⟨span, hspan⟩ := parse_of_brief hbrief
      rw [h] at hspan
      cases hspan
    · have hout := outcome_parse s
      rw [h] at hout
      cases hout with
      | silent | unknown | fraction | crumb => exact .inl (answers_iff.mpr h)
      | endless => exact .inr (answers_iff.mpr h)

/-- Half a packet, a tenth of a byte, and less than half a nanosecond. -/
theorem empty_iff_brief_tiny : Answers "packets:0.5" (fail (.invalidCondition "packets:0.5")) ∧
    Answers "filesize:0.0001" (fail (.invalidCondition "filesize:0.0001")) ∧
    ∃ c, Answers "duration:0.4e-9" (.ok c) ∧ c.threshold = 0 := by
  have hpacket : Says "packets:0.5" "packets" ⟨4503599627370496, -53⟩ :=
    ⟨"packets".toList, "0.5".toList, by decide +kernel⟩
  have hbytes : Says "filesize:0.0001" "filesize" ⟨7378697629483821, -66⟩ :=
    ⟨"filesize".toList, "0.0001".toList, by decide +kernel⟩
  have hbrief : Says "duration:0.4e-9" "duration" ⟨7737125245533627, -84⟩ :=
    ⟨"duration".toList, "0.4e-9".toList, by decide +kernel⟩
  obtain ⟨v, hv, -⟩ := thousands?_eq hbytes.holds.1
  refine ⟨(empty_iff_brief _ [] .never []).2.1 (.count (.inl hpacket) ?_),
    (empty_iff_brief _ [] .never []).2.1
      (.bytes hbytes hv ((thousands?_eq_none_iff hbytes.holds.1 hv).mp (by decide +kernel))), ?_⟩
  · norm_num [Dyadic.value]
  · obtain ⟨c, hc, hiff, -⟩ | ⟨hnot, -⟩ := (empty_iff_brief "duration:0.4e-9" [] .never []).1
    · refine ⟨c, hc, hiff.mpr ⟨_, hbrief, ?_⟩⟩
      norm_num [Dyadic.value, nanosPerSecond]
    · exact absurd ⟨_, hbrief, by norm_num [Dyadic.value, nanosPerSecond]⟩ hnot

/-- A tenth of a nanosecond is accepted, and ends a capture that has only just begun. -/
theorem brief_span_is_accepted : Answers "duration:1e-10" (.ok (.duration .zero)) ∧
    ((Tally.start [.duration .zero] 0).check 0).fired = some (.duration .zero) :=
  ⟨answers_iff.mpr (by decide +kernel), by decide⟩

end Condition

end CaptureRing
