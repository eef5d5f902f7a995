/-
  CaptureRing.Proofs.Thresholds — the thresholds that decimals give.

  A decimal is rounded to binary64 before anything else is asked of it. Whole numbers of up to 53
  binary digits survive this. Greater ones are met as closely as binary64 can, and a fraction that it
  has no place for is gone: what was no whole number then is one. A number of kilobytes is rounded as
  well, and so is its product with a thousand. With `s` chosen so that `n · 2^s` has 53 binary digits,
  both are roundings of quotients by 125 and by a power of two, and the remainder by 125 tells whether the
  product is `n` again, or the next number of binary64 to either side. The lower one is cut to `n - 1`.

  Proved:
  - `floor_thousands`, `floor_thousands_close`: what becomes of `n` thousandths times a thousand;
  - `saturate64_eq_iff`: which whole numbers are kept;
  - `not_rounds_natCast`: a decimal of fewer than 2^53 units of its last digit is not rounded to a whole number;
  - `Decimal.thresholds_rounded`: the threshold that each decimal gives, and which of them is the number itself;
  - `Decimal.digits_are_lost`: some that are not.
-/

import CaptureRing.Proofs.Decimals

namespace CaptureRing

open BinaryFormat

/-! ## Thousandths -/

section Thousandths

variable {n s j m l : ℕ} {v : ℚ}

/-- The digits of `n` are aligned to 53 binary places; those of its thousandth stand `j` places further. -/
theorem rounds_thousandth (hs : s + j ≤ 1000) (hlow : 125 * 2 ^ 52 ≤ 2 ^ j * (n * 2 ^ s))
    (hhigh : 2 ^ j * (n * 2 ^ s) < 125 * 2 ^ 53) (hm : RoundsTo ((2 ^ j * (n * 2 ^ s) : ℕ) / (125 : ℕ)) m) :
    binary64.Rounds (n / 1000) (m * 2 ^ (-(s + 3 + j : ℕ) : ℤ)) := by
  have hscale : (n : ℚ) / 1000 / 2 ^ (-(s + 3 + j : ℕ) : ℤ) = (2 ^ j * (n * 2 ^ s) : ℕ) / (125 : ℕ) := by
    rw [zpow_neg, zpow_natCast]
    push_cast
    field_simp
    ring
  refine Rounds.of_scaled (by decide) ?_ (by decide) hscale ?_ ?_ hm
  · unfold binary64
    dsimp only
    omega
  · rw [mul_comm]
    exact hlow
  · rw [mul_comm (2 ^ _) 125]
    exact hhigh

theorem rounds_thousands (hs : s ≤ 1000) (hlow : 2 ^ 52 * 2 ^ j ≤ 125 * m) (hhigh : 125 * m < 2 ^ 53 * 2 ^ j)
    (hl : RoundsTo ((125 * m : ℕ) / (2 ^ j : ℕ)) l) :
    binary64.Rounds (m * 2 ^ (-(s + 3 + j : ℕ) : ℤ) * 1000) (l * 2 ^ (-(s : ℕ) : ℤ)) := by
  have hscale : (m : ℚ) * 2 ^ (-(s + 3 + j : ℕ) : ℤ) * 1000 / 2 ^ (-(s : ℕ) : ℤ) =
      (125 * m : ℕ) / (2 ^ j : ℕ) := by
    rw [zpow_neg, zpow_neg, zpow_natCast, zpow_natCast]
    push_cast
    field_simp
    ring
  refine Rounds.of_scaled (by decide) ?_ (Nat.pow_pos (by decide)) hscale hlow hhigh hl
  unfold binary64
  dsimp only
  omega

/-- An odd number of parts has no middle. -/
theorem near_of_roundsTo {a : ℕ} (h : RoundsTo (a / (125 : ℕ)) m) : 125 * m ≤ a + 62 ∧ a ≤ 125 * m + 62 := by
  obtain ⟨hup, hdown, -⟩ := (roundsTo_div_iff (by decide)).mp h
  omega

/-- The greater part of the numbers of a binade: the error of the thousandth is lost in the product. -/
theorem roundsTo_of_far {b : ℕ} (h : 125 * m ≤ 128 * b + 62 ∧ 128 * b ≤ 125 * m + 62) :
    RoundsTo ((125 * m : ℕ) / (128 : ℕ)) b :=
  (roundsTo_div_iff (by decide)).mpr ⟨by omega, by omega, fun htie => by omega⟩

/-- The others: it may be more than half the last place of the product. -/
theorem roundsTo_of_near {b : ℕ} (heven : Even b) (hb : 0 < b) (h : 125 * m ≤ 64 * b + 62 ∧ 64 * b ≤ 125 * m + 62) :
    RoundsTo ((125 * m : ℕ) / (64 : ℕ)) (if 32 < 64 * b % 125 ∧ 64 * b % 125 < 63 then b - 1
      else if 63 ≤ 64 * b % 125 ∧ 64 * b % 125 < 93 then b + 1 else b) := by
  have hdiv := Nat.div_add_mod (64 * b) 125
  have hmod := Nat.mod_lt (64 * b) (show 0 < 125 by decide)
  generalize 64 * b / 125 = q at hdiv
  generalize 64 * b % 125 = r at hdiv hmod ⊢
  rw [roundsTo_div_iff (by decide)]
  -- the remainder tells on which side of the thousandth the rounded one is
  obtain ⟨rfl, hr⟩ | ⟨rfl, hr⟩ : m = q ∧ r ≤ 62 ∨ m = q + 1 ∧ 63 ≤ r := by omega
  · rcases le_or_gt r 32 with hle | hgt
    · rw [if_neg (by omega), if_neg (by omega)]
      exact ⟨by omega, by omega, fun _ => heven⟩
    · rw [if_pos (by omega)]
      exact ⟨by omega, by omega, fun htie => by omega⟩
  · rcases le_or_gt 93 r with hle | hgt
    · rw [if_neg (by omega), if_neg (by omega)]
      exact ⟨by omega, by omega, fun _ => heven⟩
    · rw [if_neg (by omega), if_pos (by omega)]
      exact ⟨by omega, by omega, fun htie => by omega⟩

theorem floor_scaled (l s : ℕ) : ⌊(l : ℚ) * 2 ^ (-(s : ℕ) : ℤ)⌋₊ = l / 2 ^ s := by
  rw [zpow_neg, zpow_natCast, ← div_eq_mul_inv, ← Nat.floor_div_eq_div (K := ℚ)]
  push_cast
  rfl

/-- Of numbers of 52 binary digits or fewer: the thousandth is rounded down, by more than half the last
    place of the product. -/
def LosesByte (n : ℕ) : Prop :=
  let b := n * 2 ^ (52 - n.log2)
  125 * 2 ^ 52 ≤ 64 * b ∧ 32 < 64 * b % 125 ∧ 64 * b % 125 < 63

instance (n : ℕ) : Decidable (LosesByte n) := inferInstanceAs (Decidable (_ ∧ _ ∧ _))

theorem losesByte_iff (hs : n.log2 + s = 52) : LosesByte n ↔
    125 * 2 ^ 52 ≤ 64 * (n * 2 ^ s) ∧ 32 < 64 * (n * 2 ^ s) % 125 ∧ 64 * (n * 2 ^ s) % 125 < 63 := by
  unfold LosesByte
  rw [show 52 - n.log2 = s by omega]

section Aligned

variable {w : ℚ} (hs : 0 < s) (hs' : s ≤ 52) (hlow : 2 ^ 52 ≤ n * 2 ^ s) (hhigh : n * 2 ^ s < 2 ^ 53)
  (hv : binary64.Rounds (n / 1000) v) (hw : binary64.Rounds (v * 1000) w)

include hs' hlow hhigh hv hw in
theorem floor_of_far (hfar : 64 * (n * 2 ^ s) < 125 * 2 ^ 52) : ⌊w⌋₊ = n := by
  have hm := roundsTo_roundHalfEven (2 ^ 7 * (n * 2 ^ s)) (show 0 < 125 by decide)
  obtain rfl := hv.unique (rounds_thousandth (by omega) (by omega) (by omega) hm)
  have hnear := near_of_roundsTo hm
  generalize roundHalfEven (2 ^ 7 * (n * 2 ^ s)) 125 = m at hw hnear
  obtain rfl := hw.unique (rounds_thousands (by omega) (by omega) (by omega) (roundsTo_of_far hnear))
  rw [floor_scaled, Nat.mul_div_cancel _ (Nat.pow_pos (by decide))]

include hs hs' hlow hhigh hv hw in
theorem floor_of_near (hnear : 125 * 2 ^ 52 ≤ 64 * (n * 2 ^ s)) :
    ⌊w⌋₊ = if 32 < 64 * (n * 2 ^ s) % 125 ∧ 64 * (n * 2 ^ s) % 125 < 63 then n - 1 else n := by
  obtain ⟨p, hp⟩ : ∃ p, 2 ^ s = 2 * p := ⟨2 ^ (s - 1), by rw [← pow_succ']; congr 1; omega⟩
  have heven : Even (n * 2 ^ s) := ⟨n * p, by rw [hp]; ring⟩
  have hm := roundsTo_roundHalfEven (2 ^ 6 * (n * 2 ^ s)) (show 0 < 125 by decide)
  obtain rfl := hv.unique (rounds_thousandth (by omega) hnear (by omega) hm)
  have hclose := near_of_roundsTo hm
  generalize roundHalfEven (2 ^ 6 * (n * 2 ^ s)) 125 = m at hw hclose
  obtain rfl := hw.unique (rounds_thousands (j := 6) (by omega) (by omega) (by omega)
    (roundsTo_of_near heven (by omega) hclose))
  have hn : 0 < n := Nat.pos_of_ne_zero fun hzero => by rw [hzero] at hlow; omega
  have hpos : 0 < 2 ^ s := Nat.pow_pos (by decide)
  have hup : (n + 1) * 2 ^ s = n * 2 ^ s + 2 ^ s := Nat.succ_mul _ _
  have hdown : (n - 1) * 2 ^ s = n * 2 ^ s - 2 ^ s := Nat.sub_one_mul _ _
  rw [floor_scaled]
  split
  · exact Nat.div_eq_of_lt_le (by omega) (by rw [Nat.sub_add_cancel hn]; omega)
  · split
    · exact Nat.div_eq_of_lt_le (by omega) (by omega)
    · exact Nat.div_eq_of_lt_le le_rfl (by omega)

end Aligned

theorem floor_thousands {w : ℚ} (hn : 0 < n) (hlt : n < 2 ^ 52) (hv : binary64.Rounds (n / 1000) v)
    (hw : binary64.Rounds (v * 1000) w) : ⌊w⌋₊ = if LosesByte n then n - 1 else n := by
  have hlog : n.log2 < 52 := (Nat.log2_lt hn.ne').mpr hlt
  obtain ⟨s, hs⟩ : ∃ s, n.log2 + s = 52 := ⟨52 - n.log2, by omega⟩
  have hlow : 2 ^ 52 ≤ n * 2 ^ s := by
    rw [← hs, pow_add]
    exact Nat.mul_le_mul_right _ (Nat.log2_self_le hn.ne')
  have hhigh : n * 2 ^ s < 2 ^ 53 := by
    rw [show 53 = n.log2 + 1 + s by omega, pow_add]
    exact Nat.mul_lt_mul_of_pos_right Nat.lt_log2_self (Nat.pow_pos (by decide))
  rw [if_congr (losesByte_iff hs) rfl rfl]
  rcases le_or_gt (125 * 2 ^ 52) (64 * (n * 2 ^ s)) with hnear | hfar
  · rw [floor_of_near (by omega) (by omega) hlow hhigh hv hw hnear]
    exact if_congr (and_iff_right hnear).symm rfl rfl
  · rw [floor_of_far (by omega) hlow hhigh hv hw hfar, if_neg fun h => absurd h.1 (not_le.mpr hfar)]

/-- Greater numbers are met to one part in 2^50. -/
theorem floor_thousands_close {w : ℚ} (hn : 2 ^ 52 ≤ n) (hlt : n < 2 ^ 64) (hv : binary64.Rounds (n / 1000) v)
    (hw : binary64.Rounds (v * 1000) w) : |((saturate64 ⌊w⌋₊).toNat : ℚ) - n| ≤ n / 2 ^ 50 := by
  have hn' : (2 ^ 52 : ℚ) ≤ n := by exact_mod_cast hn
  have hlt' : (n : ℚ) ≤ 2 ^ 64 - 1 := by
    rw [le_sub_iff_add_le]
    exact_mod_cast hlt
  -- neither is among the least numbers of the format
  have hnormal {q : ℚ} (hq : 1 ≤ q) : 2 ^ (binary64.leastExponent + (binary64.precision - 1 : ℕ)) ≤ q :=
    le_trans (zpow_le_one_of_nonpos₀ (by norm_num) (by decide)) hq
  have hv' := abs_le.mp (hv.relative_error (by decide) (hnormal (by linarith)))
  rw [show binary64.precision = 53 from rfl] at hv'
  have hw' := abs_le.mp (hw.relative_error (by decide) (hnormal (by linarith)))
  rw [show binary64.precision = 53 from rfl] at hw'
  have hfloor := Nat.floor_le (show 0 ≤ w by linarith)
  have hceil := Nat.lt_floor_add_one w
  rw [toNat_saturate64, abs_le]
  rcases le_total ⌊w⌋₊ (2 ^ 64 - 1) with hle | hge
  · rw [min_eq_left hle]
    constructor <;> linarith
  · rw [min_eq_right hge]
    have hge' : ((2 ^ 64 - 1 : ℕ) : ℚ) ≤ ⌊w⌋₊ := by exact_mod_cast hge
    push_cast at hge' ⊢
    constructor <;> linarith

end Thousandths

/-! ## Whole numbers -/

/-- A number of 64 bits stays as it is, unless binary64 does not have it; the greatest of them is
    rounded to one that is cut to it again. -/
theorem saturate64_eq_iff {N r : ℕ} (hN : 0 < N) (hlt : N < 2 ^ 64) (h : binary64.Rounds N r) :
    (saturate64 r).toNat = N ↔ binary64.Holds N ∨ N = 2 ^ 64 - 1 := by
  have hN' : (0 : ℚ) < N := by exact_mod_cast hN
  rw [toNat_saturate64]
  constructor
  · intro heq
    by_cases hr : r = N
    · exact .inl (hr ▸ h.holds hN' (by decide))
    · exact .inr (by omega)
  · rintro (hholds | rfl)
    · have hr : r = N := by exact_mod_cast h.eq_of_holds hN' hholds
      omega
    · have htop : binary64.Rounds ((2 ^ 64 - 1 : ℕ) : ℚ) ((2 ^ 53 : ℕ) * 2 ^ (11 : ℤ)) :=
        Rounds.of_scaled (a := 2 ^ 64 - 1) (b := 2 ^ 11) (by decide) (by decide) (by decide) (by norm_num) (by decide)
          (by decide) ((roundsTo_div_iff (by decide)).mpr (by decide))
      have hr : r = 2 ^ 64 := by
        have heq := h.unique htop
        norm_num at heq
        exact_mod_cast heq
      omega

/-- What is rounded to a whole number although it is none has more digits than binary64 has for them. -/
theorem not_rounds_natCast {k : Decimal} {r : ℕ} (hdigits : k.digits < 2 ^ 53) (hr : 0 < r)
    (hpart : ¬ ∃ N : ℕ, k.value = N) : ¬ binary64.Rounds k.value r := by
  intro h
  have hpow : (0 : ℚ) < 10 ^ k.fraction.length := by positivity
  have hpos : 0 < k.value := by
    refine div_pos (Nat.cast_pos.mpr (Nat.pos_of_ne_zero fun hzero => hpart ⟨0, ?_⟩)) hpow
    rw [Decimal.value, hzero, Nat.cast_zero, zero_div]
  have hr' : (1 : ℚ) ≤ r := by exact_mod_cast hr
  have hhalf : 2 ^ (binary64.leastExponent + (binary64.precision - 1 : ℕ)) ≤ k.value := by
    refine le_trans (zpow_le_zpow_right₀ (by norm_num) (show _ ≤ (-1 : ℤ) by decide)) ?_
    by_contra hlt
    have hle := h.le_of_le hpos (holds_zpow (by decide) (k := -1) (by decide)) (not_le.mp hlt).le
    norm_num at hle
    linarith
  have herror := h.relative_error (by decide) hhalf
  -- the number and the whole one are less than one unit of the last digit apart
  have hunit : |(k.digits : ℚ) - r * 10 ^ k.fraction.length| < 1 := by
    have hvalue : k.value * 10 ^ k.fraction.length = k.digits := div_mul_cancel₀ _ hpow.ne'
    calc |(k.digits : ℚ) - r * 10 ^ k.fraction.length| = |k.value - r| * 10 ^ k.fraction.length := by
          rw [← hvalue, ← sub_mul, abs_mul, abs_of_pos hpow]
      _ ≤ k.value / 2 ^ 53 * 10 ^ k.fraction.length := mul_le_mul_of_nonneg_right herror hpow.le
      _ = k.digits / 2 ^ 53 := by rw [← hvalue]; ring
      _ < 1 := by
        rw [div_lt_one (by norm_num)]
        exact_mod_cast hdigits
  have heq : k.digits = r * 10 ^ k.fraction.length := by
    have hint : |(k.digits : ℤ) - (r * 10 ^ k.fraction.length : ℕ)| < 1 := by
      rw [← Int.cast_lt (R := ℚ)]
      push_cast
      exact hunit
    have hzero := Int.abs_lt_one_iff.mp hint
    omega
  exact hpart ⟨r, by rw [Decimal.value, heq]; push_cast; field_simp⟩

/-! ## Decimals -/

namespace Decimal

variable {k : Decimal}

def RoundsToCount (k : Decimal) (r : ℕ) : Prop := 0 < r ∧ (r : ℚ) < 2 ^ 1024 ∧ binary64.Rounds k.value r

theorem counts_of_roundsToCount {r : ℕ} (h : k.RoundsToCount r) (hk : 0 < k.value) : k.Counts (saturate64 r) := by
  obtain ⟨hr, hlt, hrounds⟩ := h
  obtain ⟨d, hd, hread⟩ := positiveNumber?_text hk
  have hvalue : d.value = r := hd.unique hrounds
  rw [if_pos ⟨by rw [hvalue]; exact_mod_cast hr, by rwa [hvalue]⟩] at hread
  exact counts_of_some hread (Condition.count?_natCast hvalue)

theorem countsNothing_of_not (h : ¬ ∃ r, k.RoundsToCount r) : k.CountsNothing := by
  refine countsNothing_of_none fun d hd => Condition.count?_eq_none_iff.mpr fun ⟨r, hr⟩ => h ⟨r, ?_⟩
  have hk : 0 < k.value := by
    refine lt_of_le_of_ne k.value_nonneg fun hzero => ?_
    rw [positiveNumber?_zero hzero.symm] at hd
    cases hd
  obtain ⟨d', hd', hread⟩ := positiveNumber?_text hk
  rw [hd] at hread
  split at hread
  · rename_i hrange
    cases hread
    rw [hr] at hd' hrange
    exact ⟨by exact_mod_cast hrange.1, hrange.2, hd'⟩
  · cases hread

/-- A number between a thousandth and 2^64 is read. -/
theorem positiveNumber?_moderate (hlow : 1 ≤ k.value * 1000) (hhigh : k.value ≤ 2 ^ 64) : ∃ d : Dyadic,
    0 < d.value ∧ d.value ≤ 2 ^ 64 ∧ binary64.Rounds k.value d.value ∧ positiveNumber? k.text = some d := by
  have hk : 0 < k.value := by linarith
  obtain ⟨d, hd, hread⟩ := positiveNumber?_text hk
  have hpos : 0 < d.value := by
    have hle := hd.le_of_ge hk (holds_zpow (by decide) (k := -10) (by decide)) (by norm_num; linarith)
    exact lt_of_lt_of_le (by norm_num) hle
  have htop : d.value ≤ 2 ^ 64 := by
    have hle := hd.le_of_le hk (holds_zpow (by decide) (k := 64) (by decide)) (by norm_num; linarith)
    exact_mod_cast hle
  rw [if_pos ⟨hpos, htop.trans_lt (pow_lt_pow_right₀ (by norm_num) (by decide))⟩] at hread
  exact ⟨d, hpos, htop, hd, hread⟩

theorem counts_natCast {N : ℕ} (h : k.value = N) (hN : 0 < N) (hlt : N < 2 ^ 64) :
    ∃ r : ℕ, binary64.Rounds N r ∧ k.Counts (saturate64 r) := by
  have hN' : (1 : ℚ) ≤ N := by exact_mod_cast hN
  have hlt' : (N : ℚ) < 2 ^ 64 := by exact_mod_cast hlt
  obtain ⟨d, hpos, htop, hd, hread⟩ := k.positiveNumber?_moderate (by rw [h]; linarith) (by rw [h]; linarith)
  rw [h] at hd
  obtain ⟨r, hr⟩ := hd.natCast hN (by decide) (by decide)
  exact ⟨r, hr ▸ hd, counts_of_some hread (Condition.count?_natCast hr)⟩

/-- Whole bytes, but for those that a rounding may take away. -/
theorem answers_thousands {n : ℕ} (h : k.value * 1000 = n) (hn : 0 < n) (hlt : n < 2 ^ 64) :
    ∃ v w : ℚ, binary64.Rounds (n / 1000) v ∧ binary64.Rounds (v * 1000) w ∧
      Condition.Answers (k.condition "filesize") (.ok (.bytes (saturate64 ⌊w⌋₊))) := by
  have hn' : (1 : ℚ) ≤ n := by exact_mod_cast hn
  have hlt' : (n : ℚ) < 2 ^ 64 := by exact_mod_cast hlt
  obtain ⟨d, hpos, htop, hd, hread⟩ := k.positiveNumber?_moderate (by rw [h]; exact hn') (by linarith)
  rw [← h, mul_div_cancel_right₀ _ (by norm_num)]
  obtain ⟨w, hw, hthousands⟩ := Condition.thousands?_eq hpos
  refine ⟨d.value, w, hd, hw, answers_filesize hread ?_⟩
  rw [hthousands, if_neg]
  intro hzero
  rw [eq_div_of_mul_eq (by norm_num) h] at hd
  rcases lt_or_ge n (2 ^ 52) with hsmall | hlarge
  · rw [floor_thousands hn hsmall hd hw] at hzero
    split at hzero
    · rename_i hloses
      obtain rfl : n = 1 := by omega
      exact absurd hloses (by decide)
    · omega
  · have hclose := floor_thousands_close hlarge hlt hd hw
    rw [hzero, toNat_saturate64, Nat.zero_min, Nat.cast_zero, zero_sub, abs_neg, abs_of_nonneg (by linarith)] at hclose
    linarith

/-- Whole numbers of packets and files are rounded to binary64, and so lose what it has no digits for;
    a number of kilobytes is rounded twice and then cut, which takes away a byte from some of the numbers
    of bytes; and what is no whole number is refused, unless rounding makes it one. -/
theorem thresholds_rounded (k : Decimal) :
    (∀ N : ℕ, k.value = N → 0 < N → N < 2 ^ 64 → ∃ r : ℕ, binary64.Rounds N r ∧ k.Counts (saturate64 r) ∧
      ((saturate64 r).toNat = N ↔ binary64.Holds N ∨ N = 2 ^ 64 - 1)) ∧
    (∀ n : ℕ, k.value * 1000 = n → 0 < n → n < 2 ^ 64 → ∃ v w : ℚ,
      binary64.Rounds (n / 1000) v ∧ binary64.Rounds (v * 1000) w ∧
      Condition.Answers (k.condition "filesize") (.ok (.bytes (saturate64 ⌊w⌋₊))) ∧
      (n < 2 ^ 52 → (saturate64 ⌊w⌋₊).toNat = if LosesByte n then n - 1 else n) ∧
      (2 ^ 52 ≤ n → |((saturate64 ⌊w⌋₊).toNat : ℚ) - n| ≤ n / 2 ^ 50)) ∧
    ((¬ ∃ N : ℕ, k.value = N) →
      (∀ r, k.RoundsToCount r → k.Counts (saturate64 r)) ∧ ((¬ ∃ r, k.RoundsToCount r) → k.CountsNothing) ∧
      (k.digits < 2 ^ 53 → k.CountsNothing)) := by
  refine ⟨fun N h hN hlt => ?_, fun n h hn hlt => ?_,
    fun hpart => ⟨fun r hr => ?_, countsNothing_of_not, fun hdigits => ?_⟩⟩
  · obtain ⟨r, hr, hcounts⟩ := counts_natCast h hN hlt
    exact ⟨r, hr, hcounts, saturate64_eq_iff hN hlt hr⟩
  · obtain ⟨v, w, hv, hw, hanswers⟩ := answers_thousands h hn hlt
    refine ⟨v, w, hv, hw, hanswers, fun hsmall => ?_, fun hlarge => floor_thousands_close hlarge hlt hv hw⟩
    have hfloor := floor_thousands hn hsmall hv hw
    rw [toNat_saturate64, ← hfloor, min_eq_left]
    rw [hfloor]
    split <;> omega
  · exact counts_of_roundsToCount hr
      (lt_of_le_of_ne k.value_nonneg fun hzero => hpart ⟨0, by rw [← hzero, Nat.cast_zero]⟩)
  · exact countsNothing_of_not fun ⟨r, hr⟩ => not_rounds_natCast hdigits hr.1 hpart hr.2.2

theorem thresholds_rounded_usual : (ofNat 97).Counts 97 ∧ Condition.Answers "filesize:1.5" (.ok (.bytes 1500)) ∧
    Condition.Answers "packets:2.5" (fail (.invalidCondition "packets:2.5")) := by
  refine ⟨?_, ?_, ?_⟩
  · obtain ⟨r, -, hcounts, hiff⟩ := (thresholds_rounded (ofNat 97)).1 97 (value_ofNat 97) (by decide) (by decide)
    have hr : saturate64 r = 97 := UInt64.toNat_inj.mp (hiff.mpr (.inl (holds_natCast (by decide) (by decide))))
    rwa [hr] at hcounts
  · let k : Decimal := ⟨['1'], ['5'], List.all_eq_true.mp rfl, by decide⟩
    have hvalue : k.value = (15 : ℕ) / 10 ^ 1 := rfl
    obtain ⟨v, w, -, -, hanswers, hsmall, -⟩ :=
      (thresholds_rounded k).2.1 1500 (by rw [hvalue]; norm_num) (by decide) (by decide)
    have hw : saturate64 ⌊w⌋₊ = 1500 := UInt64.toNat_inj.mp ((hsmall (by decide)).trans (if_neg (by decide)))
    rwa [hw] at hanswers
  · let k : Decimal := ⟨['2'], ['5'], List.all_eq_true.mp rfl, by decide⟩
    have hvalue : k.value = (25 : ℕ) / 10 ^ 1 := rfl
    refine (((thresholds_rounded k).2.2 ?_).2.2 (by decide)).1
    rintro ⟨N, hN⟩
    rw [hvalue, div_eq_iff (by norm_num)] at hN
    have hint : 25 = N * 10 ^ 1 := by exact_mod_cast hN
    omega

/-- 2^53 + 1 packets, 1001 bytes, and half a file more than 2^53. -/
theorem digits_are_lost : Condition.Answers "packets:9007199254740993" (.ok (.packets 9007199254740992)) ∧
    Condition.Answers "filesize:1.001" (.ok (.bytes 1000)) ∧
    Condition.Answers "files:9007199254740992.5" (.ok (.files 9007199254740992)) := by
  simp only [Condition.answers_iff]
  decide +kernel

end Decimal

end CaptureRing
