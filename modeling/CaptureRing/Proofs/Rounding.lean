/-
  CaptureRing.Proofs.Rounding — rounding to a binary format, said of the numbers themselves.

  A number is rounded to the closest multiple of the last place that the format has around it, the
  even one where there are two (`BinaryFormat.Rounds`). The quotients and powers of two by which this
  is reckoned are compared with the rational numbers they stand for, so that what follows needs them
  no more.

  Proved:
  - `roundsTo_roundHalfEven`, `floorLog2_eq`: the two steps of rounding are the ones they are named for;
  - `BinaryFormat.nearest_cases`: a quotient is rounded, unless the result is beyond the format;
  - `BinaryFormat.Rounds.closest`: no value of the format is closer than the one rounded to, so that
    those of the format stay (`eq_of_holds`) and the order is kept (`le_of_le`, `le_of_ge`);
  - `BinaryFormat.Rounds.holds`: it is one of the format itself;
  - `BinaryFormat.Rounds.relative_error`: how far away it can be.
-/

import Mathlib.Algebra.Order.Floor.Semifield
import Mathlib.Data.Int.Log
import Mathlib.Data.Rat.Floor
import Mathlib.Tactic.Linarith
import Mathlib.Tactic.FieldSimp
import Mathlib.Tactic.Positivity
import CaptureRing.Number.Dyadic

namespace CaptureRing

/-! ## Whole numbers -/

/-- A whole number closest to `q`; the even one where there are two. -/
structure RoundsTo (q : ℚ) (m : ℕ) : Prop where
  near : |q - m| ≤ 1 / 2
  even : |q - m| = 1 / 2 → Even m

namespace RoundsTo

variable {q : ℚ} {m n : ℕ}

theorem unique (h : RoundsTo q m) (h' : RoundsTo q n) : m = n := by
  by_contra hne
  wlog hlt : m < n generalizing m n
  · exact this h' h (Ne.symm hne) (by omega)
  have h1 : (m : ℚ) + 1 ≤ n := by exact_mod_cast hlt
  have hm := abs_le.mp h.near
  have hn := abs_le.mp h'.near
  -- both are half a unit away, so both are even, and they are neighbours
  have hme : Even m := h.even (by rw [abs_of_nonneg] <;> linarith)
  have hne' : Even n := h'.even (by rw [abs_of_nonpos] <;> linarith)
  have hsucc : n = m + 1 := by
    have : (n : ℚ) ≤ m + 1 := by linarith
    have : n ≤ m + 1 := by exact_mod_cast this
    omega
  rw [hsucc, Nat.even_add_one] at hne'
  exact hne' hme

theorem closest (h : RoundsTo q m) (n : ℕ) : |q - m| ≤ |q - n| := by
  rcases eq_or_ne n m with rfl | hne
  · exact le_rfl
  have hapart : (1 : ℚ) ≤ |(n : ℚ) - m| := by
    rw [← Int.cast_natCast n, ← Int.cast_natCast m, ← Int.cast_sub, ← Int.cast_abs]
    exact_mod_cast Int.one_le_abs (sub_ne_zero.mpr (Int.ofNat_inj.not.mpr hne))
  have hsplit : |(n : ℚ) - m| ≤ |q - n| + |q - m| := by
    rw [abs_sub_comm q n]
    exact abs_sub_le _ _ _
  have := h.near
  linarith

end RoundsTo

/-- A quotient is compared with what lies halfway between whole numbers. -/
theorem roundsTo_div_iff {a b m : ℕ} (hb : 0 < b) : RoundsTo ((a : ℚ) / b) m ↔
    2 * a ≤ (2 * m + 1) * b ∧ 2 * m * b ≤ 2 * a + b ∧
      (2 * a = (2 * m + 1) * b ∨ 2 * m * b = 2 * a + b → Even m) := by
  have hb' : (0 : ℚ) < b := by exact_mod_cast hb
  have hsub : ((a : ℚ) / b - m) * b = a - m * b := by field_simp
  have hle : |(a : ℚ) / b - m| ≤ 1 / 2 ↔ 2 * a ≤ (2 * m + 1) * b ∧ 2 * m * b ≤ 2 * a + b := by
    rw [abs_le, ← mul_le_mul_iff_of_pos_right hb', ← mul_le_mul_iff_of_pos_right (b := (a : ℚ) / b - m) hb', hsub,
      and_comm]
    refine and_congr ?_ ?_
    · rw [← Nat.cast_le (α := ℚ)]
      push_cast
      constructor <;> intro h <;> linarith
    · rw [← Nat.cast_le (α := ℚ)]
      push_cast
      constructor <;> intro h <;> linarith
  have heq : |(a : ℚ) / b - m| = 1 / 2 ↔ 2 * a = (2 * m + 1) * b ∨ 2 * m * b = 2 * a + b := by
    rw [abs_eq (by norm_num), ← mul_left_inj' hb'.ne', ← mul_left_inj' (a := (a : ℚ) / b - m) hb'.ne', hsub]
    refine or_congr ?_ ?_
    · rw [← Nat.cast_inj (R := ℚ)]
      push_cast
      constructor <;> intro h <;> linarith
    · rw [← Nat.cast_inj (R := ℚ)]
      push_cast
      constructor <;> intro h <;> linarith
  constructor
  · rintro ⟨hnear, heven⟩
    exact ⟨(hle.mp hnear).1, (hle.mp hnear).2, fun h => heven (heq.mpr h)⟩
  · rintro ⟨hup, hdown, heven⟩
    exact ⟨hle.mpr ⟨hup, hdown⟩, fun h => heven (heq.mp h)⟩

theorem roundsTo_roundHalfEven (num : ℕ) {den : ℕ} (hden : 0 < den) :
    RoundsTo ((num : ℚ) / den) (roundHalfEven num den) := by
  obtain ⟨hup, hdown⟩ := roundHalfEven_near num den hden
  refine (roundsTo_div_iff hden).mpr ⟨hup, hdown, fun htie => ?_⟩
  have hdiv := Nat.div_add_mod num den
  have hmod := Nat.mod_lt num hden
  -- away from the middle between two numbers there is no tie
  have hmiddle : 2 * (num % den) = den := by
    have hup' : (2 * (num / den) + 1) * den = 2 * (den * (num / den)) + den := by ring
    have hdown' : 2 * (num / den) * den = 2 * (den * (num / den)) := by ring
    have hup'' : (2 * (num / den + 1) + 1) * den = 2 * (den * (num / den)) + 3 * den := by ring
    have hdown'' : 2 * (num / den + 1) * den = 2 * (den * (num / den)) + 2 * den := by ring
    unfold roundHalfEven at htie
    dsimp only at htie
    split at htie
    · omega
    · split at htie
      · omega
      · omega
  unfold roundHalfEven
  dsimp only
  rw [if_neg (by omega), if_neg (by omega)]
  split
  · exact Nat.even_iff.mpr ‹_›
  · exact Nat.even_add_one.mpr (by rwa [Nat.even_iff])

/-! ## Powers -/

theorem zpow_eq_div (b : ℚ) (e : ℤ) : b ^ e = b ^ e.toNat / b ^ (-e).toNat := by
  rcases le_total 0 e with h | h
  · lift e to ℕ using h
    simp
  · obtain ⟨k, rfl⟩ := Int.exists_eq_neg_ofNat h
    simp

theorem le_log_iff {q : ℚ} (hq : 0 < q) (k : ℤ) : k ≤ Int.log 2 q ↔ (2 : ℚ) ^ k ≤ q :=
  (Int.zpow_le_iff_le_log (by norm_num) hq).symm

theorem log_lt_iff {q : ℚ} (hq : 0 < q) (k : ℤ) : Int.log 2 q < k ↔ q < (2 : ℚ) ^ k :=
  (Int.lt_zpow_iff_log_lt (by norm_num) hq).symm

theorem log_eq {q : ℚ} {l : ℤ} (hle : (2 : ℚ) ^ l ≤ q) (hlt : q < (2 : ℚ) ^ (l + 1)) : Int.log 2 q = l := by
  have hq : 0 < q := lt_of_lt_of_le (zpow_pos (by norm_num) l) hle
  have h1 := (le_log_iff hq l).mpr hle
  have h2 := (log_lt_iff hq (l + 1)).mpr hlt
  omega

theorem floorLog2_eq {num den : ℕ} (hnum : 0 < num) (hden : 0 < den) :
    floorLog2 num den = Int.log 2 ((num : ℚ) / den) := by
  have hden' : (0 : ℚ) < den := by exact_mod_cast hden
  have htwo : (2 : ℚ) ≠ 0 := by norm_num
  have hnum1 : (2 : ℚ) ^ (num.log2 : ℤ) ≤ num := by exact_mod_cast Nat.log2_self_le hnum.ne'
  have hnum2 : (num : ℚ) < 2 ^ ((num.log2 : ℤ) + 1) := by exact_mod_cast Nat.lt_log2_self (n := num)
  have hden1 : (2 : ℚ) ^ (den.log2 : ℤ) ≤ den := by exact_mod_cast Nat.log2_self_le hden.ne'
  have hden2 : (den : ℚ) < 2 ^ ((den.log2 : ℤ) + 1) := by exact_mod_cast Nat.lt_log2_self (n := den)
  unfold floorLog2
  dsimp only
  generalize hl : (num.log2 : ℤ) - den.log2 = l
  -- the comparison is that of the quotient with the power of two
  have hcompare : num * 2 ^ (-l).toNat < den * 2 ^ l.toNat ↔ (num : ℚ) / den < 2 ^ l := by
    rw [zpow_eq_div, div_lt_div_iff₀ hden' (by positivity), mul_comm den, ← Nat.cast_lt (α := ℚ)]
    push_cast
    rfl
  have hlow : (2 : ℚ) ^ (l - 1) ≤ num / den := by
    rw [le_div_iff₀ hden']
    calc (2 : ℚ) ^ (l - 1) * den ≤ 2 ^ (l - 1) * 2 ^ ((den.log2 : ℤ) + 1) :=
          mul_le_mul_of_nonneg_left hden2.le (zpow_nonneg (by norm_num) _)
      _ = 2 ^ (num.log2 : ℤ) := by rw [← zpow_add₀ htwo]; congr 1; omega
      _ ≤ num := hnum1
  have hhigh : (num : ℚ) / den < 2 ^ (l + 1) := by
    rw [div_lt_iff₀ hden']
    calc (num : ℚ) < 2 ^ ((num.log2 : ℤ) + 1) := hnum2
      _ = 2 ^ (l + 1) * 2 ^ (den.log2 : ℤ) := by rw [← zpow_add₀ htwo]; congr 1; omega
      _ ≤ 2 ^ (l + 1) * den := mul_le_mul_of_nonneg_left hden1 (zpow_nonneg (by norm_num) _)
  split
  · rename_i h
    refine (log_eq hlow ?_).symm
    rw [sub_add_cancel]
    exact hcompare.mp h
  · rename_i h
    refine (log_eq ?_ hhigh).symm
    exact not_lt.mp fun hlt => h (hcompare.mpr hlt)

namespace Dyadic

def value (d : Dyadic) : ℚ := d.mantissa * 2 ^ d.exponent

theorem value_eq (d : Dyadic) : d.value = (d.num : ℚ) / d.den := by
  unfold value num den
  rw [zpow_eq_div]
  push_cast
  ring

theorem den_pos (d : Dyadic) : 0 < d.den := Nat.pow_pos (by decide)

theorem floor_eq (d : Dyadic) : d.floor = ⌊d.value⌋₊ := by
  rw [value_eq, Nat.floor_div_eq_div]
  rfl

theorem isWhole_iff {d : Dyadic} : d.isWhole = true ↔ ∃ n : ℕ, d.value = n := by
  unfold isWhole
  rw [beq_iff_eq, ← Nat.dvd_iff_mod_eq_zero, value_eq]
  have hden : (d.den : ℚ) ≠ 0 := by exact_mod_cast d.den_pos.ne'
  constructor
  · rintro ⟨n, hn⟩
    refine ⟨n, ?_⟩
    rw [hn, div_eq_iff hden]
    push_cast
    ring
  · rintro ⟨n, hn⟩
    rw [div_eq_iff hden] at hn
    exact ⟨n, by exact_mod_cast hn.trans (mul_comm _ _)⟩

theorem isZero_iff {d : Dyadic} : d.isZero = true ↔ d.value = 0 := by
  unfold isZero value
  rw [beq_iff_eq, mul_eq_zero, Nat.cast_eq_zero, or_iff_left (zpow_ne_zero _ (by norm_num))]

end Dyadic

namespace BinaryFormat

/-- The exponent of the last place of the format's values around `q`. -/
def exponentAt (f : BinaryFormat) (q : ℚ) : ℤ := max f.leastExponent (Int.log 2 q - (f.precision - 1 : ℕ))

/-- `v` is `q` rounded to the precision of the format: to the closest multiple of the last place,
    the even one where there are two. -/
def Rounds (f : BinaryFormat) (q v : ℚ) : Prop :=
  ∃ m : ℕ, RoundsTo (q / 2 ^ f.exponentAt q) m ∧ v = m * 2 ^ f.exponentAt q

/-- `v` is a value of the format, were it without bound. -/
def Holds (f : BinaryFormat) (v : ℚ) : Prop :=
  ∃ (m : ℕ) (e : ℤ), m < 2 ^ f.precision ∧ f.leastExponent ≤ e ∧ v = m * 2 ^ e

variable {f : BinaryFormat} {num den : ℕ} {q v w : ℚ}

theorem Rounds.unique (h : f.Rounds q v) (h' : f.Rounds q w) : v = w := by
  obtain ⟨m, hm, rfl⟩ := h
  obtain ⟨n, hn, rfl⟩ := h'
  rw [hm.unique hn]

theorem nearest_eq (f : BinaryFormat) (hnum : 0 < num) (hden : 0 < den) : f.nearest num den =
    let e := f.exponentAt (num / den)
    let m := roundHalfEven (num * 2 ^ (-e).toNat) (den * 2 ^ e.toNat)
    if m ≠ 0 ∧ f.bound ≤ (m.log2 : ℤ) + e then none else some ⟨m, e⟩ := by
  unfold nearest exponentAt
  rw [floorLog2_eq hnum hden]

/-- The quotient rounded, unless that is beyond the bound. -/
theorem nearest_cases (f : BinaryFormat) (hnum : 0 < num) (hden : 0 < den) :
    ∃ d : Dyadic, f.Rounds (num / den) d.value ∧
      f.nearest num den = if d.value < 2 ^ f.bound then some d else none := by
  have hpos : ∀ k : ℕ, 0 < 2 ^ k := fun k => Nat.pow_pos (by decide)
  rw [nearest_eq f hnum hden]
  unfold Rounds
  generalize f.exponentAt (num / den) = e
  dsimp only
  have hquotient : (num : ℚ) / den / 2 ^ e = ((num * 2 ^ (-e).toNat : ℕ) : ℚ) / (den * 2 ^ e.toNat : ℕ) := by
    rw [zpow_eq_div]
    push_cast
    field_simp
  have hround := roundsTo_roundHalfEven (num * 2 ^ (-e).toNat) (Nat.mul_pos hden (hpos e.toNat))
  rw [← hquotient] at hround
  generalize roundHalfEven (num * 2 ^ (-e).toNat) (den * 2 ^ e.toNat) = m at hround
  have hbound : m ≠ 0 ∧ f.bound ≤ (m.log2 : ℤ) + e ↔ ¬ (⟨m, e⟩ : Dyadic).value < 2 ^ f.bound := by
    unfold Dyadic.value
    by_cases hm : m = 0
    · simp [hm, zpow_pos]
    · have hm' : (0 : ℚ) < m := by exact_mod_cast Nat.pos_of_ne_zero hm
      have hlog : Int.log 2 (m : ℚ) = m.log2 := by rw [Int.log_natCast, Nat.log2_eq_log_two]
      rw [← lt_div_iff₀ (zpow_pos (by norm_num) e), ← zpow_sub₀ (by norm_num), ← log_lt_iff hm', hlog]
      omega
  refine ⟨⟨m, e⟩, ⟨m, hround, rfl⟩, ?_⟩
  by_cases h : (⟨m, e⟩ : Dyadic).value < 2 ^ f.bound
  · rw [if_pos h, if_neg fun hn => hbound.mp hn h]
  · rw [if_neg h, if_pos (hbound.mpr h)]

/-! ## The closest value -/

theorem exponentAt_le_iff (hq : 0 < q) {k : ℤ} :
    f.exponentAt q ≤ k ↔ f.leastExponent ≤ k ∧ q < 2 ^ (k + 1 + (f.precision - 1 : ℕ)) := by
  unfold exponentAt
  rw [max_le_iff, ← log_lt_iff hq]
  refine and_congr_right fun _ => ?_
  omega

/-- The exponent is the one with which the mantissa has all the digits of the format. -/
theorem exponentAt_eq {e : ℤ} (hp : 0 < f.precision) (he : f.leastExponent ≤ e)
    (hlow : 2 ^ (f.precision - 1) ≤ q / 2 ^ e) (hhigh : q / 2 ^ e < 2 ^ f.precision) : f.exponentAt q = e := by
  have hpos : (0 : ℚ) < 2 ^ e := zpow_pos (by norm_num) e
  have hlog : Int.log 2 q = (f.precision - 1 : ℕ) + e := by
    refine log_eq ?_ ?_
    · rwa [le_div_iff₀ hpos, ← zpow_natCast, ← zpow_add₀ (by norm_num)] at hlow
    · rw [div_lt_iff₀ hpos, ← zpow_natCast, ← zpow_add₀ (by norm_num)] at hhigh
      rwa [show ((f.precision - 1 : ℕ) : ℤ) + e + 1 = f.precision + e by omega]
  unfold exponentAt
  rw [hlog]
  omega

theorem abs_sub_multiple (q : ℚ) (n : ℕ) (e : ℤ) : |q - n * 2 ^ e| = |q / 2 ^ e - n| * 2 ^ e := by
  have hpos : (0 : ℚ) < 2 ^ e := zpow_pos (by norm_num) e
  rw [← abs_of_pos hpos, ← abs_mul, abs_of_pos hpos]
  congr 1
  field_simp

theorem Rounds.closest_multiple (h : f.Rounds q v) (n : ℕ) : |q - v| ≤ |q - n * 2 ^ f.exponentAt q| := by
  obtain ⟨m, hm, rfl⟩ := h
  generalize f.exponentAt q = e at hm ⊢
  have hpos : (0 : ℚ) < 2 ^ e := zpow_pos (by norm_num) e
  rw [abs_sub_multiple, abs_sub_multiple]
  exact mul_le_mul_of_nonneg_right (hm.closest n) hpos.le

/-- No value of the format is closer than the one that is rounded to. -/
theorem Rounds.closest (h : f.Rounds q v) (hq : 0 < q) (hw : f.Holds w) : |q - v| ≤ |q - w| := by
  obtain ⟨n, k, hn, hk, rfl⟩ := hw
  rcases le_or_gt (f.exponentAt q) k with hle | hlt
  · -- it is a multiple of the last place
    have hmultiple : (n : ℚ) * 2 ^ k = (n * 2 ^ (k - f.exponentAt q).toNat : ℕ) * 2 ^ f.exponentAt q := by
      push_cast
      rw [mul_assoc, ← zpow_natCast (2 : ℚ) (k - f.exponentAt q).toNat, ← zpow_add₀ (by norm_num)]
      congr 2
      omega
    rw [hmultiple]
    exact h.closest_multiple _
  · -- it lies below a power of two that is no greater than `q`
    have hpower : (2 : ℚ) ^ (f.exponentAt q + (f.precision - 1 : ℕ)) ≤ q := by
      by_contra hlarge
      have hle : f.exponentAt q ≤ f.exponentAt q - 1 := by
        refine (exponentAt_le_iff hq).mpr ⟨by omega, ?_⟩
        rw [sub_add_cancel]
        exact not_le.mp hlarge
      omega
    have hbelow : (n : ℚ) * 2 ^ k < 2 ^ (f.exponentAt q + (f.precision - 1 : ℕ)) := by
      calc (n : ℚ) * 2 ^ k < 2 ^ f.precision * 2 ^ k :=
            mul_lt_mul_of_pos_right (by exact_mod_cast hn) (zpow_pos (by norm_num) k)
        _ = 2 ^ ((f.precision : ℤ) + k) := by rw [zpow_add₀ (by norm_num), zpow_natCast]
        _ ≤ 2 ^ (f.exponentAt q + (f.precision - 1 : ℕ)) := zpow_le_zpow_right₀ (by norm_num) (by omega)
    have hclosest := h.closest_multiple (2 ^ (f.precision - 1))
    have hmultiple : ((2 ^ (f.precision - 1) : ℕ) : ℚ) * 2 ^ f.exponentAt q =
        2 ^ (f.exponentAt q + (f.precision - 1 : ℕ)) := by
      rw [zpow_add₀ (by norm_num), zpow_natCast, mul_comm]
      push_cast
      rfl
    rw [hmultiple, abs_of_nonneg (sub_nonneg.mpr hpower)] at hclosest
    rw [abs_of_nonneg (a := q - n * 2 ^ k) (by linarith)]
    linarith

/-- A power of two that the format is fine enough for. -/
theorem holds_zpow (hp : 0 < f.precision) {k : ℤ} (hk : f.leastExponent ≤ k) : f.Holds (2 ^ k) :=
  ⟨1, k, Nat.one_lt_pow hp.ne' (by norm_num), hk, by simp⟩

theorem holds_natCast (hl : f.leastExponent ≤ 0) {n : ℕ} (h : n < 2 ^ f.precision) : f.Holds n :=
  ⟨n, 0, h, hl, by simp⟩

namespace Rounds

theorem le_of_le (h : f.Rounds q v) (hq : 0 < q) (hw : f.Holds w) (hle : q ≤ w) : v ≤ w := by
  have hclosest := h.closest hq hw
  rw [abs_sub_comm q w, abs_of_nonneg (sub_nonneg.mpr hle)] at hclosest
  have := neg_le_abs (q - v)
  linarith

theorem le_of_ge (h : f.Rounds q v) (hq : 0 < q) (hw : f.Holds w) (hle : w ≤ q) : w ≤ v := by
  have hclosest := h.closest hq hw
  rw [abs_of_nonneg (sub_nonneg.mpr hle)] at hclosest
  have := le_abs_self (q - v)
  linarith

theorem eq_of_holds (h : f.Rounds q v) (hq : 0 < q) (hw : f.Holds q) : v = q :=
  le_antisymm (h.le_of_le hq hw le_rfl) (h.le_of_ge hq hw le_rfl)

theorem error (h : f.Rounds q v) : |q - v| ≤ 2 ^ f.exponentAt q / 2 := by
  obtain ⟨m, hm, rfl⟩ := h
  generalize f.exponentAt q = e at hm ⊢
  have hpos : (0 : ℚ) < 2 ^ e := zpow_pos (by norm_num) e
  rw [abs_sub_multiple]
  have := mul_le_mul_of_nonneg_right hm.near hpos.le
  linarith

theorem holds (h : f.Rounds q v) (hq : 0 < q) (hp : 0 < f.precision) : f.Holds v := by
  obtain ⟨m, hm, rfl⟩ := h
  have hleast : f.leastExponent ≤ f.exponentAt q := le_max_left _ _
  have hsmall : m ≤ 2 ^ f.precision := by
    have hq' : q < 2 ^ (f.exponentAt q + 1 + (f.precision - 1 : ℕ)) := ((exponentAt_le_iff hq).mp le_rfl).2
    have hv := Rounds.le_of_le ⟨m, hm, rfl⟩ hq (holds_zpow hp (k := f.exponentAt q + f.precision) (by omega))
      (hq'.le.trans_eq (by congr 1; omega))
    rw [add_comm, zpow_add₀ (by norm_num), zpow_natCast] at hv
    exact_mod_cast le_of_mul_le_mul_right hv (zpow_pos (by norm_num) _)
  rcases Nat.lt_or_eq_of_le hsmall with hlt | rfl
  · exact ⟨m, _, hlt, hleast, rfl⟩
  · -- the mantissa has outgrown the precision, and its last digit is zero
    refine ⟨2 ^ (f.precision - 1), f.exponentAt q + 1, Nat.pow_lt_pow_right (by norm_num) (by omega), by omega, ?_⟩
    obtain ⟨p, hp'⟩ := Nat.exists_eq_add_of_lt hp
    rw [hp', zero_add, Nat.add_sub_cancel, pow_succ, zpow_add_one₀ (by norm_num)]
    push_cast
    ring

/-- Rounding of what is a quotient of whole numbers with all the digits of the format. -/
theorem of_scaled {e : ℤ} {a b m : ℕ} (hp : 0 < f.precision) (he : f.leastExponent ≤ e) (hb : 0 < b)
    (hq : q / 2 ^ e = a / b) (hlow : 2 ^ (f.precision - 1) * b ≤ a) (hhigh : a < 2 ^ f.precision * b)
    (hm : RoundsTo (a / b) m) : f.Rounds q (m * 2 ^ e) := by
  have hb' : (0 : ℚ) < b := by exact_mod_cast hb
  have hexponent : f.exponentAt q = e := by
    refine exponentAt_eq hp he ?_ ?_
    · rw [hq, le_div_iff₀ hb']
      exact_mod_cast hlow
    · rw [hq, div_lt_iff₀ hb']
      exact_mod_cast hhigh
  exact ⟨m, by rwa [hexponent, hq], by rw [hexponent]⟩

theorem natCast {n : ℕ} (h : f.Rounds n v) (hn : 0 < n) (hp : 0 < f.precision) (hl : f.leastExponent ≤ 0) :
    ∃ r : ℕ, v = r := by
  have hn' : (0 : ℚ) < n := by exact_mod_cast hn
  by_cases he : f.exponentAt n ≤ 0
  · have hlt : (n : ℚ) < 2 ^ f.precision := by
      have hlt := ((exponentAt_le_iff hn').mp he).2
      rwa [show (0 : ℤ) + 1 + (f.precision - 1 : ℕ) = (f.precision : ℕ) by omega, zpow_natCast] at hlt
    exact ⟨n, h.eq_of_holds hn' (holds_natCast hl (by exact_mod_cast hlt))⟩
  · obtain ⟨m, -, rfl⟩ := h
    refine ⟨m * 2 ^ (f.exponentAt n).toNat, ?_⟩
    push_cast
    rw [← zpow_natCast, Int.toNat_of_nonneg (by omega)]

/-- Unless it is so small that the format has fewer digits for it. -/
theorem relative_error (h : f.Rounds q v) (hp : 0 < f.precision)
    (hq : 2 ^ (f.leastExponent + (f.precision - 1 : ℕ)) ≤ q) : |q - v| ≤ q / 2 ^ f.precision := by
  have hq' : 0 < q := lt_of_lt_of_le (zpow_pos (by norm_num) _) hq
  have hlog := (le_log_iff hq' _).mpr hq
  have hexponent : f.exponentAt q = Int.log 2 q - (f.precision - 1 : ℕ) := max_eq_right (by omega)
  have hpower : (2 : ℚ) ^ Int.log 2 q ≤ q := (le_log_iff hq' _).mp le_rfl
  calc |q - v| ≤ 2 ^ f.exponentAt q / 2 := h.error
    _ = 2 ^ Int.log 2 q / 2 ^ f.precision := by
      rw [hexponent, ← zpow_natCast (2 : ℚ) f.precision, ← zpow_sub₀ (by norm_num), div_eq_mul_inv,
        ← zpow_sub_one₀ (by norm_num)]
      congr 1
      omega
    _ ≤ q / 2 ^ f.precision := div_le_div_of_nonneg_right hpower (by positivity)

end Rounds

end BinaryFormat

end CaptureRing
