/-
  CaptureRing.Proofs.Decimals — numbers as they are written, and the conditions written with them.

  A decimal is digits with at most one point among or before them, and its value is that of the
  digits, a power of ten aside. The parsers do not keep it: they go on with the binary64 value that it
  is rounded to, and what becomes of the condition is said of that one.

  Proved:
  - `Decimal.positiveNumber?_text`: the text of a decimal is read as its value, rounded;
  - `Decimal.value_ofNat`: among them are the whole numbers as usually written;
  - `Decimal.counts_of_some`, `Decimal.countsNothing_of_none`, `Decimal.answers_filesize`: what the keys make
    of it.
-/

import Mathlib.Data.List.TakeWhile
import CaptureRing.Proofs.Conditions

namespace CaptureRing

/-! ## Blanks and colons -/

namespace Text

theorem trim_eq_self {cs : List Char} (h : ∀ c ∈ cs, isBlank c = false) : trim cs = cs := by
  have hkept (cs : List Char) (h : ∀ c ∈ cs, isBlank c = false) : cs.dropWhile isBlank = cs := by
    cases cs with
    | nil => rfl
    | cons c cs => exact List.dropWhile_cons_of_neg (by simp [h c])
  unfold trim dropEndWhile
  rw [hkept cs h, hkept cs.reverse (fun c hc => h c (List.mem_reverse.mp hc)), List.reverse_reverse]

theorem splitOnce?_append {sep : Char} {front : List Char} (h : sep ∉ front) (back : List Char) :
    splitOnce? sep (front ++ sep :: back) = some (front, back) := by
  induction front with
  | nil => exact if_pos rfl
  | cons c front ih =>
    rw [List.mem_cons, not_or] at h
    rw [List.cons_append, splitOnce?, if_neg (Ne.symm h.1), ih h.2]
    rfl

theorem isBlank_of_isDigit {c : Char} (h : c.isDigit = true) : isBlank c = false := by
  have hrange : 48 ≤ c.toNat ∧ c.toNat ≤ 57 := by
    simpa [Char.isDigit, UInt32.le_iff_toNat_le] using h
  simp only [isBlank, Bool.or_eq_false_iff, Bool.and_eq_false_iff, decide_eq_false_iff_not, beq_eq_false_iff_ne]
  omega

end Text

/-! ## Decimals -/

structure Decimal where
  whole : List Char
  fraction : List Char
  isDigit : ∀ c ∈ whole ++ fraction, c.isDigit = true
  ne_nil : whole ++ fraction ≠ []

namespace Decimal

/-- The number without its point. -/
def digits (k : Decimal) : ℕ := Nat.ofDigitChars 10 (k.whole ++ k.fraction) 0

def value (k : Decimal) : ℚ := k.digits / 10 ^ k.fraction.length

def text (k : Decimal) : List Char := if k.fraction = [] then k.whole else k.whole ++ '.' :: k.fraction

def ofNat (n : ℕ) : Decimal where
  whole := Nat.toDigits 10 n
  fraction := []
  isDigit c hc := Nat.isDigit_of_mem_toDigits (b := 10) (by decide) le_rfl (by rwa [List.append_nil] at hc)
  ne_nil := by rw [List.append_nil]; exact Nat.toDigits_ne_nil

theorem value_ofNat (n : ℕ) : (ofNat n).value = n := by
  simp [value, digits, ofNat, Nat.ofDigitChars_ten_toDigits]

variable {k : Decimal}

theorem mem_text {c : Char} (h : c ∈ k.text) : c.isDigit = true ∨ c = '.' := by
  unfold text at h
  split at h
  · exact .inl (k.isDigit c (List.mem_append_left _ h))
  · rcases List.mem_append.mp h with h | h
    · exact .inl (k.isDigit c (List.mem_append_left _ h))
    · rcases List.mem_cons.mp h with h | h
      · exact .inr h
      · exact .inl (k.isDigit c (List.mem_append_right _ h))

theorem trim_text (k : Decimal) : Text.trim k.text = k.text := by
  refine Text.trim_eq_self fun c hc => ?_
  rcases mem_text hc with h | rfl
  · exact Text.isBlank_of_isDigit h
  · decide

theorem parse?_text (k : Decimal) : Numeral.parse? k.text = some ⟨k.digits, -k.fraction.length⟩ := by
  have hwhole : ∀ c ∈ k.whole, c.isDigit = true := fun c hc => k.isDigit c (List.mem_append_left _ hc)
  have hfraction : ∀ c ∈ k.fraction, c.isDigit = true := fun c hc => k.isDigit c (List.mem_append_right _ hc)
  have hsome : (k.whole.isEmpty && k.fraction.isEmpty) = false := by
    have hne := k.ne_nil
    rw [← Bool.not_eq_true, Bool.and_eq_true, List.isEmpty_iff, List.isEmpty_iff]
    exact fun h => hne (by rw [h.1, h.2]; rfl)
  unfold Numeral.parse? text
  by_cases hnone : k.fraction = []
  · rw [hnone] at hsome
    rw [if_pos hnone, List.takeWhile_eq_self_iff.mpr hwhole, List.dropWhile_eq_nil_iff.mpr hwhole]
    dsimp only
    rw [hsome, digits, hnone]
    rfl
  · rw [if_neg hnone, List.takeWhile_append_of_pos hwhole, List.dropWhile_append_of_pos hwhole,
      List.takeWhile_cons_of_neg (by decide), List.dropWhile_cons_of_neg (by decide), List.append_nil]
    simp only [List.takeWhile_eq_self_iff.mpr hfraction, List.dropWhile_eq_nil_iff.mpr hfraction, hsome]
    rw [if_neg Bool.false_ne_true, Numeral.exponent?, Option.map_some, zero_sub]
    rfl

theorem value_eq (k : Decimal) : (⟨k.digits, -k.fraction.length⟩ : Numeral).value = k.value := by
  unfold Numeral.value value
  dsimp only
  rw [zpow_neg, zpow_natCast, div_eq_mul_inv]

theorem value_nonneg (k : Decimal) : 0 ≤ k.value := by
  unfold value
  positivity

theorem digits_pos (h : 0 < k.value) : 0 < k.digits := by
  refine Nat.pos_of_ne_zero fun hzero => ?_
  rw [value, hzero, Nat.cast_zero, zero_div] at h
  exact lt_irrefl _ h

/-- A decimal has no sign. -/
theorem positiveNumber?_eq (k : Decimal) : positiveNumber? k.text =
    (Numeral.toBinary64? ⟨k.digits, -k.fraction.length⟩).bind fun d => if d.isZero then none else some d := by
  unfold positiveNumber?
  split
  · rename_i rest hplus
    rcases mem_text (hplus ▸ List.mem_cons_self : '+' ∈ k.text) with h | h <;> cases h
  · dsimp only
    rw [parse?_text]
    rfl

/-- A decimal is read as the binary64 value that it is rounded to, if that is a positive number. -/
theorem positiveNumber?_text (h : 0 < k.value) : ∃ d : Dyadic, binary64.Rounds k.value d.value ∧
    positiveNumber? k.text = if 0 < d.value ∧ d.value < 2 ^ 1024 then some d else none := by
  obtain ⟨d, hd, hnearest⟩ := Numeral.toBinary64?_cases (n := ⟨k.digits, -k.fraction.length⟩) (digits_pos h)
  rw [value_eq] at hd
  refine ⟨d, hd, ?_⟩
  have hbound : d.value < 2 ^ binary64.bound ↔ d.value < 2 ^ 1024 := by
    rw [show binary64.bound = ((1024 : ℕ) : ℤ) from rfl, zpow_natCast]
  rw [positiveNumber?_eq, hnearest]
  by_cases hlt : d.value < 2 ^ 1024
  · rw [if_pos (hbound.mpr hlt)]
    dsimp only [Option.bind_some]
    by_cases hzero : d.isZero = true
    · rw [if_pos hzero, if_neg fun hd => hd.1.ne' (Dyadic.isZero_iff.mp hzero)]
    · rw [if_neg hzero, if_pos ⟨Dyadic.value_pos (Bool.eq_false_iff.mpr hzero), hlt⟩]
  · rw [if_neg (fun h => hlt (hbound.mp h)), if_neg fun h => hlt h.2]
    rfl

theorem positiveNumber?_zero (h : k.value = 0) : positiveNumber? k.text = none := by
  have hzero : k.digits = 0 := by
    unfold value at h
    rcases div_eq_zero_iff.mp h with h | h
    · exact_mod_cast h
    · exact absurd h (by positivity)
  rw [positiveNumber?_eq, hzero]
  cases hnearest : Numeral.toBinary64? ⟨0, -k.fraction.length⟩ with
  | none => rfl
  | some d =>
    unfold Numeral.toBinary64? at hnearest
    rw [Nat.zero_mul] at hnearest
    rw [Option.bind_some, if_pos (BinaryFormat.isZero_nearest_zero hnearest)]

/-! ## Conditions -/

def condition (k : Decimal) (key : String) : String := key ++ ":" ++ String.ofList k.text

def IsKey (key : String) : Prop := ∀ c ∈ key.toList, c ≠ ':' ∧ Text.isBlank c = false

instance (key : String) : Decidable (IsKey key) := List.decidableBAll _ key.toList

theorem isKey_packets : IsKey "packets" := by decide

theorem isKey_files : IsKey "files" := by decide

theorem isKey_filesize : IsKey "filesize" := by decide

variable {key key' : String} {d : Dyadic} {n : UInt64}

theorem condition_gives (hkey : IsKey key) :
    Condition.Says (k.condition key) key' d ↔ key = key' ∧ positiveNumber? k.text = some d := by
  have hsplit : Text.splitOnce? ':' (k.condition key).toList = some (key.toList, k.text) := by
    unfold condition
    simp only [String.toList_append, String.toList_ofList, List.append_assoc]
    exact Text.splitOnce?_append (fun h => (hkey _ h).1 rfl) k.text
  have htrim : String.ofList (Text.trim key.toList) = key := by
    rw [Text.trim_eq_self fun c hc => (hkey c hc).2, String.ofList_toList]
  constructor
  · rintro ⟨front, back, hsplit', hfront, hback⟩
    rw [hsplit] at hsplit'
    cases hsplit'
    rw [htrim] at hfront
    rw [trim_text] at hback
    exact ⟨hfront, hback⟩
  · rintro ⟨rfl, h⟩
    exact ⟨key.toList, k.text, hsplit, htrim, by rwa [trim_text]⟩

theorem parse_condition (hkey : IsKey key) (h : positiveNumber? k.text = some d) :
    Condition.parse (k.condition key) = Condition.ofValue (k.condition key) key d :=
  Condition.parse_of_key ((condition_gives hkey).mpr ⟨rfl, h⟩)

def Counts (k : Decimal) (n : UInt64) : Prop :=
  Condition.Answers (k.condition "packets") (.ok (.packets n)) ∧ Condition.Answers (k.condition "files") (.ok (.files n))

def CountsNothing (k : Decimal) : Prop :=
  Condition.Answers (k.condition "packets") (fail (.invalidCondition (k.condition "packets"))) ∧
    Condition.Answers (k.condition "files") (fail (.invalidCondition (k.condition "files")))

theorem counts_of_some (h : positiveNumber? k.text = some d) (hn : Condition.count? d = some n) : k.Counts n := by
  unfold Counts
  rw [Condition.answers_iff, Condition.answers_iff, parse_condition isKey_packets h, parse_condition isKey_files h,
    Condition.ofValue, Condition.ofValue]
  simp [hn]

theorem countsNothing_of_none (h : ∀ d, positiveNumber? k.text = some d → Condition.count? d = none) :
    k.CountsNothing := by
  unfold CountsNothing
  rw [Condition.answers_iff, Condition.answers_iff]
  cases hd : positiveNumber? k.text with
  | none =>
    have hsilent {key : String} (hkey : IsKey key) : ∀ key' d, ¬ Condition.Says (k.condition key) key' d := by
      intro key' d hd'
      rw [condition_gives hkey, hd] at hd'
      cases hd'.2
    exact ⟨Condition.parse_of_silent (hsilent isKey_packets), Condition.parse_of_silent (hsilent isKey_files)⟩
  | some d =>
    rw [parse_condition isKey_packets hd, parse_condition isKey_files hd, Condition.ofValue, Condition.ofValue]
    simp [h d hd]

theorem answers_filesize (h : positiveNumber? k.text = some d) (hn : Condition.thousands? d = some n) :
    Condition.Answers (k.condition "filesize") (.ok (.bytes n)) := by
  rw [Condition.answers_iff, parse_condition isKey_filesize h, Condition.ofValue]
  simp [hn]

end Decimal

end CaptureRing
