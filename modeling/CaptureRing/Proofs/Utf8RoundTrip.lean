/-
  CaptureRing.Proofs.Utf8RoundTrip — text that was encoded is decoded to itself, and bytes that are
  decoded are the encoding of their text.

  A character is written as a first byte, which holds its uppermost bits and the count of the
  bytes behind it, and as many bytes of six bits each. A reader allows of the first of these only
  what no shorter form and no surrogate would give, and a character's own bytes are never outside.

  Proved:
  - `lead?_one` to `lead?_four`: what a first byte stands for;
  - `next_encodeChar`: a character is read from its bytes, and what follows is left;
  - `decode?_encode`: so is a text;
  - `encodeChar_of_next`, `encode_of_decode?`: no other bytes are read as a character or a text.
-/

import CaptureRing.Text.Utf8

namespace CaptureRing.Utf8

/-! ## First bytes -/

theorem lead?_one : ∀ n < 0x80, lead? (UInt8.ofNat n) = some (n, ⟨0, 0x80, 0xBF⟩) := by decide

theorem lead?_two : ∀ n < 0x20, 2 ≤ n → lead? (UInt8.ofNat (n + 0xC0)) = some (n, ⟨1, 0x80, 0xBF⟩) := by decide

/-- The shorter forms end at 800, and the surrogates are D800 to DFFF. -/
theorem lead?_three : ∀ n < 0x10, lead? (UInt8.ofNat (n + 0xE0)) =
    some (n, ⟨2, if n = 0 then 0xA0 else 0x80, if n = 0xD then 0x9F else 0xBF⟩) := by decide

/-- The shorter forms end at 10000, and the last character is 10FFFF. -/
theorem lead?_four : ∀ n < 5, lead? (UInt8.ofNat (n + 0xF0)) =
    some (n, ⟨3, if n = 0 then 0x90 else 0x80, if n = 4 then 0x8F else 0xBF⟩) := by decide

theorem lead?_none : (∀ n < 0x42, lead? (UInt8.ofNat (n + 0x80)) = none) ∧
    ∀ n < 11, lead? (UInt8.ofNat (n + 0xF5)) = none := by
  decide

inductive Leads : UInt8 → Nat → Owed → Prop
  | one {n : Nat} : n < 0x80 → Leads (UInt8.ofNat n) n ⟨0, 0x80, 0xBF⟩
  | two {n : Nat} : 2 ≤ n → n < 0x20 → Leads (UInt8.ofNat (n + 0xC0)) n ⟨1, 0x80, 0xBF⟩
  | three {n : Nat} : n < 0x10 →
      Leads (UInt8.ofNat (n + 0xE0)) n ⟨2, if n = 0 then 0xA0 else 0x80, if n = 0xD then 0x9F else 0xBF⟩
  | four {n : Nat} : n < 5 →
      Leads (UInt8.ofNat (n + 0xF0)) n ⟨3, if n = 0 then 0x90 else 0x80, if n = 4 then 0x8F else 0xBF⟩

theorem leads_of_lead? {b : UInt8} {bits : Nat} {owed : Owed} (h : lead? b = some (bits, owed)) : Leads b bits owed := by
  have hb : b.toNat < 0x100 := b.toNat_lt
  rw [← UInt8.ofNat_toNat (x := b)] at h ⊢
  generalize b.toNat = n at h hb
  -- the ranges of first bytes, in their order
  rcases Nat.lt_or_ge n 0x80 with h1 | h1
  · rw [lead?_one n h1] at h
    cases h
    exact .one h1
  rcases Nat.lt_or_ge n 0xC2 with h2 | h2
  · obtain ⟨k, rfl⟩ := Nat.exists_eq_add_of_le' h1
    rw [lead?_none.1 k (by omega)] at h
    cases h
  rcases Nat.lt_or_ge n 0xE0 with h3 | h3
  · obtain ⟨k, rfl⟩ : ∃ k, n = k + 0xC0 := Nat.exists_eq_add_of_le' (by omega)
    rw [lead?_two k (by omega) (by omega)] at h
    cases h
    exact .two (by omega) (by omega)
  rcases Nat.lt_or_ge n 0xF0 with h4 | h4
  · obtain ⟨k, rfl⟩ := Nat.exists_eq_add_of_le' h3
    rw [lead?_three k (by omega)] at h
    cases h
    exact .three (by omega)
  rcases Nat.lt_or_ge n 0xF5 with h5 | h5
  · obtain ⟨k, rfl⟩ := Nat.exists_eq_add_of_le' h4
    rw [lead?_four k (by omega)] at h
    cases h
    exact .four (by omega)
  · obtain ⟨k, rfl⟩ := Nat.exists_eq_add_of_le' h5
    rw [lead?_none.2 k (by omega)] at h
    cases h

/-! ## Characters -/

/-- The forms of a character's number, by its length. -/
theorem encodeChar_ofNat {v : Nat} (hv : v < 0xD800 ∨ 0xDFFF < v ∧ v < 0x110000) : encodeChar (Char.ofNat v) =
    if v ≤ 0x7F then [UInt8.ofNat v]
    else if v ≤ 0x7FF then [UInt8.ofNat (v / 64 % 32 + 0xC0), UInt8.ofNat (v % 64 + 0x80)]
    else if v ≤ 0xFFFF then
      [UInt8.ofNat (v / 4096 % 16 + 0xE0), UInt8.ofNat (v / 64 % 64 + 0x80), UInt8.ofNat (v % 64 + 0x80)]
    else [UInt8.ofNat (v / 262144 % 8 + 0xF0), UInt8.ofNat (v / 4096 % 64 + 0x80), UInt8.ofNat (v / 64 % 64 + 0x80),
      UInt8.ofNat (v % 64 + 0x80)] := by
  have hval : (Char.ofNat v).val.toNat = v := by
    rw [Char.ofNat, dif_pos hv]
    rfl
  unfold encodeChar String.utf8EncodeChar
  dsimp only
  rw [hval]

/-- A byte of six more bits, within the range that the byte before it allows. -/
theorem finish_six {count bits m : Nat} {least greatest : UInt8} (hm : m < 64) (hleast : least.toNat ≤ m + 0x80)
    (hgreatest : m + 0x80 ≤ greatest.toNat) (bs : Bytes) :
    finish (count + 1) least greatest bits (UInt8.ofNat (m + 0x80) :: bs) = finish count 0x80 0xBF (bits * 64 + m) bs := by
  have hb : (UInt8.ofNat (m + 0x80)).toNat = m + 0x80 := by
    rw [UInt8.toNat_ofNat']
    omega
  rw [finish, if_pos, hb, Nat.add_sub_cancel]
  rw [UInt8.le_iff_toNat_le, UInt8.le_iff_toNat_le, hb]
  exact ⟨hleast, hgreatest⟩

/-- Behind the second byte of a character any six bits may follow. -/
theorem finish_any {count bits m : Nat} (hm : m < 64) (bs : Bytes) :
    finish (count + 1) 0x80 0xBF bits (UInt8.ofNat (m + 0x80) :: bs) = finish count 0x80 0xBF (bits * 64 + m) bs := by
  have hleast : (0x80 : UInt8).toNat = 0x80 := rfl
  have hgreatest : (0xBF : UInt8).toNat = 0xBF := rfl
  exact finish_six hm (by omega) (by omega) bs

/-- A number is read from the bytes of its character, unless it is that of a surrogate. -/
theorem next_encode_number {v : Nat} (hv : v < 0xD800 ∨ 0xDFFF < v ∧ v < 0x110000) (rest : Bytes) :
    ∃ b bs, encodeChar (Char.ofNat v) = b :: bs ∧ next b (bs ++ rest) = (some (Char.ofNat v), rest) := by
  rw [encodeChar_ofNat hv]
  -- one case for each length; from three bytes on, the range of the second byte depends on the first
  split
  · refine ⟨_, _, rfl, ?_⟩
    rw [next, lead?_one v (by omega)]
    rfl
  split
  · refine ⟨_, _, rfl, ?_⟩
    rw [next, lead?_two (v / 64 % 32) (by omega) (by omega)]
    dsimp only
    rw [List.cons_append, finish_any (by omega), List.nil_append, finish, show v / 64 % 32 * 64 + v % 64 = v by omega]
  split
  · refine ⟨_, _, rfl, ?_⟩
    rw [next, lead?_three (v / 4096 % 16) (by omega)]
    dsimp only
    rw [List.cons_append, finish_six (by omega), List.cons_append, finish_any (by omega), List.nil_append, finish,
      show (v / 4096 % 16 * 64 + v / 64 % 64) * 64 + v % 64 = v by omega]
    · split
      · simp
        omega
      · simp
    · split <;> simp <;> omega
  · refine ⟨_, _, rfl, ?_⟩
    rw [next, lead?_four (v / 262144 % 8) (by omega)]
    dsimp only
    rw [List.cons_append, finish_six (by omega), List.cons_append, finish_any (by omega), List.cons_append,
      finish_any (by omega), List.nil_append, finish,
      show ((v / 262144 % 8 * 64 + v / 4096 % 64) * 64 + v / 64 % 64) * 64 + v % 64 = v by omega]
    · split
      · simp
        omega
      · simp
    · split <;> simp <;> omega

theorem next_encodeChar (c : Char) (rest : Bytes) :
    ∃ b bs, encodeChar c = b :: bs ∧ next b (bs ++ rest) = (some c, rest) := by
  have h := next_encode_number c.valid rest
  rwa [show Char.ofNat c.val.toNat = c from Char.ofNat_toNat c] at h

/-- What a byte allowed after a first one adds to the character. -/
theorem finish_succ {count bits : Nat} {least greatest : UInt8} {c : Char} {bs rest : Bytes} (hleast : 0x80 ≤ least.toNat)
    (hgreatest : greatest.toNat ≤ 0xBF) (h : finish (count + 1) least greatest bits bs = (some c, rest)) :
    ∃ m bs', m < 64 ∧ least.toNat ≤ m + 0x80 ∧ m + 0x80 ≤ greatest.toNat ∧ bs = UInt8.ofNat (m + 0x80) :: bs' ∧
      finish count 0x80 0xBF (bits * 64 + m) bs' = (some c, rest) := by
  cases bs with
  | nil => cases h
  | cons b bs =>
    rw [finish] at h
    split at h
    · rename_i hb
      rw [UInt8.le_iff_toNat_le, UInt8.le_iff_toNat_le] at hb
      refine ⟨b.toNat - 0x80, bs, by omega, by omega, by omega, ?_, h⟩
      rw [Nat.sub_add_cancel (by omega), UInt8.ofNat_toNat]
    · cases h

theorem finish_any_succ {count bits : Nat} {c : Char} {bs rest : Bytes}
    (h : finish (count + 1) 0x80 0xBF bits bs = (some c, rest)) :
    ∃ m bs', m < 64 ∧ bs = UInt8.ofNat (m + 0x80) :: bs' ∧
      finish count 0x80 0xBF (bits * 64 + m) bs' = (some c, rest) := by
  obtain ⟨m, bs', hm, -, -, hbs, h⟩ := finish_succ (by decide) (by decide) h
  exact ⟨m, bs', hm, hbs, h⟩

/-- A character that is read was written in its own bytes. -/
theorem encodeChar_of_next {b : UInt8} {bs rest : Bytes} {c : Char} (h : next b bs = (some c, rest)) :
    b :: bs = encodeChar c ++ rest := by
  unfold next at h
  split at h
  · cases h
  rename_i bits owed hlead
  cases leads_of_lead? hlead with
  | one hn =>
    cases h
    rw [encodeChar_ofNat (by omega), if_pos (by omega)]
    rfl
  | two hleast hn =>
    obtain ⟨m, bs, hm, rfl, h₁⟩ := finish_any_succ h
    cases h₁
    rw [encodeChar_ofNat (by omega), if_neg (by omega), if_pos (by omega), show (bits * 64 + m) / 64 % 32 = bits by omega,
      show (bits * 64 + m) % 64 = m by omega]
    rfl
  | three hn =>
    obtain ⟨m, bs, hm, hleast, hgreatest, rfl, h₁⟩ :=
      finish_succ (by dsimp only; split <;> decide) (by dsimp only; split <;> decide) h
    obtain ⟨m', bs, hm', rfl, h₂⟩ := finish_any_succ h₁
    cases h₂
    have hlow : bits = 0 → 0xA0 ≤ m + 0x80 := by
      rintro rfl
      exact hleast
    have hhigh : bits = 0xD → m + 0x80 ≤ 0x9F := by
      rintro rfl
      exact hgreatest
    rw [encodeChar_ofNat (by omega), if_neg (by omega), if_neg (by omega), if_pos (by omega),
      show ((bits * 64 + m) * 64 + m') / 4096 % 16 = bits by omega, show ((bits * 64 + m) * 64 + m') / 64 % 64 = m by omega,
      show ((bits * 64 + m) * 64 + m') % 64 = m' by omega]
    rfl
  | four hn =>
    obtain ⟨m, bs, hm, hleast, hgreatest, rfl, h₁⟩ :=
      finish_succ (by dsimp only; split <;> decide) (by dsimp only; split <;> decide) h
    obtain ⟨m', bs, hm', rfl, h₂⟩ := finish_any_succ h₁
    obtain ⟨m'', bs, hm'', rfl, h₃⟩ := finish_any_succ h₂
    cases h₃
    have hlow : bits = 0 → 0x90 ≤ m + 0x80 := by
      rintro rfl
      exact hleast
    have hhigh : bits = 4 → m + 0x80 ≤ 0x8F := by
      rintro rfl
      exact hgreatest
    rw [encodeChar_ofNat (by omega), if_neg (by omega), if_neg (by omega), if_neg (by omega),
      show (((bits * 64 + m) * 64 + m') * 64 + m'') / 262144 % 8 = bits by omega,
      show (((bits * 64 + m) * 64 + m') * 64 + m'') / 4096 % 64 = m by omega,
      show (((bits * 64 + m) * 64 + m') * 64 + m'') / 64 % 64 = m' by omega,
      show (((bits * 64 + m) * 64 + m') * 64 + m'') % 64 = m'' by omega]
    rfl

/-! ## Texts -/

theorem sequences_encode (cs : List Char) : sequences (encode cs) = cs.map some := by
  induction cs with
  | nil => simp [encode, sequences]
  | cons c cs ih =>
    obtain ⟨b, bs, hbs, hnext⟩ := next_encodeChar c (encode cs)
    have hencode : encode (c :: cs) = b :: (bs ++ encode cs) := by
      rw [← List.cons_append, ← hbs]
      rfl
    rw [hencode, sequences, hnext, ih, List.map_cons]

theorem decode?_encode (cs : List Char) : decode? (encode cs) = some cs := by
  rw [decode?, sequences_encode, List.mapM_map]
  show cs.mapM (fun c => pure c) = some cs
  rw [List.mapM_pure, List.map_id']
  rfl

theorem encode_of_decode? {bs : Bytes} {cs : List Char} (h : decode? bs = some cs) : encode cs = bs := by
  unfold decode? at h
  fun_induction sequences bs generalizing cs with
  | case1 =>
    cases h
    rfl
  | case2 b bs ih =>
    rw [List.mapM_cons] at h
    obtain ⟨c, hc, h⟩ := Option.bind_eq_some_iff.mp h
    obtain ⟨cs', hcs, h⟩ := Option.bind_eq_some_iff.mp h
    cases h
    have hnext : next b bs = (some c, (next b bs).2) := Prod.ext hc rfl
    rw [encodeChar_of_next hnext, ← ih hcs]
    rfl

end CaptureRing.Utf8
