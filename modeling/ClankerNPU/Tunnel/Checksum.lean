import ClankerNPU.Lib.OnesComplement
import ClankerNPU.Tunnel.Model

/-! # The incremental IPv4 checksum

    `ipv4_csum_update` adds the old words inverted to the new ones and
    folds the carries twice. The second fold can carry once more. -/

namespace ClankerNPU.Tunnel

open Memory

/-- The sum of `n` big-endian words from `a` on. -/
def wordSum (m : Memory) (a : ℕ) : ℕ → ℕ
  | 0 => 0
  | n + 1 => wordSum m a n + m.be16 (a + 2 * n)

/-- The header length in words. -/
def ipv4Words (m : Memory) (iph : ℕ) : ℕ := 2 * ((m iph).val % 16)

/-- An IPv4 header whose checksum is right. -/
structure Ipv4Header (m : Memory) (iph : ℕ) : Prop where
  version : (m iph).val / 16 = 4
  length : 5 ≤ (m iph).val % 16
  checksum : OnesComplement.fold (wordSum m iph (ipv4Words m iph)) = 0xFFFF

/-- A new total length and fragment word, and the checksum that goes with
    them. -/
def ipv4Rewrite (m : Memory) (iph totlen frag : ℕ) : Memory :=
  ((m.put16 (iph + 2) totlen).put16 (iph + 6) frag).put16 (iph + 10)
    (ipv4CsumUpdate m iph totlen frag)

/-- The words for which a carry is lost: the fragment word does not go
    down, and the new words exceed the old ones by one in one's complement;
    when the fragment word stays or goes up by one, only some total lengths. -/
def LosesCarry (csum oldLen oldFrag totlen frag : ℕ) : Prop :=
  oldFrag ≤ frag ∧ (totlen + frag) % 65535 = (csum + oldLen + oldFrag + 1) % 65535 ∧
    (frag = oldFrag → totlen = csum + oldLen + 1) ∧
    (frag = oldFrag + 1 → ¬(csum = 65535 ∧ oldLen = 65535 ∧ totlen = 0))

instance (csum oldLen oldFrag totlen frag : ℕ) :
    Decidable (LosesCarry csum oldLen oldFrag totlen frag) :=
  inferInstanceAs (Decidable (_ ∧ _ ∧ _ ∧ _))

section

variable {m : Memory} {a iph n v totlen frag : ℕ}

theorem wordSum_congr {m' : Memory} (h : ∀ i < n, m'.be16 (a + 2 * i) = m.be16 (a + 2 * i)) :
    wordSum m' a n = wordSum m a n := by
  induction n with
  | zero => rfl
  | succ n ih =>
    unfold wordSum
    rw [ih fun i hi => h i (by omega), h n (by omega)]

/-- A word written changes the sum by the difference. -/
theorem wordSum_put16 (m : Memory) (a : ℕ) {i n : ℕ} (hi : i < n) (hv : v < 2 ^ 16) :
    wordSum (m.put16 (a + 2 * i) v) a n + m.be16 (a + 2 * i) = wordSum m a n + v := by
  induction n with
  | zero => omega
  | succ n ih =>
    unfold wordSum
    by_cases hlast : i = n
    · subst hlast
      have hrest : wordSum (m.put16 (a + 2 * i) v) a i = wordSum m a i :=
        wordSum_congr fun j hj => be16_put16_of_ne _ _ (by omega)
      rw [hrest, be16_put16_self _ _ hv]
      omega
    · have hbefore := ih (by omega)
      rw [be16_put16_of_ne _ _ (by omega : a + 2 * n + 1 < a + 2 * i ∨ a + 2 * i + 1 < a + 2 * n)]
      omega

theorem be16_le_wordSum {i : ℕ} (hi : i < n) : m.be16 (a + 2 * i) ≤ wordSum m a n := by
  induction n with
  | zero => omega
  | succ n ih =>
    unfold wordSum
    by_cases hlast : i = n
    · rw [hlast]
      omega
    · have := ih (by omega)
      omega

/-- A version nibble makes the sum positive. -/
theorem wordSum_pos (hversion : (m iph).val / 16 = 4) (hlen : 5 ≤ (m iph).val % 16) :
    0 < wordSum m iph (ipv4Words m iph) := by
  have hfirst : m.be16 (iph + 2 * 0) ≤ wordSum m iph (ipv4Words m iph) :=
    be16_le_wordSum (by unfold ipv4Words; omega)
  have hword : 256 ≤ m.be16 (iph + 2 * 0) := by
    show 256 ≤ (m iph).val * 256 + (m (iph + 1)).val
    omega
  omega

theorem ipv4CsumUpdate_lt (m : Memory) (iph totlen frag : ℕ) :
    ipv4CsumUpdate m iph totlen frag < 2 ^ 16 := by
  unfold ipv4CsumUpdate
  dsimp only
  omega

/-- The first byte stays. -/
theorem ipv4Rewrite_first (m : Memory) (iph totlen frag : ℕ) :
    ipv4Rewrite m iph totlen frag iph = m iph := by
  unfold ipv4Rewrite
  rw [put16_of_ne _ _ (by omega), put16_of_ne _ _ (by omega), put16_of_ne _ _ (by omega)]

/-- The three words exchanged in the sum. -/
theorem wordSum_ipv4Rewrite (hn : 10 ≤ n) (htot : totlen < 2 ^ 16) (hfrag : frag < 2 ^ 16) :
    wordSum (ipv4Rewrite m iph totlen frag) iph n
        + (m.be16 (iph + 2) + m.be16 (iph + 6) + m.be16 (iph + 10))
      = wordSum m iph n + (totlen + frag + ipv4CsumUpdate m iph totlen frag) := by
  have h1 : wordSum (m.put16 (iph + 2) totlen) iph n + m.be16 (iph + 2)
      = wordSum m iph n + totlen :=
    wordSum_put16 m iph (show 1 < n by omega) htot
  have h2 : wordSum ((m.put16 (iph + 2) totlen).put16 (iph + 6) frag) iph n
        + (m.put16 (iph + 2) totlen).be16 (iph + 6)
      = wordSum (m.put16 (iph + 2) totlen) iph n + frag :=
    wordSum_put16 _ iph (show 3 < n by omega) hfrag
  have h3 : wordSum (ipv4Rewrite m iph totlen frag) iph n
        + ((m.put16 (iph + 2) totlen).put16 (iph + 6) frag).be16 (iph + 10)
      = wordSum ((m.put16 (iph + 2) totlen).put16 (iph + 6) frag) iph n
        + ipv4CsumUpdate m iph totlen frag :=
    wordSum_put16 _ iph (show 5 < n by omega) (ipv4CsumUpdate_lt m iph totlen frag)
  rw [be16_put16_of_ne _ _ (by omega)] at h2
  rw [be16_put16_of_ne _ _ (by omega), be16_put16_of_ne _ _ (by omega)] at h3
  omega

/-- The second fold of the five words carries out of 16 bits. -/
theorem carry_iff {c l f : ℕ} (hc : c < 2 ^ 16) (hl : l < 2 ^ 16) (hf : f < 2 ^ 16)
    (htot : totlen < 2 ^ 16) (hfrag : frag < 2 ^ 16) {x y : ℕ}
    (hx : x = 65535 - c + (65535 - l) + totlen)
    (hy : y = x % 65536 + x / 65536 + (65535 - f) + frag) :
    65536 ≤ y % 65536 + y / 65536 ↔ LosesCarry c l f totlen frag := by
  have htwo : 65536 ≤ y % 65536 + y / 65536 ↔ y = 131071 ∨ y = 196606 := by omega
  rw [htwo]
  have hfold := Nat.mod_add_div x 65536
  have hrest := Nat.mod_lt x (show 0 < 65536 by decide)
  have hq : x / 65536 ≤ 2 := by omega
  generalize x / 65536 = q at *
  generalize x % 65536 = r at *
  have hx' : x + c + l = 131070 + totlen := by omega
  have hy' : y + f = r + q + 65535 + frag := by omega
  clear hx hy htwo
  unfold LosesCarry
  constructor
  · intro hlost
    refine ⟨by omega, ?_, by omega, by omega⟩
    -- the five words sum to one above a multiple of 0xFFFF
    have hmul : totlen + frag + 65535 * 3 = c + l + f + 1 + 65535 * (q + y / 65535) := by omega
    omega
  · rintro ⟨hle, hmod, hsame, hnext⟩
    obtain rfl | rfl | rfl : q = 0 ∨ q = 1 ∨ q = 2 := by omega
    all_goals omega

/-- The word `ipv4_csum_update` returns, up to multiples of 0xFFFF: right
    unless the carry is lost, and then one too large. -/
theorem ipv4CsumUpdate_mod (htot : totlen < 2 ^ 16) (hfrag : frag < 2 ^ 16) :
    (ipv4CsumUpdate m iph totlen frag + totlen + frag) % 65535 =
        (m.be16 (iph + 10) + m.be16 (iph + 2) + m.be16 (iph + 6)) % 65535 ↔
      ¬LosesCarry (m.be16 (iph + 10)) (m.be16 (iph + 2)) (m.be16 (iph + 6)) totlen frag := by
  have hcarry := carry_iff (be16_lt m (iph + 10)) (be16_lt m (iph + 2)) (be16_lt m (iph + 6))
    htot hfrag rfl rfl
  rw [← hcarry, not_le]
  have hc := be16_lt m (iph + 10)
  have hl := be16_lt m (iph + 2)
  have hf := be16_lt m (iph + 6)
  unfold ipv4CsumUpdate
  dsimp only
  rw [Nat.mod_eq_of_lt htot, Nat.mod_eq_of_lt hfrag]
  generalize m.be16 (iph + 10) = c at *
  generalize m.be16 (iph + 2) = l at *
  generalize m.be16 (iph + 6) = f at *
  generalize hx : 65535 - c + (65535 - l) + totlen = x
  generalize hy : x % 2 ^ 16 + x / 2 ^ 16 + (65535 - f) + frag = y
  -- two folds take off multiples of 0xFFFF
  have hsum : y % 65536 + y / 65536 + 65535 * (x / 65536 + y / 65536) + c + l + f
      = 3 * 65535 + totlen + frag := by omega
  have hmax : y % 65536 + y / 65536 ≤ 65536 := by omega
  generalize x / 65536 + y / 65536 = k at hsum
  have hpow : (2 : ℕ) ^ 16 = 65536 := rfl
  rw [hpow]
  generalize y % 65536 + y / 65536 = z at *
  constructor
  · intro hmod
    by_contra hlost
    have hz : z = 65536 := by omega
    subst hz
    omega
  · intro hlt
    have hret : 65535 - z % 65536 + z = 65535 := by omega
    omega

/-- The header with the new words and the checksum returned for them is
    right again exactly when the update loses no carry. -/
theorem ipv4Rewrite_header_iff (h : Ipv4Header m iph) (htot : totlen < 2 ^ 16)
    (hfrag : frag < 2 ^ 16) : Ipv4Header (ipv4Rewrite m iph totlen frag) iph ↔
      ¬LosesCarry (m.be16 (iph + 10)) (m.be16 (iph + 2)) (m.be16 (iph + 6)) totlen frag := by
  have hfirst := ipv4Rewrite_first m iph totlen frag
  have hversion : (ipv4Rewrite m iph totlen frag iph).val / 16 = 4 := by
    rw [hfirst]
    exact h.version
  have hlength : 5 ≤ (ipv4Rewrite m iph totlen frag iph).val % 16 := by
    rw [hfirst]
    exact h.length
  have hwords : ipv4Words (ipv4Rewrite m iph totlen frag) iph = ipv4Words m iph := by
    unfold ipv4Words
    rw [hfirst]
  have hold := (OnesComplement.fold_eq_iff (wordSum_pos h.version h.length)).mp h.checksum
  have hnew := OnesComplement.fold_eq_iff (wordSum_pos hversion hlength)
  have hsum := @wordSum_ipv4Rewrite m iph (ipv4Words m iph) totlen frag
    (by have := h.length; unfold ipv4Words; omega) htot hfrag
  rw [hwords] at hnew
  rw [← ipv4CsumUpdate_mod htot hfrag]
  constructor
  · intro hheader
    have hzero := hnew.mp (hwords ▸ hheader.checksum)
    omega
  · intro hmod
    refine ⟨hversion, hlength, ?_⟩
    rw [hwords, hnew]
    omega

end

/-- A header of 20 bytes at address 0, total length 1500. -/
def header (csum dst : ℕ) : Memory :=
  let m : Memory := fun _ => 0
  let m := ((m.put16 0 0x4500).put16 2 1500).put16 8 0x4011
  ((((m.put16 10 csum).put16 12 0x0A00).put16 14 0x0101).put16 16 0x0A00).put16 18 dst

/-- The first fragment of a packet of 1500 bytes, 1424 of payload. -/
theorem ipv4Rewrite_header_first :
    Ipv4Header (header 0x1FC6 0x404B) 0 ∧
      Ipv4Header (ipv4Rewrite (header 0x1FC6 0x404B) 0 1444 0x2000) 0 := by
  have h : Ipv4Header (header 0x1FC6 0x404B) 0 :=
    ⟨by decide +kernel, by decide +kernel,
      (OnesComplement.fold_eq_iff (by decide +kernel)).mpr (by decide +kernel)⟩
  exact ⟨h, (ipv4Rewrite_header_iff h (by decide) (by decide)).mpr (by decide +kernel)⟩

/-- The same for addresses that make the checksum one larger. -/
theorem ipv4Csum_carry : ¬∀ m iph, Ipv4Header m iph → ∀ totlen < 2 ^ 16, ∀ frag < 2 ^ 16,
    Ipv4Header (ipv4Rewrite m iph totlen frag) iph := by
  intro hall
  have h : Ipv4Header (header 0x1FC7 0x404A) 0 :=
    ⟨by decide +kernel, by decide +kernel,
      (OnesComplement.fold_eq_iff (by decide +kernel)).mpr (by decide +kernel)⟩
  have hnew := hall _ 0 h 1444 (by decide) 0x2000 (by decide)
  have hzero := (OnesComplement.fold_eq_iff (by decide +kernel)).mp hnew.checksum
  exact absurd hzero (by decide +kernel)

end ClankerNPU.Tunnel
