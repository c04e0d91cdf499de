import ClankerNPU.Lib.Bytes
import ClankerNPU.Words

/-! # L4S marking

    `l4s_ecn_mark` of `npu_l4s.c` walks over the tags of a frame to its IP
    header and sets both ECN bits there. It is given the frame's address
    and no length: what it touches is recorded, byte by byte, to be held
    against the bytes the frame has. -/

namespace ClankerNPU.L4s

open Memory

/-! ## The code -/

/-- `*(u16 *)p`; the cores are little-endian. -/
def le16 (m : Memory) (p : ℕ) : ℕ := (m p).val + 256 * (m (p + 1)).val

/-- `l4s_be16` -/
def l4sBe16 (v : ℕ) : ℕ := v / 256 + v % 256 * 256

/-- The loop's test for a tag; `~0x10` keeps the other bits of a `u16`. -/
def isTag (type : ℕ) : Prop :=
  type &&& 0xFFEF = l4sBe16 0x8100 ∨ type = l4sBe16 0x88A8 ∨ type = l4sBe16 0x884C

instance (type : ℕ) : Decidable (isTag type) := inferInstanceAs (Decidable (_ ∨ _))

/-- The loop: where it stops, and the bytes it has read. It need not stop;
    `none` when it has not within `fuel` passes. -/
def skipTags (m : Memory) : ℕ → ℕ → Option (ℕ × List ℕ)
  | 0, _ => none
  | fuel + 1, p =>
    if isTag (le16 m p) then (skipTags m fuel (p + 4)).map fun r => (r.1, p :: (p + 1) :: r.2)
    else some (p, [p, p + 1])

/-- Memory after the call, and the bytes read or written. -/
structure Marked where
  mem : Memory
  touched : List ℕ

/-- `l4s_ecn_mark` behind the loop. -/
def markAt (m : Memory) (p : ℕ) (reads : List ℕ) : Marked :=
  if le16 m p = l4sBe16 0x8864 then
    if le16 m (p + 8) = l4sBe16 0x0021 then
      ⟨m.put8 (p + 11) ((m (p + 11)).val ||| 3), reads ++ [p + 8, p + 9, p + 11]⟩
    else if le16 m (p + 8) = l4sBe16 0x0057 then
      ⟨m.put8 (p + 11) ((m (p + 11)).val ||| 0x30), reads ++ [p + 8, p + 9, p + 11]⟩
    else ⟨m, reads ++ [p + 8, p + 9]⟩
  else if l4sBe16 (le16 m p) = 0x0800 then
    ⟨m.put8 (p + 3) ((m (p + 3)).val ||| 3), reads ++ [p + 3]⟩
  else if l4sBe16 (le16 m p) = 0x86DD then
    ⟨m.put8 (p + 3) ((m (p + 3)).val ||| 0x30), reads ++ [p + 3]⟩
  else ⟨m, reads⟩

/-- `l4s_ecn_mark` -/
def l4sEcnMark (m : Memory) (pkt fuel : ℕ) : Option Marked :=
  if pkt = 0 then some ⟨m, []⟩
  else (skipTags m fuel (pkt + 12)).map fun r => markAt m r.1 r.2

/-! ## The frame -/

/-- The types of VLAN tags, on the wire. -/
def vlanType (type : ℕ) : Prop :=
  type = 0x8100 ∨ type = 0x9100 ∨ type = 0x88A8 ∨ type = 0x884C

/-- The frame at `pkt` has `n` tags. -/
def Tags (m : Memory) (pkt n : ℕ) : Prop :=
  (∀ i < n, vlanType (m.be16 (pkt + 12 + 4 * i))) ∧ ¬vlanType (m.be16 (pkt + 12 + 4 * n))

inductive IpVersion where
  | v4
  | v6
  deriving DecidableEq

/-- Where the first IP header behind the tags is, directly or over PPPoE. -/
inductive IpAt (m : Memory) (pkt : ℕ) : IpVersion → ℕ → Prop where
  | ipv4 {n : ℕ} : Tags m pkt n → m.be16 (pkt + 12 + 4 * n) = 0x0800 →
      IpAt m pkt .v4 (pkt + 12 + 4 * n + 2)
  | ipv6 {n : ℕ} : Tags m pkt n → m.be16 (pkt + 12 + 4 * n) = 0x86DD →
      IpAt m pkt .v6 (pkt + 12 + 4 * n + 2)
  | pppoe4 {n : ℕ} : Tags m pkt n → m.be16 (pkt + 12 + 4 * n) = 0x8864 →
      m.be16 (pkt + 12 + 4 * n + 8) = 0x0021 → IpAt m pkt .v4 (pkt + 12 + 4 * n + 10)
  | pppoe6 {n : ℕ} : Tags m pkt n → m.be16 (pkt + 12 + 4 * n) = 0x8864 →
      m.be16 (pkt + 12 + 4 * n + 8) = 0x0057 → IpAt m pkt .v6 (pkt + 12 + 4 * n + 10)

/-- The ECN bits in the second byte of an IP header: the low bits of the
    TOS, or of the traffic class four bits further up. -/
def ecnBits : IpVersion → ℕ
  | .v4 => 0x03
  | .v6 => 0x30

/-- Two memories differ in the ECN bits of the frame's IP header at most. -/
def OnlyEcn (m m' : Memory) (pkt : ℕ) : Prop :=
  ∀ a, m' a ≠ m a → ∃ v ip, IpAt m pkt v ip ∧ a = ip + 1 ∧
    (m' a).val ||| ecnBits v = (m a).val ||| ecnBits v

/-- The call on a frame of `len` bytes ends, stays inside of it and
    changes its ECN bits at most. -/
def MarksInside (m : Memory) (pkt len : ℕ) : Prop :=
  ∃ fuel r, l4sEcnMark m pkt fuel = some r ∧ (∀ a ∈ r.touched, pkt ≤ a ∧ a < pkt + len) ∧
    OnlyEcn m r.mem pkt

/-- How far from a type on the frame has to reach: over the type itself,
    to the second byte of an IP header behind it, over a PPP protocol, or
    to the second byte of the IP header behind that. -/
def reach (type proto : ℕ) : ℕ :=
  if type = 0x0800 ∨ type = 0x86DD then 4
  else if type = 0x8864 then if proto = 0x0021 ∨ proto = 0x0057 then 12 else 10
  else 2

/-- The first type that is no tag's lies in the frame, and so does what is
    looked at behind it. -/
def TagsFit (m : Memory) (pkt len : ℕ) : Prop :=
  ∃ n, Tags m pkt n ∧
    12 + 4 * n + reach (m.be16 (pkt + 12 + 4 * n)) (m.be16 (pkt + 12 + 4 * n + 8)) ≤ len

/-! ## Words of the wire -/

section words

variable {m : Memory} {p pkt len n : ℕ}

theorem le16_lt (m : Memory) (p : ℕ) : le16 m p < 65536 := by
  unfold le16
  have h0 := (m p).isLt
  have h1 := (m (p + 1)).isLt
  omega

theorem l4sBe16_le16 (m : Memory) (p : ℕ) : l4sBe16 (le16 m p) = m.be16 p := by
  unfold l4sBe16 le16 be16
  have h0 := (m p).isLt
  have h1 := (m (p + 1)).isLt
  omega

theorem l4sBe16_l4sBe16 {v : ℕ} (hv : v < 65536) : l4sBe16 (l4sBe16 v) = v := by
  unfold l4sBe16
  omega

/-- A type compared as it lies in memory. -/
theorem le16_eq_iff {v : ℕ} (hv : v < 65536) : le16 m p = l4sBe16 v ↔ m.be16 p = v := by
  rw [← l4sBe16_le16]
  constructor
  · intro h
    rw [h, l4sBe16_l4sBe16 hv]
  · intro h
    rw [← h, l4sBe16_l4sBe16 (le16_lt m p)]

/-- The mask lets 0x9100 pass for 0x8100. -/
theorem masked_iff (m : Memory) (p : ℕ) :
    le16 m p &&& 0xFFEF = l4sBe16 0x8100 ↔ m.be16 p = 0x8100 ∨ m.be16 p = 0x9100 := by
  have hlo : (le16 m p &&& 0xFFEF) % 2 ^ 8 = (m p).val &&& 0xEF := by
    have hbyte : le16 m p % 2 ^ 8 = (m p).val := by
      unfold le16
      have h0 := (m p).isLt
      omega
    rw [Nat.and_mod_two_pow, hbyte]
  have hhi : (le16 m p &&& 0xFFEF) / 2 ^ 8 = (m (p + 1)).val := by
    have h1 := (m (p + 1)).isLt
    have hdiv : le16 m p / 2 ^ 8 = (m (p + 1)).val := by
      unfold le16
      have h0 := (m p).isLt
      omega
    rw [Nat.and_div_two_pow, hdiv]
    show (m (p + 1)).val &&& (2 ^ 8 - 1) = _
    rw [Nat.and_two_pow_sub_one_eq_mod, Nat.mod_eq_of_lt h1]
  have hbyte : ∀ b : Fin 256, b.val &&& 0xEF = 0x81 ↔ b.val = 0x81 ∨ b.val = 0x91 := by
    decide +kernel
  have hfirst := hbyte (m p)
  have hsplit : le16 m p &&& 0xFFEF = l4sBe16 0x8100 ↔
      (m p).val &&& 0xEF = 0x81 ∧ (m (p + 1)).val = 0 := by
    rw [← hlo, ← hhi]
    have hconst : l4sBe16 0x8100 = 0x81 := rfl
    omega
  rw [hsplit, hfirst]
  unfold be16
  have h0 := (m p).isLt
  have h1 := (m (p + 1)).isLt
  omega

theorem isTag_iff (m : Memory) (p : ℕ) : isTag (le16 m p) ↔ vlanType (m.be16 p) := by
  unfold isTag vlanType
  rw [masked_iff, le16_eq_iff (by decide), le16_eq_iff (by decide), or_assoc]

end words

/-! ## The walk -/

section walk

variable {m : Memory} {p pkt len n : ℕ}

/-- The bytes the loop reads on its way over `n` tags. -/
def tagReads (p n : ℕ) : List ℕ := (List.range (n + 1)).flatMap fun i => [p + 4 * i, p + 4 * i + 1]

theorem mem_tagReads {a : ℕ} :
    a ∈ tagReads p n ↔ ∃ i ≤ n, a = p + 4 * i ∨ a = p + 4 * i + 1 := by
  unfold tagReads
  simp only [List.mem_flatMap, List.mem_range, List.mem_cons, List.not_mem_nil, or_false,
    Nat.lt_succ_iff]

theorem tagReads_succ (p n : ℕ) : tagReads p (n + 1) = p :: (p + 1) :: tagReads (p + 4) n := by
  unfold tagReads
  rw [List.range_succ_eq_map, List.flatMap_cons, List.flatMap_map]
  have hshift : ∀ i, p + 4 * (i + 1) = p + 4 + 4 * i := by
    intro i
    omega
  simp only [Nat.succ_eq_add_one, hshift]
  rfl

/-- The first of some tags, and the others behind it. -/
theorem tagged_succ (m : Memory) (p n : ℕ) :
    ((∀ i < n + 1, vlanType (m.be16 (p + 4 * i))) ∧ ¬vlanType (m.be16 (p + 4 * (n + 1)))) ↔
      vlanType (m.be16 p) ∧ (∀ i < n, vlanType (m.be16 (p + 4 + 4 * i))) ∧
        ¬vlanType (m.be16 (p + 4 + 4 * n)) := by
  have hshift : ∀ i, p + 4 * (i + 1) = p + 4 + 4 * i := by
    intro i
    omega
  rw [Nat.forall_lt_succ_left, Nat.mul_zero, Nat.add_zero, and_assoc]
  simp only [hshift]

/-- The loop stops at the first type that is no tag's, if there is one. -/
theorem skipTags_iff {fuel : ℕ} {r : ℕ × List ℕ} :
    skipTags m fuel p = some r ↔ ∃ n < fuel, r = (p + 4 * n, tagReads p n) ∧
      (∀ i < n, vlanType (m.be16 (p + 4 * i))) ∧ ¬vlanType (m.be16 (p + 4 * n)) := by
  induction fuel generalizing p r with
  | zero => simp [skipTags]
  | succ fuel ih =>
    unfold skipTags
    by_cases htag : isTag (le16 m p)
    · rw [if_pos htag, Option.map_eq_some_iff]
      have hfirst : vlanType (m.be16 p) := (isTag_iff m p).mp htag
      constructor
      · rintro ⟨r', hr', rfl⟩
        obtain ⟨n, hn, rfl, hrest⟩ := ih.mp hr'
        refine ⟨n + 1, by omega, ?_, (tagged_succ m p n).mpr ⟨hfirst, hrest⟩⟩
        rw [tagReads_succ, Nat.mul_add_one, Nat.add_comm (4 * n), ← Nat.add_assoc]
      · rintro ⟨n, hn, rfl, htagged⟩
        cases n with
        | zero => exact absurd hfirst htagged.2
        | succ n =>
          have hrest := ((tagged_succ m p n).mp htagged).2
          refine ⟨(p + 4 + 4 * n, tagReads (p + 4) n), ih.mpr ⟨n, by omega, rfl, hrest⟩, ?_⟩
          rw [tagReads_succ, Nat.mul_add_one, Nat.add_comm (4 * n), ← Nat.add_assoc]
    · rw [if_neg htag]
      have hfirst : ¬vlanType (m.be16 p) := fun h => htag ((isTag_iff m p).mpr h)
      constructor
      · intro h
        obtain rfl := Option.some.inj h
        exact ⟨0, by omega, rfl, fun i hi => absurd hi (by omega), hfirst⟩
      · rintro ⟨n, hn, rfl, hbefore, -⟩
        cases n with
        | zero => rfl
        | succ n => exact absurd (hbefore 0 (by omega)) hfirst

/-- A frame has one number of tags. -/
theorem Tags.unique {n' : ℕ} (h : Tags m pkt n) (h' : Tags m pkt n') : n = n' := by
  rcases Nat.lt_trichotomy n n' with hlt | heq | hgt
  · exact absurd (h'.1 n hlt) h.2
  · exact heq
  · exact absurd (h.1 n' hgt) h'.2

end walk

/-! ## What is touched and what is changed -/

section mark

variable {m : Memory} {pkt len n : ℕ}

/-- The bytes looked at behind the first type that is no tag's. -/
def behind (type proto : ℕ) : List ℕ :=
  if type = 0x0800 ∨ type = 0x86DD then [3]
  else if type = 0x8864 then if proto = 0x0021 ∨ proto = 0x0057 then [8, 9, 11] else [8, 9]
  else []

theorem markAt_touched (m : Memory) (p : ℕ) (reads : List ℕ) :
    (markAt m p reads).touched =
      reads ++ (behind (m.be16 p) (m.be16 (p + 8))).map (p + ·) := by
  have h8 : m.be16 p = 0x8864 → m.be16 p ≠ 0x0800 ∧ m.be16 p ≠ 0x86DD := by omega
  unfold markAt behind
  rw [l4sBe16_le16]
  simp only [le16_eq_iff (show 0x8864 < 65536 by decide),
    le16_eq_iff (show 0x0021 < 65536 by decide), le16_eq_iff (show 0x0057 < 65536 by decide)]
  by_cases hpppoe : m.be16 p = 0x8864
  · rw [if_pos hpppoe, if_neg (not_or.mpr (h8 hpppoe)), if_pos hpppoe]
    by_cases h4 : m.be16 (p + 8) = 0x0021
    · rw [if_pos h4, if_pos (.inl h4)]
      rfl
    · by_cases h6 : m.be16 (p + 8) = 0x0057
      · rw [if_neg h4, if_pos h6, if_pos (.inr h6)]
        rfl
      · rw [if_neg h4, if_neg h6, if_neg (not_or.mpr ⟨h4, h6⟩)]
        rfl
  · rw [if_neg hpppoe]
    by_cases h4 : m.be16 p = 0x0800
    · rw [if_pos h4, if_pos (.inl h4)]
      rfl
    · by_cases h6 : m.be16 p = 0x86DD
      · rw [if_neg h4, if_pos h6, if_pos (.inr h6)]
        rfl
      · rw [if_neg h4, if_neg h6, if_neg (not_or.mpr ⟨h4, h6⟩), if_neg hpppoe]
        simp

/-- One byte with the ECN bits set differs in them at most. -/
theorem ecn_put8 {v : IpVersion} {ip a : ℕ} (hip : IpAt m pkt v ip) (ha : a = ip + 1) :
    OnlyEcn m (m.put8 a ((m a).val ||| ecnBits v)) pkt := by
  intro b hb
  by_cases hab : b = a
  · have hpow : (m a).val ||| ecnBits v < 2 ^ 8 :=
      Nat.or_lt_two_pow (m a).isLt (by cases v <;> decide)
    have hlt : (m a).val ||| ecnBits v < 256 := hpow
    refine ⟨v, ip, hip, hab.trans ha, ?_⟩
    rw [hab, put8_self]
    show ((m a).val ||| ecnBits v) % 256 ||| ecnBits v = _
    rw [Nat.mod_eq_of_lt hlt, Nat.or_assoc, Nat.or_self]
  · rw [put8_of_ne m _ hab] at hb
    exact absurd rfl hb

theorem markAt_onlyEcn (htags : Tags m pkt n) (reads : List ℕ) :
    OnlyEcn m (markAt m (pkt + 12 + 4 * n) reads).mem pkt := by
  have hsame : OnlyEcn m m pkt := fun a ha => absurd rfl ha
  unfold markAt
  rw [l4sBe16_le16]
  simp only [le16_eq_iff (show 0x8864 < 65536 by decide),
    le16_eq_iff (show 0x0021 < 65536 by decide), le16_eq_iff (show 0x0057 < 65536 by decide)]
  by_cases hpppoe : m.be16 (pkt + 12 + 4 * n) = 0x8864
  · rw [if_pos hpppoe]
    by_cases h4 : m.be16 (pkt + 12 + 4 * n + 8) = 0x0021
    · rw [if_pos h4]
      exact ecn_put8 (.pppoe4 htags hpppoe h4) rfl
    · by_cases h6 : m.be16 (pkt + 12 + 4 * n + 8) = 0x0057
      · rw [if_neg h4, if_pos h6]
        exact ecn_put8 (.pppoe6 htags hpppoe h6) rfl
      · rw [if_neg h4, if_neg h6]
        exact hsame
  · rw [if_neg hpppoe]
    by_cases h4 : m.be16 (pkt + 12 + 4 * n) = 0x0800
    · rw [if_pos h4]
      exact ecn_put8 (.ipv4 htags h4) rfl
    · by_cases h6 : m.be16 (pkt + 12 + 4 * n) = 0x86DD
      · rw [if_neg h4, if_pos h6]
        exact ecn_put8 (.ipv6 htags h6) rfl
      · rw [if_neg h4, if_neg h6]
        exact hsame

/-- What a call that ends has done: it has walked over all tags. -/
theorem l4sEcnMark_iff (hpkt : pkt ≠ 0) {fuel : ℕ} {r : Marked} :
    l4sEcnMark m pkt fuel = some r ↔
      ∃ n < fuel, Tags m pkt n ∧
        r = markAt m (pkt + 12 + 4 * n) (tagReads (pkt + 12) n) := by
  unfold l4sEcnMark
  rw [if_neg hpkt, Option.map_eq_some_iff]
  constructor
  · rintro ⟨r', hr', rfl⟩
    obtain ⟨n, hn, rfl, htags⟩ := skipTags_iff.mp hr'
    exact ⟨n, hn, htags, rfl⟩
  · rintro ⟨n, hn, htags, rfl⟩
    exact ⟨_, skipTags_iff.mpr ⟨n, hn, rfl, htags⟩, rfl⟩

/-- The last byte that is touched decides. -/
theorem touched_inside_iff (m : Memory) (pkt len n : ℕ) :
    (∀ a ∈ (markAt m (pkt + 12 + 4 * n) (tagReads (pkt + 12) n)).touched,
      pkt ≤ a ∧ a < pkt + len) ↔
    12 + 4 * n + reach (m.be16 (pkt + 12 + 4 * n)) (m.be16 (pkt + 12 + 4 * n + 8)) ≤ len := by
  rw [markAt_touched]
  generalize m.be16 (pkt + 12 + 4 * n) = type
  generalize m.be16 (pkt + 12 + 4 * n + 8) = proto
  have hlast : pkt + 12 + 4 * n + 1 ∈ tagReads (pkt + 12) n := mem_tagReads.mpr ⟨n, le_rfl, .inr rfl⟩
  constructor
  · intro h
    have htype := h _ (List.mem_append_left _ hlast)
    have hbehind : ∀ b ∈ behind type proto, 12 + 4 * n + b < len := by
      intro b hb
      have := h _ (List.mem_append_right _ (List.mem_map_of_mem hb))
      omega
    unfold behind at hbehind
    unfold reach
    split_ifs at hbehind ⊢ <;>
      simp only [List.mem_cons, List.not_mem_nil, or_false, forall_eq_or_imp, forall_eq,
        false_imp_iff, implies_true] at hbehind <;> omega
  · intro h a ha
    have hall : ∀ b ∈ behind type proto, b < reach type proto := by
      intro b hb
      unfold behind at hb
      unfold reach
      split_ifs at hb ⊢ <;>
        simp only [List.mem_cons, List.not_mem_nil, or_false] at hb <;> omega
    have hreach : 2 ≤ reach type proto := by
      unfold reach
      split_ifs <;> decide
    rcases List.mem_append.mp ha with hread | hmore
    · obtain ⟨i, hi, rfl | rfl⟩ := mem_tagReads.mp hread <;> omega
    · obtain ⟨b, hb, rfl⟩ := List.mem_map.mp hmore
      have := hall b hb
      omega

/-- Marking ends, stays inside the frame and changes its ECN bits at most
    if the frame's tags and the header behind them fit into it, and only
    then. -/
theorem marksInside_iff (m : Memory) {pkt : ℕ} (hpkt : pkt ≠ 0) (len : ℕ) :
    MarksInside m pkt len ↔ TagsFit m pkt len := by
  constructor
  · rintro ⟨fuel, r, hr, hin, -⟩
    obtain ⟨n, -, htags, rfl⟩ := (l4sEcnMark_iff hpkt).mp hr
    exact ⟨n, htags, (touched_inside_iff m pkt len n).mp hin⟩
  · rintro ⟨n, htags, hfit⟩
    exact ⟨n + 1, _, (l4sEcnMark_iff hpkt).mpr ⟨n, by omega, htags, rfl⟩,
      (touched_inside_iff m pkt len n).mpr hfit, markAt_onlyEcn htags _⟩

/-- An IPv4 frame without tags of 34 bytes, at the place behind a descriptor. -/
def ipv4Frame : Memory := fun a => if a = 32 + 12 then 8 else 0

theorem marksInside_ipv4 : MarksInside ipv4Frame 32 34 ↔ TagsFit ipv4Frame 32 34 :=
  marksInside_iff ipv4Frame (by decide) 34

/-- A frame of 64 bytes that is all tags, and what follows it in memory. -/
def tagFrame : Memory := fun a =>
  if a < 32 + 64 ∧ (a - 32) % 4 = 0 ∧ 32 + 12 ≤ a then 0x81 else 0

/-- The walk over its tags reads the bytes behind it. -/
theorem marks_outside : ¬MarksInside tagFrame 32 64 := by
  rintro ⟨fuel, r, hr, hin, -⟩
  have hmark : ∀ fuel, l4sEcnMark tagFrame 32 (fuel + 14) = l4sEcnMark tagFrame 32 14 := by
    intro fuel
    rfl
  have hmore : 14 ≤ fuel := by
    by_contra hless
    have hnone : ∀ f < 14, (l4sEcnMark tagFrame 32 f).isSome = false := by decide
    have := hnone fuel (by omega)
    rw [hr] at this
    cases this
  obtain ⟨f, rfl⟩ := Nat.exists_eq_add_of_le' hmore
  rw [hmark f] at hr
  have hbyte : ∃ a, (l4sEcnMark tagFrame 32 14).map (fun r => decide (a ∈ r.touched)) = some true ∧
      ¬a < 32 + 64 := ⟨96, by decide, by decide⟩
  obtain ⟨a, ha, hout⟩ := hbyte
  rw [hr] at ha
  exact hout (hin a (of_decide_eq_true (Option.some.inj ha))).2

end mark

end ClankerNPU.L4s
