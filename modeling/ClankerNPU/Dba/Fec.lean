import ClankerNPU.Dba.Bwmap
import Mathlib.Algebra.Order.Group.Int
import Mathlib.Algebra.Group.Nat.Even
import Mathlib.Algebra.Order.BigOperators.Group.List
import Mathlib.Data.List.Nodup

/-! # Grants and parity

    With FEC the grants of an ONU are moved off the parity of the
    RS(255,239) code words. In terms of positions: each T-CONT ends where
    it would have, or two units behind the one before, or just past the
    parity; the last one takes what is left, and is trimmed. -/

namespace ClankerNPU.Dba

/-! ## Positions -/

/-- Bytes of a unit of a grant. -/
def unit (olt : Bool) : ℤ := if olt then 2 else 1

/-- Past the parity, or far enough ahead of it. -/
def push (x : ℤ) : ℤ :=
  if 238 < (x + 2) % 255 then x + (255 - (x + 2) % 255)
  else if 235 < (x + 2) % 255 then x + 19
  else x

/-- The last grant, from where it starts and what is left for it. -/
def lastGrant (olt : Bool) (start left : ℤ) : ℤ :=
  if olt then (alignOlt (u16 (2 * start)) (max left 18) true 0).bw
  else (alignOnu (u16 start) (max left 18) true 0).bw

/-- Grants before and after, the first starting at `b` where the grants
    before it were `p` in all. -/
inductive Aligns (olt : Bool) : ℤ → ℤ → List ℤ → List ℤ → Prop where
  | last (p b x : ℤ) : Aligns olt p b [x] [lastGrant olt b (p + x - b)]
  | next {p b x b' x' : ℤ} {xs ys : List ℤ} (fit : p + x ≤ b') (least : b + 2 ≤ b')
      (near : b' ≤ max (p + x) (b + 2) + 19) (off : (unit olt * b' + 2) % 255 ≤ 238)
      (rest : Aligns olt (p + x) b' (x' :: xs) ys) :
      Aligns olt p b (x :: x' :: xs) ((b' - b) :: ys)

/-! ## One T-CONT -/

theorem push_spec (x : ℤ) : x ≤ push x ∧ push x ≤ x + 19 ∧ (push x + 2) % 255 ≤ 238 := by
  unfold push
  split_ifs <;> omega

section Step

variable {b e : ℤ} {d : ℕ}

/-- A T-CONT from `b` to `e`, not in OLT mode. -/
theorem alignOnu_eq (hb : 0 ≤ b) (he : b + 2 ≤ e) (hmax : e < 2 ^ 16 - 20) (hd : d < 2 ^ 16 - 20) :
    alignOnu (u16 b) (e - b) false d = ⟨push e - b, push e - b, d + (push e - e).toNat⟩ := by
  have hpos : (u16 b : ℤ) = b := by
    unfold u16
    omega
  have hrem : (s32 ((u16 b : ℤ) + (e - b) + 2)).tmod 255 = (e + 2) % 255 := by
    have hs : s32 ((u16 b : ℤ) + (e - b) + 2) = e + 2 := by
      unfold s32
      omega
    rw [hs, Int.tmod_eq_emod_of_nonneg (by omega)]
  have hrem3 : (s32 ((u16 b : ℤ) + (e - b) + 3)).tmod 255 = (e + 3) % 255 := by
    have hs : s32 ((u16 b : ℤ) + (e - b) + 3) = e + 3 := by
      unfold s32
      omega
    rw [hs, Int.tmod_eq_emod_of_nonneg (by omega)]
  unfold alignOnu
  simp only [hrem, hrem3, Bool.false_eq_true, not_false_eq_true, if_true, if_false]
  unfold push
  -- on the parity: past the code word
  by_cases hpar : 238 < (e + 2) % 255
  · rw [if_pos hpar, if_pos hpar]
    congr 1
    · omega
    · omega
    · unfold u16
      omega
  rw [if_neg hpar, if_neg hpar]
  -- up to three bytes before it: past all of it
  by_cases hnear : 235 < (e + 2) % 255
  · rw [if_pos hnear, if_pos (by omega)]
    congr 1
    · omega
    · omega
    · unfold u16
      omega
  · rw [if_neg hnear, if_neg (by omega), Int.sub_self]
    rfl

/-- Where a T-CONT that would end at `e` ends in OLT mode. -/
structure OltEnd (b e : ℤ) (d : ℕ) (b' : ℤ) (r : Aligned) : Prop where
  fit : e ≤ b'
  near : b' ≤ e + 19
  off : (2 * b' + 2) % 255 ≤ 238
  bw : r.bw = b' - b
  len : r.len = 2 * (b' - b)
  delta : (r.delta : ℤ) = d + (b' - e)

theorem alignOlt_end (hb : 0 ≤ b) (he : b + 2 ≤ e) (hmax : e < 2 ^ 16 - 20) (hd : d < 2 ^ 16 - 20) :
    ∃ b', OltEnd b e d b' (alignOlt (u16 (2 * b)) (e - b) false d) := by
  have hlen : (u32 ((e - b) * 2) : ℤ) = 2 * (e - b) := by
    unfold u32
    omega
  obtain ⟨pos, hpos⟩ : ∃ pos : ℕ, u16 (2 * b) = pos := ⟨_, rfl⟩
  obtain ⟨len, hlen'⟩ : ∃ len : ℕ, u32 ((e - b) * 2) = len := ⟨_, rfl⟩
  rw [hlen'] at hlen
  have hp : (pos : ℤ) = 2 * b ∨ (pos : ℤ) = 2 * b - 65536 := by
    rw [← hpos]
    unfold u16
    omega
  have hposlt : pos < 2 ^ 16 := by
    rw [← hpos]
    unfold u16
    omega
  have hlenlt : len < 2 ^ 18 := by omega
  unfold alignOlt
  simp only [hlen', hpos]
  rw [show (pos + len + 2) % 2 ^ 32 = pos + len + 2 from Nat.mod_eq_of_lt (by omega),
    show (pos + len + 3) % 2 ^ 32 = pos + len + 3 from Nat.mod_eq_of_lt (by omega)]
  obtain ⟨rem, hrem⟩ : ∃ rem : ℕ, (pos + len + 2) % 255 = rem := ⟨_, rfl⟩
  have hrem3 : (pos + len + 3) % 255 = (rem + 1) % 255 := by omega
  have hremlt : rem < 255 := by omega
  -- a round of the 16-bit position moves the code words by one
  have hres : ∃ q : ℤ, 2 * e + 2 = 255 * q + rem ∨ 2 * e + 2 = 255 * q + rem + 1 := by
    rcases hp with hp | hp
    · exact ⟨(2 * e + 2) / 255, by omega⟩
    · exact ⟨(2 * e + 2 - 65536) / 255 + 257, by omega⟩
  obtain ⟨q, hq⟩ := hres
  have hgrown : u32 ((len : ℤ) - rem + 255) = len + 255 - rem := by
    unfold u32
    omega
  simp only [hrem, hrem3, hgrown, Bool.false_eq_true, not_false_eq_true, if_true,
    if_false]
  clear hp hrem hrem3
  have hmod32 : ∀ k < 2 ^ 32, k % 2 ^ 32 = k := fun _ hk => Nat.mod_eq_of_lt hk
  have hmod16 : ∀ k < 2 ^ 16, k % 2 ^ 16 = k := fun _ hk => Nat.mod_eq_of_lt hk
  have hoff {b' c : ℤ} (hlow : 255 * c ≤ 2 * b' + 2) (hhigh : 2 * b' + 2 ≤ 255 * c + 238) :
      (2 * b' + 2) % 255 ≤ 238 := by
    rw [← Int.sub_mul_emod_self_left (2 * b' + 2) 255 c, Int.emod_eq_of_lt (by omega) (by omega)]
    omega
  -- on the parity, and odd or even after the push
  by_cases hpar : rem > 238
  · rw [if_pos hpar]
    by_cases hodd : (len + 255 - rem) % 2 = 1
    · obtain ⟨k, hk⟩ : ∃ k, len + 255 - rem + 1 = 2 * k := ⟨_, (Nat.two_mul_div_two_of_even
        (Nat.even_iff.mpr (by omega))).symm⟩
      have hd' : (256 - rem) / 2 = k - len / 2 := by omega
      rw [if_pos hodd, hmod32 _ (by omega), hmod16 _ (by omega), hk, hd',
        Nat.mul_div_cancel_left _ (by decide)]
      refine ⟨b + k, by omega, by omega, hoff (c := q + 1) (by omega) (by omega), ?_, ?_, ?_⟩
      · dsimp only
        omega
      · dsimp only
        omega
      · dsimp only
        omega
    · obtain ⟨k, hk⟩ : ∃ k, len + 255 - rem = 2 * k := ⟨_, (Nat.two_mul_div_two_of_even
        (Nat.even_iff.mpr (by omega))).symm⟩
      have hd' : (255 - rem) / 2 = k - len / 2 := by omega
      rw [if_neg hodd, hmod16 _ (by omega), hk, hd', Nat.mul_div_cancel_left _ (by decide)]
      refine ⟨b + k, by omega, by omega, hoff (c := q + 1) (by omega) (by omega), ?_, ?_, ?_⟩
      · dsimp only
        omega
      · dsimp only
        omega
      · dsimp only
        omega
  rw [if_neg hpar, Nat.mod_eq_of_lt (show rem + 1 < 255 by omega)]
  by_cases hnear : rem + 1 > 236
  · rw [if_pos hnear, hmod32 _ (by omega), hmod16 _ (by omega)]
    refine ⟨e + 10, by omega, by omega, hoff (c := q + 1) (by omega) (by omega), ?_, ?_, ?_⟩
    · dsimp only
      omega
    · dsimp only
      omega
    · dsimp only
      omega
  · rw [if_neg hnear]
    exact ⟨e, le_rfl, by omega, hoff (c := q) (by omega) (by omega), rfl, hlen,
      by dsimp only; omega⟩

/-- The last grant in OLT mode is nine units at least. -/
theorem two_le_lastGrant_olt {x : ℤ} (hx : x < 2 ^ 16) : 2 ≤ lastGrant true b x := by
  obtain ⟨y, hy⟩ : ∃ y : ℤ, max x 18 = y := ⟨_, rfl⟩
  have hlow : 18 ≤ y ∧ y < 2 ^ 16 := by omega
  unfold lastGrant alignOlt
  rw [if_pos rfl, hy]
  obtain ⟨rem, hrem⟩ : ∃ rem : ℕ, (u16 (2 * b) + u32 (y * 2) + 2) % 2 ^ 32 % 255 = rem := ⟨_, rfl⟩
  simp only [hrem, not_true_eq_false, if_true, if_false]
  split_ifs with hpar hshort
  · exact le_trans (by decide) hlow.1
  · dsimp only
    have hlen : u32 (y * 2) = 2 * y := by
      unfold u32
      omega
    have hcut : (u32 ((u32 (y * 2) : ℤ) - rem) : ℤ) = 2 * y - rem := by
      rw [hlen]
      unfold u32
      omega
    generalize u32 ((u32 (y * 2) : ℤ) - rem) = cut at *
    unfold u32
    omega
  · exact le_trans (by decide) hlow.1

/-- The last grant otherwise: one that ends in the first bytes of a code
    word starts before its parity, or in the data before that. -/
theorem two_le_lastGrant_onu {x : ℤ} (hb : 0 ≤ b) (hbmax : b < 2 ^ 16) (hx : x < 2 ^ 16)
    (hoff : (b + 2) % 255 ≤ 238) : 2 ≤ lastGrant false b x := by
  obtain ⟨y, hy⟩ : ∃ y : ℤ, max x 18 = y := ⟨_, rfl⟩
  have hlow : 18 ≤ y ∧ y < 2 ^ 16 := by omega
  have hpos : (u16 b : ℤ) = b := by
    unfold u16
    omega
  have hs : s32 ((u16 b : ℤ) + y + 2) = b + y + 2 := by
    rw [hpos]
    unfold s32
    omega
  unfold lastGrant alignOnu
  rw [if_neg (by decide), hy]
  simp only [hs, Int.tmod_eq_emod_of_nonneg (show 0 ≤ b + y + 2 by omega), not_true_eq_false,
    if_true, if_false]
  obtain ⟨rem, hrem⟩ : ∃ rem, (b + y + 2) % 255 = rem := ⟨_, rfl⟩
  have hrem0 : 0 ≤ rem ∧ rem < 255 := by omega
  have hshort : u16 rem < 18 ↔ rem < 18 := by
    unfold u16
    omega
  rw [hrem]
  split_ifs with hpar hless
  · exact le_trans (by decide) hlow.1
  · -- 18 or 19 bytes that end there would start on the parity
    rw [hshort] at hless
    dsimp only
    omega
  · exact le_trans (by decide) hlow.1

end Step

/-! ## The whole list -/

section List

variable {olt : Bool} {g : Settings} {i : ℕ} {is : List ℕ} {acc : ℕ} {bw orig : ℕ → ℤ} {p b : ℤ}

/-- What raising a grant to 2 takes from the next. -/
def owed (cur : ℤ) : ℕ := if cur ≤ 1 then u16 (2 - cur) else 0

/-- What the pass makes of one grant. -/
def alignStep (olt : Bool) (acc : ℕ) (cur : ℤ) (last : Bool) : Aligned :=
  let b := if cur ≤ 1 then 2 else cur
  let b := if last ∧ b < 18 then 18 else b
  if olt then alignOlt acc b last (owed cur) else alignOnu acc b last (owed cur)

theorem fecAlign_last (g : Settings) (i acc : ℕ) (bw : ℕ → ℤ) :
    fecAlign g [i] acc bw =
      Function.update bw i (alignStep (g.oltMode ≠ 0) acc (bw i) true).bw := by
  unfold fecAlign fecAlign alignStep owed
  simp

theorem fecAlign_next (g : Settings) (i i' : ℕ) (is : List ℕ) (acc : ℕ) (bw : ℕ → ℤ) :
    fecAlign g (i :: i' :: is) acc bw =
      fecAlign g (i' :: is) (u16 (acc + (alignStep (g.oltMode ≠ 0) acc (bw i) false).len))
        (Function.update (Function.update bw i (alignStep (g.oltMode ≠ 0) acc (bw i) false).bw) i'
          (Function.update bw i (alignStep (g.oltMode ≠ 0) acc (bw i) false).bw i' -
            (alignStep (g.oltMode ≠ 0) acc (bw i) false).delta)) := by
  rw [fecAlign]
  unfold alignStep owed
  simp

/-- The pass leaves other T-CONTs alone. -/
theorem fecAlign_of_not_mem {j : ℕ} (is : List ℕ) (acc : ℕ) (bw : ℕ → ℤ) (h : j ∉ is) :
    fecAlign g is acc bw j = bw j := by
  induction is generalizing acc bw with
  | nil => rfl
  | cons i is ih =>
    have hji : j ≠ i := fun heq => h (heq ▸ List.mem_cons_self ..)
    cases is with
    | nil => rw [fecAlign_last, Function.update_of_ne hji]
    | cons i' is =>
      have hji' : j ≠ i' := fun heq => h (heq ▸ List.mem_cons_of_mem _ (List.mem_cons_self ..))
      rw [fecAlign_next, ih _ _ fun hmem => h (List.mem_cons_of_mem _ hmem),
        Function.update_of_ne hji', Function.update_of_ne hji]

/-- Where the T-CONT that starts at `b` ends. -/
structure StepEnd (olt : Bool) (p b x b' : ℤ) (r : Aligned) : Prop where
  fit : p + x ≤ b'
  least : b + 2 ≤ b'
  near : b' ≤ max (p + x) (b + 2) + 19
  off : (unit olt * b' + 2) % 255 ≤ 238
  bw : r.bw = b' - b
  len : r.len = unit olt * (b' - b)
  delta : (r.delta : ℤ) = b' - (p + x)

theorem alignStep_end {x : ℤ} (olt : Bool) (hb : 0 ≤ b) (hbmax : b < 2 ^ 16 - 30)
    (hx : p + x < 2 ^ 15) (hlow : b - (p + x) < 2 ^ 16 - 30) :
    ∃ b', StepEnd olt p b x b' (alignStep olt (u16 (unit olt * b)) (p + x - b) false) := by
  obtain ⟨e, he⟩ : ∃ e, max (p + x) (b + 2) = e := ⟨_, rfl⟩
  -- the grant is 2 at least; what that adds is owed
  have hgrant : (if p + x - b ≤ 1 then 2 else p + x - b) = e - b := by
    split_ifs <;> omega
  have howed : (owed (p + x - b) : ℤ) = e - (p + x) := by
    unfold owed u16
    split_ifs <;> omega
  have hd : owed (p + x - b) < 2 ^ 16 - 20 := by omega
  have hstep : alignStep olt (u16 (unit olt * b)) (p + x - b) false =
      if olt then alignOlt (u16 (unit olt * b)) (e - b) false (owed (p + x - b))
      else alignOnu (u16 (unit olt * b)) (e - b) false (owed (p + x - b)) := by
    unfold alignStep
    simp only [hgrant, Bool.false_eq_true, false_and, if_false]
  cases olt with
  | true =>
    obtain ⟨b', hend⟩ := alignOlt_end (d := owed (p + x - b)) hb (show b + 2 ≤ e by omega)
      (by omega) hd
    refine ⟨b', ?_⟩
    rw [hstep, if_pos rfl, show unit true * b = 2 * b from rfl]
    have hdelta := hend.delta
    have hfit := hend.fit
    have hnear := hend.near
    exact ⟨by omega, by omega, by omega, hend.off, hend.bw, hend.len, by omega⟩
  | false =>
    have heq := alignOnu_eq (d := owed (p + x - b)) hb (show b + 2 ≤ e by omega) (by omega) hd
    have hunit : unit false * b = b := Int.one_mul b
    obtain ⟨hge, hle, hoff⟩ := push_spec e
    refine ⟨push e, ?_⟩
    rw [hstep, if_neg (by decide), hunit, heq]
    refine ⟨by omega, by omega, by omega, ?_, rfl, ?_, ?_⟩
    · rw [show unit false * push e = push e from Int.one_mul _]
      exact hoff
    · exact (Int.one_mul _).symm
    · dsimp only
      omega

theorem alignOlt_bw_last (acc : ℕ) (y : ℤ) (d : ℕ) :
    (alignOlt acc y true d).bw = (alignOlt acc y true 0).bw := by
  unfold alignOlt
  simp only [not_true_eq_false, if_true, if_false]
  split_ifs <;> rfl

theorem alignOnu_bw_last (acc : ℕ) (y : ℤ) (d : ℕ) :
    (alignOnu acc y true d).bw = (alignOnu acc y true 0).bw := by
  unfold alignOnu
  simp only [not_true_eq_false, if_true, if_false]
  split_ifs <;> rfl

/-- The last grant is what is left, trimmed. -/
theorem alignStep_last {x : ℤ} (olt : Bool) (b : ℤ) :
    (alignStep olt (u16 (unit olt * b)) x true).bw = lastGrant olt b x := by
  have hgrant : (if (if x ≤ 1 then 2 else x) < 18 then 18 else (if x ≤ 1 then 2 else x)) =
      max x 18 := by
    split_ifs <;> omega
  unfold alignStep lastGrant
  simp only [true_and, hgrant]
  cases olt with
  | true => exact alignOlt_bw_last ..
  | false =>
    rw [if_neg (by decide), if_neg (by decide), show unit false * b = b from Int.one_mul b]
    exact alignOnu_bw_last ..

/-- The pass, as positions: the first T-CONT has paid for those before. -/
theorem fecAlign_aligns (g : Settings) (i : ℕ) (is : List ℕ) (acc : ℕ) (bw : ℕ → ℤ) (p b : ℤ)
    (orig : ℕ → ℤ) (hnd : (i :: is).Nodup) (hcur : bw i = p + orig i - b)
    (hrest : ∀ j ∈ is, bw j = orig j) (hacc : acc = u16 (unit (g.oltMode ≠ 0) * b))
    (hpos : ∀ j ∈ i :: is, 0 < orig j) (hsum : p + ((i :: is).map orig).sum < 2 ^ 15)
    (hp : 0 ≤ p) (hb : 0 ≤ b) (hlen : (i :: is).length ≤ 32)
    (hroom : b + 21 * ((i :: is).length : ℤ) ≤ 33500) :
    Aligns (g.oltMode ≠ 0) p b ((i :: is).map orig)
      ((i :: is).map (fecAlign g (i :: is) acc bw)) := by
  -- each T-CONT hands what it gained to the next, which starts that much later
  induction is generalizing i acc bw p b with
  | nil =>
    rw [fecAlign_last, hacc, hcur, alignStep_last, List.map_singleton, List.map_singleton,
      Function.update_self]
    exact .last p b (orig i)
  | cons i' is ih =>
    obtain ⟨hi, hnd'⟩ := List.nodup_cons.mp hnd
    have hi' : i' ∉ is := (List.nodup_cons.mp hnd').1
    have hne : i ≠ i' := fun heq => hi (heq ▸ List.mem_cons_self ..)
    have hx := hpos i (List.mem_cons_self ..)
    have htail : 0 ≤ ((i' :: is).map orig).sum := by
      refine List.sum_nonneg fun x hx => ?_
      obtain ⟨j, hj, rfl⟩ := List.mem_map.mp hx
      exact (hpos j (List.mem_cons_of_mem _ hj)).le
    rw [List.map_cons, List.sum_cons] at hsum
    rw [List.length_cons] at hroom hlen
    push_cast at hroom
    obtain ⟨b', hend⟩ := alignStep_end (p := p) (b := b) (x := orig i) (g.oltMode ≠ 0) hb
      (by omega) (by omega) (by omega)
    rw [← hacc, ← hcur] at hend
    have hfit := hend.fit
    have hleast := hend.least
    have hnear := hend.near
    rw [fecAlign_next]
    set r := alignStep (g.oltMode ≠ 0) acc (bw i) false with hr
    set next := Function.update (Function.update bw i r.bw) i'
      (Function.update bw i r.bw i' - r.delta) with hnext
    -- later steps do not come back to this T-CONT
    have hthis : fecAlign g (i' :: is) (u16 (acc + r.len)) next i = b' - b := by
      rw [fecAlign_of_not_mem _ _ _ hi, hnext, Function.update_of_ne hne, Function.update_self]
      exact hend.bw
    -- the 16-bit position is that of the end, also past a wrap
    have hacc' : u16 (acc + r.len) = u16 (unit (g.oltMode ≠ 0) * b') := by
      rw [hend.len, hacc]
      unfold u16
      cases decide (g.oltMode ≠ 0) with
      | true =>
        rw [show unit true = 2 from rfl]
        omega
      | false =>
        rw [show unit false = 1 from rfl]
        omega
    rw [List.map_cons, List.map_cons (f := fecAlign _ _ _ _), hthis]
    refine .next hfit hleast hnear hend.off ?_
    refine ih i' _ next (p + orig i) b' hnd' ?_ ?_ hacc'
      (fun j hj => hpos j (List.mem_cons_of_mem _ hj)) (by omega) (by omega) (by omega)
      (by omega) ?_
    · have hdelta := hend.delta
      rw [hnext, Function.update_self, Function.update_of_ne hne.symm,
        hrest i' (List.mem_cons_self ..)]
      omega
    · intro j hj
      have hji : j ≠ i := fun heq => hi (heq ▸ List.mem_cons_of_mem _ hj)
      have hji' : j ≠ i' := fun heq => hi' (heq ▸ hj)
      rw [hnext, Function.update_of_ne hji', Function.update_of_ne hji]
      exact hrest j (List.mem_cons_of_mem _ hj)
    · omega

/-! ## What is asked -/

/-- Boundaries are off the parity, no grant is below 2, and what a T-CONT
    gained is missing from those behind it: in all only the trim of the
    last one changes the sum. -/
structure FecAligned (olt : Bool) (before after : List ℤ) : Prop where
  boundary : ∀ k, k + 1 < after.length → (unit olt * (after.take (k + 1)).sum + 2) % 255 ≤ 238
  least : ∀ y ∈ after, 2 ≤ y
  gained : ∀ k, k + 1 < after.length → (before.take (k + 1)).sum ≤ (after.take (k + 1)).sum
  total : after.sum = after.dropLast.sum +
    lastGrant olt after.dropLast.sum (before.sum - after.dropLast.sum)

/-- What positions say of the grants before the last. -/
theorem Aligns.early {before after : List ℤ} (h : Aligns olt p b before after) :
    (∀ k, k + 1 < after.length → (unit olt * (b + (after.take (k + 1)).sum) + 2) % 255 ≤ 238) ∧
      (∀ y ∈ after.dropLast, 2 ≤ y) ∧
      (∀ k, k + 1 < after.length →
        p + (before.take (k + 1)).sum ≤ b + (after.take (k + 1)).sum) ∧
      after.sum = after.dropLast.sum + lastGrant olt (b + after.dropLast.sum)
        (p + before.sum - (b + after.dropLast.sum)) := by
  induction h with
  | last p b x =>
    refine ⟨fun k hk => absurd hk (by simp), nofun, fun k hk => absurd hk (by simp), ?_⟩
    simp
  | @next p b x b' x' xs ys fit least near off rest ih =>
    -- the sums of the rest are those behind the first, shifted by it
    obtain ⟨hoff, hleast, hgain, htotal⟩ := ih
    have hys : ys ≠ [] := by cases rest <;> simp
    have hshift (l : List ℤ) : b + (b' - b + l.sum) = b' + l.sum := by omega
    refine ⟨fun k hk => ?_, ?_, fun k hk => ?_, ?_⟩
    · rw [List.take_succ_cons, List.sum_cons, hshift]
      cases k with
      | zero => simpa using off
      | succ k => exact hoff k (by simpa using hk)
    · rw [List.dropLast_cons_of_ne_nil hys]
      intro y hy
      rcases List.mem_cons.mp hy with rfl | hy
      · omega
      · exact hleast y hy
    · rw [List.take_succ_cons, List.take_succ_cons, List.sum_cons, List.sum_cons, hshift,
        ← add_assoc]
      cases k with
      | zero => simpa using fit
      | succ k => exact hgain k (by simpa using hk)
    · have hbefore : p + (x :: x' :: xs).sum = p + x + (x' :: xs).sum := by
        rw [List.sum_cons, add_assoc]
      rw [List.dropLast_cons_of_ne_nil hys, List.sum_cons, List.sum_cons, hshift, hbefore, htotal,
        add_assoc (b' - b)]

/-- No grant is below 2. -/
theorem Aligns.least {before after : List ℤ} (h : Aligns olt p b before after)
    (hp : 0 ≤ p) (hb : 0 ≤ b) (hoff : (unit olt * b + 2) % 255 ≤ 238) (hpos : ∀ x ∈ before, 0 < x)
    (hsum : p + before.sum < 2 ^ 15) (hlen : before.length ≤ 32)
    (hroom : b + 21 * (before.length : ℤ) ≤ 33500) : ∀ y ∈ after, 2 ≤ y := by
  induction h with
  | last p b x =>
    rw [List.forall_mem_singleton]
    rw [List.sum_singleton] at hsum
    rw [List.length_singleton] at hroom
    cases olt with
    | true => exact two_le_lastGrant_olt (by omega)
    | false =>
      rw [show unit false * b = b from Int.one_mul b] at hoff
      exact two_le_lastGrant_onu hb (by omega) (by omega) hoff
  | @next p b x b' x' xs ys fit least near off rest ih =>
    have hx := hpos x (List.mem_cons_self ..)
    have htail : 0 ≤ (x' :: xs).sum :=
      List.sum_nonneg fun y hy => (hpos y (List.mem_cons_of_mem _ hy)).le
    rw [List.sum_cons] at hsum
    rw [List.length_cons] at hlen hroom
    push_cast at hroom
    refine List.forall_mem_cons.mpr ⟨by omega, ?_⟩
    exact ih (by omega) (by omega) off (fun y hy => hpos y (List.mem_cons_of_mem _ hy))
      (by omega) (by omega) (by omega)

/-! ## The lists of the code -/

theorem sortIn_perm (bw : ℕ → ℤ) (list : List ℕ) (idx : ℕ) :
    (sortIn bw list idx).Perm (idx :: list) := by
  unfold sortIn
  split_ifs
  · exact List.perm_append_singleton ..
  · have hsink := (List.reverse_perm _).trans ((sink_perm bw idx (list.drop 1).reverse).trans
      ((List.reverse_perm _).cons idx))
    refine (hsink.append_left _).trans (List.perm_middle.trans ?_)
    rw [List.take_append_drop]

/-- The index of a T-CONT within the table. -/
theorem tcontIdx_eq {mode onu t : ℕ} (honu : onu < (dbaMap mode).nOnu) :
    tcontIdx (dbaMap mode) onu t = t * (dbaMap mode).nOnu + onu := by
  have hpow : (dbaMap mode).nOnu = 2 ^ (dbaMap mode).idxShift := by
    unfold dbaMap
    split_ifs <;> rfl
  unfold tcontIdx
  rw [hpow] at honu ⊢
  rw [← Nat.shiftLeft_add_eq_or_of_lt honu, Nat.shiftLeft_eq]

/-- The T-CONTs `dba_bwmap_switch` aligns are different and at most 16. -/
theorem fecList_nodup (mode : ℕ) (cfg : Table) (bw : ℕ → ℤ) {onu : ℕ}
    (honu : onu < (dbaMap mode).nOnu) :
    (fecList (dbaMap mode) cfg bw onu).Nodup ∧ (fecList (dbaMap mode) cfg bw onu).length ≤ 16 := by
  have hmax : (dbaMap mode).nTc ≤ 16 := by
    unfold dbaMap
    split_ifs <;> decide
  -- the T-CONTs so far
  have hfold (n : ℕ) : ∀ list, (List.range n).foldl (fun list j =>
      if ¬(cfg (tcontIdx (dbaMap mode) onu j)).valid ∨ bw (tcontIdx (dbaMap mode) onu j) = 0
      then list
      else sortIn bw list (tcontIdx (dbaMap mode) onu j)) [] = list →
      list.Nodup ∧ list.length ≤ n ∧ ∀ i ∈ list, ∃ j < n, i = tcontIdx (dbaMap mode) onu j := by
    induction n with
    | zero =>
      rintro _ rfl
      exact ⟨.nil, le_rfl, nofun⟩
    | succ n ih =>
      rintro _ rfl
      rw [List.range_succ, List.foldl_append]
      obtain ⟨hnd, hlen, hmem⟩ := ih _ rfl
      generalize List.foldl _ [] (List.range n) = list at *
      rw [List.foldl_cons, List.foldl_nil]
      split_ifs
      · refine ⟨hnd, by omega, fun i hi => ?_⟩
        obtain ⟨j, hj, rfl⟩ := hmem i hi
        exact ⟨j, by omega, rfl⟩
      · have hperm := sortIn_perm bw list (tcontIdx (dbaMap mode) onu n)
        refine ⟨hperm.nodup_iff.mpr (List.nodup_cons.mpr ⟨fun hin => ?_, hnd⟩), ?_, fun i hi => ?_⟩
        · obtain ⟨j, hj, heq⟩ := hmem _ hin
          rw [tcontIdx_eq honu, tcontIdx_eq honu] at heq
          have hpos : 0 < (dbaMap mode).nOnu := by omega
          have := Nat.eq_of_mul_eq_mul_right hpos (Nat.add_right_cancel heq)
          omega
        · rw [hperm.length_eq, List.length_cons]
          omega
        · rcases List.mem_cons.mp (hperm.mem_iff.mp hi) with rfl | hi
          · exact ⟨n, by omega, rfl⟩
          · obtain ⟨j, hj, rfl⟩ := hmem i hi
            exact ⟨j, by omega, rfl⟩
  obtain ⟨hnd, hlen, -⟩ := hfold _ _ rfl
  exact ⟨hnd, hlen.trans hmax⟩

/-- The FEC pass over any list of different T-CONTs. -/
theorem fecAlign_ok (g : Settings) (list : List ℕ) (bw : ℕ → ℤ) (hne : list ≠ [])
    (hnd : list.Nodup) (hlen : list.length ≤ 32) (hpos : ∀ i ∈ list, 0 < bw i)
    (hsum : 2 * (list.map bw).sum < 2 ^ 16) :
    FecAligned (g.oltMode ≠ 0) (list.map bw) (list.map (fecAlign g list 0 bw)) := by
  obtain ⟨i, is, rfl⟩ := List.exists_cons_of_ne_nil hne
  have haligns := fecAlign_aligns g i is 0 bw 0 0 bw hnd (by omega) (fun _ _ => rfl)
    (by rw [mul_zero]; rfl) hpos (by omega) le_rfl le_rfl hlen (by omega)
  have hpos' : ∀ x ∈ (i :: is).map bw, 0 < x := by
    intro x hx
    obtain ⟨j, hj, rfl⟩ := List.mem_map.mp hx
    exact hpos j hj
  have hleast := haligns.least le_rfl le_rfl (by rw [mul_zero]; decide) hpos' (by omega)
    (by rw [List.length_map]; exact hlen) (by rw [List.length_map]; omega)
  obtain ⟨hoff, _, hgain, htotal⟩ := haligns.early
  simp only [zero_add] at hoff hgain htotal
  exact ⟨hoff, hleast, hgain, htotal⟩

end List

/-- Three T-CONTs, the last of which pays for both others, in both modes. -/
theorem fecAlign_ok_three :
    FecAligned false [235, 237, 20]
        ([1, 2, 3].map (fecAlign ⟨0, 0, 0⟩ [1, 2, 3] 0 fun i => [0, 235, 237, 20].getD i 0)) ∧
      FecAligned true [119, 119, 20]
        ([1, 2, 3].map (fecAlign ⟨0, 1, 0⟩ [1, 2, 3] 0 fun i => [0, 119, 119, 20].getD i 0)) :=
  ⟨fecAlign_ok ⟨0, 0, 0⟩ [1, 2, 3] (fun i => [0, 235, 237, 20].getD i 0) (by decide) (by decide)
      (by decide) (by decide) (by decide),
    fecAlign_ok ⟨0, 1, 0⟩ [1, 2, 3] (fun i => [0, 119, 119, 20].getD i 0) (by decide) (by decide)
      (by decide) (by decide) (by decide)⟩

end ClankerNPU.Dba
