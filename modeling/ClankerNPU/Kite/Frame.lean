import ClankerNPU.Kite.Segments
import Mathlib.Algebra.BigOperators.Group.List.Basic
import Mathlib.Data.List.Nodup

/-! # The walk over one frame

    `kite_rx_frame` follows the rx ring from the read index to the last
    descriptor of a frame, and gives up at one the chip has not filled.
    It counts the descriptors of the frame but not those it has looked
    at, so a ring with neither kind keeps it going. -/

namespace ClankerNPU.Kite

/-! ## The walk -/

/-- Bit 31 of the length word: the chip has filled the descriptor. -/
def RxDesc.done (d : RxDesc) : Bool := d.w1.getLsbD 31

/-- What `kite_rx_frame` comes back with, and the descriptors it has
    looked at. -/
structure RxFrame where
  n : ℕ
  ridx : ℕ
  len : ℕ
  visited : List ℕ

/-- The loop of `kite_rx_frame`, for `fuel` descriptors at most; `idx` is
    the next one, `n` are counted. -/
def kiteRxWalk (ring : ℕ → RxDesc) (ridx : ℕ) : ℕ → ℕ → ℕ → ℕ → List ℕ → Option RxFrame
  | 0, _, _, _, _ => none
  | fuel + 1, idx, n, len, visited =>
    let n := n + 1
    let d := ring idx
    let visited := visited ++ [idx]
    if d.done = false then some ⟨0, ridx, len, visited⟩
    else
      let len := u32 (len + d.frag : ℕ)
      if d.last = true then some ⟨n, idx, len, visited⟩
      else kiteRxWalk ring ridx fuel (rxNext idx) n len visited

/-- `kite_rx_frame` -/
def kiteRxFrame (ring : ℕ → RxDesc) (ridx fuel : ℕ) : Option RxFrame :=
  kiteRxWalk ring ridx fuel ridx 0 0 []

/-! ## Frames -/

/-- The `i`th descriptor from the read index on -/
def rxAt (ridx i : ℕ) : ℕ := (ridx + i) % (kiteRxRingLast + 1)

/-- The length of the first `n` descriptors -/
def rxLen (ring : ℕ → RxDesc) (ridx n : ℕ) : ℕ :=
  (Circular.window (fun i => (ring i).frag) (kiteRxRingLast + 1) ridx n).sum

/-- The first `n` indices from the read index on -/
def rxSeen (ridx n : ℕ) : List ℕ := Circular.window id (kiteRxRingLast + 1) ridx n

/-- The `n` descriptors from the read index on are one frame: all filled,
    and only the last one marked as last. -/
structure WholeFrame (ring : ℕ → RxDesc) (ridx n : ℕ) : Prop where
  pos : 0 < n
  done : ∀ i < n, (ring (rxAt ridx i)).done = true
  last : ∀ i < n, ((ring (rxAt ridx i)).last = true ↔ i + 1 = n)

/-- The walk comes back after looking at no descriptor twice, with one
    frame, or with 0 where the read index begins none. -/
def FrameReturns (ring : ℕ → RxDesc) (ridx : ℕ) : Prop :=
  ∃ fuel r, kiteRxFrame ring ridx fuel = some r ∧ r.visited.Nodup ∧
    (∀ i ∈ r.visited, i ≤ kiteRxRingLast) ∧
    (r.n = 0 ∧ r.ridx = ridx ∧ (∀ n, ¬WholeFrame ring ridx n) ∨
      WholeFrame ring ridx r.n ∧ r.ridx = rxAt ridx (r.n - 1) ∧ r.len = rxLen ring ridx r.n)

variable {ring : ℕ → RxDesc} {ridx idx i n k fuel : ℕ}

theorem rxAt_le : rxAt ridx i ≤ kiteRxRingLast :=
  Nat.le_of_lt_succ (Nat.mod_lt _ (Nat.succ_pos _))

theorem rxNext_rxAt : rxNext (rxAt ridx i) = rxAt ridx (i + 1) := by
  rw [rxNext_eq rxAt_le, rxAt, rxAt, Circular.mod_add_mod_eq]

theorem rxAt_zero (h : ridx ≤ kiteRxRingLast) : rxAt ridx 0 = ridx :=
  Nat.mod_eq_of_lt (Nat.lt_succ_of_le h)

/-- Every descriptor is met on one turn of the ring. -/
theorem exists_rxAt (ridx : ℕ) (h : idx ≤ kiteRxRingLast) :
    ∃ i ≤ kiteRxRingLast, rxAt ridx i = idx := by
  refine ⟨(idx + (kiteRxRingLast + 1) - ridx % (kiteRxRingLast + 1)) % (kiteRxRingLast + 1),
    Nat.le_of_lt_succ (Nat.mod_lt _ (Nat.succ_pos _)), ?_⟩
  unfold rxAt kiteRxRingLast at *
  omega

/-- The descriptors looked at on one turn are different ones. -/
theorem nodup_rxSeen (h : n ≤ kiteRxRingLast + 1) : (rxSeen ridx n).Nodup := by
  refine List.Nodup.map_on (fun i hi j hj heq => ?_) List.nodup_range
  exact Circular.offset_injective ((List.mem_range.mp hi).trans_le h)
    ((List.mem_range.mp hj).trans_le h) heq

theorem rxLen_succ : rxLen ring ridx (n + 1) = rxLen ring ridx n + (ring (rxAt ridx n)).frag := by
  unfold rxLen
  rw [Circular.window_succ, List.sum_append, List.sum_singleton]
  rfl

theorem rxSeen_succ : rxSeen ridx (n + 1) = rxSeen ridx n ++ [rxAt ridx n] :=
  Circular.window_succ id (kiteRxRingLast + 1) ridx n

theorem rxSeen_le : ∀ i ∈ rxSeen ridx n, i ≤ kiteRxRingLast := by
  intro i hi
  obtain ⟨j, -, rfl⟩ := List.mem_map.mp hi
  exact rxAt_le

theorem RxDesc.frag_le (d : RxDesc) : d.frag ≤ 0x3FFF := by
  unfold frag
  rw [BitVec.toNat_and]
  exact Nat.and_le_right

theorem rxLen_le : rxLen ring ridx n ≤ n * 0x3FFF := by
  induction n with
  | zero => exact Nat.zero_le _
  | succ n ih =>
    have hfrag := (ring (rxAt ridx n)).frag_le
    rw [rxLen_succ]
    omega

/-- The sum of one turn's lengths fits its word. -/
theorem u32_rxLen (h : n ≤ kiteRxRingLast + 1) : u32 (rxLen ring ridx n : ℕ) = rxLen ring ridx n := by
  have hle : rxLen ring ridx n ≤ n * 0x3FFF := rxLen_le
  unfold kiteRxRingLast at h
  unfold u32
  omega

/-- The walk goes on from a descriptor that is filled and not the last. -/
def RxDesc.goesOn (d : RxDesc) : Prop := d.done = true ∧ d.last = false

instance (d : RxDesc) : Decidable d.goesOn := inferInstanceAs (Decidable (_ ∧ _))

/-- How the walk ends at the `k`th descriptor. -/
def endAt (ring : ℕ → RxDesc) (ridx k : ℕ) : RxFrame :=
  if (ring (rxAt ridx k)).done = false then ⟨0, ridx, rxLen ring ridx k, rxSeen ridx (k + 1)⟩
  else ⟨k + 1, rxAt ridx k, rxLen ring ridx (k + 1), rxSeen ridx (k + 1)⟩

/-- A filled descriptor that stops the walk is the last one of a frame. -/
theorem last_of_stops (hstop : ¬(ring (rxAt ridx k)).goesOn)
    (hdone : ¬(ring (rxAt ridx k)).done = false) : (ring (rxAt ridx k)).last = true := by
  by_contra hlast
  exact hstop ⟨eq_true_of_ne_false hdone, eq_false_of_ne_true hlast⟩

/-- From any descriptor before the one it stops at, the walk gets there:
    by induction on the steps left. -/
theorem kiteRxWalk_ends {fuel : ℕ} (hk : k ≤ kiteRxRingLast)
    (hgo : ∀ i < k, (ring (rxAt ridx i)).goesOn) (hstop : ¬(ring (rxAt ridx k)).goesOn)
    (d j : ℕ) (hd : j + d = k) (hfuel : d < fuel) :
    kiteRxWalk ring ridx fuel (rxAt ridx j) j (rxLen ring ridx j) (rxSeen ridx j)
      = some (endAt ring ridx k) := by
  induction d generalizing j fuel with
  | zero =>
    obtain rfl : j = k := hd
    obtain ⟨fuel, rfl⟩ := Nat.exists_eq_add_of_le' (Nat.one_le_of_lt hfuel)
    unfold kiteRxWalk endAt
    dsimp only
    rw [← rxSeen_succ, ← rxLen_succ, u32_rxLen (Nat.succ_le_succ hk)]
    by_cases hdone : (ring (rxAt ridx j)).done = false
    · rw [if_pos hdone, if_pos hdone]
    · rw [if_neg hdone, if_neg hdone, if_pos (last_of_stops hstop hdone)]
  | succ d ih =>
    obtain ⟨fuel, rfl⟩ := Nat.exists_eq_add_of_le' (Nat.one_le_of_lt hfuel)
    obtain ⟨hdone, hlast⟩ := hgo j (by omega)
    unfold kiteRxWalk
    dsimp only
    rw [if_neg (by rw [hdone]; decide), if_neg (by rw [hlast]; decide), ← rxSeen_succ, ← rxLen_succ,
      u32_rxLen (by omega), rxNext_rxAt]
    exact ih (j + 1) (by omega) (by omega)

/-- A ring of descriptors that are all filled and none of them the last
    keeps the walk going. -/
theorem kiteRxWalk_never (hgo : ∀ i ≤ kiteRxRingLast, (ring i).goesOn) (hidx : idx ≤ kiteRxRingLast)
    (n len : ℕ) (visited : List ℕ) : kiteRxWalk ring ridx fuel idx n len visited = none := by
  induction fuel generalizing idx n len visited with
  | zero => rfl
  | succ fuel ih =>
    obtain ⟨hdone, hlast⟩ := hgo idx hidx
    unfold kiteRxWalk
    dsimp only
    rw [if_neg (by rw [hdone]; decide), if_neg (by rw [hlast]; decide)]
    exact ih (rxNext_le hidx) _ _ _

/-- Where the walk ends at a descriptor that is not filled, the read index
    begins no frame. -/
theorem not_wholeFrame (hgo : ∀ i < k, (ring (rxAt ridx i)).goesOn)
    (hdone : (ring (rxAt ridx k)).done = false) : ¬WholeFrame ring ridx n := by
  intro h
  have hpos := h.pos
  rcases Nat.lt_or_ge k n with hlt | hle
  · exact absurd ((h.done k hlt).symm.trans hdone) (by decide)
  · -- the last one of the frame would have ended the walk before
    have hlast := (h.last (n - 1) (by omega)).mpr (by omega)
    exact absurd (hlast.symm.trans (hgo (n - 1) (by omega)).2) (by decide)

/-- Where it ends at the last one, the descriptors before it and this one
    are a frame. -/
theorem wholeFrame_of_ends (hgo : ∀ i < k, (ring (rxAt ridx i)).goesOn)
    (hdone : ¬(ring (rxAt ridx k)).done = false) (hlast : (ring (rxAt ridx k)).last = true) :
    WholeFrame ring ridx (k + 1) where
  pos := Nat.succ_pos k
  done i hi := by
    rcases Nat.lt_succ_iff_lt_or_eq.mp hi with hlt | rfl
    · exact (hgo i hlt).1
    · exact eq_true_of_ne_false hdone
  last i hi := by
    rcases Nat.lt_succ_iff_lt_or_eq.mp hi with hlt | rfl
    · refine iff_of_false (fun h => ?_) (by omega)
      exact absurd (h.symm.trans (hgo i hlt).2) (by decide)
    · exact iff_of_true hlast rfl

/-- The walk comes back exactly when some descriptor of the ring is not
    filled or is the last one of a frame. -/
theorem frameReturns_iff (hridx : ridx ≤ kiteRxRingLast) :
    FrameReturns ring ridx ↔
      ∃ i ≤ kiteRxRingLast, (ring i).done = false ∨ (ring i).last = true := by
  constructor
  · rintro ⟨fuel, r, hrun, -⟩
    by_contra hnone
    have hgo : ∀ i ≤ kiteRxRingLast, (ring i).goesOn := by
      intro i hi
      constructor
      · exact eq_true_of_ne_false fun h => hnone ⟨i, hi, .inl h⟩
      · exact eq_false_of_ne_true fun h => hnone ⟨i, hi, .inr h⟩
    rw [kiteRxFrame, kiteRxWalk_never hgo hridx] at hrun
    exact absurd hrun (by simp)
  · rintro ⟨idx, hidx, hstops⟩
    -- the first descriptor that stops the walk is met on the first turn
    obtain ⟨m, hm, rfl⟩ := exists_rxAt ridx hidx
    have hex : ∃ k, ¬(ring (rxAt ridx k)).goesOn := by
      refine ⟨m, fun hgo => ?_⟩
      rcases hstops with h | h
      · exact absurd (hgo.1.symm.trans h) (by decide)
      · exact absurd (h.symm.trans hgo.2) (by decide)
    obtain ⟨k, hstop, hgo⟩ : ∃ k, ¬(ring (rxAt ridx k)).goesOn ∧
        ∀ i < k, (ring (rxAt ridx i)).goesOn :=
      ⟨Nat.find hex, Nat.find_spec hex, fun i hi => not_not.mp (Nat.find_min hex hi)⟩
    have hk : k ≤ kiteRxRingLast := by
      by_contra hlt
      have hmk := hgo m (by omega)
      rcases hstops with h | h
      · exact absurd (hmk.1.symm.trans h) (by decide)
      · exact absurd (h.symm.trans hmk.2) (by decide)
    have hrun := kiteRxWalk_ends hk hgo hstop k 0 (Nat.zero_add k) (Nat.lt_succ_self k)
    rw [rxAt_zero hridx] at hrun
    refine ⟨k + 1, endAt ring ridx k, hrun, ?_⟩
    unfold endAt
    by_cases hdone : (ring (rxAt ridx k)).done = false
    · rw [if_pos hdone]
      exact ⟨nodup_rxSeen (Nat.succ_le_succ hk), rxSeen_le,
        .inl ⟨rfl, rfl, fun n => not_wholeFrame hgo hdone⟩⟩
    · rw [if_neg hdone]
      exact ⟨nodup_rxSeen (Nat.succ_le_succ hk), rxSeen_le,
        .inr ⟨wholeFrame_of_ends hgo hdone (last_of_stops hstop hdone), rfl, rfl⟩⟩

/-- Three filled descriptors, the third one the last of its frame -/
def ringOf3 : ℕ → RxDesc := fun i =>
  ⟨0, if i = 2 then 0xC0640000 else if i < 2 then 0x80640000 else 0⟩

theorem ringOf3_returns :
    FrameReturns ringOf3 0 ↔
      ∃ i ≤ kiteRxRingLast, (ringOf3 i).done = false ∨ (ringOf3 i).last = true :=
  frameReturns_iff (Nat.zero_le _)

/-- A ring that is all filled and has no last descriptor is walked without
    end. -/
theorem frame_without_end :
    ¬∀ (ring : ℕ → RxDesc) (ridx : ℕ), ridx ≤ kiteRxRingLast → FrameReturns ring ridx := by
  intro hall
  obtain ⟨fuel, r, hrun, -⟩ := hall (fun _ => ⟨0, 0x80640000⟩) 0 (Nat.zero_le _)
  rw [kiteRxFrame, kiteRxWalk_never (fun _ _ => ⟨by decide, by decide⟩) (Nat.zero_le _)] at hrun
  exact absurd hrun (by simp)

end ClankerNPU.Kite
