import ClankerNPU.EagleRx.Refill

/-! # The refill order

    Between sweeps and in them, the slots the chip has handed back are
    the ones from the cursor on, so a sweep always arms the oldest one.
    A ring filled anew is armed from slot 0 on; the cursor has to be
    there too, and `eagle_rx_ring_init` does not put it there. -/

open Circular

namespace ClankerNPU.EagleRx.Refill

/-! ## One band -/

/-- The slot the sweep looks at next, now or when it next begins. -/
def Band.cursor (b : Band) : ℕ :=
  match b.pc with
  | .idle => b.ridx
  | _ => b.idx

/-- What a sweep knows where it stands. -/
def Band.PcOk (b : Band) : Prop :=
  match b.pc with
  | .idle => True
  | .test _ => True
  | .refill _ => b.handed ≠ []
  | .put _ _ => b.handed ≠ []
  | .scan _ want j =>
    want ≤ b.handed.length ∧ j = (b.idx + want) % b.size ∧ b.sweepSize = b.size
  | .take _ want => want ≤ b.handed.length ∧ b.sweepSize = b.size
  | .fill _ _ _ ids => ids.length ≤ b.handed.length ∧ b.sweepSize = b.size

/-- The band's ring is in order from its cursor on. -/
structure BandInv (base : BitVec 32) (b : Band) : Prop where
  fresh : b.size = 0 → b.pc = .idle ∧ b.ridx = 0 ∧ b.initDone = false ∧ b.handed = []
  sound : 0 < b.size → Sound base b.toRxRing b.cursor
  pcOk : b.PcOk
  posted : ∀ i, b.posted = some i → ∃ m < b.size, i = (b.chip + m) % b.size ∧
    ∀ j ≤ m, (b.desc ((b.chip + j) % b.size)).armed = true

/-- The band with its share of the ids. -/
def Band.ApartFrom (b : Band) (free : List (BitVec 16)) : Prop :=
  Apart b.toRxRing (· < b.size) b.pc.hands free

/-- A step of band `b` over the ids `free` ends well: the ids the band
    owns then it owned before or took out of the pool. -/
structure Goes (base : BitVec 32) (b : Band) (free : List (BitVec 16))
    (r : Band × List (BitVec 16)) : Prop where
  inv : BandInv base r.1
  apart : r.1.ApartFrom r.2
  sublist : r.2.Sublist free
  owns : ∀ id, r.1.Owns id → b.Owns id ∨ id ∈ free

variable {base : BitVec 32} {b : Band} {id : BitVec 16} {free : List (BitVec 16)} {pc : SweepPc}

theorem Band.cursor_of_ne (h : b.pc ≠ .idle) : b.cursor = b.idx := by
  unfold Band.cursor
  split
  · next heq => exact absurd heq h
  · rfl

theorem BandInv.size_pos (h : BandInv base b) (hne : b.pc ≠ .idle) : 0 < b.size := by
  by_contra hz
  exact hne (h.fresh (by omega)).1

theorem BandInv.size_ne (h : BandInv base b) (hne : b.pc ≠ .idle) : b.size ≠ 0 :=
  (h.size_pos hne).ne'

theorem BandInv.running (h : BandInv base b) (hne : b.pc ≠ .idle) :
    Sound base b.toRxRing b.idx := by
  have hsound := h.sound (h.size_pos hne)
  rwa [Band.cursor_of_ne hne] at hsound

/-- The oldest slot handed back is the one at the sweep's cursor. -/
theorem BandInv.handed_cons (h : BandInv base b) (hne : b.pc ≠ .idle) (hq : b.handed ≠ []) :
    ∃ q, b.handed = b.idx :: q := by
  obtain ⟨hhead, -⟩ := (h.running hne).head hq
  cases hc : b.handed with
  | nil => exact absurd hc hq
  | cons e q =>
    rw [hc, List.head?_cons] at hhead
    exact ⟨q, by rw [Option.some.inj hhead]⟩

/-- The published index is of the last step only. -/
theorem BandInv.quiet (h : BandInv base b) : BandInv base { b with posted := none } where
  fresh := h.fresh
  sound := h.sound
  pcOk := h.pcOk
  posted := fun _ hi => by cases hi

/-- The sweep goes on without touching ring or ids. -/
theorem goes_pc (h : BandInv base b) (ha : b.ApartFrom free) (hne : b.pc ≠ .idle)
    (hpc : pc ≠ .idle) (hhands : pc.hands = b.pc.hands) (hok : ({ b with pc := pc } : Band).PcOk) :
    Goes base b free ({ b with pc := pc }, free) := by
  have hcur : ({ b with pc := pc } : Band).cursor = b.idx := Band.cursor_of_ne hpc
  refine ⟨⟨?_, ?_, hok, h.posted⟩, ?_, List.Sublist.refl _, ?_⟩
  · intro hz
    exact absurd hz (h.size_ne hne)
  · intro _
    rw [hcur]
    exact h.running hne
  · show Apart b.toRxRing _ pc.hands free
    rw [hhands]
    exact ha
  · intro id hown
    rcases hown with hslot | hhand
    · exact .inl (.inl hslot)
    · refine .inl (.inr ?_)
      rw [← hhands]
      exact hhand

/-- The sweep ends; `x` is its last count. -/
theorem goes_leave (h : BandInv base b) (ha : b.ApartFrom free) (hne : b.pc ≠ .idle)
    (hhands : b.pc.hands = []) (x : BitVec 32) :
    Goes base b free ({ b with refilled := x }.leave, free) := by
  refine ⟨⟨?_, ?_, trivial, h.posted⟩, ?_, List.Sublist.refl _, ?_⟩
  · intro hz
    exact absurd hz (h.size_ne hne)
  · intro _
    exact h.running hne
  · show Apart b.toRxRing _ [] free
    rw [← hhands]
    exact ha
  · intro id hown
    rcases hown with hslot | hhand
    · exact .inl (.inl hslot)
    · cases hhand

/-- The sweep takes ids out of the pool. -/
theorem goes_take (h : BandInv base b) (ha : b.ApartFrom free) (hne : b.pc ≠ .idle)
    (hhands : b.pc.hands = []) (k : ℕ) (hpc : pc ≠ .idle) (hnew : pc.hands = free.take k)
    (hok : ({ b with pc := pc } : Band).PcOk) :
    Goes base b free ({ b with pc := pc }, free.drop k) := by
  have hcur : ({ b with pc := pc } : Band).cursor = b.idx := Band.cursor_of_ne hpc
  refine ⟨⟨?_, ?_, hok, h.posted⟩, ?_, List.drop_sublist _ _, ?_⟩
  · intro hz
    exact absurd hz (h.size_ne hne)
  · intro _
    rw [hcur]
    exact h.running hne
  · show Apart b.toRxRing _ pc.hands (free.drop k)
    unfold Band.ApartFrom at ha
    rw [hhands] at ha
    rw [hnew]
    exact ha.take k
  · intro id hown
    rcases hown with hslot | hhand
    · exact .inl (.inl hslot)
    · right
      have hmem : id ∈ pc.hands := hhand
      rw [hnew] at hmem
      exact List.mem_of_mem_take hmem

theorem publish_cases (b : Band) (i : ℕ) :
    (b.publish i).sweepSize = b.sweepSize ∧
      ((b.publish i).posted = some i ∨ (b.publish i).posted = b.posted) := by
  unfold Band.publish
  split
  · exact ⟨rfl, .inl rfl⟩
  · exact ⟨rfl, .inr rfl⟩

/-- The sweep arms the slot at its cursor with the first id in hand. -/
theorem goes_arm {rest : List (BitVec 16)} (h : BandInv base b) (ha : b.ApartFrom free)
    (hpost : b.posted = none) (hne : b.pc ≠ .idle) (hhands : b.pc.hands = id :: rest)
    (hq : b.handed ≠ []) (hpc : pc ≠ .idle) (hrest : pc.hands = rest) (x : BitVec 32)
    (hok : ({ (b.armNext base b.size id) with refilled := x, pc := pc } : Band).PcOk) :
    Goes base b free ({ (b.armNext base b.size id) with refilled := x, pc := pc }, free) := by
  set b' : Band := { (b.armNext base b.size id) with refilled := x, pc := pc } with hb'
  have hsound := h.running hne
  obtain ⟨q, hhanded⟩ := h.handed_cons hne hq
  have hcur : b'.cursor = slotAfter b.size b.idx := Band.cursor_of_ne hpc
  refine ⟨⟨?_, ?_, hok, ?_⟩, ?_, List.Sublist.refl _, ?_⟩
  · intro hz
    exact absurd hz (h.size_ne hne)
  · intro _
    rw [hcur]
    exact hsound.arm hhanded _
  · intro i hi
    have hpub : (b.publish b.idx).posted = some i := hi
    -- what is published is the slot just armed, or what was before
    rcases (publish_cases b b.idx).2 with hsome | hnone
    · rw [hsome] at hpub
      obtain rfl := Option.some.inj hpub
      exact hsound.ready hhanded _
    · rw [hnone, hpost] at hpub
      cases hpub
  · show Apart (b.toRxRing.arm base b.idx id _) _ pc.hands free
    unfold Band.ApartFrom at ha
    rw [hhands] at ha
    rw [hrest]
    exact ha.arm (fun j hj _ => hj) _
  · intro a hown
    left
    rcases hown with ⟨i, hi, harm, hid⟩ | hhand
    · by_cases hic : i = b.idx
      · -- the slot's new id was in hand
        subst hic
        have hself : (b.toRxRing.arm base b.idx id (b.desc b.idx).word3).bufid b.idx = a := hid
        rw [arm_bufid_self] at hself
        subst hself
        right
        rw [hhands]
        exact List.mem_cons_self
      · -- another slot is as it was
        have hdesc : b'.desc i = b.desc i := arm_desc_of_ne hic _
        have hbuf : b'.bufid i = b.bufid i := arm_bufid_of_ne hic _
        rw [hdesc] at harm
        rw [hbuf] at hid
        exact .inl ⟨i, hi, harm, hid⟩
    · right
      have hmem : a ∈ pc.hands := hhand
      rw [hrest] at hmem
      rw [hhands]
      exact List.mem_cons_of_mem _ hmem

/-- The counting batch sweep finds one more slot. -/
theorem scan_count {want j : ℕ} (h : BandInv base b) (hne : b.pc ≠ .idle)
    (hj : j = (b.idx + want) % b.size)
    (hlt : want < b.size) (hfree : (b.desc j).armed = false) :
    want + 1 ≤ b.handed.length ∧ slotAfter b.size j = (b.idx + (want + 1)) % b.size := by
  have hpos := h.size_pos hne
  subst hj
  refine ⟨(h.running hne).lt_of_not_armed hlt hfree, ?_⟩
  rw [slotAfter_eq (Nat.mod_lt _ hpos), Nat.mod_add_mod, Nat.add_assoc]

/-- Every step of a sweep ends well. -/
theorem goes_sweep (h : BandInv base b) (ha : b.ApartFrom free) (hpost : b.posted = none)
    (hscan : ∀ budget want j, b.pc = .scan budget want j → want < 32 → want < budget →
      want < b.size) :
    Goes base b free (b.sweep base free) := by
  have hok := h.pcOk
  unfold Band.PcOk at hok
  unfold Band.sweep
  -- one case for each place in the sweep
  cases hpc : b.pc with
  | idle =>
    exact ⟨h, ha, List.Sublist.refl _, fun _ hown => .inl hown⟩
  | test budget =>
    have hne : b.pc ≠ .idle := by rw [hpc]; intro hc; cases hc
    have hhands : b.pc.hands = [] := by rw [hpc]; rfl
    simp only
    by_cases hstop : budget = 0 ∨ (b.desc b.idx).armed = true
    · rw [if_pos hstop]
      exact goes_leave h ha hne hhands b.refilled
    · rw [if_neg hstop]
      obtain ⟨-, hfree⟩ := not_or.mp hstop
      have hlt : b.idx < b.size := (h.running hne).ring.ridx_lt
      -- an unarmed slot at the cursor is one the chip has handed back
      have hlen : 0 < b.handed.length := by
        apply (h.running hne).lt_of_not_armed (by omega)
        rw [Nat.add_zero, Nat.mod_eq_of_lt hlt]
        simpa using hfree
      apply goes_pc h ha hne (by intro hc; cases hc)
      · rw [hhands]
        rfl
      · exact List.ne_nil_of_length_pos hlen
  | refill budget =>
    have hne : b.pc ≠ .idle := by rw [hpc]; intro hc; cases hc
    have hhands : b.pc.hands = [] := by rw [hpc]; rfl
    rw [hpc] at hok
    cases free with
    | nil => exact goes_leave h ha hne hhands b.refilled
    | cons id rest =>
      exact goes_take h ha hne hhands 1 (by intro hc; cases hc) rfl hok
  | put budget id =>
    have hne : b.pc ≠ .idle := by rw [hpc]; intro hc; cases hc
    have hhands : b.pc.hands = [id] := by rw [hpc]; rfl
    rw [hpc] at hok
    exact goes_arm h ha hpost hne hhands hok (by intro hc; cases hc) rfl _ trivial
  | scan budget want j =>
    have hne : b.pc ≠ .idle := by rw [hpc]; intro hc; cases hc
    have hhands : b.pc.hands = [] := by rw [hpc]; rfl
    rw [hpc] at hok
    obtain ⟨hlen, hj, hsize⟩ := hok
    simp only
    by_cases hmore : want < 32 ∧ want < budget ∧ (b.desc j).armed = false
    · rw [if_pos hmore]
      have hlt := hscan budget want j hpc hmore.1 hmore.2.1
      -- one more slot counted, the scan one slot on
      obtain ⟨hlen', hj'⟩ := scan_count h hne hj hlt hmore.2.2
      apply goes_pc h ha hne (by intro hc; cases hc)
      · rw [hhands]
        rfl
      · refine ⟨hlen', ?_, hsize⟩
        show slotAfter b.sweepSize j = _
        rw [hsize]
        exact hj'
    · rw [if_neg hmore]
      by_cases hz : want = 0
      · rw [if_pos hz]
        exact goes_leave h ha hne hhands b.refilled
      · rw [if_neg hz]
        apply goes_pc h ha hne (by intro hc; cases hc)
        · rw [hhands]
          rfl
        · exact ⟨hlen, hsize⟩
  | take budget want =>
    have hne : b.pc ≠ .idle := by rw [hpc]; intro hc; cases hc
    have hhands : b.pc.hands = [] := by rw [hpc]; rfl
    rw [hpc] at hok
    apply goes_take h ha hne hhands want (by intro hc; cases hc) rfl
    refine ⟨?_, hok.2⟩
    rw [List.length_take]
    -- no more ids are taken than slots were counted
    have := hok.1
    show min want free.length ≤ b.handed.length
    omega
  | fill budget want got ids =>
    have hne : b.pc ≠ .idle := by rw [hpc]; intro hc; cases hc
    rw [hpc] at hok
    obtain ⟨hlen, hsize⟩ := hok
    cases ids with
    | nil =>
      have hhands : b.pc.hands = [] := by rw [hpc]; rfl
      simp only
      by_cases hlast : got < want ∨ budget - got = 0
      · rw [if_pos hlast]
        exact goes_leave h ha hne hhands _
      · rw [if_neg hlast]
        -- the batch is done and the scan starts again at the cursor
        have hnext : Goes base b free ({ b with pc := .scan (budget - got) 0 b.idx }, free) := by
          apply goes_pc h ha hne (by intro hc; cases hc)
          · rw [hhands]
            rfl
          · refine ⟨Nat.zero_le _, ?_, hsize⟩
            have hlt : b.idx < b.size := (h.running hne).ring.ridx_lt
            show b.idx = (b.idx + 0) % b.size
            rw [Nat.add_zero, Nat.mod_eq_of_lt hlt]
        exact ⟨⟨hnext.inv.fresh, hnext.inv.sound, hnext.inv.pcOk, hnext.inv.posted⟩, hnext.apart,
          hnext.sublist, hnext.owns⟩
    | cons id ids =>
      have hhands : b.pc.hands = id :: ids := by rw [hpc]; rfl
      rw [List.length_cons] at hlen
      have hq : b.handed ≠ [] := List.ne_nil_of_length_pos (by omega)
      simp only
      rw [hsize]
      apply goes_arm h ha hpost hne hhands hq (by intro hc; cases hc) rfl
      -- one id and one slot less
      obtain ⟨q, hhanded⟩ := h.handed_cons hne hq
      refine ⟨?_, ?_⟩
      · show ids.length ≤ (b.toRxRing.arm base b.idx id _).handed.length
        rw [(h.running hne).handed_arm hhanded]
        rw [hhanded, List.length_cons] at hlen
        omega
      · show (b.publish b.idx).sweepSize = b.size
        rw [(publish_cases b b.idx).1, hsize]

/-! ## A ring filled anew -/

theorem ringSize_pos (n : ℕ) : 0 < ringSize n := by
  unfold ringSize u32 eagleRxRingMaxIdx
  split <;> omega

/-- The first `i` of `n` slots are filled; of the slots behind them the
    ones kept are as they were. -/
structure Filled (base : BitVec 32) (old r : RxRing) (own : BitVec 16 → Prop) (kept : Prop)
    (n i : ℕ) (free : List (BitVec 16)) : Prop where
  armed : ∀ j < i, (r.desc j).armed = true
  behind : ∀ j, i ≤ j → r.desc j = old.desc j
  handed : ∀ j ∈ r.handed, i ≤ j ∧ j < n ∧ (r.desc j).armed = false
  address : ∀ j, j < n ∧ (j < i ∨ kept) → (r.desc j).armed = true →
    (r.desc j).addr = eagleBufPhys base (r.bufid j)
  apart : Apart r (fun j => j < n ∧ (j < i ∨ kept)) [] free
  owned : ∀ j, j < n ∧ (j < i ∨ kept) → (r.desc j).armed = true → own (r.bufid j)
  mine : ∀ id ∈ free, own id

/-- One more slot. -/
theorem Filled.arm {old r : RxRing} {own : BitVec 16 → Prop} {kept : Prop} {n i : ℕ}
    {rest : List (BitVec 16)} (h : Filled base old r own kept n i (id :: rest)) :
    Filled base old (r.arm base i id 0) own kept n (i + 1) rest := by
  have hlive : ∀ j, j < n ∧ (j < i + 1 ∨ kept) → j ≠ i → j < n ∧ (j < i ∨ kept) := by
    rintro j ⟨hj, hlow | hkept⟩ hne
    · exact ⟨hj, .inl (by omega)⟩
    · exact ⟨hj, .inr hkept⟩
  refine ⟨?_, ?_, ?_, ?_, ?_, ?_, ?_⟩
  · intro j hj
    by_cases hji : j = i
    · subst hji
      exact armed_arm_self 0
    · rw [arm_desc_of_ne hji]
      exact h.armed j (by omega)
  · intro j hj
    rw [arm_desc_of_ne (by omega)]
    exact h.behind j (by omega)
  · intro j hj
    -- a slot that was handed back and is armed now is so no more
    obtain ⟨hold, hne⟩ := List.mem_filter.mp hj
    have hji : j ≠ i := by simpa using hne
    obtain ⟨hle, hlt, hfree⟩ := h.handed j hold
    rw [arm_desc_of_ne hji]
    exact ⟨by omega, hlt, hfree⟩
  · intro j hj harm
    by_cases hji : j = i
    · subst hji
      rw [arm_desc_self, arm_bufid_self]
    · rw [arm_desc_of_ne hji] at harm ⊢
      rw [arm_bufid_of_ne hji]
      exact h.address j (hlive j hj hji) harm
  · have htake := h.apart.take 1
    rw [List.take_succ_cons, List.take_zero, List.drop_succ_cons, List.drop_zero] at htake
    exact htake.arm hlive 0
  · intro j hj harm
    by_cases hji : j = i
    · subst hji
      rw [arm_bufid_self]
      exact h.mine id List.mem_cons_self
    · rw [arm_desc_of_ne hji] at harm
      rw [arm_bufid_of_ne hji]
      exact h.owned j (hlive j hj hji) harm
  · intro a ha
    exact h.mine a (List.mem_cons_of_mem _ ha)

/-- What the filling loop does: it changes the band's slots and its count,
    and stops where the slots or the ids end. -/
theorem initLoop_filled {old : RxRing} {own : BitVec 16 → Prop} {kept : Prop} {size : ℕ} (n i : ℕ)
    (b : Band) (free : List (BitVec 16))
    (h : Filled base old b.toRxRing own kept size i free) :
    ∃ r x code, initLoop base n i b free =
        (({ b with toRxRing := r, refilled := x }, free.drop n), code) ∧
      r.size = b.size ∧ r.chip = b.chip ∧
      Filled base old r own kept size (i + min n free.length) (free.drop n) := by
  induction n generalizing i b free with
  | zero => exact ⟨b.toRxRing, b.refilled, 0, rfl, rfl, rfl, by simpa using h⟩
  | succ n ih =>
    cases free with
    | nil => exact ⟨b.toRxRing, b.refilled, 1, rfl, rfl, rfl, by simpa using h⟩
    | cons id rest =>
      obtain ⟨r, x, code, heq, hsize, hchip, hfilled⟩ :=
        ih (i + 1) { b with toRxRing := b.toRxRing.arm base i id 0, refilled := b.refilled + 1 }
          rest h.arm
      have hcount : i + min (n + 1) (id :: rest).length = i + 1 + min n rest.length := by
        rw [List.length_cons]
        omega
      refine ⟨r, x, code, heq, hsize, hchip, ?_⟩
      rw [hcount]
      exact hfilled

/-- A mail that finds the cursor at slot 0 leaves it there. -/
theorem Band.AtStart.cursor {size : ℕ} (h : b.AtStart size) :
    b.cursor = 0 ∧ b.pc.hands = [] := by
  unfold Band.AtStart at h
  unfold Band.cursor
  cases hpc : b.pc with
  | idle => rw [hpc] at h; exact ⟨h, rfl⟩
  | test _ => rw [hpc] at h; exact ⟨h, rfl⟩
  | scan _ _ _ => rw [hpc] at h; exact ⟨h.1, rfl⟩
  | refill _ => rw [hpc] at h; exact h.elim
  | put _ _ => rw [hpc] at h; exact h.elim
  | take _ _ => rw [hpc] at h; exact h.elim
  | fill _ _ _ _ => rw [hpc] at h; exact h.elim

/-- A filled ring is in order from slot 0. -/
theorem sound_filled {old r : RxRing} {own : BitVec 16 → Prop} {kept : Prop} {n i : ℕ}
    (h : Filled base old r own kept n i free) (hsize : r.size = n) (hpos : 0 < n)
    (hchip : r.chip = 0) (hall : ∀ j < n, (r.desc j).armed = true)
    (hlive : ∀ j < n, j < i ∨ kept) : r.handed = [] ∧ Sound base r 0 := by
  have hnone : r.handed = [] := by
    apply List.eq_nil_iff_forall_not_mem.mpr
    intro j hj
    obtain ⟨-, hlt, hfree⟩ := h.handed j hj
    rw [hall j hlt] at hfree
    cases hfree
  refine ⟨hnone, ⟨?_, ?_⟩⟩
  · rw [hnone, hsize]
    refine ⟨hpos, Nat.zero_le _, ?_, ?_⟩
    · show r.chip = (0 + 0) % n
      rw [hchip, Nat.zero_mod]
    · intro j hj
      exact view_slot_none.mpr (hall _ (Nat.mod_lt _ hpos))
  · intro j hj harm
    rw [hsize] at hj
    exact h.address j ⟨hj, hlive j hj⟩ harm

/-- A SET_DESC mail that finds the cursor at slot 0 and enough ids ends
    well. -/
theorem goes_ringInit {n : ℕ} (h : BandInv base b) (ha : b.ApartFrom free)
    (hpost : b.posted = none) (hstart : b.AtStart (ringSize n))
    (hids : ringSize n ≤ free.length ∨ ringSize n ≤ b.size ∧
      ∀ i < ringSize n, free.length ≤ i → (b.desc i).armed = true) :
    Goes base b free (b.ringInit base n free) := by
  obtain ⟨hcursor, hhands⟩ := hstart.cursor
  have hpos := ringSize_pos n
  unfold Band.ApartFrom at ha
  rw [hhands] at ha
  set size := ringSize n with hsizedef
  set b0 : Band := { b with size := size, chip := 0, handed := b.handed.filter (· < size) } with hb0
  -- the slots behind the last id stay as they are
  have hfirst : Filled base b.toRxRing b0.toRxRing (fun id => b.Owns id ∨ id ∈ free)
      (size ≤ b.size) size 0 free := by
    have hlive : ∀ j, j < size ∧ (j < 0 ∨ size ≤ b.size) → j < b.size := by
      rintro j ⟨hj, hz | hle⟩ <;> omega
    refine ⟨fun j hj => absurd hj (Nat.not_lt_zero j), fun j _ => rfl, ?_, ?_, ?_, ?_, ?_⟩
    · intro j hj
      obtain ⟨hold, hlt⟩ := List.mem_filter.mp hj
      have hjlt : j < size := by simpa using hlt
      refine ⟨Nat.zero_le j, hjlt, ?_⟩
      have hbpos : 0 < b.size := by
        by_contra hz
        rw [(h.fresh (by omega)).2.2.2] at hold
        cases hold
      obtain ⟨k, hk, hget⟩ := List.getElem_of_mem hold
      have hsound := h.sound hbpos
      have hle : b.handed.length ≤ b.size := hsound.ring.length_le
      have hslot := hsound.ring.slot_eq k (by show k < b.size; omega)
      rw [List.getElem?_eq_getElem hk, hget] at hslot
      obtain ⟨hfree, hplace⟩ := view_slot_some hslot
      rw [← hplace] at hfree
      exact hfree
    · intro j hj harm
      have hlt := hlive j hj
      exact (h.sound (by omega)).address j hlt harm
    · exact ⟨fun i j hi hj => ha.distinct i j (hlive i hi) (hlive j hj), ha.nodup,
        fun i hi => ha.unused i (hlive i hi)⟩
    · intro j hj harm
      exact .inl (.inl ⟨j, hlive j hj, harm, rfl⟩)
    · intro id hid
      exact .inr hid
  obtain ⟨r, x, code, heq, hsize, hchip, hfilled⟩ := initLoop_filled size 0 b0 free hfirst
  rw [Nat.zero_add] at hfilled
  have hall : ∀ j < size, (r.desc j).armed = true := by
    intro j hj
    by_cases hlow : j < min size free.length
    · exact hfilled.armed j hlow
    · rcases hids with henough | ⟨-, hkept⟩
      · omega
      · rw [hfilled.behind j (by omega)]
        exact hkept j hj (by omega)
  have hlive : ∀ j < size, j < min size free.length ∨ size ≤ b.size := by
    intro j hj
    rcases hids with henough | ⟨hle, -⟩
    · exact .inl (by omega)
    · exact .inr hle
  have hrsize : r.size = size := hsize
  obtain ⟨hnone, hsound⟩ := sound_filled hfilled hrsize hpos hchip hall hlive
  -- whether or not the ids lasted, only the flags of the mail differ
  have hgoes : ∀ (cpu : ℕ) (init : Bool),
      Goes base b free ({ b with toRxRing := r, refilled := x, cpuIdx := cpu, initDone := init },
        free.drop size) := by
    intro cpu init
    refine ⟨⟨?_, ?_, ?_, ?_⟩, ?_, List.drop_sublist _ _, ?_⟩
    · intro hz
      have hrz : r.size = 0 := hz
      omega
    · intro _
      have hcur : Band.cursor
          { b with toRxRing := r, refilled := x, cpuIdx := cpu, initDone := init } = 0 := hcursor
      rw [hcur]
      exact hsound
    · unfold Band.PcOk
      unfold Band.AtStart at hstart
      show match b.pc with
        | .idle => True
        | .test _ => True
        | .refill _ => r.handed ≠ []
        | .put _ _ => r.handed ≠ []
        | .scan _ want j =>
          want ≤ r.handed.length ∧ j = (b.idx + want) % r.size ∧ b.sweepSize = r.size
        | .take _ want => want ≤ r.handed.length ∧ b.sweepSize = r.size
        | .fill _ _ _ ids => ids.length ≤ r.handed.length ∧ b.sweepSize = r.size
      cases hpc : b.pc with
      | idle => trivial
      | test _ => trivial
      | scan _ want j =>
        rw [hpc] at hstart
        obtain ⟨hidx, hwant, hj, hsw⟩ := hstart
        refine ⟨by omega, ?_, by rw [hsw, hrsize]⟩
        rw [hidx, hwant, hj, Nat.zero_mod]
      | refill _ => rw [hpc] at hstart; exact hstart.elim
      | put _ _ => rw [hpc] at hstart; exact hstart.elim
      | take _ _ => rw [hpc] at hstart; exact hstart.elim
      | fill _ _ _ _ => rw [hpc] at hstart; exact hstart.elim
    · intro i hi
      have hsome : b.posted = some i := hi
      rw [hpost] at hsome
      cases hsome
    · show Apart r (· < r.size) b.pc.hands (free.drop size)
      rw [hhands, hrsize]
      exact ⟨fun i j hi hj => hfilled.apart.distinct i j ⟨hi, hlive i hi⟩ ⟨hj, hlive j hj⟩,
        hfilled.apart.nodup, fun i hi => hfilled.apart.unused i ⟨hi, hlive i hi⟩⟩
    · intro id hown
      rcases hown with ⟨i, hi, harm, hid⟩ | hhand
      · have hlt : i < size := by
          have : i < r.size := hi
          omega
        rw [← hid]
        exact hfilled.owned i ⟨hlt, hlive i hlt⟩ harm
      · exact .inl (.inr hhand)
  unfold Band.ringInit
  simp only
  rw [← hsizedef, ← hb0, heq]
  cases code with
  | zero => exact hgoes 0 true
  | succ _ => exact hgoes b.cpuIdx b.initDone

/-! ## Both bands -/

/-- Both rings are in order, and no id is in two places. -/
structure RefillInv (base : BitVec 32) (s : RefillState) : Prop where
  band : ∀ k, BandInv base (s.band k)
  apart : ∀ k, (s.band k).ApartFrom s.free
  cross : ∀ k k' id, k ≠ k' → (s.band k).Owns id → ¬(s.band k').Owns id

variable {s s' : RefillState}

theorem put_band_self (k : Bool) (r : Band × List (BitVec 16)) : (s.put k r).band k = r.1 :=
  Function.update_self _ _ _

theorem put_band_of_ne {k k' : Bool} (h : k' ≠ k) (r : Band × List (BitVec 16)) :
    (s.put k r).band k' = s.band k' :=
  Function.update_of_ne h _ _

/-- An owned id is not a free one. -/
theorem Band.ApartFrom.not_mem (h : b.ApartFrom free) (hown : b.Owns id) : id ∉ free := by
  intro hfree
  rcases hown with ⟨i, hi, harm, hid⟩ | hhand
  · apply h.unused i hi harm
    rw [hid]
    exact List.mem_append_right _ hfree
  · exact List.disjoint_of_nodup_append h.nodup hhand hfree

/-- One band's step keeps both in order. -/
theorem RefillInv.put {k : Bool} {r : Band × List (BitVec 16)} (h : RefillInv base s)
    (hg : Goes base (s.band k) s.free r) : RefillInv base (s.put k r) := by
  have hfresh : ∀ k' id, k' ≠ k → r.1.Owns id → ¬(s.band k').Owns id := by
    intro k' id hne hown hother
    rcases hg.owns id hown with hold | hfree
    · exact h.cross k k' id (fun heq => hne heq.symm) hold hother
    · exact (h.apart k').not_mem hother hfree
  refine ⟨?_, ?_, ?_⟩
  · intro k'
    by_cases hk : k' = k
    · rw [hk, put_band_self]
      exact hg.inv
    · rw [put_band_of_ne hk]
      exact h.band k'
  · intro k'
    by_cases hk : k' = k
    · rw [hk, put_band_self]
      exact hg.apart
    · rw [put_band_of_ne hk]
      exact (h.apart k').sublist hg.sublist
  · intro i j id hij hi hj
    by_cases hik : i = k
    · have hjk : j ≠ k := fun heq => hij (hik.trans heq.symm)
      rw [hik, put_band_self] at hi
      rw [put_band_of_ne hjk] at hj
      exact hfresh j id hjk hi hj
    · rw [put_band_of_ne hik] at hi
      by_cases hjk : j = k
      · rw [hjk, put_band_self] at hj
        exact hfresh i id hik hj hi
      · rw [put_band_of_ne hjk] at hj
        exact h.cross i j id hij hi hj

/-- The chip's step. -/
theorem goes_handBack {d : Desc} (h : BandInv base b) (ha : b.ApartFrom free)
    (hchip : b.chip < b.size) (harmed : (b.desc b.chip).armed = true) (hd : d.armed = false) :
    Goes base b free ({ b with toRxRing := b.handBack d, posted := none }, free) := by
  have hpos : 0 < b.size := by omega
  refine ⟨⟨?_, ?_, ?_, ?_⟩, ha.handBack hd, List.Sublist.refl _, ?_⟩
  · intro hz
    have hsize : b.size = 0 := hz
    omega
  · intro _
    exact (h.sound hpos).handBack hchip harmed hd
  · -- more slots are handed back than a sweep counts on
    have hok := h.pcOk
    unfold Band.PcOk at hok ⊢
    have hlen : (b.handBack d).handed.length = b.handed.length + 1 := List.length_append
    have hne : (b.handBack d).handed ≠ [] := by
      apply List.ne_nil_of_length_pos
      omega
    cases hpc : b.pc with
    | idle => trivial
    | test _ => trivial
    | refill _ => exact hne
    | put _ _ => exact hne
    | scan _ _ _ =>
      rw [hpc] at hok
      exact ⟨by show _ ≤ (b.handBack d).handed.length; have := hok.1; omega, hok.2⟩
    | take _ _ =>
      rw [hpc] at hok
      exact ⟨by show _ ≤ (b.handBack d).handed.length; have := hok.1; omega, hok.2⟩
    | fill _ _ _ _ =>
      rw [hpc] at hok
      exact ⟨by show _ ≤ (b.handBack d).handed.length; have := hok.1; omega, hok.2⟩
  · intro i hi
    cases hi
  · intro id hown
    rcases hown with ⟨i, hi, harm, hid⟩ | hhand
    · exact .inl (.inl ⟨i, hi, (armed_of_handBack hd harm).2, hid⟩)
    · exact .inl (.inr hhand)

/-- A sweep begins at the cursor. -/
theorem goes_start (h : BandInv base b) (ha : b.ApartFrom free) (hidle : b.pc = .idle)
    (hinit : b.initDone = true) (batch : Bool) :
    Goes base b free ({ b with posted := none }.start batch, free) := by
  have hpos : 0 < b.size := by
    by_contra hz
    rw [(h.fresh (by omega)).2.2.1] at hinit
    cases hinit
  have hsound : Sound base b.toRxRing b.ridx := by
    have hcur : b.cursor = b.ridx := by unfold Band.cursor; rw [hidle]
    have := h.sound hpos
    rwa [hcur] at this
  have hhands : b.pc.hands = [] := by rw [hidle]; rfl
  have hnew : (({ b with posted := none } : Band).start batch).pc.hands = [] := by
    cases batch <;> rfl
  have hcur : (({ b with posted := none } : Band).start batch).cursor = b.ridx := by
    cases batch <;> rfl
  refine ⟨⟨?_, ?_, ?_, ?_⟩, ?_, List.Sublist.refl _, ?_⟩
  · intro hz
    have hsize : b.size = 0 := hz
    omega
  · intro _
    rw [hcur]
    exact hsound
  · cases batch with
    | false => trivial
    | true =>
      -- the batch sweep counts from the cursor
      have hlt : b.ridx < b.size := hsound.ring.ridx_lt
      refine ⟨Nat.zero_le _, ?_, rfl⟩
      show b.ridx = (b.ridx + 0) % b.size
      rw [Nat.add_zero, Nat.mod_eq_of_lt hlt]
  · intro i hi
    cases hi
  · show Apart b.toRxRing _ _ free
    rw [hnew, ← hhands]
    exact ha
  · intro id hown
    rcases hown with hslot | hhand
    · exact .inl (.inl hslot)
    · rw [hnew] at hhand
      cases hhand

theorem refillInv_init (h : (refillSystem base).init s) : RefillInv base s := by
  obtain ⟨hnodup, hband⟩ := h
  refine ⟨?_, ?_, ?_⟩
  · intro k
    obtain ⟨hsize, hridx, -, hinit, hpc, -, hhanded, hposted⟩ := hband k
    refine ⟨fun _ => ⟨hpc, hridx, hinit, hhanded⟩, ?_, ?_, ?_⟩
    · intro hpos
      omega
    · unfold Band.PcOk
      rw [hpc]
      trivial
    · intro i hi
      rw [hposted] at hi
      cases hi
  · intro k
    obtain ⟨hsize, -, -, -, hpc, -⟩ := hband k
    unfold Band.ApartFrom
    rw [hpc]
    refine ⟨?_, hnodup, ?_⟩
    · intro i _ hi
      exact absurd hi (by omega)
    · intro i hi
      exact absurd hi (by omega)
  · intro k _ id _ hown
    obtain ⟨hsize, -, -, -, hpc, -⟩ := hband k
    rcases hown with ⟨i, hi, -⟩ | hhand
    · omega
    · rw [hpc] at hhand
      cases hhand

/-- What one step preserves. -/
theorem refillInv_step {a : RefillAction} (h : RefillInv base s) (hguard : refillGuard s a)
    (hstep : (refillSystem base).step s a s') : RefillInv base s' := by
  cases a with
  | chip k d =>
    obtain ⟨hchip, harmed, hd, rfl⟩ := hstep
    exact h.put (goes_handBack (h.band k) (h.apart k) hchip harmed hd)
  | start k batch =>
    obtain ⟨hidle, hinit, rfl⟩ := hstep
    exact h.put (goes_start (h.band k) (h.apart k) hidle hinit batch)
  | sweep k =>
    obtain rfl := hstep
    have hg := goes_sweep (b := { s.band k with posted := none }) (h.band k).quiet (h.apart k) rfl
      hguard
    exact h.put ⟨hg.inv, hg.apart, hg.sublist, hg.owns⟩
  | setDesc k n =>
    obtain rfl := hstep
    obtain ⟨hstart, hids⟩ := hguard
    have hg := goes_ringInit (b := { s.band k with posted := none }) (h.band k).quiet (h.apart k)
      rfl hstart hids
    exact h.put ⟨hg.inv, hg.apart, hg.sublist, hg.owns⟩
  | give id =>
    obtain ⟨hfree, hown, rfl⟩ := hstep
    refine ⟨h.band, ?_, h.cross⟩
    intro k
    apply (h.apart k).give hfree
    · intro hhand
      exact hown k (.inr hhand)
    · intro i hi harm hid
      exact hown k (.inl ⟨i, hi, harm, hid⟩)
  | taken =>
    obtain rfl := hstep
    exact ⟨h.band, fun k => (h.apart k).sublist (List.tail_sublist _), h.cross⟩

theorem refillInv_of_reachable (h : ((refillSystem base).guarded refillGuard).Reachable s) :
    RefillInv base s :=
  StepSystem.Reachable.invariant (T := (refillSystem base).guarded refillGuard)
    (fun _ => refillInv_init) (fun _ _ _ hinv hs => refillInv_step hinv hs.1 hs.2) h

/-- In every run in which a SET_DESC mail finds the cursor at slot 0 and
    enough ids, and no batch sweep goes round a ring twice, the refill is
    in order. -/
theorem refill_order (base : BitVec 32) {s : RefillState}
    (h : ((refillSystem base).guarded refillGuard).Reachable s) : RefillOrder base s := by
  have hinv := refillInv_of_reachable h
  refine ⟨?_, ?_, ?_, fun k => (hinv.band k).posted⟩
  · intro k i harming
    have hband := hinv.band k
    have hok := hband.pcOk
    unfold Band.arming at harming
    unfold Band.PcOk at hok
    -- a slot is being armed in two places only
    cases hpc : (s.band k).pc with
    | put budget id =>
      rw [hpc] at harming hok
      obtain rfl := Option.some.inj harming
      exact (hband.running (by rw [hpc]; intro hc; cases hc)).head hok |>.1
    | fill budget want got ids =>
      rw [hpc] at harming hok
      cases ids with
      | nil => cases harming
      | cons id rest =>
        obtain rfl := Option.some.inj harming
        have hlen := hok.1
        rw [List.length_cons] at hlen
        have hne : (s.band k).handed ≠ [] := List.ne_nil_of_length_pos (by omega)
        exact (hband.running (by rw [hpc]; intro hc; cases hc)).head hne |>.1
    | idle => rw [hpc] at harming; cases harming
    | test _ => rw [hpc] at harming; cases harming
    | refill _ => rw [hpc] at harming; cases harming
    | scan _ _ _ => rw [hpc] at harming; cases harming
    | take _ _ => rw [hpc] at harming; cases harming
  · intro k i hi harm
    exact ((hinv.band k).sound (by omega)).address i hi harm
  · intro k k' i hi i' hi' harm harm' heq
    -- within a ring the ids are distinct, across rings they have one owner
    by_cases hk : k = k'
    · subst hk
      exact ⟨rfl, (hinv.apart k).distinct i i' hi hi' harm harm' heq⟩
    · exact absurd (.inl ⟨i', hi', harm', heq.symm⟩)
        (hinv.cross k k' _ hk (.inl ⟨i, hi, harm, rfl⟩))

/-! ## A cursor left behind -/

/-- The steps the chip, the sweeps and the mails decide by themselves. -/
def refillNext (base : BitVec 32) (s : RefillState) : RefillAction → Option RefillState
  | .chip k d =>
    let b := s.band k
    if b.chip < b.size ∧ (b.desc b.chip).armed = true ∧ d.armed = false then
      some (s.put k ({ b with toRxRing := b.handBack d, posted := none }, s.free))
    else none
  | .start k batch =>
    let b := s.band k
    if b.pc = .idle ∧ b.initDone = true then
      some (s.put k ({ b with posted := none }.start batch, s.free))
    else none
  | .sweep k => some (s.put k ({ s.band k with posted := none }.sweep base s.free))
  | .setDesc k n => some (s.put k ({ s.band k with posted := none }.ringInit base n s.free))
  | _ => none

theorem refillNext_step {a : RefillAction} (h : refillNext base s a = some s') :
    (refillSystem base).step s a s' := by
  cases a with
  | chip k d =>
    unfold refillNext at h
    simp only at h
    split at h
    · next hc => exact ⟨hc.1, hc.2.1, hc.2.2, (Option.some.inj h).symm⟩
    · cases h
  | start k batch =>
    unfold refillNext at h
    simp only at h
    split at h
    · next hc => exact ⟨hc.1, hc.2, (Option.some.inj h).symm⟩
    · cases h
  | sweep k => exact (Option.some.inj h).symm
  | setDesc k n => exact (Option.some.inj h).symm
  | give id => cases h
  | taken => cases h

/-- The guard, for single sweeps and mails between them. -/
def refillCheck (s : RefillState) : RefillAction → Bool
  | .setDesc k n =>
    (s.band k).pc = .idle ∧ (s.band k).ridx = 0 ∧ ringSize n ≤ s.free.length
  | .sweep k =>
    match (s.band k).pc with
    | .scan _ _ _ => false
    | _ => true
  | _ => true

theorem refillGuard_of_check {a : RefillAction} (h : refillCheck s a = true) : refillGuard s a := by
  cases a with
  | setDesc k n =>
    obtain ⟨hpc, hridx, hids⟩ := of_decide_eq_true h
    refine ⟨?_, .inl hids⟩
    unfold Band.AtStart
    rw [hpc]
    exact hridx
  | sweep k =>
    intro budget want j hpc
    unfold refillCheck at h
    simp only [hpc] at h
    cases h
  | chip k d => trivial
  | start k batch => trivial
  | give id => trivial
  | taken => trivial

/-- A band before its first mail. -/
def emptyBand : Band where
  desc := fun _ => ⟨0#32, 0#32, 0#32, 0#32⟩
  bufid := fun _ => 0#16
  size := 0
  chip := 0
  handed := []
  ridx := 0
  kick := 0#8
  cpuIdx := 0
  initDone := false
  refilled := 0#32
  pc := .idle
  idx := 0
  sweepSize := 0
  posted := none

/-- Six free ids. -/
def emptyRings : RefillState := ⟨fun _ => emptyBand, [0#16, 1#16, 2#16, 3#16, 4#16, 5#16]⟩

/-- A frame in the chip's buffer. -/
def doneDesc : Desc := ⟨0#32, 0x80000000#32, 0#32, 0#32⟩

/-- A ring of two slots is filled, the chip hands the first one back, and
    a sweep comes up to arming it. -/
def firstRefill : List RefillAction :=
  [.setDesc false 2, .chip false doneDesc, .start false false, .sweep false, .sweep false]

/-- One slot to refill. -/
theorem refill_order_one :
    ∃ s, ((refillSystem 0#32).guarded refillGuard).Reachable s ∧
      (s.band false).arming = some 0 ∧ RefillOrder 0#32 s := by
  have hrun : (StepSystem.run (refillNext 0#32) refillCheck emptyRings firstRefill).any
      (fun s => (s.band false).arming = some 0) = true := by decide +kernel
  obtain ⟨s, hs, harming⟩ := (Option.any_eq_true _ _).mp hrun
  have hreach : ((refillSystem 0#32).guarded refillGuard).Reachable s := by
    refine StepSystem.Reachable.of_run ?_ (.init ?_) hs
    · intro s a s' hc hstep
      exact ⟨refillGuard_of_check hc, refillNext_step hstep⟩
    · exact ⟨by decide, fun k => ⟨rfl, rfl, rfl, rfl, rfl, rfl, rfl, rfl⟩⟩
  exact ⟨s, hreach, of_decide_eq_true harming, refill_order 0#32 hreach⟩

/-- The sweep arms the first slot and stops behind it; the ring is filled
    anew, the chip hands both slots back, and the next sweep comes up to
    arming one. -/
def afterRefill : List RefillAction :=
  firstRefill ++ [.sweep false, .sweep false, .setDesc false 2, .chip false doneDesc,
    .chip false doneDesc, .start false false, .sweep false, .sweep false]

/-- The second slot is refilled before the first. -/
theorem refill_out_of_order :
    ∃ s, (refillSystem 0#32).Reachable s ∧ (s.band false).arming = some 1 ∧
      (s.band false).handed = [0, 1] ∧ ¬RefillOrder 0#32 s := by
  have hrun : (StepSystem.run (refillNext 0#32) (fun _ _ => true) emptyRings afterRefill).any
      (fun s => (s.band false).arming = some 1 ∧ (s.band false).handed = [0, 1]) = true := by
    decide +kernel
  obtain ⟨s, hs, hboth⟩ := (Option.any_eq_true _ _).mp hrun
  obtain ⟨harming, hhanded⟩ := of_decide_eq_true hboth
  refine ⟨s, ?_, harming, hhanded, ?_⟩
  · refine StepSystem.Reachable.of_run ?_ (.init ?_) hs
    · intro s a s' _ hstep
      exact refillNext_step hstep
    · exact ⟨by decide, fun k => ⟨rfl, rfl, rfl, rfl, rfl, rfl, rfl, rfl⟩⟩
  · intro horder
    have hhead := horder.oldest false 1 harming
    rw [hhanded] at hhead
    cases hhead

end ClankerNPU.EagleRx.Refill
