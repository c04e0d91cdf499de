import ClankerNPU.Kite.RxRuns

/-! # The slots of the rx rings and their table

    A descriptor given back to the chip has to point at the buffer its slot
    of the table names, by the address the chip knows that buffer by. The
    set-up, `kite_rx_2g` and `kite_rx_5g` write that address; the segment
    loop of `kite_rx_multi` writes the one of `wifi_pkt_va`. -/

namespace ClankerNPU.Kite

variable {cfg : RxCfg} {ids : Finset ℕ} {b : Bool} {s s' : RxState}

/-! ## Agreement -/

/-- The slots of each ring name different ids, and their descriptors have
    the bus addresses of these ids' buffers, with the length of a buffer
    unless the chip has filled them. -/
def RxState.SlotsAgree (cfg : RxCfg) (s : RxState) : Prop :=
  ∀ b, Set.InjOn (s.band b).tbl (s.band b).live ∧
    ∀ i ∈ (s.band b).live, (s.band b).ArmedAt cfg.BusAddr i

theorem RxPathInv.agree (h : RxPathInv cfg.BusAddr ids.val s) : s.SlotsAgree cfg := fun b =>
  ⟨slotIds_injOn (Multiset.nodup_of_le (Custody.le_of_sum h.sum (.slots b)) ids.nodup), h.armed b⟩

/-- A slot of a running ring whose segment is queued, after its refill. -/
theorem refill_next {idx n len count id : ℕ} {seg : BitVec 8} {answer : Option ℕ} {v : RxVerdict}
    (hpc : (s.band b).rx = .refill idx n len count seg id)
    (h : s.next cfg (.rx b answer v) = some s') :
    (s'.band b).mail = (s.band b).mail ∧ (s'.band b).initDone = (s.band b).initDone ∧
      (s'.band b).rx = .segs (rxNext idx) n len count seg ∧ (s'.band b).tbl idx = id ∧
        ((s'.band b).desc idx).addr = pktVa cfg.pktBuf id := by
  unfold RxState.next at h
  obtain ⟨l, hl, rfl⟩ := Option.map_eq_some_iff.mp h
  have hpc' : (s.on b).band.rx = .refill idx n len count seg id := hpc
  unfold rxStep at hl
  dsimp only at hl
  rw [hpc'] at hl
  obtain rfl := Option.some.inj hl
  rw [put_band]
  refine ⟨rfl, rfl, rfl, Function.update_self .., ?_⟩
  show (Function.update (s.band b).desc idx
    { ((s.band b).desc idx).recycled with addr := pktVa cfg.pktBuf id } idx).addr = _
  rw [Function.update_self]

/-- A refill with the other address leaves the slot pointing elsewhere. -/
theorem not_agree_of_refill {a : RxAct} (hinv : RxPathInv cfg.BusAddr ids.val s)
    (hbetween : s.Between a) (h : s.next cfg a = some s') (hbus : ¬ s.OnBus cfg a) :
    ¬ s'.SlotsAgree cfg := by
  cases a with
  | rx b answer v =>
    change ¬ (s.band b).OnBus cfg at hbus
    unfold RxBand.OnBus at hbus
    push Not at hbus
    obtain ⟨idx, n, len, count, seg, id, hpc, hne⟩ := hbus
    obtain ⟨hmail', hdone', hrx', htbl, haddr⟩ := refill_next hpc h
    -- the rx function runs, so no mail is under way in its band
    have hbusy : ¬ (s.band b).Quiet := fun hquiet => by
      rw [hquiet.1] at hpc
      cases hpc
    obtain ⟨hmail, hdone⟩ := (hinv.fits b).running hbetween (.inr hbusy)
    have hok := ((hinv.fits b).ok (by rw [hmail]; rfl)).rx
    rw [hpc] at hok
    have hlive : idx ∈ (s'.band b).live := by
      rw [live_of_running (hmail'.trans hmail) (hdone'.trans hdone), hrx']
      exact Finset.mem_range.mpr hok
    intro hagree
    have hpoints : ((s'.band b).desc idx).addr = pktDma cfg.pktBuf ((s'.band b).tbl idx) :=
      ((hagree b).2 idx hlive).1
    rw [haddr, htbl] at hpoints
    exact hne hpoints
  | _ => exact absurd trivial hbus

/-! ## A frame of two descriptors -/

/-- 3500 bytes, with more to come -/
def firstPart : BitVec 32 := 0x0DAC0000#32

/-- 500 bytes, the last ones -/
def lastPart : BitVec 32 := 0x41F40000#32

theorem kiteRxFrame_parts {ring : ℕ → RxDesc} (h0 : (ring 0).w1 = firstPart ||| 0x80000000#32)
    (h1 : (ring 1).w1 = lastPart ||| 0x80000000#32) :
    kiteRxFrame ring 0 rxRing = some ⟨2, 1, 4000, [0, 1]⟩ := by
  have hdone0 : (ring 0).done = true := by unfold RxDesc.done; rw [h0]; decide
  have hlast0 : (ring 0).last = false := by unfold RxDesc.last; rw [h0]; decide
  have hfrag0 : (ring 0).frag = 3500 := by unfold RxDesc.frag; rw [h0]; decide
  have hdone1 : (ring 1).done = true := by unfold RxDesc.done; rw [h1]; decide
  have hlast1 : (ring 1).last = true := by unfold RxDesc.last; rw [h1]; decide
  have hfrag1 : (ring 1).frag = 500 := by unfold RxDesc.frag; rw [h1]; decide
  show kiteRxWalk ring 0 (1535 + 1) 0 0 0 [] = _
  unfold kiteRxWalk
  dsimp only
  rw [if_neg (by rw [hdone0]; decide), if_neg (by rw [hlast0]; decide), hfrag0]
  show kiteRxWalk ring 0 (1534 + 1) 1 1 _ _ = _
  unfold kiteRxWalk
  dsimp only
  rw [if_neg (by rw [hdone1]; decide), if_pos hlast1, hfrag1]
  rfl

/-- Its first segment is queued, and its slot about to be refilled. -/
theorem leads_refill (desc : ℕ → RxDesc) (tbl : ℕ → ℕ) (pool : Multiset ℕ) (id : ℕ) :
    ∃ l', Leads wideCfg ids true
        (restLocal .empty .empty desc tbl 0 true .idle (id ::ₘ pool)) l' ∧
      l'.band.rx = .refill 0 1 4000 2 1#8 id ∧ l'.band.mail = .idle := by
  set l := chipStep 1 lastPart (chipStep 0 firstPart
    (restLocal .empty .empty desc tbl 0 true .idle (id ::ₘ pool))) with hl
  have hw0 : (l.band.desc 0).w1 = firstPart ||| 0x80000000#32 := rfl
  have hw1 : (l.band.desc 1).w1 = lastPart ||| 0x80000000#32 := rfl
  have hfrag : (l.band.desc 0).frag = 3500 := by
    unfold RxDesc.frag
    rw [hw0]
    decide
  let held : RxLocal := { l with pool := pool }
  have hcalled : Leads wideCfg ids true l (l.goto .called) :=
    .rx none .taken (fun _ _ _ _ _ _ h => by cases h) (fun _ _ _ _ _ _ h => by cases h) rfl rfl
  have hfound : Leads wideCfg ids true (l.goto .called) (l.goto (.segs 0 2 4000 2 0#8)) := by
    refine .rx none .taken (fun _ _ _ _ _ _ h => by cases h)
      (fun _ _ _ _ _ _ h => by cases h) rfl ?_
    have hwalk : kiteRxFrame l.band.desc 0 rxRing = some ⟨2, 1, 4000, [0, 1]⟩ :=
      kiteRxFrame_parts hw0 hw1
    unfold rxStep
    dsimp only [RxLocal.goto]
    rw [show l.band.cpuIdx = 0 from rfl, hwalk]
    rfl
  have hheld : Leads wideCfg ids true (l.goto (.segs 0 2 4000 2 0#8))
      (held.goto (.seg 0 1 4000 2 1#8 id 3)) := by
    refine .rx (some id) .taken (fun _ _ _ _ _ _ h => by cases h)
      (fun _ _ _ _ _ _ h => by cases h) rfl ?_
    refine (if_pos (Multiset.mem_cons_self id pool)).trans ?_
    show some (RxLocal.goto { l with pool := (id ::ₘ pool).erase id } _) = _
    rw [Multiset.erase_cons_head]
    rfl
  -- the segment is shorter than the frame and goes to its node ring
  obtain ⟨ring, hring⟩ : ∃ ring, (held.goto (.seg 0 1 4000 2 1#8 id 3)).band.putSeg true 0 4000 2
      1#8 = some ring := by
    refine ⟨_, (if_pos ?_).trans rfl⟩
    show (l.band.desc 0).frag ≠ 4000 % 2 ^ 16
    rw [hfrag]
    decide
  have hqueued : Leads wideCfg ids true (held.goto (.seg 0 1 4000 2 1#8 id 3))
      { held with band := { ring with rx := .refill 0 1 4000 2 1#8 id } } := by
    refine .rx none .taken (fun _ _ _ _ _ _ h => absurd (RxPc.seg.inj h).2.2.2.2.2.2 (by decide))
      (fun _ _ _ _ _ _ h => by cases h) rfl ?_
    unfold rxStep
    dsimp only [RxLocal.goto] at hring ⊢
    rw [hring]
  exact ⟨_, (Leads.chip 0 firstPart).trans ((Leads.chip 1 lastPart).trans (hcalled.trans
    (hfound.trans (hheld.trans hqueued)))), rfl, (putSeg_stays hring).1⟩

/-- From the boot: the 5G ring is set up, the first segment of the frame
    is queued, and its slot gets buffer 0 by the other address. -/
theorem refill_reachable :
    ∃ s s' : RxState, (rxBusSystem wideCfg (Finset.range 1600)).Reachable s ∧
      s.Between (.rx true none .taken) ∧ s.next wideCfg (.rx true none .taken) = some s' ∧
        ¬ s.OnBus wideCfg (.rx true none .taken) := by
  obtain ⟨s, desc, tbl, -, hs, hw, hl⟩ := set_up_reachable
  obtain ⟨l, hleads, hpc, hmail⟩ := @leads_refill (Finset.range 1600) desc tbl
    (List.range' 1 63 : Multiset ℕ) 0
  obtain ⟨t, ht, -, rfl⟩ := hleads s hs hw hl
  have hnext : ∃ t', t.next wideCfg (.rx true none .taken) = some t' := by
    unfold RxState.next rxStep
    dsimp only
    rw [hpc]
    exact ⟨_, rfl⟩
  obtain ⟨t', ht'⟩ := hnext
  refine ⟨t, t', ht.guarded_mono fun _ _ h => h.2, ?_, ht', fun hbus => ?_⟩
  · show (t.band true).mail.early = false
    rw [show (t.band true).mail = .idle from hmail]
    rfl
  · exact absurd (hbus _ _ _ _ _ _ hpc) (by decide)

/-! ## Whole runs -/

/-- As long as no refill of the segment loop writes an address the chip
    does not know, every slot of the rings agrees with the table; the first
    such refill ends that. -/
theorem rx_slots_agree (h : (rxBusSystem cfg ids).Reachable s) :
    s.SlotsAgree cfg ∧ ∀ a s', s.Between a → s.next cfg a = some s' →
      (s'.SlotsAgree cfg ↔ s.OnBus cfg a) := by
  have hinv := rxPathInv_of_bus h
  refine ⟨hinv.agree, fun a s' hbetween hstep => ⟨fun hagree => ?_, fun hbus => ?_⟩⟩
  · by_contra hbus
    exact not_agree_of_refill hinv hbetween hstep hbus hagree
  · exact (rxPathInv_of_bus (.step a h ⟨hbus, hbetween, hstep⟩)).agree

/-- The slots agree until the first segment of the frame is replaced. -/
theorem rx_slots_agree_parts :
    ∃ s s' : RxState, s.SlotsAgree wideCfg ∧
      s.next wideCfg (.rx true none .taken) = some s' ∧ ¬ s'.SlotsAgree wideCfg := by
  obtain ⟨s, s', hs, hbetween, hstep, hbus⟩ := refill_reachable
  obtain ⟨hagree, hnext⟩ := rx_slots_agree hs
  exact ⟨s, s', hagree, hstep, fun h => hbus ((hnext _ s' hbetween hstep).mp h)⟩

/-- The set-up and one frame in segments: the first slot of the ring has
    buffer 0 in the table, and its descriptor not the address of it. -/
theorem rx_slots_disagree :
    ∃ s : RxState,
      ((rxPathSystem wideCfg (Finset.range 1600)).guarded RxState.Between).Reachable s ∧
        ¬ s.SlotsAgree wideCfg := by
  obtain ⟨s, s', hs, hbetween, hstep, hbus⟩ := refill_reachable
  exact ⟨s', .step _ hs.of_guarded ⟨hbetween, hstep⟩,
    not_agree_of_refill (rxPathInv_of_bus hs) hbetween hstep hbus⟩

end ClankerNPU.Kite
