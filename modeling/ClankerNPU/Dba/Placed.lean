import ClankerNPU.Dba.Geometry

/-! # From the budget to the map

    Without FEC, with at most four T-CONTs to an ONU, and where what the
    T-CONTs within their share ask for fits the budget: whatever a request
    grants, two units or more, gets its entry, in its length. Nothing ends
    behind the frame, since the budget has the burst overheads in it. -/

namespace ClankerNPU.Dba

open Layout FairShare

variable {g : Settings} {cfg : Table} {bw : ℕ → ℤ} {m : DbaMap} {onu : ℕ}

/-- The T-CONTs the map step comes to: the valid ones of the ONUs whose
    T-CONT 0 is valid. -/
def comes (m : DbaMap) (cfg : Table) : List (ℕ × ℕ) :=
  (tconts m).filter fun p => (cfg p.1).valid && (cfg (tcontIdx m p.1 p.2)).valid

/-- Without FEC -/
def plainTurn (m : DbaMap) (bw : ℕ → ℤ) (p : ℕ × ℕ) : Turn :=
  ⟨tcontIdx m p.1 p.2, p.2, p.1, false, bw (tcontIdx m p.1 p.2)⟩

theorem plan_plain (hplain : ∀ onu < (dbaMap g.mode).nOnu, (cfg onu).valid = true →
      (cfg onu).fec = false) :
    plan g cfg bw = (comes (dbaMap g.mode) cfg).map (plainTurn (dbaMap g.mode) bw) := by
  have hloop (onus : List ℕ) (honus : ∀ onu ∈ onus, onu < (dbaMap g.mode).nOnu) :
      turns g cfg bw onus = ((onus.flatMap fun onu =>
        (List.range (dbaMap g.mode).nTc).map fun t => (onu, t)).filter fun p =>
          (cfg p.1).valid && (cfg (tcontIdx (dbaMap g.mode) p.1 p.2)).valid).map
            (plainTurn (dbaMap g.mode) bw) := by
    induction onus with
    | nil => rfl
    | cons onu onus ih =>
      obtain ⟨honu, honus⟩ := List.forall_mem_cons.mp honus
      have hone : onuTurns g cfg bw onu = (bw, (((List.range (dbaMap g.mode).nTc).map
          fun t => (onu, t)).filter fun p =>
            (cfg p.1).valid && (cfg (tcontIdx (dbaMap g.mode) p.1 p.2)).valid).map
              (plainTurn (dbaMap g.mode) bw)) := by
        unfold onuTurns
        rw [List.filter_map, List.map_map]
        by_cases hv : (cfg onu).valid = true
        · simp only [hv, hplain onu honu hv, not_true_eq_false, if_false, Bool.false_eq_true,
            not_false_eq_true, if_true]
          refine Prod.ext rfl ?_
          simp only [Function.comp_def, hv, Bool.true_and]
          rfl
        · simp [hv, Function.comp_def]
      rw [turns, hone, ih honus, List.flatMap_cons, List.filter_append, List.map_append]
  exact hloop _ fun onu honu => List.mem_range.mp honu

/-- The turns that pay: one for each ONU that has a T-CONT. -/
theorem countP_pays_le (hslots : ∀ onu < m.nOnu, ∀ t < m.nTc,
      (cfg (tcontIdx m onu t)).valid = true → t < 4) :
    (comes m cfg).countP (fun p => p.2 % 4 = 0) ≤ (List.range m.nOnu).countP (owns m cfg) := by
  have hloop (onus : List ℕ) (honus : ∀ onu ∈ onus, onu < m.nOnu) :
      ((onus.flatMap fun onu => (List.range m.nTc).map fun t => (onu, t)).filter fun p =>
        (cfg p.1).valid && (cfg (tcontIdx m p.1 p.2)).valid).countP (fun p => p.2 % 4 = 0) ≤
      onus.countP (owns m cfg) := by
    induction onus with
    | nil => exact Nat.le_refl 0
    | cons onu onus ih =>
      obtain ⟨honu, honus⟩ := List.forall_mem_cons.mp honus
      rw [List.flatMap_cons, List.filter_append, List.countP_append, List.countP_cons]
      rw [Nat.add_comm (onus.countP _)]
      refine Nat.add_le_add ?_ (ih honus)
      rw [List.countP_filter, List.countP_map]
      by_cases howns : owns m cfg onu = true
      · rw [if_pos howns]
        -- of slots below four only slot 0 pays
        refine le_trans (List.countP_mono_left (q := fun t => t == 0) fun t ht hp => ?_)
          (List.nodup_iff_count_le_one.mp List.nodup_range 0)
        simp only [Function.comp_def, Bool.and_eq_true, decide_eq_true_eq] at hp
        have := hslots onu honu t (List.mem_range.mp ht) hp.2.2
        simp only [beq_iff_eq]
        omega
      · rw [if_neg howns, Nat.le_zero, List.countP_eq_zero]
        intro t ht hp
        simp only [Function.comp_def, Bool.and_eq_true] at hp
        exact howns (List.any_eq_true.mpr ⟨t, ht, hp.2.2⟩)
  exact hloop _ fun onu honu => List.mem_range.mp honu

/-- What the map step comes to is no more than what all valid T-CONTs are
    granted. -/
theorem sum_comes_le (mode : ℕ) (hnn : ∀ i < allocNum, (cfg i).valid = true → 0 ≤ bw i) :
    ((comes (dbaMap mode) cfg).map fun p => bw (tcontIdx (dbaMap mode) p.1 p.2)).sum ≤
      ∑ i ∈ valids cfg allocNum, bw i := by
  have hset : ∑ i ∈ valids cfg allocNum, bw i = ((List.range allocNum).map (due cfg bw)).sum := by
    rw [valids, Finset.sum_filter, Finset.sum_eq_multiset_sum]
    exact Multiset.sum_coe _
  have hlt : ∀ p ∈ tconts (dbaMap mode), tcontIdx (dbaMap mode) p.1 p.2 < allocNum := fun p hp =>
    List.mem_range.mp ((tconts_perm mode).mem_iff.mp (List.mem_map_of_mem hp))
  rw [hset, ← ((tconts_perm mode).map (due cfg bw)).sum_eq, List.map_map]
  unfold comes
  generalize tconts (dbaMap mode) = l at hlt
  induction l with
  | nil => exact le_rfl
  | cons p l ih =>
    obtain ⟨hp, hlt⟩ := List.forall_mem_cons.mp hlt
    have hrest := ih hlt
    rw [List.filter_cons, List.map_cons, List.sum_cons, Function.comp_apply, due]
    by_cases hv : (cfg (tcontIdx (dbaMap mode) p.1 p.2)).valid = true
    · have := hnn _ hp hv
      rw [if_pos hv]
      split_ifs
      · rw [List.map_cons, List.sum_cons]
        omega
      · omega
    · rw [if_neg hv, if_neg (by simp [hv])]
      omega

/-- The blocks of two units or more, where they are placed inside the
    frame. -/
theorem shown_lens (guard : ℕ) (ts : List Turn)
    (hin : ∀ p ∈ place guard 0 (blocks ts), p.stop ≤ stopMax + 1) :
    ((place guard 0 (blocks ts)).filter shown).map (fun p => (p.tag, p.stop - p.start)) =
      (ts.filter fun t => 2 ≤ t.bw).map fun t => (t, t.bw.toNat) := by
  have hlong : (place guard 0 (blocks ts)).filter shown =
      (place guard 0 (blocks ts)).filter fun p => decide (2 ≤ p.stop - p.start) := by
    refine List.filter_congr fun p hp => ?_
    have := hin p hp
    unfold shown
    congr 1
    apply propext
    omega
  have hmap : ((place guard 0 (blocks ts)).filter fun p => decide (2 ≤ p.stop - p.start)).map
      (fun p => (p.tag, p.stop - p.start)) =
      ((place guard 0 (blocks ts)).map fun p => (p.tag, p.stop - p.start)).filter fun q =>
        decide (2 ≤ q.2) := by
    rw [List.filter_map]
    rfl
  rw [hlong, hmap, place_lens]
  unfold blocks
  rw [List.map_map, List.filter_map, List.filter_filter]
  congr 1
  refine List.filter_congr fun t _ => ?_
  simp only [Function.comp_def, Turn.block, ← Bool.decide_and]
  congr 1
  apply propext
  omega

/-- Without FEC and with at most four T-CONTs to an ONU, in a budget that
    covers what is asked for within the shares: the map has an entry for
    each T-CONT it comes to that is granted two units or more, in order
    and in its length. -/
theorem request_placed (g : Settings) (cfg : Table) (alloc : ℕ → Alloc) (olt : Bool)
    (left actOnus : ℕ) (ctrl : BwmapCtrl) (hw : Words false cfg alloc)
    (hassured : ∀ i < allocNum, (cfg i).valid = true → (cfg i).dbaType = 3 ∨ (cfg i).dbaType = 5 →
      (cfg i).assureBw ≤ (dbaBudgetCalc false (dbaMap g.mode) cfg g.burstOvh actOnus).share)
    (hplain : ∀ onu < (dbaMap g.mode).nOnu, (cfg onu).valid = true → (cfg onu).fec = false)
    (hslots : ∀ onu < (dbaMap g.mode).nOnu, ∀ t < (dbaMap g.mode).nTc,
      (cfg (tcontIdx (dbaMap g.mode) onu t)).valid = true → t < 4)
    (hovh : g.burstOvh * (List.range (dbaMap g.mode).nOnu).countP (owns (dbaMap g.mode) cfg) ≤
      0x4B8C) :
    let m := dbaMap g.mode
    let b := dbaBudgetCalc false m cfg g.burstOvh actOnus
    let granted i := (dbaBwRequest false olt b cfg alloc i).curBw
    ∑ i ∈ valids cfg allocNum \ overs b.share cfg (asks false olt cfg alloc) allocNum,
        asks false olt cfg alloc i ≤ b.total →
      (dbaBwmapSwitch g cfg granted left ctrl).map (fun e => (e.ctrl.aid, e.stop + 1 - e.start)) =
        ((comes m cfg).filter fun p => 2 ≤ granted (tcontIdx m p.1 p.2)).map fun p =>
          ((cfg (tcontIdx m p.1 p.2)).allocId % 2 ^ 12, (granted (tcontIdx m p.1 p.2)).toNat) := by
  intro m b granted hbase
  have hfair : Fair b.total (valids cfg allocNum)
      (overs b.share cfg (asks false olt cfg alloc) allocNum) (asks false olt cfg alloc) granted :=
    dbaBwRequest_fair (dbaBudgetCalc_lt false m cfg g.burstOvh actOnus) hw hassured
  have hnn : ∀ i < allocNum, (cfg i).valid = true → 0 ≤ granted i := fun i hi hv =>
    hfair.nonneg (fun j hj => (hw.asks olt (mem_valids.mp hj).1 (mem_valids.mp hj).2).1)
      (mem_valids.mpr ⟨hi, hv⟩)
  -- the budget has the overheads in it
  have hacts : g.burstOvh * (List.range m.nOnu).countP (owns m cfg) ≤ 0x4B8C := hovh
  have htotal : (b.total : ℤ) + (g.burstOvh * (List.range m.nOnu).countP (owns m cfg) : ℕ) =
      0x4B8C := by
    have hfull : (List.range m.nOnu).countP (fun onu => (cfg onu).valid && (cfg onu).fec) = 0 := by
      rw [List.countP_eq_zero]
      intro onu honu hboth
      obtain ⟨hv, hf⟩ := Bool.and_eq_true_iff.mp hboth
      rw [hplain onu (List.mem_range.mp honu) hv] at hf
      cases hf
    have hb : b.total = u16 (0x4B8C - ((0 * 36 : ℕ) : ℤ) -
        u16 (g.burstOvh * (List.range m.nOnu).countP (owns m cfg) : ℕ)) := by
      rw [← hfull]
      rfl
    rw [hb]
    unfold u16
    omega
  have hgranted : ∑ i ∈ valids cfg allocNum, granted i ≤ b.total := by
    rw [hfair.sum]
    exact max_le hbase (min_le_left _ _)
  have hplan := @plan_plain g cfg granted hplain
  have hturns : ∀ t ∈ plan g cfg granted, 0 ≤ t.bw := by
    rw [hplan]
    intro t ht
    obtain ⟨p, hp, rfl⟩ := List.mem_map.mp ht
    obtain ⟨hp, hv⟩ := List.mem_filter.mp hp
    have hidx := List.mem_range.mp ((tconts_perm g.mode).mem_iff.mp (List.mem_map_of_mem hp))
    exact hnn _ hidx (Bool.and_eq_true_iff.mp hv).2
  have hneed : need g.burstOvh (blocks (plan g cfg granted)) ≤ 0x4B8C := by
    have hle := need_blocks_le g.burstOvh hturns
    have hsum : ((comes m cfg).map fun p => granted (tcontIdx m p.1 p.2)).sum ≤ b.total :=
      (sum_comes_le g.mode hnn).trans hgranted
    have hpays : g.burstOvh * (comes m cfg).countP (fun p => p.2 % 4 = 0) ≤
        g.burstOvh * (List.range m.nOnu).countP (owns m cfg) :=
      Nat.mul_le_mul_left g.burstOvh (countP_pays_le hslots)
    rw [hplan, List.map_map, List.countP_map] at hle
    change _ ≤ ((comes m cfg).map fun p => granted (tcontIdx m p.1 p.2)).sum +
      ((g.burstOvh * (comes m cfg).countP fun p => p.2 % 4 = 0 : ℕ) : ℤ) at hle
    rw [← hplan] at hle
    omega
  have hshows := switch_shows left ctrl hturns (by omega)
  have hin : ∀ p ∈ place g.burstOvh 0 (blocks (plan g cfg granted)), p.stop ≤ stopMax + 1 := by
    intro p hp
    have hstop := (place_within hp).2.2
    have hmax : stopMax = 0x4BC1 := rfl
    omega
  calc (dbaBwmapSwitch g cfg granted left ctrl).map (fun e => (e.ctrl.aid, e.stop + 1 - e.start))
      = (((place g.burstOvh 0 (blocks (plan g cfg granted))).filter shown).map fun p =>
          (p.tag, p.stop - p.start)).map fun q => ((cfg q.1.idx).allocId % 2 ^ 12, q.2) := by
        rw [List.map_map]
        refine map_of_forall₂ hshows fun e p hep => ?_
        simp only [Function.comp_def, hep.aid, hep.start, hep.stop]
    _ = ((plan g cfg granted).filter fun t => 2 ≤ t.bw).map fun t =>
          ((cfg t.idx).allocId % 2 ^ 12, t.bw.toNat) := by
        rw [shown_lens g.burstOvh _ hin, List.map_map]
        rfl
    _ = _ := by
        rw [hplan, List.filter_map, List.map_map]
        rfl

/-- The three T-CONTs of an overbooked map. -/
theorem request_placed_three :
    (dbaBwmapSwitch ⟨46, 0, 0⟩ threeCfg
      (fun i => (dbaBwRequest false false (dbaBudgetCalc false (dbaMap 0) threeCfg 46 3) threeCfg
        threeAlloc i).curBw) 3 ⟨false, false, false, 0, false, 0⟩).map
        (fun e => (e.ctrl.aid, e.stop + 1 - e.start)) =
      [(256, 300), (257, 9451), (258, 9451)] := by
  have hbands : ∀ i < allocNum, (threeCfg i).fixBw < 2 ^ 15 ∧ (threeCfg i).assureBw < 2 ^ 15 ∧
      (threeCfg i).maxBw < 2 ^ 15 := by decide +kernel
  have hkept : ∀ i < allocNum, 0 ≤ (threeAlloc i).curBw ∧ (threeAlloc i).curBw < 2 ^ 16 := by
    decide +kernel
  have hassured : ∀ i < allocNum, (threeCfg i).assureBw = 0 := by decide +kernel
  refine (request_placed ⟨46, 0, 0⟩ threeCfg threeAlloc false 3 3
    ⟨false, false, false, 0, false, 0⟩ ⟨fun i hi _ => hbands i hi, fun i hi _ _ => hkept i hi⟩
    (fun i hi _ _ => by rw [hassured i hi]; exact Nat.zero_le _) ?_ ?_ ?_ ?_).trans ?_
  all_goals decide +kernel

end ClankerNPU.Dba
