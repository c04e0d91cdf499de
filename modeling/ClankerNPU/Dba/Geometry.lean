import ClankerNPU.Dba.Fair
import ClankerNPU.Dba.Fec
import ClankerNPU.Dba.NewDba
import ClankerNPU.Dba.Terminated
import ClankerNPU.Lib.Layout

/-! # The geometry of the bandwidth map

    The map step lays the grants out one behind the other in 16-bit
    positions, and leaves out what is too short or ends behind the frame.
    As long as the grants and overheads stay below 2^16, the map is the
    layout of its blocks: in order, disjoint, and with a burst overhead
    between the ONUs, where an ONU that is granted anything is granted
    something on its first T-CONT. -/

namespace ClankerNPU.Dba

open Layout

variable {g : Settings} {cfg : Table} {bw orig : ℕ → ℤ} {s : Bwmap} {t : Turn} {ts : List Turn}
  {onu : ℕ}

/-! ## Turns as blocks -/

/-- A turn's block pays the burst overhead by its slot. -/
def Turn.block (t : Turn) : Block Turn := ⟨t, t.slot % 4 = 0, t.bw.toNat⟩

/-- The blocks of the turns with a grant -/
def blocks (ts : List Turn) : List (Block Turn) := (ts.filter fun t => t.bw ≠ 0).map Turn.block

/-- More than one unit, and not past the end of the frame -/
def shown (p : Placed Turn) : Bool := p.start + 1 < p.stop ∧ p.stop ≤ stopMax + 1

/-- An entry is of a placed T-CONT. -/
structure Entry.Shows (cfg : Table) (e : Entry) (p : Placed Turn) : Prop where
  start : e.start = p.start
  stop : e.stop + 1 = p.stop
  aid : e.ctrl.aid = (cfg p.tag.idx).allocId % 2 ^ 12
  dbru : e.ctrl.dbru = decide ((cfg p.tag.idx).dbaType ≠ 1)
  ploamu : e.ctrl.ploamu = decide (p.tag.idx = p.tag.onu)
  fec : e.ctrl.fec = p.tag.fec

theorem blocks_cons (t : Turn) (ts : List Turn) :
    blocks (t :: ts) = if t.bw = 0 then blocks ts else t.block :: blocks ts := by
  unfold blocks
  rw [List.filter_cons]
  by_cases hbw : t.bw = 0
  · simp [hbw]
  · simp [hbw]

/-- Where nothing wraps, a turn with a grant takes its block. -/
theorem turn_block {pos : ℕ} (hnn : 0 ≤ t.bw) (hroom : t.block.stop g.burstOvh pos < 2 ^ 16) :
    entryStart g pos t.slot = t.block.start g.burstOvh pos ∧
      entryEnd g pos t.slot t.bw = t.block.stop g.burstOvh pos := by
  have hlen : t.block.stop g.burstOvh pos = t.block.start g.burstOvh pos + t.bw.toNat := rfl
  have hstart : entryStart g pos t.slot = t.block.start g.burstOvh pos := by
    have hlt : t.block.start g.burstOvh pos < 2 ^ 16 := by omega
    unfold entryStart
    unfold Block.start Turn.block at hlt ⊢
    simp only [decide_eq_true_eq] at hlt ⊢
    split_ifs at hlt ⊢
    · exact Nat.mod_eq_of_lt hlt
    · rfl
  refine ⟨hstart, ?_⟩
  unfold entryEnd u16
  rw [hstart]
  omega

/-- A turn with a grant, where nothing wraps: the position goes behind its
    block, and there is an entry for it if the block is to be shown. -/
theorem takeTurn_shows (hbw : 0 < t.bw) (hroom : t.block.stop g.burstOvh s.pos < 2 ^ 16) :
    (takeTurn g cfg s t).pos = t.block.stop g.burstOvh s.pos ∧
      ∃ es, (takeTurn g cfg s t).out = s.out ++ es ∧
        List.Forall₂ (Entry.Shows cfg) es
          ([⟨t, t.block.start g.burstOvh s.pos, t.block.stop g.burstOvh s.pos⟩].filter shown) := by
  have hlen : t.block.stop g.burstOvh s.pos = t.block.start g.burstOvh s.pos + t.bw.toNat := rfl
  obtain ⟨hstart, hend⟩ := turn_block hbw.le hroom
  have hstop : u16 ((t.block.stop g.burstOvh s.pos : ℤ) - 1) + 1 =
      t.block.stop g.burstOvh s.pos := by
    unfold u16
    omega
  generalize hp : t.block.start g.burstOvh s.pos = start at *
  generalize hq : t.block.stop g.burstOvh s.pos = stop at *
  unfold takeTurn
  rw [if_neg (by omega)]
  unfold dbaConfigBwmapHandler
  simp only [hstart, hend]
  have hshow (h : start + 1 < stop ∧ stop ≤ stopMax + 1) :
      [(⟨t, start, stop⟩ : Placed Turn)].filter shown = [⟨t, start, stop⟩] :=
    List.filter_cons_of_pos (decide_eq_true h)
  have hhide (h : ¬(start + 1 < stop ∧ stop ≤ stopMax + 1)) :
      [(⟨t, start, stop⟩ : Placed Turn)].filter shown = [] :=
    List.filter_cons_of_neg (by rw [shown, decide_eq_false h]; exact Bool.false_ne_true)
  by_cases hlate : u16 ((stop : ℤ) - 1) > stopMax
  · rw [if_pos hlate, hhide (by omega)]
    exact ⟨rfl, [], (List.append_nil _).symm, .nil⟩
  · rw [if_neg hlate]
    by_cases hshort : start ≥ u16 ((stop : ℤ) - 1)
    · rw [if_pos hshort, hhide (by omega)]
      exact ⟨rfl, [], (List.append_nil _).symm, .nil⟩
    · rw [if_neg hshort, hshow (by omega)]
      exact ⟨rfl, _, rfl, .cons ⟨rfl, hstop, rfl, rfl, rfl, rfl⟩ .nil⟩

/-- The map step writes the layout of its turns. -/
theorem foldl_shows (hnn : ∀ t ∈ ts, 0 ≤ t.bw)
    (hroom : s.pos + need g.burstOvh (blocks ts) < 2 ^ 16) :
    ∃ es, (ts.foldl (takeTurn g cfg) s).out = s.out ++ es ∧
      List.Forall₂ (Entry.Shows cfg) es ((place g.burstOvh s.pos (blocks ts)).filter shown) := by
  induction ts generalizing s with
  | nil => exact ⟨[], (List.append_nil _).symm, .nil⟩
  | cons t ts ih =>
    have hrest := fun t ht => hnn t (List.mem_cons_of_mem _ ht)
    rw [List.foldl_cons, blocks_cons] at *
    by_cases hbw : t.bw = 0
    · rw [if_pos hbw] at hroom ⊢
      have hskip : takeTurn g cfg s t = s := if_pos hbw
      rw [hskip]
      exact ih hrest hroom
    · rw [if_neg hbw] at hroom ⊢
      have hpos := hnn t List.mem_cons_self
      have hstop := t.block.stop_le g.burstOvh s.pos
      rw [need_cons] at hroom
      obtain ⟨hnext, es, hout, hes⟩ := @takeTurn_shows g cfg s t (by omega) (by omega)
      obtain ⟨es', hout', hes'⟩ := ih (s := takeTurn g cfg s t) hrest (by rw [hnext]; omega)
      rw [hnext] at hes'
      refine ⟨es ++ es', by rw [hout', hout, List.append_assoc], ?_⟩
      rw [place, ← List.singleton_append, List.filter_append]
      exact List.rel_append hes hes'

/-- Where nothing wraps, the map is the layout of its turns. -/
theorem switch_shows (left : ℕ) (ctrl : BwmapCtrl) (hnn : ∀ t ∈ plan g cfg bw, 0 ≤ t.bw)
    (hroom : need g.burstOvh (blocks (plan g cfg bw)) < 2 ^ 16) :
    List.Forall₂ (Entry.Shows cfg) (dbaBwmapSwitch g cfg bw left ctrl)
      ((place g.burstOvh 0 (blocks (plan g cfg bw))).filter shown) := by
  obtain ⟨es, hout, hes⟩ := @foldl_shows g cfg ⟨ctrl, 0, left, []⟩ (plan g cfg bw) hnn
    (by rwa [Nat.zero_add])
  have heq : dbaBwmapSwitch g cfg bw left ctrl = es := by
    unfold dbaBwmapSwitch
    rw [foldl_switchOnu]
    exact hout
  rw [heq]
  exact hes

/-! ## The FEC pass -/

/-- The last grant is what is left, or 18 units. -/
theorem lastGrant_le (olt : Bool) {b x : ℤ} (hb : 0 ≤ b) (hx : b + x < 2 ^ 16 - 2 ^ 10)
    (hbmax : b < 2 ^ 16 - 2 ^ 10) : lastGrant olt b x ≤ max x 18 := by
  obtain ⟨y, hy⟩ : ∃ y : ℤ, max x 18 = y := ⟨_, rfl⟩
  have hlow : 18 ≤ y ∧ y < 2 ^ 16 := by omega
  cases olt with
  | true =>
    unfold lastGrant alignOlt
    rw [if_pos rfl, hy]
    obtain ⟨rem, hrem⟩ : ∃ rem : ℕ, (u16 (2 * b) + u32 (y * 2) + 2) % 2 ^ 32 % 255 = rem := ⟨_, rfl⟩
    simp only [hrem, not_true_eq_false, if_true, if_false]
    split_ifs with hpar hshort
    · exact le_rfl
    · dsimp only
      have hcut : (u32 ((u32 (y * 2) : ℤ) - rem) : ℤ) = 2 * y - rem := by
        unfold u32
        omega
      generalize u32 ((u32 (y * 2) : ℤ) - rem) = cut at *
      unfold u32
      omega
    · exact le_rfl
  | false =>
    have hs : s32 ((u16 b : ℤ) + y + 2) = b + y + 2 := by
      unfold s32 u16
      omega
    unfold lastGrant alignOnu
    rw [if_neg (by decide), hy]
    simp only [hs, Int.tmod_eq_emod_of_nonneg (show 0 ≤ b + y + 2 by omega), not_true_eq_false,
      if_true, if_false]
    split_ifs
    · exact le_rfl
    · dsimp only
      omega
    · exact le_rfl

/-- The pass adds at most 21 units for each T-CONT, and 18 for the last. -/
theorem Aligns.sum_le {olt : Bool} {p b : ℤ} {before after : List ℤ}
    (h : Aligns olt p b before after) (hb : 0 ≤ b) (hpos : ∀ x ∈ before, 0 < x) (hsum : p + before.sum < 2 ^ 15)
    (hlen : before.length ≤ 32) (hroom : b + 21 * (before.length : ℤ) ≤ 33500) :
    b + after.sum ≤ max (p + before.sum) b + (21 * before.length + 18) := by
  induction h with
  | last p b x =>
    rw [List.sum_singleton] at hsum
    rw [List.length_singleton] at hroom
    have hlast := lastGrant_le olt (b := b) (x := p + x - b) hb (by omega) (by omega)
    rw [List.sum_singleton, List.sum_singleton, List.length_singleton]
    omega
  | @next p b x b' x' xs ys fit least near off rest ih =>
    have hx := hpos x List.mem_cons_self
    have htail : 0 ≤ (x' :: xs).sum :=
      List.sum_nonneg fun y hy => (hpos y (List.mem_cons_of_mem _ hy)).le
    rw [List.sum_cons] at hsum
    rw [List.length_cons] at hlen hroom
    push_cast at hroom
    have hrest := ih (by omega) (fun y hy => hpos y (List.mem_cons_of_mem _ hy)) (by omega)
      (by omega) (by omega)
    rw [List.sum_cons, List.sum_cons, List.length_cons (a := x)]
    push_cast
    omega

theorem fecAlign_sum_le (g : Settings) (list : List ℕ) (bw : ℕ → ℤ) (hnd : list.Nodup)
    (hlen : list.length ≤ 32) (hpos : ∀ i ∈ list, 0 < bw i)
    (hsum : 2 * (list.map bw).sum < 2 ^ 16) :
    (list.map (fecAlign g list 0 bw)).sum ≤ (list.map bw).sum + (21 * list.length + 18) := by
  have hpos' : ∀ x ∈ list.map bw, 0 < x := by
    intro x hx
    obtain ⟨j, hj, rfl⟩ := List.mem_map.mp hx
    exact hpos j hj
  have hnn : 0 ≤ (list.map bw).sum := List.sum_nonneg fun x hx => (hpos' x hx).le
  cases list with
  | nil => exact le_of_le_of_eq (by decide : (0 : ℤ) ≤ 18) (by simp)
  | cons i is =>
    have haligns := fecAlign_aligns g i is 0 bw 0 0 bw hnd (by omega) (fun _ _ => rfl)
      (by rw [mul_zero]; rfl) hpos (by omega) le_rfl le_rfl hlen (by omega)
    have hle := haligns.sum_le le_rfl hpos' (by omega) (by rw [List.length_map]; exact hlen)
      (by rw [List.length_map]; omega)
    rw [List.length_map] at hle
    omega

/-! ## One ONU -/

/-- What a T-CONT is due from the grants -/
def due (cfg : Table) (bw : ℕ → ℤ) (i : ℕ) : ℤ := if (cfg i).valid then bw i else 0

/-- What the T-CONTs of an ONU are due -/
def onuDue (m : DbaMap) (cfg : Table) (bw : ℕ → ℤ) (onu : ℕ) : ℤ :=
  ((List.range m.nTc).map fun j => due cfg bw (tcontIdx m onu j)).sum

/-- The aligned T-CONTs are the valid ones with a grant. -/
theorem fecList_perm (m : DbaMap) (cfg : Table) (bw : ℕ → ℤ) (onu : ℕ) :
    (fecList m cfg bw onu).Perm (((List.range m.nTc).map (tcontIdx m onu)).filter fun i =>
      (cfg i).valid = true ∧ bw i ≠ 0) := by
  have hloop (js l : List ℕ) : (js.foldl (fun list j =>
      if ¬(cfg (tcontIdx m onu j)).valid ∨ bw (tcontIdx m onu j) = 0 then list
      else sortIn bw list (tcontIdx m onu j)) l).Perm
      (l ++ (js.map (tcontIdx m onu)).filter fun i => (cfg i).valid = true ∧ bw i ≠ 0) := by
    induction js generalizing l with
    | nil => rw [List.map_nil, List.filter_nil, List.append_nil, List.foldl_nil]
    | cons j js ih =>
      rw [List.foldl_cons, List.map_cons, List.filter_cons]
      by_cases hskip : ¬(cfg (tcontIdx m onu j)).valid ∨ bw (tcontIdx m onu j) = 0
      · rw [if_pos hskip, if_neg (by simpa [imp_iff_not_or] using hskip)]
        exact ih l
      · rw [if_neg hskip, if_pos (by simpa [not_or] using hskip)]
        refine (ih _).trans (((sortIn_perm bw l _).append_right _).trans ?_)
        exact List.perm_middle.symm
  exact hloop _ []

theorem sum_filter_due (l : List ℕ) (cfg : Table) (bw : ℕ → ℤ) :
    ((l.filter fun i => (cfg i).valid = true ∧ bw i ≠ 0).map bw).sum =
      (l.map (due cfg bw)).sum := by
  induction l with
  | nil => rfl
  | cons i l ih =>
    rw [List.filter_cons, List.map_cons, List.sum_cons, ← ih]
    unfold due
    by_cases hv : (cfg i).valid = true
    · by_cases hz : bw i = 0
      · simp [hv, hz]
      · simp [hv, hz]
    · simp [hv]

theorem sum_fecList (m : DbaMap) (cfg : Table) (bw : ℕ → ℤ) (onu : ℕ) :
    ((fecList m cfg bw onu).map bw).sum = onuDue m cfg bw onu := by
  rw [((fecList_perm m cfg bw onu).map bw).sum_eq, sum_filter_due, List.map_map]
  rfl

/-- The aligned grants of an ONU: none below 2, and hardly more in all. -/
theorem fecList_aligned {mode : ℕ} (g : Settings) (honu : onu < (dbaMap mode).nOnu)
    (hnn : ∀ j < (dbaMap mode).nTc, 0 ≤ due cfg bw (tcontIdx (dbaMap mode) onu j))
    (hsum : 2 * onuDue (dbaMap mode) cfg bw onu < 2 ^ 16) :
    let list := fecList (dbaMap mode) cfg bw onu
    (∀ i ∈ list, 2 ≤ fecAlign g list 0 bw i) ∧
      (list.map (fecAlign g list 0 bw)).sum ≤
        onuDue (dbaMap mode) cfg bw onu + (21 * (dbaMap mode).nTc + 18) := by
  intro list
  have hperm := fecList_perm (dbaMap mode) cfg bw onu
  obtain ⟨hnd, hlen⟩ := fecList_nodup mode cfg bw honu
  have hshort : list.length ≤ 32 := hlen.trans (by decide)
  have hlen' : list.length ≤ (dbaMap mode).nTc := by
    rw [hperm.length_eq]
    refine (List.length_filter_le _ _).trans ?_
    rw [List.length_map, List.length_range]
  have hpos : ∀ i ∈ list, 0 < bw i := by
    intro i hi
    obtain ⟨hi, hgrant⟩ := List.mem_filter.mp (hperm.mem_iff.mp hi)
    obtain ⟨j, hj, rfl⟩ := List.mem_map.mp hi
    obtain ⟨hv, hz⟩ := of_decide_eq_true hgrant
    have := hnn j (List.mem_range.mp hj)
    rw [due, if_pos hv] at this
    omega
  have hsum' : 2 * (list.map bw).sum < 2 ^ 16 := by
    rw [sum_fecList]
    exact hsum
  constructor
  · intro i hi
    have hok := fecAlign_ok g list bw (List.ne_nil_of_mem hi) hnd hshort hpos hsum'
    exact hok.least _ (List.mem_map_of_mem hi)
  · have hle := fecAlign_sum_le g list bw hnd hshort hpos hsum'
    rw [sum_fecList] at hle
    omega

/-- An ONU without FEC that is granted anything is granted something on
    its first T-CONT. -/
def Headed (m : DbaMap) (cfg : Table) (bw : ℕ → ℤ) (onu : ℕ) : Prop :=
  (cfg onu).valid = true → (cfg onu).fec = false →
    bw onu ≠ 0 ∨ ∀ j < m.nTc, due cfg bw (tcontIdx m onu j) = 0

instance (m : DbaMap) (cfg : Table) (bw : ℕ → ℤ) (onu : ℕ) : Decidable (Headed m cfg bw onu) :=
  inferInstanceAs (Decidable (_ → _ → _ ∨ ∀ j < m.nTc, _))

/-- An ONU's turns: what they are granted, where they stand, and that the
    first one with a grant pays. -/
structure OnuTurns (m : DbaMap) (cfg : Table) (bw : ℕ → ℤ) (onu : ℕ) (ts : List Turn) : Prop where
  nonneg : ∀ t ∈ ts, 0 ≤ t.bw
  owner : ∀ t ∈ ts, t.onu = onu
  slots : (ts.map Turn.slot).Sublist (List.range m.nTc)
  sum : (ts.map Turn.bw).sum ≤ onuDue m cfg bw onu + (21 * m.nTc + 18)
  head : Headed m cfg bw onu → ∀ b ∈ (blocks ts).head?, b.pays

theorem onuDue_nonneg {m : DbaMap} (hnn : ∀ j < m.nTc, 0 ≤ due cfg bw (tcontIdx m onu j)) :
    0 ≤ onuDue m cfg bw onu := by
  refine List.sum_nonneg fun x hx => ?_
  obtain ⟨j, hj, rfl⟩ := List.mem_map.mp hx
  exact hnn j (List.mem_range.mp hj)

/-- An ONU's T-CONTs in order, and their grants -/
theorem sum_plain (js : List ℕ) (m : DbaMap) (cfg : Table) (bw : ℕ → ℤ) (onu : ℕ) :
    ((js.filter fun j => (cfg (tcontIdx m onu j)).valid).map fun j => bw (tcontIdx m onu j)).sum =
      (js.map fun j => due cfg bw (tcontIdx m onu j)).sum := by
  induction js with
  | nil => rfl
  | cons j js ih =>
    rw [List.filter_cons, List.map_cons, List.sum_cons, ← ih]
    unfold due
    by_cases hv : (cfg (tcontIdx m onu j)).valid = true
    · simp [hv]
    · simp [hv]

/-- Without FEC the first T-CONT comes first. -/
theorem plain_head {mode : ℕ} (hvalid : (cfg onu).valid = true)
    (hhead : bw onu ≠ 0 ∨ ∀ j < (dbaMap mode).nTc, due cfg bw (tcontIdx (dbaMap mode) onu j) = 0) :
    ∀ b ∈ (blocks (((List.range (dbaMap mode).nTc).filter fun j =>
      (cfg (tcontIdx (dbaMap mode) onu j)).valid).map fun j =>
        (⟨tcontIdx (dbaMap mode) onu j, j, onu, false, bw (tcontIdx (dbaMap mode) onu j)⟩ :
          Turn))).head?, b.pays := by
  obtain ⟨k, hk⟩ := Nat.exists_eq_succ_of_ne_zero (nTc_pos mode).ne'
  by_cases hz : bw onu = 0
  · -- nothing is granted
    have hall := hhead.resolve_left (not_not.mpr hz)
    have hnil : blocks (((List.range (dbaMap mode).nTc).filter fun j =>
        (cfg (tcontIdx (dbaMap mode) onu j)).valid).map fun j =>
          (⟨tcontIdx (dbaMap mode) onu j, j, onu, false, bw (tcontIdx (dbaMap mode) onu j)⟩ :
            Turn)) = [] := by
      unfold blocks
      rw [List.map_eq_nil_iff, List.filter_eq_nil_iff]
      intro t ht
      obtain ⟨j, hj, rfl⟩ := List.mem_map.mp ht
      obtain ⟨hj, hv⟩ := List.mem_filter.mp hj
      have hdue := hall j (List.mem_range.mp hj)
      rw [due, if_pos hv] at hdue
      simp [hdue]
    rw [hnil]
    exact fun b hb => absurd hb (by simp)
  · rw [hk, List.range_succ_eq_map, List.filter_cons, tcontIdx_zero, if_pos hvalid, List.map_cons,
      tcontIdx_zero, blocks_cons, if_neg hz]
    intro b hb
    obtain rfl := Option.some.inj hb
    rfl

theorem onuTurns_spec (g : Settings) (honu : onu < (dbaMap g.mode).nOnu)
    (hnn : ∀ j < (dbaMap g.mode).nTc, 0 ≤ due cfg bw (tcontIdx (dbaMap g.mode) onu j))
    (hsum : 2 * onuDue (dbaMap g.mode) cfg bw onu < 2 ^ 16) :
    OnuTurns (dbaMap g.mode) cfg bw onu (onuTurns g cfg bw onu).2 := by
  have hdue := onuDue_nonneg hnn
  unfold onuTurns
  by_cases hvalid : ¬(cfg onu).valid
  · simp only [if_pos hvalid]
    refine ⟨by simp, by simp, by simp, ?_, fun _ b hb => absurd hb (by simp [blocks])⟩
    rw [List.map_nil, List.sum_nil]
    omega
  rw [not_not] at hvalid
  simp only [hvalid, not_true_eq_false, if_false]
  by_cases hfec : ¬(cfg onu).fec
  · simp only [if_pos hfec]
    refine ⟨?_, ?_, ?_, ?_, ?_⟩
    · intro t ht
      obtain ⟨j, hj, rfl⟩ := List.mem_map.mp ht
      obtain ⟨hj, hv⟩ := List.mem_filter.mp hj
      have := hnn j (List.mem_range.mp hj)
      rwa [due, if_pos hv] at this
    · intro t ht
      obtain ⟨j, -, rfl⟩ := List.mem_map.mp ht
      rfl
    · rw [List.map_map]
      exact (List.map_id _).symm ▸ List.filter_sublist
    · rw [List.map_map]
      have hplain := sum_plain (List.range (dbaMap g.mode).nTc) (dbaMap g.mode) cfg bw onu
      change _ = onuDue (dbaMap g.mode) cfg bw onu at hplain
      refine le_trans (le_of_eq hplain) ?_
      omega
    · intro hhead
      exact plain_head hvalid (hhead hvalid (by simpa using hfec))
  · rw [not_not] at hfec
    simp only [hfec, not_true_eq_false, if_false]
    obtain ⟨hleast, htotal⟩ := fecList_aligned g honu hnn hsum
    set list := fecList (dbaMap g.mode) cfg bw onu with hlist
    refine ⟨?_, ?_, ?_, ?_, ?_⟩
    · intro t ht
      obtain ⟨p, hp, rfl⟩ := List.mem_map.mp ht
      have := hleast p.1 (List.fst_mem_of_mem_zipIdx hp)
      dsimp only
      omega
    · intro t ht
      obtain ⟨p, -, rfl⟩ := List.mem_map.mp ht
      rfl
    · rw [List.map_map]
      have hslots : list.zipIdx.map (Turn.slot ∘ fun p =>
          (⟨p.1, p.2, onu, true, fecAlign g list 0 bw p.1⟩ : Turn)) = List.range list.length := by
        rw [List.range_eq_range', ← List.zipIdx_map_snd]
        rfl
      rw [hslots, List.range_sublist]
      rw [(fecList_perm _ _ _ _).length_eq]
      refine (List.length_filter_le _ _).trans ?_
      rw [List.length_map, List.length_range]
    · have hbws : (list.zipIdx.map fun p =>
          (⟨p.1, p.2, onu, true, fecAlign g list 0 bw p.1⟩ : Turn)).map Turn.bw =
          list.map (fecAlign g list 0 bw) := by
        rw [List.map_map, ← congrArg (List.map (fecAlign g list 0 bw)) (List.zipIdx_map_fst 0 list),
          List.map_map]
        rfl
      rw [hbws]
      exact htotal
    · intro _ b hb
      cases hl : list with
      | nil =>
        rw [hl] at hb
        cases hb
      | cons i is =>
        have hi := hleast i (by rw [hl]; exact List.mem_cons_self)
        rw [hl] at hb hi
        rw [List.zipIdx_cons, List.map_cons, blocks_cons, if_neg (by dsimp only; omega)] at hb
        obtain rfl := Option.some.inj hb
        rfl

/-- A pass changes the grants of its own ONU only. -/
theorem due_onuTurns {onu' j : ℕ} (honu : onu < (dbaMap g.mode).nOnu)
    (honu' : onu' < (dbaMap g.mode).nOnu) (hne : onu' ≠ onu) :
    (onuTurns g cfg bw onu).1 (tcontIdx (dbaMap g.mode) onu' j) =
      bw (tcontIdx (dbaMap g.mode) onu' j) := by
  unfold onuTurns
  by_cases hvalid : ¬(cfg onu).valid
  · simp only [if_pos hvalid]
  by_cases hfec : ¬(cfg onu).fec
  · simp only [if_neg hvalid, if_pos hfec]
  · simp only [if_neg hvalid, if_neg hfec]
    refine fecAlign_of_not_mem _ _ _ fun hmem => hne ?_
    have hmem' := (List.mem_filter.mp ((fecList_perm _ _ _ _).mem_iff.mp hmem)).1
    obtain ⟨k, -, hk⟩ := List.mem_map.mp hmem'
    rw [tcontIdx_eq honu, tcontIdx_eq honu'] at hk
    -- an ONU is the rest of an index
    have hmod := congrArg (· % (dbaMap g.mode).nOnu) hk
    simpa [Nat.mod_eq_of_lt honu, Nat.mod_eq_of_lt honu'] using hmod.symm

/-! ## The whole map -/

/-- The slots of an ONU that pay -/
def payers (m : DbaMap) : ℕ := (List.range m.nTc).countP fun j => j % 4 = 0

/-- What blocks need: the grants, and an overhead for each slot that pays. -/
theorem need_blocks_le (guard : ℕ) (hnn : ∀ t ∈ ts, 0 ≤ t.bw) :
    (need guard (blocks ts) : ℤ) ≤
      (ts.map Turn.bw).sum + (guard * ts.countP (fun t => t.slot % 4 = 0) : ℕ) := by
  have hlen : ((((blocks ts).map Block.len).sum : ℕ) : ℤ) = (ts.map Turn.bw).sum := by
    induction ts with
    | nil => rfl
    | cons t ts ih =>
      have ht := hnn t List.mem_cons_self
      have hrest := ih fun u hu => hnn u (List.mem_cons_of_mem _ hu)
      rw [blocks_cons, List.map_cons, List.sum_cons, ← hrest]
      by_cases hz : t.bw = 0
      · rw [if_pos hz, hz, zero_add]
      · rw [if_neg hz, List.map_cons, List.sum_cons]
        push_cast
        exact congrArg (· + _) (Int.toNat_of_nonneg ht)
  have hpays : (blocks ts).countP Block.pays ≤ ts.countP (fun t => t.slot % 4 = 0) := by
    unfold blocks
    rw [List.countP_map]
    exact List.filter_sublist.countP_le
  have hmul := Nat.mul_le_mul_left guard hpays
  rw [need_eq, Nat.cast_add, hlen]
  omega

theorem countP_slots_le {m : DbaMap} (hslots : (ts.map Turn.slot).Sublist (List.range m.nTc)) :
    ts.countP (fun t => t.slot % 4 = 0) ≤ payers m := by
  have := hslots.countP_le (p := fun j => decide (j % 4 = 0))
  rwa [List.countP_map] at this

theorem blocks_append (ts ts' : List Turn) : blocks (ts ++ ts') = blocks ts ++ blocks ts' := by
  simp [blocks]

/-- What the turns of some ONUs need, and that they open. -/
structure Laid (m : DbaMap) (guard : ℕ) (cfg : Table) (bw : ℕ → ℤ) (onus : List ℕ)
    (ts : List Turn) : Prop where
  nonneg : ∀ t ∈ ts, 0 ≤ t.bw
  need : (need guard (blocks ts) : ℤ) ≤ (onus.map (onuDue m cfg bw)).sum +
    onus.length * ((guard * payers m : ℕ) + (21 * m.nTc + 18))
  opens : (∀ onu ∈ onus, Headed m cfg bw onu) → ∀ onu, Opens Turn.onu onu (blocks ts)

theorem turns_laid (g : Settings) (onus : List ℕ) (hnd : onus.Nodup)
    (honus : ∀ onu ∈ onus, onu < (dbaMap g.mode).nOnu)
    (hnn : ∀ onu ∈ onus, ∀ j < (dbaMap g.mode).nTc,
      0 ≤ due cfg bw (tcontIdx (dbaMap g.mode) onu j))
    (hsum : ∀ onu ∈ onus, 2 * onuDue (dbaMap g.mode) cfg bw onu < 2 ^ 16) :
    Laid (dbaMap g.mode) g.burstOvh cfg bw onus (turns g cfg bw onus) := by
  induction onus generalizing bw with
  | nil => exact ⟨by simp [turns], by simp [turns, blocks], fun _ _ => trivial⟩
  | cons onu onus ih =>
    obtain ⟨hnotin, hnd⟩ := List.nodup_cons.mp hnd
    obtain ⟨honu, honus⟩ := List.forall_mem_cons.mp honus
    obtain ⟨hnn1, hnn⟩ := List.forall_mem_cons.mp hnn
    obtain ⟨hsum1, hsum⟩ := List.forall_mem_cons.mp hsum
    have hhead := onuTurns_spec g honu hnn1 hsum1
    set bw' := (onuTurns g cfg bw onu).1 with hbw'
    -- the other ONUs are due what they were
    have hsame : ∀ o ∈ onus, ∀ j, bw' (tcontIdx (dbaMap g.mode) o j) =
        bw (tcontIdx (dbaMap g.mode) o j) := fun o ho j =>
      due_onuTurns honu (honus o ho) fun heq => hnotin (heq ▸ ho)
    have hdue : ∀ o ∈ onus, ∀ j, due cfg bw' (tcontIdx (dbaMap g.mode) o j) =
        due cfg bw (tcontIdx (dbaMap g.mode) o j) := fun o ho j => by
      rw [due, due, hsame o ho j]
    have honuDue : ∀ o ∈ onus, onuDue (dbaMap g.mode) cfg bw' o = onuDue (dbaMap g.mode) cfg bw o :=
      fun o ho => by simp only [onuDue, hdue o ho]
    have hrest := @ih bw' hnd honus (fun o ho j hj => by rw [hdue o ho]; exact hnn o ho j hj)
      (fun o ho => by rw [honuDue o ho]; exact hsum o ho)
    refine ⟨?_, ?_, ?_⟩
    · intro t ht
      rcases List.mem_append.mp ht with ht | ht
      · exact hhead.nonneg t ht
      · exact hrest.nonneg t ht
    · have hneed := need_blocks_le g.burstOvh hhead.nonneg
      have hpay := Nat.mul_le_mul_left g.burstOvh (countP_slots_le hhead.slots)
      have hhsum := hhead.sum
      have hrneed := hrest.need
      rw [List.map_congr_left honuDue] at hrneed
      rw [turns, ← hbw', blocks_append, need_append, List.map_cons, List.sum_cons, List.length_cons]
      rw [Nat.cast_add, Nat.cast_add, Nat.cast_one, add_mul, one_mul]
      omega
    · intro hheaded o
      obtain ⟨hheaded1, hheaded⟩ := List.forall_mem_cons.mp hheaded
      rw [turns, blocks_append]
      refine opens_append (k := onu) ?_ (hhead.head hheaded1) (hrest.opens ?_) o
      · intro b hb
        obtain ⟨t, ht, rfl⟩ := List.mem_map.mp hb
        exact hhead.owner t (List.mem_of_mem_filter ht)
      · intro o ho hv hf
        have := hheaded o ho hv hf
        rw [← tcontIdx_zero (dbaMap g.mode) o, hsame o ho, tcontIdx_zero]
        exact this.imp id fun hall j hj => by rw [hdue o ho]; exact hall j hj

/-- The dues of all ONUs are those of all valid T-CONTs. -/
theorem sum_onuDue (mode : ℕ) (cfg : Table) (bw : ℕ → ℤ) :
    ((List.range (dbaMap mode).nOnu).map (onuDue (dbaMap mode) cfg bw)).sum =
      ∑ i ∈ valids cfg allocNum, bw i := by
  have hset : ∑ i ∈ valids cfg allocNum, bw i = ((List.range allocNum).map (due cfg bw)).sum := by
    rw [valids, Finset.sum_filter, Finset.sum_eq_multiset_sum]
    exact Multiset.sum_coe _
  have hflat (onus : List ℕ) : (onus.map (onuDue (dbaMap mode) cfg bw)).sum =
      ((onus.flatMap fun onu => (List.range (dbaMap mode).nTc).map fun t => (onu, t)).map fun p =>
        due cfg bw (tcontIdx (dbaMap mode) p.1 p.2)).sum := by
    induction onus with
    | nil => rfl
    | cons onu onus ih =>
      rw [List.map_cons, List.sum_cons, ih, List.flatMap_cons, List.map_append, List.sum_append,
        List.map_map]
      rfl
  rw [hset, hflat, ← ((tconts_perm mode).map (due cfg bw)).sum_eq, List.map_map]
  rfl

/-- With every overhead an ONU can pay, the map takes less than 2^16. -/
theorem room_lt (mode : ℕ) {guard : ℕ} (hguard : guard ≤ 452) {x : ℤ} (hx : 2 * x < 2 ^ 16) :
    x + (dbaMap mode).nOnu * ((guard * payers (dbaMap mode) : ℕ) + (21 * (dbaMap mode).nTc + 18)) <
      2 ^ 16 := by
  have hpay : ∀ m ∈ [dbaMap 0, dbaMap 1, dbaMap 2, dbaMap 3], m.nOnu * payers m ≤ 64 ∧
      m.nOnu * (21 * m.nTc + 18) ≤ 3840 := by decide
  have hmem : dbaMap mode ∈ [dbaMap 0, dbaMap 1, dbaMap 2, dbaMap 3] := by
    rcases dbaMap_cases mode with h | h | h | h <;> rw [h] <;> simp [dbaMap]
  obtain ⟨hpayers, hfec⟩ := hpay _ hmem
  have hguards : (dbaMap mode).nOnu * (guard * payers (dbaMap mode)) ≤ 452 * 64 := by
    calc (dbaMap mode).nOnu * (guard * payers (dbaMap mode))
        = guard * ((dbaMap mode).nOnu * payers (dbaMap mode)) := Nat.mul_left_comm ..
      _ ≤ 452 * 64 := Nat.mul_le_mul hguard hpayers
  have hall : (dbaMap mode).nOnu *
      (guard * payers (dbaMap mode) + (21 * (dbaMap mode).nTc + 18)) ≤ 452 * 64 + 3840 := by
    rw [Nat.mul_add]
    exact Nat.add_le_add hguards hfec
  have hcast : ((dbaMap mode).nOnu : ℤ) *
      ((guard * payers (dbaMap mode) : ℕ) + (21 * (dbaMap mode).nTc + 18)) ≤ 452 * 64 + 3840 := by
    exact_mod_cast hall
  omega

theorem tcontIdx_lt {mode j : ℕ} (honu : onu < (dbaMap mode).nOnu) (hj : j < (dbaMap mode).nTc) :
    tcontIdx (dbaMap mode) onu j < allocNum := by
  rw [tcontIdx_eq honu, ← (dbaMap_fills mode).2]
  calc j * (dbaMap mode).nOnu + onu < (j + 1) * (dbaMap mode).nOnu := by
        rw [Nat.add_mul, Nat.one_mul]
        omega
    _ ≤ (dbaMap mode).nTc * (dbaMap mode).nOnu := Nat.mul_le_mul_right _ hj
    _ = (dbaMap mode).nOnu * (dbaMap mode).nTc := Nat.mul_comm ..

/-- For every table, map mode, OLT mode and FEC setting, and grants that
    fit 16 bits twice over: the map is the layout of its blocks, its
    entries are in order, disjoint and in the frame, and ONUs whose first
    T-CONT is granted something are a burst overhead apart. -/
theorem bwmap_geometry (g : Settings) (cfg : Table) (bw : ℕ → ℤ) (left : ℕ) (ctrl : BwmapCtrl)
    (hnn : ∀ i < allocNum, (cfg i).valid = true → 0 ≤ bw i)
    (hsum : 2 * ∑ i ∈ valids cfg allocNum, bw i < 2 ^ 16) (hovh : g.burstOvh ≤ 452) :
    let out := dbaBwmapSwitch g cfg bw left ctrl
    let placed := (place g.burstOvh 0 (blocks (plan g cfg bw))).filter shown
    List.Forall₂ (Entry.Shows cfg) out placed ∧
      (∀ e ∈ out, e.start < e.stop ∧ e.stop ≤ stopMax) ∧
      (out.Pairwise fun e e' => e.stop < e'.start) ∧
      ((∀ onu < (dbaMap g.mode).nOnu, Headed (dbaMap g.mode) cfg bw onu) →
        placed.Pairwise fun p q => p.tag.onu ≠ q.tag.onu → p.stop + g.burstOvh ≤ q.start) := by
  intro out placed
  have hdue : ∀ onu ∈ List.range (dbaMap g.mode).nOnu, ∀ j < (dbaMap g.mode).nTc,
      0 ≤ due cfg bw (tcontIdx (dbaMap g.mode) onu j) := by
    intro onu honu j hj
    have hidx := tcontIdx_lt (List.mem_range.mp honu) hj
    unfold due
    split_ifs with hv
    · exact hnn _ hidx hv
    · exact le_rfl
  have htotal := sum_onuDue g.mode cfg bw
  have hone : ∀ onu ∈ List.range (dbaMap g.mode).nOnu,
      2 * onuDue (dbaMap g.mode) cfg bw onu < 2 ^ 16 := by
    intro onu honu
    have hle : onuDue (dbaMap g.mode) cfg bw onu ≤ ∑ i ∈ valids cfg allocNum, bw i := by
      rw [← htotal]
      refine List.single_le_sum (fun x hx => ?_) _ (List.mem_map_of_mem honu)
      obtain ⟨o, ho, rfl⟩ := List.mem_map.mp hx
      exact onuDue_nonneg (hdue o ho)
    omega
  have hlaid := turns_laid g (List.range (dbaMap g.mode).nOnu) List.nodup_range
    (fun _ h => List.mem_range.mp h) hdue hone
  have hneed : (need g.burstOvh (blocks (plan g cfg bw)) : ℤ) ≤ _ := hlaid.need
  rw [htotal, List.length_range] at hneed
  have hroom := room_lt g.mode hovh hsum
  have hshows : List.Forall₂ (Entry.Shows cfg) out placed :=
    switch_shows left ctrl hlaid.nonneg (by omega)
  have hordered : placed.Pairwise fun p q => p.stop ≤ q.start :=
    (place_ordered g.burstOvh 0 (blocks (plan g cfg bw))).filter _
  refine ⟨hshows, ?_, ?_, ?_⟩
  · intro e he
    obtain ⟨p, hp, hep⟩ := exists_of_forall₂ hshows he
    have hin := of_decide_eq_true (List.mem_filter.mp hp).2
    have hstart := hep.start
    have hstop := hep.stop
    omega
  · refine pairwise_of_forall₂ hshows hordered fun e e' p q he he' hpq => ?_
    have hstop := he.stop
    have hstart := he'.start
    omega
  · intro hhead
    have hopens := hlaid.opens (fun onu honu => hhead onu (List.mem_range.mp honu)) 0
    refine (place_apart hopens ?_).filter _
    intro b hb
    obtain ⟨t, ht, rfl⟩ := List.mem_map.mp hb
    have hbw := of_decide_eq_true (List.mem_filter.mp ht).2
    have := hlaid.nonneg t (List.mem_filter.mp ht).1
    show 0 < t.bw.toNat
    omega

/-- T-CONT 0 and 1 of ONU 0 without FEC and of ONU 1 with it, in map
    mode 0. -/
def twoOnus : Table := fun i =>
  if i = 0 ∨ i = 32 then ⟨1, i, 4, 0, 0, 19340⟩
  else if i = 1 ∨ i = 33 then ⟨3, i, 4, 0, 0, 19340⟩
  else noTcont

def twoOnusBw : ℕ → ℤ := fun i => if i = 0 then 90 else if i = 1 then 237 else 500

/-- ONU 1 starts 64 units behind ONU 0; its T-CONT 0 has got 16 more
    units, which T-CONT 1 has paid. -/
theorem bwmap_geometry_two :
    let out := dbaBwmapSwitch ⟨64, 0, 0⟩ twoOnus twoOnusBw 4 ⟨false, false, false, 0, false, 0⟩
    let placed := (place 64 0 (blocks (plan ⟨64, 0, 0⟩ twoOnus twoOnusBw))).filter shown
    out.map (fun e => (e.start, e.stop)) = [(0, 89), (90, 589), (654, 906), (907, 1390)] ∧
      (out.Pairwise fun e e' => e.stop < e'.start) ∧
      placed.Pairwise fun p q => p.tag.onu ≠ q.tag.onu → p.stop + 64 ≤ q.start := by
  have h := bwmap_geometry ⟨64, 0, 0⟩ twoOnus twoOnusBw 4 ⟨false, false, false, 0, false, 0⟩
    (by decide) (by decide +kernel) (by decide)
  refine ⟨by decide +kernel, h.2.2.1, h.2.2.2 ?_⟩
  decide +kernel

/-- With nothing granted on its T-CONT 0, an ONU starts where the one
    before it stops. -/
theorem bwmap_unguarded :
    (dbaBwmapSwitch ⟨46, 0, 0⟩ (fun i => if i < 64 then ⟨1, i, 4, 0, 0, 19340⟩ else noTcont)
      (fun i => if i = 0 then 90 else if i = 33 then 500 else 0) 64
      ⟨false, false, false, 0, false, 0⟩).map (fun e => (e.start, e.stop)) =
    [(0, 89), (90, 589)] := by decide +kernel

end ClankerNPU.Dba
