import ClankerNPU.Dba.Geometry

/-! # Burst overhead

    The map step pays the burst overhead in the slots 0, 4, 8 and 12. As
    long as no position wraps, the bursts of two ONUs are the overhead
    apart exactly where such a slot is granted anything behind the last
    entry of the one, up to the first entry of the other, or where as many
    one-unit grants lie in between. -/

namespace ClankerNPU.Dba

open Layout

variable {g : Settings} {cfg : Table} {bw : ℕ → ℤ} {s : Bwmap} {t : Turn} {ts : List Turn}
  {onu pos : ℕ}

/-! ## Spots -/

/-- An entry in its place, and the ONU it is for. -/
structure Spot where
  start : ℕ
  stop : ℕ
  onu : ℕ

/-- Where a turn's entry is written. -/
def Turn.spot (g : Settings) (pos : ℕ) (t : Turn) : Spot :=
  ⟨entryStart g pos t.slot, u16 ((entryEnd g pos t.slot t.bw : ℤ) - 1), t.onu⟩

/-- The entries of the turns that fit. -/
def spots (g : Settings) : ℕ → List Turn → List Spot
  | _, [] => []
  | pos, t :: ts =>
    if t.Fits g pos then t.spot g pos :: spots g (t.next g pos) ts
    else spots g (t.next g pos) ts

/-- The ONU of each entry of a map -/
def entryOnus (g : Settings) (cfg : Table) (bw : ℕ → ℤ) : List ℕ :=
  (spots g 0 (plan g cfg bw)).map Spot.onu

/-- The entries lie in the frame, each behind the one before, and the
    bursts of different ONUs a guard apart. -/
structure Bursts (guard : ℕ) (out : List (Entry × ℕ)) : Prop where
  within : ∀ e ∈ out, e.1.start < e.1.stop ∧ e.1.stop ≤ stopMax
  ordered : out.Pairwise fun e e' => e.1.stop < e'.1.start
  apart : out.IsChain fun e e' => e.2 ≠ e'.2 → e.1.stop + guard ≤ e'.1.start

theorem takeTurn_spot (h : t.Fits g s.pos) : ∃ e, (takeTurn g cfg s t).out = s.out ++ [e] ∧
    e.start = (t.spot g s.pos).start ∧ e.stop = (t.spot g s.pos).stop := by
  obtain ⟨hbw, hstop, hstart⟩ := h
  unfold takeTurn dbaConfigBwmapHandler
  rw [if_neg hbw]
  simp only
  rw [if_neg (by omega), if_neg (by omega)]
  exact ⟨_, rfl, rfl, rfl⟩

theorem foldl_spots (g : Settings) (cfg : Table) (ts : List Turn) (s : Bwmap) :
    ∃ es, (ts.foldl (takeTurn g cfg) s).out = s.out ++ es ∧
      es.length = (spots g s.pos ts).length ∧
      (es.zip ((spots g s.pos ts).map Spot.onu)).map (fun e => ⟨e.1.start, e.1.stop, e.2⟩) =
        spots g s.pos ts := by
  induction ts generalizing s with
  | nil => exact ⟨[], (List.append_nil _).symm, rfl, rfl⟩
  | cons t ts ih =>
    obtain ⟨es, hout, hlen, hspots⟩ := ih (takeTurn g cfg s t)
    rw [takeTurn_pos] at hlen hspots
    unfold spots
    rw [List.foldl_cons, hout]
    by_cases hfit : t.Fits g s.pos
    · obtain ⟨e, hturn, hstart, hstop⟩ := @takeTurn_spot g cfg s t hfit
      rw [if_pos hfit, hturn, List.append_assoc]
      refine ⟨[e] ++ es, rfl, ?_, ?_⟩
      · rw [List.singleton_append, List.length_cons, List.length_cons, hlen]
      · rw [List.singleton_append, List.map_cons, List.zip_cons_cons, List.map_cons, hspots, hstart,
          hstop]
    · rw [if_neg hfit, (takeTurn_of_not hfit).1]
      exact ⟨es, rfl, hlen, hspots⟩

/-- The map's entries are the spots of its turns. -/
theorem switch_spots (g : Settings) (cfg : Table) (bw : ℕ → ℤ) (left : ℕ) (ctrl : BwmapCtrl) :
    (dbaBwmapSwitch g cfg bw left ctrl).length = (entryOnus g cfg bw).length ∧
      ((dbaBwmapSwitch g cfg bw left ctrl).zip (entryOnus g cfg bw)).map
        (fun e => (⟨e.1.start, e.1.stop, e.2⟩ : Spot)) = spots g 0 (plan g cfg bw) := by
  obtain ⟨es, hout, hlen, hspots⟩ := foldl_spots g cfg (plan g cfg bw) ⟨ctrl, 0, left, []⟩
  have heq : dbaBwmapSwitch g cfg bw left ctrl = es := by
    unfold dbaBwmapSwitch
    rw [foldl_switchOnu]
    exact hout
  rw [heq]
  exact ⟨by rw [hlen, entryOnus, List.length_map], hspots⟩

/-! ## Grants are not negative -/

/-- An aligned grant is not negative. -/
theorem alignStep_nonneg (olt : Bool) {acc : ℕ} {cur : ℤ} (last : Bool) (hacc : acc < 2 ^ 16)
    (hcur : cur < 2 ^ 16) : 0 ≤ (alignStep olt acc cur last).bw := by
  have hlow : ∃ b : ℤ, (if last = true ∧ (if cur ≤ 1 then 2 else cur) < 18 then 18
      else if cur ≤ 1 then 2 else cur) = b ∧ 2 ≤ b ∧ b < 2 ^ 16 ∧ (last = true → 18 ≤ b) := by
    refine ⟨_, rfl, ?_⟩
    cases last
    · simp only [Bool.false_eq_true, false_and, if_false, false_implies, and_true]
      split_ifs <;> omega
    · simp only [true_and, forall_const]
      split_ifs <;> omega
  obtain ⟨b, hb, htwo, hword, hlast⟩ := hlow
  unfold alignStep
  dsimp only
  rw [hb]
  cases olt with
  | true =>
    rw [if_pos rfl]
    unfold alignOlt
    dsimp only
    split_ifs
    all_goals first
      | exact Int.natCast_nonneg _
      | exact (by decide : (0 : ℤ) ≤ 2).trans htwo
  | false =>
    have hs : s32 ((acc : ℤ) + b + 2) = acc + b + 2 := by
      unfold s32
      omega
    have hs' : s32 ((acc : ℤ) + b + 3) = acc + b + 3 := by
      unfold s32
      omega
    unfold alignOnu
    rw [if_neg (by decide)]
    simp only [hs, hs', Int.tmod_eq_emod_of_nonneg (show 0 ≤ (acc : ℤ) + b + 2 by omega),
      Int.tmod_eq_emod_of_nonneg (show 0 ≤ (acc : ℤ) + b + 3 by omega)]
    generalize hr : ((acc : ℤ) + b + 2) % 255 = rem
    have hrem : 0 ≤ rem ∧ rem < 255 := by omega
    cases last with
    | true =>
      have := hlast rfl
      simp only [not_true_eq_false, if_true, if_false]
      split_ifs with hpar hshort
      · dsimp only
        omega
      · unfold u16 at hshort
        dsimp only
        omega
      · dsimp only
        omega
    | false =>
      simp only [Bool.false_eq_true, not_false_eq_true, if_true, if_false]
      split_ifs <;> (dsimp only; omega)

/-- Nor are the grants the FEC pass leaves. -/
theorem fecAlign_nonneg (g : Settings) (list : List ℕ) (acc : ℕ) (bw : ℕ → ℤ) (hnd : list.Nodup)
    (hacc : acc < 2 ^ 16) (hbw : ∀ j ∈ list, bw j < 2 ^ 16) :
    ∀ j ∈ list, 0 ≤ fecAlign g list acc bw j := by
  induction list generalizing acc bw with
  | nil => exact fun _ hj => absurd hj List.not_mem_nil
  | cons i is ih =>
    obtain ⟨hi, hnd'⟩ := List.nodup_cons.mp hnd
    have hcur := hbw i List.mem_cons_self
    cases is with
    | nil =>
      intro j hj
      rw [List.mem_singleton.mp hj, fecAlign_last, Function.update_self]
      exact alignStep_nonneg _ true hacc hcur
    | cons i' is =>
      have hii' : i ≠ i' := fun heq => hi (heq ▸ List.mem_cons_self)
      have hacc' : u16 (acc + (alignStep (g.oltMode ≠ 0) acc (bw i) false).len) < 2 ^ 16 := by
        unfold u16
        omega
      rw [fecAlign_next]
      intro j hj
      rcases List.mem_cons.mp hj with rfl | hj
      · -- the head keeps what the step gives it
        rw [fecAlign_of_not_mem _ _ _ hi, Function.update_of_ne hii', Function.update_self]
        exact alignStep_nonneg _ false hacc hcur
      · refine ih _ _ hnd' hacc' (fun k hk => ?_) j hj
        have hk' := hbw k (List.mem_cons_of_mem _ hk)
        by_cases hki : k = i'
        · rw [hki, Function.update_self, Function.update_of_ne hii'.symm]
          rw [hki] at hk'
          omega
        · rw [Function.update_of_ne hki, Function.update_of_ne fun heq : k = i => hi (heq ▸ hk)]
          exact hk'

/-- Grants of 16 bits make turns that are not negative. -/
theorem turns_nonneg (g : Settings) (onus : List ℕ) (hnd : onus.Nodup)
    (honus : ∀ onu ∈ onus, onu < (dbaMap g.mode).nOnu)
    (hbw : ∀ onu ∈ onus, ∀ j < (dbaMap g.mode).nTc,
      (cfg (tcontIdx (dbaMap g.mode) onu j)).valid = true →
        0 ≤ bw (tcontIdx (dbaMap g.mode) onu j) ∧ bw (tcontIdx (dbaMap g.mode) onu j) < 2 ^ 16) :
    ∀ t ∈ turns g cfg bw onus, 0 ≤ t.bw := by
  induction onus generalizing bw with
  | nil => exact fun _ ht => absurd ht List.not_mem_nil
  | cons onu onus ih =>
    obtain ⟨hnotin, hnd⟩ := List.nodup_cons.mp hnd
    obtain ⟨honu, honus⟩ := List.forall_mem_cons.mp honus
    obtain ⟨hbw1, hbw⟩ := List.forall_mem_cons.mp hbw
    intro t ht
    rcases List.mem_append.mp ht with ht | ht
    · unfold onuTurns at ht
      by_cases hvalid : ¬(cfg onu).valid
      · simp only [if_pos hvalid] at ht
        cases ht
      · simp only [if_neg hvalid] at ht
        by_cases hfec : ¬(cfg onu).fec
        · simp only [if_pos hfec] at ht
          obtain ⟨j, hj, rfl⟩ := List.mem_map.mp ht
          obtain ⟨hj, hv⟩ := List.mem_filter.mp hj
          exact (hbw1 j (List.mem_range.mp hj) hv).1
        · simp only [if_neg hfec] at ht
          obtain ⟨p, hp, rfl⟩ := List.mem_map.mp ht
          refine fecAlign_nonneg g _ 0 bw (fecList_nodup g.mode cfg bw honu).1 (by decide) ?_ p.1
            (List.fst_mem_of_mem_zipIdx hp)
          intro i hi
          obtain ⟨hi, hgrant⟩ :=
            List.mem_filter.mp ((fecList_perm (dbaMap g.mode) cfg bw onu).mem_iff.mp hi)
          obtain ⟨j, hj, rfl⟩ := List.mem_map.mp hi
          exact (hbw1 j (List.mem_range.mp hj) (of_decide_eq_true hgrant).1).2
    · -- the other ONUs are due what they were
      refine ih hnd honus (fun o ho j hj hv => ?_) t ht
      rw [due_onuTurns honu (honus o ho) fun heq => hnotin (heq ▸ ho)]
      exact hbw o ho j hj hv

/-! ## What lies between two bursts -/

/-- No position wraps. -/
def Unwrapped (g : Settings) : ℕ → List Turn → Prop
  | _, [] => True
  | pos, t :: ts =>
    (t.bw ≠ 0 → t.block.stop g.burstOvh pos < 2 ^ 16) ∧ Unwrapped g (t.next g pos) ts

/-- From the last entry, of some ONU, and the grants left out since: an
    entry of another ONU finds a slot granted that pays the overhead, or
    as many grants left out as the overhead has units, less one. -/
def Guarded (g : Settings) : ℕ → Option ℕ → List Turn → List Turn → Prop
  | _, _, _, [] => True
  | pos, last, since, t :: ts =>
    if t.Fits g pos then
      (∀ onu ∈ last, onu ≠ t.onu →
          (∃ u ∈ t :: since, u.slot % 4 = 0) ∨ g.burstOvh ≤ since.length + 1) ∧
        Guarded g (t.next g pos) (some t.onu) [] ts
    else Guarded g (t.next g pos) last (if t.bw = 0 then since else t :: since) ts

instance decidableUnwrapped (g : Settings) : ∀ pos ts, Decidable (Unwrapped g pos ts)
  | _, [] => inferInstanceAs (Decidable True)
  | pos, t :: ts =>
    have := decidableUnwrapped g (t.next g pos) ts
    inferInstanceAs (Decidable (_ ∧ _))

instance decidableGuarded (g : Settings) :
    ∀ pos last since ts, Decidable (Guarded g pos last since ts)
  | _, _, _, [] => inferInstanceAs (Decidable True)
  | pos, last, since, t :: ts =>
    have := decidableGuarded g (t.next g pos) (some t.onu) [] ts
    have := decidableGuarded g (t.next g pos) last (if t.bw = 0 then since else t :: since) ts
    inferInstanceAs (Decidable (ite _ (_ ∧ _) _))

/-- Where no position wraps, a turn with a grant starts behind the overhead
    it pays, and its entry stops at the end of its block. -/
theorem turn_spot (hnn : 0 ≤ t.bw) (hroom : t.block.stop g.burstOvh pos < 2 ^ 16) :
    ∃ start, entryStart g pos t.slot = start ∧
      entryEnd g pos t.slot t.bw = start + t.bw.toNat ∧ start + t.bw.toNat < 2 ^ 16 ∧
      start = pos + if t.slot % 4 = 0 ∧ pos ≠ 0 then g.burstOvh else 0 := by
  obtain ⟨hstart, hend⟩ := turn_block hnn hroom
  refine ⟨_, hstart, hend, hroom, ?_⟩
  unfold Block.start Turn.block
  simp only [decide_eq_true_eq]
  split_ifs <;> rfl

/-- The position is behind the last entry: by the overheads paid and the
    grants left out since, as long as another entry can follow. -/
def Behind (g : Settings) (pos : ℕ) (last : Option Spot) (since : List Turn) : Prop :=
  ∀ q ∈ last, 0 < pos ∧ (pos ≤ stopMax →
    pos = q.stop + 1 + g.burstOvh * since.countP (fun u => u.slot % 4 = 0) + since.length)

theorem not_fits (h : t.bw = 0) : ¬t.Fits g pos := fun hfit => hfit.1 h

/-- The bursts are apart exactly where the overhead is made up. -/
theorem apart_iff {last : Option Spot} {since : List Turn} (hnn : ∀ t ∈ ts, 0 ≤ t.bw)
    (hun : Unwrapped g pos ts) (hb : Behind g pos last since) :
    (last.toList ++ spots g pos ts).IsChain
        (fun p q => p.onu ≠ q.onu → p.stop + g.burstOvh ≤ q.start) ↔
      Guarded g pos (last.map Spot.onu) since ts := by
  induction ts generalizing pos last since with
  | nil => cases last <;> simp [spots, Guarded]
  | cons t ts ih =>
    have hrest := fun u hu => hnn u (List.mem_cons_of_mem _ hu)
    have hnn := hnn t List.mem_cons_self
    obtain ⟨hroom, hun⟩ := hun
    unfold spots Guarded
    by_cases hbw : t.bw = 0
    · have hnext : t.next g pos = pos := if_pos hbw
      rw [if_neg (not_fits hbw), if_neg (not_fits hbw), if_pos hbw]
      exact ih hrest hun (by rw [hnext]; exact hb)
    obtain ⟨start, hstart, hend, hword, hpays⟩ := turn_spot hnn (hroom hbw)
    have hnext : t.next g pos = start + t.bw.toNat := (if_neg hbw).trans hend
    have hstop : u16 ((entryEnd g pos t.slot t.bw : ℤ) - 1) + 1 = start + t.bw.toNat := by
      rw [hend]
      unfold u16
      omega
    have hpos : pos ≤ start := by omega
    by_cases hfit : t.Fits g pos
    · rw [if_pos hfit, if_pos hfit]
      obtain ⟨-, hmax, hless⟩ := hfit
      rw [hstart] at hless
      have hbehind : Behind g (t.next g pos) (some (t.spot g pos)) [] := by
        intro q hq
        obtain rfl := Option.some.inj hq
        rw [hnext, ← hstop]
        exact ⟨Nat.succ_pos _, fun _ => by simp [Turn.spot]⟩
      have hih := ih hrest hun hbehind
      rw [Option.toList_some, List.singleton_append] at hih
      cases last with
      | none => simpa [Turn.spot] using hih
      | some q =>
        obtain ⟨h0, hq⟩ := hb q rfl
        have hq := hq (by omega)
        rw [Option.toList_some, List.singleton_append, List.isChain_cons_cons, hih]
        refine and_congr_left fun _ => ?_
        -- what lies between is paid for, or left out
        have hmem : (∃ u ∈ t :: since, u.slot % 4 = 0) ↔
            t.slot % 4 = 0 ∨ 0 < since.countP (fun u => u.slot % 4 = 0) := by
          simp [List.countP_pos_iff]
        have hspot : (t.spot g pos).start = start := hstart
        simp only [Option.map_some, Option.mem_some_iff, forall_eq', hmem, hspot]
        refine imp_congr_right fun _ => ?_
        by_cases hslot : t.slot % 4 = 0
        · rw [if_pos ⟨hslot, h0.ne'⟩] at hpays
          exact iff_of_true (by show q.stop + g.burstOvh ≤ start; omega) (.inl (.inl hslot))
        · rw [if_neg fun h => hslot h.1, Nat.add_zero] at hpays
          rcases Nat.eq_zero_or_pos (since.countP fun u => u.slot % 4 = 0) with hz | hz
          · rw [hz, Nat.mul_zero] at hq
            rw [hz]
            simp only [hslot, lt_irrefl, false_or]
            show q.stop + g.burstOvh ≤ start ↔ _
            omega
          · have hpaid := Nat.le_mul_of_pos_right g.burstOvh hz
            exact iff_of_true (by show q.stop + g.burstOvh ≤ start; omega) (.inl (.inr hz))
    · rw [if_neg hfit, if_neg hfit, if_neg hbw]
      refine ih hrest hun fun q hq => ?_
      obtain ⟨h0, hq⟩ := hb q hq
      refine ⟨by omega, fun hle => ?_⟩
      rw [hnext] at hle ⊢
      have hone : t.bw.toNat = 1 := by
        by_contra hno
        exact hfit ⟨hbw, by omega, by omega⟩
      have hq := hq (by omega)
      rw [List.countP_cons, List.length_cons, hone, hpays, Nat.mul_add]
      by_cases hslot : t.slot % 4 = 0
      · simp only [hslot, decide_true, if_true, true_and, h0.ne', ne_eq, not_false_eq_true]
        omega
      · simp only [hslot, decide_false, false_and, if_false, Bool.false_eq_true]
        omega

/-- Spots are in order, behind the position. -/
theorem spots_ordered (hnn : ∀ t ∈ ts, 0 ≤ t.bw) (hun : Unwrapped g pos ts) :
    (∀ p ∈ spots g pos ts, pos ≤ p.start ∧ p.start < p.stop ∧ p.stop ≤ stopMax) ∧
      (spots g pos ts).Pairwise fun p q => p.stop < q.start := by
  induction ts generalizing pos with
  | nil => exact ⟨fun _ hp => absurd hp List.not_mem_nil, .nil⟩
  | cons t ts ih =>
    have hrest := fun u hu => hnn u (List.mem_cons_of_mem _ hu)
    have hnn := hnn t List.mem_cons_self
    obtain ⟨hroom, hun⟩ := hun
    obtain ⟨hall, hord⟩ := ih hrest hun
    unfold spots
    by_cases hbw : t.bw = 0
    · have hnext : t.next g pos = pos := if_pos hbw
      rw [if_neg (not_fits hbw)]
      rw [hnext] at hall hord ⊢
      exact ⟨hall, hord⟩
    obtain ⟨start, hstart, hend, hword, hpays⟩ := turn_spot hnn (hroom hbw)
    have hnext : t.next g pos = start + t.bw.toNat := (if_neg hbw).trans hend
    have hstop : u16 ((entryEnd g pos t.slot t.bw : ℤ) - 1) + 1 = start + t.bw.toNat := by
      rw [hend]
      unfold u16
      omega
    have hlater : ∀ p ∈ spots g (t.next g pos) ts, start + t.bw.toNat ≤ p.start ∧
        p.start < p.stop ∧ p.stop ≤ stopMax := by
      rw [← hnext]
      exact hall
    by_cases hfit : t.Fits g pos
    · obtain ⟨-, hmax, hless⟩ := hfit
      rw [if_pos ⟨hbw, hmax, hless⟩]
      refine ⟨fun p hp => ?_, .cons (fun p hp => ?_) hord⟩
      · rcases List.mem_cons.mp hp with rfl | hp
        · refine ⟨?_, hless, hmax⟩
          show pos ≤ entryStart g pos t.slot
          omega
        · obtain ⟨hlow, hin⟩ := hlater p hp
          exact ⟨by omega, hin⟩
      · have := (hlater p hp).1
        show u16 ((entryEnd g pos t.slot t.bw : ℤ) - 1) < p.start
        omega
    · rw [if_neg hfit]
      refine ⟨fun p hp => ?_, hord⟩
      obtain ⟨hlow, hin⟩ := hlater p hp
      exact ⟨by omega, hin⟩

/-! ## The whole map -/

/-- As long as no position wraps, a map has its entries in the frame and in
    order; its bursts are the overhead apart exactly where that is made
    up. -/
theorem bwmap_bursts_iff (g : Settings) (cfg : Table) (bw : ℕ → ℤ) (left : ℕ) (ctrl : BwmapCtrl)
    (hbw : ∀ i < allocNum, (cfg i).valid = true → 0 ≤ bw i ∧ bw i < 2 ^ 16)
    (hroom : Unwrapped g 0 (plan g cfg bw)) :
    (dbaBwmapSwitch g cfg bw left ctrl).length = (entryOnus g cfg bw).length ∧
      (Bursts g.burstOvh ((dbaBwmapSwitch g cfg bw left ctrl).zip (entryOnus g cfg bw)) ↔
        Guarded g 0 none [] (plan g cfg bw)) := by
  obtain ⟨hlen, hspots⟩ := switch_spots g cfg bw left ctrl
  have hnn : ∀ t ∈ plan g cfg bw, 0 ≤ t.bw := by
    refine turns_nonneg g _ List.nodup_range (fun _ h => List.mem_range.mp h) ?_
    intro onu honu j hj hv
    exact hbw _ (tcontIdx_lt (List.mem_range.mp honu) hj) hv
  obtain ⟨hall, hord⟩ := spots_ordered hnn hroom
  have hiff := @apart_iff g _ 0 none [] hnn hroom fun _ h => by cases h
  rw [Option.toList_none, List.nil_append, ← hspots, List.isChain_map] at hiff
  rw [← hspots, List.pairwise_map] at hord
  rw [← hspots] at hall
  refine ⟨hlen, Iff.trans ⟨fun h => h.apart, fun h => ⟨?_, hord, h⟩⟩ hiff⟩
  intro e he
  exact (hall _ (List.mem_map_of_mem he)).2

/-- T-CONT 0 and 1 of ONUs 0, 1 and 2 in map mode 0, ONU 1 with FEC -/
def threeOnus : Table := fun i =>
  if i % 32 = 1 ∧ i < 64 then ⟨3, i, 4, 0, 0, 19340⟩
  else if i % 32 < 3 ∧ i < 64 then ⟨1, i, 4, 0, 0, 19340⟩
  else noTcont

/-- T-CONT 0 of ONU 2 has one unit. -/
def threeOnusBw : ℕ → ℤ := fun i =>
  if i = 0 then 90 else if i = 2 then 1 else if i < 32 then 237 else 500

/-- The T-CONT without an entry pays the overhead for its ONU. -/
theorem bwmap_bursts_three :
    let out := dbaBwmapSwitch ⟨64, 0, 0⟩ threeOnus threeOnusBw 6 ⟨false, false, false, 0, false, 0⟩
    (out.map (fun e => (e.start, e.stop)), entryOnus ⟨64, 0, 0⟩ threeOnus threeOnusBw) =
        ([(0, 89), (90, 589), (654, 906), (907, 1390), (1456, 1955)], [0, 0, 1, 1, 2]) ∧
      Bursts 64 (out.zip (entryOnus ⟨64, 0, 0⟩ threeOnus threeOnusBw)) := by
  have h := bwmap_bursts_iff ⟨64, 0, 0⟩ threeOnus threeOnusBw 6
    ⟨false, false, false, 0, false, 0⟩ (by decide +kernel) (by decide +kernel)
  exact ⟨by decide +kernel, h.2.mpr (by decide +kernel)⟩

/-- With nothing granted on its T-CONT 0, ONU 1 starts where ONU 0 stops;
    and a position that wraps comes back over an entry. -/
theorem bwmap_bursts_fail :
    let cfg : Table := fun i => if i = 0 ∨ i = 1 ∨ i = 32 ∨ i = 33 ∨ i = 64 then
      ⟨1, i, 4, 0, 0, 19340⟩ else noTcont
    let unpaid : ℕ → ℤ := fun i => if i = 0 then 90 else if i = 33 then 500 else 0
    let long : ℕ → ℤ := fun i =>
      if i = 0 then 1000 else if i = 32 then 64600 else if i = 64 then 500 else 0
    let out bw := (dbaBwmapSwitch ⟨46, 0, 0⟩ cfg bw 5 ⟨false, false, false, 0, false, 0⟩).zip
      (entryOnus ⟨46, 0, 0⟩ cfg bw)
    ¬Bursts 46 (out unpaid) ∧ ¬Bursts 46 (out long) := by
  refine ⟨fun h => ?_, fun h => ?_⟩
  · have hapart := h.apart
    revert hapart
    decide +kernel
  · have hordered := h.ordered
    revert hordered
    decide +kernel

end ClankerNPU.Dba
