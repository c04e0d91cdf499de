import ClankerNPU.Dba.Frame
import Mathlib.Data.List.Perm.Subperm

/-! # The ONU list of the new DBA

    The new DBA is switched on by a count over the first T-CONTs of the
    ONUs, and its map lists the ONUs by all of theirs. The list has room
    for four. -/

namespace ClankerNPU.Dba

variable {s : Core} {m : DbaMap} {cfg : Table}

/-- `bw[onu]` of `dba_new_bwmap_switch` -/
def onuGrants (m : DbaMap) (cfg : Table) (alloc : ℕ → Alloc) (onu : ℕ) : ℕ :=
  (((List.range m.nTc).filter fun t => (cfg (tcontIdx m onu t)).valid).map fun t =>
    u32 (alloc (tcontIdx m onu t)).curBw).sum % 2 ^ 32

/-- `order` of `dba_new_bwmap_switch`, the ONUs by growing grant -/
def newOrder (m : DbaMap) (cfg : Table) (alloc : ℕ → Alloc) : List ℕ :=
  (List.range m.nOnu).foldl (fun order onu =>
    if owns m cfg onu then listIn (fun o => onuGrants m cfg alloc o) order onu else order) []

/-- The list the map of a frame begins with. -/
def Core.order (s : Core) : List ℕ :=
  newOrder (dbaMap s.dba.tcont.mode) s.dba.run s.alloc

/-- The ONUs with a valid T-CONT -/
def owners (m : DbaMap) (cfg : Table) : List ℕ := (List.range m.nOnu).filter (owns m cfg)

/-- The ONUs whose T-CONT 0 is valid -/
def leaders (m : DbaMap) (cfg : Table) : List ℕ :=
  (List.range m.nOnu).filter fun onu => (cfg onu).valid

/-- Every ONU with a valid T-CONT in the map mode that is set has its
    T-CONT 0 valid in the map mode that is in force. -/
def Core.Led (s : Core) : Prop :=
  ∀ onu ∈ owners (dbaMap s.dba.tcont.mode) s.dba.run, onu ∈ leaders (dbaMap s.dba.mode) s.dba.run

/-! ## The list -/

/-- The list has every ONU with a valid T-CONT once. -/
theorem length_newOrder (m : DbaMap) (cfg : Table) (alloc : ℕ → Alloc) :
    (newOrder m cfg alloc).length = (owners m cfg).length := by
  unfold newOrder owners
  rw [← List.countP_eq_length_filter]
  suffices h : ∀ (l order : List ℕ), (l.foldl (fun order onu =>
      if owns m cfg onu then listIn (fun o => onuGrants m cfg alloc o) order onu else order)
        order).length = order.length + l.countP (owns m cfg) by
    rw [h, List.length_nil, Nat.zero_add]
  intro l
  induction l with
  | nil => exact fun _ => rfl
  | cons onu l ih =>
    intro order
    rw [List.foldl_cons, ih]
    by_cases ho : owns m cfg onu = true
    · rw [if_pos ho, (listIn_perm _ _ _).length_eq, List.length_cons, List.countP_cons_of_pos ho]
      omega
    · rw [if_neg ho, List.countP_cons_of_neg ho]

theorem tcontIdx_zero (m : DbaMap) (onu : ℕ) : tcontIdx m onu 0 = onu := by
  unfold tcontIdx
  rw [Nat.zero_shiftLeft, Nat.zero_or]

theorem nTc_pos (mode : ℕ) : 0 < (dbaMap mode).nTc := by
  rcases dbaMap_cases mode with h | h | h | h <;> rw [h] <;> decide

/-- An ONU whose T-CONT 0 is valid has a valid T-CONT. -/
theorem leaders_subset (mode : ℕ) (cfg : Table) :
    leaders (dbaMap mode) cfg ⊆ owners (dbaMap mode) cfg := by
  intro onu honu
  obtain ⟨hr, hv⟩ := List.mem_filter.mp honu
  refine List.mem_filter.mpr ⟨hr, List.any_eq_true.mpr ⟨0, List.mem_range.mpr (nTc_pos mode), ?_⟩⟩
  rw [tcontIdx_zero]
  exact hv

theorem nodup_owners (m : DbaMap) (cfg : Table) : (owners m cfg).Nodup :=
  List.nodup_range.filter _

theorem nodup_leaders (m : DbaMap) (cfg : Table) : (leaders m cfg).Nodup :=
  List.nodup_range.filter _

/-! ## The switch -/

/-- The new DBA is on with four ONUs of the map mode in force, and a map
    mode that is not in force waits for the next frame or finds no valid
    T-CONT. -/
structure Core.Four (s : Core) : Prop where
  act : s.newAct = true → (leaders (dbaMap s.dba.mode) s.dba.run).length = 4
  mode : s.dba.tcont.changed = false →
    s.dba.tcont.mode = s.dba.mode ∨ ∀ i, (s.dba.run i).valid = false

theorem leaders_nil (m : DbaMap) (h : ∀ i, (cfg i).valid = false) : leaders m cfg = [] := by
  refine List.filter_eq_nil_iff.mpr fun onu _ => ?_
  rw [h onu]
  exact Bool.false_ne_true

theorem four_boot (v : ℕ) : (core5DbaMain v).Four := by
  constructor
  · intro h
    cases h
  · intro _
    right
    have hcfg (i : ℕ) : ((core5DbaMain v).dba.tcont.cfg i).valid = false := by
      show ((dbaTcontInit v ⟨false, 0, fun _ => noTcont⟩).cfg i).valid = false
      rw [dbaTcontInit_cfg]
      refine foldl_update_keeps (fun c => c.valid = false) _ _ _ ?_ (fun _ => rfl) i
      intro p c hc
      unfold TcontCfg.valid tcontDefault
      dsimp only
      refine decide_eq_false ?_
      omega
    intro i
    show (if i < allocNum then (core5DbaMain v).dba.tcont.cfg i else noTcont).valid = false
    split_ifs
    · exact hcfg i
    · rfl

/-- A mail leaves the contexts and the switch. -/
theorem mail_keeps (s : Core) (m : HostMail) :
    (s.mail m).newAct = s.newAct ∧ (s.mail m).dba.run = s.dba.run ∧
      (s.mail m).dba.mode = s.dba.mode ∧
      ((s.mail m).dba.tcont.changed = false →
        s.dba.tcont.changed = false ∧ (s.mail m).dba.tcont.mode = s.dba.tcont.mode) := by
  have hset (t : Core) : (m.set t).newAct = t.newAct ∧ (m.set t).dba = t.dba := by
    cases m with
    | oltMode mode =>
      unfold HostMail.set
      dsimp only
      split_ifs <;> exact ⟨rfl, rfl⟩
    | _ => exact ⟨rfl, rfl⟩
  unfold Core.mail
  rw [(hset _).1, (hset _).2]
  cases m.table with
  | none => exact ⟨rfl, rfl, rfl, fun h => ⟨h, rfl⟩⟩
  | some t =>
    refine ⟨rfl, rfl, rfl, fun h => ?_⟩
    obtain ⟨hch, ht⟩ := Bool.or_eq_false_iff.mp h
    refine ⟨hch, ?_⟩
    -- a mail that names a map mode counts as a change
    show t.newMode.getD _ = _
    cases hmode : t.newMode with
    | none => rfl
    | some k => exact absurd ht (by rw [(Mail.edit_of_mode (fun _ => noTcont) 0 hmode).2]; decide)

theorem dbaNewModeUpdate_act (s : Core) (h : (dbaNewModeUpdate s).newAct = true) :
    (leaders (dbaMap s.dba.tcont.mode) s.dba.run).length = 4 :=
  (of_decide_eq_true h).1

/-- A frame takes over the new DBA's switch by the map mode in force. -/
theorem four_takeMode (hs : s.Four) :
    (s.takeMode.newAct = true → s.dba.tcont.changed = false →
      (leaders (dbaMap s.dba.mode) s.dba.run).length = 4) ∧ s.takeMode.dba = s.dba := by
  unfold Core.takeMode
  split_ifs
  · refine ⟨fun hn hch => ?_, rfl⟩
    have hfour := dbaNewModeUpdate_act s hn
    rcases hs.mode hch with hmode | hnone
    · rw [← hmode]
      exact hfour
    · rw [leaders_nil _ hnone] at hfour
      cases hfour
  · exact ⟨fun hn _ => hs.act hn, rfl⟩

theorem dbaFrameHandler_settled (d : DbaData) (v : ℕ) (hen : d.getTimerEn ≠ 0)
    (hch : d.tcont.changed = true) :
    (dbaFrameHandler d v).tcont.mode = (dbaFrameHandler d v).mode := by
  unfold dbaFrameHandler
  rw [if_pos ⟨hen, hch⟩]
  split_ifs with hmode
  · rfl
  · exact not_not.mp hmode

theorem four_takeTable (v : ℕ) (hen : s.dba.getTimerEn ≠ 0)
    (hact : s.newAct = true → s.dba.tcont.changed = false →
      (leaders (dbaMap s.dba.mode) s.dba.run).length = 4)
    (hmode : s.dba.tcont.changed = false →
      s.dba.tcont.mode = s.dba.mode ∨ ∀ i, (s.dba.run i).valid = false) :
    (s.takeTable v).Four := by
  unfold Core.takeTable
  by_cases hch : s.dba.tcont.changed = true
  · rw [if_pos hch]
    have hset := dbaFrameHandler_settled s.dba v hen hch
    have hfour : (dbaNewModeUpdate { s with dba := dbaFrameHandler s.dba v }).Four := by
      constructor
      · intro hn
        have h4 := dbaNewModeUpdate_act { s with dba := dbaFrameHandler s.dba v } hn
        dsimp only at h4
        rw [hset] at h4
        exact h4
      · exact fun _ => .inl hset
    dsimp only
    split_ifs
    · exact ⟨hfour.act, hfour.mode⟩
    · exact ⟨hfour.act, hfour.mode⟩
    · exact hfour
  · rw [if_neg hch]
    have hch' := Bool.eq_false_iff.mpr hch
    exact ⟨fun hn => hact hn hch', hmode⟩

theorem four_drain (hs : s.Four) (f : Frame) : (s.drain f).Four := by
  unfold Core.drain
  split_ifs with hen
  · obtain ⟨hact, hdba⟩ := four_takeMode hs
    have htable : (s.takeMode.takeTable f.mapMode).Four := by
      apply four_takeTable
      · rw [hdba]
        exact hen
      · rw [hdba]
        exact hact
      · rw [hdba]
        exact hs.mode
    exact ⟨htable.act, htable.mode⟩
  · exact hs

theorem four_step (a : CoreAct) (hs : s.Four) : (s.next a).Four := by
  cases a with
  | mail m =>
    obtain ⟨hact, hrun, hmode, hch⟩ := mail_keeps s m
    constructor
    · intro hn
      show (leaders (dbaMap (s.mail m).dba.mode) (s.mail m).dba.run).length = 4
      rw [hrun, hmode]
      exact hs.act (hact ▸ hn)
    · intro hc
      obtain ⟨hc, hm⟩ := hch hc
      show (s.mail m).dba.tcont.mode = (s.mail m).dba.mode ∨ _
      rw [hm, hmode]
      refine (hs.mode hc).imp_right fun h i => ?_
      show ((s.mail m).dba.run i).valid = false
      rw [hrun]
      exact h i
  | frame f =>
    have hd := four_drain hs f
    show (s.frame f).Four
    unfold Core.frame
    dsimp only
    split_ifs
    · exact ⟨hd.act, hd.mode⟩
    · exact ⟨hd.act, hd.mode⟩

theorem four_of_reachable (h : core5.Reachable s) : s.Four := by
  have hinit : ∀ s, core5.init s → s.Four := by
    rintro _ ⟨v, rfl⟩
    exact four_boot v
  refine h.invariant hinit ?_
  rintro s a _ hs rfl
  exact four_step a hs

/-- At a two-frame map the list has at most four ONUs if each of its ONUs
    has its T-CONT 0 valid, and only if, where no map mode is pending. -/
theorem newOrder_fits (s : Core) (f : Frame) (h : core5.Reachable s)
    (hnew : (s.drain f).newAct = true) :
    ((s.drain f).Led → (s.drain f).request.order.length ≤ 4) ∧
      ((s.drain f).dba.tcont.mode = (s.drain f).dba.mode →
        (s.drain f).request.order.length ≤ 4 → (s.drain f).Led) := by
  have hfour := (four_drain (four_of_reachable h) f).act hnew
  have hlen : (s.drain f).request.order.length =
    (owners (dbaMap (s.drain f).dba.tcont.mode) (s.drain f).dba.run).length := length_newOrder _ _ _
  rw [hlen]
  constructor
  · intro hled
    rw [← hfour]
    exact ((nodup_owners _ _).subperm hled).length_le
  · intro hmode hle onu honu
    -- the four leaders are among at most four owners, so they are all of them
    have hsub : leaders (dbaMap (s.drain f).dba.mode) (s.drain f).dba.run ⊆
        owners (dbaMap (s.drain f).dba.tcont.mode) (s.drain f).dba.run := by
      rw [hmode]
      exact leaders_subset _ _
    have hperm := ((nodup_leaders _ _).subperm hsub).perm_of_length_le (by rw [hfour]; exact hle)
    exact hperm.mem_iff.mpr honu

/-- Four ONUs with a valid T-CONT 0, by the host's mails and one frame. -/
def fourOnus (more : List HostMail) : Core :=
  let mails : List HostMail :=
    [.timerEn 1 1, .tcontState (tcontOf 0) 1, .tcontState (tcontOf 1) 1,
      .tcontState (tcontOf 2) 1, .tcontState (tcontOf 3) 1]
  ((mails ++ more).foldl Core.mail (core5DbaMain 0)).frame ⟨0, [], fun _ => 0⟩

theorem fourOnus_reachable (more : List HostMail) : core5.Reachable (fourOnus more) :=
  .step (.frame _) (.of_guarded
    (reachable_mails (G := fun _ _ => True) (fun _ _ => trivial) _ (.init ⟨0, rfl⟩))) rfl

theorem newOrder_fits_four :
    ((fourOnus []).drain ⟨0, [], fun _ => 0⟩).request.order.length ≤ 4 :=
  (newOrder_fits _ _ (fourOnus_reachable []) (by decide +kernel)).1 (by
    unfold Core.Led
    decide +kernel)

/-- A fifth ONU, with T-CONT 1 alone -/
def fifthOnu : List HostMail := [.tcontState (tcontOf 36) 1]

/-- The fifth ONU does not count for the switch, but it is in the list. -/
theorem newOrder_five :
    ¬∀ (s : Core) (f : Frame), core5.Reachable s → (s.drain f).writes →
      (s.drain f).newAct = true → (s.drain f).request.order.length ≤ 4 := by
  intro hall
  have hle := hall _ ⟨0, [], fun _ => 0⟩ (fourOnus_reachable fifthOnu)
    (by decide +kernel) (by decide +kernel)
  have hlen : (owners (dbaMap ((fourOnus fifthOnu).drain ⟨0, [], fun _ => 0⟩).dba.tcont.mode)
      ((fourOnus fifthOnu).drain ⟨0, [], fun _ => 0⟩).dba.run).length = 5 := by
    decide +kernel
  rw [← length_newOrder _ _ ((fourOnus fifthOnu).drain ⟨0, [], fun _ => 0⟩).request.alloc]
    at hlen
  exact absurd (hlen ▸ hle : 5 ≤ 4) (by decide)

end ClankerNPU.Dba
