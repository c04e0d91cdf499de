import ClankerNPU.Kite.Classify
import ClankerNPU.Kite.Shift

/-! # A late duplicate

    A frame numbered at most half a window behind the last one is a
    retransmit of a frame already sent on. Three tests in signed,
    unsigned and modulo 4095 arithmetic decide whether it is one, or the
    sign of a peer that starts over; on such a frame all three say no,
    also where the numbers wrap. -/

namespace ClankerNPU.Kite

/-- The previous frame was an MSDU of an A-MSDU with more to come. -/
def BaCtl.amsduOpen (c : BaCtl) : Prop := (c.amsdu + 254) % 256 ≤ 1

instance (c : BaCtl) : Decidable c.amsduOpen := inferInstanceAs (Decidable (_ ≤ _))

/-- `ba_state_update` only looks at entries with an A-MSDU open. -/
theorem settled_of_not_open {c : BaCtl} (h : ¬c.amsduOpen) (sn checkType : ℕ) :
    c.settled sn checkType := by
  unfold BaCtl.amsduOpen at h
  unfold BaCtl.settled
  simp only
  split
  · left
    omega
  · omega

theorem stateUpdate_of_not_open {s : BaState} {k : BaKey} (h : ¬(s.entry k).amsduOpen)
    (sn checkType : ℕ) : baStateUpdate s k sn checkType = s :=
  if_pos (settled_of_not_open h sn checkType)

/-! ## The window's tests -/

section tests

variable {c : BaCtl} {win last sn d : ℕ}

/-- A number up to half the number space behind the last one is behind
    the window. -/
theorem standing_late (hlast : c.last < 4096) (hd : 1 ≤ d) (hle : d ≤ 2048)
    (hsn : sn = (c.last + 4096 - d) % 4096) : c.standing sn = some .behind := by
  have hnext : (c.last + 1) % 4096 ≠ sn := by omega
  have hsame : c.last ≠ sn := by omega
  have hbehind : bit11 ((sn : ℤ) - c.last) := by
    unfold bit11
    omega
  unfold BaCtl.standing
  rw [if_neg hnext, if_neg hsame, if_pos hbehind]

/-- No test takes a number at most half a window behind for a restart. -/
theorem not_peerRestarted_late (hwin : win ≤ 511) (hlast : last < 4096) (hd : 1 ≤ d)
    (hhalf : d ≤ win / 2) (hsn : sn = (last + 4096 - d) % 4096) :
    ¬peerRestarted win last sn := by
  have hcases : d ≤ last ∧ sn = last - d ∨ last < d ∧ sn = last + 4096 - d := by omega
  unfold peerRestarted
  rintro (hfar | hring | hjump)
  · -- no number that has not wrapped is further behind than the window is long
    omega
  · -- half a window ahead of `sn` is a little past `last`, also modulo 4095
    unfold bit11 at hring
    rcases hcases with ⟨hdl, rfl⟩ | ⟨hld, rfl⟩
    · rcases Nat.lt_or_ge (win / 2 + (last - d) + 1) 4095 with hlt | hge
      · rw [Nat.mod_eq_of_lt hlt] at hring
        omega
      · have hmod : (win / 2 + (last - d) + 1) % 4095 = win / 2 + (last - d) + 1 - 4095 := by
          omega
        rw [hmod] at hring
        omega
    · have hmod : (win / 2 + (last + 4096 - d) + 1) % 4095 =
          win / 2 + (last + 4096 - d) + 1 - 4095 := by omega
      rw [hmod] at hring
      omega
  · -- a number that has wrapped is less than a window from the end
    omega

end tests

/-! ## The classifier -/

/-- Nothing of an entry's window or its held list has changed, nor of any
    other entry, nor a node. -/
structure SameWindow (s s' : BaState) (k : BaKey) : Prop where
  last : (s'.entry k).last = (s.entry k).last
  win : (s'.entry k).win = (s.entry k).win
  state : (s'.entry k).state = (s.entry k).state
  head : (s'.entry k).head = (s.entry k).head
  tail : (s'.entry k).tail = (s.entry k).tail
  count : (s'.entry k).count = (s.entry k).count
  other : ∀ k', k' ≠ k → s'.entry k' = s.entry k'
  node : s'.node = s.node
  pri : s'.pri = s.pri
  sec : s'.sec = s.sec

section duplicate

variable {s : BaState} {flags : RxFlags} {pn : KiteFrame} {band d : ℕ} {k : BaKey}

/-- Noting a frame leaves the entry's window. -/
theorem sameWindow_seen (s : BaState) (k : BaKey) (pn : KiteFrame) (band flag : ℕ) :
    SameWindow s (s.setCtl k (BaCtl.seen { (s.entry k).toBaCtl with band := band } pn flag)) k := by
  constructor
  case other =>
    intro k' hne
    unfold BaState.setCtl BaState.setEntry
    simp only [Function.update_of_ne hne]
  case node => rfl
  case pri => rfl
  case sec => rfl
  case head | tail | count => rw [entry_setCtl]
  case last | win | state =>
    rw [entry_setCtl]
    rfl

/-- No pass of the window loop runs for a frame behind the window. -/
theorem kiteSlide_behind {sn : ℕ} (h : (s.entry k).standing sn = some .behind) (n : ℕ) :
    kiteSlide k sn (n + 1) s = (s, .behind) := by
  unfold kiteSlide
  rw [h]

/-- With the window open and no A-MSDU begun, a late frame is noted and
    freed. -/
theorem kiteReorder_late (hfast : flags.fast = false) (hopen : (s.entry k).state ≠ 3)
    (hclosed : ¬(s.entry k).amsduOpen) (hlast : (s.entry k).last < 4096)
    (hwin : 2 ≤ (s.entry k).win ∧ (s.entry k).win ≤ 511)
    (hd : 1 ≤ d ∧ d ≤ (s.entry k).win / 2)
    (hsn : pn.sn = ((s.entry k).last + 4096 - d) % 4096) :
    kiteReorder s k flags pn band =
      (s.setCtl k (BaCtl.seen { (s.entry k).toBaCtl with band := band } pn 2)).emit
        (.free band pn.bufId) := by
  set t := s.setCtl k { (s.entry k).toBaCtl with band := band } with ht
  have hentry : (t.entry k).toBaCtl = { (s.entry k).toBaCtl with band := band } := by
    rw [ht, entry_setCtl]
  have hclosed' : ¬(t.entry k).amsduOpen := by
    unfold BaCtl.amsduOpen at hclosed ⊢
    rw [hentry]
    exact hclosed
  have hbehind : (t.entry k).standing pn.sn = some .behind := by
    rw [hentry]
    exact standing_late hlast hd.1 (by omega) hsn
  have hkeep : ¬peerRestarted (t.entry k).win (t.entry k).last pn.sn := by
    rw [hentry]
    exact not_peerRestarted_late hwin.2 hlast hd.1 hd.2 hsn
  unfold kiteReorder
  rw [if_neg hopen]
  simp only
  rw [← ht, stateUpdate_of_not_open hclosed']
  unfold nodeFuel
  rw [kiteSlide_behind hbehind]
  -- behind the window, and not a peer that starts over
  unfold kiteTake kiteBehind
  simp only
  rw [if_neg hkeep, hfast, hentry, ht, setCtl_setCtl]
  rfl

/-- A frame at most half a window behind is freed, and that is all. -/
theorem late_duplicate {s : BaState} {flags : RxFlags} {pn : KiteFrame} {band d : ℕ} {k : BaKey}
    (hwcid : pn.wcid ≠ 0) (hkey : baKey flags.dbdc band pn.wcid pn.tid = k)
    (hfast : flags.fast = false) (hstate : (s.entry k).state = 4)
    (hclosed : ¬(s.entry k).amsduOpen) (hlast : (s.entry k).last < 4096)
    (hwin : 2 ≤ (s.entry k).win ∧ (s.entry k).win ≤ 511)
    (hd : 1 ≤ d ∧ d ≤ (s.entry k).win / 2)
    (hsn : pn.sn = ((s.entry k).last + 4096 - d) % 4096) :
    let r := kiteClassifyPn s flags pn band
    r.2 = .taken ∧ r.1.outs = s.outs ++ [.free band pn.bufId] ∧ SameWindow s r.1 k := by
  intro r
  have hr : r = (kiteReorder s k flags pn band, .taken) := by
    show kiteClassifyPn s flags pn band = _
    have hwindow : (s.entry k).state ≠ 0 := by rw [hstate]; decide
    unfold kiteClassifyPn
    rw [if_neg hwcid]
    simp only
    rw [hkey, if_neg hwindow]
  have hopen : (s.entry k).state ≠ 3 := by rw [hstate]; decide
  rw [hr, kiteReorder_late hfast hopen hclosed hlast hwin hd hsn]
  have hsame := sameWindow_seen s k pn band 2
  exact ⟨rfl, rfl, hsame.last, hsame.win, hsame.state, hsame.head, hsame.tail, hsame.count,
    hsame.other, hsame.node, hsame.pri, hsame.sec⟩

end duplicate

/-- From a last number of 10, the frame numbered 4086 is 20 behind. -/
theorem late_duplicate_wrap :
    let s := window100.shift 4006
    let r := kiteClassifyPn s ⟨false, false, false, 10, 0⟩ { frame66 with sn := 4086 } 0
    r.2 = .taken ∧ r.1.outs = s.outs ++ [.free 0 7] ∧ SameWindow s r.1 (false, 0) :=
  late_duplicate (d := 20) (by decide) rfl rfl rfl (by decide) (by decide) (by decide)
    (by decide) rfl

end ClankerNPU.Kite
