import ClankerNPU.Kite.Late

/-! # The first frame after ADDBA

    An ADDBA mail empties an entry and leaves it waiting: the first frame
    that comes, whatever its number, starts the window. Of what the
    previous session left in the entry only the flag byte of its last
    frame matters. When it says that the frame was in order and the first
    frame begins an A-MSDU, `ba_state_update` takes that frame for a
    retransmit of itself, moves the window onto it, and the frame is
    freed as a duplicate. -/

namespace ClankerNPU.Kite

variable {s : BaState} {k : BaKey} {pn : KiteFrame}

/-! ## Empty entries -/

/-- A scan of an empty list finds nothing. -/
theorem moveLast_of_empty (hhead : (s.entry k).head = none) (seq : ℕ) :
    baMoveLast s k seq = s.setCtl k { (s.entry k).toBaCtl with last := seq } := by
  have hscan : baSeqScan (s.setCtl k { (s.entry k).toBaCtl with last := seq }) k seq =
      (s.setCtl k { (s.entry k).toBaCtl with last := seq }, noSeq) := by
    unfold baSeqScan nodeFuel baScanLoop
    rw [entry_setCtl]
    simp only [hhead]
  unfold baMoveLast
  simp only
  rw [hscan, if_pos rfl]

theorem flush_of_empty (hhead : (s.entry k).head = none) :
    baFlushEntry s k = s.setCtl k { (s.entry k).toBaCtl with chain := none } := by
  have hloop : baFlushLoop k (s.entry k).band nodeFuel s = s := by
    unfold nodeFuel baFlushLoop
    simp only [hhead]
  unfold baFlushEntry
  rw [hloop]

/-- The entry waits for its first frame, as an ADDBA mail has left it. -/
structure Waiting (s : BaState) (k : BaKey) : Prop where
  state : (s.entry k).state = 3
  empty : (s.entry k).head = none

/-- What a session has left in the entry or its list, the mail ends. -/
theorem waiting_of_addba {h : HeldState} {hand : Multiset NodeRef} {band winSize ssn : ℕ}
    (hrep : Rep s h hand) (hopen : ¬(winSize = 0 ∧ ssn = 0)) :
    Waiting (npuSetBaEntry s k band winSize ssn) k := by
  have hflush := (hrep.flush k).entry k
  rw [HeldState.app_view_self] at hflush
  have hhead : ((baFlushEntry s k).entry k).head = none := hflush.list
  unfold npuSetBaEntry
  simp only
  rw [if_neg hopen]
  constructor
  · rw [entry_setCtl]
  · rw [entry_setCtl]
    exact hhead

/-! ## Calls of the classifier -/

/-- A call of `kite_classify_pn`. -/
structure Arrival where
  flags : RxFlags
  pn : KiteFrame
  band : ℕ

/-- The call is about entry `k`. -/
def Arrival.Of (a : Arrival) (k : BaKey) : Prop :=
  a.pn.wcid ≠ 0 ∧ baKey a.flags.dbdc a.band a.pn.wcid a.pn.tid = k

/-- One call after the other. -/
def classifyAll (s : BaState) (as : List Arrival) : BaState :=
  as.foldl (fun s a => (kiteClassifyPn s a.flags a.pn a.band).1) s

/-- The frames that complete what `pn` has begun: none behind a lone frame
    or the last MSDU of an A-MSDU, else the further MSDUs and the last. -/
def Completes (k : BaKey) (pn : KiteFrame) (rest : List Arrival) : Prop :=
  (∀ a ∈ rest, a.Of k ∧ a.pn.sn = pn.sn) ∧
    if pn.amsdu ≤ 1 then rest = []
    else ∃ mids final, rest = mids ++ [final] ∧ (∀ a ∈ mids, a.pn.amsdu = 2) ∧ final.pn.amsdu = 1

/-- The frame is handed on once and not freed, and the next number is in
    order once the frame, or its A-MSDU, is complete. -/
structure WellOpened (s : BaState) (k : BaKey) (a : Arrival) : Prop where
  taken : (kiteClassifyPn s a.flags a.pn a.band).2 = .taken
  delivered : (kiteClassifyPn s a.flags a.pn a.band).1.outs =
    s.outs ++ [bridgeOut k a.pn a.band a.pn.bss]
  next : ∀ (rest : List Arrival) (b : Arrival), Completes k a.pn rest → b.Of k → b.pn.sn = (a.pn.sn + 1) % 4096 →
    (kiteArrival (classifyAll s (a :: rest)) k b.pn b.band).2 = .inOrder

/-! ## An open window with nothing held -/

/-- A window whose last frame had number `sn` and A-MSDU code `code`, and
    that waits for more MSDUs of it, or for the next number. -/
structure Begun (s : BaState) (k : BaKey) (sn code : ℕ) : Prop where
  state : (s.entry k).state = 4
  empty : (s.entry k).head = none
  ref : (s.entry k).ref = sn
  amsdu : (s.entry k).amsdu = code
  last : (s.entry k).last = sn ∨ 2 ≤ code ∧ ((s.entry k).last + 1) % 4096 = sn

/-- Where the window loop finds the frame when it has nothing to do. -/
theorem slide_of_standing {st : Standing} {sn : ℕ} (hst : (s.entry k).standing sn = some st) :
    kiteSlide k sn nodeFuel s = (s, st) := by
  unfold nodeFuel kiteSlide
  rw [hst]

theorem standing_next {c : BaCtl} {sn : ℕ} (h : (c.last + 1) % 4096 = sn) :
    c.standing sn = some .inOrder := if_pos h

theorem standing_same {c : BaCtl} {sn : ℕ} (h : c.last = sn) :
    c.standing sn = some .duplicate := by
  have hnext : (c.last + 1) % 4096 ≠ sn := by omega
  unfold BaCtl.standing
  rw [if_neg hnext, if_pos h]

theorem classify_of_open {a : Arrival} (hof : a.Of k)
    (hstate : (s.entry k).state = 3 ∨ (s.entry k).state = 4) :
    kiteClassifyPn s a.flags a.pn a.band = (kiteReorder s k a.flags a.pn a.band, .taken) := by
  have hwindow : (s.entry k).state ≠ 0 := by omega
  unfold kiteClassifyPn
  rw [if_neg hof.1]
  simp only
  rw [hof.2, if_neg hwindow]

/-- A frame in order that finds nothing held. -/
theorem begun_inOrder (hstate : (s.entry k).state = 4) (hempty : (s.entry k).head = none)
    (hnext : ((s.entry k).last + 1) % 4096 = pn.sn) :
    Begun (kiteInOrder s k pn) k pn.sn pn.amsdu ∧
      (kiteInOrder s k pn).outs = s.outs ++ [bridgeOut k pn (s.entry k).band pn.bss] := by
  set t := s.emit (bridgeOut k pn (s.entry k).band pn.bss) with ht
  have hentry : t.entry k = s.entry k := rfl
  unfold kiteInOrder
  simp only
  rw [← ht]
  by_cases hend : pn.amsdu ≤ 1
  · have hhead : (t.entry k).head = none := hempty
    rw [if_pos hend, moveLast_of_empty hhead]
    refine ⟨⟨?_, ?_, ?_, ?_, .inl ?_⟩, rfl⟩ <;> simp only [entry_setCtl, BaCtl.seen, hentry]
    · exact hstate
    · exact hempty
  · rw [if_neg hend]
    refine ⟨⟨?_, ?_, ?_, ?_, .inr ⟨by omega, ?_⟩⟩, rfl⟩ <;>
      simp only [entry_setCtl, BaCtl.seen, hentry]
    · exact hstate
    · exact hempty
    · exact hnext

/-- A frame that counts as a duplicate. -/
theorem begun_duplicate (hstate : (s.entry k).state = 4) (hempty : (s.entry k).head = none)
    (hsame : (s.entry k).last = pn.sn) (fast : Bool) (band : ℕ) :
    Begun (kiteDuplicate s k fast pn band) k pn.sn pn.amsdu ∧
      (kiteDuplicate s k fast pn band).outs =
        s.outs ++ [if fast then bridgeOut k pn band pn.bss else .free band pn.bufId] := by
  set t := s.emit (if fast then bridgeOut k pn band pn.bss else .free band pn.bufId) with ht
  have hentry : t.entry k = s.entry k := rfl
  unfold kiteDuplicate
  simp only
  rw [← ht]
  refine ⟨⟨?_, ?_, ?_, ?_, .inl ?_⟩, rfl⟩ <;> simp only [entry_setCtl, BaCtl.seen, hentry]
  · exact hstate
  · exact hempty
  · exact hsame

/-- The next MSDU of the A-MSDU goes the way of the one before it. -/
theorem Begun.more {a : Arrival} {code : ℕ} (h : Begun s k a.pn.sn code) (hof : a.Of k)
    (hcode : a.pn.amsdu = 1 ∨ a.pn.amsdu = 2) :
    Begun (kiteClassifyPn s a.flags a.pn a.band).1 k a.pn.sn a.pn.amsdu := by
  rw [classify_of_open hof (.inr h.state), kiteReorder_eq]
  have hstate : (s.entry k).state ≠ 3 := by rw [h.state]; decide
  set t := s.setCtl k { (s.entry k).toBaCtl with band := a.band } with ht
  have hentry : t.entry k = { s.entry k with band := a.band } := entry_setCtl ..
  have hbefore : kiteBefore s k a.pn a.band = t := by
    unfold kiteBefore
    rw [if_neg hstate]
    simp only
    rw [← ht]
    refine if_pos ?_
    unfold BaCtl.settled
    have href : (t.entry k).ref = a.pn.sn := by rw [hentry]; exact h.ref
    simp only
    rw [if_pos href]
    right
    omega
  have hstate' : (t.entry k).state = 4 := by rw [hentry]; exact h.state
  have hempty' : (t.entry k).head = none := by rw [hentry]; exact h.empty
  unfold kiteArrival
  rw [hbefore]
  rcases h.last with hsame | ⟨-, hnext⟩
  · have hlast : (t.entry k).last = a.pn.sn := by rw [hentry]; exact hsame
    rw [slide_of_standing (standing_same hlast)]
    exact (begun_duplicate hstate' hempty' hlast _ _).1
  · have hlast : ((t.entry k).last + 1) % 4096 = a.pn.sn := by rw [hentry]; exact hnext
    rw [slide_of_standing (standing_next hlast)]
    exact (begun_inOrder hstate' hempty' hlast).1

/-- The A-MSDU comes to its end. -/
theorem Begun.completes {rest : List Arrival} (h : Begun s k pn.sn pn.amsdu)
    (hrest : Completes k pn rest) :
    ∃ code ≤ 1, Begun (classifyAll s rest) k pn.sn code := by
  obtain ⟨hsame, hform⟩ := hrest
  by_cases hend : pn.amsdu ≤ 1
  · rw [if_pos hend] at hform
    rw [hform]
    exact ⟨_, hend, h⟩
  rw [if_neg hend] at hform
  obtain ⟨mids, final, rfl, hmids, hfinal⟩ := hform
  -- the middle MSDUs, one after the other
  have hmid : ∀ (l : List Arrival) (s : BaState) (code : ℕ), (∀ a ∈ l, a ∈ mids) →
      Begun s k pn.sn code → ∃ code', Begun (classifyAll s l) k pn.sn code' := by
    intro l
    induction l with
    | nil => exact fun s code _ hgo => ⟨code, hgo⟩
    | cons a l ih =>
      intro s code hl hgo
      obtain ⟨hof, ha⟩ := hsame a (List.mem_append_left _ (hl a List.mem_cons_self))
      rw [← ha] at hgo
      have hmore := hgo.more hof (.inr (hmids a (hl a List.mem_cons_self)))
      rw [ha] at hmore
      exact ih _ _ (fun a' ha' => hl a' (List.mem_cons_of_mem _ ha')) hmore
  obtain ⟨code, hgo⟩ := hmid mids s _ (fun _ ha => ha) h
  obtain ⟨hof, ha⟩ := hsame final (List.mem_append_right _ (List.mem_singleton_self _))
  rw [← ha] at hgo
  have hmore := hgo.more hof (.inl hfinal)
  unfold classifyAll at hmore ⊢
  rw [List.foldl_append]
  rw [ha] at hmore
  exact ⟨_, hfinal.le, hmore⟩

/-- A complete frame leaves the window waiting for the next number. -/
theorem Begun.next {sn code band : ℕ} (h : Begun s k sn code) (hcode : code ≤ 1)
    (hpn : pn.sn = (sn + 1) % 4096) : (kiteArrival s k pn band).2 = .inOrder := by
  have hstate : (s.entry k).state ≠ 3 := by rw [h.state]; decide
  set t := s.setCtl k { (s.entry k).toBaCtl with band := band } with ht
  have hentry : t.entry k = { s.entry k with band := band } := entry_setCtl ..
  have hclosed : ¬(t.entry k).amsduOpen := by
    unfold BaCtl.amsduOpen
    rw [hentry]
    show ¬((s.entry k).amsdu + 254) % 256 ≤ 1
    rw [h.amsdu]
    omega
  have hbefore : kiteBefore s k pn band = t := by
    unfold kiteBefore
    rw [if_neg hstate]
    simp only
    rw [← ht, stateUpdate_of_not_open hclosed]
  have hlast : (s.entry k).last = sn := by
    rcases h.last with hlast | ⟨hmore, -⟩
    · exact hlast
    · omega
  have hnext : ((t.entry k).last + 1) % 4096 = pn.sn := by
    rw [hentry, hpn]
    exact congrArg (fun x => (x + 1) % 4096) hlast
  unfold kiteArrival
  rw [hbefore, slide_of_standing (standing_next hnext)]

/-! ## The first frame -/

/-- The words of the entry when the first frame comes to the window loop. -/
def BaCtl.opened (c : BaCtl) (pn : KiteFrame) (band : ℕ) : BaCtl :=
  { c with
    chain := none
    last := if pn.amsdu = 3 ∧ c.flag = 0 then pn.sn else (((pn.sn : ℤ) - 1) % 4096).toNat
    ref := pn.sn
    state := 4
    amsdu := pn.amsdu
    band := band }

/-- `ba_state_update` moves the window onto a first frame with code 3
    when the flag of the previous session is 0. -/
theorem Waiting.before (h : Waiting s k) (pn : KiteFrame) (band : ℕ) :
    kiteBefore s k pn band = s.setCtl k ((s.entry k).toBaCtl.opened pn band) := by
  unfold kiteBefore kiteOpenWindow
  rw [if_pos h.state, flush_of_empty h.empty]
  simp only [entry_setCtl, setCtl_setCtl]
  unfold baStateUpdate
  simp only [entry_setCtl]
  by_cases hfirst : pn.amsdu = 3
  · have hopen : ∀ c : BaCtl, c.ref = pn.sn → c.amsdu = pn.amsdu →
        ¬c.settled pn.sn pn.amsdu := by
      intro c href hc
      unfold BaCtl.settled
      simp only
      rw [if_pos href, hc, hfirst]
      decide
    rw [if_neg (hopen _ rfl rfl)]
    by_cases hflag : (s.entry k).flag = 0
    · rw [if_neg (not_not.mpr hflag), moveLast_of_empty]
      · simp only [entry_setCtl, setCtl_setCtl]
        unfold BaCtl.opened
        rw [if_pos ⟨hfirst, hflag⟩]
      · rw [setCtl_setCtl, entry_setCtl]
        exact h.empty
    · rw [if_pos hflag, setCtl_setCtl]
      unfold BaCtl.opened
      rw [if_neg (fun hboth => hflag hboth.2)]
  · have hsettled : ∀ c : BaCtl, c.ref = pn.sn → c.amsdu = pn.amsdu →
        c.settled pn.sn pn.amsdu := by
      intro c href hc
      unfold BaCtl.settled
      simp only
      rw [if_pos href]
      right
      exact hfirst
    rw [if_pos (hsettled _ rfl rfl)]
    unfold BaCtl.opened
    rw [if_neg (fun hboth => hfirst hboth.1)]

/-- A first frame is handed on, and the window goes on from it, unless it
    begins an A-MSDU on a flag byte of 0. -/
theorem first_frame_iff {a : Arrival} (hwait : Waiting s k) (hof : a.Of k)
    (hsn : a.pn.sn < 4096) :
    WellOpened s k a ↔ a.pn.amsdu ≠ 3 ∨ (s.entry k).flag ≠ 0 ∨ a.flags.fast = true := by
  set c := (s.entry k).toBaCtl.opened a.pn a.band with hc
  set t := s.setCtl k c with ht
  have hentry : t.entry k = { s.entry k with toBaCtl := c } := entry_setCtl ..
  have harrival : kiteArrival s k a.pn a.band = kiteSlide k a.pn.sn nodeFuel t := by
    unfold kiteArrival
    rw [hwait.before]
  have hstate : (t.entry k).state = 4 := by rw [hentry]; rfl
  have hempty : (t.entry k).head = none := by rw [hentry]; exact hwait.empty
  have hcall := classify_of_open hof (.inl hwait.state)
  rw [kiteReorder_eq, harrival] at hcall
  -- what the frame's own branch leaves, and what it hands on
  have hgo : ∀ {s' : BaState}, kiteClassifyPn s a.flags a.pn a.band = (s', .taken) →
      Begun s' k a.pn.sn a.pn.amsdu →
      s'.outs = s.outs ++ [bridgeOut k a.pn a.band a.pn.bss] → WellOpened s k a := by
    intro s' hs' hbegun houts
    refine ⟨by rw [hs'], by rw [hs']; exact houts, ?_⟩
    intro rest b hrest hb hbsn
    obtain ⟨code, hcode, hend⟩ := hbegun.completes hrest
    have hfold : classifyAll s (a :: rest) = classifyAll s' rest := by
      unfold classifyAll
      rw [List.foldl_cons, hs']
    rw [hfold]
    exact hend.next hcode hbsn
  by_cases hbad : a.pn.amsdu = 3 ∧ (s.entry k).flag = 0
  · -- the window stands on the frame itself
    have hlast : (t.entry k).last = a.pn.sn := by
      rw [hentry]
      exact if_pos hbad
    rw [slide_of_standing (standing_same hlast)] at hcall
    obtain ⟨hbegun, houts⟩ := begun_duplicate hstate hempty hlast a.flags.fast a.band
    constructor
    · intro hopened
      have hboth := hopened.delivered
      rw [hcall] at hboth
      have hlog : s.outs ++ [if a.flags.fast then bridgeOut k a.pn a.band a.pn.bss
          else .free a.band a.pn.bufId] = s.outs ++ [bridgeOut k a.pn a.band a.pn.bss] :=
        houts.symm.trans hboth
      have hone := List.append_cancel_left hlog
      cases hfast : a.flags.fast with
      | true => exact .inr (.inr rfl)
      | false =>
        rw [hfast] at hone
        cases List.cons.inj hone |>.1
    · intro hcond
      have hfast : a.flags.fast = true := by
        rcases hcond with hcode | hflag | hfast
        · exact absurd hbad.1 hcode
        · exact absurd hbad.2 hflag
        · exact hfast
      refine hgo hcall hbegun (houts.trans ?_)
      rw [hfast]
      rfl
  · have hnext : ((t.entry k).last + 1) % 4096 = a.pn.sn := by
      rw [hentry]
      show (c.last + 1) % 4096 = _
      have hlast : c.last = (((a.pn.sn : ℤ) - 1) % 4096).toNat := if_neg hbad
      omega
    rw [slide_of_standing (standing_next hnext)] at hcall
    obtain ⟨hbegun, houts⟩ := begun_inOrder hstate hempty hnext
    have hband : (t.entry k).band = a.band := by rw [hentry]; rfl
    rw [hband] at houts
    constructor
    · intro _
      by_cases hcode : a.pn.amsdu = 3
      · exact .inr (.inl fun hflag => hbad ⟨hcode, hflag⟩)
      · exact .inl hcode
    · exact fun _ => hgo hcall hbegun houts

/-- An ADDBA mail for a session whose last frame was in order. -/
def addba100 : BaState := npuSetBaEntry window100 (baKey false 0 1 0) 0 64 101

theorem addba100_waiting : Waiting addba100 (false, 0) := ⟨by decide +kernel, by decide +kernel⟩

/-- A first frame of its own. -/
theorem first_frame_iff_lone :
    WellOpened addba100 (false, 0) ⟨⟨false, false, false, 10, 0⟩, frame66, 0⟩ ↔
      frame66.amsdu ≠ 3 ∨ (addba100.entry (false, 0)).flag ≠ 0 ∨ false = true :=
  first_frame_iff addba100_waiting ⟨by decide, rfl⟩ (by decide)

/-- The first MSDU of an A-MSDU is freed. -/
theorem first_frame_freed :
    Waiting addba100 (false, 0) ∧
      ¬WellOpened addba100 (false, 0)
        ⟨⟨false, false, false, 10, 0⟩, { frame66 with amsdu := 3 }, 0⟩ := by
  refine ⟨addba100_waiting, ?_⟩
  intro h
  have houts : (kiteClassifyPn addba100 ⟨false, false, false, 10, 0⟩ { frame66 with amsdu := 3 }
      0).1.outs = [.free 0 7] := by decide +kernel
  have hone := h.delivered
  rw [houts, show addba100.outs = [] by decide +kernel] at hone
  cases hone

end ClankerNPU.Kite
