import ClankerNPU.Kite.Refine

/-! # Sequence numbers under a shift

    Sequence numbers count modulo 4096. Adding a constant to all of them
    commutes with every step of the reorder engine that looks at
    distances only. One test does not: the test for a restarted peer
    compares signed differences and reduces modulo 4095. -/

namespace ClankerNPU.Kite

/-! ## The shift -/

/-- The sequence number `c` further on. -/
def shiftSn (c x : ℕ) : ℕ := (x + c) % 4096

def KiteFrame.shift (c : ℕ) (f : KiteFrame) : KiteFrame := { f with sn := shiftSn c f.sn }

def KiteNode.shift (c : ℕ) (n : KiteNode) : KiteNode :=
  { n with toKiteFrame := n.toKiteFrame.shift c }

def BaCtl.shift (c : ℕ) (e : BaCtl) : BaCtl :=
  { e with last := shiftSn c e.last, ref := shiftSn c e.ref }

def BaEntry.shift (c : ℕ) (e : BaEntry) : BaEntry := { e with toBaCtl := e.toBaCtl.shift c }

/-- What leaves is the same; only its record of the number shifts. -/
def Out.shift (c : ℕ) : Out → Out
  | .bridge origin bufId len hdr band bss =>
    .bridge (origin.map fun o => (o.1, shiftSn c o.2)) bufId len hdr band bss
  | .free band bufId => .free band bufId

/-- `c` added to every sequence number. -/
def BaState.shift (c : ℕ) (s : BaState) : BaState where
  node := fun r => (s.node r).shift c
  pri := s.pri
  sec := s.sec
  entry := fun k => (s.entry k).shift c
  outs := s.outs.map (Out.shift c)

variable {c : ℕ} {s s' : BaState} {k : BaKey} {r mpdu : NodeRef}

@[simp] theorem shift_node : (s.shift c).node r = (s.node r).shift c := rfl

@[simp] theorem shift_entry : (s.shift c).entry k = (s.entry k).shift c := rfl

theorem shiftSn_lt (c x : ℕ) : shiftSn c x < 4096 := Nat.mod_lt _ (by decide)

theorem shiftSn_inj {x y : ℕ} (hx : x < 4096) (hy : y < 4096) :
    shiftSn c x = shiftSn c y ↔ x = y := by
  unfold shiftSn
  omega

/-- Differences of shifted numbers are the same modulo 4096. -/
theorem bit11_shift {x y : ℕ} : bit11 ((shiftSn c x : ℤ) - shiftSn c y) ↔ bit11 ((x : ℤ) - y) := by
  unfold bit11 shiftSn
  omega

@[simp] theorem shift_node_frame (n : KiteNode) :
    (n.shift c).toKiteFrame = n.toKiteFrame.shift c := rfl

@[simp] theorem shift_entry_ctl (e : BaEntry) : (e.shift c).toBaCtl = e.toBaCtl.shift c := rfl

/-! ## Writes

    The lemmas pull the shift out of every operation. -/

theorem emit_shift (o : Out) : (s.shift c).emit (o.shift c) = (s.emit o).shift c := by
  unfold BaState.emit BaState.shift
  simp

theorem setNode_shift (n : KiteNode) :
    (s.shift c).setNode r (n.shift c) = (s.setNode r n).shift c := by
  unfold BaState.setNode BaState.shift
  congr 1
  exact (Function.comp_update (KiteNode.shift c) s.node r n).symm

theorem setEntry_shift (e : BaEntry) :
    (s.shift c).setEntry k (e.shift c) = (s.setEntry k e).shift c := by
  unfold BaState.setEntry BaState.shift
  congr 1
  exact (Function.comp_update (BaEntry.shift c) s.entry k e).symm

theorem setCtl_shift (e : BaCtl) : (s.shift c).setCtl k (e.shift c) = (s.setCtl k e).shift c := by
  unfold BaState.setCtl
  rw [← setEntry_shift]
  rfl

theorem nodeFree_shift (idx : ℕ) (p : Pool) :
    reorderNodeFree (s.shift c) idx p = (reorderNodeFree s idx p).shift c := by
  cases p <;> rfl

theorem nodeAlloc_shift :
    reorderNodeAlloc (s.shift c) = (reorderNodeAlloc s).map fun p => (p.1, p.2.shift c) := by
  have hpri : (s.shift c).pri = s.pri := rfl
  have hsec : (s.shift c).sec = s.sec := rfl
  unfold reorderNodeAlloc
  rw [hpri, hsec]
  cases s.pri.take reorderPriPoolSize with
  | some p => rfl
  | none =>
    cases s.sec.take reorderSecPoolSize with
    | some p => rfl
    | none => rfl

/-! ## Releases -/

theorem popMpdu_shift : baPopMpdu (s.shift c) k mpdu = (baPopMpdu s k mpdu).shift c := by
  unfold baPopMpdu
  rw [← setEntry_shift]
  rfl

theorem releaseMsdus_shift (band fuel : ℕ) (s : BaState) :
    baReleaseMsdus k mpdu band fuel (s.shift c) = (baReleaseMsdus k mpdu band fuel s).shift c := by
  induction fuel generalizing s with
  | zero => rfl
  | succ fuel ih =>
    unfold baReleaseMsdus
    have hhead : ((s.shift c).node mpdu).msduHead = (s.node mpdu).msduHead := rfl
    rw [hhead]
    cases (s.node mpdu).msduHead with
    | none => rfl
    | some msdu =>
      simp only
      rw [← ih, ← nodeFree_shift, ← emit_shift, ← setNode_shift]
      rfl

theorem releaseMpdu_shift (band : ℕ) :
    baReleaseMpdu (s.shift c) k mpdu band = (baReleaseMpdu s k mpdu band).shift c := by
  unfold baReleaseMpdu
  have hemit : (s.shift c).emit (bridgeOut k ((s.shift c).node mpdu).toKiteFrame band
      ((s.shift c).node mpdu).bss) =
      (s.emit (bridgeOut k (s.node mpdu).toKiteFrame band (s.node mpdu).bss)).shift c :=
    emit_shift (bridgeOut k (s.node mpdu).toKiteFrame band (s.node mpdu).bss)
  simp only
  rw [hemit, releaseMsdus_shift]
  exact nodeFree_shift _ _

theorem flushLoop_shift (band fuel : ℕ) (s : BaState) :
    baFlushLoop k band fuel (s.shift c) = (baFlushLoop k band fuel s).shift c := by
  induction fuel generalizing s with
  | zero => rfl
  | succ fuel ih =>
    unfold baFlushLoop
    have hhead : ((s.shift c).entry k).head = (s.entry k).head := rfl
    rw [hhead]
    cases (s.entry k).head with
    | none => rfl
    | some mpdu =>
      simp only
      have hset := setCtl_shift (c := c) (s := baPopMpdu s k mpdu) (k := k)
        { ((baPopMpdu s k mpdu).entry k).toBaCtl with last := ((baPopMpdu s k mpdu).node mpdu).sn }
      rw [popMpdu_shift, ← ih, ← releaseMpdu_shift, ← hset]
      rfl

theorem flushEntry_shift : baFlushEntry (s.shift c) k = (baFlushEntry s k).shift c := by
  unfold baFlushEntry
  have hloop : baFlushLoop k ((s.shift c).entry k).band nodeFuel (s.shift c) =
      (baFlushLoop k (s.entry k).band nodeFuel s).shift c := flushLoop_shift _ _ s
  simp only
  rw [hloop]
  exact setCtl_shift { ((baFlushLoop k (s.entry k).band nodeFuel s).entry k).toBaCtl with
    chain := none }

/-! ## Held frames

    The comparisons need the numbers of the held frames to be sequence
    numbers. A release keeps every node's number and link, so what is
    held afterwards was held before. -/

/-- The nodes of an entry's list. -/
inductive Held (s : BaState) (k : BaKey) : NodeRef → Prop
  | head {r : NodeRef} : (s.entry k).head = some r → Held s k r
  | next {r r' : NodeRef} : Held s k r → (s.node r).next = some r' → Held s k r'

/-- A step that releases: the numbers and links stay, the list does not
    grow and the entry's other words stay. -/
structure Releases (k : BaKey) (s s' : BaState) : Prop where
  sn : ∀ r, (s'.node r).sn = (s.node r).sn
  next : ∀ r, (s'.node r).next = (s.node r).next
  head : ∀ r, (s'.entry k).head = some r → Held s k r
  ctl : (s'.entry k).toBaCtl = (s.entry k).toBaCtl

theorem Releases.held (h : Releases k s s') (hr : Held s' k r) : Held s k r := by
  induction hr with
  | head hhead => exact h.head _ hhead
  | next _ hnext ih =>
    rw [h.next] at hnext
    exact .next ih hnext

theorem Releases.refl (s : BaState) : Releases k s s where
  sn := fun _ => rfl
  next := fun _ => rfl
  head := fun _ hr => .head hr
  ctl := rfl

theorem Releases.trans {s'' : BaState} (h : Releases k s s') (h' : Releases k s' s'') :
    Releases k s s'' where
  sn := fun r => (h'.sn r).trans (h.sn r)
  next := fun r => (h'.next r).trans (h.next r)
  head := fun r hr => h.held (h'.head r hr)
  ctl := h'.ctl.trans h.ctl

theorem releases_nodeFree (idx : ℕ) (p : Pool) : Releases k s (reorderNodeFree s idx p) := by
  cases p
  · exact ⟨fun _ => rfl, fun _ => rfl, fun _ hr => .head hr, rfl⟩
  · exact ⟨fun _ => rfl, fun _ => rfl, fun _ hr => .head hr, rfl⟩

theorem releases_emit (o : Out) : Releases k s (s.emit o) :=
  ⟨fun _ => rfl, fun _ => rfl, fun _ hr => .head hr, rfl⟩

/-- A node is written back with its number and link. -/
theorem releases_setNode {n : KiteNode} (hsn : n.sn = (s.node r).sn)
    (hnext : n.next = (s.node r).next) : Releases k s (s.setNode r n) where
  sn := by
    intro x
    show (Function.update s.node r n x).sn = _
    by_cases hx : x = r
    · rw [hx, Function.update_self, hsn]
    · rw [Function.update_of_ne hx]
  next := by
    intro x
    show (Function.update s.node r n x).next = _
    by_cases hx : x = r
    · rw [hx, Function.update_self, hnext]
    · rw [Function.update_of_ne hx]
  head := fun _ hr => .head hr
  ctl := rfl

theorem releases_popMpdu (hhead : (s.entry k).head = some mpdu) :
    Releases k s (baPopMpdu s k mpdu) := by
  have hentry : ((baPopMpdu s k mpdu).entry k) =
      { s.entry k with
        count := u16 (((s.entry k).count : ℤ) - 1)
        head := (s.node mpdu).next
        tail := if (s.node mpdu).next = none then none else (s.entry k).tail } :=
    Function.update_self ..
  refine ⟨fun _ => rfl, fun _ => rfl, ?_, ?_⟩
  · intro x hx
    rw [hentry] at hx
    exact .next (.head hhead) hx
  · rw [hentry]

theorem releases_releaseMsdus (band fuel : ℕ) (s : BaState) :
    Releases k s (baReleaseMsdus k mpdu band fuel s) := by
  induction fuel generalizing s with
  | zero => exact .refl s
  | succ fuel ih =>
    unfold baReleaseMsdus
    cases (s.node mpdu).msduHead with
    | none => exact .refl s
    | some msdu =>
      simp only
      refine .trans ?_ (ih _)
      refine .trans ?_ (releases_nodeFree _ _)
      refine .trans ?_ (releases_emit _)
      exact releases_setNode rfl rfl

theorem releases_releaseMpdu (band : ℕ) : Releases k s (baReleaseMpdu s k mpdu band) := by
  unfold baReleaseMpdu
  simp only
  refine .trans ?_ (releases_nodeFree _ _)
  refine .trans ?_ (releases_releaseMsdus _ _ _)
  exact releases_emit _

theorem releases_first (hhead : (s.entry k).head = some mpdu) (band : ℕ) :
    Releases k s (baReleaseMpdu (baPopMpdu s k mpdu) k mpdu band) :=
  (releases_popMpdu hhead).trans (releases_releaseMpdu band)

theorem releases_indicateLoop (band seq fuel : ℕ) (s : BaState) :
    Releases k s (baIndicateLoop k band seq fuel s) := by
  induction fuel generalizing s with
  | zero => exact .refl s
  | succ fuel ih =>
    unfold baIndicateLoop
    cases hhead : (s.entry k).head with
    | none => exact .refl s
    | some mpdu =>
      simp only
      split
      · exact .refl s
      · exact (releases_first hhead band).trans (ih _)

theorem releases_scanLoop (band fuel seq last : ℕ) (s : BaState) :
    Releases k s (baScanLoop k band fuel s seq last).1 := by
  induction fuel generalizing s seq last with
  | zero => exact .refl s
  | succ fuel ih =>
    unfold baScanLoop
    cases hhead : (s.entry k).head with
    | none => exact .refl s
    | some mpdu =>
      simp only
      split
      · exact (releases_first hhead band).trans (ih _ _ _)
      · exact .refl s

/-! ## Comparisons -/

/-- Every held frame's number is a sequence number. -/
def HeldSns (s : BaState) (k : BaKey) : Prop := ∀ r, Held s k r → (s.node r).sn < 4096

theorem HeldSns.releases (h : HeldSns s k) (hrel : Releases k s s') : HeldSns s' k := by
  intro r hr
  rw [hrel.sn]
  exact h r (hrel.held hr)

theorem pastSeq_shift {sn seq : ℕ} (hsn : sn < 4096) (hseq : seq < 4096) :
    pastSeq (shiftSn c sn) (shiftSn c seq) ↔ pastSeq sn seq := by
  unfold pastSeq
  rw [bit11_shift, Ne, shiftSn_inj hsn hseq]

/-- The number after a shifted one. -/
theorem shiftSn_succ (x : ℕ) : (shiftSn c x + 1) % 4096 = shiftSn c ((x + 1) % 4096) := by
  unfold shiftSn
  omega

theorem indicateLoop_shift {seq : ℕ} (hseq : seq < 4096) (band fuel : ℕ) (s : BaState)
    (h : HeldSns s k) :
    baIndicateLoop k band (shiftSn c seq) fuel (s.shift c) =
      (baIndicateLoop k band seq fuel s).shift c := by
  induction fuel generalizing s with
  | zero => rfl
  | succ fuel ih =>
    unfold baIndicateLoop
    have hsame : ((s.shift c).entry k).head = (s.entry k).head := rfl
    rw [hsame]
    cases hhead : (s.entry k).head with
    | none => rfl
    | some mpdu =>
      have hsn : ((s.shift c).node mpdu).sn = shiftSn c (s.node mpdu).sn := rfl
      simp only [hsn, pastSeq_shift (h mpdu (.head hhead)) hseq]
      split
      · rfl
      · rw [popMpdu_shift, releaseMpdu_shift]
        exact ih _ (h.releases (releases_first hhead band))

theorem indicateLeSeq_shift {seq : ℕ} (hseq : seq < 4096) (h : HeldSns s k) :
    baIndicateLeSeq (s.shift c) k (shiftSn c seq) = (baIndicateLeSeq s k seq).shift c :=
  indicateLoop_shift hseq _ _ s h

/-- What the scan answers, shifted. -/
def shiftLast (c last : ℕ) : ℕ := if last = noSeq then noSeq else shiftSn c last

theorem shiftLast_of_lt {last : ℕ} (h : last < 4096) : shiftLast c last = shiftSn c last := by
  unfold shiftLast noSeq
  rw [if_neg (by omega)]

theorem scanLoop_shift (band fuel seq last : ℕ) (s : BaState) (h : HeldSns s k) :
    baScanLoop k band fuel (s.shift c) (shiftSn c seq) (shiftLast c last) =
      ((baScanLoop k band fuel s seq last).1.shift c,
        shiftLast c (baScanLoop k band fuel s seq last).2) := by
  induction fuel generalizing s seq last with
  | zero => rfl
  | succ fuel ih =>
    unfold baScanLoop
    have hsame : ((s.shift c).entry k).head = (s.entry k).head := rfl
    rw [hsame]
    cases hhead : (s.entry k).head with
    | none => rfl
    | some mpdu =>
      have hlt := h mpdu (.head hhead)
      have hsn : ((s.shift c).node mpdu).sn = shiftSn c (s.node mpdu).sn := rfl
      simp only [hsn, shiftSn_succ, shiftSn_inj hlt (Nat.mod_lt _ (by decide : 0 < 4096))]
      split
      · rw [popMpdu_shift, releaseMpdu_shift]
        have hrest := ih (s.node mpdu).sn (s.node mpdu).sn _
          (h.releases (releases_first hhead band))
        rw [shiftLast_of_lt hlt] at hrest
        exact hrest
      · rfl

theorem scanLoop_last (band fuel seq last : ℕ) (s : BaState) (h : HeldSns s k)
    (hlast : last = noSeq ∨ last < 4096) :
    (baScanLoop k band fuel s seq last).2 = noSeq ∨
      (baScanLoop k band fuel s seq last).2 < 4096 := by
  induction fuel generalizing s seq last with
  | zero => exact hlast
  | succ fuel ih =>
    unfold baScanLoop
    cases hhead : (s.entry k).head with
    | none => exact hlast
    | some mpdu =>
      simp only
      split
      · exact ih _ _ _ (h.releases (releases_first hhead band)) (.inr (h mpdu (.head hhead)))
      · exact hlast

theorem seqScan_shift {seq : ℕ} (h : HeldSns s k) :
    baSeqScan (s.shift c) k (shiftSn c seq) =
      ((baSeqScan s k seq).1.shift c, shiftLast c (baSeqScan s k seq).2) := by
  have hloop := scanLoop_shift (c := c) (s.entry k).band nodeFuel seq noSeq s h
  have hno : shiftLast c noSeq = noSeq := if_pos rfl
  rw [hno] at hloop
  exact hloop

/-- The entry's words after its last number is written. -/
theorem setCtl_last_shift (seq : ℕ) :
    (s.shift c).setCtl k { ((s.shift c).entry k).toBaCtl with last := shiftSn c seq } =
      (s.setCtl k { (s.entry k).toBaCtl with last := seq }).shift c :=
  setCtl_shift { (s.entry k).toBaCtl with last := seq }

/-- Writing the words of an entry does not touch its list. -/
theorem held_setCtl {e : BaCtl} (hr : Held (s.setCtl k e) k r) : Held s k r := by
  induction hr with
  | head hhead =>
    have hentry : (s.setCtl k e).entry k = { s.entry k with toBaCtl := e } := setEntry_self ..
    rw [hentry] at hhead
    exact .head hhead
  | next _ hnext ih => exact .next ih hnext

theorem HeldSns.setCtl (h : HeldSns s k) (e : BaCtl) : HeldSns (s.setCtl k e) k :=
  fun r hr => h r (held_setCtl hr)

theorem moveLast_shift {seq : ℕ} (h : HeldSns s k) :
    baMoveLast (s.shift c) k (shiftSn c seq) = (baMoveLast s k seq).shift c := by
  unfold baMoveLast
  simp only
  rw [setCtl_last_shift, seqScan_shift (h.setCtl _)]
  set t := s.setCtl k { (s.entry k).toBaCtl with last := seq } with ht
  have hlast := scanLoop_last (t.entry k).band nodeFuel seq noSeq t (h.setCtl _) (.inl rfl)
  by_cases hno : (baSeqScan t k seq).2 = noSeq
  · have hshift : shiftLast c (baSeqScan t k seq).2 = noSeq := if_pos hno
    rw [if_pos hno, if_pos hshift]
  · have hlt : (baSeqScan t k seq).2 < 4096 := hlast.resolve_left hno
    have hshift : shiftLast c (baSeqScan t k seq).2 ≠ noSeq := by
      rw [shiftLast_of_lt hlt]
      have := shiftSn_lt c (baSeqScan t k seq).2
      unfold noSeq
      omega
    rw [if_neg hno, if_neg hshift, shiftLast_of_lt hlt]
    exact setCtl_last_shift _

theorem HeldSns.moveLast (h : HeldSns s k) (seq : ℕ) : HeldSns (baMoveLast s k seq) k := by
  unfold baMoveLast
  simp only
  have hscan := (h.setCtl { (s.entry k).toBaCtl with last := seq }).releases
    (releases_scanLoop (((s.setCtl k { (s.entry k).toBaCtl with last := seq }).entry k).band)
      nodeFuel seq noSeq _)
  split
  · exact hscan
  · exact hscan.setCtl _

theorem moveLast_last {seq : ℕ} (h : HeldSns s k) (hseq : seq < 4096) :
    ((baMoveLast s k seq).entry k).last < 4096 := by
  unfold baMoveLast
  simp only
  set t := s.setCtl k { (s.entry k).toBaCtl with last := seq } with ht
  have hctl : (t.entry k).toBaCtl = { (s.entry k).toBaCtl with last := seq } := setCtl_self s k _
  have hlast := scanLoop_last (t.entry k).band nodeFuel seq noSeq t (h.setCtl _) (.inl rfl)
  have hrel : Releases k t (baSeqScan t k seq).1 := releases_scanLoop _ _ _ _ t
  by_cases hno : (baSeqScan t k seq).2 = noSeq
  · rw [if_pos hno, hrel.ctl, hctl]
    exact hseq
  · have hlt : (baSeqScan t k seq).2 < 4096 := hlast.resolve_left hno
    rw [if_neg hno, setCtl_self]
    exact hlt

/-! ## The classifier -/

theorem settled_shift {e : BaCtl} {sn : ℕ} (checkType : ℕ) (href : e.ref < 4096)
    (hsn : sn < 4096) : (e.shift c).settled (shiftSn c sn) checkType ↔ e.settled sn checkType := by
  have hsame : (e.shift c).ref = shiftSn c e.ref := rfl
  have hamsdu : (e.shift c).amsdu = e.amsdu := rfl
  unfold BaCtl.settled
  simp only [hsame, hamsdu, shiftSn_inj href hsn]

theorem stateUpdate_shift {sn : ℕ} (checkType : ℕ) (h : HeldSns s k)
    (href : (s.entry k).ref < 4096) (hsn : sn < 4096) :
    baStateUpdate (s.shift c) k (shiftSn c sn) checkType =
      (baStateUpdate s k sn checkType).shift c := by
  unfold baStateUpdate
  have hctl : ((s.shift c).entry k).toBaCtl = (s.entry k).toBaCtl.shift c := rfl
  simp only [hctl, settled_shift checkType href hsn]
  split
  · rfl
  · have hset : (s.shift c).setCtl k { (s.entry k).toBaCtl.shift c with chain := none } =
        (s.setCtl k { (s.entry k).toBaCtl with chain := none }).shift c :=
      setCtl_shift { (s.entry k).toBaCtl with chain := none }
    have hflag : ((s.entry k).toBaCtl.shift c).flag = (s.entry k).flag := rfl
    rw [hset, hflag]
    split
    · rfl
    · exact moveLast_shift (h.setCtl _)

theorem slideTo_shift (sn win : ℕ) : slideTo (shiftSn c sn) win = shiftSn c (slideTo sn win) := by
  unfold slideTo shiftSn
  simp only
  split_ifs <;> omega

theorem standing_shift {e : BaCtl} {sn : ℕ} (hlast : e.last < 4096) (hsn : sn < 4096) :
    (e.shift c).standing (shiftSn c sn) = e.standing sn := by
  have hl : (e.shift c).last = shiftSn c e.last := rfl
  have hw : (e.shift c).win = e.win := rfl
  have hsucc : (shiftSn c e.last + 1) % 4096 = shiftSn c sn ↔ (e.last + 1) % 4096 = sn := by
    rw [shiftSn_succ, shiftSn_inj (Nat.mod_lt _ (by decide)) hsn]
  have hend : (shiftSn c e.last + e.win + 1) % 4096 = shiftSn c ((e.last + e.win + 1) % 4096) := by
    unfold shiftSn
    omega
  unfold BaCtl.standing
  rw [hl, hw]
  simp only [hsucc, shiftSn_inj hlast hsn, bit11_shift, hend]

theorem slideTo_lt (sn win : ℕ) : slideTo sn win < 4096 := by
  unfold slideTo
  simp only
  split_ifs <;> omega

/-- One pass of the slide keeps the numbers sequence numbers. -/
theorem heldSns_slide (h : HeldSns s k) (sn flag : ℕ) :
    let fs := slideTo sn (s.entry k).win
    let t := baMoveLast (baIndicateLeSeq s k fs) k fs
    let u := t.setCtl k { (t.entry k).toBaCtl with flag := flag }
    HeldSns u k ∧ (u.entry k).last < 4096 := by
  intro fs t u
  have hind : HeldSns (baIndicateLeSeq s k fs) k :=
    h.releases (releases_indicateLoop (s.entry k).band fs nodeFuel s)
  refine ⟨(hind.moveLast fs).setCtl _, ?_⟩
  show ((t.setCtl k _).entry k).last < 4096
  rw [setCtl_self]
  exact moveLast_last hind (slideTo_lt _ _)

theorem slide_shift {sn : ℕ} (hsn : sn < 4096) (fuel : ℕ) (s : BaState) (h : HeldSns s k)
    (hlast : (s.entry k).last < 4096) :
    kiteSlide k (shiftSn c sn) fuel (s.shift c) =
      ((kiteSlide k sn fuel s).1.shift c, (kiteSlide k sn fuel s).2) := by
  induction fuel generalizing s with
  | zero => rfl
  | succ fuel ih =>
    unfold kiteSlide
    have hstanding : ((s.shift c).entry k).standing (shiftSn c sn) = (s.entry k).standing sn :=
      standing_shift hlast hsn
    rw [hstanding]
    cases (s.entry k).standing sn with
    | some p => rfl
    | none =>
      have hind : HeldSns (baIndicateLeSeq s k (slideTo sn (s.entry k).win)) k :=
        h.releases (releases_indicateLoop (s.entry k).band _ nodeFuel s)
      obtain ⟨hheld, hnew⟩ := heldSns_slide h sn 4
      have hwin : ((s.shift c).entry k).win = (s.entry k).win := rfl
      simp only
      rw [hwin, slideTo_shift, indicateLeSeq_shift (slideTo_lt _ _) h, moveLast_shift hind]
      have hset (t : BaState) :
          (t.shift c).setCtl k { ((t.shift c).entry k).toBaCtl with flag := 4 } =
          (t.setCtl k { (t.entry k).toBaCtl with flag := 4 }).shift c :=
        setCtl_shift { (t.entry k).toBaCtl with flag := 4 }
      rw [hset]
      exact ih _ hheld hnew

/-! ## The branches -/

variable {pn : KiteFrame} {band : ℕ}

/-- A frame leaves its entry. -/
theorem setSeen_shift (flag : ℕ) :
    (s.shift c).setCtl k (((s.shift c).entry k).toBaCtl.seen (pn.shift c) flag) =
      (s.setCtl k ((s.entry k).toBaCtl.seen pn flag)).shift c :=
  setCtl_shift ((s.entry k).toBaCtl.seen pn flag)

/-- The frame goes to the host adaptor or its buffer back, by the debug
    flag. -/
theorem emitDrop_shift (fast : Bool) :
    (s.shift c).emit (if fast then bridgeOut k (pn.shift c) band (pn.shift c).bss
      else .free band (pn.shift c).bufId) =
      (s.emit (if fast then bridgeOut k pn band pn.bss else .free band pn.bufId)).shift c := by
  cases fast
  · exact emit_shift (.free band pn.bufId)
  · exact emit_shift (bridgeOut k pn band pn.bss)

theorem openWindow_shift (hsn : pn.sn < 4096) :
    kiteOpenWindow (s.shift c) k (pn.shift c) = (kiteOpenWindow s k pn).shift c := by
  unfold kiteOpenWindow
  have hprev : (((pn.shift c).sn : ℤ) - 1) % 4096 =
      (shiftSn c (((pn.sn : ℤ) - 1) % 4096).toNat : ℕ) := by
    show ((shiftSn c pn.sn : ℤ) - 1) % 4096 = _
    unfold shiftSn
    omega
  simp only
  rw [flushEntry_shift, hprev, Int.toNat_natCast]
  exact setCtl_shift { ((baFlushEntry s k).entry k).toBaCtl with
    last := (((pn.sn : ℤ) - 1) % 4096).toNat
    ref := pn.sn
    state := 4
    amsdu := pn.amsdu }

theorem duplicate_shift (fast : Bool) :
    kiteDuplicate (s.shift c) k fast (pn.shift c) band =
      (kiteDuplicate s k fast pn band).shift c := by
  unfold kiteDuplicate
  simp only
  rw [emitDrop_shift]
  exact setSeen_shift 1

theorem inOrder_shift (h : HeldSns s k) :
    kiteInOrder (s.shift c) k (pn.shift c) = (kiteInOrder s k pn).shift c := by
  unfold kiteInOrder
  have hemit : (s.shift c).emit (bridgeOut k (pn.shift c) ((s.shift c).entry k).band
      (pn.shift c).bss) = (s.emit (bridgeOut k pn (s.entry k).band pn.bss)).shift c :=
    emit_shift (bridgeOut k pn (s.entry k).band pn.bss)
  have hheld : HeldSns (s.emit (bridgeOut k pn (s.entry k).band pn.bss)) k :=
    h.releases (releases_emit _)
  have hamsdu : (pn.shift c).amsdu = pn.amsdu := rfl
  have hsn : (pn.shift c).sn = shiftSn c pn.sn := rfl
  simp only
  rw [hemit, hamsdu, hsn]
  split
  · rw [moveLast_shift hheld]
    exact setSeen_shift 0
  · exact setSeen_shift 0

/-- Behind the window: only the test for a restarted peer may tell the
    shifted numbers apart. -/
theorem behind_shift (fast : Bool)
    (hagree : peerRestarted (s.entry k).win (s.entry k).last pn.sn ↔
      peerRestarted (s.entry k).win (shiftSn c (s.entry k).last) (shiftSn c pn.sn)) :
    kiteBehind (s.shift c) k fast (pn.shift c) band = (kiteBehind s k fast pn band).shift c := by
  unfold kiteBehind
  have hwin : ((s.shift c).entry k).win = (s.entry k).win := rfl
  have hlast : ((s.shift c).entry k).last = shiftSn c (s.entry k).last := rfl
  have hsn : (pn.shift c).sn = shiftSn c pn.sn := rfl
  simp only
  rw [hwin, hlast, setSeen_shift, hsn]
  by_cases hr : peerRestarted (s.entry k).win (s.entry k).last pn.sn
  · rw [if_pos hr, if_pos (hagree.mp hr)]
    have hemit (t : BaState) : (t.shift c).emit (bridgeOut k (pn.shift c) band (pn.shift c).bss) =
        (t.emit (bridgeOut k pn band pn.bss)).shift c := emit_shift (bridgeOut k pn band pn.bss)
    rw [hemit]
    exact setCtl_last_shift pn.sn
  · rw [if_neg hr, if_neg (fun h => hr (hagree.mpr h))]
    exact emitDrop_shift fast

/-! ## Holding a frame -/

variable {node sub : NodeRef}

theorem fillNode_shift (tick : ℕ) :
    kiteFillNode (s.shift c) (pn.shift c) node tick = (kiteFillNode s pn node tick).shift c := by
  unfold kiteFillNode
  rw [← setNode_shift]
  rfl

theorem releases_nodeAlloc (halloc : reorderNodeAlloc s = some (node, s')) : Releases k s s' := by
  unfold reorderNodeAlloc at halloc
  split at halloc
  · obtain ⟨-, rfl⟩ := Prod.mk.inj (Option.some.inj halloc)
    exact ⟨fun _ => rfl, fun _ => rfl, fun _ hr => .head hr, rfl⟩
  · split at halloc
    · obtain ⟨-, rfl⟩ := Prod.mk.inj (Option.some.inj halloc)
      exact ⟨fun _ => rfl, fun _ => rfl, fun _ hr => .head hr, rfl⟩
    · cases halloc

theorem fillNode_self (tick : ℕ) : ((kiteFillNode s pn node tick).node node).sn = pn.sn ∧
    ((kiteFillNode s pn node tick).node node).next = none := by
  unfold kiteFillNode BaState.setNode
  simp only [Function.update_self, and_self]

theorem fillNode_of_ne {x : NodeRef} (hx : x ≠ node) (tick : ℕ) :
    (kiteFillNode s pn node tick).node x = s.node x := Function.update_of_ne hx ..

/-- Filling a node brings in the frame's number only. -/
theorem HeldSns.fillNode (h : HeldSns s k) (hsn : pn.sn < 4096) (tick : ℕ) :
    HeldSns (kiteFillNode s pn node tick) k := by
  have hheld : ∀ r, Held (kiteFillNode s pn node tick) k r → r = node ∨ Held s k r := by
    intro r hr
    induction hr with
    | head hhead => exact .inr (.head hhead)
    | @next r r' _ hnext ih =>
      by_cases hr : r = node
      · rw [hr, (fillNode_self tick).2] at hnext
        cases hnext
      · rw [fillNode_of_ne hr] at hnext
        exact .inr (.next (ih.resolve_left hr) hnext)
  intro r hr
  by_cases heq : r = node
  · rw [heq, (fillNode_self tick).1]
    exact hsn
  · rw [fillNode_of_ne heq]
    exact h r ((hheld r hr).resolve_left heq)

theorem chain_shift : kiteChain (s.shift c) sub node = (kiteChain s sub node).shift c := by
  unfold kiteChain
  have hcnt : (s.shift c).setNode sub { (s.shift c).node sub with
        msduCnt := u16 (((s.shift c).node sub).msduCnt + 1) } =
      (s.setNode sub { s.node sub with msduCnt := u16 ((s.node sub).msduCnt + 1) }).shift c :=
    setNode_shift { s.node sub with msduCnt := u16 ((s.node sub).msduCnt + 1) }
  have hnext (t : BaState) (x : NodeRef) (o : Option NodeRef) :
      (t.shift c).setNode x { (t.shift c).node x with next := o } =
        (t.setNode x { t.node x with next := o }).shift c :=
    setNode_shift { t.node x with next := o }
  have hhead (t : BaState) :
      (t.shift c).setNode sub { (t.shift c).node sub with msduHead := some node } =
        (t.setNode sub { t.node sub with msduHead := some node }).shift c :=
    setNode_shift { t.node sub with msduHead := some node }
  have htail (t : BaState) :
      (t.shift c).setNode sub { (t.shift c).node sub with msduTail := some node } =
        (t.setNode sub { t.node sub with msduTail := some node }).shift c :=
    setNode_shift { t.node sub with msduTail := some node }
  have hold : ((s.shift c).node sub).msduTail = (s.node sub).msduTail := rfl
  simp only
  rw [hcnt, hnext, hold]
  split
  · next t _ => rw [hnext, htail]
  · rw [hhead, htail]

theorem findPlace_shift (sn fuel : ℕ) (prev cur : Option NodeRef) :
    kiteFindPlace (s.shift c) (shiftSn c sn) fuel prev cur = kiteFindPlace s sn fuel prev cur := by
  induction fuel generalizing prev cur with
  | zero => rfl
  | succ fuel ih =>
    cases cur with
    | none => rfl
    | some x =>
      unfold kiteFindPlace
      have hsn : ((s.shift c).node x).sn = shiftSn c (s.node x).sn := rfl
      have hnext : ((s.shift c).node x).next = (s.node x).next := rfl
      simp only [hsn, hnext, bit11_shift, ih]

/-- The search stops at a held node or behind the last. -/
theorem findPlace_held (sn fuel : ℕ) (prev cur : Option NodeRef)
    (hcur : ∀ r, cur = some r → Held s k r) :
    ∀ r, (kiteFindPlace s sn fuel prev cur).2 = some r → Held s k r := by
  induction fuel generalizing prev cur with
  | zero => exact hcur
  | succ fuel ih =>
    cases cur with
    | none => exact hcur
    | some x =>
      unfold kiteFindPlace
      split
      · apply ih
        intro r hr
        exact .next (hcur x rfl) hr
      · exact hcur

theorem link_shift (prev cur : Option NodeRef) :
    kiteLink (s.shift c) k (pn.shift c) node prev cur =
      (kiteLink s k pn node prev cur).shift c := by
  unfold kiteLink
  have hnext (t : BaState) (x : NodeRef) (o : Option NodeRef) :
      (t.shift c).setNode x { (t.shift c).node x with next := o } =
        (t.setNode x { t.node x with next := o }).shift c :=
    setNode_shift { t.node x with next := o }
  have hfrom (t : BaState) :
      linkFrom (t.shift c) k prev node = (linkFrom t k prev node).shift c := by
    unfold linkFrom
    cases prev with
    | none => exact setEntry_shift { t.entry k with head := some node }
    | some p => exact hnext t p (some node)
  simp only
  rw [hnext, hfrom]
  set t := linkFrom (s.setNode node { s.node node with next := cur }) k prev node
  exact setEntry_shift { t.entry k with
    count := u16 ((t.entry k).count + 1)
    chain := if pn.amsdu ≤ 1 then none else some node }

theorem insert_shift (h : HeldSns s k) (hsn : pn.sn < 4096) :
    kiteInsert (s.shift c) k (pn.shift c) node = (kiteInsert s k pn node).shift c := by
  unfold kiteInsert
  have hplace : kiteFindPlace (s.shift c) (pn.shift c).sn nodeFuel none ((s.shift c).entry k).head =
      kiteFindPlace s pn.sn nodeFuel none (s.entry k).head := findPlace_shift _ _ _ _
  simp only
  rw [hplace]
  set place := kiteFindPlace s pn.sn nodeFuel none (s.entry k).head with hdef
  have hheld := findPlace_held (k := k) pn.sn nodeFuel none (s.entry k).head fun _ hr => .head hr
  have hsame : place.2.map (fun cur => ((s.shift c).node cur).sn) = some (pn.shift c).sn ↔
      place.2.map (fun cur => (s.node cur).sn) = some pn.sn := by
    cases hcur : place.2 with
    | none => simp
    | some x =>
      have hx := h x (hheld x hcur)
      simp only [Option.map_some, Option.some.injEq]
      exact shiftSn_inj hx hsn
  by_cases hdup : place.2.map (fun cur => (s.node cur).sn) = some pn.sn
  · rw [if_pos hdup, if_pos (hsame.mpr hdup)]
    have hidx : ((s.shift c).node node).idx = (s.node node).idx := rfl
    have hpool : ((s.shift c).node node).pool = (s.node node).pool := rfl
    rw [← emit_shift, ← nodeFree_shift]
    rfl
  · rw [if_neg hdup, if_neg (fun hc => hdup (hsame.mp hc))]
    exact link_shift _ _

theorem hold_shift (h : HeldSns s k) (hsn : pn.sn < 4096) (tick : ℕ) :
    kiteHold (s.shift c) k (pn.shift c) tick = (kiteHold s k pn tick).shift c := by
  unfold kiteHold
  rw [nodeAlloc_shift]
  cases halloc : reorderNodeAlloc s with
  | none => rfl
  | some p =>
    obtain ⟨node, t⟩ := p
    have ht : HeldSns t k := h.releases (releases_nodeAlloc halloc)
    simp only [Option.map_some]
    rw [fillNode_shift]
    have hchain (u : BaState) : ((u.shift c).entry k).chain = (u.entry k).chain := rfl
    rw [hchain]
    cases ((kiteFillNode t pn node tick).entry k).chain with
    | none =>
      simp only
      rw [insert_shift (ht.fillNode hsn tick) hsn]
      exact setSeen_shift 3
    | some sub =>
      simp only
      rw [chain_shift]
      exact setSeen_shift 3

/-! ## A whole run -/

/-- The numbers a frame of an entry meets are sequence numbers. -/
structure SeqNums (s : BaState) (k : BaKey) (pn : KiteFrame) : Prop where
  held : HeldSns s k
  last : (s.entry k).last < 4096
  ref : (s.entry k).ref < 4096
  sn : pn.sn < 4096

/-- The state in front of the `while (1)`. -/
def kiteBefore (s : BaState) (k : BaKey) (pn : KiteFrame) (band : ℕ) : BaState :=
  let s := if (s.entry k).state = 3 then kiteOpenWindow s k pn else s
  let s := s.setCtl k { (s.entry k).toBaCtl with band := band }
  baStateUpdate s k pn.sn pn.amsdu

/-- The state behind it, and where the frame stands. -/
def kiteArrival (s : BaState) (k : BaKey) (pn : KiteFrame) (band : ℕ) : BaState × Standing :=
  kiteSlide k pn.sn nodeFuel (kiteBefore s k pn band)

theorem kiteReorder_eq (s : BaState) (k : BaKey) (flags : RxFlags) (pn : KiteFrame) (band : ℕ) :
    kiteReorder s k flags pn band =
      kiteTake (kiteArrival s k pn band).1 k flags pn band (kiteArrival s k pn band).2 := rfl

theorem HeldSns.flushLoop (h : HeldSns s k) (band fuel : ℕ) :
    HeldSns (baFlushLoop k band fuel s) k := by
  induction fuel generalizing s with
  | zero => exact h
  | succ fuel ih =>
    unfold baFlushLoop
    cases hhead : (s.entry k).head with
    | none => exact h
    | some mpdu =>
      simp only
      apply ih
      apply HeldSns.releases _ (releases_releaseMpdu band)
      exact (h.releases (releases_popMpdu hhead)).setCtl _

/-- A window that is opened starts from sequence numbers. -/
theorem SeqNums.openWindow (h : SeqNums s k pn) : SeqNums (kiteOpenWindow s k pn) k pn := by
  have hheld : HeldSns (baFlushEntry s k) k := (h.held.flushLoop _ _).setCtl _
  unfold kiteOpenWindow
  refine ⟨hheld.setCtl _, ?_, ?_, h.sn⟩
  · simp only
    rw [setCtl_self]
    show (((pn.sn : ℤ) - 1) % 4096).toNat < 4096
    omega
  · simp only
    rw [setCtl_self]
    exact h.sn

theorem SeqNums.setBand (h : SeqNums s k pn) (band : ℕ) :
    SeqNums (s.setCtl k { (s.entry k).toBaCtl with band := band }) k pn := by
  refine ⟨h.held.setCtl _, ?_, ?_, h.sn⟩
  · rw [setCtl_self]
    exact h.last
  · rw [setCtl_self]
    exact h.ref

/-- `ba_state_update` moves the window to the reference number at most. -/
theorem stateUpdate_last {sn : ℕ} (checkType : ℕ) (h : SeqNums s k pn) :
    HeldSns (baStateUpdate s k sn checkType) k ∧
      ((baStateUpdate s k sn checkType).entry k).last < 4096 := by
  unfold baStateUpdate
  simp only
  split
  · exact ⟨h.held, h.last⟩
  · have hset := h.held.setCtl { (s.entry k).toBaCtl with chain := none }
    split
    · refine ⟨hset, ?_⟩
      rw [setCtl_self]
      exact h.last
    · exact ⟨hset.moveLast _, moveLast_last hset h.ref⟩

/-- The state in front of the loop, and its numbers. -/
theorem before_shift (h : SeqNums s k pn) (band : ℕ) :
    kiteBefore (s.shift c) k (pn.shift c) band = (kiteBefore s k pn band).shift c ∧
      HeldSns (kiteBefore s k pn band) k ∧ ((kiteBefore s k pn band).entry k).last < 4096 := by
  have hopen : SeqNums (if (s.entry k).state = 3 then kiteOpenWindow s k pn else s) k pn := by
    split
    · exact h.openWindow
    · exact h
  have hpair : (if ((s.shift c).entry k).state = 3 then kiteOpenWindow (s.shift c) k (pn.shift c)
      else s.shift c) = (if (s.entry k).state = 3 then kiteOpenWindow s k pn else s).shift c := by
    have hstate : ((s.shift c).entry k).state = (s.entry k).state := rfl
    rw [hstate]
    split
    · exact openWindow_shift h.sn
    · rfl
  unfold kiteBefore
  simp only
  rw [hpair]
  set t := if (s.entry k).state = 3 then kiteOpenWindow s k pn else s
  have hset : (t.shift c).setCtl k { ((t.shift c).entry k).toBaCtl with band := band } =
      (t.setCtl k { (t.entry k).toBaCtl with band := band }).shift c :=
    setCtl_shift { (t.entry k).toBaCtl with band := band }
  have hband := hopen.setBand band
  rw [hset]
  exact ⟨stateUpdate_shift _ hband.held hband.ref h.sn, stateUpdate_last _ hband⟩

theorem HeldSns.slide {sn : ℕ} (h : HeldSns s k) (fuel : ℕ) :
    HeldSns (kiteSlide k sn fuel s).1 k := by
  induction fuel generalizing s with
  | zero => exact h
  | succ fuel ih =>
    unfold kiteSlide
    split
    · exact h
    · exact ih (heldSns_slide h sn 4).1

theorem arrival_shift (h : SeqNums s k pn) (band : ℕ) :
    kiteArrival (s.shift c) k (pn.shift c) band =
      ((kiteArrival s k pn band).1.shift c, (kiteArrival s k pn band).2) := by
  obtain ⟨hbefore, hheld, hlast⟩ := before_shift (c := c) h band
  unfold kiteArrival
  rw [hbefore]
  exact slide_shift h.sn nodeFuel _ hheld hlast

/-- The branch `kite_classify_pn` takes: whether the window slides, where
    the frame then stands, and whether a frame behind restarts it. -/
structure Branch where
  slid : Bool
  standing : Standing
  restarted : Bool
  deriving DecidableEq, Repr

/-- The branch of a frame; none without a station or without a window. -/
def kiteBranch (s : BaState) (flags : RxFlags) (pn : KiteFrame) (band : ℕ) : Option Branch :=
  let k := baKey flags.dbdc band pn.wcid pn.tid
  if pn.wcid = 0 ∨ (s.entry k).state = 0 then none
  else
    let r := kiteArrival s k pn band
    let e := (r.1.entry k).toBaCtl
    some {
      slid := ((kiteBefore s k pn band).entry k).standing pn.sn = none
      standing := r.2
      restarted := r.2 = .behind ∧ peerRestarted e.win e.last pn.sn }

/-- The shifted frame takes the same branch, releases the same and leaves
    the same state shifted. -/
def ShiftAgrees (c : ℕ) (s : BaState) (flags : RxFlags) (pn : KiteFrame) (band : ℕ) : Prop :=
  kiteBranch (s.shift c) flags (pn.shift c) band = kiteBranch s flags pn band ∧
    kiteClassifyPn (s.shift c) flags (pn.shift c) band =
      ((kiteClassifyPn s flags pn band).1.shift c, (kiteClassifyPn s flags pn band).2)

/-- The frame does not arrive behind the window, or the test for a
    restarted peer answers the same for the shifted numbers. -/
def RestartAgrees (c : ℕ) (s : BaState) (flags : RxFlags) (pn : KiteFrame) (band : ℕ) : Prop :=
  let k := baKey flags.dbdc band pn.wcid pn.tid
  let r := kiteArrival s k pn band
  let e := (r.1.entry k).toBaCtl
  pn.wcid ≠ 0 → (s.entry k).state ≠ 0 → r.2 = .behind →
    (peerRestarted e.win e.last pn.sn ↔
      peerRestarted e.win (shiftSn c e.last) (shiftSn c pn.sn))

theorem take_shift {st : Standing} {flags : RxFlags} (h : HeldSns s k) (hsn : pn.sn < 4096)
    (hagree : st = .behind → (peerRestarted (s.entry k).win (s.entry k).last pn.sn ↔
      peerRestarted (s.entry k).win (shiftSn c (s.entry k).last) (shiftSn c pn.sn))) :
    kiteTake (s.shift c) k flags (pn.shift c) band st =
      (kiteTake s k flags pn band st).shift c := by
  cases st with
  | inOrder => exact inOrder_shift h
  | duplicate => exact duplicate_shift flags.fast
  | behind => exact behind_shift flags.fast (hagree rfl)
  | inside => exact hold_shift h hsn flags.tick

theorem kiteBranch_of (s : BaState) (pn : KiteFrame) {flags : RxFlags}
    (hk : baKey flags.dbdc band pn.wcid pn.tid = k)
    (hw : pn.wcid ≠ 0) (hst : (s.entry k).state ≠ 0) :
    kiteBranch s flags pn band =
      some ⟨((kiteBefore s k pn band).entry k).standing pn.sn = none, (kiteArrival s k pn band).2,
        (kiteArrival s k pn band).2 = .behind ∧
          peerRestarted ((kiteArrival s k pn band).1.entry k).win
            ((kiteArrival s k pn band).1.entry k).last pn.sn⟩ := by
  subst hk
  unfold kiteBranch
  have hopen : ¬(pn.wcid = 0 ∨ (s.entry (baKey flags.dbdc band pn.wcid pn.tid)).state = 0) := by
    rintro (h | h)
    · exact hw h
    · exact hst h
  exact if_neg hopen

/-- The branch of the shifted frame, over the state of the frame itself. -/
theorem kiteBranch_shift {flags : RxFlags} (h : SeqNums s k pn)
    (hk : baKey flags.dbdc band pn.wcid pn.tid = k) (hw : pn.wcid ≠ 0)
    (hst : (s.entry k).state ≠ 0) :
    kiteBranch (s.shift c) flags (pn.shift c) band =
      some ⟨((kiteBefore s k pn band).entry k).standing pn.sn = none, (kiteArrival s k pn band).2,
        (kiteArrival s k pn band).2 = .behind ∧
          peerRestarted ((kiteArrival s k pn band).1.entry k).win
            (shiftSn c ((kiteArrival s k pn band).1.entry k).last) (shiftSn c pn.sn)⟩ := by
  obtain ⟨hbefore, -, hlast⟩ := before_shift (c := c) h band
  have hstanding : ((kiteBefore (s.shift c) k (pn.shift c) band).entry k).standing (pn.shift c).sn =
      ((kiteBefore s k pn band).entry k).standing pn.sn := by
    rw [hbefore]
    exact standing_shift hlast h.sn
  have hbranch := kiteBranch_of (s.shift c) (pn.shift c) (k := k) hk hw hst
  rw [hstanding, arrival_shift h band] at hbranch
  exact hbranch

/-- Behind the window a branch holds the answer of the test for a
    restarted peer, elsewhere nothing of it. -/
theorem branch_congr {slid : Bool} {st : Standing} {p q : Prop} [Decidable p] [Decidable q]
    (h : st = .behind → (p ↔ q)) :
    Branch.mk slid st (st = .behind ∧ p) = Branch.mk slid st (st = .behind ∧ q) := by
  have htest : (st = .behind ∧ p) ↔ (st = .behind ∧ q) := and_congr_right h
  rw [decide_eq_decide.mpr htest]

/-- With a window, a frame on which the tests agree is taken the same. -/
theorem window_shift {flags : RxFlags} (h : SeqNums s k pn)
    (hk : baKey flags.dbdc band pn.wcid pn.tid = k) (hw : pn.wcid ≠ 0)
    (hst : (s.entry k).state ≠ 0)
    (hagree : (kiteArrival s k pn band).2 = .behind →
      (peerRestarted ((kiteArrival s k pn band).1.entry k).win
          ((kiteArrival s k pn band).1.entry k).last pn.sn ↔
        peerRestarted ((kiteArrival s k pn band).1.entry k).win
          (shiftSn c ((kiteArrival s k pn band).1.entry k).last) (shiftSn c pn.sn))) :
    ShiftAgrees c s flags pn band := by
  have hreorder : kiteReorder (s.shift c) k flags (pn.shift c) band =
      (kiteReorder s k flags pn band).shift c := by
    rw [kiteReorder_eq, kiteReorder_eq, arrival_shift h band]
    have hheld : HeldSns (kiteArrival s k pn band).1 k :=
      (before_shift (c := c) h band).2.1.slide _
    exact take_shift hheld h.sn hagree
  refine ⟨?_, ?_⟩
  · rw [kiteBranch_shift h hk hw hst, kiteBranch_of s pn hk hw hst]
    exact congrArg some (branch_congr fun hbehind => (hagree hbehind).symm)
  · have hleft : ¬((s.shift c).entry k).state = 0 := hst
    unfold kiteClassifyPn
    rw [if_neg hw, if_neg (show ¬(pn.shift c).wcid = 0 from hw)]
    simp only
    rw [show baKey flags.dbdc band (pn.shift c).wcid (pn.shift c).tid = k from hk, hk, if_neg hleft,
      if_neg hst, hreorder]

/-- The reorder decision depends on distances exactly where the test for
    a restarted peer does. -/
theorem reorder_shift_iff (c : ℕ) (s : BaState) (flags : RxFlags) (pn : KiteFrame) (band : ℕ)
    (h : SeqNums s (baKey flags.dbdc band pn.wcid pn.tid) pn) :
    ShiftAgrees c s flags pn band ↔ RestartAgrees c s flags pn band := by
  constructor
  · rintro ⟨hbranch, -⟩ hw hst hbehind
    rw [kiteBranch_shift h rfl hw hst, kiteBranch_of s pn rfl hw hst] at hbranch
    -- the branches agree, so the tests do
    have hflag := (Branch.mk.inj (Option.some.inj hbranch)).2.2
    rw [decide_eq_decide] at hflag
    constructor
    · intro hp
      exact (hflag.mpr ⟨hbehind, hp⟩).2
    · intro hp
      exact (hflag.mp ⟨hbehind, hp⟩).2
  · intro hagree
    by_cases hw : pn.wcid = 0
    · -- no station: the buffer goes back
      have hw' : (pn.shift c).wcid = 0 := hw
      refine ⟨?_, ?_⟩
      · unfold kiteBranch
        simp only [hw, hw', true_or, if_true]
      · unfold kiteClassifyPn
        rw [if_pos hw, if_pos hw']
        exact congrArg (·, Verdict.taken) (emit_shift (.free band pn.bufId))
    · have hw' : ¬(pn.shift c).wcid = 0 := hw
      set k := baKey flags.dbdc band pn.wcid pn.tid with hk
      by_cases hst : (s.entry k).state = 0
      · -- no window: what is held is flushed
        have hst' : ((s.shift c).entry k).state = 0 := hst
        refine ⟨?_, ?_⟩
        · unfold kiteBranch
          have hleft : (pn.shift c).wcid = 0 ∨ ((s.shift c).entry k).state = 0 := .inr hst'
          have hright : pn.wcid = 0 ∨ (s.entry k).state = 0 := .inr hst
          exact (if_pos hleft).trans (if_pos hright).symm
        · unfold kiteClassifyPn
          rw [if_neg hw, if_neg hw']
          have hleft : ((s.shift c).entry (baKey flags.dbdc band (pn.shift c).wcid
              (pn.shift c).tid)).state = 0 := hst
          simp only
          rw [if_pos hleft, if_pos hst]
          exact congrArg (·, Verdict.up) flushEntry_shift
      · -- an open window: the arrivals agree, and where the tests do, the branches
        exact window_shift h rfl hw hst (hagree hw hst)

/-! ## A frame 34 behind a window of 64 -/

/-- A frame with number 66. -/
def frame66 : KiteFrame := ⟨30, 0, 1, 0, 7, 66, 100, 0⟩

/-- An open window of 64 whose last number is 100, with nothing held. -/
def window100 : BaState where
  node := fun r => ⟨⟨0, 0, 0, 0, 0, 0, 0, 0⟩, none, none, none, 0, r.idx, r.pool, 0⟩
  pri := IndexRing.full
  sec := IndexRing.full
  entry := fun _ => ⟨⟨none, 64, 100, 99, 0, 0, 4, 0⟩, none, none, 0⟩
  outs := []

theorem window100_seqNums (k : BaKey) : SeqNums window100 k frame66 := by
  refine ⟨?_, ?_, ?_, by decide⟩
  · intro r _
    show 0 < 4096
    decide
  · show 100 < 4096
    decide
  · show 99 < 4096
    decide

theorem reorder_shift_iff_window100 :
    ShiftAgrees 4006 window100 ⟨false, false, false, 10, 0⟩ frame66 0 ↔
      RestartAgrees 4006 window100 ⟨false, false, false, 10, 0⟩ frame66 0 :=
  reorder_shift_iff 4006 window100 ⟨false, false, false, 10, 0⟩ frame66 0 (window100_seqNums _)

/-- From 100 the frame 34 behind restarts the window, from 10 it is
    dropped. -/
theorem shift_disagrees :
    SeqNums window100 (baKey false 0 frame66.wcid frame66.tid) frame66 ∧
      ¬ShiftAgrees 4006 window100 ⟨false, false, false, 10, 0⟩ frame66 0 := by
  refine ⟨window100_seqNums _, ?_⟩
  rintro ⟨hbranch, -⟩
  have hleft : kiteBranch window100 ⟨false, false, false, 10, 0⟩ frame66 0 =
      some ⟨false, .behind, true⟩ := by decide +kernel
  have hright : kiteBranch (window100.shift 4006) ⟨false, false, false, 10, 0⟩
      (frame66.shift 4006) 0 = some ⟨false, .behind, false⟩ := by decide +kernel
  rw [hleft, hright] at hbranch
  cases hbranch

end ClankerNPU.Kite
