import ClankerNPU.Kite.Reorder
import Mathlib.Data.BitVec

/-! # The fast classifier

    `kite_classify` parses a received frame and gives it to the reorder
    engine, whose releases go through `pkt_enqueue_bridge`: to the host,
    or over TDMA to the wire. On AN7552, which has no core to spare, rx
    calls `kite_classify_fast` in its place: it hands an in-order frame
    of an open BA session to TDMA itself, with its own choice of the
    entry and its own copy of the window's update. Statistics are left
    out; TDMA and the host's ring are parameters, either may refuse. -/

namespace ClankerNPU.Kite

/-! ## The frame -/

/-- What the classifier reads of a received buffer: the words at 4, 8
    and 16, and the half-words at 24 and 32. -/
structure RxBuf where
  w1 : BitVec 32
  w2 : BitVec 32
  w4 : BitVec 32
  fc : BitVec 16
  sc : BitVec 16

/-- The length of what precedes the 802.3 frame. -/
def RxBuf.hdrLen (b : RxBuf) : ℕ :=
  40 + (if b.w1 &&& 0x800 ≠ 0 then 16 else 0) + (if b.w1 &&& 0x1000 ≠ 0 then 8 else 0) +
    (if b.w1 &&& 0x2000 ≠ 0 then 8 else 0) + (if b.w1 &&& 0x8000 ≠ 0 then 72 else 0)

/-- `kite_rx_parse` -/
def kiteRxParse (b : RxBuf) (bufId len : ℕ) : Option KiteFrame :=
  let raw := b.w2 &&& 0x3F
  if b.w1 &&& 0x4000 = 0 then none
  else if b.w2 &&& 0x32000000 ≠ 0 then none
  -- 802.11 frame control: data needs QoS and must not be 0xC0
  else if b.fc &&& 8 ≠ 0 ∧ (b.fc &&& 0x80 = 0 ∨ b.fc &&& 0xC0 = 0xC0) then none
  else some {
    hdr := b.hdrLen
    tid := ((b.w2 >>> 16) &&& 0xF).toNat
    wcid := (b.w1 &&& 0xFF).toNat
    bss := ((if b.w2 &&& 0x30 ≠ 0 then raw - 16 else raw) &&& 0xFF).toNat
    bufId := u16 bufId
    sn := (b.sc >>> 4).toNat
    len := u16 len
    amsdu := (b.w4 &&& 3).toNat }

/-- `kite_rx_hdr_len` -/
def kiteRxHdrLen (b : RxBuf) : Option ℕ :=
  if b.w2 &&& 0x32000000 ≠ 0 then none
  else if b.w1 &&& 0x4000 = 0 then none
  else some b.hdrLen

/-! ## Out of the reorder engine -/

/-- The switches of the classifier and of `pkt_enqueue_bridge`. -/
structure RxSwitches extends RxFlags where
  /-- bit 2 of `wifi_debug_flags` -/
  counting : Bool
  ratelimitTable : ℕ → ℕ
  wifiBandCap : ℕ
  wifiForceToCpu : ℕ
  wifiWaitBand2g : ℕ
  wifiWaitBand5g : ℕ
  wifiPktBufAddr : ℕ

/-- A call out of the classifier. -/
inductive RxCall where
  /-- `tdma_tx_submit` -/
  | submit (bufId len addr band : ℕ)
  /-- `pkt_forward` of a whole frame, with its classify result -/
  | forward (bufId : ℤ) (len band : ℕ) (result : ℤ)
  /-- `buf_id_free` -/
  | free (band bufId : ℕ)

/-- TDMA and the host's ring: what they return, and their next state. -/
structure RxPorts (W : Type*) where
  tdmaTxSubmit : ℕ → ℕ → ℕ → ℕ → W → ℤ × W
  pktForward : ℤ → ℕ → ℕ → ℤ → W → ℤ × W

/-- The state of TDMA and the host's ring, and the calls so far. -/
structure Outside (W : Type*) where
  world : W
  calls : List RxCall

variable {W : Type*}

/-- `wifi_pkt_va` -/
def RxSwitches.wifiPktVa (sw : RxSwitches) (bufId : ℕ) : ℕ :=
  u32 (((sw.wifiPktBufAddr &&& 0x3FFFFFFF) ||| 0x40000000) + bufId <<< 12 : ℕ)

/-- A frame goes to TDMA; refused, its buffer goes back. -/
def Outside.submit (o : Outside W) (ports : RxPorts W) (bufId len addr band : ℕ) : Outside W :=
  let r := ports.tdmaTxSubmit bufId len addr band o.world
  let calls := o.calls ++ [.submit bufId len addr band]
  ⟨r.2, if r.1 ≠ 0 then calls ++ [.free band bufId] else calls⟩

/-- A frame goes to the host; refused, its buffer goes back. -/
def Outside.forward (o : Outside W) (ports : RxPorts W) (bufId len band : ℕ) (result : ℤ) :
    Outside W :=
  let r := ports.pktForward (s16 bufId) len band result o.world
  let calls := o.calls ++ [.forward (s16 bufId) len band result]
  ⟨r.2, if r.1 ≠ 0 then calls ++ [.free band bufId] else calls⟩

/-- `pkt_enqueue_bridge` -/
def pktEnqueueBridge (sw : RxSwitches) (ports : RxPorts W) (bufId pktLen hdr band bss : ℕ)
    (o : Outside W) : Outside W :=
  if sw.ratelimitTable (band * 16 + bss) ≠ 0 then o.forward ports bufId pktLen band (-2)
  else if (sw.wifiForceToCpu ≠ 0 ∧
      ((band = 1 ∧ sw.wifiWaitBand5g = 1) ∨ (band = 0 ∧ sw.wifiWaitBand2g = 1))) ∨
      sw.wifiBandCap = 0 then
    o.forward ports bufId pktLen band 0
  else
    let size := u16 ((pktLen : ℤ) - hdr)
    let txLen := u16 ((size : ℤ) - 2)
    o.submit ports bufId txLen (u32 ((sw.wifiPktVa bufId : ℤ) + 2 + hdr)) band

/-- What leaves the reorder engine is called out. -/
def deliver (sw : RxSwitches) (ports : RxPorts W) (o : Outside W) : Out → Outside W
  | .bridge _ bufId len hdr band bss => pktEnqueueBridge sw ports bufId len hdr band bss o
  | .free band bufId => ⟨o.world, o.calls ++ [.free band bufId]⟩

/-- The reorder engine with what is outside of it. -/
structure Rx (W : Type*) where
  ba : BaState
  out : Outside W

/-- The engine's releases, in order. -/
def settle (sw : RxSwitches) (ports : RxPorts W) (s : BaState) (o : Outside W) : Rx W :=
  ⟨{ s with outs := [] }, s.outs.foldl (deliver sw ports) o⟩

/-! ## The classifiers -/

/-- The BA step of a parsed frame. -/
def classifyPn (sw : RxSwitches) (ports : RxPorts W) (r : Rx W) (pn : KiteFrame) (band : ℕ) :
    Rx W × Verdict :=
  let c := kiteClassifyPn { r.ba with outs := [] } sw.toRxFlags pn band
  (settle sw ports c.1 r.out, c.2)

/-- `kite_classify` -/
def kiteClassify (sw : RxSwitches) (ports : RxPorts W) (r : Rx W) (b : RxBuf)
    (bufId len band : ℕ) : Rx W × Verdict :=
  if sw.noBaTest then
    match kiteRxHdrLen b with
    | none => (r, .up)
    -- the BSS is unknown here, pass 0
    | some hdr =>
      (⟨r.ba, pktEnqueueBridge sw ports (u16 bufId) (u16 len) hdr band 0 r.out⟩, .taken)
  else
    match kiteRxParse b bufId len with
    | none => (r, .up)
    | some pn => classifyPn sw ports r pn band

/-- The entry as the fast path finds it. -/
def fastKey (dbdc : Bool) (band wcid tid : ℕ) : BaKey :=
  if dbdc ∧ 150 < wcid then (false, baIdx (8 * (wcid - 151) + tid))
  else if dbdc ∨ band ≠ 0 then (true, baIdx (8 * (wcid - 1) + tid))
  else (false, baIdx (8 * (wcid - 1) + tid))

/-- The frame is none for the fast path. -/
def RxSwitches.slow (sw : RxSwitches) (c : BaCtl) (pn : KiteFrame) (band : ℕ) : Prop :=
  c.state ≠ 4 ∨ (c.amsdu + 254) % 256 ≤ 1 ∨ (c.last + 1) % 4096 ≠ pn.sn ∨
    sw.ratelimitTable (band * 16 + pn.bss) ≠ 0 ∨ sw.wifiBandCap = 0 ∨
    (sw.wifiForceToCpu ≠ 0 ∧ (if band ≠ 0 then sw.wifiWaitBand5g else sw.wifiWaitBand2g) = 1)

instance (sw : RxSwitches) (c : BaCtl) (pn : KiteFrame) (band : ℕ) :
    Decidable (sw.slow c pn band) :=
  inferInstanceAs (Decidable (_ ∨ _))

/-- The fast path's step of the window: an empty queue needs no scan. -/
def fastMove (s : BaState) (k : BaKey) (sn : ℕ) : BaState :=
  let s := s.setCtl k { (s.entry k).toBaCtl with last := sn }
  let s :=
    if (s.entry k).head ≠ none then
      let r := baSeqScan s k sn
      if r.2 ≠ noSeq then r.1.setCtl k { (r.1.entry k).toBaCtl with last := r.2 } else r.1
    else s
  s.setCtl k { (s.entry k).toBaCtl with chain := none }

/-- `kite_classify_fast` -/
def kiteClassifyFast (sw : RxSwitches) (ports : RxPorts W) (r : Rx W) (b : RxBuf)
    (bufId len band : ℕ) : Rx W × Verdict :=
  if sw.noBaTest ∨ sw.counting then kiteClassify sw ports r b bufId len band
  else
    match kiteRxParse b bufId len with
    | none => (r, .up)
    | some pn =>
      if pn.wcid = 0 then classifyPn sw ports r pn band
      else
        let k := fastKey sw.dbdc band pn.wcid pn.tid
        if sw.slow (r.ba.entry k).toBaCtl pn band then classifyPn sw ports r pn band
        else
          let s := { r.ba with outs := [] }
          let s := s.setCtl k { (s.entry k).toBaCtl with band := band }
          let o := r.out.submit ports pn.bufId (u16 ((len : ℤ) - pn.hdr - 2))
            (u32 ((sw.wifiPktVa pn.bufId : ℤ) + 2 + pn.hdr)) band
          let s := if pn.amsdu ≤ 1 then fastMove s k pn.sn else s
          let s := s.setCtl k { (s.entry k).toBaCtl with
            amsdu := pn.amsdu
            ref := pn.sn
            flag := 0 }
          (settle sw ports s o, .taken)

/-! ## Earlier releases -/

/-- The state with `xs` released before. -/
def BaState.after (xs : List Out) (s : BaState) : BaState := { s with outs := xs ++ s.outs }

variable {sw : RxSwitches} {ports : RxPorts W} {s : BaState} {k : BaKey} {xs : List Out}

theorem after_emit (o : Out) : (s.after xs).emit o = (s.emit o).after xs := by
  unfold BaState.emit BaState.after
  rw [List.append_assoc]

theorem after_nodeFree (idx : ℕ) (p : Pool) :
    reorderNodeFree (s.after xs) idx p = (reorderNodeFree s idx p).after xs := by
  cases p <;> rfl

theorem after_releaseMsdus (mpdu : NodeRef) (band fuel : ℕ) (s : BaState) :
    baReleaseMsdus k mpdu band fuel (s.after xs) =
      (baReleaseMsdus k mpdu band fuel s).after xs := by
  induction fuel generalizing s with
  | zero => rfl
  | succ fuel ih =>
    unfold baReleaseMsdus
    have hnode : (s.after xs).node = s.node := rfl
    rw [hnode]
    cases (s.node mpdu).msduHead with
    | none => rfl
    | some msdu =>
      simp only
      rw [← ih, ← after_nodeFree, ← after_emit]
      rfl

theorem after_releaseMpdu (mpdu : NodeRef) (band : ℕ) :
    baReleaseMpdu (s.after xs) k mpdu band = (baReleaseMpdu s k mpdu band).after xs := by
  unfold baReleaseMpdu
  simp only
  rw [after_emit, after_releaseMsdus]
  exact after_nodeFree _ _

theorem after_scanLoop (band fuel seq last : ℕ) (s : BaState) :
    baScanLoop k band fuel (s.after xs) seq last =
      ((baScanLoop k band fuel s seq last).1.after xs, (baScanLoop k band fuel s seq last).2) := by
  induction fuel generalizing s seq last with
  | zero => rfl
  | succ fuel ih =>
    unfold baScanLoop
    have hentry : (s.after xs).entry = s.entry := rfl
    have hnode : (s.after xs).node = s.node := rfl
    rw [hentry, hnode]
    cases (s.entry k).head with
    | none => rfl
    | some mpdu =>
      simp only
      split
      · have hpop : baPopMpdu (s.after xs) k mpdu = (baPopMpdu s k mpdu).after xs := rfl
        rw [hpop, after_releaseMpdu]
        exact ih _ _ _
      · rfl

/-- What was released before does not matter to the window. -/
theorem after_moveLast (seq : ℕ) :
    baMoveLast (s.after xs) k seq = (baMoveLast s k seq).after xs := by
  unfold baMoveLast
  simp only
  set t := s.setCtl k { (s.entry k).toBaCtl with last := seq } with ht
  have hctl : (s.after xs).setCtl k { ((s.after xs).entry k).toBaCtl with last := seq } =
      t.after xs := rfl
  have hscan : baSeqScan (t.after xs) k seq =
      ((baSeqScan t k seq).1.after xs, (baSeqScan t k seq).2) :=
    after_scanLoop _ _ _ _ t
  rw [hctl, hscan]
  simp only
  split
  · rfl
  · rfl

/-! ## The two paths agree -/

theorem setCtl_setCtl (s : BaState) (k : BaKey) (c d : BaCtl) :
    (s.setCtl k c).setCtl k d = s.setCtl k d := by
  unfold BaState.setCtl BaState.setEntry
  simp only [Function.update_idem, Function.update_self]

theorem entry_setCtl (s : BaState) (k : BaKey) (c : BaCtl) :
    (s.setCtl k c).entry k = { s.entry k with toBaCtl := c } :=
  Function.update_self _ _ _

/-- Both paths mean the same entry. -/
theorem fastKey_eq (dbdc : Bool) (band wcid tid : ℕ) :
    fastKey dbdc band wcid tid = baKey dbdc band wcid tid := by
  unfold fastKey baKey
  cases dbdc with
  | false =>
    by_cases hband : band = 0 <;> simp [hband]
  | true =>
    by_cases hwcid : 150 < wcid <;> simp [hwcid]

/-- An empty queue has nothing to scan. -/
theorem fastMove_eq (s : BaState) (k : BaKey) (sn : ℕ) :
    fastMove s k sn =
      (baMoveLast s k sn).setCtl k
        { ((baMoveLast s k sn).entry k).toBaCtl with chain := none } := by
  unfold fastMove baMoveLast
  simp only
  set t := s.setCtl k { (s.entry k).toBaCtl with last := sn } with ht
  by_cases hhead : (t.entry k).head = none
  · have hscan : baSeqScan t k sn = (t, noSeq) := by
      have hfuel : nodeFuel = 7001 + 1 := rfl
      unfold baSeqScan
      rw [hfuel]
      unfold baScanLoop
      rw [hhead]
    rw [if_neg (not_not.mpr hhead), hscan]
    simp only [if_true]
  · rw [if_pos hhead]
    by_cases hno : (baSeqScan t k sn).2 = noSeq
    · rw [if_neg (not_not.mpr hno), if_pos hno]
    · rw [if_pos hno, if_neg hno]

theorem kiteRxParse_len {b : RxBuf} {bufId len : ℕ} {pn : KiteFrame}
    (h : kiteRxParse b bufId len = some pn) : pn.len = u16 len := by
  unfold kiteRxParse at h
  simp only at h
  split at h
  · cases h
  · split at h
    · cases h
    · split at h
      · cases h
      · rw [← Option.some.inj h]

/-- A frame the fast path takes goes to TDMA on the other path too. -/
theorem deliver_fast {pn : KiteFrame} {band len : ℕ} {c : BaCtl} (hlen : pn.len = u16 len)
    (hfast : ¬sw.slow c pn band) (o : Outside W) :
    deliver sw ports o (bridgeOut k pn band pn.bss) =
      o.submit ports pn.bufId (u16 ((len : ℤ) - pn.hdr - 2))
        (u32 ((sw.wifiPktVa pn.bufId : ℤ) + 2 + pn.hdr)) band := by
  unfold RxSwitches.slow at hfast
  simp only [not_or] at hfast
  obtain ⟨-, -, -, hrate, hcap, hwait⟩ := hfast
  have hhost : ¬((sw.wifiForceToCpu ≠ 0 ∧
      ((band = 1 ∧ sw.wifiWaitBand5g = 1) ∨ (band = 0 ∧ sw.wifiWaitBand2g = 1))) ∨
      sw.wifiBandCap = 0) := by
    rintro (⟨hforce, ⟨hband, h5g⟩ | ⟨hband, h2g⟩⟩ | hzero)
    · exact hwait ⟨hforce, by rw [if_pos (by omega)]; exact h5g⟩
    · exact hwait ⟨hforce, by rw [if_neg (by omega)]; exact h2g⟩
    · exact hcap hzero
  have htx : u16 ((u16 ((pn.len : ℤ) - pn.hdr) : ℤ) - 2) = u16 ((len : ℤ) - pn.hdr - 2) := by
    rw [hlen]
    unfold u16
    omega
  show pktEnqueueBridge sw ports pn.bufId pn.len pn.hdr band pn.bss o = _
  unfold pktEnqueueBridge
  rw [if_neg hrate, if_neg hhost]
  simp only [htx]

/-- An in-order frame of an open session after a finished A-MSDU only
    passes through. -/
theorem reorder_fast {flags : RxFlags} {pn : KiteFrame} {band : ℕ} (hstate : (s.entry k).state = 4)
    (hamsdu : ¬((s.entry k).amsdu + 254) % 256 ≤ 1) (hsn : ((s.entry k).last + 1) % 4096 = pn.sn) :
    kiteReorder s k flags pn band =
      kiteInOrder (s.setCtl k { (s.entry k).toBaCtl with band := band }) k pn := by
  unfold kiteReorder
  simp only
  rw [if_neg (by omega)]
  set t := s.setCtl k { (s.entry k).toBaCtl with band := band } with ht
  have hctl : (t.entry k).toBaCtl = { (s.entry k).toBaCtl with band := band } := by
    rw [ht, entry_setCtl]
  have hupdate : baStateUpdate t k pn.sn pn.amsdu = t := by
    unfold baStateUpdate
    simp only
    rw [if_pos]
    rw [hctl]
    unfold BaCtl.settled
    simp only
    split
    · exact .inl (by omega)
    · omega
  have hslide : kiteSlide k pn.sn nodeFuel t = (t, .inOrder) := by
    have hfuel : nodeFuel = 7001 + 1 := rfl
    have hstanding : (t.entry k).toBaCtl.standing pn.sn = some .inOrder := by
      rw [hctl]
      unfold BaCtl.standing
      exact if_pos hsn
    rw [hfuel]
    unfold kiteSlide
    rw [hstanding]
  rw [hupdate, hslide]
  rfl

/-- The window's update of the two paths. -/
theorem inOrder_fast {pn : KiteFrame} {band : ℕ} (houts : s.outs = [])
    (hband : (s.entry k).band = band) :
    let t := if pn.amsdu ≤ 1 then fastMove s k pn.sn else s
    kiteInOrder s k pn =
      (t.setCtl k { (t.entry k).toBaCtl with amsdu := pn.amsdu, ref := pn.sn, flag := 0 }).after
        [bridgeOut k pn band pn.bss] := by
  intro t
  have hemit : s.emit (bridgeOut k pn band pn.bss) = s.after [bridgeOut k pn band pn.bss] := by
    unfold BaState.emit BaState.after
    rw [houts]
    rfl
  unfold kiteInOrder
  simp only
  rw [hband, hemit]
  by_cases hlast : pn.amsdu ≤ 1
  · have ht : t = fastMove s k pn.sn := if_pos hlast
    rw [if_pos hlast, after_moveLast, ht, fastMove_eq, entry_setCtl, setCtl_setCtl]
    unfold BaCtl.seen
    rw [if_pos hlast]
    rfl
  · have ht : t = s := if_neg hlast
    rw [if_neg hlast, ht]
    unfold BaCtl.seen
    rw [if_neg hlast]
    rfl

theorem settle_after (s : BaState) (o : Outside W) (e : Out) :
    settle sw ports (s.after [e]) o = settle sw ports s (deliver sw ports o e) := rfl

/-- The fast classifier and the slow one return the same, leave the same
    state and make the same calls. -/
theorem classify_fast_eq (sw : RxSwitches) (ports : RxPorts W) (r : Rx W) (b : RxBuf)
    (bufId len band : ℕ) :
    kiteClassifyFast sw ports r b bufId len band = kiteClassify sw ports r b bufId len band := by
  unfold kiteClassifyFast
  by_cases hslow : sw.noBaTest ∨ sw.counting
  · rw [if_pos hslow]
  rw [if_neg hslow]
  obtain ⟨htest, -⟩ := not_or.mp hslow
  unfold kiteClassify
  rw [if_neg htest]
  cases hparse : kiteRxParse b bufId len with
  | none => rfl
  | some pn =>
    simp only
    by_cases hwcid : pn.wcid = 0
    · rw [if_pos hwcid]
    rw [if_neg hwcid, fastKey_eq]
    set k := baKey sw.dbdc band pn.wcid pn.tid with hk
    by_cases hpn : sw.slow (r.ba.entry k).toBaCtl pn band
    · rw [if_pos hpn]
    rw [if_neg hpn]
    -- the frame is next in the window of an open session
    have hopen := hpn
    unfold RxSwitches.slow at hopen
    simp only [not_or, not_not] at hopen
    obtain ⟨hstate, hamsdu, hsn, -⟩ := hopen
    set s : BaState := { r.ba with outs := [] } with hs
    set t := s.setCtl k { (s.entry k).toBaCtl with band := band } with ht
    have hclassify : kiteClassifyPn s sw.toRxFlags pn band = (kiteInOrder t k pn, .taken) := by
      unfold kiteClassifyPn
      rw [if_neg hwcid]
      simp only
      rw [← hk, if_neg (by show (r.ba.entry k).state ≠ 0; omega),
        reorder_fast (s := s) hstate hamsdu hsn]
    have hband : (t.entry k).band = band := by
      rw [ht, entry_setCtl]
    unfold classifyPn
    simp only
    rw [← hs, hclassify, inOrder_fast (s := t) rfl hband, settle_after,
      deliver_fast (kiteRxParse_len hparse) hpn]

end ClankerNPU.Kite
