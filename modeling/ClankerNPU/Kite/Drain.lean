import ClankerNPU.Kite.Segments

/-! # Segments drained

    `rxnode_drain` counts the segments of the frame at the read index,
    hands them to the host when they are complete and drops them
    otherwise. The count and the number of a segment have three bits. -/

namespace ClankerNPU.Kite

variable {t t' : SegRx} {q : List RxNode} (band : ℕ)

/-! ## The host's answers -/

/-- The call after the first one of `tries` from call `c` on that finds
    room. -/
def roomAfter (room : ℕ → Bool) : ℕ → ℕ → Option ℕ
  | _, 0 => none
  | c, tries + 1 => if room c then some (c + 1) else roomAfter room (c + 1) tries

/-- The host takes `n` segments one after another, each within `tries`
    calls. -/
def HostTakes (room : ℕ → Bool) (tries : ℕ) : ℕ → ℕ → Prop
  | _, 0 => True
  | c, n + 1 => ∃ c', roomAfter room c tries = some c' ∧ HostTakes room tries c' n

/-- The segment the host gets for a node. -/
def RxNode.out (node : RxNode) (pktBuf band : ℕ) : SegOut :=
  ⟨pktDma pktBuf node.bufId, node.pktLen, band, (node.flags >>> 2).toNat, node.origLen,
    node.flags &&& 2#8 ≠ 0#8⟩

/-- Calls of `rxnode_submit` until one is taken. -/
theorem rxnodeSubmitRetry_some {node : RxNode} {tries c : ℕ}
    (h : roomAfter t.hostRoom t.submits tries = some c) :
    rxnodeSubmitRetry band node tries t =
      { t with submits := c, handed := t.handed ++ [node.out t.pktBuf band] } := by
  induction tries generalizing t with
  | zero => cases h
  | succ tries ih =>
    unfold roomAfter at h
    unfold rxnodeSubmitRetry rxnodeSubmit
    by_cases hroom : t.hostRoom t.submits = true
    · rw [if_pos hroom] at h
      obtain rfl := Option.some.inj h
      simp only [if_pos hroom]
      rfl
    · rw [if_neg hroom] at h
      simp only [if_neg hroom]
      rw [if_neg (by decide)]
      exact ih (t := { t with submits := t.submits + 1 }) h

theorem rxnodeSubmitRetry_none {node : RxNode} {tries : ℕ}
    (h : roomAfter t.hostRoom t.submits tries = none) :
    rxnodeSubmitRetry band node tries t = { t with submits := t.submits + tries } := by
  induction tries generalizing t with
  | zero => rfl
  | succ tries ih =>
    unfold roomAfter at h
    unfold rxnodeSubmitRetry rxnodeSubmit
    by_cases hroom : t.hostRoom t.submits = true
    · rw [if_pos hroom] at h
      cases h
    · rw [if_neg hroom] at h
      simp only [if_neg hroom]
      rw [if_neg (by decide), ih (t := { t with submits := t.submits + 1 }) h]
      simp only [Nat.add_assoc, Nat.add_comm 1]

/-! ## Segments handed over or dropped -/

/-- What the loop of the drain does to the read index's node. -/
theorem rxnodeProcess_succ (submit : Bool) (count : ℕ) {node : RxNode}
    (hnode : t.rxnodes.slot t.rxnodes.ridx = some node) :
    rxnodeProcess band submit (count + 1) t =
      let t := if submit then rxnodeSubmitRetry band node (t.retryLimit + 1) t else t
      rxnodeProcess band submit count
        { t with rxnodes := t.rxnodes.pop rxnodeRingSize, freed := t.freed ++ [node.bufId] } := by
  rw [rxnodeProcess, hnode, Option.getD_some, rxnodeSubmitRetry]
  simp only [ne_eq, ite_not]

/-- Segments that make no complete frame are dropped. -/
theorem rxnodeProcess_drop {dropped : List RxNode}
    (hring : t.rxnodes.Holds rxnodeRingSize (dropped ++ q)) :
    let r := rxnodeProcess band false dropped.length t
    r.rxnodes.Holds rxnodeRingSize q ∧ r.handed = t.handed := by
  induction dropped generalizing t with
  | nil => exact ⟨hring, rfl⟩
  | cons node dropped ih =>
    have hhead := hring.head
    rw [List.cons_append, List.head?_cons] at hhead
    rw [List.length_cons, rxnodeProcess_succ band false _ hhead]
    exact ih (t := { t with
      rxnodes := t.rxnodes.pop rxnodeRingSize
      freed := t.freed ++ [node.bufId] }) hring.pop

/-- What the drain leaves of complete segments in front of `q`: all of
    them are taken out and freed, and all of them are handed over, in
    order, just when the host takes each. -/
structure Submitted (t r : SegRx) (nodes q : List RxNode) : Prop where
  ring : r.rxnodes.Holds rxnodeRingSize q
  freed : r.freed = t.freed ++ nodes.map RxNode.bufId
  bound : r.handed.length ≤ t.handed.length + nodes.length
  all : HostTakes t.hostRoom (t.retryLimit + 1) t.submits nodes.length →
    r.handed = t.handed ++ nodes.map (·.out t.pktBuf band)
  short : ¬HostTakes t.hostRoom (t.retryLimit + 1) t.submits nodes.length →
    r.handed.length < t.handed.length + nodes.length

section submitted

variable {node : RxNode} {nodes : List RxNode} {ring : FlagRing RxNode}

/-- The host refuses the first segment. -/
theorem Submitted.refused (hroom : roomAfter t.hostRoom t.submits (t.retryLimit + 1) = none)
    (h : Submitted band { t with
      submits := t.submits + (t.retryLimit + 1)
      rxnodes := ring
      freed := t.freed ++ [node.bufId] } t' nodes q) : Submitted band t t' (node :: nodes) q := by
  have hbound : t'.handed.length ≤ t.handed.length + nodes.length := h.bound
  constructor
  case ring => exact h.ring
  case freed =>
    rw [h.freed, List.append_assoc]
    rfl
  case bound =>
    rw [List.length_cons]
    omega
  case all =>
    rintro ⟨c, hc, -⟩
    rw [hroom] at hc
    cases hc
  case short =>
    intro _
    rw [List.length_cons]
    omega

/-- The host takes the first segment with call `c`. -/
theorem Submitted.taken {c : ℕ}
    (hroom : roomAfter t.hostRoom t.submits (t.retryLimit + 1) = some c)
    (h : Submitted band { t with
      submits := c
      handed := t.handed ++ [node.out t.pktBuf band]
      rxnodes := ring
      freed := t.freed ++ [node.bufId] } t' nodes q) : Submitted band t t' (node :: nodes) q := by
  have hbound := h.bound
  rw [List.length_append, List.length_singleton] at hbound
  constructor
  case ring => exact h.ring
  case freed =>
    rw [h.freed, List.append_assoc]
    rfl
  case bound =>
    rw [List.length_cons]
    omega
  case all =>
    rintro ⟨c', hc', hrest⟩
    obtain rfl : c' = c := by
      rw [hroom] at hc'
      exact (Option.some.inj hc').symm
    rw [h.all hrest, List.append_assoc]
    rfl
  case short =>
    intro hno
    have hless := h.short fun hrest => hno ⟨c, hroom, hrest⟩
    rw [List.length_append, List.length_singleton] at hless
    rw [List.length_cons]
    omega

end submitted

/-- Segments that make a complete frame are handed over. -/
theorem rxnodeProcess_submit {nodes : List RxNode}
    (hring : t.rxnodes.Holds rxnodeRingSize (nodes ++ q)) :
    Submitted band t (rxnodeProcess band true nodes.length t) nodes q := by
  induction nodes generalizing t with
  | nil =>
    constructor
    case ring => exact hring
    case freed => exact (List.append_nil _).symm
    case bound => exact Nat.le_refl _
    case all => exact fun _ => (List.append_nil _).symm
    case short => exact fun hnot => absurd trivial hnot
  | cons node nodes ih =>
    have hhead := hring.head
    rw [List.cons_append, List.head?_cons] at hhead
    rw [List.length_cons, rxnodeProcess_succ band true _ hhead, if_pos rfl]
    cases hroom : roomAfter t.hostRoom t.submits (t.retryLimit + 1) with
    | none =>
      rw [rxnodeSubmitRetry_none band hroom]
      exact .refused band hroom (ih hring.pop)
    | some c =>
      rw [rxnodeSubmitRetry_some band hroom]
      exact .taken band hroom (ih hring.pop)

/-! ## The count -/

/-- What the flag byte of a node tells. -/
structure RxNode.Tells (node : RxNode) (total seg : ℕ) (last : Prop) : Prop where
  total : (node.flags >>> 5).toNat = total
  seg : ((node.flags >>> 2) &&& 7#8).toNat = seg
  last : node.flags &&& 2#8 ≠ 0#8 ↔ last

theorem scan_next {scan j : ℕ} (hscan : scan = (t.rxnodes.ridx + j) % rxnodeRingSize) :
    rxnodeNext scan = (t.rxnodes.ridx + (j + 1)) % rxnodeRingSize := by
  unfold rxnodeNext
  unfold rxnodeRingSize at *
  split_ifs <;> omega

/-- A complete frame of up to seven segments is counted to its end. -/
theorem rxnodeScan_complete {d j : ℕ} (hring : t.rxnodes.Holds rxnodeRingSize q)
    (hsmall : q.length ≤ 7)
    (htells : ∀ i (hi : i < q.length), q[i].Tells q.length (i + 1) (i + 1 = q.length))
    (hj : j + d + 1 = q.length) :
    rxnodeScan t ((t.rxnodes.ridx + j) % rxnodeRingSize) 0 j = (q.length, true) := by
  induction d generalizing j with
  | zero =>
    have hlt : j < q.length := by omega
    have hslot := hring.slot_eq j (by unfold rxnodeRingSize; omega)
    rw [List.getElem?_eq_getElem hlt] at hslot
    obtain ⟨htotal, hseg, hlast⟩ := htells j hlt
    rw [rxnodeScan, hslot]
    simp only [htotal, hseg, if_pos (hlast.mpr (by omega))]
    rw [Nat.mod_eq_of_lt (by omega)]
    simp only [Prod.mk.injEq, decide_eq_true_eq]
    exact ⟨by omega, by omega, trivial⟩
  | succ d ih =>
    have hlt : j < q.length := by omega
    have hslot := hring.slot_eq j (by unfold rxnodeRingSize; omega)
    rw [List.getElem?_eq_getElem hlt] at hslot
    obtain ⟨htotal, hseg, hlast⟩ := htells j hlt
    have hmore : ¬(q[j].flags &&& 2#8 ≠ 0#8) := fun h => by
      have := hlast.mp h
      omega
    rw [rxnodeScan, hslot]
    simp only [htotal, if_neg hmore]
    rw [Nat.mod_eq_of_lt (by omega), if_neg (by omega), if_neg (Nat.not_lt_zero _),
      scan_next rfl]
    exact ih (by omega)

/-- Segments that tell a smaller number than their own are counted to that
    number, the last of them left out. -/
theorem rxnodeScan_short {m d j : ℕ} (hring : t.rxnodes.Holds rxnodeRingSize q) (hm : m ≤ 7)
    (htells : ∀ i (hi : i < q.length), i < 7 → q[i].Tells m (i + 1) False) (hmore : 7 < q.length)
    (hj : j + d = m - 1) :
    rxnodeScan t ((t.rxnodes.ridx + j) % rxnodeRingSize) 0 j = (m - 1, false) := by
  induction d generalizing j with
  | zero =>
    have hslot := hring.slot_eq j (by unfold rxnodeRingSize; omega)
    rw [List.getElem?_eq_getElem (by omega)] at hslot
    obtain ⟨htotal, -, hlast⟩ := htells j (by omega) (by omega)
    rw [rxnodeScan, hslot]
    simp only [htotal, if_neg fun h => hlast.mp h]
    rw [Nat.mod_eq_of_lt (by omega), if_pos (by omega)]
    exact Prod.ext (by omega) rfl
  | succ d ih =>
    have hslot := hring.slot_eq j (by unfold rxnodeRingSize; omega)
    rw [List.getElem?_eq_getElem (by omega)] at hslot
    obtain ⟨htotal, -, hlast⟩ := htells j (by omega) (by omega)
    rw [rxnodeScan, hslot]
    simp only [htotal, if_neg fun h => hlast.mp h]
    rw [Nat.mod_eq_of_lt (by omega), if_neg (by omega), if_neg (Nat.not_lt_zero _),
      scan_next rfl]
    exact ih (by omega)

/-- No more is counted than is queued. -/
theorem rxnodeScan_le {scan tries count : ℕ} (hring : t.rxnodes.Holds rxnodeRingSize q)
    (hscan : scan = (t.rxnodes.ridx + count) % rxnodeRingSize) (hle : count ≤ q.length)
    (hsmall : count ≤ 7) : (rxnodeScan t scan tries count).1 ≤ q.length := by
  -- a filled slot lies inside the queue
  have hinside : ∀ {count node}, count ≤ q.length → count ≤ 7 →
      t.rxnodes.slot ((t.rxnodes.ridx + count) % rxnodeRingSize) = some node →
      count < q.length := by
    intro count node hle hsmall hslot
    rw [hring.slot_eq count (by unfold rxnodeRingSize; omega)] at hslot
    exact (List.getElem?_eq_some_iff.mp hslot).1
  fun_induction rxnodeScan t scan tries count with
  | case1 => exact hle
  | case2 scan tries count hslot htries ih => exact ih hscan hle hsmall
  | case3 scan tries count node hslot seg next hlast =>
    have hlt := hinside hle hsmall (hscan ▸ hslot)
    show (count + 1) % 2 ^ 16 ≤ q.length
    omega
  | case4 => exact hle
  | case5 scan tries count node hslot total next hlast hnext htries =>
    have hlt := hinside hle hsmall (hscan ▸ hslot)
    show (count + 1) % 2 ^ 16 ≤ q.length
    omega
  | case6 scan tries count node hslot total next hlast hnext htries ih =>
    have hlt := hinside hle hsmall (hscan ▸ hslot)
    have htotal : total < 8 := flags_total_lt node.flags
    have hone : next = count + 1 := Nat.mod_eq_of_lt (by omega)
    exact ih (by rw [scan_next hscan, hone]) (by omega) (by omega)

theorem rxnodeScan_start (hring : t.rxnodes.Holds rxnodeRingSize q) :
    (rxnodeScan t t.rxnodes.ridx 0 0).1 ≤ q.length :=
  rxnodeScan_le hring (Nat.mod_eq_of_lt hring.ridx_lt).symm (Nat.zero_le _) (Nat.zero_le _)

/-! ## One drain -/

/-- A complete frame is handed over, or some of it is refused. -/
theorem rxnodeDrain_complete (hring : t.rxnodes.Holds rxnodeRingSize q) (hpos : 0 < q.length)
    (hsmall : q.length ≤ 7)
    (htells : ∀ i (hi : i < q.length), q[i].Tells q.length (i + 1) (i + 1 = q.length)) :
    rxnodeDrain t band = rxnodeProcess band true q.length t := by
  have hhead := hring.head
  rw [List.head?_eq_getElem?, List.getElem?_eq_getElem hpos] at hhead
  have hscan := rxnodeScan_complete (d := q.length - 1) (j := 0) hring hsmall htells (by omega)
  rw [Nat.add_zero, Nat.mod_eq_of_lt hring.ridx_lt] at hscan
  unfold rxnodeDrain
  rw [hhead]
  simp only [hscan]

/-- A drain hands over no more than it takes out of the ring. -/
theorem rxnodeDrain_bound (hring : t.rxnodes.Holds rxnodeRingSize q) :
    ∃ q', (rxnodeDrain t band).rxnodes.Holds rxnodeRingSize q' ∧
      (rxnodeDrain t band).handed.length + q'.length ≤ t.handed.length + q.length := by
  unfold rxnodeDrain
  split
  · exact ⟨q, hring, Nat.le_refl _⟩
  · have hle := rxnodeScan_start hring
    generalize rxnodeScan t t.rxnodes.ridx 0 0 = r at hle
    obtain ⟨count, submit⟩ := r
    have hlen : (q.take count).length = count := List.length_take_of_le hle
    have hsplit : t.rxnodes.Holds rxnodeRingSize (q.take count ++ q.drop count) := by
      rwa [List.take_append_drop]
    refine ⟨q.drop count, ?_⟩
    rw [List.length_drop]
    simp only at hle ⊢
    cases submit with
    | false =>
      obtain ⟨hq, hhanded⟩ := rxnodeProcess_drop band hsplit
      rw [hlen] at hq hhanded
      rw [hhanded]
      exact ⟨hq, by omega⟩
    | true =>
      have hsubmitted := rxnodeProcess_submit band hsplit
      have hbound := hsubmitted.bound
      have hq := hsubmitted.ring
      rw [hlen] at hq hbound
      exact ⟨hq, by omega⟩

/-- Nor do any number of drains. -/
theorem drains_bound (hring : t.rxnodes.Holds rxnodeRingSize q) (k : ℕ) :
    ((fun t => rxnodeDrain t band)^[k] t).handed.length ≤ t.handed.length + q.length := by
  induction k generalizing t q with
  | zero => exact Nat.le_add_right ..
  | succ k ih =>
    obtain ⟨q', hq', hle⟩ := rxnodeDrain_bound band hring
    have hrest := ih hq'
    rw [Function.iterate_succ_apply]
    omega

/-- The number of segments has three bits: eight or more of them are never
    all handed over. -/
theorem drains_short {m : ℕ} (hring : t.rxnodes.Holds rxnodeRingSize q) (hm : m ≤ 7)
    (htells : ∀ i (hi : i < q.length), i < 7 → q[i].Tells m (i + 1) False) (hmore : 7 < q.length)
    (k : ℕ) :
    ((fun t => rxnodeDrain t band)^[k] t).handed.length < t.handed.length + q.length := by
  have hhead := hring.head
  rw [List.head?_eq_getElem?, List.getElem?_eq_getElem (by omega)] at hhead
  have hscan := rxnodeScan_short (d := m - 1) (j := 0) hring hm htells hmore (Nat.zero_add _)
  rw [Nat.add_zero, Nat.mod_eq_of_lt hring.ridx_lt] at hscan
  have hdrain : rxnodeDrain t band = rxnodeProcess band false (m - 1) t := by
    unfold rxnodeDrain
    rw [hhead]
    simp only [hscan]
  cases k with
  | zero => exact Nat.lt_add_of_pos_right (by omega)
  | succ k =>
    by_cases hstall : m ≤ 1
    · -- nothing is counted, and the ring stays as it is for ever
      have hfixed : rxnodeDrain t band = t := by
        rw [hdrain, Nat.sub_eq_zero_of_le hstall]
        rfl
      rw [Function.iterate_fixed hfixed]
      exact Nat.lt_add_of_pos_right (by omega)
    · -- the first segments are dropped
      have hlen : (q.take (m - 1)).length = m - 1 := List.length_take_of_le (by omega)
      have hsplit : t.rxnodes.Holds rxnodeRingSize (q.take (m - 1) ++ q.drop (m - 1)) := by
        rwa [List.take_append_drop]
      obtain ⟨hq, hhanded⟩ := rxnodeProcess_drop band hsplit
      rw [hlen, ← hdrain] at hq hhanded
      have hrest := drains_bound band hq k
      rw [hhanded, List.length_drop] at hrest
      rw [Function.iterate_succ_apply]
      omega

/-! ## A frame from the chip to the host -/

/-- A frame over `n` descriptors from `idx` on, too long for one buffer. -/
structure FrameAt (t : SegRx) (idx n len : ℕ) : Prop where
  start : idx ≤ kiteRxRingLast
  several : 2 ≤ n
  last : ∀ i < n, (t.desc ((idx + i) % (kiteRxRingLast + 1))).last = true ↔ i + 1 = n
  sum : ((t.pieces idx n).map fun p => p.1.frag).sum = len
  long : kiteRxBufLen < len ∧ len < 0x4000

/-- There are ids, and room in the segment ring. -/
structure RoomFor (t : SegRx) (n : ℕ) : Prop where
  ids : ∀ i < n, (t.alloc (t.allocs + i)).isSome
  empty : t.rxnodes.Holds rxnodeRingSize []
  room : n ≤ rxnodeRingSize

/-- The segments of the frame as the host is to get them. -/
def segmentsOut (t : SegRx) (band idx n len : ℕ) : List SegOut :=
  (t.pieces idx n).mapIdx fun i p =>
    ⟨pktDma t.pktBuf (u32 p.2), len, band, i + 1 + 8 * n, p.1.frag, decide (i + 1 = n)⟩

/-- Some number of drains after `kite_rx_multi` the host has the segments,
    every buffer is given back once and the segment ring is empty. -/
def FrameDelivered (t : SegRx) (band idx n len : ℕ) : Prop :=
  ∃ k, let r := (fun t => rxnodeDrain t band)^[k] (kiteRxMulti t band idx len n).2
    r.handed = t.handed ++ segmentsOut t band idx n len ∧
      r.freed = t.freed ++ (t.pieces idx n).map (fun p => u32 p.2) ∧
      r.rxnodes.Holds rxnodeRingSize []

theorem length_pieces (t : SegRx) (idx n : ℕ) : (t.pieces idx n).length = n :=
  Circular.length_window ..

theorem length_segmentsOut (t : SegRx) (band idx n len : ℕ) :
    (segmentsOut t band idx n len).length = n := by
  unfold segmentsOut
  rw [List.length_mapIdx, length_pieces]

theorem pieces_getElem {n idx i : ℕ} (hi : i < (t.pieces idx n).length) :
    (t.pieces idx n)[i] =
      (t.desc ((idx + i) % (kiteRxRingLast + 1)), t.tbl ((idx + i) % (kiteRxRingLast + 1))) := by
  unfold SegRx.pieces Circular.window at hi ⊢
  rw [List.getElem_map, List.getElem_range]

theorem frag_lt (d : RxDesc) : d.frag < 2 ^ 14 := by
  unfold RxDesc.frag
  rw [BitVec.toNat_and]
  exact Nat.lt_of_le_of_lt Nat.and_le_right (by decide)

section frames

variable {idx n len : ℕ}

/-- The nodes of a frame. -/
def frameNodes (t : SegRx) (idx n len : ℕ) : List RxNode :=
  (t.pieces idx n).mapIdx (segNode len n 0#8)

theorem length_frameNodes : (frameNodes t idx n len).length = n := by
  unfold frameNodes
  rw [List.length_mapIdx, length_pieces]

theorem frameNodes_getElem {i : ℕ} (hi : i < (frameNodes t idx n len).length) :
    (frameNodes t idx n len)[i] = segNode len n 0#8 i
      (t.desc ((idx + i) % (kiteRxRingLast + 1)), t.tbl ((idx + i) % (kiteRxRingLast + 1))) := by
  unfold frameNodes at hi ⊢
  rw [List.getElem_mapIdx, pieces_getElem]

theorem segmentsOut_getElem {i : ℕ} (hi : i < (segmentsOut t band idx n len).length) :
    (segmentsOut t band idx n len)[i] =
      ⟨pktDma t.pktBuf (u32 (t.tbl ((idx + i) % (kiteRxRingLast + 1)))), len, band, i + 1 + 8 * n,
        (t.desc ((idx + i) % (kiteRxRingLast + 1))).frag, decide (i + 1 = n)⟩ := by
  unfold segmentsOut at hi ⊢
  rw [List.getElem_mapIdx, pieces_getElem]

/-- What the flag bytes of the first seven nodes tell. -/
theorem FrameAt.tells (hframe : FrameAt t idx n len) {i : ℕ}
    (hi : i < (frameNodes t idx n len).length) (hseven : i < 7) :
    (frameNodes t idx n len)[i].Tells (n % 8) (i + 1) (i + 1 = n) ∧
      ((frameNodes t idx n len)[i].flags >>> 2).toNat = i + 1 + 8 * (n % 8) := by
  have hin : i < n := by rwa [length_frameNodes] at hi
  have hlast := hframe.last i hin
  have hfields := segFlags_fields (t.desc ((idx + i) % (kiteRxRingLast + 1))).w1
    (i := i + 1) (by omega) n
  rw [frameNodes_getElem hi, segNode, BitVec.zero_add]
  obtain ⟨htotal, hseg, htype, hbit⟩ := hfields
  exact ⟨⟨htotal, hseg, hbit.trans hlast⟩, htype⟩

/-- Up to seven segments reach the host as they are to. -/
theorem FrameAt.outs (hframe : FrameAt t idx n len) (hseven : n ≤ 7) :
    (frameNodes t idx n len).map (·.out t.pktBuf band) = segmentsOut t band idx n len := by
  apply List.ext_getElem
  · rw [List.length_map, length_frameNodes, length_segmentsOut]
  · intro i hi hi'
    rw [List.length_map] at hi
    have hin : i < n := by rwa [length_frameNodes] at hi
    obtain ⟨htells, htype⟩ := hframe.tells hi (by omega)
    have hlen : u16 len = len := u16_natCast_of_lt (by have := hframe.long.2; omega)
    have hfrag := u16_natCast_of_lt
      (Nat.lt_trans (frag_lt (t.desc ((idx + i) % (kiteRxRingLast + 1)))) (by decide))
    have hlast : decide ((frameNodes t idx n len)[i].flags &&& 2#8 ≠ 0#8) = decide (i + 1 = n) :=
      decide_eq_decide.mpr htells.last
    rw [List.getElem_map]
    unfold RxNode.out
    rw [htype, hlast, Nat.mod_eq_of_lt (by omega)]
    rw [frameNodes_getElem hi, segmentsOut_getElem band hi', segNode]
    simp only [hlen, hfrag]

theorem frameNodes_bufIds :
    (frameNodes t idx n len).map RxNode.bufId = (t.pieces idx n).map fun p => u32 p.2 := by
  apply List.ext_getElem
  · rw [List.length_map, List.length_map, length_frameNodes, length_pieces]
  · intro i hi hi'
    rw [List.length_map] at hi hi'
    rw [List.getElem_map, List.getElem_map, frameNodes_getElem hi, pieces_getElem hi', segNode]

theorem RoomFor.queued (hroom : RoomFor t n) : ([] : List RxNode).length + n ≤ rxnodeRingSize := by
  rw [List.length_nil, Nat.zero_add]
  exact hroom.room

/-- Up to seven nodes tell the frame. -/
theorem FrameAt.tells_all (hframe : FrameAt t idx n len) (hseven : n ≤ 7) :
    ∀ i (hi : i < (frameNodes t idx n len).length), (frameNodes t idx n len)[i].Tells
      (frameNodes t idx n len).length (i + 1) (i + 1 = (frameNodes t idx n len).length) := by
  intro i hi
  have hin : i < n := by rwa [length_frameNodes] at hi
  obtain ⟨htells, -⟩ := hframe.tells hi (by omega)
  rw [Nat.mod_eq_of_lt (by omega)] at htells
  rwa [length_frameNodes]

/-- The segments of a long frame, with room for all of them. -/
theorem kiteRxMulti_segments (hframe : FrameAt t idx n len) (hroom : RoomFor t n) :
    (kiteRxMulti t band idx len n).2 =
      { (kiteRxSegments band len n n idx 0#8 t).2 with
        cpuIdx := (kiteRxSegments band len n n idx 0#8 t).1 } := by
  have hn : n % 256 = n := by
    have := hroom.room
    unfold rxnodeRingSize at this
    omega
  have hlong := hframe.long
  unfold kiteRxMulti
  rw [hn]
  simp only [if_neg (Nat.not_le.mpr hlong.2), if_pos hlong.1]

theorem FrameAt.len_lt (hframe : FrameAt t idx n len) : len < 2 ^ 16 := by
  have := hframe.long.2
  omega

/-- A frame none of whose segments is all of it is queued. -/
theorem FrameAt.queued (hframe : FrameAt t idx n len) (hroom : RoomFor t n)
    (hpart : ∀ p ∈ t.pieces idx n, p.1.frag ≠ len) :
    Queued t (kiteRxMulti t band idx len n).2 (frameNodes t idx n len) := by
  have hdone := kiteRxSegments_queued band n 0#8 hroom.empty
    hroom.queued hframe.start hroom.ids hframe.len_lt hpart
  rw [List.nil_append] at hdone
  rw [kiteRxMulti_segments band hframe hroom]
  exact ⟨hdone.ring, hdone.handed, hdone.freed, hdone.submits, hdone.hostRoom, hdone.retryLimit,
    hdone.pktBuf⟩

theorem Queued.tail (h : Queued t t' q) : t'.rxnodes.Holds rxnodeRingSize (q ++ []) := by
  rw [List.append_nil]
  exact h.ring

/-- Fewer segments than the frame has are not the frame. -/
theorem not_delivered_of_few (hfew : ∀ k, ((fun t => rxnodeDrain t band)^[k]
      (kiteRxMulti t band idx len n).2).handed.length < t.handed.length + n) :
    ¬FrameDelivered t band idx n len := by
  rintro ⟨k, hhanded, -⟩
  have hk := hfew k
  rw [hhanded, List.length_append, length_segmentsOut] at hk
  omega

/-- A segment as long as the frame goes to the ring of whole frames. -/
theorem not_delivered_of_whole (hframe : FrameAt t idx n len) (hroom : RoomFor t n)
    (hwhole : ∃ p ∈ t.pieces idx n, p.1.frag = len) : ¬FrameDelivered t band idx n len := by
  obtain ⟨hhanded, q, hq, hle⟩ := kiteRxSegments_atMost band n 0#8 hroom.empty hroom.queued hframe.start hroom.ids hframe.len_lt
  have hfewer : (t.pieces idx n).countP (fun p => p.1.frag ≠ len) < n := by
    obtain ⟨p, hp, hpl⟩ := hwhole
    refine lt_of_le_of_ne (List.countP_le_length.trans_eq (length_pieces ..)) fun hall => ?_
    have hevery := List.countP_eq_length.mp (hall.trans (length_pieces ..).symm) p hp
    exact (of_decide_eq_true hevery) hpl
  rw [List.length_nil, Nat.zero_add] at hle
  have hring : (kiteRxMulti t band idx len n).2.rxnodes.Holds rxnodeRingSize q := by
    rw [kiteRxMulti_segments band hframe hroom]
    exact hq
  have hsame : (kiteRxMulti t band idx len n).2.handed = t.handed := by
    rw [kiteRxMulti_segments band hframe hroom]
    exact hhanded
  apply not_delivered_of_few band
  intro k
  have hbound := drains_bound band hring k
  rw [hsame] at hbound
  omega

/-- Eight or more segments are not delivered. -/
theorem not_delivered_of_many (hframe : FrameAt t idx n len) (hroom : RoomFor t n)
    (hpart : ∀ p ∈ t.pieces idx n, p.1.frag ≠ len) (hmany : 7 < n) :
    ¬FrameDelivered t band idx n len := by
  have hqueued := hframe.queued band hroom hpart
  apply not_delivered_of_few band
  intro k
  have hshort := drains_short band (m := n % 8) hqueued.ring (by omega) ?_ ?_ k
  · rwa [hqueued.handed, length_frameNodes] at hshort
  · intro i hi hlt
    obtain ⟨⟨htotal, hseg, hlast⟩, -⟩ := hframe.tells hi hlt
    exact ⟨htotal, hseg, hlast.trans (iff_of_false (by omega) id)⟩
  · rw [length_frameNodes]
    exact hmany

/-- Up to seven segments are delivered just when the host takes them. -/
theorem delivered_iff_takes (hframe : FrameAt t idx n len) (hroom : RoomFor t n)
    (hpart : ∀ p ∈ t.pieces idx n, p.1.frag ≠ len) (hseven : n ≤ 7) :
    FrameDelivered t band idx n len ↔ HostTakes t.hostRoom (t.retryLimit + 1) t.submits n := by
  have hqueued := hframe.queued band hroom hpart
  have hsome := hframe.several
  obtain ⟨hq, hfree, -, htakes, hnot⟩ := rxnodeProcess_submit band (q := []) hqueued.tail
  rw [← rxnodeDrain_complete band hqueued.ring (by rw [length_frameNodes]; omega)
    (by rw [length_frameNodes]; exact hseven) (hframe.tells_all hseven)] at hq hfree htakes hnot
  rw [hqueued.hostRoom, hqueued.retryLimit, hqueued.submits, hqueued.handed,
    length_frameNodes] at htakes hnot
  constructor
  · intro hdelivered
    by_contra hrefused
    have hless := hnot hrefused
    refine not_delivered_of_few band (fun k => ?_) hdelivered
    -- the first drain empties the ring with a segment refused
    cases k with
    | zero =>
      show (kiteRxMulti t band idx len n).2.handed.length < _
      rw [hqueued.handed]
      omega
    | succ k =>
      have hbound := drains_bound band hq k
      rw [List.length_nil, Nat.add_zero] at hbound
      rw [Function.iterate_succ_apply]
      omega
  · intro htake
    refine ⟨1, ?_, ?_, hq⟩
    · show (rxnodeDrain (kiteRxMulti t band idx len n).2 band).handed = _
      rw [htakes htake, hqueued.pktBuf, hframe.outs band hseven]
    · show (rxnodeDrain (kiteRxMulti t band idx len n).2 band).freed = _
      rw [hfree, hqueued.freed, frameNodes_bufIds]

/-- A long frame reaches the host just when it has at most seven segments,
    none of them is as long as the frame and the host takes each within the
    retries. -/
theorem frameDelivered_iff (hframe : FrameAt t idx n len) (hroom : RoomFor t n) :
    FrameDelivered t band idx n len ↔
      n ≤ 7 ∧ (∀ p ∈ t.pieces idx n, p.1.frag ≠ len) ∧
        HostTakes t.hostRoom (t.retryLimit + 1) t.submits n := by
  by_cases hpart : ∀ p ∈ t.pieces idx n, p.1.frag ≠ len
  · by_cases hseven : n ≤ 7
    · rw [delivered_iff_takes band hframe hroom hpart hseven]
      exact ⟨fun h => ⟨hseven, hpart, h⟩, fun h => h.2.2⟩
    · exact iff_of_false (not_delivered_of_many band hframe hroom hpart (Nat.not_le.mp hseven))
        fun h => hseven h.1
  · refine iff_of_false ?_ fun h => hpart h.2.1
    push Not at hpart
    exact not_delivered_of_whole band hframe hroom hpart

end frames

/-- `n` descriptors with pieces of one length at the start of the ring, and
    a host with room. -/
def equalPieces (n frag : ℕ) : SegRx where
  desc := fun i => ⟨0, BitVec.ofNat 32 (2 ^ 31 + (if i + 1 = n then 2 ^ 30 else 0) + frag * 2 ^ 16)⟩
  tbl := fun i => i + 1
  cpuIdx := 0
  mem := fun _ => 0
  pktBuf := 0
  rxnodes := .empty
  pinodes := .empty
  retryLimit := 3
  alloc := fun i => some (i + 2000)
  allocs := 0
  freed := []
  hostRoom := fun _ => true
  submits := 0
  handed := []

theorem equalPieces_room {n frag : ℕ} (hn : n ≤ rxnodeRingSize) : RoomFor (equalPieces n frag) n :=
  ⟨fun _ _ => rfl, FlagRing.holds_empty (by decide), hn⟩

/-- Two pieces of 2000 bytes. -/
theorem frameDelivered_iff_two : FrameDelivered (equalPieces 2 2000) 0 0 2 4000 :=
  (frameDelivered_iff 0 ⟨by decide, by decide, by decide, by decide, by decide⟩
    (equalPieces_room (by decide))).mpr
    ⟨by decide, by decide, 1, rfl, 2, rfl, trivial⟩

/-- Eight pieces of 1000 bytes are queued and never handed over. -/
theorem frameDelivered_eight :
    FrameAt (equalPieces 8 1000) 0 8 8000 ∧ RoomFor (equalPieces 8 1000) 8 ∧
      ¬FrameDelivered (equalPieces 8 1000) 0 0 8 8000 := by
  have hframe : FrameAt (equalPieces 8 1000) 0 8 8000 :=
    ⟨by decide, by decide, by decide, by decide, by decide⟩
  have hroom : RoomFor (equalPieces 8 1000) 8 := equalPieces_room (by decide)
  exact ⟨hframe, hroom, not_delivered_of_many 0 hframe hroom (by decide) (by decide)⟩

end ClankerNPU.Kite
