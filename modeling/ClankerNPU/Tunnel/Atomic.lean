import ClankerNPU.Tunnel.Model

/-! # Whole packets or none

    An operation offers its packets to the bridge segment by segment, and
    any offer can be refused. Only the send of a packet as one segment
    looks at the answer; every other operation goes on and reports
    success. -/

namespace ClankerNPU.Tunnel

open Memory

variable {t t' : Tun} {n : ℕ}

/-- The packets of a log, each from its first segment to its last. -/
def packets : List Egress → List (List Egress)
  | [] => []
  | e :: log =>
    if e.seg.last then [e] :: packets log
    else
      match packets log with
      | [] => [[e]]
      | p :: ps => (e :: p) :: ps

theorem mem_of_packets {log : List Egress} {p : List Egress} {e : Egress} (hp : p ∈ packets log)
    (he : e ∈ p) : e ∈ log := by
  induction log generalizing p with
  | nil => exact absurd hp List.not_mem_nil
  | cons x log ih =>
    unfold packets at hp
    split_ifs at hp with hlast
    · rcases List.mem_cons.1 hp with rfl | hp
      · rw [List.mem_singleton.1 he]
        exact List.mem_cons_self
      · exact List.mem_cons_of_mem _ (ih hp he)
    · split at hp
      · rw [List.mem_singleton.1 hp, List.mem_singleton] at he
        rw [he]
        exact List.mem_cons_self
      · next q qs hlog =>
          rw [hlog] at ih
          rcases List.mem_cons.1 hp with rfl | hp
          · rcases List.mem_cons.1 he with rfl | he
            · exact List.mem_cons_self
            · exact List.mem_cons_of_mem _ (ih List.mem_cons_self he)
          · exact List.mem_cons_of_mem _ (ih (List.mem_cons_of_mem _ hp) he)

/-- What an operation offered to the bridge. -/
def offered (t t' : Tun) : List Egress := t'.log.drop t.log.length

/-- Every packet is handed over whole or not at all, one that is not is
    reported, and the buffer the caller then drops has not been handed
    over. -/
structure WholeOrReported (t : Tun) (res : ℤ × Tun) : Prop where
  whole : ∀ p ∈ packets (offered t res.2), (∀ e ∈ p, e.ok = true) ∨ ∀ e ∈ p, e.ok = false
  reported : (∃ e ∈ offered t res.2, e.ok = false) → res.1 = -1
  once : res.1 = -1 → ∀ e ∈ offered t res.2, e.ok = false

/-! ## Which way an operation goes -/

/-- How an operation ends: with an error and nothing sent, with the whole
    packet as one segment, or with a number of segments whose answers it
    does not look at. -/
inductive Way where
  | error
  | whole
  | segments (n : ℕ)
  deriving DecidableEq, Repr

/-- The calls of `npu_bridge_egress` on a way. -/
def Way.calls : Way → ℕ
  | .error => 0
  | .whole => 1
  | .segments n => n

def fragmentWay (t : Tun) (desc : ℕ) : Way :=
  let w0 : ℕ := t.mem.word32 desc
  let mtu : ℕ := t.mem.word32 (desc + 16) / 2 ^ 16
  if w0 % 2 ^ 16 ≤ hdrOffOf w0 + mtu then .error
  else if w0 / 2 ^ 27 % 2 = 1 then .segments 3
  else if w0 / 2 ^ 28 % 2 = 1 then .segments 6
  else .error

def reasmV4Way (t : Tun) (port desc hdrOff : ℕ) : Way :=
  let ip := desc + hdrOff + 32
  let m := t.mem.put32 desc (port % 32 * 16 + t.v4FragInfo)
  let sip := t.v4Reasm.desc + t.v4Reasm.hdroff + 32
  if m.be16 (ip + 6) &&& 0x2000 ≠ 0 then .segments (if t.v4Reasm.desc ≠ 0 then 1 else 0)
  else if t.v4Reasm.desc = 0 then .error
  else if m.be16 (sip + 4) ≠ m.be16 (ip + 4) then .error
  else if u16 (m.be16 (ip + 6) * 8) ≠ u32 ((m.be16 (sip + 2) : ℤ) - ((m sip).val * 4 &&& 0x3C : ℕ))
    then .error
  else .segments 2

def reasmV6Way (t : Tun) (port desc hdrOff : ℕ) : Way :=
  let pkt := desc + hdrOff
  let fh := pkt + 72
  let m := t.mem.put32 desc (port % 32 * 16 + 0x200)
  let spkt := t.v6Reasm.desc + t.v6Reasm.hdroff
  if m (pkt + 38) ≠ 44 then .error
  else if m.be16 (fh + 2) % 2 = 1 then .segments (if t.v6Reasm.desc ≠ 0 then 1 else 0)
  else if t.v6Reasm.desc = 0 then .error
  else if m.be16 (spkt + 76) ≠ m.be16 (fh + 4) ∨ m.be16 (spkt + 78) ≠ m.be16 (fh + 6) then .error
  else if m.be16 (fh + 2) / 8 * 8 ≠ u32 ((m.be16 (spkt + 36) : ℤ) - 8) then .error
  else .segments 3

def reassembleWay (t : Tun) (port desc : ℕ) : Way :=
  let w0 : ℕ := t.mem.word32 desc
  if w0 / 2 ^ 27 % 2 = 1 then reasmV4Way t port desc (hdrOffOf w0)
  else if w0 / 2 ^ 28 % 2 = 1 then reasmV6Way t port desc (hdrOffOf w0)
  else .error

def vxlanWay (t : Tun) (len udf : ℕ) : Way :=
  if udf < 1 ∨ 20 < udf then .segments 2
  else if len + 4 ≤ t.encapMtu then .segments 3
  else .segments 7

/-- Only the SRv6 endpoint that goes on to the next segment, or keeps the
    routing header, sends the packet as it is. -/
def srv6Way (t : Tun) (port desc udf : ℕ) : Way :=
  let pkt := desc + hdrOffOf (t.mem.word32 desc)
  let m := putInfo t.mem desc port udf
  let left : ℕ := (m (pkt + 72 + 3)).val - 1
  let m' := m.copy (pkt + 56) (pkt + 72 + 8 + 16 * left) 16
  if 41 ≤ udf ∧ udf ≤ 48 then .segments 3
  else if 49 ≤ udf ∧ udf ≤ 56 then
    if m (pkt + 32 + 6) = 4 then .segments 2
    else if m (pkt + 72 + 3) = 0 then .segments 2
    else if left ≠ 0 ∨ (m' (pkt + 72 + 5)).val < 128 then .whole
    else .segments 2
  else .error

/-- The way of a packet through `tunnel_offload_handler`. The MAP
    operations wait for credit and are never refused. -/
def offloadWay (t : Tun) (port pktLen desc : ℕ) : Way :=
  let opcode := t.mem.word32 (desc + 4) / 2 ^ 28 % 8
  if opcode = 1 then fragmentWay t desc
  else if opcode = 2 then reassembleWay t port desc
  else
    let udf := (t.mem (desc + 20)).val
    if 1 ≤ udf ∧ udf ≤ 40 then vxlanWay t pktLen udf
    else if 41 ≤ udf ∧ udf ≤ 56 then srv6Way t port desc udf
    else if 65 ≤ udf ∧ udf ≤ 68 then .segments 0
    else .error

/-! ## Segments whose answers are not looked at -/

/-- `n` calls of `npu_bridge_egress`, all granted exactly when the bridge
    has credit for each. -/
structure Sends (t : Tun) (n : ℕ) (t' : Tun) : Prop where
  calls : t'.calls = t.calls + n
  credit : t'.credit = t.credit
  log : ∃ new, t'.log = t.log ++ new ∧
    ((∀ e ∈ new, e.ok = true) ↔ ∀ i < n, t.credit (t.calls + i) = true)

theorem Sends.start (hcalls : t'.calls = t.calls) (hcredit : t'.credit = t.credit)
    (hlog : t'.log = t.log) : Sends t 0 t' where
  calls := hcalls
  credit := hcredit
  log := by
    refine ⟨[], by rw [hlog, List.append_nil], ?_⟩
    constructor
    · intro _ i hi
      exact absurd hi (Nat.not_lt_zero i)
    · intro _ e he
      exact absurd he List.not_mem_nil

theorem Sends.seg (hs : Sends t n t') (port addr : ℕ) (len off : ℤ) (first last : Bool)
    (type : ℕ) (ps : List (Option Patch)) :
    Sends t (n + 1) (t'.seg port addr len off first last type ps) := by
  obtain ⟨hcalls, hcredit, new, hlog, hok⟩ := hs
  constructor
  · show t'.calls + 1 = _
    rw [hcalls]
    omega
  · exact hcredit
  · refine ⟨_, by rw [Tun.seg, tunnelSeg, bridgeEgress, hlog, List.append_assoc], ?_⟩
    rw [List.forall_mem_append, hok, Nat.forall_lt_succ_right, List.forall_mem_singleton, hcredit,
      hcalls]

theorem Sends.cached (hs : Sends t n t') (port addr : ℕ) (len off : ℤ) (first last : Bool)
    (type : ℕ) : Sends t n (tunnelEgressCached t' port addr len off first last type) := by
  obtain ⟨hcalls, hcredit, new, hlog, hok⟩ := hs
  refine ⟨hcalls, hcredit, _, by rw [tunnelEgressCached, hlog, List.append_assoc], ?_⟩
  rw [List.forall_mem_append, hok, List.forall_mem_singleton]
  exact and_iff_left rfl

/-- A reassembly ends or begins. -/
theorem Sends.hold (hs : Sends t n t') (m : Memory) (r4 r6 : Reasm) :
    Sends t n { t' with mem := m, v4Reasm := r4, v6Reasm := r6 } :=
  ⟨hs.calls, hs.credit, hs.log⟩

/-- What a way leaves behind. -/
def Took (t : Tun) (res : ℤ × Tun) : Way → Prop
  | .error => res.1 = -1 ∧ res.2.log = t.log
  | .whole => ∃ e, res.2.log = t.log ++ [e] ∧ e.seg.last = true ∧ e.ok = t.credit t.calls ∧
    res.1 = if e.ok then 0 else -1
  | .segments n => res.1 = 0 ∧ Sends t n res.2

theorem offered_append {new : List Egress} (h : t'.log = t.log ++ new) : offered t t' = new := by
  unfold offered
  rw [h, List.drop_left]

/-- An operation that reports success has to be granted everything. -/
theorem wholeOrReported_of_zero {res : ℤ × Tun} (hr : res.1 = 0) :
    WholeOrReported t res ↔ ∀ e ∈ offered t res.2, e.ok = true := by
  constructor
  · intro hw e he
    by_contra hno
    have hrep := hw.reported ⟨e, he, by simpa using hno⟩
    omega
  · intro hall
    refine ⟨?_, ?_, ?_⟩
    · intro p hp
      left
      intro e he
      exact hall e (mem_of_packets hp he)
    · rintro ⟨e, he, hno⟩
      rw [hall e he] at hno
      exact Bool.noConfusion hno
    · intro hneg
      omega

/-- On every way the packets leave whole or are reported exactly when no
    call on it is refused, or the way is the one segment whose answer is
    looked at. -/
theorem Took.wholeOrReported {res : ℤ × Tun} {w : Way} (ht : Took t res w) :
    WholeOrReported t res ↔ w = .whole ∨ ∀ i < w.calls, t.credit (t.calls + i) = true := by
  -- nothing sent, one segment whose answer is returned, or several whose
  -- answers are not
  cases w with
  | error =>
    obtain ⟨hr, hlog⟩ := ht
    have hnew : offered t res.2 = [] := offered_append (by rw [hlog, List.append_nil])
    constructor
    · intro _
      right
      intro i hi
      exact absurd hi (Nat.not_lt_zero i)
    · intro _
      constructor
      · rw [hnew]
        intro p hp
        exact absurd hp List.not_mem_nil
      · rw [hnew]
        rintro ⟨e, he, -⟩
        exact absurd he List.not_mem_nil
      · rw [hnew]
        intro _ e he
        exact absurd he List.not_mem_nil
  | whole =>
    obtain ⟨e, hlog, hlast, hok, hr⟩ := ht
    have hnew : offered t res.2 = [e] := offered_append hlog
    constructor
    · intro _
      exact .inl rfl
    · intro _
      constructor
      · rw [hnew]
        have hone : packets [e] = [[e]] := if_pos hlast
        rw [hone]
        intro p hp
        rw [List.mem_singleton.1 hp, List.forall_mem_singleton, List.forall_mem_singleton]
        cases e.ok
        · exact .inr rfl
        · exact .inl rfl
      · rw [hnew]
        rintro ⟨x, hx, hno⟩
        rw [List.mem_singleton.1 hx] at hno
        rw [hr, hno]
        rfl
      · rw [hnew]
        intro hneg x hx
        rw [List.mem_singleton.1 hx]
        by_contra hyes
        have hyes : e.ok = true := by simpa using hyes
        rw [hr, hyes] at hneg
        exact absurd hneg (by decide)
  | segments n =>
    obtain ⟨hr, hsends⟩ := ht
    obtain ⟨new, hlog, hok⟩ := hsends.log
    rw [wholeOrReported_of_zero hr, offered_append hlog, hok]
    constructor
    · exact .inr
    · rintro (hno | hall)
      · exact Way.noConfusion hno
      · exact hall

/-! ## Every operation -/

section ops

variable (port len desc udf hdrOff mtu : ℕ)

theorem tunnelSendSplit_took {split : ℕ} (hsplit : split % 2 ^ 16 ≠ 0) (hs : Sends t 0 t') :
    Took t (tunnelSendSplit t' port desc 0 len split) (.segments 2) := by
  unfold tunnelSendSplit
  simp only
  rw [if_neg hsplit]
  exact ⟨rfl, (hs.seg ..).seg ..⟩

theorem tunnelSendSplit_whole (hs : t'.calls = t.calls) (hcredit : t'.credit = t.credit)
    (hlog : t'.log = t.log) : Took t (tunnelSendSplit t' port desc 0 len 0) .whole := by
  unfold tunnelSendSplit
  have hzero : 0 % 2 ^ 16 = 0 := rfl
  simp only
  rw [if_pos hzero]
  refine ⟨_, by rw [tunnelSeg, bridgeEgress, hlog], rfl, ?_, rfl⟩
  rw [hcredit, hs]

theorem tunnelVxlan_took : Took t (tunnelVxlan t port len desc udf) (vxlanWay t len udf) := by
  unfold tunnelVxlan vxlanWay
  split_ifs
  · exact tunnelSendSplit_took _ _ _ (by decide) (Sends.start rfl rfl rfl)
  · unfold vxlanEncap tunnelSendInsert
    simp only
    refine ⟨rfl, ?_⟩
    iterate 3 apply Sends.seg
    exact Sends.start rfl rfl rfl
  · unfold vxlanEncapFrag
    simp only
    refine ⟨rfl, ?_⟩
    iterate 7 apply Sends.seg
    exact Sends.start rfl rfl rfl

theorem srv6Decap_took (srh : Bool) (hs : Sends t 0 t') :
    Took t (srv6Decap t' port len desc hdrOff srh) (.segments 2) := by
  unfold srv6Decap
  simp only
  exact ⟨rfl, (hs.seg ..).seg ..⟩

theorem tunnelSrv6_took : Took t (tunnelSrv6 t port len desc udf) (srv6Way t port desc udf) := by
  unfold tunnelSrv6 srv6Way
  simp only
  split_ifs with hencap hend hsix hleft hwhole
  · unfold srv6Encap
    simp only
    refine ⟨rfl, ?_⟩
    iterate 3 apply Sends.seg
    exact Sends.start rfl rfl rfl
  · unfold srv6End
    simp only
    rw [if_pos hsix]
    exact srv6Decap_took _ _ _ _ _ (Sends.start rfl rfl rfl)
  · unfold srv6End
    simp only
    rw [if_neg hsix, if_pos hleft]
    exact srv6Decap_took _ _ _ _ _ (Sends.start rfl rfl rfl)
  · unfold srv6End
    simp only
    rw [if_neg hsix, if_neg hleft, if_pos hwhole]
    exact tunnelSendSplit_whole _ _ _ rfl rfl rfl
  · unfold srv6End
    simp only
    rw [if_neg hsix, if_neg hleft, if_neg hwhole]
    refine ⟨rfl, ?_⟩
    iterate 2 apply Sends.seg
    exact Sends.start rfl rfl rfl
  · exact ⟨rfl, rfl⟩

theorem tunnelMap_took (w1 idx : ℕ) :
    Took t (tunnelMap t port len desc udf w1 idx) (.segments 0) := by
  unfold tunnelMap
  simp only
  split_ifs
  · refine ⟨rfl, ?_⟩
    iterate 2 apply Sends.cached
    exact Sends.start rfl rfl rfl
  · refine ⟨rfl, ?_⟩
    iterate 2 apply Sends.cached
    exact Sends.start rfl rfl rfl
  · unfold tunnelSendReplace
    simp only
    refine ⟨rfl, ?_⟩
    iterate 3 apply Sends.cached
    exact Sends.start rfl rfl rfl
  · unfold tunnelSendReplace
    simp only
    refine ⟨rfl, ?_⟩
    iterate 3 apply Sends.cached
    exact Sends.start rfl rfl rfl

theorem tunnelFragment_took : Took t (tunnelFragment t port len desc) (fragmentWay t desc) := by
  unfold tunnelFragment fragmentWay
  simp only
  split_ifs
  · exact ⟨rfl, rfl⟩
  · unfold fragV4
    simp only
    refine ⟨rfl, ?_⟩
    iterate 3 apply Sends.seg
    exact Sends.start rfl rfl rfl
  · unfold fragV6
    simp only
    refine ⟨rfl, ?_⟩
    iterate 6 apply Sends.seg
    exact Sends.start rfl rfl rfl
  · exact ⟨rfl, rfl⟩

theorem reasmV4_took : Took t (reasmV4 t port len desc hdrOff) (reasmV4Way t port desc hdrOff) := by
  unfold reasmV4 reasmV4Way
  simp only
  split_ifs
  · unfold tunnelPktDrop
    refine ⟨rfl, ?_⟩
    apply Sends.hold
    iterate 1 apply Sends.seg
    exact Sends.start rfl rfl rfl
  · exact ⟨rfl, Sends.start rfl rfl rfl⟩
  · exact ⟨rfl, rfl⟩
  · exact ⟨rfl, rfl⟩
  · exact ⟨rfl, rfl⟩
  · refine ⟨rfl, ?_⟩
    apply Sends.hold
    iterate 2 apply Sends.seg
    exact Sends.start rfl rfl rfl

theorem reasmV6_took : Took t (reasmV6 t port len desc hdrOff) (reasmV6Way t port desc hdrOff) := by
  unfold reasmV6 reasmV6Way
  simp only
  split_ifs
  · exact ⟨rfl, rfl⟩
  · unfold tunnelPktDrop
    refine ⟨rfl, ?_⟩
    apply Sends.hold
    iterate 1 apply Sends.seg
    exact Sends.start rfl rfl rfl
  · exact ⟨rfl, Sends.start rfl rfl rfl⟩
  · exact ⟨rfl, rfl⟩
  · exact ⟨rfl, rfl⟩
  · exact ⟨rfl, rfl⟩
  · refine ⟨rfl, ?_⟩
    apply Sends.hold
    iterate 3 apply Sends.seg
    exact Sends.start rfl rfl rfl

theorem tunnelReassemble_took :
    Took t (tunnelReassemble t port len desc) (reassembleWay t port desc) := by
  unfold tunnelReassemble reassembleWay
  simp only
  split_ifs
  · exact reasmV4_took ..
  · exact reasmV6_took ..
  · exact ⟨rfl, rfl⟩

theorem tunnelOffloadHandler_took :
    Took t (tunnelOffloadHandler t port len desc) (offloadWay t port len desc) := by
  unfold tunnelOffloadHandler offloadWay
  simp only
  split_ifs
  · exact tunnelFragment_took ..
  · exact tunnelReassemble_took ..
  · exact tunnelVxlan_took ..
  · exact tunnelSrv6_took ..
  · exact tunnelMap_took ..
  · exact ⟨rfl, rfl⟩

end ops

/-- Memory that holds nothing. -/
def blankMem : Memory := fun _ => 0

/-- A VXLAN packet of 150 bytes to strip, and a bridge that runs out of
    credit after the first segment. -/
def refusedOnce : Tun where
  mem := (blankMem.put32 4096 (14 * 2 ^ 20 + 150)).put32 4116 21
  credit := fun i => i ≠ 1
  calls := 0
  log := []
  bridge := 65536
  encapMtu := 1500
  srv6HdrLen := fun _ => 0
  mapInfoBase := 0
  ipv6FragId := 0
  v4FragInfo := 0x2200
  v4Reasm := ⟨0, 0, 0⟩
  v6Reasm := ⟨0, 0, 0⟩

end ClankerNPU.Tunnel
