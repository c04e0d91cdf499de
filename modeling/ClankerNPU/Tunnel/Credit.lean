import ClankerNPU.Lib.StepSystem
import ClankerNPU.Tunnel.Atomic
import Mathlib.Logic.Relation

/-! # Egress credit

    A bridge channel counts the segments it still takes. The MAP
    operations spend that count from a copy, `tunnel_credit`, read when
    the copy is used up; every other operation reads it before each
    segment. Here is one channel with the operations put to it and the
    engine that frees slots, one segment a step. -/

namespace ClankerNPU.Tunnel

open Memory

/-- How a segment goes to the bridge: by `npu_bridge_egress` or by
    `tunnel_egress_cached`. -/
inductive Path where
  | direct
  | cached
  deriving DecidableEq

/-- Whether `tunnel_offload_handler` takes a packet to `tunnel_map`. -/
def mapPacket (t : Tun) (desc : ℕ) : Prop :=
  let opcode := t.mem.word32 (desc + 4) / 2 ^ 28 % 8
  let udf := (t.mem (desc + 20)).val
  opcode ≠ 1 ∧ opcode ≠ 2 ∧ 65 ≤ udf ∧ udf ≤ 68

instance (t : Tun) (desc : ℕ) : Decidable (mapPacket t desc) := by
  unfold mapPacket
  infer_instance

/-- The segments an operation offers to a channel. The MAP operations
    alone use the cached path, for all of theirs. -/
def opSegments (t : Tun) (port pktLen desc : ℕ) : List Path :=
  ((offered t (tunnelOffloadHandler t port pktLen desc).2).filter (·.seg.port = port)).map
    fun _ => if mapPacket t desc then .cached else .direct

/-- A channel. -/
structure Channel where
  /-- bits 15:8 of `0x1EC12050 + 4 * port` -/
  hw : ℕ
  /-- `tunnel_credit[port]` -/
  credit : ℕ
  /-- the segments the operation under way has yet to offer -/
  todo : List Path
  /-- the hardware credit found by each segment written -/
  sent : List ℕ

/-- The next segment is offered. A cached segment without a copy to spend
    waits for credit. -/
def Channel.offer (s : Channel) : Option Channel :=
  match s.todo with
  | [] => none
  | .direct :: todo =>
    if s.hw = 0 then some { s with todo := todo }
    else some { s with hw := s.hw - 1, todo := todo, sent := s.sent ++ [s.hw] }
  | .cached :: todo =>
    if s.credit = 0 ∧ s.hw = 0 then none
    else
      let credit := if s.credit = 0 then s.hw else s.credit
      some ⟨s.hw - 1, credit - 1, todo, s.sent ++ [s.hw]⟩

inductive ChannelAction where
  /-- the next packet is taken up -/
  | packet (t : Tun) (pktLen desc : ℕ)
  /-- its next segment is offered -/
  | segment
  /-- the engine frees a slot -/
  | engine

/-- One channel; its credit has eight bits. -/
def channelSystem (port : ℕ) : StepSystem Channel ChannelAction where
  init s := s.hw < 256 ∧ s.credit = 0 ∧ s.todo = [] ∧ s.sent = []
  step s a s' := match a with
    | .packet t pktLen desc => s.todo = [] ∧ s' = { s with todo := opSegments t port pktLen desc }
    | .segment => s.offer = some s'
    | .engine => s.hw < 255 ∧ s' = { s with hw := s.hw + 1 }

/-- Every segment written found credit. -/
def Channel.Funded (s : Channel) : Prop := ∀ c ∈ s.sent, 1 ≤ c

/-- A direct segment is offered only while the hardware has more credit
    than the copy promises, or none. -/
def Covered (s : Channel) (a : ChannelAction) : Prop :=
  match a, s.todo with
  | .segment, .direct :: _ => s.hw = 0 ∨ s.credit < s.hw
  | _, _ => True

variable {s s' : Channel} {port : ℕ}

/-! ## Covered runs -/

/-- The copy never promises more than the hardware has. -/
structure ChannelInv (s : Channel) : Prop where
  credit_le : s.credit ≤ s.hw
  funded : s.Funded

theorem Channel.Funded.append (h : s.Funded) {c : ℕ} (hc : 1 ≤ c) : ∀ x ∈ s.sent ++ [c], 1 ≤ x := by
  intro x hx
  rcases List.mem_append.mp hx with hold | hnew
  · exact h x hold
  · rw [List.mem_singleton.mp hnew]
    exact hc

theorem ChannelInv.offer (h : ChannelInv s) (hcovered : Covered s .segment)
    (hstep : s.offer = some s') : ChannelInv s' := by
  have hle := h.credit_le
  unfold Channel.offer at hstep
  unfold Covered at hcovered
  split at hstep
  · cases hstep
  · next todo htodo =>
    rw [htodo] at hcovered
    dsimp only at hcovered
    split at hstep <;> obtain rfl := Option.some.inj hstep
    · exact ⟨hle, h.funded⟩
    · -- the segment spends credit the copy does not count
      refine ⟨?_, h.funded.append (by omega)⟩
      show s.credit ≤ s.hw - 1
      omega
  · next todo htodo =>
    split at hstep
    · cases hstep
    · next hwait =>
      obtain rfl := Option.some.inj hstep
      refine ⟨?_, h.funded.append (by omega)⟩
      show (if s.credit = 0 then s.hw else s.credit) - 1 ≤ s.hw - 1
      split <;> omega

theorem channelInv_of_covered (h : ((channelSystem port).guarded Covered).Reachable s) :
    ChannelInv s := by
  have hinit : ∀ s, ((channelSystem port).guarded Covered).init s → ChannelInv s := by
    rintro s ⟨-, hcredit, -, hsent⟩
    refine ⟨?_, ?_⟩
    · rw [hcredit]
      exact Nat.zero_le _
    · intro c hc
      rw [hsent] at hc
      cases hc
  refine h.invariant hinit ?_
  rintro s a s' hinv ⟨hcovered, hstep⟩
  cases a with
  | packet t pktLen desc =>
    obtain ⟨-, rfl⟩ := hstep
    exact ⟨hinv.credit_le, hinv.funded⟩
  | segment => exact hinv.offer hcovered hstep
  | engine =>
    obtain ⟨-, rfl⟩ := hstep
    exact ⟨Nat.le_succ_of_le hinv.credit_le, hinv.funded⟩

/-! ## Stale copies -/

/-- Runs from a state on. -/
def Leads (port : ℕ) : Channel → Channel → Prop :=
  Relation.ReflTransGen fun s s' => ∃ a, (channelSystem port).step s a s'

/-- A MAP packet of 150 bytes. -/
def mapFrame : Tun where
  mem := blankMem.put8 4116 65
  credit := fun _ => true
  calls := 0
  log := []
  bridge := 65536
  encapMtu := 1500
  srv6HdrLen := fun _ => 0
  mapInfoBase := 0
  ipv6FragId := 0
  v4FragInfo := 0x2200
  v4Reasm := ⟨0, 0, 0⟩
  v6Reasm := ⟨0, 0, 0⟩

/-- A MAP packet with UDF 65 goes out in two segments on its port. -/
theorem tunnelMap_log (t : Tun) (port len desc w1 idx : ℕ) : ∃ e₁ e₂,
    (tunnelMap t port len desc 65 w1 idx).2.log = (t.log ++ [e₁]) ++ [e₂] ∧
      e₁.seg.port = port ∧ e₂.seg.port = port := by
  unfold tunnelMap
  dsimp only
  rw [if_pos rfl]
  exact ⟨_, _, rfl, rfl, rfl⟩

theorem opSegments_mapFrame (port : ℕ) :
    opSegments mapFrame port 182 4096 = [.cached, .cached] := by
  have hmap : mapPacket mapFrame 4096 := by decide +kernel
  have hudf : (mapFrame.mem (4096 + 20)).val = 65 := by decide +kernel
  have hopcode : mapFrame.mem.word32 (4096 + 4) / 2 ^ 28 % 8 = 0 := by decide +kernel
  obtain ⟨e₁, e₂, hlog, h₁, h₂⟩ := tunnelMap_log mapFrame port 182 4096
    (mapFrame.mem.word32 (4096 + 4) % 2 ^ 18) (mapFrame.mem.word32 (4096 + 16) % 2 ^ 16)
  have hop : (tunnelOffloadHandler mapFrame port 182 4096).2.log = [e₁, e₂] := by
    unfold tunnelOffloadHandler
    dsimp only
    rw [hudf, hopcode, if_neg (by decide), if_neg (by decide), if_neg (by decide),
      if_neg (by decide), if_pos (by decide), hlog]
    rfl
  have hnew : offered mapFrame (tunnelOffloadHandler mapFrame port 182 4096).2 = [e₁, e₂] := by
    unfold offered
    rw [hop]
    rfl
  unfold opSegments
  rw [hnew, List.filter_cons_of_pos (by simpa using h₁),
    List.filter_cons_of_pos (by simpa using h₂), List.filter_nil, if_pos hmap]
  rfl

/-- Once the copy promises more than the hardware has, and as long as the
    engine frees nothing, the packets that follow run into a channel
    without credit. -/
theorem Channel.overruns (h : s.hw < s.credit) : ∃ s', Leads port s s' ∧ ¬ s'.Funded := by
  obtain ⟨hw, credit, todo, sent⟩ := s
  dsimp only at h
  induction hw using Nat.strong_induction_on generalizing credit todo sent with
  | _ hw ihw =>
    -- a cached segment goes out without a look at the hardware
    have hcached : ∀ todo, ∃ s', Leads port ⟨hw, credit, .cached :: todo, sent⟩ s' ∧
        ¬ s'.Funded := by
      intro todo
      have hoffer : Channel.offer ⟨hw, credit, .cached :: todo, sent⟩
          = some ⟨hw - 1, credit - 1, todo, sent ++ [hw]⟩ := by
        unfold Channel.offer
        dsimp only
        rw [if_neg (by omega), if_neg (by omega)]
      have hstep : Leads port ⟨hw, credit, .cached :: todo, sent⟩ _ :=
        .single ⟨.segment, hoffer⟩
      rcases Nat.eq_zero_or_pos hw with rfl | hpos
      · refine ⟨_, hstep, fun hfunded => ?_⟩
        have hzero := hfunded 0 (List.mem_append_right _ (List.mem_singleton.mpr rfl))
        omega
      · obtain ⟨s', hrun, hbad⟩ := ihw (hw - 1) (by omega) (credit - 1) todo (sent ++ [hw])
          (by omega)
        exact ⟨s', hstep.trans hrun, hbad⟩
    induction todo with
    | nil =>
      -- a MAP packet comes next
      obtain ⟨s', hrun, hbad⟩ := hcached [.cached]
      have hpacket : Leads port ⟨hw, credit, [], sent⟩ ⟨hw, credit, [.cached, .cached], sent⟩ := by
        refine .single ⟨.packet mapFrame 182 4096, rfl, ?_⟩
        rw [opSegments_mapFrame]
      exact ⟨s', hpacket.trans hrun, hbad⟩
    | cons p todo ih =>
      cases p with
      | cached => exact hcached todo
      | direct =>
        by_cases hzero : hw = 0
        · have hstep : Leads port ⟨hw, credit, .direct :: todo, sent⟩ ⟨hw, credit, todo, sent⟩ :=
            .single ⟨.segment, if_pos hzero⟩
          obtain ⟨s', hrun, hbad⟩ := ih
          exact ⟨s', hstep.trans hrun, hbad⟩
        · have hstep : Leads port ⟨hw, credit, .direct :: todo, sent⟩
              ⟨hw - 1, credit, todo, sent ++ [hw]⟩ := .single ⟨.segment, if_neg hzero⟩
          obtain ⟨s', hrun, hbad⟩ := ihw (hw - 1) (by omega) credit todo (sent ++ [hw]) (by omega)
          exact ⟨s', hstep.trans hrun, hbad⟩

/-- A packet to strip of its VXLAN header. -/
def vxlanFrame : Tun := { mapFrame with mem := blankMem.put8 4116 21 }

theorem opSegments_vxlanFrame : opSegments vxlanFrame 0 182 4096 = [.direct, .direct] := by
  decide +kernel

end ClankerNPU.Tunnel
