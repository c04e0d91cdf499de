import Mathlib.Data.List.Perm.Basic
import ClankerNPU.Lib.StepSystem
import ClankerNPU.Tunnel.Atomic

/-! # Custody of fragments

    Reassembly holds the first fragment of a packet until the second one
    comes. The handler, its caller and the flush of the bridge give every
    fragment buffer back: merged with another into one packet, or with a
    drop segment. -/

namespace ClankerNPU.Tunnel

open Memory

variable {t t' : Tun} {n : ℕ}

/-! ## The offload loop and the flush -/

/-- The descriptor `tunnel_dequeue` makes of the bridge's register. -/
def dequeuedDesc (reg : ℕ) : ℕ := reg ||| 0x20000000

/-- One packet of `tunnel_offload_loop`, the descriptor dequeued. -/
def tunnelOffload (t : Tun) (port desc : ℕ) : Tun :=
  let pktLen : ℕ := t.mem.word32 desc % 2 ^ 16 + 32
  let r := tunnelOffloadHandler t port pktLen desc
  if r.1 = -1 then tunnelPktDrop r.2 port pktLen desc else r.2

/-- `tunnel_reasm_flush` -/
def tunnelReasmFlush (t : Tun) : Tun :=
  let t :=
    if t.v4Reasm.desc ≠ 0 then
      { tunnelPktDrop t 7 t.v4Reasm.len t.v4Reasm.desc with v4Reasm := ⟨0, 0, 0⟩ }
    else t
  if t.v6Reasm.desc ≠ 0 then
    { tunnelPktDrop t 7 t.v6Reasm.len t.v6Reasm.desc with v6Reasm := ⟨0, 0, 0⟩ }
  else t

/-- The tunnel offload, and every descriptor dequeued so far. -/
structure Loop where
  tun : Tun
  dequeued : List ℕ

inductive LoopAction where
  /-- a fragment comes in on a port, behind the descriptor of a register -/
  | fragment (port reg : ℕ) (mem : Memory)
  | flush

/-- Fragments come in in any order and with any contents of memory, and
    the bridge command flushes in between. -/
def loopSystem : StepSystem Loop LoopAction where
  init := fun s => s.tun.log = [] ∧ s.tun.v4Reasm.desc = 0 ∧ s.tun.v6Reasm.desc = 0 ∧
    s.dequeued = []
  step := fun s a s' =>
    match a with
    | .fragment port reg mem =>
        mem.word32 (dequeuedDesc reg + 4) / 2 ^ 28 % 8 = 2 ∧
        s' = ⟨tunnelOffload { s.tun with mem := mem } port (dequeuedDesc reg),
          s.dequeued ++ [dequeuedDesc reg]⟩
    | .flush => s' = { s with tun := tunnelReasmFlush s.tun }

/-! ## Where a buffer can be -/

/-- What becomes of the buffers of a packet. -/
inductive Outcome where
  | dropped (desc : ℕ)
  | merged (first second : ℕ)
  deriving DecidableEq, Repr

def Outcome.buffers : Outcome → List ℕ
  | .dropped desc => [desc]
  | .merged first second => [first, second]

/-- A drop segment, or the two segments of a merged IPv4 packet, or the
    three of an IPv6 packet. -/
def outcome : List Egress → Option Outcome
  | [e] =>
    if e.seg.first = true ∧ e.seg.last = true ∧ e.seg.type = 2 then some (.dropped e.seg.addr)
    else none
  | [a, b] =>
    if a.seg.first = true ∧ a.seg.last = false ∧ a.seg.type = 0 ∧ b.seg.first = false ∧
        b.seg.last = true ∧ b.seg.type = 0 then
      some (.merged a.seg.addr b.seg.addr)
    else none
  | [a, m, b] =>
    if a.seg.first = true ∧ a.seg.last = false ∧ a.seg.type = 1 ∧ m.seg.first = false ∧
        m.seg.last = false ∧ m.seg.type = 0 ∧ m.seg.addr = a.seg.addr ∧ b.seg.first = false ∧
        b.seg.last = true ∧ b.seg.type = 0 then
      some (.merged a.seg.addr b.seg.addr)
    else none
  | _ => none

/-- The packets the bridge took. -/
def Tun.taken (t : Tun) : List (List Egress) := packets (t.log.filter Egress.ok)

/-- The fragment a reassembly holds. -/
def Reasm.held (r : Reasm) : List ℕ := if r.desc ≠ 0 then [r.desc] else []

/-- The pending first fragments, one of an IP version at the most. -/
def Tun.pending (t : Tun) : List ℕ := t.v4Reasm.held ++ t.v6Reasm.held

/-- The buffers of some packets. -/
def settled (ps : List (List Egress)) : List ℕ :=
  (ps.filterMap outcome).flatMap Outcome.buffers

/-- Every packet the bridge took is a merged packet or a drop segment, and
    every buffer was sent, dropped or is pending as often as it was
    dequeued. -/
structure Accounted (s : Loop) : Prop where
  whole : ∀ p ∈ s.tun.taken, (outcome p).isSome
  once : ∀ desc, s.dequeued.count desc =
    (settled s.tun.taken).count desc + s.tun.pending.count desc

/-- The calls of `npu_bridge_egress` a step makes. -/
def loopCalls (s : Loop) : LoopAction → ℕ
  | .fragment port reg mem =>
    let way := reassembleWay { s.tun with mem := mem } port (dequeuedDesc reg)
    if way = .error then 1 else way.calls
  | .flush => s.tun.pending.length

/-- Every call of the step finds credit. -/
def loopGuard (s : Loop) (a : LoopAction) : Prop :=
  ∀ i < loopCalls s a, s.tun.credit (s.tun.calls + i) = true

/-! ## Packets of a log -/

/-- The last segment of a packet alone is flagged last. -/
def ClosedPacket (p : List Egress) : Prop :=
  ∃ body e, p = body ++ [e] ∧ e.seg.last = true ∧ ∀ x ∈ body, x.seg.last = false

theorem packets_closed_append {body log : List Egress} {e : Egress} (he : e.seg.last = true)
    (hbody : ∀ x ∈ body, x.seg.last = false) :
    packets (body ++ [e] ++ log) = (body ++ [e]) :: packets log := by
  induction body with
  | nil =>
    rw [List.nil_append, List.singleton_append, packets, if_pos he]
  | cons x body ih =>
    have hx : ¬x.seg.last = true := by
      rw [hbody x List.mem_cons_self]
      exact Bool.false_ne_true
    rw [List.cons_append, List.cons_append, packets, if_neg hx,
      ih fun y hy => hbody y (List.mem_cons_of_mem _ hy)]

theorem packets_flatten_append {ps : List (List Egress)} {log : List Egress}
    (h : ∀ p ∈ ps, ClosedPacket p) : packets (ps.flatten ++ log) = ps ++ packets log := by
  induction ps with
  | nil => rfl
  | cons p ps ih =>
    obtain ⟨body, e, rfl, he, hbody⟩ := h p List.mem_cons_self
    rw [List.flatten_cons, List.append_assoc, packets_closed_append he hbody,
      ih fun q hq => h q (List.mem_cons_of_mem _ hq), List.cons_append]

theorem packets_flatten {ps : List (List Egress)} (h : ∀ p ∈ ps, ClosedPacket p) :
    packets ps.flatten = ps := by
  have happ : packets (ps.flatten ++ []) = ps ++ packets [] := packets_flatten_append h
  rwa [List.append_nil, packets, List.append_nil] at happ

/-- A packet whose buffers are settled is closed. -/
theorem closed_of_outcome {p : List Egress} (h : (outcome p).isSome) : ClosedPacket p := by
  unfold outcome at h
  split at h
  · next e =>
    split_ifs at h with hc
    · exact ⟨[], e, rfl, hc.2.1, nofun⟩
    · cases h
  · next a b =>
    split_ifs at h with hc
    · refine ⟨[a], b, rfl, hc.2.2.2.2.1, fun x hx => ?_⟩
      rw [List.mem_singleton.1 hx]
      exact hc.2.1
    · cases h
  · next a m b =>
    split_ifs at h with hc
    · refine ⟨[a, m], b, rfl, hc.2.2.2.2.2.2.2.2.1, fun x hx => ?_⟩
      rcases List.mem_cons.1 hx with rfl | hx
      · exact hc.2.1
      · rw [List.mem_singleton.1 hx]
        exact hc.2.2.2.2.1
    · cases h
  · cases h

theorem flatten_packets (log : List Egress) : (packets log).flatten = log := by
  induction log with
  | nil => rfl
  | cons e log ih =>
    unfold packets
    split_ifs
    · rw [List.flatten_cons, ih, List.singleton_append]
    · split
      · next hlog =>
        rw [hlog] at ih
        rw [← ih]
        rfl
      · next q qs hlog =>
        rw [hlog] at ih
        rw [← ih]
        rfl

/-! ## Buffers and segments -/

/-- The buffers a segment gives away: a drop segment one, the last segment
    of a merged packet both. -/
def gives (e : Egress) : ℕ := if e.seg.type = 2 then 1 else if e.seg.last then 2 else 0

theorem gives_pos {e : Egress} (h : e.seg.last = true) : 0 < gives e := by
  unfold gives
  rw [if_pos h]
  split_ifs <;> decide

theorem length_outcome {p : List Egress} {o : Outcome} (h : outcome p = some o) :
    o.buffers.length = (p.map gives).sum := by
  unfold outcome at h
  split at h
  · next e =>
    split_ifs at h with hc
    obtain rfl := Option.some.inj h
    simp [gives, hc, Outcome.buffers]
  · next a b =>
    split_ifs at h with hc
    obtain rfl := Option.some.inj h
    simp [gives, hc, Outcome.buffers]
  · next a m b =>
    split_ifs at h with hc
    obtain rfl := Option.some.inj h
    simp [gives, hc, Outcome.buffers]
  · cases h

theorem length_settled {ps : List (List Egress)} (h : ∀ p ∈ ps, (outcome p).isSome) :
    (settled ps).length = (ps.flatten.map gives).sum := by
  induction ps with
  | nil => rfl
  | cons p ps ih =>
    obtain ⟨o, ho⟩ := Option.isSome_iff_exists.1 (h p List.mem_cons_self)
    have hrest := ih fun q hq => h q (List.mem_cons_of_mem _ hq)
    unfold settled at hrest ⊢
    rw [List.filterMap_cons, ho, List.flatMap_cons, List.length_append, hrest, length_outcome ho,
      List.flatten_cons, List.map_append, List.sum_append]

/-- If the segments taken give as many buffers away as all of them, each
    one that gives any away is taken. -/
theorem gives_filter {log : List Egress} :
    ((log.filter Egress.ok).map gives).sum ≤ (log.map gives).sum ∧
      (((log.filter Egress.ok).map gives).sum = (log.map gives).sum →
        ∀ e ∈ log, 0 < gives e → e.ok = true) := by
  induction log with
  | nil => exact ⟨Nat.le_refl _, nofun⟩
  | cons x log ih =>
    obtain ⟨hle, hall⟩ := ih
    by_cases hx : x.ok = true
    · rw [List.filter_cons_of_pos hx, List.map_cons, List.map_cons, List.sum_cons, List.sum_cons]
      refine ⟨Nat.add_le_add_left hle _, fun heq e he hpos => ?_⟩
      rcases List.mem_cons.1 he with rfl | he
      · exact hx
      · exact hall (Nat.add_left_cancel heq) e he hpos
    · rw [List.filter_cons_of_neg hx, List.map_cons, List.sum_cons]
      refine ⟨hle.trans (Nat.le_add_left _ _), fun heq e he hpos => ?_⟩
      rcases List.mem_cons.1 he with rfl | he
      · omega
      · exact hall (by omega) e he hpos

/-- A packet of which a part with the last segment is a packet is whole. -/
theorem filter_eq_of_outcome {p : List Egress} (h : (outcome p).isSome)
    (hpart : (outcome (p.filter Egress.ok)).isSome) (hlast : ∀ e ∈ p, e.seg.last = true → e.ok = true) :
    ∀ e ∈ p, e.ok = true := by
  unfold outcome at h
  split at h
  · next e =>
    split_ifs at h with hc
    · intro x hx
      rw [List.mem_singleton.1 hx]
      exact hlast e List.mem_cons_self hc.2.1
    · cases h
  · next a b =>
    split_ifs at h with hc
    · have hb : b.ok = true := hlast b (by simp) hc.2.2.2.2.1
      by_cases ha : a.ok = true
      · simp [ha, hb]
      · simp [ha, hb, outcome, hc] at hpart
    · cases h
  · next a m b =>
    split_ifs at h with hc
    · have hb : b.ok = true := hlast b (by simp) hc.2.2.2.2.2.2.2.2.1
      by_cases ha : a.ok = true <;> by_cases hm : m.ok = true
      · simp [ha, hm, hb]
      · simp [ha, hm, hb, outcome, hc] at hpart
      · simp [ha, hm, hb, outcome, hc] at hpart
      · simp [ha, hm, hb, outcome, hc] at hpart
    · cases h
  · cases h

/-- If the segments taken of some packets are packets again, and settle as
    many buffers, every segment was taken. -/
theorem taken_of_settled {ps : List (List Egress)} (hps : ∀ p ∈ ps, (outcome p).isSome)
    (hout : ∀ p ∈ packets (ps.flatten.filter Egress.ok), (outcome p).isSome)
    (hlen : (settled (packets (ps.flatten.filter Egress.ok))).length = (settled ps).length) :
    ∀ e ∈ ps.flatten, e.ok = true := by
  rw [length_settled hout, length_settled hps, flatten_packets] at hlen
  have hlast : ∀ e ∈ ps.flatten, e.seg.last = true → e.ok = true :=
    fun e he hl => gives_filter.2 hlen e he (gives_pos hl)
  have hclosed : ∀ p ∈ ps.map (List.filter Egress.ok), ClosedPacket p := by
    intro q hq
    obtain ⟨p, hp, rfl⟩ := List.mem_map.1 hq
    obtain ⟨body, e, rfl, he, hbody⟩ := closed_of_outcome (hps p hp)
    have hok : e.ok = true := hlast e (List.mem_flatten_of_mem hp (by simp)) he
    refine ⟨body.filter Egress.ok, e, ?_, he, fun x hx => hbody x (List.mem_of_mem_filter hx)⟩
    rw [List.filter_append, List.filter_cons_of_pos hok, List.filter_nil]
  rw [List.filter_flatten, packets_flatten hclosed] at hout
  intro e he
  obtain ⟨p, hp, hep⟩ := List.mem_flatten.1 he
  exact filter_eq_of_outcome (hps p hp) (hout _ (List.mem_map_of_mem hp))
    (fun x hx => hlast x (List.mem_flatten_of_mem hp hx)) e hep

/-! ## What a call settles -/

/-- `n` calls of the bridge between which every one of the buffers `new`
    and of those pending before is handed over in a packet or pending
    after. -/
structure Settles (t : Tun) (new : List ℕ) (n : ℕ) (t' : Tun) : Prop where
  sends : Sends t n t'
  books : ∃ ps : List (List Egress), t'.log = t.log ++ ps.flatten ∧
    (∀ p ∈ ps, (outcome p).isSome) ∧
    ∀ desc, new.count desc + t.pending.count desc =
      (settled ps).count desc + t'.pending.count desc

theorem Settles.refl (hcalls : t'.calls = t.calls) (hcredit : t'.credit = t.credit)
    (hlog : t'.log = t.log) (hpending : t'.pending = t.pending) : Settles t [] 0 t' where
  sends := .start hcalls hcredit hlog
  books := by
    refine ⟨[], by rw [hlog, List.flatten_nil, List.append_nil], nofun, ?_⟩
    intro desc
    rw [hpending]
    rfl

theorem Sends.trans {t'' : Tun} {m : ℕ} (h : Sends t n t') (h' : Sends t' m t'') :
    Sends t (n + m) t'' where
  calls := by
    rw [h'.calls, h.calls, Nat.add_assoc]
  credit := h'.credit.trans h.credit
  log := by
    obtain ⟨new, hlog, hok⟩ := h.log
    obtain ⟨new', hlog', hok'⟩ := h'.log
    refine ⟨new ++ new', by rw [hlog', hlog, List.append_assoc], ?_⟩
    rw [List.forall_mem_append, hok, hok', h.credit, h.calls]
    constructor
    · rintro ⟨hleft, hright⟩ i hi
      rcases Nat.lt_or_ge i n with hin | hin
      · exact hleft i hin
      · have hat := hright (i - n) (by omega)
        rwa [Nat.add_assoc, Nat.add_sub_cancel' hin] at hat
    · intro hall
      refine ⟨fun i hi => hall i (by omega), fun i hi => ?_⟩
      rw [Nat.add_assoc]
      exact hall (n + i) (by omega)

theorem settled_append (ps qs : List (List Egress)) :
    settled (ps ++ qs) = settled ps ++ settled qs := by
  unfold settled
  rw [List.filterMap_append, List.flatMap_append]

theorem Settles.trans {t'' : Tun} {new new' : List ℕ} {m : ℕ} (h : Settles t new n t')
    (h' : Settles t' new' m t'') : Settles t (new ++ new') (n + m) t'' where
  sends := h.sends.trans h'.sends
  books := by
    obtain ⟨ps, hlog, hps, honce⟩ := h.books
    obtain ⟨qs, hlog', hqs, honce'⟩ := h'.books
    refine ⟨ps ++ qs, by rw [hlog', hlog, List.flatten_append, List.append_assoc], ?_, ?_⟩
    · exact List.forall_mem_append.2 ⟨hps, hqs⟩
    · intro desc
      have hcount := honce desc
      have hcount' := honce' desc
      rw [settled_append, List.count_append, List.count_append]
      omega

/-- One packet handed over. -/
theorem Settles.packet {p : List Egress} {o : Outcome} {new : List ℕ} (hs : Sends t n t')
    (hlog : t'.log = t.log ++ p) (ho : outcome p = some o)
    (honce : ∀ desc, new.count desc + t.pending.count desc =
      o.buffers.count desc + t'.pending.count desc) : Settles t new n t' where
  sends := hs
  books := by
    refine ⟨[p], by rw [List.flatten_singleton, hlog], ?_, ?_⟩
    · intro q hq
      rw [List.mem_singleton.1 hq, ho]
      rfl
    · have hsettled : settled [p] = o.buffers := by
        unfold settled
        rw [List.filterMap_cons, ho]
        exact List.append_nil _
      rw [hsettled]
      exact honce

theorem Settles.of_mem {new : List ℕ} {m : Memory} (h : Settles { t with mem := m } new n t') :
    Settles t new n t' :=
  ⟨⟨h.sends.calls, h.sends.credit, h.sends.log⟩, h.books⟩

variable (port len desc hdrOff : ℕ)

/-- The caller's drop of the packet it has in hand. -/
theorem drop_settles : Settles t [desc] 1 (tunnelPktDrop t port len desc) :=
  .packet ((Sends.start rfl rfl rfl).seg ..) rfl (o := .dropped desc) rfl fun _ => rfl

@[simp]
theorem Reasm.held_none : Reasm.held ⟨0, 0, 0⟩ = [] := rfl

theorem Reasm.held_of_ne {r : Reasm} (h : r.desc ≠ 0) : r.held = [r.desc] := if_pos h

theorem Reasm.held_mk {desc len hdrOff : ℕ} (h : desc ≠ 0) :
    Reasm.held ⟨desc, len, hdrOff⟩ = [desc] := if_pos h

theorem Reasm.held_of_eq {r : Reasm} (h : r.desc = 0) : r.held = [] := if_neg (not_not.2 h)

/-- The pending IPv4 fragment is dropped. -/
def release4 (t : Tun) : Tun :=
  if t.v4Reasm.desc ≠ 0 then
    { tunnelPktDrop t port t.v4Reasm.len t.v4Reasm.desc with v4Reasm := ⟨0, 0, 0⟩ }
  else t

/-- The pending IPv6 fragment is dropped. -/
def release6 (t : Tun) : Tun :=
  if t.v6Reasm.desc ≠ 0 then
    { tunnelPktDrop t port t.v6Reasm.len t.v6Reasm.desc with v6Reasm := ⟨0, 0, 0⟩ }
  else t

theorem release4_settles :
    Settles t [] (if t.v4Reasm.desc ≠ 0 then 1 else 0) (release4 port t) := by
  unfold release4
  split_ifs with hheld
  · refine .packet (((Sends.start rfl rfl rfl).seg ..).hold t.mem _ _) rfl
      (o := .dropped t.v4Reasm.desc) rfl fun d => ?_
    show ([] : List ℕ).count d + (t.v4Reasm.held ++ t.v6Reasm.held).count d =
      [t.v4Reasm.desc].count d + (Reasm.held ⟨0, 0, 0⟩ ++ t.v6Reasm.held).count d
    rw [Reasm.held_of_ne hheld, Reasm.held_none, List.count_append, List.nil_append]
    exact Nat.zero_add _
  · exact .refl rfl rfl rfl rfl

theorem release6_settles :
    Settles t [] (if t.v6Reasm.desc ≠ 0 then 1 else 0) (release6 port t) := by
  unfold release6
  split_ifs with hheld
  · refine .packet (((Sends.start rfl rfl rfl).seg ..).hold t.mem _ _) rfl
      (o := .dropped t.v6Reasm.desc) rfl fun d => ?_
    show ([] : List ℕ).count d + (t.v4Reasm.held ++ t.v6Reasm.held).count d =
      [t.v6Reasm.desc].count d + (t.v4Reasm.held ++ Reasm.held ⟨0, 0, 0⟩).count d
    rw [Reasm.held_of_ne hheld, Reasm.held_none, List.count_append, List.append_nil]
    exact (Nat.zero_add _).trans (Nat.add_comm ..)
  · exact .refl rfl rfl rfl rfl

theorem release4_empty : (release4 port t).v4Reasm.desc = 0 := by
  unfold release4
  split_ifs with hheld
  · rfl
  · exact not_not.1 hheld

theorem release6_empty : (release6 port t).v6Reasm.desc = 0 := by
  unfold release6
  split_ifs with hheld
  · rfl
  · exact not_not.1 hheld

/-- A fragment becomes the pending one where none is. -/
theorem hold4_settles (hdesc : desc ≠ 0) (hnone : t.v4Reasm.desc = 0) (m : Memory) :
    Settles t [desc] 0 { t with v4Reasm := ⟨desc, len, hdrOff⟩, mem := m } := by
  refine ⟨.start rfl rfl rfl, [], (List.append_nil _).symm, nofun, fun d => ?_⟩
  show [desc].count d + (t.v4Reasm.held ++ t.v6Reasm.held).count d =
    ([] : List ℕ).count d + (Reasm.held ⟨desc, len, hdrOff⟩ ++ t.v6Reasm.held).count d
  rw [Reasm.held_of_eq hnone, Reasm.held_mk hdesc, List.nil_append, List.count_append]
  exact (Nat.zero_add _).symm

theorem hold6_settles (hdesc : desc ≠ 0) (hnone : t.v6Reasm.desc = 0) (m : Memory) :
    Settles t [desc] 0 { t with v6Reasm := ⟨desc, len, hdrOff⟩, mem := m } := by
  refine ⟨.start rfl rfl rfl, [], (List.append_nil _).symm, nofun, fun d => ?_⟩
  show [desc].count d + (t.v4Reasm.held ++ t.v6Reasm.held).count d =
    ([] : List ℕ).count d + (t.v4Reasm.held ++ Reasm.held ⟨desc, len, hdrOff⟩).count d
  rw [Reasm.held_of_eq hnone, Reasm.held_mk hdesc, List.append_nil, List.count_append,
    Nat.add_comm]
  exact (Nat.zero_add _).symm

/-- A first fragment takes the place of the one pending. -/
theorem first4_settles (hdesc : desc ≠ 0) (m m' : Memory) :
    Settles t [desc] (if t.v4Reasm.desc ≠ 0 then 1 else 0)
      { release4 port { t with mem := m } with
        v4Reasm := ⟨desc, len, hdrOff⟩
        mem := m' } := by
  have hrel := release4_settles (t := { t with mem := m }) port
  exact (hrel.trans (hold4_settles len desc hdrOff hdesc (release4_empty port) m')).of_mem

theorem first6_settles (hdesc : desc ≠ 0) (m m' : Memory) :
    Settles t [desc] (if t.v6Reasm.desc ≠ 0 then 1 else 0)
      { release6 port { t with mem := m } with
        v6Reasm := ⟨desc, len, hdrOff⟩
        mem := m' } := by
  have hrel := release6_settles (t := { t with mem := m }) port
  exact (hrel.trans (hold6_settles len desc hdrOff hdesc (release6_empty port) m')).of_mem

/-- A fragment is handed over or pending, or it is the caller's to drop. -/
def Disposed (t : Tun) (desc : ℕ) (res : ℤ × Tun) (w : Way) : Prop :=
  if w = .error then res.1 = -1 ∧ Settles t [] 0 res.2
  else res.1 = 0 ∧ Settles t [desc] w.calls res.2

theorem Disposed.error {res : ℤ × Tun} (hres : res.1 = -1) (h : Settles t [] 0 res.2) :
    Disposed t desc res .error := by
  unfold Disposed
  rw [if_pos rfl]
  exact ⟨hres, h⟩

theorem Disposed.segments {res : ℤ × Tun} (hres : res.1 = 0) (h : Settles t [desc] n res.2) :
    Disposed t desc res (.segments n) := by
  unfold Disposed
  rw [if_neg Way.noConfusion]
  exact ⟨hres, h⟩

theorem reasmV4_disposed (hdesc : desc ≠ 0) :
    Disposed t desc (reasmV4 t port len desc hdrOff) (reasmV4Way t port desc hdrOff) := by
  unfold reasmV4 reasmV4Way
  simp only
  -- a first fragment with or without another pending, the three ways a
  -- second fragment finds no first one, and the merged packet
  split_ifs with hmore hheld hnone hident hoff
  · have hfirst := first4_settles (t := t) port len desc hdrOff hdesc
    unfold release4 at hfirst
    simp only [if_pos hheld] at hfirst
    exact .segments desc rfl (hfirst _ _)
  · have hfirst := first4_settles (t := t) port len desc hdrOff hdesc
    unfold release4 at hfirst
    simp only [if_neg hheld] at hfirst
    exact .segments desc rfl (hfirst t.mem _)
  · exact .error desc rfl (.refl rfl rfl rfl rfl)
  · exact .error desc rfl (.refl rfl rfl rfl rfl)
  · exact .error desc rfl (.refl rfl rfl rfl rfl)
  · refine .segments desc rfl (.packet (o := .merged t.v4Reasm.desc desc) ?_
      (List.append_assoc ..) rfl fun d => ?_)
    · apply Sends.hold
      iterate 2 apply Sends.seg
      exact Sends.start rfl rfl rfl
    · show [desc].count d + (t.v4Reasm.held ++ t.v6Reasm.held).count d =
        ([t.v4Reasm.desc] ++ [desc]).count d + (Reasm.held ⟨0, 0, 0⟩ ++ t.v6Reasm.held).count d
      rw [Reasm.held_of_ne hnone, Reasm.held_none, List.count_append, List.count_append,
        List.nil_append]
      omega

theorem reasmV6_disposed (hdesc : desc ≠ 0) :
    Disposed t desc (reasmV6 t port len desc hdrOff) (reasmV6Way t port desc hdrOff) := by
  unfold reasmV6 reasmV6Way
  simp only
  split_ifs with hnext hmore hheld hnone hident hoff
  · exact .error desc rfl (.refl rfl rfl rfl rfl)
  · have hfirst := first6_settles (t := t) port len desc hdrOff hdesc
    unfold release6 at hfirst
    simp only [if_pos hheld] at hfirst
    exact .segments desc rfl (hfirst _ _)
  · have hfirst := first6_settles (t := t) port len desc hdrOff hdesc
    unfold release6 at hfirst
    simp only [if_neg hheld] at hfirst
    exact .segments desc rfl (hfirst t.mem _)
  · exact .error desc rfl (.refl rfl rfl rfl rfl)
  · exact .error desc rfl (.refl rfl rfl rfl rfl)
  · exact .error desc rfl (.refl rfl rfl rfl rfl)
  · refine .segments desc rfl (.packet (o := .merged t.v6Reasm.desc desc) ?_
      ((congrArg (· ++ _) (List.append_assoc ..)).trans (List.append_assoc ..)) ?_ fun d => ?_)
    · apply Sends.hold
      iterate 3 apply Sends.seg
      exact Sends.start rfl rfl rfl
    · exact if_pos ⟨rfl, rfl, rfl, rfl, rfl, rfl, rfl, rfl, rfl, rfl⟩
    · show [desc].count d + (t.v4Reasm.held ++ t.v6Reasm.held).count d =
        ([t.v6Reasm.desc] ++ [desc]).count d + (t.v4Reasm.held ++ Reasm.held ⟨0, 0, 0⟩).count d
      rw [Reasm.held_of_ne hnone, Reasm.held_none, List.count_append, List.count_append,
        List.append_nil]
      omega

theorem tunnelReassemble_disposed (hdesc : desc ≠ 0) :
    Disposed t desc (tunnelReassemble t port len desc) (reassembleWay t port desc) := by
  unfold tunnelReassemble reassembleWay
  simp only
  split_ifs
  · exact reasmV4_disposed _ _ _ _ hdesc
  · exact reasmV6_disposed _ _ _ _ hdesc
  · exact .error desc rfl (.refl rfl rfl rfl rfl)

/-- A fragment that comes in is handed over, by the handler or its caller,
    or pending. -/
theorem tunnelOffload_settles (hdesc : desc ≠ 0) (hop : t.mem.word32 (desc + 4) / 2 ^ 28 % 8 = 2) :
    Settles t [desc] (if reassembleWay t port desc = .error then 1
      else (reassembleWay t port desc).calls) (tunnelOffload t port desc) := by
  have hcall : ∀ len, tunnelOffloadHandler t port len desc = tunnelReassemble t port len desc := by
    intro len
    unfold tunnelOffloadHandler
    simp only
    rw [if_neg (by omega), if_pos hop]
  unfold tunnelOffload
  simp only
  rw [hcall]
  have hdone := tunnelReassemble_disposed (t := t) port (t.mem.word32 desc % 2 ^ 16 + 32) desc hdesc
  unfold Disposed at hdone
  by_cases herr : reassembleWay t port desc = .error
  · rw [if_pos herr] at hdone
    rw [if_pos herr, if_pos hdone.1]
    exact hdone.2.trans (drop_settles ..)
  · rw [if_neg herr] at hdone
    rw [if_neg herr, if_neg (by rw [hdone.1]; decide)]
    exact hdone.2

theorem tunnelReasmFlush_settles : Settles t [] t.pending.length (tunnelReasmFlush t) := by
  have hboth := (release4_settles (t := t) 7).trans (release6_settles 7)
  have hkeep : (release4 7 t).v6Reasm = t.v6Reasm := by
    unfold release4
    split_ifs <;> rfl
  have hcalls : t.pending.length =
      (if t.v4Reasm.desc ≠ 0 then 1 else 0) + if t.v6Reasm.desc ≠ 0 then 1 else 0 := by
    unfold Tun.pending Reasm.held
    rw [List.length_append]
    split_ifs <;> rfl
  rw [hkeep] at hboth
  rw [hcalls]
  exact hboth

/-! ## Every run -/

/-- The segments taken so far are whole packets that account for every
    buffer. -/
def Books (s : Loop) : Prop :=
  ∃ ps : List (List Egress), s.tun.log.filter Egress.ok = ps.flatten ∧
    (∀ p ∈ ps, (outcome p).isSome) ∧
    ∀ desc, s.dequeued.count desc = (settled ps).count desc + s.tun.pending.count desc

theorem Books.accounted {s : Loop} (h : Books s) : Accounted s := by
  obtain ⟨ps, hlog, hps, honce⟩ := h
  have htaken : s.tun.taken = ps := by
    unfold Tun.taken
    rw [hlog, packets_flatten fun p hp => closed_of_outcome (hps p hp)]
  constructor
  · rw [htaken]
    exact hps
  · rw [htaken]
    exact honce

/-- A call that settles its buffers keeps the books if every segment of it
    finds credit. -/
theorem Books.settles {s : Loop} {new : List ℕ} (h : Books s) (hs : Settles s.tun new n t')
    (hcredit : ∀ i < n, s.tun.credit (s.tun.calls + i) = true) :
    Books ⟨t', s.dequeued ++ new⟩ := by
  obtain ⟨ps, hlog, hps, honce⟩ := h
  obtain ⟨⟨-, -, sent, hsent, hok⟩, qs, hqs, hout, hcount⟩ := hs
  obtain rfl : sent = qs.flatten := List.append_cancel_left (hsent.symm.trans hqs)
  refine ⟨ps ++ qs, ?_, List.forall_mem_append.2 ⟨hps, hout⟩, ?_⟩
  · rw [hqs, List.filter_append, hlog, List.filter_eq_self.2 (hok.2 hcredit),
      List.flatten_append]
  · intro desc
    have hbefore := honce desc
    have hnow := hcount desc
    rw [settled_append, List.count_append, List.count_append]
    show s.dequeued.count desc + new.count desc = _ + t'.pending.count desc
    omega

/-- It accounts for them only then. -/
theorem Books.refused {s : Loop} {new : List ℕ} (h : Books s) (hs : Settles s.tun new n t')
    (hacc : Accounted ⟨t', s.dequeued ++ new⟩) :
    ∀ i < n, s.tun.credit (s.tun.calls + i) = true := by
  obtain ⟨ps, hlog, hps, honce⟩ := h
  obtain ⟨⟨-, -, sent, hsent, hok⟩, qs, hqs, hout, hcount⟩ := hs
  obtain rfl : sent = qs.flatten := List.append_cancel_left (hsent.symm.trans hqs)
  have htaken : t'.taken = ps ++ packets (qs.flatten.filter Egress.ok) := by
    unfold Tun.taken
    rw [hqs, List.filter_append, hlog,
      packets_flatten_append fun p hp => closed_of_outcome (hps p hp)]
  obtain ⟨hwhole, hcounted⟩ := hacc
  simp only [htaken] at hwhole hcounted
  have hsame : ∀ desc, (settled (packets (qs.flatten.filter Egress.ok))).count desc =
      (settled qs).count desc := by
    intro desc
    have hbefore := honce desc
    have hnow := hcount desc
    have hafter := hcounted desc
    rw [settled_append, List.count_append, List.count_append] at hafter
    omega
  exact hok.1 (taken_of_settled hout (fun p hp => hwhole p (List.mem_append_right _ hp))
    (List.perm_iff_count.2 hsame).length_eq)

theorem dequeuedDesc_ne (reg : ℕ) : dequeuedDesc reg ≠ 0 := by
  have hle : 0x20000000 ≤ dequeuedDesc reg := Nat.right_le_or
  omega

/-- What a step settles. -/
theorem loop_settles {s s' : Loop} {a : LoopAction} (hstep : loopSystem.step s a s') :
    ∃ new, s'.dequeued = s.dequeued ++ new ∧ Settles s.tun new (loopCalls s a) s'.tun := by
  cases a with
  | fragment port reg mem =>
    obtain ⟨hop, rfl⟩ := hstep
    refine ⟨[dequeuedDesc reg], rfl, ?_⟩
    have hdone := tunnelOffload_settles (t := { s.tun with mem := mem }) port (dequeuedDesc reg)
      (dequeuedDesc_ne reg) hop
    exact hdone.of_mem
  | flush =>
    obtain rfl := hstep
    exact ⟨[], (List.append_nil _).symm, tunnelReasmFlush_settles⟩

theorem books_guarded {s : Loop} (hreach : (loopSystem.guarded loopGuard).Reachable s) :
    Books s := by
  refine hreach.invariant ?_ ?_
  · rintro s ⟨hlog, h4, h6, hdeq⟩
    refine ⟨[], by rw [hlog]; rfl, nofun, fun desc => ?_⟩
    unfold Tun.pending
    rw [hdeq, Reasm.held_of_eq h4, Reasm.held_of_eq h6]
    rfl
  · rintro s a s' hbooks ⟨hguard, hstep⟩
    obtain ⟨new, hnew, hdone⟩ := loop_settles hstep
    have hkept := hbooks.settles hdone hguard
    rwa [← hnew] at hkept

/-- In every run whose steps all find credit for their segments, every
    buffer dequeued is exactly once merged into a packet, dropped or
    pending; and the first step that does not is the first after which
    this fails. -/
theorem accounted_guarded {s : Loop} (hreach : (loopSystem.guarded loopGuard).Reachable s) :
    Accounted s ∧ ∀ a s', loopSystem.step s a s' → (Accounted s' ↔ loopGuard s a) := by
  have hbooks := books_guarded hreach
  refine ⟨hbooks.accounted, fun a s' hstep => ?_⟩
  obtain ⟨new, hnew, hdone⟩ := loop_settles hstep
  constructor
  · intro hacc
    refine hbooks.refused hdone ?_
    rw [← hnew]
    exact hacc
  · intro hguard
    have hkept := (hbooks.settles hdone hguard).accounted
    rwa [← hnew] at hkept

/-- The offload before the first packet. -/
def freshLoop (credit : ℕ → Bool) : Loop := ⟨{ refusedOnce with credit := credit }, []⟩

theorem freshLoop_init (credit : ℕ → Bool) : loopSystem.init (freshLoop credit) :=
  ⟨rfl, rfl, rfl, rfl⟩

/-- An IPv4 packet of 28 bytes in two fragments behind descriptors 4096
    and 8192. -/
def fragmentPair : Memory :=
  let m := (blankMem.put32 (dequeuedDesc 4096) (2 ^ 27 + 14 * 2 ^ 20 + 42)).put32
    (dequeuedDesc 4096 + 4) (2 * 2 ^ 28)
  let m := (m.put16 (dequeuedDesc 4096 + 46) 0x4500).put16 (dequeuedDesc 4096 + 48) 28
  let m := m.put16 (dequeuedDesc 4096 + 52) 0x2000
  let m := (m.put32 (dequeuedDesc 8192) (2 ^ 27 + 14 * 2 ^ 20 + 42)).put32
    (dequeuedDesc 8192 + 4) (2 * 2 ^ 28)
  (m.put16 (dequeuedDesc 8192 + 46) 0x4500).put16 (dequeuedDesc 8192 + 52) 1

/-- A fragment of `fragmentPair` comes in on port 2. -/
def Loop.fragment (s : Loop) (reg : ℕ) : Loop :=
  ⟨tunnelOffload { s.tun with mem := fragmentPair } 2 (dequeuedDesc reg),
    s.dequeued ++ [dequeuedDesc reg]⟩

/-- With credit the pair leaves as one packet. -/
theorem accounted_guarded_pair :
    Accounted (((freshLoop fun _ => true).fragment 4096).fragment 8192) ∧
      (((freshLoop fun _ => true).fragment 4096).fragment 8192).tun.taken.map outcome =
        [some (.merged (dequeuedDesc 4096) (dequeuedDesc 8192))] := by
  refine ⟨(accounted_guarded ?_).1, by decide +kernel⟩
  refine .step (.fragment 2 8192 fragmentPair) ?_ ⟨fun _ _ => ?_, by decide +kernel, rfl⟩
  · refine .step (.fragment 2 4096 fragmentPair) (.init (freshLoop_init _))
      ⟨fun _ _ => rfl, by decide +kernel, rfl⟩
  · have hstep : loopSystem.step (freshLoop fun _ => true) (.fragment 2 4096 fragmentPair)
        ((freshLoop fun _ => true).fragment 4096) := ⟨by decide +kernel, rfl⟩
    obtain ⟨_, _, hdone⟩ := loop_settles hstep
    rw [hdone.sends.credit]
    rfl

/-- A second fragment without a first one is to be dropped, and without
    credit it is forgotten. -/
theorem accounted_refused : ∃ s, loopSystem.Reachable s ∧ ¬Accounted s := by
  refine ⟨(freshLoop fun _ => false).fragment 8192,
    .step (.fragment 2 8192 fragmentPair) (.init (freshLoop_init _))
      ⟨by decide +kernel, rfl⟩, fun hacc => ?_⟩
  have honce := hacc.once (dequeuedDesc 8192)
  have hno : ¬((freshLoop fun _ => false).fragment 8192).dequeued.count (dequeuedDesc 8192) =
      (settled ((freshLoop fun _ => false).fragment 8192).tun.taken).count (dequeuedDesc 8192) +
        ((freshLoop fun _ => false).fragment 8192).tun.pending.count (dequeuedDesc 8192) := by
    decide +kernel
  exact hno honce

end ClankerNPU.Tunnel
