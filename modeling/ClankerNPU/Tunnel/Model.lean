import ClankerNPU.Lib.Bytes
import ClankerNPU.Words

/-! # The tunnel offload

    The packet operations of `npu_tunnel.c`. A packet sits in memory
    behind a 32-byte descriptor; an operation edits bytes in place and
    hands segments of memory to the bridge, each with up to four patches
    of big-endian words made on the way out.

    Addresses are physical: the alias bits `tunnel_seg` strips are left
    out. Messages printed on errors are left out. -/

namespace ClankerNPU.Tunnel

open Memory

/-- `PATCH(off, v)`: the byte offset in the segment's buffer, and the
    word. -/
structure Patch where
  off : ℕ
  value : ℕ
  deriving DecidableEq, Repr

def patch (off : ℤ) (v : ℤ) : Option Patch := some ⟨u16 off % 2 ^ 14, u16 v⟩

/-- One segment for the bridge. -/
structure Seg where
  port : ℕ
  addr : ℕ
  len : ℕ
  off : ℕ
  /-- `SEG_FIRST` -/
  first : Bool
  /-- `SEG_LAST` -/
  last : Bool
  /-- `SEG_TYPE` -/
  type : ℕ
  patches : List Patch
  deriving DecidableEq, Repr

/-- The buffer as it goes out. -/
def Seg.patched (g : Seg) (m : Memory) : Memory :=
  g.patches.foldl (fun m p => m.put16 (g.addr + p.off) p.value) m

/-- The bytes the bridge puts out for a segment. -/
def Seg.bytes (g : Seg) (m : Memory) : List Byte := (g.patched m).slice (g.addr + g.off) g.len

/-- A segment offered to the bridge: whether there was credit for it, and
    its bytes at that time. -/
structure Egress where
  seg : Seg
  ok : Bool
  bytes : List Byte
  deriving DecidableEq, Repr

/-- A packet held for reassembly; no packet when `desc` is 0. -/
structure Reasm where
  desc : ℕ
  len : ℕ
  hdroff : ℕ
  deriving DecidableEq, Repr

/-- Memory, the globals of `npu_tunnel.c` and the bridge. -/
structure Tun where
  mem : Memory
  /-- whether call number `i` of `npu_bridge_egress` finds credit -/
  credit : ℕ → Bool
  calls : ℕ
  log : List Egress
  /-- `npu_bridge_addr()` -/
  bridge : ℕ
  encapMtu : ℕ
  srv6HdrLen : ℕ → ℕ
  mapInfoBase : ℕ
  ipv6FragId : ℕ
  /-- `TUNNEL_V4_FRAG_INFO` -/
  v4FragInfo : ℕ
  v4Reasm : Reasm
  v6Reasm : Reasm

/-- `npu_bridge_egress` for a segment -/
def bridgeEgress (t : Tun) (g : Seg) : ℤ × Tun :=
  (if t.credit t.calls then 0 else -1,
    { t with
      calls := t.calls + 1
      log := t.log ++ [⟨g, t.credit t.calls, g.bytes t.mem⟩] })

/-- `tunnel_seg` -/
def tunnelSeg (t : Tun) (port addr : ℕ) (len off : ℤ) (first last : Bool) (type : ℕ)
    (ps : List (Option Patch)) : ℤ × Tun :=
  bridgeEgress t ⟨port, addr, u16 len, u16 off, first, last, type, ps.filterMap id⟩

/-- `tunnel_seg` where its result is not looked at. -/
def Tun.seg (t : Tun) (port addr : ℕ) (len off : ℤ) (first last : Bool) (type : ℕ)
    (ps : List (Option Patch)) : Tun :=
  (tunnelSeg t port addr len off first last type ps).2

/-- `tunnel_send_split` -/
def tunnelSendSplit (t : Tun) (port addr fwd len split : ℕ) : ℤ × Tun :=
  let type : ℕ := if fwd ≠ 0 then 1 else 0
  let len : ℕ := len % 2 ^ 16
  let split : ℕ := split % 2 ^ 16
  if split = 0 then tunnelSeg t port addr len 0 true true type []
  else
    let t := t.seg port addr 32 0 true false 1 []
    (0, t.seg port addr ((len : ℤ) - 32 - split) (split + 32) false true type [])

/-- `tunnel_pkt_drop` -/
def tunnelPktDrop (t : Tun) (port pktLen desc : ℕ) : Tun :=
  t.seg port desc pktLen 0 true true 2 []

/-- `ipv4_csum_update` -/
def ipv4CsumUpdate (m : Memory) (iph totlen frag : ℕ) : ℕ :=
  let sum := (65535 - m.be16 (iph + 10)) + (65535 - m.be16 (iph + 2)) + totlen % 2 ^ 16
  let sum := sum % 2 ^ 16 + sum / 2 ^ 16 + (65535 - m.be16 (iph + 6)) + frag % 2 ^ 16
  let sum := sum % 2 ^ 16 + sum / 2 ^ 16
  65535 - sum % 2 ^ 16

/-- `tunnel_send_insert` -/
def tunnelSendInsert (t : Tun) (port hdr hdrFwd hdrLen desc fwd len split : ℕ)
    (ps : List (Option Patch)) : Tun :=
  let split : ℕ := split % 2 ^ 16
  let t := t.seg port desc 32 0 true false 1 []
  let t := t.seg port hdr hdrLen 0 false false ((if hdrFwd ≠ 0 then 1 else 0) + 4) ps
  t.seg port desc ((len : ℤ) - split - 32) (split + 32) false true (if fwd ≠ 0 then 1 else 0) []

/-- The descriptor words the tunnel operations write: `desc[0]`, `desc[4]`,
    `desc[5]` and `desc[6]`. -/
def putInfo (m : Memory) (desc port udf : ℕ) : Memory :=
  (((m.put32 desc (port * 16)).put32 (desc + 16) (udf * 2 ^ 14 + 0x3800)).put32 (desc + 20)
    0x7F4007FF).put32 (desc + 24) 0xFFFF

/-- `vxlan_encap` -/
def vxlanEncap (t : Tun) (port len desc udf : ℕ) : ℤ × Tun :=
  let hdr := t.bridge + (udf - 1) * 128
  let t := { t with mem := putInfo t.mem desc port udf }
  (0, tunnelSendInsert t port hdr 1 50 desc 0 len 0
    [patch 0x10 (len + 4), patch 0x26 ((len : ℤ) - 16)])

/-- `vxlan_encap_frag` -/
def vxlanEncapFrag (t : Tun) (port len desc udf hdrOff : ℕ) : ℤ × Tun :=
  let hdr := t.bridge + (udf - 1) * 128
  let iph := desc + hdrOff + 32
  let units : ℕ := u32 ((t.encapMtu : ℤ) - 70) / 8 % 2 ^ 16
  let fp : ℕ := units * 8
  let rem : ℕ := u16 ((len : ℤ) - fp)
  let t := { t with mem := putInfo t.mem desc port udf }
  let t := t.seg port desc 32 0 true false 1 []
  let t := t.seg port hdr 50 0 false false 5 [patch 0x10 (fp + 70), patch 0x26 (fp + 50)]
  let t := t.seg port desc (fp + 34) 32 false true 1
    [patch 0x30 (fp + 20), patch 0x34 0x2000,
      patch 0x38 (ipv4CsumUpdate t.mem iph (fp + 20) 0x2000)]
  let t := t.seg port desc 32 0 true false 1 []
  let t := t.seg port hdr 50 0 false false 5
    [patch 0x10 (rem + 4), patch 0x26 ((rem : ℤ) - 16)]
  let t := t.seg port desc 34 32 false false 1
    [patch 0x30 ((rem : ℤ) - 46), patch 0x34 units,
      patch 0x38 (ipv4CsumUpdate t.mem iph (u16 ((rem : ℤ) - 46)) units)]
  (0, t.seg port desc ((len : ℤ) - 66 - fp) (fp + 66) false true 0 [])

/-- The L2 header length in `desc[0]`, `(w0 >> 20) & 0x7F`. -/
def hdrOffOf (w0 : ℕ) : ℕ := w0 / 2 ^ 20 % 128

/-- `tunnel_vxlan` -/
def tunnelVxlan (t : Tun) (port len desc udf : ℕ) : ℤ × Tun :=
  if udf < 1 ∨ 20 < udf then
    tunnelSendSplit { t with mem := putInfo t.mem desc port udf } port desc 0 len 50
  else if len + 4 ≤ t.encapMtu then vxlanEncap t port len desc udf
  else vxlanEncapFrag t port len desc udf (hdrOffOf (t.mem.word32 desc))

/-- `srv6_encap` -/
def srv6Encap (t : Tun) (port len desc udf hdrOff : ℕ) : ℤ × Tun :=
  let hdr := t.bridge + (udf - 21) * 128
  let hlen : ℕ := t.srv6HdrLen (udf - 41)
  let t := { t with mem := putInfo t.mem desc port udf }
  let t := t.seg port desc 44 0 true false 1 []
  let t := t.seg port hdr ((hlen : ℤ) - 12) 12 false false 5
    [patch 0x12 ((len : ℤ) - hdrOff - 86 + hlen)]
  (0, t.seg port desc ((len : ℤ) - 46) 46 false true 0 [])

/-- `srv6_decap` -/
def srv6Decap (t : Tun) (port len desc hdrOff : ℕ) (srh : Bool) : ℤ × Tun :=
  let strip : ℕ := if srh then (t.mem (desc + hdrOff + 73)).val * 8 + 48 else 40
  let t := t.seg port desc 46 0 true false 1 [patch 0x2C 0x0800]
  (0, t.seg port desc ((len : ℤ) - 46 - strip) (46 + strip) false true 0 [])

/-- `srv6_end` -/
def srv6End (t : Tun) (port len desc udf hdrOff : ℕ) : ℤ × Tun :=
  let pkt := desc + hdrOff
  let ip6 := pkt + 32
  let srh := pkt + 72
  let t := { t with mem := putInfo t.mem desc port udf }
  if t.mem (ip6 + 6) = 4 then srv6Decap t port len desc hdrOff false
  else if t.mem (srh + 3) = 0 then srv6Decap t port len desc hdrOff true
  else
    let left : ℕ := (t.mem (srh + 3)).val - 1
    let ext : ℕ := (t.mem (srh + 1)).val
    let t := { t with mem := t.mem.copy (pkt + 56) (srh + 8 + 16 * left) 16 }
    if left ≠ 0 ∨ (t.mem (srh + 5)).val < 128 then
      tunnelSendSplit { t with mem := t.mem.put8 (srh + 3) left } port desc 0 len 0
    else
      let t := { t with mem := t.mem.put8 (ip6 + 6) (t.mem srh).val }
      let ext : ℕ := (ext * 8 + 8) % 256
      let plen : ℕ := u16 ((t.mem.be16 (ip6 + 4) : ℤ) - ext)
      let t := { t with mem := t.mem.put16 (ip6 + 4) plen }
      let t := t.seg port desc (hdrOff + 72) 0 true false 1 []
      (0, t.seg port desc plen (ext + hdrOff + 72) false true 0 [])

/-- `tunnel_srv6` -/
def tunnelSrv6 (t : Tun) (port len desc udf : ℕ) : ℤ × Tun :=
  let hdrOff : ℕ := hdrOffOf (t.mem.word32 desc)
  if 41 ≤ udf ∧ udf ≤ 48 then srv6Encap t port len desc udf hdrOff
  else if 49 ≤ udf ∧ udf ≤ 56 then srv6End t port len desc udf hdrOff
  else (-1, t)

/-- `tunnel_egress_cached`: it waits for credit. -/
def tunnelEgressCached (t : Tun) (port addr : ℕ) (len off : ℤ) (first last : Bool) (type : ℕ) :
    Tun :=
  let g : Seg := ⟨port, addr, u16 len, u16 off, first, last, type, []⟩
  { t with log := t.log ++ [⟨g, true, g.bytes t.mem⟩] }

/-- `tunnel_send_replace` -/
def tunnelSendReplace (t : Tun) (port desc len hlen split hdr hdrLen : ℕ) : Tun :=
  let hlen : ℕ := hlen % 2 ^ 16
  let split : ℕ := split % 2 ^ 16
  let t := tunnelEgressCached t port desc (hlen + 32) 0 true false 1
  let t := tunnelEgressCached t port hdr hdrLen 0 true false 1
  tunnelEgressCached t port desc ((len : ℤ) - split - 32 - hlen) (split + 32 + hlen) false true 0

/-- `tunnel_map` -/
def tunnelMap (t : Tun) (port len desc udf w1 idx : ℕ) : ℤ × Tun :=
  let hdr := t.bridge + 0xE80
  let m := putInfo t.mem desc port udf
  if udf = 65 then
    let m := m.put16 (desc + 50) (u16 ((len : ℤ) - 106))
    let m := m.put8 (desc + 52) (m (desc + 95)).val
    let t := tunnelEgressCached { t with mem := m } port desc 86 0 true false 1
    (0, tunnelEgressCached t port desc ((len : ℤ) - 106) 106 false true 0)
  else if udf = 66 then
    let m := m.put16 (desc + 48) (u16 ((len : ℤ) - 86))
    let m := m.put8 (desc + 55) (m (desc + 72)).val
    let m := m.put16 (desc + 108) (u16 w1)
    let t := tunnelEgressCached { t with mem := m } port desc 66 0 true false 1
    (0, tunnelEgressCached t port desc ((len : ℤ) - 106) 106 false true 0)
  else if udf = 67 then
    let m := m.copy hdr (t.mapInfoBase + 40 * idx) 40
    let m := m.put16 (desc + 44) 0x86DD
    let m := m.put16 (hdr + 4) (u16 ((len : ℤ) - 66))
    let m := m.put8 (hdr + 6) (m (desc + 55)).val
    (0, tunnelSendReplace { t with mem := m } port desc len 14 20 hdr 40)
  else
    let m := m.copy hdr (t.mapInfoBase + 40 * idx) 24
    let m := m.put16 (desc + 44) 0x0800
    let m := m.put16 (hdr + 2) (u16 ((len : ℤ) - 66))
    let m := m.put8 (hdr + 9) (m (desc + 52)).val
    (0, tunnelSendReplace { t with mem := m } port desc len 14 44 hdr 24)

/-- Where `pppoe_len_patch` finds a session header's length. -/
def pppoeAt (m : Memory) (desc : ℕ) : Option ℕ :=
  if m.be16 (desc + 44) = 0x8864 then some 0x32
  else if m.be16 (desc + 44) = 0x8100 ∧ m.be16 (desc + 48) = 0x8864 then some 0x36
  else none

/-- `pppoe_len_patch` -/
def pppoeLenPatch (m : Memory) (desc : ℕ) (len : ℤ) : Option Patch :=
  (pppoeAt m desc).bind fun off => patch off len

/-- `frag_v4` -/
def fragV4 (t : Tun) (port len desc mtu hdrOff : ℕ) : ℤ × Tun :=
  let units : ℕ := u32 ((mtu : ℤ) - 20) / 8 % 2 ^ 16
  let fp : ℕ := units * 8
  let h : ℕ := hdrOff % 2 ^ 16
  let t := { t with mem := t.mem.put32 desc (port % 32 * 16 + t.v4FragInfo) }
  let t := t.seg port desc (fp + hdrOff + 52) 0 true true 1
    [patch (h + 34) (fp + 20), patch (h + 38) 0x2000, pppoeLenPatch t.mem desc (fp + 22)]
  let t := t.seg port desc (hdrOff + 52) 0 true false 1
    [patch (h + 34) ((len : ℤ) - 32 - h - fp), patch (h + 38) units,
      pppoeLenPatch t.mem desc ((len : ℤ) - fp - hdrOff - 30)]
  (0, t.seg port desc ((len : ℤ) - fp - hdrOff - 52) (fp + hdrOff + 52) false true 0 [])

/-- `frag_v6` -/
def fragV6 (t : Tun) (port len desc mtu hdrOff : ℕ) : ℤ × Tun :=
  let fragHdr := t.bridge + 0xE00
  let nh := desc + hdrOff + 38
  let units : ℕ := u32 ((mtu : ℤ) - 48) / 8 % 2 ^ 16
  let fs : ℕ := units * 8
  let h : ℕ := hdrOff % 2 ^ 16
  let m := t.mem.put32 desc (port % 32 * 16 + 0x200)
  let next : ℕ := (m nh).val
  let id : ℕ := u32 (t.ipv6FragId + 1)
  let t := { t with mem := m.put8 nh 44, ipv6FragId := id }
  let t := t.seg port desc (hdrOff + 72) 0 true false 1
    [patch (h + 36) (fs + 8), pppoeLenPatch t.mem desc (fs + 50)]
  let t := t.seg port fragHdr 8 0 false false 1
    [patch 0 (next * 256), patch 2 1, patch 4 (id / 2 ^ 16), patch 6 id]
  let t := t.seg port desc fs (hdrOff + 72) false true 1 []
  let t := t.seg port desc (hdrOff + 72) 0 true false 1
    [patch (h + 36) ((len : ℤ) - 64 - h - fs),
      pppoeLenPatch t.mem desc ((len : ℤ) - hdrOff - fs - 22)]
  let t := t.seg port fragHdr 8 0 false false 1
    [patch 0 (next * 256), patch 2 fs, patch 4 (id / 2 ^ 16), patch 6 id]
  (0, t.seg port desc ((len : ℤ) - hdrOff - fs - 72) (hdrOff + 72 + fs) false true 0 [])

/-- `tunnel_fragment` -/
def tunnelFragment (t : Tun) (port len desc : ℕ) : ℤ × Tun :=
  let w0 : ℕ := t.mem.word32 desc
  let mtu : ℕ := t.mem.word32 (desc + 16) / 2 ^ 16
  let hdrOff : ℕ := hdrOffOf w0
  if w0 % 2 ^ 16 ≤ hdrOff + mtu then (-1, t)
  else if w0 / 2 ^ 27 % 2 = 1 then fragV4 t port len desc mtu hdrOff
  else if w0 / 2 ^ 28 % 2 = 1 then fragV6 t port len desc mtu hdrOff
  else (-1, t)

/-- `reasm_v4` -/
def reasmV4 (t : Tun) (port len desc hdrOff : ℕ) : ℤ × Tun :=
  let ip := desc + hdrOff + 32
  let t := { t with mem := t.mem.put32 desc (port % 32 * 16 + t.v4FragInfo) }
  if t.mem.be16 (ip + 6) &&& 0x2000 ≠ 0 then
    let t := if t.v4Reasm.desc ≠ 0 then tunnelPktDrop t port t.v4Reasm.len t.v4Reasm.desc else t
    (0, { t with
      v4Reasm := ⟨desc, len, hdrOff⟩
      mem := t.mem.put16 (ip + 6) (t.mem.be16 (ip + 6) &&& 0xDFFF) })
  else if t.v4Reasm.desc = 0 then (-1, t)
  else
    let sip := t.v4Reasm.desc + t.v4Reasm.hdroff + 32
    if t.mem.be16 (sip + 4) ≠ t.mem.be16 (ip + 4) then (-1, t)
    else if u16 (t.mem.be16 (ip + 6) * 8) ≠
        u32 ((t.mem.be16 (sip + 2) : ℤ) - ((t.mem sip).val * 4 &&& 0x3C : ℕ)) then (-1, t)
    else
      let total : ℕ := u16 ((t.mem.be16 (sip + 2) : ℤ) + len - 52 - hdrOff)
      let t := { t with mem := t.mem.put16 (sip + 2) total }
      let slen : ℕ := t.v4Reasm.len
      let soff : ℕ := t.v4Reasm.hdroff
      let t := t.seg port t.v4Reasm.desc slen 0 true false 0
        [pppoeLenPatch t.mem desc ((slen : ℤ) - 82 - soff + len - hdrOff)]
      let t := t.seg port desc ((len : ℤ) - 52 - hdrOff) (hdrOff + 52) false true 0 []
      (0, { t with v4Reasm := ⟨0, 0, 0⟩ })

/-- `reasm_v6` -/
def reasmV6 (t : Tun) (port len desc hdrOff : ℕ) : ℤ × Tun :=
  let pkt := desc + hdrOff
  let fh := pkt + 72
  let t := { t with mem := t.mem.put32 desc (port % 32 * 16 + 0x200) }
  if t.mem (pkt + 38) ≠ 44 then (-1, t)
  else if t.mem.be16 (fh + 2) % 2 = 1 then
    let t := if t.v6Reasm.desc ≠ 0 then tunnelPktDrop t port t.v6Reasm.len t.v6Reasm.desc else t
    (0, { t with
      v6Reasm := ⟨desc, len, hdrOff⟩
      mem := t.mem.put8 (pkt + 38) (t.mem (pkt + 72)).val })
  else if t.v6Reasm.desc = 0 then (-1, t)
  else
    let spkt := t.v6Reasm.desc + t.v6Reasm.hdroff
    if t.mem.be16 (spkt + 76) ≠ t.mem.be16 (fh + 4) ∨
        t.mem.be16 (spkt + 78) ≠ t.mem.be16 (fh + 6) then (-1, t)
    else if t.mem.be16 (fh + 2) / 8 * 8 ≠ u32 ((t.mem.be16 (spkt + 36) : ℤ) - 8) then (-1, t)
    else
      let plen : ℕ := u16 ((t.mem.be16 (spkt + 36) : ℤ) + len - 88 - hdrOff)
      let t := { t with mem := t.mem.put16 (spkt + 36) plen }
      let sdesc : ℕ := t.v6Reasm.desc
      let slen : ℕ := t.v6Reasm.len
      let soff : ℕ := t.v6Reasm.hdroff
      let t := t.seg port sdesc (soff + 72) 0 true false 1
        [pppoeLenPatch t.mem desc ((slen : ℤ) - 118 - soff + len - hdrOff)]
      let t := t.seg port sdesc ((slen : ℤ) - 80 - soff) (soff + 80) false false 0 []
      let t := t.seg port desc ((len : ℤ) - 80 - hdrOff) (hdrOff + 80) false true 0 []
      (0, { t with v6Reasm := ⟨0, 0, 0⟩ })

/-- `tunnel_reassemble` -/
def tunnelReassemble (t : Tun) (port len desc : ℕ) : ℤ × Tun :=
  let w0 : ℕ := t.mem.word32 desc
  let hdrOff : ℕ := hdrOffOf w0
  if w0 / 2 ^ 27 % 2 = 1 then reasmV4 t port len desc hdrOff
  else if w0 / 2 ^ 28 % 2 = 1 then reasmV6 t port len desc hdrOff
  else (-1, t)

/-- `tunnel_offload_handler` -/
def tunnelOffloadHandler (t : Tun) (port pktLen desc : ℕ) : ℤ × Tun :=
  let w1 := t.mem.word32 (desc + 4)
  let opcode := w1 / 2 ^ 28 % 8
  if opcode = 1 then tunnelFragment t port pktLen desc
  else if opcode = 2 then tunnelReassemble t port pktLen desc
  else
    let udf := (t.mem (desc + 20)).val
    if 1 ≤ udf ∧ udf ≤ 40 then tunnelVxlan t port pktLen desc udf
    else if 41 ≤ udf ∧ udf ≤ 56 then tunnelSrv6 t port pktLen desc udf
    else if 65 ≤ udf ∧ udf ≤ 68 then
      tunnelMap t port pktLen desc udf (w1 % 2 ^ 18) (t.mem.word32 (desc + 16) % 2 ^ 16)
    else (-1, t)

/-! ## Header templates -/

/-- `tunnel_mail_store_hdr` -/
def tunnelMailStoreHdr (base : Memory) (t : Tun) : Tun :=
  let idx := (base 8).val
  { t with mem := t.mem.copyFrom (t.bridge + idx * 128) base 9 50 }

/-- `tunnel_mail_store_srv6` -/
def tunnelMailStoreSrv6 (base : Memory) (t : Tun) : Tun :=
  let idx := (base 8).val
  let len := (base 9).val
  if idx > 7 then t
  else
    { t with
      mem := t.mem.copyFrom (t.bridge + (idx + 20) * 128) base 10 len
      srv6HdrLen := Function.update t.srv6HdrLen idx len }

end ClankerNPU.Tunnel
