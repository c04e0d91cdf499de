import ClankerNPU.Tunnel.Atomic

/-! # Fragment and reassemble

    A packet too long for its MTU goes out as two fragments, and two
    fragments that arrive in order go out as one packet. The second takes
    the first back, byte for byte but for the fragment word of IPv4,
    which is cleared. -/

namespace ClankerNPU.Tunnel

open Memory

variable {t t' u : Tun} {m m' : Memory} {port len desc mtu hdrOff d1 d2 : ℕ}

/-- The packets an operation sends, as bytes. -/
def emitted (t t' : Tun) : List (List Byte) :=
  (packets (offered t t')).map fun p => p.flatMap (·.bytes)

/-- The L2 header ends where the PPPoE header says, if there is one, and
    its length is the packet's with the protocol field. -/
structure L2Header (m : Memory) (desc hdrOff dataLen : ℕ) : Prop where
  long : 14 ≤ hdrOff
  short : hdrOff < 128
  tagged : m.be16 (desc + 44) = 0x8100 → 18 ≤ hdrOff
  session : ∀ off, pppoeAt m desc = some off → off + 4 = hdrOff + 32 ∧
    m.be16 (desc + off) = dataLen + 2

/-- An IPv4 packet with a 20-byte header and no fragmentation so far,
    behind its descriptor and L2 header. -/
structure V4Packet (m : Memory) (desc len hdrOff : ℕ) : Prop where
  l2 : L2Header m desc hdrOff (m.be16 (desc + hdrOff + 34))
  ihl : m (desc + hdrOff + 32) = 0x45
  total : m.be16 (desc + hdrOff + 34) + hdrOff + 32 = len
  whole : m.be16 (desc + hdrOff + 38) % 2 ^ 14 = 0

/-- The PPPoE length of a packet, if it has a session header, fits what
    follows the header. -/
def PppoeFits (pp : Option ℕ) (hdrOff : ℕ) (p : List Byte) : Prop :=
  ∀ off, pp = some off → word p off = p.length - 32 - hdrOff + 2

/-- One of the two IPv4 fragments: its total length, fragment word and
    PPPoE length. -/
structure V4Fragment (pp : Option ℕ) (hdrOff frag : ℕ) (p : List Byte) : Prop where
  total : word p (hdrOff + 34) = p.length - 32 - hdrOff
  frag : word p (hdrOff + 38) = frag
  pppoe : PppoeFits pp hdrOff p

/-- A packet as it lies in memory behind the descriptor the bridge wrote
    for it. -/
structure Received (u : Tun) (d hdrOff flag : ℕ) (p : List Byte) : Prop where
  bytes : u.mem.slice (d + 32) (p.length - 32) = p.drop 32
  isHdr : hdrOffOf (u.mem.word32 d) = hdrOff
  isFlag : u.mem.word32 d / 2 ^ 27 % 4 = flag
  nonzero : d ≠ 0

/-- Two buffers that do not overlap. -/
def Apart (d1 n1 d2 n2 : ℕ) : Prop := d1 + n1 ≤ d2 ∨ d2 + n2 ≤ d1

/-- Two fragments that arrive in order, in any two buffers, leave as one
    packet, the one given. -/
def Rejoins (flag hdrOff : ℕ) (p1 p2 whole : List Byte) : Prop :=
  ∀ u port d1 d2, Received u d1 hdrOff flag p1 → Received u d2 hdrOff flag p2 →
    Apart d1 p1.length d2 p2.length →
    ∃ u1 u2 p, tunnelReassemble u port p1.length d1 = (0, u1) ∧
      tunnelReassemble u1 port p2.length d2 = (0, u2) ∧ emitted u1 u2 = [p] ∧ p.drop 32 = whole

/-- What `frag_v4` has to do with a packet. -/
structure V4Splits (t : Tun) (port len desc mtu hdrOff : ℕ) (p1 p2 : List Byte) : Prop where
  sent : emitted t (tunnelFragment t port len desc).2 = [p1, p2]
  payload : p1.drop (hdrOff + 52) ++ p2.drop (hdrOff + 52) =
    t.mem.slice (desc + hdrOff + 52) (len - hdrOff - 52)
  fits : p1.length - 32 - hdrOff ≤ mtu
  first : V4Fragment (pppoeAt t.mem desc) hdrOff 0x2000 p1
  second : V4Fragment (pppoeAt t.mem desc) hdrOff ((p1.length - hdrOff - 52) / 8) p2
  aligned : (p1.length - hdrOff - 52) % 8 = 0
  rejoins : Rejoins 1 hdrOff p1 p2
    ((t.mem.put16 (desc + hdrOff + 38) 0).slice (desc + 32) (len - 32))

/-- A packet `tunnel_fragment` takes: the length in its descriptor, the
    MTU, the L2 header length and the IPv4 and IPv6 flags. -/
structure ToFragment (t : Tun) (len desc mtu hdrOff flag : ℕ) : Prop where
  isLen : t.mem.word32 desc % 2 ^ 16 + 32 = len
  isMtu : t.mem.word32 (desc + 16) / 2 ^ 16 = mtu
  isHdr : hdrOffOf (t.mem.word32 desc) = hdrOff
  isFlag : t.mem.word32 desc / 2 ^ 27 % 4 = flag
  long : hdrOff + mtu < len - 32

/-! ## Segments and patches -/

/-- The packets of the segments an operation adds to the log. -/
theorem emitted_append {l : List Egress} (h : t'.log = t.log ++ l) :
    emitted t t' = (packets l).map fun p => p.flatMap (·.bytes) := by
  unfold emitted
  rw [offered_append h]

/-- One packet of one segment and one of two. -/
theorem emitted_one_two {g1 g2 g3 : Seg} {o1 o2 o3 : Bool} {b1 b2 b3 : List Byte}
    (h : t'.log = t.log ++ [⟨g1, o1, b1⟩] ++ [⟨g2, o2, b2⟩] ++ [⟨g3, o3, b3⟩])
    (h1 : g1.last = true) (h2 : g2.last = false) (h3 : g3.last = true) :
    emitted t t' = [b1, b2 ++ b3] := by
  simp only [List.append_assoc] at h
  rw [emitted_append h]
  simp [packets, h1, h2, h3]

/-- One packet of two segments. -/
theorem emitted_two {g1 g2 : Seg} {o1 o2 : Bool} {b1 b2 : List Byte}
    (h : t'.log = t.log ++ [⟨g1, o1, b1⟩] ++ [⟨g2, o2, b2⟩])
    (h1 : g1.last = false) (h2 : g2.last = true) : emitted t t' = [b1 ++ b2] := by
  simp only [List.append_assoc] at h
  rw [emitted_append h]
  simp [packets, h1, h2]

/-- One packet of three segments. -/
theorem emitted_three {g1 g2 g3 : Seg} {o1 o2 o3 : Bool} {b1 b2 b3 : List Byte}
    (h : t'.log = t.log ++ [⟨g1, o1, b1⟩] ++ [⟨g2, o2, b2⟩] ++ [⟨g3, o3, b3⟩])
    (h1 : g1.last = false) (h2 : g2.last = false) (h3 : g3.last = true) :
    emitted t t' = [b1 ++ (b2 ++ b3)] := by
  simp only [List.append_assoc] at h
  rw [emitted_append h]
  simp [packets, h1, h2, h3]

/-- The memory with a PPPoE length patched, if there is one. -/
def patchSession (m : Memory) (desc : ℕ) (pp : Option ℕ) (v : ℕ) : Memory :=
  match pp with
  | some off => m.put16 (desc + off) v
  | none => m

theorem patchSession_be16 {pp : Option ℕ} {a v : ℕ}
    (h : ∀ off, pp = some off → a + 1 < desc + off ∨ desc + off + 1 < a) :
    (patchSession m desc pp v).be16 a = m.be16 a := by
  cases pp with
  | none => rfl
  | some off => exact be16_put16_of_ne m v (h off rfl)

theorem patchSession_of_ne {pp : Option ℕ} {a v : ℕ}
    (h : ∀ off, pp = some off → a ≠ desc + off ∧ a ≠ desc + off + 1) :
    patchSession m desc pp v a = m a := by
  cases pp with
  | none => rfl
  | some off => exact put16_of_ne m v (h off rfl)

theorem patchSession_self {off v : ℕ} (hv : v < 2 ^ 16) :
    (patchSession m desc (some off) v).be16 (desc + off) = v := be16_put16_self m _ hv

theorem pppoeAt_lt {off : ℕ} (h : pppoeAt m desc = some off) : off = 0x32 ∨ off = 0x36 := by
  unfold pppoeAt at h
  split_ifs at h
  · exact .inl (Option.some.inj h).symm
  · exact .inr (Option.some.inj h).symm

/-- The session header is found by the two words it is looked for at. -/
theorem pppoeAt_congr (h1 : m'.be16 (d1 + 44) = m.be16 (desc + 44))
    (h2 : m.be16 (desc + 44) = 0x8100 → m'.be16 (d1 + 48) = m.be16 (desc + 48)) :
    pppoeAt m' d1 = pppoeAt m desc := by
  unfold pppoeAt
  rw [h1]
  by_cases htag : m.be16 (desc + 44) = 0x8100
  · rw [h2 htag]
  · simp only [htag, false_and]

/-- A segment with a session patch last. -/
theorem patched_session (g : Seg) (ps : List Patch) (v : ℤ) {a n : ℕ} (hv : u16 v = n)
    (hps : g.patches = (ps.map some ++ [pppoeLenPatch m a v]).filterMap id) :
    g.patched m' = patchSession (ps.foldl (fun m p => m.put16 (g.addr + p.off) p.value) m')
      g.addr (pppoeAt m a) n := by
  unfold Seg.patched
  rw [hps, List.filterMap_append, List.foldl_append]
  have hmap : (ps.map some).filterMap id = ps := by
    rw [List.filterMap_map]
    exact List.filterMap_some
  rw [hmap]
  unfold pppoeLenPatch
  rcases hpp : pppoeAt m a with _ | off
  · rfl
  · have hoff : u16 (off : ℤ) % 2 ^ 14 = off := by
      rcases pppoeAt_lt hpp with rfl | rfl <;> rfl
    show Memory.put16 _ (g.addr + u16 (off : ℤ) % 2 ^ 14) (u16 v) = _
    rw [hoff, hv]
    rfl

/-! ## The IPv4 fragments -/

/-- A buffer with a new total length, fragment word and PPPoE length. -/
def v4Edit (m : Memory) (desc hdrOff : ℕ) (pp : Option ℕ) (total frag session : ℕ) : Memory :=
  patchSession ((m.put16 (desc + (hdrOff + 34)) total).put16 (desc + (hdrOff + 38)) frag) desc pp
    session

/-- A session header right before the IP header. -/
def EndsAt (pp : Option ℕ) (hdrOff : ℕ) : Prop := ∀ off, pp = some off → off + 4 = hdrOff + 32

section edit

variable {pp : Option ℕ} {total frag session : ℕ}

theorem v4Edit_total (hpp : EndsAt pp hdrOff) (h : total < 2 ^ 16) :
    (v4Edit m desc hdrOff pp total frag session).be16 (desc + (hdrOff + 34)) = total := by
  unfold v4Edit
  rw [patchSession_be16, be16_put16_of_ne _ _ (by omega), be16_put16_self _ _ h]
  intro off hoff
  have hend := hpp off hoff
  omega

theorem v4Edit_frag (hpp : EndsAt pp hdrOff) (h : frag < 2 ^ 16) :
    (v4Edit m desc hdrOff pp total frag session).be16 (desc + (hdrOff + 38)) = frag := by
  unfold v4Edit
  rw [patchSession_be16, be16_put16_self _ _ h]
  intro off hoff
  have hend := hpp off hoff
  omega

theorem v4Edit_session {off : ℕ} (hoff : pp = some off) (h : session < 2 ^ 16) :
    (v4Edit m desc hdrOff pp total frag session).be16 (desc + off) = session := by
  unfold v4Edit
  rw [hoff]
  exact patchSession_self h

theorem v4Edit_of_ne {i : ℕ} (htotal : i ≠ hdrOff + 34 ∧ i ≠ hdrOff + 35)
    (hfrag : i ≠ hdrOff + 38 ∧ i ≠ hdrOff + 39)
    (hsession : ∀ off, pp = some off → i ≠ off ∧ i ≠ off + 1) :
    (v4Edit m desc hdrOff pp total frag session) (desc + i) = m (desc + i) := by
  unfold v4Edit
  rw [patchSession_of_ne, put16_of_ne _ _ (by omega), put16_of_ne _ _ (by omega)]
  intro off hoff
  have hne := hsession off hoff
  omega

end edit

/-- The payload of the first fragment. -/
def v4Fp (mtu : ℕ) : ℕ := (mtu - 20) / 8 * 8

theorem v4Units (h : 28 ≤ mtu) (hm : mtu < 2 ^ 16) :
    u32 ((mtu : ℤ) - 20) / 8 % 2 ^ 16 = (mtu - 20) / 8 := by
  unfold u32
  omega

/-- What goes out for a segment with the three patches. -/
theorem v4Seg_bytes {g : Seg} {x y a b c : ℤ} {pp : Option ℕ} {total frag session start n : ℕ}
    (hg : g.patches = [patch x a, patch y b, pppoeLenPatch m g.addr c].filterMap id)
    (haddr : g.addr = desc) (hpp : pppoeAt m desc = pp) (hstart : g.addr + g.off = start)
    (hn : g.len = n) (hx : u16 x % 2 ^ 14 = hdrOff + 34) (hy : u16 y % 2 ^ 14 = hdrOff + 38)
    (ha : u16 a = total) (hb : u16 b = frag) (hc : u16 c = session) :
    g.bytes m = (v4Edit m desc hdrOff pp total frag session).slice start n := by
  unfold Seg.bytes
  rw [patched_session g [⟨u16 x % 2 ^ 14, u16 a⟩, ⟨u16 y % 2 ^ 14, u16 b⟩] c hc hg, hx, hy, ha, hb,
    hstart, hn, haddr, hpp]
  rfl

/-- What goes out for a segment with a PPPoE length only. -/
theorem sessionSeg_bytes {g : Seg} {c : ℤ} {a session start n : ℕ}
    (hg : g.patches = [pppoeLenPatch m a c].filterMap id) (haddr : g.addr = desc)
    (hstart : g.addr + g.off = start) (hn : g.len = n) (hc : u16 c = session) :
    g.bytes m = (patchSession m desc (pppoeAt m a) session).slice start n := by
  unfold Seg.bytes
  rw [patched_session g [] c hc hg, hstart, hn, haddr]
  rfl

/-- What goes out for a segment without patches. -/
theorem plainSeg_bytes {g : Seg} {start n : ℕ} (hg : g.patches = [])
    (hstart : g.addr + g.off = start)
    (hn : g.len = n) : g.bytes m = m.slice start n := by
  unfold Seg.bytes Seg.patched
  rw [hg, hstart, hn]
  rfl

/-- The packets `frag_v4` sends. -/
theorem fragV4_emitted (t : Tun) (port desc : ℕ) (hmtu : 28 ≤ mtu) (hm : mtu < 2 ^ 16)
    (hhdr : hdrOff < 128)
    (hlong : hdrOff + mtu < len - 32) (hlen : len < 2 ^ 16 + 32) :
    let m0 := t.mem.put32 desc (port % 32 * 16 + t.v4FragInfo)
    let pp := pppoeAt m0 desc
    let fp := v4Fp mtu
    emitted t (fragV4 t port len desc mtu hdrOff).2 =
      [(v4Edit m0 desc hdrOff pp (fp + 20) 0x2000 (fp + 22)).slice desc
          (u16 ((fp : ℤ) + hdrOff + 52)),
        (v4Edit m0 desc hdrOff pp (len - 32 - hdrOff - fp) (fp / 8)
          (len - 32 - hdrOff - fp + 2)).slice desc (hdrOff + 52) ++
            m0.slice (desc + u16 ((fp : ℤ) + hdrOff + 52)) (len - fp - hdrOff - 52)] := by
  intro m0 pp fp
  have hunits : u32 ((mtu : ℤ) - 20) / 8 % 2 ^ 16 * 8 = fp := by
    rw [v4Units hmtu hm]
    rfl
  have hfp : fp = (mtu - 20) / 8 * 8 := rfl
  -- one segment is the first packet, two are the second
  refine (emitted_one_two rfl rfl rfl rfl).trans ?_
  refine congrArg₂ (fun a b => [a, b]) ?_ (congrArg₂ (fun a b => a ++ b) ?_ ?_)
  · apply v4Seg_bytes rfl rfl rfl rfl
    · dsimp only
      rw [hunits]
    · unfold u16
      omega
    · unfold u16
      omega
    · exact u16_eq (by omega) (by omega)
    · rfl
    · exact u16_eq (by omega) (by omega)
  · apply v4Seg_bytes rfl rfl rfl rfl
    · dsimp only
      exact u16_eq (by omega) (by omega)
    · unfold u16
      omega
    · unfold u16
      omega
    · exact u16_eq (by omega) (by omega)
    · exact u16_eq (by omega) (by omega)
    · exact u16_eq (by omega) (by omega)
  · apply plainSeg_bytes rfl
    · dsimp only
      rw [hunits]
    · dsimp only
      exact u16_eq (by omega) (by omega)

/-! ## Reassembly of IPv4 -/

/-- The bytes of a received packet that was one slice. -/
theorem Received.byte {flag n : ℕ} (hr : Received u d1 hdrOff flag (m.slice desc n))
    {j : ℕ} (hj : 32 ≤ j) (hn : j < n) : u.mem (d1 + j) = m (desc + j) := by
  obtain ⟨k, rfl⟩ := Nat.exists_eq_add_of_le (show 32 ≤ n by omega)
  have hbytes := hr.bytes
  rw [length_slice, drop_slice, Nat.add_sub_cancel_left] at hbytes
  have heq := eq_of_slice_eq hbytes (show j - 32 < k by omega)
  rw [show d1 + 32 + (j - 32) = d1 + j by omega, show desc + 32 + (j - 32) = desc + j by omega]
    at heq
  exact heq

/-- The bytes of a received packet that was a header and something
    behind it. -/
theorem Received.split {flag n : ℕ} {l : List Byte}
    (hr : Received u d2 hdrOff flag (m.slice desc n ++ l)) (hn : 32 ≤ n) :
    (∀ j, 32 ≤ j → j < n → u.mem (d2 + j) = m (desc + j)) ∧
      u.mem.slice (d2 + n) l.length = l := by
  obtain ⟨k, rfl⟩ := Nat.exists_eq_add_of_le hn
  have hbytes := hr.bytes
  rw [List.length_append, length_slice, List.drop_append_of_le_length
    (by rw [length_slice]; omega), drop_slice, show 32 + k + l.length - 32 = k + l.length by omega,
    slice_add] at hbytes
  obtain ⟨hhead, htail⟩ := List.append_inj hbytes (by rw [length_slice, length_slice])
  constructor
  · intro j hj hjn
    have heq := eq_of_slice_eq hhead (show j - 32 < k by omega)
    rw [show d2 + 32 + (j - 32) = d2 + j by omega, show desc + 32 + (j - 32) = desc + j by omega]
      at heq
    exact heq
  · rw [← Nat.add_assoc]
    exact htail

theorem tunnelReassemble_v4 (hflag : u.mem.word32 desc / 2 ^ 27 % 4 = 1) :
    tunnelReassemble u port len desc =
      reasmV4 u port len desc (hdrOffOf (u.mem.word32 desc)) := by
  unfold tunnelReassemble
  simp only
  rw [if_pos (by omega)]

/-- The first fragment is held, its fragment word cleared. -/
theorem reasmV4_first (port len : ℕ) (hmore : u.mem.be16 (desc + (hdrOff + 38)) = 0x2000) :
    let res := reasmV4 u port len desc hdrOff
    res.1 = 0 ∧ res.2.v4Reasm = ⟨desc, len, hdrOff⟩ ∧
      res.2.mem = (u.mem.put32 desc (port % 32 * 16 + u.v4FragInfo)).put16
        (desc + (hdrOff + 38)) 0 := by
  intro res
  have haddr : desc + hdrOff + 32 + 6 = desc + (hdrOff + 38) := by omega
  have hword : (u.mem.put32 desc (port % 32 * 16 + u.v4FragInfo)).be16 (desc + (hdrOff + 38)) =
      0x2000 := by
    rw [be16_put32_of_ne _ _ (by omega)]
    exact hmore
  have hres : res = reasmV4 u port len desc hdrOff := rfl
  unfold reasmV4 at hres
  simp only [haddr, hword] at hres
  rw [if_pos (by decide)] at hres
  rw [hres]
  refine ⟨rfl, rfl, ?_⟩
  show Memory.put16 _ _ (_ &&& 0xDFFF) = _
  split_ifs
  · show Memory.put16 (u.mem.put32 desc (port % 32 * 16 + u.v4FragInfo)) _ (_ &&& 0xDFFF) = _
    congr 1
    show Memory.be16 (u.mem.put32 desc (port % 32 * 16 + u.v4FragInfo)) _ &&& 0xDFFF = _
    rw [hword]
    rfl
  · show Memory.put16 (u.mem.put32 desc (port % 32 * 16 + u.v4FragInfo)) _ (_ &&& 0xDFFF) = _
    congr 1
    show Memory.be16 (u.mem.put32 desc (port % 32 * 16 + u.v4FragInfo)) _ &&& 0xDFFF = _
    rw [hword]
    rfl

theorem and_0x2000_of_lt {v : ℕ} (h : v < 0x2000) : v &&& 0x2000 = 0 := by
  have hbit : Nat.testBit v 13 = false := Nat.testBit_lt_two_pow h
  apply Nat.eq_of_testBit_eq
  intro i
  rw [Nat.testBit_and, Nat.zero_testBit, show (0x2000 : ℕ) = 2 ^ 13 from rfl]
  rcases eq_or_ne i 13 with rfl | hne
  · rw [hbit]
    exact Bool.false_and _
  · rw [Nat.testBit_two_pow_of_ne hne.symm]
    exact Bool.and_false _

/-- The second fragment sends both. -/
theorem reasmV4_second (port : ℕ) {n1 fp n2 : ℕ} (hheld : u.v4Reasm = ⟨d1, n1, hdrOff⟩)
    (hd1 : d1 ≠ 0)
    (hn1 : n1 = fp + hdrOff + 52) (hfp : fp % 8 = 0) (hn1' : n1 < 2 ^ 16)
    (hn2 : hdrOff + 52 ≤ n2) (hhdr : hdrOff < 128)
    (hsum : fp + 20 + (n2 - hdrOff - 52) < 2 ^ 16) (hapart : Apart d1 n1 d2 n2)
    (hid : u.mem.be16 (d1 + (hdrOff + 36)) = u.mem.be16 (d2 + (hdrOff + 36)))
    (htotal : u.mem.be16 (d1 + (hdrOff + 34)) = fp + 20)
    (hihl : u.mem (d1 + (hdrOff + 32)) = 0x45)
    (hfrag : u.mem.be16 (d2 + (hdrOff + 38)) = fp / 8) :
    let res := reasmV4 u port n2 d2 hdrOff
    let rest := n2 - hdrOff - 52
    let mem := (u.mem.put32 d2 (port % 32 * 16 + u.v4FragInfo)).put16 (d1 + (hdrOff + 34))
      (fp + 20 + rest)
    res.1 = 0 ∧ emitted u res.2 =
      [(patchSession mem d1 (pppoeAt mem d2) ((fp + rest + 22) % 2 ^ 16)).slice d1 n1 ++
        mem.slice (d2 + (hdrOff + 52)) rest] := by
  intro res rest mem
  have h1 : d1 + hdrOff + 32 + 4 = d1 + (hdrOff + 36) := by omega
  have h2 : d1 + hdrOff + 32 + 2 = d1 + (hdrOff + 34) := by omega
  have h3 : d2 + hdrOff + 32 + 4 = d2 + (hdrOff + 36) := by omega
  have h4 : d2 + hdrOff + 32 + 6 = d2 + (hdrOff + 38) := by omega
  have h5 : d1 + hdrOff + 32 = d1 + (hdrOff + 32) := by omega
  -- the port goes to the first word of the descriptor only
  have hout (a : ℕ) (ha : a + 1 < d2 ∨ d2 + 4 ≤ a) :
      (u.mem.put32 d2 (port % 32 * 16 + u.v4FragInfo)).be16 a = u.mem.be16 a :=
    be16_put32_of_ne _ _ ha
  unfold Apart at hapart
  have hunits : fp / 8 < 0x2000 := by omega
  have hihl' : (u.mem.put32 d2 (port % 32 * 16 + u.v4FragInfo)) (d1 + (hdrOff + 32)) = 0x45 := by
    rw [put32_of_ne _ _ (by omega)]
    exact hihl
  have hnib : (0x45 : Byte).val * 4 &&& 0x3C = 20 := by decide
  -- the offset of the second is where the first ends
  have hoff : u16 ((fp / 8 : ℕ) * 8) = u32 ((fp + 20 : ℕ) - (20 : ℕ)) := by
    unfold u16 u32
    omega
  have hres : res = reasmV4 u port n2 d2 hdrOff := rfl
  unfold reasmV4 at hres
  simp only [hheld] at hres
  rw [h1, h2, h3, h4, h5, hout _ (by omega), hout _ (by omega), hout _ (by omega),
    hout _ (by omega), hid, htotal, hfrag, hihl', hnib, and_0x2000_of_lt hunits] at hres
  rw [if_neg (by decide), if_neg hd1, if_neg (fun h => h rfl), if_neg (not_not.2 hoff)] at hres
  have hnew : u16 (((fp + 20 : ℕ) : ℤ) + n2 - 52 - hdrOff) = fp + 20 + rest := by
    exact u16_eq (by omega) (by omega)
  rw [hnew] at hres
  rw [hres]
  refine ⟨rfl, ?_⟩
  refine (emitted_two rfl rfl rfl).trans ?_
  refine congrArg (fun l => [l]) (congrArg₂ (fun a b => a ++ b) ?_ ?_)
  · apply sessionSeg_bytes rfl rfl rfl
    · exact u16_natCast_of_lt hn1'
    · unfold u16
      omega
  · apply plainSeg_bytes rfl
    · dsimp only
      unfold u16
      omega
    · dsimp only
      exact u16_eq (by omega) (by omega)

/-! ## There and back -/

section v4

variable {fp rest : ℕ}

/-- The two fragments, as slices of edited buffers. -/
def v4First (m : Memory) (desc hdrOff fp : ℕ) : List Byte :=
  (v4Edit m desc hdrOff (pppoeAt m desc) (fp + 20) 0x2000 (fp + 22)).slice desc (fp + hdrOff + 52)

def v4Second (m : Memory) (desc hdrOff fp rest : ℕ) : List Byte :=
  (v4Edit m desc hdrOff (pppoeAt m desc) (20 + rest) (fp / 8) (22 + rest)).slice desc
    (hdrOff + 52) ++ m.slice (desc + (fp + hdrOff + 52)) rest

theorem length_v4First : (v4First m desc hdrOff fp).length = fp + hdrOff + 52 :=
  length_slice _ _ _

theorem length_v4Second : (v4Second m desc hdrOff fp rest).length = hdrOff + 52 + rest := by
  unfold v4Second
  rw [List.length_append, length_slice, length_slice]

/-- A packet with a payload of two parts. -/
structure V4Parts (m : Memory) (desc hdrOff fp rest : ℕ) : Prop where
  ends : EndsAt (pppoeAt m desc) hdrOff
  short : 14 ≤ hdrOff ∧ hdrOff < 128
  tagged : m.be16 (desc + 44) = 0x8100 → 18 ≤ hdrOff
  session : ∀ off, pppoeAt m desc = some off → m.be16 (desc + off) = fp + rest + 22
  ihl : m (desc + (hdrOff + 32)) = 0x45
  total : m.be16 (desc + (hdrOff + 34)) = fp + rest + 20
  aligned : fp % 8 = 0
  small : fp + hdrOff + 52 < 2 ^ 16
  long : fp + rest + hdrOff + 20 < 2 ^ 16

theorem v4First_fragment (hp : V4Parts m desc hdrOff fp rest) :
    V4Fragment (pppoeAt m desc) hdrOff 0x2000 (v4First m desc hdrOff fp) := by
  have hsmall := hp.small
  constructor
  · rw [length_v4First, v4First, word_slice _ _ (by omega), v4Edit_total hp.ends (by omega)]
    omega
  · rw [v4First, word_slice _ _ (by omega)]
    exact v4Edit_frag hp.ends (by decide)
  · intro off hoff
    have hend := hp.ends off hoff
    rw [length_v4First, v4First, word_slice _ _ (by omega), v4Edit_session hoff (by omega)]
    omega

theorem v4Second_fragment (hp : V4Parts m desc hdrOff fp rest) :
    V4Fragment (pppoeAt m desc) hdrOff (fp / 8) (v4Second m desc hdrOff fp rest) := by
  have hsmall := hp.small
  have htotal := be16_lt m (desc + (hdrOff + 34))
  rw [hp.total] at htotal
  constructor
  · rw [length_v4Second, v4Second, word_append_left (by rw [length_slice]; omega),
      word_slice _ _ (by omega), v4Edit_total hp.ends (by omega)]
    omega
  · rw [v4Second, word_append_left (by rw [length_slice]; omega), word_slice _ _ (by omega)]
    exact v4Edit_frag hp.ends (by omega)
  · intro off hoff
    have hend := hp.ends off hoff
    have hsession := be16_lt m (desc + off)
    rw [hp.session off hoff] at hsession
    rw [length_v4Second, v4Second, word_append_left (by rw [length_slice]; omega),
      word_slice _ _ (by omega), v4Edit_session hoff (by omega)]
    omega

theorem v4_payload (hp : V4Parts m desc hdrOff fp rest) :
    (v4First m desc hdrOff fp).drop (hdrOff + 52) ++
      (v4Second m desc hdrOff fp rest).drop (hdrOff + 52) =
        m.slice (desc + (hdrOff + 52)) (fp + rest) := by
  have hsplit : fp + hdrOff + 52 = hdrOff + 52 + fp := by omega
  unfold v4First v4Second
  rw [hsplit, drop_slice, List.drop_append_of_le_length (Nat.le_of_eq (length_slice _ _ _).symm),
    List.drop_of_length_le (Nat.le_of_eq (length_slice _ _ _)), List.nil_append, slice_add,
    Nat.add_assoc desc]
  congr 1
  apply slice_congr
  intro i _
  rw [Nat.add_assoc]
  apply v4Edit_of_ne (by omega) (by omega)
  intro off hoff
  have hend := hp.ends off hoff
  omega

/-- A session header stays where it is as long as nothing but its length
    and what is behind the L2 header changes. -/
theorem pppoeAt_kept {a : ℕ} {w : Memory} (hlong : 14 ≤ hdrOff)
    (htagged : m.be16 (desc + 44) = 0x8100 → 18 ≤ hdrOff)
    (hw : ∀ j, 32 ≤ j → j < hdrOff + 34 →
      (∀ off, pppoeAt m desc = some off → j ≠ off ∧ j ≠ off + 1) → w (a + j) = m (desc + j)) :
    pppoeAt w a = pppoeAt m desc := by
  have hkeep (j : ℕ) (hj : 32 ≤ j) (hlt : j + 1 < hdrOff + 34)
      (hoff : ∀ off, pppoeAt m desc = some off → j + 1 < off) :
      w.be16 (a + j) = m.be16 (desc + j) := by
    have hside (i : ℕ) (hi : i = j ∨ i = j + 1) : w (a + i) = m (desc + i) := by
      apply hw i (by omega) (by omega)
      intro off ho
      have := hoff off ho
      omega
    apply be16_congr
    · exact hside j (.inl rfl)
    · rw [Nat.add_assoc, Nat.add_assoc]
      exact hside (j + 1) (.inr rfl)
  have hfar (off : ℕ) (ho : pppoeAt m desc = some off) : 0x32 ≤ off := by
    rcases pppoeAt_lt ho with rfl | rfl <;> decide
  apply pppoeAt_congr
  · apply hkeep 44 (by omega) (by omega)
    intro off ho
    have := hfar off ho
    omega
  · intro htag
    have hroom := htagged htag
    apply hkeep 48 (by omega) (by omega)
    intro off ho
    have := hfar off ho
    omega

/-- The edits leave the session header where it is. -/
theorem pppoeAt_of_received (total frag session : ℕ) {a : ℕ} {w : Memory}
    (hp : V4Parts m desc hdrOff fp rest)
    (hw : ∀ j, 32 ≤ j → j < hdrOff + 52 →
      w (a + j) = v4Edit m desc hdrOff (pppoeAt m desc) total frag session (desc + j)) :
    pppoeAt w a = pppoeAt m desc := by
  apply pppoeAt_kept hp.short.1 hp.tagged
  intro j hj hlt hoff
  rw [hw j hj (by omega)]
  exact v4Edit_of_ne (by omega) (by omega) hoff

theorem word32_congr {a b : ℕ} (h : ∀ i < 4, m' (b + i) = m (a + i)) :
    m'.word32 b = m.word32 a := by
  have h0 := h 0 (by decide)
  have h1 := h 1 (by decide)
  have h2 := h 2 (by decide)
  have h3 := h 3 (by decide)
  unfold word32
  rw [show m' b = m a from h0, h1, h2, h3]

/-- The PPPoE length's place behind the descriptor, if there is one. -/
def sessionAt (pp : Option ℕ) : List ℕ := (pp.map fun off => off - 32).toList

theorem mem_sessionAt {pp : Option ℕ} {p : ℕ} (h : p ∈ sessionAt pp) :
    ∃ off, pp = some off ∧ p = off - 32 := by
  unfold sessionAt at h
  rw [Option.mem_toList, Option.map_eq_some_iff] at h
  obtain ⟨off, hoff, heq⟩ := h
  exact ⟨off, hoff, heq.symm⟩

/-- The held fragment with its new lengths is the packet again. -/
theorem v4_header_back {w : Memory} {total session : ℕ} (hp : V4Parts m desc hdrOff fp rest)
    (htotal : total = fp + rest + 20) (hsession : session = (fp + rest + 22) % 2 ^ 16)
    (hfrag : w.be16 (d1 + (hdrOff + 38)) = 0)
    (hw : ∀ j, 32 ≤ j → j < fp + hdrOff + 52 → j ≠ hdrOff + 38 ∧ j ≠ hdrOff + 39 →
      w (d1 + j) = v4Edit m desc hdrOff (pppoeAt m desc) (fp + 20) 0x2000 (fp + 22) (desc + j)) :
    (patchSession (w.put16 (d1 + (hdrOff + 34)) total) d1 (pppoeAt m desc) session).slice (d1 + 32)
        (fp + hdrOff + 20) =
      (m.put16 (desc + (hdrOff + 38)) 0).slice (desc + 32) (fp + hdrOff + 20) := by
  have hlt := be16_lt m (desc + (hdrOff + 34))
  rw [hp.total] at hlt
  -- all bytes but the length words and the offset, and those as words
  apply slice_eq_of_words ((hdrOff + 2) :: (hdrOff + 6) :: sessionAt (pppoeAt m desc))
  · intro p hpmem
    rcases List.mem_cons.1 hpmem with rfl | hpmem
    · rw [show d1 + 32 + (hdrOff + 2) = d1 + (hdrOff + 34) by omega,
        show desc + 32 + (hdrOff + 2) = desc + (hdrOff + 34) by omega, patchSession_be16,
        be16_put16_self _ _ (by omega), be16_put16_of_ne _ _ (by omega), hp.total, htotal]
      intro off hoff
      have hend := hp.ends off hoff
      omega
    · rcases List.mem_cons.1 hpmem with rfl | hpmem
      · rw [show d1 + 32 + (hdrOff + 6) = d1 + (hdrOff + 38) by omega,
          show desc + 32 + (hdrOff + 6) = desc + (hdrOff + 38) by omega, patchSession_be16,
          be16_put16_of_ne _ _ (by omega), be16_put16_self _ _ (by decide), hfrag]
        intro off hoff
        have hend := hp.ends off hoff
        omega
      · obtain ⟨off, hoff, rfl⟩ := mem_sessionAt hpmem
        have hend := hp.ends off hoff
        have hshort := hp.short
        have hval := be16_lt m (desc + off)
        rw [hp.session off hoff] at hval
        rw [show d1 + 32 + (off - 32) = d1 + off by omega,
          show desc + 32 + (off - 32) = desc + off by omega, hoff, patchSession_self (by omega),
          be16_put16_of_ne _ _ (by omega), hp.session off hoff, hsession,
          Nat.mod_eq_of_lt hval]
  · intro i hi haway
    have h1 := haway (hdrOff + 2) List.mem_cons_self
    have h2 := haway (hdrOff + 6) (List.mem_cons_of_mem _ List.mem_cons_self)
    have h3 (off : ℕ) (hoff : pppoeAt m desc = some off) : i + 32 ≠ off ∧ i + 32 ≠ off + 1 := by
      have hend := hp.ends off hoff
      have hshort := hp.short
      have hmem : off - 32 ∈ sessionAt (pppoeAt m desc) := by
        rw [hoff]
        exact List.mem_cons_self
      have hne := haway (off - 32) (List.mem_cons_of_mem _ (List.mem_cons_of_mem _ hmem))
      omega
    rw [patchSession_of_ne, put16_of_ne _ _ (by omega), put16_of_ne _ _ (by omega),
      show d1 + 32 + i = d1 + (i + 32) by omega, show desc + 32 + i = desc + (i + 32) by omega,
      hw (i + 32) (by omega) (by omega) (by omega)]
    · apply v4Edit_of_ne (by omega) (by omega)
      intro off hoff
      exact h3 off hoff
    · intro off hoff
      have hne := h3 off hoff
      omega

/-- With the first fragment held, the second sends the packet as it
    was. -/
theorem v4_second_back (port : ℕ) {w : Tun} (hp : V4Parts m desc hdrOff fp rest)
    (hheld : w.v4Reasm = ⟨d1, fp + hdrOff + 52, hdrOff⟩) (hd1 : d1 ≠ 0)
    (hapart : Apart d1 (fp + hdrOff + 52) d2 (hdrOff + 52 + rest))
    (hzero : w.mem.be16 (d1 + (hdrOff + 38)) = 0)
    (hbyte1 : ∀ j, 32 ≤ j → j < fp + hdrOff + 52 → j ≠ hdrOff + 38 ∧ j ≠ hdrOff + 39 →
      w.mem (d1 + j) = v4Edit m desc hdrOff (pppoeAt m desc) (fp + 20) 0x2000 (fp + 22) (desc + j))
    (hbyte2 : ∀ j, 32 ≤ j → j < hdrOff + 52 → w.mem (d2 + j) =
      v4Edit m desc hdrOff (pppoeAt m desc) (20 + rest) (fp / 8) (22 + rest) (desc + j))
    (hpay : w.mem.slice (d2 + (hdrOff + 52)) rest = m.slice (desc + (fp + hdrOff + 52)) rest) :
    let res := reasmV4 w port (hdrOff + 52 + rest) d2 hdrOff
    res.1 = 0 ∧ ∃ p, emitted w res.2 = [p] ∧
      p.drop 32 =
        (m.put16 (desc + (hdrOff + 38)) 0).slice (desc + 32) (fp + hdrOff + 20 + rest) := by
  intro res
  have hshort := hp.short
  have hsmall := hp.small
  have hlong := hp.long
  have hword1 (j : ℕ) (hj : 32 ≤ j) (hn : j + 1 < hdrOff + 38) : w.mem.be16 (d1 + j) =
      (v4Edit m desc hdrOff (pppoeAt m desc) (fp + 20) 0x2000 (fp + 22)).be16 (desc + j) := by
    apply be16_congr (hbyte1 j hj (by omega) (by omega))
    rw [Nat.add_assoc, Nat.add_assoc]
    exact hbyte1 (j + 1) (by omega) (by omega) (by omega)
  have hword2 (j : ℕ) (hj : 32 ≤ j) (hn : j + 1 < hdrOff + 52) : w.mem.be16 (d2 + j) =
      (v4Edit m desc hdrOff (pppoeAt m desc) (20 + rest) (fp / 8) (22 + rest)).be16 (desc + j) := by
    apply be16_congr (hbyte2 j hj (by omega))
    rw [Nat.add_assoc, Nat.add_assoc]
    exact hbyte2 (j + 1) (by omega) (by omega)
  have hkeep (total frag session j : ℕ) (hj : j = hdrOff + 32 ∨ j = hdrOff + 36 ∨ j = hdrOff + 37) :
      v4Edit m desc hdrOff (pppoeAt m desc) total frag session (desc + j) = m (desc + j) := by
    apply v4Edit_of_ne (by omega) (by omega)
    intro off hoff
    have hend := hp.ends off hoff
    omega
  have hidword (total frag session : ℕ) :
      (v4Edit m desc hdrOff (pppoeAt m desc) total frag session).be16 (desc + (hdrOff + 36)) =
        m.be16 (desc + (hdrOff + 36)) := by
    apply be16_congr (hkeep _ _ _ _ (by omega))
    rw [Nat.add_assoc]
    exact hkeep _ _ _ _ (by omega)
  -- the second fragment is the continuation of the first
  have hid : w.mem.be16 (d1 + (hdrOff + 36)) = w.mem.be16 (d2 + (hdrOff + 36)) := by
    rw [hword1 _ (by omega) (by omega), hword2 _ (by omega) (by omega), hidword, hidword]
  have htotal : w.mem.be16 (d1 + (hdrOff + 34)) = fp + 20 := by
    rw [hword1 _ (by omega) (by omega)]
    exact v4Edit_total hp.ends (by omega)
  have hihl : w.mem (d1 + (hdrOff + 32)) = 0x45 := by
    rw [hbyte1 _ (by omega) (by omega) (by omega), hkeep _ _ _ _ (.inl rfl)]
    exact hp.ihl
  have hfrag : w.mem.be16 (d2 + (hdrOff + 38)) = fp / 8 := by
    rw [hword2 _ (by omega) (by omega)]
    exact v4Edit_frag hp.ends (by omega)
  have hrest : hdrOff + 52 + rest - hdrOff - 52 = rest := by omega
  obtain ⟨hret, hem⟩ := reasmV4_second port hheld hd1 rfl hp.aligned hsmall
    (show hdrOff + 52 ≤ hdrOff + 52 + rest by omega) (by omega) (by omega)
    hapart hid htotal hihl hfrag
  rw [hrest] at hem
  refine ⟨hret, _, hem, ?_⟩
  unfold Apart at hapart
  set info := port % 32 * 16 + w.v4FragInfo
  -- the session header is found in the second fragment
  have hpp : pppoeAt ((w.mem.put32 d2 info).put16 (d1 + (hdrOff + 34)) (fp + 20 + rest)) d2 =
      pppoeAt m desc := by
    apply pppoeAt_of_received (20 + rest) (fp / 8) (22 + rest) hp
    intro j hj hn
    rw [put16_of_ne _ _ (by omega), put32_of_ne _ _ (by omega)]
    exact hbyte2 j hj hn
  rw [hpp, show fp + hdrOff + 52 = 32 + (fp + hdrOff + 20) by omega,
    List.drop_append_of_le_length (by rw [length_slice]; omega), drop_slice,
    slice_add (m.put16 (desc + (hdrOff + 38)) 0) (desc + 32) (fp + hdrOff + 20) rest]
  congr 1
  · apply v4_header_back hp (by omega) rfl
    · rw [be16_put32_of_ne _ _ (by omega)]
      exact hzero
    · intro j hj hn hne
      rw [put32_of_ne _ _ (by omega)]
      exact hbyte1 j hj hn hne
  · have hkept : ((w.mem.put32 d2 info).put16 (d1 + (hdrOff + 34)) (fp + 20 + rest)).slice
        (d2 + (hdrOff + 52)) rest = w.mem.slice (d2 + (hdrOff + 52)) rest := by
      apply slice_congr
      intro i hi
      rw [put16_of_ne _ _ (by omega), put32_of_ne _ _ (by omega)]
    rw [hkept, hpay, show desc + 32 + (fp + hdrOff + 20) = desc + (fp + hdrOff + 52) by omega]
    apply slice_congr
    intro i _
    rw [put16_of_ne _ _ (by omega)]

/-- The fragments that arrive in order leave as the packet they were. -/
theorem v4_rejoins (hp : V4Parts m desc hdrOff fp rest) :
    Rejoins 1 hdrOff (v4First m desc hdrOff fp) (v4Second m desc hdrOff fp rest)
      ((m.put16 (desc + (hdrOff + 38)) 0).slice (desc + 32) (fp + hdrOff + 20 + rest)) := by
  intro u port d1 d2 hr1 hr2 hapart
  have hb1 (j : ℕ) := Received.byte hr1 (j := j)
  obtain ⟨hb2, hpay⟩ := Received.split hr2 (by omega)
  rw [length_slice] at hpay
  rw [length_v4First, length_v4Second] at hapart ⊢
  have hshort := hp.short
  have hbetween := hapart
  unfold Apart at hbetween
  -- the first fragment is held
  have hmore : u.mem.be16 (d1 + (hdrOff + 38)) = 0x2000 := by
    have hfr : (v4Edit m desc hdrOff (pppoeAt m desc) (fp + 20) 0x2000 (fp + 22)).be16
        (desc + (hdrOff + 38)) = 0x2000 := v4Edit_frag hp.ends (by decide)
    rw [← hfr]
    apply be16_congr (hb1 _ (by omega) (by omega))
    rw [Nat.add_assoc, Nat.add_assoc]
    exact hb1 _ (by omega) (by omega)
  obtain ⟨hret, hheld, hmem⟩ := reasmV4_first port (fp + hdrOff + 52) hmore
  have hre1 : tunnelReassemble u port (fp + hdrOff + 52) d1 =
      (0, (reasmV4 u port (fp + hdrOff + 52) d1 hdrOff).2) := by
    rw [tunnelReassemble_v4 hr1.isFlag, hr1.isHdr]
    exact Prod.ext hret rfl
  rw [hre1]
  generalize (reasmV4 u port (fp + hdrOff + 52) d1 hdrOff).2 = u1 at hheld hmem ⊢
  have hin2 (j : ℕ) (hj : j < hdrOff + 52 + rest) : u1.mem (d2 + j) = u.mem (d2 + j) := by
    rw [hmem, put16_of_ne _ _ (by omega), put32_of_ne _ _ (by omega)]
  have hw2 : u1.mem.word32 d2 = u.mem.word32 d2 := by
    apply word32_congr
    intro i hi
    exact hin2 i (by omega)
  obtain ⟨hret2, p, hem, hwhole⟩ := v4_second_back port hp hheld hr1.nonzero hapart
    (by rw [hmem]; exact be16_put16_self _ _ (by decide))
    (by
      intro j hj hn hne
      rw [hmem, put16_of_ne _ _ (by omega), put32_of_ne _ _ (by omega)]
      exact hb1 j hj hn)
    (by
      intro j hj hn
      rw [hin2 j (by omega)]
      exact hb2 j hj hn)
    (by
      rw [← hpay]
      apply slice_congr
      intro i hi
      rw [Nat.add_assoc]
      exact hin2 _ (by omega))
  refine ⟨u1, _, p, rfl, ?_, hem, hwhole⟩
  rw [tunnelReassemble_v4 (by rw [hw2]; exact hr2.isFlag), hw2, hr2.isHdr]
  exact Prod.ext hret2 rfl

end v4

theorem word32_lt (m : Memory) (a : ℕ) : m.word32 a < 2 ^ 32 := by
  unfold word32
  have h0 := (m a).isLt
  have h1 := (m (a + 1)).isLt
  have h2 := (m (a + 2)).isLt
  have h3 := (m (a + 3)).isLt
  omega

/-- What `tunnel_fragment` has read of a packet it takes. -/
theorem ToFragment.bounds {flag : ℕ} (hto : ToFragment t len desc mtu hdrOff flag) :
    len < 2 ^ 16 + 32 ∧ mtu < 2 ^ 16 ∧ ¬t.mem.word32 desc % 2 ^ 16 ≤ hdrOff + mtu := by
  have hlen := hto.isLen
  have hmtu := hto.isMtu
  have hlong := hto.long
  have hlt := word32_lt t.mem (desc + 16)
  omega

theorem tunnelFragment_v4 (hto : ToFragment t len desc mtu hdrOff 1) :
    tunnelFragment t port len desc = fragV4 t port len desc mtu hdrOff := by
  obtain ⟨-, -, hlong⟩ := hto.bounds
  have hflag := hto.isFlag
  unfold tunnelFragment
  simp only
  rw [hto.isMtu, hto.isHdr, if_neg hlong, if_pos (by omega)]

theorem pppoeAt_put32 (v : ℕ) : pppoeAt (m.put32 desc v) desc = pppoeAt m desc :=
  pppoeAt_congr (be16_put32_of_ne _ _ (by omega)) fun _ => be16_put32_of_ne _ _ (by omega)

/-- A packet with its descriptor written is in two parts. -/
theorem V4Packet.parts (hpkt : V4Packet t.mem desc len hdrOff)
    (hto : ToFragment t len desc mtu hdrOff 1) (hmtu : 28 ≤ mtu)
    (hsmall : v4Fp mtu + hdrOff + 52 < 2 ^ 16) (v : ℕ) :
    V4Parts (t.mem.put32 desc v) desc hdrOff (v4Fp mtu) (len - v4Fp mtu - hdrOff - 52) := by
  have hlong := hto.long
  obtain ⟨hlen, -, -⟩ := hto.bounds
  have hfp : v4Fp mtu = (mtu - 20) / 8 * 8 := rfl
  have htotal := hpkt.total
  have hsess := hpkt.l2.session
  constructor
  · intro off hoff
    rw [pppoeAt_put32] at hoff
    exact (hsess off hoff).1
  · exact ⟨hpkt.l2.long, hpkt.l2.short⟩
  · rw [be16_put32_of_ne _ _ (by omega)]
    exact hpkt.l2.tagged
  · intro off hoff
    rw [pppoeAt_put32] at hoff
    obtain ⟨hend, hval⟩ := hsess off hoff
    have hshort := hpkt.l2.long
    rw [be16_put32_of_ne _ _ (by omega), hval]
    omega
  · rw [put32_of_ne _ _ (by omega), ← Nat.add_assoc]
    exact hpkt.ihl
  · rw [be16_put32_of_ne _ _ (by omega), ← Nat.add_assoc]
    omega
  · omega
  · exact hsmall
  · omega

/-- `frag_v4` splits a packet as it should, and the two fragments rejoin,
    exactly when the first fragment's length fits the 16 bits the bridge
    has for it. -/
theorem v4_splits (port : ℕ) (hpkt : V4Packet t.mem desc len hdrOff)
    (hto : ToFragment t len desc mtu hdrOff 1) (hmtu : 28 ≤ mtu) :
    (∃ p1 p2, V4Splits t port len desc mtu hdrOff p1 p2) ↔ v4Fp mtu + hdrOff + 52 < 2 ^ 16 := by
  obtain ⟨hlen, hmtu', -⟩ := hto.bounds
  have hlong := hto.long
  have hshort := hpkt.l2.short
  have hem := fragV4_emitted t port desc hmtu hmtu' hshort hlong hlen
  rw [← tunnelFragment_v4 hto] at hem
  have hfp : v4Fp mtu = (mtu - 20) / 8 * 8 := rfl
  constructor
  · rintro ⟨p1, p2, hs⟩
    by_contra hbig
    -- the first segment's length wraps: it does not even hold the headers
    have hsent := hs.sent
    rw [hem] at hsent
    injection hsent with h1 h2
    injection h2 with h2 _
    have hpay := congrArg List.length hs.payload
    rw [← h1, ← h2, List.length_append, List.length_drop, List.length_drop, List.length_append,
      length_slice, length_slice, length_slice, length_slice] at hpay
    have hu : u16 ((v4Fp mtu : ℤ) + hdrOff + 52) = v4Fp mtu + hdrOff + 52 - 65536 := by
      unfold u16
      omega
    rw [hu] at hpay
    omega
  · intro hsmall
    have hp := hpkt.parts hto hmtu hsmall (port % 32 * 16 + t.v4FragInfo)
    set m0 := t.mem.put32 desc (port % 32 * 16 + t.v4FragInfo) with hm0
    set fp := v4Fp mtu
    set rest := len - fp - hdrOff - 52
    have hpp : pppoeAt m0 desc = pppoeAt t.mem desc := pppoeAt_put32 _
    have hu : u16 ((fp : ℤ) + hdrOff + 52) = fp + hdrOff + 52 := by
      exact u16_eq (by omega) (by omega)
    have hkeep (a n : ℕ) (ha : desc + 4 ≤ a) : m0.slice a n = t.mem.slice a n := by
      apply slice_congr
      intro i _
      exact put32_of_ne _ _ (by omega)
    refine ⟨v4First m0 desc hdrOff fp, v4Second m0 desc hdrOff fp rest, ?_, ?_, ?_, ?_, ?_, ?_, ?_⟩
    · rw [hem, hu, show len - 32 - hdrOff - fp = 20 + rest by omega,
        show 20 + rest + 2 = 22 + rest by omega]
      rfl
    · rw [v4_payload hp, show fp + rest = len - hdrOff - 52 by omega, Nat.add_assoc desc]
      exact hkeep _ _ (by omega)
    · rw [length_v4First]
      omega
    · rw [← hpp]
      exact v4First_fragment hp
    · rw [← hpp, length_v4First, show fp + hdrOff + 52 - hdrOff - 52 = fp by omega]
      exact v4Second_fragment hp
    · rw [length_v4First]
      have := hp.aligned
      omega
    · have hback := v4_rejoins hp
      have hwhole :
          (m0.put16 (desc + (hdrOff + 38)) 0).slice (desc + 32) (fp + hdrOff + 20 + rest) =
          (t.mem.put16 (desc + hdrOff + 38) 0).slice (desc + 32) (len - 32) := by
        rw [show fp + hdrOff + 20 + rest = len - 32 by omega, Nat.add_assoc desc hdrOff]
        apply slice_congr
        intro i _
        unfold put16 put8 Function.update
        rw [hm0, put32_of_ne _ _ (by omega)]
      rw [hwhole] at hback
      exact hback

end ClankerNPU.Tunnel
