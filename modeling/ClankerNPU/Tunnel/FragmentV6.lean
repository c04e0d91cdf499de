import ClankerNPU.Tunnel.Fragment

/-! # Fragment and reassemble, IPv6

    The fragment header is a segment of its own between the headers and
    the payload; reassembly leaves it out again. -/

namespace ClankerNPU.Tunnel

open Memory

variable {t t' u : Tun} {m m' : Memory} {port len desc mtu hdrOff d1 d2 fs rest next ident : ℕ}

/-- An IPv6 packet behind its descriptor and L2 header. -/
structure V6Packet (m : Memory) (desc len hdrOff : ℕ) : Prop where
  l2 : L2Header m desc hdrOff (m.be16 (desc + hdrOff + 36) + 40)
  total : m.be16 (desc + hdrOff + 36) + 40 + hdrOff + 32 = len

/-- One of the two IPv6 fragments: its payload length, next headers,
    fragment word, identification and PPPoE length. -/
structure V6Fragment (pp : Option ℕ) (hdrOff next frag ident : ℕ) (p : List Byte) : Prop where
  plen : word p (hdrOff + 36) = p.length - 32 - hdrOff - 40
  fragNext : p.getD (hdrOff + 38) 0 = 44
  next : word p (hdrOff + 72) = next * 256
  frag : word p (hdrOff + 74) = frag
  idHigh : word p (hdrOff + 76) = ident / 2 ^ 16
  idLow : word p (hdrOff + 78) = ident % 2 ^ 16
  pppoe : PppoeFits pp hdrOff p

/-- What `frag_v6` has to do with a packet. -/
structure V6Splits (t : Tun) (port len desc mtu hdrOff : ℕ) (p1 p2 : List Byte) : Prop where
  sent : emitted t (tunnelFragment t port len desc).2 = [p1, p2]
  payload : p1.drop (hdrOff + 80) ++ p2.drop (hdrOff + 80) =
    t.mem.slice (desc + hdrOff + 72) (len - hdrOff - 72)
  fits : p1.length - 32 - hdrOff ≤ mtu
  first : V6Fragment (pppoeAt t.mem desc) hdrOff (t.mem (desc + hdrOff + 38)).val 1
    (u32 (t.ipv6FragId + 1)) p1
  second : V6Fragment (pppoeAt t.mem desc) hdrOff (t.mem (desc + hdrOff + 38)).val
    (p1.length - hdrOff - 80) (u32 (t.ipv6FragId + 1)) p2
  aligned : (p1.length - hdrOff - 80) % 8 = 0
  rejoins : Rejoins 2 hdrOff p1 p2 (t.mem.slice (desc + 32) (len - 32))

/-! ## The segments -/

/-- Two packets of three segments. -/
theorem emitted_three_three {g1 g2 g3 g4 g5 g6 : Seg} {o1 o2 o3 o4 o5 o6 : Bool}
    {b1 b2 b3 b4 b5 b6 : List Byte}
    (h : t'.log = t.log ++ [⟨g1, o1, b1⟩] ++ [⟨g2, o2, b2⟩] ++ [⟨g3, o3, b3⟩] ++ [⟨g4, o4, b4⟩] ++
      [⟨g5, o5, b5⟩] ++ [⟨g6, o6, b6⟩])
    (h1 : g1.last = false) (h2 : g2.last = false) (h3 : g3.last = true) (h4 : g4.last = false)
    (h5 : g5.last = false) (h6 : g6.last = true) :
    emitted t t' = [b1 ++ (b2 ++ b3), b4 ++ (b5 ++ b6)] := by
  simp only [List.append_assoc] at h
  rw [emitted_append h]
  simp [packets, h1, h2, h3, h4, h5, h6]

/-- A buffer with a new payload length and PPPoE length. -/
def v6Edit (m : Memory) (desc hdrOff : ℕ) (pp : Option ℕ) (plen session : ℕ) : Memory :=
  patchSession (m.put16 (desc + (hdrOff + 36)) plen) desc pp session

section edit

variable {pp : Option ℕ} {plen session : ℕ}

theorem v6Edit_plen (hpp : EndsAt pp hdrOff) (h : plen < 2 ^ 16) :
    (v6Edit m desc hdrOff pp plen session).be16 (desc + (hdrOff + 36)) = plen := by
  unfold v6Edit
  rw [patchSession_be16, be16_put16_self _ _ h]
  intro off hoff
  have hend := hpp off hoff
  omega

theorem v6Edit_session {off : ℕ} (hoff : pp = some off) (h : session < 2 ^ 16) :
    (v6Edit m desc hdrOff pp plen session).be16 (desc + off) = session := by
  unfold v6Edit
  rw [hoff]
  exact patchSession_self h

theorem v6Edit_of_ne {i : ℕ} (hplen : i ≠ hdrOff + 36 ∧ i ≠ hdrOff + 37)
    (hsession : ∀ off, pp = some off → i ≠ off ∧ i ≠ off + 1) :
    (v6Edit m desc hdrOff pp plen session) (desc + i) = m (desc + i) := by
  unfold v6Edit
  rw [patchSession_of_ne, put16_of_ne _ _ (by omega)]
  intro off hoff
  have hne := hsession off hoff
  omega

end edit

/-- The fragment header. -/
def fragHeader (next frag ident : ℕ) : List Byte :=
  [byte next, byte 0, byte (frag / 256), byte frag, byte (ident / 2 ^ 24),
    byte (ident / 2 ^ 16), byte (ident / 256), byte ident]

theorem length_fragHeader : (fragHeader next rest ident).length = 8 := rfl

theorem byte_congr {v w : ℕ} (h : v % 256 = w % 256) : byte v = byte w := Fin.ext h

theorem slice_put16 (m : Memory) (a v : ℕ) :
    (m.put16 a v).slice a 2 = [byte (v / 256), byte v] := by
  show [m.put16 a v (a + 0), m.put16 a v (a + 1)] = _
  rw [put16_lo, Nat.add_zero, put16_hi]

/-- Four words written one after the other. -/
theorem slice_four (m : Memory) (a v0 v1 v2 v3 : ℕ) :
    ((((m.put16 (a + 0) v0).put16 (a + 2) v1).put16 (a + 4) v2).put16 (a + 6) v3).slice a 8 =
      [byte (v0 / 256), byte v0, byte (v1 / 256), byte v1, byte (v2 / 256), byte v2,
        byte (v3 / 256), byte v3] := by
  have hkeep (m : Memory) {b : ℕ} (v : ℕ) {k n : ℕ} (h : a + k + n ≤ b ∨ b + 2 ≤ a + k) :
      (m.put16 b v).slice (a + k) n = m.slice (a + k) n := by
    apply slice_congr
    intro i hi
    exact put16_of_ne _ _ (by omega)
  rw [show (8 : ℕ) = 2 + (2 + (2 + 2)) from rfl, slice_add, slice_add, slice_add]
  have h0 := hkeep (((m.put16 (a + 0) v0).put16 (a + 2) v1).put16 (a + 4) v2) v3
    (show a + 0 + 2 ≤ a + 6 ∨ _ from .inl (by omega))
  have h0' := hkeep ((m.put16 (a + 0) v0).put16 (a + 2) v1) v2
    (show a + 0 + 2 ≤ a + 4 ∨ _ from .inl (by omega))
  have h0'' := hkeep (m.put16 (a + 0) v0) v1 (show a + 0 + 2 ≤ a + 2 ∨ _ from .inl (by omega))
  have h2 := hkeep (((m.put16 (a + 0) v0).put16 (a + 2) v1).put16 (a + 4) v2) v3
    (show a + 2 + 2 ≤ a + 6 ∨ _ from .inl (by omega))
  have h2' := hkeep ((m.put16 (a + 0) v0).put16 (a + 2) v1) v2
    (show a + 2 + 2 ≤ a + 4 ∨ _ from .inl (by omega))
  have h4 := hkeep (((m.put16 (a + 0) v0).put16 (a + 2) v1).put16 (a + 4) v2) v3
    (show a + 4 + 2 ≤ a + 6 ∨ _ from .inl (by omega))
  rw [h0'.trans h0'', slice_put16] at h0
  rw [h2', slice_put16] at h2
  rw [slice_put16] at h4
  have h0s : (((((m.put16 (a + 0) v0).put16 (a + 2) v1).put16 (a + 4) v2).put16 (a + 6) v3)).slice
      a 2 = [byte (v0 / 256), byte v0] := h0
  rw [h0s, h2, show a + 2 + 2 = a + 4 from rfl, h4, show a + 4 + 2 = a + 6 from rfl, slice_put16]
  rfl

/-- What goes out for the scratch segment. -/
theorem fragSeg_bytes {g : Seg} {frag : ℕ} {z0 z2 z4 z6 : ℤ}
    (hg : g.patches = [patch 0 z0, patch 2 z2, patch 4 z4, patch 6 z6].filterMap id)
    (hoff : g.off = 0) (hlen : g.len = 8) (h0 : z0 = next * 256) (h2 : z2 = frag)
    (h4 : z4 = (ident / 2 ^ 16 : ℕ)) (h6 : z6 = ident) (hid : ident < 2 ^ 32) :
    g.bytes m = fragHeader next frag ident := by
  have hbytes : g.bytes m = ((((m.put16 (g.addr + 0) (u16 z0)).put16 (g.addr + 2) (u16 z2)).put16
      (g.addr + 4) (u16 z4)).put16 (g.addr + 6) (u16 z6)).slice g.addr 8 := by
    unfold Seg.bytes Seg.patched
    rw [hg, hoff, hlen]
    rfl
  rw [hbytes, slice_four]
  unfold fragHeader u16
  congr 1
  · apply byte_congr
    omega
  congr 1
  · apply byte_congr
    omega
  congr 1
  · apply byte_congr
    omega
  congr 1
  · apply byte_congr
    omega
  congr 1
  · apply byte_congr
    omega
  congr 1
  · apply byte_congr
    omega
  congr 1
  · apply byte_congr
    omega
  congr 1
  apply byte_congr
  omega


/-! ## The IPv6 fragments -/

/-- The payload of the first fragment. -/
def v6Fs (mtu : ℕ) : ℕ := (mtu - 48) / 8 * 8

theorem v6Units (h : 56 ≤ mtu) (hm : mtu < 2 ^ 16) :
    u32 ((mtu : ℤ) - 48) / 8 % 2 ^ 16 = (mtu - 48) / 8 := by
  unfold u32
  omega

/-- What goes out for a header segment. -/
theorem v6Seg_bytes {g : Seg} {x a c : ℤ} {pp : Option ℕ} {plen session n : ℕ}
    (hg : g.patches = [patch x a, pppoeLenPatch m g.addr c].filterMap id)
    (haddr : g.addr = desc) (hpp : pppoeAt m desc = pp) (hoff : g.off = 0) (hn : g.len = n)
    (hx : u16 x % 2 ^ 14 = hdrOff + 36) (ha : u16 a = plen) (hc : u16 c = session) :
    g.bytes m = (v6Edit m desc hdrOff pp plen session).slice desc n := by
  unfold Seg.bytes
  rw [patched_session g [⟨u16 x % 2 ^ 14, u16 a⟩] c hc hg, hx, ha, hoff, hn, haddr, hpp]
  rfl

/-- The first fragment: headers, fragment header and payload. -/
def v6First (m : Memory) (desc hdrOff next ident fs : ℕ) : List Byte :=
  (v6Edit m desc hdrOff (pppoeAt m desc) (fs + 8) (fs + 50)).slice desc (hdrOff + 72) ++
    (fragHeader next 1 ident ++ m.slice (desc + (hdrOff + 72)) fs)

/-- The second fragment, its payload taken from `start` on. -/
def v6Second (m : Memory) (desc hdrOff next ident fs start rest : ℕ) : List Byte :=
  (v6Edit m desc hdrOff (pppoeAt m desc) (rest + 8) (rest + 50)).slice desc (hdrOff + 72) ++
    (fragHeader next fs ident ++ m.slice (desc + start) rest)

/-- The packets `frag_v6` sends. -/
theorem fragV6_emitted (t : Tun) (port desc : ℕ) (hmtu : 56 ≤ mtu) (hm : mtu < 2 ^ 16)
    (hshort : 14 ≤ hdrOff) (hhdr : hdrOff < 128) (hlong : hdrOff + mtu < len - 32)
    (hlen : len < 2 ^ 16 + 32) :
    let m0 := t.mem.put32 desc (port % 32 * 16 + 0x200)
    let m1 := m0.put8 (desc + hdrOff + 38) 44
    let next := (m0 (desc + hdrOff + 38)).val
    let ident := u32 (t.ipv6FragId + 1)
    let fs := v6Fs mtu
    emitted t (fragV6 t port len desc mtu hdrOff).2 =
      [v6First m1 desc hdrOff next ident fs,
        v6Second m1 desc hdrOff next ident fs (u16 ((hdrOff : ℤ) + 72 + fs))
          (len - hdrOff - fs - 72)] := by
  intro m0 m1 next ident fs
  have hunits : u32 ((mtu : ℤ) - 48) / 8 % 2 ^ 16 * 8 = fs := by
    rw [v6Units hmtu hm]
    rfl
  have hfs : fs = (mtu - 48) / 8 * 8 := rfl
  have hident : ident < 2 ^ 32 := by
    show u32 (t.ipv6FragId + 1) < 2 ^ 32
    unfold u32
    omega
  -- for both packets: the headers, the fragment header, the payload
  refine (emitted_three_three rfl rfl rfl rfl rfl rfl rfl).trans ?_
  refine congrArg₂ (fun a b => [a, b])
    (congrArg₂ (fun a b => a ++ b) ?_ (congrArg₂ (fun a b => a ++ b) ?_ ?_))
    (congrArg₂ (fun a b => a ++ b) ?_ (congrArg₂ (fun a b => a ++ b) ?_ ?_))
  · apply v6Seg_bytes rfl rfl rfl rfl
    · dsimp only
      exact u16_eq (by omega) (by omega)
    · unfold u16
      omega
    · exact u16_eq (by omega) (by omega)
    · exact u16_eq (by omega) (by omega)
  · exact fragSeg_bytes rfl rfl rfl rfl rfl rfl rfl hident
  · apply plainSeg_bytes rfl
    · dsimp only
      unfold u16
      omega
    · dsimp only
      exact u16_eq (by omega) (by omega)
  · apply v6Seg_bytes rfl rfl rfl rfl
    · dsimp only
      exact u16_eq (by omega) (by omega)
    · unfold u16
      omega
    · exact u16_eq (by omega) (by omega)
    · exact u16_eq (by omega) (by omega)
  · apply fragSeg_bytes rfl rfl rfl rfl _ rfl rfl hident
    rw [hunits]
  · apply plainSeg_bytes rfl
    · dsimp only
      rw [hunits]
    · dsimp only
      exact u16_eq (by omega) (by omega)

/-! ## Reassembly of IPv6 -/

theorem tunnelReassemble_v6 (hflag : u.mem.word32 desc / 2 ^ 27 % 4 = 2) :
    tunnelReassemble u port len desc =
      reasmV6 u port len desc (hdrOffOf (u.mem.word32 desc)) := by
  unfold tunnelReassemble
  simp only
  rw [if_neg (by omega), if_pos (by omega)]

/-- The first fragment is held, its next header put back. -/
theorem reasmV6_first (port len : ℕ) (hnext : u.mem (desc + (hdrOff + 38)) = 44)
    (hmore : u.mem.be16 (desc + (hdrOff + 74)) = 1) :
    let res := reasmV6 u port len desc hdrOff
    res.1 = 0 ∧ res.2.v6Reasm = ⟨desc, len, hdrOff⟩ ∧
      res.2.mem = (u.mem.put32 desc (port % 32 * 16 + 0x200)).put8 (desc + (hdrOff + 38))
        (u.mem (desc + (hdrOff + 72))).val := by
  intro res
  have h1 : desc + hdrOff + 38 = desc + (hdrOff + 38) := by omega
  have h2 : desc + (hdrOff + 72) + 2 = desc + (hdrOff + 74) := by omega
  have h3 : desc + hdrOff + 72 = desc + (hdrOff + 72) := by omega
  have hbyte (a : ℕ) (ha : desc + 4 ≤ a) :
      u.mem.put32 desc (port % 32 * 16 + 0x200) a = u.mem a := put32_of_ne _ _ (by omega)
  have hres : res = reasmV6 u port len desc hdrOff := rfl
  unfold reasmV6 at hres
  simp only [h1, h2, h3] at hres
  rw [hbyte _ (by omega), be16_put32_of_ne _ _ (by omega), hnext, hmore, if_neg (fun h => h rfl),
    if_pos (by decide)] at hres
  rw [hres]
  refine ⟨rfl, rfl, ?_⟩
  rw [← hbyte (desc + (hdrOff + 72)) (by omega)]
  by_cases hold : u.v6Reasm.desc ≠ 0
  · rw [if_pos hold]
    rfl
  · rw [if_neg hold]

/-- The second fragment sends both. -/
theorem reasmV6_second (port : ℕ) {fs : ℕ} (hheld : u.v6Reasm = ⟨d1, hdrOff + 80 + fs, hdrOff⟩)
    (hd1 : d1 ≠ 0) (hfs : fs % 8 = 0) (hhdr : hdrOff < 128) (hsum : fs + rest < 2 ^ 16)
    (hfs' : fs + 8 < 2 ^ 16) (hapart : Apart d1 (hdrOff + 80 + fs) d2 (hdrOff + 80 + rest))
    (hnext : u.mem (d2 + (hdrOff + 38)) = 44)
    (hhigh : u.mem.be16 (d1 + (hdrOff + 76)) = u.mem.be16 (d2 + (hdrOff + 76)))
    (hlow : u.mem.be16 (d1 + (hdrOff + 78)) = u.mem.be16 (d2 + (hdrOff + 78)))
    (hplen : u.mem.be16 (d1 + (hdrOff + 36)) = fs + 8)
    (hfrag : u.mem.be16 (d2 + (hdrOff + 74)) = fs) :
    let res := reasmV6 u port (hdrOff + 80 + rest) d2 hdrOff
    let mem := (u.mem.put32 d2 (port % 32 * 16 + 0x200)).put16 (d1 + (hdrOff + 36)) (fs + rest)
    res.1 = 0 ∧ emitted u res.2 =
      [(patchSession mem d1 (pppoeAt mem d2) ((fs + rest + 42) % 2 ^ 16)).slice d1 (hdrOff + 72) ++
        (mem.slice (d1 + (hdrOff + 80)) fs ++ mem.slice (d2 + (hdrOff + 80)) rest)] := by
  intro res mem
  have h1 : d2 + hdrOff + 38 = d2 + (hdrOff + 38) := by omega
  have h2 : d2 + hdrOff + 72 + 2 = d2 + (hdrOff + 74) := by omega
  have h3 : d2 + hdrOff + 72 + 4 = d2 + (hdrOff + 76) := by omega
  have h4 : d2 + hdrOff + 72 + 6 = d2 + (hdrOff + 78) := by omega
  have h5 : d1 + hdrOff + 76 = d1 + (hdrOff + 76) := by omega
  have h6 : d1 + hdrOff + 78 = d1 + (hdrOff + 78) := by omega
  have h7 : d1 + hdrOff + 36 = d1 + (hdrOff + 36) := by omega
  unfold Apart at hapart
  -- the port goes to the first word of the descriptor only
  have hout (a : ℕ) (ha : a + 1 < d2 ∨ d2 + 4 ≤ a) :
      (u.mem.put32 d2 (port % 32 * 16 + 0x200)).be16 a = u.mem.be16 a :=
    be16_put32_of_ne _ _ ha
  have hin : u.mem.put32 d2 (port % 32 * 16 + 0x200) (d2 + (hdrOff + 38)) = 44 := by
    rw [put32_of_ne _ _ (by omega)]
    exact hnext
  have hres : res = reasmV6 u port (hdrOff + 80 + rest) d2 hdrOff := rfl
  unfold reasmV6 at hres
  simp only [hheld, h1, h2, h3, h4, h5, h6, h7] at hres
  rw [hin, hout _ (by omega), hout _ (by omega), hout _ (by omega), hout _ (by omega),
    hout _ (by omega), hout _ (by omega), hhigh, hlow, hplen, hfrag] at hres
  have heven : ¬fs % 2 = 1 := by omega
  -- the held length and the offset agree, as do the two idents
  have hmatch : ¬fs / 8 * 8 ≠ u32 (((fs + 8 : ℕ) : ℤ) - 8) := by
    unfold u32
    omega
  have hsame : ¬(u.mem.be16 (d2 + (hdrOff + 76)) ≠ u.mem.be16 (d2 + (hdrOff + 76)) ∨
      u.mem.be16 (d2 + (hdrOff + 78)) ≠ u.mem.be16 (d2 + (hdrOff + 78))) := by
    rintro (h | h) <;> exact h rfl
  rw [if_neg (fun h => h rfl), if_neg heven, if_neg hd1, if_neg hsame, if_neg hmatch] at hres
  have hnew : u16 (((fs + 8 : ℕ) : ℤ) + (hdrOff + 80 + rest : ℕ) - 88 - hdrOff) = fs + rest := by
    exact u16_eq (by omega) (by omega)
  rw [hnew] at hres
  rw [hres]
  refine ⟨rfl, ?_⟩
  refine (emitted_three rfl rfl rfl rfl).trans ?_
  refine congrArg (fun l => [l])
    (congrArg₂ (fun a b => a ++ b) ?_ (congrArg₂ (fun a b => a ++ b) ?_ ?_))
  · apply sessionSeg_bytes rfl rfl rfl
    · dsimp only
      exact u16_eq (by omega) (by omega)
    · unfold u16
      omega
  · apply plainSeg_bytes rfl
    · dsimp only
      unfold u16
      omega
    · dsimp only
      exact u16_eq (by omega) (by omega)
  · apply plainSeg_bytes rfl
    · dsimp only
      unfold u16
      omega
    · dsimp only
      exact u16_eq (by omega) (by omega)

/-! ## There and back -/

theorem length_v6First : (v6First m desc hdrOff next ident fs).length = hdrOff + 80 + fs := by
  unfold v6First
  rw [List.length_append, List.length_append, length_slice, length_slice, length_fragHeader]
  omega

/-- A packet with a payload of two parts, its next header set to that of
    a fragment. -/
structure V6Parts (m : Memory) (desc hdrOff fs rest : ℕ) : Prop where
  ends : EndsAt (pppoeAt m desc) hdrOff
  short : 14 ≤ hdrOff ∧ hdrOff < 128
  tagged : m.be16 (desc + 44) = 0x8100 → 18 ≤ hdrOff
  session : ∀ off, pppoeAt m desc = some off → m.be16 (desc + off) = fs + rest + 42
  plen : m.be16 (desc + (hdrOff + 36)) = fs + rest
  fragNext : m (desc + (hdrOff + 38)) = 44
  aligned : fs % 8 = 0
  long : 0 < fs ∧ 8 < rest
  room : rest + 50 < 2 ^ 16 ∧ fs + 50 < 2 ^ 16

section v6

variable {pp : Option ℕ} {plen session frag : ℕ} {l : List Byte}

/-- A list that starts with the headers and a fragment header. -/
def v6Head (m : Memory) (desc hdrOff plen session next frag ident : ℕ) (l : List Byte) :
    List Byte :=
  (v6Edit m desc hdrOff (pppoeAt m desc) plen session).slice desc (hdrOff + 72) ++
    (fragHeader next frag ident ++ l)

theorem word_v6Head_header (i : ℕ) (hi : i + 1 < 8) :
    word (v6Head m desc hdrOff plen session next frag ident l) (hdrOff + 72 + i) =
      word (fragHeader next frag ident) i := by
  unfold v6Head
  rw [word_append_right (by rw [length_slice]; omega), length_slice,
    show hdrOff + 72 + i - (hdrOff + 72) = i by omega, word_append_left hi]

/-- The fields of a fragment. -/
theorem v6Head_fragment (hp : V6Parts m desc hdrOff fs rest) (hnext : next < 256)
    (hfrag : frag < 2 ^ 16) (hident : ident < 2 ^ 32) (hplen : plen = l.length + 8)
    (hsession : session = l.length + 50) (hroom : session < 2 ^ 16) :
    V6Fragment (pppoeAt m desc) hdrOff next frag ident
      (v6Head m desc hdrOff plen session next frag ident l) := by
  have hlen : (v6Head m desc hdrOff plen session next frag ident l).length =
      hdrOff + 80 + l.length := by
    unfold v6Head
    rw [List.length_append, List.length_append, length_slice, length_fragHeader]
    omega
  have hin : (v6Edit m desc hdrOff (pppoeAt m desc) plen session) (desc + (hdrOff + 38)) = 44 := by
    rw [v6Edit_of_ne (by omega)]
    · exact hp.fragNext
    · intro off hoff
      have hend := hp.ends off hoff
      omega
  constructor
  · rw [hlen, v6Head, word_append_left (by rw [length_slice]; omega), word_slice _ _ (by omega),
      v6Edit_plen hp.ends (by omega)]
    omega
  · unfold v6Head
    rw [List.getD_eq_getElem?_getD, List.getElem?_append_left (by rw [length_slice]; omega),
      getElem?_slice _ _ (by omega), hin]
    rfl
  · -- the fields of the fragment header, word by word
    rw [show hdrOff + 72 = hdrOff + 72 + 0 from rfl, word_v6Head_header _ (by decide)]
    unfold fragHeader word byte
    show next % 256 * 256 + 0 % 256 = next * 256
    omega
  · rw [show hdrOff + 74 = hdrOff + 72 + 2 from rfl, word_v6Head_header _ (by decide)]
    unfold fragHeader word byte
    show frag / 256 % 256 * 256 + frag % 256 = frag
    omega
  · rw [show hdrOff + 76 = hdrOff + 72 + 4 from rfl, word_v6Head_header _ (by decide)]
    unfold fragHeader word byte
    show ident / 2 ^ 24 % 256 * 256 + ident / 2 ^ 16 % 256 = ident / 2 ^ 16
    omega
  · rw [show hdrOff + 78 = hdrOff + 72 + 6 from rfl, word_v6Head_header _ (by decide)]
    unfold fragHeader word byte
    show ident / 256 % 256 * 256 + ident % 256 = ident % 2 ^ 16
    omega
  · intro off hoff
    have hend := hp.ends off hoff
    rw [hlen, v6Head, word_append_left (by rw [length_slice]; omega), word_slice _ _ (by omega),
      v6Edit_session hoff hroom]
    omega

theorem drop_v6Head :
    (v6Head m desc hdrOff plen session next frag ident l).drop (hdrOff + 80) = l := by
  unfold v6Head
  rw [← List.append_assoc]
  apply List.drop_left'
  rw [List.length_append, length_slice, length_fragHeader]

end v6

/-- What arrives of a fragment. -/
structure V6Arrived (w m : Memory) (d desc hdrOff plen session next frag ident : ℕ)
    (l : List Byte) : Prop where
  head : ∀ j, 32 ≤ j → j < hdrOff + 72 →
    w (d + j) = v6Edit m desc hdrOff (pppoeAt m desc) plen session (desc + j)
  header : w.slice (d + (hdrOff + 72)) 8 = fragHeader next frag ident
  payload : w.slice (d + (hdrOff + 80)) l.length = l

theorem Received.v6 {flag plen session frag : ℕ} {l : List Byte}
    (hr : Received u d1 hdrOff flag (v6Head m desc hdrOff plen session next frag ident l)) :
    V6Arrived u.mem m d1 desc hdrOff plen session next frag ident l := by
  obtain ⟨hhead, hbehind⟩ := Received.split hr (by omega)
  rw [List.length_append, length_fragHeader, slice_add] at hbehind
  obtain ⟨hheader, hpayload⟩ := List.append_inj hbehind
    (by rw [length_slice, length_fragHeader])
  rw [Nat.add_assoc, show hdrOff + 72 + 8 = hdrOff + 80 by omega] at hpayload
  exact ⟨hhead, hheader, hpayload⟩

/-- A fragment is the same wherever the memory is the same. -/
theorem V6Arrived.of_eq {w w' : Memory} {plen session frag : ℕ} {l : List Byte}
    (ha : V6Arrived w m d1 desc hdrOff plen session next frag ident l)
    (h : ∀ j, 32 ≤ j → j < hdrOff + 80 + l.length → w' (d1 + j) = w (d1 + j)) :
    V6Arrived w' m d1 desc hdrOff plen session next frag ident l := by
  constructor
  · intro j hj hlt
    rw [h j hj (by omega)]
    exact ha.head j hj hlt
  · rw [← ha.header]
    apply slice_congr
    intro i hi
    rw [Nat.add_assoc]
    exact h _ (by omega) (by omega)
  · rw [show w'.slice (d1 + (hdrOff + 80)) l.length = w.slice (d1 + (hdrOff + 80)) l.length from ?_]
    · exact ha.payload
    · apply slice_congr
      intro i hi
      rw [Nat.add_assoc]
      exact h _ (by omega) (by omega)

/-- A word of the fragment header. -/
theorem V6Arrived.word {w : Memory} {plen session frag : ℕ} {l : List Byte}
    (ha : V6Arrived w m d1 desc hdrOff plen session next frag ident l) {i : ℕ} (hi : i + 1 < 8) :
    w.be16 (d1 + (hdrOff + 72 + i)) = Memory.word (fragHeader next frag ident) i := by
  rw [← ha.header, word_slice _ _ hi, Nat.add_assoc d1]

/-- The headers of the held fragment with their new lengths are the
    packet's again. -/
theorem v6_header_back {w : Memory} {plen session : ℕ} (hp : V6Parts m desc hdrOff fs rest)
    (hplen : plen = fs + rest) (hsession : session = (fs + rest + 42) % 2 ^ 16)
    (hnext : w (d1 + (hdrOff + 38)) = byte next)
    (hw : ∀ j, 32 ≤ j → j < hdrOff + 72 → j ≠ hdrOff + 38 →
      w (d1 + j) = v6Edit m desc hdrOff (pppoeAt m desc) (fs + 8) (fs + 50) (desc + j)) :
    (patchSession (w.put16 (d1 + (hdrOff + 36)) plen) d1 (pppoeAt m desc) session).slice (d1 + 32)
        (hdrOff + 40) =
      (m.put8 (desc + (hdrOff + 38)) next).slice (desc + 32) (hdrOff + 40) := by
  have hlt := be16_lt m (desc + (hdrOff + 36))
  have hshort := hp.short
  rw [hp.plen] at hlt
  have hkeep (a : ℕ) (ha : a + 1 < hdrOff + 38) :
      (m.put8 (desc + (hdrOff + 38)) next).be16 (desc + a) = m.be16 (desc + a) := by
    apply be16_congr
    · exact put8_of_ne _ _ (by omega)
    · exact put8_of_ne _ _ (by omega)
  -- all bytes but the length words, and those as words
  apply slice_eq_of_words ((hdrOff + 4) :: sessionAt (pppoeAt m desc))
  · intro p hpmem
    rcases List.mem_cons.1 hpmem with rfl | hpmem
    · rw [show d1 + 32 + (hdrOff + 4) = d1 + (hdrOff + 36) by omega,
        show desc + 32 + (hdrOff + 4) = desc + (hdrOff + 36) by omega, patchSession_be16,
        be16_put16_self _ _ (by omega), hkeep _ (by omega), hp.plen, hplen]
      intro off hoff
      have hend := hp.ends off hoff
      omega
    · obtain ⟨off, hoff, rfl⟩ := mem_sessionAt hpmem
      have hend := hp.ends off hoff
      have hval := be16_lt m (desc + off)
      rw [hp.session off hoff] at hval
      rw [show d1 + 32 + (off - 32) = d1 + off by omega,
        show desc + 32 + (off - 32) = desc + off by omega, hoff, patchSession_self (by omega),
        hkeep _ (by omega), hp.session off hoff, hsession, Nat.mod_eq_of_lt hval]
  · intro i hi haway
    have h1 := haway (hdrOff + 4) List.mem_cons_self
    have h2 (off : ℕ) (hoff : pppoeAt m desc = some off) : i + 32 ≠ off ∧ i + 32 ≠ off + 1 := by
      have hend := hp.ends off hoff
      have hmem : off - 32 ∈ sessionAt (pppoeAt m desc) := by
        rw [hoff]
        exact List.mem_cons_self
      have hne := haway (off - 32) (List.mem_cons_of_mem _ hmem)
      omega
    rw [patchSession_of_ne, put16_of_ne _ _ (by omega),
      show d1 + 32 + i = d1 + (i + 32) by omega, show desc + 32 + i = desc + (i + 32) by omega]
    · by_cases hnh : i + 32 = hdrOff + 38
      · rw [hnh, hnext, put8_self]
      · rw [hw (i + 32) (by omega) (by omega) hnh, put8_of_ne _ _ (by omega)]
        exact v6Edit_of_ne (by omega) h2
    · intro off hoff
      have hne := h2 off hoff
      omega

/-- With the first fragment held, the second sends the packet as it
    was. -/
theorem v6_second_back (port : ℕ) {w : Tun} {l : List Byte} (hp : V6Parts m desc hdrOff fs rest)
    (hheld : w.v6Reasm = ⟨d1, hdrOff + 80 + fs, hdrOff⟩) (hd1 : d1 ≠ 0)
    (hapart : Apart d1 (hdrOff + 80 + fs) d2 (hdrOff + 80 + rest)) (hl : l.length = rest)
    (hback : w.mem (d1 + (hdrOff + 38)) = byte next)
    (hhead : ∀ j, 32 ≤ j → j < hdrOff + 72 → j ≠ hdrOff + 38 →
      w.mem (d1 + j) = v6Edit m desc hdrOff (pppoeAt m desc) (fs + 8) (fs + 50) (desc + j))
    (hheader : w.mem.slice (d1 + (hdrOff + 72)) 8 = fragHeader next 1 ident)
    (hpay : w.mem.slice (d1 + (hdrOff + 80)) fs = m.slice (desc + (hdrOff + 72)) fs)
    (h2 : V6Arrived w.mem m d2 desc hdrOff (rest + 8) (rest + 50) next fs ident l) :
    let res := reasmV6 w port (hdrOff + 80 + rest) d2 hdrOff
    res.1 = 0 ∧ ∃ p, emitted w res.2 = [p] ∧
      p.drop 32 =
        (m.put8 (desc + (hdrOff + 38)) next).slice (desc + 32) (hdrOff + 40 + fs) ++ l := by
  intro res
  have hshort := hp.short
  have hroom := hp.room
  have hlt := be16_lt m (desc + (hdrOff + 36))
  rw [hp.plen] at hlt
  have hword1 (i : ℕ) (hi : i + 1 < 8) : w.mem.be16 (d1 + (hdrOff + 72 + i)) =
      word (fragHeader next 1 ident) i := by
    rw [← hheader, word_slice _ _ hi, Nat.add_assoc d1]
  have hedge (plen session : ℕ) :
      v6Edit m desc hdrOff (pppoeAt m desc) plen session (desc + (hdrOff + 38)) = 44 := by
    rw [v6Edit_of_ne (by omega)]
    · exact hp.fragNext
    · intro off hoff
      have hend := hp.ends off hoff
      omega
  -- the second fragment is the continuation of the first
  have hnext : w.mem (d2 + (hdrOff + 38)) = 44 := by
    rw [h2.head _ (by omega) (by omega), hedge]
  have hhigh : w.mem.be16 (d1 + (hdrOff + 76)) = w.mem.be16 (d2 + (hdrOff + 76)) := by
    have hw1 := hword1 4 (by decide)
    have hw2 := h2.word (i := 4) (by decide)
    exact hw1.trans hw2.symm
  have hlow : w.mem.be16 (d1 + (hdrOff + 78)) = w.mem.be16 (d2 + (hdrOff + 78)) := by
    have hw1 := hword1 6 (by decide)
    have hw2 := h2.word (i := 6) (by decide)
    exact hw1.trans hw2.symm
  have hplen : w.mem.be16 (d1 + (hdrOff + 36)) = fs + 8 := by
    have hedit : (v6Edit m desc hdrOff (pppoeAt m desc) (fs + 8) (fs + 50)).be16
        (desc + (hdrOff + 36)) = fs + 8 := v6Edit_plen hp.ends (by omega)
    rw [← hedit]
    apply be16_congr (hhead _ (by omega) (by omega) (by omega))
    rw [Nat.add_assoc, Nat.add_assoc]
    exact hhead _ (by omega) (by omega) (by omega)
  have hfrag : w.mem.be16 (d2 + (hdrOff + 74)) = fs := by
    have hw2 := h2.word (i := 2) (by decide)
    rw [show hdrOff + 74 = hdrOff + 72 + 2 from rfl, hw2]
    unfold fragHeader word byte
    show fs / 256 % 256 * 256 + fs % 256 = fs
    omega
  obtain ⟨hret, hem⟩ := reasmV6_second port hheld hd1 hp.aligned hshort.2 hlt (by omega) hapart
    hnext hhigh hlow hplen hfrag
  refine ⟨hret, _, hem, ?_⟩
  unfold Apart at hapart
  set info := port % 32 * 16 + 0x200
  -- the session header is found in the second fragment
  have hpp : pppoeAt ((w.mem.put32 d2 info).put16 (d1 + (hdrOff + 36)) (fs + rest)) d2 =
      pppoeAt m desc := by
    apply pppoeAt_kept hshort.1 hp.tagged
    intro j hj hn hoff
    rw [put16_of_ne _ _ (by omega), put32_of_ne _ _ (by omega), h2.head j hj (by omega)]
    exact v6Edit_of_ne (by omega) hoff
  have hkept (a n : ℕ) (ha : d1 + (hdrOff + 80) ≤ a ∧ a + n ≤ d1 + (hdrOff + 80 + fs) ∨
      d2 + (hdrOff + 80) ≤ a ∧ a + n ≤ d2 + (hdrOff + 80 + rest)) :
      ((w.mem.put32 d2 info).put16 (d1 + (hdrOff + 36)) (fs + rest)).slice a n =
        w.mem.slice a n := by
    apply slice_congr
    intro i hi
    rw [put16_of_ne _ _ (by omega), put32_of_ne _ _ (by omega)]
  rw [hpp, show hdrOff + 72 = 32 + (hdrOff + 40) by omega,
    List.drop_append_of_le_length (by rw [length_slice]; omega), drop_slice,
    slice_add (m.put8 (desc + (hdrOff + 38)) next) (desc + 32) (hdrOff + 40) fs, List.append_assoc]
  congr 1
  · apply v6_header_back hp rfl rfl
    · rw [put32_of_ne _ _ (by omega)]
      exact hback
    · intro j hj hn hne
      rw [put32_of_ne _ _ (by omega)]
      exact hhead j hj hn hne
  · congr 1
    · rw [hkept _ _ (by omega), hpay,
        show desc + 32 + (hdrOff + 40) = desc + (hdrOff + 72) by omega]
      apply slice_congr
      intro i _
      rw [put8_of_ne _ _ (by omega)]
    · have hpay2 := h2.payload
      rw [hl] at hpay2
      rw [hkept _ _ (by omega)]
      exact hpay2

/-- The fragments that arrive in order leave as the packet they were. -/
theorem v6_rejoins (next ident : ℕ) {l : List Byte} (hp : V6Parts m desc hdrOff fs rest)
    (hl : l.length = rest) :
    Rejoins 2 hdrOff
      (v6Head m desc hdrOff (fs + 8) (fs + 50) next 1 ident (m.slice (desc + (hdrOff + 72)) fs))
      (v6Head m desc hdrOff (rest + 8) (rest + 50) next fs ident l)
      ((m.put8 (desc + (hdrOff + 38)) next).slice (desc + 32) (hdrOff + 40 + fs) ++ l) := by
  intro u port d1 d2 hr1 hr2 hapart
  have ha1 := hr1.v6
  have ha2 := hr2.v6
  have hlen (frag plen session : ℕ) (k : List Byte) :
      (v6Head m desc hdrOff plen session next frag ident k).length = hdrOff + 80 + k.length := by
    unfold v6Head
    rw [List.length_append, List.length_append, length_slice, length_fragHeader]
    omega
  rw [hlen, hlen, length_slice, hl] at hapart ⊢
  have hshort := hp.short
  have hbetween := hapart
  unfold Apart at hbetween
  -- the first fragment is held
  have hnext : u.mem (d1 + (hdrOff + 38)) = 44 := by
    rw [ha1.head _ (by omega) (by omega), v6Edit_of_ne (by omega)]
    · exact hp.fragNext
    · intro off hoff
      have hend := hp.ends off hoff
      omega
  have hmore : u.mem.be16 (d1 + (hdrOff + 74)) = 1 := by
    rw [show hdrOff + 74 = hdrOff + 72 + 2 from rfl, ha1.word (by decide)]
    unfold fragHeader word byte
    show 1 / 256 % 256 * 256 + 1 % 256 = 1
    omega
  have hin : u.mem (d1 + (hdrOff + 72)) = byte next := by
    have hsl := getElem?_slice u.mem (d1 + (hdrOff + 72)) (i := 0) (n := 8) (by decide)
    rw [ha1.header] at hsl
    exact (Option.some.inj hsl).symm
  obtain ⟨hret, hheld, hmem⟩ := reasmV6_first port (hdrOff + 80 + fs) hnext hmore
  have hre1 : tunnelReassemble u port (hdrOff + 80 + fs) d1 =
      (0, (reasmV6 u port (hdrOff + 80 + fs) d1 hdrOff).2) := by
    rw [tunnelReassemble_v6 hr1.isFlag, hr1.isHdr]
    exact Prod.ext hret rfl
  rw [hre1]
  generalize (reasmV6 u port (hdrOff + 80 + fs) d1 hdrOff).2 = u1 at hheld hmem ⊢
  have hkeep (a : ℕ) (ha : a ≠ d1 + (hdrOff + 38)) (hout : a < d1 ∨ d1 + 4 ≤ a) :
      u1.mem a = u.mem a := by
    rw [hmem, put8_of_ne _ _ ha, put32_of_ne _ _ hout]
  have hw2 : u1.mem.word32 d2 = u.mem.word32 d2 := by
    apply word32_congr
    intro i hi
    exact hkeep _ (by omega) (by omega)
  have hback : u1.mem (d1 + (hdrOff + 38)) = byte next := by
    rw [hmem, put8_self, hin]
    apply Fin.ext
    unfold byte
    dsimp only
    omega
  obtain ⟨hret2, p, hem, hwhole⟩ := v6_second_back port hp hheld hr1.nonzero hapart hl hback
    (by
      intro j hj hn hne
      rw [hkeep _ (by omega) (by omega)]
      exact ha1.head j hj hn)
    (by
      rw [← ha1.header]
      apply slice_congr
      intro i _
      exact hkeep _ (by omega) (by omega))
    (by
      have hpay := ha1.payload
      rw [length_slice] at hpay
      rw [← hpay]
      apply slice_congr
      intro i _
      exact hkeep _ (by omega) (by omega))
    (by
      apply ha2.of_eq
      intro j hj hlt
      exact hkeep _ (by omega) (by omega))
  refine ⟨u1, _, p, rfl, ?_, hem, hwhole⟩
  rw [tunnelReassemble_v6 (by rw [hw2]; exact hr2.isFlag), hw2, hr2.isHdr]
  exact Prod.ext hret2 rfl

theorem tunnelFragment_v6 (hto : ToFragment t len desc mtu hdrOff 2) :
    tunnelFragment t port len desc = fragV6 t port len desc mtu hdrOff := by
  obtain ⟨-, -, hlong⟩ := hto.bounds
  have hflag := hto.isFlag
  unfold tunnelFragment
  simp only
  rw [hto.isMtu, hto.isHdr, if_neg hlong, if_neg (by omega), if_pos (by omega)]

/-- The buffer as `frag_v6` sends it: the descriptor written, the next
    header that of a fragment. -/
def v6Sent (m : Memory) (port desc hdrOff : ℕ) : Memory :=
  (m.put32 desc (port % 32 * 16 + 0x200)).put8 (desc + hdrOff + 38) 44

theorem v6Sent_of_ne {a : ℕ} (hdesc : desc + 4 ≤ a) (hne : a ≠ desc + (hdrOff + 38)) :
    v6Sent m port desc hdrOff a = m a := by
  unfold v6Sent
  rw [put8_of_ne _ _ (by omega), put32_of_ne _ _ (by omega)]

theorem v6Sent_be16 {a : ℕ} (hdesc : desc + 4 ≤ a)
    (hne : a + 1 < desc + (hdrOff + 38) ∨ desc + (hdrOff + 38) < a) :
    (v6Sent m port desc hdrOff).be16 a = m.be16 a := by
  apply be16_congr
  · exact v6Sent_of_ne hdesc (by omega)
  · exact v6Sent_of_ne (by omega) (by omega)

/-- The next header put back, the packet is as it was. -/
theorem v6Sent_back {n : ℕ} :
    ((v6Sent m port desc hdrOff).put8 (desc + (hdrOff + 38)) (m (desc + hdrOff + 38)).val).slice
      (desc + 32) n = m.slice (desc + 32) n := by
  apply slice_congr
  intro i _
  by_cases hnh : desc + 32 + i = desc + (hdrOff + 38)
  · rw [hnh, put8_self, Nat.add_assoc desc hdrOff]
    apply Fin.ext
    unfold byte
    have hlt := (m (desc + (hdrOff + 38))).isLt
    dsimp only
    omega
  · rw [put8_of_ne _ _ hnh, v6Sent_of_ne (by omega) hnh]

theorem pppoeAt_v6Sent (port : ℕ) (hpkt : V6Packet m desc len hdrOff) :
    pppoeAt (v6Sent m port desc hdrOff) desc = pppoeAt m desc := by
  have hlong := hpkt.l2.long
  apply pppoeAt_congr
  · exact v6Sent_be16 (by omega) (by omega)
  · intro htag
    have hroom := hpkt.l2.tagged htag
    exact v6Sent_be16 (by omega) (by omega)

/-- A packet ready to be sent is in two parts. -/
theorem V6Packet.parts (port : ℕ) (hpkt : V6Packet t.mem desc len hdrOff)
    (hto : ToFragment t len desc mtu hdrOff 2) (hmtu : 56 ≤ mtu) :
    V6Parts (v6Sent t.mem port desc hdrOff) desc hdrOff (v6Fs mtu)
      (len - hdrOff - v6Fs mtu - 72) := by
  have hlong := hto.long
  obtain ⟨hlen, hmtu', -⟩ := hto.bounds
  have hfs : v6Fs mtu = (mtu - 48) / 8 * 8 := rfl
  have htotal := hpkt.total
  have hsess := hpkt.l2.session
  have hshort := hpkt.l2.long
  have hpp := pppoeAt_v6Sent port hpkt
  constructor
  · intro off hoff
    rw [hpp] at hoff
    exact (hsess off hoff).1
  · exact ⟨hpkt.l2.long, hpkt.l2.short⟩
  · rw [v6Sent_be16 (by omega) (by omega)]
    exact hpkt.l2.tagged
  · intro off hoff
    rw [hpp] at hoff
    obtain ⟨hend, hval⟩ := hsess off hoff
    rw [v6Sent_be16 (by omega) (by omega), hval]
    omega
  · rw [v6Sent_be16 (by omega) (by omega), ← Nat.add_assoc]
    omega
  · unfold v6Sent
    rw [← Nat.add_assoc, put8_self]
    rfl
  · omega
  · omega
  · omega

/-- Where the second payload is read from: 16 bits of its offset. -/
def v6Start (hdrOff mtu : ℕ) : ℕ := (hdrOff + 72 + v6Fs mtu) % 2 ^ 16

/-- An offset that fits leads to the second payload. -/
theorem v6Start_fits {n : ℕ} (h : hdrOff + 72 + v6Fs mtu < 2 ^ 16) :
    (v6Sent m port desc hdrOff).slice (desc + v6Start hdrOff mtu) n =
      m.slice (desc + hdrOff + 72 + v6Fs mtu) n := by
  unfold v6Start
  rw [Nat.mod_eq_of_lt h, Nat.add_assoc desc, Nat.add_assoc desc]
  apply slice_congr
  intro i _
  exact v6Sent_of_ne (by omega) (by omega)

/-- `frag_v6` splits a packet as it should, and the two fragments rejoin,
    exactly when the second payload's offset, cut to the 16 bits the
    bridge has for it, still leads to the same bytes. -/
theorem v6_splits (port : ℕ) (hpkt : V6Packet t.mem desc len hdrOff)
    (hto : ToFragment t len desc mtu hdrOff 2) (hmtu : 56 ≤ mtu) :
    (∃ p1 p2, V6Splits t port len desc mtu hdrOff p1 p2) ↔
      (v6Sent t.mem port desc hdrOff).slice (desc + v6Start hdrOff mtu)
          (len - hdrOff - v6Fs mtu - 72) =
        t.mem.slice (desc + hdrOff + 72 + v6Fs mtu) (len - hdrOff - v6Fs mtu - 72) := by
  obtain ⟨hlen, hmtu', -⟩ := hto.bounds
  have hlong := hto.long
  have hshort := hpkt.l2.long
  have hp := hpkt.parts port hto hmtu
  have hem := fragV6_emitted t port desc hmtu hmtu' hshort hpkt.l2.short hlong hlen
  rw [← tunnelFragment_v6 hto] at hem
  have hstart : u16 ((hdrOff : ℤ) + 72 + v6Fs mtu) = v6Start hdrOff mtu := by
    unfold u16 v6Start
    omega
  have hbyte : t.mem.put32 desc (port % 32 * 16 + 0x200) (desc + hdrOff + 38) =
      t.mem (desc + hdrOff + 38) := put32_of_ne _ _ (by omega)
  dsimp only at hem
  rw [hstart, hbyte] at hem
  have hpp := pppoeAt_v6Sent port hpkt
  have hfs : v6Fs mtu = (mtu - 48) / 8 * 8 := rfl
  have hsplit : len - hdrOff - 72 = v6Fs mtu + (len - hdrOff - v6Fs mtu - 72) := by omega
  set next := (t.mem (desc + hdrOff + 38)).val
  set ident := u32 (t.ipv6FragId + 1)
  set fs := v6Fs mtu
  set rest := len - hdrOff - fs - 72
  set m := v6Sent t.mem port desc hdrOff with hm
  have hnext : next < 256 := (t.mem (desc + hdrOff + 38)).isLt
  have hident : ident < 2 ^ 32 := by
    show u32 _ < 2 ^ 32
    unfold u32
    omega
  -- the first payload is behind all that `frag_v6` writes
  have hkeep : m.slice (desc + (hdrOff + 72)) fs = t.mem.slice (desc + hdrOff + 72) fs := by
    rw [Nat.add_assoc desc]
    apply slice_congr
    intro i _
    exact v6Sent_of_ne (by omega) (by omega)
  have hsent : emitted t (tunnelFragment t port len desc).2 =
      [v6Head m desc hdrOff (fs + 8) (fs + 50) next 1 ident
          (m.slice (desc + (hdrOff + 72)) fs),
        v6Head m desc hdrOff (rest + 8) (rest + 50) next fs ident
          (m.slice (desc + v6Start hdrOff mtu) rest)] := hem
  constructor
  · -- the payloads of what is sent make the packet's, the second as well
    rintro ⟨p1, p2, hs⟩
    have hsent' := hs.sent
    rw [hsent] at hsent'
    injection hsent' with hp1 hp2
    injection hp2 with hp2 _
    have hpay := hs.payload
    rw [← hp1, ← hp2, drop_v6Head, drop_v6Head, hsplit, slice_add] at hpay
    exact (List.append_inj hpay (by rw [length_slice, length_slice])).2
  · intro hsame
    have hroom := hp.room
    have hal := hp.aligned
    have hlen1 : (v6Head m desc hdrOff (fs + 8) (fs + 50) next 1 ident
        (m.slice (desc + (hdrOff + 72)) fs)).length = hdrOff + 80 + fs := length_v6First
    refine ⟨_, _, hsent, ?_, ?_, ?_, ?_, ?_, ?_⟩
    · rw [drop_v6Head, drop_v6Head, hsplit, slice_add, hkeep, hsame]
    · rw [hlen1]
      omega
    · rw [← hpp]
      apply v6Head_fragment hp hnext (by decide) hident
      · rw [length_slice]
      · rw [length_slice]
      · omega
    · rw [← hpp, hlen1, show hdrOff + 80 + fs - hdrOff - 80 = fs by omega]
      apply v6Head_fragment hp hnext (by omega) hident
      · rw [length_slice]
      · rw [length_slice]
      · omega
    · rw [hlen1]
      omega
    · -- the headers come back by themselves, the payload by assumption
      have hback := v6_rejoins next ident hp
        (length_slice m (desc + v6Start hdrOff mtu) rest)
      have hwhole : (m.put8 (desc + (hdrOff + 38)) next).slice (desc + 32) (hdrOff + 40 + fs) ++
          m.slice (desc + v6Start hdrOff mtu) rest = t.mem.slice (desc + 32) (len - 32) := by
        rw [v6Sent_back, hsame,
          show desc + hdrOff + 72 + fs = desc + 32 + (hdrOff + 40 + fs) by omega,
          ← slice_add, show hdrOff + 40 + fs + rest = len - 32 by omega]
      rw [hwhole] at hback
      exact hback

/-! ## Both -/

/-- Fragments split their packet and rejoin to it: for IPv4 exactly when
    the first fragment's length fits 16 bits, for IPv6 exactly when the
    second payload is found through 16 bits of its offset. -/
theorem fragments_rejoin (t : Tun) (port len desc mtu hdrOff : ℕ) :
    (V4Packet t.mem desc len hdrOff → ToFragment t len desc mtu hdrOff 1 → 28 ≤ mtu →
      ((∃ p1 p2, V4Splits t port len desc mtu hdrOff p1 p2) ↔
        v4Fp mtu + hdrOff + 52 < 2 ^ 16)) ∧
    (V6Packet t.mem desc len hdrOff → ToFragment t len desc mtu hdrOff 2 → 56 ≤ mtu →
      ((∃ p1 p2, V6Splits t port len desc mtu hdrOff p1 p2) ↔
        (v6Sent t.mem port desc hdrOff).slice (desc + v6Start hdrOff mtu)
            (len - hdrOff - v6Fs mtu - 72) =
          t.mem.slice (desc + hdrOff + 72 + v6Fs mtu) (len - hdrOff - v6Fs mtu - 72))) :=
  ⟨fun hpkt hto hmtu => v4_splits port hpkt hto hmtu,
    fun hpkt hto hmtu => v6_splits port hpkt hto hmtu⟩

/-- An offload with one untagged packet at 0x1000: its flag, the IPv4
    total or IPv6 payload length at a place, its first IP byte, and an
    MTU. -/
def onePacket (flag total place first mtu : ℕ) : Tun where
  mem := (((blankMem.put32 0x1000 (14 * 2 ^ 20 + flag * 2 ^ 27 +
    (total + if flag = 1 then 14 else 54))).put32 0x1010 (mtu * 2 ^ 16)).put16 (0x1000 + place)
      total).put8 (0x1000 + 46) first
  credit _ := true
  calls := 0
  log := []
  bridge := 0x100000
  encapMtu := 1500
  srv6HdrLen _ := 0
  mapInfoBase := 0
  ipv6FragId := 0
  v4FragInfo := 0
  v4Reasm := ⟨0, 0, 0⟩
  v6Reasm := ⟨0, 0, 0⟩

theorem onePacket_untagged {flag total place first mtu : ℕ} (hplace : 48 ≤ place) :
    pppoeAt (onePacket flag total place first mtu).mem 0x1000 = none := by
  have hfar : (onePacket flag total place first mtu).mem.be16 (0x1000 + 44) = 0 := by
    have hz (a : ℕ) (ha : a = 0x1000 + 44 ∨ a = 0x1000 + 45) :
        (onePacket flag total place first mtu).mem a = 0 := by
      unfold onePacket
      dsimp only
      rw [put8_of_ne _ _ (by omega), put16_of_ne _ _ (by omega), put32_of_ne _ _ (by omega),
        put32_of_ne _ _ (by omega)]
      rfl
    unfold be16
    rw [hz _ (.inl rfl), hz _ (.inr rfl)]
    rfl
  unfold pppoeAt
  rw [hfar]
  rfl


theorem onePacket_session {flag total place first mtu : ℕ} (hplace : 48 ≤ place) {n : ℕ} :
    ∀ off, pppoeAt (onePacket flag total place first mtu).mem 0x1000 = some off →
      off + 4 = 14 + 32 ∧
        (onePacket flag total place first mtu).mem.be16 (0x1000 + off) = n + 2 := by
  rw [onePacket_untagged hplace]
  intro off hoff
  cases hoff

theorem onePacket_v4 : V4Packet (onePacket 1 40 48 0x45 28).mem 0x1000 86 14 := by
  refine ⟨⟨by decide, by decide, ?_, onePacket_session (by decide)⟩, ?_, ?_, ?_⟩
  · decide +kernel
  · decide +kernel
  · decide +kernel
  · decide +kernel

theorem onePacket_toFragment4 : ToFragment (onePacket 1 40 48 0x45 28) 86 0x1000 28 14 1 := by
  constructor
  · decide +kernel
  · decide +kernel
  · decide +kernel
  · decide +kernel
  · decide

theorem onePacket_v6 : V6Packet (onePacket 2 60 50 0x60 56).mem 0x1000 146 14 := by
  refine ⟨⟨by decide, by decide, ?_, onePacket_session (by decide)⟩, ?_⟩
  · decide +kernel
  · decide +kernel

theorem onePacket_toFragment6 : ToFragment (onePacket 2 60 50 0x60 56) 146 0x1000 56 14 2 := by
  constructor
  · decide +kernel
  · decide +kernel
  · decide +kernel
  · decide +kernel
  · decide

/-- A 40-byte IPv4 packet split for an MTU of 28, and an IPv6 packet with
    a payload of 60 for an MTU of 56. -/
theorem fragments_rejoin_small :
    (∃ p1 p2, V4Splits (onePacket 1 40 48 0x45 28) 0 86 0x1000 28 14 p1 p2) ∧
      ∃ p1 p2, V6Splits (onePacket 2 60 50 0x60 56) 0 146 0x1000 56 14 p1 p2 := by
  have h4 := (fragments_rejoin (onePacket 1 40 48 0x45 28) 0 86 0x1000 28 14).1 onePacket_v4
    onePacket_toFragment4 (Nat.le_refl 28)
  have h6 := (fragments_rejoin (onePacket 2 60 50 0x60 56) 0 146 0x1000 56 14).2 onePacket_v6
    onePacket_toFragment6 (Nat.le_refl 56)
  exact ⟨h4.2 (by decide), h6.2 (v6Start_fits (by decide))⟩

/-- An IPv4 packet of 65521 bytes and an MTU of 65520: the first
    fragment's length of 65562 goes out as 26. -/
theorem fragments_lose_long :
    ¬∀ (t : Tun) (port len desc mtu hdrOff : ℕ), V4Packet t.mem desc len hdrOff →
      ToFragment t len desc mtu hdrOff 1 → 28 ≤ mtu →
        ∃ p1 p2, V4Splits t port len desc mtu hdrOff p1 p2 := by
  intro h
  have hpkt : V4Packet (onePacket 1 65521 48 0x45 65520).mem 0x1000 65567 14 := by
    refine ⟨⟨by decide, by decide, ?_, onePacket_session (by decide)⟩, ?_, ?_, ?_⟩
    · decide +kernel
    · decide +kernel
    · decide +kernel
    · decide +kernel
  have hto : ToFragment (onePacket 1 65521 48 0x45 65520) 65567 0x1000 65520 14 1 := by
    constructor
    · decide +kernel
    · decide +kernel
    · decide +kernel
    · decide +kernel
    · decide
  have hsplits := (v4_splits 0 hpkt hto (by decide)).1 (h _ 0 _ _ _ _ hpkt hto (by decide))
  exact absurd hsplits (by decide)

end ClankerNPU.Tunnel
