import ClankerNPU.Tunnel.Fragment

/-! # Length fields

    The headers an operation writes or rewrites carry the length of what
    it sends behind them; the headers it carries along fit as they did
    before. -/

namespace ClankerNPU.Tunnel

open Memory

variable {t t' : Tun} {m m' : Memory} {p q : List Byte} {port len desc udf : ℕ}

/-- The headers with a length field. -/
inductive Header where
  | ipv4
  | udp
  | ipv6
  deriving DecidableEq, Repr

/-- The place of the length in the header. -/
def Header.lengthAt : Header → ℕ
  | ipv4 => 2
  | udp => 4
  | ipv6 => 4

/-- The bytes of the header that its length does not count. -/
def Header.uncounted : Header → ℕ
  | ipv4 => 0
  | udp => 0
  | ipv6 => 40

/-- The length of the header at a place counts all that follows. -/
def Fits (p : List Byte) (hd : Header) (i : ℕ) : Prop :=
  word p (i + hd.lengthAt) + hd.uncounted + i = p.length

instance (p : List Byte) (hd : Header) (i : ℕ) : Decidable (Fits p hd i) := by
  unfold Fits
  infer_instance

/-- The headers of one packet whose length lies from some place on fit in
    another packet, moved. -/
def Carries (q : List Byte) (b : ℕ) (p : List Byte) (a : ℕ) : Prop :=
  ∀ hd i, b ≤ i + hd.lengthAt → Fits q hd i → Fits p hd (i + a - b)

theorem Header.lengthAt_le (hd : Header) : hd.lengthAt ≤ 4 := by
  cases hd <;> decide

theorem word_drop (l : List Byte) (a i : ℕ) : word (l.drop a) i = word l (a + i) := by
  unfold word
  rw [List.getD_eq_getElem?_getD, List.getD_eq_getElem?_getD, List.getD_eq_getElem?_getD,
    List.getD_eq_getElem?_getD, List.getElem?_drop, List.getElem?_drop, Nat.add_assoc]

theorem fits_of {hd : Header} {i j n : ℕ} (hj : i + hd.lengthAt = j) (hword : word p j = n)
    (hlen : n + hd.uncounted + i = p.length) : Fits p hd i := by
  unfold Fits
  rw [hj, hword]
  exact hlen

/-- What follows is the same, so what is in it fits the same. -/
theorem carries_of_drop {a b : ℕ} (h : p.drop a = q.drop b) (ha : a ≤ p.length)
    (hb : b ≤ q.length) (hroom : 4 ≤ a) : Carries q b p a := by
  intro hd i hi hfits
  have hat := hd.lengthAt_le
  have hlen := congrArg List.length h
  rw [List.length_drop, List.length_drop] at hlen
  have hword : word p (i + a - b + hd.lengthAt) = word q (i + hd.lengthAt) := by
    rw [show i + a - b + hd.lengthAt = a + (i + hd.lengthAt - b) by omega, ← word_drop, h,
      word_drop, show b + (i + hd.lengthAt - b) = i + hd.lengthAt by omega]
  unfold Fits at hfits ⊢
  rw [hword]
  omega

/-- The packet as it came. -/
def packetAt (t : Tun) (len desc : ℕ) : List Byte := t.mem.slice desc len

theorem drop_packetAt {n : ℕ} (h : n ≤ len) :
    (packetAt t len desc).drop n = t.mem.slice (desc + n) (len - n) := by
  obtain ⟨k, rfl⟩ := Nat.exists_eq_add_of_le h
  unfold packetAt
  rw [drop_slice, Nat.add_sub_cancel_left]

theorem putInfo_of_ne {a v : ℕ} (h : a < desc ∨ desc + 28 ≤ a) :
    putInfo m desc v udf a = m a := by
  unfold putInfo
  rw [put32_of_ne _ _ (by omega), put32_of_ne _ _ (by omega), put32_of_ne _ _ (by omega),
    put32_of_ne _ _ (by omega)]

theorem slice_putInfo {a n v : ℕ} (h : desc + 28 ≤ a) :
    (putInfo m desc v udf).slice a n = m.slice a n := by
  apply slice_congr
  intro i _
  exact putInfo_of_ne (by omega)

/-! ## VXLAN -/

/-- What goes out for a segment with patches. -/
theorem listPatch_bytes {g : Seg} (ps : List (ℕ × ℤ)) {start n : ℕ}
    (hg : g.patches = (ps.map fun p => patch p.1 p.2).filterMap id)
    (hps : ∀ p ∈ ps, p.1 < 2 ^ 14) (hstart : g.addr + g.off = start) (hn : g.len = n) :
    g.bytes m = (ps.foldl (fun m p => m.put16 (g.addr + p.1) (u16 p.2)) m).slice start n := by
  unfold Seg.bytes Seg.patched
  rw [hg, hstart, hn]
  clear hg
  congr 1
  induction ps generalizing m with
  | nil => rfl
  | cons x ps ih =>
    have hx : u16 (x.1 : ℤ) % 2 ^ 14 = x.1 := by
      have hlt := hps x List.mem_cons_self
      unfold u16
      omega
    have htail : ∀ p ∈ ps, p.1 < 2 ^ 14 := fun p hp => hps p (List.mem_cons_of_mem _ hp)
    have hrest := ih (m := m.put16 (g.addr + x.1) (u16 x.2)) htail
    rw [List.foldl_cons, ← hrest]
    show List.foldl _ (m.put16 (g.addr + u16 (x.1 : ℤ) % 2 ^ 14) (u16 x.2)) _ = _
    rw [hx]

/-- The outer headers of a VXLAN packet: a stored header with its IPv4
    and UDP lengths. -/
def vxlanHdr (m : Memory) (hdr total dgram : ℕ) : List Byte :=
  ((m.put16 (hdr + 0x10) total).put16 (hdr + 0x26) dgram).slice hdr 50

theorem length_vxlanHdr (m : Memory) (hdr total dgram : ℕ) :
    (vxlanHdr m hdr total dgram).length = 50 := length_slice _ _ _

/-- Behind a descriptor the stored header's lengths are at 48 and 70. -/
theorem vxlanHdr_fits (m : Memory) (hdr : ℕ) {l r : List Byte} {total dgram : ℕ}
    (hl : l.length = 32)
    (htotal : total < 2 ^ 16) (hdgram : dgram < 2 ^ 16) (h1 : total = 36 + r.length)
    (h2 : dgram = 16 + r.length) :
    Fits (l ++ (vxlanHdr m hdr total dgram ++ r)) .ipv4 46 ∧
      Fits (l ++ (vxlanHdr m hdr total dgram ++ r)) .udp 66 := by
  have hlen := length_vxlanHdr m hdr total dgram
  have hat (i : ℕ) (hi : i + 1 < 50) : word (l ++ (vxlanHdr m hdr total dgram ++ r)) (32 + i) =
      ((m.put16 (hdr + 0x10) total).put16 (hdr + 0x26) dgram).be16 (hdr + i) := by
    rw [word_append_right (by omega), hl, Nat.add_sub_cancel_left,
      word_append_left (by omega), vxlanHdr, word_slice _ _ hi]
  have hall : (l ++ (vxlanHdr m hdr total dgram ++ r)).length = 82 + r.length := by
    rw [List.length_append, List.length_append, hl, hlen]
    omega
  constructor
  · have hword := hat 16 (by decide)
    rw [be16_put16_of_ne _ _ (by omega), be16_put16_self _ _ htotal] at hword
    refine fits_of (show 46 + Header.ipv4.lengthAt = 32 + 16 from rfl) hword ?_
    rw [hall, h1]
    show 36 + r.length + 0 + 46 = 82 + r.length
    omega
  · have hword := hat 38 (by decide)
    rw [be16_put16_self _ _ hdgram] at hword
    refine fits_of (show 66 + Header.udp.lengthAt = 32 + 38 from rfl) hword ?_
    rw [hall, h2]
    show 16 + r.length + 0 + 66 = 82 + r.length
    omega

theorem tunnelVxlan_whole (t : Tun) (port desc : ℕ) (hudf : 1 ≤ udf ∧ udf ≤ 20)
    (hmtu : len + 4 ≤ t.encapMtu) (hmin : 32 ≤ len) (hlen : len + 4 < 2 ^ 16) :
    let m := putInfo t.mem desc port udf
    emitted t (tunnelVxlan t port len desc udf).2 =
      [m.slice desc 32 ++ (vxlanHdr m (t.bridge + (udf - 1) * 128) (len + 4) (len - 16) ++
        m.slice (desc + 32) (len - 32))] := by
  intro m
  have hres : tunnelVxlan t port len desc udf = vxlanEncap t port len desc udf := by
    unfold tunnelVxlan
    rw [if_neg (by omega), if_pos hmtu]
  rw [hres]
  refine (emitted_three rfl rfl rfl rfl).trans ?_
  refine congrArg (fun l => [l])
    (congrArg₂ (fun a b => a ++ b) ?_ (congrArg₂ (fun a b => a ++ b) ?_ ?_))
  · exact plainSeg_bytes rfl rfl rfl
  · rw [listPatch_bytes [(0x10, (len : ℤ) + 4), (0x26, (len : ℤ) - 16)] rfl (by simp) rfl rfl]
    have h1 : u16 ((len : ℤ) + 4) = len + 4 := by
      exact u16_eq (by omega) (by omega)
    have h2 : u16 ((len : ℤ) - 16) = len - 16 := by
      exact u16_eq (by omega) (by omega)
    show ((m.put16 _ (u16 ((len : ℤ) + 4))).put16 _ (u16 ((len : ℤ) - 16))).slice _ _ = _
    rw [h1, h2]
    rfl
  · apply plainSeg_bytes rfl rfl
    show u16 ((len : ℤ) - ((0 % 2 ^ 16 : ℕ) : ℤ) - 32) = _
    exact u16_eq (by omega) (by omega)

/-! ## The split VXLAN packet -/

/-- One packet of three segments and one of four. -/
theorem emitted_three_four {g1 g2 g3 g4 g5 g6 g7 : Seg} {o1 o2 o3 o4 o5 o6 o7 : Bool}
    {b1 b2 b3 b4 b5 b6 b7 : List Byte}
    (h : t'.log = t.log ++ [⟨g1, o1, b1⟩] ++ [⟨g2, o2, b2⟩] ++ [⟨g3, o3, b3⟩] ++ [⟨g4, o4, b4⟩] ++
      [⟨g5, o5, b5⟩] ++ [⟨g6, o6, b6⟩] ++ [⟨g7, o7, b7⟩])
    (h1 : g1.last = false) (h2 : g2.last = false) (h3 : g3.last = true) (h4 : g4.last = false)
    (h5 : g5.last = false) (h6 : g6.last = false) (h7 : g7.last = true) :
    emitted t t' = [b1 ++ (b2 ++ b3), b4 ++ (b5 ++ (b6 ++ b7))] := by
  simp only [List.append_assoc] at h
  rw [emitted_append h]
  simp [packets, h1, h2, h3, h4, h5, h6, h7]

/-- The inner IPv4 header of a fragment, and `n` bytes with it from the
    inner L2 header on. -/
def vxlanInner (m : Memory) (desc total frag csum n : ℕ) : List Byte :=
  (((m.put16 (desc + 0x30) total).put16 (desc + 0x34) frag).put16 (desc + 0x38) csum).slice
    (desc + 32) n

theorem length_vxlanInner (m : Memory) (desc total frag csum n : ℕ) :
    (vxlanInner m desc total frag csum n).length = n := length_slice _ _ _

/-- Behind the outer headers the inner length is at 98. -/
theorem vxlanInner_fits (m : Memory) (desc frag csum : ℕ) {l r : List Byte} {total n : ℕ}
    (hl : l.length = 82)
    (hn : 34 ≤ n) (htotal : total < 2 ^ 16) (h : total + 14 = n + r.length) :
    Fits (l ++ (vxlanInner m desc total frag csum n ++ r)) .ipv4 96 := by
  have hword : word (l ++ (vxlanInner m desc total frag csum n ++ r)) 98 = total := by
    rw [word_append_right (by omega), hl, word_append_left (by rw [length_vxlanInner]; omega),
      vxlanInner, word_slice _ _ (by omega), be16_put16_of_ne _ _ (by omega),
      be16_put16_of_ne _ _ (by omega)]
    exact be16_put16_self _ _ htotal
  refine fits_of (show 96 + Header.ipv4.lengthAt = 98 from rfl) hword ?_
  rw [List.length_append, List.length_append, hl, length_vxlanInner]
  show total + 0 + 96 = _
  omega

theorem drop_vxlanInner (m : Memory) (desc total frag csum : ℕ) {l r : List Byte} {k : ℕ}
    (hl : l.length = 82) :
    (l ++ (vxlanInner m desc total frag csum (34 + k) ++ r)).drop 116 =
      m.slice (desc + 66) k ++ r := by
  unfold vxlanInner
  rw [slice_add, List.append_assoc, ← List.append_assoc]
  rw [List.drop_left' (by rw [List.length_append, hl, length_slice])]
  congr 1
  rw [Nat.add_assoc desc]
  apply slice_congr
  intro i _
  rw [put16_of_ne _ _ (by omega), put16_of_ne _ _ (by omega), put16_of_ne _ _ (by omega)]

/-- The payload of the first inner fragment. -/
def vxlanFp (mtu : ℕ) : ℕ := (mtu - 70) / 8 * 8

/-- The two packets of a split. -/
theorem tunnelVxlan_split (t : Tun) (port desc : ℕ) (hudf : 1 ≤ udf ∧ udf ≤ 20)
    (hmtu : t.encapMtu < len + 4) (hmin : 70 ≤ t.encapMtu) (hlen : len + 4 < 2 ^ 16) :
    let m := putInfo t.mem desc port udf
    let hdr := t.bridge + (udf - 1) * 128
    let iph := desc + hdrOffOf (t.mem.word32 desc) + 32
    let fp := vxlanFp t.encapMtu
    let rem := len - fp
    emitted t (tunnelVxlan t port len desc udf).2 =
      [m.slice desc 32 ++ (vxlanHdr m hdr (fp + 70) (fp + 50) ++
          vxlanInner m desc (fp + 20) 0x2000 (u16 (ipv4CsumUpdate m iph (fp + 20) 0x2000))
            (34 + fp)),
        m.slice desc 32 ++ (vxlanHdr m hdr (rem + 4) (rem - 16) ++
          (vxlanInner m desc (rem - 46) (fp / 8)
              (u16 (ipv4CsumUpdate m iph (rem - 46) (fp / 8))) 34 ++
            m.slice (desc + (fp + 66)) (rem - 66)))] := by
  intro m hdr iph fp rem
  have hfp : fp = (t.encapMtu - 70) / 8 * 8 := rfl
  -- the arithmetic of the source does not wrap within these bounds
  have hunits : u32 ((t.encapMtu : ℤ) - 70) / 8 % 2 ^ 16 = fp / 8 := by
    unfold u32
    omega
  have hmul : fp / 8 * 8 = fp := by omega
  have hrem : u16 ((len : ℤ) - fp) = rem := by
    exact u16_eq (by omega) (by omega)
  have h46 : u16 ((rem : ℤ) - 46) = rem - 46 := by
    exact u16_eq (by omega) (by omega)
  have hres : tunnelVxlan t port len desc udf =
      vxlanEncapFrag t port len desc udf (hdrOffOf (t.mem.word32 desc)) := by
    unfold tunnelVxlan
    rw [if_neg (by omega), if_neg (by omega)]
  rw [hres]
  unfold vxlanEncapFrag
  simp only [hunits, hmul, hrem, h46]
  -- three segments make the first packet, four the second
  refine (emitted_three_four rfl rfl rfl rfl rfl rfl rfl rfl).trans ?_
  refine congrArg₂ (fun a b => [a, b])
    (congrArg₂ (fun a b => a ++ b) ?_ (congrArg₂ (fun a b => a ++ b) ?_ ?_))
    (congrArg₂ (fun a b => a ++ b) ?_ (congrArg₂ (fun a b => a ++ b) ?_
      (congrArg₂ (fun a b => a ++ b) ?_ ?_)))
  · exact plainSeg_bytes rfl rfl rfl
  · refine (listPatch_bytes [(0x10, (fp : ℤ) + 70), (0x26, (fp : ℤ) + 50)] rfl (by simp) rfl
      rfl).trans ?_
    have h1 : u16 ((fp : ℤ) + 70) = fp + 70 := by
      exact u16_eq (by omega) (by omega)
    have h2 : u16 ((fp : ℤ) + 50) = fp + 50 := by
      exact u16_eq (by omega) (by omega)
    show ((m.put16 _ (u16 ((fp : ℤ) + 70))).put16 _ (u16 ((fp : ℤ) + 50))).slice _ _ = _
    rw [h1, h2]
    rfl
  · refine (listPatch_bytes [(0x30, (fp : ℤ) + 20), (0x34, 0x2000),
      (0x38, (ipv4CsumUpdate m iph (fp + 20) 0x2000 : ℕ))] rfl (by simp) rfl rfl).trans ?_
    have h1 : u16 ((fp : ℤ) + 20) = fp + 20 := by
      exact u16_eq (by omega) (by omega)
    have h2 : u16 ((fp : ℤ) + 34) = 34 + fp := by
      exact u16_eq (by omega) (by omega)
    show (((m.put16 _ (u16 ((fp : ℤ) + 20))).put16 _ (u16 0x2000)).put16 _ _).slice _
      (u16 ((fp : ℤ) + 34)) = _
    rw [h1, h2]
    rfl
  · exact plainSeg_bytes rfl rfl rfl
  · refine (listPatch_bytes [(0x10, (rem : ℤ) + 4), (0x26, (rem : ℤ) - 16)] rfl (by simp) rfl
      rfl).trans ?_
    have h1 : u16 ((rem : ℤ) + 4) = rem + 4 := by
      exact u16_eq (by omega) (by omega)
    have h2 : u16 ((rem : ℤ) - 16) = rem - 16 := by
      exact u16_eq (by omega) (by omega)
    show ((m.put16 _ (u16 ((rem : ℤ) + 4))).put16 _ (u16 ((rem : ℤ) - 16))).slice _ _ = _
    rw [h1, h2]
    rfl
  · refine (listPatch_bytes [(0x30, (rem : ℤ) - 46), (0x34, (fp / 8 : ℕ)),
      (0x38, (ipv4CsumUpdate m iph (rem - 46) (fp / 8) : ℕ))] rfl (by simp) rfl rfl).trans ?_
    have h1 : u16 ((fp / 8 : ℕ) : ℤ) = fp / 8 := by
      exact u16_eq (by omega) (by omega)
    show (((m.put16 _ (u16 ((rem : ℤ) - 46))).put16 _ (u16 ((fp / 8 : ℕ) : ℤ))).put16 _ _).slice _
      _ = _
    rw [h46, h1]
    rfl
  · apply plainSeg_bytes rfl
    · have h1 : u16 ((fp : ℤ) + 66) = fp + 66 := by
        exact u16_eq (by omega) (by omega)
      show desc + u16 ((fp : ℤ) + 66) = _
      rw [h1]
    · show u16 ((len : ℤ) - 66 - fp) = rem - 66
      exact u16_eq (by omega) (by omega)

/-! ## Operations -/

/-- An operation sends one packet in which some headers fit, and the rest
    of the packet from `b` on is carried to `a`. -/
def SendsFit (t t' : Tun) (hds : List (Header × ℕ)) (q : List Byte) (b a : ℕ) : Prop :=
  ∃ p, emitted t t' = [p] ∧ (∀ h ∈ hds, Fits p h.1 h.2) ∧ Carries q b p a

/-- An operation sends two packets in which some headers fit, and splits
    the rest of the packet between them. -/
def SplitsFit (t t' : Tun) (hds : List (Header × ℕ)) (q : List Byte) (b a : ℕ) : Prop :=
  ∃ p1 p2, emitted t t' = [p1, p2] ∧ (∀ h ∈ hds, Fits p1 h.1 h.2 ∧ Fits p2 h.1 h.2) ∧
    p1.drop a ++ p2.drop a = q.drop b

theorem tunnelVxlan_fit (t : Tun) (port desc : ℕ) (hudf : 1 ≤ udf ∧ udf ≤ 20)
    (hmtu : len + 4 ≤ t.encapMtu) (hmin : 32 ≤ len) (hlen : len + 4 < 2 ^ 16) :
    SendsFit t (tunnelVxlan t port len desc udf).2 [(.ipv4, 46), (.udp, 66)]
      (packetAt t len desc) 32 82 := by
  have hem := tunnelVxlan_whole t port desc hudf hmtu hmin hlen
  refine ⟨_, hem, ?_, ?_⟩
  · have hfits := vxlanHdr_fits (putInfo t.mem desc port udf) (t.bridge + (udf - 1) * 128)
      (l := (putInfo t.mem desc port udf).slice desc 32)
      (r := (putInfo t.mem desc port udf).slice (desc + 32) (len - 32)) (length_slice _ _ _) hlen
      (show len - 16 < 2 ^ 16 by omega)
      (by rw [length_slice]; omega) (by rw [length_slice]; omega)
    intro h hmem
    rcases List.mem_cons.1 hmem with rfl | hmem
    · exact hfits.1
    · rcases List.mem_singleton.1 hmem with rfl
      exact hfits.2
  · apply carries_of_drop
    · rw [drop_packetAt hmin, ← List.append_assoc, List.drop_left' (by
        rw [List.length_append, length_slice, length_vxlanHdr]), slice_putInfo (by omega)]
    · rw [List.length_append, List.length_append, length_slice, length_vxlanHdr]
      omega
    · unfold packetAt
      rw [length_slice]
      exact hmin
    · decide

/-- The three lengths of a VXLAN packet with an inner fragment. -/
theorem vxlanFragment_fits (m : Memory) (desc hdr frag csum : ℕ) {r : List Byte}
    {total dgram inner n : ℕ} (hn : 34 ≤ n) (hlt : total < 2 ^ 16)
    (htotal : total = 36 + (n + r.length)) (hdgram : dgram = 16 + (n + r.length))
    (hinner : inner + 14 = n + r.length) :
    ∀ h ∈ [(Header.ipv4, 46), (.udp, 66), (.ipv4, 96)],
      Fits (m.slice desc 32 ++ (vxlanHdr m hdr total dgram ++
        (vxlanInner m desc inner frag csum n ++ r))) h.1 h.2 := by
  have hlen : (vxlanInner m desc inner frag csum n ++ r).length = n + r.length := by
    rw [List.length_append, length_vxlanInner]
  have houter := vxlanHdr_fits m hdr (l := m.slice desc 32)
    (r := vxlanInner m desc inner frag csum n ++ r) (length_slice _ _ _) hlt
    (show dgram < 2 ^ 16 by omega) (by rw [hlen]; exact htotal) (by rw [hlen]; exact hdgram)
  have hin := vxlanInner_fits m desc frag csum (r := r)
    (l := m.slice desc 32 ++ vxlanHdr m hdr total dgram)
    (by rw [List.length_append, length_slice, length_vxlanHdr]) hn
    (show inner < 2 ^ 16 by omega) hinner
  rw [List.append_assoc] at hin
  intro h hmem
  rcases List.mem_cons.1 hmem with rfl | hmem
  · exact houter.1
  rcases List.mem_cons.1 hmem with rfl | hmem
  · exact houter.2
  rcases List.mem_singleton.1 hmem with rfl
  exact hin

theorem tunnelVxlan_splitFit (t : Tun) (port desc : ℕ) (hudf : 1 ≤ udf ∧ udf ≤ 20)
    (hmtu : t.encapMtu < len + 4) (hmin : 70 ≤ t.encapMtu) (hlen : len + 4 < 2 ^ 16) :
    SplitsFit t (tunnelVxlan t port len desc udf).2 [(.ipv4, 46), (.udp, 66), (.ipv4, 96)]
      (packetAt t len desc) 66 116 := by
  have hem := tunnelVxlan_split t port desc hudf hmtu hmin hlen
  have hfp : vxlanFp t.encapMtu = (t.encapMtu - 70) / 8 * 8 := rfl
  dsimp only at hem
  set m := putInfo t.mem desc port udf with hm
  set hdr := t.bridge + (udf - 1) * 128
  set fp := vxlanFp t.encapMtu
  generalize u16
    (ipv4CsumUpdate m (desc + hdrOffOf (t.mem.word32 desc) + 32) (fp + 20) 0x2000 : ℕ) = c1 at hem
  generalize u16 (ipv4CsumUpdate m (desc + hdrOffOf (t.mem.word32 desc) + 32) (len - fp - 46)
    (fp / 8) : ℕ) = c2 at hem
  refine ⟨_, _, hem, ?_, ?_⟩
  · -- each fragment has its lengths
    have h1 := vxlanFragment_fits m desc hdr 0x2000 c1 (r := []) (n := 34 + fp)
      (show 34 ≤ 34 + fp by omega) (show fp + 70 < 2 ^ 16 by omega)
      (show fp + 70 = 36 + (34 + fp + 0) by omega) (show fp + 50 = 16 + (34 + fp + 0) by omega)
      (show fp + 20 + 14 = 34 + fp + 0 by omega)
    have h2 := vxlanFragment_fits m desc hdr (fp / 8) c2 (n := 34)
      (r := m.slice (desc + (fp + 66)) (len - fp - 66)) (Nat.le_refl 34)
      (show len - fp + 4 < 2 ^ 16 by omega)
      (show len - fp + 4 = 36 + (34 + _) by rw [length_slice]; omega)
      (show len - fp - 16 = 16 + (34 + _) by rw [length_slice]; omega)
      (show len - fp - 46 + 14 = 34 + _ by rw [length_slice]; omega)
    rw [List.append_nil] at h1
    intro h hmem
    exact ⟨h1 h hmem, h2 h hmem⟩
  · -- and the payloads, end to end, are the packet's
    have hout (total dgram : ℕ) : (m.slice desc 32 ++ vxlanHdr m hdr total dgram).length = 82 := by
      rw [List.length_append, length_slice, length_vxlanHdr]
    have h1 := drop_vxlanInner m desc (fp + 20) 0x2000 c1 (k := fp) (r := [])
      (hout (fp + 70) (fp + 50))
    have h2 := drop_vxlanInner m desc (len - fp - 46) (fp / 8) c2 (k := 0)
      (r := m.slice (desc + (fp + 66)) (len - fp - 66)) (hout (len - fp + 4) (len - fp - 16))
    rw [List.append_nil, List.append_nil, List.append_assoc] at h1
    rw [List.append_assoc] at h2
    rw [h1, h2, drop_packetAt (by omega), show len - 66 = fp + (len - fp - 66) by omega, slice_add]
    congr 1
    · exact slice_putInfo (by omega)
    · rw [slice_zero, List.nil_append, show desc + (fp + 66) = desc + 66 + fp by omega]
      exact slice_putInfo (by omega)

/-- A sent packet in two parts: headers with one length field and the
    rest, carried along. -/
theorem sendsFit_of_two (n k : ℕ) {a b i : ℕ} {hd : Header} {l r : List Byte}
    (hem : emitted t t' = [l ++ r]) (hl : l.length = a) (hr : r = q.drop b)
    (hlen : q.length = b + k)
    (hroom : 4 ≤ a) (hin : i + hd.lengthAt + 1 < a) (hword : word l (i + hd.lengthAt) = n)
    (hn : n + hd.uncounted + i = a + k) : SendsFit t t' [(hd, i)] q b a := by
  have hrlen : r.length = k := by
    rw [hr, List.length_drop, hlen]
    omega
  refine ⟨_, hem, ?_, ?_⟩
  · intro h hmem
    rcases List.mem_singleton.1 hmem with rfl
    have hfield : word (l ++ r) (i + hd.lengthAt) = n := by
      rw [word_append_left (by omega)]
      exact hword
    refine fits_of rfl hfield ?_
    rw [List.length_append, hl, hrlen]
    exact hn
  · apply carries_of_drop
    · rw [List.drop_left' hl, hr]
    · rw [List.length_append]
      omega
    · omega
    · exact hroom

/-! ## SRv6 -/

theorem srv6Encap_fit (t : Tun) (port desc : ℕ) (hudf : 41 ≤ udf ∧ udf ≤ 48)
    (hhdr : hdrOffOf (t.mem.word32 desc) = 14) (hmin : 46 ≤ len) (hmax : len < 2 ^ 16 + 32)
    (hstored : 54 ≤ t.srv6HdrLen (udf - 41) ∧ t.srv6HdrLen (udf - 41) < 256)
    (hlen : len + t.srv6HdrLen (udf - 41) < 2 ^ 16 + 100) :
    SendsFit t (tunnelSrv6 t port len desc udf).2 [(.ipv6, 46)] (packetAt t len desc) 46
      (32 + t.srv6HdrLen (udf - 41)) := by
  set hlen' := t.srv6HdrLen (udf - 41) with hh
  set m := putInfo t.mem desc port udf
  set hdr := t.bridge + (udf - 21) * 128
  have hplen : u16 ((len : ℤ) - 14 - 86 + hlen') = len + hlen' - 100 := by
    exact u16_eq (by omega) (by omega)
  -- the addresses, the stored header with its length, the inner packet
  have hem : emitted t (tunnelSrv6 t port len desc udf).2 =
      [(m.slice desc 44 ++
          (m.put16 (hdr + 0x12) (len + hlen' - 100)).slice (hdr + 12) (hlen' - 12)) ++
        m.slice (desc + 46) (len - 46)] := by
    unfold tunnelSrv6
    simp only [hhdr]
    rw [if_pos hudf, List.append_assoc]
    refine (emitted_three rfl rfl rfl rfl).trans ?_
    refine congrArg (fun l => [l])
      (congrArg₂ (fun a b => a ++ b) ?_ (congrArg₂ (fun a b => a ++ b) ?_ ?_))
    · exact plainSeg_bytes rfl rfl rfl
    · refine (listPatch_bytes [(0x12, (len : ℤ) - 14 - 86 + hlen')] rfl (by simp) rfl rfl).trans ?_
      have h1 : u16 ((hlen' : ℤ) - 12) = hlen' - 12 := by
        exact u16_eq (by omega) (by omega)
      show (m.put16 _ (u16 ((len : ℤ) - 14 - 86 + hlen'))).slice _ (u16 ((hlen' : ℤ) - 12)) = _
      rw [hplen, h1]
      rfl
    · apply plainSeg_bytes rfl rfl
      show u16 ((len : ℤ) - 46) = len - 46
      exact u16_eq (by omega) (by omega)
  -- the IPv6 length field is at 18 of the stored header
  apply sendsFit_of_two (len + hlen' - 100) (len - 46) hem
  · rw [List.length_append, length_slice, length_slice]
    omega
  · rw [drop_packetAt hmin]
    exact slice_putInfo (by omega)
  · unfold packetAt
    rw [length_slice]
    omega
  · omega
  · show 46 + 4 + 1 < _
    omega
  · show word _ 50 = _
    rw [word_append_right (by rw [length_slice]; decide), length_slice,
      word_slice _ _ (show 50 - 44 + 1 < hlen' - 12 by omega), Nat.add_assoc hdr]
    exact be16_put16_self _ _ (show len + hlen' - 100 < 2 ^ 16 by omega)
  · show len + hlen' - 100 + 40 + 46 = _
    omega

/-! ## Address mapping -/

theorem putInfo_edits (port udf : ℕ) {a n : ℕ} {e : Memory}
    (he : ∀ i, desc + a ≤ i → i < desc + a + n → e i = putInfo t.mem desc port udf i)
    (ha : 28 ≤ a) (hlen : len = a + n) :
    e.slice (desc + a) n = (packetAt t len desc).drop a := by
  rw [drop_packetAt (by omega), show len - a = n by omega]
  apply slice_congr
  intro i hi
  rw [he _ (by omega) (by omega)]
  exact putInfo_of_ne (by omega)

theorem map65_fit (t : Tun) (port desc w1 idx : ℕ) (hmin : 106 ≤ len) (hmax : len < 2 ^ 16 + 32) :
    SendsFit t (tunnelMap t port len desc 65 w1 idx).2 [(.ipv6, 46)] (packetAt t len desc) 106
      86 := by
  have hnew : u16 ((len : ℤ) - 106) = len - 106 := by
    exact u16_eq (by omega) (by omega)
  set m := (putInfo t.mem desc port 65).put16 (desc + 50) (len - 106) with hm
  set e := m.put8 (desc + 52) (m (desc + 95)).val with he
  -- the headers up to the inner one are sent, the inner one is left out
  have hem : emitted t (tunnelMap t port len desc 65 w1 idx).2 =
      [e.slice desc 86 ++ e.slice (desc + 106) (len - 106)] := by
    unfold tunnelMap
    simp only [if_pos, hnew]
    refine (emitted_two rfl rfl rfl).trans ?_
    refine congrArg (fun l => [l]) (congrArg₂ (fun a b => a ++ b) ?_ ?_)
    · exact plainSeg_bytes rfl rfl rfl
    · exact plainSeg_bytes rfl rfl hnew
  apply sendsFit_of_two (len - 106) (len - 106) hem
  · exact length_slice _ _ _
  · refine putInfo_edits port 65 ?_ (by decide) (by omega)
    intro i hi _
    rw [he, put8_of_ne _ _ (by omega), hm, put16_of_ne _ _ (by omega)]
  · unfold packetAt
    rw [length_slice]
    omega
  · decide
  · decide
  · show word _ 50 = _
    rw [word_slice _ _ (by decide), he, be16_congr (put8_of_ne _ _ (by omega))
      (put8_of_ne _ _ (by omega)), hm]
    exact be16_put16_self _ _ (show len - 106 < 2 ^ 16 by omega)
  · show len - 106 + 40 + 46 = _
    omega

theorem map66_fit (t : Tun) (port desc w1 idx : ℕ) (hmin : 110 ≤ len) (hmax : len < 2 ^ 16 + 32) :
    SendsFit t (tunnelMap t port len desc 66 w1 idx).2 [(.ipv4, 46)] (packetAt t len desc) 110
      70 := by
  have hnew : u16 ((len : ℤ) - 86) = len - 86 := by
    exact u16_eq (by omega) (by omega)
  have hseg : u16 ((len : ℤ) - 106) = 4 + (len - 110) := by
    exact u16_eq (by omega) (by omega)
  set m := (putInfo t.mem desc port 66).put16 (desc + 48) (len - 86) with hm
  set e := (m.put8 (desc + 55) (m (desc + 72)).val).put16 (desc + 108) (u16 w1) with he
  -- the inner header is left out; the ports are behind it, one rewritten
  have hem : emitted t (tunnelMap t port len desc 66 w1 idx).2 =
      [(e.slice desc 66 ++ e.slice (desc + 106) 4) ++ e.slice (desc + 110) (len - 110)] := by
    unfold tunnelMap
    rw [if_neg (by decide), if_pos rfl]
    simp only [hnew]
    rw [List.append_assoc, show desc + 110 = desc + 106 + 4 from rfl, ← slice_add]
    refine (emitted_two rfl rfl rfl).trans ?_
    refine congrArg (fun l => [l]) (congrArg₂ (fun a b => a ++ b) ?_ ?_)
    · exact plainSeg_bytes rfl rfl rfl
    · exact plainSeg_bytes rfl rfl hseg
  apply sendsFit_of_two (len - 86) (len - 110) hem
  · rw [List.length_append, length_slice, length_slice]
  · refine putInfo_edits port 66 ?_ (by decide) (by omega)
    intro i hi _
    rw [he, put16_of_ne _ _ (by omega), put8_of_ne _ _ (by omega), hm, put16_of_ne _ _ (by omega)]
  · unfold packetAt
    rw [length_slice]
    omega
  · decide
  · decide
  · show word _ 48 = _
    rw [word_append_left (by rw [length_slice]; decide), word_slice _ _ (by decide), he,
      be16_put16_of_ne _ _ (by omega), be16_congr (put8_of_ne _ _ (by omega))
      (put8_of_ne _ _ (by omega)), hm]
    exact be16_put16_self _ _ (show len - 86 < 2 ^ 16 by omega)
  · show len - 86 + 0 + 46 = _
    omega

/-- A mapped header in the scratch area: copied from the table, then its
    length and protocol written. -/
def mapHdr (m : Memory) (desc hdr src n type at1 total at2 proto : ℕ) : Memory :=
  (((m.copy hdr src n).put16 (desc + 44) type).put16 (hdr + at1) total).put8 (hdr + at2) proto

/-- `tunnel_send_replace` with a mapped header. -/
theorem tunnelSendReplace_fit {e : Memory} {hd : Header} {split n total : ℕ} (t : Tun)
    (port desc hdr : ℕ) (hsplit : 20 ≤ split) (hroom : split ≤ 44) (hmin : split + 46 ≤ len)
    (hmax : len < 2 ^ 16 + 32) (hn : hd.lengthAt + 2 ≤ n) (hn' : n < 2 ^ 16)
    (hword : e.be16 (hdr + hd.lengthAt) = total)
    (htotal : total + hd.uncounted + split = n + (len - 46))
    (hkeep : e.slice (desc + (split + 46)) (len - (split + 46)) =
      (packetAt t len desc).drop (split + 46)) :
    SendsFit t (tunnelSendReplace { t with mem := e } port desc len 14 split hdr n) [(hd, 46)]
      (packetAt t len desc) (split + 46) (46 + n) := by
  have hat := hd.lengthAt_le
  -- the descriptor and the addresses, the mapped header, the rest
  have hem : emitted t (tunnelSendReplace { t with mem := e } port desc len 14 split hdr n) =
      [(e.slice desc 46 ++ e.slice hdr n) ++
        e.slice (desc + (split + 46)) (len - (split + 46))] := by
    rw [List.append_assoc]
    refine (emitted_three rfl rfl rfl rfl).trans ?_
    refine congrArg (fun l => [l])
      (congrArg₂ (fun a b => a ++ b) ?_ (congrArg₂ (fun a b => a ++ b) ?_ ?_))
    · exact plainSeg_bytes rfl rfl rfl
    · apply plainSeg_bytes rfl rfl
      exact u16_natCast_of_lt hn'
    · apply plainSeg_bytes rfl
      · show desc + u16 (((split % 2 ^ 16 : ℕ) : ℤ) + 32 + ((14 % 2 ^ 16 : ℕ) : ℤ)) = _
        unfold u16
        omega
      · show u16 ((len : ℤ) - ((split % 2 ^ 16 : ℕ) : ℤ) - 32 - ((14 % 2 ^ 16 : ℕ) : ℤ)) = _
        exact u16_eq (by omega) (by omega)
  apply sendsFit_of_two total (len - (split + 46)) hem
  · rw [List.length_append, length_slice, length_slice]
  · exact hkeep
  · unfold packetAt
    rw [length_slice]
    omega
  · omega
  · omega
  · rw [word_append_right (by rw [length_slice]; omega), length_slice,
      word_slice _ _ (show 46 + hd.lengthAt - 46 + 1 < n by omega),
      show 46 + hd.lengthAt - 46 = hd.lengthAt by omega]
    exact hword
  · omega

/-- A mapped header's length, and the packet it leaves alone. -/
theorem mapHdr_spec (t : Tun) (port udf desc hdr src type total proto : ℕ) {n at1 at2 start : ℕ}
    (htotal : total < 2 ^ 16) (hat : at1 + 1 < at2 ∧ at2 < 40) (hn : n ≤ 40) (hstart : 46 ≤ start)
    (hlen : start ≤ len) (hapart : Apart hdr 40 desc len) :
    (mapHdr (putInfo t.mem desc port udf) desc hdr src n type at1 total at2 proto).be16
        (hdr + at1) = total ∧
      (mapHdr (putInfo t.mem desc port udf) desc hdr src n type at1 total at2 proto).slice
          (desc + start) (len - start) = (packetAt t len desc).drop start := by
  unfold Apart at hapart
  constructor
  · unfold mapHdr
    rw [be16_congr (put8_of_ne _ _ (by omega)) (put8_of_ne _ _ (by omega))]
    exact be16_put16_self _ _ htotal
  · refine putInfo_edits port udf ?_ (by omega) (by omega)
    intro i hi hlt
    unfold mapHdr
    rw [put8_of_ne _ _ (by omega), put16_of_ne _ _ (by omega), put16_of_ne _ _ (by omega)]
    exact copy_of_outside _ (by omega)

theorem map67_fit (t : Tun) (port desc w1 idx : ℕ) (hmin : 66 ≤ len) (hmax : len < 2 ^ 16 + 32)
    (hapart : Apart (t.bridge + 0xE80) 40 desc len) :
    SendsFit t (tunnelMap t port len desc 67 w1 idx).2 [(.ipv6, 46)] (packetAt t len desc) 66
      86 := by
  have hnew : u16 ((len : ℤ) - 66) = len - 66 := by
    exact u16_eq (by omega) (by omega)
  unfold tunnelMap
  rw [if_neg (by decide), if_neg (by decide), if_pos rfl]
  simp only [hnew]
  generalize hproto : Fin.val _ = proto
  obtain ⟨hword, hkeep⟩ := mapHdr_spec t port 67 desc (t.bridge + 0xE80)
    (t.mapInfoBase + 40 * idx) 0x86DD (len - 66) proto (n := 40) (show len - 66 < 2 ^ 16 by omega)
    (show 4 + 1 < 6 ∧ 6 < 40 by decide) (Nat.le_refl 40) (show 46 ≤ 66 by decide) hmin hapart
  have htotal : len - 66 + Header.ipv6.uncounted + 20 = 40 + (len - 46) := by
    show len - 66 + 40 + 20 = 40 + (len - 46)
    omega
  rw [show 4 = Header.ipv6.lengthAt from rfl] at hword
  exact tunnelSendReplace_fit t port desc _ (Nat.le_refl 20) (by decide) hmin hmax (by decide)
    (by decide) hword htotal hkeep

theorem map68_fit (t : Tun) (port desc w1 idx : ℕ) (hudf : udf ≠ 65 ∧ udf ≠ 66 ∧ udf ≠ 67)
    (hmin : 90 ≤ len) (hmax : len < 2 ^ 16 + 32) (hapart : Apart (t.bridge + 0xE80) 40 desc len) :
    SendsFit t (tunnelMap t port len desc udf w1 idx).2 [(.ipv4, 46)] (packetAt t len desc) 90
      70 := by
  have hnew : u16 ((len : ℤ) - 66) = len - 66 := by
    exact u16_eq (by omega) (by omega)
  unfold tunnelMap
  rw [if_neg hudf.1, if_neg hudf.2.1, if_neg hudf.2.2]
  simp only [hnew]
  generalize hproto : Fin.val _ = proto
  obtain ⟨hword, hkeep⟩ := mapHdr_spec t port udf desc (t.bridge + 0xE80)
    (t.mapInfoBase + 40 * idx) 0x0800 (len - 66) proto (n := 24) (show len - 66 < 2 ^ 16 by omega)
    (show 2 + 1 < 9 ∧ 9 < 40 by decide) (by decide) (show 46 ≤ 90 by decide) hmin hapart
  have htotal : len - 66 + Header.ipv4.uncounted + 44 = 24 + (len - 46) := by
    show len - 66 + 0 + 44 = 24 + (len - 46)
    omega
  rw [show 2 = Header.ipv4.lengthAt from rfl] at hword
  exact tunnelSendReplace_fit t port desc _ (show 20 ≤ 44 by decide) (Nat.le_refl 44) hmin hmax
    (by decide) (by decide) hword htotal hkeep

/-! ## All operations -/

/-- In what the VXLAN and SRv6 encapsulations and the address mappings
    send, the headers they write or rewrite fit, and the headers they
    carry along fit as before. A packet that VXLAN splits is an IPv4
    packet in two fragments: what is behind its IPv4 header is split
    between them. -/
theorem lengths_fit (t : Tun) (port len desc udf w1 idx : ℕ) (hmax : len < 2 ^ 16 + 32) :
    (1 ≤ udf ∧ udf ≤ 20 → 32 ≤ len → len + 4 < 2 ^ 16 → len + 4 ≤ t.encapMtu →
      SendsFit t (tunnelVxlan t port len desc udf).2 [(.ipv4, 46), (.udp, 66)]
        (packetAt t len desc) 32 82) ∧
    (1 ≤ udf ∧ udf ≤ 20 → len + 4 < 2 ^ 16 → t.encapMtu < len + 4 → 70 ≤ t.encapMtu →
      SplitsFit t (tunnelVxlan t port len desc udf).2 [(.ipv4, 46), (.udp, 66), (.ipv4, 96)]
        (packetAt t len desc) 66 116) ∧
    (41 ≤ udf ∧ udf ≤ 48 → hdrOffOf (t.mem.word32 desc) = 14 → 46 ≤ len →
      54 ≤ t.srv6HdrLen (udf - 41) ∧ t.srv6HdrLen (udf - 41) < 256 →
      len + t.srv6HdrLen (udf - 41) < 2 ^ 16 + 100 →
      SendsFit t (tunnelSrv6 t port len desc udf).2 [(.ipv6, 46)] (packetAt t len desc) 46
        (32 + t.srv6HdrLen (udf - 41))) ∧
    (106 ≤ len → SendsFit t (tunnelMap t port len desc 65 w1 idx).2 [(.ipv6, 46)]
      (packetAt t len desc) 106 86) ∧
    (110 ≤ len → SendsFit t (tunnelMap t port len desc 66 w1 idx).2 [(.ipv4, 46)]
      (packetAt t len desc) 110 70) ∧
    (66 ≤ len → Apart (t.bridge + 0xE80) 40 desc len →
      SendsFit t (tunnelMap t port len desc 67 w1 idx).2 [(.ipv6, 46)]
        (packetAt t len desc) 66 86) ∧
    (90 ≤ len → Apart (t.bridge + 0xE80) 40 desc len →
      SendsFit t (tunnelMap t port len desc 68 w1 idx).2 [(.ipv4, 46)]
        (packetAt t len desc) 90 70) := by
  refine ⟨?_, ?_, ?_, ?_, ?_, ?_, ?_⟩
  · intro hudf hmin hlen hmtu
    exact tunnelVxlan_fit t port desc hudf hmtu hmin hlen
  · intro hudf hlen hmtu hmin
    exact tunnelVxlan_splitFit t port desc hudf hmtu hmin hlen
  · intro hudf hhdr hmin hstored hlen
    exact srv6Encap_fit t port desc hudf hhdr hmin hmax hstored hlen
  · intro hmin
    exact map65_fit t port desc w1 idx hmin hmax
  · intro hmin
    exact map66_fit t port desc w1 idx hmin hmax
  · intro hmin hapart
    exact map67_fit t port desc w1 idx hmin hmax hapart
  · intro hmin hapart
    exact map68_fit t port desc w1 idx (by decide) hmin hmax hapart

/-- An offload with one UDP packet of 58 bytes at 0x1000, and an
    encapsulation MTU. -/
def oneDatagram (mtu : ℕ) : Tun where
  mem := (((((blankMem.put32 0x1000 (14 * 2 ^ 20 + 2 ^ 27 + 58)).put8 (0x1000 + 46) 0x45).put8
    (0x1000 + 55) 17).put16 (0x1000 + 48) 44).put16 (0x1000 + 70) 24)
  credit _ := true
  calls := 0
  log := []
  bridge := 0x100000
  encapMtu := mtu
  srv6HdrLen _ := 54
  mapInfoBase := 0x200000
  ipv6FragId := 0
  v4FragInfo := 0
  v4Reasm := ⟨0, 0, 0⟩
  v6Reasm := ⟨0, 0, 0⟩

/-- The packet encapsulated whole, split, with SRv6, and a longer one
    mapped. -/
theorem lengths_fit_oneDatagram :
    SendsFit (oneDatagram 1500) (tunnelVxlan (oneDatagram 1500) 0 90 0x1000 1).2
        [(.ipv4, 46), (.udp, 66)] (packetAt (oneDatagram 1500) 90 0x1000) 32 82 ∧
      SplitsFit (oneDatagram 78) (tunnelVxlan (oneDatagram 78) 0 90 0x1000 1).2
        [(.ipv4, 46), (.udp, 66), (.ipv4, 96)] (packetAt (oneDatagram 78) 90 0x1000) 66 116 ∧
      SendsFit (oneDatagram 78) (tunnelSrv6 (oneDatagram 78) 0 90 0x1000 41).2 [(.ipv6, 46)]
        (packetAt (oneDatagram 78) 90 0x1000) 46 86 ∧
      SendsFit (oneDatagram 78) (tunnelMap (oneDatagram 78) 0 110 0x1000 65 0 0).2 [(.ipv6, 46)]
        (packetAt (oneDatagram 78) 110 0x1000) 106 86 ∧
      SendsFit (oneDatagram 78) (tunnelMap (oneDatagram 78) 0 110 0x1000 66 0 0).2 [(.ipv4, 46)]
        (packetAt (oneDatagram 78) 110 0x1000) 110 70 ∧
      SendsFit (oneDatagram 78) (tunnelMap (oneDatagram 78) 0 110 0x1000 67 0 0).2 [(.ipv6, 46)]
        (packetAt (oneDatagram 78) 110 0x1000) 66 86 ∧
      SendsFit (oneDatagram 78) (tunnelMap (oneDatagram 78) 0 110 0x1000 68 0 0).2 [(.ipv4, 46)]
        (packetAt (oneDatagram 78) 110 0x1000) 90 70 := by
  have hapart : Apart ((oneDatagram 78).bridge + 0xE80) 40 0x1000 110 := by
    right
    decide
  have hhdr : hdrOffOf ((oneDatagram 78).mem.word32 0x1000) = 14 := by decide +kernel
  obtain ⟨hwhole, -⟩ := lengths_fit (oneDatagram 1500) 0 90 0x1000 1 0 0 (by decide)
  obtain ⟨-, hsplit, -⟩ := lengths_fit (oneDatagram 78) 0 90 0x1000 1 0 0 (by decide)
  obtain ⟨-, -, hsrv6, -⟩ := lengths_fit (oneDatagram 78) 0 90 0x1000 41 0 0 (by decide)
  obtain ⟨-, -, -, h65, h66, h67, h68⟩ := lengths_fit (oneDatagram 78) 0 110 0x1000 65 0 0
    (by decide)
  refine ⟨?_, ?_, ?_, h65 (by decide), h66 (by decide), h67 (by decide) hapart,
    h68 (by decide) hapart⟩
  · exact hwhole (by decide) (by decide) (by decide) (by decide)
  · exact hsplit (by decide) (by decide) (by decide) (by decide)
  · exact hsrv6 (by decide) hhdr (by decide) (by decide) (by decide)

/-- The first packet of a split has the UDP length of the whole inner
    packet. -/
theorem split_udp_whole :
    ¬∀ (t : Tun) (port len desc udf : ℕ), 1 ≤ udf ∧ udf ≤ 20 → len + 4 < 2 ^ 16 →
      t.encapMtu < len + 4 → 70 ≤ t.encapMtu → Fits (packetAt t len desc) .ipv4 46 →
        Fits (packetAt t len desc) .udp 66 →
          Fits ((emitted t (tunnelVxlan t port len desc udf).2).getD 0 []) .udp 116 := by
  intro hall
  have hfits := hall (oneDatagram 78) 0 90 0x1000 1 (by decide) (by decide) (by decide) (by decide)
    (by decide +kernel) (by decide +kernel)
  exact absurd hfits (by decide +kernel)

end ClankerNPU.Tunnel
