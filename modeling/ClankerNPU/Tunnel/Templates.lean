import ClankerNPU.Lib.StepSystem
import ClankerNPU.Tunnel.Lengths

/-! # Encapsulation templates

    The host stores VXLAN and SRv6 headers in 128-byte places behind the
    packet buffers, 20 of one kind and 8 of the other; the scratch
    headers for fragments and MAP follow. Mails, packets and whatever
    else the host does may come in any order. -/

namespace ClankerNPU.Tunnel

open Memory

variable {t t' : Tun} {m m' : Memory} {port len desc udf i : ℕ} {b : List Byte}

/-! ## What an operation leaves alone -/

/-- The templates and the fragment scratch, from `npu_bridge_addr()` on. -/
def hdrArea : ℕ := 0xE80

/-- A held packet's headers lie before the templates. -/
structure Held (t : Tun) : Prop where
  v4 : t.v4Reasm.desc + t.v4Reasm.hdroff + 128 ≤ t.bridge
  v6 : t.v6Reasm.desc + t.v6Reasm.hdroff + 128 ≤ t.bridge

/-- The templates are as before. -/
structure Keeps (t t' : Tun) : Prop where
  bridge : t'.bridge = t.bridge
  hdrLen : t'.srv6HdrLen = t.srv6HdrLen
  mem : SameOn t.bridge (t.bridge + hdrArea) t.mem t'.mem
  held : Held t → Held t'

/-- A change of memory away from the templates. -/
theorem keeps_of (hbridge : t'.bridge = t.bridge) (hlen : t'.srv6HdrLen = t.srv6HdrLen)
    (hmem : SameOn t.bridge (t.bridge + hdrArea) t.mem t'.mem) (h4 : t'.v4Reasm = t.v4Reasm)
    (h6 : t'.v6Reasm = t.v6Reasm) : Keeps t t' := by
  refine ⟨hbridge, hlen, hmem, fun h => ⟨?_, ?_⟩⟩
  · rw [h4, hbridge]
    exact h.v4
  · rw [h6, hbridge]
    exact h.v6

theorem Keeps.trans {t1 t2 t3 : Tun} (h : Keeps t1 t2) (h' : Keeps t2 t3) : Keeps t1 t3 := by
  refine ⟨h'.bridge.trans h.bridge, h'.hdrLen.trans h.hdrLen, ?_, fun hh => h'.held (h.held hh)⟩
  intro a hlo hhi
  have hnext := h'.mem a (by rw [h.bridge]; exact hlo) (by rw [h.bridge]; exact hhi)
  exact hnext.trans (h.mem a hlo hhi)

/-- The templates are as before an operation. -/
def KeepsRes (t : Tun) (res : ℤ × Tun) : Prop := Keeps t res.2

theorem hdrOffOf_lt (w : ℕ) : hdrOffOf w < 128 := Nat.mod_lt _ (by decide)

theorem sameOn_putInfo {lo hi : ℕ} (hdesc : desc + 28 ≤ lo) :
    SameOn lo hi m (putInfo m desc port udf) :=
  fun _ hlo _ => putInfo_of_ne (by omega)

theorem keeps_sendSplit (t : Tun) (port addr fwd len split : ℕ) :
    Keeps t (tunnelSendSplit t port addr fwd len split).2 := by
  unfold tunnelSendSplit
  dsimp only
  split_ifs
  all_goals exact keeps_of rfl rfl (SameOn.refl _ _ _) rfl rfl

/-- A packet changed and sent. -/
theorem keeps_changed_sendSplit (hmem : SameOn t.bridge (t.bridge + hdrArea) t.mem m)
    (port addr fwd len split : ℕ) :
    Keeps t (tunnelSendSplit { t with mem := m } port addr fwd len split).2 := by
  have hchanged : Keeps t { t with mem := m } := keeps_of rfl rfl hmem rfl rfl
  exact hchanged.trans (keeps_sendSplit _ _ _ _ _ _)

theorem keeps_vxlan (t : Tun) (port len udf : ℕ) (hdesc : desc + 256 ≤ t.bridge) :
    KeepsRes t (tunnelVxlan t port len desc udf) := by
  have hmem : SameOn t.bridge (t.bridge + hdrArea) t.mem (putInfo t.mem desc port udf) :=
    sameOn_putInfo (by omega)
  unfold tunnelVxlan
  split_ifs
  · exact keeps_changed_sendSplit hmem _ _ _ _ _
  · exact keeps_of rfl rfl hmem rfl rfl
  · exact keeps_of rfl rfl hmem rfl rfl

theorem keeps_srv6End (t : Tun) (port len udf : ℕ) {hdrOff : ℕ} (hoff : hdrOff < 128)
    (hdesc : desc + 256 ≤ t.bridge) :
    KeepsRes t (srv6End t port len desc udf hdrOff) := by
  have hmem : SameOn t.bridge (t.bridge + hdrArea) t.mem (putInfo t.mem desc port udf) :=
    sameOn_putInfo (by omega)
  unfold srv6End
  dsimp only
  split_ifs
  · exact keeps_of rfl rfl hmem rfl rfl
  · exact keeps_of rfl rfl hmem rfl rfl
  -- the next segment becomes the destination
  · exact keeps_changed_sendSplit
      ((hmem.copy _ _ 16 (.inl (by omega))).put8 _ _ (.inl (by omega))) _ _ _ _ _
  · exact keeps_of rfl rfl (((hmem.copy _ _ 16 (.inl (by omega))).put8 _ _
      (.inl (by omega))).put16 _ _ (.inl (by omega))) rfl rfl

theorem keeps_srv6 (t : Tun) (port len udf : ℕ) (hdesc : desc + 256 ≤ t.bridge) :
    KeepsRes t (tunnelSrv6 t port len desc udf) := by
  have hmem : SameOn t.bridge (t.bridge + hdrArea) t.mem (putInfo t.mem desc port udf) :=
    sameOn_putInfo (by omega)
  unfold tunnelSrv6
  generalize t.mem.word32 desc = w0
  dsimp only
  split_ifs
  · exact keeps_of rfl rfl hmem rfl rfl
  · exact keeps_srv6End t port len udf (hdrOffOf_lt _) hdesc
  · exact keeps_of rfl rfl (SameOn.refl _ _ _) rfl rfl

/-- The MAP scratch lies behind the templates. -/
theorem keeps_map (t : Tun) (port len udf w1 idx : ℕ) (hdesc : desc + 256 ≤ t.bridge) :
    KeepsRes t (tunnelMap t port len desc udf w1 idx) := by
  have hmem : SameOn t.bridge (t.bridge + hdrArea) t.mem (putInfo t.mem desc port udf) :=
    sameOn_putInfo (by omega)
  have harea : hdrArea = 0xE80 := rfl
  unfold tunnelMap
  dsimp only
  split_ifs
  · exact keeps_of rfl rfl ((hmem.put16 _ _ (.inl (by omega))).put8 _ _ (.inl (by omega))) rfl rfl
  · exact keeps_of rfl rfl (((hmem.put16 _ _ (.inl (by omega))).put8 _ _ (.inl (by omega))).put16
      _ _ (.inl (by omega))) rfl rfl
  · exact keeps_of rfl rfl ((((hmem.copy _ _ _ (.inr (by omega))).put16 _ _
      (.inl (by omega))).put16 _ _ (.inr (by omega))).put8 _ _ (.inr (by omega))) rfl rfl
  · exact keeps_of rfl rfl ((((hmem.copy _ _ _ (.inr (by omega))).put16 _ _
      (.inl (by omega))).put16 _ _ (.inr (by omega))).put8 _ _ (.inr (by omega))) rfl rfl

theorem keeps_fragV4 (t : Tun) (port len mtu hdrOff : ℕ) (hdesc : desc + 256 ≤ t.bridge) :
    KeepsRes t (fragV4 t port len desc mtu hdrOff) := by
  have hmem : SameOn t.bridge (t.bridge + hdrArea) t.mem
      (t.mem.put32 desc (port % 32 * 16 + t.v4FragInfo)) :=
    (SameOn.refl _ _ _).put32 _ _ (.inl (by omega))
  exact keeps_of rfl rfl hmem rfl rfl

theorem keeps_fragV6 (t : Tun) (port len mtu : ℕ) {hdrOff : ℕ} (hoff : hdrOff < 128)
    (hdesc : desc + 256 ≤ t.bridge) : KeepsRes t (fragV6 t port len desc mtu hdrOff) := by
  have hmem : SameOn t.bridge (t.bridge + hdrArea) t.mem
      ((t.mem.put32 desc (port % 32 * 16 + 0x200)).put8 (desc + hdrOff + 38) 44) :=
    ((SameOn.refl _ _ _).put32 _ _ (.inl (by omega))).put8 _ _ (.inl (by omega))
  exact keeps_of rfl rfl hmem rfl rfl

theorem keeps_fragment (t : Tun) (port len : ℕ) (hdesc : desc + 256 ≤ t.bridge) :
    KeepsRes t (tunnelFragment t port len desc) := by
  unfold tunnelFragment
  -- the words read are of no interest
  generalize t.mem.word32 desc = w0
  generalize t.mem.word32 (desc + 16) = w4
  dsimp only
  split_ifs
  · exact keeps_of rfl rfl (SameOn.refl _ _ _) rfl rfl
  · exact keeps_fragV4 t port len _ _ hdesc
  · exact keeps_fragV6 t port len _ (hdrOffOf_lt _) hdesc
  · exact keeps_of rfl rfl (SameOn.refl _ _ _) rfl rfl

/-- A packet may be held, or let go. -/
theorem keeps_reasmV4 (t : Tun) (port len : ℕ) {hdrOff : ℕ} (hoff : hdrOff < 128)
    (hdesc : desc + 256 ≤ t.bridge) (hheld : Held t) :
    KeepsRes t (reasmV4 t port len desc hdrOff) := by
  have h4 := hheld.v4
  have hmem : SameOn t.bridge (t.bridge + hdrArea) t.mem
      (t.mem.put32 desc (port % 32 * 16 + t.v4FragInfo)) :=
    (SameOn.refl _ _ _).put32 _ _ (.inl (by omega))
  unfold reasmV4
  dsimp only
  split_ifs
  · refine Keeps.mk rfl rfl (hmem.put16 _ _ (.inl (by omega))) fun h => ⟨?_, h.v6⟩
    show desc + hdrOff + 128 ≤ t.bridge
    omega
  · refine Keeps.mk rfl rfl (hmem.put16 _ _ (.inl (by omega))) fun h => ⟨?_, h.v6⟩
    show desc + hdrOff + 128 ≤ t.bridge
    omega
  · exact keeps_of rfl rfl hmem rfl rfl
  · exact keeps_of rfl rfl hmem rfl rfl
  · exact keeps_of rfl rfl hmem rfl rfl
  · refine Keeps.mk rfl rfl (hmem.put16 _ _ (.inl (by omega))) fun h => ⟨?_, h.v6⟩
    show 0 + 0 + 128 ≤ t.bridge
    omega

theorem keeps_reasmV6 (t : Tun) (port len : ℕ) {hdrOff : ℕ} (hoff : hdrOff < 128)
    (hdesc : desc + 256 ≤ t.bridge) (hheld : Held t) :
    KeepsRes t (reasmV6 t port len desc hdrOff) := by
  have h6 := hheld.v6
  have hmem : SameOn t.bridge (t.bridge + hdrArea) t.mem
      (t.mem.put32 desc (port % 32 * 16 + 0x200)) :=
    (SameOn.refl _ _ _).put32 _ _ (.inl (by omega))
  unfold reasmV6
  dsimp only
  split_ifs
  · exact keeps_of rfl rfl hmem rfl rfl
  · refine Keeps.mk rfl rfl (hmem.put8 _ _ (.inl (by omega))) fun h => ⟨h.v4, ?_⟩
    show desc + hdrOff + 128 ≤ t.bridge
    omega
  · refine Keeps.mk rfl rfl (hmem.put8 _ _ (.inl (by omega))) fun h => ⟨h.v4, ?_⟩
    show desc + hdrOff + 128 ≤ t.bridge
    omega
  · exact keeps_of rfl rfl hmem rfl rfl
  · exact keeps_of rfl rfl hmem rfl rfl
  · exact keeps_of rfl rfl hmem rfl rfl
  · refine Keeps.mk rfl rfl (hmem.put16 _ _ (.inl (by omega))) fun h => ⟨h.v4, ?_⟩
    show 0 + 0 + 128 ≤ t.bridge
    omega

theorem keeps_reassemble (t : Tun) (port len : ℕ) (hdesc : desc + 256 ≤ t.bridge)
    (hheld : Held t) : KeepsRes t (tunnelReassemble t port len desc) := by
  unfold tunnelReassemble
  generalize t.mem.word32 desc = w0
  dsimp only
  split_ifs
  · exact keeps_reasmV4 t port len (hdrOffOf_lt _) hdesc hheld
  · exact keeps_reasmV6 t port len (hdrOffOf_lt _) hdesc hheld
  · exact keeps_of rfl rfl (SameOn.refl _ _ _) rfl rfl

/-- No operation writes into the templates. -/
theorem keeps_offload (t : Tun) (port len : ℕ) (hdesc : desc + 256 ≤ t.bridge) (hheld : Held t) :
    KeepsRes t (tunnelOffloadHandler t port len desc) := by
  unfold tunnelOffloadHandler
  generalize t.mem.word32 (desc + 4) = w1
  generalize t.mem.word32 (desc + 16) = w4
  dsimp only
  split_ifs
  · exact keeps_fragment t port len hdesc
  · exact keeps_reassemble t port len hdesc hheld
  · exact keeps_vxlan t port len _ hdesc
  · exact keeps_srv6 t port len _ hdesc
  · exact keeps_map t port len _ _ _ hdesc
  · exact keeps_of rfl rfl (SameOn.refl _ _ _) rfl rfl

/-! ## What an encapsulation sends -/

/-- Bytes sent for stored ones; only the length words differ. -/
structure SentAs (words : List ℕ) (b sent : List Byte) : Prop where
  length : sent.length = b.length
  bytes : ∀ k, (∀ w ∈ words, k ≠ w ∧ k ≠ w + 1) → sent[k]? = b[k]?

/-- A packet with a header out of the templates: the rest comes from its
    own buffer. -/
def CarriesHdr (l : List Egress) (desc hdr : ℕ) (words : List ℕ) (b : List Byte) : Prop :=
  (∃ e ∈ l, e.seg.addr = hdr) ∧
    ∀ e ∈ l, e.seg.addr = desc ∨ e.seg.addr = hdr ∧ SentAs words b e.bytes

theorem foldl_put16_of_ne (base : ℕ) (ps : List (ℕ × ℤ)) {a : ℕ}
    (h : ∀ p ∈ ps, a ≠ base + p.1 ∧ a ≠ base + p.1 + 1) (m : Memory) :
    ps.foldl (fun m p => m.put16 (base + p.1) (u16 p.2)) m a = m a := by
  induction ps generalizing m with
  | nil => rfl
  | cons p ps ih =>
    obtain ⟨hp, hps⟩ := List.forall_mem_cons.mp h
    rw [List.foldl_cons, ih hps, put16_of_ne _ _ hp]

/-- A segment with patches sends what is in memory but for the words
    patched. -/
theorem sentAs_patched {g : Seg} (ps : List (ℕ × ℤ)) {words : List ℕ}
    (hg : g.patches = (ps.map fun p => patch p.1 p.2).filterMap id)
    (hps : ∀ p ∈ ps, p.1 < 2 ^ 14) (hwords : ∀ p ∈ ps, ∃ w ∈ words, p.1 = g.off + w)
    (hsrc : m.slice (g.addr + g.off) g.len = b) : SentAs words b (g.bytes m) := by
  rw [listPatch_bytes ps hg hps rfl rfl]
  subst hsrc
  refine ⟨by rw [length_slice, length_slice], ?_⟩
  intro k hk
  rcases Nat.lt_or_ge k g.len with hlt | hge
  · rw [getElem?_slice _ _ hlt, getElem?_slice _ _ hlt, foldl_put16_of_ne]
    intro p hp
    obtain ⟨w, hw, hpw⟩ := hwords p hp
    have hne := hk w hw
    omega
  · rw [List.getElem?_eq_none (by rw [length_slice]; exact hge),
      List.getElem?_eq_none (by rw [length_slice]; exact hge)]

/-- Descriptor, header, rest. -/
theorem carries_three {g1 g2 g3 : Seg} {o1 o2 o3 : Bool} {b1 b2 b3 : List Byte} {hdr : ℕ}
    {words : List ℕ}
    (h : t'.log = t.log ++ [⟨g1, o1, b1⟩] ++ [⟨g2, o2, b2⟩] ++ [⟨g3, o3, b3⟩])
    (h1 : g1.addr = desc) (h2 : g2.addr = hdr) (h3 : g3.addr = desc)
    (hsent : SentAs words b b2) : CarriesHdr (offered t t') desc hdr words b := by
  simp only [List.append_assoc] at h
  rw [offered_append h]
  refine ⟨⟨⟨g2, o2, b2⟩, by simp, h2⟩, ?_⟩
  intro e he
  simp only [List.cons_append, List.nil_append, List.mem_cons, List.not_mem_nil, or_false] at he
  rcases he with rfl | rfl | rfl
  · exact .inl h1
  · exact .inr ⟨h2, hsent⟩
  · exact .inl h3

/-- Descriptor, header and data, twice; the second packet's data are in
    two pieces. -/
theorem carries_seven {g1 g2 g3 g4 g5 g6 g7 : Seg} {o1 o2 o3 o4 o5 o6 o7 : Bool}
    {b1 b2 b3 b4 b5 b6 b7 : List Byte} {hdr : ℕ} {words : List ℕ}
    (h : t'.log = t.log ++ [⟨g1, o1, b1⟩] ++ [⟨g2, o2, b2⟩] ++ [⟨g3, o3, b3⟩] ++ [⟨g4, o4, b4⟩] ++
      [⟨g5, o5, b5⟩] ++ [⟨g6, o6, b6⟩] ++ [⟨g7, o7, b7⟩])
    (h1 : g1.addr = desc) (h2 : g2.addr = hdr) (h3 : g3.addr = desc) (h4 : g4.addr = desc)
    (h5 : g5.addr = hdr) (h6 : g6.addr = desc) (h7 : g7.addr = desc)
    (hsent : SentAs words b b2) (hsent' : SentAs words b b5) :
    CarriesHdr (offered t t') desc hdr words b := by
  simp only [List.append_assoc] at h
  rw [offered_append h]
  refine ⟨⟨⟨g2, o2, b2⟩, by simp, h2⟩, ?_⟩
  intro e he
  simp only [List.cons_append, List.nil_append, List.mem_cons, List.not_mem_nil, or_false] at he
  rcases he with rfl | rfl | rfl | rfl | rfl | rfl | rfl
  · exact .inl h1
  · exact .inr ⟨h2, hsent⟩
  · exact .inl h3
  · exact .inl h4
  · exact .inr ⟨h5, hsent'⟩
  · exact .inl h6
  · exact .inl h7

/-- The length words of a VXLAN header. -/
def vxlanWords : List ℕ := [0x10, 0x26]

/-- The length word of an SRv6 header, whose first 12 bytes are not sent. -/
def srv6Words : List ℕ := [6]

theorem vxlan_carries (t : Tun) (port len : ℕ) (hi : i < 20) (hdesc : desc + 256 ≤ t.bridge)
    (hb : t.mem.slice (t.bridge + i * 128) 50 = b) :
    CarriesHdr (offered t (tunnelVxlan t port len desc (i + 1)).2) desc (t.bridge + i * 128)
      vxlanWords b := by
  have hsrc : (putInfo t.mem desc port (i + 1)).slice (t.bridge + i * 128) 50 = b := by
    rw [slice_putInfo (by omega), hb]
  have hwords : ∀ x y : ℤ, ∀ p ∈ [(0x10, x), (0x26, y)], ∃ w ∈ vxlanWords, p.1 = 0 + w := by
    intro x y p hp
    refine ⟨p.1, ?_, (Nat.zero_add _).symm⟩
    rcases List.mem_pair.mp hp with rfl | rfl
    · exact List.mem_cons_self
    · exact List.mem_cons_of_mem _ List.mem_cons_self
  have hsmall : ∀ x y : ℤ, ∀ p ∈ [(0x10, x), (0x26, y)], p.1 < 2 ^ 14 := by
    intro x y p hp
    rcases List.mem_pair.mp hp with rfl | rfl
    · show 0x10 < 2 ^ 14
      decide
    · show 0x26 < 2 ^ 14
      decide
  unfold tunnelVxlan
  rw [if_neg (by omega)]
  split_ifs
  · exact carries_three rfl rfl rfl rfl
      (sentAs_patched [(0x10, (len : ℤ) + 4), (0x26, (len : ℤ) - 16)] rfl (hsmall _ _)
        (hwords _ _) hsrc)
  · refine carries_seven rfl rfl rfl rfl rfl rfl rfl rfl ?_ ?_
    · exact sentAs_patched [(0x10, _), (0x26, _)] rfl (hsmall _ _) (hwords _ _) hsrc
    · exact sentAs_patched [(0x10, _), (0x26, _)] rfl (hsmall _ _) (hwords _ _) hsrc

theorem srv6_carries (t : Tun) (port len : ℕ) (hi : i < 8) (hdesc : desc + 256 ≤ t.bridge)
    (hlen : t.srv6HdrLen i = b.length) (hlo : 12 ≤ b.length) (hhi : b.length ≤ 128)
    (hb : t.mem.slice (t.bridge + (i + 20) * 128) b.length = b) :
    CarriesHdr (offered t (tunnelSrv6 t port len desc (41 + i)).2) desc
      (t.bridge + (i + 20) * 128) srv6Words (b.drop 12) := by
  have hudf : 41 + i - 41 = i := by omega
  have hplace : 41 + i - 21 = i + 20 := by omega
  have hoff : u16 12 = 12 := by
    unfold u16
    omega
  have hrest : u16 ((b.length : ℤ) - 12) = b.length - 12 := by
    unfold u16
    omega
  have hsrc : (putInfo t.mem desc port (41 + i)).slice (t.bridge + (i + 20) * 128 + 12)
      (b.length - 12) = b.drop 12 := by
    rw [slice_putInfo (by omega), ← drop_slice, show 12 + (b.length - 12) = b.length by omega, hb]
  have hone : ∀ x : ℤ, ∀ p ∈ [(0x12, x)], ∃ w ∈ srv6Words, p.1 = u16 12 + w := by
    intro x p hp
    rw [List.mem_singleton.mp hp, hoff]
    exact ⟨6, List.mem_cons_self, rfl⟩
  have hsmall : ∀ x : ℤ, ∀ p ∈ [(0x12, x)], p.1 < 2 ^ 14 := by
    intro x p hp
    rw [List.mem_singleton.mp hp]
    show 0x12 < 2 ^ 14
    decide
  unfold tunnelSrv6
  dsimp only
  rw [if_pos (by omega)]
  unfold srv6Encap
  dsimp only
  rw [hudf, hplace, hlen]
  refine carries_three rfl rfl rfl rfl (sentAs_patched [(0x12, _)] rfl (hsmall _) (hone _) ?_)
  show (putInfo t.mem desc port (41 + i)).slice (t.bridge + (i + 20) * 128 + u16 12)
    (u16 ((b.length : ℤ) - 12)) = b.drop 12
  rw [hoff, hrest, hsrc]

/-! ## Runs -/

/-- The tunnel with what the host stored last. -/
structure Templates where
  tun : Tun
  /-- by VXLAN template -/
  vxlan : ℕ → Option (List Byte)
  /-- by SRv6 template -/
  srv6 : ℕ → Option (List Byte)

inductive TemplateAction where
  /-- a mail stores a VXLAN header -/
  | storeHdr (base : Memory)
  /-- a mail stores an SRv6 header -/
  | storeSrv6 (base : Memory)
  /-- a packet for the tunnel -/
  | offload (port pktLen desc : ℕ)
  /-- packets arrive, other mails, credit -/
  | other (t : Tun)

def Templates.storeHdr (s : Templates) (base : Memory) : Templates :=
  { s with
    tun := tunnelMailStoreHdr base s.tun
    vxlan := Function.update s.vxlan (base 8).val (some (base.slice 9 50)) }

def Templates.storeSrv6 (s : Templates) (base : Memory) : Templates :=
  { s with
    tun := tunnelMailStoreSrv6 base s.tun
    srv6 := if (base 8).val > 7 then s.srv6
      else Function.update s.srv6 (base 8).val (some (base.slice 10 (base 9).val)) }

/-- Headers lie in the packet buffers, and nothing but mails and
    operations writes behind them. -/
def templateStep (s : Templates) (a : TemplateAction) (s' : Templates) : Prop :=
  match a with
  | .storeHdr base => s' = s.storeHdr base
  | .storeSrv6 base => s' = s.storeSrv6 base
  | .offload port pktLen desc => desc + 256 ≤ s.tun.bridge ∧
      s' = { s with tun := (tunnelOffloadHandler s.tun port pktLen desc).2 }
  | .other t => Keeps s.tun t ∧ s' = { s with tun := t }

def templateSystem : StepSystem Templates TemplateAction where
  init s := s.vxlan = (fun _ => none) ∧ s.srv6 = (fun _ => none) ∧ Held s.tun
  step := templateStep

/-! ## What is asked -/

/-- The bytes a store is for: the 128 of the template it names. -/
def TemplateAction.Own (a : TemplateAction) (bridge x : ℕ) : Prop :=
  match a with
  | .storeHdr base => (base 8).val < 20 ∧ bridge + (base 8).val * 128 ≤ x ∧
      x < bridge + (base 8).val * 128 + 128
  | .storeSrv6 base => (base 8).val < 8 ∧ bridge + ((base 8).val + 20) * 128 ≤ x ∧
      x < bridge + ((base 8).val + 20) * 128 + 128
  | .offload _ _ _ => True
  | .other _ => True

/-- A packet for the offload with a UDF. -/
def ForUdf (t : Tun) (desc udf : ℕ) : Prop :=
  desc + 256 ≤ t.bridge ∧ t.mem.word32 (desc + 4) / 2 ^ 28 % 8 ≠ 1 ∧
    t.mem.word32 (desc + 4) / 2 ^ 28 % 8 ≠ 2 ∧ (t.mem (desc + 20)).val = udf

/-- Encapsulation sends what was stored last, and a store changes nothing
    but its template. -/
structure Isolated (T : StepSystem Templates TemplateAction) (s : Templates) : Prop where
  vxlan : ∀ i < 20, ∀ b, s.vxlan i = some b → ∀ port len desc, ForUdf s.tun desc (i + 1) →
    CarriesHdr (offered s.tun (tunnelOffloadHandler s.tun port len desc).2) desc
      (s.tun.bridge + i * 128) vxlanWords b
  srv6 : ∀ i < 8, ∀ b, s.srv6 i = some b → ∀ port len desc, ForUdf s.tun desc (41 + i) →
    CarriesHdr (offered s.tun (tunnelOffloadHandler s.tun port len desc).2) desc
      (s.tun.bridge + (i + 20) * 128) srv6Words (b.drop 12)
  store : ∀ a s', T.step s a s' → ∀ x, ¬a.Own s.tun.bridge x → s'.tun.mem x = s.tun.mem x

/-- The VXLAN index is that of a template; the SRv6 header has its MACs
    and fits its template, unless the index is rejected. -/
def StoreFits (_ : Templates) (a : TemplateAction) : Prop :=
  match a with
  | .storeHdr base => (base 8).val < 20
  | .storeSrv6 base => (base 8).val > 7 ∨ 12 ≤ (base 9).val ∧ (base 9).val ≤ 128
  | .offload _ _ _ => True
  | .other _ => True

/-! ## The invariant -/

structure TemplateInv (s : Templates) : Prop where
  vxlan : ∀ i < 20, ∀ b, s.vxlan i = some b →
    s.tun.mem.slice (s.tun.bridge + i * 128) 50 = b
  srv6 : ∀ i < 8, ∀ b, s.srv6 i = some b → (12 ≤ b.length ∧ b.length ≤ 128) ∧
    s.tun.srv6HdrLen i = b.length ∧
      s.tun.mem.slice (s.tun.bridge + (i + 20) * 128) b.length = b
  held : Held s.tun

variable {s s' : Templates} {base : Memory}

theorem TemplateInv.keeps (h : TemplateInv s) (hk : Keeps s.tun t) :
    TemplateInv { s with tun := t } := by
  have harea : hdrArea = 0xE80 := rfl
  refine ⟨?_, ?_, hk.held h.held⟩
  · intro i hi b hb
    show t.mem.slice (t.bridge + i * 128) 50 = b
    rw [hk.bridge, ← h.vxlan i hi b hb]
    apply slice_congr
    intro k hk50
    exact hk.mem _ (by omega) (by omega)
  · intro i hi b hb
    obtain ⟨hlen, hhdr, hslice⟩ := h.srv6 i hi b hb
    refine ⟨hlen, (congrFun hk.hdrLen i).trans hhdr, ?_⟩
    show t.mem.slice (t.bridge + (i + 20) * 128) b.length = b
    rw [hk.bridge]
    refine (slice_congr fun k hk' => ?_).trans hslice
    exact hk.mem _ (by omega) (by omega)

/-- A VXLAN header stored. -/
theorem TemplateInv.storeHdr (h : TemplateInv s) (hfit : (base 8).val < 20) :
    TemplateInv (s.storeHdr base) := by
  have hbridge : (s.storeHdr base).tun.bridge = s.tun.bridge := rfl
  refine ⟨?_, ?_, ⟨h.held.v4, h.held.v6⟩⟩
  · intro i hi b hb
    have hstored : Function.update s.vxlan (base 8).val (some (base.slice 9 50)) i = some b := hb
    by_cases hsame : i = (base 8).val
    · subst hsame
      rw [Function.update_self] at hstored
      rw [← Option.some.inj hstored]
      exact slice_copyFrom_self _ _ _ _ _
    · rw [Function.update_of_ne hsame] at hstored
      refine (slice_congr fun k hk => ?_).trans (h.vxlan i hi b hstored)
      exact copyFrom_of_outside _ _ (by omega)
  · intro i hi b hb
    obtain ⟨hlen, hhdr, hslice⟩ := h.srv6 i hi b hb
    refine ⟨hlen, hhdr, (slice_congr fun k hk => ?_).trans hslice⟩
    exact copyFrom_of_outside _ _ (by omega)

/-- An SRv6 header stored. -/
theorem TemplateInv.storeSrv6 (h : TemplateInv s) (hidx : ¬(base 8).val > 7)
    (hfit : 12 ≤ (base 9).val ∧ (base 9).val ≤ 128) : TemplateInv (s.storeSrv6 base) := by
  unfold Templates.storeSrv6 tunnelMailStoreSrv6
  dsimp only
  rw [if_neg hidx, if_neg hidx]
  refine ⟨?_, ?_, ⟨h.held.v4, h.held.v6⟩⟩
  · intro i hi b hb
    dsimp only
    refine (slice_congr fun k hk => ?_).trans (h.vxlan i hi b hb)
    exact copyFrom_of_outside _ _ (by omega)
  · intro i hi b hb
    dsimp only at hb ⊢
    by_cases hsame : i = (base 8).val
    · subst hsame
      rw [Function.update_self] at hb ⊢
      obtain rfl := Option.some.inj hb
      rw [length_slice]
      exact ⟨hfit, rfl, slice_copyFrom_self _ _ _ _ _⟩
    · rw [Function.update_of_ne hsame] at hb ⊢
      obtain ⟨hlen, hhdr, hslice⟩ := h.srv6 i hi b hb
      refine ⟨hlen, hhdr, (slice_congr fun k hk => ?_).trans hslice⟩
      exact copyFrom_of_outside _ _ (by omega)

/-- A rejected index changes nothing. -/
theorem storeSrv6_rejected (s : Templates) (hidx : (base 8).val > 7) : s.storeSrv6 base = s := by
  unfold Templates.storeSrv6 tunnelMailStoreSrv6
  dsimp only
  rw [if_pos hidx, if_pos hidx]

theorem templateInv_step {a : TemplateAction} (h : TemplateInv s) (hfit : StoreFits s a)
    (hstep : templateStep s a s') : TemplateInv s' := by
  cases a with
  | storeHdr base =>
    obtain rfl : s' = s.storeHdr base := hstep
    exact h.storeHdr hfit
  | storeSrv6 base =>
    obtain rfl : s' = s.storeSrv6 base := hstep
    by_cases hidx : (base 8).val > 7
    · rw [storeSrv6_rejected s hidx]
      exact h
    · exact h.storeSrv6 hidx (hfit.resolve_left hidx)
  | offload port pktLen desc =>
    obtain ⟨hdesc, rfl⟩ := hstep
    exact h.keeps (keeps_offload _ _ _ hdesc h.held)
  | other t =>
    obtain ⟨hkeeps, rfl⟩ := hstep
    exact h.keeps hkeeps

/-! ## Isolation -/

theorem offload_vxlan (t : Tun) (port len : ℕ) (hi : i < 20) (h : ForUdf t desc (i + 1)) :
    tunnelOffloadHandler t port len desc = tunnelVxlan t port len desc (i + 1) := by
  obtain ⟨-, hop1, hop2, hudf⟩ := h
  unfold tunnelOffloadHandler
  dsimp only
  rw [if_neg hop1, if_neg hop2, hudf, if_pos (by omega)]

theorem offload_srv6 (t : Tun) (port len : ℕ) (hi : i < 8) (h : ForUdf t desc (41 + i)) :
    tunnelOffloadHandler t port len desc = tunnelSrv6 t port len desc (41 + i) := by
  obtain ⟨-, hop1, hop2, hudf⟩ := h
  unfold tunnelOffloadHandler
  dsimp only
  rw [if_neg hop1, if_neg hop2, hudf, if_neg (by omega), if_pos (by omega)]

/-- A store that fits writes its template. -/
theorem store_own {a : TemplateAction} (hfit : StoreFits s a) (hstep : templateStep s a s') (x : ℕ)
    (hx : ¬a.Own s.tun.bridge x) : s'.tun.mem x = s.tun.mem x := by
  cases a with
  | storeHdr base =>
    obtain rfl : s' = s.storeHdr base := hstep
    have hidx : (base 8).val < 20 := hfit
    have hout : ¬(s.tun.bridge + (base 8).val * 128 ≤ x ∧
        x < s.tun.bridge + (base 8).val * 128 + 128) := fun hin => hx ⟨hidx, hin⟩
    exact copyFrom_of_outside _ _ (by omega)
  | storeSrv6 base =>
    obtain rfl : s' = s.storeSrv6 base := hstep
    by_cases hidx : (base 8).val > 7
    · rw [storeSrv6_rejected s hidx]
    · have hlen := hfit.resolve_left hidx
      have hout : ¬(s.tun.bridge + ((base 8).val + 20) * 128 ≤ x ∧
          x < s.tun.bridge + ((base 8).val + 20) * 128 + 128) :=
        fun hin => hx ⟨by omega, hin⟩
      unfold Templates.storeSrv6 tunnelMailStoreSrv6
      dsimp only
      rw [if_neg hidx]
      exact copyFrom_of_outside _ _ (by omega)
  | offload _ _ _ => exact absurd trivial hx
  | other _ => exact absurd trivial hx

/-- In every run whose stores fit, the templates are isolated. -/
theorem templates_isolated (s : Templates)
    (h : (templateSystem.guarded StoreFits).Reachable s) :
    Isolated (templateSystem.guarded StoreFits) s := by
  have hinit : ∀ s, (templateSystem.guarded StoreFits).init s → TemplateInv s := by
    rintro s ⟨hvxlan, hsrv6, hheld⟩
    refine ⟨fun i _ b hb => ?_, fun i _ b hb => ?_, hheld⟩
    · rw [hvxlan] at hb
      cases hb
    · rw [hsrv6] at hb
      cases hb
  have hinv : TemplateInv s := by
    refine h.invariant hinit ?_
    rintro s a s' hs ⟨hfit, hstep⟩
    exact templateInv_step hs hfit hstep
  refine ⟨?_, ?_, ?_⟩
  · intro i hi b hb port len desc hudf
    rw [offload_vxlan _ _ _ hi hudf]
    exact vxlan_carries _ _ _ hi hudf.1 (hinv.vxlan i hi b hb)
  · intro i hi b hb port len desc hudf
    obtain ⟨hlen, hhdr, hslice⟩ := hinv.srv6 i hi b hb
    rw [offload_srv6 _ _ _ hi hudf]
    exact srv6_carries _ _ _ hi hudf.1 hhdr hlen.1 hlen.2 hslice
  · rintro a s' ⟨hfit, hstep⟩ x hx
    exact store_own hfit hstep x hx

/-- Nothing stored. -/
def noTemplates : Templates :=
  ⟨⟨fun _ => byte 0, fun _ => true, 0, [], 0x10000, 1500, fun _ => 0, 0, 0, 0x200, ⟨0, 0, 0⟩,
    ⟨0, 0, 0⟩⟩, fun _ => none, fun _ => none⟩

/-- A mail whose bytes from the index on are all the same. -/
def storeMail (idx : ℕ) : Memory := fun _ => byte idx

/-- VXLAN template 3 stored. -/
theorem templates_isolated_three :
    Isolated (templateSystem.guarded StoreFits) (noTemplates.storeHdr (storeMail 3)) := by
  have h0 : (templateSystem.guarded StoreFits).Reachable noTemplates :=
    .init ⟨rfl, rfl, by decide, by decide⟩
  have hfit : StoreFits noTemplates (.storeHdr (storeMail 3)) := show (3 : ℕ) < 20 by decide
  exact templates_isolated _ (h0.step (TemplateAction.storeHdr (storeMail 3)) ⟨hfit, rfl⟩)

/-- VXLAN index 20 is the place of SRv6 template 0. -/
theorem templates_overwritten :
    ¬ ∀ s, templateSystem.Reachable s → Isolated templateSystem s := by
  intro hall
  have h0 : templateSystem.Reachable noTemplates := .init ⟨rfl, rfl, by decide, by decide⟩
  have hstep : templateSystem.step noTemplates (.storeHdr (storeMail 20))
      (noTemplates.storeHdr (storeMail 20)) := rfl
  have hown : ¬(TemplateAction.storeHdr (storeMail 20)).Own noTemplates.tun.bridge
      (0x10000 + 20 * 128) := fun h => absurd h.1 (by decide)
  have hsame := (hall _ h0).store _ _ hstep _ hown
  exact absurd hsame (by decide)

end ClankerNPU.Tunnel
