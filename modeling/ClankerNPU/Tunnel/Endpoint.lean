import ClankerNPU.Tunnel.FragmentV6
import ClankerNPU.Tunnel.Lengths

/-! # The SRv6 endpoint

    What an endpoint has to do with a packet, in terms of its bytes, and
    that `srv6_end` does it: decapsulate, send to the next segment, or
    take out the segment routing header at the last one. -/

namespace ClankerNPU.Tunnel

open Memory

variable {t t' : Tun} {m m' : Memory} {port desc udf n a i k : ℕ}

/-! ## Packets

    The packet starts with its 14-byte MAC header; the IPv6 header is at
    14 and the segment routing header at 54. -/

/-- The length of the segment routing header. -/
def srhLen (p : List Byte) : ℕ := (p.getD 55 0).val * 8 + 8

/-- Segments Left. -/
def segmentsLeft (p : List Byte) : ℕ := (p.getD 57 0).val

/-- The PSP flag. -/
def pspFlag (p : List Byte) : Prop := 128 ≤ (p.getD 59 0).val

instance (p : List Byte) : Decidable (pspFlag p) := inferInstanceAs (Decidable (_ ≤ _))

/-- An entry of the segment list. -/
def segment (p : List Byte) (i : ℕ) : List Byte := (p.drop (62 + 16 * i)).take 16

/-- IPv4 is directly in the outer IPv6 header. -/
def ipv4Inside (p : List Byte) : Prop := p.getD 20 0 = 4

instance (p : List Byte) : Decidable (ipv4Inside p) := inferInstanceAs (Decidable (_ = _))

/-- An SRv6 packet: the payload length is right, and the segment routing
    header fits in the payload and has the segments that are left. -/
structure IsSrv6 (p : List Byte) : Prop where
  max : p.length < 2 ^ 16
  payload : word p 18 + 54 = p.length
  header : ¬ipv4Inside p → srhLen p ≤ word p 18
  segments : ¬ipv4Inside p → 2 * segmentsLeft p ≤ (p.getD 55 0).val

/-- The packet to the next segment. -/
def endNext (p : List Byte) : List Byte :=
  let left := segmentsLeft p - 1
  p.take 38 ++ (segment p left ++ ((p.drop 54).take 3 ++ ([byte left] ++ p.drop 58)))

/-- The packet without the segment routing header. -/
def endPsp (p : List Byte) : List Byte :=
  let payload := p.length - 54 - srhLen p
  p.take 18 ++ ([byte (payload / 256), byte payload] ++ ([p.getD 54 0] ++
    ((p.drop 21).take 17 ++ (segment p 0 ++ p.drop (54 + srhLen p)))))

/-- The inner packet behind the MAC header. -/
def endInner (p : List Byte) (strip : ℕ) : List Byte :=
  p.take 12 ++ ([byte 8, byte 0] ++ p.drop (54 + strip))

/-- What the endpoint sends. -/
def endOut (p : List Byte) : List Byte :=
  if ipv4Inside p then endInner p 0
  else if segmentsLeft p = 0 then endInner p (srhLen p)
  else if 1 < segmentsLeft p ∨ ¬pspFlag p then endNext p
  else endPsp p

/-- The segment routing header is shorter than 256 bytes when it is taken
    out, and a packet that goes on fits the bridge's 16 bits with its
    descriptor. -/
def EndFits (p : List Byte) : Prop :=
  ¬ipv4Inside p → segmentsLeft p ≠ 0 →
    if 1 < segmentsLeft p ∨ ¬pspFlag p then p.length + 32 < 2 ^ 16 else (p.getD 55 0).val < 31

instance (p : List Byte) : Decidable (EndFits p) := inferInstanceAs (Decidable (_ → _))

/-! ## Pieces of a slice -/

theorem getD_slice (m : Memory) {a i j n : ℕ} (hj : a + i = j) (h : i < n) :
    (m.slice a n).getD i 0 = m j := by
  rw [List.getD_eq_getElem?_getD, getElem?_slice m a h, hj]
  rfl

theorem slice_one (m : Memory) (a : ℕ) : m.slice a 1 = [m a] := rfl

theorem take_slice (m : Memory) (a k n : ℕ) : (m.slice a (k + n)).take k = m.slice a k := by
  rw [slice_add, List.take_left' (length_slice m a k)]

/-- The piece at `i` of `k` bytes. -/
theorem piece_slice (m : Memory) {a i k j n : ℕ} (hj : a + i = j) (h : i + k ≤ n) :
    ((m.slice a n).drop i).take k = m.slice j k := by
  obtain ⟨r, rfl⟩ := Nat.exists_eq_add_of_le h
  rw [Nat.add_assoc, drop_slice, take_slice, hj]

/-- The bytes from `i` on. -/
theorem rest_slice (m : Memory) {a i j n : ℕ} (hj : a + i = j) (h : i ≤ n) :
    (m.slice a n).drop i = m.slice j (n - i) := by
  obtain ⟨r, rfl⟩ := Nat.exists_eq_add_of_le h
  rw [drop_slice, Nat.add_sub_cancel_left, hj]

theorem start_slice (m : Memory) {a k n : ℕ} (h : k ≤ n) :
    (m.slice a n).take k = m.slice a k := by
  obtain ⟨r, rfl⟩ := Nat.exists_eq_add_of_le h
  exact take_slice m a k r

/-! ## Sent as one or two segments -/

theorem drop_append_slice (m : Memory) (l : List Byte) :
    (m.slice desc (32 + k) ++ l).drop 32 = m.slice (desc + 32) k ++ l := by
  rw [List.drop_append_of_le_length (by rw [length_slice]; omega), drop_slice]

/-- The memory around the descriptor words is the packet's. -/
def Behind (desc : ℕ) (m m' : Memory) : Prop := ∀ a, desc + 32 ≤ a → m' a = m a

theorem behind_putInfo (m : Memory) (desc port udf : ℕ) :
    Behind desc m (putInfo m desc port udf) :=
  fun _ ha => putInfo_of_ne (by omega)

/-- The decapsulated packet. -/
theorem srv6Decap_out (t : Tun) (port : ℕ) (hb : Behind desc m m') {srh : Bool} {strip : ℕ}
    (hstrip : (if srh then (m' (desc + 14 + 73)).val * 8 + 48 else 40) = 40 + strip)
    (hsmall : strip ≤ 2048) (hn : n < 2 ^ 16) (hroom : 54 + strip ≤ n) :
    ∃ q, emitted t (srv6Decap { t with mem := m' } port (n + 32) desc 14 srh).2 = [q] ∧
      q.drop 32 = endInner (m.slice (desc + 32) n) strip := by
  have hlen : u16 (((n + 32 : ℕ) : ℤ) - 46 - (40 + strip : ℕ)) = n - (54 + strip) := by
    unfold u16
    omega
  have hoff : u16 (46 + (40 + strip : ℕ)) = 86 + strip := by
    unfold u16
    omega
  have hem : emitted t (srv6Decap { t with mem := m' } port (n + 32) desc 14 srh).2 =
      [(m'.put16 (desc + 0x2C) 0x0800).slice desc 46 ++
        m'.slice (desc + 86 + strip) (n - (54 + strip))] := by
    unfold srv6Decap
    dsimp only
    rw [hstrip]
    refine (emitted_two rfl rfl rfl).trans ?_
    refine congrArg (fun l => [l]) (congrArg₂ (fun a b => a ++ b) ?_ ?_)
    · exact listPatch_bytes [(0x2C, 0x0800)] rfl (by simp) rfl rfl
    · refine plainSeg_bytes rfl ?_ hlen
      show desc + u16 (46 + (40 + strip : ℕ)) = _
      rw [hoff]
      omega
  refine ⟨_, hem, ?_⟩
  -- the addresses, the type of the inner packet, the inner packet
  rw [show (46 : ℕ) = 32 + (12 + 2) from rfl, drop_append_slice, slice_add, List.append_assoc]
  unfold endInner
  rw [start_slice m (by omega), rest_slice m (j := desc + 86 + strip) (by omega) (by omega)]
  refine congrArg₂ (· ++ ·) ?_ (congrArg₂ (· ++ ·) ?_ ?_)
  · apply slice_congr
    intro i hi
    rw [put16_of_ne _ _ (by omega)]
    exact hb _ (by omega)
  · rw [show desc + 32 + 12 = desc + 0x2C by omega]
    exact slice_put16 _ _ _
  · apply slice_congr
    intro i hi
    exact hb _ (by omega)

/-- The memory with the destination and Segments Left of the next segment. -/
def nextEdit (m : Memory) (desc left : ℕ) : Memory :=
  (m.copy (desc + 70) (desc + 94 + 16 * left) 16).put8 (desc + 89) left

/-- The packet to the next segment. -/
theorem next_out (hb : Behind desc m m') {left : ℕ} (hn : 58 ≤ n) (hseg : 78 + 16 * left ≤ n)
    (hleft : segmentsLeft (m.slice (desc + 32) n) - 1 = left) :
    (nextEdit m' desc left).slice (desc + 32) n = endNext (m.slice (desc + 32) n) := by
  unfold endNext segment
  dsimp only
  rw [hleft, start_slice m (by omega),
    piece_slice m (j := desc + 94 + 16 * left) (by omega) (by omega),
    piece_slice m (j := desc + 86) (by omega) (by omega),
    rest_slice m (j := desc + 90) (by omega) (by omega)]
  obtain ⟨r, rfl⟩ := Nat.exists_eq_add_of_le hn
  rw [Nat.add_sub_cancel_left, show 58 + r = 38 + (16 + (3 + (1 + r))) by omega, slice_add,
    slice_add, slice_add, slice_add]
  unfold nextEdit
  -- up to the destination, the destination, up to Segments Left, that
  -- byte, and the rest
  refine congrArg₂ (· ++ ·) ?_ (congrArg₂ (· ++ ·) ?_ (congrArg₂ (· ++ ·) ?_
    (congrArg₂ (· ++ ·) ?_ ?_)))
  · apply slice_congr
    intro i hi
    rw [put8_of_ne _ _ (by omega), copy_of_outside _ (by omega)]
    exact hb _ (by omega)
  · apply slice_congr
    intro i hi
    rw [put8_of_ne _ _ (by omega)]
    unfold Memory.copy
    rw [if_pos (by omega), show desc + 32 + 38 + i - (desc + 70) = i by omega]
    exact hb _ (by omega)
  · apply slice_congr
    intro i hi
    rw [put8_of_ne _ _ (by omega), copy_of_outside _ (by omega),
      show desc + 32 + 38 + 16 + i = desc + 86 + i by omega]
    exact hb _ (by omega)
  · rw [slice_one, show desc + 32 + 38 + 16 + 3 = desc + 89 by omega, put8_self]
  · apply slice_congr
    intro i hi
    rw [put8_of_ne _ _ (by omega), copy_of_outside _ (by omega),
      show desc + 32 + 38 + 16 + 3 + 1 + i = desc + 90 + i by omega]
    exact hb _ (by omega)

/-- The memory with the destination, next header and payload length of the
    last segment. -/
def pspEdit (m : Memory) (desc payload : ℕ) : Memory :=
  ((m.copy (desc + 70) (desc + 94) 16).put8 (desc + 52) (m (desc + 86)).val).put16 (desc + 50)
    payload

/-- The packet without the segment routing header, in two segments. -/
theorem psp_out (hb : Behind desc m m') (hroom : 54 + srhLen (m.slice (desc + 32) n) ≤ n)
    (hlong : 24 ≤ srhLen (m.slice (desc + 32) n)) {strip payload : ℕ}
    (hstrip : srhLen (m.slice (desc + 32) n) = strip) (hpayload : n - 54 - strip = payload) :
    (pspEdit m' desc payload).slice (desc + 32) 54 ++
        (pspEdit m' desc payload).slice (desc + 86 + strip) payload =
      endPsp (m.slice (desc + 32) n) := by
  unfold endPsp segment
  dsimp only
  rw [hstrip] at hroom hlong ⊢
  rw [length_slice, hpayload, start_slice m (by omega),
    getD_slice m (j := desc + 86) (by omega) (by omega),
    piece_slice m (j := desc + 53) (by omega) (by omega),
    piece_slice m (j := desc + 94) (by omega) (by omega),
    rest_slice m (j := desc + 86 + strip) (by omega) (by omega),
    show n - (54 + strip) = payload by omega,
    show (54 : ℕ) = 18 + (2 + (1 + (17 + 16))) from rfl, slice_add, slice_add, slice_add,
    slice_add, List.append_assoc, List.append_assoc, List.append_assoc, List.append_assoc]
  unfold pspEdit
  -- up to the payload length, that word, the next header, up to the
  -- destination, the destination, and what is behind the removed header
  refine congrArg₂ (· ++ ·) ?_ (congrArg₂ (· ++ ·) ?_ (congrArg₂ (· ++ ·) ?_
    (congrArg₂ (· ++ ·) ?_ (congrArg₂ (· ++ ·) ?_ ?_))))
  · apply slice_congr
    intro i hi
    rw [put16_of_ne _ _ (by omega), put8_of_ne _ _ (by omega), copy_of_outside _ (by omega)]
    exact hb _ (by omega)
  · rw [show desc + 32 + 18 = desc + 50 by omega]
    exact slice_put16 _ _ _
  · rw [slice_one, show desc + 32 + 18 + 2 = desc + 52 by omega, put16_of_ne _ _ (by omega),
      put8_self, hb _ (by omega)]
    exact congrArg (fun x => [x]) (Fin.ext (Nat.mod_eq_of_lt (Fin.isLt _)))
  · apply slice_congr
    intro i hi
    rw [put16_of_ne _ _ (by omega), put8_of_ne _ _ (by omega), copy_of_outside _ (by omega),
      show desc + 32 + 18 + 2 + 1 + i = desc + 53 + i by omega]
    exact hb _ (by omega)
  · apply slice_congr
    intro i hi
    rw [put16_of_ne _ _ (by omega), put8_of_ne _ _ (by omega)]
    unfold Memory.copy
    rw [if_pos (by omega), show desc + 94 + (desc + 32 + 18 + 2 + 1 + 17 + i - (desc + 70)) =
      desc + 94 + i by omega]
    exact hb _ (by omega)
  · apply slice_congr
    intro i hi
    rw [put16_of_ne _ _ (by omega), put8_of_ne _ _ (by omega), copy_of_outside _ (by omega)]
    exact hb _ (by omega)

/-! ## The four cases of `srv6_end` -/

theorem srv6End_ipv4 (t : Tun) (port len udf : ℕ) (h : t.mem (desc + 52) = 4) :
    srv6End t port len desc udf 14 =
      srv6Decap { t with mem := putInfo t.mem desc port udf } port len desc 14 false := by
  have hb := behind_putInfo t.mem desc port udf
  unfold srv6End
  dsimp only
  exact if_pos ((hb (desc + 52) (by omega)).trans h)

theorem srv6End_last (t : Tun) (port len udf : ℕ) (h : t.mem (desc + 52) ≠ 4)
    (hleft : t.mem (desc + 89) = 0) :
    srv6End t port len desc udf 14 =
      srv6Decap { t with mem := putInfo t.mem desc port udf } port len desc 14 true := by
  have hb := behind_putInfo t.mem desc port udf
  unfold srv6End
  dsimp only
  refine (if_neg fun h4 => h ((hb (desc + 52) (by omega)).symm.trans h4)).trans ?_
  exact if_pos ((hb (desc + 89) (by omega)).trans hleft)

theorem srv6End_next (t : Tun) (port len udf : ℕ) (h : t.mem (desc + 52) ≠ 4)
    (hleft : t.mem (desc + 89) ≠ 0)
    (hgo : 1 < (t.mem (desc + 89)).val ∨ (t.mem (desc + 91)).val < 128) :
    srv6End t port len desc udf 14 = tunnelSendSplit { t with
      mem := nextEdit (putInfo t.mem desc port udf) desc ((t.mem (desc + 89)).val - 1) }
      port desc 0 len 0 := by
  have hb := behind_putInfo t.mem desc port udf
  have h89 := hb (desc + 89) (by omega)
  unfold srv6End
  dsimp only
  refine (if_neg fun h4 => h ((hb (desc + 52) (by omega)).symm.trans h4)).trans ?_
  refine (if_neg fun h0 => hleft (h89.symm.trans h0)).trans ?_
  have hcopy (src : ℕ) : (putInfo t.mem desc port udf).copy (desc + 14 + 56) src 16 (desc + 91) =
      t.mem (desc + 91) := by
    rw [copy_of_outside _ (by omega)]
    exact hb _ (by omega)
  have hpos : (t.mem (desc + 89)).val ≠ 0 := fun h0 => hleft (Fin.ext h0)
  refine (if_pos ?_).trans ?_
  · rcases hgo with hgo | hgo
    · left
      show (putInfo t.mem desc port udf (desc + 89)).val - 1 ≠ 0
      rw [h89]
      omega
    · right
      show (Memory.copy _ (desc + 14 + 56) _ 16 (desc + 91)).val < 128
      rw [hcopy]
      exact hgo
  · rw [← h89]
    rfl

theorem srv6End_psp (t : Tun) (port len udf : ℕ) (h : t.mem (desc + 52) ≠ 4)
    (hleft : (t.mem (desc + 89)).val = 1) (hpsp : 128 ≤ (t.mem (desc + 91)).val)
    {ext plen : ℕ} (hext : ((t.mem (desc + 87)).val * 8 + 8) % 256 = ext)
    (hplen : u16 ((t.mem.be16 (desc + 50) : ℤ) - ext) = plen) :
    (srv6End t port len desc udf 14).2 =
      (Tun.seg { t with mem := pspEdit (putInfo t.mem desc port udf) desc plen } port desc 86 0
        true false 1 []).seg port desc plen (ext + 86) false true 0 [] := by
  have hb := behind_putInfo t.mem desc port udf
  have h89 := hb (desc + 89) (by omega)
  have hone : (putInfo t.mem desc port udf (desc + 89)).val - 1 = 0 := by
    rw [h89, hleft]
  -- the copied segment covers the destination only
  have hcopy (src : ℕ) : (putInfo t.mem desc port udf).copy (desc + 14 + 56) src 16 (desc + 91) =
      t.mem (desc + 91) := by
    rw [copy_of_outside _ (by omega)]
    exact hb _ (by omega)
  unfold srv6End
  dsimp only
  have hne : putInfo t.mem desc port udf (desc + 14 + 72 + 3) ≠ 0 := by
    intro h0
    rw [show desc + 14 + 72 + 3 = desc + 89 from rfl, h89] at h0
    rw [h0] at hleft
    cases hleft
  rw [if_neg fun h4 => h ((hb (desc + 52) (by omega)).symm.trans h4), if_neg hne]
  have hzero : (putInfo t.mem desc port udf (desc + 14 + 72 + 3)).val - 1 = 0 := hone
  rw [hzero]
  -- no segment is left and the flag is set: the last branch
  have hstay : ¬((0 : ℕ) ≠ 0 ∨ ((putInfo t.mem desc port udf).copy (desc + 14 + 56)
      (desc + 14 + 72 + 8 + 16 * 0) 16 (desc + 14 + 72 + 5)).val < 128) := by
    rw [show desc + 14 + 72 + 5 = desc + 91 from rfl, hcopy]
    omega
  rw [if_neg hstay]
  have hext' : ((putInfo t.mem desc port udf (desc + 14 + 72 + 1)).val * 8 + 8) % 256 = ext := by
    rw [show desc + 14 + 72 + 1 = desc + 87 from rfl, hb _ (by omega), hext]
  have hsrh (src : ℕ) : (putInfo t.mem desc port udf).copy (desc + 14 + 56) src 16
      (desc + 14 + 72) = putInfo t.mem desc port udf (desc + 86) :=
    copy_of_outside _ (by omega)
  have hbe (src v : ℕ) : (((putInfo t.mem desc port udf).copy (desc + 14 + 56) src 16).put8
      (desc + 14 + 32 + 6) v).be16 (desc + 14 + 32 + 4) = t.mem.be16 (desc + 50) := by
    apply be16_congr
    · rw [put8_of_ne _ _ (by omega), copy_of_outside _ (by omega)]
      exact hb (desc + 50) (by omega)
    · rw [put8_of_ne _ _ (by omega), copy_of_outside _ (by omega)]
      exact hb (desc + 51) (by omega)
  rw [hbe, hsrh, hext', hplen]
  rfl

/-! ## What is sent -/

/-- A packet on its way to the next segment, in the 16 bits its length
    has. -/
theorem emitted_whole (t : Tun) (port len : ℕ) (m' : Memory) :
    emitted t (tunnelSendSplit { t with mem := m' } port desc 0 len 0).2 =
      [m'.slice desc (len % 2 ^ 16)] := by
  have hlen : u16 ((len % 2 ^ 16 : ℕ) : ℤ) = len % 2 ^ 16 := by
    rw [u16_natCast, Nat.mod_mod]
  unfold tunnelSendSplit
  dsimp only
  rw [if_pos (Nat.zero_mod _)]
  refine (emitted_append rfl).trans ?_
  show [_ ++ []] = _
  rw [List.append_nil]
  refine congrArg (fun l => [l]) (plainSeg_bytes rfl rfl ?_)
  exact hlen

/-- The bytes the endpoint looks at. -/
structure Looks (m : Memory) (desc : ℕ) (p : List Byte) : Prop where
  inside : ipv4Inside p ↔ m (desc + 52) = 4
  header : srhLen p = (m (desc + 87)).val * 8 + 8
  left : segmentsLeft p = (m (desc + 89)).val
  psp : pspFlag p ↔ 128 ≤ (m (desc + 91)).val
  payload : word p 18 = m.be16 (desc + 50)

theorem looks (m : Memory) (desc : ℕ) (hn : 60 ≤ n) : Looks m desc (m.slice (desc + 32) n) := by
  refine ⟨?_, ?_, ?_, ?_, ?_⟩
  · unfold ipv4Inside
    rw [getD_slice m (j := desc + 52) (by omega) (by omega)]
  · unfold srhLen
    rw [getD_slice m (j := desc + 87) (by omega) (by omega)]
  · unfold segmentsLeft
    rw [getD_slice m (j := desc + 89) (by omega) (by omega)]
  · unfold pspFlag
    rw [getD_slice m (j := desc + 91) (by omega) (by omega)]
  · rw [word_slice m _ (by omega)]

section Cases

variable (t port udf) (h : IsSrv6 (t.mem.slice (desc + 32) n))

/-- What the endpoint sends is what it has to send. -/
def EndSends (t : Tun) (port desc udf n : ℕ) : Prop :=
  ∃ q, emitted t (srv6End t port (n + 32) desc udf 14).2 = [q] ∧
    q.drop 32 = endOut (t.mem.slice (desc + 32) n)

include h

theorem endpoint_ipv4 (h4 : ipv4Inside (t.mem.slice (desc + 32) n)) :
    EndSends t port desc udf n := by
  have hpay := h.payload
  have hmax := h.max
  rw [length_slice] at hpay hmax
  have hnh : t.mem (desc + 52) = 4 := by
    unfold ipv4Inside at h4
    rwa [getD_slice t.mem (j := desc + 52) (by omega) (by omega)] at h4
  unfold EndSends endOut
  rw [if_pos h4, srv6End_ipv4 t port _ udf hnh]
  exact srv6Decap_out t port (behind_putInfo t.mem desc port udf) rfl (by omega) hmax (by omega)

variable (h4 : ¬ipv4Inside (t.mem.slice (desc + 32) n))

include h4

/-- The segment routing header is inside the packet. -/
theorem header_room : 54 + srhLen (t.mem.slice (desc + 32) n) ≤ n ∧ 62 ≤ n := by
  have hhdr := h.header h4
  have hpay := h.payload
  rw [length_slice] at hpay
  have : 8 ≤ srhLen (t.mem.slice (desc + 32) n) := Nat.le_add_left ..
  omega

theorem endpoint_last (hleft : segmentsLeft (t.mem.slice (desc + 32) n) = 0) :
    EndSends t port desc udf n := by
  have hmax := h.max
  rw [length_slice] at hmax
  obtain ⟨hroom, hn⟩ := header_room t h h4
  have hl := looks t.mem desc (n := n) (by omega)
  have hb := behind_putInfo t.mem desc port udf
  have hzero : t.mem (desc + 89) = 0 := Fin.ext (hl.left.symm.trans hleft)
  unfold EndSends endOut
  rw [if_neg h4, if_pos hleft, srv6End_last t port _ udf (fun hnh => h4 (hl.inside.mpr hnh)) hzero]
  refine srv6Decap_out t port hb ?_ ?_ hmax hroom
  · rw [if_pos rfl, show desc + 14 + 73 = desc + 87 from rfl, hb _ (by omega), hl.header]
    omega
  · have := (t.mem (desc + 87)).isLt
    rw [hl.header]
    omega

theorem endpoint_next (hleft : segmentsLeft (t.mem.slice (desc + 32) n) ≠ 0)
    (hgo : 1 < segmentsLeft (t.mem.slice (desc + 32) n) ∨ ¬pspFlag (t.mem.slice (desc + 32) n)) :
    EndSends t port desc udf n ↔ n + 32 < 2 ^ 16 := by
  have hmax := h.max
  rw [length_slice] at hmax
  obtain ⟨hroom, hn⟩ := header_room t h h4
  have hl := looks t.mem desc (n := n) (by omega)
  have hb := behind_putInfo t.mem desc port udf
  have hseg := h.segments h4
  have hout := @next_out _ _ desc n hb ((t.mem (desc + 89)).val - 1) (by omega) ?_
    (by rw [hl.left])
  case refine_1 =>
    have hhdr : srhLen (t.mem.slice (desc + 32) n) =
      ((t.mem.slice (desc + 32) n).getD 55 0).val * 8 + 8 := rfl
    have := hl.left
    omega
  unfold EndSends endOut
  rw [if_neg h4, if_neg hleft, if_pos hgo,
    srv6End_next t port _ udf (fun hnh => h4 (hl.inside.mpr hnh)), emitted_whole, ← hout]
  · constructor
    · -- the length of what is sent is cut to 16 bits
      rintro ⟨q, hq, hdrop⟩
      obtain rfl := (List.cons.inj hq).1
      have hlen := congrArg List.length hdrop
      rw [List.length_drop, length_slice, length_slice] at hlen
      omega
    · intro hfits
      refine ⟨_, rfl, ?_⟩
      rw [Nat.mod_eq_of_lt hfits, Nat.add_comm n 32, drop_slice]
  · intro hzero
    exact hleft (hl.left.trans (congrArg Fin.val hzero))
  · rw [← hl.left]
    exact hgo.imp_right fun hpsp => not_le.mp (hl.psp.not.mp hpsp)

theorem endpoint_psp (hleft : segmentsLeft (t.mem.slice (desc + 32) n) = 1)
    (hpsp : pspFlag (t.mem.slice (desc + 32) n)) :
    EndSends t port desc udf n ↔ ((t.mem.slice (desc + 32) n).getD 55 0).val < 31 := by
  have hmax := h.max
  have hpay := h.payload
  rw [length_slice] at hmax hpay
  obtain ⟨hroom, hn⟩ := header_room t h h4
  have hl := looks t.mem desc (n := n) (by omega)
  have hb := behind_putInfo t.mem desc port udf
  have hseg := h.segments h4
  have hext : ((t.mem.slice (desc + 32) n).getD 55 0).val = (t.mem (desc + 87)).val := by
    rw [getD_slice t.mem (j := desc + 87) (by omega) (by omega)]
  have hbyte := (t.mem (desc + 87)).isLt
  have hhdr := hl.header
  rw [hl.payload] at hpay
  -- the length the code strips
  obtain ⟨ext, hstrip⟩ : ∃ ext, ((t.mem (desc + 87)).val * 8 + 8) % 256 = ext := ⟨_, rfl⟩
  have hplen : u16 ((t.mem.be16 (desc + 50) : ℤ) - ext) = n - 54 - ext := by
    unfold u16
    omega
  have hlen : u16 ((n - 54 - ext : ℕ) : ℤ) = n - 54 - ext := u16_natCast_of_lt (by omega)
  have hoff : u16 ((ext : ℤ) + 86) = ext + 86 := by
    unfold u16
    omega
  have hem : emitted t (srv6End t port (n + 32) desc udf 14).2 =
      [(pspEdit (putInfo t.mem desc port udf) desc (n - 54 - ext)).slice desc 86 ++
        (pspEdit (putInfo t.mem desc port udf) desc (n - 54 - ext)).slice (desc + 86 + ext)
          (n - 54 - ext)] := by
    rw [srv6End_psp t port _ udf (fun hnh => h4 (hl.inside.mpr hnh)) (hl.left.symm.trans hleft)
      (hl.psp.mp hpsp) hstrip hplen]
    refine (emitted_two rfl rfl rfl).trans ?_
    refine congrArg (fun l => [l]) (congrArg₂ (fun a b => a ++ b) ?_ ?_)
    · exact plainSeg_bytes rfl rfl rfl
    · refine plainSeg_bytes rfl ?_ hlen
      show desc + u16 ((ext : ℤ) + 86) = _
      rw [hoff]
      omega
  have hgo : ¬(1 < segmentsLeft (t.mem.slice (desc + 32) n) ∨
      ¬pspFlag (t.mem.slice (desc + 32) n)) := by
    rintro (hgo | hgo)
    · omega
    · exact hgo hpsp
  have hout := psp_out hb hroom (by omega) hhdr rfl
  have hone : segmentsLeft (t.mem.slice (desc + 32) n) ≠ 0 := by omega
  unfold EndSends endOut
  rw [if_neg h4, if_neg hone, if_neg hgo, hem, hext]
  constructor
  · rintro ⟨q, hq, hdrop⟩
    -- the whole header is stripped only when its length is not cut
    obtain rfl := (List.cons.inj hq).1
    rw [← hout] at hdrop
    have hlen := congrArg List.length hdrop
    rw [List.length_drop, List.length_append, List.length_append, length_slice, length_slice,
      length_slice, length_slice] at hlen
    omega
  · intro hshort
    have hsame : ext = (t.mem (desc + 87)).val * 8 + 8 := by omega
    refine ⟨_, rfl, ?_⟩
    rw [show (86 : ℕ) = 32 + 54 from rfl, drop_append_slice, ← hout, hsame]

end Cases

/-- The endpoint sends what it has to send exactly when the packet fits. -/
theorem srv6End_out_iff (t : Tun) (port desc udf n : ℕ) (h : IsSrv6 (t.mem.slice (desc + 32) n)) :
    EndSends t port desc udf n ↔ EndFits (t.mem.slice (desc + 32) n) := by
  unfold EndFits
  by_cases h4 : ipv4Inside (t.mem.slice (desc + 32) n)
  · exact iff_of_true (endpoint_ipv4 t port udf h h4) (fun hno => absurd h4 hno)
  by_cases hleft : segmentsLeft (t.mem.slice (desc + 32) n) = 0
  · exact iff_of_true (endpoint_last t port udf h h4 hleft) (fun _ hno => absurd hleft hno)
  rw [forall_prop_of_true h4, forall_prop_of_true hleft]
  by_cases hgo : 1 < segmentsLeft (t.mem.slice (desc + 32) n) ∨
      ¬pspFlag (t.mem.slice (desc + 32) n)
  · rw [if_pos hgo, length_slice]
    exact endpoint_next t port udf h h4 hleft hgo
  · rw [if_neg hgo]
    obtain ⟨hone, hpsp⟩ := not_or.mp hgo
    exact endpoint_psp t port udf h h4 (by omega) ((not_not.mp hpsp))

/-- A packet at address 0 with an IPv6 payload of `payload` bytes: a segment
    routing header of `8 * ext + 8` bytes with the PSP flag and `left`
    segments left, and UDP behind it. -/
def srv6Frame (payload ext left : ℕ) : Tun := { oneDatagram 1500 with
  mem := (((((blankMem.put16 50 payload).put8 52 43).put8 86 17).put8 87 ext).put8 89 left).put8 91
    128 }

/-- Two segments left, one, and none, in a header of two segments. -/
theorem srv6End_out_iff_frame :
    EndSends (srv6Frame 60 4 2) 1 0 49 114 ∧ EndSends (srv6Frame 60 4 1) 1 0 49 114 ∧
      EndSends (srv6Frame 60 4 0) 1 0 49 114 := by
  have htwo : IsSrv6 ((srv6Frame 60 4 2).mem.slice (0 + 32) 114) := by
    constructor <;> decide +kernel
  have hone : IsSrv6 ((srv6Frame 60 4 1).mem.slice (0 + 32) 114) := by
    constructor <;> decide +kernel
  have hnone : IsSrv6 ((srv6Frame 60 4 0).mem.slice (0 + 32) 114) := by
    constructor <;> decide +kernel
  exact ⟨(srv6End_out_iff _ 1 0 49 114 htwo).mpr (by decide +kernel),
    (srv6End_out_iff _ 1 0 49 114 hone).mpr (by decide +kernel),
    (srv6End_out_iff _ 1 0 49 114 hnone).mpr (by decide +kernel)⟩

/-- A header of 16 segments, the last one left: 8 of its 264 bytes are
    taken out. -/
theorem srv6End_long :
    IsSrv6 ((srv6Frame 280 32 1).mem.slice (0 + 32) 334) ∧
      ¬EndSends (srv6Frame 280 32 1) 1 0 49 334 := by
  have hlong : IsSrv6 ((srv6Frame 280 32 1).mem.slice (0 + 32) 334) := by
    constructor <;> decide +kernel
  refine ⟨hlong, ?_⟩
  rw [endpoint_psp _ 1 49 hlong (by decide +kernel) (by decide +kernel) (by decide +kernel)]
  decide +kernel

end ClankerNPU.Tunnel
