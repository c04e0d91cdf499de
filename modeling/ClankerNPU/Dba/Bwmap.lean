import ClankerNPU.Dba.Config

/-! # The bandwidth map

    `dba_bwmap_switch` writes one map: ONU by ONU, the T-CONTs in order,
    or with FEC sorted and aligned first. The grants are what
    `dba_bw_request` has left in the contexts; of that function only the
    counter of valid T-CONTs is modelled. The statistics, the bank switch
    and the messages are left out. -/

namespace ClankerNPU.Dba

/-- The control word of an entry, by its fields -/
structure BwmapCtrl where
  dbru : Bool
  ploamu : Bool
  fec : Bool
  aid : ℕ
  olt : Bool
  /-- the two bits of `BWMAP_END_MASK` -/
  endMark : ℕ
  deriving DecidableEq, Repr

/-- `BWMAP_END_LAST` -/
def endLast : ℕ := 3

/-- `DBA_STOP_MAX` -/
def stopMax : ℕ := 0x4BC1

/-- An entry as it is written. -/
structure Entry where
  start : ℕ
  stop : ℕ
  ctrl : BwmapCtrl
  deriving DecidableEq, Repr

/-- The map while it is built: the staged control word, `dba_bwmap_pos`,
    `dba_bwmap_left` and the entries written. -/
structure Bwmap where
  ctrl : BwmapCtrl
  pos : ℕ
  left : ℕ
  out : List Entry

/-- The settings the map step reads: `dba_burst_ovh`,
    `dba_tcont.olt_mode` and `dba_tcont.mode`. -/
structure Settings where
  burstOvh : ℕ
  oltMode : ℕ
  mode : ℕ

def TcontCfg.valid (c : TcontCfg) : Bool := c.flags % 2 = 1

def TcontCfg.fec (c : TcontCfg) : Bool := c.flags / 2 % 2 = 1

/-- `dba_bwmap_left` after `dba_bw_request` -/
def dbaBwmapLeft (cfg : Table) : ℕ := (List.range allocNum).countP fun i => (cfg i).valid

/-- Where an entry starts; the first T-CONT of a burst pays the burst
    overhead. -/
def entryStart (g : Settings) (pos slot : ℕ) : ℕ :=
  if slot % 4 = 0 ∧ pos ≠ 0 then (pos + g.burstOvh) % 2 ^ 16 else pos

/-- Where an entry with a grant ends, and the map goes on. -/
def entryEnd (g : Settings) (pos slot : ℕ) (bw : ℤ) : ℕ := u16 (bw + entryStart g pos slot)

/-- `dba_config_bwmap_handler`, with the T-CONT's configuration and its
    `cur_bw` -/
def dbaConfigBwmapHandler (g : Settings) (c : TcontCfg) (bw : ℤ) (s : Bwmap) (idx : ℕ) (fec : Bool)
    (slot onu : ℕ) : Bwmap :=
  let start := entryStart g s.pos slot
  let stop := u16 ((entryEnd g s.pos slot bw : ℤ) - 1)
  let s' := { s with pos := entryEnd g s.pos slot bw }
  if stop > stopMax then s'
  else if start ≥ stop then s'
  else
    let left := (s.left + 255) % 256
    let ctrl : BwmapCtrl :=
      { dbru := c.dbaType ≠ 1
        ploamu := idx = onu
        fec := fec
        aid := c.allocId % 2 ^ 12
        olt := s.ctrl.olt || g.oltMode = 1
        endMark := if left = 0 then endLast else 0 }
    { s' with left := left, ctrl := ctrl, out := s.out ++ [⟨start, stop, ctrl⟩] }

/-- An index sunk below larger grants, from the end of a list. -/
def sink (bw : ℕ → ℤ) (last : ℕ) : List ℕ → List ℕ
  | [] => [last]
  | i :: is => if bw i ≤ u16 (bw last) then last :: i :: is else i :: sink bw last is

/-- Sinking only moves the index. -/
theorem sink_perm (bw : ℕ → ℤ) (last : ℕ) (l : List ℕ) : (sink bw last l).Perm (last :: l) := by
  induction l with
  | nil => exact .refl _
  | cons i is ih =>
    rw [sink]
    split_ifs
    · exact .refl _
    · exact (ih.cons i).trans (.swap ..)

/-- `list[cnt] = idx` and `dba_sort_bw(ctx, list, cnt, 1)`: the first
    index keeps its place. -/
def sortIn (bw : ℕ → ℤ) (list : List ℕ) (idx : ℕ) : List ℕ :=
  if list.length ≤ 1 then list ++ [idx]
  else list.take 1 ++ (sink bw idx (list.drop 1).reverse).reverse

/-- The T-CONTs of an ONU with FEC that have a grant. -/
def fecList (m : DbaMap) (cfg : Table) (bw : ℕ → ℤ) (onu : ℕ) : List ℕ :=
  (List.range m.nTc).foldl (fun list j =>
    if ¬(cfg (tcontIdx m onu j)).valid ∨ bw (tcontIdx m onu j) = 0 then list
    else sortIn bw list (tcontIdx m onu j)) []

/-- An aligned grant: the grant, the length it takes, and what the next
    one pays. -/
structure Aligned where
  bw : ℤ
  len : ℤ
  delta : ℕ

/-- The alignment in OLT mode; `len` is a `u32`. -/
def alignOlt (acc : ℕ) (bw : ℤ) (last : Bool) (delta : ℕ) : Aligned :=
  let len : ℕ := u32 (bw * 2)
  let rem : ℕ := (acc + len + 2) % 2 ^ 32 % 255
  if rem > 238 then
    if last then ⟨bw, len, delta⟩
    else
      let len : ℕ := u32 ((len : ℤ) - rem + 255)
      if len % 2 = 1 then
        ⟨((len + 1) % 2 ^ 32 / 2 : ℕ), ((len + 1) % 2 ^ 32 : ℕ), (delta + (256 - rem) / 2) % 2 ^ 16⟩
      else ⟨(len / 2 : ℕ), len, (delta + (255 - rem) / 2) % 2 ^ 16⟩
  else if ¬last then
    if (acc + len + 3) % 2 ^ 32 % 255 > 236 then
      ⟨((len + 20) % 2 ^ 32 / 2 : ℕ), ((len + 20) % 2 ^ 32 : ℕ), (delta + 10) % 2 ^ 16⟩
    else ⟨bw, len, delta⟩
  else if rem < 18 then
    let len : ℕ := u32 ((len : ℤ) - rem)
    let len : ℕ := u32 ((len : ℤ) + (len % 2 : ℕ) - 2)
    ⟨(len / 2 : ℕ), len, delta⟩
  else ⟨bw, len, delta⟩

/-- The alignment otherwise; `len` is an `s32`. -/
def alignOnu (acc : ℕ) (bw : ℤ) (last : Bool) (delta : ℕ) : Aligned :=
  let rem : ℤ := (s32 (acc + bw + 2)).tmod 255
  if rem > 238 then
    if last then ⟨bw, bw, delta⟩
    else ⟨bw + (255 - rem), bw + (255 - rem), u16 (delta + (255 - rem))⟩
  else if ¬last then
    if (s32 (acc + bw + 3)).tmod 255 > 236 then ⟨bw + 19, bw + 19, u16 (delta + 19)⟩
    else ⟨bw, bw, delta⟩
  else if u16 rem < 18 then ⟨bw - (rem + 1), bw - (rem + 1), delta⟩
  else ⟨bw, bw, delta⟩

/-- The grants of an ONU with FEC kept off parity; the next T-CONT pays
    for what one grew. -/
def fecAlign (g : Settings) : List ℕ → ℕ → (ℕ → ℤ) → (ℕ → ℤ)
  | [], _, bw => bw
  | i :: is, acc, bw =>
    let delta : ℕ := if bw i ≤ 1 then u16 (2 - bw i) else 0
    let b : ℤ := if bw i ≤ 1 then 2 else bw i
    let b : ℤ := if is = [] ∧ b < 18 then 18 else b
    let r : Aligned :=
      if g.oltMode ≠ 0 then alignOlt acc b (is = []) delta else alignOnu acc b (is = []) delta
    let bw := Function.update bw i r.bw
    let bw := if let i' :: _ := is then Function.update bw i' (bw i' - r.delta) else bw
    fecAlign g is (u16 (acc + r.len)) bw

/-- The body of `dba_bwmap_switch`'s loop over the ONUs, with the grants
    it changes -/
def switchOnu (g : Settings) (cfg : Table) (st : (ℕ → ℤ) × Bwmap) (onu : ℕ) : (ℕ → ℤ) × Bwmap :=
  let m := dbaMap g.mode
  let bw := st.1
  if ¬(cfg onu).valid then st
  else if ¬(cfg onu).fec then
    (bw, (List.range m.nTc).foldl (fun s j =>
      let idx := tcontIdx m onu j
      if ¬(cfg idx).valid then s
      else if bw idx = 0 then s
      else dbaConfigBwmapHandler g (cfg idx) (bw idx) s idx false j onu) st.2)
  else
    let list := fecList m cfg bw onu
    let bw := fecAlign g list 0 bw
    (bw, list.zipIdx.foldl (fun s p =>
      if ¬(cfg p.1).valid then s
      else if bw p.1 = 0 then s
      else dbaConfigBwmapHandler g (cfg p.1) (bw p.1) s p.1 true p.2 onu) st.2)

/-- `dba_bwmap_switch`, from the counter and the staged word to the
    entries -/
def dbaBwmapSwitch (g : Settings) (cfg : Table) (bw : ℕ → ℤ) (left : ℕ) (ctrl : BwmapCtrl) :
    List Entry :=
  ((List.range (dbaMap g.mode).nOnu).foldl (switchOnu g cfg) (bw, ⟨ctrl, 0, left, []⟩)).2.out

end ClankerNPU.Dba
