import ClankerNPU.Kite.RxCustody

/-! # Setting up a kite rx ring in operation

    The mail that sets a ring up clears the node rings of its band and the
    pipeline, gives the ids of the table back and fills it anew, while the
    other harts go on. Between their calls its steps keep every id in one
    place. -/

open scoped BigOperators

namespace ClankerNPU.Kite

open Custody

variable {cfg : RxCfg} {b : Bool} {s : RxBand} {l l' : RxLocal} {points : ℕ → ℕ → Prop}

/-! ## Between the calls of the other harts -/

/-- The rx function and the drains of the band are not running. -/
def RxBand.Quiet (s : RxBand) : Prop :=
  s.rx = .idle ∧ s.segDrain = .idle ∧ s.wholeDrain = .idle

/-- What a band keeps while a set-up mail is at the given place. -/
def SetDescPc.Fits (b : Bool) (s : RxBand) : SetDescPc → Prop
  | .idle => s.Ok b ∧ (s.initDone = true ∨ s.Quiet)
  | .wholes i size => size = rxRing ∧ s.Quiet ∧ s.cpuIdx < rxRing ∧
      s.wholes.Swept (wholeRing b) i ∧ s.segs.Swept rxnodeRingSize 0
  | .segs i size => size = rxRing ∧ s.Quiet ∧ s.cpuIdx < rxRing ∧
      s.wholes.Ok (wholeRing b) ∧ s.segs.Swept rxnodeRingSize i
  | .pipe _ size | .table size => size = rxRing ∧ s.Quiet ∧ s.Ok b
  | .freeing i size | .filling i size => size = rxRing ∧ s.Quiet ∧ s.Ok b ∧
      s.initDone = false ∧ i ≤ rxRing

def RxBand.Fits (b : Bool) (s : RxBand) : Prop := s.mail.Fits b s

/-- The mail is clearing the node rings. -/
def SetDescPc.clearing : SetDescPc → Bool
  | .wholes _ _ | .segs _ _ => true
  | _ => false

/-- The mail is clearing the pipeline. -/
def SetDescPc.piping : SetDescPc → Bool
  | .pipe _ _ => true
  | _ => false

/-- The mail has not yet looked at `init_done`. -/
def SetDescPc.early : SetDescPc → Bool
  | .wholes _ _ | .segs _ _ | .pipe _ _ | .table _ => true
  | _ => false

theorem wholeRing_pos (b : Bool) : 0 < wholeRing b := by cases b <;> decide

theorem ok_of_quiet (hquiet : s.Quiet) (hsegs : s.segs.Ok rxnodeRingSize)
    (hwholes : s.wholes.Ok (wholeRing b)) (hcpu : s.cpuIdx < rxRing) : s.Ok b := by
  obtain ⟨hrx, hseg, hwhole⟩ := hquiet
  refine ⟨hsegs, ?_, hwholes, ?_, ?_, hcpu⟩
  · rw [hseg]
    trivial
  · rw [hwhole]
    exact Nat.zero_le _
  · rw [hrx]
    trivial

theorem RxBand.Fits.ok (h : s.Fits b) (hclear : s.mail.clearing = false) : s.Ok b := by
  unfold RxBand.Fits at h
  cases hpc : s.mail with
  | idle => rw [hpc] at h; exact h.1
  | wholes i size => rw [hpc] at hclear; cases hclear
  | segs i size => rw [hpc] at hclear; cases hclear
  | pipe i size => rw [hpc] at h; exact h.2.2
  | table size => rw [hpc] at h; exact h.2.2
  | freeing i size => rw [hpc] at h; exact h.2.2.1
  | filling i size => rw [hpc] at h; exact h.2.2.1

theorem RxBand.Fits.of_ok {s' : RxBand} (h : s.Fits b) (hclear : s.mail.clearing = false)
    (hok : s'.Ok b) (hmail : s'.mail = s.mail) (hdone : s'.initDone = s.initDone)
    (hquiet : s.Quiet → s'.Quiet) : s'.Fits b := by
  unfold RxBand.Fits at h ⊢
  rw [hmail]
  cases hpc : s.mail with
  | idle =>
    rw [hpc] at h
    exact ⟨hok, h.2.imp (fun hd => by rw [hdone]; exact hd) hquiet⟩
  | wholes i size => rw [hpc] at hclear; cases hclear
  | segs i size => rw [hpc] at hclear; cases hclear
  | pipe i size => rw [hpc] at h; exact ⟨h.1, hquiet h.2.1, hok⟩
  | table size => rw [hpc] at h; exact ⟨h.1, hquiet h.2.1, hok⟩
  | freeing i size =>
    rw [hpc] at h
    exact ⟨h.1, hquiet h.2.1, hok, by rw [hdone]; exact h.2.2.2.1, h.2.2.2.2⟩
  | filling i size =>
    rw [hpc] at h
    exact ⟨h.1, hquiet h.2.1, hok, by rw [hdone]; exact h.2.2.2.1, h.2.2.2.2⟩

/-- A band whose rx function or drain runs, or whose ring is set up, has
    no mail at work once it has looked at `init_done`. -/
theorem RxBand.Fits.running (h : s.Fits b) (hearly : s.mail.early = false)
    (hrun : s.initDone = true ∨ ¬ s.Quiet) : s.mail = .idle ∧ s.initDone = true := by
  unfold RxBand.Fits at h
  cases hpc : s.mail with
  | idle =>
    rw [hpc] at h
    refine ⟨rfl, ?_⟩
    rcases hrun with hdone | hbusy
    · exact hdone
    · exact h.2.resolve_right hbusy
  | wholes i size => rw [hpc] at hearly; cases hearly
  | segs i size => rw [hpc] at hearly; cases hearly
  | pipe i size => rw [hpc] at hearly; cases hearly
  | table size => rw [hpc] at hearly; cases hearly
  | freeing i size =>
    rw [hpc] at h
    exact absurd hrun (by simp [h.2.1, h.2.2.2.1])
  | filling i size =>
    rw [hpc] at h
    exact absurd hrun (by simp [h.2.1, h.2.2.2.1])

/-- What a step of a band keeps, set-up mails included. -/
structure BandKept (points : ℕ → ℕ → Prop) (b : Bool) (l l' : RxLocal) : Prop where
  total : l'.total l'.band.live b = l.total l.band.live b
  fits : l'.band.Fits b
  armed : (∀ i ∈ l.band.live, l.band.ArmedAt points i) →
    ∀ i ∈ l'.band.live, l'.band.ArmedAt points i

theorem live_of_early (h : s.mail.early = true ∨ s.mail = .idle) :
    s.live = if s.initDone then s.rx.live else Finset.range s.unset := by
  unfold RxBand.live
  rcases h with h | h
  · cases hpc : s.mail <;> rw [hpc] at h <;> first | rfl | cases h
  · rw [h]

theorem live_of_running (hmail : s.mail = .idle) (hdone : s.initDone = true) :
    s.live = s.rx.live := by
  unfold RxBand.live
  rw [hmail, hdone]
  rfl

/-- A step of the rx function or a drain of a ring in use. -/
theorem Keeps.kept (h : Keeps points b l l') (hmail : l.band.mail = .idle)
    (hdone : l.band.initDone = true) (hmail' : l'.band.mail = l.band.mail)
    (hdone' : l'.band.initDone = l.band.initDone) : BandKept points b l l' := by
  rw [hmail] at hmail'
  rw [hdone] at hdone'
  have hlive := live_of_running hmail hdone
  have hlive' := live_of_running hmail' hdone'
  refine ⟨?_, ?_, ?_⟩
  · rw [hlive, hlive']
    exact h.total
  · unfold RxBand.Fits
    rw [hmail']
    exact ⟨h.ok, .inl hdone'⟩
  · rw [hlive, hlive']
    exact h.armed

/-! ## The set-up mail -/

/-- The ids of a node ring no drain is at -/
theorem wholeIds_of_idle (hidle : s.wholeDrain = .idle) (hr : s.wholes.ridx < wholeRing b) :
    s.wholeIds b = (s.wholes.filled (wholeRing b)).map PiNode.bufId := by
  unfold RxBand.wholeIds
  rw [hidle, ← FlagRing.contents_eq_filled hr]
  rfl

theorem segIds_of_idle (hidle : s.segDrain = .idle) (hr : s.segs.ridx < rxnodeRingSize) :
    s.segIds = (s.segs.filled rxnodeRingSize).map RxNode.bufId := by
  unfold RxBand.segIds
  rw [hidle, ← FlagRing.contents_eq_filled hr]
  rfl

/-- A node ring without the id of a node cleared -/
theorem map_filled_wipe {E : Type*} {n i : ℕ} (r : FlagRing E) (f : E → ℕ) (hi : i < n) :
    ((r.wipe i).filled n).map f + ((r.slot i).toList.map f : Multiset ℕ) = (r.filled n).map f := by
  rw [← FlagRing.filled_wipe (r := r) hi, Multiset.map_add]
  rfl

/-- The mail moves on: nothing else changes. -/
theorem BandKept.mailAt {pc : SetDescPc}
    (hlive : RxBand.live { l.band with mail := pc } = l.band.live)
    (hfits : RxBand.Fits b { l.band with mail := pc }) : BandKept points b l (l.mailAt pc) where
  total := by
    show RxLocal.total (RxBand.live { l.band with mail := pc }) b (l.mailAt pc) = _
    rw [hlive]
    rfl
  fits := hfits
  armed h i hi := by
    change i ∈ RxBand.live { l.band with mail := pc } at hi
    rw [hlive] at hi
    exact h i hi

theorem RxBand.Ok.mailAt (hok : s.Ok b) (pc : SetDescPc) : RxBand.Ok b { s with mail := pc } :=
  ⟨hok.segs, hok.segDrain, hok.wholes, hok.wholeDrain, hok.rx, hok.cpuIdx⟩

/-- After the node rings, the pipeline or the table. -/
theorem afterNodes_fits (hquiet : s.Quiet) (hok : s.Ok b) :
    RxBand.Fits b { s with mail := afterNodes cfg rxRing } := by
  unfold RxBand.Fits afterNodes
  cases cfg.pipe
  · exact ⟨rfl, hquiet, hok.mailAt _⟩
  · exact ⟨rfl, hquiet, hok.mailAt _⟩


theorem afterNodes_early (size : ℕ) : (afterNodes cfg size).early = true := by
  unfold afterNodes
  cases cfg.pipe <;> rfl

/-- A place of the mail before it looks at `init_done` leaves the live
    slots alone. -/
theorem live_early {pc : SetDescPc} (h : s.mail.early = true ∨ s.mail = .idle)
    (hpc : pc.early = true) : RxBand.live { s with mail := pc } = s.live := by
  rw [live_of_early h, live_of_early (.inl hpc)]

/-- A set-up mail between the calls of the other harts begins. -/
theorem wifiMailSetDesc_kept {band : ℕ} (hfits : l.band.Fits b) (hquiet : l.band.Quiet)
    (hband : band ≤ 1) (h : wifiMailSetDesc cfg band rxRing l = some l') :
    BandKept points b l l' := by
  unfold wifiMailSetDesc at h
  cases hpc : l.band.mail with
  | idle =>
    rw [hpc] at h
    dsimp only at h
    rw [if_pos hband] at h
    obtain rfl := Option.some.inj h
    have hok : l.band.Ok b := hfits.ok (by rw [hpc]; rfl)
    have hlive : (l.band.rewind rxRing).live = l.band.live := by
      rw [live_of_early (.inr hpc), live_of_early (.inl rfl)]
      rfl
    -- the rings have their nodes, in whatever order
    have hwholes : (l.band.rewind rxRing).wholeIds b = l.band.wholeIds b := by
      rw [wholeIds_of_idle (s := l.band.rewind rxRing) hquiet.2.2 (wholeRing_pos b),
        wholeIds_of_idle hquiet.2.2 (FlagRing.Holds.ridx_lt hok.wholes)]
      rfl
    have hsegs : (l.band.rewind rxRing).segIds = l.band.segIds := by
      rw [segIds_of_idle (s := l.band.rewind rxRing) hquiet.2.1 (by decide : 0 < rxnodeRingSize),
        segIds_of_idle hquiet.2.1 (FlagRing.Holds.ridx_lt hok.segs)]
      rfl
    refine ⟨?_, ?_, ?_⟩
    · unfold RxLocal.total RxBand.held
      dsimp only
      rw [hlive, hwholes, hsegs]
      rfl
    · exact ⟨rfl, hquiet, hok.cpuIdx, FlagRing.swept_rewind _, FlagRing.swept_rewind _⟩
    · rw [hlive]
      exact fun h => h
  | _ =>
    rw [hpc] at h
    cases h

/-- The mail clears a node of the whole frames. -/
theorem BandKept.wipedWhole {i size : ℕ} (hfits : l.band.Fits b)
    (hpc : l.band.mail = .wholes i size) (hi : i < wholeRing b) :
    BandKept points b l { l with band := l.band.wipeWhole i size } := by
  unfold RxBand.Fits at hfits
  rw [hpc] at hfits
  obtain ⟨hsize, hquiet, hcpu, hwholes, hsegs⟩ := hfits
  have hr : l.band.wholes.ridx < wholeRing b := by
    rw [hwholes.ridx]
    exact wholeRing_pos b
  have hlive : (l.band.wipeWhole i size).live = l.band.live := by
    rw [live_of_early (s := l.band) (.inl (by rw [hpc]; rfl)), live_of_early (.inl rfl)]
    rfl
  have hids : (l.band.wipeWhole i size).wholeIds b +
      ((l.band.wholes.slot i).toList.map PiNode.bufId : Multiset ℕ) = l.band.wholeIds b := by
    rw [wholeIds_of_idle (s := l.band.wipeWhole i size) hquiet.2.2 hr,
      wholeIds_of_idle hquiet.2.2 hr]
    exact map_filled_wipe l.band.wholes PiNode.bufId hi
  refine ⟨?_, ⟨hsize, hquiet, hcpu, hwholes.wipe hi, hsegs⟩, ?_⟩
  · unfold RxLocal.total RxBand.held
    dsimp only
    rw [hlive, ← hids]
    show _ + (_ + _ + l.band.segIds + _ + ((l.band.lost ++ _ : List ℕ) : Multiset ℕ)) =
      _ + (_ + _ + l.band.segIds + _ + _)
    rw [← Multiset.coe_add]
    show _ + (slotIds l.band.live l.band.tbl + l.band.rx.hand + _ + _ + _) = _
    abel
  · rw [hlive]
    exact fun h => h

/-- The mail clears a node of the segments. -/
theorem BandKept.wipedSeg {i size : ℕ} (hfits : l.band.Fits b) (hpc : l.band.mail = .segs i size)
    (hi : i < rxnodeRingSize) : BandKept points b l { l with band := l.band.wipeSeg i size } := by
  unfold RxBand.Fits at hfits
  rw [hpc] at hfits
  obtain ⟨hsize, hquiet, hcpu, hwholes, hsegs⟩ := hfits
  have hr : l.band.segs.ridx < rxnodeRingSize := by
    rw [hsegs.ridx]
    decide
  have hlive : (l.band.wipeSeg i size).live = l.band.live := by
    rw [live_of_early (s := l.band) (.inl (by rw [hpc]; rfl)), live_of_early (.inl rfl)]
    rfl
  have hids : (l.band.wipeSeg i size).segIds +
      ((l.band.segs.slot i).toList.map RxNode.bufId : Multiset ℕ) = l.band.segIds := by
    rw [segIds_of_idle (s := l.band.wipeSeg i size) hquiet.2.1 hr, segIds_of_idle hquiet.2.1 hr]
    exact map_filled_wipe l.band.segs RxNode.bufId hi
  refine ⟨?_, ⟨hsize, hquiet, hcpu, hwholes, hsegs.wipe hi⟩, ?_⟩
  · unfold RxLocal.total RxBand.held
    dsimp only
    rw [hlive, ← hids]
    show _ + (_ + _ + _ + l.band.wholeIds b + ((l.band.lost ++ _ : List ℕ) : Multiset ℕ)) =
      _ + (_ + _ + _ + l.band.wholeIds b + _)
    rw [← Multiset.coe_add]
    show _ + (slotIds l.band.live l.band.tbl + l.band.rx.hand + _ + _ + _) = _
    abel
  · rw [hlive]
    exact fun h => h

/-- The mail clears a slot of the pipeline. -/
theorem BandKept.wipedPipe {i size : ℕ} (hfits : l.band.Fits b) (hpc : l.band.mail = .pipe i size)
    (hi : i < kitePipeEntries) : BandKept points b l (l.wipePipe i size) := by
  unfold RxBand.Fits at hfits
  rw [hpc] at hfits
  obtain ⟨hsize, hquiet, hok⟩ := hfits
  have hlive : (l.wipePipe i size).band.live = l.band.live := by
    rw [live_of_early (s := l.band) (.inl (by rw [hpc]; rfl)), live_of_early (.inl rfl)]
    rfl
  have hids : (l.pipe.wipe i).filled kitePipeEntries + ((l.pipe.slot i).toList : Multiset ℕ) =
      l.pipe.filled kitePipeEntries := FlagRing.filled_wipe hi
  refine ⟨?_, ⟨hsize, hquiet, hok.segs, hok.segDrain, hok.wholes, hok.wholeDrain, hok.rx,
    hok.cpuIdx⟩, ?_⟩
  · unfold RxLocal.total RxBand.held
    rw [hlive, ← hids]
    show _ + (l.pipe.wipe i).filled kitePipeEntries +
      (_ + _ + l.band.segIds + l.band.wholeIds b + ((l.band.lost ++ _ : List ℕ) : Multiset ℕ)) = _
    rw [← Multiset.coe_add]
    show l.pool + l.away + _ + (slotIds l.band.live l.band.tbl + l.band.rx.hand + _ + _ + _) = _
    abel
  · rw [hlive]
    exact fun h => h

/-- A set-up after one that ran out of ids: those of its slots are lost. -/
theorem BandKept.forgotten {size : ℕ} (hfits : l.band.Fits b) (hpc : l.band.mail = .table size)
    (hdone : l.band.initDone = false) :
    BandKept points b l { l with band := l.band.forget size } := by
  unfold RxBand.Fits at hfits
  rw [hpc] at hfits
  obtain ⟨hsize, hquiet, hok⟩ := hfits
  have hlive : l.band.live = Finset.range l.band.unset := by
    rw [live_of_early (s := l.band) (.inl (by rw [hpc]; rfl)), hdone]
    rfl
  have hslots : slotIds (Finset.range l.band.unset) l.band.tbl =
      (((List.range l.band.unset).map l.band.tbl : List ℕ) : Multiset ℕ) := slotIds_eq_map _ _
  refine ⟨?_, ⟨hsize, hquiet, ⟨hok.segs, hok.segDrain, hok.wholes, hok.wholeDrain, hok.rx,
    hok.cpuIdx⟩, hdone, Nat.zero_le _⟩, fun _ i hi => absurd hi (Finset.notMem_empty i)⟩
  unfold RxLocal.total RxBand.held
  rw [hlive, hslots]
  show _ + (0 + _ + l.band.segIds + l.band.wholeIds b +
    ((l.band.lost ++ _ : List ℕ) : Multiset ℕ)) = _
  rw [← Multiset.coe_add]
  show _ + (0 + l.band.rx.hand + _ + _ + _) = _
  abel

/-- The set-up gives back the id of a slot. -/
theorem BandKept.freed {i size : ℕ} (hfits : l.band.Fits b) (hpc : l.band.mail = .freeing i size)
    (hi : i < size) :
    BandKept points b l { l.mailAt (.freeing (i + 1) size) with
      pool := l.band.tbl i ::ₘ l.pool } := by
  unfold RxBand.Fits at hfits
  rw [hpc] at hfits
  obtain ⟨rfl, hquiet, hok, hdone, -⟩ := hfits
  have hlive : l.band.live = Finset.Ico i rxRing := by
    unfold RxBand.live
    rw [hpc]
  refine ⟨?_, ⟨rfl, hquiet, ⟨hok.segs, hok.segDrain, hok.wholes, hok.wholeDrain, hok.rx,
    hok.cpuIdx⟩, hdone, hi⟩, ?_⟩
  · unfold RxLocal.total RxBand.held
    rw [hlive, slotIds_Ico hi]
    show (l.band.tbl i ::ₘ l.pool) + _ + _ + (slotIds (Finset.Ico (i + 1) rxRing) l.band.tbl +
      _ + l.band.segIds + l.band.wholeIds b + _) = _
    rw [← Multiset.singleton_add]
    show {l.band.tbl i} + l.pool + l.away + l.pipe.filled kitePipeEntries +
      (_ + l.band.rx.hand + _ + _ + (l.band.lost : Multiset ℕ)) = _
    abel
  · intro h j hj
    have hj' : i + 1 ≤ j ∧ j < rxRing := Finset.mem_Ico.mp hj
    refine h j ?_
    rw [hlive]
    exact Finset.mem_Ico.mpr ⟨by omega, hj'.2⟩

/-- The set-up fills a slot. -/
theorem BandKept.filled {i id size : ℕ} (hfits : l.band.Fits b)
    (hpc : l.band.mail = .filling i size) (hi : i < size) (hid : id ∈ l.pool)
    (haddr : points id (pktDma cfg.pktBuf id)) :
    BandKept points b l { l with
      band := { l.band.arm i id (pktDma cfg.pktBuf id) with mail := .filling (i + 1) size }
      pool := l.pool.erase id } := by
  unfold RxBand.Fits at hfits
  rw [hpc] at hfits
  obtain ⟨rfl, hquiet, hok, hdone, -⟩ := hfits
  have hlive : l.band.live = Finset.range i := by
    unfold RxBand.live
    rw [hpc]
  refine ⟨?_, ⟨rfl, hquiet, ⟨hok.segs, hok.segDrain, hok.wholes, hok.wholeDrain, hok.rx,
    hok.cpuIdx⟩, hdone, hi⟩, ?_⟩
  · unfold RxLocal.total RxBand.held
    rw [hlive]
    conv_rhs => rw [← Multiset.cons_erase hid, ← Multiset.singleton_add]
    show _ + (slotIds (Finset.range (i + 1)) (Function.update l.band.tbl i id) + _ +
      l.band.segIds + l.band.wholeIds b + _) = _
    rw [slotIds_range_succ]
    show l.pool.erase id + l.away + l.pipe.filled kitePipeEntries +
      (_ + l.band.rx.hand + _ + _ + (l.band.lost : Multiset ℕ)) = _
    abel
  · intro h j hj
    by_cases hji : j = i
    · rw [hji]
      exact armedAt_arm l.band i id _ haddr l.band.rx l.band.cpuIdx
    · have hj' : j < i + 1 := Finset.mem_range.mp hj
      refine armedAt_arm_of_ne hji (h j ?_) l.band.rx l.band.cpuIdx
      rw [hlive]
      exact Finset.mem_range.mpr (by omega)

/-- One step of a set-up mail keeps the ids and the descriptors. -/
theorem setDescStep_kept {id : Option ℕ} (hfits : l.band.Fits b)
    (hdma : ∀ id, points id (pktDma cfg.pktBuf id)) (h : setDescStep cfg b id l = some l') :
    BandKept points b l l' := by
  have hat := hfits
  unfold RxBand.Fits at hat
  unfold setDescStep at h
  dsimp only at h
  cases hpc : l.band.mail with
  | idle =>
    rw [hpc] at h
    cases h
  | wholes i size =>
    rw [hpc] at h hat
    dsimp only at h
    split_ifs at h with hi
    · obtain rfl := Option.some.inj h
      exact .wipedWhole hfits hpc hi
    · -- all clear: the ring is an empty one
      obtain rfl := Option.some.inj h
      obtain ⟨hsize, hquiet, hcpu, hwholes, hsegs⟩ := hat
      obtain rfl : i = wholeRing b := le_antisymm hwholes.le (not_lt.mp hi)
      exact .mailAt (live_early (.inl (by rw [hpc]; rfl)) rfl)
        ⟨hsize, hquiet, hcpu, hwholes.ok (wholeRing_pos b), hsegs⟩
  | segs i size =>
    rw [hpc] at h hat
    dsimp only at h
    split_ifs at h with hi
    · obtain rfl := Option.some.inj h
      exact .wipedSeg hfits hpc hi
    · obtain rfl := Option.some.inj h
      obtain ⟨rfl, hquiet, hcpu, hwholes, hsegs⟩ := hat
      obtain rfl : i = rxnodeRingSize := le_antisymm hsegs.le (not_lt.mp hi)
      exact .mailAt (live_early (.inl (by rw [hpc]; rfl)) (afterNodes_early _))
        (afterNodes_fits hquiet (ok_of_quiet hquiet (hsegs.ok (by decide)) hwholes hcpu))
  | pipe i size =>
    rw [hpc] at h hat
    dsimp only at h
    split_ifs at h with hi
    · obtain rfl := Option.some.inj h
      exact .wipedPipe hfits hpc hi
    · obtain rfl := Option.some.inj h
      obtain ⟨hsize, hquiet, hok⟩ := hat
      exact .mailAt (live_early (.inl (by rw [hpc]; rfl)) rfl) ⟨hsize, hquiet, hok.mailAt _⟩
  | table size =>
    rw [hpc] at h hat
    dsimp only at h
    split_ifs at h with hdone
    · -- the ring is in use: all its slots are to be given back
      obtain rfl := Option.some.inj h
      obtain ⟨rfl, hquiet, hok⟩ := hat
      have hlive : l.band.live = Finset.Ico 0 rxRing := by
        rw [live_of_early (.inl (by rw [hpc]; rfl)), if_pos hdone, hquiet.1,
          ← Finset.range_eq_Ico]
        rfl
      refine ⟨?_, ⟨rfl, hquiet, ⟨hok.segs, hok.segDrain, hok.wholes, hok.wholeDrain, hok.rx,
        hok.cpuIdx⟩, rfl, Nat.zero_le _⟩, ?_⟩
      · rw [hlive]
        rfl
      · rw [hlive]
        exact fun h => h
    · obtain rfl := Option.some.inj h
      exact .forgotten hfits hpc (Bool.not_eq_true _ ▸ hdone)
  | freeing i size =>
    rw [hpc] at h hat
    dsimp only at h
    split_ifs at h with hi
    · obtain rfl := Option.some.inj h
      exact .freed hfits hpc hi
    · -- all given back: no slot holds an id
      obtain rfl := Option.some.inj h
      obtain ⟨rfl, hquiet, hok, hdone, hle⟩ := hat
      obtain rfl : i = rxRing := le_antisymm hle (not_lt.mp hi)
      refine .mailAt ?_ ⟨rfl, hquiet, hok.mailAt _, hdone, Nat.zero_le _⟩
      unfold RxBand.live
      rw [hpc]
      exact (Finset.Ico_self rxRing).symm
  | filling i size =>
    rw [hpc] at h hat
    dsimp only at h
    obtain ⟨rfl, hquiet, hok, hdone, hle⟩ := hat
    split_ifs at h with hi
    · rcases alloc_cases h with rfl | ⟨id, hid, rfl⟩
      · -- the pool has no id: the slots filled so far keep theirs
        have hlive : RxBand.live { l.band with mail := .idle, unset := i } = l.band.live := by
          rw [live_of_early (.inr rfl)]
          unfold RxBand.live
          rw [hpc, hdone]
          rfl
        refine ⟨?_, ⟨⟨hok.segs, hok.segDrain, hok.wholes, hok.wholeDrain, hok.rx, hok.cpuIdx⟩,
          .inr hquiet⟩, ?_⟩
        · rw [hlive]
          rfl
        · rw [hlive]
          exact fun h => h
      · exact .filled hfits hpc hi hid (hdma id)
    · obtain rfl := Option.some.inj h
      obtain rfl : i = rxRing := le_antisymm hle (not_lt.mp hi)
      have hlive : RxBand.live { l.band with mail := .idle, cpuIdx := 0, initDone := true } =
          l.band.live := by
        rw [live_of_early (.inr rfl)]
        unfold RxBand.live
        rw [hpc, hquiet.1]
        rfl
      refine ⟨?_, ⟨⟨hok.segs, hok.segDrain, hok.wholes, hok.wholeDrain, hok.rx, Nat.succ_pos _⟩,
        .inl rfl⟩, ?_⟩
      · rw [hlive]
        rfl
      · rw [hlive]
        exact fun h => h

/-! ## What is around a band -/

/-- A frame queued from elsewhere -/
theorem otherStep_kept {e : PiNode} (hfits : l.band.Fits b)
    (hclear : l.band.mail.clearing = false) (h : otherStep b e l = some l') :
    BandKept points b l l' := by
  have hok := hfits.ok hclear
  unfold otherStep at h
  split_ifs at h with haway
  cases hput : l.band.wholes.put (wholeRing b) e with
  | none =>
    rw [hput] at h
    obtain rfl := Option.some.inj h
    exact ⟨rfl, hfits, fun h => h⟩
  | some r =>
    rw [hput] at h
    obtain rfl := Option.some.inj h
    obtain ⟨hr, hgiven, hids⟩ := wholes_put hok hput
    refine ⟨?_, hfits.of_ok hclear ⟨hok.segs, hok.segDrain, hr, hgiven, hok.rx, hok.cpuIdx⟩
      rfl rfl fun h => h, fun h => h⟩
    obtain ⟨rest, hrest⟩ := Multiset.exists_cons_of_mem haway
    unfold RxLocal.total RxBand.held
    show _ + l.away.erase e.bufId + _ +
      (_ + _ + l.band.segIds + RxBand.wholeIds b { l.band with wholes := r } + _) = _
    rw [hids, hrest, Multiset.erase_cons_head, ← Multiset.singleton_add]
    show l.pool + _ + l.pipe.filled kitePipeEntries +
      (slotIds l.band.live l.band.tbl + l.band.rx.hand + _ + _ + (l.band.lost : Multiset ℕ)) = _
    abel

theorem chipStep_kept (i : ℕ) (w1 : BitVec 32) (hfits : l.band.Fits b) :
    BandKept points b l (chipStep i w1 l) := by
  refine ⟨rfl, ?_, ?_⟩
  · unfold RxBand.Fits at hfits ⊢
    show SetDescPc.Fits b (chipStep i w1 l).band l.band.mail
    have hok (hok : l.band.Ok b) : (chipStep i w1 l).band.Ok b :=
      ⟨hok.segs, hok.segDrain, hok.wholes, hok.wholeDrain, hok.rx, hok.cpuIdx⟩
    cases hpc : l.band.mail with
    | idle => rw [hpc] at hfits; exact ⟨hok hfits.1, hfits.2⟩
    | wholes i size => rw [hpc] at hfits; exact hfits
    | segs i size => rw [hpc] at hfits; exact hfits
    | pipe i size => rw [hpc] at hfits; exact ⟨hfits.1, hfits.2.1, hok hfits.2.2⟩
    | table size => rw [hpc] at hfits; exact ⟨hfits.1, hfits.2.1, hok hfits.2.2⟩
    | freeing i size =>
      rw [hpc] at hfits
      exact ⟨hfits.1, hfits.2.1, hok hfits.2.2.1, hfits.2.2.2⟩
    | filling i size =>
      rw [hpc] at hfits
      exact ⟨hfits.1, hfits.2.1, hok hfits.2.2.1, hfits.2.2.2⟩
  · intro harmed j hj
    obtain ⟨haddr, hlen⟩ := harmed j hj
    unfold chipStep RxBand.ArmedAt
    dsimp only
    by_cases hji : j = i
    · -- the descriptor the chip fills: its address stays, bit 31 is set
      rw [hji, Function.update_self]
      rw [hji] at haddr
      refine ⟨haddr, .inl ?_⟩
      unfold RxDesc.done
      simp
    · rw [Function.update_of_ne hji]
      exact ⟨haddr, hlen⟩

/-! ## What a step leaves alone -/

/-- The rx function runs only on a ring that is set up, or is in a call. -/
theorem rxStep_runs {id : Option ℕ} {v : RxVerdict} (h : rxStep cfg b id v l = some l') :
    l.band.initDone = true ∨ ¬ l.band.Quiet := by
  by_cases hidle : l.band.rx = .idle
  · unfold rxStep at h
    dsimp only at h
    rw [hidle] at h
    dsimp only at h
    split_ifs at h with hdone
    exact .inl hdone
  · exact .inr fun hquiet => hidle hquiet.1

theorem segDrainStep_runs (h : segDrainStep cfg l = some l') :
    l.band.initDone = true ∨ ¬ l.band.Quiet := by
  by_cases hidle : l.band.segDrain = .idle
  · unfold segDrainStep at h
    dsimp only at h
    rw [hidle] at h
    dsimp only at h
    split_ifs at h with hdone
    exact .inl hdone
  · exact .inr fun hquiet => hidle hquiet.2.1

theorem wholeDrainStep_runs (h : wholeDrainStep b l = some l') :
    l.band.initDone = true ∨ ¬ l.band.Quiet := by
  by_cases hidle : l.band.wholeDrain = .idle
  · unfold wholeDrainStep at h
    dsimp only at h
    rw [hidle] at h
    dsimp only at h
    split_ifs at h with hdone
    exact .inl hdone
  · exact .inr fun hquiet => hidle hquiet.2.2

/-- Core 3 takes a segment by the last retry. -/
def RxBand.Taken (b : Bool) (s : RxBand) : Prop :=
  ∀ idx n len count seg id, s.rx = .seg idx n len count seg id 0 →
    s.putSeg b idx len count seg ≠ none

/-- What the rx function leaves alone: the set-up, the pipeline but for a
    frame it puts there, and the lost ids unless core 3 is stuck. -/
structure RxStays (b : Bool) (l l' : RxLocal) : Prop where
  mail : l'.band.mail = l.band.mail
  initDone : l'.band.initDone = l.band.initDone
  pipe : l'.pipe = l.pipe ∨ ∃ id, l.pipe.put kitePipeEntries id = some l'.pipe
  lost : l.band.Taken b → l'.band.lost = l.band.lost

/-- A segment queued leaves all but the rings alone. -/
theorem putSeg_stays {s' : RxBand} {idx len count : ℕ} {seg : BitVec 8}
    (h : s.putSeg b idx len count seg = some s') :
    s'.mail = s.mail ∧ s'.initDone = s.initDone ∧ s'.lost = s.lost := by
  unfold RxBand.putSeg at h
  dsimp only at h
  split_ifs at h
  · obtain ⟨r, -, rfl⟩ := Option.map_eq_some_iff.mp h
    exact ⟨rfl, rfl, rfl⟩
  · obtain ⟨r, -, rfl⟩ := Option.map_eq_some_iff.mp h
    exact ⟨rfl, rfl, rfl⟩

theorem rxStep_stays {id : Option ℕ} {v : RxVerdict} (h : rxStep cfg b id v l = some l') :
    RxStays b l l' := by
  unfold rxStep at h
  dsimp only at h
  cases hpc : l.band.rx with
  | idle =>
    rw [hpc] at h
    dsimp only at h
    split_ifs at h
    obtain rfl := Option.some.inj h
    exact ⟨rfl, rfl, .inl rfl, fun _ => rfl⟩
  | called =>
    rw [hpc] at h
    dsimp only at h
    cases hframe : kiteRxFrame l.band.desc l.band.cpuIdx rxRing with
    | none =>
      rw [hframe] at h
      cases h
    | some r =>
      rw [hframe] at h
      dsimp only at h
      split_ifs at h
      · obtain rfl := Option.some.inj h
        exact ⟨rfl, rfl, .inl rfl, fun _ => rfl⟩
      · obtain rfl := Option.some.inj h
        exact ⟨rfl, rfl, .inl rfl, fun _ => rfl⟩
      · obtain rfl := Option.some.inj h
        unfold RxLocal.multi
        dsimp only
        split_ifs <;> exact ⟨rfl, rfl, .inl rfl, fun _ => rfl⟩
  | single ridx len =>
    rw [hpc] at h
    rcases alloc_cases h with rfl | ⟨j, -, rfl⟩ <;> exact ⟨rfl, rfl, .inl rfl, fun _ => rfl⟩
  | classify old len =>
    rw [hpc] at h
    cases v with
    | taken =>
      obtain rfl := Option.some.inj h
      exact ⟨rfl, rfl, .inl rfl, fun _ => rfl⟩
    | left alone =>
      obtain rfl := Option.some.inj h
      exact ⟨rfl, rfl, .inl rfl, fun _ => rfl⟩
    | piped =>
      dsimp only at h
      split_ifs at h
      cases hput : l.pipe.put kitePipeEntries old with
      | none =>
        rw [hput] at h
        obtain rfl := Option.some.inj h
        exact ⟨rfl, rfl, .inl rfl, fun _ => rfl⟩
      | some r =>
        rw [hput] at h
        obtain rfl := Option.some.inj h
        exact ⟨rfl, rfl, .inr ⟨old, hput⟩, fun _ => rfl⟩
  | forward e next =>
    rw [hpc] at h
    dsimp only at h
    split at h
    all_goals
      obtain rfl := Option.some.inj h
      exact ⟨rfl, rfl, .inl rfl, fun _ => rfl⟩
  | giveBack id next =>
    rw [hpc] at h
    obtain rfl := Option.some.inj h
    exact ⟨rfl, rfl, .inl rfl, fun _ => rfl⟩
  | skip idx n =>
    rw [hpc] at h
    cases n <;>
      · obtain rfl := Option.some.inj h
        exact ⟨rfl, rfl, .inl rfl, fun _ => rfl⟩
  | segs idx n len count seg =>
    rw [hpc] at h
    cases n with
    | zero =>
      obtain rfl := Option.some.inj h
      exact ⟨rfl, rfl, .inl rfl, fun _ => rfl⟩
    | succ n =>
      rcases alloc_cases h with rfl | ⟨j, -, rfl⟩ <;> exact ⟨rfl, rfl, .inl rfl, fun _ => rfl⟩
  | seg idx n len count seg id tries =>
    rw [hpc] at h
    dsimp only at h
    cases hput : l.band.putSeg b idx len count seg with
    | some s =>
      rw [hput] at h
      obtain rfl := Option.some.inj h
      obtain ⟨hmail, hdone, hlost⟩ := putSeg_stays hput
      exact ⟨hmail, hdone, .inl rfl, fun _ => hlost⟩
    | none =>
      rw [hput] at h
      dsimp only at h
      split_ifs at h with htries
      · -- the retries are used up: the fresh id is lost
        obtain rfl := Option.some.inj h
        subst htries
        exact ⟨rfl, rfl, .inl rfl, fun htaken => absurd hput (htaken _ _ _ _ _ _ hpc)⟩
      · obtain rfl := Option.some.inj h
        exact ⟨rfl, rfl, .inl rfl, fun _ => rfl⟩
  | refill idx n len count seg id =>
    rw [hpc] at h
    obtain rfl := Option.some.inj h
    exact ⟨rfl, rfl, .inl rfl, fun _ => rfl⟩
  | copyAlloc idx n len =>
    rw [hpc] at h
    rcases alloc_cases h with rfl | ⟨j, -, rfl⟩ <;> exact ⟨rfl, rfl, .inl rfl, fun _ => rfl⟩
  | copy idx n len id =>
    rw [hpc] at h
    cases n <;>
      · obtain rfl := Option.some.inj h
        exact ⟨rfl, rfl, .inl rfl, fun _ => rfl⟩

/-- The head of the whole frames has a length. -/
def RxBand.Lengthy (s : RxBand) : Prop :=
  s.wholeDrain = .called → ∀ e, s.wholes.slot s.wholes.ridx = some e → e.pktLen ≠ 0

/-- What a drain leaves alone: the set-up, the pipeline, and under a
    condition the lost ids. -/
structure DrainStays (spares : Prop) (l l' : RxLocal) : Prop where
  mail : l'.band.mail = l.band.mail
  initDone : l'.band.initDone = l.band.initDone
  pipe : l'.pipe = l.pipe
  lost : spares → l'.band.lost = l.band.lost

theorem segDrainStep_stays (h : segDrainStep cfg l = some l') : DrainStays True l l' := by
  unfold segDrainStep at h
  dsimp only at h
  cases hpc : l.band.segDrain with
  | idle =>
    rw [hpc] at h
    dsimp only at h
    split_ifs at h
    obtain rfl := Option.some.inj h
    exact ⟨rfl, rfl, rfl, fun _ => rfl⟩
  | called =>
    rw [hpc] at h
    dsimp only at h
    split at h <;>
      · obtain rfl := Option.some.inj h
        exact ⟨rfl, rfl, rfl, fun _ => rfl⟩
  | scan i tries count =>
    rw [hpc] at h
    dsimp only at h
    split at h <;> split_ifs at h <;>
      · obtain rfl := Option.some.inj h
        exact ⟨rfl, rfl, rfl, fun _ => rfl⟩
  | process count =>
    rw [hpc] at h
    cases count <;>
      · obtain rfl := Option.some.inj h
        exact ⟨rfl, rfl, rfl, fun _ => rfl⟩
  | clear count =>
    rw [hpc] at h
    obtain rfl := Option.some.inj h
    exact ⟨rfl, rfl, rfl, fun _ => rfl⟩

theorem wholeDrainStep_stays (h : wholeDrainStep b l = some l') :
    DrainStays l.band.Lengthy l l' := by
  unfold wholeDrainStep at h
  dsimp only at h
  cases hpc : l.band.wholeDrain with
  | idle =>
    rw [hpc] at h
    dsimp only at h
    split_ifs at h
    obtain rfl := Option.some.inj h
    exact ⟨rfl, rfl, rfl, fun _ => rfl⟩
  | called =>
    rw [hpc] at h
    dsimp only at h
    cases hslot : l.band.wholes.slot l.band.wholes.ridx with
    | none =>
      rw [hslot] at h
      obtain rfl := Option.some.inj h
      exact ⟨rfl, rfl, rfl, fun _ => rfl⟩
    | some e =>
      rw [hslot] at h
      dsimp only at h
      split_ifs at h with hlen
      · obtain rfl := Option.some.inj h
        exact ⟨rfl, rfl, rfl, fun hlengthy => absurd hlen (hlengthy hpc e hslot)⟩
      · obtain rfl := Option.some.inj h
        exact ⟨rfl, rfl, rfl, fun _ => rfl⟩
  | clear =>
    rw [hpc] at h
    obtain rfl := Option.some.inj h
    exact ⟨rfl, rfl, rfl, fun _ => rfl⟩

theorem otherStep_stays {e : PiNode} (h : otherStep b e l = some l') :
    l'.pipe = l.pipe ∧ l'.band.lost = l.band.lost := by
  unfold otherStep at h
  split_ifs at h
  split at h
  all_goals
    obtain rfl := Option.some.inj h
    exact ⟨rfl, rfl⟩

theorem wifiMailSetDesc_stays {band size : ℕ} (h : wifiMailSetDesc cfg band size l = some l') :
    l'.pipe = l.pipe ∧ l'.band.lost = l.band.lost := by
  unfold wifiMailSetDesc at h
  cases hpc : l.band.mail with
  | idle =>
    rw [hpc] at h
    dsimp only at h
    split_ifs at h
    all_goals
      obtain rfl := Option.some.inj h
      exact ⟨rfl, rfl⟩
  | _ =>
    rw [hpc] at h
    cases h

/-- A step of a set-up mail that finds nothing to lose: no id in the node
    or slot it clears, and no set-up before it that ran out of ids. -/
def SetDescPc.Spares (b : Bool) (l : RxLocal) : SetDescPc → Prop
  | .wholes i _ => i < wholeRing b → l.band.wholes.slot i = none
  | .segs i _ => i < rxnodeRingSize → l.band.segs.slot i = none
  | .pipe i _ => i < kitePipeEntries → l.pipe.slot i = none
  | .table _ => l.band.initDone = false → l.band.unset = 0
  | _ => True

/-- What a step of a set-up mail leaves alone: the pipeline but for the
    slot it clears, and the lost ids if it finds nothing to lose. -/
structure SetDescStays (b : Bool) (l l' : RxLocal) : Prop where
  pipe : l'.pipe = l.pipe ∨ l.band.mail.piping = true ∧ ∃ i, l'.pipe = l.pipe.wipe i
  lost : l.band.mail.Spares b l → l'.band.lost = l.band.lost

theorem setDescStep_stays {id : Option ℕ} (h : setDescStep cfg b id l = some l') :
    SetDescStays b l l' := by
  unfold setDescStep at h
  dsimp only at h
  cases hpc : l.band.mail with
  | idle =>
    rw [hpc] at h
    cases h
  | wholes i size =>
    rw [hpc] at h
    dsimp only at h
    split_ifs at h with hi
    · obtain rfl := Option.some.inj h
      refine ⟨.inl rfl, fun hspares => ?_⟩
      rw [hpc] at hspares
      show l.band.lost ++ (l.band.wholes.slot i).toList.map PiNode.bufId = _
      rw [hspares hi]
      exact List.append_nil _
    · obtain rfl := Option.some.inj h
      exact ⟨.inl rfl, fun _ => rfl⟩
  | segs i size =>
    rw [hpc] at h
    dsimp only at h
    split_ifs at h with hi
    · obtain rfl := Option.some.inj h
      refine ⟨.inl rfl, fun hspares => ?_⟩
      rw [hpc] at hspares
      show l.band.lost ++ (l.band.segs.slot i).toList.map RxNode.bufId = _
      rw [hspares hi]
      exact List.append_nil _
    · obtain rfl := Option.some.inj h
      exact ⟨.inl rfl, fun _ => rfl⟩
  | pipe i size =>
    rw [hpc] at h
    dsimp only at h
    split_ifs at h with hi
    · obtain rfl := Option.some.inj h
      refine ⟨.inr ⟨by rw [hpc]; rfl, i, rfl⟩, fun hspares => ?_⟩
      rw [hpc] at hspares
      show l.band.lost ++ (l.pipe.slot i).toList = _
      rw [hspares hi]
      exact List.append_nil _
    · obtain rfl := Option.some.inj h
      exact ⟨.inl rfl, fun _ => rfl⟩
  | table size =>
    rw [hpc] at h
    dsimp only at h
    split_ifs at h with hdone
    · obtain rfl := Option.some.inj h
      exact ⟨.inl rfl, fun _ => rfl⟩
    · obtain rfl := Option.some.inj h
      refine ⟨.inl rfl, fun hspares => ?_⟩
      rw [hpc] at hspares
      show l.band.lost ++ (List.range l.band.unset).map l.band.tbl = _
      rw [hspares (Bool.eq_false_iff.mpr hdone)]
      exact List.append_nil _
  | freeing i size =>
    rw [hpc] at h
    dsimp only at h
    split_ifs at h
    all_goals
      obtain rfl := Option.some.inj h
      exact ⟨.inl rfl, fun _ => rfl⟩
  | filling i size =>
    rw [hpc] at h
    dsimp only at h
    split_ifs at h
    · rcases alloc_cases h with rfl | ⟨j, -, rfl⟩ <;> exact ⟨.inl rfl, fun _ => rfl⟩
    · obtain rfl := Option.some.inj h
      exact ⟨.inl rfl, fun _ => rfl⟩

end ClankerNPU.Kite
