import ClankerNPU.Kite.RxSetDesc

/-! # Runs of the kite rx path

    As long as the set-up mails meet the other harts between their calls,
    every rx buffer id stays in one place. Ids are lost in four ways only:
    a segment core 3 has no room for to the last retry, a queued frame of
    length 0, a set-up that ran out of ids, and a set-up mail that clears
    a node or slot in use. -/

open scoped BigOperators

namespace ClankerNPU.Kite

open Custody

variable {cfg : RxCfg} {b : Bool} {s : RxBand} {l l' : RxLocal} {points : ℕ → ℕ → Prop}

/-! ## Runs -/

/-- The indices of the pipeline, and the id core 2 has read from the slot
    it is about to clear. -/
structure PipeOk (r : FlagRing ℕ) (worker : Option ℕ) : Prop where
  widx : r.widx < kitePipeEntries
  ridx : r.ridx < kitePipeEntries
  worker : ∀ id, worker = some id → r.slot r.ridx = some id

theorem pipeNext_lt {i : ℕ} (h : i < kitePipeEntries) :
    Circular.next (kitePipeEntries - 1) i < kitePipeEntries := by
  rw [Circular.next_pred_eq_mod h]
  exact Nat.mod_lt _ (by decide)

/-- A frame put into the pipeline is not in the slot core 2 is at. -/
theorem PipeOk.put {r r' : FlagRing ℕ} {worker : Option ℕ} {id : ℕ} (h : PipeOk r worker)
    (hput : r.put kitePipeEntries id = some r') : PipeOk r' worker := by
  unfold FlagRing.put at hput
  split at hput
  · cases hput
  · next hclear =>
    obtain rfl := Option.some.inj hput
    refine ⟨pipeNext_lt h.widx, h.ridx, fun w hw => ?_⟩
    have hslot := h.worker w hw
    have hne : r.ridx ≠ r.widx := by
      intro heq
      rw [← heq, hslot] at hclear
      exact hclear rfl
    show Function.update r.slot r.widx (some id) r.ridx = some w
    rw [Function.update_of_ne hne, hslot]

/-- A set-up mail meets the other harts between their calls: it names one
    of the two bands and the size of the rings, its band's rx function and
    drains are not running when it comes in and begin no call before it
    has looked at `init_done`, no frame is queued while it clears the node
    rings, and core 2 is not at a slot when it clears one. -/
def RxState.Between (s : RxState) : RxAct → Prop
  | .mail band size => band ≤ 1 ∧ size = rxRing ∧ (s.band (rxdBand band)).Quiet
  | .setDesc b _ => (s.band b).mail.piping = true → s.worker = none
  | .rx b _ _ | .segDrain b | .wholeDrain b => (s.band b).mail.early = false
  | .other b _ => (s.band b).mail.clearing = false
  | _ => True

/-- What every state of a run keeps, with the ids there are. -/
structure RxPathInv (points : ℕ → ℕ → Prop) (all : Multiset ℕ) (s : RxState) : Prop where
  sum : ∑ p, s.held p = all
  fits : ∀ b, (s.band b).Fits b
  armed : ∀ b, ∀ i ∈ (s.band b).live, (s.band b).ArmedAt points i
  pipe : PipeOk s.pipe s.worker

/-- A step of one band -/
theorem RxPathInv.put {all : Multiset ℕ} {s : RxState} (hinv : RxPathInv points all s)
    (h : BandKept points b (s.on b) l) (hpipe : PipeOk l.pipe s.worker) :
    RxPathInv points all (s.put b l) := by
  refine ⟨?_, ?_, ?_, hpipe⟩
  · rw [sum_held_put s b l h.total]
    exact hinv.sum
  · intro c
    by_cases hc : c = b
    · subst hc
      rw [put_band]
      exact h.fits
    · rw [put_band_of_ne s l hc]
      exact hinv.fits c
  · intro c
    by_cases hc : c = b
    · subst hc
      rw [put_band]
      exact h.armed (hinv.armed c)
    · rw [put_band_of_ne s l hc]
      exact hinv.armed c

/-- A step of a drain -/
theorem RxPathInv.drained {all : Multiset ℕ} {s : RxState} {spares : Prop}
    (hinv : RxPathInv points all s) (hearly : (s.band b).mail.early = false)
    (hrun : (s.band b).initDone = true ∨ ¬ (s.band b).Quiet)
    (hkeeps : (s.band b).Ok b → Keeps points b (s.on b) l) (hstays : DrainStays spares (s.on b) l) :
    RxPathInv points all (s.put b l) := by
  obtain ⟨hmail, hdone⟩ := (hinv.fits b).running hearly hrun
  have hok : (s.band b).Ok b := (hinv.fits b).ok (by rw [hmail]; rfl)
  refine hinv.put ((hkeeps hok).kept hmail hdone hstays.mail hstays.initDone) ?_
  rw [hstays.pipe]
  exact hinv.pipe

/-- A step of core 2 -/
theorem RxPathInv.worked {all : Multiset ℕ} {s s' : RxState} (hinv : RxPathInv points all s)
    (h : workerStep s = some s') : RxPathInv points all s' := by
  unfold workerStep at h
  cases hw : s.worker with
  | none =>
    rw [hw] at h
    dsimp only at h
    cases hslot : s.pipe.slot s.pipe.ridx with
    | none =>
      rw [hslot] at h
      cases h
    | some id =>
      rw [hslot] at h
      obtain rfl := Option.some.inj h
      refine ⟨?_, hinv.fits, hinv.armed, hinv.pipe.widx, hinv.pipe.ridx, fun w hwid => ?_⟩
      · rw [← hinv.sum, sum_held, sum_held]
        rfl
      · rw [← hwid]
        exact hslot
  | some id =>
    rw [hw] at h
    obtain rfl := Option.some.inj h
    have hslot := hinv.pipe.worker id hw
    have hpop := FlagRing.filled_pop hinv.pipe.ridx hslot
    refine ⟨?_, hinv.fits, hinv.armed, hinv.pipe.widx, pipeNext_lt hinv.pipe.ridx,
      fun w hw => by cases hw⟩
    rw [← hinv.sum, sum_held, sum_held, ← hpop]
    show s.pool + (id ::ₘ s.away) + (s.pipe.pop kitePipeEntries).filled kitePipeEntries +
      ∑ b, s.bandHeld b = _
    rw [← Multiset.singleton_add]
    abel

/-- `points` allows the addresses a step can write. -/
def RxState.Arms (cfg : RxCfg) (points : ℕ → ℕ → Prop) (s : RxState) : RxAct → Prop
  | .rx b _ _ => (s.band b).Arms cfg points
  | .setDesc _ _ => ∀ id, points id (pktDma cfg.pktBuf id)
  | _ => True

theorem RxPathInv.next {all : Multiset ℕ} {s s' : RxState} {a : RxAct}
    (hinv : RxPathInv points all s) (hbetween : s.Between a) (harms : s.Arms cfg points a)
    (h : s.next cfg a = some s') : RxPathInv points all s' := by
  unfold RxState.next at h
  cases a with
  | rx b id v =>
    obtain ⟨l, hl, rfl⟩ := Option.map_eq_some_iff.mp h
    have hstays := rxStep_stays hl
    -- the rx function runs, so no mail is under way in its band
    obtain ⟨hmail, hdone⟩ := (hinv.fits b).running hbetween (rxStep_runs hl)
    have hok : (s.band b).Ok b := (hinv.fits b).ok (by rw [hmail]; rfl)
    have hallowed : (s.band b).Arms cfg points := harms
    refine hinv.put ((rxStep_keeps hok hallowed hinv.pipe.widx hl).kept hmail hdone hstays.mail
      hstays.initDone) ?_
    rcases hstays.pipe with hpipe | ⟨id, hput⟩
    · rw [hpipe]
      exact hinv.pipe
    · exact hinv.pipe.put hput
  | mail band size =>
    obtain ⟨l, hl, rfl⟩ := Option.map_eq_some_iff.mp h
    obtain ⟨hband, rfl, hquiet⟩ := hbetween
    refine hinv.put (wifiMailSetDesc_kept (hinv.fits _) hquiet hband hl) ?_
    rw [(wifiMailSetDesc_stays hl).1]
    exact hinv.pipe
  | setDesc b id =>
    obtain ⟨l, hl, rfl⟩ := Option.map_eq_some_iff.mp h
    refine hinv.put (setDescStep_kept (hinv.fits b) harms hl) ?_
    rcases (setDescStep_stays hl).pipe with hpipe | ⟨hpiping, i, hpipe⟩
    · rw [hpipe]
      exact hinv.pipe
    · -- core 2 is not at a slot
      rw [hpipe]
      refine ⟨hinv.pipe.widx, hinv.pipe.ridx, fun w hw => ?_⟩
      rw [hbetween hpiping] at hw
      cases hw
  | segDrain b =>
    obtain ⟨l, hl, rfl⟩ := Option.map_eq_some_iff.mp h
    exact hinv.drained hbetween (segDrainStep_runs hl) (fun hok => segDrainStep_keeps hok hl)
      (segDrainStep_stays hl)
  | wholeDrain b =>
    obtain ⟨l, hl, rfl⟩ := Option.map_eq_some_iff.mp h
    exact hinv.drained hbetween (wholeDrainStep_runs hl)
      (fun hok => wholeDrainStep_keeps hok hl) (wholeDrainStep_stays hl)
  | chip b i w1 =>
    obtain rfl := Option.some.inj h
    exact hinv.put (chipStep_kept i w1 (hinv.fits b)) hinv.pipe
  | worker => exact hinv.worked h
  | other b e =>
    obtain ⟨l, hl, rfl⟩ := Option.map_eq_some_iff.mp h
    refine hinv.put (otherStep_kept (hinv.fits b) hbetween hl) ?_
    rw [(otherStep_stays hl).1]
    exact hinv.pipe
  | free id =>
    dsimp only at h
    split_ifs at h with hmem
    obtain rfl := Option.some.inj h
    refine ⟨?_, hinv.fits, hinv.armed, hinv.pipe⟩
    -- the id goes from those away to the pool
    rw [← hinv.sum, sum_held, sum_held]
    obtain ⟨rest, hrest⟩ := Multiset.exists_cons_of_mem hmem
    show (id ::ₘ s.pool) + s.away.erase id + _ + _ = _
    rw [hrest, Multiset.erase_cons_head, Multiset.cons_add, Multiset.add_cons]
    rfl

/-- A band before its first set-up mail holds nothing. -/
theorem fresh_fits (b : Bool) (desc : ℕ → RxDesc) :
    (RxBand.fresh desc).Fits b ∧ (RxBand.fresh desc).held (RxBand.fresh desc).live b = 0 := by
  have hsegs : (FlagRing.empty : FlagRing RxNode).contents rxnodeRingSize = [] :=
    FlagRing.contents_empty (by decide)
  have hwholes : (FlagRing.empty : FlagRing PiNode).contents (wholeRing b) = [] :=
    FlagRing.contents_empty (wholeRing_pos b)
  refine ⟨⟨⟨FlagRing.ok_empty (by decide), trivial, FlagRing.ok_empty (wholeRing_pos b),
    Nat.zero_le _, trivial, Nat.succ_pos _⟩, .inr ⟨rfl, rfl, rfl⟩⟩, ?_⟩
  unfold RxBand.held RxBand.segIds RxBand.wholeIds RxBand.fresh
  dsimp only
  rw [hsegs, hwholes]
  rfl

theorem rxPathInv_init {ids : Finset ℕ} {s : RxState} (h : (rxPathSystem cfg ids).init s) :
    RxPathInv points ids.val s := by
  obtain ⟨desc, rfl⟩ := h
  have hpipe : (FlagRing.empty : FlagRing ℕ).filled kitePipeEntries = 0 := by
    rw [← FlagRing.contents_eq_filled (by decide : (0 : ℕ) < kitePipeEntries),
      FlagRing.contents_empty (by decide)]
    rfl
  refine ⟨?_, fun b => (fresh_fits b (desc b)).1, fun b i hi => absurd hi (Finset.notMem_empty i),
    (by decide : 0 < kitePipeEntries), (by decide : 0 < kitePipeEntries),
    fun id hid => by cases hid⟩
  rw [sum_held]
  unfold RxState.bandHeld
  simp only [(fresh_fits _ _).2, hpipe, Finset.sum_const_zero, Multiset.add_zero]

/-- The two addresses of a buffer are all that is ever written. -/
theorem arms_eitherAddr (cfg : RxCfg) (s : RxState) (a : RxAct) : s.Arms cfg cfg.EitherAddr a := by
  cases a with
  | rx b id v => exact ⟨fun _ => .inl rfl, fun _ _ _ _ _ _ _ => .inr rfl⟩
  | setDesc b id => exact fun _ => .inl rfl
  | _ => trivial

theorem rxPathInv_of_reachable {ids : Finset ℕ} {s : RxState}
    (h : ((rxPathSystem cfg ids).guarded RxState.Between).Reachable s) :
    RxPathInv cfg.EitherAddr ids.val s := by
  refine h.invariant (fun s hs => ?_) fun s a s' hinv hstep => ?_
  · exact rxPathInv_init (show (rxPathSystem cfg ids).init s from hs)
  · exact hinv.next hstep.1 (arms_eitherAddr cfg s a) hstep.2

/-- Every id is in one place, once. -/
theorem RxPathInv.heldOnce {ids : Finset ℕ} {s : RxState} {id : ℕ}
    (hinv : RxPathInv points ids.val s) (hid : id ∈ ids) : HeldOnce s.held id :=
  heldOnce_of_sum hinv.sum ids.nodup hid

/-! ## The losses -/

/-- A step other than those that lose an id: core 3 takes a segment by
    the last retry, a queued frame has a length, and a set-up mail finds
    nothing to lose. -/
def RxState.Careful (s : RxState) : RxAct → Prop
  | .rx b _ _ => (s.band b).Taken b
  | .setDesc b _ => (s.band b).mail.Spares b (s.on b)
  | .wholeDrain b => (s.band b).Lengthy
  | _ => True

/-- The runs without such a step in which the mails meet the other harts
    between their calls. -/
abbrev rxCarefulSystem (cfg : RxCfg) (ids : Finset ℕ) : StepSystem RxState RxAct :=
  ((rxPathSystem cfg ids).guarded RxState.Between).guarded RxState.Careful

/-- A step of a band that loses nothing. -/
theorem put_lost {s : RxState} (h : l.band.lost = (s.band b).lost) (c : Bool) :
    ((s.put b l).band c).lost = (s.band c).lost := by
  by_cases hc : c = b
  · subst hc
    rw [put_band, h]
  · rw [put_band_of_ne s l hc]

theorem next_lost {s s' : RxState} {a : RxAct} (hcare : s.Careful a)
    (h : s.next cfg a = some s') (c : Bool) : (s'.band c).lost = (s.band c).lost := by
  unfold RxState.next at h
  cases a with
  | rx b id v =>
    obtain ⟨l, hl, rfl⟩ := Option.map_eq_some_iff.mp h
    exact put_lost ((rxStep_stays hl).lost hcare) c
  | mail band size =>
    obtain ⟨l, hl, rfl⟩ := Option.map_eq_some_iff.mp h
    exact put_lost (wifiMailSetDesc_stays hl).2 c
  | setDesc b id =>
    obtain ⟨l, hl, rfl⟩ := Option.map_eq_some_iff.mp h
    exact put_lost ((setDescStep_stays hl).lost hcare) c
  | segDrain b =>
    obtain ⟨l, hl, rfl⟩ := Option.map_eq_some_iff.mp h
    exact put_lost ((segDrainStep_stays hl).lost trivial) c
  | wholeDrain b =>
    obtain ⟨l, hl, rfl⟩ := Option.map_eq_some_iff.mp h
    exact put_lost ((wholeDrainStep_stays hl).lost hcare) c
  | chip b i w1 =>
    obtain rfl := Option.some.inj h
    exact put_lost (l := chipStep i w1 (s.on b)) rfl c
  | worker =>
    unfold workerStep at h
    dsimp only at h
    split at h
    · split at h
      · cases h
      · obtain rfl := Option.some.inj h
        rfl
    · obtain rfl := Option.some.inj h
      rfl
  | other b e =>
    obtain ⟨l, hl, rfl⟩ := Option.map_eq_some_iff.mp h
    exact put_lost (otherStep_stays hl).2 c
  | free id =>
    dsimp only at h
    split_ifs at h
    obtain rfl := Option.some.inj h
    rfl

/-! ## The address a segment is given -/

/-- The segment loop writes the address the NPU knows a buffer by; here
    that is the one the chip knows it by. -/
def RxBand.OnBus (cfg : RxCfg) (s : RxBand) : Prop :=
  ∀ idx n len count seg id, s.rx = .refill idx n len count seg id →
    pktVa cfg.pktBuf id = pktDma cfg.pktBuf id

/-- A step that writes no other address into a descriptor. -/
def RxState.OnBus (cfg : RxCfg) (s : RxState) : RxAct → Prop
  | .rx b _ _ => (s.band b).OnBus cfg
  | _ => True

/-- The runs of such steps in which the mails meet the other harts between
    their calls. -/
abbrev rxBusSystem (cfg : RxCfg) (ids : Finset ℕ) : StepSystem RxState RxAct :=
  ((rxPathSystem cfg ids).guarded RxState.Between).guarded (RxState.OnBus cfg)

theorem arms_busAddr {s : RxState} {a : RxAct} (h : s.OnBus cfg a) : s.Arms cfg cfg.BusAddr a := by
  cases a with
  | rx b id v => exact ⟨fun _ => rfl, h⟩
  | setDesc b id => exact fun _ => rfl
  | _ => trivial

theorem rxPathInv_of_bus {ids : Finset ℕ} {s : RxState} (h : (rxBusSystem cfg ids).Reachable s) :
    RxPathInv cfg.BusAddr ids.val s := by
  refine h.invariant (fun s hs => ?_) fun s a s' hinv hstep => ?_
  · exact rxPathInv_init (show (rxPathSystem cfg ids).init s from hs)
  · exact hinv.next hstep.2.1 (arms_busAddr hstep.1) hstep.2.2

/-! ## A frame through the path, and a second mail -/

/-- The runs of the examples: nothing is lost, and no other address
    written. -/
abbrev rxCalmSystem (cfg : RxCfg) (ids : Finset ℕ) : StepSystem RxState RxAct :=
  ((rxPathSystem cfg ids).guarded RxState.Between).guarded fun s a => s.Careful a ∧ s.OnBus cfg a

section Leads

variable {ids : Finset ℕ} {l'' : RxLocal}

/-- What is on a band leads to something else, with core 2 at no slot. -/
def Leads (cfg : RxCfg) (ids : Finset ℕ) (b : Bool) (l l' : RxLocal) : Prop :=
  ∀ s, (rxCalmSystem cfg ids).Reachable s → s.worker = none → s.on b = l →
    ∃ s', (rxCalmSystem cfg ids).Reachable s' ∧ s'.worker = none ∧ s'.on b = l'

theorem Leads.refl (l : RxLocal) : Leads cfg ids b l l :=
  fun s hs hw hl => ⟨s, hs, hw, hl⟩

theorem Leads.trans (h : Leads cfg ids b l l') (h' : Leads cfg ids b l' l'') :
    Leads cfg ids b l l'' := by
  intro s hs hw hl
  obtain ⟨t, ht, htw, htl⟩ := h s hs hw hl
  exact h' t ht htw htl

/-- Step after step -/
theorem Leads.iterate {n : ℕ} {f : ℕ → RxLocal}
    (h : ∀ i < n, Leads cfg ids b (f i) (f (i + 1))) : Leads cfg ids b (f 0) (f n) := by
  induction n with
  | zero => exact .refl _
  | succ n ih => exact (ih fun i hi => h i (by omega)).trans (h n (by omega))

/-- A step of the band itself -/
theorem Leads.put {a : RxAct}
    (h : ∀ s : RxState, s.worker = none → s.on b = l →
      (s.Careful a ∧ s.OnBus cfg a) ∧ s.Between a ∧ s.next cfg a = some (s.put b l')) :
    Leads cfg ids b l l' := by
  intro s hs hw hl
  obtain ⟨hcalm, hbetween, hnext⟩ := h s hw hl
  refine ⟨_, .step a hs ⟨hcalm, hbetween, hnext⟩, hw, ?_⟩
  unfold RxState.on
  rw [put_band]
  rfl

theorem Leads.setDesc (id : Option ℕ) (hspares : l.band.mail.Spares b l)
    (h : setDescStep cfg b id l = some l') : Leads cfg ids b l l' := by
  refine .put (a := .setDesc b id) fun s hw hl => ?_
  subst hl
  refine ⟨⟨hspares, trivial⟩, fun _ => hw, ?_⟩
  unfold RxState.next
  dsimp only
  rw [h]
  rfl

theorem Leads.mail (band : ℕ) (hb : rxdBand band = b) (hband : band ≤ 1)
    (hquiet : l.band.Quiet) (h : wifiMailSetDesc cfg band rxRing l = some l') :
    Leads cfg ids b l l' := by
  refine .put (a := .mail band rxRing) fun s hw hl => ?_
  subst hb hl
  refine ⟨⟨trivial, trivial⟩, ⟨hband, rfl, hquiet⟩, ?_⟩
  unfold RxState.next
  dsimp only
  rw [h]
  rfl

theorem Leads.rx (id : Option ℕ) (v : RxVerdict) (htaken : l.band.Taken b)
    (hbus : l.band.OnBus cfg) (hearly : l.band.mail.early = false)
    (h : rxStep cfg b id v l = some l') : Leads cfg ids b l l' := by
  refine .put (a := .rx b id v) fun s hw hl => ?_
  subst hl
  refine ⟨⟨htaken, hbus⟩, hearly, ?_⟩
  unfold RxState.next
  dsimp only
  rw [h]
  rfl

theorem Leads.wholeDrain (hlengthy : l.band.Lengthy) (hearly : l.band.mail.early = false)
    (h : wholeDrainStep b l = some l') : Leads cfg ids b l l' := by
  refine .put (a := .wholeDrain b) fun s hw hl => ?_
  subst hl
  refine ⟨⟨hlengthy, trivial⟩, hearly, ?_⟩
  unfold RxState.next
  dsimp only
  rw [h]
  rfl

theorem Leads.chip (i : ℕ) (w1 : BitVec 32) : Leads cfg ids b l (chipStep i w1 l) := by
  refine .put (a := .chip b i w1) fun s hw hl => ?_
  subst hl
  exact ⟨⟨trivial, trivial⟩, trivial, rfl⟩

theorem Leads.other {e : PiNode} (hclear : l.band.mail.clearing = false)
    (h : otherStep b e l = some l') : Leads cfg ids b l l' := by
  refine .put (a := .other b e) fun s hw hl => ?_
  subst hl
  refine ⟨⟨trivial, trivial⟩, hclear, ?_⟩
  unfold RxState.next
  dsimp only
  rw [h]
  rfl

/-- Core 2 takes a frame from the pipeline. -/
theorem Leads.worker {id : ℕ} (hslot : l.pipe.slot l.pipe.ridx = some id) :
    Leads cfg ids b l { l with pipe := l.pipe.pop kitePipeEntries, away := id ::ₘ l.away } := by
  intro s hs hw hl
  subst hl
  have hread : s.next cfg .worker = some { s with worker := some id } := by
    unfold RxState.next workerStep
    dsimp only
    rw [hw]
    dsimp only
    rw [show s.pipe.slot s.pipe.ridx = some id from hslot]
  exact ⟨_, .step .worker (.step .worker hs ⟨⟨trivial, trivial⟩, trivial, hread⟩)
    ⟨⟨trivial, trivial⟩, trivial, rfl⟩, rfl, rfl⟩

/-- A band between its calls, with nothing in its rings. -/
def restLocal (w : FlagRing PiNode) (r : FlagRing ℕ) (desc : ℕ → RxDesc) (tbl : ℕ → ℕ)
    (cpuIdx : ℕ) (done : Bool) (pc : SetDescPc) (pool : Multiset ℕ) : RxLocal where
  band := ⟨desc, tbl, cpuIdx, done, 0, pc, .idle, .empty, .idle, w, .idle, []⟩
  pipe := r
  pool := pool
  away := 0

variable {w : FlagRing PiNode} {r : FlagRing ℕ} {desc : ℕ → RxDesc} {tbl : ℕ → ℕ} {cpuIdx : ℕ}
  {done : Bool} {pool : Multiset ℕ}

/-- A set-up mail comes to the table: there is nothing to clear. -/
theorem leads_table (hpipe : cfg.pipe = true) (hw : ∀ i, w.slot i = none)
    (hr : ∀ i, r.slot i = none) :
    Leads cfg ids true (restLocal w r desc tbl cpuIdx done .idle pool)
      (restLocal w.rewind r desc tbl cpuIdx done (.table rxRing) pool) := by
  let stage (pc : SetDescPc) : RxLocal := restLocal w.rewind r desc tbl cpuIdx done pc pool
  have hmail : Leads cfg ids true (restLocal w r desc tbl cpuIdx done .idle pool)
      (stage (.wholes 0 rxRing)) := .mail 1 rfl le_rfl ⟨rfl, rfl, rfl⟩ rfl
  -- the three rings, slot by slot
  have hwholes : Leads cfg ids true (stage (.wholes 0 rxRing))
      (stage (.wholes (wholeRing true) rxRing)) := by
    refine .iterate (f := fun i => stage (.wholes i rxRing)) fun i hi =>
      .setDesc none (fun _ => hw i) ((if_pos hi).trans ?_)
    dsimp only [stage]
    unfold restLocal RxBand.wipeWhole
    dsimp only
    rw [FlagRing.wipe_eq_self (r := w.rewind) (hw i), show w.rewind.slot i = none from hw i]
    rfl
  have hsegs : Leads cfg ids true (stage (.segs 0 rxRing))
      (stage (.segs rxnodeRingSize rxRing)) := by
    refine .iterate (f := fun i => stage (.segs i rxRing)) fun i hi =>
      .setDesc none (fun _ => rfl) ((if_pos hi).trans ?_)
    dsimp only [stage]
    unfold restLocal RxBand.wipeSeg
    dsimp only
    rw [FlagRing.wipe_eq_self rfl]
    rfl
  have hpipes : Leads cfg ids true (stage (.pipe 0 rxRing))
      (stage (.pipe kitePipeEntries rxRing)) := by
    refine .iterate (f := fun i => stage (.pipe i rxRing)) fun i hi =>
      .setDesc none (fun _ => hr i) ((if_pos hi).trans ?_)
    dsimp only [stage]
    unfold restLocal RxLocal.wipePipe
    dsimp only
    rw [FlagRing.wipe_eq_self (hr i), hr i]
    rfl
  refine hmail.trans (hwholes.trans (.trans (.setDesc none (fun _ => hw _) ?_) (hsegs.trans
    (.trans (.setDesc none (fun _ => rfl) ?_) (hpipes.trans (.setDesc none (fun _ => hr _) ?_))))))
  · dsimp only [stage]
    unfold setDescStep restLocal
    dsimp only
    rw [if_neg (lt_irrefl _)]
    rfl
  · dsimp only [stage]
    unfold setDescStep restLocal afterNodes
    dsimp only
    rw [if_neg (lt_irrefl _), hpipe]
    rfl
  · dsimp only [stage]
    unfold setDescStep restLocal
    dsimp only
    rw [if_neg (lt_irrefl _)]
    rfl

/-- The ring is filled from the pool, in the order of the slots. -/
theorem leads_filled (free : List ℕ) {i : ℕ} (hlen : i + free.length = rxRing) :
    ∃ desc' tbl', ((∀ j < i, tbl' j = tbl j) ∧ ∀ id ∈ free.head?, tbl' i = id) ∧ Leads cfg ids b
      (restLocal w r desc tbl cpuIdx false (.filling i rxRing) ((free : Multiset ℕ) + pool))
      (restLocal w r desc' tbl' 0 true .idle pool) := by
  induction free generalizing i desc tbl with
  | nil =>
    refine ⟨desc, tbl, ⟨fun _ _ => rfl, fun _ h => by cases h⟩, .setDesc none trivial ?_⟩
    obtain rfl : i = rxRing := hlen
    unfold setDescStep restLocal
    dsimp only
    rw [if_neg (lt_irrefl _), Multiset.coe_nil, zero_add]
  | cons id free ih =>
    have hi : i < rxRing := by
      rw [← hlen, List.length_cons]
      omega
    obtain ⟨desc', tbl', ⟨hbelow, -⟩, hrest⟩ := @ih
      (Function.update desc i { (desc i).recycled with addr := pktDma cfg.pktBuf id })
      (Function.update tbl i id) (i + 1) (by rw [← hlen, List.length_cons]; omega)
    have hsame : ∀ j < i, tbl' j = tbl j := fun j hj => by
      rw [hbelow j (by omega), Function.update_of_ne hj.ne]
    have hown : ∀ id' ∈ (id :: free).head?, tbl' i = id' := fun id' hid' => by
      rw [hbelow i (by omega), Function.update_self]
      exact Option.some.inj hid'
    refine ⟨desc', tbl', ⟨hsame, hown⟩, .trans (.setDesc (some id) trivial ?_) hrest⟩
    have hid : id ∈ ((id :: free : List ℕ) : Multiset ℕ) + pool :=
      Multiset.mem_add.mpr (.inl (List.mem_cons_self))
    refine (if_pos hi).trans ((if_pos hid).trans ?_)
    unfold restLocal RxBand.arm
    dsimp only
    rw [← Multiset.cons_coe, Multiset.cons_add, Multiset.erase_cons_head]

/-- The ids of the table are given back. -/
theorem leads_freed :
    Leads cfg ids b (restLocal w r desc tbl cpuIdx true (.table rxRing) pool)
      (restLocal w r desc tbl cpuIdx false (.filling 0 rxRing)
        (slotIds (Finset.range rxRing) tbl + pool)) := by
  let given (i : ℕ) : RxLocal := restLocal w r desc tbl cpuIdx false (.freeing i rxRing)
    (slotIds (Finset.range i) tbl + pool)
  have hnone : slotIds (Finset.range 0) tbl + pool = pool := by
    unfold slotIds
    rw [Finset.sum_range_zero, zero_add]
  have hslot : ∀ i < rxRing, Leads cfg ids b (given i) (given (i + 1)) := by
    refine fun i hi => .setDesc none trivial ((if_pos hi).trans ?_)
    have hsum : slotIds (Finset.range (i + 1)) tbl + pool =
        tbl i ::ₘ (slotIds (Finset.range i) tbl + pool) := by
      unfold slotIds
      rw [Finset.sum_range_succ, ← Multiset.singleton_add]
      abel
    dsimp only [given]
    rw [hsum]
    rfl
  have hall := Leads.iterate hslot
  dsimp only [given] at hall
  rw [hnone] at hall
  refine .trans (.setDesc none (fun h => by cases h) rfl) (hall.trans (.setDesc none trivial ?_))
  unfold setDescStep restLocal
  dsimp only
  rw [if_neg (lt_irrefl _)]
  rfl

/-- The first set-up mail fills the ring. -/
theorem leads_set_up (hpipe : cfg.pipe = true) {free : List ℕ} (hlen : free.length = rxRing) :
    ∃ desc' tbl', (∀ id ∈ free.head?, tbl' 0 = id) ∧ Leads cfg ids true
      (restLocal .empty .empty desc tbl cpuIdx false .idle ((free : Multiset ℕ) + pool))
      (restLocal .empty .empty desc' tbl' 0 true .idle pool) := by
  obtain ⟨desc', tbl', ⟨-, hfirst⟩, hfill⟩ := @leads_filled cfg true ids .empty .empty desc tbl
    cpuIdx pool free 0 (by rw [Nat.zero_add, hlen])
  have htable := @leads_table cfg ids .empty .empty desc tbl cpuIdx false
    ((free : Multiset ℕ) + pool) hpipe (fun _ => rfl) fun _ => rfl
  exact ⟨desc', tbl', hfirst, htable.trans (.trans (.setDesc none (fun _ => rfl) rfl) hfill)⟩

/-- A later one gives the ids of the table back and fills it again. -/
theorem leads_again (hpipe : cfg.pipe = true) (hw : ∀ i, w.slot i = none)
    (hr : ∀ i, r.slot i = none) :
    ∃ desc' tbl', Leads cfg ids true (restLocal w r desc tbl cpuIdx true .idle pool)
      (restLocal w.rewind r desc' tbl' 0 true .idle pool) := by
  have hslots : slotIds (Finset.range rxRing) tbl =
      (((List.range rxRing).map tbl : List ℕ) : Multiset ℕ) := slotIds_eq_map _ _
  obtain ⟨desc', tbl', -, hfill⟩ := @leads_filled cfg true ids w.rewind r desc tbl cpuIdx pool
    ((List.range rxRing).map tbl) 0 (by rw [Nat.zero_add, List.length_map, List.length_range])
  rw [← hslots] at hfill
  exact ⟨desc', tbl', (leads_table hpipe hw hr).trans (leads_freed.trans hfill)⟩

/-- A ring with one slot filled, at its start -/
def oneSlot {E : Type*} (e : E) : FlagRing E := ⟨Function.update (fun _ => none) 0 (some e), 1, 0⟩

theorem oneSlot_slot {E : Type*} (e : E) : (oneSlot e).slot 0 = some e := by
  show Function.update (fun _ => none) 0 (some e) 0 = some e
  rw [Function.update_self]

theorem clear_of_pop {E : Type*} (n : ℕ) (e : E) (i : ℕ) : ((oneSlot e).pop n).slot i = none := by
  show Function.update (Function.update (fun _ => none) 0 (some e)) 0 none i = none
  rw [Function.update_idem]
  by_cases hi : i = 0
  · rw [hi, Function.update_self]
  · rw [Function.update_of_ne hi]

/-- A frame in one descriptor -/
theorem kiteRxFrame_one {ring : ℕ → RxDesc} {w1 : BitVec 32} {len : ℕ} (h : (ring 0).w1 = w1)
    (hdone : w1.getLsbD 31 = true) (hlast : w1.getLsbD 30 = true)
    (hlen : ((w1 >>> 16) &&& 0x3FFF#32).toNat = len) :
    kiteRxFrame ring 0 rxRing = some ⟨1, 0, len, [0]⟩ := by
  subst h
  have hset : (ring 0).done = true := hdone
  have hend : (ring 0).last = true := hlast
  have hfrag : (ring 0).frag = len := hlen
  have hword : u32 ((0 + len : ℕ) : ℤ) = len := by
    have hlt := (((ring 0).w1 >>> 16) &&& 0x3FFF#32).isLt
    unfold u32
    omega
  show kiteRxWalk ring 0 (1535 + 1) 0 0 0 [] = _
  unfold kiteRxWalk
  dsimp only
  rw [if_neg (by rw [hset]; decide), if_pos hend, hfrag, hword]
  rfl

/-- A length word of the chip, with bit 31, for a frame of `len` bytes in
    one descriptor -/
structure OneDesc (w1 : BitVec 32) (len : ℕ) : Prop where
  last : (w1 ||| 0x80000000#32).getLsbD 30 = true
  len : (((w1 ||| 0x80000000#32) >>> 16) &&& 0x3FFF#32).toNat = len

/-- A frame comes in, and core 2 takes it to classify it. -/
theorem leads_taken {id len : ℕ} {w1 : BitVec 32} (hpipe : cfg.pipe = true) (hw1 : OneDesc w1 len) :
    ∃ desc' r, (∀ i, FlagRing.slot r i = none) ∧
      Leads cfg ids true (restLocal .empty .empty desc tbl 0 true .idle (id ::ₘ pool))
        { restLocal .empty r desc' (Function.update tbl 0 id) 1 true .idle pool with
          away := {tbl 0} } := by
  let l : RxLocal := chipStep 0 w1
    (restLocal .empty .empty desc tbl 0 true .idle (id ::ₘ pool))
  have hwalk : kiteRxFrame l.band.desc l.band.cpuIdx rxRing = some ⟨1, 0, len, [0]⟩ := by
    refine @kiteRxFrame_one _ (w1 ||| 0x80000000#32) len ?_ ?_ hw1.last hw1.len
    · show (Function.update desc 0 { desc 0 with w1 := w1 ||| 0x80000000#32 } 0).w1 = _
      rw [Function.update_self]
    · rw [BitVec.getLsbD_or]
      exact Bool.or_eq_true_iff.mpr (.inr (by decide))
  let armed : RxLocal := { l with
    band := { l.band.arm 0 id (pktDma cfg.pktBuf id) with
      rx := .classify (tbl 0) len, cpuIdx := 1 }
    pool := pool }
  let piped : RxLocal := { armed.goto .idle with pipe := oneSlot (tbl 0) }
  -- the rx function, step by step
  have hcalled : Leads cfg ids true l (l.goto .called) :=
    .rx none .taken (fun _ _ _ _ _ _ h => by cases h)
      (fun _ _ _ _ _ _ h => by cases h) rfl rfl
  have hfound : Leads cfg ids true (l.goto .called) (l.goto (.single 0 len)) := by
    refine .rx none .taken (fun _ _ _ _ _ _ h => by cases h)
      (fun _ _ _ _ _ _ h => by cases h) rfl ?_
    unfold rxStep
    dsimp only [RxLocal.goto]
    rw [hwalk]
    rfl
  have harmed : Leads cfg ids true (l.goto (.single 0 len)) armed := by
    refine .rx (some id) .taken (fun _ _ _ _ _ _ h => by cases h)
      (fun _ _ _ _ _ _ h => by cases h) rfl ?_
    refine (if_pos (Multiset.mem_cons_self id pool)).trans ?_
    show some { armed with pool := (id ::ₘ pool).erase id } = some armed
    rw [Multiset.erase_cons_head]
  have hpiped : Leads cfg ids true armed piped := by
    refine .rx none .piped (fun _ _ _ _ _ _ h => by cases h)
      (fun _ _ _ _ _ _ h => by cases h) rfl ?_
    refine (if_pos (by rw [hpipe]; rfl)).trans ?_
    rfl
  exact ⟨armed.band.desc, (oneSlot (tbl 0)).pop kitePipeEntries, clear_of_pop _ (tbl 0),
    (Leads.chip 0 w1).trans (hcalled.trans (hfound.trans (harmed.trans
      (hpiped.trans (.worker rfl)))))⟩

/-- A frame core 2 has is queued for the host. -/
theorem leads_queued {old len : ℕ} :
    Leads cfg ids true
      { restLocal .empty r desc tbl cpuIdx true .idle pool with away := {old} }
      (restLocal (oneSlot (wholeNode old len false)) r desc tbl cpuIdx true .idle pool) := by
  let taken : RxLocal := { restLocal .empty r desc tbl cpuIdx true .idle pool with away := {old} }
  have hmem : old ∈ taken.away := Multiset.mem_singleton_self old
  refine .other (e := wholeNode old len false) rfl ((if_pos hmem).trans ?_)
  show some { taken with band := _, away := Multiset.erase {old} old } = _
  rw [Multiset.erase_singleton]
  rfl

/-- The queued frame goes to the host and its id back to the pool. -/
theorem leads_drained {e : PiNode} (hlen : e.pktLen ≠ 0) :
    Leads cfg ids true
      (restLocal (oneSlot e) r desc tbl cpuIdx true .idle pool)
      (restLocal ((oneSlot e).pop (wholeRing true)) r desc tbl cpuIdx true .idle
        (e.bufId ::ₘ pool)) := by
  let l := restLocal (oneSlot e) r desc tbl cpuIdx true .idle pool
  have hhead : l.band.wholes.slot l.band.wholes.ridx = some e := oneSlot_slot e
  let called : RxLocal := { l with band := { l.band with wholeDrain := .called } }
  let given : RxLocal := { l with
    band := { l.band with wholeDrain := .clear }, pool := e.bufId ::ₘ pool }
  have hcalled : Leads cfg ids true l called := .wholeDrain (fun h => by cases h) rfl rfl
  have hgiven : Leads cfg ids true called given := by
    refine .wholeDrain (fun _ f hf => ?_) rfl ?_
    · obtain rfl := Option.some.inj (hhead.symm.trans hf)
      exact hlen
    · unfold wholeDrainStep
      dsimp only [called]
      rw [hhead]
      exact if_neg hlen
  exact hcalled.trans (hgiven.trans (.wholeDrain (fun h => by cases h) rfl rfl))

end Leads

/-- A build with the third core, and ids for the 5G ring and 64 more -/
def wideCfg : RxCfg := ⟨0x4000000, 3, true⟩

/-- From the boot: the 5G ring is set up. -/
theorem set_up_reachable :
    ∃ (s : RxState) (desc : ℕ → RxDesc) (tbl : ℕ → ℕ), tbl 0 = 64 ∧
      (rxCalmSystem wideCfg (Finset.range 1600)).Reachable s ∧ s.worker = none ∧
      s.on true = restLocal .empty .empty desc tbl 0 true .idle
        (0 ::ₘ (List.range' 1 63 : Multiset ℕ)) := by
  let free : List ℕ := List.range' 64 rxRing
  have hids : (Finset.range 1600).val =
      (free : Multiset ℕ) + (0 ::ₘ (List.range' 1 63 : Multiset ℕ)) := by
    have hsplit : List.range 1600 = (0 :: List.range' 1 63) ++ free := by
      rw [List.range_eq_range']
      exact (@List.range'_append_1 0 64 1536).symm
    show ((List.range 1600 : List ℕ) : Multiset ℕ) = _
    rw [hsplit, ← Multiset.coe_add, add_comm]
    rfl
  obtain ⟨desc, tbl, hfirst, hset⟩ := @leads_set_up wideCfg (Finset.range 1600) (fun _ => ⟨0, 0⟩)
    (fun _ => 0) 0 (0 ::ₘ (List.range' 1 63 : Multiset ℕ)) rfl free List.length_range'
  rw [← hids] at hset
  obtain ⟨s, hs, hw, hl⟩ := hset
    ⟨fun _ => .fresh fun _ => ⟨0, 0⟩, .empty, none, (Finset.range 1600).val, 0⟩
    (.init ⟨_, rfl⟩) rfl rfl
  exact ⟨s, desc, tbl, hfirst 64 rfl, hs, hw, hl⟩

/-- A frame is with core 2. -/
theorem taken_reachable {w1 : BitVec 32} {len : ℕ} (hw1 : OneDesc w1 len) :
    ∃ (s : RxState) (r : FlagRing ℕ) (desc : ℕ → RxDesc) (tbl : ℕ → ℕ) (pool : Multiset ℕ),
      (rxCalmSystem wideCfg (Finset.range 1600)).Reachable s ∧ s.worker = none ∧
      (∀ i, r.slot i = none) ∧
      s.on true = { restLocal .empty r desc tbl 1 true .idle pool with away := {64} } := by
  obtain ⟨s, desc, tbl, hfirst, hs, hw, hl⟩ := set_up_reachable
  obtain ⟨desc', r, hr, hframe⟩ := @leads_taken wideCfg (Finset.range 1600) desc tbl
    (List.range' 1 63 : Multiset ℕ) 0 len w1 rfl hw1
  rw [hfirst] at hframe
  obtain ⟨s', hs', hw', hl'⟩ := hframe s hs hw hl
  exact ⟨s', r, desc', _, _, hs', hw', hr, hl'⟩

/-- It is in its node ring. -/
theorem queued_reachable {w1 : BitVec 32} {len : ℕ} (hw1 : OneDesc w1 len) :
    ∃ (s : RxState) (r : FlagRing ℕ) (desc : ℕ → RxDesc) (tbl : ℕ → ℕ) (pool : Multiset ℕ),
      (rxCalmSystem wideCfg (Finset.range 1600)).Reachable s ∧ s.worker = none ∧
      (∀ i, r.slot i = none) ∧
      s.on true = restLocal (oneSlot (wholeNode 64 len false)) r desc tbl 1 true .idle pool := by
  obtain ⟨s, r, desc, tbl, pool, hs, hw, hr, hl⟩ := taken_reachable hw1
  obtain ⟨s', hs', hw', hl'⟩ := leads_queued s hs hw hl
  exact ⟨s', r, desc, tbl, pool, hs', hw', hr, hl'⟩

/-- A frame of 100 bytes -/
theorem oneDesc_100 : OneDesc 0x40640000#32 100 := ⟨by decide, by decide⟩

/-- A node at the start of its ring -/
theorem mem_wholeIds {e : PiNode} (hidle : s.wholeDrain = .idle) (hridx : s.wholes.ridx = 0)
    (h : s.wholes.slot 0 = some e) : e.bufId ∈ s.wholeIds b := by
  have hpos := wholeRing_pos b
  rw [wholeIds_of_idle hidle (by rw [hridx]; exact hpos)]
  exact Multiset.mem_map_of_mem PiNode.bufId (FlagRing.mem_filled hpos h)

/-! ## Custody -/

/-- Whatever the harts, the set-up mails, the chip, the classifier and the
    host do, in whatever order, as long as the mails meet the other harts
    between their calls: every id is in one place, once; the slots of a
    ring in use name different ids; and their descriptors point the chip
    at the buffers of these ids, with the length of a buffer unless it has
    filled them. -/
theorem rx_custody {ids : Finset ℕ} {s : RxState}
    (h : ((rxPathSystem cfg ids).guarded RxState.Between).Reachable s) :
    (∀ id ∈ ids, HeldOnce s.held id) ∧ (∀ p, ∀ id ∈ s.held p, id ∈ ids) ∧
      ∀ b, Set.InjOn (s.band b).tbl (s.band b).live ∧
        ∀ i ∈ (s.band b).live, HeldOnceAt s.held ((s.band b).tbl i) (.slots b) ∧
          (s.band b).ArmedAt cfg.EitherAddr i := by
  have hinv := rxPathInv_of_reachable h
  have honce : ∀ id ∈ ids, HeldOnce s.held id := fun id hid => hinv.heldOnce hid
  have hin : ∀ p, ∀ id ∈ s.held p, id ∈ ids := fun p id hid =>
    Multiset.mem_of_le (le_of_sum hinv.sum p) hid
  refine ⟨honce, hin, fun b => ⟨?_, fun i hi => ⟨?_, hinv.armed b i hi⟩⟩⟩
  · exact slotIds_injOn (Multiset.nodup_of_le (le_of_sum hinv.sum (.slots b)) ids.nodup)
  · have hmem : (s.band b).tbl i ∈ s.held (.slots b) := mem_slotIds hi
    exact (honce _ (hin _ _ hmem)).at_of_mem hmem

/-- A frame in the node ring of the 5G band: its id is there and nowhere
    else, and the slots of the ring have others. -/
theorem rx_custody_queued :
    ∃ (s : RxState) (old : ℕ), (s.band true).wholes.slot 0 = some (wholeNode old 100 false) ∧
      HeldOnceAt s.held old (.wholes true) ∧ Set.InjOn (s.band true).tbl (Finset.range rxRing) ∧
      ∀ i < rxRing, HeldOnceAt s.held ((s.band true).tbl i) (.slots true) := by
  obtain ⟨s, r, desc, tbl, pool, hs, -, -, hl⟩ := queued_reachable oneDesc_100
  have hband : s.band true = (s.on true).band := rfl
  have hslot : (s.band true).wholes.slot 0 = some (wholeNode 64 100 false) := by
    rw [hband, hl]
    exact oneSlot_slot _
  have hlive : (s.band true).live = Finset.range rxRing := by
    rw [hband, hl]
    rfl
  obtain ⟨honce, hin, hbands⟩ := rx_custody hs.of_guarded
  obtain ⟨hinj, hslots⟩ := hbands true
  rw [hlive] at hinj hslots
  refine ⟨s, 64, hslot, ?_, hinj, fun i hi => (hslots i (Finset.mem_range.mpr hi)).1⟩
  have hmem : 64 ∈ s.held (.wholes true) := by
    have hidle : (s.band true).wholeDrain = .idle := by
      rw [hband, hl]
      rfl
    have hridx : (s.band true).wholes.ridx = 0 := by
      rw [hband, hl]
      rfl
    exact mem_wholeIds hidle hridx hslot
  exact (honce 64 (hin _ _ hmem)).at_of_mem hmem

/-- With no such step no id is ever lost: every one is in the pool, in the
    pipeline, with the classifier or the host, in a ring, or in the rx
    function's hand. -/
theorem rx_keeps_all {ids : Finset ℕ} {s : RxState} (h : (rxCarefulSystem cfg ids).Reachable s) :
    (∀ b, (s.band b).lost = []) ∧
      ∀ id ∈ ids, ∃ p, HeldOnceAt s.held id p ∧ ∀ b, p ≠ .lost b := by
  have hinit : ∀ s, (rxCarefulSystem cfg ids).init s → ∀ b, (s.band b).lost = [] := by
    rintro s ⟨desc, rfl⟩ b
    rfl
  have hstep : ∀ s a s', (∀ b, (s.band b).lost = []) →
      (rxCarefulSystem cfg ids).step s a s' → ∀ b, (s'.band b).lost = [] := by
    intro s a s' hs hstep b
    rw [next_lost hstep.1 hstep.2.2 b, hs b]
  have hlost := h.invariant hinit hstep
  refine ⟨hlost, fun id hid => ?_⟩
  have hinv := rxPathInv_of_reachable h.of_guarded
  obtain ⟨p, hp⟩ := hinv.heldOnce hid
  refine ⟨p, hp, ?_⟩
  rintro b rfl
  have hone := hp.1
  unfold RxState.held at hone
  simp only [hlost b] at hone
  cases hone

/-- The host has the frame, and a second mail has set the ring up again:
    its id is in the pool or the ring. -/
theorem rx_keeps_all_again :
    ∃ s : RxState, (s.band true).initDone = true ∧ (s.band true).cpuIdx = 0 ∧
      (s.band true).wholes.widx = 0 ∧
      ∀ id ∈ Finset.range 1600, ∃ p, HeldOnceAt s.held id p ∧ ∀ b, p ≠ .lost b := by
  obtain ⟨s, r, desc, tbl, pool, hs, hw, hr, hl⟩ := queued_reachable oneDesc_100
  have hdrain := @leads_drained wideCfg (Finset.range 1600) r desc tbl 1 pool
    (wholeNode 64 100 false) (by show 100 ≠ 0; decide)
  obtain ⟨desc', tbl', hagain⟩ := @leads_again wideCfg (Finset.range 1600) _ r desc tbl 1
    (64 ::ₘ pool) rfl (clear_of_pop (wholeRing true) (wholeNode 64 100 false)) hr
  obtain ⟨s', hs', -, hl'⟩ := hdrain.trans hagain s hs hw hl
  have hband : s'.band true = (s'.on true).band := rfl
  refine ⟨s', ?_, ?_, ?_, (rx_keeps_all (hs'.guarded_mono fun _ _ h => h.1)).2⟩
  all_goals
    rw [hband, hl']
    rfl

end ClankerNPU.Kite
