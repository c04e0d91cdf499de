import ClankerNPU.Kite.Reorder

/-! # What a BA entry holds

    An abstract reorder engine: an entry's list is a list of rows, an
    MPDU with the MSDUs chained to it, and an operation turns one entry's
    view into the next and tells what leaves the engine. Nodes only
    appear as names. -/

namespace ClankerNPU.Kite

/-! ## Views -/

/-- A held node and what it was filled with. -/
structure Cell where
  ref : NodeRef
  frame : KiteFrame
  tick : ℕ

/-- A held MPDU and its further MSDUs. -/
structure Row where
  mpdu : Cell
  msdus : List Cell

namespace Row

def cells (r : Row) : List Cell := r.mpdu :: r.msdus

def sn (r : Row) : ℕ := r.mpdu.frame.sn

def refs (r : Row) : List NodeRef := r.cells.map (·.ref)

/-- What a release of the row sends on. -/
def outs (r : Row) (k : BaKey) (band : ℕ) : List Out :=
  r.cells.map fun c => bridgeOut k c.frame band r.mpdu.frame.bss

end Row

/-- An entry: its words and its rows. -/
structure View extends BaCtl where
  rows : List Row

/-- An entry after an operation, and what the operation sent on. -/
structure Move where
  view : View
  outs : List Out

/-- One operation after the other. -/
def Move.andThen (m : Move) (f : View → Move) : Move :=
  ⟨(f m.view).view, m.outs ++ (f m.view).outs⟩

/-- All entries, and everything sent on so far. -/
structure HeldState where
  view : BaKey → View
  outs : List Out

/-- One entry moves. -/
def HeldState.set (h : HeldState) (k : BaKey) (m : Move) : HeldState where
  view := Function.update h.view k m.view
  outs := h.outs ++ m.outs

/-- An operation on one entry. -/
def HeldState.app (h : HeldState) (k : BaKey) (f : View → Move) : HeldState :=
  h.set k (f (h.view k))

/-! ## Operations -/

/-- The rows that follow `seq` without a gap. -/
def runOf (seq : ℕ) : List Row → List Row
  | [] => []
  | r :: rows => if r.sn = (seq + 1) % 4096 then r :: runOf r.sn rows else []

/-- The rows behind them. -/
def runRest (seq : ℕ) : List Row → List Row
  | [] => []
  | r :: rows => if r.sn = (seq + 1) % 4096 then runRest r.sn rows else r :: rows

/-- The last number without a gap. -/
def runEnd (seq : ℕ) : List Row → ℕ
  | [] => seq
  | r :: rows => if r.sn = (seq + 1) % 4096 then runEnd r.sn rows else seq

namespace View

variable (k : BaKey)

/-- What a release of rows sends on. -/
def rowOuts (v : View) (rows : List Row) : List Out := rows.flatMap fun r => r.outs k v.band

/-- A change of the entry's words only. -/
def setCtl (v : View) (c : BaCtl) : View := { v with toBaCtl := c }

def flush (v : View) : Move where
  view := { v with
    rows := []
    last := (v.rows.getLast?.map Row.sn).getD v.last
    chain := none }
  outs := v.rowOuts k v.rows

def indicate (seq : ℕ) (v : View) : Move where
  view := { v with rows := v.rows.dropWhile fun r => ¬pastSeq r.sn seq }
  outs := v.rowOuts k (v.rows.takeWhile fun r => ¬pastSeq r.sn seq)

def moveLast (seq : ℕ) (v : View) : Move where
  view := { v with rows := runRest seq v.rows, last := runEnd seq v.rows }
  outs := v.rowOuts k (runOf seq v.rows)

/-- Everything up to `seq`, and on without a gap. -/
def advance (seq : ℕ) (v : View) : Move := (v.indicate k seq).andThen (moveLast k seq)

def stateUpdate (sn checkType : ℕ) (v : View) : Move :=
  if v.settled sn checkType then ⟨v, []⟩
  else if v.flag ≠ 0 then ⟨{ v with chain := none }, []⟩
  else moveLast k v.ref { v with chain := none }

def timeout (now limit : ℕ) : ℕ → View → Move
  | 0, v => ⟨v, []⟩
  | fuel + 1, v =>
    match v.rows with
    | [] => ⟨v, []⟩
    | r :: _ =>
      if limit < u32 ((now : ℤ) - r.mpdu.tick) then
        (v.advance k r.sn).andThen (timeout now limit fuel)
      else ⟨v, []⟩

/-- One slide of the window. -/
def slideOnce (sn : ℕ) (v : View) : Move :=
  (v.advance k (slideTo sn v.win)).andThen fun v => ⟨{ v with flag := 4 }, []⟩

def slide (sn : ℕ) : ℕ → View → Move
  | 0, v => ⟨v, []⟩
  | fuel + 1, v =>
    if v.standing sn = none then (v.slideOnce k sn).andThen (slide sn fuel) else ⟨v, []⟩

def openWindow (pn : KiteFrame) (v : View) : Move :=
  (v.flush k).andThen fun v =>
    ⟨{ v with
        last := (((pn.sn : ℤ) - 1) % 4096).toNat
        ref := pn.sn
        state := 4
        amsdu := pn.amsdu }, []⟩

def duplicate (fast : Bool) (pn : KiteFrame) (band : ℕ) (v : View) : Move where
  view := v.setCtl (v.seen pn 1)
  outs := [if fast then bridgeOut k pn band pn.bss else .free band pn.bufId]

def behind (fast : Bool) (pn : KiteFrame) (band : ℕ) (v : View) : Move :=
  if peerRestarted v.win v.last pn.sn then
    ⟨v.setCtl { v.seen pn 2 with last := pn.sn }, [bridgeOut k pn band pn.bss]⟩
  else
    ⟨v.setCtl (v.seen pn 2), [if fast then bridgeOut k pn band pn.bss else .free band pn.bufId]⟩

def inOrder (pn : KiteFrame) (v : View) : Move :=
  let m : Move := if pn.amsdu ≤ 1 then v.moveLast k pn.sn else ⟨v, []⟩
  ⟨m.view.setCtl (m.view.seen pn 0), bridgeOut k pn v.band pn.bss :: m.outs⟩

/-- The rows an MPDU numbered `sn` goes behind. -/
def before (v : View) (sn : ℕ) : List Row := v.rows.takeWhile fun r => bit11 ((r.sn : ℤ) - sn)

/-- The rows it goes in front of. -/
def after (v : View) (sn : ℕ) : List Row := v.rows.dropWhile fun r => bit11 ((r.sn : ℤ) - sn)

/-- A further MSDU for the row of `sub`. -/
def chainTo (sub : NodeRef) (c : Cell) (v : View) : View :=
  { v with rows := v.rows.map fun r =>
      if r.mpdu.ref = sub then { r with msdus := r.msdus ++ [c] } else r }

/-- A new row, unless its number is held already. -/
def insert (c : Cell) (v : View) : Move :=
  if (v.after c.frame.sn).head?.map Row.sn = some c.frame.sn then
    ⟨v, [.free v.band c.frame.bufId]⟩
  else
    ⟨{ v with
        rows := v.before c.frame.sn ++ ⟨c, []⟩ :: v.after c.frame.sn
        chain := if c.frame.amsdu ≤ 1 then none else some c.ref }, []⟩

/-- `fresh` is the node the pools had, if any. -/
def hold (fresh : Option NodeRef) (pn : KiteFrame) (tick : ℕ) (v : View) : Move :=
  match fresh with
  | none => ⟨v, []⟩
  | some node =>
    let m : Move := match v.chain with
      | some sub => ⟨v.chainTo sub ⟨node, pn, tick⟩, []⟩
      | none => v.insert ⟨node, pn, tick⟩
    ⟨m.view.setCtl (m.view.seen pn 3), m.outs⟩

def take (flags : RxFlags) (fresh : Option NodeRef) (pn : KiteFrame) (band : ℕ) :
    Standing → View → Move
  | .inOrder => inOrder k pn
  | .duplicate => duplicate k flags.fast pn band
  | .behind => behind k flags.fast pn band
  | .inside => hold fresh pn flags.tick

/-- The part of the classifier before its four branches. -/
def arrive (pn : KiteFrame) (band : ℕ) (v : View) : Move :=
  let m : Move := if v.state = 3 then v.openWindow k pn else ⟨v, []⟩
  (m.andThen fun v => ⟨{ v with band := band }, []⟩).andThen (stateUpdate k pn.sn pn.amsdu)
    |>.andThen (slide k pn.sn nodeFuel)

def setBaEntry (band winSize ssn : ℕ) (v : View) : Move :=
  (v.flush k).andThen fun v =>
    if winSize = 0 ∧ ssn = 0 then ⟨v.setCtl (v.closed band), []⟩
    else ⟨{ v with win := winSize, last := ssn, band := band, state := 3 }, []⟩

def resetBaEntry (dir : ℕ) (v : View) : Move :=
  (v.flush k).andThen fun v => ⟨v.setCtl (v.closed dir), []⟩

def barInfo (ssn : ℕ) (v : View) : Move :=
  (v.stateUpdate k ssn 3).andThen fun v =>
    if bit11 ((v.last : ℤ) - ssn) then v.advance k (if ssn ≠ 0 then ssn - 1 else 4095)
    else ⟨v, []⟩

end View

/-! ## Moves -/

section moves

variable {h : HeldState} {k k' : BaKey} {m m' : Move} {f g : View → Move}

@[simp] theorem HeldState.set_view_self : (h.set k m).view k = m.view :=
  Function.update_self ..

theorem HeldState.set_view_of_ne (hne : k' ≠ k) : (h.set k m).view k' = h.view k' :=
  Function.update_of_ne hne ..

@[simp] theorem HeldState.set_outs : (h.set k m).outs = h.outs ++ m.outs := rfl

@[simp] theorem HeldState.set_set :
    (h.set k m).set k m' = h.set k ⟨m'.view, m.outs ++ m'.outs⟩ := by
  unfold HeldState.set
  simp only [Function.update_idem, List.append_assoc]

/-- No move at all. -/
@[simp] theorem HeldState.set_same : h.set k ⟨h.view k, []⟩ = h := by
  unfold HeldState.set
  simp only [Function.update_eq_self, List.append_nil]

@[simp] theorem HeldState.app_view_self : (h.app k f).view k = (f (h.view k)).view :=
  Function.update_self ..

/-- Two operations in a row are one. -/
theorem HeldState.app_app :
    (h.app k f).app k g = h.app k fun v => (f v).andThen g := by
  unfold HeldState.app
  rw [HeldState.set_set, HeldState.set_view_self]
  rfl

end moves

/-! ## Facts about the runs -/

theorem runOf_append_runRest (seq : ℕ) (rows : List Row) :
    runOf seq rows ++ runRest seq rows = rows := by
  induction rows generalizing seq with
  | nil => rfl
  | cons r rows ih =>
    unfold runOf runRest
    split
    · rw [List.cons_append, ih]
    · rfl

end ClankerNPU.Kite
