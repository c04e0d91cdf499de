import ClankerNPU.Kite.Hold
import ClankerNPU.Kite.Shift
import ClankerNPU.Lib.StepSystem
import Mathlib.Data.List.Forall2

/-! # Whole A-MSDUs

    The subframes of an A-MSDU arrive back to back with one sequence
    number: the first has the A-MSDU code 3, the last 1, those between 2;
    a frame that is no part of one has 0. Each subframe runs through the
    whole classifier, so the first one's branch has to leave a state that
    sends the others the same way. -/

namespace ClankerNPU.Kite

/-! ## Runs of one entry -/

/-- The engine, the subframes of the A-MSDU under way, and the finished
    A-MSDUs and lone frames in the order of their last frame. -/
structure AmsduRun where
  ba : BaState
  current : List KiteFrame
  arrived : List (List KiteFrame)

/-- A frame of the entry arrives, or a timeout, a BAR or a flush comes. -/
inductive AmsduAction where
  | frame (flags : RxFlags) (pn : KiteFrame) (band : ℕ)
  | timeout (now limit : ℕ)
  | bar (ssn : ℕ)
  | flush

/-- The frame may come next: it begins an A-MSDU, goes on with the one
    under way, or is no part of one. -/
def AmsduRun.Follows (s : AmsduRun) (pn : KiteFrame) : Prop :=
  (s.current = [] ∧ (pn.amsdu = 0 ∨ pn.amsdu = 3)) ∨
    (s.current ≠ [] ∧ (pn.amsdu = 1 ∨ pn.amsdu = 2) ∧ ∀ f ∈ s.current, f.sn = pn.sn)

/-- The run with the frame taken. -/
def AmsduRun.next (s : AmsduRun) (ba : BaState) (pn : KiteFrame) : AmsduRun :=
  if pn.amsdu ≤ 1 then ⟨ba, [], s.arrived ++ [s.current ++ [pn]]⟩
  else ⟨ba, s.current ++ [pn], s.arrived⟩

/-- What a row was filled with. -/
def Row.frames (r : Row) : List KiteFrame := r.cells.map (·.frame)

/-- The runs on entry `k` with its window open. What it holds at the
    start has arrived before. Outside the list there is room for a node
    whenever one is wanted. -/
def amsduSystem (k : BaKey) : StepSystem AmsduRun AmsduAction where
  init := fun s => ∃ h, Rep s.ba h 0 ∧ (s.ba.entry k).state = 4 ∧ (s.ba.entry k).chain = none ∧
    (s.ba.entry k).amsdu ≤ 1 ∧ s.ba.outs = [] ∧ s.current = [] ∧
    s.arrived = (h.view k).rows.map Row.frames
  step := fun s a s' =>
    match a with
    | .frame flags pn band =>
      flags.fast = false ∧ pn.wcid ≠ 0 ∧ baKey flags.dbdc band pn.wcid pn.tid = k ∧
        s.Follows pn ∧
        ((kiteArrival s.ba k pn band).2 = .inside →
          reorderNodeAlloc (kiteArrival s.ba k pn band).1 ≠ none) ∧
        s' = s.next (kiteClassifyPn s.ba flags pn band).1 pn
    | .timeout now limit =>
      s.current = [] ∧ s' = { s with ba := baTimeoutEntry s.ba k now limit }
    | .bar ssn => s.current = [] ∧ s' = { s with ba := npuSetBarInfo s.ba k ssn }
    | .flush => s.current = [] ∧ s' = { s with ba := baFlushEntry s.ba k }

/-! ## Whole or not at all -/

/-- What becomes of an A-MSDU that is not held. -/
inductive Fate where
  | sent
  | freed

/-- The frames were all handed to `pkt_enqueue_bridge`, or all freed, in
    order and with nothing between them. -/
def Shows (k : BaKey) : Fate → List KiteFrame → List Out → Prop
  | .sent => List.Forall₂ fun f o => ∃ band bss, o = bridgeOut k f band bss
  | .freed => List.Forall₂ fun f o => ∃ band, o = .free band f.bufId

/-- One A-MSDU, or one lone frame, and what of it left the engine. -/
structure Delivery where
  fate : Fate
  frames : List KiteFrame
  outs : List Out

/-- All that has left the engine is whole A-MSDUs, each sent or each
    freed, and then what of the one under way has; the rest of what
    arrived is held, row by row. -/
def AmsduRun.Whole (s : AmsduRun) (k : BaKey) : Prop :=
  ∃ (log : List Delivery) (h : HeldState) (tail : List Out),
    Rep s.ba h 0 ∧ (∀ d ∈ log, Shows k d.fate d.frames d.outs) ∧
    s.ba.outs = log.flatMap (·.outs) ++ tail ∧
    (((Shows k .sent s.current tail ∨ Shows k .freed s.current tail) ∧
        s.arrived.Perm (log.map (·.frames) ++ (h.view k).rows.map Row.frames)) ∨
      (tail = [] ∧ s.current ≠ [] ∧
        (s.arrived ++ [s.current]).Perm (log.map (·.frames) ++ (h.view k).rows.map Row.frames)))

/-- The first subframe of an A-MSDU does not arrive behind the window
    with the test for a restarted peer answering yes. -/
def amsduGuard (k : BaKey) (s : AmsduRun) (a : AmsduAction) : Prop :=
  match a with
  | .frame _ pn band => pn.amsdu = 3 → (kiteArrival s.ba k pn band).2 = .behind →
    ¬peerRestarted ((kiteArrival s.ba k pn band).1.entry k).win
      ((kiteArrival s.ba k pn band).1.entry k).last pn.sn
  | _ => True

/-! ## Releases of whole rows -/

/-- A move that only lets the first rows go and moves the window. -/
structure Lets (k : BaKey) (v : View) (m : Move) : Prop where
  rows : ∃ gone, gone ++ m.view.rows = v.rows ∧ m.outs = v.rowOuts k gone
  ctl : m.view.toBaCtl = { v.toBaCtl with last := m.view.last, flag := m.view.flag }

variable {k : BaKey} {v : View} {m : Move} {f : View → Move}

theorem lets_refl (k : BaKey) (v : View) : Lets k v ⟨v, []⟩ := ⟨⟨[], rfl, rfl⟩, rfl⟩

theorem Lets.andThen (h : Lets k v m) (hf : Lets k m.view (f m.view)) :
    Lets k v (m.andThen f) := by
  obtain ⟨gone, hrows, houts⟩ := h.rows
  obtain ⟨gone', hrows', houts'⟩ := hf.rows
  have hband : m.view.toBaCtl.band = v.band := by rw [h.ctl]
  refine ⟨⟨gone ++ gone', ?_, ?_⟩, ?_⟩
  · show (gone ++ gone') ++ (f m.view).view.rows = v.rows
    rw [List.append_assoc, hrows', hrows]
  · show m.outs ++ (f m.view).outs = v.rowOuts k (gone ++ gone')
    rw [houts, houts']
    unfold View.rowOuts
    rw [hband, List.flatMap_append]
  · show (f m.view).view.toBaCtl = _
    rw [hf.ctl, h.ctl]
    rfl

theorem lets_moveLast (k : BaKey) (seq : ℕ) (v : View) : Lets k v (v.moveLast k seq) :=
  ⟨⟨runOf seq v.rows, runOf_append_runRest seq v.rows, rfl⟩, rfl⟩

theorem lets_advance (k : BaKey) (seq : ℕ) (v : View) : Lets k v (v.advance k seq) := by
  have hind : Lets k v (v.indicate k seq) :=
    ⟨⟨_, List.takeWhile_append_dropWhile, rfl⟩, rfl⟩
  exact hind.andThen (lets_moveLast k seq _)

theorem lets_timeout (k : BaKey) (now limit fuel : ℕ) (v : View) :
    Lets k v (View.timeout k now limit fuel v) := by
  induction fuel generalizing v with
  | zero => exact lets_refl k v
  | succ fuel ih =>
    unfold View.timeout
    split
    · exact lets_refl k v
    · split
      · exact (lets_advance k _ v).andThen (ih _)
      · exact lets_refl k v

theorem lets_slide (k : BaKey) (sn fuel : ℕ) (v : View) : Lets k v (View.slide k sn fuel v) := by
  induction fuel generalizing v with
  | zero => exact lets_refl k v
  | succ fuel ih =>
    unfold View.slide
    split
    · have hpass : Lets k v (v.slideOnce k sn) := by
        apply (lets_advance k _ v).andThen
        exact ⟨⟨[], rfl, rfl⟩, rfl⟩
      exact hpass.andThen (ih _)
    · exact lets_refl k v

theorem lets_flush (hchain : v.chain = none) : Lets k v (v.flush k) := by
  refine ⟨⟨v.rows, List.append_nil _, rfl⟩, ?_⟩
  unfold View.flush
  simp only [hchain]

/-! ## Between and inside A-MSDUs -/

/-- The window drops a frame with the number `sn`, and goes on to. -/
def View.Drops (v : View) (sn : ℕ) (st : Standing) : Prop :=
  v.standing sn = some st ∧
    (st = .duplicate ∨ (st = .behind ∧ ¬peerRestarted v.win v.last sn) ∨
      (st = .inside ∧ (v.after sn).head?.map Row.sn = some sn))

/-- The entry is in the middle of an A-MSDU numbered `sn`. -/
structure Midway (v : View) (sn : ℕ) (current : List KiteFrame) : Prop where
  some : current ≠ []
  same : ∀ f ∈ current, f.sn = sn
  ref : v.ref = sn
  amsdu : v.amsdu = 2 ∨ v.amsdu = 3

/-- How the A-MSDU under way goes, and that what arrived is in the log
    or held. -/
inductive Going (k : BaKey) (arrived : List (List KiteFrame)) (v : View) (log : List Delivery) :
    List KiteFrame → List Out → Prop
  /-- none is under way -/
  | idle : v.chain = none → v.amsdu ≤ 1 →
      arrived.Perm (log.map (·.frames) ++ v.rows.map Row.frames) → Going k arrived v log [] []
  /-- its subframes go out as they come -/
  | sending {sn : ℕ} {current : List KiteFrame} {tail : List Out} : Midway v sn current →
      v.chain = none → v.standing sn = some .inOrder → Shows k .sent current tail →
      arrived.Perm (log.map (·.frames) ++ v.rows.map Row.frames) →
      Going k arrived v log current tail
  /-- they are dropped -/
  | dropping {sn : ℕ} {st : Standing} {current : List KiteFrame} {tail : List Out} :
      Midway v sn current → v.chain = none → v.Drops sn st → Shows k .freed current tail →
      arrived.Perm (log.map (·.frames) ++ v.rows.map Row.frames) →
      Going k arrived v log current tail
  /-- they are collected in row `r` -/
  | holding {sn : ℕ} {before after : List Row} {r : Row} : Midway v sn r.frames →
      v.standing sn = some .inside → v.rows = before ++ r :: after → v.chain = some r.mpdu.ref →
      (arrived ++ [r.frames]).Perm (log.map (·.frames) ++ v.rows.map Row.frames) →
      Going k arrived v log r.frames []

/-- What one frame does: `m` is the entry's move. -/
def Takes (k : BaKey) (arrived : List (List KiteFrame)) (log : List Delivery)
    (current : List KiteFrame) (tail : List Out) (pn : KiteFrame) (m : Move) : Prop :=
  ∃ log' tail', (∀ d ∈ log', Shows k d.fate d.frames d.outs) ∧
    tail ++ m.outs = log'.flatMap (·.outs) ++ tail' ∧
    if pn.amsdu ≤ 1 then Going k (arrived ++ [current ++ [pn]]) m.view (log ++ log') [] tail'
    else Going k arrived m.view (log ++ log') (current ++ [pn]) tail'

variable {arrived : List (List KiteFrame)} {log : List Delivery} {current : List KiteFrame}
  {tail : List Out} {pn : KiteFrame} {band : ℕ} {sn : ℕ} {st : Standing}

theorem shows_one (o : Out) (fate : Fate) (f : KiteFrame)
    (h : Shows k fate [f] [o]) (hshows : Shows k fate current tail) :
    Shows k fate (current ++ [f]) (tail ++ [o]) := by
  cases fate with
  | sent => exact List.rel_append hshows h
  | freed => exact List.rel_append hshows h

theorem shows_nil (fate : Fate) : Shows k fate [] [] := by
  cases fate <;> exact List.Forall₂.nil

theorem shows_bridge (f : KiteFrame) (band bss : ℕ) : Shows k .sent [f] [bridgeOut k f band bss] :=
  .cons ⟨band, bss, rfl⟩ .nil

theorem shows_free (f : KiteFrame) (band : ℕ) : Shows k .freed [f] [.free band f.bufId] :=
  .cons ⟨band, rfl⟩ .nil

/-- A released row. -/
def Row.delivery (r : Row) (k : BaKey) (band : ℕ) : Delivery := ⟨.sent, r.frames, r.outs k band⟩

theorem shows_delivery (r : Row) (band : ℕ) :
    Shows k .sent (r.frames) (r.outs k band) := by
  unfold Row.frames Row.outs
  show List.Forall₂ _ _ _
  rw [List.forall₂_map_left_iff, List.forall₂_map_right_iff, List.forall₂_same]
  intro c _
  exact ⟨band, _, rfl⟩

/-- The releases of a move as deliveries. -/
theorem Lets.deliveries (h : Lets k v m) : ∃ gone : List Delivery,
    (∀ d ∈ gone, Shows k d.fate d.frames d.outs) ∧ m.outs = gone.flatMap (·.outs) ∧
      v.rows.map Row.frames = gone.map (·.frames) ++ m.view.rows.map Row.frames := by
  obtain ⟨gone, hrows, houts⟩ := h.rows
  refine ⟨gone.map (·.delivery k v.band), ?_, ?_, ?_⟩
  · intro d hd
    obtain ⟨r, -, rfl⟩ := List.mem_map.mp hd
    exact shows_delivery r v.band
  · rw [houts, List.flatMap_map]
    rfl
  · rw [← hrows, List.map_append, List.map_map]
    rfl

/-- Released rows move from the entry into the log. -/
theorem perm_lets {gone : List Delivery} {rows rows' : List Row}
    (hperm : arrived.Perm (log.map (·.frames) ++ rows.map Row.frames))
    (hrows : rows.map Row.frames = gone.map (·.frames) ++ rows'.map Row.frames) :
    arrived.Perm ((log ++ gone).map (·.frames) ++ rows'.map Row.frames) := by
  rw [List.map_append, List.append_assoc, ← hrows]
  exact hperm

/-- A finished A-MSDU that left the engine joins the log. -/
theorem perm_left {d : Delivery} {rows : List Row}
    (hperm : arrived.Perm (log.map (·.frames) ++ rows.map Row.frames)) :
    (arrived ++ [d.frames]).Perm ((log ++ [d]).map (·.frames) ++ rows.map Row.frames) := by
  have hmap : (log ++ [d]).map (·.frames) = log.map (·.frames) ++ [d.frames] := List.map_append
  rw [hmap, List.append_assoc]
  have hswap : (log.map (·.frames) ++ (rows.map Row.frames ++ [d.frames])).Perm
      (log.map (·.frames) ++ ([d.frames] ++ rows.map Row.frames)) :=
    List.perm_append_comm.append_left _
  rw [← List.append_assoc] at hswap
  exact (hperm.append_right _).trans hswap

/-- What is added to a list is what joins another one somewhere. -/
theorem perm_joins {α : Type*} {a l b c : List α} {x : α} :
    (a ++ [x]).Perm (l ++ (b ++ x :: c)) ↔ a.Perm (l ++ (b ++ c)) := by
  have hleft : (a ++ [x]).Perm (x :: a) := List.perm_append_singleton x a
  have hright : (l ++ (b ++ x :: c)).Perm (x :: (l ++ (b ++ c))) := by
    rw [← List.append_assoc, ← List.append_assoc]
    exact List.perm_middle
  constructor
  · intro h
    exact List.perm_cons x |>.mp (hleft.symm.trans (h.trans hright))
  · intro h
    exact hleft.trans ((h.cons x).trans hright.symm)

/-! ## One frame -/

theorem seen_chain {c : BaCtl} (hchain : c.chain = none) (pn : KiteFrame) (flag : ℕ) :
    (c.seen pn flag).chain = none := by
  show (if pn.amsdu ≤ 1 then none else c.chain) = none
  rw [hchain, ite_self]

/-- A frame that goes on with an A-MSDU. -/
theorem midway_seen {v : View} (hsame : ∀ f ∈ current, f.sn = pn.sn) (hcode : pn.amsdu ≤ 3)
    (hmore : ¬pn.amsdu ≤ 1) (flag : ℕ) :
    Midway (v.setCtl (v.seen pn flag)) pn.sn (current ++ [pn]) := by
  refine ⟨by simp, ?_, rfl, ?_⟩
  · intro f hf
    rcases List.mem_append.mp hf with hold | hnew
    · exact hsame f hold
    · rw [List.mem_singleton.mp hnew]
  · show pn.amsdu = 2 ∨ pn.amsdu = 3
    omega

/-- An in-order frame goes out. -/
theorem takes_sending (hchain : v.chain = none) (hsn : v.standing pn.sn = some .inOrder)
    (hshows : Shows k .sent current tail) (hsame : ∀ f ∈ current, f.sn = pn.sn)
    (hcode : pn.amsdu ≤ 3)
    (hperm : arrived.Perm (log.map (·.frames) ++ v.rows.map Row.frames)) :
    Takes k arrived log current tail pn (v.inOrder k pn) := by
  have hone := shows_one _ .sent pn (shows_bridge pn v.band pn.bss) hshows
  unfold Takes View.inOrder
  by_cases hlast : pn.amsdu ≤ 1
  · simp only [if_pos hlast]
    obtain ⟨gone, hgone, houts, hrows⟩ := (lets_moveLast k pn.sn v).deliveries
    set d : Delivery := ⟨.sent, current ++ [pn], tail ++ [bridgeOut k pn v.band pn.bss]⟩ with hd
    refine ⟨d :: gone, [], ?_, ?_, ?_⟩
    · intro e he
      rcases List.mem_cons.mp he with rfl | he
      · exact hone
      · exact hgone e he
    · rw [houts, List.flatMap_cons, List.append_nil, hd]
      simp
    · have hleft := perm_lets (perm_left (d := d) hperm) hrows
      rw [List.append_assoc] at hleft
      refine .idle ?_ hlast hleft
      show (if pn.amsdu ≤ 1 then none else _) = none
      rw [if_pos hlast]
  · simp only [if_neg hlast]
    refine ⟨[], tail ++ [bridgeOut k pn v.band pn.bss], ?_, rfl, ?_⟩
    · intro e he
      cases he
    · rw [List.append_nil]
      exact .sending (midway_seen hsame hcode hlast 0) (seen_chain hchain pn 0) hsn hone hperm

/-- What the drop of a frame does. -/
theorem take_drops (k : BaKey) (band : ℕ) {flags : RxFlags} {fresh : Option NodeRef}
    (hfast : flags.fast = false)
    (hchain : v.chain = none) (hdrops : v.Drops pn.sn st)
    (hfresh : st = .inside → fresh ≠ none) :
    ∃ flag b, View.take k flags fresh pn band st v =
      ⟨v.setCtl (v.seen pn flag), [.free b pn.bufId]⟩ := by
  obtain ⟨-, rfl | ⟨rfl, hstay⟩ | ⟨rfl, hheld⟩⟩ := hdrops
  · refine ⟨1, band, ?_⟩
    unfold View.take View.duplicate
    rw [hfast]
    rfl
  · refine ⟨2, band, ?_⟩
    unfold View.take View.behind
    simp only
    rw [if_neg hstay, hfast]
    rfl
  · obtain ⟨node, hnode⟩ := Option.ne_none_iff_exists'.mp (hfresh rfl)
    refine ⟨3, v.band, ?_⟩
    unfold View.take View.hold View.insert
    simp only [hnode, hchain]
    rw [if_pos hheld]

/-- A dropped frame. -/
theorem takes_dropping {flag b : ℕ} (hm : m = ⟨v.setCtl (v.seen pn flag), [.free b pn.bufId]⟩)
    (hchain : v.chain = none) (hdrops : v.Drops pn.sn st) (hshows : Shows k .freed current tail)
    (hsame : ∀ f ∈ current, f.sn = pn.sn) (hcode : pn.amsdu ≤ 3)
    (hperm : arrived.Perm (log.map (·.frames) ++ v.rows.map Row.frames)) :
    Takes k arrived log current tail pn m := by
  have hone := shows_one _ .freed pn (shows_free pn b) hshows
  subst hm
  unfold Takes
  by_cases hlast : pn.amsdu ≤ 1
  · simp only [if_pos hlast]
    set d : Delivery := ⟨.freed, current ++ [pn], tail ++ [.free b pn.bufId]⟩ with hd
    have hleft := perm_left (d := d) hperm
    refine ⟨[d], [], ?_, ?_, .idle (seen_chain hchain pn flag) hlast hleft⟩
    · intro e he
      rw [List.mem_singleton.mp he]
      exact hone
    · simp [hd]
  · simp only [if_neg hlast]
    refine ⟨[], tail ++ [.free b pn.bufId], ?_, rfl, ?_⟩
    · intro e he
      cases he
    · rw [List.append_nil]
      exact .dropping (midway_seen hsame hcode hlast flag) (seen_chain hchain pn flag) hdrops hone
        hperm

/-- A lone frame of a restarted peer goes out. -/
theorem takes_restart (hlone : pn.amsdu = 0) (hchain : v.chain = none)
    (hrestart : peerRestarted v.win v.last pn.sn)
    (hperm : arrived.Perm (log.map (·.frames) ++ v.rows.map Row.frames)) :
    Takes k arrived log [] [] pn (v.behind k false pn band) := by
  have hlast : pn.amsdu ≤ 1 := by omega
  unfold Takes View.behind
  simp only [if_pos hrestart, if_pos hlast]
  set d : Delivery := ⟨.sent, [pn], [bridgeOut k pn band pn.bss]⟩ with hd
  have hleft := perm_left (d := d) hperm
  refine ⟨[d], [], ?_, rfl, .idle (seen_chain hchain pn 2) hlast hleft⟩
  intro e he
  rw [List.mem_singleton.mp he]
  exact shows_bridge pn band pn.bss

/-- A frame inside the window starts a row. -/
theorem takes_starting {node : NodeRef} {tick : ℕ} (hcode : pn.amsdu ≤ 3) (hchain : v.chain = none)
    (hsn : v.standing pn.sn = some .inside)
    (hnew : (v.after pn.sn).head?.map Row.sn ≠ some pn.sn)
    (hperm : arrived.Perm (log.map (·.frames) ++ v.rows.map Row.frames)) :
    Takes k arrived log [] [] pn (v.hold (some node) pn tick) := by
  have hsplit : v.rows = v.before pn.sn ++ v.after pn.sn :=
    List.takeWhile_append_dropWhile.symm
  have hjoin : (arrived ++ [[pn]]).Perm (log.map (·.frames) ++
      (v.before pn.sn ++ ⟨⟨node, pn, tick⟩, []⟩ :: v.after pn.sn).map Row.frames) := by
    rw [List.map_append, List.map_cons]
    apply perm_joins.mpr
    rw [← List.map_append, ← hsplit]
    exact hperm
  unfold Takes View.hold View.insert
  simp only [hchain]
  rw [if_neg hnew]
  refine ⟨[], [], ?_, rfl, ?_⟩
  · intro e he
    cases he
  by_cases hlast : pn.amsdu ≤ 1
  · rw [if_pos hlast, List.append_nil]
    refine .idle ?_ hlast hjoin
    show (if pn.amsdu ≤ 1 then none else _) = none
    rw [if_pos hlast]
  · rw [if_neg hlast, List.append_nil]
    refine Going.holding (r := ⟨⟨node, pn, tick⟩, []⟩) ?_ hsn rfl ?_ hjoin
    · refine ⟨by simp [Row.frames, Row.cells], ?_, rfl, ?_⟩
      · intro f hf
        rw [List.mem_singleton.mp hf]
      · show pn.amsdu = 2 ∨ pn.amsdu = 3
        omega
    · show (if pn.amsdu ≤ 1 then none else if pn.amsdu ≤ 1 then none else some node) = some node
      rw [if_neg hlast, if_neg hlast]

theorem frames_more (r : Row) (c : Cell) : (r.more c).frames = r.frames ++ [c.frame] := by
  unfold Row.more Row.frames Row.cells
  simp

/-- A further subframe joins its row. -/
theorem takes_holding {node : NodeRef} {tick : ℕ} {before after : List Row} {r : Row}
    (hmid : Midway v pn.sn r.frames) (hcode : pn.amsdu ≤ 3)
    (hsn : v.standing pn.sn = some .inside) (hrows : v.rows = before ++ r :: after)
    (hchain : v.chain = some r.mpdu.ref) (hnodup : v.refs.Nodup)
    (hperm : (arrived ++ [r.frames]).Perm (log.map (·.frames) ++ v.rows.map Row.frames)) :
    Takes k arrived log r.frames [] pn (v.hold (some node) pn tick) := by
  set c : Cell := ⟨node, pn, tick⟩ with hc
  have hjoin : (arrived ++ [r.frames ++ [pn]]).Perm
      (log.map (·.frames) ++ (before ++ r.more c :: after).map Row.frames) := by
    rw [hrows, List.map_append, List.map_cons] at hperm
    rw [List.map_append, List.map_cons, frames_more]
    exact perm_joins.mpr (perm_joins.mp hperm)
  unfold Takes View.hold
  simp only [hchain]
  rw [← hc, chainTo_eq hrows hnodup]
  refine ⟨[], [], ?_, rfl, ?_⟩
  · intro e he
    cases he
  by_cases hlast : pn.amsdu ≤ 1
  · rw [if_pos hlast, List.append_nil]
    refine .idle ?_ hlast hjoin
    show (if pn.amsdu ≤ 1 then none else _) = none
    rw [if_pos hlast]
  · rw [if_neg hlast, List.append_nil]
    have hmore : r.frames ++ [pn] = (r.more c).frames := (frames_more r c).symm
    rw [hmore] at hjoin ⊢
    refine Going.holding ?_ hsn rfl ?_ hjoin
    · rw [← hmore]
      exact midway_seen (v := { v with rows := before ++ r.more c :: after }) hmid.same hcode
        hlast 3
    · show (if pn.amsdu ≤ 1 then none else v.chain) = some (r.more c).mpdu.ref
      rw [if_neg hlast, hchain]
      rfl

/-! ## Runs -/

/-- The state of a run, with the held rows and the log beside it. -/
structure RunInv (k : BaKey) (s : AmsduRun) (h : HeldState) (log : List Delivery)
    (tail : List Out) : Prop where
  rep : Rep s.ba h 0
  shown : ∀ d ∈ log, Shows k d.fate d.frames d.outs
  outs : s.ba.outs = log.flatMap (·.outs) ++ tail
  state : (h.view k).state = 4
  going : Going k s.arrived (h.view k) log s.current tail

theorem Going.chains (hg : Going k arrived v log current tail) : v.Chains := by
  intro sub hsub
  cases hg with
  | idle hchain => rw [hchain] at hsub; cases hsub
  | sending _ hchain => rw [hchain] at hsub; cases hsub
  | dropping _ hchain => rw [hchain] at hsub; cases hsub
  | holding _ _ hrows hchain =>
    rw [hchain] at hsub
    exact ⟨_, _, _, hrows, Option.some.inj hsub⟩

/-- The band of the entry does not matter. -/
theorem Going.setBand (hg : Going k arrived v log current tail) (band : ℕ) :
    Going k arrived { v with band := band } log current tail := by
  cases hg with
  | idle hchain hamsdu hperm => exact .idle hchain hamsdu hperm
  | sending hmid hchain hsn hshows hperm =>
    exact .sending ⟨hmid.some, hmid.same, hmid.ref, hmid.amsdu⟩ hchain hsn hshows hperm
  | dropping hmid hchain hdrops hshows hperm =>
    exact .dropping ⟨hmid.some, hmid.same, hmid.ref, hmid.amsdu⟩ hchain hdrops hshows hperm
  | holding hmid hsn hrows hchain hperm =>
    exact .holding ⟨hmid.some, hmid.same, hmid.ref, hmid.amsdu⟩ hsn hrows hchain hperm

/-- Between A-MSDUs rows may go. -/
theorem Going.lets (hg : Going k arrived v log [] tail) (hm : Lets k v m) :
    ∃ gone : List Delivery, (∀ d ∈ gone, Shows k d.fate d.frames d.outs) ∧
      tail ++ m.outs = gone.flatMap (·.outs) ∧ Going k arrived m.view (log ++ gone) [] [] ∧
      m.view.state = v.state := by
  obtain ⟨gone, hgone, houts, hrows⟩ := hm.deliveries
  have hchain : m.view.toBaCtl.chain = v.chain := by rw [hm.ctl]
  have hamsdu : m.view.toBaCtl.amsdu = v.amsdu := by rw [hm.ctl]
  have hstate : m.view.toBaCtl.state = v.state := by rw [hm.ctl]
  refine ⟨gone, hgone, ?_, ?_, hstate⟩
  · cases hg with
    | idle => exact houts
    | sending hmid => exact absurd rfl hmid.some
    | dropping hmid => exact absurd rfl hmid.some
  · generalize hcur : ([] : List KiteFrame) = cur at hg
    cases hg with
    | idle hc ha hperm => exact .idle (hchain.trans hc) (by omega) (perm_lets hperm hrows)
    | sending hmid => exact absurd hcur.symm hmid.some
    | dropping hmid => exact absurd hcur.symm hmid.some
    | holding hmid => exact absurd hcur.symm hmid.some

/-- The number of an entry that has an A-MSDU under way, and the codes
    that tell so, leave `ba_state_update` nothing to do. -/
theorem Going.settled {s : AmsduRun} (hg : Going k arrived v log s.current tail)
    (hfollows : s.Follows pn) : v.settled pn.sn pn.amsdu := by
  have hmid : ∀ {sn : ℕ}, Midway v sn s.current → v.settled pn.sn pn.amsdu := by
    intro sn hmid
    rcases hfollows with ⟨hnil, -⟩ | ⟨-, hcode, hsame⟩
    · exact absurd hnil hmid.some
    · obtain ⟨f, rest, hcur⟩ := List.exists_cons_of_ne_nil hmid.some
      have hf : f ∈ s.current := by rw [hcur]; exact List.mem_cons_self
      have href : v.ref = pn.sn := by rw [hmid.ref, ← hmid.same f hf, hsame f hf]
      unfold BaCtl.settled
      simp only
      rw [if_pos href]
      right
      omega
  generalize hcur : s.current = cur at hg hmid
  cases hg with
  | idle hchain hamsdu hperm =>
    unfold BaCtl.settled
    simp only
    split <;> omega
  | sending h => exact hmid h
  | dropping h => exact hmid h
  | holding h => exact hmid h

/-- The state a frame is taken in. -/
theorem Rep.arrival {s : BaState} {h : HeldState} (hrep : Rep s h 0) (hstate : (h.view k).state = 4)
    (hset : ({ h.view k with band := band } : View).settled pn.sn pn.amsdu) :
    let m := View.slide k pn.sn nodeFuel { h.view k with band := band }
    Rep (kiteArrival s k pn band).1 (h.set k m) 0 ∧
      m.view.standing pn.sn = some (kiteArrival s k pn band).2 := by
  intro m
  have hctl := (hrep.entry k).ctl
  have hopen : ¬(s.entry k).state = 3 := by
    have : (s.entry k).toBaCtl.state = 4 := by rw [hctl]; exact hstate
    omega
  have hband := hrep.setCtl k { (h.view k).toBaCtl with band := band }
  set t := s.setCtl k { (s.entry k).toBaCtl with band := band } with ht
  rw [← hctl, ← ht, hctl] at hband
  have hbefore : kiteBefore s k pn band = t := by
    unfold kiteBefore
    simp only
    rw [if_neg hopen, ← ht]
    unfold baStateUpdate
    simp only
    rw [if_pos]
    have htctl : (t.entry k).toBaCtl = { (h.view k).toBaCtl with band := band } := by
      rw [(hband.entry k).ctl, HeldState.set_view_self]
      rfl
    rw [htctl]
    exact hset
  have hview : (h.set k ⟨(h.view k).setCtl { (h.view k).toBaCtl with band := band }, []⟩).view k =
      { h.view k with band := band } := HeldState.set_view_self
  have hslide := hband.slide (k := k) pn.sn nodeFuel (.inl (by
    have := hrep.length_rows_lt k
    rw [hview]
    show (h.view k).rows.length + 2 ≤ nodeFuel
    omega))
  obtain ⟨hrepslide, hstanding⟩ := hslide
  unfold HeldState.app at hrepslide hstanding
  rw [hview, HeldState.set_set, List.nil_append] at hrepslide
  rw [hview, HeldState.set_view_self] at hstanding
  unfold kiteArrival
  rw [hbefore]
  exact ⟨hrepslide, hstanding⟩

/-- A window that has the frame's place does not slide. -/
theorem slide_standing {sn : ℕ} (h : v.standing sn ≠ none) (fuel : ℕ) :
    View.slide k sn fuel v = ⟨v, []⟩ := by
  cases fuel with
  | zero => rfl
  | succ fuel =>
    unfold View.slide
    rw [if_neg h]

/-- Whatever branch takes the frame, it keeps the A-MSDU whole. -/
theorem Going.take {flags : RxFlags} {fresh : Option NodeRef} {s : AmsduRun}
    (hg : Going k s.arrived v log s.current tail) (band : ℕ) (hfast : flags.fast = false)
    (hfollows : s.Follows pn) (hsn : v.standing pn.sn = some st)
    (hfresh : st = .inside → fresh ≠ none) (hnodup : v.refs.Nodup)
    (hguard : pn.amsdu = 3 → st = .behind → ¬peerRestarted v.win v.last pn.sn) :
    Takes k s.arrived log s.current tail pn (View.take k flags fresh pn band st v) := by
  have hcode : pn.amsdu ≤ 3 := by
    rcases hfollows with ⟨-, h | h⟩ | ⟨-, h | h, -⟩ <;> omega
  have hsame : ∀ f ∈ s.current, f.sn = pn.sn := by
    rcases hfollows with ⟨hnil, -⟩ | ⟨-, -, hsame⟩
    · intro f hf
      rw [hnil] at hf
      cases hf
    · exact hsame
  -- an A-MSDU under way has this frame's number
  have hnumber : ∀ {sn : ℕ}, Midway v sn s.current → sn = pn.sn := by
    intro sn hmid
    obtain ⟨f, rest, hcur⟩ := List.exists_cons_of_ne_nil hmid.some
    have hf : f ∈ s.current := by rw [hcur]; exact List.mem_cons_self
    rw [← hmid.same f hf, hsame f hf]
  generalize hcur : s.current = cur at hg hnumber hsame
  cases hg with
  | sending hmid hchain hnext hshows hperm =>
    obtain rfl := hnumber hmid
    obtain rfl := Option.some.inj (hsn.symm.trans hnext)
    exact takes_sending hchain hsn hshows hsame hcode hperm
  | dropping hmid hchain hdrops hshows hperm =>
    obtain rfl := hnumber hmid
    obtain rfl := Option.some.inj (hsn.symm.trans hdrops.1)
    obtain ⟨flag, b, hm⟩ := take_drops k band hfast hchain hdrops hfresh
    exact takes_dropping hm hchain hdrops hshows hsame hcode hperm
  | holding hmid hinside hrows hchain hperm =>
    obtain rfl := hnumber hmid
    obtain rfl := Option.some.inj (hsn.symm.trans hinside)
    obtain ⟨node, hnode⟩ := Option.ne_none_iff_exists'.mp (hfresh rfl)
    rw [hnode]
    exact takes_holding hmid hcode hsn hrows hchain hnodup hperm
  | idle hchain hamsdu hperm =>
    have hdrop : v.Drops pn.sn st →
        Takes k s.arrived log [] [] pn (View.take k flags fresh pn band st v) := by
      intro hdrops
      obtain ⟨flag, b, hm⟩ := take_drops k band hfast hchain hdrops hfresh
      exact takes_dropping hm hchain hdrops (shows_nil .freed) hsame hcode hperm
    cases st with
    | inOrder => exact takes_sending hchain hsn (shows_nil .sent) hsame hcode hperm
    | duplicate => exact hdrop ⟨hsn, .inl rfl⟩
    | behind =>
      by_cases hrestart : peerRestarted v.win v.last pn.sn
      · -- only a lone frame may be taken for one of a restarted peer
        have hlone : pn.amsdu = 0 := by
          rcases hfollows with ⟨-, h | h⟩ | ⟨hne, -⟩
          · exact h
          · exact absurd hrestart (hguard h rfl)
          · exact absurd hcur hne
        show Takes k s.arrived log [] [] pn (v.behind k flags.fast pn band)
        rw [hfast]
        exact takes_restart hlone hchain hrestart hperm
      · exact hdrop ⟨hsn, .inr (.inl ⟨rfl, hrestart⟩)⟩
    | inside =>
      by_cases hheld : (v.after pn.sn).head?.map Row.sn = some pn.sn
      · exact hdrop ⟨hsn, .inr (.inr ⟨rfl, hheld⟩)⟩
      · obtain ⟨node, hnode⟩ := Option.ne_none_iff_exists'.mp (hfresh rfl)
        rw [hnode]
        exact takes_starting hcode hchain hsn hheld hperm

variable {s : AmsduRun} {h : HeldState}

/-- What comes before the branches keeps an A-MSDU under way as it is,
    and may let rows go when there is none. -/
theorem Going.slides (hg : Going k s.arrived v log s.current tail) (hfollows : s.Follows pn) :
    ∃ (gone : List Delivery) (tail' : List Out),
      (∀ d ∈ gone, Shows k d.fate d.frames d.outs) ∧
      tail ++ (View.slide k pn.sn nodeFuel v).outs = gone.flatMap (·.outs) ++ tail' ∧
      Going k s.arrived (View.slide k pn.sn nodeFuel v).view (log ++ gone) s.current tail' ∧
      (View.slide k pn.sn nodeFuel v).view.state = v.state := by
  by_cases hnil : s.current = []
  · rw [hnil] at hg ⊢
    obtain ⟨gone, hgone, houts, hgoing, hstate⟩ := hg.lets (lets_slide k pn.sn nodeFuel v)
    exact ⟨gone, [], hgone, by rw [houts, List.append_nil], hgoing, hstate⟩
  · -- under way, the number has its place
    have hstay : v.standing pn.sn ≠ none := by
      have hnumber : ∀ {sn : ℕ}, Midway v sn s.current → sn = pn.sn := by
        intro sn hmid
        rcases hfollows with ⟨h, -⟩ | ⟨-, -, hsame⟩
        · exact absurd h hnil
        · obtain ⟨f, rest, hcur⟩ := List.exists_cons_of_ne_nil hnil
          have hf : f ∈ s.current := by rw [hcur]; exact List.mem_cons_self
          rw [← hmid.same f hf, hsame f hf]
      generalize hcur : s.current = cur at hg hnumber
      cases hg with
      | idle => exact absurd hcur hnil
      | sending hmid _ hsn => rw [← hnumber hmid, hsn]; simp
      | dropping hmid _ hdrops => rw [← hnumber hmid, hdrops.1]; simp
      | holding hmid hsn => rw [← hnumber hmid, hsn]; simp
    rw [slide_standing hstay]
    refine ⟨[], tail, ?_, ?_, ?_, rfl⟩
    · intro d hd
      cases hd
    · rw [List.append_nil]
      rfl
    · rw [List.append_nil]
      exact hg

/-- A frame keeps the run in order. -/
theorem runInv_frame {flags : RxFlags} (hinv : RunInv k s h log tail) (hfast : flags.fast = false)
    (hwcid : pn.wcid ≠ 0) (hkey : baKey flags.dbdc band pn.wcid pn.tid = k)
    (hfollows : s.Follows pn)
    (hroom : (kiteArrival s.ba k pn band).2 = .inside →
      reorderNodeAlloc (kiteArrival s.ba k pn band).1 ≠ none)
    (hguard : amsduGuard k s (.frame flags pn band)) :
    ∃ h' log' tail', RunInv k (s.next (kiteClassifyPn s.ba flags pn band).1 pn) h' log' tail' := by
  have hg := hinv.going.setBand band
  obtain ⟨hrep, hstanding⟩ := hinv.rep.arrival hinv.state (hg.settled hfollows)
  -- first the window slides: rows leave, whole
  obtain ⟨gone, tail1, hgone, houts1, hg1, hstate1⟩ := hg.slides hfollows
  set m := View.slide k pn.sn nodeFuel { h.view k with band := band } with hm
  set st := (kiteArrival s.ba k pn band).2 with hst
  set t := (kiteArrival s.ba k pn band).1 with ht
  have hview : (h.set k m).view k = m.view := HeldState.set_view_self
  have hctl : (t.entry k).toBaCtl = m.view.toBaCtl := by
    rw [(hrep.entry k).ctl, hview]
  set fresh := (reorderNodeAlloc t).map Prod.fst with hfresh
  have hroom' : st = .inside → fresh ≠ none := by
    intro hin hnone
    exact hroom hin (Option.map_eq_none_iff.mp hnone)
  have hstart : pn.amsdu = 3 → st = .behind →
      ¬peerRestarted m.view.win m.view.last pn.sn := by
    intro hcode hbehind
    have hno := hguard hcode hbehind
    rw [← ht, hctl] at hno
    exact hno
  have hnodup : m.view.refs.Nodup := by
    rw [← hview]
    exact hrep.nodup_refs k
  -- then the frame is taken into the view that leaves
  obtain ⟨log2, tail2, hshown2, houts2, hg2⟩ := hg1.take band hfast hfollows
    hstanding hroom' hnodup hstart
  have hchains : ((h.set k m).view k).Chains := by
    rw [hview]
    exact hg1.chains
  have hend := hrep.take hchains flags pn band st
  rw [← hfresh] at hend
  set r := View.take k flags fresh pn band st m.view with hr
  -- with the window open and a station the code comes to the same
  have hclassify : (kiteClassifyPn s.ba flags pn band).1 = kiteTake t k flags pn band st := by
    have hopen : ¬(s.ba.entry k).state = 0 := by
      have hfour : (s.ba.entry k).toBaCtl.state = 4 := by
        rw [(hinv.rep.entry k).ctl]
        exact hinv.state
      omega
    unfold kiteClassifyPn
    rw [if_neg hwcid]
    simp only
    rw [hkey, if_neg hopen]
    exact kiteReorder_eq _ _ _ _ _
  set h2 := (h.set k m).app k (View.take k flags fresh pn band st) with hh2
  have hview2 : h2.view k = r.view := by
    rw [hh2, HeldState.app_view_self, hview]
  have houts : (kiteTake t k flags pn band st).outs =
      (log ++ gone ++ log2).flatMap (·.outs) ++ tail2 := by
    have hrel : h2.outs = (h.outs ++ m.outs) ++ r.outs := by
      rw [hh2]
      unfold HeldState.app
      rw [HeldState.set_outs, HeldState.set_outs, hview]
    have hbegin : h.outs = log.flatMap (·.outs) ++ tail := by
      rw [← hinv.rep.outs]
      exact hinv.outs
    rw [hend.outs, hrel, hbegin, List.append_assoc _ tail, houts1, List.append_assoc,
      List.append_assoc, houts2]
    simp only [List.flatMap_append, List.append_assoc]
  have hshown : ∀ d ∈ log ++ gone ++ log2, Shows k d.fate d.frames d.outs := by
    intro d hd
    rcases List.mem_append.mp hd with hd | hd
    · rcases List.mem_append.mp hd with hd | hd
      · exact hinv.shown d hd
      · exact hgone d hd
    · exact hshown2 d hd
  have hstate : (h2.view k).state = 4 := by
    rw [hview2, hr, View.take_state, hstate1]
    exact hinv.state
  refine ⟨h2, log ++ gone ++ log2, tail2, ?_⟩
  rw [hclassify]
  unfold AmsduRun.next
  rw [← hview2] at hg2
  -- the last MSDU ends the A-MSDU, any other is gathered
  by_cases hlast : pn.amsdu ≤ 1
  · rw [if_pos hlast] at hg2 ⊢
    exact ⟨hend, hshown, houts, hstate, hg2⟩
  · rw [if_neg hlast] at hg2 ⊢
    exact ⟨hend, hshown, houts, hstate, hg2⟩

/-- Between A-MSDUs rows may go. -/
theorem runInv_lets {ba : BaState} {m : Move} (hinv : RunInv k s h log tail)
    (hnil : s.current = []) (hrep : Rep ba (h.set k m) 0) (hm : Lets k (h.view k) m) :
    ∃ h' log' tail', RunInv k { s with ba := ba } h' log' tail' := by
  have hg := hinv.going
  rw [hnil] at hg
  obtain ⟨gone, hgone, houts, hgoing, hstate⟩ := hg.lets hm
  have hview : (h.set k m).view k = m.view := HeldState.set_view_self
  refine ⟨h.set k m, log ++ gone, [], hrep, ?_, ?_, ?_, ?_⟩
  · intro d hd
    rcases List.mem_append.mp hd with hd | hd
    · exact hinv.shown d hd
    · exact hgone d hd
  · have hbegin : h.outs = log.flatMap (·.outs) ++ tail := by
      rw [← hinv.rep.outs]
      exact hinv.outs
    show ba.outs = _
    rw [hrep.outs, HeldState.set_outs, hbegin, List.append_assoc, houts, List.flatMap_append,
      List.append_nil]
  · rw [hview, hstate]
    exact hinv.state
  · show Going k s.arrived ((h.set k m).view k) (log ++ gone) s.current []
    rw [hview, hnil]
    exact hgoing

/-- The words of an entry between A-MSDUs. -/
theorem RunInv.between (hinv : RunInv k s h log tail) (hnil : s.current = []) :
    (h.view k).chain = none ∧ (h.view k).amsdu ≤ 1 := by
  have hg := hinv.going
  generalize hcur : s.current = cur at hg
  cases hg with
  | idle hchain hamsdu _ => exact ⟨hchain, hamsdu⟩
  | sending hmid => exact absurd (hcur.symm.trans hnil) hmid.some
  | dropping hmid => exact absurd (hcur.symm.trans hnil) hmid.some
  | holding hmid => exact absurd (hcur.symm.trans hnil) hmid.some

theorem runInv_bar (hinv : RunInv k s h log tail) (hnil : s.current = []) (ssn : ℕ) :
    ∃ h' log' tail', RunInv k { s with ba := npuSetBarInfo s.ba k ssn } h' log' tail' := by
  obtain ⟨-, hamsdu⟩ := hinv.between hnil
  have hctl := (hinv.rep.entry k).ctl
  have hupdate : baStateUpdate s.ba k ssn 3 = s.ba := by
    unfold baStateUpdate
    simp only
    rw [if_pos]
    rw [hctl]
    unfold BaCtl.settled
    simp only
    split <;> omega
  unfold npuSetBarInfo
  simp only
  rw [hupdate]
  by_cases hbehind : bit11 (((s.ba.entry k).last : ℤ) - ssn)
  · rw [if_pos hbehind]
    exact runInv_lets hinv hnil (hinv.rep.advance k _) (lets_advance k _ _)
  · rw [if_neg hbehind]
    exact ⟨h, log, tail, hinv⟩

/-- What one step preserves. -/
theorem runInv_step {a : AmsduAction} {s' : AmsduRun} (hinv : RunInv k s h log tail)
    (hguard : amsduGuard k s a) (hstep : (amsduSystem k).step s a s') :
    ∃ h' log' tail', RunInv k s' h' log' tail' := by
  cases a with
  | frame flags pn band =>
    obtain ⟨hfast, hwcid, hkey, hfollows, hroom, rfl⟩ := hstep
    exact runInv_frame hinv hfast hwcid hkey hfollows hroom hguard
  | timeout now limit =>
    obtain ⟨hnil, rfl⟩ := hstep
    exact runInv_lets hinv hnil (hinv.rep.timeout k now limit nodeFuel) (lets_timeout k _ _ _ _)
  | bar ssn =>
    obtain ⟨hnil, rfl⟩ := hstep
    exact runInv_bar hinv hnil ssn
  | flush =>
    obtain ⟨hnil, rfl⟩ := hstep
    exact runInv_lets hinv hnil (hinv.rep.flush k) (lets_flush (hinv.between hnil).1)

theorem runInv_init (hinit : (amsduSystem k).init s) : ∃ h log tail, RunInv k s h log tail := by
  obtain ⟨h, hrep, hstate, hchain, hamsdu, houts, hnil, harrived⟩ := hinit
  have hctl := (hrep.entry k).ctl
  refine ⟨h, [], [], hrep, ?_, ?_, ?_, ?_⟩
  · intro d hd
    cases hd
  · rw [houts]
    rfl
  · rw [← hctl]
    exact hstate
  · rw [hnil]
    refine .idle ?_ ?_ ?_
    · rw [← hctl]
      exact hchain
    · rw [← hctl]
      exact hamsdu
    · rw [harrived]
      exact List.Perm.refl _

theorem runInv_of_reachable (hreach : ((amsduSystem k).guarded (amsduGuard k)).Reachable s) :
    ∃ h log tail, RunInv k s h log tail :=
  StepSystem.Reachable.invariant (T := (amsduSystem k).guarded (amsduGuard k))
    (fun _ => runInv_init)
    (fun _ _ _ hinv hs => by
      obtain ⟨h, log, tail, hinv⟩ := hinv
      exact runInv_step hinv hs.1 hs.2) hreach

/-- In every run in which no A-MSDU begins as the frame of a restarted
    peer, each A-MSDU is sent whole, freed whole or held whole. -/
theorem amsdu_whole (k : BaKey) {s : AmsduRun}
    (hreach : ((amsduSystem k).guarded (amsduGuard k)).Reachable s) : s.Whole k := by
  obtain ⟨h, log, tail, hinv⟩ := runInv_of_reachable hreach
  refine ⟨log, h, tail, hinv.rep, hinv.shown, hinv.outs, ?_⟩
  have hg := hinv.going
  generalize hcur : s.current = cur at hg
  cases hg with
  | idle _ _ hperm => exact .inl ⟨.inl (shows_nil .sent), hperm⟩
  | sending _ _ _ hshows hperm => exact .inl ⟨.inl hshows, hperm⟩
  | dropping _ _ _ hshows hperm => exact .inl ⟨.inr hshows, hperm⟩
  | holding hmid _ _ _ hperm => exact .inr ⟨rfl, hmid.some, hperm⟩

/-! ## An A-MSDU torn apart -/

/-- The views of `window100`. -/
def nothingHeld : HeldState where
  view := fun _ => ⟨⟨none, 64, 100, 99, 0, 0, 4, 0⟩, []⟩
  outs := []

theorem rep_window100 : Rep window100 nothingHeld 0 := by
  refine ⟨rfl, ?_, ?_, ⟨by decide, by decide⟩, ⟨by decide, by decide⟩⟩
  · intro k
    refine ⟨rfl, rfl, rfl, ?_⟩
    intro r hr
    cases hr
  · have hheld : heldNodes nothingHeld = 0 := by
      unfold heldNodes
      exact Finset.sum_eq_zero fun _ _ => rfl
    have hfree : freeNodes window100 = allNodes := by
      unfold freeNodes allNodes window100
      rw [IndexRing.contents_full, IndexRing.contents_full]
      rfl
    rw [hheld, hfree, add_zero, add_zero]

/-- A run that starts with nothing held and the last number 100. -/
def run100 : AmsduRun := ⟨window100, [], []⟩

/-- The entry of station 1's TID 0 on the first band. -/
def key1 : BaKey := (false, ⟨0, by decide⟩)

theorem run100_init : (amsduSystem key1).init run100 :=
  ⟨nothingHeld, rep_window100, rfl, rfl, Nat.zero_le 1, rfl, rfl, rfl⟩

/-- No switch is set. -/
def noFlags : RxFlags := ⟨false, false, false, 10, 0⟩

/-- A subframe with number `sn` and A-MSDU code `amsdu`. -/
def subframe (sn amsdu bufId : ℕ) : KiteFrame := ⟨30, 0, 1, 0, bufId, sn, 100, amsdu⟩

/-- A frame of station 1's TID 0 arrives. -/
def BaState.arrives (s : BaState) (sn amsdu bufId : ℕ) : BaState :=
  (kiteClassifyPn s noFlags (subframe sn amsdu bufId) 0).1

/-- The run after one more subframe. -/
def AmsduRun.take (s : AmsduRun) (pn : KiteFrame) : AmsduRun :=
  s.next (kiteClassifyPn s.ba noFlags pn 0).1 pn

/-- An A-MSDU of two subframes, next in the window. -/
theorem amsdu_whole_next :
    ∃ s, ((amsduSystem key1).guarded (amsduGuard key1)).Reachable s ∧
      s.ba.outs = [bridgeOut key1 (subframe 101 3 7) 0 0, bridgeOut key1 (subframe 101 1 8) 0 0] ∧
      s.Whole key1 := by
  have hplace1 : (kiteArrival run100.ba key1 (subframe 101 3 7) 0).2 = .inOrder := by
    decide +kernel
  have hplace2 : (kiteArrival (run100.take (subframe 101 3 7)).ba key1 (subframe 101 1 8) 0).2 =
      .inOrder := by
    decide +kernel
  have hreach : ((amsduSystem key1).guarded (amsduGuard key1)).Reachable
      ((run100.take (subframe 101 3 7)).take (subframe 101 1 8)) := by
    refine .step (.frame noFlags (subframe 101 1 8) 0) (.step (.frame noFlags (subframe 101 3 7) 0)
      (.init run100_init) ⟨?_, rfl, by decide, rfl, .inl ⟨rfl, .inr rfl⟩, ?_, rfl⟩)
      ⟨?_, rfl, by decide, rfl, .inr ⟨by decide, .inl rfl, by decide⟩, ?_, rfl⟩
    · intro _ hbehind
      rw [hplace1] at hbehind
      cases hbehind
    · intro hinside
      rw [hplace1] at hinside
      cases hinside
    · intro hcode
      cases hcode
    · intro hinside
      have hboth := hplace2.symm.trans hinside
      cases hboth
  exact ⟨_, hreach, by decide +kernel, amsdu_whole key1 hreach⟩

/-- An A-MSDU numbered 66 while the last number is 100: its first
    subframe restarts the window, its second is then a duplicate. -/
theorem amsdu_torn : ∃ s, (amsduSystem key1).Reachable s ∧ ¬s.Whole key1 := by
  have hplace1 : (kiteArrival run100.ba key1 (subframe 66 3 7) 0).2 = .behind := by
    decide +kernel
  have hplace2 : (kiteArrival (run100.take (subframe 66 3 7)).ba key1 (subframe 66 1 8) 0).2 =
      .duplicate := by
    decide +kernel
  set s := (run100.take (subframe 66 3 7)).take (subframe 66 1 8) with hs
  have hreach : (amsduSystem key1).Reachable s := by
    refine .step (.frame noFlags (subframe 66 1 8) 0) (.step (.frame noFlags (subframe 66 3 7) 0)
      (.init run100_init) ⟨rfl, by decide, rfl, .inl ⟨rfl, .inr rfl⟩, ?_, rfl⟩)
      ⟨rfl, by decide, rfl, .inr ⟨by decide, .inl rfl, by decide⟩, ?_, rfl⟩
    · intro hinside
      rw [hplace1] at hinside
      cases hinside
    · intro hinside
      have hboth := hplace2.symm.trans hinside
      cases hboth
  have houts : s.ba.outs = [bridgeOut key1 (subframe 66 3 7) 0 0, .free 0 8] := by decide +kernel
  have hhead : (s.ba.entry key1).head = none := by decide +kernel
  have harrived : s.arrived = [[subframe 66 3 7, subframe 66 1 8]] := rfl
  refine ⟨s, hreach, ?_⟩
  rintro ⟨log, h, tail, hrep, hshown, hall, ⟨hshows, hperm⟩ | ⟨-, hne, -⟩⟩
  · have hrows : (h.view key1).rows = [] := by
      have hlist := (hrep.entry key1).list
      rw [hhead] at hlist
      cases hr : (h.view key1).rows with
      | nil => rfl
      | cons r rows => rw [hr] at hlist; cases hlist.1
    have htail : tail = [] := by
      rcases hshows with hsent | hfreed
      · exact List.forall₂_nil_left_iff.mp hsent
      · exact List.forall₂_nil_left_iff.mp hfreed
    rw [hrows, harrived, List.map_nil, List.append_nil] at hperm
    have hlog : log.map (·.frames) = [[subframe 66 3 7, subframe 66 1 8]] :=
      List.perm_singleton.mp hperm.symm
    obtain ⟨d, hd, hframes⟩ := List.map_eq_singleton_iff.mp hlog
    have hshow := hshown d (by rw [hd]; exact List.mem_singleton_self d)
    have hdouts : d.outs = [bridgeOut key1 (subframe 66 3 7) 0 0, .free 0 8] := by
      rw [houts, htail, hd] at hall
      simpa using hall.symm
    rw [hframes, hdouts] at hshow
    cases hfate : d.fate with
    | sent =>
      rw [hfate] at hshow
      -- the second subframe was freed
      obtain ⟨-, hsecond⟩ := List.forall₂_cons.mp hshow
      obtain ⟨⟨_, _, hsent⟩, -⟩ := List.forall₂_cons.mp hsecond
      cases hsent
    | freed =>
      rw [hfate] at hshow
      obtain ⟨⟨_, hfreed⟩, -⟩ := List.forall₂_cons.mp hshow
      cases hfreed
  · exact hne rfl

end ClankerNPU.Kite
