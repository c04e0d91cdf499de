import ClankerNPU.Kite.EntryRuns
import ClankerNPU.Kite.Nodes
import Mathlib.Data.List.Chain

/-! # Frames are handed over in order

    Without A-MSDUs and restarts of the peer each number an entry hands
    to `pkt_enqueue_bridge` lies 1 to 2047 ahead of the one before it. From
    the last number handed over past the last one of the window to the
    first one held is never farther than that. A slide may leave the window
    ahead with nothing held, but only for the frame it was made for. -/

open LinkedList

namespace ClankerNPU.Kite

variable {k : BaKey} {pn : KiteFrame} {band : ℕ} {v w : View} {sn d : ℕ} {xs : List ℕ}

/-! ## Numbers handed over -/

/-- The number of the entry's frame that leaves. -/
def Out.number (k : BaKey) : Out → Option ℕ
  | .bridge (some o) _ _ _ _ _ => if o.1 = k then some o.2 else none
  | .bridge none _ _ _ _ _ => none
  | .free _ _ => none

/-- The numbers the entry hands over, in order. -/
def numbersOf (k : BaKey) (outs : List Out) : List ℕ := outs.filterMap (Out.number k)

/-- `y` is next to `x` or past it, and not behind. -/
def Follows (x y : ℕ) : Prop := 1 ≤ ahead x y ∧ ahead x y ≤ 2047

theorem numbersOf_append (k : BaKey) (outs outs' : List Out) :
    numbersOf k (outs ++ outs') = numbersOf k outs ++ numbersOf k outs' :=
  List.filterMap_append

@[simp] theorem number_bridgeOut (k : BaKey) (f : KiteFrame) (band bss : ℕ) :
    Out.number k (bridgeOut k f band bss) = some f.sn := if_pos rfl

/-- A row without further MSDUs leaves with its number. -/
theorem numbersOf_rowOuts {rows : List Row} (hlone : ∀ r ∈ rows, r.msdus = []) :
    numbersOf k (v.rowOuts k rows) = rows.map Row.sn := by
  unfold View.rowOuts numbersOf
  induction rows with
  | nil => rfl
  | cons r rows ih =>
    have hrow : r.outs k v.band = [bridgeOut k r.mpdu.frame v.band r.mpdu.frame.bss] := by
      unfold Row.outs Row.cells
      rw [hlone r List.mem_cons_self]
      rfl
    rw [List.flatMap_cons, hrow, List.singleton_append, List.filterMap_cons, number_bridgeOut,
      List.map_cons, ih fun r hr => hlone r (List.mem_cons_of_mem _ hr)]
    rfl

/-! ## Distances between three numbers -/

theorem ahead_add {x y z : ℕ} (h : ahead x y + ahead y z < 4096) :
    ahead x z = ahead x y + ahead y z := by
  unfold ahead at *
  omega

theorem ahead_self (x : ℕ) : ahead x x = 0 := by
  unfold ahead
  omega

theorem follows_of_sorted (base : ℕ) {ns : List ℕ}
    (hsorted : ns.Pairwise fun x y => ahead base x < ahead base y)
    (hnear : ∀ y ∈ ns, ahead base y ≤ 2047) : ns.IsChain Follows := by
  refine List.Pairwise.isChain (hsorted.imp_of_mem fun {x y} _ hy hlt => ?_)
  have := hnear y hy
  have := ahead_sub hlt.le
  unfold Follows
  omega

/-- Rows in order follow each other. -/
theorem Rises.follows {last : ℕ} {rows : List Row} (h : Rises last rows) :
    (rows.map Row.sn).IsChain Follows := by
  refine follows_of_sorted last (List.pairwise_map.mpr h.sorted) fun y hy => ?_
  obtain ⟨r, hr, rfl⟩ := List.mem_map.mp hy
  exact Nat.lt_succ_iff.mp (h.near r hr)

/-! ## The window behind the last number -/

/-- The first number held, or the one of the frame to come, is within
    reach of `d`, the last one handed over. -/
structure Trails (d : ℕ) (v : View) (pending : Option ℕ) : Prop where
  head : ∀ r ∈ v.rows.head?, ahead d v.last + ahead v.last r.sn ≤ 2047
  empty : v.rows = [] → v.last = d ∨
    ∃ sn ∈ pending, 1 ≤ ahead v.last sn ∧ ahead d v.last + ahead v.last sn ≤ 2047

/-- The entry after it handed `xs` over. -/
structure View.Flows (v : View) (xs : List ℕ) (pending : Option ℕ) : Prop where
  win : 1 ≤ v.win ∧ v.win ≤ 511
  chain : v.chain = none
  amsdu : v.amsduOpen → v.flag ≠ 0
  lone : ∀ r ∈ v.rows, r.msdus = []
  order : v.InOrder 2047
  sent : xs.IsChain Follows
  trails : ∀ d ∈ xs.getLast?, Trails d v pending

theorem View.InOrder.trails (h : w.InOrder 2047) (hlast : w.last = d) (pending : Option ℕ) :
    Trails d w pending := by
  refine ⟨fun r hr => ?_, fun _ => .inl hlast⟩
  have := (h.ahead r (List.mem_of_mem_head? hr)).2
  rw [← hlast, ahead_self]
  omega

/-- What comes no later than the first row or the frame to come. -/
theorem Trails.reach {pending : Option ℕ} (h : Trails d v pending)
    (hnear : ahead v.last sn ≤ 2047)
    (hhead : ∀ r ∈ v.rows.head?, ahead v.last sn ≤ ahead v.last r.sn)
    (hpending : v.rows = [] → ∀ sn' ∈ pending, ahead v.last sn ≤ ahead v.last sn') :
    ahead d v.last + ahead v.last sn ≤ 2047 := by
  cases hrows : v.rows with
  | nil =>
    rcases h.empty hrows with hlast | ⟨sn', hsn', -, hreach⟩
    · have hzero : ahead d v.last = 0 := by
        rw [hlast]
        exact ahead_self d
      omega
    · have := hpending hrows sn' hsn'
      omega
  | cons r rows =>
    have hr : r ∈ v.rows.head? := by
      rw [hrows]
      exact rfl
    have := h.head r hr
    have := hhead r hr
    omega

theorem Trails.follows {pending : Option ℕ} (h : Trails d v pending)
    (hnear : 1 ≤ ahead v.last sn ∧ ahead v.last sn ≤ 2047)
    (hhead : ∀ r ∈ v.rows.head?, ahead v.last sn ≤ ahead v.last r.sn)
    (hpending : v.rows = [] → ∀ sn' ∈ pending, ahead v.last sn ≤ ahead v.last sn') :
    Follows d sn := by
  have hreach := h.reach hnear.2 hhead hpending
  have := ahead_add (x := d) (y := v.last) (z := sn) (by omega)
  unfold Follows
  omega

/-- With nothing held and no frame to come the window has not moved. -/
theorem Trails.last {pending : Option ℕ} (h : Trails d v pending) (hrows : v.rows = [])
    (hpending : ∀ sn ∈ pending, ahead v.last sn = 0 ∨ 2047 < ahead v.last sn) : v.last = d := by
  refine (h.empty hrows).resolve_right ?_
  rintro ⟨sn, hsn, hone, hreach⟩
  have := hpending sn hsn
  omega

theorem no_pending {P : ℕ → Prop} : ∀ sn ∈ (none : Option ℕ), P sn :=
  fun _ hsn => absurd hsn (Option.not_mem_none _)

/-- The first rows are handed over. -/
theorem View.Flows.hand {gone rest : List Row} (h : v.Flows xs none)
    (hrows : v.rows = gone ++ rest) : (xs ++ gone.map Row.sn).IsChain Follows := by
  have hrises := h.order.rises (by decide)
  have hgone : gone.Sublist v.rows := by
    rw [hrows]
    exact List.sublist_append_left _ _
  refine h.sent.append (hrises.of_sublist hgone).follows fun d hd y hy => ?_
  cases gone with
  | nil => cases hy
  | cons r gone =>
    obtain rfl : r.sn = y := Option.some.inj hy
    have hfirst : v.rows.head? = some r := by rw [hrows]; rfl
    have hmem := h.order.ahead r (List.mem_of_mem_head? hfirst)
    refine (h.trails d hd).follows (by omega) ?_ ?_
    · intro r' hr'
      rw [hfirst] at hr'
      rw [Option.some.inj hr']
    · exact fun _ => no_pending

/-! ## Releases -/

/-- Where an advance ends at a number that was held, it was the last one
    handed over. -/
theorem Rises.last_gone {last fin : ℕ} {rows : List Row} (h : Rises last rows)
    (hfin : HeldAt last rows fin) :
    ∃ r, (rows.filter fun r => ahead last r.sn < fin + 1).getLast? = some r ∧
      ahead last r.sn = fin := by
  obtain ⟨r, hr, heq⟩ := hfin
  set gone := rows.filter fun r => ahead last r.sn < fin + 1 with hgone
  have hmem : r ∈ gone := by
    rw [hgone, List.mem_filter, decide_eq_true_eq]
    exact ⟨hr, by omega⟩
  have hsorted : gone.Pairwise fun r r' => ahead last r.sn < ahead last r'.sn :=
    h.sorted.sublist List.filter_sublist
  rcases List.eq_nil_or_concat gone with hnil | ⟨front, r', hconcat⟩
  · rw [hnil] at hmem
    cases hmem
  · rw [List.concat_eq_append] at hconcat
    rw [hconcat, List.pairwise_append] at hsorted
    have hlast : r' ∈ gone := by
      rw [hconcat]
      exact List.mem_concat_self
    have hle := (List.mem_filter.mp hlast).2
    rw [decide_eq_true_eq] at hle
    refine ⟨r', by rw [hconcat]; exact List.getLast?_concat, ?_⟩
    -- the last row is no nearer than `r`, and no farther than `fin`
    rw [hconcat, List.mem_append, List.mem_singleton] at hmem
    rcases hmem with hmem | rfl
    · have := hsorted.2.2 r hmem r' (List.mem_singleton.mpr rfl)
      omega
    · exact heq

section advanced

variable {m : Move} {seq fin : ℕ} {pending : Option ℕ}

theorem Advanced.split (hadv : Advanced k v seq m fin) (h : Rises v.last v.rows) :
    v.rows = (v.rows.filter fun r => ahead v.last r.sn < fin + 1) ++ m.view.rows := by
  obtain ⟨htake, hdrop⟩ := h.span_eq (p := fun r => ahead v.last r.sn < fin + 1) fun r _ => Iff.rfl
  have hrest : m.view.rows = v.rows.dropWhile fun r => ahead v.last r.sn < fin + 1 :=
    (congrArg View.rows hadv.view).trans hdrop.symm
  rw [hrest, ← htake]
  exact List.takeWhile_append_dropWhile.symm

/-- What is left is nearer by as much as the window moved. -/
theorem Advanced.left (hadv : Advanced k v seq m fin) {r : Row} (hr : r ∈ m.view.rows) :
    r ∈ v.rows ∧ fin < ahead v.last r.sn ∧
      ahead m.view.last r.sn = ahead v.last r.sn - fin := by
  have hrest : m.view.rows = v.rows.filter fun r => fin < ahead v.last r.sn :=
    congrArg View.rows hadv.view
  rw [hrest, List.mem_filter, decide_eq_true_eq] at hr
  have hsub := @ahead_sub v.last r.sn m.view.last (hadv.stop.trans_le hr.2.le)
  rw [hadv.stop] at hsub
  exact ⟨hr.1, hr.2, hsub⟩

/-- Where nothing ran on behind `seq`, the window stands there. -/
theorem Advanced.stands (hadv : Advanced k v seq m fin) (hseq : seq < 4096)
    (hnot : ¬HeldAt v.last v.rows fin) : m.view.last = seq ∧ ahead v.last seq = fin := by
  have hstart : ahead v.last seq = fin := by
    by_contra hne
    exact hnot (hadv.run fin (lt_of_le_of_ne hadv.start hne) le_rfl)
  exact ⟨(ahead_eq_iff hadv.last hseq).mp (hadv.stop.trans hstart.symm), hstart⟩

/-- No row went: the window moved on in front of the first one. -/
theorem Advanced.trails_on (hadv : Advanced k v seq m fin) (htrails : Trails d v none)
    (hrows : v.rows = m.view.rows) (hsn : sn ∈ pending)
    (hreach : 1 ≤ ahead m.view.last sn ∧ fin + ahead m.view.last sn ≤ 2047) :
    Trails d m.view pending := by
  refine ⟨fun r hr => ?_, fun hempty => .inr ⟨sn, hsn, hreach.1, ?_⟩⟩
  · obtain ⟨-, hfar, hleft⟩ := hadv.left (List.mem_of_mem_head? hr)
    rw [← hrows] at hr
    have hfirst := htrails.head r hr
    rw [ahead_add (x := d) (y := v.last) (z := m.view.last) (by rw [hadv.stop]; omega), hadv.stop]
    omega
  · have hlast : v.last = d := htrails.last (hrows.trans hempty) no_pending
    rw [← hlast, hadv.stop]
    exact hreach.2

/-- A row went that is not past the window now. -/
theorem Advanced.trails_gone (hadv : Advanced k v seq m fin) (horder : v.InOrder 2047) {r : Row}
    (hr : ahead v.last r.sn ≤ fin) (hsn : sn ∈ pending)
    (hreach : 1 ≤ ahead m.view.last sn ∧ fin + ahead m.view.last sn ≤ 2047) :
    Trails r.sn m.view pending := by
  have hback := @ahead_sub v.last m.view.last r.sn (hr.trans_eq hadv.stop.symm)
  rw [hadv.stop] at hback
  refine ⟨fun r' hr' => ?_, fun _ => .inr ⟨sn, hsn, hreach.1, by omega⟩⟩
  obtain ⟨hmem, hfar, hleft⟩ := hadv.left (List.mem_of_mem_head? hr')
  have := (horder.ahead r' hmem).2
  omega

/-- An advance to a held number, or to one from which the frame to come
    is within reach. -/
theorem View.Flows.advance (h : v.Flows xs none) (pending : Option ℕ) (hseq : seq < 4096)
    (hnear : ahead v.last seq < 2048)
    (hto : HeldAt v.last v.rows (ahead v.last seq) ∨
      ∃ sn ∈ pending, 1 ≤ ahead seq sn ∧ ahead v.last seq + ahead seq sn ≤ 2047) :
    (v.advance k seq).view.Flows (xs ++ numbersOf k (v.advance k seq).outs) pending := by
  have hrises := h.order.rises (by decide)
  obtain ⟨fin, hadv⟩ := hrises.advance (k := k) hseq hnear
  have hctl := (lets_advance k seq v).ctl
  have horder : (v.advance k seq).view.InOrder 2047 := h.order.advance hseq hnear
  have hsplit := hadv.split hrises
  have hnumbers : numbersOf k (v.advance k seq).outs =
      (v.rows.filter fun r => ahead v.last r.sn < fin + 1).map Row.sn := by
    rw [hadv.outs]
    exact numbersOf_rowOuts fun r hr => h.lone r (List.mem_of_mem_filter hr)
  rw [hnumbers]
  constructor
  case win =>
    rw [hctl]
    exact h.win
  case chain =>
    rw [hctl]
    exact h.chain
  case amsdu =>
    rw [hctl]
    exact h.amsdu
  case lone => exact fun r hr => h.lone r (hadv.left hr).1
  case order => exact horder
  case sent => exact h.hand hsplit
  case trails =>
    intro d hd
    by_cases hheld : HeldAt v.last v.rows fin
    · obtain ⟨r, hr, heq⟩ := hrises.last_gone hheld
      rw [List.getLast?_append, List.getLast?_map, hr] at hd
      obtain rfl : r.sn = d := Option.some.inj hd
      have hsn := h.order.sns r (List.mem_of_mem_filter (List.mem_of_getLast? hr))
      exact horder.trails ((ahead_eq_iff hadv.last hsn).mp (hadv.stop.trans heq.symm)) pending
    · obtain ⟨hstands, hstart⟩ := hadv.stands hseq hheld
      obtain ⟨sn, hsn, hreach⟩ := hto.resolve_left (hstart ▸ hheld)
      rw [hstart, ← hstands] at hreach
      rcases List.eq_nil_or_concat (v.rows.filter fun r => ahead v.last r.sn < fin + 1) with
        hnil | ⟨front, r, hconcat⟩
      · rw [hnil, List.map_nil, List.append_nil] at hd
        rw [hnil, List.nil_append] at hsplit
        exact hadv.trails_on (h.trails d hd) hsplit hsn hreach
      · rw [List.concat_eq_append] at hconcat
        have hr := List.mem_filter.mp (hconcat ▸ List.mem_concat_self)
        rw [decide_eq_true_eq] at hr
        rw [hconcat, List.map_append, ← List.append_assoc] at hd
        obtain rfl : r.sn = d := Option.some.inj (List.getLast?_concat.symm.trans hd)
        exact hadv.trails_gone h.order (Nat.lt_succ_iff.mp hr.2) hsn hreach

end advanced

theorem View.Flows.timeout (h : v.Flows xs none) (now limit fuel : ℕ) :
    (View.timeout k now limit fuel v).view.Flows
      (xs ++ numbersOf k (View.timeout k now limit fuel v).outs) none := by
  induction fuel generalizing v xs with
  | zero => exact (List.append_nil xs).symm ▸ h
  | succ fuel ih =>
    unfold View.timeout
    split
    · exact (List.append_nil xs).symm ▸ h
    · next r rows hrows =>
      split
      · have hmem : r ∈ v.rows := by
          rw [hrows]
          exact List.mem_cons_self
        have hnear := (h.order.ahead r hmem).2
        have hadv := h.advance (k := k) none (h.order.sns r hmem) (by omega) (.inl ⟨r, hmem, rfl⟩)
        have hrest := ih hadv
        rw [List.append_assoc, ← numbersOf_append] at hrest
        exact hrest
      · exact (List.append_nil xs).symm ▸ h

theorem View.Flows.flush (h : v.Flows xs none) :
    (v.flush k).view.Flows (xs ++ numbersOf k (v.flush k).outs) none := by
  have hnumbers : numbersOf k (v.flush k).outs = v.rows.map Row.sn := numbersOf_rowOuts h.lone
  rw [hnumbers]
  refine ⟨h.win, rfl, h.amsdu, fun r hr => absurd hr List.not_mem_nil, h.order.flush,
    h.hand (List.append_nil _).symm, fun d hd => ?_⟩
  refine ⟨fun r hr => absurd hr (Option.not_mem_none r), fun _ => .inl ?_⟩
  show (v.rows.getLast?.map Row.sn).getD v.last = d
  rw [List.getLast?_append, List.getLast?_map] at hd
  cases hlast : v.rows.getLast? with
  | none =>
    rw [hlast] at hd
    exact (h.trails d hd).last (List.getLast?_eq_none_iff.mp hlast) no_pending
  | some r =>
    rw [hlast] at hd
    exact Option.some.inj hd

theorem View.Flows.slideOnce (h : v.Flows xs none) (hsn : sn < 4096)
    (hnone : v.standing sn = none) :
    (v.slideOnce k sn).view.Flows (xs ++ numbersOf k (v.slideOnce k sn).outs) (some sn) := by
  obtain ⟨hpast, hnear⟩ := standing_none h.order.last hsn h.win.2 hnone
  have hto : ahead v.last (slideTo sn v.win) = ahead v.last sn - v.win := slideTo_ahead (by omega)
  have hwin : ahead (slideTo sn v.win) sn = v.win := by
    rw [@ahead_sub v.last sn _ (by omega), hto]
    omega
  have hone := h.win.1
  have hadv := h.advance (k := k) (some sn) (slideTo_lt sn v.win) (by omega)
    (.inr ⟨sn, rfl, by omega, by omega⟩)
  have houts : (v.slideOnce k sn).outs = (v.advance k (slideTo sn v.win)).outs :=
    List.append_nil _
  rw [houts]
  exact ⟨hadv.win, hadv.chain, fun _ => four_ne_zero, hadv.lone, hadv.order.words rfl rfl,
    hadv.sent, fun d hd => ⟨(hadv.trails d hd).head, (hadv.trails d hd).empty⟩⟩

/-! ## Arriving frames -/

/-- Nothing is under way that `ba_state_update` goes back to. -/
theorem View.Flows.stateUpdate {pending : Option ℕ} (h : v.Flows xs pending) (sn checkType : ℕ) :
    v.stateUpdate k sn checkType = ⟨v, []⟩ := by
  unfold View.stateUpdate
  by_cases hset : v.settled sn checkType
  · rw [if_pos hset]
  · have hopen : v.amsduOpen := by
      by_contra hnot
      exact hset (settled_of_not_open hnot sn checkType)
    rw [if_neg hset, if_pos (h.amsdu hopen)]
    have hsame : { v with chain := none } = v := by
      rw [← h.chain]
    rw [hsame]

/-- Neither rows nor the last number change, and the frame that was to
    come is not past it. -/
theorem View.Flows.words {pending pending' : Option ℕ} (h : v.Flows xs pending)
    (hpending : v.rows = [] → ∀ sn ∈ pending, ahead v.last sn = 0 ∨ 2047 < ahead v.last sn)
    (hrows : w.rows = v.rows) (hlast : w.last = v.last) (hwin : w.win = v.win)
    (hchain : w.chain = none) (hamsdu : w.amsduOpen → w.flag ≠ 0) : w.Flows xs pending' := by
  refine ⟨hwin ▸ h.win, hchain, hamsdu, hrows ▸ h.lone, h.order.words hlast hrows, h.sent,
    fun d hd => ⟨?_, fun hempty => .inl ?_⟩⟩
  · rw [hrows, hlast]
    exact (h.trails d hd).head
  · rw [hrows] at hempty
    rw [hlast]
    exact (h.trails d hd).last hempty (hpending hempty)

/-- The entry waits for its first frame, or is under way. -/
def View.Delivers (v : View) (xs : List ℕ) : Prop :=
  v.state = 3 ∧ (1 ≤ v.win ∧ v.win ≤ 511) ∧ v.rows = [] ∧ xs = [] ∨ v.state = 4 ∧ v.Flows xs none

theorem closed_of_zero {c : BaCtl} (h : c.amsdu = 0) : ¬c.amsduOpen := by
  unfold BaCtl.amsduOpen
  omega

theorem View.Delivers.openWindow (hwin : 1 ≤ v.win ∧ v.win ≤ 511) (hrows : v.rows = [])
    (hamsdu : pn.amsdu = 0) :
    (v.openWindow k pn).view.Flows [] none ∧ (v.openWindow k pn).outs = [] := by
  have hlast : ((pn.sn - 1 : ℤ) % 4096).toNat < 4096 := by omega
  refine ⟨⟨hwin, rfl, fun hopen => absurd hopen (closed_of_zero hamsdu), ?_, ⟨hlast, ?_, ?_,
    List.Pairwise.nil⟩, List.isChain_nil, fun d hd => absurd hd (Option.not_mem_none d)⟩, ?_⟩
  · exact fun r hr => absurd hr List.not_mem_nil
  · exact fun r hr => absurd hr List.not_mem_nil
  · exact fun r hr => absurd hr List.not_mem_nil
  · show v.rowOuts k v.rows ++ [] = []
    rw [hrows]
    rfl

/-- In front of the branches. -/
theorem View.Delivers.arrive (h : v.Delivers xs) (hsn : pn.sn < 4096) (hamsdu : pn.amsdu = 0)
    (band : ℕ) :
    (v.arrive k pn band).view.state = 4 ∧
      (v.arrive k pn band).view.Flows (xs ++ numbersOf k (v.arrive k pn band).outs)
        (some pn.sn) := by
  set m : Move := if v.state = 3 then v.openWindow k pn else ⟨v, []⟩ with hm
  have hopen : m.view.state = 4 ∧ m.view.Flows xs none ∧ m.outs = [] := by
    rw [hm]
    rcases h with ⟨hwait, hwin, hrows, rfl⟩ | ⟨hstate, hflows⟩
    · rw [if_pos hwait]
      obtain ⟨hflows, houts⟩ := openWindow (k := k) hwin hrows hamsdu
      exact ⟨rfl, hflows, houts⟩
    · rw [if_neg (by omega)]
      exact ⟨hstate, hflows, rfl⟩
  obtain ⟨hstate, hflows, houts⟩ := hopen
  set v' : View := { m.view with band := band } with hv'
  have hflows' : v'.Flows xs none :=
    hflows.words (fun _ => no_pending) rfl rfl rfl hflows.chain hflows.amsdu
  have harrive : v.arrive k pn band = View.slide k pn.sn nodeFuel v' := by
    unfold View.arrive Move.andThen
    simp only [← hm, ← hv', hflows'.stateUpdate, houts, List.nil_append]
  rw [harrive]
  by_cases hnone : v'.standing pn.sn = none
  · obtain ⟨-, hslide⟩ := (slide_eq (k := k) hflows'.order hsn hflows'.win).resolve_left
      fun hstands => hstands.1 hnone
    rw [hslide]
    exact ⟨hstate, hflows'.slideOnce hsn hnone⟩
  · rw [slide_standing hnone nodeFuel]
    refine ⟨hstate, ?_⟩
    rw [show numbersOf k [] = [] from rfl, List.append_nil]
    exact hflows'.words (fun _ => no_pending) rfl rfl rfl hflows'.chain hflows'.amsdu

/-- A run ends at the last number handed over. -/
theorem runEnd_last (seq : ℕ) (rows : List Row) :
    (seq :: (runOf seq rows).map Row.sn).getLast? = some (runEnd seq rows) := by
  induction rows generalizing seq with
  | nil => rfl
  | cons r rows ih =>
    unfold runOf runEnd
    split
    · rw [List.map_cons, List.getLast?_cons_cons]
      exact ih r.sn
    · rfl

theorem standing_duplicate {c : BaCtl} (h : c.standing sn = some .duplicate) : c.last = sn := by
  unfold BaCtl.standing at h
  by_contra hnot
  rw [if_neg hnot] at h
  split_ifs at h <;> cases h

theorem View.Flows.inOrder (h : v.Flows xs (some pn.sn)) (hsn : pn.sn < 4096)
    (hamsdu : pn.amsdu = 0) (hst : v.standing pn.sn = some .inOrder) :
    (v.inOrder k pn).view.Flows (xs ++ numbersOf k (v.inOrder k pn).outs) none := by
  have hone : ahead v.last pn.sn = 1 := standing_inOrder hst
  have hrises := h.order.rises (by decide)
  have hmove : (v.moveLast k pn.sn).view.InOrder 2047 := by
    refine hrises.moveLast hsn (by omega) fun r hr => ?_
    have := (h.order.ahead r hr).1
    omega
  have hsub : (runOf pn.sn v.rows).Sublist v.rows := by
    conv_rhs => rw [← runOf_append_runRest pn.sn v.rows]
    exact List.sublist_append_left _ _
  have hnumbers : numbersOf k (v.inOrder k pn).outs =
      pn.sn :: (runOf pn.sn v.rows).map Row.sn := by
    unfold View.inOrder
    rw [if_pos (by omega)]
    refine (List.filterMap_cons_some (number_bridgeOut k pn v.band pn.bss)).trans ?_
    exact congrArg _ (numbersOf_rowOuts fun r hr => h.lone r (hsub.subset hr))
  have hview : (v.inOrder k pn).view =
      (v.moveLast k pn.sn).view.setCtl ((v.moveLast k pn.sn).view.seen pn 0) := by
    unfold View.inOrder
    rw [if_pos (by omega)]
  rw [hnumbers, hview]
  set w : View := (v.moveLast k pn.sn).view.setCtl ((v.moveLast k pn.sn).view.seen pn 0) with hw
  have horder : w.InOrder 2047 := hmove.words rfl rfl
  refine ⟨h.win, ?_, fun hopen => absurd hopen (closed_of_zero hamsdu), ?_, horder, ?_, ?_⟩
  · exact if_pos (by omega)
  · exact fun r hr => h.lone r ((runRest_suffix pn.sn v.rows).sublist.subset hr)
  · have hrun : (pn.sn :: (runOf pn.sn v.rows).map Row.sn).IsChain Follows := by
      refine follows_of_sorted v.last (List.pairwise_cons.mpr ⟨?_, ?_⟩) ?_
      · intro x hx
        obtain ⟨r, hr, rfl⟩ := List.mem_map.mp hx
        have := (h.order.ahead r (hsub.subset hr)).1
        omega
      · exact List.pairwise_map.mpr (h.order.sorted.sublist hsub)
      · intro x hx
        rcases List.mem_cons.mp hx with rfl | hx
        · omega
        · obtain ⟨r, hr, rfl⟩ := List.mem_map.mp hx
          exact (h.order.ahead r (hsub.subset hr)).2
    refine h.sent.append hrun fun d hd y hy => ?_
    obtain rfl : pn.sn = y := Option.some.inj hy
    refine (h.trails d hd).follows (by omega) ?_ ?_
    · intro r hr
      have := (h.order.ahead r (List.mem_of_mem_head? hr)).1
      omega
    · intro _ sn' hsn'
      rw [← Option.some.inj hsn']
  · intro d hd
    rw [List.getLast?_append, runEnd_last] at hd
    exact horder.trails (Option.some.inj hd) none

/-- A frame that is dropped: it is the last number, or behind it. -/
theorem View.Flows.drop (h : v.Flows xs (some pn.sn)) (hamsdu : pn.amsdu = 0)
    (hpast : ahead v.last pn.sn = 0 ∨ 2047 < ahead v.last pn.sn) (flag : ℕ) :
    (v.setCtl (v.seen pn flag)).Flows (xs ++ numbersOf k [.free band pn.bufId]) none := by
  have hnumbers : numbersOf k [.free band pn.bufId] = [] := rfl
  rw [hnumbers, List.append_nil]
  refine h.words (fun _ sn hsn => ?_) rfl rfl rfl (if_pos (by omega)) fun hopen =>
    absurd hopen (closed_of_zero hamsdu)
  rw [← Option.some.inj hsn]
  exact hpast

/-- The frame to come gets its row. -/
theorem Trails.insert {c : Cell} (h : Trails d v (some c.frame.sn)) (horder : v.InOrder 2047)
    (hnear : ahead v.last c.frame.sn ≤ 2047) (hlast : w.last = v.last)
    (hrows : w.rows = v.before c.frame.sn ++ ⟨c, []⟩ :: v.after c.frame.sn) : Trails d w none := by
  have hsplit : v.before c.frame.sn ++ v.after c.frame.sn = v.rows :=
    List.takeWhile_append_dropWhile
  refine ⟨fun r hr => ?_, fun hempty => ?_⟩
  · rw [hlast]
    rw [hrows] at hr
    cases hbefore : v.before c.frame.sn with
    | nil =>
      -- the frame comes first: no row is nearer
      rw [hbefore] at hr
      obtain rfl : ⟨c, []⟩ = r := Option.some.inj hr
      refine h.reach hnear (fun r' hr' => ?_) fun _ sn' hsn' => by
        rw [← Option.some.inj hsn']
        exact le_rfl
      have hmem := List.mem_of_mem_head? hr'
      by_contra hless
      have hfirst : bit11 ((r'.sn : ℤ) - c.frame.sn) :=
        (bit11_iff_lt ((horder.ahead r' hmem).2.trans_lt (by decide)) (by omega)).mpr
          (not_le.mp hless)
      obtain ⟨rest, hrest⟩ := List.head?_eq_some_iff.mp hr'
      unfold View.before at hbefore
      rw [hrest, List.takeWhile_cons_of_pos (by simpa using hfirst)] at hbefore
      cases hbefore
    | cons r' rows =>
      rw [hbefore] at hr hsplit
      refine h.head r ?_
      rw [← hsplit]
      exact hr
  · rw [hrows] at hempty
    cases hbefore : v.before c.frame.sn <;> rw [hbefore] at hempty <;> cases hempty

/-- A frame inside the window that gets a node is held. -/
theorem View.Flows.hold (h : v.Flows xs (some pn.sn)) (hsn : pn.sn < 4096)
    (hamsdu : pn.amsdu = 0) (hst : v.standing pn.sn = some .inside) (node : NodeRef) (tick : ℕ) :
    (v.hold (some node) pn tick).view.Flows
      (xs ++ numbersOf k (v.hold (some node) pn tick).outs) none := by
  obtain ⟨htwo, hin⟩ := standing_inside h.order.last hsn h.win.2 hst
  have hwin := h.win.2
  have hnear : ahead v.last pn.sn ≤ 2047 := by omega
  set c : Cell := ⟨node, pn, tick⟩ with hc
  have hhold : v.hold (some node) pn tick =
      ⟨(v.insert c).view.setCtl ((v.insert c).view.seen pn 3), (v.insert c).outs⟩ := by
    unfold View.hold
    rw [h.chain]
  rw [hhold]
  have hnothing : numbersOf k (v.insert c).outs = [] := by
    unfold View.insert
    split <;> rfl
  rw [hnothing, List.append_nil]
  unfold View.insert
  split
  · next hheld =>
    -- its number is held, so something is
    refine h.words (fun hnil => ?_) rfl rfl rfl (if_pos (by omega)) fun hopen =>
      absurd hopen (closed_of_zero hamsdu)
    unfold View.after at hheld
    rw [hnil] at hheld
    cases hheld
  · next hnew =>
    refine ⟨h.win, if_pos (by omega), fun hopen => absurd hopen (closed_of_zero hamsdu), ?_,
      h.order.insert hsn htwo hnear hnew rfl rfl, h.sent, fun d hd => ?_⟩
    · intro r hr
      rcases List.mem_append.mp hr with hr | hr
      · exact h.lone r ((List.takeWhile_sublist _).subset hr)
      · rcases List.mem_cons.mp hr with rfl | hr
        · rfl
        · exact h.lone r ((List.dropWhile_sublist _).subset hr)
    · exact (h.trails d hd).insert h.order hnear rfl rfl

theorem View.Flows.take {st : Standing} {flags : RxFlags} (h : v.Flows xs (some pn.sn))
    (hsn : pn.sn < 4096) (hamsdu : pn.amsdu = 0) (hfast : flags.fast = false)
    (hst : v.standing pn.sn = some st)
    (hrestart : st = .behind → ¬peerRestarted v.win v.last pn.sn) (node : NodeRef) :
    (View.take k flags (some node) pn band st v).view.Flows
      (xs ++ numbersOf k (View.take k flags (some node) pn band st v).outs) none := by
  cases st with
  | inOrder => exact h.inOrder hsn hamsdu hst
  | duplicate =>
    show (v.duplicate k flags.fast pn band).view.Flows
      (xs ++ numbersOf k (v.duplicate k flags.fast pn band).outs) none
    unfold View.duplicate
    rw [hfast]
    refine h.drop hamsdu (.inl ?_) 1
    rw [standing_duplicate hst]
    exact ahead_self _
  | behind =>
    have hbehind := standing_behind hst
    rw [bit11_iff_ahead] at hbehind
    show (v.behind k flags.fast pn band).view.Flows
      (xs ++ numbersOf k (v.behind k flags.fast pn band).outs) none
    unfold View.behind
    rw [if_neg (hrestart rfl), hfast]
    exact h.drop hamsdu (.inr (by omega)) 2
  | inside => exact h.hold hsn hamsdu hst node flags.tick

theorem View.Delivers.flush (h : v.Delivers xs) :
    (v.flush k).view.Delivers (xs ++ numbersOf k (v.flush k).outs) := by
  rcases h with ⟨hwait, hwin, hrows, rfl⟩ | ⟨hstate, hflows⟩
  · refine .inl ⟨hwait, hwin, rfl, ?_⟩
    show numbersOf k (v.rowOuts k v.rows) = []
    rw [hrows]
    rfl
  · exact .inr ⟨hstate, hflows.flush⟩

theorem View.Delivers.timeout (h : v.Delivers xs) (now limit fuel : ℕ) :
    (View.timeout k now limit fuel v).view.Delivers
      (xs ++ numbersOf k (View.timeout k now limit fuel v).outs) := by
  rcases h with ⟨hwait, hwin, hrows, rfl⟩ | ⟨hstate, hflows⟩
  · have hnone : View.timeout k now limit fuel v = ⟨v, []⟩ := by
      cases fuel with
      | zero => rfl
      | succ fuel =>
        unfold View.timeout
        rw [hrows]
    rw [hnone]
    exact .inl ⟨hwait, hwin, hrows, rfl⟩
  · refine .inr ⟨?_, hflows.timeout now limit fuel⟩
    rw [(lets_timeout k now limit fuel v).ctl]
    exact hstate

end ClankerNPU.Kite
