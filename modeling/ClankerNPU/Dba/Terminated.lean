import ClankerNPU.Dba.Applied
import ClankerNPU.Dba.Bwmap
import Mathlib.Data.List.Perm.Subperm

/-! # The end of the bandwidth map

    The map step takes T-CONTs in turn and each turn writes an entry or
    none. The end mark goes on the entry that brings the counter to zero,
    so it is on the last entry exactly when as many entries are written
    as there are valid T-CONTs. -/

namespace ClankerNPU.Dba

variable {g : Settings} {cfg : Table} {bw : ℕ → ℤ} {s : Bwmap} {n pos : ℕ}

/-- A map that is not empty has the end mark on its last entry and
    nowhere else. -/
def Terminated (out : List Entry) : Prop :=
  out ≠ [] → ∃ init e, out = init ++ [e] ∧ e.ctrl.endMark = endLast ∧
    ∀ x ∈ init, x.ctrl.endMark ≠ endLast

/-- A T-CONT the map step comes to, with its grant. -/
structure Turn where
  idx : ℕ
  slot : ℕ
  onu : ℕ
  fec : Bool
  bw : ℤ

/-- The T-CONTs of one ONU in the order the map step comes to them, and
    the grants after its alignment. -/
def onuTurns (g : Settings) (cfg : Table) (bw : ℕ → ℤ) (onu : ℕ) : (ℕ → ℤ) × List Turn :=
  let m := dbaMap g.mode
  if ¬(cfg onu).valid then (bw, [])
  else if ¬(cfg onu).fec then
    (bw, ((List.range m.nTc).filter fun j => (cfg (tcontIdx m onu j)).valid).map fun j =>
      ⟨tcontIdx m onu j, j, onu, false, bw (tcontIdx m onu j)⟩)
  else
    let list := fecList m cfg bw onu
    let bw := fecAlign g list 0 bw
    (bw, list.zipIdx.map fun p => ⟨p.1, p.2, onu, true, bw p.1⟩)

/-- The turns of a list of ONUs. -/
def turns (g : Settings) (cfg : Table) : (ℕ → ℤ) → List ℕ → List Turn
  | _, [] => []
  | bw, onu :: onus =>
    (onuTurns g cfg bw onu).2 ++ turns g cfg (onuTurns g cfg bw onu).1 onus

/-- The T-CONTs the map step comes to. -/
def plan (g : Settings) (cfg : Table) (bw : ℕ → ℤ) : List Turn :=
  turns g cfg bw (List.range (dbaMap g.mode).nOnu)

/-- A T-CONT with a grant whose entry is not empty and ends in the
    frame. -/
def Turn.Fits (g : Settings) (pos : ℕ) (t : Turn) : Prop :=
  t.bw ≠ 0 ∧ u16 ((entryEnd g pos t.slot t.bw : ℤ) - 1) ≤ stopMax ∧
    entryStart g pos t.slot < u16 ((entryEnd g pos t.slot t.bw : ℤ) - 1)

instance (g : Settings) (pos : ℕ) (t : Turn) : Decidable (t.Fits g pos) :=
  inferInstanceAs (Decidable (_ ∧ _ ∧ _))

/-- The position after a turn. -/
def Turn.next (g : Settings) (pos : ℕ) (t : Turn) : ℕ :=
  if t.bw = 0 then pos else entryEnd g pos t.slot t.bw

/-- Every turn gets an entry. -/
def AllFit (g : Settings) : ℕ → List Turn → Prop
  | _, [] => True
  | pos, t :: ts => t.Fits g pos ∧ AllFit g (t.next g pos) ts

/-- No turn gets an entry. -/
def NoneFits (g : Settings) : ℕ → List Turn → Prop
  | _, [] => True
  | pos, t :: ts => ¬t.Fits g pos ∧ NoneFits g (t.next g pos) ts

/-- The turns that get an entry. -/
def fitting (g : Settings) : ℕ → List Turn → ℕ
  | _, [] => 0
  | pos, t :: ts => (if t.Fits g pos then 1 else 0) + fitting g (t.next g pos) ts

/-- One turn of the map step. -/
def takeTurn (g : Settings) (cfg : Table) (s : Bwmap) (t : Turn) : Bwmap :=
  if t.bw = 0 then s
  else dbaConfigBwmapHandler g (cfg t.idx) t.bw s t.idx t.fec t.slot t.onu

/-! ## Turns and loops -/

/-- Every T-CONT in an FEC list is valid. -/
theorem mem_sortIn {l : List ℕ} {i j : ℕ} (h : j ∈ sortIn bw l i) : j ∈ l ∨ j = i := by
  have hsink : ∀ l : List ℕ, j ∈ sink bw i l → j ∈ l ∨ j = i := by
    intro l
    induction l with
    | nil =>
      intro hj
      exact .inr (List.mem_singleton.1 hj)
    | cons x l ih =>
      intro hj
      unfold sink at hj
      split_ifs at hj
      · rcases List.mem_cons.1 hj with hj | hj
        · exact .inr hj
        · exact .inl hj
      · rcases List.mem_cons.1 hj with hj | hj
        · exact .inl (hj ▸ List.mem_cons_self)
        · rcases ih hj with hj | hj
          · exact .inl (List.mem_cons_of_mem _ hj)
          · exact .inr hj
  unfold sortIn at h
  split_ifs at h
  · rcases List.mem_append.1 h with h | h
    · exact .inl h
    · exact .inr (List.mem_singleton.1 h)
  · rcases List.mem_append.1 h with h | h
    · exact .inl (List.mem_of_mem_take h)
    · rcases hsink _ (List.mem_reverse.1 h) with h | h
      · exact .inl (List.mem_of_mem_drop (List.mem_reverse.1 h))
      · exact .inr h

theorem length_sortIn (l : List ℕ) (i : ℕ) : (sortIn bw l i).length = l.length + 1 := by
  have hsink : ∀ l : List ℕ, (sink bw i l).length = l.length + 1 := by
    intro l
    induction l with
    | nil => rfl
    | cons x l ih =>
      unfold sink
      split_ifs
      · rfl
      · rw [List.length_cons, ih, List.length_cons]
  unfold sortIn
  split_ifs with h
  · rw [List.length_append, List.length_singleton]
  · rw [List.length_append, List.length_reverse, hsink, List.length_reverse, List.length_take,
      List.length_drop]
    omega

theorem fecList_spec (m : DbaMap) (cfg : Table) (bw : ℕ → ℤ) (onu : ℕ) :
    (∀ i ∈ fecList m cfg bw onu, (cfg i).valid) ∧
      (fecList m cfg bw onu).length ≤
        (List.range m.nTc).countP fun j => (cfg (tcontIdx m onu j)).valid := by
  have hloop : ∀ (js l : List ℕ), (∀ i ∈ l, (cfg i).valid) →
      let r := js.foldl (fun list j =>
        if ¬(cfg (tcontIdx m onu j)).valid ∨ bw (tcontIdx m onu j) = 0 then list
        else sortIn bw list (tcontIdx m onu j)) l
      (∀ i ∈ r, (cfg i).valid) ∧
        r.length ≤ l.length + js.countP fun j => (cfg (tcontIdx m onu j)).valid := by
    intro js
    induction js with
    | nil =>
      intro l hl
      exact ⟨hl, Nat.le_refl _⟩
    | cons j js ih =>
      intro l hl
      rw [List.foldl_cons, List.countP_cons]
      by_cases hskip : ¬(cfg (tcontIdx m onu j)).valid ∨ bw (tcontIdx m onu j) = 0
      · rw [if_pos hskip]
        obtain ⟨hv, hlen⟩ := ih l hl
        exact ⟨hv, by omega⟩
      · rw [if_neg hskip]
        have hvalid : (cfg (tcontIdx m onu j)).valid = true := by
          by_contra hno
          exact hskip (.inl hno)
        obtain ⟨hv, hlen⟩ := ih (sortIn bw l (tcontIdx m onu j)) (by
          intro i hi
          rcases mem_sortIn hi with hi | rfl
          · exact hl i hi
          · exact hvalid)
        rw [length_sortIn] at hlen
        rw [if_pos hvalid]
        exact ⟨hv, by omega⟩
  obtain ⟨hv, hlen⟩ := hloop (List.range m.nTc) [] (fun i hi => absurd hi List.not_mem_nil)
  rw [List.length_nil, Nat.zero_add] at hlen
  exact ⟨hv, hlen⟩

/-- The loop body for one ONU takes its turns. -/
theorem switchOnu_eq (g : Settings) (cfg : Table) (bw : ℕ → ℤ) (s : Bwmap) (onu : ℕ) :
    switchOnu g cfg (bw, s) onu =
      ((onuTurns g cfg bw onu).1, (onuTurns g cfg bw onu).2.foldl (takeTurn g cfg) s) := by
  unfold switchOnu onuTurns
  by_cases hvalid : ¬(cfg onu).valid
  · simp only [if_pos hvalid]
    rfl
  · simp only [if_neg hvalid]
    by_cases hfec : ¬(cfg onu).fec
    · simp only [if_pos hfec]
      refine Prod.ext rfl ?_
      dsimp only
      rw [List.foldl_map, List.foldl_filter]
      congr 1
      funext s j
      by_cases hv : (cfg (tcontIdx (dbaMap g.mode) onu j)).valid
      · rw [if_neg (not_not.2 hv), if_pos hv]
        rfl
      · rw [if_pos hv, if_neg hv]
    · simp only [if_neg hfec]
      refine Prod.ext rfl ?_
      dsimp only
      rw [List.foldl_map]
      have hv := (fecList_spec (dbaMap g.mode) cfg bw onu).1
      apply List.foldl_ext
      intro s p hp
      have hmem := List.fst_mem_of_mem_zipIdx hp
      rw [if_neg (not_not.2 (hv _ hmem))]
      rfl

theorem foldl_switchOnu (g : Settings) (cfg : Table) (onus : List ℕ) (bw : ℕ → ℤ) (s : Bwmap) :
    (onus.foldl (switchOnu g cfg) (bw, s)).2 = (turns g cfg bw onus).foldl (takeTurn g cfg) s := by
  induction onus generalizing bw s with
  | nil => rfl
  | cons onu onus ih =>
    unfold turns
    rw [List.foldl_cons, switchOnu_eq, ih, List.foldl_append]

/-! ## The counter and the marks -/

/-- The counter has come down by the entries written, and the marked
    entry is the one that brings it to zero. -/
structure Marked (n : ℕ) (s : Bwmap) : Prop where
  left : s.left < 256
  sum : (s.left + s.out.length) % 256 = n % 256
  marks : ∀ k e, s.out[k]? = some e → (e.ctrl.endMark = endLast ↔ (k + 1) % 256 = n % 256)

/-- A turn that fits writes one entry, marked when the counter comes to
    zero. -/
theorem takeTurn_fits {t : Turn} (h : t.Fits g s.pos) :
    ∃ e, (takeTurn g cfg s t).out = s.out ++ [e] ∧
      (takeTurn g cfg s t).left = (s.left + 255) % 256 ∧
      (e.ctrl.endMark = endLast ↔ (s.left + 255) % 256 = 0) := by
  obtain ⟨hbw, hstop, hstart⟩ := h
  unfold takeTurn dbaConfigBwmapHandler
  rw [if_neg hbw]
  simp only
  rw [if_neg (by omega), if_neg (by omega)]
  refine ⟨_, rfl, rfl, ?_⟩
  dsimp only
  by_cases hz : (s.left + 255) % 256 = 0
  · rw [if_pos hz]
    exact ⟨fun _ => hz, fun _ => rfl⟩
  · rw [if_neg hz]
    constructor
    · intro h
      exact absurd h (by decide)
    · intro h
      exact absurd h hz

/-- A turn that does not fit writes nothing. -/
theorem takeTurn_of_not {t : Turn} (h : ¬t.Fits g s.pos) :
    (takeTurn g cfg s t).out = s.out ∧ (takeTurn g cfg s t).left = s.left := by
  unfold takeTurn
  by_cases hbw : t.bw = 0
  · rw [if_pos hbw]
    exact ⟨rfl, rfl⟩
  · rw [if_neg hbw]
    unfold dbaConfigBwmapHandler
    simp only
    split_ifs with hstop hstart
    · exact ⟨rfl, rfl⟩
    · exact ⟨rfl, rfl⟩
    all_goals exact absurd ⟨hbw, Nat.le_of_not_lt hstop, Nat.lt_of_not_le hstart⟩ h

theorem takeTurn_pos (t : Turn) : (takeTurn g cfg s t).pos = t.next g s.pos := by
  unfold takeTurn Turn.next
  by_cases hbw : t.bw = 0
  · rw [if_pos hbw, if_pos hbw]
  · rw [if_neg hbw, if_neg hbw]
    unfold dbaConfigBwmapHandler
    simp only
    split_ifs <;> rfl

theorem Marked.turn (h : Marked n s) (t : Turn) : Marked n (takeTurn g cfg s t) := by
  have hleft := h.left
  have hsum := h.sum
  by_cases hfit : t.Fits g s.pos
  · obtain ⟨e, hout, hl, hmark⟩ := takeTurn_fits hfit
    constructor
    · rw [hl]
      omega
    · rw [hl, hout, List.length_append, List.length_singleton]
      omega
    · intro k e' hk
      rw [hout] at hk
      rcases Nat.lt_or_ge k s.out.length with hlt | hge
      · rw [List.getElem?_append_left hlt] at hk
        exact h.marks k e' hk
      · rw [List.getElem?_append_right hge] at hk
        rcases Nat.eq_or_lt_of_le hge with heq | hgt
        · rw [← heq, Nat.sub_self] at hk
          obtain rfl : e = e' := Option.some.inj hk
          rw [hmark, ← heq]
          omega
        · rw [List.getElem?_eq_none (by rw [List.length_singleton]; omega)] at hk
          cases hk
  · obtain ⟨hout, hl⟩ := takeTurn_of_not hfit
    constructor
    · rw [hl]
      exact h.left
    · rw [hl, hout]
      exact h.sum
    · rw [hout]
      exact h.marks

/-- A run of turns keeps the marks and writes an entry for each turn that
    fits. -/
theorem Marked.run (h : Marked n s) (ts : List Turn) :
    Marked n (ts.foldl (takeTurn g cfg) s) ∧
      (ts.foldl (takeTurn g cfg) s).out.length = s.out.length + fitting g s.pos ts := by
  induction ts generalizing s with
  | nil => exact ⟨h, rfl⟩
  | cons t ts ih =>
    obtain ⟨hm, hlen⟩ := ih (h.turn t)
    rw [List.foldl_cons]
    refine ⟨hm, ?_⟩
    unfold fitting
    rw [hlen, takeTurn_pos]
    by_cases hfit : t.Fits g s.pos
    · obtain ⟨e, hout, _⟩ := takeTurn_fits hfit
      rw [hout, List.length_append, List.length_singleton, if_pos hfit]
      omega
    · rw [(takeTurn_of_not hfit).1, if_neg hfit]
      omega

/-- With a counter that small, the map is terminated when it is empty or
    the counter came to zero. -/
theorem Marked.terminated_iff (h : Marked n s) (hn : n ≤ allocNum) (hlen : s.out.length ≤ n) :
    Terminated s.out ↔ s.out = [] ∨ s.out.length = n := by
  have h128 : allocNum = 128 := rfl
  constructor
  · intro ht
    by_cases hnil : s.out = []
    · exact .inl hnil
    obtain ⟨init, e, hout, hmark, _⟩ := ht hnil
    have hat : s.out[init.length]? = some e := by
      rw [hout, List.getElem?_append_right (Nat.le_refl _), Nat.sub_self]
      rfl
    have hmod := (h.marks _ _ hat).1 hmark
    rw [hout, List.length_append, List.length_singleton] at hlen ⊢
    omega
  · rintro (hnil | heq) hne
    · exact absurd hnil hne
    rcases List.eq_nil_or_concat s.out with hnil | ⟨init, e, hout⟩
    · exact absurd hnil hne
    rw [List.concat_eq_append] at hout
    have hl : init.length + 1 = n := by
      rw [← heq, hout, List.length_append, List.length_singleton]
    refine ⟨init, e, hout, ?_, ?_⟩
    · have hat : s.out[init.length]? = some e := by
        rw [hout, List.getElem?_append_right (Nat.le_refl _), Nat.sub_self]
        rfl
      rw [h.marks _ _ hat, hl]
    · intro x hx hmark
      obtain ⟨k, hk⟩ := List.mem_iff_getElem?.1 hx
      have hlt : k < init.length := by
        by_contra hge
        rw [List.getElem?_eq_none (by omega)] at hk
        cases hk
      have hat : s.out[k]? = some x := by
        rw [hout, List.getElem?_append_left hlt]
        exact hk
      have hmod := (h.marks _ _ hat).1 hmark
      omega

/-! ## All turns and none -/

theorem fitting_le (g : Settings) (ts : List Turn) (pos : ℕ) : fitting g pos ts ≤ ts.length := by
  induction ts generalizing pos with
  | nil => exact Nat.le_refl 0
  | cons t ts ih =>
    have hrest := ih (t.next g pos)
    unfold fitting
    rw [List.length_cons]
    split_ifs <;> omega

theorem fitting_eq_zero_iff (g : Settings) (ts : List Turn) (pos : ℕ) :
    fitting g pos ts = 0 ↔ NoneFits g pos ts := by
  induction ts generalizing pos with
  | nil => exact ⟨fun _ => trivial, fun _ => rfl⟩
  | cons t ts ih =>
    unfold fitting NoneFits
    rw [← ih]
    by_cases hfit : t.Fits g pos
    · rw [if_pos hfit]
      constructor
      · intro h
        omega
      · intro h
        exact absurd hfit h.1
    · rw [if_neg hfit, Nat.zero_add]
      exact ⟨fun h => ⟨hfit, h⟩, fun h => h.2⟩

theorem fitting_eq_length_iff (g : Settings) (ts : List Turn) (pos : ℕ) :
    fitting g pos ts = ts.length ↔ AllFit g pos ts := by
  induction ts generalizing pos with
  | nil => exact ⟨fun _ => trivial, fun _ => rfl⟩
  | cons t ts ih =>
    have hle := fitting_le g ts (t.next g pos)
    unfold fitting AllFit
    rw [← ih, List.length_cons]
    by_cases hfit : t.Fits g pos
    · rw [if_pos hfit]
      constructor
      · intro h
        exact ⟨hfit, by omega⟩
      · intro h
        have := h.2
        omega
    · rw [if_neg hfit]
      constructor
      · intro h
        omega
      · intro h
        exact absurd h.1 hfit

/-! ## No more turns than valid T-CONTs -/

theorem length_onuTurns_le (g : Settings) (cfg : Table) (bw : ℕ → ℤ) (onu : ℕ) :
    (onuTurns g cfg bw onu).2.length ≤
      (List.range (dbaMap g.mode).nTc).countP fun j =>
        (cfg (tcontIdx (dbaMap g.mode) onu j)).valid := by
  unfold onuTurns
  by_cases hvalid : ¬(cfg onu).valid
  · simp only [if_pos hvalid]
    exact Nat.zero_le _
  · simp only [if_neg hvalid]
    by_cases hfec : ¬(cfg onu).fec
    · simp only [if_pos hfec]
      rw [List.length_map, List.countP_eq_length_filter]
    · simp only [if_neg hfec]
      rw [List.length_map, List.length_zipIdx]
      exact (fecList_spec (dbaMap g.mode) cfg bw onu).2

theorem length_turns_le (g : Settings) (cfg : Table) (onus : List ℕ) (bw : ℕ → ℤ) :
    (turns g cfg bw onus).length ≤
      (onus.flatMap fun onu => (List.range (dbaMap g.mode).nTc).map fun t => (onu, t)).countP
        fun p => (cfg (tcontIdx (dbaMap g.mode) p.1 p.2)).valid := by
  induction onus generalizing bw with
  | nil => exact Nat.le_refl 0
  | cons onu onus ih =>
    have hrest := ih (onuTurns g cfg bw onu).1
    have hhead := length_onuTurns_le g cfg bw onu
    unfold turns
    rw [List.length_append, List.flatMap_cons, List.countP_append, List.countP_map]
    exact Nat.add_le_add hhead hrest

theorem length_tconts (mode : ℕ) : (tconts (dbaMap mode)).length = allocNum := by
  rw [← (dbaMap_fills mode).2]
  unfold tconts
  rw [List.length_flatMap]
  simp only [List.length_map, List.length_range, List.map_const',
    List.sum_replicate_nat]

/-- The T-CONTs of the ONUs are the slots. -/
theorem tconts_perm (mode : ℕ) :
    ((tconts (dbaMap mode)).map fun p => tcontIdx (dbaMap mode) p.1 p.2).Perm
      (List.range allocNum) := by
  apply List.Perm.symm
  -- as many as there are slots, and every slot among them
  refine (List.subperm_of_subset List.nodup_range ?_).perm_of_length_le ?_
  · intro i hi
    obtain ⟨p, hp, hidx⟩ := tconts_all mode i (List.mem_range.mp hi)
    exact List.mem_map.mpr ⟨p, hp, hidx⟩
  · rw [List.length_map, length_tconts, List.length_range]

theorem length_plan_le (g : Settings) (cfg : Table) (bw : ℕ → ℤ) :
    (plan g cfg bw).length ≤ dbaBwmapLeft cfg := by
  have hle := length_turns_le g cfg (List.range (dbaMap g.mode).nOnu) bw
  have hperm := (tconts_perm g.mode).countP_eq fun i => (cfg i).valid
  rw [List.countP_map] at hperm
  exact hle.trans (Nat.le_of_eq hperm)

/-- The map is terminated exactly when no T-CONT gets an entry, or the map
    step comes to every valid T-CONT and each gets one. -/
theorem bwmap_terminated_iff (g : Settings) (cfg : Table) (bw : ℕ → ℤ) (ctrl : BwmapCtrl) :
    Terminated (dbaBwmapSwitch g cfg bw (dbaBwmapLeft cfg) ctrl) ↔
      NoneFits g 0 (plan g cfg bw) ∨
        (plan g cfg bw).length = dbaBwmapLeft cfg ∧ AllFit g 0 (plan g cfg bw) := by
  have hn : dbaBwmapLeft cfg ≤ allocNum := by
    have hle := List.countP_le_length (p := fun i => (cfg i).valid) (l := List.range allocNum)
    rw [List.length_range] at hle
    exact hle
  have h128 : allocNum = 128 := rfl
  have hstart : Marked (dbaBwmapLeft cfg) ⟨ctrl, 0, dbaBwmapLeft cfg, []⟩ := by
    constructor
    · show dbaBwmapLeft cfg < 256
      omega
    · rfl
    · intro k e hk
      cases hk
  obtain ⟨hmarked, hlen⟩ := hstart.run (g := g) (plan g cfg bw)
  have hplan := length_plan_le g cfg bw
  have hfit := fitting_le g (plan g cfg bw) 0
  have hlen' : ((plan g cfg bw).foldl (takeTurn g cfg) ⟨ctrl, 0, dbaBwmapLeft cfg, []⟩).out.length =
      fitting g 0 (plan g cfg bw) := by
    rw [hlen]
    exact Nat.zero_add _
  have hout : dbaBwmapSwitch g cfg bw (dbaBwmapLeft cfg) ctrl =
      ((plan g cfg bw).foldl (takeTurn g cfg) ⟨ctrl, 0, dbaBwmapLeft cfg, []⟩).out :=
    congrArg Bwmap.out (foldl_switchOnu g cfg _ bw _)
  rw [hout, hmarked.terminated_iff hn (by omega), ← List.length_eq_zero_iff, hlen',
    fitting_eq_zero_iff, ← fitting_eq_length_iff]
  constructor
  · rintro (h | h)
    · exact .inl h
    · exact .inr ⟨by omega, by omega⟩
  · rintro (h | ⟨h1, h2⟩)
    · exact .inl h
    · exact .inr (h2.trans h1)

/-- Two fixed T-CONTs in map mode 0: T-CONT 0 of ONU 0, and T-CONT 1 of
    ONU 1, whose T-CONT 0 is not valid. -/
def orphan : Table := fun i => if i = 0 ∨ i = 33 then ⟨1, i, 1, 90, 0, 0⟩ else noTcont

/-- The map has one entry and no end mark, though both T-CONTs have the
    grant they are due. -/
theorem orphan_unterminated :
    ¬∀ (g : Settings) (cfg : Table) (bw : ℕ → ℤ) (ctrl : BwmapCtrl),
      (∀ i, (cfg i).valid → (cfg i).dbaType = 1 ∧ bw i = (cfg i).fixBw) →
        Terminated (dbaBwmapSwitch g cfg bw (dbaBwmapLeft cfg) ctrl) := by
  intro hall
  have hgrants : ∀ i, (orphan i).valid → (orphan i).dbaType = 1 ∧
      ((orphan i).fixBw : ℤ) = (orphan i).fixBw := by
    intro i hi
    unfold orphan at hi ⊢
    split_ifs at hi ⊢
    · exact ⟨rfl, rfl⟩
    · cases hi
  have hterm := hall ⟨46, 0, 0⟩ orphan (fun i => (orphan i).fixBw)
    ⟨false, false, false, 0, false, 0⟩ hgrants
  have hmarks : (dbaBwmapSwitch ⟨46, 0, 0⟩ orphan (fun i => (orphan i).fixBw) (dbaBwmapLeft orphan)
      ⟨false, false, false, 0, false, 0⟩).map (·.ctrl.endMark) = [0] := by decide +kernel
  generalize dbaBwmapSwitch _ _ _ _ _ = out at hterm hmarks
  have hne : out ≠ [] := by
    rintro rfl
    cases hmarks
  obtain ⟨init, e, rfl, hmark, _⟩ := hterm hne
  have hmem : endLast ∈ (init ++ [e]).map (·.ctrl.endMark) := by
    rw [← hmark]
    exact List.mem_map_of_mem (List.mem_append_right _ List.mem_cons_self)
  rw [hmarks] at hmem
  exact absurd hmem (by decide)

end ClankerNPU.Dba
