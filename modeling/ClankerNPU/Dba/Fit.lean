import ClankerNPU.Dba.Fair

/-! # The fit of a request

    A request that has to divide its budget keeps to it where the first
    overflow of the list leaves no T-CONT in the assured group, or assured
    T-CONTs alone that fit what is left. Where assured T-CONTs stay beside
    others, what they ask for above their bands is handed out once more. -/

namespace ClankerNPU.Dba

variable {cfg : Table} {p : Pool} {l : List ℕ} {i j n share : ℕ} {alloc : ℕ → Alloc}
  {dual olt : Bool}

/-! ## The first overflow -/

/-- A T-CONT of the assured group is assured the share or more. -/
def Stays (cfg : Table) (share : ℤ) (alloc : ℕ → Alloc) (j : ℕ) : Prop :=
  (alloc j).grp = 2 ∧ share ≤ (cfg j).assureBw

instance (cfg : Table) (share : ℤ) (alloc : ℕ → Alloc) (j : ℕ) :
    Decidable (Stays cfg share alloc j) := inferInstanceAs (Decidable (_ ∧ _))

/-- The bands the T-CONTs of a list are assured. -/
def assured (cfg : Table) (l : List ℕ) : ℕ := (l.map fun i => (cfg i).assureBw).sum

/-- At the first grant above the even share of what is left, no T-CONT
    stays in the assured group, or all do and their bands fit. -/
def Divides (cfg : Table) (alloc : ℕ → Alloc) : ℤ → List ℕ → Prop
  | _, [] => True
  | rem, i :: is =>
    if rem / (is.length + 1 : ℕ) < (alloc i).curBw then
      (∀ j ∈ i :: is, ¬Stays cfg (rem / (is.length + 1 : ℕ)) alloc j) ∨
        (∀ j ∈ i :: is, Stays cfg (rem / (is.length + 1 : ℕ)) alloc j) ∧
          (assured cfg (i :: is) : ℤ) ≤ rem
    else Divides cfg alloc (rem - (alloc i).curBw) is

instance decidableDivides (cfg : Table) (alloc : ℕ → Alloc) :
    ∀ rem l, Decidable (Divides cfg alloc rem l)
  | _, [] => inferInstanceAs (Decidable True)
  | rem, i :: is =>
    have := decidableDivides cfg alloc (rem - (alloc i).curBw) is
    inferInstanceAs (Decidable (ite _ _ _))

/-- What drops back leaves those assured the share or more. -/
theorem dropBacks_grp (cfg : Table) (share : ℕ) (l : List ℕ) (p : Pool) (k : ℕ) :
    ((l.foldl (Pool.dropBack cfg share) p).alloc k).grp = 2 ↔
      (p.alloc k).grp = 2 ∧ (k ∈ l → share ≤ (cfg k).assureBw) := by
  induction l generalizing p with
  | nil => simp
  | cons j l ih =>
    rw [List.foldl_cons, ih]
    by_cases hstay : (p.alloc j).grp ≠ 2 ∨ share ≤ (cfg j).assureBw
    · have hsame : p.dropBack cfg share j = p := if_pos hstay
      rw [hsame, List.mem_cons]
      refine and_congr_right fun hgrp => ⟨fun h hk => ?_, fun h hk => h (.inr hk)⟩
      rcases hk with rfl | hk
      · exact hstay.resolve_left (not_not.mpr hgrp)
      · exact h hk
    · have halloc : (p.dropBack cfg share j).alloc =
          Function.update p.alloc j { p.alloc j with grp := 1 } := by
        unfold Pool.dropBack
        dsimp only
        rw [if_neg hstay]
      rw [halloc, List.mem_cons]
      by_cases hk : k = j
      · -- dropped back
        subst hk
        rw [Function.update_self]
        constructor
        · rintro ⟨hgrp, -⟩
          cases hgrp
        · rintro ⟨-, h⟩
          exact absurd (.inr (h (.inl rfl))) hstay
      · rw [Function.update_of_ne hk]
        simp [hk]

/-! ## Cuts -/

/-- What a list is handed out. -/
def served (cfg : Table) (l : List ℕ) (p : Pool) : ℤ :=
  (l.map fun i => ((handOut cfg l p).alloc i).curBw).sum

theorem dropBacks_notMem (cfg : Table) (share : ℕ) (l : List ℕ) (p : Pool) (hi : i ∉ l) :
    (l.foldl (Pool.dropBack cfg share) p).alloc i = p.alloc i := by
  induction l generalizing p with
  | nil => rfl
  | cons j l ih =>
    rw [List.mem_cons, not_or] at hi
    rw [List.foldl_cons, ih _ hi.2]
    unfold Pool.dropBack
    dsimp only
    split_ifs
    · rfl
    · exact Function.update_of_ne hi.1 _ _

/-- No context outside the list changes. -/
theorem handOut_notMem (hi : i ∉ l) : (handOut cfg l p).alloc i = p.alloc i := by
  induction l generalizing p with
  | nil => rfl
  | cons j l ih =>
    have hboth := hi
    rw [List.mem_cons, not_or] at hi
    unfold handOut
    dsimp only
    split_ifs
    · rw [ih hi.2]
      exact Function.update_of_ne hi.1 _ _
    · rw [ih hi.2]
      refine (Function.update_of_ne hi.1 _ _).trans ?_
      exact dropBacks_notMem cfg p.clip.share (j :: l) p.clip hboth
    · rw [ih hi.2]
      rfl

/-- The cuts of a list are the head's and those of the rest. -/
theorem served_cut (hfirst : p.first = true) (hj : j ∉ l) :
    served cfg (j :: l) p = ((p.cut cfg j).alloc j).curBw + served cfg l (p.cut cfg j) := by
  unfold served
  rw [handOut_first cfg j l hfirst, List.map_cons, List.sum_cons, handOut_notMem hj]

theorem cut_alloc (cfg : Table) (p : Pool) (j : ℕ) :
    ((p.cut cfg j).alloc j).curBw =
      if (p.alloc j).grp = 2 then ((cfg j).assureBw : ℤ) else p.clip.share := by
  unfold Pool.cut
  dsimp only
  rw [Function.update_self]
  show ((if (p.alloc j).grp = 2 then (cfg j).assureBw else p.clip.share : ℕ) : ℤ) = _
  split_ifs <;> rfl

theorem cut_rem (cfg : Table) (p : Pool) (j : ℕ) :
    (p.cut cfg j).rem = p.clip.rem - ((p.cut cfg j).alloc j).curBw := by
  rw [cut_alloc]
  show p.clip.rem - ((if (p.alloc j).grp = 2 then (cfg j).assureBw else p.clip.share : ℕ) : ℤ) = _
  split_ifs <;> rfl

theorem cut_other (hj : j ∉ l) : ∀ i ∈ l, (p.cut cfg j).alloc i = p.alloc i := fun i hi => by
  have hne : i ≠ j := fun h => hj (h ▸ hi)
  exact Function.update_of_ne hne _ _

/-- The contexts of a list outside the assured group -/
def shares (alloc : ℕ → Alloc) (l : List ℕ) : ℕ := l.countP fun i => (alloc i).grp ≠ 2

theorem shares_cons (alloc : ℕ → Alloc) (j : ℕ) (l : List ℕ) :
    shares alloc (j :: l) = shares alloc l + if (alloc j).grp ≠ 2 then 1 else 0 := by
  unfold shares
  rw [List.countP_cons]
  simp

theorem shares_cut (hj : j ∉ l) : shares (p.cut cfg j).alloc l = shares p.alloc l := by
  unfold shares
  refine List.countP_congr fun i hi => ?_
  rw [cut_other hj i hi]

theorem shares_add (alloc : ℕ → Alloc) (l : List ℕ) :
    shares alloc l + (l.map fun i => assuredOne (alloc i)).sum = l.length := by
  induction l with
  | nil => rfl
  | cons j l ih =>
    rw [shares_cons, List.map_cons, List.sum_cons, List.length_cons]
    unfold assuredOne at ih ⊢
    by_cases hgrp : (alloc j).grp = 2
    · rw [if_pos hgrp, if_neg (not_not.mpr hgrp)]
      omega
    · rw [if_neg hgrp, if_pos hgrp]
      omega

/-- No cut is negative. -/
theorem served_nonneg (hnd : l.Nodup) (hfirst : p.first = true) : 0 ≤ served cfg l p := by
  induction l generalizing p with
  | nil => exact le_rfl
  | cons j l ih =>
    obtain ⟨hj, hnd⟩ := List.nodup_cons.mp hnd
    have hrest := @ih (p.cut cfg j) hnd hfirst
    have hhead : 0 ≤ ((p.cut cfg j).alloc j).curBw := by
      rw [cut_alloc]
      split_ifs <;> exact Int.natCast_nonneg _
    rw [served_cut hfirst hj]
    omega

/-- With no assured T-CONT the cuts keep within what is left. -/
theorem cuts_le (hnd : l.Nodup) (hgrp : ∀ j ∈ l, (p.alloc j).grp ≠ 2) (hn : p.n = l.length)
    (hfirst : p.first = true) (h0 : 0 ≤ p.rem) (hword : p.rem < 2 ^ 16) :
    served cfg l p ≤ p.rem := by
  induction l generalizing p with
  | nil => exact h0
  | cons j l ih =>
    obtain ⟨hj, hnd⟩ := List.nodup_cons.mp hnd
    rw [List.length_cons] at hn
    have hclip : p.clip.rem = p.rem := max_eq_left h0
    have hshare := Pool.clip_share (p := p) (by omega) hword
    have hhead : ((p.cut cfg j).alloc j).curBw = p.rem / p.n := by
      rw [cut_alloc, if_neg (hgrp j List.mem_cons_self), hshare, hclip]
    have hrem := cut_rem cfg p j
    have hle := Int.ediv_le_self p.n h0
    have hnn := Int.ediv_nonneg h0 (by omega : 0 ≤ p.n)
    have hcount : (p.cut cfg j).n = l.length := by
      show (if (p.alloc j).grp = 2 then p.n else p.n - 1) = _
      rw [if_neg (hgrp j List.mem_cons_self)]
      omega
    rw [hclip, hhead] at hrem
    have hrest := @ih (p.cut cfg j) hnd
      (fun i hi => by rw [cut_other hj i hi]; exact hgrp i (List.mem_cons_of_mem _ hi)) hcount
      hfirst (by omega) (by omega)
    rw [served_cut hfirst hj, hhead]
    omega

/-- With a T-CONT that is not assured the cuts take all that is left. -/
theorem le_cuts (hnd : l.Nodup) (hn : p.n = shares p.alloc l) (hpos : 0 < p.n)
    (hfirst : p.first = true) (hword : p.rem < 2 ^ 16) : p.rem ≤ served cfg l p := by
  induction l generalizing p with
  | nil =>
    rw [hn] at hpos
    exact absurd hpos (lt_irrefl _)
  | cons j l ih =>
    obtain ⟨hj, hnd⟩ := List.nodup_cons.mp hnd
    rw [shares_cons] at hn
    have hclip : p.rem ≤ p.clip.rem := le_max_left _ _
    have h0 : 0 ≤ p.clip.rem := le_max_right _ _
    have hlt : p.clip.rem < 2 ^ 16 := max_lt hword (by decide)
    have hrem := cut_rem cfg p j
    have hnonneg := @served_nonneg cfg (p.cut cfg j) l hnd hfirst
    have hshares := @shares_cut cfg p l j hj
    have hcount : (p.cut cfg j).n = if (p.alloc j).grp = 2 then p.n else p.n - 1 := rfl
    have hhead := cut_alloc cfg p j
    rw [served_cut hfirst hj]
    by_cases hgrp : (p.alloc j).grp = 2
    · -- an assured T-CONT takes its band
      rw [if_pos hgrp] at hcount hhead
      rw [if_neg (not_not.mpr hgrp)] at hn
      have hrest := @ih (p.cut cfg j) hnd (by rw [hcount, hshares]; omega) (by omega) hfirst
        (by omega)
      omega
    · rw [if_neg hgrp, Pool.clip_share hpos hword] at hhead
      rw [if_neg hgrp] at hcount
      rw [if_pos hgrp] at hn
      by_cases hlast : p.n = 1
      · -- the last share is all there is
        rw [hlast, Int.ediv_one] at hhead
        omega
      · have hnn := Int.ediv_nonneg h0 hpos.le
        have hrest := @ih (p.cut cfg j) hnd (by rw [hcount, hshares]; omega) (by omega) hfirst
          (by omega)
        omega

/-- With assured T-CONTs alone the cuts are their bands. -/
theorem served_assured (hnd : l.Nodup) (hgrp : ∀ j ∈ l, (p.alloc j).grp = 2)
    (hfirst : p.first = true) : served cfg l p = assured cfg l := by
  induction l generalizing p with
  | nil => rfl
  | cons j l ih =>
    obtain ⟨hj, hnd⟩ := List.nodup_cons.mp hnd
    have hrest := @ih (p.cut cfg j) hnd
      (fun i hi => by rw [cut_other hj i hi]; exact hgrp i (List.mem_cons_of_mem _ hi)) hfirst
    rw [served_cut hfirst hj, hrest, cut_alloc, if_pos (hgrp j List.mem_cons_self)]
    unfold assured
    rw [List.map_cons, List.sum_cons]
    push_cast
    rfl

/-! ## The list -/

/-- The first overflow, as a pool with the counts of its list. -/
structure Overflowed (cfg : Table) (l : List ℕ) (p q : Pool) : Prop where
  served : served cfg l p = Dba.served cfg l q
  first : q.first = true
  grp : ∀ j ∈ l, (q.alloc j).grp = 2 ↔ Stays cfg (p.rem / l.length) p.alloc j
  n : q.n = shares q.alloc l
  rem : q.rem = p.rem + ((l.map fun i => excess (cfg i) (q.alloc i)).sum : ℕ)
  above : ∀ j ∈ l, (q.alloc j).grp = 2 → ((cfg j).assureBw : ℤ) < (q.alloc j).curBw
  within : (l.map fun i => excess (cfg i) (q.alloc i)).sum ≤ p.overAssure

theorem overflowed (h : Listed cfg p.alloc (j :: l) p.nOver p.overAssure)
    (hn : p.n = (j :: l).length) (hfirst : p.first = false) (h0 : 0 ≤ p.rem)
    (hword : p.rem < 2 ^ 16) (hover : p.rem / (l.length + 1 : ℕ) < (p.alloc j).curBw) :
    Overflowed cfg (j :: l) p (p.clip.overflow cfg (j :: l)) := by
  have hclip : p.clip = p := by
    unfold Pool.clip
    rw [max_eq_left h0]
  rw [List.length_cons] at hn
  have hshare := Pool.clip_share (p := p) (by omega) hword
  rw [hclip, hn] at hshare
  obtain ⟨hqn, hqrem, hqbw⟩ := dropBacks_keeps cfg p.share (j :: l) p
  have hled := h.dropBacks p.share (List.Subset.refl _)
  have hcount := shares_add (p.clip.overflow cfg (j :: l)).alloc (j :: l)
  have hgrp := dropBacks_grp cfg p.share (j :: l) p
  have hlt := hled.assure_lt
  have hnum : allocNum = 128 := rfl
  have hno : ¬p.first = true := by
    rw [hfirst]
    exact Bool.false_ne_true
  rw [hclip] at hcount ⊢
  constructor
  · unfold Dba.served
    have hturn : handOut cfg (j :: l) p = handOut cfg (j :: l) (p.overflow cfg (j :: l)) := by
      rw [@handOut_first (p.overflow cfg (j :: l)) cfg j l rfl]
      show (if p.clip.first = true then _ else if (p.clip.share : ℤ) < (p.clip.alloc j).curBw then
        handOut cfg l ((p.clip.overflow cfg (j :: l)).cut cfg j) else _) = _
      rw [hclip, if_neg hno, if_pos (by rw [hshare]; exact hover)]
    rw [hturn]
  · rfl
  · intro k hk
    show ((((j :: l).foldl (Pool.dropBack cfg p.share) p).alloc k).grp = 2) ↔ _
    rw [hgrp k]
    unfold Stays
    rw [List.length_cons, ← hshare]
    refine and_congr_right fun _ => ⟨fun hle => ?_, fun hle _ => ?_⟩
    · exact_mod_cast hle hk
    · exact_mod_cast hle
  · have hover := hled.overCount
    have hn' : (p.overflow cfg (j :: l)).n =
        p.n - max ((j :: l).foldl (Pool.dropBack cfg p.share) p).nOver 0 := by rw [← hqn]; rfl
    have hsum : ((j :: l).map fun i => assuredOne ((p.overflow cfg (j :: l)).alloc i)).sum =
        ((j :: l).map fun i =>
          assuredOne (((j :: l).foldl (Pool.dropBack cfg p.share) p).alloc i)).sum := rfl
    rw [hsum, List.length_cons] at hcount
    omega
  · have hover := hled.overSum
    show s32 (((j :: l).foldl (Pool.dropBack cfg p.share) p).rem +
      (((j :: l).foldl (Pool.dropBack cfg p.share) p).overAssure : ℕ)) = p.rem +
        (((j :: l).map fun i =>
          excess (cfg i) (((j :: l).foldl (Pool.dropBack cfg p.share) p).alloc i)).sum : ℕ)
    rw [hqrem, ← hover]
    unfold s32
    omega
  · exact hled.above
  · rw [h.overSum]
    refine List.sum_le_sum fun i _ => ?_
    -- no T-CONT enters the assured group
    show excess (cfg i) (((j :: l).foldl (Pool.dropBack cfg p.share) p).alloc i) ≤ _
    unfold excess
    rw [hqbw i]
    by_cases hq : (((j :: l).foldl (Pool.dropBack cfg p.share) p).alloc i).grp = 2
    · rw [if_pos hq, if_pos ((hgrp i).mp hq).1]
    · rw [if_neg hq]
      exact Nat.zero_le _

/-- Before the first overflow a T-CONT keeps its grant. -/
theorem kept_turn (h : Listed cfg p.alloc (j :: l) p.nOver p.overAssure)
    (hn : p.n = (j :: l).length) (hfirst : p.first = false) (h0 : 0 ≤ p.rem)
    (hword : p.rem < 2 ^ 16) (hfit : ¬p.rem / (l.length + 1 : ℕ) < (p.alloc j).curBw) :
    served cfg (j :: l) p = (p.alloc j).curBw + served cfg l (p.clip.keep cfg j) ∧
      (p.clip.keep cfg j).rem = p.rem - (p.alloc j).curBw ∧ 0 ≤ (p.clip.keep cfg j).rem ∧
      (p.clip.keep cfg j).n = l.length ∧ (p.clip.keep cfg j).overAssure ≤ p.overAssure := by
  have hclip : p.clip = p := by
    unfold Pool.clip
    rw [max_eq_left h0]
  rw [List.length_cons] at hn
  have hshare := Pool.clip_share (p := p) (by omega) hword
  rw [hclip, hn] at hshare
  have hno : ¬p.first = true := by
    rw [hfirst]
    exact Bool.false_ne_true
  have hturn : handOut cfg (j :: l) p = handOut cfg l (p.clip.keep cfg j) := by
    show (if p.clip.first = true then _ else if (p.clip.share : ℤ) < (p.clip.alloc j).curBw then
      _ else _) = _
    rw [hclip, if_neg hno, if_neg (by rw [hshare]; exact hfit)]
  have hkeep := (h.keep (j := j) (l := l)).overSum
  have hsum := h.overSum
  have hle := Int.ediv_le_self (l.length + 1 : ℕ) h0
  rw [List.map_cons, List.sum_cons] at hsum
  obtain ⟨hj, -⟩ := List.nodup_cons.mp h.nodup
  rw [hclip] at hturn hkeep ⊢
  refine ⟨?_, rfl, ?_, ?_, ?_⟩
  · unfold served
    rw [hturn, List.map_cons, List.sum_cons, handOut_notMem hj]
    rfl
  · show 0 ≤ p.rem - (p.alloc j).curBw
    omega
  · show p.n - 1 = _
    omega
  · change (p.keep cfg j).overAssure = (l.map fun i => excess (cfg i) (p.alloc i)).sum at hkeep
    omega

/-- A list that divides what is left keeps within it. -/
theorem served_le (h : Listed cfg p.alloc l p.nOver p.overAssure) (hn : p.n = l.length)
    (hfirst : p.first = false) (h0 : 0 ≤ p.rem) (hword : p.rem < 2 ^ 16)
    (hdiv : Divides cfg p.alloc p.rem l) : served cfg l p ≤ p.rem := by
  induction l generalizing p with
  | nil => exact h0
  | cons j l ih =>
    unfold Divides at hdiv
    by_cases hover : p.rem / (l.length + 1 : ℕ) < (p.alloc j).curBw
    · rw [if_pos hover] at hdiv
      obtain ⟨hserved, hqfirst, hgrp, hqn, hqrem, -, -⟩ := overflowed h hn hfirst h0 hword hover
      rw [hserved]
      rcases hdiv with hnone | ⟨hall, hfit⟩
      · -- all have dropped back: nothing is counted above the bands
        have hno : ∀ k ∈ j :: l, ((p.clip.overflow cfg (j :: l)).alloc k).grp ≠ 2 := fun k hk =>
          fun hgrp2 => hnone k hk ((hgrp k hk).mp hgrp2)
        have hzero : ∀ k ∈ j :: l,
            excess (cfg k) ((p.clip.overflow cfg (j :: l)).alloc k) = 0 := fun k hk =>
          if_neg (hno k hk)
        have hcount : ∀ k ∈ j :: l,
            assuredOne ((p.clip.overflow cfg (j :: l)).alloc k) = 0 := fun k hk =>
          if_neg (hno k hk)
        have hshares := shares_add (p.clip.overflow cfg (j :: l)).alloc (j :: l)
        rw [sum_map_zero hcount, Nat.add_zero] at hshares
        rw [sum_map_zero hzero, Nat.cast_zero, add_zero] at hqrem
        rw [← hqrem]
        exact cuts_le h.nodup hno (by rw [hqn, hshares]) hqfirst (by omega) (by omega)
      · rw [served_assured h.nodup (fun k hk => (hgrp k hk).mpr (hall k hk)) hqfirst]
        exact hfit
    · rw [if_neg hover] at hdiv
      obtain ⟨hserved, hrem, hleft, hcount, -⟩ := kept_turn h hn hfirst h0 hword hover
      have hpos := h.pos j List.mem_cons_self
      have hrest := @ih (p.clip.keep cfg j) h.keep hcount hfirst hleft (by omega)
        (by rw [hrem]; exact hdiv)
      omega

/-- A list that does not is handed out more. -/
theorem lt_served (h : Listed cfg p.alloc l p.nOver p.overAssure) (hn : p.n = l.length)
    (hfirst : p.first = false) (h0 : 0 ≤ p.rem) (hword : p.rem + p.overAssure < 2 ^ 16)
    (hdiv : ¬Divides cfg p.alloc p.rem l) : p.rem < served cfg l p := by
  induction l generalizing p with
  | nil => exact absurd trivial hdiv
  | cons j l ih =>
    unfold Divides at hdiv
    by_cases hover : p.rem / (l.length + 1 : ℕ) < (p.alloc j).curBw
    · rw [if_pos hover, not_or, not_and] at hdiv
      obtain ⟨hnone, hall⟩ := hdiv
      obtain ⟨hserved, hqfirst, hgrp, hqn, hqrem, habove, hwithin⟩ :=
        overflowed h hn hfirst h0 (by omega) hover
      rw [hserved]
      by_cases hevery : ∀ k ∈ j :: l, Stays cfg (p.rem / (l.length + 1 : ℕ)) p.alloc k
      · rw [served_assured h.nodup (fun k hk => (hgrp k hk).mpr (hevery k hk)) hqfirst]
        exact not_le.mp (hall hevery)
      · -- one that stays and one that does not: the shares take the excess as well
        push Not at hnone hevery
        obtain ⟨a, ha, hstays⟩ := hnone
        obtain ⟨b, hb, hdrops⟩ := hevery
        set q := p.clip.overflow cfg (j :: l) with hq
        have hagrp : (q.alloc a).grp = 2 := (hgrp a ha).mpr hstays
        have hbgrp : (q.alloc b).grp ≠ 2 := fun hb2 => hdrops ((hgrp b hb).mp hb2)
        have hexcess : 0 < ((j :: l).map fun i => excess (cfg i) (q.alloc i)).sum := by
          have hone := List.single_le_sum (fun _ _ => Nat.zero_le _) (excess (cfg a) (q.alloc a))
            (List.mem_map_of_mem (f := fun i => excess (cfg i) (q.alloc i)) ha)
          have hab := habove a ha hagrp
          unfold excess at hone ⊢
          rw [if_pos hagrp] at hone
          omega
        have hshares : 0 < shares q.alloc (j :: l) :=
          List.countP_pos_iff.mpr ⟨b, hb, decide_eq_true hbgrp⟩
        have htake := @le_cuts cfg q (j :: l) h.nodup hqn (by omega) hqfirst (by omega)
        omega
    · rw [if_neg hover] at hdiv
      obtain ⟨hserved, hrem, hleft, hcount, hless⟩ := kept_turn h hn hfirst h0 (by omega) hover
      have hpos := h.pos j List.mem_cons_self
      have hrest := @ih (p.clip.keep cfg j) h.keep hcount hfirst hleft (by omega)
        (by rw [hrem]; exact hdiv)
      omega

/-! ## A request -/

/-- Where the grants off the list fit a budget, all grants do, and where
    the demand does nothing is changed. -/
structure InBudget (total : ℤ) (all listed : Finset ℕ) (asked granted : ℕ → ℤ) : Prop where
  within : ∑ i ∈ all \ listed, granted i ≤ total → ∑ i ∈ all, granted i ≤ total
  met : ∑ i ∈ all, asked i ≤ total → ∀ i ∈ all, granted i = asked i

/-- What the T-CONTs off a list leave of a budget. -/
def rest (total : ℤ) (cfg : Table) (asked : ℕ → ℤ) (l : List ℕ) : ℤ :=
  total - ∑ i ∈ valids cfg allocNum \ l.toFinset, asked i

/-- Where something is left for the list of an overbooked map, the list
    divides it. -/
def DividesRest (total : ℤ) (cfg : Table) (asked : ℕ → ℤ) (d : Demand) : Prop :=
  total < ∑ i ∈ valids cfg allocNum, asked i → 0 < rest total cfg asked d.list →
    Divides cfg d.alloc (rest total cfg asked d.list) d.list

instance (total : ℤ) (cfg : Table) (asked : ℕ → ℤ) (d : Demand) :
    Decidable (DividesRest total cfg asked d) := inferInstanceAs (Decidable (_ → _ → _))

theorem dbaBwRequest_inBudget {b : Budget} (htotal : b.total < 2 ^ 16)
    (hasks : ∀ i < allocNum, (cfg i).valid = true →
      0 ≤ asks dual olt cfg alloc i ∧ asks dual olt cfg alloc i < 2 ^ 24)
    (hnarrow : (demandOf dual olt b.share cfg alloc).Narrow) :
    let d := demandOf dual olt b.share cfg alloc
    let f := asks dual olt cfg alloc
    let granted i := (dbaBwRequest dual olt b cfg alloc i).curBw
    (DividesRest b.total cfg f d →
      InBudget b.total (valids cfg allocNum) d.list.toFinset f granted) ∧
    (rest b.total cfg f d.list + d.overAssure < 2 ^ 16 →
      InBudget b.total (valids cfg allocNum) d.list.toFinset f granted →
        DividesRest b.total cfg f d) := by
  have hc := demandOf_counted olt b.share hasks
  have hlisted := demandOf_listed dual olt b.share cfg alloc
  -- what the contexts hold after the loop is what they ask for
  have hbw : ∀ i ∈ valids cfg allocNum,
      ((demandOf dual olt b.share cfg alloc).alloc i).curBw = asks dual olt cfg alloc i := by
    intro i hi
    obtain ⟨hlt, hv⟩ := mem_valids.mp hi
    obtain ⟨grp, hturn⟩ := (demandTo_alloc dual olt b.share cfg alloc allocNum i).1 hlt hv
    unfold demandOf
    rw [hturn]
    rfl
  have hword : ∀ i ∈ valids cfg allocNum,
      0 ≤ asks dual olt cfg alloc i ∧ asks dual olt cfg alloc i < 2 ^ 24 := fun i hi =>
    hasks i (mem_valids.mp hi).1 (mem_valids.mp hi).2
  unfold dbaBwRequest
  dsimp only
  generalize demandOf dual olt b.share cfg alloc = d at hc hlisted hnarrow hbw ⊢
  generalize asks dual olt cfg alloc = f at hc hbw hword ⊢
  have hl := hlisted hnarrow
  have hdemand := hc.demand
  have hsum := hc.overSum
  have hall := sum_words (valids_subset cfg le_rfl) (by decide) hword
  have hoff : 0 ≤ ∑ i ∈ valids cfg allocNum \ d.list.toFinset, f i :=
    Finset.sum_nonneg fun i hi => (hword i (Finset.mem_sdiff.mp hi).1).1
  have hsplit := Finset.sum_sdiff hc.listed (f := f)
  have hrem : s32 ((b.total : ℤ) - d.demand + d.overShare) = rest b.total cfg f d.list := by
    unfold s32 rest
    omega
  unfold DividesRest
  by_cases hfit : d.demand ≤ b.total
  · -- the demand fits
    simp only [if_pos hfit]
    have hle : ∑ i ∈ valids cfg allocNum, f i ≤ b.total := by omega
    refine ⟨fun _ => ⟨fun _ => ?_, fun _ i hi => hbw i hi⟩,
      fun _ _ hlt => absurd hlt hle.not_gt⟩
    rw [Finset.sum_congr rfl hbw]
    exact hle
  simp only [if_neg hfit, hrem]
  have hmet : ¬∑ i ∈ valids cfg allocNum, f i ≤ b.total := by omega
  by_cases hnone : rest b.total cfg f d.list ≤ 0
  · -- nothing is left for the list
    simp only [if_pos hnone]
    refine ⟨fun _ => ⟨fun hoff => ?_, fun hle => absurd hle hmet⟩,
      fun _ _ _ hpos => absurd hpos hnone.not_gt⟩
    have hzero : ∀ i ∈ d.list.toFinset,
        (if i ∈ d.list then { d.alloc i with curBw := 0 } else d.alloc i).curBw = 0 :=
      fun i hi => by rw [if_pos (List.mem_toFinset.mp hi)]
    rw [← Finset.sum_sdiff hc.listed, Finset.sum_eq_zero hzero, add_zero]
    exact hoff
  · simp only [if_neg hnone]
    set p : Pool := ⟨d.alloc, rest b.total cfg f d.list, d.list.length, d.nOver, d.overAssure,
      false⟩ with hp
    have hsame : ∑ i ∈ valids cfg allocNum \ d.list.toFinset,
        ((handOut cfg d.list p).alloc i).curBw =
          ∑ i ∈ valids cfg allocNum \ d.list.toFinset, f i := by
      refine Finset.sum_congr rfl fun i hi => ?_
      obtain ⟨hi, hno⟩ := Finset.mem_sdiff.mp hi
      rw [handOut_notMem fun h => hno (List.mem_toFinset.mpr h)]
      exact hbw i hi
    have hserved : ∑ i ∈ d.list.toFinset, ((handOut cfg d.list p).alloc i).curBw =
        served cfg d.list p := List.sum_toFinset _ hl.nodup
    have hgranted := Finset.sum_sdiff hc.listed
      (f := fun i => ((handOut cfg d.list p).alloc i).curBw)
    rw [hsame, hserved] at hgranted
    have hrest : p.rem = b.total - ∑ i ∈ valids cfg allocNum \ d.list.toFinset, f i := rfl
    have hpl : Listed cfg p.alloc d.list p.nOver p.overAssure := hl
    have hpos : 0 < p.rem := not_le.mp hnone
    constructor
    · intro hdiv
      refine ⟨fun _ => ?_, fun hle => absurd hle hmet⟩
      have hle := served_le hpl rfl rfl hpos.le (by omega) (hdiv (by omega) hpos)
      omega
    · intro hsmall hin _ _
      by_contra hno
      have hlt := lt_served hpl rfl rfl hpos.le hsmall hno
      have hwithin := hin.within
      rw [hsame] at hwithin
      have := hwithin (by omega)
      omega

/-- A best-effort T-CONT and two that are assured 9000, of three ONUs -/
def assuredCfg : Table := fun i =>
  if i = 0 then ⟨1, 256, 4, 0, 0, 19340⟩
  else if i < 3 then ⟨1, 256 + i, 3, 0, 9000, 19340⟩
  else noTcont

/-- The first one holds 300; the others have had a first report. -/
def assuredAlloc : ℕ → Alloc := fun i =>
  if i = 0 then { noAlloc with curBw := 300 }
  else if i < 3 then dbaRptPush noAlloc ⟨0, 0, 625⟩
  else noAlloc

end ClankerNPU.Dba
