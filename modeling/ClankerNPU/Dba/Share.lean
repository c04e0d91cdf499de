import ClankerNPU.Dba.Request
import Mathlib.Algebra.BigOperators.Group.List.Basic
import Mathlib.Algebra.Order.BigOperators.Group.List
import Mathlib.Data.List.Perm.Basic
import Mathlib.Tactic.Linarith

/-! # The list is served fairly

    The list of a request is in the order of the grants, with its assured
    T-CONTs counted. Where it fits 16 bits and its first overflow finds
    one group alone, no T-CONT is served more than it asked for. -/

namespace ClankerNPU.Dba

variable {cfg : Table} {p : Pool} {l : List ℕ} {i j n : ℕ} {alloc alloc' : ℕ → Alloc}

/-! ## The list -/

/-- An index sinks to its place in a falling list. -/
theorem sink_falls (bw : ℕ → ℤ) (last : ℕ) {is : List ℕ} (hpos : 0 ≤ bw last)
    (hlt : bw last < 2 ^ 16) (h : is.Pairwise fun a b => bw b ≤ bw a) :
    (sink bw last is).Pairwise fun a b => bw b ≤ bw a := by
  have hkey : (u16 (bw last) : ℤ) = bw last := by
    unfold u16
    omega
  induction is with
  | nil => exact List.pairwise_singleton _ _
  | cons i is ih =>
    obtain ⟨hhead, htail⟩ := List.pairwise_cons.mp h
    unfold sink
    split_ifs with hle
    · rw [hkey] at hle
      refine List.pairwise_cons.mpr ⟨fun x hx => ?_, h⟩
      rcases List.mem_cons.mp hx with rfl | hx
      · exact hle
      · exact (hhead x hx).trans hle
    · rw [hkey] at hle
      refine List.pairwise_cons.mpr ⟨fun x hx => ?_, ih htail⟩
      rcases List.mem_cons.mp ((sink_perm bw last is).mem_iff.mp hx) with rfl | hx
      · omega
      · exact hhead x hx

theorem listIn_rises (bw : ℕ → ℤ) (list : List ℕ) (idx : ℕ) (hpos : 0 ≤ bw idx)
    (hlt : bw idx < 2 ^ 16) (h : list.Pairwise fun a b => bw a ≤ bw b) :
    (listIn bw list idx).Pairwise fun a b => bw a ≤ bw b :=
  List.pairwise_reverse.mpr (sink_falls bw idx hpos hlt (List.pairwise_reverse.mpr h))

/-- A context in the assured group -/
def assuredOne (a : Alloc) : ℕ := if a.grp = 2 then 1 else 0

/-- What a context of the assured group has above what it is assured -/
def excess (c : TcontCfg) (a : Alloc) : ℕ := if a.grp = 2 then (a.curBw - c.assureBw).toNat else 0

/-- A list in the order of its grants, with the counts of its assured
    group. -/
structure Listed (cfg : Table) (alloc : ℕ → Alloc) (l : List ℕ) (nOver : ℤ) (overAssure : ℕ) :
    Prop where
  nodup : l.Nodup
  rises : l.Pairwise fun i j => (alloc i).curBw ≤ (alloc j).curBw
  length : l.length ≤ allocNum
  pos : ∀ i ∈ l, 0 < (alloc i).curBw
  word : ∀ i ∈ l, (alloc i).curBw < 2 ^ 16
  above : ∀ i ∈ l, (alloc i).grp = 2 → ((cfg i).assureBw : ℤ) < (alloc i).curBw
  overCount : nOver = ((l.map fun i => assuredOne (alloc i)).sum : ℕ)
  overSum : overAssure = (l.map fun i => excess (cfg i) (alloc i)).sum

theorem Listed.congr {nOver : ℤ} {overAssure : ℕ} (h : Listed cfg alloc l nOver overAssure)
    (hsame : ∀ i ∈ l, alloc' i = alloc i) : Listed cfg alloc' l nOver overAssure where
  nodup := h.nodup
  rises := h.rises.imp_of_mem fun hi hj hle => by rwa [hsame _ hi, hsame _ hj]
  length := h.length
  pos i hi := by rw [hsame i hi]; exact h.pos i hi
  word i hi := by rw [hsame i hi]; exact h.word i hi
  above i hi hg := by rw [hsame i hi] at hg ⊢; exact h.above i hi hg
  overCount := by
    rw [h.overCount, List.map_congr_left fun i hi => by rw [← hsame i hi]]
  overSum := by
    rw [h.overSum, List.map_congr_left fun i hi => by rw [← hsame i hi]]

/-- The excess of a list is far from a wrap. -/
theorem Listed.assure_lt {nOver : ℤ} {overAssure : ℕ} (h : Listed cfg alloc l nOver overAssure) :
    overAssure ≤ allocNum * 2 ^ 16 := by
  have hle : ∀ x ∈ l.map fun i => excess (cfg i) (alloc i), x ≤ 2 ^ 16 := by
    intro x hx
    obtain ⟨i, hi, rfl⟩ := List.mem_map.mp hx
    have hword := h.word i hi
    unfold excess
    split_ifs <;> omega
  have hsum := List.sum_le_card_nsmul _ _ hle
  rw [h.overSum]
  refine hsum.trans ?_
  rw [List.length_map]
  exact Nat.mul_le_mul_right _ h.length

/-- A T-CONT that enters the list. -/
theorem Listed.enter {nOver : ℤ} {overAssure : ℕ} (h : Listed cfg alloc l nOver overAssure)
    (hnot : n ∉ l) (hlen : l.length < allocNum) {a : Alloc} (hsame : ∀ i ∈ l, alloc' i = alloc i)
    (hn : alloc' n = a) (hpos : 0 < a.curBw) (hword : a.curBw < 2 ^ 16)
    (habove : a.grp = 2 → ((cfg n).assureBw : ℤ) < a.curBw) :
    Listed cfg alloc' (listIn (fun i => (alloc' i).curBw) l n) (nOver + assuredOne a)
      (overAssure + excess (cfg n) a) := by
  have hold := h.congr hsame
  have hperm := listIn_perm (fun i => (alloc' i).curBw) l n
  -- the list is the old one and the new T-CONT, in some order
  have hmem {P : ℕ → Prop} (hP : P n) (hl : ∀ i ∈ l, P i) (i : ℕ)
      (hi : i ∈ listIn (fun i => (alloc' i).curBw) l n) : P i := by
    rcases List.mem_cons.mp (hperm.mem_iff.mp hi) with rfl | hi
    · exact hP
    · exact hl i hi
  constructor
  · exact hperm.nodup_iff.mpr (List.nodup_cons.mpr ⟨hnot, h.nodup⟩)
  · refine listIn_rises _ l n ?_ ?_ hold.rises
    · rw [hn]
      exact hpos.le
    · rw [hn]
      exact hword
  · rw [hperm.length_eq, List.length_cons]
    omega
  · exact hmem (by rw [hn]; exact hpos) hold.pos
  · exact hmem (by rw [hn]; exact hword) hold.word
  · exact hmem (by rw [hn]; exact habove) hold.above
  · rw [(hperm.map _).sum_eq, List.map_cons, List.sum_cons, hn, hold.overCount]
    push_cast
    exact add_comm _ _
  · rw [(hperm.map _).sum_eq, List.map_cons, List.sum_cons, hn, hold.overSum]
    exact add_comm _ _

/-! ## The loop of a request -/

/-- Every grant in the list fits 16 bits. -/
def Demand.Narrow (d : Demand) : Prop := ∀ i ∈ d.list, (d.alloc i).curBw < 2 ^ 16

/-- What the loop of a request has listed among the first `n` -/
structure DemandInv (cfg : Table) (d : Demand) (n : ℕ) : Prop where
  lt : ∀ i ∈ d.list, i < n
  length : d.list.length ≤ n
  listed : d.Narrow → Listed cfg d.alloc d.list d.nOver d.overAssure

theorem DemandInv.add {d : Demand} (h : DemandInv cfg d n) (a : Alloc) :
    DemandInv cfg (d.add n a) (n + 1) := by
  have hsame : ∀ i ∈ d.list, (d.add n a).alloc i = d.alloc i := fun i hi =>
    Demand.add_alloc_of_ne d a (h.lt i hi).ne
  refine ⟨fun i hi => (h.lt i hi).trans (Nat.lt_succ_self n), h.length.trans (Nat.le_succ n),
    fun hnarrow => ?_⟩
  have hold : d.Narrow := fun i hi => by
    rw [← hsame i hi]
    exact hnarrow i hi
  exact (h.listed hold).congr hsame

theorem DemandInv.enlist {d : Demand} {share assure : ℕ} {a : Alloc} (h : DemandInv cfg d n)
    (hn : n < allocNum) (hshare : (share : ℤ) < a.curBw)
    (hassure : ¬assure ≤ share → (cfg n).assureBw = assure ∧ (assure : ℤ) < a.curBw) :
    DemandInv cfg (d.enlist share assure n a) (n + 1) := by
  have hnot : n ∉ d.list := fun hi => (h.lt n hi).ne rfl
  have hself := Demand.enlist_alloc_self d share assure n a
  have hsame : ∀ i ∈ d.list, (d.enlist share assure n a).alloc i = d.alloc i := fun i hi =>
    Demand.enlist_alloc_of_ne d share assure a (h.lt i hi).ne
  -- the list is sorted by grants, which the group does not touch
  have hbw : (fun j => (Function.update d.alloc n a j).curBw) =
      fun j => ((d.enlist share assure n a).alloc j).curBw := by
    funext j
    by_cases hj : j = n
    · rw [hj, hself, Function.update_self]
    · rw [Demand.enlist_alloc_of_ne d share assure a hj, Function.update_of_ne hj]
  have hlist : (d.enlist share assure n a).list =
      listIn (fun j => ((d.enlist share assure n a).alloc j).curBw) d.list n := by
    rw [← hbw]
    exact Demand.enlist_list d share assure n a
  have hperm := listIn_perm (fun j => ((d.enlist share assure n a).alloc j).curBw) d.list n
  rw [← hlist] at hperm
  refine ⟨fun i hi => ?_, ?_, fun hnarrow => ?_⟩
  · rcases List.mem_cons.mp (hperm.mem_iff.mp hi) with rfl | hi
    · exact Nat.lt_succ_self i
    · exact (h.lt i hi).trans (Nat.lt_succ_self n)
  · rw [hperm.length_eq, List.length_cons]
    have := h.length
    omega
  · -- the new grant sinks to its place; the counts grow by what it adds to them
    have hold : d.Narrow := fun i hi => by
      rw [← hsame i hi]
      exact hnarrow i (hperm.mem_iff.mpr (List.mem_cons_of_mem _ hi))
    have hword : a.curBw < 2 ^ 16 := by
      have := hnarrow n (hperm.mem_iff.mpr List.mem_cons_self)
      rw [hself] at this
      exact this
    have hl := h.listed hold
    have hlt := hl.assure_lt
    have hnum : allocNum = 128 := rfl
    have hlen := h.length
    have hover : (d.enlist share assure n a).nOver = d.nOver +
        assuredOne { a with grp := if assure ≤ share then 1 else 2 } := by
      rw [Demand.enlist_nOver]
      unfold assuredOne
      by_cases hle : assure ≤ share
      · simp only [if_pos hle]
        exact (add_zero _).symm
      · simp only [if_neg hle]
        rfl
    have hexcess : (d.enlist share assure n a).overAssure = d.overAssure +
        excess (cfg n) { a with grp := if assure ≤ share then 1 else 2 } := by
      rw [Demand.enlist_overAssure]
      unfold excess u32
      by_cases hle : assure ≤ share
      · simp only [if_pos hle]
        rfl
      · obtain ⟨hcfg, hab⟩ := hassure hle
        simp only [if_neg hle]
        show (d.overAssure + ((a.curBw - assure) % 2 ^ 32).toNat) % 2 ^ 32 =
          d.overAssure + (a.curBw - (cfg n).assureBw).toNat
        rw [hcfg]
        omega
    rw [hlist, hover, hexcess]
    refine hl.enter hnot (by omega) hsame hself (by show 0 < a.curBw; omega) hword fun hgrp => ?_
    by_cases hle : assure ≤ share
    · rw [if_pos hle] at hgrp
      cases hgrp
    · obtain ⟨hcfg, hab⟩ := hassure hle
      rw [hcfg]
      exact hab

theorem DemandInv.next {d : Demand} (dual olt : Bool) (share : ℕ) (h : DemandInv cfg d n)
    (hn : n < allocNum) : DemandInv cfg (d.next dual olt share cfg n) (n + 1) := by
  unfold Demand.next
  dsimp only
  by_cases hv : (cfg n).valid = true
  · rw [if_neg (not_not.mpr hv)]
    by_cases h1 : (cfg n).dbaType = 1
    · rw [if_pos h1]
      exact h.add _
    rw [if_neg h1]
    split_ifs with h2 h35 hlow h4 hlow
    · exact h.add _
    · exact h.add _
    · -- types 3 and 5, above both the share and what is assured
      rw [not_or] at hlow
      refine h.enlist hn (by omega) fun _ => ⟨rfl, ?_⟩
      have hassure := hlow.1
      unfold u32 at hassure
      omega
    · exact h.add _
    · exact h.enlist hn (by omega) fun hno => absurd (Nat.zero_le share) hno
    · exact h.add _
  · rw [if_pos hv]
    exact ⟨fun i hi => (h.lt i hi).trans (Nat.lt_succ_self n), h.length.trans (Nat.le_succ n),
      h.listed⟩

/-- The list of a request is in the order of its grants. -/
theorem demandOf_listed (dual olt : Bool) (share : ℕ) (cfg : Table) (alloc : ℕ → Alloc)
    (hnarrow : (demandOf dual olt share cfg alloc).Narrow) :
    Listed cfg (demandOf dual olt share cfg alloc).alloc (demandOf dual olt share cfg alloc).list
      (demandOf dual olt share cfg alloc).nOver
      (demandOf dual olt share cfg alloc).overAssure := by
  have hinv : ∀ n ≤ allocNum, DemandInv cfg (demandTo dual olt share cfg alloc n) n := by
    intro n
    induction n with
    | zero =>
      intro _
      refine ⟨fun _ hi => absurd hi List.not_mem_nil, le_rfl, fun _ => ?_⟩
      constructor
      · exact List.nodup_nil
      · exact List.Pairwise.nil
      · exact Nat.zero_le _
      · exact fun _ hi => absurd hi List.not_mem_nil
      · exact fun _ hi => absurd hi List.not_mem_nil
      · exact fun _ hi => absurd hi List.not_mem_nil
      · rfl
      · rfl
    | succ n ih =>
      intro hn
      rw [demandTo_succ]
      exact (ih (by omega)).next dual olt share hn
  exact (hinv allocNum le_rfl).listed hnarrow

/-! ## Turns -/

/-- A sum over a list with one place changed. -/
theorem sum_map_change {f g : ℕ → ℕ} (hnd : l.Nodup) (hj : j ∈ l) (h : ∀ i, i ≠ j → g i = f i) :
    (l.map g).sum + f j = (l.map f).sum + g j := by
  have hperm := List.perm_cons_erase hj
  have hrest : (l.erase j).map g = (l.erase j).map f :=
    List.map_congr_left fun i hi => h i (hnd.mem_erase_iff.mp hi).1
  rw [(hperm.map g).sum_eq, (hperm.map f).sum_eq, List.map_cons, List.map_cons, List.sum_cons,
    List.sum_cons, hrest]
  omega

theorem sum_map_zero {f : ℕ → ℕ} (h : ∀ i ∈ l, f i = 0) : (l.map f).sum = 0 := by
  rw [List.map_congr_left h]
  exact List.sum_eq_zero fun x hx => by
    obtain ⟨_, _, rfl⟩ := List.mem_map.mp hx
    rfl

theorem dropBack_bw (cfg : Table) (share : ℕ) (p : Pool) (j i : ℕ) :
    ((p.dropBack cfg share j).alloc i).curBw = (p.alloc i).curBw := by
  unfold Pool.dropBack
  dsimp only
  split_ifs
  · rfl
  · by_cases hi : i = j
    · rw [hi]
      show (Function.update p.alloc j _ j).curBw = _
      rw [Function.update_self]
    · show (Function.update p.alloc j _ i).curBw = _
      rw [Function.update_of_ne hi]

/-- What drops back leaves the counts right. -/
theorem Listed.dropBack (h : Listed cfg p.alloc l p.nOver p.overAssure) (share : ℕ) (hj : j ∈ l) :
    Listed cfg (p.dropBack cfg share j).alloc l (p.dropBack cfg share j).nOver
      (p.dropBack cfg share j).overAssure := by
  by_cases hstay : (p.alloc j).grp ≠ 2 ∨ share ≤ (cfg j).assureBw
  · have hsame : p.dropBack cfg share j = p := if_pos hstay
    rw [hsame]
    exact h
  · have hgrp : (p.alloc j).grp = 2 := by
      by_contra hno
      exact hstay (.inl hno)
    have hdrop : p.dropBack cfg share j = { p with
        nOver := p.nOver - 1
        overAssure := u32 ((p.overAssure : ℤ) - u16 ((p.alloc j).curBw - (cfg j).assureBw))
        alloc := Function.update p.alloc j { p.alloc j with grp := 1 } } := if_neg hstay
    have hself : (p.dropBack cfg share j).alloc j = { p.alloc j with grp := 1 } := by
      rw [hdrop]
      exact Function.update_self _ _ _
    have hother : ∀ i, i ≠ j → (p.dropBack cfg share j).alloc i = p.alloc i := fun i hi => by
      rw [hdrop]
      exact Function.update_of_ne hi _ _
    have hbw := dropBack_bw cfg share p j
    -- one assured T-CONT and its excess leave the counts
    have hcount := sum_map_change (g := fun i => assuredOne ((p.dropBack cfg share j).alloc i))
      (f := fun i => assuredOne (p.alloc i)) h.nodup hj fun i hi => by rw [hother i hi]
    have hsum := sum_map_change (g := fun i => excess (cfg i) ((p.dropBack cfg share j).alloc i))
      (f := fun i => excess (cfg i) (p.alloc i)) h.nodup hj fun i hi => by rw [hother i hi]
    rw [hself] at hcount hsum
    have hone : assuredOne (p.alloc j) = 1 := if_pos hgrp
    have hexcess : excess (cfg j) (p.alloc j) =
        ((p.alloc j).curBw - (cfg j).assureBw).toNat := if_pos hgrp
    have hnone : assuredOne { p.alloc j with grp := 1 } = 0 := rfl
    have hzero : excess (cfg j) { p.alloc j with grp := 1 } = 0 := rfl
    have habove := h.above j hj hgrp
    have hword := h.word j hj
    have hlt := h.assure_lt
    have hnum : allocNum = 128 := rfl
    constructor
    · exact h.nodup
    · exact h.rises.imp fun hle => by rwa [hbw, hbw]
    · exact h.length
    · exact fun i hi => by rw [hbw]; exact h.pos i hi
    · exact fun i hi => by rw [hbw]; exact h.word i hi
    · intro i hi hg
      by_cases hij : i = j
      · rw [hij, hself] at hg
        cases hg
      · rw [hother i hij] at hg ⊢
        exact h.above i hi hg
    · have hover := h.overCount
      rw [show (p.dropBack cfg share j).nOver = p.nOver - 1 by rw [hdrop]]
      omega
    · have hassure := h.overSum
      rw [show (p.dropBack cfg share j).overAssure =
        u32 ((p.overAssure : ℤ) - u16 ((p.alloc j).curBw - (cfg j).assureBw)) by rw [hdrop]]
      unfold u32 u16
      omega

theorem dropBacks_keeps (cfg : Table) (share : ℕ) (l' : List ℕ) (p : Pool) :
    (l'.foldl (Pool.dropBack cfg share) p).n = p.n ∧
      (l'.foldl (Pool.dropBack cfg share) p).rem = p.rem ∧
      ∀ i, ((l'.foldl (Pool.dropBack cfg share) p).alloc i).curBw = (p.alloc i).curBw := by
  induction l' generalizing p with
  | nil => exact ⟨rfl, rfl, fun _ => rfl⟩
  | cons j l' ih =>
    obtain ⟨hn, hrem, hbw⟩ := ih (p.dropBack cfg share j)
    have hone : (p.dropBack cfg share j).n = p.n ∧ (p.dropBack cfg share j).rem = p.rem := by
      unfold Pool.dropBack
      dsimp only
      split_ifs <;> exact ⟨rfl, rfl⟩
    exact ⟨hn.trans hone.1, hrem.trans hone.2, fun i =>
      (hbw i).trans (dropBack_bw cfg share p j i)⟩

theorem Listed.dropBacks (h : Listed cfg p.alloc l p.nOver p.overAssure) (share : ℕ)
    {l' : List ℕ} (hsub : l' ⊆ l) :
    Listed cfg (l'.foldl (Pool.dropBack cfg share) p).alloc l
      (l'.foldl (Pool.dropBack cfg share) p).nOver
      (l'.foldl (Pool.dropBack cfg share) p).overAssure := by
  induction l' generalizing p with
  | nil => exact h
  | cons j l' ih =>
    exact ih (h.dropBack share (hsub List.mem_cons_self))
      fun i hi => hsub (List.mem_cons_of_mem _ hi)

theorem Pool.clip_clip (p : Pool) : p.clip.clip = p.clip := by
  unfold Pool.clip
  dsimp only
  rw [max_eq_left (le_max_right _ _)]

/-- With some left to share between, the share fits its 16 bits. -/
theorem Pool.clip_share (hpos : 0 < p.n) (hword : p.rem < 2 ^ 16) :
    (p.clip.share : ℤ) = p.clip.rem / p.n := by
  have h0 : 0 ≤ p.clip.rem := le_max_right _ _
  have hlt : p.clip.rem < 2 ^ 16 := max_lt hword (by decide)
  have hq0 := Int.ediv_nonneg h0 hpos.le
  have hqle := Int.ediv_le_self p.n h0
  show (u16 (if 0 < p.n then p.clip.rem / p.n else p.clip.rem) : ℤ) = _
  rw [if_pos hpos]
  unfold u16
  omega

/-- After the first overflow every turn is a cut. -/
theorem handOut_first (cfg : Table) (j : ℕ) (l : List ℕ) (h : p.first = true) :
    handOut cfg (j :: l) p = handOut cfg l (p.cut cfg j) := by
  have hcut : p.clip.cut cfg j = p.cut cfg j := by
    unfold Pool.cut
    rw [Pool.clip_clip]
  rw [← hcut]
  exact if_pos h

/-- What a share leaves is no more than the bound for the others. -/
theorem share_rest {r n c : ℤ} (hn : 1 ≤ n) (h : r ≤ n * c) : r - r / n ≤ (n - 1) * c := by
  have hdiv := Int.mul_ediv_add_emod r n
  have hlt := Int.emod_lt_of_pos r (by omega : 0 < n)
  have hle : r / n ≤ c := Int.ediv_le_of_le_mul (by omega) (by rw [mul_comm]; exact h)
  -- a quotient below the bound has room for its remainder
  rcases hle.lt_or_eq with hq | hq
  · have hmul : (n - 1) * (r / n + 1) ≤ (n - 1) * c :=
      mul_le_mul_of_nonneg_left (by omega) (by omega)
    linarith [mul_add (n - 1) (r / n) 1, sub_mul n 1 (r / n)]
  · rw [hq] at hdiv ⊢
    have hsub := sub_mul n 1 c
    omega

/-- With no assured T-CONT left, the cuts are shares, and no share is
    above the smallest grant. -/
theorem handOut_shares {c : ℤ} (hnd : l.Nodup) (hgrp : ∀ j ∈ l, (p.alloc j).grp ≠ 2)
    (hn : p.n = l.length) (hfirst : p.first = true) (hc : 0 ≤ c) (hrem : p.rem ≤ p.n * c)
    (hword : p.rem < 2 ^ 16) (hbw : ∀ j ∈ l, c ≤ (p.alloc j).curBw) (i : ℕ) :
    ((handOut cfg l p).alloc i).curBw ≤ (p.alloc i).curBw := by
  -- the rest stays within the number left times the smallest grant
  induction l generalizing p with
  | nil => exact le_rfl
  | cons j l ih =>
    rw [List.length_cons] at hn
    push_cast at hn
    obtain ⟨hj, hnd⟩ := List.nodup_cons.mp hnd
    have hpos : 0 < p.n := by omega
    have hclip : p.clip.rem ≤ p.n * c := max_le hrem (mul_nonneg hpos.le hc)
    have h0 : 0 ≤ p.clip.rem := le_max_right _ _
    have hlt : p.clip.rem < 2 ^ 16 := max_lt hword (by decide)
    have hquot := Pool.clip_share hpos hword
    have hshare : (p.clip.share : ℤ) ≤ c := by
      rw [hquot]
      exact Int.ediv_le_of_le_mul hpos (by rw [mul_comm]; exact hclip)
    have hcut : p.cut cfg j = { p with
        n := p.n - 1
        alloc := Function.update p.alloc j { p.alloc j with curBw := p.clip.share }
        rem := p.clip.rem - p.clip.share } := by
      have hno : ¬(p.clip.alloc j).grp = 2 := hgrp j List.mem_cons_self
      unfold Pool.cut
      simp only [if_neg hno]
      rfl
    have hsame : ∀ k ∈ l, (p.cut cfg j).alloc k = p.alloc k := fun k hk => by
      have hne : k ≠ j := fun h => hj (h ▸ hk)
      rw [hcut]
      exact Function.update_of_ne hne _ _
    -- after the cut the rest and the number are one T-CONT down
    rw [handOut_first cfg j l hfirst]
    refine (ih (p := p.cut cfg j) hnd ?_ ?_ ?_ ?_ ?_ ?_).trans ?_
    · intro k hk
      rw [hsame k hk]
      exact hgrp k (List.mem_cons_of_mem _ hk)
    · rw [hcut]
      show p.n - 1 = _
      omega
    · rw [hcut]
      exact hfirst
    · rw [hcut]
      show p.clip.rem - p.clip.share ≤ (p.n - 1) * c
      rw [hquot]
      exact share_rest hpos hclip
    · rw [hcut]
      show p.clip.rem - p.clip.share < 2 ^ 16
      omega
    · intro k hk
      rw [hsame k hk]
      exact hbw k (List.mem_cons_of_mem _ hk)
    · rw [hcut]
      show (Function.update p.alloc j _ i).curBw ≤ _
      by_cases hi : i = j
      · rw [hi, Function.update_self]
        exact hshare.trans (hbw j List.mem_cons_self)
      · rw [Function.update_of_ne hi]

/-- With assured T-CONTs alone left, each is cut to what it is assured. -/
theorem handOut_assured (hnd : l.Nodup) (hgrp : ∀ j ∈ l, (p.alloc j).grp = 2)
    (hfirst : p.first = true) (habove : ∀ j ∈ l, ((cfg j).assureBw : ℤ) < (p.alloc j).curBw)
    (i : ℕ) : ((handOut cfg l p).alloc i).curBw ≤ (p.alloc i).curBw := by
  induction l generalizing p with
  | nil => exact le_rfl
  | cons j l ih =>
    obtain ⟨hj, hnd⟩ := List.nodup_cons.mp hnd
    -- a cut of an assured T-CONT reads no share
    have hself : ((p.cut cfg j).alloc j).curBw = (cfg j).assureBw := by
      have hyes : (p.clip.alloc j).grp = 2 := hgrp j List.mem_cons_self
      unfold Pool.cut
      simp only [if_pos hyes]
      show (Function.update p.clip.alloc j _ j).curBw = _
      rw [Function.update_self]
    have hother : ∀ k, k ≠ j → (p.cut cfg j).alloc k = p.alloc k := fun k hk =>
      Function.update_of_ne hk _ _
    have hsame : ∀ k ∈ l, (p.cut cfg j).alloc k = p.alloc k := fun k hk =>
      hother k fun h => hj (h ▸ hk)
    rw [handOut_first cfg j l hfirst]
    refine (ih (p := p.cut cfg j) hnd ?_ hfirst ?_).trans ?_
    · intro k hk
      rw [hsame k hk]
      exact hgrp k (List.mem_cons_of_mem _ hk)
    · intro k hk
      rw [hsame k hk]
      exact habove k (List.mem_cons_of_mem _ hk)
    · by_cases hi : i = j
      · rw [hi, hself]
        exact (habove j List.mem_cons_self).le
      · rw [hother i hi]

/-- The first overflow of a list, if there is one, leaves one group. -/
def OneGroup (cfg : Table) : List ℕ → Pool → Prop
  | [], _ => True
  | i :: is, p =>
    if p.clip.share < (p.alloc i).curBw then
      (∀ j ∈ i :: is, ((p.clip.overflow cfg (i :: is)).alloc j).grp ≠ 2) ∨
        ∀ j ∈ i :: is, ((p.clip.overflow cfg (i :: is)).alloc j).grp = 2
    else OneGroup cfg is (p.clip.keep cfg i)

/-- A turn before the first overflow leaves the rest of the list. -/
theorem Listed.keep (h : Listed cfg p.alloc (j :: l) p.nOver p.overAssure) :
    Listed cfg (p.clip.keep cfg j).alloc l (p.clip.keep cfg j).nOver
      (p.clip.keep cfg j).overAssure := by
  have hlt := h.assure_lt
  have hnum : allocNum = 128 := rfl
  have hlength := h.length
  rw [List.length_cons] at hlength
  constructor
  · exact (List.nodup_cons.mp h.nodup).2
  · exact (List.pairwise_cons.mp h.rises).2
  · omega
  · exact fun i hi => h.pos i (List.mem_cons_of_mem _ hi)
  · exact fun i hi => h.word i (List.mem_cons_of_mem _ hi)
  · exact fun i hi => h.above i (List.mem_cons_of_mem _ hi)
  · -- the turn takes the T-CONT and its excess out of the counts
    have hover := h.overCount
    rw [List.map_cons, List.sum_cons] at hover
    show (if (p.alloc j).grp = 2 then p.nOver - 1 else p.nOver) =
      ((l.map fun i => assuredOne (p.alloc i)).sum : ℕ)
    unfold assuredOne at hover ⊢
    split_ifs at hover ⊢ <;> omega
  · have hassure := h.overSum
    rw [List.map_cons, List.sum_cons] at hassure
    show (if (p.alloc j).grp = 2 then
      u32 ((p.overAssure : ℤ) - u16 ((p.alloc j).curBw - (cfg j).assureBw)) else p.overAssure) =
        (l.map fun i => excess (cfg i) (p.alloc i)).sum
    have hword := h.word j List.mem_cons_self
    have habove := h.above j List.mem_cons_self
    have hexcess : excess (cfg j) (p.alloc j) =
      if (p.alloc j).grp = 2 then ((p.alloc j).curBw - (cfg j).assureBw).toNat else 0 := rfl
    rw [hexcess] at hassure
    split_ifs at hassure ⊢ with hgrp
    · have hcur := habove hgrp
      unfold u32 u16
      omega
    · omega

/-- Where the first overflow leaves no assured T-CONT, it leaves the
    number and the rest as they are. -/
theorem Listed.overflow_counts (h : Listed cfg p.alloc l p.nOver p.overAssure) (h0 : 0 ≤ p.rem)
    (hlt : p.rem < 2 ^ 16) (hshare : ∀ k ∈ l, ((p.overflow cfg l).alloc k).grp ≠ 2) :
    (p.overflow cfg l).n = p.n ∧ (p.overflow cfg l).rem = p.rem := by
  obtain ⟨hn, hrem, -⟩ := dropBacks_keeps cfg p.share l p
  have hled := h.dropBacks p.share (List.Subset.refl l)
  -- all have dropped back, so both counts are 0
  have hnone : ∀ k ∈ l,
      assuredOne ((l.foldl (Pool.dropBack cfg p.share) p).alloc k) = 0 := fun k hk =>
    if_neg (hshare k hk)
  have hzero : ∀ k ∈ l,
      excess (cfg k) ((l.foldl (Pool.dropBack cfg p.share) p).alloc k) = 0 := fun k hk =>
    if_neg (hshare k hk)
  have hover := hled.overCount
  have hassure := hled.overSum
  rw [sum_map_zero hnone] at hover
  rw [sum_map_zero hzero] at hassure
  constructor
  · show (l.foldl (Pool.dropBack cfg p.share) p).n -
      max (l.foldl (Pool.dropBack cfg p.share) p).nOver 0 = p.n
    rw [hover, hn]
    exact sub_zero _
  · show s32 ((l.foldl (Pool.dropBack cfg p.share) p).rem +
      ((l.foldl (Pool.dropBack cfg p.share) p).overAssure : ℕ)) = p.rem
    rw [hassure, hrem]
    unfold s32
    omega

/-- No T-CONT of the list is served more than its grant. -/
theorem handOut_le (h : Listed cfg p.alloc l p.nOver p.overAssure) (hn : p.n = l.length)
    (hfirst : p.first = false) (hword : p.rem < 2 ^ 16) (hone : OneGroup cfg l p) (i : ℕ) :
    ((handOut cfg l p).alloc i).curBw ≤ (p.alloc i).curBw := by
  -- T-CONTs are kept up to the first overflow; from there all are cut
  induction l generalizing p with
  | nil => exact le_rfl
  | cons j l ih =>
    have hno : ¬p.clip.first = true := by
      rw [show p.clip.first = false from hfirst]
      exact Bool.false_ne_true
    rw [List.length_cons] at hn
    push_cast at hn
    by_cases hover : p.clip.share < (p.alloc j).curBw
    · -- the first overflow: the whole rest of the list is cut
      have hcut : handOut cfg (j :: l) p =
          handOut cfg (j :: l) (p.clip.overflow cfg (j :: l)) := by
        have hfirst := @handOut_first (p.clip.overflow cfg (j :: l)) cfg j l rfl
        rw [hfirst]
        exact (if_neg hno).trans (if_pos hover)
      obtain ⟨-, -, hqbw⟩ := dropBacks_keeps cfg p.clip.share (j :: l) p.clip
      have hled := @Listed.dropBacks cfg p.clip (j :: l) h p.clip.share (j :: l)
        (List.Subset.refl _)
      have hbw (k : ℕ) : ((p.clip.overflow cfg (j :: l)).alloc k).curBw = (p.alloc k).curBw :=
        hqbw k
      have h0 : 0 ≤ p.clip.rem := le_max_right _ _
      have hlt : p.clip.rem < 2 ^ 16 := max_lt hword (by decide)
      unfold OneGroup at hone
      rw [if_pos hover] at hone
      rw [hcut, ← hbw i]
      rcases hone with hshare | hassured
      · obtain ⟨hcount, hrem⟩ := @Listed.overflow_counts cfg p.clip (j :: l) h h0 hlt hshare
        change _ = p.n at hcount
        have hpos : 0 < p.n := by omega
        -- the share was below this grant, the smallest of those left
        have hsmall : p.clip.rem ≤ p.n * (p.alloc j).curBw := by
          rw [Pool.clip_share hpos hword] at hover
          rw [mul_comm]
          exact (Int.lt_mul_of_ediv_lt hpos hover).le
        refine handOut_shares h.nodup hshare ?_ rfl (h.pos j List.mem_cons_self).le ?_ ?_ ?_ i
        · rw [hcount, hn, List.length_cons]
          push_cast
          rfl
        · rw [hrem, hcount]
          exact hsmall
        · rw [hrem]
          exact hlt
        · intro k hk
          rw [hbw]
          rcases List.mem_cons.mp hk with rfl | hk
          · exact le_rfl
          · exact (List.pairwise_cons.mp h.rises).1 k hk
      · exact handOut_assured h.nodup hassured rfl
          (fun k hk => hled.above k hk (hassured k hk)) i
    · -- no overflow yet: the T-CONT keeps its grant
      have hkeep : handOut cfg (j :: l) p = handOut cfg l (p.clip.keep cfg j) :=
        (if_neg hno).trans (if_neg hover)
      unfold OneGroup at hone
      rw [if_neg hover] at hone
      rw [hkeep]
      refine ih (p := p.clip.keep cfg j) h.keep ?_ hfirst ?_ hone
      · show p.n - 1 = _
        omega
      · show p.clip.rem - (p.alloc j).curBw < 2 ^ 16
        have hclip : p.clip.rem < 2 ^ 16 := max_lt hword (by decide)
        have := h.pos j List.mem_cons_self
        omega

/-! ## A request -/

/-- Where a request has to divide what is left, its grants and the rest
    fit 16 bits, and the first overflow leaves one group. -/
def Divisible (dual olt : Bool) (b : Budget) (cfg : Table) (alloc : ℕ → Alloc) : Prop :=
  let d := demandOf dual olt b.share cfg alloc
  let rem := s32 ((b.total : ℤ) - d.demand + d.overShare)
  b.total < d.demand → 0 < rem → d.Narrow ∧ rem < 2 ^ 16 ∧
    OneGroup cfg d.list ⟨d.alloc, rem, d.list.length, d.nOver, d.overAssure, false⟩

/-- A request grants what a T-CONT asks for, less, or nothing. -/
theorem dbaBwRequest_le {dual olt : Bool} {b : Budget} (h : Divisible dual olt b cfg alloc)
    (i : ℕ) :
    (dbaBwRequest dual olt b cfg alloc i).curBw ≤
        ((demandOf dual olt b.share cfg alloc).alloc i).curBw ∨
      (dbaBwRequest dual olt b cfg alloc i).curBw = 0 := by
  have hlisted := demandOf_listed dual olt b.share cfg alloc
  unfold Divisible at h
  unfold dbaBwRequest
  dsimp only at h ⊢
  generalize demandOf dual olt b.share cfg alloc = d at h hlisted ⊢
  by_cases hfit : d.demand ≤ b.total
  · rw [if_pos hfit]
    exact .inl le_rfl
  · rw [if_neg hfit]
    by_cases hrem : s32 ((b.total : ℤ) - d.demand + d.overShare) ≤ 0
    · rw [if_pos hrem]
      -- nothing left for the list: its T-CONTs get 0
      by_cases hi : i ∈ d.list
      · right
        rw [if_pos hi]
      · left
        rw [if_neg hi]
    · obtain ⟨hnarrow, hword, hone⟩ := h (by omega) (by omega)
      rw [if_neg hrem]
      exact .inl (handOut_le (p := ⟨d.alloc, _, d.list.length, d.nOver, d.overAssure, false⟩)
        (hlisted hnarrow) rfl rfl hword hone i)

end ClankerNPU.Dba
