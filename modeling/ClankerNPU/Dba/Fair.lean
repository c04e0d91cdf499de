import ClankerNPU.Dba.Cap
import ClankerNPU.Lib.FairShare
import Mathlib.Algebra.BigOperators.Group.Finset.Basic
import Mathlib.Algebra.Order.BigOperators.Group.Finset

/-! # A request is fair

    Where no T-CONT is assured more than its share, the loop over the list
    is a division into fair shares: an overbooked map is filled exactly,
    and the T-CONTs above their share are cut at one level. -/

namespace ClankerNPU.Dba

open FairShare

variable {cfg : Table} {p : Pool} {l : List ℕ} {i j n share : ℕ} {alloc : ℕ → Alloc}
  {dual olt : Bool} {c : TcontCfg} {a : Alloc}

/-! ## What is asked for -/

/-- The bands of a contract fit 15 bits, and a T-CONT without a new report
    holds a 16-bit grant. -/
structure Words (dual : Bool) (cfg : Table) (alloc : ℕ → Alloc) : Prop where
  bands : ∀ i < allocNum, (cfg i).valid = true →
    (cfg i).fixBw < 2 ^ 15 ∧ (cfg i).assureBw < 2 ^ 15 ∧ (cfg i).maxBw < 2 ^ 15
  kept : ∀ i < allocNum, (cfg i).valid = true → (alloc i).stale dual →
    0 ≤ (alloc i).curBw ∧ (alloc i).curBw < 2 ^ 16

/-- What a T-CONT asks a map for -/
def asks (dual olt : Bool) (cfg : Table) (alloc : ℕ → Alloc) (i : ℕ) : ℤ :=
  (turned dual olt (cfg i) (alloc i)).curBw

/-- A T-CONT that takes part in the shares and asks for more than its own -/
def TcontCfg.Over (c : TcontCfg) (share : ℕ) (bw : ℤ) : Prop :=
  (c.dbaType = 3 ∨ c.dbaType = 4 ∨ c.dbaType = 5) ∧ (share : ℤ) < bw

instance (c : TcontCfg) (share : ℕ) (bw : ℤ) : Decidable (c.Over share bw) :=
  inferInstanceAs (Decidable (_ ∧ _))

theorem bound_lt (h : c.fixBw < 2 ^ 15 ∧ c.assureBw < 2 ^ 15 ∧ c.maxBw < 2 ^ 15) :
    c.bound dual < 2 ^ 16 := by
  obtain ⟨hfix, hassure, hmax⟩ := h
  have hmx : max c.maxBw c.fixBw < 2 ^ 15 := max_lt hmax hfix
  have hcap : c.cap dual < 2 ^ 16 := by
    unfold TcontCfg.cap
    cases dual
    all_goals
      simp only [if_true, Bool.false_eq_true, if_false]
      split_ifs <;> omega
  unfold TcontCfg.bound
  split_ifs <;> omega

theorem dbaClamp_nonneg (dual : Bool) (c : TcontCfg) (bw : ℤ) : 0 ≤ dbaClamp dual c bw := by
  unfold dbaClamp
  dsimp only
  split_ifs <;> omega

theorem dbaFloor_nonneg {bw : ℤ} (h : 0 ≤ bw) : 0 ≤ dbaFloor dual c bw := by
  unfold dbaFloor
  split_ifs <;> omega

theorem kept_word (h : 0 ≤ a.curBw ∧ a.curBw < 2 ^ 16) : 0 ≤ a.kept ∧ a.kept < 2 ^ 16 := by
  unfold Alloc.kept
  split_ifs <;> omega

/-- A turn leaves no negative grant. -/
theorem turned_nonneg (hkept : a.stale dual → 0 ≤ a.curBw ∧ a.curBw < 2 ^ 16) :
    0 ≤ (turned dual olt c a).curBw := by
  have hadapt : 0 ≤ (dbaAllocAdapt dual olt c a).curBw := by
    by_cases hstale : a.stale dual
    · have heq : dbaAllocAdapt dual olt c a = { a with curBw := a.kept } := if_pos hstale
      rw [heq]
      exact (kept_word (hkept hstale)).1
    · unfold dbaAllocAdapt
      rw [if_neg hstale]
      exact dbaFloor_nonneg (dbaClamp_nonneg dual c _)
  unfold turned
  split_ifs
  · exact Int.natCast_nonneg _
  · exact Int.natCast_nonneg _
  · exact hadapt
  · show (0 : ℤ) ≤ 2
    decide

/-- Every T-CONT asks for a 16-bit grant. -/
theorem Words.asks (h : Words dual cfg alloc) (olt : Bool) (hi : i < allocNum)
    (hv : (cfg i).valid = true) :
    0 ≤ asks dual olt cfg alloc i ∧ asks dual olt cfg alloc i < 2 ^ 16 := by
  refine ⟨turned_nonneg (h.kept i hi hv), ?_⟩
  by_cases hst : (alloc i).stale dual ∧ (alloc i).kept > (cfg i).bound dual
  · -- a grant kept from before is a word by itself
    obtain ⟨hstale, hbig⟩ := hst
    have hword := h.kept i hi hv hstale
    have hbands := h.bands i hi hv
    have heq : dbaAllocAdapt dual olt (cfg i) (alloc i) =
        { alloc i with curBw := (alloc i).kept } := if_pos hstale
    unfold Dba.asks turned
    rw [heq]
    split_ifs
    · show ((cfg i).fixBw * 2 : ℕ) < (2 : ℤ) ^ 16
      omega
    · show ((cfg i).fixBw : ℤ) < 2 ^ 16
      omega
    · exact (kept_word hword).2
    · show (2 : ℤ) < 2 ^ 16
      decide
  · have hle := @turned_le dual olt (cfg i) (alloc i) fun _ hstale => by
      by_contra hno
      exact hst ⟨hstale, by omega⟩
    have hlt := @bound_lt dual (cfg i) (h.bands i hi hv)
    unfold Dba.asks
    omega

/-! ## What the loop counts -/

/-- The valid T-CONTs below `n` -/
def valids (cfg : Table) (n : ℕ) : Finset ℕ :=
  (Finset.range n).filter fun i => (cfg i).valid = true

/-- Those of them that ask for more than their share -/
def overs (share : ℕ) (cfg : Table) (f : ℕ → ℤ) (n : ℕ) : Finset ℕ :=
  (valids cfg n).filter fun i => (cfg i).Over share (f i)

/-- The list of the first `n`: those above their share, none in the assured
    group -/
structure Tallied (share : ℕ) (cfg : Table) (f : ℕ → ℤ) (d : Demand) (n : ℕ) : Prop where
  mem : ∀ i, i ∈ d.list ↔ i ∈ overs share cfg f n
  grp : ∀ i ∈ d.list, (d.alloc i).grp ≠ 2

theorem mem_valids : i ∈ valids cfg n ↔ i < n ∧ (cfg i).valid = true := by simp [valids]

theorem mem_overs {f : ℕ → ℤ} :
    i ∈ overs share cfg f n ↔ (i < n ∧ (cfg i).valid = true) ∧ (cfg i).Over share (f i) := by
  simp [overs, mem_valids]

theorem valids_succ (cfg : Table) (n : ℕ) :
    valids cfg (n + 1) =
      if (cfg n).valid = true then insert n (valids cfg n) else valids cfg n := by
  unfold valids
  rw [Finset.range_add_one, Finset.filter_insert]

theorem overs_succ (f : ℕ → ℤ) (hv : (cfg n).valid = true) :
    overs share cfg f (n + 1) =
      if (cfg n).Over share (f n) then insert n (overs share cfg f n) else overs share cfg f n := by
  unfold overs
  rw [valids_succ, if_pos hv, Finset.filter_insert]

theorem notMem_valids (cfg : Table) (n : ℕ) : n ∉ valids cfg n := by simp [valids]

theorem notMem_overs (share : ℕ) (cfg : Table) (f : ℕ → ℤ) (n : ℕ) : n ∉ overs share cfg f n :=
  fun h => notMem_valids cfg n (Finset.mem_filter.mp h).1

/-- Sums of words over the T-CONTs are far from a wrap. -/
theorem sum_words {f : ℕ → ℤ} {s : Finset ℕ} {w : ℤ} (hs : s ⊆ Finset.range allocNum) (hw : 0 ≤ w)
    (hf : ∀ i ∈ s, 0 ≤ f i ∧ f i < w) : 0 ≤ ∑ i ∈ s, f i ∧ ∑ i ∈ s, f i ≤ 128 * w := by
  refine ⟨Finset.sum_nonneg fun i hi => (hf i hi).1, ?_⟩
  have hle := Finset.sum_le_card_nsmul s f w fun i hi => (hf i hi).2.le
  have hcard : s.card ≤ 128 := (Finset.card_le_card hs).trans_eq (Finset.card_range allocNum)
  rw [nsmul_eq_mul] at hle
  refine hle.trans (mul_le_mul_of_nonneg_right ?_ hw)
  exact_mod_cast hcard

theorem turned_of_adapts (h : c.adapts) : turned dual olt c a = dbaAllocAdapt dual olt c a := by
  have h1 : ¬c.dbaType = 1 := by
    unfold TcontCfg.adapts at h
    omega
  unfold turned
  rw [if_neg h1, if_pos h]

/-- The turn of a T-CONT that asks for no more than its share, or takes no
    part in the shares. -/
theorem Demand.next_within (d : Demand) (hv : (cfg i).valid = true)
    (hin : ¬(cfg i).Over share (turned dual olt (cfg i) (d.alloc i)).curBw) :
    ∃ grp, d.next dual olt share cfg i =
      d.add i { turned dual olt (cfg i) (d.alloc i) with grp := grp } := by
  unfold Demand.next
  dsimp only
  rw [if_neg (not_not.mpr hv)]
  by_cases hadapt : (cfg i).adapts
  · -- adapted: type 2, or a grant within the share
    rw [turned_of_adapts hadapt] at hin ⊢
    unfold TcontCfg.adapts at hadapt
    unfold TcontCfg.Over at hin
    rw [if_neg (by omega : ¬(cfg i).dbaType = 1)]
    split_ifs with h2 h35 hlow h4 hlow
    · exact ⟨_, rfl⟩
    · exact ⟨_, rfl⟩
    · exact absurd ⟨by omega, by omega⟩ hin
    · exact ⟨_, rfl⟩
    · exact absurd ⟨by omega, by omega⟩ hin
    · omega
  · unfold turned
    rw [if_neg hadapt]
    unfold TcontCfg.adapts at hadapt
    by_cases h1 : (cfg i).dbaType = 1
    · rw [if_pos h1, if_pos h1]
      exact ⟨_, rfl⟩
    · rw [if_neg h1, if_neg h1, if_neg (by omega : ¬(cfg i).dbaType = 2),
        if_neg (by omega : ¬((cfg i).dbaType = 3 ∨ (cfg i).dbaType = 5)),
        if_neg (by omega : ¬(cfg i).dbaType = 4)]
      exact ⟨_, rfl⟩

/-- The turn of a T-CONT above its share. -/
theorem Demand.next_over (d : Demand) (hv : (cfg i).valid = true)
    (hassured : (cfg i).dbaType = 3 ∨ (cfg i).dbaType = 5 → (cfg i).assureBw ≤ share)
    (hword : (turned dual olt (cfg i) (d.alloc i)).curBw < 2 ^ 16)
    (hover : (cfg i).Over share (turned dual olt (cfg i) (d.alloc i)).curBw) :
    ∃ assure ≤ share, d.next dual olt share cfg i =
      d.enlist share assure i (turned dual olt (cfg i) (d.alloc i)) := by
  obtain ⟨htype, hlt⟩ := hover
  have h1 : ¬(cfg i).dbaType = 1 := by omega
  have h2 : ¬(cfg i).dbaType = 2 := by omega
  have hadapt : (cfg i).adapts := by
    unfold TcontCfg.adapts
    omega
  rw [turned_of_adapts hadapt] at hlt hword ⊢
  unfold Demand.next
  dsimp only
  rw [if_neg (not_not.mpr hv), if_neg h1, if_neg h2]
  by_cases h35 : (cfg i).dbaType = 3 ∨ (cfg i).dbaType = 5
  · have hle := hassured h35
    have hno : ¬(u32 (dbaAllocAdapt dual olt (cfg i) (d.alloc i)).curBw ≤ (cfg i).assureBw ∨
        (dbaAllocAdapt dual olt (cfg i) (d.alloc i)).curBw ≤ share) := by
      unfold u32
      omega
    rw [if_pos h35, if_neg hno]
    exact ⟨_, hle, rfl⟩
  · rw [if_neg h35, if_pos (by omega : (cfg i).dbaType = 4), if_neg (by omega)]
    exact ⟨0, Nat.zero_le share, rfl⟩

theorem valids_subset (cfg : Table) (hn : n ≤ allocNum) : valids cfg n ⊆ Finset.range allocNum :=
  fun _ hi => Finset.mem_range.mpr ((mem_valids.mp hi).1.trans_le hn)

theorem overs_subset (share : ℕ) (cfg : Table) (f : ℕ → ℤ) (n : ℕ) :
    overs share cfg f n ⊆ valids cfg n := Finset.filter_subset _ _

/-- A grant added to the demand. -/
theorem demand_add (d : Demand) {x y : ℤ} (hd : (d.demand : ℤ) = x) (hx : x ≤ 128 * 2 ^ 24)
    (hy : 0 ≤ y ∧ y < 2 ^ 24) : (((d.demand + u32 y) % 2 ^ 32 : ℕ) : ℤ) = y + x := by
  unfold u32
  omega

/-- The turn of a valid T-CONT adds it, or lists it besides. -/
theorem Demand.next_turned (dual olt : Bool) (share : ℕ) (d : Demand)
    (hv : (cfg i).valid = true) :
    (∃ grp, d.next dual olt share cfg i =
      d.add i { turned dual olt (cfg i) (d.alloc i) with grp := grp }) ∨
    ∃ assure, d.next dual olt share cfg i =
      d.enlist share assure i (turned dual olt (cfg i) (d.alloc i)) := by
  by_cases hover : (cfg i).Over share (turned dual olt (cfg i) (d.alloc i)).curBw
  · obtain ⟨htype, hlt⟩ := hover
    have hadapt : (cfg i).adapts := by
      unfold TcontCfg.adapts
      omega
    rw [turned_of_adapts hadapt] at hlt ⊢
    unfold Demand.next
    dsimp only
    rw [if_neg (not_not.mpr hv), if_neg (by omega : ¬(cfg i).dbaType = 1),
      if_neg (by omega : ¬(cfg i).dbaType = 2)]
    by_cases h35 : (cfg i).dbaType = 3 ∨ (cfg i).dbaType = 5
    · rw [if_pos h35]
      split_ifs
      · exact .inl ⟨_, rfl⟩
      · exact .inr ⟨_, rfl⟩
    · rw [if_neg h35, if_pos (by omega : (cfg i).dbaType = 4), if_neg (by omega)]
      exact .inr ⟨_, rfl⟩
  · exact .inl (d.next_within hv hover)

/-- The demand, the list and the sum over the list, after the first `n` -/
structure Counted (cfg : Table) (f : ℕ → ℤ) (d : Demand) (n : ℕ) : Prop where
  demand : (d.demand : ℤ) = ∑ i ∈ valids cfg n, f i
  overSum : (d.overShare : ℤ) = ∑ i ∈ d.list.toFinset, f i
  listed : d.list.toFinset ⊆ valids cfg n

theorem Counted.next {d : Demand} (share : ℕ) (h : Counted cfg (asks dual olt cfg alloc) d n)
    (hasks : ∀ i < allocNum, (cfg i).valid = true →
      0 ≤ asks dual olt cfg alloc i ∧ asks dual olt cfg alloc i < 2 ^ 24)
    (hn : n < allocNum) (hsame : d.alloc n = alloc n) :
    Counted cfg (asks dual olt cfg alloc) (d.next dual olt share cfg n) (n + 1) := by
  by_cases hv : (cfg n).valid = true
  · have hword := hasks n hn hv
    have hall : ∀ i ∈ valids cfg n,
        0 ≤ asks dual olt cfg alloc i ∧ asks dual olt cfg alloc i < 2 ^ 24 := fun i hi => by
      obtain ⟨hin, hiv⟩ := mem_valids.mp hi
      exact hasks i (by omega) hiv
    have hsum := (sum_words (valids_subset cfg hn.le) (by decide) hall).2
    have hfew := (sum_words (h.listed.trans (valids_subset cfg hn.le)) (by decide)
      fun i hi => hall i (h.listed hi)).2
    have hturn : (turned dual olt (cfg n) (d.alloc n)).curBw = asks dual olt cfg alloc n := by
      rw [hsame]
      rfl
    have hvalids : valids cfg (n + 1) = insert n (valids cfg n) := by
      rw [valids_succ, if_pos hv]
    have hdemand : (((d.demand + u32 (asks dual olt cfg alloc n)) % 2 ^ 32 : ℕ) : ℤ) =
        ∑ i ∈ valids cfg (n + 1), asks dual olt cfg alloc i := by
      rw [hvalids, Finset.sum_insert (notMem_valids cfg n)]
      exact demand_add d h.demand hsum hword
    rcases d.next_turned dual olt share hv with ⟨grp, hnext⟩ | ⟨assure, hnext⟩
    · rw [hnext]
      refine ⟨?_, h.overSum, h.listed.trans ?_⟩
      · rw [← hdemand, ← hturn]
        rfl
      · rw [hvalids]
        exact Finset.subset_insert n _
    · -- the list and its sum grow by the T-CONT
      have hperm := listIn_perm (fun j => (Function.update d.alloc n
        (turned dual olt (cfg n) (d.alloc n)) j).curBw) d.list n
      have hlist : (d.next dual olt share cfg n).list.toFinset = insert n d.list.toFinset := by
        rw [hnext, Demand.enlist_list, List.toFinset_eq_of_perm _ _ hperm, List.toFinset_cons]
      have hnot : n ∉ d.list.toFinset := fun hmem => notMem_valids cfg n (h.listed hmem)
      refine ⟨?_, ?_, ?_⟩
      · rw [← hdemand, ← hturn, hnext]
        unfold Demand.enlist
        dsimp only
        split_ifs <;> rfl
      · rw [hlist, Finset.sum_insert hnot,
          ← demand_add { d with demand := d.overShare } h.overSum hfew hword, ← hturn, hnext]
        unfold Demand.enlist
        dsimp only
        split_ifs <;> rfl
      · rw [hlist, hvalids]
        exact Finset.insert_subset_insert n h.listed
  · rw [Demand.next_of_invalid dual olt share cfg d hv]
    have hvalids : valids cfg (n + 1) = valids cfg n := by rw [valids_succ, if_neg hv]
    exact ⟨by rw [hvalids]; exact h.demand, h.overSum, by rw [hvalids]; exact h.listed⟩

/-- What the whole loop has counted. -/
theorem demandOf_counted (olt : Bool) (share : ℕ) (hasks : ∀ i < allocNum, (cfg i).valid = true →
      0 ≤ asks dual olt cfg alloc i ∧ asks dual olt cfg alloc i < 2 ^ 24) :
    Counted cfg (asks dual olt cfg alloc) (demandOf dual olt share cfg alloc) allocNum := by
  have hrun : ∀ n ≤ allocNum,
      Counted cfg (asks dual olt cfg alloc) (demandTo dual olt share cfg alloc n) n := by
    intro n
    induction n with
    | zero =>
      intro _
      exact ⟨rfl, rfl, Finset.empty_subset _⟩
    | succ n ih =>
      intro hn
      rw [demandTo_succ]
      exact (ih (by omega)).next share hasks hn
        ((demandTo_alloc dual olt share cfg alloc n n).2 fun h => absurd h.1 (lt_irrefl n))
  exact hrun allocNum le_rfl

/-- The list after one more T-CONT. -/
theorem Tallied.next {d : Demand} (h : Tallied share cfg (asks dual olt cfg alloc) d n)
    (hw : Words dual cfg alloc) (hn : n < allocNum) (hsame : d.alloc n = alloc n)
    (hassured : (cfg n).valid = true → (cfg n).dbaType = 3 ∨ (cfg n).dbaType = 5 →
      (cfg n).assureBw ≤ share) :
    Tallied share cfg (asks dual olt cfg alloc) (d.next dual olt share cfg n) (n + 1) := by
  by_cases hv : (cfg n).valid = true
  · have hword := hw.asks olt hn hv
    have hlt : ∀ i ∈ d.list, i < n := fun i hi => (mem_overs.mp ((h.mem i).mp hi)).1.1
    have hturn : (turned dual olt (cfg n) (d.alloc n)).curBw = asks dual olt cfg alloc n := by
      rw [hsame]
      rfl
    by_cases hover : (cfg n).Over share (asks dual olt cfg alloc n)
    · -- above its share: it goes in the list
      rw [← hturn] at hover
      obtain ⟨assure, hle, hnext⟩ :=
        d.next_over hv (hassured hv) (by rw [hturn]; exact hword.2) hover
      have hperm := listIn_perm (fun j => (Function.update d.alloc n
        (turned dual olt (cfg n) (d.alloc n)) j).curBw) d.list n
      rw [← Demand.enlist_list d share assure n, ← hnext] at hperm
      rw [hturn] at hover
      constructor
      · intro i
        rw [overs_succ _ hv, if_pos hover, Finset.mem_insert, ← h.mem i]
        exact hperm.mem_iff.trans List.mem_cons
      · intro i hi
        rw [hnext]
        rcases List.mem_cons.mp (hperm.mem_iff.mp hi) with rfl | hi
        · rw [Demand.enlist_alloc_self, if_pos hle]
          show (1 : ℕ) ≠ 2
          decide
        · rw [Demand.enlist_alloc_of_ne _ _ _ _ (hlt i hi).ne]
          exact h.grp i hi
    · rw [← hturn] at hover
      obtain ⟨grp, hnext⟩ := d.next_within hv hover
      rw [hturn] at hover
      rw [hnext]
      constructor
      · intro i
        rw [overs_succ _ hv, if_neg hover]
        exact h.mem i
      · intro i hi
        rw [Demand.add_alloc_of_ne _ _ (hlt i hi).ne]
        exact h.grp i hi
  · -- a T-CONT that is not valid is passed over
    have hovers : overs share cfg (asks dual olt cfg alloc) (n + 1) =
        overs share cfg (asks dual olt cfg alloc) n := by
      unfold overs
      rw [valids_succ, if_neg hv]
    rw [Demand.next_of_invalid dual olt share cfg d hv]
    exact ⟨by rw [hovers]; exact h.mem, h.grp⟩

/-- The whole list -/
theorem demandOf_tallied (olt : Bool) (hw : Words dual cfg alloc)
    (hassured : ∀ i < allocNum, (cfg i).valid = true →
      (cfg i).dbaType = 3 ∨ (cfg i).dbaType = 5 → (cfg i).assureBw ≤ share) :
    Tallied share cfg (asks dual olt cfg alloc) (demandOf dual olt share cfg alloc) allocNum := by
  have hrun : ∀ n ≤ allocNum,
      Tallied share cfg (asks dual olt cfg alloc) (demandTo dual olt share cfg alloc n) n := by
    intro n
    induction n with
    | zero =>
      intro _
      exact ⟨fun i => by simp [mem_overs, demandTo], fun i hi => absurd hi List.not_mem_nil⟩
    | succ n ih =>
      intro hn
      rw [demandTo_succ]
      exact (ih (by omega)).next hw hn
        ((demandTo_alloc dual olt share cfg alloc n n).2 fun h => absurd h.1 (lt_irrefl n))
        (hassured n hn)
  exact hrun allocNum le_rfl

/-! ## The list is divided into fair shares -/

theorem dropBacks_none (cfg : Table) (share : ℕ) (hgrp : ∀ j ∈ l, (p.alloc j).grp ≠ 2) :
    l.foldl (Pool.dropBack cfg share) p = p := by
  induction l with
  | nil => rfl
  | cons j l ih =>
    have hstay : p.dropBack cfg share j = p := if_pos (.inl (hgrp j List.mem_cons_self))
    rw [List.foldl_cons, hstay]
    exact ih fun k hk => hgrp k (List.mem_cons_of_mem _ hk)

/-- A cut of a T-CONT that is not assured is a share. -/
theorem cut_best (hgrp : (p.alloc j).grp ≠ 2) : p.cut cfg j = { p with
    n := p.n - 1
    alloc := Function.update p.alloc j { p.alloc j with curBw := p.clip.share }
    rem := p.clip.rem - p.clip.share } := by
  have hno : ¬(p.clip.alloc j).grp = 2 := hgrp
  unfold Pool.cut
  simp only [if_neg hno]
  rfl

/-- The list is served its fair shares, and no other context changes. -/
def SharesOut (cfg : Table) (l : List ℕ) (p : Pool) (rem : ℕ) : Prop :=
  (l.map fun i => ((handOut cfg l p).alloc i).curBw) =
      (fairShares rem (l.map fun i => (p.alloc i).curBw.toNat)).map (fun g : ℕ => (g : ℤ)) ∧
    ∀ i ∉ l, (handOut cfg l p).alloc i = p.alloc i

/-- A turn that leaves the rest of the list alone serves the head. -/
theorem SharesOut.cons {rem : ℕ} (p' : Pool) (g : ℕ) (h : SharesOut cfg l p' (rem - g)) (hj : j ∉ l)
    (hturn : handOut cfg (j :: l) p = handOut cfg l p') (hhead : (p'.alloc j).curBw = g)
    (hsame : ∀ i, i ≠ j → p'.alloc i = p.alloc i)
    (hg : g = min (p.alloc j).curBw.toNat (rem / (l.length + 1))) :
    SharesOut cfg (j :: l) p rem := by
  obtain ⟨hshares, hother⟩ := h
  have hrest : l.map (fun i => (p'.alloc i).curBw.toNat) =
      l.map fun i => (p.alloc i).curBw.toNat :=
    List.map_congr_left fun i hi => by rw [hsame i fun h => hj (h ▸ hi)]
  rw [hrest] at hshares
  constructor
  · rw [hturn, List.map_cons, List.map_cons, hshares, hother j hj, hhead, fairShares_cons,
      List.length_map, ← hg, List.map_cons]
  · intro i hi
    rw [List.mem_cons, not_or] at hi
    rw [hturn, hother i hi.2, hsame i hi.1]

/-- The quotient of a turn, as the shares have it. -/
theorem share_eq {rem : ℕ} (hn : p.n = (l.length + 1 : ℕ)) (hrem : p.rem = rem)
    (hword : rem < 2 ^ 16) : p.clip.share = rem / (l.length + 1) := by
  have hclip : p.clip.rem = rem := by
    show max p.rem 0 = rem
    omega
  have hshare := Pool.clip_share (p := p) (by omega) (by omega)
  rw [hclip, hn] at hshare
  exact_mod_cast hshare

/-- After the first overflow the cuts are fair shares. -/
theorem handOut_cuts {rem c : ℕ} (hnd : l.Nodup) (hgrp : ∀ j ∈ l, (p.alloc j).grp ≠ 2)
    (hn : p.n = l.length) (hfirst : p.first = true) (hrem : p.rem = rem) (hword : rem < 2 ^ 16)
    (hle : rem ≤ l.length * c) (hbw : ∀ j ∈ l, (c : ℤ) ≤ (p.alloc j).curBw) :
    SharesOut cfg l p rem := by
  induction l generalizing p rem with
  | nil => exact ⟨rfl, fun _ _ => rfl⟩
  | cons j l ih =>
    obtain ⟨hj, hnd⟩ := List.nodup_cons.mp hnd
    rw [List.length_cons] at hn hle
    have hshare := share_eq hn hrem hword
    have hcut := @cut_best cfg p j (hgrp j List.mem_cons_self)
    have hclip : p.clip.rem = rem := by
      show max p.rem 0 = rem
      omega
    rw [hshare, hclip] at hcut
    have hother : ∀ i, i ≠ j → (p.cut cfg j).alloc i = p.alloc i := fun i hi => by
      rw [hcut]
      exact Function.update_of_ne hi _ _
    have hsame : ∀ i ∈ l, (p.cut cfg j).alloc i = p.alloc i := fun i hi =>
      hother i fun h => hj (h ▸ hi)
    -- the share is within the smallest grant, and what is left within the others
    have hsmall : rem / (l.length + 1) ≤ c := Nat.div_le_of_le_mul hle
    have hdiv := Nat.div_le_self rem (l.length + 1)
    have hhead := hbw j List.mem_cons_self
    have hrest : rem - rem / (l.length + 1) ≤ l.length * c := by
      have hint := share_rest (r := rem) (n := (l.length + 1 : ℕ)) (c := c) (by omega)
        (by exact_mod_cast hle)
      push_cast at hint
      zify [hdiv]
      linarith
    refine SharesOut.cons (p.cut cfg j) (rem / (l.length + 1)) (ih hnd ?_ ?_ ?_ ?_ ?_ ?_ ?_) hj
      (handOut_first cfg j l hfirst) ?_ hother ?_
    · intro i hi
      rw [hsame i hi]
      exact hgrp i (List.mem_cons_of_mem _ hi)
    · rw [hcut]
      show p.n - 1 = _
      omega
    · rw [hcut]
      exact hfirst
    · rw [hcut]
      show (rem : ℤ) - (rem / (l.length + 1) : ℕ) = (rem - rem / (l.length + 1) : ℕ)
      omega
    · omega
    · exact hrest
    · intro i hi
      rw [hsame i hi]
      exact hbw i (List.mem_cons_of_mem _ hi)
    · rw [hcut]
      show (Function.update p.alloc j _ j).curBw = _
      rw [Function.update_self]
    · omega

/-- A list without assured T-CONTs is served fair shares. -/
theorem handOut_shared {rem : ℕ} (h : Listed cfg p.alloc l p.nOver p.overAssure)
    (hgrp : ∀ j ∈ l, (p.alloc j).grp ≠ 2) (hn : p.n = l.length) (hfirst : p.first = false)
    (hrem : p.rem = rem) (hword : rem < 2 ^ 16) : SharesOut cfg l p rem := by
  induction l generalizing p rem with
  | nil => exact ⟨rfl, fun _ _ => rfl⟩
  | cons j l ih =>
    have hno : ¬p.clip.first = true := by
      rw [show p.clip.first = false from hfirst]
      exact Bool.false_ne_true
    rw [List.length_cons] at hn
    have hshare := share_eq hn hrem hword
    have hclip : p.clip.rem = rem := by
      show max p.rem 0 = rem
      omega
    have hpos := h.pos j List.mem_cons_self
    obtain ⟨hj, hnd⟩ := List.nodup_cons.mp h.nodup
    by_cases hover : p.clip.share < (p.alloc j).curBw
    · -- the first overflow drops nothing back, and all that is left is cut
      have hnone : (j :: l).foldl (Pool.dropBack cfg p.clip.share) p.clip = p.clip :=
        dropBacks_none cfg _ hgrp
      have halloc : (p.clip.overflow cfg (j :: l)).alloc = p.alloc := by
        unfold Pool.overflow
        dsimp only
        rw [hnone]
        rfl
      obtain ⟨hcount, hleft⟩ := @Listed.overflow_counts cfg p.clip (j :: l) h (by omega)
        (by omega) (by rw [halloc]; exact hgrp)
      have hcuts : SharesOut cfg (j :: l) (p.clip.overflow cfg (j :: l)) rem := by
        refine handOut_cuts (c := (p.alloc j).curBw.toNat) h.nodup (by rw [halloc]; exact hgrp) ?_
          rfl (hleft.trans hclip) hword ?_ ?_
        · rw [hcount]
          exact hn
        · rw [hshare] at hover
          have hlt : rem / (l.length + 1) < (p.alloc j).curBw.toNat := by omega
          rw [List.length_cons, mul_comm]
          exact (Nat.lt_mul_of_div_lt hlt (Nat.succ_pos _)).le
        · intro k hk
          rw [halloc]
          rcases List.mem_cons.mp hk with rfl | hk
          · omega
          · have := (List.pairwise_cons.mp h.rises).1 k hk
            omega
      have hcut : handOut cfg (j :: l) p =
          handOut cfg (j :: l) (p.clip.overflow cfg (j :: l)) := by
        rw [@handOut_first (p.clip.overflow cfg (j :: l)) cfg j l rfl]
        exact (if_neg hno).trans (if_pos hover)
      unfold SharesOut at hcuts ⊢
      rw [hcut, ← halloc]
      exact hcuts
    · -- no overflow yet: the T-CONT keeps its grant
      rw [hshare] at hover
      have hdiv := Nat.div_le_self rem (l.length + 1)
      refine SharesOut.cons (p.clip.keep cfg j) (p.alloc j).curBw.toNat
        (ih (p := p.clip.keep cfg j) h.keep ?_ ?_ hfirst ?_ (by omega)) hj
        ((if_neg hno).trans (if_neg (by rw [hshare]; exact hover))) ?_ (fun _ _ => rfl) (by omega)
      · exact fun i hi => hgrp i (List.mem_cons_of_mem _ hi)
      · show p.n - 1 = _
        omega
      · show p.clip.rem - (p.alloc j).curBw = _
        omega
      · show (p.alloc j).curBw = _
        omega

/-! ## A request -/

/-- A 16-bit budget is divided fairly. -/
theorem dbaBwRequest_fair {b : Budget} (htotal : b.total < 2 ^ 16) (hw : Words dual cfg alloc)
    (hassured : ∀ i < allocNum, (cfg i).valid = true → (cfg i).dbaType = 3 ∨ (cfg i).dbaType = 5 →
      (cfg i).assureBw ≤ b.share) :
    Fair b.total (valids cfg allocNum) (overs b.share cfg (asks dual olt cfg alloc) allocNum)
      (asks dual olt cfg alloc) fun i => (dbaBwRequest dual olt b cfg alloc i).curBw := by
  have hc := demandOf_counted olt b.share fun i hi hv => by
    have hlt := hw.asks olt hi hv
    exact ⟨hlt.1, hlt.2.trans (by decide)⟩
  have ht := demandOf_tallied olt hw hassured
  have hlisted := demandOf_listed dual olt b.share cfg alloc
  -- what the contexts hold after the loop is what they ask for
  have hbw : ∀ i ∈ valids cfg allocNum,
      ((demandOf dual olt b.share cfg alloc).alloc i).curBw = asks dual olt cfg alloc i := by
    intro i hi
    obtain ⟨hlt, hv⟩ := mem_valids.mp hi
    obtain ⟨grp, hturn⟩ := (demandTo_alloc dual olt b.share cfg alloc allocNum i).1 hlt hv
    unfold demandOf
    rw [hturn]
    rfl
  have hword : ∀ i ∈ valids cfg allocNum,
      0 ≤ asks dual olt cfg alloc i ∧ asks dual olt cfg alloc i < 2 ^ 16 := fun i hi =>
    hw.asks olt (mem_valids.mp hi).1 (mem_valids.mp hi).2
  have hover := overs_subset b.share cfg (asks dual olt cfg alloc) allocNum
  have hnn : ∀ i ∈ valids cfg allocNum, 0 ≤ asks dual olt cfg alloc i := fun i hi => (hword i hi).1
  have hsplit := (Finset.sum_sdiff hover (f := asks dual olt cfg alloc)).symm
  have hall := sum_words (valids_subset cfg le_rfl) (by decide) hword
  have hfew := sum_words (hover.trans (valids_subset cfg le_rfl)) (by decide) fun i hi =>
    hword i (hover hi)
  unfold dbaBwRequest
  dsimp only
  generalize demandOf dual olt b.share cfg alloc = d at hc ht hlisted hbw ⊢
  have hdemand := hc.demand
  have hset : d.list.toFinset = overs b.share cfg (asks dual olt cfg alloc) allocNum := by
    ext i
    rw [List.mem_toFinset, ht.mem i]
  have hsum := hc.overSum
  rw [hset] at hsum
  by_cases hfit : d.demand ≤ b.total
  · rw [if_pos hfit]
    exact Fair.met hnn (by omega) hbw
  · rw [if_neg hfit]
    have hrem : s32 ((b.total : ℤ) - d.demand + d.overShare) =
        b.total - ∑ i ∈ valids cfg allocNum \ overs b.share cfg (asks dual olt cfg alloc) allocNum,
          asks dual olt cfg alloc i := by
      unfold s32
      omega
    have hbase : 0 ≤ ∑ i ∈ valids cfg allocNum \
        overs b.share cfg (asks dual olt cfg alloc) allocNum, asks dual olt cfg alloc i :=
      Finset.sum_nonneg fun i hi => hnn i (Finset.mem_sdiff.mp hi).1
    rw [hrem]
    by_cases hnone : b.total - ∑ i ∈ valids cfg allocNum \
        overs b.share cfg (asks dual olt cfg alloc) allocNum, asks dual olt cfg alloc i ≤ 0
    · -- nothing is left for the list
      rw [if_pos hnone]
      refine Fair.denied hnn hover (by omega) (fun i hi => ?_) fun i hi => ?_
      · simp only [if_pos ((ht.mem i).mpr hi)]
      · obtain ⟨hin, hno⟩ := Finset.mem_sdiff.mp hi
        simp only [if_neg fun h => hno ((ht.mem i).mp h)]
        exact hbw i hin
    · -- the list is served what is left
      rw [if_neg hnone]
      have hin : ∀ i ∈ d.list, i ∈ valids cfg allocNum := fun i hi => hover ((ht.mem i).mp hi)
      have hl := hlisted fun i hi => by
        rw [hbw i (hin i hi)]
        exact (hword i (hin i hi)).2
      obtain ⟨rem, hnat⟩ := Int.eq_ofNat_of_zero_le (not_le.mp hnone).le
      rw [hnat]
      obtain ⟨hshares, hother⟩ := @handOut_shared cfg
        ⟨d.alloc, rem, d.list.length, d.nOver, d.overAssure, false⟩ d.list rem hl ht.grp rfl rfl rfl
        (by omega)
      refine Fair.shared rem hnn hover hl.nodup ht.mem ?_ (by omega) (by omega) ?_ ?_
      · refine hl.rises.imp_of_mem fun {i j} hi hj hle => ?_
        rwa [hbw i (hin i hi), hbw j (hin j hj)] at hle
      · rw [hshares, List.map_congr_left fun i hi => congrArg Int.toNat (hbw i (hin i hi))]
      · intro i hi
        obtain ⟨hi, hno⟩ := Finset.mem_sdiff.mp hi
        rw [hother i fun h => hno ((ht.mem i).mp h)]
        exact hbw i hi

theorem dbaBudgetCalc_lt (dual : Bool) (m : DbaMap) (cfg : Table) (ovh actOnus : ℕ) :
    (dbaBudgetCalc dual m cfg ovh actOnus).total < 2 ^ 16 := by
  have hword (x : ℤ) : u16 x < 2 ^ 16 := by
    unfold u16
    omega
  show (if dual then u16 _ else u16 _) < _
  split_ifs <;> exact hword _

/-- Where no T-CONT is assured more than its share, a request divides the
    budget of the map fairly between the valid T-CONTs. -/
theorem request_fair (dual olt : Bool) (m : DbaMap) (ovh actOnus : ℕ) (hw : Words dual cfg alloc)
    (hassured : ∀ i < allocNum, (cfg i).valid = true → (cfg i).dbaType = 3 ∨ (cfg i).dbaType = 5 →
      (cfg i).assureBw ≤ (dbaBudgetCalc dual m cfg ovh actOnus).share) :
    let b := dbaBudgetCalc dual m cfg ovh actOnus
    Fair b.total (valids cfg allocNum) (overs b.share cfg (asks dual olt cfg alloc) allocNum)
      (asks dual olt cfg alloc) fun i => (dbaBwRequest dual olt b cfg alloc i).curBw :=
  dbaBwRequest_fair (dbaBudgetCalc_lt dual m cfg ovh actOnus) hw hassured

/-- Three best-effort T-CONTs without new reports, of three ONUs. -/
def threeCfg : Table := fun i => if i < 3 then ⟨1, 256 + i, 4, 0, 0, 19340⟩ else ⟨0, 0, 0, 0, 0, 0⟩

/-- They hold 300, 12000 and 15000. -/
def threeAlloc : ℕ → Alloc := fun i =>
  { noAlloc with curBw := if i = 0 then 300 else if i = 1 then 12000 else 15000 }

/-- The two above their share divide what the first leaves of 19202. -/
theorem request_fair_three :
    let b := dbaBudgetCalc false (dbaMap 0) threeCfg 46 3
    let granted i := (dbaBwRequest false false b threeCfg threeAlloc i).curBw
    (b.total, granted 0, granted 1, granted 2) = (19202, 300, 9451, 9451) ∧
      Fair b.total (valids threeCfg allocNum)
        (overs b.share threeCfg (asks false false threeCfg threeAlloc) allocNum)
        (asks false false threeCfg threeAlloc) granted := by
  have hbands : ∀ i < allocNum, (threeCfg i).fixBw < 2 ^ 15 ∧ (threeCfg i).assureBw < 2 ^ 15 ∧
      (threeCfg i).maxBw < 2 ^ 15 := by decide +kernel
  have hkept : ∀ i < allocNum, 0 ≤ (threeAlloc i).curBw ∧ (threeAlloc i).curBw < 2 ^ 16 := by
    decide +kernel
  have hassured : ∀ i < allocNum, (threeCfg i).assureBw = 0 := by decide +kernel
  exact ⟨by decide +kernel, request_fair false false (dbaMap 0) 46 3
    ⟨fun i hi _ => hbands i hi, fun i hi _ _ => hkept i hi⟩
    fun i hi _ _ => by rw [hassured i hi]; exact Nat.zero_le _⟩

/-- With a T-CONT assured more than its share the map is overbooked: what
    that one asks for above its assured band is handed out once more. -/
theorem request_overbooked :
    let cfg : Table := fun i => if i = 0 then ⟨1, 256, 3, 0, 10000, 19340⟩
      else if i = 1 then ⟨1, 257, 4, 0, 0, 19340⟩ else ⟨0, 0, 0, 0, 0, 0⟩
    let alloc : ℕ → Alloc := fun _ => { noAlloc with curBw := 15000 }
    let b := dbaBudgetCalc false (dbaMap 0) cfg 46 2
    let granted i := (dbaBwRequest false false b cfg alloc i).curBw
    (b.total, b.share, granted 0, granted 1) = (19248, 4624, 10000, 14248) := by
  decide +kernel

end ClankerNPU.Dba
