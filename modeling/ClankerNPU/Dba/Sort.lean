import ClankerNPU.Dba.NewDba
import Mathlib.Data.List.Induction

/-! # The insertion steps

    The lists of the DBA are built one index at a time, and after each
    the new index is sunk below the larger grants. What is compared with
    the grants in the list is the low 16 bits of the new one. -/

namespace ClankerNPU.Dba

/-! ## The steps -/

/-- The loop of an insertion step, over the `n` entries from `start` on;
    the entry after them is `last`. -/
def sinkLoop (val : ℕ → ℤ) (key : ℤ) (last start : ℕ) : ℕ → (ℕ → ℕ) → ℕ → ℕ
  | 0, list => list
  | n + 1, list =>
    let i := start + n
    if val (list i) ≤ key then list
    else sinkLoop val key last start n
      (Function.update (Function.update list (i + 1) (list i)) i last)

/-- `dba_sort_bw` -/
def dbaSortBw (bw : ℕ → ℤ) (list : ℕ → ℕ) (n start : ℕ) : ℕ → ℕ :=
  if n ≤ 1 then list
  else
    let last := list (start + n - 1)
    sinkLoop bw (u16 (bw last)) last start (n - 1) list

/-- `dba_sort_u32` -/
def dbaSortU32 (val : ℕ → ℕ) (list : ℕ → ℕ) (n start : ℕ) : ℕ → ℕ :=
  if n ≤ 1 then list
  else
    let last := list (start + n - 1)
    sinkLoop (fun i => val i) (u16 (val last)) last start (n - 1) list

/-- A list of a frame and the number of its entries -/
structure IdxList where
  entry : ℕ → ℕ
  cnt : ℕ

def IdxList.toList (p : IdxList) : List ℕ := (List.range p.cnt).map p.entry

/-- `npu_memset(list, 0, sizeof(list))` -/
def IdxList.zero : IdxList := ⟨fun _ => 0, 0⟩

/-- An index goes to the end, and the entries from `start` on are sorted:
    `dba_bw_request` has `start` 0 and counts the index before the step,
    the FEC pass has `start` 1 and counts it after. -/
def IdxList.appendBw (bw : ℕ → ℤ) (start : ℕ) (p : IdxList) (idx : ℕ) : IdxList :=
  ⟨dbaSortBw bw (Function.update p.entry p.cnt idx) (p.cnt + 1 - start) start, p.cnt + 1⟩

/-- The same with `dba_sort_u32`. -/
def IdxList.appendU32 (val : ℕ → ℕ) (start : ℕ) (p : IdxList) (idx : ℕ) : IdxList :=
  ⟨dbaSortU32 val (Function.update p.entry p.cnt idx) (p.cnt + 1 - start) start, p.cnt + 1⟩

/-! ## What they should do -/

/-- The list has the appended indices, the first `start` where they were
    put and the others by growing grant. -/
structure InOrder (bw : ℕ → ℤ) (start : ℕ) (appended list : List ℕ) : Prop where
  perm : list.Perm appended
  before : list.take start = appended.take start
  rises : (list.drop start).Pairwise fun i j => bw i ≤ bw j

/-- The low 16 bits of a grant compare with those appended before it as
    the grant does. -/
def Told (bw : ℕ → ℤ) (start : ℕ) (appended : List ℕ) : Prop :=
  (appended.drop start).Pairwise fun i j =>
    (bw i ≤ u16 (bw j) → bw i ≤ bw j) ∧ (u16 (bw j) < bw i → bw j ≤ bw i)

variable {bw : ℕ → ℤ} {last start n idx : ℕ} {list : ℕ → ℕ} {l is : List ℕ} {p : IdxList}

/-! ## Entries and lists -/

/-- Outside the entries it goes over, the loop changes nothing. -/
theorem sinkLoop_frame {key : ℤ} {k : ℕ} (hk : k < start ∨ start + n < k) :
    sinkLoop bw key last start n list k = list k := by
  induction n generalizing list with
  | zero => rfl
  | succ n ih =>
    unfold sinkLoop
    dsimp only
    split_ifs
    · rfl
    · rw [ih (by omega), Function.update_of_ne (by omega), Function.update_of_ne (by omega)]

/-- The loop sinks the last index into the entries before it. -/
theorem sinkLoop_entries (hlast : list (start + n) = last) :
    (List.range (n + 1)).map (fun k => sinkLoop bw (u16 (bw last)) last start n list (start + k))
      = (sink bw last ((List.range n).map fun k => list (start + k)).reverse).reverse := by
  induction n generalizing list with
  | zero => exact congrArg (fun i => [i]) hlast
  | succ n ih =>
    rw [List.range_succ (n := n), List.map_append, List.map_singleton, List.reverse_append,
      List.reverse_singleton, List.singleton_append]
    unfold sinkLoop sink
    dsimp only
    split_ifs with hle
    · -- the loop stops: nothing has moved
      rw [List.range_succ, List.map_append, List.map_singleton, hlast, List.range_succ,
        List.map_append, List.map_singleton, List.reverse_cons, List.reverse_cons,
        List.reverse_reverse]
    · -- the larger entry moves up, and the index takes its place
      have hsame : (List.range n).map (fun k => Function.update (Function.update list
          (start + n + 1) (list (start + n))) (start + n) last (start + k))
          = (List.range n).map fun k => list (start + k) := by
        refine List.map_congr_left fun k hk => ?_
        have hlt := List.mem_range.mp hk
        rw [Function.update_of_ne (by omega), Function.update_of_ne (by omega)]
      have hup : sinkLoop bw (u16 (bw last)) last start n (Function.update (Function.update list
          (start + n + 1) (list (start + n))) (start + n) last) (start + (n + 1))
          = list (start + n) := by
        rw [sinkLoop_frame (.inr (by omega)), Function.update_of_ne (by omega), ← Nat.add_assoc,
          Function.update_self]
      rw [List.range_succ, List.map_append, List.map_singleton, hup,
        ih (Function.update_self _ _ _), hsame, List.reverse_cons]

/-- One index appended to a list and sunk to `start` at most. -/
def sortFrom (bw : ℕ → ℤ) (start : ℕ) (l : List ℕ) (idx : ℕ) : List ℕ :=
  l.take start ++ listIn bw (l.drop start) idx

theorem range_split {a b : ℕ} (h : a ≤ b) (f : ℕ → ℕ) :
    (List.range b).map f = (List.range a).map f ++ (List.range (b - a)).map fun k => f (a + k) := by
  obtain ⟨c, rfl⟩ := Nat.exists_eq_add_of_le h
  rw [List.range_add, List.map_append, List.map_map, Nat.add_sub_cancel_left]
  rfl

theorem IdxList.length_toList : p.toList.length = p.cnt := by
  rw [toList, List.length_map, List.length_range]

theorem IdxList.toList_split (h : start ≤ p.cnt) :
    p.toList.take start = (List.range start).map p.entry ∧
      p.toList.drop start = (List.range (p.cnt - start)).map fun k => p.entry (start + k) := by
  have hlen : ((List.range start).map p.entry).length = start := by
    rw [List.length_map, List.length_range]
  unfold toList
  rw [range_split h]
  exact ⟨List.take_left' hlen, List.drop_left' hlen⟩

/-- A step on the entries is the step on the list. -/
theorem IdxList.toList_appendBw (bw : ℕ → ℤ) (start : ℕ) (p : IdxList) (idx : ℕ) :
    (p.appendBw bw start idx).toList = sortFrom bw start p.toList idx := by
  have hput : ∀ k, k < p.cnt → Function.update p.entry p.cnt idx k = p.entry k :=
    fun k hk => Function.update_of_ne (by omega) _ _
  rcases Nat.lt_or_ge start p.cnt with hlt | hle
  · have hle := Nat.le_of_lt hlt
    obtain ⟨htake, hdrop⟩ := toList_split hle
    have hn : ¬p.cnt + 1 - start ≤ 1 := by omega
    have hend : start + (p.cnt + 1 - start) - 1 = p.cnt := by omega
    have hlen : p.cnt + 1 - start - 1 = p.cnt - start := by omega
    have hone : p.cnt + 1 - start = p.cnt - start + 1 := by omega
    have hlast : Function.update p.entry p.cnt idx (start + (p.cnt - start)) = idx := by
      rw [Nat.add_sub_cancel' hle, Function.update_self]
    have hfront : (List.range start).map (sinkLoop bw (u16 (bw idx)) idx start (p.cnt - start)
        (Function.update p.entry p.cnt idx)) = (List.range start).map p.entry := by
      refine List.map_congr_left fun k hk => ?_
      have hks := List.mem_range.mp hk
      rw [sinkLoop_frame (.inl hks), hput k (by omega)]
    have hrest : (List.range (p.cnt - start)).map
        (fun k => Function.update p.entry p.cnt idx (start + k))
        = (List.range (p.cnt - start)).map fun k => p.entry (start + k) := by
      refine List.map_congr_left fun k hk => ?_
      have hks := List.mem_range.mp hk
      exact hput _ (by omega)
    rw [sortFrom, listIn, htake, hdrop, ← hrest, ← sinkLoop_entries hlast, ← hone]
    unfold appendBw dbaSortBw toList
    dsimp only
    rw [if_neg hn, hend, hlen, Function.update_self, range_split (Nat.le_succ_of_le hle), hfront]
  · -- nothing to sort yet
    have hn : p.cnt + 1 - start ≤ 1 := by omega
    have hlen : p.toList.length ≤ start := by
      rw [length_toList]
      exact hle
    rw [sortFrom, List.take_of_length_le hlen, List.drop_eq_nil_of_le hlen]
    unfold appendBw dbaSortBw toList
    dsimp only
    rw [if_pos hn, List.range_succ, List.map_append, List.map_singleton, Function.update_self]
    exact congrArg (· ++ [idx]) (List.map_congr_left fun k hk => hput k (List.mem_range.mp hk))

/-- A list built from nothing -/
theorem toList_foldl_appendBw (bw : ℕ → ℤ) (start : ℕ) (l : List ℕ) :
    (l.foldl (IdxList.appendBw bw start) IdxList.zero).toList = l.foldl (sortFrom bw start) [] :=
  (List.foldl_hom IdxList.toList fun p idx =>
    (IdxList.toList_appendBw bw start p idx).symm).symm

/-- Only the indices after the first `start` are sorted. -/
theorem foldl_sortFrom (bw : ℕ → ℤ) (start : ℕ) (l : List ℕ) :
    l.foldl (sortFrom bw start) [] = l.take start ++ (l.drop start).foldl (listIn bw) [] := by
  induction l using List.reverseRecOn with
  | nil => rw [List.take_nil, List.drop_nil]; rfl
  | append_singleton l idx ih =>
    rw [List.foldl_append, ih, List.foldl_cons, List.foldl_nil]
    rcases Nat.lt_or_ge l.length start with hlt | hle
    · have hall : (l ++ [idx]).length ≤ start := by
        rw [List.length_append]
        exact hlt
      rw [List.drop_eq_nil_of_le (Nat.le_of_lt hlt), List.take_of_length_le (Nat.le_of_lt hlt),
        List.drop_eq_nil_of_le hall, List.take_of_length_le hall, List.foldl_nil, List.append_nil,
        List.append_nil, sortFrom, List.drop_eq_nil_of_le (Nat.le_of_lt hlt),
        List.take_of_length_le (Nat.le_of_lt hlt)]
      rfl
    · have hlen : (l.take start).length = start := List.length_take_of_le hle
      rw [sortFrom, List.take_left' hlen, List.drop_left' hlen, List.take_append_of_le_length hle,
        List.drop_append_of_le_length hle, List.foldl_append]
      rfl

/-! ## The order -/

/-- What sinking an index needs to leave a falling list falling. -/
theorem sink_falls_iff (bw : ℕ → ℤ) (last : ℕ) (is : List ℕ) :
    ((sink bw last is).Pairwise fun a b => bw b ≤ bw a) ↔
      (is.Pairwise fun a b => bw b ≤ bw a) ∧
        ∀ i ∈ is, (bw i ≤ u16 (bw last) → bw i ≤ bw last) ∧
          (u16 (bw last) < bw i → bw last ≤ bw i) := by
  induction is with
  | nil => simp [sink]
  | cons i is ih =>
    unfold sink
    split_ifs with hle
    · -- it stops at `i`; the entries below are no larger than `i`
      rw [List.pairwise_cons]
      constructor
      · rintro ⟨hlast, hfalls⟩
        refine ⟨hfalls, fun j hj => ⟨fun _ => hlast j hj, fun hgt => ?_⟩⟩
        rcases List.mem_cons.mp hj with rfl | hj
        · omega
        · have := (List.pairwise_cons.mp hfalls).1 j hj
          omega
      · rintro ⟨hfalls, htold⟩
        refine ⟨fun j hj => (htold j hj).1 ?_, hfalls⟩
        rcases List.mem_cons.mp hj with rfl | hj
        · exact hle
        · exact ((List.pairwise_cons.mp hfalls).1 j hj).trans hle
    · rw [List.pairwise_cons, ih, List.pairwise_cons, List.forall_mem_cons]
      constructor
      · rintro ⟨habove, hfalls, htold⟩
        have hmem : ∀ x, x = last ∨ x ∈ is → bw x ≤ bw i := fun x hx =>
          habove x ((sink_perm bw last is).mem_iff.mpr (List.mem_cons.mpr hx))
        exact ⟨⟨fun j hj => hmem j (.inr hj), hfalls⟩,
          ⟨fun h => absurd h hle, fun _ => hmem last (.inl rfl)⟩, htold⟩
      · rintro ⟨⟨habove, hfalls⟩, ⟨-, hlast⟩, htold⟩
        refine ⟨fun x hx => ?_, hfalls, htold⟩
        rcases List.mem_cons.mp ((sink_perm bw last is).mem_iff.mp hx) with rfl | hx
        · exact hlast (not_le.mp hle)
        · exact habove x hx

theorem foldl_listIn_perm (bw : ℕ → ℤ) (l : List ℕ) : (l.foldl (listIn bw) []).Perm l := by
  induction l using List.reverseRecOn with
  | nil => exact .refl _
  | append_singleton l idx ih =>
    rw [List.foldl_append, List.foldl_cons, List.foldl_nil]
    exact (listIn_perm bw _ idx).trans ((ih.cons idx).trans (List.perm_append_singleton idx l).symm)

/-- The list rises when every grant compares with those before it as its
    low 16 bits do. -/
theorem foldl_listIn_rises_iff (bw : ℕ → ℤ) (l : List ℕ) :
    ((l.foldl (listIn bw) []).Pairwise fun i j => bw i ≤ bw j) ↔
      l.Pairwise fun i j => (bw i ≤ u16 (bw j) → bw i ≤ bw j) ∧
        (u16 (bw j) < bw i → bw j ≤ bw i) := by
  induction l using List.reverseRecOn with
  | nil => exact iff_of_true .nil .nil
  | append_singleton l idx ih =>
    have hmem : ∀ i, i ∈ l.foldl (listIn bw) [] ↔ i ∈ l :=
      fun i => (foldl_listIn_perm bw l).mem_iff
    rw [List.foldl_append, List.foldl_cons, List.foldl_nil, listIn, List.pairwise_reverse,
      sink_falls_iff, List.pairwise_reverse, ih, List.pairwise_append]
    simp only [List.mem_reverse, hmem, List.pairwise_singleton, true_and, List.mem_singleton,
      forall_eq]

/-- The entries before `start` and from there on. -/
theorem built_split (bw : ℕ → ℤ) (start : ℕ) (l : List ℕ) :
    (l.foldl (sortFrom bw start) []).take start = l.take start ∧
      (l.foldl (sortFrom bw start) []).drop start = (l.drop start).foldl (listIn bw) [] := by
  rw [foldl_sortFrom]
  rcases Nat.lt_or_ge l.length start with hlt | hle
  · have hall : l.length ≤ start := Nat.le_of_lt hlt
    rw [List.drop_eq_nil_of_le hall, List.take_of_length_le hall, List.foldl_nil, List.append_nil]
    exact ⟨List.take_of_length_le hall, List.drop_eq_nil_of_le hall⟩
  · have hlen : (l.take start).length = start := List.length_take_of_le hle
    exact ⟨List.take_left' hlen, List.drop_left' hlen⟩

/-- A list built with `dba_sort_bw` is in order exactly when the low 16
    bits of every grant tell it from those before it. -/
theorem inOrder_appendBw_iff (bw : ℕ → ℤ) (start : ℕ) (l : List ℕ) :
    InOrder bw start l (l.foldl (IdxList.appendBw bw start) IdxList.zero).toList ↔
      Told bw start l := by
  obtain ⟨htake, hdrop⟩ := built_split bw start l
  rw [toList_foldl_appendBw]
  constructor
  · intro h
    have hrises := h.rises
    rw [hdrop] at hrises
    exact (foldl_listIn_rises_iff bw _).mp hrises
  · intro h
    constructor
    case perm =>
      have hperm := (foldl_listIn_perm bw (l.drop start)).append_left (l.take start)
      rw [List.take_append_drop] at hperm
      rw [foldl_sortFrom]
      exact hperm
    case before => exact htake
    case rises =>
      rw [hdrop]
      exact (foldl_listIn_rises_iff bw _).mpr h

/-- Both steps, from any start, keep a list in order exactly when the low
    16 bits of every grant tell it from those appended before it. -/
theorem insertion_steps_iff (bw : ℕ → ℤ) (val : ℕ → ℕ) (start : ℕ) (l : List ℕ) :
    (InOrder bw start l (l.foldl (IdxList.appendBw bw start) IdxList.zero).toList ↔
      Told bw start l) ∧
    (InOrder (fun i => val i) start l
        (l.foldl (IdxList.appendU32 val start) IdxList.zero).toList ↔
      Told (fun i => val i) start l) :=
  ⟨inOrder_appendBw_iff bw start l, inOrder_appendBw_iff (fun i => val i) start l⟩

/-- Grants of 16 bits are told apart. -/
theorem told_of_lt (h : ∀ i ∈ l, 0 ≤ bw i ∧ bw i < 2 ^ 16) : Told bw start l := by
  unfold Told
  refine List.pairwise_of_forall_mem_list fun i _ j hj => ?_
  obtain ⟨hpos, hlt⟩ := h j (List.mem_of_mem_drop hj)
  have hkey : (u16 (bw j) : ℤ) = bw j := by
    unfold u16
    omega
  rw [hkey]
  exact ⟨id, fun hgt => hgt.le⟩

/-! ## The lists of a frame -/

/-- `list` of the FEC pass -/
theorem fecList_built (m : DbaMap) (cfg : Table) (bw : ℕ → ℤ) (onu : ℕ) :
    fecList m cfg bw onu
      = ((((List.range m.nTc).map (tcontIdx m onu)).filter fun i =>
          (cfg i).valid && decide (bw i ≠ 0)).foldl (IdxList.appendBw bw 1)
            IdxList.zero).toList := by
  have hsort : ∀ list idx, sortIn bw list idx = sortFrom bw 1 list idx := by
    intro list idx
    unfold sortIn sortFrom listIn
    split_ifs with hlen
    · rw [List.take_of_length_le hlen, List.drop_eq_nil_of_le hlen]
      rfl
    · rfl
  rw [toList_foldl_appendBw, List.foldl_filter, List.foldl_map]
  unfold fecList
  refine List.foldl_ext _ _ _ fun list j _ => ?_
  rw [hsort]
  by_cases hin : (cfg (tcontIdx m onu j)).valid = true ∧ bw (tcontIdx m onu j) ≠ 0
  · rw [if_neg (by tauto), if_pos (by simpa using hin)]
  · rw [if_pos (by tauto), if_neg (by simpa using hin)]

/-- `order` of a two-frame map -/
theorem newOrder_built (m : DbaMap) (cfg : Table) (alloc : ℕ → Alloc) :
    newOrder m cfg alloc
      = ((owners m cfg).foldl (IdxList.appendU32 (onuGrants m cfg alloc) 0) IdxList.zero).toList := by
  unfold newOrder owners
  rw [show IdxList.appendU32 (onuGrants m cfg alloc) 0
      = IdxList.appendBw (fun o => onuGrants m cfg alloc o) 0 from rfl,
    toList_foldl_appendBw, List.foldl_filter]
  rfl

theorem sink_congr {bw bw' : ℕ → ℤ} (hlast : bw last = bw' last) (h : ∀ i ∈ is, bw i = bw' i) :
    sink bw last is = sink bw' last is := by
  induction is with
  | nil => rfl
  | cons i is ih =>
    obtain ⟨hi, his⟩ := List.forall_mem_cons.mp h
    rw [sink, sink, hi, hlast, ih his]

/-- The grants of other T-CONTs do not matter. -/
theorem foldl_listIn_congr {bw bw' : ℕ → ℤ} (h : ∀ i ∈ l, bw i = bw' i) :
    l.foldl (listIn bw) [] = l.foldl (listIn bw') [] := by
  induction l using List.reverseRecOn with
  | nil => rfl
  | append_singleton l idx ih =>
    have hold : ∀ i ∈ l, bw i = bw' i := fun i hi => h i (List.mem_append_left _ hi)
    rw [List.foldl_append, List.foldl_append, ih hold]
    refine congrArg List.reverse (sink_congr (h idx (List.mem_append_right _ List.mem_cons_self)) ?_)
    intro i hi
    exact hold i ((foldl_listIn_perm bw' l).mem_iff.mp (List.mem_reverse.mp hi))

/-- The list of a request is built of some of the first `n` T-CONTs, with
    the grants they have now. -/
def Demand.Built (d : Demand) (n : ℕ) : Prop :=
  ∃ appended : List ℕ, (∀ i ∈ appended, i < n) ∧
    d.list = appended.foldl (listIn fun i => (d.alloc i).curBw) []

theorem Demand.Built.add {d : Demand} (h : d.Built n) (a : Alloc) : (d.add n a).Built (n + 1) := by
  obtain ⟨appended, hlt, hlist⟩ := h
  refine ⟨appended, fun i hi => Nat.lt_succ_of_lt (hlt i hi), hlist.trans ?_⟩
  exact foldl_listIn_congr fun i hi => by rw [Demand.add_alloc_of_ne d a (hlt i hi).ne]

theorem Demand.Built.enlist {d : Demand} (h : d.Built n) (share assure : ℕ) (a : Alloc) :
    (d.enlist share assure n a).Built (n + 1) := by
  obtain ⟨appended, hlt, hlist⟩ := h
  -- the list is sorted by grants, which the group does not touch
  have hbw : (fun j => (Function.update d.alloc n a j).curBw) =
      fun j => ((d.enlist share assure n a).alloc j).curBw := by
    funext j
    by_cases hj : j = n
    · rw [hj, Demand.enlist_alloc_self, Function.update_self]
    · rw [Demand.enlist_alloc_of_ne d share assure a hj, Function.update_of_ne hj]
  refine ⟨appended ++ [n], ?_, ?_⟩
  · intro i hi
    rcases List.mem_append.mp hi with hi | hi
    · exact Nat.lt_succ_of_lt (hlt i hi)
    · exact Nat.lt_succ_of_le (List.mem_singleton.mp hi).le
  · rw [Demand.enlist_list, hbw, List.foldl_append, hlist]
    refine congrArg (listIn _ · n) (foldl_listIn_congr fun i hi => ?_)
    rw [Demand.enlist_alloc_of_ne d share assure a (hlt i hi).ne]

theorem Demand.Built.next {d : Demand} (h : d.Built n) (dual olt : Bool) (share : ℕ) (cfg : Table) :
    (d.next dual olt share cfg n).Built (n + 1) := by
  have hsame : d.Built (n + 1) := by
    obtain ⟨appended, hlt, hlist⟩ := h
    exact ⟨appended, fun i hi => Nat.lt_succ_of_lt (hlt i hi), hlist⟩
  unfold Demand.next
  dsimp only
  split_ifs
  all_goals first
    | exact hsame
    | exact h.add _
    | exact h.enlist _ _ _

/-- `list` of `dba_bw_request` -/
theorem demandTo_built (dual olt : Bool) (share : ℕ) (cfg : Table) (alloc : ℕ → Alloc) (n : ℕ) :
    (demandTo dual olt share cfg alloc n).Built n := by
  induction n with
  | zero => exact ⟨[], fun i hi => absurd hi List.not_mem_nil, rfl⟩
  | succ n ih =>
    unfold demandTo
    rw [List.range_succ, List.foldl_append]
    exact ih.next dual olt share cfg

/-! ## A grant above 16 bits -/

/-- The ONUs of a two-frame map and their grants, as the list is built. -/
def Core.onuGrants (s : Core) : ℕ → ℕ :=
  Dba.onuGrants (dbaMap s.dba.tcont.mode) s.dba.run s.alloc

def Core.owners (s : Core) : List ℕ := Dba.owners (dbaMap s.dba.tcont.mode) s.dba.run

/-- ONUs 0 and 1 have fixed bandwidths of 10000 and 40000. -/
def fixedOnus : List HostMail :=
  [.tcontDba (tcontOf 0) 0 1 10000 0 0, .tcontDba (tcontOf 1) 1 1 40000 0 0]

/-- What the next frame finds, with its demand computed -/
def fixedFrame : Core := ((fourOnus fixedOnus).drain ⟨0, [], fun _ => 0⟩).request

/-- Twice 40000 is 80000, whose low 16 bits are less than twice 10000. -/
theorem fixedFrame_grants : fixedFrame.onuGrants 0 = 20000 ∧ fixedFrame.onuGrants 1 = 80000 := by
  decide +kernel

/-- The larger fixed bandwidth comes first in the map. -/
theorem fixedOnus_misplaced :
    ¬∀ (s : Core) (f : Frame), core5.Reachable s → (s.drain f).writes →
      (s.drain f).newAct = true →
      InOrder (fun onu => (s.drain f).request.onuGrants onu) 0 (s.drain f).request.owners
        ((s.drain f).request.owners.foldl
          (IdxList.appendU32 (s.drain f).request.onuGrants 0) IdxList.zero).toList := by
  intro hall
  have horder := hall _ ⟨0, [], fun _ => 0⟩ (fourOnus_reachable fixedOnus)
    (by decide +kernel) (by decide +kernel)
  have howners : fixedFrame.owners = [0, 1, 2, 3] := by decide +kernel
  have htold : Told (fun onu => fixedFrame.onuGrants onu) 0 fixedFrame.owners :=
    (inOrder_appendBw_iff (fun onu => fixedFrame.onuGrants onu) 0 fixedFrame.owners).mp horder
  rw [howners] at htold
  obtain ⟨hfirst, hsecond⟩ := fixedFrame_grants
  have hpair := ((List.pairwise_cons.mp htold).1 1 (by decide)).2
  dsimp only at hpair
  rw [hfirst, hsecond] at hpair
  exact absurd (hpair (by decide)) (by decide)

end ClankerNPU.Dba
