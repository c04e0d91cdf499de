import ClankerNPU.Dba.Adapt
import ClankerNPU.Dba.Applied
import ClankerNPU.Dba.Bwmap

/-! # Demand and fair share

    The budget of a map is what the overhead leaves of a frame. Every
    valid T-CONT adapts its grant; where the demand exceeds the budget,
    the T-CONTs above their share divide what the others leave, the
    smallest grant first. -/

namespace ClankerNPU.Dba

/-! ## The budget -/

/-- The ONU has a valid T-CONT. -/
def owns (m : DbaMap) (cfg : Table) (onu : ℕ) : Bool :=
  (List.range m.nTc).any fun t => (cfg (tcontIdx m onu t)).valid

/-- What a T-CONT's contract takes from the budget. -/
def TcontCfg.reserved (c : TcontCfg) : ℕ :=
  if c.dbaType = 1 then c.fixBw
  else if c.dbaType = 2 ∨ c.dbaType = 3 ∨ c.dbaType = 5 then c.assureBw
  else 0

/-- The burst overhead `dba_budget_calc` leaves in `dba_burst_ovh` -/
def nextBurstOvh (olt : Bool) (burstOvh : ℕ) (m : DbaMap) (cfg : Table) : ℕ :=
  if olt then burstOvh
  else if (List.range m.nOnu).countP (fun onu => (cfg onu).valid && (cfg onu).fec) ≠ 0 then 64
  else 46

/-- `struct dba_budget`, as far as `dba_budget_calc` fills it -/
structure Budget where
  total : ℕ
  share : ℕ

/-- `dba_budget_calc`, with the burst overhead it settles on -/
def dbaBudgetCalc (dual : Bool) (m : DbaMap) (cfg : Table) (ovh actOnus : ℕ) : Budget :=
  let valids := ((tconts m).map fun p => cfg (tcontIdx m p.1 p.2)).filter TcontCfg.valid
  let nFull := (List.range m.nOnu).countP fun onu => (cfg onu).valid && (cfg onu).fec
  let nAct := (List.range m.nOnu).countP (owns m cfg)
  let cnt := valids.countP fun c => c.dbaType = 3 ∨ c.dbaType = 4 ∨ c.dbaType = 5
  let total := if dual then u16 (0x97E0 - (ovh * actOnus : ℕ))
    else u16 (0x4B8C - (nFull * 36 : ℕ) - u16 (ovh * nAct : ℕ))
  let remain : ℤ := total - ((valids.map TcontCfg.reserved).sum : ℕ)
  ⟨total, if 0 < remain ∧ cnt ≠ 0 then u16 (remain / cnt) else 0⟩

/-! ## Demand -/

/-- What the loop of `dba_bw_request` goes through the T-CONTs with. -/
structure Demand where
  alloc : ℕ → Alloc
  list : List ℕ
  demand : ℕ
  overShare : ℕ
  overAssure : ℕ
  nOver : ℤ

/-- A T-CONT's grant is added to the demand. -/
def Demand.add (d : Demand) (i : ℕ) (a : Alloc) : Demand :=
  { d with
    alloc := Function.update d.alloc i a
    demand := (d.demand + u32 a.curBw) % 2 ^ 32 }

/-- `list[n] = idx` and `dba_sort_bw(ctx, list, n, 0)` -/
def listIn (bw : ℕ → ℤ) (list : List ℕ) (idx : ℕ) : List ℕ := (sink bw idx list.reverse).reverse

theorem listIn_perm (bw : ℕ → ℤ) (list : List ℕ) (idx : ℕ) :
    (listIn bw list idx).Perm (idx :: list) :=
  (List.reverse_perm _).trans ((sink_perm bw idx list.reverse).trans
    ((List.reverse_perm _).cons idx))

/-- A T-CONT above its share goes in the list, in the assured group where
    its share does not cover what it is assured. -/
def Demand.enlist (d : Demand) (share assure i : ℕ) (a : Alloc) : Demand :=
  let list := listIn (fun j => (Function.update d.alloc i a j).curBw) d.list i
  let d := { d with list := list, overShare := (d.overShare + u32 a.curBw) % 2 ^ 32 }
  if assure ≤ share then d.add i { a with grp := 1 }
  else
    let overAssure := (d.overAssure + u32 (a.curBw - assure)) % 2 ^ 32
    { d with overAssure, nOver := d.nOver + 1 }.add i { a with grp := 2 }

/-- The body of the loop of `dba_bw_request` -/
def Demand.next (dual olt : Bool) (share : ℕ) (cfg : Table) (d : Demand) (i : ℕ) : Demand :=
  let c := cfg i
  if ¬c.valid then d
  else if c.dbaType = 1 then
    d.add i { d.alloc i with curBw := if dual then c.fixBw * 2 else c.fixBw }
  else
    let a := dbaAllocAdapt dual olt c (d.alloc i)
    if c.dbaType = 2 then d.add i a
    else if c.dbaType = 3 ∨ c.dbaType = 5 then
      if u32 a.curBw ≤ c.assureBw ∨ a.curBw ≤ share then d.add i a
      else d.enlist share c.assureBw i a
    else if c.dbaType = 4 then
      if a.curBw ≤ share then d.add i { a with grp := 0 }
      else d.enlist share 0 i a
    else d.add i { a with curBw := 2 }

/-! ## Fair share -/

/-- What the list is served with. -/
structure Pool where
  alloc : ℕ → Alloc
  rem : ℤ
  n : ℤ
  nOver : ℤ
  overAssure : ℕ
  first : Bool

/-- `rem` is not negative at a turn. -/
def Pool.clip (p : Pool) : Pool := { p with rem := max p.rem 0 }

/-- `share`, of a `rem` that is not negative -/
def Pool.share (p : Pool) : ℕ := u16 (if 0 < p.n then p.rem / p.n else p.rem)

/-- At the first overflow an assured T-CONT drops back to the share where
    that is more than it is assured. -/
def Pool.dropBack (cfg : Table) (share : ℕ) (p : Pool) (j : ℕ) : Pool :=
  let q := p.alloc j
  if q.grp ≠ 2 ∨ share ≤ (cfg j).assureBw then p
  else { p with
    nOver := p.nOver - 1
    overAssure := u32 ((p.overAssure : ℤ) - u16 (q.curBw - (cfg j).assureBw))
    alloc := Function.update p.alloc j { q with grp := 1 } }

/-- The first overflow, at the head of what is left of the list -/
def Pool.overflow (cfg : Table) (list : List ℕ) (p : Pool) : Pool :=
  let p := list.foldl (Pool.dropBack cfg p.share) p
  { p with n := p.n - max p.nOver 0, rem := s32 (p.rem + p.overAssure), first := true }

/-- A T-CONT's turn after the first overflow -/
def Pool.cut (cfg : Table) (p : Pool) (i : ℕ) : Pool :=
  let p := p.clip
  let a := p.alloc i
  let bw : ℕ := if a.grp = 2 then (cfg i).assureBw else p.share
  { p with
    n := if a.grp = 2 then p.n else p.n - 1
    alloc := Function.update p.alloc i { a with curBw := bw }
    rem := p.rem - bw }

/-- A T-CONT's turn before the first overflow -/
def Pool.keep (cfg : Table) (p : Pool) (i : ℕ) : Pool :=
  let a := p.alloc i
  { p with
    nOver := if a.grp = 2 then p.nOver - 1 else p.nOver
    overAssure := if a.grp = 2 then u32 ((p.overAssure : ℤ) - u16 (a.curBw - (cfg i).assureBw))
      else p.overAssure
    n := p.n - 1
    rem := p.rem - a.curBw }

/-- The loop over the list -/
def handOut (cfg : Table) : List ℕ → Pool → Pool
  | [], p => p
  | i :: is, p =>
    let p := p.clip
    if p.first then handOut cfg is (p.cut cfg i)
    else if p.share < (p.alloc i).curBw then
      handOut cfg is ((p.overflow cfg (i :: is)).cut cfg i)
    else handOut cfg is (p.keep cfg i)

/-- The loop over the first T-CONTs -/
def demandTo (dual olt : Bool) (share : ℕ) (cfg : Table) (alloc : ℕ → Alloc) (n : ℕ) : Demand :=
  (List.range n).foldl (Demand.next dual olt share cfg) ⟨alloc, [], 0, 0, 0, 0⟩

/-- The demand of all T-CONTs -/
def demandOf (dual olt : Bool) (share : ℕ) (cfg : Table) (alloc : ℕ → Alloc) : Demand :=
  demandTo dual olt share cfg alloc allocNum

/-- `dba_bw_request`, to the contexts it leaves -/
def dbaBwRequest (dual olt : Bool) (b : Budget) (cfg : Table) (alloc : ℕ → Alloc) : ℕ → Alloc :=
  let d := demandOf dual olt b.share cfg alloc
  if d.demand ≤ b.total then d.alloc
  else
    let rem := s32 ((b.total : ℤ) - d.demand + d.overShare)
    if rem ≤ 0 then fun i => if i ∈ d.list then { d.alloc i with curBw := 0 } else d.alloc i
    else (handOut cfg d.list ⟨d.alloc, rem, d.list.length, d.nOver, d.overAssure, false⟩).alloc

/-! ## What a context keeps

    Besides its adaptation a request changes the grant and the group of a
    context alone. -/

/-- A context with another grant and group. -/
def Alloc.Regranted (a a' : Alloc) : Prop := ∃ bw grp, a' = { a with curBw := bw, grp := grp }

theorem Alloc.Regranted.refl (a : Alloc) : a.Regranted a := ⟨a.curBw, a.grp, rfl⟩

theorem Alloc.Regranted.trans {a b c : Alloc} (h : a.Regranted b) (h' : b.Regranted c) :
    a.Regranted c := by
  obtain ⟨_, _, rfl⟩ := h
  obtain ⟨bw, grp, rfl⟩ := h'
  exact ⟨bw, grp, rfl⟩

/-- A context rewritten in a way that only grants. -/
theorem regranted_update {f : ℕ → Alloc} {j : ℕ} {a : Alloc} (h : (f j).Regranted a) (i : ℕ) :
    (f i).Regranted (Function.update f j a i) := by
  by_cases hi : i = j
  · subst hi
    rw [Function.update_self]
    exact h
  · rw [Function.update_of_ne hi]
    exact .refl _

theorem regranted_dropBack (cfg : Table) (share : ℕ) (p : Pool) (j i : ℕ) :
    (p.alloc i).Regranted ((p.dropBack cfg share j).alloc i) := by
  unfold Pool.dropBack
  dsimp only
  split_ifs
  · exact .refl _
  · exact regranted_update ⟨_, 1, rfl⟩ i

theorem regranted_overflow (cfg : Table) (list : List ℕ) (p : Pool) (i : ℕ) :
    (p.alloc i).Regranted ((p.overflow cfg list).alloc i) := by
  show (p.alloc i).Regranted ((list.foldl (Pool.dropBack cfg p.share) p).alloc i)
  generalize p.share = share
  induction list generalizing p with
  | nil => exact .refl _
  | cons j list ih => exact (regranted_dropBack cfg share p j i).trans (ih _)

theorem regranted_cut (cfg : Table) (p : Pool) (j i : ℕ) :
    (p.alloc i).Regranted ((p.cut cfg j).alloc i) := regranted_update ⟨_, _, rfl⟩ i

theorem regranted_handOut (cfg : Table) (list : List ℕ) (p : Pool) (i : ℕ) :
    (p.alloc i).Regranted ((handOut cfg list p).alloc i) := by
  induction list generalizing p with
  | nil => exact .refl _
  | cons j list ih =>
    unfold handOut
    dsimp only
    split_ifs
    · exact (regranted_cut cfg p.clip j i).trans (ih _)
    · exact ((regranted_overflow cfg (j :: list) p.clip i).trans (regranted_cut cfg _ j i)).trans
        (ih _)
    · exact ih (p.clip.keep cfg j)

/-- A T-CONT whose grant is adapted to its reports. -/
def TcontCfg.adapts (c : TcontCfg) : Prop :=
  c.dbaType = 2 ∨ c.dbaType = 3 ∨ c.dbaType = 4 ∨ c.dbaType = 5

instance (c : TcontCfg) : Decidable c.adapts := inferInstanceAs (Decidable (_ ∨ _))

/-- What the turn of a valid T-CONT leaves, but for the group. -/
def turned (dual olt : Bool) (c : TcontCfg) (a : Alloc) : Alloc :=
  if c.dbaType = 1 then { a with curBw := if dual then c.fixBw * 2 else c.fixBw }
  else if c.adapts then dbaAllocAdapt dual olt c a
  else { dbaAllocAdapt dual olt c a with curBw := 2 }

theorem Demand.add_alloc_self (d : Demand) (i : ℕ) (a : Alloc) : (d.add i a).alloc i = a :=
  Function.update_self _ _ _

theorem Demand.add_alloc_of_ne (d : Demand) {i j : ℕ} (a : Alloc) (h : j ≠ i) :
    (d.add i a).alloc j = d.alloc j := Function.update_of_ne h _ _

theorem Demand.enlist_alloc_of_ne (d : Demand) (share assure : ℕ) {i j : ℕ} (a : Alloc)
    (h : j ≠ i) : (d.enlist share assure i a).alloc j = d.alloc j := by
  unfold Demand.enlist
  dsimp only
  split_ifs <;> exact Demand.add_alloc_of_ne _ _ h

theorem Demand.enlist_alloc_self (d : Demand) (share assure i : ℕ) (a : Alloc) :
    (d.enlist share assure i a).alloc i = { a with grp := if assure ≤ share then 1 else 2 } := by
  unfold Demand.enlist
  dsimp only
  split_ifs <;> exact Demand.add_alloc_self _ _ _

theorem Demand.enlist_list (d : Demand) (share assure i : ℕ) (a : Alloc) :
    (d.enlist share assure i a).list =
      listIn (fun j => (Function.update d.alloc i a j).curBw) d.list i := by
  unfold Demand.enlist
  dsimp only
  split_ifs <;> rfl

theorem Demand.enlist_nOver (d : Demand) (share assure i : ℕ) (a : Alloc) :
    (d.enlist share assure i a).nOver = if assure ≤ share then d.nOver else d.nOver + 1 := by
  unfold Demand.enlist
  dsimp only
  split_ifs <;> rfl

theorem Demand.enlist_overAssure (d : Demand) (share assure i : ℕ) (a : Alloc) :
    (d.enlist share assure i a).overAssure = if assure ≤ share then d.overAssure
      else (d.overAssure + u32 (a.curBw - assure)) % 2 ^ 32 := by
  unfold Demand.enlist
  dsimp only
  split_ifs <;> rfl

theorem Demand.next_alloc_of_ne (dual olt : Bool) (share : ℕ) (cfg : Table) (d : Demand) {i j : ℕ}
    (h : j ≠ i) : (d.next dual olt share cfg i).alloc j = d.alloc j := by
  unfold Demand.next
  dsimp only
  split_ifs
  all_goals first
    | rfl
    | exact Demand.add_alloc_of_ne _ _ h
    | exact Demand.enlist_alloc_of_ne _ _ _ _ h

theorem Demand.next_of_invalid (dual olt : Bool) (share : ℕ) (cfg : Table) (d : Demand) {i : ℕ}
    (hv : ¬(cfg i).valid = true) : d.next dual olt share cfg i = d := if_pos hv

theorem Demand.next_alloc_self (dual olt : Bool) (share : ℕ) (cfg : Table) (d : Demand) {i : ℕ}
    (hv : (cfg i).valid = true) : ∃ grp, (d.next dual olt share cfg i).alloc i =
      { turned dual olt (cfg i) (d.alloc i) with grp := grp } := by
  unfold Demand.next turned
  dsimp only
  rw [if_neg (not_not.mpr hv)]
  by_cases h1 : (cfg i).dbaType = 1
  · rw [if_pos h1, if_pos h1, Demand.add_alloc_self]
    exact ⟨_, rfl⟩
  rw [if_neg h1, if_neg h1]
  by_cases h2 : (cfg i).dbaType = 2
  · rw [if_pos h2, if_pos (.inl h2), Demand.add_alloc_self]
    exact ⟨_, rfl⟩
  rw [if_neg h2]
  by_cases h35 : (cfg i).dbaType = 3 ∨ (cfg i).dbaType = 5
  · have hadapt : (cfg i).adapts := by
      unfold TcontCfg.adapts
      omega
    rw [if_pos h35, if_pos hadapt]
    split_ifs
    · exact ⟨_, Demand.add_alloc_self _ _ _⟩
    · exact ⟨_, Demand.enlist_alloc_self _ _ _ _ _⟩
  rw [if_neg h35]
  by_cases h4 : (cfg i).dbaType = 4
  · have hadapt : (cfg i).adapts := .inr (.inr (.inl h4))
    rw [if_pos h4, if_pos hadapt]
    split_ifs
    · exact ⟨_, Demand.add_alloc_self _ _ _⟩
    · exact ⟨_, Demand.enlist_alloc_self _ _ _ _ _⟩
  · -- any other type: adapted, then 2
    have hother : ¬(cfg i).adapts := by
      unfold TcontCfg.adapts
      omega
    rw [if_neg h4, if_neg hother, Demand.add_alloc_self]
    exact ⟨_, rfl⟩

theorem demandTo_succ (dual olt : Bool) (share : ℕ) (cfg : Table) (alloc : ℕ → Alloc) (n : ℕ) :
    demandTo dual olt share cfg alloc (n + 1) =
      (demandTo dual olt share cfg alloc n).next dual olt share cfg n := by
  unfold demandTo
  rw [List.range_succ, List.foldl_append, List.foldl_cons, List.foldl_nil]

/-- The contexts while the loop is at a T-CONT: the valid ones before it
    have had their turn. -/
theorem demandTo_alloc (dual olt : Bool) (share : ℕ) (cfg : Table) (alloc : ℕ → Alloc) (n i : ℕ) :
    (i < n → (cfg i).valid = true → ∃ grp, (demandTo dual olt share cfg alloc n).alloc i =
      { turned dual olt (cfg i) (alloc i) with grp := grp }) ∧
    (¬(i < n ∧ (cfg i).valid = true) →
      (demandTo dual olt share cfg alloc n).alloc i = alloc i) := by
  induction n with
  | zero => exact ⟨fun h => absurd h (Nat.not_lt_zero i), fun _ => rfl⟩
  | succ n ih =>
    rw [demandTo_succ]
    generalize demandTo dual olt share cfg alloc n = d at ih ⊢
    by_cases hin : i = n
    · subst hin
      refine ⟨fun _ hv => ?_, fun h => ?_⟩
      · have hself := Demand.next_alloc_self dual olt share cfg d hv
        rw [ih.2 (fun h => absurd h.1 (Nat.lt_irrefl i))] at hself
        exact hself
      · rw [Demand.next_of_invalid dual olt share cfg d fun hv => h ⟨Nat.lt_succ_self i, hv⟩]
        exact ih.2 fun h => absurd h.1 (Nat.lt_irrefl i)
    · rw [Demand.next_alloc_of_ne dual olt share cfg d hin]
      exact ⟨fun hi => ih.1 (by omega), fun h => ih.2 fun hno => h ⟨by omega, hno.2⟩⟩

/-- A request grants what it has adapted. -/
theorem regranted_dbaBwRequest (dual olt : Bool) (b : Budget) (cfg : Table) (alloc : ℕ → Alloc)
    (i : ℕ) :
    ((demandOf dual olt b.share cfg alloc).alloc i).Regranted
      (dbaBwRequest dual olt b cfg alloc i) := by
  unfold dbaBwRequest
  dsimp only
  generalize demandOf dual olt b.share cfg alloc = d
  by_cases hfit : d.demand ≤ b.total
  · rw [if_pos hfit]
    exact .refl _
  · rw [if_neg hfit]
    by_cases hrem : s32 ((b.total : ℤ) - d.demand + d.overShare) ≤ 0
    · rw [if_pos hrem]
      by_cases hi : i ∈ d.list
      · rw [if_pos hi]
        exact ⟨0, _, rfl⟩
      · rw [if_neg hi]
        exact .refl _
    · rw [if_neg hrem]
      exact regranted_handOut cfg d.list _ i

end ClankerNPU.Dba
