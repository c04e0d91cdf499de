import ClankerNPU.Dba.Config

/-! # Configuration mails are applied

    What the host wants is the default of the last map mode it mailed,
    with the mails since applied. A frame brings the run-time contexts to
    it as long as no mail arrives while a new map mode is pending. -/

namespace ClankerNPU.Dba

variable {i v mode : ℕ} {cfg cfg' : Table} {m : Mail}

/-- The defaults of a map mode. -/
def defaults (mode : ℕ) : Table := (dbaTcontInit mode ⟨false, 0, fun _ => noTcont⟩).cfg

/-- The table the host wants after a mail. -/
def Mail.wanted (mode : ℕ) (want : Table) (m : Mail) : Table :=
  (m.newMode.map defaults).getD (m.edit mode want)

/-- The host's mails, and the frames with what `FTTR_MAP_MODE` reports. -/
inductive Act where
  | mail (m : Mail)
  | frame (v : ℕ)

/-- The code's data, and the table and map mode the host has asked for. -/
structure Sys where
  dba : DbaData
  want : Table
  wantMode : ℕ

def Sys.next (s : Sys) : Act → Sys
  | .mail m =>
    ⟨dbaMailSet s.dba m, m.wanted s.wantMode s.want, m.newMode.getD s.wantMode⟩
  | .frame v => ⟨dbaFrameHandler s.dba v, s.want, s.wantMode⟩

/-- A chip that reports a map mode, after boot. -/
def boot (v : ℕ) : Sys := ⟨dbaCfgInit v, defaults (v % 256), v % 256⟩

/-- The runs of mails and frames. -/
def system : StepSystem Sys Act where
  init s := ∃ v, s = boot v
  step s a s' := s' = s.next a

/-- The run-time contexts hold what the host wants. -/
def Sys.Applied (s : Sys) : Prop := ∀ i < allocNum, s.dba.run i = s.want i

/-- No new map mode waits for the next frame. -/
def DbaData.Settled (s : DbaData) : Prop := s.tcont.mode = s.mode

/-- A mail that names a map mode names another than the one in force, or
    the table has its defaults; any other mail for the table finds no map
    mode pending; a pending map mode is what the chip reports at the frame
    that takes it up. -/
def DbaData.Heeds (s : DbaData) : Act → Prop
  | .mail m =>
    (∀ k, m.newMode = some k → k ≠ s.mode ∨ ∀ i < allocNum, s.tcont.cfg i = defaults k i) ∧
      (m.newMode = none → m.changes = true → s.Settled)
  | .frame v =>
    s.getTimerEn ≠ 0 → s.tcont.changed = true → ¬s.Settled → v % 256 = s.tcont.mode

/-! ## The defaults -/

/-- The entry at a place rewritten. -/
def rewriteAt {ι : Type} (k : ι → ℕ) (f : ι → TcontCfg → TcontCfg) (c : Table) (p : ι) : Table :=
  Function.update c (k p) (f p (c (k p)))

theorem rewriteAt_self {ι : Type} (k : ι → ℕ) (f : ι → TcontCfg → TcontCfg) (c : Table) (p : ι) :
    rewriteAt k f c p (k p) = f p (c (k p)) := Function.update_self _ _ _

theorem rewriteAt_of_ne {ι : Type} {k : ι → ℕ} (f : ι → TcontCfg → TcontCfg) (c : Table) {p : ι}
    (h : k p ≠ i) : rewriteAt k f c p i = c i := Function.update_of_ne (Ne.symm h) _ _

/-- A loop that rewrites places of a table leaves the same at a place it
    comes to, whatever was there as far as it does not look. -/
theorem foldl_update_congr {ι : Type} (k : ι → ℕ) (f : ι → TcontCfg → TcontCfg) (l : List ι)
    (hf : ∀ p, f p (cfg i) = f p (cfg' i)) (hi : ∃ p ∈ l, k p = i) :
    l.foldl (rewriteAt k f) cfg i =
      l.foldl (rewriteAt k f) cfg' i := by
  -- once the tables agree at the place they stay so
  have hsame (l : List ι) : ∀ c c' : Table, c i = c' i →
      l.foldl (rewriteAt k f) c i =
        l.foldl (rewriteAt k f) c' i := by
    induction l with
    | nil => exact fun _ _ h => h
    | cons p l ih =>
      intro c c' h
      apply ih
      by_cases hp : k p = i
      · rw [← hp, rewriteAt_self, rewriteAt_self, hp, h]
      · rw [rewriteAt_of_ne f c hp, rewriteAt_of_ne f c' hp, h]
  induction l generalizing cfg cfg' with
  | nil =>
    obtain ⟨p, hp, _⟩ := hi
    exact absurd hp List.not_mem_nil
  | cons p l ih =>
    rw [List.foldl_cons, List.foldl_cons]
    by_cases hp : k p = i
    · apply hsame
      rw [← hp, rewriteAt_self, rewriteAt_self, hp, hf]
    · apply ih
      · intro q
        rw [rewriteAt_of_ne f cfg hp, rewriteAt_of_ne f cfg' hp]
        exact hf q
      · obtain ⟨q, hq, hqi⟩ := hi
        rcases List.mem_cons.1 hq with rfl | hq
        · exact absurd hqi hp
        · exact ⟨q, hq, hqi⟩

/-- The T-CONTs the loops of `dba_tcont_init` come to. -/
def tconts (m : DbaMap) : List (ℕ × ℕ) :=
  (List.range m.nOnu).flatMap fun onu => (List.range m.nTc).map fun t => (onu, t)

theorem dbaTcontInit_cfg (v : ℕ) (s : Tcont) :
    (dbaTcontInit v s).cfg = (tconts (dbaMap (v % 256))).foldl
      (rewriteAt (fun p => tcontIdx (dbaMap (v % 256)) p.1 p.2)
        (fun p => tcontDefault (dbaMap (v % 256)) v p.1 p.2)) s.cfg := by
  unfold dbaTcontInit tconts
  rw [List.foldl_flatMap]
  simp only [List.foldl_map]
  rfl

theorem dbaMap_cases (mode : ℕ) :
    dbaMap mode = dbaMap 0 ∨ dbaMap mode = dbaMap 1 ∨ dbaMap mode = dbaMap 2 ∨
      dbaMap mode = dbaMap 3 := by
  by_cases h0 : mode = 0
  · rw [h0]
    exact .inl rfl
  by_cases h1 : mode = 1
  · rw [h1]
    exact .inr (.inl rfl)
  by_cases h2 : mode = 2
  · rw [h2]
    exact .inr (.inr (.inl rfl))
  · right; right; right
    unfold dbaMap
    rw [if_neg h0, if_neg h1, if_neg h2]
    rfl

/-- A map has a power of two of ONUs, and their T-CONTs fill the table. -/
theorem dbaMap_fills (mode : ℕ) :
    (dbaMap mode).nOnu = 2 ^ (dbaMap mode).idxShift ∧
      (dbaMap mode).nOnu * (dbaMap mode).nTc = allocNum := by
  rcases dbaMap_cases mode with h | h | h | h
  · rw [h]
    decide
  · rw [h]
    decide
  · rw [h]
    decide
  · rw [h]
    decide

/-- The loops come to every slot. -/
theorem tconts_all (mode : ℕ) :
    ∀ i < allocNum, ∃ p ∈ tconts (dbaMap mode), tcontIdx (dbaMap mode) p.1 p.2 = i := by
  obtain ⟨honu, htc⟩ := dbaMap_fills mode
  set m := dbaMap mode
  intro i hi
  have hpos : 0 < m.nOnu := by
    rw [honu]
    exact Nat.two_pow_pos _
  have hmod : i % m.nOnu < m.nOnu := Nat.mod_lt _ hpos
  have hdiv : i / m.nOnu < m.nTc := by
    rw [Nat.div_lt_iff_lt_mul hpos, Nat.mul_comm, htc]
    exact hi
  -- the ONU is in the low bits
  refine ⟨(i % m.nOnu, i / m.nOnu), ?_, ?_⟩
  · unfold tconts
    rw [List.mem_flatMap]
    exact ⟨_, List.mem_range.mpr hmod, List.mem_map_of_mem (List.mem_range.mpr hdiv)⟩
  · unfold tcontIdx
    rw [Nat.shiftLeft_eq, Nat.mul_comm, ← Nat.two_pow_add_eq_or_of_lt (by rwa [← honu]), ← honu]
    exact Nat.div_add_mod i m.nOnu

/-- With the upper flags clear, every slot gets its default. -/
theorem dbaTcontInit_defaults {s : Tcont} (hflags : ∀ i < allocNum, (s.cfg i).flags < 16)
    (hi : i < allocNum) : (dbaTcontInit v s).cfg i = defaults (v % 256) i := by
  unfold defaults
  rw [dbaTcontInit_cfg, dbaTcontInit_cfg, Nat.mod_mod]
  have hdefault : (fun p : ℕ × ℕ => tcontDefault (dbaMap (v % 256)) (v % 256) p.1 p.2) =
      fun p => tcontDefault (dbaMap (v % 256)) v p.1 p.2 := by
    funext p c
    unfold tcontDefault
    rw [show v % 256 % 4 = v % 4 by omega]
  rw [hdefault]
  apply foldl_update_congr
  · intro p
    have hlt := hflags i hi
    unfold tcontDefault
    have hclear : (s.cfg i).flags / 16 * 16 = noTcont.flags / 16 * 16 := by
      show _ = 0
      omega
    rw [hclear]
  · exact tconts_all _ i hi

/-- What every rewrite keeps, the loop keeps. -/
theorem foldl_update_keeps {ι : Type} (P : TcontCfg → Prop) (k : ι → ℕ)
    (f : ι → TcontCfg → TcontCfg) (l : List ι) (hf : ∀ p c, P c → P (f p c))
    (hcfg : ∀ i, P (cfg i)) : ∀ i, P (l.foldl (rewriteAt k f) cfg i) := by
  induction l generalizing cfg with
  | nil => exact hcfg
  | cons p l ih =>
    apply ih
    intro i
    by_cases hp : k p = i
    · rw [← hp, rewriteAt_self]
      exact hf p _ (hcfg _)
    · rw [rewriteAt_of_ne f cfg hp]
      exact hcfg i

/-- A default has the upper flags clear. -/
theorem defaults_flags (mode i : ℕ) : (defaults mode i).flags < 16 := by
  unfold defaults
  rw [dbaTcontInit_cfg]
  apply foldl_update_keeps fun c => c.flags < 16
  · intro p c hc
    unfold tcontDefault
    dsimp only
    omega
  · intro i
    show 0 < 16
    decide

/-! ## Mails -/

/-- A mail changes a T-CONT by what it was. -/
theorem Mail.edit_congr (mode : ℕ) (m : Mail) (h : cfg i = cfg' i) :
    m.edit mode cfg i = m.edit mode cfg' i := by
  cases m with
  | timerEn _ => exact h
  | onuState onu state =>
    simp only [Mail.edit]
    by_cases hs : state ≠ 0
    · rw [if_pos hs, if_pos hs]
      exact h
    · rw [if_neg hs, if_neg hs, h]
  | onuUsFec onu fec =>
    simp only [Mail.edit]
    rw [h]
  | tcontDba tcont _ _ _ _ _ =>
    simp only [Mail.edit]
    by_cases ht : i = tcont
    · rw [← ht, Function.update_self, Function.update_self, h]
    · rw [Function.update_of_ne ht, Function.update_of_ne ht, h]
  | tcontState tcont _ =>
    simp only [Mail.edit]
    by_cases ht : i = tcont
    · rw [← ht, Function.update_self, Function.update_self, h]
    · rw [Function.update_of_ne ht, Function.update_of_ne ht, h]
  | mappingMode _ => exact h

/-- No mail sets an upper flag. -/
theorem Mail.edit_flags (mode : ℕ) (m : Mail) (h : (cfg i).flags < 16) :
    (m.edit mode cfg i).flags < 16 := by
  cases m with
  | timerEn _ => exact h
  | onuState onu state =>
    simp only [Mail.edit]
    split_ifs
    · exact h
    · dsimp only
      split_ifs
      · show (cfg i).flags / 2 * 2 < 16
        omega
      · exact h
  | onuUsFec onu fec =>
    simp only [Mail.edit]
    split_ifs
    · show (cfg i).flags / 4 * 4 + fec % 2 * 2 + (cfg i).flags % 2 < 16
      omega
    · exact h
  | tcontDba tcont _ _ _ _ _ =>
    simp only [Mail.edit]
    by_cases ht : i = tcont
    · rw [← ht, Function.update_self]
      exact h
    · rw [Function.update_of_ne ht]
      exact h
  | tcontState tcont valid =>
    simp only [Mail.edit]
    by_cases ht : i = tcont
    · rw [← ht, Function.update_self]
      show (cfg i).flags / 2 * 2 + valid % 2 < 16
      omega
    · rw [Function.update_of_ne ht]
      exact h
  | mappingMode _ => exact h

/-- A mail that changes nothing leaves the table. -/
theorem Mail.edit_of_quiet (mode : ℕ) (h : m.changes = false) : m.edit mode cfg = cfg := by
  cases m with
  | timerEn _ => rfl
  | onuState onu state =>
    have hs : state ≠ 0 := of_decide_eq_false h
    simp only [Mail.edit]
    rw [if_pos hs]
  | onuUsFec _ _ => cases h
  | tcontDba _ _ _ _ _ _ => cases h
  | tcontState _ _ => cases h
  | mappingMode _ => cases h

theorem Mail.edit_of_mode {k : ℕ} (cfg : Table) (mode : ℕ) (h : m.newMode = some k) :
    m.edit mode cfg = cfg ∧ m.changes = true := by
  cases m with
  | mappingMode _ => exact ⟨rfl, rfl⟩
  | timerEn _ => cases h
  | onuState _ _ => cases h
  | onuUsFec _ _ => cases h
  | tcontDba _ _ _ _ _ _ => cases h
  | tcontState _ _ => cases h

/-! ## Runs -/

/-- The pending table is what the host wants, or it will be once the map
    mode is taken up; with nothing changed the contexts have it. -/
structure Sys.Agrees (s : Sys) : Prop where
  flags : ∀ i < allocNum, (s.dba.tcont.cfg i).flags < 16
  mode : s.dba.tcont.mode = s.wantMode
  table : s.dba.Settled → ∀ i < allocNum, s.dba.tcont.cfg i = s.want i
  pending : ¬s.dba.Settled → ∀ i < allocNum, s.want i = defaults s.wantMode i
  loaded : s.dba.tcont.changed = false → s.Applied

theorem agrees_boot (v : ℕ) : (boot v).Agrees := by
  have hcfg (i : ℕ) (hi : i < allocNum) : (boot v).dba.tcont.cfg i = (boot v).want i := by
    apply dbaTcontInit_defaults _ hi
    intro j _
    show 0 < 16
    decide
  constructor
  · intro i hi
    rw [hcfg i hi]
    exact defaults_flags _ _
  · rfl
  · intro _
    exact hcfg
  · intro _ i _
    rfl
  · intro _ i hi
    have hrun : (boot v).dba.run i = (boot v).dba.tcont.cfg i := if_pos hi
    rw [hrun]
    exact hcfg i hi

theorem agrees_mail {s : Sys} (hs : s.Agrees) (hg : s.dba.Heeds (.mail m)) :
    (s.next (.mail m)).Agrees := by
  obtain ⟨hnames, hother⟩ := hg
  have hflags (i : ℕ) (hi : i < allocNum) : ((s.next (.mail m)).dba.tcont.cfg i).flags < 16 :=
    m.edit_flags _ (hs.flags i hi)
  rcases hmode : m.newMode with _ | k
  · -- a mail for the table: the host's table changes as the pending one
    have hwant : (s.next (.mail m)).want = m.edit s.wantMode s.want := by
      show (m.newMode.map defaults).getD _ = _
      rw [hmode]
      rfl
    have hnext : (s.next (.mail m)).wantMode = s.wantMode := by
      show m.newMode.getD _ = _
      rw [hmode]
      rfl
    have htcont : (s.next (.mail m)).dba.tcont.mode = s.dba.tcont.mode := by
      show m.newMode.getD _ = _
      rw [hmode]
      rfl
    have hedit (i : ℕ) (hi : i < allocNum) (hset : s.dba.Settled) :
        (s.next (.mail m)).dba.tcont.cfg i = m.edit s.wantMode s.want i := by
      show m.edit s.dba.tcont.mode s.dba.tcont.cfg i = _
      rw [hs.mode]
      exact m.edit_congr _ (hs.table hset i hi)
    constructor
    · exact hflags
    · rw [htcont, hnext]
      exact hs.mode
    · intro hset i hi
      rw [hwant]
      apply hedit i hi
      unfold DbaData.Settled at hset ⊢
      rw [htcont] at hset
      exact hset
    · intro hset i hi
      -- a change while a mode is pending is excluded, so the mail is quiet
      have hset' : ¬s.dba.Settled := by
        unfold DbaData.Settled at hset ⊢
        rw [htcont] at hset
        exact hset
      have hquiet : m.changes = false := by
        rcases hc : m.changes with _ | _
        · rfl
        · exact absurd (hother hmode hc) hset'
      rw [hwant, hnext, m.edit_of_quiet _ hquiet]
      exact hs.pending hset' i hi
    · intro hch i hi
      have hboth := Bool.or_eq_false_iff.1 hch
      rw [hwant, m.edit_of_quiet _ hboth.2]
      exact hs.loaded hboth.1 i hi
  · -- a map mode: the table starts over
    obtain ⟨hedit, hchanges⟩ := m.edit_of_mode s.dba.tcont.cfg s.dba.tcont.mode hmode
    have hwant : (s.next (.mail m)).want = defaults k := by
      show (m.newMode.map defaults).getD _ = _
      rw [hmode]
      rfl
    have hnext : (s.next (.mail m)).wantMode = k := by
      show m.newMode.getD _ = _
      rw [hmode]
      rfl
    have htcont : (s.next (.mail m)).dba.tcont.mode = k := by
      show m.newMode.getD _ = _
      rw [hmode]
      rfl
    constructor
    · exact hflags
    · rw [htcont, hnext]
    · intro hset i hi
      have hk : k = s.dba.mode := by
        unfold DbaData.Settled at hset
        rw [htcont] at hset
        exact hset
      have hcfg : (s.next (.mail m)).dba.tcont.cfg = s.dba.tcont.cfg := hedit
      rw [hwant, hcfg]
      -- back to the mode in force: the pending table must be its defaults
      rcases hnames k hmode with hne | hdef
      · exact absurd hk hne
      · exact hdef i hi
    · intro _ i _
      rw [hwant, hnext]
    · intro hch
      have hboth := Bool.or_eq_false_iff.1 hch
      rw [hchanges] at hboth
      exact absurd hboth.2 (by decide)

/-- What a frame with the drain on and something changed does. -/
theorem applied_frame {s : Sys} (hs : s.Agrees) (hg : s.dba.Heeds (.frame v))
    (hen : s.dba.getTimerEn ≠ 0) (hch : s.dba.tcont.changed = true) :
    (s.next (.frame v)).Applied ∧ (s.next (.frame v)).Agrees := by
  by_cases hset : s.dba.Settled
  · have hnext : s.next (.frame v) = ⟨dbaTcontLoad s.dba, s.want, s.wantMode⟩ := by
      show Sys.mk (dbaFrameHandler s.dba v) _ _ = _
      have hsame : ¬s.dba.tcont.mode ≠ s.dba.mode := not_not.2 hset
      unfold dbaFrameHandler
      rw [if_pos ⟨hen, hch⟩, if_neg hsame]
    have happ : (s.next (.frame v)).Applied := by
      intro i hi
      rw [hnext]
      show (if i < allocNum then s.dba.tcont.cfg i else s.dba.run i) = s.want i
      rw [if_pos hi]
      exact hs.table hset i hi
    refine ⟨happ, ?_⟩
    rw [hnext] at happ ⊢
    exact ⟨hs.flags, hs.mode, hs.table, fun hno => absurd hset hno, fun _ => happ⟩
  · -- a pending mode: the table is made anew from the defaults
    have hv := hg hen hch hset
    have hnext : s.next (.frame v) =
        ⟨dbaTcontLoad { s.dba with
            tcont := dbaTcontInit v s.dba.tcont, mode := (dbaTcontInit v s.dba.tcont).mode },
          s.want, s.wantMode⟩ := by
      show Sys.mk (dbaFrameHandler s.dba v) _ _ = _
      have hdiff : s.dba.tcont.mode ≠ s.dba.mode := hset
      unfold dbaFrameHandler
      rw [if_pos ⟨hen, hch⟩, if_pos hdiff]
    have hmode : v % 256 = s.wantMode := hv.trans hs.mode
    have hcfg (i : ℕ) (hi : i < allocNum) : (dbaTcontInit v s.dba.tcont).cfg i = s.want i := by
      rw [dbaTcontInit_defaults hs.flags hi, hs.pending hset i hi, hmode]
    have happ : (s.next (.frame v)).Applied := by
      intro i hi
      rw [hnext]
      show (if i < allocNum then (dbaTcontInit v s.dba.tcont).cfg i else s.dba.run i) = s.want i
      rw [if_pos hi]
      exact hcfg i hi
    refine ⟨happ, ?_⟩
    rw [hnext] at happ ⊢
    constructor
    · intro i hi
      show ((dbaTcontInit v s.dba.tcont).cfg i).flags < 16
      rw [hcfg i hi, hs.pending hset i hi]
      exact defaults_flags _ _
    · exact hmode
    · intro _
      exact hcfg
    · intro hno
      exact absurd rfl hno
    · intro _
      exact happ

theorem agrees_frame {s : Sys} (hs : s.Agrees) (hg : s.dba.Heeds (.frame v)) :
    (s.next (.frame v)).Agrees := by
  by_cases hrun : s.dba.getTimerEn ≠ 0 ∧ s.dba.tcont.changed
  · exact (applied_frame hs hg hrun.1 hrun.2).2
  · have hnext : s.next (.frame v) = s := by
      show Sys.mk (dbaFrameHandler s.dba v) _ _ = _
      unfold dbaFrameHandler
      rw [if_neg hrun]
    rw [hnext]
    exact hs

theorem agrees_of_reachable {s : Sys} (h : (system.guarded fun s a => s.dba.Heeds a).Reachable s) :
    s.Agrees := by
  refine h.invariant ?_ ?_
  · rintro _ ⟨v, rfl⟩
    exact agrees_boot v
  · rintro s a s' hs ⟨hg, rfl⟩
    rcases a with m | v
    · exact agrees_mail hs hg
    · exact agrees_frame hs hg

/-- In a run whose steps all heed the pending map mode, a frame with the
    drain on brings every T-CONT to what the host wants. -/
theorem mails_applied (s : Sys) (v : ℕ)
    (h : (system.guarded fun s a => s.dba.Heeds a).Reachable s) (hg : s.dba.Heeds (.frame v))
    (hen : s.dba.getTimerEn ≠ 0) : (s.next (.frame v)).Applied := by
  have hs := agrees_of_reachable h
  rcases hch : s.dba.tcont.changed with _ | _
  · have hnext : s.next (.frame v) = s := by
      show Sys.mk (dbaFrameHandler s.dba v) _ _ = _
      unfold dbaFrameHandler
      rw [if_neg (by rw [hch]; exact fun hno => Bool.false_ne_true hno.2)]
    rw [hnext]
    exact hs.loaded hch
  · exact (applied_frame hs hg hen hch).1

/-- A chip that boots in a map mode, the drain enabled and one T-CONT
    granted. -/
def granted (v : ℕ) : Sys :=
  ((boot v).next (.mail (.timerEn 1))).next (.mail (.tcontDba 5 5 3 0 100 1000))

theorem granted_heeds (v : ℕ) (hv : v % 256 = 0) :
    (boot v).dba.Heeds (.mail (.timerEn 1)) ∧
      ((boot v).next (.mail (.timerEn 1))).dba.Heeds (.mail (.tcontDba 5 5 3 0 100 1000)) := by
  refine ⟨⟨?_, ?_⟩, ?_, ?_⟩
  · intro k hk
    cases hk
  · intro _ hch
    cases hch
  · intro k hk
    cases hk
  · intro _ _
    exact hv

/-- On a chip that reports map mode 0, a T-CONT granted after boot has its
    grant after the next frame. -/
theorem mails_applied_granted : ((granted 0).next (.frame 0)).Applied := by
  have hheeds := granted_heeds 0 rfl
  apply mails_applied (granted 0) 0
  · exact .step _ (.step _ (.init ⟨0, rfl⟩) ⟨hheeds.1, rfl⟩) ⟨hheeds.2, rfl⟩
  · intro _ _ hset
    exact absurd rfl hset
  · decide

/-- On a chip that reports map mode 1, the first frame puts the defaults
    in the place of the grant. -/
theorem granted_lost :
    ¬∀ (s : Sys) (v : ℕ), system.Reachable s → s.dba.getTimerEn ≠ 0 →
      (s.next (.frame v)).Applied := by
  intro hall
  have hreach : system.Reachable (granted 1) := .step _ (.step _ (.init ⟨1, rfl⟩) rfl) rfl
  have happ := hall (granted 1) 1 hreach (by decide) 5 (by decide)
  have hrun : (((granted 1).next (.frame 1)).dba.run 5).maxBw = 0 := by decide +kernel
  have hwant : (((granted 1).next (.frame 1)).want 5).maxBw = 1000 := by decide +kernel
  rw [happ, hwant] at hrun
  exact absurd hrun (by decide)

end ClankerNPU.Dba
