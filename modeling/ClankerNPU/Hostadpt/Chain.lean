import ClankerNPU.Hostadpt.Drain

/-! # Chained frames

    `eagle_mseg_drain` takes one chained frame out of the multi-segment
    queue. With `HAS_ASYNC_COPY` the segments go to the out ring together
    (`host_out_chain`), else one by one. The queue is modelled as it
    stands once the waiting for a late segment is over. -/

namespace ClankerNPU.Hostadpt

open Circular
open EagleRx (eagleMsegEntries)

/-! ## The queue -/

/-- A multi-segment queue entry. -/
structure MsegWords where
  bufId : BitVec 32
  /-- the frame's length -/
  frame : BitVec 16
  /-- the segment's length -/
  seg : BitVec 16
  flags : BitVec 8

def MsegWords.valid (c : MsegWords) : Bool := c.flags &&& 1#8 ≠ 0#8

def MsegWords.last (c : MsegWords) : Bool := c.flags &&& 2#8 ≠ 0#8

/-- An entry given back to the producer. -/
def msegCleared : MsegWords := ⟨0xFFFFFFFF#32, 0#16, 0#16, 0#8⟩

/-- `(idx + 1 == EAGLE_MSEG_ENTRIES) ? 0 : idx + 1` -/
def msegNext (idx : ℕ) : ℕ := if idx + 1 = eagleMsegEntries then 0 else idx + 1

/-- Collect a frame from `idx` on: whether its segments fit, and how many
    entries it takes. A count has three bits, so eight rounds suffice. -/
def msegCollect (cell : ℕ → MsegWords) : ℕ → ℕ → ℕ → Option (Bool × ℕ)
  | 0, _, _ => none
  | fuel + 1, idx, segs =>
    let c := cell idx
    if c.valid = false then none
    else
      let count := (c.flags >>> 5).toNat
      let thisIdx := ((c.flags >>> 2) &&& 7#8).toNat
      let segs := segs + 1
      if c.last then some (decide (count = segs ∧ thisIdx = segs), segs)
      else if segs ≥ count then some (false, segs)
      else msegCollect cell fuel (msegNext idx) segs

/-- The arguments of `host_ring_submit` for a segment. -/
def MsegWords.out (m : RxBufs) (c : MsegWords) : OutFrame where
  bufAddr := m.phys c.bufId
  pktLen := c.frame.setWidth 32
  wcid := 0#32
  amsdu := 0#32
  fwdType := (c.flags >>> 2).setWidth 32
  origLen := c.seg.setWidth 32
  isLast := if c.last then 1#32 else 0#32
  info := m.word (m.uncached c.bufId)

/-- `struct host_seg` -/
structure HostSeg where
  src : BitVec 32
  info : BitVec 32
  frame : BitVec 32
  seg : BitVec 32
  fwdType : BitVec 32
  last : BitVec 32

def MsegWords.hostSeg (m : RxBufs) (c : MsegWords) : HostSeg where
  src := m.phys c.bufId
  info := m.word (m.uncached c.bufId)
  frame := c.frame.setWidth 32
  seg := c.seg.setWidth 32
  fwdType := (c.flags >>> 2).setWidth 32
  last := if c.last then 1#32 else 0#32

/-! ## The chain -/

/-- The length `host_out_chain` copies. -/
def HostSeg.len (s : HostSeg) : BitVec 32 :=
  if s.seg > hostadptBufferLen then hostadptBufferLen else s.seg

def HostSeg.word1 (s : HostSeg) : BitVec 32 := (s.fwdType &&& 0x3F#32) <<< 26

def HostSeg.word0 (s : HostSeg) : BitVec 32 :=
  1#32 ||| ((s.seg &&& 0x3FFF#32) <<< 1) ||| ((s.frame &&& 0x3FFF#32) <<< 15) |||
    ((s.last &&& 1#32) <<< 29)

/-- Every copy, from the slot at the out index on. -/
def chainCopies : List HostSeg → ℕ → HostRing → HostRing × ℕ
  | [], slot, r => (r, slot)
  | s :: segs, slot, r =>
    chainCopies segs (outNext slot) ((r.copy ⟨slot, s.src, (r.desc slot).d3, s.len⟩).wait)

/-- The words, from the last segment to the first. -/
def chainWords : List HostSeg → ℕ → HostRing → HostRing
  | [], _, r => r
  | s :: segs, k, r => (chainWords segs (k + 1) r).publish (outWrap k) s.info s.word1 s.word0

/-- `host_out_chain` -/
def hostOutChain (counting : Bool) (segs : List HostSeg) (r : HostRing) : Bool × HostRing :=
  let idx := r.idx
  let check := outWrap (idx + segs.length + 1)
  if counting = true ∨ (r.desc check).ready = true then (false, r)
  else
    let res := chainCopies segs idx r
    let r := chainWords segs idx res.1
    (true, { r with idx := res.2 })

/-! ## The drain -/

structure MsegState where
  out : HostRing
  cell : ℕ → MsegWords
  /-- `eagle_mseg_ridx` -/
  idx : ℕ
  /-- `dbg.rxout`, `dbg.rxoutfail` -/
  rxout : ℕ
  rxoutfail : ℕ

/-- The frame's entries read and given back. -/
def msegTake (m : RxBufs) : ℕ → MsegState → List HostSeg × List (BitVec 16) × MsegState
  | 0, s => ([], [], s)
  | n + 1, s =>
    let c := s.cell s.idx
    let res := msegTake m n
      { s with cell := Function.update s.cell s.idx msegCleared, idx := msegNext s.idx }
    (c.hostSeg m :: res.1, c.bufId.setWidth 16 :: res.2.1, res.2.2)

/-- The drain of `n` entries with `HAS_ASYNC_COPY`. -/
def msegAsync (counting : Bool) (m : RxBufs) (ok : Bool) (n : ℕ) (s : MsegState) : MsegState :=
  let res := msegTake m n s
  let s := res.2.2
  let s := if ok then
      let chain := hostOutChain counting res.1 s.out
      { s with
        out := chain.2
        rxout := s.rxout + n
        rxoutfail := if chain.1 then s.rxoutfail else s.rxoutfail + 1 }
    else s
  { s with out := res.2.1.foldl HostRing.free s.out }

/-- The drain of `n` entries without it, segment by segment. -/
def msegSync (m : RxBufs) (ok : Bool) : ℕ → MsegState → MsegState
  | 0, s => s
  | n + 1, s =>
    let c := s.cell s.idx
    let s := if ok then
        { s with out := (hostRingSubmit (c.out m) s.out).2, rxout := s.rxout + 1 }
      else s
    msegSync m ok n
      { s with
        out := s.out.free (c.bufId.setWidth 16)
        cell := Function.update s.cell s.idx msegCleared
        idx := msegNext s.idx }

/-- `eagle_mseg_drain` -/
def eagleMsegDrain (async counting : Bool) (m : RxBufs) (s : MsegState) : MsegState :=
  match msegCollect s.cell 8 s.idx 0 with
  | none => s
  | some (ok, n) => if async then msegAsync counting m ok n s else msegSync m ok n s

/-! ## What is asked -/

/-- The flags of segment `i` of a frame of `n`. -/
def segFlags (i n : ℕ) : BitVec 8 :=
  BitVec.ofNat 8 (1 + (if i + 1 = n then 2 else 0) + 4 * (i + 1) + 32 * n)

/-- A chained frame at the queue's read index. -/
structure FrameAt (cell : ℕ → MsegWords) (idx n : ℕ) : Prop where
  idx_lt : idx < eagleMsegEntries
  two_le : 2 ≤ n
  le : n ≤ 7
  flags : ∀ i < n, (cell ((idx + i) % eagleMsegEntries)).flags = segFlags i n

/-- Segments in consecutive slots of the out ring, from `idx` on, and no
    other slot changed. -/
structure Placed (fs : List OutFrame) (idx : ℕ) (d d' : ℕ → OutDesc) : Prop where
  placed : ∀ i f, fs[i]? = some f → d' ((idx + i) % hostadptRingSize)
    = ⟨f.word0, f.word1, f.info, (d ((idx + i) % hostadptRingSize)).d3⟩
  kept : ∀ j, (∀ i < fs.length, j ≠ (idx + i) % hostadptRingSize) → d' j = d j

/-- All segments are published, the last flag on the last one only. -/
structure PublishedAll (fs : List OutFrame) (r r' : HostRing) : Prop where
  idx : r'.idx = (r.idx + fs.length) % hostadptRingSize
  placed : Placed fs r.idx r.desc r'.desc
  last : ∀ i < fs.length, (r'.desc ((r.idx + i) % hostadptRingSize)).d0.getLsbD 29
    = decide (i + 1 = fs.length)

/-- No segment is published. -/
structure PublishedNone (r r' : HostRing) : Prop where
  idx : r'.idx = r.idx
  desc : r'.desc = r.desc

/-- The ids a trace gives back. -/
def freedIds (t : List OutEvent) : List (BitVec 16) := t.filterMap fun
  | .freed id => some id
  | _ => none

/-- The frame reaches the host whole or not at all, and every buffer id is
    given back once, after its last use. -/
structure WholeOrNone (m : RxBufs) (n : ℕ) (s s' : MsegState) : Prop where
  whole : PublishedAll ((window s.cell eagleMsegEntries s.idx n).map (·.out m)) s.out s'.out ∨
    PublishedNone s.out s'.out
  freed : freedIds s'.out.trace
    = (window s.cell eagleMsegEntries s.idx n).map (·.bufId.setWidth 16)
  order : InOrder s'.out.trace

/-! ## Collecting -/

variable {m : RxBufs} {s : MsegState} {r : HostRing} {k n : ℕ}

/-- The fields of a segment's flags. -/
theorem segFlags_fields : ∀ n < 8, ∀ i < n, segFlags i n &&& 1#8 ≠ 0#8 ∧
    (segFlags i n &&& 2#8 ≠ 0#8 ↔ i + 1 = n) ∧ (segFlags i n >>> 5).toNat = n ∧
    ((segFlags i n >>> 2) &&& 7#8).toNat = i + 1 := by
  decide

theorem msegNext_eq {idx : ℕ} (h : idx < eagleMsegEntries) :
    msegNext idx = (idx + 1) % eagleMsegEntries := by
  unfold msegNext eagleMsegEntries at *
  split <;> omega

theorem FrameAt.last_iff {cell : ℕ → MsegWords} {idx i : ℕ} (h : FrameAt cell idx n) (hi : i < n) :
    (cell ((idx + i) % eagleMsegEntries)).last = decide (i + 1 = n) := by
  obtain ⟨-, hlast, -, -⟩ := segFlags_fields n (by have := h.le; omega) i hi
  unfold MsegWords.last
  rw [h.flags i hi, decide_eq_decide]
  exact hlast

/-- A chained frame is collected to its last segment. -/
theorem FrameAt.collect {cell : ℕ → MsegWords} {idx : ℕ} (h : FrameAt cell idx n) :
    msegCollect cell 8 idx 0 = some (true, n) := by
  have hgo : ∀ fuel j, j < n → n - j ≤ fuel →
      msegCollect cell fuel ((idx + j) % eagleMsegEntries) j = some (true, n) := by
    intro fuel
    induction fuel with
    | zero =>
      intro j hj hfuel
      omega
    | succ fuel ih =>
      intro j hj hfuel
      obtain ⟨hvalid, -, hcount, hthis⟩ := segFlags_fields n (by have := h.le; omega) j hj
      have hv : ¬ (cell ((idx + j) % eagleMsegEntries)).valid = false := by
        unfold MsegWords.valid
        rw [h.flags j hj, decide_eq_false_iff_not]
        exact fun hno => hno hvalid
      unfold msegCollect
      dsimp only
      rw [if_neg hv, h.flags j hj, hcount, hthis, h.last_iff hj]
      by_cases hlast : j + 1 = n
      · rw [if_pos (decide_eq_true hlast), hlast]
        simp
      · rw [if_neg (by simpa using hlast), if_neg (by omega),
          msegNext_eq (Nat.mod_lt _ (by decide)), Nat.mod_add_mod, Nat.add_assoc]
        exact ih (j + 1) (by omega) (by omega)
  have hfirst := hgo 8 0 (by have := h.two_le; omega) (by have := h.le; omega)
  rwa [Nat.add_zero, Nat.mod_eq_of_lt h.idx_lt] at hfirst

/-! ## Freed ids -/

theorem freedIds_append (t t' : List OutEvent) : freedIds (t ++ t') = freedIds t ++ freedIds t' :=
  List.filterMap_append

theorem freedIds_free (r : HostRing) (id : BitVec 16) :
    freedIds (r.free id).trace = freedIds r.trace ++ [id] := freedIds_append _ _

/-- An accepted submit frees nothing. -/
theorem freedIds_submitted (f : OutFrame) (r : HostRing) :
    freedIds (submitted f r).trace = freedIds r.trace := by
  let c : Copy := ⟨r.idx, f.bufAddr, (r.desc r.idx).d3, f.copyLen⟩
  have htrace : (submitted f r).trace = r.trace ++ [.start c] ++ [.done c] ++ [.ready r.idx] := rfl
  rw [htrace, freedIds_append, freedIds_append, freedIds_append]
  show freedIds r.trace ++ [] ++ [] ++ [] = freedIds r.trace
  rw [List.append_nil, List.append_nil, List.append_nil]

/-- Giving ids back touches the trace only. -/
theorem foldl_free_spec (ids : List (BitVec 16)) (r : HostRing) :
    (ids.foldl HostRing.free r).desc = r.desc ∧ (ids.foldl HostRing.free r).idx = r.idx ∧
      freedIds (ids.foldl HostRing.free r).trace = freedIds r.trace ++ ids := by
  induction ids generalizing r with
  | nil => exact ⟨rfl, rfl, (List.append_nil _).symm⟩
  | cons id ids ih =>
    obtain ⟨hdesc, hidx, hfreed⟩ := ih (r.free id)
    refine ⟨hdesc, hidx, ?_⟩
    rw [List.foldl_cons, hfreed, freedIds_free, List.append_assoc]
    rfl

/-! ## Consecutive slots -/

section Slots

variable {fs : List OutFrame} {f : OutFrame} {idx : ℕ} {d d' : ℕ → OutDesc}

theorem Placed.nil (idx : ℕ) (d : ℕ → OutDesc) : Placed [] idx d d :=
  ⟨fun _ _ h => absurd h nofun, fun _ _ => rfl⟩

/-- The slots behind the first are other slots. -/
theorem slot_ne {i : ℕ} (hi : i + 1 < hostadptRingSize) :
    ((idx + 1) % hostadptRingSize + i) % hostadptRingSize ≠ idx := by
  unfold hostadptRingSize at *
  omega

theorem slot_succ (idx i : ℕ) : (idx + (i + 1)) % hostadptRingSize
    = ((idx + 1) % hostadptRingSize + i) % hostadptRingSize := by
  rw [Nat.mod_add_mod]
  congr 1
  omega

/-- The first segment, then the rest. -/
theorem Placed.head (hidx : idx < hostadptRingSize) (hlen : fs.length < hostadptRingSize)
    (h : Placed fs ((idx + 1) % hostadptRingSize)
      (Function.update d idx ⟨f.word0, f.word1, f.info, (d idx).d3⟩) d') :
    Placed (f :: fs) idx d d' := by
  constructor
  · intro i g hg
    cases i with
    | zero =>
      obtain rfl := Option.some.inj hg
      have hkept := h.kept idx fun i hi heq => slot_ne (by omega) heq.symm
      rw [Nat.add_zero, Nat.mod_eq_of_lt hidx, hkept, Function.update_self]
    | succ i =>
      have hi : i + 1 < (f :: fs).length := (List.getElem?_eq_some_iff.mp hg).1
      rw [List.length_cons] at hi
      have hrest := h.placed i g hg
      rw [Function.update_of_ne (slot_ne (by omega))] at hrest
      rw [slot_succ]
      exact hrest
  · intro j hj
    have hfirst := hj 0 (Nat.succ_pos _)
    rw [Nat.add_zero, Nat.mod_eq_of_lt hidx] at hfirst
    rw [h.kept j, Function.update_of_ne hfirst]
    intro i hi
    rw [← slot_succ]
    exact hj (i + 1) (Nat.succ_lt_succ hi)

/-- The rest, then the first segment. -/
theorem Placed.tail (hidx : idx < hostadptRingSize) (hlen : fs.length < hostadptRingSize)
    (h : Placed fs ((idx + 1) % hostadptRingSize) d d') :
    Placed (f :: fs) idx d
      (Function.update d' idx { d' idx with d0 := f.word0, d1 := f.word1, d2 := f.info }) := by
  constructor
  · intro i g hg
    cases i with
    | zero =>
      obtain rfl := Option.some.inj hg
      have hkept := h.kept idx fun i hi heq => slot_ne (by omega) heq.symm
      rw [Nat.add_zero, Nat.mod_eq_of_lt hidx, Function.update_self, hkept]
    | succ i =>
      have hi : i + 1 < (f :: fs).length := (List.getElem?_eq_some_iff.mp hg).1
      rw [List.length_cons] at hi
      rw [slot_succ, Function.update_of_ne (slot_ne (by omega))]
      exact h.placed i g hg
  · intro j hj
    have hfirst := hj 0 (Nat.succ_pos _)
    rw [Nat.add_zero, Nat.mod_eq_of_lt hidx] at hfirst
    rw [Function.update_of_ne hfirst]
    apply h.kept j
    intro i hi
    rw [← slot_succ]
    exact hj (i + 1) (Nat.succ_lt_succ hi)

end Slots

/-! ## The queue's window -/

section Queue

variable {cell : ℕ → MsegWords} {idx : ℕ}

theorem window_cons (h : idx < eagleMsegEntries) : window cell eagleMsegEntries idx (n + 1)
    = cell idx :: window cell eagleMsegEntries ((idx + 1) % eagleMsegEntries) n := by
  rw [Nat.add_comm n 1, window_add, window_one _ h]
  rfl

/-- An entry given back is not among those still to come. -/
theorem window_cleared (hn : n < eagleMsegEntries) (v : MsegWords) :
    window (Function.update cell idx v) eagleMsegEntries ((idx + 1) % eagleMsegEntries) n
      = window cell eagleMsegEntries ((idx + 1) % eagleMsegEntries) n := by
  apply window_congr
  intro j hj
  apply Function.update_of_ne
  unfold eagleMsegEntries at *
  omega

end Queue

/-! ## Segment by segment -/

/-- What the synchronous drain of a whole frame leaves. -/
structure SyncSpec (m : RxBufs) (n k : ℕ) (s s' : MsegState) : Prop where
  tidy : Tidy s'.out
  freed : freedIds s'.out.trace = freedIds s.out.trace ++
    (window s.cell eagleMsegEntries s.idx n).map (·.bufId.setWidth 16)
  /-- as many segments are taken as there is room -/
  idx : s'.out.idx = (s.out.idx + min n (k - 2)) % hostadptRingSize
  all : n + 2 ≤ k →
    Placed ((window s.cell eagleMsegEntries s.idx n).map (·.out m)) s.out.idx s.out.desc s'.out.desc
  none : k ≤ 2 → s'.out.desc = s.out.desc

theorem msegSync_spec (hrun : FreeRun s.out k) (htidy : Tidy s.out) (hidle : s.out.flying = none)
    (hidx : s.idx < eagleMsegEntries) (hn : n < eagleMsegEntries) :
    SyncSpec m n k s (msegSync m true n s) := by
  -- on the segments left; each is taken while two slots stay free
  induction n generalizing s k with
  | zero =>
    refine ⟨htidy, (List.append_nil _).symm, ?_, fun _ => .nil _ _, fun _ => rfl⟩
    rw [Nat.zero_min, Nat.add_zero, Nat.mod_eq_of_lt hrun.idx_lt]
    rfl
  | succ n ih =>
    have hsize : hostadptRingSize = 512 := rfl
    have hentries : eagleMsegEntries = 128 := rfl
    let c := s.cell s.idx
    let out := (hostRingSubmit (c.out m) s.out).2
    let s₁ : MsegState := ⟨out.free (c.bufId.setWidth 16),
      Function.update s.cell s.idx msegCleared, msegNext s.idx, s.rxout + 1, s.rxoutfail⟩
    have hloop : msegSync m true (n + 1) s = msegSync m true n s₁ := rfl
    have hnext : s₁.idx = (s.idx + 1) % eagleMsegEntries := msegNext_eq hidx
    have hnext_lt : s₁.idx < eagleMsegEntries := by
      rw [hnext]
      exact Nat.mod_lt _ (by decide)
    have hrest : window s₁.cell eagleMsegEntries s₁.idx n
        = window s.cell eagleMsegEntries ((s.idx + 1) % eagleMsegEntries) n := by
      rw [hnext]
      exact window_cleared (by omega) _
    rw [hloop]
    by_cases hroom : 2 < k
    · -- the segment is taken
      have hout : out = submitted (c.out m) s.out := by
        show (hostRingSubmit (c.out m) s.out).2 = _
        rw [hrun.submit_accepted hroom]
      have hrun₁ : FreeRun s₁.out (k - 1) := by
        show FreeRun (out.free _) (k - 1)
        rw [hout]
        have hsub := hrun.submitted (f := c.out m) (by omega)
        exact ⟨hsub.idx_lt, hsub.le, hsub.free⟩
      have hquiet : out.flying = none := by
        rw [hout]
        exact wait_flying _
      have htidy₁ : Tidy s₁.out := by
        apply Tidy.free _ hquiet
        rw [hout]
        exact htidy.submitted hidle _
      have hspec := ih hrun₁ htidy₁ hquiet hnext_lt (by omega)
      have hidx₁ : s₁.out.idx = (s.out.idx + 1) % hostadptRingSize := by
        show out.idx = _
        rw [hout]
        exact outNext_eq hrun.idx_lt
      have hdesc₁ : s₁.out.desc = Function.update s.out.desc s.out.idx
          ⟨(c.out m).word0, (c.out m).word1, (c.out m).info, (s.out.desc s.out.idx).d3⟩ := by
        show out.desc = _
        rw [hout]
        rfl
      refine ⟨hspec.tidy, ?_, ?_, ?_, fun hk => by omega⟩
      · rw [hspec.freed, hrest, window_cons hidx, List.map_cons]
        show freedIds (out.free _).trace ++ _ = _
        rw [freedIds_free, hout, freedIds_submitted, List.append_assoc]
        rfl
      · rw [hspec.idx, hidx₁, Nat.mod_add_mod]
        congr 1
        omega
      · intro hk
        have hplaced := hspec.all (by omega)
        rw [hrest, hidx₁, hdesc₁] at hplaced
        rw [window_cons hidx, List.map_cons]
        exact hplaced.head hrun.idx_lt (by rw [List.length_map, length_window]; omega)
    · -- and refused like all that follow
      have hout : out = s.out := by
        show (hostRingSubmit (c.out m) s.out).2 = _
        rw [hrun.submit_refused (by omega)]
      have hrun₁ : FreeRun s₁.out k := by
        show FreeRun (out.free _) k
        rw [hout]
        exact ⟨hrun.idx_lt, hrun.le, hrun.free⟩
      have hquiet : out.flying = none := by
        rw [hout]
        exact hidle
      have htidy₁ : Tidy s₁.out := by
        apply Tidy.free _ hquiet
        rw [hout]
        exact htidy
      have hspec := ih hrun₁ htidy₁ hquiet hnext_lt (by omega)
      have hidx₁ : s₁.out.idx = s.out.idx := by
        show out.idx = _
        rw [hout]
      refine ⟨hspec.tidy, ?_, ?_, fun hk => by omega, fun hk => ?_⟩
      · rw [hspec.freed, hrest, window_cons hidx, List.map_cons]
        show freedIds (out.free _).trace ++ _ = _
        rw [freedIds_free, hout, List.append_assoc]
        rfl
      · rw [hspec.idx, hidx₁]
        congr 1
        omega
      · rw [hspec.none hk]
        show out.desc = _
        rw [hout]

/-! ## All at once -/

/-- Both ways store the same words. -/
theorem hostSeg_word1 (m : RxBufs) (c : MsegWords) : (c.hostSeg m).word1 = (c.out m).word1 := by
  show ((c.flags >>> 2).setWidth 32 &&& 0x3F#32) <<< 26 = _
  unfold OutFrame.word1 MsegWords.out
  simp

theorem hostSeg_word0 (m : RxBufs) (c : MsegWords) : (c.hostSeg m).word0 = (c.out m).word0 := rfl

theorem freedIds_copy_wait (r : HostRing) (c : Copy) :
    freedIds (r.copy c).wait.trace = freedIds r.trace := by
  show freedIds (r.trace ++ [.start c] ++ [.done c]) = _
  rw [freedIds_append, freedIds_append]
  show freedIds r.trace ++ [] ++ [] = freedIds r.trace
  rw [List.append_nil, List.append_nil]

theorem freedIds_publish (r : HostRing) (slot : ℕ) (w2 w1 w0 : BitVec 32) :
    freedIds (r.publish slot w2 w1 w0).trace = freedIds r.trace := by
  show freedIds (r.trace ++ [.ready slot]) = _
  rw [freedIds_append]
  exact List.append_nil _

/-- The copies end, each for its slot, and change no descriptor. -/
theorem chainCopies_spec (segs : List HostSeg) {slot : ℕ} (hslot : slot < hostadptRingSize)
    (htidy : Tidy r) (hidle : r.flying = none) :
    let res := chainCopies segs slot r
    Tidy res.1 ∧ res.1.flying = none ∧ res.1.desc = r.desc ∧ res.1.idx = r.idx ∧
      freedIds res.1.trace = freedIds r.trace ∧ res.2 = (slot + segs.length) % hostadptRingSize ∧
      (∀ e ∈ r.trace, e ∈ res.1.trace) ∧
      ∀ i < segs.length, ∃ c : Copy, .done c ∈ res.1.trace ∧
        c.slot = (slot + i) % hostadptRingSize := by
  -- each copy is waited for before the next starts
  induction segs generalizing slot r with
  | nil =>
    exact ⟨htidy, hidle, rfl, rfl, rfl, (Nat.mod_eq_of_lt hslot).symm, fun _ he => he,
      fun _ hi => absurd hi (Nat.not_lt_zero _)⟩
  | cons s segs ih =>
    let c : Copy := ⟨slot, s.src, (r.desc slot).d3, s.len⟩
    have hnext := outNext_eq hslot
    have hlt : outNext slot < hostadptRingSize := by
      rw [hnext]
      exact Nat.mod_lt _ (by decide)
    obtain ⟨htidy', hidle', hdesc, hidx, hfreed, hend, hmem, hdone⟩ :=
      ih hlt (htidy.copy hidle c).wait (wait_flying _)
    have hstep : chainCopies (s :: segs) slot r
        = chainCopies segs (outNext slot) (r.copy c).wait := rfl
    rw [hstep]
    refine ⟨htidy', hidle', hdesc, hidx, ?_, ?_, ?_, ?_⟩
    · rw [hfreed, freedIds_copy_wait]
    · rw [hend, hnext, Nat.mod_add_mod, List.length_cons]
      congr 1
      omega
    · intro e he
      exact hmem e (List.mem_append_left _ (List.mem_append_left _ he))
    · intro i hi
      cases i with
      | zero =>
        refine ⟨c, hmem _ (done_wait rfl), ?_⟩
        rw [Nat.add_zero, Nat.mod_eq_of_lt hslot]
      | succ i =>
        obtain ⟨c', hc', hcs⟩ := hdone i (Nat.lt_of_succ_lt_succ hi)
        refine ⟨c', hc', hcs.trans ?_⟩
        rw [hnext]
        exact (slot_succ slot i).symm

/-- The words go to consecutive slots whose copies ended. -/
theorem chainWords_spec (cs : List MsegWords) {i : ℕ} (hi : i + cs.length < 2 * hostadptRingSize)
    (hlen : cs.length ≤ hostadptRingSize) (htidy : Tidy r) (hdone : ∀ j < cs.length,
      ∃ c : Copy, .done c ∈ r.trace ∧ c.slot = (i + j) % hostadptRingSize) :
    let r' := chainWords (cs.map (·.hostSeg m)) i r
    Tidy r' ∧ r'.flying = r.flying ∧ freedIds r'.trace = freedIds r.trace ∧
      (∀ e ∈ r.trace, e ∈ r'.trace) ∧
      Placed (cs.map (·.out m)) (i % hostadptRingSize) r.desc r'.desc := by
  -- from the last slot to the first, so that the chain appears at once
  induction cs generalizing i with
  | nil => exact ⟨htidy, rfl, rfl, fun _ he => he, .nil _ _⟩
  | cons c cs ih =>
    rw [List.length_cons] at hi hlen
    obtain ⟨htidy', hflying, hfreed, hmem, hplaced⟩ := ih (i := i + 1) (by omega) (by omega) (by
      intro j hj
      obtain ⟨c', hc', hcs⟩ := hdone (j + 1) (Nat.succ_lt_succ hj)
      refine ⟨c', hc', hcs.trans ?_⟩
      congr 1
      omega)
    obtain ⟨c₀, hc₀, hslot⟩ := hdone 0 (Nat.succ_pos _)
    rw [Nat.add_zero] at hslot
    have hwrap : outWrap i = c₀.slot := (outWrap_eq (by omega)).trans hslot.symm
    have hstep : chainWords ((c :: cs).map (·.hostSeg m)) i r
        = (chainWords (cs.map (·.hostSeg m)) (i + 1) r).publish c₀.slot (c.out m).info
          (c.out m).word1 (c.out m).word0 := by
      rw [← hwrap, ← hostSeg_word1, ← hostSeg_word0]
      rfl
    rw [hstep]
    refine ⟨htidy'.publish (hmem _ hc₀) _ _ _, hflying, ?_, ?_, ?_⟩
    · rw [freedIds_publish, hfreed]
    · intro e he
      exact List.mem_append_left _ (hmem e he)
    · rw [hslot, List.map_cons]
      rw [← Nat.mod_add_mod] at hplaced
      exact hplaced.tail (Nat.mod_lt _ (by decide)) (by rw [List.length_map]; omega)

/-- What the chain leaves: all segments, or nothing. -/
theorem hostOutChain_spec (counting : Bool) (cs : List MsegWords) (hrun : FreeRun r k)
    (hlen : cs.length + 1 < hostadptRingSize) (htidy : Tidy r) (hidle : r.flying = none) :
    let r' := (hostOutChain counting (cs.map (·.hostSeg m)) r).2
    Tidy r' ∧ r'.flying = none ∧ freedIds r'.trace = freedIds r.trace ∧
      (r' = r ∨ r'.idx = (r.idx + cs.length) % hostadptRingSize ∧
        Placed (cs.map (·.out m)) r.idx r.desc r'.desc) := by
  have hidx := hrun.idx_lt
  dsimp only
  unfold hostOutChain
  dsimp only
  split
  · exact ⟨htidy, hidle, rfl, .inl rfl⟩
  · obtain ⟨htidy₁, hidle₁, hdesc₁, hidx₁, hfreed₁, hend, -, hdone⟩ :=
      chainCopies_spec (cs.map (·.hostSeg m)) hidx htidy hidle
    rw [List.length_map] at hend hdone
    obtain ⟨htidy₂, hidle₂, hfreed₂, -, hplaced⟩ :=
      chainWords_spec (m := m) cs (by omega) (by omega) htidy₁ hdone
    rw [hdesc₁, Nat.mod_eq_of_lt hidx] at hplaced
    exact ⟨htidy₂.setIdx _, hidle₂.trans hidle₁, hfreed₂.trans hfreed₁, .inr ⟨hend, hplaced⟩⟩

/-- The frame's entries as the drain reads them. -/
theorem msegTake_spec (hidx : s.idx < eagleMsegEntries) (hn : n < eagleMsegEntries) :
    (msegTake m n s).1 = (window s.cell eagleMsegEntries s.idx n).map (·.hostSeg m) ∧
      (msegTake m n s).2.1
        = (window s.cell eagleMsegEntries s.idx n).map (·.bufId.setWidth 16) ∧
      (msegTake m n s).2.2.out = s.out := by
  induction n generalizing s with
  | zero => exact ⟨rfl, rfl, rfl⟩
  | succ n ih =>
    have hnext := msegNext_eq hidx
    let s₁ : MsegState :=
      { s with cell := Function.update s.cell s.idx msegCleared, idx := msegNext s.idx }
    have hlt : s₁.idx < eagleMsegEntries := by
      show msegNext s.idx < _
      rw [hnext]
      exact Nat.mod_lt _ (by decide)
    obtain ⟨hsegs, hids, hout⟩ := ih (s := s₁) hlt (by omega)
    have hrest : window s₁.cell eagleMsegEntries s₁.idx n
        = window s.cell eagleMsegEntries ((s.idx + 1) % eagleMsegEntries) n := by
      show window _ _ (msegNext s.idx) _ = _
      rw [hnext]
      exact window_cleared (by omega) _
    rw [hrest] at hsegs hids
    rw [window_cons hidx, List.map_cons, List.map_cons]
    refine ⟨?_, ?_, hout⟩
    · rw [← hsegs]
      rfl
    · rw [← hids]
      rfl

/-! ## Whole or none -/

/-- The last flag of word 0. -/
theorem out_last (m : RxBufs) (c : MsegWords) : (c.out m).word0.getLsbD 29 = c.last := by
  unfold OutFrame.word0 MsegWords.out
  cases c.last <;> simp

/-- Segments in their slots carry the last flag on the last one only. -/
theorem PublishedAll.of_placed {s : MsegState} {r' : HostRing} (hframe : FrameAt s.cell s.idx n)
    (hidx : r'.idx = (s.out.idx + n) % hostadptRingSize)
    (hplaced : Placed ((window s.cell eagleMsegEntries s.idx n).map (·.out m)) s.out.idx
      s.out.desc r'.desc) :
    PublishedAll ((window s.cell eagleMsegEntries s.idx n).map (·.out m)) s.out r' := by
  have hlen : ((window s.cell eagleMsegEntries s.idx n).map (·.out m)).length = n := by
    rw [List.length_map, length_window]
  refine ⟨?_, hplaced, ?_⟩
  · rw [hlen, hidx]
  · intro i hi
    rw [hlen] at hi ⊢
    have hseg : ((window s.cell eagleMsegEntries s.idx n).map (·.out m))[i]?
        = some ((s.cell ((s.idx + i) % eagleMsegEntries)).out m) := by
      unfold window
      rw [List.getElem?_map, List.getElem?_map, List.getElem?_range hi]
      rfl
    rw [hplaced.placed i _ hseg]
    dsimp only
    rw [out_last, hframe.last_iff hi]

/-- The drain of one chained frame: ids always go back in order; the frame
    is published whole or not at all exactly when the build checks the
    room for all of it, or there is room for all of it or for none. -/
theorem eagleMsegDrain_whole_iff (async counting : Bool) (m : RxBufs) (s : MsegState) (k n : ℕ)
    (hrun : FreeRun s.out k) (hidle : s.out.flying = none) (htrace : s.out.trace = [])
    (hframe : FrameAt s.cell s.idx n) :
    WholeOrNone m n s (eagleMsegDrain async counting m s) ↔
      async = true ∨ n + 2 ≤ k ∨ k ≤ 2 := by
  have hsize : hostadptRingSize = 512 := rfl
  have hn : n < eagleMsegEntries := Nat.lt_of_le_of_lt hframe.le (by decide)
  have htwo := hframe.two_le
  have hseven := hframe.le
  have htidy : Tidy s.out := by
    refine ⟨?_, ?_, ?_⟩
    · rw [htrace]
      exact .nil
    · intro c hc
      rw [htrace] at hc
      cases hc
    · intro c hc
      rw [hidle] at hc
      cases hc
  have hnofreed : freedIds s.out.trace = [] := by
    rw [htrace]
    rfl
  unfold eagleMsegDrain
  rw [hframe.collect]
  dsimp only
  -- asynchronously the room for all is checked first
  cases async with
  | true =>
    refine iff_of_true ?_ (.inl rfl)
    rw [if_pos rfl]
    obtain ⟨hsegs, hids, hout⟩ := msegTake_spec (m := m) hframe.idx_lt hn
    have hchain := hostOutChain_spec (m := m) counting
      (window s.cell eagleMsegEntries s.idx n) hrun
      (by rw [length_window]; omega) htidy hidle
    rw [length_window] at hchain
    obtain ⟨htidy', hidle', hfreed, hres⟩ := hchain
    obtain ⟨hend, -⟩ := foldl_free_tidy htidy' hidle'
      ((window s.cell eagleMsegEntries s.idx n).map (·.bufId.setWidth 16))
    obtain ⟨hdesc, hidx, hfreed'⟩ := foldl_free_spec
      ((window s.cell eagleMsegEntries s.idx n).map (·.bufId.setWidth 16))
      (hostOutChain counting ((window s.cell eagleMsegEntries s.idx n).map (·.hostSeg m)) s.out).2
    have hfinal : (msegAsync counting m true n s).out =
        ((window s.cell eagleMsegEntries s.idx n).map (·.bufId.setWidth 16)).foldl HostRing.free
          (hostOutChain counting ((window s.cell eagleMsegEntries s.idx n).map (·.hostSeg m))
            s.out).2 := by
      unfold msegAsync
      dsimp only
      rw [if_pos rfl, hsegs, hids, hout]
    constructor
    · rw [hfinal]
      rcases hres with hnone | ⟨hall, hplaced⟩
      · right
        rw [hnone] at hdesc hidx ⊢
        exact ⟨hidx, hdesc⟩
      · left
        apply PublishedAll.of_placed hframe
        · rw [hidx, hall]
        · rw [hdesc]
          exact hplaced
    · rw [hfinal, hfreed', hfreed, hnofreed]
      rfl
    · rw [hfinal]
      exact hend.order
  | false =>
    rw [if_neg Bool.false_ne_true]
    -- one segment after the other, each on its own
    have hspec := msegSync_spec (m := m) hrun htidy hidle hframe.idx_lt hn
    have hrest : freedIds (msegSync m true n s).out.trace
        = (window s.cell eagleMsegEntries s.idx n).map (·.bufId.setWidth 16) := by
      rw [hspec.freed, hnofreed]
      rfl
    have hidx := hrun.idx_lt
    constructor
    · rintro ⟨hall | hnone, -, -⟩
      · -- the out index tells how many segments went in
        have hmoved := hall.idx
        rw [hspec.idx, List.length_map, length_window, hsize] at hmoved
        omega
      · have hstayed := hnone.idx
        rw [hspec.idx, hsize] at hstayed
        omega
    · rintro (hno | hroom | hfull)
      · exact Bool.noConfusion hno
      · refine ⟨.inl (PublishedAll.of_placed hframe ?_ (hspec.all hroom)), hrest, hspec.tidy.order⟩
        rw [hspec.idx]
        congr 1
        omega
      · refine ⟨.inr ⟨?_, hspec.none hfull⟩, hrest, hspec.tidy.order⟩
        rw [hspec.idx, hsize]
        omega

/-- A frame of two segments of 150 bytes. -/
def twoSegments (out : HostRing) : MsegState where
  out := out
  cell := fun i => ⟨5 + BitVec.ofNat 32 i, 300, 150, segFlags i 2⟩
  idx := 0
  rxout := 0
  rxoutfail := 0

theorem twoSegments_frame (out : HostRing) : FrameAt (twoSegments out).cell 0 2 := by
  refine ⟨by decide, le_rfl, by decide, fun i hi => ?_⟩
  have hslot : (0 + i) % eagleMsegEntries = i := by
    unfold eagleMsegEntries
    omega
  rw [hslot]
  rfl

/-- The ring the host has emptied takes the whole frame. -/
theorem eagleMsegDrain_whole_iff_empty : WholeOrNone ⟨0x88000000, fun _ => 0⟩ 2
    (twoSegments emptyRing)
    (eagleMsegDrain false false ⟨0x88000000, fun _ => 0⟩ (twoSegments emptyRing)) :=
  (eagleMsegDrain_whole_iff false false ⟨0x88000000, fun _ => 0⟩ (twoSegments emptyRing) 512 2
    emptyRing_freeRun rfl rfl (twoSegments_frame _)).mpr (.inr (.inl (by decide)))

/-- A ring with three free slots. -/
def threeFree : HostRing :=
  { emptyRing with
    desc := fun i => if i < 3 then ⟨0, 0, 0, 0⟩ else ⟨1, 0, 0, 0⟩
    idx := 0 }

theorem threeFree_freeRun : FreeRun threeFree 3 := by
  refine ⟨by decide, by decide, fun j hj => ?_⟩
  have hslot : (threeFree.idx + j) % hostadptRingSize = j := by
    show (0 + j) % hostadptRingSize = j
    rw [Nat.zero_add, Nat.mod_eq_of_lt hj]
  rw [hslot]
  show (if j < 3 then (⟨0, 0, 0, 0⟩ : OutDesc) else ⟨1, 0, 0, 0⟩).ready = false ↔ j < 3
  by_cases hlow : j < 3
  · rw [if_pos hlow]
    exact iff_of_true (by decide) hlow
  · rw [if_neg hlow]
    exact iff_of_false (by decide) hlow

/-- Segment by segment, its head goes out and its tail is refused. -/
theorem eagleMsegDrain_head_only : ¬ ∀ async counting m s k n, FreeRun s.out k →
    s.out.flying = none → s.out.trace = [] → FrameAt s.cell s.idx n →
    WholeOrNone m n s (eagleMsegDrain async counting m s) := by
  intro hall
  have hidx : (eagleMsegDrain false false ⟨0x88000000, fun _ => 0⟩ (twoSegments threeFree)).out.idx
      = 1 := by decide +kernel
  rcases (hall false false ⟨0x88000000, fun _ => 0⟩ (twoSegments threeFree) 3 2 threeFree_freeRun
    rfl rfl (twoSegments_frame _)).whole with hwhole | hnone
  · have htwo := hwhole.idx
    rw [hidx, List.length_map, length_window] at htwo
    exact absurd htwo (by decide)
  · have hzero := hnone.idx
    rw [hidx] at hzero
    exact absurd hzero (by decide)

end ClankerNPU.Hostadpt
