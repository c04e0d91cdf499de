import ClankerNPU.EagleRx.Queues
import ClankerNPU.Lib.Fragments

/-! # Multi-segment frames reach the host whole

    Core 1 queues a frame's segments one by one while core 3 drains the
    queue. As long as no segment is queued after an earlier one of its
    frame stayed out, every batch that `eagle_mseg_drain` hands to the
    host adaptor is one frame's segments, all of them and in order. The
    drain looks at the number and count of a batch's last entry only;
    the last section shows two frames it splices. -/

namespace ClankerNPU.EagleRx

open Circular Fragments

variable {b : Build} {s s' : RxState}

/-! ## Entries and frames -/

/-- All the segments ever queued, in order: those taken out and those
    still in the queue. -/
def RxState.queued (s : RxState) : List MsegEntry := s.drained ++ s.msegs .band1

/-- The entry is some segment of a frame queued so far. -/
def IsSegment (frames : List RxChain) (e : MsegEntry) : Prop :=
  ∃ (f : ℕ) (c : RxChain) (i : ℕ), frames[f]? = some c ∧ c.segs.length ≤ eagleMsegMax ∧
    i < c.segs.length ∧ e = c.entry f i

/-- The batch is the segments of one frame, all of them and in order. -/
def WholeFrame (frames : List RxChain) (batch : List MsegEntry) : Prop :=
  ∃ (f : ℕ) (c : RxChain), frames[f]? = some c ∧ batch = (List.range c.segs.length).map (c.entry f)

theorem getElem?_append_of_some {α : Type*} {l : List α} {i : ℕ} {x : α} (d : List α)
    (h : l[i]? = some x) : (l ++ d)[i]? = some x := by
  rw [List.getElem?_append_left (List.getElem?_eq_some_iff.mp h).1]
  exact h

/-- Later frames do not matter to earlier segments. -/
theorem IsSegment.append {frames : List RxChain} {e : MsegEntry} (d : List RxChain)
    (h : IsSegment frames e) : IsSegment (frames ++ d) e := by
  obtain ⟨f, c, i, hf, hlen, hi, he⟩ := h
  exact ⟨f, c, i, getElem?_append_of_some d hf, hlen, hi, he⟩

theorem WholeFrame.append {frames : List RxChain} {batch : List MsegEntry} (d : List RxChain)
    (h : WholeFrame frames batch) : WholeFrame (frames ++ d) batch := by
  obtain ⟨f, c, hf, hbatch⟩ := h
  exact ⟨f, c, getElem?_append_of_some d hf, hbatch⟩

/-- A segment's flags tell its number and its frame's count. -/
theorem flags_segFlags {count i : ℕ} (hcount : count ≤ eagleMsegMax) (hi : i < count) :
    flagCount (segFlags count i ||| 1) = count ∧ flagIdx (segFlags count i ||| 1) = i + 1 := by
  have hall : ∀ n : Fin 8, ∀ k : Fin 8, k < n →
      flagCount (segFlags n k ||| 1) = n ∧ flagIdx (segFlags n k ||| 1) = k + 1 := by
    decide
  have hmax : eagleMsegMax = 7 := rfl
  exact hall ⟨count, by omega⟩ ⟨i, by omega⟩ hi

/-- A complete batch of linked segments is a whole frame. -/
theorem wholeFrame_of_complete {frames : List RxChain} {batch : List MsegEntry}
    (hsegs : ∀ e ∈ batch, IsSegment frames e)
    (hlinked : batch.IsChain (Follows (·.origin))) (hcomplete : Complete batch) :
    WholeFrame frames batch := by
  obtain ⟨e, hlast, -, hcount, hidx⟩ := hcomplete
  obtain ⟨f, c, i, hf, hlen, hi, rfl⟩ := hsegs e (List.mem_of_getLast? hlast)
  have hcc := ChainOk.count_eq hlen
  have hflags := flags_segFlags (hcc ▸ hlen : c.count ≤ eagleMsegMax) (hcc ▸ hi)
  have hentry : (c.entry f i).flags = segFlags c.count i ||| 1 := rfl
  rw [hentry, hflags.1, hcc] at hcount
  rw [hentry, hflags.2] at hidx
  have htags := tag_of_isChain hlinked hlast (rfl : (c.entry f i).origin = some (f, i)) hidx.symm
  refine ⟨f, c, hf, ?_⟩
  apply List.ext_getElem
  · simp [hcount]
  · intro k hk _
    -- an entry is what its origin says
    obtain ⟨f', c', k', hf', -, -, hek⟩ := hsegs batch[k] (List.getElem_mem hk)
    have htag := htags k hk
    rw [hek] at htag
    obtain ⟨rfl, rfl⟩ : f' = f ∧ k' = k := by
      simpa [RxChain.entry] using htag
    rw [hf] at hf'
    obtain rfl := Option.some.inj hf'
    simpa using hek

/-! ## The invariant -/

/-- The entries core 3 has taken out and not yet dealt with. -/
def Core3Pc.taken : Core3Pc → List MsegEntry
  | .msegTake _ _ taken => taken
  | _ => []

/-- The ids of these that are still to be given back. -/
def Core3Pc.owed (b : Build) (pc : Core3Pc) : List ℕ :=
  if b.hasIdBatch then pc.taken.map fun e => u16 e.bufId else []

/-- What every run keeps in which frames stay together. -/
structure SpliceInv (b : Build) (s : RxState) : Prop where
  shape : Shape s
  segments : ∀ e ∈ s.queued, IsSegment s.frames e
  linked : s.queued.IsChain (Follows (·.origin))
  /-- the frame core 1 queues is the last one -/
  current : s.core1.emitting = true → s.frames.getLast? = some s.chain
  /-- its segments so far are the last ones queued -/
  kept : ∀ i, s.core1 = .emit (i + 1) true →
    ∃ d, s.queued.getLast? = some d ∧ d.origin = some (s.frames.length - 1, i)
  /-- what went to the host was taken out before that -/
  taken : ∃ before, s.drained = before ++ s.core3.taken ∧ s.outs.flatten.Sublist before
  outs : ∀ out ∈ s.outs, WholeFrame s.frames out
  given : s.given ++ s.core3.owed b = s.drained.map (·.bufId)

/-- No segment is put into the multi-segment queue after an earlier one
    of its frame stayed out of it. -/
def KeepsTogether (s : RxState) : RxAction → Prop
  | .emit => ∀ i, s.core1 = .emit i false → i < s.chain.count →
      s.chain.segLen i ≠ u16 s.chain.seglen →
      (s.mseg .band1).slot (s.mseg .band1).widx ≠ none
  | _ => True

/-- A step that queues no segment. -/
theorem SpliceInv.of_queued (h : SpliceInv b s) (hshape : Shape s')
    (hqueued : s'.queued = s.queued) (hframes : s'.frames = s.frames)
    (hcurrent : s'.core1.emitting = true → s.core1.emitting = true ∧ s'.chain = s.chain)
    (hkept : ∀ i, s'.core1 = .emit (i + 1) true → s.core1 = .emit (i + 1) true)
    (htaken : ∃ before, s'.drained = before ++ s'.core3.taken ∧ s'.outs.flatten.Sublist before)
    (houts : ∀ out ∈ s'.outs, WholeFrame s.frames out)
    (hgiven : s'.given ++ s'.core3.owed b = s'.drained.map (·.bufId)) : SpliceInv b s' := by
  refine ⟨hshape, ?_, ?_, ?_, ?_, htaken, ?_, hgiven⟩
  · rw [hqueued, hframes]
    exact h.segments
  · rw [hqueued]
    exact h.linked
  · intro hemit
    obtain ⟨hemit, hchain⟩ := hcurrent hemit
    rw [hframes, hchain]
    exact h.current hemit
  · intro i hi
    rw [hqueued, hframes]
    exact h.kept i (hkept i hi)
  · rw [hframes]
    exact houts

/-- A step that does not touch the multi-segment queue. -/
theorem SpliceInv.congr (h : SpliceInv b s) (hshape : Shape s') (hmseg : s'.mseg = s.mseg)
    (hdrained : s'.drained = s.drained) (hframes : s'.frames = s.frames)
    (houts : s'.outs = s.outs) (hgiven : s'.given = s.given)
    (hcurrent : s'.core1.emitting = true → s.core1.emitting = true ∧ s'.chain = s.chain)
    (hkept : ∀ i, s'.core1 = .emit (i + 1) true → s.core1 = .emit (i + 1) true)
    (htaken : s'.core3.taken = s.core3.taken) : SpliceInv b s' := by
  refine h.of_queued hshape ?_ hframes hcurrent hkept ?_ ?_ ?_
  · unfold RxState.queued RxState.msegs
    rw [hmseg, hdrained]
  · rw [hdrained, htaken, houts]
    exact h.taken
  · rw [houts]
    exact h.outs
  · unfold Core3Pc.owed
    rw [hgiven, hdrained, htaken]
    exact h.given

/-! ## Steps -/

theorem spliceInv_init (b : Build) : SpliceInv b eagleQueueInit := by
  have hnil : eagleQueueInit.msegs .band1 = [] := FlagRing.contents_empty (by decide)
  have hqueued : eagleQueueInit.queued = [] := by
    unfold RxState.queued
    rw [hnil]
    rfl
  refine ⟨shape_init, ?_, ?_, ?_, ?_, ⟨[], rfl, List.nil_sublist _⟩, ?_, ?_⟩
  · rw [hqueued]
    intro e he
    cases he
  · rw [hqueued]
    exact List.isChain_nil
  · intro hemit
    cases hemit
  · intro i hi
    cases hi
  · intro out hout
    cases hout
  · simp [eagleQueueInit, Core3Pc.owed, Core3Pc.taken]

/-- A descriptor may complete the next frame to be queued. -/
theorem spliceInv_rxd {dw1 dw2 : BitVec 32} {icv force : Bool} (h : SpliceInv b s)
    (hstep : rxd s dw1 dw2 icv force = some s') : SpliceInv b s' := by
  have hshape := shape_rxd h.shape hstep
  unfold rxd at hstep
  split at hstep
  · next hidle =>
    obtain rfl := Option.some.inj hstep
    have hhandled := handled s.chain dw1 dw2 icv force
    -- the chain and program counter the descriptor leaves
    generalize (eagleRxdmadHandle s.chain dw1 dw2 icv force).1 = c at hhandled hshape ⊢
    generalize (eagleRxdmadHandle s.chain dw1 dw2 icv force).2 = pc at hhandled hshape ⊢
    by_cases hpc : pc = .emit 0 true
    · subst hpc
      rw [if_pos rfl] at hshape ⊢
      refine ⟨hshape, ?_, h.linked, ?_, ?_, h.taken, ?_, h.given⟩
      · intro e he
        exact (h.segments e he).append [c]
      · intro _
        exact List.getLast?_concat
      · intro i hi
        cases hi
      · intro out hout
        exact (h.outs out hout).append [c]
    · rw [if_neg hpc] at hshape ⊢
      have hquiet : pc.emitting = false := by
        cases hhandled
        case complete => exact absurd rfl hpc
        all_goals rfl
      refine h.congr hshape rfl rfl rfl rfl rfl ?_ ?_ rfl
      · intro hemit
        rw [hquiet] at hemit
        cases hemit
      · intro i hi
        have hi : pc = .emit (i + 1) true := hi
        rw [hi] at hquiet
        cases hquiet
  · cases hstep

/-- Core 1 queues the next segment: its predecessor is the last one in
    the queue, or it stays out. -/
theorem spliceInv_emit (h : SpliceInv b s) (hguard : KeepsTogether s .emit)
    (hstep : rxEmit s = some s') : SpliceInv b s' := by
  have hshape := shape_emit h.shape hstep
  have hchain := h.shape.chain
  unfold rxEmit at hstep
  split at hstep
  · next i kept hpc =>
    rw [hpc] at hchain
    obtain ⟨-, -, hlen, -⟩ := hchain.complete rfl
    have hcount := ChainOk.count_eq hlen
    have hcurrent := h.current (by rw [hpc]; rfl)
    dsimp only at hstep
    split at hstep
    · next hi =>
      split at hstep
      · next s1 hput =>
        obtain rfl := Option.some.inj hstep
        rcases enqueue_cases hput with ⟨heq, r, hr, rfl⟩ | ⟨hne, r, hr, rfl⟩
        · -- the segment goes to the packet queue
          refine h.congr hshape rfl rfl rfl rfl rfl ?_ ?_ rfl
          · intro _
            exact ⟨by rw [hpc]; rfl, rfl⟩
          · intro j hj
            have hj := Core1Pc.emit.inj hj
            simp [heq] at hj
        · -- the segment is the last one of the multi-segment queue
          have hroom : (s.mseg .band1).slot (s.mseg .band1).widx = none := by
            by_contra hfull
            have hsome : ((s.mseg .band1).slot (s.mseg .band1).widx).isSome :=
              Option.isSome_iff_ne_none.mpr hfull
            have hr : (s.mseg .band1).put eagleMsegEntries _ = some r := hr
            simp [FlagRing.put, hsome] at hr
          have hkept : kept = true := by
            cases kept with
            | true => rfl
            | false => exact absurd hroom (hguard i hpc hi hne)
          subst hkept
          have hput := (h.shape.queues.putMseg
            (RxChain.segBufid_lt hchain.ids i) hr).2
          have hqueued : ∀ pc, RxState.queued { s with
              mseg := Function.update s.mseg (queueBand 1) r, core1 := pc }
              = s.queued ++ [s.chain.entry (s.frames.length - 1) i] := by
            intro pc
            have hcont : r.contents eagleMsegEntries
                = s.msegs .band1 ++ [s.chain.entry (s.frames.length - 1) i] := hput
            have hband : Function.update s.mseg (queueBand 1) r .band1 = r :=
              Function.update_self _ _ _
            unfold RxState.queued RxState.msegs
            dsimp only
            rw [hband, hcont, ← List.append_assoc]
            rfl
          have hlast : s.frames[s.frames.length - 1]? = some s.chain := by
            rw [← List.getLast?_eq_getElem?]
            exact hcurrent
          refine ⟨hshape, ?_, ?_, fun _ => hcurrent, ?_, h.taken, h.outs, h.given⟩
          · intro e he
            rw [hqueued, List.mem_append, List.mem_singleton] at he
            rcases he with he | rfl
            · exact h.segments e he
            · exact ⟨_, _, i, hlast, hlen, hcount ▸ hi, rfl⟩
          · rw [hqueued]
            refine h.linked.append (List.isChain_singleton _) ?_
            intro d hd e he m j hj
            have he : s.chain.entry (s.frames.length - 1) i = e := by simpa using he
            subst he
            -- its predecessor is the last one queued
            have hj : some (s.frames.length - 1, i) = some (m, j + 1) := hj
            obtain ⟨rfl, rfl⟩ : s.frames.length - 1 = m ∧ i = j + 1 := by simpa using hj
            obtain ⟨d', hd', horigin⟩ := h.kept j hpc
            rw [hd'] at hd
            obtain rfl := Option.some.inj hd
            exact horigin
          · intro j hj
            have hj := (Core1Pc.emit.inj hj).1
            rw [hqueued]
            refine ⟨_, List.getLast?_concat, ?_⟩
            obtain rfl : i = j := by omega
            rfl
      · -- refused
        obtain rfl := Option.some.inj hstep
        refine h.congr hshape rfl rfl rfl rfl rfl ?_ ?_ rfl
        · intro _
          exact ⟨by rw [hpc]; rfl, rfl⟩
        · intro j hj
          cases hj
    · -- all segments are done
      obtain rfl := Option.some.inj hstep
      refine h.congr hshape rfl rfl rfl rfl rfl ?_ ?_ rfl
      · intro hemit
        cases hemit
      · intro j hj
        cases hj
  · cases hstep

theorem spliceInv_back (h : SpliceInv b s) (hstep : rxReturn s = some s') :
    SpliceInv b s' := by
  have hshape := shape_back h.shape hstep
  unfold rxReturn at hstep
  split at hstep
  · obtain rfl := Option.some.inj hstep
    exact h.congr hshape rfl rfl rfl rfl rfl (fun hemit => by cases hemit)
      (fun i hi => by cases hi) rfl
  · obtain rfl := Option.some.inj hstep
    exact h.congr hshape rfl rfl rfl rfl rfl (fun hemit => by cases hemit)
      (fun i hi => by cases hi) rfl
  · obtain rfl := Option.some.inj hstep
    exact h.congr hshape rfl rfl rfl rfl rfl (fun hemit => by cases hemit)
      (fun i hi => by cases hi) rfl
  · next i hpc =>
    obtain rfl := Option.some.inj hstep
    refine h.congr hshape rfl rfl rfl rfl rfl ?_ ?_ rfl
    · intro _
      exact ⟨by rw [hpc]; rfl, rfl⟩
    · intro j hj
      cases hj
  · cases hstep

/-- Core 3 takes an entry out, or is done with a batch: a batch handed to
    the host is complete, so it is one frame. -/
theorem spliceInv_msegTake {room : Bool} (h : SpliceInv b s)
    (hstep : msegTake b s room = some s') : SpliceInv b s' := by
  have hshape := shape_msegTake h.shape hstep
  have hcore3 := h.shape.core3
  have hgiven := h.given
  obtain ⟨before, hbefore, hsub⟩ := h.taken
  unfold msegTake at hstep
  split at hstep
  · next ok left taken hpc =>
    unfold Core3Ok at hcore3
    unfold Core3Pc.owed at hgiven
    rw [hpc] at hcore3 hgiven hbefore
    dsimp only [Core3Pc.taken] at hgiven hbefore
    dsimp only at hstep
    split at hstep
    · next hleft =>
      obtain ⟨e, he⟩ := h.shape.take_head hpc hleft
      have hcont := (h.shape.queues.popMseg he).2
      have hid : e.bufId < 2 ^ 16 := by
        apply h.shape.queues.msegIds .band1 e
        rw [hcont]
        exact List.mem_cons_self
      rw [he, Option.getD_some, u16_natCast_of_lt hid] at hstep
      -- the entry moves from the queue to those taken out
      have hqueued : s.drained ++ [e]
          ++ ((s.mseg .band1).pop eagleMsegEntries).contents eagleMsegEntries = s.queued := by
        unfold RxState.queued
        rw [hcont, List.append_assoc, List.singleton_append]
      have htaken : s.drained ++ [e] = before ++ (taken ++ [e]) := by
        rw [hbefore, List.append_assoc]
      split at hstep
      · next hbatch =>
        obtain rfl := Option.some.inj hstep
        refine h.of_queued hshape ?_ rfl (fun hemit => ⟨hemit, rfl⟩) (fun i hi => hi)
          ⟨before, htaken, hsub⟩ h.outs ?_
        · unfold RxState.queued RxState.msegs
          dsimp only
          rw [Function.update_self]
          exact hqueued
        · rw [if_pos hbatch] at hgiven
          unfold Core3Pc.owed
          rw [if_pos hbatch]
          simp only [Core3Pc.taken, List.map_append, List.map_singleton, ← List.append_assoc,
            hgiven, u16_natCast_of_lt hid]
      · next hbatch =>
        obtain rfl := Option.some.inj hstep
        refine h.of_queued hshape ?_ rfl (fun hemit => ⟨hemit, rfl⟩) (fun i hi => hi)
          ⟨before, htaken, hsub⟩ h.outs ?_
        · unfold RxState.queued RxState.msegs bufIdReturn
          dsimp only
          rw [Function.update_self]
          exact hqueued
        · rw [if_neg hbatch, List.append_nil] at hgiven
          unfold Core3Pc.owed
          rw [if_neg hbatch]
          simp only [bufIdReturn, List.map_append, List.map_singleton, List.append_nil, hgiven]
    · next hleft =>
      have hzero : left = 0 := not_not.mp hleft
      subst hzero
      -- what goes to the host is complete, and a piece of what was queued
      have houts : ∀ out ∈ (if ok = true ∧ room = true then s.outs ++ [taken] else s.outs),
          WholeFrame s.frames out := by
        intro out hout
        split at hout
        · next hsend =>
          rcases List.mem_append.mp hout with hold | hnew
          · exact h.outs out hold
          · rw [List.mem_singleton.mp hnew]
            have hcomplete := hcore3.2 hsend.1
            rw [List.take_zero, List.append_nil] at hcomplete
            have hpiece : taken <:+: s.queued := by
              unfold RxState.queued
              rw [hbefore]
              exact ⟨before, s.msegs .band1, rfl⟩
            have hlinked := h.linked.infix hpiece
            exact wholeFrame_of_complete
              (fun e he => h.segments e (hpiece.subset he)) hlinked hcomplete
        · exact h.outs out hout
      have hflat : (if ok = true ∧ room = true then s.outs ++ [taken] else s.outs).flatten.Sublist
          s.drained := by
        rw [hbefore]
        split
        · rw [List.flatten_concat]
          exact hsub.append_right taken
        · exact hsub.trans (List.sublist_append_left before taken)
      split at hstep
      · next hbatch =>
        obtain rfl := Option.some.inj hstep
        rw [if_pos hbatch] at hgiven
        refine h.of_queued hshape rfl rfl (fun hemit => ⟨hemit, rfl⟩) (fun i hi => hi)
          ⟨s.drained, by simp [bufIdReturn, Core3Pc.taken], hflat⟩ houts ?_
        simpa [Core3Pc.owed, Core3Pc.taken, bufIdReturn] using hgiven
      · next hbatch =>
        obtain rfl := Option.some.inj hstep
        rw [if_neg hbatch] at hgiven
        refine h.of_queued hshape rfl rfl (fun hemit => ⟨hemit, rfl⟩) (fun i hi => hi)
          ⟨s.drained, by simp [Core3Pc.taken], hflat⟩ houts ?_
        simpa [Core3Pc.owed, Core3Pc.taken] using hgiven
  · cases hstep

/-! ### Other steps -/

/-- Whole frames do not go to the multi-segment queue. -/
theorem enqueue_whole {bufId len wcid info dst : ℕ} {flags : BitVec 8}
    {origin : Option (ℕ × ℕ)}
    (h : eaglePktEnqueue s bufId len wcid info dst flags len origin = some s') :
    s' = { s with txq := s'.txq } := by
  rcases enqueue_cases h with ⟨-, r, -, rfl⟩ | ⟨hne, -⟩
  · rfl
  · exact absurd rfl hne

theorem spliceInv_put (h : SpliceInv b s) (hstep : rxPut s = some s') : SpliceInv b s' := by
  have hshape := shape_put h.shape hstep
  unfold rxPut at hstep
  split at hstep
  · split at hstep
    · next s1 hput =>
      obtain rfl := Option.some.inj hstep
      rw [enqueue_whole hput] at hshape ⊢
      exact h.congr hshape rfl rfl rfl rfl rfl (fun hemit => by cases hemit)
        (fun i hi => by cases hi) rfl
    · obtain rfl := Option.some.inj hstep
      exact h.congr hshape rfl rfl rfl rfl rfl (fun hemit => by cases hemit)
        (fun i hi => by cases hi) rfl
  · cases hstep

theorem spliceInv_submit {ok : Bool} (h : SpliceInv b s) (hstep : rxSubmit s ok = some s') :
    SpliceInv b s' := by
  have hshape := shape_submit h.shape hstep
  unfold rxSubmit at hstep
  split at hstep
  · obtain rfl := Option.some.inj hstep
    cases ok with
    | true =>
      exact h.congr hshape rfl rfl rfl rfl rfl (fun hemit => by cases hemit)
        (fun i hi => by cases hi) rfl
    | false =>
      exact h.congr hshape rfl rfl rfl rfl rfl (fun hemit => by cases hemit)
        (fun i hi => by cases hi) rfl
  · cases hstep

/-- Steps of the PPE's hart and of core 3 on the packet queues. -/
theorem SpliceInv.quiet (h : SpliceInv b s) (hshape : Shape s') (hmseg : s'.mseg = s.mseg)
    (hdrained : s'.drained = s.drained) (hframes : s'.frames = s.frames)
    (houts : s'.outs = s.outs) (hgiven : s'.given = s.given) (hchain : s'.chain = s.chain)
    (hcore1 : s'.core1 = s.core1) (htaken : s'.core3.taken = s.core3.taken) :
    SpliceInv b s' :=
  h.congr hshape hmseg hdrained hframes houts hgiven
    (fun hemit => ⟨hcore1 ▸ hemit, hchain⟩) (fun _ hi => hcore1 ▸ hi) htaken

theorem spliceInv_ppeEntry {v info hdr : BitVec 32} (h : SpliceInv b s)
    (hstep : ppeEntry b s v info hdr = some s') : SpliceInv b s' := by
  have hshape := shape_ppeEntry h.shape hstep
  unfold ppeEntry at hstep
  split at hstep
  · dsimp only at hstep
    split at hstep
    · split at hstep <;> obtain rfl := Option.some.inj hstep
      · exact h.quiet hshape rfl rfl rfl rfl rfl rfl rfl rfl
      · exact h.quiet hshape rfl rfl rfl rfl rfl rfl rfl rfl
    · split at hstep
      · next s1 hput =>
        obtain rfl := Option.some.inj hstep
        rw [enqueue_whole hput] at hshape ⊢
        exact h.quiet hshape rfl rfl rfl rfl rfl rfl rfl rfl
      · obtain rfl := Option.some.inj hstep
        exact h.quiet hshape rfl rfl rfl rfl rfl rfl rfl rfl
  · cases hstep

theorem spliceInv_ppe (h : SpliceInv b s)
    (hstep : ppeStart s = some s' ∨ ppeReturn s = some s' ∨ ppeEnd s = some s') :
    SpliceInv b s' := by
  have hshape := shape_ppe h.shape hstep
  unfold ppeStart ppeReturn ppeEnd at hstep
  rcases hstep with hstep | hstep | hstep <;> split at hstep
  all_goals first
    | (obtain rfl := Option.some.inj hstep
       exact h.quiet hshape rfl rfl rfl rfl rfl rfl rfl rfl)
    | cases hstep

theorem spliceInv_txqEntry {refused : Bool} (h : SpliceInv b s)
    (hstep : txqEntry s refused = some s') : SpliceInv b s' := by
  have hshape := shape_txqEntry h.shape hstep
  unfold txqEntry at hstep
  split at hstep
  · next hpc =>
    split at hstep
    · obtain rfl := Option.some.inj hstep
      exact h.quiet hshape rfl rfl rfl rfl rfl rfl rfl (by rw [hpc]; rfl)
    · dsimp only at hstep
      split at hstep <;> obtain rfl := Option.some.inj hstep
      · exact h.quiet hshape rfl rfl rfl rfl rfl rfl rfl (by rw [hpc]; rfl)
      · exact h.quiet hshape rfl rfl rfl rfl rfl rfl rfl (by rw [hpc]; rfl)
  · cases hstep

theorem spliceInv_core3 (h : SpliceInv b s)
    (hstep : (∃ band, txqStart b s band = some s') ∨ txqReturn s = some s' ∨
      (∃ old dw1, eventStart s old dw1 = some s') ∨ eventReturn s = some s') : SpliceInv b s' := by
  have hshape := shape_core3 h.shape hstep
  unfold txqStart txqReturn eventStart eventReturn at hstep
  rcases hstep with ⟨band, hstep⟩ | hstep | ⟨old, dw1, hstep⟩ | hstep <;> split at hstep
  all_goals first
    | (obtain rfl := Option.some.inj hstep
       exact h.quiet hshape rfl rfl rfl rfl rfl rfl rfl (by simp [*, Core3Pc.taken]))
    | cases hstep

theorem spliceInv_eventPut (h : SpliceInv b s) (hstep : eventPut s = some s') :
    SpliceInv b s' := by
  have hshape := shape_eventPut h.shape hstep
  unfold eventPut at hstep
  split at hstep
  · next hpc =>
    split at hstep
    · next s1 hput =>
      obtain rfl := Option.some.inj hstep
      rw [enqueue_whole hput] at hshape ⊢
      exact h.quiet hshape rfl rfl rfl rfl rfl rfl rfl (by rw [hpc]; rfl)
    · obtain rfl := Option.some.inj hstep
      exact h.quiet hshape rfl rfl rfl rfl rfl rfl rfl (by rw [hpc]; rfl)
  · cases hstep

theorem spliceInv_msegStart (h : SpliceInv b s) (hstep : msegStart s = some s') :
    SpliceInv b s' := by
  have hshape := shape_msegStart h.shape hstep
  unfold msegStart at hstep
  split at hstep
  · next hpc =>
    dsimp only at hstep
    split at hstep
    · obtain rfl := Option.some.inj hstep
      exact h.quiet hshape rfl rfl rfl rfl rfl rfl rfl (by rw [hpc]; rfl)
    · obtain rfl := Option.some.inj hstep
      exact h
  · cases hstep

/-- Collecting takes nothing out. -/
theorem spliceInv_msegLook (h : SpliceInv b s) (hstep : msegLook s = some s') :
    SpliceInv b s' := by
  have hshape := shape_msegLook h.shape hstep
  unfold msegLook at hstep
  split at hstep
  · next hpc =>
    split at hstep
    · obtain rfl := Option.some.inj hstep
      refine h.quiet hshape rfl rfl rfl rfl rfl rfl rfl ?_
      rw [hpc]
      dsimp only
      split_ifs <;> rfl
    · dsimp only at hstep
      split_ifs at hstep <;> obtain rfl := Option.some.inj hstep
      all_goals exact h.quiet hshape rfl rfl rfl rfl rfl rfl rfl (by rw [hpc]; rfl)
  · cases hstep

theorem spliceInv_step {a : RxAction} (h : SpliceInv b s) (hguard : KeepsTogether s a)
    (hstep : rxStep b s a = some s') : SpliceInv b s' := by
  cases a with
  | rxd dw1 dw2 icv force => exact spliceInv_rxd h hstep
  | submit ok => exact spliceInv_submit h hstep
  | put => exact spliceInv_put h hstep
  | back => exact spliceInv_back h hstep
  | emit => exact spliceInv_emit h hguard hstep
  | ppeStart => exact spliceInv_ppe h (.inl hstep)
  | ppeEntry v info hdr => exact spliceInv_ppeEntry h hstep
  | ppeReturn => exact spliceInv_ppe h (.inr (.inl hstep))
  | ppeEnd => exact spliceInv_ppe h (.inr (.inr hstep))
  | txqStart band => exact spliceInv_core3 h (.inl ⟨band, hstep⟩)
  | txqEntry refused => exact spliceInv_txqEntry h hstep
  | txqReturn => exact spliceInv_core3 (b := b) h (.inr (.inl hstep))
  | msegStart => exact spliceInv_msegStart h hstep
  | msegLook => exact spliceInv_msegLook h hstep
  | msegTake room => exact spliceInv_msegTake h hstep
  | eventStart old dw1 => exact spliceInv_core3 (b := b) h (.inr (.inr (.inl ⟨old, dw1, hstep⟩)))
  | eventPut => exact spliceInv_eventPut h hstep
  | eventReturn => exact spliceInv_core3 (b := b) h (.inr (.inr (.inr hstep)))

theorem spliceInv_of_reachable (h : ((rxSystem b).guarded KeepsTogether).Reachable s) :
    SpliceInv b s := by
  refine h.invariant ?_ ?_
  · intro s hs
    obtain rfl : s = eagleQueueInit := hs
    exact spliceInv_init b
  · intro s a s' hinv hstep
    exact spliceInv_step hinv hstep.1 hstep.2

/-! ## Frames are not spliced -/

/-- What the host got are whole frames, taken from the queue in order and
    each segment once; the ids of all segments taken out are given back,
    or about to be, in order and each once. -/
structure NotSpliced (b : Build) (s : RxState) : Prop where
  whole : ∀ out ∈ s.outs, WholeFrame s.frames out
  once : s.outs.flatten.Sublist s.drained
  givenBack : s.given ++ s.core3.owed b = s.drained.map (·.bufId)

/-- In every run in which no segment is queued after an earlier one of its
    frame stayed out, the drain hands over whole frames only. -/
theorem mseg_notSpliced (b : Build) (s : RxState)
    (h : ((rxSystem b).guarded KeepsTogether).Reachable s) : NotSpliced b s := by
  have hinv := spliceInv_of_reachable h
  obtain ⟨before, hbefore, hsub⟩ := hinv.taken
  refine ⟨hinv.outs, ?_, hinv.given⟩
  rw [hbefore]
  exact hsub.trans (List.sublist_append_left before _)

/-- Core 1 queues two segments with lengths `l1`, `l2` and ids `id`,
    `id + 1`. -/
def frameRun (l1 l2 id : BitVec 32) : List RxAction :=
  [.rxd (l1 <<< 16) (id <<< 16) false false,
    .rxd (0x40000000 ||| (l2 <<< 16)) ((id + 1) <<< 16) false false, .emit, .emit, .emit]

/-- Core 3 drains a batch of two. -/
def drainRun : List RxAction :=
  [.msegStart, .msegLook, .msegLook, .msegTake true, .msegTake true, .msegTake true]

/-- The executable form of the condition: a segment about to leave core 1
    has every earlier segment of its frame in the queue. -/
def keptCheck (s : RxState) (_ : RxAction) : Bool :=
  match s.core1 with
  | .emit _ kept => kept
  | _ => true

/-- A frame of two segments of 1000 and 500 bytes reaches the host. -/
theorem mseg_notSpliced_two : ∃ s, s.outs.map (·.map (·.origin)) = [[some (0, 0), some (0, 1)]] ∧
    s.given = [5, 6] ∧ NotSpliced ⟨.an7583, .mt7992⟩ s := by
  let b : Build := ⟨.an7583, .mt7992⟩
  have hcheck : ∀ s a s', keptCheck s a = true → rxStep b s a = some s' →
      ((rxSystem b).guarded KeepsTogether).step s a s' := by
    intro s a s' hc hstep
    refine ⟨?_, hstep⟩
    cases a
    case emit =>
      intro i hpc
      simp only [keptCheck, hpc, Bool.false_eq_true] at hc
    all_goals trivial
  have hrun : (StepSystem.run (rxStep b) keptCheck eagleQueueInit
      (frameRun 1000 500 5 ++ drainRun)).map
      (fun s => (s.outs.map (·.map (·.origin)), s.given))
      = some ([[some (0, 0), some (0, 1)]], [5, 6]) := by
    decide +kernel
  obtain ⟨s, hs, hend⟩ := Option.map_eq_some_iff.mp hrun
  simp only [Prod.mk.injEq] at hend
  exact ⟨s, hend.1, hend.2, mseg_notSpliced b s (.of_run hcheck (.init rfl) hs)⟩

/-! ## Two spliced frames -/

/-- Frames 0 and 1 have lengths 0 + 100 and 100 + 0. The segments as long
    as their frame go to the packet queue, and the first of frame 0 and
    the second of frame 1 are next to each other. -/
theorem spliceRun_outs : (StepSystem.run (rxStep ⟨.an7583, .mt7992⟩) (fun _ _ => true)
    eagleQueueInit (frameRun 0 100 1 ++ frameRun 100 0 3 ++ drainRun)).map
    (fun s => s.outs.map (·.map (·.origin))) = some [[some (0, 0), some (1, 1)]] := by
  decide +kernel

/-- The drain splices two frames in some run. -/
theorem mseg_spliced : ¬∀ b s, (rxSystem b).Reachable s → NotSpliced b s := by
  intro hall
  obtain ⟨s, hs, hend⟩ := Option.map_eq_some_iff.mp spliceRun_outs
  have hreach : (rxSystem ⟨.an7583, .mt7992⟩).Reachable s :=
    .of_run (fun _ _ _ _ hstep => hstep) (.init rfl) hs
  obtain ⟨out, hout, horigins⟩ : ∃ out ∈ s.outs,
      out.map (·.origin) = [some (0, 0), some (1, 1)] := by
    rw [List.map_eq_singleton_iff] at hend
    obtain ⟨out, hone, horigins⟩ := hend
    exact ⟨out, by rw [hone]; exact List.mem_singleton.mpr rfl, horigins⟩
  obtain ⟨f, c, -, rfl⟩ := (hall _ s hreach).whole out hout
  -- both segments would be of frame `f`
  have htag : ∀ o ∈ [some (0, 0), some (1, 1)], ∃ i, o = some (f, i) := by
    intro o ho
    rw [← horigins, List.map_map] at ho
    obtain ⟨i, -, rfl⟩ := List.mem_map.mp ho
    exact ⟨i, rfl⟩
  obtain ⟨i, hi⟩ := htag (some (0, 0)) (by simp)
  obtain ⟨j, hj⟩ := htag (some (1, 1)) (by simp)
  simp only [Option.some.injEq, Prod.mk.injEq] at hi hj
  omega

end ClankerNPU.EagleRx
