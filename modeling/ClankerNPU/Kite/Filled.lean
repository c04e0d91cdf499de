import ClankerNPU.Kite.Reorder
import Mathlib.Logic.Function.Basic

/-! # Only filled nodes are reached

    Whatever the lists look like, a pointer of an entry or of a filled
    node leads to a filled node: a node is filled before anything points
    to it. So a release sends on frames that were held, never the content
    of a node that was not written. `Closed P F s` says that the nodes `F`
    are filled with frames of which `P` holds, and that nothing in `s`
    leads out of them. -/

namespace ClankerNPU.Kite

/-- A filled node: its frame is one of `P`, its links stay in `F`. -/
structure NodeOk (P : KiteFrame → Prop) (F : NodeRef → Prop) (n : KiteNode) : Prop where
  frame : P n.toKiteFrame
  next : ∀ r, n.next = some r → F r
  msduHead : ∀ r, n.msduHead = some r → F r
  msduTail : ∀ r, n.msduTail = some r → F r

/-- What leaves the engine is a frame of `P`, or a buffer goes back. -/
def OutOf (P : KiteFrame → Prop) : Out → Prop
  | .bridge _ bufId len hdr _ _ => ∃ f, P f ∧ f.bufId = bufId ∧ f.len = len ∧ f.hdr = hdr
  | .free _ _ => True

/-- The nodes `F` are filled with frames of `P`, and nothing leads out of
    them. -/
structure Closed (P : KiteFrame → Prop) (F : NodeRef → Prop) (s : BaState) : Prop where
  node : ∀ r, F r → NodeOk P F (s.node r)
  head : ∀ k r, (s.entry k).head = some r → F r
  chain : ∀ k r, (s.entry k).chain = some r → F r
  outs : ∀ o ∈ s.outs, OutOf P o

variable {P : KiteFrame → Prop} {F : NodeRef → Prop} {s s' : BaState} {k : BaKey}
  {mpdu : NodeRef} {pn : KiteFrame}

/-! ## Writes -/

theorem outOf_bridgeOut {f : KiteFrame} (hf : P f) (k : BaKey) (band bss : ℕ) :
    OutOf P (bridgeOut k f band bss) := ⟨f, hf, rfl, rfl, rfl⟩

theorem Closed.emit (h : Closed P F s) {o : Out} (ho : OutOf P o) : Closed P F (s.emit o) := by
  refine ⟨h.node, h.head, h.chain, fun o' ho' => ?_⟩
  rcases List.mem_append.mp ho' with ho' | ho'
  · exact h.outs o' ho'
  · rw [List.mem_singleton.mp ho']
    exact ho

theorem Closed.setNode (h : Closed P F s) {r : NodeRef} {n : KiteNode} (hn : NodeOk P F n) :
    Closed P F (s.setNode r n) := by
  refine ⟨fun x hx => ?_, h.head, h.chain, h.outs⟩
  show NodeOk P F (Function.update s.node r n x)
  by_cases hxr : x = r
  · subst hxr
    rw [Function.update_self]
    exact hn
  · rw [Function.update_of_ne hxr]
    exact h.node x hx

theorem Closed.setEntry (h : Closed P F s) {e : BaEntry} (hhead : ∀ r, e.head = some r → F r)
    (hchain : ∀ r, e.chain = some r → F r) : Closed P F (s.setEntry k e) := by
  refine ⟨h.node, fun k' r hr => ?_, fun k' r hr => ?_, h.outs⟩
  · by_cases hk : k' = k
    · subst hk
      rw [show ((s.setEntry k' e).entry k') = e from Function.update_self ..] at hr
      exact hhead r hr
    · rw [show ((s.setEntry k e).entry k') = s.entry k' from Function.update_of_ne hk ..] at hr
      exact h.head k' r hr
  · by_cases hk : k' = k
    · subst hk
      rw [show ((s.setEntry k' e).entry k') = e from Function.update_self ..] at hr
      exact hchain r hr
    · rw [show ((s.setEntry k e).entry k') = s.entry k' from Function.update_of_ne hk ..] at hr
      exact h.chain k' r hr

/-- Writing an entry's words, `entry[3]` kept or cleared. -/
theorem Closed.setCtl (h : Closed P F s) {c : BaCtl}
    (hchain : c.chain = none ∨ c.chain = (s.entry k).chain) : Closed P F (s.setCtl k c) := by
  refine h.setEntry (h.head k) fun r hr => ?_
  rcases hchain with hnone | hsame
  · rw [show c.chain = some r from hr] at hnone
    cases hnone
  · exact h.chain k r (hsame ▸ hr)

theorem Closed.nodeFree (h : Closed P F s) (idx : ℕ) (p : Pool) :
    Closed P F (reorderNodeFree s idx p) := by
  cases p <;> exact ⟨h.node, h.head, h.chain, h.outs⟩

theorem Closed.nodeAlloc {node : NodeRef} (h : Closed P F s)
    (halloc : reorderNodeAlloc s = some (node, s')) : Closed P F s' := by
  unfold reorderNodeAlloc at halloc
  split at halloc
  · rw [← (Prod.mk.inj (Option.some.inj halloc)).2]
    exact ⟨h.node, h.head, h.chain, h.outs⟩
  · split at halloc
    · rw [← (Prod.mk.inj (Option.some.inj halloc)).2]
      exact ⟨h.node, h.head, h.chain, h.outs⟩
    · cases halloc

theorem Closed.mono {P' : KiteFrame → Prop} (h : Closed P F s) (hP : ∀ f, P f → P' f) :
    Closed P' F s := by
  refine ⟨fun r hr => ?_, h.head, h.chain, fun o ho => ?_⟩
  · obtain ⟨hframe, hnext, hhead, htail⟩ := h.node r hr
    exact ⟨hP _ hframe, hnext, hhead, htail⟩
  · have := h.outs o ho
    cases o with
    | bridge origin bufId len hdr band bss =>
      obtain ⟨f, hf, heq⟩ := this
      exact ⟨f, hP f hf, heq⟩
    | free band bufId => trivial

/-! ## Releases -/

theorem Closed.popMpdu (h : Closed P F s) (hm : F mpdu) : Closed P F (baPopMpdu s k mpdu) :=
  h.setEntry (h.node mpdu hm).next (h.chain k)

theorem Closed.releaseMsdus (h : Closed P F s) (hm : F mpdu) (band fuel : ℕ) :
    Closed P F (baReleaseMsdus k mpdu band fuel s) := by
  induction fuel generalizing s with
  | zero => exact h
  | succ fuel ih =>
    unfold baReleaseMsdus
    split
    · exact h
    · next msdu hmsdu =>
      have hn := h.node mpdu hm
      have hsub := h.node msdu (hn.msduHead msdu hmsdu)
      refine ih (((h.setNode ?_).emit (outOf_bridgeOut hsub.frame _ _ _)).nodeFree _ _)
      refine ⟨hn.frame, hn.next, hsub.next, fun r hr => hn.msduTail r ?_⟩
      simp only at hr
      split at hr
      · cases hr
      · exact hr

theorem Closed.releaseMpdu (h : Closed P F s) (hm : F mpdu) (band : ℕ) :
    Closed P F (baReleaseMpdu s k mpdu band) :=
  ((h.emit (outOf_bridgeOut (h.node mpdu hm).frame _ _ _)).releaseMsdus hm _ _).nodeFree _ _

theorem Closed.flushLoop (h : Closed P F s) (band fuel : ℕ) :
    Closed P F (baFlushLoop k band fuel s) := by
  induction fuel generalizing s with
  | zero => exact h
  | succ fuel ih =>
    unfold baFlushLoop
    split
    · exact h
    · next mpdu hhead =>
      have hm := h.head k mpdu hhead
      refine ih (Closed.releaseMpdu (Closed.setCtl (h.popMpdu hm) ?_) hm band)
      exact .inr rfl

theorem Closed.flushEntry (h : Closed P F s) : Closed P F (baFlushEntry s k) :=
  (h.flushLoop _ _).setCtl (.inl rfl)

theorem Closed.indicateLoop (h : Closed P F s) (band seq fuel : ℕ) :
    Closed P F (baIndicateLoop k band seq fuel s) := by
  induction fuel generalizing s with
  | zero => exact h
  | succ fuel ih =>
    unfold baIndicateLoop
    split
    · exact h
    · next mpdu hhead =>
      have hm := h.head k mpdu hhead
      split
      · exact h
      · exact ih ((h.popMpdu hm).releaseMpdu hm band)

theorem Closed.indicateLeSeq (h : Closed P F s) (seq : ℕ) : Closed P F (baIndicateLeSeq s k seq) :=
  h.indicateLoop _ _ _

theorem Closed.scanLoop (h : Closed P F s) (band fuel seq last : ℕ) :
    Closed P F (baScanLoop k band fuel s seq last).1 := by
  induction fuel generalizing s seq last with
  | zero => exact h
  | succ fuel ih =>
    unfold baScanLoop
    split
    · exact h
    · next mpdu hhead =>
      have hm := h.head k mpdu hhead
      simp only
      split
      · exact ih ((h.popMpdu hm).releaseMpdu hm band) _ _
      · exact h

theorem Closed.moveLast (h : Closed P F s) (seq : ℕ) : Closed P F (baMoveLast s k seq) := by
  have hset : Closed P F (s.setCtl k { (s.entry k).toBaCtl with last := seq }) :=
    h.setCtl (.inr rfl)
  have hscan : Closed P F
      (baSeqScan (s.setCtl k { (s.entry k).toBaCtl with last := seq }) k seq).1 :=
    hset.scanLoop _ _ _ _
  unfold baMoveLast
  simp only
  split
  · exact hscan
  · exact hscan.setCtl (.inr rfl)

theorem Closed.stateUpdate (h : Closed P F s) (sn checkType : ℕ) :
    Closed P F (baStateUpdate s k sn checkType) := by
  have hnone : Closed P F (s.setCtl k { (s.entry k).toBaCtl with chain := none }) :=
    h.setCtl (.inl rfl)
  unfold baStateUpdate
  simp only
  split
  · exact h
  · split
    · exact hnone
    · exact hnone.moveLast _

theorem Closed.timeoutLoop (h : Closed P F s) (now timeout fuel : ℕ) :
    Closed P F (baTimeoutLoop k now timeout fuel s) := by
  induction fuel generalizing s with
  | zero => exact h
  | succ fuel ih =>
    unfold baTimeoutLoop
    split
    · exact h
    · split
      · exact ih ((h.indicateLeSeq _).moveLast _)
      · exact h

/-! ## The classifier -/

theorem Closed.slide (h : Closed P F s) (sn fuel : ℕ) : Closed P F (kiteSlide k sn fuel s).1 := by
  induction fuel generalizing s with
  | zero => exact h
  | succ fuel ih =>
    unfold kiteSlide
    split
    · exact h
    · exact ih (((h.indicateLeSeq _).moveLast _).setCtl (.inr rfl))

theorem seen_keeps (c : BaCtl) (pn : KiteFrame) (flag : ℕ) :
    (c.seen pn flag).chain = none ∨ (c.seen pn flag).chain = c.chain := by
  unfold BaCtl.seen
  simp only
  split
  · exact .inl rfl
  · exact .inr rfl

theorem outOf_drop (hp : P pn) (k : BaKey) (fast : Bool) (band : ℕ) :
    OutOf P (if fast then bridgeOut k pn band pn.bss else .free band pn.bufId) := by
  split
  · exact outOf_bridgeOut hp _ _ _
  · trivial

theorem Closed.duplicate (h : Closed P F s) (hp : P pn) (fast : Bool) (band : ℕ) :
    Closed P F (kiteDuplicate s k fast pn band) :=
  (h.emit (outOf_drop hp k fast band)).setCtl (seen_keeps _ _ _)

theorem Closed.behind (h : Closed P F s) (hp : P pn) (fast : Bool) (band : ℕ) :
    Closed P F (kiteBehind s k fast pn band) := by
  have hseen : Closed P F (s.setCtl k ((s.entry k).toBaCtl.seen pn 2)) :=
    h.setCtl (seen_keeps _ _ _)
  unfold kiteBehind
  simp only
  split
  · exact (hseen.emit (outOf_bridgeOut hp _ _ _)).setCtl (.inr rfl)
  · exact hseen.emit (outOf_drop hp k fast band)

theorem Closed.inOrder (h : Closed P F s) (hp : P pn) : Closed P F (kiteInOrder s k pn) := by
  have hemit : Closed P F (s.emit (bridgeOut k pn (s.entry k).band pn.bss)) :=
    h.emit (outOf_bridgeOut hp _ _ _)
  unfold kiteInOrder
  simp only
  split
  · exact (hemit.moveLast _).setCtl (seen_keeps _ _ _)
  · exact hemit.setCtl (seen_keeps _ _ _)

/-- A node filled with a frame of `P` is one more filled node. -/
theorem Closed.fillNode (h : Closed P F s) (hp : P pn) (node : NodeRef) (tick : ℕ) :
    Closed P (fun r => F r ∨ r = node) (kiteFillNode s pn node tick) := by
  refine ⟨fun r hr => ?_, fun k r hr => .inl (h.head k r hr), fun k r hr => .inl (h.chain k r hr),
    h.outs⟩
  show NodeOk P _ (Function.update s.node node _ r)
  by_cases hrn : r = node
  · subst hrn
    rw [Function.update_self]
    exact ⟨hp, nofun, nofun, nofun⟩
  · rw [Function.update_of_ne hrn]
    obtain ⟨hframe, hnext, hhead, htail⟩ := h.node r (hr.resolve_right hrn)
    exact ⟨hframe, fun x hx => .inl (hnext x hx), fun x hx => .inl (hhead x hx),
      fun x hx => .inl (htail x hx)⟩

theorem Closed.chainTo {sub node : NodeRef} (h : Closed P F s) (hsub : F sub) (hnode : F node) :
    Closed P F (kiteChain s sub node) := by
  have hto : ∀ r, some node = some r → F r := by
    rintro r ⟨⟩
    exact hnode
  have hs := h.node sub hsub
  unfold kiteChain
  simp only
  have h1 : Closed P F (s.setNode sub { s.node sub with
      msduCnt := u16 ((s.node sub).msduCnt + 1) }) :=
    h.setNode ⟨hs.frame, hs.next, hs.msduHead, hs.msduTail⟩
  set s1 := s.setNode sub { s.node sub with msduCnt := u16 ((s.node sub).msduCnt + 1) }
  have hn1 := h1.node node hnode
  have h2 : Closed P F (s1.setNode node { s1.node node with next := none }) :=
    h1.setNode ⟨hn1.frame, nofun, hn1.msduHead, hn1.msduTail⟩
  set s2 := s1.setNode node { s1.node node with next := none }
  have hlast : ∀ s3, Closed P F s3 →
      Closed P F (s3.setNode sub { s3.node sub with msduTail := some node }) := by
    intro s3 h3
    have hs3 := h3.node sub hsub
    exact h3.setNode ⟨hs3.frame, hs3.next, hs3.msduHead, hto⟩
  cases htail : (s.node sub).msduTail with
  | some t =>
    have ht2 := h2.node t (hs.msduTail t htail)
    exact hlast _ (h2.setNode ⟨ht2.frame, hto, ht2.msduHead, ht2.msduTail⟩)
  | none =>
    have hs2 := h2.node sub hsub
    exact hlast _ (h2.setNode ⟨hs2.frame, hs2.next, hto, hs2.msduTail⟩)

theorem Closed.findPlace (h : Closed P F s) (sn fuel : ℕ) {prev cur : Option NodeRef}
    (hprev : ∀ r, prev = some r → F r) (hcur : ∀ r, cur = some r → F r) :
    (∀ r, (kiteFindPlace s sn fuel prev cur).1 = some r → F r) ∧
      ∀ r, (kiteFindPlace s sn fuel prev cur).2 = some r → F r := by
  induction fuel generalizing prev cur with
  | zero => exact ⟨hprev, hcur⟩
  | succ fuel ih =>
    cases cur with
    | none => exact ⟨hprev, nofun⟩
    | some c =>
      unfold kiteFindPlace
      split
      · exact ih hcur (h.node c (hcur c rfl)).next
      · exact ⟨hprev, hcur⟩

theorem Closed.link {node : NodeRef} {prev cur : Option NodeRef} (h : Closed P F s)
    (hnode : F node) (hprev : ∀ r, prev = some r → F r) (hcur : ∀ r, cur = some r → F r) :
    Closed P F (kiteLink s k pn node prev cur) := by
  have hto : ∀ r, some node = some r → F r := by
    rintro r ⟨⟩
    exact hnode
  have hn := h.node node hnode
  have h1 : Closed P F (s.setNode node { s.node node with next := cur }) :=
    h.setNode ⟨hn.frame, hcur, hn.msduHead, hn.msduTail⟩
  have h2 : Closed P F (linkFrom (s.setNode node { s.node node with next := cur }) k prev node) := by
    unfold linkFrom
    cases prev with
    | none => exact h1.setEntry hto (h1.chain k)
    | some p =>
      have hp := h1.node p (hprev p rfl)
      exact h1.setNode ⟨hp.frame, hto, hp.msduHead, hp.msduTail⟩
  unfold kiteLink
  simp only
  refine h2.setEntry (h2.head k) fun r hr => ?_
  simp only at hr
  split at hr
  · cases hr
  · exact hto r hr

theorem Closed.insert {node : NodeRef} (h : Closed P F s) (hnode : F node) :
    Closed P F (kiteInsert s k pn node) := by
  have hnone : ∀ r, (none : Option NodeRef) = some r → F r := nofun
  obtain ⟨hprev, hcur⟩ := h.findPlace pn.sn nodeFuel hnone (h.head k)
  unfold kiteInsert
  simp only
  split
  · exact (h.nodeFree _ _).emit trivial
  · exact h.link hnode hprev hcur

/-- A held frame fills a node. -/
theorem Closed.hold (h : Closed P F s) (hp : P pn) (tick : ℕ) :
    ∃ F', Closed P F' (kiteHold s k pn tick) := by
  unfold kiteHold
  split
  · exact ⟨F, h⟩
  · next node s' halloc =>
    have hfill := (h.nodeAlloc halloc).fillNode hp node tick
    refine ⟨fun r => F r ∨ r = node, Closed.setCtl ?_ (seen_keeps _ _ _)⟩
    cases hchain : ((kiteFillNode s' pn node tick).entry k).chain with
    | some sub => exact hfill.chainTo (hfill.chain k sub hchain) (.inr rfl)
    | none => exact hfill.insert (.inr rfl)

theorem Closed.take (h : Closed P F s) (hp : P pn) (flags : RxFlags) (band : ℕ) (st : Standing) :
    ∃ F', Closed P F' (kiteTake s k flags pn band st) := by
  cases st with
  | inOrder => exact ⟨F, h.inOrder hp⟩
  | duplicate => exact ⟨F, h.duplicate hp _ _⟩
  | behind => exact ⟨F, h.behind hp _ _⟩
  | inside => exact h.hold hp _

theorem Closed.openWindow (h : Closed P F s) : Closed P F (kiteOpenWindow s k pn) := by
  unfold kiteOpenWindow
  refine Closed.setCtl h.flushEntry ?_
  exact .inr rfl

theorem Closed.reorder (h : Closed P F s) (hp : P pn) (flags : RxFlags) (band : ℕ) :
    ∃ F', Closed P F' (kiteReorder s k flags pn band) := by
  have hopen : Closed P F (if (s.entry k).state = 3 then kiteOpenWindow s k pn else s) := by
    split
    · exact h.openWindow
    · exact h
  unfold kiteReorder
  simp only
  set t := if (s.entry k).state = 3 then kiteOpenWindow s k pn else s
  have hband : Closed P F (t.setCtl k { (t.entry k).toBaCtl with band := band }) := by
    refine Closed.setCtl hopen ?_
    exact .inr rfl
  exact Closed.take ((hband.stateUpdate _ _).slide _ _) hp _ _ _

theorem Closed.classifyPn (h : Closed P F s) (hp : P pn) (flags : RxFlags) (band : ℕ) :
    ∃ F', Closed P F' (kiteClassifyPn s flags pn band).1 := by
  unfold kiteClassifyPn
  split
  · exact ⟨F, h.emit trivial⟩
  · simp only
    split
    · exact ⟨F, h.flushEntry⟩
    · exact h.reorder hp flags band

/-! ## The mails -/

theorem Closed.setBaEntry (h : Closed P F s) (band winSize ssn : ℕ) :
    Closed P F (npuSetBaEntry s k band winSize ssn) := by
  unfold npuSetBaEntry
  simp only
  split
  · exact h.flushEntry.setCtl (.inr rfl)
  · exact h.flushEntry.setCtl (.inr rfl)

theorem Closed.resetBaEntry (h : Closed P F s) (dir : ℕ) :
    Closed P F (wifiResetBaEntry s k dir) :=
  h.flushEntry.setCtl (.inr rfl)

theorem Closed.barInfo (h : Closed P F s) (ssn : ℕ) : Closed P F (npuSetBarInfo s k ssn) := by
  have hupdate := h.stateUpdate (k := k) ssn 3
  unfold npuSetBarInfo
  simp only
  split
  · exact (hupdate.indicateLeSeq _).moveLast _
  · exact hupdate

end ClankerNPU.Kite
