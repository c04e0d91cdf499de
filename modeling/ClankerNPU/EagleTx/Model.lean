import ClankerNPU.Bufid.Safety
import Mathlib.Data.Fintype.Prod
import Mathlib.Tactic.NormNum

/-! # The eagle transmit path

    Core 2 moves LAN frames from the TDMA rx rings into the WiFi tx ring
    (`eagle_tdma_to_wifi`) and staged host frames into the same ring
    (`eagle_tx_ring_push`). Core 3 stages host frames (`eagle_tx_stage`)
    and takes tokens back from the tx done ring (`eagle_txdone_poll`).
    Both take and give tokens through the tx token ring, access by
    access. The build is the AN7583 eagle one: batches and jumbo pairs.

    What the hardware or the other harts decide is part of an action: a
    descriptor's own bit, `sta_q_drop`, whether a WiFi descriptor write
    takes, and the content of a tx done report. Debug counters, index
    registers and frame bytes carry no token and are left out. -/

namespace ClankerNPU.EagleTx

open Circular Bufid

/-! ## Words -/

/-- The bus address of a token's 2 KB buffer, `pkt` being
    `npu_tx_pkt_buf_addr`. -/
def tokAddr (pkt tok : ℕ) : ℕ := ((tok * 2 ^ 11 + pkt) % 2 ^ 32) % 2 ^ 30 + 2 ^ 31

/-- `(buf - npu_tx_pkt_buf_addr) >> 11` in 32 bits. -/
def addrTok (pkt buf : ℕ) : ℕ := (buf + 2 ^ 32 - pkt % 2 ^ 32) % 2 ^ 32 / 2 ^ 11

/-- The 16-bit token read back from a buffer's address is the one the
    address was made from, wherever the packet buffer lies. -/
theorem addrTok_tokAddr (pkt tok : ℕ) : addrTok pkt (tokAddr pkt tok) % 2 ^ 16 = tok % 2 ^ 16 := by
  unfold addrTok tokAddr
  omega

/-- The chip's token numbers have 15 bits; bit 15 is a valid mark. -/
def chipId (word : ℕ) : ℕ := word % 2 ^ 15

/-- The token word `eagle_tx_ring_push` writes, in the MAC TXP layout
    (DW7 bit 27) or the HIF one. -/
def pushWord (pkt : ℕ) (mac : Bool) (buf : ℕ) : ℕ :=
  if mac then addrTok pkt buf ||| 0x8000 else addrTok pkt buf % 2 ^ 16

/-- Both layouts tell the chip the token of the frame's buffer. -/
theorem chipId_pushWord (pkt : ℕ) (mac : Bool) (buf : ℕ) :
    chipId (pushWord pkt mac buf) = addrTok pkt buf % 2 ^ 16 % 2 ^ 15 := by
  unfold chipId pushWord
  cases mac with
  | true =>
    have hvalid : (0x8000 : ℕ) % 2 ^ 15 = 0 := by norm_num
    rw [if_pos rfl, Nat.or_mod_two_pow, hvalid, Nat.or_zero]
    omega
  | false => simp

/-- The 13-bit length of a host in ring entry, bits 30:18 of word 0. -/
def hostLen (hdr : ℕ) : ℕ := hdr * 2 % 2 ^ 32 / 2 ^ 19

/-! ## Data -/

/-- `EAGLE_TX_BUF_BYTES` -/
def eagleTxBufBytes : ℕ := 2048

/-- A staging entry: buffer address, token, length and own flag. The
    address of the entry's TXD copy never changes. -/
structure StageEntry where
  buf : ℕ
  token : ℕ
  len : ℕ
  own : ℕ

/-- Band and index of a staging entry, `EAGLE_STAGE_ENTRIES` a band. -/
abbrev StageKey : Type := Fin 2 × Fin 512

/-- Ring and index of a TDMA rx descriptor. -/
abbrev DescKey : Type := Fin 2 × Fin 1024

/-- `idx++; (idx == EAGLE_STAGE_ENTRIES) ? 0 : idx` -/
def stageNext (i : Fin 512) : Fin 512 := if i = 511 then 0 else i + 1

/-- `(ridx > TDMA_RX_RING_DESCS - 2) ? 0 : ridx + 1` -/
def descNext (i : Fin 1024) : Fin 1024 := if i > 1022 then 0 else i + 1

/-- The staging index the queue set-up starts from. -/
def stageFirst : Fin 512 := 0

/-- The TDMA rx index the ring set-up starts from. -/
def descFirst : Fin 1024 := 0

/-- What `eagle_tdma_to_wifi` keeps across its loop; `toks` is
    `toks[used..ntok)`. -/
structure TdmaRun where
  ring : Fin 2
  ridx : Fin 1024
  budget : ℕ
  toks : List ℕ

/-- Where core 2 stands. -/
inductive Core2Pc where
  | idle
  /-- at the head of the loop -/
  | tdma (t : TdmaRun)
  /-- in `tx_token_alloc_n` -/
  | tdmaAlloc (t : TdmaRun)
  /-- about to test `used == ntok` again -/
  | tdmaTaken (t : TdmaRun)
  /-- the descriptor has its new buffer, `tok`'s frame goes to the chip -/
  | tdmaFill (t : TdmaRun) (tok : ℕ)
  /-- in `tx_token_free` after a failed fill -/
  | tdmaFree (t : TdmaRun) (tok : ℕ)
  /-- at label `next` -/
  | tdmaNext (t : TdmaRun) (stop : Bool)
  /-- past the loop -/
  | tdmaEnd (t : TdmaRun)
  /-- in `tx_token_free_n` for the tokens not reached -/
  | tdmaFreeN (t : TdmaRun)
  /-- entry checked and waits over, TXD and descriptor to be written -/
  | pushTok (k : StageKey)
  /-- entry to be cleared -/
  | pushClear (k : StageKey)
  /-- own flag to be cleared -/
  | pushOwn (k : StageKey)

/-- Where core 3 stands. -/
inductive Core3Pc where
  | idle
  /-- the entry is free and the frame passed the queue limit -/
  | stage (k : StageKey) (len : ℕ)
  /-- in `tx_token_alloc` -/
  | stageAlloc (k : StageKey) (len : ℕ)
  /-- `token` in hand, -1 when there was none -/
  | stageTok (k : StageKey) (len : ℕ) (token : ℤ)
  /-- token recorded, frame to be copied -/
  | stageCopy (k : StageKey) (len : ℕ) (token : ℤ)
  /-- own flag to be set -/
  | stageOwn (k : StageKey) (token : ℤ)
  /-- in the poll loop: `rest` of a report to do, `toks[0..nt)` to give back -/
  | done (rest toks : List ℕ)
  /-- in `tx_token_free_n` with a full batch -/
  | doneFree (rest toks : List ℕ)
  /-- in the last `tx_token_free_n` -/
  | doneEnd (toks : List ℕ)

/-- The transmit path's shared memory and the two cores. -/
structure TxState where
  /-- the tx token ring -/
  ring : IdRing
  /-- `tx_jumbo_stack[0..tx_jumbo_top)`, top first -/
  jumbo : List ℕ
  /-- buffer word (+8) of each TDMA rx descriptor -/
  desc : DescKey → ℕ
  tdmaRidx : Fin 2 → Fin 1024
  stage : StageKey → StageEntry
  stageWidx : Fin 2 → Fin 512
  stageRidx : Fin 2 → Fin 512
  /-- tokens given to the WiFi chip and not reported yet -/
  chip : Multiset ℕ
  core2 : Core2Pc
  core3 : Core3Pc

/-! ## Tx done reports -/

/-- `EAGLE_TXDONE_REPORT_MAX` -/
def eagleTxdoneReportMax : ℕ := 2 ^ 11 - 192 - 12

/-- A token report as it lies in memory: the header word and the words
    from offset 12 on. -/
structure TxReport where
  hdr : ℕ
  word : ℕ → ℕ

/-- The bytes of the report after its first 12. -/
def TxReport.body (r : TxReport) : ℕ := r.hdr % 2 ^ 16 - 12

/-- The words the loop may read. -/
def TxReport.words (r : TxReport) : List ℕ :=
  (List.range (min r.body eagleTxdoneReportMax / 4)).map r.word

/-- `cnt = (hdr >> 16) & 0xFF` -/
def TxReport.cnt (r : TxReport) : ℕ := r.hdr / 2 ^ 16 % 2 ^ 8

/-- The token ids of one word: none when bit 31 or 30 is set, else the
    two 15-bit halves that are not the terminator. -/
def wordIds (w : ℕ) : List ℕ :=
  if w / 2 ^ 30 % 4 ≠ 0 then []
  else [w % 2 ^ 15, w / 2 ^ 15 % 2 ^ 15].filter (· ≠ 0x7FFF)

/-- The loop over the report words: `n` ids seen so far, up to `cnt`; an
    id above 0x33FF is counted and skipped. -/
def reportScan (cnt n : ℕ) : List ℕ → List ℕ
  | [] => []
  | w :: ws =>
    if n < cnt then
      (wordIds w).filter (· ≤ 0x33FF) ++ reportScan cnt (n + (wordIds w).length) ws
    else []

/-- The tokens the code takes out of a report. -/
def TxReport.freed (r : TxReport) : List ℕ := reportScan r.cnt 0 r.words

/-- The tokens a report lists. -/
def TxReport.listed (r : TxReport) : List ℕ := r.words.flatMap wordIds

/-- The chip's side of the format: the report fits its buffer and its
    count is the number of ids it lists. -/
def TxReport.WellFormed (r : TxReport) : Prop :=
  r.body ≤ eagleTxdoneReportMax ∧ r.cnt = r.listed.length

theorem reportScan_eq (ws : List ℕ) (n : ℕ) :
    reportScan (n + (ws.flatMap wordIds).length) n ws
      = (ws.flatMap wordIds).filter (· ≤ 0x33FF) := by
  induction ws generalizing n with
  | nil => rfl
  | cons w ws ih =>
    rw [reportScan, List.flatMap_cons, List.length_append, List.filter_append]
    split
    · next hlt =>
      have := ih (n + (wordIds w).length)
      rw [Nat.add_assoc] at this
      rw [this]
    · next hge =>
      -- the count is used up, so nothing is left in the words
      have hw : wordIds w = [] := List.length_eq_zero_iff.mp (by omega)
      have hws : ws.flatMap wordIds = [] := List.length_eq_zero_iff.mp (by omega)
      simp [hw, hws]

/-- The code frees exactly the listed tokens of a well-formed report. -/
theorem TxReport.WellFormed.freed_eq {r : TxReport} (h : r.WellFormed) :
    r.freed = r.listed.filter (· ≤ 0x33FF) := by
  have hscan := reportScan_eq r.words 0
  rw [Nat.zero_add] at hscan
  rw [TxReport.freed, h.2]
  exact hscan

/-! ## Core 2 -/

/-- What core 2 does next. -/
inductive Core2Action where
  /-- `eagle_tdma_to_wifi(ring, budget)` is called -/
  | tdmaStart (ring : Fin 2) (budget : ℕ)
  /-- the descriptor at `ridx` is read: the PPE has filled it or not, the
      queue limit drops the frame or not, and `ready` filled descriptors
      lie ahead -/
  | head (filled drop : Bool) (ready : ℕ)
  /-- an access inside `id_ring_take` -/
  | alloc
  /-- the descriptor gets a fresh buffer -/
  | take
  /-- the WiFi tx descriptor write takes or not -/
  | fill (ok : Bool)
  /-- an access inside `tx_token_free` or `id_ring_put` -/
  | free
  | next
  | finish
  /-- `eagle_tx_ring_push(band)` is called -/
  | pushStart (band : Fin 2)
  /-- the frame goes to the chip; the host's TXD picks the layout -/
  | give (mac : Bool)
  | clear
  | clearOwn

/-! Each step is `none` when core 2 is not at that point or waits for a
    mutex. -/

/-- Entry of `eagle_tdma_to_wifi`. -/
def tdmaStart (s : TxState) (ring : Fin 2) (budget : ℕ) : Option TxState :=
  match s.core2 with
  | .idle =>
    let t : TdmaRun :=
      { ring := ring, ridx := s.tdmaRidx ring, budget := if budget > 127 then 128 else budget,
        toks := [] }
    some { s with core2 := .tdma t }
  | _ => none

/-- Head of the loop. With no token in hand the ready descriptors are
    counted and tokens asked for. -/
def tdmaHead (s : TxState) (filled drop : Bool) (ready : ℕ) : Option TxState :=
  match s.core2 with
  | .tdma t =>
    if filled = false then some { s with core2 := .tdmaEnd t }
    else if drop then some { s with core2 := .tdmaNext t false }
    else if t.toks = [] then
      if s.ring.alloc = .idle then
        some { s with
          ring := { s.ring with alloc := .take (min ready (if t.budget < 8 then t.budget else 8)) }
          core2 := .tdmaAlloc t }
      else none
    else some { s with core2 := .tdmaTaken t }
  | _ => none

/-- An access inside `tx_token_alloc_n`. -/
def tdmaAlloc (s : TxState) : Option TxState :=
  match s.core2 with
  | .tdmaAlloc t =>
    match (s.ring.allocStep (txFreeRingEntries - 1)).2 with
    | none => some { s with ring := (s.ring.allocStep (txFreeRingEntries - 1)).1 }
    | some ids =>
      some { s with
        ring := (s.ring.allocStep (txFreeRingEntries - 1)).1
        core2 := .tdmaTaken { t with toks := ids } }
  | _ => none

/-- The slot is rearmed: with a fresh buffer, or as it is when there is
    none. -/
def tdmaTake (pkt : ℕ) (s : TxState) : Option TxState :=
  match s.core2 with
  | .tdmaTaken t =>
    match t.toks with
    | [] => some { s with core2 := .tdmaNext t true }
    | new :: rest =>
      some { s with
        desc := Function.update s.desc (t.ring, t.ridx) (tokAddr pkt new)
        core2 := .tdmaFill { t with toks := rest } (addrTok pkt (s.desc (t.ring, t.ridx))) }
  | _ => none

/-- `eagle_tx_ring_fill`, and `tx_token_free` when it fails. -/
def tdmaFill (s : TxState) (ok : Bool) : Option TxState :=
  match s.core2 with
  | .tdmaFill t tok =>
    if ok then
      some { s with chip := chipId (tok % 2 ^ 16) ::ₘ s.chip, core2 := .tdmaNext t false }
    else if s.ring.free = .idle then
      some { s with
        ring := { s.ring with free := .tok (tok % 2 ^ 16) }
        core2 := .tdmaFree t (tok % 2 ^ 16) }
    else none
  | _ => none

/-- Label `next` and the loop condition. -/
def tdmaNext (s : TxState) : Option TxState :=
  match s.core2 with
  | .tdmaNext t stop =>
    let t' := { t with ridx := descNext t.ridx, budget := (t.budget + 2 ^ 32 - 1) % 2 ^ 32 }
    if stop ∨ t'.budget = 0 then some { s with core2 := .tdmaEnd t' }
    else some { s with core2 := .tdma t' }
  | _ => none

/-- The loop is over: tokens taken for frames not reached go back. -/
def tdmaFinish (s : TxState) : Option TxState :=
  match s.core2 with
  | .tdmaEnd t =>
    if t.toks = [] then
      some { s with tdmaRidx := Function.update s.tdmaRidx t.ring t.ridx, core2 := .idle }
    else if s.ring.free = .idle then
      some { s with ring := { s.ring with free := .put t.toks }, core2 := .tdmaFreeN t }
    else none
  | _ => none

/-- An access inside `tx_token_free` or `tx_token_free_n`. -/
def core2Free (s : TxState) : Option TxState :=
  match s.core2 with
  | .tdmaFree t _ =>
    match (s.ring.freeStep (txFreeRingEntries - 1)).2 with
    | none => some { s with ring := (s.ring.freeStep (txFreeRingEntries - 1)).1 }
    | some _ =>
      some { s with
        ring := (s.ring.freeStep (txFreeRingEntries - 1)).1
        core2 := .tdmaNext t true }
  | .tdmaFreeN t =>
    match (s.ring.freeStep (txFreeRingEntries - 1)).2 with
    | none => some { s with ring := (s.ring.freeStep (txFreeRingEntries - 1)).1 }
    | some _ =>
      some { s with
        ring := (s.ring.freeStep (txFreeRingEntries - 1)).1
        tdmaRidx := Function.update s.tdmaRidx t.ring t.ridx
        core2 := .idle }
  | _ => none

/-- Entry of `eagle_tx_ring_push`: own flag, then token and length. -/
def pushStart (s : TxState) (band : Fin 2) : Option TxState :=
  match s.core2 with
  | .idle =>
    if (s.stage (band, s.stageRidx band)).own ≠ 1 then some s
    else if (s.stage (band, s.stageRidx band)).token < 2 ^ 15 ∧
        (s.stage (band, s.stageRidx band)).len ≠ 0 then
      some { s with core2 := .pushTok (band, s.stageRidx band) }
    else some { s with core2 := .pushClear (band, s.stageRidx band) }
  | _ => none

/-- TXD and descriptor are written. -/
def pushGive (pkt : ℕ) (s : TxState) (mac : Bool) : Option TxState :=
  match s.core2 with
  | .pushTok k =>
    some { s with
      chip := chipId (pushWord pkt mac (s.stage k).buf) ::ₘ s.chip
      core2 := .pushClear k }
  | _ => none

/-- The words at +4 and +8 are cleared. -/
def pushClear (s : TxState) : Option TxState :=
  match s.core2 with
  | .pushClear k =>
    some { s with
      stage := Function.update s.stage k ⟨0, 0xFFFF, 0, (s.stage k).own⟩
      core2 := .pushOwn k }
  | _ => none

/-- The own flag is cleared and the read index moves on. -/
def pushOwn (s : TxState) : Option TxState :=
  match s.core2 with
  | .pushOwn k =>
    some { s with
      stage := Function.update s.stage k { s.stage k with own := 0 }
      stageRidx := Function.update s.stageRidx k.1 (stageNext k.2)
      core2 := .idle }
  | _ => none

/-- One step of core 2. -/
def core2Step (pkt : ℕ) (s : TxState) : Core2Action → Option TxState
  | .tdmaStart ring budget => tdmaStart s ring budget
  | .head filled drop ready => tdmaHead s filled drop ready
  | .alloc => tdmaAlloc s
  | .take => tdmaTake pkt s
  | .fill ok => tdmaFill s ok
  | .free => core2Free s
  | .next => tdmaNext s
  | .finish => tdmaFinish s
  | .pushStart band => pushStart s band
  | .give mac => pushGive pkt s mac
  | .clear => pushClear s
  | .clearOwn => pushOwn s

/-! ## Core 3 -/

/-- What core 3 does next. -/
inductive Core3Action where
  /-- `eagle_tx_stage(band, in)` is called for an entry with header word
      `hdr`; the queue limit drops the frame or not -/
  | stageStart (band : Fin 2) (hdr : ℕ) (drop : Bool)
  /-- the length is recorded and a token asked for -/
  | stageLen
  /-- an access inside `tx_token_alloc` -/
  | alloc
  /-- the token is recorded and tested -/
  | stageTok
  | stageCopy
  | stageOwn
  /-- `eagle_txdone_poll` is called -/
  | pollStart
  /-- the next tx done descriptor holds a token report -/
  | report (r : TxReport)
  /-- `eagle_tok_free` on the next token of the report -/
  | put
  /-- an access inside `id_ring_put` -/
  | free
  /-- the next tx done descriptor is not the chip's yet -/
  | pollEnd

/-- Entry of `eagle_tx_stage`: no room, dropped, or to be staged. -/
def stageStart (s : TxState) (band : Fin 2) (hdr : ℕ) (drop : Bool) : Option TxState :=
  match s.core3 with
  | .idle =>
    if (s.stage (band, s.stageWidx band)).own = 1 then some s
    else if drop then some s
    else some { s with core3 := .stage (band, s.stageWidx band) (hostLen hdr) }
  | _ => none

/-- The length is recorded. A frame longer than one buffer takes two
    adjacent ones, the stack of which is core 3's own; with none free it
    waits. -/
def stageLen (s : TxState) : Option TxState :=
  match s.core3 with
  | .stage k len =>
    if len > eagleTxBufBytes then
      let len' := min len (2 * eagleTxBufBytes)
      let stage' := Function.update s.stage k { s.stage k with len := len' }
      match s.jumbo with
      | [] => some { s with stage := stage', core3 := .stageTok k len' (-1) }
      | token :: rest =>
        some { s with stage := stage', jumbo := rest, core3 := .stageTok k len' token }
    else if s.ring.alloc = .idle then
      some { s with
        stage := Function.update s.stage k { s.stage k with len := len }
        ring := { s.ring with alloc := .one }
        core3 := .stageAlloc k len }
    else none
  | _ => none

/-- An access inside `tx_token_alloc`. -/
def stageAlloc (s : TxState) : Option TxState :=
  match s.core3 with
  | .stageAlloc k len =>
    match (s.ring.allocStep (txFreeRingEntries - 1)).2 with
    | none => some { s with ring := (s.ring.allocStep (txFreeRingEntries - 1)).1 }
    | some ids =>
      some { s with
        ring := (s.ring.allocStep (txFreeRingEntries - 1)).1
        core3 := .stageTok k len (allocRet ids) }
  | _ => none

/-- The token is recorded; without one the frame waits. -/
def stageTok (s : TxState) : Option TxState :=
  match s.core3 with
  | .stageTok k len token =>
    let stage' := Function.update s.stage k { s.stage k with token := u16 token }
    if token = -1 then some { s with stage := stage', core3 := .idle }
    else some { s with stage := stage', core3 := .stageCopy k len token }
  | _ => none

/-- A frame with a length is copied and its address recorded. -/
def stageCopy (pkt : ℕ) (s : TxState) : Option TxState :=
  match s.core3 with
  | .stageCopy k len token =>
    if len ≠ 0 then
      some { s with
        stage := Function.update s.stage k { s.stage k with buf := tokAddr pkt (u32 token) }
        core3 := .stageOwn k token }
    else some { s with core3 := .stageOwn k token }
  | _ => none

/-- The own flag is set and the write index moves on. -/
def stageOwn (s : TxState) : Option TxState :=
  match s.core3 with
  | .stageOwn k _ =>
    some { s with
      stage := Function.update s.stage k { s.stage k with own := 1 }
      stageWidx := Function.update s.stageWidx k.1 (stageNext k.2)
      core3 := .idle }
  | _ => none

/-- Entry of `eagle_txdone_poll`. -/
def pollStart (s : TxState) : Option TxState :=
  match s.core3 with
  | .idle => some { s with core3 := .done [] [] }
  | _ => none

/-- A token report is found in the tx done ring. -/
def pollReport (s : TxState) (r : TxReport) : Option TxState :=
  match s.core3 with
  | .done [] toks => some { s with chip := s.chip - r.listed, core3 := .done r.freed toks }
  | _ => none

/-- `eagle_tok_free`: `tx_jumbo_free`, or the batch, which goes back when
    it has 32 tokens. -/
def pollPut (s : TxState) : Option TxState :=
  match s.core3 with
  | .done (t :: rest) toks =>
    if t ≥ txJumboFirst then
      some { s with
        jumbo := if s.jumbo.length < txJumboPairs then t :: s.jumbo else s.jumbo
        core3 := .done rest toks }
    else if (toks ++ [t]).length = 32 then
      if s.ring.free = .idle then
        some { s with
          ring := { s.ring with free := .put (toks ++ [t]) }
          core3 := .doneFree rest (toks ++ [t]) }
      else none
    else some { s with core3 := .done rest (toks ++ [t]) }
  | _ => none

/-- No report is left: the rest of the batch goes back. -/
def pollEnd (s : TxState) : Option TxState :=
  match s.core3 with
  | .done [] toks =>
    if toks = [] then some { s with core3 := .idle }
    else if s.ring.free = .idle then
      some { s with ring := { s.ring with free := .put toks }, core3 := .doneEnd toks }
    else none
  | _ => none

/-- An access inside `tx_token_free_n`. -/
def core3Free (s : TxState) : Option TxState :=
  match s.core3 with
  | .doneFree rest _ =>
    match (s.ring.freeStep (txFreeRingEntries - 1)).2 with
    | none => some { s with ring := (s.ring.freeStep (txFreeRingEntries - 1)).1 }
    | some _ =>
      some { s with ring := (s.ring.freeStep (txFreeRingEntries - 1)).1, core3 := .done rest [] }
  | .doneEnd _ =>
    match (s.ring.freeStep (txFreeRingEntries - 1)).2 with
    | none => some { s with ring := (s.ring.freeStep (txFreeRingEntries - 1)).1 }
    | some _ =>
      some { s with ring := (s.ring.freeStep (txFreeRingEntries - 1)).1, core3 := .idle }
  | _ => none

/-- One step of core 3. -/
def core3Step (pkt : ℕ) (s : TxState) : Core3Action → Option TxState
  | .stageStart band hdr drop => stageStart s band hdr drop
  | .stageLen => stageLen s
  | .alloc => stageAlloc s
  | .stageTok => stageTok s
  | .stageCopy => stageCopy pkt s
  | .stageOwn => stageOwn s
  | .pollStart => pollStart s
  | .report r => pollReport s r
  | .put => pollPut s
  | .free => core3Free s
  | .pollEnd => pollEnd s

end ClankerNPU.EagleTx
