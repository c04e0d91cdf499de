import ClankerNPU.Lib.Tally
import ClankerNPU.StaQ.Decide

/-! # The hooks around a tx token

    The counters, the token map and the probes that `sta_q_sent_tok`,
    `sta_q_unsent_tok`, `sta_q_done_tok` and the checks before a frame
    share, at the granularity of single loads and stores. Core 2 sends
    LAN frames; core 3 completes frames and, with the Clanker driver,
    sends host frames. One micro-step is one access of one hart, in any
    interleaving.

    The counters sit in memory the harts share; which frame a token
    carries (`flight`), whether the chip has it (`inChip`) and the values
    written to the probes' delays (`delays`) are recorded next to them. -/

namespace ClankerNPU.StaQ

/-- `STA_Q_TOKENS` -/
def staQTokens : ℕ := 13312

/-- `STA_Q_STAS` -/
def staQStas : ℕ := 1024

/-- A frame: its station and the tick of its send hook. -/
structure Frame where
  sta : ℕ
  tick : ℕ
  deriving DecidableEq, Repr

/-- The station a frame is counted for, if any. -/
def Frame.station (f : Frame) : Option ℕ := if f.sta < staQStas then some f.sta else none

/-- Where a hart stands in a hook; the next access is the one named. -/
inductive Stage where
  /-- `map[tok] = sta` -/
  | sentMap
  /-- `sent[sta]++`: the load -/
  | sentLoad
  | sentStore (n : ℕ)
  /-- is the probe free? -/
  | armLoad
  | armStore
  /-- sent, but the chip does not have the frame yet -/
  | filling
  /-- `map[tok] = STA_Q_NONE` -/
  | unMap
  /-- `sent[sta]--`: the load -/
  | unLoad
  | unStore (n : ℕ)
  /-- is the probe timing this token? -/
  | unProbe
  | unClear
  /-- `sta = map[tok]` -/
  | dnLoad
  /-- `map[tok] = STA_Q_NONE` -/
  | dnMap (sta : ℕ)
  /-- `done[sta]++`: the load -/
  | dnCount (sta : ℕ)
  | dnStore (sta n : ℕ)
  /-- is the probe timing this token? -/
  | dnProbe (sta : ℕ)
  /-- `delay = tick - (w >> 16)` -/
  | dnDelay (sta w : ℕ)
  | dnClear (sta : ℕ)
  deriving DecidableEq, Repr

/-- The stages of the done hook. -/
def Stage.isDone : Stage → Bool
  | .dnLoad | .dnMap _ | .dnCount _ | .dnStore _ _ | .dnProbe _ | .dnDelay _ _ | .dnClear _ => true
  | _ => false

/-- The counters include the frame. -/
def Stage.counted : Stage → Bool
  | .armLoad | .armStore | .filling | .unMap | .unLoad | .unStore _ => true
  | .dnLoad | .dnMap _ | .dnCount _ | .dnStore _ _ => true
  | _ => false

/-- The map names the frame's station. -/
def Stage.mapped : Stage → Bool
  | .sentLoad | .sentStore _ | .armLoad | .armStore | .filling | .unMap => true
  | .dnLoad | .dnMap _ => true
  | _ => false

/-- Where the send hook of a frame begins. -/
def Frame.firstStage (f : Frame) : Stage := if f.sta < staQStas then .sentMap else .filling

/-- Where a hart stands. -/
inductive Pc where
  | idle
  /-- `sta_q_decide`, with the counters loaded so far, in any order -/
  | check (sta : ℕ) (own other done : Option ℕ)
  /-- past the hard limit, or not checked at all -/
  | clear (sta : ℕ)
  /-- `sta_q_delay`, about to load the probe -/
  | delay (sta now : ℕ)
  /-- the probe is stale, about to free it -/
  | stale (sta : ℕ)
  /-- in a hook of a token; `tick` is the tick of a done report -/
  | hook (g : Stage) (tok : ℕ) (f : Frame) (tick : ℕ)
  deriving DecidableEq, Repr

/-- A value written to a probe's delay, and the frame it was written for. -/
structure DelayWrite where
  sta : ℕ
  value : ℕ
  frame : Frame
  doneTick : ℕ
  deriving DecidableEq, Repr

/-- The shared memory, the recording fields and the harts. -/
structure Hooks where
  map : ℕ → ℕ
  sent : Sender → ℕ → ℕ
  done : ℕ → ℕ
  tokts : ℕ → ℕ
  delay : ℕ → ℕ
  flight : ℕ → Option Frame
  inChip : ℕ → Bool
  delays : List DelayWrite
  pc : Sender → Pc

namespace Hooks

def setPc (s : Hooks) (h : Sender) (p : Pc) : Hooks :=
  { s with pc := Function.update s.pc h p }

/-- The token carries a frame; a frame of no station is not counted. -/
def carry (s : Hooks) (h : Sender) (tok : ℕ) (f : Frame) : Hooks :=
  { s with
    flight := Function.update s.flight tok (some f)
    pc := Function.update s.pc h (.hook f.firstStage tok f 0) }

/-- The frame is out of the sender's hands. -/
def publish (s : Hooks) (h : Sender) (tok : ℕ) : Hooks :=
  { s with
    inChip := Function.update s.inChip tok true
    pc := Function.update s.pc h .idle }

/-- The token is free again and the hart out of the hook. -/
def finish (s : Hooks) (h : Sender) (tok : ℕ) : Hooks :=
  { s with
    flight := Function.update s.flight tok none
    inChip := Function.update s.inChip tok false
    pc := Function.update s.pc h .idle }

def setMap (s : Hooks) (tok sta : ℕ) : Hooks := { s with map := Function.update s.map tok sta }

def setSent (s : Hooks) (h : Sender) (sta n : ℕ) : Hooks :=
  { s with sent := Function.update s.sent h (Function.update (s.sent h) sta n) }

def setDone (s : Hooks) (sta n : ℕ) : Hooks := { s with done := Function.update s.done sta n }

def setTokts (s : Hooks) (sta w : ℕ) : Hooks := { s with tokts := Function.update s.tokts sta w }

/-- `p->delay = …` -/
def setDelay (s : Hooks) (sta value : ℕ) (f : Frame) (tick : ℕ) : Hooks :=
  { s with
    delay := Function.update s.delay sta value
    delays := s.delays ++ [⟨sta, value, f, tick⟩] }

end Hooks

/-- After `sta_q_init`. -/
def staQInit : Hooks where
  map := fun _ => staQNone
  sent := fun _ _ => 0
  done := fun _ => 0
  tokts := fun _ => staQNone
  delay := fun _ => 0
  flight := fun _ => none
  inChip := fun _ => false
  delays := []
  pc := fun _ => .idle

/-! ## Micro-steps -/

/-- The next access of a hart in a hook. -/
def hookStep (s : Hooks) (h : Sender) (tok : ℕ) (f : Frame) (tick : ℕ) (g : Stage) :
    Option Hooks :=
  let goto := fun (s : Hooks) (g : Stage) => some (s.setPc h (.hook g tok f tick))
  match g with
  | .sentMap => goto (s.setMap tok f.sta) .sentLoad
  | .sentLoad => goto s (.sentStore (s.sent h f.sta))
  | .sentStore n => goto (s.setSent h f.sta (u16 (n + 1))) .armLoad
  | .armLoad => goto s (if s.tokts f.sta % 2 ^ 16 = staQNone then .armStore else .filling)
  | .armStore => goto (s.setTokts f.sta (tok + f.tick * 2 ^ 16)) .filling
  | .filling => none
  | .unMap => goto (s.setMap tok staQNone) .unLoad
  | .unLoad => goto s (.unStore (s.sent h f.sta))
  | .unStore n => goto (s.setSent h f.sta (u16 ((n : ℤ) - 1))) .unProbe
  | .unProbe => if s.tokts f.sta % 2 ^ 16 = tok then goto s .unClear else some (s.finish h tok)
  | .unClear => some ((s.setTokts f.sta staQNone).finish h tok)
  | .dnLoad => if s.map tok ≠ staQNone then goto s (.dnMap (s.map tok)) else some (s.finish h tok)
  | .dnMap sta => goto (s.setMap tok staQNone) (.dnCount sta)
  | .dnCount sta => goto s (.dnStore sta (s.done sta))
  | .dnStore sta n => goto (s.setDone sta (u16 (n + 1))) (.dnProbe sta)
  | .dnProbe sta =>
    if s.tokts sta % 2 ^ 16 = tok then goto s (.dnDelay sta (s.tokts sta))
    else some (s.finish h tok)
  | .dnDelay sta w =>
    goto (s.setDelay sta (u16 ((tick : ℤ) - (w / 2 ^ 16 : ℕ))) f tick) (.dnClear sta)
  | .dnClear sta => some ((s.setTokts sta staQNone).finish h tok)

/-- The counters `sta_q_decide` reads. -/
inductive Counter where
  | own
  | other
  | done
  deriving DecidableEq, Repr

/-- The other sending hart. -/
def Sender.other : Sender → Sender
  | .lan => .host
  | .host => .lan

/-- What a build and its settings fix. -/
structure QBuild where
  /-- `USE_CLANKER_DRIVER`: core 3 sends host frames under the limit too -/
  clanker : Bool
  cfg : StaQCfg
  deriving DecidableEq, Repr

/-- `c->on` -/
def QBuild.on (b : QBuild) : Bool := b.cfg.limit ≠ 0 || b.cfg.target ≠ 0 || b.cfg.delay ≠ 0

inductive HookAction where
  /-- `sta_q_drop` for a frame of a station -/
  | begin (h : Sender) (sta : ℕ)
  /-- one load of `sta_q_decide` -/
  | load (h : Sender) (c : Counter)
  /-- the comparison with the hard limit -/
  | decide (h : Sender)
  /-- `sta_q_delay` -/
  | look (h : Sender) (now : ℕ)
  /-- the frame is dropped after all, or there is no token for it -/
  | giveUp (h : Sender)
  /-- `sta_q_sent_tok` with a free token -/
  | take (h : Sender) (tok now : ℕ)
  /-- the frame goes to the chip -/
  | publish (h : Sender)
  /-- `sta_q_unsent_tok` -/
  | unsend (h : Sender)
  /-- `sta_q_done_tok` for a token the chip reports -/
  | report (tok now : ℕ)
  /-- the next access of a hart in a hook or in `sta_q_delay` -/
  | next (h : Sender)

/-- The tick of a cycle count. -/
def tickOf (now : ℕ) : ℕ := now % 2 ^ 32 / 2 ^ 16

def beginStep (b : QBuild) (s : Hooks) (h : Sender) (sta : ℕ) : Option Hooks :=
  if s.pc h = .idle ∧ (h = .lan ∨ b.clanker) then
    if b.on ∧ sta < staQStas then
      -- the default build reads two counters
      some (s.setPc h (.check sta none (if b.clanker then none else some 0) none))
    else some (s.setPc h (.clear sta))
  else none

def loadStep (s : Hooks) (h : Sender) (c : Counter) : Option Hooks :=
  match s.pc h, c with
  | .check sta none other done, .own =>
    some (s.setPc h (.check sta (some (s.sent h sta)) other done))
  | .check sta own none done, .other =>
    some (s.setPc h (.check sta own (some (s.sent h.other sta)) done))
  | .check sta own other none, .done => some (s.setPc h (.check sta own other (some (s.done sta))))
  | _, _ => none

/-- `c->limit != 0 && q >= c->limit` -/
def QBuild.full (b : QBuild) (own other done : ℕ) : Prop :=
  b.cfg.limit ≠ 0 ∧ b.cfg.limit ≤ (s16 (u16 ((own : ℤ) + other - done))).toNat

instance (b : QBuild) (own other done : ℕ) : Decidable (b.full own other done) :=
  inferInstanceAs (Decidable (_ ∧ _))

def decideStep (b : QBuild) (s : Hooks) (h : Sender) : Option Hooks :=
  match s.pc h with
  | .check sta (some own) (some other) (some done) =>
    some (s.setPc h (if b.full own other done then .idle else .clear sta))
  | _ => none

def lookStep (s : Hooks) (h : Sender) (now : ℕ) : Option Hooks :=
  match s.pc h with
  | .clear sta => if sta < staQStas then some (s.setPc h (.delay sta now)) else none
  | _ => none

def giveUpStep (s : Hooks) (h : Sender) : Option Hooks :=
  match s.pc h with
  | .clear _ => some (s.setPc h .idle)
  | _ => none

def takeStep (s : Hooks) (h : Sender) (tok now : ℕ) : Option Hooks :=
  match s.pc h with
  | .clear sta =>
    if s.flight tok = none ∧ tok < staQTokens then
      some (s.carry h tok ⟨sta, tickOf now⟩)
    else none
  | _ => none

def publishStep (s : Hooks) (h : Sender) : Option Hooks :=
  match s.pc h with
  | .hook .filling tok _ _ =>
    some (s.publish h tok)
  | _ => none

def unsendStep (s : Hooks) (h : Sender) : Option Hooks :=
  match s.pc h with
  | .hook .filling tok f tick =>
    some (if f.sta < staQStas then s.setPc h (.hook .unMap tok f tick) else s.finish h tok)
  | _ => none

def reportStep (s : Hooks) (tok now : ℕ) : Option Hooks :=
  match s.flight tok with
  | some f =>
    if s.pc .host = .idle ∧ s.inChip tok then
      some (s.setPc .host (.hook .dnLoad tok f (tickOf now)))
    else none
  | none => none

def nextStep (s : Hooks) (h : Sender) : Option Hooks :=
  match s.pc h with
  | .hook g tok f tick => hookStep s h tok f tick g
  | .delay sta now =>
    let w := s.tokts sta
    let age := u16 ((tickOf now : ℤ) - (w / 2 ^ 16 : ℕ))
    some (s.setPc h
      (if w % 2 ^ 16 ≠ staQNone ∧ staQProbeLost < age then .stale sta else .clear sta))
  | .stale sta => some ((s.setTokts sta staQNone).setPc h (.clear sta))
  | _ => none

def hooksStep (b : QBuild) (s : Hooks) : HookAction → Option Hooks
  | .begin h sta => beginStep b s h sta
  | .load h c => loadStep s h c
  | .decide h => decideStep b s h
  | .look h now => lookStep s h now
  | .giveUp h => giveUpStep s h
  | .take h tok now => takeStep s h tok now
  | .publish h => publishStep s h
  | .unsend h => unsendStep s h
  | .report tok now => reportStep s tok now
  | .next h => nextStep s h

def hooksSystem (b : QBuild) : StepSystem Hooks HookAction where
  init := fun s => s = staQInit
  step := fun s a s' => hooksStep b s a = some s'

/-! ## What the counters count -/

/-- A hart has the token in a stage where its frame is not in the counters. -/
def Pc.uncounted (p : Pc) (tok : ℕ) : Bool :=
  match p with
  | .hook g t _ _ => t = tok && !g.counted
  | _ => false

/-- A hart has the token in a stage where the map does not name its station. -/
def Pc.unmapped (p : Pc) (tok : ℕ) : Bool :=
  match p with
  | .hook g t _ _ => t = tok && !g.mapped
  | _ => false

/-- The station a token carries a frame of. -/
def Hooks.station (s : Hooks) (tok : ℕ) : Option ℕ := (s.flight tok).bind Frame.station

/-- The station a token is in the counters for. -/
def Hooks.counted (s : Hooks) (tok : ℕ) : Option ℕ :=
  if (s.pc .lan).uncounted tok || (s.pc .host).uncounted tok then none else s.station tok

/-- What the map names a token's station. -/
def Hooks.named (s : Hooks) (tok : ℕ) : ℕ :=
  if (s.pc .lan).unmapped tok || (s.pc .host).unmapped tok then staQNone
  else (s.station tok).getD staQNone

/-- The frames of a station that are inside the chip and counted. -/
def Hooks.inside (s : Hooks) (sta : ℕ) : ℕ := Tally.tally staQTokens s.counted (some sta)

/-- The tokens the map assigns to a station. -/
def Hooks.assigned (s : Hooks) (sta : ℕ) : ℕ := Tally.tally staQTokens s.map sta

/-- The sent counters minus the done counter, as `sta_q_decide` takes
    the difference. -/
def Hooks.queued (b : QBuild) (s : Hooks) (sta : ℕ) : ℕ :=
  u16 (if b.clanker then (s.sent .lan sta : ℤ) + s.sent .host sta - s.done sta
    else (s.sent .lan sta : ℤ) - s.done sta)

/-- No hook is half-way. -/
def Pc.quiet : Pc → Bool
  | .hook g _ _ _ => g = .filling
  | _ => true

end ClankerNPU.StaQ
