import ClankerNPU.Lib.StepSystem
import ClankerNPU.Words
import Mathlib.Data.List.Basic
import Mathlib.Logic.Function.Basic

/-! # The per-station drop decision

    `sta_q_decide` of `npu_sta_q.c` for one station. A sending hart calls
    it for each frame, with the 32-bit cycle counter as its clock; the
    counters it reads and the probe are whatever the other harts have
    left there. In the build with the Clanker driver the host's frames
    have a drop state of their own, so the drop state is kept for each
    sender.

    The system records every call with its real time, so that a drop can
    be held against what the calls before it found. -/

namespace ClankerNPU.StaQ

/-- `STA_Q_NONE` -/
def staQNone : ℕ := 0xFFFF

/-- `STA_Q_PROBE_LOST` -/
def staQProbeLost : ℕ := 11000

/-- The settings of `struct sta_q_cfg`. -/
structure StaQCfg where
  limit : ℕ
  target : ℕ
  interval : ℕ
  delay : ℕ
  minQ : ℕ
  small : ℕ
  deriving DecidableEq, Repr

/-- `struct sta_q_aqm`; the two flags stand for `AQM_ABOVE` and
    `AQM_DROPPING`. -/
structure StaQAqm where
  above : ℕ
  next : ℕ
  count : ℕ
  last : ℕ
  flagAbove : Bool
  flagDropping : Bool
  deriving DecidableEq, Repr

/-- `struct sta_q_probe` -/
structure StaQProbe where
  tokts : ℕ
  delay : ℕ
  deriving DecidableEq, Repr

/-- What the call returns, and why. -/
inductive Verdict where
  | pass
  /-- `q >= limit` -/
  | limitDrop
  /-- the standing queue -/
  | aqmDrop
  deriving DecidableEq, Repr

/-- How the call found the station's queue. -/
inductive Found where
  /-- at the hard limit: the target was not looked at -/
  | full
  | above
  | below
  deriving DecidableEq, Repr

/-! ## `npu_isqrt` -/

/-- The first loop of `npu_isqrt`: from `b = 4 ^ (k - 1)` down to `b <= x`. -/
def isqrtStart (x : ℕ) : ℕ → ℕ
  | 0 => 0
  | k + 1 => if x < 4 ^ k then isqrtStart x k else k + 1

/-- The second loop, with `b = 4 ^ (k - 1)`. -/
def isqrtLoop : ℕ → ℕ → ℕ → ℕ
  | 0, _, r => r
  | k + 1, x, r =>
    if r + 4 ^ k ≤ x then isqrtLoop k (x - (r + 4 ^ k)) (r / 2 + 4 ^ k) else isqrtLoop k x (r / 2)

/-- `npu_isqrt`, from `b = 1 << 30` -/
def npuIsqrt (x : ℕ) : ℕ := isqrtLoop (isqrtStart x 16) x 0

/-! ## The decision -/

/-- `sta_q_delay` -/
def staQDelay (p : StaQProbe) (now : ℕ) : ℕ × StaQProbe :=
  if p.tokts % 2 ^ 16 ≠ staQNone then
    let age := u16 ((now / 2 ^ 16 : ℕ) - (p.tokts / 2 ^ 16 : ℕ))
    if staQProbeLost < age then (p.delay, { p with tokts := staQNone })
    else (max p.delay age, p)
  else (p.delay, p)

/-- Whether the queue is above target, and the probe after the look at it. -/
def staQAbove (c : StaQCfg) (p : StaQProbe) (q now : ℕ) : Bool × StaQProbe :=
  if c.target ≠ 0 ∧ c.target ≤ q then (true, p)
  else if c.delay ≠ 0 ∧ c.minQ ≤ q then
    let r := staQDelay p now
    (c.delay ≤ u32 (r.1 * 2 ^ 16), r.2)
  else (false, p)

/-- `a->next += interval / npu_isqrt(a->count)` -/
def StaQAqm.space (a : StaQAqm) (interval : ℕ) : StaQAqm :=
  { a with next := u32 (a.next + interval / npuIsqrt a.count) }

/-- One more drop in the dropping state. -/
def StaQAqm.again (a : StaQAqm) (c : StaQCfg) (now : ℕ) : StaQAqm :=
  let a := if a.count ≠ 0xFFFF then { a with count := a.count + 1 } else a
  -- no frame for a while: space from now, not a late next
  let a := if s32 c.interval < s32 ((now : ℤ) - a.next) then { a with next := now } else a
  a.space c.interval

/-- Into the dropping state. -/
def StaQAqm.enter (a : StaQAqm) (c : StaQCfg) (now : ℕ) : StaQAqm :=
  -- back into dropping soon after leaving: keep the rate
  let n := u16 ((a.count : ℤ) - a.last)
  let soon := s32 ((now : ℤ) - a.next) < s32 (u32 (16 * c.interval))
  let a := { a with count := if 1 < n ∧ soon then n else 1 }
  let a := { a with
    last := if 255 < a.count then 255 else a.count
    flagDropping := true
    next := now }
  a.space c.interval

/-- The drops of a queue above target. -/
def staQStanding (c : StaQCfg) (a : StaQAqm) (now len : ℕ) : StaQAqm × Verdict :=
  if !a.flagAbove then
    ({ a with flagAbove := true, flagDropping := false, above := u32 (now + c.interval) }, .pass)
  else if s32 ((now : ℤ) - a.above) < 0 then (a, .pass)
  else if len ≤ c.small then (a, .pass)
  else if a.flagDropping then
    if s32 ((now : ℤ) - a.next) < 0 then (a, .pass)
    else (a.again c now, .aqmDrop)
  else (a.enter c now, .aqmDrop)

/-- What a call leaves behind. -/
structure Decision where
  aqm : StaQAqm
  probe : StaQProbe
  found : Found
  verdict : Verdict

/-- `sta_q_decide`; `counts` is the 16-bit sum of the sent counters less
    the done counter. -/
def staQDecide (c : StaQCfg) (a : StaQAqm) (p : StaQProbe) (counts now len : ℕ) : Decision :=
  let q := (s16 counts).toNat
  if c.limit ≠ 0 ∧ c.limit ≤ q then ⟨a, p, .full, .limitDrop⟩
  else
    let r := staQAbove c p q now
    if !r.1 then ⟨{ a with flagAbove := false, flagDropping := false }, r.2, .below, .pass⟩
    else
      let t := staQStanding c a now len
      ⟨t.1, r.2, .above, t.2⟩

/-! ## Sequences of calls -/

/-- The sending harts, one in the default build. -/
inductive Sender where
  /-- core 2, LAN frames -/
  | lan
  /-- core 3, host frames -/
  | host
  deriving DecidableEq, Repr

/-- A call, as the system's environment makes it. -/
structure Call where
  sender : Sender
  /-- real time in cycles; the hart reads it mod `2 ^ 32` -/
  time : ℕ
  counts : ℕ
  probe : StaQProbe
  len : ℕ
  deriving DecidableEq, Repr

/-- A call that was made. -/
structure Record where
  sender : Sender
  time : ℕ
  len : ℕ
  found : Found
  verdict : Verdict
  deriving DecidableEq, Repr

/-- The drop states and every call so far, oldest first. -/
structure AqmState where
  aqm : Sender → StaQAqm
  calls : List Record

/-- The clock as the hart reads it. -/
def Call.now (call : Call) : ℕ := call.time % 2 ^ 32

/-- The decision a call comes to. -/
def AqmState.decision (c : StaQCfg) (s : AqmState) (call : Call) : Decision :=
  staQDecide c (s.aqm call.sender) call.probe call.counts call.now call.len

/-- The state after a call. -/
def AqmState.after (c : StaQCfg) (s : AqmState) (call : Call) : AqmState :=
  let d := s.decision c call
  { aqm := Function.update s.aqm call.sender d.aqm
    calls := s.calls ++ [⟨call.sender, call.time, call.len, d.found, d.verdict⟩] }

/-- After `sta_q_init`. -/
def aqmInit : AqmState where
  aqm := fun _ => ⟨0, 0, 0, 0, false, false⟩
  calls := []

/-- Real time does not go back. -/
def AqmState.notBefore (s : AqmState) (call : Call) : Prop := ∀ r ∈ s.calls, r.time ≤ call.time

instance (s : AqmState) (call : Call) : Decidable (s.notBefore call) :=
  inferInstanceAs (Decidable (∀ r ∈ s.calls, r.time ≤ call.time))

def aqmStep (c : StaQCfg) (s : AqmState) (call : Call) : Option AqmState :=
  if s.notBefore call then some (s.after c call) else none

def aqmSystem (c : StaQCfg) : StepSystem AqmState Call where
  init := fun s => s = aqmInit
  step := fun s call s' => aqmStep c s call = some s'

/-! ## A drop needs a standing queue -/

/-- From some call of the sender on, at least an interval before `time`, no
    call of the sender found the queue below target. -/
def Stood (c : StaQCfg) (σ : Sender) (time : ℕ) (calls : List Record) : Prop :=
  ∃ p r q, calls = p ++ r :: q ∧ r.sender = σ ∧ r.time + c.interval ≤ time ∧
    ∀ x ∈ r :: q, x.sender = σ → x.found ≠ .below

/-- Every early drop is of a frame that is not small, from a queue that
    stood and was not found below target by the dropping call either. -/
def DropsExplained (c : StaQCfg) (calls : List Record) : Prop :=
  ∀ pre d post, calls = pre ++ d :: post → d.verdict = .aqmDrop →
    c.small < d.len ∧ d.found ≠ .below ∧ Stood c d.sender d.time pre

/-- A sender's deadline was set by one of its calls, and none of its calls
    since has found the queue below target. -/
def Deadline (c : StaQCfg) (σ : Sender) (a : StaQAqm) (calls : List Record) : Prop :=
  a.flagAbove = true → ∃ p r q, calls = p ++ r :: q ∧ r.sender = σ ∧
    a.above = u32 (r.time + c.interval) ∧ ∀ x ∈ r :: q, x.sender = σ → x.found ≠ .below

/-- What holds after every call. -/
structure AqmInv (c : StaQCfg) (s : AqmState) : Prop where
  deadline : ∀ σ, Deadline c σ (s.aqm σ) s.calls
  explained : DropsExplained c s.calls

/-- What becomes of a standing queue, and when. -/
inductive Standing (c : StaQCfg) (a : StaQAqm) (now len : ℕ) : StaQAqm × Verdict → Prop where
  | starts (fresh : a.flagAbove = false) : Standing c a now len
      ({ a with flagAbove := true, flagDropping := false, above := u32 (now + c.interval) }, .pass)
  | waits (above : a.flagAbove = true)
      (early : s32 ((now : ℤ) - a.above) < 0 ∨ len ≤ c.small ∨
        a.flagDropping = true ∧ s32 ((now : ℤ) - a.next) < 0) : Standing c a now len (a, .pass)
  | again (above : a.flagAbove = true) (late : 0 ≤ s32 ((now : ℤ) - a.above))
      (large : c.small < len) (dropping : a.flagDropping = true)
      (due : 0 ≤ s32 ((now : ℤ) - a.next)) : Standing c a now len (a.again c now, .aqmDrop)
  | enters (above : a.flagAbove = true) (late : 0 ≤ s32 ((now : ℤ) - a.above))
      (large : c.small < len) (out : a.flagDropping = false) :
      Standing c a now len (a.enter c now, .aqmDrop)

/-- The branches of `staQStanding`, each with what leads to it. -/
theorem staQStanding_cases (c : StaQCfg) (a : StaQAqm) (now len : ℕ) :
    Standing c a now len (staQStanding c a now len) := by
  unfold staQStanding
  by_cases hflag : a.flagAbove = true
  · rw [if_neg (show ¬(!a.flagAbove) = true by rw [hflag]; decide)]
    by_cases hearly : s32 ((now : ℤ) - a.above) < 0
    · rw [if_pos hearly]
      exact .waits hflag (.inl hearly)
    rw [if_neg hearly]
    by_cases hsmall : len ≤ c.small
    · rw [if_pos hsmall]
      exact .waits hflag (.inr (.inl hsmall))
    rw [if_neg hsmall]
    by_cases hdrop : a.flagDropping = true
    · rw [if_pos hdrop]
      by_cases hdue : s32 ((now : ℤ) - a.next) < 0
      · rw [if_pos hdue]
        exact .waits hflag (.inr (.inr ⟨hdrop, hdue⟩))
      · rw [if_neg hdue]
        exact .again hflag (not_lt.mp hearly) (not_le.mp hsmall) hdrop (not_lt.mp hdue)
    · rw [if_neg hdrop]
      exact .enters hflag (not_lt.mp hearly) (not_le.mp hsmall) (Bool.eq_false_iff.mpr hdrop)
  · rw [if_pos (show (!a.flagAbove) = true by rw [Bool.eq_false_iff.mpr hflag]; decide)]
    exact .starts (Bool.eq_false_iff.mpr hflag)

theorem again_above (a : StaQAqm) (c : StaQCfg) (now : ℕ) : (a.again c now).above = a.above := by
  unfold StaQAqm.again StaQAqm.space
  dsimp only
  split_ifs <;> rfl

/-- What a decision can do: find the queue at the limit and change
    nothing, forget, note the deadline, or keep the deadline, and then a
    drop comes no earlier. -/
theorem staQDecide_cases (c : StaQCfg) (a : StaQAqm) (p : StaQProbe) (counts now len : ℕ) :
    let d := staQDecide c a p counts now len
    (d.found = .full ∧ d.verdict = .limitDrop ∧ d.aqm = a) ∨
    (d.found = .below ∧ d.verdict = .pass ∧ d.aqm.flagAbove = false) ∨
    (d.found = .above ∧ d.verdict = .pass ∧ a.flagAbove = false ∧
      d.aqm.above = u32 (now + c.interval)) ∨
    (d.found = .above ∧ a.flagAbove = true ∧ d.aqm.above = a.above ∧
      (d.verdict = .aqmDrop → 0 ≤ s32 ((now : ℤ) - a.above) ∧ c.small < len) ∧
      d.verdict ≠ .limitDrop) := by
  intro d
  have hd : d = staQDecide c a p counts now len := rfl
  unfold staQDecide at hd
  simp only at hd
  split at hd
  · left
    rw [hd]
    exact ⟨rfl, rfl, rfl⟩
  · split at hd
    · right; left
      rw [hd]
      exact ⟨rfl, rfl, rfl⟩
    · have hstanding := staQStanding_cases c a now len
      generalize staQStanding c a now len = t at hd hstanding
      rw [hd]
      cases hstanding with
      | starts fresh =>
        right; right; left
        exact ⟨rfl, rfl, fresh, rfl⟩
      | waits above _ =>
        right; right; right
        exact ⟨rfl, above, rfl, nofun, nofun⟩
      | again above late large _ _ =>
        right; right; right
        exact ⟨rfl, above, again_above a c now, fun _ => ⟨late, large⟩, nofun⟩
      | enters above late large _ =>
        right; right; right
        exact ⟨rfl, above, rfl, fun _ => ⟨late, large⟩, nofun⟩

section invariant

variable {c : StaQCfg} {s s' : AqmState} {call : Call} {σ : Sender}

/-- A call that does not find the sender's queue below target leaves a
    deadline where it is. -/
theorem Deadline.append {a a' : StaQAqm} {calls : List Record} {r : Record}
    (h : Deadline c σ a calls) (hflag : a'.flagAbove = true → a.flagAbove = true)
    (habove : a'.flagAbove = true → a'.above = a.above)
    (hr : r.sender = σ → r.found ≠ .below) : Deadline c σ a' (calls ++ [r]) := by
  intro hset
  obtain ⟨p, r0, q, hcalls, hsender, hat, hnone⟩ := h (hflag hset)
  refine ⟨p, r0, q ++ [r], by simp [hcalls], hsender, ?_, ?_⟩
  · rw [habove hset, hat]
  · intro x hx hxs
    rw [← List.cons_append] at hx
    rcases List.mem_append.mp hx with hx | hx
    · exact hnone x hx hxs
    · rw [List.mem_singleton.mp hx] at hxs ⊢
      exact hr hxs

/-- A deadline that has passed was set an interval ago, however often the
    clock has wrapped since. -/
theorem interval_le_of_late {t time above : ℕ} (hint : c.interval ≤ 2 ^ 31) (htime : t ≤ time)
    (habove : above = u32 (t + c.interval))
    (hlate : 0 ≤ s32 (((time % 2 ^ 32 : ℕ) : ℤ) - above)) : t + c.interval ≤ time := by
  subst habove
  unfold s32 u32 at hlate
  omega

/-- What one call preserves. -/
theorem aqmInv_step (hint : c.interval ≤ 2 ^ 31) (h : AqmInv c s)
    (hstep : aqmStep c s call = some s') : AqmInv c s' := by
  unfold aqmStep at hstep
  split at hstep
  case isFalse => cases hstep
  next htime =>
  obtain rfl := Option.some.inj hstep
  unfold AqmState.after
  have hcases := staQDecide_cases c (s.aqm call.sender) call.probe call.counts call.now call.len
  set d := s.decision c call with hd
  rw [show staQDecide c (s.aqm call.sender) call.probe call.counts call.now call.len = d from rfl]
    at hcases
  simp only at hcases ⊢
  set r : Record := ⟨call.sender, call.time, call.len, d.found, d.verdict⟩ with hr
  constructor
  · intro σ
    show Deadline c σ (Function.update s.aqm call.sender d.aqm σ) (s.calls ++ [r])
    -- the other sender's state stands
    by_cases hσ : σ = call.sender
    · subst hσ
      rw [Function.update_self]
      rcases hcases with ⟨hf, -, ha⟩ | ⟨-, -, ha⟩ | ⟨hf, -, -, ha⟩ | ⟨hf, hset, ha, -, -⟩
      · rw [ha]
        refine (h.deadline _).append id (fun _ => rfl) (fun _ => ?_)
        rw [hr, hf]
        simp
      · -- found below: no deadline
        intro hset
        rw [ha] at hset
        cases hset
      · -- the deadline is set by this call
        intro _
        refine ⟨s.calls, r, [], rfl, rfl, ?_, ?_⟩
        · rw [ha]
          show u32 ((call.time % 2 ^ 32 : ℕ) + c.interval) = u32 (call.time + c.interval)
          unfold u32
          omega
        · intro x hx _
          rw [List.mem_singleton.mp hx, hr, hf]
          simp
      · refine (h.deadline _).append (fun _ => hset) (fun _ => ha) (fun _ => ?_)
        rw [hr, hf]
        simp
    · rw [Function.update_of_ne hσ]
      exact (h.deadline σ).append id (fun _ => rfl) fun heq => absurd heq.symm hσ
  · intro pre x post hsplit hdrop
    change s.calls ++ [r] = _ at hsplit
    rcases List.eq_nil_or_concat' post with rfl | ⟨init, last, rfl⟩
    · -- the drop is this call's
      obtain ⟨rfl, hx⟩ := List.append_inj' hsplit rfl
      obtain rfl : r = x := (List.cons.inj hx).1
      rcases hcases with ⟨-, hv, -⟩ | ⟨-, hv, -⟩ | ⟨-, hv, -⟩ | ⟨hf, hset, -, hlate, -⟩
      · rw [hr] at hdrop
        rw [hv] at hdrop
        cases hdrop
      · rw [hr] at hdrop
        rw [hv] at hdrop
        cases hdrop
      · rw [hr] at hdrop
        rw [hv] at hdrop
        cases hdrop
      · obtain ⟨hnow, hlen⟩ := hlate hdrop
        obtain ⟨p, r0, q, hcalls, hsender, hat, hnone⟩ := h.deadline _ hset
        refine ⟨hlen, by rw [hr, hf]; simp, p, r0, q, hcalls, hsender, ?_, hnone⟩
        have hle : r0.time ≤ call.time := htime r0 (by rw [hcalls]; simp)
        exact interval_le_of_late hint hle hat hnow
    · -- the drop is an earlier one
      have hinit : s.calls = pre ++ x :: init := by
        have happ : s.calls ++ [r] = (pre ++ x :: init) ++ [last] := by rw [hsplit]; simp
        exact (List.append_inj' happ rfl).1
      exact h.explained pre x init hinit hdrop

end invariant

/-- In every sequence of calls each early drop is of a longer frame, and
    from one call of the same sender, at least an interval earlier, up to
    the drop none of the sender's calls has found the queue below target. -/
theorem aqmDrop_stood (c : StaQCfg) (s : AqmState) (hint : c.interval ≤ 2 ^ 31)
    (h : (aqmSystem c).Reachable s) : DropsExplained c s.calls := by
  have hinv : AqmInv c s := by
    refine h.invariant ?_ fun s call s' hs hstep => aqmInv_step hint hs hstep
    rintro _ rfl
    refine ⟨?_, ?_⟩
    · intro σ hset
      cases hset
    · intro pre d post hsplit
      have := congrArg List.length hsplit
      simp [aqmInit] at this
  exact hinv.explained

/-- A target of 10 frames and an interval of 1000 cycles. -/
def tenFrames : StaQCfg := ⟨8192, 10, 1000, 0, 64, 256⟩

/-- Two frames in one pass of core 2, so at one time, and one more an
    interval later; the second finds the first counted. -/
def tieCalls : List Call :=
  [⟨.lan, 0, 9, ⟨staQNone, 0⟩, 1500⟩, ⟨.lan, 0, 10, ⟨staQNone, 0⟩, 1500⟩,
    ⟨.lan, 1000, 10, ⟨staQNone, 0⟩, 1500⟩]

/-- The third frame is dropped. -/
theorem tieCalls_records : (StepSystem.run (aqmStep tenFrames) (fun _ _ => true) aqmInit
    tieCalls).map (·.calls) =
    some [⟨.lan, 0, 1500, .below, .pass⟩, ⟨.lan, 0, 1500, .above, .pass⟩,
      ⟨.lan, 1000, 1500, .above, .aqmDrop⟩] := by
  decide +kernel

/-- The drop after two calls at time 0 is explained. -/
theorem aqmDrop_stood_tie : ∃ s : AqmState, s.calls.map (·.verdict) = [.pass, .pass, .aqmDrop] ∧
    DropsExplained tenFrames s.calls := by
  obtain ⟨s, hs, hcalls⟩ := Option.map_eq_some_iff.mp tieCalls_records
  refine ⟨s, by rw [hcalls]; rfl, aqmDrop_stood tenFrames s (by decide) ?_⟩
  exact .of_run (fun _ _ _ _ hstep => hstep) (.init rfl) hs

/-- For each early drop there is the real time of an earlier call, at least
    an interval before, such that no call made from that time on up to the
    drop found the queue below target. -/
def DropsExplainedInTime (c : StaQCfg) (calls : List Record) : Prop :=
  ∀ pre d post, calls = pre ++ d :: post → d.verdict = .aqmDrop →
    c.small < d.len ∧ ∃ r ∈ pre, r.time + c.interval ≤ d.time ∧
      ∀ x ∈ pre ++ [d], r.time ≤ x.time → x.found ≠ .below

/-- Of two calls at the same time the first can find the queue below target
    and the second set the deadline. -/
theorem aqmDrop_tie : ¬∀ c : StaQCfg, c.interval ≤ 2 ^ 31 → ∀ s, (aqmSystem c).Reachable s →
    DropsExplainedInTime c s.calls := by
  intro hall
  obtain ⟨s, hs, hcalls⟩ := Option.map_eq_some_iff.mp tieCalls_records
  have hreach : (aqmSystem tenFrames).Reachable s :=
    .of_run (fun _ _ _ _ hstep => hstep) (.init rfl) hs
  have hexp := hall tenFrames (by decide) s hreach
  rw [hcalls] at hexp
  obtain ⟨-, r, hr, htime, hnone⟩ := hexp
    [⟨.lan, 0, 1500, .below, .pass⟩, ⟨.lan, 0, 1500, .above, .pass⟩]
    ⟨.lan, 1000, 1500, .above, .aqmDrop⟩ [] rfl rfl
  change r.time + 1000 ≤ 1000 at htime
  have hzero : r.time = 0 := by omega
  -- the call at time 0 that found the queue below target
  exact hnone ⟨.lan, 0, 1500, .below, .pass⟩ (by simp) (by omega) rfl

end ClankerNPU.StaQ
