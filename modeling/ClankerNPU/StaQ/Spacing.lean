import ClankerNPU.StaQ.Decide
import Mathlib.Tactic.Ring

/-! # The drops of one dropping state

    The drops of a station whose queue stands are spaced by a deadline on
    the wrapping clock. The log keeps, for each sender, the drops of its
    last dropping state with their real times, the real time its deadline
    stands for, and every return into the dropping state. -/

namespace ClankerNPU.StaQ

/-! ## The square root -/

/-- The second loop, when `r` holds a partial root `s` times `2 ^ k`. -/
theorem isqrtLoop_eq {k x s : ℕ} (h : x + s ^ 2 < (s + 2 ^ k) ^ 2) :
    isqrtLoop k x (s * 2 ^ k) = Nat.sqrt (x + s ^ 2) := by
  induction k generalizing x s with
  | zero =>
    rw [isqrtLoop, Nat.pow_zero, Nat.mul_one]
    rw [Nat.pow_zero] at h
    refine Nat.eq_sqrt.mpr ⟨?_, ?_⟩
    · rw [← Nat.pow_two]
      exact Nat.le_add_left _ _
    · rw [← Nat.pow_two]
      exact h
  | succ k ih =>
    have hhalf : s * 2 ^ (k + 1) / 2 = s * 2 ^ k := by
      rw [Nat.pow_succ, ← Nat.mul_assoc, Nat.mul_div_cancel _ (by decide)]
    have hsq : (s + 2 ^ k) ^ 2 = s ^ 2 + (s * 2 ^ (k + 1) + 4 ^ k) := by
      have hfour : (4 : ℕ) ^ k = (2 ^ k) ^ 2 := by rw [← Nat.pow_mul, Nat.mul_comm, Nat.pow_mul]
      rw [hfour, Nat.pow_succ]
      ring
    have hnext : (s + 2 ^ k) * 2 ^ k = s * 2 ^ k + 4 ^ k := by
      have hfour : (4 : ℕ) ^ k = 2 ^ k * 2 ^ k := by rw [← Nat.mul_pow]
      rw [hfour, Nat.add_mul]
    rw [isqrtLoop]
    by_cases hle : s * 2 ^ (k + 1) + 4 ^ k ≤ x
    · -- the bit goes into the root
      have hrest : x - (s * 2 ^ (k + 1) + 4 ^ k) + (s + 2 ^ k) ^ 2 = x + s ^ 2 := by omega
      have hlt : x + s ^ 2 < (s + 2 ^ k + 2 ^ k) ^ 2 := by
        rwa [show s + 2 ^ k + 2 ^ k = s + 2 ^ (k + 1) by rw [Nat.pow_succ]; omega]
      rw [if_pos hle, hhalf, ← hnext, ih (by rwa [hrest]), hrest]
    · have hlt : x + s ^ 2 < (s + 2 ^ k) ^ 2 := by omega
      rw [if_neg hle, hhalf, ih hlt]

/-- The first loop starts at a power of four above the argument. -/
theorem lt_pow_isqrtStart {k x : ℕ} (h : x < 4 ^ k) : x < 4 ^ isqrtStart x k := by
  induction k with
  | zero => exact h
  | succ k ih =>
    rw [isqrtStart]
    split_ifs with hx
    · exact ih hx
    · exact h

theorem npuIsqrt_eq {x : ℕ} (h : x < 2 ^ 32) : npuIsqrt x = Nat.sqrt x := by
  have hstart := lt_pow_isqrtStart (k := 16) h
  have hloop := @isqrtLoop_eq (isqrtStart x 16) x 0
  rw [Nat.zero_mul, Nat.zero_pow (by decide), Nat.add_zero, Nat.zero_add, ← Nat.pow_mul,
    Nat.mul_comm, Nat.pow_mul] at hloop
  exact hloop hstart

/-- No division by zero. -/
theorem npuIsqrt_pos {count : ℕ} (h0 : 0 < count) (h1 : count < 2 ^ 32) : 0 < npuIsqrt count := by
  rw [npuIsqrt_eq h1]
  exact Nat.sqrt_pos.mpr h0

/-! ## What a call does to the drop state -/

/-- The call enters the dropping state. -/
structure Enters (c : StaQCfg) (a : StaQAqm) (now : ℕ) (a' : StaQAqm) : Prop where
  out : a.flagDropping = false
  dropping : a'.flagDropping = true
  count : a'.count = if 1 < u16 ((a.count : ℤ) - a.last) ∧
      s32 ((now : ℤ) - a.next) < s32 (u32 (16 * c.interval))
    then u16 ((a.count : ℤ) - a.last) else 1
  last : a'.last = min a'.count 255
  next : a'.next = u32 (now + c.interval / npuIsqrt a'.count)

/-- The call drops once more in the dropping state. -/
structure DropsAgain (c : StaQCfg) (a : StaQAqm) (now : ℕ) (a' : StaQAqm) : Prop where
  due : 0 ≤ s32 ((now : ℤ) - a.next)
  before : a.flagDropping = true
  dropping : a'.flagDropping = true
  count : a'.count = if a.count ≠ 0xFFFF then a.count + 1 else a.count
  last : a'.last = a.last
  next : a'.next = u32 ((if s32 c.interval < s32 ((now : ℤ) - a.next) then now else a.next) +
    c.interval / npuIsqrt a'.count)

/-- The call drops nothing early and can only end the dropping state. -/
structure KeepsRate (a a' : StaQAqm) : Prop where
  count : a'.count = a.count
  last : a'.last = a.last
  next : a'.next = a.next
  dropping : a'.flagDropping = true → a.flagDropping = true

theorem staQDecide_drops (c : StaQCfg) (a : StaQAqm) (p : StaQProbe) (counts now len : ℕ) :
    let d := staQDecide c a p counts now len
    (d.verdict ≠ .aqmDrop ∧ KeepsRate a d.aqm) ∨
    (d.verdict = .aqmDrop ∧ Enters c a now d.aqm) ∨
    (d.verdict = .aqmDrop ∧ DropsAgain c a now d.aqm) := by
  intro d
  have hd : d = staQDecide c a p counts now len := rfl
  unfold staQDecide at hd
  dsimp only at hd
  split at hd
  · left
    rw [hd]
    exact ⟨nofun, rfl, rfl, rfl, id⟩
  · split at hd
    · left
      rw [hd]
      exact ⟨nofun, rfl, rfl, rfl, nofun⟩
    · have hstanding := staQStanding_cases c a now len
      generalize staQStanding c a now len = t at hd hstanding
      rw [hd]
      cases hstanding with
      | starts _ =>
        left
        exact ⟨nofun, rfl, rfl, rfl, nofun⟩
      | waits _ _ =>
        left
        exact ⟨nofun, rfl, rfl, rfl, id⟩
      | again _ _ _ dropping due =>
        right; right
        refine ⟨rfl, due, dropping, ?_, ?_, ?_, ?_⟩
        all_goals
          unfold StaQAqm.again StaQAqm.space
          dsimp only
          split_ifs <;> first | rfl | exact dropping
      | enters _ _ _ out =>
        right; left
        refine ⟨rfl, out, rfl, rfl, ?_, rfl⟩
        unfold StaQAqm.enter StaQAqm.space
        dsimp only
        split_ifs <;> omega

/-! ## The log -/

/-- A drop: when, and the count it left. -/
structure Drop where
  time : ℕ
  count : ℕ
  deriving DecidableEq, Repr

/-- A return into the dropping state. -/
structure Resume where
  time : ℕ
  /-- the count it resumes at -/
  resumed : ℕ
  /-- the count before it -/
  count : ℕ
  /-- the count at the last entry -/
  entry : ℕ
  /-- real time of the last dropping state's deadline -/
  deadline : ℤ
  /-- real time of the call that ended it -/
  left : ℕ
  deriving DecidableEq, Repr

/-- The last dropping state of a sender, and all returns. -/
structure Episode where
  /-- oldest first -/
  drops : List Drop
  deadline : ℤ
  left : ℕ
  resumes : List Resume
  deriving DecidableEq, Repr

/-- The real time a clock value near `time` stands for. -/
def realTime (time clock : ℕ) : ℤ := time + s32 ((clock : ℤ) - time)

/-- The returns after a drop; the first entry of all is none. -/
def Episode.resumesAfter (e : Episode) (a : StaQAqm) (time resumed : ℕ) : List Resume :=
  if a.flagDropping then e.resumes
  else
    match e.drops with
    | [] => e.resumes
    | first :: _ => e.resumes ++ [⟨time, resumed, a.count, first.count, e.deadline, e.left⟩]

/-- The log after a call that took the drop state from `a` to `a'`. -/
def Episode.after (e : Episode) (a a' : StaQAqm) (v : Verdict) (time : ℕ) : Episode :=
  if v = .aqmDrop then
    { drops := (if a.flagDropping then e.drops else []) ++ [⟨time, a'.count⟩]
      deadline := realTime time a'.next
      left := e.left
      resumes := e.resumesAfter a time a'.count }
  else if a.flagDropping && !a'.flagDropping then { e with left := time }
  else e

/-- The drop states, the calls and the logs. -/
structure DropLog where
  base : AqmState
  log : Sender → Episode

def DropLog.after (c : StaQCfg) (s : DropLog) (call : Call) : DropLog :=
  let d := s.base.decision c call
  { base := s.base.after c call
    log := Function.update s.log call.sender
      ((s.log call.sender).after (s.base.aqm call.sender) d.aqm d.verdict call.time) }

/-- Nothing dropped yet. -/
def noDrops : DropLog := ⟨aqmInit, fun _ => ⟨[], 0, 0, []⟩⟩

def dropStep (c : StaQCfg) (s : DropLog) (call : Call) : Option DropLog :=
  if s.base.notBefore call then some (s.after c call) else none

def dropSystem (c : StaQCfg) : StepSystem DropLog Call where
  init s := s = noDrops
  step s call s' := dropStep c s call = some s'

/-! ## What is asked -/

/-- The spacings after some drops, summed. -/
def spacing (interval : ℕ) (ds : List Drop) : ℕ :=
  (ds.map fun d => interval / Nat.sqrt d.count).sum

/-- No drop comes before the first one's time and the spacings so far. -/
def Spaced (interval : ℕ) (ds : List Drop) : Prop :=
  ∀ first ∈ ds.head?, ∀ pre d post, ds = pre ++ d :: post →
    first.time + spacing interval pre ≤ d.time

/-- Counts a drop can leave. -/
def CountOk (count : ℕ) : Prop := 1 ≤ count ∧ count ≤ 65535 ∧ 0 < npuIsqrt count

/-! ## One call -/

section Arithmetic

variable {t next interval step : ℕ} {real : ℤ}

/-- A deadline at most an interval ahead is met in real time too. -/
theorem real_le_of_due (hint : interval < 2 ^ 31) (hnext : (next : ℤ) % 2 ^ 32 = real % 2 ^ 32)
    (hnear : real ≤ t + interval) (hdue : 0 ≤ s32 (((t % 2 ^ 32 : ℕ) : ℤ) - next)) :
    real + s32 (((t % 2 ^ 32 : ℕ) : ℤ) - next) ≤ t := by
  unfold s32 at *
  omega

/-- The deadline a drop sets stands for a time at most a spacing ahead. -/
theorem realTime_again (hint : interval < 2 ^ 31) (hstep : step ≤ interval)
    (hdue : 0 ≤ s32 (((t % 2 ^ 32 : ℕ) : ℤ) - next))
    (hreal : real + s32 (((t % 2 ^ 32 : ℕ) : ℤ) - next) ≤ t) {next' : ℕ}
    (hset : next' = u32 ((if s32 interval < s32 (((t % 2 ^ 32 : ℕ) : ℤ) - next) then
      (t % 2 ^ 32 : ℕ) else next : ℕ) + step)) :
    real + step ≤ realTime t next' ∧ realTime t next' ≤ t + interval ∧
      (next' : ℤ) % 2 ^ 32 = realTime t next' % 2 ^ 32 := by
  subst hset
  unfold realTime
  generalize hδ : s32 (((t % 2 ^ 32 : ℕ) : ℤ) - next) = δ at *
  unfold s32 at hδ
  split_ifs with hlate
  · unfold s32 at hlate ⊢
    unfold u32
    omega
  · unfold s32 at hlate ⊢
    unfold u32
    omega

end Arithmetic

/-! ## Every sequence of calls -/

section Runs

variable {c : StaQCfg} {a a' : StaQAqm} {e : Episode} {calls : List Record} {r : Record}
  {v : Verdict} {t n interval : ℕ} {ds : List Drop}

theorem countOk_of_le (h1 : 1 ≤ n) (h2 : n ≤ 65535) : CountOk n :=
  ⟨h1, h2, npuIsqrt_pos h1 (by omega)⟩

theorem spacing_concat (interval : ℕ) (ds : List Drop) (d : Drop) :
    spacing interval (ds ++ [d]) = spacing interval ds + interval / Nat.sqrt d.count := by
  unfold spacing
  rw [List.map_append, List.sum_append]
  rfl

/-- A drop that keeps the distance to the ones before. -/
theorem Spaced.concat (h : Spaced interval ds)
    (ht : ∀ first ∈ ds.head?, first.time + spacing interval ds ≤ t) :
    Spaced interval (ds ++ [⟨t, n⟩]) := by
  intro first hfirst pre d post hsplit
  rcases List.eq_nil_or_concat' post with rfl | ⟨init, last, rfl⟩
  · -- the new drop
    obtain ⟨rfl, hd⟩ := List.append_inj' hsplit rfl
    obtain rfl := (List.cons.inj hd).1
    cases ds with
    | nil =>
      obtain rfl := Option.some.inj hfirst
      exact Nat.le_refl _
    | cons x xs => exact ht first hfirst
  · have hds : ds = pre ++ d :: init := by
      have happ : ds ++ [⟨t, n⟩] = (pre ++ d :: init) ++ [last] := by
        rw [hsplit, List.append_assoc]
        rfl
      exact (List.append_inj' happ rfl).1
    refine h first ?_ pre d init hds
    cases ds with
    | nil => exact absurd hds.symm (by simp)
    | cons x xs => exact hfirst

/-- What holds of a sender between calls. -/
structure EpisodeInv (c : StaQCfg) (a : StaQAqm) (e : Episode) (calls : List Record) : Prop where
  spaced : Spaced c.interval e.drops
  counts : ∀ d ∈ e.drops, CountOk d.count
  dropping : a.flagDropping = true → e.drops ≠ []
  deadline : ∀ first ∈ e.drops.head?, first.time + spacing c.interval e.drops ≤ e.deadline
  next : e.drops ≠ [] → (a.next : ℤ) % 2 ^ 32 = e.deadline % 2 ^ 32
  /-- the deadline is at most an interval ahead of any later call -/
  near : e.drops ≠ [] → ∀ t : ℕ, (∀ r ∈ calls, r.time ≤ t) → e.deadline ≤ t + c.interval
  entry : ∀ first ∈ e.drops.head?, a.last = min first.count 255 ∧ first.count ≤ a.count
  count : e.drops ≠ [] → CountOk a.count
  out : a.flagDropping = false → e.drops ≠ [] → e.deadline ≤ e.left + c.interval

theorem EpisodeInv.keeps (h : EpisodeInv c a e calls) (ht : ∀ r ∈ calls, r.time ≤ t)
    (hv : v ≠ .aqmDrop) (hk : KeepsRate a a') :
    EpisodeInv c a' (e.after a a' v t) (calls ++ [r]) := by
  have hnear : e.drops ≠ [] → ∀ t : ℕ, (∀ x ∈ calls ++ [r], x.time ≤ t) →
      e.deadline ≤ t + c.interval :=
    fun hne t hall => h.near hne t fun x hx => hall x (List.mem_append_left _ hx)
  unfold Episode.after
  rw [if_neg hv]
  split_ifs with hleave
  · exact ⟨h.spaced, h.counts, fun hd => h.dropping (hk.dropping hd), h.deadline,
      hk.next ▸ h.next, hnear, hk.last ▸ hk.count ▸ h.entry, hk.count ▸ h.count,
      fun _ hne => h.near hne t ht⟩
  · refine ⟨h.spaced, h.counts, fun hd => h.dropping (hk.dropping hd), h.deadline,
      hk.next ▸ h.next, hnear, hk.last ▸ hk.count ▸ h.entry, hk.count ▸ h.count, fun hout => ?_⟩
    apply h.out
    rw [hout, Bool.not_false, Bool.and_true] at hleave
    exact Bool.eq_false_iff.mpr hleave

theorem EpisodeInv.enters (hint : c.interval < 2 ^ 31) (hr : r.time = t)
    (hen : Enters c a (t % 2 ^ 32) a') :
    EpisodeInv c a' (e.after a a' .aqmDrop t) (calls ++ [r]) := by
  -- the count resumed at is 1 or a 16-bit difference
  have hcount : CountOk a'.count := by
    rw [hen.count]
    have hn : u16 ((a.count : ℤ) - a.last) < 65536 := by
      unfold u16
      omega
    split_ifs with hkeep
    · exact countOk_of_le (by omega) (by omega)
    · exact countOk_of_le (Nat.le_refl _) (by omega)
  have hsqrt : npuIsqrt a'.count = Nat.sqrt a'.count := npuIsqrt_eq (by have := hcount.2.1; omega)
  have hstep : c.interval / Nat.sqrt a'.count ≤ c.interval := Nat.div_le_self _ _
  -- the next drop is one spacing ahead of this call, wraps aside
  have hreal : realTime t a'.next = t + (c.interval / Nat.sqrt a'.count : ℕ) ∧
      (a'.next : ℤ) % 2 ^ 32 = realTime t a'.next % 2 ^ 32 := by
    have hset : a'.next = u32 ((t % 2 ^ 32 : ℕ) + (c.interval / npuIsqrt a'.count : ℕ)) := hen.next
    rw [hset, hsqrt]
    generalize c.interval / Nat.sqrt a'.count = step at *
    unfold realTime s32 u32
    omega
  have hdrops : (e.after a a' .aqmDrop t).drops = [⟨t, a'.count⟩] := by
    unfold Episode.after
    rw [if_pos rfl, hen.out]
    rfl
  have hdeadline : (e.after a a' .aqmDrop t).deadline = realTime t a'.next := rfl
  refine ⟨?_, ?_, ?_, ?_, ?_, ?_, ?_, fun _ => hcount, fun hout => ?_⟩
  · rw [hdrops]
    have hnil : Spaced c.interval [] := fun first hfirst => nomatch hfirst
    exact hnil.concat fun first hfirst => nomatch hfirst
  · rw [hdrops]
    intro d hd
    rw [List.mem_singleton.mp hd]
    exact hcount
  · rw [hdrops]
    exact fun _ => List.cons_ne_nil _ _
  · rw [hdrops, hdeadline, hreal.1]
    intro first hfirst
    obtain rfl := Option.some.inj hfirst
    unfold spacing
    simp
  · exact fun _ => hreal.2
  · intro _ t' hall
    have htime := hall r (List.mem_append_right _ (List.mem_singleton.mpr rfl))
    rw [hdeadline, hreal.1]
    omega
  · rw [hdrops]
    intro first hfirst
    obtain rfl := Option.some.inj hfirst
    exact ⟨hen.last, Nat.le_refl _⟩
  · rw [hen.dropping] at hout
    cases hout

theorem EpisodeInv.again (hint : c.interval < 2 ^ 31) (h : EpisodeInv c a e calls)
    (ht : ∀ r ∈ calls, r.time ≤ t) (hr : r.time = t) (hag : DropsAgain c a (t % 2 ^ 32) a') :
    EpisodeInv c a' (e.after a a' .aqmDrop t) (calls ++ [r]) := by
  have hne := h.dropping hag.before
  have hold := h.count hne
  have hge : a.count ≤ a'.count := by
    rw [hag.count]
    split_ifs <;> omega
  have hcount : CountOk a'.count := by
    have h1 := hold.1
    have h2 := hold.2.1
    rw [hag.count]
    split_ifs
    · exact countOk_of_le (by omega) (by omega)
    · exact hold
  have hsqrt : npuIsqrt a'.count = Nat.sqrt a'.count := npuIsqrt_eq (by have := hcount.2.1; omega)
  -- the drop is due, so the deadline has been met
  have hmet := real_le_of_due hint (h.next hne) (h.near hne t ht) hag.due
  have hset : a'.next = u32 ((if s32 c.interval < s32 (((t % 2 ^ 32 : ℕ) : ℤ) - a.next) then
      t % 2 ^ 32 else a.next : ℕ) + (c.interval / npuIsqrt a'.count : ℕ)) := hag.next
  obtain ⟨hahead, hnear, hnext⟩ :=
    realTime_again hint (Nat.div_le_self _ _) hag.due hmet hset
  rw [hsqrt] at hahead
  have hdue := hag.due
  have hdrops : (e.after a a' .aqmDrop t).drops = e.drops ++ [⟨t, a'.count⟩] := by
    unfold Episode.after
    rw [if_pos rfl, hag.before]
    rfl
  -- the first drop of the episode stays the first
  have hhead : (e.drops ++ [(⟨t, a'.count⟩ : Drop)]).head? = e.drops.head? := by
    rw [List.head?_append_of_ne_nil _ hne]
  have hdeadline : (e.after a a' .aqmDrop t).deadline = realTime t a'.next := rfl
  refine ⟨?_, ?_, ?_, ?_, fun _ => hnext, ?_, ?_, fun _ => hcount, fun hout => ?_⟩
  · rw [hdrops]
    refine h.spaced.concat fun first hfirst => ?_
    have := h.deadline first hfirst
    omega
  · rw [hdrops]
    intro d hd
    rcases List.mem_append.mp hd with hd | hd
    · exact h.counts d hd
    · rw [List.mem_singleton.mp hd]
      exact hcount
  · rw [hdrops]
    exact fun _ => List.append_ne_nil_of_left_ne_nil hne _
  · rw [hdrops, hhead, hdeadline, spacing_concat]
    intro first hfirst
    have := h.deadline first hfirst
    push_cast
    omega
  · intro _ t' hall
    have htime := hall r (List.mem_append_right _ (List.mem_singleton.mpr rfl))
    rw [hdeadline]
    omega
  · rw [hdrops, hhead, hag.last]
    intro first hfirst
    obtain ⟨hlast, hle⟩ := h.entry first hfirst
    exact ⟨hlast, hle.trans hge⟩
  · rw [hag.dropping] at hout
    cases hout

theorem dropStep_eq {s s' : DropLog} {call : Call} (h : dropStep c s call = some s') :
    s.base.notBefore call ∧ s' = s.after c call := by
  unfold dropStep at h
  split at h
  · exact ⟨‹_›, (Option.some.inj h).symm⟩
  · cases h

/-- What holds of all senders. -/
def DropInv (c : StaQCfg) (s : DropLog) : Prop :=
  ∀ σ, EpisodeInv c (s.base.aqm σ) (s.log σ) s.base.calls

/-- What one call preserves. -/
theorem dropInv_step {s : DropLog} {call : Call} (hint : c.interval < 2 ^ 31) (h : DropInv c s)
    (htime : s.base.notBefore call) : DropInv c (s.after c call) := by
  intro σ
  unfold DropLog.after AqmState.after
  dsimp only
  by_cases hσ : σ = call.sender
  · subst hσ
    rw [Function.update_self, Function.update_self]
    rcases staQDecide_drops c (s.base.aqm call.sender) call.probe call.counts call.now call.len
      with ⟨hv, hk⟩ | ⟨hv, hen⟩ | ⟨hv, hag⟩
    · exact (h _).keeps htime hv hk
    · rw [show (s.base.decision c call).verdict = .aqmDrop from hv]
      exact EpisodeInv.enters hint rfl hen
    · rw [show (s.base.decision c call).verdict = .aqmDrop from hv]
      exact (h _).again hint htime rfl hag
  · rw [Function.update_of_ne hσ, Function.update_of_ne hσ]
    exact { h σ with
      near := fun hne t hall => (h σ).near hne t fun x hx => hall x (List.mem_append_left _ hx) }

theorem dropInv_init {s : DropLog} (h : (dropSystem c).init s) : DropInv c s := by
  obtain rfl : s = noDrops := h
  intro σ
  exact ⟨nofun, nofun, nofun, nofun, fun hne => absurd rfl hne, fun hne => absurd rfl hne,
    nofun, fun hne => absurd rfl hne, fun _ hne => absurd rfl hne⟩

theorem dropInv_of_reachable {s : DropLog} (hint : c.interval < 2 ^ 31)
    (h : (dropSystem c).Reachable s) : DropInv c s := by
  have hinit : ∀ s, (dropSystem c).init s → DropInv c s := fun _ h0 => dropInv_init h0
  refine h.invariant hinit ?_
  intro s call s' hs hstep
  obtain ⟨htime, rfl⟩ := dropStep_eq hstep
  exact dropInv_step hint hs htime

/-- Within a dropping state no drop comes before the time of the first one
    and the spacings since; the count stays in range, so that no drop
    divides by zero. -/
theorem drops_spaced (c : StaQCfg) (s : DropLog) (hint : 1 ≤ c.interval ∧ c.interval < 2 ^ 31)
    (h : (dropSystem c).Reachable s) (σ : Sender) :
    Spaced c.interval (s.log σ).drops ∧ (∀ d ∈ (s.log σ).drops, CountOk d.count) ∧
      ((s.base.aqm σ).flagDropping = true → CountOk (s.base.aqm σ).count) := by
  have hinv := dropInv_of_reachable hint.2 h σ
  exact ⟨hinv.spaced, hinv.counts, fun hd => hinv.count (hinv.dropping hd)⟩

end Runs

/-- A LAN frame of full size that finds ten frames in the chip. -/
def standing (time : ℕ) : Call := ⟨.lan, time, 10, ⟨staQNone, 0⟩, 1500⟩

/-- Four drops of a queue that stands from time 0 on. -/
theorem drops_spaced_four : ∃ s : DropLog,
    (s.log .lan).drops = [⟨1000, 1⟩, ⟨2000, 2⟩, ⟨3100, 3⟩, ⟨4000, 4⟩] ∧
      Spaced tenFrames.interval (s.log .lan).drops := by
  have hrun : (StepSystem.run (dropStep tenFrames) (fun _ _ => true) noDrops
      [standing 0, standing 1000, standing 2000, standing 3100, standing 4000]).map
        (fun s => (s.log .lan).drops) =
      some [⟨1000, 1⟩, ⟨2000, 2⟩, ⟨3100, 3⟩, ⟨4000, 4⟩] := by
    decide +kernel
  obtain ⟨s, hs, hdrops⟩ := Option.map_eq_some_iff.mp hrun
  have hreach : (dropSystem tenFrames).Reachable s :=
    .of_run (fun _ _ _ _ hstep => hstep) (.init rfl) hs
  exact ⟨s, hdrops, (drops_spaced tenFrames s (by decide) hreach .lan).1⟩

end ClankerNPU.StaQ
