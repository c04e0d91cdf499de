import ClankerNPU.Words
import Mathlib.Tactic.Common

/-! # Admission to one queue by two checkers

    What the hard limit of one station comes down to. Two harts admit
    frames to a queue; a hart loads the counters one by one, compares
    their difference with the limit and, having passed, counts the frame
    later. One of the two also completes frames. Nothing locks the check
    and the count together.

    With one sender the queue never exceeds the limit. With two it can by
    one: each may pass on counters that miss what the other is about to
    count, but not both at the limit. -/

namespace ClankerNPU.StaQ

/-- What a hart has loaded of the three counters. -/
structure Look where
  own : Option ℕ
  other : Option ℕ
  done : Option ℕ
  deriving DecidableEq, Repr

/-- One hart's side: its sent counter, whether a frame has passed and is
    not counted yet, and the check it is in. -/
structure Hand where
  sent : ℕ
  pending : Bool
  look : Option Look
  deriving DecidableEq, Repr

structure Gate where
  lan : Hand
  host : Hand
  done : ℕ
  deriving DecidableEq, Repr

/-- The frames passed and not counted yet. -/
def Hand.due (a : Hand) : ℕ := if a.pending then 1 else 0

/-- The frames counted. -/
def Gate.inside (g : Gate) : ℕ := u16 ((g.lan.sent : ℤ) + g.host.sent - g.done)

/-- How the check of a hart begins; with one sender the other counter is
    not read. -/
def Look.blank (two : Bool) : Look := ⟨none, if two then none else some 0, none⟩

/-- The difference as the check reads it. -/
def Look.queue (own other done : ℕ) : ℕ := (s16 (u16 ((own : ℤ) + other - done))).toNat

/-- One move of a hart, the other's sent counter and the done counter
    being `other` and `done`. -/
inductive Hand.Move (two : Bool) (limit other done : ℕ) : Hand → Hand → Prop where
  | begin {n : ℕ} : Move two limit other done ⟨n, false, none⟩ ⟨n, false, some (.blank two)⟩
  | loadOwn {n : ℕ} {o d : Option ℕ} :
    Move two limit other done ⟨n, false, some ⟨none, o, d⟩⟩ ⟨n, false, some ⟨some n, o, d⟩⟩
  | loadOther {n : ℕ} {a d : Option ℕ} :
    Move two limit other done ⟨n, false, some ⟨a, none, d⟩⟩ ⟨n, false, some ⟨a, some other, d⟩⟩
  | loadDone {n : ℕ} {a o : Option ℕ} :
    Move two limit other done ⟨n, false, some ⟨a, o, none⟩⟩ ⟨n, false, some ⟨a, o, some done⟩⟩
  | drop {n : ℕ} {l : Look} : Move two limit other done ⟨n, false, some l⟩ ⟨n, false, none⟩
  | pass {n a o d : ℕ} : Look.queue a o d < limit →
    Move two limit other done ⟨n, false, some ⟨some a, some o, some d⟩⟩ ⟨n, true, none⟩
  | giveUp {n : ℕ} : Move two limit other done ⟨n, true, none⟩ ⟨n, false, none⟩
  | count {n : ℕ} : Move two limit other done ⟨n, true, none⟩ ⟨u16 (n + 1), false, none⟩
  | uncount {n : ℕ} : 0 < u16 ((n : ℤ) + other - done) →
    Move two limit other done ⟨n, false, none⟩ ⟨u16 ((n : ℤ) - 1), false, none⟩

/-- One move of the gate; the host's hart completes frames, and with two
    senders admits its own. -/
inductive Gate.Move (two : Bool) (limit : ℕ) : Gate → Gate → Prop where
  | lan {a a' h : Hand} {d : ℕ} : Hand.Move two limit h.sent d a a' →
    Move two limit ⟨a, h, d⟩ ⟨a', h, d⟩
  | host {a h h' : Hand} {d : ℕ} : two = true → Hand.Move two limit a.sent d h h' →
    Move two limit ⟨a, h, d⟩ ⟨a, h', d⟩
  | complete {a : Hand} {n d : ℕ} : 0 < u16 ((a.sent : ℤ) + n - d) →
    Move two limit ⟨a, ⟨n, false, none⟩, d⟩ ⟨a, ⟨n, false, none⟩, u16 (d + 1)⟩

/-- The most frames the gate lets in. -/
def capOf (two : Bool) (limit : ℕ) : ℕ := if two then limit + 1 else limit

/-- Loaded and current, or not loaded. -/
def Seen (o : Option ℕ) (v : ℕ) : Prop := ∀ n, o = some n → n = v

/-- Loaded just before the other hart counted its one frame. -/
def JustMissed (o : Option ℕ) (v : ℕ) : Prop := ∃ n, o = some n ∧ u16 (n + 1) = v

/-- What keeps the queue within its bound. A hart whose look is out of
    date has looked while there was room; with the queue at its bound
    each look is current, up to one frame the other has just counted. -/
structure Gate.Fits (two : Bool) (limit : ℕ) (g : Gate) : Prop where
  room : g.inside + g.lan.due + g.host.due ≤ capOf two limit
  lanLook : ∀ l, g.lan.look = some l → g.inside + g.host.due = capOf two limit →
    Seen l.own g.lan.sent ∧ Seen l.done g.done ∧
      (Seen l.other g.host.sent ∨ two = true ∧ g.host.pending = false ∧
        JustMissed l.other g.host.sent)
  hostOwn : ∀ l, g.host.look = some l → Seen l.own g.host.sent ∧ Seen l.done g.done
  hostLook : ∀ l, g.host.look = some l → g.inside + g.lan.due = capOf two limit →
    Seen l.other g.lan.sent ∨ g.lan.pending = false ∧ JustMissed l.other g.lan.sent
  /-- while both look, only the one that began first can be out of date -/
  first : ∀ l l', g.lan.look = some l → g.host.look = some l' → ¬Seen l'.other g.lan.sent →
    Seen l.own g.lan.sent ∧ Seen l.done g.done ∧ Seen l.other g.host.sent
  alone : two = false → g.host = ⟨0, false, none⟩
  lanWord : g.lan.sent < 2 ^ 16
  hostWord : g.host.sent < 2 ^ 16
  doneWord : g.done < 2 ^ 16

variable {two : Bool} {limit : ℕ} {g g' : Gate} {a a' h h' : Hand} {d : ℕ}

theorem Look.queue_eq {own other done n : ℕ} (hn : n < 2 ^ 15)
    (h : u16 ((own : ℤ) + other - done) = n) : Look.queue own other done = n := by
  unfold Look.queue
  rw [h, s16_of_lt hn]
  rfl

theorem seen_none (v : ℕ) : Seen none v := fun _ hn => absurd hn.symm (Option.some_ne_none _)

theorem seen_some {v w : ℕ} : Seen (some v) w ↔ v = w := by
  constructor
  · intro hs
    exact hs v rfl
  · rintro rfl n hn
    exact (Option.some.inj hn).symm

theorem justMissed_some {v w : ℕ} : JustMissed (some v) w ↔ u16 (v + 1) = w := by
  constructor
  · rintro ⟨n, hn, hw⟩
    rw [Option.some.inj hn]
    exact hw
  · intro hw
    exact ⟨v, rfl, hw⟩

theorem Seen.missed {o : Option ℕ} {n : ℕ} (hs : Seen o n) :
    Seen o (u16 (n + 1)) ∨ JustMissed o (u16 (n + 1)) := by
  rcases o with _ | v
  · exact .inl (seen_none _)
  · exact .inr ⟨v, rfl, by rw [hs v rfl]⟩

theorem Hand.due_le (a : Hand) : a.due ≤ 1 := by
  unfold Hand.due
  split_ifs <;> omega

theorem Hand.due_of_not (hp : a.pending = false) : a.due = 0 := by
  unfold Hand.due
  rw [hp]
  rfl

theorem capOf_true (limit : ℕ) : capOf true limit = limit + 1 := rfl

theorem capOf_false (limit : ℕ) : capOf false limit = limit := rfl

theorem capOf_le (two : Bool) (limit : ℕ) : capOf two limit ≤ limit + 1 := by
  unfold capOf
  split_ifs <;> omega

theorem Gate.inside_count_lan {n : ℕ} {p q : Bool} {x y : Option Look}
    (hlt : Gate.inside ⟨⟨n, p, x⟩, h, d⟩ + 1 < 2 ^ 16) :
    Gate.inside ⟨⟨u16 (n + 1), q, y⟩, h, d⟩ = Gate.inside ⟨⟨n, p, x⟩, h, d⟩ + 1 := by
  unfold Gate.inside u16 at *
  dsimp only at *
  omega

theorem Gate.inside_count_host {n : ℕ} {p q : Bool} {x y : Option Look}
    (hlt : Gate.inside ⟨a, ⟨n, p, x⟩, d⟩ + 1 < 2 ^ 16) :
    Gate.inside ⟨a, ⟨u16 (n + 1), q, y⟩, d⟩ = Gate.inside ⟨a, ⟨n, p, x⟩, d⟩ + 1 := by
  unfold Gate.inside u16 at *
  dsimp only at *
  omega

/-- A check in which every counter is current, or one frame of the other
    hart is missing, sees the queue as it is, up to that frame. -/
theorem queue_of_current {own other done n m k : ℕ} {z : ℤ} (hz : u16 z = n) (hn : n < 2 ^ 15)
    (hown : own = m) (hdone : done = d) (hother : other = k) (hsum : z = (m : ℤ) + k - d) :
    Look.queue own other done = n := by
  apply Look.queue_eq hn
  rw [hown, hdone, hother, ← hsum, hz]

/-! ## The sender of LAN frames -/

/-- At the bound the check does not pass. -/
theorem Gate.Fits.lan_room {n own other done : ℕ} (hlim : limit ≤ 13312) (hpos : 0 < limit)
    (hf : Gate.Fits two limit ⟨⟨n, false, some ⟨some own, some other, some done⟩⟩, h, d⟩)
    (hq : Look.queue own other done < limit) :
    Gate.inside ⟨⟨n, false, some ⟨some own, some other, some done⟩⟩, h, d⟩ + h.due <
      capOf two limit := by
  by_contra hge
  have hroom := hf.room
  have hcap := capOf_le two limit
  have hdue := h.due_le
  have heq : Gate.inside ⟨⟨n, false, some ⟨some own, some other, some done⟩⟩, h, d⟩ + h.due =
      capOf two limit := by
    dsimp only at hroom
    omega
  obtain ⟨hown, hdone, hother⟩ := hf.lanLook _ rfl heq
  rw [seen_some] at hown hdone
  rcases hother with hother | ⟨htwo, hpend, hother⟩
  · -- the look is current: it sees the limit
    rw [seen_some] at hother
    have hfull : limit ≤ Gate.inside
        ⟨⟨n, false, some ⟨some own, some other, some done⟩⟩, h, d⟩ := by
      cases two with
      | true =>
        rw [capOf_true] at heq
        omega
      | false =>
        have hhost : h = ⟨0, false, none⟩ := hf.alone rfl
        have hzero : h.due = 0 := by rw [hhost]; rfl
        rw [capOf_false] at heq
        omega
    have hqueue := queue_of_current (n := Gate.inside _) rfl (by omega) hown hdone hother rfl
    omega
  · -- one frame of the host is missing, and the bound is one above the limit
    rw [justMissed_some] at hother
    rw [htwo, capOf_true, Hand.due_of_not hpend] at heq
    have hqueue : Look.queue own other done = limit := by
      apply Look.queue_eq (by omega)
      unfold Gate.inside at heq
      dsimp only at heq hown hdone hother
      rw [hown, hdone]
      unfold u16 at heq hother ⊢
      omega
    omega

/-- With room for one more only, the check passes on a count that misses
    a frame. -/
theorem Gate.Fits.lan_stale {n own other done : ℕ} (hlim : limit ≤ 13312)
    (hq : Look.queue own other done < limit)
    (hin : Gate.inside ⟨⟨n, false, some ⟨some own, some other, some done⟩⟩, h, d⟩ = limit) :
    ¬(own = n ∧ done = d ∧ other = h.sent) := by
  rintro ⟨hown, hdone, hother⟩
  have hqueue := queue_of_current hin (by omega) hown hdone hother rfl
  omega

theorem Gate.Fits.lan_pass {n own other done : ℕ} (hlim : limit ≤ 13312) (hpos : 0 < limit)
    (hf : Gate.Fits two limit ⟨⟨n, false, some ⟨some own, some other, some done⟩⟩, h, d⟩)
    (hq : Look.queue own other done < limit) :
    Gate.Fits two limit ⟨⟨n, true, none⟩, h, d⟩ where
  room := by
    have hlt := hf.lan_room hlim hpos hq
    change Gate.inside ⟨⟨n, false, some ⟨some own, some other, some done⟩⟩, h, d⟩ + 1 + h.due ≤ _
    omega
  lanLook := fun _ hl => absurd hl.symm (Option.some_ne_none _)
  hostOwn := hf.hostOwn
  hostLook := by
    intro l' hl' hin
    change Gate.inside ⟨⟨n, false, some ⟨some own, some other, some done⟩⟩, h, d⟩ + 1 = _ at hin
    left
    by_contra hmiss
    -- the host looks, so there are two senders, and the lan check was current
    have htwo : two = true := by
      by_contra htwo
      have hhost := hf.alone (by simpa using htwo)
      dsimp only at hhost hl'
      rw [hhost] at hl'
      exact Option.some_ne_none l' hl'.symm
    rw [htwo, capOf_true] at hin
    have hlast := Nat.succ.inj hin
    obtain ⟨hown, hdone, hother⟩ := hf.first _ l' rfl hl' hmiss
    rw [seen_some] at hown hdone hother
    exact Gate.Fits.lan_stale hlim hq hlast ⟨hown, hdone, hother⟩
  first := fun _ _ hl => absurd hl.symm (Option.some_ne_none _)
  alone := hf.alone
  lanWord := hf.lanWord
  hostWord := hf.hostWord
  doneWord := hf.doneWord

theorem Gate.Fits.lan_count {n : ℕ} (hlim : limit ≤ 13312)
    (hf : Gate.Fits two limit ⟨⟨n, true, none⟩, h, d⟩) :
    Gate.Fits two limit ⟨⟨u16 (n + 1), false, none⟩, h, d⟩ := by
  have hroom := hf.room
  change Gate.inside ⟨⟨n, true, none⟩, h, d⟩ + 1 + h.due ≤ capOf two limit at hroom
  have hcap := capOf_le two limit
  have hin : Gate.inside ⟨⟨u16 (n + 1), false, none⟩, h, d⟩ =
      Gate.inside ⟨⟨n, true, none⟩, h, d⟩ + 1 := Gate.inside_count_lan (by omega)
  constructor
  · rw [hin]
    exact hroom
  · intro _ hl
    exact absurd hl.symm (Option.some_ne_none _)
  · exact hf.hostOwn
  · intro l' hl' hfull
    change Gate.inside ⟨⟨u16 (n + 1), false, none⟩, h, d⟩ = _ at hfull
    rw [hin] at hfull
    -- the frame was passed already, so the host's look was current
    rcases hf.hostLook l' hl' hfull with hseen | ⟨hp, -⟩
    · rcases hseen.missed with hnew | hmiss
      · exact .inl hnew
      · exact .inr ⟨rfl, hmiss⟩
    · exact Bool.noConfusion hp
  · intro _ _ hl
    exact absurd hl.symm (Option.some_ne_none _)
  · exact hf.alone
  · unfold u16
    dsimp only
    omega
  · exact hf.hostWord
  · exact hf.doneWord

theorem Gate.inside_uncount_lan {n : ℕ} {p q : Bool} {x y : Option Look}
    (hpos : 0 < u16 ((n : ℤ) + h.sent - d)) :
    Gate.inside ⟨⟨u16 ((n : ℤ) - 1), q, y⟩, h, d⟩ + 1 = Gate.inside ⟨⟨n, p, x⟩, h, d⟩ := by
  unfold Gate.inside u16 at *
  dsimp only at *
  omega

theorem Gate.Fits.lan_uncount {n : ℕ} (hpos : 0 < u16 ((n : ℤ) + h.sent - d))
    (hf : Gate.Fits two limit ⟨⟨n, false, none⟩, h, d⟩) :
    Gate.Fits two limit ⟨⟨u16 ((n : ℤ) - 1), false, none⟩, h, d⟩ := by
  have hroom := hf.room
  change Gate.inside ⟨⟨n, false, none⟩, h, d⟩ + 0 + h.due ≤ capOf two limit at hroom
  have hin : Gate.inside ⟨⟨u16 ((n : ℤ) - 1), false, none⟩, h, d⟩ + 1 =
      Gate.inside ⟨⟨n, false, none⟩, h, d⟩ := Gate.inside_uncount_lan hpos
  constructor
  · change Gate.inside ⟨⟨u16 ((n : ℤ) - 1), false, none⟩, h, d⟩ + 0 + h.due ≤ capOf two limit
    omega
  · intro _ hl
    exact absurd hl.symm (Option.some_ne_none _)
  · exact hf.hostOwn
  · intro _ _ hfull
    -- one less than before is below the bound
    change Gate.inside ⟨⟨u16 ((n : ℤ) - 1), false, none⟩, h, d⟩ + 0 = capOf two limit at hfull
    omega
  · intro _ _ hl
    exact absurd hl.symm (Option.some_ne_none _)
  · exact hf.alone
  · unfold u16
    dsimp only
    omega
  · exact hf.hostWord
  · exact hf.doneWord

/-- A check goes on; nothing is passed or counted. -/
theorem Gate.Fits.lan_watch {n : ℕ} {x : Option Look} {l : Look}
    (hf : Gate.Fits two limit ⟨⟨n, false, x⟩, h, d⟩)
    (hown : Seen l.own n ∨ ∃ k, x = some k ∧ l.own = k.own)
    (hdone : Seen l.done d ∨ ∃ k, x = some k ∧ l.done = k.done)
    (hother : Seen l.other h.sent ∨ ∃ k, x = some k ∧ l.other = k.other) :
    Gate.Fits two limit ⟨⟨n, false, some l⟩, h, d⟩ where
  room := hf.room
  lanLook := by
    intro l' hl' hfull
    obtain rfl := Option.some.inj hl'
    refine ⟨?_, ?_, ?_⟩
    · rcases hown with hseen | ⟨k, hk, heq⟩
      · exact hseen
      · rw [heq]
        exact (hf.lanLook k hk hfull).1
    · rcases hdone with hseen | ⟨k, hk, heq⟩
      · exact hseen
      · rw [heq]
        exact (hf.lanLook k hk hfull).2.1
    · rcases hother with hseen | ⟨k, hk, heq⟩
      · exact .inl hseen
      · rw [heq]
        exact (hf.lanLook k hk hfull).2.2
  hostOwn := hf.hostOwn
  hostLook := hf.hostLook
  first := by
    intro l' m hl' hm hmiss
    obtain rfl := Option.some.inj hl'
    refine ⟨?_, ?_, ?_⟩
    · rcases hown with hseen | ⟨k, hk, heq⟩
      · exact hseen
      · rw [heq]
        exact (hf.first k m hk hm hmiss).1
    · rcases hdone with hseen | ⟨k, hk, heq⟩
      · exact hseen
      · rw [heq]
        exact (hf.first k m hk hm hmiss).2.1
    · rcases hother with hseen | ⟨k, hk, heq⟩
      · exact hseen
      · rw [heq]
        exact (hf.first k m hk hm hmiss).2.2
  alone := hf.alone
  lanWord := hf.lanWord
  hostWord := hf.hostWord
  doneWord := hf.doneWord

/-- The hart gives up its check, or the frame that passed it. -/
theorem Gate.Fits.lan_leave {n : ℕ} {p : Bool} {x : Option Look}
    (hf : Gate.Fits two limit ⟨⟨n, p, x⟩, h, d⟩) :
    Gate.Fits two limit ⟨⟨n, false, none⟩, h, d⟩ := by
  have hroom := hf.room
  change Gate.inside ⟨⟨n, false, none⟩, h, d⟩ + _ + h.due ≤ capOf two limit at hroom
  constructor
  · change Gate.inside ⟨⟨n, false, none⟩, h, d⟩ + 0 + h.due ≤ capOf two limit
    omega
  · intro _ hl
    exact absurd hl.symm (Option.some_ne_none _)
  · exact hf.hostOwn
  · intro l' hl' hfull
    change Gate.inside ⟨⟨n, false, none⟩, h, d⟩ + 0 = capOf two limit at hfull
    have hzero : Hand.due ⟨n, p, x⟩ = 0 := by
      dsimp only at hroom
      omega
    rcases hf.hostLook l' hl' (by change Gate.inside ⟨⟨n, false, none⟩, h, d⟩ + _ = _; omega)
      with hseen | ⟨-, hmiss⟩
    · exact .inl hseen
    · exact .inr ⟨rfl, hmiss⟩
  · intro _ _ hl
    exact absurd hl.symm (Option.some_ne_none _)
  · exact hf.alone
  · exact hf.lanWord
  · exact hf.hostWord
  · exact hf.doneWord

theorem Gate.Fits.lan_move (hlim : limit ≤ 13312) (hpos : 0 < limit)
    (hf : Gate.Fits two limit ⟨a, h, d⟩) (hm : Hand.Move two limit h.sent d a a') :
    Gate.Fits two limit ⟨a', h, d⟩ := by
  cases hm with
  | begin =>
    apply hf.lan_watch (.inl (seen_none _)) (.inl (seen_none _))
    -- with one sender the host has sent nothing
    left
    cases two with
    | true => exact seen_none _
    | false =>
      have hhost : h = ⟨0, false, none⟩ := hf.alone rfl
      rw [hhost]
      exact seen_some.2 rfl
  | loadOwn => exact hf.lan_watch (.inl (seen_some.2 rfl)) (.inr ⟨_, rfl, rfl⟩) (.inr ⟨_, rfl, rfl⟩)
  | loadOther =>
    exact hf.lan_watch (.inr ⟨_, rfl, rfl⟩) (.inr ⟨_, rfl, rfl⟩) (.inl (seen_some.2 rfl))
  | loadDone =>
    exact hf.lan_watch (.inr ⟨_, rfl, rfl⟩) (.inl (seen_some.2 rfl)) (.inr ⟨_, rfl, rfl⟩)
  | drop => exact hf.lan_leave
  | pass hq => exact hf.lan_pass hlim hpos hq
  | giveUp => exact hf.lan_leave
  | count => exact hf.lan_count hlim
  | uncount hin => exact hf.lan_uncount hin

/-! ## The sender of host frames -/

theorem Gate.inside_comm {x y : Option Look} {p q : Bool} {n m : ℕ} :
    Gate.inside ⟨⟨n, p, x⟩, ⟨m, q, y⟩, d⟩ = u16 ((m : ℤ) + n - d) := by
  unfold Gate.inside
  rw [add_comm (n : ℤ)]

theorem Gate.Fits.host_stale {n own other done : ℕ} (hlim : limit ≤ 13312)
    (hf : Gate.Fits two limit ⟨a, ⟨n, false, some ⟨some own, some other, some done⟩⟩, d⟩)
    (hq : Look.queue own other done < limit)
    (hin : Gate.inside ⟨a, ⟨n, false, some ⟨some own, some other, some done⟩⟩, d⟩ = limit) :
    other ≠ a.sent := by
  intro hother
  obtain ⟨hown, hdone⟩ := hf.hostOwn _ rfl
  rw [seen_some] at hown hdone
  rw [Gate.inside_comm] at hin
  have hqueue := queue_of_current hin (by omega) hown hdone hother rfl
  omega

theorem Gate.Fits.host_room {n own other done : ℕ} (hlim : limit ≤ 13312)
    (hf : Gate.Fits true limit ⟨a, ⟨n, false, some ⟨some own, some other, some done⟩⟩, d⟩)
    (hq : Look.queue own other done < limit) :
    Gate.inside ⟨a, ⟨n, false, some ⟨some own, some other, some done⟩⟩, d⟩ + a.due <
      limit + 1 := by
  by_contra hge
  have hroom := hf.room
  change Gate.inside ⟨a, ⟨n, false, _⟩, d⟩ + a.due + 0 ≤ limit + 1 at hroom
  have heq : Gate.inside ⟨a, ⟨n, false, some ⟨some own, some other, some done⟩⟩, d⟩ + a.due =
      limit + 1 := by omega
  have hdue := a.due_le
  obtain ⟨hown, hdone⟩ := hf.hostOwn _ rfl
  rw [seen_some] at hown hdone
  rcases hf.hostLook _ rfl heq with hother | ⟨hpend, hother⟩
  · -- the look is current
    rw [seen_some] at hother
    have hz : u16 ((n : ℤ) + a.sent - d) =
        Gate.inside ⟨a, ⟨n, false, some ⟨some own, some other, some done⟩⟩, d⟩ :=
      Gate.inside_comm.symm
    have hqueue := queue_of_current hz (by omega) hown hdone hother rfl
    omega
  · -- it misses the frame the other sender has just counted
    rw [justMissed_some] at hother
    rw [Hand.due_of_not hpend] at heq
    have hqueue : Look.queue own other done = limit := by
      apply Look.queue_eq (by omega)
      unfold Gate.inside at heq
      dsimp only at heq hown hdone hother
      rw [hown, hdone]
      unfold u16 at heq hother ⊢
      omega
    omega

theorem Gate.Fits.host_pass {n own other done : ℕ} (hlim : limit ≤ 13312)
    (hf : Gate.Fits true limit ⟨a, ⟨n, false, some ⟨some own, some other, some done⟩⟩, d⟩)
    (hq : Look.queue own other done < limit) :
    Gate.Fits true limit ⟨a, ⟨n, true, none⟩, d⟩ where
  room := by
    have hlt := hf.host_room hlim hq
    change Gate.inside ⟨a, ⟨n, false, some ⟨some own, some other, some done⟩⟩, d⟩ + a.due + 1 ≤
      limit + 1
    omega
  lanLook := by
    intro l hl hin
    change Gate.inside ⟨a, ⟨n, false, some ⟨some own, some other, some done⟩⟩, d⟩ + 1 =
      limit + 1 at hin
    have hmiss := hf.host_stale hlim hq (Nat.succ.inj hin)
    obtain ⟨hown, hdone, hother⟩ := hf.first l _ hl rfl fun hseen => hmiss (seen_some.1 hseen)
    exact ⟨hown, hdone, .inl hother⟩
  hostOwn := fun _ hl => absurd hl.symm (Option.some_ne_none _)
  hostLook := fun _ hl => absurd hl.symm (Option.some_ne_none _)
  first := fun _ _ _ hl => absurd hl.symm (Option.some_ne_none _)
  alone := fun htwo => absurd htwo.symm Bool.false_ne_true
  lanWord := hf.lanWord
  hostWord := hf.hostWord
  doneWord := hf.doneWord

theorem Gate.Fits.host_count {n : ℕ} (hlim : limit ≤ 13312)
    (hf : Gate.Fits true limit ⟨a, ⟨n, true, none⟩, d⟩) :
    Gate.Fits true limit ⟨a, ⟨u16 (n + 1), false, none⟩, d⟩ := by
  have hroom := hf.room
  change Gate.inside ⟨a, ⟨n, true, none⟩, d⟩ + a.due + 1 ≤ limit + 1 at hroom
  have hin : Gate.inside ⟨a, ⟨u16 (n + 1), false, none⟩, d⟩ =
      Gate.inside ⟨a, ⟨n, true, none⟩, d⟩ + 1 := Gate.inside_count_host (by omega)
  constructor
  · change Gate.inside ⟨a, ⟨u16 (n + 1), false, none⟩, d⟩ + a.due + 0 ≤ limit + 1
    omega
  · intro l hl hfull
    change Gate.inside ⟨a, ⟨u16 (n + 1), false, none⟩, d⟩ = _ at hfull
    rw [hin] at hfull
    -- the frame was passed already, so the LAN look was current
    obtain ⟨hown, hdone, hother⟩ := hf.lanLook l hl hfull
    refine ⟨hown, hdone, ?_⟩
    rcases hother with hseen | ⟨-, hp, -⟩
    · rcases hseen.missed with hnew | hmiss
      · exact .inl hnew
      · exact .inr ⟨rfl, rfl, hmiss⟩
    · exact Bool.noConfusion hp
  · intro _ hl
    exact absurd hl.symm (Option.some_ne_none _)
  · intro _ hl
    exact absurd hl.symm (Option.some_ne_none _)
  · intro _ _ _ hl
    exact absurd hl.symm (Option.some_ne_none _)
  · intro htwo
    exact absurd htwo.symm Bool.false_ne_true
  · exact hf.lanWord
  · unfold u16
    dsimp only
    omega
  · exact hf.doneWord

/-- A frame leaves the queue; the host's hart is in no check. -/
theorem Gate.Fits.host_lower {n n' d' : ℕ}
    (hf : Gate.Fits two limit ⟨a, ⟨n, false, none⟩, d⟩)
    (hin : Gate.inside ⟨a, ⟨n', false, none⟩, d'⟩ < Gate.inside ⟨a, ⟨n, false, none⟩, d⟩)
    (halone : two = false → n' = n) (hn : n' < 2 ^ 16) (hd : d' < 2 ^ 16) :
    Gate.Fits two limit ⟨a, ⟨n', false, none⟩, d'⟩ := by
  have hroom := hf.room
  change Gate.inside ⟨a, ⟨n, false, none⟩, d⟩ + a.due + 0 ≤ capOf two limit at hroom
  constructor
  · change Gate.inside ⟨a, ⟨n', false, none⟩, d'⟩ + a.due + 0 ≤ capOf two limit
    omega
  · intro _ _ hfull
    -- one less than before is below the bound
    change Gate.inside ⟨a, ⟨n', false, none⟩, d'⟩ + 0 = capOf two limit at hfull
    omega
  · intro _ hl
    exact absurd hl.symm (Option.some_ne_none _)
  · intro _ hl
    exact absurd hl.symm (Option.some_ne_none _)
  · intro _ _ _ hl
    exact absurd hl.symm (Option.some_ne_none _)
  · intro htwo
    rw [halone htwo]
    exact hf.alone htwo
  · exact hf.lanWord
  · exact hn
  · exact hd

theorem Gate.Fits.host_uncount {n : ℕ} (hpos : 0 < u16 ((n : ℤ) + a.sent - d))
    (hf : Gate.Fits true limit ⟨a, ⟨n, false, none⟩, d⟩) :
    Gate.Fits true limit ⟨a, ⟨u16 ((n : ℤ) - 1), false, none⟩, d⟩ := by
  apply hf.host_lower
  · unfold Gate.inside u16 at *
    dsimp only at *
    omega
  · intro htwo
    exact absurd htwo.symm Bool.false_ne_true
  · unfold u16
    omega
  · exact hf.doneWord

theorem Gate.Fits.complete {n : ℕ} (hpos : 0 < u16 ((a.sent : ℤ) + n - d))
    (hf : Gate.Fits two limit ⟨a, ⟨n, false, none⟩, d⟩) :
    Gate.Fits two limit ⟨a, ⟨n, false, none⟩, u16 (d + 1)⟩ := by
  apply hf.host_lower
  · unfold Gate.inside u16 at *
    dsimp only at *
    omega
  · intro _
    rfl
  · exact hf.hostWord
  · unfold u16
    omega

/-- A check goes on; nothing is passed or counted. -/
theorem Gate.Fits.host_watch {n : ℕ} {x : Option Look} {l : Look}
    (hf : Gate.Fits true limit ⟨a, ⟨n, false, x⟩, d⟩)
    (hown : Seen l.own n ∨ ∃ k, x = some k ∧ l.own = k.own)
    (hdone : Seen l.done d ∨ ∃ k, x = some k ∧ l.done = k.done)
    (hother : Seen l.other a.sent ∨ ∃ k, x = some k ∧ l.other = k.other) :
    Gate.Fits true limit ⟨a, ⟨n, false, some l⟩, d⟩ where
  room := hf.room
  lanLook := hf.lanLook
  hostOwn := by
    intro l' hl'
    obtain rfl := Option.some.inj hl'
    constructor
    · rcases hown with hseen | ⟨k, hk, heq⟩
      · exact hseen
      · rw [heq]
        exact (hf.hostOwn k hk).1
    · rcases hdone with hseen | ⟨k, hk, heq⟩
      · exact hseen
      · rw [heq]
        exact (hf.hostOwn k hk).2
  hostLook := by
    intro l' hl' hfull
    obtain rfl := Option.some.inj hl'
    rcases hother with hseen | ⟨k, hk, heq⟩
    · exact .inl hseen
    · rw [heq]
      exact hf.hostLook k hk hfull
  first := by
    intro m l' hm hl' hmiss
    obtain rfl := Option.some.inj hl'
    rcases hother with hseen | ⟨k, hk, heq⟩
    · exact absurd hseen hmiss
    · rw [heq] at hmiss
      exact hf.first m k hm hk hmiss
  alone := fun htwo => absurd htwo.symm Bool.false_ne_true
  lanWord := hf.lanWord
  hostWord := hf.hostWord
  doneWord := hf.doneWord

theorem Gate.Fits.host_leave {n : ℕ} {p : Bool} {x : Option Look}
    (hf : Gate.Fits true limit ⟨a, ⟨n, p, x⟩, d⟩) :
    Gate.Fits true limit ⟨a, ⟨n, false, none⟩, d⟩ := by
  have hroom := hf.room
  change Gate.inside ⟨a, ⟨n, false, none⟩, d⟩ + a.due + _ ≤ limit + 1 at hroom
  constructor
  · change Gate.inside ⟨a, ⟨n, false, none⟩, d⟩ + a.due + 0 ≤ limit + 1
    omega
  · intro l hl hfull
    change Gate.inside ⟨a, ⟨n, false, none⟩, d⟩ + 0 = limit + 1 at hfull
    -- at the bound the host has nothing due, so leaving changes nothing
    have hzero : Hand.due ⟨n, p, x⟩ = 0 := by
      dsimp only at hroom
      omega
    obtain ⟨hown, hdone, hother⟩ := hf.lanLook l hl
      (by change Gate.inside ⟨a, ⟨n, false, none⟩, d⟩ + _ = limit + 1; omega)
    refine ⟨hown, hdone, ?_⟩
    rcases hother with hseen | ⟨htwo, -, hmiss⟩
    · exact .inl hseen
    · exact .inr ⟨htwo, rfl, hmiss⟩
  · intro _ hl
    exact absurd hl.symm (Option.some_ne_none _)
  · intro _ hl
    exact absurd hl.symm (Option.some_ne_none _)
  · intro _ _ _ hl
    exact absurd hl.symm (Option.some_ne_none _)
  · intro htwo
    exact absurd htwo.symm Bool.false_ne_true
  · exact hf.lanWord
  · exact hf.hostWord
  · exact hf.doneWord

theorem Gate.Fits.host_move (hlim : limit ≤ 13312) (hf : Gate.Fits true limit ⟨a, h, d⟩)
    (hm : Hand.Move true limit a.sent d h h') : Gate.Fits true limit ⟨a, h', d⟩ := by
  cases hm with
  | begin =>
    exact hf.host_watch (.inl (seen_none _)) (.inl (seen_none _)) (.inl (seen_none _))
  | loadOwn =>
    exact hf.host_watch (.inl (seen_some.2 rfl)) (.inr ⟨_, rfl, rfl⟩) (.inr ⟨_, rfl, rfl⟩)
  | loadOther =>
    exact hf.host_watch (.inr ⟨_, rfl, rfl⟩) (.inr ⟨_, rfl, rfl⟩) (.inl (seen_some.2 rfl))
  | loadDone =>
    exact hf.host_watch (.inr ⟨_, rfl, rfl⟩) (.inl (seen_some.2 rfl)) (.inr ⟨_, rfl, rfl⟩)
  | drop => exact hf.host_leave
  | pass hq => exact hf.host_pass hlim hq
  | giveUp => exact hf.host_leave
  | count => exact hf.host_count hlim
  | uncount hin => exact hf.host_uncount hin

/-- Every move keeps the queue within its bound. -/
theorem Gate.Fits.move (hlim : limit ≤ 13312) (hpos : 0 < limit) (hf : g.Fits two limit)
    (hm : Gate.Move two limit g g') : g'.Fits two limit := by
  cases hm with
  | lan hm => exact hf.lan_move hlim hpos hm
  | host htwo hm =>
    subst htwo
    exact hf.host_move hlim hm
  | complete hin => exact hf.complete hin

/-- The gate before the first frame. -/
def Gate.empty : Gate := ⟨⟨0, false, none⟩, ⟨0, false, none⟩, 0⟩

theorem Gate.Fits.empty (two : Bool) (limit : ℕ) : Gate.empty.Fits two limit where
  room := Nat.zero_le _
  lanLook := fun _ hl => absurd hl.symm (Option.some_ne_none _)
  hostOwn := fun _ hl => absurd hl.symm (Option.some_ne_none _)
  hostLook := fun _ hl => absurd hl.symm (Option.some_ne_none _)
  first := fun _ _ hl => absurd hl.symm (Option.some_ne_none _)
  alone := fun _ => rfl
  lanWord := by decide
  hostWord := by decide
  doneWord := by decide

theorem Gate.Fits.inside_le (hf : g.Fits two limit) : g.inside ≤ capOf two limit := by
  have hroom := hf.room
  omega

end ClankerNPU.StaQ
