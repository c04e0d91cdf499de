import ClankerNPU.Kite.Reorder
import Mathlib.Data.BitVec

/-! # Where a BA entry lies

    Each band's BA table has 28 bytes for each of eight TIDs of 150
    stations; in DBDC mode the two tables are one, for 300 stations. The
    address of an entry is worked out in six places. They all agree, but
    none of them checks that the station and the TID they are given have
    a place in the table: a frame carries a TID of four bits, and outside
    DBDC mode a station's number may be too large. -/

namespace ClankerNPU.Kite

/-! ## The six places -/

/-- The addresses of `ba_table_a` and `ba_table_b`. -/
structure BaTables where
  a : ℕ
  b : ℕ

/-- The bytes of a BA table. -/
def baTableSize : ℕ := 0x8340

/-- The entry of `kite_classify_pn`. -/
def classifyEntry (t : BaTables) (dbdc : Bool) (band wcid tid : ℕ) : ℕ :=
  if dbdc then
    if 150 < wcid then u32 (t.a + 28 * (8 * ((wcid : ℤ) - 151) + tid))
    else u32 (t.b + 28 * (8 * ((wcid : ℤ) - 1) + tid))
  else u32 ((if band ≠ 0 then t.b else t.a : ℕ) + 28 * (8 * ((wcid : ℤ) - 1) + tid))

/-- The entry of `kite_classify_fast`. -/
def classifyFastEntry (t : BaTables) (dbdc : Bool) (band wcid tid : ℕ) : ℕ :=
  if dbdc ∧ 150 < wcid then u32 (t.a + 28 * (8 * ((wcid : ℤ) - 151) + tid))
  else if dbdc ∨ band ≠ 0 then u32 (t.b + 28 * (8 * ((wcid : ℤ) - 1) + tid))
  else u32 (t.a + 28 * (8 * ((wcid : ℤ) - 1) + tid))

/-- The entry of `npu_set_bar_info`. -/
def barInfoEntry (t : BaTables) (dbdc : Bool) (band wcid tid : ℕ) : ℕ :=
  if dbdc then
    if 150 < wcid then u32 (t.a + 28 * (8 * ((wcid : ℤ) - 151) + tid))
    else u32 (t.b + 28 * (8 * ((wcid : ℤ) - 1) + tid))
  else
    let off := u32 (28 * (8 * ((wcid : ℤ) - 1) + tid))
    if band ≠ 0 then u32 (t.b + off : ℕ) else u32 (t.a + off : ℕ)

/-- The entry of `npu_set_ba_entry`. -/
def setBaEntry (t : BaTables) (dbdc : Bool) (band wcid tid : ℕ) : ℕ :=
  if band ≠ 0 then
    if dbdc then
      if 150 < wcid then u32 (t.a + 28 * (8 * ((wcid : ℤ) - 151) + tid))
      else u32 (t.b + 28 * (8 * ((wcid : ℤ) - 1) + tid))
    else u32 (t.b + 28 * (8 * ((wcid : ℤ) - 1) + tid))
  else
    if dbdc then
      if 150 < wcid then u32 (t.a + 28 * (8 * ((wcid : ℤ) - 151) + tid))
      else u32 (t.b + 28 * (8 * ((wcid : ℤ) - 1) + tid))
    else u32 (t.a + 28 * (8 * ((wcid : ℤ) - 1) + tid))

/-- The entries of `wifi_reset_ba_entry`, one for each `i`. -/
def resetBaEntry (t : BaTables) (dbdc : Bool) (dir wcid i : ℕ) : ℕ :=
  if dbdc then
    if 150 < wcid then u32 (t.a + 224 * ((wcid : ℤ) - 151) + i * 28)
    else u32 (t.b + 224 * ((wcid : ℤ) - 1) + i * 28)
  else if dir ≠ 0 then u32 (t.b + 224 * ((wcid : ℤ) - 1) + i * 28)
  else u32 (t.a + 224 * ((wcid : ℤ) - 1) + i * 28)

/-- `ba_band_entry`, on the bytes of memory. -/
def baBandEntry (t : BaTables) (mem : ℕ → ℕ) (dbdc : Bool) (band wcid tid : ℕ) : Option ℕ :=
  let off := u32 (((wcid : ℤ) - 1) * 224 + tid * 28)
  if dbdc = false then
    let e := u32 ((if band ≠ 0 then t.b else t.a : ℕ) + off)
    if e = 0 ∨ mem (e + 24) ≠ 4 then none else some e
  else
    let e := if 150 < wcid then u32 ((t.a : ℤ) + off - 150 * 224) else u32 (t.b + off : ℕ)
    if mem (e + 25) ≠ band ∨ mem (e + 24) ≠ 4 then none else some e

/-! ## Who asks -/

/-- What names an entry: a received frame, by its two words, a BAR or an
    ADDBA mail, or one of the eight TIDs of a delete-station mail. -/
inductive BaRequest where
  | frame (w1 w2 : BitVec 32)
  | bar (packed : BitVec 32)
  | addba (packed : BitVec 32)
  | delete (wcid : BitVec 32) (i : Fin 8)

def BaRequest.wcid : BaRequest → ℕ
  | .frame w1 _ => (w1 &&& 0xFF).toNat
  | .bar packed => ((packed >>> 3) &&& 0xFF).toNat
  | .addba packed => ((packed >>> 3) &&& 0xFF).toNat
  | .delete wcid _ => wcid.toNat

def BaRequest.tid : BaRequest → ℕ
  | .frame _ w2 => ((w2 >>> 16) &&& 0xF).toNat
  | .bar packed => (packed &&& 7).toNat
  | .addba packed => (packed &&& 7).toNat
  | .delete _ i => i.val

/-- The stations the tables have room for. -/
def baStations (dbdc : Bool) : ℕ := if dbdc then 300 else 150

/-- A station and a TID with a place in the tables. -/
structure HasPlace (dbdc : Bool) (wcid tid : ℕ) : Prop where
  pos : wcid ≠ 0
  station : wcid ≤ baStations dbdc
  tid : tid < 8

/-- The table of a station. -/
def baTable (t : BaTables) (dbdc : Bool) (band wcid : ℕ) : ℕ :=
  if dbdc then if 150 < wcid then t.a else t.b else if band ≠ 0 then t.b else t.a

/-- The tables as `sram_buf_alloc` hands them out: apart, and below 4 GB. -/
structure BaTables.Apart (t : BaTables) : Prop where
  apart : t.a + baTableSize ≤ t.b ∨ t.b + baTableSize ≤ t.a
  a : t.a + baTableSize ≤ 2 ^ 32
  b : t.b + baTableSize ≤ 2 ^ 32

/-- Two entries have no byte in common. -/
def EntriesApart (e e' : ℕ) : Prop := e + 28 ≤ e' ∨ e' + 28 ≤ e

/-- The entry lies in its table and is shared with no other station's TID,
    and every place finds the same one; the timeout scan finds it when it
    is active, in DBDC mode for its band. -/
structure WellChosen (t : BaTables) (dbdc : Bool) (band wcid tid : ℕ) : Prop where
  inside : baTable t dbdc band wcid ≤ classifyEntry t dbdc band wcid tid ∧
    classifyEntry t dbdc band wcid tid + 28 ≤ baTable t dbdc band wcid + baTableSize
  alone : ∀ wcid' tid', HasPlace dbdc wcid' tid' → ¬(wcid' = wcid ∧ tid' = tid) →
    EntriesApart (classifyEntry t dbdc band wcid tid) (classifyEntry t dbdc band wcid' tid')
  fast : classifyFastEntry t dbdc band wcid tid = classifyEntry t dbdc band wcid tid
  bar : barInfoEntry t dbdc band wcid tid = classifyEntry t dbdc band wcid tid
  addba : setBaEntry t dbdc band wcid tid = classifyEntry t dbdc band wcid tid
  delete : resetBaEntry t dbdc band wcid tid = classifyEntry t dbdc band wcid tid
  scan : ∀ mem, baBandEntry t mem dbdc band wcid tid =
    if (if dbdc then mem (classifyEntry t dbdc band wcid tid + 25) = band
        else classifyEntry t dbdc band wcid tid ≠ 0) ∧
      mem (classifyEntry t dbdc band wcid tid + 24) = 4
    then some (classifyEntry t dbdc band wcid tid) else none

/-! ## All places agree -/

section places

variable {t : BaTables} {dbdc : Bool} {band wcid tid : ℕ}

/-- An offset may be cut to 32 bits before the table's address is added. -/
theorem u32_add_u32 (a x : ℤ) : u32 (a + u32 x) = u32 (a + x) := by
  unfold u32
  omega

theorem classifyFastEntry_eq :
    classifyFastEntry t dbdc band wcid tid = classifyEntry t dbdc band wcid tid := by
  unfold classifyFastEntry classifyEntry
  cases dbdc with
  | false => by_cases hband : band = 0 <;> simp [hband]
  | true => by_cases hwcid : 150 < wcid <;> simp [hwcid]

theorem barInfoEntry_eq :
    barInfoEntry t dbdc band wcid tid = classifyEntry t dbdc band wcid tid := by
  unfold barInfoEntry classifyEntry
  cases dbdc with
  | false =>
    by_cases hband : band = 0 <;> simp only [hband, ne_eq, not_true, not_false_iff, if_true,
      if_false, Nat.cast_add, u32_add_u32, Bool.false_eq_true]
  | true => rfl

theorem setBaEntry_eq :
    setBaEntry t dbdc band wcid tid = classifyEntry t dbdc band wcid tid := by
  unfold setBaEntry classifyEntry
  cases dbdc with
  | false => by_cases hband : band = 0 <;> simp [hband]
  | true => by_cases hband : band = 0 <;> simp [hband]

theorem resetBaEntry_eq :
    resetBaEntry t dbdc band wcid tid = classifyEntry t dbdc band wcid tid := by
  have hoff : ∀ a x : ℤ, a + 224 * x + tid * 28 = a + 28 * (8 * x + tid) := by
    intro a x
    omega
  unfold resetBaEntry classifyEntry
  cases dbdc with
  | false => by_cases hband : band = 0 <;> simp [hband, hoff]
  | true => by_cases hfar : 150 < wcid <;> simp [hfar, hoff]

theorem baBandEntry_eq (mem : ℕ → ℕ) : baBandEntry t mem dbdc band wcid tid =
    if (if dbdc then mem (classifyEntry t dbdc band wcid tid + 25) = band
        else classifyEntry t dbdc band wcid tid ≠ 0) ∧
      mem (classifyEntry t dbdc band wcid tid + 24) = 4
    then some (classifyEntry t dbdc band wcid tid) else none := by
  cases dbdc with
  | false =>
    have hentry : u32 ((if band ≠ 0 then t.b else t.a : ℕ) +
        u32 (((wcid : ℤ) - 1) * 224 + tid * 28)) = classifyEntry t false band wcid tid := by
      rw [u32_add_u32]
      unfold classifyEntry
      simp only [Bool.false_eq_true, if_false]
      congr 1
      omega
    unfold baBandEntry
    simp only [if_true, Bool.false_eq_true, if_false]
    rw [hentry]
    by_cases hnull : classifyEntry t false band wcid tid = 0 <;>
      by_cases hstate : mem (classifyEntry t false band wcid tid + 24) = 4 <;>
      simp [hnull, hstate]
  | true =>
    have hentry : (if 150 < wcid then
          u32 ((t.a : ℤ) + u32 (((wcid : ℤ) - 1) * 224 + tid * 28) - 150 * 224)
        else u32 (t.b + u32 (((wcid : ℤ) - 1) * 224 + tid * 28) : ℕ)) =
        classifyEntry t true band wcid tid := by
      unfold classifyEntry
      rw [if_pos rfl]
      refine if_congr Iff.rfl ?_ ?_
      · rw [add_sub_right_comm, u32_add_u32]
        congr 1
        omega
      · rw [Nat.cast_add, u32_add_u32]
        congr 1
        omega
    unfold baBandEntry
    simp only [Bool.true_eq_false, if_false, if_true]
    rw [hentry]
    by_cases hband : mem (classifyEntry t true band wcid tid + 25) = band <;>
      by_cases hstate : mem (classifyEntry t true band wcid tid + 24) = 4 <;>
      simp [hband, hstate]

/-! ## In the table and alone -/

/-- The number of a station's TID in its table. -/
def baSlot (dbdc : Bool) (wcid tid : ℕ) : ℤ :=
  8 * ((wcid : ℤ) - (if dbdc ∧ 150 < wcid then 151 else 1)) + tid

theorem classifyEntry_slot : classifyEntry t dbdc band wcid tid =
    u32 (baTable t dbdc band wcid + 28 * baSlot dbdc wcid tid) := by
  unfold classifyEntry baTable baSlot
  cases dbdc with
  | false => simp
  | true => by_cases hfar : 150 < wcid <;> simp [hfar]

theorem HasPlace.slot (h : HasPlace dbdc wcid tid) :
    0 ≤ baSlot dbdc wcid tid ∧ baSlot dbdc wcid tid < 1200 := by
  obtain ⟨hpos, hstation, htid⟩ := h
  unfold baStations at hstation
  unfold baSlot
  cases dbdc with
  | false =>
    simp only [Bool.false_eq_true, false_and, if_false] at hstation ⊢
    omega
  | true =>
    simp only [if_true, true_and] at hstation ⊢
    split <;> omega

theorem BaTables.Apart.table_le (ht : t.Apart) : baTable t dbdc band wcid + baTableSize ≤ 2 ^ 32 := by
  have ha := ht.a
  have hb := ht.b
  unfold baTable
  split_ifs <;> assumption

/-- The entry of a station and TID with a place, without the wrap. -/
theorem HasPlace.entry (h : HasPlace dbdc wcid tid) (ht : t.Apart) :
    (classifyEntry t dbdc band wcid tid : ℤ) =
      baTable t dbdc band wcid + 28 * baSlot dbdc wcid tid := by
  obtain ⟨hlo, hhi⟩ := h.slot
  have hle : baTable t dbdc band wcid + baTableSize ≤ 2 ^ 32 := ht.table_le
  rw [classifyEntry_slot]
  unfold u32 baTableSize at *
  omega

/-- The station and the TID behind a slot of a station's table. -/
def slotWcid (dbdc : Bool) (wcid : ℕ) (slot : ℕ) : ℕ :=
  slot / 8 + (if dbdc ∧ 150 < wcid then 151 else 1)

theorem slotWcid_place (wcid : ℕ) {slot : ℕ} (hslot : slot < 1200) :
    HasPlace dbdc (slotWcid dbdc wcid slot) (slot % 8) := by
  unfold slotWcid
  refine ⟨?_, ?_, Nat.mod_lt _ (by decide)⟩
  · split <;> omega
  · unfold baStations
    cases dbdc with
    | false =>
      simp only [Bool.false_eq_true, false_and, if_false]
      omega
    | true =>
      simp only [true_and, if_true]
      split <;> omega

/-- It is an entry of the same table. -/
theorem slotWcid_entry (ht : t.Apart) {slot : ℕ} (hslot : slot < 1200) :
    (classifyEntry t dbdc band (slotWcid dbdc wcid slot) (slot % 8) : ℤ) =
      baTable t dbdc band wcid + 28 * slot := by
  have hfar : dbdc = true → (150 < slotWcid dbdc wcid slot ↔ 150 < wcid) := by
    intro hd
    unfold slotWcid
    simp only [hd, true_and]
    split <;> omega
  have htable : baTable t dbdc band (slotWcid dbdc wcid slot) = baTable t dbdc band wcid := by
    unfold baTable
    cases dbdc with
    | false => rfl
    | true => simp only [hfar rfl]
  have hnumber : baSlot dbdc (slotWcid dbdc wcid slot) (slot % 8) = slot := by
    unfold baSlot
    cases dbdc with
    | false =>
      unfold slotWcid
      simp only [Bool.false_eq_true, false_and, if_false]
      omega
    | true =>
      simp only [hfar rfl, true_and]
      unfold slotWcid
      simp only [true_and]
      split <;> omega
  rw [(slotWcid_place wcid hslot).entry ht, htable, hnumber]

/-- Two stations' TIDs with places have entries without a byte in common. -/
theorem HasPlace.apart {wcid' tid' : ℕ} (ht : t.Apart) (h : HasPlace dbdc wcid tid)
    (h' : HasPlace dbdc wcid' tid') (hne : ¬(wcid' = wcid ∧ tid' = tid)) :
    EntriesApart (classifyEntry t dbdc band wcid tid) (classifyEntry t dbdc band wcid' tid') := by
  have he : (classifyEntry t dbdc band wcid tid : ℤ) = _ := h.entry ht
  have he' : (classifyEntry t dbdc band wcid' tid' : ℤ) = _ := h'.entry ht
  obtain ⟨hlo, hhi⟩ := h.slot
  obtain ⟨hlo', hhi'⟩ := h'.slot
  have htid := h.tid
  have htid' := h'.tid
  have hapart := ht.apart
  unfold baTable at he he'
  unfold baSlot at *
  unfold baTableSize at hapart
  unfold EntriesApart
  cases dbdc with
  | false =>
    simp only [Bool.false_eq_true, false_and, if_false] at *
    split_ifs at he he' <;> omega
  | true =>
    simp only [true_and, if_true] at *
    -- in one table the numbers differ, and the two tables are apart
    split_ifs at * <;> omega

/-- An entry is well chosen if its station and TID have a place in the
    tables, and only then: any other lies outside of them, or on top of
    an entry that has one. -/
theorem wellChosen_iff (ht : t.Apart) (hwcid : wcid ≠ 0) :
    WellChosen t dbdc band wcid tid ↔ wcid ≤ baStations dbdc ∧ tid < 8 := by
  constructor
  · intro h
    by_contra hout
    obtain ⟨hlo, hhi⟩ := h.inside
    set e := classifyEntry t dbdc band wcid tid with he
    set base := baTable t dbdc band wcid with hbase
    -- the entry with a place that the bytes belong to
    set slot := (e - base) / 28 with hslot
    have hlt : slot < 1200 := by
      unfold baTableSize at hhi
      omega
    have hplace : HasPlace dbdc (slotWcid dbdc wcid slot) (slot % 8) := slotWcid_place wcid hlt
    have hentry : (classifyEntry t dbdc band (slotWcid dbdc wcid slot) (slot % 8) : ℤ) = _ :=
      slotWcid_entry ht hlt
    have hshared := h.alone _ _ hplace (by
      rintro ⟨hw, htid⟩
      rw [hw, htid] at hplace
      exact hout ⟨hplace.station, hplace.tid⟩)
    unfold EntriesApart at hshared
    omega
  · rintro ⟨hstation, htid⟩
    have hplace : HasPlace dbdc wcid tid := ⟨hwcid, hstation, htid⟩
    have hentry : (classifyEntry t dbdc band wcid tid : ℤ) = _ := hplace.entry ht
    obtain ⟨hlo, hhi⟩ := hplace.slot
    refine ⟨?_, fun _ _ h' hne => hplace.apart ht h' hne, classifyFastEntry_eq, barInfoEntry_eq,
      setBaEntry_eq, resetBaEntry_eq, baBandEntry_eq⟩
    unfold baTableSize
    omega

/-- The entries the reorder engine keeps apart are those of the tables. -/
theorem entry_of_baKey (ht : t.Apart) (h : HasPlace dbdc wcid tid) :
    classifyEntry t dbdc band wcid tid =
      (if (baKey dbdc band wcid tid).1 then t.b else t.a) +
        28 * (baKey dbdc band wcid tid).2.val := by
  have hentry : (classifyEntry t dbdc band wcid tid : ℤ) = _ := h.entry ht
  obtain ⟨hpos, hstation, htid⟩ := h
  unfold baStations at hstation
  unfold baTable baSlot at hentry
  unfold baKey
  cases dbdc with
  | false =>
    simp only [Bool.false_eq_true, false_and, if_false, decide_eq_true_eq] at *
    rw [val_baIdx_of_lt (by omega)]
    omega
  | true =>
    simp only [true_and, if_true] at *
    by_cases hfar : 150 < wcid
    · simp only [if_pos hfar, Bool.false_eq_true, if_false] at *
      rw [val_baIdx_of_lt (by omega)]
      omega
    · simp only [if_neg hfar, if_true] at *
      rw [val_baIdx_of_lt (by omega)]
      omega

end places

/-! ## Requests -/

/-- Any received frame, BAR, ADDBA or delete-station mail for a station
    other than 0. -/
theorem request_wellChosen_iff {t : BaTables} (ht : t.Apart) (dbdc : Bool) (band : ℕ)
    {r : BaRequest} (hwcid : r.wcid ≠ 0) :
    WellChosen t dbdc band r.wcid r.tid ↔ r.wcid ≤ baStations dbdc ∧ r.tid < 8 :=
  wellChosen_iff ht hwcid

/-- Two tables one behind the other. -/
def someTables : BaTables := ⟨0x3E810000, 0x3E820000⟩

theorem someTables_apart : someTables.Apart := ⟨by decide, by decide, by decide⟩

/-- A BAR for station 150, TID 7. -/
theorem request_wellChosen_last :
    WellChosen someTables false 0 (BaRequest.bar 0x4B7).wcid (BaRequest.bar 0x4B7).tid ↔
      (BaRequest.bar 0x4B7).wcid ≤ baStations false ∧ (BaRequest.bar 0x4B7).tid < 8 :=
  request_wellChosen_iff someTables_apart false 0 (by decide)

/-- A frame of station 1 with TID 8 takes the entry of station 2's TID 0. -/
theorem frame_wrong_entry :
    someTables.Apart ∧ (BaRequest.frame 1 0x80000).wcid ≠ 0 ∧
      ¬WellChosen someTables false 0 (BaRequest.frame 1 0x80000).wcid
        (BaRequest.frame 1 0x80000).tid := by
  refine ⟨someTables_apart, by decide, ?_⟩
  intro h
  have hshared := h.alone 2 0 ⟨by decide, by decide, by decide⟩ (by decide)
  have hsame : classifyEntry someTables false 0 (BaRequest.frame 1 0x80000).wcid
      (BaRequest.frame 1 0x80000).tid = classifyEntry someTables false 0 2 0 := by decide
  rw [hsame] at hshared
  unfold EntriesApart at hshared
  omega

end ClankerNPU.Kite
