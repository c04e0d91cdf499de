import ClankerNPU.Config
import ClankerNPU.Lib.StepSystem
import Mathlib.Data.List.Nodup
import Mathlib.Data.List.Perm.Subperm

/-! # The SRAM allocator

    `npu_sram.c` hands out blocks of the SRAM keyed by an address type,
    one block a type, by moving an offset up. The start of a fresh block
    is held against the end of the SRAM; its end is not. -/

namespace ClankerNPU.Sram

/-! ## Sizes -/

/-- `SRAM_BASE` -/
def sramBase : ℕ := 0x3E800000

/-- `SRAM_SIZE` -/
def sramSize : Soc → ℕ
  | .an7552 => 0x40000
  | .an7581 => 0x78000
  | .an7583 => 0x80000

/-- `SRAM_MAX_ENTRIES` -/
def sramMaxEntries : Soc → ℕ
  | .an7552 => 50
  | .an7581 => 100
  | .an7583 => 100

/-- `SRAM_END` -/
def sramEnd (soc : Soc) : ℕ := sramBase + sramSize soc - 2

/-- `SRAM_ERROR_ADDR` -/
def sramErrorAddr (soc : Soc) : ℕ := sramBase + sramSize soc

/-- The build, and `USE_CLANKER_DRIVER`. -/
structure SramBuild where
  build : Build
  useClankerDriver : Bool
  deriving DecidableEq, Repr

/-- `HAS_EAGLE_STA_QLIMIT` -/
def SramBuild.hasEagleStaQlimit (b : SramBuild) : Bool :=
  b.build.soc = .an7583 && b.build.wifiEagle

/-- `sram_size_lo`, the types up to 128 -/
def sramSizeLo (b : Build) : List (ℕ × ℕ) :=
  if b.wifiKite then
    match b.soc with
    | .an7552 =>
      [(1, 0x0C000), (2, 0x02000), (3, 0x01000), (9, 0x002A8), (10, 0x002A8), (11, 0x00078),
        (14, 0x00600), (15, 0x00600), (6, 0x00C00), (4, 0x11940), (7, 0x08340), (8, 0x08340),
        (12, 0x00FA0), (13, 0x02710), (19, 0x00400), (20, 0x00400)]
    | _ =>
      [(1, 0x0C040), (2, 0x02020), (3, 0x01020), (9, 0x003E8), (10, 0x003E8), (11, 0x00078),
        (14, 0x00600), (15, 0x00600), (6, 0x00C04), (4, 0x11940), (7, 0x08340), (8, 0x08340),
        (12, 0x00FA0), (13, 0x02710), (19, 0x00400), (20, 0x00400), (21, 0x06400)]
  else
    match b.soc with
    | .an7552 =>
      [(1, 0x12080), (2, 0x01800), (3, 0x01800), (9, 0x002A8), (10, 0x002A8), (11, 0x00078),
        (14, 0x00600), (15, 0x00600), (22, 0x01008), (25, 0x00090), (26, 0x00010), (30, 0x00100),
        (31, 0x02BC0)]
    | .an7581 =>
      [(1, 0x220C0), (2, 0x01818), (3, 0x01818), (9, 0x003E8), (10, 0x003E8), (11, 0x00078),
        (14, 0x00600), (15, 0x00600), (22, 0x01008), (25, 0x00040), (26, 0x00010), (30, 0x00100),
        (31, 0x00601), (18, 0x06800), (16, 0x02020), (17, 0x02020), (28, 0x06800), (29, 0x01000),
        (23, 0x00800)]
    | .an7583 =>
      [(1, 0x220C0), (2, 0x01818), (3, 0x01818), (9, 0x003E8), (10, 0x003E8), (11, 0x00078),
        (14, 0x00600), (15, 0x00600), (22, 0x01008), (25, 0x00040), (26, 0x00010), (30, 0x00100),
        (18, 0x06800), (16, 0x02020), (17, 0x02020), (28, 0x06800), (29, 0x01000), (23, 0x00800)]

/-- `sram_size_hi`, the types from 129 on -/
def sramSizeHi (b : Build) : List (ℕ × ℕ) :=
  if b.wifiKite then
    match b.soc with
    | .an7552 =>
      [(138, 0x02BC0), (129, 0x10FFF), (132, 0x04000), (134, 0x01000), (137, 0x00004)]
    | .an7581 =>
      [(138, 0x02BC0), (129, 0x13FFF), (132, 0x11000), (133, 0x01080), (130, 0x00004),
        (137, 0x00004)]
    | .an7583 =>
      [(138, 0x02BC0), (129, 0x13FFF), (132, 0x04000), (133, 0x00080), (134, 0x01000),
        (136, 0x08010), (130, 0x00004), (137, 0x00004)]
  else
    match b.soc with
    | .an7552 =>
      [(138, 0x05780), (129, 0x10FFF), (132, 0x04000), (134, 0x01000), (137, 0x00004)]
    | .an7581 =>
      [(138, 0x06000), (129, 0x13FFF), (132, 0x11000), (133, 0x11000), (130, 0x00004),
        (137, 0x00004)]
    | .an7583 =>
      [(138, 0x06000), (129, 0x13FFF), (132, 0x04000), (133, 0x10000), (134, 0x01000),
        (136, 0x08010), (130, 0x00004), (137, 0x00004)]

/-- `sram_size_ext`, types missing from the tables above -/
def sramSizeExt (b : SramBuild) : List (ℕ × ℕ) :=
  [(12, 0x01000), (13, 0x02800)] ++
    if b.hasEagleStaQlimit then
      if b.useClankerDriver then [(41, 0x10000)] else [(41, 0x0C800)]
    else []

/-- `SRAM_DEFAULT_SIZE` -/
def sramDefaultSize : ℕ := 0x2000

/-- `sram_type_size` -/
def sramTypeSize (b : SramBuild) (addrType : ℕ) : ℕ :=
  let t := if addrType ≤ 128 then sramSizeLo b.build else sramSizeHi b.build
  match t.lookup addrType with
  | some size => size
  | none => ((sramSizeExt b).lookup addrType).getD sramDefaultSize

/-! ## The allocator -/

/-- An entry of `sram_alloc_table`. -/
structure SramEnt where
  addrType : ℕ
  addr : ℕ
  deriving DecidableEq, Repr

/-- `sram_alloc_offset` and the first `sram_alloc_count` entries of the
    table. -/
structure SramAlloc where
  offset : ℕ
  table : List SramEnt
  deriving DecidableEq, Repr

/-- The start of the next block: the offset, up to the next 32 bytes. -/
def sramBump (offset : ℕ) : ℕ :=
  let base := sramBase + offset
  if base % 32 ≠ 0 then (base + 0x1F) / 32 * 32 else base

/-- `sram_buf_alloc_impl` -/
def sramBufAllocImpl (soc : Soc) (s : SramAlloc) (addrType sizeClass : ℕ) : ℕ × SramAlloc :=
  if sramSize soc ≤ s.offset ∧ sramMaxEntries soc ≤ s.table.length then (sramErrorAddr soc, s)
  else
    match s.table.find? (·.addrType = addrType) with
    | some existing => (existing.addr, s)
    | none =>
      let base := if s.offset ≠ 0 then sramBump s.offset else sramBase
      if s.offset ≠ 0 ∧ sramEnd soc < base then (sramErrorAddr soc, s)
      else (base, ⟨base - sramBase + sizeClass, s.table ++ [⟨addrType, base⟩]⟩)

/-- `sram_buf_alloc` -/
def sramBufAlloc (b : SramBuild) (s : SramAlloc) (addrType : ℕ) : ℕ × SramAlloc :=
  if addrType = 0 ∨ 255 < addrType then (0, s)
  else
    let r := sramBufAllocImpl b.build.soc s addrType (sramTypeSize b addrType)
    (if r.1 = sramErrorAddr b.build.soc then 0 else r.1, r.2)

/-- `sram_buf_init` -/
def sramBufInit : SramAlloc := ⟨0, []⟩

/-- A call and its result. -/
structure AllocCall where
  addrType : ℕ
  result : ℕ
  deriving DecidableEq, Repr

/-- The allocator and all calls, oldest first. -/
structure AllocLog where
  sram : SramAlloc
  calls : List AllocCall
  deriving DecidableEq, Repr

def AllocLog.after (b : SramBuild) (s : AllocLog) (addrType : ℕ) : AllocLog :=
  let r := sramBufAlloc b s.sram addrType
  ⟨r.2, s.calls ++ [⟨addrType, r.1⟩]⟩

/-- Sequences of calls of any types. -/
def allocSystem (b : SramBuild) : StepSystem AllocLog ℕ where
  init s := s = ⟨sramBufInit, []⟩
  step s addrType s' := s' = s.after b addrType

/-! ## What is asked -/

/-- Blocks are aligned, apart, one a type for good, and the table holds
    all of them. -/
structure Blocks (b : SramBuild) (s : AllocLog) : Prop where
  aligned : ∀ x ∈ s.calls, x.result ≠ 0 → 32 ∣ x.result
  apart : ∀ x ∈ s.calls, ∀ y ∈ s.calls, x.result ≠ 0 → y.result ≠ 0 → x.addrType ≠ y.addrType →
    x.result + sramTypeSize b x.addrType ≤ y.result ∨
      y.result + sramTypeSize b y.addrType ≤ x.result
  same : s.calls.Pairwise fun x y => x.addrType = y.addrType → x.result ≠ 0 → y.result = x.result
  table : s.sram.table.length ≤ sramMaxEntries b.build.soc

/-- The whole of every block lies inside the SRAM. -/
def Inside (b : SramBuild) (s : AllocLog) : Prop :=
  ∀ x ∈ s.calls, x.result ≠ 0 →
    sramBase ≤ x.result ∧
      x.result + sramTypeSize b x.addrType ≤ sramBase + sramSize b.build.soc

/-- The call hands out no fresh block, or one that ends inside the SRAM. -/
def Fits (b : SramBuild) (s : SramAlloc) (addrType : ℕ) : Prop :=
  addrType ≠ 0 → addrType ≤ 255 → (∀ e ∈ s.table, e.addrType ≠ addrType) →
    sramBump s.offset ≤ sramEnd b.build.soc →
      sramBump s.offset + sramTypeSize b addrType ≤ sramBase + sramSize b.build.soc

instance (b : SramBuild) (s : SramAlloc) (addrType : ℕ) : Decidable (Fits b s addrType) :=
  inferInstanceAs (Decidable (_ → _))

/-! ## Sizes and the table -/

/-- All entries of the three tables. -/
def sramSizes (b : SramBuild) : List (ℕ × ℕ) :=
  sramSizeLo b.build ++ sramSizeHi b.build ++ sramSizeExt b

/-- The types of less than the default size. -/
def smallTypes (b : SramBuild) : List ℕ :=
  ((sramSizes b).filter fun x => x.2 < sramDefaultSize).map Prod.fst

theorem mem_of_lookup {l : List (ℕ × ℕ)} {t size : ℕ} (h : l.lookup t = some size) :
    (t, size) ∈ l := by
  obtain ⟨l1, l2, rfl, _⟩ := List.lookup_eq_some_iff.mp h
  exact List.mem_append_right _ (List.mem_cons_self ..)

/-- A type has the size of an entry or the default size. -/
theorem sramTypeSize_mem (b : SramBuild) (t : ℕ) :
    (t, sramTypeSize b t) ∈ sramSizes b ∨ sramTypeSize b t = sramDefaultSize := by
  unfold sramTypeSize sramSizes
  dsimp only
  split
  next size hsize =>
    left
    refine List.mem_append_left _ ?_
    split_ifs at hsize
    · exact List.mem_append_left _ (mem_of_lookup hsize)
    · exact List.mem_append_right _ (mem_of_lookup hsize)
  next =>
    cases hext : (sramSizeExt b).lookup t with
    | some size => exact .inl (List.mem_append_right _ (mem_of_lookup hext))
    | none => exact .inr rfl

/-- No entry is empty, and the table has room for all small types and as
    many others as the SRAM has room for. -/
theorem sizes_ok (b : SramBuild) :
    (∀ x ∈ sramSizes b, 0 < x.2) ∧
      sramSize b.build.soc + sramDefaultSize * (smallTypes b).length ≤
        sramDefaultSize * (sramMaxEntries b.build.soc - 1) := by
  obtain ⟨⟨soc, wifi⟩, clanker⟩ := b
  cases soc <;> cases wifi <;> cases clanker <;> decide +kernel

theorem sramTypeSize_pos (b : SramBuild) (t : ℕ) : 0 < sramTypeSize b t := by
  rcases sramTypeSize_mem b t with h | h
  · exact (sizes_ok b).1 _ h
  · rw [h]
    decide

theorem mem_smallTypes {b : SramBuild} {t : ℕ} (h : sramTypeSize b t < sramDefaultSize) :
    t ∈ smallTypes b := by
  rcases sramTypeSize_mem b t with hmem | heq
  · exact List.mem_map.mpr ⟨_, List.mem_filter.mpr ⟨hmem, decide_eq_true h⟩, rfl⟩
  · omega

section Table

variable {b : SramBuild} {s : SramAlloc} {t offset : ℕ}

theorem le_sramBump (offset : ℕ) : sramBase + offset ≤ sramBump offset := by
  unfold sramBump
  dsimp only
  split_ifs <;> omega

theorem dvd_sramBump (offset : ℕ) : 32 ∣ sramBump offset := by
  unfold sramBump
  dsimp only
  split_ifs
  · exact Nat.dvd_mul_left ..
  · omega

/-- What holds of the table between calls. -/
structure TableInv (b : SramBuild) (s : SramAlloc) : Prop where
  start : ∀ e ∈ s.table, sramBase ≤ e.addr ∧ 32 ∣ e.addr ∧ e.addr ≤ sramEnd b.build.soc
  ends : ∀ e ∈ s.table, e.addr + sramTypeSize b e.addrType ≤ sramBase + s.offset
  apart : s.table.Pairwise fun e f => e.addr + sramTypeSize b e.addrType ≤ f.addr
  types : (s.table.map SramEnt.addrType).Nodup
  range : ∀ e ∈ s.table, e.addrType ≠ 0 ∧ e.addrType ≤ 255
  empty : s.offset = 0 → s.table = []
  sum : ((s.table.map SramEnt.addrType).map (sramTypeSize b)).sum ≤ s.offset
  count : s.table.length < sramMaxEntries b.build.soc

/-- Types take the default size each, the small ones apart. -/
theorem sum_sizes (b : SramBuild) (types : List ℕ) :
    sramDefaultSize * types.length ≤ (types.map (sramTypeSize b)).sum +
      sramDefaultSize * (types.filter fun t => sramTypeSize b t < sramDefaultSize).length := by
  induction types with
  | nil => exact Nat.zero_le _
  | cons t types ih =>
    rw [List.map_cons, List.sum_cons, List.length_cons, List.filter_cons, Nat.mul_succ]
    split_ifs with hsmall
    · rw [List.length_cons, Nat.mul_succ]
      omega
    · have : sramDefaultSize ≤ sramTypeSize b t := by simpa using hsmall
      omega

/-- A table whose blocks leave room in the SRAM has room itself. -/
theorem TableInv.room (h : TableInv b s) (hoffset : s.offset < sramSize b.build.soc) :
    s.table.length + 1 < sramMaxEntries b.build.soc := by
  have hsum := sum_sizes b (s.table.map SramEnt.addrType)
  have hsmall : ((s.table.map SramEnt.addrType).filter
      fun t => sramTypeSize b t < sramDefaultSize).length ≤ (smallTypes b).length := by
    refine (List.Nodup.subperm (h.types.filter _) fun t ht => ?_).length_le
    obtain ⟨_, hlt⟩ := List.mem_filter.mp ht
    exact mem_smallTypes (of_decide_eq_true hlt)
  have hroom := (sizes_ok b).2
  have hlow := h.sum
  rw [List.length_map] at hsum
  unfold sramDefaultSize at hsum hroom hsmall
  omega

/-- What `sram_buf_alloc` does: an error, the block the type has, or a
    fresh block. -/
theorem sramBufAlloc_cases (h : TableInv b s) (t : ℕ) :
    (sramBufAlloc b s t = (0, s) ∧ ((t = 0 ∨ 255 < t) ∨
      (∀ e ∈ s.table, e.addrType ≠ t) ∧ sramEnd b.build.soc < sramBump s.offset)) ∨
    (∃ e ∈ s.table, e.addrType = t ∧ sramBufAlloc b s t = (e.addr, s)) ∨
    (t ≠ 0 ∧ t ≤ 255 ∧ (∀ e ∈ s.table, e.addrType ≠ t) ∧
      sramBump s.offset ≤ sramEnd b.build.soc ∧
      sramBufAlloc b s t = (sramBump s.offset,
        ⟨sramBump s.offset - sramBase + sramTypeSize b t,
          s.table ++ [⟨t, sramBump s.offset⟩]⟩)) := by
  unfold sramBufAlloc
  by_cases hbad : t = 0 ∨ 255 < t
  · exact .inl ⟨if_pos hbad, .inl hbad⟩
  rw [if_neg hbad]
  have hend : sramEnd b.build.soc < sramErrorAddr b.build.soc := by
    unfold sramEnd sramErrorAddr sramBase
    omega
  -- the first block starts at the base, where the bump leads too
  have hbase : (if s.offset ≠ 0 then sramBump s.offset else sramBase) = sramBump s.offset := by
    split_ifs with hzero
    · rfl
    · rw [not_ne_iff.mp hzero]
      rfl
  unfold sramBufAllocImpl
  dsimp only
  rw [if_neg (not_and_of_not_right _ (not_le.mpr h.count)), hbase]
  cases hfind : s.table.find? (·.addrType = t) with
  | some e =>
    right; left
    have he := List.mem_of_find?_eq_some hfind
    -- the error address is behind every block
    have hne : e.addr ≠ sramErrorAddr b.build.soc := by
      have := (h.start e he).2.2
      omega
    refine ⟨e, he, of_decide_eq_true (List.find?_some hfind :), ?_⟩
    dsimp only
    rw [if_neg hne]
  | none =>
    have hfresh : ∀ e ∈ s.table, e.addrType ≠ t := by
      intro e he heq
      exact absurd (decide_eq_true heq) (List.find?_eq_none.mp hfind e he)
    dsimp only
    by_cases hlate : sramEnd b.build.soc < sramBump s.offset
    · left
      -- the very first block always fits
      have hrefused : s.offset ≠ 0 ∧ sramEnd b.build.soc < sramBump s.offset := by
        refine ⟨fun hzero => ?_, hlate⟩
        rw [hzero] at hlate
        unfold sramEnd at hlate
        revert hlate
        cases b.build.soc <;> decide
      rw [if_pos hrefused, if_pos rfl]
      exact ⟨rfl, .inr ⟨hfresh, hlate⟩⟩
    · right; right
      rw [if_neg (not_and_of_not_right _ hlate)]
      have hne : sramBump s.offset ≠ sramErrorAddr b.build.soc := by omega
      refine ⟨by omega, by omega, hfresh, not_lt.mp hlate, ?_⟩
      rw [if_neg hne]

/-- A fresh block keeps the table in order. -/
theorem TableInv.fresh (h : TableInv b s) (h0 : t ≠ 0) (h1 : t ≤ 255)
    (hfresh : ∀ e ∈ s.table, e.addrType ≠ t)
    (hend : sramBump s.offset ≤ sramEnd b.build.soc) :
    TableInv b ⟨sramBump s.offset - sramBase + sramTypeSize b t,
      s.table ++ [⟨t, sramBump s.offset⟩]⟩ := by
  have hpos := sramTypeSize_pos b t
  have hle := le_sramBump s.offset
  have hsize : 2 ≤ sramSize b.build.soc := by cases b.build.soc <;> decide
  have hoffset : s.offset < sramSize b.build.soc := by
    unfold sramEnd at hend
    omega
  -- the new block starts behind all others and ends at the offset
  refine ⟨?_, ?_, ?_, ?_, ?_, fun hzero => ?_, ?_, ?_⟩
  · intro e he
    rcases List.mem_append.mp he with he | he
    · exact h.start e he
    · rw [List.mem_singleton.mp he]
      exact ⟨by dsimp only; omega, dvd_sramBump _, hend⟩
  · intro e he
    dsimp only
    rcases List.mem_append.mp he with he | he
    · have := h.ends e he
      omega
    · rw [List.mem_singleton.mp he]
      dsimp only
      omega
  · refine List.pairwise_append.mpr ⟨h.apart, List.pairwise_singleton .., fun e he f hf => ?_⟩
    rw [List.mem_singleton.mp hf]
    have := h.ends e he
    dsimp only
    omega
  · rw [List.map_append, List.map_singleton]
    refine List.Nodup.append h.types (List.nodup_singleton _) ?_
    intro x hx hmem
    obtain ⟨e, he, rfl⟩ := List.mem_map.mp hx
    exact hfresh e he (List.mem_singleton.mp hmem)
  · intro e he
    rcases List.mem_append.mp he with he | he
    · exact h.range e he
    · rw [List.mem_singleton.mp he]
      exact ⟨h0, h1⟩
  · dsimp only at hzero
    omega
  · have hsum := h.sum
    rw [List.map_append, List.map_append, List.sum_append, List.map_singleton, List.map_singleton,
      List.sum_singleton]
    dsimp only
    omega
  · rw [List.length_append, List.length_singleton]
    exact h.room hoffset

end Table

/-! ## Every sequence of calls -/

section Runs

variable {b : SramBuild} {s : AllocLog} {t : ℕ}

/-- The table is in order, the nonzero results are its blocks, and equal
    types got equal results. -/
structure LogInv (b : SramBuild) (s : AllocLog) : Prop where
  table : TableInv b s.sram
  known : ∀ x ∈ s.calls, x.result ≠ 0 → ⟨x.addrType, x.result⟩ ∈ s.sram.table
  given : ∀ e ∈ s.sram.table, ⟨e.addrType, e.addr⟩ ∈ s.calls
  same : s.calls.Pairwise fun x y => x.addrType = y.addrType → x.result ≠ 0 → y.result = x.result

/-- Two blocks of the table with one type are one. -/
theorem TableInv.addr_eq {s : SramAlloc} (h : TableInv b s) {e f : SramEnt} (he : e ∈ s.table)
    (hf : f ∈ s.table) (htype : e.addrType = f.addrType) : e = f :=
  List.inj_on_of_nodup_map h.types he hf htype

theorem logInv_step (h : LogInv b s) : LogInv b (s.after b t) := by
  have happend {r : ℕ} (hold : ∀ x ∈ s.calls, x.addrType = t → x.result ≠ 0 → r = x.result) :
      (s.calls ++ [(⟨t, r⟩ : AllocCall)]).Pairwise fun x y =>
        x.addrType = y.addrType → x.result ≠ 0 → y.result = x.result := by
    refine List.pairwise_append.mpr ⟨h.same, List.pairwise_singleton .., fun x hx y hy => ?_⟩
    rw [List.mem_singleton.mp hy]
    exact hold x hx
  unfold AllocLog.after
  rcases sramBufAlloc_cases h.table t with ⟨hr, hwhy⟩ | ⟨e, he, rfl, hr⟩ |
    ⟨h0, h1, hfresh, hend, hr⟩
  · -- no block: the type has none
    rw [hr]
    refine ⟨h.table, fun x hx hne => ?_, fun e he => List.mem_append_left _ (h.given e he),
      happend fun x hx htype hne => ?_⟩
    · rcases List.mem_append.mp hx with hx | hx
      · exact h.known x hx hne
      · rw [List.mem_singleton.mp hx] at hne
        exact absurd rfl hne
    · have hmem := h.known x hx hne
      rcases hwhy with hbad | ⟨hfresh, _⟩
      · have := h.table.range _ hmem
        dsimp only at this
        omega
      · exact absurd htype (hfresh _ hmem)
  · -- the block the type has
    rw [hr]
    refine ⟨h.table, fun x hx hne => ?_, fun e he => List.mem_append_left _ (h.given e he),
      happend fun x hx htype hne => ?_⟩
    · rcases List.mem_append.mp hx with hx | hx
      · exact h.known x hx hne
      · rw [List.mem_singleton.mp hx]
        exact he
    · have heq := h.table.addr_eq he (h.known x hx hne) htype.symm
      rw [heq]
  · -- a fresh block
    rw [hr]
    refine ⟨h.table.fresh h0 h1 hfresh hend, fun x hx hne => ?_, fun e he => ?_,
      happend fun x hx htype hne => ?_⟩
    · rcases List.mem_append.mp hx with hx | hx
      · exact List.mem_append_left _ (h.known x hx hne)
      · rw [List.mem_singleton.mp hx]
        exact List.mem_append_right _ (List.mem_cons_self ..)
    · rcases List.mem_append.mp he with he | he
      · exact List.mem_append_left _ (h.given e he)
      · rw [List.mem_singleton.mp he]
        exact List.mem_append_right _ (List.mem_cons_self ..)
    · exact absurd htype (hfresh _ (h.known x hx hne))

theorem logInv_of_reachable (h : (allocSystem b).Reachable s) : LogInv b s := by
  have hinit : ∀ s, (allocSystem b).init s → LogInv b s := by
    intro s h0
    obtain rfl : s = ⟨sramBufInit, []⟩ := h0
    have hmax : 0 < sramMaxEntries b.build.soc := by cases b.build.soc <;> decide
    exact ⟨⟨nofun, nofun, .nil, .nil, nofun, fun _ => rfl, Nat.le_refl _, hmax⟩, nofun, nofun, .nil⟩
  refine h.invariant hinit ?_
  rintro s t s' hs rfl
  exact logInv_step hs

/-- What the table says of the results. -/
theorem LogInv.blocks (h : LogInv b s) : Blocks b s := by
  refine ⟨fun x hx hne => (h.table.start _ (h.known x hx hne)).2.1, ?_, h.same,
    Nat.le_of_lt h.table.count⟩
  intro x hx y hy hxne hyne htype
  have hne : (⟨x.addrType, x.result⟩ : SramEnt) ≠ ⟨y.addrType, y.result⟩ :=
    fun heq => htype (SramEnt.mk.inj heq).1
  have hforall := List.Pairwise.forall_of_forall_of_flip
    (R := fun e f : SramEnt => e ≠ f → e.addr + sramTypeSize b e.addrType ≤ f.addr ∨
      f.addr + sramTypeSize b f.addrType ≤ e.addr) (fun e _ hself => absurd rfl hself)
    (h.table.apart.imp fun hle _ => .inl hle) (h.table.apart.imp fun hle _ => .inr hle)
  exact hforall (h.known x hx hxne) (h.known y hy hyne) hne

/-- The blocks stay inside exactly when a fresh one fits. -/
theorem inside_after_iff (h : LogInv b s) (hin : Inside b s) :
    Inside b (s.after b t) ↔ Fits b s.sram t := by
  unfold AllocLog.after Inside
  have hall {r : ℕ} : (∀ x ∈ s.calls ++ [(⟨t, r⟩ : AllocCall)], x.result ≠ 0 →
      sramBase ≤ x.result ∧ x.result + sramTypeSize b x.addrType ≤
        sramBase + sramSize b.build.soc) ↔
      (r ≠ 0 → sramBase ≤ r ∧ r + sramTypeSize b t ≤ sramBase + sramSize b.build.soc) := by
    rw [List.forall_mem_append, List.forall_mem_singleton]
    exact and_iff_right hin
  rw [hall]
  rcases sramBufAlloc_cases h.table t with ⟨hr, hwhy⟩ | ⟨e, he, rfl, hr⟩ |
    ⟨h0, h1, hfresh, hend, hr⟩
  · -- no block
    rw [hr]
    refine ⟨fun _ h0 h1 hfresh hend => ?_, fun _ hne => absurd rfl hne⟩
    rcases hwhy with hbad | ⟨_, hlate⟩ <;> omega
  · -- the block the type has lies inside already
    rw [hr]
    exact ⟨fun _ _ _ hfresh => absurd rfl (hfresh e he), fun _ hne => hin _ (h.given e he) hne⟩
  · -- a fresh block
    rw [hr]
    have hle := le_sramBump s.sram.offset
    have hpos : 0 < sramBase := by decide
    refine ⟨fun hfit _ _ _ _ => (hfit ?_).2, fun hfit _ => ⟨?_, hfit h0 h1 hfresh hend⟩⟩
    · dsimp only
      omega
    · dsimp only
      omega

/-- In every sequence of calls blocks are aligned and apart, one a type, and
    the table is not overrun; they lie inside the SRAM as long as every
    fresh block fits, and no longer. -/
theorem sram_blocks (b : SramBuild) :
    (∀ s, (allocSystem b).Reachable s → Blocks b s) ∧
    (∀ s, ((allocSystem b).guarded fun s t => Fits b s.sram t).Reachable s →
      Inside b s ∧ ∀ t, Inside b (s.after b t) ↔ Fits b s.sram t) := by
  refine ⟨fun s h => (logInv_of_reachable h).blocks, fun s h => ?_⟩
  have hinit : ∀ s, (allocSystem b).init s → Inside b s := by
    rintro s rfl
    exact nofun
  have hin : Inside b s := by
    induction h with
    | init h0 => exact hinit _ h0
    | step t hr hs ih =>
      obtain ⟨hfits, rfl⟩ := hs
      exact (inside_after_iff (logInv_of_reachable hr.of_guarded) ih).mpr hfits
  exact ⟨hin, fun t => inside_after_iff (logInv_of_reachable h.of_guarded) hin⟩

end Runs

/-- The descriptors, the bridge, both TDMA rings and the buffer ids of AN7583
    eagle, the descriptors asked for twice. -/
theorem sram_blocks_eagle :
    ∃ s, ((allocSystem ⟨⟨.an7583, .mt7993⟩, false⟩).guarded
        fun s t => Fits ⟨⟨.an7583, .mt7993⟩, false⟩ s.sram t).Reachable s ∧
      s.calls = [⟨1, 0x3E800000⟩, ⟨129, 0x3E8220C0⟩, ⟨132, 0x3E8360C0⟩, ⟨1, 0x3E800000⟩,
        ⟨133, 0x3E83A0C0⟩, ⟨138, 0x3E84A0C0⟩] ∧
      Blocks ⟨⟨.an7583, .mt7993⟩, false⟩ s ∧ Inside ⟨⟨.an7583, .mt7993⟩, false⟩ s := by
  have hrun : (StepSystem.run (fun s t => some (AllocLog.after ⟨⟨.an7583, .mt7993⟩, false⟩ s t))
      (fun s t => decide (Fits ⟨⟨.an7583, .mt7993⟩, false⟩ s.sram t)) ⟨sramBufInit, []⟩
      [1, 129, 132, 1, 133, 138]).map (fun s => s.calls) =
      some [⟨1, 0x3E800000⟩, ⟨129, 0x3E8220C0⟩, ⟨132, 0x3E8360C0⟩, ⟨1, 0x3E800000⟩,
        ⟨133, 0x3E83A0C0⟩, ⟨138, 0x3E84A0C0⟩] := by
    decide +kernel
  obtain ⟨s, hs, hcalls⟩ := Option.map_eq_some_iff.mp hrun
  have hreach : ((allocSystem ⟨⟨.an7583, .mt7993⟩, false⟩).guarded
      fun s t => Fits ⟨⟨.an7583, .mt7993⟩, false⟩ s.sram t).Reachable s :=
    .of_run (fun _ _ _ hc hstep => ⟨of_decide_eq_true hc, (Option.some.inj hstep).symm⟩)
      (.init rfl) hs
  have hblocks := sram_blocks ⟨⟨.an7583, .mt7993⟩, false⟩
  exact ⟨s, hreach, hcalls, hblocks.1 s hreach.of_guarded, (hblocks.2 s hreach).1⟩

/-- The blocks of AN7552 kite: the bridge, the node pool, both block ack
    tables and the buffer ids after the descriptors. -/
def kiteTypes : List ℕ := [1, 129, 4, 7, 8, 138]

/-- The last of them starts inside the SRAM and ends outside. -/
theorem sram_overhang :
    ∃ s, (allocSystem ⟨⟨.an7552, .mt7916⟩, false⟩).Reachable s ∧
      ⟨138, 0x3E83EFC0⟩ ∈ s.calls ∧ ¬Inside ⟨⟨.an7552, .mt7916⟩, false⟩ s := by
  have hrun : (StepSystem.run (fun s t => some (AllocLog.after ⟨⟨.an7552, .mt7916⟩, false⟩ s t))
      (fun _ _ => true) ⟨sramBufInit, []⟩ kiteTypes).map (fun s => s.calls.getLast?) =
      some (some ⟨138, 0x3E83EFC0⟩) := by
    decide +kernel
  obtain ⟨s, hs, hlast⟩ := Option.map_eq_some_iff.mp hrun
  have hreach : (allocSystem ⟨⟨.an7552, .mt7916⟩, false⟩).Reachable s :=
    .of_run (fun _ _ _ _ hstep => (Option.some.inj hstep).symm) (.init rfl) hs
  have hmem := List.mem_of_getLast? hlast
  refine ⟨s, hreach, hmem, fun hin => ?_⟩
  have hend := (hin _ hmem (by decide)).2
  revert hend
  decide

end ClankerNPU.Sram
