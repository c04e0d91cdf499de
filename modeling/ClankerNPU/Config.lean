import ClankerNPU.Words

/-! # Build variants

    `npu_config.h` picks one SoC and one WiFi chip at compile time and
    derives feature switches from them. A `Build` is that choice; each
    switch the modelled code tests is a predicate on it under the
    macro's name. -/

namespace ClankerNPU

/-- The SoC the image is built for. -/
inductive Soc where
  | an7552
  | an7581
  | an7583
  deriving DecidableEq, Repr

/-- The WiFi chip the image is built for. -/
inductive WifiChip where
  | mt7916
  | mt7991
  | mt7992
  | mt7993
  | mt7996
  | nowifi
  deriving DecidableEq, Repr

/-- One build of the firmware. -/
structure Build where
  soc : Soc
  wifi : WifiChip
  deriving DecidableEq, Repr

namespace Build

/-- `WIFI_KITE` -/
def wifiKite (b : Build) : Bool := b.wifi = .mt7916 || b.wifi = .mt7996

/-- `WIFI_EAGLE` -/
def wifiEagle (b : Build) : Bool := b.wifi = .mt7991 || b.wifi = .mt7992 || b.wifi = .mt7993

/-- `HAS_WIFI` -/
def hasWifi (b : Build) : Bool := b.wifiKite || b.wifiEagle

/-- `HAS_NPU_WIFI_TX` -/
def hasNpuWifiTx (b : Build) : Bool :=
  b.hasWifi && ((b.soc = .an7581 && !(b.wifi = .mt7916)) || (b.soc = .an7583 && b.wifiEagle))

/-- `HAS_EAGLE_TX_JUMBO` -/
def hasEagleTxJumbo (b : Build) : Bool := b.hasNpuWifiTx && b.wifiEagle

/-- `HAS_ID_BATCH` -/
def hasIdBatch (b : Build) : Bool := b.soc = .an7583 && b.wifiEagle

/-- `BUFID_POOL_ENTRIES`, the rx buffer ids of the build. -/
def bufidPoolEntries (b : Build) : ℕ :=
  if b.wifiKite then 5600 else if b.soc = .an7552 then 11200 else 12288

end Build

/-! ## Ring sizes of `npu_wifi_bufid.c` and `npu_wifi.h` -/

/-- `TX_FREE_RING_ENTRIES`, also the number of 2 KB tx buffers. -/
def txFreeRingEntries : ℕ := 13312

/-- `TX_JUMBO_PAIRS` -/
def txJumboPairs : ℕ := 128

/-- `TX_JUMBO_FIRST` -/
def txJumboFirst : ℕ := 13312 - 2 * txJumboPairs

/-- `TX_TOKEN_IDS`: with jumbo pairs the ring holds the ids below them. -/
def txTokenIds (b : Build) : ℕ := if b.hasEagleTxJumbo then txJumboFirst else txFreeRingEntries

end ClankerNPU
