import SonataSystem.Lib.Masks
import SonataSystem.Storage.SdCard

/-!
# FAT32 volumes, and where `init` finds them

`Volume` is a FAT32 volume as its boot record describes it: where it starts on the card, and
the sizes of its parts in sectors. `fatByte` and `clusterByte` are byte addresses on the
card, so they do not depend on how large a sector is. The entry of a cluster in the (first)
FAT is the next cluster of its chain, and a file is the concatenation of the clusters of
its chain (`fileByte`).

`init` computes a `Geometry` in 512-byte blocks from the same boot record. It takes sector
counts for block counts in two places, and loses the upper bits of the size of the FATs when
it converts it to bytes; for volumes with 512-byte sectors that do not meet the second, the
two agree (`located_of_suits`).

The volume is described in natural numbers and the geometry in words of 32 bits, as `init` has it.
What is asked of `init` is thus stated without overflow, and where the two are compared each shift
and each product of the source has to be shown to stay within its word.
-/

set_option autoImplicit false

namespace SonataSystem.Storage

open Lib

/-! ## Little-endian fields -/

def byteOf (b : Block) (i : Nat) : Byte := b (Fin.ofNat kBlockLen i)

/-- Two bytes, the lower first. -/
def read16le (b : Block) (i : Nat) : BitVec 16 :=
  (byteOf b i).setWidth 16 ||| (byteOf b (i + 1)).setWidth 16 <<< 8

def read32le (b : Block) (i : Nat) : BitVec 32 :=
  (byteOf b i).setWidth 32 ||| (byteOf b (i + 1)).setWidth 32 <<< 8 |||
    (byteOf b (i + 2)).setWidth 32 <<< 16 ||| (byteOf b (i + 3)).setWidth 32 <<< 24

/-! ## The Master Boot Record -/

/-- `read_chs` and `chs_to_lba`, for 255 heads and 63 sectors. -/
def chsToLba (b : Block) (i : Nat) : BitVec 32 :=
  let h := (byteOf b i).toNat
  let s := (byteOf b (i + 1) &&& 0x3f).toNat
  let c := ((byteOf b (i + 1)).setWidth 16 <<< 2 &&& 0x300#16 |||
    (byteOf b (i + 2)).setWidth 16).toNat
  if h ≥ 255 ∨ s = 0 ∨ s > 63 then BitVec.allOnes 32
  else BitVec.ofNat 32 ((c * 255 + h) * 63 + (s - 1))

/-- The locals of the loop over the partition entries. -/
structure PartitionSearch where
  blkOffset : BitVec 32
  useLba : Bool
  found : Bool

def PartitionSearch.inspect (mbr : Block) (p : PartitionSearch) (part : Nat) :
    PartitionSearch :=
  let partDesc := 0x1be + 16 * part
  let lbaStart := read32le mbr (partDesc + 8)
  let chsStart := chsToLba mbr (partDesc + 1)
  if byteOf mbr (partDesc + 4) = 0x0B then ⟨chsStart, false, true⟩
  else if byteOf mbr (partDesc + 4) = 0x0C then
    ⟨if p.useLba then lbaStart else chsStart, p.useLba, true⟩
  else p

/-- The block of the boot record, from the first of the four partition entries. -/
def findPartition (mbr : Block) : Option (BitVec 32) :=
  if byteOf mbr 0x1fe ≠ 0x55 ∨ byteOf mbr 0x1ff ≠ 0xaa then none
  else
    let p := (List.range 1).foldl (PartitionSearch.inspect mbr) ⟨0, true, false⟩
    if p.found then some p.blkOffset else none

/-! ## The boot record -/

/-- The fields of the boot record that `init` looks at. -/
structure BootRecord where
  bytesPerSector : BitVec 16
  secsPerCluster : BitVec 8
  resvdSectors : BitVec 16
  numFATs : BitVec 8
  secsPerFAT : BitVec 32

def bootRecord (b : Block) : BootRecord where
  bytesPerSector := read16le b 0xb
  secsPerCluster := byteOf b 0xd
  resvdSectors := read16le b 0xe
  numFATs := byteOf b 0x10
  secsPerFAT := read32le b 0x24

/-- The loop of `floor_log2`; 16 rounds are enough for 16 bits. -/
def floorLog2Loop : Nat → BitVec 16 → Nat → Nat
  | 0, _, shift => shift
  | k + 1, n, shift => if n > 1 then floorLog2Loop k (n >>> 1) (shift + 1) else shift

/-- The number of times that a value can be halved. -/
def floorLog2 (n : BitVec 16) : Nat := floorLog2Loop 16 n 0

/-- What `init` keeps of the volume, in blocks. -/
structure Geometry where
  blksPerClusterShift : Nat
  fatStart : BitVec 32
  clusterHeapStart : BitVec 32
  clusterBytes : BitVec 32
  clusterMask : BitVec 32

namespace BootRecord

variable (r : BootRecord)

def bytesPerSectorShift : Nat := floorLog2 r.bytesPerSector

def secsPerClusterShift : Nat := floorLog2 (r.secsPerCluster.setWidth 16)

/-- The sanity checks of `init`. -/
def accepted : Bool :=
  9 ≤ r.bytesPerSectorShift && r.bytesPerSectorShift ≤ 12 &&
    r.secsPerClusterShift ≤ 25 - r.bytesPerSectorShift

/-- The sectors before the heap in bytes, which are 32 bits, and these in blocks. -/
def clusterHeapOffset : BitVec 32 :=
  ((r.resvdSectors.setWidth 32 + r.numFATs.setWidth 32 * r.secsPerFAT) <<<
    r.bytesPerSectorShift) / BitVec.ofNat 32 kBlockLen

/-- The reserved sectors are added as if they were blocks. -/
def geometry (blkOffset : BitVec 32) : Geometry where
  blksPerClusterShift := r.secsPerClusterShift
  fatStart := blkOffset + r.resvdSectors.setWidth 32
  clusterHeapStart := blkOffset + r.clusterHeapOffset
  clusterBytes := 1#32 <<< (r.secsPerClusterShift + r.bytesPerSectorShift)
  clusterMask := 1#32 <<< (r.secsPerClusterShift + r.bytesPerSectorShift) - 1#32

end BootRecord

/-- `init`. The result of its second read is not looked at. -/
def init (rd : Reads) : Option Geometry :=
  if (rd 0 0).1 then
    match findPartition (rd 0 0).2 with
    | none => none
    | some blkOffset =>
      let r := bootRecord (rd 1 blkOffset).2
      if r.accepted then some (r.geometry blkOffset) else none
  else none

namespace Geometry

def blockNumber (g : Geometry) (cluster offset : BitVec 32) : BitVec 32 :=
  g.clusterHeapStart + (cluster - 2) <<< g.blksPerClusterShift + offset >>> 9

/-- The block of the FAT that describes a cluster, in `cluster_next`. -/
def fatBlock (g : Geometry) (cluster : BitVec 32) : BitVec 32 :=
  g.fatStart + (cluster <<< 2) >>> 9

end Geometry

/-! ## Volumes -/

/-- The byte at an address on the card. -/
def byteAt (img : Image) (a : Nat) : Byte := byteOf (img (BitVec.ofNat 32 (a / kBlockLen))) a

/-- A little-endian word on the card. -/
def wordAt (img : Image) (a : Nat) : Nat :=
  (byteAt img a).toNat + 2 ^ 8 * (byteAt img (a + 1)).toNat + 2 ^ 16 * (byteAt img (a + 2)).toNat +
    2 ^ 24 * (byteAt img (a + 3)).toNat

/-- A FAT32 volume, in sectors. -/
structure Volume where
  /-- The block of the boot record. -/
  start : Nat
  bytesPerSector : Nat
  secsPerCluster : Nat
  resvdSectors : Nat
  numFATs : Nat
  secsPerFAT : Nat
  /-- The clusters of the cluster heap, numbered from 2. -/
  clusters : Nat

namespace Volume

variable (v : Volume) (img : Image)

def clusterBytes : Nat := v.secsPerCluster * v.bytesPerSector

/-- Sectors in front of the cluster heap. -/
def heapSector : Nat := v.resvdSectors + v.numFATs * v.secsPerFAT

def fatByte (cluster : Nat) : Nat :=
  kBlockLen * v.start + v.resvdSectors * v.bytesPerSector + 4 * cluster

/-- Clusters are numbered from 2. -/
def clusterByte (cluster : Nat) : Nat :=
  kBlockLen * v.start + v.heapSector * v.bytesPerSector + (cluster - 2) * v.clusterBytes

/-- The cluster that follows in the chain; the upper four bits of an entry are reserved. -/
def next (cluster : Nat) : Nat := wordAt img (v.fatByte cluster) % 2 ^ 28

/-- Cluster `k` of the chain that starts at `first`. -/
def chain (first k : Nat) : Nat := (v.next img)^[k] first

/-- Byte `p` of the file that starts with the cluster `first`. -/
def fileByte (first p : Nat) : Byte :=
  byteAt img (v.clusterByte (v.chain img first (p / v.clusterBytes)) + p % v.clusterBytes)

/-- A file: its chain has a cluster of the heap for all of its length. -/
def IsFile (first length : Nat) : Prop :=
  ∀ k, k * v.clusterBytes < length →
    2 ≤ v.chain img first k ∧ v.chain img first k < v.clusters + 2

/-- What the FAT32 format requires of a volume. -/
structure WellFormed : Prop where
  sector : ∃ b, 9 ≤ b ∧ b ≤ 12 ∧ v.bytesPerSector = 2 ^ b
  cluster : ∃ s, s ≤ 7 ∧ v.secsPerCluster = 2 ^ s
  reserved : 0 < v.resvdSectors
  fats : 0 < v.numFATs
  /-- The FAT has an entry for every cluster. -/
  fat : 4 * (v.clusters + 2) ≤ v.secsPerFAT * v.bytesPerSector
  numbers : v.clusters + 2 ≤ 2 ^ 28
  /-- The card has an address for every block of the volume. -/
  fits : kBlockLen * v.start + v.heapSector * v.bytesPerSector + v.clusters * v.clusterBytes ≤
    kBlockLen * 2 ^ 32

/-- The boot record at `blkOffset` describes the volume. -/
structure Describes (r : BootRecord) (blkOffset : BitVec 32) : Prop where
  start : v.start = blkOffset.toNat
  bytesPerSector : v.bytesPerSector = r.bytesPerSector.toNat
  secsPerCluster : v.secsPerCluster = r.secsPerCluster.toNat
  resvdSectors : v.resvdSectors = r.resvdSectors.toNat
  numFATs : v.numFATs = r.numFATs.toNat
  secsPerFAT : v.secsPerFAT = r.secsPerFAT.toNat

/-- The volume is one that the geometry of `init` is right for: its sectors are blocks, the
FATs and what is before them take less than 2^23 of them, and it does not reach the last
block number, which the cache uses for unused entries. -/
structure Suits : Prop where
  sector : v.bytesPerSector = kBlockLen
  heap : v.heapSector < 2 ^ 23
  last : v.start + v.heapSector + v.clusters * v.secsPerCluster < 2 ^ 32

end Volume

/-- The geometry puts every cluster, and its entry in the FAT, where the volume has them. -/
structure Located (g : Geometry) (v : Volume) : Prop where
  cluster : ∃ k, 9 ≤ k ∧ k < 32 ∧ v.clusterBytes = 2 ^ k ∧ g.clusterBytes = 1#32 <<< k ∧
    g.clusterMask = 1#32 <<< k - 1#32
  numbers : v.clusters + 2 ≤ 2 ^ 28
  data : ∀ c o : BitVec 32, 2 ≤ c.toNat → c.toNat < v.clusters + 2 →
    o.toNat < v.clusterBytes →
      (g.blockNumber c o).toNat + 1 < 2 ^ 32 ∧
        kBlockLen * (g.blockNumber c o).toNat + o.toNat % kBlockLen =
          v.clusterByte c.toNat + o.toNat
  fat : ∀ c : BitVec 32, 2 ≤ c.toNat → c.toNat < v.clusters + 2 →
    (g.fatBlock c).toNat + 1 < 2 ^ 32 ∧
      kBlockLen * (g.fatBlock c).toNat + 4 * c.toNat % kBlockLen = v.fatByte c.toNat

end SonataSystem.Storage
