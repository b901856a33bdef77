import SonataSystem.Storage.BlockCache
import SonataSystem.Storage.Volume

/-!
# Objects and file handles of `fileSysUtils`

`cluster_next`, `object_seek` and `object_read`, and the file handles over them, as state
passing over the block cache. A read may fail at any point, and what was read before is
then kept.

`object_read` copies from the entry of the cache that it located the block in, after it has
looked up the next cluster: by then the entry may hold the block of the FAT instead.
`evicts` is the chunk for which it does.

A read is a loop of chunks, none of which crosses a block, and the object is brought forward after
each. That makes the order of the two steps matter: the chunk that ends a cluster looks up the FAT
before it copies. `steady` is the condition, evaluated along with the read, that this never costs
a chunk its data.
-/

set_option autoImplicit false

namespace SonataSystem.Storage

open Lib BlockCache

/-- An open object, with its position and the cluster that it is in. -/
structure ObjState where
  /-- `Flag_Valid`. -/
  valid : Bool
  offset : BitVec 32
  length : BitVec 32
  currCluster : BitVec 32
  firstCluster : BitVec 32
  deriving DecidableEq

section Objects

variable (rd : Reads) (g : Geometry)

/-- The upper bits of an entry of the FAT are reserved. -/
def clusterNext (c : BlockCache) (cluster : BitVec 32) : BlockCache × Option (BitVec 32) :=
  match c.blockEnsure rd (g.fatBlock cluster) with
  | (c, none) => (c, none)
  | (c, some idx) =>
    (c, some (read32le (c.blockCache idx).buf (cluster <<< 2 &&& 511).toNat &&& ~~~0xf0000000))

/-! ## Seeking -/

/-- The loop over the chain. The count bounds the rounds; it is more than the bytes to go. -/
def seekLoop (offset : BitVec 32) :
    Nat → BlockCache → BitVec 32 → BitVec 32 → BlockCache × Option (BitVec 32)
  | 0, c, _, _ => (c, none)
  | k + 1, c, currCluster, currOffset =>
    if offset - currOffset ≥ g.clusterBytes then
      match clusterNext rd g c currCluster with
      | (c, none) => (c, none)
      | (c, some nextCluster) => seekLoop offset k c nextCluster (currOffset + g.clusterBytes)
    else (c, some currCluster)

/-- A seek forward goes on from the cluster that the object is in, and any other starts again. -/
def objectSeek (c : BlockCache) (obj : ObjState) (offset : BitVec 32) :
    BlockCache × ObjState × Bool :=
  if offset > obj.length then (c, obj, false)
  else
    let currOffset := obj.offset &&& ~~~g.clusterMask
    let start :=
      if offset < currOffset then (obj.firstCluster, 0) else (obj.currCluster, currOffset)
    match seekLoop rd g offset (offset.toNat + 1) c start.1 start.2 with
    | (c, none) => (c, obj, false)
    | (c, some currCluster) =>
      (c, { obj with currCluster := currCluster, offset := offset }, true)

/-! ## Reading -/

/-- `copy_bytes`. -/
def copyBytes (b : Block) (blockOffset len : Nat) : List Byte :=
  (List.range len).map fun j => byteOf b (blockOffset + j)

/-- The block of the position. -/
def currBlock (obj : ObjState) : BitVec 32 :=
  g.blockNumber obj.currCluster (obj.offset &&& g.clusterMask)

def blockOffset (obj : ObjState) : Nat := (obj.offset &&& 511).toNat

/-- The bytes of this block that are wanted. -/
def chunkLen (obj : ObjState) (len : Nat) : Nat :=
  let blockBytesLeft := kBlockLen - blockOffset obj
  let objBytesLeft := (obj.length - obj.offset).toNat
  let bytesAvail := if objBytesLeft > blockBytesLeft then blockBytesLeft else objBytesLeft
  if len > bytesAvail then bytesAvail else len

def nextOffset (obj : ObjState) (len : Nat) : BitVec 32 :=
  obj.offset + BitVec.ofNat 32 (chunkLen obj len)

/-- The chunk ends the cluster but not the object. -/
def crosses (obj : ObjState) (len : Nat) : Bool :=
  nextOffset obj len &&& g.clusterMask == 0 && obj.length > nextOffset obj len

/-- One round of the loop of `object_read`: the object afterwards and the bytes copied. -/
def readChunk (c : BlockCache) (obj : ObjState) (len : Nat) :
    BlockCache × Option (ObjState × List Byte) :=
  match c.blockEnsure rd (currBlock g obj) with
  | (c, none) => (c, none)
  | (c, some idx) =>
    if crosses g obj len then
      match clusterNext rd g c obj.currCluster with
      | (c, none) => (c, none)
      | (c, some nextCluster) =>
        (c, some ({ obj with currCluster := nextCluster, offset := nextOffset obj len },
          copyBytes (c.blockCache idx).buf (blockOffset obj) (chunkLen obj len)))
    else
      (c, some ({ obj with offset := nextOffset obj len },
        copyBytes (c.blockCache idx).buf (blockOffset obj) (chunkLen obj len)))

/-- The loop of `object_read`. The count bounds the rounds; each reads at least a byte. -/
def readLoop : Nat → BlockCache → ObjState → Nat → BlockCache × ObjState × List Byte
  | 0, c, obj, _ => (c, obj, [])
  | k + 1, c, obj, len =>
    if len > 0 ∧ obj.offset < obj.length then
      match readChunk rd g c obj len with
      | (c, none) => (c, obj, [])
      | (c, some (obj, bytes)) =>
        let rest := readLoop k c obj (len - bytes.length)
        (rest.1, rest.2.1, bytes ++ rest.2.2)
    else (c, obj, [])

/-- As many bytes as there are, up to `len`. -/
def objectRead (c : BlockCache) (obj : ObjState) (len : Nat) : BlockCache × ObjState × List Byte :=
  readLoop rd g len c obj len

/-- The entry that holds the data is the next to be replaced, and the FAT is not in the
cache. -/
def evicts (c : BlockCache) (obj : ObjState) (len : Nat) : Bool :=
  crosses g obj len && c.find (currBlock g obj) == some c.blockCacheNext &&
    (c.find (g.fatBlock obj.currCluster)).isNone

/-- No round of the loop evicts its own data. -/
def steadyLoop : Nat → BlockCache → ObjState → Nat → Bool
  | 0, _, _, _ => true
  | k + 1, c, obj, len =>
    if len > 0 ∧ obj.offset < obj.length then
      !evicts g c obj len &&
        match readChunk rd g c obj len with
        | (_, none) => true
        | (c, some (obj, bytes)) => steadyLoop k c obj (len - bytes.length)
    else true

def steady (c : BlockCache) (obj : ObjState) (len : Nat) : Bool := steadyLoop rd g len c obj len

end Objects

/-! ## File handles -/

abbrev kMaxFiles : Nat := 4

/-- The fields of a directory entry that `file_open` reads. -/
structure DirEntry where
  firstCluster : BitVec 32
  dataLength : BitVec 32

/-- The cache, and the handles of the files. -/
structure FileSys where
  cache : BlockCache
  files : Fin kMaxFiles → ObjState

/-- A call of the file interface, or a block that one of the directory functions requests
from the cache. -/
inductive Call
  | fileOpen (entry : DirEntry)
  | fileSeek (fh : Nat) (offset : BitVec 32)
  | fileRead (fh : Nat) (len : Nat)
  | fileClose (fh : Nat)
  | blockEnsure (block : BitVec 32)

/-- What a call returns; `none` is `kInvalidFileHandle`. -/
inductive Result
  | handle (fh : Option (Fin kMaxFiles))
  | ok (b : Bool)
  | bytes (bs : List Byte)
  | done
  deriving DecidableEq, Repr

namespace FileSys

/-- The object of a valid handle, `fh_valid`. -/
def file? (s : FileSys) (fh : Nat) : Option (Fin kMaxFiles) :=
  if h : fh < kMaxFiles then if (s.files ⟨fh, h⟩).valid then some ⟨fh, h⟩ else none else none

def setFile (s : FileSys) (fh : Fin kMaxFiles) (c : BlockCache) (obj : ObjState) : FileSys :=
  ⟨c, Function.update s.files fh obj⟩

variable (rd : Reads) (g : Geometry)

/-- The first handle that is free is taken. -/
def fileOpen (s : FileSys) (entry : DirEntry) : FileSys × Result :=
  match (List.finRange kMaxFiles).find? fun fh => !(s.files fh).valid with
  | none => (s, .handle none)
  | some fh =>
    (s.setFile fh s.cache ⟨true, 0, entry.dataLength, entry.firstCluster, entry.firstCluster⟩,
      .handle (some fh))

def fileSeek (s : FileSys) (fh : Nat) (offset : BitVec 32) : FileSys × Result :=
  match s.file? fh with
  | none => (s, .ok false)
  | some fh =>
    let r := objectSeek rd g s.cache (s.files fh) offset
    (s.setFile fh r.1 r.2.1, .ok r.2.2)

/-- A handle that is not open has no bytes. -/
def fileRead (s : FileSys) (fh len : Nat) : FileSys × Result :=
  match s.file? fh with
  | none => (s, .bytes [])
  | some fh =>
    let r := objectRead rd g s.cache (s.files fh) len
    (s.setFile fh r.1 r.2.1, .bytes r.2.2)

def fileClose (s : FileSys) (fh : Nat) : FileSys × Result :=
  match s.file? fh with
  | none => (s, .done)
  | some fh => (s.setFile fh s.cache { s.files fh with valid := false }, .done)

def call (s : FileSys) : Call → FileSys × Result
  | .fileOpen entry => s.fileOpen entry
  | .fileSeek fh offset => s.fileSeek rd g fh offset
  | .fileRead fh len => s.fileRead rd g fh len
  | .fileClose fh => s.fileClose fh
  | .blockEnsure block => (⟨(s.cache.blockEnsure rd block).1, s.files⟩, .done)

/-- After `init`: no handle is valid. -/
def Fresh (s : FileSys) : Prop := Emptied s.cache ∧ ∀ fh, (s.files fh).valid = false

/-- Calls as the inputs of a machine, so that a sequence of calls is a run. -/
def machine : Clocked FileSys Call := ⟨Fresh, fun s call => (s.call rd g call).1⟩

end FileSys

end SonataSystem.Storage
