import SonataSystem.Lib.Clocked
import SonataSystem.Storage.SdCard
import Mathlib.Data.Fin.Basic
import Mathlib.Data.List.FinRange

/-!
# The block cache of `fileSysUtils`

Eight entries, replaced in turn. A read that fails has filled the buffer of the next entry
with whatever the card sent and leaves the entry's block number alone, so an entry in use
then answers for a block it does not hold; and an entry that was never filled is tagged with
`kInvalidBlock`, which is a block number like any other to `block_ensure`.

Requests that meet neither (`Careful`) are always served with the contents of the card
(`ensures_run`).

Both defects are of one kind: the number that an entry is tagged with is taken for what the entry
holds. The model therefore has the tag, what is in the buffer, and whether the entry was ever
filled apart from one another, so that the three can disagree as they do in the source.
-/

set_option autoImplicit false

namespace SonataSystem.Storage

open Lib

abbrev kCacheEntries : Nat := 8

abbrev kInvalidBlock : BitVec 32 := ~~~0

/-- A tag and a buffer. Nothing says whether the tag is true. -/
structure CacheEntry where
  block : BitVec 32
  buf : Block

/-- The cache, with a record of its use that nothing depends on but the numbering of the
reads. -/
structure BlockCache where
  blockCacheNext : Fin kCacheEntries
  blockCache : Fin kCacheEntries → CacheEntry
  /-- The reads so far. -/
  reads : Nat
  /-- The entries that a read has filled. -/
  filled : Fin kCacheEntries → Bool

namespace BlockCache

section Defs

variable (rd : Reads) (c : BlockCache) (block : BitVec 32)

/-- The first entry with the given block number. -/
def find : Option (Fin kCacheEntries) :=
  (List.finRange kCacheEntries).find? fun idx => block == (c.blockCache idx).block

/-- What the read leaves in the next entry's buffer. -/
def overwrite : BlockCache :=
  { c with
    blockCache :=
      Function.update c.blockCache c.blockCacheNext
        { c.blockCache c.blockCacheNext with buf := (rd c.reads block).2 }
    reads := c.reads + 1 }

/-- The next entry is given its block number, and the turn passes on. -/
def claim : BlockCache :=
  { c with
    blockCache :=
      Function.update c.blockCache c.blockCacheNext
        { c.blockCache c.blockCacheNext with block := block }
    blockCacheNext := c.blockCacheNext + 1
    filled := Function.update c.filled c.blockCacheNext true }

/-- The entry of the block, which is read into the next entry in turn unless some entry has its
tag. -/
def blockEnsure : BlockCache × Option (Fin kCacheEntries) :=
  match c.find block with
  | some idx => (c, some idx)
  | none =>
    if (rd c.reads block).1 then
      ((c.overwrite rd block).claim block, some c.blockCacheNext)
    else (c.overwrite rd block, none)

/-- After `fin()`. The buffers have no initial contents. -/
def Emptied (c : BlockCache) : Prop :=
  (∀ idx, (c.blockCache idx).block = kInvalidBlock) ∧ c.blockCacheNext = 0 ∧
    ∀ idx, c.filled idx = false

def machine (rd : Reads) : Clocked BlockCache (BitVec 32) :=
  ⟨Emptied, fun c block => (c.blockEnsure rd block).1⟩

/-- If the block is made available, the entry returned holds the card's contents. -/
def Ensures (img : Image) : Prop :=
  ∀ idx, (c.blockEnsure rd block).2 = some idx →
    ((c.blockEnsure rd block).1.blockCache idx).buf = img block

/-- The block number of the unused entries is requested while there are any. -/
def AsksUnused : Prop := block = kInvalidBlock ∧ ∃ idx, c.filled idx = false

instance : Decidable (AsksUnused c block) := inferInstanceAs (Decidable (_ ∧ _))

/-- A read fails and has changed the buffer of an entry in use. -/
def Spoils : Prop :=
  c.find block = none ∧ (rd c.reads block).1 = false ∧
    c.filled c.blockCacheNext = true ∧
    (rd c.reads block).2 ≠ (c.blockCache c.blockCacheNext).buf

instance : Decidable (Spoils rd c block) := inferInstanceAs (Decidable (_ ∧ _))

/-- A request that meets neither defect. -/
def Careful : Prop := ¬ AsksUnused c block ∧ ¬ Spoils rd c block

instance : Decidable (Careful rd c block) := inferInstanceAs (Decidable (_ ∧ _))

end Defs

variable {rd : Reads} {c : BlockCache} {block : BitVec 32} {img : Image}

theorem block_of_find {idx : Fin kCacheEntries} (h : c.find block = some idx) :
    (c.blockCache idx).block = block := by
  have := List.find?_some h
  rw [beq_iff_eq] at this
  exact this.symm

/-- **What `block_ensure` does**: a hit changes nothing; a read that succeeds fills the next
entry; one that fails changes at most that entry's buffer. -/
theorem blockEnsure_cases (rd : Reads) (c : BlockCache) (block : BitVec 32) :
    (∃ idx, c.find block = some idx ∧ c.blockEnsure rd block = (c, some idx)) ∨
    (c.find block = none ∧ (rd c.reads block).1 = true ∧
      c.blockEnsure rd block = ((c.overwrite rd block).claim block, some c.blockCacheNext)) ∨
    (c.find block = none ∧ (rd c.reads block).1 = false ∧
      c.blockEnsure rd block = (c.overwrite rd block, none)) := by
  unfold blockEnsure
  cases hf : c.find block with
  | some idx => exact Or.inl ⟨idx, rfl, rfl⟩
  | none =>
    cases hr : (rd c.reads block).1 with
    | true => exact Or.inr (Or.inl ⟨rfl, rfl, rfl⟩)
    | false => exact Or.inr (Or.inr ⟨rfl, rfl, rfl⟩)

theorem overwrite_blockCache_ne {idx : Fin kCacheEntries} (h : idx ≠ c.blockCacheNext) :
    (c.overwrite rd block).blockCache idx = c.blockCache idx :=
  Function.update_of_ne h _ _

theorem overwrite_blockCache_next :
    (c.overwrite rd block).blockCache c.blockCacheNext =
      ⟨(c.blockCache c.blockCacheNext).block, (rd c.reads block).2⟩ :=
  Function.update_self _ _ _

variable (c block) in
theorem claim_blockCache_ne {idx : Fin kCacheEntries} (h : idx ≠ c.blockCacheNext) :
    (c.claim block).blockCache idx = c.blockCache idx ∧ (c.claim block).filled idx = c.filled idx :=
  ⟨Function.update_of_ne h _ _, Function.update_of_ne h _ _⟩

variable (c block) in
theorem claim_blockCache_next :
    (c.claim block).blockCache c.blockCacheNext = ⟨block, (c.blockCache c.blockCacheNext).buf⟩ ∧
      (c.claim block).filled c.blockCacheNext = true :=
  ⟨Function.update_self _ _ _, Function.update_self _ _ _⟩

/-! ## Coherence -/

/-- The tags of the filled entries are true, and the others are unused. -/
structure Coherent (img : Image) (c : BlockCache) : Prop where
  holds : ∀ idx, c.filled idx = true → (c.blockCache idx).buf = img (c.blockCache idx).block
  unused : ∀ idx, c.filled idx = false → (c.blockCache idx).block = kInvalidBlock

theorem coherent_of_emptied (h : Emptied c) : Coherent img c where
  holds := by
    intro idx hf
    rw [h.2.2 idx] at hf
    cases hf
  unused := fun idx _ => h.1 idx

/-- An entry that answers to a block number other than that of the unused ones holds the
block. -/
theorem Coherent.buf_of_find (h : Coherent img c) (hu : ¬ AsksUnused c block)
    {idx : Fin kCacheEntries} (hf : c.find block = some idx) :
    (c.blockCache idx).buf = img block := by
  have hb := block_of_find hf
  cases hfill : c.filled idx with
  | true => rw [h.holds idx hfill, hb]
  | false =>
    have hinv := h.unused idx hfill
    exact absurd ⟨hb.symm.trans hinv, idx, hfill⟩ hu

theorem Coherent.fill (h : Coherent img c) (hok : (rd c.reads block).2 = img block) :
    Coherent img ((c.overwrite rd block).claim block) ∧
      (((c.overwrite rd block).claim block).blockCache c.blockCacheNext).buf = img block := by
  have hnext : ((c.overwrite rd block).claim block).blockCache c.blockCacheNext =
      ⟨block, img block⟩ := by
    rw [← hok]
    refine ((c.overwrite rd block).claim_blockCache_next block).1.trans ?_
    exact congrArg (CacheEntry.mk block) (congrArg CacheEntry.buf overwrite_blockCache_next)
  have hother : ∀ idx, idx ≠ c.blockCacheNext →
      ((c.overwrite rd block).claim block).blockCache idx = c.blockCache idx ∧
        ((c.overwrite rd block).claim block).filled idx = c.filled idx := by
    intro idx hne
    obtain ⟨he, hf⟩ := (c.overwrite rd block).claim_blockCache_ne block hne
    exact ⟨he.trans (overwrite_blockCache_ne hne), hf⟩
  refine ⟨⟨fun idx hf => ?_, fun idx hf => ?_⟩, congrArg CacheEntry.buf hnext⟩
  · by_cases hne : idx = c.blockCacheNext
    · rw [hne, hnext]
    · rw [(hother idx hne).1]
      exact h.holds idx ((hother idx hne).2.symm.trans hf)
  · by_cases hne : idx = c.blockCacheNext
    · rw [hne] at hf
      have := ((c.overwrite rd block).claim_blockCache_next block).2
      rw [show (c.overwrite rd block).blockCacheNext = c.blockCacheNext from rfl, hf] at this
      cases this
    · rw [(hother idx hne).1]
      exact h.unused idx ((hother idx hne).2.symm.trans hf)

/-- A read that fails is harmless if it spoils no entry in use. -/
theorem Coherent.fail (h : Coherent img c) (hf : c.find block = none)
    (hr : (rd c.reads block).1 = false) (hs : ¬ Spoils rd c block) :
    Coherent img (c.overwrite rd block) := by
  have hblock : ∀ idx,
      ((c.overwrite rd block).blockCache idx).block = (c.blockCache idx).block := by
    intro idx
    by_cases hne : idx = c.blockCacheNext
    · rw [hne, overwrite_blockCache_next]
    · rw [overwrite_blockCache_ne hne]
  refine ⟨fun idx hfill => ?_, fun idx hfill => (hblock idx).trans (h.unused idx hfill)⟩
  change c.filled idx = true at hfill
  by_cases hne : idx = c.blockCacheNext
  · subst hne
    have hsame : (rd c.reads block).2 = (c.blockCache c.blockCacheNext).buf := by
      by_contra hdiff
      exact hs ⟨hf, hr, hfill, hdiff⟩
    rw [overwrite_blockCache_next, hsame]
    exact h.holds _ hfill
  · rw [overwrite_blockCache_ne hne]
    exact h.holds idx hfill

/-- One careful request keeps the tags true, and is served. -/
theorem coherent_step (hrd : rd.Delivers img) (h : Coherent img c) (hc : Careful rd c block) :
    Coherent img (c.blockEnsure rd block).1 ∧ Ensures rd c block img := by
  unfold Ensures
  rcases blockEnsure_cases rd c block with
    ⟨idx, hf, he⟩ | ⟨hf, hr, he⟩ | ⟨hf, hr, he⟩
  · rw [he]
    refine ⟨h, fun i hi => ?_⟩
    obtain rfl := Option.some.inj hi
    exact h.buf_of_find hc.1 hf
  · rw [he]
    obtain ⟨hcoh, hbuf⟩ := h.fill (hrd _ _ hr)
    refine ⟨hcoh, fun i hi => ?_⟩
    obtain rfl := Option.some.inj hi
    exact hbuf
  · rw [he]
    exact ⟨h.fail hf hr hc.2, fun i hi => by cases hi⟩

/-- **The cache serves the contents of the card**, in every run of careful requests. -/
theorem ensures_run (sd : SdCard) (img : Image) (c : BlockCache) (blocks : List (BitVec 32))
    (hsd : sd.readBlocks.Delivers img) (hc : Emptied c)
    (h : (machine sd.readBlocks).Always (Careful sd.readBlocks) c blocks) :
    (machine sd.readBlocks).Always (fun c block => Ensures sd.readBlocks c block img) c
      blocks :=
  (machine sd.readBlocks).always_of_invariant (I := Coherent img)
    (fun _ _ hi hcare => (coherent_step hsd hi hcare).1)
    (fun _ _ hi hcare => (coherent_step hsd hi hcare).2) (coherent_of_emptied hc) h

/-! ## A card without errors -/

/-- Every block but that of the unused entries is made available: it is found, and nothing
changes, or it is read into the next entry. -/
theorem ensure_of_healthy (hrd : rd.Healthy img) (h : Coherent img c)
    (hb : block ≠ kInvalidBlock) :
    ∃ c' idx, c.blockEnsure rd block = (c', some idx) ∧ Coherent img c' ∧
      (c'.blockCache idx).buf = img block ∧
      ((c' = c ∧ c.find block = some idx) ∨
        (c.find block = none ∧ idx = c.blockCacheNext ∧
          c'.blockCacheNext = c.blockCacheNext + 1 ∧
          ∀ i, i ≠ c.blockCacheNext → c'.blockCache i = c.blockCache i)) := by
  rcases blockEnsure_cases rd c block with ⟨idx, hf, he⟩ | ⟨hf, -, he⟩ | ⟨-, hr, -⟩
  · exact ⟨c, idx, he, h, h.buf_of_find (fun hu => hb hu.1) hf, Or.inl ⟨rfl, hf⟩⟩
  · have hok : (rd c.reads block).2 = img block := by rw [hrd]
    obtain ⟨hcoh, hbuf⟩ := h.fill hok
    refine ⟨_, _, he, hcoh, hbuf, Or.inr ⟨hf, rfl, rfl, fun i hi => ?_⟩⟩
    exact ((c.overwrite rd block).claim_blockCache_ne block hi).1.trans
      (overwrite_blockCache_ne hi)
  · rw [hrd] at hr
    cases hr

/-! ## A card with one bad transfer -/

section Runs

def onesImage : Image := fun _ _ => 0xff

/-- Read number `bad` is disturbed: zeros arrive, with a CRC that is not theirs. -/
def failingCard (bad : Nat) : SdCard where
  crcOn := true
  sends k _ := if k = bad then ⟨fun _ => 0, 0, 1⟩ else ⟨fun _ => 0xff, 0x7f, 0xa1⟩

theorem readBlocks_failingCard (bad : Nat) :
    (failingCard bad).readBlocks =
      fun k _ => if k = bad then (false, fun _ => 0) else (true, fun _ => 0xff) := by
  have hbad : collectedData true ⟨fun _ => 0, 0, 1⟩ = (false, fun _ => 0) :=
    Prod.ext (by decide +kernel) rfl
  have hgood : collectedData true ⟨fun _ => 0xff, 0x7f, 0xa1⟩ = (true, fun _ => 0xff) :=
    Prod.ext (by decide +kernel) rfl
  funext k b
  show collectedData true (if k = bad then _ else _) = _
  by_cases hk : k = bad
  · rw [if_pos hk, if_pos hk, hbad]
  · rw [if_neg hk, if_neg hk, hgood]

theorem delivers_failingCard (bad : Nat) :
    (failingCard bad).readBlocks.Delivers onesImage := by
  intro k b hok
  rw [readBlocks_failingCard] at hok ⊢
  by_cases hk : k = bad
  · simp [hk] at hok
  · simp only [hk, if_false]
    rfl

def emptyCache : BlockCache := ⟨0, fun _ => ⟨kInvalidBlock, fun _ => 0⟩, 0, fun _ => false⟩

theorem emptied_emptyCache : Emptied emptyCache := ⟨fun _ => rfl, rfl, fun _ => rfl⟩

/-- Eight blocks fill the cache; the read of the ninth fails. -/
def spoiltRun : List (BitVec 32) := [0, 1, 2, 3, 4, 5, 6, 7, 8]

/-- Block 0 is then found in the cache, with the bytes of the failed read; and an empty cache
has a block `kInvalidBlock`. -/
theorem not_ensures_spoilt_unused :
    (failingCard 8).readBlocks.Delivers onesImage ∧ Emptied emptyCache ∧
    ¬ (machine (failingCard 8).readBlocks).Always
        (fun c block => Ensures (failingCard 8).readBlocks c block onesImage) emptyCache
        (spoiltRun ++ [0]) ∧
    ¬ (machine (failingCard 8).readBlocks).Always
        (fun c block => Ensures (failingCard 8).readBlocks c block onesImage) emptyCache
        [kInvalidBlock] := by
  refine ⟨delivers_failingCard 8, emptied_emptyCache, ?_⟩
  rw [readBlocks_failingCard]
  refine ⟨fun h => ?_, fun h => ?_⟩
  · have hbuf := ((machine _).always_concat.mp h).2 0 (by decide +kernel)
    exact absurd (congrFun hbuf 0) (by decide +kernel)
  · have hbuf := h.1 0 (by decide +kernel)
    exact absurd (congrFun hbuf 0) (by decide +kernel)

/-- A failed read into an unused entry, and a retry. -/
theorem ensures_retry :
    (machine (failingCard 1).readBlocks).Always
      (fun c block => Ensures (failingCard 1).readBlocks c block onesImage) emptyCache
      [5, 6, 5, 6] :=
  ensures_run (failingCard 1) onesImage emptyCache [5, 6, 5, 6] (delivers_failingCard 1)
    emptied_emptyCache (by rw [readBlocks_failingCard]; decide +kernel)

end Runs

end BlockCache

end SonataSystem.Storage
