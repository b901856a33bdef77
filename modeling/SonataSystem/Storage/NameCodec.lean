import SonataSystem.Storage.Enumerate
import SonataSystem.Storage.LongNames
import SonataSystem.Storage.Positions

/-!
# Names and their slots

How a name is laid out in slots: thirteen characters each, the slot with its end first, and
behind the end a NUL and ones. `dir_next` reads it back, and whatever the slots are it writes
no place outside the buffer (`dirNext_nameCodec`).

Reading back takes more than the arithmetic of the slots. They are read through the block cache,
and a read that takes the last slot of a cluster asks for the next cluster before it copies the
slot: if that puts a block of the FAT into the entry which holds the slot, bytes of the FAT are
taken for the slot. So the slots are those of a directory on the card, the condition is that none
of their reads does so, and `not_readsBack_evicted` is a name that is lost. What is written is
confined to the buffer in any case, since the bounds do not depend on what the bytes are.
-/

set_option autoImplicit false

namespace SonataSystem.Storage

open Lib

/-! ## The layout -/

/-- Byte `i` of little-endian characters. -/
def charByte (chars : Nat → BitVec 16) (i : Nat) : Byte :=
  if i % 2 = 0 then (chars (i / 2)).setWidth 8 else (chars (i / 2) >>> 8).setWidth 8

/-- A slot of a long name: its number, the checksum of the short name, and thirteen characters
in three places. -/
def nameSlot (seq chk : Byte) (chars : Nat → BitVec 16) : Slot := fun i =>
  if i.val = 0 then seq
  else if i.val < 0xb then charByte chars (i - 1)
  else if i.val = 0xb then 0x0f
  else if i.val = 0xc then 0
  else if i.val = 0xd then chk
  else if i.val < 0x1a then charByte (fun j => chars (5 + j)) (i - 0xe)
  else if i.val < 0x1c then 0
  else charByte (fun j => chars (11 + j)) (i - 0x1c)

/-- Character `p` of a name in its slots. -/
def nameUnit (name : List (BitVec 16)) (p : Nat) : BitVec 16 := (name ++ [0])[p]?.getD 0xffff

/-- How many slots a name takes. -/
def slotCount (name : List (BitVec 16)) : Nat := (name.length + 12) / 13

/-- The slots of a name, as they stand in a directory. -/
def encodeName (name : List (BitVec 16)) (chk : Byte) : List Slot :=
  (List.range (slotCount name)).reverse.map fun i =>
    nameSlot (BitVec.ofNat 8 (if i + 1 = slotCount name then 0x40 ||| slotCount name else i + 1))
      chk fun j => nameUnit name (13 * i + j)

/-- The entry of a file or a directory, neither deleted nor `.` or `..`. -/
def Slot.isLive (slot : Slot) : Bool :=
  slot.attribs != 0x0f && slot.attribs &&& 0x08 == 0 && slot.entryType != 0 &&
    slot.entryType != 0xe5 && slot.entryType != 0x2e

/-- A buffer after writes: no place outside it has changed. -/
structure NameBuf.Within (b b' : NameBuf) : Prop where
  max : b'.max = b.max
  outside : ∀ p ≥ b.max, b'.ucs p = b.ucs p

section Claims

variable {σ : Type} (next : DirFlags → σ → Option NameBuf → σ × Option NameBuf × Option FullEntry)

/-- A name laid out in front of a live entry is returned with it, where `upcoming` says which
slots come next. -/
def ReadsBack (upcoming : List Slot → σ → Prop) : Prop :=
  ∀ (flags : DirFlags) (s : σ) (before : List Slot) (name : List (BitVec 16)) (chk : Byte)
    (slot : Slot) (b : NameBuf), flags.raw = false →
    (∀ x ∈ before, x.stops flags = false) → 0 < name.length → name.length ≤ 255 →
    slot.isLive = true → name.length + 1 ≤ b.max →
    upcoming (before ++ encodeName name chk ++ [slot]) s →
    ∃ s' b', next flags s (some b) =
        (s', some b', some (slot.entry (slot.collectFlags true))) ∧
      b'.max = b.max ∧ (∀ p (hp : p < name.length), b'.ucs p = name[p]) ∧
      b'.ucs name.length = 0

/-- A call writes no place outside the buffer. -/
def Confined : Prop :=
  ∀ (flags : DirFlags) (s : σ) (b : NameBuf),
    ∃ b', (next flags s (some b)).2.1 = some b' ∧ b.Within b'

end Claims

/-- A card whose reads succeed, and on it a volume that `init` computes the right geometry
for. -/
structure Mounted (rd : Reads) (g : Geometry) (img : Image) (v : Volume) : Prop where
  healthy : rd.Healthy img
  part : ∃ blkOffset, findPartition (img 0) = some blkOffset ∧
    v.Describes (bootRecord (img blkOffset)) blkOffset
  wellFormed : v.WellFormed
  suits : v.Suits
  geometry : init rd = some g

/-- The handle is at a slot of the directory, and these are the slots from there on. -/
structure Facing (img : Image) (v : Volume) (dh : Fin kMaxDirs) (first n : Nat)
    (slots : List Slot) (s : DirSys) : Prop where
  valid : (s.dirs dh).valid = true
  position : ∃ k, AtSlot img v first n k (s.cache, s.dirs dh) ∧
    slots <+: (v.dirSlots img first n).drop k

/-- What is claimed of the names that `dir_next` returns. -/
structure NameCodec (rd : Reads) (g : Geometry) : Prop where
  /-- For every directory and every position in it, if no read of one of the slots evicts its
  own data. -/
  decode_encode : ∀ (img : Image) (v : Volume) (dh : Fin kMaxDirs) (first n : Nat),
    Mounted rd g img v → v.IsDirectory img first n →
    ReadsBack (fun flags s ucs => s.dirNext rd g dh flags ucs) fun slots s =>
      Facing img v dh first n slots s ∧
        SteadySlots rd g slots.length (s.cache, s.dirs dh)
  within : ∀ dh : Nat, Confined fun flags s ucs => DirSys.dirNext rd g s dh flags ucs

/-! ## Slots of a name -/

section NameSlot

variable (seq chk : Byte) (chars : Nat → BitVec 16)

theorem charByte_halves (i : Nat) :
    (charByte chars (2 * i)).setWidth 16 ||| (charByte chars (2 * i + 1)).setWidth 16 <<< 8 =
      chars i := by
  have heven : 2 * i % 2 = 0 := Nat.mul_mod_right 2 i
  have hodd : ¬ (2 * i + 1) % 2 = 0 := by omega
  have hhalf : 2 * i / 2 = i := by omega
  have hhalf' : (2 * i + 1) / 2 = i := by omega
  rw [charByte, charByte, if_pos heven, if_neg hodd, hhalf, hhalf']
  exact bytes2_or (chars i)

theorem nameSlot_byte {i : Nat} (hi : i < 32) :
    (nameSlot seq chk chars).byte i = nameSlot seq chk chars ⟨i, hi⟩ := by
  refine congrArg (nameSlot seq chk chars) (Fin.ext ?_)
  exact Nat.mod_eq_of_lt hi

theorem nameSlot_name1 {i : Nat} (hi : i < 10) :
    (nameSlot seq chk chars).byte (1 + i) = charByte chars i := by
  rw [nameSlot_byte seq chk chars (show 1 + i < 32 by omega), nameSlot]
  dsimp only
  rw [if_neg (by omega), if_pos (by omega), Nat.add_sub_cancel_left]

theorem nameSlot_name2 {i : Nat} (hi : i < 12) :
    (nameSlot seq chk chars).byte (0xe + i) = charByte (fun j => chars (5 + j)) i := by
  rw [nameSlot_byte seq chk chars (show 0xe + i < 32 by omega), nameSlot]
  dsimp only
  rw [if_neg (by omega), if_neg (by omega), if_neg (by omega), if_neg (by omega),
    if_neg (by omega), if_pos (by omega), Nat.add_sub_cancel_left]

theorem nameSlot_name3 {i : Nat} (hi : i < 4) :
    (nameSlot seq chk chars).byte (0x1c + i) = charByte (fun j => chars (11 + j)) i := by
  rw [nameSlot_byte seq chk chars (show 0x1c + i < 32 by omega), nameSlot]
  dsimp only
  rw [if_neg (by omega), if_neg (by omega), if_neg (by omega), if_neg (by omega),
    if_neg (by omega), if_neg (by omega), if_neg (by omega), Nat.add_sub_cancel_left]

@[simp] theorem nameSlot_entryType : (nameSlot seq chk chars).entryType = seq := rfl

@[simp] theorem nameSlot_attribs : (nameSlot seq chk chars).attribs = 0x0f := rfl

/-- The characters are read back from their three places. -/
theorem nameSlot_nameChar {j : Nat} (hj : j < 13) :
    (nameSlot seq chk chars).nameChar j = chars j := by
  unfold Slot.nameChar Slot.read16le
  by_cases h5 : j < 5
  · rw [if_pos h5, Nat.add_assoc, nameSlot_name1 seq chk chars (by omega),
      nameSlot_name1 seq chk chars (by omega), charByte_halves]
  · obtain ⟨k, rfl⟩ : ∃ k, j = 5 + k := ⟨j - 5, by omega⟩
    rw [if_neg h5]
    by_cases h11 : 5 + k < 11
    · rw [if_pos h11, Nat.add_sub_cancel_left, Nat.add_assoc,
        nameSlot_name2 seq chk chars (by omega), nameSlot_name2 seq chk chars (by omega),
        charByte_halves]
    · obtain ⟨k, rfl⟩ : ∃ l, k = 6 + l := ⟨k - 6, by omega⟩
      rw [if_neg h11, ← Nat.add_assoc, Nat.add_sub_cancel_left, Nat.add_assoc 0x1c,
        nameSlot_name3 seq chk chars (by omega), nameSlot_name3 seq chk chars (by omega),
        charByte_halves]

end NameSlot

/-! ## The run of a name -/

section EncodeName

variable (name : List (BitVec 16)) (chk : Byte)

theorem nameUnit_of_lt {p : Nat} (hp : p < name.length) : nameUnit name p = name[p] := by
  rw [nameUnit, List.getElem?_append_left hp, List.getElem?_eq_getElem hp]
  rfl

theorem nameUnit_length : nameUnit name name.length = 0 := by
  rw [nameUnit, List.getElem?_concat_length]
  rfl

theorem encodeName_length : (encodeName name chk).length = slotCount name := by
  rw [encodeName, List.length_map, List.length_reverse, List.length_range]

theorem isLong_of_mem_encodeName (hlen : name.length ≤ 255) {slot : Slot}
    (hslot : slot ∈ encodeName name chk) : slot.isLong = true := by
  obtain ⟨i, hi, rfl⟩ := List.mem_map.mp hslot
  rw [List.mem_reverse, List.mem_range] at hi
  have hcount : slotCount name < 0x40 := by
    rw [slotCount]
    omega
  obtain ⟨hnumber, -⟩ := sequence_fields (slotCount name) hcount i hi
  rw [Slot.isLong, nameSlot_attribs, nameSlot_entryType, BEq.rfl, Bool.true_and, bne_iff_ne]
  intro hzero
  rw [hzero, Nat.mod_eq_of_lt (by rw [slotCount] at hi; omega)] at hnumber
  exact absurd hnumber (Nat.succ_ne_zero i).symm

theorem complete_encodeName (hpos : 0 < name.length) (hlen : name.length ≤ 255) :
    Complete (encodeName name chk) := by
  rw [Complete, encodeName_length]
  have hcount : slotCount name = (name.length + 12) / 13 := rfl
  refine ⟨by omega, by omega, ?_⟩
  rw [encodeName, sequence, List.map_map]
  exact List.map_congr_left fun i _ => rfl

/-- The characters of the slots, put together. -/
theorem padded_encodeName {p : Nat} (hp : p < 13 * slotCount name) :
    padded ((encodeName name chk).reverse.flatMap Slot.nameChars) p = nameUnit name p := by
  have hget : (encodeName name chk).reverse[p / 13]? = some (nameSlot
      (BitVec.ofNat 8 (if p / 13 + 1 = slotCount name then 0x40 ||| slotCount name
        else p / 13 + 1)) chk fun j => nameUnit name (13 * (p / 13) + j)) := by
    rw [encodeName, ← List.map_reverse, List.reverse_reverse, List.getElem?_map,
      List.getElem?_range (by omega)]
    rfl
  rw [padded, flatMap_nameChars, hget]
  show Slot.nameChar _ _ = _
  rw [nameSlot_nameChar _ _ _ (Nat.mod_lt p (by decide)), Nat.div_add_mod]

/-- The buffer behind the slots of a name holds the name and a NUL. -/
theorem collect_encodeName (hpos : 0 < name.length) (hlen : name.length ≤ 255) {b : NameBuf}
    (hroom : name.length + 1 ≤ b.max) :
    (∀ p (hp : p < name.length),
      ((encodeName name chk).foldl NameBuf.collect b).ucs p = name[p]) ∧
    ((encodeName name chk).foldl NameBuf.collect b).ucs name.length = 0 := by
  have hrun := complete_encodeName name chk hpos hlen
  have hcount : slotCount name = (name.length + 12) / 13 := rfl
  have hchar : ∀ p < 13 * slotCount name, p ≤ name.length →
      ((encodeName name chk).foldl NameBuf.collect b).ucs p = nameUnit name p := by
    intro p hp hle
    rw [hrun.collected_char (by omega) (by rw [encodeName_length]; exact hp) (by omega)
      (fun _ => by omega)]
    exact padded_encodeName name chk hp
  refine ⟨fun p hp => ?_, ?_⟩
  · rw [hchar p (by omega) (by omega)]
    exact nameUnit_of_lt name hp
  · by_cases hwhole : name.length < 13 * slotCount name
    · rw [hchar name.length hwhole (Nat.le_refl _)]
      exact nameUnit_length name
    · -- the name ends with its last slot, and the NUL is put behind it
      refine hrun.collected_end ?_ (by omega) ?_
      · rw [encodeName_length]
        omega
      · rw [encodeName_length, if_neg (by omega)]
        omega

end EncodeName

/-! ## The places that are written -/

namespace NameBuf

theorem Within.refl (b : NameBuf) : b.Within b := ⟨rfl, fun _ _ => rfl⟩

theorem Within.trans {b b' b'' : NameBuf} (h : b.Within b') (h' : b'.Within b'') :
    b.Within b'' := by
  refine ⟨h'.max.trans h.max, fun p hp => ?_⟩
  rw [h'.outside p (by rw [h.max]; exact hp), h.outside p hp]

theorem within_put (b : NameBuf) {pos : Nat} (hpos : pos < b.max) (ch : BitVec 16) :
    b.Within (b.put pos ch) := by
  refine ⟨rfl, fun p hp => ?_⟩
  rw [put_ucs, if_neg (by omega)]

/-- A slot says nothing about places outside the buffer, whatever its number is. -/
theorem within_collect (b : NameBuf) (slot : Slot) : b.Within (b.collect slot) := by
  refine ⟨collect_max b slot, fun p hp => ?_⟩
  rw [collect_ucs, Slot.putsAt, if_neg (fun h => absurd h.2.2 (Nat.not_lt.mpr hp))]
  rfl

theorem within_copyLower (b : NameBuf) (pos : Nat) (bytes : List Byte) :
    b.Within (b.copyLower pos bytes).1 := by
  induction bytes generalizing b pos with
  | nil => exact Within.refl b
  | cons ch bytes ih =>
    rw [copyLower]
    split
    · next hgo => exact (within_put b hgo.1 _).trans (ih _ _)
    · exact Within.refl b

/-- A short name goes into the buffer up to its end. -/
theorem within_generateLfn (b : NameBuf) (entry : FullEntry) :
    b.Within (b.generateLfn entry) := by
  unfold generateLfn
  dsimp only
  have hbase := within_copyLower b 0 (List.ofFn entry.shortName)
  generalize b.copyLower 0 (List.ofFn entry.shortName) = base at hbase ⊢
  have hdotted : b.Within (if base.2 < base.1.max ∧ entry.shortExt 0 > 0x20 then
      (base.1.put base.2 0x2e, base.2 + 1) else base).1 := by
    split
    · next hgo => exact hbase.trans (within_put base.1 hgo.1 _)
    · exact hbase
  generalize (if base.2 < base.1.max ∧ entry.shortExt 0 > 0x20 then
    (base.1.put base.2 0x2e, base.2 + 1) else base) = dotted at hdotted ⊢
  have hwhole := hdotted.trans (within_copyLower dotted.1 dotted.2 (List.ofFn entry.shortExt))
  generalize dotted.1.copyLower dotted.2 (List.ofFn entry.shortExt) = whole at hwhole ⊢
  split
  · next hroom => exact hwhole.trans (within_put whole.1 hroom 0)
  · exact hwhole

end NameBuf

/-- What a round leaves of the buffer. -/
theorem Slot.round_within (slot : Slot) (flags : DirFlags) (hasLFN : Bool) (b : NameBuf) :
    ∃ b', (slot.round flags hasLFN (some b)).ucs = some b' ∧ b.Within b' := by
  cases hwant : slot.wanted flags with
  | true =>
    rw [Slot.round_of_wanted hwant]
    cases hasLFN with
    | true => exact ⟨b, rfl, .refl b⟩
    | false => exact ⟨_, rfl, b.within_generateLfn _⟩
  | false =>
    rw [Slot.round_of_not_wanted hwant, Slot.pass]
    split
    · exact ⟨_, rfl, b.within_collect slot⟩
    · exact ⟨b, rfl, .refl b⟩

namespace Reader

variable {σ : Type} (r : Reader σ)

/-- By induction on the slots, whatever they are. -/
theorem loop_within (flags : DirFlags) (k : Nat) (s : σ) (hasLFN : Bool) (b : NameBuf) :
    ∃ b', (r.loop flags k s hasLFN (some b)).2.1 = some b' ∧ b.Within b' := by
  induction k generalizing s hasLFN b with
  | zero => exact ⟨b, rfl, .refl b⟩
  | succ k ih =>
    unfold loop
    obtain ⟨s', read⟩ := r.read s
    cases read with
    | none => exact ⟨b, rfl, .refl b⟩
    | some slot =>
      obtain ⟨b', hround, hwithin⟩ := slot.round_within flags hasLFN b
      dsimp only
      rw [hround]
      split
      · exact ⟨b', rfl, hwithin⟩
      · split
        · exact ⟨b', rfl, hwithin⟩
        · obtain ⟨b'', hloop, hrest⟩ := ih s' _ b'
          exact ⟨b'', hloop, hwithin.trans hrest⟩

end Reader

/-! ## Reading a name back -/

theorem Slot.wanted_of_isLive {slot : Slot} (h : slot.isLive = true) (flags : DirFlags) :
    slot.wanted flags = true := by
  rw [Slot.isLive, Bool.and_eq_true, Bool.and_eq_true, Bool.and_eq_true, Bool.and_eq_true] at h
  obtain ⟨⟨⟨⟨hshort, hlabel⟩, hend⟩, hdeleted⟩, hdot⟩ := h
  have hkept : (slot.entryType == 0xe5) = false := by
    rw [← Bool.not_eq_true']
    exact hdeleted
  have hinc : includeEntry (slot.collectFlags false) flags = true := by
    unfold includeEntry Slot.collectFlags
    dsimp only
    rw [hkept, bne, hlabel]
    rfl
  rw [Slot.wanted, hshort, hend, hdot, hinc]
  exact Bool.or_true _

/-- What the loop carries to the entry behind the slots of a name. -/
theorem passAll_encodeName (before : List Slot) {name : List (BitVec 16)} (chk : Byte)
    (hpos : 0 < name.length) (hlen : name.length ≤ 255) (b : NameBuf) :
    ∃ b', b'.max = b.max ∧ passAll (before ++ encodeName name chk) (false, some b) =
      (true, some ((encodeName name chk).foldl NameBuf.collect b')) := by
  have hlong : ∀ x ∈ encodeName name chk, x.isLong = true :=
    fun x hx => isLong_of_mem_encodeName name chk hlen hx
  obtain ⟨b', hb', hmax⟩ := passAll_some before false b
  refine ⟨b', hmax, Prod.ext ?_ ?_⟩
  · -- the flag is that of the last slot
    have hne : encodeName name chk ≠ [] := by
      rw [← List.length_pos_iff, encodeName_length, slotCount]
      omega
    rw [← List.dropLast_concat_getLast hne, ← List.append_assoc, passAll_concat]
    have hlast := hlong _ (List.getLast_mem hne)
    rw [Slot.isLong, Bool.and_eq_true] at hlast
    rw [Slot.pass, if_pos hlast.1]
  · -- whatever the slots before have put into the buffer, these go on from there
    have hsplit : passAll (before ++ encodeName name chk) (false, some b) =
        passAll (encodeName name chk) ((passAll before (false, some b)).1, some b') := by
      rw [← hb']
      exact List.foldl_append
    rw [hsplit]
    exact passAll_long hlong _ b'

namespace Reader

variable {σ : Type} (r : Reader σ)

theorem readsBack : ReadsBack r.next r.Delivers := by
  intro flags s before name chk slot b hraw hbefore hpos hlen hlive hroom hdel
  have hwant := Slot.wanted_of_isLive hlive flags
  have hpassed : ∀ x ∈ before ++ encodeName name chk, x.stops flags = false := by
    intro x hx
    rcases List.mem_append.mp hx with hx | hx
    · exact hbefore x hx
    · exact Slot.stops_of_isLong (isLong_of_mem_encodeName name chk hlen hx) hraw
  obtain ⟨s', -, hnext, -⟩ := feeds_delivers.next_stops (some b) hpassed
    (show slot.stops flags = true by rw [Slot.stops, hwant]; rfl) hdel
  obtain ⟨b', hmax, hcarried⟩ := passAll_encodeName before chk hpos hlen b
  obtain ⟨hname, hnul⟩ := collect_encodeName name chk hpos hlen
    (show name.length + 1 ≤ b'.max by rw [hmax]; exact hroom)
  rw [hcarried, Slot.round_of_wanted hwant] at hnext
  exact ⟨s', _, hnext, (NameBuf.collectAll_max b' _).trans hmax, hname, hnul⟩

theorem confined : Confined r.next := fun flags s b => r.loop_within flags _ s false b

end Reader

/-! ## Names in a directory -/

section Directory

variable {rd : Reads} {g : Geometry} {img : Image} {v : Volume} {dh : Fin kMaxDirs}
  {first n : Nat} {slots : List Slot} {s : DirSys}

theorem Mounted.located (h : Mounted rd g img v) : Located g v := by
  obtain ⟨blkOffset, hpart, hd⟩ := h.part
  exact FileSys.located_of_init h.healthy hpart hd h.wellFormed h.suits h.geometry

/-- The slots that a handle faces are those that its reads deliver. -/
theorem Facing.delivers (h : Facing img v dh first n slots s) (hm : Mounted rd g img v)
    (hdir : v.IsDirectory img first n)
    (hst : SteadySlots rd g slots.length (s.cache, s.dirs dh)) :
    (objReader rd g).Delivers slots (s.cache, s.dirs dh) := by
  obtain ⟨k, hat, hprefix⟩ := h.position
  have hlen := hprefix.length_le
  rw [Volume.dirSlots, List.length_drop, List.length_map, List.length_range] at hlen
  have hin := hat.within
  have htotal : k + slots.length ≤ n * v.clusterBytes / 32 := by omega
  refine (feeds_ahead hm.healthy hm.located hdir htotal).delivers
    ⟨k, Nat.le_add_right _ _, hat, ?_, ?_⟩
  · have htake := List.prefix_iff_eq_take.mp hprefix
    rw [List.take_drop, Volume.dirSlots, ← List.map_take, List.take_range,
      Nat.min_eq_left htotal] at htake
    exact htake
  · rw [Nat.add_sub_cancel_left]
    exact hst

/-- **Reading a name back undoes laying it out**, for every directory and every state of the
cache in which no read of its slots evicts its own data; and no place outside the buffer is
written, whatever is read. -/
theorem dirNext_nameCodec (rd : Reads) (g : Geometry) : NameCodec rd g where
  decode_encode := by
    intro img v dh first n hm hdir flags s before name chk slot b hraw hbefore hpos hlen hlive
      hroom ⟨hface, hst⟩
    obtain ⟨st, b', hnext, hread⟩ := (objReader rd g).readsBack flags _ before name chk slot b
      hraw hbefore hpos hlen hlive hroom (hface.delivers hm hdir hst)
    refine ⟨s.setDir dh st.1 st.2, b', ?_, hread⟩
    dsimp only
    rw [DirSys.dirNext, dir?_of_valid hface.valid]
    dsimp only
    rw [hnext]
  within := by
    intro dh flags s b
    dsimp only
    rw [DirSys.dirNext]
    cases hdir : s.dir? dh with
    | none => exact ⟨b, rfl, .refl b⟩
    | some dir => exact (objReader rd g).confined flags (s.cache, s.dirs dir) b

end Directory

/-! ## A name across two clusters -/

section Cards

open FileSys

/-- The slots are those of clusters 2 and 3, which are blocks 3 and 4; the FAT, in block 2, has
the chain of the two. -/
def nameCard (slots : List Slot) : Image :=
  Function.update
    (Function.update
      (Function.update (cardOf 1 dirRecord) 2 fun i =>
        match i.val with
        | 8 => 3
        | 12 | 13 | 14 => 0xff
        | 15 => 0x0f
        | _ => 0)
      3 fun i => (slots.getD (i.val / 32) fun _ => 0) (Fin.ofNat 32 i.val))
    4 fun i => (slots.getD (16 + i.val / 32) fun _ => 0) (Fin.ofNat 32 i.val)

/-- Deleted entries, and the slots of a name, which start with the last of the first cluster. -/
def splitSlots (name : List (BitVec 16)) : List Slot :=
  List.replicate 15 (plainSlot 0xe5 0x20) ++ encodeName name 0 ++ [plainSlot 0x41 0x20]

/-- Two slots, of the letters from `a`. -/
def letters : List (BitVec 16) := (List.range 14).map fun k => BitVec.ofNat 16 (0x61 + k)

theorem bootRecord_cardOf :
    findPartition (cardOf 1 dirRecord 0) = some 1 ∧
    dirVolume.Describes (bootRecord (cardOf 1 dirRecord 1)) 1 ∧
    (bootRecord (cardOf 1 dirRecord 1)).accepted = true :=
  ⟨by decide +kernel, by constructor <;> decide +kernel, by decide +kernel⟩

/-- What `init` reads is before the FAT, so that it is the same whatever the slots are. -/
theorem mounted_nameCard (slots : List Slot) :
    Mounted (healthyReads (nameCard slots)) ((bootRecord (nameCard slots 1)).geometry 1)
      (nameCard slots) dirVolume := by
  have hmbr : nameCard slots 0 = cardOf 1 dirRecord 0 := by
    rw [nameCard, Function.update_of_ne (by decide), Function.update_of_ne (by decide),
      Function.update_of_ne (by decide)]
  have hboot : nameCard slots 1 = cardOf 1 dirRecord 1 := by
    rw [nameCard, Function.update_of_ne (by decide), Function.update_of_ne (by decide),
      Function.update_of_ne (by decide)]
  obtain ⟨hpart, hd, hacc⟩ := bootRecord_cardOf
  rw [← hmbr] at hpart
  rw [← hboot] at hd hacc
  exact
    { healthy := fun _ _ => rfl
      part := ⟨1, hpart, hd⟩
      wellFormed := wellFormed_volumeOf (b := 9) (k := 0) (by decide) (by decide) (by decide)
      suits := ⟨rfl, by decide, by decide⟩
      geometry := init_of_accepted (fun _ _ => rfl) hpart hacc }

theorem atSlot_openedDir (img : Image) (v : Volume) (n : Nat) :
    AtSlot img v 2 n 0 (openedDir.cache, openedDir.dirs 0) := by
  have hopen : DirSys.dirOpen ⟨closedFiles, fun _ => ⟨false, 0, 0, 0, 0⟩⟩ 2 =
      (openedDir, some 0) := rfl
  exact atSlot_opened hopen (BlockCache.coherent_of_emptied BlockCache.emptied_emptyCache) n

theorem readsBack_letters : ∃ s' b',
    openedDir.dirNext (healthyReads (nameCard (splitSlots letters)))
        ((bootRecord (nameCard (splitSlots letters) 1)).geometry 1) 0 .default
        (some ⟨fun _ => 0x78, 16⟩) =
      (s', some b', some ((plainSlot 0x41 0x20).entry ((plainSlot 0x41 0x20).collectFlags true))) ∧
    b'.max = 16 ∧ (∀ p (hp : p < letters.length), b'.ucs p = letters[p]) ∧
    b'.ucs letters.length = 0 := by
  refine (dirNext_nameCodec (healthyReads (nameCard (splitSlots letters)))
    ((bootRecord (nameCard (splitSlots letters) 1)).geometry 1)).decode_encode
    (nameCard (splitSlots letters)) dirVolume 0 2 2 (mounted_nameCard _)
    ⟨⟨by decide +kernel, by decide +kernel⟩, by decide, by decide⟩ .default openedDir
    (List.replicate 15 (plainSlot 0xe5 0x20)) letters 0 (plainSlot 0x41 0x20) ⟨fun _ => 0x78, 16⟩
    rfl (fun x hx => ?_) (by decide) (by decide) rfl (by decide)
    ⟨⟨rfl, 0, ?_, ?_⟩, ?_⟩
  · rw [List.eq_of_mem_replicate hx]
    rfl
  · exact atSlot_openedDir _ _ 2
  · refine ⟨List.replicate 14 fun _ => 0, ?_⟩
    decide +kernel
  · unfold SteadySlots
    decide +kernel

/-- A name of one slot. -/
def lostCard : Image := nameCard (splitSlots [0x61])

def lostGeometry : Geometry := (bootRecord (lostCard 1)).geometry 1

/-- The first slot of the directory, returned as a deleted entry. -/
def firstRead : DirSys :=
  (openedDir.dirNext (healthyReads lostCard) lostGeometry 0
    { DirFlags.default with includeDeleted := true } none).1

/-- One block is read of each of seven files. -/
def sevenReads : List Call := (List.range 7).flatMap fun k =>
  [.fileOpen ⟨BitVec.ofNat 32 (4 + k), 1⟩, .fileRead 0 1, .fileClose 0]

/-- Files are read in between, which leaves the directory's block the next to be replaced. -/
def filesRead : FileSys :=
  (FileSys.machine (healthyReads lostCard) lostGeometry).run firstRead.toFileSys sevenReads

@[irreducible] def staleDir : DirSys := ⟨filesRead, firstRead.dirs⟩

theorem mounted_lostCard : Mounted (healthyReads lostCard) lostGeometry lostCard dirVolume :=
  mounted_nameCard _

theorem directory_lostCard :
    dirVolume.IsDirectory lostCard 2 2 ∧
    dirVolume.dirSlots lostCard 2 2 = splitSlots [0x61] ++ List.replicate 15 fun _ => 0 :=
  ⟨⟨⟨by decide +kernel, by decide +kernel⟩, by decide, by decide⟩, by decide +kernel⟩

/-- What the calls come to: no read evicts its own data until the slot of the name is read. -/
theorem calls_lostCard :
    SteadySlots (healthyReads lostCard) lostGeometry 1 (openedDir.cache, openedDir.dirs 0) ∧
    (FileSys.machine (healthyReads lostCard) lostGeometry).Always
      (FileSys.CarefulCall (healthyReads lostCard) lostGeometry) firstRead.toFileSys sevenReads ∧
    (staleDir.dirs 0).valid = true ∧
    (staleDir.dirNext (healthyReads lostCard) lostGeometry 0 .default
      (some ⟨fun _ => 0x78, 14⟩)).2.2.isSome = false := by
  unfold SteadySlots FileSys.CarefulCall
  exact ⟨by decide +kernel, by decide +kernel, by decide +kernel, by decide +kernel⟩

/-- The handle is behind the first slot. -/
theorem atSlot_firstRead :
    AtSlot lostCard dirVolume 2 2 1 (firstRead.cache, firstRead.dirs 0) := by
  have hslots : [plainSlot 0xe5 0x20] =
      ((List.range 1).map (dirVolume.dirSlot lostCard 2)).drop 0 := by
    show [plainSlot 0xe5 0x20] = (((List.range 32).take 1).map (dirVolume.dirSlot lostCard 2))
    rw [List.map_take, show (List.range 32).map (dirVolume.dirSlot lostCard 2) =
      dirVolume.dirSlots lostCard 2 2 from rfl, directory_lostCard.2]
    rfl
  have hpast : ∀ x ∈ ([] : List Slot),
      x.stops { DirFlags.default with includeDeleted := true } = false :=
    fun x hx => absurd hx List.not_mem_nil
  obtain ⟨st, ⟨k, hk, hat, hdone, -⟩, hnext, -⟩ := (feeds_ahead mounted_lostCard.healthy
    mounted_lostCard.located directory_lostCard.1 (by decide)).next_stops none hpast (by rfl)
    ⟨0, Nat.zero_le 1, atSlot_openedDir _ _ 2, hslots, calls_lostCard.1⟩
  obtain rfl : k = 1 := by
    have hlength := congrArg List.length hdone
    rw [List.length_drop, List.length_map, List.length_range, List.length_nil] at hlength
    omega
  have hst : (firstRead.cache, firstRead.dirs 0) = st := by
    show ((openedDir.dirNext (healthyReads lostCard) lostGeometry 0 _ none).1.cache,
      (openedDir.dirNext (healthyReads lostCard) lostGeometry 0 _ none).1.dirs 0) = st
    rw [DirSys.dirNext, show openedDir.dir? 0 = some 0 from rfl]
    dsimp only
    rw [hnext]
    rfl
  rw [hst]
  exact hat

theorem coherent_staleDir : BlockCache.Coherent lostCard staleDir.cache := by
  unfold staleDir
  refine (FileSys.machine (healthyReads lostCard) lostGeometry).run_invariant
    (C := FileSys.CarefulCall (healthyReads lostCard) lostGeometry)
    (I := fun s => BlockCache.Coherent lostCard s.cache) (fun s call hs hcall => ?_)
    atSlot_firstRead.coherent calls_lostCard.2.1
  show BlockCache.Coherent lostCard (s.call (healthyReads lostCard) lostGeometry call).1.cache
  rw [FileSys.call_cache]
  exact coherent_of_careful mounted_lostCard.healthy.delivers hs hcall

theorem facing_staleDir : Facing lostCard dirVolume 0 2 2
    (List.replicate 14 (plainSlot 0xe5 0x20) ++ encodeName [0x61] 0 ++ [plainSlot 0x41 0x20])
    staleDir where
  valid := calls_lostCard.2.2.1
  position := by
    have hdirs : staleDir.dirs = firstRead.dirs := by
      unfold staleDir
      rfl
    have hat : AtSlot lostCard dirVolume 2 2 1 (staleDir.cache, staleDir.dirs 0) := by
      rw [hdirs]
      exact { atSlot_firstRead with coherent := coherent_staleDir }
    refine ⟨1, hat, List.replicate 15 fun _ => 0, ?_⟩
    rw [directory_lostCard.2]
    rfl

/-- The block of the directory is in the entry that is the next to be replaced, and the FAT is
not in the cache: bytes of the FAT are read instead of the slot of the name, and `dir_next`
takes them for the end of the directory. -/
theorem not_readsBack_evicted :
    Mounted (healthyReads lostCard) lostGeometry lostCard dirVolume ∧
    dirVolume.IsDirectory lostCard 2 2 ∧
    (staleDir.dirNext (healthyReads lostCard) lostGeometry 0 .default
      (some ⟨fun _ => 0x78, 14⟩)).2.2.isSome = false ∧
    ¬ ReadsBack (fun flags s ucs => s.dirNext (healthyReads lostCard) lostGeometry 0 flags ucs)
      (Facing lostCard dirVolume 0 2 2) := by
  obtain ⟨-, -, -, hlost⟩ := calls_lostCard
  refine ⟨mounted_lostCard, directory_lostCard.1, hlost, fun h => ?_⟩
  obtain ⟨s', b', hnext, -⟩ := h .default staleDir (List.replicate 14 (plainSlot 0xe5 0x20)) [0x61]
    0 (plainSlot 0x41 0x20) ⟨fun _ => 0x78, 14⟩ rfl
    (fun x hx => by rw [List.eq_of_mem_replicate hx]; rfl) (by decide) (by decide)
    rfl (by decide) facing_staleDir
  dsimp only at hnext
  rw [hnext] at hlost
  cases hlost

end Cards

end SonataSystem.Storage
