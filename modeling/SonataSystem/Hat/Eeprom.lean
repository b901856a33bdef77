import SonataSystem.Lib.Masks
import SonataSystem.Lib.Traced
import Mathlib.Data.BitVec

/-!
# The ID EEPROM of a HAT

An atom is a header of eight bytes, whose last four give the length of what follows: a payload
and a CRC of two bytes. `parseAtomInfo` looks for one in a buffer, at an index it is given.
Indices and lengths are 32-bit words, and the length comes from the buffer.

The buffer is a function of all indices, of which the first `bufSize` are the buffer's own, so
that an index beyond it reads something. `bounded_iff` says when `parseAtomInfo` stays in the
buffer and finds exactly the atoms that lie in it. Its check of the length leaves out the
header, and a length below two is not rejected.

Every function is a `Traced` one: it returns its value and the indices it has read, in order, so
that staying in the buffer is a statement about the code's own reads and not about a function made
for it. The arithmetic wraps as in the source, and where a sum wraps the check passes that should
not.
-/

set_option autoImplicit false

namespace SonataSystem.Hat

open Lib

abbrev Byte := BitVec 8

abbrev Index := BitVec 32

/-- `atom_info_t`. -/
structure AtomInfo where
  type : BitVec 16
  atomCount : BitVec 16
  length : BitVec 32
  crc : BitVec 16
  deriving DecidableEq

def atomHeaderLength : Index := 8

def crc16Poly : BitVec 16 := 0xA001

/-- One round of the inner loop: the polynomial is in its reflected form. -/
def crc16Bit (crc : BitVec 16) : BitVec 16 :=
  if (crc &&& 1) ≠ 0 then (crc >>> 1) ^^^ crc16Poly else crc >>> 1

/-- The byte is added to the low half, and the register is shifted eight times. -/
def crc16Byte (crc : BitVec 16) (b : Byte) : BitVec 16 :=
  Nat.iterate crc16Bit 8 (crc ^^^ b.setWidth 16)

/-- `buf[i]`. -/
def readAt (buf : Index → Byte) (i : Index) : Traced Index Byte := ⟨buf i, [i]⟩

theorem toNat_succ_of_lt {i stop : Index} (h : i < stop) : (i + 1).toNat = i.toNat + 1 := by
  have hlt : i.toNat < stop.toNat := h
  have hstop := stop.isLt
  rw [BitVec.toNat_add]
  exact Nat.mod_eq_of_lt (by rw [show (1 : Index).toNat = 1 from rfl]; omega)

/-- The rounds of `calc_crc16` from the index `i` on. -/
def calcCrc16From (buf : Index → Byte) (stop i : Index) (crc : BitVec 16) :
    Traced Index (BitVec 16) :=
  if i < stop then do
    let b ← readAt buf i
    calcCrc16From buf stop (i + 1) (crc16Byte crc b)
  else pure crc
termination_by stop.toNat - i.toNat
decreasing_by
  rename_i h
  have hlt : i.toNat < stop.toNat := h
  rw [toNat_succ_of_lt h]
  omega

/-- The CRC of `len` bytes from an index on. -/
def calcCrc16 (buf : Index → Byte) (startIndex len : Index) : Traced Index (BitVec 16) :=
  calcCrc16From buf (startIndex + len) startIndex 0

/-- Two bytes of the buffer, the first the lower one. -/
def readBuf16b (buf : Index → Byte) (startIndex : Index) : Traced Index (BitVec 16) := do
  let b0 ← readAt buf startIndex
  let b1 ← readAt buf (startIndex + 1)
  pure (b0.setWidth 16 ||| b1.setWidth 16 <<< 8)

def readBuf32b (buf : Index → Byte) (startIndex : Index) : Traced Index (BitVec 32) := do
  let b0 ← readAt buf startIndex
  let b1 ← readAt buf (startIndex + 1)
  let b2 ← readAt buf (startIndex + 2)
  let b3 ← readAt buf (startIndex + 3)
  pure (b0.setWidth 32 ||| b1.setWidth 32 <<< 8 ||| b2.setWidth 32 <<< 16 |||
    b3.setWidth 32 <<< 24)

/-- The result, and `info_out`. -/
def parseAtomInfo (buf : Index → Byte) (startIndex bufSize : Index) (infoOut : AtomInfo) :
    Traced Index (Bool × AtomInfo) :=
  if startIndex + atomHeaderLength + 2 > bufSize then pure (false, infoOut)
  else do
    let type ← readBuf16b buf startIndex
    let atomCount ← readBuf16b buf (startIndex + 2)
    let length ← readBuf32b buf (startIndex + 4)
    let info : AtomInfo := ⟨type, atomCount, length, infoOut.crc⟩
    if startIndex + length > bufSize then pure (false, info)
    else do
      let crc ← readBuf16b buf (startIndex + atomHeaderLength + length - 2)
      let calcCrc ← calcCrc16 buf startIndex (atomHeaderLength + length - 2)
      pure (calcCrc == crc, { info with crc := crc })

/-! ## Atoms -/

/-- The number that bytes make, the low one first. -/
def leNat (bs : List Byte) : Nat := bs.foldr (fun b n => b.toNat + 256 * n) 0

/-- The CRC of a list of bytes. -/
def crc16 (bs : List Byte) : BitVec 16 := bs.foldl crc16Byte 0

/-- A header, a payload and a CRC, with nothing left over. -/
structure IsAtom (atom : List Byte) : Prop where
  size : 10 ≤ atom.length
  length : atom.length = 8 + leNat ((atom.drop 4).take 4)
  crc : leNat (atom.drop (atom.length - 2)) = (crc16 (atom.take (atom.length - 2))).toNat

/-- The buffer's bytes. -/
def contents (buf : Index → Byte) (bufSize : Index) : List Byte :=
  (List.range bufSize.toNat).map fun k => buf (BitVec.ofNat 32 k)

/-- A whole atom lies in the buffer at the index. -/
def HoldsAtom (bytes : List Byte) (start : Nat) : Prop :=
  ∃ atom, atom <+: bytes.drop start ∧ IsAtom atom

/-- What is wanted: no access outside the buffer, and success exactly for the atoms in it. -/
structure Bounded (buf : Index → Byte) (startIndex bufSize : Index) (infoOut : AtomInfo) :
    Prop where
  reads : (parseAtomInfo buf startIndex bufSize infoOut).All (· < bufSize)
  exact : (parseAtomInfo buf startIndex bufSize infoOut).value.1 = true ↔
    HoldsAtom (contents buf bufSize) startIndex.toNat

/-! ## What is read, and what comes of it -/

variable (buf : Index → Byte)

/-- The bytes from an index on. -/
def bytes (start len : Nat) : List Byte :=
  (List.range' start len).map fun k => buf (BitVec.ofNat 32 k)

variable {buf} {startIndex bufSize stop : Index} {infoOut : AtomInfo}

theorem calcCrc16From_value (i : Index) (crc : BitVec 16) :
    (calcCrc16From buf stop i crc).value =
      (bytes buf i.toNat (stop.toNat - i.toNat)).foldl crc16Byte crc := by
  induction i, crc using calcCrc16From.induct stop with
  | case1 i crc hlt ih =>
    have hlt' : i.toNat < stop.toNat := hlt
    obtain ⟨k, hk⟩ : ∃ k, stop.toNat - i.toNat = k + 1 := ⟨stop.toNat - i.toNat - 1, by omega⟩
    have hrest : stop.toNat - (i + 1).toNat = k := by
      rw [toNat_succ_of_lt hlt]
      omega
    rw [calcCrc16From, if_pos hlt, Traced.value_bind, readAt, ih, hrest, hk, toNat_succ_of_lt hlt]
    simp only [bytes, List.range'_succ, List.map_cons, List.foldl_cons, BitVec.ofNat_toNat,
      BitVec.setWidth_eq]
  | case2 i crc hge =>
    have hge' : ¬ i.toNat < stop.toNat := hge
    have hzero : stop.toNat - i.toNat = 0 := by omega
    rw [calcCrc16From, if_neg hge, hzero]
    rfl

/-- The loop reads below its end. -/
theorem calcCrc16From_all (i : Index) (crc : BitVec 16) :
    (calcCrc16From buf stop i crc).All (· < stop) := by
  induction i, crc using calcCrc16From.induct stop with
  | case1 i crc hlt ih =>
    rw [calcCrc16From, if_pos hlt, Traced.all_bind]
    refine ⟨?_, ih (buf i)⟩
    intro j hj
    rw [List.mem_singleton.mp hj]
    exact hlt
  | case2 i crc hge =>
    rw [calcCrc16From, if_neg hge]
    exact Traced.all_pure _ _

@[simp] theorem readAt_value (i : Index) : (readAt buf i).value = buf i := rfl

@[simp] theorem readAt_all (P : Index → Prop) (i : Index) : (readAt buf i).All P ↔ P i := by
  constructor
  · intro h
    exact h i (List.mem_singleton_self i)
  · intro h j hj
    rw [List.mem_singleton.mp hj]
    exact h

@[simp] theorem readBuf16b_all (P : Index → Prop) (i : Index) :
    (readBuf16b buf i).All P ↔ P i ∧ P (i + 1) := by
  simp [readBuf16b]

@[simp] theorem readBuf32b_all (P : Index → Prop) (i : Index) :
    (readBuf32b buf i).All P ↔ P i ∧ P (i + 1) ∧ P (i + 2) ∧ P (i + 3) := by
  simp [readBuf32b]

theorem readBuf16b_toNat (i : Index) :
    (readBuf16b buf i).value.toNat = leNat [buf i, buf (i + 1)] := by
  show ((buf i).setWidth 16 ||| (buf (i + 1)).setWidth 16 <<< 8).toNat = _
  rw [toNat_bytes2]
  simp only [leNat, List.foldr_cons, List.foldr_nil]
  omega

theorem readBuf32b_toNat (i : Index) :
    (readBuf32b buf i).value.toNat =
      leNat [buf i, buf (i + 1), buf (i + 2), buf (i + 3)] := by
  show ((buf i).setWidth 32 ||| (buf (i + 1)).setWidth 32 <<< 8 |||
    (buf (i + 2)).setWidth 32 <<< 16 ||| (buf (i + 3)).setWidth 32 <<< 24).toNat = _
  rw [toNat_bytes4]
  simp only [leNat, List.foldr_cons, List.foldr_nil]
  omega

section Outcome

variable (buf startIndex)

/-- The length in the header. -/
def lengthAt : Index := (readBuf32b buf (startIndex + 4)).value

/-- Where the CRC is looked for. -/
def crcIndex : Index := startIndex + (atomHeaderLength + lengthAt buf startIndex - 2)

/-- The CRC that the atom carries, read at the index the code computes. -/
def storedCrc : BitVec 16 := (readBuf16b buf (crcIndex buf startIndex)).value

variable {buf startIndex}

theorem crcIndex_eq :
    startIndex + atomHeaderLength + lengthAt buf startIndex - 2 = crcIndex buf startIndex := by
  rw [crcIndex, BitVec.sub_eq_add_neg, BitVec.sub_eq_add_neg, BitVec.add_assoc, BitVec.add_assoc,
    BitVec.add_assoc]

theorem parseAtomInfo_value :
    (parseAtomInfo buf startIndex bufSize infoOut).value.1 = true ↔
      ¬ startIndex + atomHeaderLength + 2 > bufSize ∧
        ¬ startIndex + lengthAt buf startIndex > bufSize ∧
        crc16 (bytes buf startIndex.toNat
          ((crcIndex buf startIndex).toNat - startIndex.toNat)) = storedCrc buf startIndex := by
  have hcrc : (calcCrc16 buf startIndex (atomHeaderLength + lengthAt buf startIndex - 2)).value =
      crc16 (bytes buf startIndex.toNat
        ((crcIndex buf startIndex).toNat - startIndex.toNat)) := calcCrc16From_value _ _
  rw [← hcrc, parseAtomInfo]
  by_cases h1 : startIndex + atomHeaderLength + 2 > bufSize
  · rw [if_pos h1]
    exact ⟨fun h => Bool.noConfusion h, fun h => absurd h1 h.1⟩
  · rw [if_neg h1]
    simp only [Traced.value_bind]
    by_cases h2 : startIndex + (readBuf32b buf (startIndex + 4)).value > bufSize
    · rw [if_pos h2]
      exact ⟨fun h => Bool.noConfusion h, fun h => absurd h2 h.2.1⟩
    · rw [if_neg h2]
      simp only [Traced.value_bind, Traced.value_pure, beq_iff_eq]
      rw [storedCrc, ← crcIndex_eq]
      exact ⟨fun h => ⟨h1, h2, h⟩, fun h => h.2.2⟩

/-- The accesses: the header's, then, if the length is accepted, those of the CRC and of the
loop over what is in front of it. -/
theorem parseAtomInfo_all (P : Index → Prop) :
    (parseAtomInfo buf startIndex bufSize infoOut).All P ↔
      (¬ startIndex + atomHeaderLength + 2 > bufSize →
        (∀ k < 8, P (startIndex + BitVec.ofNat 32 k)) ∧
          (¬ startIndex + lengthAt buf startIndex > bufSize →
            P (crcIndex buf startIndex) ∧ P (crcIndex buf startIndex + 1) ∧
              (calcCrc16From buf (crcIndex buf startIndex) startIndex 0).All P)) := by
  have hheader : (∀ k < 8, P (startIndex + BitVec.ofNat 32 k)) ↔
      (readBuf16b buf startIndex).All P ∧ (readBuf16b buf (startIndex + 2)).All P ∧
        (readBuf32b buf (startIndex + 4)).All P := by
    simp only [readBuf16b_all, readBuf32b_all, BitVec.add_assoc]
    constructor
    · intro h
      exact ⟨⟨by simpa using h 0 (by decide), h 1 (by decide)⟩, ⟨h 2 (by decide), h 3 (by decide)⟩,
        h 4 (by decide), h 5 (by decide), h 6 (by decide), h 7 (by decide)⟩
    · rintro ⟨⟨h0, h1⟩, ⟨h2, h3⟩, h4, h5, h6, h7⟩ k hk
      have hcases : k = 0 ∨ k = 1 ∨ k = 2 ∨ k = 3 ∨ k = 4 ∨ k = 5 ∨ k = 6 ∨ k = 7 := by omega
      rcases hcases with rfl | rfl | rfl | rfl | rfl | rfl | rfl | rfl
      · simpa using h0
      · exact h1
      · exact h2
      · exact h3
      · exact h4
      · exact h5
      · exact h6
      · exact h7
  rw [hheader, parseAtomInfo]
  by_cases h1 : startIndex + atomHeaderLength + 2 > bufSize
  · rw [if_pos h1]
    exact ⟨fun _ h => absurd h1 h, fun _ => Traced.all_pure _ _⟩
  · rw [if_neg h1]
    simp only [Traced.all_bind]
    by_cases h2 : startIndex + (readBuf32b buf (startIndex + 4)).value > bufSize
    · rw [if_pos h2]
      constructor
      · rintro ⟨ha, hb, hc, -⟩ _
        exact ⟨⟨ha, hb, hc⟩, fun h => absurd h2 h⟩
      · intro h
        obtain ⟨⟨ha, hb, hc⟩, -⟩ := h h1
        exact ⟨ha, hb, hc, Traced.all_pure _ _⟩
    · have hcrc : (readBuf16b buf (startIndex + atomHeaderLength +
          (readBuf32b buf (startIndex + 4)).value - 2)).All P ↔
            P (crcIndex buf startIndex) ∧ P (crcIndex buf startIndex + 1) := by
        rw [readBuf16b_all, ← crcIndex_eq]
        rfl
      rw [if_neg h2]
      simp only [Traced.all_bind, Traced.all_pure, and_true]
      rw [hcrc]
      constructor
      · rintro ⟨ha, hb, hc, ⟨hd, he⟩, hf⟩ _
        exact ⟨⟨ha, hb, hc⟩, fun _ => ⟨hd, he, hf⟩⟩
      · intro h
        obtain ⟨⟨ha, hb, hc⟩, hrest⟩ := h h1
        obtain ⟨hd, he, hf⟩ := hrest h2
        exact ⟨ha, hb, hc, ⟨hd, he⟩, hf⟩

end Outcome

/-! ## Atoms in the buffer -/

section Windows

variable (buf)

theorem length_bytes (start len : Nat) : (bytes buf start len).length = len := by
  simp [bytes]

theorem take_bytes {start len k : Nat} (h : k ≤ len) :
    (bytes buf start len).take k = bytes buf start k := by
  rw [bytes, ← List.map_take, List.take_range'_of_length_ge h]
  rfl

theorem drop_bytes (start len k : Nat) :
    (bytes buf start len).drop k = bytes buf (start + k) (len - k) := by
  rw [bytes, ← List.map_drop, List.drop_range', Nat.mul_one]
  rfl

theorem contents_eq (bufSize : Index) : contents buf bufSize = bytes buf 0 bufSize.toNat := by
  rw [contents, bytes, List.range_eq_range']

variable {buf}

theorem readBuf16b_ofNat (p : Nat) :
    (readBuf16b buf (BitVec.ofNat 32 p)).value.toNat = leNat (bytes buf p 2) := by
  rw [readBuf16b_toNat]
  simp only [bytes, List.range'_succ, List.range'_zero, List.map_cons, List.map_nil,
    BitVec.ofNat_add]
  rfl

theorem readBuf32b_ofNat (p : Nat) :
    (readBuf32b buf (BitVec.ofNat 32 p)).value.toNat = leNat (bytes buf p 4) := by
  rw [readBuf32b_toNat]
  simp only [bytes, List.range'_succ, List.range'_zero, List.map_cons, List.map_nil,
    BitVec.ofNat_add, BitVec.add_assoc]
  rfl

/-- What is in front of the index is a prefix of the rest. -/
theorem prefix_contents_iff {start : Nat} {atom : List Byte} (h : start ≤ bufSize.toNat) :
    atom <+: (contents buf bufSize).drop start ↔
      start + atom.length ≤ bufSize.toNat ∧ atom = bytes buf start atom.length := by
  rw [contents_eq, drop_bytes, Nat.zero_add]
  constructor
  · intro hpre
    have hlen := hpre.length_le
    rw [length_bytes] at hlen
    refine ⟨by omega, ?_⟩
    have htake := List.prefix_iff_eq_take.mp hpre
    rw [take_bytes _ hlen] at htake
    exact htake
  · rintro ⟨hlen, hatom⟩
    rw [List.prefix_iff_eq_take, take_bytes _ (by omega)]
    exact hatom

end Windows

theorem lengthAt_toNat :
    (lengthAt buf startIndex).toNat = leNat (bytes buf (startIndex.toNat + 4) 4) := by
  have hindex : startIndex + 4 = BitVec.ofNat 32 (startIndex.toNat + 4) := by
    rw [BitVec.ofNat_add, BitVec.ofNat_toNat, BitVec.setWidth_eq]
    rfl
  rw [lengthAt, hindex, readBuf32b_ofNat]

/-- With the header in the buffer, the atom is in the buffer if its length says so and its CRC
is right. -/
theorem holdsAtom_iff (h : startIndex.toNat + 8 ≤ bufSize.toNat) :
    HoldsAtom (contents buf bufSize) startIndex.toNat ↔
      (2 ≤ (lengthAt buf startIndex).toNat ∧
        startIndex.toNat + 8 + (lengthAt buf startIndex).toNat ≤ bufSize.toNat) ∧
      leNat (bytes buf (startIndex.toNat + 6 + (lengthAt buf startIndex).toNat) 2) =
        (crc16 (bytes buf startIndex.toNat (6 + (lengthAt buf startIndex).toNat))).toNat := by
  have hfield : ∀ len, 8 ≤ len →
      ((bytes buf startIndex.toNat len).drop 4).take 4 = bytes buf (startIndex.toNat + 4) 4 := by
    intro len hlen
    rw [drop_bytes, take_bytes _ (by omega)]
  have hcrc : ∀ k, ((bytes buf startIndex.toNat (6 + k + 2)).drop (6 + k) =
      bytes buf (startIndex.toNat + 6 + k) 2) ∧
      (bytes buf startIndex.toNat (6 + k + 2)).take (6 + k) =
        bytes buf startIndex.toNat (6 + k) := by
    intro k
    rw [drop_bytes, take_bytes _ (Nat.le_add_right _ _), Nat.add_sub_cancel_left, Nat.add_assoc]
    exact ⟨rfl, rfl⟩
  constructor
  · rintro ⟨atom, hpre, hatom⟩
    obtain ⟨hlen, heq⟩ := (prefix_contents_iff (by omega)).mp hpre
    have hsize := hatom.size
    have hlength := hatom.length
    rw [heq, length_bytes, hfield _ (by omega), ← lengthAt_toNat] at hlength
    have hsplit : atom.length = 6 + (lengthAt buf startIndex).toNat + 2 := by omega
    refine ⟨⟨by omega, by omega⟩, ?_⟩
    have hc := hatom.crc
    rw [heq, length_bytes, hsplit, Nat.add_sub_cancel, (hcrc _).1, (hcrc _).2] at hc
    exact hc
  · rintro ⟨⟨htwo, hfits⟩, hc⟩
    have hsplit : 8 + (lengthAt buf startIndex).toNat =
        6 + (lengthAt buf startIndex).toNat + 2 := by omega
    refine ⟨bytes buf startIndex.toNat (8 + (lengthAt buf startIndex).toNat), ?_, ?_⟩
    · rw [prefix_contents_iff (by omega), length_bytes]
      exact ⟨by omega, rfl⟩
    · constructor
      · rw [length_bytes]
        omega
      · rw [length_bytes, hfield _ (by omega), ← lengthAt_toNat]
      · rw [length_bytes, hsplit, Nat.add_sub_cancel, (hcrc _).1, (hcrc _).2]
        exact hc

/-! ## When it is bounded and exact -/

/-- The index wraps so little that the atom is rejected at once; or the header lies in the
buffer, and either the length is rejected, or the atom lies in the buffer, or the CRC of an
atom that does not is looked for in the buffer, and found to be wrong. -/
def Guarded (buf : Index → Byte) (startIndex bufSize : Index) : Prop :=
  startIndex + atomHeaderLength + 2 > bufSize ∨
    startIndex.toNat + 8 ≤ bufSize.toNat ∧
      (startIndex + lengthAt buf startIndex > bufSize ∨
        2 ≤ (lengthAt buf startIndex).toNat ∧
          startIndex.toNat + 8 + (lengthAt buf startIndex).toNat ≤ bufSize.toNat ∨
        (crcIndex buf startIndex).toNat + 2 ≤ bufSize.toNat ∧
          crc16 (bytes buf startIndex.toNat
            ((crcIndex buf startIndex).toNat - startIndex.toNat)) ≠ storedCrc buf startIndex)

theorem toNat_add_le (i j : Index) : (i + j).toNat ≤ i.toNat + j.toNat := by
  rw [BitVec.toNat_add]
  exact Nat.mod_le _ _

theorem not_holdsAtom (h : bufSize.toNat < startIndex.toNat + 10) :
    ¬ HoldsAtom (contents buf bufSize) startIndex.toNat := by
  rintro ⟨atom, hpre, hatom⟩
  have hlen := hpre.length_le
  rw [contents_eq, drop_bytes, length_bytes] at hlen
  have hsize := hatom.size
  omega

/-- The header's accesses stay in the buffer if and only if it lies there: the first index
behind the buffer does not wrap. -/
theorem header_reads_iff :
    (∀ k < 8, startIndex + BitVec.ofNat 32 k < bufSize) ↔
      startIndex.toNat + 8 ≤ bufSize.toNat := by
  have hn := bufSize.isLt
  constructor
  · intro h
    by_contra hout
    -- if the header begins in the buffer, one of its bytes is the first behind the buffer
    by_cases hs : startIndex.toNat < bufSize.toNat
    · have hk := h (bufSize.toNat - startIndex.toNat) (by omega)
      have hk' : (startIndex + BitVec.ofNat 32 (bufSize.toNat - startIndex.toNat)).toNat <
        bufSize.toNat := hk
      rw [BitVec.toNat_add, BitVec.toNat_ofNat] at hk'
      omega
    · have h0 := h 0 (by decide)
      have h0' : (startIndex + BitVec.ofNat 32 0).toNat < bufSize.toNat := h0
      rw [BitVec.toNat_add, BitVec.toNat_ofNat] at h0'
      have hs' := startIndex.isLt
      omega
  · intro h k hk
    show (startIndex + BitVec.ofNat 32 k).toNat < bufSize.toNat
    rw [BitVec.toNat_add, BitVec.toNat_ofNat]
    omega

/-- The two bytes at the index, and the loop up to it. -/
theorem crc_reads_iff (i start : Index) (crc : BitVec 16) :
    (i < bufSize ∧ i + 1 < bufSize ∧ (calcCrc16From buf i start crc).All (· < bufSize)) ↔
      i.toNat + 2 ≤ bufSize.toNat := by
  have hn := bufSize.isLt
  constructor
  · rintro ⟨hi, hi1, -⟩
    have hi' : (i + 1).toNat < bufSize.toNat := hi1
    -- the index of the first byte is below the size, so that of the second does not wrap
    rw [toNat_succ_of_lt hi] at hi'
    omega
  · intro h
    have hi : i < bufSize := by
      show i.toNat < bufSize.toNat
      omega
    refine ⟨hi, ?_, ?_⟩
    · show (i + 1).toNat < bufSize.toNat
      rw [toNat_succ_of_lt hi]
      omega
    · intro j hj
      have hji : j.toNat < i.toNat := calcCrc16From_all _ _ j hj
      show j.toNat < bufSize.toNat
      omega

theorem crcIndex_toNat (htwo : 2 ≤ (lengthAt buf startIndex).toNat)
    (hfits : startIndex.toNat + 8 + (lengthAt buf startIndex).toNat ≤ bufSize.toNat) :
    (crcIndex buf startIndex).toNat =
      startIndex.toNat + 6 + (lengthAt buf startIndex).toNat := by
  have hn := bufSize.isLt
  have hrest : (atomHeaderLength + lengthAt buf startIndex - 2).toNat =
      6 + (lengthAt buf startIndex).toNat := by
    rw [BitVec.toNat_sub, BitVec.toNat_add, show atomHeaderLength.toNat = 8 from rfl,
      show (2 : Index).toNat = 2 from rfl]
    omega
  rw [crcIndex, BitVec.toNat_add, hrest]
  omega

/-- An atom in the buffer is found exactly if its CRC is right. -/
theorem exact_of_fits (htwo : 2 ≤ (lengthAt buf startIndex).toNat)
    (hfits : startIndex.toNat + 8 + (lengthAt buf startIndex).toNat ≤ bufSize.toNat) :
    crc16 (bytes buf startIndex.toNat ((crcIndex buf startIndex).toNat - startIndex.toNat)) =
        storedCrc buf startIndex ↔
      HoldsAtom (contents buf bufSize) startIndex.toNat := by
  have hindex := crcIndex_toNat htwo hfits
  have hstored : (storedCrc buf startIndex).toNat =
      leNat (bytes buf (startIndex.toNat + 6 + (lengthAt buf startIndex).toNat) 2) := by
    have hof : crcIndex buf startIndex =
        BitVec.ofNat 32 (startIndex.toNat + 6 + (lengthAt buf startIndex).toNat) := by
      rw [← hindex, BitVec.ofNat_toNat, BitVec.setWidth_eq]
    rw [storedCrc, hof, readBuf16b_ofNat]
  have hlen : (crcIndex buf startIndex).toNat - startIndex.toNat =
      6 + (lengthAt buf startIndex).toNat := by omega
  rw [holdsAtom_iff (by omega), hlen, ← hstored]
  constructor
  · intro h
    exact ⟨⟨htwo, hfits⟩, by rw [h]⟩
  · rintro ⟨-, h⟩
    exact (BitVec.eq_of_toNat_eq h).symm

/-- No atom is rejected for the room behind its header. -/
theorem not_holdsAtom_of_short (hshort : startIndex + atomHeaderLength + 2 > bufSize) :
    ¬ HoldsAtom (contents buf bufSize) startIndex.toNat := by
  apply not_holdsAtom
  have h1 := toNat_add_le (startIndex + atomHeaderLength) 2
  have h2 := toNat_add_le startIndex atomHeaderLength
  have h3 : bufSize.toNat < (startIndex + atomHeaderLength + 2).toNat := hshort
  rw [show (2 : Index).toNat = 2 from rfl] at h1
  rw [show atomHeaderLength.toNat = 8 from rfl] at h2
  omega

/-- No atom is rejected for its length. -/
theorem not_holdsAtom_of_long (hheader : startIndex.toNat + 8 ≤ bufSize.toNat)
    (hlength : startIndex + lengthAt buf startIndex > bufSize) :
    ¬ HoldsAtom (contents buf bufSize) startIndex.toNat := by
  intro hatom
  have hfits := ((holdsAtom_iff hheader).mp hatom).1.2
  have hle := toNat_add_le startIndex (lengthAt buf startIndex)
  have hgt : bufSize.toNat < (startIndex + lengthAt buf startIndex).toNat := hlength
  omega

/-- **When an atom is parsed without leaving the buffer, and found exactly where there is
one.** -/
theorem bounded_iff (buf : Index → Byte) (startIndex bufSize : Index) (infoOut : AtomInfo) :
    Bounded buf startIndex bufSize infoOut ↔ Guarded buf startIndex bufSize := by
  have hreads : (parseAtomInfo buf startIndex bufSize infoOut).All (· < bufSize) ↔ _ :=
    parseAtomInfo_all _
  have hvalue : (parseAtomInfo buf startIndex bufSize infoOut).value.1 = true ↔ _ :=
    parseAtomInfo_value
  rw [header_reads_iff, crc_reads_iff] at hreads
  by_cases hshort : startIndex + atomHeaderLength + 2 > bufSize
  · have hnone : ¬ HoldsAtom (contents buf bufSize) startIndex.toNat :=
      not_holdsAtom_of_short hshort
    constructor
    · intro _
      exact Or.inl hshort
    · intro _
      exact ⟨hreads.mpr fun h => absurd hshort h,
        ⟨fun h => absurd hshort (hvalue.mp h).1, fun h => absurd h hnone⟩⟩
  · by_cases hheader : startIndex.toNat + 8 ≤ bufSize.toNat
    · by_cases hlength : startIndex + lengthAt buf startIndex > bufSize
      · have hnone := not_holdsAtom_of_long hheader hlength
        constructor
        · intro _
          exact Or.inr ⟨hheader, Or.inl hlength⟩
        · intro _
          exact ⟨hreads.mpr fun _ => ⟨hheader, fun h => absurd hlength h⟩,
            ⟨fun h => absurd hlength (hvalue.mp h).2.1, fun h => absurd h hnone⟩⟩
      · by_cases hfits : 2 ≤ (lengthAt buf startIndex).toNat ∧
            startIndex.toNat + 8 + (lengthAt buf startIndex).toNat ≤ bufSize.toNat
        · have hindex := crcIndex_toNat hfits.1 hfits.2
          have hexact := exact_of_fits hfits.1 hfits.2
          constructor
          · intro _
            exact Or.inr ⟨hheader, Or.inr (Or.inl hfits)⟩
          · intro _
            refine ⟨hreads.mpr fun _ => ⟨hheader, fun _ => by omega⟩, ?_⟩
            rw [hvalue, hexact]
            exact ⟨fun h => h.2.2, fun h => ⟨hshort, hlength, h⟩⟩
        · have hnone : ¬ HoldsAtom (contents buf bufSize) startIndex.toNat :=
            fun hatom => hfits ((holdsAtom_iff hheader).mp hatom).1
          constructor
          · intro h
            have hcrc := ((hreads.mp h.reads) hshort).2 hlength
            refine Or.inr ⟨hheader, Or.inr (Or.inr ⟨hcrc, fun heq => ?_⟩)⟩
            exact hnone (h.exact.mp (hvalue.mpr ⟨hshort, hlength, heq⟩))
          · rintro (h | ⟨-, h | h | ⟨hcrc, hne⟩⟩)
            · exact absurd h hshort
            · exact absurd h hlength
            · exact absurd h hfits
            · exact ⟨hreads.mpr fun _ => ⟨hheader, fun _ => hcrc⟩,
                ⟨fun h => absurd (hvalue.mp h).2.2 hne, fun h => absurd h hnone⟩⟩
    · constructor
      · intro h
        exact absurd ((hreads.mp h.reads) hshort).1 hheader
      · rintro (h | h)
        · exact absurd h hshort
        · exact absurd h.1 hheader

/-- Twelve bytes, of which the header says that as many follow it. -/
def overrunBuf : Index → Byte := fun i => if i = 4 then 12 else 0

theorem not_bounded_overrunBuf : ¬ Bounded overrunBuf 0 12 ⟨0, 0, 0, 0⟩ := by
  intro h
  have hreads := (parseAtomInfo_all _).mp h.reads (by decide)
  exact absurd (hreads.2 (by decide)).1 (by decide)

end SonataSystem.Hat
