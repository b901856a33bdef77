import SonataSystem.I2cDpi.Devices
import SonataSystem.Lib.Clocked

/-!
# Page writes of the ID EEPROM model

A write transaction gives an address in two bytes and then data, which goes to the page of
that address, round and round if there is more of it than the page holds. A read returns
bytes from the address on.

`page_writes_iff` says which transactions the model gets right. The test for the end of a page
looks at the bit above the offset, so that it works in the pages in which that bit is set
and in no other, and the count of the bytes that tells an address from data has 8 bits.

A write is compared store by store with the stores that the page asks for. Memory alone would be
too weak for the comparison: a byte that goes astray to a place which has the same value already
leaves no trace in it.
-/

set_option autoImplicit false

namespace SonataSystem.I2cDpi

open Lib

namespace HatId

/-! ## What a transaction is to do -/

/-- A transaction that begins with a START condition. -/
inductive Access
  | write (bytes : List Byte) | read (n : Nat)
  deriving DecidableEq

/-- Where byte `k` of a write to the address `a` goes. -/
def pageAddr (a : BitVec 16) (k : Nat) : BitVec 12 :=
  BitVec.ofNat 12 (a.toNat / 32 * 32 + (a.toNat % 32 + k) % 32)

/-- The stores of a write of `ds` to the address `a`, of which `k` bytes were written before. -/
def pageStores (a : BitVec 16) : Nat → List Byte → List (BitVec 12 × Byte)
  | _, [] => []
  | k, d :: ds => (pageAddr a k, d) :: pageStores a (k + 1) ds

/-- The memory after a list of stores, the later ones on top. -/
def store (m : BitVec 12 → Byte) : List (BitVec 12 × Byte) → BitVec 12 → Byte
  | [] => m
  | p :: ps => store (fun x => if x = p.1 then p.2 else m x) ps

/-! ## Transactions of the model -/

/-- A byte after another is written, as the bus hands them over. -/
def writeBytes (s : HatId) (bs : List Byte) : HatId :=
  bs.foldl (fun s b => (writeByte s b 0).2) s

/-- So many bytes read, and what is left of the device. -/
def readBytes : HatId → Nat → List Byte × HatId
  | s, 0 => ([], s)
  | s, n + 1 =>
    let r := readByte s 0 0 0
    let rest := readBytes r.dev n
    (r.outByte :: rest.1, rest.2)

/-- The stores that `writeByte` makes. -/
def storesOf : HatId → List Byte → List (BitVec 12 × Byte)
  | _, [] => []
  | s, b :: bs =>
    (if s.byteCount = 0 ∨ s.byteCount = 1 then [] else [(memIndex s, b)]) ++
      storesOf (writeByte s b 0).2 bs

/-- A transaction from its START on. -/
def transact (s : HatId) : Access → HatId
  | .write bytes => writeBytes (startCond s) bytes
  | .read n => (readBytes (startCond s) n).2

/-- Transactions one after the other, from any state. -/
def machine : Clocked HatId Access := ⟨fun _ => True, transact⟩

/-- A write stores its data in the page it addresses and changes no byte outside of it; a read
returns the bytes from the current address on. -/
def Conforms (s : HatId) : Access → Prop
  | .write (hi :: lo :: ds) =>
    storesOf (startCond s) (hi :: lo :: ds) = pageStores (hi ++ lo) 0 ds ∧
    (transact s (.write (hi :: lo :: ds))).mem = store s.mem (pageStores (hi ++ lo) 0 ds) ∧
    ∀ x : BitVec 12, x.toNat / 32 ≠ (hi ++ lo).toNat % 4096 / 32 →
      (transact s (.write (hi :: lo :: ds))).mem x = s.mem x
  | .write bytes => (transact s (.write bytes)).mem = s.mem
  | .read n =>
    (readBytes (startCond s) n).1 =
      (List.range n).map (fun k => s.mem (BitVec.ofNat 12 (s.currAddr.toNat + k))) ∧
    (transact s (.read n)).mem = s.mem

/-- Not more than one byte of data, or a page with an odd number and data that the count of
bytes can take. -/
def InPage : Access → Prop
  | .write (hi :: lo :: ds) =>
    ds.length ≤ 1 ∨ (hi ++ lo).toNat / 32 % 2 = 1 ∧ ds.length ≤ 254
  | .write _ => True
  | .read _ => True

instance : ∀ acc : Access, Decidable (InPage acc)
  | .write (_ :: _ :: _) => inferInstanceAs (Decidable (_ ∨ _ ∧ _))
  | .write [] | .write [_] | .read _ => isTrue trivial

/-! ## Stores -/

variable {s : HatId} {a : BitVec 16}

theorem writeBytes_cons (s : HatId) (b : Byte) (bs : List Byte) :
    writeBytes s (b :: bs) = writeBytes (writeByte s b 0).2 bs := rfl

theorem written_data {b : Byte} (h : ¬ (s.byteCount = 0 ∨ s.byteCount = 1)) :
    written s b = { s with
      mem := fun x => if x = memIndex s then b else s.mem x, currAddr := nextAddr s.currAddr } := by
  rw [written, if_neg fun h0 => h (Or.inl h0), if_neg fun h1 => h (Or.inr h1)]

theorem written_address {b : Byte} (h : s.byteCount = 0 ∨ s.byteCount = 1) :
    (written s b).mem = s.mem := by
  unfold written
  rcases h with h0 | h1
  · rw [if_pos h0]
  · rw [h1, if_neg (by decide), if_pos rfl]

theorem mem_writeBytes (bs : List Byte) (s : HatId) :
    (writeBytes s bs).mem = store s.mem (storesOf s bs) := by
  induction bs generalizing s with
  | nil => rfl
  | cons b bs ih =>
    rw [writeBytes_cons, ih, storesOf]
    by_cases h : s.byteCount = 0 ∨ s.byteCount = 1
    · rw [if_pos h, List.nil_append]
      show store (written s b).mem _ = _
      rw [written_address h]
    · rw [if_neg h, List.singleton_append]
      show store (written s b).mem _ = _
      rw [written_data h]
      rfl

theorem storesOf_append (bs cs : List Byte) (s : HatId) :
    storesOf s (bs ++ cs) = storesOf s bs ++ storesOf (writeBytes s bs) cs := by
  induction bs generalizing s with
  | nil => rfl
  | cons b bs ih =>
    rw [List.cons_append, storesOf, ih, storesOf, List.append_assoc]
    rfl

theorem length_storesOf_le (bs : List Byte) (s : HatId) :
    (storesOf s bs).length ≤ bs.length := by
  induction bs generalizing s with
  | nil => exact Nat.le_refl 0
  | cons b bs ih =>
    have hle := ih (writeByte s b 0).2
    rw [storesOf, List.length_append, List.length_cons]
    split
    · simp only [List.length_nil]
      omega
    · simp only [List.length_singleton]
      omega

theorem byteCount_writeBytes (bs : List Byte) (s : HatId) :
    (writeBytes s bs).byteCount = s.byteCount + BitVec.ofNat 8 bs.length := by
  induction bs generalizing s with
  | nil => simp [writeBytes]
  | cons b bs ih =>
    rw [writeBytes_cons, ih, List.length_cons, Nat.add_comm, BitVec.ofNat_add, ← BitVec.add_assoc]
    rfl

theorem length_pageStores (ds : List Byte) (k : Nat) :
    (pageStores a k ds).length = ds.length := by
  induction ds generalizing k with
  | nil => rfl
  | cons d ds ih => rw [pageStores, List.length_cons, ih, List.length_cons]

theorem store_of_not_mem {m : BitVec 12 → Byte} {x : BitVec 12} :
    ∀ {ps : List (BitVec 12 × Byte)}, (∀ p ∈ ps, p.1 ≠ x) → store m ps x = m x := by
  intro ps
  induction ps generalizing m with
  | nil => intro _; rfl
  | cons p ps ih =>
    intro h
    have hx : x ≠ p.1 := fun he => h p List.mem_cons_self he.symm
    rw [store, ih fun q hq => h q (List.mem_cons_of_mem _ hq)]
    exact if_neg hx

theorem pageAddr_toNat (a : BitVec 16) (k : Nat) :
    (pageAddr a k).toNat / 32 = a.toNat % 4096 / 32 := by
  rw [pageAddr, BitVec.toNat_ofNat]
  omega

theorem pageStores_in_page {ds : List Byte} {k : Nat} :
    ∀ p ∈ pageStores a k ds, p.1.toNat / 32 = a.toNat % 4096 / 32 := by
  induction ds generalizing k with
  | nil => intro p hp; cases hp
  | cons d ds ih =>
    intro p hp
    rcases List.mem_cons.mp hp with rfl | hp
    · exact pageAddr_toNat a k
    · exact ih p hp

theorem store_outside_page {m : BitVec 12 → Byte} {ds : List Byte} {x : BitVec 12}
    (hx : x.toNat / 32 ≠ a.toNat % 4096 / 32) : store m (pageStores a 0 ds) x = m x := by
  apply store_of_not_mem
  intro p hp he
  apply hx
  rw [← he]
  exact pageStores_in_page p hp

/-! ## Addresses -/

/-- The test of `nextAddr` asks for the bit above the offset. -/
theorem nextAddr_eq (a : BitVec 16) :
    nextAddr a = if (a + 1).toNat / 32 % 2 = 0 then a + 1 - 32 else a + 1 := by
  -- The page size is a power of two, and the mask with it tests one bit: the lowest of the page
  -- number.
  have hbit : ((a + 1) &&& kPageSize = 0) ↔ (a + 1).toNat / 32 % 2 = 0 := by
    have hsize : kPageSize = BitVec.twoPow 16 5 := by decide
    have hne : BitVec.twoPow 16 5 ≠ 0 := by decide
    have htest : (a + 1).getLsbD 5 = decide ((a + 1).toNat / 32 % 2 = 1) :=
      Nat.testBit_eq_decide_div_mod_eq
    rw [hsize, BitVec.and_twoPow, htest]
    rcases Nat.mod_two_eq_zero_or_one ((a + 1).toNat / 32) with h | h
    · have hclear : decide ((a + 1).toNat / 32 % 2 = 1) = false := by
        rw [h]
        rfl
      rw [hclear, if_neg Bool.false_ne_true]
      exact ⟨fun _ => h, fun _ => rfl⟩
    · have hset : decide ((a + 1).toNat / 32 % 2 = 1) = true := by
        rw [h]
        rfl
      rw [hset, if_pos rfl]
      refine ⟨fun h0 => absurd h0 hne, fun h0 => ?_⟩
      rw [h] at h0
      cases h0
  unfold nextAddr
  simp only [hbit]
  rfl

theorem succ_toNat (a : BitVec 16) : (a + 1).toNat = (a.toNat + 1) % 65536 := by
  rw [BitVec.toNat_add]
  rfl

theorem nextAddr_toNat (a : BitVec 16) :
    (nextAddr a).toNat = if (a.toNat + 1) % 65536 / 32 % 2 = 0 then (a.toNat + 65505) % 65536
      else (a.toNat + 1) % 65536 := by
  have hlt := a.isLt
  have h32 : (32 : BitVec 16).toNat = 32 := rfl
  rw [nextAddr_eq, succ_toNat]
  split
  · rw [BitVec.toNat_sub, succ_toNat, h32]
    omega
  · exact succ_toNat a

/-- In a page with an odd number the address goes round. -/
theorem nextAddr_in_odd_page (h : a.toNat / 32 % 2 = 1) {c : BitVec 16} {k : Nat}
    (hc : c.toNat = a.toNat / 32 * 32 + (a.toNat % 32 + k) % 32) :
    (nextAddr c).toNat = a.toNat / 32 * 32 + (a.toNat % 32 + (k + 1)) % 32 := by
  have hlt := a.isLt
  rw [nextAddr_toNat, hc]
  split <;> omega

/-- In one with an even number the second byte goes astray. -/
theorem nextAddr_in_even_page (h : a.toNat / 32 % 2 = 0) :
    (nextAddr a).setWidth 12 ≠ pageAddr a 1 := by
  intro he
  have hlt := a.isLt
  have hnat := congrArg BitVec.toNat he
  rw [pageAddr, BitVec.toNat_setWidth, BitVec.toNat_ofNat, nextAddr_toNat] at hnat
  split at hnat <;> omega

theorem append_bytes (hi lo : Byte) :
    (hi.setWidth 16 <<< 8 ||| lo.setWidth 16 : BitVec 16) = hi ++ lo := by
  apply BitVec.eq_of_getLsbD_eq
  intro i hlt
  rw [BitVec.getLsbD_or, BitVec.getLsbD_shiftLeft, BitVec.getLsbD_append, BitVec.getLsbD_setWidth,
    BitVec.getLsbD_setWidth]
  by_cases h8 : i < 8
  · simp [h8, hlt]
  · have hlo : lo.getLsbD i = false := BitVec.getLsbD_of_ge _ _ (by omega)
    have hsub : i - 8 < 16 := by omega
    simp [h8, hlt, hlo, hsub]

/-! ## Writes -/

/-- The state in which the first byte of the data comes. -/
def addressed (s : HatId) (a : BitVec 16) : HatId := { s with byteCount := 2, currAddr := a }

theorem writeByte_address (s : HatId) (hi lo : Byte) :
    (writeByte (writeByte (startCond s) hi 0).2 lo 0).2 = addressed s (hi ++ lo) := by
  rw [← append_bytes]
  rfl

theorem storesOf_address (s : HatId) (hi lo : Byte) (ds : List Byte) :
    storesOf (startCond s) (hi :: lo :: ds) = storesOf (addressed s (hi ++ lo)) ds := by
  rw [← writeByte_address]
  rfl

/-- Data in a page with an odd number. -/
theorem storesOf_odd_page (h : a.toNat / 32 % 2 = 1) :
    ∀ (ds : List Byte) (k : Nat) (s : HatId), s.byteCount = BitVec.ofNat 8 (2 + k) →
      k + ds.length ≤ 254 →
      s.currAddr.toNat = a.toNat / 32 * 32 + (a.toNat % 32 + k) % 32 →
      storesOf s ds = pageStores a k ds := by
  intro ds
  induction ds with
  | nil => intro _ _ _ _ _; rfl
  | cons d ds ih =>
    intro k s hcount hlen haddr
    rw [List.length_cons] at hlen
    -- Up to 254 bytes of data the count is above one and has not come round, so that the byte is
    -- taken for data.
    have hcount' : s.byteCount.toNat = 2 + k := by
      rw [hcount, BitVec.toNat_ofNat]
      omega
    have hdata : ¬ (s.byteCount = 0 ∨ s.byteCount = 1) := by
      rintro (h0 | h1)
      · have hz := congrArg BitVec.toNat h0
        have hz' : (0 : BitVec 8).toNat = 0 := rfl
        omega
      · have ho := congrArg BitVec.toNat h1
        have ho' : (1 : BitVec 8).toNat = 1 := rfl
        omega
    have hidx : memIndex s = pageAddr a k := by
      apply BitVec.eq_of_toNat_eq
      rw [memIndex, pageAddr, BitVec.toNat_setWidth, BitVec.toNat_ofNat, haddr]
    have hnext : (writeByte s d 0).2.currAddr = nextAddr s.currAddr := by
      show (written s d).currAddr = _
      rw [written_data hdata]
    have hsucc : (writeByte s d 0).2.byteCount = BitVec.ofNat 8 (2 + (k + 1)) := by
      show s.byteCount + 1 = _
      rw [hcount, ← Nat.add_assoc, BitVec.ofNat_add (2 + k) 1]
      rfl
    rw [storesOf, if_neg hdata, List.singleton_append, pageStores, hidx]
    congr 1
    apply ih (k + 1) _ hsucc (by omega)
    rw [hnext]
    exact nextAddr_in_odd_page h haddr

theorem storesOf_single (s : HatId) (d : Byte) :
    storesOf (addressed s a) [d] = pageStores a 0 [d] := by
  have hidx : (a.setWidth 12 : BitVec 12) = pageAddr a 0 := by
    apply BitVec.eq_of_toNat_eq
    rw [pageAddr, BitVec.toNat_setWidth, BitVec.toNat_ofNat]
    omega
  rw [pageStores, ← hidx]
  rfl

/-- The 255th byte of the data is taken for the first of an address. -/
theorem length_storesOf_lt (s : HatId) (ds : List Byte) (hlen : 255 ≤ ds.length) :
    (storesOf (addressed s a) ds).length < ds.length := by
  have hsplit : ds = ds.take 254 ++ ds.drop 254 := (List.take_append_drop 254 ds).symm
  have htake : (ds.take 254).length = 254 := List.length_take_of_le (by omega)
  have hcount : (writeBytes (addressed s a) (ds.take 254)).byteCount = 0 := by
    rw [byteCount_writeBytes, htake]
    show (2 : BitVec 8) + BitVec.ofNat 8 254 = 0
    decide
  cases hd : ds.drop 254 with
  | nil =>
    have hle := List.drop_eq_nil_iff.mp hd
    omega
  | cons d rest =>
    have hle := length_storesOf_le (ds.take 254) (addressed s a)
    have hlr := length_storesOf_le rest
      (writeByte (writeBytes (addressed s a) (ds.take 254)) d 0).2
    have hall : ds.length = 254 + (rest.length + 1) := by
      rw [hsplit, List.length_append, htake, hd, List.length_cons]
    rw [hsplit, storesOf_append, hd, storesOf, if_pos (Or.inl hcount), List.nil_append,
      List.length_append, List.length_append, List.length_cons]
    omega

theorem storesOf_eq_iff (s : HatId) (ds : List Byte) :
    storesOf (addressed s a) ds = pageStores a 0 ds ↔
      ds.length ≤ 1 ∨ a.toNat / 32 % 2 = 1 ∧ ds.length ≤ 254 := by
  constructor
  · intro h
    have hlen : ds.length ≤ 254 := by
      by_contra hlong
      have hlt := length_storesOf_lt (a := a) s ds (by omega)
      rw [h, length_pageStores] at hlt
      exact Nat.lt_irrefl _ hlt
    -- In an even page the second byte of data already goes to another page.
    rcases Nat.mod_two_eq_zero_or_one (a.toNat / 32) with heven | hodd
    · left
      by_contra hlong
      obtain ⟨d0, d1, rest, rfl⟩ : ∃ d0 d1 rest, ds = d0 :: d1 :: rest := by
        cases ds with
        | nil => simp at hlong
        | cons d0 ds =>
          cases ds with
          | nil => simp at hlong
          | cons d1 rest => exact ⟨d0, d1, rest, rfl⟩
      have hcons : storesOf (addressed s a) (d0 :: d1 :: rest) =
          (a.setWidth 12, d0) :: ((nextAddr a).setWidth 12, d1) ::
            storesOf (writeByte (writeByte (addressed s a) d0 0).2 d1 0).2 rest := rfl
      rw [hcons, pageStores, pageStores] at h
      simp only [List.cons.injEq, Prod.mk.injEq] at h
      exact nextAddr_in_even_page heven h.2.1.1
    · exact Or.inr ⟨hodd, hlen⟩
  · rintro (hshort | ⟨hodd, hlen⟩)
    · cases ds with
      | nil => rfl
      | cons d ds =>
        have hnil : ds = [] := List.length_eq_zero_iff.mp (by
          rw [List.length_cons] at hshort
          omega)
        rw [hnil]
        exact storesOf_single s d
    · apply storesOf_odd_page hodd ds 0 _ rfl (by omega)
      show a.toNat = _
      omega

/-! ## Reads -/

theorem readBytes_eq (n : Nat) (s : HatId) :
    (readBytes s n).1 =
        (List.range n).map (fun k => s.mem (BitVec.ofNat 12 (s.currAddr.toNat + k))) ∧
      (readBytes s n).2.mem = s.mem := by
  induction n generalizing s with
  | zero => exact ⟨rfl, rfl⟩
  | succ n ih =>
    obtain ⟨hbytes, hmem⟩ := ih { s with currAddr := s.currAddr + 1 }
    refine ⟨?_, hmem⟩
    have hidx : memIndex s = BitVec.ofNat 12 (s.currAddr.toNat + 0) := by
      apply BitVec.eq_of_toNat_eq
      rw [memIndex, BitVec.toNat_setWidth, BitVec.toNat_ofNat]
      rfl
    have hstep (k : Nat) : BitVec.ofNat 12 ((s.currAddr + 1).toNat + k) =
        BitVec.ofNat 12 (s.currAddr.toNat + (k + 1)) := by
      apply BitVec.eq_of_toNat_eq
      rw [BitVec.toNat_ofNat, BitVec.toNat_ofNat, succ_toNat]
      omega
    show s.mem (memIndex s) :: (readBytes { s with currAddr := s.currAddr + 1 } n).1 = _
    rw [hbytes, List.range_succ_eq_map, List.map_cons, List.map_map, hidx]
    congr 1
    apply List.map_congr_left
    intro k _
    exact congrArg s.mem (hstep k)

/-! ## Transactions -/

theorem conforms_write_iff (s : HatId) (hi lo : Byte) (ds : List Byte) :
    Conforms s (.write (hi :: lo :: ds)) ↔ InPage (.write (hi :: lo :: ds)) := by
  show storesOf (startCond s) (hi :: lo :: ds) = pageStores (hi ++ lo) 0 ds ∧ _ ∧ _ ↔
    ds.length ≤ 1 ∨ (hi ++ lo).toNat / 32 % 2 = 1 ∧ ds.length ≤ 254
  rw [storesOf_address, ← storesOf_eq_iff s]
  constructor
  · intro h
    exact h.1
  · intro h
    have hmem : (transact s (.write (hi :: lo :: ds))).mem =
        store s.mem (pageStores (hi ++ lo) 0 ds) := by
      show (writeBytes (startCond s) (hi :: lo :: ds)).mem = _
      rw [mem_writeBytes, storesOf_address, h]
      rfl
    refine ⟨h, hmem, ?_⟩
    intro x hx
    rw [hmem]
    exact store_outside_page hx

theorem conforms_iff_inPage (s : HatId) (acc : Access) : Conforms s acc ↔ InPage acc := by
  cases acc with
  | read n =>
    obtain ⟨hbytes, hmem⟩ := readBytes_eq n (startCond s)
    exact ⟨fun _ => trivial, fun _ => ⟨hbytes, hmem⟩⟩
  | write bytes =>
    have short (hlen : bytes.length ≤ 1) : (transact s (.write bytes)).mem = s.mem := by
      show (writeBytes (startCond s) bytes).mem = s.mem
      cases bytes with
      | nil => rfl
      | cons b bs =>
        have hnil : bs = [] := List.length_eq_zero_iff.mp (by
          rw [List.length_cons] at hlen
          omega)
        rw [hnil]
        rfl
    cases bytes with
    | nil => exact ⟨fun _ => trivial, fun _ => short (by simp)⟩
    | cons hi bytes =>
      cases bytes with
      | nil => exact ⟨fun _ => trivial, fun _ => short (by simp)⟩
      | cons lo ds => exact conforms_write_iff s hi lo ds

/-- **Page writes.** A sequence of transactions is carried out as it should be if and only if
each write of more than one byte of data is to a page with an odd number and has at most 254;
and after a write of an address alone a read returns the bytes stored from there on. -/
theorem page_writes_iff (s : HatId) (accs : List Access) :
    (machine.Always Conforms s accs ↔ ∀ acc ∈ accs, InPage acc) ∧
    ∀ (t : HatId) (hi lo : Byte) (n : Nat),
      (readBytes (startCond (transact t (.write [hi, lo]))) n).1 =
        (List.range n).map (fun k => t.mem (BitVec.ofNat 12 ((hi ++ lo).toNat + k))) := by
  constructor
  · induction accs generalizing s with
    | nil => simp
    | cons acc accs ih =>
      show Conforms s acc ∧ machine.Always Conforms (transact s acc) accs ↔ _
      rw [conforms_iff_inPage, ih, List.forall_mem_cons]
  · intro t hi lo n
    have haddr : transact t (.write [hi, lo]) = addressed t (hi ++ lo) := writeByte_address t hi lo
    rw [haddr]
    exact (readBytes_eq n (startCond (addressed t (hi ++ lo)))).1

/-! ## The two defects -/

def blank : HatId := ⟨0, 0, fun _ => 0⟩

/-- The second of two bytes written to address 0 goes to address 0xfe1; the last of 255 written
to address 32 is not stored. -/
theorem not_conforms_strayWrites :
    (transact blank (.write [0, 0, 1, 2])).mem 1 = 0 ∧
    (transact blank (.write [0, 0, 1, 2])).mem 0xfe1 = 2 ∧
    ¬ machine.Always Conforms blank [.write [0, 0, 1, 2]] ∧
    ¬ machine.Always Conforms blank [.write ([0, 32] ++ List.replicate 255 3)] := by
  refine ⟨by decide, by decide, ?_, ?_⟩
  · intro h
    exact absurd ((conforms_iff_inPage _ _).mp h.1) (by decide)
  · intro h
    exact absurd ((conforms_iff_inPage _ _).mp h.1) (by decide +kernel)

end HatId

end SonataSystem.I2cDpi
