import SonataSystem.Boot.Loading
import SonataSystem.Storage.FlashStore

/-!
# Booting from the flash

The flash of the boot loader is no longer a function that answers: it is the model of the
device, read through the driver and the pins. Whatever the driver has done before, an image
that the memory then holds is loaded, and the reads of the loader, made on the wire one after
the other, bring what they brought it.

A function that answers has no state, and a flash does: it is read again and again, and each read
leaves it changed. That the reads may be taken one by one rests on the flash being idle after each
of them, with the memory it had.
-/

set_option autoImplicit false

namespace SonataSystem.Boot

open Lib SpiDpi Storage FlashDriver SonataSpi

/-- The contents at an address, 0xff beyond the end. -/
abbrev contents (mem : Mem) : Word → Byte := SpiFlash.load mem

/-- What is read after some bytes were written, from pins in some state. -/
def wireSpi [SonataSpi] (copiIdle : Bool) (p : SpiPins SpiFlash) : Spi where
  exchange cmd len :=
    let x : Driver (List Byte) := do
      setCs true
      blockingWrite cmd
      let dataOut ← blockingRead copiIdle len.toNat
      setCs false
      pure dataOut
    (x.run (bitPort SpiFlash.overrides) p).elim [] Prod.fst

theorem readCmd_eq (address : Word) : readCmd address = addressCmd cmdReadData4Addr address := by
  have hbyte (n : Nat) : address.extractLsb' n 8 = (address >>> n).setWidth 8 := by
    apply BitVec.eq_of_toNat_eq
    rw [BitVec.extractLsb'_toNat, BitVec.toNat_setWidth, BitVec.toNat_ushiftRight]
  unfold readCmd addressCmd
  rw [hbyte, hbyte, hbyte, hbyte]
  rfl

theorem bytesAt_contents (mem : Mem) (address : Word) (n : Nat) :
    bytesAt (contents mem) address n = loadAll mem address n := by
  rw [bytesAt, addresses, List.map_map]
  rfl

/-- Pins between two functions of the driver. -/
def Rests (mem : Mem) (jedecId : BitVec 32) (p : SpiPins SpiFlash) : Prop :=
  ∃ l, Represents SpiFlash.overrides false p l ∧ FlashDriver.Resting mem jedecId l

variable {mem : Mem} {jedecId : BitVec 32} {p : SpiPins SpiFlash} {copiIdle : Bool}

theorem wireSpi_answers [SonataSpi] [Documented] (hp : Rests mem jedecId p) :
    (wireSpi copiIdle p).Answers (contents mem) := by
  intro address len hlen
  obtain ⟨l, hrep, hl⟩ := hp
  have hcount : len.toNat ≤ startByteCountMask := hlen
  obtain ⟨l', hrun, -⟩ := run_read hl address hcount
  obtain ⟨p', hpins, -⟩ := Prog.run_of_sim (sim_lanePort SpiFlash.steady false nofun) hrep hrun
  rw [FlashDriver.read, ← readCmd_eq] at hpins
  rw [bytesAt_contents]
  exact congrArg (Option.elim · [] Prod.fst) hpins

/-- The reads of a loader, made by the driver. -/
def rereads (requests : List (Word × Word)) : List FlashDriver.Operation :=
  requests.map fun r => .read r.1 (r.2.setWidth 11)

theorem results_rereads {requests : List (Word × Word)} (h : ∀ r ∈ requests, r.2.toNat ≤ 1024) :
    results mem jedecId (rereads requests) =
      requests.map fun r => bytesAt (contents mem) r.1 r.2.toNat := by
  induction requests with
  | nil => rfl
  | cons r rs ih =>
    have hlen : (r.2.setWidth 11).toNat = r.2.toNat := by
      have hr := h r List.mem_cons_self
      rw [BitVec.toNat_setWidth, Nat.mod_eq_of_lt (by omega)]
    have hrest := ih fun q hq => h q (List.mem_cons_of_mem r hq)
    rw [List.map_cons, ← hrest, bytesAt_contents, ← hlen]
    rfl

/-- **Booting over the wire.** From the pins of a new flash, after any functions of the driver:
an image that the memory then holds is loaded, and the requests of the loader, made one after
the other, bring the bytes of the memory. -/
theorem boots_from_pins [SonataSpi] [Documented] {c : SpiFlash}
    (hc : CreatedWith mem jedecId c) {fuel : Nat} (hfuel : 0 < fuel)
    (before : List FlashDriver.Operation) {cheri : Cheri} (hcheri : cheri.Lawful)
    {input addr : Word}
    (hslot : softwareSlots.getD (readSelectedSoftwareSlot input) 0 = addr)
    (haccepted : Accepted (contents (applyAll mem before)) addr cheri)
    (hfile : ∀ phdr ∈ loads (contents (applyAll mem before)) addr, phdr.pFilesz ≤ phdr.pMemsz)
    (hapart : (loads (contents (applyAll mem before)) addr).Pairwise Phdr.Apart)
    (ram : Word → Byte) :
    ∃ p s p', (performAll copiIdle fuel before).run (bitPort SpiFlash.overrides) (.created c) =
        some (results mem jedecId before, p) ∧
      romLoaderEntry cheri (wireSpi copiIdle p) input ⟨ram, [], []⟩ =
        .ok ((elfHeader (contents (applyAll mem before)) addr).eEntry, s) ∧
      Loaded (contents (applyAll mem before)) addr ram s ∧
      (performAll copiIdle fuel (rereads s.requests)).run (bitPort SpiFlash.overrides) p =
        some (s.requests.map fun r => bytesAt (contents (applyAll mem before)) r.1 r.2.toNat,
          p') := by
  -- `l` is the state of the device behind the pins after what the driver did before.
  obtain ⟨p, l, hrun, hrep, hl⟩ := run_created hfuel hc before
  obtain ⟨s, hboot, hloaded⟩ := romLoaderEntry_loaded hcheri (wireSpi_answers ⟨l, hrep, hl⟩) hslot
    haccepted hfile hapart ram
  -- The reads of the loader once more, now one after the other on the wire.
  obtain ⟨l', hreads, -⟩ := run_performAll hfuel hl (rereads s.requests)
  obtain ⟨p', hpins, -⟩ := Prog.run_of_sim (sim_lanePort SpiFlash.steady false nofun) hrep hreads
  rw [results_rereads hloaded.short] at hpins
  exact ⟨p, s, p', hrun, hboot, hloaded, hpins⟩

/-- A flash with the image of two segments in its second slot. -/
def twoSegmentsFlash : SpiFlash :=
  ⟨0, 0, 0, 0, false, false, false, 0, fun _ => 0, 0, 0, fun _ => 0, 0,
    fun x => flashOf twoSegments (x.setWidth 32), 0xef4019⟩

theorem contents_twoSegmentsFlash : contents twoSegmentsFlash.mem = flashOf twoSegments := by
  funext a
  show (if a < SpiFlash.kFlashBytes then flashOf twoSegments ((a.setWidth 25).setWidth 32)
    else 0xff) = flashOf twoSegments a
  by_cases ha : a < SpiFlash.kFlashBytes
  · have hlt : a.toNat < 2 ^ 25 := ha
    have hsame : (a.setWidth 25).setWidth 32 = a := by
      apply BitVec.eq_of_toNat_eq
      rw [BitVec.toNat_setWidth, BitVec.toNat_setWidth]
      omega
    rw [if_pos ha, hsame]
  · have hge : ¬ a.toNat < 2 ^ 25 := ha
    have hslot : secondSlot.toNat = 10485760 := rfl
    have hlen : twoSegments.length = 1650 := by simp [twoSegments]
    have hout : twoSegments.length ≤ (a - secondSlot).toNat := by
      have hlt := a.isLt
      rw [BitVec.toNat_sub, hslot, hlen]
      omega
    rw [if_neg ha, flashOf, List.getD_eq_getElem?_getD, List.getElem?_eq_none hout]
    rfl

theorem boots_twoSegments :
    letI := generic
    ∃ p s p', (performAll false 1 [.reset]).run (bitPort SpiFlash.overrides)
        (.created twoSegmentsFlash.reset) = some ([[]], p) ∧
      romLoaderEntry exactCheri (wireSpi false p) 0x4000 ⟨fun _ => 0xff, [], []⟩ =
        .ok ((elfHeader (contents twoSegmentsFlash.mem) secondSlot).eEntry, s) ∧
      Loaded (contents twoSegmentsFlash.mem) secondSlot (fun _ => 0xff) s ∧
      (performAll false 1 (rereads s.requests)).run (bitPort SpiFlash.overrides) p =
        some (s.requests.map fun r => bytesAt (contents twoSegmentsFlash.mem) r.1 r.2.toNat,
          p') := by
  refine @boots_from_pins _ _ _ generic documented_generic _
    ⟨twoSegmentsFlash, rfl, rfl, rfl, rfl⟩ 1 Nat.one_pos [.reset] exactCheri exactCheri_lawful
    0x4000 secondSlot (by decide) ?_ ?_ ?_ _ <;>
    rw [show applyAll twoSegmentsFlash.mem [.reset] = twoSegmentsFlash.mem from rfl,
      contents_twoSegmentsFlash]
  · exact accepted_twoSegments
  · rw [loads_twoSegments]
    decide
  · rw [loads_twoSegments, List.pairwise_pair]
    rintro x ⟨hlo, hhi⟩ ⟨hlo', -⟩
    have hend : (0x101000 : Word).toNat + (1600 : Word).toNat < (0x40000000 : Word).toNat := by
      decide
    exact Nat.lt_irrefl _ ((hlo'.trans_lt hhi).trans hend)

end SonataSystem.Boot
