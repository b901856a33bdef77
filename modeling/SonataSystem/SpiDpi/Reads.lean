import SonataSystem.SpiDpi.Commands

/-!
# Reads

After the last byte of a read command the memory comes out, byte by byte. The first bit of a
byte is launched by the edge that ends the byte before, so that a byte that comes in takes the
rest of one byte and the first bit of the next with it (`Reading.byte`).

The bytes that the host sends while it reads are commands to the flash. They are harmless if they
are no command with an address and no reset (`Idle`), as the bytes of the driver are.
-/

set_option autoImplicit false

namespace SonataSystem.SpiDpi

open Lib

variable {s : SpiFlash} {mem : Mem}

/-- A byte that does nothing when it comes in during a read. -/
def Idle (v : Byte) : Prop := SpiFlash.access v = none ∧ v ≠ SpiFlash.cmdReset

/-- A read is going on: the first bit of a byte is out, and the rest of it is to be sent. -/
structure Reading (mem : Mem) (addr : BitVec 32) (s : SpiFlash) : Prop where
  outBits : s.outBits = 7
  outByte : s.outByte = SpiFlash.load mem addr <<< 1
  inBits : s.inBits = 0
  programming : s.bProgramming = false
  reading : s.bReading = true
  cmdLen : s.cmdLen = 0
  memOffset : s.memOffset = addr + 1
  mem : s.mem = mem

/-- The next byte is launched. -/
theorem Reading.launch {addr : BitVec 32} (hmem : s.mem = mem) (hin : s.inBits = 0)
    (hp : s.bProgramming = false) (hr : s.bReading = true) (hlen : s.cmdLen = 0)
    (hbits : s.outBits = 0) (hoff : s.memOffset = addr) :
    Reading mem addr (s.launchEdge false).1 ∧
      (s.launchEdge false).2 = (SpiFlash.load mem addr).msb := by
  have hread : s.readByte = (true, s.fetched) := if_pos hr
  have hload : s.fetched.outByte = SpiFlash.load mem addr := by
    change SpiFlash.load s.mem s.memOffset = _
    rw [hmem, hoff]
  rw [DevRel.launch_next s hbits, hread]
  dsimp only
  rw [hload]
  exact ⟨⟨(by decide : (8 : BitVec 8) - 1 = 7), rfl, hin, hp, hr, hlen,
    congrArg (· + 1) hoff, hmem⟩, rfl⟩

/-- The flash with so many bits to send. -/
def SpiFlash.sending (s : SpiFlash) (o : Byte) (n : Nat) : SpiFlash :=
  { s with outByte := o, outBits := BitVec.ofNat 8 n }

theorem launch_sending (s : SpiFlash) (o : Byte) {n : Nat} (h : n + 1 < 8) :
    (s.sending o (n + 1)).launchEdge false = (s.sending (o <<< 1) n, o.msb) := by
  have hne : (s.sending o (n + 1)).outBits ≠ 0 := by
    intro heq
    have hnat := congrArg BitVec.toNat heq
    change (BitVec.ofNat 8 (n + 1)).toNat = 0 at hnat
    rw [BitVec.toNat_ofNat, Nat.mod_eq_of_lt (by omega)] at hnat
    omega
  have hsub : BitVec.ofNat 8 (n + 1) - 1 = BitVec.ofNat 8 n := by
    rw [BitVec.ofNat_add]
    exact BitVec.add_sub_cancel ..
  rw [DevRel.launch_more _ hne]
  unfold SpiFlash.sending
  dsimp only
  rw [hsub]

/-- Bits come in while the bits of a byte are sent. -/
theorem sends_sending (s : SpiFlash) (bs cs : List Bool) (o : Byte)
    (hlen : bs.length + cs.length < 8) :
    ∃ o', Sends ((s.sending o cs.length).shifted bs) (cs.flatMap clock)
      ((s.sending o' 0).shifted (bs ++ cs)) ((serial true o).take cs.length) := by
  induction cs generalizing bs o with
  | nil =>
    rw [List.append_nil]
    exact ⟨o, .nil⟩
  | cons c cs ih =>
    rw [List.length_cons] at hlen
    obtain ⟨o', hrest⟩ := ih (bs ++ [c]) (o <<< 1)
      (by rw [List.length_append, List.length_singleton]; omega)
    refine ⟨o', ?_⟩
    have hlaunch : ((s.sending o (cs.length + 1)).shifted (bs ++ [c])).launchEdge false =
        ((s.sending (o <<< 1) cs.length).shifted (bs ++ [c]), o.msb) :=
      launch_sending (s.shifted (bs ++ [c])) o (by omega)
    have hone := Sends.clock ((s.sending o (cs.length + 1)).shifted bs) c
    rw [sample_shifted (by omega), hlaunch] at hone
    rw [List.append_assoc] at hrest
    have hall := hone.append hrest
    have htake := take_serial_shiftConcat o false (k := cs.length) (by omega)
    rw [shiftConcat_false] at htake
    rw [List.length_cons, htake]
    exact hall

/-- What comes in does not matter. -/
theorem received_idle {v : Byte} (hv : Idle v) (hp : s.bProgramming = false)
    (hlen : s.cmdLen = 0) :
    (s.received v).mem = s.mem ∧ (s.received v).bProgramming = false ∧
      (s.received v).bReading = s.bReading ∧ (s.received v).bErasing = s.bErasing ∧
      (s.received v).cmdLen = 0 ∧ (s.received v).outBits = s.outBits ∧
      (s.received v).outByte = s.outByte ∧ (s.received v).memOffset = s.memOffset := by
  have hp' : ({ s with inByte := v, inBits := 8 } : SpiFlash).bProgramming = false := hp
  have hcmd : (s.noted v).cmd 0 = v := by
    change Function.update s.cmd s.cmdLen v 0 = v
    rw [hlen, Function.update_self]
  have hnone : SpiFlash.access ((s.noted v).cmd 0) = none := by rw [hcmd]; exact hv.1
  have hreset : (s.noted v).cmd 0 ≠ SpiFlash.cmdReset := by rw [hcmd]; exact hv.2
  have hcommand : (s.noted v).command = ((s.noted v).identify, true) ∨
      (s.noted v).command = (s.noted v, true) := by
    unfold SpiFlash.command
    rw [hnone]
    dsimp only
    rw [if_neg hreset]
    split
    · exact Or.inl rfl
    · exact Or.inr rfl
  unfold SpiFlash.received
  rw [SpiFlash.writeByte_command hp']
  change _ at hcommand
  unfold SpiFlash.noted at hcommand
  rcases hcommand with hcommand | hcommand
  · rw [hcommand, if_pos rfl]
    exact ⟨rfl, hp, rfl, rfl, rfl, rfl, rfl, rfl⟩
  · rw [hcommand, if_pos rfl]
    exact ⟨rfl, hp, rfl, rfl, rfl, rfl, rfl, rfl⟩

/-- A byte comes in, and the rest of a byte of the memory and the first bit of the next go
out. -/
theorem Reading.byte {addr : BitVec 32} (h : Reading mem addr s) {v : Byte} (hv : Idle v) :
    ∃ s', Reading mem (addr + 1) s' ∧
      Sends s (send [v]) s' ((serial true (SpiFlash.load mem addr)).tail ++
        [(SpiFlash.load mem (addr + 1)).msb]) := by
  obtain ⟨bs, bit, hserial, hlen⟩ := exists_last_bit v
  have hstart : s = (s.sending s.outByte bs.length).shifted [] := by
    have hbits : BitVec.ofNat 8 bs.length = s.outBits := by
      rw [hlen, h.outBits]
      rfl
    unfold SpiFlash.sending
    rw [hbits]
    exact (shifted_nil h.inBits).symm
  -- Seven bits go out with the first seven clocks; the eighth clock completes the byte that came in
  -- and fetches the next one.
  obtain ⟨o', hseven⟩ := sends_sending s [] bs s.outByte (by rw [hlen]; decide)
  rw [← hstart, List.nil_append, hlen] at hseven
  have hlast := Sends.clock ((s.sending o' 0).shifted bs) bit
  rw [sample_eighth hlen bit hserial] at hlast
  obtain ⟨hmem, hp, hr, -, hcmdLen, hout, -, hoff⟩ :=
    received_idle (s := s.sending o' 0) hv h.programming h.cmdLen
  obtain ⟨hnext, hbit⟩ := Reading.launch (hmem.trans h.mem) rfl hp (hr.trans h.reading) hcmdLen
    hout (hoff.trans h.memOffset)
  rw [hbit] at hlast
  refine ⟨_, hnext, ?_⟩
  have hsend : send [v] = bs.flatMap clock ++ clock bit := by
    rw [send, List.flatMap_singleton, hserial, List.flatMap_append, List.flatMap_singleton]
  have htail : (serial true s.outByte).take 7 = (serial true (SpiFlash.load mem addr)).tail := by
    have htake := take_serial_shiftConcat (SpiFlash.load mem addr) false (k := 7) (by decide)
    rw [shiftConcat_false, List.take_of_length_le (by rw [length_serial])] at htake
    rw [h.outByte, htake, List.tail_cons]
  rw [hsend, ← htail]
  exact hseven.append hlast

/-- The bytes from an address on. -/
def loads (mem : Mem) : BitVec 32 → Nat → List Byte
  | _, 0 => []
  | addr, n + 1 => SpiFlash.load mem addr :: loads mem (addr + 1) n

/-- Bytes come in, and as many go out. -/
theorem Reading.bytes {addr : BitVec 32} (h : Reading mem addr s) (ds : List Byte)
    (hds : ∀ v ∈ ds, Idle v) :
    ∃ s' out next, Sends s (send ds) s' out ∧
      (SpiFlash.load mem addr).msb :: out =
        (loads mem addr ds.length).flatMap (serial true) ++ [next] := by
  induction ds generalizing addr s with
  | nil => exact ⟨s, [], (SpiFlash.load mem addr).msb, .nil, rfl⟩
  | cons d ds ih =>
    obtain ⟨s1, hreading, hbyte⟩ := h.byte (hds d List.mem_cons_self)
    obtain ⟨s', out, next, hrest, hout⟩ :=
      ih hreading fun v hv => hds v (List.mem_cons_of_mem d hv)
    have hall := hbyte.append hrest
    rw [← send_append, List.singleton_append] at hall
    refine ⟨s', _, next, hall, ?_⟩
    have hserial : serial true (SpiFlash.load mem addr) =
        (SpiFlash.load mem addr).msb :: (serial true (SpiFlash.load mem addr)).tail := by
      rw [serial_eq_msb_cons, List.tail_cons]
    rw [List.length_cons, loads, List.flatMap_cons, List.append_assoc (serial true _), ← hout,
      List.append_assoc, ← List.cons_append, ← hserial, List.singleton_append]

/-- A read command: nothing comes out until the edge that ends the address, and from that edge
on the memory does. -/
theorem read_command (h : Takes mem [] s) (wide : Bool) (addr : BitVec 32) (ds : List Byte)
    (hds : ∀ v ∈ ds, Idle v) :
    ∃ next, SpiBus.machine.emit SpiBus.cipo ⟨s, false, false⟩
        (send (request .read wide addr ++ ds)) =
      List.replicate (8 * (request .read wide addr).length - 1) false ++
        ((loads mem (target wide addr) ds.length).flatMap (serial true) ++ [next]) := by
  obtain ⟨s1, vs, v, hreq, htakes, hsends, hbegun⟩ := sends_request h .read wide addr
  obtain ⟨hreading, hbit⟩ := Reading.launch hbegun.mem hbegun.inBits hbegun.programming
    hbegun.reading hbegun.cmdLen hbegun.outBits hbegun.memOffset
  obtain ⟨s', out, next, hbytes, hout⟩ := hreading.bytes ds hds
  have hlast := sends_received htakes.toQuiet htakes.inBits v
  rw [hbit] at hlast
  have hall := (hsends.append hlast).append hbytes
  rw [← send_append, ← hreq, ← send_append] at hall
  refine ⟨next, hall.cipo.trans ?_⟩
  have hcount : 8 * (request .read wide addr).length - 1 = 8 * vs.length + 7 := by
    rw [hreq, List.length_append, List.length_singleton]
    omega
  rw [hcount, ← hout, ← List.replicate_append_replicate, List.append_assoc, List.append_assoc,
    List.append_assoc, List.singleton_append]

end SonataSystem.SpiDpi
