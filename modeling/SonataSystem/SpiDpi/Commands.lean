import SonataSystem.SpiDpi.Selection

/-!
# Whole commands

The bytes of a command are sent to a flash that is just selected, with SCK low. `Sends` is a
stretch of edges of SCK: the state of the flash it leads to, and what it puts on CIPO. With
nothing to send a byte is a byte of a command (`sends_byte`). A whole erase command erases a
sector (`erase_command`), and a whole program command stores the bytes that come after its
address (`program_command`).

A flash that is `Takes` a prefix of a command has stored those bytes and done nothing else. The
last byte of the address then begins the access, and which bytes make the address is a matter of
the width.
-/

set_option autoImplicit false

namespace SonataSystem.SpiDpi

open Lib

/-- A cycle of SCK. -/
def clock (bit : Bool) : List Edge := [.sck bit, .sck bit]

/-- Bytes, each as eight clocks. -/
def send (vs : List Byte) : List Edge := vs.flatMap fun v => (serial true v).flatMap clock

/-- Edges of SCK that lead a selected flash from one state to another. -/
structure Sends (s : SpiFlash) (es : List Edge) (s' : SpiFlash) (out : List Bool) : Prop where
  run : SpiBus.machine.run ⟨s, false, false⟩ es = ⟨s', false, false⟩
  cipo : SpiBus.machine.emit SpiBus.cipo ⟨s, false, false⟩ es = out

namespace Sends

variable {s s' s'' : SpiFlash} {es es' : List Edge} {out out' : List Bool}

theorem nil : Sends s [] s [] := ⟨rfl, rfl⟩

theorem append (h : Sends s es s' out) (h' : Sends s' es' s'' out') :
    Sends s (es ++ es') s'' (out ++ out') := by
  refine ⟨?_, ?_⟩
  · rw [Clocked.run_append, h.run, h'.run]
  · rw [Clocked.emit_append, h.run, h.cipo, h'.cipo]

theorem clock (s : SpiFlash) (bit : Bool) :
    Sends s (clock bit) ((s.sampleEdge false bit).launchEdge false).1
      [((s.sampleEdge false bit).launchEdge false).2] := ⟨rfl, rfl⟩

end Sends

/-! ## With nothing to send -/

/-- The lines of a flash that sends zeros, at the end of a byte. -/
structure Quiet (s : SpiFlash) : Prop where
  outBits : s.outBits = 0
  outByte : s.outByte = 0
  reading : s.bReading = false
  rsp : s.rspLen ≤ s.rspIdx

variable {s : SpiFlash}

theorem Quiet.launch (h : Quiet s) : s.launchEdge false = (s, false) := by
  have hnone := SpiFlash.readByte_none h.reading h.rsp
  rw [DevRel.launch_next s h.outBits, hnone]
  dsimp only
  rw [if_neg Bool.false_ne_true, h.outByte]
  have hsame : ({ s with outByte := (0 : Byte) <<< 1, outBits := 1 - 1 } : SpiFlash) = s := by
    have hbyte : (0 : Byte) <<< 1 = s.outByte := by rw [h.outByte]; decide
    have hbits : (1 : BitVec 8) - 1 = s.outBits := by rw [h.outBits]; decide
    rw [hbyte, hbits]
  rw [hsame]
  rfl

/-- The flash with so many bits of a byte. -/
def SpiFlash.shifted (s : SpiFlash) (bs : List Bool) : SpiFlash :=
  { s with inByte := bs.foldl BitVec.shiftConcat s.inByte, inBits := BitVec.ofNat 8 bs.length }

theorem sample_shifted {bs : List Bool} (h : bs.length < 7) (bit : Bool) :
    (s.shifted bs).sampleEdge false bit = s.shifted (bs ++ [bit]) := by
  have hlen : (BitVec.ofNat 8 bs.length).toNat = bs.length := by
    rw [BitVec.toNat_ofNat]
    exact Nat.mod_eq_of_lt (by omega)
  have hmore : ¬ 8 ≤ (s.shifted bs).inBits + 1 := by
    intro hle
    have hseven := (DevRel.eight_le_iff (n := BitVec.ofNat 8 bs.length) (by omega)).mp hle
    omega
  rw [DevRel.sample_more _ _ hmore]
  unfold SpiFlash.shifted
  rw [List.foldl_append, List.length_append]
  congr 1
  exact (BitVec.ofNat_add bs.length 1).symm

/-- The flash when the bits of a byte are there. -/
def SpiFlash.received (s : SpiFlash) (v : Byte) : SpiFlash :=
  { ({ s with inByte := v, inBits := 8 } : SpiFlash).writeByte v with inBits := 0 }

theorem sample_eighth {bs : List Bool} (h : bs.length = 7) (bit : Bool) {v : Byte}
    (hv : serial true v = bs ++ [bit]) :
    (s.shifted bs).sampleEdge false bit = s.received v := by
  have hlast : 8 ≤ (s.shifted bs).inBits + 1 := by
    unfold SpiFlash.shifted
    rw [h]
    exact (by decide : (8 : BitVec 8) ≤ 7 + 1)
  have hbyte : (bs.foldl BitVec.shiftConcat s.inByte).shiftConcat bit = v := by
    have hfold : (bs.foldl BitVec.shiftConcat s.inByte).shiftConcat bit =
        (bs ++ [bit]).foldl BitVec.shiftConcat s.inByte := by
      rw [List.foldl_append]
      rfl
    refine serial_injective (?_ : serial true _ = serial true v)
    rw [hfold, serial_foldl_shiftConcat, hv, List.drop_append, length_serial,
      List.drop_eq_nil_of_le (by rw [length_serial, List.length_append, h]; rfl),
      List.length_append, h]
    rfl
  rw [DevRel.sample_last _ _ hlast]
  unfold SpiFlash.received SpiFlash.shifted
  rw [h]
  dsimp only
  rw [hbyte]
  rfl

theorem Quiet.shifted (h : Quiet s) (bs : List Bool) : Quiet (s.shifted bs) :=
  ⟨h.outBits, h.outByte, h.reading, h.rsp⟩

theorem sends_bits (h : Quiet s) (bs cs : List Bool) (hlen : bs.length + cs.length < 8) :
    Sends (s.shifted bs) (cs.flatMap clock) (s.shifted (bs ++ cs))
      (List.replicate cs.length false) := by
  induction cs generalizing bs with
  | nil =>
    rw [List.append_nil]
    exact .nil
  | cons c cs ih =>
    rw [List.length_cons] at hlen
    have hone := Sends.clock (s.shifted bs) c
    rw [sample_shifted (by omega), (h.shifted _).launch] at hone
    have hrest := ih (bs ++ [c]) (by rw [List.length_append, List.length_singleton]; omega)
    rw [List.append_assoc] at hrest
    exact hone.append hrest

theorem exists_last_bit (v : Byte) : ∃ bs bit, serial true v = bs ++ [bit] ∧ bs.length = 7 := by
  have hlen := length_serial true v
  have hne : serial true v ≠ [] := List.ne_nil_of_length_eq_add_one hlen
  refine ⟨(serial true v).dropLast, (serial true v).getLast hne,
    (List.dropLast_append_getLast hne).symm, ?_⟩
  rw [List.length_dropLast, hlen]

theorem shifted_nil (h : s.inBits = 0) : s.shifted [] = s := by
  unfold SpiFlash.shifted
  have hbits : BitVec.ofNat 8 ([] : List Bool).length = s.inBits := by rw [h]; rfl
  rw [hbits]
  rfl

/-- A byte, of which the last cycle also launches what comes after it. -/
theorem sends_received (h : Quiet s) (hin : s.inBits = 0) (v : Byte) :
    Sends s (send [v]) ((s.received v).launchEdge false).1
      (List.replicate 7 false ++ [((s.received v).launchEdge false).2]) := by
  obtain ⟨bs, bit, hv, hlen⟩ := exists_last_bit v
  have hseven := sends_bits h [] bs (by rw [hlen]; decide)
  rw [shifted_nil hin, hlen, List.nil_append] at hseven
  have hlast := Sends.clock (s.shifted bs) bit
  rw [sample_eighth hlen bit hv] at hlast
  have hsend : send [v] = bs.flatMap clock ++ clock bit := by
    rw [send, List.flatMap_singleton, hv, List.flatMap_append, List.flatMap_singleton]
  rw [hsend]
  exact hseven.append hlast

theorem sends_byte (h : Quiet s) (hin : s.inBits = 0) (v : Byte) (hnext : Quiet (s.received v)) :
    Sends s (send [v]) (s.received v) (List.replicate 8 false) := by
  have hbyte := sends_received h hin v
  rw [hnext.launch] at hbyte
  exact hbyte

theorem send_append (vs ws : List Byte) : send (vs ++ ws) = send vs ++ send ws :=
  List.flatMap_append

/-! ## A command with an address -/

/-- The first bytes of a command are there. -/
structure Takes (mem : Mem) (ws : List Byte) (s : SpiFlash) : Prop extends Quiet s where
  mem : s.mem = mem
  inBits : s.inBits = 0
  programming : s.bProgramming = false
  erasing : s.bErasing = false
  cmdLen : s.cmdLen = BitVec.ofNat 8 ws.length
  cmd (i : Nat) (h : i < ws.length) : s.cmd (BitVec.ofNat 8 i) = ws[i]

/-- An access to the memory is to begin at an address. -/
structure Begun (mem : Mem) (a : Access) (addr : BitVec 32) (s : SpiFlash) : Prop where
  outBits : s.outBits = 0
  outByte : s.outByte = 0
  rsp : s.rspLen ≤ s.rspIdx
  mem : s.mem = mem
  inBits : s.inBits = 0
  cmdLen : s.cmdLen = 0
  programming : s.bProgramming = decide (a = .program)
  reading : s.bReading = decide (a = .read)
  erasing : s.bErasing = decide (a = .erase)
  memOffset : s.memOffset = addr

theorem takes_fresh (mem : Mem) (jedecId : BitVec 32) : Takes mem [] (fresh mem jedecId) :=
  ⟨⟨rfl, rfl, rfl, BitVec.le_refl _⟩, rfl, rfl, rfl, rfl, rfl, fun _ hi => nomatch hi⟩

/-- The flash with a byte of a command, before it looks at the command. -/
def SpiFlash.noted (s : SpiFlash) (v : Byte) : SpiFlash :=
  ({ s with inByte := v, inBits := 8 } : SpiFlash).stored v

theorem cmd_stored {mem : Mem} {ws : List Byte} (h : Takes mem ws s) (hlen : ws.length < 5)
    (v : Byte) (i : Nat) (hi : i < (ws ++ [v]).length) :
    (s.noted v).cmd (BitVec.ofNat 8 i) = (ws ++ [v])[i] := by
  change Function.update s.cmd s.cmdLen v (BitVec.ofNat 8 i) = _
  rw [h.cmdLen]
  rw [List.length_append, List.length_singleton] at hi
  by_cases hlast : i = ws.length
  · subst hlast
    rw [Function.update_self, List.getElem_concat_length rfl]
  · have hlt : i < ws.length := by omega
    have hne : BitVec.ofNat 8 i ≠ BitVec.ofNat 8 ws.length := by
      intro heq
      have hnat := congrArg BitVec.toNat heq
      rw [BitVec.toNat_ofNat, BitVec.toNat_ofNat, Nat.mod_eq_of_lt (by omega),
        Nat.mod_eq_of_lt (by omega)] at hnat
      exact hlast hnat
    rw [Function.update_of_ne hne, h.cmd i hlt, List.getElem_append_left hlt]

theorem noted_cmdLen {mem : Mem} {ws : List Byte} (h : Takes mem ws s) (v : Byte) :
    (s.noted v).cmdLen = BitVec.ofNat 8 (ws.length + 1) := by
  change s.cmdLen + 1 = _
  rw [h.cmdLen]
  exact (BitVec.ofNat_add ws.length 1).symm

theorem received_noted {mem : Mem} {ws : List Byte} (h : Takes mem ws s) (v : Byte) :
    s.received v =
      { (if (s.noted v).command.2 then { (s.noted v).command.1 with cmdLen := 0 }
          else (s.noted v).command.1) with inBits := 0 } := by
  have hp : ({ s with inByte := v, inBits := 8 } : SpiFlash).bProgramming = false := h.programming
  unfold SpiFlash.received SpiFlash.noted
  rw [SpiFlash.writeByte_command hp]

theorem command_access {a : Access} {len : BitVec 8}
    (ha : SpiFlash.access (s.cmd 0) = some (a, len)) :
    s.command =
      if len ≤ s.cmdLen then
        (s.begin a (if len = 4 then s.getAddress24 else s.getAddress32), true)
      else (s, false) := by
  unfold SpiFlash.command
  rw [ha]

section Bytes

variable {mem : Mem} {ws : List Byte} {op : Byte} {a : Access} {len : BitVec 8}

theorem access_len_le (h : SpiFlash.access op = some (a, len)) : len.toNat ≤ 5 := by
  rcases SpiFlash.access_len h with rfl | rfl
  · exact (by decide : (4 : BitVec 8).toNat ≤ 5)
  · exact (by decide : (5 : BitVec 8).toNat ≤ 5)

theorem noted_opcode (h : Takes mem ws s) (hlen : ws.length < 5) {v : Byte}
    (hop : (ws ++ [v]).head? = some op) : (s.noted v).cmd 0 = op := by
  have hpos : 0 < (ws ++ [v]).length := by
    rw [List.length_append, List.length_singleton]
    omega
  have hcmd := cmd_stored h hlen v 0 hpos
  rw [List.head?_eq_getElem?, List.getElem?_eq_getElem hpos] at hop
  exact hcmd.trans (Option.some.inj hop)

/-- A byte that does not complete the command. -/
theorem takes_byte (h : Takes mem ws s) {v : Byte} (hop : (ws ++ [v]).head? = some op)
    (ha : SpiFlash.access op = some (a, len)) (hmore : ws.length + 1 < len.toNat) :
    Takes mem (ws ++ [v]) (s.received v) := by
  have hmax := access_len_le ha
  have hlen : ws.length < 5 := by omega
  have hopcode := noted_opcode h hlen hop
  have hnot : ¬ len ≤ (s.noted v).cmdLen := by
    rw [noted_cmdLen h v, BitVec.le_def, BitVec.toNat_ofNat, Nat.mod_eq_of_lt (by omega)]
    exact Nat.not_le_of_lt hmore
  have hcommand : (s.noted v).command = (s.noted v, false) := by
    rw [command_access (by rw [hopcode]; exact ha), if_neg hnot]
  rw [received_noted h v, hcommand]
  refine ⟨⟨h.outBits, h.outByte, h.reading, h.rsp⟩, h.mem, rfl, h.programming, h.erasing, ?_,
    cmd_stored h hlen v⟩
  rw [List.length_append]
  exact noted_cmdLen h v

/-- The byte that completes the command. -/
theorem begun_byte (h : Takes mem ws s) {v : Byte} (hop : (ws ++ [v]).head? = some op)
    (ha : SpiFlash.access op = some (a, len)) (hlast : ws.length + 1 = len.toNat) :
    Begun mem a
      (if len = 4 then (s.noted v).getAddress24 else (s.noted v).getAddress32) (s.received v) := by
  have hmax := access_len_le ha
  have hlen : ws.length < 5 := by omega
  have hopcode := noted_opcode h hlen hop
  have hfull : len ≤ (s.noted v).cmdLen := by
    rw [noted_cmdLen h v, BitVec.le_def, BitVec.toNat_ofNat, Nat.mod_eq_of_lt (by omega), hlast]
  have hcommand := command_access (s := s.noted v) (by rw [hopcode]; exact ha)
  rw [if_pos hfull] at hcommand
  rw [received_noted h v, hcommand]
  have hp : (s.noted v).bProgramming = false := h.programming
  have hr : (s.noted v).bReading = false := h.reading
  have he : (s.noted v).bErasing = false := h.erasing
  cases a with
  | erase => exact ⟨h.outBits, h.outByte, h.rsp, h.mem, rfl, rfl, hp, hr, rfl, rfl⟩
  | program => exact ⟨h.outBits, h.outByte, h.rsp, h.mem, rfl, rfl, rfl, hr, he, rfl⟩
  | read => exact ⟨h.outBits, h.outByte, h.rsp, h.mem, rfl, rfl, hp, rfl, he, rfl⟩

/-- The first bytes of a command, sent to a flash that is just selected. -/
theorem sends_takes (h : Takes mem ws s) (vs : List Byte) (hop : (ws ++ vs).head? = some op)
    (ha : SpiFlash.access op = some (a, len)) (hmore : (ws ++ vs).length < len.toNat) :
    ∃ s', Takes mem (ws ++ vs) s' ∧
      Sends s (send vs) s' (List.replicate (8 * vs.length) false) := by
  induction vs generalizing ws s with
  | nil =>
    rw [List.append_nil]
    exact ⟨s, h, .nil⟩
  | cons v vs ih =>
    have hassoc : ws ++ v :: vs = ws ++ [v] ++ vs := by
      rw [List.append_assoc, List.singleton_append]
    rw [hassoc] at hop hmore ⊢
    -- The first byte is still the opcode, so the command is not complete with this one.
    have hhead : (ws ++ [v]).head? = some op := by
      rw [List.head?_append] at hop
      have hne : (ws ++ [v]).head? ≠ none := by simp
      obtain ⟨x, hx⟩ := Option.ne_none_iff_exists'.mp hne
      rw [hx] at hop ⊢
      exact hop
    have hbyte := takes_byte h hhead ha (by
      rw [List.length_append, List.length_append, List.length_singleton] at hmore
      omega)
    obtain ⟨s', h', hsends⟩ := ih hbyte hop hmore
    refine ⟨s', h', ?_⟩
    have hone := sends_byte h.toQuiet h.inBits v hbyte.toQuiet
    have hall := hone.append hsends
    rw [← send_append, List.replicate_append_replicate] at hall
    have hcount : 8 * (v :: vs).length = 8 + 8 * vs.length := by
      rw [List.length_cons]
      omega
    rw [hcount]
    exact hall

end Bytes

/-! ## Requests -/

/-- The opcode of an access, with an address of three bytes or of four. -/
def opcode : Access → Bool → Byte
  | .erase, false => 0x20
  | .erase, true => 0x21
  | .program, false => 0x02
  | .program, true => 0x12
  | .read, false => 0x03
  | .read, true => 0x13

/-- An address in three or four bytes, the upper ones first. -/
def addressBytes (wide : Bool) (addr : BitVec 32) : List Byte :=
  let low := [(addr >>> 16).setWidth 8, (addr >>> 8).setWidth 8, addr.setWidth 8]
  if wide then (addr >>> 24).setWidth 8 :: low else low

/-- The bytes of a command up to its address. -/
def request (a : Access) (wide : Bool) (addr : BitVec 32) : List Byte :=
  opcode a wide :: addressBytes wide addr

/-- The address that the request is for. -/
def target (wide : Bool) (addr : BitVec 32) : BitVec 32 :=
  if wide then addr else addr &&& 0xffffff

theorem access_opcode (a : Access) (wide : Bool) :
    SpiFlash.access (opcode a wide) = some (a, if wide then 5 else 4) := by
  cases a <;> cases wide <;> rfl

theorem joined24 (x : BitVec 32) :
    ((x >>> 16).setWidth 8).setWidth 32 <<< 16 ||| ((x >>> 8).setWidth 8).setWidth 32 <<< 8 |||
      (x.setWidth 8).setWidth 32 = x &&& 0xffffff := by
  have hmask : (0xffffff : BitVec 32) = (BitVec.allOnes 24).setWidth 32 := by decide
  rw [hmask]
  ext i hi
  simp only [BitVec.getElem_or, BitVec.getElem_and, BitVec.getElem_shiftLeft,
    BitVec.getElem_setWidth, BitVec.getLsbD_setWidth, BitVec.getLsbD_ushiftRight,
    BitVec.getLsbD_allOnes]
  grind

theorem joined32 (x : BitVec 32) :
    ((x >>> 24).setWidth 8).setWidth 32 <<< 24 ||| ((x >>> 16).setWidth 8).setWidth 32 <<< 16 |||
      ((x >>> 8).setWidth 8).setWidth 32 <<< 8 ||| (x.setWidth 8).setWidth 32 = x := by
  ext i hi
  simp only [BitVec.getElem_or, BitVec.getElem_shiftLeft, BitVec.getElem_setWidth,
    BitVec.getLsbD_setWidth, BitVec.getLsbD_ushiftRight]
  grind

variable {mem : Mem}

/-- A request to a flash that is just selected; its last byte is still to come. -/
theorem sends_request (h : Takes mem [] s) (a : Access) (wide : Bool) (addr : BitVec 32) :
    ∃ s' vs v, request a wide addr = vs ++ [v] ∧ Takes mem vs s' ∧
      Sends s (send vs) s' (List.replicate (8 * vs.length) false) ∧
      Begun mem a (target wide addr) (s'.received v) := by
  have hop := access_opcode a wide
  cases wide with
  -- Three bytes of address, of which the last completes the command.
  | false =>
    obtain ⟨s', htakes, hsends⟩ := sends_takes h
      [opcode a false, (addr >>> 16).setWidth 8, (addr >>> 8).setWidth 8] rfl hop
      (by decide : 3 < (4 : BitVec 8).toNat)
    refine ⟨s', _, addr.setWidth 8, rfl, htakes, hsends, ?_⟩
    have hbegun := begun_byte htakes (v := addr.setWidth 8) rfl hop rfl
    have hcmd := cmd_stored htakes (by decide : 3 < 5) (addr.setWidth 8)
    have h1 : (s'.noted (addr.setWidth 8)).cmd 1 = (addr >>> 16).setWidth 8 :=
      hcmd 1 (by decide : 1 < 4)
    have h2 : (s'.noted (addr.setWidth 8)).cmd 2 = (addr >>> 8).setWidth 8 :=
      hcmd 2 (by decide : 2 < 4)
    have h3 : (s'.noted (addr.setWidth 8)).cmd 3 = addr.setWidth 8 :=
      hcmd 3 (by decide : 3 < 4)
    have haddr : (s'.noted (addr.setWidth 8)).getAddress24 = target false addr := by
      unfold SpiFlash.getAddress24
      rw [h1, h2, h3]
      exact joined24 addr
    rw [← haddr]
    exact hbegun
  -- Four bytes of address.
  | true =>
    obtain ⟨s', htakes, hsends⟩ := sends_takes h
      [opcode a true, (addr >>> 24).setWidth 8, (addr >>> 16).setWidth 8, (addr >>> 8).setWidth 8]
      rfl hop (by decide : 4 < (5 : BitVec 8).toNat)
    refine ⟨s', _, addr.setWidth 8, rfl, htakes, hsends, ?_⟩
    have hbegun := begun_byte htakes (v := addr.setWidth 8) rfl hop rfl
    have hcmd := cmd_stored htakes (by decide : 4 < 5) (addr.setWidth 8)
    have h1 : (s'.noted (addr.setWidth 8)).cmd 1 = (addr >>> 24).setWidth 8 :=
      hcmd 1 (by decide : 1 < 5)
    have h2 : (s'.noted (addr.setWidth 8)).cmd 2 = (addr >>> 16).setWidth 8 :=
      hcmd 2 (by decide : 2 < 5)
    have h3 : (s'.noted (addr.setWidth 8)).cmd 3 = (addr >>> 8).setWidth 8 :=
      hcmd 3 (by decide : 3 < 5)
    have h4 : (s'.noted (addr.setWidth 8)).cmd 4 = addr.setWidth 8 :=
      hcmd 4 (by decide : 4 < 5)
    have haddr : (s'.noted (addr.setWidth 8)).getAddress32 = target true addr := by
      unfold SpiFlash.getAddress32
      rw [h1, h2, h3, h4]
      exact joined32 addr
    rw [← haddr]
    exact hbegun

theorem Begun.quiet {a : Access} {addr : BitVec 32} (h : Begun mem a addr s) (ha : a ≠ .read) :
    Quiet s :=
  ⟨h.outBits, h.outByte, by rw [h.reading]; exact decide_eq_false ha, h.rsp⟩

/-- A request after which nothing is read. -/
theorem sends_begun (h : Takes mem [] s) {a : Access} (ha : a ≠ .read) (wide : Bool)
    (addr : BitVec 32) :
    ∃ s', Begun mem a (target wide addr) s' ∧
      Sends s (send (request a wide addr)) s'
        (List.replicate (8 * (request a wide addr).length) false) := by
  obtain ⟨s', vs, v, hreq, htakes, hsends, hbegun⟩ := sends_request h a wide addr
  refine ⟨s'.received v, hbegun, ?_⟩
  have hall := hsends.append (sends_byte htakes.toQuiet htakes.inBits v (hbegun.quiet ha))
  rw [← send_append, List.replicate_append_replicate] at hall
  rw [hreq, List.length_append, List.length_singleton, Nat.mul_add]
  exact hall

/-! ## Erase -/

/-- The sector of an address is erased, and nothing else. -/
def erased (mem : Mem) (addr : BitVec 32) : Mem :=
  fun x => if x.toNat / 4096 = addr.toNat / 4096 then 0xff else mem x

theorem sector_eq (addr : BitVec 32) : SpiFlash.sector addr = addr >>> 12 <<< 12 := by
  have hmask : ~~~(SpiFlash.kPageSize - 1) = ~~~(BitVec.allOnes 12).setWidth 32 := by decide
  unfold SpiFlash.sector
  rw [hmask]
  ext i hi
  simp only [BitVec.getElem_and, BitVec.getElem_not, BitVec.getElem_setWidth,
    BitVec.getLsbD_allOnes, BitVec.getElem_shiftLeft, BitVec.getElem_ushiftRight]
  grind

theorem toNat_sector (addr : BitVec 32) :
    (SpiFlash.sector addr).toNat = 4096 * (addr.toNat / 4096) := by
  have hlt := addr.isLt
  rw [sector_eq, BitVec.toNat_shiftLeft, BitVec.toNat_ushiftRight, Nat.shiftRight_eq_div_pow,
    Nat.shiftLeft_eq, Nat.mod_eq_of_lt (by omega)]
  omega

theorem eraseSector_mem (s : SpiFlash) : s.eraseSector.mem = erased s.mem s.memOffset := by
  have hsector := toNat_sector s.memOffset
  unfold SpiFlash.eraseSector erased
  by_cases hin : SpiFlash.sector s.memOffset ≤ SpiFlash.kFlashBytes - SpiFlash.kPageSize
  · rw [if_pos hin]
    have hbound : (SpiFlash.sector s.memOffset).toNat ≤ 33550336 := BitVec.le_def.mp hin
    have hend : (SpiFlash.sector s.memOffset + SpiFlash.kPageSize).toNat =
        (SpiFlash.sector s.memOffset).toNat + 4096 := by
      rw [BitVec.toNat_add]
      exact Nat.mod_eq_of_lt (by change _ + 4096 < _; omega)
    funext x
    have hx : (x.setWidth 32).toNat = x.toNat := BitVec.toNat_setWidth_of_le (by decide)
    have hiff : (SpiFlash.sector s.memOffset ≤ x.setWidth 32 ∧
        x.setWidth 32 < SpiFlash.sector s.memOffset + SpiFlash.kPageSize) ↔
        x.toNat / 4096 = s.memOffset.toNat / 4096 := by
      rw [BitVec.le_def, BitVec.lt_def, hend, hx, hsector]
      omega
    simp only [hiff]
  · rw [if_neg hin]
    funext x
    have hbound : ¬ (SpiFlash.sector s.memOffset).toNat ≤ 33550336 :=
      fun hle => hin (BitVec.le_def.mpr hle)
    have hx := x.isLt
    rw [if_neg (by omega)]

theorem erase_command (h : Takes mem [] s) (wide : Bool) (addr : BitVec 32) :
    (SpiBus.machine.run ⟨s, false, false⟩
      (send (request .erase wide addr) ++ [.cs true])).dev.mem =
        erased mem (target wide addr) := by
  obtain ⟨s', hbegun, hsends⟩ := sends_begun h (a := .erase) (by decide) wide addr
  have herasing : s'.bErasing = true := hbegun.erasing
  rw [Clocked.run_append, hsends.run]
  change (s'.csChanged false).mem = _
  rw [SpiFlash.csChanged_deasserted, if_pos herasing]
  change s'.eraseSector.mem = _
  rw [eraseSector_mem, hbegun.mem, hbegun.memOffset]

/-! ## Program -/

/-- A page is being programmed. -/
structure Writing (mem : Mem) (addr : BitVec 32) (s : SpiFlash) : Prop extends Quiet s where
  mem : s.mem = mem
  inBits : s.inBits = 0
  programming : s.bProgramming = true
  erasing : s.bErasing = false
  memOffset : s.memOffset = addr

/-- A byte after another, to addresses that go on. -/
def programAll : Mem → BitVec 32 → List Byte → Mem
  | mem, _, [] => mem
  | mem, addr, v :: vs => programAll (SpiFlash.store mem addr v) (addr + 1) vs

theorem Writing.byte {addr : BitVec 32} (h : Writing mem addr s) (v : Byte) :
    Writing (SpiFlash.store mem addr v) (addr + 1) (s.received v) := by
  have hp : ({ s with inByte := v, inBits := 8 } : SpiFlash).bProgramming = true := h.programming
  unfold SpiFlash.received
  rw [SpiFlash.writeByte_programming hp]
  refine ⟨⟨h.outBits, h.outByte, h.reading, h.rsp⟩, ?_, rfl, h.programming, h.erasing,
    congrArg (· + 1) h.memOffset⟩
  change SpiFlash.store s.mem s.memOffset v = _
  rw [h.mem, h.memOffset]

theorem Writing.bytes {addr : BitVec 32} (h : Writing mem addr s) (vs : List Byte) :
    ∃ s', s'.mem = programAll mem addr vs ∧ s'.bErasing = false ∧
      SpiBus.machine.run ⟨s, false, false⟩ (send vs) = ⟨s', false, false⟩ := by
  induction vs generalizing mem addr s with
  | nil => exact ⟨s, h.mem, h.erasing, rfl⟩
  | cons v vs ih =>
    have hbyte := h.byte v
    obtain ⟨s', hmem, herasing, hrun⟩ := ih hbyte
    refine ⟨s', hmem, herasing, ?_⟩
    have hone := (sends_byte h.toQuiet h.inBits v hbyte.toQuiet).run
    change SpiBus.machine.run _ (send ([v] ++ vs)) = _
    rw [send_append, Clocked.run_append, hone, hrun]

theorem program_command (h : Takes mem [] s) (wide : Bool) (addr : BitVec 32) (vs : List Byte) :
    (SpiBus.machine.run ⟨s, false, false⟩
      (send (request .program wide addr ++ vs) ++ [.cs true])).dev.mem =
        programAll mem (target wide addr) vs := by
  obtain ⟨s1, hbegun, hsends⟩ := sends_begun h (a := .program) (by decide) wide addr
  have hwriting : Writing mem (target wide addr) s1 :=
    ⟨hbegun.quiet (by decide), hbegun.mem, hbegun.inBits, hbegun.programming, hbegun.erasing,
      hbegun.memOffset⟩
  obtain ⟨s2, hmem, herasing, hrun⟩ := hwriting.bytes vs
  rw [Clocked.run_append, send_append, Clocked.run_append, hsends.run, hrun]
  change (s2.csChanged false).mem = _
  rw [SpiFlash.csChanged_deasserted, herasing, if_neg Bool.false_ne_true]
  exact hmem

theorem store_apply (mem : Mem) (addr : BitVec 32) (v : Byte) (x : BitVec 25) :
    SpiFlash.store mem addr v x = if x.toNat = addr.toNat then v else mem x := by
  unfold SpiFlash.store
  by_cases hin : addr < SpiFlash.kFlashBytes
  · have hlt : addr.toNat < 2 ^ 25 := BitVec.lt_def.mp hin
    have hto : (addr.setWidth 25).toNat = addr.toNat := by
      rw [BitVec.toNat_setWidth, Nat.mod_eq_of_lt hlt]
    rw [if_pos hin, Function.update_apply]
    have hiff : x = addr.setWidth 25 ↔ x.toNat = addr.toNat := by
      rw [← hto]
      exact BitVec.toNat_inj.symm
    simp only [hiff]
  · have hge : ¬ addr.toNat < 2 ^ 25 := fun hlt => hin (BitVec.lt_def.mpr hlt)
    have hx := x.isLt
    rw [if_neg hin, if_neg (by omega)]

theorem toNat_next (addr : BitVec 32) : (addr + 1).toNat = (addr.toNat + 1) % 2 ^ 32 :=
  BitVec.toNat_add addr 1

/-- Only the bytes from the address on are changed. -/
theorem programAll_frame (mem : Mem) (addr : BitVec 32) (vs : List Byte) (x : BitVec 25)
    (h : programAll mem addr vs x ≠ mem x) :
    ∃ k < vs.length, x.toNat = (addr.toNat + k) % 2 ^ 32 := by
  induction vs generalizing mem addr with
  | nil => exact absurd rfl h
  | cons v vs ih =>
    by_cases hstore : x.toNat = addr.toNat
    · exact ⟨0, Nat.succ_pos _, by rw [Nat.add_zero, Nat.mod_eq_of_lt addr.isLt, hstore]⟩
    · have hrest : programAll (SpiFlash.store mem addr v) (addr + 1) vs x ≠
          SpiFlash.store mem addr v x := by
        rw [store_apply, if_neg hstore]
        exact h
      obtain ⟨k, hk, hx⟩ := ih _ _ hrest
      refine ⟨k + 1, Nat.succ_lt_succ hk, ?_⟩
      rw [hx, toNat_next, Nat.mod_add_mod, Nat.add_assoc, Nat.add_comm 1 k]

/-- A byte that is programmed is there afterwards, unless so many come that its address is
there again. -/
theorem programAll_apply (mem : Mem) (addr : BitVec 32) (vs : List Byte)
    (h : vs.length ≤ 2 ^ 32) (x : BitVec 25) (k : Nat) (hk : k < vs.length)
    (hx : x.toNat = (addr.toNat + k) % 2 ^ 32) : programAll mem addr vs x = vs[k] := by
  induction vs generalizing mem addr k with
  | nil => exact absurd hk (Nat.not_lt_zero k)
  | cons v vs ih =>
    rw [List.length_cons] at h hk
    cases k with
    | zero =>
      rw [Nat.add_zero, Nat.mod_eq_of_lt addr.isLt] at hx
      have hkeep : programAll (SpiFlash.store mem addr v) (addr + 1) vs x =
          SpiFlash.store mem addr v x := by
        by_contra hne
        obtain ⟨j, hj, hagain⟩ := programAll_frame _ _ _ _ hne
        rw [toNat_next, Nat.mod_add_mod] at hagain
        have hlt := addr.isLt
        omega
      change programAll (SpiFlash.store mem addr v) (addr + 1) vs x = v
      rw [hkeep, store_apply, if_pos hx]
    | succ k =>
      refine ih _ _ (Nat.le_of_succ_le h) k (Nat.lt_of_succ_lt_succ hk) ?_
      rw [hx, toNat_next, Nat.mod_add_mod, Nat.add_assoc, Nat.add_comm 1 k]

end SonataSystem.SpiDpi
