import SonataSystem.SpiDpi.Leftovers

/-!
# When a selection finds a new flash

Nothing may be left of a byte, of a command, of a response and of the bits to send (`Clean`),
and this is all: the twin of a new flash is `Clean`, for whatever is left would be seen in the
memory or on CIPO.

With this `lawful_iff` is an equivalence, and it is the reason for the modules about twins: that a
clean flash keeps the law takes the simulation alone.
-/

set_option autoImplicit false

namespace SonataSystem.SpiDpi

open Lib

variable {s t : SpiFlash} {mem : Mem}

/-! ## Zeros to a new flash -/

theorem chunk_zeros {k : Nat} (hk : k < 8) (n : Nat) :
    (∀ w ∈ (chunk (List.replicate k false) (List.replicate n false)).1, w = 0) ∧
      (chunk (List.replicate k false) (List.replicate n false)).2 =
        List.replicate ((k + n) % 8) false := by
  induction n generalizing k with
  | zero =>
    refine ⟨fun w hw => absurd hw List.not_mem_nil, ?_⟩
    rw [Nat.add_zero, Nat.mod_eq_of_lt hk]
    rfl
  | succ n ih =>
    rw [List.replicate_succ, chunk, List.length_replicate]
    by_cases hmore : k < 7
    · have hsnoc : List.replicate k false ++ [false] = List.replicate (k + 1) false :=
        List.replicate_succ'.symm
      obtain ⟨hbytes, hleft⟩ := ih (k := k + 1) (by omega)
      rw [if_pos hmore, hsnoc]
      refine ⟨hbytes, hleft.trans ?_⟩
      rw [Nat.add_right_comm, Nat.add_assoc]
    · have hseven : k = 7 := by omega
      obtain ⟨hbytes, hleft⟩ := ih (k := 0) (by decide)
      rw [if_neg hmore, hseven]
      refine ⟨List.forall_mem_cons.mpr ⟨by decide, hbytes⟩, hleft.trans ?_⟩
      have hmod : (0 + n) % 8 = (7 + (n + 1)) % 8 := by omega
      rw [hmod]

/-- Zeros stay as many bits as they do not make bytes of. -/
theorem zeros_cut (h : Takes mem [] t) {k : Nat} (hk : k < 8) (n : Nat) :
    ∃ t', Takes mem [] t' ∧
      SpiBus.machine.run (resting (t.shifted (List.replicate k false)))
        (cut (List.replicate n false) false) =
          resting (t'.shifted (List.replicate ((k + (n + 1)) % 8) false)) := by
  obtain ⟨hbytes, hleft⟩ := chunk_zeros hk (n + 1)
  rw [List.replicate_succ'] at hbytes hleft
  have hlen : (List.replicate k false).length < 8 := by rw [List.length_replicate]; exact hk
  have hinert : ∀ w ∈ (chunk (List.replicate k false) (List.replicate n false ++ [false])).1,
      Inert w := by
    intro w hw
    rw [hbytes w hw]
    decide
  obtain ⟨t', htakes, hrun⟩ := stays_cut h hlen (List.replicate n false) false hinert
  rw [hleft] at hrun
  exact ⟨t', htakes, hrun⟩

theorem zeros_bits (n : Nat) :
    (List.replicate n (0 : Byte)).flatMap (serial true) = List.replicate (8 * n) false := by
  induction n with
  | zero => rfl
  | succ n ih =>
    have hzero : serial true (0 : Byte) = List.replicate 8 false := by decide
    rw [List.replicate_succ, List.flatMap_cons, ih, hzero, List.replicate_append_replicate,
      Nat.mul_succ, Nat.add_comm]

/-! ## Bits of a byte -/

/-- The address of the byte that is programmed to tell the flashes apart. -/
def probe : BitVec 32 := 0xffff7f

/-- With so many zeros in front of it a program command is bytes of no command. -/
theorem shifted_program_inert :
    ∀ k ∈ [1, 2, 3, 4, 5, 6, 7], ∀ v ∈ ([0x40, 0x41] : List Byte),
      ∀ w ∈ (chunk (List.replicate k false)
        ((request .program (decide (k = 7)) probe ++ [v]).flatMap (serial true))).1, Inert w := by
  decide +kernel

theorem exists_other (x : Byte) : ∃ v ∈ ([0x40, 0x41] : List Byte), v ≠ x := by
  by_cases h : x = 0x40
  · exact ⟨0x41, by decide, by rw [h]; decide⟩
  · exact ⟨0x40, by decide, Ne.symm h⟩

/-- A program command of one byte, seen at its address. -/
theorem programmed_byte (h : Takes mem [] s) (wide : Bool) (addr : BitVec 32) (v : Byte)
    {x : BitVec 25} (hx : x.toNat = (target wide addr).toNat) :
    (SpiBus.machine.run ⟨s, false, false⟩
      (send (request .program wide addr ++ [v]) ++ [.cs true])).dev.mem x = v := by
  rw [program_command h]
  change SpiFlash.store mem (target wide addr) v x = v
  rw [store_apply, if_pos hx]

/-- Bytes of no command, and the deselection, leave the memory. -/
theorem stays_mem (h : Takes mem [] t) {bs : List Bool} (hlen : bs.length < 8) (vs : List Byte)
    (hinert : ∀ w ∈ (chunk bs (vs.flatMap (serial true))).1, Inert w) :
    (SpiBus.machine.run ⟨t.shifted bs, false, false⟩ (send vs ++ [.cs true])).dev.mem = mem := by
  obtain ⟨-, t', htakes, hsends⟩ := stays h hlen (vs.flatMap (serial true)) hinert
  rw [← send_bits] at hsends
  rw [Clocked.run_append, hsends.run]
  have hended : (t'.shifted (chunk bs (vs.flatMap (serial true))).2).Ended :=
    ⟨htakes.programming, htakes.reading, htakes.erasing⟩
  change ((t'.shifted (chunk bs (vs.flatMap (serial true))).2).csChanged false).mem = mem
  rw [hended.csChanged]
  exact htakes.mem

theorem not_twin_shifted {mem' : Mem} (hs : Takes mem [] s) (ht : Takes mem' [] t) {k : Nat}
    (hk : k < 8) (hpos : k ≠ 0) : ¬ Twin s (t.shifted (List.replicate k false)) := by
  intro htwin
  obtain ⟨v, hv, hne⟩ := exists_other (mem' (probe.setWidth 25))
  have hmem : k ∈ [1, 2, 3, 4, 5, 6, 7] := by
    simp only [List.mem_cons, List.not_mem_nil, or_false]
    omega
  have hlen : (List.replicate k false).length < 8 := by rw [List.length_replicate]; exact hk
  have htarget : (probe.setWidth 25).toNat = (target (decide (k = 7)) probe).toNat := by
    cases decide (k = 7) <;> rfl
  have hleft := programmed_byte hs (decide (k = 7)) probe v htarget
  have hright := stays_mem ht hlen _ (shifted_program_inert k hmem v hv)
  have hsame := (htwin (.cs false ::
    (send (request .program (decide (k = 7)) probe ++ [v]) ++ [Edge.cs true]))).2
  rw [run_resting, run_resting, hright] at hsame
  rw [hsame] at hleft
  exact hne hleft.symm

theorem Settled.inBits_of_twin {jedecId : BitVec 32} (h : Settled s)
    (htwin : Twin s (fresh mem jedecId)) : s.inBits = 0 := by
  by_contra hne
  have hpos : s.inBits.toNat ≠ 0 := fun hzero => hne (BitVec.eq_of_toNat_eq hzero)
  have hlt := h.sound.inBits
  obtain ⟨u, hu, huin, hurun⟩ := h.completed (n := 7 - s.inBits.toNat) (by omega)
  obtain ⟨t1, ht1, ht1run⟩ := zeros_cut (takes_fresh mem jedecId) (k := 0) (by decide)
    (7 - s.inBits.toNat)
  have hk : (0 + (7 - s.inBits.toNat + 1)) % 8 = 8 - s.inBits.toNat := by omega
  rw [hk, List.replicate_zero, shifted_nil rfl] at ht1run
  have htwin1 := htwin.led hurun ht1run
  by_cases hcmd : u.cmdLen = 0
  · exact not_twin_shifted (takes_nil hu.toQuiet hu.ended huin hcmd) ht1 (by omega) (by omega)
      htwin1
  · -- zeros complete the command that is left, too
    obtain ⟨ws, op, a, len, htakes, hop, ha, hws, hlen⟩ := hu.takes huin hcmd
    obtain ⟨n, hn⟩ : ∃ n, len.toNat = ws.length + (n + 1) := ⟨len.toNat - ws.length - 1, by omega⟩
    have hbits : (List.replicate n (0 : Byte) ++ [0]).flatMap (serial true) =
        List.replicate (8 * n + 7) false ++ [false] := by
      rw [← List.replicate_succ', ← List.replicate_succ', zeros_bits]
      rfl
    obtain ⟨u2, hu2, hu2run⟩ := htakes.completed hop ha (by
      rw [hn, List.length_append, List.length_append, List.length_replicate]
      rfl) hbits
    obtain ⟨t2, ht2, ht2run⟩ := zeros_cut ht1 (k := 8 - s.inBits.toNat) (by omega) (8 * n + 7)
    have hk2 : (8 - s.inBits.toNat + (8 * n + 7 + 1)) % 8 = 8 - s.inBits.toNat := by omega
    rw [hk2] at ht2run
    exact not_twin_shifted hu2 ht2 (by omega) (by omega) (htwin1.led hu2run ht2run)

/-! ## Bytes of a command -/

theorem exists_bits (vs : List Byte) (v : Byte) :
    ∃ cs c, (vs ++ [v]).flatMap (serial true) = cs ++ [c] := by
  obtain ⟨bs, bit, hv, -⟩ := exists_last_bit v
  refine ⟨vs.flatMap (serial true) ++ bs, bit, ?_⟩
  rw [List.flatMap_append, List.flatMap_singleton, hv, List.append_assoc]

/-- The end of a program command is bytes of no command. -/
theorem program_end_inert :
    ∀ k ∈ [1, 2, 3, 4], ∀ v ∈ ([0x40, 0x41] : List Byte),
      ∀ w ∈ (chunk [] (((request .program true 0).drop k ++ [v]).flatMap (serial true))).1,
        Inert w := by
  decide +kernel

theorem Settled.cmdLen_of_twin {jedecId : BitVec 32} (h : Settled s) (hin : s.inBits = 0)
    (htwin : Twin s (fresh mem jedecId)) : s.cmdLen = 0 := by
  by_contra hne
  obtain ⟨ws, op, a, len, htakes, hop, ha, hws, hlen⟩ := h.takes hin hne
  have hmax := access_len_le ha
  obtain ⟨k, hk⟩ : ∃ k, len.toNat = ws.length + k := ⟨len.toNat - ws.length, by omega⟩
  -- the new flash gets as many bytes of a program command as are missing here
  have hcount : ((request .program true 0).take k).length = k := by
    rw [List.length_take]
    exact Nat.min_eq_left (by change k ≤ 5; omega)
  obtain ⟨vs, v, hvs⟩ := (List.eq_nil_or_concat' ((request .program true 0).take k)).resolve_left
    (List.ne_nil_of_length_pos (by rw [hcount]; omega))
  obtain ⟨cs, c, hbits⟩ := exists_bits vs v
  have hhead : (vs ++ [v]).head? = some (opcode .program true) := by
    rw [← hvs, List.head?_take, if_neg (by omega)]
    rfl
  have hshort : (vs ++ [v]).length < (5 : BitVec 8).toNat := by
    rw [← hvs, hcount]
    change k < 5
    omega
  obtain ⟨u, hu, hurun⟩ := htakes.completed hop ha
    (by rw [List.length_append, ← hvs, hcount, hk]) hbits
  obtain ⟨r, -, hrrun, hsent⟩ := (takes_fresh mem jedecId).more (access_opcode .program true)
    hhead hshort hbits
  have hmem : k ∈ [1, 2, 3, 4] := by
    simp only [List.mem_cons, List.not_mem_nil, or_false]
    omega
  obtain ⟨x, hx, hother⟩ := exists_other (u.mem 0)
  have hleft := stays_mem hu (by decide : ([] : List Bool).length < 8) _
    (program_end_inert k hmem x hx)
  have hright := programmed_byte (takes_fresh mem jedecId) true 0 x (x := 0) rfl
  have hsame := (htwin.led hurun hrrun (.cs false ::
    (send ((request .program true 0).drop k ++ [x]) ++ [Edge.cs true]))).2
  have hwhole : send (request .program true 0 ++ [x]) =
      send (vs ++ [v]) ++ send ((request .program true 0).drop k ++ [x]) := by
    rw [← send_append, ← hvs, ← List.append_assoc, List.take_append_drop]
  rw [shifted_nil hu.inBits] at hleft
  rw [hwhole, List.append_assoc, Clocked.run_append, hsent] at hright
  rw [run_resting, run_resting, hleft] at hsame
  rw [← hsame] at hright
  exact hother hright.symm

/-! ## The law -/

/-- After the selection the chip select goes high again, and SCK falls. -/
def settling (sck : Bool) : List Edge :=
  .cs false :: .cs true :: (if sck then [.sck false] else [.sck false, .sck false])

theorem run_settling (hended : s.Ended) (sck : Bool) :
    SpiBus.machine.run ⟨s, sck, true⟩ (settling sck) = resting { s with outBits := 0 } := by
  have hcs := hended.csChanged
  cases sck with
  | true =>
    change resting { s.csChanged false with outBits := 0 } = _
    rw [hcs]
  | false =>
    change resting { s.csChanged false with outBits := 0 } = _
    rw [hcs]

theorem clean_of_framed {b : SpiBus} (hgood : b.Good) (hcs : b.cs = true) (h : Framed b) :
    Clean b.dev := by
  obtain ⟨s, sck, cs⟩ := b
  have hlevel : cs = true := hcs
  subst hlevel
  have hended := hgood.ended rfl
  have hsound := hgood.sound
  have hsame : Same (SpiBus.machine.run ⟨s, sck, true⟩ [.cs false])
      (SpiBus.machine.run ⟨fresh s.mem s.jedecId, sck, true⟩ [.cs false]) := h
  have hleft := run_settling hended sck
  have hright := run_settling (s := fresh s.mem s.jedecId) ⟨rfl, rfl, rfl⟩ sck
  have htwin : Twin { s with outBits := 0 } (fresh s.mem s.jedecId) := by
    have hrun := hsame.run (settling sck).tail
    rw [← Clocked.run_append, ← Clocked.run_append] at hrun
    change Same (SpiBus.machine.run _ (settling sck)) (SpiBus.machine.run _ (settling sck)) at hrun
    rw [hleft, hright] at hrun
    exact hrun
  have hended' : SpiFlash.Ended { s with outBits := 0 } :=
    ⟨hended.programming, hended.reading, hended.erasing⟩
  have hsound' : SpiFlash.Sound { s with outBits := 0 } :=
    ⟨⟨SpiFlash.zero_lt_eight, hsound.outByte, hsound.rsp⟩, hsound.inBits, hsound.cmd⟩
  have hmute : Mute { s with outBits := 0 } := ⟨hended', s.mem, s.jedecId, htwin⟩
  have hrsp := hmute.rsp hsound' rfl hgood.jedecId
  have hout := hmute.outByte rfl hrsp
  have hsettled : Settled { s with outBits := 0 } :=
    ⟨⟨rfl, hout, hended.reading, hrsp⟩, hended', hsound'⟩
  have hin := hsettled.inBits_of_twin htwin
  exact ⟨hin, hsettled.cmdLen_of_twin hin htwin, hrsp, hout⟩

/-- After any history that ends with the flash deselected, the next selection keeps the law if
and only if nothing is left in the flash. -/
theorem lawful_iff {b : SpiBus} (h : SpiBus.Created b) (es : List Edge)
    (hcs : (SpiBus.machine.run b es).cs = true) :
    Lawful (SpiBus.machine.run b es) ↔ Clean (SpiBus.machine.run b es).dev := by
  have hgood := SpiBus.good_run h es
  rw [lawful_iff_framed]
  exact ⟨clean_of_framed hgood hcs, framed_of_clean hgood hcs⟩

/-- A new flash that was never written. -/
def newFlash : SpiBus := ⟨fresh (fun _ => 0xff) 0xef4019, false, true⟩

theorem created_newFlash : SpiBus.Created newFlash :=
  ⟨⟨fresh (fun _ => 0xff) 0xef4019, rfl, rfl, Or.inl rfl⟩, rfl⟩

/-- A byte is programmed, and the flash deselected. -/
def oneByte (v : Byte) : List Edge :=
  .cs false :: (send (request .program false 0 ++ [v]) ++ [.cs true])

theorem lawful_after_program : Lawful (SpiBus.machine.run newFlash (oneByte 0xaa)) :=
  (lawful_iff created_newFlash (oneByte 0xaa) (by decide +kernel)).mpr
    ⟨by decide +kernel, by decide +kernel, by decide +kernel, by decide +kernel⟩

/-- The first byte of a read command alone. -/
def abandoned : List Edge := .cs false :: (send [0x03] ++ [.cs true])

/-- The program command that comes next is not carried out. -/
theorem not_lawful_after_abandoned :
    SpiBus.Created newFlash ∧ (SpiBus.machine.run newFlash abandoned).cs = true ∧
      (SpiBus.machine.run (SpiBus.machine.run newFlash abandoned) (oneByte 0xaa)).dev.mem 0 = 0xff ∧
      ¬ Lawful (SpiBus.machine.run newFlash abandoned) := by
  have hlost : (SpiBus.machine.run (SpiBus.machine.run newFlash abandoned)
      (oneByte 0xaa)).dev.mem 0 = 0xff := by decide +kernel
  refine ⟨created_newFlash, by decide +kernel, hlost, fun hlaw => ?_⟩
  have hlow : (SpiBus.machine.run newFlash abandoned).sck = false := by decide +kernel
  have hcarried := hlaw.carried (.program false 0 [0xaa]) trivial
  have hbyte := hcarried.bytes 0 0 (by decide) (by decide) (by decide)
  rw [stored, selected, hlow] at hbyte
  exact absurd (hlost.symm.trans hbyte) (by decide)

end SonataSystem.SpiDpi
