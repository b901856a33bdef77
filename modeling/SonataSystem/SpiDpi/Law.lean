import SonataSystem.SpiDpi.Reads

/-!
# The law of a selection

`Lawful` is what a selection of the flash promises: what follows depends on the edges from
there on and on the memory, and a whole command with an address does to the bytes of that
address what it is for. The flash keeps it where nothing is left of earlier selections.

The law is about edges and memory alone, so that a flash which keeps it can be used without
knowing what was sent to it before. It is stated by comparison with a flash that was just created
with the same memory.
-/

set_option autoImplicit false

namespace SonataSystem.SpiDpi

open Lib

/-- A byte of the memory by the number of its address, 0xff beyond the end. -/
def byteAt (mem : Mem) (n : Nat) : Byte := if n < 2 ^ 25 then mem (BitVec.ofNat 25 n) else 0xff

/-- A command with an address, and the bytes that are sent after it. -/
inductive Command
  | read (wide : Bool) (addr : BitVec 32) (ds : List Byte)
  | program (wide : Bool) (addr : BitVec 32) (vs : List Byte)
  | erase (wide : Bool) (addr : BitVec 32)

/-- No byte that is sent while bytes are read is the first of a command. -/
def Command.Complete : Command → Prop
  | .read _ _ ds => ∀ v ∈ ds, Idle v
  | .program _ _ _ => True
  | .erase _ _ => True

/-- The address so many bytes after that of the command. -/
def after (wide : Bool) (addr : BitVec 32) (k : Nat) : Nat :=
  ((target wide addr).toNat + k) % 2 ^ 32

/-- SCK goes low. -/
def lowered (sck : Bool) : List Edge := if sck then [.sck false] else []

/-- The flash is selected, and bytes are sent to it. -/
def selected (b : SpiBus) (vs : List Byte) : List Edge :=
  .cs false :: (lowered b.sck ++ send vs)

/-- The memory after such a selection. -/
def stored (b : SpiBus) (vs : List Byte) : Mem :=
  (SpiBus.machine.run b (selected b vs ++ [.cs true])).dev.mem

/-- Only bytes with an address of the command are changed, and each to what was sent for it. -/
structure Programmed (mem : Mem) (wide : Bool) (addr : BitVec 32) (vs : List Byte)
    (mem' : Mem) : Prop where
  frame (x : BitVec 25) : mem' x ≠ mem x → ∃ k < vs.length, x.toNat = after wide addr k
  bytes (x : BitVec 25) (k : Nat) (hk : k < vs.length) :
    vs.length ≤ 2 ^ 32 → x.toNat = after wide addr k → mem' x = vs[k]

/-- What a command is for. A read finds its bytes on CIPO from the edge on that ends the
address. -/
def Carried (b : SpiBus) : Command → Prop
  | .read wide addr ds =>
    ∃ next, SpiBus.machine.emit SpiBus.cipo b (selected b (request .read wide addr ++ ds)) =
      List.replicate ((lowered b.sck).length + (8 * (request .read wide addr).length - 1)) false ++
        ((List.range ds.length).flatMap (fun k =>
          serial true (byteAt b.dev.mem (after wide addr k))) ++ [next])
  | .program wide addr vs =>
    Programmed b.dev.mem wide addr vs (stored b (request .program wide addr ++ vs))
  | .erase wide addr => stored b (request .erase wide addr) = erased b.dev.mem (target wide addr)

/-- The law of a selection of the flash in this state. -/
structure Lawful (b : SpiBus) : Prop where
  framed : Framed b
  carried (c : Command) : c.Complete → Carried b c

/-! ## Commands to a new flash -/

theorem load_eq (mem : Mem) (addr : BitVec 32) :
    SpiFlash.load mem addr = byteAt mem addr.toNat := by
  unfold SpiFlash.load byteAt
  have hiff : addr < SpiFlash.kFlashBytes ↔ addr.toNat < 2 ^ 25 := BitVec.lt_def
  have hcast : addr.setWidth 25 = BitVec.ofNat 25 addr.toNat := rfl
  simp only [hiff, hcast]

theorem loads_eq (mem : Mem) (addr : BitVec 32) (n : Nat) :
    loads mem addr n = (List.range n).map fun k => byteAt mem ((addr.toNat + k) % 2 ^ 32) := by
  induction n generalizing addr with
  | zero => rfl
  | succ n ih =>
    rw [loads, load_eq, List.range_succ_eq_map, List.map_cons, List.map_map, Nat.add_zero,
      Nat.mod_eq_of_lt addr.isLt, ih, toNat_next]
    congr 1
    refine List.map_congr_left fun k _ => ?_
    rw [Nat.mod_add_mod, Nat.add_assoc, Nat.add_comm 1 k]
    rfl

/-- The selection of a new flash, with SCK low at its end. -/
theorem opened (mem : Mem) (jedecId : BitVec 32) (sck cs : Bool) :
    SpiBus.machine.run ⟨fresh mem jedecId, sck, cs⟩ (.cs false :: lowered sck) =
        ⟨fresh mem jedecId, false, false⟩ ∧
      SpiBus.machine.emit SpiBus.cipo ⟨fresh mem jedecId, sck, cs⟩ (.cs false :: lowered sck) =
        List.replicate (lowered sck).length false := by
  cases sck with
  | false => exact ⟨rfl, rfl⟩
  | true =>
    have hquiet := (takes_fresh mem jedecId).toQuiet.launch
    refine ⟨?_, ?_⟩
    · change SpiBus.mk ((fresh mem jedecId).launchEdge false).1 false false = _
      rw [hquiet]
    · change [((fresh mem jedecId).launchEdge false).2] = _
      rw [hquiet]
      rfl

theorem selected_append (b : SpiBus) (vs : List Byte) (es : List Edge) :
    selected b vs ++ es = (.cs false :: lowered b.sck) ++ (send vs ++ es) := by
  rw [selected, List.cons_append, List.append_assoc, List.cons_append]

theorem run_selected (b : SpiBus) (vs : List Byte) (es : List Edge) :
    SpiBus.machine.run b.renewed (selected b vs ++ es) =
      SpiBus.machine.run ⟨fresh b.dev.mem b.dev.jedecId, false, false⟩ (send vs ++ es) := by
  rw [selected_append, Clocked.run_append]
  exact congrArg (SpiBus.machine.run · _) (opened b.dev.mem b.dev.jedecId b.sck b.cs).1

theorem emit_selected (b : SpiBus) (vs : List Byte) :
    SpiBus.machine.emit SpiBus.cipo b.renewed (selected b vs) =
      List.replicate (lowered b.sck).length false ++
        SpiBus.machine.emit SpiBus.cipo ⟨fresh b.dev.mem b.dev.jedecId, false, false⟩
          (send vs) := by
  have hopened := opened b.dev.mem b.dev.jedecId b.sck b.cs
  have hsplit := selected_append b vs []
  rw [List.append_nil, List.append_nil] at hsplit
  rw [hsplit, Clocked.emit_append]
  unfold SpiBus.renewed
  rw [hopened.1, hopened.2]

theorem stored_renewed (b : SpiBus) (vs : List Byte) :
    stored b.renewed vs =
      (SpiBus.machine.run ⟨fresh b.dev.mem b.dev.jedecId, false, false⟩
        (send vs ++ [.cs true])).dev.mem :=
  congrArg (fun b : SpiBus => b.dev.mem) (run_selected b vs [.cs true])

theorem carried_renewed (b : SpiBus) (c : Command) (h : c.Complete) : Carried b.renewed c := by
  cases c with
  | read wide addr ds =>
    obtain ⟨next, hread⟩ :=
      read_command (takes_fresh b.dev.mem b.dev.jedecId) wide addr ds h
    refine ⟨next, (emit_selected b _).trans ?_⟩
    rw [hread, loads_eq, List.flatMap_map, ← List.append_assoc,
      List.replicate_append_replicate]
    rfl
  | program wide addr vs =>
    change Programmed b.dev.mem wide addr vs (stored b.renewed _)
    rw [stored_renewed, program_command (takes_fresh b.dev.mem b.dev.jedecId)]
    exact ⟨programAll_frame b.dev.mem _ vs, fun x k hk hlen hx =>
      programAll_apply b.dev.mem _ vs hlen x k hk hx⟩
  | erase wide addr =>
    change stored b.renewed _ = erased b.dev.mem (target wide addr)
    rw [stored_renewed]
    exact erase_command (takes_fresh b.dev.mem b.dev.jedecId) wide addr

/-! ## Where the law holds -/

theorem Framed.stored_eq {b : SpiBus} (h : Framed b) (vs : List Byte) :
    stored b vs = stored b.renewed vs :=
  (h (lowered b.sck ++ send vs ++ [Edge.cs true])).2

theorem carried_of_framed {b : SpiBus} (h : Framed b) (c : Command) (hc : c.Complete) :
    Carried b c := by
  have hnew := carried_renewed b c hc
  cases c with
  | read wide addr ds =>
    obtain ⟨next, hemit⟩ := hnew
    exact ⟨next, (h (lowered b.sck ++ send (request .read wide addr ++ ds))).1.trans hemit⟩
  | program wide addr vs =>
    change Programmed b.dev.mem wide addr vs (stored b _)
    rw [h.stored_eq]
    exact hnew
  | erase wide addr =>
    change stored b _ = erased b.dev.mem (target wide addr)
    rw [h.stored_eq]
    exact hnew

theorem lawful_iff_framed (b : SpiBus) : Lawful b ↔ Framed b :=
  ⟨Lawful.framed, fun h => ⟨h, carried_of_framed h⟩⟩

end SonataSystem.SpiDpi
