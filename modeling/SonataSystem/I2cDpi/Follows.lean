import SonataSystem.I2cDpi.Frames

/-!
# Devices with something added

A device may be given more state than it has, as a record of its traffic, as long as it goes
on behaving as it did. `Follows` says so of two kinds of devices, and the bus model then does
the same with both (`Bus.run_map`).

This is a simulation with equality for its relation: nothing on the bus looks into a device but
through the methods, and a map that respects these is not noticed.
-/

set_option autoImplicit false

namespace SonataSystem.I2cDpi

open Lib

/-- Devices of one kind are devices of another with something added. -/
structure Follows {σ τ : Type*} (D : I2cDevice σ) (E : I2cDevice τ) (f : σ → τ) : Prop where
  busReset (d : σ) : f (D.busReset d) = E.busReset (f d)
  startCond (d : σ) : f (D.startCond d) = E.startCond (f d)
  restartCond (d : σ) : f (D.restartCond d) = E.restartCond (f d)
  accessStarting (d : σ) (read : Bool) : f (D.accessStarting d read) = E.accessStarting (f d) read
  stopCond (d : σ) : f (D.stopCond d) = E.stopCond (f d)
  writeByte (d : σ) (v : Byte) (oobIn : Oob) :
    E.writeByte (f d) v oobIn = ((D.writeByte d v oobIn).1, f (D.writeByte d v oobIn).2)
  readByte (d : σ) (oobIn : Oob) (cur : Byte) (oobOut : Oob) :
    E.readByte (f d) oobIn cur oobOut =
      let r := D.readByte d oobIn cur oobOut
      ⟨r.ok, r.outByte, r.oobOut, f r.dev⟩

namespace Bus

variable {σ τ : Type*} {D : I2cDevice σ} {E : I2cDevice τ} {f : σ → τ}

def map (f : σ → τ) (b : Bus σ) : Bus τ :=
  { b with devs := fun addr => (b.devs addr).map f }

theorem map_update (devs : BitVec 8 → Option σ) (addr : BitVec 8) (d : σ) :
    (fun a => (Function.update devs addr (some d) a).map f) =
      Function.update (fun a => (devs a).map f) addr (some (f d)) := by
  funext a
  by_cases ha : a = addr
  · subst ha
    simp
  · simp [ha]

theorem map_setDevice (b : Bus σ) (addr : BitVec 8) (d : σ) :
    (b.setDevice addr d).map f = (b.map f).setDevice addr (f d) := by
  simp only [map, setDevice, map_update]

theorem map_allDevices {g : σ → σ} {g' : τ → τ} (h : ∀ d, f (g d) = g' (f d)) (b : Bus σ) :
    (b.allDevices g).map f = (b.map f).allDevices g' := by
  simp [map, allDevices, Function.comp_def, h]

theorem current_map (b : Bus σ) : (b.map f).current = b.current.map fun p => (p.1, f p.2) := by
  unfold current map
  cases b.currDevice with
  | none => rfl
  | some addr =>
    cases h : b.devs addr <;> simp [h]

theorem map_supply (hf : Follows D E f) (b : Bus σ) (addr : BitVec 8) (d : σ) (oobIn : Oob) :
    (b.supply D addr d oobIn).map f = (b.map f).supply E addr (f d) oobIn := by
  have hset := map_setDevice (f := f) b addr (D.readByte d oobIn b.currByte b.latestOobOut).dev
  unfold supply
  rw [show E.readByte (f d) oobIn (b.map f).currByte (b.map f).latestOobOut = _ from
    hf.readByte d oobIn b.currByte b.latestOobOut]
  dsimp only
  rw [← hset]
  rfl

theorem map_awake (hf : Follows D E f) (b : Bus σ) : (b.awake D).map f = (b.map f).awake E := by
  unfold awake
  rw [show (b.map f).prevRst = b.prevRst from rfl, ← map_allDevices hf.busReset]
  split <;> rfl

theorem map_addressed (hf : Follows D E f) (b : Bus σ) (oobIn : Oob) :
    (b.addressed D oobIn).map f = (b.map f).addressed E oobIn := by
  cases hd : b.devs (b.currByte >>> 1) with
  | none =>
    have hd' : (b.map f).devs ((b.map f).currByte >>> 1) = none := by simp [map, hd]
    rw [addressed_absent hd, addressed_absent hd']
    rfl
  | some d =>
    have hd' : (b.map f).devs ((b.map f).currByte >>> 1) = some (f d) := by simp [map, hd]
    cases hr : b.currByte.getLsbD 0 with
    | false =>
      have hset := map_setDevice (f := f) b (b.currByte >>> 1) (D.accessStarting d false)
      rw [hf.accessStarting] at hset
      rw [addressed_write hd hr, addressed_write hd' hr,
        show (b.map f).currByte = b.currByte from rfl, ← hset]
      rfl
    | true =>
      have hsup := map_supply hf b (b.currByte >>> 1) (D.accessStarting d true) oobIn
      rw [hf.accessStarting] at hsup
      rw [addressed_read hd hr, addressed_read hd' hr,
        show (b.map f).currByte = b.currByte from rfl, ← hsup]
      rfl

theorem map_state (b : Bus σ) : (b.map f).state = b.state := rfl

theorem map_prevScl (b : Bus σ) : (b.map f).prevScl = b.prevScl := rfl

theorem map_prevSda (b : Bus σ) : (b.map f).prevSda = b.prevSda := rfl

theorem map_reading (b : Bus σ) : (b.map f).reading = b.reading := rfl

theorem advance_map (hf : Follows D E f) (b : Bus σ) (i : Pins) :
    advance E (b.map f) i = ((advance D b i).1.map f, (advance D b i).2) := by
  unfold advance
  rw [current_map, map_state, map_prevScl, map_prevSda, map_reading]
  cases hst : b.state with
  -- The states in which a device is called are those of the address byte, of a data byte, and of
  -- the conditions around them; in the others the two sides agree by computation.
  | idle =>
    rw [← map_allDevices hf.startCond]
    dsimp only
    split <;> rfl
  | addr =>
    dsimp only
    split
    · by_cases hfull : 8 ≤ b.numBits + 1
      · rw [if_pos hfull, if_pos (show 8 ≤ (b.map f).numBits + 1 from hfull), map_addressed hf]
        rfl
      · rw [if_neg hfull, if_neg (show ¬ 8 ≤ (b.map f).numBits + 1 from hfull)]
        rfl
    · rfl
  | sentData =>
    dsimp only
    split
    · cases b.current with
      | none => rfl
      | some p =>
        dsimp only [Option.map_some]
        cases i.sda with
        | true => rfl
        | false =>
          rw [if_neg Bool.false_ne_true, if_neg Bool.false_ne_true, ← map_supply hf]
          rfl
    · rfl
  | data =>
    dsimp only
    split
    · cases b.current with
      | none => rfl
      | some p =>
        dsimp only [Option.map_some]
        rw [← hf.stopCond, ← map_setDevice]
        rfl
    · split
      · cases b.current with
        | none => rfl
        | some p =>
          dsimp only [Option.map_some]
          rw [← hf.restartCond, ← map_setDevice]
          rfl
      · cases b.current with
        | none => rfl
        | some p =>
          dsimp only [Option.map_some]
          split
          · split <;> rfl
          · split
            · by_cases hfull : 8 ≤ b.numBits + 1
              · rw [if_pos hfull, if_pos (show 8 ≤ (b.map f).numBits + 1 from hfull)]
                dsimp only
                rw [show (b.map f).currByte = b.currByte from rfl, hf.writeByte]
                simp only [setDevice, map, map_update]
              · rw [if_neg hfull, if_neg (show ¬ 8 ≤ (b.map f).numBits + 1 from hfull)]
                rfl
            · rfl
  | gotAddr | gotData | gotAckNak | sendAckNak =>
    dsimp only
    split <;> rfl
  | start | restart => rfl

theorem decode_map (hf : Follows D E f) (b : Bus σ) (i : Pins) :
    decode E (b.map f) i = (decode D b i).map f := by
  unfold decode
  rw [← map_awake hf, advance_map hf]
  rfl

/-- The model does not see what is added to the devices. -/
theorem run_map (hf : Follows D E f) (b : Bus σ) (is : List Pins) :
    (machine E).run (b.map f) is = ((machine D).run b is).map f ∧
      (machine E).emit (wire E) (b.map f) is = (machine D).emit (wire D) b is := by
  induction is generalizing b with
  | nil => exact ⟨rfl, rfl⟩
  | cons i is ih =>
    obtain ⟨hrun, hemit⟩ := ih (decode D b i)
    have hwire : wire E (b.map f) i = wire D b i := by
      unfold wire sdaOut
      rw [← map_awake hf, advance_map hf]
    rw [← decode_map hf] at hrun hemit
    refine ⟨hrun, ?_⟩
    change wire E (b.map f) i ++ _ = wire D b i ++ _
    rw [hwire]
    exact congrArg (wire D b i ++ ·) hemit

end Bus

end SonataSystem.I2cDpi
