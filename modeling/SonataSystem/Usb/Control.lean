import SonataSystem.Usb.Driver

/-!
# The default control pipe

What `usbdev_ep0_recv` and `usbdev_ep0_sent` make of the packets of endpoint zero, in any order;
`ep0_recv` and `ep0_sent` of `usbdev-utils.hh` decide alike. The transfers are numbered, so that
it can be said whose packet the host has collected.

`Served` is what a device owes the host: it answers every request that it supports, with as much
of the descriptor as was asked for, and only the status stage of a request changes what the
request is about. The driver takes a SETUP packet that interrupts a transfer for the end of that
transfer, and any packet that is collected for the one that it waits for. It has one packet for a
reply, and passes its length as eight bits: a reply of more than 64 bytes fails an assertion, or
from 256 on may be cut to what is left of its length. `served_iff` says which runs do without.

What the driver waits for is one of four states, and it is never told which transfer a packet
belongs to. The numbers of the transfers are not in the code: they are put there so that the right
answer can be named.
-/

set_option autoImplicit false

namespace SonataSystem.Usb

open Lib

/-! ## Requests -/

/-- The requests that the driver supports. -/
inductive Request
  | getDeviceDescriptor | getConfigDescriptor | getTestConfig
  | setAddress (addr : BitVec 8)
  | setConfiguration
  deriving DecidableEq, Repr

/-- The request of a SETUP packet, if it is one of those that are supported. -/
def request? (data : Bytes) : Option Request :=
  match data 1 with
  | 6#8 =>
    match data 3 with
    | 1#8 => some .getDeviceDescriptor
    | 2#8 => some .getConfigDescriptor
    | _ => none
  | 5#8 => some (.setAddress (data 2))
  | 9#8 => some .setConfiguration
  | 0x7C#8 => some .getTestConfig
  | _ => none

namespace Usbdev

variable (u : Usbdev) (data : Bytes)

/-- What `usbdev_ep0_recv` replies to a request. -/
def reply : Request → Reply
  | .getDeviceDescriptor => ⟨u.devDscr, replyLen data (u.devLen.setWidth 16), .statusGetDesc⟩
  | .getConfigDescriptor => ⟨u.cfgDscr, replyLen data u.cfgLen, .statusGetDesc⟩
  | .getTestConfig => ⟨u.testDscr, replyLen data (u.testLen.setWidth 16), .statusGetDesc⟩
  | .setAddress _ => ⟨data, 0#8, .statusSetAddr⟩
  | .setConfiguration => ⟨data, 0#8, .statusSetConfig⟩

/-- How long the answer to a request is to be: so much of a descriptor as was asked for, or an
empty packet. -/
def answerLen : Request → Nat
  | .getDeviceDescriptor => min (data 7 ++ data 6).toNat u.devLen.toNat
  | .getConfigDescriptor => min (data 7 ++ data 6).toNat u.cfgLen.toNat
  | .getTestConfig => min (data 7 ++ data 6).toNat u.testLen.toNat
  | .setAddress _ => 0
  | .setConfiguration => 0

/-- The driver with the request that it is to see to. -/
def accept : Request → Usbdev
  | .setAddress addr => { u with devAddr := addr }
  | _ => u

end Usbdev

/-! ## Control transfers -/

/-- A packet that came in, or one that was collected. -/
inductive ControlEvent
  | recv (setup : Bool) (size : BitVec 7) (data : Bytes)
  /-- The host has collected the packet of a transfer. -/
  | sent (transfer : Nat)

/-- The driver, with what it has written to `USBCTRL`. -/
structure Control where
  usbdev : Usbdev
  deviceAddress : BitVec 7
  /-- An assertion failed. -/
  aborted : Bool
  /-- For the record: how many transfers there have been, and the request of the last. -/
  transfers : Nat
  request : Option Request
  /-- For the record: the packets that have been presented and not reported as sent, each with
  the number of its transfer. -/
  presented : List (Nat × Usbdev.Reply)

namespace Control

variable (s : Control)

/-- A SETUP packet begins a transfer. -/
def begin (setup : Bool) (size : BitVec 7) (data : Bytes) : Control :=
  if setup && size == 8#7 then
    { s with
      transfers := s.transfers + 1
      request := request? data }
  else s

/-- `usbdev_ep0_recv`, with `usbdev_packet_send`. -/
def recv (setup : Bool) (size : BitVec 7) (data : Bytes) : Control :=
  let t := s.begin setup size data
  match s.usbdev.ep0Recv setup size data with
  | (u, none) => { t with usbdev := u }
  | (u, some reply) =>
    if maxPacketLen < reply.len then
      { t with
        usbdev := u
        aborted := true }
    else
      { t with
        usbdev := { u with ctrlState := reply.ctrlState }
        presented := (t.transfers, reply) :: s.presented }

/-- `usbdev_ep0_sent`, with its write to `USBCTRL`. -/
def sent (transfer : Nat) : Control :=
  { s with
    usbdev := s.usbdev.ep0Sent
    deviceAddress :=
      if s.usbdev.ctrlState = .statusSetAddr then s.usbdev.devAddr.setWidth 7
      else s.deviceAddress
    presented := s.presented.filter fun p => p.1 != transfer }

/-- A packet that has not been presented is not collected. -/
def step : ControlEvent → Control
  | .recv setup size data => if s.aborted then s else s.recv setup size data
  | .sent transfer =>
    if s.aborted || !(s.presented.map Prod.fst).contains transfer then s else s.sent transfer

/-- After `usbdev_init`. -/
structure Start : Prop where
  ctrlState : s.usbdev.ctrlState = .setup
  devState : s.usbdev.devState = .reset
  deviceAddress : s.deviceAddress = 0
  aborted : s.aborted = false
  transfers : s.transfers = 0
  request : s.request = none
  presented : s.presented = []

end Control

def controlPipe : Clocked Control ControlEvent := ⟨Control.Start, Control.step⟩

/-! ## What is asked for -/

namespace Control

/-- The address, and whether the device is configured. -/
def enumeration (s : Control) : BitVec 7 × DevState := (s.deviceAddress, s.usbdev.devState)

/-- What is wanted of the status stage of the last request. -/
def completed (s : Control) : BitVec 7 × DevState :=
  match s.request with
  | some (.setAddress addr) => (addr.setWidth 7, .addressed)
  | some .setConfiguration => (s.deviceAddress, .configured)
  | _ => s.enumeration

structure Served (s : Control) (e : ControlEvent) : Prop where
  /-- A request that is supported is answered. -/
  answered : ∀ data q, e = .recv true 8#7 data → request? data = some q →
    (s.step e).presented = (s.transfers + 1, s.usbdev.reply data q) :: s.presented ∧
      (s.usbdev.reply data q).len.toNat = s.usbdev.answerLen data q ∧
      (s.step e).usbdev =
        { s.usbdev.accept q with ctrlState := (s.usbdev.reply data q).ctrlState } ∧
      (s.step e).aborted = false
  /-- Address and configuration change by the status packet of the last request alone. -/
  changed : (s.step e).enumeration ≠ s.enumeration →
    e = .sent s.transfers ∧ (s.step e).enumeration = s.completed

/-- No request interrupts a transfer or has an answer that is too long for a packet; and a packet
of another transfer is not collected while the driver waits for a status packet, unless that
would change nothing. -/
def Undisturbed (s : Control) : ControlEvent → Prop
  | .recv setup size data => ∀ q, setup = true → size = 8#7 → request? data = some q →
    s.usbdev.ctrlState = .setup ∧ s.usbdev.answerLen data q ≤ maxPacketLen.toNat
  | .sent transfer => transfer ∈ s.presented.map Prod.fst → transfer ≠ s.transfers →
    (s.usbdev.ctrlState = .statusSetAddr →
      s.enumeration = (s.usbdev.devAddr.setWidth 7, .addressed)) ∧
    (s.usbdev.ctrlState = .statusSetConfig → s.usbdev.devState = .configured)

instance (s : Control) : ∀ e, Decidable (s.Undisturbed e)
  | .recv setup size data =>
    decidable_of_iff
      (∀ q ∈ request? data, setup = true → size = 8#7 →
        s.usbdev.ctrlState = .setup ∧ s.usbdev.answerLen data q ≤ maxPacketLen.toNat)
      ⟨fun h q hsetup hsize hq => h q hq hsetup hsize,
        fun h q hq hsetup hsize => h q hsetup hsize hq⟩
  | .sent _ => inferInstanceAs (Decidable (_ → _ → _))

/-- The driver waits for the status packet of the last request. -/
structure Waits (s : Control) : Prop where
  aborted : s.aborted = false
  address : s.usbdev.ctrlState = .statusSetAddr →
    s.request = some (.setAddress s.usbdev.devAddr)
  config : s.usbdev.ctrlState = .statusSetConfig → s.request = some .setConfiguration

end Control

/-! ## The driver's two functions -/

namespace Usbdev

variable {u : Usbdev}

theorem ep0Recv_of_setup (hu : u.ctrlState = .setup) (data : Bytes) :
    u.ep0Recv true 8#7 data =
      match request? data with
      | some q => (u.accept q, some (u.reply data q))
      | none => (u, none) := by
  cases u with
  | mk bufFree devDscr devLen cfgDscr cfgLen testDscr testLen devAddr devState ctrlState =>
    obtain rfl : ctrlState = .setup := hu
    unfold ep0Recv request?
    dsimp only
    rw [if_pos (by decide)]
    generalize data 1 = code
    split
    · split <;> simp_all [accept, reply]
    · simp [accept, reply]
    · simp [accept, reply]
    · simp [accept, reply]
    · simp_all

/-- **What becomes of a packet**: a supported request is answered where the driver looks for one,
and everything else ends a transfer. -/
theorem ep0Recv_cases (u : Usbdev) (setup : Bool) (size : BitVec 7) (data : Bytes) :
    (∃ q, u.ctrlState = .setup ∧ setup = true ∧ size = 8#7 ∧ request? data = some q ∧
      u.ep0Recv setup size data = (u.accept q, some (u.reply data q))) ∨
    ((∀ q, u.ctrlState = .setup → setup = true → size = 8#7 → request? data ≠ some q) ∧
      u.ep0Recv setup size data = ({ u with ctrlState := .setup }, none)) := by
  -- Only a SETUP packet of eight bytes that finds the driver waiting for one is looked at.
  by_cases hu : u.ctrlState = .setup
  · have hsame : { u with ctrlState := .setup } = u := by rw [← hu]
    rw [hsame]
    by_cases hp : setup = true ∧ size = 8#7
    · obtain ⟨rfl, rfl⟩ := hp
      rw [ep0Recv_of_setup hu]
      cases hq : request? data with
      | some q => exact Or.inl ⟨q, hu, rfl, rfl, rfl, rfl⟩
      | none =>
        refine Or.inr ⟨fun q _ _ _ hsome => ?_, rfl⟩
        cases hsome
    · refine Or.inr ⟨fun q _ h1 h2 => absurd ⟨h1, h2⟩ hp, ?_⟩
      unfold ep0Recv
      rw [hu]
      dsimp only
      rw [if_neg]
      intro hboth
      rw [Bool.and_eq_true, beq_iff_eq] at hboth
      exact hp hboth
  · refine Or.inr ⟨fun q h => absurd h hu, ?_⟩
    unfold ep0Recv
    split
    next heq => exact absurd heq hu
    next => rfl

/-- The length of the reply is that of the answer, in eight bits. -/
theorem reply_len (u : Usbdev) (data : Bytes) (q : Request) :
    (u.reply data q).len.toNat = u.answerLen data q % 256 := by
  have hcut : ∀ wLen most : BitVec 16,
      (if most < wLen then most else wLen).toNat = min wLen.toNat most.toNat := by
    intro wLen most
    split
    next hless =>
      rw [BitVec.lt_def] at hless
      omega
    next hless =>
      rw [BitVec.lt_def] at hless
      omega
  have hlen : ∀ most : BitVec 16, (replyLen data most).toNat =
      min (data 7 ++ data 6).toNat most.toNat % 256 := by
    intro most
    unfold replyLen
    dsimp only
    rw [BitVec.toNat_setWidth, hcut]
  have hwide : ∀ most : BitVec 8, (most.setWidth 16).toNat = most.toNat := fun most =>
    BitVec.toNat_setWidth_of_le (by decide)
  cases q with
  | getDeviceDescriptor => exact (hlen _).trans (by rw [hwide]; rfl)
  | getConfigDescriptor => exact hlen _
  | getTestConfig => exact (hlen _).trans (by rw [hwide]; rfl)
  | setAddress addr => rfl
  | setConfiguration => rfl

/-- The answer is given in full and fits in a packet, or else the reply does not. -/
theorem answerLen_le_iff (u : Usbdev) (data : Bytes) (q : Request) :
    u.answerLen data q ≤ maxPacketLen.toNat ↔
      (u.reply data q).len.toNat = u.answerLen data q ∧ (u.reply data q).len ≤ maxPacketLen := by
  have hlen := u.reply_len data q
  have hmax : maxPacketLen.toNat = 64 := rfl
  rw [BitVec.le_def]
  constructor
  · intro hle
    rw [Nat.mod_eq_of_lt (by omega)] at hlen
    exact ⟨hlen, by omega⟩
  · rintro ⟨hfull, hle⟩
    rwa [← hfull]

theorem accept_devState (q : Request) : (u.accept q).devState = u.devState := by
  cases q <;> rfl

end Usbdev

/-! ## Steps -/

namespace Control

variable {s : Control}

/-- **What a packet from the host does.** -/
theorem step_recv_cases (hs : s.aborted = false) (setup : Bool) (size : BitVec 7) (data : Bytes) :
    (∃ q, s.usbdev.ctrlState = .setup ∧ setup = true ∧ size = 8#7 ∧ request? data = some q ∧
      (s.usbdev.reply data q).len ≤ maxPacketLen ∧
      s.step (.recv setup size data) = { s with
        usbdev := { s.usbdev.accept q with ctrlState := (s.usbdev.reply data q).ctrlState }
        transfers := s.transfers + 1
        request := some q
        presented := (s.transfers + 1, s.usbdev.reply data q) :: s.presented }) ∨
    (∃ q, setup = true ∧ size = 8#7 ∧ request? data = some q ∧
      ¬ (s.usbdev.reply data q).len ≤ maxPacketLen ∧
      (s.step (.recv setup size data)).aborted = true ∧
      (s.step (.recv setup size data)).enumeration = s.enumeration) ∨
    ((∀ q, s.usbdev.ctrlState = .setup → setup = true → size = 8#7 → request? data ≠ some q) ∧
      s.step (.recv setup size data) =
        { s.begin setup size data with usbdev := { s.usbdev with ctrlState := .setup } }) := by
  have hstep : s.step (.recv setup size data) = s.recv setup size data := by
    show (if s.aborted = true then s else _) = _
    rw [hs]
    rfl
  rw [hstep]
  unfold recv
  -- an answer is presented if it fits in a packet; if not, the assertion about it fails
  rcases s.usbdev.ep0Recv_cases setup size data with ⟨q, hu, rfl, rfl, hq, he⟩ | ⟨hno, he⟩
  · rw [he]
    have hbegin : s.begin true 8#7 data =
        { s with transfers := s.transfers + 1, request := some q } := by
      rw [← hq]
      rfl
    rw [hbegin]
    dsimp only
    by_cases hlen : (s.usbdev.reply data q).len ≤ maxPacketLen
    · rw [if_neg (BitVec.not_lt.mpr hlen)]
      exact Or.inl ⟨q, hu, rfl, rfl, hq, hlen, rfl⟩
    · rw [if_pos (BitVec.not_le.mp hlen)]
      refine Or.inr (Or.inl ⟨q, rfl, rfl, hq, hlen, rfl, ?_⟩)
      show (s.deviceAddress, (s.usbdev.accept q).devState) = _
      rw [Usbdev.accept_devState]
      rfl
  · rw [he]
    exact Or.inr (Or.inr ⟨hno, rfl⟩)

theorem begin_enumeration (setup : Bool) (size : BitVec 7) (data : Bytes) (u : Usbdev)
    (hu : u.devState = s.usbdev.devState) :
    ({ s.begin setup size data with usbdev := u } : Control).enumeration = s.enumeration := by
  unfold begin enumeration
  split <;> rw [hu]

theorem step_sent (hs : s.aborted = false) (transfer : Nat) :
    s.step (.sent transfer) =
      if transfer ∈ s.presented.map Prod.fst then s.sent transfer else s := by
  show (if s.aborted || !(s.presented.map Prod.fst).contains transfer then _ else _) = _
  rw [hs, Bool.false_or]
  by_cases hmem : transfer ∈ s.presented.map Prod.fst
  · rw [if_pos hmem, if_neg]
    simpa using hmem
  · rw [if_neg hmem, if_pos]
    simpa using hmem

theorem sent_enumeration (s : Control) (transfer : Nat) :
    (s.sent transfer).enumeration =
      match s.usbdev.ctrlState with
      | .statusSetAddr => (s.usbdev.devAddr.setWidth 7, .addressed)
      | .statusSetConfig => (s.deviceAddress, .configured)
      | _ => s.enumeration := by
  unfold sent enumeration Usbdev.ep0Sent
  cases s.usbdev.ctrlState <;> rfl

theorem sent_ctrlState (s : Control) (transfer : Nat) :
    (s.sent transfer).usbdev.ctrlState = .setup := by
  unfold sent Usbdev.ep0Sent
  cases s.usbdev.ctrlState <;> rfl

theorem waits_of_start (h : s.Start) : s.Waits where
  aborted := h.aborted
  address := by
    intro hc
    rw [h.ctrlState] at hc
    cases hc
  config := by
    intro hc
    rw [h.ctrlState] at hc
    cases hc

/-- The driver waits for the right packet, as long as it answers. -/
theorem Waits.step (hw : s.Waits) {e : ControlEvent} (hd : s.Undisturbed e) :
    (s.step e).Waits := by
  cases e with
  | recv setup size data =>
    rcases step_recv_cases hw.aborted setup size data with
      ⟨q, -, -, -, -, -, he⟩ | ⟨q, hsetup, hsize, hq, hlong, -⟩ | ⟨-, he⟩
    · -- a request: the state that its answer leads to is that of this request alone
      rw [he]
      refine ⟨hw.aborted, ?_, ?_⟩ <;> intro hc <;> cases q <;> cases hc <;> rfl
    · exact absurd ((Usbdev.answerLen_le_iff _ _ _).mp (hd q hsetup hsize hq).2).2 hlong
    · rw [he]
      refine ⟨?_, ?_, ?_⟩
      · unfold begin
        split <;> exact hw.aborted
      · intro hc
        cases hc
      · intro hc
        cases hc
  | sent transfer =>
    rw [step_sent hw.aborted]
    split
    · refine ⟨hw.aborted, ?_, ?_⟩
      · intro hc
        rw [sent_ctrlState] at hc
        cases hc
      · intro hc
        rw [sent_ctrlState] at hc
        cases hc
    · exact hw

theorem Undisturbed.served (hw : s.Waits) {e : ControlEvent} (hd : s.Undisturbed e) :
    s.Served e := by
  cases e with
  | recv setup size data =>
    rcases step_recv_cases hw.aborted setup size data with
      ⟨q, -, -, -, hq, -, he⟩ | ⟨q, hsetup, hsize, hq, hlong, -⟩ | ⟨hno, he⟩
    · refine ⟨?_, fun hne => ?_⟩
      · rintro data' q' ⟨⟩ hq'
        obtain rfl := Option.some.inj (hq.symm.trans hq')
        rw [he]
        exact ⟨rfl, ((Usbdev.answerLen_le_iff _ _ _).mp (hd q rfl rfl hq).2).1, rfl, hw.aborted⟩
      · rw [he] at hne
        refine absurd ?_ hne
        show (s.deviceAddress, (s.usbdev.accept q).devState) = _
        rw [Usbdev.accept_devState]
        rfl
    · exact absurd ((Usbdev.answerLen_le_iff _ _ _).mp (hd q hsetup hsize hq).2).2 hlong
    · refine ⟨?_, fun hne => ?_⟩
      · rintro data' q' ⟨⟩ hq'
        exact absurd hq' (hno q' (hd q' rfl rfl hq').1 rfl rfl)
      · rw [he] at hne
        exact absurd (begin_enumeration setup size data _ rfl) hne
  | sent transfer =>
    refine ⟨fun data q he => ?_, fun hne => ?_⟩
    · cases he
    rw [step_sent hw.aborted] at hne ⊢
    by_cases hmem : transfer ∈ s.presented.map Prod.fst
    · rw [if_pos hmem, sent_enumeration] at hne ⊢
      -- the driver waits for the packet of the last transfer, and takes any other for it
      by_cases hlast : transfer = s.transfers
      · refine ⟨by rw [hlast], ?_⟩
        unfold completed
        cases hc : s.usbdev.ctrlState with
        | setup => rw [hc] at hne; exact absurd rfl hne
        | statusGetDesc => rw [hc] at hne; exact absurd rfl hne
        | statusSetAddr => rw [hw.address hc]
        | statusSetConfig => rw [hw.config hc]
      · obtain ⟨haddr, hconfig⟩ := hd hmem hlast
        refine absurd ?_ hne
        cases hc : s.usbdev.ctrlState with
        | setup => rfl
        | statusGetDesc => rfl
        | statusSetAddr => exact (haddr hc).symm
        | statusSetConfig =>
          show (s.deviceAddress, DevState.configured) = s.enumeration
          rw [← hconfig hc]
          rfl
    · rw [if_neg hmem] at hne
      exact absurd rfl hne

theorem Served.undisturbed (hw : s.Waits) {e : ControlEvent} (h : s.Served e) :
    s.Undisturbed e := by
  cases e with
  | recv setup size data =>
    rintro q rfl rfl hq
    obtain ⟨hpresented, hfull, -, habort⟩ := h.answered data q rfl hq
    rcases step_recv_cases hw.aborted true 8#7 data with
      ⟨q', hu, -, -, hq', hlen, -⟩ | ⟨q', -, -, -, -, hyes, -⟩ | ⟨-, he⟩
    · obtain rfl := Option.some.inj (hq.symm.trans hq')
      exact ⟨hu, (Usbdev.answerLen_le_iff _ _ _).mpr ⟨hfull, hlen⟩⟩
    · rw [habort] at hyes
      cases hyes
    · rw [he] at hpresented
      exact absurd (congrArg List.length hpresented) (Nat.ne_of_lt (Nat.lt_succ_self _))
  | sent transfer =>
    intro hmem hne
    have hsame : (s.step (.sent transfer)).enumeration = s.enumeration := by
      by_contra hdiff
      exact hne (by cases (h.changed hdiff).1; rfl)
    rw [step_sent hw.aborted, if_pos hmem, sent_enumeration] at hsame
    constructor
    · intro hc
      rw [hc] at hsame
      exact hsame.symm
    · intro hc
      rw [hc] at hsame
      exact (congrArg Prod.snd hsame).symm

/-- **When the device is served as it should be**: in the runs in which nothing disturbs a
transfer, and in no others. -/
theorem served_iff (s : Control) (es : List ControlEvent) (hs : s.Start) :
    controlPipe.Always Served s es ↔ controlPipe.Always Undisturbed s es := by
  constructor
  · exact controlPipe.always_of_invariant (I := Waits)
      (fun _ _ hw h => hw.step (h.undisturbed hw)) (fun _ _ hw h => h.undisturbed hw)
      (waits_of_start hs)
  · exact controlPipe.always_of_invariant (I := Waits)
      (fun _ _ hw h => hw.step h) (fun _ _ hw h => h.served hw) (waits_of_start hs)

/-! ## An enumeration, and what may come between -/

/-- The eight bytes of a request, of which those that are left out are zero. -/
def setupPacket (bRequest valueLow valueHigh length : BitVec 8) : Bytes := fun k =>
  if k = 1 then bRequest else if k = 2 then valueLow else if k = 3 then valueHigh
  else if k = 6 then length else 0

/-- All buffers are free, and the descriptors have 18, 32 and 16 bytes. -/
def poweredUp : Control where
  usbdev := ⟨BitVec.allOnes 32, fun _ => 0, 18, fun _ => 0, 32, fun _ => 0, 16, 0, .reset, .setup⟩
  deviceAddress := 0
  aborted := false
  transfers := 0
  request := none
  presented := []

theorem start_poweredUp : poweredUp.Start := ⟨rfl, rfl, rfl, rfl, rfl, rfl, rfl⟩

/-- The device descriptor is read, the address set and the device configured. -/
def enumerated : List ControlEvent :=
  [.recv true 8 (setupPacket 6 0 1 18), .sent 1, .recv false 0 fun _ => 0,
    .recv true 8 (setupPacket 5 7 0 0), .sent 2, .recv true 8 (setupPacket 9 1 0 0), .sent 3]

theorem served_enumerated : controlPipe.Always Served poweredUp enumerated :=
  (served_iff poweredUp enumerated start_poweredUp).mpr (by decide +kernel)

/-- The host gives up a request for the device descriptor and makes another. -/
def interruptedTransfer : List ControlEvent := [.recv true 8 (setupPacket 6 0 1 18)]

/-- The packet with the descriptor is reported as sent when the next request is under way. -/
def lateReport : List ControlEvent :=
  [.recv true 8 (setupPacket 6 0 1 18), .recv false 0 fun _ => 0,
    .recv true 8 (setupPacket 5 7 0 0)]

/-- A device with a configuration descriptor of 300 bytes. -/
def largeConfig : Control :=
  { poweredUp with
    usbdev := { poweredUp.usbdev with cfgLen := 300 } }

/-- All of the configuration descriptor is asked for. -/
def getLargeConfig : Bytes := fun k => if k = 7 then 1 else setupPacket 6 0 2 44 k

/-- The second request is not answered, the address changes with the packet of another transfer,
and of the 300 bytes that are asked for 44 are sent. -/
theorem not_served_interrupted_late_truncated :
    poweredUp.Start ∧
      ¬ controlPipe.Always Served poweredUp
        (interruptedTransfer ++ [.recv true 8 (setupPacket 5 7 0 0)]) ∧
      ¬ controlPipe.Always Served poweredUp (lateReport ++ [.sent 1]) ∧
      largeConfig.Start ∧
      (largeConfig.usbdev.reply getLargeConfig .getConfigDescriptor).len = 44 ∧
      ¬ controlPipe.Always Served largeConfig [.recv true 8 getLargeConfig] := by
  refine ⟨start_poweredUp, fun h => ?_, fun h => ?_, ⟨rfl, rfl, rfl, rfl, rfl, rfl, rfl⟩,
    by decide, fun h => ?_⟩
  · have hserved := (controlPipe.always_concat.mp h).2
    have hlength := congrArg List.length
      (hserved.answered (setupPacket 5 7 0 0) (.setAddress 7) rfl (by decide)).1
    exact absurd hlength (by decide)
  · have hserved := (controlPipe.always_concat.mp h).2
    have hlast := (hserved.changed (by decide)).1
    exact absurd (ControlEvent.sent.inj hlast) (by decide)
  · have hfull := (h.1.answered getLargeConfig .getConfigDescriptor rfl (by decide)).2.1
    exact absurd hfull (by decide)

end Control

end SonataSystem.Usb
