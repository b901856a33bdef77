import Mathlib.Data.List.Basic
import Mathlib.Data.Option.Basic

/-!
# Programs that exchange words through a port

A serial port is full duplex: each word that is sent brings one back. A `Prog` is code that
uses such a port, with a chip select. It waits for an answer only so long, and is `stuck` when
its patience is over, so that every program is a finite tree and can be run.

`run` runs a program on a `Port`, which may refuse a word. What a program does on a port it
does on every port that simulates it (`run_of_sim`), whatever the program is.

A program does not look at the port, so there is nothing to know of a driver but the tree: the
same tree is run on the pins of a device, on a port that stands for the device, and on one that
only answers as the driver expects. `Ensures` is for what is known of a program whether or not it
comes to an end, and `Yields` for a device that has something to say whatever it is sent.
-/

set_option autoImplicit false

namespace SonataSystem.Lib

variable {ω τ τ' α β : Type}

/-- A program: it ends, gives up, selects the device, or exchanges a word and goes on with what came
back. -/
inductive Prog (ω α : Type) : Type
  | ret (a : α)
  | stuck
  | select (enable : Bool) (next : Prog ω α)
  | exchange (v : ω) (next : ω → Prog ω α)

/-- What a program talks to. -/
structure Port (ω τ : Type) where
  select : Bool → τ → τ
  /-- The word that comes back, unless the port refuses to send one. -/
  exchange : ω → τ → Option (ω × τ)

namespace Prog

/-- One program after another. -/
def bind : Prog ω α → (α → Prog ω β) → Prog ω β
  | ret a, f => f a
  | stuck, _ => stuck
  | select enable next, f => select enable (next.bind f)
  | exchange v next, f => exchange v fun w => (next w).bind f

instance : Monad (Prog ω) where
  pure := ret
  bind := bind

/-- What is returned and how the port is left, unless the program is stuck or a word is refused. -/
def run (P : Port ω τ) : Prog ω α → τ → Option (α × τ)
  | ret a, t => some (a, t)
  | stuck, _ => none
  | select enable next, t => next.run P (P.select enable t)
  | exchange v next, t => (P.exchange v t).bind fun r => (next r.1).run P r.2

variable {P : Port ω τ}

theorem run_exchange (v : ω) (next : ω → Prog ω α) (t : τ) :
    (exchange v next).run P t = (P.exchange v t).bind fun r => (next r.1).run P r.2 := rfl

theorem run_exchange_some {v w : ω} {t t' : τ} (h : P.exchange v t = some (w, t'))
    (next : ω → Prog ω α) : (exchange v next).run P t = (next w).run P t' := by
  rw [run_exchange, h]
  rfl

@[simp] theorem run_pure (a : α) (t : τ) : (pure a : Prog ω α).run P t = some (a, t) := rfl

theorem run_bind (x : Prog ω α) (f : α → Prog ω β) (t : τ) :
    (x >>= f).run P t = (x.run P t).bind fun r => (f r.1).run P r.2 := by
  show (x.bind f).run P t = _
  induction x generalizing t with
  | ret a => rfl
  | stuck => rfl
  | select enable next ih => exact ih (P.select enable t)
  | exchange v next ih =>
    show (exchange v fun w => (next w).bind f).run P t = _
    rw [run_exchange, run_exchange]
    cases P.exchange v t with
    | none => rfl
    | some r => exact ih r.1 r.2

theorem run_bind_some {x : Prog ω α} {f : α → Prog ω β} {t t' : τ} {a : α}
    (h : x.run P t = some (a, t')) : (x >>= f).run P t = (f a).run P t' := by
  rw [run_bind, h]
  rfl

theorem run_bind_none {x : Prog ω α} {f : α → Prog ω β} {t : τ} (h : x.run P t = none) :
    (x >>= f).run P t = none := by
  rw [run_bind, h]
  rfl

/-- A program that ends has ended its first part. -/
theorem run_bind_eq_some {x : Prog ω α} {f : α → Prog ω β} {t t' : τ} {b : β}
    (h : (x >>= f).run P t = some (b, t')) :
    ∃ a u, x.run P t = some (a, u) ∧ (f a).run P u = some (b, t') := by
  cases hx : x.run P t with
  | none =>
    rw [run_bind_none hx] at h
    cases h
  | some r => exact ⟨r.1, r.2, rfl, (run_bind_some hx).symm.trans h⟩

/-! ## Common programs -/

/-- What is `select`ed or not. -/
def chipSelect (enable : Bool) : Prog ω Unit := select enable (ret ())

/-- One word is sent, and one comes back. -/
def transfer (v : ω) : Prog ω ω := exchange v ret

/-- Words are sent, and what comes back is dropped. -/
def send : List ω → Prog ω Unit
  | [] => pure ()
  | v :: vs => do
    let _ ← transfer v
    send vs

/-- So many words are received, with the same word sent for each. -/
def receive (fill : ω) : Nat → Prog ω (List ω)
  | 0 => pure []
  | n + 1 => do
    let w ← transfer fill
    let ws ← receive fill n
    pure (w :: ws)

/-- Words are received until one is what is waited for. -/
def poll (fill : ω) (stop : ω → Bool) : Nat → Prog ω ω
  | 0 => stuck
  | fuel + 1 => do
    let w ← transfer fill
    if stop w then pure w else poll fill stop fuel

theorem run_transfer {v w : ω} {t t' : τ} (h : P.exchange v t = some (w, t')) :
    (transfer v).run P t = some (w, t') :=
  run_exchange_some h ret

theorem run_transfer_none {v : ω} {t : τ} (h : P.exchange v t = none) :
    (transfer v).run P t = none := by
  rw [transfer, run_exchange, h]
  rfl

theorem run_send_cons {v w : ω} {t t' : τ} (h : P.exchange v t = some (w, t')) (vs : List ω) :
    (send (v :: vs)).run P t = (send vs).run P t' := by
  rw [send, run_bind_some (run_transfer h)]

/-- A receive that ends has brought as many words as were asked for. -/
theorem length_receive {fill : ω} {n : Nat} {t t' : τ} {ws : List ω}
    (hrun : (receive fill n).run P t = some (ws, t')) : ws.length = n := by
  induction n generalizing t t' ws with
  | zero =>
    obtain ⟨rfl, -⟩ := Prod.mk.inj (Option.some.inj hrun)
    rfl
  | succ n ih =>
    obtain ⟨w, u, -, hrun⟩ := run_bind_eq_some hrun
    obtain ⟨ws', u', hws, hrun⟩ := run_bind_eq_some hrun
    obtain ⟨rfl, -⟩ := Prod.mk.inj (Option.some.inj hrun)
    exact congrArg Nat.succ (ih hws)

/-! ## What a port brings -/

/-- The words that the port brings, one after the other, while the same word is sent. -/
inductive Yields (P : Port ω τ) (fill : ω) : τ → List ω → τ → Prop
  | nil (t : τ) : Yields P fill t [] t
  | cons {t t' t'' : τ} {w : ω} {ws : List ω} : P.exchange fill t = some (w, t') →
    Yields P fill t' ws t'' → Yields P fill t (w :: ws) t''

variable {fill : ω}

theorem Yields.split {t t'' : τ} (ws : List ω) {ws' : List ω}
    (h : Yields P fill t (ws ++ ws') t'') :
    ∃ t', Yields P fill t ws t' ∧ Yields P fill t' ws' t'' := by
  induction ws generalizing t with
  | nil => exact ⟨t, .nil t, h⟩
  | cons w ws ih =>
    cases h with
    | cons hx hrest =>
      obtain ⟨u, hu, hu'⟩ := ih hrest
      exact ⟨u, .cons hx hu, hu'⟩

theorem run_receive {t t' : τ} {ws : List ω} (h : Yields P fill t ws t') :
    (receive fill ws.length).run P t = some (ws, t') := by
  induction h with
  | nil t => rfl
  | cons hx _ ih => rw [List.length_cons, receive, run_bind_some (run_transfer hx),
      run_bind_some ih, run_pure]

/-- A poll goes past words that are not waited for. -/
theorem run_poll_append {stop : ω → Bool} {t t' : τ} {ws : List ω} (h : Yields P fill t ws t')
    (hws : ∀ w ∈ ws, stop w = false) (fuel : Nat) :
    (poll fill stop (ws.length + fuel)).run P t = (poll fill stop fuel).run P t' := by
  induction h with
  | nil t => rw [List.length_nil, Nat.zero_add]
  | @cons t t' t'' w ws hx _ ih =>
    have hw : stop w = false := hws w List.mem_cons_self
    have hfuel : (w :: ws).length + fuel = ws.length + fuel + 1 := by
      rw [List.length_cons]
      omega
    rw [hfuel, poll, run_bind_some (run_transfer hx), if_neg (by rw [hw]; exact Bool.false_ne_true)]
    exact ih fun v hv => hws v (List.mem_cons_of_mem w hv)

/-- The word that is waited for comes in time. -/
theorem run_poll {stop : ω → Bool} {t t' : τ} (ws : List ω) {w : ω} {fuel : Nat}
    (h : Yields P fill t (ws ++ [w]) t') (hws : ∀ v ∈ ws, stop v = false) (hw : stop w = true)
    (hfuel : ws.length < fuel) : (poll fill stop fuel).run P t = some (w, t') := by
  obtain ⟨u, hpre, hlast⟩ := h.split ws
  obtain ⟨k, rfl⟩ : ∃ k, fuel = ws.length + (k + 1) := ⟨fuel - ws.length - 1, by omega⟩
  rw [run_poll_append hpre hws]
  cases hlast with
  | cons hx htail =>
    cases htail with
    | nil => rw [poll, run_bind_some (run_transfer hx), if_pos hw, run_pure]

theorem run_poll_first {stop : ω → Bool} {t t' : τ} {w : ω} {fuel : Nat}
    (h : Yields P fill t [w] t') (hw : stop w = true) (hfuel : 0 < fuel) :
    (poll fill stop fuel).run P t = some (w, t') :=
  run_poll [] h (fun _ hv => absurd hv List.not_mem_nil) hw hfuel

/-- A poll of something that goes on bringing what is not waited for. -/
theorem run_poll_stuck {stop : ω → Bool} (I : τ → Prop)
    (hI : ∀ t w t', I t → P.exchange fill t = some (w, t') → stop w = false ∧ I t') (fuel : Nat)
    {t : τ} (h : I t) : (poll fill stop fuel).run P t = none := by
  induction fuel generalizing t with
  | zero => rfl
  | succ fuel ih =>
    cases hx : P.exchange fill t with
    | none => exact run_bind_none (run_transfer_none hx)
    | some r =>
      obtain ⟨w, t'⟩ := r
      obtain ⟨hw, ht⟩ := hI t w t' h hx
      rw [poll, run_bind_some (run_transfer hx), if_neg (by rw [hw]; exact Bool.false_ne_true)]
      exact ih ht

/-! ## If a program ends -/

/-- If the program ends, what it returns and how it leaves the port. -/
def Ensures (P : Port ω τ) (x : Prog ω α) (t : τ) (Q : α → τ → Prop) : Prop :=
  ∀ a t', x.run P t = some (a, t') → Q a t'

variable {Q : α → τ → Prop}

/-- The rule for two programs in a row. -/
theorem Ensures.bind {x : Prog ω α} {f : α → Prog ω β} {R : β → τ → Prop} {t : τ}
    (hx : Ensures P x t Q) (hf : ∀ a t', Q a t' → Ensures P (f a) t' R) :
    Ensures P (x >>= f) t R := by
  intro b t' hrun
  obtain ⟨a, u, hr, hrun⟩ := run_bind_eq_some hrun
  exact hf a u (hx a u hr) b t' hrun

theorem ensures_pure {a : α} {t : τ} (h : Q a t) : Ensures P (pure a) t Q := by
  intro b t' hrun
  obtain ⟨rfl, rfl⟩ := Prod.mk.inj (Option.some.inj hrun)
  exact h

/-- A program that ensures what cannot be does not end. -/
theorem Ensures.stuck {x : Prog ω α} {t : τ} (h : Ensures P x t fun _ _ => False) :
    x.run P t = none := by
  cases hr : x.run P t with
  | none => rfl
  | some r => exact (h r.1 r.2 hr).elim

/-- What exchanges of these words keep. -/
def Kept (P : Port ω τ) (I : τ → Prop) (v : ω) : Prop :=
  ∀ t w t', I t → P.exchange v t = some (w, t') → I t'

section Invariants

variable {I : τ → Prop} {t : τ}

theorem ensures_transfer {v : ω} {Q : ω → τ → Prop}
    (h : ∀ w t', P.exchange v t = some (w, t') → Q w t') : Ensures P (transfer v) t Q := by
  intro a t' hrun
  cases hx : P.exchange v t with
  | none =>
    rw [run_transfer_none hx] at hrun
    cases hrun
  | some r =>
    rw [run_transfer hx] at hrun
    obtain ⟨rfl, rfl⟩ := Prod.mk.inj (Option.some.inj hrun)
    exact h _ _ hx

theorem ensures_send {vs : List ω} (hI : ∀ v ∈ vs, Kept P I v) (ht : I t) :
    Ensures P (send vs) t fun _ => I := by
  induction vs generalizing t with
  | nil => exact ensures_pure ht
  | cons v vs ih =>
    refine Ensures.bind (ensures_transfer fun w t' => hI v List.mem_cons_self t w t' ht) ?_
    exact fun _ _ ht' => ih (fun u hu => hI u (List.mem_cons_of_mem v hu)) ht'

theorem ensures_receive (hI : Kept P I fill) (n : Nat) (ht : I t) :
    Ensures P (receive fill n) t fun _ => I := by
  induction n generalizing t with
  | zero => exact ensures_pure ht
  | succ n ih =>
    refine Ensures.bind (ensures_transfer fun w t' => hI t w t' ht) fun _ _ ht' => ?_
    exact (ih ht').bind fun _ _ h => ensures_pure h

theorem ensures_poll (hI : Kept P I fill) (stop : ω → Bool) (fuel : Nat) (ht : I t) :
    Ensures P (poll fill stop fuel) t fun _ => I := by
  induction fuel generalizing t with
  | zero =>
    intro a t' hrun
    cases hrun
  | succ fuel ih =>
    refine Ensures.bind (ensures_transfer fun w t' => hI t w t' ht) fun w t' ht' => ?_
    by_cases hw : stop w = true
    · rw [if_pos hw]
      exact ensures_pure ht'
    · rw [if_neg hw]
      exact ih ht'

end Invariants

end Prog

/-! ## One port for another -/

/-- `Q` does what `P` does, except that it may refuse. -/
structure Port.Sim (P : Port ω τ) (Q : Port ω τ') (R : τ → τ' → Prop) : Prop where
  select : ∀ enable t t', R t t' → R (P.select enable t) (Q.select enable t')
  exchange : ∀ v t t' w u', R t t' → Q.exchange v t' = some (w, u') →
    ∃ u, P.exchange v t = some (w, u) ∧ R u u'

namespace Prog

variable {P : Port ω τ} {Q : Port ω τ'} {R : τ → τ' → Prop}

/-- **The simulation rule.** -/
theorem run_of_sim (h : P.Sim Q R) {p : Prog ω α} {t : τ} {t' u' : τ'} {a : α} (hR : R t t')
    (hrun : p.run Q t' = some (a, u')) : ∃ u, p.run P t = some (a, u) ∧ R u u' := by
  induction p generalizing t t' with
  | ret b =>
    obtain ⟨rfl, rfl⟩ := Prod.mk.inj (Option.some.inj hrun)
    exact ⟨t, rfl, hR⟩
  | stuck => cases hrun
  | select enable next ih => exact ih (h.select enable t t' hR) hrun
  | exchange v next ih =>
    rw [run_exchange] at hrun
    cases hx : Q.exchange v t' with
    | none =>
      rw [hx] at hrun
      cases hrun
    | some r =>
      obtain ⟨w, s'⟩ := r
      rw [hx] at hrun
      obtain ⟨s, hs, hR'⟩ := h.exchange v t t' w s' hR hx
      obtain ⟨u, hu, hRu⟩ := ih w hR' hrun
      exact ⟨u, (run_exchange_some hs next).trans hu, hRu⟩

/-- A program that is stuck on a port that never refuses is stuck on the other. -/
theorem run_none_of_sim (h : P.Sim Q R) (htotal : ∀ v t', (Q.exchange v t').isSome = true)
    {p : Prog ω α} {t : τ} {t' : τ'} (hR : R t t') (hrun : p.run Q t' = none) :
    p.run P t = none := by
  induction p generalizing t t' with
  | ret b => cases hrun
  | stuck => rfl
  | select enable next ih => exact ih (h.select enable t t' hR) hrun
  | exchange v next ih =>
    obtain ⟨⟨w, s'⟩, hx⟩ := Option.isSome_iff_exists.mp (htotal v t')
    rw [run_exchange_some hx] at hrun
    obtain ⟨s, hs, hR'⟩ := h.exchange v t t' w s' hR hx
    rw [run_exchange_some hs]
    exact ih w hR' hrun

end Prog

end SonataSystem.Lib
