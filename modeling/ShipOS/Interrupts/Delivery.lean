/-
**Acknowledged interrupts (`timer_interrupt`, `keyboard_handler`, `default_handler`).**

A local APIC keeps the vectors that are requested (IRR) and those in service (ISR). It interrupts the
processor with its highest request if that is in a higher priority class than all vectors in service,
and an end-of-interrupt write takes the highest vector out of service. The gates are interrupt gates,
so a handler runs with IF clear until its `iret`; requests come in at any time. A spurious interrupt
uses a gate, but is never in service.

The handlers of the timer and of the keyboard write EOI, and `default_handler` does not.

* `DeliveryInv.step` — what is in service between handlers: the requested vectors that went to
  `default_handler`;
* `no_device_delivery` — while there is one, no timer or keyboard interrupt is taken;
* `interrupts_of_run` — whole runs; as long as there has been none, the highest request can be taken.
-/

import Mathlib.Data.Finset.Lattice.Fold
import Mathlib.Data.Finset.Max
import Mathlib.Order.Lattice.Nat
import ShipOS.Interrupts.Idt
import ShipOS.Lib.Runs

namespace ShipOS

open Runs

/-! ### The machine -/

/-- What a handler does, as the local APIC sees it. -/
inductive HandlerOp
  /-- Instructions that do not write to the local APIC. -/
  | body
  /-- `lapic_eoi()`. -/
  | eoi
  deriving DecidableEq, Repr

/-- The handlers. The timer's acknowledges before it calls the scheduler; `interrupt_handler` does not
return. -/
def Routine.code : Routine → Option (List HandlerOp)
  | .timerInterrupt => some [.body, .eoi, .body]
  | .keyboardHandler => some [.body, .eoi]
  | .defaultHandler => some [.body]
  | .exception _ => none

/-- A processor and its local APIC: requests, vectors in service, IF, and what is left of the handler
that runs. -/
structure Delivery where
  irr : Finset Nat
  isr : Finset Nat
  ifl : Bool
  handler : Option (List HandlerOp)

/-- The priority class of a vector. -/
def priorityClass (v : Nat) : Nat := v / 16

/-- A write to the EOI register. -/
def endOfInterrupt (isr : Finset Nat) : Finset Nat := isr.erase (isr.sup id)

/-- `LAPIC_SPURIOUS_VECTOR`. -/
def spuriousVector : Nat := 0xFF

inductive DeliveryEvent
  | request (v : Nat)
  | deliver (v : Nat)
  | spurious
  | op
  | iret
  /-- `cli` or `sti` outside of handlers. -/
  | setIf (value : Bool)
  deriving DecidableEq, Repr

/-- One step; `lapic_init` has set the task priority to 0. The vectors below 32 belong to the
processor's exceptions. -/
inductive DeliveryStep : Delivery → DeliveryEvent → Delivery → Prop
  | request {s : Delivery} {v : Nat} (device : 32 ≤ v) (vector : v < maxInterrupts) :
      DeliveryStep s (.request v) { s with irr := insert v s.irr }
  | deliver {s : Delivery} {v : Nat} (enabled : s.ifl = true) (outside : s.handler = none)
      (requested : v ∈ s.irr) (highest : ∀ w ∈ s.irr, w ≤ v)
      (above : ∀ w ∈ s.isr, priorityClass w < priorityClass v) :
      DeliveryStep s (.deliver v) ⟨s.irr.erase v, insert v s.isr, false, (dispatch v).code⟩
  | spurious {s : Delivery} (enabled : s.ifl = true) (outside : s.handler = none) :
      DeliveryStep s .spurious { s with ifl := false, handler := (dispatch spuriousVector).code }
  | body {s : Delivery} {rest : List HandlerOp} (here : s.handler = some (.body :: rest)) :
      DeliveryStep s .op { s with handler := some rest }
  | eoi {s : Delivery} {rest : List HandlerOp} (here : s.handler = some (.eoi :: rest)) :
      DeliveryStep s .op { s with isr := endOfInterrupt s.isr, handler := some rest }
  | iret {s : Delivery} (done : s.handler = some []) :
      DeliveryStep s .iret { s with ifl := true, handler := none }
  | setIf {s : Delivery} {value : Bool} (outside : s.handler = none) :
      DeliveryStep s (.setIf value) { s with ifl := value }

/-! ### What stays in service -/

/-- The timer's vector and the keyboard's. -/
def Device (v : Nat) : Prop := v = 32 ∨ v = 33

instance (v : Nat) : Decidable (Device v) := inferInstanceAs (Decidable (_ ∨ _))

/-- The vectors that have been delivered to `default_handler`, after one more event. -/
def unacknowledgedAfter (stuck : Finset Nat) : DeliveryEvent → Finset Nat
  | .deliver v => if Device v then stuck else insert v stuck
  | _ => stuck

/-- The vectors that a run has delivered to `default_handler`. -/
def unacknowledged (es : List DeliveryEvent) : Finset Nat := es.foldl unacknowledgedAfter ∅

theorem code_device {v : Nat} (device : Device v) :
    (dispatch v).code = some [.body, .eoi, .body] ∨ (dispatch v).code = some [.body, .eoi] := by
  rcases device with rfl | rfl
  · exact .inl rfl
  · exact .inr rfl

theorem code_default {v : Nat} (above : 32 ≤ v) (other : ¬ Device v) :
    (dispatch v).code = some [.body] := by
  rw [dispatch, if_neg (by omega), if_neg fun same => other (.inl same),
    if_neg fun same => other (.inr same)]
  rfl

/-- What is in service while `code` is left of a handler. -/
structure Serving (isr stuck : Finset Nat) (code : List HandlerOp) : Prop where
  after : .eoi ∉ code → isr = stuck
  before : .eoi ∈ code → stuck = ∅ ∧ (∃ v, isr = {v}) ∧ code.count .eoi = 1

/-- **The invariant**: between handlers `stuck` is in service. -/
structure DeliveryInv (s : Delivery) (stuck : Finset Nat) : Prop where
  requests : ∀ v ∈ s.irr, 32 ≤ v
  others : ∀ v ∈ stuck, 32 ≤ v ∧ ¬ Device v
  outside : s.handler = none → s.isr = stuck
  inside : ∀ code, s.handler = some code → Serving s.isr stuck code

variable {s t : Delivery} {stuck : Finset Nat} {v : Nat}

/-- A handler that writes no EOI. -/
theorem serving_default (stuck : Finset Nat) : Serving stuck stuck [.body] :=
  ⟨fun _ => rfl, fun eoi => by simp at eoi⟩

/-- A handler that writes one. -/
theorem serving_device {code : List HandlerOp} (v : Nat)
    (writes : code = [.body, .eoi, .body] ∨ code = [.body, .eoi]) : Serving {v} ∅ code := by
  rcases writes with rfl | rfl
  · exact ⟨fun silent => by simp at silent, fun _ => ⟨rfl, ⟨v, rfl⟩, rfl⟩⟩
  · exact ⟨fun silent => by simp at silent, fun _ => ⟨rfl, ⟨v, rfl⟩, rfl⟩⟩

/-- **A device is not above what stays in service.** -/
theorem DeliveryInv.device_above (inv : DeliveryInv s stuck) (device : Device v)
    (outside : s.handler = none) (above : ∀ w ∈ s.isr, priorityClass w < priorityClass v) :
    stuck = ∅ := by
  refine Finset.eq_empty_of_forall_notMem fun w member => ?_
  have lower := above w (by rwa [inv.outside outside])
  obtain ⟨low, other⟩ := inv.others w member
  unfold priorityClass Device at *
  omega

theorem endOfInterrupt_singleton (v : Nat) : endOfInterrupt {v} = ∅ := by
  rw [endOfInterrupt, Finset.sup_singleton]
  exact Finset.erase_singleton v

/-- **Every step keeps the invariant.** -/
theorem DeliveryInv.step {e : DeliveryEvent} (inv : DeliveryInv s stuck) (step : DeliveryStep s e t) :
    DeliveryInv t (unacknowledgedAfter stuck e) := by
  cases step with
  | @request v device vector =>
    refine ⟨fun w member => ?_, inv.others, inv.outside, inv.inside⟩
    rcases Finset.mem_insert.mp member with rfl | old
    · exact device
    · exact inv.requests w old
  | @deliver v enabled outside requested highest above =>
    have low := inv.requests v requested
    have requests : ∀ w ∈ s.irr.erase v, 32 ≤ w := fun w member =>
      inv.requests w (Finset.mem_of_mem_erase member)
    by_cases device : Device v
    · obtain rfl := inv.device_above device outside above
      rw [unacknowledgedAfter, if_pos device]
      have code := code_device device
      refine ⟨requests, inv.others, fun ended => ?_, fun rest here => ?_⟩
      · rcases code with code | code <;> cases code.symm.trans ended
      · rw [inv.outside outside]
        refine serving_device v ?_
        rcases code with code | code
        · exact .inl (Option.some.inj (here.symm.trans code))
        · exact .inr (Option.some.inj (here.symm.trans code))
    · rw [unacknowledgedAfter, if_neg device]
      have code := code_default low device
      refine ⟨requests, fun w member => ?_, fun ended => ?_, fun rest here => ?_⟩
      · rcases Finset.mem_insert.mp member with rfl | old
        · exact ⟨low, device⟩
        · exact inv.others w old
      · cases code.symm.trans ended
      · rw [inv.outside outside, ← Option.some.inj (code.symm.trans here)]
        exact serving_default _
  | spurious enabled outside =>
    refine ⟨inv.requests, inv.others, fun ended => (by cases ended), fun rest here => ?_⟩
    rw [← Option.some.inj (here : some [.body] = some rest), inv.outside outside]
    exact serving_default _
  | @body rest here =>
    have serving := inv.inside _ here
    refine ⟨inv.requests, inv.others, fun ended => (by cases ended), fun code left => ?_⟩
    cases left
    refine ⟨fun silent => serving.after ?_, fun eoi => ?_⟩
    · simpa using silent
    · obtain ⟨empty, one, count⟩ := serving.before (List.mem_cons_of_mem _ eoi)
      exact ⟨empty, one, by simpa using count⟩
  | @eoi rest here =>
    have serving := inv.inside _ here
    obtain ⟨rfl, ⟨v, alone⟩, count⟩ := serving.before List.mem_cons_self
    have done : .eoi ∉ rest := by
      rw [List.count_cons_self] at count
      exact List.count_eq_zero.mp (Nat.succ.inj count)
    refine ⟨inv.requests, inv.others, fun ended => (by cases ended), fun code left => ?_⟩
    cases left
    refine ⟨fun _ => ?_, fun eoi => absurd eoi done⟩
    show endOfInterrupt s.isr = ∅
    rw [alone, endOfInterrupt_singleton]
  | iret done =>
    refine ⟨inv.requests, inv.others, fun _ => ?_, fun code running => by cases running⟩
    exact (inv.inside _ done).after List.not_mem_nil
  | setIf outside => exact ⟨inv.requests, inv.others, inv.outside, inv.inside⟩

theorem DeliveryInv.run {es : List DeliveryEvent} (run : Run DeliveryStep s es t)
    (inv : DeliveryInv s stuck) : DeliveryInv t (es.foldl unacknowledgedAfter stuck) :=
  run.simulates DeliveryInv unacknowledgedAfter (fun _ _ _ _ inv step => inv.step step) inv

/-- **While something stays in service, no device is delivered.** -/
theorem no_device_delivery {es : List DeliveryEvent} (run : Run DeliveryStep s es t) :
    ∀ {stuck : Finset Nat}, DeliveryInv s stuck → stuck.Nonempty → ∀ v, Device v → .deliver v ∉ es := by
  induction run with
  | nil s => exact fun _ _ v _ => List.not_mem_nil
  | @cons s t u e es here _ ih =>
    intro stuck inv stays v device member
    rcases List.mem_cons.mp member with rfl | later
    · cases here with
      | deliver enabled outside requested highest above =>
        exact stays.ne_empty (inv.device_above device outside above)
    · refine ih (inv.step here) ?_ v device later
      cases e with
      | deliver w =>
        rw [unacknowledgedAfter]
        split
        · exact stays
        · exact Finset.insert_nonempty w stuck
      | request | spurious | op | iret | setIf => exact stays

/-- Nothing is in service, and no handler runs. -/
structure DeliveryFresh (s : Delivery) : Prop where
  requests : ∀ v ∈ s.irr, 32 ≤ v
  empty : s.isr = ∅
  outside : s.handler = none

theorem DeliveryFresh.inv (fresh : DeliveryFresh s) : DeliveryInv s ∅ where
  requests := fresh.requests
  others v member := absurd member (Finset.notMem_empty v)
  outside _ := fresh.empty
  inside code here := by
    rw [fresh.outside] at here
    cases here

/-- **What goes to `default_handler` stays in service.** Between handlers the requested vectors that
went there are in service, and no others; if there is one, no timer or keyboard interrupt is ever taken
again, and if there is none, the highest request can be taken as soon as interrupts are enabled. -/
theorem interrupts_of_run {es : List DeliveryEvent} (fresh : DeliveryFresh s)
    (run : Run DeliveryStep s es t) :
    (t.handler = none → t.isr = unacknowledged es) ∧
      ((unacknowledged es).Nonempty → ∀ fs u, Run DeliveryStep t fs u →
        .deliver 32 ∉ fs ∧ .deliver 33 ∉ fs) ∧
      (unacknowledged es = ∅ → t.handler = none → t.ifl = true → t.irr.Nonempty →
        ∃ v u, (∀ w ∈ t.irr, w ≤ v) ∧ DeliveryStep t (.deliver v) u) := by
  have inv : DeliveryInv t (unacknowledged es) := fresh.inv.run run
  refine ⟨inv.outside, fun stays fs u later => ?_, fun empty outside enabled waiting => ?_⟩
  · have never := no_device_delivery later inv stays
    exact ⟨never 32 (.inl rfl), never 33 (.inr rfl)⟩
  · obtain ⟨v, requested, highest⟩ := t.irr.exists_max_image id waiting
    refine ⟨v, _, highest, .deliver enabled outside requested highest fun w member => ?_⟩
    rw [inv.outside outside, empty] at member
    exact absurd member (Finset.notMem_empty w)

/-- An error interrupt of the local APIC, for which `lapic_init` sets the vector 51. -/
theorem interrupts_of_run_error :
    ∃ t, Run DeliveryStep ⟨∅, ∅, true, none⟩ [.request 51, .deliver 51, .op, .iret] t ∧
      t.isr = {51} := by
  have run : Run DeliveryStep ⟨∅, ∅, true, none⟩ [.request 51, .deliver 51, .op, .iret]
      ⟨(insert 51 ∅ : Finset Nat).erase 51, insert 51 ∅, true, none⟩ := by
    refine .cons (.request (by decide) (by decide)) (.cons (.deliver rfl rfl ?_ ?_ ?_) ?_)
    · decide
    · decide
    · decide
    · exact .cons (.body rfl) (.cons (.iret rfl) (.nil _))
  refine ⟨_, run, ?_⟩
  have fresh : DeliveryFresh ⟨∅, ∅, true, none⟩ := ⟨by decide, rfl, rfl⟩
  rw [(interrupts_of_run fresh run).1 rfl]
  decide

end ShipOS
