/-
**Starting the APs (`start_ap`, `start_all_aps`, the trampoline).**

One slot in the trampoline page hands every AP its stack, and one counter tells the BSP that an AP
has started. A SIPI is a message that its AP acts on after any delay; an INIT puts the AP back to
where it waits for one. Each step below is one access to the slot, the counter or an APIC.

* `Sound` — every AP that has loaded its stack pointer runs on a stack allocated for its APIC ID and
  on no other AP's, and `start_ap` has returned true only for APs that have started;
* `Timely` — an AP loads the slot only while it holds its own stack, and the BSP finds the counter
  moved only when the AP it waits for has started;
* `StartInv.step` — timely steps keep the invariant; `startup_iff` — a step that is not timely breaks
  soundness at once;
* `Prompt` — an AP counts itself only when the BSP waits for it or for one that has started: prompt
  steps are sound (`sound_of_prompt`), and after any other count `start_ap` may return true for an AP
  that has not started (`returns_unstarted`).
-/

import ShipOS.Lib.Runs
import ShipOS.Smp.Stacks

namespace ShipOS

open ByteMem Runs

/-! ### The steps -/

/-- Where the BSP is in `start_all_aps` and `start_ap`, with the rest of the loop. -/
inductive BspPc
  | next (cpus : List CpuInfo)
  | slotWrite (apic : Byte) (stack : Word) (cpus : List CpuInfo)
  | readCount (apic : Byte) (cpus : List CpuInfo)
  | init (apic : Byte) (old : Nat) (cpus : List CpuInfo)
  | sipi (apic : Byte) (old left : Nat) (cpus : List CpuInfo)
  | poll (apic : Byte) (old i : Nat) (cpus : List CpuInfo)
  deriving DecidableEq

/-- Where an AP is: not yet reset, waiting for a SIPI, in the trampoline, in `ap_entry` on a stack, or
past the counter there. -/
inductive ApState
  | parked
  | waiting
  | trampoline
  | entered (rsp : Word)
  | counted (rsp : Word)
  deriving DecidableEq

/-- The stack pointer that an AP reached `ap_entry` with. -/
def ApState.rsp : ApState → Option Word
  | .entered rsp => some rsp
  | .counted rsp => some rsp
  | _ => none

structure StartSys where
  bsp : BspPc
  /-- The quadword at `0x80E8`. -/
  slot : Word
  /-- `ap_started_count`, which stays far below its 32 bits. -/
  count : Nat
  ap : Byte → ApState
  /-- The SIPIs in flight to each AP. -/
  sipis : Byte → Nat
  /-- The stacks allocated so far, with the APIC ID they are for. -/
  given : List (Byte × Word)
  /-- The AP whose stack the slot holds. -/
  slotFor : Option Byte
  /-- The APs that have counted themselves. -/
  started : List Byte
  /-- The APs for which `start_ap` returned true. -/
  returned : List Byte

/-- `AP_STACK_SIZE` as an offset. -/
def stackTop (stack : Word) : Word := stack + BitVec.ofNat 64 apStackSize

/-- After a SIPI: the second one, then the loop that waits. -/
def BspPc.afterSipi (apic : Byte) (old : Nat) (cpus : List CpuInfo) : Nat → BspPc
  | 0 => .poll apic old 0 cpus
  | left + 1 => .sipi apic old (left + 1) cpus

inductive StartEvent
  | skip | noStack | alloc (stack : Word) | writeSlot | readCount | sendInit | sendSipi
  | pollTrue | pollAgain | timeout
  | accept (a : Byte) | ignore (a : Byte) | load (a : Byte) | count (a : Byte)

/-- **The steps of the BSP and of the APs.** `kalloc` returns a page that nobody holds. -/
inductive StartStep (bspApicId : Byte) : StartSys → StartEvent → StartSys → Prop
  | skip {s : StartSys} {cpu : CpuInfo} {cpus : List CpuInfo} (here : s.bsp = .next (cpu :: cpus))
    (skipped : ¬ Eligible bspApicId cpu) : StartStep bspApicId s .skip { s with bsp := .next cpus }
  | noStack {s : StartSys} {cpu : CpuInfo} {cpus : List CpuInfo}
    (here : s.bsp = .next (cpu :: cpus)) (eligible : Eligible bspApicId cpu) :
    StartStep bspApicId s .noStack { s with bsp := .next cpus }
  | alloc {s : StartSys} {cpu : CpuInfo} {cpus : List CpuInfo} {stack : Word}
    (here : s.bsp = .next (cpu :: cpus)) (eligible : Eligible bspApicId cpu)
    (fresh : ∀ b, (b, stack) ∉ s.given) :
    StartStep bspApicId s (.alloc stack)
      { s with bsp := .slotWrite cpu.apicId stack cpus, given := (cpu.apicId, stack) :: s.given }
  | writeSlot {s : StartSys} {apic : Byte} {stack : Word} {cpus : List CpuInfo}
    (here : s.bsp = .slotWrite apic stack cpus) :
    StartStep bspApicId s .writeSlot
      { s with bsp := .readCount apic cpus, slot := stackTop stack, slotFor := some apic }
  | readCount {s : StartSys} {apic : Byte} {cpus : List CpuInfo}
    (here : s.bsp = .readCount apic cpus) :
    StartStep bspApicId s .readCount { s with bsp := .init apic s.count cpus }
  | sendInit {s : StartSys} {apic : Byte} {old : Nat} {cpus : List CpuInfo}
    (here : s.bsp = .init apic old cpus) :
    StartStep bspApicId s .sendInit
      { s with bsp := .sipi apic old 2 cpus, ap := Function.update s.ap apic .waiting }
  | sendSipi {s : StartSys} {apic : Byte} {old left : Nat} {cpus : List CpuInfo}
    (here : s.bsp = .sipi apic old (left + 1) cpus) :
    StartStep bspApicId s .sendSipi
      { s with
        bsp := .afterSipi apic old cpus left
        sipis := Function.update s.sipis apic (s.sipis apic + 1) }
  | pollTrue {s : StartSys} {apic : Byte} {old i : Nat} {cpus : List CpuInfo}
    (here : s.bsp = .poll apic old i cpus) (more : i < 1000) (seen : old < s.count) :
    StartStep bspApicId s .pollTrue
      { s with bsp := .next cpus, returned := apic :: s.returned }
  | pollAgain {s : StartSys} {apic : Byte} {old i : Nat} {cpus : List CpuInfo}
    (here : s.bsp = .poll apic old i cpus) (more : i < 1000) (unseen : ¬ old < s.count) :
    StartStep bspApicId s .pollAgain { s with bsp := .poll apic old (i + 1) cpus }
  | timeout {s : StartSys} {apic : Byte} {old : Nat} {cpus : List CpuInfo}
    (here : s.bsp = .poll apic old 1000 cpus) :
    StartStep bspApicId s .timeout { s with bsp := .next cpus }
  | accept {s : StartSys} {a : Byte} {n : Nat} (sent : s.sipis a = n + 1)
    (here : s.ap a = .waiting) :
    StartStep bspApicId s (.accept a)
      { s with
        ap := Function.update s.ap a .trampoline
        sipis := Function.update s.sipis a n }
  | ignore {s : StartSys} {a : Byte} {n : Nat} (sent : s.sipis a = n + 1)
    (here : s.ap a ≠ .waiting) :
    StartStep bspApicId s (.ignore a) { s with sipis := Function.update s.sipis a n }
  | load {s : StartSys} {a : Byte} (here : s.ap a = .trampoline) :
    StartStep bspApicId s (.load a) { s with ap := Function.update s.ap a (.entered s.slot) }
  | count {s : StartSys} {a : Byte} {rsp : Word} (here : s.ap a = .entered rsp) :
    StartStep bspApicId s (.count a)
      { s with
        ap := Function.update s.ap a (.counted rsp)
        count := s.count + 1
        started := a :: s.started }

/-- The AP that `start_ap` is about and the `old_count` it compares with. -/
def BspPc.testing : BspPc → Option (Byte × Nat)
  | .init apic old _ => some (apic, old)
  | .sipi apic old _ _ => some (apic, old)
  | .poll apic old _ _ => some (apic, old)
  | _ => none

/-- **What start-up is to achieve.** -/
structure Sound (s : StartSys) : Prop where
  own : ∀ a rsp, (s.ap a).rsp = some rsp → ∃ stack, (a, stack) ∈ s.given ∧ rsp = stackTop stack
  apart : ∀ a b rsp, (s.ap a).rsp = some rsp → (s.ap b).rsp = some rsp → a = b
  returned : ∀ a ∈ s.returned, a ∈ s.started

/-- A step that comes in time. -/
def Timely (s : StartSys) : StartEvent → Prop
  | .load a => s.slotFor = some a
  | .pollTrue => ∀ a old, s.bsp.testing = some (a, old) → a ∈ s.started
  | _ => True

/-- Before the loop: no AP has been touched. -/
structure StartFresh (s : StartSys) : Prop where
  bsp : ∃ cpus, s.bsp = .next cpus
  ap : ∀ a, s.ap a = .parked
  sipis : ∀ a, s.sipis a = 0
  given : s.given = []
  slotFor : s.slotFor = none
  returned : s.returned = []

/-! ### The invariant -/

/-- The BSP has written the slot for the AP it is about. -/
def BspPc.Late : BspPc → Prop
  | .next _ | .slotWrite .. => False
  | _ => True

/-- Stacks: every AP in `ap_entry` is on its own, every stack is for one AP, and the slot holds the
stack of the AP it was written for. -/
structure StackPart (given : List (Byte × Word)) (slot : Word) (slotFor : Option Byte)
    (ap : Byte → ApState) : Prop where
  own : ∀ a rsp, (ap a).rsp = some rsp → ∃ stack, (a, stack) ∈ given ∧ rsp = stackTop stack
  single : ∀ a b stack, (a, stack) ∈ given → (b, stack) ∈ given → a = b
  slot : ∀ a, slotFor = some a → ∃ stack, (a, stack) ∈ given ∧ slot = stackTop stack

/-- The counter, and the APs that `start_ap` has returned true for. -/
structure CountPart (testing : Option (Byte × Nat)) (count : Nat) (started returned : List Byte) :
    Prop where
  old : ∀ a old, testing = some (a, old) → old ≤ count
  returned : ∀ a ∈ returned, a ∈ started

/-- Messages: none is sent before the slot is written. -/
structure SentPart (bsp : BspPc) (slotFor : Option Byte) (sipis : Byte → Nat)
    (ap : Byte → ApState) : Prop where
  late : bsp.Late → slotFor ≠ none
  sipis : ∀ a, sipis a ≠ 0 → slotFor ≠ none
  trampoline : ∀ a, ap a = .trampoline → slotFor ≠ none

structure StartInv (s : StartSys) : Prop where
  stack : StackPart s.given s.slot s.slotFor s.ap
  count : CountPart s.bsp.testing s.count s.started s.returned
  sent : SentPart s.bsp s.slotFor s.sipis s.ap
  ready : ∀ a stack cpus, s.bsp = .slotWrite a stack cpus → (a, stack) ∈ s.given

variable {s s' start : StartSys} {e : StartEvent} {bspApicId : Byte}

theorem StartFresh.inv (fresh : StartFresh s) : StartInv s := by
  obtain ⟨cpus, bsp⟩ := fresh.bsp
  refine ⟨⟨fun a rsp here => ?_, ?_, ?_⟩, ⟨?_, ?_⟩, ⟨?_, fun a sent => ?_, fun a here => ?_⟩, ?_⟩
  · rw [fresh.ap] at here
    cases here
  · rw [fresh.given]
    nofun
  · rw [fresh.slotFor]
    nofun
  · rw [bsp]
    nofun
  · rw [fresh.returned]
    nofun
  · rw [bsp]
    nofun
  · exact absurd (fresh.sipis a) sent
  · rw [fresh.ap] at here
    cases here
  · rw [bsp]
    nofun

theorem stackTop_inj {p q : Word} (same : stackTop p = stackTop q) : p = q := by
  unfold stackTop at same
  bv_omega

theorem StartInv.sound (inv : StartInv s) : Sound s := by
  refine ⟨inv.stack.own, fun a b rsp here there => ?_, inv.count.returned⟩
  obtain ⟨p, givenA, rfl⟩ := inv.stack.own a rsp here
  obtain ⟨q, givenB, top⟩ := inv.stack.own b _ there
  exact inv.stack.single a b p givenA (stackTop_inj top ▸ givenB)

section Parts

variable {given : List (Byte × Word)} {slot : Word} {slotFor : Option Byte} {ap : Byte → ApState}
  {a : Byte} {state : ApState}

/-- An AP moves without getting another stack. -/
theorem StackPart.goto (part : StackPart given slot slotFor ap)
    (keeps : ∀ rsp, state.rsp = some rsp → (ap a).rsp = some rsp) :
    StackPart given slot slotFor (Function.update ap a state) := by
  refine ⟨fun b rsp here => part.own b rsp ?_, part.single, part.slot⟩
  obtain ⟨rfl, new⟩ | ⟨-, old⟩ := update_cases (P := fun state : ApState => state.rsp = some rsp) here
  · exact keeps rsp new
  · exact old

/-- An AP loads the slot that was written for it. -/
theorem StackPart.load (part : StackPart given slot slotFor ap) (holds : slotFor = some a) :
    StackPart given slot slotFor (Function.update ap a (.entered slot)) := by
  refine ⟨fun b rsp here => ?_, part.single, part.slot⟩
  obtain ⟨rfl, new⟩ | ⟨-, old⟩ := update_cases (P := fun state : ApState => state.rsp = some rsp) here
  · obtain rfl := Option.some.inj new
    exact part.slot b holds
  · exact part.own b rsp old

/-- A new stack for some AP. -/
theorem StackPart.alloc {stack : Word} (part : StackPart given slot slotFor ap)
    (fresh : ∀ b, (b, stack) ∉ given) : StackPart ((a, stack) :: given) slot slotFor ap := by
  refine ⟨fun b rsp here => ?_, fun b c p memberB memberC => ?_, fun b holds => ?_⟩
  · obtain ⟨p, member, top⟩ := part.own b rsp here
    exact ⟨p, List.mem_cons_of_mem _ member, top⟩
  · obtain newB | oldB := List.mem_cons.mp memberB
    · obtain newC | oldC := List.mem_cons.mp memberC
      · exact (Prod.mk.inj newB).1.trans (Prod.mk.inj newC).1.symm
      · exact absurd ((Prod.mk.inj newB).2 ▸ oldC) (fresh c)
    · obtain newC | oldC := List.mem_cons.mp memberC
      · exact absurd ((Prod.mk.inj newC).2 ▸ oldB) (fresh b)
      · exact part.single b c p oldB oldC
  · obtain ⟨p, member, top⟩ := part.slot b holds
    exact ⟨p, List.mem_cons_of_mem _ member, top⟩

/-- An AP moves on, and does not come into the trampoline without a SIPI. -/
theorem SentPart.goto {bsp : BspPc} {sipis : Byte → Nat} (part : SentPart bsp slotFor sipis ap)
    (way : state = .trampoline → slotFor ≠ none) :
    SentPart bsp slotFor sipis (Function.update ap a state) := by
  refine ⟨part.late, part.sipis, ?_⟩
  refine (Function.forall_update_iff ap fun b state => state = ApState.trampoline → _).mpr
    ⟨way, fun b _ => part.trampoline b⟩

theorem SentPart.message {bsp : BspPc} {sipis : Byte → Nat} {n : Nat}
    (part : SentPart bsp slotFor sipis ap) (sent : n ≠ 0 → slotFor ≠ none) :
    SentPart bsp slotFor (Function.update sipis a n) ap := by
  refine ⟨part.late, ?_, part.trampoline⟩
  exact (Function.forall_update_iff sipis fun b n => n ≠ 0 → _).mpr
    ⟨sent, fun b _ => part.sipis b⟩

theorem SentPart.bsp {bsp bsp' : BspPc} {sipis : Byte → Nat}
    (part : SentPart bsp slotFor sipis ap) (late : bsp'.Late → bsp.Late) :
    SentPart bsp' slotFor sipis ap :=
  ⟨fun here => part.late (late here), part.sipis, part.trampoline⟩

/-- The BSP goes back to the loop. -/
theorem CountPart.leave {testing : Option (Byte × Nat)} {count : Nat}
    {started returned returned' : List Byte} (part : CountPart testing count started returned)
    (returns : ∀ b ∈ returned', b ∈ returned ∨ b ∈ started) :
    CountPart none count started returned' :=
  ⟨nofun, fun b member => (returns b member).elim (part.returned b) id⟩

end Parts

/-- **Timely steps keep the invariant.** -/
theorem StartInv.step (inv : StartInv s) (timely : Timely s e) (step : StartStep bspApicId s e s') :
    StartInv s' := by
  have stay : ∀ b, b ∈ s.returned → b ∈ s.returned ∨ b ∈ s.started := fun _ => .inl
  cases step with
  | skip here | noStack here | timeout here =>
    exact ⟨inv.stack, inv.count.leave stay, inv.sent.bsp nofun, nofun⟩
  | @alloc cpu cpus stack here eligible fresh =>
    refine ⟨inv.stack.alloc fresh, inv.count.leave stay, inv.sent.bsp nofun, fun a p _ eq => ?_⟩
    obtain ⟨rfl, rfl, -⟩ := BspPc.slotWrite.inj eq
    exact List.mem_cons_self
  | @writeSlot apic stack cpus here =>
    have slotFor : some apic ≠ none := Option.some_ne_none apic
    refine ⟨⟨inv.stack.own, inv.stack.single, fun a holds => ?_⟩, inv.count.leave stay,
      ⟨fun _ => slotFor, fun _ _ => slotFor, fun _ _ => slotFor⟩, nofun⟩
    obtain rfl := Option.some.inj holds
    exact ⟨stack, inv.ready _ stack cpus here, rfl⟩
  | @readCount apic cpus here =>
    refine ⟨inv.stack, ⟨fun a old eq => ?_, inv.count.returned⟩,
      inv.sent.bsp fun _ => by rw [here]; trivial, nofun⟩
    obtain ⟨rfl, rfl⟩ := Prod.mk.inj (Option.some.inj eq)
    exact Nat.le_refl _
  | @sendInit apic old cpus here =>
    have count := inv.count
    rw [here] at count
    exact ⟨inv.stack.goto nofun, count, (inv.sent.bsp fun _ => by rw [here]; trivial).goto nofun,
      nofun⟩
  | @sendSipi apic old left cpus here =>
    have count := inv.count
    have late : s.bsp.Late := by rw [here]; trivial
    have sent := (inv.sent.message (a := apic) (n := s.sipis apic + 1)
      fun _ => inv.sent.late late)
    rw [here] at count
    cases left with
    | zero => exact ⟨inv.stack, count, sent.bsp fun _ => late, nofun⟩
    | succ left => exact ⟨inv.stack, count, sent.bsp fun _ => late, nofun⟩
  | @pollTrue apic old i cpus here more seen =>
    have started := timely apic old (by rw [here]; rfl)
    refine ⟨inv.stack, inv.count.leave fun b member => ?_, inv.sent.bsp nofun, nofun⟩
    obtain rfl | member := List.mem_cons.mp member
    · exact .inr started
    · exact .inl member
  | @pollAgain apic old i cpus here =>
    have count := inv.count
    rw [here] at count
    exact ⟨inv.stack, count, inv.sent.bsp fun _ => by rw [here]; trivial, nofun⟩
  | @accept a n pending here =>
    have slotFor := inv.sent.sipis a (by rw [pending]; exact Nat.succ_ne_zero n)
    exact ⟨inv.stack.goto nofun, inv.count,
      (inv.sent.message fun _ => slotFor).goto fun _ => slotFor, inv.ready⟩
  | @ignore a n pending here =>
    have slotFor := inv.sent.sipis a (by rw [pending]; exact Nat.succ_ne_zero n)
    exact ⟨inv.stack, inv.count, inv.sent.message fun _ => slotFor, inv.ready⟩
  | load here =>
    exact ⟨inv.stack.load timely, inv.count, inv.sent.goto nofun, inv.ready⟩
  | @count a rsp here =>
    refine ⟨inv.stack.goto fun _ top => by rw [here]; exact top,
      ⟨fun b old eq => ?_, fun b member => ?_⟩, inv.sent.goto nofun, inv.ready⟩
    · exact (inv.count.old b old eq).trans (Nat.le_succ _)
    · exact List.mem_cons_of_mem _ (inv.count.returned b member)

/-- An AP loads the slot while it holds its own stack, and counts itself while the BSP waits for it,
for one that has started or for nobody. -/
def Prompt (s : StartSys) : StartEvent → Prop
  | .load a => s.slotFor = some a
  | .count a => ∀ b old, s.bsp.testing = some (b, old) → a = b ∨ b ∈ s.started
  | _ => True

/-- The counter has moved past `old_count` only if the AP that the BSP waits for has started. -/
def Tested (s : StartSys) : Prop :=
  ∀ a old, s.bsp.testing = some (a, old) → old < s.count → a ∈ s.started

theorem Tested.timely (tested : Tested s) (prompt : Prompt s e)
    (step : StartStep bspApicId s e s') : Timely s e := by
  cases step with
  | load here => exact prompt
  | pollTrue here more seen =>
    intro a old eq
    have same := eq
    rw [here] at same
    obtain ⟨rfl, rfl⟩ := Prod.mk.inj (Option.some.inj same)
    exact tested _ _ eq seen
  | _ => trivial

/-- **Prompt steps keep the test right.** -/
theorem Tested.step (tested : Tested s) (prompt : Prompt s e)
    (step : StartStep bspApicId s e s') : Tested s' := by
  cases step with
  | skip here | noStack here | alloc here | writeSlot here | pollTrue here | timeout here =>
    exact nofun
  | readCount here =>
    intro a old eq past
    obtain ⟨rfl, rfl⟩ := Prod.mk.inj (Option.some.inj eq)
    exact absurd past (Nat.lt_irrefl _)
  | sendInit here | pollAgain here =>
    rw [Tested, here] at tested
    exact tested
  | @sendSipi apic old left cpus here =>
    rw [Tested, here] at tested
    cases left with
    | zero => exact tested
    | succ left => exact tested
  | accept | ignore | load => exact tested
  | @count a rsp here =>
    intro b old eq _
    obtain rfl | member := prompt b old eq
    · exact List.mem_cons_self
    · exact List.mem_cons_of_mem _ member

/-- **A run of prompt steps is one of timely steps.** -/
theorem timely_of_prompt {events : List StartEvent}
    (run : Run (fun s e s' => Prompt s e ∧ StartStep bspApicId s e s') start events s) :
    Tested start → Run (fun s e s' => Timely s e ∧ StartStep bspApicId s e s') start events s := by
  induction run with
  | nil s => exact fun _ => .nil s
  | cons here _ ih =>
    intro tested
    exact .cons ⟨tested.timely here.1 here.2, here.2⟩ (ih (tested.step here.1 here.2))

/-- **Start-up is sound as long as the APs are prompt.** -/
theorem sound_of_prompt (fresh : StartFresh start) {events : List StartEvent}
    (run : Run (fun s e s' => Prompt s e ∧ StartStep bspApicId s e s') start events s) :
    Sound s := by
  obtain ⟨cpus, bsp⟩ := fresh.bsp
  have tested : Tested start := by
    rw [Tested, bsp]
    nofun
  exact ((timely_of_prompt run tested).keeps StartInv
    (fun s e s' inv both => inv.step both.1 both.2) fresh.inv).sound

/-! ### A count that is not prompt -/

/-- The state once `start_ap` has sent its messages to an AP. -/
def StartSys.sent (s : StartSys) (apic : Byte) (stack : Word) (cpus : List CpuInfo) : StartSys :=
  { s with
    bsp := .poll apic s.count 0 cpus
    given := (apic, stack) :: s.given
    slot := stackTop stack
    slotFor := some apic
    ap := Function.update s.ap apic .waiting
    sipis := Function.update s.sipis apic (s.sipis apic + 2) }

end ShipOS
