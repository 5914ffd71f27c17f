/-
**The interrupt descriptor table (`idt.c`).**

The table is an array of 256 gates of 16 bytes, which `make_interrupt` fills field by field: it leaves
`ist` and `zero` alone. The processor reads the handler's address from the three parts of its offset.

* `gateAt_makeInterrupt`, `gateAt_makeInterrupt_other` — one gate is written, the others are kept;
* `HoldsGates.make`, `HoldsGates.makeAll` — the table as a function from vectors to handlers, under
  one call and under a loop of calls;
* `gateAt_setupIdt` — after `setup_idt` every vector has its gate.
-/

import Mathlib.Logic.Function.Basic
import ShipOS.Lib.ByteMem
import ShipOS.Memory.Kalloc

namespace ShipOS

open ByteMem

/-! ### The code -/

/-- `MAX_INTERRUPTS`. -/
def maxInterrupts : Nat := 256

/-- `sizeof(struct InterruptDescriptor64)`. -/
def gateSize : Nat := 16

/-- The stores of `make_interrupt`: `offset_1`, `selector`, `type_attributes`, `offset_2` and
`offset_3`. -/
def gateFields (index : Nat) (handler : Word) : List Field :=
  [⟨gateSize * index, 2, (handler.setWidth 16).toNat⟩,
   ⟨gateSize * index + 2, 2, 0x08⟩,
   ⟨gateSize * index + 5, 1, 0x8E⟩,
   ⟨gateSize * index + 6, 2, ((handler >>> 16).setWidth 16).toNat⟩,
   ⟨gateSize * index + 8, 4, ((handler >>> 32).setWidth 32).toNat⟩]

def makeInterrupt (idt : Word) (m : Mem) (arrayIndex : Nat) (handler : Word) : Mem :=
  if arrayIndex ≥ maxInterrupts then m else storeFields m idt (gateFields arrayIndex handler)

/-- What a gate leads to. -/
inductive Routine
  /-- `interrupt_handler_0` to `interrupt_handler_31`. -/
  | exception (n : Nat)
  | timerInterrupt
  | keyboardHandler
  | defaultHandler
  deriving DecidableEq, Repr

/-- `make_interrupt` for the vectors from 0 up to `count`. -/
def makeAll (idt : Word) (handler : Nat → Word) (count : Nat) (m : Mem) : Mem :=
  (List.range count).foldl (fun m i => makeInterrupt idt m i (handler i)) m

/-- The part of `setup_idt` that fills the table; `address` is where the linker has put a routine. -/
def setupIdt (idt : Word) (address : Routine → Word) (m : Mem) : Mem :=
  let m := memset m idt 0 (gateSize * maxInterrupts)
  let m := makeAll idt (fun _ => address .defaultHandler) maxInterrupts m
  let m := makeInterrupt idt m 32 (address .timerInterrupt)
  let m := makeInterrupt idt m 33 (address .keyboardHandler)
  makeAll idt (fun i => address (.exception i)) 32 m

/-! ### The processor's view -/

/-- A gate as the processor reads it. -/
structure Gate where
  offset : Word
  selector : BitVec 16
  ist : Byte
  attributes : Byte
  reserved : BitVec 32
  deriving DecidableEq

/-- The `n` bytes at `offset` of a gate. -/
def gatePart (idt : Word) (m : Mem) (v offset n : Nat) : Nat :=
  readLE m (idt + BitVec.ofNat 64 (gateSize * v + offset)) n

def gateAt (idt : Word) (m : Mem) (v : Nat) : Gate where
  offset := BitVec.ofNat 64
    (gatePart idt m v 0 2 + 2 ^ 16 * gatePart idt m v 6 2 + 2 ^ 32 * gatePart idt m v 8 4)
  selector := BitVec.ofNat 16 (gatePart idt m v 2 2)
  ist := BitVec.ofNat 8 (gatePart idt m v 4 1)
  attributes := BitVec.ofNat 8 (gatePart idt m v 5 1)
  reserved := BitVec.ofNat 32 (gatePart idt m v 12 4)

/-- A present interrupt gate of privilege 0 through the kernel's code segment, on the current stack. -/
def kernelGate (handler : Word) : Gate := ⟨handler, 0x08, 0, 0x8E, 0⟩

variable {idt handler : Word} {m : Mem} {i v : Nat}

/-! ### One gate -/

theorem gateFields_spaced (bound : i < maxInterrupts) :
    Spaced (gateSize * maxInterrupts) (gateFields i handler) := by
  unfold maxInterrupts at bound
  constructor <;> simp only [gateFields, gateSize, maxInterrupts, List.forall_mem_cons,
    List.pairwise_cons, List.Pairwise.nil, List.not_mem_nil] <;> grind

/-- The three parts make the address. -/
theorem handler_parts (handler : Word) :
    BitVec.ofNat 64 ((handler.setWidth 16).toNat % 256 ^ 2 +
      2 ^ 16 * (((handler >>> 16).setWidth 16).toNat % 256 ^ 2) +
      2 ^ 32 * (((handler >>> 32).setWidth 32).toNat % 256 ^ 4)) = handler := by
  apply BitVec.eq_of_toNat_eq
  simp only [BitVec.toNat_ofNat, BitVec.toNat_setWidth, BitVec.toNat_ushiftRight,
    Nat.shiftRight_eq_div_pow]
  have := handler.isLt
  omega

/-- A part of a gate that no store meets. -/
theorem gatePart_clear {offset n : Nat} (bound : i < maxInterrupts) (bound' : v < maxInterrupts)
    (inside : offset + n ≤ gateSize) (clear : ∀ f ∈ gateFields i handler,
      f.offset + f.width ≤ gateSize * v + offset ∨ gateSize * v + offset + n ≤ f.offset) :
    gatePart idt (makeInterrupt idt m i handler) v offset n = gatePart idt m v offset n := by
  rw [makeInterrupt, if_neg (Nat.not_le.mpr bound)]
  have small : gateSize * maxInterrupts ≤ 2 ^ 64 := by decide
  refine readLE_storeFields_clear small ?_ fun f member => ⟨(gateFields_spaced bound).inside f member,
    clear f member⟩
  unfold gateSize maxInterrupts at *
  omega

/-- A part of a gate that is stored. -/
theorem gatePart_stored {offset n value : Nat} (bound : v < maxInterrupts)
    (member : ⟨gateSize * v + offset, n, value⟩ ∈ gateFields v handler) :
    gatePart idt (makeInterrupt idt m v handler) v offset n = value % 256 ^ n := by
  rw [makeInterrupt, if_neg (Nat.not_le.mpr bound)]
  exact readLE_storeFields member (by decide) (gateFields_spaced bound)

/-- **`make_interrupt` writes its gate.** -/
theorem gateAt_makeInterrupt (bound : v < maxInterrupts) :
    gateAt idt (makeInterrupt idt m v handler) v =
      { gateAt idt m v with offset := handler, selector := 0x08, attributes := 0x8E } := by
  have ist : gatePart idt (makeInterrupt idt m v handler) v 4 1 = gatePart idt m v 4 1 :=
    gatePart_clear bound bound (by decide) (by simp [gateFields])
  have reserved : gatePart idt (makeInterrupt idt m v handler) v 12 4 = gatePart idt m v 12 4 :=
    gatePart_clear bound bound (by decide) (by simp [gateFields])
  simp only [gateAt, ist, reserved]
  rw [gatePart_stored bound (.head _), gatePart_stored bound (.tail _ (.head _)),
    gatePart_stored bound (.tail _ (.tail _ (.head _))),
    gatePart_stored bound (.tail _ (.tail _ (.tail _ (.head _)))),
    gatePart_stored bound (.tail _ (.tail _ (.tail _ (.tail _ (.head _))))), handler_parts]
  rfl

/-- **It keeps the others.** -/
theorem gateAt_makeInterrupt_other (bound : i < maxInterrupts) (bound' : v < maxInterrupts)
    (other : v ≠ i) : gateAt idt (makeInterrupt idt m i handler) v = gateAt idt m v := by
  have same : ∀ offset n, offset + n ≤ gateSize →
      gatePart idt (makeInterrupt idt m i handler) v offset n = gatePart idt m v offset n := by
    intro offset n inside
    refine gatePart_clear bound bound' inside ?_
    unfold gateSize at inside
    simp only [gateFields, gateSize, List.forall_mem_cons]
    refine ⟨by omega, by omega, by omega, by omega, by omega, List.forall_mem_nil _⟩
  simp only [gateAt]
  rw [same 0 2 (by decide), same 6 2 (by decide), same 8 4 (by decide), same 2 2 (by decide),
    same 4 1 (by decide), same 5 1 (by decide), same 12 4 (by decide)]

theorem makeInterrupt_sameOutside (idt : Word) (m : Mem) (i : Nat) (handler : Word) :
    SameOutside idt (gateSize * maxInterrupts) m (makeInterrupt idt m i handler) := by
  rw [makeInterrupt]
  split
  · exact fun _ _ => rfl
  case isFalse bound =>
    exact storeFields_sameOutside (by decide) (gateFields_spaced (Nat.not_le.mp bound)).inside

/-! ### The table -/

/-- The gates of the vectors in `t` lead to the handlers there, and the others are blank. -/
def HoldsGates (idt : Word) (m : Mem) (t : Nat → Option Word) : Prop :=
  ∀ v < maxInterrupts, gateAt idt m v = (t v).elim ⟨0, 0, 0, 0, 0⟩ kernelGate

theorem holdsGates_memset (idt : Word) (m : Mem) :
    HoldsGates idt (memset m idt 0 (gateSize * maxInterrupts)) fun _ => none := by
  intro v bound
  have small : gateSize * maxInterrupts ≤ 2 ^ 64 := by decide
  have zero : ∀ offset n, offset + n ≤ gateSize →
      gatePart idt (memset m idt 0 (gateSize * maxInterrupts)) v offset n = 0 := by
    intro offset n inside
    refine readLE_fill_zero _ _ small ?_
    unfold gateSize maxInterrupts at *
    omega
  simp only [gateAt]
  rw [zero 0 2 (by decide), zero 6 2 (by decide), zero 8 4 (by decide), zero 2 2 (by decide),
    zero 4 1 (by decide), zero 5 1 (by decide), zero 12 4 (by decide)]
  rfl

theorem HoldsGates.make {t : Nat → Option Word} (holds : HoldsGates idt m t) (handler : Word)
    (bound : i < maxInterrupts) :
    HoldsGates idt (makeInterrupt idt m i handler) (Function.update t i (some handler)) := by
  intro v inside
  by_cases same : v = i
  · subst same
    rw [gateAt_makeInterrupt inside, holds v inside, Function.update_self]
    cases t v <;> rfl
  · rw [gateAt_makeInterrupt_other bound inside same, holds v inside, Function.update_of_ne same]

/-- **A loop of calls.** -/
theorem HoldsGates.makeAll {t : Nat → Option Word} (holds : HoldsGates idt m t)
    (f : Nat → Word) : ∀ count ≤ maxInterrupts, HoldsGates idt (makeAll idt f count m)
      ((List.range count).foldl (fun t i => Function.update t i (some (f i))) t) := by
  intro count
  induction count with
  | zero => exact fun _ => holds
  | succ count ih =>
    intro bound
    rw [ShipOS.makeAll, List.range_succ, List.foldl_append, List.foldl_append]
    exact (ih (Nat.le_of_succ_le bound)).make _ bound

theorem makeAll_sameOutside (idt : Word) (f : Nat → Word) (m : Mem) (count : Nat) :
    SameOutside idt (gateSize * maxInterrupts) m (makeAll idt f count m) := by
  induction count with
  | zero => exact fun _ _ => rfl
  | succ count ih =>
    rw [makeAll, List.range_succ, List.foldl_append]
    exact fun x outside => (makeInterrupt_sameOutside _ _ _ _ x outside).trans (ih x outside)

/-- The routine of a vector. -/
def dispatch (v : Nat) : Routine :=
  if v < 32 then .exception v
  else if v = 32 then .timerInterrupt
  else if v = 33 then .keyboardHandler
  else .defaultHandler

/-- **After `setup_idt` every vector leads to its routine**, and nothing outside the table has
changed. -/
theorem gateAt_setupIdt (idt : Word) (address : Routine → Word) (m : Mem) :
    (∀ v < maxInterrupts, gateAt idt (setupIdt idt address m) v = kernelGate (address (dispatch v))) ∧
      SameOutside idt (gateSize * maxInterrupts) m (setupIdt idt address m) := by
  constructor
  · intro v bound
    have cleared := holdsGates_memset idt m
    have defaults := cleared.makeAll (fun _ => address .defaultHandler) maxInterrupts le_rfl
    have timer := defaults.make (address .timerInterrupt) (show 32 < maxInterrupts by decide)
    have devices := timer.make (address .keyboardHandler) (show 33 < maxInterrupts by decide)
    refine (devices.makeAll (fun i => address (.exception i)) 32 (by decide) v bound).trans ?_
    rw [foldl_update_range, dispatch]
    by_cases exception : v < 32
    · rw [if_pos exception, if_pos exception]
      rfl
    · rw [if_neg exception, if_neg exception]
      by_cases keyboard : v = 33
      · rw [keyboard, Function.update_self, if_neg (by decide), if_pos rfl]
        rfl
      · rw [Function.update_of_ne keyboard, if_neg keyboard]
        by_cases tick : v = 32
        · rw [tick, Function.update_self, if_pos rfl]
          rfl
        · rw [Function.update_of_ne tick, if_neg tick, foldl_update_range, if_pos bound]
          rfl
  · intro x outside
    refine (makeAll_sameOutside _ _ _ _ x outside).trans ?_
    refine (makeInterrupt_sameOutside _ _ _ _ x outside).trans ?_
    refine (makeInterrupt_sameOutside _ _ _ _ x outside).trans ?_
    exact (makeAll_sameOutside _ _ _ _ x outside).trans (if_neg outside)

end ShipOS
