/-
**The table of serial ports (`serial.c`).**

`initialized_ports` has four entries and `num_initialized_ports` starts at -1, which
`detect_serial_ports` takes for "not detected yet". `init_serial` enters a port that passes the
loopback test, and `detect_serial_ports` enters each port that `init_serial` accepted once more.

An index outside an array is a fault here; C leaves it undefined.

* `PortTable s T` — the table of `s` is the list `T`; `SerialCall.exec_holds` is a call in terms of it;
* `Undetected.initSerial` — before the first detection a port is entered at the index -1;
* `detectFrom_twice` — the first detection enters the first port that responds twice;
* `serialOk_iff` — over any sequence of calls the table is as it should be exactly when no port that
  responds is initialised before the first detection, and no standard port responds at it.
-/

import Mathlib.Data.List.Nodup
import Mathlib.Tactic.Common
import ShipOS.Tty.Printf

namespace ShipOS

/-! ### The code -/

def maxSerialPorts : Nat := 4

/-- `standard_com_ports`: COM1 to COM4. -/
def standardComPorts : List (BitVec 16) := [0x3F8, 0x2F8, 0x3E8, 0x2E8]

/-- The static variables. -/
structure SerialState where
  initializedPorts : List (BitVec 16)
  numInitializedPorts : Int
  defaultSerialPort : BitVec 16
  deriving DecidableEq, Repr

def serialStart : SerialState := ⟨List.replicate maxSerialPorts 0, -1, 0x3F8⟩

/-- An index outside one of the two arrays. -/
inductive SerialFault
  | initializedPorts (index : Int)
  | serialPrintfSpinlocks (index : Int)
  deriving DecidableEq, Repr

abbrev Serial (A : Type) := Except SerialFault A

/-- An index of a C array with `MAX_SERIAL_PORTS` entries. -/
def InArray (index : Int) : Prop := 0 ≤ index ∧ index < maxSerialPorts

instance (index : Int) : Decidable (InArray index) := inferInstanceAs (Decidable (_ ∧ _))

def readPort (index : Int) (s : SerialState) : Serial (BitVec 16) :=
  if InArray index then .ok (s.initializedPorts.getD index.toNat 0)
  else .error (.initializedPorts index)

def writePort (index : Int) (port : BitVec 16) (s : SerialState) : Serial SerialState :=
  if InArray index then .ok { s with initializedPorts := s.initializedPorts.set index.toNat port }
  else .error (.initializedPorts index)

/-- `&serial_printf_spinlocks[index]`. -/
def useLock (index : Int) : Serial Unit :=
  if InArray index then .ok () else .error (.serialPrintfSpinlocks index)

/-- The loop of `get_port_index`, with the number of rounds left. -/
def portIndexFrom (port : BitVec 16) (s : SerialState) : Nat → Int → Serial Int
  | 0, _ => .ok (-1)
  | rounds + 1, i => do
    let entry ← readPort i s
    if entry = port then .ok i else portIndexFrom port s rounds (i + 1)

def SerialState.getPortIndex (s : SerialState) (port : BitVec 16) : Serial Int :=
  portIndexFrom port s s.numInitializedPorts.toNat 0

def setDefaultSerialPort (port : BitVec 16) (s : SerialState) : Serial SerialState := do
  let index ← s.getPortIndex port
  if index ≠ -1 then .ok { s with defaultSerialPort := port } else .ok s

/-- `serial_printf`, as far as it uses the table. -/
def SerialState.serialPrintf (s : SerialState) (port : BitVec 16) : Serial Unit := do
  let index ← s.getPortIndex port
  if index = -1 then .ok () else useLock index

/-- `init_serial` from `init_spinlock` on. -/
def finishInitSerial (port : BitVec 16) (index : Int) (s : SerialState) :
    Serial (Int × SerialState) := do
  useLock index
  s.serialPrintf port
  if s.numInitializedPorts = 1 then do
    let s ← setDefaultSerialPort port s
    .ok (0, s)
  else .ok (0, s)

/-- `init_serial_ports` after the detection. -/
def defaultToLast (serialPortsCount : Int) (s : SerialState) : Serial (Int × SerialState) :=
  if serialPortsCount ≤ 0 then .ok (-1, s)
  else do
    let port ← readPort (serialPortsCount - 1) s
    let s ← setDefaultSerialPort port s
    .ok (serialPortsCount, s)

section Code

-- `responds` are the ports that pass the loopback test.
variable (responds : BitVec 16 → Bool)

def initSerial (port : BitVec 16) (s : SerialState) : Serial (Int × SerialState) :=
  if port = 0 then .ok (-1, s)
  else if ¬ responds port then .ok (-1, s)
  else do
    let index ← s.getPortIndex port
    if index = -1 then
      if s.numInitializedPorts ≥ maxSerialPorts then .ok (-1, s)
      else do
        let index := s.numInitializedPorts
        let s ← writePort index port { s with numInitializedPorts := s.numInitializedPorts + 1 }
        finishInitSerial port index s
    else finishInitSerial port index s

/-- The loop of `detect_serial_ports`. -/
def detectFrom : List (BitVec 16) → SerialState → Serial SerialState
  | [], s => .ok s
  | port :: ports, s => do
    let (result, s) ← initSerial responds port s
    if result = 0 then do
      let s ← writePort s.numInitializedPorts port
        { s with numInitializedPorts := s.numInitializedPorts + 1 }
      detectFrom ports s
    else detectFrom ports s

def detectSerialPorts (s : SerialState) : Serial (Int × SerialState) :=
  if s.numInitializedPorts ≠ -1 then .ok (s.numInitializedPorts, s)
  else do
    let s ← detectFrom responds standardComPorts { s with numInitializedPorts := 0 }
    .ok (s.numInitializedPorts, s)

def initSerialPorts (s : SerialState) : Serial (Int × SerialState) := do
  let (serialPortsCount, s) ← detectSerialPorts responds s
  defaultToLast serialPortsCount s

end Code

/-! ### The table -/

/-- **The table of `s` is `T`**: its entries, as many as `num_initialized_ports` says. -/
structure PortTable (s : SerialState) (T : List (BitVec 16)) : Prop where
  size : s.initializedPorts.length = maxSerialPorts
  num : s.numInitializedPorts = T.length
  few : T.length ≤ maxSerialPorts
  entries : s.initializedPorts.take T.length = T

variable {s s' : SerialState} {T : List (BitVec 16)} {port : BitVec 16}

theorem PortTable.readPort (holds : PortTable s T) {i : Nat} (inside : i < T.length) :
    readPort i s = .ok (T[i]) := by
  have few := holds.few
  have size := holds.size
  have inArray : InArray (i : Int) := ⟨by omega, by omega⟩
  rw [ShipOS.readPort, if_pos inArray]
  refine congrArg Except.ok ?_
  have entry : T[i]? = s.initializedPorts[i]? := by
    rw [← holds.entries, List.getElem?_take_of_lt inside]
  rw [Int.toNat_natCast, List.getD_eq_getElem?_getD, ← entry, List.getElem?_eq_getElem inside]
  rfl

/-- **The next free entry is written.** -/
theorem PortTable.writePort (holds : PortTable s T) (room : T.length < maxSerialPorts)
    (port : BitVec 16) : ∃ s', writePort s.numInitializedPorts port
        { s with numInitializedPorts := s.numInitializedPorts + 1 } = .ok s' ∧
      PortTable s' (T ++ [port]) := by
  have inArray : InArray s.numInitializedPorts := by
    rw [holds.num]
    exact ⟨by omega, by omega⟩
  rw [ShipOS.writePort, if_pos inArray]
  refine ⟨_, rfl, ?_, ?_, ?_, ?_⟩
  · rw [List.length_set, holds.size]
  · rw [holds.num, List.length_append]
    rfl
  · rw [List.length_append]
    exact room
  · have size := holds.size
    dsimp only
    rw [holds.num, Int.toNat_natCast, List.length_append, List.length_singleton,
      List.take_set, List.take_succ_eq_append_getElem (by omega), holds.entries,
      List.set_append_right _ _ le_rfl, Nat.sub_self]
    rfl

/-- The `int` that `get_port_index` returns for an index in the table. -/
def returnedIndex : Option Nat → Int
  | none => -1
  | some i => i

theorem PortTable.portIndexFrom (holds : PortTable s T) (port : BitVec 16) (rounds : Nat) :
    ∀ i : Nat, i + rounds = T.length → portIndexFrom port s rounds i =
      .ok (returnedIndex (((T.drop i).idxOf? port).map (i + ·))) := by
  induction rounds with
  | zero =>
    intro i total
    rw [List.drop_eq_nil_of_le (by omega)]
    rfl
  | succ rounds ih =>
    intro i total
    have inside : i < T.length := by omega
    rw [ShipOS.portIndexFrom, holds.readPort inside, ok_bind, List.drop_eq_getElem_cons inside,
      List.idxOf?_cons]
    by_cases here : T[i] = port
    · rw [if_pos here, if_pos (beq_iff_eq.mpr here)]
      rfl
    · rw [if_neg here, if_neg (mt beq_iff_eq.mp here), Option.map_map]
      refine (ih (i + 1) (by omega)).trans ?_
      congr 3
      funext k
      exact Nat.add_right_comm i 1 k

/-- **`get_port_index`** finds the first entry of the table with the port. -/
theorem PortTable.getPortIndex_eq (holds : PortTable s T) (port : BitVec 16) :
    s.getPortIndex port = .ok (returnedIndex (getPortIndex T port)) := by
  have search := holds.portIndexFrom port T.length 0 (Nat.zero_add _)
  rw [List.drop_zero] at search
  rw [SerialState.getPortIndex, holds.num, Int.toNat_natCast]
  refine search.trans ?_
  rw [getPortIndex]
  simp

theorem PortTable.getPortIndex (holds : PortTable s T) (port : BitVec 16) :
    ∃ index, s.getPortIndex port = .ok index ∧
      (port ∈ T → InArray index ∧ index ≠ -1) ∧ (port ∉ T → index = -1) := by
  refine ⟨_, holds.getPortIndex_eq port, fun member => ?_, fun off => ?_⟩
  · obtain ⟨i, found⟩ := Option.ne_none_iff_exists'.mp (mt List.idxOf?_eq_none_iff.mp
      (not_not.mpr member))
    obtain ⟨inside, -⟩ := List.idxOf?_eq_some_iff.mp found
    have few := holds.few
    rw [ShipOS.getPortIndex, found, returnedIndex]
    exact ⟨⟨by omega, by omega⟩, by omega⟩
  · rw [ShipOS.getPortIndex, List.idxOf?_eq_none_iff.mpr off]
    rfl

theorem PortTable.setDefaultSerialPort (holds : PortTable s T) (port : BitVec 16) :
    ∃ s', setDefaultSerialPort port s = .ok s' ∧ PortTable s' T := by
  obtain ⟨index, search, -⟩ := holds.getPortIndex port
  rw [ShipOS.setDefaultSerialPort, search, ok_bind]
  split
  · exact ⟨_, rfl, holds.size, holds.num, holds.few, holds.entries⟩
  · exact ⟨s, rfl, holds⟩

theorem PortTable.defaultToLast (holds : PortTable s T) :
    ∃ result s', defaultToLast s.numInitializedPorts s = .ok (result, s') ∧ PortTable s' T := by
  rw [ShipOS.defaultToLast]
  split
  · exact ⟨-1, s, rfl, holds⟩
  · have count := holds.num
    have last : s.numInitializedPorts - 1 = ((T.length - 1 : Nat) : Int) := by omega
    have inside : T.length - 1 < T.length := by omega
    obtain ⟨s', done, holds'⟩ := holds.setDefaultSerialPort T[T.length - 1]
    rw [last, holds.readPort inside, ok_bind, done]
    exact ⟨_, s', rfl, holds'⟩

theorem PortTable.finishInitSerial (holds : PortTable s T) {index : Int} (inArray : InArray index)
    (port : BitVec 16) : ∃ s', finishInitSerial port index s = .ok (0, s') ∧ PortTable s' T := by
  obtain ⟨found, search, member, absent⟩ := holds.getPortIndex port
  have printed : s.serialPrintf port = .ok () := by
    rw [SerialState.serialPrintf, search, ok_bind]
    by_cases missing : found = -1
    · rw [if_pos missing]
    · have registered : port ∈ T := by
        by_contra off
        exact missing (absent off)
      rw [if_neg missing, useLock, if_pos (member registered).1]
  rw [ShipOS.finishInitSerial, useLock, if_pos inArray, ok_bind, printed, ok_bind]
  split
  · obtain ⟨s', done, kept⟩ := holds.setDefaultSerialPort port
    rw [done]
    exact ⟨s', rfl, kept⟩
  · exact ⟨s, rfl, holds⟩

variable (responds : BitVec 16 → Bool)

/-- **`init_serial`** enters a port that responds if it is new and there is room. -/
theorem PortTable.initSerial (holds : PortTable s T) (port : BitVec 16) :
    ∃ result s' T', initSerial responds port s = .ok (result, s') ∧ PortTable s' T' ∧
      ((result = 0 ∧ port ≠ 0 ∧ responds port = true ∧ T' = if port ∈ T then T else T ++ [port]) ∨
        (result = -1 ∧ T' = T ∧
          (port = 0 ∨ responds port = false ∨ T.length = maxSerialPorts))) := by
  rw [ShipOS.initSerial]
  by_cases zero : port = 0
  · rw [if_pos zero]
    exact ⟨-1, s, T, rfl, holds, .inr ⟨rfl, rfl, .inl zero⟩⟩
  · by_cases silent : ¬ responds port = true
    · rw [if_neg zero, if_pos silent]
      exact ⟨-1, s, T, rfl, holds, .inr ⟨rfl, rfl, .inr (.inl (Bool.eq_false_iff.mpr silent))⟩⟩
    · obtain ⟨index, search, member, absent⟩ := holds.getPortIndex port
      rw [if_neg zero, if_neg silent, search, ok_bind]
      by_cases known : port ∈ T
      · obtain ⟨s', done, kept⟩ := holds.finishInitSerial (member known).1 port
        rw [if_neg (member known).2, done]
        exact ⟨0, s', T, rfl, kept, .inl ⟨rfl, zero, not_not.mp silent, (if_pos known).symm⟩⟩
      · rw [if_pos (absent known)]
        by_cases room : T.length < maxSerialPorts
        · obtain ⟨s₁, written, kept⟩ := holds.writePort room port
          have inArray : InArray s.numInitializedPorts := by
            rw [holds.num]
            exact ⟨by omega, by omega⟩
          obtain ⟨s', done, kept'⟩ := kept.finishInitSerial inArray port
          rw [if_neg (by rw [holds.num]; omega)]
          dsimp only
          rw [written, ok_bind, done]
          exact ⟨0, s', _, rfl, kept', .inl ⟨rfl, zero, not_not.mp silent, (if_neg known).symm⟩⟩
        · have full : T.length = maxSerialPorts := le_antisymm holds.few (Nat.le_of_not_lt room)
          rw [if_pos (by rw [holds.num, full])]
          exact ⟨-1, s, T, rfl, holds, .inr ⟨rfl, rfl, .inr (.inr full)⟩⟩

/-! ### Detection -/

/-- Nothing is detected and nothing registered. -/
structure Undetected (s : SerialState) : Prop where
  size : s.initializedPorts.length = maxSerialPorts
  num : s.numInitializedPorts = -1

theorem Undetected.holds (fresh : Undetected s) : PortTable { s with numInitializedPorts := 0 } [] :=
  ⟨fresh.size, rfl, Nat.zero_le _, rfl⟩

/-- The loop only appends to the table. -/
theorem detectFrom_prefix : ∀ (ports : List (BitVec 16)) (s : SerialState) (T : List (BitVec 16)),
    PortTable s T → ∀ s', detectFrom responds ports s = .ok s' → ∃ T', PortTable s' T' ∧ T <+: T' := by
  intro ports
  induction ports with
  | nil =>
    intro s T holds s' done
    cases done
    exact ⟨T, holds, List.prefix_rfl⟩
  | cons port ports ih =>
    intro s T holds s' done
    obtain ⟨result, s₁, T₁, init, holds₁, effect⟩ := holds.initSerial responds port
    have grown : T <+: T₁ := by
      rcases effect with ⟨-, -, -, rfl⟩ | ⟨-, rfl, -⟩
      · split
        · exact List.prefix_rfl
        · exact List.prefix_append _ _
      · exact List.prefix_rfl
    rw [detectFrom, init, ok_bind] at done
    dsimp only at done
    split at done
    · obtain ⟨s₂, written, rest⟩ := bind_ok done
      by_cases room : T₁.length < maxSerialPorts
      · obtain ⟨s₃, written', holds₂⟩ := holds₁.writePort room port
        rw [written'] at written
        cases written
        obtain ⟨T', holds', more⟩ := ih s₂ _ holds₂ s' rest
        exact ⟨T', holds', grown.trans ((List.prefix_append _ _).trans more)⟩
      · rw [writePort, if_neg] at written
        · cases written
        · rintro ⟨-, high⟩
          rw [holds₁.num] at high
          omega
    · obtain ⟨T', holds', more⟩ := ih s₁ T₁ holds₁ s' done
      exact ⟨T', holds', grown.trans more⟩

/-- **The first port found is entered twice.** -/
theorem detectFrom_twice : ∀ (ports : List (BitVec 16)) (s : SerialState), PortTable s [] →
    (∃ port ∈ ports, port ≠ 0 ∧ responds port = true) → ∀ s', detectFrom responds ports s = .ok s' →
      ∃ T', PortTable s' T' ∧ ¬ T'.Nodup := by
  intro ports
  induction ports with
  | nil =>
    rintro s holds ⟨port, member, -⟩
    cases member
  | cons port ports ih =>
    intro s holds found s' done
    obtain ⟨result, s₁, T₁, init, holds₁, effect⟩ := holds.initSerial responds port
    rw [detectFrom, init, ok_bind] at done
    dsimp only at done
    rcases effect with ⟨rfl, -, -, rfl⟩ | ⟨rfl, rfl, silent⟩
    · rw [if_neg List.not_mem_nil, List.nil_append] at holds₁
      rw [if_pos rfl] at done
      obtain ⟨s₂, written, rest⟩ := bind_ok done
      have room : [port].length < maxSerialPorts := Nat.lt_of_sub_ne_zero (by simp [maxSerialPorts])
      obtain ⟨s₃, written', holds₂⟩ := holds₁.writePort room port
      rw [written'] at written
      cases written
      obtain ⟨T', holds', more⟩ := detectFrom_prefix responds ports s₂ _ holds₂ s' rest
      refine ⟨T', holds', fun nodup => ?_⟩
      exact absurd (nodup.sublist more.sublist) (by simp)
    · rw [if_neg (by decide)] at done
      obtain ⟨other, member, nonzero, answers⟩ := found
      refine ih s₁ holds₁ ⟨other, ?_, nonzero, answers⟩ s' done
      refine (List.mem_cons.mp member).resolve_left ?_
      rintro rfl
      rcases silent with zero | quiet | full
      · exact nonzero zero
      · rw [answers] at quiet
        cases quiet
      · cases full

/-- A port that does not respond is refused, and nothing changes. -/
theorem initSerial_silent (silent : port = 0 ∨ responds port = false) (s : SerialState) :
    initSerial responds port s = .ok (-1, s) := by
  rw [initSerial]
  by_cases zero : port = 0
  · rw [if_pos zero]
  · rw [if_neg zero, silent.resolve_left zero, if_pos Bool.false_ne_true]

/-- The loop leaves the table as it is if nobody responds. -/
theorem detectFrom_none : ∀ (ports : List (BitVec 16)) (s : SerialState),
    (∀ port ∈ ports, responds port = false) → detectFrom responds ports s = .ok s := by
  intro ports
  induction ports with
  | nil => exact fun _ _ => rfl
  | cons port ports ih =>
    intro s quiet
    obtain ⟨silent, rest⟩ := List.forall_mem_cons.mp quiet
    rw [detectFrom, initSerial_silent responds (.inr silent), ok_bind]
    exact ih s rest

theorem standardComPorts_ne_zero (standard : port ∈ standardComPorts) : port ≠ 0 := by
  rintro rfl
  revert standard
  decide

section Undetected

variable (fresh : Undetected s)
include fresh

theorem Undetected.getPortIndex (port : BitVec 16) : s.getPortIndex port = .ok (-1) := by
  rw [SerialState.getPortIndex, fresh.num]
  rfl

theorem Undetected.setDefaultSerialPort (port : BitVec 16) :
    setDefaultSerialPort port s = .ok s := by
  rw [ShipOS.setDefaultSerialPort, fresh.getPortIndex]
  rfl

/-- **Before the first detection** a port that responds is written to the index -1. -/
theorem Undetected.initSerial (nonzero : port ≠ 0) (answers : responds port = true) :
    initSerial responds port s = .error (.initializedPorts (-1)) := by
  rw [ShipOS.initSerial, if_neg nonzero, if_neg (not_not.mpr answers), fresh.getPortIndex, ok_bind,
    if_pos rfl, fresh.num, if_neg (by decide)]
  rfl

/-- The first detection, if nobody responds. -/
theorem Undetected.detect_none (quiet : ∀ port ∈ standardComPorts, responds port = false) :
    detectSerialPorts responds s = .ok (0, { s with numInitializedPorts := 0 }) := by
  rw [detectSerialPorts, if_neg (not_not.mpr fresh.num), detectFrom_none responds _ _ quiet]
  rfl

/-- The first detection, if somebody responds. -/
theorem Undetected.detect_twice (loud : ¬ ∀ port ∈ standardComPorts, responds port = false)
    {result : Int} (done : detectSerialPorts responds s = .ok (result, s')) :
    result = s'.numInitializedPorts ∧ ∃ T, PortTable s' T ∧ ¬ T.Nodup := by
  rw [detectSerialPorts, if_neg (not_not.mpr fresh.num)] at done
  obtain ⟨s₁, loop, same⟩ := bind_ok done
  cases same
  push Not at loud
  obtain ⟨port, standard, answers⟩ := loud
  exact ⟨rfl, detectFrom_twice responds _ _ fresh.holds
    ⟨port, standard, standardComPorts_ne_zero standard, Bool.eq_true_of_not_eq_false answers⟩ _ loop⟩

end Undetected

/-! ### Calls in any order -/

inductive SerialCall
  | initSerial (port : BitVec 16)
  | detectSerialPorts
  | initSerialPorts
  | setDefaultSerialPort (port : BitVec 16)
  deriving DecidableEq

/-- A call's result, 0 where the C function returns nothing, and the state after it. -/
def SerialCall.exec : SerialCall → SerialState → Serial (Int × SerialState)
  | .initSerial port, s => ShipOS.initSerial responds port s
  | .detectSerialPorts, s => ShipOS.detectSerialPorts responds s
  | .initSerialPorts, s => ShipOS.initSerialPorts responds s
  | .setDefaultSerialPort port, s => do
    let s ← ShipOS.setDefaultSerialPort port s
    .ok (0, s)

/-- A sequence of calls, with their results. -/
def runSerial : List SerialCall → SerialState → Serial (List Int × SerialState)
  | [], s => .ok ([], s)
  | call :: calls, s => do
    let (result, s) ← call.exec responds s
    let (results, s) ← runSerial calls s
    .ok (result :: results, s)

theorem runSerial_cons {call : SerialCall} {calls : List SerialCall} {result : Int}
    {results : List Int} {s₁ : SerialState} (done : call.exec responds s = .ok (result, s₁))
    (rest : runSerial responds calls s₁ = .ok (results, s')) :
    runSerial responds (call :: calls) s = .ok (result :: results, s') := by
  rw [runSerial, done, ok_bind]
  dsimp only
  rw [rest]
  rfl

/-- **The table grows from `T` to `T'`** by a call with this result: by the port of an `init_serial`
that returned 0, if it is not in `T`. -/
structure Enters (call : SerialCall) (result : Int) (T T' : List (BitVec 16)) : Prop where
  more : T <+: T'
  nodup : T.Nodup → T'.Nodup
  mem : ∀ port, port ∈ T' ↔ port ∈ T ∨ (call = .initSerial port ∧ result = 0)

theorem Enters.same {call : SerialCall} {result : Int}
    (known : ∀ port, call = .initSerial port → result = 0 → port ∈ T) : Enters call result T T := by
  refine ⟨List.prefix_rfl, id, fun port => ⟨.inl, ?_⟩⟩
  rintro (member | ⟨init, zero⟩)
  · exact member
  · exact known port init zero

theorem Enters.new (off : port ∉ T) : Enters (.initSerial port) 0 T (T ++ [port]) := by
  refine ⟨List.prefix_append _ _, fun nodup => ?_, fun other => ?_⟩
  · exact List.Nodup.append nodup (List.nodup_singleton _) (List.disjoint_singleton.mpr off)
  · rw [List.mem_append, List.mem_singleton, SerialCall.initSerial.injEq, eq_comm]
    exact or_congr_right (and_iff_left rfl).symm

/-- Ports are detected once. -/
theorem PortTable.detectSerialPorts (holds : PortTable s T) :
    detectSerialPorts responds s = .ok (s.numInitializedPorts, s) := by
  rw [ShipOS.detectSerialPorts, if_pos (by rw [holds.num]; omega)]

/-- **What one call does** once the ports have been detected. -/
theorem SerialCall.exec_holds (holds : PortTable s T) (call : SerialCall) :
    ∃ result s' T', call.exec responds s = .ok (result, s') ∧ PortTable s' T' ∧
      Enters call result T T' := by
  cases call with
  | initSerial port =>
    obtain ⟨result, s', T', done, holds', effect⟩ := holds.initSerial responds port
    refine ⟨result, s', T', done, holds', ?_⟩
    rcases effect with ⟨rfl, -, -, rfl⟩ | ⟨rfl, rfl, -⟩
    · split
      · next known => exact .same (by rintro _ ⟨⟩ -; exact known)
      · next off => exact .new off
    · exact .same nofun
  | detectSerialPorts => exact ⟨_, s, T, holds.detectSerialPorts responds, holds, .same nofun⟩
  | initSerialPorts =>
    obtain ⟨result, s', done, holds'⟩ := holds.defaultToLast
    refine ⟨result, s', T, ?_, holds', .same nofun⟩
    rw [exec, ShipOS.initSerialPorts, holds.detectSerialPorts responds]
    exact done
  | setDefaultSerialPort port =>
    obtain ⟨s', done, holds'⟩ := holds.setDefaultSerialPort port
    refine ⟨0, s', T, ?_, holds', .same nofun⟩
    rw [exec, done]
    rfl

/-- **What a sequence of calls does** once the ports have been detected. -/
theorem runSerial_holds : ∀ (calls : List SerialCall) (s : SerialState) (T : List (BitVec 16)),
    PortTable s T → ∃ results s' T', runSerial responds calls s = .ok (results, s') ∧ PortTable s' T' ∧
      T <+: T' ∧ (T.Nodup → T'.Nodup) ∧
      ∀ port, port ∈ T' ↔ port ∈ T ∨ (SerialCall.initSerial port, 0) ∈ calls.zip results := by
  intro calls
  induction calls with
  | nil => exact fun s T holds => ⟨[], s, T, rfl, holds, List.prefix_rfl, id, fun _ => by simp⟩
  | cons call calls ih =>
    intro s T holds
    obtain ⟨result, s₁, T₁, done, holds₁, enters⟩ := call.exec_holds responds holds
    obtain ⟨results, s', T', rest, holds', more, nodup, mem⟩ := ih s₁ T₁ holds₁
    refine ⟨result :: results, s', T', ?_, holds', enters.more.trans more,
      fun distinct => nodup (enters.nodup distinct), fun port => ?_⟩
    · exact runSerial_cons responds done rest
    · rw [mem, enters.mem, or_assoc, List.zip_cons_cons, List.mem_cons, Prod.mk.injEq,
        eq_comm (a := call), eq_comm (a := result)]

/-! ### The invariant -/

/-- The entries in use. -/
def SerialState.table (s : SerialState) : List (BitVec 16) :=
  s.initializedPorts.take s.numInitializedPorts.toNat

theorem PortTable.table (holds : PortTable s T) : s.table = T := by
  rw [SerialState.table, holds.num, Int.toNat_natCast, holds.entries]

theorem Undetected.table (fresh : Undetected s) : s.table = [] := by
  rw [SerialState.table, fresh.num]
  rfl

def SerialCall.detects : SerialCall → Bool
  | .detectSerialPorts => true
  | .initSerialPorts => true
  | _ => false

/-- The ports that a sequence of calls with these results registers: those for which `init_serial`
returned 0, and if ports were detected, the standard ports that respond. -/
def Registered (calls : List SerialCall) (results : List Int) (port : BitVec 16) : Prop :=
  (SerialCall.initSerial port, 0) ∈ calls.zip results ∨
    ((∃ call ∈ calls, call.detects = true) ∧ port ∈ standardComPorts ∧ responds port = true)

/-- **The invariant**: the count is in range, and the table holds each registered port once. -/
structure TableOk (calls : List SerialCall) (results : List Int) (s : SerialState) : Prop where
  low : -1 ≤ s.numInitializedPorts
  high : s.numInitializedPorts ≤ maxSerialPorts
  nodup : s.table.Nodup
  mem : ∀ port, port ∈ s.table ↔ Registered responds calls results port

/-- **A sequence of calls is handled right** from the start of the kernel: every index is inside its
array, the invariant holds after the calls, and a detection that comes first returns the number of
standard ports that respond. -/
def SerialOk (calls : List SerialCall) : Prop :=
  ∃ results s, runSerial responds calls serialStart = .ok (results, s) ∧
    TableOk responds calls results s ∧
    (calls.head? = some .detectSerialPorts →
      results.head? = some ((standardComPorts.filter responds).length : Int))

/-- Until the first detection no port that responds is initialised, and then no standard port
responds. -/
def SafeOrder : List SerialCall → Prop
  | [] => True
  | .initSerial port :: calls => (port = 0 ∨ responds port = false) ∧ SafeOrder calls
  | .setDefaultSerialPort _ :: calls => SafeOrder calls
  | .detectSerialPorts :: _ => ∀ port ∈ standardComPorts, responds port = false
  | .initSerialPorts :: _ => ∀ port ∈ standardComPorts, responds port = false

variable {responds}

/-- A first call that registers nothing. -/
theorem TableOk.skip {call : SerialCall} {calls : List SerialCall} {result : Int}
    {results : List Int} (ok : TableOk responds calls results s) (undetecting : call.detects = false)
    (refused : ∀ port, call = .initSerial port → result ≠ 0) :
    TableOk responds (call :: calls) (result :: results) s := by
  refine ⟨ok.low, ok.high, ok.nodup, fun port => (ok.mem port).trans ?_⟩
  rw [Registered, Registered, List.zip_cons_cons, List.mem_cons, List.exists_mem_cons_iff,
    undetecting, Prod.mk.injEq]
  refine or_congr ⟨.inr, ?_⟩ ?_
  · rintro (⟨init, zero⟩ | later)
    · exact absurd zero.symm (refused port init.symm)
    · exact later
  · simp

/-- Calls after a detection at which no standard port responds. -/
theorem tableOk_detected {call : SerialCall} {calls : List SerialCall} {result : Int}
    {s₁ : SerialState} (done : call.exec responds s = .ok (result, s₁)) (holds : PortTable s₁ [])
    (quiet : ∀ port ∈ standardComPorts, responds port = false)
    (detects : call.detects = true) :
    ∃ results s', runSerial responds (call :: calls) s = .ok (result :: results, s') ∧
      TableOk responds (call :: calls) (result :: results) s' := by
  obtain ⟨results, s', T, rest, holds', -, nodup, mem⟩ := runSerial_holds responds calls s₁ [] holds
  refine ⟨results, s', ?_, ?_, ?_, ?_, fun port => ?_⟩
  · exact runSerial_cons responds done rest
  · rw [holds'.num]
    omega
  · rw [holds'.num]
    exact Int.ofNat_le.mpr holds'.few
  · rw [holds'.table]
    exact nodup List.nodup_nil
  · rw [holds'.table, mem, Registered, List.zip_cons_cons, List.mem_cons, Prod.mk.injEq]
    constructor
    · rintro (first | later)
      · cases first
      · exact .inl (.inr later)
    · rintro ((⟨init, -⟩ | later) | ⟨-, standard, answers⟩)
      · rw [← init] at detects
        cases detects
      · exact .inr later
      · rw [quiet port standard] at answers
        cases answers

theorem Undetected.initSerialPorts_none (fresh : Undetected s)
    (quiet : ∀ port ∈ standardComPorts, responds port = false) :
    initSerialPorts responds s = .ok (-1, { s with numInitializedPorts := 0 }) := by
  rw [initSerialPorts, fresh.detect_none responds quiet]
  rfl

/-- **In a safe order** all calls return and the invariant holds. -/
theorem runSerial_safe (calls : List SerialCall) : ∀ s, Undetected s → SafeOrder responds calls →
    ∃ results s', runSerial responds calls s = .ok (results, s') ∧
      TableOk responds calls results s' := by
  induction calls with
  | nil =>
    intro s fresh _
    refine ⟨[], s, rfl, ?_, ?_, ?_, fun port => ?_⟩
    · rw [fresh.num]
    · rw [fresh.num]
      decide
    · rw [fresh.table]
      exact List.nodup_nil
    · rw [fresh.table]
      simp [Registered]
  | cons call calls ih =>
    intro s fresh safe
    cases call with
    | initSerial port =>
      obtain ⟨results, s', rest, ok⟩ := ih s fresh safe.2
      have refused := initSerial_silent responds safe.1 s
      exact ⟨-1 :: results, s', runSerial_cons responds refused rest,
        ok.skip rfl fun _ _ => by decide⟩
    | setDefaultSerialPort port =>
      obtain ⟨results, s', rest, ok⟩ := ih s fresh safe
      refine ⟨0 :: results, s', runSerial_cons responds ?_ rest, ok.skip rfl nofun⟩
      rw [SerialCall.exec, fresh.setDefaultSerialPort]
      rfl
    | detectSerialPorts =>
      have done : SerialCall.exec responds .detectSerialPorts s = _ :=
        fresh.detect_none responds safe
      obtain ⟨results, s', ran⟩ := tableOk_detected done fresh.holds safe rfl
      exact ⟨_, s', ran⟩
    | initSerialPorts =>
      have done : SerialCall.exec responds .initSerialPorts s = _ :=
        fresh.initSerialPorts_none safe
      obtain ⟨results, s', ran⟩ := tableOk_detected done fresh.holds safe rfl
      exact ⟨_, s', ran⟩

/-- Once a port is in the table twice it stays so. -/
theorem runSerial_twice {calls : List SerialCall} {results : List Int} (holds : PortTable s T)
    (twice : ¬ T.Nodup) (done : runSerial responds calls s = .ok (results, s')) :
    ¬ s'.table.Nodup := by
  obtain ⟨_, s₁, T', ran, holds', more, -⟩ := runSerial_holds responds calls s T holds
  rw [ran] at done
  cases done
  rw [holds'.table]
  exact fun nodup => twice (nodup.sublist more.sublist)

/-- **In any other order** an index leaves its array or a port is entered twice. -/
theorem runSerial_unsafe (calls : List SerialCall) : ∀ s, Undetected s → ¬ SafeOrder responds calls →
    ∀ results s', runSerial responds calls s = .ok (results, s') → ¬ s'.table.Nodup := by
  induction calls with
  | nil => exact fun s _ bad => absurd trivial bad
  | cons call calls ih =>
    intro s fresh bad results s' done
    obtain ⟨⟨result, s₁⟩, first, rest⟩ := bind_ok done
    obtain ⟨⟨results', s₂⟩, ran, same⟩ := bind_ok rest
    cases same
    cases call with
    | initSerial port =>
      by_cases silent : port = 0 ∨ responds port = false
      · rw [SerialCall.exec, initSerial_silent responds silent] at first
        cases first
        exact ih s fresh (fun safe => bad ⟨silent, safe⟩) _ _ ran
      · push Not at silent
        rw [SerialCall.exec, fresh.initSerial responds silent.1
          (Bool.eq_true_of_not_eq_false silent.2)] at first
        cases first
    | setDefaultSerialPort port =>
      rw [SerialCall.exec, fresh.setDefaultSerialPort, ok_bind] at first
      cases first
      exact ih s fresh bad _ _ ran
    | detectSerialPorts =>
      obtain ⟨-, T, holds, twice⟩ := fresh.detect_twice responds bad first
      exact runSerial_twice holds twice ran
    | initSerialPorts =>
      obtain ⟨⟨count, s₃⟩, detected, last⟩ := bind_ok first
      obtain ⟨rfl, T, holds, twice⟩ := fresh.detect_twice responds bad detected
      obtain ⟨_, s₄, done, holds'⟩ := holds.defaultToLast
      cases done.symm.trans last
      exact runSerial_twice holds' twice ran

theorem undetected_serialStart : Undetected serialStart := ⟨rfl, rfl⟩

variable (responds)

/-- **The table of serial ports** is kept right over a sequence of calls exactly when no port that
responds is initialised before the first detection, and no standard port responds at it. -/
theorem serialOk_iff (calls : List SerialCall) :
    SerialOk responds calls ↔ SafeOrder responds calls := by
  constructor
  · rintro ⟨results, s, done, ok, -⟩
    by_contra bad
    exact runSerial_unsafe calls _ undetected_serialStart bad results s done ok.nodup
  · intro safe
    obtain ⟨results, s, done, ok⟩ := runSerial_safe calls _ undetected_serialStart safe
    refine ⟨results, s, done, ok, fun head => ?_⟩
    obtain ⟨rest, rfl⟩ := List.head?_eq_some_iff.mp head
    obtain ⟨⟨result, s₁⟩, first, later⟩ := bind_ok done
    obtain ⟨⟨results', s₂⟩, -, same⟩ := bind_ok later
    cases same
    have silent : standardComPorts.filter responds = [] := by
      rw [List.filter_eq_nil_iff]
      intro port standard
      rw [safe port standard]
      exact Bool.false_ne_true
    rw [SerialCall.exec, undetected_serialStart.detect_none responds safe] at first
    cases first
    rw [silent]
    rfl

/-- With COM1 alone in the machine the first detection finds two ports, and an `init_serial` before
it writes `initialized_ports[-1]`. -/
theorem detect_registers_twice :
    runSerial (· == 0x3F8) [.detectSerialPorts] serialStart =
        .ok ([2], ⟨[0x3F8, 0x3F8, 0, 0], 2, 0x3F8⟩) ∧
      ¬ SerialOk (· == 0x3F8) [.detectSerialPorts] ∧
      runSerial (· == 0x3F8) [.initSerial 0x3F8] serialStart = .error (.initializedPorts (-1)) := by
  refine ⟨by decide, ?_, by decide⟩
  rintro ⟨results, s, done, ok, -⟩
  have twice : ¬ SafeOrder (· == 0x3F8) [.detectSerialPorts] := by
    intro quiet
    exact absurd (quiet 0x3F8 (by decide)) (by decide)
  exact runSerial_unsafe _ _ undetected_serialStart twice results s done ok.nodup

end ShipOS
