/-
**The three walks over the MADT (`madt.c`, `ioapic.c`, `main.c`).**

The table is its bytes by offset; offsets stand for the pointers into it. `parse_madt_entries`
checks the length of every entry, the loops of `ioapic_init` and `init_acpi_and_map_apic` do not,
and `ioapic_init` stops when its array is full. All three are the same scan (`Records.scan`) with
their own check, condition and body.

* `WellFormed` — the table is made of whole entries, so that the check never breaks off;
* `foldl_parseEntry`, `foldl_parseEntry_seen`, `through_ioapicEntry`, `foldl_mapEntry` — what the
  three bodies gather from a list of entries;
* `walkers_iff` — the three walks end and agree exactly on the well-formed tables.
-/

import ShipOS.Lib.ByteMem
import ShipOS.Lib.Records

namespace ShipOS

open ByteMem Records

/-! ### The table -/

/-- The bytes of the table, and of the memory behind it. -/
abbrev Table := Nat → Byte

def Table.u16 (t : Table) (o : Nat) : BitVec 16 := t (o + 1) ++ t o

def Table.u32 (t : Table) (o : Nat) : BitVec 32 := t.u16 (o + 2) ++ t.u16 o

def Table.u64 (t : Table) (o : Nat) : BitVec 64 := t.u32 (o + 4) ++ t.u32 o

/-- `madt->header.Length`. -/
def Table.length (t : Table) : Nat := (t.u32 4).toNat

/-- `madt->LAPICAddr`. -/
def Table.lapicAddr (t : Table) : BitVec 32 := t.u32 36

/-- `sizeof(struct MADT_t)`, where the entries start. -/
def madtSize : Nat := 44

/-- `entry->Type`. -/
def Table.entryType (t : Table) (o : Nat) : Byte := t o

/-- `entry->Length`. -/
def Table.entryLength (t : Table) (o : Nat) : Nat := (t (o + 1)).toNat

/-! ### `parse_madt_entries` -/

/-- `struct CPUInfo`. -/
structure CpuInfo where
  apicId : Byte
  acpiId : Byte
  flags : BitVec 32
  isBsp : Bool
  enabled : Bool
  deriving DecidableEq, Repr

/-- `struct IOAPICEntry`. -/
structure IoApicEntry where
  id : Byte
  address : BitVec 32
  gsiBase : BitVec 32
  deriving DecidableEq, Repr

/-- The static storage of `madt.c`. -/
structure MadtInfo where
  lapicAddress : BitVec 32
  cpus : List CpuInfo
  ioapics : List IoApicEntry
  deriving DecidableEq, Repr

def madtMaxCpus : Nat := 64

def maxIoapics : Nat := 8

/-- A processor entry is recorded while there is room; the first one found is taken for the BSP. -/
def MadtInfo.addCpu (acpiId apicId : Byte) (flags : BitVec 32) (info : MadtInfo) : MadtInfo :=
  if info.cpus.length < madtMaxCpus then
    { info with
      cpus := info.cpus ++
        [{ apicId := apicId, acpiId := acpiId, flags := flags, isBsp := info.cpus.length = 0,
           enabled := flags &&& 1 ≠ 0 }] }
  else info

/-- The `struct MADTEntryIOAPIC` at an offset. -/
def Table.ioapicEntry (t : Table) (o : Nat) : IoApicEntry where
  id := t (o + 2)
  address := t.u32 (o + 4)
  gsiBase := t.u32 (o + 8)

/-- The `switch` of `parse_madt_entries`. -/
def parseEntry (t : Table) (o : Nat) (info : MadtInfo) : MadtInfo :=
  if t.entryType o = 0 then info.addCpu (t (o + 2)) (t (o + 3)) (t.u32 (o + 4))
  else if t.entryType o = 1 then
    if info.ioapics.length < maxIoapics then
      { info with ioapics := info.ioapics ++ [t.ioapicEntry o] }
    else info
  else if t.entryType o = 5 then { info with lapicAddress := (t.u64 (o + 4)).setWidth 32 }
  else if t.entryType o = 9 then
    info.addCpu ((t.u32 (o + 12)).setWidth 8) ((t.u32 (o + 4)).setWidth 8) (t.u32 (o + 8))
  else info

/-- The check `entry->Length < 2 || entry_ptr + entry->Length > end_ptr`, which breaks off. -/
def Table.sane (t : Table) (o : Nat) : Bool :=
  ¬ (t.entryLength o < 2 ∨ o + t.entryLength o > t.length)

/-- `init_madt` from the table on: the entries visited, and what they leave. -/
def parseMadtEntries (t : Table) (fuel : Nat) : Option (List Nat × MadtInfo) :=
  scan t.entryLength t.length (fun _ => true) t.sane (parseEntry t) fuel madtSize
    { lapicAddress := t.lapicAddr, cpus := [], ioapics := [] }

/-! ### `ioapic_init` and `init_acpi_and_map_apic` -/

/-- `struct IOAPICInfo`. -/
structure IoApicInfo where
  entry : IoApicEntry
  maxRedirect : Byte
  regs : Word
  deriving DecidableEq, Repr

/-- The body of the loop of `ioapic_init`; `version` is what the version register at an address
reads. -/
def ioapicInitEntry (version : Word → BitVec 32) (t : Table) (o : Nat) (ioapics : List IoApicInfo) :
    List IoApicInfo :=
  if t.entryType o = 1 then
    let regs := (t.ioapicEntry o).address.setWidth 64
    ioapics ++ [{ entry := t.ioapicEntry o, maxRedirect := (version regs >>> 16).setWidth 8,
                  regs := regs }]
  else ioapics

def ioapicInit (version : Word → BitVec 32) (t : Table) (fuel : Nat) :
    Option (List Nat × List IoApicInfo) :=
  scan t.entryLength t.length (fun ioapics => ioapics.length < maxIoapics) (fun _ => true)
    (ioapicInitEntry version t) fuel madtSize []

/-- The body of the loop of `init_acpi_and_map_apic`: the addresses handed to `map_apic_region`. -/
def mapEntry (t : Table) (o : Nat) (mapped : List (BitVec 32)) : List (BitVec 32) :=
  if t.entryType o = 1 then mapped ++ [t.u32 (o + 4)] else mapped

def initAcpiAndMapApic (t : Table) (fuel : Nat) : Option (List Nat × List (BitVec 32)) :=
  scan t.entryLength t.length (fun _ => true) (fun _ => true) (mapEntry t) fuel madtSize []

/-! ### What the bodies gather -/

/-- The I/O APIC entries of a list. -/
def Table.ioapicsOf (t : Table) (os : List Nat) : List Nat := os.filter fun o => t.entryType o = 1

/-- A processor entry, of either kind. -/
def Table.isCpu (t : Table) (o : Nat) : Bool := t.entryType o = 0 ∨ t.entryType o = 9

/-- The processor entries of a list. -/
def Table.cpusOf (t : Table) (os : List Nat) : List Nat := os.filter t.isCpu

/-- The APIC ID an entry names. -/
def Table.apicId (t : Table) (o : Nat) : BitVec 32 :=
  if t.entryType o = 0 then (t (o + 3)).setWidth 32 else t.u32 (o + 4)

def Table.cpuEnabled (t : Table) (o : Nat) : Bool :=
  (if t.entryType o = 0 then t.u32 (o + 4) else t.u32 (o + 8)) &&& 1 ≠ 0

/-- What the loop of `start_all_aps` reads of a record. -/
def CpuInfo.seen (cpu : CpuInfo) : Byte × Bool := (cpu.apicId, cpu.enabled)

/-- What is recorded of an entry. -/
def Table.recorded (t : Table) (o : Nat) : Byte × Bool := ((t.apicId o).setWidth 8, t.cpuEnabled o)

/-- The entries up to the `k`-th I/O APIC. -/
def Table.upToIoapic (t : Table) : Nat → List Nat → List Nat
  | 0, _ => []
  | _, [] => []
  | k + 1, o :: os => o :: t.upToIoapic (if t.entryType o = 1 then k else k + 1) os

variable (t : Table)

theorem addCpu_ioapics (acpiId apicId : Byte) (flags : BitVec 32) (info : MadtInfo) :
    (info.addCpu acpiId apicId flags).ioapics = info.ioapics := by
  rw [MadtInfo.addCpu]
  split
  · rfl
  · rfl

/-- One entry: an I/O APIC is recorded while there is room. -/
theorem parseEntry_ioapics (o : Nat) (info : MadtInfo) :
    (parseEntry t o info).ioapics =
      if t.entryType o = 1 ∧ info.ioapics.length < maxIoapics then
        info.ioapics ++ [t.ioapicEntry o] else info.ioapics := by
  by_cases kind : t.entryType o = 1
  · rw [parseEntry, if_neg (by rw [kind]; decide), if_pos kind]
    by_cases few : info.ioapics.length < maxIoapics
    · rw [if_pos few, if_pos ⟨kind, few⟩]
    · rw [if_neg few, if_neg fun both => few both.2]
  · have unchanged : (if t.entryType o = 1 ∧ info.ioapics.length < maxIoapics then
        info.ioapics ++ [t.ioapicEntry o] else info.ioapics) = info.ioapics :=
      if_neg fun both => kind both.1
    rw [unchanged, parseEntry]
    split
    · exact addCpu_ioapics ..
    · split
      · rfl
      · split
        · exact addCpu_ioapics ..
        · rfl

theorem foldl_parseEntry : ∀ (os : List Nat) (info : MadtInfo),
    (os.foldl (fun info o => parseEntry t o info) info).ioapics =
      info.ioapics ++ ((t.ioapicsOf os).map t.ioapicEntry).take (maxIoapics - info.ioapics.length)
  | [], info => by simp [Table.ioapicsOf]
  | o :: os, info => by
    rw [List.foldl_cons, foldl_parseEntry os, parseEntry_ioapics, Table.ioapicsOf, Table.ioapicsOf]
    by_cases kind : t.entryType o = 1
    · rw [List.filter_cons_of_pos (by simpa using kind)]
      by_cases few : info.ioapics.length < maxIoapics
      · obtain ⟨k, room⟩ := Nat.exists_eq_add_of_lt few
        simp [kind, few, show maxIoapics - (info.ioapics.length + 1) = k by omega,
          show maxIoapics - info.ioapics.length = k + 1 by omega]
      · simp [few, show maxIoapics - info.ioapics.length = 0 by omega]
    · rw [List.filter_cons_of_neg (by simpa using kind), if_neg fun both => kind both.1]

theorem addCpu_seen (acpiId apicId : Byte) (flags : BitVec 32) (info : MadtInfo) :
    (info.addCpu acpiId apicId flags).cpus.map CpuInfo.seen =
      if info.cpus.length < madtMaxCpus then
        info.cpus.map CpuInfo.seen ++ [(apicId, decide (flags &&& 1 ≠ 0))]
      else info.cpus.map CpuInfo.seen := by
  rw [MadtInfo.addCpu]
  split
  · rw [List.map_append]
    rfl
  · rfl

/-- One entry: a processor is recorded while there is room. -/
theorem parseEntry_seen (o : Nat) (info : MadtInfo) :
    (parseEntry t o info).cpus.map CpuInfo.seen =
      if t.isCpu o = true ∧ info.cpus.length < madtMaxCpus then
        info.cpus.map CpuInfo.seen ++ [t.recorded o] else info.cpus.map CpuInfo.seen := by
  by_cases lapic : t.entryType o = 0
  · have cpu : t.isCpu o = true := decide_eq_true (.inl lapic)
    have same : ((t (o + 3)).setWidth 32).setWidth 8 = t (o + 3) := by
      rw [BitVec.setWidth_setWidth_of_le _ (by omega), BitVec.setWidth_eq]
    rw [parseEntry, if_pos lapic, addCpu_seen, Table.recorded, Table.apicId, Table.cpuEnabled,
      if_pos lapic, if_pos lapic, same]
    simp only [cpu, true_and]
  · by_cases x2apic : t.entryType o = 9
    · have cpu : t.isCpu o = true := decide_eq_true (.inr x2apic)
      rw [parseEntry, if_neg lapic, if_neg (by rw [x2apic]; decide),
        if_neg (by rw [x2apic]; decide), if_pos x2apic, addCpu_seen, Table.recorded, Table.apicId,
        Table.cpuEnabled, if_neg lapic, if_neg lapic]
      simp only [cpu, true_and]
    · have other : ¬ (t.isCpu o = true ∧ info.cpus.length < madtMaxCpus) := by
        rintro ⟨cpu, -⟩
        exact (of_decide_eq_true cpu).elim lapic x2apic
      rw [if_neg other, parseEntry, if_neg lapic]
      split
      · split
        · rfl
        · rfl
      · split
        · rfl
        · rfl

theorem foldl_parseEntry_seen : ∀ (os : List Nat) (info : MadtInfo),
    (os.foldl (fun info o => parseEntry t o info) info).cpus.map CpuInfo.seen =
      info.cpus.map CpuInfo.seen ++
        ((t.cpusOf os).map t.recorded).take (madtMaxCpus - info.cpus.length) := by
  intro os
  induction os with
  | nil =>
    intro info
    rw [List.foldl_nil, Table.cpusOf, List.filter_nil, List.map_nil, List.take_nil, List.append_nil]
  | cons o os ih =>
    intro info
    have step := parseEntry_seen t o info
    have count := congrArg List.length step
    rw [List.foldl_cons, ih, step, Table.cpusOf, Table.cpusOf]
    by_cases cpu : t.isCpu o = true
    · rw [List.filter_cons_of_pos cpu, List.map_cons]
      by_cases room : info.cpus.length < madtMaxCpus
      · rw [if_pos ⟨cpu, room⟩, List.length_append, List.length_map, List.length_map,
          List.length_singleton] at count
        obtain ⟨k, left⟩ := Nat.exists_eq_add_of_lt room
        rw [if_pos ⟨cpu, room⟩, count, show madtMaxCpus - (info.cpus.length + 1) = k by omega,
          show madtMaxCpus - info.cpus.length = k + 1 by omega, List.take_succ_cons,
          List.append_assoc, List.singleton_append]
      · rw [if_neg fun both => room both.2, List.length_map, List.length_map] at count
        rw [if_neg fun both => room both.2, count, show madtMaxCpus - info.cpus.length = 0 by omega,
          List.take_zero, List.take_zero]
    · rw [if_neg fun both => cpu both.1, List.length_map, List.length_map] at count
      rw [if_neg fun both => cpu both.1, count, List.filter_cons_of_neg cpu]

theorem through_ioapicEntry (version : Word → BitVec 32) (info : Nat → IoApicInfo)
    (body : ∀ o s, ioapicInitEntry version t o s = if t.entryType o = 1 then s ++ [info o] else s) :
    ∀ (os : List Nat) (s : List IoApicInfo), s.length ≤ maxIoapics →
      through (fun ioapics => ioapics.length < maxIoapics) (ioapicInitEntry version t) os s =
        (t.upToIoapic (maxIoapics - s.length) os,
          s ++ ((t.ioapicsOf os).map info).take (maxIoapics - s.length))
  | [], s, room => by
    rcases h : maxIoapics - s.length with _ | k
    · simp [through, Table.upToIoapic, Table.ioapicsOf]
    · simp [through, Table.upToIoapic, Table.ioapicsOf]
  | o :: os, s, room => by
    rw [through]
    by_cases few : s.length < maxIoapics
    · obtain ⟨k, left⟩ := Nat.exists_eq_add_of_lt few
      rw [if_pos (by simpa using few), body, Table.ioapicsOf,
        show maxIoapics - s.length = k + 1 by omega, Table.upToIoapic]
      by_cases kind : t.entryType o = 1
      · rw [List.filter_cons_of_pos (by simpa using kind), if_pos kind, if_pos kind,
          through_ioapicEntry version info body os _ (by simp; omega)]
        simp [show maxIoapics - (s.length + 1) = k by omega, Table.ioapicsOf]
      · rw [List.filter_cons_of_neg (by simpa using kind), if_neg kind, if_neg kind,
          through_ioapicEntry version info body os _ room]
        simp [show maxIoapics - s.length = k + 1 by omega, Table.ioapicsOf]
    · rw [if_neg (by simpa using few), show maxIoapics - s.length = 0 by omega]
      simp [Table.upToIoapic]

theorem foldl_mapEntry : ∀ (os : List Nat) (mapped : List (BitVec 32)),
    os.foldl (fun mapped o => mapEntry t o mapped) mapped =
      mapped ++ (t.ioapicsOf os).map fun o => (t.ioapicEntry o).address
  | [], mapped => by simp [Table.ioapicsOf]
  | o :: os, mapped => by
    rw [List.foldl_cons, foldl_mapEntry os, mapEntry, Table.ioapicsOf, Table.ioapicsOf]
    by_cases kind : t.entryType o = 1
    · rw [List.filter_cons_of_pos (by simpa using kind), if_pos kind]
      simp [Table.ioapicEntry]
    · rw [List.filter_cons_of_neg (by simpa using kind), if_neg kind]

/-! ### Agreement -/

/-- A walk returns. -/
def Returns {R : Type} (walk : Nat → Option R) (result : R) : Prop := ∃ fuel, walk fuel = some result

/-- **The three walks end and agree**: the same entries are visited, by `ioapic_init` up to the one
that fills its array, and the I/O APICs recorded twice and mapped are the same up to that number. -/
def WalkersAgree (version : Word → BitVec 32) : Prop :=
  ∃ visited info early ioapics mapped, Returns (parseMadtEntries t) (visited, info) ∧
    Returns (ioapicInit version t) (early, ioapics) ∧
    Returns (initAcpiAndMapApic t) (visited, mapped) ∧
    early = t.upToIoapic maxIoapics visited ∧
    ioapics.map IoApicInfo.entry = info.ioapics ∧
    mapped.take maxIoapics = info.ioapics.map IoApicEntry.address

/-- **A table of whole entries.** -/
def WellFormed : Prop := ∃ os, Chain t.entryLength t.length 2 madtSize os

theorem sane_iff (o : Nat) : t.sane o = true ↔ Whole t.entryLength t.length 2 o := by
  rw [Table.sane, decide_eq_true_iff, Whole, not_or, Nat.not_lt, Nat.not_lt]

theorem parse_terminates : ∃ result, Returns (parseMadtEntries t) result := by
  have refuses : ∀ o, t.sane o = true → 0 < t.entryLength o := fun o sane =>
    Nat.lt_of_lt_of_le Nat.two_pos ((sane_iff t o).mp sane).1
  obtain ⟨result, done⟩ := scan_terminates refuses (t.length + 1) madtSize _
    (Nat.lt_succ_of_le (Nat.sub_le _ _))
  exact ⟨result, _, done⟩

/-- **`parse_madt_entries` always ends; the three walks end and agree exactly on the well-formed
tables.** -/
theorem walkers_iff (version : Word → BitVec 32) :
    (∃ result, Returns (parseMadtEntries t) result) ∧
      (WalkersAgree t version ↔ WellFormed t) := by
  refine ⟨parse_terminates t, fun agree => ?_, fun wellFormed => ?_⟩
  · -- The loop of `main.c` visits every entry it comes to, so `parse_madt_entries` did not break off.
    obtain ⟨visited, info, -, -, mapped, ⟨fuel, parsed⟩, -, ⟨fuel', walked⟩, -⟩ := agree
    exact ⟨visited, chain_of_scans (fun o => (sane_iff t o).mp) _ _ _ _ _ walked parsed⟩
  · obtain ⟨os, chain⟩ := wellFormed
    have enough := Nat.lt_succ_self os.length
    have parsed : parseMadtEntries t (os.length + 1) = some (through _ _ os _) :=
      scan_chain (fun o => (sane_iff t o).mpr) chain _ _ enough
    have recorded : ioapicInit version t (os.length + 1) = some (through _ _ os _) :=
      scan_chain (fun _ _ => rfl) chain _ _ enough
    have walked : initAcpiAndMapApic t (os.length + 1) = some (through _ _ os _) :=
      scan_chain (fun _ _ => rfl) chain _ _ enough
    rw [through_all] at parsed walked
    rw [through_ioapicEntry t version _ (fun _ _ => rfl) os [] (Nat.zero_le _)] at recorded
    refine ⟨os, _, _, _, _, ⟨_, parsed⟩, ⟨_, recorded⟩, ⟨_, walked⟩, rfl, ?_, ?_⟩
    · rw [foldl_parseEntry]
      simp [List.map_take, Function.comp_def]
    · rw [foldl_parseEntry, foldl_mapEntry]
      simp [List.map_take, Function.comp_def]

/-- A table whose first entry is an interrupt source override of length 0. -/
def demoTable (o : Nat) : Byte := if o = 4 then 60 else if o = 44 then 2 else 0

/-- **An entry of length 0**: `parse_madt_entries` breaks off, and the other two loops never end. -/
theorem walkers_diverge :
    Returns (parseMadtEntries demoTable) ([], ⟨0, [], []⟩) ∧
      (∀ fuel, ioapicInit (fun _ => 0) demoTable fuel = none) ∧
      (∀ fuel, initAcpiAndMapApic demoTable fuel = none) ∧
      ¬ WalkersAgree demoTable fun _ => 0 := by
  have stuck : ∀ fuel, initAcpiAndMapApic demoTable fuel = none := fun fuel =>
    scan_stuck (by decide) (by decide) (fun _ _ => rfl) fuel [] rfl
  refine ⟨⟨1, by decide⟩, fun fuel => ?_, stuck, ?_⟩
  · exact scan_stuck (by decide) (by decide) (fun s goes => goes) fuel [] (by decide)
  · intro ⟨_, _, _, _, _, _, _, ⟨fuel, walked⟩, _⟩
    rw [stuck fuel] at walked
    cases walked

end ShipOS
