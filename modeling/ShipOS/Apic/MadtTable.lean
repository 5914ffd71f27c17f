/-
**MADTs as lists of entries (`init_madt`).**

A MADT is its header and its entries, one after another. `MadtEntry` is one of them: the four kinds
that `parse_madt_entries` reads, with the sizes of their structs, and the others with their bytes.

* `MadtEntry.encode`, `Encodes` — the bytes of an entry, and of a table;
* `parseEntry_encoded` — the `switch` on an encoded entry;
* `MadtInfo.of` — what the static storage is to hold after a list of entries;
* `initMadt_exact` — and what it holds.
-/

import Mathlib.Data.List.Induction
import ShipOS.Apic.Madt

namespace ShipOS

open ByteMem Records

/-! ### Entries -/

/-- **An entry of a MADT.** -/
inductive MadtEntry
  | lapic (acpiProcessorId apicId : Byte) (flags : BitVec 32)
  | ioapic (id reserved : Byte) (address gsiBase : BitVec 32)
  | lapicOverride (reserved : BitVec 16) (lapicAddr : BitVec 64)
  | x2apic (reserved : BitVec 16) (x2apicId flags acpiProcessorUid : BitVec 32)
  /-- Any other type, with a length from 2 to 255. -/
  | other (type : Byte) (payload : List Byte)
      (unread : type ≠ 0 ∧ type ≠ 1 ∧ type ≠ 5 ∧ type ≠ 9) (short : payload.length + 2 ≤ 255)

def bytes16 (v : BitVec 16) : List Byte := [v.extractLsb' 0 8, v.extractLsb' 8 8]

def bytes32 (v : BitVec 32) : List Byte := bytes16 (v.extractLsb' 0 16) ++ bytes16 (v.extractLsb' 16 16)

def bytes64 (v : BitVec 64) : List Byte := bytes32 (v.extractLsb' 0 32) ++ bytes32 (v.extractLsb' 32 32)

/-- The bytes of an entry: type, length and the fields of its struct. -/
def MadtEntry.encode : MadtEntry → List Byte
  | .lapic acpiProcessorId apicId flags => 0 :: 8 :: acpiProcessorId :: apicId :: bytes32 flags
  | .ioapic id reserved address gsiBase =>
    1 :: 12 :: id :: reserved :: (bytes32 address ++ bytes32 gsiBase)
  | .lapicOverride reserved lapicAddr => 5 :: 12 :: (bytes16 reserved ++ bytes64 lapicAddr)
  | .x2apic reserved x2apicId flags acpiProcessorUid =>
    9 :: 16 :: (bytes16 reserved ++ (bytes32 x2apicId ++ (bytes32 flags ++ bytes32 acpiProcessorUid)))
  | .other type payload _ _ => type :: BitVec.ofNat 8 (payload.length + 2) :: payload

/-- The bytes of a table from an offset on. -/
def Table.Holds (t : Table) : Nat → List Byte → Prop
  | _, [] => True
  | o, b :: bytes => t o = b ∧ t.Holds (o + 1) bytes

instance Table.decidableHolds (t : Table) : ∀ o bytes, Decidable (t.Holds o bytes)
  | _, [] => isTrue trivial
  | o, _ :: bytes => @instDecidableAnd _ _ _ (t.decidableHolds (o + 1) bytes)

/-- **The table of a list of entries**: they are laid out after the header, and `header.Length` is the
total. -/
structure Encodes (t : Table) (entries : List MadtEntry) : Prop where
  length : t.length = madtSize + (entries.flatMap MadtEntry.encode).length
  bytes : t.Holds madtSize (entries.flatMap MadtEntry.encode)

/-- `init_madt`, with the table that `rsdt_find_table("APIC")` returns. -/
def initMadt (table : Option Table) (fuel : Nat) : Option MadtInfo :=
  match table with
  | none => some { lapicAddress := 0, cpus := [], ioapics := [] }
  | some t => (parseMadtEntries t fuel).map Prod.snd

/-! ### Reading an entry -/

variable {t : Table} {o : Nat} {e : MadtEntry}

theorem holds_append {l l' : List Byte} :
    t.Holds o (l ++ l') ↔ t.Holds o l ∧ t.Holds (o + l.length) l' := by
  induction l generalizing o with
  | nil => exact (and_iff_right trivial).symm
  | cons b l ih =>
    rw [List.cons_append, Table.Holds, Table.Holds, ih, and_assoc, List.length_cons,
      Nat.add_right_comm, Nat.add_assoc]

/-- A word is made of its halves. -/
theorem append_halves {w : Nat} (v : BitVec (w + w)) : v.extractLsb' w w ++ v.extractLsb' 0 w = v := by
  rw [BitVec.extractLsb'_append_extractLsb'_eq_extractLsb' (Nat.zero_add w).symm]
  exact BitVec.extractLsb'_eq_self

theorem u16_of_holds {v : BitVec 16} (holds : t.Holds o (bytes16 v)) : t.u16 o = v := by
  obtain ⟨low, high, -⟩ := holds
  rw [Table.u16, low, high]
  exact append_halves (w := 8) v

theorem u32_of_holds {v : BitVec 32} (holds : t.Holds o (bytes32 v)) : t.u32 o = v := by
  obtain ⟨low, high⟩ := holds_append.mp holds
  change t.Holds (o + 2) _ at high
  rw [Table.u32, u16_of_holds low, u16_of_holds high]
  exact append_halves (w := 16) v

theorem u64_of_holds {v : BitVec 64} (holds : t.Holds o (bytes64 v)) : t.u64 o = v := by
  obtain ⟨low, high⟩ := holds_append.mp holds
  change t.Holds (o + 4) _ at high
  rw [Table.u64, u32_of_holds low, u32_of_holds high]
  exact append_halves (w := 32) v

/-- What an entry is to leave in the static storage. -/
def MadtEntry.record : MadtEntry → MadtInfo → MadtInfo
  | .lapic acpiProcessorId apicId flags, info => info.addCpu acpiProcessorId apicId flags
  | .ioapic id _ address gsiBase, info =>
    if info.ioapics.length < maxIoapics then
      { info with ioapics := info.ioapics ++ [⟨id, address, gsiBase⟩] }
    else info
  | .lapicOverride _ lapicAddr, info => { info with lapicAddress := lapicAddr.setWidth 32 }
  | .x2apic _ x2apicId flags acpiProcessorUid, info =>
    info.addCpu (acpiProcessorUid.setWidth 8) (x2apicId.setWidth 8) flags
  | .other _ _ _ _, info => info

/-- **The `switch` on an encoded entry.** -/
theorem parseEntry_encoded (info : MadtInfo) (holds : t.Holds o e.encode) :
    parseEntry t o info = e.record info := by
  cases e with
  | lapic acpiProcessorId apicId flags =>
    obtain ⟨type, -, acpi, apic, fields⟩ := holds
    have word : t.u32 (o + 4) = flags := u32_of_holds fields
    change t (o + 2) = _ at acpi
    change t (o + 3) = _ at apic
    rw [parseEntry, Table.entryType, type, if_pos rfl, acpi, apic, word]
    rfl
  | ioapic id reserved address gsiBase =>
    obtain ⟨type, -, idByte, -, fields⟩ := holds
    obtain ⟨first, second⟩ := holds_append.mp fields
    have base : t.u32 (o + 4) = address := u32_of_holds first
    have gsi : t.u32 (o + 8) = gsiBase := u32_of_holds second
    change t (o + 2) = _ at idByte
    rw [parseEntry, Table.entryType, type, if_neg (by decide), if_pos rfl, Table.ioapicEntry, idByte,
      base, gsi]
    rfl
  | lapicOverride reserved lapicAddr =>
    obtain ⟨type, -, fields⟩ := holds
    obtain ⟨-, address⟩ := holds_append.mp fields
    have word : t.u64 (o + 4) = lapicAddr := u64_of_holds address
    rw [parseEntry, Table.entryType, type, if_neg (by decide), if_neg (by decide), if_pos rfl, word]
    rfl
  | x2apic reserved x2apicId flags acpiProcessorUid =>
    obtain ⟨type, -, fields⟩ := holds
    obtain ⟨-, fields⟩ := holds_append.mp fields
    obtain ⟨first, fields⟩ := holds_append.mp fields
    obtain ⟨second, third⟩ := holds_append.mp fields
    have id : t.u32 (o + 4) = x2apicId := u32_of_holds first
    have word : t.u32 (o + 8) = flags := u32_of_holds second
    have uid : t.u32 (o + 12) = acpiProcessorUid := u32_of_holds third
    rw [parseEntry, Table.entryType, type, if_neg (by decide), if_neg (by decide),
      if_neg (by decide), if_pos rfl, id, word, uid]
    rfl
  | other type payload unread short =>
    obtain ⟨kind, -⟩ := holds
    obtain ⟨notLapic, notIoapic, notOverride, notX2apic⟩ := unread
    rw [parseEntry, Table.entryType, kind, if_neg notLapic, if_neg notIoapic, if_neg notOverride,
      if_neg notX2apic]
    rfl

/-- `entry->Length` of an encoded entry. -/
theorem entryLength_encoded (holds : t.Holds o e.encode) : t.entryLength o = e.encode.length := by
  cases e with
  | other type payload unread short =>
    obtain ⟨-, length, -⟩ := holds
    rw [Table.entryLength, length, BitVec.toNat_ofNat, Nat.mod_eq_of_lt (by omega)]
    rfl
  | _ =>
    obtain ⟨-, length, -⟩ := holds
    rw [Table.entryLength, length]
    rfl

theorem two_le_encode (e : MadtEntry) : 2 ≤ e.encode.length := by
  cases e <;> exact Nat.le_add_left 2 _

/-- The entries of an encoded table, one after another. -/
theorem lays_of_holds : ∀ {o : Nat} (entries : List MadtEntry),
    t.Holds o (entries.flatMap MadtEntry.encode) →
      Lays (fun o e => t.Holds o e.encode) (fun e => e.encode.length) o entries
  | o, [], _ => .nil o
  | o, e :: entries, holds => by
    rw [List.flatMap_cons] at holds
    obtain ⟨first, others⟩ := holds_append.mp holds
    exact .cons first (lays_of_holds entries others)

theorem Encodes.ends {entries : List MadtEntry} (encodes : Encodes t entries) :
    madtSize + (entries.map fun e => e.encode.length).sum = t.length := by
  rw [encodes.length, List.length_flatMap]

/-! ### What the table says -/

/-- A processor entry, with the low bytes of its IDs. -/
def MadtEntry.cpu? : MadtEntry → Option CpuInfo
  | .lapic acpiProcessorId apicId flags =>
    some ⟨apicId, acpiProcessorId, flags, false, flags &&& 1 ≠ 0⟩
  | .x2apic _ x2apicId flags acpiProcessorUid =>
    some ⟨x2apicId.setWidth 8, acpiProcessorUid.setWidth 8, flags, false, flags &&& 1 ≠ 0⟩
  | _ => none

def MadtEntry.ioapic? : MadtEntry → Option IoApicEntry
  | .ioapic id _ address gsiBase => some ⟨id, address, gsiBase⟩
  | _ => none

/-- The low 32 bits of an override. -/
def MadtEntry.override? : MadtEntry → Option (BitVec 32)
  | .lapicOverride _ lapicAddr => some (lapicAddr.setWidth 32)
  | _ => none

/-- The first processor is the BSP. -/
def markBsp : List CpuInfo → List CpuInfo
  | [] => []
  | cpu :: cpus => { cpu with isBsp := true } :: cpus

/-- **What the static storage is to hold**: the first processors and I/O APICs in order, and the last
override or else the address of the header. -/
def MadtInfo.of (lapicAddr : BitVec 32) (entries : List MadtEntry) : MadtInfo where
  lapicAddress := (entries.filterMap MadtEntry.override?).getLast?.getD lapicAddr
  cpus := markBsp ((entries.filterMap MadtEntry.cpu?).take madtMaxCpus)
  ioapics := (entries.filterMap MadtEntry.ioapic?).take maxIoapics

/-- One element more in a table with room for `n`. -/
theorem take_concat {α : Type*} (l : List α) (x : α) (n : Nat) :
    (l ++ [x]).take n = if (l.take n).length < n then l.take n ++ [x] else l.take n := by
  rw [List.length_take, List.take_append]
  by_cases room : l.length < n
  · have one : [x].length ≤ n - l.length := by
      rw [List.length_singleton]
      omega
    rw [if_pos (by omega), List.take_of_length_le one]
  · rw [if_neg (by omega), show n - l.length = 0 by omega, List.take_zero, List.append_nil]

theorem markBsp_length (cpus : List CpuInfo) : (markBsp cpus).length = cpus.length := by
  cases cpus <;> rfl

theorem markBsp_concat (cpus : List CpuInfo) (cpu : CpuInfo) (notBsp : cpu.isBsp = false) :
    markBsp (cpus ++ [cpu]) = markBsp cpus ++ [{ cpu with isBsp := cpus.length = 0 }] := by
  cases cpus with
  | nil => rfl
  | cons first cpus =>
    rw [List.cons_append, markBsp, markBsp, List.cons_append]
    cases cpu
    cases notBsp
    rfl

/-- A processor more, in a table with room for it. -/
theorem addCpu_marked (info : MadtInfo) {cpus : List CpuInfo} (acpiId apicId : Byte)
    (flags : BitVec 32) (recorded : info.cpus = markBsp (cpus.take madtMaxCpus)) :
    info.addCpu acpiId apicId flags = ⟨info.lapicAddress,
      markBsp ((cpus ++ [CpuInfo.mk apicId acpiId flags false (flags &&& 1 ≠ 0)]).take madtMaxCpus),
      info.ioapics⟩ := by
  have count : info.cpus.length = (cpus.take madtMaxCpus).length := by rw [recorded, markBsp_length]
  rw [MadtInfo.addCpu, take_concat, count]
  by_cases room : (cpus.take madtMaxCpus).length < madtMaxCpus
  · rw [if_pos room, if_pos room, markBsp_concat _ _ rfl, recorded]
  · rw [if_neg room, if_neg room, ← recorded]

theorem filterMap_one {α β : Type*} (f : α → Option β) (x : α) : [x].filterMap f = (f x).toList := by
  cases here : f x with
  | none => exact List.filterMap_cons_none here
  | some y => exact List.filterMap_cons_some here

theorem of_concat (lapicAddr : BitVec 32) (entries : List MadtEntry) (e : MadtEntry) :
    MadtInfo.of lapicAddr (entries ++ [e]) =
      ⟨(entries.filterMap MadtEntry.override? ++ e.override?.toList).getLast?.getD lapicAddr,
        markBsp ((entries.filterMap MadtEntry.cpu? ++ e.cpu?.toList).take madtMaxCpus),
        (entries.filterMap MadtEntry.ioapic? ++ e.ioapic?.toList).take maxIoapics⟩ := by
  rw [MadtInfo.of, List.filterMap_append, List.filterMap_append, List.filterMap_append,
    filterMap_one, filterMap_one, filterMap_one]

/-- **One entry more.** -/
theorem record_of (lapicAddr : BitVec 32) (entries : List MadtEntry) (e : MadtEntry) :
    e.record (.of lapicAddr entries) = .of lapicAddr (entries ++ [e]) := by
  rw [of_concat]
  cases e with
  | lapic acpiProcessorId apicId flags =>
    rw [MadtEntry.record, addCpu_marked _ _ _ _ rfl]
    dsimp only [MadtEntry.override?, MadtEntry.cpu?, MadtEntry.ioapic?, Option.toList]
    rw [List.append_nil, List.append_nil]
    rfl
  | x2apic reserved x2apicId flags acpiProcessorUid =>
    rw [MadtEntry.record, addCpu_marked _ _ _ _ rfl]
    dsimp only [MadtEntry.override?, MadtEntry.cpu?, MadtEntry.ioapic?, Option.toList]
    rw [List.append_nil, List.append_nil]
    rfl
  | ioapic id reserved address gsiBase =>
    dsimp only [MadtEntry.override?, MadtEntry.cpu?, MadtEntry.ioapic?, Option.toList]
    rw [MadtEntry.record, List.append_nil, List.append_nil, take_concat]
    by_cases room : ((entries.filterMap MadtEntry.ioapic?).take maxIoapics).length < maxIoapics
    · rw [if_pos room]
      exact if_pos room
    · rw [if_neg room]
      exact if_neg room
  | lapicOverride reserved lapicAddr =>
    dsimp only [MadtEntry.override?, MadtEntry.cpu?, MadtEntry.ioapic?, Option.toList]
    rw [MadtEntry.record, List.append_nil, List.append_nil, List.getLast?_concat]
    rfl
  | other type payload unread short =>
    dsimp only [MadtEntry.override?, MadtEntry.cpu?, MadtEntry.ioapic?, Option.toList]
    rw [MadtEntry.record, List.append_nil, List.append_nil, List.append_nil]
    rfl

theorem foldl_record (lapicAddr : BitVec 32) (entries : List MadtEntry) :
    entries.foldl (fun info e => e.record info) ⟨lapicAddr, [], []⟩ = .of lapicAddr entries := by
  induction entries using List.reverseRecOn with
  | nil => rfl
  | append_singleton entries e ih =>
    rw [List.foldl_append, List.foldl_cons, List.foldl_nil, ih, record_of]

/-- **`init_madt` is exact on well-formed tables.** -/
theorem initMadt_exact {entries : List MadtEntry} (encodes : Encodes t entries) :
    Returns (initMadt (some t)) (.of t.lapicAddr entries) := by
  have accepts : ∀ o, Whole t.entryLength t.length 2 o → t.sane o = true := fun o =>
    (sane_iff t o).mpr
  have sizes : ∀ o (e : MadtEntry), t.Holds o e.encode → t.entryLength o = e.encode.length :=
    fun _ _ => entryLength_encoded
  have visits : ∀ o (e : MadtEntry) info, t.Holds o e.encode → parseEntry t o info = e.record info :=
    fun _ _ info => parseEntry_encoded info
  obtain ⟨fuel, os, parsed⟩ := (lays_of_holds entries encodes.bytes).scan accepts sizes two_le_encode
    Nat.two_pos visits encodes.ends ⟨t.lapicAddr, [], []⟩
  refine ⟨fuel, ?_⟩
  rw [initMadt, parseMadtEntries, parsed, foldl_record]
  rfl

/-- A processor, an interrupt source override of three bytes and an address override. -/
def demoEntries : List MadtEntry :=
  [.lapic 0 1 1, .other 2 [0xAA] (by decide) (by decide), .lapicOverride 0 0x1FEE00000]

def demoMadt (o : Nat) : Byte :=
  if o = 4 then 67 else (demoEntries.flatMap MadtEntry.encode).getD (o - madtSize) 0

theorem initMadt_exact_three :
    Returns (initMadt (some demoMadt)) ⟨0xFEE00000, [⟨1, 0, 1, true, true⟩], []⟩ := by
  have encodes : Encodes demoMadt demoEntries := ⟨by decide, by decide⟩
  exact initMadt_exact encodes

end ShipOS
