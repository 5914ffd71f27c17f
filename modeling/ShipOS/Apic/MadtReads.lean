/-
**The bytes that `parse_madt_entries` reads.**

The loop reads the length of an entry before it knows that the entry is in the table, and the check
of the length is the same for all types: the fields of a struct are read whatever length its entry
states.

* `roundReads` — the bytes read in a round; `parse_determined` — nothing else is looked at;
* `StructsInside` — the structs of the entries that the length bytes lead to are in the table;
* `parse_inside_iff` — the reads stay in the table exactly then;
* `inside_of_encodes` — as in a table of whole entries;
* `parse_reads_behind` — MADTs that are accepted and read behind their end.
-/

import ShipOS.Acpi.Tables
import ShipOS.Apic.MadtTable

namespace ShipOS

open ByteMem Records

variable (t : Table)

/-! ### Reads -/

/-- The fields that the `switch` reads of the entry at `o`; processors and I/O APICs that there is no
room for are not looked at. -/
def fieldReads (o : Nat) (info : MadtInfo) : List Nat :=
  if t.entryType o = 0 then
    if info.cpus.length < madtMaxCpus then List.range' (o + 2) 6 else []
  else if t.entryType o = 1 then
    if info.ioapics.length < maxIoapics then (o + 2) :: List.range' (o + 4) 8 else []
  else if t.entryType o = 5 then List.range' (o + 4) 8
  else if t.entryType o = 9 then
    if info.cpus.length < madtMaxCpus then List.range' (o + 4) 12 else []
  else []

/-- The bytes read in the round at `o`: `entry->Length`, and `entry->Type` and the fields if the check
passes. -/
def roundReads (o : Nat) (info : MadtInfo) : List Nat :=
  (o + 1) :: if t.sane o then o :: fieldReads t o info else []

/-- The rounds of the loop of `parse_madt_entries`. -/
def madtRounds (fuel : Nat) : Option (List (Nat × MadtInfo)) :=
  Records.rounds t.entryLength t.length (fun _ => true) t.sane (parseEntry t) fuel madtSize
    { lapicAddress := t.lapicAddr, cpus := [], ioapics := [] }

/-- The offsets of the bytes that `parse_madt_entries` reads through `entry_ptr`. -/
def madtReads (fuel : Nat) : Option (List Nat) :=
  (madtRounds t fuel).map fun begun => begun.flatMap fun p => roundReads t p.1 p.2

/-! ### Nothing else is looked at -/

section Determined

variable {t} {t' : Table} {o a n : Nat} {info : MadtInfo}

/-- A word among bytes that are the same. -/
theorem u32_congr (same : ∀ r ∈ List.range' a n, t' r = t r) (low : a ≤ o) (high : o + 4 ≤ a + n) :
    t'.u32 o = t.u32 o := by
  have byte : ∀ i < 4, t' (o + i) = t (o + i) := fun i small =>
    same _ (List.mem_range'_1.mpr ⟨by omega, by omega⟩)
  have first := byte 0 (by decide)
  rw [Nat.add_zero] at first
  rw [Table.u32, Table.u32, Table.u16, Table.u16, Table.u16, Table.u16, first, byte 1 (by decide),
    byte 2 (by decide), Nat.add_assoc, byte 3 (by decide)]

theorem addCpu_full (full : ¬ info.cpus.length < madtMaxCpus) (acpiId apicId : Byte)
    (flags : BitVec 32) : info.addCpu acpiId apicId flags = info := if_neg full

/-- The `switch` looks at the type and the fields only. -/
theorem parseEntry_congr (type : t' o = t o) (fields : ∀ r ∈ fieldReads t o info, t' r = t r) :
    parseEntry t' o info = parseEntry t o info := by
  have kind : t'.entryType o = t.entryType o := type
  rw [fieldReads] at fields
  rw [parseEntry, parseEntry, kind]
  by_cases lapic : t.entryType o = 0
  · rw [if_pos lapic] at fields
    rw [if_pos lapic, if_pos lapic]
    by_cases room : info.cpus.length < madtMaxCpus
    · rw [if_pos room] at fields
      rw [fields (o + 2) (List.mem_range'_1.mpr ⟨by omega, by omega⟩),
        fields (o + 3) (List.mem_range'_1.mpr ⟨by omega, by omega⟩),
        u32_congr fields (by omega) (by omega)]
    · rw [addCpu_full room, addCpu_full room]
  rw [if_neg lapic] at fields
  rw [if_neg lapic, if_neg lapic]
  by_cases ioapic : t.entryType o = 1
  · rw [if_pos ioapic] at fields
    rw [if_pos ioapic, if_pos ioapic]
    by_cases room : info.ioapics.length < maxIoapics
    · rw [if_pos room] at fields
      obtain ⟨id, words⟩ := List.forall_mem_cons.mp fields
      rw [if_pos room, if_pos room, Table.ioapicEntry, Table.ioapicEntry, id,
        u32_congr words (by omega) (by omega), u32_congr words (by omega) (by omega)]
    · rw [if_neg room, if_neg room]
  rw [if_neg ioapic] at fields
  rw [if_neg ioapic, if_neg ioapic]
  by_cases override : t.entryType o = 5
  · rw [if_pos override] at fields
    rw [if_pos override, if_pos override, Table.u64, Table.u64,
      u32_congr fields (by omega) (by omega), u32_congr fields (by omega) (by omega)]
  rw [if_neg override] at fields
  rw [if_neg override, if_neg override]
  by_cases x2apic : t.entryType o = 9
  · rw [if_pos x2apic] at fields
    rw [if_pos x2apic, if_pos x2apic]
    by_cases room : info.cpus.length < madtMaxCpus
    · rw [if_pos room] at fields
      rw [u32_congr fields (by omega) (by omega), u32_congr fields (by omega) (by omega),
        u32_congr fields (by omega) (by omega)]
    · rw [addCpu_full room, addCpu_full room]
  · rw [if_neg x2apic, if_neg x2apic]

/-- **The reads determine the parse**: a table with the same header and the same bytes where
`parse_madt_entries` reads leaves the same in the static storage. -/
theorem parse_determined {fuel : Nat} {reads : List Nat} (run : madtReads t fuel = some reads)
    (length : t'.length = t.length) (address : t'.lapicAddr = t.lapicAddr)
    (same : ∀ r ∈ reads, t' r = t r) : parseMadtEntries t' fuel = parseMadtEntries t fuel := by
  obtain ⟨begun, ran, rfl⟩ := Option.map_eq_some_iff.mp run
  rw [parseMadtEntries, parseMadtEntries, length, address]
  refine scan_congr ran fun p member => ?_
  have alike : ∀ r ∈ roundReads t p.1 p.2, t' r = t r := fun r here =>
    same r (List.mem_flatMap.mpr ⟨p, member, here⟩)
  rw [roundReads] at alike
  obtain ⟨second, others⟩ := List.forall_mem_cons.mp alike
  have size : t'.entryLength p.1 = t.entryLength p.1 := by
    rw [Table.entryLength, Table.entryLength, second]
  refine ⟨size, ?_, fun sane => ?_⟩
  · rw [Table.sane, Table.sane, size, length]
  · rw [if_pos sane] at others
    obtain ⟨type, fields⟩ := List.forall_mem_cons.mp others
    exact parseEntry_congr type fields

end Determined

/-! ### Staying in the table -/

/-- The size of the struct that the entry is read as, when so many processors and I/O APICs come
before it; of the other entries the header is read. -/
def Table.structSize (o cpus ioapics : Nat) : Nat :=
  if t.entryType o = 0 then if cpus < madtMaxCpus then 8 else 2
  else if t.entryType o = 1 then if ioapics < maxIoapics then 12 else 2
  else if t.entryType o = 5 then 12
  else if t.entryType o = 9 then if cpus < madtMaxCpus then 16 else 2
  else 2

/-- **The structs are in the table**: wherever the length bytes lead over whole entries, there are
the two bytes of a header, and if they make a whole entry, the struct it is read as. -/
def StructsInside : Prop :=
  ∀ os o, Leads t.entryLength t.length 2 madtSize os o → o < t.length →
    o + 2 ≤ t.length ∧ (Records.Whole t.entryLength t.length 2 o →
      o + t.structSize o (t.cpusOf os).length (t.ioapicsOf os).length ≤ t.length)

theorem range'_lt_iff {a n stop : Nat} :
    (∀ r ∈ List.range' a (n + 1), r < stop) ↔ a + n < stop := by
  constructor
  · exact fun all => all _ (List.mem_range'_1.mpr ⟨by omega, by omega⟩)
  · intro last r here
    have := List.mem_range'_1.mp here
    omega

/-- The fields of a struct reach as far as the struct. -/
theorem fieldReads_lt_iff (o : Nat) (info : MadtInfo) {stop : Nat} (header : o + 2 ≤ stop) :
    (∀ r ∈ fieldReads t o info, r < stop) ↔
      o + t.structSize o info.cpus.length info.ioapics.length ≤ stop := by
  have unread : (∀ r ∈ ([] : List Nat), r < stop) ↔ o + 2 ≤ stop :=
    iff_of_true (List.forall_mem_nil _) header
  rw [fieldReads, Table.structSize]
  split_ifs with lapic room ioapic room override x2apic room
  · rw [range'_lt_iff]
    omega
  · exact unread
  · rw [List.forall_mem_cons, range'_lt_iff]
    omega
  · exact unread
  · rw [range'_lt_iff]
    omega
  · rw [range'_lt_iff]
    omega
  · exact unread
  · exact unread

/-- **A round stays in the table** exactly when the header and the struct are there. -/
theorem roundReads_lt_iff (o : Nat) (info : MadtInfo) :
    (∀ r ∈ roundReads t o info, r < t.length) ↔
      o + 2 ≤ t.length ∧ (Records.Whole t.entryLength t.length 2 o →
        o + t.structSize o info.cpus.length info.ioapics.length ≤ t.length) := by
  rw [roundReads, List.forall_mem_cons]
  by_cases sane : t.sane o = true
  · have whole := (sane_iff t o).mp sane
    have header : o + 2 ≤ t.length := (Nat.add_le_add_left whole.1 o).trans whole.2
    rw [if_pos sane, List.forall_mem_cons, fieldReads_lt_iff t o info header, forall_prop_of_true whole]
    omega
  · rw [if_neg sane, forall_prop_of_false (mt (sane_iff t o).mpr sane)]
    exact and_congr Iff.rfl (iff_of_true (List.forall_mem_nil _) trivial)

/-! What has been recorded when the loop comes to an entry depends on the entries before it. -/

section Recorded

variable {t} {os : List Nat} {info : MadtInfo} (nothing : info.cpus = [] ∧ info.ioapics = [])

include nothing

theorem cpus_lt_iff : (os.foldl (fun info o => parseEntry t o info) info).cpus.length < madtMaxCpus ↔
    (t.cpusOf os).length < madtMaxCpus := by
  have recorded := congrArg List.length (foldl_parseEntry_seen t os info)
  rw [nothing.1, List.length_map] at recorded
  rw [recorded]
  simp

theorem ioapics_lt_iff :
    (os.foldl (fun info o => parseEntry t o info) info).ioapics.length < maxIoapics ↔
      (t.ioapicsOf os).length < maxIoapics := by
  rw [foldl_parseEntry, nothing.2]
  simp

/-- An entry is read as the same struct. -/
theorem structSize_recorded (o : Nat) :
    t.structSize o (os.foldl (fun info o => parseEntry t o info) info).cpus.length
        (os.foldl (fun info o => parseEntry t o info) info).ioapics.length =
      t.structSize o (t.cpusOf os).length (t.ioapicsOf os).length := by
  simp only [Table.structSize, cpus_lt_iff nothing, ioapics_lt_iff nothing]

end Recorded

/-- **When `parse_madt_entries` stays in the table**: it ends, and its reads are inside exactly when
the structs are. -/
theorem parse_inside_iff : ∃ fuel reads, madtReads t fuel = some reads ∧
    ((∀ r ∈ reads, r < t.length) ↔ StructsInside t) := by
  obtain ⟨⟨visited, info⟩, fuel, parsed⟩ := parse_terminates t
  obtain ⟨begun, ran, -⟩ := rounds_of_scan parsed
  have run : madtRounds t fuel = some begun := ran
  have begins := mem_rounds_iff (sane_iff t) Nat.two_pos ran
  refine ⟨fuel, _, by rw [madtReads, run]; rfl, ?_⟩
  rw [List.forall_mem_flatMap]
  constructor
  · intro inside os o leads here
    have round := inside (o, _) ((begins _).mpr ⟨os, leads, here, rfl⟩)
    rw [roundReads_lt_iff, structSize_recorded ⟨rfl, rfl⟩] at round
    exact round
  · rintro inside ⟨o, found⟩ member
    obtain ⟨os, leads, here, rfl⟩ := (begins _).mp member
    rw [roundReads_lt_iff, structSize_recorded ⟨rfl, rfl⟩]
    exact inside os o leads here

/-! ### Whole entries -/

/-- An encoded entry has its struct. -/
theorem structSize_encoded {o : Nat} {e : MadtEntry} (holds : t.Holds o e.encode)
    (cpus ioapics : Nat) : t.structSize o cpus ioapics ≤ e.encode.length := by
  rw [Table.structSize, Table.entryType]
  cases e with
  | lapic acpiProcessorId apicId flags =>
    rw [holds.1, if_pos rfl]
    split
    · exact Nat.le_refl 8
    · exact two_le_encode _
  | ioapic id reserved address gsiBase =>
    rw [holds.1, if_neg (by decide), if_pos rfl]
    split
    · exact Nat.le_refl 12
    · exact two_le_encode _
  | lapicOverride reserved lapicAddr =>
    rw [holds.1, if_neg (by decide), if_neg (by decide), if_pos rfl]
    exact Nat.le_refl 12
  | x2apic reserved x2apicId flags acpiProcessorUid =>
    rw [holds.1, if_neg (by decide), if_neg (by decide), if_neg (by decide), if_pos rfl]
    split
    · exact Nat.le_refl 16
    · exact two_le_encode _
  | other type payload unread short =>
    obtain ⟨notLapic, notIoapic, notOverride, notX2apic⟩ := unread
    rw [holds.1, if_neg notLapic, if_neg notIoapic, if_neg notOverride, if_neg notX2apic]
    exact two_le_encode _

/-- **Tables of whole entries are read inside.** -/
theorem inside_of_encodes {entries : List MadtEntry} (encodes : Encodes t entries) :
    ∃ fuel reads, madtReads t fuel = some reads ∧ ∀ r ∈ reads, r < t.length := by
  have sizes : ∀ o (e : MadtEntry), t.Holds o e.encode → t.entryLength o = e.encode.length :=
    fun _ _ => entryLength_encoded
  obtain ⟨fuel, begun, ran, good⟩ := (lays_of_holds entries encodes.bytes).rounds
    (fun o => (sane_iff t o).mpr) sizes two_le_encode Nat.two_pos encodes.ends _
  have run : madtRounds t fuel = some begun := ran
  refine ⟨fuel, _, by rw [madtReads, run]; rfl, ?_⟩
  rw [List.forall_mem_flatMap]
  intro p member
  obtain ⟨whole, e, holds⟩ := good p member
  have size := structSize_encoded t holds p.2.cpus.length p.2.ioapics.length
  rw [← entryLength_encoded holds] at size
  rw [roundReads_lt_iff]
  exact ⟨(Nat.add_le_add_left whole.1 p.1).trans whole.2,
    fun _ => (Nat.add_le_add_left size p.1).trans whole.2⟩

/-! ### Short entries -/

/-- The table at an address. -/
def Table.ofMem (mem : Mem) (madt : Word) : Table := fun o => mem (madt + BitVec.ofNat 64 o)

/-- What is read of the MADT that `rsdt_find_table` returns, with its length. -/
def readsOf (found : Option Found) (mem : Mem) (fuel : Nat) : Option (Nat × List Nat) := do
  let table := Table.ofMem mem (← found).header
  let reads ← madtReads table fuel
  some (table.length, reads)

/-- A table of one byte more than its header, and one that ends with a processor entry of two bytes:
both are accepted, and both are read behind their end. -/
theorem parse_reads_behind :
    (findMadt demoRoot 0xE0000 ⟨wholeTables 45 0xB6 [0], 0, false⟩).map
      (fun r => readsOf r.2.2.1 r.2.2.2.2.mem 1) = .ok (some (45, [45])) ∧
    (findMadt demoRoot 0xE0000 ⟨wholeTables 46 0xB3 [0, 2], 0, false⟩).map
      (fun r => readsOf r.2.2.1 r.2.2.2.2.mem 2) =
        .ok (some (46, [45, 44, 46, 47, 48, 49, 50, 51])) := by
  constructor
  · decide +kernel
  · decide +kernel

end ShipOS
