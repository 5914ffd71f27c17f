/-
**Looking up a table in an RSDT and in an XSDT (`rsdt.c`).**

`rsdt_find_table` reads the entries of the root table one after another, and maps each table that
they point to. The page table changes as it goes, and mapping can fail at any entry.

* `findAll` — the loop over a list of addresses in place of the entries of a root table;
* `findLoop_list` — the loop over the entries is the loop over the list they hold, as the bytes of
  the root table stay as they are (`Framed`);
* `firstTable` — the abstract search: the first candidate of the list, if it is whole;
* `findAll_first` — the loop over the list is that search;
* `lookups_agree` — so both root tables give the same result;
* `lookups_differ` — not so for a root table on a page of the page table.
-/

import Mathlib.Data.List.GetD
import ShipOS.Acpi.Tables
import ShipOS.Paging.Frame

namespace ShipOS

open ByteMem

/-! ### The loop over a list -/

/-- The loop over addresses, the first of which has the index `i`. -/
def findAll (cr3 : Word) (signature : List Byte) :
    List Word → Nat → Phys → Except Halt (Option Found × List Nat × Phys)
  | [], _, s => .ok (none, [], s)
  | physAddr :: rest, i, s => do
    match ← findAddress cr3 signature physAddr s with
    | (some found, s) => .ok (found, [i], s)
    | (none, s) =>
      let (found, read, s) ← findAll cr3 signature rest (i + 1) s
      .ok (found, i :: read, s)

/-- The address of an entry. -/
theorem entry_address (root : Word) (extended : Bool) (i : Nat) :
    root + BitVec.ofNat 64 headerSize + BitVec.ofNat 64 i * entrySize extended =
      root + BitVec.ofNat 64 (headerSize + i * (entrySize extended).toNat) := by
  rw [BitVec.ofNat_add, BitVec.ofNat_mul, BitVec.ofNat_toNat, BitVec.setWidth_eq, BitVec.add_assoc]

/-! ### Bytes that stay -/

theorem memcmp_congr {m m' : Mem} : ∀ {bytes : List Byte} {p : Word},
    (∀ i < bytes.length, m' (p + BitVec.ofNat 64 i) = m (p + BitVec.ofNat 64 i)) →
      memcmp m' p bytes = memcmp m p bytes := by
  intro bytes
  induction bytes with
  | nil => exact fun _ => rfl
  | cons b bytes ih =>
    intro p same
    have first := same 0 (Nat.succ_pos _)
    rw [BitVec.add_zero] at first
    rw [memcmp, memcmp, first, ih fun i inside => ?_]
    have next := same (i + 1) (Nat.succ_lt_succ inside)
    rwa [Nat.add_comm, BitVec.ofNat_add, ← BitVec.add_assoc] at next

theorem byteSum_congr {m m' : Mem} {p : Word} : ∀ {n : Nat},
    (∀ i < n, m' (p + BitVec.ofNat 64 i) = m (p + BitVec.ofNat 64 i)) →
      byteSum m' p n = byteSum m p n := by
  intro n
  induction n with
  | zero => exact fun _ => rfl
  | succ n ih =>
    intro same
    rw [byteSum, byteSum, same n (Nat.lt_succ_self n), ih fun i early => same i (by omega)]

theorem Framed.pointer_eq {L : Bounds} {cr3 : Word} {s u : Phys} {free free' : List Word}
    (framed : Framed L cr3 s free u free') {root : Word} {extended : Bool} {n i : Nat}
    (foreign : ForeignRange s.mem cr3 free root (headerSize + n * (entrySize extended).toNat))
    (inside : i < n) :
    pointerToOtherSdt u.mem root extended i = pointerToOtherSdt s.mem root extended i := by
  have scaled : (i + 1) * (entrySize extended).toNat ≤ n * (entrySize extended).toNat :=
    Nat.mul_le_mul_right _ inside
  rw [pointerToOtherSdt, pointerToOtherSdt, entry_address]
  cases extended with
  | false =>
    have kept := framed.readLE_eq (o := headerSize + i * 4) (k := 4) foreign (by
      rw [show (entrySize false).toNat = 4 from rfl] at scaled ⊢
      omega)
    exact congrArg (fun v => (BitVec.ofNat 32 v).setWidth 64) kept
  | true =>
    have kept := framed.readLE_eq (o := headerSize + i * 8) (k := 8) foreign (by
      rw [show (entrySize true).toNat = 8 from rfl] at scaled ⊢
      omega)
    exact congrArg (BitVec.ofNat 64) kept

/-! ### The entries of a root table -/

/-- The root table at `root` holds the addresses: as many entries as its length has room for. -/
structure HoldsEntries (mem : Mem) (root : Word) (extended : Bool) (addrs : List Word) : Prop where
  length : (headerLength mem root).toNat = headerSize + addrs.length * (entrySize extended).toNat
  entry : ∀ i (inside : i < addrs.length), pointerToOtherSdt mem root extended i = addrs[i]

theorem HoldsEntries.count {s : Phys} {root : Word} {extended : Bool} {addrs : List Word}
    (holds : HoldsEntries s.mem root extended addrs) (set : root ≠ 0) :
    (rsdtGetEntryCount ⟨s, root, extended⟩).toNat = addrs.length := by
  have bound := (headerLength s.mem root).isLt
  have length := holds.length
  rw [entryCount_toNat (a := ⟨s, root, extended⟩) set, Acpi.rootLength]
  dsimp only
  rw [length] at bound ⊢
  rw [headerSize] at bound ⊢
  rcases entrySize_toNat extended with size | size
  · rw [size] at bound ⊢
    omega
  · rw [size] at bound ⊢
    omega

section Loop

variable {L : Bounds} {cr3 : Word} {s : Phys} {free : List Word}

/-- **The loop over the entries is the loop over the list they hold.** -/
theorem findLoop_list {root : Word} {extended : Bool} {signature : List Byte} {n : Nat}
    (foreign : ForeignRange s.mem cr3 free root (headerSize + n * (entrySize extended).toNat)) :
    ∀ (rest : List Word) (i : Nat) (u : Phys) (free' : List Word), Framed L cr3 s free u free' →
      i + rest.length ≤ n →
      (∀ j (inside : j < rest.length),
        pointerToOtherSdt s.mem root extended (i + j) = rest[j]) →
      findLoop cr3 root extended signature rest.length i u = findAll cr3 signature rest i u := by
  intro rest
  induction rest with
  | nil => exact fun _ _ _ _ _ _ => rfl
  | cons physAddr rest ih =>
    intro i u free' framed within entries
    rw [List.length_cons] at within
    have here : pointerToOtherSdt u.mem root extended i = physAddr := by
      rw [framed.pointer_eq foreign (by omega)]
      exact entries 0 (Nat.succ_pos _)
    have later : ∀ j (inside : j < rest.length),
        pointerToOtherSdt s.mem root extended (i + 1 + j) = rest[j] := by
      intro j inside
      have entry := entries (j + 1) (Nat.succ_lt_succ inside)
      rwa [← Nat.add_assoc, Nat.add_right_comm] at entry
    rw [List.length_cons, findLoop, findAll, findEntry, here]
    cases round : findAddress cr3 signature physAddr u with
    | error halt => rfl
    | ok result =>
      obtain ⟨result, t⟩ := result
      cases result with
      | some found => rfl
      | none =>
        obtain ⟨free'', next⟩ := findAddress_framed framed round
        show (findLoop cr3 root extended signature rest.length (i + 1) t >>= _) =
          (findAll cr3 signature rest (i + 1) t >>= _)
        rw [ih (i + 1) t free'' next (by omega) later]

theorem rsdtFindTable_list (tree : PageTree L s cr3 free) {root : Word} {extended : Bool}
    {addrs : List Word} (signature : List Byte) (set : root ≠ 0)
    (holds : HoldsEntries s.mem root extended addrs)
    (foreign : ForeignRange s.mem cr3 free root
      (headerSize + addrs.length * (entrySize extended).toNat)) :
    rsdtFindTable cr3 signature ⟨s, root, extended⟩ = findAll cr3 signature addrs 0 s := by
  rw [rsdtFindTable, if_neg set, holds.count set]
  refine findLoop_list foreign addrs 0 s free (Framed.refl tree.toTables) (by omega) ?_
  intro j inside
  rw [Nat.zero_add]
  exact holds.entry j inside

end Loop

/-! ### The abstract search -/

/-- `map_mmio` returns the address. -/
def canMap (cr3 pa size : Word) (s : Phys) : Bool :=
  match mapMmio cr3 pa size s with
  | .ok (r, _) => r ≠ 0
  | .error _ => false

/-- The page-table state behind an address of the list: those from `PGSIZE` on have been tried. -/
def passed (cr3 : Word) (s : Phys) (addr : Word) : Phys :=
  if addr < pgsize then s
  else
    match mapMmio cr3 addr pgsize s with
    | .ok (_, t) => t
    | .error _ => s

/-- The address is `PGSIZE` at least, can be mapped, and carries the signature. -/
def Candidate (cr3 : Word) (signature : List Byte) (tables : Mem) (s : Phys) (addr : Word) : Prop :=
  pgsize ≤ addr ∧ canMap cr3 addr pgsize s = true ∧ memcmp tables addr signature = 0

instance (cr3 : Word) (signature : List Byte) (tables : Mem) (s : Phys) (addr : Word) :
    Decidable (Candidate cr3 signature tables s addr) :=
  inferInstanceAs (Decidable (_ ∧ _ ∧ _))

/-- The table can be mapped in full and passes its checksum. -/
def Whole (cr3 : Word) (tables : Mem) (s : Phys) (addr : Word) : Prop :=
  canMap cr3 addr ((headerLength tables addr).setWidth 64) s = true ∧
    acpiChecksumOk tables addr (headerLength tables addr) = true

instance (cr3 : Word) (tables : Mem) (s : Phys) (addr : Word) :
    Decidable (Whole cr3 tables s addr) :=
  inferInstanceAs (Decidable (_ ∧ _))

/-- **The first candidate of the list, if it is whole.** The bytes of the tables are `tables`; the
page-table state goes on from address to address. -/
def firstTable (cr3 : Word) (signature : List Byte) (tables : Mem) : List Word → Phys → Option Word
  | [], _ => none
  | addr :: rest, s =>
    if Candidate cr3 signature tables s addr then
      if Whole cr3 tables (passed cr3 s addr) addr then some addr else none
    else firstTable cr3 signature tables rest (passed cr3 s addr)

/-- The header and the bytes of a table that is listed. -/
def tableBytes (mem : Mem) (addr : Word) : Nat := max headerSize (headerLength mem addr).toNat

section Search

variable {L : Bounds} {cr3 : Word} {s : Phys} {free : List Word} (tree : PageTree L s cr3 free)

include tree

/-- A call of `map_mmio` on the way: it returns null or the address, and the frame goes on. -/
theorem mapMmio_step {u : Phys} {free' : List Word} (framed : Framed L cr3 s free u free')
    (pa size : Word) :
    ∃ r t free'', mapMmio cr3 pa size u = .ok (r, t) ∧ Framed L cr3 s free t free'' ∧
      (r ≠ 0 → r = pa) := by
  obtain ⟨r, t, -, run, -, effect⟩ := mapMmio_spec (tree.grown framed.toGrown) pa size
  obtain ⟨free'', next⟩ := mapMmio_framed framed.tables run
  exact ⟨r, t, free'', run, framed.trans next, fun returned => (effect returned).1⟩

/-- **One round**: an address that is no candidate is passed, the first candidate decides. -/
theorem findAddress_spec {u : Phys} {free' : List Word} (framed : Framed L cr3 s free u free')
    {signature : List Byte} (four : signature.length = 4) {addr : Word}
    (foreign : pgsize ≤ addr → ForeignRange s.mem cr3 free addr (tableBytes s.mem addr)) :
    (¬ Candidate cr3 signature s.mem u addr ∧
        findAddress cr3 signature addr u = .ok (none, passed cr3 u addr) ∧
        ∃ free'', Framed L cr3 s free (passed cr3 u addr) free'') ∨
      (Candidate cr3 signature s.mem u addr ∧
        ∃ t, findAddress cr3 signature addr u = .ok (some
          (if Whole cr3 s.mem (passed cr3 u addr) addr then some ⟨addr, headerLength s.mem addr⟩
            else none), t)) := by
  by_cases low : addr < pgsize
  · have stays : passed cr3 u addr = u := if_pos low
    rw [stays]
    refine Or.inl ⟨fun candidate => ?_, if_pos (Or.inr low), free', framed⟩
    exact absurd low (BitVec.not_lt.mpr candidate.1)
  have high : pgsize ≤ addr := BitVec.not_lt.mp low
  have bytes := foreign high
  have large : ¬ (addr = 0 ∨ addr < pgsize) := by
    rintro (rfl | below)
    · exact absurd high (by decide)
    · exact low below
  obtain ⟨r, t, free₁, run, framed₁, returns⟩ := mapMmio_step tree framed addr pgsize
  have moved : passed cr3 u addr = t := by rw [passed, if_neg low, run]
  have can : canMap cr3 addr pgsize u = decide (r ≠ 0) := by rw [canMap, run]
  rw [moved, Candidate, can, decide_eq_true_iff, findAddress, if_neg large, run]
  by_cases null : r = 0
  · refine Or.inl ⟨fun candidate => candidate.2.1 null, ?_, free₁, framed₁⟩
    exact if_pos null
  · cases returns null
    -- What the code compares in the memory it has by now are the bytes there were.
    have compared : memcmp t.mem addr signature = memcmp s.mem addr signature := by
      refine memcmp_congr fun i inside => framed₁.byte bytes ?_
      rw [tableBytes, lt_max_iff, headerSize]
      omega
    have length : headerLength t.mem addr = headerLength s.mem addr :=
      framed₁.headerLength_eq bytes (le_max_left _ _)
    by_cases carries : memcmp s.mem addr signature = 0
    · refine Or.inr ⟨⟨high, null, carries⟩, ?_⟩
      obtain ⟨r', t', free₂, run', framed₂, returns'⟩ := mapMmio_step tree framed₁ addr
        ((headerLength s.mem addr).setWidth 64)
      have full : canMap cr3 addr ((headerLength s.mem addr).setWidth 64) t =
          decide (r' ≠ 0) := by rw [canMap, run']
      have summed : acpiChecksumOk t'.mem addr (headerLength s.mem addr) =
          acpiChecksumOk s.mem addr (headerLength s.mem addr) := by
        rw [acpiChecksumOk, acpiChecksumOk, byteSum_congr fun i inside => framed₂.byte bytes ?_]
        rw [tableBytes, lt_max_iff]
        exact Or.inr inside
      refine ⟨t', (if_neg null).trans ((if_pos (compared.trans carries)).trans ?_)⟩
      have whole : Whole cr3 s.mem t addr ↔
          r' ≠ 0 ∧ acpiChecksumOk s.mem addr (headerLength s.mem addr) = true := by
        rw [Whole, full, decide_eq_true_iff]
      rw [length]
      dsimp only
      rw [run']
      by_cases null' : r' = 0
      · rw [if_neg fun both => (whole.mp both).1 null']
        exact if_pos null'
      · cases returns' null'
        refine (if_neg null').trans ?_
        dsimp only
        rw [summed]
        by_cases right : acpiChecksumOk s.mem addr (headerLength s.mem addr) = true
        · rw [if_neg (not_not.mpr right), if_pos (whole.mpr ⟨null', right⟩)]
        · rw [if_pos right, if_neg fun both => right (whole.mp both).2]
    · refine Or.inl ⟨fun candidate => carries candidate.2.2, ?_, free₁, framed₁⟩
      exact (if_neg null).trans (if_neg fun same => carries (compared.symm.trans same))

/-- **The loop over the list is the abstract search.** -/
theorem findAll_first {signature : List Byte} (four : signature.length = 4) :
    ∀ (addrs : List Word) (i : Nat) (u : Phys) (free' : List Word), Framed L cr3 s free u free' →
      (∀ addr ∈ addrs, pgsize ≤ addr →
        ForeignRange s.mem cr3 free addr (tableBytes s.mem addr)) →
      ∃ read t, findAll cr3 signature addrs i u =
        .ok ((firstTable cr3 signature s.mem addrs u).map fun addr =>
          ⟨addr, headerLength s.mem addr⟩, read, t) := by
  intro addrs
  induction addrs with
  | nil => exact fun _ u _ _ _ => ⟨[], u, rfl⟩
  | cons addr rest ih =>
    intro i u free' framed foreign
    obtain ⟨here, later⟩ := List.forall_mem_cons.mp foreign
    rw [firstTable, findAll]
    rcases findAddress_spec tree framed four here with
      ⟨other, round, free'', next⟩ | ⟨candidate, t, round⟩
    · obtain ⟨read, t, rest⟩ := ih (i + 1) (passed cr3 u addr) free'' next later
      rw [if_neg other, round]
      refine ⟨i :: read, t, ?_⟩
      show (findAll cr3 signature _ (i + 1) (passed cr3 u addr) >>= _) = _
      rw [rest]
      rfl
    · rw [if_pos candidate, round]
      refine ⟨[i], t, ?_⟩
      split
      · rfl
      · rfl

end Search

/-! ### Both root tables -/

/-- An RSDT that holds the addresses as 32-bit entries. -/
structure RsdtHolds (mem : Mem) (rsdt : Word) (addrs : List (BitVec 32)) : Prop where
  length : (headerLength mem rsdt).toNat = headerSize + addrs.length * 4
  entry : ∀ i (inside : i < addrs.length),
    load32 mem (rsdt + BitVec.ofNat 64 (headerSize + i * 4)) = addrs[i]

/-- An XSDT that holds the addresses as 64-bit entries. -/
structure XsdtHolds (mem : Mem) (xsdt : Word) (addrs : List (BitVec 32)) : Prop where
  length : (headerLength mem xsdt).toNat = headerSize + addrs.length * 8
  entry : ∀ i (inside : i < addrs.length),
    load64 mem (xsdt + BitVec.ofNat 64 (headerSize + i * 8)) = addrs[i].setWidth 64

theorem RsdtHolds.entries {mem : Mem} {rsdt : Word} {addrs : List (BitVec 32)}
    (holds : RsdtHolds mem rsdt addrs) :
    HoldsEntries mem rsdt false (addrs.map (BitVec.setWidth 64)) := by
  refine ⟨by rw [List.length_map]; exact holds.length, fun i inside => ?_⟩
  rw [List.length_map] at inside
  rw [pointerToOtherSdt, entry_address, List.getElem_map, ← holds.entry i inside]
  rfl

theorem XsdtHolds.entries {mem : Mem} {xsdt : Word} {addrs : List (BitVec 32)}
    (holds : XsdtHolds mem xsdt addrs) :
    HoldsEntries mem xsdt true (addrs.map (BitVec.setWidth 64)) := by
  refine ⟨by rw [List.length_map]; exact holds.length, fun i inside => ?_⟩
  rw [List.length_map] at inside
  rw [pointerToOtherSdt, entry_address, List.getElem_map, ← holds.entry i inside]
  rfl

/-- **RSDT and XSDT lookups agree.** The root tables hold the same addresses; the bytes of all tables
are in no free page and in no page of the page table. Both lookups give the same result, and the
table found is the first candidate of the list, if it is whole. -/
theorem lookups_agree {L : Bounds} {cr3 : Word} {s : Phys} {free : List Word}
    (tree : PageTree L s cr3 free) (addrs : List (BitVec 32)) {signature : List Byte}
    (four : signature.length = 4) {rsdt xsdt : Word} (rsdtSet : rsdt ≠ 0) (xsdtSet : xsdt ≠ 0)
    (rsdtHolds : RsdtHolds s.mem rsdt addrs) (xsdtHolds : XsdtHolds s.mem xsdt addrs)
    (rsdtForeign : ForeignRange s.mem cr3 free rsdt (headerSize + addrs.length * 4))
    (xsdtForeign : ForeignRange s.mem cr3 free xsdt (headerSize + addrs.length * 8))
    (foreign : ∀ addr ∈ addrs.map (BitVec.setWidth 64), pgsize ≤ addr →
      ForeignRange s.mem cr3 free addr (tableBytes s.mem addr)) :
    rsdtFindTable cr3 signature ⟨s, rsdt, false⟩ = rsdtFindTable cr3 signature ⟨s, xsdt, true⟩ ∧
      ∃ read t, rsdtFindTable cr3 signature ⟨s, rsdt, false⟩ =
        .ok ((firstTable cr3 signature s.mem (addrs.map (BitVec.setWidth 64)) s).map fun addr =>
          ⟨addr, headerLength s.mem addr⟩, read, t) := by
  have first := rsdtFindTable_list tree signature rsdtSet rsdtHolds.entries (by
    rw [List.length_map]
    exact rsdtForeign)
  have second := rsdtFindTable_list tree signature xsdtSet xsdtHolds.entries (by
    rw [List.length_map]
    exact xsdtForeign)
  refine ⟨first.trans second.symm, ?_⟩
  rw [first]
  exact findAll_first tree four _ 0 s free (Framed.refl tree.toTables) foreign

theorem putBytes_off {mem : Mem} {p x : Word} {bytes : List Byte}
    (off : x.toNat < p.toNat ∨ p.toNat + bytes.length ≤ x.toNat)
    (fits : p.toNat + bytes.length ≤ 2 ^ 64) : putBytes mem p bytes x = mem x := by
  rw [putBytes, List.getD_eq_default]
  bv_omega

/-- `"RSDT"`. -/
def rsdtSignature : List Byte := [0x52, 0x53, 0x44, 0x54]

/-- A MADT at `0x301000`, and an XSDT and an RSDT at `0x302000` that list first an address where
there is no table. -/
def rootsWith (xsdt : Word) : Phys where
  mem := putBytes (putBytes (putBytes demoPhys.mem xsdt
      (sdtHeader xsdtSignature 52 0xE9 ++ [0, 0x30, 0x30, 0, 0, 0, 0, 0, 0, 0x10, 0x30, 0, 0, 0, 0, 0]))
    0x301000 (sdtHeader madtSignature 44 0xB7 ++ List.replicate 8 0))
    0x302000 (sdtHeader rsdtSignature 44 0xF7 ++ [0, 0x30, 0x30, 0, 0, 0x10, 0x30, 0])
  freelist := demoPhys.freelist

/-- The free pages. -/
def rootsFree : List Word := [0x200000, 0x201000, 0x202000]

/-- The XSDT at `0x300000`. -/
def bothRoots : Phys := rootsWith 0x300000

/-- Memory below all these tables. -/
theorem bothRoots_low {x : Word} (low : x.toNat < 0x300000) : bothRoots.mem x = demoPhys.mem x := by
  have below : x.toNat < (0x300000 : Word).toNat := low
  rw [bothRoots, rootsWith]
  dsimp only
  rw [putBytes_off (.inl (below.trans (by decide))) (by decide),
    putBytes_off (.inl (below.trans (by decide))) (by decide), putBytes_off (.inl below) (by decide)]

theorem bothRoots_empty (i : Fin 512) : childTable bothRoots.mem demoRoot i = none := by
  -- The tables lie above the root of the page table.
  refine (childTable_congr ?_).trans (demoPhys_empty i)
  refine congrArg (BitVec.ofNat 64) (readLE_congr fun k small => bothRoots_low ?_)
  have inside := i.isLt
  rw [slot, demoRoot]
  bv_omega

/-- What is read of the memory, evaluated. -/
theorem bothRoots_values :
    Linked.Spine (load64 bothRoots.mem) 0 bothRoots.freelist rootsFree ∧
      headerLength bothRoots.mem 0x300000 = 52 ∧ headerLength bothRoots.mem 0x301000 = 44 ∧
      headerLength bothRoots.mem 0x302000 = 44 ∧ headerLength bothRoots.mem 0x303000 = 0 ∧
      (load64 bothRoots.mem 0x300024 = 0x303000 ∧ load64 bothRoots.mem 0x30002C = 0x301000) ∧
      (load32 bothRoots.mem 0x302024 = 0x303000 ∧ load32 bothRoots.mem 0x302028 = 0x301000) ∧
      firstTable demoRoot madtSignature bothRoots.mem [0x303000, 0x301000] bothRoots =
        some 0x301000 := by
  decide +kernel

theorem bothRoots_tree : PageTree demoLayout bothRoots demoRoot rootsFree :=
  pageTree_of_empty ⟨bothRoots_values.1, demoPhys_list.nodup, demoPhys_list.page⟩ (by decide)
    (by decide) (by decide) bothRoots_empty

/-- Bytes above the free pages. -/
theorem bothRoots_foreign {p : Word} {n : Nat} (low : 0x203000 ≤ p.toNat)
    (high : p.toNat + n < 2 ^ 63) : ForeignRange bothRoots.mem demoRoot rootsFree p n := by
  intro i inside
  refine ⟨fun q t _ found => ?_, ?_⟩
  · rw [(tableAt_of_empty bothRoots_empty found).2, demoRoot]
    bv_omega
  · unfold rootsFree
    rw [List.forall_mem_cons, List.forall_mem_cons, List.forall_mem_singleton]
    refine ⟨?_, ?_, ?_⟩
    · bv_omega
    · bv_omega
    · bv_omega

/-- The MADT through both, behind an address that is passed. -/
theorem lookups_agree_madt :
    ∃ read t, rsdtFindTable demoRoot madtSignature ⟨bothRoots, 0x302000, false⟩ =
        .ok (some ⟨0x301000, 44⟩, read, t) ∧
      rsdtFindTable demoRoot madtSignature ⟨bothRoots, 0x300000, true⟩ =
        .ok (some ⟨0x301000, 44⟩, read, t) := by
  obtain ⟨-, xsdtLength, length, rsdtLength, noLength, ⟨xsdtFirst, xsdtSecond⟩,
    ⟨rsdtFirst, rsdtSecond⟩, found⟩ := bothRoots_values
  have rsdtHolds : RsdtHolds bothRoots.mem 0x302000 [0x303000, 0x301000] := by
    refine ⟨by rw [rsdtLength]; rfl, fun i inside => ?_⟩
    match i, inside with
    | 0, _ => exact rsdtFirst
    | 1, _ => exact rsdtSecond
  have xsdtHolds : XsdtHolds bothRoots.mem 0x300000 [0x303000, 0x301000] := by
    refine ⟨by rw [xsdtLength]; rfl, fun i inside => ?_⟩
    match i, inside with
    | 0, _ => exact xsdtFirst
    | 1, _ => exact xsdtSecond
  have size : tableBytes bothRoots.mem 0x301000 = 44 := by rw [tableBytes, length]; rfl
  have noSize : tableBytes bothRoots.mem 0x303000 = 36 := by rw [tableBytes, noLength]; rfl
  obtain ⟨agree, read, t, result⟩ := lookups_agree bothRoots_tree [0x303000, 0x301000]
    (show madtSignature.length = 4 from rfl) (by decide) (by decide) rsdtHolds xsdtHolds
    (bothRoots_foreign (by decide) (by decide)) (bothRoots_foreign (by decide) (by decide))
    (by
      refine List.forall_mem_cons.mpr ⟨fun _ => ?_, List.forall_mem_singleton.mpr fun _ => ?_⟩
      · show ForeignRange _ _ _ 0x303000 (tableBytes _ 0x303000)
        rw [noSize]
        exact bothRoots_foreign (by decide) (by decide)
      · show ForeignRange _ _ _ 0x301000 (tableBytes _ 0x301000)
        rw [size]
        exact bothRoots_foreign (by decide) (by decide))
  have value : rsdtFindTable demoRoot madtSignature ⟨bothRoots, 0x302000, false⟩ =
      .ok (some ⟨0x301000, 44⟩, read, t) := by
    refine result.trans ?_
    show Except.ok
      ((firstTable demoRoot madtSignature bothRoots.mem [0x303000, 0x301000] bothRoots).map _, _) = _
    rw [found, Option.map_some, length]
  exact ⟨read, t, value, agree.symm.trans value⟩

/-! ### A root table on a page of the page table -/

/-- The XSDT ends on the page of the root of the page table: its second entry is slot 0, absent as
long as it is an address. -/
def overlappingRoots : Phys := rootsWith 0x10FFD4

theorem overlappingRoots_slots (i : Fin 512) (later : i.val ≠ 0) :
    load64 overlappingRoots.mem (slot demoRoot i.val) = load64 demoPhys.mem (slot demoRoot i.val) := by
  refine congrArg (BitVec.ofNat 64) (readLE_congr fun k small => ?_)
  have inside := i.isLt
  have place : (slot demoRoot i.val + BitVec.ofNat 64 k).toNat = 0x110000 + 8 * i.val + k := by
    rw [slot, demoRoot]
    bv_omega
  have below : (slot demoRoot i.val + BitVec.ofNat 64 k).toNat < (0x301000 : Word).toNat := by
    change _ < 0x301000
    omega
  have behind : (0x10FFD4 : Word).toNat + 52 ≤ (slot demoRoot i.val + BitVec.ofNat 64 k).toNat := by
    change 0x10FFD4 + 52 ≤ _
    omega
  rw [overlappingRoots, rootsWith]
  dsimp only
  rw [putBytes_off (.inl (below.trans (by decide))) (by decide),
    putBytes_off (.inl below) (by decide), putBytes_off (.inr behind) (by decide)]

/-- What is read of the memory, evaluated. -/
theorem overlappingRoots_values :
    Linked.Spine (load64 overlappingRoots.mem) 0 overlappingRoots.freelist rootsFree ∧
      headerLength overlappingRoots.mem 0x10FFD4 = 52 ∧
      headerLength overlappingRoots.mem 0x302000 = 44 ∧
      (load64 overlappingRoots.mem 0x10FFF8 = 0x303000 ∧
        load64 overlappingRoots.mem 0x110000 = 0x301000) ∧
      (load32 overlappingRoots.mem 0x302024 = 0x303000 ∧
        load32 overlappingRoots.mem 0x302028 = 0x301000) ∧
      childTable overlappingRoots.mem demoRoot 0 = none := by
  decide +kernel

theorem overlappingRoots_empty (i : Fin 512) :
    childTable overlappingRoots.mem demoRoot i = none := by
  by_cases first : i.val = 0
  · obtain ⟨-, -, -, -, -, absent⟩ := overlappingRoots_values
    obtain rfl : i = 0 := Fin.ext first
    exact absent
  · exact (childTable_congr (overlappingRoots_slots i first)).trans (demoPhys_empty i)

/-- **The lookups differ**: mapping the first address makes a table for slot 0, and the XSDT then
lists the entry of that table in place of the MADT. No byte of a table is in a free page. -/
theorem lookups_differ :
    PageTree demoLayout overlappingRoots demoRoot rootsFree ∧
      RsdtHolds overlappingRoots.mem 0x302000 [0x303000, 0x301000] ∧
      XsdtHolds overlappingRoots.mem 0x10FFD4 [0x303000, 0x301000] ∧
      (∀ page ∈ rootsFree, Apart page 4096 0x10FFD4 52 ∧ Apart page 4096 0x301000 44 ∧
        Apart page 4096 0x302000 44 ∧ Apart page 4096 0x303000 36) ∧
      (rsdtFindTable demoRoot madtSignature ⟨overlappingRoots, 0x302000, false⟩).map
        (fun r => r.1) = .ok (some ⟨0x301000, 44⟩) ∧
      (rsdtFindTable demoRoot madtSignature ⟨overlappingRoots, 0x10FFD4, true⟩).map
        (fun r => r.1) = .ok none := by
  obtain ⟨spine, xsdtLength, rsdtLength, ⟨xsdtFirst, xsdtSecond⟩, ⟨rsdtFirst, rsdtSecond⟩, -⟩ :=
    overlappingRoots_values
  refine ⟨?_, ?_, ?_, ?_, ?_, ?_⟩
  · exact pageTree_of_empty ⟨spine, demoPhys_list.nodup, demoPhys_list.page⟩ (by decide)
      (by decide) (by decide) overlappingRoots_empty
  · refine ⟨by rw [rsdtLength]; rfl, fun i inside => ?_⟩
    match i, inside with
    | 0, _ => exact rsdtFirst
    | 1, _ => exact rsdtSecond
  · refine ⟨by rw [xsdtLength]; rfl, fun i inside => ?_⟩
    match i, inside with
    | 0, _ => exact xsdtFirst
    | 1, _ => exact xsdtSecond
  · unfold rootsFree Apart
    rw [List.forall_mem_cons, List.forall_mem_cons, List.forall_mem_singleton]
    bv_omega
  · decide +kernel
  · decide +kernel

end ShipOS
