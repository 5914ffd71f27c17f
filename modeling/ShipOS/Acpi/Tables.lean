/-
**The tables of the firmware (`acpi.c`, `rsdp.c`, `rsdt.c`).**

The RSDP is searched for in the BIOS area; it points to the root table (RSDT or XSDT), and the root
table to the others. Each is accepted by a checksum over the length that it states itself.

* `scanRsdp_first`, `initRsdt_ok`, `rsdtFindTable_ok` — what has been checked of an accepted structure;
* `initRsdt_stated`, `rsdtFindTable_stated` — its length is the one it stated before the call, if it
  lies outside the pages that the mapping functions write;
* `entries_fit_iff`, `entries_inside_iff` — the entries of a root table lie in it exactly when its
  length has room for the header, as the subtraction in `rsdt_get_entry_count` is unsigned;
* `acpi_covered_iff` — so a stated length of 36 is what the checks leave out;
* `acpi_empty_accepted` — an RSDP, a root table and a MADT of length 0, all accepted.
-/

import ShipOS.Paging.Mmio

namespace ShipOS

open ByteMem

/-! ### Checksums -/

/-- The loop of `acpi_checksum_ok`: the sum of the first bytes, modulo 256. -/
def byteSum (mem : Mem) (p : Word) : Nat → Byte
  | 0 => 0
  | i + 1 => byteSum mem p i + mem (p + BitVec.ofNat 64 i)

def acpiChecksumOk (mem : Mem) (p : Word) (len : BitVec 32) : Bool := byteSum mem p len.toNat = 0

/-- `memcmp` of the memory at `p` with given bytes. -/
def memcmp (mem : Mem) : Word → List Byte → Int
  | _, [] => 0
  | p, b :: bytes => if mem p ≠ b then (mem p).toNat - b.toNat else memcmp mem (p + 1) bytes

/-! ### The RSDP -/

/-- `r->Revision` of `struct RSDP_t`. -/
def rsdpRevision (mem : Mem) (r : Word) : Byte := mem (r + 15)

def rsdpRsdtAddress (mem : Mem) (r : Word) : BitVec 32 := load32 mem (r + 16)

/-- `((struct XSDP_t *) r)->Length`. -/
def xsdpLength (mem : Mem) (r : Word) : BitVec 32 := load32 mem (r + 20)

def xsdpXsdtAddress (mem : Mem) (r : Word) : Word := load64 mem (r + 24)

/-- `"RSD PTR "`. -/
def rsdpSignature : List Byte := [0x52, 0x53, 0x44, 0x20, 0x50, 0x54, 0x52, 0x20]

/-- `scan_rsdp` from `p` on; when `end` is in the last 16 bytes `p` may wrap around. -/
def scanRsdp (mem : Mem) (stop : Word) : Nat → Word → Except Halt Word
  | 0, _ => .error .diverges
  | fuel + 1, p =>
    if p < stop then
      if memcmp mem p rsdpSignature ≠ 0 then scanRsdp mem stop fuel (p + 16)
      else if ¬ acpiChecksumOk mem p 20 then scanRsdp mem stop fuel (p + 16)
      else if rsdpRevision mem p ≥ 2 ∧ ¬ acpiChecksumOk mem p (xsdpLength mem p) then
        scanRsdp mem stop fuel (p + 16)
      else .ok p
    else .ok 0

/-! ### The root table -/

/-- `sizeof(struct ACPISDTHeader)`, and of `struct XSDP_t`. -/
def headerSize : Nat := 36

/-- `header->Length` of `struct ACPISDTHeader`. -/
def headerLength (mem : Mem) (p : Word) : BitVec 32 := load32 mem (p + 4)

/-- Physical memory and the static storage of `rsdt.c`. -/
structure Acpi where
  phys : Phys
  rsdtRootPtr : Word
  extended : Bool

/-- `rsdt->header.Length` of the root table. -/
def Acpi.rootLength (a : Acpi) : Nat := (headerLength a.phys.mem a.rsdtRootPtr).toNat

/-- The table that `init_rsdt` goes on with: one larger than a page is mapped again. -/
def mapWhole (cr3 rsdtPhys headerMapped : Word) (tableLength : BitVec 32) (s : Phys) :
    Except Halt (Word × Phys) :=
  if tableLength.setWidth 64 > pgsize then mapMmio cr3 rsdtPhys (tableLength.setWidth 64) s
  else .ok (headerMapped, s)

/-- `init_rsdt`; with an accepted table comes the `table_length` of its checksum. -/
def initRsdt (cr3 rsdp : Word) (a : Acpi) : Except Halt (Option (BitVec 32) × Acpi) :=
  if rsdp = 0 then .ok (none, a)
  else do
    let isXsdtTable : Bool := rsdpRevision a.phys.mem rsdp ≥ 2
    let rsdtPhys :=
      if isXsdtTable then xsdpXsdtAddress a.phys.mem rsdp
      else (rsdpRsdtAddress a.phys.mem rsdp).setWidth 64
    let (headerMapped, s) ← mapMmio cr3 rsdtPhys pgsize a.phys
    if headerMapped = 0 then .ok (none, { a with phys := s })
    else
      let tableLength := headerLength s.mem headerMapped
      let (mapped, s) ← mapWhole cr3 rsdtPhys headerMapped tableLength s
      if mapped = 0 then .ok (none, { a with phys := s })
      else if ¬ acpiChecksumOk s.mem mapped tableLength then .ok (none, ⟨s, 0, false⟩)
      else .ok (some tableLength, ⟨s, mapped, isXsdtTable⟩)

def entrySize (extended : Bool) : Word := if extended then 8 else 4

/-- The difference is one of `size_t`, and the quotient is cut to 32 bits. -/
def rsdtGetEntryCount (a : Acpi) : BitVec 32 :=
  if a.rsdtRootPtr = 0 then 0
  else
    (((headerLength a.phys.mem a.rsdtRootPtr).setWidth 64 - BitVec.ofNat 64 headerSize) /
      entrySize a.extended).setWidth 32

/-- `PointerToOtherSDT[i]`. -/
def pointerToOtherSdt (mem : Mem) (root : Word) (extended : Bool) (i : Nat) : Word :=
  let p := root + BitVec.ofNat 64 headerSize + BitVec.ofNat 64 i * entrySize extended
  if extended then load64 mem p else (load32 mem p).setWidth 64

/-- A table that `rsdt_find_table` returns, and the `table_len` of its checksum. -/
structure Found where
  header : Word
  tableLen : BitVec 32
  deriving DecidableEq, Repr

/-- The body of the loop of `rsdt_find_table` for a `phys_addr`: `none` goes on, `some` is what it
returns. -/
def findAddress (cr3 : Word) (signature : List Byte) (physAddr : Word) (s : Phys) :
    Except Halt (Option (Option Found) × Phys) :=
  if physAddr = 0 ∨ physAddr < pgsize then .ok (none, s)
  else do
    let (header, s) ← mapMmio cr3 physAddr pgsize s
    if header = 0 then .ok (none, s)
    else if memcmp s.mem header signature = 0 then
      let tableLen := headerLength s.mem header
      let (mapped, s) ← mapMmio cr3 physAddr (tableLen.setWidth 64) s
      if mapped = 0 then .ok (some none, s)
      else if ¬ acpiChecksumOk s.mem mapped tableLen then .ok (some none, s)
      else .ok (some (some ⟨mapped, tableLen⟩), s)
    else .ok (none, s)

/-- The body of the loop, which reads its entry first. -/
def findEntry (cr3 root : Word) (extended : Bool) (signature : List Byte) (i : Nat) (s : Phys) :
    Except Halt (Option (Option Found) × Phys) :=
  findAddress cr3 signature (pointerToOtherSdt s.mem root extended i) s

/-- The loop, with the number of rounds left; it also returns the entries that it read. -/
def findLoop (cr3 root : Word) (extended : Bool) (signature : List Byte) :
    Nat → Nat → Phys → Except Halt (Option Found × List Nat × Phys)
  | 0, _, s => .ok (none, [], s)
  | rounds + 1, i, s => do
    match ← findEntry cr3 root extended signature i s with
    | (some found, s) => .ok (found, [i], s)
    | (none, s) =>
      let (found, read, s) ← findLoop cr3 root extended signature rounds (i + 1) s
      .ok (found, i :: read, s)

/-- `rsdt_find_table`, with the four bytes of the signature. -/
def rsdtFindTable (cr3 : Word) (signature : List Byte) (a : Acpi) :
    Except Halt (Option Found × List Nat × Phys) :=
  if a.rsdtRootPtr = 0 then .ok (none, [], a.phys)
  else
    findLoop cr3 a.rsdtRootPtr a.extended signature (rsdtGetEntryCount a).toNat 0 a.phys

/-! ### What has been checked -/

/-- The bytes at `r` pass the checks of `scan_rsdp`. -/
structure RsdpAt (mem : Mem) (r : Word) : Prop where
  signature : memcmp mem r rsdpSignature = 0
  checksum : acpiChecksumOk mem r 20 = true
  extended : rsdpRevision mem r ≥ 2 → acpiChecksumOk mem r (xsdpLength mem r) = true

/-- **The scan from `p` comes to an RSDP** after `k` rounds, the first that passes. -/
structure FirstRsdp (mem : Mem) (stop p : Word) (k : Nat) : Prop where
  reached : ∀ i ≤ k, p + BitVec.ofNat 64 (16 * i) < stop
  passes : RsdpAt mem (p + BitVec.ofNat 64 (16 * k))
  first : ∀ i < k, ¬ RsdpAt mem (p + BitVec.ofNat 64 (16 * i))

theorem scanRsdp_pass {mem : Mem} {stop p : Word} (before : p < stop) (passes : RsdpAt mem p)
    (fuel : Nat) : scanRsdp mem stop (fuel + 1) p = .ok p := by
  rw [scanRsdp, if_pos before, if_neg (not_not.mpr passes.signature),
    if_neg (not_not.mpr passes.checksum), if_neg fun both => both.2 (passes.extended both.1)]

theorem scanRsdp_next {mem : Mem} {stop p : Word} (before : p < stop) (fails : ¬ RsdpAt mem p)
    (fuel : Nat) : scanRsdp mem stop (fuel + 1) p = scanRsdp mem stop fuel (p + 16) := by
  rw [scanRsdp, if_pos before]
  split
  · rfl
  split
  · rfl
  split
  · rfl
  · rename_i signature checksum both
    refine absurd ⟨not_not.mp signature, not_not.mp checksum, fun new => ?_⟩ fails
    exact not_not.mp fun bad => both ⟨new, bad⟩

theorem scan_place (p : Word) (i : Nat) :
    p + 16 + BitVec.ofNat 64 (16 * i) = p + BitVec.ofNat 64 (16 * (i + 1)) := by
  rw [Nat.mul_succ, Nat.add_comm, BitVec.ofNat_add, BitVec.add_assoc]
  rfl

/-- **`scan_rsdp` returns the first RSDP that passes.** -/
theorem scanRsdp_first {mem : Mem} {stop r : Word} (found : r ≠ 0) : ∀ {fuel : Nat} {p : Word},
    scanRsdp mem stop fuel p = .ok r ↔
      ∃ k < fuel, FirstRsdp mem stop p k ∧ p + BitVec.ofNat 64 (16 * k) = r := by
  intro fuel
  induction fuel with
  | zero => exact fun {p} => iff_of_false nofun fun ⟨k, short, _⟩ => absurd short (Nat.not_lt_zero k)
  | succ fuel ih =>
    intro p
    have start : p + BitVec.ofNat 64 (16 * 0) = p := BitVec.add_zero p
    by_cases before : p < stop
    · by_cases passes : RsdpAt mem p
      · rw [scanRsdp_pass before passes, Except.ok.injEq]
        constructor
        · rintro rfl
          refine ⟨0, Nat.succ_pos fuel, ⟨fun i first => ?_, start.symm ▸ passes, nofun⟩, start⟩
          rw [Nat.le_zero.mp first, start]
          exact before
        · rintro ⟨k, -, here, rfl⟩
          cases k with
          | zero => exact start.symm
          | succ k => exact absurd (start.symm ▸ passes) (here.first 0 (Nat.succ_pos k))
      · rw [scanRsdp_next before passes, ih]
        constructor
        · rintro ⟨k, within, here, rfl⟩
          refine ⟨k + 1, Nat.succ_lt_succ within, ⟨fun i le => ?_, ?_, fun i lt => ?_⟩,
            (scan_place p k).symm⟩
          · cases i with
            | zero => rwa [start]
            | succ i => exact scan_place p i ▸ here.reached i (Nat.le_of_succ_le_succ le)
          · exact scan_place p k ▸ here.passes
          · cases i with
            | zero => rwa [start]
            | succ i => exact scan_place p i ▸ here.first i (Nat.lt_of_succ_lt_succ lt)
        · rintro ⟨k, within, here, rfl⟩
          cases k with
          | zero => exact absurd (start ▸ here.passes) passes
          | succ k =>
            refine ⟨k, Nat.lt_of_succ_lt_succ within, ⟨fun i le => ?_, ?_, fun i lt => ?_⟩,
              scan_place p k⟩
            · exact (scan_place p i).symm ▸ here.reached (i + 1) (Nat.succ_le_succ le)
            · exact (scan_place p k).symm ▸ here.passes
            · exact (scan_place p i).symm ▸ here.first (i + 1) (Nat.succ_lt_succ lt)
    · rw [scanRsdp, if_neg before]
      refine iff_of_false (fun zero => found (Except.ok.inj zero).symm) ?_
      rintro ⟨k, -, here, -⟩
      exact before (start ▸ here.reached 0 (Nat.zero_le k))

/-- A table of a page at most stays where its header was mapped. -/
theorem mapWhole_small {cr3 rsdtPhys headerMapped : Word} {tableLength : BitVec 32} {s : Phys}
    (small : tableLength.toNat ≤ 4096) :
    mapWhole cr3 rsdtPhys headerMapped tableLength s = .ok (headerMapped, s) := by
  rw [mapWhole, if_neg]
  rw [gt_iff_lt, BitVec.lt_def, BitVec.toNat_setWidth, Nat.mod_eq_of_lt (by omega)]
  exact Nat.not_lt.mpr small

/-- **A root table that is accepted** has the checksum of its stated length. -/
theorem initRsdt_ok {cr3 rsdp : Word} {a b : Acpi} {len : BitVec 32}
    (done : initRsdt cr3 rsdp a = .ok (some len, b)) :
    b.rsdtRootPtr ≠ 0 ∧ acpiChecksumOk b.phys.mem b.rsdtRootPtr len = true ∧
      (len.toNat ≤ 4096 → b.rootLength = len.toNat) := by
  rw [initRsdt] at done
  split at done
  · cases done
  obtain ⟨⟨headerMapped, s⟩, -, done⟩ := bind_ok done
  dsimp only at done
  split at done
  · cases done
  obtain ⟨⟨mapped, s'⟩, again, done⟩ := bind_ok done
  dsimp only at done
  split at done
  · cases done
  split at done
  · cases done
  · rename_i nonNull checksum
    cases done
    refine ⟨nonNull, not_not.mp checksum, fun small => ?_⟩
    cases (mapWhole_small small).symm.trans again
    rfl

theorem findAddress_ok {cr3 physAddr : Word} {signature : List Byte} {s t : Phys} {found : Found}
    (done : findAddress cr3 signature physAddr s = .ok (some (some found), t)) :
    acpiChecksumOk t.mem found.header found.tableLen = true := by
  rw [findAddress] at done
  split at done
  · cases done
  obtain ⟨⟨header, s₁⟩, -, done⟩ := bind_ok done
  dsimp only at done
  split at done
  · cases done
  split at done
  · obtain ⟨⟨mapped, s₂⟩, -, done⟩ := bind_ok done
    dsimp only at done
    split at done
    · cases done
    split at done
    · cases done
    · rename_i checksum
      cases done
      exact not_not.mp checksum
  · cases done

/-- The rounds of the loop: what it returns has been checked, and it read entries of the table from
the first one on. -/
theorem findLoop_ok {cr3 root : Word} {extended : Bool} {signature : List Byte} {t : Phys}
    {found : Option Found} {read : List Nat} :
    ∀ {rounds i : Nat} {s : Phys},
      findLoop cr3 root extended signature rounds i s = .ok (found, read, t) →
        (∀ f ∈ found, acpiChecksumOk t.mem f.header f.tableLen = true) ∧
          (∀ j ∈ read, j < i + rounds) ∧ (0 < rounds → i ∈ read) := by
  intro rounds
  induction rounds generalizing read with
  | zero =>
    intro i s done
    cases done
    exact ⟨fun _ null => absurd null (Option.not_mem_none _), List.forall_mem_nil _,
      fun rounds => absurd rounds (Nat.lt_irrefl 0)⟩
  | succ rounds ih =>
    intro i s done
    obtain ⟨⟨result, s₁⟩, entry, done⟩ := bind_ok done
    cases result with
    | some result =>
      cases done
      refine ⟨?_, ?_, fun _ => List.mem_singleton_self i⟩
      · rintro f rfl
        exact findAddress_ok entry
      · intro j here
        rw [List.mem_singleton.mp here]
        omega
    | none =>
      obtain ⟨⟨found', read', s₂⟩, others, done⟩ := bind_ok done
      cases done
      obtain ⟨checked, within, -⟩ := ih others
      refine ⟨checked, ?_, fun _ => List.mem_cons_self⟩
      intro j here
      rcases List.mem_cons.mp here with rfl | later
      · omega
      · have := within j later
        omega

theorem rsdtFindTable_ok {cr3 : Word} {signature : List Byte} {a : Acpi} {t : Phys}
    {found : Option Found} {read : List Nat}
    (done : rsdtFindTable cr3 signature a = .ok (found, read, t)) :
    (∀ f ∈ found, acpiChecksumOk t.mem f.header f.tableLen = true) ∧
      (∀ i ∈ read, i < (rsdtGetEntryCount a).toNat) ∧
      (0 < (rsdtGetEntryCount a).toNat → 0 ∈ read) := by
  rw [rsdtFindTable] at done
  split at done
  · rename_i null
    cases done
    rw [rsdtGetEntryCount, if_pos null]
    exact ⟨fun _ null => absurd null (Option.not_mem_none _), List.forall_mem_nil _,
      fun rounds => absurd rounds (Nat.lt_irrefl 0)⟩
  · have result := findLoop_ok done
    rwa [Nat.zero_add] at result

/-! ### Stated lengths -/

/-- `n` bytes in no table and in no free page. -/
def ForeignRange (mem : Mem) (root : Word) (free : List Word) (p : Word) (n : Nat) : Prop :=
  ∀ i < n, Foreign mem root free (p + BitVec.ofNat 64 i)

section Kept

variable {L : Bounds} {cr3 : Word} {s u : Phys} {free free' : List Word}

theorem Framed.byte (framed : Framed L cr3 s free u free') {p : Word} {n i : Nat}
    (foreign : ForeignRange s.mem cr3 free p n) (inside : i < n) :
    u.mem (p + BitVec.ofNat 64 i) = s.mem (p + BitVec.ofNat 64 i) :=
  framed.frame _ (foreign i inside)

/-- Words within foreign bytes. -/
theorem Framed.readLE_eq (framed : Framed L cr3 s free u free') {p : Word} {n o k : Nat}
    (foreign : ForeignRange s.mem cr3 free p n) (inside : o + k ≤ n) :
    readLE u.mem (p + BitVec.ofNat 64 o) k = readLE s.mem (p + BitVec.ofNat 64 o) k := by
  refine readLE_congr fun i small => ?_
  rw [BitVec.add_assoc, ← BitVec.ofNat_add]
  exact framed.byte foreign (by omega)

theorem Framed.headerLength_eq (framed : Framed L cr3 s free u free') {p : Word} {n : Nat}
    (foreign : ForeignRange s.mem cr3 free p n)
    (header : headerSize ≤ n) : headerLength u.mem p = headerLength s.mem p :=
  congrArg (BitVec.ofNat 32) (framed.readLE_eq (o := 4) foreign (le_trans (by decide) header))

/-- One round keeps the frame. -/
theorem findAddress_framed {u t : Phys} {free' : List Word} (framed : Framed L cr3 s free u free')
    {signature : List Byte} {physAddr : Word} {result : Option (Option Found)}
    (done : findAddress cr3 signature physAddr u = .ok (result, t)) :
    ∃ free'', Framed L cr3 s free t free'' := by
  rw [findAddress] at done
  split at done
  · cases done
    exact ⟨free', framed⟩
  obtain ⟨⟨header, u₁⟩, run, done⟩ := bind_ok done
  obtain ⟨free₁, first⟩ := mapMmio_framed framed.tables run
  dsimp only at done
  split at done
  · cases done
    exact ⟨free₁, framed.trans first⟩
  split at done
  · obtain ⟨⟨mapped, u₂⟩, run', done⟩ := bind_ok done
    obtain ⟨free₂, second⟩ := mapMmio_framed first.tables run'
    have whole := (framed.trans first).trans second
    dsimp only at done
    split at done
    · cases done
      exact ⟨free₂, whole⟩
    split at done
    · cases done
      exact ⟨free₂, whole⟩
    · cases done
      exact ⟨free₂, whole⟩
  · cases done
    exact ⟨free₁, framed.trans first⟩

/-- A call of `map_mmio` that returns an address returns its argument. -/
theorem mapMmio_same (tree : PageTree L s cr3 free) {pa size r : Word} {t : Phys}
    (done : mapMmio cr3 pa size s = .ok (r, t)) (nonNull : r ≠ 0) : r = pa := by
  obtain ⟨r', t', -, run, -, effect⟩ := mapMmio_spec tree pa size
  cases done.symm.trans run
  exact (effect nonNull).1

/-- The length of a table that a round returns is the one stated before. -/
theorem findAddress_stated (tree : PageTree L s cr3 free) (framed : Framed L cr3 s free u free')
    {signature : List Byte} {physAddr : Word} {found : Found} {t : Phys}
    (done : findAddress cr3 signature physAddr u = .ok (some (some found), t))
    (foreign : ForeignRange s.mem cr3 free found.header headerSize) :
    found.tableLen = headerLength s.mem found.header := by
  rw [findAddress] at done
  split at done
  · cases done
  obtain ⟨⟨header, u₁⟩, run, done⟩ := bind_ok done
  obtain ⟨free₁, first⟩ := mapMmio_framed framed.tables run
  dsimp only at done
  split at done
  · cases done
  · rename_i nonNull
    have same := mapMmio_same (tree.grown framed.toGrown) run nonNull
    split at done
    · obtain ⟨⟨again, u₂⟩, run', done⟩ := bind_ok done
      dsimp only at done
      split at done
      · cases done
      · rename_i nonNull'
        have same' := mapMmio_same ((tree.grown framed.toGrown).grown first.toGrown) run' nonNull'
        split at done
        · cases done
        · cases done
          subst same same'
          exact (framed.trans first).headerLength_eq foreign le_rfl
    · cases done

theorem findLoop_stated (tree : PageTree L s cr3 free) {root : Word} {extended : Bool}
    {signature : List Byte} {t : Phys} {found : Option Found} {read : List Nat} :
    ∀ {rounds i : Nat} {u : Phys} {free' : List Word}, Framed L cr3 s free u free' →
      findLoop cr3 root extended signature rounds i u = .ok (found, read, t) →
        ∀ f ∈ found, ForeignRange s.mem cr3 free f.header headerSize →
          f.tableLen = headerLength s.mem f.header := by
  intro rounds
  induction rounds generalizing read with
  | zero =>
    intro i u free' _ done
    cases done
    exact fun _ null => absurd null (Option.not_mem_none _)
  | succ rounds ih =>
    intro i u free' framed done
    obtain ⟨⟨result, u₁⟩, entry, done⟩ := bind_ok done
    cases result with
    | some result =>
      cases done
      rintro f rfl
      exact findAddress_stated tree framed entry
    | none =>
      obtain ⟨free₁, framed₁⟩ := findAddress_framed framed entry
      obtain ⟨⟨found', read', u₂⟩, others, done⟩ := bind_ok done
      cases done
      exact ih framed₁ others

/-- **The length of a table that is found** is the one it stated before the call. -/
theorem rsdtFindTable_stated {a : Acpi} (tree : PageTree L a.phys cr3 free) {signature : List Byte}
    {t : Phys} {found : Option Found} {read : List Nat}
    (done : rsdtFindTable cr3 signature a = .ok (found, read, t)) :
    ∀ f ∈ found, ForeignRange a.phys.mem cr3 free f.header headerSize →
      f.tableLen = headerLength a.phys.mem f.header := by
  rw [rsdtFindTable] at done
  split at done
  · cases done
    exact fun _ null => absurd null (Option.not_mem_none _)
  · exact findLoop_stated tree (Framed.refl tree.toTables) done

/-- The address of the root table, as the RSDP has it. -/
def rootAddress (mem : Mem) (rsdp : Word) : Word :=
  if decide (rsdpRevision mem rsdp ≥ 2) then xsdpXsdtAddress mem rsdp
  else (rsdpRsdtAddress mem rsdp).setWidth 64

/-- **The length of a root table that is accepted** is the one it stated before the call. -/
theorem initRsdt_stated {a b : Acpi} (tree : PageTree L a.phys cr3 free) {rsdp : Word}
    {len : BitVec 32} (done : initRsdt cr3 rsdp a = .ok (some len, b))
    (foreign : ForeignRange a.phys.mem cr3 free (rootAddress a.phys.mem rsdp) headerSize) :
    len = headerLength a.phys.mem (rootAddress a.phys.mem rsdp) ∧ b.rootLength = len.toNat := by
  rw [initRsdt] at done
  split at done
  · cases done
  obtain ⟨⟨headerMapped, s⟩, run, done⟩ := bind_ok done
  obtain ⟨free₁, first⟩ := mapMmio_framed tree.toTables run
  dsimp only at done
  split at done
  · cases done
  rename_i nonNull
  have same : headerMapped = rootAddress a.phys.mem rsdp := mapMmio_same tree run nonNull
  have stated := first.headerLength_eq foreign le_rfl
  obtain ⟨⟨again, s'⟩, whole, done⟩ := bind_ok done
  dsimp only at done
  split at done
  · cases done
  rename_i nonNull'
  split at done
  · cases done
  cases done
  rw [same] at whole ⊢
  rw [stated] at whole ⊢
  refine ⟨rfl, congrArg BitVec.toNat ?_⟩
  -- A large table is mapped once more, and its header is read again.
  rw [mapWhole] at whole
  split at whole
  · obtain ⟨free₂, second⟩ := mapMmio_framed first.tables whole
    have same' : again = rootAddress a.phys.mem rsdp :=
      mapMmio_same (tree.grown first.toGrown) whole nonNull'
    rw [same']
    exact (first.trans second).headerLength_eq foreign le_rfl
  · cases whole
    exact stated

end Kept

/-! ### The entries of the root table -/

theorem entrySize_toNat (extended : Bool) :
    (entrySize extended).toNat = 4 ∨ (entrySize extended).toNat = 8 := by
  cases extended
  · exact .inl rfl
  · exact .inr rfl

section Root

variable {a : Acpi} (set : a.rsdtRootPtr ≠ 0)

include set

theorem entryCount_toNat : (rsdtGetEntryCount a).toNat =
    (2 ^ 64 - headerSize + a.rootLength) % 2 ^ 64 / (entrySize a.extended).toNat % 2 ^ 32 := by
  rw [rsdtGetEntryCount, if_neg set, BitVec.toNat_setWidth, BitVec.toNat_udiv, BitVec.toNat_sub,
    BitVec.toNat_setWidth, Nat.mod_eq_of_lt (a := (headerLength _ _).toNat) (by omega)]
  rfl

/-- **The entries of the root table lie in it** exactly when its length has room for the header: a
shorter one leaves almost `2 ^ 32` of them. -/
theorem entries_fit_iff :
    headerSize + (rsdtGetEntryCount a).toNat * (entrySize a.extended).toNat ≤ a.rootLength ↔
      headerSize ≤ a.rootLength := by
  have bound : a.rootLength < 2 ^ 32 := BitVec.isLt _
  rw [entryCount_toNat set, headerSize]
  rcases entrySize_toNat a.extended with size | size
  · rw [size]
    omega
  · rw [size]
    omega

theorem entryCount_pos (short : a.rootLength < headerSize) : 0 < (rsdtGetEntryCount a).toNat := by
  rw [entryCount_toNat set]
  rw [headerSize] at short ⊢
  rcases entrySize_toNat a.extended with size | size
  · rw [size]
    omega
  · rw [size]
    omega

/-- **The entries that `rsdt_find_table` reads.** -/
theorem entries_inside_iff {cr3 : Word} {signature : List Byte} {t : Phys} {found : Option Found}
    {read : List Nat} (done : rsdtFindTable cr3 signature a = .ok (found, read, t)) :
    (∀ i ∈ read, headerSize + (i + 1) * (entrySize a.extended).toNat ≤ a.rootLength) ↔
      headerSize ≤ a.rootLength := by
  obtain ⟨-, within, first⟩ := rsdtFindTable_ok done
  constructor
  · intro inside
    by_contra short
    rw [Nat.not_le] at short
    have start := inside 0 (first (entryCount_pos set short))
    omega
  · intro long i here
    have fit := (entries_fit_iff set).mpr long
    have scaled : (i + 1) * (entrySize a.extended).toNat ≤
        (rsdtGetEntryCount a).toNat * (entrySize a.extended).toNat :=
      Nat.mul_le_mul_right _ (within i here)
    omega

end Root

/-! ### Coverage -/

/-- The checksum of a structure covers its header. -/
def HeaderCovered (mem : Mem) (p : Word) (len : BitVec 32) : Prop :=
  acpiChecksumOk mem p len = true ∧ headerSize ≤ len.toNat

/-- `36 + rsdt_get_entry_count() * entry_size <= Length`. -/
def Acpi.EntriesFit (a : Acpi) : Prop :=
  headerSize + (rsdtGetEntryCount a).toNat * (entrySize a.extended).toNat ≤ a.rootLength

/-- **When accepted structures are covered.** The RSDP: exactly when the first one in memory that passes
states a length of 36 at least. The root table, with its entries, and a table that is found: exactly
when they state such a length, before the call if their headers are outside the pages that the mapping
functions write; and so for the entries that are read. -/
theorem acpi_covered_iff (mem : Mem) (cr3 : Word) (a : Acpi) :
    (∀ stop p, (∀ fuel r, scanRsdp mem stop fuel p = .ok r → r ≠ 0 → rsdpRevision mem r ≥ 2 →
        HeaderCovered mem r (xsdpLength mem r)) ↔
      ∀ k r, FirstRsdp mem stop p k → p + BitVec.ofNat 64 (16 * k) = r → r ≠ 0 →
        rsdpRevision mem r ≥ 2 → headerSize ≤ (xsdpLength mem r).toNat) ∧
    (∀ rsdp b len, initRsdt cr3 rsdp a = .ok (some len, b) →
      (HeaderCovered b.phys.mem b.rsdtRootPtr len ↔ headerSize ≤ len.toNat) ∧
      (b.EntriesFit ↔ headerSize ≤ b.rootLength) ∧ (len.toNat ≤ 4096 → b.rootLength = len.toNat) ∧
      ∀ L free, PageTree L a.phys cr3 free →
        ForeignRange a.phys.mem cr3 free (rootAddress a.phys.mem rsdp) headerSize →
          (HeaderCovered b.phys.mem b.rsdtRootPtr len ∧ b.EntriesFit ↔
            headerSize ≤ (headerLength a.phys.mem (rootAddress a.phys.mem rsdp)).toNat)) ∧
    ∀ signature found read t, rsdtFindTable cr3 signature a = .ok (found, read, t) →
      (∀ f ∈ found, (HeaderCovered t.mem f.header f.tableLen ↔ headerSize ≤ f.tableLen.toNat) ∧
        ∀ L free, PageTree L a.phys cr3 free → ForeignRange a.phys.mem cr3 free f.header headerSize →
          (HeaderCovered t.mem f.header f.tableLen ↔
            headerSize ≤ (headerLength a.phys.mem f.header).toNat)) ∧
      (a.rsdtRootPtr ≠ 0 →
        ((∀ i ∈ read, headerSize + (i + 1) * (entrySize a.extended).toNat ≤ a.rootLength) ↔
          headerSize ≤ a.rootLength)) := by
  refine ⟨fun stop p => ⟨?_, ?_⟩, ?_, ?_⟩
  · intro covered k r first place found new
    have returned := (scanRsdp_first found).mpr ⟨k, Nat.lt_succ_self k, first, place⟩
    exact (covered (k + 1) r returned found new).2
  · intro long fuel r done found new
    obtain ⟨k, -, first, place⟩ := (scanRsdp_first found).mp done
    exact ⟨(place ▸ first.passes).extended new, long k r first place found new⟩
  · intro rsdp b len done
    obtain ⟨set, checked, stated⟩ := initRsdt_ok done
    refine ⟨and_iff_right checked, entries_fit_iff set, stated, fun L free tree foreign => ?_⟩
    obtain ⟨before, root⟩ := initRsdt_stated tree done foreign
    rw [HeaderCovered, Acpi.EntriesFit, entries_fit_iff set, root, ← before]
    exact ⟨And.right, fun long => ⟨⟨checked, long⟩, long⟩⟩
  · intro signature found read t done
    obtain ⟨checked, -⟩ := rsdtFindTable_ok done
    refine ⟨fun f here => ⟨and_iff_right (checked f here), fun L free tree foreign => ?_⟩,
      fun set => entries_inside_iff set done⟩
    rw [← rsdtFindTable_stated tree done f here foreign]
    exact and_iff_right (checked f here)

/-- `"APIC"`. -/
def madtSignature : List Byte := [0x41, 0x50, 0x49, 0x43]

/-- `init_rsdt(rsdp)` and then `rsdt_find_table("APIC")`. -/
def findMadt (cr3 rsdp : Word) (a : Acpi) :
    Except Halt (Option (BitVec 32) × Acpi × Option Found × List Nat × Phys) := do
  let (len, a) ← initRsdt cr3 rsdp a
  let (found, read, s) ← rsdtFindTable cr3 madtSignature a
  .ok (len, a, found, read, s)

/-- Memory with given bytes at `p`. -/
def putBytes (mem : Mem) (p : Word) (bytes : List Byte) : Mem := fun x =>
  bytes.getD (x - p).toNat (mem x)

/-- An RSDP of revision 2 at `0xE0000`, with its length and `ExtendedChecksum`, that points to
`0x300000`. -/
def putRsdp (mem : Mem) (length extendedChecksum : Byte) : Mem :=
  putBytes mem 0xE0000 (rsdpSignature ++ [0xDF, 0, 0, 0, 0, 0, 0, 2, 0, 0, 0, 0, length, 0, 0, 0,
    0, 0, 0x30, 0, 0, 0, 0, 0, extendedChecksum, 0, 0, 0])

/-- The header of a table, with its signature, length and checksum. -/
def sdtHeader (signature : List Byte) (length checksum : Byte) : List Byte :=
  signature ++ [length, 0, 0, 0, 0, checksum] ++ List.replicate 26 0

/-- `"XSDT"`. -/
def xsdtSignature : List Byte := [0x58, 0x53, 0x44, 0x54]

/-- An XSDT at `0x300000` with one entry, a table at `0x301000`. -/
def putXsdt (mem : Mem) (length checksum : Byte) : Mem :=
  putBytes mem 0x300000 (sdtHeader xsdtSignature length checksum ++ [0, 0x10, 0x30, 0, 0, 0, 0, 0])

/-- A whole RSDP and XSDT, and a MADT with its length, checksum and entries. -/
def wholeTables (length checksum : Byte) (entries : List Byte) : Phys where
  mem := putBytes (putXsdt (putRsdp demoPhys.mem 36 0xAC) 44 0x51) 0x301000
    (sdtHeader madtSignature length checksum ++ List.replicate 8 0 ++ entries)
  freelist := demoPhys.freelist

/-- A MADT of no entries. -/
def noEntries : Phys := wholeTables 44 0xB7 []

/-- The three tables with every stated length 0. -/
def emptyTables : Phys where
  mem := putBytes (putXsdt (putRsdp demoPhys.mem 0 0) 0 0) 0x301000 (sdtHeader madtSignature 0 0)
  freelist := demoPhys.freelist

/-- The walk through whole tables. -/
theorem acpi_covered_whole :
    scanRsdp noEntries.mem 0x100000 1 0xE0000 = .ok 0xE0000 ∧
    HeaderCovered noEntries.mem 0xE0000 36 ∧
    ∃ b t, initRsdt demoRoot 0xE0000 ⟨noEntries, 0, false⟩ = .ok (some 44, b) ∧
      HeaderCovered b.phys.mem b.rsdtRootPtr 44 ∧ b.EntriesFit ∧
      rsdtFindTable demoRoot madtSignature b = .ok (some ⟨0x301000, 44⟩, [0], t) ∧
      HeaderCovered t.mem 0x301000 44 := by
  obtain ⟨rsdp, root, -⟩ := acpi_covered_iff noEntries.mem demoRoot ⟨noEntries, 0, false⟩
  have scanned : scanRsdp noEntries.mem 0x100000 1 0xE0000 = .ok 0xE0000 := by decide +kernel
  have walked : (findMadt demoRoot 0xE0000 ⟨noEntries, 0, false⟩).map (fun r => (r.1, r.2.2.2.1,
      r.2.2.1)) = .ok (some 44, [0], some ⟨0x301000, 44⟩) := by decide +kernel
  have length : xsdpLength noEntries.mem 0xE0000 = 36 := by decide +kernel
  refine ⟨scanned, ?_, ?_⟩
  · have first : ∀ k r, FirstRsdp noEntries.mem 0x100000 0xE0000 k →
        0xE0000 + BitVec.ofNat 64 (16 * k) = r → r ≠ 0 → rsdpRevision noEntries.mem r ≥ 2 →
          headerSize ≤ (xsdpLength noEntries.mem r).toNat := by
      rintro k r here rfl - -
      obtain ⟨k', one, passes, -⟩ := (scanRsdp_first (by decide)).mp scanned
      obtain rfl : k' = 0 := Nat.lt_one_iff.mp one
      obtain rfl | later := Nat.eq_zero_or_pos k
      · rw [show (0xE0000 : Word) + BitVec.ofNat 64 (16 * 0) = 0xE0000 from rfl, length]
        decide
      · exact absurd passes.passes (here.first 0 later)
    have covered := (rsdp _ _).mpr first _ _ scanned (by decide) (by decide +kernel)
    rwa [length] at covered
  · cases ran : findMadt demoRoot 0xE0000 ⟨noEntries, 0, false⟩ with
    | error halt =>
      rw [ran] at walked
      cases walked
    | ok result =>
    rw [ran] at walked
    obtain ⟨⟨len, b⟩, accepted, ran⟩ := bind_ok ran
    obtain ⟨⟨found, read, t⟩, searched, last⟩ := bind_ok ran
    cases last
    cases walked
    obtain ⟨covered, fit, stated, -⟩ := root _ _ _ accepted
    refine ⟨b, t, accepted, covered.mpr (by decide), fit.mpr ?_, searched, ?_⟩
    · rw [stated (by decide)]
      decide
    · obtain ⟨-, -, table⟩ := acpi_covered_iff noEntries.mem demoRoot b
      exact ((table _ _ _ _ searched).1 _ rfl).1.mpr (by decide)

/-- **Stated lengths of 0**: a checksum of no bytes is right, so the RSDP, the root table and the
MADT are all accepted; the root table is taken to have almost `2 ^ 32` entries, and the first is read
from behind its end. -/
theorem acpi_empty_accepted :
    scanRsdp emptyTables.mem 0x100000 1 0xE0000 = .ok 0xE0000 ∧
    rsdpRevision emptyTables.mem 0xE0000 = 2 ∧ xsdpLength emptyTables.mem 0xE0000 = 0 ∧
    (findMadt demoRoot 0xE0000 ⟨emptyTables, 0, false⟩).map
      (fun r => (r.1, r.2.1.rootLength, rsdtGetEntryCount r.2.1, r.2.2.1, r.2.2.2.1)) =
        .ok (some 0, 0, 0xFFFFFFFB, some ⟨0x301000, 0⟩, [0]) := by
  refine ⟨?_, ?_, ?_, ?_⟩
  · decide +kernel
  · decide +kernel
  · decide +kernel
  · decide +kernel

end ShipOS
