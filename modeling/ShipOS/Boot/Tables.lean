/-
**The boot-time page tables (`page_tables_setup` of `boot.asm`).**

The four tables lie one after another in `.bss`, which the loader clears. The first entry of each
points to the next, the entries of the last to the frames of the first 2 MB.

* `BootTables L mem root init` — what the kernel relies on: a tree of tables inside the kernel image
  whose entries are present and writable for the supervisor, and that maps `[0, init)` to itself;
* `pageTablesSetup_bootTables` — the assembly code leaves such tables for `INIT_PHYSTOP`.
-/

import ShipOS.Lib.ByteMem
import ShipOS.Paging.Mmu

namespace ShipOS

open ByteMem PathTree

/-! ### The code -/

/-- The loop `.map_p1_table`, with the counter `ecx`. -/
def mapP1Table (p1Table : BitVec 32) : Nat → BitVec 32 → Mem → Except Halt Mem
  | 0, _, _ => .error .diverges
  | fuel + 1, ecx, mem =>
    let eax := 0x1000 * ecx
    let eax := eax ||| 0b11
    let mem := store32 mem ((p1Table + ecx * 8).setWidth 64) eax
    let ecx := ecx + 1
    if ecx.slt 512 then mapP1Table p1Table fuel ecx mem else .ok mem

/-- `page_tables_setup`, up to the load of `cr3`, with the addresses of the four labels. -/
def pageTablesSetup (p4Table p3Table p2Table p1Table : BitVec 32) (mem : Mem) : Except Halt Mem :=
  let mem := store32 mem (p4Table.setWidth 64) (p3Table ||| 0b11)
  let mem := store32 mem (p3Table.setWidth 64) (p2Table ||| 0b11)
  let mem := store32 mem (p2Table.setWidth 64) (p1Table ||| 0b11)
  mapP1Table p1Table (2 ^ 32) 0 mem

/-! ### What the kernel relies on -/

/-- An entry that leads to a table: writable, for the supervisor. -/
def KernelTable (entry : PageEntry) : Prop := entry.rw = true ∧ entry.us = false

/-- **Boot-time tables** that map `[0, init)` to itself. -/
structure BootTables (L : Bounds) (mem : Mem) (root init : Word) : Prop where
  aligned : PageAligned root
  unique : UniqueTo (childTable mem) root 3
  image : ∀ q : List (Fin 512), ∀ t, q.length ≤ 3 → tableAt mem root q = some t →
    kstart.toNat ≤ t.toNat ∧ t.toNat + 4096 ≤ L.kend.toNat
  upper : UpperEntries KernelTable root mem
  identity : ∀ a : Word, a.toNat < init.toNat → ∃ entry, mapped mem root (vpn a) = some entry ∧
    entry.address.toNat = a.toNat / 4096 ∧ entry.rw = true

variable {L : Bounds} {mem : Mem} {root init : Word} {s : Phys} {free : List Word}

/-- No table of the image is a page of the allocator. -/
theorem BootTables.not_page (boot : BootTables L mem root init) {q : List (Fin 512)} {t : Word}
    (within : q.length ≤ 3) (found : tableAt mem root q = some t) : ¬ IsPage L t := by
  intro page
  have inside := (boot.image q t within found).2
  have := page.low
  omega

theorem BootTables.pageTree (boot : BootTables L s.mem root init) (list : FreeList L s free) :
    PageTree L s root free := by
  refine ⟨⟨list, boot.aligned, boot.unique, fun q t within found member => ?_⟩, ?_⟩
  · exact boot.not_page within found (list.page t member)
  · rintro q t within found rfl
    exact absurd (boot.image q 0 within found).1 (by decide)

/-- The tables are the same where the entries are. -/
theorem BootTables.congr {mem' : Mem} (boot : BootTables L mem root init)
    (same : SameEntries root mem mem') : BootTables L mem' root init := by
  refine ⟨boot.aligned, ?_, ?_, ?_, ?_⟩
  · intro p q a shortP shortQ first second
    exact boot.unique p q a shortP shortQ ((same.tableAt shortP).symm.trans first)
      ((same.tableAt shortQ).symm.trans second)
  · exact fun q t within found => boot.image q t within ((same.tableAt within).symm.trans found)
  · intro q a i short found set
    have old := (same.tableAt short.le).symm.trans found
    have entry := same q a i short.le old
    rw [childTable_congr entry] at set
    rw [entry]
    exact boot.upper q a i short old set
  · rw [same.mapped]
    exact boot.identity

/-! ### The tables in memory -/

/-- The kernel image before `page_tables_setup`: four cleared pages in `.bss`, one after another. -/
structure BootImage (L : Bounds) (p4Table : BitVec 32) (mem : Mem) : Prop where
  aligned : p4Table.toNat % 4096 = 0
  low : kstart.toNat ≤ p4Table.toNat
  high : p4Table.toNat + 4 * 4096 ≤ L.kend.toNat
  width : p4Table.toNat + 4 * 4096 ≤ 2 ^ 32
  clear : Dwords mem (p4Table.setWidth 64) 4096 fun _ => 0

/-- The table of depth `d`. -/
def bootTable (p4Table : BitVec 32) (d : Nat) : BitVec 32 := p4Table + BitVec.ofNat 32 (4096 * d)

/-- The low half of the `j`-th entry of the table of depth `d`. -/
def bootEntry (p4Table : BitVec 32) (d j : Nat) : BitVec 32 :=
  if d < 3 then if j = 0 then bootTable p4Table (d + 1) ||| 0b11 else 0
  else 0x1000 * BitVec.ofNat 32 j ||| 0b11

section Setup

variable {p4Table : BitVec 32}

theorem bootTable_toNat (width : p4Table.toNat + 4 * 4096 ≤ 2 ^ 32) {d : Nat} (deep : d < 4) :
    (bootTable p4Table d).toNat = p4Table.toNat + 4096 * d := by
  rw [bootTable, BitVec.toNat_add, BitVec.toNat_ofNat]
  omega

/-- The `j`-th entry of the table of depth `d`, as an index into the four pages. -/
theorem boot_slot (width : p4Table.toNat + 4 * 4096 ≤ 2 ^ 32) {d : Nat} (deep : d < 4) (j : Nat) :
    slot ((bootTable p4Table d).setWidth 64) j =
      p4Table.setWidth 64 + BitVec.ofNat 64 (4 * (1024 * d + 2 * j)) := by
  apply BitVec.eq_of_toNat_eq
  rw [slot, BitVec.toNat_add, BitVec.toNat_add, BitVec.toNat_setWidth, BitVec.toNat_setWidth,
    bootTable_toNat width deep, BitVec.toNat_ofNat, BitVec.toNat_ofNat]
  omega

/-- One round of the loop. -/
theorem p1_address (width : p4Table.toNat + 4 * 4096 ≤ 2 ^ 32) {i : Nat} (hi : i < 512) :
    (bootTable p4Table 3 + BitVec.ofNat 32 i * 8).setWidth 64 =
      p4Table.setWidth 64 + BitVec.ofNat 64 (4 * (3072 + 2 * i)) := by
  have eight : (8 : BitVec 32).toNat = 8 := rfl
  apply BitVec.eq_of_toNat_eq
  rw [BitVec.toNat_setWidth, BitVec.toNat_add, BitVec.toNat_mul, BitVec.toNat_add,
    BitVec.toNat_setWidth, bootTable_toNat width (by omega), BitVec.toNat_ofNat,
    BitVec.toNat_ofNat, eight]
  omega

/-- The 32-bit words of the four pages, the entries of the last table from `i` on set. -/
def fillP1 (p4Table : BitVec 32) (i : Nat) (f : Nat → BitVec 32) (k : Nat) : BitVec 32 :=
  if 3072 + 2 * i ≤ k ∧ k % 2 = 0 then bootEntry p4Table 3 ((k - 3072) / 2) else f k

theorem fillP1_succ (f : Nat → BitVec 32) (i : Nat) :
    fillP1 p4Table (i + 1) (Function.update f (3072 + 2 * i) (bootEntry p4Table 3 i)) =
      fillP1 p4Table i f := by
  funext k
  by_cases here : k = 3072 + 2 * i
  · have number : (k - 3072) / 2 = i := by omega
    rw [fillP1, fillP1, if_neg (by omega), if_pos (by omega), here, Function.update_self, ← here,
      number]
  · rw [fillP1, fillP1, Function.update_of_ne here]
    by_cases later : 3072 + 2 * (i + 1) ≤ k ∧ k % 2 = 0
    · rw [if_pos later, if_pos (by omega)]
    · rw [if_neg later, if_neg (by omega)]

theorem fillP1_end (f : Nat → BitVec 32) {k : Nat} (hk : k < 4096) : fillP1 p4Table 512 f k = f k :=
  if_neg (by omega)

/-- The loop from the counter `i` on fills the rest of the last table. -/
theorem mapP1Table_dwords (width : p4Table.toNat + 4 * 4096 ≤ 2 ^ 32) (rest : Nat) :
    ∀ (i fuel : Nat) (mem : Mem) (f : Nat → BitVec 32), i + (rest + 1) = 512 → rest < fuel →
      Dwords mem (p4Table.setWidth 64) 4096 f →
        ∃ mem', mapP1Table (bootTable p4Table 3) fuel (BitVec.ofNat 32 i) mem = .ok mem' ∧
          Dwords mem' (p4Table.setWidth 64) 4096 (fillP1 p4Table i f) := by
  induction rest with
  | zero =>
    intro i fuel mem f total enough dwords
    obtain ⟨fuel, rfl⟩ := Nat.exists_eq_add_one.mpr enough
    obtain rfl : i = 511 := by omega
    refine ⟨_, rfl, fun k hk => ?_⟩
    rw [p1_address width (by omega), dwords.store (by omega) (by omega) _ k hk, ← fillP1_succ,
      fillP1_end _ hk]
    rfl
  | succ rest ih =>
    intro i fuel mem f total enough dwords
    obtain ⟨fuel, rfl⟩ := Nat.exists_eq_add_one.mpr (Nat.zero_lt_of_lt enough)
    have next : BitVec.ofNat 32 i + 1 = BitVec.ofNat 32 (i + 1) := (BitVec.ofNat_add i 1).symm
    have again : (BitVec.ofNat 32 (i + 1)).slt 512 = true := by
      have value : (BitVec.ofNat 32 (i + 1)).toInt = i + 1 := by
        have small : (BitVec.ofNat 32 (i + 1)).toNat = i + 1 := by
          rw [BitVec.toNat_ofNat]
          omega
        rw [BitVec.toInt_eq_toNat_of_lt (by omega), small]
        rfl
      have bound : (512 : BitVec 32).toInt = 512 := rfl
      rw [BitVec.slt_eq_decide, decide_eq_true_iff, value, bound]
      omega
    obtain ⟨mem', run, filled⟩ := ih (i + 1) fuel _ _ (by omega) (by omega)
      (dwords.store (j := 3072 + 2 * i) (by omega) (by omega) (bootEntry p4Table 3 i))
    rw [fillP1_succ] at filled
    refine ⟨mem', ?_, filled⟩
    rw [mapP1Table, next, again, p1_address width (by omega)]
    exact run

/-- **The four tables after `page_tables_setup`**, entry by entry. -/
theorem pageTablesSetup_entries (image : BootImage L p4Table mem) :
    ∃ mem', pageTablesSetup p4Table (bootTable p4Table 1) (bootTable p4Table 2)
        (bootTable p4Table 3) mem = .ok mem' ∧
      ∀ d < 4, ∀ j < 512, load64 mem' (slot ((bootTable p4Table d).setWidth 64) j) =
        (bootEntry p4Table d j).setWidth 64 := by
  have width := image.width
  have first : ∀ d < 4, (bootTable p4Table d).setWidth 64 =
      p4Table.setWidth 64 + BitVec.ofNat 64 (4 * (1024 * d)) := by
    intro d deep
    rw [← slot_zero ((bootTable p4Table d).setWidth 64), boot_slot width deep]
    rfl
  have root : p4Table.setWidth 64 + BitVec.ofNat 64 (4 * 0) = p4Table.setWidth 64 :=
    BitVec.add_zero _
  have stored := ((image.clear.store (j := 0) (by omega) (by omega)
    (bootTable p4Table 1 ||| 0b11)).store (j := 1024 * 1) (by omega) (by omega)
    (bootTable p4Table 2 ||| 0b11)).store (j := 1024 * 2) (by omega) (by omega)
    (bootTable p4Table 3 ||| 0b11)
  rw [root, ← first 1 (by omega), ← first 2 (by omega)] at stored
  obtain ⟨mem', run, filled⟩ := mapP1Table_dwords width 511 0 (2 ^ 32) _ _ rfl (by omega) stored
  refine ⟨mem', run, fun d deep j hj => ?_⟩
  -- Only the first entries of the upper tables are set.
  have other : ∀ k, k ≠ 0 → k ≠ 1024 → k ≠ 2048 → ¬ (3072 + 2 * 0 ≤ k ∧ k % 2 = 0) →
      fillP1 p4Table 0 (Function.update (Function.update (Function.update (fun _ => 0) 0
        (bootTable p4Table 1 ||| 0b11)) (1024 * 1) (bootTable p4Table 2 ||| 0b11)) (1024 * 2)
        (bootTable p4Table 3 ||| 0b11)) k = 0 := by
    intro k h₀ h₁ h₂ upper
    rw [fillP1, if_neg upper, Function.update_of_ne h₂, Function.update_of_ne h₁,
      Function.update_of_ne h₀]
  rw [boot_slot width deep, load64_dwords filled (by omega)
    (other _ (by omega) (by omega) (by omega) (by omega))]
  refine congrArg (BitVec.setWidth 64) ?_
  rw [bootEntry]
  by_cases last : d < 3
  · rw [if_pos last]
    by_cases start : j = 0
    · rw [if_pos start, start, fillP1, if_neg (by omega)]
      rcases (by omega : d = 0 ∨ d = 1 ∨ d = 2) with rfl | rfl | rfl
      · rfl
      · rfl
      · rfl
    · rw [if_neg start]
      exact other _ (by omega) (by omega) (by omega) (by omega)
  · obtain rfl : d = 3 := by omega
    rw [fillP1, if_pos (by omega), if_neg last, bootEntry, if_neg last,
      show (1024 * 3 + 2 * j - 3072) / 2 = j by omega]

/-! ### The tree -/

/-- A page address with the bits `0b11`: present, writable, for the supervisor. -/
theorem decode_boot {x : BitVec 32} (aligned : x.toNat % 4096 = 0) :
    (decodePageEntry ((x ||| 0b11).setWidth 64)).p = true ∧
      KernelTable (decodePageEntry ((x ||| 0b11).setWidth 64)) ∧
      (decodePageEntry ((x ||| 0b11).setWidth 64)).address.toNat = x.toNat / 4096 := by
  have bound := x.isLt
  have value : ((x ||| 0b11).setWidth 64).toNat = x.toNat + 3 := by
    have parts := Nat.two_pow_add_eq_or_of_lt (show 3 < 2 ^ 12 by omega) (x.toNat / 4096)
    have whole : 2 ^ 12 * (x.toNat / 4096) = x.toNat := by omega
    have three : (0b11 : BitVec 32).toNat = 3 := rfl
    rw [whole] at parts
    rw [BitVec.toNat_setWidth, BitVec.toNat_or, three, ← parts]
    omega
  have bit : ∀ i, ((x ||| 0b11).setWidth 64).getLsbD i = decide ((x.toNat + 3) / 2 ^ i % 2 = 1) := by
    intro i
    rw [BitVec.getLsbD, value, Nat.testBit_eq_decide_div_mod_eq]
  rw [decode_eq]
  refine ⟨(bit 0).trans (decide_eq_true (by omega)), ⟨(bit 1).trans (decide_eq_true (by omega)),
    (bit 2).trans (decide_eq_false (by omega))⟩, ?_⟩
  dsimp only
  rw [address_toNat, value]
  omega

/-- The first 2 MB are under the first entry of each upper table. -/
theorem pathOf_low {a : Word} (low : a.toNat < 2 ^ 21) :
    pathOf a = List.replicate (pathOf a).length 0 := by
  have zero : ∀ level, 0 < level → idx a level = 0 := by
    intro level positive
    have above : a.toNat < 2 ^ (12 + level * 9) :=
      low.trans_le (Nat.pow_le_pow_right (by omega) (by omega))
    apply Fin.ext
    change a.toNat / 2 ^ (12 + level * 9) % 512 = 0
    rw [Nat.div_eq_of_lt above]
  rw [pathOf_length, pathOf, suffix, suffix, suffix, suffix, zero 1 (by omega), zero 2 (by omega),
    zero 3 (by omega)]
  rfl

section Tree

variable (image : BootImage L p4Table mem) {mem' : Mem}
  (entries : ∀ d < 4, ∀ j < 512, load64 mem' (slot ((bootTable p4Table d).setWidth 64) j) =
    (bootEntry p4Table d j).setWidth 64)

include image entries

theorem boot_child {d : Nat} (deep : d < 3) (i : Fin 512) :
    childTable mem' ((bootTable p4Table d).setWidth 64) i =
      if i = 0 then some ((bootTable p4Table (d + 1)).setWidth 64) else none := by
  rw [childTable, entries d (by omega) i.val i.isLt, bootEntry, if_pos deep]
  by_cases first : i = 0
  · have next := bootTable_toNat image.width (show d + 1 < 4 by omega)
    have aligned := image.aligned
    obtain ⟨set, -, frame⟩ := decode_boot (x := bootTable p4Table (d + 1)) (by omega)
    have zero : i.val = 0 := congrArg Fin.val first
    rw [if_pos zero, if_pos first]
    refine (if_pos set).trans (congrArg some (BitVec.eq_of_toNat_eq ?_))
    have width := image.width
    rw [BitVec.toNat_shiftLeft, Nat.shiftLeft_eq, frame, BitVec.toNat_setWidth]
    omega
  · have nonzero : i.val ≠ 0 := fun zero => first (Fin.ext zero)
    rw [if_neg nonzero, if_neg first]
    exact if_neg (by decide)

/-- **The tables are those on the path of zeros.** -/
theorem boot_tableAt {q : List (Fin 512)} (within : q.length ≤ 3) (t : Word) :
    tableAt mem' (p4Table.setWidth 64) q = some t ↔
      q = List.replicate q.length 0 ∧ t = (bootTable p4Table q.length).setWidth 64 := by
  induction q using List.reverseRecOn generalizing t with
  | nil =>
    have top : bootTable p4Table 0 = p4Table := BitVec.add_zero _
    rw [List.length_nil, top]
    exact ⟨fun found => ⟨rfl, (Option.some.inj found).symm⟩, fun ⟨_, same⟩ => congrArg some same.symm⟩
  | append_singleton q i ih =>
    rw [List.length_append, List.length_singleton] at within
    rw [tableAt, follow_snoc, Option.bind_eq_some_iff, List.length_append, List.length_singleton,
      List.replicate_succ', List.append_singleton_inj]
    constructor
    · rintro ⟨a, found, child⟩
      obtain ⟨zeros, rfl⟩ := (ih (by omega) a).mp found
      rw [boot_child image entries (by omega)] at child
      split at child
      · rename_i first
        exact ⟨⟨zeros, first⟩, (Option.some.inj child).symm⟩
      · cases child
    · rintro ⟨⟨zeros, rfl⟩, rfl⟩
      refine ⟨_, (ih (by omega) _).mpr ⟨zeros, rfl⟩, ?_⟩
      rw [boot_child image entries (by omega), if_pos rfl]

/-- **The addresses below `INIT_PHYSTOP` are mapped to themselves.** -/
theorem boot_identity {a : Word} (low : a.toNat < initPhystop.toNat) :
    ∃ entry, mapped mem' (p4Table.setWidth 64) (vpn a) = some entry ∧
      entry.address.toNat = a.toNat / 4096 ∧ entry.rw = true := by
  have limit : initPhystop.toNat = 2 ^ 21 := rfl
  have leaf := (boot_tableAt image entries (pathOf_length a).le _).mpr
    ⟨pathOf_low (by omega), rfl⟩
  have number : (idx a 0).val = a.toNat / 4096 := by
    change a.toNat / 2 ^ 12 % 512 = _
    omega
  have frame : (0x1000 * BitVec.ofNat 32 (a.toNat / 4096)).toNat = 4096 * (a.toNat / 4096) := by
    have page : (0x1000 : BitVec 32).toNat = 4096 := rfl
    rw [BitVec.toNat_mul, BitVec.toNat_ofNat, page]
    omega
  obtain ⟨set, table, address⟩ :=
    decode_boot (x := 0x1000 * BitVec.ofNat 32 (a.toNat / 4096)) (by omega)
  refine ⟨_, ?_, address.trans (by omega), table.1⟩
  rw [mapped_vpn, leafAt_some leaf, pathOf_length, entries 3 (by omega) _ (idx a 0).isLt, number]
  exact if_pos set

end Tree

/-- **`page_tables_setup` leaves boot-time tables** for `INIT_PHYSTOP`. -/
theorem pageTablesSetup_bootTables (image : BootImage L p4Table mem) :
    ∃ mem', pageTablesSetup p4Table (bootTable p4Table 1) (bootTable p4Table 2)
        (bootTable p4Table 3) mem = .ok mem' ∧
      BootTables L mem' (p4Table.setWidth 64) initPhystop := by
  obtain ⟨mem', run, entries⟩ := pageTablesSetup_entries image
  have tables {q : List (Fin 512)} (within : q.length ≤ 3) := boot_tableAt image entries within
  have address : ∀ d < 4, ((bootTable p4Table d).setWidth 64).toNat = p4Table.toNat + 4096 * d := by
    intro d deep
    have width := image.width
    rw [BitVec.toNat_setWidth, bootTable_toNat width deep]
    omega
  refine ⟨mem', run, ?_, ?_, ?_, ?_, ?_⟩
  · have aligned := image.aligned
    have width := image.width
    rw [PageAligned, BitVec.toNat_setWidth]
    omega
  · intro p q a shortP shortQ first second
    obtain ⟨zerosP, atP⟩ := (tables shortP a).mp first
    obtain ⟨zerosQ, atQ⟩ := (tables shortQ a).mp second
    have depth := congrArg BitVec.toNat (atP.symm.trans atQ)
    rw [address _ (by omega), address _ (by omega)] at depth
    rw [zerosP, zerosQ, show p.length = q.length by omega]
  · intro q t within found
    obtain ⟨-, rfl⟩ := (tables within t).mp found
    have low := image.low
    have high := image.high
    rw [address _ (by omega)]
    omega
  · intro q a i short found set
    obtain ⟨-, rfl⟩ := (tables short.le a).mp found
    rw [boot_child image entries short] at set
    by_cases first : i = 0
    · have next := bootTable_toNat image.width (show q.length + 1 < 4 by omega)
      have aligned := image.aligned
      rw [first, entries _ (by omega) _ (by decide), bootEntry, if_pos short]
      exact (decode_boot (by omega)).2.1
    · exact absurd (if_neg first) set
  · exact fun a low => boot_identity image entries low

end Setup

end ShipOS
