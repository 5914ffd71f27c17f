/-
**Copying the tables to safe memory (`rsdt.c`, `madt.c`).**

`rsdt_copy_to_safe_memory` and `madt_copy_to_safe_memory` take a page from `kalloc` and copy the
table to it, as many bytes as the table states for its length. The page has 4096 of them.

* `relocated_iff` — one copy is faithful, and contained in its page, exactly when each byte still has
  its value when it is read and each byte stored behind the page is the one that is there;
* `bothRelocated_iff` — both copies, over the closed form `copied` of the memory after a copy;
* `bytesFit_iff` — for tables outside the two pages: what matters is where the bytes behind the first
  page of each table go;
* `pairFits_of_short` — tables of a page at most that lie outside the free pages;
* `relocation_iff` — all of these;
* `relocation_overruns` — an accepted root table that is longer than a page, and a MADT.
-/

import ShipOS.Acpi.Lookup
import ShipOS.Lib.ByteMem

namespace ShipOS

open ByteMem

/-! ### The code -/

/-- The body that the two functions share: the pointer to the table afterwards, and the memory. -/
def copyToSafeMemory (old : Word) (s : Phys) : Word × Phys :=
  if old = 0 then (old, s)
  else
    let tableSize := headerLength s.mem old
    let (new, s) := kalloc s
    if new = 0 then (old, s)
    else
      let mem := memset s.mem new 0 4096
      (new, { s with mem := copyUp mem new old tableSize.toNat })

def rsdtCopyToSafeMemory (a : Acpi) : Acpi :=
  let (root, s) := copyToSafeMemory a.rsdtRootPtr a.phys
  { a with phys := s, rsdtRootPtr := root }

/-- `madt_copy_to_safe_memory`, with `madt_ptr`. -/
def madtCopyToSafeMemory (madtPtr : Word) (s : Phys) : Word × Phys := copyToSafeMemory madtPtr s

/-! ### One copy -/

/-- The table at `new` in `m'` is byte for byte the one at `old` in `m`, over its whole length. -/
def SameTable (m : Mem) (old : Word) (m' : Mem) (new : Word) : Prop :=
  ∀ i < (headerLength m old).toNat, m' (new + BitVec.ofNat 64 i) = m (old + BitVec.ofNat 64 i)

/-- **What a copy should do**: without a table or a page the pointer is unchanged; otherwise the
table seen through the new pointer is the old one. No memory outside the page has changed. -/
def Relocated (old : Word) (s : Phys) (result : Word × Phys) : Prop :=
  let page := (kalloc s).1
  if old = 0 ∨ page = 0 then result.1 = old ∧ result.2.mem = s.mem
  else result.1 = page ∧ SameTable s.mem old result.2.mem page ∧ OnlyPage page s.mem result.2.mem

/-- Byte `i` of the table has its value when it is read: what an earlier round of the copy stored
over it is the same byte, and it is not lost with the page being cleared. -/
def Survives (m : Mem) (page old : Word) (i : Nat) : Prop :=
  let j := (old + BitVec.ofNat 64 i - page).toNat
  if j < i then m (old + BitVec.ofNat 64 j) = m (old + BitVec.ofNat 64 i)
  else j < 4096 → m (old + BitVec.ofNat 64 i) = 0

/-- The bytes that are stored behind the page are those that are there. -/
def NoOverrun (m : Mem) (page old : Word) : Prop :=
  ∀ i < (headerLength m old).toNat, 4096 ≤ i →
    m (page + BitVec.ofNat 64 i) = m (old + BitVec.ofNat 64 i)

theorem kalloc_fst (s : Phys) : (kalloc s).1 = s.freelist := by
  rw [kalloc]
  by_cases empty : s.freelist = 0
  · rw [if_neg (not_not.mpr empty), empty]
  · rw [if_pos empty]

theorem fill_fill (m : Mem) (a : Word) (v w : Byte) (n : Nat) :
    fill (fill m a v n) a w n = fill m a w n := by
  funext x
  unfold fill
  split
  · rfl
  · rfl

/-- The two functions on a table when there is a page. -/
theorem copyToSafeMemory_page {old : Word} {s : Phys} (set : old ≠ 0) (page : s.freelist ≠ 0) :
    copyToSafeMemory old s = (s.freelist,
      { mem := copyUp (fill s.mem s.freelist 0 4096) s.freelist old (headerLength s.mem old).toNat
        freelist := load64 s.mem s.freelist }) := by
  rw [copyToSafeMemory, if_neg set, kalloc]
  dsimp only
  rw [if_pos page]
  dsimp only
  rw [if_neg page, memset, memset, fill_fill]

theorem copyToSafeMemory_none {old : Word} {s : Phys} (missing : old = 0 ∨ s.freelist = 0) :
    copyToSafeMemory old s = (old, s) := by
  rw [copyToSafeMemory]
  by_cases set : old = 0
  · rw [if_pos set]
  · have empty := missing.resolve_left set
    rw [if_neg set, kalloc]
    dsimp only
    rw [if_neg (not_not.mpr empty)]
    dsimp only
    rw [if_pos rfl]

theorem headerLength_le (m : Mem) (p : Word) : (headerLength m p).toNat ≤ 2 ^ 64 := by
  have bound := (headerLength m p).isLt
  omega

/-- The table arrives exactly when its bytes survive. -/
theorem sameTable_iff (m : Mem) (page old : Word) :
    SameTable m old (copyUp (fill m page 0 4096) page old (headerLength m old).toNat) page ↔
      ∀ i < (headerLength m old).toNat, Survives m page old i := by
  unfold SameTable
  rw [copyUp_eq_iff _ page old (headerLength_le m old) fun i => m (old + BitVec.ofNat 64 i)]
  refine forall₂_congr fun i _ => ?_
  unfold Survives
  dsimp only
  by_cases early : (old + BitVec.ofNat 64 i - page).toNat < i
  · rw [if_pos early, if_pos early]
  · rw [if_neg early, if_neg early, fill]
    by_cases cleared : (old + BitVec.ofNat 64 i - page).toNat < 4096
    · rw [if_pos cleared]
      exact ⟨fun zero _ => zero.symm, fun zero => (zero cleared).symm⟩
    · rw [if_neg cleared]
      exact ⟨fun _ inside => absurd inside cleared, fun _ => rfl⟩

/-- A table that arrives stays in its page exactly when no byte is overrun. -/
theorem onlyPage_iff {m : Mem} {page old : Word}
    (same : SameTable m old
      (copyUp (fill m page 0 4096) page old (headerLength m old).toNat) page) :
    OnlyPage page m (copyUp (fill m page 0 4096) page old (headerLength m old).toNat) ↔
      NoOverrun m page old := by
  have bound := (headerLength m old).isLt
  constructor
  · intro only i inside behind
    rw [← same i inside]
    refine (only _ ?_).symm
    rw [show page + BitVec.ofNat 64 i - page = BitVec.ofNat 64 i by bv_omega, BitVec.toNat_ofNat]
    omega
  · intro agree x outside
    by_cases inside : (x - page).toNat < (headerLength m old).toNat
    · have address : x = page + BitVec.ofNat 64 (x - page).toNat := by bv_omega
      have stored := same _ inside
      rw [← agree _ inside (Nat.not_lt.mp outside), ← address] at stored
      exact stored
    · rw [copyUp_outside _ page old (headerLength_le m old) (Nat.not_lt.mp inside)]
      exact if_neg outside

/-- There is no table or no page, or the table survives and stays in its page. -/
def CopyFits (old : Word) (s : Phys) : Prop :=
  old = 0 ∨ s.freelist = 0 ∨
    (∀ i < (headerLength s.mem old).toNat, Survives s.mem s.freelist old i) ∧
      NoOverrun s.mem s.freelist old

/-- **When a copy does what it should**, for any table, memory and free list. -/
theorem relocated_iff (old : Word) (s : Phys) :
    Relocated old s (copyToSafeMemory old s) ↔ CopyFits old s := by
  unfold Relocated CopyFits
  rw [kalloc_fst]
  dsimp only
  by_cases missing : old = 0 ∨ s.freelist = 0
  · rw [if_pos missing, copyToSafeMemory_none missing, ← or_assoc]
    exact ⟨fun _ => Or.inl missing, fun _ => ⟨rfl, rfl⟩⟩
  · obtain ⟨set, page⟩ := not_or.mp missing
    rw [if_neg missing, copyToSafeMemory_page set page, or_iff_right set, or_iff_right page]
    dsimp only
    rw [and_iff_right rfl, ← sameTable_iff]
    exact and_congr_right onlyPage_iff

/-! ### Both copies -/

/-- Both functions, in the order of `kernel_main`. -/
def copyTablesToSafeMemory (a : Acpi) (madtPtr : Word) : Acpi × Word :=
  let a := rsdtCopyToSafeMemory a
  let (madtPtr, s) := madtCopyToSafeMemory madtPtr a.phys
  ({ a with phys := s }, madtPtr)

/-- The page that `kalloc` returns to a call, if there is a table and a page. -/
def takenFor (old : Word) (s : Phys) : Option Word :=
  if old = 0 ∨ (kalloc s).1 = 0 then none else some (kalloc s).1

/-- The table that was at `old` in `m` is on the page in `m'`; without a page the pointer is
unchanged. -/
def Arrived (m : Mem) (old : Word) (m' : Mem) (new : Word) : Option Word → Prop
  | none => new = old
  | some page => new = page ∧ SameTable m old m' page

/-- **What the two calls should do**: both tables have arrived in the end, and no memory outside the
pages that the calls got has changed. -/
def BothRelocated (a : Acpi) (madtPtr : Word) (r : Acpi × Word) : Prop :=
  let root := takenFor a.rsdtRootPtr a.phys
  let madt := takenFor madtPtr (rsdtCopyToSafeMemory a).phys
  Arrived a.phys.mem a.rsdtRootPtr r.1.phys.mem r.1.rsdtRootPtr root ∧
    Arrived a.phys.mem madtPtr r.1.phys.mem r.2 madt ∧
    OnlyPages (root.toList ++ madt.toList) a.phys.mem r.1.phys.mem

/-- **Memory after a copy of `n` bytes**, written out: each byte is one of the memory with the page
cleared, and a copy that runs into its own target repeats the bytes in front of it. -/
def copied (m : Mem) (page old : Word) (n : Nat) : Mem := fun x =>
  fill m page 0 4096 (if (x - page).toNat < n then
    old + BitVec.ofNat 64 ((x - page).toNat % (page - old).toNat) else x)

theorem copyUp_copied (m : Mem) (page old : Word) {n : Nat} (small : n ≤ 2 ^ 64) :
    copyUp (fill m page 0 4096) page old n = copied m page old n := by
  funext x
  unfold copied
  by_cases inside : (x - page).toNat < n
  · have place : x = page + BitVec.ofNat 64 (x - page).toNat := by bv_omega
    rw [if_pos inside, ← copyUp_repeats (fill m page 0 4096) page old small inside, ← place]
  · rw [if_neg inside, copyUp_outside _ page old small (Nat.not_lt.mp inside)]

/-- The bytes of both tables, of the memory `m` before the calls, are where they belong after both
copies, and outside the two pages nothing has changed. -/
def BytesFit (m : Mem) (p root q madt : Word) : Prop :=
  let between := copied m p root (headerLength m root).toNat
  let after := copied between q madt (headerLength between madt).toNat
  SameTable m root after p ∧ SameTable m madt after q ∧ OnlyPages [p, q] m after

/-- Where one of the calls finds nothing to do, the other one alone must fit. -/
def PairFits (root madt : Word) (s : Phys) : Prop :=
  if root = 0 ∨ s.freelist = 0 then CopyFits madt s
  else if madt = 0 ∨ load64 s.mem s.freelist = 0 then CopyFits root s
  else BytesFit s.mem s.freelist root (load64 s.mem s.freelist) madt

section Pair

variable {a : Acpi} {madtPtr : Word}

theorem takenFor_none {old : Word} {s : Phys} (missing : old = 0 ∨ s.freelist = 0) :
    takenFor old s = none := by
  rw [takenFor, kalloc_fst, if_pos missing]

theorem takenFor_some {old : Word} {s : Phys} (missing : ¬ (old = 0 ∨ s.freelist = 0)) :
    takenFor old s = some s.freelist := by
  rw [takenFor, kalloc_fst, if_neg missing]

/-- A call as one of a pair whose other call does nothing. -/
theorem relocated_iff_arrived (old : Word) (s : Phys) (r : Word × Phys) :
    Relocated old s r ↔ Arrived s.mem old r.2.mem r.1 (takenFor old s) ∧
      OnlyPages (takenFor old s).toList s.mem r.2.mem := by
  unfold Relocated
  rw [kalloc_fst]
  dsimp only
  by_cases missing : old = 0 ∨ s.freelist = 0
  · rw [if_pos missing, takenFor_none missing]
    refine and_congr Iff.rfl ⟨fun same x _ => congrFun same x, fun only => ?_⟩
    exact funext fun x => only x (List.forall_mem_nil _)
  · rw [if_neg missing, takenFor_some missing, Arrived, and_assoc]
    refine and_congr Iff.rfl (and_congr Iff.rfl ⟨fun only => ?_, fun only x outside => ?_⟩)
    · exact only.pages (List.mem_singleton_self _)
    · exact only x (List.forall_mem_singleton.mpr outside)

/-- **When both calls together do what they should.** -/
theorem bothRelocated_iff (a : Acpi) (madtPtr : Word) :
    BothRelocated a madtPtr (copyTablesToSafeMemory a madtPtr) ↔
      PairFits a.rsdtRootPtr madtPtr a.phys := by
  unfold BothRelocated PairFits copyTablesToSafeMemory rsdtCopyToSafeMemory madtCopyToSafeMemory
  dsimp only
  by_cases noRoot : a.rsdtRootPtr = 0 ∨ a.phys.freelist = 0
  · rw [if_pos noRoot, copyToSafeMemory_none noRoot, takenFor_none noRoot, ← relocated_iff,
      relocated_iff_arrived]
    exact and_iff_right rfl
  obtain ⟨set, page⟩ := not_or.mp noRoot
  let between : Phys :=
    { mem := copied a.phys.mem a.phys.freelist a.rsdtRootPtr
        (headerLength a.phys.mem a.rsdtRootPtr).toNat
      freelist := load64 a.phys.mem a.phys.freelist }
  have first : copyToSafeMemory a.rsdtRootPtr a.phys = (a.phys.freelist, between) := by
    rw [copyToSafeMemory_page set page, copyUp_copied _ _ _ (headerLength_le _ _)]
  rw [if_neg noRoot, takenFor_some noRoot, first]
  by_cases noMadt : madtPtr = 0 ∨ between.freelist = 0
  · rw [if_pos noMadt, copyToSafeMemory_none noMadt, takenFor_none noMadt, ← relocated_iff,
      relocated_iff_arrived, takenFor_some noRoot, first]
    exact and_congr Iff.rfl (and_iff_right rfl)
  obtain ⟨set', page'⟩ := not_or.mp noMadt
  rw [if_neg noMadt, takenFor_some noMadt, copyToSafeMemory_page set' page']
  unfold BytesFit Arrived
  dsimp only
  rw [and_iff_right rfl, and_iff_right rfl, copyUp_copied _ _ _ (headerLength_le _ _)]
  exact Iff.rfl

end Pair

/-! ### Tables outside the two pages -/

/-- The header and the bytes of the table lie outside the pages. -/
def OutsidePages (pages : List Word) (m : Mem) (p : Word) : Prop :=
  ∀ page ∈ pages, Apart page 4096 p (max headerSize (headerLength m p).toNat)

theorem OutsidePages.table {pages : List Word} {m : Mem} {p : Word}
    (outside : OutsidePages pages m p) :
    ∀ page ∈ pages, Apart page 4096 p (headerLength m p).toNat :=
  fun page member => (outside page member).mono le_rfl (le_max_right _ _)

/-- Bytes apart from the pages that change are kept. -/
theorem OnlyPages.kept {pages : List Word} {m m' : Mem} {p : Word} {n : Nat}
    (only : OnlyPages pages m m') (apart : ∀ page ∈ pages, Apart page 4096 p n) {i : Nat}
    (inside : i < n) : m' (p + BitVec.ofNat 64 i) = m (p + BitVec.ofNat 64 i) :=
  only _ fun page member => (apart page member).outside inside

theorem OutsidePages.headerLength_eq {pages : List Word} {m m' : Mem} {p : Word}
    (outside : OutsidePages pages m p) (only : OnlyPages pages m m') :
    headerLength m' p = headerLength m p := by
  refine congrArg (BitVec.ofNat 32) (readLE_congr fun k small => ?_)
  have header : 4 + k < max headerSize (headerLength m p).toNat := by
    rw [lt_max_iff, headerSize]
    omega
  have kept := only.kept outside header
  rwa [BitVec.ofNat_add, ← BitVec.add_assoc] at kept

/-- **The bytes behind the first page of each table fit where they go**: on the page of the other
table they are the bytes of that table, or the zeros behind it; elsewhere they are there already. -/
def TailsFit (m : Mem) (p root q madt : Word) : Prop :=
  (∀ i < (headerLength m root).toNat, 4096 ≤ i →
    let j := (p + BitVec.ofNat 64 i - q).toNat
    (if j < 4096 then if j < (headerLength m madt).toNat then m (madt + BitVec.ofNat 64 j) else 0
      else m (p + BitVec.ofNat 64 i)) = m (root + BitVec.ofNat 64 i)) ∧
  ∀ j < (headerLength m madt).toNat, 4096 ≤ j →
    let i := (q + BitVec.ofNat 64 j - p).toNat
    if i < 4096 then i < (headerLength m root).toNat →
      m (root + BitVec.ofNat 64 i) = m (madt + BitVec.ofNat 64 j)
    else m (q + BitVec.ofNat 64 j) = m (madt + BitVec.ofNat 64 j)

/-- The bytes of a table that go neither to the page nor to the other one are there already. -/
def TailStays (m : Mem) (page other old : Word) : Prop :=
  ∀ i < (headerLength m old).toNat, 4096 ≤ i → ¬ (page + BitVec.ofNat 64 i - other).toNat < 4096 →
    m (page + BitVec.ofNat 64 i) = m (old + BitVec.ofNat 64 i)

/-- One copy whose tail stays. -/
theorem copied_of_tail {m : Mem} {page other old : Word}
    (outside : ∀ x ∈ [page, other], Apart x 4096 old (headerLength m old).toNat)
    (tail : TailStays m page other old) :
    let after := copied m page old (headerLength m old).toNat
    SameTable m old after page ∧ OnlyPages [page, other] m after ∧
      ∀ x, (headerLength m old).toNat ≤ (x - page).toNat → after x = fill m page 0 4096 x := by
  intro after
  have offPage := outside page List.mem_cons_self
  have offOther := outside other (List.mem_cons_of_mem _ (List.mem_singleton_self _))
  have bound := (headerLength m old).isLt
  have beyond : ∀ x, (headerLength m old).toNat ≤ (x - page).toNat →
      after x = fill m page 0 4096 x := fun x behind =>
    congrArg (fill m page 0 4096) (if_neg (Nat.not_lt.mpr behind))
  have same : SameTable m old after page := by
    show SameTable m old (copied m page old _) page
    rw [← copyUp_copied _ _ _ (headerLength_le m old), sameTable_iff]
    intro i inside
    have off := offPage.outside inside
    unfold Survives
    dsimp only
    split
    · -- Round `i` reads what an earlier round has stored behind the page.
      rename_i early
      have stored := tail _ (early.trans inside) (Nat.not_lt.mp off)
        (by rw [add_offset]; exact offOther.outside inside)
      rw [add_offset] at stored
      exact stored.symm
    · exact fun cleared => absurd cleared off
  refine ⟨same, fun x off => ?_, beyond⟩
  have offThis := off page List.mem_cons_self
  by_cases inside : (x - page).toNat < (headerLength m old).toNat
  · have stored := same _ inside
    rw [← tail _ inside (Nat.not_lt.mp offThis)
      (by rw [add_offset]; exact off other (List.mem_cons_of_mem _ (List.mem_singleton_self _))),
      add_offset] at stored
    exact stored
  · exact (beyond x (Nat.not_lt.mp inside)).trans (if_neg offThis)

/-- What lies behind the first page of a table goes to an address behind the page. -/
theorem off_page {m : Mem} {page old : Word} {i : Nat} (inside : i < (headerLength m old).toNat)
    (behind : 4096 ≤ i) : ¬ (page + BitVec.ofNat 64 i - page).toNat < 4096 := by
  have bound := (headerLength m old).isLt
  rw [offset_add page (by omega)]
  exact Nat.not_lt.mpr behind

/-- Where both tables arrive and nothing else changes, the tails stay. -/
theorem BytesFit.stays {m : Mem} {p root q madt : Word} (fits : BytesFit m p root q madt) :
    TailStays m p q root ∧ TailStays m q p madt := by
  obtain ⟨sameRoot, sameMadt, only⟩ := fits
  constructor
  · intro i inside behind off
    rw [← sameRoot i inside, only]
    exact List.forall_mem_cons.mpr ⟨off_page inside behind, List.forall_mem_singleton.mpr off⟩
  · intro j inside behind off
    rw [← sameMadt j inside, only]
    exact List.forall_mem_cons.mpr ⟨off, List.forall_mem_singleton.mpr (off_page inside behind)⟩

theorem TailsFit.stays {m : Mem} {p root q madt : Word} (fits : TailsFit m p root q madt) :
    TailStays m p q root ∧ TailStays m q p madt := by
  obtain ⟨rootFits, madtFits⟩ := fits
  dsimp only at rootFits madtFits
  constructor
  · intro i inside behind off
    have here := rootFits i inside behind
    rwa [if_neg off] at here
  · intro j inside behind off
    have here := madtFits j inside behind
    rwa [if_neg off] at here

section Outside

variable {m : Mem} {p root q madt : Word} (pages : Apart p 4096 q 4096)
  (outsideRoot : OutsidePages [p, q] m root) (outsideMadt : OutsidePages [p, q] m madt)

include outsideRoot outsideMadt

/-- The memory after each of two copies whose tails stay. -/
theorem copied_both (rootTail : TailStays m p q root) (madtTail : TailStays m q p madt) :
    let between := copied m p root (headerLength m root).toNat
    let after := copied between q madt (headerLength between madt).toNat
    SameTable m root between p ∧ SameTable m madt after q ∧ OnlyPages [p, q] m after ∧
      ∀ x, (headerLength m madt).toNat ≤ (x - q).toNat → after x = fill between q 0 4096 x := by
  intro between after
  obtain ⟨same, only, -⟩ := copied_of_tail outsideRoot.table rootTail
  have length : headerLength between madt = headerLength m madt := outsideMadt.headerLength_eq only
  have kept : ∀ j < (headerLength m madt).toNat,
      between (madt + BitVec.ofNat 64 j) = m (madt + BitVec.ofNat 64 j) := fun j inside =>
    only.kept outsideMadt.table inside
  have swapped : ∀ x ∈ [q, p], x ∈ [p, q] := fun x member => by
    rw [List.mem_cons, List.mem_singleton] at member ⊢
    exact member.symm
  have outside : ∀ x ∈ [q, p], Apart x 4096 madt (headerLength between madt).toNat := by
    rw [length]
    exact fun x member => outsideMadt.table x (swapped x member)
  have tail : TailStays between q p madt := by
    unfold TailStays
    rw [length]
    intro j inside behind off
    have onQ : ¬ (q + BitVec.ofNat 64 j - q).toNat < 4096 := off_page inside behind
    have untouched : between (q + BitVec.ofNat 64 j) = m (q + BitVec.ofNat 64 j) :=
      only _ (List.forall_mem_cons.mpr ⟨off, List.forall_mem_singleton.mpr onQ⟩)
    rw [untouched, kept j inside]
    exact madtTail j inside behind off
  obtain ⟨same', only', beyond⟩ := copied_of_tail outside tail
  refine ⟨same, fun j inside => ?_, only.trans (only'.mono swapped), fun x behind => ?_⟩
  · exact (same' j (by rwa [length])).trans (kept j inside)
  · exact beyond x (by rwa [length])

theorem tailsFit_of_bytesFit (fits : BytesFit m p root q madt) : TailsFit m p root q madt := by
  obtain ⟨rootTail, madtTail⟩ := fits.stays
  obtain ⟨-, -, -, beyond⟩ := copied_both outsideRoot outsideMadt rootTail madtTail
  obtain ⟨sameRoot, sameMadt, -⟩ := fits
  refine ⟨fun i inside behind => ?_, fun j inside behind => ?_⟩
  · dsimp only
    by_cases here : (p + BitVec.ofNat 64 i - q).toNat < 4096
    · -- The byte has been stored on the page that the second call takes.
      rw [if_pos here, ← sameRoot i inside]
      by_cases short : (p + BitVec.ofNat 64 i - q).toNat < (headerLength m madt).toNat
      · rw [if_pos short, ← sameMadt _ short, add_offset]
      · rw [if_neg short, beyond _ (Nat.not_lt.mp short)]
        exact (if_pos here).symm
    · rw [if_neg here]
      exact rootTail i inside behind here
  · dsimp only
    by_cases here : (q + BitVec.ofNat 64 j - p).toNat < 4096
    · rw [if_pos here]
      intro short
      rw [← sameRoot _ short, ← sameMadt j inside, add_offset]
    · rw [if_neg here]
      exact madtTail j inside behind here

include pages

/-- A byte of the root table after both copies: stored over by the second, cleared by it, or left. -/
theorem bytesFit_of_tailsFit (fits : TailsFit m p root q madt) : BytesFit m p root q madt := by
  have bound := (headerLength m root).isLt
  obtain ⟨rootTail, madtTail⟩ := fits.stays
  obtain ⟨sameRoot, sameMadt, only, beyond⟩ :=
    copied_both outsideRoot outsideMadt rootTail madtTail
  obtain ⟨rootFits, madtFits⟩ := fits
  dsimp only at rootFits madtFits
  refine ⟨fun i inside => ?_, sameMadt, only⟩
  have late : (p + BitVec.ofNat 64 i - q).toNat < 4096 → 4096 ≤ i := fun here =>
    Nat.not_lt.mp fun early => pages.symm.outside early here
  have index : (p + BitVec.ofNat 64 i - p).toNat = i := offset_add p (by omega)
  by_cases short : (p + BitVec.ofNat 64 i - q).toNat < (headerLength m madt).toNat
  · have stored := sameMadt _ short
    rw [add_offset] at stored
    rw [stored]
    by_cases here : (p + BitVec.ofNat 64 i - q).toNat < 4096
    · have byte := rootFits i inside (late here)
      rwa [if_pos here, if_pos short] at byte
    · have byte := madtFits _ short (Nat.not_lt.mp here)
      rw [add_offset, index] at byte
      by_cases first : i < 4096
      · rw [if_pos first] at byte
        exact (byte inside).symm
      · rw [if_neg first] at byte
        rw [← byte]
        exact rootTail i inside (Nat.not_lt.mp first) here
  · rw [beyond _ (Nat.not_lt.mp short), fill]
    by_cases here : (p + BitVec.ofNat 64 i - q).toNat < 4096
    · have byte := rootFits i inside (late here)
      rw [if_pos here, if_neg short] at byte
      rw [if_pos here]
      exact byte
    · rw [if_neg here]
      exact sameRoot i inside

/-- **Tables outside the two pages fit exactly when their tails do.** -/
theorem bytesFit_iff : BytesFit m p root q madt ↔ TailsFit m p root q madt :=
  ⟨tailsFit_of_bytesFit outsideRoot outsideMadt, bytesFit_of_tailsFit pages outsideRoot outsideMadt⟩

end Outside

/-! ### Tables of a page at most -/

/-- A table of a page at most, outside the page it goes to, has what a copy needs. -/
theorem survives_of_short {m : Mem} {page old : Word}
    (apart : Apart page 4096 old (headerLength m old).toNat)
    (short : (headerLength m old).toNat ≤ 4096) :
    (∀ i < (headerLength m old).toNat, Survives m page old i) ∧ NoOverrun m page old := by
  refine ⟨fun i inside => ?_, fun i inside behind => absurd (inside.trans_le short) (by omega)⟩
  have off := apart.outside inside
  unfold Survives
  dsimp only
  rw [if_neg (by omega)]
  exact fun cleared => absurd cleared off

theorem tailsFit_of_short {m : Mem} {p root q madt : Word}
    (shortRoot : (headerLength m root).toNat ≤ 4096)
    (shortMadt : (headerLength m madt).toNat ≤ 4096) : TailsFit m p root q madt :=
  ⟨fun _ inside behind => absurd (inside.trans_le shortRoot) (Nat.not_lt.mpr behind),
    fun _ inside behind => absurd (inside.trans_le shortMadt) (Nat.not_lt.mpr behind)⟩

theorem apart_pages {p q : Word} (alignedP : PageAligned p) (alignedQ : PageAligned q)
    (different : p ≠ q) : Apart p 4096 q 4096 := by
  have ne : p.toNat ≠ q.toNat := fun same => different (BitVec.eq_of_toNat_eq same)
  unfold PageAligned at alignedP alignedQ
  constructor
  · bv_omega
  · bv_omega

section Short

variable {L : Bounds} {s : Phys} {free : List Word} (list : FreeList L s free)

include list

/-- The head of the free list is a page of it. -/
theorem FreeList.head_mem (nonempty : s.freelist ≠ 0) : s.freelist ∈ free := by
  cases free with
  | nil => exact absurd list.spine nonempty
  | cons page rest =>
    rw [show s.freelist = page from list.spine.1]
    exact List.mem_cons_self

/-- The first two free pages. -/
theorem FreeList.second_mem (nonempty : s.freelist ≠ 0) (more : load64 s.mem s.freelist ≠ 0) :
    load64 s.mem s.freelist ∈ free ∧ s.freelist ≠ load64 s.mem s.freelist := by
  match free, list with
  | [], list => exact absurd list.spine nonempty
  | [page], list =>
    obtain ⟨head, -, last⟩ := list.spine
    rw [← head] at last
    exact absurd last more
  | page :: second :: rest, list =>
    obtain ⟨head, -, next, -, -⟩ := list.spine
    obtain ⟨fresh, -⟩ := List.nodup_cons.mp list.nodup
    rw [← head] at next
    rw [next, head]
    exact ⟨List.mem_cons_of_mem _ List.mem_cons_self, fun same => fresh (same ▸ List.mem_cons_self)⟩

theorem copyFits_of_short {old : Word} (outside : OutsidePages free s.mem old)
    (short : (headerLength s.mem old).toNat ≤ 4096) : CopyFits old s := by
  by_cases empty : s.freelist = 0
  · exact .inr (.inl empty)
  · exact .inr (.inr (survives_of_short (outside.table _ (list.head_mem empty)) short))

/-- **Tables of a page at most, outside the free pages.** -/
theorem pairFits_of_short {root madt : Word} (outsideRoot : OutsidePages free s.mem root)
    (outsideMadt : OutsidePages free s.mem madt)
    (shortRoot : (headerLength s.mem root).toNat ≤ 4096)
    (shortMadt : (headerLength s.mem madt).toNat ≤ 4096) : PairFits root madt s := by
  rw [PairFits]
  split
  · exact copyFits_of_short list outsideMadt shortMadt
  split
  · exact copyFits_of_short list outsideRoot shortRoot
  · rename_i noRoot noMadt
    have first := list.head_mem (not_or.mp noRoot).2
    obtain ⟨second, different⟩ := list.second_mem (not_or.mp noRoot).2 (not_or.mp noMadt).2
    have both : ∀ page ∈ [s.freelist, load64 s.mem s.freelist], page ∈ free :=
      List.forall_mem_cons.mpr ⟨first, List.forall_mem_singleton.mpr second⟩
    refine (bytesFit_iff (apart_pages (list.page _ first).aligned (list.page _ second).aligned
      different) (fun page member => outsideRoot page (both page member))
      (fun page member => outsideMadt page (both page member))).mpr ?_
    exact tailsFit_of_short shortRoot shortMadt

end Short

/-- **When relocation is faithful and contained.** Each call alone, and both together, for any
tables, memory and free list; for tables outside the two pages that they go to, both calls together
exactly when the bytes behind the first page of each table fit. Tables of a page at most, outside the
free pages, are all of that kind. -/
theorem relocation_iff (a : Acpi) (madtPtr : Word) :
    (Relocated a.rsdtRootPtr a.phys
        ((rsdtCopyToSafeMemory a).rsdtRootPtr, (rsdtCopyToSafeMemory a).phys) ↔
      CopyFits a.rsdtRootPtr a.phys) ∧
    (∀ s : Phys, Relocated madtPtr s (madtCopyToSafeMemory madtPtr s) ↔ CopyFits madtPtr s) ∧
    (BothRelocated a madtPtr (copyTablesToSafeMemory a madtPtr) ↔
      PairFits a.rsdtRootPtr madtPtr a.phys) ∧
    (a.rsdtRootPtr ≠ 0 → madtPtr ≠ 0 → ∀ p q, a.phys.freelist = p → p ≠ 0 →
      load64 a.phys.mem p = q → q ≠ 0 → Apart p 4096 q 4096 →
      OutsidePages [p, q] a.phys.mem a.rsdtRootPtr → OutsidePages [p, q] a.phys.mem madtPtr →
        (BothRelocated a madtPtr (copyTablesToSafeMemory a madtPtr) ↔
          TailsFit a.phys.mem p a.rsdtRootPtr q madtPtr)) ∧
    ∀ L free, FreeList L a.phys free → OutsidePages free a.phys.mem a.rsdtRootPtr →
      OutsidePages free a.phys.mem madtPtr → a.rootLength ≤ 4096 →
      (headerLength a.phys.mem madtPtr).toNat ≤ 4096 →
        BothRelocated a madtPtr (copyTablesToSafeMemory a madtPtr) := by
  refine ⟨relocated_iff a.rsdtRootPtr a.phys, relocated_iff madtPtr, bothRelocated_iff a madtPtr,
    ?_, ?_⟩
  · rintro root madt _ _ rfl first rfl second apart outsideRoot outsideMadt
    rw [bothRelocated_iff, PairFits, if_neg (not_or.mpr ⟨root, first⟩),
      if_neg (not_or.mpr ⟨madt, second⟩), bytesFit_iff apart outsideRoot outsideMadt]
  · intro L free list outsideRoot outsideMadt shortRoot shortMadt
    exact (bothRelocated_iff a madtPtr).mpr
      (pairFits_of_short list outsideRoot outsideMadt shortRoot shortMadt)

/-- An XSDT and a MADT of less than a page. -/
theorem relocation_whole :
    BothRelocated ⟨bothRoots, 0x300000, true⟩ 0x301000
      (copyTablesToSafeMemory ⟨bothRoots, 0x300000, true⟩ 0x301000) := by
  obtain ⟨-, root, madt, -⟩ := bothRoots_values
  have outside : ∀ p : Word, 0x300000 ≤ p.toNat → p.toNat ≤ 0x301000 →
      (headerLength bothRoots.mem p).toNat ≤ 52 → OutsidePages rootsFree bothRoots.mem p := by
    intro p low high length
    have size : max headerSize (headerLength bothRoots.mem p).toNat ≤ 52 :=
      max_le (by decide) length
    unfold OutsidePages Apart rootsFree
    rw [List.forall_mem_cons, List.forall_mem_cons, List.forall_mem_singleton]
    refine ⟨⟨?_, size.trans ?_⟩, ⟨?_, size.trans ?_⟩, ?_, size.trans ?_⟩ <;> bv_omega
  obtain ⟨-, -, -, -, short⟩ := relocation_iff ⟨bothRoots, 0x300000, true⟩ 0x301000
  exact short demoLayout _ bothRoots_tree.list
    (outside _ (by decide) (by decide) (by rw [root]; decide))
    (outside _ (by decide) (by decide) (by rw [madt]; decide))
    (by rw [Acpi.rootLength, root]; decide) (by rw [madt]; decide)

/-- Five free pages, an RSDP, and an XSDT of 509 entries, the last of which is a MADT at
`0x302000`. -/
def longXsdt : Phys where
  mem := putBytes (putBytes (putBytes (putRsdp
      (store64 (store64 demoPhys.mem 0x202000 0x203000) 0x203000 0x204000) 36 0xAC)
    0x300000 (xsdtSignature ++ [0x0C, 0x10, 0, 0, 0, 0x51]))
    0x301004 [0, 0x20, 0x30, 0, 0, 0, 0, 0])
    0x302000 (sdtHeader madtSignature 44 0xB7 ++ List.replicate 8 0)
  freelist := demoPhys.freelist

/-- The free pages of `longXsdt`. -/
def longFree : List Word := [0x200000, 0x201000, 0x202000, 0x203000, 0x204000]

/-- The mappings of `init_rsdt` and of `rsdt_find_table`, each with what is read after it. -/
def mapLong : Except Halt (List Word × List (BitVec 32) × List Byte × Int) := do
  let (p₁, s₁) ← mapMmio demoRoot 0x300000 pgsize longXsdt
  let (p₂, s₂) ← mapMmio demoRoot 0x300000 ((4108 : BitVec 32).setWidth 64) s₁
  let (p₃, s₃) ← mapMmio demoRoot 0x302000 pgsize s₂
  let (p₄, s₄) ← mapMmio demoRoot 0x302000 ((44 : BitVec 32).setWidth 64) s₃
  .ok ([p₁, p₂, p₃, p₄, s₄.freelist, load64 s₄.mem 0x203000],
    [headerLength s₁.mem 0x300000, headerLength s₃.mem 0x302000],
    [s₄.mem 0x204005, byteSum s₄.mem 0x302000 44], memcmp s₃.mem 0x302000 madtSignature)

/-- What is read of the memory, evaluated. -/
theorem longXsdt_values :
    Linked.Spine (load64 longXsdt.mem) 0 longXsdt.freelist longFree ∧
      rsdpRevision longXsdt.mem 0xE0000 ≥ 2 ∧ xsdpXsdtAddress longXsdt.mem 0xE0000 = 0x300000 ∧
      headerLength longXsdt.mem 0x300000 = 4108 ∧ longXsdt.mem 0x301005 = 0x20 ∧
      byteSum longXsdt.mem 0x300000 10 = 0xB0 ∧ byteSum longXsdt.mem 0x301004 8 = 0x50 ∧
      load64 longXsdt.mem 0x301004 = 0x302000 ∧
      (headerLength longXsdt.mem 0x302000 = 44 ∧ longXsdt.mem 0x302005 = 0) ∧
      mapLong = .ok ([0x300000, 0x300000, 0x302000, 0x302000, 0x203000, 0x204000], [4108, 44],
        [0, 0], 0) := by
  decide +kernel

/-- The bytes between the RSDP and the free pages, and those between the header of the table and its
last entry. -/
theorem longXsdt_zero {x : Word} (off : 0xE0024 ≤ x.toNat ∧ x.toNat < 0x200000 ∨
    0x30000A ≤ x.toNat ∧ x.toNat < 0x301004) : longXsdt.mem x = 0 := by
  have madt : (0x302000 : Word).toNat = 0x302000 := rfl
  have entry : (0x301004 : Word).toNat = 0x301004 := rfl
  have table : (0x300000 : Word).toNat = 0x300000 := rfl
  have rsdp : (0xE0000 : Word).toNat = 0xE0000 := rfl
  have bytes : ∀ (m : Mem) (p : Word) (bytes : List Byte) (n : Nat), bytes.length = n →
      p.toNat + n ≤ 2 ^ 64 → (x.toNat < p.toNat ∨ p.toNat + n ≤ x.toNat) →
        putBytes m p bytes x = m x := by
    rintro m p bytes n rfl fits away
    exact putBytes_off away fits
  rw [longXsdt, putRsdp]
  dsimp only
  rw [bytes _ _ _ 44 rfl (by decide) (by omega), bytes _ _ _ 8 rfl (by decide) (by omega),
    bytes _ _ _ 10 rfl (by decide) (by omega), bytes _ _ _ 36 rfl (by decide) (by omega), demoPhys]
  dsimp only
  have word : ∀ (m : Mem) (a v : Word), 0x200000 ≤ a.toNat → a.toNat < 0x204000 →
      store64 m a v x = m x := by
    intro m a v low high
    refine if_neg ?_
    bv_omega
  rw [word _ _ _ (by decide) (by decide), word _ _ _ (by decide) (by decide),
    word _ _ _ (by decide) (by decide), word _ _ _ (by decide) (by decide)]

/-- A page of zeros is a table without entries. -/
theorem childTable_zeros {mem : Mem} {t : Word}
    (zeros : ∀ k < 4096, mem (t + BitVec.ofNat 64 k) = 0) (i : Fin 512) :
    childTable mem t i = none := by
  have same : readLE mem (slot t i.val) 8 = readLE (fun _ => 0) (slot t i.val) 8 := by
    refine readLE_congr fun k small => ?_
    rw [slot, BitVec.add_assoc, ← BitVec.ofNat_add]
    exact zeros _ (by omega)
  have zero : load64 mem (slot t i.val) = 0 := by
    rw [load64, same]
    simp [readLE]
  rw [childTable, zero, decode_zero]
  rfl

theorem longXsdt_bare (i : Fin 512) : childTable longXsdt.mem demoRoot i = none := by
  refine childTable_zeros (fun k inside => longXsdt_zero (.inl ?_)) i
  rw [demoRoot]
  bv_omega

theorem longFree_page : ∀ p ∈ longFree, IsPage demoLayout p ∧ p.toNat ≤ 0x204000 := by
  unfold longFree
  simp only [List.forall_mem_cons]
  exact ⟨by decide, by decide, by decide, by decide, by decide, List.forall_mem_nil _⟩

theorem longXsdt_tables : Tables demoLayout longXsdt demoRoot longFree :=
  tables_of_empty longXsdt_bare
    ⟨longXsdt_values.1, by decide, fun p member => (longFree_page p member).1⟩
    (by decide) (by decide)

/-- The bytes above the free pages are in no page of the page table. -/
theorem longXsdt_foreign {p : Word} {n : Nat} (low : 0x205000 ≤ p.toNat)
    (high : p.toNat + n < 2 ^ 63) : ForeignRange longXsdt.mem demoRoot longFree p n := by
  intro i inside
  refine ⟨fun q t _ found => ?_, fun page member => ?_⟩
  · rw [(tableAt_of_empty longXsdt_bare found).2, demoRoot]
    bv_omega
  · have below := (longFree_page page member).2
    bv_omega

theorem byteSum_add (m : Mem) (p : Word) (k n : Nat) :
    byteSum m p (k + n) = byteSum m p k + byteSum m (p + BitVec.ofNat 64 k) n := by
  induction n with
  | zero => exact (BitVec.add_zero _).symm
  | succ n ih =>
    rw [← Nat.add_assoc, byteSum, byteSum, ih, BitVec.add_assoc, BitVec.ofNat_add, BitVec.add_assoc]

theorem byteSum_zeros {m : Mem} {p : Word} {n : Nat}
    (zeros : ∀ i < n, m (p + BitVec.ofNat 64 i) = 0) : byteSum m p n = 0 := by
  induction n with
  | zero => rfl
  | succ n ih =>
    rw [byteSum, zeros n (Nat.lt_succ_self n), ih fun i early => zeros i (by omega)]
    rfl

theorem longXsdt_checksum : byteSum longXsdt.mem 0x300000 4108 = 0 := by
  obtain ⟨-, -, -, -, -, header, last, -⟩ := longXsdt_values
  have middle : byteSum longXsdt.mem 0x30000A 4090 = 0 := by
    refine byteSum_zeros fun i inside => longXsdt_zero (.inr ?_)
    bv_omega
  calc byteSum longXsdt.mem 0x300000 4108
      = byteSum longXsdt.mem 0x300000 10 + byteSum longXsdt.mem 0x30000A 4090 +
          byteSum longXsdt.mem 0x301004 8 := by
        rw [show 4108 = 10 + 4090 + 8 from rfl, byteSum_add, byteSum_add]
        rfl
    _ = 0 := by
        rw [header, middle, last]
        rfl

/-- An XSDT that `init_rsdt` accepts. -/
theorem initRsdt_accepts {cr3 rsdp p q : Word} {a : Acpi} {s t : Phys} (set : rsdp ≠ 0)
    (new : rsdpRevision a.phys.mem rsdp ≥ 2)
    (header : mapMmio cr3 (xsdpXsdtAddress a.phys.mem rsdp) pgsize a.phys = .ok (p, s))
    (mapped : p ≠ 0)
    (whole : mapWhole cr3 (xsdpXsdtAddress a.phys.mem rsdp) p (headerLength s.mem p) s = .ok (q, t))
    (mapped' : q ≠ 0) (checksum : acpiChecksumOk t.mem q (headerLength s.mem p) = true) :
    initRsdt cr3 rsdp a = .ok (some (headerLength s.mem p), ⟨t, q, true⟩) := by
  rw [initRsdt, if_neg set]
  dsimp only
  rw [decide_eq_true new, if_pos rfl, header]
  refine (if_neg mapped).trans ?_
  dsimp only
  rw [whole]
  refine (if_neg mapped').trans ?_
  exact if_neg (not_not.mpr checksum)

/-- A table that `rsdt_find_table` returns. -/
theorem findAddress_accepts {cr3 physAddr p q : Word} {signature : List Byte} {s t u : Phys}
    (large : ¬ (physAddr = 0 ∨ physAddr < pgsize))
    (header : mapMmio cr3 physAddr pgsize s = .ok (p, t)) (mapped : p ≠ 0)
    (carries : memcmp t.mem p signature = 0)
    (whole : mapMmio cr3 physAddr ((headerLength t.mem p).setWidth 64) t = .ok (q, u))
    (mapped' : q ≠ 0) (checksum : acpiChecksumOk u.mem q (headerLength t.mem p) = true) :
    findAddress cr3 signature physAddr s = .ok (some (some ⟨q, headerLength t.mem p⟩), u) := by
  rw [findAddress, if_neg large, header]
  refine (if_neg mapped).trans ((if_pos carries).trans ?_)
  dsimp only
  rw [whole]
  exact (if_neg mapped').trans (if_neg (not_not.mpr checksum))

/-- Entries that are zero are passed. -/
theorem findLoop_zeros {cr3 root : Word} {extended : Bool} {signature : List Byte} {rounds : Nat}
    {s t : Phys} {found : Option Found} {read : List Nat} :
    ∀ {k i : Nat}, (∀ j < k, pointerToOtherSdt s.mem root extended (i + j) = 0) →
      findLoop cr3 root extended signature rounds (i + k) s = .ok (found, read, t) →
        ∃ read', findLoop cr3 root extended signature (k + rounds) i s = .ok (found, read', t) := by
  intro k
  induction k with
  | zero =>
    intro i _ later
    exact ⟨read, by rw [Nat.zero_add]; exact later⟩
  | succ k ih =>
    intro i zeros later
    obtain ⟨read', rest⟩ := ih (i := i + 1)
      (fun j inside => by
        rw [Nat.add_assoc, Nat.add_comm 1 j]
        exact zeros (j + 1) (Nat.succ_lt_succ inside))
      (by rwa [Nat.add_assoc, Nat.add_comm 1 k])
    have zero : pointerToOtherSdt s.mem root extended i = 0 := zeros 0 (Nat.succ_pos k)
    have first : findEntry cr3 root extended signature i s = .ok (none, s) := by
      rw [findEntry, zero, findAddress, if_pos (.inl rfl)]
    refine ⟨i :: read', ?_⟩
    rw [Nat.succ_add, findLoop, first]
    show (findLoop cr3 root extended signature (k + rounds) (i + 1) s >>= _) = _
    rw [rest]
    rfl

section LongXsdt

variable {s : Phys} {free : List Word} (framed : Framed demoLayout demoRoot longXsdt longFree s free)

theorem longXsdt_table : ForeignRange longXsdt.mem demoRoot longFree 0x300000 (36 + 509 * 8) :=
  longXsdt_foreign (by decide) (by decide)

include framed

/-! What the long XSDT says is not changed by mappings. -/

theorem longXsdt_checked : acpiChecksumOk s.mem 0x300000 4108 = true := by
  have kept : byteSum s.mem 0x300000 4108 = byteSum longXsdt.mem 0x300000 4108 :=
    byteSum_congr fun i inside => framed.byte longXsdt_table inside
  exact decide_eq_true (kept.trans longXsdt_checksum)

theorem longXsdt_entry {i : Nat} (inside : i < 509) :
    pointerToOtherSdt s.mem 0x300000 true i =
      load64 longXsdt.mem (0x300000 + BitVec.ofNat 64 (headerSize + i * 8)) := by
  rw [framed.pointer_eq (n := 509) longXsdt_table inside, pointerToOtherSdt, entry_address]
  rfl

theorem longXsdt_entry_zero {i : Nat} (early : i < 508) :
    pointerToOtherSdt s.mem 0x300000 true i = 0 := by
  rw [longXsdt_entry framed (by omega)]
  have zero : readLE longXsdt.mem (0x300000 + BitVec.ofNat 64 (headerSize + i * 8)) 8 =
      readLE (fun _ => 0) (0x300000 + BitVec.ofNat 64 (headerSize + i * 8)) 8 :=
    readLE_congr fun k small => longXsdt_zero (.inr (by rw [headerSize]; bv_omega))
  rw [load64, zero]
  simp [readLE]

theorem longXsdt_count (stated : headerLength longXsdt.mem 0x300000 = 4108) :
    (rsdtGetEntryCount ⟨s, 0x300000, true⟩).toNat = 508 + 1 := by
  rw [entryCount_toNat (a := ⟨s, 0x300000, true⟩) (show (0x300000 : Word) ≠ 0 by decide),
    Acpi.rootLength, framed.headerLength_eq longXsdt_table (by decide), stated]
  change (2 ^ 64 - 36 + 4108) % 2 ^ 64 / 8 % 2 ^ 32 = 509
  norm_num

end LongXsdt

/-- Both tables are accepted, and the first free pages are those at `0x203000` and `0x204000`. -/
theorem longXsdt_accepted :
    ∃ s t read free, initRsdt demoRoot 0xE0000 ⟨longXsdt, 0, false⟩ =
        .ok (some 4108, ⟨s, 0x300000, true⟩) ∧
      rsdtFindTable demoRoot madtSignature ⟨s, 0x300000, true⟩ =
        .ok (some ⟨0x302000, 44⟩, read, t) ∧
      Framed demoLayout demoRoot longXsdt longFree t free ∧ t.freelist = 0x203000 ∧
      load64 t.mem 0x203000 = 0x204000 ∧ t.mem 0x204005 = 0 := by
  obtain ⟨-, new, address, stated, -, -, -, listed, -, maps⟩ := longXsdt_values
  obtain ⟨⟨p₁, s₁⟩, first, rest⟩ := bind_ok maps
  obtain ⟨⟨p₂, s₂⟩, second, rest⟩ := bind_ok rest
  obtain ⟨⟨p₃, s₃⟩, third, rest⟩ := bind_ok rest
  obtain ⟨⟨p₄, s₄⟩, fourth, last⟩ := bind_ok rest
  obtain ⟨free₁, framed₁⟩ := mapMmio_framed longXsdt_tables first
  obtain ⟨free₂, framed₂⟩ := mapMmio_framed framed₁.tables second
  obtain ⟨free₃, framed₃⟩ := mapMmio_framed framed₂.tables third
  obtain ⟨free₄, framed₄⟩ := mapMmio_framed framed₃.tables fourth
  have framed := framed₁.trans framed₂
  obtain ⟨⟨rfl, rfl, rfl, rfl, page, link⟩, ⟨length, size⟩, ⟨before, sum⟩, signature⟩ :
      (p₁ = 0x300000 ∧ p₂ = 0x300000 ∧ p₃ = 0x302000 ∧ p₄ = 0x302000 ∧ s₄.freelist = 0x203000 ∧
        load64 s₄.mem 0x203000 = 0x204000) ∧
      (headerLength s₁.mem 0x300000 = 4108 ∧ headerLength s₃.mem 0x302000 = 44) ∧
      (s₄.mem 0x204005 = 0 ∧ byteSum s₄.mem 0x302000 44 = 0) ∧
      memcmp s₃.mem 0x302000 madtSignature = 0 := by
    simpa using last
  have accepted := initRsdt_accepts (a := ⟨longXsdt, 0, false⟩)
    (show (0xE0000 : Word) ≠ 0 by decide) new (by rw [address]; exact first) (by decide)
    (by rw [address, length]; exact (if_pos (by decide)).trans second) (by decide)
    (by rw [length]; exact longXsdt_checked framed)
  rw [length] at accepted
  have found : findAddress demoRoot madtSignature 0x302000 s₂ =
      .ok (some (some ⟨0x302000, 44⟩), s₄) := by
    have searched := findAddress_accepts (by decide) third (by decide) signature
      (by rw [size]; exact fourth) (by decide) (by rw [size]; exact decide_eq_true sum)
    rw [size] at searched
    exact searched
  have final : findLoop demoRoot 0x300000 true madtSignature 1 508 s₂ =
      .ok (some ⟨0x302000, 44⟩, [508], s₄) := by
    rw [findLoop, findEntry, longXsdt_entry framed (by decide)]
    rw [show (0x300000 + BitVec.ofNat 64 (headerSize + 508 * 8) : Word) = 0x301004 from rfl, listed,
      found]
    rfl
  obtain ⟨read, searched⟩ := findLoop_zeros (k := 508) (i := 0) (fun j inside => by
    rw [Nat.zero_add]
    exact longXsdt_entry_zero framed inside) final
  refine ⟨s₂, s₄, read, free₄, accepted, ?_, (framed.trans framed₃).trans framed₄, page, link, before⟩
  rw [rsdtFindTable, if_neg (show (0x300000 : Word) ≠ 0 by decide), longXsdt_count framed stated]
  exact searched

/-- **A root table that is longer than a page**: it is accepted, its copy to the page at `0x203000`
goes on over the link of the next free page, and that page is the one that the copy of the MADT
takes. -/
theorem relocation_overruns :
    ∃ b t read, initRsdt demoRoot 0xE0000 ⟨longXsdt, 0, false⟩ = .ok (some 4108, b) ∧
      rsdtFindTable demoRoot madtSignature b = .ok (some ⟨0x302000, 44⟩, read, t) ∧
      t.mem 0x204005 = 0 ∧ (rsdtCopyToSafeMemory { b with phys := t }).rsdtRootPtr = 0x203000 ∧
      (rsdtCopyToSafeMemory { b with phys := t }).phys.mem 0x204005 = 0x20 ∧
      ¬ BothRelocated { b with phys := t } 0x302000
        (copyTablesToSafeMemory { b with phys := t } 0x302000) := by
  obtain ⟨s, t, read, free, accepted, searched, framed, page, link, before⟩ := longXsdt_accepted
  obtain ⟨-, -, -, stated, stored, -, -, -, ⟨stated', stored'⟩, -⟩ := longXsdt_values
  have table : ForeignRange longXsdt.mem demoRoot longFree 0x300000 4108 :=
    longXsdt_foreign (by decide) (by decide)
  have table' : ForeignRange longXsdt.mem demoRoot longFree 0x302000 44 :=
    longXsdt_foreign (by decide) (by decide)
  have length : headerLength t.mem 0x300000 = 4108 :=
    (framed.headerLength_eq table (by decide)).trans stated
  have length' : headerLength t.mem 0x302000 = 44 :=
    (framed.headerLength_eq table' (by decide)).trans stated'
  have byte : t.mem 0x301005 = 0x20 := (framed.byte table (i := 4101) (by decide)).trans stored
  have byte' : t.mem 0x302005 = 0 := (framed.byte table' (i := 5) (by decide)).trans stored'
  have copied := copyToSafeMemory_page (show (0x300000 : Word) ≠ 0 by decide)
    (show t.freelist ≠ 0 by rw [page]; decide)
  rw [page, length, link] at copied
  refine ⟨⟨s, 0x300000, true⟩, t, read, accepted, searched, before, ?_, ?_, ?_⟩
  · rw [rsdtCopyToSafeMemory, copied]
  · -- Byte 4101 is read from where no round has stored, and stored behind the page.
    have place : (0x204005 : Word) = 0x203000 + BitVec.ofNat 64 4101 := rfl
    have source : (0x300000 : Word) + BitVec.ofNat 64 4101 = 0x301005 := rfl
    rw [rsdtCopyToSafeMemory, copied]
    dsimp only
    rw [place, copyUp_stored _ _ _ (by decide) (by decide), source,
      copyUp_outside _ _ _ (by decide) (by decide)]
    exact byte
  · -- Byte 4101 of one table and byte 5 of the other have the same place.
    rintro ⟨root, madt, -⟩
    dsimp only at root madt
    rw [takenFor_some (by rw [page]; decide), page] at root
    rw [rsdtCopyToSafeMemory, copied] at madt
    dsimp only at madt
    rw [takenFor_some (show ¬ ((0x302000 : Word) = 0 ∨ (0x204000 : Word) = 0) by decide)] at madt
    have first := root.2 4101 (by rw [length]; decide)
    have second := madt.2 5 (by rw [length']; decide)
    have wanted : (0x20 : Byte) = 0 := byte.symm.trans (first.symm.trans (second.trans byte'))
    exact absurd wanted (by decide)

end ShipOS
