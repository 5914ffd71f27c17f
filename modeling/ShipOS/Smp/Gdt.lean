/-
**Segments and task state of a CPU (`percpu_setup_gdt`, `setup_tss` of `percpu.c`).**

Each `struct percpu` has its own GDT, the pointer that `lgdt` loads, and its own TSS. A descriptor has
its base and its limit in pieces; the processor puts them together again.

* `segmentAt_stored`, `tssDescriptorAt_stored` — the round trips: `set_gdt_entry` keeps 20 bits of the
  limit and the upper half of the flags, `set_tss_entry` the whole base;
* `loaded_setup` — what `percpu_load_gdt` then loads: the kernel's and the user's segments at their
  selectors, and the CPU's own TSS;
* `setupTss_pointers` — the stack pointers in the TSS are those of the CPU's stacks.
-/

import ShipOS.Lib.ByteMem
import ShipOS.Lib.Runs
import ShipOS.Memory.Kalloc

namespace ShipOS

open ByteMem Separate

/-! ### The code -/

/-- The offsets of the fields of `struct percpu`. -/
def tssOffset : Nat := 80

def intStackOffset : Nat := 184

def kstackOffset : Nat := 192

def gdtOffset : Nat := 208

def gdtPtrOffset : Nat := 288

/-- `sizeof(struct percpu)`. -/
def percpuSize : Nat := 384

/-- `sizeof(struct tss64)`. -/
def tssSize : Nat := 104

/-- `sizeof(cpu->gdt)`. -/
def gdtSize : Nat := 8 * 8 + 16

/-- The stores of `set_gdt_entry`. -/
def gdtEntryFields (entry : Nat) (base limit : BitVec 32) (access flags : Byte) : List Field :=
  [⟨entry, 2, (limit &&& 0xFFFF).toNat⟩,
   ⟨entry + 2, 2, (base &&& 0xFFFF).toNat⟩,
   ⟨entry + 4, 1, ((base >>> 16) &&& 0xFF).toNat⟩,
   ⟨entry + 5, 1, access.toNat⟩,
   ⟨entry + 6, 1, (((limit >>> 16) &&& 0x0F) ||| (flags &&& 0xF0).setWidth 32).toNat⟩,
   ⟨entry + 7, 1, ((base >>> 24) &&& 0xFF).toNat⟩]

/-- The stores of `set_tss_entry`. -/
def tssEntryFields (entry : Nat) (base : Word) (limit : BitVec 32) : List Field :=
  [⟨entry, 2, (limit &&& 0xFFFF).toNat⟩,
   ⟨entry + 2, 2, (base &&& 0xFFFF).toNat⟩,
   ⟨entry + 4, 1, ((base >>> 16) &&& 0xFF).toNat⟩,
   ⟨entry + 5, 1, 0x89⟩,
   ⟨entry + 6, 1, ((limit >>> 16) &&& 0x0F).toNat⟩,
   ⟨entry + 7, 1, ((base >>> 24) &&& 0xFF).toNat⟩,
   ⟨entry + 8, 4, ((base >>> 32) &&& 0xFFFFFFFF).toNat⟩,
   ⟨entry + 12, 4, 0⟩]

/-- The selector, the access byte and the flags of a segment. -/
structure SegmentEntry where
  selector : Nat
  access : Byte
  flags : Byte

/-- The segments of `percpu_setup_gdt`: code and data of the kernel and of users. -/
def segmentEntries : List SegmentEntry :=
  [⟨0x08, 0x9A, 0xA0⟩, ⟨0x10, 0x92, 0x80⟩, ⟨0x18, 0xFA, 0xA0⟩, ⟨0x20, 0xF2, 0x80⟩]

/-- The stores of `percpu_setup_gdt` after the null descriptor. -/
def gdtFields (cpu : Word) : List Field :=
  (segmentEntries.flatMap fun e =>
    gdtEntryFields (gdtOffset + e.selector) 0 0xFFFFF e.access e.flags) ++
  (tssEntryFields (gdtOffset + 0x28) (cpu + BitVec.ofNat 64 tssOffset)
    (BitVec.ofNat 32 (tssSize - 1)) ++
  [⟨gdtPtrOffset, 2, gdtSize - 1⟩, ⟨gdtPtrOffset + 2, 8, (cpu + BitVec.ofNat 64 gdtOffset).toNat⟩])

/-- `percpu_setup_gdt`, store by store. -/
def setupGdtSteps (cpu : Word) : List (Mem → Mem) :=
  (fun m => memset m (cpu + BitVec.ofNat 64 gdtOffset) 0 8) ::
    (gdtFields cpu).map fun f m => f.store cpu m

def percpuSetupGdt (m : Mem) (cpu : Word) : Mem := run (setupGdtSteps cpu) m

/-- The end of a stack of one page, or null without a stack. -/
def stackEnd (stack : Word) : Word := if stack = 0 then 0 else stack + 4096

/-- `if (cpu->kstack) cpu->tss.rsp0 = cpu->kstack + 4096`, and the same for the interrupt stack. -/
def storeStackEnd (cpu : Word) (stack pointer : Nat) (m : Mem) : Mem :=
  let base := load64 m (cpu + BitVec.ofNat 64 stack)
  if base = 0 then m else store64 m (cpu + BitVec.ofNat 64 pointer) (base + 4096)

/-- `setup_tss`, store by store. -/
def setupTssSteps (cpu : Word) : List (Mem → Mem) :=
  [fun m => memset m (cpu + BitVec.ofNat 64 tssOffset) 0 tssSize,
   storeStackEnd cpu kstackOffset (tssOffset + 4),
   storeStackEnd cpu intStackOffset (tssOffset + 36),
   fun m => Field.store cpu m ⟨tssOffset + 102, 2, tssSize⟩]

def setupTss (m : Mem) (cpu : Word) : Mem := run (setupTssSteps cpu) m

/-! ### The processor's view -/

/-- A code or data segment. -/
structure Segment where
  base : BitVec 32
  limit : BitVec 20
  access : Byte
  flags : BitVec 4
  deriving DecidableEq, Repr

/-- The `n` bytes at `offset` of a record. -/
def part (m : Mem) (record : Word) (offset n : Nat) : Nat :=
  readLE m (record + BitVec.ofNat 64 offset) n

/-- The segment descriptor at `entry` of a record. -/
def segmentAt (m : Mem) (record : Word) (entry : Nat) : Segment where
  base := BitVec.ofNat 32 (part m record (entry + 2) 2 + 2 ^ 16 * part m record (entry + 4) 1 +
    2 ^ 24 * part m record (entry + 7) 1)
  limit := BitVec.ofNat 20
    (part m record entry 2 + 2 ^ 16 * (part m record (entry + 6) 1 % 2 ^ 4))
  access := BitVec.ofNat 8 (part m record (entry + 5) 1)
  flags := BitVec.ofNat 4 (part m record (entry + 6) 1 / 2 ^ 4)

/-- The descriptor of a TSS. -/
structure TssDescriptor where
  base : Word
  limit : BitVec 20
  access : Byte
  deriving DecidableEq, Repr

def tssDescriptorAt (m : Mem) (record : Word) (entry : Nat) : TssDescriptor where
  base := BitVec.ofNat 64 (part m record (entry + 2) 2 + 2 ^ 16 * part m record (entry + 4) 1 +
    2 ^ 24 * part m record (entry + 7) 1 + 2 ^ 32 * part m record (entry + 8) 4)
  limit := BitVec.ofNat 20
    (part m record entry 2 + 2 ^ 16 * (part m record (entry + 6) 1 % 2 ^ 4))
  access := BitVec.ofNat 8 (part m record (entry + 5) 1)

/-- What `lgdt` loads from `gdt_ptr`: the address of the table and its limit. -/
def gdtrOf (m : Mem) (cpu : Word) : Word × Nat :=
  (BitVec.ofNat 64 (part m cpu (gdtPtrOffset + 2) 8), part m cpu gdtPtrOffset 2)

/-- RSP0 and IST1 as the CPU finds them: from its GDTR over the descriptor at `GDT_TSS`, which `ltr`
loads. -/
def loadedStacks (m : Mem) (cpu : Word) : Word × Word :=
  let tss := (tssDescriptorAt m (gdtrOf m cpu).1 0x28).base
  (load64 m (tss + 4), load64 m (tss + 36))

/-- **What `percpu_load_gdt` loads**: the CPU's own table, in it the null descriptor, the segments of
the kernel and of users over all addresses, and the CPU's own TSS with its stacks. -/
structure LoadedTables (m : Mem) (cpu rsp0 ist1 : Word) : Prop where
  gdtr : gdtrOf m cpu = (cpu + BitVec.ofNat 64 gdtOffset, 79)
  empty : part m (gdtrOf m cpu).1 0 8 = 0
  segments : ∀ e ∈ segmentEntries, segmentAt m (gdtrOf m cpu).1 e.selector =
    ⟨0, 0xFFFFF, e.access, (e.flags >>> 4).setWidth 4⟩
  tss : tssDescriptorAt m (gdtrOf m cpu).1 0x28 = ⟨cpu + BitVec.ofNat 64 tssOffset, 103, 0x89⟩
  pointers : loadedStacks m cpu = (rsp0, ist1)

variable {m : Mem} {record : Word} {fs : List Field} {entry size : Nat}

theorem toNat_and_ones {w : Nat} (x : BitVec w) (k : Nat) (bound : k ≤ w) :
    (x &&& BitVec.ofNat w (2 ^ k - 1)).toNat = x.toNat % 2 ^ k := by
  have small : 2 ^ k - 1 < 2 ^ w := by
    have := Nat.pow_le_pow_right (Nat.zero_lt_two) bound
    have := Nat.two_pow_pos k
    omega
  rw [BitVec.toNat_and, BitVec.toNat_ofNat, Nat.mod_eq_of_lt small, Nat.and_two_pow_sub_one_eq_mod]

/-- The byte that holds the upper bits of the limit and the flags. -/
theorem granularity_toNat (limit : BitVec 32) (flags : Byte) :
    (((limit >>> 16) &&& 0x0F) ||| (flags &&& 0xF0).setWidth 32).toNat =
      16 * (flags.toNat / 16) + limit.toNat / 2 ^ 16 % 16 := by
  have high : ∀ f : Byte, (f &&& 0xF0).toNat = 2 ^ 4 * (f.toNat / 16) := by decide
  have low : ((limit >>> 16) &&& 0x0F).toNat = limit.toNat / 2 ^ 16 % 2 ^ 4 := by
    rw [← Nat.shiftRight_eq_div_pow, ← BitVec.toNat_ushiftRight]
    exact toNat_and_ones (limit >>> 16) 4 (by decide)
  have bound := flags.isLt
  have fits : 2 ^ 4 * (flags.toNat / 16) < 2 ^ 32 := by omega
  rw [BitVec.toNat_or, BitVec.toNat_setWidth, high, low, Nat.mod_eq_of_lt fits, Nat.or_comm,
    ← Nat.two_pow_add_eq_or_of_lt (Nat.mod_lt _ (by decide))]

/-- The stored fields. -/
theorem parts_stored (m : Mem) (record : Word) {parts : List Field} (small : size ≤ 2 ^ 64)
    (spaced : Spaced size fs) (among : parts ⊆ fs) : ∀ f ∈ parts,
      part (storeFields m record fs) record f.offset f.width = f.value % 256 ^ f.width :=
  fun _ member => readLE_storeFields (among member) small spaced

/-- **The round trip of a segment descriptor.** -/
theorem segmentAt_stored {base limit : BitVec 32} {access flags : Byte} (small : size ≤ 2 ^ 64)
    (spaced : Spaced size fs) (among : gdtEntryFields entry base limit access flags ⊆ fs) :
    segmentAt (storeFields m record fs) record entry =
      ⟨base, limit.setWidth 20, access, (flags >>> 4).setWidth 4⟩ := by
  have stored := parts_stored m record small spaced among
  simp only [gdtEntryFields, List.forall_mem_cons] at stored
  obtain ⟨limitLow, baseLow, baseMiddle, accessByte, granularity, baseHigh, -⟩ := stored
  have low : ∀ x : BitVec 32, (x &&& 0xFFFF).toNat = x.toNat % 2 ^ 16 := fun x =>
    toNat_and_ones x 16 (by decide)
  have byte : ∀ x : BitVec 32, (x &&& 0xFF).toNat = x.toNat % 2 ^ 8 := fun x =>
    toNat_and_ones x 8 (by decide)
  have := base.isLt
  have := limit.isLt
  have := flags.isLt
  simp only [segmentAt, limitLow, baseLow, baseMiddle, accessByte, granularity, baseHigh, low, byte,
    granularity_toNat, BitVec.toNat_ushiftRight, Nat.shiftRight_eq_div_pow, Segment.mk.injEq]
  refine ⟨?_, ?_, ?_, ?_⟩
  · apply BitVec.eq_of_toNat_eq
    rw [BitVec.toNat_ofNat]
    omega
  · apply BitVec.eq_of_toNat_eq
    rw [BitVec.toNat_ofNat, BitVec.toNat_setWidth]
    omega
  · apply BitVec.eq_of_toNat_eq
    rw [BitVec.toNat_ofNat]
    omega
  · apply BitVec.eq_of_toNat_eq
    rw [BitVec.toNat_ofNat, BitVec.toNat_setWidth, BitVec.toNat_ushiftRight,
      Nat.shiftRight_eq_div_pow]
    omega

/-- **The round trip of a TSS descriptor.** -/
theorem tssDescriptorAt_stored {base : Word} {limit : BitVec 32} (small : size ≤ 2 ^ 64)
    (spaced : Spaced size fs) (among : tssEntryFields entry base limit ⊆ fs) :
    tssDescriptorAt (storeFields m record fs) record entry = ⟨base, limit.setWidth 20, 0x89⟩ := by
  have stored := parts_stored m record small spaced among
  simp only [tssEntryFields, List.forall_mem_cons] at stored
  obtain ⟨limitLow, baseLow, baseMiddle1, access, limitHigh, baseMiddle2, baseHigh, -⟩ := stored
  have low : ∀ x : Word, (x &&& 0xFFFF).toNat = x.toNat % 2 ^ 16 := fun x =>
    toNat_and_ones x 16 (by decide)
  have byte : ∀ x : Word, (x &&& 0xFF).toNat = x.toNat % 2 ^ 8 := fun x =>
    toNat_and_ones x 8 (by decide)
  have half : ∀ x : Word, (x &&& 0xFFFFFFFF).toNat = x.toNat % 2 ^ 32 := fun x =>
    toNat_and_ones x 32 (by decide)
  have limits : (limit &&& 0xFFFF).toNat = limit.toNat % 2 ^ 16 := toNat_and_ones limit 16 (by decide)
  have nibble : ((limit >>> 16) &&& 0x0F).toNat = limit.toNat / 2 ^ 16 % 2 ^ 4 := by
    rw [← Nat.shiftRight_eq_div_pow, ← BitVec.toNat_ushiftRight]
    exact toNat_and_ones (limit >>> 16) 4 (by decide)
  have := base.isLt
  have := limit.isLt
  simp only [tssDescriptorAt, limitLow, baseLow, baseMiddle1, access, limitHigh, baseMiddle2, baseHigh,
    low, byte, half, limits, nibble, BitVec.toNat_ushiftRight, Nat.shiftRight_eq_div_pow,
    TssDescriptor.mk.injEq]
  refine ⟨?_, ?_, rfl⟩
  · apply BitVec.eq_of_toNat_eq
    rw [BitVec.toNat_ofNat]
    omega
  · apply BitVec.eq_of_toNat_eq
    rw [BitVec.toNat_ofNat, BitVec.toNat_setWidth]
    omega

/-! ### The tables of a CPU -/

/-- A record inside another one. -/
theorem part_inside (m : Mem) (record : Word) (base offset n : Nat) :
    part m (record + BitVec.ofNat 64 base) offset n = part m record (base + offset) n := by
  rw [part, part, BitVec.add_assoc, BitVec.ofNat_add]

theorem segmentAt_inside (m : Mem) (record : Word) (base entry : Nat) :
    segmentAt m (record + BitVec.ofNat 64 base) entry = segmentAt m record (base + entry) := by
  simp only [segmentAt, part_inside, Nat.add_assoc]

theorem tssDescriptorAt_inside (m : Mem) (record : Word) (base entry : Nat) :
    tssDescriptorAt m (record + BitVec.ofNat 64 base) entry =
      tssDescriptorAt m record (base + entry) := by
  simp only [tssDescriptorAt, part_inside, Nat.add_assoc]

theorem small_percpu : percpuSize ≤ 2 ^ 64 := by decide

/-- Where the fields are does not depend on the CPU. -/
theorem gdtFields_shape (cpu : Word) : (gdtFields cpu).map (fun f => (f.offset, f.width)) =
    (gdtFields 0).map fun f => (f.offset, f.width) := rfl

theorem gdtFields_spaced (cpu : Word) : Spaced percpuSize (gdtFields cpu) :=
  spaced_of_shape (gdtFields_shape cpu) (by decide) (by decide)

theorem percpuSetupGdt_eq (m : Mem) (cpu : Word) : percpuSetupGdt m cpu =
    storeFields (memset m (cpu + BitVec.ofNat 64 gdtOffset) 0 8) cpu (gdtFields cpu) := by
  rw [percpuSetupGdt, setupGdtSteps, run, List.foldl_cons, List.foldl_map]
  rfl

variable (m) (cpu : Word)

theorem gdtrOf_setupGdt :
    gdtrOf (percpuSetupGdt m cpu) cpu = (cpu + BitVec.ofNat 64 gdtOffset, 79) := by
  have ptr : [⟨gdtPtrOffset, 2, gdtSize - 1⟩,
      ⟨gdtPtrOffset + 2, 8, (cpu + BitVec.ofNat 64 gdtOffset).toNat⟩] ⊆ gdtFields cpu :=
    fun _ field => List.mem_append_right _ (List.mem_append_right _ field)
  have stored := parts_stored (memset m (cpu + BitVec.ofNat 64 gdtOffset) 0 8) cpu small_percpu
    (gdtFields_spaced cpu) ptr
  rw [← percpuSetupGdt_eq] at stored
  simp only [List.forall_mem_cons] at stored
  obtain ⟨limit, base, -⟩ := stored
  have whole : (cpu + BitVec.ofNat 64 gdtOffset).toNat % 256 ^ 8 =
      (cpu + BitVec.ofNat 64 gdtOffset).toNat := Nat.mod_eq_of_lt (BitVec.isLt _)
  rw [gdtrOf, limit, base, whole, BitVec.ofNat_toNat, BitVec.setWidth_eq]
  rfl

/-- Outside the descriptors and the pointer to them nothing changes. -/
theorem part_setupGdt {x n : Nat} (inside : x + n ≤ percpuSize)
    (apart : x + n ≤ gdtOffset ∨ gdtPtrOffset + 10 ≤ x) (positive : 0 < n) :
    part (percpuSetupGdt m cpu) cpu x n = part m cpu x n := by
  have within : ∀ s ∈ (gdtFields 0).map (fun f => (f.offset, f.width)),
      gdtOffset ≤ s.1 ∧ s.1 + s.2 ≤ gdtPtrOffset + 10 := by decide
  have clear : ∀ f ∈ gdtFields cpu, f.Clear percpuSize x n := by
    intro f member
    have bounds := within _ (gdtFields_shape cpu ▸ List.mem_map_of_mem member)
    dsimp only at bounds
    exact ⟨(gdtFields_spaced cpu).inside f member, by omega⟩
  have small := small_percpu
  rw [percpuSetupGdt_eq]
  refine (readLE_storeFields_clear small_percpu inside clear).trans (readLE_fill_apart m 0 ?_)
  refine apart_of_offsets cpu (by decide) positive (by decide) (by omega) ?_
  simp only [gdtOffset, gdtPtrOffset] at apart ⊢
  omega

/-- No entry meets the null descriptor. -/
theorem null_setupGdt : part (percpuSetupGdt m cpu) cpu gdtOffset 8 = 0 := by
  have apart : ∀ s ∈ (gdtFields 0).map (fun f => (f.offset, f.width)),
      s.1 + s.2 ≤ gdtOffset ∨ gdtOffset + 8 ≤ s.1 := by decide
  have clear : ∀ f ∈ gdtFields cpu, f.Clear percpuSize gdtOffset 8 := fun f member =>
    ⟨(gdtFields_spaced cpu).inside f member,
      apart _ (gdtFields_shape cpu ▸ List.mem_map_of_mem member)⟩
  rw [percpuSetupGdt_eq]
  refine (readLE_storeFields_clear small_percpu (by decide) clear).trans ?_
  have zero := readLE_fill_zero m (cpu + BitVec.ofNat 64 gdtOffset)
    (show 8 ≤ 2 ^ 64 by decide) (show 0 + 8 ≤ 8 by decide)
  rwa [BitVec.add_zero] at zero

theorem segmentAt_setupGdt {e : SegmentEntry} (member : e ∈ segmentEntries) :
    segmentAt (percpuSetupGdt m cpu) cpu (gdtOffset + e.selector) =
      ⟨0, 0xFFFFF, e.access, (e.flags >>> 4).setWidth 4⟩ := by
  have among : gdtEntryFields (gdtOffset + e.selector) 0 0xFFFFF e.access e.flags ⊆
      gdtFields cpu := fun f field =>
    List.mem_append_left _ (List.mem_flatMap.mpr ⟨e, member, field⟩)
  rw [percpuSetupGdt_eq]
  exact segmentAt_stored small_percpu (gdtFields_spaced cpu) among

theorem tssDescriptorAt_setupGdt : tssDescriptorAt (percpuSetupGdt m cpu) cpu (gdtOffset + 0x28) =
    ⟨cpu + BitVec.ofNat 64 tssOffset, 103, 0x89⟩ := by
  have among : tssEntryFields (gdtOffset + 0x28) (cpu + BitVec.ofNat 64 tssOffset)
      (BitVec.ofNat 32 (tssSize - 1)) ⊆ gdtFields cpu := fun f field =>
    List.mem_append_right _ (List.mem_append_left _ field)
  rw [percpuSetupGdt_eq]
  exact tssDescriptorAt_stored small_percpu (gdtFields_spaced cpu) among

/-! ### The stacks in the TSS -/

variable {m cpu}

theorem load64_part (m : Mem) (cpu : Word) (x : Nat) :
    load64 m (cpu + BitVec.ofNat 64 x) = BitVec.ofNat 64 (part m cpu x 8) := rfl

theorem part_fill {start size x n : Nat} (inside : x + n ≤ percpuSize)
    (fits : start + size ≤ percpuSize)
    (positive : 0 < n) (filled : 0 < size) (apart : x + n ≤ start ∨ start + size ≤ x) :
    part (memset m (cpu + BitVec.ofNat 64 start) 0 size) cpu x n = part m cpu x n := by
  have small := small_percpu
  exact readLE_fill_apart m 0
    (apart_of_offsets cpu filled positive (by omega) (by omega) (by omega))

theorem part_storeStackEnd {stack pointer x n : Nat} (inside : x + n ≤ percpuSize)
    (fits : pointer + 8 ≤ percpuSize) (positive : 0 < n) (apart : x + n ≤ pointer ∨ pointer + 8 ≤ x) :
    part (storeStackEnd cpu stack pointer m) cpu x n = part m cpu x n := by
  have small := small_percpu
  rw [storeStackEnd]
  split
  · rfl
  · exact readLE_writeLE_apart m _
      (apart_of_offsets cpu (by decide) positive (by omega) (by omega) (by omega))

theorem storeStackEnd_pointer {stack pointer : Nat} (zero : part m cpu pointer 8 = 0) :
    load64 (storeStackEnd cpu stack pointer m) (cpu + BitVec.ofNat 64 pointer) =
      stackEnd (load64 m (cpu + BitVec.ofNat 64 stack)) := by
  rw [storeStackEnd, stackEnd]
  split
  · rw [load64_part, zero]
    rfl
  · exact load64_store64_self _ _ _

/-- **The stacks in the TSS**: those of the CPU's own pages, or null. -/
theorem setupTss_pointers (m : Mem) (cpu : Word) :
    load64 (setupTss m cpu) (cpu + BitVec.ofNat 64 (tssOffset + 4)) =
        stackEnd (load64 m (cpu + BitVec.ofNat 64 kstackOffset)) ∧
      load64 (setupTss m cpu) (cpu + BitVec.ofNat 64 (tssOffset + 36)) =
        stackEnd (load64 m (cpu + BitVec.ofNat 64 intStackOffset)) := by
  let m₁ := memset m (cpu + BitVec.ofNat 64 tssOffset) 0 tssSize
  let m₂ := storeStackEnd cpu kstackOffset (tssOffset + 4) m₁
  let m₃ := storeStackEnd cpu intStackOffset (tssOffset + 36) m₂
  have last : ∀ x, x + 8 ≤ tssOffset + 102 →
      load64 (setupTss m cpu) (cpu + BitVec.ofNat 64 x) = load64 m₃ (cpu + BitVec.ofNat 64 x) := by
    intro x before
    have clear : Field.Clear ⟨tssOffset + 102, 2, tssSize⟩ percpuSize x 8 :=
      ⟨by decide, .inr before⟩
    simp only [tssOffset] at before
    have same := readLE_store_clear m₃ cpu small_percpu clear
      (by simp only [percpuSize]; omega)
    exact congrArg (BitVec.ofNat 64) same
  have cleared : ∀ x, tssOffset ≤ x → x + 8 ≤ tssOffset + tssSize → part m₁ cpu x 8 = 0 := by
    intro x low high
    obtain ⟨k, rfl⟩ := Nat.exists_eq_add_of_le low
    have zero := readLE_fill_zero m (cpu + BitVec.ofNat 64 tssOffset)
      (show tssSize ≤ 2 ^ 64 by decide) (show k + 8 ≤ tssSize by omega)
    exact (part_inside m₁ cpu tssOffset k 8).symm.trans zero
  have kept : ∀ x, x = kstackOffset ∨ x = intStackOffset →
      load64 m₁ (cpu + BitVec.ofNat 64 x) = load64 m (cpu + BitVec.ofNat 64 x) := by
    rintro x (rfl | rfl) <;>
      exact congrArg (BitVec.ofNat 64)
        (part_fill (by decide) (by decide) (by decide) (by decide) (by decide))
  have second : part m₂ cpu (tssOffset + 36) 8 = 0 :=
    (part_storeStackEnd (by decide) (by decide) (by decide) (by decide)).trans
      (cleared _ (by decide) (by decide))
  have loads : load64 m₂ (cpu + BitVec.ofNat 64 intStackOffset) =
      load64 m₁ (cpu + BitVec.ofNat 64 intStackOffset) :=
    congrArg (BitVec.ofNat 64) (part_storeStackEnd (by decide) (by decide) (by decide) (by decide))
  constructor
  · have later : load64 m₃ (cpu + BitVec.ofNat 64 (tssOffset + 4)) =
        load64 m₂ (cpu + BitVec.ofNat 64 (tssOffset + 4)) :=
      congrArg (BitVec.ofNat 64) (part_storeStackEnd (by decide) (by decide) (by decide) (by decide))
    rw [last _ (by decide), later, storeStackEnd_pointer (cleared _ (by decide) (by decide)),
      kept _ (.inl rfl)]
  · rw [last _ (by decide), storeStackEnd_pointer second, loads, kept _ (.inr rfl)]

/-- **The tables of a CPU after `setup_tss` and `percpu_setup_gdt`.** -/
theorem loaded_setup (m : Mem) (cpu : Word) :
    LoadedTables (percpuSetupGdt (setupTss m cpu) cpu) cpu
      (stackEnd (load64 m (cpu + BitVec.ofNat 64 kstackOffset)))
      (stackEnd (load64 m (cpu + BitVec.ofNat 64 intStackOffset))) := by
  have gdtr := gdtrOf_setupGdt (setupTss m cpu) cpu
  have tss := tssDescriptorAt_setupGdt (setupTss m cpu) cpu
  rw [← tssDescriptorAt_inside] at tss
  obtain ⟨rsp0, ist1⟩ := setupTss_pointers m cpu
  have pointer : ∀ x, x + 8 ≤ tssSize →
      load64 (percpuSetupGdt (setupTss m cpu) cpu)
          (cpu + BitVec.ofNat 64 tssOffset + BitVec.ofNat 64 x) =
        load64 (setupTss m cpu) (cpu + BitVec.ofNat 64 (tssOffset + x)) := by
    intro x inside
    rw [load64_part, load64_part, part_inside, part_setupGdt]
    all_goals simp only [tssOffset, tssSize, percpuSize, gdtOffset, gdtPtrOffset] at *
    all_goals omega
  refine ⟨gdtr, ?_, fun e member => ?_, ?_, ?_⟩
  · rw [gdtr, part_inside]
    exact null_setupGdt _ _
  · rw [gdtr, segmentAt_inside]
    exact segmentAt_setupGdt _ _ member
  · rw [gdtr]
    exact tss
  · rw [loadedStacks, gdtr, tss, ← rsp0, ← ist1]
    exact Prod.ext (pointer 4 (by decide)) (pointer 36 (by decide))

/-- Outside the TSS nothing changes. -/
theorem part_setupTss {x n : Nat} (inside : x + n ≤ percpuSize)
    (apart : x + n ≤ tssOffset ∨ tssOffset + tssSize ≤ x) (positive : 0 < n) :
    part (setupTss m cpu) cpu x n = part m cpu x n := by
  have clear : Field.Clear ⟨tssOffset + 102, 2, tssSize⟩ percpuSize x n :=
    ⟨by decide, by simp only [tssSize] at apart ⊢; omega⟩
  have pointer : ∀ y, y + 8 ≤ tssSize → x + n ≤ tssOffset + y ∨ tssOffset + y + 8 ≤ x := by
    intro y bound
    omega
  refine (readLE_store_clear _ cpu small_percpu clear inside).trans ?_
  refine (part_storeStackEnd inside (by decide) positive (pointer 36 (by decide))).trans ?_
  refine (part_storeStackEnd inside (by decide) positive (pointer 4 (by decide))).trans ?_
  exact part_fill inside (by decide) positive (by decide) apart

/-! ### A record and its tables are in one place -/

section

variable {m' : Mem} {start size : Nat} (same : SameOn (cpu + BitVec.ofNat 64 start) size m m')
include same

theorem part_congr {x n : Nat} (low : start ≤ x) (high : x + n ≤ start + size) :
    part m' cpu x n = part m cpu x n := by
  refine readLE_congr fun i hi => same _ ?_
  obtain ⟨k, rfl⟩ := Nat.exists_eq_add_of_le low
  have offset : cpu + BitVec.ofNat 64 (start + k) + BitVec.ofNat 64 i -
      (cpu + BitVec.ofNat 64 start) = BitVec.ofNat 64 (k + i) := by
    rw [BitVec.ofNat_add, BitVec.ofNat_add]
    bv_omega
  rw [Within, offset, BitVec.toNat_ofNat]
  exact (Nat.mod_le _ _).trans_lt (by omega)

theorem segmentAt_congr {entry : Nat} (low : start ≤ entry) (high : entry + 8 ≤ start + size) :
    segmentAt m' cpu entry = segmentAt m cpu entry := by
  rw [segmentAt, segmentAt, part_congr same, part_congr same, part_congr same, part_congr same,
    part_congr same, part_congr same]
  all_goals omega

theorem tssDescriptorAt_congr {entry : Nat} (low : start ≤ entry) (high : entry + 12 ≤ start + size) :
    tssDescriptorAt m' cpu entry = tssDescriptorAt m cpu entry := by
  rw [tssDescriptorAt, tssDescriptorAt, part_congr same, part_congr same, part_congr same,
    part_congr same, part_congr same, part_congr same, part_congr same]
  all_goals omega

end

/-- Whatever happens outside these fields, the CPU finds the same tables. -/
theorem LoadedTables.congr {m' : Mem} {rsp0 ist1 : Word} (loaded : LoadedTables m cpu rsp0 ist1)
    (same : SameOn (cpu + BitVec.ofNat 64 tssOffset) (percpuSize - tssOffset) m m') :
    LoadedTables m' cpu rsp0 ist1 := by
  have selectors : ∀ e ∈ segmentEntries,
      tssOffset ≤ gdtOffset + e.selector ∧ gdtOffset + e.selector + 8 ≤ percpuSize := by decide
  have gdtr : gdtrOf m' cpu = gdtrOf m cpu := by
    rw [gdtrOf, gdtrOf, part_congr same (by decide) (by decide),
      part_congr same (by decide) (by decide)]
  have table : tssDescriptorAt m' (gdtrOf m cpu).1 0x28 = tssDescriptorAt m (gdtrOf m cpu).1 0x28 := by
    rw [loaded.gdtr, tssDescriptorAt_inside, tssDescriptorAt_inside,
      tssDescriptorAt_congr same (by decide) (by decide)]
  have pointer : ∀ x, tssOffset + x + 8 ≤ percpuSize →
      load64 m' (cpu + BitVec.ofNat 64 tssOffset + BitVec.ofNat 64 x) =
        load64 m (cpu + BitVec.ofNat 64 tssOffset + BitVec.ofNat 64 x) := by
    intro x inside
    rw [load64_part, load64_part, part_inside, part_inside,
      part_congr same (Nat.le_add_right _ _) inside]
  refine ⟨gdtr.trans loaded.gdtr, ?_, fun e member => ?_, ?_, ?_⟩
  · have empty := loaded.empty
    rw [loaded.gdtr, part_inside] at empty
    rw [gdtr, loaded.gdtr, part_inside, part_congr same (by decide) (by decide), empty]
  · obtain ⟨low, high⟩ := selectors e member
    rw [← loaded.segments e member, gdtr, loaded.gdtr, segmentAt_inside, segmentAt_inside,
      segmentAt_congr same low high]
  · rw [gdtr, table]
    exact loaded.tss
  · have found := loaded.pointers
    rw [loadedStacks, loaded.tss] at found
    rw [loadedStacks, gdtr, table, loaded.tss, ← found]
    exact Prod.ext (pointer 4 (by decide)) (pointer 36 (by decide))

end ShipOS
