/-
**The stacks of the CPUs (`percpu_alloc_stacks`, `percpu_init_ap`).**

The BSP allocates an interrupt stack and a kernel stack for every CPU and writes their ends into the
CPU's TSS; its own GDT it builds and loads at once. Each AP builds its TSS again and its GDT when it
starts. The APs are not ordered among themselves, but each writes only its own `struct percpu`.

* `allocStack_spec`, `allocStacksOf_spec` — one stack, one turn of the loop;
* `stacksOf_alloc` — the whole loop: CPU `i` has the pages `2 * i` and `2 * i + 1` of the free list;
* `cpu_tables_loaded` — in every order of the APs' stores, each CPU that has finished finds its own
  segments and its own stacks.
-/

import ShipOS.Smp.Gdt

namespace ShipOS

open ByteMem Separate Linked

/-! ### The code -/

/-- `&percpus[i]`. -/
def cpuRecord (percpus : Word) (i : Nat) : Word := percpus + BitVec.ofNat 64 (percpuSize * i)

/-- `cpu->int_stack = kalloc()`, and `memset` unless that is null. -/
def allocStack (cpu : Word) (offset : Nat) (s : Phys) : Phys :=
  let (stack, s) := kalloc s
  let mem := store64 s.mem (cpu + BitVec.ofNat 64 offset) stack
  { s with mem := if stack = 0 then mem else memset mem stack 0 4096 }

/-- The two stacks of a CPU. -/
def allocBoth (cpu : Word) (s : Phys) : Phys :=
  allocStack cpu kstackOffset (allocStack cpu intStackOffset s)

/-- `setup_tss`, and for the BSP also `percpu_setup_gdt`. -/
def setupTables (bsp : Bool) (cpu : Word) (m : Mem) : Mem :=
  if bsp then percpuSetupGdt (setupTss m cpu) cpu else setupTss m cpu

/-- The body of the loop of `percpu_alloc_stacks`. -/
def allocStacksOf (percpus : Word) (s : Phys) (i : Nat) : Phys :=
  let cpu := cpuRecord percpus i
  let s := allocBoth cpu s
  { s with mem := setupTables (i = 0) cpu s.mem }

def percpuAllocStacks (percpus : Word) (ncpu : Nat) (s : Phys) : Phys :=
  (List.range ncpu).foldl (allocStacksOf percpus) s

/-- The stores of `percpu_init_ap` before `setup_tss`: `self`, `apic_id`, `cpu_index`, `is_bsp`, `ncli`,
`intena`, `current_thread` and `idle_thread`. -/
def identityFields (cpu : Word) (apic : Byte) (i : Nat) : List Field :=
  [⟨0, 8, cpu.toNat⟩, ⟨8, 4, apic.toNat⟩, ⟨12, 4, i⟩, ⟨16, 1, 0⟩, ⟨20, 4, 0⟩, ⟨24, 4, 0⟩,
    ⟨32, 8, 0⟩, ⟨40, 8, 0⟩]

/-- `percpu_init_ap` as the stores into `percpus`, the last one to `started`. -/
def percpuInitApStores (percpus : Word) (ncpu : Nat) (apic : Byte) (i : Nat) : List (Mem → Mem) :=
  if i ≥ ncpu ∨ i = 0 then []
  else
    let cpu := cpuRecord percpus i
    (identityFields cpu apic i).map (fun f m => f.store cpu m) ++
      (setupTssSteps cpu ++ (setupGdtSteps cpu ++ [fun m => Field.store cpu m ⟨17, 1, 1⟩]))

/-! ### What belongs to a CPU -/

/-- The bytes of `*cpu`. -/
def record (cpu : Word) : Set Word := {x | Within cpu percpuSize x}

/-- `percpus` is an array of `MAX_CPUS` in the kernel's image. -/
def InImage (L : Bounds) (percpus : Word) : Prop :=
  percpus.toNat + percpuSize * 64 ≤ L.kend.toNat

instance (L : Bounds) (percpus : Word) : Decidable (InImage L percpus) :=
  inferInstanceAs (Decidable (_ ≤ _))

variable {L : Bounds} {percpus cpu : Word} {s : Phys} {free : List Word} {i j ncpu : Nat}

theorem cpuRecord_toNat (image : InImage L percpus) (hi : i < 64) :
    (cpuRecord percpus i).toNat = percpus.toNat + percpuSize * i := by
  have := L.kend.isLt
  unfold InImage at image
  rw [cpuRecord, BitVec.toNat_add, BitVec.toNat_ofNat]
  simp only [percpuSize] at *
  omega

theorem cpuRecord_below (image : InImage L percpus) (hi : i < 64) :
    (cpuRecord percpus i).toNat + percpuSize ≤ L.kend.toNat := by
  rw [cpuRecord_toNat image hi]
  unfold InImage at image
  simp only [percpuSize] at *
  omega

theorem mem_record (below : cpu.toNat + percpuSize ≤ L.kend.toNat) {x : Word} :
    x ∈ record cpu ↔ cpu.toNat ≤ x.toNat ∧ x.toNat < cpu.toNat + percpuSize := by
  have := L.kend.isLt
  simp only [record, Set.mem_ofPred_eq, Within, percpuSize] at *
  constructor
  · intro inside
    constructor <;> bv_omega
  · rintro ⟨low, high⟩
    bv_omega

theorem record_disjoint (image : InImage L percpus) (hi : i < 64) (hj : j < 64) (other : j ≠ i) :
    ∀ x ∈ record (cpuRecord percpus j), x ∉ record (cpuRecord percpus i) := by
  have placeI := cpuRecord_toNat image hi
  have placeJ := cpuRecord_toNat image hj
  intro x inJ inI
  rw [mem_record (cpuRecord_below image hi)] at inI
  rw [mem_record (cpuRecord_below image hj)] at inJ
  simp only [percpuSize] at *
  omega

section

variable {m : Mem}

theorem confined_store {f : Field} (inside : f.offset + f.width ≤ percpuSize) :
    Confined (record cpu) fun m => f.store cpu m := by
  have small := small_percpu
  refine ⟨fun m x outside => ?_, fun m m' same x inRecord => ?_⟩
  · refine if_neg fun written => outside ?_
    simp only [record, Set.mem_ofPred_eq, Within] at *
    bv_omega
  · simp only [Field.store, writeLE]
    split
    · rfl
    · exact same inRecord

theorem confined_fill {start size : Nat} (inside : start + size ≤ percpuSize) :
    Confined (record cpu) fun m => memset m (cpu + BitVec.ofNat 64 start) 0 size := by
  have small := small_percpu
  refine ⟨fun m x outside => ?_, fun m m' same x inRecord => ?_⟩
  · refine if_neg fun written => outside ?_
    simp only [record, Set.mem_ofPred_eq, Within] at *
    bv_omega
  · simp only [memset, fill]
    split
    · rfl
    · exact same inRecord

theorem confined_storeStackEnd {stack pointer : Nat} (read : stack + 8 ≤ percpuSize)
    (inside : pointer + 8 ≤ percpuSize) : Confined (record cpu) (storeStackEnd cpu stack pointer) := by
  have written : ∀ v : Word,
      Confined (record cpu) fun m => store64 m (cpu + BitVec.ofNat 64 pointer) v :=
    fun v => confined_store (f := ⟨pointer, 8, v.toNat⟩) inside
  refine ⟨fun m x outside => ?_, fun m m' same x inRecord => ?_⟩
  · rw [storeStackEnd]
    split
    · rfl
    · exact (written _).frame m outside
  · have base : load64 m (cpu + BitVec.ofNat 64 stack) = load64 m' (cpu + BitVec.ofNat 64 stack) := by
      refine congrArg (BitVec.ofNat 64) (readLE_congr fun k hk => same ?_)
      have small := small_percpu
      simp only [record, Set.mem_ofPred_eq, Within]
      bv_omega
    rw [storeStackEnd, storeStackEnd, base]
    split
    · exact same inRecord
    · exact (written _).reads m m' same inRecord

end

theorem setupTssSteps_confined (cpu : Word) : ∀ f ∈ setupTssSteps cpu, Confined (record cpu) f := by
  simp only [setupTssSteps, List.forall_mem_cons]
  exact ⟨confined_fill (by decide), confined_storeStackEnd (by decide) (by decide),
    confined_storeStackEnd (by decide) (by decide), confined_store (by decide), List.forall_mem_nil _⟩

theorem setupGdtSteps_confined (cpu : Word) : ∀ f ∈ setupGdtSteps cpu, Confined (record cpu) f := by
  simp only [setupGdtSteps, List.forall_mem_cons, List.forall_mem_map]
  exact ⟨confined_fill (by decide),
    fun f member => confined_store ((gdtFields_spaced cpu).inside f member)⟩

/-- Where the fields are does not depend on the CPU; all of them are before the TSS. -/
theorem identityFields_bound {apic : Byte} {f : Field} (member : f ∈ identityFields cpu apic i) :
    f.offset + f.width ≤ tssOffset := by
  have shape : (identityFields cpu apic i).map (fun f => (f.offset, f.width)) =
      (identityFields 0 0 0).map fun f => (f.offset, f.width) := rfl
  have bound : ∀ s ∈ (identityFields 0 0 0).map (fun f => (f.offset, f.width)),
      s.1 + s.2 ≤ tssOffset := by decide
  exact bound _ (shape ▸ List.mem_map_of_mem member)

theorem percpuInitApStores_confined (ncpu : Nat) (apic : Byte) :
    ∀ f ∈ percpuInitApStores percpus ncpu apic i, Confined (record (cpuRecord percpus i)) f := by
  rw [percpuInitApStores]
  split
  · exact List.forall_mem_nil _
  · simp only [List.forall_mem_append, List.forall_mem_map, List.forall_mem_singleton]
    refine ⟨fun f member => confined_store ((identityFields_bound member).trans (by decide)),
      setupTssSteps_confined _, setupGdtSteps_confined _, confined_store (by decide)⟩

/-! ### The stacks -/

/-- Bytes below the kernel's end are in no page of the allocator. -/
theorem IsPage.above {p x : Word} (page : IsPage L p) (below : x.toNat < L.kend.toNat) :
    ¬ (x - p).toNat < 4096 := by
  have := page.low
  have := page.high
  have := L.below
  bv_omega

/-- The free list is in the pages. -/
theorem FreeList.below {mem : Mem} (list : FreeList L s free)
    (same : ∀ x, L.kend.toNat ≤ x.toNat → mem x = s.mem x) :
    FreeList L { s with mem := mem } free := by
  refine ⟨list.spine.frame fun p member => ?_, list.nodup, list.page⟩
  refine congrArg (BitVec.ofNat 64) (readLE_congr fun k hk => same _ ?_)
  have := (list.page p member).low
  have := (list.page p member).high
  have := L.below
  bv_omega

/-- **One stack**: the first free page, or null. -/
theorem allocStack_spec (list : FreeList L s free) {offset : Nat}
    (below : (cpu + BitVec.ofNat 64 offset).toNat + 8 ≤ L.kend.toNat) :
    FreeList L (allocStack cpu offset s) free.tail ∧
      load64 (allocStack cpu offset s).mem (cpu + BitVec.ofNat 64 offset) = free.head?.getD 0 ∧
      ∀ x, x.toNat < L.kend.toNat → ¬ Within (cpu + BitVec.ofNat 64 offset) 8 x →
        (allocStack cpu offset s).mem x = s.mem x := by
  have := L.kend.isLt
  -- The store of the pointer is below the pages.
  have stored : ∀ (m : Mem) (v : Word) (x : Word), L.kend.toNat ≤ x.toNat →
      store64 m (cpu + BitVec.ofNat 64 offset) v x = m x := by
    intro m v x above
    refine sameOutside_store64 m _ v x ?_
    unfold Within
    bv_omega
  cases free with
  | nil =>
    rw [allocStack, kalloc_nil list]
    dsimp only
    rw [if_pos rfl]
    exact ⟨list.below (stored _ _), load64_store64_self _ _ _,
      fun x _ outside => sameOutside_store64 _ _ _ x outside⟩
  | cons p free =>
    have page := list.page p List.mem_cons_self
    obtain ⟨s₁, take, rest, junk⟩ := kalloc_cons list
    have fresh : p ∉ free := (List.nodup_cons.mp list.nodup).1
    rw [allocStack, take]
    dsimp only
    rw [if_neg page.ne_zero]
    refine ⟨?_, ?_, fun x low outside => ?_⟩
    · exact (rest.below (stored _ _)).other page.aligned fresh (onlyPage_fill _ p 0)
    · have apart : Apart p 4096 (cpu + BitVec.ofNat 64 offset) 8 := by
        have := page.low
        have := page.high
        have := L.below
        constructor <;> bv_omega
      rw [memset, load64_fill_apart _ _ apart, load64_store64_self]
      rfl
    · rw [memset, onlyPage_fill _ p 0 x (page.above low), sameOutside_store64 _ _ _ x outside,
        junk x (page.above low)]

/-- A field of a record is where the kernel's image is. -/
theorem field_below (below : cpu.toNat + percpuSize ≤ L.kend.toNat) {x n : Nat}
    (inside : x + n ≤ percpuSize) :
    (cpu + BitVec.ofNat 64 x).toNat + n ≤ L.kend.toNat := by
  have := L.kend.isLt
  have small := small_percpu
  rw [BitVec.toNat_add, BitVec.toNat_ofNat]
  omega

theorem within_field {x n : Nat} (inside : x + n ≤ percpuSize) {y : Word}
    (within : Within (cpu + BitVec.ofNat 64 x) n y) : y ∈ record cpu := by
  have small := small_percpu
  simp only [record, Set.mem_ofPred_eq, Within] at *
  bv_omega

theorem allocBoth_spec (list : FreeList L s free) (below : cpu.toNat + percpuSize ≤ L.kend.toNat) :
    FreeList L (allocBoth cpu s) (free.drop 2) ∧
      load64 (allocBoth cpu s).mem (cpu + BitVec.ofNat 64 intStackOffset) = free[0]?.getD 0 ∧
      load64 (allocBoth cpu s).mem (cpu + BitVec.ofNat 64 kstackOffset) = free[1]?.getD 0 ∧
      ∀ x, x.toNat < L.kend.toNat → x ∉ record cpu → (allocBoth cpu s).mem x = s.mem x := by
  have place : ∀ x, x + 8 ≤ percpuSize → (cpu + BitVec.ofNat 64 x).toNat + 8 ≤ L.kend.toNat :=
    fun x inside => field_below below inside
  obtain ⟨list₁, int, same₁⟩ := allocStack_spec list (place intStackOffset (by decide))
  obtain ⟨list₂, kstack, same₂⟩ := allocStack_spec list₁ (place kstackOffset (by decide))
  refine ⟨?_, ?_, ?_, fun x low outside => ?_⟩
  · rwa [← List.drop_one, ← List.drop_one, List.drop_drop] at list₂
  · rw [← List.head?_eq_getElem?, ← int]
    refine congrArg (BitVec.ofNat 64) (readLE_congr fun k hk => same₂ _ ?_ ?_)
    · have := place intStackOffset (by decide)
      have := L.kend.isLt
      bv_omega
    · rw [Within]
      simp only [intStackOffset, kstackOffset]
      bv_omega
  · have second : free.tail.head? = free[1]? := by cases free <;> simp [List.head?_eq_getElem?]
    rw [← second]
    exact kstack
  · have outer := same₂ x low fun inside => outside (within_field (by decide) inside)
    exact outer.trans (same₁ x low fun inside => outside (within_field (by decide) inside))

theorem setupTables_confined (bsp : Bool) : Confined (record cpu) (setupTables bsp cpu) := by
  have tss : Confined (record cpu) fun m => setupTss m cpu := run_confined (setupTssSteps_confined cpu)
  have gdt : Confined (record cpu) fun m => percpuSetupGdt m cpu :=
    run_confined (setupGdtSteps_confined cpu)
  cases bsp
  · exact tss
  · exact tss.comp gdt

/-- The pointers to the stacks are in neither table. -/
theorem setupTables_stack (bsp : Bool) (m : Mem) {x : Nat}
    (pointer : x = intStackOffset ∨ x = kstackOffset) :
    load64 (setupTables bsp cpu m) (cpu + BitVec.ofNat 64 x) = load64 m (cpu + BitVec.ofNat 64 x) := by
  have place : x + 8 ≤ percpuSize ∧ x + 8 ≤ gdtOffset ∧ tssOffset + tssSize ≤ x := by
    rcases pointer with rfl | rfl <;> decide
  have tss : part (setupTss m cpu) cpu x 8 = part m cpu x 8 :=
    part_setupTss place.1 (.inr place.2.2) (by decide)
  have gdt := part_setupGdt (setupTss m cpu) cpu place.1 (.inl place.2.1) (by decide)
  rw [load64_part, load64_part]
  cases bsp
  · exact congrArg _ tss
  · exact congrArg _ (gdt.trans tss)

/-- **One turn of the loop.** -/
theorem allocStacksOf_spec (list : FreeList L s free) (image : InImage L percpus) (hi : i < 64) :
    FreeList L (allocStacksOf percpus s i) (free.drop 2) ∧
      load64 (allocStacksOf percpus s i).mem (cpuRecord percpus i + BitVec.ofNat 64 intStackOffset) =
        free[0]?.getD 0 ∧
      load64 (allocStacksOf percpus s i).mem (cpuRecord percpus i + BitVec.ofNat 64 kstackOffset) =
        free[1]?.getD 0 ∧
      (i = 0 → LoadedTables (allocStacksOf percpus s i).mem (cpuRecord percpus i)
        (stackEnd (free[1]?.getD 0)) (stackEnd (free[0]?.getD 0))) ∧
      ∀ x, x.toNat < L.kend.toNat → x ∉ record (cpuRecord percpus i) →
        (allocStacksOf percpus s i).mem x = s.mem x := by
  have below := cpuRecord_below image hi
  obtain ⟨rest, int, kstack, same⟩ := allocBoth_spec list below
  have owned : Confined (record (cpuRecord percpus i)) (setupTables (i = 0) (cpuRecord percpus i)) :=
    setupTables_confined _
  refine ⟨rest.below fun x high => owned.frame _ fun inside => ?_,
    (setupTables_stack _ _ (.inl rfl)).trans int, (setupTables_stack _ _ (.inr rfl)).trans kstack,
    fun first => ?_, fun x low outside => (owned.frame _ outside).trans (same x low outside)⟩
  · rw [mem_record below] at inside
    omega
  · have tables := loaded_setup (allocBoth (cpuRecord percpus i) s).mem (cpuRecord percpus i)
    rw [int, kstack] at tables
    have both : setupTables (i = 0) = setupTables true := by rw [decide_eq_true first]
    rw [allocStacksOf, both]
    exact tables

/-- **After the first `k` turns** CPU `i` has the pages `2 * i` and `2 * i + 1` of the free list, or
null where the list is too short, and the BSP has its tables. -/
structure StacksOf (L : Bounds) (percpus : Word) (free : List Word) (k : Nat) (s : Phys) : Prop where
  list : FreeList L s (free.drop (2 * k))
  intStack : ∀ i < k, load64 s.mem (cpuRecord percpus i + BitVec.ofNat 64 intStackOffset) =
    free[2 * i]?.getD 0
  kstack : ∀ i < k, load64 s.mem (cpuRecord percpus i + BitVec.ofNat 64 kstackOffset) =
    free[2 * i + 1]?.getD 0
  bsp : 0 < k → LoadedTables s.mem (cpuRecord percpus 0) (stackEnd (free[1]?.getD 0))
    (stackEnd (free[0]?.getD 0))

theorem StacksOf.turn {k : Nat} (ready : StacksOf L percpus free k s) (image : InImage L percpus)
    (hk : k < 64) : StacksOf L percpus free (k + 1) (allocStacksOf percpus s k) := by
  obtain ⟨list, int, kstack, tables, same⟩ := allocStacksOf_spec ready.list image hk
  rw [List.getElem?_drop] at int kstack tables
  rw [List.getElem?_drop] at tables
  -- The record of another CPU is left alone.
  have others : ∀ i < k, ∀ x ∈ record (cpuRecord percpus i),
      (allocStacksOf percpus s k).mem x = s.mem x := by
    intro i hi x inside
    have belowI := cpuRecord_below image (hi.trans hk)
    refine same x ?_ fun mine =>
      record_disjoint image (hi.trans hk) hk (Nat.ne_of_gt hi) x mine inside
    rw [mem_record belowI] at inside
    omega
  have kept : ∀ i < k, ∀ x, x + 8 ≤ percpuSize →
      load64 (allocStacksOf percpus s k).mem (cpuRecord percpus i + BitVec.ofNat 64 x) =
        load64 s.mem (cpuRecord percpus i + BitVec.ofNat 64 x) := by
    intro i hi x fits
    refine congrArg (BitVec.ofNat 64) (readLE_congr fun b hb => others i hi _ ?_)
    refine within_field fits ?_
    unfold Within
    bv_omega
  refine ⟨?_, fun i hi => ?_, fun i hi => ?_, fun _ => ?_⟩
  · rwa [List.drop_drop, ← Nat.mul_succ] at list
  · rcases Nat.lt_succ_iff_lt_or_eq.mp hi with before | rfl
    · exact (kept i before _ (by decide)).trans (ready.intStack i before)
    · exact int
  · rcases Nat.lt_succ_iff_lt_or_eq.mp hi with before | rfl
    · exact (kept i before _ (by decide)).trans (ready.kstack i before)
    · exact kstack
  · rcases Nat.eq_zero_or_pos k with rfl | later
    · exact tables rfl
    · refine (ready.bsp later).congr fun x inside => others 0 later x ?_
      exact within_field (by decide) inside

/-- **The whole loop.** -/
theorem stacksOf_alloc (list : FreeList L s free) (image : InImage L percpus) :
    ∀ {k : Nat}, k ≤ 64 → StacksOf L percpus free k (percpuAllocStacks percpus k s)
  | 0, _ => ⟨list, fun _ hi => absurd hi (Nat.not_lt_zero _), fun _ hi => absurd hi (Nat.not_lt_zero _),
      fun hi => absurd hi (Nat.lt_irrefl _)⟩
  | k + 1, hk => by
    rw [percpuAllocStacks, List.range_succ, List.foldl_append]
    exact (stacksOf_alloc list image (Nat.le_of_succ_le hk)).turn image hk

/-! ### The APs -/

/-- **`percpu_init_ap` alone** leaves the CPU with its tables. -/
theorem loaded_initAp (m : Mem) (apic : Byte) (started : ¬ (i ≥ ncpu ∨ i = 0)) :
    LoadedTables (run (percpuInitApStores percpus ncpu apic i) m) (cpuRecord percpus i)
      (stackEnd (load64 m (cpuRecord percpus i + BitVec.ofNat 64 kstackOffset)))
      (stackEnd (load64 m (cpuRecord percpus i + BitVec.ofNat 64 intStackOffset))) := by
  rw [percpuInitApStores, if_neg started]
  generalize cpuRecord percpus i = cpu
  dsimp only
  rw [run_append, run_append, run_append]
  have first : run ((identityFields cpu apic i).map fun f m => f.store cpu m) m =
      storeFields m cpu (identityFields cpu apic i) := List.foldl_map
  have kept : ∀ x, tssOffset ≤ x → x + 8 ≤ percpuSize →
      load64 (storeFields m cpu (identityFields cpu apic i)) (cpu + BitVec.ofNat 64 x) =
        load64 m (cpu + BitVec.ofNat 64 x) := by
    intro x low high
    refine congrArg (BitVec.ofNat 64) (readLE_storeFields_clear small_percpu high fun f member => ?_)
    have bound := identityFields_bound member
    exact ⟨bound.trans (by decide), .inl (bound.trans low)⟩
  have tables := loaded_setup (storeFields m cpu (identityFields cpu apic i)) cpu
  rw [kept _ (by decide) (by decide), kept _ (by decide) (by decide)] at tables
  rw [first]
  -- The store to `started` is before the TSS.
  refine tables.congr fun x inside => if_neg fun written => ?_
  simp only [Within, tssOffset, percpuSize] at *
  bv_omega

/-- **The tables of the CPUs.** The APs run `percpu_init_ap` in any interleaving, some of them not to
its end; the BSP and every AP that has finished finds its own segments, its own TSS, and in it the ends
of its own two pages of the free list (null where `kalloc` had none left). The rest of the list is
free. -/
theorem cpu_tables_loaded (list : FreeList L s free) (image : InImage L percpus) (few : ncpu ≤ 64)
    (apic : Nat → Byte) (es : List (Nat × (Mem → Mem)))
    (code : ∀ j, own j es <+: percpuInitApStores percpus ncpu (apic j) j) (hi : i < ncpu)
    (finished : own i es = percpuInitApStores percpus ncpu (apic i) i) :
    LoadedTables (interleaved es (percpuAllocStacks percpus ncpu s).mem) (cpuRecord percpus i)
        (stackEnd (free[2 * i + 1]?.getD 0)) (stackEnd (free[2 * i]?.getD 0)) ∧
      FreeList L { percpuAllocStacks percpus ncpu s with
        mem := interleaved es (percpuAllocStacks percpus ncpu s).mem } (free.drop (2 * ncpu)) := by
  have ready := stacksOf_alloc list image few
  generalize percpuAllocStacks percpus ncpu s = s' at ready ⊢
  -- Only the records of the array are anybody's.
  let region : Nat → Set Word := fun j => if j < 64 then record (cpuRecord percpus j) else ∅
  have inArray : ∀ j < 64, region j = record (cpuRecord percpus j) := fun j hj => if_pos hj
  have outside : ∀ j, ¬ j < 64 → region j = ∅ := fun j hj => if_neg hj
  have owned : ∀ e ∈ es, Confined (region e.1) e.2 := by
    intro e member
    have mine : e.2 ∈ own e.1 es :=
      List.mem_map_of_mem (List.mem_filter.mpr ⟨member, decide_eq_true rfl⟩)
    have stored := (code e.1).subset mine
    have small : e.1 < 64 := by
      by_contra large
      rw [percpuInitApStores, if_pos (.inl (by omega))] at stored
      exact List.not_mem_nil stored
    rw [inArray _ small]
    exact percpuInitApStores_confined ncpu (apic e.1) _ stored
  have apart : ∀ j, j ≠ i → ∀ x ∈ region j, x ∉ region i := by
    intro j other
    by_cases small : j < 64
    · rw [inArray j small, inArray i (hi.trans_le few)]
      exact record_disjoint image (hi.trans_le few) small other
    · rw [outside j small]
      exact fun x impossible => absurd impossible (Set.notMem_empty x)
  have alone := interleaved_eqOn i apart owned (Set.eqOn_refl s'.mem _)
  rw [finished, inArray i (hi.trans_le few)] at alone
  constructor
  · have tables : LoadedTables (run (percpuInitApStores percpus ncpu (apic i) i) s'.mem)
        (cpuRecord percpus i) (stackEnd (free[2 * i + 1]?.getD 0))
        (stackEnd (free[2 * i]?.getD 0)) := by
      rcases Nat.eq_zero_or_pos i with rfl | ap
      · rw [percpuInitApStores, if_pos (.inr rfl)]
        exact ready.bsp hi
      · rw [← ready.intStack i hi, ← ready.kstack i hi]
        exact loaded_initAp s'.mem (apic i) (by omega)
    exact tables.congr fun x inside => alone (within_field (by decide) inside)
  · refine ready.list.below fun x high => interleaved_frame (fun j inside => ?_) owned
    by_cases small : j < 64
    · rw [inArray j small, mem_record (cpuRecord_below image small)] at inside
      have := cpuRecord_below image small
      omega
    · rw [outside j small] at inside
      exact inside

/-- Two CPUs and three free pages: the AP has an interrupt stack and no kernel stack. -/
theorem cpu_tables_loaded_twoCpus :
    LoadedTables
        (interleaved ((percpuInitApStores 0x110000 2 1 1).map fun f => (1, f))
          (percpuAllocStacks 0x110000 2 demoPhys).mem)
        (cpuRecord 0x110000 1) 0 0x203000 ∧
      FreeList demoLayout { percpuAllocStacks 0x110000 2 demoPhys with
        mem := interleaved ((percpuInitApStores 0x110000 2 1 1).map fun f => (1, f))
          (percpuAllocStacks 0x110000 2 demoPhys).mem } [] :=
  cpu_tables_loaded (i := 1) demoPhys_list (by decide) (by decide) (fun _ => 1) _
    (fun j => by
      rw [own_alone]
      split
      · next same => rw [same]
      · exact List.nil_prefix)
    (by decide) (by rw [own_alone, if_pos rfl])

end ShipOS
