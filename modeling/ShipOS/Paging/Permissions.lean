/-
**Effective permissions.**

`map_page` writes the flags it is given into the leaf entry. The entries above it are those of
`init_entry` or of the boot code, and both are writable and for the supervisor only, whatever was
asked for; so a page is never open to the user, also if it was mapped with `PTE_U`.

* `MappingStep.grown` — any of the mapping functions only grows the tree;
* `mapPage_permissions_iff` — after any run of them, a page that `map_page` accepted is writable as
  asked for, and it has the user permission asked for exactly if none was;
* `mapPage_user_denied` — a page mapped with `PTE_U`.
-/

import ShipOS.Boot.Tables
import ShipOS.Paging.Mmio

namespace ShipOS

open ByteMem PathTree Runs

variable {L : Bounds} {root : Word} {s t u : Phys} {free : List Word}

/-! ### The mapping functions -/

/-- The functions that map or unmap pages under a root. -/
inductive MappingCall
  | paging (call : PagingCall)
  | mapMmio (pa size : Word)
  | kvminit (start stop : Word)
  deriving DecidableEq

def MappingCall.exec (root : Word) : MappingCall → Phys → Except Halt Phys
  | .paging call, s => call.exec root s
  | .mapMmio pa size, s => do
    let (_, s) ← ShipOS.mapMmio root pa size s
    .ok s
  | .kvminit start stop, s => do
    let (_, s) ← ShipOS.kvminit root start stop s
    .ok s

/-- One call that returns. -/
def MappingStep (root : Word) (s : Phys) (call : MappingCall) (t : Phys) : Prop :=
  call.exec root s = .ok t

theorem kvminitPage_grown (tables : Tables L s root free) {addr : Word}
    (done : kvminitPage root addr s = .ok t) : GrownFrom L root s free t := by
  obtain ⟨pte, s₁, free', walked, grown, -, outcome⟩ := walk_alloc tables addr
  rw [kvminitPage, walked] at done
  dsimp only at done
  split at done
  · cases done
  · rename_i nonNull
    cases done
    rcases outcome with ⟨tbl, reached, rfl⟩ | ⟨null, -⟩
    · exact ⟨free', grown.trans (Grown.leaf_store grown.tables (pathOf_length addr) reached _ _)⟩
    · exact absurd null nonNull

theorem kvminit_grown (tables : Tables L s root free) {start stop r : Word}
    (done : kvminit root start stop s = .ok (r, t)) : GrownFrom L root s free t := by
  obtain ⟨t', ran, last⟩ := bind_ok done
  cases last
  refine forPages_keeps (GrownFrom L root s free) ?_ ⟨free, Grown.refl tables⟩ ran
  rintro addr u u' ⟨free', grown⟩ step
  obtain ⟨free'', more⟩ := kvminitPage_grown grown.tables step
  exact ⟨free'', grown.trans more⟩

theorem mapMmio_grown (tables : Tables L s root free) {pa size r : Word}
    (done : mapMmio root pa size s = .ok (r, t)) : GrownFrom L root s free t :=
  (mapMmio_framed tables done).imp fun _ framed => framed.toGrown

/-- **Every mapping function only grows the tree.** -/
theorem MappingStep.grown (tables : Tables L s root free) {call : MappingCall}
    (step : MappingStep root s call t) : GrownFrom L root s free t := by
  cases call with
  | paging call => exact PagingStep.grown tables step
  | mapMmio pa size =>
    obtain ⟨⟨r, t'⟩, ran, last⟩ := bind_ok step
    cases last
    exact mapMmio_grown tables ran
  | kvminit start stop =>
    obtain ⟨⟨r, t'⟩, ran, last⟩ := bind_ok step
    cases last
    exact kvminit_grown tables ran

/-! ### The tables the kernel starts from -/

/-- A root to start from: an empty table, or the tables of the boot code. -/
inductive StartRoot (L : Bounds) (s : Phys) (root : Word) (free : List Word) : Prop
  | empty (list : FreeList L s free) (aligned : PageAligned root) (notFree : root ∉ free)
    (bare : ∀ i, childTable s.mem root i = none)
  | boot (list : FreeList L s free) (init : Word) (tables : BootTables L s.mem root init)

theorem StartRoot.tables (start : StartRoot L s root free) : Tables L s root free := by
  cases start with
  | empty list aligned notFree bare => exact tables_of_empty bare list aligned notFree
  | boot list init tables => exact (tables.pageTree list).toTables

theorem StartRoot.upper (start : StartRoot L s root free) : UpperEntries KernelTable root s.mem := by
  cases start with
  | empty list aligned notFree bare =>
    intro q a i _ found set
    obtain ⟨-, rfl⟩ := tableAt_of_empty bare found
    exact absurd (bare i) set
  | boot list init tables => exact tables.upper

theorem kernelTable_initEntry (f : Word) :
    KernelTable (decodePageEntry (encodePageEntry (tableEntry f))) := by
  rw [decode_encode (tableEntry_plain f)]
  exact ⟨rfl, rfl⟩

/-! ### Permissions -/

/-- Under tables of the kernel, a page is writable if its leaf entry is, and never the user's. -/
theorem effective_of_mapped (upper : UpperEntries KernelTable root s.mem) {va : Word}
    {leaf : PageEntry} (found : mapped s.mem root (vpn va) = some leaf) :
    effectiveRw s.mem root va = leaf.rw ∧ effectiveUs s.mem root va = false := by
  obtain ⟨above, walked, count, kernel⟩ := mmuEntries_mapped upper found
  rw [effectiveRw, effectiveUs, walked]
  dsimp only
  rw [List.all_append, List.all_append]
  constructor
  · have writable : (above.all fun entry => entry.rw) = true :=
      List.all_eq_true.mpr fun entry member => (kernel entry member).1
    rw [writable, Bool.true_and, List.all_cons, List.all_nil, Bool.and_true]
  · cases above with
    | nil => cases count
    | cons entry rest =>
      rw [List.all_cons, (kernel entry List.mem_cons_self).2]
      rfl

/-- **What `map_page` makes of the permissions asked for.** After any run of the mapping functions,
the page is writable as asked for, and has the user permission asked for exactly if none was. -/
theorem mapPage_permissions_iff (start : StartRoot L s root free) {calls : List MappingCall}
    (run : Run (MappingStep root) s calls t) (va pa : Word) (flags : BitVec 32)
    (accepted : mapPage root va pa flags t = (0, u)) :
    effectiveRw u.mem root va = (flags &&& pteW != 0) ∧
      (effectiveUs u.mem root va = (flags &&& pteU != 0) ↔ flags &&& pteU = 0) := by
  obtain ⟨free₁, grown⟩ := run.keeps (GrownFrom L root s free)
    (fun _ _ _ ⟨_, grown⟩ step =>
      let ⟨free', more⟩ := MappingStep.grown grown.tables step
      ⟨free', grown.trans more⟩)
    ⟨free, Grown.refl start.tables⟩
  obtain ⟨result, u', free₂, call, more, effect⟩ := mapPage_spec grown.tables va pa flags
  rw [call] at accepted
  cases accepted
  rcases effect with ⟨-, space⟩ | ⟨failed, -⟩
  · have leaf : mapped u.mem root (vpn va) = some (frameEntry (vpn pa) flags) := by
      rw [space, Function.update_self]
    have upper := start.upper.grown (grown.trans more) kernelTable_initEntry
    obtain ⟨writable, user⟩ := effective_of_mapped upper leaf
    rw [writable, user]
    refine ⟨rfl, ?_⟩
    rw [eq_comm, bne_eq_false_iff_eq]
  · cases failed

/-- A page mapped writable for the kernel. -/
theorem mapPage_permissions_kernel :
    effectiveRw (mapPage demoRoot 0x1000 0x5000 pteW demoPhys).2.mem demoRoot 0x1000 = true ∧
      effectiveUs (mapPage demoRoot 0x1000 0x5000 pteW demoPhys).2.mem demoRoot 0x1000 = false := by
  have start : StartRoot demoLayout demoPhys demoRoot [0x200000, 0x201000, 0x202000] :=
    .empty demoPhys_list (by decide) (by decide) demoPhys_empty
  obtain ⟨writable, user⟩ := mapPage_permissions_iff start (.nil demoPhys) 0x1000 0x5000 pteW
    (Prod.ext (by decide +kernel) rfl)
  exact ⟨writable, user.mpr (by decide)⟩

/-- **A page mapped with `PTE_U` is closed to the user**: the tables above it are the kernel's. -/
theorem mapPage_user_denied :
    StartRoot demoLayout demoPhys demoRoot [0x200000, 0x201000, 0x202000] ∧
      (mapPage demoRoot 0x1000 0x5000 (pteW ||| pteU) demoPhys).1 = 0 ∧
      (pteW ||| pteU) &&& pteU ≠ 0 ∧
      effectiveUs (mapPage demoRoot 0x1000 0x5000 (pteW ||| pteU) demoPhys).2.mem demoRoot 0x1000 =
        false :=
  ⟨.empty demoPhys_list (by decide) (by decide) demoPhys_empty, by decide +kernel, by decide,
    by decide +kernel⟩

end ShipOS
