/-
**The page-table calls over whole runs.**

* `tables_of_run` — the tree invariant: after any sequence of calls every table is reached by one
  path, no table is on the free list, and every page taken from the free list is a table;
* `space_refines` — the calls refine a partial map from page numbers to frames and flags (`Space`):
  a sequence of calls does to the map what the calls say, and `va_to_pa` reads it.
-/

import ShipOS.Lib.Runs
import ShipOS.Paging.Ranges

namespace ShipOS

open ByteMem PathTree KeyRange Runs

/-! ### The calls -/

/-- The calls that map and unmap pages. -/
inductive SpaceCall
  | mapPage (va pa : Word) (flags : BitVec 32)
  | mapPages (va pa size : Word) (flags : BitVec 32)
  | unmapPage (va : Word)
  | unmapPages (va size : Word)
  deriving DecidableEq

/-- A call's result and the memory after it; 0 where the C function returns nothing. -/
def SpaceCall.exec (root : Word) : SpaceCall → Phys → Except Halt (Int × Phys)
  | .mapPage va pa flags, s => .ok (ShipOS.mapPage root va pa flags s)
  | .mapPages va pa size flags, s => ShipOS.mapPages root va pa size flags s
  | .unmapPage va, s => .ok (0, ShipOS.unmapPage root va s)
  | .unmapPages va size, s => do
    let s ← ShipOS.unmapPages root va size s
    .ok (0, s)

/-- All the calls on one root. -/
inductive PagingCall
  | walk (va : Word)
  | mapApicRegion (apicBase : Word) (size : BitVec 32)
  | mapLowMemory (start size : Word)
  | space (call : SpaceCall)
  deriving DecidableEq

def PagingCall.exec (root : Word) : PagingCall → Phys → Except Halt Phys
  | .walk va, s => .ok (ShipOS.walk root va true s).2
  | .mapApicRegion apicBase size, s => ShipOS.mapApicRegion root apicBase size s
  | .mapLowMemory start size, s => ShipOS.mapLowMemory root start size s
  | .space call, s => do
    let (_, s) ← call.exec root s
    .ok s

/-- One call that returns. -/
def PagingStep (root : Word) (s : Phys) (call : PagingCall) (t : Phys) : Prop :=
  call.exec root s = .ok t

/-! ### The tree invariant -/

variable {L : Bounds} {root : Word} {s t : Phys} {free : List Word}

theorem SpaceCall.grown (tables : Tables L s root free) (call : SpaceCall) {result : Int}
    (done : call.exec root s = .ok (result, t)) : GrownFrom L root s free t := by
  cases call with
  | mapPage va pa flags =>
    obtain ⟨_, s', free', ran, grown, -⟩ := mapPage_spec tables va pa flags
    rw [exec, ran] at done
    cases done
    exact ⟨free', grown⟩
  | mapPages va pa size flags =>
    exact mapPagesLoop_grown tables done
  | unmapPage va =>
    cases done
    exact ⟨free, (unmapPage_framed tables va).toGrown⟩
  | unmapPages va size =>
    obtain ⟨u, ran, last⟩ := bind_ok done
    cases last
    exact unmapLoop_grown tables ran

theorem PagingStep.grown (tables : Tables L s root free) {call : PagingCall}
    (step : PagingStep root s call t) : GrownFrom L root s free t := by
  cases call with
  | walk va =>
    obtain ⟨_, s', free', ran, grown, -⟩ := walk_alloc tables va
    rw [PagingStep, PagingCall.exec, ran] at step
    cases step
    exact ⟨free', grown⟩
  | mapApicRegion apicBase size => exact mapRegion_grown tables step
  | mapLowMemory start size => exact mapRegion_grown tables step
  | space call =>
    obtain ⟨⟨result, u⟩, ran, last⟩ := bind_ok step
    cases last
    exact call.grown tables ran

/-- **The tree invariant over any run.** -/
theorem tables_of_run (tables : Tables L s root free) {calls : List PagingCall}
    (run : Run (PagingStep root) s calls t) :
    ∃ free', Tables L t root free' ∧ ∃ used, free = used ++ free' ∧
      ∀ a ∈ used, ∃ q : List (Fin 512), q.length ≤ 3 ∧ tableAt t.mem root q = some a := by
  obtain ⟨free', grown⟩ := run.keeps (GrownFrom L root s free)
    (fun _ _ _ ⟨_, grown⟩ step =>
      let ⟨free'', more⟩ := PagingStep.grown grown.tables step
      ⟨free'', grown.trans more⟩)
    ⟨free, Grown.refl tables⟩
  exact ⟨free', grown.tables, grown.taken⟩

/-! ### A first root -/

section Empty

variable (empty : ∀ i, childTable s.mem root i = none)

include empty

theorem tableAt_of_empty {path : List (Fin 512)} {t : Word}
    (found : tableAt s.mem root path = some t) : path = [] ∧ t = root := by
  cases path with
  | nil =>
    cases found
    exact ⟨rfl, rfl⟩
  | cons i path =>
    rw [tableAt, follow_cons, empty i] at found
    cases found

/-- A root with no table below it: every entry is absent. -/
theorem tables_of_empty (list : FreeList L s free) (aligned : PageAligned root)
    (notFree : root ∉ free) : Tables L s root free := by
  refine ⟨list, aligned, ?_, ?_⟩
  · intro p q a _ _ first second
    rw [(tableAt_of_empty empty first).1, (tableAt_of_empty empty second).1]
  · intro path t _ found
    rw [(tableAt_of_empty empty found).2]
    exact notFree

end Empty

theorem pageTree_of_empty (list : FreeList L s free) (aligned : PageAligned root)
    (nonNull : root ≠ 0) (notFree : root ∉ free) (empty : ∀ i, childTable s.mem root i = none) :
    PageTree L s root free := by
  refine ⟨tables_of_empty empty list aligned notFree, fun path t _ found => ?_⟩
  rw [(tableAt_of_empty empty found).2]
  exact nonNull

def demoRoot : Word := 0x110000

theorem demoPhys_empty (i : Fin 512) : childTable demoPhys.mem demoRoot i = none := by
  -- The two stores are to other pages.
  have apart : ∀ p, PageAligned p → p ≠ demoRoot → Apart p 8 (slot demoRoot i.val) 8 := by
    intro p aligned other
    have first := apart_slot (i := 0) aligned (show PageAligned demoRoot by decide) (by omega)
      i.isLt fun same => other same.1
    rwa [slot_zero] at first
  have zero : load64 demoPhys.mem (slot demoRoot i.val) = 0 := by
    rw [demoPhys, load64_store64_apart _ _ (apart _ (by decide) (by decide)),
      load64_store64_apart _ _ (apart _ (by decide) (by decide))]
    simp [load64, readLE]
  rw [childTable, zero, decode_zero]
  rfl

theorem demoPhys_tree : PageTree demoLayout demoPhys demoRoot [0x200000, 0x201000, 0x202000] :=
  pageTree_of_empty demoPhys_list (by decide) (by decide) (by decide) demoPhys_empty

/-- The first mapping under an empty root takes its tables from the free list. -/
theorem tables_of_run_first :
    ∃ t, Run (PagingStep demoRoot) demoPhys [.space (.mapPage 0x1000 0x5000 pteW)] t ∧
      ∃ free', Tables demoLayout t demoRoot free' := by
  have run : Run (PagingStep demoRoot) demoPhys [.space (.mapPage 0x1000 0x5000 pteW)]
      (mapPage demoRoot 0x1000 0x5000 pteW demoPhys).2 := .cons rfl (.nil _)
  obtain ⟨free', tables, -⟩ := tables_of_run demoPhys_tree.toTables run
  exact ⟨_, run, free', tables⟩

/-! ### The abstract address space -/

/-- What a page is mapped to. -/
structure Leaf where
  frame : Nat
  rw : Bool
  us : Bool
  pwt : Bool
  pcd : Bool
  deriving DecidableEq, Repr

/-- **An address space**: a partial map from page numbers. -/
abbrev Space := Vpn → Option Leaf

/-- A frame with the flags a caller asks for. -/
def Leaf.ofFlags (frame : Nat) (flags : BitVec 32) : Leaf where
  frame := frame
  rw := flags &&& pteW != 0
  us := flags &&& pteU != 0
  pwt := flags &&& ptePwt != 0
  pcd := flags &&& ptePcd != 0

/-- The pages from the one of `va` up to the end of the last page that `[va, va + size)` reaches:
those that meet the range, and the page of `va` when `size` is 0 and `va` is inside a page. -/
def rangePages (va size : Word) : Nat := (va.toNat + size.toNat + 4095) / 4096 - va.toNat / 4096

/-- A page of the address range `[va, va + size)`. -/
def Covered (va size : Word) (v : Vpn) : Prop :=
  ∃ a : Word, va.toNat ≤ a.toNat ∧ a.toNat < va.toNat + size.toNat ∧ vpn a = v

def Space.translate (m : Space) (va : Word) : Nat :=
  match m (vpn va) with
  | some leaf => leaf.frame * 4096 + va.toNat % 4096
  | none => 0

/-- What a call that returned `result` does to the address space. -/
def Space.apply (m : Space) : SpaceCall × Int → Space
  | (.mapPage va pa flags, result) =>
    if result = 0 then Function.update m (vpn va) (some (.ofFlags (pa.toNat / 4096) flags)) else m
  | (.mapPages va pa size flags, _) =>
    fillRange m (vpn va) (rangePages va size) fun i =>
      some (.ofFlags (pa.toNat / 4096 + i.toNat) flags)
  | (.unmapPage va, _) => Function.update m (vpn va) none
  | (.unmapPages va size, _) => fillRange m (vpn va) (rangePages va size) fun _ => none

/-- Frames below `2 ^ 48`, and a range whose rounded end does not wrap. -/
def SpaceCall.InScope : SpaceCall → Prop
  | .mapPage _ pa _ => pa.toNat < 2 ^ 48
  | .mapPages va pa size _ => va.toNat + size.toNat + 4095 < 2 ^ 64 ∧
    ∀ i < rangePages va size, (pa.toNat / 4096 + i) * 4096 < 2 ^ 48
  | .unmapPage _ => True
  | .unmapPages va size => va.toNat + size.toNat + 4095 < 2 ^ 64

/-- One call in scope, a range mapping successful. -/
structure SpaceStep (root : Word) (s : Phys) (event : SpaceCall × Int) (t : Phys) : Prop where
  inScope : event.1.InScope
  done : event.1.exec root s = .ok (event.2, t)
  success : ∀ va pa size flags, event.1 = .mapPages va pa size flags → event.2 = 0

def PageEntry.leaf (entry : PageEntry) : Leaf where
  frame := entry.address.toNat
  rw := entry.rw
  us := entry.us
  pwt := entry.pwt
  pcd := entry.pcd

/-- **The abstraction**: the address space a root stands for. -/
def space (mem : Mem) (root : Word) : Space := fun v => (mapped mem root v).map PageEntry.leaf

/-! ### Each call refines its update -/

theorem frameEntry_leaf (frame : Vpn) (flags : BitVec 32) :
    (frameEntry frame flags).leaf = .ofFlags frame.toNat flags := by
  have low := frame.isLt
  have width : (frame.setWidth 64).toNat = frame.toNat := by
    rw [BitVec.toNat_setWidth]
    omega
  rw [PageEntry.leaf, Leaf.ofFlags, ← width]
  rfl

theorem space_update {mem mem' : Mem} {v : Vpn} {entry : Option PageEntry}
    (effect : mapped mem' root = Function.update (mapped mem root) v entry) :
    space mem' root = Function.update (space mem root) v (entry.map PageEntry.leaf) := by
  funext u
  rw [space, effect]
  by_cases here : u = v
  · rw [here, Function.update_self, Function.update_self]
  · rw [Function.update_of_ne here, Function.update_of_ne here, space]

theorem space_fillRange {mem mem' : Mem} {v : Vpn} {n : Nat} {entry : Vpn → Option PageEntry}
    {leaf : Vpn → Option Leaf}
    (effect : mapped mem' root = fillRange (mapped mem root) v n entry)
    (leaves : ∀ i : Vpn, i.toNat < n → (entry i).map PageEntry.leaf = leaf i) :
    space mem' root = fillRange (space mem root) v n leaf := by
  funext u
  rw [space, effect, fillRange, fillRange]
  split
  · rename_i inside
    exact leaves _ inside
  · rfl

theorem rangeRounds_eq {va size : Word} (fits : va.toNat + size.toNat + 4095 < 2 ^ 64) :
    rangeRounds va size = rangePages va size := by
  rw [rangeRounds, rounds, rangePages, pgrounddown_toNat, pgroundup_toNat, BitVec.toNat_add]
  omega

/-- The pages of a range that is not empty are those it meets. -/
theorem inside_iff_covered {va size : Word} (fits : va.toNat + size.toNat + 4095 < 2 ^ 64)
    (positive : 0 < size.toNat) (v : Vpn) :
    (v - vpn va).toNat < rangePages va size ↔ Covered va size v := by
  have page := v.isLt
  rw [BitVec.toNat_sub, vpn_toNat, rangePages]
  constructor
  · intro inside
    set k := (2 ^ 36 - va.toNat / 4096 % 2 ^ 36 + v.toNat) % 2 ^ 36 with offset
    -- The first address of the page that is not below `va`.
    have address : ∃ a : Nat, va.toNat ≤ a ∧ a < va.toNat + size.toNat ∧
        a / 4096 = va.toNat / 4096 + k := by
      by_cases first : k = 0
      · exact ⟨va.toNat, le_rfl, by omega, by omega⟩
      · exact ⟨(va.toNat / 4096 + k) * 4096, by omega, by omega, by omega⟩
    obtain ⟨a, low, high, number⟩ := address
    have small : a < 2 ^ 64 := by omega
    have value : (BitVec.ofNat 64 a).toNat = a := by
      rw [BitVec.toNat_ofNat]
      exact Nat.mod_eq_of_lt small
    refine ⟨BitVec.ofNat 64 a, by rw [value]; exact low, by rw [value]; exact high, ?_⟩
    apply BitVec.eq_of_toNat_eq
    rw [vpn_toNat, value, number]
    omega
  · rintro ⟨a, low, high, rfl⟩
    rw [vpn_toNat]
    omega

theorem vpn_of_low {pa : Word} (low : pa.toNat < 2 ^ 48) : (vpn pa).toNat = pa.toNat / 4096 := by
  rw [vpn_toNat]
  omega

/-- **One call does to the address space what it says.** -/
theorem SpaceStep.refines (tree : PageTree L s root free) {event : SpaceCall × Int}
    (step : SpaceStep root s event t) :
    (∃ free', PageTree L t root free') ∧ space t.mem root = (space s.mem root).apply event := by
  obtain ⟨call, result⟩ := event
  obtain ⟨inScope, done, success⟩ := step
  obtain ⟨free', grown⟩ := call.grown tree.toTables done
  refine ⟨⟨free', tree.grown grown⟩, ?_⟩
  cases call with
  | mapPage va pa flags =>
    obtain ⟨_, s', free', ran, -, effect⟩ := mapPage_spec tree.toTables va pa flags
    rw [SpaceCall.exec, ran] at done
    cases done
    rcases effect with ⟨rfl, update⟩ | ⟨rfl, same⟩
    · rw [space_update update, Option.map_some, frameEntry_leaf, vpn_of_low inScope]
      rfl
    · exact congrArg (fun m v => (m v).map PageEntry.leaf) same
  | mapPages va pa size flags =>
    obtain ⟨_, s', free', ran, -, effect⟩ := mapPages_spec tree va pa size flags
    rw [SpaceCall.exec, ran] at done
    cases done
    cases success va pa size flags rfl
    rcases effect with ⟨-, filled⟩ | ⟨failed, -⟩
    · rw [rangeRounds_eq inScope.1] at filled
      rw [Space.apply]
      refine space_fillRange filled fun i inside => ?_
      have frames := inScope.2 i.toNat inside
      have first := inScope.2 0 (Nat.zero_lt_of_lt inside)
      rw [Option.map_some, frameEntry_leaf, BitVec.toNat_add, vpn_of_low (by omega)]
      congr 2
      omega
    · cases failed
  | unmapPage va =>
    cases done
    exact space_update (unmapPage_mapped tree va)
  | unmapPages va size =>
    obtain ⟨u, ran, last⟩ := bind_ok done
    cases last
    obtain ⟨t, run, -, filled⟩ := unmapLoop_spec (pgrounddown_aligned va)
      (pgroundup_aligned (va + size)) tree
    rw [unmapPages, run] at ran
    cases ran
    rw [vpn_pgrounddown, ← rangeRounds, rangeRounds_eq inScope] at filled
    exact space_fillRange filled fun _ _ => rfl

theorem mapped_address_lt {mem : Mem} {v : Vpn} {entry : PageEntry}
    (found : mapped mem root v = some entry) : entry.address.toNat < 2 ^ 36 := by
  rw [mapped, present] at found
  split at found
  · cases found
    rw [decodePageEntry, address_toNat]
    exact Nat.mod_lt _ (by omega)
  · cases found

theorem vaToPa_translate (tree : PageTree L s root free) (va : Word) :
    (vaToPa root va s).toNat = (space s.mem root).translate va := by
  rw [vaToPa_spec tree, Space.translate, space]
  cases found : mapped s.mem root (vpn va) with
  | none => rfl
  | some entry =>
    have low := mapped_address_lt found
    have offset : (va &&& (pgsize - 1)).toNat = va.toNat % 4096 := by
      rw [BitVec.toNat_and]
      exact Nat.and_two_pow_sub_one_eq_mod _ 12
    have small := Nat.mod_lt va.toNat (show 4096 > 0 by omega)
    rw [Option.map_some, BitVec.toNat_or, offset, BitVec.toNat_shiftLeft,
      Nat.mod_eq_of_lt (by rw [Nat.shiftLeft_eq]; omega),
      ← Nat.shiftLeft_add_eq_or_of_lt (show va.toNat % 4096 < 2 ^ 12 from small), Nat.shiftLeft_eq]
    rfl

/-- Every call returns. -/
theorem SpaceCall.returns (tree : PageTree L s root free) (call : SpaceCall) :
    ∃ result t, call.exec root s = .ok (result, t) := by
  cases call with
  | mapPage va pa flags => exact ⟨_, _, rfl⟩
  | mapPages va pa size flags =>
    obtain ⟨result, t, -, ran, -⟩ := mapPages_spec tree va pa size flags
    exact ⟨result, t, ran⟩
  | unmapPage va => exact ⟨_, _, rfl⟩
  | unmapPages va size =>
    obtain ⟨t, run, -⟩ := unmapLoop_spec (pgrounddown_aligned va)
      (pgroundup_aligned (va + size)) tree
    refine ⟨0, t, ?_⟩
    rw [exec, ShipOS.unmapPages, run]
    rfl

/-- **The page-table code refines the address space**: after any sequence of calls the map is what
the calls made of it, `va_to_pa` reads it, and every further call returns; the pages of a range that
is not empty are those it meets. -/
theorem space_refines (tree : PageTree L s root free) {events : List (SpaceCall × Int)}
    (run : Run (SpaceStep root) s events t) :
    space t.mem root = events.foldl Space.apply (space s.mem root) ∧
      (∀ va, (vaToPa root va t).toNat = (space t.mem root).translate va) ∧
      (∀ call : SpaceCall, ∃ result u, call.exec root t = .ok (result, u)) ∧
      ∀ va size : Word, va.toNat + size.toNat + 4095 < 2 ^ 64 → 0 < size.toNat →
        ∀ v, (v - vpn va).toNat < rangePages va size ↔ Covered va size v := by
  obtain ⟨⟨free', tree'⟩, effect⟩ := run.simulates
    (fun u m => (∃ free', PageTree L u root free') ∧ space u.mem root = m) Space.apply
    (by rintro u event u' m ⟨⟨_, tree⟩, rfl⟩ step; exact step.refines tree) ⟨⟨free, tree⟩, rfl⟩
  exact ⟨effect, vaToPa_translate tree', fun call => call.returns tree',
    fun _ _ => inside_iff_covered⟩

/-- One page mapped, then translated. -/
theorem space_refines_mapPage :
    ∃ t, SpaceStep demoRoot demoPhys (.mapPage 0x1234 0x5678 pteW, 0) t ∧
      vaToPa demoRoot 0x1FFF t = 0x5FFF := by
  have step : SpaceStep demoRoot demoPhys (.mapPage 0x1234 0x5678 pteW, 0)
      (mapPage demoRoot 0x1234 0x5678 pteW demoPhys).2 :=
    ⟨show (0x5678 : Word).toNat < 2 ^ 48 by decide,
      congrArg Except.ok (Prod.ext (by decide +kernel) rfl), nofun⟩
  refine ⟨_, step, BitVec.eq_of_toNat_eq ?_⟩
  obtain ⟨effect, reads, -⟩ := space_refines demoPhys_tree (.cons step (.nil _))
  rw [reads, effect]
  rfl

/-- **`map_pages` of an empty range maps a page**: at an address inside a page with size 0 the
rounded range is one page, though no address is in `[va, va + 0)`. -/
theorem mapPages_empty_range :
    PageTree demoLayout demoPhys demoRoot [0x200000, 0x201000, 0x202000] ∧
      ∃ t, SpaceStep demoRoot demoPhys (.mapPages 0x1234 0x5000 0 pteW, 0) t ∧
        ¬ Covered 0x1234 0 (vpn 0x1234) ∧
        space t.mem demoRoot (vpn 0x1234) ≠ space demoPhys.mem demoRoot (vpn 0x1234) := by
  obtain ⟨result, t, -, run, -⟩ := mapPages_spec demoPhys_tree 0x1234 0x5000 0 pteW
  have zero : result = 0 := by
    have first : (mapPages demoRoot 0x1234 0x5000 0 pteW demoPhys).map Prod.fst = .ok 0 := by
      decide +kernel
    rw [run] at first
    cases first
    rfl
  subst zero
  have step : SpaceStep demoRoot demoPhys (.mapPages 0x1234 0x5000 0 pteW, 0) t :=
    ⟨⟨by decide, by decide⟩, run, fun _ _ _ _ _ => rfl⟩
  refine ⟨demoPhys_tree, t, step, ?_, ?_⟩
  · rintro ⟨a, low, high, -⟩
    exact absurd (Nat.lt_of_le_of_lt low high) (Nat.lt_irrefl _)
  · rw [(step.refines demoPhys_tree).2]
    decide +kernel

end ShipOS
