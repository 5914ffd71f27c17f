/-
**The page-table code (`paging.c`).**

`walk` and the mapping functions over physical memory: a page table is a page of 512 entries in the
same memory as the allocator's free list, and `walk` takes missing tables from that list. Addresses
are 64-bit words, so every sum and every rounding wraps where the C code does.

The TLB instruction `invlpg` and the log lines leave memory alone and do not appear. `rcr3()` is the
argument `cr3` of `kvminit` and `mapMmio`.
-/

import ShipOS.Memory.Kalloc
import ShipOS.Paging.Entry

namespace ShipOS

open ByteMem

/-! ### Walking -/

/-- `(va >> (12 + level * 9)) & 0x1FF`. -/
def levelIndex (va : Word) (level : Nat) : Word := (va >>> (12 + level * 9)) &&& 0x1FF#64

/-- `&tbl[level_index]`. -/
def entryAt (tbl va : Word) (level : Nat) : Word := slot tbl (levelIndex va level).toNat

/-- The entry `init_entry` writes for `addr`. -/
def tableEntry (addr : Word) : PageEntry where
  p := true
  rw := true
  us := false
  pwt := false
  pcd := false
  a := false
  d := false
  rsvd := false
  ign1 := 0
  address := (addr >>> 12) &&& 0xFFFFFFFFF#64
  ign2 := 0
  xd := false

def initEntry (mem : Mem) (rawEntry addr : Word) : Mem :=
  store64 mem rawEntry (encodePageEntry (tableEntry addr))

/-- The loop of `walk` from `level` down, and its final `return`. -/
def walkFrom (va : Word) (alloc : Bool) : Nat → Word → Phys → Word × Phys
  | 0, tbl, s => (entryAt tbl va 0, s)
  | level + 1, tbl, s =>
    let entryRaw := entryAt tbl va (level + 1)
    let entry := decodePageEntry (load64 s.mem entryRaw)
    if entry.p then walkFrom va alloc level (entry.address <<< 12) s
    else if alloc = false then (0, s)
    else
      let (tbl, s) := kalloc s
      if tbl = 0 then (0, s)
      else
        let mem := memset s.mem tbl 0 4096
        walkFrom va alloc level tbl { s with mem := initEntry mem entryRaw tbl }

/-- `walk`: the address of the leaf entry of `va`, or null. -/
def walk (tbl va : Word) (alloc : Bool) (s : Phys) : Word × Phys := walkFrom va alloc 3 tbl s

/-! ### Regions -/

/-- The entry of an identity-mapped page; `pcd` is the only difference between the two region
mappers. -/
def regionEntry (addr : Word) (pcd : Bool) : PageEntry where
  p := true
  rw := true
  us := false
  pwt := false
  pcd := pcd
  a := false
  d := false
  rsvd := false
  ign1 := 0
  address := (addr >>> 12) &&& 0xFFFFFFFFF#64
  ign2 := 0
  xd := false

/-- One round of a region mapper: a page whose walk fails is skipped. -/
def mapRegionPage (tbl : Word) (pcd : Bool) (addr : Word) (s : Phys) : Phys :=
  let (entryRaw, s) := walk tbl addr true s
  if entryRaw = 0 then s
  else { s with mem := store64 s.mem entryRaw (encodePageEntry (regionEntry addr pcd)) }

/-- `for (addr = base; addr < bound; addr += PGSIZE)`, identity mapping. -/
def mapRegion (tbl : Word) (pcd : Bool) (base bound : Word) (s : Phys) : Except Halt Phys :=
  forPages (fun addr => addr < bound) (fun addr s => .ok (mapRegionPage tbl pcd addr s)) pageFuel
    base s

def mapApicRegion (tbl apicBase : Word) (size : BitVec 32) (s : Phys) : Except Halt Phys :=
  mapRegion tbl true apicBase (apicBase + size.setWidth 64) s

def mapLowMemory (tbl start size : Word) (s : Phys) : Except Halt Phys :=
  mapRegion tbl false start (start + size) s

/-- One round of `kvminit`; a null entry is waited for in an empty loop. -/
def kvminitPage (tbl4 addr : Word) (s : Phys) : Except Halt Phys :=
  let (entryRaw, s) := walk tbl4 addr true s
  if entryRaw = 0 then .error .diverges
  else .ok { s with mem := initEntry s.mem entryRaw addr }

/-- `kvminit`, which returns the root it extended. -/
def kvminit (cr3 start stop : Word) (s : Phys) : Except Halt (Word × Phys) := do
  let s ← forPages (fun addr => addr + pgsize < stop) (kvminitPage cr3) pageFuel (pgroundup start) s
  .ok (cr3, s)

/-! ### Single pages -/

def pteW : BitVec 32 := 0x002

def pteU : BitVec 32 := 0x004

def ptePwt : BitVec 32 := 0x008

def ptePcd : BitVec 32 := 0x010

/-- The entry `map_page` writes. -/
def leafEntry (pa : Word) (flags : BitVec 32) : PageEntry where
  p := true
  rw := flags &&& pteW != 0
  us := flags &&& pteU != 0
  pwt := flags &&& ptePwt != 0
  pcd := flags &&& ptePcd != 0
  a := false
  d := false
  rsvd := false
  ign1 := 0
  address := (pa >>> 12) &&& 0xFFFFFFFFF#64
  ign2 := 0
  xd := false

def mapPage (tbl va pa : Word) (flags : BitVec 32) (s : Phys) : Int × Phys :=
  let va := pgrounddown va
  let pa := pgrounddown pa
  let (pte, s) := walk tbl va true s
  if pte = 0 then (-1, s)
  else
    let entry := decodePageEntry (load64 s.mem pte)
    if entry.p ∧ entry.address <<< 12 ≠ pa then (-1, s)
    else (0, { s with mem := store64 s.mem pte (encodePageEntry (leafEntry pa flags)) })

def unmapPage (tbl va : Word) (s : Phys) : Phys :=
  let va := pgrounddown va
  let (pte, s) := walk tbl va false s
  if pte = 0 then s
  else
    let entry := decodePageEntry (load64 s.mem pte)
    if entry.p = false then s
    else { s with mem := store64 s.mem pte 0 }

def vaToPa (tbl va : Word) (s : Phys) : Word :=
  let (pte, s) := walk tbl va false s
  if pte = 0 then 0
  else
    let entry := decodePageEntry (load64 s.mem pte)
    if entry.p = false then 0
    else (entry.address <<< 12) ||| (va &&& (pgsize - 1))

/-! ### Ranges -/

/-- `for (addr = start; addr < stop; addr += PGSIZE) unmap_page(tbl, addr)`. -/
def unmapLoop (tbl start stop : Word) (s : Phys) : Except Halt Phys :=
  forPages (fun addr => addr < stop) (fun addr s => .ok (unmapPage tbl addr s)) pageFuel start s

def unmapPages (tbl va size : Word) (s : Phys) : Except Halt Phys :=
  unmapLoop tbl (pgrounddown va) (pgroundup (va + size)) s

/-- The loop of `map_pages`; a page that cannot be mapped unmaps the range up to it and returns. -/
def mapPagesLoop (tbl vaStart vaEnd : Word) (flags : BitVec 32) :
    Nat → Word → Word → Phys → Except Halt (Int × Phys)
  | 0, _, _, _ => .error .diverges
  | fuel + 1, addr, paCur, s =>
    if addr < vaEnd then
      let (result, s) := mapPage tbl addr paCur flags s
      if result ≠ 0 then do
        let s ← unmapLoop tbl vaStart addr s
        .ok (-1, s)
      else mapPagesLoop tbl vaStart vaEnd flags fuel (addr + pgsize) (paCur + pgsize) s
    else .ok (0, s)

def mapPages (tbl va pa size : Word) (flags : BitVec 32) (s : Phys) : Except Halt (Int × Phys) :=
  let vaStart := pgrounddown va
  let vaEnd := pgroundup (va + size)
  mapPagesLoop tbl vaStart vaEnd flags pageFuel vaStart (pgrounddown pa) s

def mapMmio (cr3 pa size : Word) (s : Phys) : Except Halt (Word × Phys) := do
  let paAligned := pgrounddown pa
  let offset := pa - paAligned
  let mapSize := size + offset
  let (result, s) ← mapPages cr3 paAligned paAligned mapSize (pteW ||| ptePcd) s
  if result ≠ 0 then .ok (0, s) else .ok (pa, s)

end ShipOS
