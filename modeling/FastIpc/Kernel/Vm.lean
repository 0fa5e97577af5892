import FastIpc.Kernel.Kalloc
import FastIpc.Kernel.Copying

/-!
# Page tables

The functions of `kernel/vm.c` that build, change, copy and free user page
tables.  A page table is a tree of three levels of pages, each of 512 entries of 64
bits, that live in physical memory like everything else; addresses are the ones the
source computes, and a null pointer is `none` or `0` as the source tests
for it.
-/

namespace FastIpc
namespace Kernel

open Foundation

/-! ## Page-table entries and addresses -/

/-- Valid. -/
def pteV : Nat := 1 <<< 0

/-- Readable. -/
def pteR : Nat := 1 <<< 1

/-- Writable. -/
def pteW : Nat := 1 <<< 2

/-- Executable. -/
def pteX : Nat := 1 <<< 3

/-- Accessible to user code. -/
def pteU : Nat := 1 <<< 4

/-- Shift a physical address to its place in an entry, `PA2PTE`. -/
def pa2pte (pa : Nat) : Nat := (pa >>> 12) <<< 10

/-- The physical address in an entry, `PTE2PA`, in 64-bit arithmetic. -/
def pte2pa (pte : Nat) : Nat := ((pte >>> 10) <<< 12) % 2 ^ 64

/-- The flag bits of an entry, `PTE_FLAGS`. -/
def pteFlags (pte : Nat) : Nat := pte &&& 0x3FF

/-- The nine index bits of an address for one level of the tree, `PX`. -/
def px (level va : Nat) : Fin 512 := Fin.ofNat 512 (va >>> (12 + 9 * level))

/-- One beyond the highest virtual address, `MAXVA`. -/
def maxVA : Nat := 1 <<< (9 + 9 + 9 + 12 - 1)

/-- The page of the trap code, the highest one. -/
def trampolineVA : Nat := maxVA - pgSize

/-- The page of a process's trap frame. -/
def trapframeVA : Nat := trampolineVA - pgSize

/-! ## Memory accesses -/

/-- Load a 64-bit word. -/
def loadWord (a : Nat) : RamM Nat := fun s =>
  .ok (s.mem.readLE a 8, s)

/-- Store a 64-bit word. -/
def storeWord (a w : Nat) : RamM Unit := fun s =>
  .ok ((), { s with mem := s.mem.writeLE a 8 w })

/-- Set a page to zero. -/
def zeroPage (pa : Nat) : RamM Unit := fun s =>
  .ok ((), { s with mem := s.mem.fill pa pgSize 0 })

/-- Store bytes at a physical address. -/
def storeBytes (pa : Nat) (bytes : List (BitVec 8)) : RamM Unit := fun s =>
  .ok ((), { s with mem := s.mem.blit pa bytes })

/-- Copy bytes between two physical addresses that do not overlap. -/
def moveBytes (dst src n : Nat) : RamM Unit := fun s =>
  .ok ((), { s with mem := s.mem.move dst src n })

/-! ## Walking and changing a page table -/

/-- The loop of `walk`: go down from `level` and give the address of the
entry for `va`. -/
def walkFrom (va : Nat) (alloc : Bool) : Nat → Nat → RamM (Option Nat)
  | 0, pagetable => return some (pagetable + 8 * px 0 va)
  | level + 1, pagetable => do
    let pte := pagetable + 8 * px (level + 1) va
    let entry ← loadWord pte
    if entry &&& pteV ≠ 0 then
      walkFrom va alloc level (pte2pa entry)
    else if alloc then
      let page ← kalloc
      if page = 0 then
        return none
      else
        zeroPage page
        storeWord pte (pa2pte page ||| pteV)
        walkFrom va alloc level page
    else
      return none

/-- The address of the entry for `va`, with missing page-table pages created if
`alloc` is set. -/
def walk (pagetable va : Nat) (alloc : Bool) : RamM (Option Nat) :=
  if maxVA ≤ va then
    throw (.panic "walk")
  else
    walkFrom va alloc 2 pagetable

/-- The physical address of a user page, or `0`. -/
def walkaddr (pagetable va : Nat) : RamM Nat := do
  if maxVA ≤ va then
    return 0
  else
    match ← walk pagetable va false with
    | none => return 0
    | some pte =>
      let entry ← loadWord pte
      if entry &&& pteV = 0 then
        return 0
      else if entry &&& pteU = 0 then
        return 0
      else
        return pte2pa entry

/-- The loop of `mappages`, with `n` more pages after the current one. -/
def mapLoop (pagetable perm : Nat) : Nat → Nat → Nat → RamM Int
  | n, a, pa => do
    match ← walk pagetable a true with
    | none => return -1
    | some pte =>
      let entry ← loadWord pte
      if entry &&& pteV ≠ 0 then
        throw (.panic "remap")
      else
        storeWord pte (pa2pte pa ||| perm ||| pteV)
        match n with
        | 0 => return 0
        | n + 1 => mapLoop pagetable perm n (a + pgSize) (pa + pgSize)

/-- Map the pages of `[va, va + size)`, for a positive size, to the physical pages
from `pa` on. -/
def mappages (pagetable va size pa perm : Nat) : RamM Int :=
  mapLoop pagetable perm ((pgRoundDown (va + size - 1) - pgRoundDown va) / pgSize)
    (pgRoundDown va) pa

/-- The body of the loop of `uvmunmap`: remove the mapping of one page. -/
def unmapPage (im : Image) (pagetable : Nat) (doFree : Bool) (a : Nat) : RamM Unit := do
  match ← walk pagetable a false with
  | none => throw (.panic "uvmunmap: walk")
  | some pte =>
    let entry ← loadWord pte
    if entry &&& pteV = 0 then
      throw (.panic "uvmunmap: not mapped")
    else if pteFlags entry = pteV then
      throw (.panic "uvmunmap: not a leaf")
    else
      if doFree then
        kfree im (pte2pa entry)
      storeWord pte 0

/-- The loop of `uvmunmap` over the remaining pages. -/
def unmapLoop (im : Image) (pagetable : Nat) (doFree : Bool) : Nat → Nat → RamM Unit
  | 0, _ => return ()
  | n + 1, a => do
    unmapPage im pagetable doFree a
    unmapLoop im pagetable doFree n (a + pgSize)

/-- Remove the mappings of `npages` pages from `va` on, which must exist. -/
def uvmunmap (im : Image) (pagetable va npages : Nat) (doFree : Bool) : RamM Unit :=
  if va % pgSize ≠ 0 then
    throw (.panic "uvmunmap: not aligned")
  else
    unmapLoop im pagetable doFree npages va

/-! ## User memory -/

/-- An empty page table, or `0`. -/
def uvmcreate : RamM Nat := do
  let pagetable ← kalloc
  if pagetable = 0 then
    return 0
  else
    zeroPage pagetable
    return pagetable

/-- Load the first program into page 0.  The result of `kalloc` is not tested: a
null page is written through and traps. -/
def uvminit (pagetable : Nat) (src : List (BitVec 8)) : RamM Unit := do
  if pgSize ≤ src.length then
    throw (.panic "inituvm: more than a page")
  else
    let mem ← kalloc
    if mem = 0 then
      throw (.panic "kerneltrap")
    else
      zeroPage mem
      let _ ← mappages pagetable 0 pgSize mem (pteW ||| pteR ||| pteX ||| pteU)
      storeBytes mem src

/-- Take user pages away so that the size goes from `oldsz` to `newsz`. -/
def uvmdealloc (im : Image) (pagetable oldsz newsz : Nat) : RamM Nat := do
  if oldsz ≤ newsz then
    return oldsz
  else
    if pgRoundUp newsz < pgRoundUp oldsz then
      uvmunmap im pagetable (pgRoundUp newsz) ((pgRoundUp oldsz - pgRoundUp newsz) / pgSize) true
    return newsz

/-- The loop of `uvmalloc` over the remaining pages; `false` if one failed. -/
def allocLoop (im : Image) (pagetable oldsz : Nat) : Nat → Nat → RamM Bool
  | 0, _ => return true
  | n + 1, a => do
    let mem ← kalloc
    if mem = 0 then
      let _ ← uvmdealloc im pagetable a oldsz
      return false
    else
      zeroPage mem
      if (← mappages pagetable a pgSize mem (pteW ||| pteX ||| pteR ||| pteU)) ≠ 0 then
        kfree im mem
        let _ ← uvmdealloc im pagetable a oldsz
        return false
      else
        allocLoop im pagetable oldsz n (a + pgSize)

/-- Give the process zeroed pages so that its size goes from `oldsz` to
`newsz`; the new size, or `0`. -/
def uvmalloc (im : Image) (pagetable oldsz newsz : Nat) : RamM Nat := do
  if newsz < oldsz then
    return oldsz
  else
    let start := pgRoundUp oldsz
    if ← allocLoop im pagetable start ((newsz - start + pgSize - 1) / pgSize) start then
      return newsz
    else
      return 0

/-- The loop of `freewalk` over the entries from `i` on. -/
def freewalkEntries (child : Nat → RamM Unit) (pagetable : Nat) : Nat → Nat → RamM Unit
  | 0, _ => return ()
  | n + 1, i => do
    let pte ← loadWord (pagetable + 8 * i)
    if pte &&& pteV ≠ 0 ∧ pte &&& (pteR ||| pteW ||| pteX) = 0 then
      child (pte2pa pte)
      storeWord (pagetable + 8 * i) 0
    else if pte &&& pteV ≠ 0 then
      throw (.panic "freewalk: leaf")
    freewalkEntries child pagetable n (i + 1)

/-- Free the page-table pages of a tree from which all leaves have been removed.  The
first argument bounds the recursion depth. -/
def freewalk (im : Image) : Nat → Nat → RamM Unit
  | 0, _ => throw .stackOverflow
  | depth + 1, pagetable => do
    freewalkEntries (freewalk im depth) pagetable 512 0
    kfree im pagetable

/-- The calls of `freewalk` that one page of kernel stack holds, more than any tree
of three levels needs. -/
def kernelStackDepth : Nat := 32

/-- Free user memory of `sz` bytes and the page table. -/
def uvmfree (im : Image) (pagetable sz : Nat) : RamM Unit := do
  if 0 < sz then
    uvmunmap im pagetable 0 (pgRoundUp sz / pgSize) true
  freewalk im kernelStackDepth pagetable

/-- The loop of `uvmcopy` over the remaining pages. -/
def copyLoop (im : Image) (old new : Nat) : Nat → Nat → RamM Int
  | 0, _ => return 0
  | n + 1, i => do
    match ← walk old i false with
    | none => throw (.panic "uvmcopy: pte should exist")
    | some pte =>
      let entry ← loadWord pte
      if entry &&& pteV = 0 then
        throw (.panic "uvmcopy: page not present")
      else
        let mem ← kalloc
        if mem = 0 then
          uvmunmap im new 0 (i / pgSize) true
          return -1
        else
          moveBytes mem (pte2pa entry) pgSize
          if (← mappages new i pgSize mem (pteFlags entry)) ≠ 0 then
            kfree im mem
            uvmunmap im new 0 (i / pgSize) true
            return -1
          else
            copyLoop im old new n (i + pgSize)

/-- Copy `sz` bytes of user memory into another page table. -/
def uvmcopy (im : Image) (old new sz : Nat) : RamM Int :=
  copyLoop im old new ((sz + pgSize - 1) / pgSize) 0

/-- Take a page away from user code. -/
def uvmclear (pagetable va : Nat) : RamM Unit := do
  match ← walk pagetable va false with
  | none => throw (.panic "uvmclear")
  | some pte =>
    let entry ← loadWord pte
    storeWord pte (entry &&& (2 ^ 64 - 1 - pteU))

/-- `mymemmove` from a buffer of the kernel at `src`. -/
def copyBytes (pa src : Nat) (bytes : List (BitVec 8)) : RamM Unit := fun s =>
  .ok ((), { s with mem := mymemmoveFrom s.mem pa src bytes })

/-- The loop of `copyout`; every round takes at least one byte, so the number of
bytes bounds the rounds. -/
def copyoutLoop (pagetable : Nat) : Nat → Nat → Nat → List (BitVec 8) → RamM Int
  | 0, _, _, _ => return 0
  | rounds + 1, dstva, src, bytes => do
    if bytes.length = 0 then
      return 0
    else
      let va0 := pgRoundDown dstva
      let pa0 ← walkaddr pagetable va0
      if pa0 = 0 then
        return -1
      else
        let n := min (pgSize - (dstva - va0)) bytes.length
        copyBytes (pa0 + (dstva - va0)) src (bytes.take n)
        copyoutLoop pagetable rounds (va0 + pgSize) (src + n) (bytes.drop n)

/-- Copy the bytes of a kernel buffer at `src` to a user address.  Only the alignment of
`src` matters; 0 stands for a buffer at a word boundary. -/
def copyout (pagetable dstva src : Nat) (bytes : List (BitVec 8)) : RamM Int :=
  copyoutLoop pagetable bytes.length dstva src bytes

end Kernel
end FastIpc
