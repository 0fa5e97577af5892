import FastIpc.Kernel.Proc

/-!
# Loading a program

The function `exec` of `kernel/exec.c`.  A file is the list of its bytes; what
the file system does to find and read it is not modelled here, and neither is the copy of
the arguments into kernel memory.
-/

namespace FastIpc
namespace Kernel

open Foundation

/-- Read from a file; offset and length are 32-bit numbers. -/
def readi (file : List (BitVec 8)) (off n : Nat) : List (BitVec 8) :=
  if file.length < off ∨ 2 ^ 32 ≤ off + n then [] else (file.drop off).take n

/-- A field of a header. -/
def fieldAt (header : List (BitVec 8)) (off n : Nat) : Nat :=
  Memory.readLE (fun x => header.getD x 0) off n

/-- The size of `struct elfhdr`. -/
def elfhdrSize : Nat := 64

/-- The first word of a program file, `ELF_MAGIC`. -/
def elfMagic : Nat := 0x464C457F

/-- The size of `struct proghdr`. -/
def proghdrSize : Nat := 56

/-- The type of a segment to load, `ELF_PROG_LOAD`. -/
def elfProgLoad : Nat := 1

/-- The most arguments a program may have, `MAXARG`. -/
def maxArg : Nat := 32

/-- The loop of `loadseg` over the remaining pages. -/
def loadsegLoop (pagetable va : Nat) (file : List (BitVec 8)) (offset sz : Nat) :
    Nat → Nat → RamM Int
  | 0, _ => return 0
  | rounds + 1, i => do
    let pa ← walkaddr pagetable (va + i)
    if pa = 0 then
      throw (.panic "loadseg: address should exist")
    else
      let n := min (sz - i) pgSize
      let bytes := readi file ((offset + i) % 2 ^ 32) n
      storeBytes pa bytes
      if bytes.length ≠ n then
        return -1
      else
        loadsegLoop pagetable va file offset sz rounds (i + pgSize)

/-- Load a segment of a file to the mapped pages from `va` on. -/
def loadseg (pagetable va : Nat) (file : List (BitVec 8)) (offset sz : Nat) : RamM Int :=
  if va % pgSize ≠ 0 then
    throw (.panic "loadseg: va must be page aligned")
  else
    loadsegLoop pagetable va file offset sz ((sz + pgSize - 1) / pgSize) 0

/-- The loop of `exec` over the remaining program headers: whether all could be loaded,
and the size of user memory then. -/
def loadSegments (im : Image) (pagetable : Nat) (file : List (BitVec 8)) :
    Nat → Nat → Nat → RamM (Bool × Nat)
  | 0, _, sz => return (true, sz)
  | n + 1, off, sz => do
    let ph := readi file off proghdrSize
    let vaddr := fieldAt ph 16 8
    let filesz := fieldAt ph 32 8
    let memsz := fieldAt ph 40 8
    if ph.length ≠ proghdrSize then
      return (false, sz)
    else if fieldAt ph 0 4 ≠ elfProgLoad then
      loadSegments im pagetable file n ((off + proghdrSize) % 2 ^ 32) sz
    else if memsz < filesz then
      return (false, sz)
    else if 2 ^ 64 ≤ vaddr + memsz then
      return (false, sz)
    else
      let sz1 ← uvmalloc im pagetable sz (vaddr + memsz)
      if sz1 = 0 then
        return (false, sz)
      else if vaddr % pgSize ≠ 0 then
        return (false, sz1)
      else if (← loadseg pagetable vaddr file (fieldAt ph 8 8 % 2 ^ 32) (filesz % 2 ^ 32)) < 0 then
        return (false, sz1)
      else
        loadSegments im pagetable file n ((off + proghdrSize) % 2 ^ 32) sz1

/-- The loop of `exec` over the remaining arguments: the stack pointer and the addresses
of the strings.  Every string begins at a page of the kernel, so `mymemmove` leaves out
what does not fill a word at its end. -/
def pushArgs (pagetable stackbase : Nat) :
    List CString → Nat → List Nat → RamM (Option (Nat × List Nat))
  | [], sp, ustack => return some (sp, ustack)
  | arg :: argv, sp, ustack => do
    if maxArg ≤ ustack.length then
      return none
    else
      let sp := sp - (arg.bytes.length + 1)
      let sp := sp - sp % 16
      if sp < stackbase then
        return none
      else if (← copyout pagetable sp 0 (arg.bytes ++ [0])) < 0 then
        return none
      else
        pushArgs pagetable stackbase argv sp (ustack ++ [sp])

/-- A program that is ready to run. -/
structure Program where
  entry : Nat
  sp : Nat
  argc : Nat

/-- The user stack of a program: two pages, of which the lower one is taken away from user
code, with the arguments.  `none` if they do not fit. -/
def setupStack (pagetable sz : Nat) (argv : List CString) : RamM (Option (Nat × Nat)) := do
  uvmclear pagetable (sz - 2 * pgSize)
  let stackbase := sz - pgSize
  match ← pushArgs pagetable stackbase argv sz [] with
  | none => return none
  | some (sp, ustack) =>
    let sp := sp - (ustack.length + 1) * 8
    let sp := sp - sp % 16
    if sp < stackbase then
      return none
    else if (← copyout pagetable sp 0 ((ustack ++ [0]).flatMap wordBytes)) < 0 then
      return none
    else
      return some (sp, ustack.length)

/-- The part of `exec` that builds a program in an empty page table: the size of user
memory, and the program unless something failed. -/
def execBuild (im : Image) (pagetable : Nat) (elf file : List (BitVec 8)) (argv : List CString) :
    RamM (Nat × Option Program) := do
  let (loaded, sz) ← loadSegments im pagetable file (fieldAt elf 56 2) (fieldAt elf 32 8 % 2 ^ 32) 0
  if ¬loaded then
    return (sz, none)
  else
    let sz := pgRoundUp sz
    let sz1 ← uvmalloc im pagetable sz (sz + 2 * pgSize)
    if sz1 = 0 then
      return (sz, none)
    else
      match ← setupStack pagetable sz1 argv with
      | none => return (sz1, none)
      | some (sp, argc) => return (sz1, some ⟨fieldAt elf 24 8, sp, argc⟩)

/-- The commit of `exec`: switch to the new image and free the old one. -/
def execCommit (im : Image) (p : ProcId) (pagetable sz : Nat) (prog : Program) :
    KernelM Unit := do
  let q := (← get).proc p
  onRam (storeWord (q.trapframe + tfA1) prog.sp)
  modify fun k => k.setProc p fun q => { q with pagetable := pagetable, sz := sz }
  onRam (storeWord (q.trapframe + tfEpc) prog.entry)
  onRam (storeWord (q.trapframe + tfSp) prog.sp)
  onRam (procFreepagetable im q.pagetable q.sz)

/-- Whether a file has the header of a program. -/
def isProgram (file : Option (List (BitVec 8))) : Bool :=
  match file with
  | none => false
  | some file =>
    let elf := readi file 0 elfhdrSize
    elf.length = elfhdrSize ∧ fieldAt elf 0 4 = elfMagic

/-- Replace the image of the caller by the program in a file, which may not exist. -/
def exec (im : Image) (p : ProcId) (file : Option (List (BitVec 8))) (argv : List CString) :
    KernelM Int := do
  match file with
  | none => return -1
  | some file =>
    let elf := readi file 0 elfhdrSize
    if elf.length ≠ elfhdrSize then
      return -1
    else if fieldAt elf 0 4 ≠ elfMagic then
      return -1
    else
      let pagetable ← onRam (procPagetable im ((← get).proc p).trapframe)
      if pagetable = 0 then
        return -1
      else
        match ← onRam (execBuild im pagetable elf file argv) with
        | (sz, none) =>
          onRam (procFreepagetable im pagetable sz)
          return -1
        | (sz, some prog) =>
          execCommit im p pagetable sz prog
          return prog.argc

end Kernel
end FastIpc
