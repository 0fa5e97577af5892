import FastIpc.Kernel.Arguments
import FastIpc.Kernel.Machine

/-!
# Open files

The file table of `kernel/file.c`, the descriptors of the processes, and the system
calls of `kernel/sysfile.c` that make, copy and close them, over the kernel state with
its physical pages.  A pipe is known by the address of its page; of its fields only the two
that tell which ends are open matter here, what is read from and written to it does not.
What `create` and `namei` find is part of the call of `sys_open`; inodes are
not modelled here.

Calls are atomic.  Beside the state of the source the model records the pages that
`pipealloc` has taken and those that `pipeclose` has given back.
-/

namespace FastIpc
namespace Files

open Foundation Kernel

/-! ## State -/

/-- Entries of the file table, `NFILE`. -/
abbrev nfile : Nat := 100

/-- Open files per process, `NOFILE`. -/
abbrev nofile : Nat := 16

/-- Major device numbers, `NDEV`. -/
def ndev : Nat := 10

/-- An index into the file table; a pointer to a `struct file`. -/
abbrev FileId := Fin nfile

/-- A file descriptor. -/
abbrev Fd := Fin nofile

/-- The types of open files: `FD_NONE`, `FD_PIPE`, `FD_INODE` and
`FD_DEVICE`. -/
inductive FileType where
  | none
  | pipe
  | inode
  | device
  deriving DecidableEq, Repr

/-- `struct file`; pipes and inodes are known by their addresses. -/
structure File where
  type : FileType
  ref : Int
  readable : Bool
  writable : Bool
  pipe : Nat
  ip : Nat
  off : Nat
  major : Int

/-- An entry of the file table at boot. -/
def File.zero : File where
  type := .none
  ref := 0
  readable := false
  writable := false
  pipe := 0
  ip := 0
  off := 0
  major := 0

/-- `struct pipe`: whether its ends are open. -/
structure Pipe where
  readopen : Bool
  writeopen : Bool

/-- Whether the end that a file with this `writable` field stands for is open. -/
def Pipe.isOpen (q : Pipe) (writable : Bool) : Bool := if writable then q.writeopen else q.readopen

/-- Close an end of a pipe. -/
def Pipe.closed (q : Pipe) (writable : Bool) : Pipe :=
  if writable then { q with writeopen := false } else { q with readopen := false }

/-- The kernel with its file table. -/
structure State where
  kernel : KernelState
  file : FileId → File
  ofile : ProcId → Fd → Option FileId
  pipe : Nat → Pipe
  pipesMade : List Nat
  pipesFreed : List Nat

/-- No file is open. -/
def State.start (k : KernelState) : State where
  kernel := k
  file _ := .zero
  ofile _ _ := none
  pipe _ := ⟨false, false⟩
  pipesMade := []
  pipesFreed := []

/-- Code that works on the file table. -/
abbrev FileM := FaultM Fault State

/-- Run code that only works on the kernel state. -/
def onKernel {α : Type} (x : KernelM α) : FileM α :=
  FaultM.zoom State.kernel (fun k s => { s with kernel := k }) x

namespace State

/-- Change one entry of the file table. -/
def setFile (s : State) (f : FileId) (g : File → File) : State :=
  { s with file := Function.update s.file f (g (s.file f)) }

/-- Set one descriptor of a process. -/
def setFd (s : State) (p : ProcId) (fd : Fd) (f : Option FileId) : State :=
  { s with ofile := Function.update s.ofile p (Function.update (s.ofile p) fd f) }

/-- Change one pipe. -/
def setPipe (s : State) (pi : Nat) (g : Pipe → Pipe) : State :=
  { s with pipe := Function.update s.pipe pi (g (s.pipe pi)) }

end State

/-! ## The file table -/

/-- Take the first unused entry of the file table. -/
def filealloc : FileM (Option FileId) := do
  let s ← get
  match (List.finRange nfile).find? fun f => (s.file f).ref = 0 with
  | none => return none
  | some f =>
    modify fun s => s.setFile f fun q => { q with ref := 1 }
    return some f

/-- Count one more reference to a file. -/
def filedup (f : FileId) : FileM Unit := do
  if ((← get).file f).ref < 1 then
    throw (.panic "filedup")
  else
    modify fun s => s.setFile f fun q => { q with ref := q.ref + 1 }

/-- Close one end of a pipe, and free its page if the other end is closed too. -/
def pipeclose (im : Image) (pi : Nat) (writable : Bool) : FileM Unit := do
  modify fun s => s.setPipe pi fun q => q.closed writable
  let q := (← get).pipe pi
  if q.readopen = false ∧ q.writeopen = false then
    onKernel (onRam (kfree im pi))
    modify fun s => { s with pipesFreed := pi :: s.pipesFreed }

/-- Drop a reference to a file, and close the file if it was the last one.  What is done to
the inode of a file that is not a pipe is not modelled. -/
def fileclose (im : Image) (f : FileId) : FileM Unit := do
  let ff := (← get).file f
  if ff.ref < 1 then
    throw (.panic "fileclose")
  else if 0 < ff.ref - 1 then
    modify fun s => s.setFile f fun q => { q with ref := q.ref - 1 }
  else
    modify fun s => s.setFile f fun q => { q with ref := 0, type := .none }
    if ff.type = .pipe then
      pipeclose im ff.pipe ff.writable

/-- Make a pipe and a file for each of its ends.  When a step fails the page has not been
allocated yet. -/
def pipealloc (im : Image) : FileM (Option (FileId × FileId)) := do
  match ← filealloc with
  | none => return none
  | some f0 =>
    match ← filealloc with
    | none =>
      fileclose im f0
      return none
    | some f1 =>
      let pi ← onKernel (onRam kalloc)
      if pi = 0 then
        fileclose im f0
        fileclose im f1
        return none
      else
        modify fun s => { s.setPipe pi fun _ => ⟨true, true⟩ with
          pipesMade := pi :: s.pipesMade }
        modify fun s => s.setFile f0 fun q =>
          { q with type := .pipe, readable := true, writable := false, pipe := pi }
        modify fun s => s.setFile f1 fun q =>
          { q with type := .pipe, readable := false, writable := true, pipe := pi }
        return some (f0, f1)

/-! ## Descriptors -/

/-- The file of a descriptor of the caller. -/
def argfd (p : ProcId) (fd : Int) : FileM (Option (Fd × FileId)) := do
  let s ← get
  if h : 0 ≤ fd ∧ fd.toNat < nofile then
    return (s.ofile p ⟨fd.toNat, h.2⟩).map fun f => (⟨fd.toNat, h.2⟩, f)
  else
    return none

/-- Let the first free descriptor of the caller refer to a file. -/
def fdalloc (p : ProcId) (f : FileId) : FileM (Option Fd) := do
  let s ← get
  match (List.finRange nofile).find? fun fd => s.ofile p fd = none with
  | none => return none
  | some fd =>
    modify fun s => s.setFd p fd (some f)
    return some fd

/-- Copy a descriptor. -/
def sysDup (p : ProcId) (fd : Int) : FileM Int := do
  match ← argfd p fd with
  | none => return -1
  | some (_, f) =>
    match ← fdalloc p f with
    | none => return -1
    | some fd =>
      filedup f
      return fd.val

/-- Close a descriptor. -/
def sysClose (im : Image) (p : ProcId) (fd : Int) : FileM Int := do
  match ← argfd p fd with
  | none => return -1
  | some (fd, f) =>
    modify fun s => s.setFd p fd none
    fileclose im f
    return 0

/-- The end of the two ways out of `sys_pipe` that fail. -/
def closeBoth (im : Image) (rf wf : FileId) : FileM Int := do
  fileclose im rf
  fileclose im wf
  return -1

/-- Copy the two descriptors of a new pipe to the caller. -/
def copyoutFds (p : ProcId) (fdarray : Nat) (fd0 fd1 : Fd) : KernelM Int := do
  let pagetable := ((← get).proc p).pagetable
  if (← onRam (copyout pagetable fdarray 0 (intBytes fd0.val))) < 0 then
    return -1
  else
    onRam (copyout pagetable ((fdarray + 4) % 2 ^ 64) 0 (intBytes fd1.val))

/-- Make a pipe and store its two descriptors at a user address. -/
def sysPipe (im : Image) (p : ProcId) (fdarray : Nat) : FileM Int := do
  match ← pipealloc im with
  | none => return -1
  | some (rf, wf) =>
    match ← fdalloc p rf with
    | none => closeBoth im rf wf
    | some fd0 =>
      match ← fdalloc p wf with
      | none =>
        modify fun s => s.setFd p fd0 none
        closeBoth im rf wf
      | some fd1 =>
        if (← onKernel (copyoutFds p fdarray fd0 fd1)) < 0 then
          modify fun s => s.setFd p fd0 none
          modify fun s => s.setFd p fd1 none
          closeBoth im rf wf
        else
          return 0

/-- The types of inodes: `T_DIR`, `T_FILE` and `T_DEVICE`. -/
inductive InodeType where
  | dir
  | file
  | device
  deriving DecidableEq, Repr

/-- What `sys_open` reads of the inode it opens. -/
structure Inode where
  ip : Nat
  type : InodeType
  major : Int

/-- Bits of the mode of `sys_open`. -/
def oRdonly : Nat := 0x000

/-- Write only. -/
def oWronly : Nat := 0x001

/-- Read and write. -/
def oRdwr : Nat := 0x002

/-- Create the file if it does not exist. -/
def oCreate : Nat := 0x200

/-- Whether `sys_open` refuses an inode: a directory to be written to, or a device with a
number out of range. -/
def refused (ip : Inode) (omode : Nat) : Bool :=
  (omode &&& oCreate = 0 ∧ ip.type = .dir ∧ omode ≠ oRdonly) ∨
    (ip.type = .device ∧ (ip.major < 0 ∨ (ndev : Int) ≤ ip.major))

/-- Fill in the file of a newly opened inode. -/
def File.opened (q : File) (ip : Inode) (omode : Nat) : File :=
  { (if ip.type = .device then { q with type := .device, major := ip.major }
      else { q with type := .inode, off := 0 }) with
    ip := ip.ip
    readable := decide (omode &&& oWronly = 0)
    writable := decide (omode &&& oWronly ≠ 0 ∨ omode &&& oRdwr ≠ 0) }

/-- Open the inode that `create` or `namei` has found, if any. -/
def sysOpen (im : Image) (p : ProcId) (ip : Option Inode) (omode : Nat) : FileM Int := do
  match ip with
  | none => return -1
  | some ip =>
    if refused ip omode then
      return -1
    else
      match ← filealloc with
      | none => return -1
      | some f =>
        match ← fdalloc p f with
        | none =>
          fileclose im f
          return -1
        | some fd =>
          modify fun s => s.setFile f fun q => q.opened ip omode
          return fd.val

/-! ## Processes -/

/-- The loop of `fork` over the descriptors of the parent. -/
def dupFiles (p np : ProcId) : List Fd → FileM Unit
  | [] => return ()
  | fd :: fds => do
    match (← get).ofile p fd with
    | none => dupFiles p np fds
    | some f =>
      filedup f
      modify fun s => s.setFd np fd (some f)
      dupFiles p np fds

/-- Create a child that shares the open files of the caller. -/
def sysFork (im : Image) (p : ProcId) : FileM Int := do
  let s ← get
  let pid ← onKernel (Kernel.fork im p)
  -- The child is the entry that `allocproc` has found.
  match (List.finRange nproc).find? fun q => (s.kernel.proc q).state = .unused with
  | none => return pid
  | some np =>
    dupFiles p np (List.finRange nofile)
    return pid

/-- The loop of `exit` over the descriptors of the caller. -/
def closeFiles (im : Image) (p : ProcId) : List Fd → FileM Unit
  | [] => return ()
  | fd :: fds => do
    match (← get).ofile p fd with
    | none => closeFiles im p fds
    | some f =>
      fileclose im f
      modify fun s => s.setFd p fd none
      closeFiles im p fds

/-- Close the files of the caller and end it. -/
def sysExit (im : Image) (p : ProcId) (status : Int) : FileM Unit := do
  if (← get).kernel.initproc = some p then
    throw (.panic "init exiting")
  else
    closeFiles im p (List.finRange nofile)
    onKernel (Kernel.exit p status)

/-! ## Runs -/

/-- A system call with its arguments. -/
inductive Call where
  | sysOpen (ip : Option Inode) (omode : Nat)
  | sysDup (fd : Int)
  | sysPipe (fdarray : Nat)
  | sysClose (fd : Int)
  | sysFork
  | sysExec (file : Option (List (BitVec 8))) (uargv : Nat)
  | sysSbrk (n : Int)
  | sysExit (status : Int)
  | sysWait (addr : Nat)

/-- Serve a call of process `p`; no result if the call does not return yet. -/
def Call.serve (im : Image) (p : ProcId) : Call → FileM (Option Int)
  | .sysOpen ip omode => do return some (← Files.sysOpen im p ip omode)
  | .sysDup fd => do return some (← Files.sysDup p fd)
  | .sysPipe fdarray => do return some (← Files.sysPipe im p fdarray)
  | .sysClose fd => do return some (← Files.sysClose im p fd)
  | .sysFork => do return some (← Files.sysFork im p)
  | .sysExec file uargv => do return some (← onKernel (Kernel.sysExec im p file uargv))
  | .sysSbrk n => do return some (← onKernel (Kernel.sbrk im p n))
  | .sysExit status => do Files.sysExit im p status; return none
  | .sysWait addr => onKernel (Kernel.wait im p addr)

/-- A call of a process, and the page allocations in it that fail. -/
structure Event where
  proc : ProcId
  call : Call
  fails : List Bool

/-- Choose the page allocations that fail. -/
def State.withFails (s : State) (fails : List Bool) : State :=
  { s with kernel := s.kernel.withFails fails }

/-- Serve the call of a process that is ready to run; none if it stops the machine. -/
def perform (im : Image) (s : State) (ev : Event) : Option (Option Int × State) :=
  if (s.kernel.proc ev.proc).state = .runnable then
    match ev.call.serve im ev.proc (s.withFails ev.fails) with
    | .ok done => some done
    | .error _ => none
  else
    none

/-- One step of the system. -/
def step (im : Image) (s : State) (ev : Event) : Option State := (perform im s ev).map Prod.snd

/-! ## Changing one component -/

theorem onKernel_of_ok {α : Type} {x : KernelM α} {s : State} {a : α} {k : KernelState}
    (h : x s.kernel = .ok (a, k)) : onKernel x s = .ok (a, { s with kernel := k }) :=
  FaultM.zoom_of_ok h

theorem onKernel_of_error {α : Type} {x : KernelM α} {s : State} {e : Fault}
    (h : x s.kernel = .error e) : onKernel x s = .error e := by
  simp [onKernel, FaultM.zoom, h]

namespace State

variable (s : State) (p : ProcId) (fd : Fd) (f : FileId) (g : File → File) (v : Option FileId)

@[simp]
theorem setFile_same : (s.setFile f g).file f = g (s.file f) := Function.update_self ..

@[simp]
theorem setFile_ne {f' : FileId} (h : f' ≠ f) : (s.setFile f g).file f' = s.file f' :=
  Function.update_of_ne h ..

/-- A change of a file that keeps its reference count. -/
theorem setFile_ref {f : FileId} {g : File → File} (hg : (g (s.file f)).ref = (s.file f).ref)
    (f' : FileId) : ((s.setFile f g).file f').ref = (s.file f').ref := by
  by_cases hf : f' = f
  · rw [hf, setFile_same, hg]
  · rw [setFile_ne _ _ _ hf]

/-- All descriptors of all processes. -/
def slots (i : ProcId × Fd) : Option FileId := s.ofile i.1 i.2

theorem setFd_slots : (s.setFd p fd v).slots = Function.update s.slots (p, fd) v := by
  funext ⟨q, fd'⟩
  unfold slots setFd
  by_cases hq : q = p
  · subst hq
    by_cases hfd : fd' = fd
    · simp [hfd]
    · simp [hfd]
  · simp [hq]

@[simp]
theorem setFd_same : (s.setFd p fd v).ofile p fd = v := by
  simp [setFd]

theorem setFd_of_ne {q : ProcId} {fd' : Fd} (h : q ≠ p ∨ fd' ≠ fd) :
    (s.setFd p fd v).ofile q fd' = s.ofile q fd' := by
  have hne : (q, fd') ≠ (p, fd) := by
    intro heq
    cases heq
    exact h.elim (· rfl) (· rfl)
  exact (congrFun (s.setFd_slots p fd v) (q, fd')).trans (Function.update_of_ne hne ..)

theorem setFd_setFd_self (h : s.ofile p fd = none) :
    ((s.setFd p fd v).setFd p fd none).ofile = s.ofile := by
  funext q fd'
  by_cases hq : q = p
  · subst hq
    by_cases hfd : fd' = fd
    · subst hfd
      rw [setFd_same, h]
    · rw [setFd_of_ne _ _ _ _ (.inr hfd), setFd_of_ne _ _ _ _ (.inr hfd)]
  · rw [setFd_of_ne _ _ _ _ (.inl hq), setFd_of_ne _ _ _ _ (.inl hq)]

theorem setFd_undo {fd0 fd1 : Fd} (hne : fd0 ≠ fd1) (h0 : s.ofile p fd0 = none)
    (h1 : s.ofile p fd1 = none) (v0 v1 : Option FileId) :
    ((((s.setFd p fd0 v0).setFd p fd1 v1).setFd p fd0 none).setFd p fd1 none).ofile = s.ofile := by
  funext q fd'
  by_cases hq : q = p
  · subst hq
    by_cases hfd1 : fd' = fd1
    · rw [hfd1, setFd_same, h1]
    · rw [setFd_of_ne _ _ _ _ (.inr hfd1)]
      by_cases hfd0 : fd' = fd0
      · rw [hfd0, setFd_same, h0]
      · rw [setFd_of_ne _ _ _ _ (.inr hfd0), setFd_of_ne _ _ _ _ (.inr hfd1),
          setFd_of_ne _ _ _ _ (.inr hfd0)]
  · rw [setFd_of_ne _ _ _ _ (.inl hq), setFd_of_ne _ _ _ _ (.inl hq),
      setFd_of_ne _ _ _ _ (.inl hq), setFd_of_ne _ _ _ _ (.inl hq)]

end State

end Files
end FastIpc
