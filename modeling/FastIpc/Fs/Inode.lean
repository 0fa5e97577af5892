import FastIpc.Foundation.FaultState
import FastIpc.Fs.Places

/-!
# Blocks and inodes in the kernel

The functions of `kernel/fs.c` that allocate and free blocks and that read and write the
contents of an inode.  They run above the buffer cache and the log: the state has the blocks as
`bread` returns them and the blocks passed to `log_write`.  An inode function has the
copy of its inode in memory besides.  A panic is given by its message.

The destination of a read is given by how many bytes from its start on are accessible: the copy
functions work page by page and stop at the first page that is not.  The source of a write is given
by what copying from it does to a buffer.
-/

namespace FastIpc
namespace Fs

open Foundation Kernel

/-! ## State -/

/-- The blocks as `bread` returns them, and the buffers passed to `log_write` in order. -/
structure Store where
  disk : Disk
  logged : List (Nat × Block)

/-- Code that changes blocks. -/
abbrev FsM := FaultM String Store

/-- The blocks and the copy of one inode in memory. -/
structure Ctx where
  store : Store
  ip : Dinode

/-- Code that holds the lock of an inode. -/
abbrev InodeM := FaultM String Ctx

/-- Run code on the blocks. -/
def onStore {α : Type} (x : FsM α) : InodeM α :=
  FaultM.zoom Ctx.store (fun s c => { c with store := s }) x

/-- The blocks with a block replaced by a logged buffer. -/
def Store.put (s : Store) (b : Nat) (blk : Block) : Store :=
  ⟨Function.update s.disk b blk, s.logged ++ [(b, blk)]⟩

/-- Change the data of a buffer and pass it to `log_write`. -/
def logWrite (b : Nat) (blk : Block) : FsM Unit := modify fun s => s.put b blk

/-- Read the super block. -/
def readsb (d : Disk) : Superblock := .decode (d 1)

/-- The part of `fsinit` before the log is recovered. -/
def fsinit (d : Disk) : Except String Superblock :=
  if (readsb d).magic ≠ fsMagic then .error "invalid file system" else .ok (readsb d)

/-! ## Blocks -/

/-- Zero a block. -/
def bzero (bno : Nat) : FsM Unit := logWrite bno Block.zero

/-- The scan of one block of the free map: the first clear bit. -/
def scanBlock (sb : Superblock) (blk : Block) (b : Nat) : Nat → Nat → Option Nat
  | 0, _ => none
  | fuel + 1, bi =>
    if b + bi < sb.size then
      if blk.bit bi then scanBlock sb blk b fuel (bi + 1) else some bi
    else none

/-- The scan of the free map: the first block that is not in use. -/
def scanBitmap (sb : Superblock) (d : Disk) : Nat → Nat → Option Nat
  | 0, _ => none
  | fuel + 1, b =>
    if b < sb.size then
      match scanBlock sb (d (sb.bblock b)) b bpb 0 with
      | some bi => some (b + bi)
      | none => scanBitmap sb d fuel (b + bpb)
    else none

/-- Allocate a zeroed block. -/
def balloc (sb : Superblock) : FsM Nat := do
  let d := (← get).disk
  match scanBitmap sb d (sb.size / bpb + 1) 0 with
  | none => throw "balloc: out of blocks"
  | some b =>
    logWrite (sb.bblock b) ((d (sb.bblock b)).setBit (b % bpb))
    bzero b
    return b

/-- Free a block. -/
def bfree (sb : Superblock) (b : Nat) : FsM Unit := do
  let blk := (← get).disk (sb.bblock b)
  if blk.bit (b % bpb) then logWrite (sb.bblock b) (blk.clearBit (b % bpb))
  else throw "freeing free block"

/-! ## Inodes -/

/-- The scan of `ialloc`: the first free inode from `inum` on. -/
def scanInodes (sb : Superblock) (d : Disk) : Nat → Nat → Option Nat
  | 0, _ => none
  | fuel + 1, inum =>
    if inum < sb.ninodes then
      if ((d (sb.iblock inum)).dinode (inum % ipb)).type = 0 then some inum
      else scanInodes sb d fuel (inum + 1)
    else none

/-- Mark an inode as allocated by giving it a type. -/
def ialloc (sb : Superblock) (type : BitVec 16) : FsM Nat := do
  let d := (← get).disk
  match scanInodes sb d sb.ninodes 1 with
  | none => throw "ialloc: no inodes"
  | some inum =>
    logWrite (sb.iblock inum)
      ((d (sb.iblock inum)).putDinode (inum % ipb) { Dinode.zero with type := type })
    return inum

/-- Copy the inode in memory to disk. -/
def iupdate (sb : Superblock) (inum : Nat) : InodeM Unit := do
  let c ← get
  onStore (logWrite (sb.iblock inum)
    ((c.store.disk (sb.iblock inum)).putDinode (inum % ipb) c.ip))

/-- An address of the inode; if there is none, a block is allocated. -/
def bmapAddr (sb : Superblock) (k : Fin (ndirect + 1)) : InodeM Nat := do
  let addr := (← get).ip.addrs k
  if addr = 0 then
    let b ← onStore (balloc sb)
    modify fun c => { c with ip := c.ip.setAddr k (BitVec.ofNat 32 b) }
    return b
  else
    return addr.toNat

/-- An entry of the indirect block; if there is none, a block is allocated. -/
def bmapEntry (sb : Superblock) (addr k : Nat) : InodeM Nat := do
  let entry := ((← get).store.disk addr).word (4 * k)
  if entry = 0 then
    let b ← onStore (balloc sb)
    let blk := (← get).store.disk addr
    onStore (logWrite addr (blk.setWord (4 * k) (BitVec.ofNat 32 b)))
    return b
  else
    return entry.toNat

/-- The disk block of the `bn`-th block of the inode, allocated if there is none. -/
def bmap (sb : Superblock) (bn : Nat) : InodeM Nat := do
  if h : bn < ndirect then
    bmapAddr sb (⟨bn, h⟩ : Fin ndirect).castSucc
  else if bn - ndirect < nindirect then
    let addr ← bmapAddr sb indirectAddr
    bmapEntry sb addr (bn - ndirect)
  else
    throw "bmap: out of range"

/-! ## Contents -/

/-- The bytes of a block from an offset on. -/
def bytesAt (blk : Block) (a m : Nat) : List (BitVec 8) := (List.range m).map fun k => blk (a + k)

/-- The loop of `readi`; `room` bytes of the destination are accessible.  Returns the
value of `tot` and the bytes copied. -/
def readLoop (sb : Superblock) (room n : Nat) :
    Nat → Nat → Nat → List (BitVec 8) → InodeM (Int × List (BitVec 8))
  | 0, tot, _, out => return (tot, out)
  | fuel + 1, tot, off, out => do
    if tot < n then
      let b ← bmap sb (off / bsize)
      let blk := (← get).store.disk b
      let m := min (n - tot) (bsize - off % bsize)
      if tot + m ≤ room then
        readLoop sb room n fuel (tot + m) (off + m) (out ++ bytesAt blk (off % bsize) m)
      else
        return (-1, out ++ bytesAt blk (off % bsize) (room - tot))
    else
      return (tot, out)

/-- Read bytes of the inode: the value returned and the bytes copied out. -/
def readi (sb : Superblock) (room : Nat) (off n : BitVec 32) :
    InodeM (Int × List (BitVec 8)) := do
  let size := (← get).ip.size
  if off > size ∨ off + n < off then
    return (0, [])
  else
    let n := if off + n > size then size - off else n
    readLoop sb room n.toNat n.toNat 0 off.toNat []

/-- Bytes of a range replaced by new ones, where there are any. -/
def overlay (f : Nat → BitVec 8) (a m : Nat) (new : Nat → Option (BitVec 8)) : Nat → BitVec 8 :=
  fun x => if a ≤ x ∧ x < a + m then (new (x - a)).getD (f x) else f x

/-- Where a write takes its bytes from: `copy tot m a` copies `m` bytes from position
`tot` on into a buffer at offset `a`.  It says whether all pages could be accessed, and
which bytes of the range it has stored. -/
structure Source where
  copy : Nat → Nat → Nat → Bool × (Nat → Option (BitVec 8))

/-- A source in the kernel: `memmove` copies all bytes. -/
def Source.kernel (bytes : Nat → BitVec 8) : Source where
  copy tot _ _ := (true, fun k => some (bytes (tot + k)))

/-- Change the data of a buffer without `log_write`. -/
def setBuf (b : Nat) (blk : Block) : FsM Unit :=
  modify fun s => { s with disk := Function.update s.disk b blk }

/-- The loop of `writei`: the values of `tot` and `off` at its end. -/
def writeLoop (sb : Superblock) (src : Source) (n : Nat) : Nat → Nat → Nat → InodeM (Nat × Nat)
  | 0, tot, off => return (tot, off)
  | fuel + 1, tot, off => do
    if tot < n then
      let b ← bmap sb (off / bsize)
      let m := min (n - tot) (bsize - off % bsize)
      let (ok, new) := src.copy tot m (off % bsize)
      let blk := overlay ((← get).store.disk b) (off % bsize) m new
      if ok then
        onStore (logWrite b blk)
        writeLoop sb src n fuel (tot + m) (off + m)
      else
        onStore (setBuf b blk)
        return (tot, off)
    else
      return (tot, off)

/-- The end of `writei`: the size grows and the inode is written back. -/
def writeDone (sb : Superblock) (inum off : Nat) : InodeM Unit := do
  modify fun c =>
    if off > c.ip.size.toNat then { c with ip := { c.ip with size := BitVec.ofNat 32 off } } else c
  iupdate sb inum

/-- Write bytes of the inode; the value returned. -/
def writei (sb : Superblock) (inum : Nat) (src : Source) (off n : BitVec 32) : InodeM Int := do
  if off > (← get).ip.size ∨ off + n < off then
    return -1
  else if (off + n).toNat > maxFile * bsize then
    return -1
  else
    let (tot, off) ← writeLoop sb src n.toNat n.toNat 0 off.toNat
    writeDone sb inum off
    return tot

/-! ## Truncation -/

/-- Free the block of an address and clear the address. -/
def freeAddr (sb : Superblock) (k : Fin (ndirect + 1)) : InodeM Unit := do
  let addr := (← get).ip.addrs k
  if addr ≠ 0 then
    onStore (bfree sb addr.toNat)
    modify fun c => { c with ip := c.ip.setAddr k 0 }

/-- Free the blocks of some direct addresses. -/
def freeDirect (sb : Superblock) : List (Fin ndirect) → InodeM Unit
  | [] => return
  | k :: rest => do
    freeAddr sb k.castSucc
    freeDirect sb rest

/-- Free the blocks of some entries of an indirect block. -/
def freeEntries (sb : Superblock) (a : Nat) : List (Fin nindirect) → InodeM Unit
  | [] => return
  | k :: rest => do
    let entry := ((← get).store.disk a).word (4 * k)
    if entry ≠ 0 then
      onStore (bfree sb entry.toNat)
    freeEntries sb a rest

/-- Free the indirect block and the blocks it refers to. -/
def freeIndirect (sb : Superblock) : InodeM Unit := do
  let addr := (← get).ip.addrs indirectAddr
  if addr ≠ 0 then
    freeEntries sb addr.toNat (List.finRange nindirect)
    freeAddr sb indirectAddr

/-- Discard the contents of the inode. -/
def itrunc (sb : Superblock) (inum : Nat) : InodeM Unit := do
  freeDirect sb (List.finRange ndirect)
  freeIndirect sb
  modify fun c => { c with ip := { c.ip with size := 0 } }
  iupdate sb inum

/-- The part of `iput` that frees an inode without links. -/
def ifree (sb : Superblock) (inum : Nat) : InodeM Unit := do
  itrunc sb inum
  modify fun c => { c with ip := { c.ip with type := 0 } }
  iupdate sb inum

/-! ## Directories -/

/-- The directory entry at an offset. -/
def readDirent (sb : Superblock) (off : BitVec 32) (message : String) : InodeM Dirent := do
  let (tot, bytes) ← readi sb 16 off 16
  if tot = 16 then return .ofBytes bytes else throw message

/-- The loop of `dirlookup` from an offset on. -/
def lookupLoop (sb : Superblock) (name : CString) : Nat → Nat → InodeM (Option (Nat × Nat))
  | 0, _ => return none
  | fuel + 1, off => do
    if off < (← get).ip.size.toNat then
      let de ← readDirent sb (BitVec.ofNat 32 off) "dirlookup read"
      if de.inum = 0 then
        lookupLoop sb name fuel (off + 16)
      else if strncmp name.byte de.nameByte dirsiz = 0 then
        return some (de.inum.toNat, off)
      else
        lookupLoop sb name fuel (off + 16)
    else
      return none

/-- Look for a name in a directory: the inode number and the offset of the entry. -/
def dirlookup (sb : Superblock) (name : CString) : InodeM (Option (Nat × Nat)) := do
  if (← get).ip.type ≠ tDir then
    throw "dirlookup not DIR"
  else
    lookupLoop sb name ((← get).ip.size.toNat / 16 + 1) 0

end Fs
end FastIpc
