import FastIpc.Foundation.FaultState
import FastIpc.Fs.Places

/-!
# Building an image

The program `mkfs/mkfs.c`: the image file, the counters `freeinode` and
`freeblock`, and the functions that append to an inode.  Words are stored with the low byte
first whatever the host (`xshort`, `xint`); the magic number, which is stored as it is,
is that of a host of the same byte order.  The image file is assumed to open and to take every
write.  An input file is given by its path and by what the successive `read` calls return.
-/

namespace FastIpc
namespace Fs
namespace Mkfs

open Foundation Kernel

/-! ## Layout -/

/-- `FSSIZE`, blocks of the image. -/
abbrev fssize : Nat := 1000

/-- `NINODES`, inodes of the image. -/
abbrev nInodes : Nat := 200

/-- Blocks of the log, `LOGSIZE`. -/
abbrev nlog : Nat := 30

/-- Blocks of the free map. -/
abbrev nbitmap : Nat := fssize / (bsize * 8) + 1

/-- Blocks of inodes. -/
abbrev ninodeblocks : Nat := nInodes / ipb + 1

/-- Blocks before the first data block. -/
abbrev nmeta : Nat := 2 + nlog + ninodeblocks + nbitmap

/-- The super block of every image. -/
def sb : Superblock where
  magic := fsMagic
  size := fssize
  nblocks := fssize - nmeta
  ninodes := nInodes
  nlog := nlog
  logstart := 2
  inodestart := 2 + nlog
  bmapstart := 2 + nlog + ninodeblocks

/-! ## State -/

/-- The image file, as blocks and their number, and the counters of the program. -/
structure Image where
  disk : Disk
  len : Nat
  freeinode : Nat
  freeblock : Nat

/-- The empty image file. -/
def Image.start : Image := ⟨fun _ => Block.zero, 0, 1, nmeta⟩

/-- How the program stops before its end: a call failed, or an assertion. -/
inductive Failure where
  | exit
  | abort
  deriving DecidableEq, Repr

abbrev MkfsM := FaultM Failure Image

/-- `assert`. -/
def assert (p : Prop) [Decidable p] : MkfsM Unit := if p then pure () else throw .abort

/-! ## Sectors and inodes -/

/-- The block a sector number reaches: the byte offset is computed in 32 bits. -/
def sectorBlock (sec : Nat) : Nat := sec * bsize % 2 ^ 32 / bsize

/-- Write a sector; past the end the file grows. -/
def wsect (sec : Nat) (buf : Block) : MkfsM Unit :=
  modify fun im =>
    { im with
      disk := Function.update im.disk (sectorBlock sec) buf
      len := max im.len (sectorBlock sec + 1) }

/-- Read a sector; past the end the read is short. -/
def rsect (sec : Nat) : MkfsM Block := do
  let im ← get
  if sectorBlock sec < im.len then return im.disk (sectorBlock sec) else throw .exit

/-- Write an inode. -/
def winode (inum : Nat) (ip : Dinode) : MkfsM Unit := do
  let buf ← rsect (sb.iblock inum)
  wsect (sb.iblock inum) (buf.putDinode (inum % ipb) ip)

/-- Read an inode. -/
def rinode (inum : Nat) : MkfsM Dinode := do
  let buf ← rsect (sb.iblock inum)
  return buf.dinode (inum % ipb)

/-- Take the next inode. -/
def ialloc (type : BitVec 16) : MkfsM Nat := do
  let inum := (← get).freeinode
  modify fun im => { im with freeinode := im.freeinode + 1 }
  winode inum { Dinode.zero with type := type, nlink := 1 }
  return inum

/-- `freeblock++`. -/
def takeBlock : MkfsM (BitVec 32) := do
  let b := (← get).freeblock
  modify fun im => { im with freeblock := im.freeblock + 1 }
  return BitVec.ofNat 32 b

/-- Write the free map: the first `used` blocks are taken. -/
def balloc (used : Nat) : MkfsM Unit := do
  assert (used < bsize * 8)
  wsect sb.bmapstart ((List.range used).foldl Block.setBit Block.zero)

/-! ## Appending -/

/-- Give an address of an inode a block if it has none. -/
def allocAddr (din : Dinode) (k : Fin (ndirect + 1)) : MkfsM Dinode := do
  if din.addrs k = 0 then
    let b ← takeBlock
    return din.setAddr k b
  else
    return din

/-- An entry of the indirect block, allocated if there is none. -/
def appendEntry (din : Dinode) (k : Nat) : MkfsM (BitVec 32) := do
  let indirect ← rsect (din.addrs indirectAddr).toNat
  if indirect.word (4 * k) = 0 then
    let b ← takeBlock
    wsect (din.addrs indirectAddr).toNat (indirect.setWord (4 * k) b)
    return b
  else
    return indirect.word (4 * k)

/-- The block with a given index, allocated if there is none. -/
def appendBlock (din : Dinode) (fbn : Nat) : MkfsM (Dinode × BitVec 32) := do
  if h : fbn < ndirect then
    let k : Fin (ndirect + 1) := (⟨fbn, h⟩ : Fin ndirect).castSucc
    let din ← allocAddr din k
    return (din, din.addrs k)
  else
    let din ← allocAddr din indirectAddr
    let x ← appendEntry din (fbn - ndirect)
    return (din, x)

/-- One round of the loop of `iappend`: fill the block the end of the file is in.  Returns the
inode and the number of bytes taken. -/
def appendRound (din : Dinode) (off : Nat) (p : List (BitVec 8)) : MkfsM (Dinode × Nat) := do
  let fbn := off / bsize
  assert (fbn < maxFile)
  let (din, x) ← appendBlock din fbn
  let n1 := min p.length ((fbn + 1) * bsize - off)
  let buf ← rsect x.toNat
  wsect x.toNat (Memory.blit buf (off - fbn * bsize) (p.take n1))
  return (din, n1)

/-- The loop of `iappend`; every round takes at least one byte. -/
def appendLoop : Nat → Dinode → Nat → List (BitVec 8) → MkfsM (Dinode × Nat)
  | 0, din, off, _ => return (din, off)
  | fuel + 1, din, off, p => do
    if p = [] then
      return (din, off)
    else
      let (din, n1) ← appendRound din off p
      appendLoop fuel din (off + n1) (p.drop n1)

/-- Append bytes to an inode. -/
def iappend (inum : Nat) (p : List (BitVec 8)) : MkfsM Unit := do
  let din ← rinode inum
  let (din, off) ← appendLoop p.length din din.size.toNat p
  winode inum { din with size := BitVec.ofNat 32 off }

/-! ## The program -/

/-- What one `read` of at most a block returns. -/
structure Chunk where
  bytes : List (BitVec 8)
  pos : 0 < bytes.length
  le : bytes.length ≤ bsize

/-- An input file: its path, and what is read from it if it can be opened. -/
structure InputFile where
  path : CString
  reads : Option (List Chunk)

namespace InputFile

/-- The path without `user/`. -/
def shortname (f : InputFile) : CString :=
  if strncmp f.path.byte (CString.ofText "user/" (by decide)).byte 5 = 0 then f.path.drop 5
  else f.path

/-- The name in the root directory: a leading underscore is skipped. -/
def entryName (f : InputFile) : CString :=
  if f.shortname.byte 0 = 0x5f then f.shortname.drop 1 else f.shortname

/-- The bytes of the file. -/
def contents (f : InputFile) : List (BitVec 8) := ((f.reads.getD []).map Chunk.bytes).flatten

end InputFile

/-- The loop that copies a file. -/
def appendReads (inum : Nat) : List Chunk → MkfsM Unit
  | [] => return
  | chunk :: rest => do
    iappend inum chunk.bytes
    appendReads inum rest

/-- Add one file to the root directory. -/
def addFile (rootino : Nat) (f : InputFile) : MkfsM Unit := do
  assert (0x2f ∉ f.shortname.bytes)
  match f.reads with
  | none => throw .exit
  | some reads =>
    let inum ← ialloc tFile
    iappend rootino (Dirent.make inum f.entryName).bytes
    appendReads inum reads

/-- Add the files in order. -/
def addFiles (rootino : Nat) : List InputFile → MkfsM Unit
  | [] => return
  | f :: rest => do
    addFile rootino f
    addFiles rootino rest

/-- Write zeroes to the first `n` sectors. -/
def zeroSectors : Nat → MkfsM Unit
  | 0 => return
  | n + 1 => do
    zeroSectors n
    wsect n Block.zero

/-- Round the size of the root directory up. -/
def fixSize (rootino : Nat) : MkfsM Unit := do
  let din ← rinode rootino
  let off := (din.size.toNat / bsize + 1) * bsize
  winode rootino { din with size := BitVec.ofNat 32 off }

/-- The name of a directory in itself. -/
def dot : CString := CString.ofText "." (by decide)

/-- The name of the parent of a directory. -/
def dotdot : CString := CString.ofText ".." (by decide)

/-- The root directory with its two first entries. -/
def makeRoot : MkfsM Nat := do
  zeroSectors fssize
  wsect 1 sb.encode
  let rootino ← ialloc tDir
  assert (rootino = rootIno)
  iappend rootino (Dirent.make rootino dot).bytes
  iappend rootino (Dirent.make rootino dotdot).bytes
  return rootino

/-- `main` with the given input files. -/
def main (files : List InputFile) : MkfsM Unit := do
  let rootino ← makeRoot
  addFiles rootino files
  fixSize rootino
  balloc (← get).freeblock

/-- The image `mkfs` writes, unless it stops before its end. -/
def mkfs (files : List InputFile) : Except Failure Image := (main files Image.start).map Prod.snd

end Mkfs
end Fs
end FastIpc
