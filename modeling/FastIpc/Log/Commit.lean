import FastIpc.Foundation.AtomicProgram
import Mathlib.Data.BitVec
import Mathlib.Data.List.Nodup
import Mathlib.Tactic.Common

/-!
# The redo log on disk

The functions of `kernel/log.c` that read and write the disk, as programs over
blocks.  A block of 1024 bytes is a family of 256 words, which is how the log header
is laid over it: word 0 is the number of logged blocks and the words after it are
their home block numbers.

Reads of blocks that are overwritten whole are kept as loads; the modified home
blocks of a transaction are pinned in the buffer cache, so `write_log` takes their
contents from the transaction and not from the disk.

Main results:

- Theorem `decodeHead_encodeHead`: what `write_head` wrote, `read_head` reads.
-/

namespace FastIpc
namespace Log

open Foundation

/-- `MAXOPBLOCKS`: most blocks one file-system operation writes. -/
def maxOpBlocks : Nat := 10

/-- `LOGSIZE`: most data blocks in the on-disk log. -/
def logSize : Nat := maxOpBlocks * 3

/-- Block numbers, as the 32-bit values the header stores. -/
abbrev BlockNo := BitVec 32

/-- One disk block, as 256 words of 32 bits. -/
abbrev Block := Fin 256 → BitVec 32

/-- The contents of a disk. -/
abbrev Disk := BlockNo → Block

/-- A program that reads and writes disk blocks. -/
abbrev DiskProg (α : Type) := Prog BlockNo Block α

/-- The log area of a file system.  It holds at least the header block, and its block
numbers fit the `int` they are computed in. -/
structure LogArea where
  start : Nat
  size : Nat
  size_pos : 0 < size
  fits : start + size ≤ 2 ^ 31

namespace LogArea

/-- The blocks `[start, start + size)`. -/
def Contains (L : LogArea) (b : BlockNo) : Prop := L.start ≤ b.toNat ∧ b.toNat < L.start + L.size

instance (L : LogArea) (b : BlockNo) : Decidable (L.Contains b) :=
  inferInstanceAs (Decidable (_ ∧ _))

/-- The header block `log.start`. -/
def head (L : LogArea) : BlockNo := BitVec.ofNat 32 L.start

/-- The log block `log.start + tail + 1`. -/
def slot (L : LogArea) (tail : Nat) : BlockNo := BitVec.ofNat 32 (L.start + tail + 1)

variable (L : LogArea)

theorem toNat_head : L.head.toNat = L.start := by
  have hfits := L.fits
  have hpos := L.size_pos
  rw [head, BitVec.toNat_ofNat]
  exact Nat.mod_eq_of_lt (by omega)

theorem toNat_slot {tail : Nat} (h : tail < L.size - 1) :
    (L.slot tail).toNat = L.start + tail + 1 := by
  have hfits := L.fits
  rw [slot, BitVec.toNat_ofNat]
  exact Nat.mod_eq_of_lt (by omega)

theorem contains_head : L.Contains L.head := by
  have hpos := L.size_pos
  unfold Contains
  rw [toNat_head]
  omega

/-- The log blocks of a transaction that fits lie in the log area. -/
theorem contains_slot {tail : Nat} (h : tail < L.size - 1) : L.Contains (L.slot tail) := by
  unfold Contains
  rw [L.toNat_slot h]
  omega

theorem slot_ne_head {tail : Nat} (h : tail < L.size - 1) : L.slot tail ≠ L.head := by
  intro heq
  have hnat := congrArg BitVec.toNat heq
  rw [L.toNat_slot h, toNat_head] at hnat
  omega

theorem slot_injective {i j : Nat} (hi : i < L.size - 1) (hj : j < L.size - 1)
    (heq : L.slot i = L.slot j) : i = j := by
  have hnat := congrArg BitVec.toNat heq
  rw [L.toNat_slot hi, L.toNat_slot hj] at hnat
  omega

end LogArea

/-! ## The header block -/

/-- Word `i` of a block; reads past the block do not occur. -/
def Block.word (b : Block) (i : Nat) : BitVec 32 := if h : i < 256 then b ⟨i, h⟩ else 0

/-- The header the in-memory log describes, laid over the old header block: words past
the listed ones keep their old contents. -/
def encodeHead (lh : List BlockNo) (hb : Block) : Block := fun i =>
  if i.val = 0 then BitVec.ofNat 32 lh.length else lh.getD (i.val - 1) (hb i)

/-- The list of home blocks a header block describes. -/
def decodeHead (b : Block) : List BlockNo :=
  (List.range (b.word 0).toInt.toNat).map fun i => b.word (i + 1)

/-- What `write_head` wrote, `read_head` reads. -/
theorem decodeHead_encodeHead {lh : List BlockNo} (hlen : lh.length ≤ logSize) (hb : Block) :
    decodeHead (encodeHead lh hb) = lh := by
  have hsmall : lh.length ≤ 30 := hlen
  have hcount : ((encodeHead lh hb).word 0).toInt.toNat = lh.length := by
    have hword : (encodeHead lh hb).word 0 = BitVec.ofNat 32 lh.length := rfl
    rw [hword, BitVec.toInt_eq_toNat_of_lt]
    · rw [BitVec.toNat_ofNat, Nat.mod_eq_of_lt (by omega)]
      rfl
    · rw [BitVec.toNat_ofNat, Nat.mod_eq_of_lt (by omega)]
      omega
  unfold decodeHead
  rw [hcount]
  apply List.ext_getElem
  · simp
  · intro i h1 h2
    have hi : i + 1 < 256 := by omega
    simp [Block.word, encodeHead, hi, h2]

/-! ## The programs -/

/-- `write_log`: copy the modified blocks to the log, from slot `tail` on. -/
def writeLog (L : LogArea) : List (BlockNo × Block) → Nat → DiskProg Unit
  | [], _ => .ret ()
  | (_, data) :: rest, tail =>
    .load (L.slot tail) fun _ => .store (L.slot tail) data (writeLog L rest (tail + 1))

/-- `install_trans`: copy the log blocks from slot `tail` on to their homes. -/
def installTrans (L : LogArea) : List BlockNo → Nat → DiskProg Unit
  | [], _ => .ret ()
  | home :: rest, tail =>
    .load (L.slot tail) fun lbuf => .load home fun _ =>
      .store home lbuf (installTrans L rest (tail + 1))

/-- `write_head`: write the in-memory header to disk. -/
def writeHead (L : LogArea) (lh : List BlockNo) : DiskProg Unit :=
  .load L.head fun hb => .store L.head (encodeHead lh hb) (.ret ())

/-- `read_head`: read the header into memory. -/
def readHead (L : LogArea) : DiskProg (List BlockNo) :=
  .load L.head fun buf => .ret (decodeHead buf)

/-- `recover_from_log`. -/
def recoverFromLog (L : LogArea) : DiskProg Unit := do
  let lh ← readHead L
  installTrans L lh 0
  writeHead L []

/-- `commit`, for the blocks of the in-memory header with their cached contents. -/
def commit (L : LogArea) (tx : List (BlockNo × Block)) : DiskProg Unit :=
  if 0 < tx.length then do
    writeLog L tx 0
    writeHead L (tx.map Prod.fst)
    installTrans L (tx.map Prod.fst) 0
    writeHead L []
  else .ret ()

/-! ## The next write of each loop -/

theorem writeLog_cons (L : LogArea) (d : Disk) (e : BlockNo × Block)
    (rest : List (BlockNo × Block)) (tail : Nat) (k : Unit → DiskProg Unit) :
    (writeLog L (e :: rest) tail >>= k).advance d =
      some (Function.update d (L.slot tail) e.2, writeLog L rest (tail + 1) >>= k) :=
  rfl

theorem installTrans_cons (L : LogArea) (d : Disk) (home : BlockNo) (rest : List BlockNo)
    (tail : Nat) (k : Unit → DiskProg Unit) :
    (installTrans L (home :: rest) tail >>= k).advance d =
      some (Function.update d home (d (L.slot tail)), installTrans L rest (tail + 1) >>= k) :=
  rfl

theorem writeHead_advance (L : LogArea) (d : Disk) (lh : List BlockNo) (k : Unit → DiskProg Unit) :
    (writeHead L lh >>= k).advance d =
      some (Function.update d L.head (encodeHead lh (d L.head)), k ()) :=
  rfl

/-- `write_log` stores to consecutive log slots, one for each listed block. -/
theorem writeLog_storeTrace (L : LogArea) (ws : List (BlockNo × Block)) (tail : Nat) (d : Disk) :
    (writeLog L ws tail).storeTrace d = (List.range ws.length).map fun i => L.slot (tail + i) := by
  induction ws generalizing tail d with
  | nil => rfl
  | cons e rest ih =>
    simp only [writeLog, Prog.storeTrace, ih, List.length_cons, List.range_succ_eq_map,
      List.map_cons, List.map_map, Nat.add_zero]
    congr 2
    funext i
    simp only [Function.comp_apply]
    congr 1
    omega

end Log
end FastIpc
