import FastIpc.Kernel.Strings
import Mathlib.Data.Fintype.Pi
import Mathlib.Data.List.GetD
import Mathlib.Logic.Function.Basic

/-!
# On-disk format

The structures of `kernel/fs.h` as bytes of blocks: the super block, the inodes, the words of
an indirect block, the bits of the free map and directory entries.  The kernel and
`mkfs` share this header; words are stored with the low byte first.

Main results:

- Theorem `Superblock.decode_encode`: the super block is read back as it was written.
- Theorem `Dirent.strncmp_make`: a directory entry is found by the first bytes of its name.
-/

namespace FastIpc
namespace Fs

open Foundation Kernel

/-! ## Sizes -/

/-- `BSIZE`, bytes of a block. -/
abbrev bsize : Nat := 1024

/-- `NDIRECT`, block addresses an inode holds itself. -/
abbrev ndirect : Nat := 12

/-- `NINDIRECT`, block addresses in an indirect block. -/
abbrev nindirect : Nat := 256

/-- `MAXFILE`, blocks of a file. -/
abbrev maxFile : Nat := 268

/-- `IPB`, inodes in a block. -/
abbrev ipb : Nat := 16

/-- `BPB`, bits of the free map in a block. -/
abbrev bpb : Nat := 8192

/-- `DIRSIZ`, bytes of a name in a directory. -/
abbrev dirsiz : Nat := 14

/-- `FSMAGIC`. -/
abbrev fsMagic : Nat := 0x10203040

/-- `T_DIR`, the type of a directory. -/
abbrev tDir : BitVec 16 := 1

/-- `T_FILE`, the type of a file. -/
abbrev tFile : BitVec 16 := 2

/-- `ROOTINO`, the inode of the root directory. -/
abbrev rootIno : Nat := 1

/-- The bytes of a block; those from `BSIZE` on are never looked at. -/
abbrev Block := Memory

/-- The blocks of a device. -/
abbrev Disk := Nat → Block

/-! ## Words -/

namespace Block

/-- A block of zero bytes. -/
def zero : Block := fun _ =>
  0

/-- The 16-bit word at a byte offset. -/
def half (b : Block) (a : Nat) : BitVec 16 := BitVec.ofNat 16 (Memory.readLE b a 2)

/-- The 32-bit word at a byte offset. -/
def word (b : Block) (a : Nat) : BitVec 32 := BitVec.ofNat 32 (Memory.readLE b a 4)

/-- Store a 32-bit word. -/
def setWord (b : Block) (a : Nat) (w : BitVec 32) : Block := Memory.writeLE b a 4 w.toNat

variable {b b' : Block} {a : Nat}

theorem half_of_bytes {w : BitVec 16} (h : ∀ k < 2, b (a + k) = Memory.byteOf w.toNat k) :
    b.half a = w := by
  have hlt : w.toNat < 256 ^ 2 := w.isLt
  rw [half, Memory.readLE_of_bytes h, Nat.mod_eq_of_lt hlt, BitVec.ofNat_toNat, BitVec.setWidth_eq]

theorem word_of_bytes {w : BitVec 32} (h : ∀ k < 4, b (a + k) = Memory.byteOf w.toNat k) :
    b.word a = w := by
  have hlt : w.toNat < 256 ^ 4 := w.isLt
  rw [word, Memory.readLE_of_bytes h, Nat.mod_eq_of_lt hlt, BitVec.ofNat_toNat, BitVec.setWidth_eq]

theorem half_congr (h : ∀ x, a ≤ x → x < a + 2 → b x = b' x) : b.half a = b'.half a := by
  rw [half, half, Memory.readLE_congr h]

theorem word_congr (h : ∀ x, a ≤ x → x < a + 4 → b x = b' x) : b.word a = b'.word a := by
  rw [word, word, Memory.readLE_congr h]

@[simp]
theorem word_setWord (b : Block) (a : Nat) (w : BitVec 32) : (b.setWord a w).word a = w := by
  rw [word, setWord, Memory.readLE_writeLE w.isLt, BitVec.ofNat_toNat, BitVec.setWidth_eq]

theorem word_setWord_of_ne {w : BitVec 32} {j k : Nat} (h : j ≠ k) :
    (b.setWord (4 * k) w).word (4 * j) = b.word (4 * j) := by
  rw [word, setWord, Memory.readLE_writeLE_of_disjoint (by omega), word]

theorem word_of_zero (h : ∀ x, a ≤ x → x < a + 4 → b x = 0) : b.word a = 0 := by
  apply word_of_bytes
  intro k hk
  rw [h (a + k) (by omega) (by omega)]
  simp [Memory.byteOf]

end Block

/-! ## Bits of the free map -/

/-- The byte with one bit set, `1 << (bi % 8)`. -/
def bitMask (i : Nat) : BitVec 8 := 1#8 <<< (i % 8)

namespace Block

/-- Is a bit of the free map set? -/
def bit (b : Block) (i : Nat) : Bool := (b (i / 8) &&& bitMask i) != 0

/-- Set a bit of the free map. -/
def setBit (b : Block) (i : Nat) : Block := Function.update b (i / 8) (b (i / 8) ||| bitMask i)

/-- Clear a bit of the free map. -/
def clearBit (b : Block) (i : Nat) : Block := Function.update b (i / 8) (b (i / 8) &&& ~~~bitMask i)

theorem getLsbD_bitMask (i k : Nat) : (bitMask i).getLsbD k = decide (k = i % 8) := by
  have hone : bitMask i = BitVec.twoPow 8 (i % 8) := rfl
  rw [hone, BitVec.getLsbD_twoPow]
  have hlt : i % 8 < 8 := Nat.mod_lt _ (by decide)
  simp [hlt, eq_comm]

theorem bit_eq_getLsbD (b : Block) (i : Nat) : b.bit i = (b (i / 8)).getLsbD (i % 8) := by
  have hlt : i % 8 < 8 := Nat.mod_lt _ (by decide)
  have hand : ∀ k < 8, (b (i / 8) &&& bitMask i).getLsbD k =
      ((b (i / 8)).getLsbD k && decide (k = i % 8)) := by
    intro k _
    rw [BitVec.getLsbD_and, getLsbD_bitMask]
  unfold bit
  cases hbit : (b (i / 8)).getLsbD (i % 8) with
  | false =>
    have hzero : b (i / 8) &&& bitMask i = 0 := by
      apply BitVec.eq_of_getLsbD_eq
      intro k hk
      rw [hand k hk]
      by_cases hki : k = i % 8
      · simp [hki, hbit]
      · simp [hki]
    simp [hzero]
  | true =>
    have hone : (b (i / 8) &&& bitMask i) ≠ 0 := by
      intro hzero
      have hk := hand (i % 8) hlt
      simp [hzero, hbit] at hk
    simpa using hone

theorem bit_setBit (b : Block) (i j : Nat) : (b.setBit i).bit j = (decide (j = i) || b.bit j) := by
  rw [bit_eq_getLsbD, bit_eq_getLsbD, setBit]
  by_cases hbyte : j / 8 = i / 8
  · rw [hbyte, Function.update_self, BitVec.getLsbD_or, getLsbD_bitMask, Bool.or_comm]
    have hiff : (j % 8 = i % 8) ↔ j = i := by omega
    simp [hiff]
  · rw [Function.update_of_ne hbyte]
    have hne : j ≠ i := fun h => hbyte (by rw [h])
    simp [hne]

theorem bit_clearBit (b : Block) (i j : Nat) :
    (b.clearBit i).bit j = (decide (j ≠ i) && b.bit j) := by
  rw [bit_eq_getLsbD, bit_eq_getLsbD, clearBit]
  by_cases hbyte : j / 8 = i / 8
  · have hlt : j % 8 < 8 := Nat.mod_lt _ (by decide)
    rw [hbyte, Function.update_self, BitVec.getLsbD_and, BitVec.getLsbD_not, getLsbD_bitMask,
      Bool.and_comm]
    have hiff : (j % 8 = i % 8) ↔ j = i := by omega
    simp [hiff, hlt]
  · rw [Function.update_of_ne hbyte]
    have hne : j ≠ i := fun h => hbyte (by rw [h])
    simp [hne]

end Block

/-! ## Inodes -/

/-- `struct dinode`. -/
@[ext]
structure Dinode where
  type : BitVec 16
  major : BitVec 16
  minor : BitVec 16
  nlink : BitVec 16
  size : BitVec 32
  addrs : Fin (ndirect + 1) → BitVec 32
  deriving DecidableEq

namespace Dinode

/-- An inode of zero bytes: a free one. -/
def zero : Dinode := ⟨0, 0, 0, 0, 0, fun _ => 0⟩

/-- The bytes of an inode. -/
def byte (d : Dinode) (k : Nat) : BitVec 8 :=
  if k < 2 then Memory.byteOf d.type.toNat k
  else if k < 4 then Memory.byteOf d.major.toNat (k - 2)
  else if k < 6 then Memory.byteOf d.minor.toNat (k - 4)
  else if k < 8 then Memory.byteOf d.nlink.toNat (k - 6)
  else if k < 12 then Memory.byteOf d.size.toNat (k - 8)
  else Memory.byteOf (d.addrs (Fin.ofNat (ndirect + 1) ((k - 12) / 4))).toNat ((k - 12) % 4)

/-- Replace one block address. -/
def setAddr (d : Dinode) (k : Fin (ndirect + 1)) (a : BitVec 32) : Dinode :=
  { d with addrs := Function.update d.addrs k a }

variable (d : Dinode) (k : Fin (ndirect + 1)) (a : BitVec 32)

@[simp]
theorem setAddr_type : (d.setAddr k a).type = d.type :=
  rfl

@[simp]
theorem setAddr_nlink : (d.setAddr k a).nlink = d.nlink :=
  rfl

@[simp]
theorem setAddr_size : (d.setAddr k a).size = d.size :=
  rfl

@[simp]
theorem setAddr_addrs : (d.setAddr k a).addrs = Function.update d.addrs k a :=
  rfl

end Dinode

namespace Block

/-- The inode in a slot of a block. -/
def dinode (b : Block) (slot : Nat) : Dinode where
  type := b.half (64 * slot)
  major := b.half (64 * slot + 2)
  minor := b.half (64 * slot + 4)
  nlink := b.half (64 * slot + 6)
  size := b.word (64 * slot + 8)
  addrs k := b.word (64 * slot + 12 + 4 * k)

/-- Store an inode in a slot of a block. -/
def putDinode (b : Block) (slot : Nat) (d : Dinode) : Block := fun x =>
  if 64 * slot ≤ x ∧ x < 64 * slot + 64 then d.byte (x - 64 * slot) else b x

variable {b b' : Block} {slot : Nat} {d : Dinode}

theorem putDinode_apply {k : Nat} (hk : k < 64) :
    (b.putDinode slot d) (64 * slot + k) = d.byte k := by
  rw [putDinode, if_pos (by omega), Nat.add_sub_cancel_left]

theorem dinode_putDinode (b : Block) (slot : Nat) (d : Dinode) :
    (b.putDinode slot d).dinode slot = d := by
  have hhalf : ∀ (o : Nat) (w : BitVec 16), o + 2 ≤ 64 →
      (∀ k < 2, d.byte (o + k) = Memory.byteOf w.toNat k) →
      (b.putDinode slot d).half (64 * slot + o) = w := by
    intro o w ho hw
    apply half_of_bytes
    intro k hk
    rw [Nat.add_assoc, putDinode_apply (by omega), hw k hk]
  have hword : ∀ (o : Nat) (w : BitVec 32), o + 4 ≤ 64 →
      (∀ k < 4, d.byte (o + k) = Memory.byteOf w.toNat k) →
      (b.putDinode slot d).word (64 * slot + o) = w := by
    intro o w ho hw
    apply word_of_bytes
    intro k hk
    rw [Nat.add_assoc, putDinode_apply (by omega), hw k hk]
  apply Dinode.ext
  · exact hhalf 0 d.type (by omega) fun k hk => by simp [Dinode.byte, hk]
  · refine hhalf 2 d.major (by omega) fun k hk => ?_
    rw [Dinode.byte, if_neg (by omega), if_pos (by omega), Nat.add_sub_cancel_left]
  · refine hhalf 4 d.minor (by omega) fun k hk => ?_
    rw [Dinode.byte, if_neg (by omega), if_neg (by omega), if_pos (by omega),
      Nat.add_sub_cancel_left]
  · refine hhalf 6 d.nlink (by omega) fun k hk => ?_
    rw [Dinode.byte, if_neg (by omega), if_neg (by omega), if_neg (by omega),
      if_pos (by omega), Nat.add_sub_cancel_left]
  · refine hword 8 d.size (by omega) fun k hk => ?_
    rw [Dinode.byte, if_neg (by omega), if_neg (by omega), if_neg (by omega),
      if_neg (by omega), if_pos (by omega), Nat.add_sub_cancel_left]
  · funext i
    have hi : i.val < 13 := i.isLt
    have hw := hword (12 + 4 * i) (d.addrs i) (by omega) fun k hk => by
      have hindex : Fin.ofNat (ndirect + 1) ((12 + 4 * i.val + k - 12) / 4) = i := by
        apply Fin.ext
        rw [Fin.val_ofNat, Nat.mod_eq_of_lt (show _ < 13 by omega)]
        omega
      rw [Dinode.byte, if_neg (by omega), if_neg (by omega), if_neg (by omega),
        if_neg (by omega), if_neg (by omega), hindex]
      congr 1
      omega
    rw [← Nat.add_assoc] at hw
    exact hw

theorem dinode_congr (h : ∀ x, 64 * slot ≤ x → x < 64 * slot + 64 → b x = b' x) :
    b.dinode slot = b'.dinode slot := by
  have hhalf : ∀ o, o + 2 ≤ 64 → b.half (64 * slot + o) = b'.half (64 * slot + o) :=
    fun o ho => half_congr fun x hlo hhi => h x (by omega) (by omega)
  have hword : ∀ o, o + 4 ≤ 64 → b.word (64 * slot + o) = b'.word (64 * slot + o) :=
    fun o ho => word_congr fun x hlo hhi => h x (by omega) (by omega)
  apply Dinode.ext
  · exact hhalf 0 (by omega)
  · exact hhalf 2 (by omega)
  · exact hhalf 4 (by omega)
  · exact hhalf 6 (by omega)
  · exact hword 8 (by omega)
  · funext i
    have hi : i.val < 13 := i.isLt
    have hw := hword (12 + 4 * i) (by omega)
    rw [← Nat.add_assoc] at hw
    exact hw

theorem dinode_putDinode_of_ne {slot' : Nat} (h : slot' ≠ slot) :
    (b.putDinode slot d).dinode slot' = b.dinode slot' := by
  apply dinode_congr
  intro x hlo hhi
  rw [putDinode, if_neg (by omega)]

theorem dinode_of_zero (h : ∀ x, 64 * slot ≤ x → x < 64 * slot + 64 → b x = 0) :
    b.dinode slot = Dinode.zero := by
  rw [← dinode_putDinode b slot Dinode.zero]
  apply dinode_congr
  intro x hlo hhi
  rw [h x hlo hhi, putDinode, if_pos ⟨hlo, hhi⟩]
  simp [Dinode.byte, Dinode.zero, Memory.byteOf]

end Block

/-! ## Super block -/

/-- `struct superblock`. -/
structure Superblock where
  magic : Nat
  size : Nat
  nblocks : Nat
  ninodes : Nat
  nlog : Nat
  logstart : Nat
  inodestart : Nat
  bmapstart : Nat
  deriving DecidableEq, Repr

namespace Superblock

/-- `IBLOCK`, the block with an inode. -/
def iblock (sb : Superblock) (i : Nat) : Nat := i / ipb + sb.inodestart

/-- `BBLOCK`, the block of the free map with the bit of a block. -/
def bblock (sb : Superblock) (b : Nat) : Nat := b / bpb + sb.bmapstart

/-- The words of a super block in order. -/
def words (sb : Superblock) : List Nat :=
  [sb.magic, sb.size, sb.nblocks, sb.ninodes, sb.nlog, sb.logstart, sb.inodestart, sb.bmapstart]

/-- The block a super block is stored in. -/
def encode (sb : Superblock) : Block := fun x =>
  if x < 32 then Memory.byteOf (sb.words.getD (x / 4) 0) (x % 4) else 0

/-- The super block in a block. -/
def decode (b : Block) : Superblock where
  magic := (b.word 0).toNat
  size := (b.word 4).toNat
  nblocks := (b.word 8).toNat
  ninodes := (b.word 12).toNat
  nlog := (b.word 16).toNat
  logstart := (b.word 20).toNat
  inodestart := (b.word 24).toNat
  bmapstart := (b.word 28).toNat

theorem word_encode (sb : Superblock) {j : Nat} (hj : j < 8) (hlt : sb.words.getD j 0 < 2 ^ 32) :
    ((sb.encode : Block).word (4 * j)).toNat = sb.words.getD j 0 := by
  have hbytes : ∀ k < 4, sb.encode (4 * j + k) = Memory.byteOf (sb.words.getD j 0) k := by
    intro k hk
    rw [encode, if_pos (by omega)]
    congr 1
    · congr 1
      omega
    · omega
  rw [Block.word, Memory.readLE_of_bytes hbytes, BitVec.toNat_ofNat]
  omega

theorem decode_encode {sb : Superblock} (h : ∀ w ∈ sb.words, w < 2 ^ 32) :
    decode sb.encode = sb := by
  obtain ⟨magic, size, nblocks, ninodes, nlog, logstart, inodestart, bmapstart⟩ := sb
  have hword := fun j hj => word_encode ⟨magic, size, nblocks, ninodes, nlog, logstart,
    inodestart, bmapstart⟩ (j := j) hj
  simp only [words, List.mem_cons, List.not_mem_nil, or_false, forall_eq_or_imp, forall_eq] at h
  simp only [words] at hword
  simp only [decode, mk.injEq]
  exact ⟨hword 0 (by omega) h.1, hword 1 (by omega) h.2.1, hword 2 (by omega) h.2.2.1,
    hword 3 (by omega) h.2.2.2.1, hword 4 (by omega) h.2.2.2.2.1,
    hword 5 (by omega) h.2.2.2.2.2.1, hword 6 (by omega) h.2.2.2.2.2.2.1,
    hword 7 (by omega) h.2.2.2.2.2.2.2⟩

/-- A data block: one of the last `nblocks` blocks of the disk. -/
def IsData (sb : Superblock) (b : Nat) : Prop := sb.size - sb.nblocks ≤ b ∧ b < sb.size

/-- Is the bit of a block set in the free map? -/
def marked (sb : Superblock) (d : Disk) (b : Nat) : Bool := (d (sb.bblock b)).bit (b % bpb)

end Superblock

/-! ## Directory entries -/

/-- `struct dirent`. -/
structure Dirent where
  inum : BitVec 16
  name : Fin dirsiz → BitVec 8

namespace Dirent

/-- The entry of an inode under a name, which `strncpy` cuts or pads. -/
def make (inum : Nat) (name : CString) : Dirent where
  inum := BitVec.ofNat 16 inum
  name k := name.byte k

/-- The bytes of an entry. -/
def bytes (de : Dirent) : List (BitVec 8) :=
  [Memory.byteOf de.inum.toNat 0, Memory.byteOf de.inum.toNat 1] ++ List.ofFn de.name

/-- The entry in sixteen bytes. -/
def ofBytes (l : List (BitVec 8)) : Dirent where
  inum := BitVec.ofNat 16 ((l.getD 0 0).toNat + 256 * (l.getD 1 0).toNat)
  name k := l.getD (2 + k) 0

/-- The memory the name starts at; the bytes after it are not looked at. -/
def nameByte (de : Dirent) (k : Nat) : BitVec 8 := if h : k < dirsiz then de.name ⟨k, h⟩ else 0

@[simp]
theorem length_bytes (de : Dirent) : de.bytes.length = 16 := by
  simp [bytes]

theorem ofBytes_bytes (de : Dirent) : ofBytes de.bytes = de := by
  obtain ⟨inum, name⟩ := de
  have hinum : inum.toNat < 65536 := inum.isLt
  simp only [ofBytes, bytes, mk.injEq]
  constructor
  · apply BitVec.eq_of_toNat_eq
    simp [Memory.byteOf]
    omega
  · funext k
    have hk : k.val < (List.ofFn name).length := by rw [List.length_ofFn]; exact k.isLt
    rw [Nat.add_comm, List.cons_append, List.cons_append, List.nil_append, List.getD_cons_succ,
      List.getD_cons_succ, List.getD_eq_getElem _ _ hk, List.getElem_ofFn]

/-- A name is found by its first fourteen bytes. -/
theorem strncmp_make (s name : CString) (inum : Nat) :
    strncmp s.byte (make inum name).nameByte dirsiz = 0 ↔
      s.bytes.take dirsiz = name.bytes.take dirsiz := by
  rw [← strncmp_eq_zero_iff, strncmp_congr]
  intro k hk
  rw [nameByte, dif_pos hk, make]

end Dirent

theorem map_getD_range {l : List (BitVec 8)} {n : Nat} (h : l.length = n) :
    ((List.range n).map fun j => l.getD j 0) = l := by
  apply List.ext_getElem
  · simp [h]
  · intro j hj hj'
    simp [List.getD_eq_getElem?_getD, hj']

end Fs
end FastIpc
