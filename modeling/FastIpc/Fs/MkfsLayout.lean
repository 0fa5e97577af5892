import FastIpc.Fs.Mkfs

/-!
# Layout of an image under construction

What the data blocks of an image hold while `mkfs` builds it.  Blocks are handed out in order
and never taken back, so the blocks in use are those below `freeblock`, and each file has
exactly its first blocks.  The inodes are a function again: the inode being appended to is ahead
of its copy on disk.

Main results:

- Theorem `Laid.extend`: the next free block becomes the next block of a file.
- Theorem `Laid.write`: bytes behind the end of a file are appended to it.
-/

namespace FastIpc
namespace Fs
namespace Mkfs

open Foundation
open Function (update update_of_ne update_self)

/-! ## One file -/

@[simp]
theorem blocksOf_zero : blocksOf 0 = 0 := rfl

/-- How many blocks a file has, and whether it has an indirect block. -/
structure Shape where
  blocks : Nat
  indirect : Bool

/-- The shape of a file of a given length. -/
def shapeOf (n : Nat) : Shape := ⟨blocksOf n, decide (ndirect < blocksOf n)⟩

/-- Blocks a file of a given length takes, the indirect block included. -/
def blockUse (n : Nat) : Nat := if ndirect < blocksOf n then blocksOf n + 1 else blocksOf n

/-- A file of a given shape with given contents. -/
structure Filled (r : Spot → Option Nat) (d : Disk) (sh : Shape) (bytes : List (BitVec 8)) :
    Prop where
  block_iff : ∀ n < maxFile, ((r (spotOf n)).isSome ↔ n < sh.blocks)
  indirect_iff : (r .indirect).isSome ↔ sh.indirect = true
  blocks_le : sh.blocks ≤ maxFile
  length_le : bytes.length ≤ sh.blocks * bsize
  byte : ∀ off < bytes.length, byteAt r d off = bytes.getD off 0

namespace Filled

variable {r : Spot → Option Nat} {d d' : Disk} {sh : Shape} {bytes p : List (BitVec 8)} {b n : Nat}

theorem empty (hr : ∀ s, r s = none) : Filled r d (shapeOf 0) [] where
  block_iff n _ := by simp [hr, shapeOf]
  indirect_iff := by simp [hr, shapeOf]
  blocks_le := by simp [shapeOf]
  length_le := by simp
  byte off hoff := by simp at hoff

variable (h : Filled r d sh bytes)
include h

theorem exists_block {off : Nat} (hoff : off < bytes.length) :
    off / bsize < maxFile ∧ ∃ b, r (spotOf (off / bsize)) = some b := by
  have hle := h.length_le
  have hblocks := h.blocks_le
  have hlt : off / bsize < sh.blocks := by
    rw [Nat.div_lt_iff_lt_mul (by decide)]
    omega
  refine ⟨by omega, ?_⟩
  exact Option.isSome_iff_exists.mp ((h.block_iff _ (by omega)).mpr hlt)

theorem of_agree (hagree : ∀ n b, n < maxFile → r (spotOf n) = some b → ∀ x < bsize, d' b x = d b x) :
    Filled r d' sh bytes where
  __ := h
  byte off hoff := by
    obtain ⟨hmax, b, hb⟩ := h.exists_block hoff
    rw [← h.byte off hoff, byteAt_of_ref hb, byteAt_of_ref hb]
    exact hagree _ b hmax hb _ (Nat.mod_lt _ (by decide))

theorem addBlock (hlt : sh.blocks < maxFile) (b : Nat) :
    Filled (update r (spotOf sh.blocks) (some b)) d ⟨sh.blocks + 1, sh.indirect⟩
      bytes where
  block_iff n hn := by
    by_cases hns : n = sh.blocks
    · simp [hns]
    · have hne : spotOf n ≠ spotOf sh.blocks := fun heq => hns (spotOf_inj hn hlt heq)
      rw [update_of_ne hne, h.block_iff n hn]
      simp only
      omega
  indirect_iff := by
    rw [update_of_ne (spotOf_ne_indirect _).symm]
    exact h.indirect_iff
  blocks_le := hlt
  length_le := h.length_le.trans (Nat.mul_le_mul_right _ (Nat.le_succ _))
  byte off hoff := by
    have hle := h.length_le
    have hindex : off / bsize < sh.blocks := by
      rw [Nat.div_lt_iff_lt_mul (by decide)]
      omega
    have hne : spotOf (off / bsize) ≠ spotOf sh.blocks := by
      intro heq
      have := spotOf_inj (by omega) hlt heq
      omega
    rw [← h.byte off hoff]
    unfold byteAt
    rw [update_of_ne hne]

theorem addIndirect (b : Nat) : Filled (update r .indirect (some b)) d ⟨sh.blocks, true⟩ bytes where
  block_iff n hn := by
    rw [update_of_ne (spotOf_ne_indirect n)]
    exact h.block_iff n hn
  indirect_iff := by simp
  __ := h
  byte off hoff := by
    rw [← h.byte off hoff]
    unfold byteAt
    rw [update_of_ne (spotOf_ne_indirect _)]

/-- Bytes are written behind the end, within one block. -/
theorem append (hb : r (spotOf (bytes.length / bsize)) = some b)
    (hmax : bytes.length / bsize < maxFile)
    (honly : ∀ s, r s = some b → s = spotOf (bytes.length / bsize))
    (hfit : bytes.length % bsize + p.length ≤ bsize) :
    Filled r (update d b (Memory.blit (d b) (bytes.length % bsize) p)) sh
      (bytes ++ p) where
  __ := h
  length_le := by
    have hlt := (h.block_iff _ hmax).mp (by rw [hb]; rfl)
    rw [List.length_append]
    simp only [bsize] at hlt hfit ⊢
    omega
  byte off hoff := by
    rw [List.length_append] at hoff
    by_cases hold : off < bytes.length
    · -- an old byte: another block, or before the written part of this one
      obtain ⟨hmax', b', hb'⟩ := h.exists_block hold
      rw [byteAt_of_ref hb', List.getD_append _ _ _ _ hold, ← h.byte off hold, byteAt_of_ref hb']
      by_cases hbb : b' = b
      · subst hbb
        have hindex := spotOf_inj hmax' hmax (honly _ hb')
        rw [update_self, Memory.blit_of_not_mem]
        simp only [bsize] at *
        omega
      · rw [update_of_ne hbb]
    · -- a new byte
      have hindex : off / bsize = bytes.length / bsize := by
        simp only [bsize] at *
        omega
      rw [← hindex] at hb
      rw [byteAt_of_ref hb, update_self, List.getD_append_right _ _ _ _ (by omega),
        Memory.blit, if_pos (by simp only [bsize] at *; omega)]
      congr 1
      simp only [bsize] at *
      omega

end Filled

/-! ## All files -/

/-- The data blocks below `fb` are in use, and every inode in use is a file of the given
shape and contents. -/
structure Laid (v : Nat → Dinode) (d : Disk) (fb : Nat) (sh : Nat → Shape)
    (c : Nat → List (BitVec 8)) : Prop where
  owned : Exclusive (refs v d) sb.IsData fun b => b < fb
  ge : nmeta ≤ fb
  le : fb ≤ fssize
  fresh : ∀ b, fb ≤ b → ∀ x < bsize, d b x = 0
  filled : ∀ i, (v i).type ≠ 0 → Filled (fun s => refs v d (i, s)) d (sh i) (c i)

namespace Laid

variable {v v' : Nat → Dinode} {d d' : Disk} {fb i : Nat} {sh : Nat → Shape}
  {c : Nat → List (BitVec 8)}

theorem isData_iff {b : Nat} : sb.IsData b ↔ nmeta ≤ b ∧ b < fssize := by
  rfl

variable (h : Laid v d fb sh c)
include h

/-- A block in use is a data block below the first free one. -/
theorem block_lt {p : Nat × Spot} {b : Nat} (hp : refs v d p = some b) : nmeta ≤ b ∧ b < fb :=
  ⟨(isData_iff.mp (h.owned.cell_of_ref hp)).1, h.owned.marked_of_ref hp⟩

theorem word_fresh {k : Nat} (hk : k < nindirect) : (d fb).word (4 * k) = 0 := by
  apply Block.word_of_zero
  intro x _ hhi
  apply h.fresh fb le_rfl
  simp only [nindirect] at hk
  simp only [bsize]
  omega

/-- The next free block is put into an empty place of one inode. -/
theorem extend (htype : ∀ j, (v' j).type = (v j).type) {s : Spot} {sh' : Shape}
    (hrefs : refs v' d' = update (refs v d) (i, s) (some fb)) (hnone : refs v d (i, s) = none)
    (hlt : fb < fssize)
    (hdata : ∀ j n b, n < maxFile → refs v d (j, spotOf n) = some b → d' b = d b)
    (hfresh : ∀ b, fb ≤ b → d' b = d b)
    (hfill : Filled (fun t => refs v d (i, t)) d (sh i) (c i) →
      Filled (update (fun t => refs v d (i, t)) s (some fb)) d sh' (c i)) :
    Laid v' d' (fb + 1) (update sh i sh') c where
  owned := by
    rw [hrefs]
    have hcell : sb.IsData fb := isData_iff.mpr ⟨h.ge, hlt⟩
    apply (h.owned.fill hnone hcell (by omega)).congr_marked
    intro b _
    omega
  ge := Nat.le_succ_of_le h.ge
  le := hlt
  fresh b hb x hx := by
    rw [hfresh b (by omega)]
    exact h.fresh b (by omega) x hx
  filled j hj := by
    rw [htype] at hj
    have hagree : ∀ n b, n < maxFile → refs v' d' (j, spotOf n) = some b →
        ∀ x < bsize, d' b x = d b x := by
      intro n b hn hb x _
      rw [hrefs] at hb
      by_cases hplace : (j, spotOf n) = (i, s)
      · rw [hplace, update_self, Option.some.injEq] at hb
        rw [hfresh b hb.le]
      · rw [update_of_ne hplace] at hb
        rw [hdata j n b hn hb]
    by_cases hji : j = i
    · subst hji
      have hspots : (fun t => refs v' d' (j, t)) =
          update (fun t => refs v d (j, t)) s (some fb) := by
        funext t
        rw [hrefs]
        by_cases hts : t = s
        · rw [hts, update_self, update_self]
        · rw [update_of_ne hts, update_of_ne (by simpa using hts)]
      have hnew := hfill (h.filled j hj)
      rw [← hspots] at hnew
      rw [update_self]
      exact hnew.of_agree hagree
    · have hspots : (fun t => refs v' d' (j, t)) = fun t => refs v d (j, t) := by
        funext t
        rw [hrefs, update_of_ne (by simp [hji])]
      have hold := h.filled j hj
      rw [← hspots] at hold
      rw [update_of_ne hji]
      exact hold.of_agree hagree

/-- Bytes are written behind the end of one file, within its last block. -/
theorem write {p : List (BitVec 8)} {b : Nat}
    (hb : refs v d (i, spotOf ((c i).length / bsize)) = some b)
    (hmax : (c i).length / bsize < maxFile) (hfit : (c i).length % bsize + p.length ≤ bsize) :
    Laid v (update d b (Memory.blit (d b) ((c i).length % bsize) p)) fb sh
      (update c i (c i ++ p)) := by
  have hind : ∀ j, refs v d (j, .indirect) ≠ some b := by
    intro j hj
    have hplace := h.owned.unique hj hb
    exact spotOf_ne_indirect _ (congrArg Prod.snd hplace).symm
  have hrefs : refs v (update d b (Memory.blit (d b) ((c i).length % bsize) p)) =
      refs v d := refs_update_disk hind
  constructor
  · rw [hrefs]
    exact h.owned
  · exact h.ge
  · exact h.le
  · intro b' hb' x hx
    have hne : b' ≠ b := by
      have := (h.block_lt hb).2
      omega
    rw [update_of_ne hne]
    exact h.fresh b' hb' x hx
  · intro j hj
    rw [hrefs]
    by_cases hji : j = i
    · subst hji
      rw [update_self]
      apply (h.filled j hj).append hb hmax _ hfit
      intro t ht
      exact congrArg Prod.snd (h.owned.unique ht hb)
    · rw [update_of_ne hji]
      apply (h.filled j hj).of_agree
      intro n b' _ hb' x _
      have hne : b' ≠ b := by
        intro heq
        rw [heq] at hb'
        exact hji (congrArg Prod.fst (h.owned.unique hb' hb))
      rw [update_of_ne hne]

theorem of_agree (hagree : ∀ b, nmeta ≤ b → d' b = d b) : Laid v d' fb sh c := by
  have hrefs : refs v d' = refs v d := by
    apply refs_of_agree
    intro j a ha k _
    rw [hagree a (h.block_lt ha).1]
  constructor
  · rw [hrefs]
    exact h.owned
  · exact h.ge
  · exact h.le
  · intro b hb x hx
    rw [hagree b (h.ge.trans hb)]
    exact h.fresh b hb x hx
  · intro i hi
    rw [hrefs]
    apply (h.filled i hi).of_agree
    intro n b _ hb x _
    rw [hagree b (h.block_lt hb).1]

theorem addInode (hfree : (v i).type = 0) {ip : Dinode} (haddrs : ∀ k, ip.addrs k = 0) :
    Laid (update v i ip) d fb (update sh i (shapeOf 0))
      (update c i []) := by
  have hrefs : refs (update v i ip) d = refs v d := refs_update_fresh hfree haddrs
  constructor
  · rw [hrefs]
    exact h.owned
  · exact h.ge
  · exact h.le
  · exact h.fresh
  · intro j hj
    rw [hrefs]
    by_cases hji : j = i
    · subst hji
      rw [update_self, update_self]
      exact Filled.empty fun s => Dinode.ref_of_free hfree
    · rw [update_of_ne hji] at hj
      rw [update_of_ne hji, update_of_ne hji]
      exact h.filled j hj

/-- An inode is replaced by one with the same addresses. -/
theorem setInode (ip : Dinode) (htype : ip.type = (v i).type) (haddrs : ip.addrs = (v i).addrs) :
    Laid (update v i ip) d fb sh c := by
  have hrefs : refs (update v i ip) d = refs v d := refs_update_same (by rw [htype]) haddrs
  constructor
  · rw [hrefs]
    exact h.owned
  · exact h.ge
  · exact h.le
  · exact h.fresh
  · intro j hj
    rw [hrefs]
    apply h.filled j
    by_cases hji : j = i
    · subst hji
      rwa [update_self, htype] at hj
    · rwa [update_of_ne hji] at hj

end Laid

end Mkfs
end Fs
end FastIpc
