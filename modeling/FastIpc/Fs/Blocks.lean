import FastIpc.Fs.Inode

/-!
# The free map and its owners

A file system is sound if the data blocks marked in the free map are those an inode refers to, each
from one place, and every block before the data blocks is marked.  This module says what
`balloc` and `bfree` do to the marks.

Main results:

- Theorem `balloc_spec`: an allocated block is a zeroed data block that was not in use.
- Theorem `bfree_spec`: freeing a marked block clears its mark and nothing else.
-/

namespace FastIpc
namespace Fs

open Foundation FaultM

/-! ## Layout -/

/-- The areas of the disk follow each other: inodes, free map, data.  Block numbers fit the
`int` counters of the scan. -/
structure Superblock.Layout (sb : Superblock) : Prop where
  size_le : sb.size ≤ 2 ^ 31
  inodes : sb.inodestart + (sb.ninodes + (ipb - 1)) / ipb ≤ sb.bmapstart
  bitmap : sb.bmapstart + (sb.size + (bpb - 1)) / bpb ≤ sb.size - sb.nblocks
  start : 0 < sb.inodestart

namespace Superblock.Layout

variable {sb : Superblock}
variable {b i : Nat}

theorem iblock_lt (h : sb.Layout) (hi : i < sb.ninodes) : sb.iblock i < sb.bmapstart := by
  have hinodes := h.inodes
  unfold Superblock.iblock
  simp only [ipb] at *
  omega

theorem bblock_ge (sb : Superblock) (b : Nat) : sb.bmapstart ≤ sb.bblock b := Nat.le_add_left ..

theorem bblock_lt (h : sb.Layout) (hb : b < sb.size) : sb.bblock b < sb.size - sb.nblocks := by
  have hbitmap := h.bitmap
  unfold Superblock.bblock
  simp only [bpb] at *
  omega

theorem iblock_ne (h : sb.Layout) (hi : i < sb.ninodes) (hb : sb.IsData b) : sb.iblock i ≠ b := by
  have hlt := h.iblock_lt hi
  have hge := bblock_ge sb b
  have hdata := h.bblock_lt hb.2
  have hlo := hb.1
  omega

theorem bblock_ne (h : sb.Layout) {x : Nat} (hx : x < sb.size) (hb : sb.IsData b) :
    sb.bblock x ≠ b := by
  have hdata := h.bblock_lt hx
  have hlo := hb.1
  omega

theorem iblock_ne_bblock (h : sb.Layout) (hi : i < sb.ninodes) (b : Nat) :
    sb.iblock i ≠ sb.bblock b := by
  have hlt := h.iblock_lt hi
  have hge := bblock_ge sb b
  omega

/-- The number of a data block is no null address and fits a word. -/
theorem pointer_eq (h : sb.Layout) (hb : sb.IsData b) : pointer (BitVec.ofNat 32 b) = some b := by
  have hlt := h.bblock_lt hb.2
  have hsize := h.size_le
  have hlo := hb.1
  have hhi := hb.2
  exact pointer_ofNat (by omega) (by omega)

end Superblock.Layout

/-! ## Marks -/

namespace Disk

/-- Set the mark of a block. -/
def mark (sb : Superblock) (d : Disk) (b : Nat) : Disk :=
  Function.update d (sb.bblock b) ((d (sb.bblock b)).setBit (b % bpb))

/-- Clear the mark of a block. -/
def unmark (sb : Superblock) (d : Disk) (b : Nat) : Disk :=
  Function.update d (sb.bblock b) ((d (sb.bblock b)).clearBit (b % bpb))

variable {sb : Superblock} {d : Disk} {b x : Nat}

theorem bblock_eq_iff (sb : Superblock) : sb.bblock x = sb.bblock b ↔ x / bpb = b / bpb := by
  unfold Superblock.bblock
  omega

theorem mod_eq_iff (h : x / bpb = b / bpb) : x % bpb = b % bpb ↔ x = b := by
  simp only [bpb] at *
  omega

theorem marked_mark (sb : Superblock) (d : Disk) (b x : Nat) :
    sb.marked (mark sb d b) x = (decide (x = b) || sb.marked d x) := by
  unfold Superblock.marked mark
  by_cases hblock : sb.bblock x = sb.bblock b
  · rw [hblock, Function.update_self, Block.bit_setBit]
    simp only [mod_eq_iff ((bblock_eq_iff sb).mp hblock)]
  · have hne : x ≠ b := fun h => hblock (by rw [h])
    rw [Function.update_of_ne hblock, decide_eq_false hne, Bool.false_or]

theorem marked_unmark (sb : Superblock) (d : Disk) (b x : Nat) :
    sb.marked (unmark sb d b) x = (decide (x ≠ b) && sb.marked d x) := by
  unfold Superblock.marked unmark
  by_cases hblock : sb.bblock x = sb.bblock b
  · rw [hblock, Function.update_self, Block.bit_clearBit]
    simp only [ne_eq, mod_eq_iff ((bblock_eq_iff sb).mp hblock)]
  · have hne : x ≠ b := fun h => hblock (by rw [h])
    rw [Function.update_of_ne hblock, decide_eq_true hne, Bool.true_and]

theorem marked_update (hx : sb.bblock x ≠ b) (blk : Block) :
    sb.marked (Function.update d b blk) x = sb.marked d x := by
  rw [Superblock.marked, Function.update_of_ne hx, Superblock.marked]

end Disk

/-! ## The scan -/

section Scan

variable {sb : Superblock} {d : Disk}
variable {b fuel : Nat}

theorem scanBlock_sound {blk : Block} {bi k : Nat} (h : scanBlock sb blk b fuel bi = some k) :
    k < bi + fuel ∧ b + k < sb.size ∧ blk.bit k = false := by
  induction fuel generalizing bi with
  | zero => cases h
  | succ fuel ih =>
    rw [scanBlock] at h
    split at h
    next hlt =>
        split at h
        next =>
            have hrest := ih h
            exact ⟨by omega, hrest.2⟩
        next hbit =>
            cases h
            exact ⟨by omega, hlt, by simpa using hbit⟩
    next => cases h

theorem scanBlock_complete {blk : Block} {bi k : Nat} (h : scanBlock sb blk b fuel bi = none)
    (hle : bi ≤ k) (hlt : k < bi + fuel) (hsize : b + k < sb.size) : blk.bit k = true := by
  induction fuel generalizing bi with
  | zero => omega
  | succ fuel ih =>
    rw [scanBlock, if_pos (by omega)] at h
    split at h
    next hbit =>
        by_cases hk : k = bi
        · rw [hk]
          exact hbit
        · exact ih h (by omega) (by omega)
    next => cases h

theorem scanBitmap_sound {x : Nat} (hb : b % bpb = 0) (h : scanBitmap sb d fuel b = some x) :
    x < sb.size ∧ sb.marked d x = false := by
  induction fuel generalizing b with
  | zero => cases h
  | succ fuel ih =>
    rw [scanBitmap] at h
    split at h
    next hlt =>
        split at h
        next bi hscan =>
            cases h
            obtain ⟨hbi, hsize, hbit⟩ := scanBlock_sound hscan
            have hdiv : (b + bi) / bpb = b / bpb := by
              simp only [bpb] at *
              omega
            have hmod : (b + bi) % bpb = bi := by
              simp only [bpb] at *
              omega
            have hblock : sb.bblock (b + bi) = sb.bblock b := (Disk.bblock_eq_iff sb).mpr hdiv
            exact ⟨hsize, by rw [Superblock.marked, hblock, hmod]; exact hbit⟩
        next => exact ih (by simp only [bpb] at *; omega) h
    next => cases h

/-- The scan finds nothing only if all blocks are marked. -/
theorem scanBitmap_complete {x : Nat} (hb : b % bpb = 0) (h : scanBitmap sb d fuel b = none)
    (hle : b ≤ x) (hlt : x < b + fuel * bpb) (hsize : x < sb.size) : sb.marked d x = true := by
  induction fuel generalizing b with
  | zero => omega
  | succ fuel ih =>
    rw [scanBitmap, if_pos (by omega)] at h
    split at h
    next => cases h
    next hscan =>
        by_cases hx : x < b + bpb
        · have hdiv : x / bpb = b / bpb := by
            simp only [bpb] at *
            omega
          have hmod : b + x % bpb = x := by
            simp only [bpb] at *
            omega
          have hblock : sb.bblock x = sb.bblock b := (Disk.bblock_eq_iff sb).mpr hdiv
          rw [Superblock.marked, hblock]
          apply scanBlock_complete hscan (Nat.zero_le _)
          · rw [Nat.zero_add]
            exact Nat.mod_lt _ (by decide)
          · rw [hmod]
            exact hsize
        · apply ih _ h (by omega)
          · rw [Nat.add_mul, Nat.one_mul] at hlt
            omega
          · simp only [bpb] at *
            omega

end Scan

/-! ## Soundness -/

/-- The marked data blocks are those the inodes refer to, each from one place; the blocks before
them are marked. -/
structure Sound (sb : Superblock) (v : Nat → Dinode) (d : Disk) : Prop where
  owned : Exclusive (refs v d) sb.IsData fun b => sb.marked d b = true
  low : ∀ b < sb.size - sb.nblocks, sb.marked d b = true

section Specs

/-- The blocks passed to `log_write`. -/
def Store.touched (s : Store) : List Nat := s.logged.map Prod.fst

variable {sb : Superblock} {v : Nat → Dinode} {s : Store}

/-- What allocating a block does. -/
structure Allocated (sb : Superblock) (d d' : Disk) (b : Nat) : Prop where
  isData : sb.IsData b
  free : sb.marked d b = false
  disk : d' = Function.update (Disk.mark sb d b) b Block.zero

/-- A free block is marked and zeroed; there is a panic only if no block is free. -/
theorem balloc_spec (h : Sound sb v s.disk) :
    wp (balloc sb)
      (fun b s' => Allocated sb s.disk s'.disk b ∧ s'.touched = s.touched ++ [sb.bblock b, b])
      (fun e => e = "balloc: out of blocks" ∧ ∀ b < sb.size, sb.marked s.disk b = true) s := by
  unfold balloc
  rw [wp_bind, wp_get]
  dsimp only
  split
  next hscan =>
      refine ⟨rfl, ?_⟩
      intro b hb
      apply scanBitmap_complete rfl hscan (Nat.zero_le _) _ hb
      have hdiv := Nat.div_add_mod sb.size bpb
      have hmod := Nat.mod_lt sb.size (show 0 < bpb by decide)
      rw [Nat.mul_comm] at hdiv
      rw [Nat.add_mul]
      omega
  next b hscan =>
      obtain ⟨hlt, hfree⟩ := scanBitmap_sound rfl hscan
      refine ⟨⟨⟨?_, hlt⟩, hfree, rfl⟩, by simp [Store.touched, Store.put]⟩
      by_contra hlow
      rw [h.low b (by omega)] at hfree
      cases hfree

/-- A marked block is freed. -/
theorem bfree_spec {b : Nat} (hb : sb.marked s.disk b = true) :
    wp (bfree sb b) (fun _ s' => s'.disk = Disk.unmark sb s.disk b) (fun _ => False) s := by
  unfold bfree
  rw [wp_bind, wp_get]
  unfold Superblock.marked at hb
  rw [if_pos hb]
  rfl

end Specs

end Fs
end FastIpc
