import FastIpc.Fs.MkfsImage

/-!
# Consistency of the image

What an image that `mkfs` has written must satisfy for the kernel to take it over: the inodes and
blocks in use are within the bounds of the super block, the free map marks the blocks in use, and
no file has a hole.  `mkfs` checks neither the number of inodes nor whether the last block of
the root directory is allocated when the size of the directory is rounded up, so there are two
conditions on the number of files.

Main results:

- Theorem `mkfs_sane_iff`: when the image is consistent.
- Theorem `mkfs_leaves_hole`: with 62 files the root directory has a hole.
-/

namespace FastIpc
namespace Fs
namespace Mkfs

open Foundation FaultM Kernel

/-! ## Counting inodes -/

/-- A computation that takes `n` inodes if it does not stop. -/
def Takes {α : Type} (n : Nat) (x : MkfsM α) : Prop :=
  ∀ im, wp x (fun _ im' => im'.freeinode = im.freeinode + n) (fun _ => True) im

namespace Takes

variable {α β : Type}

theorem pure (a : α) : Takes 0 (pure a : MkfsM α) := fun _ => rfl

theorem throw (e : Failure) (n : Nat) : Takes n (throw e : MkfsM α) := fun _ => trivial

theorem get : Takes 0 (get : MkfsM Image) := fun _ => rfl

theorem bind {m n k : Nat} {x : MkfsM α} {f : α → MkfsM β} (hx : Takes m x)
    (hf : ∀ a, Takes n (f a)) (hk : k = m + n) : Takes k (x >>= f) := by
  intro im
  rw [wp_bind]
  apply wp_mono (hx im)
  · intro a im' hm
    apply wp_mono (hf a im')
    · intro b im'' hn
      omega
    · exact fun _ h => h
  · exact fun _ h => h

theorem bind_zero {n : Nat} {x : MkfsM α} {f : α → MkfsM β} (hx : Takes 0 x)
    (hf : ∀ a, Takes n (f a)) : Takes n (x >>= f) :=
  bind hx hf (Nat.zero_add n).symm

theorem assert (p : Prop) [Decidable p] : Takes 0 (assert p) := by
  unfold Mkfs.assert
  split
  next => exact pure ()
  next => exact throw .abort 0

theorem wsect (sec : Nat) (buf : Block) : Takes 0 (wsect sec buf) := fun _ => rfl

theorem rsect (sec : Nat) : Takes 0 (rsect sec) := by
  apply bind_zero get
  intro im
  split
  next => exact pure _
  next => exact throw .exit 0

theorem winode (inum : Nat) (ip : Dinode) : Takes 0 (winode inum ip) :=
  bind_zero (rsect _) fun _ => wsect _ _

theorem rinode (inum : Nat) : Takes 0 (rinode inum) := bind_zero (rsect _) fun _ => pure _

theorem ialloc (type : BitVec 16) : Takes 1 (ialloc type) := by
  apply bind_zero get
  intro im
  have hcount : Takes 1 (modify fun im => { im with freeinode := im.freeinode + 1 } : MkfsM PUnit) :=
    fun _ => rfl
  exact bind hcount (fun _ => bind_zero (winode _ _) fun _ => pure _) rfl

theorem takeBlock : Takes 0 takeBlock := fun _ => rfl

theorem allocAddr (din : Dinode) (k : Fin (ndirect + 1)) : Takes 0 (allocAddr din k) := by
  unfold Mkfs.allocAddr
  split
  next => exact bind_zero takeBlock fun _ => pure _
  next => exact pure _

theorem appendEntry (din : Dinode) (k : Nat) : Takes 0 (appendEntry din k) := by
  apply bind_zero (rsect _)
  intro indirect
  split
  next => exact bind_zero takeBlock fun _ => bind_zero (wsect _ _) fun _ => pure _
  next => exact pure _

theorem appendBlock (din : Dinode) (fbn : Nat) : Takes 0 (appendBlock din fbn) := by
  unfold Mkfs.appendBlock
  split
  next => exact bind_zero (allocAddr _ _) fun _ => pure _
  next => exact bind_zero (allocAddr _ _) fun _ => bind_zero (appendEntry _ _) fun _ => pure _

theorem appendRound (din : Dinode) (off : Nat) (p : List (BitVec 8)) :
    Takes 0 (appendRound din off p) :=
  bind_zero (assert _) fun _ => bind_zero (appendBlock _ _) fun _ =>
    bind_zero (rsect _) fun _ => bind_zero (wsect _ _) fun _ => pure _

theorem appendLoop (fuel : Nat) (din : Dinode) (off : Nat) (p : List (BitVec 8)) :
    Takes 0 (appendLoop fuel din off p) := by
  induction fuel generalizing din off p with
  | zero => exact pure _
  | succ fuel ih =>
    unfold Mkfs.appendLoop
    split
    next => exact pure _
    next => exact bind_zero (appendRound _ _ _) fun _ => ih _ _ _

theorem iappend (inum : Nat) (p : List (BitVec 8)) : Takes 0 (iappend inum p) :=
  bind_zero (rinode _) fun _ => bind_zero (appendLoop _ _ _ _) fun _ => winode _ _

theorem appendReads (inum : Nat) (reads : List Chunk) : Takes 0 (appendReads inum reads) := by
  induction reads with
  | nil => exact pure _
  | cons chunk reads ih => exact bind_zero (iappend _ _) fun _ => ih

theorem addFile (rootino : Nat) (f : InputFile) : Takes 1 (addFile rootino f) := by
  apply bind_zero (assert _)
  intro _
  split
  next => exact throw .exit 1
  next => exact bind (ialloc _) (fun _ => bind_zero (iappend _ _) fun _ => appendReads _ _) rfl

theorem addFiles (rootino : Nat) (files : List InputFile) :
    Takes files.length (addFiles rootino files) := by
  induction files with
  | nil => exact pure _
  | cons f files ih => exact bind (addFile _ _) (fun _ => ih) (Nat.add_comm ..)

end Takes

/-- Every file takes one inode, the root directory another. -/
theorem freeinode_of_mkfs {files : List InputFile} {im : Image} (h : mkfs files = .ok im) :
    im.freeinode = files.length + 2 := by
  obtain ⟨im0, c, hroot, -, hino, -⟩ := makeRoot_outcome
  have hrest : Takes files.length
      (do addFiles rootIno files; fixSize rootIno; balloc (← get).freeblock : MkfsM Unit) := by
    apply Takes.bind (n := 0) (Takes.addFiles rootIno files) _ rfl
    intro _
    apply Takes.bind_zero (Takes.bind_zero (Takes.rinode _) fun _ => Takes.winode _ _)
    intro _
    apply Takes.bind_zero Takes.get
    intro im
    exact Takes.bind_zero (Takes.assert _) fun _ => Takes.wsect _ _
  unfold mkfs main at h
  rw [bind_of_ok hroot] at h
  cases hrun : (do addFiles rootIno files; fixSize rootIno; balloc (← get).freeblock : MkfsM Unit)
      im0 with
  | error e =>
    rw [hrun] at h
    cases h
  | ok r =>
    rw [hrun] at h
    cases h
    have hcount := wp_of_ok (hrest im0) hrun
    rw [hcount, hino, Nat.add_comm]

/-! ## Consistency -/

/-- The inode numbers an image uses. -/
def Image.UsesInode (im : Image) (i : Nat) : Prop := 1 ≤ i ∧ i < im.freeinode

/-- An image the kernel can take over. -/
structure Sane (im : Image) : Prop where
  inode_lt : ∀ i, im.UsesInode i → i < sb.ninodes
  block_lt : ∀ b, nmeta ≤ b → b < im.freeblock → b < sb.size
  ref_data : ∀ i s b, im.UsesInode i → (im.disk.dinode sb i).ref im.disk s = some b →
    nmeta ≤ b ∧ b < im.freeblock
  bitmap : ∀ b < bpb, sb.marked im.disk b = true ↔ b < im.freeblock
  allocated : ∀ i, im.UsesInode i → ∀ n < blocksOf (im.disk.dinode sb i).size.toNat,
    n < maxFile ∧ ((im.disk.dinode sb i).ref im.disk (spotOf n)).isSome

namespace Final

variable {im : Image} {c : Nat → List (BitVec 8)} {files : List InputFile}

theorem block_iff (h : Final im c files) {i n : Nat} (hi : im.UsesInode i) (hn : n < maxFile) :
    ((im.disk.dinode sb i).ref im.disk (spotOf n)).isSome ↔ n < blocksOf (c i).length :=
  (h.laid.filled i ((h.used_iff i).mpr hi)).block_iff n hn

theorem blocks_le (h : Final im c files) {i : Nat} (hi : im.UsesInode i) :
    blocksOf (c i).length ≤ maxFile :=
  (h.laid.filled i ((h.used_iff i).mpr hi)).blocks_le

theorem uses_root (h : Final im c files) : im.UsesInode rootIno := by
  refine ⟨le_rfl, ?_⟩
  rw [h.freeinode]
  exact Nat.lt_add_left _ (by decide)

theorem blocksOf_rootSize (files : List InputFile) :
    blocksOf (rootSize files) = 16 * (files.length + 2) / bsize + 1 := by
  unfold blocksOf rootSize
  simp only [bsize]
  omega

/-- The root directory has a hole if its entries end with a block. -/
theorem hole_of_mod_eq (h : Final im c files) (hmod : 16 * (files.length + 2) % bsize = 0) :
    ¬Sane im := by
  intro hsane
  have hroot : blocksOf (c rootIno).length = 16 * (files.length + 2) / bsize := by
    rw [h.root, length_rootBytes, blocksOf_of_mod_eq hmod]
  obtain ⟨hmax, hsome⟩ := hsane.allocated rootIno h.uses_root
    (16 * (files.length + 2) / bsize)
    (by rw [h.size_root, blocksOf_rootSize]; exact Nat.lt_succ_self _)
  have hlt := (h.block_iff h.uses_root hmax).mp hsome
  omega

theorem sane_of_mod_ne (h : Final im c files) (hfiles : files.length + 2 ≤ nInodes)
    (hmod : 16 * (files.length + 2) % bsize ≠ 0) : Sane im where
  inode_lt i hi := by
    have hlt := hi.2
    rw [h.freeinode] at hlt
    exact hlt.trans_le hfiles
  block_lt b _ hb := hb.trans_le h.laid.le
  ref_data i s b _ hb := h.laid.block_lt (p := (i, s)) hb
  bitmap b hb := by rw [h.bits b hb, decide_eq_true_eq]
  allocated i hi n hn := by
    have hblocks : blocksOf (im.disk.dinode sb i).size.toNat = blocksOf (c i).length := by
      by_cases hroot : i = rootIno
      · rw [hroot, h.size_root, blocksOf_rootSize, h.root, length_rootBytes,
          blocksOf_of_mod_ne hmod]
      · have htwo : 2 ≤ i := Nat.lt_of_le_of_ne hi.1 (Ne.symm hroot)
        rw [h.size i htwo hi.2]
    rw [hblocks] at hn
    have hmax : n < maxFile := hn.trans_le (h.blocks_le hi)
    exact ⟨hmax, (h.block_iff hi hmax).mpr hn⟩

end Final

/-- The image is consistent exactly if the inodes suffice and the entries of the root directory do
not end with a block. -/
theorem mkfs_sane_iff {files : List InputFile} {im : Image} (h : mkfs files = .ok im) :
    Sane im ↔ files.length + 1 < sb.ninodes ∧ 16 * (files.length + 2) % bsize ≠ 0 := by
  have hino := freeinode_of_mkfs h
  by_cases hfiles : files.length + 1 < sb.ninodes
  · have hle : files.length + 2 ≤ nInodes := hfiles
    rcases mkfs_outcome files hle with ⟨im', c, hrun, -, hfinal⟩ | ⟨e, hrun, -⟩
    · rw [h, Except.ok.injEq] at hrun
      subst hrun
      constructor
      · intro hsane
        exact ⟨hfiles, fun hmod => hfinal.hole_of_mod_eq hmod hsane⟩
      · rintro ⟨-, hmod⟩
        exact hfinal.sane_of_mod_ne hle hmod
    · rw [h] at hrun
      cases hrun
  · constructor
    · -- the last file has an inode that is none
      intro hsane
      have hlast : im.UsesInode (files.length + 1) := ⟨Nat.le_add_left .., by omega⟩
      exact absurd (hsane.inode_lt _ hlast) hfiles
    · rintro ⟨hlt, -⟩
      exact absurd hlt hfiles

/-- A file of three bytes. -/
def smallFile : InputFile :=
  ⟨CString.ofText "user/_ls" (by decide), some [⟨[1, 2, 3], by decide, by decide⟩]⟩

/-- With one small file the image is consistent. -/
theorem mkfs_sane_small : ∃ im, mkfs [smallFile] = .ok im ∧ Sane im := by
  obtain ⟨im, -, hrun, -⟩ := mkfs_of_fits [smallFile] (by decide) (by decide) (by decide)
  exact ⟨im, hrun, (mkfs_sane_iff hrun).mpr (by decide)⟩

/-- An empty file with a name of two letters. -/
def emptyFile (k : Fin 62) : InputFile where
  path := ⟨[BitVec.ofNat 8 (0x61 + k / 8), BitVec.ofNat 8 (0x61 + k % 8)], by revert k; decide⟩
  reads := some []

/-- With sixty-two empty files the root directory has a block less than its size says. -/
theorem mkfs_leaves_hole : ∃ im, mkfs ((List.finRange 62).map emptyFile) = .ok im ∧ ¬Sane im := by
  obtain ⟨im, c, hrun, hfinal⟩ := mkfs_of_fits ((List.finRange 62).map emptyFile) (by decide)
    (by decide) (by decide)
  exact ⟨im, hrun, hfinal.hole_of_mod_eq (by decide)⟩

end Mkfs
end Fs
end FastIpc
