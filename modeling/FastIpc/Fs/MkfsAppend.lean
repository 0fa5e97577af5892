import FastIpc.Fs.MkfsLayout

/-!
# Appending to a file of an image

What `iappend` does to an image whose files are laid out, for every inode below
`NINODES`: it appends the bytes, or the program stops because the file would be longer than
`MAXFILE` blocks or the image has no block left.

Main results:

- Theorem `iappend_outcome`: bytes are appended, or there is no room.
-/

namespace FastIpc
namespace Fs
namespace Mkfs

open Foundation FaultM
open Function (update update_eq_self update_idem update_of_ne update_self)

/-! ## Sectors -/

/-- Replace a block of the image. -/
def Image.put (im : Image) (b : Nat) (blk : Block) : Image :=
  { im with disk := update im.disk b blk }

/-- Count one more block as taken. -/
def Image.bump (im : Image) : Image := { im with freeblock := im.freeblock + 1 }

@[simp]
theorem Image.bump_disk (im : Image) : im.bump.disk = im.disk := rfl

@[simp]
theorem Image.bump_freeblock (im : Image) : im.bump.freeblock = im.freeblock + 1 := rfl

section

variable (im : Image) (b : Nat) (blk : Block)

@[simp]
theorem Image.put_disk : (im.put b blk).disk = update im.disk b blk :=
  rfl

@[simp]
theorem Image.put_len : (im.put b blk).len = im.len := rfl

@[simp]
theorem Image.put_freeinode : (im.put b blk).freeinode = im.freeinode :=
  rfl

@[simp]
theorem Image.put_freeblock : (im.put b blk).freeblock = im.freeblock :=
  rfl

end

theorem sectorBlock_of_lt {sec : Nat} (h : sec < 2 ^ 22) : sectorBlock sec = sec := by
  unfold sectorBlock
  simp only [bsize]
  omega

section Sectors

variable {im : Image} {b : Nat}

theorem rsect_of_lt (hlen : im.len = fssize) (hb : b < fssize) :
    rsect b im = .ok (im.disk b, im) := by
  have hsector : sectorBlock b = b := sectorBlock_of_lt (by simp only [fssize] at hb; omega)
  unfold rsect
  rw [bind_of_ok (get_apply im), hsector, if_pos (by omega)]
  rfl

theorem rsect_of_ge (hlen : im.len = fssize) (hge : fssize ≤ b) (hb : b < 2 ^ 22) :
    rsect b im = .error .exit := by
  unfold rsect
  rw [bind_of_ok (get_apply im), sectorBlock_of_lt hb, if_neg (by omega)]
  rfl

theorem wsect_of_lt (hlen : im.len = fssize) (hb : b < fssize) (blk : Block) :
    wsect b blk im = .ok ((), im.put b blk) := by
  have hsector : sectorBlock b = b := sectorBlock_of_lt (by simp only [fssize] at hb; omega)
  have hmax : max im.len (b + 1) = im.len := by omega
  unfold wsect
  rw [modify_apply, hsector, hmax]
  rfl

end Sectors

/-! ## Inodes -/

/-- Store an inode in the image. -/
def Image.putInode (im : Image) (i : Nat) (ip : Dinode) : Image :=
  { im with disk := im.disk.putDinode sb i ip }

section Inodes

variable {im : Image} {i : Nat}

theorem iblock_lt (hi : i < nInodes) : sb.iblock i < nmeta - 1 := by
  simp only [Superblock.iblock, sb, nmeta, nInodes, ipb, ninodeblocks, nbitmap, nlog, fssize,
    bsize] at *
  omega

theorem one_lt_iblock (i : Nat) : 1 < sb.iblock i := by
  simp only [Superblock.iblock, sb, nlog, ipb]
  omega

theorem winode_of_lt (hlen : im.len = fssize) (hi : i < nInodes) (ip : Dinode) :
    winode i ip im = .ok ((), im.putInode i ip) := by
  have hlt : sb.iblock i < fssize := by
    have := iblock_lt hi
    simp only [nmeta, fssize, ninodeblocks, nbitmap, nInodes, ipb, nlog, bsize] at *
    omega
  unfold winode
  rw [bind_of_ok (rsect_of_lt hlen hlt)]
  exact wsect_of_lt hlen hlt _

theorem rinode_of_lt (hlen : im.len = fssize) (hi : i < nInodes) :
    rinode i im = .ok (im.disk.dinode sb i, im) := by
  have hlt : sb.iblock i < fssize := by
    have := iblock_lt hi
    simp only [nmeta, fssize, ninodeblocks, nbitmap, nInodes, ipb, nlog, bsize] at *
    omega
  unfold rinode
  rw [bind_of_ok (rsect_of_lt hlen hlt), Disk.dinode_of_lt hi]
  rfl

theorem dinode_of_agree_meta {d d' : Disk} (h : ∀ b < nmeta, d' b = d b) :
    Disk.dinode sb d' = Disk.dinode sb d := by
  apply Disk.dinode_of_agree
  intro i hi
  apply h
  have := iblock_lt hi
  omega

end Inodes

/-! ## Arithmetic of blocks -/

section Arithmetic

variable {off n : Nat}

theorem blocksOf_of_mod_eq (h : off % bsize = 0) : blocksOf off = off / bsize := by
  unfold blocksOf
  simp only [bsize] at *
  omega

theorem blocksOf_of_mod_ne (h : off % bsize ≠ 0) : blocksOf off = off / bsize + 1 := by
  unfold blocksOf
  simp only [bsize] at *
  omega

/-- Bytes up to the end of the block the end of the file is in. -/
theorem blocksOf_add (hpos : 0 < n) (hle : n ≤ (off / bsize + 1) * bsize - off) :
    blocksOf (off + n) = off / bsize + 1 := by
  unfold blocksOf
  simp only [bsize] at *
  omega

theorem blockUse_mono (h : off ≤ n) : blockUse off ≤ blockUse n := by
  have hblocks : blocksOf off ≤ blocksOf n := by
    unfold blocksOf
    exact Nat.div_le_div_right (by omega)
  unfold blockUse
  split
  next => split <;> omega
  next => split <;> omega

end Arithmetic

/-! ## The block at the end of a file -/

/-- The parts of an image that appending to a file leaves. -/
structure Frame (im im' : Image) : Prop where
  len : im'.len = im.len
  freeinode : im'.freeinode = im.freeinode
  blocks : ∀ b < nmeta, im'.disk b = im.disk b

namespace Frame

variable {im im' im'' : Image}

theorem refl (im : Image) : Frame im im := ⟨rfl, rfl, fun _ _ => rfl⟩

theorem trans (h : Frame im im') (h' : Frame im' im'') : Frame im im'' where
  len := h'.len.trans h.len
  freeinode := h'.freeinode.trans h.freeinode
  blocks b hb := (h'.blocks b hb).trans (h.blocks b hb)

theorem put {b : Nat} (hb : nmeta ≤ b) (blk : Block) : Frame im (im.put b blk) where
  len := rfl
  freeinode := rfl
  blocks b' hb' := by rw [Image.put_disk, update_of_ne (by omega)]

theorem bump (im : Image) : Frame im im.bump := ⟨rfl, rfl, fun _ _ => rfl⟩

theorem dinode (h : Frame im im') : im'.disk.dinode sb = im.disk.dinode sb :=
  dinode_of_agree_meta h.blocks

end Frame

/-- An image while one inode is appended to: `din` is the copy of that inode in memory. -/
structure Mid (im : Image) (i : Nat) (din : Dinode) (sh : Nat → Shape)
    (c : Nat → List (BitVec 8)) : Prop where
  len : im.len = fssize
  type : din.type ≠ 0
  laid : Laid (update (im.disk.dinode sb) i din) im.disk im.freeblock sh c

namespace Mid

variable {im : Image} {i : Nat} {din : Dinode} {sh : Nat → Shape} {c : Nat → List (BitVec 8)}

theorem refs_eq (im : Image) (i : Nat) (din : Dinode) (s : Spot) :
    refs (update (im.disk.dinode sb) i din) im.disk (i, s) = din.ref im.disk s := by
  rw [refs_apply, update_self]

theorem filled (h : Mid im i din sh c) : Filled (din.ref im.disk) im.disk (sh i) (c i) := by
  have hfilled := h.laid.filled i (by rw [update_self]; exact h.type)
  simpa only [refs_eq] using hfilled

theorem block_lt (h : Mid im i din sh c) {s : Spot} {b : Nat} (hs : din.ref im.disk s = some b) :
    nmeta ≤ b ∧ b < fssize := by
  rw [← refs_eq im i] at hs
  have hlt := h.laid.block_lt hs
  have hle := h.laid.le
  omega

/-- The view of the inodes after one address of the inode appended to is stored. -/
theorem update_setAddr (v : Nat → Dinode) (i : Nat) (din : Dinode) (k : Fin (ndirect + 1))
    (w : BitVec 32) :
    update v i (din.setAddr k w) = update (update v i din) i
        ((update v i din i).setAddr k w) := by
  rw [update_self, update_idem]

/-- Storing the next free block in an empty address changes one place. -/
theorem refs_setAddr (h : Mid im i din sh c) {k : Fin (ndirect + 1)} (hzero : din.addrs k = 0) :
    refs (update (im.disk.dinode sb) i
        (din.setAddr k (BitVec.ofNat 32 im.freeblock))) im.disk =
      update (refs (update (im.disk.dinode sb) i din) im.disk)
        (i, spotOfAddr k) (some im.freeblock) := by
  have hge := h.laid.ge
  have hle := h.laid.le
  have hpos : im.freeblock ≠ 0 := by
    simp only [nmeta] at hge
    omega
  have hlt : im.freeblock < 2 ^ 32 := by
    simp only [fssize] at hle
    omega
  have htype : (update (im.disk.dinode sb) i din i).type ≠ 0 := by
    rw [update_self]
    exact h.type
  have hzero' : (update (im.disk.dinode sb) i din i).addrs k = 0 := by
    rw [update_self]
    exact hzero
  rw [update_setAddr, Fs.refs_setAddr htype hzero', pointer_ofNat hpos hlt]
  intro _ j hj
  rw [BitVec.toNat_ofNat, Nat.mod_eq_of_lt hlt]
  exact h.laid.word_fresh hj

/-- An empty address of the inode gets the next free block. -/
theorem allocAddr_of_room (h : Mid im i din sh c) {k : Fin (ndirect + 1)} {sh' : Shape}
    (hzero : din.addrs k = 0) (hlt : im.freeblock < fssize)
    (hfill : Filled (din.ref im.disk) im.disk (sh i) (c i) →
      Filled (update (din.ref im.disk) (spotOfAddr k) (some im.freeblock)) im.disk sh'
        (c i)) :
    Mid im.bump i
      (din.setAddr k (BitVec.ofNat 32 im.freeblock)) (update sh i sh') c where
  __ := h
  laid := by
    have hnone : refs (update (im.disk.dinode sb) i din) im.disk (i, spotOfAddr k) = none := by
      rw [refs_eq, ref_spotOfAddr h.type, hzero, pointer_zero]
    apply h.laid.extend _ (h.refs_setAddr hzero) hnone hlt (fun _ _ _ _ _ => rfl) (fun _ _ => rfl)
    · simpa only [refs_eq] using hfill
    · intro j
      by_cases hji : j = i
      · rw [hji, update_self, update_self, Dinode.setAddr_type]
      · rw [update_of_ne hji, update_of_ne hji]

/-- An empty entry of the indirect block gets the next free block. -/
theorem setEntry (h : Mid im i din sh c) {a : Nat} (hind : din.ref im.disk .indirect = some a)
    (hge : ndirect ≤ (sh i).blocks) (hmax : (sh i).blocks < maxFile) (hlt : im.freeblock < fssize) :
    Mid (im.bump.put a
        ((im.disk a).setWord (4 * ((sh i).blocks - ndirect)) (BitVec.ofNat 32 im.freeblock)))
      i din (update sh i ⟨(sh i).blocks + 1, (sh i).indirect⟩) c where
  __ := h
  laid := by
    have hfb := h.laid.ge
    have hpos : im.freeblock ≠ 0 := by
      simp only [nmeta] at hfb
      omega
    have hlt32 : im.freeblock < 2 ^ 32 := by
      simp only [fssize] at hlt
      omega
    have hk : (Fin.ofNat nindirect ((sh i).blocks - ndirect)).val = (sh i).blocks - ndirect := by
      rw [Fin.val_ofNat, Nat.mod_eq_of_lt]
      simp only [maxFile, ndirect, nindirect] at *
      omega
    rw [← refs_eq im i] at hind
    have hdinode : ∀ blk, Disk.dinode sb (update im.disk a blk) = im.disk.dinode sb := by
      intro blk
      apply dinode_of_agree_meta
      intro b hb
      have := (h.laid.block_lt hind).1
      rw [update_of_ne (by omega)]
    have hentry := refs_setEntry hind
      (fun j hj => congrArg Prod.fst (h.laid.owned.unique hj hind))
      (Fin.ofNat nindirect ((sh i).blocks - ndirect)) (BitVec.ofNat 32 im.freeblock)
    rw [hk, pointer_ofNat hpos hlt32, ← spotOf_of_ge hge] at hentry
    have hnone : refs (update (im.disk.dinode sb) i din) im.disk
        (i, spotOf (sh i).blocks) = none := by
      rw [refs_eq, ← Option.not_isSome_iff_eq_none, h.filled.block_iff _ hmax]
      omega
    rw [Image.put_disk, Image.bump_disk, hdinode]
    apply h.laid.extend (fun _ => rfl) hentry hnone hlt
    · intro j n b hn hb
      have hne : b ≠ a := by
        intro heq
        rw [heq] at hb
        exact spotOf_ne_indirect n (congrArg Prod.snd (h.laid.owned.unique hb hind))
      exact update_of_ne hne ..
    · intro b hb
      have hne : b ≠ a := by
        have := (h.laid.block_lt hind).2
        omega
      exact update_of_ne hne ..
    · intro hfilled
      exact hfilled.addBlock hmax im.freeblock

end Mid

/-! ## Taking the block at the end of a file -/

section Taking

variable {im : Image} {i n : Nat} {din : Dinode} {sh : Nat → Shape} {c : Nat → List (BitVec 8)}

theorem takeBlock_apply (im : Image) : takeBlock im = .ok (BitVec.ofNat 32 im.freeblock, im.bump) :=
  rfl

theorem allocAddr_of_ne {k : Fin (ndirect + 1)} (h : din.addrs k ≠ 0) :
    allocAddr din k im = .ok (din, im) := by
  unfold allocAddr
  rw [if_neg h]
  rfl

theorem allocAddr_of_eq {k : Fin (ndirect + 1)} (h : din.addrs k = 0) :
    allocAddr din k im = .ok (din.setAddr k (BitVec.ofNat 32 im.freeblock), im.bump) := by
  unfold allocAddr
  rw [if_pos h, bind_of_ok (takeBlock_apply im)]
  rfl

variable {a : Nat}

/-- The address of the indirect block, read back from the place. -/
theorem Mid.indirect_toNat (h : Mid im i din sh c) (hind : din.ref im.disk .indirect = some a) :
    din.addrs indirectAddr ≠ 0 ∧ (din.addrs indirectAddr).toNat = a := by
  rw [Dinode.ref_indirect h.type] at hind
  exact pointer_eq_some.mp hind

theorem appendBlock_existing (h : Mid im i din sh c) (hn : n < maxFile) {b : Nat}
    (hb : din.ref im.disk (spotOf n) = some b) :
    ∃ x, appendBlock din n im = .ok ((din, x), im) ∧ x.toNat = b := by
  unfold appendBlock
  by_cases hlt : n < ndirect
  · rw [spotOf_of_lt hlt, Dinode.ref_direct h.type, pointer_eq_some] at hb
    rw [dif_pos hlt, bind_of_ok (allocAddr_of_ne hb.1)]
    exact ⟨_, rfl, hb.2⟩
  · rw [spotOf_of_ge (by omega), Dinode.ref_entry h.type, Option.bind_eq_some_iff] at hb
    obtain ⟨a, hind, hword⟩ := hb
    obtain ⟨hne, ha⟩ := h.indirect_toNat hind
    have hk : (Fin.ofNat nindirect (n - ndirect)).val = n - ndirect := by
      rw [Fin.val_ofNat, Nat.mod_eq_of_lt]
      simp only [maxFile, ndirect, nindirect] at *
      omega
    rw [hk, pointer_eq_some] at hword
    refine ⟨(im.disk a).word (4 * (n - ndirect)), ?_, hword.2⟩
    rw [dif_neg hlt, bind_of_ok (allocAddr_of_ne hne)]
    unfold appendEntry
    rw [ha, bind_apply, bind_of_ok (rsect_of_lt h.len (h.block_lt hind).2), if_neg hword.1]
    rfl

/-- Blocks the next block of a file of `n` blocks costs. -/
def nextCost (n : Nat) : Nat := if n = ndirect then 2 else 1

theorem entry_val (hn : n < maxFile) (hge : ndirect ≤ n) :
    (Fin.ofNat nindirect (n - ndirect)).val = n - ndirect := by
  rw [Fin.val_ofNat, Nat.mod_eq_of_lt]
  simp only [maxFile, ndirect, nindirect] at *
  omega

variable (h : Mid im i din sh c)
include h

theorem Mid.toNat_freeblock : (BitVec.ofNat 32 im.freeblock).toNat = im.freeblock := by
  have hle := h.laid.le
  rw [BitVec.toNat_ofNat, Nat.mod_eq_of_lt]
  simp only [fssize] at hle
  omega

theorem Mid.pointer_freeblock : pointer (BitVec.ofNat 32 im.freeblock) = some im.freeblock := by
  have hge := h.laid.ge
  have hle := h.laid.le
  simp only [nmeta, fssize] at hge hle
  exact pointer_ofNat (by omega) (by omega)

/-- An entry that is missing from the indirect block gets the next free block. -/
theorem appendEntry_missing (hge : ndirect ≤ (sh i).blocks) (hmax : (sh i).blocks < maxFile)
    (hind : din.ref im.disk .indirect = some a) :
    appendEntry din ((sh i).blocks - ndirect) im = .ok (BitVec.ofNat 32 im.freeblock, im.bump.put a
        ((im.disk a).setWord (4 * ((sh i).blocks - ndirect)) (BitVec.ofNat 32 im.freeblock))) := by
  obtain ⟨hne, ha⟩ := h.indirect_toNat hind
  have hlt := (h.block_lt hind).2
  have hnone : din.ref im.disk (spotOf (sh i).blocks) = none := by
    rw [← Option.not_isSome_iff_eq_none, h.filled.block_iff _ hmax]
    omega
  rw [spotOf_of_ge hge, Dinode.ref_entry h.type, hind, Option.bind_some, entry_val hmax hge,
    pointer_eq_none] at hnone
  have hlen : im.bump.len = fssize := h.len
  unfold appendEntry
  rw [ha, bind_of_ok (rsect_of_lt h.len hlt), if_pos hnone,
    bind_of_ok (takeBlock_apply im), bind_of_ok (wsect_of_lt hlen hlt _)]
  rfl

theorem Mid.ref_setEntry (hge : ndirect ≤ n) (hmax : n < maxFile)
    (hind : din.ref im.disk .indirect = some a) :
    din.ref (update im.disk a
      ((im.disk a).setWord (4 * (n - ndirect)) (BitVec.ofNat 32 im.freeblock))) (spotOf n) =
      some im.freeblock := by
  have hind' : ∀ d, din.ref d .indirect = some a := by
    intro d
    rw [← hind, Dinode.ref_indirect h.type, Dinode.ref_indirect h.type]
  rw [spotOf_of_ge hge, Dinode.ref_entry h.type, hind', Option.bind_some, entry_val hmax hge,
    update_self, Block.word_setWord, h.pointer_freeblock]

/-- An entry of an indirect block that is there is taken if there is room. -/
theorem appendEntry_of_room (hsh : sh i = ⟨n, true⟩) (hge : ndirect ≤ n) (hmax : n < maxFile)
    (hroom : im.freeblock < fssize) :
    ∃ x im', appendEntry din (n - ndirect) im = .ok (x, im') ∧ Frame im im' ∧
      im'.freeblock = im.freeblock + 1 ∧ Mid im' i din (update sh i ⟨n + 1, true⟩) c ∧
      din.ref im'.disk (spotOf n) = some x.toNat := by
  have hblocks : (sh i).blocks = n := by rw [hsh]
  have hsome : (din.ref im.disk .indirect).isSome := by rw [h.filled.indirect_iff, hsh]
  obtain ⟨a, hind⟩ := Option.isSome_iff_exists.mp hsome
  rw [← hblocks] at hge hmax
  have hmid := h.setEntry hind hge hmax hroom
  have hrun := appendEntry_missing h hge hmax hind
  have hblock := h.ref_setEntry hge hmax hind
  rw [hsh] at hmid hrun hblock
  refine ⟨_, _, hrun, ?_, rfl, hmid, ?_⟩
  · exact (Frame.bump im).trans (Frame.put (h.block_lt hind).1 _)
  · rw [h.toNat_freeblock]
    exact hblock

theorem Mid.direct_eq_zero (hblocks : (sh i).blocks = n) (hlt : n < ndirect) :
    din.addrs (⟨n, hlt⟩ : Fin ndirect).castSucc = 0 := by
  have hmax : n < maxFile := by
    simp only [ndirect, maxFile] at *
    omega
  have hnone : din.ref im.disk (spotOf n) = none := by
    rw [← Option.not_isSome_iff_eq_none, h.filled.block_iff _ hmax]
    omega
  rwa [spotOf_of_lt hlt, Dinode.ref_direct h.type, pointer_eq_none] at hnone

theorem Mid.indirect_eq_zero_iff : din.addrs indirectAddr = 0 ↔ (sh i).indirect = false := by
  rw [← pointer_eq_none, ← Dinode.ref_indirect h.type, ← Option.not_isSome_iff_eq_none,
    h.filled.indirect_iff, Bool.not_eq_true]

theorem Mid.takeIndirect (hzero : din.addrs indirectAddr = 0) (hroom : im.freeblock < fssize) :
    Mid im.bump i (din.setAddr indirectAddr (BitVec.ofNat 32 im.freeblock))
      (update sh i ⟨(sh i).blocks, true⟩) c :=
  h.allocAddr_of_room hzero hroom fun hf => hf.addIndirect im.freeblock

theorem Mid.takeDirect (hblocks : (sh i).blocks = n) (hlt : n < ndirect)
    (hroom : im.freeblock < fssize) :
    Mid im.bump i (din.setAddr (⟨n, hlt⟩ : Fin ndirect).castSucc (BitVec.ofNat 32 im.freeblock))
      (update sh i ⟨n + 1, (sh i).indirect⟩) c := by
  apply h.allocAddr_of_room (h.direct_eq_zero hblocks hlt) hroom
  intro hf
  have hnew := hf.addBlock (by rw [hblocks]; simp only [ndirect, maxFile] at *; omega) im.freeblock
  rw [hblocks, spotOf_of_lt hlt] at hnew
  rwa [spotOfAddr_castSucc]

/-- The next block of a file is taken if there is room. -/
theorem appendBlock_of_room (hsh : sh i = ⟨n, decide (ndirect < n)⟩) (hmax : n < maxFile)
    (hroom : im.freeblock + nextCost n ≤ fssize) :
    ∃ din' x im', appendBlock din n im = .ok ((din', x), im') ∧ Frame im im' ∧
      im'.freeblock = im.freeblock + nextCost n ∧
      Mid im' i din' (update sh i ⟨n + 1, decide (ndirect < n + 1)⟩) c ∧
      din'.type = din.type ∧ din'.ref im'.disk (spotOf n) = some x.toNat := by
  have hblocks : (sh i).blocks = n := by rw [hsh]
  unfold appendBlock
  by_cases hlt : n < ndirect
  · have hcost : nextCost n = 1 := if_neg (by omega)
    have hmid := h.takeDirect hblocks hlt (by omega)
    have hind : (sh i).indirect = decide (ndirect < n + 1) := by
      rw [hsh]
      simp only [decide_eq_decide]
      omega
    rw [hind] at hmid
    rw [dif_pos hlt, bind_of_ok (allocAddr_of_eq (h.direct_eq_zero hblocks hlt))]
    refine ⟨_, _, _, rfl, Frame.bump im, by rw [hcost]; rfl, hmid, rfl, ?_⟩
    rw [spotOf_of_lt hlt, Dinode.ref_direct hmid.type, Dinode.setAddr_addrs,
      update_self, h.pointer_freeblock, h.toNat_freeblock]
  · have hge : ndirect ≤ n := by omega
    rw [dif_neg hlt]
    by_cases hfirst : n = ndirect
    · -- the indirect block is missing as well
      have hcost : nextCost n = 2 := if_pos hfirst
      have hzero : din.addrs indirectAddr = 0 := by
        rw [h.indirect_eq_zero_iff, hsh]
        simp [hfirst]
      have hmid := h.takeIndirect hzero (by omega)
      rw [hblocks] at hmid
      obtain ⟨x, im', hrun, hframe, hfree, hmid', hblock⟩ :=
        appendEntry_of_room hmid (update_self ..) hge hmax
          (by rw [Image.bump_freeblock]; omega)
      rw [bind_of_ok (allocAddr_of_eq hzero), bind_of_ok hrun]
      refine ⟨_, x, im', rfl, (Frame.bump im).trans hframe, ?_, ?_, rfl, hblock⟩
      · rw [hfree, Image.bump_freeblock, hcost]
      · rw [update_idem] at hmid'
        rwa [decide_eq_true (by omega)]
    · have hcost : nextCost n = 1 := if_neg hfirst
      have hne : din.addrs indirectAddr ≠ 0 := by
        rw [Ne, h.indirect_eq_zero_iff, hsh]
        simp only [decide_eq_false_iff_not]
        omega
      obtain ⟨x, im', hrun, hframe, hfree, hmid', hblock⟩ :=
        appendEntry_of_room h (by rw [hsh, decide_eq_true (by omega)]) hge hmax (by omega)
      rw [bind_of_ok (allocAddr_of_ne hne), bind_of_ok hrun]
      refine ⟨_, x, im', rfl, hframe, by rw [hfree, hcost], ?_, rfl, hblock⟩
      rwa [decide_eq_true (by omega)]

/-- Without room the program stops, or it takes the block past the end of the image. -/
theorem appendBlock_of_full (hsh : sh i = ⟨n, decide (ndirect < n)⟩) (hmax : n < maxFile)
    (hfull : fssize < im.freeblock + nextCost n) :
    (∃ e, appendBlock din n im = .error e) ∨
      ∃ din' x im', appendBlock din n im = .ok ((din', x), im') ∧ im'.len = fssize ∧
        x.toNat = fssize := by
  have hblocks : (sh i).blocks = n := by rw [hsh]
  have hle := h.laid.le
  unfold appendBlock
  by_cases hlt : n < ndirect
  · have hcost : nextCost n = 1 := if_neg (by omega)
    have hlast : im.freeblock = fssize := by omega
    rw [dif_pos hlt, bind_of_ok (allocAddr_of_eq (h.direct_eq_zero hblocks hlt))]
    refine .inr ⟨_, _, _, rfl, h.len, ?_⟩
    rw [Dinode.setAddr_addrs, update_self, h.toNat_freeblock, hlast]
  · have hge : ndirect ≤ n := by omega
    rw [dif_neg hlt]
    by_cases hfirst : n = ndirect
    · have hcost : nextCost n = 2 := if_pos hfirst
      have hzero : din.addrs indirectAddr = 0 := by
        rw [h.indirect_eq_zero_iff, hsh]
        simp [hfirst]
      rw [bind_of_ok (allocAddr_of_eq hzero)]
      by_cases hroom : im.freeblock < fssize
      · -- the indirect block is the last one
        have hlast : im.freeblock + 1 = fssize := by omega
        have hmid := h.takeIndirect hzero hroom
        have hrun := appendEntry_missing hmid (by rw [update_self, hblocks]; exact hge)
          (by rw [update_self, hblocks]; exact hmax)
          (by rw [Dinode.ref_indirect hmid.type, Dinode.setAddr_addrs, update_self,
            h.pointer_freeblock])
        rw [update_self, hblocks] at hrun
        rw [bind_of_ok hrun]
        refine .inr ⟨_, _, _, rfl, h.len, ?_⟩
        rw [hmid.toNat_freeblock, Image.bump_freeblock, hlast]
      · have hlast : im.freeblock = fssize := by omega
        have hsector : rsect ((din.setAddr indirectAddr
            (BitVec.ofNat 32 im.freeblock)).addrs indirectAddr).toNat im.bump = .error .exit := by
          rw [Dinode.setAddr_addrs, update_self, h.toNat_freeblock, hlast]
          exact rsect_of_ge h.len le_rfl (by decide)
        have hrun : ∀ k, appendEntry (din.setAddr indirectAddr (BitVec.ofNat 32 im.freeblock)) k
            im.bump = .error .exit := fun k => bind_of_error hsector
        exact .inl ⟨_, bind_of_error (hrun _)⟩
    · have hcost : nextCost n = 1 := if_neg hfirst
      have hlast : im.freeblock = fssize := by omega
      have hne : din.addrs indirectAddr ≠ 0 := by
        rw [Ne, h.indirect_eq_zero_iff, hsh]
        simp only [decide_eq_false_iff_not]
        omega
      have hsome : (din.ref im.disk .indirect).isSome := by
        rw [Dinode.ref_indirect h.type, Option.isSome_iff_ne_none, Ne, pointer_eq_none]
        exact hne
      obtain ⟨a, hind⟩ := Option.isSome_iff_exists.mp hsome
      have hrun := appendEntry_missing h (by rw [hblocks]; exact hge)
        (by rw [hblocks]; exact hmax) hind
      rw [hblocks] at hrun
      rw [bind_of_ok (allocAddr_of_ne hne), bind_of_ok hrun]
      refine .inr ⟨_, _, _, rfl, h.len, ?_⟩
      rw [h.toNat_freeblock, hlast]

end Taking

/-! ## Rounds -/

/-- The shapes of files with the given contents. -/
def shapes (c : Nat → List (BitVec 8)) (i : Nat) : Shape := shapeOf (c i).length

theorem shapes_update (c : Nat → List (BitVec 8)) (i : Nat) (l : List (BitVec 8)) :
    shapes (update c i l) = update (shapes c) i (shapeOf l.length) := by
  funext j
  unfold shapes
  by_cases hji : j = i
  · rw [hji, update_self, update_self]
  · rw [update_of_ne hji, update_of_ne hji]

section Rounds

variable {im : Image} {i : Nat} {din : Dinode} {sh : Nat → Shape} {c : Nat → List (BitVec 8)}
  {p : List (BitVec 8)}

/-- Bytes a round takes. -/
def roundSize (off : Nat) (p : List (BitVec 8)) : Nat :=
  min p.length ((off / bsize + 1) * bsize - off)

theorem roundSize_pos (off : Nat) (hp : p ≠ []) : 0 < roundSize off p := by
  have hlen := List.length_pos_of_ne_nil hp
  unfold roundSize
  simp only [bsize]
  omega

theorem roundSize_le (off : Nat) (p : List (BitVec 8)) :
    roundSize off p ≤ (off / bsize + 1) * bsize - off :=
  Nat.min_le_right ..

theorem assert_of_true {q : Prop} [Decidable q] (hq : q) (im : Image) :
    assert q im = .ok ((), im) := by
  unfold assert
  rw [if_pos hq]
  rfl

theorem assert_of_false {q : Prop} [Decidable q] (hq : ¬q) (im : Image) :
    assert q im = .error .abort := by
  unfold assert
  rw [if_neg hq]
  rfl

/-- The bytes of a round are written to the last block of the file. -/
theorem Mid.write (h : Mid im i din (update (shapes c) i (shapeOf ((c i).length + p.length))) c)
    {b : Nat} (hb : din.ref im.disk (spotOf ((c i).length / bsize)) = some b)
    (hmax : (c i).length / bsize < maxFile) (hfit : (c i).length % bsize + p.length ≤ bsize) :
    Mid (im.put b (Memory.blit (im.disk b) ((c i).length % bsize) p)) i din
      (shapes (update c i (c i ++ p))) (update c i (c i ++ p)) where
  __ := h
  laid := by
    have hge := (h.block_lt hb).1
    rw [← refs_eq im i] at hb
    rw [(Frame.put hge _).dinode, shapes_update, List.length_append]
    exact h.laid.write hb hmax hfit

variable {n off : Nat}

theorem appendRound_of_block {im' : Image} {din' : Dinode} {x : BitVec 32}
    (hmax : off / bsize < maxFile) (hrun : appendBlock din (off / bsize) im = .ok ((din', x), im'))
    (hlen : im'.len = fssize) (hx : x.toNat < fssize) (hn : roundSize off p = n) :
    appendRound din off p im =
      .ok ((din', n), im'.put x.toNat (Memory.blit (im'.disk x.toNat) (off % bsize) (p.take n))) := by
  have hoff : off - off / bsize * bsize = off % bsize := by
    simp only [bsize]
    omega
  unfold appendRound
  rw [bind_of_ok (assert_of_true hmax im), bind_of_ok hrun]
  show (rsect x.toNat >>= _) im' = _
  rw [bind_of_ok (rsect_of_lt hlen hx), bind_of_ok (wsect_of_lt hlen hx _), hoff]
  rw [← hn]
  rfl

theorem appendRound_of_error {e : Failure} (hmax : off / bsize < maxFile)
    (hrun : appendBlock din (off / bsize) im = .error e) : appendRound din off p im = .error e := by
  unfold appendRound
  rw [bind_of_ok (assert_of_true hmax im)]
  exact bind_of_error hrun

/-- The block past the end of the image cannot be read. -/
theorem appendRound_of_full {im' : Image} {din' : Dinode} {x : BitVec 32}
    (hmax : off / bsize < maxFile) (hrun : appendBlock din (off / bsize) im = .ok ((din', x), im'))
    (hlen : im'.len = fssize) (hx : x.toNat = fssize) :
    appendRound din off p im = .error .exit := by
  unfold appendRound
  rw [bind_of_ok (assert_of_true hmax im), bind_of_ok hrun]
  apply bind_of_error
  exact rsect_of_ge hlen hx.ge (by rw [hx]; decide)

/-- What a round costs if the file ends with a block. -/
theorem blockUse_add_round (hmod : off % bsize = 0)
    (hblocks : blocksOf (off + n) = off / bsize + 1) :
    blockUse (off + n) = blockUse off + nextCost (off / bsize) := by
  unfold blockUse nextCost
  rw [hblocks, blocksOf_of_mod_eq hmod]
  split_ifs <;> omega

/-- A round appends its bytes, or the program stops for want of room. -/
theorem appendRound_outcome (h : Mid im i din (shapes c) c) (hp : p ≠ [])
    (hn : roundSize (c i).length p = n) :
    (∃ din' im', appendRound din (c i).length p im = .ok ((din', n), im') ∧ Frame im im' ∧
        Mid im' i din' (shapes (update c i (c i ++ p.take n)))
          (update c i (c i ++ p.take n)) ∧
        din'.type = din.type ∧
        im'.freeblock + blockUse (c i).length = im.freeblock + blockUse ((c i).length + n)) ∨
      ∃ e, appendRound din (c i).length p im = .error e ∧ (maxFile * bsize < (c i).length + n ∨
          fssize + blockUse (c i).length < im.freeblock + blockUse ((c i).length + n)) := by
  have hpos : 0 < n := hn ▸ roundSize_pos _ hp
  have hle : n ≤ ((c i).length / bsize + 1) * bsize - (c i).length := hn ▸ roundSize_le _ _
  have hplen : n ≤ p.length := hn ▸ Nat.min_le_left ..
  have htake : (p.take n).length = n := List.length_take_of_le hplen
  have hblocks := blocksOf_add hpos hle
  have hfit : (c i).length % bsize + (p.take n).length ≤ bsize := by
    rw [htake]
    simp only [bsize] at *
    omega
  by_cases hmax : (c i).length / bsize < maxFile
  swap
  · -- the file would be too long
    refine .inr ⟨.abort, ?_, .inl ?_⟩
    · unfold appendRound
      exact bind_of_error (assert_of_false hmax im)
    · simp only [bsize, maxFile] at *
      omega
  have hfinish : ∀ {din' im' x}, appendBlock din ((c i).length / bsize) im = .ok ((din', x), im') →
      Frame im im' → Mid im' i din' (update (shapes c) i (shapeOf ((c i).length + n))) c →
      din'.type = din.type → din'.ref im'.disk (spotOf ((c i).length / bsize)) = some x.toNat →
      im'.freeblock + blockUse (c i).length = im.freeblock + blockUse ((c i).length + n) →
      ∃ din' im', appendRound din (c i).length p im = .ok ((din', n), im') ∧ Frame im im' ∧
        Mid im' i din' (shapes (update c i (c i ++ p.take n)))
          (update c i (c i ++ p.take n)) ∧
        din'.type = din.type ∧
        im'.freeblock + blockUse (c i).length = im.freeblock + blockUse ((c i).length + n) := by
    intro din' im' x hrun hframe hmid htype hblock hfree
    have hdata := hmid.block_lt hblock
    rw [← htake] at hmid
    exact ⟨_, _, appendRound_of_block hmax hrun hmid.len hdata.2 hn,
      hframe.trans (Frame.put hdata.1 _), hmid.write hblock hmax hfit, htype, hfree⟩
  have hshape : shapeOf ((c i).length + n) =
      ⟨(c i).length / bsize + 1, decide (ndirect < (c i).length / bsize + 1)⟩ := by
    rw [shapeOf, hblocks]
  by_cases hmod : (c i).length % bsize = 0
  · -- the file ends with a block
    have hsh : shapes c i = ⟨(c i).length / bsize, decide (ndirect < (c i).length / bsize)⟩ := by
      rw [shapes, shapeOf, blocksOf_of_mod_eq hmod]
    have hcost := blockUse_add_round hmod hblocks
    by_cases hroom : im.freeblock + nextCost ((c i).length / bsize) ≤ fssize
    · obtain ⟨din', x, im', hrun, hframe, hfree, hmid, htype, hblock⟩ :=
        appendBlock_of_room h hsh hmax hroom
      rw [← hshape] at hmid
      exact .inl (hfinish hrun hframe hmid htype hblock (by omega))
    · refine .inr ?_
      have hstop : ∃ e, appendRound din (c i).length p im = .error e := by
        rcases appendBlock_of_full h hsh hmax (by omega) with ⟨e, he⟩ | ⟨din', x, im', hrun, hlen, hx⟩
        · exact ⟨e, appendRound_of_error hmax he⟩
        · exact ⟨.exit, appendRound_of_full hmax hrun hlen hx⟩
      obtain ⟨e, he⟩ := hstop
      exact ⟨e, he, .inr (by omega)⟩
  · -- the last block has room
    have hsame : shapeOf ((c i).length + n) = shapes c i := by
      rw [hshape, shapes, shapeOf, blocksOf_of_mod_ne hmod]
    have hsome : (din.ref im.disk (spotOf ((c i).length / bsize))).isSome := by
      rw [h.filled.block_iff _ hmax, shapes, shapeOf, blocksOf_of_mod_ne hmod]
      exact Nat.lt_succ_self _
    obtain ⟨b, hb⟩ := Option.isSome_iff_exists.mp hsome
    obtain ⟨x, hrun, hx⟩ := appendBlock_existing h hmax hb
    refine .inl (hfinish hrun (Frame.refl im) ?_ rfl (by rw [hb, hx]) ?_)
    · rw [hsame, update_eq_self]
      exact h
    · rw [blockUse, blockUse, hblocks, blocksOf_of_mod_ne hmod]

/-- The bytes do not fit: the file would be too long, or the image has too few blocks left. -/
def NoRoom (im : Image) (len n : Nat) : Prop :=
  maxFile * bsize < len + n ∨ fssize + blockUse len < im.freeblock + blockUse (len + n)

/-- The loop appends all bytes, or the program stops for want of room. -/
theorem appendLoop_outcome {fuel : Nat} (hfuel : p.length ≤ fuel) (h : Mid im i din (shapes c) c) :
    (∃ din' im', appendLoop fuel din (c i).length p im =
          .ok ((din', (c i).length + p.length), im') ∧ Frame im im' ∧
        Mid im' i din' (shapes (update c i (c i ++ p))) (update c i (c i ++ p)) ∧
        din'.type = din.type ∧ im'.freeblock + blockUse (c i).length =
          im.freeblock + blockUse ((c i).length + p.length)) ∨
      ∃ e, appendLoop fuel din (c i).length p im = .error e ∧ NoRoom im (c i).length p.length := by
  induction fuel generalizing im din c p with
  | zero =>
    have hp : p = [] := List.eq_nil_of_length_eq_zero (by omega)
    subst hp
    refine .inl ⟨din, im, rfl, Frame.refl im, ?_, rfl, rfl⟩
    rw [List.append_nil, update_eq_self]
    exact h
  | succ fuel ih =>
    by_cases hp : p = []
    · subst hp
      refine .inl ⟨din, im, rfl, Frame.refl im, ?_, rfl, rfl⟩
      rw [List.append_nil, update_eq_self]
      exact h
    · have hstep : appendLoop (fuel + 1) din (c i).length p im =
          (appendRound din (c i).length p >>= fun r =>
            appendLoop fuel r.1 ((c i).length + r.2) (p.drop r.2)) im := by
        rw [appendLoop, if_neg hp]
      rw [hstep]
      obtain ⟨n, hn⟩ : ∃ n, roundSize (c i).length p = n := ⟨_, rfl⟩
      have hpos : 0 < n := hn ▸ roundSize_pos _ hp
      have hplen : n ≤ p.length := hn ▸ Nat.min_le_left ..
      have hmono : blockUse ((c i).length + n) ≤ blockUse ((c i).length + p.length) :=
        blockUse_mono (by omega)
      rcases appendRound_outcome h hp hn with ⟨din', im', hrun, hframe, hmid, htype, hfree⟩ |
        ⟨e, hrun, hroom⟩
      · have hself : update c i (c i ++ p.take n) i = c i ++ p.take n := update_self ..
        have hlen : (c i ++ p.take n).length = (c i).length + n := by
          rw [List.length_append, List.length_take_of_le hplen]
        have hall : c i ++ p.take n ++ p.drop n = c i ++ p := by
          rw [List.append_assoc, List.take_append_drop]
        have hdrop : (p.drop n).length = p.length - n := List.length_drop ..
        have hsum : (c i).length + n + (p.length - n) = (c i).length + p.length := by omega
        have hrest := ih (p := p.drop n) (by omega) hmid
        rw [bind_of_ok hrun]
        rw [hself, hlen, hall, update_idem, hdrop, hsum] at hrest
        rcases hrest with ⟨din'', im'', hrun', hframe', hmid', htype', hfree'⟩ | ⟨e, hrun', hroom⟩
        · exact .inl ⟨din'', im'', hrun', hframe.trans hframe', hmid', htype'.trans htype, by omega⟩
        · refine .inr ⟨e, hrun', ?_⟩
          unfold NoRoom at hroom ⊢
          rw [hsum] at hroom
          omega
      · rw [bind_of_error hrun]
        refine .inr ⟨e, rfl, ?_⟩
        unfold NoRoom
        omega

end Rounds

/-! ## Between two calls -/

/-- An image between two calls: the inodes in use are those below `freeinode`, each with
its contents. -/
structure Rest (im : Image) (c : Nat → List (BitVec 8)) : Prop where
  len : im.len = fssize
  inodes : im.freeinode ≤ nInodes
  used_iff : ∀ i, (im.disk.dinode sb i).type ≠ 0 ↔ 1 ≤ i ∧ i < im.freeinode
  laid : Laid (im.disk.dinode sb) im.disk im.freeblock (shapes c) c
  size : ∀ i, 1 ≤ i → i < im.freeinode → (im.disk.dinode sb i).size.toNat = (c i).length
  super : im.disk 1 = sb.encode

namespace Rest

variable {im : Image} {i : Nat} {c : Nat → List (BitVec 8)}

theorem lt (h : Rest im c) (hi : i < im.freeinode) : i < nInodes := hi.trans_le h.inodes

theorem length_le (h : Rest im c) (hpos : 1 ≤ i) (hi : i < im.freeinode) :
    (c i).length ≤ maxFile * bsize := by
  have hfilled := h.laid.filled i ((h.used_iff i).mpr ⟨hpos, hi⟩)
  exact hfilled.length_le.trans (Nat.mul_le_mul_right _ hfilled.blocks_le)

theorem mid (h : Rest im c) (hpos : 1 ≤ i) (hi : i < im.freeinode) :
    Mid im i (im.disk.dinode sb i) (shapes c) c where
  len := h.len
  type := (h.used_iff i).mpr ⟨hpos, hi⟩
  laid := by
    rw [update_eq_self]
    exact h.laid

end Rest

section Inodes

variable {im im' : Image} {i : Nat} {ip : Dinode}

theorem putInode_dinode (hi : i < nInodes) (im : Image) (ip : Dinode) :
    (im.putInode i ip).disk.dinode sb = update (im.disk.dinode sb) i ip :=
  Disk.dinode_putDinode hi im.disk ip

theorem putInode_data (hi : i < nInodes) {b : Nat} (hb : nmeta ≤ b) :
    (im.putInode i ip).disk b = im.disk b := by
  have hlt := iblock_lt hi
  exact Disk.putDinode_of_ne (by omega)

theorem putInode_super (im : Image) (i : Nat) (ip : Dinode) :
    (im.putInode i ip).disk 1 = im.disk 1 := by
  have hlt := one_lt_iblock i
  show im.disk.putDinode sb i ip 1 = im.disk 1
  rw [Disk.putDinode_of_ne (by omega)]

end Inodes

/-- The inode is written back at the end of `iappend`. -/
theorem Mid.close {im im' : Image} {i : Nat} {c : Nat → List (BitVec 8)} {din : Dinode}
    {p : List (BitVec 8)}
    (hmid : Mid im' i din (shapes (update c i (c i ++ p))) (update c i (c i ++ p)))
    (h : Rest im c) (hframe : Frame im im') (hi : i < im.freeinode)
    (htype : din.type = (im.disk.dinode sb i).type)
    (hbound : (c i).length + p.length ≤ maxFile * bsize) :
    Rest (im'.putInode i { din with size := BitVec.ofNat 32 ((c i).length + p.length) })
      (update c i (c i ++ p)) where
  len := hframe.len.trans h.len
  inodes := hframe.freeinode.trans_le h.inodes
  used_iff j := by
    rw [putInode_dinode (h.lt hi), hframe.dinode]
    show _ ↔ 1 ≤ j ∧ j < im'.freeinode
    rw [hframe.freeinode, ← h.used_iff j]
    by_cases hji : j = i
    · rw [hji, update_self, htype]
    · rw [update_of_ne hji]
  laid := by
    rw [putInode_dinode (h.lt hi)]
    have hlaid := hmid.laid.setInode (i := i)
      { din with size := BitVec.ofNat 32 ((c i).length + p.length) }
      (by rw [update_self]) (by rw [update_self])
    rw [update_idem] at hlaid
    exact hlaid.of_agree fun b hb => putInode_data (h.lt hi) hb
  size j hj hjlt := by
    have hjlt' : j < im.freeinode := by
      rw [← hframe.freeinode]
      exact hjlt
    rw [putInode_dinode (h.lt hi), hframe.dinode]
    by_cases hji : j = i
    · rw [hji, update_self, update_self, List.length_append, BitVec.toNat_ofNat, Nat.mod_eq_of_lt]
      simp only [maxFile, bsize] at hbound
      omega
    · rw [update_of_ne hji, update_of_ne hji]
      exact h.size j hj hjlt'
  super := by
    rw [putInode_super, hframe.blocks 1 (by decide)]
    exact h.super

/-- Appending to an inode appends the bytes, or the program stops for want of room. -/
theorem iappend_outcome {im : Image} {i : Nat} {c : Nat → List (BitVec 8)} (h : Rest im c)
    (hpos : 1 ≤ i) (hi : i < im.freeinode) (p : List (BitVec 8)) :
    (∃ im', iappend i p im = .ok ((), im') ∧ Rest im' (update c i (c i ++ p)) ∧
        im'.freeinode = im.freeinode ∧
        (∀ j, (im'.disk.dinode sb j).type = (im.disk.dinode sb j).type) ∧
        im'.freeblock + blockUse (c i).length = im.freeblock + blockUse ((c i).length + p.length)) ∨
      ∃ e, iappend i p im = .error e ∧ NoRoom im (c i).length p.length := by
  have hlt := h.lt hi
  have hsize := h.size i hpos hi
  unfold iappend
  rw [bind_of_ok (rinode_of_lt h.len hlt), hsize]
  rcases appendLoop_outcome (p := p) le_rfl (h.mid hpos hi) with
    ⟨din, im', hrun, hframe, hmid, htype, hfree⟩ | ⟨e, hrun, hroom⟩
  · left
    have hlen : im'.len = fssize := hframe.len.trans h.len
    have hfilled := hmid.filled
    rw [update_self] at hfilled
    have hbound := hfilled.length_le.trans (Nat.mul_le_mul_right _ hfilled.blocks_le)
    rw [List.length_append] at hbound
    rw [bind_of_ok hrun]
    refine ⟨_, winode_of_lt hlen hlt _, ?_, hframe.freeinode, ?_, hfree⟩
    · exact hmid.close h hframe hi htype hbound
    · intro j
      rw [putInode_dinode hlt, hframe.dinode]
      by_cases hji : j = i
      · rw [hji, update_self]
        exact htype
      · rw [update_of_ne hji]
  · right
    rw [bind_of_error hrun]
    exact ⟨e, rfl, hroom⟩

end Mkfs
end Fs
end FastIpc
