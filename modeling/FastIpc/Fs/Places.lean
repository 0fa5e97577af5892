import FastIpc.Foundation.Exclusive
import FastIpc.Fs.Format
import Mathlib.Data.Fin.Basic

/-!
# Where block numbers stand

A file system refers to a block from an inode (twelve direct addresses and the address of an
indirect block) or from an entry of an indirect block.  This module names these places, says
which block each one refers to, and how a change of an inode or of a block changes that.  The
inodes are given as a function of the inode number, so that an inode whose copy in memory is ahead
of the one on disk can stand for it.

Main results:

- Theorems `refs_setAddr` and `refs_setEntry`: storing an address changes one place.
- Theorem `refs_of_agree`: only the indirect blocks matter on disk.
- Theorem `Disk.dinode_putDinode`: storing an inode changes no other.
-/

namespace FastIpc
namespace Fs

open Foundation
open Function (update update_of_ne update_self)

/-! ## Inodes of a disk -/

namespace Disk

/-- The inode with a given number. -/
def dinode (sb : Superblock) (d : Disk) (i : Nat) : Dinode :=
  if i < sb.ninodes then (d (sb.iblock i)).dinode (i % ipb) else .zero

/-- Store the inode with a given number. -/
def putDinode (sb : Superblock) (d : Disk) (i : Nat) (ip : Dinode) : Disk :=
  update d (sb.iblock i) ((d (sb.iblock i)).putDinode (i % ipb) ip)

variable {sb : Superblock} {d d' : Disk} {i : Nat} {ip : Dinode}

theorem dinode_of_lt (h : i < sb.ninodes) : dinode sb d i = (d (sb.iblock i)).dinode (i % ipb) :=
  if_pos h

/-- Storing an inode changes no other. -/
theorem dinode_putDinode (h : i < sb.ninodes) (d : Disk) (ip : Dinode) :
    dinode sb (putDinode sb d i ip) = update (dinode sb d) i ip := by
  funext j
  by_cases hji : j = i
  · rw [hji, update_self, dinode_of_lt h, putDinode, update_self, Block.dinode_putDinode]
  · rw [update_of_ne hji]
    unfold dinode putDinode
    by_cases hblock : sb.iblock j = sb.iblock i
    · have hslot : j % ipb ≠ i % ipb := by
        simp only [Superblock.iblock, ipb] at *
        omega
      rw [hblock, update_self, Block.dinode_putDinode_of_ne hslot]
    · rw [update_of_ne hblock]

theorem dinode_of_agree (h : ∀ i < sb.ninodes, d' (sb.iblock i) = d (sb.iblock i)) :
    dinode sb d' = dinode sb d := by
  funext i
  unfold dinode
  split
  next hi => rw [h i hi]
  next => rfl

theorem putDinode_of_ne (h : b ≠ sb.iblock i) : putDinode sb d i ip b = d b := update_of_ne h ..

end Disk

/-! ## Places -/

/-- Where an inode can refer to a block from. -/
inductive Spot where
  | direct (k : Fin ndirect)
  | indirect
  | entry (k : Fin nindirect)
  deriving DecidableEq

/-- A block address; zero is none. -/
def pointer (w : BitVec 32) : Option Nat := if w = 0 then none else some w.toNat

@[simp]
theorem pointer_zero : pointer 0 = none := rfl

theorem pointer_eq_none {w : BitVec 32} : pointer w = none ↔ w = 0 := by
  unfold pointer
  split
  next h => simp [h]
  next h => simpa using h

variable {b n : Nat}

theorem pointer_eq_some {w : BitVec 32} : pointer w = some b ↔ w ≠ 0 ∧ w.toNat = b := by
  unfold pointer
  split
  next h => simp [h]
  next h => simpa using fun _ => h

theorem pointer_ofNat (hpos : b ≠ 0) (hlt : b < 2 ^ 32) : pointer (BitVec.ofNat 32 b) = some b := by
  rw [pointer_eq_some]
  have htoNat : (BitVec.ofNat 32 b).toNat = b := by rw [BitVec.toNat_ofNat, Nat.mod_eq_of_lt hlt]
  refine ⟨?_, htoNat⟩
  intro hzero
  rw [hzero] at htoNat
  exact hpos htoNat.symm

/-- The address of the indirect block. -/
abbrev indirectAddr : Fin (ndirect + 1) := Fin.last ndirect

/-- The block a place of an inode refers to; a free inode refers to none. -/
def Dinode.ref (ip : Dinode) (d : Disk) (s : Spot) : Option Nat :=
  if ip.type = 0 then none
  else
    match s with
    | .direct k => pointer (ip.addrs k.castSucc)
    | .indirect => pointer (ip.addrs indirectAddr)
    | .entry k => (pointer (ip.addrs indirectAddr)).bind fun a => pointer ((d a).word (4 * k))

/-- The place of the `n`-th block of a file. -/
def spotOf (n : Nat) : Spot :=
  if h : n < ndirect then .direct ⟨n, h⟩ else .entry (Fin.ofNat nindirect (n - ndirect))

theorem spotOf_of_lt (h : n < ndirect) : spotOf n = .direct ⟨n, h⟩ := dif_pos h

theorem spotOf_of_ge (h : ndirect ≤ n) : spotOf n = .entry (Fin.ofNat nindirect (n - ndirect)) :=
  dif_neg (by omega)

theorem spotOf_ne_indirect (n : Nat) : spotOf n ≠ .indirect := by
  unfold spotOf
  split
  next => exact Spot.noConfusion
  next => exact Spot.noConfusion

/-- Different blocks of a file have different places. -/
theorem spotOf_inj {m : Nat} (hm : m < maxFile) (hn : n < maxFile) (h : spotOf m = spotOf n) :
    m = n := by
  unfold spotOf at h
  simp only [maxFile, ndirect] at hm hn h
  split at h
  next hm' =>
      split at h
      next hn' => simpa using h
      next => cases h
  next hm' =>
      split at h
      next => cases h
      next hn' =>
          have hval := congrArg Fin.val (Spot.entry.inj h)
          rw [Fin.val_ofNat, Fin.val_ofNat, Nat.mod_eq_of_lt (show _ < 256 by omega),
            Nat.mod_eq_of_lt (show _ < 256 by omega)] at hval
          omega

namespace Dinode

variable {ip : Dinode} {d d' : Disk} {s : Spot}

theorem ref_of_free (h : ip.type = 0) : ip.ref d s = none := if_pos h

theorem ref_direct (h : ip.type ≠ 0) (k : Fin ndirect) :
    ip.ref d (.direct k) = pointer (ip.addrs k.castSucc) :=
  if_neg h

theorem ref_indirect (h : ip.type ≠ 0) : ip.ref d .indirect = pointer (ip.addrs indirectAddr) :=
  if_neg h

theorem ref_entry (h : ip.type ≠ 0) (k : Fin nindirect) :
    ip.ref d (.entry k) = (ip.ref d .indirect).bind fun a => pointer ((d a).word (4 * k)) := by
  rw [ref_indirect h]
  exact if_neg h

theorem ref_of_agree
    (h : ∀ a, ip.ref d .indirect = some a → ∀ k < nindirect, (d' a).word (4 * k) = (d a).word (4 * k)) :
    ip.ref d' s = ip.ref d s := by
  by_cases htype : ip.type = 0
  · rw [ref_of_free htype, ref_of_free htype]
  · cases s with
    | direct k => rw [ref_direct htype, ref_direct htype]
    | indirect => rw [ref_indirect htype, ref_indirect htype]
    | entry k =>
      rw [ref_entry htype, ref_entry htype]
      have hind : ip.ref d' .indirect = ip.ref d .indirect := by
        rw [ref_indirect htype, ref_indirect htype]
      rw [hind]
      cases haddr : ip.ref d .indirect with
      | none => rfl
      | some a => rw [Option.bind_some, Option.bind_some, h a haddr k k.isLt]

/-- The size, the link count and the device numbers do not matter. -/
theorem ref_eq_of_addrs {ip' : Dinode} (htype : ip'.type = 0 ↔ ip.type = 0)
    (haddrs : ip'.addrs = ip.addrs) : ip'.ref d s = ip.ref d s := by
  unfold ref
  simp only [htype, haddrs]

end Dinode

/-- Which place of the inode an address is. -/
def spotOfAddr (k : Fin (ndirect + 1)) : Spot :=
  if h : k.val < ndirect then .direct ⟨k, h⟩ else .indirect

theorem spotOfAddr_castSucc (k : Fin ndirect) : spotOfAddr k.castSucc = .direct k := dif_pos k.isLt

theorem spotOfAddr_indirectAddr : spotOfAddr indirectAddr = .indirect := rfl

theorem ref_spotOfAddr {ip : Dinode} {d : Disk} (htype : ip.type ≠ 0) (k : Fin (ndirect + 1)) :
    ip.ref d (spotOfAddr k) = pointer (ip.addrs k) := by
  induction k using Fin.lastCases with
  | last => rw [spotOfAddr_indirectAddr, Dinode.ref_indirect htype]
  | cast k => rw [spotOfAddr_castSucc, Dinode.ref_direct htype]

/-! ## References of all inodes -/

/-- The block each place of each inode refers to. -/
def refs (v : Nat → Dinode) (d : Disk) (p : Nat × Spot) : Option Nat := (v p.1).ref d p.2

theorem refs_apply (v : Nat → Dinode) (d : Disk) (i : Nat) (s : Spot) :
    refs v d (i, s) = (v i).ref d s :=
  rfl

section Updates

variable {v : Nat → Dinode} {d d' : Disk} {i a : Nat}

/-- Only the indirect blocks matter on disk. -/
theorem refs_of_agree
    (h : ∀ j a, refs v d (j, .indirect) = some a →
      ∀ k < nindirect, (d' a).word (4 * k) = (d a).word (4 * k)) : refs v d' = refs v d := by
  funext p
  exact Dinode.ref_of_agree fun a ha => h p.1 a ha

theorem refs_update_disk {blk : Block} (h : ∀ j, refs v d (j, .indirect) ≠ some a) :
    refs v (update d a blk) = refs v d := by
  apply refs_of_agree
  intro j b hb k _
  have hne : b ≠ a := by
    intro hba
    exact h j (hba ▸ hb)
  rw [update_of_ne hne]

theorem refs_setDirect (htype : (v i).type ≠ 0) (k : Fin ndirect) (w : BitVec 32) :
    refs (update v i ((v i).setAddr k.castSucc w)) d =
      update (refs v d) (i, .direct k) (pointer w) := by
  funext ⟨j, s⟩
  by_cases hji : j = i
  · subst hji
    have htype' : ((v j).setAddr k.castSucc w).type ≠ 0 := htype
    have hlast : (v j).addrs indirectAddr = ((v j).setAddr k.castSucc w).addrs indirectAddr := by
      rw [Dinode.setAddr_addrs, update_of_ne (Fin.castSucc_lt_last k).ne']
    simp only [refs, update_self]
    cases s with
    | direct k' =>
      rw [Dinode.ref_direct htype', Dinode.setAddr_addrs]
      by_cases hk : k' = k
      · subst hk
        rw [update_self, update_self]
      · rw [update_of_ne (by simpa using hk), update_of_ne (by simpa using hk),
          refs_apply, Dinode.ref_direct htype]
    | indirect =>
      rw [update_of_ne (by simp), refs_apply, Dinode.ref_indirect htype',
        Dinode.ref_indirect htype, hlast]
    | entry k' =>
      rw [update_of_ne (by simp), refs_apply, Dinode.ref_entry htype',
        Dinode.ref_entry htype, Dinode.ref_indirect htype', Dinode.ref_indirect htype, hlast]
  · rw [update_of_ne (by simp [hji])]
    simp only [refs, update_of_ne hji]

/-- The address of an empty indirect block is stored. -/
theorem refs_setIndirect {w : BitVec 32} (htype : (v i).type ≠ 0)
    (hnone : refs v d (i, .indirect) = none)
    (hempty : ∀ k < nindirect, (d w.toNat).word (4 * k) = 0) :
    refs (update v i ((v i).setAddr indirectAddr w)) d =
      update (refs v d) (i, .indirect) (pointer w) := by
  funext ⟨j, s⟩
  by_cases hji : j = i
  · subst hji
    have htype' : ((v j).setAddr indirectAddr w).type ≠ 0 := htype
    have hind : ((v j).setAddr indirectAddr w).ref d .indirect = pointer w := by
      rw [Dinode.ref_indirect htype', Dinode.setAddr_addrs, update_self]
    simp only [refs, update_self] at hnone ⊢
    cases s with
    | direct k =>
      rw [update_of_ne (by simp), refs_apply, Dinode.ref_direct htype',
        Dinode.ref_direct htype, Dinode.setAddr_addrs, update_of_ne (Fin.castSucc_lt_last k).ne]
    | indirect => rw [update_self, hind]
    | entry k =>
      have hentry : (pointer w).bind (fun a => pointer ((d a).word (4 * k))) = none := by
        cases hw : pointer w with
        | none => rfl
        | some a =>
          obtain ⟨-, ha⟩ := pointer_eq_some.mp hw
          rw [Option.bind_some, ← ha, hempty k k.isLt, pointer_zero]
      rw [update_of_ne (by simp), refs_apply, Dinode.ref_entry htype',
        Dinode.ref_entry htype, hind, hnone, hentry, Option.bind_none]
  · rw [update_of_ne (by simp [hji])]
    simp only [refs, update_of_ne hji]

/-- An empty address is stored; an indirect block starts without entries. -/
theorem refs_setAddr {k : Fin (ndirect + 1)} {w : BitVec 32} (htype : (v i).type ≠ 0)
    (hzero : (v i).addrs k = 0)
    (hempty : k = indirectAddr → ∀ j < nindirect, (d w.toNat).word (4 * j) = 0) :
    refs (update v i ((v i).setAddr k w)) d = update (refs v d) (i, spotOfAddr k) (pointer w) := by
  induction k using Fin.lastCases with
  | last =>
    have hnone : refs v d (i, .indirect) = none := by
      rw [refs_apply, Dinode.ref_indirect htype, hzero, pointer_zero]
    rw [refs_setIndirect htype hnone (hempty rfl), spotOfAddr_indirectAddr]
  | cast k => rw [refs_setDirect htype, spotOfAddr_castSucc]

/-- An entry of the indirect block of one inode is stored. -/
theorem refs_setEntry (hind : refs v d (i, .indirect) = some a)
    (honly : ∀ j, refs v d (j, .indirect) = some a → j = i) (k : Fin nindirect) (w : BitVec 32) :
    refs v (update d a ((d a).setWord (4 * k) w)) =
      update (refs v d) (i, .entry k) (pointer w) := by
  have htype : (v i).type ≠ 0 := by
    intro hzero
    rw [refs, Dinode.ref_of_free hzero] at hind
    cases hind
  funext ⟨j, s⟩
  by_cases hji : j = i
  · subst hji
    have hind' : ∀ d', (v j).ref d' .indirect = some a := by
      intro d'
      rw [← hind, refs, Dinode.ref_indirect htype, Dinode.ref_indirect htype]
    simp only [refs]
    cases s with
    | direct k' =>
      rw [update_of_ne (by simp), refs_apply, Dinode.ref_direct htype, Dinode.ref_direct htype]
    | indirect => rw [update_of_ne (by simp), refs_apply, hind', hind']
    | entry k' =>
      rw [Dinode.ref_entry htype, hind', Option.bind_some, update_self]
      by_cases hk : k' = k
      · subst hk
        rw [update_self, Block.word_setWord]
      · have hval : k'.val ≠ k.val := fun h => hk (Fin.ext h)
        rw [update_of_ne (by simpa using hk), Block.word_setWord_of_ne hval,
          refs_apply, Dinode.ref_entry htype, hind', Option.bind_some]
  · rw [update_of_ne (by simp [hji])]
    apply Dinode.ref_of_agree
    intro b hb k' _
    have hne : b ≠ a := by
      intro hba
      exact hji (honly j (hba ▸ hb))
    rw [update_of_ne hne]

/-- An inode with the same addresses takes the place of another. -/
theorem refs_update_same {ip : Dinode} (htype : ip.type = 0 ↔ (v i).type = 0)
    (haddrs : ip.addrs = (v i).addrs) : refs (update v i ip) d = refs v d := by
  funext ⟨j, s⟩
  by_cases hji : j = i
  · subst hji
    simp only [refs, update_self]
    exact Dinode.ref_eq_of_addrs htype haddrs
  · simp only [refs, update_of_ne hji]

theorem refs_update_fresh {ip : Dinode} (hfree : (v i).type = 0) (haddrs : ∀ k, ip.addrs k = 0) :
    refs (update v i ip) d = refs v d := by
  funext ⟨j, s⟩
  by_cases hji : j = i
  · subst hji
    simp only [refs, update_self]
    rw [Dinode.ref_of_free hfree]
    unfold Dinode.ref
    split
    next => rfl
    next =>
        cases s with
        | direct k => simp only [haddrs, pointer_zero]
        | indirect => simp only [haddrs, pointer_zero]
        | entry k => simp only [haddrs, pointer_zero, Option.bind_none]
  · simp only [refs, update_of_ne hji]

end Updates

/-! ## Contents -/

/-- Blocks that a number of bytes takes. -/
def blocksOf (n : Nat) : Nat := (n + (bsize - 1)) / bsize

/-- A byte of a file whose places refer to the given blocks, zero where there is none. -/
def byteAt (r : Spot → Option Nat) (d : Disk) (off : Nat) : BitVec 8 :=
  match r (spotOf (off / bsize)) with
  | some b => d b (off % bsize)
  | none => 0

theorem byteAt_of_ref {r : Spot → Option Nat} {d : Disk} {off : Nat}
    (h : r (spotOf (off / bsize)) = some b) : byteAt r d off = d b (off % bsize) := by
  rw [byteAt, h]

end Fs
end FastIpc
