import FastIpc.Fs.Inode

/-!
# Reading files and directories

What `readi` and `dirlookup` return where the blocks they touch are allocated: the bytes
of the file, and the first entry with the name.  Nothing is allocated then, so the state stays.

Main results:

- Theorem `bmap_of_ref`: a block that is there is found.
- Theorem `readi_of_covers`: reading returns the bytes of the file.
- Theorem `readDirent_of_holds`: a record of a directory is read.
-/

namespace FastIpc
namespace Fs

open Foundation FaultM Kernel

variable {sb : Superblock} {c : Ctx}

/-! ## Blocks that are there -/

theorem bmapAddr_of_ne {k : Fin (ndirect + 1)} (h : c.ip.addrs k ≠ 0) :
    bmapAddr sb k c = .ok ((c.ip.addrs k).toNat, c) := by
  unfold bmapAddr
  rw [bind_of_ok (get_apply c), if_neg h]
  rfl

variable {des : List Dirent} {k len off : Nat}

theorem bmapEntry_of_ne {a : Nat} (h : (c.store.disk a).word (4 * k) ≠ 0) :
    bmapEntry sb a k c = .ok (((c.store.disk a).word (4 * k)).toNat, c) := by
  unfold bmapEntry
  rw [bind_of_ok (get_apply c), if_neg h]
  rfl

/-- The block of an inode that is there is found. -/
theorem bmap_of_ref {n b : Nat} (hn : n < maxFile)
    (hb : c.ip.ref c.store.disk (spotOf n) = some b) : bmap sb n c = .ok (b, c) := by
  have htype : c.ip.type ≠ 0 := by
    intro hzero
    rw [Dinode.ref_of_free hzero] at hb
    cases hb
  unfold bmap
  by_cases hlt : n < ndirect
  · rw [spotOf_of_lt hlt, Dinode.ref_direct htype, pointer_eq_some] at hb
    rw [dif_pos hlt, bmapAddr_of_ne hb.1, hb.2]
  · have hk : n - ndirect < nindirect := by
      simp only [maxFile, ndirect, nindirect] at *
      omega
    rw [spotOf_of_ge (by omega), Dinode.ref_entry htype, Option.bind_eq_some_iff] at hb
    obtain ⟨a, hind, hword⟩ := hb
    rw [Dinode.ref_indirect htype, pointer_eq_some] at hind
    rw [Fin.val_ofNat, Nat.mod_eq_of_lt hk, pointer_eq_some] at hword
    rw [dif_neg hlt, if_pos hk, bind_of_ok (bmapAddr_of_ne hind.1), hind.2,
      bmapEntry_of_ne hword.1, hword.2]

/-! ## Bytes -/

/-- Bytes of a file. -/
def fileBytes (ip : Dinode) (d : Disk) (off m : Nat) : List (BitVec 8) :=
  (List.range m).map fun k => byteAt (ip.ref d) d (off + k)

@[simp]
theorem length_fileBytes (ip : Dinode) (d : Disk) (off m : Nat) :
    (fileBytes ip d off m).length = m := by
  simp [fileBytes]

theorem fileBytes_add (ip : Dinode) (d : Disk) (off m k : Nat) :
    fileBytes ip d off (m + k) = fileBytes ip d off m ++ fileBytes ip d (off + m) k := by
  unfold fileBytes
  rw [List.range_add, List.map_append, List.map_map]
  congr 1
  apply List.map_congr_left
  intro j _
  rw [Function.comp_apply, Nat.add_assoc]

theorem bytesAt_eq_fileBytes {ip : Dinode} {d : Disk} {m b : Nat}
    (hb : ip.ref d (spotOf (off / bsize)) = some b) (hm : m ≤ bsize - off % bsize) :
    bytesAt (d b) (off % bsize) m = fileBytes ip d off m := by
  apply List.map_congr_left
  intro k hk
  rw [List.mem_range] at hk
  have hindex : (off + k) / bsize = off / bsize := by
    simp only [bsize] at *
    omega
  have hoffset : (off + k) % bsize = off % bsize + k := by
    simp only [bsize] at *
    omega
  rw [← hindex] at hb
  rw [byteAt_of_ref hb, hoffset]

/-- The blocks of the first `len` bytes of a file are allocated. -/
structure Covers (ip : Dinode) (d : Disk) (len : Nat) : Prop where
  le : len ≤ maxFile * bsize
  block : ∀ n < blocksOf len, (ip.ref d (spotOf n)).isSome

theorem Covers.exists_block {ip : Dinode} {d : Disk} (h : Covers ip d len) (hoff : off < len) :
    off / bsize < maxFile ∧ ∃ b, ip.ref d (spotOf (off / bsize)) = some b := by
  have hle := h.le
  constructor
  · simp only [maxFile, bsize] at *
    omega
  · apply Option.isSome_iff_exists.mp
    apply h.block
    unfold blocksOf
    simp only [bsize]
    omega

/-! ## Reading -/

theorem readLoop_of_covers {room n fuel tot : Nat} {out : List (BitVec 8)}
    (h : Covers c.ip c.store.disk len) (hroom : n ≤ room) (htot : tot ≤ n) (hfuel : n ≤ tot + fuel)
    (hlen : off + (n - tot) ≤ len) :
    readLoop sb room n fuel tot off out c =
      .ok ((n, out ++ fileBytes c.ip c.store.disk off (n - tot)), c) := by
  induction fuel generalizing tot off out with
  | zero =>
    have heq : tot = n := by omega
    subst heq
    rw [Nat.sub_self]
    simp [readLoop, fileBytes]
  | succ fuel ih =>
    by_cases hlt : tot < n
    · obtain ⟨hmax, b, hb⟩ := h.exists_block (show off < len by omega)
      obtain ⟨m, hm⟩ : ∃ m, m = min (n - tot) (bsize - off % bsize) := ⟨_, rfl⟩
      have hpos : 0 < m := by
        have hmod := Nat.mod_lt off (show 0 < bsize by decide)
        omega
      have hsum : n - tot = m + (n - (tot + m)) := by omega
      rw [readLoop, if_pos hlt, bind_of_ok (bmap_of_ref hmax hb), bind_of_ok (get_apply c)]
      show (if tot + min (n - tot) (bsize - off % bsize) ≤ room then _ else _ : InodeM _) c = _
      rw [← hm, if_pos (by omega), ih (by omega) (by omega) (by omega), hsum, fileBytes_add,
        ← List.append_assoc, bytesAt_eq_fileBytes hb (by omega)]
    · have heq : tot = n := by omega
      subst heq
      rw [readLoop, if_neg hlt, Nat.sub_self]
      simp [fileBytes]

/-- Reading bytes whose blocks are allocated. -/
theorem readi_of_covers {room : Nat} {off n : BitVec 32} (h : Covers c.ip c.store.disk len)
    (hsize : len ≤ c.ip.size.toNat) (hroom : n.toNat ≤ room) (hlen : off.toNat + n.toNat ≤ len) :
    readi sb room off n c = .ok ((n.toNat, fileBytes c.ip c.store.disk off.toNat n.toNat), c) := by
  have hbound := c.ip.size.isLt
  have hadd : (off + n).toNat = off.toNat + n.toNat := by
    rw [BitVec.toNat_add, Nat.mod_eq_of_lt (by omega)]
  have hguard : ¬(off > c.ip.size ∨ off + n < off) := by
    rw [gt_iff_lt, BitVec.lt_def, BitVec.lt_def, hadd]
    omega
  have hclip : ¬(off + n > c.ip.size) := by
    rw [gt_iff_lt, BitVec.lt_def, hadd]
    omega
  unfold readi
  rw [bind_of_ok (get_apply c), if_neg hguard, if_neg hclip,
    readLoop_of_covers h hroom (Nat.zero_le _) (by omega) (by omega), Nat.sub_zero, List.nil_append]

/-! ## Directories -/

/-- A directory that starts with the given entries. -/
structure HoldsDirents (ip : Dinode) (d : Disk) (des : List Dirent) : Prop where
  covers : Covers ip d (16 * des.length)
  le : 16 * des.length ≤ ip.size.toNat
  bytes : ∀ k (hk : k < des.length), fileBytes ip d (16 * k) 16 = (des.get ⟨k, hk⟩).bytes

theorem readDirent_of_holds (h : HoldsDirents c.ip c.store.disk des) (hk : k < des.length)
    (message : String) :
    readDirent sb (BitVec.ofNat 32 (16 * k)) message c = .ok (des.get ⟨k, hk⟩, c) := by
  have hle := h.le
  have hbound := c.ip.size.isLt
  have hoff : (BitVec.ofNat 32 (16 * k)).toNat = 16 * k := by
    rw [BitVec.toNat_ofNat, Nat.mod_eq_of_lt (by omega)]
  have hread : readi sb 16 (BitVec.ofNat 32 (16 * k)) 16 c =
      .ok ((16, fileBytes c.ip c.store.disk (16 * k) 16), c) := by
    rw [readi_of_covers h.covers hle (by decide) (by rw [hoff]; show 16 * k + 16 ≤ _; omega), hoff]
    rfl
  unfold readDirent
  rw [bind_of_ok hread]
  show (if (16 : Int) = 16 then pure (Dirent.ofBytes (fileBytes c.ip c.store.disk (16 * k) 16))
    else throw message : InodeM Dirent) c = _
  rw [if_pos rfl, h.bytes k hk, Dirent.ofBytes_bytes]
  rfl

/-- An entry with a name. -/
def Dirent.Matches (de : Dirent) (name : CString) : Prop :=
  de.inum ≠ 0 ∧ strncmp name.byte de.nameByte dirsiz = 0

end Fs
end FastIpc
