import FastIpc.Fs.Contents

/-!
# Directories as finite maps

The entries of a directory are 16-byte records of its contents.  `dirlink` adds an entry in
the first free record or at the end, and `sys_unlink` clears the record that
`dirlookup` has found.  Names count up to their first 14 bytes.

Main results:

- Theorem `Directory.dirlookup`: the first live entry with the name is found.
- Theorem `directory_is_map`: a directory is a map from names.
-/

namespace FastIpc
namespace Fs

open Foundation FaultM Kernel

/-! ## Linking and clearing -/

/-- The search of `dirlink` for a record that is not in use. -/
def emptyLoop (sb : Superblock) : Nat → Nat → InodeM Nat
  | 0, off => return off
  | fuel + 1, off => do
    if off < (← get).ip.size.toNat then
      let de ← readDirent sb (BitVec.ofNat 32 off) "dirlink read"
      if de.inum = 0 then
        return off
      else
        emptyLoop sb fuel (off + 16)
    else
      return off

/-- The end of `dirlink`: write an entry into a free record of the directory `i`. -/
def addEntry (sb : Superblock) (i : Nat) (name : CString) (inum : Nat) : InodeM Int := do
  let off ← emptyLoop sb ((← get).ip.size.toNat / 16 + 1) 0
  let de := Dirent.make inum name
  let tot ← writei sb i (.kernel fun k => de.bytes.getD k 0) (BitVec.ofNat 32 off) 16
  if tot ≠ 16 then throw "dirlink" else return 0

/-- Write an entry into the directory `i`; `-1` if the name is present. -/
def dirlink (sb : Superblock) (i : Nat) (name : CString) (inum : Nat) : InodeM Int := do
  match ← dirlookup sb name with
  | some _ => return -1
  | none => addEntry sb i name inum

/-- The part of `sys_unlink` that works on the directory: clear the entry with a name. -/
def clearEntry (sb : Superblock) (i : Nat) (name : CString) : InodeM Int := do
  match ← dirlookup sb name with
  | none => return -1
  | some (_, off) =>
    let tot ← writei sb i (.kernel fun _ => 0) (BitVec.ofNat 32 off) 16
    if tot ≠ 16 then throw "unlink: writei" else return 0

/-! ## Names -/

/-- The bytes that `strncmp` compares: up to `n` bytes, or to the first zero. -/
def cut (p : Nat → BitVec 8) : Nat → List (BitVec 8)
  | 0 => []
  | n + 1 => if p 0 = 0 then [] else p 0 :: cut (fun k => p (k + 1)) n

theorem strncmp_eq_zero_iff_cut (p q : Nat → BitVec 8) (n : Nat) :
    strncmp p q n = 0 ↔ cut p n = cut q n := by
  induction n generalizing p q with
  | zero => exact ⟨fun _ => rfl, fun _ => rfl⟩
  | succ n ih =>
    rw [strncmp, cut, cut]
    by_cases hp : p 0 = 0
    · rw [if_neg (by simp [hp]), if_pos hp, hp]
      by_cases hq : q 0 = 0
      · rw [if_pos hq, hq]
        simp
      · have hne : (q 0).toNat ≠ 0 := fun h => hq (BitVec.eq_of_toNat_eq h)
        rw [if_neg hq]
        simp [hne]
    · rw [if_neg hp]
      by_cases hq : q 0 = p 0
      · rw [if_pos ⟨hp, hq.symm⟩, hq, if_neg hp, ih]
        simp
      · have hne : ((p 0).toNat : Int) - (q 0).toNat ≠ 0 := by
          intro h
          exact hq (BitVec.eq_of_toNat_eq (by omega))
        rw [if_neg (by simp [Ne.symm hq])]
        refine ⟨fun h => (hne h).elim, fun h => ?_⟩
        by_cases hq0 : q 0 = 0
        · rw [if_pos hq0] at h
          cases h
        · rw [if_neg hq0, List.cons.injEq] at h
          exact (hq h.1.symm).elim

/-- The part of a string that names an entry. -/
def nameKey (name : CString) : List (BitVec 8) := cut name.byte dirsiz

/-- The name of an entry. -/
def Dirent.key (de : Dirent) : List (BitVec 8) := cut de.nameByte dirsiz

variable {name : CString} {de : Dirent} {des : List Dirent} {inum k : Nat}

theorem Dirent.matches_iff : de.Matches name ↔ de.inum ≠ 0 ∧ de.key = nameKey name := by
  rw [Matches, strncmp_eq_zero_iff_cut, eq_comm]
  rfl

/-- Strings with the same first 14 bytes name the same entry. -/
theorem nameKey_eq_iff {s t : CString} :
    nameKey s = nameKey t ↔ s.bytes.take dirsiz = t.bytes.take dirsiz := by
  rw [← strncmp_eq_zero_iff, strncmp_eq_zero_iff_cut]
  rfl

theorem Dirent.key_make (inum : Nat) (name : CString) : (make inum name).key = nameKey name := by
  have h := (strncmp_make name name inum).mpr rfl
  exact ((strncmp_eq_zero_iff_cut _ _ _).mp h).symm

theorem Dirent.bytes_ofBytes {l : List (BitVec 8)} (h : l.length = 16) : (ofBytes l).bytes = l := by
  match l, h with
  | a :: b :: rest, h =>
    have hrest : rest.length = 14 := by simpa using h
    have ha : a.toNat < 256 := a.isLt
    have hb : b.toNat < 256 := b.isLt
    have hinum : (BitVec.ofNat 16 (a.toNat + 256 * b.toNat)).toNat = a.toNat + 256 * b.toNat := by
      rw [BitVec.toNat_ofNat, Nat.mod_eq_of_lt (by omega)]
    have hname : List.ofFn (fun k : Fin dirsiz => (a :: b :: rest).getD (2 + k) 0) = rest := by
      refine List.ext_getElem (by rw [List.length_ofFn, hrest]) fun k hk hk' => ?_
      rw [List.getElem_ofFn, Nat.add_comm, List.getD_cons_succ, List.getD_cons_succ,
        List.getD_eq_getElem _ _ hk']
    have hlow : Memory.byteOf (a.toNat + 256 * b.toNat) 0 = a := by
      apply BitVec.eq_of_toNat_eq
      simp [Memory.byteOf]
      omega
    have hhigh : Memory.byteOf (a.toNat + 256 * b.toNat) 1 = b := by
      apply BitVec.eq_of_toNat_eq
      simp [Memory.byteOf]
      omega
    rw [bytes, ofBytes, hname]
    simp only [List.getD_cons_zero, List.getD_cons_succ]
    rw [hinum, hlow, hhigh]
    rfl

/-! ## Entries -/

variable {sb : Superblock} {i : Nat} {c c' : Ctx}

/-- The inode at work is a directory without holes whose size is a number of records. -/
structure Directory (sb : Superblock) (i : Nat) (c : Ctx) : Prop where
  toOpen : Open sb i c
  type : c.ip.type = tDir
  covers : Covers c.ip c.store.disk c.ip.size.toNat
  size : c.ip.size.toNat % 16 = 0

/-- The entries of a directory, in use or not. -/
def entriesOf (c : Ctx) : List Dirent :=
  (List.range (c.ip.size.toNat / 16)).map fun k =>
    .ofBytes (fileBytes c.ip c.store.disk (16 * k) 16)

theorem length_entriesOf (c : Ctx) : (entriesOf c).length = c.ip.size.toNat / 16 := by
  simp [entriesOf]

/-- The inode `i` is a directory with new entries, and written back; the others are as they
were. -/
structure Rewritten (sb : Superblock) (i : Nat) (c c' : Ctx) (des : List Dirent) : Prop where
  dir : Directory sb i c'
  entries : entriesOf c' = des
  ip : c'.ip = { c.ip with size := c'.ip.size, addrs := c'.ip.addrs }
  dinode : c'.store.disk.dinode sb i = c'.ip
  consistent : Consistent sb c'.store.disk
  keeps : Keeps sb i c.store.disk c'.store.disk

/-- An entry with a name and in use. -/
def Dirent.isNamed (name : CString) (de : Dirent) : Bool :=
  decide (de.inum ≠ 0 ∧ de.key = nameKey name)

/-- What `dirlookup` returns for given entries, of which the first is the `k`-th
record. -/
def lookupFrom (name : CString) : Nat → List Dirent → Option (Nat × Nat)
  | _, [] => none
  | k, de :: des =>
    if de.isNamed name then some (de.inum.toNat, 16 * k) else lookupFrom name (k + 1) des

/-- The record where `dirlink` writes: the first one not in use, or the next one. -/
def freeFrom : Nat → List Dirent → Nat
  | k, [] => k
  | k, de :: des => if de.inum = 0 then k else freeFrom (k + 1) des

/-- Entries with one replaced, or one added at the end. -/
def putEntry (des : List Dirent) (k : Nat) (de : Dirent) : List Dirent :=
  if k < des.length then des.set k de else des ++ [de]

/-- The loop of `dirlookup` from the `k`-th record on, over all entries or up to one with the
name. -/
theorem lookupLoop_of_holds (h : HoldsDirents c.ip c.store.disk des) {fuel : Nat}
    (hend : c.ip.size.toNat = 16 * des.length ∨ lookupFrom name k (des.drop k) ≠ none)
    (hk : k ≤ des.length) (hfuel : des.length < k + fuel) :
    lookupLoop sb name fuel (16 * k) c = .ok (lookupFrom name k (des.drop k), c) := by
  have hle := h.le
  induction fuel generalizing k with
  | zero => omega
  | succ fuel ih =>
    rw [lookupLoop, bind_of_ok (get_apply c)]
    by_cases hlt : k < des.length
    · rw [List.drop_eq_getElem_cons hlt, lookupFrom] at hend ⊢
      rw [if_pos (by omega), bind_of_ok (readDirent_of_holds h hlt _), List.get_eq_getElem]
      have hiff : des[k].inum ≠ 0 ∧ strncmp name.byte des[k].nameByte dirsiz = 0 ↔
          des[k].isNamed name = true := by
        rw [Dirent.isNamed, decide_eq_true_eq, ← Dirent.matches_iff]
        rfl
      by_cases hnamed : des[k].isNamed name = true
      · obtain ⟨hinum, hname⟩ := hiff.mpr hnamed
        rw [if_neg hinum, if_pos hname, if_pos hnamed]
        rfl
      · rw [if_neg hnamed] at hend ⊢
        have hnext := ih hend (by omega) (by omega)
        rw [Nat.mul_add, Nat.mul_one] at hnext
        split
        next => exact hnext
        next hinum =>
          rw [if_neg fun hname => hnamed (hiff.mp ⟨hinum, hname⟩)]
          exact hnext
    · rw [List.drop_eq_nil_of_le (by omega)] at hend ⊢
      rw [if_neg (by have := hend.resolve_right (· rfl); omega)]
      rfl

theorem dirlookup_of_holds (h : HoldsDirents c.ip c.store.disk des) (htype : c.ip.type = tDir)
    (hend : c.ip.size.toNat = 16 * des.length ∨ lookupFrom name 0 des ≠ none) :
    dirlookup sb name c = .ok (lookupFrom name 0 des, c) := by
  have hle := h.le
  unfold dirlookup
  rw [bind_of_ok (get_apply c), if_neg (by simpa using htype), bind_of_ok (get_apply c)]
  exact lookupLoop_of_holds h hend (Nat.zero_le _) (by omega)

/-- The first entry with a name is found. -/
theorem lookupFrom_eq_some {t : Nat} (ht : t < des.length) (hfound : des[t].Matches name)
    (hfirst : ∀ j (hj : j < t), ¬des[j].Matches name) :
    lookupFrom name k des = some (des[t].inum.toNat, 16 * (k + t)) := by
  have hiff : ∀ {de : Dirent}, de.isNamed name = true ↔ de.Matches name := by
    simp [Dirent.isNamed, Dirent.matches_iff]
  induction des generalizing k t with
  | nil => cases ht
  | cons de des ih =>
    rw [lookupFrom]
    cases t with
    | zero => exact if_pos (hiff.mpr hfound)
    | succ t =>
      have hnot : ¬de.Matches name := hfirst 0 (Nat.succ_pos _)
      rw [if_neg (mt hiff.mp hnot), ih (Nat.lt_of_succ_lt_succ ht) hfound
        fun j hj => hfirst (j + 1) (Nat.succ_lt_succ hj), Nat.add_right_comm, Nat.add_assoc]
      rfl

namespace Directory

section

variable (h : Directory sb i c)
include h

theorem holds : HoldsDirents c.ip c.store.disk (entriesOf c) where
  covers := by
    rw [length_entriesOf, Nat.mul_div_cancel' (Nat.dvd_of_mod_eq_zero h.size)]
    exact h.covers
  le := by
    rw [length_entriesOf]
    omega
  bytes k hk := by
    rw [List.get_eq_getElem]
    simp only [entriesOf, List.getElem_map, List.getElem_range]
    rw [Dirent.bytes_ofBytes (length_fileBytes ..)]

theorem size_eq : c.ip.size.toNat = 16 * (entriesOf c).length := by
  have hsize := h.size
  rw [length_entriesOf]
  omega

/-- `dirlookup` returns the first live entry with the name. -/
theorem dirlookup (name : CString) :
    Fs.dirlookup sb name c = .ok (lookupFrom name 0 (entriesOf c), c) :=
  dirlookup_of_holds h.holds h.type (.inl h.size_eq)

theorem emptyLoop {fuel : Nat} (hk : k ≤ (entriesOf c).length)
    (hfuel : (entriesOf c).length < k + fuel) :
    Fs.emptyLoop sb fuel (16 * k) c = .ok (16 * freeFrom k ((entriesOf c).drop k), c) := by
  have hsize := h.size_eq
  induction fuel generalizing k with
  | zero => omega
  | succ fuel ih =>
    rw [Fs.emptyLoop, bind_of_ok (get_apply c)]
    by_cases hlt : k < (entriesOf c).length
    · have hnext := ih (k := k + 1) (by omega) (by omega)
      rw [Nat.mul_add, Nat.mul_one] at hnext
      rw [if_pos (by omega), bind_of_ok (readDirent_of_holds h.holds hlt _),
        List.drop_eq_getElem_cons hlt, freeFrom, List.get_eq_getElem]
      by_cases hinum : (entriesOf c)[k].inum = 0
      · rw [if_pos hinum, if_pos hinum]
        rfl
      · rw [if_neg hinum, if_neg hinum]
        exact hnext
    · rw [if_neg (by omega), List.drop_eq_nil_of_le (by omega)]
      rfl

/-- The entries after the bytes of one record have changed. -/
theorem entriesOf_eq (hk : k ≤ (entriesOf c).length) (h' : Directory sb i c')
    {bytes : Nat → BitVec 8} (hsize : c'.ip.size.toNat = max c.ip.size.toNat (16 * k + 16))
    (hbyte : ∀ x < c'.ip.size.toNat, c'.byte x =
      if 16 * k ≤ x ∧ x < 16 * k + 16 then bytes (x - 16 * k) else c.byte x) :
    entriesOf c' = putEntry (entriesOf c) k (.ofBytes ((List.range 16).map bytes)) := by
  have hold := h.size_eq
  have hnew := h'.size_eq
  have hlen : (entriesOf c').length =
      (putEntry (entriesOf c) k (.ofBytes ((List.range 16).map bytes))).length := by
    unfold putEntry
    split
    next => rw [List.length_set]; omega
    next => rw [List.length_append, List.length_singleton]; omega
  refine List.ext_getElem hlen fun j hj hj' => ?_
  have hrecord : (entriesOf c')[j] =
      .ofBytes ((List.range 16).map fun m => c'.byte (16 * j + m)) := by
    simp only [entriesOf, List.getElem_map, List.getElem_range]
    rfl
  by_cases hjk : j = k
  · subst hjk
    have hput : (putEntry (entriesOf c) j (.ofBytes ((List.range 16).map bytes)))[j] =
        .ofBytes ((List.range 16).map bytes) := by
      unfold putEntry
      split
      next => rw [List.getElem_set_self]
      next hge => rw [List.getElem_append_right (by omega), List.getElem_singleton]
    rw [hrecord, hput]
    congr 1
    refine List.map_congr_left fun m hm => ?_
    rw [List.mem_range] at hm
    rw [hbyte _ (by omega), if_pos (by omega), Nat.add_sub_cancel_left]
  · have hlt : j < (entriesOf c).length := by
      rw [hlen] at hj
      unfold putEntry at hj
      split at hj
      next => rwa [List.length_set] at hj
      next => rw [List.length_append, List.length_singleton] at hj; omega
    have hput : (putEntry (entriesOf c) k (.ofBytes ((List.range 16).map bytes)))[j] =
        (entriesOf c)[j] := by
      unfold putEntry
      split
      next => rw [List.getElem_set_ne (Ne.symm hjk)]
      next => rw [List.getElem_append_left hlt]
    rw [hrecord, hput]
    simp only [entriesOf, List.getElem_map, List.getElem_range]
    congr 1
    refine List.map_congr_left fun m hm => ?_
    rw [List.mem_range] at hm
    rw [hbyte _ (by omega), if_neg (by omega)]
    rfl

end

/-- Writing a record changes that entry, or adds it at the end. -/
theorem writei (hsb : sb.Layout) (h : Directory sb i c) (bytes : Nat → BitVec 8)
    (hk : k ≤ (entriesOf c).length) :
    wp (Fs.writei sb i (.kernel bytes) (BitVec.ofNat 32 (16 * k)) 16)
      (fun r c' => if 16 * k + 16 ≤ maxFile * bsize then
          r = 16 ∧ Rewritten sb i c c'
            (putEntry (entriesOf c) k (.ofBytes ((List.range 16).map bytes)))
        else r = -1)
      (fun e => e = "balloc: out of blocks") c := by
  have hsize := h.size_eq
  have hmax := h.covers.le
  have hmod := h.size
  have hoff : (BitVec.ofNat 32 (16 * k)).toNat = 16 * k := by
    rw [BitVec.toNat_ofNat, Nat.mod_eq_of_lt (by simp only [maxFile, bsize] at hmax; omega)]
  have hn : (16 : BitVec 32).toNat = 16 := rfl
  refine wp_mono (writei_spec hsb h.toOpen (.kernel bytes) (BitVec.ofNat 32 (16 * k)) 16)
    (fun r c' hpost => ?_) fun e he => he.1
  have hwritable : Writable c.ip.size (BitVec.ofNat 32 (16 * k)) 16 ↔
      16 * k + 16 ≤ maxFile * bsize := by
    unfold Writable
    rw [hoff, hn]
    simp only [maxFile, bsize] at hmax ⊢
    omega
  by_cases hroom : 16 * k + 16 ≤ maxFile * bsize
  · have hw := hwritable.mpr hroom
    rw [if_pos hw, hoff, hn, writeBytes_kernel _ _ (Nat.zero_le _) (Nat.sub_le ..)] at hpost
    obtain ⟨tot, fin, f, hbytes, rfl, hstored⟩ := hpost
    simp only [Nat.sub_zero, Prod.mk.injEq, Nat.zero_add] at hbytes
    obtain ⟨rfl, rfl, rfl⟩ := hbytes
    have hcovers := hstored.covers h.covers (by omega) hroom
    have hsize' := hstored.size
    have hdir : Directory sb i c' := by
      refine ⟨hstored.toWrote.toOpen, ?_, hcovers, by omega⟩
      rw [hstored.toWrote.ip]
      exact h.type
    rw [if_pos hroom]
    refine ⟨rfl, hdir, h.entriesOf_eq hk hdir hsize' fun x hx => ?_, hstored.toWrote.ip,
      hstored.dinode, hstored.consistent, hstored.toWrote.keeps⟩
    have hle := hcovers.le
    exact hstored.toWrote.byte x (by omega)
  · rw [if_neg (mt hwritable.mp hroom)] at hpost
    rw [if_neg hroom]
    exact hpost.1

end Directory

/-- The free record is not beyond the end, and not in use. -/
theorem freeFrom_spec (k : Nat) (des : List Dirent) :
    k ≤ freeFrom k des ∧ freeFrom k des ≤ k + des.length ∧
      ∀ de, des[freeFrom k des - k]? = some de → de.inum = 0 := by
  induction des generalizing k with
  | nil => simp [freeFrom]
  | cons d des ih =>
    rw [freeFrom]
    by_cases hd : d.inum = 0
    · rw [if_pos hd]
      refine ⟨le_rfl, Nat.le_add_right .., fun de hde => ?_⟩
      rw [Nat.sub_self, List.getElem?_cons_zero, Option.some.injEq] at hde
      exact hde ▸ hd
    · obtain ⟨hlo, hhi, hfree⟩ := ih (k + 1)
      rw [if_neg hd]
      refine ⟨by omega, by rw [List.length_cons]; omega, fun de hde => ?_⟩
      have hidx : freeFrom (k + 1) des - k = freeFrom (k + 1) des - (k + 1) + 1 := by omega
      rw [hidx, List.getElem?_cons_succ] at hde
      exact hfree de hde

/-! ## The map -/

/-- The live entries have pairwise different names. -/
def Distinct (des : List Dirent) : Prop :=
  ∀ (j k : Nat) (d e : Dirent), des[j]? = some d → des[k]? = some e → d.inum ≠ 0 → e.inum ≠ 0 →
    d.key = e.key → j = k

/-- The `k`-th record is in use under a name, for an inode. -/
def Binds (des : List Dirent) (name : CString) (inum k : Nat) : Prop :=
  ∃ d, des[k]? = some d ∧ d.inum ≠ 0 ∧ d.key = nameKey name ∧ d.inum.toNat = inum

theorem binds_of_lookupFrom {off : Nat} (h : lookupFrom name k des = some (inum, off)) :
    ∃ j, off = 16 * (k + j) ∧ Binds des name inum j := by
  induction des generalizing k with
  | nil => cases h
  | cons d des ih =>
    rw [lookupFrom] at h
    split at h
    next hnamed =>
      rw [Option.some.injEq, Prod.mk.injEq] at h
      rw [Dirent.isNamed, decide_eq_true_eq] at hnamed
      exact ⟨0, by omega, d, rfl, hnamed.1, hnamed.2, h.1⟩
    next =>
      obtain ⟨j, hoff, e, he, hrest⟩ := ih h
      exact ⟨j + 1, by omega, e, he, hrest⟩

theorem lookupFrom_eq_none (h : lookupFrom name k des = none) {j : Nat} :
    ¬Binds des name inum j := by
  induction des generalizing k j with
  | nil =>
    rintro ⟨d, hd, -⟩
    cases hd
  | cons d des ih =>
    rw [lookupFrom] at h
    split at h
    next => cases h
    next hnamed =>
      rintro ⟨e, he, hlive, hkey, hinum⟩
      cases j with
      | zero =>
        rw [List.getElem?_cons_zero, Option.some.injEq] at he
        subst he
        exact hnamed (decide_eq_true ⟨hlive, hkey⟩)
      | succ j =>
        rw [List.getElem?_cons_succ] at he
        exact ih h ⟨e, he, hlive, hkey, hinum⟩

/-- With different names, an entry that is bound is the one found. -/
theorem Distinct.lookup_eq_iff (h : Distinct des) :
    lookupFrom name 0 des = some (inum, 16 * k) ↔ Binds des name inum k := by
  constructor
  · intro hlookup
    obtain ⟨j, hoff, hbinds⟩ := binds_of_lookupFrom hlookup
    have heq : k = j := by omega
    exact heq ▸ hbinds
  · intro hbinds
    cases hlookup : lookupFrom name 0 des with
    | none => exact (lookupFrom_eq_none hlookup hbinds).elim
    | some r =>
      obtain ⟨found, off⟩ := r
      obtain ⟨j, hoff, d, hd, hlive, hkey, hinum⟩ := binds_of_lookupFrom hlookup
      obtain ⟨e, he, hlive', hkey', hinum'⟩ := hbinds
      obtain rfl := h j k d e hd he hlive hlive' (hkey.trans hkey'.symm)
      rw [hd, Option.some.injEq] at he
      subst he
      congr 1
      exact Prod.ext (hinum.symm.trans hinum') (by omega)

theorem Distinct.lookup_congr {des' : List Dirent} (h' : Distinct des')
    (hbinds : ∀ inum k, Binds des' name inum k ↔ Binds des name inum k) :
    lookupFrom name 0 des' = lookupFrom name 0 des := by
  cases hlookup : lookupFrom name 0 des with
  | none =>
    cases hlookup' : lookupFrom name 0 des' with
    | none => rfl
    | some r =>
      obtain ⟨inum, off⟩ := r
      obtain ⟨k, -, hk⟩ := binds_of_lookupFrom hlookup'
      exact (lookupFrom_eq_none hlookup ((hbinds _ _).mp hk)).elim
  | some r =>
    obtain ⟨inum, off⟩ := r
    obtain ⟨k, rfl, hk⟩ := binds_of_lookupFrom hlookup
    rw [Nat.zero_add]
    exact h'.lookup_eq_iff.mpr ((hbinds _ _).mpr hk)

theorem getElem?_putEntry (hk : k ≤ des.length) (de : Dirent) (j : Nat) :
    (putEntry des k de)[j]? = if j = k then some de else des[j]? := by
  unfold putEntry
  by_cases hjk : j = k
  · subst hjk
    rw [if_pos rfl]
    split
    next hlt => rw [List.getElem?_set_self hlt]
    next hge =>
      have heq : j = des.length := by omega
      rw [heq, List.getElem?_concat_length]
  · rw [if_neg hjk]
    split
    next => rw [List.getElem?_set_ne (Ne.symm hjk)]
    next hge =>
      rw [List.getElem?_append]
      split
      next => rfl
      next hlen =>
        rw [List.getElem?_eq_none (l := [de]) (by rw [List.length_singleton]; omega),
          List.getElem?_eq_none (by omega)]

/-- Names stay different when the new entry has a name that no other live entry has. -/
theorem Distinct.putEntry (h : Distinct des) (hk : k ≤ des.length)
    (hnew : de.inum ≠ 0 → ∀ j d, j ≠ k → des[j]? = some d → d.inum ≠ 0 → d.key ≠ de.key) :
    Distinct (putEntry des k de) := by
  intro j j' d d' hd hd' hlive hlive' hkey
  rw [getElem?_putEntry hk] at hd hd'
  split at hd
  next hj =>
    split at hd'
    next hj' => rw [hj, hj']
    next hj' =>
      cases hd
      exact (hnew hlive j' d' hj' hd' hlive' hkey.symm).elim
  next hj =>
    split at hd'
    next hj' =>
      cases hd'
      exact (hnew hlive' j d hj hd hlive hkey).elim
    next => exact h j j' d d' hd hd' hlive hlive' hkey

/-- Bindings of names that neither the old nor the new entry has are not touched. -/
theorem binds_putEntry (hk : k ≤ des.length) (hnew : de.inum = 0 ∨ de.key ≠ nameKey name)
    (hold : ∀ d, des[k]? = some d → d.inum = 0 ∨ d.key ≠ nameKey name) (inum j : Nat) :
    Binds (putEntry des k de) name inum j ↔ Binds des name inum j := by
  unfold Binds
  simp only [getElem?_putEntry hk]
  by_cases hj : j = k
  · subst hj
    rw [if_pos rfl]
    constructor
    · rintro ⟨d, hd, hlive, hkey, -⟩
      cases hd
      exact (hnew.elim hlive fun hne => hne hkey).elim
    · rintro ⟨d, hd, hlive, hkey, -⟩
      exact ((hold d hd).elim hlive fun hne => hne hkey).elim
  · rw [if_neg hj]

/-! ## Calls on a directory -/

namespace Directory

variable (hsb : sb.Layout) (h : Directory sb i c)
include hsb h

theorem addEntry (name : CString) (inum : Nat) :
    wp (Fs.addEntry sb i name inum)
      (fun r c' => r = 0 ∧ Rewritten sb i c c'
        (putEntry (entriesOf c) (freeFrom 0 (entriesOf c)) (.make inum name)))
      (fun e => e = "balloc: out of blocks" ∨
        e = "dirlink" ∧ maxFile * bsize < 16 * freeFrom 0 (entriesOf c) + 16) c := by
  have hsize := h.size_eq
  have hslot := (freeFrom_spec 0 (entriesOf c)).2.1
  have hloop : Fs.emptyLoop sb (c.ip.size.toNat / 16 + 1) (16 * 0) c = _ :=
    h.emptyLoop (Nat.zero_le _) (by omega)
  rw [Nat.mul_zero, List.drop_zero] at hloop
  unfold Fs.addEntry
  rw [wp_bind, wp_get, wp_bind]
  refine wp_of_run hloop ?_
  dsimp only
  rw [wp_bind]
  refine wp_mono (h.writei hsb _ (by omega)) (fun r c' hpost => ?_) fun e he => .inl he
  split at hpost
  next hroom =>
    obtain ⟨rfl, hnew⟩ := hpost
    rw [map_getD_range (Dirent.length_bytes _), Dirent.ofBytes_bytes] at hnew
    exact ⟨rfl, hnew⟩
  next hroom =>
    subst hpost
    exact .inr ⟨rfl, by omega⟩

/-- What `dirlink` does to the entries. -/
theorem dirlink (name : CString) (inum : Nat) :
    wp (Fs.dirlink sb i name inum)
      (fun r c' =>
        (∃ found, lookupFrom name 0 (entriesOf c) = some found ∧ r = -1 ∧ c' = c) ∨
        (lookupFrom name 0 (entriesOf c) = none ∧ r = 0 ∧ Directory sb i c' ∧
          entriesOf c' = putEntry (entriesOf c) (freeFrom 0 (entriesOf c)) (.make inum name)))
      (fun e => e = "balloc: out of blocks" ∨
        e = "dirlink" ∧ maxFile * bsize < 16 * freeFrom 0 (entriesOf c) + 16) c := by
  unfold Fs.dirlink
  rw [wp_bind]
  refine wp_of_run (h.dirlookup name) ?_
  dsimp only
  cases hlookup : lookupFrom name 0 (entriesOf c) with
  | some found => exact .inl ⟨found, rfl, rfl, rfl⟩
  | none =>
    refine wp_mono (h.addEntry hsb name inum) (fun r c' hpost => ?_) fun e he => he
    obtain ⟨hr, hnew⟩ := hpost
    exact .inr ⟨rfl, hr, hnew.dir, hnew.entries⟩

theorem clearEntry (name : CString) :
    wp (Fs.clearEntry sb i name)
      (fun r c' =>
        (lookupFrom name 0 (entriesOf c) = none ∧ r = -1 ∧ c' = c) ∨
        ∃ inum k, lookupFrom name 0 (entriesOf c) = some (inum, 16 * k) ∧ r = 0 ∧
          Directory sb i c' ∧
          entriesOf c' = putEntry (entriesOf c) k (.ofBytes ((List.range 16).map fun _ => 0)))
      (fun e => e = "balloc: out of blocks") c := by
  have hsize := h.size_eq
  have hmax := h.covers.le
  unfold Fs.clearEntry
  rw [wp_bind]
  refine wp_of_run (h.dirlookup name) ?_
  dsimp only
  cases hlookup : lookupFrom name 0 (entriesOf c) with
  | none => exact .inl ⟨rfl, rfl, rfl⟩
  | some found =>
    obtain ⟨inum, off⟩ := found
    obtain ⟨k, hoff, d, hd, -⟩ := binds_of_lookupFrom hlookup
    obtain rfl : off = 16 * k := by omega
    obtain ⟨hk, -⟩ := List.getElem?_eq_some_iff.mp hd
    dsimp only
    rw [wp_bind]
    refine wp_mono (h.writei hsb _ hk.le) (fun r c' hpost => ?_) fun e he => he
    rw [if_pos (by omega)] at hpost
    obtain ⟨rfl, hnew⟩ := hpost
    exact .inr ⟨inum, k, rfl, rfl, hnew.dir, hnew.entries⟩

end Directory

/-- Calls on a directory. -/
inductive DirCall where
  | link (name : CString) (inum : Nat)
  | clear (name : CString)

/-- Make a call; `none` if the kernel panics. -/
def dirStep (sb : Superblock) (i : Nat) (c : Ctx) (call : DirCall) : Option Ctx :=
  let run : InodeM Int :=
    match call with
    | .link name inum => dirlink sb i name inum
    | .clear name => clearEntry sb i name
  match run c with
  | .ok (_, c') => some c'
  | .error _ => none

/-- Entries are made for inode numbers that fit and are not zero. -/
def InRange (_ : Ctx) : DirCall → Prop
  | .link _ inum => 1 ≤ inum ∧ inum < 65536
  | .clear _ => True

instance (c : Ctx) : (call : DirCall) → Decidable (InRange c call)
  | .link _ inum => inferInstanceAs (Decidable (1 ≤ inum ∧ inum < 65536))
  | .clear _ => inferInstanceAs (Decidable True)

/-- Names other than one are found as before. -/
def OthersSame (sb : Superblock) (name : CString) (c c' : Ctx) : Prop :=
  ∀ name' : CString, name'.bytes.take dirsiz ≠ name.bytes.take dirsiz →
    ∃ found, dirlookup sb name' c = .ok (found, c) ∧ dirlookup sb name' c' = .ok (found, c')

/-- A directory whose live entries have different names. -/
def NamesApart (sb : Superblock) (i : Nat) (c : Ctx) : Prop :=
  Directory sb i c ∧ Distinct (entriesOf c)

namespace Directory

theorem linked (h : Directory sb i c) (hdistinct : Distinct (entriesOf c)) (h' : Directory sb i c')
    (hpos : 1 ≤ inum) (hlt : inum < 65536) (habsent : lookupFrom name 0 (entriesOf c) = none)
    (hentries : entriesOf c' =
      putEntry (entriesOf c) (freeFrom 0 (entriesOf c)) (.make inum name)) :
    Distinct (entriesOf c') ∧
      Fs.dirlookup sb name c' = .ok (some (inum, 16 * freeFrom 0 (entriesOf c)), c') ∧
      OthersSame sb name c c' ∧ ∀ (j : Nat) (d : Dirent), (entriesOf c)[j]? = some d → d.inum ≠ 0 →
        (entriesOf c')[j]? = some d := by
  obtain ⟨-, hslot, hfree⟩ := freeFrom_spec 0 (entriesOf c)
  rw [Nat.zero_add] at hslot
  rw [Nat.sub_zero] at hfree
  have hinum : (BitVec.ofNat 16 inum).toNat = inum := by
    rw [BitVec.toNat_ofNat, Nat.mod_eq_of_lt (by omega)]
  have hlive : (Dirent.make inum name).inum ≠ 0 := by
    intro hzero
    have hval : (BitVec.ofNat 16 inum).toNat = 0 := congrArg BitVec.toNat hzero
    omega
  have hdistinct' : Distinct (entriesOf c') := by
    rw [hentries]
    refine hdistinct.putEntry hslot fun _ j d _ hd hdlive hkey => ?_
    rw [Dirent.key_make] at hkey
    exact lookupFrom_eq_none habsent ⟨d, hd, hdlive, hkey, rfl⟩
  refine ⟨hdistinct', ?_, ?_, ?_⟩
  · rw [h'.dirlookup name, hdistinct'.lookup_eq_iff.mpr]
    refine ⟨.make inum name, ?_, hlive, Dirent.key_make .., hinum⟩
    rw [hentries, getElem?_putEntry hslot, if_pos rfl]
  · intro name' hname
    refine ⟨_, h.dirlookup name', ?_⟩
    rw [h'.dirlookup name', hdistinct'.lookup_congr fun n k => ?_]
    rw [hentries]
    refine binds_putEntry hslot (.inr ?_) (fun d hd => .inl (hfree d hd)) n k
    rw [Dirent.key_make]
    exact fun heq => hname (nameKey_eq_iff.mp heq.symm)
  · intro j d hd hdlive
    rw [hentries, getElem?_putEntry hslot, if_neg, hd]
    rintro rfl
    exact hdlive (hfree d hd)

theorem cleared (h : Directory sb i c) (hdistinct : Distinct (entriesOf c))
    (h' : Directory sb i c') (hfound : lookupFrom name 0 (entriesOf c) = some (inum, 16 * k))
    (hentries : entriesOf c' =
      putEntry (entriesOf c) k (.ofBytes ((List.range 16).map fun _ => 0))) :
    Distinct (entriesOf c') ∧ Fs.dirlookup sb name c' = .ok (none, c') ∧ OthersSame sb name c c' ∧
      ∀ (j : Nat) (d : Dirent), (entriesOf c)[j]? = some d → d.key ≠ nameKey name →
        (entriesOf c')[j]? = some d := by
  obtain ⟨d0, hd0, hlive0, hkey0, -⟩ := hdistinct.lookup_eq_iff.mp hfound
  have hk : k ≤ (entriesOf c).length := (List.getElem?_eq_some_iff.mp hd0).1.le
  have hzero : (Dirent.ofBytes ((List.range 16).map fun _ => 0)).inum = 0 := rfl
  have hdistinct' : Distinct (entriesOf c') := by
    rw [hentries]
    exact hdistinct.putEntry hk fun hlive => (hlive hzero).elim
  refine ⟨hdistinct', ?_, ?_, ?_⟩
  · rw [h'.dirlookup name]
    cases hlookup : lookupFrom name 0 (entriesOf c') with
    | none => rfl
    | some r =>
      obtain ⟨n, off⟩ := r
      obtain ⟨j, -, d, hd, hlive, hkey, -⟩ := binds_of_lookupFrom hlookup
      rw [hentries, getElem?_putEntry hk] at hd
      split at hd
      next =>
        cases hd
        exact (hlive hzero).elim
      next hjk => exact (hjk (hdistinct j k d d0 hd hd0 hlive hlive0 (hkey.trans hkey0.symm))).elim
  · intro name' hname
    refine ⟨_, h.dirlookup name', ?_⟩
    rw [h'.dirlookup name', hdistinct'.lookup_congr fun n j => ?_]
    rw [hentries]
    refine binds_putEntry hk (.inl hzero) (fun d hd => .inr fun heq => ?_) n j
    rw [hd0, Option.some.injEq] at hd
    subst hd
    exact hname (nameKey_eq_iff.mp (heq.symm.trans hkey0))
  · intro j d hd hkey
    rw [hentries, getElem?_putEntry hk, if_neg, hd]
    rintro rfl
    rw [hd0, Option.some.injEq] at hd
    exact hkey (hd ▸ hkey0)

/-- One call keeps a directory one with different names. -/
theorem step (hsb : sb.Layout) {call : DirCall} (h : NamesApart sb i c)
    (hok : InRange c call) (hstep : dirStep sb i c call = some c') : NamesApart sb i c' := by
  obtain ⟨hdir, hdistinct⟩ := h
  cases call with
  | link name inum =>
    have hwp := hdir.dirlink hsb name inum
    simp only [dirStep] at hstep
    split at hstep
    next r c'' hrun =>
      cases hstep
      rcases wp_of_ok hwp hrun with ⟨_, -, -, rfl⟩ | ⟨habsent, -, hdir', hentries⟩
      · exact ⟨hdir, hdistinct⟩
      · exact ⟨hdir', (hdir.linked hdistinct hdir' hok.1 hok.2 habsent hentries).1⟩
    next => cases hstep
  | clear name =>
    have hwp := hdir.clearEntry hsb name
    simp only [dirStep] at hstep
    split at hstep
    next r c'' hrun =>
      cases hstep
      rcases wp_of_ok hwp hrun with ⟨-, -, rfl⟩ | ⟨inum, k, hfound, -, hdir', hentries⟩
      · exact ⟨hdir, hdistinct⟩
      · exact ⟨hdir', (hdir.cleared hdistinct hdir' hfound hentries).1⟩
    next => cases hstep

end Directory

/-- Whatever is linked and cleared in a directory without holes and with different names: the names
stay different; `dirlink` of a name that is present returns `-1` and changes nothing; otherwise it
returns `0`, the name is then found where it was written and every other name as before, or the
kernel panics for lack of blocks or because the directory has the maximum size; after clearing, the
name is not found and every other name is found as before.  No live entry other than the one cleared
changes. -/
theorem directory_is_map (hsb : sb.Layout) {c0 : Ctx} (hdir : Directory sb i c0)
    (hdistinct : Distinct (entriesOf c0)) {calls : List DirCall}
    (hrun : Run (Guarded InRange (StepOf (dirStep sb i))) c0 calls c) :
    Directory sb i c ∧ Distinct (entriesOf c) ∧
    (∀ name inum found, dirlookup sb name c = .ok (some found, c) →
      dirlink sb i name inum c = .ok (-1, c)) ∧
    (∀ name inum, 1 ≤ inum → inum < 65536 → dirlookup sb name c = .ok (none, c) →
      (∀ r c', dirlink sb i name inum c = .ok (r, c') →
        r = 0 ∧ ∃ off, dirlookup sb name c' = .ok (some (inum, off), c') ∧ OthersSame sb name c c' ∧
          ∀ (j : Nat) (d : Dirent), (entriesOf c)[j]? = some d → d.inum ≠ 0 →
            (entriesOf c')[j]? = some d) ∧
      ∀ e, dirlink sb i name inum c = .error e →
        e = "balloc: out of blocks" ∨ e = "dirlink" ∧ maxFile * bsize < c.ip.size.toNat + 16) ∧
    ∀ name found, dirlookup sb name c = .ok (some found, c) →
      ∀ r c', clearEntry sb i name c = .ok (r, c') →
        r = 0 ∧ dirlookup sb name c' = .ok (none, c') ∧ OthersSame sb name c c' ∧
          ∀ (j : Nat) (d : Dirent), (entriesOf c)[j]? = some d → d.key ≠ nameKey name →
            (entriesOf c')[j]? = some d := by
  obtain ⟨hdir, hdistinct⟩ : NamesApart sb i c :=
    hrun.invariant_guarded (fun h hok hstep => Directory.step hsb h hok hstep) ⟨hdir, hdistinct⟩
  have hlookup : ∀ {name found}, dirlookup sb name c = .ok (found, c) →
      lookupFrom name 0 (entriesOf c) = found := by
    intro name found hfound
    rw [hdir.dirlookup name] at hfound
    cases hfound
    rfl
  refine ⟨hdir, hdistinct, ?_, ?_, ?_⟩
  · intro name inum found hfound
    unfold dirlink
    rw [bind_of_ok hfound]
    rfl
  · intro name inum hpos hlt hnone
    have hwp := hdir.dirlink hsb name inum
    have habsent := hlookup hnone
    refine ⟨fun r c' hcall => ?_, fun e hcall => ?_⟩
    · rcases wp_of_ok hwp hcall with ⟨found, hfound, -⟩ | ⟨-, hr, hdir', hentries⟩
      · rw [habsent] at hfound
        cases hfound
      · obtain ⟨-, hbound, hothers, hlive⟩ := hdir.linked hdistinct hdir' hpos hlt habsent hentries
        exact ⟨hr, _, hbound, hothers, hlive⟩
    · rcases wp_of_error hwp hcall with he | ⟨he, hfull⟩
      · exact .inl he
      · have hslot := (freeFrom_spec 0 (entriesOf c)).2.1
        have hsize := hdir.size_eq
        exact .inr ⟨he, by omega⟩
  · intro name found hfound r c' hcall
    have hpresent := hlookup hfound
    rcases wp_of_ok (hdir.clearEntry hsb name) hcall with
      ⟨hnone, -⟩ | ⟨inum, k, hsome, hr, hdir', hentries⟩
    · rw [hpresent] at hnone
      cases hnone
    · obtain ⟨-, hrest⟩ := hdir.cleared hdistinct hdir' hsome hentries
      exact ⟨hr, hrest⟩

/-- A directory without contents, as inode 1 of the tiny disk. -/
theorem tinyDisk_directory {ip : Dinode} (htype : ip.type = tDir) (hsize : ip.size = 0)
    (haddrs : ∀ k, ip.addrs k = 0) : Directory tinySuper 1 ⟨⟨tinyDisk, []⟩, ip⟩ := by
  have hrefs : refs (Ctx.view tinySuper 1 ⟨⟨tinyDisk, []⟩, ip⟩) tinyDisk =
      refs (tinyDisk.dinode tinySuper) tinyDisk :=
    refs_update_fresh (tinyDisk_free 1) haddrs
  have hsound : Sound tinySuper (Ctx.view tinySuper 1 ⟨⟨tinyDisk, []⟩, ip⟩) tinyDisk :=
    ⟨by rw [hrefs]; exact tinyDisk_consistent.owned, tinyDisk_consistent.low⟩
  refine ⟨⟨by decide, by rw [htype]; decide, hsound⟩, htype, ?_, by rw [hsize]; rfl⟩
  rw [hsize]
  exact ⟨Nat.zero_le _, fun n hn => absurd hn (Nat.not_lt_zero n)⟩

/-- A new directory. -/
def tinyDir : Ctx := ⟨⟨tinyDisk, []⟩, { Dinode.zero with type := tDir }⟩

/-- A name of one letter, some number of times. -/
def letters (n : Nat) : CString := ⟨List.replicate n 97, by simp⟩

/-- A name of 15 letters is cleared by the name of its first 14; the other name is still bound and
cannot be linked again. -/
theorem directory_is_map_tiny :
    ∃ c, Run (Guarded InRange (StepOf (dirStep tinySuper 1))) tinyDir
        [.link (letters 15) 5, .link (letters 1) 6, .clear (letters 14)] c ∧
      dirlookup tinySuper (letters 15) c = .ok (none, c) ∧
      dirlookup tinySuper (letters 1) c = .ok (some (6, 16), c) ∧
      dirlink tinySuper 1 (letters 1) 7 c = .ok (-1, c) := by
  have hdistinct : Distinct (entriesOf tinyDir) := by
    intro j k d e hd
    cases hd
  have hcheck : (exec (guardStep InRange (dirStep tinySuper 1)) tinyDir
      [.link (letters 15) 5, .link (letters 1) 6, .clear (letters 14)]).any
        (fun c => decide (lookupFrom (letters 15) 0 (entriesOf c) = none ∧
          lookupFrom (letters 1) 0 (entriesOf c) = some (6, 16))) = true := by
    decide +kernel
  obtain ⟨c, hexec, hlong, hshort⟩ := exists_exec hcheck
  have hrun := run_guarded_of_exec hexec
  obtain ⟨hdir, -, hpresent, -⟩ := directory_is_map tinySuper_layout
    (tinyDisk_directory rfl rfl fun _ => rfl) hdistinct hrun
  have hfound : dirlookup tinySuper (letters 1) c = .ok (some (6, 16), c) := by
    rw [hdir.dirlookup, hshort]
  refine ⟨c, hrun, ?_, hfound, hpresent _ 7 _ hfound⟩
  rw [hdir.dirlookup, hlong]

end Fs
end FastIpc
