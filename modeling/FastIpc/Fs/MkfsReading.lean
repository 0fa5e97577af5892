import FastIpc.Fs.Directory
import FastIpc.Fs.MkfsConsistency

/-!
# The kernel reads the image

The kernel finds on an image what `mkfs` put there: the super block, the files by their names in
the root directory, their contents, and the blocks they use in the free map.

Main results:

- Theorem `Final.sound`: the image is sound in the sense of the kernel.
- Theorem `mkfs_readable`: every input file is found by its name and read back.
-/

namespace FastIpc
namespace Fs
namespace Mkfs

open Foundation Kernel

/-! ## Files -/

section Files

variable {im : Image} {c : Nat → List (BitVec 8)} {files : List InputFile}

theorem length_dirents (inum : Nat) (files : List InputFile) :
    (dirents inum files).length = files.length := by
  induction files generalizing inum with
  | nil => rfl
  | cons f files ih => rw [dirents, List.length_cons, ih, List.length_cons]

theorem getElem_dirents (inum : Nat) {files : List InputFile} {k : Nat}
    (hk : k < (dirents inum files).length) (hk' : k < files.length) :
    (dirents inum files)[k] = Dirent.make (inum + k) files[k].entryName := by
  induction files generalizing inum k with
  | nil => simp at hk'
  | cons f files ih =>
    cases k with
    | zero => rfl
    | succ k =>
      have hrest := ih (inum + 1) (by simpa [dirents] using hk) (by simpa using hk')
      rw [Nat.add_assoc, Nat.add_comm 1 k] at hrest
      exact hrest

/-- The entries of the root directory. -/
def rootDirents (files : List InputFile) : List Dirent :=
  [Dirent.make rootIno dot, Dirent.make rootIno dotdot] ++ dirents 2 files

theorem rootBytes_eq (files : List InputFile) :
    rootBytes files = ((rootDirents files).map Dirent.bytes).flatten := by
  simp [rootBytes, rootDirents, dotEntries, entries]

theorem length_rootDirents (files : List InputFile) :
    (rootDirents files).length = files.length + 2 := by
  rw [rootDirents, List.length_append, length_dirents]
  exact Nat.add_comm ..

/-- A byte of an entry among the bytes of all entries. -/
theorem getD_flatten_bytes {des : List Dirent} {k j : Nat} (hk : k < des.length) (hj : j < 16) :
    ((des.map Dirent.bytes).flatten).getD (16 * k + j) 0 = des[k].bytes.getD j 0 := by
  induction des generalizing k with
  | nil => simp at hk
  | cons de des ih =>
    rw [List.map_cons, List.flatten_cons]
    cases k with
    | zero =>
      rw [Nat.mul_zero, Nat.zero_add, List.getD_append _ _ _ _ (by simpa using hj)]
      rfl
    | succ k =>
      have hshift : 16 * (k + 1) + j - de.bytes.length = 16 * k + j := by
        rw [Dirent.length_bytes]
        omega
      rw [List.getD_append_right _ _ _ _ (by rw [Dirent.length_bytes]; omega), hshift,
        ih (by simpa using hk)]
      rfl

namespace Final

variable (h : Final im c files)
include h

theorem filled {i : Nat} (hpos : 1 ≤ i) (hi : i < im.freeinode) :
    Filled ((im.disk.dinode sb i).ref im.disk) im.disk (shapes c i) (c i) :=
  h.laid.filled i ((h.used_iff i).mpr ⟨hpos, hi⟩)

theorem covers {i : Nat} (hpos : 1 ≤ i) (hi : i < im.freeinode) :
    Covers (im.disk.dinode sb i) im.disk (c i).length where
  le := (h.filled hpos hi).length_le.trans (Nat.mul_le_mul_right _ (h.filled hpos hi).blocks_le)
  block n hn := ((h.filled hpos hi).block_iff n (hn.trans_le (h.filled hpos hi).blocks_le)).mpr hn

theorem fileBytes_eq {i off m : Nat} (hpos : 1 ≤ i) (hi : i < im.freeinode)
    (hlen : off + m ≤ (c i).length) :
    fileBytes (im.disk.dinode sb i) im.disk off m =
      (List.range m).map fun j => (c i).getD (off + j) 0 := by
  apply List.map_congr_left
  intro j hj
  rw [List.mem_range] at hj
  exact (h.filled hpos hi).byte (off + j) (by omega)

theorem holdsDirents : HoldsDirents (im.disk.dinode sb rootIno) im.disk (rootDirents files) := by
  have hi : rootIno < im.freeinode := by
    rw [h.freeinode]
    exact Nat.lt_add_left _ (by decide)
  have hlen : (c rootIno).length = 16 * (rootDirents files).length := by
    rw [h.root, length_rootBytes, length_rootDirents]
  constructor
  · rw [← hlen]
    exact h.covers le_rfl hi
  · rw [h.size_root, length_rootDirents, rootSize]
    simp only [bsize]
    omega
  · intro k hk
    have hbound : 16 * k + 16 ≤ (c rootIno).length := by omega
    rw [h.fileBytes_eq (i := rootIno) le_rfl hi hbound, h.root, rootBytes_eq]
    rw [← map_getD_range ((rootDirents files).get ⟨k, hk⟩).length_bytes]
    apply List.map_congr_left
    intro j hj
    exact getD_flatten_bytes hk (List.mem_range.mp hj)

theorem readi_eq {k : Nat} (hk : k < files.length) (log : List (Nat × Block)) :
    readi sb (im.disk.dinode sb (2 + k)).size.toNat 0 (im.disk.dinode sb (2 + k)).size
        ⟨⟨im.disk, log⟩, im.disk.dinode sb (2 + k)⟩ =
      .ok (((files[k].contents.length : Nat), files[k].contents),
        ⟨⟨im.disk, log⟩, im.disk.dinode sb (2 + k)⟩) := by
  have hi : 2 + k < im.freeinode := by
    rw [h.freeinode]
    omega
  have hsize := h.size (2 + k) (by omega) hi
  have hbytes := h.fileBytes_eq (i := 2 + k) (m := (c (2 + k)).length) (by omega) hi
    (Nat.zero_add _).le
  rw [readi_of_covers (h.covers (by omega) hi) hsize.ge le_rfl
    (by rw [hsize]; exact (Nat.zero_add _).le)]
  have hzero : (0 : BitVec 32).toNat = 0 := rfl
  rw [hzero, hsize, hbytes]
  simp only [Nat.zero_add]
  rw [map_getD_range rfl, h.contents k hk]
  rfl

/-- The image is sound in the sense of the kernel. -/
theorem sound : Sound sb (im.disk.dinode sb) im.disk := by
  have hle := h.laid.le
  have hge := h.laid.ge
  have hbits : ∀ b < fssize, (sb.marked im.disk b = true ↔ b < im.freeblock) := by
    intro b hb
    rw [h.bits b (hb.trans (by decide)), decide_eq_true_eq]
  constructor
  · apply h.laid.owned.congr_marked
    intro b hb
    exact hbits b hb.2
  · intro b hb
    have hlow : b < nmeta := hb
    exact (hbits b (by omega)).mpr (by omega)

end Final

end Files

/-! ## Names -/

/-- A name a file can have: not empty and no name of a directory itself or its parent. -/
def ProperName (name : CString) : Prop := name ≠ .empty ∧ name ≠ dot ∧ name ≠ dotdot

instance (name : CString) : Decidable (ProperName name) := inferInstanceAs (Decidable (_ ∧ _))

theorem eq_of_take_eq {s t : CString} (hlen : t.bytes.length < dirsiz)
    (h : s.bytes.take dirsiz = t.bytes.take dirsiz) : s = t := by
  rw [List.take_of_length_le hlen.le] at h
  have hs : s.bytes.length ≤ dirsiz := by
    have hcongr := congrArg List.length h
    rw [List.length_take] at hcongr
    omega
  rw [List.take_of_length_le hs] at h
  cases s
  cases t
  simpa using h

/-- The names of the files, cut to the size of an entry. -/
def entryNames (files : List InputFile) : List (List (BitVec 8)) :=
  files.map fun f => f.entryName.bytes.take dirsiz

variable {files : List InputFile}

theorem rootDirents_get {k : Nat} (hk : k < files.length)
    (hk' : k + 2 < (rootDirents files).length) :
    (rootDirents files)[k + 2] = Dirent.make (2 + k) files[k].entryName := by
  have hdirents : k < (dirents 2 files).length := by
    rw [length_dirents]
    exact hk
  exact getElem_dirents 2 hdirents hk

/-- The entry of a file is the first one with its name. -/
theorem first_match (hnames : (entryNames files).Nodup)
    (hproper : ∀ f ∈ files, ProperName f.entryName) {k : Nat} (hk : k < files.length)
    {j : Nat} (hj : j < k + 2) (hj' : j < (rootDirents files).length) :
    ¬(rootDirents files)[j].Matches files[k].entryName := by
  obtain ⟨-, hdot, hdotdot⟩ := hproper _ (List.getElem_mem hk)
  rintro ⟨-, hname⟩
  match j, hj, hj' with
  | 0, _, _ => exact hdot (eq_of_take_eq (by decide) ((Dirent.strncmp_make ..).mp hname))
  | 1, _, _ => exact hdotdot (eq_of_take_eq (by decide) ((Dirent.strncmp_make ..).mp hname))
  | j + 2, hj, hj' =>
    have hjk : j < k := by omega
    rw [rootDirents_get (hjk.trans hk) hj', Dirent.strncmp_make] at hname
    have hlen : (entryNames files).length = files.length := List.length_map ..
    have hj1 : j < (entryNames files).length := by omega
    have hk1 : k < (entryNames files).length := by omega
    have heq : (entryNames files)[j] = (entryNames files)[k] := by
      simpa [entryNames] using hname.symm
    have := (List.Nodup.getElem_inj_iff hnames).mp heq
    omega

/-- Every input file is found by its name in the root directory and read back, and its blocks are
marked in the free map, so that none of them is allocated again. -/
theorem mkfs_readable (hnames : (entryNames files).Nodup)
    (hproper : ∀ f ∈ files, ProperName f.entryName)
    (hsize : ∀ f ∈ files, f.contents.length ≤ maxFile * bsize)
    (hcount : files.length < nInodes - 1) (hfit : totalUse files ≤ fssize) :
    ((∀ f ∈ files, 0x2f ∉ f.shortname.bytes ∧ f.reads.isSome) → ∃ im, mkfs files = .ok im) ∧
      ∀ im, mkfs files = .ok im → ∃ sb, fsinit im.disk = .ok sb ∧ ∀ f ∈ files, ∃ inum off,
        dirlookup sb f.entryName ⟨⟨im.disk, []⟩, im.disk.dinode sb rootIno⟩ =
            .ok (some (inum, off), ⟨⟨im.disk, []⟩, im.disk.dinode sb rootIno⟩) ∧
        readi sb (im.disk.dinode sb inum).size.toNat 0 (im.disk.dinode sb inum).size
            ⟨⟨im.disk, []⟩, im.disk.dinode sb inum⟩ =
          .ok ((f.contents.length, f.contents), ⟨⟨im.disk, []⟩, im.disk.dinode sb inum⟩) ∧
        ∀ s b, (im.disk.dinode sb inum).ref im.disk s = some b → sb.marked im.disk b = true ∧
          ∀ b' s', Fs.balloc sb ⟨im.disk, []⟩ = .ok (b', s') → b' ≠ b := by
  have hfiles : files.length + 2 ≤ nInodes := by
    simp only [nInodes] at *
    omega
  constructor
  · intro hopen
    obtain ⟨im, -, hrun, -⟩ := mkfs_of_fits files hfiles
      (fun f hf => ⟨(hopen f hf).1, (hopen f hf).2, hsize f hf⟩) hfit
    exact ⟨im, hrun⟩
  · intro im hrun
    rcases mkfs_outcome files hfiles with ⟨im', c, hrun', -, h⟩ | ⟨e, hrun', -⟩
    swap
    · rw [hrun] at hrun'
      cases hrun'
    rw [hrun, Except.ok.injEq] at hrun'
    subst hrun'
    have hsb : readsb im.disk = sb := by
      rw [readsb, h.super]
      exact Superblock.decode_encode (by decide)
    refine ⟨sb, ?_, ?_⟩
    · unfold fsinit
      rw [hsb]
      rfl
    intro f hf
    obtain ⟨k, hk, rfl⟩ := List.getElem_of_mem hf
    have hslot : k + 2 < (rootDirents files).length := by
      rw [length_rootDirents]
      omega
    have hentry := rootDirents_get hk hslot
    have hinum : (BitVec.ofNat 16 (2 + k)).toNat = 2 + k := by
      rw [BitVec.toNat_ofNat, Nat.mod_eq_of_lt]
      simp only [nInodes] at hfiles
      omega
    have hfound : (rootDirents files)[k + 2].Matches files[k].entryName := by
      rw [hentry]
      refine ⟨?_, (Dirent.strncmp_make ..).mpr rfl⟩
      intro hzero
      have hnat := congrArg BitVec.toNat hzero
      rw [Dirent.make, hinum] at hnat
      have : (0 : BitVec 16).toNat = 0 := rfl
      omega
    refine ⟨2 + k, 16 * (k + 2), ?_, h.readi_eq hk [], ?_⟩
    · have hlookup := lookupFrom_eq_some (k := 0) hslot hfound
        fun j hj => first_match hnames hproper hk hj (hj.trans hslot)
      rw [hentry, Dirent.make, hinum, Nat.zero_add] at hlookup
      rw [dirlookup_of_holds h.holdsDirents h.type_root (.inr (by simp [hlookup])), hlookup]
    · intro s b hb
      have hmarked := h.sound.owned.marked_of_ref (p := (2 + k, s)) hb
      refine ⟨hmarked, ?_⟩
      intro b' s' hballoc heq
      have hfree := (FaultM.wp_of_ok (balloc_spec (s := ⟨im.disk, []⟩) h.sound) hballoc).1.free
      rw [heq] at hfree
      rw [hmarked] at hfree
      cases hfree

/-- A small file is read back. -/
theorem mkfs_readable_small :
    ∃ im sb inum off, mkfs [smallFile] = .ok im ∧ fsinit im.disk = .ok sb ∧
      dirlookup sb smallFile.entryName ⟨⟨im.disk, []⟩, im.disk.dinode sb rootIno⟩ =
        .ok (some (inum, off), ⟨⟨im.disk, []⟩, im.disk.dinode sb rootIno⟩) ∧
      readi sb (im.disk.dinode sb inum).size.toNat 0 (im.disk.dinode sb inum).size
          ⟨⟨im.disk, []⟩, im.disk.dinode sb inum⟩ =
        .ok ((3, [1, 2, 3]), ⟨⟨im.disk, []⟩, im.disk.dinode sb inum⟩) := by
  have hnames : (entryNames [smallFile]).Nodup := by decide
  obtain ⟨hwritten, hread⟩ := mkfs_readable hnames (by decide) (by decide) (by decide) (by decide)
  obtain ⟨im, him⟩ := hwritten (by decide)
  obtain ⟨sb, hsb, hfile⟩ := hread im him
  obtain ⟨inum, off, hlookup, hbytes, -⟩ := hfile smallFile List.mem_cons_self
  exact ⟨im, sb, inum, off, him, hsb, hlookup, hbytes⟩

end Mkfs
end Fs
end FastIpc
