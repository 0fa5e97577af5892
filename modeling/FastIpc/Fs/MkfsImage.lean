import FastIpc.Fs.MkfsAppend
import Mathlib

/-!
# The image of a list of files

The runs of `mkfs` with few enough files for the inodes of the image: which files they accept,
how many blocks they take, and what the image holds at the end.

Main results:

- Theorem `addFiles_outcome`: the files are added in order, or the program stops.
- Theorem `mkfs_outcome`: the same for the whole program.
-/

namespace FastIpc
namespace Fs
namespace Mkfs

open Foundation FaultM Kernel
open Function (update update_eq_self update_eq_self_iff update_idem update_of_ne update_self)

/-! ## Inodes -/

section Inodes

variable {im : Image} {c : Nat → List (BitVec 8)}

/-- The image after the next inode is taken. -/
def Image.addInode (im : Image) (type : BitVec 16) : Image :=
  { im.putInode im.freeinode { Dinode.zero with type := type, nlink := 1 } with
    freeinode := im.freeinode + 1 }

theorem ialloc_of_lt (hlen : im.len = fssize) (hlt : im.freeinode < nInodes) (type : BitVec 16) :
    ialloc type im = .ok (im.freeinode, im.addInode type) := by
  have hlen' : ({ im with freeinode := im.freeinode + 1 } : Image).len = fssize := hlen
  unfold ialloc
  rw [bind_of_ok (get_apply im), bind_of_ok (modify_apply _ im),
    bind_of_ok (winode_of_lt hlen' hlt _)]
  rfl

theorem addInode_dinode (hlt : im.freeinode < nInodes) (type : BitVec 16) :
    (im.addInode type).disk.dinode sb = update (im.disk.dinode sb) im.freeinode
      { Dinode.zero with type := type, nlink := 1 } :=
  putInode_dinode hlt im _

theorem Rest.addInode (h : Rest im c) (hpos : 1 ≤ im.freeinode) (hlt : im.freeinode < nInodes)
    (type : BitVec 16) (htype : type ≠ 0) : Rest (im.addInode type) (update c im.freeinode []) where
  len := h.len
  inodes := hlt
  used_iff j := by
    rw [addInode_dinode hlt]
    show _ ↔ 1 ≤ j ∧ j < im.freeinode + 1
    by_cases hj : j = im.freeinode
    · rw [hj, update_self]
      exact iff_of_true htype ⟨hpos, Nat.lt_succ_self _⟩
    · rw [update_of_ne hj, h.used_iff]
      omega
  laid := by
    have hfree : (im.disk.dinode sb im.freeinode).type = 0 := by
      by_contra hne
      have := (h.used_iff _).mp hne
      omega
    rw [addInode_dinode hlt, shapes_update]
    exact (h.laid.addInode hfree (fun _ => rfl)).of_agree fun b hb => putInode_data hlt hb
  size j hj hjlt := by
    rw [addInode_dinode hlt]
    by_cases hji : j = im.freeinode
    · rw [hji, update_self, update_self]
      rfl
    · have hjlt' : j < im.freeinode + 1 := hjlt
      rw [update_of_ne hji, update_of_ne hji]
      exact h.size j hj (by omega)
  super := by
    rw [← h.super]
    exact putInode_super im im.freeinode { Dinode.zero with type := type, nlink := 1 }

end Inodes

/-! ## Files -/

/-- The bytes of the chunks of a file. -/
def readBytes (reads : List Chunk) : List (BitVec 8) := (reads.map Chunk.bytes).flatten

variable {im : Image} {c : Nat → List (BitVec 8)}

/-- Copying a file appends its bytes, or the program stops for want of room. -/
theorem appendReads_outcome {i : Nat} (h : Rest im c) (hpos : 1 ≤ i) (hi : i < im.freeinode)
    (reads : List Chunk) :
    (∃ im', appendReads i reads im = .ok ((), im') ∧
        Rest im' (update c i (c i ++ readBytes reads)) ∧ im'.freeinode = im.freeinode ∧
        (∀ j, (im'.disk.dinode sb j).type = (im.disk.dinode sb j).type) ∧
        im'.freeblock + blockUse (c i).length =
          im.freeblock + blockUse ((c i).length + (readBytes reads).length)) ∨
      ∃ e, appendReads i reads im = .error e ∧ NoRoom im (c i).length (readBytes reads).length := by
  induction reads generalizing im c with
  | nil =>
    refine .inl ⟨im, rfl, ?_, rfl, fun _ => rfl, rfl⟩
    rw [readBytes, List.map_nil, List.flatten_nil, List.append_nil, update_eq_self]
    exact h
  | cons chunk reads ih =>
    have hbytes : readBytes (chunk :: reads) = chunk.bytes ++ readBytes reads := rfl
    have hlen : (c i ++ chunk.bytes).length = (c i).length + chunk.bytes.length :=
      List.length_append
    have hsum : (c i).length + chunk.bytes.length + (readBytes reads).length =
        (c i).length + (readBytes (chunk :: reads)).length := by
      rw [hbytes, List.length_append, Nat.add_assoc]
    have hmono : blockUse ((c i).length + chunk.bytes.length) ≤
        blockUse ((c i).length + (readBytes (chunk :: reads)).length) :=
      blockUse_mono (by omega)
    rw [appendReads]
    rcases iappend_outcome h hpos hi chunk.bytes with ⟨im', hrun, hrest, hino, htype, hfree⟩ |
      ⟨e, hrun, hroom⟩
    · have htail := ih hrest (by rw [hino]; exact hi)
      unfold NoRoom at htail
      rw [update_self, update_idem, List.append_assoc, ← hbytes, hlen, hsum] at htail
      rw [bind_of_ok hrun]
      rcases htail with ⟨im'', hrun', hrest', hino', htype', hfree'⟩ | ⟨e, hrun', hroom⟩
      · exact .inl ⟨im'', hrun', hrest', hino'.trans hino,
          fun j => (htype' j).trans (htype j), by omega⟩
      · refine .inr ⟨e, hrun', ?_⟩
        unfold NoRoom
        omega
    · rw [bind_of_error hrun]
      refine .inr ⟨e, rfl, ?_⟩
      unfold NoRoom at *
      omega

/-- What stops `mkfs` at a file: it cannot be opened, its name holds a slash, or it is too
long. -/
def InputFile.Accepted (f : InputFile) : Prop :=
  0x2f ∉ f.shortname.bytes ∧ f.reads.isSome ∧ f.contents.length ≤ maxFile * bsize

instance (f : InputFile) : Decidable f.Accepted := inferInstanceAs (Decidable (_ ∧ _))

/-- The directory entries of files, numbered from `inum` on. -/
def dirents (inum : Nat) : List InputFile → List Dirent
  | [] => []
  | f :: rest => Dirent.make inum f.entryName :: dirents (inum + 1) rest

/-- The bytes of the directory entries of files, numbered from `inum` on. -/
def entries (inum : Nat) (files : List InputFile) : List (BitVec 8) :=
  ((dirents inum files).map Dirent.bytes).flatten

theorem entries_cons (inum : Nat) (f : InputFile) (files : List InputFile) :
    entries inum (f :: files) = (Dirent.make inum f.entryName).bytes ++ entries (inum + 1) files :=
  rfl

theorem length_entries (inum : Nat) (files : List InputFile) :
    (entries inum files).length = 16 * files.length := by
  induction files generalizing inum with
  | nil => rfl
  | cons f files ih =>
    rw [entries_cons, List.length_append, Dirent.length_bytes, ih, List.length_cons]
    omega

/-- Blocks that the contents of files take. -/
def fileUse (files : List InputFile) : Nat := (files.map fun f => blockUse f.contents.length).sum

/-- What is added to an image by a list of files. -/
structure Added (im im' : Image) (c c' : Nat → List (BitVec 8)) (files : List InputFile) : Prop where
  rest : Rest im' c'
  freeinode : im'.freeinode = im.freeinode + files.length
  freeblock : im'.freeblock + blockUse (c rootIno).length =
    im.freeblock + blockUse ((c rootIno).length + 16 * files.length) + fileUse files
  root : c' rootIno = c rootIno ++ entries im.freeinode files
  contents : ∀ k (hk : k < files.length), c' (im.freeinode + k) = (files.get ⟨k, hk⟩).contents
  old : ∀ j, j ≠ rootIno → j < im.freeinode → c' j = c j
  type : ∀ j < im.freeinode, (im'.disk.dinode sb j).type = (im.disk.dinode sb j).type

/-- One file is added, or the program stops and the file or the number of blocks is the reason. -/
theorem addFile_outcome (h : Rest im c) (hroot : rootIno < im.freeinode)
    (hlt : im.freeinode < nInodes) (f : InputFile) :
    (∃ im' c', addFile rootIno f im = .ok ((), im') ∧ f.Accepted ∧ Added im im' c c' [f]) ∨
      ∃ e, addFile rootIno f im = .error e ∧
        (¬f.Accepted ∨ maxFile * bsize < (c rootIno).length + 16 ∨
          fssize + blockUse (c rootIno).length <
            im.freeblock + blockUse ((c rootIno).length + 16) + fileUse [f]) := by
  have huse : fileUse [f] = blockUse f.contents.length := by simp [fileUse]
  unfold addFile
  by_cases hslash : 0x2f ∉ f.shortname.bytes
  swap
  · rw [bind_of_error (assert_of_false hslash im)]
    exact .inr ⟨_, rfl, .inl fun hacc => hslash hacc.1⟩
  rw [bind_of_ok (assert_of_true hslash im)]
  cases hreads : f.reads with
  | none =>
    refine .inr ⟨.exit, rfl, .inl ?_⟩
    rintro ⟨-, hopen, -⟩
    simp [hreads] at hopen
  | some reads =>
    have hcontents : f.contents = readBytes reads := by
      rw [InputFile.contents, hreads]
      rfl
    have hne : rootIno ≠ im.freeinode := by omega
    have h1 := h.addInode (by omega) hlt tFile (by decide)
    show (∃ im' c', (ialloc tFile >>= _) im = _ ∧ _) ∨ ∃ e, (ialloc tFile >>= _) im = _ ∧ _
    rw [bind_of_ok (ialloc_of_lt h.len hlt tFile)]
    have happend := iappend_outcome h1 (i := rootIno) le_rfl (by exact Nat.lt_succ_of_lt hroot)
      (Dirent.make im.freeinode f.entryName).bytes
    rw [update_of_ne hne, Dirent.length_bytes] at happend
    rcases happend with ⟨im2, hrun2, h2, hino2, htype2, hfree2⟩ | ⟨e, hrun2, hroom⟩
    · rw [bind_of_ok hrun2]
      have hi2 : im.freeinode < im2.freeinode := by
        rw [hino2]
        exact Nat.lt_succ_self _
      have hreads2 := appendReads_outcome h2 (i := im.freeinode) (by omega) hi2 reads
      rw [update_of_ne hne.symm, update_self, List.nil_append, ← hcontents,
        List.length_nil, Nat.zero_add] at hreads2
      have hfb : (im.addInode tFile).freeblock = im.freeblock := rfl
      have hzero : blockUse 0 = 0 := rfl
      rcases hreads2 with ⟨im3, hrun3, h3, hino3, htype3, hfree3⟩ | ⟨e, hrun3, hroom⟩
      · refine .inl ⟨im3, _, hrun3, ⟨hslash, by simp [hreads], ?_⟩, h3, ?_, ?_, ?_, ?_, ?_, ?_⟩
        · have hlen := h3.length_le (i := im.freeinode) (by omega) (by rw [hino3]; exact hi2)
          rwa [update_self] at hlen
        · rw [hino3, hino2]
          rfl
        · rw [huse, List.length_singleton, Nat.mul_one]
          omega
        · rw [update_of_ne hne, update_self]
          rfl
        · intro k hk
          have hk0 : k = 0 := by
            rw [List.length_singleton] at hk
            omega
          subst hk0
          exact update_self ..
        · intro j hj hjlt
          rw [update_of_ne (by omega), update_of_ne hj, update_of_ne (by omega)]
        · intro j hj
          rw [htype3, htype2, addInode_dinode hlt, update_of_ne (by omega)]
      · refine .inr ⟨e, hrun3, ?_⟩
        unfold NoRoom at hroom
        rw [Nat.zero_add] at hroom
        by_cases hacc : f.contents.length ≤ maxFile * bsize
        · refine .inr (.inr ?_)
          rw [huse]
          omega
        · exact .inl fun h => hacc h.2.2
    · rw [bind_of_error hrun2]
      refine .inr ⟨e, rfl, .inr ?_⟩
      have hfb : (im.addInode tFile).freeblock = im.freeblock := rfl
      unfold NoRoom at hroom
      rw [hfb] at hroom
      omega

theorem Added.nil (h : Rest im c) : Added im im c c [] where
  rest := h
  freeinode := rfl
  freeblock := by simp [fileUse]
  root := by simp [entries, dirents]
  contents k hk := absurd hk (Nat.not_lt_zero k)
  old _ _ _ := rfl
  type _ _ := rfl

theorem Added.cons {im1 im' : Image} {c1 c' : Nat → List (BitVec 8)} {f : InputFile}
    {files : List InputFile} (hroot : rootIno < im.freeinode) (h : Added im im1 c c1 [f])
    (h' : Added im1 im' c1 c' files) : Added im im' c c' (f :: files) := by
  have hino : im1.freeinode = im.freeinode + 1 := h.freeinode
  have hlen : (c1 rootIno).length = (c rootIno).length + 16 := by
    rw [h.root, List.length_append, length_entries, List.length_singleton]
  constructor
  · exact h'.rest
  · rw [h'.freeinode, hino, List.length_cons]
    omega
  · have hfirst := h.freeblock
    have hrest := h'.freeblock
    have huse : fileUse (f :: files) = fileUse [f] + fileUse files := by simp [fileUse]
    have hsum : (c rootIno).length + 16 + 16 * files.length =
        (c rootIno).length + 16 * (f :: files).length := by
      rw [List.length_cons]
      omega
    rw [List.length_singleton, Nat.mul_one] at hfirst
    rw [hlen, hsum] at hrest
    omega
  · rw [h'.root, h.root, hino, List.append_assoc]
    rfl
  · intro k hk
    cases k with
    | zero =>
      have hfirst := h.contents 0 (by simp)
      rw [h'.old _ (by omega) (by omega)]
      exact hfirst
    | succ k =>
      have hrest := h'.contents k (by simpa using hk)
      rw [hino, Nat.add_assoc, Nat.add_comm 1 k] at hrest
      exact hrest
  · intro j hj hjlt
    rw [h'.old j hj (by omega), h.old j hj hjlt]
  · intro j hj
    rw [h'.type j (by omega), h.type j hj]

/-- The files are added in order, or the program stops and a file or the number of blocks is the
reason. -/
theorem addFiles_outcome (h : Rest im c) (hroot : rootIno < im.freeinode) (files : List InputFile)
    (hlt : im.freeinode + files.length ≤ nInodes) :
    (∃ im' c', addFiles rootIno files im = .ok ((), im') ∧ (∀ f ∈ files, f.Accepted) ∧
        Added im im' c c' files) ∨
      ∃ e, addFiles rootIno files im = .error e ∧
        ((∃ f ∈ files, ¬f.Accepted) ∨ maxFile * bsize < (c rootIno).length + 16 * files.length ∨
          fssize + blockUse (c rootIno).length <
            im.freeblock + blockUse ((c rootIno).length + 16 * files.length) + fileUse files) := by
  induction files generalizing im c with
  | nil => exact .inl ⟨im, c, rfl, by simp, Added.nil h⟩
  | cons f files ih =>
    have huse : fileUse (f :: files) = fileUse [f] + fileUse files := by simp [fileUse]
    have hmono : blockUse ((c rootIno).length + 16) ≤
        blockUse ((c rootIno).length + 16 * (f :: files).length) :=
      blockUse_mono (by rw [List.length_cons]; omega)
    have hcons : (f :: files).length = files.length + 1 := List.length_cons
    rw [addFiles]
    rcases addFile_outcome h hroot (by omega) f with ⟨im1, c1, hrun, hacc, hadded⟩ |
      ⟨e, hrun, hwhy⟩
    · have hino : im1.freeinode = im.freeinode + 1 := hadded.freeinode
      have hlen : (c1 rootIno).length = (c rootIno).length + 16 := by
        rw [hadded.root, List.length_append, length_entries, List.length_singleton]
      have hsum : (c rootIno).length + 16 + 16 * files.length =
          (c rootIno).length + 16 * (f :: files).length := by omega
      have hfree := hadded.freeblock
      have htail := ih hadded.rest (by omega) (by omega)
      rw [hlen, hsum] at htail
      rw [List.length_singleton, Nat.mul_one] at hfree
      rw [bind_of_ok hrun]
      rcases htail with ⟨im', c', hrun', hacc', hadded'⟩ | ⟨e, hrun', hwhy⟩
      · refine .inl ⟨im', c', hrun', ?_, hadded.cons hroot hadded'⟩
        intro g hg
        rcases List.mem_cons.mp hg with rfl | hg
        · exact hacc
        · exact hacc' g hg
      · refine .inr ⟨e, hrun', ?_⟩
        rcases hwhy with ⟨g, hg, hnot⟩ | hlong | hfull
        · exact .inl ⟨g, List.mem_cons_of_mem _ hg, hnot⟩
        · exact .inr (.inl hlong)
        · exact .inr (.inr (by omega))
    · rw [bind_of_error hrun]
      refine .inr ⟨e, rfl, ?_⟩
      rcases hwhy with hnot | hlong | hfull
      · exact .inl ⟨f, List.mem_cons_self, hnot⟩
      · exact .inr (.inl (by omega))
      · exact .inr (.inr (by omega))

/-! ## The root directory -/

/-- Writing zeroes makes the empty image as long as it has to be. -/
theorem zeroSectors_apply (hzero : im.disk = fun _ => Block.zero) {n : Nat} (hn : n ≤ fssize) :
    zeroSectors n im = .ok ((), { im with len := max im.len n }) := by
  induction n with
  | zero =>
    rw [Nat.max_zero]
    rfl
  | succ n ih =>
    have hsector : sectorBlock n = n := sectorBlock_of_lt (by simp only [fssize] at hn; omega)
    rw [zeroSectors, bind_of_ok (ih (by omega)), wsect, modify_apply, hsector]
    have hdisk : update im.disk n Block.zero = im.disk := by rw [hzero, update_eq_self_iff]
    have hlen : max (max im.len n) (n + 1) = max im.len (n + 1) := by omega
    show Except.ok ((), Image.mk (update im.disk n Block.zero)
      (max (max im.len n) (n + 1)) im.freeinode im.freeblock) = _
    rw [hdisk, hlen]

/-- The image before the first inode is taken. -/
def blank : Image := ⟨update (fun _ => Block.zero) 1 sb.encode, fssize, 1, nmeta⟩

theorem blank_disk {b : Nat} (hb : 1 < b) : blank.disk b = Block.zero := by
  show update (fun _ => Block.zero) 1 sb.encode b = Block.zero
  rw [update_of_ne (by omega)]

theorem blank_type (i : Nat) : (blank.disk.dinode sb i).type = 0 := by
  unfold Disk.dinode
  split
  next =>
      have hzero : Block.dinode Block.zero (i % ipb) = Dinode.zero :=
        Block.dinode_of_zero fun _ _ _ => rfl
      rw [blank_disk (one_lt_iblock i), hzero]
      rfl
  next => rfl

theorem rest_blank : Rest blank fun _ => [] where
  len := rfl
  inodes := by decide
  used_iff i := by
    have hfree : blank.freeinode = 1 := rfl
    rw [hfree]
    exact iff_of_false (fun hne => hne (blank_type i)) (by omega)
  laid := by
    constructor
    · apply Exclusive.of_none
      · intro p
        exact Dinode.ref_of_free (blank_type p.1)
      · intro b hb
        exact Nat.not_lt.mpr (Laid.isData_iff.mp hb).1
    · exact le_rfl
    · decide
    · intro b hb x _
      have hlt : 1 < b := lt_of_lt_of_le (by decide) (show nmeta ≤ b from hb)
      rw [blank_disk hlt]
      rfl
    · intro i hi
      exact absurd (blank_type i) hi
  size i hi hlt := absurd hlt (Nat.not_lt.mpr hi)
  super := by
    show update (fun _ => Block.zero) 1 sb.encode 1 = sb.encode
    rw [update_self]

/-- The bytes of the first two entries of the root directory. -/
def dotEntries : List (BitVec 8) :=
  (Dirent.make rootIno dot).bytes ++ (Dirent.make rootIno dotdot).bytes

theorem length_dotEntries : dotEntries.length = 32 := by
  rw [dotEntries, List.length_append, Dirent.length_bytes, Dirent.length_bytes]

theorem makeRoot_outcome :
    ∃ im c, makeRoot Image.start = .ok (rootIno, im) ∧ Rest im c ∧ im.freeinode = 2 ∧
      im.freeblock = nmeta + 1 ∧ c rootIno = dotEntries ∧
      (im.disk.dinode sb rootIno).type = tDir := by
  have hzero : zeroSectors fssize Image.start = .ok ((), { Image.start with len := fssize }) :=
    zeroSectors_apply rfl le_rfl
  have hblank : wsect 1 sb.encode { Image.start with len := fssize } = .ok ((), blank) :=
    wsect_of_lt rfl (by decide) _
  have hialloc : ialloc tDir blank = .ok (rootIno, blank.addInode tDir) :=
    ialloc_of_lt rfl (by decide) tDir
  have hempty : update (fun _ => []) blank.freeinode [] =
      fun _ : Nat => ([] : List (BitVec 8)) := update_eq_self ..
  have h0 := rest_blank.addInode le_rfl (by decide) tDir (by decide)
  rw [hempty] at h0
  have hfull : ∀ im : Image, im.freeblock ≤ nmeta + 1 → ∀ len n, len + n ≤ 32 →
      ¬NoRoom im len n := by
    intro im hle len n hlen
    have hblock : blockUse (len + n) ≤ blockUse 32 := blockUse_mono hlen
    have hone : blockUse 32 = 1 := rfl
    simp only [NoRoom, nmeta, fssize, maxFile, bsize, nlog, ninodeblocks, nInodes, ipb,
      nbitmap] at *
    omega
  -- the first entry takes a block, the second one fits behind it
  have hfirst := iappend_outcome h0 (i := rootIno) le_rfl (by decide) (Dirent.make rootIno dot).bytes
  rw [List.nil_append, List.length_nil, Dirent.length_bytes] at hfirst
  rcases hfirst with ⟨im1, hrun1, h1, hino1, htype1, hfree1⟩ | ⟨e, -, hroom⟩
  swap
  · exact absurd hroom (hfull _ (Nat.le_succ _) _ _ (by decide))
  have hsize1 : im1.freeblock = nmeta + 1 := hfree1
  have hlt1 : rootIno < im1.freeinode := by
    rw [hino1]
    decide
  have hsecond := iappend_outcome h1 (i := rootIno) le_rfl hlt1 (Dirent.make rootIno dotdot).bytes
  rw [update_self, update_idem, Dirent.length_bytes, Dirent.length_bytes]
    at hsecond
  rcases hsecond with ⟨im2, hrun2, h2, hino2, htype2, hfree2⟩ | ⟨e, -, hroom⟩
  swap
  · exact absurd hroom (hfull _ hsize1.le _ _ (by decide))
  have hsize2 : im2.freeblock + 1 = im1.freeblock + 1 := hfree2
  refine ⟨im2, _, ?_, h2, ?_, by omega, update_self .., ?_⟩
  · unfold makeRoot
    rw [bind_of_ok hzero, bind_of_ok hblank, bind_of_ok hialloc,
      bind_of_ok (assert_of_true rfl _), bind_of_ok hrun1, bind_of_ok hrun2]
    rfl
  · rw [hino2, hino1]
    rfl
  · rw [htype2, htype1, addInode_dinode (by decide)]
    rfl

/-! ## The whole program -/

/-- The bytes of the root directory. -/
def rootBytes (files : List InputFile) : List (BitVec 8) := dotEntries ++ entries 2 files

theorem length_rootBytes (files : List InputFile) :
    (rootBytes files).length = 16 * (files.length + 2) := by
  rw [rootBytes, List.length_append, length_dotEntries, length_entries]
  omega

/-- The size of the root directory after it is rounded up. -/
def rootSize (files : List InputFile) : Nat := (16 * (files.length + 2) / bsize + 1) * bsize

/-- Blocks of the image that are taken in the end. -/
def totalUse (files : List InputFile) : Nat :=
  nmeta + blockUse (16 * (files.length + 2)) + fileUse files

/-- What the image of a list of files holds. -/
structure Final (im : Image) (c : Nat → List (BitVec 8)) (files : List InputFile) : Prop where
  freeinode : im.freeinode = files.length + 2
  freeblock : im.freeblock = totalUse files
  used_iff : ∀ i, (im.disk.dinode sb i).type ≠ 0 ↔ 1 ≤ i ∧ i < im.freeinode
  laid : Laid (im.disk.dinode sb) im.disk im.freeblock (shapes c) c
  size_root : (im.disk.dinode sb rootIno).size.toNat = rootSize files
  size : ∀ i, 2 ≤ i → i < im.freeinode → (im.disk.dinode sb i).size.toNat = (c i).length
  type_root : (im.disk.dinode sb rootIno).type = tDir
  super : im.disk 1 = sb.encode
  bits : ∀ b < bpb, sb.marked im.disk b = decide (b < im.freeblock)
  root : c rootIno = rootBytes files
  contents : ∀ k (hk : k < files.length), c (2 + k) = (files.get ⟨k, hk⟩).contents

theorem bit_foldl_setBit (used i : Nat) :
    ((List.range used).foldl Block.setBit Block.zero).bit i = decide (i < used) := by
  induction used with
  | zero => simp [Block.bit, Block.zero]
  | succ n ih =>
    rw [List.range_succ, List.foldl_append, List.foldl_cons, List.foldl_nil, Block.bit_setBit, ih,
      ← Bool.decide_or]
    congr 1
    simp only [eq_iff_iff]
    omega

/-- The size of the root directory is rounded up and the free map written. -/
theorem finish_outcome (h : Rest im c) (files : List InputFile)
    (hino : im.freeinode = files.length + 2) (hblock : im.freeblock = totalUse files)
    (htype : (im.disk.dinode sb rootIno).type = tDir) (hroot : c rootIno = rootBytes files)
    (hcontents : ∀ k (hk : k < files.length), c (2 + k) = (files.get ⟨k, hk⟩).contents) :
    ∃ im', (do fixSize rootIno; balloc (← get).freeblock : MkfsM Unit) im = .ok ((), im') ∧
      Final im' c files := by
  have hroom := h.laid.le
  have hroot1 : rootIno = 1 := rfl
  have hbmap : sb.bmapstart + 1 = nmeta := rfl
  have hpos : rootIno < im.freeinode := by omega
  have hi : rootIno < nInodes := h.lt hpos
  have hsize := h.size rootIno le_rfl hpos
  have hlong := h.length_le (i := rootIno) le_rfl hpos
  rw [hroot, length_rootBytes] at hsize hlong
  have hround : (BitVec.ofNat 32 (rootSize files)).toNat = rootSize files := by
    rw [BitVec.toNat_ofNat, Nat.mod_eq_of_lt]
    simp only [rootSize, maxFile, bsize] at *
    omega
  obtain ⟨ip, hip⟩ : ∃ ip : Dinode,
      ip = { im.disk.dinode sb rootIno with size := BitVec.ofNat 32 (rootSize files) } := ⟨_, rfl⟩
  obtain ⟨blk, hblk⟩ : ∃ blk : Block,
      blk = (List.range im.freeblock).foldl Block.setBit Block.zero := ⟨_, rfl⟩
  have hfix : fixSize rootIno im = .ok ((), im.putInode rootIno ip) := by
    unfold fixSize
    rw [bind_of_ok (rinode_of_lt h.len hi), hsize, hip]
    exact winode_of_lt h.len hi _
  have hballoc : balloc im.freeblock (im.putInode rootIno ip) =
      .ok ((), (im.putInode rootIno ip).put sb.bmapstart blk) := by
    unfold balloc
    rw [bind_of_ok (assert_of_true (by simp only [fssize, bsize] at *; omega) _), hblk]
    apply wsect_of_lt
    · exact h.len
    · decide
  -- neither write touches a data block, and the free map holds no inode
  have hdinode : ((im.putInode rootIno ip).put sb.bmapstart blk).disk.dinode sb =
      update (im.disk.dinode sb) rootIno ip := by
    rw [← putInode_dinode hi]
    apply Disk.dinode_of_agree
    intro j hj
    have hlt := iblock_lt hj
    exact update_of_ne (by omega) ..
  have hdata : ∀ b, nmeta ≤ b →
      ((im.putInode rootIno ip).put sb.bmapstart blk).disk b = im.disk b := by
    intro b hb
    rw [Image.put_disk, update_of_ne (by omega), putInode_data hi hb]
  refine ⟨(im.putInode rootIno ip).put sb.bmapstart blk, ?_, ?_⟩
  · rw [bind_of_ok hfix, bind_of_ok (get_apply _)]
    exact hballoc
  constructor
  · exact hino
  · exact hblock
  · intro j
    rw [hdinode]
    show _ ↔ 1 ≤ j ∧ j < im.freeinode
    rw [← h.used_iff j]
    by_cases hj : j = rootIno
    · rw [hj, update_self, hip]
    · rw [update_of_ne hj]
  · rw [hdinode]
    apply (h.laid.setInode ip _ _).of_agree hdata
    · rw [hip]
    · rw [hip]
  · rw [hdinode, update_self, hip]
    exact hround
  · intro j hj hlt
    have hlt' : j < im.freeinode := hlt
    rw [hdinode, update_of_ne (show j ≠ rootIno by omega)]
    exact h.size j (by omega) hlt'
  · rw [hdinode, update_self, hip]
    exact htype
  · rw [Image.put_disk, update_of_ne (by decide), putInode_super]
    exact h.super
  · intro b hb
    have hbb : sb.bblock b = sb.bmapstart := by
      rw [Superblock.bblock, Nat.div_eq_of_lt hb, Nat.zero_add]
    rw [Superblock.marked, hbb, Image.put_disk, update_self, Nat.mod_eq_of_lt hb, hblk]
    exact bit_foldl_setBit im.freeblock b
  · exact hroot
  · exact hcontents

/-- With few enough files the program writes their image, or it stops and a file or the number of
blocks is the reason. -/
theorem mkfs_outcome (files : List InputFile) (hfiles : files.length + 2 ≤ nInodes) :
    (∃ im c, mkfs files = .ok im ∧ (∀ f ∈ files, f.Accepted) ∧ Final im c files) ∨
      ∃ e, mkfs files = .error e ∧ ((∃ f ∈ files, ¬f.Accepted) ∨ fssize < totalUse files) := by
  obtain ⟨im, c, hrun, h, hino, hblock, hroot, htype⟩ := makeRoot_outcome
  have hlen : (c rootIno).length = 32 := by rw [hroot, length_dotEntries]
  have hsum : 32 + 16 * files.length = 16 * (files.length + 2) := by omega
  have hroot1 : rootIno = 1 := rfl
  have hadd := addFiles_outcome h (by omega) files (by omega)
  rw [hlen, hsum] at hadd
  unfold mkfs main
  rw [bind_of_ok hrun]
  rcases hadd with ⟨im', c', hrun', hacc, hadded⟩ | ⟨e, hrun', hwhy⟩
  · left
    have hfree := hadded.freeblock
    have hone : blockUse 32 = 1 := rfl
    rw [hlen, hsum] at hfree
    obtain ⟨im'', hfinish, hfinal⟩ := finish_outcome hadded.rest files
      (by rw [hadded.freeinode]; omega) (by unfold totalUse; omega)
      (by rw [hadded.type _ (by omega)]; exact htype)
      (by rw [hadded.root, hroot, hino]; rfl)
      (by rw [← hino]; exact hadded.contents)
    rw [bind_of_ok hrun', hfinish]
    exact ⟨im'', c', rfl, hacc, hfinal⟩
  · right
    rw [bind_of_error hrun']
    refine ⟨e, rfl, ?_⟩
    rcases hwhy with hnot | hlong | hfull
    · exact .inl hnot
    · simp only [maxFile, bsize, nInodes] at *
      omega
    · have hone : blockUse 32 = 1 := rfl
      right
      unfold totalUse
      omega

theorem mkfs_of_fits (files : List InputFile) (hfiles : files.length + 2 ≤ nInodes)
    (hacc : ∀ f ∈ files, f.Accepted) (hfit : totalUse files ≤ fssize) :
    ∃ im c, mkfs files = .ok im ∧ Final im c files := by
  rcases mkfs_outcome files hfiles with ⟨im, c, hrun, -, hfinal⟩ | ⟨e, -, ⟨f, hf, hnot⟩ | hfull⟩
  · exact ⟨im, c, hrun, hfinal⟩
  · exact absurd (hacc f hf) hnot
  · exact absurd hfit (Nat.not_le.mpr hfull)

end Mkfs
end Fs
end FastIpc
