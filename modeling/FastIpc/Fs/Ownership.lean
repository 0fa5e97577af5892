import FastIpc.Foundation.Run
import FastIpc.Fs.Truncation

/-!
# Who owns a block

Sequences of inode calls on a file system.  Each call runs with its inode locked; the copy in memory
is what is on disk, since every call that changes it writes it back.

Main results:

- Theorem `Call.run_spec`: a call keeps the file system consistent.
- Theorem `calls_keep_ownership`: blocks in use are referred to once, after all calls.
-/

namespace FastIpc
namespace Fs

open Foundation FaultM

/-! ## Calls -/

/-- Run code with an inode locked. -/
def withInode {α : Type} (sb : Superblock) (inum : Nat) (x : InodeM α) : FsM α := do
  let ip := ((← get).disk (sb.iblock inum)).dinode (inum % ipb)
  if ip.type = 0 then throw "ilock: no type"
  else zoom (fun s => ⟨s, ip⟩) (fun c _ => c.store) x

/-- The calls that change inodes.  `last` says that the reference dropped by `iput` is the
only one and that the inode is valid. -/
inductive Call (sb : Superblock) where
  | ialloc (type : BitVec 16)
  | writei (inum : Fin sb.ninodes) (src : Source) (off n : BitVec 32)
  | itrunc (inum : Fin sb.ninodes)
  | iput (inum : Fin sb.ninodes) (last : Bool)

namespace Call

variable {sb : Superblock}

/-- The inode a call works on. -/
def inode : Call sb → Option Nat
  | .ialloc _ => none
  | .writei inum .. => some inum
  | .itrunc inum => some inum
  | .iput inum _ => some inum

/-- Make a call. -/
def run : Call sb → FsM Unit
  | .ialloc type => do
    let _ ← Fs.ialloc sb type
  | .writei inum src off n => withInode sb inum do
    let _ ← Fs.writei sb inum src off n
  | .itrunc inum => withInode sb inum (Fs.itrunc sb inum)
  | .iput inum last =>
    if last then withInode sb inum do
      if (← get).ip.nlink = 0 then ifree sb inum
    else return

end Call

/-- A call that returns. -/
def step (sb : Superblock) (s : Store) (call : Call sb) : Option Store :=
  match call.run s with
  | .ok (_, s') => some s'
  | .error _ => none

/-! ## One call -/

variable {sb : Superblock}

/-- A byte of a file. -/
def Disk.fileByte (sb : Superblock) (d : Disk) (i off : Nat) : BitVec 8 :=
  byteAt ((d.dinode sb i).ref d) d off

/-- The file system stays consistent, and all files but one stay as they are. -/
def Preserved (sb : Superblock) (i : Option Nat) (d d' : Disk) : Prop :=
  Consistent sb d' ∧ ∀ j, (d.dinode sb j).type ≠ 0 → i ≠ some j →
    d'.dinode sb j = d.dinode sb j ∧ ∀ off, d'.fileByte sb j off = d.fileByte sb j off

theorem Preserved.refl {d : Disk} (i : Option Nat) (hcons : Consistent sb d) : Preserved sb i d d :=
  ⟨hcons, fun _ _ _ => ⟨rfl, fun _ => rfl⟩⟩

variable {i : Nat} {s : Store}

theorem Preserved.of_keeps {d d' : Disk} (hcons : Consistent sb d') (hkeeps : Keeps sb i d d') :
    Preserved sb (some i) d d' := by
  refine ⟨hcons, ?_⟩
  intro j _ hj
  have hne : j ≠ i := by
    intro hji
    exact hj (by rw [hji])
  exact ⟨hkeeps.dinode j hne, hkeeps.byte_eq hne⟩

/-- The inode on disk is a proper start for code that works on it. -/
theorem Consistent.open (hcons : Consistent sb s.disk) (hi : i < sb.ninodes)
    (htype : (s.disk.dinode sb i).type ≠ 0) : Open sb i ⟨s, s.disk.dinode sb i⟩ := by
  refine ⟨hi, htype, ?_⟩
  rw [Ctx.view, Function.update_eq_self]
  exact hcons

/-- Code on a locked inode keeps what it keeps of the context. -/
theorem withInode_spec {α : Type} {x : InodeM α} {E : String → Prop}
    {Q : α → Store → Prop} (hi : i < sb.ninodes) (hcons : Consistent sb s.disk)
    (hE : E "ilock: no type")
    (hx : Open sb i ⟨s, s.disk.dinode sb i⟩ →
      wp x (fun a c' => Q a c'.store) E ⟨s, s.disk.dinode sb i⟩) :
    wp (withInode sb i x) Q E s := by
  unfold withInode
  rw [wp_bind, wp_get]
  dsimp only
  rw [← Disk.dinode_of_lt hi]
  by_cases htype : (s.disk.dinode sb i).type = 0
  · rw [if_pos htype]
    exact hE
  · rw [if_neg htype, wp_zoom]
    exact hx (hcons.open hi htype)

/-- The panics that a call can end with. -/
def Expected (e : String) : Prop :=
  e = "balloc: out of blocks" ∨ e = "ialloc: no inodes" ∨ e = "ilock: no type"

theorem Call.run_spec (hsb : sb.Layout) (hcons : Consistent sb s.disk) (call : Call sb) :
    wp call.run (fun _ s' => Preserved sb call.inode s.disk s'.disk) Expected s := by
  cases call with
  | ialloc type =>
    unfold Call.run
    rw [wp_bind]
    apply wp_mono (ialloc_spec hsb hcons type)
    · rintro inum s' ⟨-, hfree, -, hcons', hkeeps⟩
      refine ⟨hcons', ?_⟩
      intro j hj _
      have hne : j ≠ inum := by
        intro hji
        rw [hji] at hj
        exact hj hfree
      exact ⟨hkeeps.dinode j hne, hkeeps.byte_eq hne⟩
    · exact fun e he => .inr (.inl he)
  | writei inum src off n =>
    unfold Call.run
    apply withInode_spec inum.isLt hcons (.inr (.inr rfl))
    intro ho
    rw [wp_bind]
    apply wp_mono (writei_spec hsb ho src off n)
    · intro r c' hwrite
      rw [wp_pure]
      split at hwrite
      next =>
        obtain ⟨tot, fin, f, -, -, hstored⟩ := hwrite
        exact Preserved.of_keeps hstored.consistent hstored.toWrote.keeps
      next =>
        rw [hwrite.2]
        exact Preserved.refl _ hcons
    · exact fun e he => .inl he.1
  | itrunc inum =>
    unfold Call.run
    apply withInode_spec inum.isLt hcons (.inr (.inr rfl))
    intro ho
    apply wp_mono (itrunc_spec hsb ho)
    · intro _ c' htrunc
      exact Preserved.of_keeps htrunc.consistent htrunc.keeps
    · exact fun _ he => he.elim
  | iput inum last =>
    unfold Call.run
    cases last with
    | false => exact Preserved.refl _ hcons
    | true =>
      apply withInode_spec inum.isLt hcons (.inr (.inr rfl))
      intro ho
      rw [wp_bind, wp_get]
      split
      next =>
        apply wp_mono (ifree_spec hsb ho)
        · rintro _ c' ⟨-, hcons', hkeeps⟩
          exact Preserved.of_keeps hcons' hkeeps
        · exact fun _ he => he.elim
      next => exact Preserved.refl _ hcons

/-! ## Sequences of calls -/

theorem Consistent.of_run {s' : Store} {calls : List (Call sb)} (hsb : sb.Layout)
    (hrun : Run (StepOf (step sb)) s calls s') (hcons : Consistent sb s.disk) :
    Consistent sb s'.disk := by
  induction hrun with
  | nil => exact hcons
  | @snoc _ u _ call _ hstep ih =>
    unfold StepOf step at hstep
    split at hstep
    next r v hrun =>
      cases hstep
      exact (wp_of_ok (Call.run_spec hsb ih call) hrun).1
    next => cases hstep

/-- From a consistent file system on, after every sequence of calls: a block that an inode refers
to is a data block and referred to from one place only; the bit of a data block is set exactly if
some inode refers to it; and the next call does not release a free block and changes no other
file. -/
theorem calls_keep_ownership {s s' : Store} {calls : List (Call sb)} (hsb : sb.Layout)
    (hcons : Consistent sb s.disk) (hrun : Run (StepOf (step sb)) s calls s') :
    (∀ i t b, (s'.disk.dinode sb i).ref s'.disk t = some b →
      sb.IsData b ∧ ∀ j u, (s'.disk.dinode sb j).ref s'.disk u = some b → j = i ∧ u = t) ∧
    (∀ b, sb.IsData b →
      (sb.marked s'.disk b = true ↔ ∃ i t, (s'.disk.dinode sb i).ref s'.disk t = some b)) ∧
    ∀ call : Call sb, call.run s' ≠ .error "freeing free block" ∧
      ∀ s'', call.run s' = .ok ((), s'') → ∀ j, (s'.disk.dinode sb j).type ≠ 0 →
        call.inode ≠ some j → s''.disk.dinode sb j = s'.disk.dinode sb j ∧
          ∀ off, s''.disk.fileByte sb j off = s'.disk.fileByte sb j off := by
  have hcons' := Consistent.of_run hsb hrun hcons
  have howned := hcons'.owned
  refine ⟨?_, ?_, ?_⟩
  · intro i t b hb
    refine ⟨howned.cell_of_ref (p := (i, t)) hb, ?_⟩
    intro j u hu
    have hplace := howned.unique (p := (j, u)) (q := (i, t)) hu hb
    exact ⟨congrArg Prod.fst hplace, congrArg Prod.snd hplace⟩
  · intro b hb
    rw [howned.marked_iff hb]
    exact Prod.exists
  · intro call
    have hspec := Call.run_spec hsb hcons' call
    constructor
    · intro herror
      have hexpected := wp_of_error hspec herror
      simp [Expected] at hexpected
    · intro s'' hok
      exact (wp_of_ok hspec hok).2

/-- A file system of 24 blocks, of which the last twenty are data blocks. -/
def tinySuper : Superblock :=
  { magic := fsMagic, size := 24, nblocks := 20, ninodes := 8, nlog := 0, logstart := 2,
    inodestart := 2, bmapstart := 3 }

/-- The empty file system: the free map has the first four blocks. -/
def tinyDisk : Disk := Function.update (fun _ => Block.zero) 3 fun x => if x = 0 then 15 else 0

theorem tinyDisk_free (i : Nat) : (tinyDisk.dinode tinySuper i).type = 0 := by
  by_cases hi : i < tinySuper.ninodes
  · have hall : ∀ i < 8, (tinyDisk.dinode tinySuper i).type = 0 := by decide
    exact hall i hi
  · unfold Disk.dinode
    rw [if_neg hi]
    rfl

theorem tinySuper_layout : tinySuper.Layout := ⟨by decide, by decide, by decide, by decide⟩

theorem tinyDisk_consistent : Consistent tinySuper tinyDisk := by
  constructor
  · apply Exclusive.of_none
    · intro p
      exact Dinode.ref_of_free (tinyDisk_free p.1)
    · have hall : ∀ b < 24, 4 ≤ b → ¬tinySuper.marked tinyDisk b := by decide +kernel
      exact fun b hb => hall b hb.2 hb.1
  · have hall : ∀ b < 4, tinySuper.marked tinyDisk b = true := by decide
    exact hall

/-- A file is made, written and discarded. -/
def tinyCalls : List (Call tinySuper) :=
  let inum : Fin tinySuper.ninodes := ⟨1, by decide⟩
  [.ialloc 2, .writei inum (.kernel fun k => BitVec.ofNat 8 k) 0 5, .itrunc inum, .iput inum true]

theorem calls_keep_ownership_tiny : ∃ s', Run (StepOf (step tinySuper)) ⟨tinyDisk, []⟩ tinyCalls s' ∧
    ∀ b, tinySuper.IsData b → (tinySuper.marked s'.disk b = true ↔
      ∃ i t, (s'.disk.dinode tinySuper i).ref s'.disk t = some b) := by
  have hexec : (exec (step tinySuper) ⟨tinyDisk, []⟩ tinyCalls).isSome = true := by decide +kernel
  obtain ⟨s', hs'⟩ := Option.isSome_iff_exists.mp hexec
  have hrun := run_of_exec hs'
  exact ⟨s', hrun, (calls_keep_ownership tinySuper_layout tinyDisk_consistent hrun).2.1⟩

end Fs
end FastIpc
