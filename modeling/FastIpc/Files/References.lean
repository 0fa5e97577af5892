import FastIpc.Foundation.References
import FastIpc.Files.Calls
import FastIpc.Pipes.Calls
import Mathlib.Algebra.Group.Pi.Basic

/-!
# References to open files

Between two calls the reference count of every file is the number of descriptors that refer
to it.  Inside a call the running process may hold references that are in no descriptor yet,
or not any more; the invariant carries their number per file, `extra`, which the calls
take back to zero.  A pipe is alive exactly as long as a file stands for one of its ends.

Main results:

- Theorem `pipeclose_refines`: what the table knows of a pipe follows the pipe itself.
- Theorem `FileInv.fileclose`: dropping a reference that exists never panics.
- Theorem `FileInv.serve`: every call keeps the invariant.
- Theorem `references_exact`: the invariant along every run.
-/

namespace FastIpc
namespace Files

open Foundation FaultM Kernel
open Function (update update_of_ne update_self)

/-! ## Pipes and their ends -/

/-- What the file table knows of a pipe. -/
def Pipe.of (pi : Pipes.Pipe) : Pipe := ⟨pi.readopen, pi.writeopen⟩

/-- `pipeclose` does to the ends of a pipe what it does among the processes that use the pipe, and
gives its page back when the pipe is gone there. -/
theorem pipeclose_refines {P : Type} {u : Pipes.State P} {im : Image} {s t : State}
    {pa : Nat} {w : Bool} (hpipe : s.pipe pa = .of u.pipe)
    (hrun : pipeclose im pa w s = .ok ((), t)) : t.pipe pa = .of (Pipes.pipeclose u w).pipe ∧
      t.pipesFreed = if (Pipes.pipeclose u w).pipe.Freed then pa :: s.pipesFreed
        else s.pipesFreed := by
  have hclosed : (s.setPipe pa fun q => q.closed w).pipe pa = .of (Pipes.pipeclose u w).pipe := by
    simp only [State.setPipe, update_self, hpipe]
    cases w <;> rfl
  rw [pipeclose, bind_of_ok (modify_apply _ _), bind_of_ok (get_apply _)] at hrun
  simp only [hclosed] at hrun
  split at hrun
  next hfreed =>
    obtain ⟨_, v, hfree, hdone⟩ := bind_eq_ok.mp hrun
    obtain ⟨k', -, rfl⟩ := zoom_eq_ok.mp hfree
    cases hdone
    exact ⟨hclosed, (if_pos hfreed).symm⟩
  next hopen =>
    cases hrun
    exact ⟨hclosed, (if_neg hopen).symm⟩

/-- The end of a pipe that a file stands for. -/
def File.pipeEnd (q : File) : Option (Nat × Bool) :=
  if q.type = .pipe then some (q.pipe, q.writable) else none

theorem File.pipeEnd_of_pipe {q : File} (h : q.type = .pipe) :
    q.pipeEnd = some (q.pipe, q.writable) := if_pos h

theorem File.pipeEnd_of_ne {q : File} (h : q.type ≠ .pipe) : q.pipeEnd = none := if_neg h

/-- The open ends of pipes that are alive are those some file stands for, each for one, and the
pages of these pipes have been taken once more than given back. -/
structure Ends (own : Nat → Role) (s : State) : Prop where
  idle : ∀ f, (s.file f).ref = 0 → (s.file f).type = .none
  stands : ∀ pa e, (∃ f, (s.file f).pipeEnd = some (pa, e)) ↔
    own pa = .pipe ∧ (s.pipe pa).isOpen e = true
  inj : ∀ f g x, (s.file f).pipeEnd = some x → (s.file g).pipeEnd = some x → f = g
  some_open : ∀ pa, own pa = .pipe → ∃ e, (s.pipe pa).isOpen e = true
  count : ∀ pa, s.pipesMade.count pa = s.pipesFreed.count pa + if own pa = .pipe then 1 else 0

theorem Pipe.isOpen_closed {q : Pipe} {e e' : Bool} :
    (q.closed e).isOpen e' = true ↔ e' ≠ e ∧ q.isOpen e' = true := by
  cases e <;> cases e' <;> simp [closed, isOpen]

theorem Pipe.both_closed_iff {q : Pipe} :
    (q.readopen = false ∧ q.writeopen = false) ↔ ∀ e, q.isOpen e = false := by
  simp [isOpen]

namespace Ends

variable {own own' : Nat → Role} {s t : State} {f : FileId}

/-- The files that stand for ends of pipes are the same. -/
theorem congr (h : Ends own s) (hidle : ∀ f, (t.file f).ref = 0 → (t.file f).type = .none)
    (hfile : ∀ f, (t.file f).pipeEnd = (s.file f).pipeEnd)
    (hown : ∀ pa, own' pa = .pipe ↔ own pa = .pipe) (hpipe : t.pipe = s.pipe)
    (hmade : t.pipesMade = s.pipesMade) (hfreed : t.pipesFreed = s.pipesFreed) : Ends own' t where
  idle := hidle
  stands pa e := by
    rw [hown, hpipe, ← h.stands]
    simp only [hfile]
  inj f g x := by
    rw [hfile, hfile]
    exact h.inj f g x
  some_open pa hpa := by
    rw [hpipe]
    exact h.some_open pa ((hown pa).mp hpa)
  count pa := by
    rw [hmade, hfreed, h.count pa]
    simp only [hown pa]

/-- A file changes that stands for the same end of a pipe then, or for none as before. -/
theorem setFile (h : Ends own s) (f : FileId) (g : File → File)
    (hend : (g (s.file f)).pipeEnd = (s.file f).pipeEnd)
    (hidle : (g (s.file f)).ref = 0 → (g (s.file f)).type = .none) : Ends own (s.setFile f g) := by
  refine h.congr (fun f' hf' => ?_) (fun f' => ?_) (fun _ => Iff.rfl) rfl rfl rfl
  · by_cases hff : f' = f
    · subst hff
      rw [State.setFile_same] at hf' ⊢
      exact hidle hf'
    · rw [State.setFile_ne _ _ _ hff] at hf' ⊢
      exact h.idle f' hf'
  · by_cases hff : f' = f
    · rw [hff, State.setFile_same, hend]
    · rw [State.setFile_ne _ _ _ hff]

/-- The last reference to an end of a pipe is dropped.  The pipe stays alive if its other end
is open. -/
theorem close (h : Ends own s) {pi : Nat} {w : Bool} (hf : (s.file f).pipeEnd = some (pi, w))
    (hfile : t.file = update s.file f { s.file f with ref := 0, type := .none })
    (hpipe : t.pipe = update s.pipe pi ((s.pipe pi).closed w)) (hmade : t.pipesMade = s.pipesMade) :
    ((∃ e, (t.pipe pi).isOpen e = true) → t.pipesFreed = s.pipesFreed → Ends own t) ∧
      ((∀ e, (t.pipe pi).isOpen e = false) → t.pipesFreed = pi :: s.pipesFreed →
        Ends (update own pi .free) t) := by
  have hlive := (h.stands pi w).mp ⟨f, hf⟩
  have hidle : ∀ g, (t.file g).ref = 0 → (t.file g).type = .none := by
    intro g hg
    rw [hfile] at hg ⊢
    by_cases hgf : g = f
    · simp [hgf]
    · rw [update_of_ne hgf] at hg ⊢
      exact h.idle g hg
  -- The other files that stand for ends are as before.
  have hother : ∀ g x, (t.file g).pipeEnd = some x ↔ x ≠ (pi, w) ∧ (s.file g).pipeEnd = some x := by
    intro g x
    rw [hfile]
    by_cases hgf : g = f
    · subst hgf
      simp [File.pipeEnd_of_ne, hf, eq_comm]
    · rw [update_of_ne hgf, iff_and_self]
      rintro hg rfl
      exact hgf (h.inj g f _ hg hf)
  have hfar : ∀ pa, pa ≠ pi → t.pipe pa = s.pipe pa := fun pa hpa => by
    rw [hpipe, update_of_ne hpa]
  have hopen : ∀ pa e, (t.pipe pa).isOpen e = true ↔
      (pa, e) ≠ (pi, w) ∧ (s.pipe pa).isOpen e = true := by
    intro pa e
    by_cases hpa : pa = pi
    · rw [hpa, hpipe, update_self, Pipe.isOpen_closed]
      simp
    · simp [hfar pa hpa, hpa]
  have hstands : ∀ pa e, (∃ g, (t.file g).pipeEnd = some (pa, e)) ↔
      own pa = .pipe ∧ (t.pipe pa).isOpen e = true := by
    intro pa e
    simp only [hother, exists_and_left, h.stands, hopen]
    exact and_left_comm
  have hinj : ∀ g g' x, (t.file g).pipeEnd = some x → (t.file g').pipeEnd = some x → g = g' :=
    fun g g' x hg hg' => h.inj g g' x ((hother g x).mp hg).2 ((hother g' x).mp hg').2
  refine ⟨fun hsome hfreed => ⟨hidle, hstands, hinj, fun pa hpa => ?_, fun pa => ?_⟩,
    fun hnone hfreed => ⟨hidle, fun pa e => ?_, hinj, fun pa hpa => ?_, fun pa => ?_⟩⟩
  · by_cases heq : pa = pi
    · rw [heq]
      exact hsome
    · rw [hfar pa heq]
      exact h.some_open pa hpa
  · rw [hmade, hfreed, h.count pa]
  · rw [hstands]
    by_cases heq : pa = pi
    · simp [heq, hnone]
    · rw [update_of_ne heq]
  · have hne : pa ≠ pi := by
      rintro rfl
      simp at hpa
    rw [update_of_ne hne] at hpa
    rw [hfar pa hne]
    exact h.some_open pa hpa
  · rw [hmade, hfreed, h.count pa]
    by_cases heq : pa = pi
    · simp [heq, hlive.1]
    · simp [heq, Ne.symm heq]

theorem make (h : Ends own s) {f0 f1 : FileId} {pi : Nat} (hpi : own pi = .free)
    (hne : f0 ≠ f1) (hf0 : (s.file f0).type = .none ∧ (s.file f0).ref ≠ 0)
    (hf1 : (s.file f1).type = .none ∧ (s.file f1).ref ≠ 0) :
    Ends (update own pi .pipe)
      ((({ s.setPipe pi fun _ => ⟨true, true⟩ with pipesMade := pi :: s.pipesMade } : State).setFile
        f0 fun q => { q with type := .pipe, readable := true, writable := false, pipe := pi }).setFile
        f1 fun q => { q with type := .pipe, readable := false, writable := true, pipe := pi }) := by
  generalize ht : (({ s.setPipe pi fun _ => ⟨true, true⟩ with
    pipesMade := pi :: s.pipesMade } : State).setFile
        f0 fun q => { q with type := .pipe, readable := true, writable := false, pipe := pi }).setFile
        f1 (fun q => { q with type := .pipe, readable := false, writable := true, pipe := pi }) = t
  have hfile0 : t.file f0 = { s.file f0 with
      type := .pipe, readable := true, writable := false, pipe := pi } := by
    rw [← ht, State.setFile_ne _ _ _ hne, State.setFile_same]
    rfl
  have hfile1 : t.file f1 = { s.file f1 with
      type := .pipe, readable := false, writable := true, pipe := pi } := by
    rw [← ht, State.setFile_same, State.setFile_ne _ _ _ (Ne.symm hne)]
    rfl
  have hfile : ∀ g, g ≠ f0 → g ≠ f1 → t.file g = s.file g := fun g hg0 hg1 => by
    rw [← ht, State.setFile_ne _ _ _ hg1, State.setFile_ne _ _ _ hg0]
    rfl
  have hpipe : t.pipe = update s.pipe pi ⟨true, true⟩ := by rw [← ht]; rfl
  have hends : ∀ g x, (t.file g).pipeEnd = some x ↔ g = f0 ∧ x = (pi, false) ∨
      g = f1 ∧ x = (pi, true) ∨ (s.file g).pipeEnd = some x := by
    intro g x
    by_cases hg0 : g = f0
    · subst hg0
      simp [hfile0, File.pipeEnd, hf0.1, hne, eq_comm]
    by_cases hg1 : g = f1
    · subst hg1
      simp [hfile1, File.pipeEnd, hf1.1, hg0, eq_comm]
    simp [hfile g hg0 hg1, hg0, hg1]
  -- No file stood for an end of the new pipe before.
  have hold : ∀ g x, (s.file g).pipeEnd = some x → x.1 ≠ pi := by
    rintro g ⟨pa, e⟩ hg rfl
    simp [((h.stands _ e).mp ⟨g, hg⟩).1] at hpi
  refine ⟨fun g hg => ?_, fun pa e => ?_, fun g g' x hg hg' => ?_, fun pa hpa => ?_, fun pa => ?_⟩
  · by_cases hg0 : g = f0
    · rw [hg0, hfile0] at hg
      exact (hf0.2 hg).elim
    by_cases hg1 : g = f1
    · rw [hg1, hfile1] at hg
      exact (hf1.2 hg).elim
    rw [hfile g hg0 hg1] at hg ⊢
    exact h.idle g hg
  · simp only [hends, exists_or, h.stands, hpipe]
    by_cases heq : pa = pi
    · cases e <;> simp [heq, Pipe.isOpen]
    · simp [heq]
  · rcases (hends g x).mp hg with ⟨rfl, rfl⟩ | ⟨rfl, rfl⟩ | hgs
    · rcases (hends g' _).mp hg' with ⟨rfl, -⟩ | ⟨-, hx⟩ | hgs'
      · rfl
      · cases hx
      · exact (hold g' _ hgs' rfl).elim
    · rcases (hends g' _).mp hg' with ⟨-, hx⟩ | ⟨rfl, -⟩ | hgs'
      · cases hx
      · rfl
      · exact (hold g' _ hgs' rfl).elim
    · rcases (hends g' _).mp hg' with ⟨-, rfl⟩ | ⟨-, rfl⟩ | hgs'
      · exact (hold g _ hgs rfl).elim
      · exact (hold g _ hgs rfl).elim
      · exact h.inj g g' x hgs hgs'
  · by_cases heq : pa = pi
    · exact ⟨true, by simp [heq, hpipe, Pipe.isOpen]⟩
    · rw [update_of_ne heq] at hpa
      rw [hpipe, update_of_ne heq]
      exact h.some_open pa hpa
  · have hmade : t.pipesMade = pi :: s.pipesMade := by rw [← ht]; rfl
    have hfreed : t.pipesFreed = s.pipesFreed := by rw [← ht]; rfl
    rw [hmade, hfreed]
    by_cases heq : pa = pi
    · subst heq
      have hcount := h.count pa
      rw [hpi] at hcount
      simp [hcount]
    · rw [List.count_cons_of_ne (Ne.symm heq), update_of_ne heq, h.count pa]

end Ends

/-! ## The invariant -/

/-- A process without open files: it has ended or not begun. -/
def Idle (state : ProcState) : Prop := state = .unused ∨ state = .zombie

/-- The kernel's invariant together with the books of the file table.  The running process
holds `extra` references to each file beside the descriptors, and the pages of
`boot` are those the kernel took for itself at boot.  The ends of rings in `holds` are open. -/
structure FileInv (im : Image) (boot : Nat → Prop) (holds : List Holding) (own : Nat → Role)
    (extra : FileId → Int) (s : State) : Prop where
  kernel : KernelInv im own holds s.kernel
  boot_iff : ∀ p, own p = .kernel ↔ boot p
  global : holds = [] → ∀ p, (own p).Global → own p = .kernel ∨ own p = .pipe
  refs : ∀ f, (s.file f).ref = references s.slots f + extra f
  ends : Ends own s
  closed : ∀ p, Idle (s.kernel.proc p).state → ∀ fd, s.ofile p fd = none

namespace FileInv

variable {im : Image} {boot : Nat → Prop} {holds : List Holding} {own own' : Nat → Role}
  {extra : FileId → Int} {s t : State} {f : FileId} {p : ProcId} {fd : Fd}

section

variable (h : FileInv im boot holds own extra s)
include h

/-- The kernel does something that has nothing to do with files. -/
theorem setKernel {k : KernelState} (hk : KernelInv im own' holds k) (hglobal : SameGlobal own own')
    (hclosed : ∀ p, Idle (k.proc p).state → ∀ fd, s.ofile p fd = none) :
    FileInv im boot holds own' extra { s with kernel := k } where
  kernel := hk
  boot_iff p := (hglobal.eq_iff (show Role.kernel.Global from trivial) p).trans (h.boot_iff p)
  global hnone p hp := by
    have hsame := hglobal p (.inr hp)
    rw [hsame] at hp ⊢
    exact h.global hnone p hp
  refs := h.refs
  ends := h.ends.congr h.ends.idle (fun _ => rfl)
    (hglobal.eq_iff (show Role.pipe.Global from trivial)) rfl rfl rfl
  closed := hclosed

theorem ref_pos (hfd : s.ofile p fd = some f) (hextra : 0 ≤ extra f) : 0 < (s.file f).ref := by
  have hpos : 0 < references s.slots f := references_pos_iff.mpr ⟨(p, fd), hfd⟩
  have href := h.refs f
  omega

theorem setRef {g : File → File} {d : Int} (hg : (g (s.file f)).ref = (s.file f).ref + d)
    (hends : Ends own (s.setFile f g)) :
    FileInv im boot holds own (extra + Pi.single f d) (s.setFile f g) where
  __ := h
  refs f' := by
    show _ = (references s.slots f' : Int) + _
    by_cases hff : f' = f
    · subst hff
      rw [State.setFile_same, hg, h.refs f', Pi.add_apply, Pi.single_eq_same]
      omega
    · rw [State.setFile_ne _ _ _ hff, h.refs f', Pi.add_apply, Pi.single_eq_of_ne hff]
      omega
  ends := hends

theorem setFd {extra' : FileId → Int} {x : Option FileId}
    (hp : x = none ∨ ¬Idle (s.kernel.proc p).state)
    (hrefs : ∀ f', references s.slots f' + extra f' =
      references (update s.slots (p, fd) x) f' + extra' f') :
    FileInv im boot holds own extra' (s.setFd p fd x) where
  __ := h
  refs f' := by
    rw [State.setFd_slots, ← hrefs]
    exact h.refs f'
  ends := h.ends.congr h.ends.idle (fun _ => rfl) (fun _ => Iff.rfl) rfl rfl rfl
  closed q hq fd' := by
    by_cases hqp : q = p ∧ fd' = fd
    · obtain ⟨rfl, rfl⟩ := hqp
      rw [State.setFd_same]
      exact hp.resolve_right (not_not_intro hq)
    · rw [State.setFd_of_ne _ _ _ _ (not_and_or.mp hqp)]
      exact h.closed q hq fd'

theorem fillFd (hfd : s.ofile p fd = none) (hp : ¬Idle (s.kernel.proc p).state) (f : FileId) :
    FileInv im boot holds own (extra - Pi.single f 1) (s.setFd p fd (some f)) := by
  refine h.setFd (.inr hp) fun f' => ?_
  rw [references_fill (show s.slots (p, fd) = none from hfd), Pi.sub_apply, Pi.single_apply]
  split <;> omega

theorem clearFd (hfd : s.ofile p fd = some f) :
    FileInv im boot holds own (extra + Pi.single f 1) (s.setFd p fd none) := by
  refine h.setFd (.inl rfl) fun f' => ?_
  rw [← references_clear (show s.slots (p, fd) = some f from hfd) f', Pi.add_apply, Pi.single_apply]
  split <;> push_cast <;> omega

/-! ## Functions of the file table -/

theorem filealloc :
    Files.filealloc s = .ok (none, s) ∨
      ∃ f, Files.filealloc s = .ok (some f, s.setFile f fun q => { q with ref := 1 }) ∧
        (s.file f).ref = 0 ∧ FileInv im boot holds own (extra + Pi.single f 1)
          (s.setFile f fun q => { q with ref := 1 }) := by
  rw [Files.filealloc, bind_of_ok (get_apply s)]
  cases hfind : (List.finRange nfile).find? fun f => (s.file f).ref = 0 with
  | none => exact .inl rfl
  | some f =>
    have href : (s.file f).ref = 0 := by simpa using List.find?_some hfind
    refine .inr ⟨f, rfl, href, h.setRef ?_ (h.ends.setFile f _ rfl (by simp))⟩
    rw [href]
    rfl

/-- A reference to a file that is in use may be copied. -/
theorem filedup (hf : 0 < (s.file f).ref) :
    ∃ t, Files.filedup f s = .ok ((), t) ∧ FileInv im boot holds own (extra + Pi.single f 1) t ∧
      t.ofile = s.ofile ∧ t.kernel = s.kernel := by
  rw [Files.filedup, bind_of_ok (get_apply s), if_neg (by omega)]
  have href : (s.file f).ref + 1 ≠ 0 := by omega
  exact ⟨_, rfl, h.setRef rfl (h.ends.setFile f _ rfl fun hzero => (href hzero).elim), rfl, rfl⟩

/-- A reference that exists may be dropped. -/
theorem fileclose (hf : 0 < (s.file f).ref) :
    ∃ t own', Files.fileclose im f s = .ok ((), t) ∧
      FileInv im boot holds own' (extra - Pi.single f 1) t ∧ t.ofile = s.ofile ∧
      SameTables s.kernel t.kernel := by
  rw [sub_eq_add_neg, ← Pi.single_neg, Files.fileclose, bind_of_ok (get_apply s), if_neg (by omega)]
  split
  next hmore =>
    have href : (s.file f).ref - 1 ≠ 0 := by omega
    exact ⟨_, own, rfl, h.setRef rfl (h.ends.setFile f _ rfl fun hzero => (href hzero).elim), rfl,
      ⟨rfl, rfl, rfl, rfl⟩⟩
  next hlast =>
    have hone : (0 : Int) = (s.file f).ref + -1 := by omega
    rw [bind_of_ok (modify_apply _ _)]
    split
    next hpipe =>
      have hend := File.pipeEnd_of_pipe hpipe
      obtain ⟨hown, -⟩ := (h.ends.stands _ _).mp ⟨f, hend⟩
      rw [Files.pipeclose, bind_of_ok (modify_apply _ _), bind_of_ok (get_apply _)]
      generalize hu : ((s.setFile f fun q => { q with ref := 0, type := .none }).setPipe
        (s.file f).pipe fun q => q.closed (s.file f).writable) = u
      have hfile : u.file = update s.file f
          { s.file f with ref := 0, type := .none } := by rw [← hu]; rfl
      have hupipe : u.pipe = update s.pipe (s.file f).pipe
          ((s.pipe (s.file f).pipe).closed (s.file f).writable) := by rw [← hu]; rfl
      have hmade : u.pipesMade = s.pipesMade := by rw [← hu]; rfl
      have hfreed : u.pipesFreed = s.pipesFreed := by rw [← hu]; rfl
      have hofile : u.ofile = s.ofile := by rw [← hu]; rfl
      have hkernel : u.kernel = s.kernel := by rw [← hu]; rfl
      have hslots : u.slots = s.slots := by
        unfold State.slots
        rw [hofile]
      have hrefs : ∀ f', (u.file f').ref =
          references u.slots f' + (extra + Pi.single f (-1) : FileId → Int) f' := by
        intro f'
        rw [hslots, hfile, Pi.add_apply]
        by_cases hff : f' = f
        · subst hff
          have href := h.refs f'
          rw [update_self, Pi.single_eq_same]
          show (0 : Int) = _
          omega
        · rw [update_of_ne hff, Pi.single_eq_of_ne hff, h.refs f']
          omega
      split
      next hboth =>
        rw [Pipe.both_closed_iff] at hboth
        obtain ⟨ram, hkfree, hinv⟩ := h.kernel.kfree (by rw [hown]; trivial) (by simp [hown])
        rw [← hkernel] at hkfree
        rw [bind_of_ok (onKernel_of_ok (onRam_of_ok hkfree)), modify_apply, hkernel]
        refine ⟨_, _, rfl, ⟨hinv, fun q => ?_, fun hnone q hq => ?_, hrefs, ?_, ?_⟩, hofile,
          ⟨rfl, rfl, rfl, rfl⟩⟩
        · by_cases hq : q = (s.file f).pipe
          · subst hq
            rw [update_self, ← h.boot_iff, hown]
            simp
          · rw [update_of_ne hq]
            exact h.boot_iff q
        · have hne : q ≠ (s.file f).pipe := by
            rintro rfl
            rw [update_self] at hq
            exact hq
          rw [update_of_ne hne] at hq ⊢
          exact h.global hnone q hq
        · refine (h.ends.close hend ?_ ?_ ?_).2 ?_ ?_
          · exact hfile
          · exact hupipe
          · exact hmade
          · exact hboth
          · exact congrArg _ hfreed
        · rw [hofile]
          exact h.closed
      next hopen =>
        rw [Pipe.both_closed_iff] at hopen
        refine ⟨u, own, rfl, ⟨by rw [hkernel]; exact h.kernel, h.boot_iff, h.global, hrefs, ?_, ?_⟩,
          hofile, by rw [hkernel]; exact ⟨rfl, rfl, rfl, rfl⟩⟩
        · refine (h.ends.close hend hfile hupipe hmade).1 ?_ hfreed
          obtain ⟨e, he⟩ := not_forall.mp hopen
          exact ⟨e, by simpa using he⟩
        · rw [hofile, hkernel]
          exact h.closed
    next hpipe =>
      exact ⟨_, own, rfl, h.setRef hone (h.ends.setFile f _
        (by simp [File.pipeEnd_of_ne, hpipe]) (by simp)), rfl, ⟨rfl, rfl, rfl, rfl⟩⟩

/-- A reference that the running process holds counts. -/
theorem ref_pos_of_extra (hextra : 0 < extra f) : 0 < (s.file f).ref := by
  have href := h.refs f
  omega

end

/-- A new pipe comes with one reference to each of its ends; otherwise everything is as
before. -/
theorem pipealloc (h : FileInv im boot holds own 0 s) :
    (∃ t own', Files.pipealloc im s = .ok (none, t) ∧ FileInv im boot holds own' 0 t ∧
      t.ofile = s.ofile ∧ SameTables s.kernel t.kernel) ∨
    ∃ f0 f1 t own', Files.pipealloc im s = .ok (some (f0, f1), t) ∧
      FileInv im boot holds own' (Pi.single f0 1 + Pi.single f1 1) t ∧
      t.ofile = s.ofile ∧ SameTables s.kernel t.kernel := by
  rcases h.filealloc with hnone | ⟨f0, halloc0, href0, hinv0⟩
  · rw [Files.pipealloc, bind_of_ok hnone]
    exact .inl ⟨s, own, rfl, h, rfl, ⟨rfl, rfl, rfl, rfl⟩⟩
  have htype0 := h.ends.idle f0 href0
  rw [Files.pipealloc, bind_of_ok halloc0]
  rw [zero_add] at hinv0
  simp only
  have hpos0 : ∀ {own t}, FileInv im boot holds own (Pi.single f0 1) t → 0 < (t.file f0).ref :=
    fun hinv => hinv.ref_pos_of_extra (by simp)
  rcases hinv0.filealloc with hnone | ⟨f1, halloc1, href1, hinv1⟩
  · obtain ⟨t, own', hclose, hinv, hofile, htables⟩ := hinv0.fileclose (hpos0 hinv0)
    rw [bind_of_ok hnone]
    simp only
    rw [bind_of_ok hclose]
    rw [sub_self] at hinv
    exact .inl ⟨t, own', rfl, hinv, hofile, htables⟩
  have hne : f0 ≠ f1 := by
    rintro rfl
    simp at href1
  have htype1 : (s.file f1).type = .none := by
    have hidle := hinv0.ends.idle f1 href1
    rwa [State.setFile_ne _ _ _ (Ne.symm hne)] at hidle
  rw [bind_of_ok halloc1]
  obtain ⟨u, hu⟩ : ∃ u, ((s.setFile f0 fun q => { q with ref := 1 }).setFile f1
    fun q => { q with ref := 1 }) = u := ⟨_, rfl⟩
  have hfile0 : (u.file f0).type = .none ∧ (u.file f0).ref ≠ 0 := by
    rw [← hu, State.setFile_ne _ _ _ hne, State.setFile_same]
    exact ⟨htype0, by simp⟩
  have hfile1 : (u.file f1).type = .none ∧ (u.file f1).ref ≠ 0 := by
    rw [← hu, State.setFile_same, State.setFile_ne _ _ _ (Ne.symm hne)]
    exact ⟨htype1, by simp⟩
  have hofile : u.ofile = s.ofile := by rw [← hu]; rfl
  have hk : u.kernel = s.kernel := by rw [← hu]; rfl
  rw [hu] at hinv1
  simp only [hu]
  obtain ⟨pi, ram, hkalloc⟩ := exists_kalloc u.kernel.ram
  rw [bind_of_ok (onKernel_of_ok (onRam_of_ok hkalloc))]
  rcases hinv1.kernel.kalloc .pipe trivial (by simp) hkalloc with
    ⟨rfl, hkernel⟩ | ⟨hpi, hfree, hkernel⟩
  · -- No page: both files are closed again.
    have hinv2 := hinv1.setKernel hkernel (.refl own) hinv1.closed
    obtain ⟨t3, own3, hclose3, hinv3, hofile3, htables3⟩ :=
      FileInv.fileclose (f := f0) hinv2 (hinv2.ref_pos_of_extra (by simp [Pi.single_eq_of_ne hne]))
    rw [add_sub_cancel_left] at hinv3
    obtain ⟨t4, own4, hclose4, hinv4, hofile4, htables4⟩ :=
      FileInv.fileclose (f := f1) hinv3 (hinv3.ref_pos_of_extra (by simp))
    rw [sub_self] at hinv4
    rw [if_pos rfl, bind_of_ok hclose3, bind_of_ok hclose4]
    refine .inl ⟨t4, own4, rfl, hinv4, (hofile4.trans hofile3).trans hofile, ?_⟩
    rw [← hk]
    exact SameTables.trans ⟨htables3.proc, htables3.ringbufs, htables3.nextpid,
      htables3.initproc⟩ htables4
  · rw [if_neg hpi]
    have hends : Ends own { u with kernel := { u.kernel with ram := ram } } :=
      hinv1.ends.congr hinv1.ends.idle (fun _ => rfl) (fun _ => Iff.rfl) rfl rfl rfl
    refine .inr ⟨f0, f1, _, _, rfl, ⟨hkernel, fun q => ?_, fun hnone q hq => ?_, fun f' => ?_,
      hends.make hfree hne hfile0 hfile1, hinv1.closed⟩, hofile, ?_⟩
    · by_cases hq : q = pi
      · subst hq
        rw [update_self, ← h.boot_iff, hfree]
        simp
      · rw [update_of_ne hq]
        exact h.boot_iff q
    · by_cases hq' : q = pi
      · rw [hq', update_self]
        exact .inr rfl
      · rw [update_of_ne hq'] at hq ⊢
        exact h.global hnone q hq
    · refine Eq.trans ?_ (hinv1.refs f')
      rw [State.setFile_ref _ rfl, State.setFile_ref _ rfl]
      rfl
    · rw [← hk]
      exact ⟨rfl, rfl, rfl, rfl⟩

/-! ## Descriptors -/

/-- The running process has open files or may have some. -/
theorem not_idle {state : ProcState} (hp : state = .runnable) : ¬Idle state := by
  rw [hp]
  simp [Idle]

theorem fdalloc_cases (p : ProcId) (f : FileId) (s : State) :
    Files.fdalloc p f s = .ok (none, s) ∨ ∃ fd, s.ofile p fd = none ∧
      Files.fdalloc p f s = .ok (some fd, s.setFd p fd (some f)) := by
  rw [Files.fdalloc, bind_of_ok (get_apply s)]
  cases hfind : (List.finRange nofile).find? fun fd => s.ofile p fd = none with
  | none => exact .inl rfl
  | some fd => exact .inr ⟨fd, by simpa using List.find?_some hfind, rfl⟩

theorem argfd_cases (p : ProcId) (fd : Int) (s : State) :
    Files.argfd p fd s = .ok (none, s) ∨ ∃ fd' f, s.ofile p fd' = some f ∧
      Files.argfd p fd s = .ok (some (fd', f), s) := by
  rw [Files.argfd, bind_of_ok (get_apply s)]
  split
  next hfd =>
    cases hslot : s.ofile p ⟨fd.toNat, hfd.2⟩ with
    | none => exact .inl rfl
    | some f => exact .inr ⟨_, f, hslot, rfl⟩
  next => exact .inl rfl

theorem sysDup (h : FileInv im boot holds own 0 s) (hp : (s.kernel.proc p).state = .runnable)
    (fd : Int) :
    ∃ res t, Files.sysDup p fd s = .ok (res, t) ∧ FileInv im boot holds own 0 t ∧
      (res = -1 → t.ofile = s.ofile) := by
  rw [Files.sysDup]
  rcases argfd_cases p fd s with hnone | ⟨fd', f, hslot, hsome⟩
  · rw [bind_of_ok hnone]
    exact ⟨-1, s, rfl, h, fun _ => rfl⟩
  rw [bind_of_ok hsome]
  simp only
  rcases fdalloc_cases p f s with hnone | ⟨fd₁, hfree, halloc⟩
  · rw [bind_of_ok hnone]
    exact ⟨-1, s, rfl, h, fun _ => rfl⟩
  have hinv₁ := h.fillFd hfree (not_idle hp) f
  obtain ⟨t, hdup, hinv, -⟩ := hinv₁.filedup (h.ref_pos hslot le_rfl)
  rw [bind_of_ok halloc]
  simp only
  rw [bind_of_ok hdup]
  rw [sub_add_cancel] at hinv
  exact ⟨fd₁.val, t, rfl, hinv, fun hres => by omega⟩

theorem sysClose (h : FileInv im boot holds own 0 s) (fd : Int) :
    ∃ res t own', Files.sysClose im p fd s = .ok (res, t) ∧ FileInv im boot holds own' 0 t := by
  rw [Files.sysClose]
  rcases argfd_cases p fd s with hnone | ⟨fd', f, hslot, hsome⟩
  · rw [bind_of_ok hnone]
    exact ⟨-1, s, own, rfl, h⟩
  obtain ⟨t, own', hclose, hinv, -⟩ := (h.clearFd hslot).fileclose (h.ref_pos hslot le_rfl)
  rw [bind_of_ok hsome]
  simp only
  rw [bind_of_ok (modify_apply _ _), bind_of_ok hclose]
  rw [add_sub_cancel_right] at hinv
  exact ⟨0, t, own', rfl, hinv⟩

theorem closeBoth {rf wf : FileId}
    (h : FileInv im boot holds own (Pi.single rf 1 + Pi.single wf 1) s) :
    ∃ t own', Files.closeBoth im rf wf s = .ok (-1, t) ∧ FileInv im boot holds own' 0 t ∧
      t.ofile = s.ofile := by
  have hrf : (0 : Int) < (Pi.single rf 1 + Pi.single wf 1 : FileId → Int) rf := by
    rw [Pi.add_apply, Pi.single_eq_same, Pi.single_apply]
    split <;> decide
  obtain ⟨t1, own1, hclose1, hinv₁, hofile1, -⟩ := FileInv.fileclose h (h.ref_pos_of_extra hrf)
  rw [add_sub_cancel_left] at hinv₁
  obtain ⟨t2, own2, hclose2, hinv₂, hofile2, -⟩ :=
    FileInv.fileclose hinv₁ (hinv₁.ref_pos_of_extra (f := wf) (by simp))
  rw [sub_self] at hinv₂
  rw [Files.closeBoth, bind_of_ok hclose1, bind_of_ok hclose2]
  exact ⟨t2, own2, rfl, hinv₂, hofile2.trans hofile1⟩

/-- Copying the descriptors out leaves the tables alone. -/
theorem copyoutFds {holds : List Holding} {k : KernelState} (h : KernelInv im own holds k)
    (hp : (k.proc p).pagetable ≠ 0) (fdarray : Nat) (fd0 fd1 : Fd) :
    ∃ res k', Files.copyoutFds p fdarray fd0 fd1 k = .ok (res, k') ∧ KernelInv im own holds k' ∧
      SameTables k k' := by
  obtain ⟨res0, t0, hrun0, hstored0, -⟩ := h.spaces.owned.copyout (Spaces.isRoot hp)
    (fun va hva => h.spaces.isData hp hva) fdarray 0 (intBytes fd0.val)
  have hinv₀ := h.stored hstored0
  rw [Files.copyoutFds, bind_of_ok (get_apply k)]
  rw [bind_of_ok (onRam_of_ok hrun0)]
  split
  next => exact ⟨-1, _, rfl, hinv₀, ⟨rfl, rfl, rfl, rfl⟩⟩
  next =>
    obtain ⟨res1, t1, hrun1, hstored1, -⟩ := hinv₀.spaces.owned.copyout (Spaces.isRoot hp)
      (fun va hva => hinv₀.spaces.isData hp hva) ((fdarray + 4) % 2 ^ 64) 0 (intBytes fd1.val)
    exact ⟨res1, _, onRam_of_ok hrun1, hinv₀.stored hstored1, ⟨rfl, rfl, rfl, rfl⟩⟩

/-- A pipe is made with two descriptors, or nothing remains of it. -/
theorem sysPipe (h : FileInv im boot holds own 0 s) (hp : (s.kernel.proc p).state = .runnable)
    (fdarray : Nat) :
    ∃ res t own', Files.sysPipe im p fdarray s = .ok (res, t) ∧ FileInv im boot holds own' 0 t ∧
      (res = -1 → t.ofile = s.ofile) := by
  rw [Files.sysPipe]
  rcases h.pipealloc with ⟨t, own', hnone, hinv, hofile, -⟩ |
    ⟨rf, wf, u, own1, hsome, hinv, hofile, htables⟩
  · rw [bind_of_ok hnone]
    exact ⟨-1, t, own', rfl, hinv, fun _ => hofile⟩
  rw [bind_of_ok hsome]
  simp only
  have hpu : (u.kernel.proc p).state = .runnable := by rwa [htables.proc]
  rcases fdalloc_cases p rf u with hfull | ⟨fd0, hfree0, hfd0⟩
  · obtain ⟨t, own', hrun, hinv', hofile'⟩ := hinv.closeBoth
    rw [bind_of_ok hfull]
    exact ⟨-1, t, own', hrun, hinv', fun _ => hofile'.trans hofile⟩
  have hinv0 := hinv.fillFd hfree0 (not_idle hpu) rf
  rw [add_sub_cancel_left] at hinv0
  rw [bind_of_ok hfd0]
  simp only
  rcases fdalloc_cases p wf (u.setFd p fd0 (some rf)) with hfull | ⟨fd1, hfree1, hfd1⟩
  · -- The first descriptor is taken back.
    have hcleared := hinv0.clearFd (State.setFd_same ..)
    rw [add_comm] at hcleared
    obtain ⟨t, own', hrun, hinv', hofile'⟩ := hcleared.closeBoth
    rw [bind_of_ok hfull]
    simp only
    rw [bind_of_ok (modify_apply _ _)]
    refine ⟨-1, t, own', hrun, hinv', fun _ => ?_⟩
    rw [hofile', State.setFd_setFd_self _ _ _ _ hfree0, hofile]
  have hinv1 := hinv0.fillFd hfree1 (not_idle hpu) wf
  rw [sub_self] at hinv1
  have hne : fd0 ≠ fd1 := by
    rintro rfl
    rw [State.setFd_same] at hfree1
    cases hfree1
  obtain ⟨res, k', hcopy, hkernel, htables'⟩ := copyoutFds hinv1.kernel
    (hinv1.kernel.pagetable_ne_zero hpu) fdarray fd0 fd1
  have hinv2 := hinv1.setKernel hkernel (.refl _) (by rw [htables'.proc]; exact hinv1.closed)
  rw [bind_of_ok hfd1]
  simp only
  rw [bind_of_ok (onKernel_of_ok hcopy)]
  split
  next =>
    -- Both descriptors are taken back.
    have hslot0 : ((u.setFd p fd0 (some rf)).setFd p fd1 (some wf)).ofile p fd0 = some rf := by
      rw [State.setFd_of_ne _ _ _ _ (.inr hne), State.setFd_same]
    have hslot1 : (((u.setFd p fd0 (some rf)).setFd p fd1 (some wf)).setFd p fd0 none).ofile p fd1 =
        some wf := by
      rw [State.setFd_of_ne _ _ _ _ (.inr hne.symm), State.setFd_same]
    have hclear1 := (hinv2.clearFd hslot0).clearFd hslot1
    rw [zero_add] at hclear1
    obtain ⟨t, own', hrun, hinv', hofile'⟩ := hclear1.closeBoth
    rw [bind_of_ok (modify_apply _ _), bind_of_ok (modify_apply _ _)]
    refine ⟨-1, t, own', hrun, hinv', fun _ => ?_⟩
    rw [hofile', ← hofile]
    exact State.setFd_undo u p hne hfree0 (by
      rwa [State.setFd_of_ne _ _ _ _ (.inr hne.symm)] at hfree1) _ _
  next => exact ⟨0, _, own1, rfl, hinv2, fun hres => by simp at hres⟩

/-- An inode is opened with a descriptor, or nothing remains of it. -/
theorem sysOpen (h : FileInv im boot holds own 0 s) (hp : (s.kernel.proc p).state = .runnable)
    (ip : Option Inode) (omode : Nat) :
    ∃ res t own', Files.sysOpen im p ip omode s = .ok (res, t) ∧ FileInv im boot holds own' 0 t ∧
      (res = -1 → t.ofile = s.ofile) := by
  unfold Files.sysOpen
  cases ip with
  | none => exact ⟨-1, s, own, rfl, h, fun _ => rfl⟩
  | some ip =>
    simp only
    split
    next => exact ⟨-1, s, own, rfl, h, fun _ => rfl⟩
    next =>
      rcases h.filealloc with hnone | ⟨f, halloc, href, hinv⟩
      · rw [bind_of_ok hnone]
        exact ⟨-1, s, own, rfl, h, fun _ => rfl⟩
      rw [zero_add] at hinv
      rw [bind_of_ok halloc]
      simp only
      rcases fdalloc_cases p f (s.setFile f fun q => { q with ref := 1 }) with
        hfull | ⟨fd, hfree, hfd⟩
      · obtain ⟨t, own', hrun, hinv', hofile, -⟩ :=
          FileInv.fileclose (f := f) hinv (hinv.ref_pos_of_extra (by simp))
        rw [sub_self] at hinv'
        rw [bind_of_ok hfull]
        simp only
        rw [bind_of_ok hrun]
        exact ⟨-1, t, own', rfl, hinv', fun _ => hofile⟩
      have hinv1 := hinv.fillFd hfree (not_idle hp) f
      have htype : (((s.setFile f fun q => { q with ref := 1 }).setFd p fd (some f)).file f).type =
          .none := by
        show ((s.setFile f fun q => { q with ref := 1 }).file f).type = .none
        rw [State.setFile_same]
        exact h.ends.idle f href
      have hopened : ∀ q : File, (q.opened ip omode).type ≠ .pipe ∧
          (q.opened ip omode).ref = q.ref := by
        intro q
        unfold File.opened
        split <;> simp
      have hinv2 := hinv1.setRef (f := f) (g := fun q => q.opened ip omode) (d := 0)
        (by rw [(hopened _).2, add_zero])
        (hinv1.ends.setFile f _
          (by simp [File.pipeEnd_of_ne, htype, (hopened _).1]) fun hzero => by
          have hone : (((s.setFile f fun q => { q with ref := 1 }).setFd p fd
              (some f)).file f).ref = 1 := by
            show ((s.setFile f fun q => { q with ref := 1 }).file f).ref = 1
            rw [State.setFile_same]
          rw [(hopened _).2, hone] at hzero
          cases hzero)
      rw [sub_self, zero_add, Pi.single_zero] at hinv2
      rw [bind_of_ok hfd]
      exact ⟨fd.val, _, own, rfl, hinv2, fun hres => by omega⟩

/-! ## Processes -/

theorem dupFiles {np : ProcId} (fds : List Fd) (hnodup : fds.Nodup)
    (h : FileInv im boot holds own 0 s) (hnp : ¬Idle (s.kernel.proc np).state)
    (hempty : ∀ fd ∈ fds, s.ofile np fd = none) :
    ∃ t, Files.dupFiles p np fds s = .ok ((), t) ∧ FileInv im boot holds own 0 t ∧
      t.kernel = s.kernel := by
  induction fds generalizing s with
  | nil => exact ⟨s, rfl, h, rfl⟩
  | cons fd fds ih =>
    obtain ⟨hnot, hnodup⟩ := List.nodup_cons.mp hnodup
    rw [Files.dupFiles, bind_of_ok (get_apply s)]
    cases hslot : s.ofile p fd with
    | none => exact ih hnodup h hnp fun fd' hfd' => hempty fd' (by simp [hfd'])
    | some f =>
      obtain ⟨u, hdup, hinv, hofile, hkernel⟩ := h.filedup (h.ref_pos hslot le_rfl)
      have hfree : u.ofile np fd = none := by
        rw [hofile]
        exact hempty fd (by simp)
      have hfilled := hinv.fillFd hfree (by rwa [hkernel]) f
      rw [add_sub_cancel_right] at hfilled
      simp only
      rw [bind_of_ok hdup, bind_of_ok (modify_apply _ _)]
      obtain ⟨t, hrun, hinv', hkernel'⟩ := ih hnodup hfilled
        (by show ¬Idle (u.kernel.proc np).state; rwa [hkernel]) fun fd' hfd' => by
          have hfd : fd' ≠ fd := fun heq => hnot (heq ▸ hfd')
          rw [State.setFd_of_ne _ _ _ _ (.inr hfd), hofile]
          exact hempty fd' (by simp [hfd'])
      exact ⟨t, hrun, hinv', hkernel'.trans hkernel⟩

/-- The panics of the functions that count references. -/
def IsCountPanic (e : Fault) : Prop := e = .panic "filedup" ∨ e = .panic "fileclose"

/-- If the kernel makes a child, the child gets the descriptors of its parent. -/
theorem sysFork_of_ok (h : FileInv im boot holds own 0 s) (hp : (s.kernel.proc p).state = .runnable)
    {res : Int} {k' : KernelState} (hfork : Kernel.fork im p s.kernel = .ok (res, k')) :
    ∃ t own', Files.sysFork im p s = .ok (res, t) ∧ FileInv im boot holds own' 0 t ∧
      t.kernel = k' := by
  rcases h.kernel.fork (h.kernel.pagetable_ne_zero hp) with
    ⟨res', k'', own', np, hfork', hkernel, hspawned, hstate, hglobal⟩ | hfault | hfault
  · rw [hfork] at hfork'
    cases hfork'
    have hidle : Idle (s.kernel.proc np).state :=
      .inl (by simpa using List.find?_some hspawned.first)
    have hinv := h.setKernel hkernel hglobal fun q hq fd => by
      by_cases hqn : q = np
      · rw [hqn, hstate] at hq
        exact (not_idle rfl hq).elim
      · rw [hspawned.other q hqn] at hq
        exact h.closed q hq fd
    obtain ⟨t, hdup, hinv', hkernel'⟩ := hinv.dupFiles (p := p) (List.finRange nofile)
      (List.nodup_finRange _) (not_idle hstate) fun fd _ => h.closed np hidle fd
    rw [Files.sysFork, bind_of_ok (get_apply s), bind_of_ok (onKernel_of_ok hfork), hspawned.first]
    simp only
    rw [bind_of_ok hdup]
    exact ⟨t, own', rfl, hinv', hkernel'⟩
  · rw [hfork] at hfault
    cases hfault
  · rw [hfork] at hfault
    cases hfault

theorem sysFork_of_error {e : Fault} (hfault : Kernel.fork im p s.kernel = .error e) :
    Files.sysFork im p s = .error e := by
  rw [Files.sysFork, bind_of_ok (get_apply s)]
  exact bind_of_error (onKernel_of_error hfault)

theorem sysFork (h : FileInv im boot holds own 0 s) (hp : (s.kernel.proc p).state = .runnable) :
    (∃ res t own', Files.sysFork im p s = .ok (res, t) ∧ FileInv im boot holds own' 0 t) ∨
      ∃ e, Files.sysFork im p s = .error e ∧ ¬IsCountPanic e := by
  rcases h.kernel.fork (h.kernel.pagetable_ne_zero hp) with
    ⟨res, k', -, -, hfork, -⟩ | hfault | hfault
  · obtain ⟨t, own', hrun, hinv, -⟩ := h.sysFork_of_ok hp hfork
    exact .inl ⟨res, t, own', hrun, hinv⟩
  · exact .inr ⟨_, sysFork_of_error hfault, by simp [IsCountPanic]⟩
  · exact .inr ⟨_, sysFork_of_error hfault, by simp [IsCountPanic]⟩

theorem closeFiles (fds : List Fd) (h : FileInv im boot holds own 0 s)
    (hrest : ∀ fd, fd ∉ fds → s.ofile p fd = none) :
    ∃ t own', Files.closeFiles im p fds s = .ok ((), t) ∧ FileInv im boot holds own' 0 t ∧
      SameTables s.kernel t.kernel ∧ ∀ fd, t.ofile p fd = none := by
  induction fds generalizing s own with
  | nil => exact ⟨s, own, rfl, h, ⟨rfl, rfl, rfl, rfl⟩, fun fd => hrest fd (by simp)⟩
  | cons fd fds ih =>
    rw [Files.closeFiles, bind_of_ok (get_apply s)]
    cases hslot : s.ofile p fd with
    | none =>
      refine ih h fun fd' hfd' => ?_
      by_cases heq : fd' = fd
      · rw [heq, hslot]
      · exact hrest fd' (by simp [heq, hfd'])
    | some f =>
      obtain ⟨u, own1, hclose, hinv, hofile, htables⟩ := h.fileclose (h.ref_pos hslot le_rfl)
      have hcleared := hinv.clearFd (show u.ofile p fd = some f by rw [hofile, hslot])
      rw [sub_add_cancel] at hcleared
      obtain ⟨t, own', hrun, hinv', htables', hnone⟩ := ih hcleared fun fd' hfd' => by
        by_cases heq : fd' = fd
        · rw [heq, State.setFd_same]
        · rw [State.setFd_of_ne _ _ _ _ (.inr heq), hofile]
          exact hrest fd' (by simp [heq, hfd'])
      simp only
      rw [bind_of_ok hclose, bind_of_ok (modify_apply _ _)]
      exact ⟨t, own', hrun, hinv', htables.trans htables', hnone⟩

theorem sysExit (h : FileInv im boot holds own 0 s) (hp : (s.kernel.proc p).state = .runnable)
    (status : Int) :
    (∃ t own', Files.sysExit im p status s = .ok ((), t) ∧ FileInv im boot holds own' 0 t) ∨
      ∃ e, Files.sysExit im p status s = .error e ∧ ¬IsCountPanic e := by
  rw [Files.sysExit, bind_of_ok (get_apply s)]
  split
  next => exact .inr ⟨_, rfl, by simp [IsCountPanic]⟩
  next =>
    obtain ⟨u, own1, hclose, hinv, htables, hnone⟩ :=
      h.closeFiles (p := p) (List.finRange nofile) fun fd hfd => (hfd (List.mem_finRange fd)).elim
    rw [bind_of_ok hclose]
    have hpu : (u.kernel.proc p).state = .runnable := by rwa [htables.proc]
    rcases hinv.kernel.exit (hinv.kernel.pagetable_ne_zero hpu) status with
      ⟨k', hexit, hkernel, -, hstate⟩ | hfault
    · refine .inl ⟨_, own1, onKernel_of_ok hexit, hinv.setKernel hkernel (.refl own1) ?_⟩
      intro q hq fd
      by_cases hqp : q = p
      · rw [hqp, hnone]
      · rw [hstate q hqp] at hq
        exact hinv.closed q hq fd
    · exact .inr ⟨_, onKernel_of_error hfault, by simp [IsCountPanic]⟩

/-! ## Calls -/

/-- The processes other than those that a call of `wait` frees keep their states. -/
theorem sysWait (h : FileInv im boot [] own 0 s) (hp : (s.kernel.proc p).state = .runnable)
    (addr : Nat) :
    ∃ res t own', onKernel (Kernel.wait im p addr) s = .ok (res, t) ∧
      FileInv im boot [] own' 0 t := by
  rcases h.kernel.wait (h.kernel.pagetable_ne_zero hp) addr with
    ⟨res, k', own', hwait, hkernel, hglobal, hcases⟩ | ⟨-, np, -, hheld⟩
  · refine ⟨res, _, own', onKernel_of_ok hwait, h.setKernel hkernel hglobal fun q hq fd => ?_⟩
    rcases hcases with ⟨hproc, -⟩ | ⟨np, hfind, hreaped, -⟩
    · rw [hproc] at hq
      exact h.closed q hq fd
    · by_cases hqn : q = np
      · rw [hqn]
        exact h.closed np (.inr (KernelInv.zombieChild_state hfind)) fd
      · rw [hreaped.other q hqn] at hq
        exact h.closed q hq fd
  · exact (hheld (by simp [HoldsNothing])).elim

theorem sysExec (h : FileInv im boot [] own 0 s) (hp : (s.kernel.proc p).state = .runnable)
    (file : Option (List (BitVec 8))) (uargv : Nat) :
    ∃ res t own', onKernel (Kernel.sysExec im p file uargv) s = .ok (res, t) ∧
      FileInv im boot [] own' 0 t := by
  obtain ⟨res, k', own', hexec, hkernel, hreloaded, hglobal⟩ :=
    h.kernel.sysExec (h.kernel.pagetable_ne_zero hp) (by simp [HoldsNothing]) file uargv
  refine ⟨res, _, own', onKernel_of_ok hexec, h.setKernel hkernel hglobal fun q hq fd => ?_⟩
  by_cases hqp : q = p
  · rw [hqp, hreloaded.entry.2.1, hp] at hq
    exact (not_idle rfl hq).elim
  · rw [hreloaded.other q hqp] at hq
    exact h.closed q hq fd

theorem sysSbrk (h : FileInv im boot holds own 0 s) (hp : (s.kernel.proc p).state = .runnable)
    (n : Int) :
    ∃ res t own', onKernel (Kernel.sbrk im p n) s = .ok (res, t) ∧ FileInv im boot holds own' 0 t := by
  obtain ⟨res, k', own', hsbrk, hkernel, hglobal, -, -, hproc, -⟩ :=
    h.kernel.sbrk (h.kernel.pagetable_ne_zero hp) n
  refine ⟨_, _, own', onKernel_of_ok hsbrk, h.setKernel hkernel hglobal fun q hq fd => ?_⟩
  rw [hproc q] at hq
  exact h.closed q hq fd

end FileInv

/-- The calls that give the caller new descriptors. -/
def Call.Opens : Call → Prop
  | .sysOpen .. => True
  | .sysDup _ => True
  | .sysPipe _ => True
  | _ => False

namespace FileInv

variable {im : Image} {boot : Nat → Prop} {own : Nat → Role} {s t : State} {p : ProcId}

/-- Every call keeps the invariant or panics for another reason than a wrong count.  A call that
should have given new descriptors and fails leaves them all as they were. -/
theorem serve (h : FileInv im boot [] own 0 s) (hp : (s.kernel.proc p).state = .runnable)
    (call : Call) :
    (∃ res t own', call.serve im p s = .ok (res, t) ∧ FileInv im boot [] own' 0 t ∧
      (call.Opens → res = some (-1) → t.ofile = s.ofile)) ∨
    ∃ e, call.serve im p s = .error e ∧ ¬IsCountPanic e := by
  cases call with
  | sysOpen ip omode =>
    obtain ⟨res, t, own', hrun, hinv, hsame⟩ := h.sysOpen hp ip omode
    exact .inl ⟨some res, t, own', bind_of_ok hrun, hinv,
      fun _ hres => hsame (Option.some.inj hres)⟩
  | sysDup fd =>
    obtain ⟨res, t, hrun, hinv, hsame⟩ := h.sysDup hp fd
    exact .inl ⟨some res, t, own, bind_of_ok hrun, hinv, fun _ hres => hsame (Option.some.inj hres)⟩
  | sysPipe fdarray =>
    obtain ⟨res, t, own', hrun, hinv, hsame⟩ := h.sysPipe hp fdarray
    exact .inl ⟨some res, t, own', bind_of_ok hrun, hinv,
      fun _ hres => hsame (Option.some.inj hres)⟩
  | sysClose fd =>
    obtain ⟨res, t, own', hrun, hinv⟩ := h.sysClose (p := p) fd
    exact .inl ⟨some res, t, own', bind_of_ok hrun, hinv, False.elim⟩
  | sysFork =>
    rcases h.sysFork hp with ⟨res, t, own', hrun, hinv⟩ | ⟨e, hrun, he⟩
    · exact .inl ⟨some res, t, own', bind_of_ok hrun, hinv, False.elim⟩
    · exact .inr ⟨e, bind_of_error hrun, he⟩
  | sysExec file uargv =>
    obtain ⟨res, t, own', hrun, hinv⟩ := h.sysExec hp file uargv
    exact .inl ⟨some res, t, own', bind_of_ok hrun, hinv, False.elim⟩
  | sysSbrk n =>
    obtain ⟨res, t, own', hrun, hinv⟩ := h.sysSbrk hp n
    exact .inl ⟨some res, t, own', bind_of_ok hrun, hinv, False.elim⟩
  | sysExit status =>
    rcases h.sysExit hp status with ⟨t, own', hrun, hinv⟩ | ⟨e, hrun, he⟩
    · exact .inl ⟨none, t, own', bind_of_ok hrun, hinv, False.elim⟩
    · exact .inr ⟨e, bind_of_error hrun, he⟩
  | sysWait addr =>
    obtain ⟨res, t, own', hrun, hinv⟩ := h.sysWait hp addr
    exact .inl ⟨res, t, own', hrun, hinv, False.elim⟩

/-- The invariant does not depend on the allocations that will fail. -/
theorem withFails (h : FileInv im boot [] own 0 s) (fails : List Bool) :
    FileInv im boot [] own 0 (s.withFails fails) :=
  h.setKernel (h.kernel.withFails fails) (.refl own) h.closed

end FileInv

variable {im : Image} {s : State}

theorem perform_eq_some {ev : Event} {done : Option Int × State} (h : perform im s ev = some done) :
    (s.kernel.proc ev.proc).state = .runnable ∧
      ev.call.serve im ev.proc (s.withFails ev.fails) = .ok done := by
  unfold perform at h
  split at h
  next hstate =>
    split at h
    next hserve =>
      cases h
      exact ⟨hstate, hserve⟩
    next => cases h
  next => cases h

/-- The invariant, for some roles of the pages. -/
def Kept (im : Image) (boot : Nat → Prop) (holds : List Holding) (s : State) : Prop :=
  ∃ own, FileInv im boot holds own 0 s

theorem Kept.step {boot : Nat → Prop} {t : State} {ev : Event} (h : Kept im boot [] s)
    (hstep : StepOf (Files.step im) s ev t) : Kept im boot [] t := by
  obtain ⟨own, hinv⟩ := h
  obtain ⟨⟨res, u⟩, hperform, rfl⟩ := Option.map_eq_some_iff.mp hstep
  obtain ⟨hstate, hrun⟩ := perform_eq_some hperform
  rcases (hinv.withFails ev.fails).serve hstate ev.call with
    ⟨res', u', own', hserve, hinv', -⟩ | ⟨e, hserve, -⟩
  · rw [hserve] at hrun
    cases hrun
    exact ⟨own', hinv'⟩
  · rw [hserve] at hrun
    cases hrun

/-- The pages that are not on the allocator's list when the machine has booted. -/
def reservedAt (k : KernelState) (page : Nat) : Prop := ¬k.ram.OnFreeList page

/-- The invariant holds when the first process is ready: no file is open. -/
theorem Kept.start {k0 k : KernelState} (hboot : Booted im k0)
    (hrun : userinit im k0 = .ok ((), k)) : Kept im (reservedAt k0) [] (State.start k) := by
  obtain ⟨own, hinv, hcases, hsupply⟩ := hboot.kernelInv
  obtain ⟨own', p, hinv', -, -, hglobal⟩ := hinv.userinit hsupply hrun
  have hnopipe : ∀ pa, own' pa ≠ .pipe := by
    intro pa hpa
    have hold := (hglobal.eq_iff (show Role.pipe.Global from trivial) pa).mp hpa
    rcases hcases pa with hkernel | hfree
    · simp [hold] at hkernel
    · simp [hold] at hfree
  refine ⟨own', hinv', fun q => ?_, fun _ q hq => ?_, fun f => ?_,
    ⟨fun _ _ => rfl, fun pa e => ?_, fun f g x hf => ?_, fun pa hpa => (hnopipe pa hpa).elim,
      fun pa => ?_⟩, fun _ _ _ => rfl⟩
  · rw [hglobal.eq_iff (show Role.kernel.Global from trivial) q, reservedAt,
      hinv.spaces.owned.onFreeList_iff]
    rcases hcases q with hkernel | hfree
    · simp [hkernel]
    · simp [hfree]
  · rw [hglobal q (.inr hq)] at *
    exact .inl ((hcases q).resolve_right fun hfree => by rw [hfree] at hq; exact hq)
  · have hnone : references (State.start k).slots f = 0 := references_eq_zero (fun _ => rfl) f
    rw [hnone]
    rfl
  · simp [hnopipe pa, File.pipeEnd, State.start, File.zero]
  · cases hf
  · simp [hnopipe pa, State.start]

/-- Some descriptor refers to an end of the pipe at an address. -/
def State.RefersToPipe (s : State) (pa : Nat) : Prop :=
  ∃ p fd f, s.ofile p fd = some f ∧ (s.file f).type = .pipe ∧ (s.file f).pipe = pa

/-- A pipe is alive exactly as long as a descriptor refers to one of its ends. -/
theorem FileInv.refersToPipe_iff {boot : Nat → Prop} {own : Nat → Role}
    (h : FileInv im boot [] own 0 s) (pa : Nat) : s.RefersToPipe pa ↔ own pa = .pipe := by
  constructor
  · rintro ⟨p, fd, f, -, hf, rfl⟩
    exact ((h.ends.stands _ _).mp ⟨f, File.pipeEnd_of_pipe hf⟩).1
  · intro hpa
    obtain ⟨e, he⟩ := h.ends.some_open pa hpa
    obtain ⟨f, hf, hfpa, -⟩ : ∃ f, (s.file f).type = .pipe ∧ (s.file f).pipe = pa ∧ _ := by
      simpa [File.pipeEnd] using (h.ends.stands pa e).mpr ⟨hpa, he⟩
    have href : (s.file f).ref ≠ 0 := fun hzero => by
      rw [h.ends.idle f hzero] at hf
      cases hf
    have hpos : 0 < references s.slots f := by
      have hrefs := h.refs f
      rw [Pi.zero_apply] at hrefs
      omega
    obtain ⟨⟨p, fd⟩, hslot⟩ := references_pos_iff.mp hpos
    exact ⟨p, fd, f, hslot, hf, hfpa⟩

/-- In every state that calls of any processes lead to, with any page allocations failing: every
reference count is the number of descriptors that refer to the file; no call panics over a
count; the page of a pipe has been given back as often as taken if no descriptor refers to an
end of the pipe, and once less otherwise; and a call that fails to give new descriptors
changes neither descriptors nor counts. -/
theorem references_exact {im : Image} {k : KernelState} {s : State} {events : List Event}
    (hstart : Started im k) (hrun : Run (StepOf (step im)) (.start k) events s) :
    (∀ f, (s.file f).ref = references s.slots f) ∧
    (∀ p call fails e, (s.kernel.proc p).state = .runnable →
      Call.serve im p call (s.withFails fails) = .error e →
        e ≠ .panic "filedup" ∧ e ≠ .panic "fileclose") ∧
    (∀ pa, (s.RefersToPipe pa → s.pipesMade.count pa = s.pipesFreed.count pa + 1) ∧
      (¬s.RefersToPipe pa → s.pipesMade.count pa = s.pipesFreed.count pa)) ∧
    ∀ ev t, ev.call.Opens → perform im s ev = some (some (-1), t) →
      t.ofile = s.ofile ∧ ∀ f, (t.file f).ref = (s.file f).ref := by
  obtain ⟨k0, hboot, hinit⟩ := hstart
  obtain ⟨own, hinv⟩ : Kept im (reservedAt k0) [] s := hrun.invariant Kept.step (.start hboot hinit)
  refine ⟨fun f => ?_, fun p call fails e hp he => ?_, fun pa => ?_, fun ev t hopens hperform => ?_⟩
  · rw [hinv.refs f, Pi.zero_apply, add_zero]
  · rcases (hinv.withFails fails).serve hp call with ⟨res, t, own', hserve, -⟩ | ⟨e', hserve, hne⟩
    · rw [hserve] at he
      cases he
    · rw [hserve] at he
      cases he
      exact not_or.mp hne
  · rw [hinv.refersToPipe_iff, hinv.ends.count pa]
    exact ⟨fun hpa => by rw [if_pos hpa], fun hpa => by rw [if_neg hpa, add_zero]⟩
  · obtain ⟨hp, hserve⟩ := perform_eq_some hperform
    rcases (hinv.withFails ev.fails).serve hp ev.call with
      ⟨res, u, own', hserve', hinv', hsame⟩ | ⟨e, hserve', -⟩
    · rw [hserve'] at hserve
      cases hserve
      have hofile : t.ofile = s.ofile := hsame hopens rfl
      refine ⟨hofile, fun f => ?_⟩
      have hslots : t.slots = s.slots := by
        unfold State.slots
        rw [hofile]
      rw [hinv'.refs f, hinv.refs f, hslots]
    · rw [hserve'] at hserve
      cases hserve

/-- The first process makes a pipe and a child, and both close one end. -/
theorem references_exact_small : ∃ s, Run (StepOf (step smallImage)) (.start smallStart)
    [⟨0, .sysPipe 0, []⟩, ⟨0, .sysFork, []⟩, ⟨0, .sysClose 0, []⟩, ⟨1, .sysClose 1, []⟩] s ∧
      ∀ f, (s.file f).ref = references s.slots f := by
  have hok : (exec (step smallImage) (.start smallStart) [⟨0, .sysPipe 0, []⟩, ⟨0, .sysFork, []⟩,
      ⟨0, .sysClose 0, []⟩, ⟨1, .sysClose 1, []⟩]).isSome = true := by decide +kernel
  obtain ⟨s, hexec⟩ := Option.isSome_iff_exists.mp hok
  exact ⟨s, run_of_exec hexec, (references_exact smallStart_started (run_of_exec hexec)).1⟩

end Files
end FastIpc
