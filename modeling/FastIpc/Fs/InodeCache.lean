import FastIpc.Foundation.Run
import FastIpc.Fs.Format

/-!
# Coherence of the inode cache

The functions of `kernel/fs.c` on the table of in-memory inodes, interleaved where `icache.lock` or
the sleep lock of an inode is released.  `iput` releases `icache.lock` between its test and the end
of the inode, and `ialloc` between claiming a number and `iget`; the processes that are there have a
frame that says how they go on.

Main results:

- Theorem `Inv.step`: entries are unique, counted and equal to the disk after every step.
- Theorem `icache_coherent`: the same for whole runs, and what may be freed.
- Theorem `ilock_returns`: an inode that a process has a reference to can be locked.
-/

namespace FastIpc
namespace Fs
namespace InodeCache

open Foundation
open Function (update update_apply update_eq_self update_of_ne update_self)

/-- `NINODE`, the number of entries. -/
abbrev ninode : Nat := 50

abbrev Slot := Fin ninode

/-- The device and the number of an inode. -/
abbrev Key := BitVec 32 × BitVec 32

/-- An entry of `icache.inode`, without its lock. -/
structure Entry where
  key : Key
  ref : Nat
  valid : Bool
  ip : Dinode

/-- Where a process is: at its next call, before a part of `iput`, or before the `iget` of
`ialloc`. -/
inductive Frame where
  | idle
  | trunc (k : Slot)
  | free (k : Slot)
  | release (k : Slot)
  | drop (k : Slot)
  | ialloc (x : Key)
  deriving DecidableEq

/-- The table with the holders of the locks, the inodes as the buffer cache has them, and the
references that processes have. -/
structure State (P : Type) where
  entry : Slot → Entry
  owner : Slot → Option P
  disk : Key → Dinode
  refs : List (P × Slot)
  frame : P → Frame

/-- The calls, and the next part of the call that a process is in. -/
inductive Act (P : Type) where
  | iget (p : P) (x : Key)
  | idup (p : P) (k : Slot)
  | ilock (p : P) (k : Slot)
  | iunlock (p : P) (k : Slot)
  | writei (p : P) (k : Slot) (size : BitVec 32) (addrs : Fin (ndirect + 1) → BitVec 32)
  | itrunc (p : P) (k : Slot)
  | iput (p : P) (k : Slot)
  | ialloc (p : P) (x : Key) (type : BitVec 16)
  | proceed (p : P)

variable {P : Type}

/-- The references to an entry that processes have. -/
def State.outstanding (s : State P) (k : Slot) : Nat := s.refs.countP fun r => r.2 = k

/-- What holds between any two steps.  Only a process that is about to release an inode it has freed
may find the disk ahead of it. -/
structure Inv (s : State P) : Prop where
  unique : ∀ k k', 0 < (s.entry k).ref → 0 < (s.entry k').ref →
    (s.entry k).key = (s.entry k').key → k = k'
  counted : ∀ k, (s.entry k).ref = s.outstanding k
  coherent : ∀ k, 0 < (s.entry k).ref → (s.entry k).valid = true →
    (∀ p, s.owner k = some p → s.frame p ≠ .release k) →
      (s.entry k).ip = s.disk (s.entry k).key ∧ (s.entry k).ip.type ≠ 0
  owned : ∀ k p, s.owner k = some p → (p, k) ∈ s.refs ∧ (s.entry k).valid = true
  ending : ∀ p k, s.frame p = .trunc k ∨ s.frame p = .free k →
    s.owner k = some p ∧ (s.entry k).ip.nlink = 0
  releasing : ∀ p k, s.frame p = .release k → s.owner k = some p
  dropping : ∀ p k, s.frame p = .drop k → (p, k) ∈ s.refs ∧ s.owner k ≠ some p

theorem Inv.ref_pos {p : P} {k : Slot} {s : State P} (h : Inv s) (hmem : (p, k) ∈ s.refs) :
    0 < (s.entry k).ref := by
  rw [h.counted, State.outstanding, List.countP_pos_iff]
  exact ⟨_, hmem, by simp⟩

variable [DecidableEq P]

namespace State

abbrev goto (s : State P) (p : P) (f : Frame) : State P := { s with frame := update s.frame p f }

/-- A process gets a reference to an entry. -/
abbrev take (s : State P) (p : P) (k : Slot) (e : Entry) : State P :=
  { s with
    entry := update s.entry k e
    refs := (p, k) :: s.refs
    frame := update s.frame p .idle }

/-- Change the inode in memory and `iupdate` it. -/
abbrev iupdate (s : State P) (k : Slot) (ip : Dinode) : State P :=
  { s with
    entry := update s.entry k { s.entry k with ip := ip }
    disk := update s.disk (s.entry k).key ip }

/-- `iget`; it does not return if no entry is free. -/
def iget (s : State P) (p : P) (x : Key) : Option (State P) :=
  match (List.finRange ninode).find? fun k => 0 < (s.entry k).ref ∧ (s.entry k).key = x with
  | some k => some (s.take p k { s.entry k with ref := (s.entry k).ref + 1 })
  | none =>
    match (List.finRange ninode).find? fun k => (s.entry k).ref = 0 with
    | some k => some (s.take p k { s.entry k with key := x, ref := 1, valid := false })
    | none => none

/-- `ilock` once the lock is free; it panics if the inode has no type. -/
def ilock (s : State P) (p : P) (k : Slot) : Option (State P) :=
  let s := { s with owner := update s.owner k (some p) }
  if (s.entry k).valid then
    some s
  else
    let ip := s.disk (s.entry k).key
    if ip.type = 0 then
      none
    else
      some { s with entry := update s.entry k { s.entry k with ip := ip, valid := true } }

/-- The end of `iput`. -/
abbrev dropRef (s : State P) (p : P) (k : Slot) : State P :=
  { s with
    entry := update s.entry k { s.entry k with ref := (s.entry k).ref - 1 }
    refs := s.refs.erase (p, k)
    frame := update s.frame p .idle }

/-- `iput` up to the first release of `icache.lock`. -/
def iput (s : State P) (p : P) (k : Slot) : Option (State P) :=
  if (s.entry k).ref = 1 ∧ (s.entry k).valid ∧ (s.entry k).ip.nlink = 0 then
    if s.owner k = none then
      some { s.goto p (.trunc k) with owner := update s.owner k (some p) }
    else
      none
  else
    some (s.dropRef p k)

/-- The next part of a call. -/
def proceed (s : State P) (p : P) : Option (State P) :=
  match s.frame p with
  | .idle => none
  | .trunc k =>
    some ((s.iupdate k { (s.entry k).ip with size := 0, addrs := fun _ => 0 }).goto p (.free k))
  | .free k => some ((s.iupdate k { (s.entry k).ip with type := 0 }).goto p (.release k))
  | .release k =>
    some { s.goto p (.drop k) with
      entry := update s.entry k { s.entry k with valid := false }
      owner := update s.owner k none }
  | .drop k => some (s.dropRef p k)
  | .ialloc x => s.iget p x

/-- One step.  A process uses the inodes that it has references to, changes those that it has
locked, and gives up those that it has not. -/
def step (ninodes : Nat) (s : State P) : Act P → Option (State P)
  | .iget p x => if s.frame p = .idle then s.iget p x else none
  | .idup p k =>
    if s.frame p = .idle ∧ (p, k) ∈ s.refs then
      some (s.take p k { s.entry k with ref := (s.entry k).ref + 1 })
    else none
  | .ilock p k =>
    if s.frame p = .idle ∧ (p, k) ∈ s.refs ∧ s.owner k = none then s.ilock p k else none
  | .iunlock p k =>
    if s.frame p = .idle ∧ s.owner k = some p then
      some { s with owner := update s.owner k none }
    else none
  | .writei p k size addrs =>
    if s.frame p = .idle ∧ s.owner k = some p then
      some ((s.iupdate k { (s.entry k).ip with size := size, addrs := addrs }).goto p .idle)
    else none
  | .itrunc p k =>
    if s.frame p = .idle ∧ s.owner k = some p then
      some ((s.iupdate k { (s.entry k).ip with size := 0, addrs := fun _ => 0 }).goto p .idle)
    else none
  | .iput p k =>
    if s.frame p = .idle ∧ (p, k) ∈ s.refs ∧ s.owner k ≠ some p then s.iput p k else none
  | .ialloc p x type =>
    if s.frame p = .idle ∧ (1 ≤ x.2.toNat ∧ x.2.toNat < ninodes) ∧ (s.disk x).type = 0 then
      some { s.goto p (.ialloc x) with disk := update s.disk x { Dinode.zero with type := type } }
    else none
  | .proceed p => s.proceed p

end State

/-! ## What a step changes -/

/-- The process calls `iget` for the inode, directly or at the end of `ialloc`. -/
def State.Gets (s : State P) (a : Act P) (p : P) (x : Key) : Prop :=
  a = .iget p x ∧ s.frame p = .idle ∨ a = .proceed p ∧ s.frame p = .ialloc x

/-- The effects of a step, with what is known of the process that takes it. -/
inductive Change (s : State P) : Act P → State P → Prop where
  | share {a p x k} (hget : s.Gets a p x) (hpos : 0 < (s.entry k).ref)
      (hkey : (s.entry k).key = x) :
      Change s a (s.take p k { s.entry k with ref := (s.entry k).ref + 1 })
  | bind {a p x k} (hget : s.Gets a p x) (hzero : (s.entry k).ref = 0)
      (hnew : ∀ k', 0 < (s.entry k').ref → (s.entry k').key ≠ x) :
      Change s a (s.take p k { s.entry k with key := x, ref := 1, valid := false })
  | dup {p k} (hidle : s.frame p = .idle) (hmem : (p, k) ∈ s.refs) :
      Change s (.idup p k) (s.take p k { s.entry k with ref := (s.entry k).ref + 1 })
  | lock {p k e} (hidle : s.frame p = .idle) (hmem : (p, k) ∈ s.refs) (hfree : s.owner k = none)
      (he : e = s.entry k ∧ e.valid = true ∨
        e = { s.entry k with ip := s.disk (s.entry k).key, valid := true } ∧ e.ip.type ≠ 0) :
      Change s (.ilock p k)
        { s with entry := update s.entry k e, owner := update s.owner k (some p) }
  | unlock {p k} (hidle : s.frame p = .idle) (hown : s.owner k = some p) :
      Change s (.iunlock p k) { s with owner := update s.owner k none }
  | write {a p k ip f} (hown : s.owner k = some p)
      (hnext : s.frame p = .idle ∧ f = .idle ∨ s.frame p = .trunc k ∧ f = .free k)
      (htype : ip.type = (s.entry k).ip.type) (hnlink : ip.nlink = (s.entry k).ip.nlink) :
      Change s a ((s.iupdate k ip).goto p f)
  | found {p k} (hidle : s.frame p = .idle) (hmem : (p, k) ∈ s.refs) (hfree : s.owner k = none)
      (hone : (s.entry k).ref = 1) (hvalid : (s.entry k).valid = true)
      (hnlink : (s.entry k).ip.nlink = 0) :
      Change s (.iput p k) { s.goto p (.trunc k) with owner := update s.owner k (some p) }
  | drop {a p k} (hframe : s.frame p = .idle ∨ s.frame p = .drop k) (hmem : (p, k) ∈ s.refs)
      (hown : s.owner k ≠ some p) : Change s a (s.dropRef p k)
  | free {p k} (hframe : s.frame p = .free k) (hown : s.owner k = some p) :
      Change s (.proceed p)
        ((s.iupdate k { (s.entry k).ip with type := 0 }).goto p (.release k))
  | release {p k} (hframe : s.frame p = .release k) (hown : s.owner k = some p) :
      Change s (.proceed p) { s.goto p (.drop k) with
        entry := update s.entry k { s.entry k with valid := false }
        owner := update s.owner k none }
  | alloc {p x type} (hidle : s.frame p = .idle) (hdisk : (s.disk x).type = 0) :
      Change s (.ialloc p x type) { s.goto p (.ialloc x) with
        disk := update s.disk x { Dinode.zero with type := type } }

namespace Inv

variable {s t : State P} {p : P} {k : Slot} {x : Key} {e : Entry} {a : Act P}

theorem change_iget (hget : s.Gets a p x) (hrun : s.iget p x = some t) : Change s a t := by
  unfold State.iget at hrun
  split at hrun
  next k hk =>
    cases hrun
    have hfound := List.find?_some hk
    rw [decide_eq_true_eq] at hfound
    exact .share hget hfound.1 hfound.2
  next hnone =>
    split at hrun
    next k hk =>
      cases hrun
      refine .bind hget (by simpa using List.find?_some hk) fun k' hpos heq => ?_
      exact List.find?_eq_none.mp hnone k' (List.mem_finRange k') (decide_eq_true ⟨hpos, heq⟩)
    next => cases hrun

theorem change_proceed (h : Inv s) (hrun : s.proceed p = some t) : Change s (.proceed p) t := by
  unfold State.proceed at hrun
  split at hrun
  next => cases hrun
  next k hf =>
    cases hrun
    exact .write (h.ending p k (.inl hf)).1 (.inr ⟨hf, rfl⟩) rfl rfl
  next k hf =>
    cases hrun
    exact .free hf (h.ending p k (.inr hf)).1
  next k hf =>
    cases hrun
    exact .release hf (h.releasing p k hf)
  next k hf =>
    cases hrun
    exact .drop (.inr hf) (h.dropping p k hf).1 (h.dropping p k hf).2
  next x hf => exact change_iget (.inr ⟨rfl, hf⟩) hrun

/-- A step has one of the effects. -/
theorem change {ninodes : Nat} (h : Inv s) (hstep : StepOf (State.step ninodes) s a t) :
    Change s a t := by
  unfold StepOf State.step at hstep
  split at hstep
  case h_9 p => exact h.change_proceed hstep
  all_goals
    split at hstep
    case isFalse => cases hstep
  next p x hf => exact change_iget (.inl ⟨rfl, hf⟩) hstep
  next p k hf =>
    cases hstep
    exact .dup hf.1 hf.2
  next p k hf =>
    unfold State.ilock at hstep
    dsimp only at hstep
    split at hstep
    next hvalid =>
      cases hstep
      have hlock := Change.lock hf.1 hf.2.1 hf.2.2 (.inl ⟨rfl, hvalid⟩)
      rwa [update_eq_self] at hlock
    next =>
      split at hstep
      next => cases hstep
      next htype =>
        cases hstep
        exact .lock hf.1 hf.2.1 hf.2.2 (.inr ⟨rfl, htype⟩)
  next p k hf =>
    cases hstep
    exact .unlock hf.1 hf.2
  next p k size addrs hf =>
    cases hstep
    exact .write hf.2 (.inl ⟨hf.1, rfl⟩) rfl rfl
  next p k hf =>
    cases hstep
    exact .write hf.2 (.inl ⟨hf.1, rfl⟩) rfl rfl
  next p k hf =>
    unfold State.iput at hstep
    split at hstep
    next htest =>
      split at hstep <;> cases hstep
      next hfree => exact .found hf.1 hf.2.1 hfree htest.1 htest.2.1 htest.2.2
    next =>
      cases hstep
      exact .drop (.inl hf.1) hf.2.1 hf.2.2
  next p x type hf =>
    cases hstep
    exact .alloc hf.1 hf.2.2

/-! ## Coherence -/

/-- A process gets a reference, to an entry in use or to one that it binds to an inode which has
none. -/
theorem take (h : Inv s) (hf : s.frame p = .idle ∨ ∃ x, s.frame p = .ialloc x)
    (hnew : e = { s.entry k with ref := (s.entry k).ref + 1 } ∧ 0 < (s.entry k).ref ∨
      e = { s.entry k with key := x, ref := 1, valid := false } ∧ (s.entry k).ref = 0 ∧
        ∀ k', 0 < (s.entry k').ref → (s.entry k').key ≠ x) :
    Inv (s.take p k e) := by
  have hpos := fun p k => ref_pos (p := p) (k := k) h
  obtain ⟨hunique, hcounted, hcoherent, howned, hending, hreleasing, hdropping⟩ := h
  constructor
  case unique =>
    -- An entry that is bound anew is the only one of its inode.
    grind -ring -linarith [update_apply]
  case counted =>
    intro k'
    have hold := hcounted k'
    simp only [State.outstanding, List.countP_cons] at hold ⊢
    grind -ring -linarith [update_apply]
  case coherent =>
    -- Such an entry is not valid, and another one keeps its inode.
    grind -ring -linarith [update_apply]
  -- The process was in no part of `iput`, and the references of others stay.
  all_goals grind -ring -linarith [update_apply]

/-- The holder of an inode changes it and goes on.  It frees the inode only if it then releases
it. -/
theorem iupdate (h : Inv s) {ip : Dinode} {f : Frame} (hown : s.owner k = some p)
    (hnext : (s.frame p = .idle ∧ f = .idle ∨ s.frame p = .trunc k ∧ f = .free k) ∧
        ip.type = (s.entry k).ip.type ∧ ip.nlink = (s.entry k).ip.nlink ∨
      s.frame p = .free k ∧ f = .release k) :
    Inv ((s.iupdate k ip).goto p f) := by
  have hpos := fun p k => ref_pos (p := p) (k := k) h
  obtain ⟨hunique, hcounted, hcoherent, howned, hending, hreleasing, hdropping⟩ := h
  constructor
  case counted =>
    intro k'
    have hold := hcounted k'
    grind -ring -linarith [State.outstanding, update_apply]
  case coherent =>
    -- Memory and disk change together, and no other entry has this inode.
    grind -ring -linarith [update_apply]
  case ending =>
    -- The number of links stays, or the process has freed the inode.
    grind -ring -linarith [update_apply]
  all_goals grind -ring -linarith [update_apply]

/-- A process that holds no lock on an entry drops a reference to it. -/
theorem dropRef (h : Inv s) (hmem : (p, k) ∈ s.refs) (hown : s.owner k ≠ some p)
    (hf : s.frame p = .idle ∨ s.frame p = .drop k) : Inv (s.dropRef p k) := by
  obtain ⟨hunique, hcounted, hcoherent, howned, hending, hreleasing, hdropping⟩ := h
  constructor
  case counted =>
    intro k'
    have hold := hcounted k'
    simp only [State.outstanding, List.countP_erase] at hold ⊢
    grind -ring -linarith [update_apply]
  -- Nobody else's references, locks or frames change.
  all_goals grind -ring -linarith [update_apply]

omit [DecidableEq P] in
theorem getting (hget : s.Gets a p x) : s.frame p = .idle ∨ ∃ x, s.frame p = .ialloc x :=
  hget.imp (fun hg => hg.2) fun hg => ⟨x, hg.2⟩

/-- Every step keeps the cache coherent. -/
theorem step {ninodes : Nat} (h : Inv s) (hstep : StepOf (State.step ninodes) s a t) : Inv t := by
  cases h.change hstep with
  | share hget hpos hkey => exact h.take (x := (0, 0)) (getting hget) (.inl ⟨rfl, hpos⟩)
  | bind hget hzero hnew => exact h.take (getting hget) (.inr ⟨rfl, hzero, hnew⟩)
  | dup hidle hmem => exact h.take (x := (0, 0)) (.inl hidle) (.inl ⟨rfl, h.ref_pos hmem⟩)
  | write hown hnext htype hnlink => exact h.iupdate hown (.inl ⟨hnext, htype, hnlink⟩)
  | free hframe hown => exact h.iupdate hown (.inr ⟨hframe, rfl⟩)
  | drop hframe hmem hown => exact h.dropRef hmem hown hframe
  | alloc hidle hdisk =>
    -- An inode that is free on disk has no valid entry.
    obtain ⟨hunique, hcounted, hcoherent, howned, hending, hreleasing, hdropping⟩ := h
    refine ⟨hunique, hcounted, ?_, howned, ?_, ?_, ?_⟩ <;> grind -ring -linarith [update_apply]
  | lock | unlock | found | release =>
    -- Entries keep their inodes and counts, and only the locked one changes.
    obtain ⟨hunique, hcounted, hcoherent, howned, hending, hreleasing, hdropping⟩ := h
    constructor
    case counted =>
      intro k'
      have hold := hcounted k'
      grind -ring -linarith [State.outstanding, update_apply]
    all_goals grind -ring -linarith [update_apply]

omit [DecidableEq P] in
/-- What the holder of a lock has in memory is what is on disk. -/
theorem coherent_of_owner (h : Inv s) (hown : s.owner k = some p) (hf : s.frame p ≠ .release k) :
    (s.entry k).ip = s.disk (s.entry k).key ∧ (s.entry k).ip.type ≠ 0 := by
  obtain ⟨hmem, hvalid⟩ := h.owned k p hown
  refine h.coherent k (h.ref_pos hmem) hvalid fun q hq => ?_
  rwa [← Option.some.inj (hown.symm.trans hq)]

omit [DecidableEq P] in
/-- The holder of an inode does not free it by writing to it. -/
theorem type_iupdate (h : Inv s) {ip : Dinode} (hown : s.owner k = some p)
    (hf : s.frame p ≠ .release k) (htype : ip.type = (s.entry k).ip.type)
    (hx : (s.disk x).type ≠ 0) : ((s.iupdate k ip).disk x).type ≠ 0 := by
  simp only [update_apply]
  split
  · rw [htype]
    exact (h.coherent_of_owner hown hf).2
  · exact hx

/-- The step that frees an inode is that of an `iput` which has found it without links. -/
theorem frees (h : Inv s) (hchange : Change s a t) (hbefore : (s.disk x).type ≠ 0)
    (hafter : (t.disk x).type = 0) :
    ∃ p k, a = .proceed p ∧ s.frame p = .free k ∧ (s.entry k).key = x ∧
      (s.disk x).nlink = 0 ∧ (p, k) ∈ s.refs := by
  cases hchange with
  | write hown hnext htype hnlink =>
    exact absurd hafter (h.type_iupdate hown (by grind) htype hbefore)
  | @free p k hframe hown =>
    by_cases hx : x = (s.entry k).key
    · have hnlink := (h.ending p k (.inr hframe)).2
      rw [(h.coherent_of_owner hown (by simp [hframe])).1, ← hx] at hnlink
      exact ⟨p, k, rfl, hframe, hx.symm, hnlink, (h.owned k p hown).1⟩
    · simp only [update_of_ne hx] at hafter
      exact absurd hafter hbefore
  | @alloc p y type hidle hdisk =>
    have hy : x ≠ y := by
      rintro rfl
      exact hbefore hdisk
    simp only [update_of_ne hy] at hafter
    exact absurd hafter hbefore
  | _ => exact absurd hafter hbefore

end Inv

/-! ## Freeing -/

/-- An `iput` has found that the inode can be freed, and has not freed it yet. -/
def State.BeingFreed (s : State P) (x : Key) : Prop :=
  ∃ k, (s.entry k).key = x ∧ ∃ p ∈ s.owner k, s.frame p = .trunc k ∨ s.frame p = .free k

instance (s : State P) (x : Key) : Decidable (s.BeingFreed x) :=
  inferInstanceAs (Decidable (∃ k, (s.entry k).key = x ∧ ∃ p ∈ s.owner k, _))

/-- The inode that a step calls `iget` for. -/
def State.gets (s : State P) : Act P → Option Key
  | .iget _ x => some x
  | .proceed p =>
    match s.frame p with
    | .ialloc x => some x
    | _ => none
  | _ => none

omit [DecidableEq P] in
theorem State.Gets.mem {s : State P} {a : Act P} {p : P} {x : Key} (h : s.Gets a p x) :
    x ∈ s.gets a := by
  obtain ⟨rfl, -⟩ | ⟨rfl, hframe⟩ := h
  · rfl
  · simp [State.gets, hframe]

/-- `iget` is not called for an inode that is being freed. -/
def GetsKept (s : State P) (a : Act P) : Prop := ∀ x ∈ s.gets a, ¬s.BeingFreed x

instance (s : State P) (a : Act P) : Decidable (GetsKept s a) :=
  Option.decidableForallMem (s.gets a)

/-- A process that frees an inode has the only reference to it. -/
def Sole (s : State P) : Prop :=
  ∀ p k, s.frame p = .trunc k ∨ s.frame p = .free k → s.outstanding k = 1

omit [DecidableEq P] in
theorem eq_of_outstanding_eq_one {s : State P} {p q : P} {k : Slot} (hone : s.outstanding k = 1)
    (hp : (p, k) ∈ s.refs) (hq : (q, k) ∈ s.refs) : p = q := by
  classical
  by_contra hne
  have hrest : (q, k) ∈ s.refs.erase (p, k) :=
    (List.mem_erase_of_ne fun h => hne (congrArg Prod.fst h).symm).mpr hq
  have hpos : 0 < (s.refs.erase (p, k)).countP fun r => r.2 = k :=
    List.countP_pos_iff.mpr ⟨_, hrest, by simp⟩
  rw [List.countP_erase, if_pos ⟨hp, by simp⟩] at hpos
  unfold State.outstanding at hone
  omega

namespace Sole

variable {s t : State P} {p : P} {k : Slot} {x : Key} {a : Act P}

/-- A process gets a reference to an entry that is not being freed. -/
theorem take (hs : Sole s) (e : Entry)
    (hk : ∀ q, ¬(s.frame q = .trunc k ∨ s.frame q = .free k)) : Sole (s.take p k e) := by
  intro q k' hq
  have hqp : q ≠ p := by
    rintro rfl
    simp at hq
  have hq' : s.frame q = .trunc k' ∨ s.frame q = .free k' := by
    simpa [State.take, update_of_ne hqp] using hq
  have hne : k ≠ k' := by
    rintro rfl
    exact hk q hq'
  simpa [State.outstanding, State.take, hne] using hs q k' hq'

/-- The reference that is dropped is not to an inode which another process frees. -/
theorem dropRef (h : Inv s) (hs : Sole s) (hmem : (p, k) ∈ s.refs)
    (hp : s.frame p = .idle ∨ s.frame p = .drop k) : Sole (s.dropRef p k) := by
  intro q k' hq
  have hqp : q ≠ p := by
    rintro rfl
    simp at hq
  have hq' : s.frame q = .trunc k' ∨ s.frame q = .free k' := by
    simpa [State.dropRef, update_of_ne hqp] using hq
  have hone := hs q k' hq'
  have hne : k ≠ k' := by
    rintro rfl
    exact hqp (eq_of_outstanding_eq_one hone (h.owned k q (h.ending q k hq').1).1 hmem)
  simpa [State.outstanding, State.dropRef, List.countP_erase, hne] using hone

/-- A process goes on within `iput`, or begins it with the only reference. -/
theorem goto (hs : Sole s) {u : State P} {f : Frame} (hrefs : u.refs = s.refs)
    (hframe : u.frame = update s.frame p f)
    (hf : ∀ k, f = .trunc k ∨ f = .free k → s.outstanding k = 1) : Sole u := by
  intro q k hq
  unfold State.outstanding at hf ⊢
  rw [hrefs]
  rw [hframe, update_apply] at hq
  split at hq
  · exact hf k hq
  · exact hs q k hq

/-- No step gives a second reference to an inode that is being freed. -/
theorem change (h : Inv s) (hs : Sole s) (hok : GetsKept s a) (hchange : Change s a t) :
    Sole t := by
  cases hchange with
  | share hget hpos hkey =>
    exact hs.take _ fun q hq => hok _ hget.mem ⟨_, hkey, q, (h.ending q _ hq).1, hq⟩
  | bind hget hzero hnew =>
    refine hs.take _ fun q hq => ?_
    have hpos := h.ref_pos (h.owned _ q (h.ending q _ hq).1).1
    omega
  | dup hidle hmem =>
    refine hs.take _ fun q hq => ?_
    have hp := eq_of_outstanding_eq_one (hs q _ hq) (h.owned _ q (h.ending q _ hq).1).1 hmem
    rw [hp, hidle] at hq
    simp at hq
  | drop hframe hmem hown => exact hs.dropRef h hmem hframe
  | lock | unlock => exact hs
  | @found p k hidle hmem hfree hone hvalid hnlink =>
    refine hs.goto (p := p) (f := .trunc k) rfl rfl fun k' hk => ?_
    obtain rfl : k = k' := by simpa using hk
    rw [← h.counted]
    exact hone
  | @write a p k ip f hown hnext =>
    refine hs.goto (p := p) (f := f) rfl rfl fun k' hk => hs p k' ?_
    obtain ⟨-, rfl⟩ | ⟨hframe, rfl⟩ := hnext
    · simp at hk
    · simpa [hframe] using hk
  | @free p k => exact hs.goto (p := p) (f := .release k) rfl rfl (by simp)
  | @release p k => exact hs.goto (p := p) (f := .drop k) rfl rfl (by simp)
  | @alloc p x => exact hs.goto (p := p) (f := .ialloc x) rfl rfl (by simp)

end Sole

/-! ## Locking -/

/-- `iget` is called only for inodes that are allocated and are not being freed. -/
def GetsLive (s : State P) (a : Act P) : Prop :=
  ∀ x ∈ s.gets a, (s.disk x).type ≠ 0 ∧ ¬s.BeingFreed x

instance (s : State P) (a : Act P) : Decidable (GetsLive s a) :=
  Option.decidableForallMem (s.gets a)

/-- References are to allocated inodes, but for the one of a process that has freed its inode. -/
structure Live (s : State P) : Prop where
  type : ∀ p k, (p, k) ∈ s.refs → (s.disk (s.entry k).key).type ≠ 0 ∨
    s.frame p = .release k ∨ s.frame p = .drop k
  once : ∀ p k, s.frame p = .release k ∨ s.frame p = .drop k → s.refs.count (p, k) = 1

theorem count_eq_one {s : State P} {p : P} {k : Slot} (hone : s.outstanding k = 1)
    (hp : (p, k) ∈ s.refs) : s.refs.count (p, k) = 1 := by
  have hle : s.refs.count (p, k) ≤ s.outstanding k :=
    List.countP_mono_left fun r _ hr => by simp [(beq_iff_eq.mp hr)]
  have hpos := List.count_pos_iff.mpr hp
  omega

namespace Live

variable {s t : State P} {p : P} {k : Slot} {x : Key} {a : Act P}

/-- A process gets a reference to an inode that is allocated. -/
theorem take (h : Inv s) (hl : Live s) {e : Entry}
    (hf : s.frame p = .idle ∨ ∃ x, s.frame p = .ialloc x)
    (hkey : e.key = (s.entry k).key ∨ (s.entry k).ref = 0) (htype : (s.disk e.key).type ≠ 0) :
    Live (s.take p k e) := by
  have hpos := fun p k => h.ref_pos (p := p) (k := k)
  obtain ⟨htypes, honce⟩ := hl
  constructor
  case type =>
    -- Nobody has a reference to an entry that is bound anew.
    rcases hkey with hsame | hzero
    · grind [update_apply]
    · grind [update_apply]
  case once =>
    -- The process is not at the end of an inode.
    grind [update_apply]

/-- A step that frees nothing and moves no process into or out of the end of an inode. -/
theorem congr (hl : Live s) (hrefs : t.refs = s.refs)
    (hkey : ∀ k, (t.entry k).key = (s.entry k).key)
    (htype : ∀ x, (s.disk x).type ≠ 0 → (t.disk x).type ≠ 0)
    (hframe : ∀ q k, t.frame q = .release k ∨ t.frame q = .drop k ↔
      s.frame q = .release k ∨ s.frame q = .drop k) : Live t := by
  constructor
  · intro q k hmem
    rw [hframe, hkey]
    exact (hl.type q k (hrefs ▸ hmem)).imp_left (htype _)
  · intro q k hq
    rw [hrefs]
    exact hl.once q k ((hframe q k).mp hq)

/-- A process gives up a reference, the only one if it has freed the inode. -/
theorem dropRef (hl : Live s) (hf : s.frame p = .idle ∨ s.frame p = .drop k) :
    Live (s.dropRef p k) := by
  obtain ⟨htypes, honce⟩ := hl
  constructor
  case type =>
    -- If the inode was freed, this was the only reference of the process to it.
    grind [update_apply, List.count_erase_self, List.count_pos_iff, List.mem_of_mem_erase]
  case once => grind [update_apply]

/-- A process frees an inode that nobody else has a reference to. -/
theorem free (h : Inv s) (hs : Sole s) (hl : Live s) (hf : s.frame p = .free k) {ip : Dinode} :
    Live ((s.iupdate k ip).goto p (.release k)) := by
  have hmem := (h.owned k p (h.ending p k (.inr hf)).1).1
  have hone := hs p k (.inr hf)
  have hcount := count_eq_one hone hmem
  have hpos := fun p k => h.ref_pos (p := p) (k := k)
  have hsole := fun q => eq_of_outstanding_eq_one (q := q) hone hmem
  have hunique := h.unique
  obtain ⟨htypes, honce⟩ := hl
  constructor
  case type =>
    -- Others have references to other inodes only.
    grind [update_apply]
  case once => grind [update_apply]

/-- Every step leaves references to allocated inodes. -/
theorem change (h : Inv s) (hs : Sole s) (hl : Live s) (hok : GetsLive s a)
    (hchange : Change s a t) : Live t := by
  cases hchange with
  | share hget hpos hkey =>
    exact hl.take h (Inv.getting hget) (.inl rfl) (hkey ▸ (hok _ hget.mem).1)
  | bind hget hzero hnew => exact hl.take h (Inv.getting hget) (.inr hzero) (hok _ hget.mem).1
  | @dup p k hidle hmem =>
    refine hl.take h (.inl hidle) (.inl rfl) ((hl.type p k hmem).resolve_right ?_)
    simp [hidle]
  | drop hframe hmem hown => exact hl.dropRef hframe
  | free hframe hown => exact Live.free h hs hl hframe
  | write hown hnext htype hnlink =>
    refine hl.congr rfl ?_ (fun x => h.type_iupdate hown (by grind) htype) ?_ <;>
      grind [update_apply]
  | _ =>
    refine hl.congr rfl ?_ ?_ ?_ <;> grind [update_apply]

end Live

/-! ## Runs -/

/-- After `iinit`, over any disk. -/
structure Start (s : State P) : Prop where
  ref : ∀ k, (s.entry k).ref = 0
  owner : ∀ k, s.owner k = none
  refs : s.refs = []
  frame : ∀ p, s.frame p = .idle

omit [DecidableEq P] in
theorem Start.inv {s : State P} (h : Start s) : Inv s := by
  obtain ⟨href, howner, hrefs, hframe⟩ := h
  refine ⟨?_, ?_, ?_, ?_, ?_, ?_, ?_⟩ <;> simp [State.outstanding, href, howner, hrefs, hframe]

omit [DecidableEq P] in
theorem Start.sole {s : State P} (h : Start s) : Sole s := by
  intro p k hf
  simp [h.frame p] at hf

theorem Start.live {s : State P} (h : Start s) : Live s := by
  constructor <;> simp [h.refs, h.frame]

/-- After every run, entries in use are unique, their counts are the references that processes have,
and those that are valid and not locked agree with the disk.  If `iget` is not called for an inode
that is being freed, an inode is only freed by an `iput` that has the only reference to it, and
without links. -/
theorem icache_coherent (ninodes : Nat) {s0 s : State P} {acts : List (Act P)} (h0 : Start s0) :
    (Run (StepOf (State.step ninodes)) s0 acts s →
      (∀ k k', 0 < (s.entry k).ref → 0 < (s.entry k').ref →
        (s.entry k).key = (s.entry k').key → k = k') ∧
      (∀ k, (s.entry k).ref = s.outstanding k) ∧
      ∀ k, 0 < (s.entry k).ref → (s.entry k).valid = true → s.owner k = none →
        (s.entry k).ip = s.disk (s.entry k).key) ∧
    (Run (Guarded GetsKept (StepOf (State.step ninodes))) s0 acts s →
      ∀ a t x, StepOf (State.step ninodes) s a t → (s.disk x).type ≠ 0 → (t.disk x).type = 0 →
        ∃ p k, a = .proceed p ∧ s.frame p = .free k ∧ (s.entry k).key = x ∧
          (s.disk x).nlink = 0 ∧ (p, k) ∈ s.refs ∧ s.outstanding k = 1) := by
  constructor
  · intro hrun
    have h : Inv s := hrun.invariant (fun hu hstep => hu.step hstep) h0.inv
    exact ⟨h.unique, h.counted, fun k hpos hvalid hfree =>
      (h.coherent k hpos hvalid (by simp [hfree])).1⟩
  · intro hrun a t x hstep hbefore hafter
    let Kept (u : State P) : Prop := Inv u ∧ Sole u
    have hkept : ∀ {u a v}, Kept u → GetsKept u a → StepOf (State.step ninodes) u a v → Kept v :=
      fun hu hok hstep => ⟨hu.1.step hstep, hu.2.change hu.1 hok (hu.1.change hstep)⟩
    obtain ⟨hinv, hsole⟩ : Kept s := hrun.invariant_guarded hkept ⟨h0.inv, h0.sole⟩
    obtain ⟨p, k, ha, hf, hkey, hnlink, hmem⟩ := hinv.frees (hinv.change hstep) hbefore hafter
    exact ⟨p, k, ha, hf, hkey, hnlink, hmem, hsole p k (.inr hf)⟩

/-- The table after `iinit`, over a disk whose inodes are files without links. -/
def unlinked : State Nat where
  entry _ := ⟨(0, 0), 0, false, Dinode.zero⟩
  owner _ := none
  disk _ := { Dinode.zero with type := tFile }
  refs := []
  frame _ := .idle

theorem unlinked_start : Start unlinked where
  ref _ := rfl
  owner _ := rfl
  refs := rfl
  frame _ := rfl

/-- The last reference to a file without links is given up, and the file is freed. -/
theorem icache_coherent_freed : ∃ s t : State Nat,
    Run (Guarded GetsKept (StepOf (State.step 10))) unlinked
      [.iget 1 (1, 5), .ilock 1 0, .iunlock 1 0, .iput 1 0, .proceed 1] s ∧
    StepOf (State.step 10) s (.proceed 1) t ∧ (t.disk (1, 5)).type = 0 ∧ s.outstanding 0 = 1 := by
  obtain ⟨s, hexec, hbefore, hframe, hnext⟩ : ∃ s, exec (guardStep GetsKept (State.step 10)) unlinked
      [.iget 1 (1, 5), .ilock 1 0, .iunlock 1 0, .iput 1 0, .proceed 1] = some s ∧
      (s.disk (1, 5)).type ≠ 0 ∧ s.frame 1 = .free 0 ∧
      (State.step 10 s (.proceed 1)).any (fun t => decide ((t.disk (1, 5)).type = 0)) = true :=
    exists_exec (by decide +kernel)
  obtain ⟨t, hstep, hafter⟩ := (Option.any_eq_true _ _).mp hnext
  have hrun := run_guarded_of_exec hexec
  obtain ⟨p, k, hp, hf, -, -, -, hone⟩ := (icache_coherent 10 unlinked_start).2 hrun _ t (1, 5)
    hstep hbefore (of_decide_eq_true hafter)
  cases hp
  obtain rfl : 0 = k := Frame.free.inj (hframe.symm.trans hf)
  exact ⟨s, t, hrun, hstep, of_decide_eq_true hafter, hone⟩

/-- Process 1 has found that it has the only reference to a file without links, and released
`icache.lock`; process 2 gets a reference, and the file is freed with both. -/
theorem freed_while_referenced : ∃ s t : State Nat,
    Run (StepOf (State.step 10)) unlinked
      [.iget 1 (1, 5), .ilock 1 0, .iunlock 1 0, .iput 1 0, .iget 2 (1, 5), .proceed 1] s ∧
    StepOf (State.step 10) s (.proceed 1) t ∧ (s.disk (1, 5)).type ≠ 0 ∧
    (t.disk (1, 5)).type = 0 ∧ s.outstanding 0 = 2 := by
  obtain ⟨s, hexec, hbefore, htwo, hnext⟩ : ∃ s, exec (State.step 10) unlinked
      [.iget 1 (1, 5), .ilock 1 0, .iunlock 1 0, .iput 1 0, .iget 2 (1, 5), .proceed 1] = some s ∧
      (s.disk (1, 5)).type ≠ 0 ∧ s.outstanding 0 = 2 ∧
      (State.step 10 s (.proceed 1)).any (fun t => decide ((t.disk (1, 5)).type = 0)) = true :=
    exists_exec (by decide +kernel)
  obtain ⟨t, hstep, hafter⟩ := (Option.any_eq_true _ _).mp hnext
  exact ⟨s, t, run_of_exec hexec, hstep, hbefore, of_decide_eq_true hafter, htwo⟩

/-- If `iget` is called only for inodes that are allocated and are not being freed, `ilock` never
panics, and gives a process the inode as it is on disk. -/
theorem ilock_returns {ninodes : Nat} {s0 s : State P} {acts : List (Act P)} {p : P} {k : Slot}
    (h0 : Start s0) (hrun : Run (Guarded GetsLive (StepOf (State.step ninodes))) s0 acts s)
    (hidle : s.frame p = .idle) (hmem : (p, k) ∈ s.refs) (hfree : s.owner k = none) :
    ∃ t, s.ilock p k = some t ∧ t.owner k = some p ∧
      (t.entry k).ip = t.disk (t.entry k).key ∧ (t.entry k).ip.type ≠ 0 := by
  let Kept (u : State P) : Prop := Inv u ∧ Sole u ∧ Live u
  have hkept : ∀ {u a v}, Kept u → GetsLive u a → StepOf (State.step ninodes) u a v → Kept v :=
    fun ⟨hu, hs, hl⟩ hok hstep =>
      ⟨hu.step hstep, hs.change hu (fun x hx => (hok x hx).2) (hu.change hstep),
        hl.change hu hs hok (hu.change hstep)⟩
  obtain ⟨hinv, -, hlive⟩ : Kept s := hrun.invariant_guarded hkept ⟨h0.inv, h0.sole, h0.live⟩
  have htype : (s.disk (s.entry k).key).type ≠ 0 := by
    refine (hlive.type p k hmem).resolve_right ?_
    simp [hidle]
  unfold State.ilock
  dsimp only
  split
  next hvalid =>
    exact ⟨_, rfl, update_self .., hinv.coherent k (hinv.ref_pos hmem) hvalid (by simp [hfree])⟩
  next =>
    refine ⟨_, rfl, update_self .., ?_⟩
    simpa using htype

/-- Process 2 allocates the inode that process 1 has just freed, and gets the entry which process 1
still has a reference to. -/
theorem ilock_returns_reallocated : ∃ s t : State Nat,
    Run (Guarded GetsLive (StepOf (State.step 10))) unlinked
      [.iget 1 (1, 5), .ilock 1 0, .iunlock 1 0, .iput 1 0, .proceed 1, .proceed 1,
        .ialloc 2 (1, 5) tDir, .proceed 2, .proceed 1] s ∧
    s.outstanding 0 = 2 ∧ s.ilock 2 0 = some t ∧ (t.entry 0).ip = t.disk (t.entry 0).key := by
  obtain ⟨s, hexec, hidle, hmem, hfree, htwo⟩ : ∃ s,
      exec (guardStep GetsLive (State.step 10)) unlinked
        [.iget 1 (1, 5), .ilock 1 0, .iunlock 1 0, .iput 1 0, .proceed 1, .proceed 1,
          .ialloc 2 (1, 5) tDir, .proceed 2, .proceed 1] = some s ∧
      s.frame 2 = .idle ∧ (2, 0) ∈ s.refs ∧ s.owner 0 = none ∧ s.outstanding 0 = 2 :=
    exists_exec (by decide +kernel)
  have hrun := run_guarded_of_exec hexec
  obtain ⟨t, hlock, -, hdisk, -⟩ := ilock_returns unlinked_start hrun hidle hmem hfree
  exact ⟨s, t, hrun, htwo, hlock, hdisk⟩

end InodeCache
end Fs
end FastIpc
