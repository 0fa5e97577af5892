import FastIpc.Procs.Calls
import Mathlib

/-!
# Exit and wait do not miss each other

The invariant has three parts.  Where a process is tells which state it is in and whether it holds
`wait_lock`.  A parent pointer only ever points to a process that lives: `exit` has handed
over all children before its process becomes a zombie, and nobody becomes the child of a process on
its way out.  And a process sleeps in `wait` only while none of its children is a zombie:
`wait` has seen all children before it sleeps, a child wakes its parent before it becomes a
zombie, and both happen under `wait_lock`.

Main results:

- Theorem `exit_wait_meet`: zombies are freed once, and no parent of one sleeps.
-/

namespace FastIpc
namespace Procs

open Foundation
open Function (update_apply)
open Kernel (ProcState)

variable {n : Nat}

/-! ## Where a process is -/

namespace Frame

/-- The process is not in one of the calls. -/
@[grind]
def isUser : Frame n → Bool
  | .user _ => true
  | _ => false

/-- The process is in the `sleep` of `wait`. -/
@[grind]
def isWaiting : Frame n → Bool
  | .waiting _ => true
  | _ => false

/-- The process holds `wait_lock`. -/
@[grind]
def holds : Frame n → Bool
  | .reparent _ _ | .dying _ | .scan _ _ _ => true
  | _ => false

/-- The process has called `exit`. -/
@[grind]
def leaves : Frame n → Bool
  | .reparent _ _ | .dying _ | .switching | .gone => true
  | _ => false

/-- The process has woken its parent. -/
@[grind]
def isDying : Frame n → Bool
  | .dying _ => true
  | _ => false

/-- The process is in `fork`, making this child. -/
@[grind]
def forks (np : Fin n) : Frame n → Bool
  | .forked c _ | .adopted c _ => c = np
  | _ => false

/-- The process is in `fork` and this child has no parent yet. -/
@[grind]
def bears (np : Fin n) : Frame n → Bool
  | .forked c _ => c = np
  | _ => false

/-- How many slots `reparent` has dealt with. -/
@[grind]
def handed : Frame n → Nat
  | .reparent _ j => j
  | .dying _ => n
  | _ => 0

/-- How many slots `wait` has looked at. -/
@[grind]
def seen : Frame n → Nat
  | .scan _ j _ => j
  | _ => 0

theorem handed_of_not_leaves {f : Frame n} (h : f.leaves = false) : f.handed = 0 := by
  cases f <;> simp_all [leaves, handed]

theorem seen_of_not_holds {f : Frame n} (h : f.holds = false) : f.seen = 0 := by
  cases f <;> simp_all [holds, seen]

theorem not_isDying_of_not_holds {f : Frame n} (h : f.holds = false) : f.isDying = false := by
  cases f <;> simp_all [holds, isDying]

theorem forks_of_bears {f : Frame n} {np : Fin n} (h : f.bears np = true) : f.forks np = true := by
  cases f <;> simp_all [bears, forks]

end Frame

/-- The states of processes, where they are and the lock fit together. -/
structure Control (s : State n) : Prop where
  asleep : ∀ p, s.state p = .sleeping → s.chan p = some p ∧ (s.frame p).isWaiting = true
  zombie : ∀ p, s.state p = .zombie → s.frame p = .switching ∨ s.frame p = .gone
  idle : ∀ p, s.state p = .unused ∨ s.state p = .used → (s.frame p).isUser = true
  lock : ∀ p, s.waitLock = some p ↔ (s.frame p).holds = true
  init_stays : (s.frame s.initproc).leaves = false
  init_state : s.state s.initproc ≠ .unused ∧ s.state s.initproc ≠ .used

namespace Control

variable {s t : State n} {a : Action n} (h : Control s)
include h

/-- Only one process is in the loops that run under the lock. -/
theorem not_holds {p q : Fin n} (hp : (s.frame p).holds = true) (hne : q ≠ p) :
    (s.frame q).holds = false := by
  by_contra hq
  have hlock := (h.lock q).mpr (by simpa using hq)
  rw [(h.lock p).mpr hp] at hlock
  exact hne (Option.some.inj hlock).symm

variable (hmoved : Moved s a t)
include hmoved

/-- Only `wait` sleeps, each caller on its own channel. -/
theorem asleep_step :
    ∀ q, t.state q = .sleeping → t.chan q = some q ∧ (t.frame q).isWaiting = true := by
  have hasleep := h.asleep
  intro q hq
  cases hmoved with
  | @sleep p addr j havekids copied hstate hframe hall =>
    by_cases hqp : q = p
    · simp [hqp, Frame.isWaiting]
    · simp only [update_apply, if_neg hqp] at hq ⊢
      exact hasleep q hq
  | _ => grind [update_apply]

/-- A process becomes a zombie on its way to the scheduler. -/
theorem zombie_step : ∀ q, t.state q = .zombie → t.frame q = .switching ∨ t.frame q = .gone := by
  have hzombie := h.zombie
  intro q hq
  cases hmoved with
  | @die p status copied hstate hframe =>
    by_cases hqp : q = p
    · simp [hqp]
    · simp only [update_apply, if_neg hqp] at hq ⊢
      exact hzombie q hq
  | _ => grind [update_apply]

/-- A slot that is free or being filled runs no call. -/
theorem idle_step :
    ∀ q, t.state q = .unused ∨ t.state q = .used → (t.frame q).isUser = true := by
  have hidle := h.idle
  intro q hq
  cases hmoved with
  | @reap p np addr havekids copied hstate hframe hchild hzombie hcopied =>
    by_cases hqn : q = np
    · simp only [hqn, update_apply]
      split <;> rfl
    · grind [update_apply]
  | _ => grind [update_apply]

/-- A process enters the loops with the lock and leaves them without it. -/
theorem lock_step : ∀ q, t.waitLock = some q ↔ (t.frame q).holds = true := by
  have hlock := h.lock
  intro q
  cases hmoved with
  | exit hstate hframe hfree | wait hstate hframe hfree | resume hstate hframe hfree =>
    -- The lock was free, so nobody was in the loops.
    have hnone : (s.frame q).holds = false := by simpa [hfree] using hlock q
    grind [update_apply]
  | die hstate hframe | fail hstate hframe | sleep hstate hframe | reap hstate hframe =>
    -- Nobody but the caller was in the loops.
    have hother := h.not_holds (q := q) (by rw [hframe]; rfl)
    grind [update_apply]
  | _ => grind [update_apply]

/-- The first process does not leave, and so nobody frees it. -/
theorem init_step : (t.frame t.initproc).leaves = false ∧
    t.state t.initproc ≠ .unused ∧ t.state t.initproc ≠ .used := by
  have hstays := h.init_stays
  have hstate := h.init_state
  cases hmoved with
  | reap _ _ _ hdead =>
    have hgone := h.zombie _ hdead
    grind [update_apply]
  | _ => grind [update_apply]

/-- Every step keeps states, frames and the lock together. -/
theorem step : Control t := by
  obtain ⟨hstays, hstate⟩ := h.init_step hmoved
  exact ⟨h.asleep_step hmoved, h.zombie_step hmoved, h.idle_step hmoved, h.lock_step hmoved, hstays,
    hstate⟩

end Control

/-! ## Parents live -/

/-- A process that can be a parent. -/
def Alive (state : ProcState) : Prop := state ≠ .unused ∧ state ≠ .used ∧ state ≠ .zombie

/-- Who has which parent. -/
structure Lineage (s : State n) : Prop where
  alive : ∀ k r, s.parent k = some r → Alive (s.state r)
  /-- Only a child in the making has no parent. -/
  known : ∀ k, s.state k ≠ .unused → k ≠ s.initproc →
    (∃ r, s.parent k = some r) ∨ ∃ p, (s.frame p).bears k = true
  handed : ∀ p k, k.val < (s.frame p).handed → s.parent k ≠ some p
  forks_used : ∀ p np, (s.frame p).forks np = true → s.state np = .used
  forks_one : ∀ p q np, (s.frame p).forks np = true → (s.frame q).forks np = true → p = q

namespace Lineage

variable {s t : State n} {a : Action n}

section

variable (hc : Control s) (h : Lineage s) (hmoved : Moved s a t)
include hc h hmoved

/-- A process has handed over its children before it is a zombie. -/
theorem alive_step : ∀ k r, t.parent k = some r → Alive (t.state r) := by
  have halive := h.alive
  have hhanded := h.handed
  cases hmoved with
  | handOver hstate hframe hchild =>
    have hinit : Alive (s.state s.initproc) := by
      have := hc.init_stays
      have := hc.init_state
      have := hc.zombie s.initproc
      grind [Alive]
    grind [update_apply, Alive]
  | @die p status copied hstate hframe =>
    -- The process has no children any more.
    have hnone : ∀ k, s.parent k ≠ some p := fun k =>
      hhanded p k (by rw [hframe]; exact k.isLt)
    grind [update_apply, Alive]
  | _ =>
    grind [update_apply, Alive]

/-- A child is known to its parent before it runs. -/
theorem known_step :
    ∀ k, t.state k ≠ .unused → k ≠ t.initproc →
      (∃ r, t.parent k = some r) ∨ ∃ p, (t.frame p).bears k = true := by
  have hknown := h.known
  intro k hused hne
  cases hmoved with
  | @adopt p np pid copied hstate hframe hlock =>
    simp only [update_apply] at hused hne ⊢
    rcases hknown k hused hne with hparent | ⟨q, hq⟩
    · left
      grind
    · by_cases hqp : q = p
      · have hnp : np = k := by simpa [hqp, hframe, Frame.bears] using hq
        exact .inl ⟨p, by simp [hnp]⟩
      · exact .inr ⟨q, by simpa [hqp] using hq⟩
  | @launch p np pid copied hstate hframe =>
    -- Only the caller makes this child, and it has set the parent before.
    have hnp : s.state np = .used := h.forks_used p np (by simp [hframe, Frame.forks])
    have hother : ∀ q, (s.frame q).bears np = false := by
      intro q
      by_contra hq
      have hqp := h.forks_one q p np (Frame.forks_of_bears (by simpa using hq))
        (by simp [hframe, Frame.forks])
      simp [hqp, hframe, Frame.bears] at hq
    simp only [update_apply] at hused hne ⊢
    rcases hknown k (by grind) hne with hparent | ⟨q, hq⟩
    · exact .inl hparent
    · grind
  | @reap p np addr havekids copied hstate hframe hchild hzombie hcopied =>
    have hdead := hc.zombie np hzombie
    simp only [update_apply] at hused hne ⊢
    rcases hknown k (by grind) hne with hparent | ⟨q, hq⟩
    · left
      grind
    · grind
  | _ =>
    simp only [update_apply] at hused hne ⊢
    grind

/-- Nobody becomes the child of a process that leaves. -/
theorem handed_step : ∀ p k, k.val < (t.frame p).handed → t.parent k ≠ some p := by
  have hhanded := h.handed
  have hinit := Frame.handed_of_not_leaves hc.init_stays
  intro q k hk
  cases hmoved with
  | @handOver p status j hj copied hstate hframe hchild =>
    have hne : p ≠ s.initproc := by
      rintro rfl
      have hstays := hc.init_stays
      simp [hframe, Frame.leaves] at hstays
    grind [update_apply]
  | _ =>
    grind [update_apply]

end

/-- A child in the making keeps its slot. -/
theorem forks_used_step (h : Lineage s) (hmoved : Moved s a t) :
    ∀ p np, (t.frame p).forks np = true → t.state np = .used := by
  have hused := h.forks_used
  have hone := h.forks_one
  cases hmoved <;> grind [update_apply]

/-- A new child gets a slot that was free, and so no other caller has it. -/
theorem forks_one_step (h : Lineage s) (hmoved : Moved s a t) :
    ∀ p q np, (t.frame p).forks np = true → (t.frame q).forks np = true → p = q := by
  have hused := h.forks_used
  have hone := h.forks_one
  cases hmoved <;> grind [update_apply]

/-- Every step keeps the parents right. -/
theorem step (hc : Control s) (h : Lineage s) (hmoved : Moved s a t) : Lineage t :=
  ⟨alive_step hc h hmoved, known_step hc h hmoved, handed_step hc h hmoved,
    forks_used_step h hmoved, forks_one_step h hmoved⟩

end Lineage

/-! ## Nobody sleeps beside a zombie -/

/-- Who may sleep in `wait`. -/
structure Wakeful (s : State n) : Prop where
  asleep : ∀ q k, s.state q = .sleeping → s.parent k = some q → s.state k ≠ .zombie
  /-- The loop of `wait` passes a child only if it is not a zombie. -/
  seen : ∀ p k, k.val < (s.frame p).seen → s.parent k = some p → s.state k ≠ .zombie
  /-- The parent of a process that becomes a zombie next has been woken. -/
  dying : ∀ p r, (s.frame p).isDying = true → s.parent p = some r → s.state r ≠ .sleeping

namespace Wakeful

variable {s t : State n} {a : Action n}

/-- A parent goes to sleep after it has seen all children, and a child wakes it before it becomes a
zombie. -/
theorem asleep_step (hc : Control s) (hl : Lineage s) (h : Wakeful s) (hmoved : Moved s a t) :
    ∀ q k, t.state q = .sleeping → t.parent k = some q → t.state k ≠ .zombie := by
  have hasleep := h.asleep
  intro q k hq hk
  cases hmoved with
  | @handOver p status j hj copied hstate hframe hchild =>
    -- A child goes to the first process, which is woken.
    have hchan := fun hs => (hc.asleep s.initproc hs).1
    have hne : p ≠ s.initproc := by
      rintro rfl
      have hstays := hc.init_stays
      simp [hframe, Frame.leaves] at hstays
    grind [update_apply]
  | @die p status copied hstate hframe =>
    have hwoken := h.dying p q (by simp [hframe, Frame.isDying])
    grind [update_apply]
  | @sleep p addr j havekids copied hstate hframe hall =>
    -- The loop has passed all children.
    have hseen := h.seen p k (by simp only [hframe, Frame.seen]; omega)
    grind [update_apply]
  | _ =>
    have hused := hl.forks_used
    have halive := hl.alive
    grind [update_apply, Alive]

/-- While a process looks at its children none becomes a zombie. -/
theorem seen_step (hc : Control s) (h : Wakeful s) (hmoved : Moved s a t) :
    ∀ p k, k.val < (t.frame p).seen → t.parent k = some p → t.state k ≠ .zombie := by
  have hseen := h.seen
  intro q k hk hparent
  cases hmoved with
  | @handOver p status j hj copied hstate hframe hchild =>
    have hzero : q ≠ p → (s.frame q).seen = 0 := fun hne =>
      Frame.seen_of_not_holds (hc.not_holds (p := p) (by simp [hframe, Frame.holds]) hne)
    grind [update_apply]
  | @die p status copied hstate hframe =>
    have hzero : q ≠ p → (s.frame q).seen = 0 := fun hne =>
      Frame.seen_of_not_holds (hc.not_holds (p := p) (by simp [hframe, Frame.holds]) hne)
    grind [update_apply]
  | _ =>
    grind [update_apply]

/-- A parent that was woken does not go to sleep before its child is a zombie. -/
theorem dying_step (hc : Control s) (h : Wakeful s) (hmoved : Moved s a t) :
    ∀ p r, (t.frame p).isDying = true → t.parent p = some r → t.state r ≠ .sleeping := by
  have hdying := h.dying
  intro q r hq hparent
  cases hmoved with
  | @handOver p status j hj copied hstate hframe hchild =>
    have hnot : q ≠ p → (s.frame q).isDying = false := fun hne =>
      Frame.not_isDying_of_not_holds (hc.not_holds (p := p) (by simp [hframe, Frame.holds]) hne)
    grind [update_apply]
  | @wakeParent p status j copied hstate hframe hall =>
    have hnot : q ≠ p → (s.frame q).isDying = false := fun hne =>
      Frame.not_isDying_of_not_holds (hc.not_holds (p := p) (by simp [hframe, Frame.holds]) hne)
    have hchan := fun hs => (hc.asleep r hs).1
    grind [update_apply]
  | @sleep p addr j havekids copied hstate hframe hall =>
    have hnot : q ≠ p → (s.frame q).isDying = false := fun hne =>
      Frame.not_isDying_of_not_holds (hc.not_holds (p := p) (by simp [hframe, Frame.holds]) hne)
    grind [update_apply]
  | _ =>
    grind [update_apply]

/-- Every step lets only those sleep who may. -/
theorem step (hc : Control s) (hl : Lineage s) (h : Wakeful s) (hmoved : Moved s a t) : Wakeful t :=
  ⟨asleep_step hc hl h hmoved, seen_step hc h hmoved, dying_step hc h hmoved⟩

end Wakeful

/-! ## Every process is freed once -/

/-- Which pids are in use and which have been freed. -/
structure Numbered (s : State n) : Prop where
  lt : ∀ k, s.state k ≠ .unused → s.pid k < s.nextpid
  inj : ∀ k l, s.state k ≠ .unused → s.state l ≠ .unused → s.pid k = s.pid l → k = l
  freed_lt : ∀ x ∈ s.freed, x < s.nextpid
  not_freed : ∀ k, s.state k ≠ .unused → s.pid k ∉ s.freed
  nodup : s.freed.Nodup

/-- A step that gives out no pid, frees none and takes no free slot. -/
theorem Numbered.congr {s t : State n} (h : Numbered s) (hpid : t.pid = s.pid)
    (hnext : t.nextpid = s.nextpid) (hfreed : t.freed = s.freed)
    (hused : ∀ k, t.state k ≠ .unused → s.state k ≠ .unused) : Numbered t := by
  refine ⟨fun k hk => ?_, fun k l hk hl => ?_, ?_, fun k hk => ?_, ?_⟩
  · rw [hpid, hnext]
    exact h.lt k (hused k hk)
  · rw [hpid]
    exact h.inj k l (hused k hk) (hused l hl)
  · rw [hfreed, hnext]
    exact h.freed_lt
  · rw [hpid, hfreed]
    exact h.not_freed k (hused k hk)
  · rw [hfreed]
    exact h.nodup

/-- Every step gives a pid once and frees it at most once. -/
theorem Numbered.step {s t : State n} {a : Action n} (hl : Lineage s) (h : Numbered s)
    (hmoved : Moved s a t) : Numbered t := by
  have hused := hl.forks_used
  cases hmoved with
  | fork hstate hframe hfree =>
    -- The new pid is larger than all others.
    obtain ⟨hlt, hinj, hfreed, hnot, hnodup⟩ := h
    constructor <;> grind [update_apply]
  | reap hstate hframe hchild hzombie hcopied =>
    -- No other process has the pid of the zombie, and it has not been freed before.
    obtain ⟨hlt, hinj, hfreed, hnot, hnodup⟩ := h
    constructor <;> grind [update_apply]
  | _ => exact h.congr rfl rfl rfl fun k hk => by grind [update_apply]

/-! ## Whole runs -/

/-- The invariant. -/
structure FamilyInv (s : State n) : Prop where
  control : Control s
  lineage : Lineage s
  wakeful : Wakeful s
  numbered : Numbered s

/-- Every step keeps the invariant. -/
theorem FamilyInv.step {s t : State n} {a : Action n} (h : FamilyInv s)
    (hstep : StepOf step s a t) : FamilyInv t := by
  have hmoved := moved_of_step hstep
  exact ⟨h.control.step hmoved, h.lineage.step h.control hmoved,
    h.wakeful.step h.control h.lineage hmoved, h.numbered.step h.lineage hmoved⟩

namespace Booted

variable {s : State n}

variable (h : Booted s)
include h

theorem state_eq (p : Fin n) : s.state p = .unused ∨ s.state p = .runnable := by
  by_cases hp : p = s.initproc
  · rw [hp]
    exact .inr h.init_state
  · exact .inl (h.others p hp)

theorem eq_init {p : Fin n} (hp : s.state p ≠ .unused) : p = s.initproc := by
  by_contra hne
  exact hp (h.others p hne)

theorem control : Control s := by
  refine ⟨fun p hp => ?_, fun p hp => ?_, fun p _ => ?_, fun p => ?_, ?_, ?_⟩
  · have hstate := h.state_eq p
    simp [hp] at hstate
  · have hstate := h.state_eq p
    simp [hp] at hstate
  · obtain ⟨result, hframe⟩ := h.frame p
    simp [hframe, Frame.isUser]
  · obtain ⟨result, hframe⟩ := h.frame p
    simp [hframe, h.waitLock, Frame.holds]
  · obtain ⟨result, hframe⟩ := h.frame s.initproc
    simp [hframe, Frame.leaves]
  · simp [h.init_state]

theorem lineage : Lineage s := by
  have hforks : ∀ p np, (s.frame p).forks np = false := fun p np => by
    obtain ⟨result, hframe⟩ := h.frame p
    simp [hframe, Frame.forks]
  refine ⟨fun k r hk => ?_, fun k hk hne => absurd (h.eq_init hk) hne, fun p k _ hk => ?_,
    fun p np hp => ?_, fun p q np hp => ?_⟩
  · simp [h.parent] at hk
  · simp [h.parent] at hk
  · simp [hforks] at hp
  · simp [hforks] at hp

theorem wakeful : Wakeful s := by
  refine ⟨fun q k _ hk => ?_, fun p k _ hk => ?_, fun p r _ hr => ?_⟩
  · simp [h.parent] at hk
  · simp [h.parent] at hk
  · simp [h.parent] at hr

theorem numbered : Numbered s := by
  refine ⟨fun k hk => ?_, fun k l hk hl _ => ?_, ?_, ?_, ?_⟩
  · rw [h.eq_init hk]
    exact h.pid
  · rw [h.eq_init hk, h.eq_init hl]
  all_goals simp [h.freed]

/-- The invariant holds after `userinit`. -/
theorem familyInv : FamilyInv s := ⟨h.control, h.lineage, h.wakeful, h.numbered⟩

end Booted

/-- The process in slot `q` is freed by this step: its parent is in `wait` and returns its
pid, having stored its status if a place was given for it. -/
def FreedByParent (s : State n) (a : Action n) (t : State n) (q : Fin n) : Prop :=
  ∃ p addr havekids copied, a = .next p copied ∧ s.frame p = .scan addr q havekids ∧
    s.parent q = some p ∧ t.state q = .unused ∧ t.frame p = .user (s.pid q) ∧
    t.stored = (if addr ≠ 0 then s.stored ++ [(p, addr, s.xstate q)] else s.stored) ∧
    t.freed = s.freed ++ [s.pid q]

/-- Only the parent ends the time of a zombie. -/
theorem freedByParent_of_moved {s t : State n} {a : Action n} {q : Fin n} (hl : Lineage s)
    (hmoved : Moved s a t) (hzombie : s.state q = .zombie) (hgone : t.state q ≠ .zombie) :
    FreedByParent s a t q := by
  have hused := hl.forks_used
  cases hmoved with
  | @reap p np addr havekids copied hstate hframe hchild hdead hcopied =>
    have hqnp : q = np := by
      by_contra hne
      simp [hne, hzombie] at hgone
    subst hqnp
    exact ⟨p, addr, havekids, copied, rfl, hframe, hchild, by simp, by simp, rfl, rfl⟩
  | _ =>
    grind [update_apply]

/-- Parents and children do not miss each other, however their calls interleave: every process but
the first one and a child whose `fork` has not set its parent yet has a parent that lives; a
zombie is freed by its parent and only once; and no process whose child is a zombie sleeps in
`wait` while `wait_lock` is free. -/
theorem exit_wait_meet {s t : State n} {acts : List (Action n)} (hboot : Booted s)
    (hrun : Run (StepOf step) s acts t) :
    (∀ q, t.state q ≠ .unused → q ≠ t.initproc → (∀ p, (t.frame p).bears q = false) →
      ∃ r, t.parent q = some r ∧ t.state r ≠ .unused ∧ t.state r ≠ .zombie) ∧
    (∀ a u q, step t a = some u → t.state q = .zombie → u.state q ≠ .zombie →
      FreedByParent t a u q) ∧
    (t.freed.Nodup ∧ ∀ q, t.state q = .zombie → t.pid q ∉ t.freed) ∧
    (t.waitLock = none → ∀ q k, t.state q = .sleeping → t.parent k = some q →
      t.state k ≠ .zombie) := by
  have h : FamilyInv t := hrun.invariant FamilyInv.step hboot.familyInv
  refine ⟨fun q hused hne hbears => ?_,
    fun a u q hstep => freedByParent_of_moved h.lineage (moved_of_step hstep),
    ⟨h.numbered.nodup, fun q hq => h.numbered.not_freed q (by simp [hq])⟩,
    fun _ => h.wakeful.asleep⟩
  rcases h.lineage.known q hused hne with ⟨r, hr⟩ | ⟨p, hp⟩
  · have halive := h.lineage.alive q r hr
    exact ⟨r, hr, halive.1, halive.2.2⟩
  · rw [hbears p] at hp
    cases hp

/-- A table with two slots after `userinit`. -/
def smallFamily : State 2 where
  state := ![.runnable, .unused]
  chan _ := none
  killed _ := false
  xstate _ := 0
  pid := ![1, 0]
  parent _ := none
  frame _ := .user 0
  waitLock := none
  initproc := ⟨0, Nat.zero_lt_two⟩
  nextpid := 2
  stored := []
  freed := []

theorem smallFamily_booted : Booted smallFamily where
  init_state := rfl
  others
    | 0, h => absurd rfl h
    | 1, _ => rfl
  parent _ := rfl
  pid := by decide
  frame _ := ⟨0, rfl⟩
  waitLock := rfl
  freed := rfl

/-- The process `p` forks `q` and sleeps in `wait`, and is woken by the exit of its child. -/
def smallLife (p q : Fin 2) : List (Action 2) :=
  [.scheduler p, .fork p q, .next p true, .next p true, .wait p 64, .next p true, .next p true,
    .next p true, .scheduler q, .exit q 7, .next q true, .next q true, .next q true, .next q true,
    .next q true, .scheduler p, .next p true, .next p true]

/-- Then it frees the child. -/
theorem exit_wait_meet_small :
    ∃ t u, Run (StepOf step) smallFamily (smallLife 0 1) t ∧ t.state 1 = .zombie ∧
      step t (.next 0 true) = some u ∧ u.state 1 = .unused ∧
      FreedByParent t (.next 0 true) u 1 := by
  obtain ⟨t, u, hexec, hzombie, hstep, hfree⟩ : ∃ t u,
      exec step smallFamily (smallLife 0 1) = some t ∧ t.state 1 = .zombie ∧
      step t (.next 0 true) = some u ∧ u.state 1 = .unused :=
    ⟨_, _, rfl, rfl, rfl, rfl⟩
  have hrun := run_of_exec hexec
  exact ⟨t, u, hrun, hzombie, hstep, hfree,
    (exit_wait_meet smallFamily_booted hrun).2.1 _ u 1 hstep hzombie (by simp [hfree])⟩

end Procs
end FastIpc
