import FastIpc.Kernel.Machine

/-!
# The shape of address spaces

Runs in which nobody uses rings: `fork`, `exec`, `sbrk`, `exit`, `wait` and
`kill` by any processes, with page allocations failing anywhere.

Main results:

- Theorem `address_space_shape`: what the page table of a live process maps, in every state.
-/

namespace FastIpc
namespace Kernel

open Foundation FaultM

/-- Whether a call works on the ring table. -/
def Call.isRingCall : Call → Bool
  | .createbuf .. | .closebuf .. => true
  | _ => false

/-- The calls that build, change and destroy address spaces. -/
def imageStep (im : Image) (k : KernelState) (ev : Event) : Option KernelState :=
  if ev.call.isRingCall then none else (perform im k ev).map Prod.snd

/-- The page table of a process maps its user memory and the trap pages, and nothing up to the
windows. -/
structure Shaped (m : Memory) (q : Proc) : Prop where
  fits : pgRoundUp q.sz ≤ mapStart
  user : ∀ va < pgRoundUp q.sz, IsLeafEntry (leaf m q.pagetable va)
  gap : ∀ va, pgRoundUp q.sz ≤ va → va < mapStart → leaf m q.pagetable va = 0
  trapframe : IsLeafEntry (leaf m q.pagetable trapframeVA) ∧
    leaf m q.pagetable trapframeVA &&& pteU = 0
  trampoline : IsLeafEntry (leaf m q.pagetable trampolineVA) ∧
    leaf m q.pagetable trampolineVA &&& pteU = 0

/-- An entry with the permissions of a leaf is a leaf. -/
theorem IsLeafPerm.isLeafEntry {pa perm : Nat} (h : IsLeafPerm perm) :
    IsLeafEntry (mkPte pa perm) := by
  refine ⟨mkPte_valid h.1, ?_⟩
  rw [mkPte_and h.1 (by decide), Nat.and_or_distrib_right]
  exact fun hzero => h.2 (Nat.or_eq_zero_iff.mp hzero).1

theorem Space.shaped {im : Image} {own : Nat → Role} {m : Memory} {q : Proc}
    {shown : Fin 10 → Nat → Nat}
    (h : Space im own m q.pagetable (userPages q.sz) q.trapframe shown) : Shaped m q := by
  have hsize := pgRoundUp_eq q.sz
  have hrw : IsLeafPerm (pteR ||| pteW) := by
    unfold IsLeafPerm
    decide
  have hrx : IsLeafPerm (pteR ||| pteX) := by
    unfold IsLeafPerm
    decide
  constructor
  · rw [hsize]
    exact h.fits
  · intro va hva
    rw [hsize] at hva
    obtain ⟨pa, perm, hperm, hleaf, -⟩ := h.user va hva
    rw [hleaf]
    exact hperm.isLeafEntry
  · intro va hlo hhi
    rw [hsize] at hlo
    exact h.gap va hlo hhi
  · rw [h.trapframe, mkPte_and hrw.1 (by decide)]
    exact ⟨hrw.isLeafEntry, by decide⟩
  · rw [h.trampoline, mkPte_and hrx.1 (by decide)]
    exact ⟨hrx.isLeafEntry, by decide⟩

/-- The panics that are left: those of `fork` without memory and of the first process when it
ends. -/
def remainingFaults : List Fault := [.panic "1", .panic "2", .panic "init exiting"]

namespace KernelInv

variable {im : Image} {own : Nat → Role} {k : KernelState}

theorem shaped {holds : List Holding} (h : KernelInv im own holds k) {p : ProcId}
    (hp : (k.proc p).state ≠ .unused) : Shaped k.ram.mem (k.proc p) :=
  (h.spaces.space p fun hzero => hp ((h.procs.unused p).mp hzero)).shaped

/-- Without rings a call returns, in a consistent state, or stops for one of few reasons. -/
theorem serve (h : KernelInv im own [] k) {p : ProcId} (hp : (k.proc p).pagetable ≠ 0) {call : Call}
    (hcall : call.isRingCall = false) :
    (∃ res k' own', call.serve im p k = .ok (res, k') ∧ KernelInv im own' [] k') ∨
      ∃ e ∈ remainingFaults, call.serve im p k = .error e := by
  have hnothing : ∀ q, HoldsNothing [] q := fun q => by simp [HoldsNothing]
  cases call with
  | createbuf => cases hcall
  | closebuf => cases hcall
  | fork =>
    rcases h.fork hp with ⟨res, k', own', -, hok, hinv, -⟩ | hfault | hfault
    · exact .inl ⟨some res, k', own', bind_of_ok hok, hinv⟩
    · exact .inr ⟨_, by simp [remainingFaults], bind_of_error hfault⟩
    · exact .inr ⟨.panic "2", by simp [remainingFaults], bind_of_error hfault⟩
  | exec file argv =>
    rcases h.exec hp file argv with ⟨res, k', own', hok, hinv, -⟩ | ⟨-, -, hheld⟩
    · exact .inl ⟨some res, k', own', bind_of_ok hok, hinv⟩
    · exact (hheld (hnothing p)).elim
  | sbrk n =>
    obtain ⟨res, k', own', hok, hinv, -⟩ := h.sbrk hp n
    exact .inl ⟨some _, k', own', bind_of_ok hok, hinv⟩
  | exit status =>
    rcases h.exit hp status with ⟨k', hok, hinv, -⟩ | hfault
    · exact .inl ⟨none, k', own, bind_of_ok hok, hinv⟩
    · exact .inr ⟨_, by simp [remainingFaults], bind_of_error hfault⟩
  | wait addr =>
    rcases h.wait hp addr with ⟨res, k', own', hok, hinv, -⟩ | ⟨-, np, -, hheld⟩
    · exact .inl ⟨res, k', own', hok, hinv⟩
    · exact (hheld (hnothing np)).elim
  | kill pid =>
    obtain ⟨res, k', hok, hinv, -⟩ := h.kill pid
    exact .inl ⟨some res, k', own, bind_of_ok hok, hinv⟩

end KernelInv

/-- The invariant of runs without rings. -/
def ImageInv (im : Image) (k : KernelState) : Prop := ∃ own, KernelInv im own [] k

theorem ImageInv.step {im : Image} {k k' : KernelState} {ev : Event} (h : ImageInv im k)
    (hstep : imageStep im k ev = some k') : ImageInv im k' := by
  obtain ⟨own, hinv⟩ := h
  unfold imageStep at hstep
  split at hstep
  next => cases hstep
  next hcall =>
    obtain ⟨⟨res, k''⟩, hperform, rfl⟩ := Option.map_eq_some_iff.mp hstep
    obtain ⟨hstate, hserve⟩ := perform_eq_some hperform
    rcases (hinv.withFails ev.fails).serve (hinv.pagetable_ne_zero hstate)
      (by simpa using hcall) with ⟨res', k', own', hok, hinv'⟩ | ⟨e, -, hfault⟩
    · rw [hok] at hserve
      cases hserve
      exact ⟨own', hinv'⟩
    · cases hfault.symm.trans hserve

/-- In every state reached without rings, the address space of every live process has its shape,
and a call that does not return stops for one of the remaining reasons, so none of the panics of
`uvmcopy`, `uvmunmap`, `freewalk` and `mappages` is reached. -/
theorem address_space_shape {im : Image} {k k' : KernelState} {events : List Event}
    (hstart : Started im k) (hrun : Run (StepOf (imageStep im)) k events k') :
    (∀ p, (k'.proc p).state ≠ .unused → Shaped k'.ram.mem (k'.proc p)) ∧
      ∀ p call fails e, (k'.proc p).state = .runnable → Call.isRingCall call = false →
        call.serve im p (k'.withFails fails) = .error e → e ∈ remainingFaults := by
  obtain ⟨own, hinv⟩ : ImageInv im k' := hrun.invariant ImageInv.step hstart.kernelInv.1
  refine ⟨fun p hp => hinv.shaped hp, fun p call fails e hp hcall hfault => ?_⟩
  rcases (hinv.withFails fails).serve (hinv.pagetable_ne_zero hp) hcall with
    ⟨res, k'', own', hok, -⟩ | ⟨e', he', hfault'⟩
  · cases hok.symm.trans hfault
  · cases hfault'.symm.trans hfault
    exact he'

/-- After a fork the child, which may then call `sbrk`, has its shape. -/
theorem address_space_shape_small : Run (StepOf (imageStep smallImage)) smallStart
      [⟨0, .fork, []⟩] smallFork ∧
    Shaped smallFork.ram.mem (smallFork.proc 1) ∧
    ∀ n e, (Call.sbrk n).serve smallImage 1 (smallFork.withFails []) = .error e →
      e ∈ remainingFaults := by
  obtain ⟨res, hfork⟩ := smallFork_eq
  have hrun : Run (StepOf (imageStep smallImage)) smallStart [⟨0, .fork, []⟩] smallFork := by
    refine Run.cons (t := smallFork) ?_ Run.nil
    simp [StepOf, imageStep, Call.isRingCall, hfork]
  obtain ⟨hshape, hfaults⟩ := address_space_shape smallStart_started hrun
  have hstate := smallFork_procs.2.1
  exact ⟨hrun, hshape 1 (by rw [hstate]; decide), fun n e => hfaults 1 (.sbrk n) [] e hstate rfl⟩

end Kernel
end FastIpc
