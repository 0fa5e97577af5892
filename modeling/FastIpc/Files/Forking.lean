import FastIpc.Files.References
import FastIpc.Kernel.Forking

/-!
# When fork fails

The comments of `kernel/proc.c` and the test program `forktest` expect `fork` to
return -1 if it runs out of processes or of memory.  The source panics before it gets there, so
the call ends gracefully in those states only in which there is room for the child.

Main results:

- Theorem `fork_graceful_iff`: when `fork` ends gracefully.
- Theorem `fork_runs_out_of_memory`: the fourteenth child stops a small machine.
-/

namespace FastIpc
namespace Files

open Foundation Kernel

/-- `fork` returns the identifier of a new child, or -1 and leaves the processes, the
references to open files and the free pages as they were. -/
def EndsGracefully (im : Image) (p : ProcId) (s : State) : Prop :=
  ∃ res t, sysFork im p s = .ok (res, t) ∧
    ((∃ np, (s.kernel.proc np).state = .unused ∧ (t.kernel.proc np).state = .runnable ∧
        (t.kernel.proc np).parent = some p ∧ res = (t.kernel.proc np).pid) ∨
      (res = -1 ∧ t.kernel.proc = s.kernel.proc ∧ t.file = s.file ∧ t.ofile = s.ofile ∧
        ∀ pa, t.kernel.ram.OnFreeList pa ↔ s.kernel.ram.OnFreeList pa))

/-- `fork` ends gracefully if and only if there is an unused process and all pages of the
child can be allocated, whatever ends of rings the processes hold. -/
theorem fork_graceful_iff {im : Image} {boot : Nat → Prop} {holds : List Holding} {s : State}
    {p : ProcId} (h : Kept im boot holds s) (hp : (s.kernel.proc p).state = .runnable) :
    EndsGracefully im p s ↔ HasRoom s.kernel p := by
  obtain ⟨own, hinv⟩ := h
  rw [← hinv.kernel.fork_iff (hinv.kernel.pagetable_ne_zero hp)]
  constructor
  · rintro ⟨res, t, hrun, -⟩
    cases hfork : Kernel.fork im p s.kernel with
    | ok done => exact ⟨done.1, done.2, rfl⟩
    | error e =>
      rw [FileInv.sysFork_of_error hfork] at hrun
      cases hrun
  · rintro ⟨res, k', hfork⟩
    obtain ⟨t, -, hrun, -, rfl⟩ := hinv.sysFork_of_ok hp hfork
    exact ⟨res, t, hrun, .inl (fork_eq_ok hinv.kernel hfork)⟩

/-- The first process of the small machine can fork. -/
theorem fork_graceful_iff_small :
    EndsGracefully smallImage 0 (State.start smallStart) ∧ HasRoom smallStart 0 := by
  have hroom : HasRoom smallStart 0 :=
    ⟨⟨1, by decide +kernel⟩, smallStart_supplies.mono (by decide +kernel)⟩
  exact ⟨(fork_graceful_iff (Kept.start smallBoot_booted smallStart_eq)
    (by decide +kernel : ((State.start smallStart).kernel.proc 0).state = .runnable)).mpr hroom,
    hroom⟩

/-- Thirteen children take all but two pages of the small machine; then `fork` panics. -/
theorem fork_runs_out_of_memory : ∃ s,
    Run (StepOf (step smallImage)) (State.start smallStart) (List.replicate 13 ⟨0, .sysFork, []⟩) s ∧
      sysFork smallImage 0 s = .error (.panic "1") := by
  have hok : ((exec (step smallImage) (State.start smallStart)
      (List.replicate 13 ⟨0, .sysFork, []⟩)).map fun s =>
        match sysFork smallImage 0 s with
        | .error (.panic msg) => msg == "1"
        | _ => false) = some true := by
    decide +kernel
  obtain ⟨s, hexec, hpanic⟩ := Option.map_eq_some_iff.mp hok
  refine ⟨s, run_of_exec hexec, ?_⟩
  split at hpanic
  next msg heq => rw [heq, beq_iff_eq.mp hpanic]
  next => cases hpanic

end Files
end FastIpc
