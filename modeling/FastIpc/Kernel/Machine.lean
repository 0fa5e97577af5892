import FastIpc.Foundation.Run
import FastIpc.Kernel.Reloading

/-!
# Runs of system calls

A run is a sequence of system calls by any processes, each with its own choice of the page
allocations that fail.  A call that stops the machine has no next state.  Beside the kernel
state the system keeps which ends of rings are held: an end is held from the call of
`createbuf` that succeeds to the call of `closebuf` with the same name and end.

Main results:

- Theorem `KernelInv.step`: what a step does.
-/

namespace FastIpc
namespace Kernel

open Foundation FaultM

/-! ## Calls -/

/-- A system call with its arguments. -/
inductive Call where
  | createbuf (straddr : CString) (opdesc : Int) (retvaddr : Nat)
  | closebuf (straddr : CString) (opdesc : Int)
  | fork
  | exec (file : Option (List (BitVec 8))) (argv : List CString)
  | sbrk (n : Int)
  | exit (status : Int)
  | wait (addr : Nat)
  | kill (pid : Nat)

/-- Serve a call of process `p`; no result if the call does not return yet. -/
def Call.serve (im : Image) (p : ProcId) : Call → KernelM (Option Int)
  | .createbuf straddr opdesc retvaddr => do
    return some (← Kernel.createbuf im p straddr opdesc retvaddr)
  | .closebuf straddr opdesc => do return some (← Kernel.closebuf im p straddr opdesc)
  | .fork => do return some (← Kernel.fork im p)
  | .exec file argv => do return some (← Kernel.exec im p file argv)
  | .sbrk n => do return some (← Kernel.sbrk im p n)
  | .exit status => do Kernel.exit p status; return none
  | .wait addr => Kernel.wait im p addr
  | .kill pid => do return some (← Kernel.kill pid)

/-- A call of a process, and the page allocations in it that fail. -/
structure Event where
  proc : ProcId
  call : Call
  fails : List Bool

/-- Choose the page allocations that fail. -/
def KernelState.withFails (k : KernelState) (fails : List Bool) : KernelState :=
  { k with ram := { k.ram with fails := fails } }

/-- Serve the call of a process that is ready to run; none if it stops the machine. -/
def perform (im : Image) (k : KernelState) (ev : Event) : Option (Option Int × KernelState) :=
  if (k.proc ev.proc).state = .runnable then
    match ev.call.serve im ev.proc (k.withFails ev.fails) with
    | .ok done => some done
    | .error _ => none
  else
    none

/-- The kernel with the ends of rings that are held. -/
structure System where
  kernel : KernelState
  holds : List Holding

/-- The end of a ring that a process names. -/
def Holding.IsEnd (a : Holding) (p : ProcId) (straddr : CString) (opdesc : Int) : Prop :=
  a.proc = p ∧ a.name = straddr ∧ a.ringEnd = ringEndOf opdesc

instance (a : Holding) (p : ProcId) (straddr : CString) (opdesc : Int) :
    Decidable (a.IsEnd p straddr opdesc) :=
  inferInstanceAs (Decidable (_ ∧ _ ∧ _))

/-- The end that a call of `closebuf` gives up: the one of the ring its name leads to. -/
def Holding.IsClosed (a : Holding) (k : KernelState) (p : ProcId) (straddr : CString)
    (opdesc : Int) : Prop :=
  a.IsEnd p straddr opdesc ∧ findName k straddr = some a.slot

instance (a : Holding) (k : KernelState) (p : ProcId) (straddr : CString) (opdesc : Int) :
    Decidable (a.IsClosed k p straddr opdesc) :=
  inferInstanceAs (Decidable (_ ∧ _))

/-- The ends that are held after a call. -/
def holdsAfter (s : System) (p : ProcId) : Call → Option Int → List Holding
  | .createbuf straddr opdesc _, some res =>
    if 0 ≤ res then (openedEnd s.kernel p straddr opdesc).toList ++ s.holds else s.holds
  | .closebuf straddr opdesc, some res =>
    if res = 0 then s.holds.eraseP fun a => a.IsClosed s.kernel p straddr opdesc else s.holds
  | _, _ => s.holds

/-- One step of the system. -/
def step (im : Image) (s : System) (ev : Event) : Option System :=
  (perform im s.kernel ev).map fun done =>
    ⟨done.2, holdsAfter s ev.proc ev.call done.1⟩

/-- The machine has booted and the first process is ready to run. -/
def Started (im : Image) (k : KernelState) : Prop :=
  ∃ k0, Booted im k0 ∧ userinit im k0 = .ok ((), k)

/-! ## Safe calls -/

/-- `createbuf` does not confuse rings, and `closebuf` closes an end that the caller
holds, at the address where the caller has it. -/
def SafeCall (s : System) (p : ProcId) : Call → Prop
  | .createbuf straddr opdesc _ => ¬(opdesc < 0 ∨ 1 < opdesc) → CreateSafe s.kernel straddr
  | .closebuf straddr opdesc => ∃ a ∈ s.holds, a.IsClosed s.kernel p straddr opdesc ∧
      (s.kernel.ringbufs a.slot).vabuf = window a.window
  | _ => True

instance (s : System) (p : ProcId) (call : Call) : Decidable (SafeCall s p call) :=
  match call with
  | .createbuf .. => inferInstanceAs (Decidable (_ → _ ∧ (_ → ∀ _, _ → _)))
  | .closebuf .. => inferInstanceAs (Decidable (∃ _ ∈ _, _ ∧ _))
  | .fork | .exec .. | .sbrk _ | .exit _ | .wait _ | .kill _ => .isTrue trivial

/-- What a safe call does to the ring table and to the ends that are held. -/
inductive Effect (im : Image) (own own' : Nat → Role) (s : System) (ev : Event) (t : System) :
    Prop where
  | quiet (hrings : t.kernel.ringbufs = s.kernel.ringbufs) (hholds : t.holds = s.holds)
  /-- A new ring could not be mapped; its slot stays in use. -/
  | leaked (straddr : CString) (opdesc : Int) (retvaddr : Nat) (j : Slot)
      (hcall : ev.call = .createbuf straddr opdesc retvaddr)
      (hop : ¬(opdesc < 0 ∨ 1 < opdesc)) (hmakes : attaches s.kernel straddr = false)
      (hwindow : firstWindow s.kernel.ram.mem (s.kernel.proc ev.proc).pagetable = none)
      (hfree : findFree s.kernel = some j)
      (hrings : t.kernel.ringbufs =
        Function.update s.kernel.ringbufs j (s.kernel.ringbufs j).leaked)
      (hholds : t.holds = s.holds)
  | opened (straddr : CString) (opdesc : Int) (retvaddr : Nat) (a : Holding)
      (hcall : ev.call = .createbuf straddr opdesc retvaddr)
      (hop : ¬(opdesc < 0 ∨ 1 < opdesc))
      (hend : openedEnd s.kernel ev.proc straddr opdesc = some a)
      (ho : Opened im own own' s.holds a (!attaches s.kernel straddr) retvaddr
        (s.kernel.withFails ev.fails) t.kernel)
      (hholds : t.holds = a :: s.holds)
  | closed (straddr : CString) (opdesc : Int) (a : Holding)
      (hcall : ev.call = .closebuf straddr opdesc) (ha : a ∈ s.holds)
      (hend : a.IsClosed s.kernel ev.proc straddr opdesc)
      (hc : Closed im own own' s.holds a (decide ((s.kernel.ringbufs a.slot).refcount - 1 < 1))
        (s.kernel.withFails ev.fails) t.kernel)
      (hholds : t.holds = s.holds.erase a)

/-! ## Steps -/

theorem eraseP_eq_erase {α : Type} [DecidableEq α] {l : List α} {f : α → Bool} {a : α}
    (h : ∀ b ∈ l, f b = decide (b = a)) : l.eraseP f = l.erase a := by
  induction l with
  | nil => rfl
  | cons b l ih =>
    have hb := h b (by simp)
    rw [List.eraseP_cons, List.erase_cons, hb, ih fun c hc => h c (by simp [hc])]
    simp

namespace KernelInv

variable {im : Image} {own : Nat → Role} {holds : List Holding} {k : KernelState}

/-- The invariant does not depend on the allocations that will fail. -/
theorem withFails (h : KernelInv im own holds k) (fails : List Bool) :
    KernelInv im own holds (k.withFails fails) :=
  h.framed ⟨h.spaces.owned.of_mem_eq rfl rfl, fun _ _ => rfl, fun _ => .inl rfl,
    fun _ _ _ _ => rfl⟩ h.spaces.rooted

theorem leak (h : KernelInv im own holds k) {j : Slot} (hj : findFree k = some j) :
    KernelInv im own holds (k.setSlot j Ringbuf.leaked) := by
  have hzero := refcount_of_findFree hj
  have hne : ∀ a ∈ holds, a.slot ≠ j := fun a ha => h.ledger.ne_slot_of_zero hzero ha
  have hsame : ∀ a ∈ holds, (k.setSlot j Ringbuf.leaked).ringbufs a.slot = k.ringbufs a.slot :=
    fun a ha => KernelState.setSlot_ne _ _ _ (hne a ha)
  refine ⟨h.spaces.congr h.spaces.owned (fun _ => ⟨rfl, rfl, rfl⟩) (fun _ _ _ _ => rfl)
    fun a ha => by rw [hsame a ha]; exact ⟨rfl, rfl⟩, ?_, ?_⟩
  · refine ⟨h.ledger.nodup, h.ledger.held_end, fun a ha => ?_, fun a ha => ?_, fun a ha => ?_,
      fun i => ?_, fun i hi => ?_⟩
    · rw [hsame a ha]
      exact h.ledger.held_pid a ha
    · rw [hsame a ha]
      exact h.ledger.held_name a ha
    · rw [hsame a ha]
      exact h.ledger.refcount a ha
    · by_cases hij : i = j
      · rw [hij, KernelState.setSlot_same]
        simp [Ringbuf.leaked, hzero]
      · rw [KernelState.setSlot_ne _ _ _ hij]
        exact h.ledger.nonneg i
    · by_cases hij : i = j
      · rw [hij, KernelState.setSlot_same] at hi
        exact (hi rfl).elim
      · rw [KernelState.setSlot_ne _ _ _ hij] at hi
        exact h.ledger.named i hi
  · refine h.procs.congr (fun _ => ⟨rfl, rfl, Iff.rfl, rfl⟩) rfl fun i e => ?_
    by_cases hij : i = j
    · rw [hij, KernelState.setSlot_same]
      exact h.procs.pos
    · rw [KernelState.setSlot_ne _ _ _ hij]
      exact h.procs.listed_lt i e

end KernelInv

variable {ev : Event} {im : Image} {k k' : KernelState}

/-- A call is served for a process that is ready to run. -/
theorem perform_eq_some {res : Option Int} (h : perform im k ev = some (res, k')) :
    (k.proc ev.proc).state = .runnable ∧
      ev.call.serve im ev.proc (k.withFails ev.fails) = .ok (res, k') := by
  unfold perform at h
  split at h
  next hstate =>
    refine ⟨hstate, ?_⟩
    split at h
    next heq =>
      cases h
      exact heq
    next => cases h
  next => cases h

theorem perform_of_ok {res : Option Int} (hstate : (k.proc ev.proc).state = .runnable)
    (h : ev.call.serve im ev.proc (k.withFails ev.fails) = .ok (res, k')) :
    perform im k ev = some (res, k') := by
  rw [perform, if_pos hstate, h]

theorem createbuf_of_perform {p : ProcId} {straddr : CString} {opdesc res : Int} {retvaddr : Nat}
    {fails : List Bool}
    (h : perform im k ⟨p, .createbuf straddr opdesc retvaddr, fails⟩ = some (some res, k')) :
    createbuf im p straddr opdesc retvaddr (k.withFails fails) = .ok (res, k') := by
  obtain ⟨_, _, hcreate, hdone⟩ := bind_eq_ok.mp (perform_eq_some h).2
  cases hdone
  exact hcreate

theorem step_eq_some {s t : System} (h : step im s ev = some t) :
    (s.kernel.proc ev.proc).state = .runnable ∧ ∃ res,
      ev.call.serve im ev.proc (s.kernel.withFails ev.fails) = .ok (res, t.kernel) ∧
      t.holds = holdsAfter s ev.proc ev.call res := by
  obtain ⟨⟨res, k'⟩, hperform, rfl⟩ := Option.map_eq_some_iff.mp h
  obtain ⟨hstate, hrun⟩ := perform_eq_some hperform
  exact ⟨hstate, res, hrun, rfl⟩

/-- The invariant holds in the first state, with no ring in the table. -/
theorem Started.kernelInv (h : Started im k) :
    (∃ own, KernelInv im own [] k) ∧ (∀ j, k.ringbufs j = .zero) ∧
      ∀ p, (k.proc p).validRingBuf = 0 := by
  obtain ⟨k0, hboot, hrun⟩ := h
  obtain ⟨own, hinv, -, hsupply⟩ := hboot.kernelInv
  obtain ⟨own', p, hinv', hspawned, -⟩ := hinv.userinit hsupply hrun
  refine ⟨⟨own', hinv'⟩, fun j => by rw [hspawned.ringbufs, hboot.ringbufs], fun q => ?_⟩
  by_cases hq : q = p
  · rw [hq, hspawned.flag, hboot.proc]
    rfl
  · rw [hspawned.other q hq, hboot.proc]
    rfl

namespace KernelInv

variable {im : Image} {own : Nat → Role} {s t : System} {ev : Event}

theorem pagetable_ne_zero {holds : List Holding} {p : ProcId} (h : KernelInv im own holds k)
    (hp : (k.proc p).state = .runnable) : (k.proc p).pagetable ≠ 0 := by
  intro hzero
  rw [(h.procs.unused p).mp hzero] at hp
  cases hp

/-- A safe call keeps the invariant. -/
theorem step (h : KernelInv im own s.holds s.kernel) (hsafe : SafeCall s ev.proc ev.call)
    (hstep : Kernel.step im s ev = some t) :
    ∃ own', KernelInv im own' t.holds t.kernel ∧ Effect im own own' s ev t := by
  obtain ⟨hstate, res, hrun, hholds⟩ := step_eq_some hstep
  have hp : ((s.kernel.withFails ev.fails).proc ev.proc).pagetable ≠ 0 := h.pagetable_ne_zero hstate
  have hinv := h.withFails ev.fails
  -- The other calls leave the ring table as it is.
  have hquiet : ∀ {k' own'}, KernelInv im own' s.holds k' → k'.ringbufs = s.kernel.ringbufs →
      t.kernel = k' → t.holds = s.holds →
      ∃ own', KernelInv im own' t.holds t.kernel ∧ Effect im own own' s ev t := by
    rintro k' own' hinv' hrings rfl hsame
    exact ⟨own', hsame ▸ hinv', .quiet hrings hsame⟩
  cases hcall : ev.call with
  | createbuf straddr opdesc retvaddr =>
    rw [hcall] at hrun hholds hsafe
    obtain ⟨res, k', hcreate, hdone⟩ := bind_eq_ok.mp hrun
    cases hdone
    rcases hinv.createbuf_cases hp hsafe hcreate with ⟨rfl, hsame⟩ |
      ⟨hop, ⟨rfl, hwindow, hmakes, j, hfree, hleak⟩ | ⟨a, own', hend, hres, ho, hinv'⟩⟩
    · exact hquiet hinv rfl hsame hholds
    · refine ⟨own, ?_, .leaked straddr opdesc retvaddr j hcall hop hmakes hwindow hfree ?_ hholds⟩
      · rw [hleak, show t.holds = s.holds from hholds]
        exact hinv.leak hfree
      · rw [hleak]
        rfl
    · have hend : openedEnd s.kernel ev.proc straddr opdesc = some a := hend
      have hopened : t.holds = a :: s.holds := by
        rw [hholds, holdsAfter, if_pos (by rw [hres]; split <;> decide), hend]
        rfl
      exact ⟨own', hopened ▸ hinv', .opened straddr opdesc retvaddr a hcall hop hend ho hopened⟩
  | closebuf straddr opdesc =>
    rw [hcall] at hrun hholds hsafe
    obtain ⟨a, ha, hclosed, hva⟩ := hsafe
    obtain ⟨res, k', hclose, hdone⟩ := bind_eq_ok.mp hrun
    cases hdone
    have hbacked : (s.kernel.ringbufs a.slot).refcount - 1 < 1 →
        (s.kernel.ringbufs a.slot).Backed := by
      intro hlast
      by_contra hnull
      obtain ⟨e, hfault⟩ := hinv.spaces.closebuf_null ha hclosed.2 hva hlast hnull opdesc
      rw [hclosed.1.1, hclose] at hfault
      cases hfault
    obtain ⟨k', own', hok, hc, hinv'⟩ := hinv.close ha hclosed.2 hva hbacked opdesc
    rw [hclosed.1.1, hclose] at hok
    cases hok
    have herased : t.holds = s.holds.erase a := by
      rw [hholds, holdsAfter, if_pos rfl]
      refine eraseP_eq_erase fun b hb => decide_eq_decide.mpr ⟨fun hclosed' => ?_, ?_⟩
      · refine h.ledger.held_end b hb a ha ?_ (hclosed'.1.2.2.trans hclosed.1.2.2.symm)
        exact Option.some.inj (hclosed'.2.symm.trans hclosed.2)
      · rintro rfl
        exact hclosed
    exact ⟨own', herased ▸ hinv', .closed straddr opdesc a hcall ha hclosed hc herased⟩
  | fork =>
    rw [hcall] at hrun hholds
    obtain ⟨res, k', hfork, hdone⟩ := bind_eq_ok.mp hrun
    cases hdone
    rcases hinv.fork hp with ⟨res', k', own', np, hok, hinv', hspawned, -⟩ | hfault | hfault
    · rw [hok] at hfork
      cases hfork
      exact hquiet hinv' hspawned.ringbufs rfl hholds
    · rw [hfault] at hfork
      cases hfork
    · rw [hfault] at hfork
      cases hfork
  | exec file argv =>
    rw [hcall] at hrun hholds
    obtain ⟨res, k', hexec, hdone⟩ := bind_eq_ok.mp hrun
    cases hdone
    rcases hinv.exec hp file argv with ⟨res', k', own', hok, hinv', hreloaded, -⟩ |
      ⟨hfault, -⟩
    · rw [hok] at hexec
      cases hexec
      exact hquiet hinv' hreloaded.ringbufs rfl hholds
    · rw [hfault] at hexec
      cases hexec
  | sbrk n =>
    rw [hcall] at hrun hholds
    obtain ⟨res', k', own', hok, hinv', -, hrings, -⟩ := hinv.sbrk hp n
    rw [Call.serve, bind_of_ok hok] at hrun
    cases hrun
    exact hquiet hinv' hrings rfl hholds
  | exit status =>
    rw [hcall] at hrun hholds
    rcases hinv.exit hp status with ⟨k', hok, hinv', hrings, -⟩ | hfault
    · rw [Call.serve, bind_of_ok hok] at hrun
      cases hrun
      exact hquiet hinv' hrings rfl hholds
    · rw [Call.serve, bind_of_error hfault] at hrun
      cases hrun
  | wait addr =>
    rw [hcall] at hrun hholds
    rcases hinv.wait hp addr with ⟨res', k', own', hok, hinv', -, hcases⟩ | ⟨hfault, -⟩
    · rw [Call.serve, hok] at hrun
      cases hrun
      refine hquiet hinv' ?_ rfl (by rw [hholds]; rfl)
      rcases hcases with ⟨-, hrings, -⟩ | ⟨np, -, hreaped, -⟩
      · exact hrings
      · exact hreaped.ringbufs
    · rw [Call.serve, hfault] at hrun
      cases hrun
  | kill pid =>
    rw [hcall] at hrun hholds
    obtain ⟨res', k', hok, hinv', hrings⟩ := hinv.kill pid
    rw [Call.serve, bind_of_ok hok] at hrun
    cases hrun
    exact hquiet hinv' hrings rfl hholds

end KernelInv

/-! ## Making a ring -/

/-- A process that holds nothing in the first window gets it. -/
theorem Spaces.firstWindow_eq {own : Nat → Role} {holds : List Holding} {p : ProcId}
    (h : Spaces im own holds k) (hp : (k.proc p).pagetable ≠ 0) (hat : heldAt holds p 0 = none) :
    firstWindow k.ram.mem (k.proc p).pagetable = some 0 := by
  have hleaf := h.leaf_of_none hp hat (i := 0) (by decide)
  rw [Nat.zero_mul, Nat.add_zero] at hleaf
  have hpage : userPage k.ram.mem (k.proc p).pagetable (window 0) = 0 := by
    unfold userPage
    rw [hleaf]
    simp
  rw [firstWindow, show List.finRange 10 = 0 :: (List.finRange 10).tail from rfl,
    List.find?_cons_of_pos (by simpa using hpage)]

/-- A process whose first window is empty makes a ring in a free slot. -/
theorem KernelInv.perform_make {own : Nat → Role} {holds : List Holding} {a : Holding}
    {opdesc : Int} (h : KernelInv im own holds k) (hstate : (k.proc a.proc).state = .runnable)
    (hop : ¬(opdesc < 0 ∨ 1 < opdesc)) (had : a.ringEnd = ringEndOf opdesc)
    (hfound : ∀ i, findName k a.name = some i → i.val = 0) (hfree : findFree k = some a.slot)
    (hwindow : a.window = 0) (hat : heldAt holds a.proc 0 = none) (retvaddr : Nat)
    (fails : List Bool) :
    ∃ k' own', perform im k ⟨a.proc, .createbuf a.name opdesc retvaddr, fails⟩ =
        some (some (if (findName k a.name).isSome then 0 else 1), k') ∧
      openedEnd k a.proc a.name opdesc = some a ∧
      Opened im own own' holds a true retvaddr (k.withFails fails) k' ∧
      KernelInv im own' (a :: holds) k' := by
  have hp := h.pagetable_ne_zero hstate
  have hw : firstWindow k.ram.mem (k.proc a.proc).pagetable = some a.window := by
    rw [hwindow]
    exact h.spaces.firstWindow_eq hp hat
  obtain ⟨k', own', hrun, ho, hinv⟩ := (h.withFails fails).make hp hop had hfound hfree hw
    (by rw [hwindow]; exact hat) retvaddr
  refine ⟨k', own', perform_of_ok hstate (bind_of_ok hrun), ?_, ho, hinv⟩
  simp [openedEnd, targetSlot, attaches_eq_false_iff.mpr hfound, hfree, hw, ← had]

/-! ## A machine with two processes -/

/-- A small kernel. -/
def smallImage : Image where
  endAddr := 0x80030000
  trampoline := 0x80007000
  trampoline_aligned := by decide
  trampoline_pos := by decide
  trampoline_lt := by decide
  endAddr_le := by decide

/-- Memory with a hundred free pages after the kernel, each of which points to the next. -/
def smallMemory : Memory := fun x =>
  let page := (x - smallImage.endAddr) / pgSize
  if smallImage.endAddr ≤ x ∧ x % pgSize < 8 ∧ page + 1 < 100 then
    Memory.byteOf (smallImage.endAddr + (page + 1) * pgSize) (x % pgSize)
  else 0

/-- The state in which `userinit` is called. -/
def smallBoot : KernelState where
  ram := ⟨smallMemory, smallImage.endAddr, []⟩
  ringbufs _ := .zero
  proc _ := .zero
  nextpid := 1
  initproc := none

theorem smallBoot_booted : Booted smallImage smallBoot := by
  refine ⟨⟨(List.range 100).map fun i => smallImage.endAddr + i * pgSize, by decide +kernel,
    by decide +kernel, fun p hp => ?_, by decide⟩, rfl, fun _ => rfl, fun _ => rfl, rfl⟩
  obtain ⟨i, hi, rfl⟩ := List.mem_map.mp hp
  have hi := List.mem_range.mp hi
  have hend : smallImage.endAddr = 0x80030000 := rfl
  refine ⟨?_, ?_, ?_⟩ <;> rw [hend] <;> unfold pgSize <;> try unfold phyStop
  all_goals omega

/-- The first process of the small machine is ready to run. -/
def smallStart : KernelState :=
  match userinit smallImage smallBoot with
  | .ok (_, k) => k
  | .error _ => smallBoot

theorem smallStart_eq : userinit smallImage smallBoot = .ok ((), smallStart) := by
  have hok : (userinit smallImage smallBoot).toBool = true := by decide +kernel
  unfold smallStart
  cases h : userinit smallImage smallBoot with
  | ok done => rfl
  | error e =>
    rw [h] at hok
    cases hok

theorem smallStart_started : Started smallImage smallStart :=
  ⟨smallBoot, smallBoot_booted, smallStart_eq⟩

theorem nproc_neZero : NeZero nproc := ⟨by decide⟩

/-- The page table of the first process. -/
def smallRoot : Nat :=
  haveI := nproc_neZero
  (smallStart.proc 0).pagetable

theorem smallStart_supplies : smallStart.ram.Supplies 93 := by
  refine ⟨?_, (List.range 93).map fun i => smallImage.endAddr + (7 + i) * pgSize,
    by decide +kernel, by decide⟩
  rw [show smallStart.ram.fails = [] by decide +kernel]
  simp

/-- It has a child. -/
def smallFork : KernelState :=
  match perform smallImage smallStart ⟨0, .fork, []⟩ with
  | some (_, k) => k
  | none => smallStart

theorem smallFork_eq : ∃ res, perform smallImage smallStart ⟨0, .fork, []⟩ = some (res, smallFork) := by
  have hok : (perform smallImage smallStart ⟨0, .fork, []⟩).isSome = true := by decide +kernel
  obtain ⟨done, hdone⟩ := Option.isSome_iff_exists.mp hok
  refine ⟨done.1, ?_⟩
  unfold smallFork
  rw [hdone]

theorem smallFork_step : StepOf (step smallImage) ⟨smallStart, []⟩ ⟨0, .fork, []⟩ ⟨smallFork, []⟩ := by
  obtain ⟨res, hres⟩ := smallFork_eq
  simp only [StepOf, step, hres, Option.map_some]
  rfl

theorem smallFork_procs : (smallFork.proc 0).state = .runnable ∧
    (smallFork.proc 1).state = .runnable ∧ (smallFork.proc 1).parent = some 0 ∧
    (smallFork.proc 0).parent = none ∧ smallFork.initproc = some 0 := by
  decide +kernel

theorem smallFork_inv : ∃ own, KernelInv smallImage own [] smallFork ∧
    ∀ j, smallFork.ringbufs j = .zero := by
  obtain ⟨⟨own, hinv⟩, hzero, -⟩ := smallStart_started.kernelInv
  obtain ⟨res, hperform⟩ := smallFork_eq
  obtain ⟨hstate, hrun⟩ := perform_eq_some hperform
  obtain ⟨res', k', hfork, hdone⟩ := bind_eq_ok.mp hrun
  cases hdone
  rcases (hinv.withFails []).fork (hinv.pagetable_ne_zero hstate) with
    ⟨res, k', own', np, hok, hinv', hspawned, -⟩ | hfault | hfault
  · rw [hok] at hfork
    cases hfork
    exact ⟨own', hinv', fun j => by rw [hspawned.ringbufs]; exact hzero j⟩
  · rw [hfault] at hfork
    cases hfork
  · rw [hfault] at hfork
    cases hfork

theorem smallFork_supplies : (smallFork.withFails []).ram.Supplies 17 := by
  refine ⟨by simp [KernelState.withFails], (List.range 86).map fun i =>
    smallImage.endAddr + (14 + i) * pgSize, by decide +kernel, by decide⟩

/-- The name `ring`. -/
def ringName : CString := ⟨[0x72, 0x69, 0x6e, 0x67], by decide⟩

/-- The end that the parent opens under this name. -/
def parentEnd : Holding :=
  haveI := ringEnd_neZero
  ⟨0, ringName, 0, 0, 0⟩

theorem smallFork_free : findFree smallFork = some 0 := by
  obtain ⟨-, -, hzero⟩ := smallFork_inv
  rw [findFree, show List.finRange maxRingbufs = 0 :: (List.finRange maxRingbufs).tail from rfl,
    List.find?_cons_of_pos (by rw [hzero]; decide)]

theorem smallFork_unnamed {straddr : CString} (h : straddr ≠ .empty) :
    findName smallFork straddr = none := by
  obtain ⟨-, -, hzero⟩ := smallFork_inv
  refine List.find?_eq_none.mpr fun i _ => ?_
  rw [hzero, decide_eq_true_eq, strcmp_eq_zero_iff]
  exact h

theorem smallFork_make (retvaddr : Nat) (fails : List Bool) : ∃ own k' own',
    KernelInv smallImage own [] smallFork ∧
    perform smallImage smallFork ⟨0, .createbuf ringName 0 retvaddr, fails⟩ = some (some 1, k') ∧
    openedEnd smallFork 0 ringName 0 = some parentEnd ∧
    Opened smallImage own own' [] parentEnd true retvaddr (smallFork.withFails fails) k' ∧
    KernelInv smallImage own' [parentEnd] k' := by
  obtain ⟨own, hinv, -⟩ := smallFork_inv
  have hfound : findName smallFork ringName = none := smallFork_unnamed (by decide)
  obtain ⟨k', own', hrun, hend, ho, hinv'⟩ := KernelInv.perform_make (a := parentEnd)
    hinv smallFork_procs.1 (by decide : ¬((0 : Int) < 0 ∨ 1 < (0 : Int)))
      rfl (by simp [parentEnd, hfound])
    smallFork_free rfl rfl retvaddr fails
  rw [show findName smallFork parentEnd.name = none from hfound] at hrun
  exact ⟨own, k', own', hinv, hrun, hend, ho, hinv'⟩

theorem smallFork_make_step {retvaddr : Nat} {fails : List Bool}
    (h : perform smallImage smallFork ⟨0, .createbuf ringName 0 retvaddr, fails⟩ =
      some (some 1, k')) :
    StepOf (step smallImage) ⟨smallFork, []⟩ ⟨0, .createbuf ringName 0 retvaddr, fails⟩
      ⟨k', [parentEnd]⟩ := by
  obtain ⟨-, -, -, -, -, hend, -⟩ := smallFork_make retvaddr fails
  simp only [StepOf, step, h, Option.map_some, holdsAfter, hend]
  rfl

/-- The end that the child opens. -/
def childEnd : Holding :=
  haveI := ringEnd_neZero
  ⟨1, ringName, 1, 1, 0⟩

/-- The child asks for the other end and gets a ring of its own: the search finds the first one in
slot 0, where the source does not look. -/
theorem smallFork_make_twice : ∃ k1 k2 own1 own2,
    perform smallImage smallFork ⟨0, .createbuf ringName 0 0, []⟩ = some (some 1, k1) ∧
    perform smallImage k1 ⟨1, .createbuf ringName 1 0, []⟩ = some (some 0, k2) ∧
    openedEnd k1 1 ringName 1 = some childEnd ∧
    KernelInv smallImage own1 [parentEnd] k1 ∧ (k1.ringbufs 0).Backed ∧
    findName k1 ringName = some 0 ∧ (k1.ringbufs 0).refcount = 1 ∧ (k1.ringbufs 1).refcount = 0 ∧
    Opened smallImage own1 own2 [parentEnd] childEnd true 0 (k1.withFails []) k2 ∧
    KernelInv smallImage own2 [childEnd, parentEnd] k2 := by
  obtain ⟨own, k1, own1, -, hrun1, -, ho1, hinv1⟩ := smallFork_make 0 []
  obtain ⟨-, -, hzero⟩ := smallFork_inv
  have hname1 : (k1.ringbufs 0).name = ringName := ho1.name
  have hcount1 : (k1.ringbufs 0).refcount = 1 := by
    refine ho1.refcount.trans ?_
    show (smallFork.ringbufs 0).refcount + 1 = 1
    rw [hzero]
    rfl
  have hslot1 : k1.ringbufs 1 = .zero := (ho1.other 1 (by decide)).trans (hzero 1)
  have hfound : findName k1 ringName = some 0 := by
    rw [findName, show List.finRange maxRingbufs = 0 :: (List.finRange maxRingbufs).tail from rfl,
      List.find?_cons_of_pos (by rw [hname1]; decide)]
  have hfree : findFree k1 = some 1 := by
    rw [findFree,
      show List.finRange maxRingbufs = 0 :: 1 :: ((List.finRange maxRingbufs).tail).tail from rfl,
      List.find?_cons_of_neg (by rw [hcount1]; decide),
      List.find?_cons_of_pos (by rw [hslot1]; decide)]
  have hstate : (k1.proc 1).state = .runnable := by
    rw [ho1.proc]
    exact smallFork_procs.2.1
  obtain ⟨k2, own2, hrun2, hend, ho2, hinv2⟩ := KernelInv.perform_make (a := childEnd)
    hinv1 hstate (by decide : ¬((1 : Int) < 0 ∨ 1 < (1 : Int))) rfl (by simp [childEnd, hfound])
      hfree rfl rfl 0 []
  rw [show findName k1 childEnd.name = some 0 from hfound] at hrun2
  exact ⟨k1, k2, own1, own2, hrun1, hrun2, hend, hinv1, ho1.supply rfl smallFork_supplies, hfound,
    hcount1, by rw [hslot1]; rfl, ho2, hinv2⟩

end Kernel
end FastIpc
