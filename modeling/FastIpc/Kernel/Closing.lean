import FastIpc.Kernel.Rendezvous

/-!
# Giving up ring ends

A process gives up an end of a ring with `closebuf`; `exec` and `wait` destroy an
image without looking at the ring table.

Main results:

- Theorem `closebuf_affects_own_end`: what closing the only end of a ring does.
- Theorem `teardown_releases_rings`: when no leaf and no slot is left over.
-/

namespace FastIpc
namespace Kernel

open Foundation FaultM

/-! ## Closing the only end of a ring -/

/-- The call closes the end `a` of the caller, which is the only one of its ring, and the ring
has all its pages. -/
structure ClosesAlone (s : System) (p : ProcId) (straddr : CString) (opdesc : Int) (a : Holding) :
    Prop where
  held : a ∈ s.holds
  valid : ¬(opdesc < 0 ∨ 1 < opdesc)
  closed : a.IsClosed s.kernel p straddr opdesc
  only : (s.kernel.ringbufs a.slot).refcount = 1
  backed : (s.kernel.ringbufs a.slot).Backed

/-- A call that is safe and, if it closes a ring, closes the only end. -/
def AloneCall (s : System) (ev : Event) : Prop :=
  match ev.call with
  | .closebuf straddr opdesc => ∃ a, ClosesAlone s ev.proc straddr opdesc a
  | call => SafeCall s ev.proc call

variable {ev : Event} {a : Holding} {im : Image} {k : KernelState} {holds : List Holding}
  {own : Nat → Role} {p : ProcId} {s t : System}

theorem AloneCall.createSafe {straddr : CString} {opdesc : Int} {retvaddr : Nat}
    (h : AloneCall s ev) (hcall : ev.call = .createbuf straddr opdesc retvaddr)
    (hop : ¬(opdesc < 0 ∨ 1 < opdesc)) : CreateSafe s.kernel straddr := by
  rw [AloneCall, hcall] at h
  exact h hop

/-- The end that the call closes is the only one of its ring. -/
theorem AloneCall.only {straddr : CString} {opdesc : Int} (h : AloneCall s ev)
    (hcall : ev.call = .closebuf straddr opdesc)
    (hend : a.IsClosed s.kernel ev.proc straddr opdesc) :
    (s.kernel.ringbufs a.slot).refcount = 1 := by
  rw [AloneCall, hcall] at h
  obtain ⟨b, hb⟩ := h
  have hslot : b.slot = a.slot := Option.some.inj (hb.closed.2.symm.trans hend.2)
  rw [← hslot]
  exact hb.only

namespace Settled

variable {im : Image} {own own' : Nat → Role} {s t : System} {ev : Event}

/-- The only end of a ring is mapped where the slot says. -/
theorem safeCall (h : Settled s.holds s.kernel) (hok : AloneCall s ev) :
    SafeCall s ev.proc ev.call := by
  unfold AloneCall at hok
  split at hok
  next straddr opdesc hcall =>
    obtain ⟨a, ha⟩ := hok
    rw [hcall]
    exact ⟨a, ha.held, ha.closed, h.vabuf a ha.held ha.only⟩
  next => exact hok

theorem effect (h : Settled s.holds s.kernel) (hinv : KernelInv im own s.holds s.kernel)
    (hok : AloneCall s ev) (heffect : Effect im own own' s ev t) : Settled t.holds t.kernel := by
  cases heffect with
  | quiet hrings hholds =>
    rw [hholds]
    exact h.congr fun a _ => by rw [hrings]
  | leaked straddr opdesc retvaddr j hcall hop hmakes hwindow hfree hrings hholds =>
    rw [hholds]
    refine h.congr fun a ha => ?_
    rw [hrings, Function.update_of_ne (hinv.ledger.ne_slot_of_zero (refcount_of_findFree hfree) ha)]
  | opened straddr opdesc retvaddr a hcall hop hend ho hholds =>
    rw [hholds]
    refine Settled.opened (k := s.kernel.withFails ev.fails) ⟨h.listed, h.vabuf⟩
      (hinv.withFails ev.fails).ledger ho fun hattaches => ?_
    exact hinv.held_of_attaches (hok.createSafe hcall hop).1 (by simpa using hattaches) hend
  | closed straddr opdesc a hcall ha hend hc hholds =>
    rw [hholds]
    exact Settled.closed (k := s.kernel.withFails ev.fails) ⟨h.listed, h.vabuf⟩
      (hinv.withFails ev.fails).ledger ha (hok.only hcall hend) hc

end Settled

/-- The invariant of runs that close only the only end of a ring. -/
def SettledInv (im : Image) (s : System) : Prop :=
  (∃ own, KernelInv im own s.holds s.kernel) ∧ Settled s.holds s.kernel

theorem SettledInv.step (h : SettledInv im s) (hok : AloneCall s ev)
    (hstep : Kernel.step im s ev = some t) : SettledInv im t := by
  obtain ⟨⟨own, hinv⟩, hsettled⟩ := h
  obtain ⟨own', hinv', heffect⟩ := hinv.step (hsettled.safeCall hok) hstep
  exact ⟨⟨own', hinv'⟩, hsettled.effect hinv hok heffect⟩

/-- The seventeen pages of a ring. -/
def Ringbuf.pages (b : Ringbuf) : List Nat := (List.finRange ringbufSize).map b.bufPA ++ [b.book]

theorem Ringbuf.mem_pages {b : Ringbuf} {page : Nat} :
    page ∈ b.pages ↔ (∃ i, b.bufPA i = page) ∨ b.book = page := by
  simp [pages, eq_comm]

theorem RingOwned.pages_nodup {j : Slot} {b : Ringbuf} (h : RingOwned own j b)
    (hbacked : b.Backed) : b.pages.Nodup := by
  have hdata : ∀ i, own (b.bufPA i) = .ringData j i := fun i => (h.data i).resolve_left (hbacked.1 i)
  have hbook : own b.book = .ringBook j := h.book.resolve_left hbacked.2
  refine List.nodup_append.mpr ⟨(List.nodup_finRange _).map fun i i' heq => ?_, by simp, ?_⟩
  · have hrole := (hdata i).symm.trans ((congrArg own heq).trans (hdata i'))
    exact Fin.ext (Role.ringData.inj hrole).2
  · rintro page hpage _ hbook' rfl
    obtain ⟨i, -, rfl⟩ := List.mem_map.mp hpage
    rw [List.mem_singleton] at hbook'
    rw [← hbook', hdata i] at hbook
    cases hbook

/-- What closing the end `a` does: the window of the caller, the end and the reference are
gone, the pages of the ring are on the free list once each, and everything else is as before. -/
structure EndClosed (k : KernelState) (a : Holding) (k' : KernelState) : Prop where
  mapped : ∀ i < 33, leaf k.ram.mem (k.proc a.proc).pagetable (window a.window + i * pgSize) ≠ 0
  leaves : ∀ q va, (k.proc q).pagetable ≠ 0 → va < maxVA →
    leaf k'.ram.mem (k'.proc q).pagetable va =
      if q = a.proc ∧ window a.window ≤ va ∧ va < window a.window + 33 * pgSize then 0
      else leaf k.ram.mem (k.proc q).pagetable va
  own_end : (k'.ringbufs a.slot).pidsRW a.ringEnd = 0
  other_end : ∀ e, e ≠ a.ringEnd → (k'.ringbufs a.slot).pidsRW e = (k.ringbufs a.slot).pidsRW e
  refcount : (k'.ringbufs a.slot).refcount = (k.ringbufs a.slot).refcount - 1
  other : ∀ j, j ≠ a.slot → k'.ringbufs j = k.ringbufs j
  freed : ∃ l l', Threaded k.ram.mem k.ram.freelist l ∧ Threaded k'.ram.mem k'.ram.freelist l' ∧
    l'.Nodup ∧ l'.Perm ((k.ringbufs a.slot).pages ++ l)

section

variable {im : Image} {own own' : Nat → Role} {holds : List Holding} {k k' : KernelState}
  {a : Holding}

variable (hc : Closed im own own' holds a true k k') (hinv : KernelInv im own holds k)
include hc hinv

/-- Closing the last end frees the pages of the ring. -/
theorem Closed.freed (ha : a ∈ holds) (hbacked : (k.ringbufs a.slot).Backed) :
    ∃ l l', Threaded k.ram.mem k.ram.freelist l ∧ Threaded k'.ram.mem k'.ram.freelist l' ∧
      l'.Nodup ∧ l'.Perm ((k.ringbufs a.slot).pages ++ l) := by
  have hring := hinv.spaces.held_pages a ha
  obtain ⟨l, hl, hnodup, hmem⟩ := hinv.spaces.owned.free
  obtain ⟨l', hl', hnodup', hmem'⟩ := hc.unmapped.owned.free
  have hused : ∀ page ∈ (k.ringbufs a.slot).pages, own page ≠ .free := by
    intro page hpage hfree
    rcases Ringbuf.mem_pages.mp hpage with ⟨i, rfl⟩ | rfl
    · cases ((hring.data i).resolve_left (hbacked.1 i)).symm.trans hfree
    · cases (hring.book.resolve_left hbacked.2).symm.trans hfree
  refine ⟨l, l', hl, hl', hnodup', (List.perm_ext_iff_of_nodup hnodup' ?_).mpr fun page => ?_⟩
  · refine List.nodup_append.mpr ⟨hring.pages_nodup hbacked, hnodup, ?_⟩
    rintro page hpage _ hfree rfl
    exact hused page hpage ((hmem page).mp hfree)
  · rw [hmem', hc.unmapped.own_eq, List.mem_append, hmem, Ringbuf.mem_pages]
    by_cases hpage : (∃ i, (k.ringbufs a.slot).bufPA i = page) ∨ (k.ringbufs a.slot).book = page
    · simp [hpage]
    · simp [hpage]

theorem Closed.endClosed (hsettled : Settled holds k) (ha : a ∈ holds)
    (hone : (k.ringbufs a.slot).refcount = 1) (hbacked : (k.ringbufs a.slot).Backed) :
    EndClosed k a k' := by
  have hslot : k'.ringbufs a.slot = (k.ringbufs a.slot).cleared := hc.slot
  have hroot : ∀ q, (k'.proc q).pagetable = (k.proc q).pagetable := fun q => by
    rw [hc.proc]
    exact (proc_flag_update k a.proc q _).1
  refine ⟨fun i hi hzero => ?_, fun q va hq hva => ?_, ?_, fun e he => ?_, ?_, hc.other,
    hc.freed hinv ha hbacked⟩
  · rw [hinv.spaces.leaf_of_mem ha hi] at hzero
    exact mkPte_valid ringPerm_lt (by rw [hzero]; rfl)
  · rw [hroot, hc.unmapped.leaf_eq _ _ (Spaces.isRoot hq) (lt_treeVA hva)]
    have hsame : (k.proc q).pagetable = (k.proc a.proc).pagetable ↔ q = a.proc :=
      ⟨fun heq => hinv.spaces.root_inj q a.proc hq heq, fun heq => by rw [heq]⟩
    simp only [hsame]
  · rw [hslot]
    rfl
  · rw [hslot]
    by_contra hlisted
    -- Whoever is listed at the other end holds it, and would be counted.
    obtain ⟨b, hb, hbslot, hbend⟩ := hsettled.listed a ha e fun hzero => hlisted hzero.symm
    have hlast := (hinv.ledger.last_iff ha).mp (by rw [hone]; decide) b hb hbslot
    exact he (by rw [← hbend, hlast])
  · rw [hslot, hone]
    rfl

end

/-- In every state that is reached by safe calls that close only the only end of a ring, such a
call of `closebuf` returns 0 and affects exactly the end of the caller. -/
theorem closebuf_affects_own_end {im : Image} {k : KernelState} {s : System} {events : List Event}
    (hstart : Started im k) (hrun : Run (Guarded AloneCall (StepOf (step im))) ⟨k, []⟩ events s)
    {p : ProcId} {straddr : CString} {opdesc : Int} {a : Holding}
    (halone : ClosesAlone s p straddr opdesc a) :
    (∀ b ∈ s.holds, b.slot = a.slot → b = a) ∧
      ∃ k', closebuf im p straddr opdesc s.kernel = .ok (0, k') ∧ EndClosed s.kernel a k' := by
  obtain ⟨⟨own, hinv⟩, hsettled⟩ : SettledInv im s := hrun.invariant_guarded SettledInv.step
    ⟨hstart.kernelInv.1, (Exact.of_zero hstart.kernelInv.2.1).toSettled⟩
  have hlast : decide ((s.kernel.ringbufs a.slot).refcount - 1 < 1) = true := by
    rw [halone.only]
    rfl
  obtain ⟨k', own', hcall, hc, -⟩ := hinv.close halone.held halone.closed.2
    (hsettled.vabuf a halone.held halone.only) (fun _ => halone.backed) opdesc
  rw [hlast] at hc
  rw [halone.closed.1.1] at hcall
  exact ⟨(hinv.ledger.last_iff halone.held).mp (by rw [halone.only]; decide), k', hcall,
    hc.endClosed hinv hsettled halone.held halone.only halone.backed⟩

/-- A parent makes a ring and closes it again. -/
theorem closebuf_affects_own_end_small : ∃ s k',
    Run (Guarded AloneCall (StepOf (step smallImage))) ⟨smallStart, []⟩
      [⟨0, .fork, []⟩, ⟨0, .createbuf ringName 0 0, []⟩] s ∧
    closebuf smallImage 0 ringName 0 s.kernel = .ok (0, k') ∧ EndClosed s.kernel parentEnd k' := by
  obtain ⟨k1, -, -, -, hmake, -, -, -, hbacked, hfound, hcount, -⟩ := smallFork_make_twice
  have hsafe : AloneCall ⟨smallFork, []⟩ ⟨0, .createbuf ringName 0 0, []⟩ := fun _ =>
    ⟨by decide, fun hnone => by rw [smallFork_free] at hnone; cases hnone⟩
  have hrun : Run (Guarded AloneCall (StepOf (step smallImage))) ⟨smallStart, []⟩
      [⟨0, .fork, []⟩, ⟨0, .createbuf ringName 0 0, []⟩] ⟨k1, [parentEnd]⟩ :=
    Run.cons ⟨trivial, smallFork_step⟩ (Run.cons ⟨hsafe, smallFork_make_step hmake⟩ Run.nil)
  have halone : ClosesAlone ⟨k1, [parentEnd]⟩ 0 ringName 0 parentEnd :=
    ⟨by simp, by decide, ⟨⟨rfl, rfl, rfl⟩, hfound⟩, hcount, hbacked⟩
  obtain ⟨-, k', hclose, hend⟩ := closebuf_affects_own_end smallStart_started hrun halone
  exact ⟨_, k', hrun, hclose, hend⟩

/-- Closing a ring by a name that is not in the table runs beyond the table, where it should
return -1. -/
theorem closebuf_unknown_name : Run (StepOf (step smallImage)) ⟨smallStart, []⟩
      [⟨0, .fork, []⟩] ⟨smallFork, []⟩ ∧
    findName smallFork ringName = none ∧
    closebuf smallImage 0 ringName 0 smallFork = .error (.outOfBounds maxRingbufs) := by
  have hfound : findName smallFork ringName = none := smallFork_unnamed (by decide)
  exact ⟨Run.cons smallFork_step Run.nil, hfound, closebuf_unknown hfound⟩

/-! ## Destroying an image -/

/-- A call that keeps the ring table in step with the windows: `createbuf` has a window if it
makes a ring, `closebuf` closes the only end, and an image is destroyed only when its process
holds no end any more. -/
def TidyCall (s : System) (ev : Event) : Prop :=
  AloneCall s ev ∧ match ev.call with
    | .createbuf straddr opdesc _ => ¬(opdesc < 0 ∨ 1 < opdesc) →
        attaches s.kernel straddr = false →
        firstWindow s.kernel.ram.mem (s.kernel.proc ev.proc).pagetable ≠ none
    | .exec file _ => isProgram file = true → HoldsNothing s.holds ev.proc
    | .wait _ => ∀ np, zombieChild s.kernel ev.proc = some np → HoldsNothing s.holds np
    | _ => True

theorem Exact.effect {own' : Nat → Role} (h : Exact s.holds s.kernel)
    (hinv : KernelInv im own s.holds s.kernel) (hok : TidyCall s ev)
    (heffect : Effect im own own' s ev t) : Exact t.holds t.kernel := by
  have h' : Exact s.holds (s.kernel.withFails ev.fails) := h.congr rfl
  cases heffect with
  | quiet hrings hholds =>
    rw [hholds]
    exact h.congr hrings
  | leaked straddr opdesc retvaddr j hcall hop hmakes hwindow hfree hrings hholds =>
    have hroom := hok.2
    rw [hcall] at hroom
    exact (hroom hop hmakes hwindow).elim
  | opened straddr opdesc retvaddr a hcall hop hend ho hholds =>
    rw [hholds]
    refine h'.opened (hinv.withFails ev.fails).ledger ho fun hattaches => ?_
    exact hinv.held_of_attaches (hok.1.createSafe hcall hop).1 (by simpa using hattaches) hend
  | closed straddr opdesc a hcall ha hend hc hholds =>
    have hone := hok.1.only hcall hend
    rw [hone] at hc
    rw [hholds]
    exact h'.closed (hinv.withFails ev.fails).ledger ha hone hc

/-- The invariant of tidy runs. -/
def TidyInv (im : Image) (s : System) : Prop :=
  (∃ own, KernelInv im own s.holds s.kernel) ∧ Exact s.holds s.kernel

theorem TidyInv.step (h : TidyInv im s) (hok : TidyCall s ev)
    (hstep : Kernel.step im s ev = some t) : TidyInv im t := by
  obtain ⟨⟨own, hinv⟩, hexact⟩ := h
  obtain ⟨own', hinv', heffect⟩ := hinv.step (hexact.toSettled.safeCall hok.1) hstep
  exact ⟨⟨own', hinv'⟩, hexact.effect hinv hok heffect⟩

/-- The step from `k` to `k'` destroyed the image of `np`: `exec` replaced it,
or `wait` reaped the process. -/
def Destroyed (ev : Event) (res : Option Int) (k k' : KernelState) (np : ProcId) : Prop :=
  match ev.call with
  | .exec .. => np = ev.proc ∧ ∃ argc, res = some argc ∧ 0 ≤ argc
  | .wait _ => (k.proc np).state = .zombie ∧ (k'.proc np).state = .unused
  | _ => False

/-- The ring table knows nothing of a process any more, and no page that somebody maps in a window
is on the free list. -/
structure Released (s : System) (np : ProcId) (pid : Nat) : Prop where
  unlisted : ∀ j e, (s.kernel.ringbufs j).pidsRW e ≠ pid
  uncounted : ∀ j, (s.kernel.ringbufs j).refcount = s.holds.countP fun a => a.slot = j ∧ a.proc ≠ np
  kept : ∀ a ∈ s.holds, ∀ i < 33, ∀ page, translate s.kernel.ram.mem
    (s.kernel.proc a.proc).pagetable (window a.window + i * pgSize) = some page →
    ¬s.kernel.ram.OnFreeList page

theorem KernelInv.not_onFreeList (h : KernelInv im own holds k) (ha : a ∈ holds) (i : Nat) :
    ¬k.ram.OnFreeList ((k.ringbufs a.slot).pageAt i) := by
  intro hfree
  rw [h.spaces.owned.onFreeList_iff] at hfree
  have hpage := h.spaces.owned.page _ (by rw [hfree]; decide)
  exact ((h.spaces.held_pages a ha).isData h.spaces.owned hpage.pos.ne').not_free hfree

theorem TidyInv.released {np : ProcId} (hs : TidyInv im s) (ht : TidyInv im t)
    (hrings : t.kernel.ringbufs = s.kernel.ringbufs) (hholds : t.holds = s.holds)
    (hnp : (s.kernel.proc np).pagetable ≠ 0) (hnothing : HoldsNothing s.holds np) :
    Released t np (s.kernel.proc np).pid := by
  obtain ⟨⟨own, hinv⟩, hexact⟩ := hs
  obtain ⟨⟨own', hinv'⟩, hexact'⟩ := ht
  refine ⟨fun j e hlisted => ?_, fun j => ?_, fun a ha i hi page hpage => ?_⟩
  · rw [hrings] at hlisted
    obtain ⟨a, ha, rfl, rfl⟩ := hexact.held_of_listed
      (by rw [hlisted]; exact hinv.procs.pid_pos np hnp)
    rw [hinv.ledger.held_pid a ha] at hlisted
    exact hnothing a ha (hinv.procs.pid_inj _ _ (hinv.spaces.held_root a ha) hnp hlisted)
  · rw [hexact'.refcount_eq hinv'.ledger j, List.countP_congr fun a ha => ?_]
    simp [hnothing a (hholds ▸ ha)]
  · rw [hinv'.translate_eq ha hi] at hpage
    rw [← Option.some.inj hpage]
    exact hinv'.not_onFreeList ha i

/-- `exec` by a process that holds no end, if the file is a program. -/
theorem TidyInv.exec {file : Option (List (BitVec 8))} {argv : List CString} {fails : List Bool}
    (h : TidyInv im s) (hproc : (s.kernel.proc p).state = .runnable)
    (hok : TidyCall s ⟨p, .exec file argv, fails⟩) :
    (Call.exec file argv).serve im p (s.kernel.withFails fails) ≠ .error Owned.leafLeft ∧
      ∀ t argc, Kernel.step im s ⟨p, .exec file argv, fails⟩ = some t →
        perform im s.kernel ⟨p, .exec file argv, fails⟩ = some (some argc, t.kernel) → 0 ≤ argc →
        Released t p (s.kernel.proc p).pid := by
  obtain ⟨⟨own, hkernel⟩, -⟩ := id h
  have hp := hkernel.pagetable_ne_zero hproc
  have hnothing : isProgram file = true → HoldsNothing s.holds p := hok.2
  rcases (hkernel.withFails fails).exec hp file argv with
    ⟨argc', k', own', hexec, -, hreloaded, hdone, -⟩ | ⟨-, hprogram, hleft⟩
  · have hserve : (Call.exec file argv).serve im p (s.kernel.withFails fails) =
        .ok (some argc', k') := by
      rw [Call.serve, bind_of_ok hexec]
      rfl
    refine ⟨by simp [hserve], fun t argc hstep hperform hargc => ?_⟩
    rw [perform_of_ok hproc hserve] at hperform
    obtain ⟨rfl, rfl⟩ : argc' = argc ∧ k' = t.kernel := by simpa using hperform
    obtain ⟨-, _, -, hholds⟩ := step_eq_some hstep
    exact h.released (h.step hok hstep) hreloaded.ringbufs hholds hp (hdone hargc)
  · exact (hleft (hnothing hprogram)).elim

/-- `wait` of a parent whose dead child holds no end. -/
theorem TidyInv.wait {addr : Nat} {fails : List Bool} (h : TidyInv im s)
    (hproc : (s.kernel.proc p).state = .runnable) (hok : TidyCall s ⟨p, .wait addr, fails⟩) :
    (Call.wait addr).serve im p (s.kernel.withFails fails) ≠ .error Owned.leafLeft ∧
      ∀ t np, Kernel.step im s ⟨p, .wait addr, fails⟩ = some t → (s.kernel.proc np).state = .zombie →
        (t.kernel.proc np).state = .unused → Released t np (s.kernel.proc np).pid := by
  obtain ⟨⟨own, hkernel⟩, -⟩ := id h
  have hp := hkernel.pagetable_ne_zero hproc
  have hnothing : ∀ np, zombieChild s.kernel p = some np → HoldsNothing s.holds np := hok.2
  rcases (hkernel.withFails fails).wait hp addr with
    ⟨res, k', own', hwait, -, -, hcases⟩ | ⟨-, np, hchild, hleft⟩
  · have hserve : (Call.wait addr).serve im p (s.kernel.withFails fails) = .ok (res, k') := hwait
    refine ⟨by simp [hserve], fun t np hstep hzombie hunused => ?_⟩
    obtain ⟨-, res', hok', hholds⟩ := step_eq_some hstep
    obtain ⟨rfl, rfl⟩ : res = res' ∧ k' = t.kernel := by simpa using hserve.symm.trans hok'
    rcases hcases with ⟨hsame, -⟩ | ⟨np', hchild, hreaped, hnone⟩
    · rw [hsame] at hunused
      cases hunused.symm.trans hzombie
    · have hnp : np = np' := by
        by_contra hne
        rw [hreaped.other np hne] at hunused
        cases hunused.symm.trans hzombie
      subst hnp
      have hroot : (s.kernel.proc np).pagetable ≠ 0 := fun hzero => by
        cases ((hkernel.procs.unused np).mp hzero).symm.trans hzombie
      exact h.released (h.step hok hstep) hreaped.ringbufs hholds hroot hnone
  · exact (hleft (hnothing np hchild)).elim

/-- In every state that is reached by tidy calls, a tidy call of `exec` or `wait` does not
meet a leaf that is left over, and after it has destroyed an image, the ring table does not mention
the process. -/
theorem teardown_releases_rings {im : Image} {k : KernelState} {s : System} {events : List Event}
    (hstart : Started im k) (hrun : Run (Guarded TidyCall (StepOf (step im))) ⟨k, []⟩ events s)
    {ev : Event} (hproc : (s.kernel.proc ev.proc).state = .runnable) (hok : TidyCall s ev)
    (hcall : (∃ file argv, ev.call = .exec file argv) ∨ ∃ addr, ev.call = .wait addr) :
    ev.call.serve im ev.proc (s.kernel.withFails ev.fails) ≠ .error Owned.leafLeft ∧
      ∀ t res np, step im s ev = some t → perform im s.kernel ev = some (res, t.kernel) →
        Destroyed ev res s.kernel t.kernel np → Released t np (s.kernel.proc np).pid := by
  have hinv : TidyInv im s := hrun.invariant_guarded TidyInv.step
    ⟨hstart.kernelInv.1, Exact.of_zero hstart.kernelInv.2.1⟩
  obtain ⟨p, call, fails⟩ := ev
  rcases hcall with ⟨file, argv, rfl⟩ | ⟨addr, rfl⟩
  · obtain ⟨hleaf, hreleased⟩ := hinv.exec hproc hok
    refine ⟨hleaf, fun t res np hstep hperform hdestroyed => ?_⟩
    obtain ⟨rfl, argc, rfl, hargc⟩ := hdestroyed
    exact hreleased t argc hstep hperform hargc
  · obtain ⟨hleaf, hreleased⟩ := hinv.wait hproc hok
    exact ⟨hleaf, fun t res np hstep _ hdestroyed =>
      hreleased t np hstep hdestroyed.1 hdestroyed.2⟩

theorem exit_of_ne (hinit : k.initproc ≠ some p) (status : Int) :
    ∃ k', exit p status k = .ok ((), k') ∧ (k'.proc p).state = .zombie ∧
      (∀ q, q ≠ p → (k'.proc q).state = (k.proc q).state) ∧
      ∀ q, (k.proc q).parent ≠ some p → (k'.proc q).parent = (k.proc q).parent := by
  rw [exit, bind_of_ok (get_apply k), if_neg hinit]
  refine ⟨_, rfl, by rw [KernelState.setProc_same], fun q hq => ?_, fun q hq => ?_⟩
  · rw [KernelState.setProc_ne _ _ _ hq]
    simp only
    split
    next => rfl
    next => rfl
  · by_cases hqp : q = p
    · subst hqp
      rw [KernelState.setProc_same]
      simp only [if_neg hq]
    · rw [KernelState.setProc_ne _ _ _ hqp]
      simp only [if_neg hq]

theorem Opened.state_parent {own' : Nat → Role} {k' : KernelState} {newmap : Bool} {retvaddr : Nat}
    (ho : Opened im own own' holds a newmap retvaddr k k') (q : ProcId) :
    (k'.proc q).state = (k.proc q).state ∧ (k'.proc q).parent = (k.proc q).parent := by
  rw [ho.proc]
  by_cases hq : q = a.proc
  · subst hq
    simp
  · simp [hq]

theorem smallFork_exit (h : KernelInv smallImage own holds k)
    (hproc : ∀ q, (k.proc q).state = (smallFork.proc q).state ∧
      (k.proc q).parent = (smallFork.proc q).parent) (hinit : k.initproc = smallFork.initproc) :
    ∃ k', perform smallImage k ⟨1, .exit 0, []⟩ = some (none, k') ∧
      KernelInv smallImage own holds k' ∧ zombieChild k' 0 = some 1 ∧
      (k'.proc 0).state = .runnable := by
  obtain ⟨hstate0, hstate1, hparent1, hparent0, hfirst⟩ := smallFork_procs
  have hstate : (k.proc 1).state = .runnable := (hproc 1).1.trans hstate1
  obtain ⟨k', hexit, hzombie, hother, hparent⟩ :=
    exit_of_ne (k := k.withFails []) (p := 1) (by
      rw [show (k.withFails []).initproc = some 0 from hinit.trans hfirst]
      decide) 0
  have hparent0' : (k'.proc 0).parent = none := by
    rw [hparent 0 (by rw [show ((k.withFails []).proc 0).parent = none from
      (hproc 0).2.trans hparent0]; decide)]
    exact (hproc 0).2.trans hparent0
  have hparent1' : (k'.proc 1).parent = some 0 := by
    rw [hparent 1 (by rw [show ((k.withFails []).proc 1).parent = some 0 from
      (hproc 1).2.trans hparent1]; decide)]
    exact (hproc 1).2.trans hparent1
  refine ⟨k', perform_of_ok hstate ?_, ?_, ?_, ?_⟩
  · show Call.serve smallImage 1 (.exit 0) (k.withFails []) = _
    rw [Call.serve, bind_of_ok hexit]
    rfl
  · rcases (h.withFails []).exit (h.pagetable_ne_zero hstate) 0 with ⟨k'', hexit', hinv', -⟩ | hfault
    · rw [hexit] at hexit'
      cases hexit'
      exact hinv'
    · cases hexit.symm.trans hfault
  · rw [zombieChild,
      show List.finRange nproc = 0 :: 1 :: ((List.finRange nproc).tail).tail from rfl,
      List.find?_cons_of_neg (by simp [hparent0']),
      List.find?_cons_of_pos (by rw [hparent1', hzombie]; decide)]
  · rw [hother 0 (by decide)]
    exact (hproc 0).1.trans hstate0

/-- The parent makes a ring, the child ends, and the parent waits for it. -/
theorem teardown_releases_rings_small : ∃ s t,
    Run (Guarded TidyCall (StepOf (step smallImage))) ⟨smallStart, []⟩
      [⟨0, .fork, []⟩, ⟨0, .createbuf ringName 0 0, []⟩, ⟨1, .exit 0, []⟩] s ∧
    step smallImage s ⟨0, .wait 0, []⟩ = some t ∧ t.holds = [parentEnd] ∧
    Released t 1 (s.kernel.proc 1).pid := by
  obtain ⟨own, k1, own1, hinv, hmake, -, ho, hinv1⟩ := smallFork_make 0 []
  obtain ⟨k2, hexit, hinv2, hchild, hstate⟩ := smallFork_exit hinv1 ho.state_parent ho.rest.2
  have hcreate : TidyCall ⟨smallFork, []⟩ ⟨0, .createbuf ringName 0 0, []⟩ := by
    refine ⟨fun _ => ⟨by decide, fun hnone => ?_⟩, fun _ _ => ?_⟩
    · cases smallFork_free.symm.trans hnone
    · rw [hinv.spaces.firstWindow_eq (hinv.pagetable_ne_zero smallFork_procs.1) rfl]
      simp
  have hdone : step smallImage ⟨k1, [parentEnd]⟩ ⟨1, .exit 0, []⟩ = some ⟨k2, [parentEnd]⟩ := by
    simp [step, hexit, holdsAfter]
  have hrun : Run (Guarded TidyCall (StepOf (step smallImage))) ⟨smallStart, []⟩
      [⟨0, .fork, []⟩, ⟨0, .createbuf ringName 0 0, []⟩, ⟨1, .exit 0, []⟩] ⟨k2, [parentEnd]⟩ :=
    Run.cons ⟨⟨trivial, trivial⟩, smallFork_step⟩ (Run.cons ⟨hcreate, smallFork_make_step hmake⟩
      (Run.cons ⟨⟨trivial, trivial⟩, hdone⟩ Run.nil))
  have hnothing : HoldsNothing [parentEnd] 1 := by decide
  rcases (hinv2.withFails []).wait (hinv2.pagetable_ne_zero hstate) 0 with
    ⟨res, k3, own3, hwait, -, -, hcases⟩ | ⟨-, np, hchild', hleft⟩
  · rcases hcases with ⟨-, -, -, hnone⟩ | ⟨np, hchild', hreaped, -⟩
    · cases hchild.symm.trans (hnone rfl)
    · obtain rfl : 1 = np := Option.some.inj (hchild.symm.trans hchild')
      have hperform : perform smallImage k2 ⟨0, .wait 0, []⟩ = some (res, k3) :=
        perform_of_ok hstate hwait
      have hstep : step smallImage ⟨k2, [parentEnd]⟩ ⟨0, .wait 0, []⟩ = some ⟨k3, [parentEnd]⟩ := by
        simp [step, hperform, holdsAfter]
      have hok : TidyCall ⟨k2, [parentEnd]⟩ ⟨0, .wait 0, []⟩ := by
        refine ⟨trivial, fun np hnp => ?_⟩
        obtain rfl : 1 = np := Option.some.inj (hchild.symm.trans hnp)
        exact hnothing
      exact ⟨_, _, hrun, hstep, rfl, (teardown_releases_rings smallStart_started hrun hstate hok
        (.inr ⟨0, rfl⟩)).2 _ res 1 hstep hperform
          ⟨KernelInv.zombieChild_state hchild, hreaped.unused⟩⟩
  · obtain rfl : 1 = np := Option.some.inj (hchild.symm.trans hchild')
    exact (hleft hnothing).elim

/-- The child makes a ring and ends.  The parent waits for it and stops the machine. -/
theorem teardown_meets_leaf : ∃ s,
    Run (StepOf (step smallImage)) ⟨smallStart, []⟩
      [⟨0, .fork, []⟩, ⟨1, .createbuf ringName 0 0, []⟩, ⟨1, .exit 0, []⟩] s ∧
    wait smallImage 0 0 s.kernel = .error Owned.leafLeft := by
  obtain ⟨own, hinv, -⟩ := smallFork_inv
  have hfound : findName smallFork ringName = none := smallFork_unnamed (by decide)
  have hfound' : ∀ i, findName smallFork ringName = some i → i.val = 0 := by simp [hfound]
  obtain ⟨k1, own1, hmake, hend, ho, hinv1⟩ := hinv.perform_make
    (a := ⟨1, ringName, 0, 0, 0⟩) smallFork_procs.2.1 (by decide : ¬((0 : Int) < 0 ∨ (1 : Int) < 0))
    rfl hfound' smallFork_free rfl rfl 0 []
  obtain ⟨k2, hexit, hinv2, hchild, hstate⟩ := smallFork_exit hinv1 ho.state_parent ho.rest.2
  have hopen : step smallImage ⟨smallFork, []⟩ ⟨1, .createbuf ringName 0 0, []⟩ =
      some ⟨k1, [⟨1, ringName, 0, 0, 0⟩]⟩ := by
    rw [hfound] at hmake
    simp only [step, hmake, Option.map_some, holdsAfter, hend]
    rfl
  have hdone : step smallImage ⟨k1, [⟨1, ringName, 0, 0, 0⟩]⟩ ⟨1, .exit 0, []⟩ =
      some ⟨k2, [⟨1, ringName, 0, 0, 0⟩]⟩ := by
    simp [step, hexit, holdsAfter]
  refine ⟨⟨k2, _⟩, Run.cons smallFork_step (Run.cons hopen (Run.cons hdone Run.nil)), ?_⟩
  have hheld : ¬HoldsNothing [⟨1, ringName, 0, 0, 0⟩] 1 := by decide
  rcases hinv2.wait (hinv2.pagetable_ne_zero hstate) 0 with
    ⟨res, k3, own3, -, -, -, hcases⟩ | ⟨hfault, -⟩
  · rcases hcases with ⟨-, -, -, hnone⟩ | ⟨np, hchild', -, hnothing⟩
    · cases hchild.symm.trans (hnone rfl)
    · obtain rfl : 1 = np := Option.some.inj (hchild.symm.trans hchild')
      exact (hheld hnothing).elim
  · exact hfault

end Kernel
end FastIpc
