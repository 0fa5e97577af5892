import FastIpc.Kernel.Lifecycle

/-!
# The end of a process image

An image is dropped when `wait` frees a child that has ended.  The windows of a process lie
above its user memory, where `uvmfree` does not look: if the process still holds an end of a
ring, `freewalk` panics.

Main results:

- Theorem `KernelInv.freeproc`: a process is freed if it holds nothing.
- Theorem `KernelInv.wait`: what follows for the call.
-/

namespace FastIpc
namespace Kernel

open Foundation FaultM
open Function (update update_of_ne update_self)

namespace KernelInv

variable {im : Image} {own : Nat → Role} {holds : List Holding} {k k' : KernelState}
  {p : ProcId}

/-! ## The end of a process -/

variable (h : KernelInv im own holds k)
include h

/-- The ring table and the pages of the processes are as before. -/
theorem congr (hram : k'.ram = k.ram) (hrings : k'.ringbufs = k.ringbufs)
    (hnext : k'.nextpid = k.nextpid)
    (hproc : ∀ q, (k'.proc q).pagetable = (k.proc q).pagetable ∧ (k'.proc q).sz = (k.proc q).sz ∧
      (k'.proc q).trapframe = (k.proc q).trapframe ∧ (k'.proc q).pid = (k.proc q).pid ∧
      ((k'.proc q).state = .unused ↔ (k.proc q).state = .unused)) :
    KernelInv im own holds k' := by
  have hsame : SameSpaces k.proc k'.proc := fun q =>
    ⟨(hproc q).1, (hproc q).2.1, (hproc q).2.2.1⟩
  refine ⟨h.spaces.congr ?_ hsame (fun r _ va _ => by rw [hram])
    fun a _ => by rw [hrings]; exact ⟨rfl, rfl⟩,
    h.ledger.congr hrings fun a _ => (hproc a.proc).2.2.2.1,
    h.procs.congr (fun q => ⟨(hproc q).1, (hproc q).2.1, (hproc q).2.2.2.2, (hproc q).2.2.2.1⟩) hnext
      fun j e => by rw [hrings]; exact h.procs.listed_lt j e⟩
  rw [hsame.isRoot_eq, hram]
  exact h.spaces.owned

/-- An ending process keeps its image until its parent frees it. -/
theorem exit (hp : (k.proc p).pagetable ≠ 0) (status : Int) :
    (∃ k', Kernel.exit p status k = .ok ((), k') ∧ KernelInv im own holds k' ∧
      k'.ringbufs = k.ringbufs ∧ ∀ q, q ≠ p → (k'.proc q).state = (k.proc q).state) ∨
    Kernel.exit p status k = .error (.panic "init exiting") := by
  rw [Kernel.exit, bind_of_ok (get_apply k)]
  split
  next => exact .inr rfl
  next =>
    have hstate : (k.proc p).state ≠ .unused := fun hs => hp ((h.procs.unused p).mpr hs)
    refine .inl ⟨_, rfl, h.congr rfl rfl rfl fun q => ?_, rfl, fun q hq => ?_⟩
    · by_cases hq : q = p
      · subst hq
        rw [KernelState.setProc_same]
        simp only
        split
        next => simp [hstate]
        next => simp [hstate]
      · rw [KernelState.setProc_ne _ _ _ hq]
        simp only
        split
        next => exact ⟨rfl, rfl, rfl, rfl, Iff.rfl⟩
        next => exact ⟨rfl, rfl, rfl, rfl, Iff.rfl⟩
    · rw [KernelState.setProc_ne _ _ _ hq]
      simp only
      split
      next => rfl
      next => rfl

theorem kill (pid : Nat) :
    ∃ res k', Kernel.kill pid k = .ok (res, k') ∧ KernelInv im own holds k' ∧
      k'.ringbufs = k.ringbufs := by
  rw [Kernel.kill, bind_of_ok (get_apply k)]
  cases (List.finRange nproc).find? fun q => (k.proc q).pid = pid with
  | none => exact ⟨-1, k, rfl, h, rfl⟩
  | some p =>
    refine ⟨0, _, rfl, h.congr rfl rfl rfl fun q => ?_, rfl⟩
    by_cases hq : q = p
    · subst hq
      rw [KernelState.setProc_same]
      refine ⟨rfl, rfl, rfl, rfl, ?_⟩
      simp only
      split
      next hs => simp [hs]
      next => exact Iff.rfl
    · rw [KernelState.setProc_ne _ _ _ hq]
      exact ⟨rfl, rfl, rfl, rfl, Iff.rfl⟩

/-- The memory of the processes was written to, but their address spaces are as before. -/
theorem stored {t : Ram} (hstored : Stored im own (IsRoot k.proc) k.ram t) :
    KernelInv im own holds { k with ram := t } :=
  ⟨h.spaces.congr hstored.owned (fun _ => ⟨rfl, rfl, rfl⟩)
    (fun r hr va _ => hstored.leaf_eq r va hr) fun _ _ => ⟨rfl, rfl⟩,
    h.ledger.congr rfl fun _ _ => rfl,
    h.procs.congr (fun _ => ⟨rfl, rfl, Iff.rfl, rfl⟩) rfl fun j e => h.procs.listed_lt j e⟩

end KernelInv

/-- What freeing a process does to the tables. -/
structure Reaped (k : KernelState) (p : ProcId) (k' : KernelState) : Prop where
  other : ∀ q, q ≠ p → k'.proc q = k.proc q
  unused : (k'.proc p).state = .unused
  pagetable : (k'.proc p).pagetable = 0
  sz : (k'.proc p).sz = 0
  pid : (k'.proc p).pid = 0
  flag : (k'.proc p).validRingBuf = (k.proc p).validRingBuf
  ringbufs : k'.ringbufs = k.ringbufs
  nextpid : k'.nextpid = k.nextpid

theorem Procs.reaped {k k' : KernelState} {p : ProcId} (h : Procs k) (hr : Reaped k p k') :
    Procs k' := by
  have hne : ∀ q, (k'.proc q).pagetable ≠ 0 → q ≠ p := by
    rintro q hq rfl
    exact hq hr.pagetable
  refine ⟨fun q => ?_, fun q hq => ?_, fun q hq => ?_, fun a b ha hb heq => ?_, fun q => ?_,
    fun j e => ?_⟩
  · by_cases hqp : q = p
    · rw [hqp, hr.pagetable, hr.unused]
      simp
    · rw [hr.other q hqp]
      exact h.unused q
  · by_cases hqp : q = p
    · rw [hqp, hr.sz]
    · rw [hr.other q hqp] at hq ⊢
      exact h.unused_sz q hq
  · have hqp := hne q hq
    rw [hr.other q hqp] at hq ⊢
    exact h.pid_pos q hq
  · have hap := hne a ha
    have hbp := hne b hb
    rw [hr.other a hap] at ha heq
    rw [hr.other b hbp] at hb heq
    exact h.pid_inj a b ha hb heq
  · rw [hr.nextpid]
    by_cases hqp : q = p
    · rw [hqp, hr.pid]
      exact h.pos
    · rw [hr.other q hqp]
      exact h.pid_lt q
  · rw [hr.ringbufs, hr.nextpid]
    exact h.listed_lt j e

/-! ## Windows in the way -/

theorem windowEntry_cases (holds : List Holding) (ringbufs : Slot → Ringbuf) (p : ProcId)
    (w : Fin 10) (i : Nat) :
    windowEntry holds ringbufs p w i = 0 ∨ IsLeafEntry (windowEntry holds ringbufs p w i) := by
  unfold windowEntry
  split
  next =>
    split
    next =>
      refine .inr ⟨mkPte_valid ringPerm_lt, ?_⟩
      rw [mkPte_and ringPerm_lt (by decide)]
      decide
    next => exact .inl rfl
  next => exact .inl rfl

/-- The windows of a process are empty if it holds nothing. -/
theorem windowEntry_eq_zero_iff {holds : List Holding} {ringbufs : Slot → Ringbuf} {p : ProcId}
    (hapart : WindowsApart holds) :
    (∀ w i, i < 34 → windowEntry holds ringbufs p w i = 0) ↔ HoldsNothing holds p := by
  refine ⟨fun hzero a ha hap => ?_, fun hnone w i _ => ?_⟩
  · have hentry := hzero a.window 0 (by decide)
    subst hap
    rw [windowEntry, heldAt_eq_some hapart ha] at hentry
    replace hentry : mkPte ((ringbufs a.slot).pageAt 0) ringPerm = 0 := hentry
    have hvalid : mkPte ((ringbufs a.slot).pageAt 0) ringPerm &&& pteV ≠ 0 :=
      mkPte_valid ringPerm_lt
    rw [hentry] at hvalid
    exact hvalid rfl
  · have hat : heldAt holds p w = none := List.find?_eq_none.mpr fun a ha => by simp [hnone a ha]
    rw [windowEntry, hat]

theorem Owned.kfreeTrapframe {im : Image} {roots : Nat → Prop} {own : Nat → Role} {s : Ram}
    {p : ProcId} {r n trapframe : Nat} {shown : Fin 10 → Nat → Nat} (h : Owned im own roots s)
    (hr : roots r) (hspace : Space im own s.mem r n trapframe shown)
    (hrole : own trapframe = .trapframe p) :
    ∃ t, Kernel.kfree im trapframe s = .ok ((), t) ∧ Owned im (update own trapframe .free) roots t ∧
      Space im (update own trapframe .free) t.mem r n trapframe shown ∧
      ∀ r' va, roots r' → leaf t.mem r' va = leaf s.mem r' va := by
  have hpage : IsPage im trapframe := h.page _ (by simp [hrole])
  have hnode : ∀ r', roots r' → ∀ path, own trapframe ≠ .node r' path := by simp [hrole]
  obtain ⟨t, hrun, howned, -, hout⟩ := h.kfree hpage (by simp [hrole]) hnode
  have hagree := h.write_page hpage hnode hout
  refine ⟨t, hrun, howned, hspace.congr (fun va _ => h.leaf_congr hr (hagree r hr))
    (fun pa va => ?_) (fun _ _ _ => rfl), fun r' va hr' => h.leaf_congr hr' (hagree r' hr')⟩
  by_cases hpa : pa = trapframe
  · simp [hpa, hrole]
  · rw [update_of_ne hpa]

namespace KernelInv

variable {im : Image} {own : Nat → Role} {holds : List Holding} {k k' : KernelState}
  {p : ProcId}

/-- The page table of a process among those of the others. -/
theorem owned_other (h : KernelInv im own holds k) (hp : (k.proc p).pagetable ≠ 0) :
    Owned im own (withRoot (OtherRoot k.proc p) (k.proc p).pagetable) k.ram :=
  h.spaces.owned.mono fun _ hr => hr.elim Spaces.isRoot_of_other fun heq => heq ▸ Spaces.isRoot hp

/-- A process is freed if it holds nothing, and otherwise `freewalk` panics. -/
theorem freeproc (h : KernelInv im own holds k) (hp : (k.proc p).pagetable ≠ 0) :
    (∃ k' own', Kernel.freeproc im p k = .ok ((), k') ∧ KernelInv im own' holds k' ∧
      Reaped k p k' ∧ HoldsNothing holds p ∧ SameGlobal own own') ∨
    (Kernel.freeproc im p k = .error Owned.leafLeft ∧ ¬HoldsNothing holds p) := by
  have hrole := h.spaces.trapframe p hp
  have hpage : IsPage im (k.proc p).trapframe := h.spaces.owned.page _ (by simp [hrole])
  obtain ⟨s1, hrun1, howned1, hspace1, hleaf1⟩ :=
    (h.owned_other hp).kfreeTrapframe (.inr rfl) (h.spaces.space p hp) hrole
  rw [Kernel.freeproc, bind_of_ok (get_apply k)]
  simp only [if_pos hpage.pos.ne', if_pos hp]
  rw [bind_of_ok (onRam_of_ok hrun1)]
  rcases howned1.procFreepagetable (h.spaces.not_otherRoot hp) hspace1
      fun w i _ => windowEntry_cases .. with ⟨t, own', hrun, hframed, hown, -, hzero⟩ | ⟨hfault, hnot⟩
  · have hnone := (windowEntry_eq_zero_iff h.spaces.held_window).mp hzero
    have houtside1 : Outside im k.proc p own (update own (k.proc p).trapframe .free)
        k.ram s1 := by
      refine ⟨howned1.mono fun _ => .inl, fun q _ hne => update_of_ne ?_ _ _,
        fun q hq _ => update_of_ne ?_ _ _, fun r va hr _ => hleaf1 r va (.inl hr)⟩
      · rintro rfl
        exact hne hrole
      · rintro rfl
        rw [update_self] at hq
        exact hq
    have houtside := houtside1.trans hframed.outside
    have hrooted1 : Rooted (update own (k.proc p).trapframe .free)
        (withRoot (OtherRoot k.proc p) (k.proc p).pagetable) := by
      intro q hq
      by_cases hqt : q = (k.proc p).trapframe
      · rw [hqt, update_self] at hq
        exact (hq rfl).elim
      · rw [update_of_ne hqt] at hq ⊢
        exact (h.spaces.rooted q hq).mono fun _ => Spaces.otherRoot_or
    have hreaped : Reaped k p (({ k with ram := t } : KernelState).setProc p fun q =>
        { q with
          trapframe := 0, pagetable := 0, sz := 0, pid := 0, parent := none
          killed := false, xstate := 0, state := .unused }) := by
      refine ⟨fun q hq => KernelState.setProc_ne _ _ _ hq, ?_, ?_, ?_, ?_, ?_, rfl, rfl⟩ <;>
        rw [KernelState.setProc_same]
    refine .inl ⟨_, own', ?_, ⟨?_, ?_, h.procs.reaped hreaped⟩, hreaped, hnone, houtside.sameGlobal⟩
    · rw [bind_of_ok (onRam_of_ok hrun), modify_apply]
    · refine h.spaces.replace hnone (fun q hq => ?_) rfl houtside (fun hne => ?_)
        fun _ => ⟨hrooted1.freed hown, fun pa hpa => ?_⟩
      · rw [hreaped.other q hq]
        exact ⟨rfl, rfl, rfl⟩
      · exact (hne hreaped.pagetable).elim
      · -- The only page with this role was the trap frame.
        have hsame := ((hown pa).resolve_left (by simp [hpa])).1
        by_cases hpt : pa = (k.proc p).trapframe
        · rw [hpa, hpt, update_self] at hsame
          cases hsame
        · rw [hpa, update_of_ne hpt] at hsame
          obtain ⟨q, hqp, -, htrapframe⟩ := h.spaces.trapframe_only pa p hsame.symm
          exact hpt (by rw [← htrapframe, Fin.ext hqp])
    · refine h.ledger.congr rfl fun a ha => ?_
      rw [hreaped.other _ (hnone a ha)]
  · refine .inr ⟨bind_of_error (onRam_of_error hfault), fun hnone => hnot ?_⟩
    exact (windowEntry_eq_zero_iff h.spaces.held_window).mpr hnone

theorem zombieChild_state {np : ProcId} (hfind : zombieChild k p = some np) :
    (k.proc np).state = .zombie := by
  have hprop := List.find?_some hfind
  simp only [decide_eq_true_eq] at hprop
  exact hprop.2

/-- `wait` frees a child that has ended, or `freewalk` panics because the child still
holds a ring. -/
theorem wait (h : KernelInv im own holds k) (hp : (k.proc p).pagetable ≠ 0) (addr : Nat) :
    (∃ res k' own', Kernel.wait im p addr k = .ok (res, k') ∧ KernelInv im own' holds k' ∧
      SameGlobal own own' ∧ ((k'.proc = k.proc ∧ k'.ringbufs = k.ringbufs ∧ k'.nextpid = k.nextpid ∧
          (addr = 0 → zombieChild k p = none)) ∨
        ∃ np, zombieChild k p = some np ∧ Reaped k np k' ∧ HoldsNothing holds np)) ∨
    (Kernel.wait im p addr k = .error Owned.leafLeft ∧
      ∃ np, zombieChild k p = some np ∧ ¬HoldsNothing holds np) := by
  rw [Kernel.wait, bind_of_ok (get_apply k)]
  cases hfind : zombieChild k p with
  | none =>
    refine .inl ?_
    simp only
    split
    next => exact ⟨_, k, own, rfl, h, .refl own, .inl ⟨rfl, rfl, rfl, fun _ => trivial⟩⟩
    next => exact ⟨_, k, own, rfl, h, .refl own, .inl ⟨rfl, rfl, rfl, fun _ => trivial⟩⟩
  | some np =>
    have hnp : (k.proc np).pagetable ≠ 0 := by
      intro h0
      have := (h.procs.unused np).mp h0
      rw [zombieChild_state hfind] at this
      cases this
    -- The exit status is copied out first, unless the caller does not want it.
    have hcopy : ∃ res t, copyStatus p addr (k.proc np).xstate k =
        .ok (res, { k with ram := t }) ∧ Stored im own (IsRoot k.proc) k.ram t ∧
          (addr = 0 → res = 0) := by
      unfold copyStatus
      split
      next haddr =>
        obtain ⟨res, t, hrun, hstored, -⟩ := h.spaces.owned.copyout (Spaces.isRoot hp)
          (fun va hva => h.spaces.isData hp hva) addr 0 (intBytes (k.proc np).xstate)
        exact ⟨res, t, onRam_of_ok hrun, hstored, fun hzero => (haddr hzero).elim⟩
      next => exact ⟨0, k.ram, rfl, .refl h.spaces.owned, fun _ => rfl⟩
    obtain ⟨res, t, hrun, hstored, hzero⟩ := hcopy
    have hinv1 := h.stored hstored
    simp only
    rw [bind_of_ok hrun]
    split
    next hres =>
      exact .inl ⟨_, _, own, rfl, hinv1, .refl own, .inl ⟨rfl, rfl, rfl, fun haddr => by
        simp [hzero haddr] at hres⟩⟩
    next =>
      rcases hinv1.freeproc hnp with
        ⟨k', own', hfree, hinv', hreaped, hnone, hglobal⟩ | ⟨hfault, hheld⟩
      · refine .inl ⟨_, k', own', bind_of_ok hfree, hinv', hglobal, .inr ⟨np, rfl, ?_, hnone⟩⟩
        exact ⟨hreaped.other, hreaped.unused, hreaped.pagetable, hreaped.sz, hreaped.pid,
          hreaped.flag, hreaped.ringbufs, hreaped.nextpid⟩
      · exact .inr ⟨bind_of_error hfault, np, rfl, hheld⟩

theorem framed (h : KernelInv im own holds k) {own' : Nat → Role} {t : Ram}
    (hframed : Framed im (IsRoot k.proc) own own' k.ram t)
    (hrooted : Rooted own' (IsRoot k.proc)) : KernelInv im own' holds { k with ram := t } := by
  have hspaces := h.spaces
  refine ⟨⟨hframed.owned, hspaces.root_inj,
    fun q hq => (hspaces.space q hq).framed (Spaces.isRoot hq) hframed, fun q hq => ?_, hrooted,
    fun pa i hpa => ?_, hspaces.held_root, hspaces.held_window, fun a ha => ?_⟩,
    h.ledger.congr rfl fun _ _ => rfl,
    h.procs.congr (fun _ => ⟨rfl, rfl, Iff.rfl, rfl⟩) rfl fun j e => h.procs.listed_lt j e⟩
  · have hrole := hspaces.trapframe q hq
    exact (hframed.kept _ (by rw [hrole]; trivial)).trans hrole
  · have hsame := hframed.eq_of_lives (by rw [hpa]; trivial)
    exact hspaces.trapframe_only pa i (hsame ▸ hpa)
  · refine (hspaces.held_pages a ha).congr ⟨rfl, rfl⟩ fun q hrole => hframed.kept q ?_
    rcases hrole with ⟨i, hi⟩ | hi
    · rw [hi]
      trivial
    · rw [hi]
      trivial

end KernelInv

end Kernel
end FastIpc
