import FastIpc.Kernel.Images
import FastIpc.Kernel.RingCalls

/-!
# The first process and its descendants

A new process gets an address space of its own and holds no end of a ring; a process may
grow and shrink while it holds rings.

Main results:

- Theorem `KernelInv.userinit`: the invariant holds when the first process is ready.
- Theorem `KernelInv.fork`: so it does with a child, if `fork` does not panic.
- Theorem `KernelInv.growproc`: and after a change of the size of a process.
-/

namespace FastIpc
namespace Kernel

open Foundation FaultM
open Function (update update_of_ne update_self)

/-! ## Changing one process -/

/-- The page tables of the other processes. -/
def OtherRoot (proc : ProcId → Proc) (p : ProcId) (r : Nat) : Prop :=
  r ≠ 0 ∧ ∃ q, q ≠ p ∧ (proc q).pagetable = r

/-- A process holds no end of a ring. -/
def HoldsNothing (holds : List Holding) (p : ProcId) : Prop := ∀ a ∈ holds, a.proc ≠ p

instance (holds : List Holding) (p : ProcId) : Decidable (HoldsNothing holds p) :=
  inferInstanceAs (Decidable (∀ a ∈ holds, a.proc ≠ p))

/-- The address space of a process without rings, apart from given page tables. -/
structure Apart (im : Image) (roots : Nat → Prop) (own : Nat → Role) (s : Ram) (p : ProcId)
    (r n trapframe : Nat) : Prop where
  not_root : ¬roots r
  owned : Owned im own (withRoot roots r) s
  rooted : Rooted own (withRoot roots r)
  space : Space im own s.mem r n trapframe fun _ _ => 0
  own_trapframe : own trapframe = .trapframe p
  trapframe_only : ∀ pa, own pa = .trapframe p → pa = trapframe

/-- A change that the other processes do not notice. -/
structure Outside (im : Image) (proc : ProcId → Proc) (p : ProcId) (own own' : Nat → Role)
    (s t : Ram) : Prop where
  owned : Owned im own' (OtherRoot proc p) t
  kept : ∀ q, (own q).Lives (OtherRoot proc p) → own q ≠ .trapframe p → own' q = own q
  fresh : ∀ q, (own' q).Lives (OtherRoot proc p) → own' q ≠ .trapframe p → own' q = own q
  leaf_eq : ∀ r va, OtherRoot proc p r → va < treeVA → leaf t.mem r va = leaf s.mem r va

variable {im : Image} {k : KernelState} {own : Nat → Role} {p : ProcId} {s : Ram}

theorem Framed.outside {proc : ProcId → Proc} {own' : Nat → Role} {t : Ram}
    (h : Framed im (OtherRoot proc p) own own' s t) : Outside im proc p own own' s t :=
  ⟨h.owned, fun q hq _ => h.kept q hq, fun _ hq _ => h.eq_of_lives hq, h.leaf_eq⟩

namespace Outside

variable {im : Image} {proc : ProcId → Proc} {p : ProcId} {own own1 own2 : Nat → Role}
  {s t u : Ram}

theorem trans (h : Outside im proc p own own1 s t) (h' : Outside im proc p own1 own2 t u) :
    Outside im proc p own own2 s u where
  owned := h'.owned
  kept q hq hne := by
    have hsame := h.kept q hq hne
    rw [h'.kept q (by rwa [hsame]) (by rwa [hsame]), hsame]
  fresh q hq hne := by
    have hsame := h'.fresh q hq hne
    rw [hsame, h.fresh q (by rwa [← hsame]) (by rwa [← hsame])]
  leaf_eq r va hr hva := (h'.leaf_eq r va hr hva).trans (h.leaf_eq r va hr hva)

theorem sameGlobal (h : Outside im proc p own own1 s t) : SameGlobal own own1 := by
  intro q hq
  rcases hq with hq | hq
  · refine h.kept q (hq.lives _) fun hrole => ?_
    rw [hrole] at hq
    exact hq
  · refine h.fresh q (hq.lives _) fun hrole => ?_
    rw [hrole] at hq
    exact hq

end Outside

namespace Spaces

variable {im : Image} {own own' : Nat → Role} {holds : List Holding} {k k' : KernelState}
  {p : ProcId}

theorem isRoot_of_other {r : Nat} (hr : OtherRoot k.proc p r) : IsRoot k.proc r :=
  ⟨hr.1, hr.2.imp fun _ hq => hq.2⟩

theorem otherRoot_or {r : Nat} (hr : IsRoot k.proc r) :
    withRoot (OtherRoot k.proc p) (k.proc p).pagetable r := by
  obtain ⟨hr0, q, rfl⟩ := hr
  by_cases hqp : q = p
  · exact .inr (by rw [hqp])
  · exact .inl ⟨hr0, q, hqp, rfl⟩

theorem not_otherRoot (h : Spaces im own holds k) (hp : (k.proc p).pagetable ≠ 0) :
    ¬OtherRoot k.proc p (k.proc p).pagetable := fun ⟨_, _, hqp, heq⟩ =>
  hqp (h.root_inj p _ hp heq.symm).symm

/-- A process without rings is apart from the others. -/
theorem apart (h : Spaces im own holds k) (hp : (k.proc p).pagetable ≠ 0)
    (hnone : HoldsNothing holds p) : Apart im (OtherRoot k.proc p) own k.ram p
      (k.proc p).pagetable (userPages (k.proc p).sz) (k.proc p).trapframe where
  not_root := h.not_otherRoot hp
  owned := h.owned.mono fun r hr => hr.elim isRoot_of_other fun heq => heq ▸ isRoot hp
  rooted := h.rooted.mono fun _ => otherRoot_or
  space := (h.space p hp).congr (fun _ _ => rfl) (fun _ _ => Iff.rfl) fun w i _ => by
    have hat : heldAt holds p w = none := List.find?_eq_none.mpr fun a ha => by simp [hnone a ha]
    rw [windowEntry, hat]
  own_trapframe := h.trapframe p hp
  trapframe_only pa hpa := by
    obtain ⟨q, hqp, -, htrapframe⟩ := h.trapframe_only pa p hpa
    rw [← htrapframe, Fin.ext hqp]

/-- One process without rings gets another address space, or none. -/
theorem replace (h : Spaces im own holds k) (hnone : HoldsNothing holds p)
    (hproc : ∀ q, q ≠ p → (k'.proc q).pagetable = (k.proc q).pagetable ∧
      (k'.proc q).sz = (k.proc q).sz ∧ (k'.proc q).trapframe = (k.proc q).trapframe)
    (hrings : k'.ringbufs = k.ringbufs) (houtside : Outside im k.proc p own own' k.ram k'.ram)
    (hnew : (k'.proc p).pagetable ≠ 0 → Apart im (OtherRoot k.proc p) own' k'.ram p
      (k'.proc p).pagetable (userPages (k'.proc p).sz) (k'.proc p).trapframe)
    (hgone : (k'.proc p).pagetable = 0 → Rooted own' (OtherRoot k.proc p) ∧
      ∀ pa, own' pa ≠ .trapframe p) : Spaces im own' holds k' := by
  have hother : ∀ q, q ≠ p → (k'.proc q).pagetable ≠ 0 →
      OtherRoot k.proc p (k.proc q).pagetable := by
    intro q hqp hq
    rw [(hproc q hqp).1] at hq
    exact ⟨hq, q, hqp, rfl⟩
  have hroot' : ∀ r, OtherRoot k.proc p r → IsRoot k'.proc r := by
    rintro r ⟨hr0, q, hqp, hq⟩
    exact ⟨hr0, q, by rw [(hproc q hqp).1, hq]⟩
  refine ⟨?_, ?_, ?_, ?_, ?_, ?_, ?_, h.held_window, ?_⟩
  · by_cases hp : (k'.proc p).pagetable = 0
    · refine houtside.owned.mono fun r hr => ?_
      obtain ⟨hr0, q, rfl⟩ := hr
      have hqp : q ≠ p := by
        rintro rfl
        exact hr0 hp
      rw [(hproc q hqp).1]
      exact hother q hqp hr0
    · refine (hnew hp).owned.mono fun r hr => ?_
      obtain ⟨hr0, q, rfl⟩ := hr
      by_cases hqp : q = p
      · exact .inr (by rw [hqp])
      · refine .inl ?_
        rw [(hproc q hqp).1]
        exact hother q hqp hr0
  · intro a b ha heq
    by_cases hap : a = p
    · subst hap
      by_contra hab
      refine (hnew ha).not_root ?_
      rw [heq, (hproc b (Ne.symm hab)).1]
      exact hother b (Ne.symm hab) (heq ▸ ha)
    · by_cases hbp : b = p
      · subst hbp
        exfalso
        refine (hnew (heq ▸ ha)).not_root ?_
        rw [← heq, (hproc a hap).1]
        exact hother a hap ha
      · rw [(hproc a hap).1] at ha heq
        rw [(hproc b hbp).1] at heq
        exact h.root_inj a b ha heq
  · intro q hq
    by_cases hqp : q = p
    · subst hqp
      refine (hnew hq).space.congr (fun _ _ => rfl) (fun _ _ => Iff.rfl) fun w i _ => ?_
      have hat : heldAt holds q w = none := List.find?_eq_none.mpr fun a ha => by simp [hnone a ha]
      rw [windowEntry, hat]
    · have hroot := hother q hqp hq
      obtain ⟨hpt, hsz, htf⟩ := hproc q hqp
      rw [hpt] at hq ⊢
      rw [hsz, htf, hrings]
      refine (h.space q hq).congr (fun va hva => houtside.leaf_eq _ va hroot hva)
        (fun pa va => ⟨fun hrole => ?_, fun hrole => ?_⟩) fun _ _ _ => rfl
      · rw [houtside.kept pa (by rw [hrole]; exact hroot) (by simp [hrole]), hrole]
      · rw [← houtside.fresh pa (by rw [hrole]; exact hroot) (by simp [hrole]), hrole]
  · intro q hq
    by_cases hqp : q = p
    · subst hqp
      exact (hnew hq).own_trapframe
    · obtain ⟨hpt, -, htf⟩ := hproc q hqp
      rw [hpt] at hq
      have hrole := h.trapframe q hq
      rw [htf, houtside.kept _ (by rw [hrole]; trivial) ?_, hrole]
      rw [hrole]
      simpa [Fin.ext_iff] using hqp
  · by_cases hp : (k'.proc p).pagetable = 0
    · exact (hgone hp).1.mono hroot'
    · refine (hnew hp).rooted.mono fun r hr => hr.elim (hroot' r) fun heq => ?_
      rw [heq]
      exact isRoot hp
  · intro pa i hpa
    by_cases hi : i = p.val
    · subst hi
      by_cases hp : (k'.proc p).pagetable = 0
      · exact ((hgone hp).2 pa hpa).elim
      · exact ⟨p, rfl, hp, ((hnew hp).trapframe_only pa hpa).symm⟩
    · have hsame := houtside.fresh pa (by rw [hpa]; trivial) (by rw [hpa]; simpa using hi)
      obtain ⟨q, hqi, hq, htrapframe⟩ := h.trapframe_only pa i (hsame ▸ hpa)
      obtain ⟨hpt, -, htf⟩ := hproc q fun hqp => hi (by rw [← hqi, hqp])
      exact ⟨q, hqi, by rwa [hpt], by rwa [htf]⟩
  · intro a ha
    rw [(hproc a.proc (hnone a ha)).1]
    exact h.held_root a ha
  · intro a ha
    rw [hrings]
    refine (h.held_pages a ha).congr ⟨rfl, rfl⟩ fun q hrole => ?_
    rcases hrole with ⟨i, hi⟩ | hi
    · exact houtside.kept q (by rw [hi]; trivial) (by simp [hi])
    · exact houtside.kept q (by rw [hi]; trivial) (by simp [hi])

end Spaces

namespace Ledger

variable {holds : List Holding} {k k' : KernelState}

/-- A change that leaves the ring table and the holders' identifiers alone. -/
theorem congr (h : Ledger holds k) (hrings : k'.ringbufs = k.ringbufs)
    (hpid : ∀ a ∈ holds, (k'.proc a.proc).pid = (k.proc a.proc).pid) : Ledger holds k' where
  __ := h
  held_pid a ha := by rw [hrings, hpid a ha, h.held_pid a ha]
  held_name a ha := by rw [hrings, h.held_name a ha]
  refcount a ha := by rw [hrings, h.refcount a ha]
  nonneg j := by rw [hrings]; exact h.nonneg j
  named j hj := h.named j (by rwa [hrings] at hj)

end Ledger

/-! ## Allocating a process -/

/-- The entry of a newly allocated process. -/
def Proc.allocated (q : Proc) (pid trapframe pagetable : Nat) : Proc :=
  { q with pid := pid, state := .used, trapframe := trapframe, pagetable := pagetable }

/-- What `allocproc` does when it finds an unused process and memory for it. -/
structure Allocated (k : KernelState) (p : ProcId) (k' : KernelState) : Prop where
  first : (List.finRange nproc).find? (fun q => (k.proc q).state = .unused) = some p
  unused : (k.proc p).pagetable = 0
  other : ∀ q, q ≠ p → k'.proc q = k.proc q
  entry : ∃ trapframe pagetable, pagetable ≠ 0 ∧
    k'.proc p = (k.proc p).allocated k.nextpid trapframe pagetable
  ringbufs : k'.ringbufs = k.ringbufs
  nextpid : k'.nextpid = k.nextpid + 1
  initproc : k'.initproc = k.initproc

theorem Procs.allocated {k' : KernelState} (h : Procs k) (ha : Allocated k p k') : Procs k' := by
  obtain ⟨trapframe, r, hr, hentry⟩ := ha.entry
  have hpid : (k'.proc p).pid = k.nextpid := by rw [hentry]; rfl
  have hr' : (k'.proc p).pagetable ≠ 0 := by rw [hentry]; exact hr
  have hstate : (k'.proc p).state ≠ .unused := by rw [hentry]; simp [Proc.allocated]
  refine ⟨fun q => ?_, fun q => ?_, fun q => ?_, fun a b => ?_, fun q => ?_, fun j e => ?_⟩
  · by_cases hq : q = p
    · rw [hq]
      exact ⟨fun h0 => (hr' h0).elim, fun h0 => (hstate h0).elim⟩
    · rw [ha.other q hq]
      exact h.unused q
  · by_cases hq : q = p
    · rw [hq]
      exact fun h0 => (hr' h0).elim
    · rw [ha.other q hq]
      exact h.unused_sz q
  · by_cases hq : q = p
    · rw [hq, hpid]
      exact fun _ => h.pos.ne'
    · rw [ha.other q hq]
      exact h.pid_pos q
  · intro hap hbp heq
    by_cases hpa : a = p
    · by_cases hpb : b = p
      · rw [hpa, hpb]
      · rw [hpa, hpid, ha.other b hpb] at heq
        exact absurd (h.pid_lt b) (by omega)
    · by_cases hpb : b = p
      · rw [hpb, hpid, ha.other a hpa] at heq
        exact absurd (h.pid_lt a) (by omega)
      · rw [ha.other a hpa] at hap heq
        rw [ha.other b hpb] at hbp heq
        exact h.pid_inj a b hap hbp heq
  · rw [ha.nextpid]
    by_cases hq : q = p
    · rw [hq, hpid]
      exact Nat.lt_succ_self _
    · rw [ha.other q hq]
      exact Nat.lt_succ_of_lt (h.pid_lt q)
  · rw [ha.nextpid, ha.ringbufs]
    exact Nat.lt_succ_of_lt (h.listed_lt j e)

namespace KernelInv

variable {im : Image} {own : Nat → Role} {holds : List Holding} {k k' : KernelState} {p : ProcId}

theorem holdsNothing (h : KernelInv im own holds k) (hp : (k.proc p).pagetable = 0) :
    HoldsNothing holds p := by
  rintro a ha rfl
  exact h.spaces.held_root a ha hp

theorem exists_freeproc (im : Image) (hp : (k.proc p).pagetable = 0)
    (htrapframe : (k.proc p).trapframe = 0 ∨ IsPage im (k.proc p).trapframe) :
    ∃ k', Kernel.freeproc im p k = .ok ((), k') := by
  rw [Kernel.freeproc, bind_of_ok (get_apply k)]
  simp only
  rcases htrapframe with hzero | hpage
  · simp only [hzero, hp, ne_eq, not_true_eq_false, if_false]
    exact ⟨_, rfl⟩
  · rw [if_pos hpage.pos.ne', bind_of_ok (onRam_of_ok (if_neg hpage.not_rejected)),
      if_neg (not_not.mpr hp)]
    exact ⟨_, rfl⟩

/-- `allocproc` returns.  It finds nothing if all processes are used, or if not even the
four pages that a process starts with can be allocated; otherwise it fills in the first entry that
is not used. -/
theorem exists_allocproc (h : KernelInv im own holds k) :
    ∃ found k', Kernel.allocproc im k = .ok (found, k') ∧
      (found = none → (∀ q, (k.proc q).state ≠ .unused) ∨ ¬k.ram.Supplies 4) ∧
      ∀ p, found = some p →
        (List.finRange nproc).find? (fun q => (k.proc q).state = .unused) = some p ∧
        ∃ trapframe pagetable s t, kalloc k.ram = .ok (trapframe, s) ∧ trapframe ≠ 0 ∧
          procPagetable im trapframe s = .ok (pagetable, t) ∧ pagetable ≠ 0 ∧
          k' = { k with
            ram := t
            nextpid := k.nextpid + 1
            proc := update k.proc p ((k.proc p).allocated k.nextpid trapframe pagetable) } := by
  rw [Kernel.allocproc, bind_of_ok (get_apply k)]
  cases hfind : (List.finRange nproc).find? fun q => (k.proc q).state = .unused with
  | none => exact ⟨none, k, rfl, fun _ => .inl (by simpa using hfind), nofun⟩
  | some q =>
    have hq : (k.proc q).pagetable = 0 :=
      (h.procs.unused q).mpr (by simpa using List.find?_some hfind)
    have hpid : allocpid k = .ok (k.nextpid, { k with nextpid := k.nextpid + 1 }) := rfl
    obtain ⟨trapframe, s, hkalloc⟩ := exists_kalloc k.ram
    have hkalloc' : onRam kalloc { k with nextpid := k.nextpid + 1 } =
        .ok (trapframe, { k with nextpid := k.nextpid + 1, ram := s }) := onRam_of_ok hkalloc
    simp only
    rw [bind_of_ok hpid, bind_of_ok hkalloc', bind_of_ok (modify_apply _ _)]
    rcases h.spaces.owned.kalloc hkalloc with ⟨rfl, -⟩ | ⟨-, -, howned⟩
    · rw [if_pos rfl]
      obtain ⟨k', hfree⟩ := exists_freeproc im (p := q) (k := KernelState.setProc
        { k with nextpid := k.nextpid + 1, ram := s } q fun q =>
          { q with pid := k.nextpid, state := .used, trapframe := 0 }) (by simpa) (by simp)
      exact ⟨none, k', bind_of_ok hfree, fun _ => .inr fun hs =>
        (h.spaces.owned.supplies_kalloc (hs : k.ram.Supplies (3 + 1)) hkalloc).1 rfl, nofun⟩
    · have howned := howned (.trapframe q) (by simp) (by simp)
      have hpage := howned.page trapframe (by simp)
      obtain ⟨r, t, own', htable, -, hcases, -⟩ :=
        howned.procPagetable (h.spaces.rooted.setTrapframe trapframe q) hpage.lt_pow
      have htable' : onRam (procPagetable im trapframe) (KernelState.setProc
          { k with nextpid := k.nextpid + 1, ram := s } q fun q =>
            { q with pid := k.nextpid, state := .used, trapframe := trapframe }) =
          .ok (r, KernelState.setProc { k with nextpid := k.nextpid + 1, ram := t } q fun q =>
            { q with pid := k.nextpid, state := .used, trapframe := trapframe }) :=
        onRam_of_ok htable
      rw [if_neg hpage.pos.ne', bind_of_ok htable', bind_of_ok (modify_apply _ _)]
      split
      next hr =>
        obtain ⟨k', hfree⟩ := exists_freeproc im (p := q) (k := KernelState.setProc
          (KernelState.setProc { k with nextpid := k.nextpid + 1, ram := t } q fun q =>
            { q with pid := k.nextpid, state := .used, trapframe := trapframe }) q fun q =>
            { q with pagetable := r }) (by simpa) (by simpa using .inr hpage)
        obtain ⟨-, -, hshort⟩ := hcases.resolve_right fun hne => hne.1 hr
        exact ⟨none, k', bind_of_ok hfree, fun _ => .inr fun hs =>
          hshort (h.spaces.owned.supplies_kalloc (hs : k.ram.Supplies (3 + 1)) hkalloc).2, nofun⟩
      next hr =>
        refine ⟨some q, _, rfl, nofun, ?_⟩
        rintro _ ⟨⟩
        refine ⟨rfl, trapframe, r, s, t, hkalloc, hpage.pos.ne', htable, hr, ?_⟩
        simp [KernelState.setProc, Proc.allocated]

theorem allocproc (h : KernelInv im own holds k) (hrun : Kernel.allocproc im k = .ok (some p, k')) :
    ∃ own', KernelInv im own' holds k' ∧ Allocated k p k' ∧ SameGlobal own own' ∧
      Exactly 4 True k.ram k'.ram ∧ Trunk k'.ram.mem (k'.proc p).pagetable 0 := by
  obtain ⟨_, _, hrun', -, hsome⟩ := h.exists_allocproc
  rw [hrun] at hrun'
  cases hrun'
  obtain ⟨hfirst, trapframe, r, s, t, hkalloc, htf, htable, hr, hk'⟩ := hsome p rfl
  have hp : (k.proc p).pagetable = 0 :=
    (h.procs.unused p).mpr (by simpa using List.find?_some hfirst)
  have hentry : k'.proc p = (k.proc p).allocated k.nextpid trapframe r := by
    rw [hk']
    exact update_self ..
  have hram : k'.ram = t := by rw [hk']
  have ha : Allocated k p k' := by
    refine ⟨hfirst, hp, fun q hq => ?_, ⟨trapframe, r, hr, hentry⟩, by rw [hk'], by rw [hk'],
      by rw [hk']⟩
    rw [hk']
    exact update_of_ne hq _ _
  have howned : Owned im own (OtherRoot k.proc p) k.ram :=
    h.spaces.owned.mono fun r => Spaces.isRoot_of_other
  rcases howned.kalloc hkalloc with ⟨hzero, -⟩ | ⟨hfree, hmem, howned1⟩
  · exact (htf hzero).elim
  have howned1 := howned1 (.trapframe p) (by simp) (by simp)
  have houtside1 : Outside im k.proc p own (update own trapframe (.trapframe p))
      k.ram s := by
    refine ⟨howned1, fun q hq _ => update_of_ne ?_ _ _,
      fun q _ hne => update_of_ne ?_ _ _, fun r va hr _ => ?_⟩
    · rintro rfl
      rw [hfree] at hq
      exact hq
    · rintro rfl
      exact hne (update_self ..)
    · exact howned.leaf_congr hr (howned.kalloc_agree hfree hmem r hr)
  have hrooted1 : Rooted (update own trapframe (.trapframe p)) (OtherRoot k.proc p) :=
    Rooted.setTrapframe (h.spaces.rooted.mono fun r hr =>
      (Spaces.otherRoot_or hr).resolve_right fun heq => hr.1 (heq.trans hp)) trapframe p
  obtain ⟨r', t', own', htable', hframed2, hcases, -⟩ :=
    howned1.procPagetable hrooted1 (howned1.page trapframe (by simp)).lt_pow
  rw [htable] at htable'
  cases htable'
  rcases hcases with ⟨hzero, -⟩ | ⟨-, hnot, howned2, hrooted2, hspace, hexactly, htrunk⟩
  · exact (hr hzero).elim
  have houtside := houtside1.trans hframed2.outside
  have hpages : userPages (k.proc p).sz = 0 := by
    rw [h.procs.unused_sz p hp]
    rfl
  refine ⟨own', ⟨?_, ?_, h.procs.allocated ha⟩, ha, houtside.sameGlobal, ?_, ?_⟩
  · refine h.spaces.replace (h.holdsNothing hp) (fun q hq => ?_) ha.ringbufs ?_ (fun _ => ?_)
      fun hzero => ?_
    · rw [ha.other q hq]
      exact ⟨rfl, rfl, rfl⟩
    · rw [hram]
      exact houtside
    · rw [hram, hentry]
      refine ⟨hnot, howned2, hrooted2, ?_, ?_,
        fun pa hpa => by_contra fun (hne : pa ≠ trapframe) => ?_⟩
      · show Space im own' t.mem r (userPages (k.proc p).sz) trapframe fun _ _ => 0
        rw [hpages]
        exact hspace
      · exact (hframed2.kept trapframe (by simp [Role.Lives])).trans (update_self ..)
      · have hsame := hframed2.eq_of_lives (by rw [hpa]; trivial)
        rw [hpa, update_of_ne hne] at hsame
        obtain ⟨q, hqp, hq, -⟩ := h.spaces.trapframe_only pa p hsame.symm
        exact hq (by rw [Fin.ext hqp, hp])
    · rw [hentry] at hzero
      exact (hr hzero).elim
  · refine h.ledger.congr ha.ringbufs fun a ha' => ?_
    rw [ha.other _ (h.holdsNothing hp a ha')]
  · rw [hram]
    exact (howned.kalloc_exactly hkalloc).next htf hexactly
  · rw [hram, hentry]
    exact htrunk

end KernelInv

/-! ## Filling an address space -/

theorem Owned.storeTrapframe {roots : Nat → Prop} {trapframe p : Nat} (h : Owned im own roots s)
    (hrole : own trapframe = .trapframe p) {off : Nat} (hoff : off + 8 ≤ pgSize) (w : Nat) :
    Stored im own roots s { s with mem := s.mem.writeLE (trapframe + off) 8 w } := by
  have hpage : IsPage im trapframe := h.page _ (by simp [hrole])
  refine .of_write h hpage (by simp [hrole]) (by simp [hrole]) (fun x hx => ?_) rfl rfl
  by_cases hlow : x < trapframe + off
  · exact Memory.writeLE_of_lt hlow
  · exact Memory.writeLE_of_ge (by omega)

namespace Apart

variable {im : Image} {roots : Nat → Prop} {own own' : Nat → Role} {s t : Ram} {p : ProcId}
  {r n n' trapframe : Nat}

theorem within (h : Apart im roots own s p r n trapframe)
    (hwithin : Within im (withRoot roots r) r own own' s t)
    (hspace : Space im own' t.mem r n' trapframe fun _ _ => 0) :
    Apart im roots own' t p r n' trapframe ∧ Framed im roots own own' s t := by
  refine ⟨⟨h.not_root, hwithin.owned, h.rooted.within (.inr rfl) hwithin, hspace, ?_,
    fun pa hpa => ?_⟩, .of_within hwithin h.not_root⟩
  · have hrole := h.own_trapframe
    rw [hwithin.kept _ (by simp [hrole]) (by simp [hrole]), hrole]
  · refine h.trapframe_only pa ?_
    rw [← (hwithin.fresh pa).resolve_right (by rw [hpa]; exact id), hpa]

theorem stored (h : Apart im roots own s p r n trapframe)
    (hstored : Stored im own (withRoot roots r) s t) :
    Apart im roots own t p r n trapframe ∧ Framed im roots own own s t :=
  ⟨⟨h.not_root, hstored.owned, h.rooted, h.space.stored hstored (.inr rfl), h.own_trapframe,
    h.trapframe_only⟩, .of_stored (hstored.mono fun _ => .inl)⟩

end Apart

namespace KernelInv

variable {im : Image} {own own' : Nat → Role} {holds : List Holding} {k k' : KernelState}
  {p : ProcId}

theorem setImage (h : KernelInv im own holds k) (hnone : HoldsNothing holds p)
    (hp : (k.proc p).pagetable ≠ 0) (houtside : Outside im k.proc p own own' k.ram k'.ram)
    (hnew : Apart im (OtherRoot k.proc p) own' k'.ram p (k'.proc p).pagetable
      (userPages (k'.proc p).sz) (k'.proc p).trapframe)
    (hother : ∀ q, q ≠ p → k'.proc q = k.proc q)
    (hentry : (k'.proc p).pagetable ≠ 0 ∧ (k'.proc p).state ≠ .unused ∧
      (k'.proc p).pid = (k.proc p).pid)
    (hrings : k'.ringbufs = k.ringbufs) (hnext : k'.nextpid = k.nextpid) :
    KernelInv im own' holds k' := by
  refine ⟨h.spaces.replace hnone (fun q hq => ?_) hrings houtside (fun _ => hnew)
    fun hzero => (hentry.1 hzero).elim,
      h.ledger.congr hrings fun a ha => by rw [hother _ (hnone a ha)], ?_⟩
  · rw [hother q hq]
    exact ⟨rfl, rfl, rfl⟩
  · have hpid : ∀ q, (k'.proc q).pid = (k.proc q).pid := by
      intro q
      by_cases hq : q = p
      · rw [hq, hentry.2.2]
      · rw [hother q hq]
    have htable : ∀ q, (k'.proc q).pagetable ≠ 0 ↔ (k.proc q).pagetable ≠ 0 := by
      intro q
      by_cases hq : q = p
      · rw [hq]
        exact ⟨fun _ => hp, fun _ => hentry.1⟩
      · rw [hother q hq]
    refine ⟨fun q => ?_, fun q hq => ?_, fun q hq => ?_, fun a b ha hb heq => ?_, fun q => ?_,
      fun j e => ?_⟩
    · by_cases hq : q = p
      · rw [hq]
        exact ⟨fun h0 => (hentry.1 h0).elim, fun h0 => (hentry.2.1 h0).elim⟩
      · rw [hother q hq]
        exact h.procs.unused q
    · have hqp : q ≠ p := by
        rintro rfl
        exact hentry.1 hq
      rw [hother q hqp] at hq ⊢
      exact h.procs.unused_sz q hq
    · rw [hpid]
      exact h.procs.pid_pos q ((htable q).mp hq)
    · rw [hpid, hpid] at heq
      exact h.procs.pid_inj a b ((htable a).mp ha) ((htable b).mp hb) heq
    · rw [hpid, hnext]
      exact h.procs.pid_lt q
    · rw [hrings, hnext]
      exact h.procs.listed_lt j e

end KernelInv

/-! ## The first process and its descendants -/

/-- What `main` leaves before it makes the first process: pages on the allocator's list,
at least as many as the first process needs, and empty tables. -/
structure Booted (im : Image) (k : KernelState) : Prop where
  free : ∃ l, Threaded k.ram.mem k.ram.freelist l ∧ l.Nodup ∧ (∀ p ∈ l, IsPage im p) ∧ 7 ≤ l.length
  fails : k.ram.fails = []
  ringbufs : ∀ j, k.ringbufs j = .zero
  proc : ∀ p, k.proc p = .zero
  nextpid : k.nextpid = 1

theorem Booted.kernelInv (h : Booted im k) :
    ∃ own, KernelInv im own [] k ∧ (∀ p, own p = .kernel ∨ own p = .free) ∧ k.ram.Supplies 7 := by
  obtain ⟨l, hl, hnodup, hpage, hlen⟩ := h.free
  have hnone : ∀ r, ¬IsRoot k.proc r := fun r ⟨hr, p, hp⟩ => hr (by rw [← hp, h.proc p]; rfl)
  have hcases : ∀ p, (if p ∈ l then Role.free else .kernel) = .kernel ∨
      (if p ∈ l then Role.free else .kernel) = .free := by
    intro p
    split
    next => exact .inr rfl
    next => exact .inl rfl
  refine ⟨fun p => if p ∈ l then .free else .kernel, ⟨⟨⟨⟨l, hl, hnodup, fun p => ?_⟩, fun p hp => ?_,
    fun r hr => (hnone r hr).elim, fun r hr => (hnone r hr).elim, fun r hr => (hnone r hr).elim⟩,
    ?_, ?_, ?_, fun p hp => ?_, fun p i hp => ?_, by simp, ?_, by simp⟩,
    ⟨by simp, by simp, by simp, by simp, by simp, ?_, ?_⟩, ⟨?_, ?_, ?_, ?_, ?_, ?_⟩⟩, hcases, ?_, l,
    hl, hlen⟩
  · by_cases hp : p ∈ l
    · simp [hp]
    · simp [hp]
  · refine hpage p (by_contra fun hout => hp ?_)
    simp [hout]
  · exact fun p _ hp => (hp (by rw [h.proc p]; rfl)).elim
  · exact fun p hp => (hp (by rw [h.proc p]; rfl)).elim
  · exact fun p hp => (hp (by rw [h.proc p]; rfl)).elim
  · rw [(hcases p).resolve_right hp]
    trivial
  · rcases hcases p with hkernel | hfree
    · simp [hkernel] at hp
    · simp [hfree] at hp
  · exact fun a ha => by simp at ha
  · intro j
    rw [h.ringbufs j]
    exact le_rfl
  · intro j hj
    rw [h.ringbufs j] at hj
    exact (hj rfl).elim
  · intro p
    rw [h.proc p]
    simp [Proc.zero]
  · intro p _
    rw [h.proc p]
    rfl
  · exact fun p hp => (hp (by rw [h.proc p]; rfl)).elim
  · exact fun p q hp => (hp (by rw [h.proc p]; rfl)).elim
  · intro p
    rw [h.proc p, h.nextpid]
    exact Nat.one_pos
  · intro j e
    rw [h.ringbufs j, h.nextpid]
    exact Nat.one_pos
  · simp [h.fails]

theorem Space.uvminit {roots : Nat → Prop} {t : Ram} {r trapframe : Nat}
    {shown : Fin 10 → Nat → Nat} {src : List (BitVec 8)}
    (h : Space im own s.mem r 0 trapframe shown) (howned : Owned im own roots s) (hr : roots r)
    (hs : s.Supplies 3) (hrun : Kernel.uvminit r src s = .ok ((), t)) :
    ∃ own', Within im roots r own own' s t ∧ Space im own' t.mem r 1 trapframe shown := by
  unfold Kernel.uvminit at hrun
  split at hrun
  next => cases hrun
  next hlen =>
  obtain ⟨mem, s1, hkalloc, hrun⟩ := bind_eq_ok.mp hrun
  split at hrun
  next => cases hrun
  next hmem =>
  rw [bind_of_ok (a := ()) rfl] at hrun
  obtain ⟨res, s2, hmap, hrun⟩ := bind_eq_ok.mp hrun
  have hperm : IsLeafPerm (pteW ||| pteR ||| pteX ||| pteU) := by
    unfold IsLeafPerm
    decide
  obtain ⟨res', s3, hmap', hcases, hexactly, -⟩ := h.userMap.addPage
    (v := { s1 with mem := s1.mem.fill mem pgSize 0 }) howned hr
    (h.userMap.succ_fits howned le_rfl) hkalloc hmem hperm
    (fun x hx => Memory.fill_of_not_mem hx) rfl rfl
  rw [Nat.zero_mul, hmap] at hmap'
  cases hmap'
  rcases hcases with ⟨own', rfl, hpage, hwithin, hmapped⟩ | ⟨_, _, rfl, -⟩
  · obtain ⟨hstored, hspared⟩ := hwithin.owned.writeUser
      (t := { s2 with mem := s2.mem.blit mem src }) hpage.role
      (fun x hx => Memory.blit_of_not_mem (by omega)) rfl rfl
    cases hrun
    exact ⟨own', hwithin.trans (.of_stored hstored hspared),
      (h.ofUserMap hmapped).stored hstored hr⟩
  · have hmissing := missing_le s.mem r (0 * pgSize)
    exact absurd (hexactly.done_iff.mpr (hs.mono (by omega))) (by decide)

/-- What a call that makes a process does to the tables. -/
structure Spawned (k : KernelState) (p : ProcId) (k' : KernelState) : Prop where
  first : (List.finRange nproc).find? (fun q => (k.proc q).state = .unused) = some p
  unused : (k.proc p).pagetable = 0
  used : (k'.proc p).pagetable ≠ 0
  other : ∀ q, q ≠ p → k'.proc q = k.proc q
  pid : (k'.proc p).pid = k.nextpid
  flag : (k'.proc p).validRingBuf = (k.proc p).validRingBuf
  ringbufs : k'.ringbufs = k.ringbufs
  nextpid : k'.nextpid = k.nextpid + 1

/-- A newly allocated process of which only the image and the state were changed. -/
theorem Allocated.spawned {k1 k' : KernelState} (h : Allocated k p k1)
    (hother : ∀ q, q ≠ p → k'.proc q = k1.proc q)
    (hentry : (k'.proc p).pagetable = (k1.proc p).pagetable ∧ (k'.proc p).pid = (k1.proc p).pid ∧
      (k'.proc p).validRingBuf = (k1.proc p).validRingBuf)
    (hrings : k'.ringbufs = k1.ringbufs) (hnext : k'.nextpid = k1.nextpid) : Spawned k p k' := by
  obtain ⟨trapframe, r, hr, hp⟩ := h.entry
  rw [hp] at hentry
  refine ⟨h.first, h.unused, ?_, fun q hq => ?_, hentry.2.1, hentry.2.2,
    hrings.trans h.ringbufs, hnext.trans h.nextpid⟩
  · rw [hentry.1]
    exact hr
  · rw [hother q hq, h.other q hq]

namespace KernelInv

variable {im : Image} {own : Nat → Role} {holds : List Holding} {k k' : KernelState}
  {p : ProcId}

theorem allocated_ne_zero {k1 : KernelState} (h : Allocated k p k1) :
    (k1.proc p).pagetable ≠ 0 := by
  obtain ⟨trapframe, r, hr, hp⟩ := h.entry
  rw [hp]
  exact hr

/-- The first process. -/
theorem userinit (h : KernelInv im own holds k) (hs : k.ram.Supplies 7)
    (hrun : Kernel.userinit im k = .ok ((), k')) :
    ∃ own' p, KernelInv im own' holds k' ∧ Spawned k p k' ∧ (k'.proc p).state = .runnable ∧
      SameGlobal own own' := by
  obtain ⟨res, k1, halloc, hrun⟩ := bind_eq_ok.mp hrun
  cases res with
  | none => cases hrun
  | some p =>
    obtain ⟨own1, hinv1, ha, hglobal, hexactly, -⟩ := h.allocproc halloc
    have hp1 := allocated_ne_zero ha
    have hnone : HoldsNothing holds p := h.holdsNothing ha.unused
    have hapart1 := hinv1.spaces.apart hp1 hnone
    have hsz : userPages (k1.proc p).sz = 0 := by
      obtain ⟨trapframe, r, -, hentry⟩ := ha.entry
      rw [hentry]
      show userPages (k.proc p).sz = 0
      rw [h.procs.unused_sz p ha.unused]
      rfl
    rw [hsz] at hapart1
    simp only [bind_of_ok (modify_apply _ _), bind_of_ok (get_apply _)] at hrun
    obtain ⟨_, k2, hload, hrun⟩ := bind_eq_ok.mp hrun
    obtain ⟨s2, hload', rfl⟩ := onRam_eq_ok.mp hload
    obtain ⟨own2, hwithin, hspace⟩ :=
      hapart1.space.uvminit hapart1.owned (.inr rfl) ((hexactly.rest trivial 3).mpr hs) hload'
    obtain ⟨hapart2, hframed2⟩ := hapart1.within hwithin hspace
    obtain ⟨hapart3, hframed3⟩ := hapart2.stored
      (hapart2.owned.storeTrapframe hapart2.own_trapframe (by decide : tfEpc + 8 ≤ pgSize) 0)
    obtain ⟨hapart4, hframed4⟩ := hapart3.stored
      (hapart3.owned.storeTrapframe hapart3.own_trapframe (by decide : tfSp + 8 ≤ pgSize) pgSize)
    cases hrun
    refine ⟨own2, p, hinv1.setImage hnone hp1 ((hframed2.trans hframed3).trans hframed4).outside ?_
      ?_ ?_ rfl rfl, ha.spawned ?_ ?_ rfl rfl, ?_, hglobal.trans hwithin.sameGlobal⟩
    · have hone : userPages pgSize = 1 := by decide
      simpa [hone] using hapart4
    · exact fun q hq => KernelState.setProc_ne _ _ _ hq
    · simpa using hp1
    · exact fun q hq => KernelState.setProc_ne _ _ _ hq
    · simp
    · simp

/-- A child gets a copy of its parent's user memory and none of its rings.  Running out of
processes or of memory stops the machine. -/
theorem fork (h : KernelInv im own holds k) (hp : (k.proc p).pagetable ≠ 0) :
    (∃ res k' own' np, Kernel.fork im p k = .ok (res, k') ∧ KernelInv im own' holds k' ∧
      Spawned k np k' ∧ (k'.proc np).state = .runnable ∧ SameGlobal own own') ∨
      Kernel.fork im p k = .error (.panic "1") ∨ Kernel.fork im p k = .error (.panic "2") := by
  obtain ⟨found, k1, halloc, -⟩ := h.exists_allocproc
  rw [Kernel.fork, bind_of_ok halloc]
  cases found with
  | none => exact .inr (.inl rfl)
  | some np =>
    obtain ⟨own1, hinv1, ha, hglobal, -⟩ := h.allocproc halloc
    have hnp1 := allocated_ne_zero ha
    have hne : p ≠ np := by
      rintro rfl
      exact hp ha.unused
    have hp1 : (k1.proc p).pagetable ≠ 0 := by rwa [ha.other p hne]
    have hnone : HoldsNothing holds np := h.holdsNothing ha.unused
    have hapart1 := hinv1.spaces.apart hnp1 hnone
    have hsz : userPages (k1.proc np).sz = 0 := by
      obtain ⟨trapframe, r, -, hentry⟩ := ha.entry
      rw [hentry]
      show userPages (k.proc np).sz = 0
      rw [h.procs.unused_sz np ha.unused]
      rfl
    rw [hsz] at hapart1
    have hrootne : (k1.proc p).pagetable ≠ (k1.proc np).pagetable := fun heq =>
      hne (hinv1.spaces.root_inj p np hp1 heq)
    obtain ⟨res, s2, own2, hcopy, hwithin, hspace⟩ := hapart1.space.uvmcopy
      (hinv1.spaces.space p hp1) hinv1.spaces.owned (Spaces.isRoot hnp1) (Spaces.isRoot hp1)
      hrootne
    simp only [bind_of_ok (get_apply _), bind_of_ok (onRam_of_ok hcopy)]
    split
    next => exact .inr (.inr rfl)
    next hres =>
      rw [if_neg hres] at hspace
      obtain ⟨hapart2, hframed2⟩ := hapart1.within (hwithin.mono fun r hr =>
        hr.elim Spaces.isRoot_of_other fun heq => heq ▸ Spaces.isRoot hnp1) hspace
      have htf := hapart2.own_trapframe
      have hstored3 : Stored im own2 (withRoot (OtherRoot k1.proc np) (k1.proc np).pagetable) s2
          { s2 with mem := s2.mem.move (k1.proc np).trapframe (k1.proc p).trapframe tfSize } := by
        have hpage : IsPage im (k1.proc np).trapframe := hapart2.owned.page _ (by simp [htf])
        refine .of_write hapart2.owned hpage (by simp [htf]) (by simp [htf])
          (fun x hx => Memory.move_of_not_mem ?_) rfl rfl
        have hsize : tfSize ≤ pgSize := by decide
        omega
      obtain ⟨hapart3, hframed3⟩ := hapart2.stored hstored3
      obtain ⟨hapart4, hframed4⟩ := hapart3.stored
        (hapart3.owned.storeTrapframe hapart3.own_trapframe (by decide : tfA0 + 8 ≤ pgSize) 0)
      refine .inl ⟨_, _, own2, np, rfl, hinv1.setImage hnone hnp1
        ((hframed2.trans hframed3).trans hframed4).outside ?_ ?_ ?_ rfl rfl,
        ha.spawned ?_ ?_ rfl rfl, ?_, hglobal.trans hwithin.sameGlobal⟩
      · simpa using hapart4
      · exact fun q hq => KernelState.setProc_ne _ _ _ hq
      · simpa using hnp1
      · exact fun q hq => KernelState.setProc_ne _ _ _ hq
      · simp
      · simp

end KernelInv

/-! ## Changing the size of a process -/

/-- The size that `growproc` aims at, in `uint` arithmetic. -/
def newSize (k : KernelState) (p : ProcId) (n : Int) : Nat := (((k.proc p).sz + n) % 2 ^ 32).toNat

/-- The call of `uvmalloc` in `growproc` fails. -/
def GrowthFails (im : Image) (p : ProcId) (n : Int) (k : KernelState) : Prop :=
  ∃ t, uvmalloc im (k.proc p).pagetable (k.proc p).sz (newSize k p n) k.ram = .ok (0, t)

/-- What `growproc` does to the size of a process: it fails with `uvmalloc`, and does not
grow the process if the new size has wrapped. -/
structure SizeChanged (im : Image) (p : ProcId) (n : Int) (k : KernelState) (res : Int)
    (k' : KernelState) : Prop where
  grow : 0 < n → GrowthFails im p n k ∧ res = -1 ∨ ¬GrowthFails im p n k ∧ res = 0 ∧
    (k'.proc p).sz = max (k.proc p).sz (newSize k p n)
  shrink : n ≤ 0 → res = 0 ∧ (k'.proc p).sz = min (k.proc p).sz (newSize k p n)

namespace KernelInv

variable {im : Image} {own : Nat → Role} {holds : List Holding} {k k' : KernelState}
  {p : ProcId}

/-- The user memory of a process gets another size; its rings stay where they are. -/
theorem resized {own' : Nat → Role} (h : KernelInv im own holds k) (hp : (k.proc p).pagetable ≠ 0)
    (hwithin : Within im (IsRoot k.proc) (k.proc p).pagetable own own' k.ram k'.ram)
    (hspace : Space im own' k'.ram.mem (k.proc p).pagetable (userPages (k'.proc p).sz)
      (k.proc p).trapframe (windowEntry holds k.ringbufs p))
    (hother : ∀ q, q ≠ p → k'.proc q = k.proc q)
    (hentry : k'.proc p = { k.proc p with sz := (k'.proc p).sz })
    (hrings : k'.ringbufs = k.ringbufs) (hnext : k'.nextpid = k.nextpid) :
    KernelInv im own' holds k' := by
  have hproc : ∀ q, (k'.proc q).pagetable = (k.proc q).pagetable ∧
      (k'.proc q).trapframe = (k.proc q).trapframe ∧ (k'.proc q).state = (k.proc q).state ∧
      (k'.proc q).pid = (k.proc q).pid := by
    intro q
    by_cases hq : q = p
    · rw [hq, hentry]
      exact ⟨rfl, rfl, rfl, rfl⟩
    · rw [hother q hq]
      exact ⟨rfl, rfl, rfl, rfl⟩
  have hroots : IsRoot k'.proc = IsRoot k.proc := by
    funext r
    simp only [IsRoot, fun q => (hproc q).1]
  -- Pages of other processes and of rings keep their roles.
  have hkept : ∀ q, own q ≠ .free → (∀ i, own q ≠ .user (k.proc p).pagetable i) →
      own' q = own q := hwithin.kept
  refine ⟨⟨by rw [hroots]; exact hwithin.owned, fun a b => ?_, fun q hq => ?_, fun q hq => ?_,
    ?_, fun pa i hpa => ?_, fun a ha => ?_, h.spaces.held_window, fun a ha => ?_⟩,
    h.ledger.congr hrings fun a _ => (hproc a.proc).2.2.2,
    ⟨fun q => ?_, fun q hq => ?_, fun q => ?_, fun a b => ?_, fun q => ?_, fun j e => ?_⟩⟩
  · rw [(hproc a).1, (hproc b).1]
    exact h.spaces.root_inj a b
  · rw [hrings, (hproc q).1, (hproc q).2.1]
    rw [(hproc q).1] at hq
    by_cases hqp : q = p
    · subst hqp
      exact hspace
    · have hne : (k.proc q).pagetable ≠ (k.proc p).pagetable := fun heq =>
        hqp (h.spaces.root_inj q p hq heq)
      rw [hother q hqp]
      refine (h.spaces.space q hq).congr
        (fun va hva => hwithin.other _ va (Spaces.isRoot hq) hne hva) (fun pa i => ⟨fun hpa => ?_,
          fun hpa => ?_⟩) fun _ _ _ => rfl
      · rw [hkept pa (by simp [hpa]) fun i' => by simp [hpa, hne], hpa]
      · rw [← (hwithin.fresh pa).resolve_right (by rw [hpa]; exact hne), hpa]
  · rw [(hproc q).1] at hq
    have hrole := h.spaces.trapframe q hq
    rw [(hproc q).2.1, hkept _ (by simp [hrole]) (by simp [hrole]), hrole]
  · rw [hroots]
    exact h.spaces.rooted.within (Spaces.isRoot hp) hwithin
  · have hsame := (hwithin.fresh pa).resolve_right (by rw [hpa]; exact id)
    obtain ⟨q, hqi, hq, htrapframe⟩ := h.spaces.trapframe_only pa i (hsame ▸ hpa)
    exact ⟨q, hqi, by rwa [(hproc q).1], by rwa [(hproc q).2.1]⟩
  · rw [(hproc a.proc).1]
    exact h.spaces.held_root a ha
  · rw [hrings]
    refine (h.spaces.held_pages a ha).congr ⟨rfl, rfl⟩ fun q hq => hkept q hq.ne_free fun i hi => ?_
    rw [hi] at hq
    rcases hq with ⟨_, hq⟩ | hq <;> cases hq
  · rw [(hproc q).1, (hproc q).2.2.1]
    exact h.procs.unused q
  · rw [(hproc q).1] at hq
    have hqp : q ≠ p := by
      rintro rfl
      exact hp hq
    rw [hother q hqp]
    exact h.procs.unused_sz q hq
  · rw [(hproc q).1, (hproc q).2.2.2]
    exact h.procs.pid_pos q
  · rw [(hproc a).1, (hproc b).1, (hproc a).2.2.2, (hproc b).2.2.2]
    exact h.procs.pid_inj a b
  · rw [(hproc q).2.2.2, hnext]
    exact h.procs.pid_lt q
  · rw [hrings, hnext]
    exact h.procs.listed_lt j e

theorem setSize {own' : Nat → Role} {sz : Nat} {t : Ram} (h : KernelInv im own holds k)
    (hp : (k.proc p).pagetable ≠ 0)
    (hwithin : Within im (IsRoot k.proc) (k.proc p).pagetable own own' k.ram t)
    (hspace : Space im own' t.mem (k.proc p).pagetable (userPages sz) (k.proc p).trapframe
      (windowEntry holds k.ringbufs p)) :
    ∃ k', Kernel.setSize p sz { k with ram := t } = .ok ((), k') ∧ KernelInv im own' holds k' ∧
      (k'.proc p).sz = sz ∧ k'.ringbufs = k.ringbufs ∧ k'.nextpid = k.nextpid ∧
      ∀ q, k'.proc q = { k.proc q with sz := (k'.proc q).sz } := by
  refine ⟨_, modify_apply _ _, h.resized hp hwithin ?_ ?_ ?_ rfl rfl, by simp, rfl, rfl, ?_⟩
  · simpa using hspace
  · exact fun q hq => KernelState.setProc_ne _ _ _ hq
  · simp
  · intro q
    by_cases hq : q = p
    · subst hq
      simp
    · rw [KernelState.setProc_ne _ _ _ hq]

variable (h : KernelInv im own holds k) (hp : (k.proc p).pagetable ≠ 0)
include h hp

theorem sz_lt : (k.proc p).sz < 2 ^ 32 :=
  (h.spaces.space p hp).sz_lt h.spaces.owned

/-- `growproc` changes the size of the user memory, or fails and leaves it as it was. -/
theorem growproc (n : Int) :
    ∃ res k' own', Kernel.growproc im p n k = .ok (res, k') ∧ KernelInv im own' holds k' ∧
      SameGlobal own own' ∧ k'.ringbufs = k.ringbufs ∧ k'.nextpid = k.nextpid ∧
      (∀ q, k'.proc q = { k.proc q with sz := (k'.proc q).sz }) ∧ SizeChanged im p n k res k' := by
  have hsz := h.sz_lt hp
  have hspace := h.spaces.space p hp
  have howned := h.spaces.owned
  have hr := Spaces.isRoot hp
  have hnew : (((k.proc p).sz + n) % 2 ^ 32).toNat = newSize k p n := rfl
  rw [Kernel.growproc, bind_of_ok (get_apply k)]
  simp only [Nat.mod_eq_of_lt hsz, hnew]
  split
  next hn =>
    obtain ⟨sz, t, own', halloc, hwithin, hspace', hgrown⟩ := hspace.uvmalloc_of (newSize k p n)
      (P := fun _ _ _ => True) (fun _ _ _ _ _ _ _ _ _ => trivial) trivial howned hr
    have hsz' : sz < 2 ^ 32 := by
      split at hspace'
      next hz => omega
      next => exact hspace'.sz_lt hwithin.owned
    rw [bind_of_ok (onRam_of_ok halloc)]
    simp only [Nat.mod_eq_of_lt hsz']
    have hfails : GrowthFails im p n k ↔ sz = 0 := by
      rw [GrowthFails, halloc]
      simp
    split
    next hz =>
      rw [if_pos hz] at hspace'
      exact ⟨-1, _, own', rfl, h.resized hp hwithin hspace' (fun _ _ => rfl) rfl rfl rfl,
        hwithin.sameGlobal, rfl, rfl, fun _ => rfl, fun _ => .inl ⟨hfails.mpr hz, rfl⟩,
        fun hle => (Int.not_lt.mpr hle hn).elim⟩
    next hz =>
      rw [if_neg hz] at hspace'
      obtain ⟨k', hrun, hinv, hsize, hrings, hnext, hprocs⟩ := h.setSize hp hwithin hspace'
      refine ⟨0, k', own', bind_of_ok hrun, hinv, hwithin.sameGlobal, hrings, hnext, hprocs,
        fun _ => .inr ⟨fun hex => hz (hfails.mp hex), rfl, ?_⟩,
        fun hle => (Int.not_lt.mpr hle hn).elim⟩
      rw [hsize, (hgrown hz).1]
  next hn =>
    split
    next =>
      obtain ⟨t, own', hdealloc, hwithin, hspace'⟩ := hspace.uvmdealloc (newSize k p n) howned hr
      rw [bind_of_ok (onRam_of_ok hdealloc), Nat.mod_eq_of_lt (hspace'.sz_lt hwithin.owned)]
      obtain ⟨k', hrun, hinv, hsize, hrings, hnext, hprocs⟩ := h.setSize hp hwithin hspace'
      exact ⟨0, k', own', bind_of_ok hrun, hinv, hwithin.sameGlobal, hrings, hnext, hprocs,
        fun hpos => (hn hpos).elim, fun _ => ⟨rfl, hsize⟩⟩
    next hneg =>
      obtain rfl : n = 0 := by omega
      obtain ⟨k', hrun, hinv, hsize, hrings, hnext, hprocs⟩ := h.setSize hp (.refl howned) hspace
      refine ⟨0, k', own, bind_of_ok hrun, hinv, .refl own, hrings, hnext, hprocs,
        fun hpos => (hn hpos).elim, fun _ => ⟨rfl, ?_⟩⟩
      rw [hsize, newSize]
      omega

/-- `sbrk` returns the old size, or -1 if `growproc` failed. -/
theorem sbrk (n : Int) :
    ∃ res k' own', Kernel.sbrk im p n k = .ok (if res < 0 then -1 else ((k.proc p).sz : Int), k') ∧
      KernelInv im own' holds k' ∧ SameGlobal own own' ∧ k'.ringbufs = k.ringbufs ∧
      k'.nextpid = k.nextpid ∧ (∀ q, k'.proc q = { k.proc q with sz := (k'.proc q).sz }) ∧
      SizeChanged im p n k res k' := by
  obtain ⟨res, k', own', hrun, hrest⟩ := h.growproc hp n
  refine ⟨res, k', own', ?_, hrest⟩
  rw [Kernel.sbrk, bind_of_ok (get_apply k), bind_of_ok hrun]
  split <;> rfl

end KernelInv

end Kernel
end FastIpc
