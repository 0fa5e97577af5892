import FastIpc.Kernel.Machine
import Mathlib.Data.List.Perm.Basic

/-!
# The ring table

The fields of a slot repeat each other: the reference count counts the ends that are held, the
name is set while the ring is in use, and every process records whether it is listed in a slot.
`createbuf` and `closebuf` keep these facts only in calls that meet a condition: the
name must not be that of a ring in slot 0 or have been cut off, the caller must have a free
window, and an end is closed only by its holder and only if it is the only one.

Main results:

- Theorem `ring_table_consistent`: the table is consistent in every state.
-/

namespace FastIpc
namespace Kernel

open Foundation

/-! ## Listed ends are held -/

/-- The slots that are in use list exactly the ends that are held, and record the window of a
single holder. -/
structure Settled (holds : List Holding) (k : KernelState) : Prop where
  listed : ∀ a ∈ holds, ∀ e, (k.ringbufs a.slot).pidsRW e ≠ 0 →
    ∃ b ∈ holds, b.slot = a.slot ∧ b.ringEnd = e
  vabuf : ∀ a ∈ holds, (k.ringbufs a.slot).refcount = 1 →
    (k.ringbufs a.slot).vabuf = window a.window

/-- Moreover the slots that are not in use are empty. -/
structure Exact (holds : List Holding) (k : KernelState) : Prop extends Settled holds k where
  unheld : ∀ j, (∀ a ∈ holds, a.slot ≠ j) →
    (k.ringbufs j).refcount = 0 ∧ ∀ e, (k.ringbufs j).pidsRW e = 0

variable {k : KernelState}

theorem openedEnd_eq_some {p : ProcId} {straddr : CString} {opdesc : Int} {a : Holding}
    (h : openedEnd k p straddr opdesc = some a) :
    a.proc = p ∧ a.name = straddr ∧ a.ringEnd = ringEndOf opdesc ∧
      targetSlot k straddr = some a.slot ∧
      firstWindow k.ram.mem (k.proc p).pagetable = some a.window := by
  unfold openedEnd at h
  cases hj : targetSlot k straddr with
  | none => simp [hj] at h
  | some j =>
    cases hw : firstWindow k.ram.mem (k.proc p).pagetable with
    | none => simp [hj, hw] at h
    | some w =>
      simp only [hj, hw, Option.bind_eq_bind, Option.bind_some, Option.pure_def,
        Option.some.injEq] at h
      subst h
      exact ⟨rfl, rfl, rfl, rfl, rfl⟩

/-- An end that is opened on an old ring is not the only one. -/
theorem KernelInv.held_of_attaches {im : Image} {own : Nat → Role} {holds : List Holding}
    {p : ProcId} {straddr : CString} {opdesc : Int} {a : Holding} (h : KernelInv im own holds k)
    (hname : straddr ≠ .empty) (hattaches : attaches k straddr = true)
    (hend : openedEnd k p straddr opdesc = some a) : ∃ c ∈ holds, c.slot = a.slot := by
  obtain ⟨-, -, -, htarget, -⟩ := openedEnd_eq_some hend
  rw [targetSlot, if_pos hattaches] at htarget
  exact h.exists_holder hname htarget

namespace Settled

variable {im : Image} {own own' : Nat → Role} {holds : List Holding} {k k' : KernelState}
  {a : Holding} {newmap last : Bool} {retvaddr : Nat}

theorem congr (h : Settled holds k)
    (hrings : ∀ a ∈ holds, k'.ringbufs a.slot = k.ringbufs a.slot) : Settled holds k' where
  listed a ha := by
    rw [hrings a ha]
    exact h.listed a ha
  vabuf a ha := by
    rw [hrings a ha]
    exact h.vabuf a ha

/-- An end is opened in a slot that is free or in use. -/
theorem opened (h : Settled holds k) (hl : Ledger holds k)
    (ho : Opened im own own' holds a newmap retvaddr k k')
    (hold : newmap = false → ∃ c ∈ holds, c.slot = a.slot) : Settled (a :: holds) k' := by
  refine ⟨fun b hb e he => ?_, fun b hb hone => ?_⟩
  · by_cases hslot : b.slot = a.slot
    · rw [hslot, ho.pids] at he
      by_cases hend : e = a.ringEnd
      · exact ⟨a, by simp, hslot.symm, hend.symm⟩
      · rw [if_neg hend] at he
        cases hnew : newmap with
        | true => simp [hnew] at he
        | false =>
          obtain ⟨c, hc, hcslot⟩ := hold hnew
          rw [hnew, ← hcslot] at he
          obtain ⟨d, hd, hdslot, hdend⟩ := h.listed c hc e (by simpa using he)
          exact ⟨d, by simp [hd], by rw [hdslot, hcslot, hslot], hdend⟩
    · have hb' : b ∈ holds := by
        rcases List.mem_cons.mp hb with rfl | hb'
        · exact (hslot rfl).elim
        · exact hb'
      rw [ho.other _ hslot] at he
      obtain ⟨d, hd, hrest⟩ := h.listed b hb' e he
      exact ⟨d, by simp [hd], hrest⟩
  · by_cases hslot : b.slot = a.slot
    · rcases List.mem_cons.mp hb with rfl | hb'
      · exact ho.vabuf
      · rw [hslot, ho.refcount, ← hslot] at hone
        have := hl.refcount_pos hb'
        omega
    · have hb' : b ∈ holds := by
        rcases List.mem_cons.mp hb with rfl | hb'
        · exact (hslot rfl).elim
        · exact hb'
      rw [ho.other _ hslot] at hone ⊢
      exact h.vabuf b hb' hone

/-- The only end of a ring is closed. -/
theorem closed (h : Settled holds k) (hl : Ledger holds k) (ha : a ∈ holds)
    (hone : (k.ringbufs a.slot).refcount = 1) (hc : Closed im own own' holds a last k k') :
    Settled (holds.erase a) k' := by
  have honly := (hl.last_iff ha).mp (by omega)
  have hne : ∀ b ∈ holds.erase a, b ∈ holds ∧ b.slot ≠ a.slot := fun b hb =>
    have hb' := hl.nodup.mem_erase_iff.mp hb
    ⟨hb'.2, fun heq => hb'.1 (honly b hb'.2 heq)⟩
  refine ⟨fun b hb e he => ?_, fun b hb hone' => ?_⟩
  · obtain ⟨hb', hslot⟩ := hne b hb
    rw [hc.other _ hslot] at he
    obtain ⟨d, hd, hdslot, hdend⟩ := h.listed b hb' e he
    refine ⟨d, hl.nodup.mem_erase_iff.mpr ⟨?_, hd⟩, hdslot, hdend⟩
    rintro rfl
    exact hslot hdslot.symm
  · obtain ⟨hb', hslot⟩ := hne b hb
    rw [hc.other _ hslot] at hone' ⊢
    exact h.vabuf b hb' hone'

end Settled

namespace Exact

variable {im : Image} {own own' : Nat → Role} {holds : List Holding} {k k' : KernelState}
  {a : Holding} {newmap : Bool} {retvaddr : Nat}

theorem congr (h : Exact holds k) (hrings : k'.ringbufs = k.ringbufs) : Exact holds k' where
  toSettled := h.toSettled.congr fun _ _ => by rw [hrings]
  unheld j hj := by
    rw [hrings]
    exact h.unheld j hj

/-- The table is exact when nothing has happened yet. -/
theorem of_zero (hzero : ∀ j, k.ringbufs j = .zero) : Exact [] k where
  listed := by simp
  vabuf := by simp
  unheld j _ := by
    rw [hzero]
    exact ⟨rfl, fun _ => rfl⟩

variable (h : Exact holds k)
include h

theorem refcount_eq (hl : Ledger holds k) (j : Slot) :
    (k.ringbufs j).refcount = holds.countP fun a => a.slot = j := by
  by_cases hj : ∃ a ∈ holds, a.slot = j
  · obtain ⟨a, ha, rfl⟩ := hj
    exact hl.refcount a ha
  · rw [(h.unheld j fun a ha heq => hj ⟨a, ha, heq⟩).1, List.countP_eq_zero.mpr]
    · rfl
    · exact fun a ha heq => hj ⟨a, ha, of_decide_eq_true heq⟩

theorem held_of_listed {j : Slot} {e : RingEnd} (he : (k.ringbufs j).pidsRW e ≠ 0) :
    ∃ a ∈ holds, a.slot = j ∧ a.ringEnd = e := by
  by_cases hj : ∃ a ∈ holds, a.slot = j
  · obtain ⟨a, ha, rfl⟩ := hj
    exact h.listed a ha e he
  · exact (he ((h.unheld j fun a ha heq => hj ⟨a, ha, heq⟩).2 e)).elim

theorem opened (hl : Ledger holds k) (ho : Opened im own own' holds a newmap retvaddr k k')
    (hold : newmap = false → ∃ c ∈ holds, c.slot = a.slot) : Exact (a :: holds) k' where
  toSettled := h.toSettled.opened hl ho hold
  unheld j hj := by
    rw [ho.other j (hj a (by simp)).symm]
    exact h.unheld j fun b hb => hj b (by simp [hb])

theorem closed (hl : Ledger holds k) (ha : a ∈ holds) (hone : (k.ringbufs a.slot).refcount = 1)
    (hc : Closed im own own' holds a true k k') : Exact (holds.erase a) k' where
  toSettled := h.toSettled.closed hl ha hone hc
  unheld j hj := by
    by_cases hja : j = a.slot
    · subst hja
      rw [hc.slot]
      exact ⟨rfl, fun _ => rfl⟩
    · rw [hc.other j hja]
      refine h.unheld j fun b hb => ?_
      by_cases hba : b = a
      · exact fun heq => hja (by rw [← heq, hba])
      · exact hj b (hl.nodup.mem_erase_iff.mpr ⟨hba, hb⟩)

/-- The number of ends that a slot lists is the number of ends that are held. -/
theorem countP_listed (hl : Ledger holds k) (hpid : ∀ a ∈ holds, (k.proc a.proc).pid ≠ 0) (j : Slot) :
    ((List.finRange 2).countP fun e => (k.ringbufs j).pidsRW e ≠ 0) =
      holds.countP fun a => a.slot = j := by
  have hends : ((holds.filter fun a => a.slot = j).map Holding.ringEnd).Perm
      ((List.finRange 2).filter fun e => (k.ringbufs j).pidsRW e ≠ 0) := by
    rw [List.perm_ext_iff_of_nodup ?_ ((List.nodup_finRange 2).filter _)]
    · intro e
      simp only [List.mem_map, List.mem_filter, decide_eq_true_eq, List.mem_finRange, true_and]
      refine ⟨?_, fun he => ?_⟩
      · rintro ⟨a, ⟨ha, rfl⟩, rfl⟩
        rw [hl.held_pid a ha]
        exact hpid a ha
      · obtain ⟨a, ha, hslot, hend⟩ := h.held_of_listed he
        exact ⟨a, ⟨ha, hslot⟩, hend⟩
    · refine (hl.nodup.filter _).map_on fun a ha b hb heq => ?_
      simp only [List.mem_filter, decide_eq_true_eq] at ha hb
      exact hl.held_end a ha.1 b hb.1 (ha.2.trans hb.2.symm) heq
  rw [List.countP_eq_length_filter, List.countP_eq_length_filter, ← hends.length_eq,
    List.length_map]

end Exact

/-! ## The table over a run -/

/-- The calls that use the ring table, and `fork`, which makes processes that use it. -/
def Call.usesRings : Call → Bool
  | .createbuf .. | .closebuf .. | .fork => true
  | _ => false

/-- A step of processes that only fork and open and close rings. -/
def ringStep (im : Image) (k : KernelState) (ev : Event) : Option KernelState :=
  if ev.call.usesRings then (perform im k ev).map Prod.snd else none

/-- A call that does not run into one of the cases the source gets wrong.  A name that is not
attached to must not, cut off, be the name of a ring, and the caller must have a window for the
new ring; a ring is closed only by its single holder. -/
def TableCall (k : KernelState) (p : ProcId) : Call → Prop
  | .createbuf straddr opdesc _ => ¬(opdesc < 0 ∨ 1 < opdesc) → straddr ≠ .empty ∧
      (attaches k straddr = false →
        (∀ i, 0 < (k.ringbufs i).refcount → (k.ringbufs i).name ≠ straddr.safestrcpy 8) ∧
        firstWindow k.ram.mem (k.proc p).pagetable ≠ none)
  | .closebuf straddr _ => ∀ j, findName k straddr = some j → (k.ringbufs j).refcount = 1 ∧
      ∃ e, (k.ringbufs j).pidsRW e = (k.proc p).pid
  | _ => True

/-- The process is listed in some slot. -/
def Listed (k : KernelState) (pid : Nat) : Prop := ∃ j e, (k.ringbufs j).pidsRW e = pid

theorem pidRingValid_iff {pid : Nat} : pidRingValid k pid = true ↔ Listed k pid := by
  simp only [pidRingValid, List.any_eq_true, List.mem_finRange, true_and, decide_eq_true_eq, Listed]
  refine exists_congr fun j => ?_
  rw [Fin.exists_fin_two]

/-- The redundant fields of the table and of the processes agree. -/
structure Table (holds : List Holding) (k : KernelState) : Prop extends Exact holds k where
  named : ∀ a ∈ holds, a.name ≠ .empty
  distinct : ∀ a ∈ holds, ∀ b ∈ holds,
    (k.ringbufs a.slot).name = (k.ringbufs b.slot).name → a.slot = b.slot
  flag : ∀ p, (k.proc p).pagetable ≠ 0 → ((k.proc p).validRingBuf = 1 ↔ Listed k (k.proc p).pid)
  flag_unused : ∀ p, (k.proc p).pagetable = 0 → (k.proc p).validRingBuf = 0

namespace Table

variable {im : Image} {own own' : Nat → Role} {holds : List Holding} {k k' : KernelState}
  {a : Holding} {newmap : Bool} {retvaddr : Nat} {p : ProcId}

variable (h : Table holds k)
include h

theorem spawned (hprocs : Procs k) (hs : Spawned k p k') : Table holds k' := by
  have hlisted : ∀ pid, Listed k' pid ↔ Listed k pid := fun pid => by
    unfold Listed
    rw [hs.ringbufs]
  refine ⟨h.toExact.congr hs.ringbufs, h.named, by rw [hs.ringbufs]; exact h.distinct,
    fun q hq => ?_, fun q hq => ?_⟩
  · rw [hlisted]
    by_cases hqp : q = p
    · subst hqp
      rw [hs.flag, h.flag_unused q hs.unused, hs.pid]
      refine ⟨fun h0 => absurd h0 (by decide), ?_⟩
      rintro ⟨j, e, he⟩
      exact absurd (hprocs.listed_lt j e) (by omega)
    · rw [hs.other q hqp] at hq ⊢
      exact h.flag q hq
  · have hqp : q ≠ p := by
      rintro rfl
      exact hs.used hq
    rw [hs.other q hqp] at hq ⊢
    exact h.flag_unused q hq

theorem pids_free (hl : Ledger (a :: holds) k') : (k.ringbufs a.slot).pidsRW a.ringEnd = 0 := by
  by_contra hne
  obtain ⟨b, hb, hslot, hend⟩ := h.held_of_listed hne
  have := hl.held_end b (by simp [hb]) a (by simp) hslot hend
  exact (List.nodup_cons.mp hl.nodup).1 (this ▸ hb)

theorem listed_opened (hl : Ledger (a :: holds) k')
    (ho : Opened im own own' holds a newmap retvaddr k k')
    (hnew : newmap = true → (k.ringbufs a.slot).refcount = 0) {pid : Nat} (hpid : pid ≠ 0) :
    Listed k' pid ↔ Listed k pid ∨ pid = (k.proc a.proc).pid := by
  have hfree := h.pids_free hl
  have hsame : ∀ e, e ≠ a.ringEnd → (k'.ringbufs a.slot).pidsRW e =
      (k.ringbufs a.slot).pidsRW e := by
    intro e he
    rw [ho.pids, if_neg he]
    cases newmap with
    | false => rfl
    | true =>
      have hslot : ∀ b ∈ holds, b.slot ≠ a.slot := by
        intro b hb heq
        have hcount := hl.refcount a (by simp)
        rw [ho.refcount, hnew rfl, List.countP_cons_of_pos (by simp)] at hcount
        have hpos : 0 < holds.countP fun b => b.slot = a.slot :=
          List.countP_pos_iff.mpr ⟨b, hb, by simpa using heq⟩
        omega
      exact ((h.unheld a.slot hslot).2 e).symm
  constructor
  · rintro ⟨j, e, he⟩
    by_cases hj : j = a.slot
    · subst hj
      by_cases hend : e = a.ringEnd
      · rw [hend, ho.pids, if_pos rfl] at he
        exact .inr he.symm
      · rw [hsame e hend] at he
        exact .inl ⟨_, _, he⟩
    · rw [ho.other j hj] at he
      exact .inl ⟨_, _, he⟩
  · rintro (⟨j, e, he⟩ | rfl)
    · by_cases hj : j = a.slot
      · subst hj
        refine ⟨a.slot, e, ?_⟩
        rw [hsame e, he]
        rintro rfl
        exact hpid (he.symm.trans hfree)
      · exact ⟨j, e, by rw [ho.other j hj, he]⟩
    · exact ⟨a.slot, a.ringEnd, by rw [ho.pids, if_pos rfl]⟩

/-- An end of a ring is opened. -/
theorem opened (hinv : KernelInv im own holds k) (hinv' : KernelInv im own' (a :: holds) k')
    (ho : Opened im own own' holds a newmap retvaddr k k') (hname : a.name ≠ .empty)
    (hold : newmap = false → ∃ c ∈ holds, c.slot = a.slot)
    (hnew : newmap = true → (k.ringbufs a.slot).refcount = 0 ∧ ∀ i, 0 < (k.ringbufs i).refcount →
      (k.ringbufs i).name ≠ a.name.safestrcpy 8) :
    Table (a :: holds) k' := by
  have hproc : ∀ q, (k'.proc q).pagetable = (k.proc q).pagetable ∧
      (k'.proc q).pid = (k.proc q).pid ∧
      (k'.proc q).validRingBuf = if q = a.proc then 1 else (k.proc q).validRingBuf := by
    intro q
    rw [ho.proc]
    by_cases hq : q = a.proc
    · subst hq
      simp
    · simp [hq]
  have hroot : (k.proc a.proc).pagetable ≠ 0 := by
    rw [← (hproc a.proc).1]
    exact hinv'.spaces.held_root a (by simp)
  -- The name of a slot that was in use is kept.
  have hnames : ∀ b ∈ holds, (k'.ringbufs b.slot).name = (k.ringbufs b.slot).name := by
    intro b hb
    by_cases hslot : b.slot = a.slot
    · rw [hslot, ho.name]
      cases hmap : newmap with
      | false => rfl
      | true =>
        have := hinv.ledger.refcount_pos hb
        rw [hslot, (hnew hmap).1] at this
        exact absurd this (by decide)
    · rw [ho.other _ hslot]
  have hcross : ∀ b ∈ holds, (k'.ringbufs a.slot).name = (k'.ringbufs b.slot).name →
      a.slot = b.slot := by
    intro b hb heq
    rw [hnames b hb] at heq
    cases hmap : newmap with
    | false =>
      obtain ⟨c, hc, hslot⟩ := hold hmap
      rw [← hslot, hnames c hc] at heq
      exact hslot ▸ h.distinct c hc b hb heq
    | true =>
      rw [ho.name, hmap] at heq
      exact ((hnew hmap).2 _ (hinv.ledger.refcount_pos hb) heq.symm).elim
  refine ⟨h.toExact.opened hinv.ledger ho hold, ?_, ?_, fun q hq => ?_, fun q hq => ?_⟩
  · simpa using ⟨hname, h.named⟩
  · intro b hb c hc heq
    rcases List.mem_cons.mp hb with rfl | hb' <;> rcases List.mem_cons.mp hc with rfl | hc'
    · rfl
    · exact hcross c hc' heq
    · exact (hcross b hb' heq.symm).symm
    · rw [hnames b hb', hnames c hc'] at heq
      exact h.distinct b hb' c hc' heq
  · obtain ⟨htable, hpid, hflag⟩ := hproc q
    rw [htable] at hq
    rw [hpid, hflag, h.listed_opened hinv'.ledger ho (fun hmap => (hnew hmap).1)
      (hinv.procs.pid_pos q hq)]
    by_cases hqa : q = a.proc
    · simp [hqa]
    · rw [if_neg hqa, h.flag q hq]
      have hne : (k.proc q).pid ≠ (k.proc a.proc).pid := fun heq =>
        hqa (hinv.procs.pid_inj q a.proc hq hroot heq)
      simp [hne]
  · obtain ⟨htable, -, hflag⟩ := hproc q
    rw [htable] at hq
    have hqa : q ≠ a.proc := by
      rintro rfl
      exact hroot hq
    rw [hflag, if_neg hqa, h.flag_unused q hq]

/-- The only end of a ring is closed. -/
theorem closed (hinv : KernelInv im own holds k) (ha : a ∈ holds)
    (hone : (k.ringbufs a.slot).refcount = 1) (hc : Closed im own own' holds a true k k') :
    Table (holds.erase a) k' := by
  have honly := (hinv.ledger.last_iff ha).mp (by omega)
  have hmem : ∀ b ∈ holds.erase a, b ∈ holds ∧ b.slot ≠ a.slot := fun b hb =>
    have hb' := hinv.ledger.nodup.mem_erase_iff.mp hb
    ⟨hb'.2, fun heq => hb'.1 (honly b hb'.2 heq)⟩
  have hroot := hinv.spaces.held_root a ha
  refine ⟨h.toExact.closed hinv.ledger ha hone hc, fun b hb => h.named b (hmem b hb).1,
    fun b hb c hc' heq => ?_, fun q hq => ?_, fun q hq => ?_⟩
  · rw [hc.other _ (hmem b hb).2, hc.other _ (hmem c hc').2] at heq
    exact h.distinct b (hmem b hb).1 c (hmem c hc').1 heq
  · by_cases hqa : q = a.proc
    · subst hqa
      rw [hc.proc, Function.update_self]
      simp only
      rw [← pidRingValid_iff]
      cases pidRingValid k' (k.proc a.proc).pid <;> simp
    · rw [hc.proc, Function.update_of_ne hqa] at hq ⊢
      rw [h.flag q hq]
      constructor
      · rintro ⟨j, e, he⟩
        refine ⟨j, e, ?_⟩
        have hne : (k.ringbufs j).pidsRW e ≠ 0 := he ▸ hinv.procs.pid_pos q hq
        obtain ⟨b, hb, hslot, hend⟩ := h.held_of_listed hne
        have hj : j ≠ a.slot := by
          rintro rfl
          obtain rfl := honly b hb hslot
          rw [← hend, hinv.ledger.held_pid b hb] at he
          exact hqa (hinv.procs.pid_inj q b.proc hq hroot he.symm)
        rw [hc.other j hj, he]
      · rintro ⟨j, e, he⟩
        have hj : j ≠ a.slot := by
          rintro rfl
          rw [hc.slot] at he
          exact hinv.procs.pid_pos q hq he.symm
        exact ⟨j, e, by rw [← hc.other j hj, he]⟩
  · have hqa : q ≠ a.proc := by
      rintro rfl
      rw [hc.proc, Function.update_self] at hq
      exact hroot hq
    rw [hc.proc, Function.update_of_ne hqa] at hq ⊢
    exact h.flag_unused q hq

theorem withFails (fails : List Bool) : Table holds (k.withFails fails) :=
  ⟨h.toExact.congr rfl, h.named, h.distinct, h.flag, h.flag_unused⟩

end Table

/-- The kernel state is sound and its table consistent, for some ends that are held. -/
def TableInv (im : Image) (k : KernelState) : Prop :=
  ∃ own holds, KernelInv im own holds k ∧ Table holds k

theorem Started.tableInv {im : Image} (h : Started im k) : TableInv im k := by
  obtain ⟨⟨own, hinv⟩, hzero, hflag⟩ := h.kernelInv
  refine ⟨own, [], hinv, .of_zero hzero, by simp, by simp, fun p hp => ?_, fun p _ => hflag p⟩
  rw [hflag p]
  refine ⟨fun h0 => absurd h0 (by decide), ?_⟩
  rintro ⟨j, e, he⟩
  rw [hzero j] at he
  exact (hinv.procs.pid_pos p hp he.symm).elim

namespace TableInv

variable {im : Image} {k k' : KernelState} {p : ProcId} {straddr : CString} {opdesc res : Int}
  {retvaddr : Nat}

theorem createbuf (h : TableInv im k) (hp : (k.proc p).pagetable ≠ 0)
    (hok : TableCall k p (.createbuf straddr opdesc retvaddr))
    (hrun : Kernel.createbuf im p straddr opdesc retvaddr k = .ok (res, k')) : TableInv im k' := by
  obtain ⟨own, holds, hinv, htable⟩ := h
  have hsafe : ¬(opdesc < 0 ∨ 1 < opdesc) → CreateSafe k straddr := by
    intro hop
    obtain ⟨hname, hmake⟩ := hok hop
    refine ⟨hname, fun _ j hfound => Nat.pos_of_ne_zero fun hj => ?_⟩
    -- A ring in slot 0 would be made again under its own name.
    obtain ⟨c, hc, hslot⟩ := hinv.exists_holder hname hfound
    refine (hmake (attaches_eq_false_iff.mpr fun i hi => ?_)).1 j ?_ ?_
    · rw [hfound] at hi
      exact Option.some.inj hi ▸ hj
    · exact hslot ▸ hinv.ledger.refcount_pos hc
    · rw [hinv.safestrcpy_of_found hname hfound, name_of_findName hfound]
  rcases hinv.createbuf_cases hp hsafe hrun with ⟨-, rfl⟩ |
    ⟨hop, ⟨-, hwindow, hmakes, -⟩ | ⟨a, own', hend, -, ho, hinv'⟩⟩
  · exact ⟨own, holds, hinv, htable⟩
  · exact ((hok hop).2 hmakes).2 hwindow |>.elim
  · obtain ⟨-, haname, -, htarget, -⟩ := openedEnd_eq_some hend
    obtain ⟨hname, hmake⟩ := hok hop
    refine ⟨own', a :: holds, hinv', htable.opened hinv hinv' ho (haname ▸ hname) ?_ ?_⟩
    · intro hattaches
      rw [targetSlot, if_pos (by simpa using hattaches)] at htarget
      exact hinv.exists_holder hname htarget
    · intro hattaches
      have hattaches : attaches k straddr = false := by simpa using hattaches
      rw [targetSlot, if_neg (by simp [hattaches])] at htarget
      exact ⟨refcount_of_findFree htarget, haname ▸ (hmake hattaches).1⟩

theorem closebuf (h : TableInv im k) (hp : (k.proc p).pagetable ≠ 0)
    (hok : TableCall k p (.closebuf straddr opdesc))
    (hrun : Kernel.closebuf im p straddr opdesc k = .ok (res, k')) : TableInv im k' := by
  obtain ⟨own, holds, hinv, htable⟩ := h
  cases hfound : findName k straddr with
  | none =>
    rw [closebuf_unknown hfound] at hrun
    cases hrun
  | some j =>
    obtain ⟨hone, e, he⟩ := hok j hfound
    obtain ⟨a, ha, rfl, rfl⟩ := htable.held_of_listed (he ▸ hinv.procs.pid_pos p hp)
    obtain rfl : a.proc = p := hinv.procs.pid_inj a.proc p (hinv.spaces.held_root a ha) hp
      ((hinv.ledger.held_pid a ha).symm.trans he)
    have hva := htable.vabuf a ha hone
    have hlast : (k.ringbufs a.slot).refcount - 1 < 1 := by omega
    have hbacked : (k.ringbufs a.slot).Backed := by
      by_contra hnull
      obtain ⟨e, hfault⟩ := hinv.spaces.closebuf_null ha hfound hva hlast hnull opdesc
      rw [hrun] at hfault
      cases hfault
    obtain ⟨k1, own', hok, hc, hinv'⟩ := hinv.close ha hfound hva (fun _ => hbacked) opdesc
    rw [hrun] at hok
    cases hok
    rw [decide_eq_true hlast] at hc
    exact ⟨own', _, hinv', htable.closed hinv ha hone hc⟩

theorem step {ev : Event} (h : TableInv im k) (hok : TableCall k ev.proc ev.call)
    (hstep : ringStep im k ev = some k') : TableInv im k' := by
  unfold ringStep at hstep
  split at hstep
  next huses =>
    obtain ⟨⟨res, k1⟩, hperform, rfl⟩ := Option.map_eq_some_iff.mp hstep
    obtain ⟨hstate, hrun⟩ := perform_eq_some hperform
    have hfails : TableInv im (k.withFails ev.fails) := by
      obtain ⟨own, holds, hinv, htable⟩ := h
      exact ⟨own, holds, hinv.withFails _, htable.withFails _⟩
    have hp : ((k.withFails ev.fails).proc ev.proc).pagetable ≠ 0 := by
      obtain ⟨own, holds, hinv, -⟩ := h
      exact hinv.pagetable_ne_zero hstate
    cases hcall : ev.call with
    | createbuf straddr opdesc retvaddr =>
      rw [hcall] at hrun hok
      obtain ⟨res, k', hcreate, hdone⟩ := FaultM.bind_eq_ok.mp hrun
      cases hdone
      exact hfails.createbuf hp hok hcreate
    | closebuf straddr opdesc =>
      rw [hcall] at hrun hok
      obtain ⟨res, k', hclose, hdone⟩ := FaultM.bind_eq_ok.mp hrun
      cases hdone
      exact hfails.closebuf hp hok hclose
    | fork =>
      rw [hcall] at hrun
      obtain ⟨res, k', hfork, hdone⟩ := FaultM.bind_eq_ok.mp hrun
      cases hdone
      obtain ⟨own, holds, hinv, htable⟩ := hfails
      rcases hinv.fork hp with ⟨res', k', own', np, hforked, hinv', hspawned, -⟩ |
        hfault | hfault
      · rw [hforked] at hfork
        cases hfork
        exact ⟨own', holds, hinv', htable.spawned hinv.procs hspawned⟩
      · rw [hfault] at hfork
        cases hfork
      · rw [hfault] at hfork
        cases hfork
    | _ => rw [hcall] at huses; cases huses
  next => cases hstep

end TableInv

/-- In every run of processes that fork and open and close rings in calls that meet the
condition, the table is consistent: every reference count is the number of ends that the slot
lists, a slot has a name exactly if it is in use, rings in use have different names, and a
process has its flag set exactly if it is listed. -/
theorem ring_table_consistent {im : Image} {k k' : KernelState} {events : List Event}
    (hstart : Started im k)
    (hrun : Run (Guarded (fun k ev => TableCall k ev.proc ev.call) (StepOf (ringStep im))) k
      events k') :
    (∀ j, (k'.ringbufs j).refcount =
        (List.finRange 2).countP fun e => (k'.ringbufs j).pidsRW e ≠ 0) ∧
      (∀ j, (k'.ringbufs j).name ≠ .empty ↔ 0 < (k'.ringbufs j).refcount) ∧
      (∀ i j, i ≠ j → 0 < (k'.ringbufs i).refcount → 0 < (k'.ringbufs j).refcount →
        (k'.ringbufs i).name ≠ (k'.ringbufs j).name) ∧
      ∀ p, (k'.proc p).state ≠ .unused →
        ((k'.proc p).validRingBuf = 1 ↔ ∃ j e, (k'.ringbufs j).pidsRW e = (k'.proc p).pid) := by
  obtain ⟨own, holds, hinv, htable⟩ : TableInv im k' :=
    hrun.invariant_guarded (fun hu hok hstep => hu.step hok hstep) hstart.tableInv
  have hheld : ∀ j, 0 < (k'.ringbufs j).refcount → ∃ a ∈ holds, a.slot = j := by
    intro j hj
    rw [htable.refcount_eq hinv.ledger] at hj
    obtain ⟨a, ha, hslot⟩ := List.countP_pos_iff.mp (by exact_mod_cast hj)
    exact ⟨a, ha, of_decide_eq_true hslot⟩
  refine ⟨fun j => ?_, fun j => ⟨fun hname => ?_, fun hpos => ?_⟩, fun i j hij hi hj heq => ?_,
    fun p hp => htable.flag p fun hzero => hp ((hinv.procs.unused p).mp hzero)⟩
  · rw [htable.refcount_eq hinv.ledger, htable.countP_listed hinv.ledger
      fun a ha => hinv.procs.pid_pos _ (hinv.spaces.held_root a ha)]
  · obtain ⟨a, ha, rfl⟩ := hinv.ledger.named j hname
    exact hinv.ledger.refcount_pos ha
  · obtain ⟨a, ha, rfl⟩ := hheld j hpos
    rw [hinv.ledger.held_name a ha]
    exact CString.safestrcpy_ne_empty (htable.named a ha) (by decide)
  · obtain ⟨a, ha, rfl⟩ := hheld i hi
    obtain ⟨b, hb, rfl⟩ := hheld j hj
    exact hij (htable.distinct a ha b hb heq)

/-- The condition is met by a process that forks and makes the first ring. -/
theorem ring_table_consistent_small : ∃ k', Run (Guarded (fun k ev => TableCall k ev.proc ev.call)
      (StepOf (ringStep smallImage))) smallStart
        [⟨0, .fork, []⟩, ⟨0, .createbuf ringName 0 0, []⟩] k' ∧
    (k'.ringbufs 0).refcount = 1 ∧ (k'.ringbufs 0).name ≠ .empty := by
  obtain ⟨res, hfork⟩ := smallFork_eq
  obtain ⟨own, k', own', hinv, hmake, -, ho, -⟩ := smallFork_make 0 []
  obtain ⟨-, -, hzero⟩ := smallFork_inv
  have hok : TableCall smallFork 0 (.createbuf ringName 0 0) := by
    refine fun _ => ⟨by decide, fun _ => ⟨fun i hi => ?_, ?_⟩⟩
    · rw [hzero] at hi
      exact absurd hi (by decide)
    · rw [hinv.spaces.firstWindow_eq (hinv.pagetable_ne_zero smallFork_procs.1) rfl]
      simp
  have hrun : Run (Guarded (fun k ev => TableCall k ev.proc ev.call)
      (StepOf (ringStep smallImage))) smallStart
        [⟨0, .fork, []⟩, ⟨0, .createbuf ringName 0 0, []⟩] k' := by
    refine Run.cons (t := smallFork) ⟨trivial, ?_⟩ (Run.cons ⟨hok, ?_⟩ Run.nil)
    · simp [StepOf, ringStep, Call.usesRings, hfork]
    · simp [StepOf, ringStep, Call.usesRings, hmake]
  have hcount : (k'.ringbufs 0).refcount = 1 := by
    refine ho.refcount.trans ?_
    show (smallFork.ringbufs 0).refcount + 1 = 1
    rw [hzero]
    rfl
  exact ⟨k', hrun, hcount, ((ring_table_consistent smallStart_started hrun).2.1 0).mpr
    (by rw [hcount]; decide)⟩

/-- Without the condition: a parent and its child open the two ends of a ring, and the table has
two rings of one name. -/
theorem ring_names_collide : ∃ k', Run (StepOf (ringStep smallImage)) smallStart
      [⟨0, .fork, []⟩, ⟨0, .createbuf ringName 0 0, []⟩, ⟨1, .createbuf ringName 1 0, []⟩] k' ∧
    0 < (k'.ringbufs 0).refcount ∧ 0 < (k'.ringbufs 1).refcount ∧
    (k'.ringbufs 0).name = (k'.ringbufs 1).name := by
  obtain ⟨res, hfork⟩ := smallFork_eq
  obtain ⟨k1, k2, own1, own2, hrun1, hrun2, -, -, -, hfound, hcount, hunused, ho2, -⟩ :=
    smallFork_make_twice
  have hslot0 : k2.ringbufs 0 = k1.ringbufs 0 := ho2.other 0 (by decide)
  have hcount1 : (k2.ringbufs 1).refcount = 1 := by
    refine ho2.refcount.trans ?_
    show (k1.ringbufs 1).refcount + 1 = 1
    rw [hunused]
    rfl
  refine ⟨k2, Run.cons (t := smallFork) ?_ (Run.cons (t := k1) ?_ (Run.cons ?_ Run.nil)), ?_, ?_, ?_⟩
  · simp [StepOf, ringStep, Call.usesRings, hfork]
  · simp [StepOf, ringStep, Call.usesRings, hrun1]
  · simp [StepOf, ringStep, Call.usesRings, hrun2]
  · rw [hslot0, hcount]
    decide
  · rw [hcount1]
    decide
  · rw [hslot0, name_of_findName hfound]
    exact ho2.name.symm

end Kernel
end FastIpc
