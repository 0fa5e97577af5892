import FastIpc.Kernel.Closing

/-!
# Detaching a process from its rings

`ringbufCleanup` closes, slot by slot, the ends that list its caller, each under the name
that its slot has at that moment.  It works as long as every ring of the caller is its alone, has
all its pages and is the one found under its name.

Main results:

- Theorem `Detaching.slot`: what one round of the loop does.
- Theorem `Detaching.loop`: what the loop does.
- Theorem `cleanup_detaches`: the process is in no slot and has no window any more.
-/

namespace FastIpc
namespace Kernel

open Foundation FaultM

/-! ## Listings -/

/-- A process is listed only at ends that somebody holds, and the rings in use have names. -/
structure Genuine (holds : List Holding) (k : KernelState) : Prop extends Settled holds k where
  held : ∀ j e, (k.ringbufs j).pidsRW e ≠ 0 → ∃ a ∈ holds, a.slot = j ∧ a.ringEnd = e
  named : ∀ a ∈ holds, (k.ringbufs a.slot).name ≠ .empty

variable {a : Holding} {im : Image} {k : KernelState} {holds : List Holding} {own : Nat → Role}

/-- The other holders of rings, when the only end of one is given up. -/
theorem Ledger.mem_erase {b : Holding} (h : Ledger holds k) (ha : a ∈ holds)
    (hone : (k.ringbufs a.slot).refcount = 1) (hb : b ∈ holds.erase a) :
    b ∈ holds ∧ b.slot ≠ a.slot := by
  have hb' := h.nodup.mem_erase_iff.mp hb
  exact ⟨hb'.2, fun heq => hb'.1 ((h.last_iff ha).mp (by omega) b hb'.2 heq)⟩

namespace Genuine

variable {im : Image} {own own' : Nat → Role} {holds : List Holding} {k k' : KernelState}
  {a : Holding} {newmap last : Bool} {retvaddr : Nat}

theorem congr (h : Genuine holds k) (hrings : k'.ringbufs = k.ringbufs) : Genuine holds k' where
  toSettled := h.toSettled.congr fun _ _ => by rw [hrings]
  held := by
    rw [hrings]
    exact h.held
  named := by
    rw [hrings]
    exact h.named

theorem opened (h : Genuine holds k) (hl : Ledger holds k)
    (ho : Opened im own own' holds a newmap retvaddr k k')
    (hold : newmap = false → ∃ c ∈ holds, c.slot = a.slot) (hname : a.name ≠ .empty) :
    Genuine (a :: holds) k' where
  toSettled := h.toSettled.opened hl ho hold
  held j e he := by
    by_cases hj : j = a.slot
    · subst hj
      rw [ho.pids] at he
      by_cases hend : e = a.ringEnd
      · exact ⟨a, by simp, rfl, hend.symm⟩
      · cases newmap with
        | true => simp [hend] at he
        | false =>
          obtain ⟨b, hb, hslot, hbend⟩ := h.held a.slot e (by simpa [hend] using he)
          exact ⟨b, by simp [hb], hslot, hbend⟩
    · rw [ho.other j hj] at he
      obtain ⟨b, hb, hslot, hbend⟩ := h.held j e he
      exact ⟨b, by simp [hb], hslot, hbend⟩
  named b hb := by
    by_cases hslot : b.slot = a.slot
    · rw [hslot, ho.name]
      cases newmap with
      | true => simpa using CString.safestrcpy_ne_empty hname (by decide)
      | false =>
        obtain ⟨c, hc, hcslot⟩ := hold rfl
        rw [← hcslot]
        exact h.named c hc
    · rw [ho.other _ hslot]
      refine h.named b ((List.mem_cons.mp hb).resolve_left ?_)
      rintro rfl
      exact hslot rfl

theorem closed (h : Genuine holds k) (hl : Ledger holds k) (ha : a ∈ holds)
    (hone : (k.ringbufs a.slot).refcount = 1) (hc : Closed im own own' holds a true k k') :
    Genuine (holds.erase a) k' where
  toSettled := h.toSettled.closed hl ha hone hc
  held j e he := by
    by_cases hj : j = a.slot
    · subst hj
      rw [hc.slot] at he
      exact (he rfl).elim
    · rw [hc.other j hj] at he
      obtain ⟨b, hb, hslot, hbend⟩ := h.held j e he
      refine ⟨b, hl.nodup.mem_erase_iff.mpr ⟨?_, hb⟩, hslot, hbend⟩
      rintro rfl
      exact hj hslot.symm
  named b hb := by
    obtain ⟨hb', hslot⟩ := hl.mem_erase ha hone hb
    rw [hc.other _ hslot]
    exact h.named b hb'

theorem effect {s t : System} {ev : Event} (h : Genuine s.holds s.kernel)
    (hinv : KernelInv im own s.holds s.kernel) (hok : AloneCall s ev)
    (heffect : Effect im own own' s ev t) : Genuine t.holds t.kernel := by
  have h' : Genuine s.holds (s.kernel.withFails ev.fails) := h.congr rfl
  cases heffect with
  | quiet hrings hholds =>
    rw [hholds]
    exact h.congr hrings
  | leaked straddr opdesc retvaddr j hcall hop hmakes hwindow hfree hrings hholds =>
    have hne : ∀ a ∈ s.holds, a.slot ≠ j := fun a ha =>
      hinv.ledger.ne_slot_of_zero (refcount_of_findFree hfree) ha
    rw [hholds]
    refine ⟨h.toSettled.congr fun a ha => by rw [hrings, Function.update_of_ne (hne a ha)],
      fun i e he => ?_, fun a ha => ?_⟩
    · rw [hrings] at he
      by_cases hi : i = j
      · subst hi
        rw [Function.update_self] at he
        exact (he rfl).elim
      · rw [Function.update_of_ne hi] at he
        exact h.held i e he
    · rw [hrings, Function.update_of_ne (hne a ha)]
      exact h.named a ha
  | opened straddr opdesc retvaddr a hcall hop hend ho hholds =>
    have hsafe := hok.createSafe hcall hop
    rw [hholds]
    refine h'.opened (hinv.withFails ev.fails).ledger ho (fun hattaches => ?_) ?_
    · exact hinv.held_of_attaches hsafe.1 (by simpa using hattaches) hend
    · rw [(openedEnd_eq_some hend).2.1]
      exact hsafe.1
  | closed straddr opdesc a hcall ha hend hc hholds =>
    have hone := hok.only hcall hend
    rw [hone] at hc
    rw [hholds]
    exact h'.closed (hinv.withFails ev.fails).ledger ha hone hc

end Genuine

/-- The invariant of runs in which only the only end of a ring is closed. -/
def GenuineInv (im : Image) (s : System) : Prop :=
  (∃ own, KernelInv im own s.holds s.kernel) ∧ Genuine s.holds s.kernel

theorem GenuineInv.step {s t : System} {ev : Event} (h : GenuineInv im s) (hok : AloneCall s ev)
    (hstep : Kernel.step im s ev = some t) : GenuineInv im t := by
  obtain ⟨⟨own, hinv⟩, hgenuine⟩ := h
  obtain ⟨own', hinv', heffect⟩ := hinv.step (hgenuine.toSettled.safeCall hok) hstep
  exact ⟨⟨own', hinv'⟩, hgenuine.effect hinv hok heffect⟩

/-! ## The cleanup -/

/-- Every ring of a process is its alone, has all its pages and is found under its name. -/
def OwnsAlone (holds : List Holding) (k : KernelState) (p : ProcId) : Prop :=
  ∀ a ∈ holds, a.proc = p → (k.ringbufs a.slot).refcount = 1 ∧ (k.ringbufs a.slot).Backed ∧
    findName k (k.ringbufs a.slot).name = some a.slot

theorem findName_eq_some_iff {straddr : CString} {j : Slot} :
    findName k straddr = some j ↔
      (k.ringbufs j).name = straddr ∧ ∀ i < j, (k.ringbufs i).name ≠ straddr := by
  rw [findName, List.find?_eq_some_iff_getElem]
  simp only [decide_eq_true_eq, strcmp_eq_zero_iff, Bool.not_eq_eq_eq_not, Bool.not_true,
    decide_eq_false_iff_not, List.getElem_finRange, List.length_finRange]
  constructor
  · rintro ⟨hname, i, hi, hget, hearlier⟩
    have hval : i = j.val := by simpa using congrArg Fin.val hget
    exact ⟨hname.symm, fun i' hlt heq => hearlier i'.val (by rw [hval]; exact hlt) heq.symm⟩
  · rintro ⟨hname, hearlier⟩
    exact ⟨hname.symm, j.val, j.isLt, rfl, fun i hi heq =>
      hearlier ⟨i, hi.trans j.isLt⟩ hi heq.symm⟩

/-- Emptying one slot does not hide a ring with a name. -/
theorem OwnsAlone.closed {own' : Nat → Role} {k' : KernelState} {p : ProcId}
    (h : OwnsAlone holds k p) (hgenuine : Genuine holds k) (hl : Ledger holds k) (ha : a ∈ holds)
    (hone : (k.ringbufs a.slot).refcount = 1) (hc : Closed im own own' holds a true k k') :
    OwnsAlone (holds.erase a) k' p := by
  intro b hb hproc
  obtain ⟨hb', hslot⟩ := hl.mem_erase ha hone hb
  obtain ⟨hcount, hbacked, hfound⟩ := h b hb' hproc
  obtain ⟨-, hearlier⟩ := findName_eq_some_iff.mp hfound
  rw [hc.other _ hslot]
  refine ⟨hcount, hbacked, findName_eq_some_iff.mpr ⟨by rw [hc.other _ hslot], fun i hi => ?_⟩⟩
  by_cases hia : i = a.slot
  · rw [hia, hc.slot]
    exact (hgenuine.named b hb').symm
  · rw [hc.other i hia]
    exact hearlier i hi

/-- What has happened when the slots of a list have been cleaned up for a process. -/
structure Detaching (im : Image) (p : ProcId) (slots : List Slot) (own own' : Nat → Role)
    (holds holds' : List Holding) (k k' : KernelState) : Prop where
  inv : KernelInv im own' holds' k'
  genuine : Genuine holds' k'
  alone : OwnsAlone holds' k' p
  mem_iff : ∀ b, b ∈ holds' ↔ b ∈ holds ∧ ¬(b.proc = p ∧ b.slot ∈ slots)
  slot_eq : ∀ b ∈ holds', k'.ringbufs b.slot = k.ringbufs b.slot
  free_iff : ∀ page, own' page = .free ↔ own page = .free ∨
    ∃ a ∈ holds, a.proc = p ∧ a.slot ∈ slots ∧ page ∈ (k.ringbufs a.slot).pages
  proc : ∀ q, (k'.proc q).pagetable = (k.proc q).pagetable ∧ (k'.proc q).pid = (k.proc q).pid

namespace Detaching

variable {im : Image} {p : ProcId} {own own1 own2 : Nat → Role} {holds holds1 holds2 : List Holding}
  {k k1 k2 : KernelState} {slots slots' : List Slot} {i : Slot}

theorem refl (hinv : KernelInv im own holds k) (hgenuine : Genuine holds k)
    (halone : OwnsAlone holds k p) (hnone : ∀ b ∈ holds, b.proc = p → b.slot ∉ slots) :
    Detaching im p slots own own holds holds k k where
  inv := hinv
  genuine := hgenuine
  alone := halone
  mem_iff b := ⟨fun hb => ⟨hb, fun h => hnone b hb h.1 h.2⟩, And.left⟩
  slot_eq _ _ := rfl
  free_iff page := by
    refine ⟨.inl, fun h => h.resolve_right ?_⟩
    rintro ⟨a, ha, hproc, hslot, -⟩
    exact hnone a ha hproc hslot
  proc _ := ⟨rfl, rfl⟩

theorem trans (h : Detaching im p slots own own1 holds holds1 k k1)
    (h' : Detaching im p slots' own1 own2 holds1 holds2 k1 k2) :
    Detaching im p (slots ++ slots') own own2 holds holds2 k k2 where
  inv := h'.inv
  genuine := h'.genuine
  alone := h'.alone
  mem_iff b := by
    rw [h'.mem_iff, h.mem_iff, List.mem_append]
    tauto
  slot_eq b hb := by
    rw [h'.slot_eq b hb, h.slot_eq b ((h'.mem_iff b).mp hb).1]
  free_iff page := by
    rw [h'.free_iff, h.free_iff, or_assoc]
    refine or_congr_right ⟨?_, ?_⟩
    · rintro (⟨a, ha, hproc, hslot, hpage⟩ | ⟨a, ha, hproc, hslot, hpage⟩)
      · exact ⟨a, ha, hproc, by simp [hslot], hpage⟩
      · rw [h.slot_eq a ha] at hpage
        exact ⟨a, ((h.mem_iff a).mp ha).1, hproc, by simp [hslot], hpage⟩
    · rintro ⟨a, ha, hproc, hslot, hpage⟩
      by_cases hfirst : a.slot ∈ slots
      · exact .inl ⟨a, ha, hproc, hfirst, hpage⟩
      · have ha1 : a ∈ holds1 := (h.mem_iff a).mpr ⟨ha, fun hin => hfirst hin.2⟩
        refine .inr ⟨a, ha1, hproc, (List.mem_append.mp hslot).resolve_left hfirst, ?_⟩
        rwa [h.slot_eq a ha1]
  proc q := ⟨(h'.proc q).1.trans (h.proc q).1, (h'.proc q).2.trans (h.proc q).2⟩

variable (hinv : KernelInv im own holds k) (hgenuine : Genuine holds k)
include hinv hgenuine

/-- Closing the only end of a ring cleans its slot up. -/
theorem of_closed (halone : OwnsAlone holds k a.proc) (ha : a ∈ holds)
    (hinv1 : KernelInv im own1 (holds.erase a) k1) (hc : Closed im own own1 holds a true k k1) :
    Detaching im a.proc [a.slot] own own1 holds (holds.erase a) k k1 := by
  have hone := (halone a ha rfl).1
  have honly := (hinv.ledger.last_iff ha).mp (by omega)
  refine ⟨hinv1, hgenuine.closed hinv.ledger ha hone hc,
    halone.closed hgenuine hinv.ledger ha hone hc, fun b => ?_, fun b hb => ?_, fun page => ?_,
    fun q => ?_⟩
  · rw [hinv.ledger.nodup.mem_erase_iff, List.mem_singleton]
    constructor
    · rintro ⟨hne, hb⟩
      exact ⟨hb, fun h => hne (honly b hb h.2)⟩
    · rintro ⟨hb, hnot⟩
      refine ⟨?_, hb⟩
      rintro rfl
      exact hnot ⟨rfl, rfl⟩
  · exact hc.other _ (hinv.ledger.mem_erase ha hone hb).2
  · have hring : (∃ b ∈ holds, b.proc = a.proc ∧ b.slot ∈ [a.slot] ∧
        page ∈ (k.ringbufs b.slot).pages) ↔ page ∈ (k.ringbufs a.slot).pages := by
      constructor
      · rintro ⟨b, -, -, hslot, hpage⟩
        rwa [List.mem_singleton.mp hslot] at hpage
      · exact fun hpage => ⟨a, ha, rfl, by simp, hpage⟩
    rw [hc.unmapped.own_eq, hring, Ringbuf.mem_pages]
    split
    next h => simp [h.2]
    next h => simp [not_and.mp h rfl]
  · rw [hc.proc]
    exact ⟨(proc_flag_update k a.proc q _).1, (proc_flag_update k a.proc q _).2.2.2⟩

/-- One test of the cleanup: the end lists the process, and then it is closed, or not. -/
theorem endOf (halone : OwnsAlone holds k p) (hp : (k.proc p).pagetable ≠ 0) (i : Slot)
    (e : RingEnd) :
    (cleanupEnd im p i e k = .ok ((), k) ∧ (k.ringbufs i).pidsRW e ≠ (k.proc p).pid) ∨
      ∃ k1 own1 holds1, cleanupEnd im p i e k = .ok ((), k1) ∧
        Detaching im p [i] own own1 holds holds1 k k1 ∧ ∀ e', (k1.ringbufs i).pidsRW e' = 0 := by
  rw [cleanupEnd, bind_of_ok (get_apply k)]
  split
  next hlisted =>
    -- The process holds the end, since listings are genuine and identifiers differ.
    obtain ⟨a, ha, rfl, rfl⟩ := hgenuine.held i e (by rw [hlisted]; exact hinv.procs.pid_pos p hp)
    rw [hinv.ledger.held_pid a ha] at hlisted
    obtain rfl := hinv.procs.pid_inj _ _ (hinv.spaces.held_root a ha) hp hlisted
    obtain ⟨hone, hbacked, hfound⟩ := halone a ha rfl
    obtain ⟨k1, own1, hclose, hc, hinv1⟩ := hinv.close ha hfound (hgenuine.vabuf a ha hone)
      (fun _ => hbacked) (a.ringEnd.val : Int)
    rw [hone] at hc
    refine .inr ⟨k1, own1, holds.erase a, ?_, of_closed hinv hgenuine halone ha hinv1 hc,
      fun e' => ?_⟩
    · rw [bind_of_ok hclose]
      rfl
    · rw [hc.slot]
      rfl
  next hlisted => exact .inl ⟨rfl, hlisted⟩

/-- One round of the loop. -/
theorem slot (halone : OwnsAlone holds k p) (hp : (k.proc p).pagetable ≠ 0) (i : Slot) :
    ∃ k1 own1 holds1, (do cleanupEnd im p i 0; cleanupEnd im p i 1) k = .ok ((), k1) ∧
      Detaching im p [i] own own1 holds holds1 k k1 := by
  rcases endOf hinv hgenuine halone hp i 0 with ⟨hread, hnot⟩ | ⟨k1, own1, holds1, hread, h, hclear⟩
  · rcases endOf hinv hgenuine halone hp i 1 with
      ⟨hwrite, hnot'⟩ | ⟨k1, own1, holds1, hwrite, h, -⟩
    · refine ⟨k, own, holds, by rw [bind_of_ok hread, hwrite], refl hinv hgenuine halone ?_⟩
      rintro b hb rfl hslot
      have hpid := hinv.ledger.held_pid b hb
      rw [List.mem_singleton.mp hslot] at hpid
      by_cases hend : b.ringEnd = 0
      · exact hnot (hend ▸ hpid)
      · rw [ringEnd_eq_other hend] at hpid
        exact hnot' hpid
    · exact ⟨k1, own1, holds1, by rw [bind_of_ok hread, hwrite], h⟩
  · -- The slot has just been emptied.
    refine ⟨k1, own1, holds1, ?_, h⟩
    rw [bind_of_ok hread, cleanupEnd, bind_of_ok (get_apply k1), hclear,
      (h.proc p).2, if_neg (hinv.procs.pid_pos p hp).symm]
    rfl

/-- The loop. -/
theorem loop (halone : OwnsAlone holds k p) (hp : (k.proc p).pagetable ≠ 0) (slots : List Slot) :
    ∃ k1 own1 holds1, cleanupLoop im p slots k = .ok ((), k1) ∧
      Detaching im p slots own own1 holds holds1 k k1 := by
  induction slots generalizing own holds k with
  | nil => exact ⟨k, own, holds, rfl, refl hinv hgenuine halone (by simp)⟩
  | cons i rest ih =>
    obtain ⟨k1, own1, holds1, hslot, h1⟩ := slot hinv hgenuine halone hp i
    obtain ⟨k2, own2, holds2, hrest, h2⟩ := ih h1.inv h1.genuine h1.alone
      (by rwa [(h1.proc p).1])
    refine ⟨k2, own2, holds2, ?_, h1.trans h2⟩
    obtain ⟨_, k', hread, hwrite⟩ := bind_eq_ok.mp hslot
    rw [cleanupLoop, bind_of_ok hread, bind_of_ok hwrite, hrest]

end Detaching

/-- A process is detached from the rings: it is in no slot and has no window, whoever else holds
an end still has it with the same pages, and the pages of its rings are on the free list, each
once. -/
structure Detached (holds : List Holding) (p : ProcId) (k k' : KernelState) : Prop where
  unlisted : ∀ j e, (k'.ringbufs j).pidsRW e ≠ (k.proc p).pid
  kept : ∀ b ∈ holds, b.proc ≠ p → k'.ringbufs b.slot = k.ringbufs b.slot ∧
    ∀ i < 33, translate k'.ram.mem (k'.proc b.proc).pagetable (window b.window + i * pgSize) =
      translate k.ram.mem (k.proc b.proc).pagetable (window b.window + i * pgSize)
  unmapped : ∀ w, ∀ i < 34, leaf k'.ram.mem (k'.proc p).pagetable (window w + i * pgSize) = 0
  freed : ∃ l l', Threaded k.ram.mem k.ram.freelist l ∧ Threaded k'.ram.mem k'.ram.freelist l' ∧
    l'.Nodup ∧ (∀ page, page ∈ l' ↔ page ∈ l ∨
      ∃ a ∈ holds, a.proc = p ∧ page ∈ (k.ringbufs a.slot).pages) ∧
    ∀ a ∈ holds, a.proc = p → ∀ page ∈ (k.ringbufs a.slot).pages, page ∉ l

theorem KernelInv.not_free_of_page {page : Nat} (h : KernelInv im own holds k) (ha : a ∈ holds)
    (hbacked : (k.ringbufs a.slot).Backed) (hpage : page ∈ (k.ringbufs a.slot).pages) :
    own page ≠ .free := by
  have hring := h.spaces.held_pages a ha
  intro hfree
  rcases Ringbuf.mem_pages.mp hpage with ⟨i, rfl⟩ | rfl
  · cases ((hring.data i).resolve_left (hbacked.1 i)).symm.trans hfree
  · cases (hring.book.resolve_left hbacked.2).symm.trans hfree

theorem Detaching.detached {p : ProcId} {own' : Nat → Role} {holds' : List Holding}
    {k' : KernelState} (h : Detaching im p (List.finRange maxRingbufs) own own' holds holds' k k')
    (hinv : KernelInv im own holds k) (halone : OwnsAlone holds k p)
    (hp : (k.proc p).pagetable ≠ 0) : Detached holds p k k' := by
  have hmem : ∀ b, b ∈ holds' ↔ b ∈ holds ∧ b.proc ≠ p := fun b => by
    simp [h.mem_iff b]
  have hp' : (k'.proc p).pagetable ≠ 0 := by rwa [(h.proc p).1]
  refine ⟨fun j e hlisted => ?_, fun b hb hproc => ?_, fun w i hi => ?_, ?_⟩
  · obtain ⟨a, ha, rfl, rfl⟩ := h.genuine.held j e (by rw [hlisted]; exact hinv.procs.pid_pos p hp)
    rw [h.inv.ledger.held_pid a ha, ← (h.proc p).2] at hlisted
    exact ((hmem a).mp ha).2 (h.inv.procs.pid_inj _ _ (h.inv.spaces.held_root a ha) hp' hlisted)
  · have hb' := (hmem b).mpr ⟨hb, hproc⟩
    refine ⟨h.slot_eq b hb', fun i hi => ?_⟩
    rw [h.inv.translate_eq hb' hi, hinv.translate_eq hb hi, h.slot_eq b hb']
  · refine h.inv.spaces.leaf_of_none hp' ?_ hi
    cases hat : heldAt holds' p w with
    | none => rfl
    | some a =>
      obtain ⟨ha, hproc, -⟩ := mem_of_heldAt hat
      exact (((hmem a).mp ha).2 hproc).elim
  · obtain ⟨l, hl, -, hfree⟩ := hinv.spaces.owned.free
    obtain ⟨l', hl', hnodup', hfree'⟩ := h.inv.spaces.owned.free
    refine ⟨l, l', hl, hl', hnodup', fun page => ?_, fun a ha hproc page hpage hin => ?_⟩
    · rw [hfree', h.free_iff, hfree]
      simp
    · exact hinv.not_free_of_page ha (halone a ha hproc).2.1 hpage ((hfree page).mp hin)

/-- In every state that is reached by safe calls that close only the only end of a ring,
`ringbufCleanup` of a process whose rings are its alone, have all their pages and are found
under their names returns 0 and detaches the process. -/
theorem cleanup_detaches {im : Image} {k : KernelState} {s : System} {events : List Event}
    (hstart : Started im k) (hrun : Run (Guarded AloneCall (StepOf (step im))) ⟨k, []⟩ events s)
    {p : ProcId} (hp : (s.kernel.proc p).state = .runnable)
    (halone : OwnsAlone s.holds s.kernel p) :
    ∃ k', ringbufCleanup im p s.kernel = .ok (0, k') ∧ Detached s.holds p s.kernel k' := by
  obtain ⟨⟨own, hinv⟩, hgenuine⟩ : GenuineInv im s := hrun.invariant_guarded GenuineInv.step
    ⟨hstart.kernelInv.1, (Exact.of_zero hstart.kernelInv.2.1).toSettled,
      fun j e he => by rw [hstart.kernelInv.2.1 j] at he; exact (he rfl).elim, by simp⟩
  have hroot := hinv.pagetable_ne_zero hp
  obtain ⟨k', own', holds', hloop, hdetaching⟩ :=
    Detaching.loop hinv hgenuine halone hroot (List.finRange maxRingbufs)
  refine ⟨k', ?_, hdetaching.detached hinv halone hroot⟩
  rw [ringbufCleanup, bind_of_ok hloop]
  rfl

/-- A parent makes a ring and is detached from it. -/
theorem cleanup_detaches_small : ∃ s k',
    Run (Guarded AloneCall (StepOf (step smallImage))) ⟨smallStart, []⟩
      [⟨0, .fork, []⟩, ⟨0, .createbuf ringName 0 0, []⟩] s ∧ parentEnd ∈ s.holds ∧
    ringbufCleanup smallImage 0 s.kernel = .ok (0, k') ∧ Detached s.holds 0 s.kernel k' := by
  obtain ⟨k1, -, -, -, hmake, -, -, -, hbacked, hfound, hcount, -⟩ := smallFork_make_twice
  have hsafe : AloneCall ⟨smallFork, []⟩ ⟨0, .createbuf ringName 0 0, []⟩ := fun _ =>
    ⟨by decide, fun hnone => by rw [smallFork_free] at hnone; cases hnone⟩
  have hrun : Run (Guarded AloneCall (StepOf (step smallImage))) ⟨smallStart, []⟩
      [⟨0, .fork, []⟩, ⟨0, .createbuf ringName 0 0, []⟩] ⟨k1, [parentEnd]⟩ :=
    Run.cons ⟨trivial, smallFork_step⟩ (Run.cons ⟨hsafe, smallFork_make_step hmake⟩ Run.nil)
  have hstate : (k1.proc 0).state = .runnable := by
    obtain ⟨own, k', own', -, hmake', -, ho, -⟩ := smallFork_make 0 []
    obtain rfl : k' = k1 := by simpa using hmake'.symm.trans hmake
    rw [ho.proc]
    exact smallFork_procs.1
  have halone : OwnsAlone [parentEnd] k1 0 := by
    intro a ha _
    rw [List.mem_singleton.mp ha, show parentEnd.slot = 0 from rfl, name_of_findName hfound]
    exact ⟨hcount, hbacked, hfound⟩
  obtain ⟨k', hcleanup, hdetached⟩ := cleanup_detaches smallStart_started hrun hstate halone
  exact ⟨_, k', hrun, by simp, hcleanup, hdetached⟩

/-- The pages of a ring could not be allocated, and yet it was made.  The cleanup frees the null
page. -/
theorem cleanup_panics : ∃ s, Run (StepOf (step smallImage)) ⟨smallStart, []⟩
      [⟨0, .createbuf ringName 0 0, List.replicate 17 true⟩] s ∧
    ringbufCleanup smallImage 0 s.kernel = .error (.panic "kfree") := by
  have hok : (match Foundation.exec (step smallImage) ⟨smallStart, []⟩
        [⟨0, .createbuf ringName 0 0, List.replicate 17 true⟩] with
      | some s => match ringbufCleanup smallImage 0 s.kernel with
        | .ok _ => false
        | .error e => decide (e = .panic "kfree")
      | none => false) = true := by decide +kernel
  split at hok
  next s hexec =>
    refine ⟨s, run_of_exec hexec, ?_⟩
    split at hok
    next => cases hok
    next e herror => rw [herror, of_decide_eq_true hok]
  next => cases hok

end Kernel
end FastIpc
