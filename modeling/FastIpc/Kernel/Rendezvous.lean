import FastIpc.Kernel.RingTable

/-!
# Opening a ring

Two processes meet by the name of a ring: the first call of `createbuf` makes it, the
second one attaches to it.  The search for the name does not always lead to the ring, because
a ring in slot 0 is not attached to and because names are cut off after seven bytes.  Nor does
a call of `createbuf` always do all or nothing: failed page allocations and an unusable
result address are not noticed, and a ring that cannot be mapped stays counted.

Main results:

- Theorem `rendezvous_by_name`: when two processes see the same pages.
- Theorem `createbuf_all_or_nothing`: when a call opens an end or changes nothing.
-/

namespace FastIpc
namespace Kernel

open Foundation

/-! ## Meeting by name -/

/-- The physical page that an address is mapped to. -/
def translate (m : Memory) (r va : Nat) : Option Nat := childOf (leaf m r va)

/-- The search for a name leads to the ring that is held under it, not in slot 0, and to no
ring if none is. -/
def NameSafe (s : System) (straddr : CString) : Prop :=
  (∀ a ∈ s.holds, a.name = straddr → findName s.kernel straddr = some a.slot ∧ 0 < a.slot.val) ∧
  ((∀ a ∈ s.holds, a.name ≠ straddr) → findName s.kernel straddr = none)

instance (s : System) (straddr : CString) : Decidable (NameSafe s straddr) :=
  inferInstanceAs (Decidable ((∀ _ ∈ _, _ → _ ∧ _) ∧ ((∀ _ ∈ _, _) → _)))

variable {im : Image} {k : KernelState} {own : Nat → Role} {s : System}

theorem NameSafe.createSafe {straddr : CString} (h : NameSafe s straddr)
    (hname : straddr ≠ .empty) : CreateSafe s.kernel straddr := by
  refine ⟨hname, fun _ j hfound => ?_⟩
  by_cases hheld : ∃ a ∈ s.holds, a.name = straddr
  · obtain ⟨a, ha, haname⟩ := hheld
    obtain ⟨hslot, hpos⟩ := h.1 a ha haname
    rw [hfound] at hslot
    exact Option.some.inj hslot ▸ hpos
  · rw [h.2 fun a ha heq => hheld ⟨a, ha, heq⟩] at hfound
    cases hfound

theorem KernelInv.translate_eq {holds : List Holding} {a : Holding} (h : KernelInv im own holds k)
    (ha : a ∈ holds) {i : Nat} (hi : i < 33) :
    translate k.ram.mem (k.proc a.proc).pagetable (window a.window + i * pgSize) =
      some ((k.ringbufs a.slot).pageAt i) := by
  rw [translate, h.spaces.leaf_of_mem ha hi, childOf, if_pos (mkPte_valid ringPerm_lt),
    (h.spaces.held_pages a ha).pte2pa_pageAt h.spaces.owned]

/-- The invariant holds in every state that safe calls reach. -/
theorem Started.kernelInv_of_run {events : List Event} {ok : System → Event → Prop}
    (hok : ∀ s ev, ok s ev → SafeCall s ev.proc ev.call) (hstart : Started im k)
    (hrun : Run (Guarded ok (StepOf (step im))) ⟨k, []⟩ events s) :
    ∃ own, KernelInv im own s.holds s.kernel :=
  @Run.invariant_guarded _ _ _ _ (fun s => ∃ own, KernelInv im own s.holds s.kernel) _ _ _
    (fun ⟨_, hinv⟩ hev hstep => (hinv.step (hok _ _ hev) hstep).imp fun _ h => h.1)
    hrun hstart.kernelInv.1

/-- In every state that safe calls reach, for every name that the search leads right: a process
that opens the free end of a ring gets the pages of the process at the other end; a process that
opens an end of a new ring gets pages that were free, provided that its page allocations succeed;
and an end that is held is not opened again. -/
theorem rendezvous_by_name {im : Image} {k : KernelState} {s : System} {events : List Event}
    (hstart : Started im k)
    (hrun : Run (Guarded (fun s ev => SafeCall s ev.proc ev.call) (StepOf (step im))) ⟨k, []⟩
      events s)
    {q : ProcId} {straddr : CString} {opdesc : Int} (retvaddr : Nat) (fails : List Bool)
    (hq : (s.kernel.proc q).state = .runnable) (hop : opdesc = 0 ∨ opdesc = 1)
    (hname : straddr ≠ .empty) (hsafe : NameSafe s straddr) :
    (∀ p ∈ s.holds, p.name = straddr → p.ringEnd = 1 - ringEndOf opdesc →
      (∀ a ∈ s.holds, a.name = straddr → a.ringEnd ≠ ringEndOf opdesc) →
      ∀ res k', createbuf im q straddr opdesc retvaddr (s.kernel.withFails fails) = .ok (res, k') →
        0 ≤ res → res = 0 ∧ ∃ a, openedEnd s.kernel q straddr opdesc = some a ∧ ∀ i < 33,
          ∃ page, translate k'.ram.mem (k'.proc q).pagetable (window a.window + i * pgSize) =
              some page ∧
            translate k'.ram.mem (k'.proc p.proc).pagetable (window p.window + i * pgSize) =
              some page) ∧
    ((∀ a ∈ s.holds, a.name ≠ straddr) → (s.kernel.withFails fails).ram.Supplies (ringbufSize + 1) →
      ∀ res k', createbuf im q straddr opdesc retvaddr (s.kernel.withFails fails) = .ok (res, k') →
        0 ≤ res → res = 1 ∧ ∃ a, openedEnd s.kernel q straddr opdesc = some a ∧ ∀ i < 33,
          ∃ page, translate k'.ram.mem (k'.proc q).pagetable (window a.window + i * pgSize) =
            some page ∧ s.kernel.ram.OnFreeList page) ∧
    ((∃ a ∈ s.holds, a.name = straddr ∧ a.ringEnd = ringEndOf opdesc) →
      createbuf im q straddr opdesc retvaddr (s.kernel.withFails fails) =
        .ok (-1, s.kernel.withFails fails)) := by
  obtain ⟨own, hinv⟩ := hstart.kernelInv_of_run (fun _ _ => id) hrun
  have hp : ((s.kernel.withFails fails).proc q).pagetable ≠ 0 := hinv.pagetable_ne_zero hq
  have hvalid : ¬(opdesc < 0 ∨ 1 < opdesc) := by omega
  have hfails := hinv.withFails fails
  -- A call that succeeds has opened an end.
  have hopened : ∀ {res k'},
      createbuf im q straddr opdesc retvaddr (s.kernel.withFails fails) = .ok (res, k') → 0 ≤ res →
      ∃ a own', openedEnd s.kernel q straddr opdesc = some a ∧
        res = (if (findName s.kernel straddr).isSome then 0 else 1) ∧
        Opened im own own' s.holds a (!attaches s.kernel straddr) retvaddr
          (s.kernel.withFails fails) k' ∧
        KernelInv im own' (a :: s.holds) k' := by
    intro res k' hcall hres
    rcases hfails.createbuf_cases hp (fun _ => hsafe.createSafe hname) hcall with ⟨rfl, -⟩ |
      ⟨-, ⟨rfl, -⟩ | hopened⟩
    · exact absurd hres (by decide)
    · exact absurd hres (by decide)
    · exact hopened
  refine ⟨fun p hp' hpname _ _ res k' hcall hres => ?_, fun hnew hsupply res k' hcall hres => ?_, ?_⟩
  · obtain ⟨hfound, hpos⟩ := hsafe.1 p hp' hpname
    have hattaches : attaches s.kernel straddr = true := attaches_iff.mpr ⟨_, hfound, hpos⟩
    obtain ⟨a, own', hend, rfl, -, hinv'⟩ := hopened hcall hres
    obtain ⟨rfl, -, -, htarget, -⟩ := openedEnd_eq_some hend
    rw [targetSlot, if_pos hattaches, hfound] at htarget
    refine ⟨by rw [hfound]; rfl, a, hend, fun i hi => ⟨(k'.ringbufs a.slot).pageAt i, ?_, ?_⟩⟩
    · exact hinv'.translate_eq (by simp) hi
    · rw [← Option.some.inj htarget]
      exact hinv'.translate_eq (by simp [hp']) hi
  · have hfound := hsafe.2 hnew
    have hattaches : attaches s.kernel straddr = false :=
      attaches_eq_false_iff.mpr fun j hj => by rw [hfound] at hj; cases hj
    obtain ⟨a, own', hend, rfl, ho, hinv'⟩ := hopened hcall hres
    obtain ⟨rfl, -⟩ := openedEnd_eq_some hend
    rw [hattaches] at ho
    obtain ⟨hdata, hbook⟩ := ho.supply rfl hsupply
    refine ⟨by rw [hfound]; rfl, a, hend, fun i hi => ⟨_, hinv'.translate_eq (by simp) hi, ?_⟩⟩
    refine hinv.spaces.owned.onFreeList_iff.mpr ((ho.fresh rfl i).resolve_left ?_)
    unfold Ringbuf.pageAt
    split
    next => exact hdata _
    next => exact hbook
  · rintro ⟨a, ha, haname, haend⟩
    obtain ⟨hfound, hpos⟩ := hsafe.1 a ha haname
    refine createbuf_taken hvalid hfound hpos (.inl ?_)
    rw [← haend]
    show (s.kernel.ringbufs a.slot).pidsRW a.ringEnd ≠ 0
    rw [hinv.ledger.held_pid a ha]
    exact hinv.procs.pid_pos _ (hinv.spaces.held_root a ha)

/-- The name `a`. -/
def letterName : CString := ⟨[0x61], by decide⟩

/-- A parent makes two rings, and its child opens the other end of the second. -/
theorem rendezvous_small : ∃ s k',
    Run (Guarded (fun s ev => SafeCall s ev.proc ev.call) (StepOf (step smallImage)))
      ⟨smallStart, []⟩ [⟨0, .fork, []⟩, ⟨0, .createbuf letterName 0 0, []⟩,
        ⟨0, .createbuf ringName 0 0, []⟩] s ∧
    createbuf smallImage 1 ringName 1 0 (s.kernel.withFails []) = .ok (0, k') ∧
    ∃ p ∈ s.holds, p.proc = 0 ∧ p.name = ringName ∧
      ∃ a, openedEnd s.kernel 1 ringName 1 = some a ∧ ∀ i < 33, ∃ page,
        translate k'.ram.mem (k'.proc 1).pagetable (window a.window + i * pgSize) = some page ∧
        translate k'.ram.mem (k'.proc p.proc).pagetable (window p.window + i * pgSize) =
          some page := by
  have hexec : (Foundation.exec (guardStep (fun s ev => SafeCall s ev.proc ev.call)
      (step smallImage)) ⟨smallStart, []⟩ [⟨0, .fork, []⟩, ⟨0, .createbuf letterName 0 0, []⟩,
        ⟨0, .createbuf ringName 0 0, []⟩]).any (fun s => decide (
      (createbuf smallImage 1 ringName 1 0 (s.kernel.withFails [])).toOption.map Prod.fst = some 0 ∧
      (s.kernel.proc 1).state = .runnable ∧ NameSafe s ringName ∧
      (∃ p ∈ s.holds, p.proc = 0 ∧ p.name = ringName ∧ p.ringEnd = 0) ∧
      ∀ a ∈ s.holds, a.name = ringName → a.ringEnd ≠ 1)) = true := by
    decide +kernel
  obtain ⟨s, hs, hres⟩ := (Option.any_eq_true _ _).mp hexec
  obtain ⟨hcall, hstate, hsafe, ⟨p, hp, hproc, hname, hend⟩, hfree⟩ := of_decide_eq_true hres
  have hrun := run_guarded_of_exec hs
  cases hcreate : createbuf smallImage 1 ringName 1 0 (s.kernel.withFails []) with
  | error e => simp [hcreate, Except.toOption] at hcall
  | ok r =>
    obtain ⟨res, k'⟩ := r
    obtain rfl : res = 0 := by simpa [hcreate, Except.toOption] using hcall
    obtain ⟨hmeet, -⟩ := rendezvous_by_name smallStart_started hrun 0 [] hstate (.inr rfl)
      (by decide) hsafe
    exact ⟨s, k', hrun, hcreate, p, hp, hproc, hname,
      (hmeet p hp hname hend hfree 0 k' hcreate (by decide)).2⟩

/-- A parent makes the first ring and its child asks for the other end by the same name.  The
call succeeds, but the child sees other pages. -/
theorem rendezvous_missed : ∃ s, Run (StepOf (step smallImage)) ⟨smallStart, []⟩
      [⟨0, .fork, []⟩, ⟨0, .createbuf ringName 0 0, []⟩] s ∧
    s.holds = [parentEnd] ∧ ∃ k',
      createbuf smallImage 1 ringName 1 0 (s.kernel.withFails []) = .ok (0, k') ∧
      openedEnd s.kernel 1 ringName 1 = some childEnd ∧
      translate k'.ram.mem (k'.proc childEnd.proc).pagetable (window childEnd.window) ≠
        translate k'.ram.mem (k'.proc parentEnd.proc).pagetable (window parentEnd.window) := by
  obtain ⟨k1, k2, own1, own2, hrun1, hrun2, hend, hinv1, hbacked, -, -, -, ho2, hinv2⟩ :=
    smallFork_make_twice
  refine ⟨⟨k1, [parentEnd]⟩, Run.cons smallFork_step
    (Run.cons (smallFork_make_step hrun1) Run.nil), rfl, k2, createbuf_of_perform hrun2, hend, ?_⟩
  have hchild := hinv2.translate_eq (a := childEnd) (i := 0) (by simp) (by decide)
  have hparent := hinv2.translate_eq (a := parentEnd) (i := 0) (by simp) (by decide)
  rw [Nat.zero_mul, Nat.add_zero] at hchild hparent
  rw [hchild, hparent, show k2.ringbufs parentEnd.slot = k1.ringbufs 0 from ho2.other 0 (by decide)]
  -- The page of the first ring is in use when the second one is made.
  have hused : (k1.ringbufs 0).pageAt 0 ≠ 0 := hbacked.1 _
  intro heq
  rcases ho2.fresh rfl 0 with hnull | hfree
  · rw [hnull] at heq
    exact hused (Option.some.inj heq).symm
  · rw [Option.some.inj heq] at hfree
    rcases (hinv1.spaces.held_pages parentEnd (by simp)).pageAt 0 with hnull | hrole
    · exact hused hnull
    · rw [show k1.ringbufs parentEnd.slot = k1.ringbufs 0 from rfl, hfree] at hrole
      cases hrole

/-! ## All or nothing -/

/-- User code of `p` may write at an address, now or once the first free window is mapped. -/
def Writable (k : KernelState) (p : ProcId) (va : Nat) : Prop :=
  userPage k.ram.mem (k.proc p).pagetable (pgRoundDown va) ≠ 0 ∨
    ∃ w, firstWindow k.ram.mem (k.proc p).pagetable = some w ∧ window w ≤ va ∧
      va < window w + 33 * pgSize

/-- There is room for what `createbuf` is asked to do: the result fits at its address, and
for a new ring there are a slot, a window and seventeen pages. -/
def RoomyCreate (k : KernelState) (p : ProcId) (straddr : CString) (opdesc : Int)
    (retvaddr : Nat) : Prop :=
  ¬(opdesc < 0 ∨ 1 < opdesc) → CreateSafe k straddr ∧ (∀ i < 8, Writable k p (retvaddr + i)) ∧
    (attaches k straddr = false → findFree k ≠ none ∧
      firstWindow k.ram.mem (k.proc p).pagetable ≠ none ∧ k.ram.Supplies (ringbufSize + 1))

/-- A call of `createbuf` for which there is room, or another safe call. -/
def RoomyCall (s : System) (ev : Event) : Prop :=
  SafeCall s ev.proc ev.call ∧ ∀ straddr opdesc retvaddr,
    ev.call = .createbuf straddr opdesc retvaddr →
    RoomyCreate (s.kernel.withFails ev.fails) ev.proc straddr opdesc retvaddr

/-- No window shows a null page. -/
def AllBacked (holds : List Holding) (k : KernelState) : Prop :=
  ∀ a ∈ holds, (k.ringbufs a.slot).Backed

theorem Ringbuf.Backed.pageAt_ne_zero {b : Ringbuf} (h : b.Backed) (i : Nat) : b.pageAt i ≠ 0 := by
  unfold Ringbuf.pageAt
  split
  next => exact h.1 _
  next => exact h.2

theorem ringPte_user (pa : Nat) : mkPte pa ringPerm &&& pteU ≠ 0 := by
  rw [mkPte_and ringPerm_lt (by decide)]
  decide

theorem userPage_of_ring {m : Memory} {r va pa : Nat} (hva : va < maxVA)
    (hleaf : leaf m r va = mkPte pa ringPerm) : userPage m r va = pte2pa (mkPte pa ringPerm) := by
  rw [userPage, if_neg (by omega), hleaf, if_neg (mkPte_valid ringPerm_lt), if_neg (ringPte_user pa)]

/-- If no window shows a null page, the first free window is empty. -/
theorem KernelInv.heldAt_firstWindow {holds : List Holding} {p : ProcId} {w : Fin 10}
    (h : KernelInv im own holds k) (hbacked : AllBacked holds k)
    (hw : firstWindow k.ram.mem (k.proc p).pagetable = some w) : heldAt holds p w = none := by
  cases hat : heldAt holds p w with
  | none => rfl
  | some c =>
    obtain ⟨hc, rfl, rfl⟩ := mem_of_heldAt hat
    have hleaf := h.spaces.leaf_of_mem hc (i := 0) (by decide)
    rw [Nat.zero_mul, Nat.add_zero] at hleaf
    have hlt : window c.window < maxVA := lt_of_le_of_lt (Nat.le_add_right _ _) (window_end_lt _)
    have hpage := userPage_of_ring hlt hleaf
    rw [(h.spaces.held_pages c hc).pte2pa_pageAt h.spaces.owned] at hpage
    have hzero : userPage k.ram.mem (k.proc c.proc).pagetable (window c.window) = 0 := by
      simpa using List.find?_some hw
    exact (((hbacked c hc).pageAt_ne_zero 0) (hpage.symm.trans hzero)).elim

/-- A safe call for which there is room leaves no null page in a window. -/
theorem AllBacked.effect {own' : Nat → Role} {t : System} {ev : Event}
    (h : AllBacked s.holds s.kernel) (hinv : KernelInv im own s.holds s.kernel)
    (hroomy : RoomyCall s ev) (heffect : Effect im own own' s ev t) :
    AllBacked t.holds t.kernel := by
  cases heffect with
  | quiet hrings hholds =>
    rw [hholds]
    intro a ha
    rw [hrings]
    exact h a ha
  | leaked straddr opdesc retvaddr j hcall hop hmakes hwindow hfree hrings hholds =>
    exact (((hroomy.2 _ _ _ hcall) hop).2.2 hmakes).2.1 hwindow |>.elim
  | opened straddr opdesc retvaddr a hcall hop hend ho hholds =>
    have hslot : (t.kernel.ringbufs a.slot).Backed := by
      cases hattaches : attaches s.kernel straddr with
      | true =>
        obtain ⟨hdata, hbook⟩ := ho.old (by rw [hattaches]; rfl)
        obtain ⟨c, hc, hcslot⟩ :=
          hinv.held_of_attaches ((hroomy.2 _ _ _ hcall) hop).1.1 hattaches hend
        rw [Ringbuf.Backed, hdata, hbook]
        exact hcslot ▸ h c hc
      | false =>
        exact ho.supply (by rw [hattaches]; rfl) (((hroomy.2 _ _ _ hcall) hop).2.2 hattaches).2.2
    rw [hholds]
    intro b hb
    by_cases hb' : b.slot = a.slot
    · rw [hb']
      exact hslot
    · rw [ho.other _ hb']
      rcases List.mem_cons.mp hb with rfl | hmem
      · exact (hb' rfl).elim
      · exact h b hmem
  | closed straddr opdesc a hcall ha hend hc hholds =>
    rw [hholds]
    intro b hb
    have hb' := hinv.ledger.nodup.mem_erase_iff.mp hb
    by_cases hslot : b.slot = a.slot
    · have hlast : decide ((s.kernel.ringbufs a.slot).refcount - 1 < 1) = false := by
        refine decide_eq_false fun hlast => hb'.1 ?_
        exact (hinv.ledger.last_iff ha).mp hlast b hb'.2 hslot
      rw [hlast] at hc
      rw [hslot, hc.slot]
      exact hslot ▸ h b hb'.2
    · rw [hc.other _ hslot]
      exact h b hb'.2

/-- The invariant of runs whose calls all find room. -/
def BackedInv (im : Image) (s : System) : Prop :=
  (∃ own, KernelInv im own s.holds s.kernel) ∧ AllBacked s.holds s.kernel

theorem BackedInv.step {t : System} {ev : Event} (h : BackedInv im s) (hok : RoomyCall s ev)
    (hstep : Kernel.step im s ev = some t) : BackedInv im t := by
  obtain ⟨⟨own, hinv⟩, hbacked⟩ := h
  obtain ⟨own', hinv', heffect⟩ := hinv.step hok.1 hstep
  exact ⟨⟨own', hinv'⟩, hbacked.effect hinv hok heffect⟩

section Success

variable {im : Image} {own own' : Nat → Role} {holds : List Holding} {k k' : KernelState}
  {a : Holding} {newmap : Bool} {retvaddr : Nat}

section

variable (ho : Opened im own own' holds a newmap retvaddr k k')
include ho

theorem Opened.pagetable_eq : (k'.proc a.proc).pagetable = (k.proc a.proc).pagetable := by
  rw [ho.proc]
  simp

/-- What may be written once the window is mapped may be written after the call. -/
theorem Opened.userPage_ne_zero (hinv' : KernelInv im own' (a :: holds) k')
    (hbacked : (k'.ringbufs a.slot).Backed) (hp : (k.proc a.proc).pagetable ≠ 0)
    (hw : firstWindow k.ram.mem (k.proc a.proc).pagetable = some a.window) {va : Nat}
    (hva : Writable k a.proc va) :
    userPage k'.ram.mem (k.proc a.proc).pagetable (pgRoundDown va) ≠ 0 := by
  obtain ⟨haligned, -, -⟩ := window_bounds a.window
  have hend := window_end_lt a.window
  have hlt : pgRoundDown va < maxVA := by
    rcases hva with hpage | ⟨w, hw', -, hhi⟩
    · by_contra hge
      exact hpage (if_pos (by omega))
    · rw [hw] at hw'
      obtain rfl := Option.some.inj hw'
      have hdown : pgRoundDown va ≤ va := Nat.div_mul_le_self ..
      omega
  have hleaf := ho.leaf_eq (k.proc a.proc).pagetable (pgRoundDown va) (Spaces.isRoot hp)
    (lt_treeVA hlt)
  by_cases hin : window a.window ≤ pgRoundDown va ∧ pgRoundDown va < window a.window + 33 * pgSize
  · rw [if_pos ⟨rfl, hin⟩] at hleaf
    rw [userPage_of_ring hlt hleaf,
      (hinv'.spaces.held_pages a (by simp)).pte2pa_pageAt hinv'.spaces.owned]
    exact hbacked.pageAt_ne_zero _
  · rw [if_neg fun hcond => hin hcond.2] at hleaf
    rcases hva with hpage | ⟨w, hw', hlo, hhi⟩
    · rwa [userPage, hleaf, ← userPage]
    · rw [hw] at hw'
      obtain rfl := Option.some.inj hw'
      refine (hin ?_).elim
      unfold pgRoundDown
      generalize window a.window = start at *
      unfold pgSize at *
      omega

/-- The address of the window is where the caller asked for it. -/
theorem Opened.userByte_eq (hinv' : KernelInv im own' (a :: holds) k')
    (hbacked : (k'.ringbufs a.slot).Backed) (hp : (k.proc a.proc).pagetable ≠ 0)
    (hw : firstWindow k.ram.mem (k.proc a.proc).pagetable = some a.window)
    (hva : ∀ i < 8, Writable k a.proc (retvaddr + i)) {i : Nat} (hi : i < 8) :
    userByte k'.ram.mem (k'.proc a.proc).pagetable (retvaddr + i) =
      some (Memory.byteOf (window a.window) i) := by
  obtain ⟨s, res, howned, hstored, hcopy⟩ := ho.published
  have hr := Spaces.isRoot hp
  have hp' : (k'.proc a.proc).pagetable ≠ 0 := by rwa [ho.pagetable_eq]
  have hsame : ∀ va, userPage s.mem (k.proc a.proc).pagetable va =
      userPage k'.ram.mem (k.proc a.proc).pagetable va := fun va => (hstored.userPage_eq hr).symm
  have hlen : (wordBytes (window a.window)).length = 8 := by simp [wordBytes]
  obtain ⟨t, hrun, hbytes⟩ := howned.copyout_bytes hr
    (fun va hpage => by
      rw [hsame, ← ho.pagetable_eq] at hpage ⊢
      exact hinv'.spaces.isData hp' hpage)
    (by rw [hlen])
    (fun i hi => by
      rw [hsame]
      exact ho.userPage_ne_zero hinv' hbacked hp hw (hva i (by rwa [hlen] at hi)))
  rw [hcopy] at hrun
  cases hrun
  rw [ho.pagetable_eq, hbytes i (by rwa [hlen])]
  simp [wordBytes, List.getD_eq_getElem?_getD, hi]

end

/-- What a call that succeeds has done. -/
structure Delivered (im : Image) (p : ProcId) (retvaddr : Nat) (k' : KernelState) (w : Fin 10) :
    Prop where
  /-- The pages of the window have been allocated. -/
  mapped : ∀ i < 33, ∃ page, translate k'.ram.mem (k'.proc p).pagetable
    (window w + i * pgSize) = some page ∧ IsPage im page ∧ ¬k'.ram.OnFreeList page
  stored : ∀ i < 8, userByte k'.ram.mem (k'.proc p).pagetable (retvaddr + i) =
    some (Memory.byteOf (window w) i)

theorem Opened.delivered (ho : Opened im own own' holds a newmap retvaddr k k')
    (hinv' : KernelInv im own' (a :: holds) k') (hbacked : (k'.ringbufs a.slot).Backed)
    (hp : (k.proc a.proc).pagetable ≠ 0)
    (hw : firstWindow k.ram.mem (k.proc a.proc).pagetable = some a.window)
    (hva : ∀ i < 8, Writable k a.proc (retvaddr + i)) :
    Delivered im a.proc retvaddr k' a.window := by
  refine ⟨fun i hi => ⟨_, hinv'.translate_eq (by simp) hi, ?_⟩,
    fun i hi => ho.userByte_eq hinv' hbacked hp hw hva hi⟩
  have hdata := (hinv'.spaces.held_pages a (by simp)).isData hinv'.spaces.owned
    (hbacked.pageAt_ne_zero i)
  exact ⟨hdata.page, fun hfree => hdata.not_free (hinv'.spaces.owned.onFreeList_iff.mp hfree)⟩

end Success

/-- In every state that is reached by safe calls for which there was room, a call of
`createbuf` for which there is room returns: either it opens an end, with thirty-three
allocated pages in the window and the address of the window where the caller asked for it, and the
pages of a new ring come from the free list; or it returns -1 and changes nothing. -/
theorem createbuf_all_or_nothing {im : Image} {k : KernelState} {s : System} {events : List Event}
    (hstart : Started im k) (hrun : Run (Guarded RoomyCall (StepOf (step im))) ⟨k, []⟩ events s)
    {p : ProcId} {straddr : CString} {opdesc : Int} {retvaddr : Nat} {fails : List Bool}
    (hp : (s.kernel.proc p).state = .runnable)
    (hroomy : RoomyCreate (s.kernel.withFails fails) p straddr opdesc retvaddr) :
    ∃ res k', createbuf im p straddr opdesc retvaddr (s.kernel.withFails fails) = .ok (res, k') ∧
      ((res = -1 ∧ k' = s.kernel.withFails fails) ∨
        (res = 0 ∨ res = 1) ∧ ∃ w, Delivered im p retvaddr k' w ∧
          (attaches s.kernel straddr = false → ∀ i < 33, ∃ page, translate k'.ram.mem
            (k'.proc p).pagetable (window w + i * pgSize) = some page ∧
              s.kernel.ram.OnFreeList page)) := by
  obtain ⟨⟨own, hinv⟩, hbacked⟩ : BackedInv im s :=
    hrun.invariant_guarded BackedInv.step ⟨hstart.kernelInv.1, by simp [AllBacked]⟩
  by_cases hop : opdesc < 0 ∨ 1 < opdesc
  · exact ⟨-1, _, createbuf_invalid hop, .inl ⟨rfl, rfl⟩⟩
  obtain ⟨hsafe, hva, hroom⟩ := hroomy hop
  have hp' : ((s.kernel.withFails fails).proc p).pagetable ≠ 0 := hinv.pagetable_ne_zero hp
  have hfails := hinv.withFails fails
  cases hattaches : attaches s.kernel straddr with
  | true =>
    obtain ⟨j, hfound, hj⟩ := attaches_iff.mp hattaches
    by_cases hend : (s.kernel.ringbufs j).pidsRW (ringEndOf opdesc) = 0
    · cases hw : firstWindow s.kernel.ram.mem (s.kernel.proc p).pagetable with
      | none =>
        exact ⟨-1, _, createbuf_attach_none hop hfound hj hend (hinv.ledger.nonneg j) hw,
          .inl ⟨rfl, rfl⟩⟩
      | some w =>
        obtain ⟨k', own', hcall, ho, hinv'⟩ := hfails.attach
          (a := ⟨p, straddr, ringEndOf opdesc, j, w⟩) hp' hop rfl hsafe.1 hfound hj hend hw
          (hinv.heldAt_firstWindow hbacked hw) retvaddr
        obtain ⟨c, hc, hslot⟩ := hinv.exists_holder hsafe.1 hfound
        have hslot' : (k'.ringbufs j).Backed := by
          rw [Ringbuf.Backed, (ho.old rfl).1, (ho.old rfl).2]
          exact hslot ▸ hbacked c hc
        exact ⟨0, k', hcall, .inr ⟨.inl rfl, w, ho.delivered hinv' hslot' hp' hw hva, by simp⟩⟩
    · exact ⟨-1, _, createbuf_taken hop hfound hj (.inl hend), .inl ⟨rfl, rfl⟩⟩
  | false =>
    obtain ⟨hfree, hw, hsupply⟩ := hroom hattaches
    obtain ⟨j, hj⟩ := Option.ne_none_iff_exists'.mp hfree
    obtain ⟨w, hw⟩ := Option.ne_none_iff_exists'.mp hw
    obtain ⟨k', own', hcall, ho, hinv'⟩ := hfails.make
      (a := ⟨p, straddr, ringEndOf opdesc, j, w⟩) hp' hop rfl
      (attaches_eq_false_iff.mp hattaches) hj hw (hinv.heldAt_firstWindow hbacked hw) retvaddr
    have hslot := ho.supply rfl hsupply
    refine ⟨_, k', hcall, .inr ⟨?_, w, ho.delivered hinv' hslot hp' hw hva,
      fun _ i hi => ⟨_, hinv'.translate_eq (a := ⟨p, straddr, ringEndOf opdesc, j, w⟩)
        (by simp) hi, ?_⟩⟩⟩
    · split
      next => exact .inl rfl
      next => exact .inr rfl
    · exact hinv.spaces.owned.onFreeList_iff.mpr
        ((ho.fresh rfl i).resolve_left (hslot.pageAt_ne_zero i))

/-- After a fork the parent has room for a ring. -/
theorem createbuf_all_or_nothing_small : ∃ k',
    createbuf smallImage 0 ringName 0 0 (smallFork.withFails []) = .ok (1, k') ∧
    ∃ w, Delivered smallImage 0 0 k' w := by
  obtain ⟨-, k', -, -, hrun, -⟩ := smallFork_make 0 []
  obtain ⟨own, hinv, hzero⟩ := smallFork_inv
  have hcall := createbuf_of_perform hrun
  have hfork : Run (Guarded RoomyCall (StepOf (step smallImage)))
      ⟨smallStart, []⟩ [⟨0, .fork, []⟩] ⟨smallFork, []⟩ :=
    Run.cons ⟨⟨trivial, by simp⟩, smallFork_step⟩ Run.nil
  have hpage : ∀ i < 8, userPage smallFork.ram.mem (smallFork.proc 0).pagetable
      (pgRoundDown (0 + i)) ≠ 0 := by
    decide +kernel
  have hfree : findFree (smallFork.withFails []) ≠ none := by
    intro hnone
    have h0 := List.find?_eq_none.mp hnone 0 (by simp)
    rw [show ((smallFork.withFails []).ringbufs 0) = smallFork.ringbufs 0 from rfl, hzero] at h0
    exact h0 (by decide)
  have hwindow : firstWindow (smallFork.withFails []).ram.mem
      ((smallFork.withFails []).proc 0).pagetable ≠ none := by
    rw [(hinv.withFails []).spaces.firstWindow_eq (hinv.pagetable_ne_zero smallFork_procs.1) rfl]
    simp
  have hroomy : RoomyCreate (smallFork.withFails []) 0 ringName 0 0 := fun _ =>
    ⟨⟨by decide, fun hnone => (hfree hnone).elim⟩, fun i hi => .inl (hpage i hi),
      fun _ => ⟨hfree, hwindow, smallFork_supplies⟩⟩
  obtain ⟨res, k'', hcall', hcases⟩ :=
    createbuf_all_or_nothing smallStart_started hfork smallFork_procs.1 hroomy
  rw [hcall] at hcall'
  obtain ⟨rfl, rfl⟩ : 1 = res ∧ k' = k'' := by simpa using hcall'
  rcases hcases with ⟨hres, -⟩ | ⟨-, w, hdelivered, -⟩
  · exact absurd hres (by decide)
  · exact ⟨k', hcall, w, hdelivered⟩

/-- The parent makes a ring and asks for the address of its window where it has no memory.  The
call succeeds, but the address is stored nowhere. -/
theorem createbuf_result_lost : ∃ k',
    Run (StepOf (step smallImage)) ⟨smallStart, []⟩ [⟨0, .fork, []⟩] ⟨smallFork, []⟩ ∧
    createbuf smallImage 0 ringName 0 0x10000 (smallFork.withFails []) = .ok (1, k') ∧
    userByte k'.ram.mem (k'.proc 0).pagetable 0x10000 = none := by
  obtain ⟨own, k', own', hinv, hrun, -, ho, -⟩ := smallFork_make 0x10000 []
  refine ⟨k', Run.cons smallFork_step Run.nil, createbuf_of_perform hrun, ?_⟩
  have hroot : IsRoot smallFork.proc (smallFork.proc 0).pagetable :=
    Spaces.isRoot (hinv.pagetable_ne_zero smallFork_procs.1)
  have hleaf := ho.leaf_eq _ 0x10000 hroot (by decide)
  have hbelow : ¬window parentEnd.window ≤ 0x10000 := by decide
  rw [if_neg fun hin => hbelow hin.2.1] at hleaf
  have hgap : leaf smallFork.ram.mem (smallFork.proc 0).pagetable 0x10000 = 0 := by decide +kernel
  have hroot' : (k'.proc 0).pagetable = (smallFork.proc 0).pagetable := ho.pagetable_eq
  have hleaf' : leaf k'.ram.mem (smallFork.proc 0).pagetable 0x10000 = 0 := hleaf.trans hgap
  have hpage : userPage k'.ram.mem (smallFork.proc 0).pagetable (pgRoundDown 0x10000) = 0 := by
    rw [show pgRoundDown 0x10000 = 0x10000 from rfl, userPage, hleaf']
    rfl
  rw [userByte, hroot', if_pos hpage]

end Kernel
end FastIpc
