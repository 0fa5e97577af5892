import FastIpc.Kernel.Loading
import FastIpc.Kernel.Teardown

/-!
# Replacing a process image

The commit of `exec`, and the call as a whole.  A call that fails leaves every page in use as
it was and gives back what it took.  A call that succeeds frees the old image and leaves the one
that was built.

Main results:

- Theorem `KernelInv.execCommit`: a process that holds nothing switches to the new image.
- Theorem `KernelInv.exec_outcome`: what a call does.
-/

namespace FastIpc
namespace Kernel

open Foundation FaultM

/-- What `exec` does to the tables. -/
structure Reloaded (k : KernelState) (p : ProcId) (k' : KernelState) : Prop where
  other : ∀ q, q ≠ p → k'.proc q = k.proc q
  entry : (k'.proc p).pid = (k.proc p).pid ∧ (k'.proc p).state = (k.proc p).state ∧
    (k'.proc p).validRingBuf = (k.proc p).validRingBuf ∧ (k'.proc p).pagetable ≠ 0
  ringbufs : k'.ringbufs = k.ringbufs
  nextpid : k'.nextpid = k.nextpid

/-! ## The commit -/

/-- What the commit does to memory: the pages of the old image are free, those of the new one are
as they were built, and the trap frame is set up. -/
structure Switched (own own' : Nat → Role) (s : Ram) (k : KernelState) (p : ProcId) (r sz : Nat)
    (prog : Program) (k' : KernelState) : Prop where
  entry : k'.proc p = { k.proc p with pagetable := r, sz := sz }
  freed : ∀ pa, own' pa = .free ∨ own' pa = own pa ∧ ¬(own pa).At (k.proc p).pagetable
  agree : ∀ pa i, own pa = .user r i → AgreeOn s.mem k'.ram.mem pa
  leaf_eq : ∀ va < treeVA, leaf k'.ram.mem r va = leaf s.mem r va
  a1 : k'.ram.mem.readLE ((k.proc p).trapframe + tfA1) 8 = prog.sp
  epc : k'.ram.mem.readLE ((k.proc p).trapframe + tfEpc) 8 = prog.entry
  sp : k'.ram.mem.readLE ((k.proc p).trapframe + tfSp) 8 = prog.sp

/-- The trap frame after the commit. -/
def commitMem (m : Memory) (trapframe : Nat) (prog : Program) : Memory :=
  ((m.writeLE (trapframe + tfA1) 8 prog.sp).writeLE (trapframe + tfEpc) 8 prog.entry).writeLE
    (trapframe + tfSp) 8 prog.sp

theorem readLE_commitMem (m : Memory) (trapframe : Nat) {prog : Program}
    (hsp : prog.sp < 256 ^ 8) (hentry : prog.entry < 256 ^ 8) :
    (commitMem m trapframe prog).readLE (trapframe + tfA1) 8 = prog.sp ∧
      (commitMem m trapframe prog).readLE (trapframe + tfEpc) 8 = prog.entry ∧
      (commitMem m trapframe prog).readLE (trapframe + tfSp) 8 = prog.sp := by
  have hoff : tfEpc + 8 ≤ tfSp ∧ tfSp + 8 ≤ tfA1 := by decide
  refine ⟨?_, ?_, Memory.readLE_writeLE hsp⟩
  · rw [commitMem, Memory.readLE_writeLE_of_disjoint (by omega),
      Memory.readLE_writeLE_of_disjoint (by omega), Memory.readLE_writeLE hsp]
  · rw [commitMem, Memory.readLE_writeLE_of_disjoint (by omega), Memory.readLE_writeLE hentry]

theorem commitMem_out {m : Memory} {trapframe x : Nat} {prog : Program}
    (hx : ¬(trapframe ≤ x ∧ x < trapframe + pgSize)) : commitMem m trapframe prog x = m x := by
  have hoff : ∀ off w (m : Memory), off + 8 ≤ pgSize → m.writeLE (trapframe + off) 8 w x = m x := by
    intro off w m hoff
    by_cases hlow : x < trapframe + off
    · exact Memory.writeLE_of_lt hlow
    · exact Memory.writeLE_of_ge (by omega)
  rw [commitMem, hoff _ _ _ (by decide), hoff _ _ _ (by decide), hoff _ _ _ (by decide)]

namespace KernelInv

variable {im : Image} {own own1 : Nat → Role} {holds : List Holding} {k : KernelState}
  {p : ProcId} {r sz : Nat} {s : Ram}

/-- A process that holds nothing switches to an image that has been built for it; for another
one `freewalk` panics. -/
theorem execCommit (h : KernelInv im own holds k) (hp : (k.proc p).pagetable ≠ 0)
    (hframed : Framed im (IsRoot k.proc) own own1 k.ram s)
    (hr : r ≠ 0) (hnew : ¬IsRoot k.proc r) (howned : Owned im own1 (withRoot (IsRoot k.proc) r) s)
    (hrooted : Rooted own1 (withRoot (IsRoot k.proc) r))
    (hspace : Space im own1 s.mem r (userPages sz) (k.proc p).trapframe fun _ _ => 0)
    {prog : Program} (hsp : prog.sp < 256 ^ 8) (hentry : prog.entry < 256 ^ 8) :
    (∃ k' own', Kernel.execCommit im p r sz prog { k with ram := s } = .ok ((), k') ∧
      KernelInv im own' holds k' ∧ Reloaded k p k' ∧ HoldsNothing holds p ∧
      SameGlobal own own' ∧ Switched own1 own' s k p r sz prog k') ∨
    (Kernel.execCommit im p r sz prog { k with ram := s } = .error Owned.leafLeft ∧
      ¬HoldsNothing holds p) := by
  have hrole : own1 (k.proc p).trapframe = .trapframe p :=
    (hframed.kept _ (by rw [h.spaces.trapframe p hp]; trivial)).trans (h.spaces.trapframe p hp)
  -- The three stores go to the trap frame.
  have hstored1 := howned.storeTrapframe hrole (show tfA1 + 8 ≤ pgSize by decide) prog.sp
  have hstored2 := hstored1.owned.storeTrapframe hrole (show tfEpc + 8 ≤ pgSize by decide) prog.entry
  have hstored3 := hstored2.owned.storeTrapframe hrole (show tfSp + 8 ≤ pgSize by decide) prog.sp
  have hstored : Stored im own1 (withRoot (IsRoot k.proc) r) s
      { s with mem := commitMem s.mem (k.proc p).trapframe prog } :=
    (hstored1.trans hstored2).trans hstored3
  have hframed2 := hframed.trans (.of_stored (hstored.mono fun _ => .inl))
  have hold := (h.spaces.space p hp).framed (Spaces.isRoot hp) hframed2
  have hne : ¬withRoot (OtherRoot k.proc p) r (k.proc p).pagetable := by
    rintro (hother | heq)
    · exact h.spaces.not_otherRoot hp hother
    · exact hnew (heq ▸ Spaces.isRoot hp)
  have howned3 : Owned im own1 (withRoot (withRoot (OtherRoot k.proc p) r) (k.proc p).pagetable) _ :=
    hstored.owned.mono fun r' hr' => by
      rcases hr' with (hother | rfl) | rfl
      · exact .inl (Spaces.isRoot_of_other hother)
      · exact .inr rfl
      · exact .inl (Spaces.isRoot hp)
  rw [Kernel.execCommit, bind_of_ok (get_apply _)]
  simp only
  rw [bind_of_ok (onRam_of_ok rfl), bind_of_ok (modify_apply _ _),
    bind_of_ok (onRam_of_ok rfl), bind_of_ok (onRam_of_ok rfl)]
  rcases howned3.procFreepagetable hne hold
      fun w i _ => windowEntry_cases .. with ⟨t, own', hfree, hframed3, hown, hspared, hzero⟩
        | ⟨hfault, hnot⟩
  · have hnone := (windowEntry_eq_zero_iff h.spaces.held_window).mp hzero
    have hspace' := (hspace.stored hstored (.inr rfl)).framed (.inr rfl) hframed3
    have hrooted1 : Rooted own1 (withRoot (withRoot (OtherRoot k.proc p) r)
        (k.proc p).pagetable) := by
      refine hrooted.mono fun r' hr' => ?_
      rcases hr' with hroot | rfl
      · exact (Spaces.otherRoot_or hroot).imp_left .inl
      · exact .inl (.inr rfl)
    have hother : ¬OtherRoot k.proc p r := fun hother => hnew (Spaces.isRoot_of_other hother)
    have houtside : Outside im k.proc p own own' k.ram t :=
      ((hframed2.mono fun _ => Spaces.isRoot_of_other).trans (hframed3.mono fun _ => .inl)).outside
    have hreloaded : Reloaded k p (({ k with ram := t } : KernelState).setProc p fun q =>
        { q with pagetable := r, sz := sz }) := by
      refine ⟨fun q hq => KernelState.setProc_ne _ _ _ hq, ?_, rfl, rfl⟩
      rw [KernelState.setProc_same]
      exact ⟨rfl, rfl, rfl, hr⟩
    have hstate : (k.proc p).state ≠ .unused := fun hs => hp ((h.procs.unused p).mpr hs)
    have hswitched : Switched own1 own' s k p r sz prog
        (({ k with ram := t } : KernelState).setProc p fun q =>
          { q with pagetable := r, sz := sz }) := by
      have hpage : IsPage im (k.proc p).trapframe := howned.page _ (by simp [hrole])
      have htrap : ¬(own1 (k.proc p).trapframe).At (k.proc p).pagetable := by
        rw [hrole]
        exact id
      have hagree := hspared _ htrap (by simp [hrole])
      have hword : ∀ off, off + 8 ≤ pgSize → t.mem.readLE ((k.proc p).trapframe + off) 8 =
            (commitMem s.mem (k.proc p).trapframe prog).readLE ((k.proc p).trapframe + off) 8 :=
        fun off hoff => Memory.readLE_congr fun x hlo hhi => hagree x (by omega) (by omega)
      obtain ⟨ha1, hepc, hsp'⟩ := readLE_commitMem s.mem (k.proc p).trapframe hsp hentry
      refine ⟨KernelState.setProc_same .., hown, fun pa i hpa => ?_, fun va hva => ?_,
        (hword _ (by decide)).trans ha1, (hword _ (by decide)).trans hepc,
        (hword _ (by decide)).trans hsp'⟩
      · have hne' : pa ≠ (k.proc p).trapframe := by
          rintro rfl
          simp [hrole] at hpa
        have hat : ¬(own1 pa).At (k.proc p).pagetable := by
          rw [hpa]
          rintro rfl
          exact hnew (Spaces.isRoot hp)
        exact (howned.agreeOn_of_ne hpage (fun x hx => commitMem_out hx) (by simp [hpa]) hne').trans
          (hspared pa hat (by simp [hpa]))
      · exact (hframed3.leaf_eq r va (.inr rfl) hva).trans (hstored.leaf_eq r va (.inr rfl))
    refine .inl ⟨_, own', onRam_of_ok hfree, h.setImage hnone hp houtside ?_ hreloaded.other ?_
      rfl rfl, hreloaded, hnone, houtside.sameGlobal, hswitched⟩
    · rw [KernelState.setProc_same]
      refine ⟨hother, hframed3.owned, hrooted1.freed hown, hspace',
        (hframed3.kept _ (by rw [hrole]; trivial)).trans hrole, fun pa hpa => ?_⟩
      have hsame3 := hframed3.eq_of_lives (by rw [hpa]; trivial)
      have hsame2 := hframed2.eq_of_lives (by rw [← hsame3, hpa]; trivial)
      obtain ⟨q, hqp, -, htrapframe⟩ := h.spaces.trapframe_only pa p
        (by rw [← hsame2, ← hsame3, hpa])
      rw [← htrapframe, Fin.ext hqp]
    · rw [KernelState.setProc_same]
      exact ⟨hr, hstate, rfl⟩
  · refine .inr ⟨onRam_of_error hfault, fun hnone => hnot ?_⟩
    exact (windowEntry_eq_zero_iff h.spaces.held_window).mpr hnone

end KernelInv

/-! ## The call -/

/-- A failed call leaves every page in use as it was, and the same pages free. -/
structure Untouched (im : Image) (own : Nat → Role) (holds : List Holding) (k k' : KernelState) :
    Prop where
  inv : KernelInv im own holds k'
  same : k' = { k with ram := k'.ram }
  agree : ∀ pa, own pa ≠ .kernel → own pa ≠ .free → AgreeOn k.ram.mem k'.ram.mem pa

/-- A call that succeeds replaces the image of the caller by the program in a file. -/
structure Replaced (im : Image) (own own' : Nat → Role) (holds : List Holding) (k : KernelState)
    (p : ProcId) (file : List (BitVec 8)) (argv : List CString) (sz : Nat) (k' : KernelState) :
    Prop where
  inv : KernelInv im own' holds k'
  reloaded : Reloaded k p k'
  sameGlobal : SameGlobal own own'
  switched : ∃ s own1 prog, Switched own1 own' s k p (k'.proc p).pagetable sz prog k' ∧
    Framed im (IsRoot k.proc) own own1 k.ram s ∧
    Loading.Built own1 (k'.proc p).pagetable sz (readi file 0 elfhdrSize) file argv prog s

namespace KernelInv

variable {im : Image} {own : Nat → Role} {holds : List Holding} {k : KernelState} {p : ProcId}

/-- A change that no process notices, after which the same pages are free. -/
theorem untouched (h : KernelInv im own holds k) {own' : Nat → Role} {t : Ram}
    (hframed : Framed im (IsRoot k.proc) own own' k.ram t) (hrooted : Rooted own' (IsRoot k.proc))
    (hagree : ∀ pa, own pa ≠ .kernel → own pa ≠ .free → AgreeOn k.ram.mem t.mem pa) :
    Untouched im own holds k { k with ram := t } := by
  have hown : own' = own := h.spaces.rooted.own_eq hrooted hframed
  subst hown
  exact ⟨h.framed hframed hrooted, rfl, hagree⟩

variable (h : KernelInv im own holds k) (hp : (k.proc p).pagetable ≠ 0)
  (file : Option (List (BitVec 8)))
include h hp

/-- A call fails whatever the arguments are, or it fails exactly if these do not fit on the stack.
Otherwise the image is replaced, unless the caller still holds a ring. -/
theorem exec_outcome :
    (∃ k', (∀ argv, Kernel.exec im p file argv k = .ok (-1, k')) ∧ Untouched im own holds k k') ∨
    ∃ bytes sz, file = some bytes ∧ isProgram file = true ∧ sz % pgSize = 0 ∧ 2 * pgSize ≤ sz ∧
      ∀ argv, (stackPlan sz argv = none ∧ ∃ k', Kernel.exec im p file argv k = .ok (-1, k') ∧
          Untouched im own holds k k') ∨
        ∃ plan, stackPlan sz argv = some plan ∧
          ((∃ k' own', Kernel.exec im p file argv k = .ok ((plan.2.length : Int), k') ∧
              HoldsNothing holds p ∧ Replaced im own own' holds k p bytes argv sz k') ∨
            Kernel.exec im p file argv k = .error Owned.leafLeft ∧ ¬HoldsNothing holds p) := by
  have hrefl : Untouched im own holds k k := ⟨h, rfl, fun pa _ _ => .refl _ pa⟩
  cases file with
  | none => exact .inl ⟨k, fun _ => rfl, hrefl⟩
  | some file =>
    unfold Kernel.exec
    simp only
    by_cases hlen : (readi file 0 elfhdrSize).length ≠ elfhdrSize
    · simp only [if_pos hlen]
      exact .inl ⟨k, fun _ => rfl, hrefl⟩
    by_cases hmagic : fieldAt (readi file 0 elfhdrSize) 0 4 ≠ elfMagic
    · simp only [if_neg hlen, if_pos hmagic]
      exact .inl ⟨k, fun _ => rfl, hrefl⟩
    simp only [if_neg hlen, if_neg hmagic]
    have hprogram : isProgram (some file) = true := by
      simpa [isProgram] using ⟨not_not.mp hlen, not_not.mp hmagic⟩
    have htf : (k.proc p).trapframe < 2 ^ 56 :=
      (h.spaces.owned.page _ (by simp [h.spaces.trapframe p hp])).lt_pow
    obtain ⟨r, s1, own1, htable, hframed1, hcases, hagree1⟩ :=
      h.spaces.owned.procPagetable h.spaces.rooted htf
    simp only [bind_of_ok (get_apply _), bind_of_ok (onRam_of_ok htable)]
    rcases hcases with ⟨rfl, hrooted1, -⟩ | ⟨hr, hnew, howned1, hrooted1, hspace1, -⟩
    · exact .inl ⟨_, fun _ => rfl, h.untouched hframed1 hrooted1 hagree1⟩
    simp only [if_neg hr]
    -- What is given back when building fails.
    have hfail : ∀ {own2 sz s2}, Within im (withRoot (IsRoot k.proc) r) r own1 own2 s1 s2 →
        (Space im own2 s2.mem r (userPages sz) (k.proc p).trapframe fun _ _ => 0) →
        ∃ t, procFreepagetable im r sz s2 = .ok ((), t) ∧
          Untouched im own holds k { k with ram := t } := by
      intro own2 sz s2 hwithin hspace2
      obtain ⟨t, own', hfree, hframed, hown, hspared⟩ :=
        hwithin.owned.procFreepagetable_of_empty hnew hspace2
      refine ⟨t, hfree, h.untouched ((hframed1.trans (.of_within hwithin hnew)).trans hframed)
        ((hrooted1.within (.inr rfl) hwithin).freed hown) fun pa hkernel hpa => ?_⟩
      -- A page in use belongs to none of the trees that were built.
      have hlives := h.spaces.rooted pa hpa
      have hat : ¬(own pa).At r := fun hat => hat.not_lives hnew hlives
      have hsame1 : own1 pa = own pa := hframed1.kept pa hlives
      have hsame2 : own2 pa = own pa := by
        rw [← hsame1] at hat hpa ⊢
        exact hwithin.kept pa hpa (Role.ne_of_not_at hat).2.1
      exact ((hagree1 pa hkernel hpa).trans (hwithin.data pa (by rwa [hsame1]) (by rwa [hsame1]))).trans
        (hspared pa (by rwa [hsame2]) (by rwa [hsame2]))
    rcases hspace1.execBuild howned1 (.inr rfl) (readi file 0 elfhdrSize) file with
      ⟨sz, s2, own2, hbuild, hwithin, hspace2⟩ | ⟨sz, own2, haligned, hsz, hbuild⟩
    · obtain ⟨t, hfree, huntouched⟩ := hfail hwithin hspace2
      refine .inl ⟨_, fun argv => ?_, huntouched⟩
      rw [bind_of_ok (onRam_of_ok (hbuild argv))]
      exact bind_of_ok (onRam_of_ok hfree)
    · refine .inr ⟨file, sz, rfl, hprogram, haligned, hsz, fun argv => ?_⟩
      obtain ⟨prog, s2, hrun, hwithin, hspace2, hplan, hbuilt⟩ := hbuild argv
      rw [bind_of_ok (onRam_of_ok hrun)]
      cases prog with
      | none =>
        obtain ⟨t, hfree, huntouched⟩ := hfail hwithin hspace2
        exact .inl ⟨hplan.mp rfl, _, bind_of_ok (onRam_of_ok hfree), huntouched⟩
      | some prog =>
        have hbuilt := hbuilt prog rfl
        obtain ⟨ustack, hplan', hargc, -⟩ := hbuilt.plan
        refine .inr ⟨_, hplan', ?_⟩
        have hframed2 := hframed1.trans (.of_within hwithin hnew)
        have hrooted2 := hrooted1.within (.inr rfl) hwithin
        have hsp : prog.sp < 256 ^ 8 := by
          have hle := stackPlan_le hplan'
          have hlt := hspace2.sz_lt hwithin.owned
          omega
        have hentry : prog.entry < 256 ^ 8 := by
          rw [hbuilt.entry]
          exact Memory.readLE_lt _ _ _
        rcases h.execCommit hp hframed2 hr hnew hwithin.owned hrooted2 hspace2 hsp hentry with
          ⟨k', own', hcommit, hinv, hreloaded, hnone, hglobal, hswitched⟩ | ⟨hfault, hheld⟩
        · refine .inl ⟨k', own', ?_, hnone, hinv, hreloaded, hglobal, s2, own2, prog, ?_⟩
          · rw [← hargc]
            exact bind_of_ok hcommit
          · have hr' : (k'.proc p).pagetable = r := by rw [hswitched.entry]
            rw [hr']
            exact ⟨hswitched, hframed2, hbuilt⟩
        · exact .inr ⟨bind_of_error hfault, hheld⟩

/-- `exec` keeps the invariant.  It drops the old image only of a caller that holds nothing;
for another one `freewalk` panics. -/
theorem exec (argv : List CString) :
    (∃ res k' own', Kernel.exec im p file argv k = .ok (res, k') ∧ KernelInv im own' holds k' ∧
      Reloaded k p k' ∧ (0 ≤ res → HoldsNothing holds p) ∧ SameGlobal own own') ∨
    (Kernel.exec im p file argv k = .error Owned.leafLeft ∧ isProgram file = true ∧
      ¬HoldsNothing holds p) := by
  have hfailed : ∀ {k'}, Untouched im own holds k k' → KernelInv im own holds k' ∧
      Reloaded k p k' ∧ ((0 : Int) ≤ -1 → HoldsNothing holds p) ∧ SameGlobal own own := by
    intro k' huntouched
    refine ⟨huntouched.inv, ?_, fun hres => absurd hres (by decide), .refl own⟩
    rw [huntouched.same]
    exact ⟨fun _ _ => rfl, ⟨rfl, rfl, rfl, hp⟩, rfl, rfl⟩
  rcases h.exec_outcome hp file with ⟨k', hrun, huntouched⟩ |
    ⟨bytes, sz, rfl, hprogram, -, -, hrun⟩
  · exact .inl ⟨-1, k', own, hrun argv, hfailed huntouched⟩
  · rcases hrun argv with ⟨-, k', hrun, huntouched⟩ |
      ⟨plan, -, ⟨k', own', hrun, hnone, hreplaced⟩ | ⟨hfault, hheld⟩⟩
    · exact .inl ⟨-1, k', own, hrun, hfailed huntouched⟩
    · exact .inl ⟨_, k', own', hrun, hreplaced.inv, hreplaced.reloaded, fun _ => hnone,
        hreplaced.sameGlobal⟩
    · exact .inr ⟨hfault, hprogram, hheld⟩

end KernelInv

end Kernel
end FastIpc
