import FastIpc.Kernel.Lifecycle

/-!
# What a child costs

A child of `fork` starts with a trap frame and a page table of three pages, and gets a copy
of every page of its parent together with the page-table pages on the way to them.  This module
counts these pages: `fork` returns if and only if there is an unused process and all of
them can be allocated.

Main results:

- Theorem `Space.copyLoop_exactly`: what `uvmcopy` takes.
- Theorem `KernelInv.fork_iff`: when `fork` returns.
-/

namespace FastIpc
namespace Kernel

open Foundation FaultM

/-! ## Page-table pages of user memory -/

/-- How many page-table pages the page `i` of user memory is the first to need. -/
def tablesAt (i : Nat) : Nat := if i % 2 ^ 18 = 0 then 2 else if i % 512 = 0 then 1 else 0

/-- How many pages `n` pages of user memory take with the page-table pages for them. -/
def copyPages (n : Nat) : Nat := n + (n + 511) / 512 + (n + (2 ^ 18 - 1)) / 2 ^ 18

theorem copyPages_succ (n : Nat) : copyPages (n + 1) = copyPages n + (1 + tablesAt n) := by
  unfold copyPages tablesAt
  split_ifs <;> omega

theorem copyPages_mono {m n : Nat} (h : m ≤ n) : copyPages m ≤ copyPages n := by
  unfold copyPages
  omega

theorem px_user {i : Nat} (hi : i ≤ phyStop / pgSize) :
    (px 2 (i * pgSize)).val = i / 2 ^ 18 ∧ (px 1 (i * pgSize)).val = i / 512 % 512 := by
  rw [px_val, px_val]
  unfold phyStop pgSize at *
  omega

theorem px_trampoline : (px 2 trampolineVA).val = 255 := by
  decide

namespace Trunk

variable {m m' : Memory} {r i : Nat}

theorem succ (h : Trunk m r i) (hadded : PathAdded m m' r (i * pgSize)) : Trunk m' r (i + 1) := by
  intro path hlen
  rw [hadded path hlen, h path hlen]
  constructor
  · rintro ((htrap | ⟨j, hj, hpath⟩) | hpath)
    · exact .inl htrap
    · exact .inr ⟨j, Nat.lt_succ_of_lt hj, hpath⟩
    · exact .inr ⟨i, Nat.lt_succ_self i, hpath⟩
  · rintro (htrap | ⟨j, hj, hpath⟩)
    · exact .inl (.inl htrap)
    · rcases Nat.lt_succ_iff_lt_or_eq.mp hj with hj | rfl
      · exact .inl (.inr ⟨j, hj, hpath⟩)
      · exact .inr hpath

theorem missing_eq (h : Trunk m r i) (hi : i ≤ phyStop / pgSize) :
    missing m r (i * pgSize) = tablesAt i := by
  obtain ⟨htwo, hone⟩ := px_user hi
  have hsmall : i < 2 ^ 20 := lt_of_le_of_lt hi (by decide)
  have hupper : table m r [px 2 (i * pgSize)] = none ↔ i % 2 ^ 18 = 0 := by
    rw [← Option.not_isSome_iff_eq_none, h _ (by simp)]
    simp only [List.cons_prefix_cons, List.nil_prefix, and_true, Fin.ext_iff, htwo, px_trampoline]
    constructor
    · intro hnone
      by_contra hmod
      refine hnone (.inr ⟨i - 1, by omega, ?_⟩)
      rw [(px_user (by omega)).1]
      omega
    · rintro hmod (htrap | ⟨j, hj, heq⟩)
      · omega
      · rw [(px_user (by omega)).1] at heq
        omega
  have hlower : i % 2 ^ 18 ≠ 0 →
      (table m r [px 2 (i * pgSize), px 1 (i * pgSize)] = none ↔ i % 512 = 0) := by
    intro hne
    rw [← Option.not_isSome_iff_eq_none, h _ (by simp)]
    simp only [List.cons_prefix_cons, List.nil_prefix, and_true, Fin.ext_iff, htwo, hone,
      px_trampoline]
    constructor
    · intro hnone
      by_contra hmod
      refine hnone (.inr ⟨i - 1, by omega, ?_⟩)
      obtain ⟨htwo', hone'⟩ := px_user (i := i - 1) (by omega)
      rw [htwo', hone']
      omega
    · rintro hmod (⟨htrap, -⟩ | ⟨j, hj, heq⟩)
      · omega
      · obtain ⟨htwo', hone'⟩ := px_user (i := j) (by omega)
        rw [htwo', hone'] at heq
        omega
  unfold missing tablesAt
  by_cases hzero : i % 2 ^ 18 = 0
  · rw [if_pos (hupper.mpr hzero), if_pos hzero]
  · rw [if_neg (mt hupper.mp hzero), if_neg hzero]
    by_cases hmod : i % 512 = 0
    · rw [if_pos ((hlower hzero).mpr hmod), if_pos hmod]
    · rw [if_neg (mt (hlower hzero).mp hmod), if_neg hmod]

end Trunk

/-! ## Copying the user memory -/

/-- `uvmcopy` succeeds if and only if the pages it needs can be allocated. -/
theorem UserMap.copyLoop_exactly {im : Image} {roots : Nat → Prop} {own : Nat → Role} {s : Ram}
    {r old N i limit : Nat} {kept : Nat → Nat} (count : Nat)
    (h : UserMap own s.mem r 0 i limit kept) (hold : CopySource own s.mem old r N)
    (howned : Owned im own roots s) (hr : roots r) (hroot : roots old) (hne : old ≠ r)
    (hcount : i + count ≤ N) (hfit : N * pgSize ≤ limit) (hpages : N ≤ phyStop / pgSize)
    (htrunk : Trunk s.mem r i) :
    ∃ res t, Kernel.copyLoop im old r count (i * pgSize) s = .ok (res, t) ∧ (res = 0 ∨ res = -1) ∧
      Exactly (copyPages (i + count) - copyPages i) (res = 0) s t := by
  induction count generalizing i own s with
  | zero =>
    refine ⟨0, s, rfl, .inl rfl, ?_⟩
    rw [Nat.add_zero, Nat.sub_self]
    exact howned.exactly_zero howned (fun _ => Iff.rfl) rfl rfl
  | succ count ih =>
    have hmissing := htrunk.missing_eq (le_trans (by omega) hpages)
    have hsucc := copyPages_succ i
    have hmono : copyPages (i + 1) ≤ copyPages (i + (count + 1)) := copyPages_mono (by omega)
    rcases h.copyPage count hold howned hr (by omega) hfit with
      ⟨t, own', hrun, -, -, hshort⟩ |
      ⟨_, u, own1, hstep, hwithin, hmap, -, hexactly, hadded⟩
    · refine ⟨-1, t, hrun, .inr rfl, .of_short hshort ?_ (by decide)⟩
      omega
    · obtain ⟨res, t, hrun, hres, hrest⟩ :=
        ih hmap (hold.within hwithin hroot hne (le_trans hfit h.limit_le)) hwithin.owned
          (by omega) (htrunk.succ hadded)
      refine ⟨res, t, hstep.trans hrun, hres, ?_⟩
      have hnext := hexactly.next trivial hrest
      rwa [hmissing, show 1 + tablesAt i + (copyPages (i + 1 + count) - copyPages (i + 1)) =
        copyPages (i + (count + 1)) - copyPages i by
          rw [show i + 1 + count = i + (count + 1) by omega]
          omega] at hnext

/-! ## Fork -/

/-- The pages that a child of a process with `sz` bytes of user memory takes: a trap
frame, the page table with the trap pages, and the copy of the user memory. -/
def forkPages (sz : Nat) : Nat := 4 + copyPages (userPages sz)

/-- There is room for a child of `p`: an unused process and enough pages. -/
def HasRoom (k : KernelState) (p : ProcId) : Prop :=
  (∃ q, (k.proc q).state = .unused) ∧ k.ram.Supplies (forkPages (k.proc p).sz)

namespace KernelInv

variable {im : Image} {own : Nat → Role} {holds : List Holding} {k k' : KernelState} {p : ProcId}

/-- `fork` returns if and only if there is room for a child. -/
theorem fork_iff (h : KernelInv im own holds k) (hp : (k.proc p).pagetable ≠ 0) :
    (∃ res k', Kernel.fork im p k = .ok (res, k')) ↔ HasRoom k p := by
  obtain ⟨found, k1, halloc, hnone, -⟩ := h.exists_allocproc
  rw [Kernel.fork, bind_of_ok halloc]
  cases found with
  | none =>
    constructor
    · rintro ⟨_, _, hrun⟩
      cases hrun
    · rintro ⟨⟨q, hq⟩, hs⟩
      rcases hnone rfl with hused | hshort
      · exact (hused q hq).elim
      · exact (hshort (hs.mono (Nat.le_add_right ..))).elim
  | some np =>
    obtain ⟨own1, hinv1, ha, -, hexactly, htrunk⟩ := h.allocproc halloc
    have hnp1 := allocated_ne_zero ha
    have hne : p ≠ np := by
      rintro rfl
      exact hp ha.unused
    have hsame : k1.proc p = k.proc p := ha.other p hne
    have hp1 : (k1.proc p).pagetable ≠ 0 := by rwa [hsame]
    have hsz : userPages (k1.proc np).sz = 0 := by
      obtain ⟨trapframe, r, -, hentry⟩ := ha.entry
      rw [hentry]
      show userPages (k.proc np).sz = 0
      rw [h.procs.unused_sz np ha.unused]
      rfl
    have hspace := hinv1.spaces.space np hnp1
    rw [hsz] at hspace
    have hparent := hinv1.spaces.space p hp1
    have hroots : (k1.proc p).pagetable ≠ (k1.proc np).pagetable := fun heq =>
      hne (hinv1.spaces.root_inj p np hp1 heq)
    obtain ⟨res, t, hcopy, hres, hcost⟩ := hspace.userMap.copyLoop_exactly
      (userPages (k1.proc p).sz) (hparent.copySource hroots) hinv1.spaces.owned
      (Spaces.isRoot hnp1) (Spaces.isRoot hp1) hroots (Nat.zero_add _).le hparent.fits
      (hparent.pages_le hinv1.spaces.owned) htrunk
    have hzero : copyPages 0 = 0 := by decide
    rw [Nat.zero_add, hzero, Nat.sub_zero, hsame] at hcost
    have hunused : (k.proc np).state = .unused := by simpa using List.find?_some ha.first
    have hroom : HasRoom k p ↔ res = 0 := by
      rw [(hexactly.next trivial hcost).done_iff]
      exact ⟨fun hroom => hroom.2, fun hs => ⟨⟨np, hunused⟩, hs⟩⟩
    rw [Nat.zero_mul, userPages_eq, ← uvmcopy] at hcopy
    simp only [bind_of_ok (get_apply _), bind_of_ok (onRam_of_ok hcopy)]
    rw [hroom]
    rcases hres with rfl | rfl
    · exact iff_of_true ⟨_, _, rfl⟩ rfl
    · refine iff_of_false ?_ (by decide)
      rintro ⟨_, _, hrun⟩
      cases hrun

end KernelInv

/-- What `fork` returns: the identifier of a child of the caller. -/
theorem fork_eq_ok {im : Image} {own : Nat → Role} {holds : List Holding} {k k' : KernelState}
    {p : ProcId} {res : Int} (h : KernelInv im own holds k)
    (hrun : fork im p k = .ok (res, k')) :
    ∃ np, (k.proc np).state = .unused ∧ (k'.proc np).state = .runnable ∧
      (k'.proc np).parent = some p ∧ res = (k'.proc np).pid := by
  rw [fork, bind_eq_ok] at hrun
  obtain ⟨found, k1, halloc, hrun⟩ := hrun
  cases found with
  | none => cases hrun
  | some np =>
    obtain ⟨-, -, ha, -⟩ := h.allocproc halloc
    simp only [bind_of_ok (get_apply _), bind_eq_ok] at hrun
    obtain ⟨copied, k2, hcopy, hrun⟩ := hrun
    obtain ⟨t, -, rfl⟩ := onRam_eq_ok.mp hcopy
    split at hrun
    next => cases hrun
    next =>
      cases hrun
      refine ⟨np, by simpa using List.find?_some ha.first, ?_⟩
      simp

end Kernel
end FastIpc
