import FastIpc.Kernel.Machine

/-!
# Growing, shrinking and copying user memory

What `uvmalloc`, `uvmdealloc` and `uvmcopy` of `kernel/vm.c` do to a page
table and to the list of free pages, whatever allocations fail.  Page-table pages that a call added
on its way stay where they are; all else is as it was if the call fails.

Main results:

- Theorem `uvmalloc_exact`: memory grows by pages of zeroes, or not at all.
- Theorem `uvmcopy_duplicates`: the copy has the same contents, or is empty.
-/

namespace FastIpc
namespace Kernel

open Foundation

/-- The page table at `r` maps what it mapped before, and the free pages are the same except
for those that are page-table pages of `r` now. -/
structure Restored (r : Nat) (s t : Ram) : Prop where
  leaf_eq : ∀ va < treeVA, leaf t.mem r va = leaf s.mem r va
  free_of_free : ∀ p, t.OnFreeList p → s.OnFreeList p
  free_or_table : ∀ p, s.OnFreeList p →
    t.OnFreeList p ∨ ∃ path, path.length ≤ 2 ∧ table t.mem r path = some p

/-- The page table at `r` maps the pages of `newsz` bytes below `limit`: those of
`oldsz` bytes as before, the others to pages of zeroes that were free. -/
structure Extended (r oldsz newsz limit : Nat) (s t : Ram) : Prop where
  mapped : ∀ va < limit, leaf t.mem r va &&& pteV ≠ 0 ↔ va < pgRoundUp newsz
  leaf_eq : ∀ va < treeVA, va < pgRoundUp oldsz ∨ limit ≤ va → leaf t.mem r va = leaf s.mem r va
  fresh : ∀ va, pgRoundUp oldsz ≤ va → va < pgRoundUp newsz →
    s.OnFreeList (pte2pa (leaf t.mem r va)) ∧ t.mem (pte2pa (leaf t.mem r va) + va % pgSize) = 0
  bytes_eq : ∀ va < pgRoundUp oldsz, t.mem (pte2pa (leaf t.mem r va) + va % pgSize) =
    s.mem (pte2pa (leaf s.mem r va) + va % pgSize)

namespace UserMap

variable {im : Image} {roots : Nat → Prop} {own own' : Nat → Role} {s t : Ram}
  {r base n limit : Nat} {kept : Nat → Nat}

theorem mapped_iff (h : UserMap own s.mem r base n limit kept) {va : Nat} (hva : va < limit) :
    leaf s.mem r va &&& pteV ≠ 0 ↔ va < n * pgSize := by
  constructor
  · intro hvalid
    by_contra hge
    exact hvalid (by rw [h.gap va (Nat.le_of_not_lt hge) hva, Nat.zero_and])
  · intro hlt
    obtain ⟨pa, perm, hperm, hpa, -⟩ := h.user va hlt
    rw [hpa]
    exact mkPte_valid hperm.1

theorem free_of_user (h : UserMap own s.mem r base base limit kept) (howned : Owned im own roots s)
    (hwithin : Within im roots r own own' s t) (h' : UserMap own' t.mem r base n limit kept)
    {p i : Nat} (hi : base ≤ i) (hp : own' p = .user r i) : own p = .free := by
  by_contra hfree
  have huser : ∀ j, own p ≠ .user r j := by
    intro j hj
    have hj' := (h.role_iff howned h' hwithin.owned (h.bound p j hj) p).mp hj
    rw [hp] at hj'
    simp only [Role.user.injEq, true_and] at hj'
    have := h.bound p j hj
    omega
  exact huser i ((hwithin.kept p hfree huser).symm.trans hp)

/-- User memory that has been cut down to what is kept is as before. -/
theorem restored (h : UserMap own s.mem r n n limit kept) (howned : Owned im own roots s)
    (hr : roots r) (hwithin : Within im roots r own own' s t)
    (h' : UserMap own' t.mem r n n limit kept) : Restored r s t := by
  have hrole : ∀ p i, own p = .user r i ↔ own' p = .user r i := by
    intro p i
    constructor
    · intro hp
      exact (h.role_iff howned h' hwithin.owned (h.bound p i hp) p).mp hp
    · intro hp
      exact (h.role_iff howned h' hwithin.owned (h'.bound p i hp) p).mpr hp
  refine ⟨fun va hva => ?_, fun p hfree => ?_, fun p hfree => ?_⟩
  · by_cases hgap : n * pgSize ≤ va ∧ va < limit
    · rw [h.gap va hgap.1 hgap.2, h'.gap va hgap.1 hgap.2]
    · have hkept : va < n * pgSize ∨ limit ≤ va := by omega
      rw [h'.same va hva hkept, h.same va hva hkept]
  · rw [hwithin.owned.onFreeList_iff] at hfree
    rw [howned.onFreeList_iff]
    by_contra hused
    by_cases huser : ∃ i, own p = .user r i
    · obtain ⟨i, hi⟩ := huser
      rw [(hrole p i).mp hi] at hfree
      cases hfree
    · exact hused ((hwithin.kept p hused (not_exists.mp huser)).symm.trans hfree)
  · rw [howned.onFreeList_iff] at hfree
    rw [hwithin.owned.onFreeList_iff]
    rcases hwithin.fresh p with hsame | hat
    · exact .inl (hsame.trans hfree)
    · cases hcase : own' p with
      | free => exact .inl rfl
      | node r' path =>
        rw [hcase] at hat
        obtain rfl : r' = r := hat
        exact .inr ⟨path, hwithin.owned.reached r' hr path p hcase⟩
      | user r' i =>
        rw [hcase] at hat
        obtain rfl : r' = r := hat
        have hold := (hrole p i).mpr hcase
        rw [hfree] at hold
        cases hold
      | _ =>
        rw [hcase] at hat
        exact hat.elim

/-- The pages of user memory while `uvmalloc` adds pages to the first `base`. -/
def Growing (r base : Nat) (s0 : Ram) (own : Nat → Role) (s : Ram) (_n : Nat) : Prop :=
  ∀ p i, own p = .user r i → ∀ x < pgSize,
    s.mem (p + x) = if i < base then s0.mem (p + x) else 0

theorem growing_survivesGrowth (r base limit : Nat) (s0 : Ram) :
    SurvivesGrowth r limit fun own s n => base ≤ n ∧ Growing r base s0 own s n := by
  rintro own own' s t n mem ⟨hbase, h⟩ - hadded
  refine ⟨Nat.le_succ_of_le hbase, fun p i hp x hx => ?_⟩
  by_cases hmem : p = mem
  · rw [hmem] at hp ⊢
    have hi : n = i := by simpa using hadded.role.symm.trans hp
    rw [hadded.filled x hx, if_neg (by omega)]
  · obtain ⟨hold, hagree⟩ := hadded.old p i hmem hp
    rw [hagree _ (Nat.le_add_right ..) (by omega), h p i hold x hx]

/-- What `uvmalloc` makes of a page table when it succeeds. -/
theorem extended {oldsz newsz : Nat}
    (h : UserMap own s.mem r (userPages oldsz) (userPages oldsz) limit kept)
    (howned : Owned im own roots s) (hwithin : Within im roots r own own' s t)
    (h' : UserMap own' t.mem r (userPages oldsz) (userPages newsz) limit kept)
    (hgrown : Growing r (userPages oldsz) s own' t (userPages newsz)) :
    Extended r oldsz newsz limit s t := by
  have hmono := Nat.mul_le_mul_right pgSize h'.base_le
  have hpos : 0 < pgSize := by decide
  rw [← pgRoundUp_eq, ← pgRoundUp_eq] at hmono
  have hlimit : ∀ va < pgRoundUp newsz, va < treeVA := fun va hva => by
    rw [pgRoundUp_eq] at hva
    exact lt_treeVA (lt_of_lt_of_le hva (le_trans h'.fits h'.limit_le))
  have hkept : ∀ va < treeVA, va < pgRoundUp oldsz ∨ limit ≤ va →
      leaf t.mem r va = leaf s.mem r va := by
    intro va hva hcase
    rw [pgRoundUp_eq] at hcase
    rw [h'.same va hva hcase, h.same va hva hcase]
  have hrole : ∀ va < pgRoundUp newsz,
      own' (pte2pa (leaf t.mem r va)) = .user r (va / pgSize) := by
    intro va hva
    rw [pgRoundUp_eq] at hva
    exact h'.role_page hwithin.owned hva
  refine ⟨fun va hva => ?_, hkept, fun va hlo hhi => ?_, fun va hva => ?_⟩
  · rw [pgRoundUp_eq]
    exact h'.mapped_iff hva
  · have hpage : userPages oldsz ≤ va / pgSize := by
      rw [pgRoundUp_eq] at hlo
      exact (Nat.le_div_iff_mul_le hpos).mpr hlo
    refine ⟨?_, ?_⟩
    · rw [howned.onFreeList_iff]
      exact h.free_of_user howned hwithin h' hpage (hrole va hhi)
    · rw [hgrown _ _ (hrole va hhi) _ (Nat.mod_lt _ hpos), if_neg (Nat.not_lt.mpr hpage)]
  · have hva' : va < pgRoundUp newsz := lt_of_lt_of_le hva hmono
    have hpage : va / pgSize < userPages oldsz := by
      rw [pgRoundUp_eq] at hva
      exact (Nat.div_lt_iff_lt_mul hpos).mpr hva
    rw [hgrown _ _ (hrole va hva') _ (Nat.mod_lt _ hpos), if_pos hpage,
      hkept va (hlimit va hva') (.inl hva)]

end UserMap

section Calls

variable {im : Image} {roots : Nat → Prop} {own : Nat → Role} {s : Ram} {r limit : Nat}

/-- For every page table that maps the pages of `oldsz` bytes and no other user memory,
whatever the new size and the allocations that fail: `uvmalloc` returns.  It returns the new
size with all pages mapped, and then `uvmdealloc` undoes it; or it returns 0 and has undone
what it did itself.  A smaller size changes nothing. -/
theorem uvmalloc_exact {oldsz : Nat} (howned : Owned im own roots s) (hr : roots r)
    (hlimit : mapStart ≤ limit)
    (hmap : UserMap own s.mem r 0 (userPages oldsz) limit (leaf s.mem r)) (newsz : Nat) :
    (oldsz < newsz → ∃ res t, uvmalloc im r oldsz newsz s = .ok (res, t) ∧
      (res = newsz ∧ Extended r oldsz newsz limit s t ∧
          (∃ u, uvmdealloc im r newsz oldsz t = .ok (oldsz, u) ∧ Restored r s u) ∨
        res = 0 ∧ Restored r s t)) ∧
    (newsz < oldsz → uvmalloc im r oldsz newsz s = .ok (oldsz, s)) := by
  constructor
  · intro hlt
    have hbase := hmap.rebase
    obtain ⟨res, t, own', hrun, hwithin, hmap', hres⟩ := hbase.uvmalloc newsz
      (UserMap.growing_survivesGrowth r (userPages oldsz) limit s)
      ⟨le_rfl, fun p i hp x _ => by rw [if_pos (hmap.bound p i hp)]⟩ howned hr le_rfl hlimit
    refine ⟨res, t, hrun, ?_⟩
    by_cases hzero : res = 0
    · rw [if_pos hzero] at hmap'
      exact .inr ⟨hzero, hbase.restored howned hr hwithin hmap'⟩
    · obtain ⟨hmax, -, hgrown⟩ := hres hzero
      obtain rfl : res = newsz := by omega
      rw [if_neg hzero] at hmap'
      have hmin : min res oldsz = oldsz := Nat.min_eq_right hlt.le
      obtain ⟨u, own'', hdealloc, hwithin', hback⟩ :=
        hmap'.uvmdealloc oldsz hwithin.owned hr (by rw [hmin])
      rw [hmin] at hdealloc hback
      exact .inl ⟨rfl, hbase.extended howned hwithin hmap' hgrown, u, hdealloc,
        hbase.restored howned hr (hwithin.trans hwithin') hback⟩
  · intro hlt
    rw [uvmalloc, if_pos hlt]
    rfl

theorem smallStart_runs : (smallStart.proc 0).state = .runnable ∧ (smallStart.proc 0).sz = 4096 := by
  decide +kernel

/-- A process of the small machine asks for three more pages.  It gets them and can give them back;
or the second allocation fails, and it has what it had. -/
theorem uvmalloc_exact_small : ∃ t u v,
    uvmalloc smallImage smallRoot 4096 16384 (smallStart.withFails []).ram = .ok (16384, t) ∧
    Extended smallRoot 4096 16384 mapStart (smallStart.withFails []).ram t ∧
    uvmdealloc smallImage smallRoot 16384 4096 t = .ok (4096, u) ∧
    Restored smallRoot (smallStart.withFails []).ram u ∧
    uvmalloc smallImage smallRoot 4096 16384 (smallStart.withFails [false, true]).ram = .ok (0, v) ∧
    Restored smallRoot (smallStart.withFails [false, true]).ram v := by
  obtain ⟨⟨own, hinv⟩, -⟩ := smallStart_started.kernelInv
  have hp : smallRoot ≠ 0 := hinv.pagetable_ne_zero smallStart_runs.1
  have hcall := fun fails => (uvmalloc_exact (r := smallRoot) (hinv.withFails fails).spaces.owned
    (Spaces.isRoot hp) le_rfl (smallStart_runs.2 ▸ (hinv.withFails fails).spaces.space 0 hp).userMap
    16384).1 (by decide)
  have hres : ((uvmalloc smallImage smallRoot 4096 16384 (smallStart.withFails []).ram).toOption.map
        Prod.fst = some 16384) ∧ (uvmalloc smallImage smallRoot 4096 16384
          (smallStart.withFails [false, true]).ram).toOption.map Prod.fst = some 0 := by
    decide +kernel
  obtain ⟨res, t, hrun, hcases⟩ := hcall []
  obtain ⟨res', v, hrun', hcases'⟩ := hcall [false, true]
  rw [hrun, hrun'] at hres
  obtain ⟨rfl, rfl⟩ : res = 16384 ∧ res' = 0 := by simpa [Except.toOption] using hres
  obtain ⟨-, hextended, u, hback, hrestored⟩ := hcases.resolve_right (by simp)
  exact ⟨t, u, v, hrun, hextended, hback, hrestored, hrun', (hcases'.resolve_left (by simp)).2⟩

/-- The child at `new` maps the pages of `sz` bytes as its parent at `old` does:
with the same flags and contents, in pages that were free, apart from the parent's and from each
other. -/
structure Duplicated (old new sz : Nat) (s t : Ram) : Prop where
  copied : ∀ j < userPages sz, UserMap.PageCopied s.mem t.mem old new j
  fresh : ∀ j < userPages sz, s.OnFreeList (pte2pa (leaf t.mem new (j * pgSize)))
  apart : ∀ j < userPages sz, ∀ va < pgRoundUp sz,
    pte2pa (leaf t.mem new (j * pgSize)) ≠ pte2pa (leaf t.mem old va)
  distinct : ∀ j < userPages sz, ∀ j' < userPages sz,
    pte2pa (leaf t.mem new (j * pgSize)) = pte2pa (leaf t.mem new (j' * pgSize)) → j = j'

/-- For every parent that maps the pages of `sz` bytes to pages in use, every child that maps
nothing there, and whatever allocations fail: `uvmcopy` returns, and the parent is as it was.
If it returns 0, the child has a copy; if it returns −1, it maps what it mapped before. -/
theorem uvmcopy_duplicates {old new sz : Nat} (howned : Owned im own roots s) (hold : roots old)
    (hnew : roots new) (hne : old ≠ new)
    (hparent : UserMap.CopySource own s.mem old new (userPages sz))
    (hchild : UserMap own s.mem new 0 0 (pgRoundUp sz) (leaf s.mem new)) :
    ∃ res t, uvmcopy im old new sz s = .ok (res, t) ∧
      (∀ va < treeVA, leaf t.mem old va = leaf s.mem old va) ∧
      (∀ va < pgRoundUp sz, t.mem (pte2pa (leaf s.mem old va) + va % pgSize) =
        s.mem (pte2pa (leaf s.mem old va) + va % pgSize)) ∧
      (res = 0 ∧ Duplicated old new sz s t ∨ res = -1 ∧ Restored new s t) := by
  have hpages := pgRoundUp_eq sz
  obtain ⟨res, t, own', hrun, hwithin, hcases⟩ := hchild.copyLoop (userPages sz) hparent howned
    (.refl howned) (by simp) hnew hold hne (Nat.zero_add _) hpages.ge
  rw [Nat.zero_mul, userPages_eq, ← uvmcopy] at hrun
  have hleaf : ∀ va < treeVA, leaf t.mem old va = leaf s.mem old va := fun va hva =>
    hwithin.other old va hold hne hva
  refine ⟨res, t, hrun, hleaf, fun va hva => ?_, ?_⟩
  · rw [hpages] at hva
    exact hparent.bytes_eq hwithin howned hva (Nat.mod_lt _ (by decide))
  rcases hcases with ⟨rfl, hmap⟩ | ⟨rfl, hmap, hcopied⟩
  · exact .inr ⟨rfl, hchild.restored howned hnew hwithin hmap⟩
  have hrole : ∀ j < userPages sz, own' (pte2pa (leaf t.mem new (j * pgSize))) = .user new j := by
    intro j hj
    have hpage := hmap.role_page hwithin.owned (Nat.mul_lt_mul_of_pos_right hj (by decide))
    rwa [Nat.mul_div_cancel _ (by decide)] at hpage
  refine .inl ⟨rfl, hcopied, fun j hj => ?_, fun j hj va hva heq => ?_, fun j hj j' hj' heq => ?_⟩
  · rw [howned.onFreeList_iff]
    exact hchild.free_of_user howned hwithin hmap (Nat.zero_le j) (hrole j hj)
  · -- A page of the parent does not belong to the child.
    rw [hpages] at hva
    obtain ⟨pa, perm, hperm, hpa, hat, hkernel⟩ :=
      (hparent.within hwithin hold hne (hpages ▸ hchild.limit_le)).mapped va hva
    have hpage := hwithin.owned.page pa hkernel
    rw [hpa, pte2pa_mkPte hperm.1 hpage.aligned hpage.lt_pow] at heq
    rw [← heq, hrole j hj] at hat
    exact hat rfl
  · have hsame := hrole j hj
    rw [heq, hrole j' hj'] at hsame
    simp only [Role.user.injEq, true_and] at hsame
    exact hsame.symm

/-- Copy a page of the memory of `p` into `np` on the small machine. -/
def smallCopy (fails : List Bool) (k : KernelState) (p np : ProcId) : Except Fault (Int × Ram) :=
  uvmcopy smallImage (k.proc p).pagetable (k.proc np).pagetable 4096 (k.withFails fails).ram

/-- A process of the small machine is copied into the page table of a new one.  It gets a copy; or
the third allocation fails, and the new page table is as it was. -/
theorem uvmcopy_duplicates_small : ∃ k np t u,
    allocproc smallImage (smallStart.withFails []) = .ok (some np, k) ∧
    smallCopy [] k 0 np = .ok (0, t) ∧
    Duplicated (k.proc 0).pagetable (k.proc np).pagetable 4096 (k.withFails []).ram t ∧
    smallCopy [false, false, true] k 0 np = .ok (-1, u) ∧
    Restored (k.proc np).pagetable (k.withFails [false, false, true]).ram u := by
  obtain ⟨⟨own, hinv⟩, -⟩ := smallStart_started.kernelInv
  have heval : ((allocproc smallImage (smallStart.withFails [])).toOption.any fun r => r.1.any fun np =>
      (smallCopy [] r.2 0 np).toOption.map Prod.fst = some 0 ∧
        (smallCopy [false, false, true] r.2 0 np).toOption.map Prod.fst = some (-1)) = true := by
    decide +kernel
  obtain ⟨⟨found, k⟩, halloc, heval⟩ := (Option.any_eq_true _ _).mp heval
  obtain ⟨np, rfl, hres⟩ := (Option.any_eq_true _ _).mp heval
  have halloc : allocproc smallImage (smallStart.withFails []) = .ok (some np, k) := by
    cases hrun : allocproc smallImage (smallStart.withFails []) with
    | error e => simp [hrun, Except.toOption] at halloc
    | ok r => simpa [hrun, Except.toOption] using halloc
  obtain ⟨own1, hinv1, ha, -⟩ := (hinv.withFails []).allocproc halloc
  have hne : 0 ≠ np := by
    rintro rfl
    exact hinv.pagetable_ne_zero smallStart_runs.1 ha.unused
  have hsame : k.proc 0 = smallStart.proc 0 := ha.other 0 hne
  have hp : (k.proc 0).pagetable ≠ 0 := hsame ▸ hinv.pagetable_ne_zero smallStart_runs.1
  have hnp : (k.proc np).pagetable ≠ 0 := KernelInv.allocated_ne_zero ha
  have hroots : (k.proc 0).pagetable ≠ (k.proc np).pagetable := fun heq =>
    hne (hinv1.spaces.root_inj 0 np hp heq)
  have hempty : userPages (k.proc np).sz = 0 := by
    obtain ⟨trapframe, r, -, hentry⟩ := ha.entry
    rw [hentry]
    show userPages ((smallStart.withFails []).proc np).sz = 0
    rw [(hinv.withFails []).procs.unused_sz np ha.unused]
    rfl
  have hsize : (k.proc 0).sz = 4096 := hsame ▸ smallStart_runs.2
  have hcall : ∀ fails, ∃ res t, smallCopy fails k 0 np = .ok (res, t) ∧
      (res = 0 ∧ Duplicated (k.proc 0).pagetable (k.proc np).pagetable 4096 (k.withFails fails).ram t ∨
        res = -1 ∧ Restored (k.proc np).pagetable (k.withFails fails).ram t) := by
    intro fails
    have hinv' := hinv1.withFails fails
    have hparent := hinv'.spaces.space 0 hp
    have hchild := hinv'.spaces.space np hnp
    rw [show userPages ((k.withFails fails).proc np).sz = 0 from hempty] at hchild
    rw [show ((k.withFails fails).proc 0).sz = 4096 from hsize] at hparent
    obtain ⟨res, t, hrun, -, -, hcases⟩ := uvmcopy_duplicates hinv'.spaces.owned (Spaces.isRoot hp)
      (Spaces.isRoot hnp) hroots (hparent.copySource hroots)
      ⟨⟨by decide, by simp, by simpa using hchild.bound, hchild.unique,
        fun va hlo hhi => hchild.gap va (by simp) (lt_of_lt_of_le hhi (by decide))⟩, le_rfl,
        by decide, fun _ _ _ => rfl⟩
    exact ⟨res, t, hrun, hcases⟩
  obtain ⟨res, t, hrun, hcases⟩ := hcall []
  obtain ⟨res', u, hrun', hcases'⟩ := hcall [false, false, true]
  obtain ⟨rfl, rfl⟩ : res = 0 ∧ res' = -1 := by
    simpa [hrun, hrun', Except.toOption] using of_decide_eq_true hres
  exact ⟨k, np, t, u, halloc, hrun, (hcases.resolve_right (by simp)).2, hrun',
    (hcases'.resolve_left (by simp)).2⟩

end Calls

end Kernel
end FastIpc
