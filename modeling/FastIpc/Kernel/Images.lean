import FastIpc.Kernel.Trees

/-!
# Process images

The address space of a process at its creation and at its end: a new page table maps the trap
pages only, and an address space without rings is freed completely.

Main results:

- Theorem `Owned.procPagetable`: a new page table maps the trap pages and nothing else.
- Theorem `Owned.procFreepagetable`: an address space without rings is freed.
-/

namespace FastIpc
namespace Kernel

open Foundation FaultM Foundation.RadixTree
open Function (update update_of_ne update_self)

/-! ## A new page table -/

theorem ne_trap {va : Nat} (hva : va < trapframeVA ∨ maxVA ≤ va) :
    va / pgSize ≠ trapframeVA / pgSize ∧ va / pgSize ≠ trampolineVA / pgSize := by
  rw [trapframeVA_eq, maxVA_eq] at hva
  rw [trapframeVA_eq, trampolineVA_eq]
  unfold pgSize
  omega

namespace Space

variable {im : Image} {own : Nat → Role} {m : Memory} {r sz trapframe : Nat}

theorem of_trap (hleaf : ∀ va < treeVA, leaf m r va =
      if va / pgSize = trapframeVA / pgSize then mkPte trapframe (pteR ||| pteW)
      else if va / pgSize = trampolineVA / pgSize then mkPte im.trampoline (pteR ||| pteX)
      else 0) (hnone : ∀ pa i, own pa ≠ .user r i) :
    Space im own m r 0 trapframe fun _ _ => 0 := by
  have hzero : ∀ va < treeVA, va < trapframeVA ∨ maxVA ≤ va → leaf m r va = 0 := by
    intro va hva hout
    rw [hleaf va hva, if_neg (ne_trap hout).1, if_neg (ne_trap hout).2]
  have hlow : mapStart < trapframeVA := by decide
  have htrap : trapframeVA < treeVA := by decide
  refine ⟨⟨by decide, fun va hva => absurd hva (by simp), fun pa i hpa => absurd hpa (hnone pa i),
    fun pa _ i hpa => absurd hpa (hnone pa i), fun va _ hva => ?_⟩, fun w i hi => ?_, ?_,
    ?_, fun va hlo hhi => hzero va hhi (.inr hlo)⟩
  · exact hzero va (by omega) (.inl (by omega))
  · have hlt := page_lt (window_bounds w).2.2 hi
    exact hzero _ (by omega) (.inl hlt)
  · rw [hleaf _ htrap, if_pos rfl]
  · rw [hleaf _ (by decide), if_neg (by decide), if_pos rfl]

end Space

/-- The page-table pages of a process are those on the way to its trap pages and to the first
`n` pages of its user memory. -/
def Trunk (m : Memory) (r n : Nat) : Prop :=
  ∀ path, path.length ≤ 2 → ((table m r path).isSome ↔
    path <+: [px 2 trampolineVA, px 1 trampolineVA] ∨
      ∃ i < n, path <+: [px 2 (i * pgSize), px 1 (i * pgSize)])

namespace Owned

variable {im : Image} {roots : Nat → Prop} {own : Nat → Role} {s t : Ram} {r sz trapframe : Nat}

theorem table_of_empty (hzero : ∀ i, entryAt s.mem r i = 0) (path : List (Fin 512)) :
    (table s.mem r path).isSome ↔ path = [] := by
  cases path with
  | nil => simp [table, descend_nil]
  | cons i path => simp [table, descend_cons, hzero i, childOf_zero]

theorem leaf_of_empty (hzero : ∀ i, entryAt s.mem r i = 0) (va : Nat) : leaf s.mem r va = 0 := by
  rw [leaf, table, descend_cons, hzero, childOf_zero]
  rfl

/-- A new page table maps the trap pages and nothing else. -/
theorem procPagetable (h : Owned im own roots s) (hrooted : Rooted own roots)
    (htrapframe : trapframe < 2 ^ 56) :
    ∃ r t own', Kernel.procPagetable im trapframe s = .ok (r, t) ∧ Framed im roots own own' s t ∧
      ((r = 0 ∧ Rooted own' roots ∧ ¬s.Supplies 3 ∨
        (r ≠ 0 ∧ ¬roots r ∧ Owned im own' (withRoot roots r) t ∧ Rooted own' (withRoot roots r) ∧
        (Space im own' t.mem r 0 trapframe fun _ _ => 0) ∧ Exactly 3 True s t ∧ Trunk t.mem r 0))) ∧
      ∀ p, own p ≠ .kernel → own p ≠ .free → AgreeOn s.mem t.mem p := by
  obtain ⟨r0, s1, hcreate, hcases⟩ := h.uvmcreate hrooted
  rw [Kernel.procPagetable, bind_of_ok hcreate]
  rcases hcases with ⟨rfl, howned, hmem, hshort⟩ |
    ⟨hfree, howned, hleaf1, hzero, hexactly1, hagree1⟩
  · refine ⟨0, s1, own, rfl, ⟨howned, fun _ _ => rfl, fun _ => .inl rfl, fun r va _ _ => by
      rw [hmem]⟩, .inl ⟨rfl, hrooted, fun hs => hshort (hs.mono (by omega))⟩, fun p _ _ => ?_⟩
    rw [hmem]
    exact .refl _ p
  have hpage := h.page r0 (by simp [hfree])
  have hr0 : ¬roots r0 := h.not_root_of_free hfree
  have hframed1 : Framed im roots own (update own r0 (.node r0 [])) s s1 := by
    refine ⟨howned.mono fun _ => .inl, fun p hp => update_of_ne ?_ _ _, fun p => ?_,
      fun r va hr _ => hleaf1 r va hr⟩
    · rintro rfl
      rw [hfree] at hp
      exact hp
    · by_cases hp : p = r0
      · rw [hp, update_self]
        exact .inr hr0
      · exact .inl (update_of_ne hp ..)
  have hrooted1 : Rooted (update own r0 (.node r0 [])) (withRoot roots r0) := by
    intro p hp
    by_cases hpr : p = r0
    · rw [hpr, update_self]
      exact .inr rfl
    · rw [update_of_ne hpr] at hp ⊢
      exact (hrooted p hp).mono fun _ => .inl
  rw [if_neg hpage.pos.ne']
  have htramp : im.trampoline < 2 ^ 56 :=
    lt_trans (lt_of_lt_of_le im.trampoline_lt im.endAddr_le) (by decide)
  obtain ⟨res, s3, own2, s2, hmap, hgrown, hres, hexactly2, hadded⟩ := howned.mapPage (.inr rfl)
    (by decide : pteR ||| pteX < 1024) (htramp.trans (by decide))
    (by decide : trampolineVA < maxVA) (by rw [leaf_of_empty hzero, Nat.zero_and])
  rw [mappages_one (by decide), bind_of_ok hmap]
  have hmissing : missing s1.mem r0 trampolineVA = 2 := by
    refine if_pos (Option.not_isSome_iff_eq_none.mp fun hsome => ?_)
    exact absurd ((table_of_empty hzero _).mp hsome) (by simp)
  rw [hmissing] at hexactly2
  have hframed2 := hframed1.trans (Framed.of_within (Within.of_grown hgrown) hr0)
  -- Pages in use belong to other trees, so they are spared by all steps on this one.
  have hat : ∀ p, own p ≠ .free → update own r0 (.node r0 []) p = own p ∧ ¬(own p).At r0 := by
    intro p hp
    refine ⟨update_of_ne ?_ _ _, fun hat => hat.not_lives hr0 (hrooted p hp)⟩
    rintro rfl
    exact hp hfree
  have hagree2 : ∀ p, own p ≠ .kernel → own p ≠ .free → AgreeOn s.mem s2.mem p := by
    intro p hkernel hp
    obtain ⟨hsame, hnot⟩ := hat p hp
    exact (hagree1 p hkernel hp).trans
      ((Within.of_grown hgrown).data p (by rwa [hsame]) (by rwa [hsame]))
  have hown2 : ∀ p, own p ≠ .free → own2 p = own p := by
    intro p hp
    have hsame := (hat p hp).1
    rw [hgrown.kept p (by rwa [hsame]), hsame]
  have hrooted2 := hrooted1.within (.inr rfl) (Within.of_grown hgrown)
  -- The tree is new: no page is user memory of it.
  have hnone : ∀ pa i, own2 pa ≠ .user r0 i := by
    intro pa i hpa
    have hsame : own2 pa = update own r0 (.node r0 []) pa := by
      refine hgrown.kept pa fun hfree' => ?_
      rcases hgrown.fresh pa hfree' with hfree'' | ⟨path, hnode⟩
      · simp [hpa] at hfree''
      · simp [hpa] at hnode
    by_cases hpr : pa = r0
    · rw [hsame, hpr, update_self] at hpa
      cases hpa
    · rw [hsame, update_of_ne hpr] at hpa
      have hlives := hrooted pa (by simp [hpa])
      rw [hpa] at hlives
      exact hr0 hlives
  have hleaf2 : ∀ va, leaf s2.mem r0 va = 0 := fun va => by
    rw [hgrown.leaf_eq r0 va (.inr rfl), leaf_of_empty hzero]
  rcases hres with ⟨rfl, rfl⟩ | ⟨rfl, hset⟩
  · -- The trap code could not be mapped: the tree is freed again.
    rw [if_pos (by decide)]
    obtain ⟨t', own', hfreed, hframed, hown, hspared, -⟩ := (Owned.uvmfree hgrown.owned hr0
      (by decide : userPages 0 * pgSize ≤ mapStart)
      (fun va hva => absurd hva (by simp [userPages, pgRoundUp, pgSize]))
      (fun pa i hpa => absurd hpa (hnone pa i)) (fun pa _ i hpa => absurd hpa (hnone pa i))
      fun va _ _ => .inl (hleaf2 va)).resolve_right fun hfault => hfault.2 fun va _ _ => hleaf2 va
    rw [bind_of_ok hfreed]
    refine ⟨0, t', own', rfl, hframed2.trans hframed, .inl ⟨rfl, hrooted2.freed hown, fun hs => ?_⟩,
      fun p hkernel hp => ?_⟩
    · have hdone := hexactly2.done_iff.mpr ((hexactly1.rest trivial 2).mpr hs)
      exact absurd hdone (by decide)
    · have hsame := hown2 p hp
      exact (hagree2 p hkernel hp).trans
        (hspared p (by rw [hsame]; exact (hat p hp).2) (by rwa [hsame]))
  · rw [if_neg (by decide)]
    have hframed3 := hframed2.trans (Framed.of_within (Within.of_leafSet hset) hr0)
    have hleaf3 : ∀ va < treeVA, leaf s3.mem r0 va =
        if va / pgSize = trampolineVA / pgSize then mkPte im.trampoline (pteR ||| pteX) else 0 := by
      intro va hva
      rw [hset.leaf_eq r0 va (.inr rfl) hva, hleaf2]
      simp
    -- The page-table page for the trap frame exists already.
    obtain ⟨n, hn⟩ : ∃ n, table s3.mem r0 [px 2 trapframeVA, px 1 trapframeVA] = some n := by
      have hvalid : leaf s3.mem r0 trampolineVA &&& pteV ≠ 0 := by
        rw [hleaf3 _ (by decide), if_pos rfl]
        exact mkPte_valid (by decide)
      have hpath : [px 2 trapframeVA, px 1 trapframeVA] = [px 2 trampolineVA, px 1 trampolineVA] := by
        decide
      rw [hpath]
      exact exists_table_of_valid hvalid
    obtain ⟨t', hmap', hfails', -, hset'⟩ := hset.owned.mappages_of_table (.inr rfl)
      (by decide : trapframeVA % pgSize = 0) (by decide) hn
      (by rw [hleaf3 _ (by decide), if_neg (by decide), Nat.zero_and])
      (by decide : pteR ||| pteW < 1024)
      htrapframe
    rw [bind_of_ok hmap', if_neg (by decide)]
    refine ⟨r0, t', own2, rfl, hframed3.trans (Framed.of_within (Within.of_leafSet hset') hr0),
      .inr ⟨hpage.pos.ne', hr0, hset'.owned, hrooted2, Space.of_trap (fun va hva => ?_) hnone,
        (hexactly1.next trivial hexactly2).next rfl
          (hset.owned.exactly_zero hset'.owned (fun _ => Iff.rfl) hfails' trivial),
        fun path hlen => ?_⟩, fun p hkernel hp => ?_⟩
    · rw [hset'.leaf_eq r0 va (.inr rfl) hva, hleaf3 va hva]
      simp
    · rw [hset'.table_eq r0 path (.inr rfl) hlen, hadded rfl path hlen, table_of_empty hzero]
      constructor
      · rintro (rfl | hpath)
        · exact .inl List.nil_prefix
        · exact .inl hpath
      · rintro (hpath | ⟨i, hi, -⟩)
        · exact .inr hpath
        · exact absurd hi (by omega)
    · have hsame := hown2 p hp
      have hnot : ¬(own2 p).At r0 := by
        rw [hsame]
        exact (hat p hp).2
      exact ((hagree2 p hkernel hp).trans ((Within.of_leafSet hset).data p hnot (by rwa [hsame]))).trans
        ((Within.of_leafSet hset').data p hnot (by rwa [hsame]))

theorem uvmunmap_keep {va pa perm : Nat} (h : Owned im own roots s) (hr : roots r)
    (hva : va < maxVA) (haligned : va % pgSize = 0) (hperm : IsLeafPerm perm)
    (hleaf : leaf s.mem r va = mkPte pa perm) :
    ∃ t, Kernel.uvmunmap im r va 1 false s = .ok ((), t) ∧ LeafSet im own roots r va 0 s t := by
  obtain ⟨t, hrun, hset⟩ := h.unmapPage hr false pa hva hperm hleaf (by simp)
  refine ⟨t, ?_, hset⟩
  rw [Kernel.uvmunmap, if_neg (by simpa using haligned), Kernel.unmapLoop, bind_of_ok hrun]
  rfl

/-- An address space is freed if no window shows a ring, and otherwise `freewalk` panics. -/
theorem procFreepagetable {shown : Fin 10 → Nat → Nat} (h : Owned im own (withRoot roots r) s)
    (hr : ¬roots r) (hspace : Space im own s.mem r (userPages sz) trapframe shown)
    (hshown : ∀ w i, i < 34 → shown w i = 0 ∨ IsLeafEntry (shown w i)) :
    (∃ t own', Kernel.procFreepagetable im r sz s = .ok ((), t) ∧ Framed im roots own own' s t ∧
      (∀ p, own' p = .free ∨ own' p = own p ∧ ¬(own p).At r) ∧ Spared own r s t ∧
      ∀ w i, i < 34 → shown w i = 0) ∨
    (Kernel.procFreepagetable im r sz s = .error leafLeft ∧ ¬∀ w i, i < 34 → shown w i = 0) := by
  obtain ⟨s1, hrun1, hset1⟩ := h.uvmunmap_keep (.inr rfl) (by decide : trampolineVA < maxVA)
    (by decide) (by unfold IsLeafPerm; decide) hspace.trampoline
  have htrap : leaf s1.mem r trapframeVA = mkPte trapframe (pteR ||| pteW) := by
    rw [hset1.leaf_eq r _ (.inr rfl) (by decide), if_neg fun heq => absurd heq.2 (by decide),
      hspace.trapframe]
  obtain ⟨s2, hrun2, hset2⟩ := hset1.owned.uvmunmap_keep (.inr rfl)
    (by decide : trapframeVA < maxVA) (by decide) (by unfold IsLeafPerm; decide) htrap
  have hleaf2 : ∀ va < treeVA, leaf s2.mem r va =
      if va / pgSize = trapframeVA / pgSize ∨ va / pgSize = trampolineVA / pgSize then 0
      else leaf s.mem r va := by
    intro va hva
    rw [hset2.leaf_eq r va (.inr rfl) hva, hset1.leaf_eq r va (.inr rfl) hva]
    simp only [true_and]
    split_ifs <;> simp_all
  have hlow : mapStart < trapframeVA := by decide
  have htop : trapframeVA < treeVA := by decide
  have hfit := hspace.fits
  -- What is left above the user memory is what the windows show.
  have hrest : ∀ va < treeVA, userPages sz * pgSize ≤ va →
      leaf s2.mem r va = 0 ∨ ∃ w i, i < 34 ∧ leaf s2.mem r va = shown w i := by
    intro va hva hlo
    rw [hleaf2 va hva]
    split
    next => exact .inl rfl
    next hout =>
      by_cases hmax : va < maxVA
      · rcases exists_part hmax with hpart | ⟨w, i, hi, hpart⟩ | hpart | hpart
        · exact .inl (hspace.gap va hlo hpart)
        · exact .inr ⟨w, i, hi, by rw [leaf_eq_of_page hpart, hspace.windows w i hi]⟩
        · exact (hout (.inl hpart)).elim
        · exact (hout (.inr hpart)).elim
      · exact .inl (hspace.upper va (Nat.le_of_not_lt hmax) hva)
  have hzero : (∀ va < treeVA, userPages sz * pgSize ≤ va → leaf s2.mem r va = 0) ↔
      ∀ w i, i < 34 → shown w i = 0 := by
    refine ⟨fun hall w i hi => ?_, fun hall va hva hlo => ?_⟩
    · obtain ⟨-, hlo, hhi⟩ := window_bounds w
      have hlt : window w + i * pgSize < trapframeVA := page_lt hhi hi
      have hout := ne_trap (.inl hlt)
      have := hall (window w + i * pgSize) (by omega) (by omega)
      rwa [hleaf2 _ (by omega), if_neg (not_or.mpr hout), hspace.windows w i hi] at this
    · rcases hrest va hva hlo with hz | ⟨w, i, hi, heq⟩
      · exact hz
      · rw [heq, hall w i hi]
  have hframed2 := (Framed.of_within (Within.of_leafSet hset1) hr).trans
    (Framed.of_within (Within.of_leafSet hset2) hr)
  rw [Kernel.procFreepagetable, bind_of_ok hrun1, bind_of_ok hrun2, ← hzero]
  refine (hset2.owned.uvmfree hr hfit (fun va hva => ?_) hspace.bound hspace.unique
    fun va hva hlo => ?_).imp_left ?_
  · obtain ⟨pa, perm, hperm, hpa, hrole⟩ := hspace.user va hva
    have hout := ne_trap (.inl (by omega : va < trapframeVA))
    rw [hleaf2 va (by omega), if_neg (not_or.mpr hout)]
    exact ⟨pa, perm, hperm, hpa, hrole⟩
  · rcases hrest va hva hlo with hz | ⟨w, i, hi, heq⟩
    · exact .inl hz
    · rw [heq]
      exact hshown w i hi
  · rintro ⟨t, own', hrun, hframed, hown, hspared, hall⟩
    refine ⟨t, own', hrun, hframed2.trans hframed, hown, fun p hat hkernel => ?_, hall⟩
    exact (((Within.of_leafSet hset1).trans (.of_leafSet hset2)).data p hat hkernel).trans
      (hspared p hat hkernel)

theorem procFreepagetable_of_empty (h : Owned im own (withRoot roots r) s) (hr : ¬roots r)
    (hspace : Space im own s.mem r (userPages sz) trapframe fun _ _ => 0) :
    ∃ t own', Kernel.procFreepagetable im r sz s = .ok ((), t) ∧ Framed im roots own own' s t ∧
      (∀ p, own' p = .free ∨ own' p = own p ∧ ¬(own p).At r) ∧ Spared own r s t := by
  obtain ⟨t, own', hrun, hframed, hown, hspared, -⟩ := (h.procFreepagetable hr hspace
    fun _ _ _ => .inl rfl).resolve_right fun hfault => hfault.2 fun _ _ _ => rfl
  exact ⟨t, own', hrun, hframed, hown, hspared⟩

end Owned

end Kernel
end FastIpc
