import FastIpc.Kernel.UserMap

/-!
# User memory of a process

The user memory of an address space is the user memory of its page table, below the windows; the
windows and the trap pages stay as they are when user memory grows, shrinks or is copied.

Main results:

- Theorem `Space.ofUserMap`: an address space after a change of its user memory.
- Theorem `Space.uvmalloc`: `uvmalloc` adds all its pages or none.
- Theorem `Space.copyLoop`: `uvmcopy` gives a process as many pages as another has.
-/

namespace FastIpc
namespace Kernel

open Foundation

namespace Space

variable {im : Image} {roots : Nat → Prop} {own own1 : Nat → Role} {s s1 s2 t : Ram}
  {r n n' trapframe mem perm : Nat} {shown : Fin 10 → Nat → Nat}

/-- Writing to data pages leaves an address space alone. -/
theorem stored (h : Space im own s.mem r n trapframe shown) (hstored : Stored im own roots s t)
    (hr : roots r) : Space im own t.mem r n trapframe shown :=
  h.congr (fun va _ => hstored.leaf_eq r va hr) (fun _ _ => Iff.rfl) fun _ _ _ => rfl

/-! ## User memory and address spaces -/

theorem userMap {m : Memory} (h : Space im own m r n trapframe shown) :
    UserMap own m r 0 n mapStart (leaf m r) where
  toUserMem := h.toUserMem
  base_le := Nat.zero_le n
  limit_le := by decide
  same _ _ _ := rfl

/-- A change of the user memory only. -/
theorem ofUserMap {m m' : Memory} (h : Space im own m r n trapframe shown)
    (hmap : UserMap own1 m' r 0 n' mapStart (leaf m r)) :
    Space im own1 m' r n' trapframe shown := by
  have hout : ∀ va < treeVA, mapStart ≤ va → leaf m' r va = leaf m r va := fun va hva hlow =>
    hmap.same va hva (.inr hlow)
  refine ⟨hmap.toUserMem, ?_, ?_, ?_, ?_⟩
  · intro w i hi
    obtain ⟨-, hstart, hend⟩ := window_bounds w
    have htrap : trapframeVA < maxVA := by decide
    rw [hout _ (lt_treeVA (lt_trans (page_lt hend hi) htrap)) (by omega), h.windows w i hi]
  · rw [hout _ (by decide) (by decide), h.trapframe]
  · rw [hout _ (by decide) (by decide), h.trampoline]
  · intro va hlo hhi
    have hmax : mapStart < maxVA := by decide
    rw [hout va hhi (by omega), h.upper va hlo hhi]

theorem pages_le (h : Space im own s.mem r n trapframe shown) (howned : Owned im own roots s) :
    n ≤ phyStop / pgSize :=
  h.userMap.pages_le howned

theorem sz_lt {sz : Nat} (h : Space im own s.mem r (userPages sz) trapframe shown)
    (howned : Owned im own roots s) : sz < 2 ^ 32 := by
  have hpages := h.pages_le howned
  unfold userPages pgRoundUp phyStop pgSize at hpages
  omega

/-- The pages of one process can be copied for another one. -/
theorem copySource {old N tf : Nat} {shown' : Fin 10 → Nat → Nat}
    (h : Space im own s.mem old N tf shown') (hne : old ≠ r) :
    UserMap.CopySource own s.mem old r N := by
  refine ⟨fun va hva => ?_⟩
  obtain ⟨pa, perm, hperm, hpa, hrole⟩ := h.user va hva
  exact ⟨pa, perm, hperm, hpa, by simp [hrole, Role.At, hne], by simp [hrole]⟩

/-! ## Growing, shrinking and copying -/

/-- `uvmdealloc` cuts the user memory down to the size it returns. -/
theorem uvmdealloc {oldsz : Nat} (newsz : Nat)
    (h : Space im own s.mem r (userPages oldsz) trapframe shown)
    (howned : Owned im own roots s) (hr : roots r) :
    ∃ t own', Kernel.uvmdealloc im r oldsz newsz s = .ok (min oldsz newsz, t) ∧
      Within im roots r own own' s t ∧
      Space im own' t.mem r (userPages (min oldsz newsz)) trapframe shown := by
  obtain ⟨t, own', hrun, hwithin, hmap⟩ := h.userMap.uvmdealloc newsz howned hr (Nat.zero_le _)
  exact ⟨t, own', hrun, hwithin, h.ofUserMap hmap⟩

/-- `uvmalloc` grows the user memory to the size it returns, or fails and leaves it as it
was. -/
theorem uvmalloc_of {oldsz : Nat} (newsz : Nat) {P : (Nat → Role) → Ram → Nat → Prop}
    (hP : UserMap.SurvivesGrowth r mapStart P)
    (h : Space im own s.mem r (userPages oldsz) trapframe shown) (hs : P own s (userPages oldsz))
    (howned : Owned im own roots s) (hr : roots r) :
    ∃ res t own', Kernel.uvmalloc im r oldsz newsz s = .ok (res, t) ∧
      Within im roots r own own' s t ∧
      Space im own' t.mem r (userPages (if res = 0 then oldsz else res)) trapframe shown ∧
      (res ≠ 0 → res = max oldsz newsz ∧ P own' t (userPages res)) := by
  obtain ⟨res, t, own', hrun, hwithin, hmap, hres⟩ :=
    h.userMap.uvmalloc newsz hP hs howned hr (Nat.zero_le _) le_rfl
  exact ⟨res, t, own', hrun, hwithin, h.ofUserMap hmap, hres⟩

/-- `uvmcopy` gives a process as many pages as another one has, or none. -/
theorem uvmcopy {old tf sz : Nat} {shown' : Fin 10 → Nat → Nat}
    (h : Space im own s.mem r 0 trapframe shown)
    (hold : Space im own s.mem old (userPages sz) tf shown')
    (howned : Owned im own roots s) (hr : roots r) (hroot : roots old) (hne : old ≠ r) :
    ∃ res t own', Kernel.uvmcopy im old r sz s = .ok (res, t) ∧ Within im roots r own own' s t ∧
      Space im own' t.mem r (if res < 0 then 0 else userPages sz) trapframe shown := by
  obtain ⟨res, t, own', hrun, hwithin, hcases⟩ := h.userMap.copyLoop (userPages sz)
    (hold.copySource hne) howned (.refl howned) (by simp) hr hroot hne (Nat.zero_add _)
    hold.fits
  rw [Nat.zero_mul, userPages_eq, ← Kernel.uvmcopy] at hrun
  refine ⟨res, t, own', hrun, hwithin, ?_⟩
  rcases hcases with ⟨rfl, hmap⟩ | ⟨rfl, hmap, -⟩
  · exact h.ofUserMap hmap
  · exact h.ofUserMap hmap

end Space

end Kernel
end FastIpc
