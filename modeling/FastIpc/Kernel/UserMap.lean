import FastIpc.Kernel.Spaces
import FastIpc.Kernel.Exec

/-!
# User memory of a page table

What the functions of `kernel/vm.c` that give user memory to a process, copy it and
take it away do to a page table.  Only the pages from address 0 on and the empty range behind them
matter; the rest of the page table may map what it likes, and stays as it is.

Main results:

- Theorem `UserMap.addPage`: a page is added behind the user memory.
- Theorem `UserMap.uvmalloc`: `uvmalloc` adds all its pages or none.
- Theorem `UserMap.uvmdealloc`: `uvmdealloc` takes the last pages away.
- Theorem `UserMap.copyLoop`: `uvmcopy` copies all pages or none.
-/

namespace FastIpc
namespace Kernel

open Foundation FaultM
open Function (update update_of_ne update_self)

/-! ## Steps within one page table -/

/-- A step that works on the tree at `r` and its user memory only. -/
structure Within (im : Image) (roots : Nat → Prop) (r : Nat) (own own' : Nat → Role)
    (s t : Ram) : Prop where
  owned : Owned im own' roots t
  kept : ∀ p, own p ≠ .free → (∀ i, own p ≠ .user r i) → own' p = own p
  fresh : ∀ p, own' p = own p ∨ (own' p).At r
  other : ∀ r' va, roots r' → r' ≠ r → va < treeVA → leaf t.mem r' va = leaf s.mem r' va
  data : Spared own r s t

namespace Within

variable {im : Image} {roots : Nat → Prop} {r : Nat} {own own1 own2 : Nat → Role} {s t u : Ram}

theorem trans (h : Within im roots r own own1 s t) (h' : Within im roots r own1 own2 t u) :
    Within im roots r own own2 s u where
  owned := h'.owned
  kept p hfree huser := by
    have hp := h.kept p hfree huser
    rw [h'.kept p (by rwa [hp]) (by rwa [hp]), hp]
  fresh p := by
    rcases h'.fresh p with hsame | hat
    · rw [hsame]
      exact h.fresh p
    · exact .inr hat
  other r' va hr' hne hva := by rw [h'.other r' va hr' hne hva, h.other r' va hr' hne hva]
  data p hat hkernel := by
    obtain ⟨hfree, huser, -⟩ := Role.ne_of_not_at hat
    have hp := h.kept p hfree huser
    exact (h.data p hat hkernel).trans (h'.data p (by rwa [hp]) (by rwa [hp]))

theorem mono {roots' : Nat → Prop} (h : Within im roots r own own1 s t)
    (hsub : ∀ r, roots' r → roots r) : Within im roots' r own own1 s t where
  owned := h.owned.mono hsub
  __ := h
  other r' va hr' := h.other r' va (hsub r' hr')

/-- The step may start in any state with the same memory. -/
theorem of_mem_eq (h : Within im roots r own own1 s t) (hmem : s.mem = u.mem) :
    Within im roots r own own1 u t :=
  ⟨h.owned, h.kept, h.fresh, hmem ▸ h.other, fun p hat hkernel => hmem ▸ h.data p hat hkernel⟩

theorem sameGlobal (h : Within im roots r own own1 s t) : SameGlobal own own1 := by
  intro p hp
  rcases hp with hp | hp
  · refine h.kept p (fun hfree => ?_) fun i huser => ?_
    · rw [hfree] at hp
      exact hp
    · rw [huser] at hp
      exact hp
  · exact (h.fresh p).resolve_right fun hat => hp.not_at hat

theorem of_grown (h : Grown im roots r own own1 s t) : Within im roots r own own1 s t where
  owned := h.owned
  kept p hfree _ := h.kept p hfree
  fresh := h.fresh_at
  other r' va hr' _ _ := h.leaf_eq r' va hr'
  data p hat hkernel := by
    obtain ⟨hfree, -, hnode⟩ := Role.ne_of_not_at hat
    exact h.data p hfree hnode hkernel

theorem of_stored (h : Stored im own roots s t) (hdata : Spared own r s t) :
    Within im roots r own own s t where
  owned := h.owned
  kept _ _ _ := rfl
  fresh _ := .inl rfl
  other r' va hr' _ _ := h.leaf_eq r' va hr'
  data := hdata

theorem refl (h : Owned im own roots s) : Within im roots r own own s s :=
  .of_stored (.refl h) fun p _ _ => .refl _ p

theorem of_leafSet {va w : Nat} (h : LeafSet im own roots r va w s t) :
    Within im roots r own own s t where
  owned := h.owned
  kept _ _ _ := rfl
  fresh _ := .inl rfl
  other r' va' hr' hne hva' := by rw [h.leaf_eq r' va' hr' hva', if_neg fun h => hne h.1]
  data p hat hkernel := by
    obtain ⟨hfree, -, hnode⟩ := Role.ne_of_not_at hat
    exact h.data p hkernel hfree hnode

end Within

namespace Owned

variable {im : Image} {roots : Nat → Prop} {r va pa perm : Nat} {own : Nat → Role} {s t : Ram}

/-- Writing to user memory spares the pages of other trees. -/
theorem writeUser {i : Nat} (h : Owned im own roots s) (hrole : own pa = .user r i)
    (hout : ∀ x, ¬(pa ≤ x ∧ x < pa + pgSize) → t.mem x = s.mem x)
    (hlist : t.freelist = s.freelist) (hfails : t.fails = s.fails) :
    Stored im own roots s t ∧ Spared own r s t := by
  have hpage : IsPage im pa := h.page pa (by simp [hrole])
  refine ⟨.of_write h hpage (by simp [hrole]) (by simp [hrole]) hout hlist hfails,
    fun p hat hkernel => h.agreeOn_of_ne hpage hout hkernel ?_⟩
  rintro rfl
  rw [hrole] at hat
  exact hat rfl

theorem kalloc_zero (h : Owned im own roots s) (hrun : Kernel.kalloc s = .ok (0, t)) :
    Owned im own roots t ∧ t.mem = s.mem := by
  rcases h.kalloc hrun with ⟨-, rfl⟩ | ⟨hfree, -, -⟩
  · exact ⟨h.of_mem_eq rfl rfl, rfl⟩
  · exact absurd (h.page 0 (by simp [hfree])).pos (lt_irrefl 0)

/-- What the loop of `mappages` does for one page if nothing is mapped there: it takes the
page-table pages that are missing, and if it gets them it fills in the entry. -/
theorem mapPage (h : Owned im own roots s) (hr : roots r) (hperm : perm < 1024) (hpa : pa < 2 ^ 64)
    (hva : va < maxVA) (hempty : leaf s.mem r va &&& pteV = 0) :
    ∃ res t own' s1, mapLoop r perm 0 va pa s = .ok (res, t) ∧ Grown im roots r own own' s s1 ∧
      ((res = -1 ∧ t = s1) ∨ (res = 0 ∧ LeafSet im own' roots r va (mkPte pa perm) s1 t)) ∧
      Exactly (missing s.mem r va) (res = 0) s t ∧ (res = 0 → PathAdded s.mem t.mem r va) := by
  obtain ⟨entry, s1, hwalk⟩ : ∃ entry s1, Kernel.walk r va true s = .ok (entry, s1) := by
    rw [Kernel.walk, if_neg (by omega)]
    exact exists_walkFrom va true 2 r s
  obtain ⟨own', hgrown, hentry⟩ := h.walk hr hwalk
  obtain ⟨hexactly, hadded⟩ := h.walk_exactly hr hwalk
  rw [mapLoop, bind_of_ok hwalk]
  cases entry with
  | none =>
    exact ⟨-1, s1, own', s1, rfl, hgrown, .inl ⟨rfl, rfl⟩, hexactly.congr (by simp), by simp⟩
  | some pte =>
    obtain ⟨n, rfl, hn⟩ := hentry pte rfl
    have hload : loadWord (n + 8 * px 0 va) s1 = .ok (leaf s.mem r va, s1) := by
      rw [← hgrown.leaf_eq r va hr, leaf_of_table hn]
      rfl
    simp only
    rw [bind_of_ok hload, if_neg (not_not.mpr hempty)]
    obtain ⟨howned, htable, hleaf⟩ :=
      hgrown.owned.storeLeaf hr hn (mkPte_lt_word hperm hpa) hva rfl
    refine ⟨0, _, own', s1, rfl, hgrown, .inr ⟨rfl, howned, hleaf,
      fun r' path hr' => htable r' hr' path,
      fun p hp _ hnode => hgrown.owned.storeLeaf_agree hr hn _ hp hnode⟩, hexactly.next (by simp)
      (hgrown.owned.exactly_zero howned (fun _ => Iff.rfl) rfl rfl), fun _ path hlen => ?_⟩
    have hsome := congrArg Option.isSome (htable r hr path hlen)
    exact (Bool.eq_iff_iff.mp hsome).trans (hadded (by simp) path hlen)

end Owned

theorem div_pgSize_eq_iff {va n : Nat} :
    va / pgSize = n ↔ n * pgSize ≤ va ∧ va < (n + 1) * pgSize := by
  unfold pgSize
  omega

/-! ## The user memory of a page table -/

/-- User memory whose first `base` pages are as `kept` says, as is what is mapped from `limit` on. -/
structure UserMap (own : Nat → Role) (m : Memory) (r base n limit : Nat) (kept : Nat → Nat) :
    Prop extends UserMem own m r n limit where
  base_le : base ≤ n
  limit_le : limit ≤ maxVA
  same : ∀ va < treeVA, va < base * pgSize ∨ limit ≤ va → leaf m r va = kept va

namespace UserMap

variable {im : Image} {roots : Nat → Prop} {own own1 : Nat → Role} {s s1 s2 t v : Ram}
  {m m' : Memory} {r base n n' limit mem perm : Nat} {kept : Nat → Nat}

/-- A change outside the page table leaves its user memory alone. -/
theorem congr (h : UserMap own m r base n limit kept)
    (hleaf : ∀ va < treeVA, leaf m' r va = leaf m r va)
    (hown : ∀ pa i, own pa = .user r i ↔ own1 pa = .user r i) :
    UserMap own1 m' r base n limit kept where
  toUserMem := h.toUserMem.congr
    (fun va hva => hleaf va (lt_treeVA (lt_of_lt_of_le hva h.limit_le))) hown
  __ := h
  same va hva hout := by rw [hleaf va hva, h.same va hva hout]

theorem rebase (h : UserMap own m r base n limit kept) : UserMap own m r n n limit (leaf m r) :=
  ⟨h.toUserMem, le_rfl, h.limit_le, fun _ _ _ => rfl⟩

section

variable (h : UserMap own s.mem r base n limit kept) (howned : Owned im own roots s)
include h howned

theorem page_eq {p i : Nat} (hp : own p = .user r i) : pte2pa (leaf s.mem r (i * pgSize)) = p := by
  obtain ⟨pa, perm, hperm, hpa, hrole⟩ := h.user (i * pgSize)
    (Nat.mul_lt_mul_of_pos_right (h.bound p i hp) (by decide))
  rw [Nat.mul_div_cancel _ (by decide)] at hrole
  obtain rfl := h.unique p pa i hp hrole
  have hpage : IsPage im p := howned.page p (by simp [hp])
  rw [hpa, pte2pa_mkPte hperm.1 hpage.aligned hpage.lt_pow]

theorem role_page {va : Nat} (hva : va < n * pgSize) :
    own (pte2pa (leaf s.mem r va)) = .user r (va / pgSize) := by
  obtain ⟨pa, perm, hperm, hpa, hrole⟩ := h.user va hva
  have hpage : IsPage im pa := howned.page pa (by simp [hrole])
  rw [hpa, pte2pa_mkPte hperm.1 hpage.aligned hpage.lt_pow, hrole]

/-- User memory fits into physical memory behind the kernel. -/
theorem pages_le_sub : n ≤ phyStop / pgSize - im.endAddr / pgSize := by
  have hex : ∀ i : Fin n, ∃ pa, own pa = .user r i := by
    intro i
    obtain ⟨pa, -, -, -, hrole⟩ := h.user (i * pgSize)
      (Nat.mul_lt_mul_of_pos_right i.isLt (by decide))
    rw [Nat.mul_div_cancel _ (by decide)] at hrole
    exact ⟨pa, hrole⟩
  choose page hpage using hex
  have hisPage : ∀ i, IsPage im (page i) := fun i => howned.page _ (by simp [hpage i])
  have hlow : ∀ i, im.endAddr / pgSize ≤ page i / pgSize := fun i =>
    Nat.div_le_div_right (hisPage i).endAddr_le
  let index : Fin n → Fin (phyStop / pgSize - im.endAddr / pgSize) := fun i =>
    ⟨page i / pgSize - im.endAddr / pgSize, Nat.sub_lt_sub_right (hlow i)
      (Nat.div_lt_div_of_lt_of_dvd (by decide) (hisPage i).lt_phyStop)⟩
  have hinj : Function.Injective index := by
    intro i j hij
    have hval : page i / pgSize = page j / pgSize := by
      have hsub : page i / pgSize - im.endAddr / pgSize = page j / pgSize - im.endAddr / pgSize :=
        congrArg Fin.val hij
      have hi := hlow i
      have hj := hlow j
      omega
    have heq : page i = page j := by
      have hi := (hisPage i).aligned
      have hj := (hisPage j).aligned
      unfold pgSize at *
      omega
    have hrole := hpage i
    rw [heq, hpage j] at hrole
    simp only [Role.user.injEq, true_and] at hrole
    exact Fin.ext hrole.symm
  simpa using Fintype.card_le_of_injective index hinj

theorem pages_le : n ≤ phyStop / pgSize :=
  le_trans (h.pages_le_sub howned) (Nat.sub_le ..)

/-- User memory can grow as far as physical memory goes. -/
theorem succ_fits (hlimit : mapStart ≤ limit) : (n + 1) * pgSize ≤ limit := by
  have hle := h.pages_le howned
  refine le_trans ?_ hlimit
  rw [mapStart_eq]
  unfold phyStop pgSize at *
  omega

/-- The pages at the addresses that are kept are the same. -/
theorem role_iff (h' : UserMap own1 t.mem r base n' limit kept) (howned' : Owned im own1 roots t)
    {i : Nat} (hi : i < base) (p : Nat) : own p = .user r i ↔ own1 p = .user r i := by
  have hlow : i * pgSize < base * pgSize := Nat.mul_lt_mul_of_pos_right hi (by decide)
  have hn := Nat.mul_le_mul_right pgSize h.base_le
  have hn' := Nat.mul_le_mul_right pgSize h'.base_le
  have hlt : i * pgSize < treeVA := by
    have hfits := le_trans h.fits h.limit_le
    exact lt_treeVA (by omega)
  have hleaf : leaf t.mem r (i * pgSize) = leaf s.mem r (i * pgSize) := by
    rw [h'.same _ hlt (.inl hlow), h.same _ hlt (.inl hlow)]
  have hdiv : i * pgSize / pgSize = i := Nat.mul_div_cancel _ (by decide)
  constructor
  · intro hp
    have hrole := h'.role_page howned' (show i * pgSize < _ by omega)
    rwa [hleaf, h.page_eq howned hp, hdiv] at hrole
  · intro hp
    have hrole := h.role_page howned (show i * pgSize < _ by omega)
    rwa [← hleaf, h'.page_eq howned' hp, hdiv] at hrole

end

theorem replace (h : UserMap own m r base n limit kept) (hbase : base ≤ n')
    (hfit : n' * pgSize ≤ limit)
    (hout : ∀ va < treeVA, va < base * pgSize ∨ limit ≤ va → leaf m' r va = leaf m r va)
    (huser : ∀ va < n' * pgSize, ∃ pa perm, IsLeafPerm perm ∧ leaf m' r va = mkPte pa perm ∧
      own1 pa = .user r (va / pgSize))
    (honly : ∀ pa i, own1 pa = .user r i → i < n' ∧ ∀ pa', own1 pa' = .user r i → pa = pa')
    (hgap : ∀ va, n' * pgSize ≤ va → va < limit → leaf m' r va = 0) :
    UserMap own1 m' r base n' limit kept where
  base_le := hbase
  fits := hfit
  limit_le := h.limit_le
  user := huser
  bound pa i hpa := (honly pa i hpa).1
  unique pa pa' i hpa := (honly pa i hpa).2 pa'
  gap := hgap
  same va hva hkept := by rw [hout va hva hkept, h.same va hva hkept]

/-! ### Adding pages -/

/-- The page table after one more page was mapped behind its user memory. -/
theorem setPage (h : UserMap own m r base n limit kept)
    (hfit : (n + 1) * pgSize ≤ limit) (hperm : IsLeafPerm perm)
    (hleaf : ∀ va < treeVA, leaf m' r va = if va / pgSize = n then mkPte mem perm else leaf m r va)
    (hown : ∀ pa i, pa ≠ mem → (own pa = .user r i ↔ own1 pa = .user r i))
    (hfree : own mem = .free) (hmem : own1 mem = .user r n) :
    UserMap own1 m' r base (n + 1) limit kept := by
  have hmax := h.limit_le
  have hbase := Nat.mul_le_mul_right pgSize h.base_le
  have hout : ∀ va < treeVA, va < base * pgSize ∨ limit ≤ va → leaf m' r va = leaf m r va := by
    intro va hva hkept
    rw [hleaf va hva, if_neg fun hpage => ?_]
    have hrange := div_pgSize_eq_iff.mp hpage
    omega
  have honly : ∀ pa i, own1 pa = .user r i →
      pa = mem ∧ i = n ∨ pa ≠ mem ∧ own pa = .user r i ∧ i < n := by
    intro pa i hpa
    by_cases hpm : pa = mem
    · rw [hpm, hmem] at hpa
      cases hpa
      exact .inl ⟨hpm, rfl⟩
    · have hold := (hown pa i hpm).mpr hpa
      exact .inr ⟨hpm, hold, h.bound pa i hold⟩
  refine h.replace (Nat.le_succ_of_le h.base_le) hfit hout ?_ ?_ ?_
  · intro va hva
    have hlt : va < treeVA := lt_treeVA (by omega)
    by_cases hpage : va / pgSize = n
    · exact ⟨mem, perm, hperm, by rw [hleaf va hlt, if_pos hpage], by rw [hmem, hpage]⟩
    · have hold : va < n * pgSize := by
        by_contra hge
        exact hpage (div_pgSize_eq_iff.mpr ⟨Nat.le_of_not_lt hge, hva⟩)
      obtain ⟨pa, perm', hperm', hpa, hrole⟩ := h.user va hold
      have hpm : pa ≠ mem := by
        rintro rfl
        simp [hfree] at hrole
      exact ⟨pa, perm', hperm', by rw [hleaf va hlt, if_neg hpage, hpa], (hown _ _ hpm).mp hrole⟩
  · intro pa i hpa
    rcases honly pa i hpa with ⟨rfl, rfl⟩ | ⟨-, hold, hlt⟩
    · refine ⟨Nat.lt_succ_self i, fun pa' hpa' => ?_⟩
      rcases honly pa' i hpa' with ⟨hpm, -⟩ | ⟨-, -, hlt⟩
      · exact hpm.symm
      · exact absurd hlt (lt_irrefl i)
    · refine ⟨Nat.lt_succ_of_lt hlt, fun pa' hpa' => ?_⟩
      rcases honly pa' i hpa' with ⟨-, rfl⟩ | ⟨-, hold', -⟩
      · exact absurd hlt (lt_irrefl i)
      · exact h.unique pa pa' i hold hold'
  · intro va hlo hhi
    rw [hleaf va (lt_treeVA (by omega)), if_neg, h.gap va ?_ hhi]
    · exact le_trans (Nat.mul_le_mul_right _ (Nat.le_succ n)) hlo
    · exact fun hpage => absurd (div_pgSize_eq_iff.mp hpage).2 (Nat.not_lt.mpr hlo)

/-- The page `mem` was mapped as page `n` of the user memory at `r`; the contents of
user memory are as when `mappages` was called. -/
structure PageAdded (own own' : Nat → Role) (r n mem perm : Nat) (s s2 t : Ram) : Prop where
  role : own' mem = .user r n
  old : ∀ p i, p ≠ mem → own' p = .user r i → own p = .user r i
  leaf_eq : ∀ va < treeVA, leaf t.mem r va =
    if va / pgSize = n then mkPte mem perm else leaf s.mem r va
  user : ∀ p i, own' p = .user r i → AgreeOn s2.mem t.mem p

/-- A page that was just allocated is mapped behind the user memory, or the call fails and
the page can be freed again. -/
theorem addPage (h : UserMap own s.mem r base n limit kept) (howned : Owned im own roots s)
    (hr : roots r) (hfit : (n + 1) * pgSize ≤ limit) (hkalloc : kalloc s = .ok (mem, s1))
    (hmem : mem ≠ 0) (hperm : IsLeafPerm perm)
    (hout : ∀ x, ¬(mem ≤ x ∧ x < mem + pgSize) → v.mem x = s1.mem x)
    (hlist : v.freelist = s1.freelist) (hfails : v.fails = s1.fails) :
    ∃ res t, mappages r (n * pgSize) pgSize mem perm v = .ok (res, t) ∧
      ((∃ own', res = 0 ∧ PageAdded own own' r n mem perm s v t ∧ Within im roots r own own' s t ∧
        UserMap own' t.mem r base (n + 1) limit kept) ∨
      (∃ u own', res = -1 ∧ kfree im mem t = .ok ((), u) ∧ Within im roots r own own' s u ∧
        UserMap own' u.mem r base n limit kept)) ∧
      Exactly (1 + missing s.mem r (n * pgSize)) (res = 0) s t ∧
      (res = 0 → PathAdded s.mem t.mem r (n * pgSize)) := by
  rcases howned.kalloc hkalloc with ⟨hzero, -⟩ | ⟨hfree, hmem1, howned1⟩
  · exact (hmem hzero).elim
  have howned1 := howned1 (.user r n) (by simp) (by simp)
  have hagree := howned.kalloc_agree hfree hmem1
  have hrole : update own mem (.user r n) mem = .user r n := update_self ..
  have hkept : ∀ p, own p ≠ .free → update own mem (.user r n) p = own p := by
    intro p hp
    rw [update_of_ne]
    rintro rfl
    exact hp hfree
  have hstored : Stored im _ roots s1 v := Stored.of_write howned1
    (howned1.page mem (by simp)) (by simp) (by simp) hout hlist hfails
  have hlt : n * pgSize < limit := lt_of_lt_of_le
    (Nat.mul_lt_mul_of_pos_right (Nat.lt_succ_self n) (by decide)) hfit
  obtain ⟨res, t, own', s3, hrun, hgrown, hcases, hexactly, hadded⟩ := hstored.owned.mapPage hr
    hperm.1 ((howned1.page mem (by simp)).lt_pow.trans (by decide))
    (lt_of_lt_of_le hlt h.limit_le) (by rw [hstored.leaf_eq r _ hr,
      howned.leaf_congr hr (hagree r hr), h.gap _ le_rfl hlt, Nat.zero_and])
  refine ⟨res, t, by rw [mappages_one (Nat.mul_mod_left ..), hrun], ?_⟩
  -- The page itself belongs to no tree.
  have htable : ∀ path, path.length ≤ 2 → table v.mem r path = table s.mem r path := by
    intro path hlen
    rw [hstored.table_eq r path hr hlen, howned.table_congr hr (hagree r hr) hlen]
  have hmissing : missing v.mem r (n * pgSize) = missing s.mem r (n * pgSize) := by
    rw [missing, missing, htable _ (by simp), htable _ (by simp)]
  rw [hmissing] at hexactly
  have hexactly' : Exactly (1 + missing s.mem r (n * pgSize)) (res = 0) s t := by
    rw [← Nat.add_zero 1]
    exact ((howned.kalloc_exactly hkalloc).next hmem
      (howned1.exactly_zero hstored.owned (fun _ => Iff.rfl) hfails trivial)).next trivial hexactly
  have hadded' : res = 0 → PathAdded s.mem t.mem r (n * pgSize) := by
    intro hres path hlen
    rw [hadded hres path hlen, htable path hlen]
  have hrole' : own' mem = .user r n := by rw [hgrown.kept mem (by simp), hrole]
  have hleaf : ∀ r' va, roots r' → leaf s3.mem r' va = leaf s.mem r' va := fun r' va hr' => by
    rw [hgrown.leaf_eq r' va hr', hstored.leaf_eq r' va hr', howned.leaf_congr hr' (hagree r' hr')]
  have hother : ∀ p, p ≠ mem → own p ≠ .free → own' p = own p := fun p hpm hp => by
    rw [hgrown.kept p (by rwa [hkept p hp]), hkept p hp]
  have hfresh : ∀ p, p ≠ mem → own' p = own p ∨ (own' p).At r := fun p hpm => by
    have hsame := hgrown.fresh_at p
    rwa [update_of_ne hpm] at hsame
  have huser : ∀ p i, p ≠ mem → (own p = .user r i ↔ own' p = .user r i) := by
    intro p i hpm
    constructor
    · intro hp
      rw [hother p hpm (by simp [hp]), hp]
    · intro hp
      by_cases hpfree : own p = .free
      · rcases hgrown.fresh p (by rwa [update_of_ne hpm]) with hfree' | ⟨path, hnode⟩
        · simp [hp] at hfree'
        · simp [hp] at hnode
      · rw [← hother p hpm hpfree, hp]
  have hout' : ∀ x, ¬(mem ≤ x ∧ x < mem + pgSize) → v.mem x = s.mem x := fun x hx => by
    rw [hout x hx, hmem1, Memory.fill_of_not_mem hx]
  have hpageMem := howned.page mem (by simp [hfree])
  have hdata : Spared own r s s3 := by
    intro p hat hkernel
    obtain ⟨hp, -, hnode⟩ := Role.ne_of_not_at hat
    have hpm : p ≠ mem := fun heq => hp (heq ▸ hfree)
    refine (howned.agreeOn_of_ne hpageMem hout' hkernel hpm).trans (hgrown.data p ?_ ?_ ?_)
    all_goals rwa [hkept p hp]
  refine ⟨?_, hexactly', hadded'⟩
  rcases hcases with ⟨rfl, rfl⟩ | ⟨rfl, hset⟩
  · -- The mapping failed; the page is freed.
    have hpage := hgrown.owned.page mem (by simp [hrole'])
    have hnode : ∀ r', roots r' → ∀ path, own' mem ≠ .node r' path := by simp [hrole']
    obtain ⟨u, hkfree, howned', -, houtU⟩ := hgrown.owned.kfree hpage (by simp [hrole']) hnode
    have hleafU : ∀ r' va, roots r' → leaf u.mem r' va = leaf s.mem r' va := fun r' va hr' => by
      rw [hgrown.owned.leaf_congr hr' (hgrown.owned.write_page hpage hnode houtU r' hr'),
        hleaf r' va hr']
    refine .inr ⟨u, _, rfl, hkfree, ⟨howned', fun p hp _ => ?_, fun p => ?_,
      fun r' va hr' _ _ => hleafU r' va hr', fun p hat hkernel => ?_⟩,
      h.congr (fun va _ => hleafU r va hr) fun p i => ?_⟩
    · have hpm : p ≠ mem := by
        rintro rfl
        exact hp hfree
      rw [update_of_ne hpm, hother p hpm hp]
    · by_cases hpm : p = mem
      · rw [hpm, update_self]
        exact .inr trivial
      · rw [update_of_ne hpm]
        exact hfresh p hpm
    · obtain ⟨hp, -, -⟩ := Role.ne_of_not_at hat
      have hpm : p ≠ mem := fun heq => hp (heq ▸ hfree)
      exact (hdata p hat hkernel).trans (hgrown.owned.agreeOn_of_ne hpage houtU
        (by rwa [hother p hpm hp]) hpm)
    · by_cases hpm : p = mem
      · simp [hpm, hfree]
      · rw [update_of_ne hpm]
        exact huser p i hpm
  · have hwithin : Within im roots r own own' s s3 := by
      refine ⟨hgrown.owned, fun p hp _ => hother p (fun hpm => hp (hpm ▸ hfree)) hp, fun p => ?_,
        fun r' va hr' _ _ => hleaf r' va hr', hdata⟩
      by_cases hpm : p = mem
      · rw [hpm, hrole']
        exact .inr rfl
      · exact hfresh p hpm
    have hleaf' : ∀ va < treeVA, leaf t.mem r va =
        if va / pgSize = n then mkPte mem perm else leaf s.mem r va := by
      intro va hva
      rw [hset.leaf_eq r va hr hva, Nat.mul_div_cancel _ (by decide), hleaf r va hr]
      simp
    refine .inl ⟨own', rfl, ⟨hrole', fun p i hpm hp => (huser p i hpm).mpr hp, hleaf',
      fun p i hp => ?_⟩,
      hwithin.trans (.of_leafSet hset), h.setPage hfit hperm hleaf' huser hfree hrole'⟩
    -- A page of user memory had this role already when it was mapped.
    have hsame : own' p = update own mem (.user r n) p := by
      refine hgrown.kept p fun hfree' => ?_
      rcases hgrown.fresh p hfree' with hfree'' | ⟨path, hnode⟩
      · simp [hp] at hfree''
      · simp [hp] at hnode
    refine (hgrown.data p ?_ ?_ ?_).trans (hset.data p (by simp [hp]) (by simp [hp]) (by simp [hp]))
    all_goals simp [← hsame, hp]

end UserMap

/-! ## Taking pages away -/

theorem Owned.unmapUser {im : Image} {roots : Nat → Prop} {own : Nat → Role} {s : Ram} {r : Nat}
    (h : Owned im own roots s) (hr : roots r) (m n : Nat) (hend : (m + n) * pgSize ≤ maxVA)
    (huser : ∀ i < n, ∃ pa perm, IsLeafPerm perm ∧
      leaf s.mem r ((m + i) * pgSize) = mkPte pa perm ∧ own pa = .user r (m + i))
    (hunique : ∀ pa pa' i, own pa = .user r i → own pa' = .user r i → pa = pa') :
    ∃ t own', Kernel.unmapLoop im r true n (m * pgSize) s = .ok ((), t) ∧
      Within im roots r own own' s t ∧ (∀ va < treeVA, leaf t.mem r va =
        if m * pgSize ≤ va ∧ va < (m + n) * pgSize then 0 else leaf s.mem r va) ∧
      ∀ p, own' p = .free ∧ (∃ i < n, own p = .user r (m + i)) ∨
        own' p = own p ∧ ∀ i < n, own p ≠ .user r (m + i) := by
  have hex : ∀ i : Nat, ∃ pa, i < n → ∃ perm, IsLeafPerm perm ∧
      leaf s.mem r ((m + i) * pgSize) = mkPte pa perm ∧ own pa = .user r (m + i) := by
    intro i
    by_cases hi : i < n
    · obtain ⟨pa, hpa⟩ := huser i hi
      exact ⟨pa, fun _ => hpa⟩
    · exact ⟨0, fun hi' => (hi hi').elim⟩
  choose page hpage using hex
  have hrole : ∀ i < n, own (page i) = .user r (m + i) := fun i hi => by
    obtain ⟨perm, -, -, hrole⟩ := hpage i hi
    exact hrole
  obtain ⟨t, own', hrun, hunmapped⟩ := h.unmapLoop hr true n (m * pgSize) page
    (by rwa [← Nat.add_mul])
    (fun i hi => by
      obtain ⟨perm, hperm, hleaf, -⟩ := hpage i hi
      exact ⟨perm, hperm, by rw [← Nat.add_mul, hleaf]⟩)
    (fun _ i hi => ⟨h.page _ (by simp [hrole i hi]), by simp [hrole i hi], by simp [hrole i hi]⟩)
    (fun _ i hi i' hi' heq => by
      have hsame := hrole i hi
      rw [heq, hrole i' hi'] at hsame
      simp only [Role.user.injEq, true_and] at hsame
      omega)
    (Nat.mul_mod_left ..)
  have hown : ∀ p, own' p = .free ∧ (∃ i < n, own p = .user r (m + i)) ∨
      own' p = own p ∧ ∀ i < n, own p ≠ .user r (m + i) := by
    intro p
    rw [hunmapped.own_eq]
    split
    next hfreed =>
      obtain ⟨-, i, hi, rfl⟩ := hfreed
      exact .inl ⟨rfl, i, hi, hrole i hi⟩
    next hkept =>
      refine .inr ⟨rfl, fun i hi hp => hkept ⟨rfl, i, hi, ?_⟩⟩
      exact hunique _ _ _ (hrole i hi) hp
  refine ⟨t, own', hrun, ⟨hunmapped.owned, fun p _ huser => ?_, fun p => ?_,
    fun r' va hr' hne hva => ?_, fun p hat hkernel => ?_⟩, fun va hva => ?_, hown⟩
  · exact ((hown p).resolve_left fun ⟨_, i, _, hi⟩ => huser _ hi).1
  · rcases hown p with ⟨hfree, -⟩ | ⟨hsame, -⟩
    · rw [hfree]
      exact .inr trivial
    · exact .inl hsame
  · rw [hunmapped.leaf_eq r' va hr' hva, if_neg fun h => hne h.1]
  · obtain ⟨hfree, huser, hnode⟩ := Role.ne_of_not_at hat
    have hsame : own' p = own p := ((hown p).resolve_left fun ⟨_, i, _, hi⟩ => huser _ hi).1
    exact hunmapped.data p (by rwa [hsame]) (by rwa [hsame]) (by rwa [hsame])
  · rw [hunmapped.leaf_eq r va hr hva, ← Nat.add_mul]
    simp

namespace UserMap

variable {im : Image} {roots : Nat → Prop} {own : Nat → Role} {s t : Ram}
  {r base n limit : Nat} {kept : Nat → Nat}
variable {i oldsz perm : Nat}

theorem shrink (h : UserMap own s.mem r base (n + i) limit kept) (howned : Owned im own roots s)
    (hr : roots r) (hbase : base ≤ n) :
    ∃ t own', unmapLoop im r true i (n * pgSize) s = .ok ((), t) ∧
      Within im roots r own own' s t ∧ UserMap own' t.mem r base n limit kept := by
  have hmax := h.limit_le
  have hfit := h.fits
  have hbase' := Nat.mul_le_mul_right pgSize hbase
  have hle : n * pgSize ≤ (n + i) * pgSize := Nat.mul_le_mul_right _ (Nat.le_add_right n i)
  obtain ⟨t, own', hrun, hwithin, hleaf, hown⟩ := howned.unmapUser hr n i (by omega)
    (fun j hj => by
      obtain ⟨pa, perm, hperm, hpa, hrole⟩ := h.user ((n + j) * pgSize)
        (Nat.mul_lt_mul_of_pos_right (by omega) (by decide))
      rw [Nat.mul_div_cancel _ (by decide)] at hrole
      exact ⟨pa, perm, hperm, hpa, hrole⟩)
    h.unique
  have hout : ∀ va < treeVA, va < base * pgSize ∨ limit ≤ va →
      leaf t.mem r va = leaf s.mem r va := by
    intro va hva hkept
    rw [hleaf va hva, if_neg (by omega)]
  have honly : ∀ pa j, own' pa = .user r j → j < n ∧ own pa = .user r j := by
    intro pa j hpa
    rcases hown pa with ⟨hfree, -⟩ | ⟨hsame, hkept⟩
    · simp [hpa] at hfree
    · rw [hsame] at hpa
      refine ⟨?_, hpa⟩
      by_contra hge
      have hlt := h.bound pa j hpa
      exact hkept (j - n) (by omega) (by rw [hpa, show n + (j - n) = j by omega])
  refine ⟨t, own', hrun, hwithin, h.replace hbase (by omega) hout ?_
    (fun pa j hpa => ⟨(honly pa j hpa).1, fun pa' hpa' =>
      h.unique pa pa' j (honly pa j hpa).2 (honly pa' j hpa').2⟩) ?_⟩
  · intro va hva
    obtain ⟨pa, perm, hperm, hpa, hrole⟩ := h.user va (by omega)
    refine ⟨pa, perm, hperm, ?_, ?_⟩
    · rw [hleaf va (lt_treeVA (by omega)), if_neg (by omega), hpa]
    · rcases hown pa with ⟨-, j, -, hj⟩ | ⟨hsame, -⟩
      · rw [hrole] at hj
        simp only [Role.user.injEq, true_and] at hj
        have hpage := (div_pgSize_eq_iff.mp hj).1
        have := Nat.mul_le_mul_right pgSize (Nat.le_add_right n j)
        omega
      · rw [hsame, hrole]
  · intro va hlo hhi
    rw [hleaf va (lt_treeVA (by omega))]
    split
    next => rfl
    next hrange => exact h.gap va (by omega) hhi

/-- `uvmdealloc` cuts the user memory down to the size it returns. -/
theorem uvmdealloc (newsz : Nat) (h : UserMap own s.mem r base (userPages oldsz) limit kept)
    (howned : Owned im own roots s) (hr : roots r) (hbase : base ≤ userPages (min oldsz newsz)) :
    ∃ t own', Kernel.uvmdealloc im r oldsz newsz s = .ok (min oldsz newsz, t) ∧
      Within im roots r own own' s t ∧
      UserMap own' t.mem r base (userPages (min oldsz newsz)) limit kept := by
  rw [Kernel.uvmdealloc]
  split
  next hle =>
    rw [Nat.min_eq_left hle]
    exact ⟨s, own, rfl, .refl howned, h⟩
  next hlt =>
    obtain ⟨i, hi⟩ := Nat.exists_eq_add_of_le (userPages_mono (Nat.le_of_not_le hlt))
    rw [hi] at h
    rw [Nat.min_eq_right (Nat.le_of_not_le hlt)] at hbase ⊢
    rw [pgRoundUp_eq, pgRoundUp_eq, hi]
    split
    next =>
      obtain ⟨t, own', hrun, hwithin, hspace⟩ := h.shrink howned hr hbase
      refine ⟨t, own', ?_, hwithin, hspace⟩
      rw [← Nat.sub_mul, Nat.add_sub_cancel_left, Nat.mul_div_cancel _ (by decide), uvmunmap,
        if_neg (by simp), bind_of_ok hrun]
      rfl
    next hsame =>
      have hzero : i = 0 := by
        by_contra hne
        exact hsame (Nat.mul_lt_mul_of_pos_right (by omega) (by decide))
      subst hzero
      exact ⟨s, own, rfl, .refl howned, h⟩

theorem uvmdealloc_pages (h : UserMap own s.mem r base (n + i) limit kept)
    (howned : Owned im own roots s) (hr : roots r) (hbase : base ≤ n) :
    ∃ res t own', Kernel.uvmdealloc im r ((n + i) * pgSize) (n * pgSize) s = .ok (res, t) ∧
      Within im roots r own own' s t ∧ UserMap own' t.mem r base n limit kept := by
  have hmin : min ((n + i) * pgSize) (n * pgSize) = n * pgSize :=
    Nat.min_eq_right (Nat.mul_le_mul_right _ (Nat.le_add_right n i))
  rw [← userPages_mul (n + i)] at h
  obtain ⟨t, own', hrun, hwithin, hspace⟩ := h.uvmdealloc (n * pgSize) howned hr
    (by rwa [hmin, userPages_mul])
  rw [hmin, userPages_mul] at hspace
  exact ⟨_, t, own', hrun, hwithin, hspace⟩

theorem userPerm_isLeaf : IsLeafPerm (pteW ||| pteX ||| pteR ||| pteU) := ⟨by decide, by decide⟩

/-- A page with the given bytes was added at the end of user memory; the pages before it keep their
contents. -/
structure PageFilled (own own' : Nat → Role) (r n perm : Nat) (bytes : Nat → BitVec 8) (s t : Ram)
    (mem : Nat) : Prop where
  role : own' mem = .user r n
  filled : ∀ x < pgSize, t.mem (mem + x) = bytes x
  leaf_eq : ∀ va < treeVA, leaf t.mem r va =
    if va / pgSize = n then mkPte mem perm else leaf s.mem r va
  old : ∀ p i, p ≠ mem → own' p = .user r i → own p = .user r i ∧ AgreeOn s.mem t.mem p

theorem PageAdded.filled {mem : Nat} {own' : Nat → Role} {s2 : Ram} {bytes : Nat → BitVec 8}
    (h : PageAdded own own' r n mem perm s s2 t) (howned : Owned im own' roots t)
    (hbytes : ∀ x < pgSize, s2.mem (mem + x) = bytes x)
    (hout : ∀ x, ¬(mem ≤ x ∧ x < mem + pgSize) → s2.mem x = s.mem x) :
    PageFilled own own' r n perm bytes s t mem := by
  have hpage : ∀ {p i}, own' p = .user r i → IsPage im p := fun hp => howned.page _ (by simp [hp])
  refine ⟨h.role, fun x hx => ?_, h.leaf_eq, fun p i hne hp => ⟨h.old p i hne hp, fun x hlo hhi => ?_⟩⟩
  · rw [h.user mem n h.role _ (Nat.le_add_right ..) (by omega), hbytes x hx]
  · rw [h.user p i hp x hlo hhi, hout x]
    intro hx
    exact hne (IsPage.eq_of_mem (hpage hp).aligned (hpage h.role).aligned hlo hhi hx.1 hx.2)

/-- A page of zeroes was added at the end of user memory. -/
def ZeroPageAdded (own own' : Nat → Role) (r n : Nat) (s t : Ram) (mem : Nat) : Prop :=
  PageFilled own own' r n (pteW ||| pteX ||| pteR ||| pteU) (fun _ => 0) s t mem

/-- One round of `uvmalloc`: it gives back what was allocated, for lack of pages, or goes on
with a new page of zeroes. -/
theorem allocPage (count : Nat) (h : UserMap own s.mem r base (n + i) limit kept)
    (howned : Owned im own roots s) (hr : roots r) (hbase : base ≤ n) (hlimit : mapStart ≤ limit) :
    (∃ t own', Kernel.allocLoop im r (n * pgSize) (count + 1) ((n + i) * pgSize) s = .ok (false, t) ∧
      Within im roots r own own' s t ∧ UserMap own' t.mem r base n limit kept ∧
      ¬s.Supplies (1 + missing s.mem r ((n + i) * pgSize))) ∨
    (∃ mem t own', Kernel.allocLoop im r (n * pgSize) (count + 1) ((n + i) * pgSize) s =
        Kernel.allocLoop im r (n * pgSize) count ((n + (i + 1)) * pgSize) t ∧
      Within im roots r own own' s t ∧ UserMap own' t.mem r base (n + (i + 1)) limit kept ∧
      ZeroPageAdded own own' r (n + i) s t mem ∧
      s.Supplies (1 + missing s.mem r ((n + i) * pgSize))) := by
  rw [Kernel.allocLoop]
  obtain ⟨mem, s1, hkalloc⟩ := exists_kalloc s
  rw [bind_of_ok hkalloc]
  split
  next hzero =>
    subst hzero
    obtain ⟨howned1, hmem1⟩ := howned.kalloc_zero hkalloc
    obtain ⟨res, t', own', hdealloc, hwithin, hspace⟩ :=
      (hmem1 ▸ h : UserMap own s1.mem r base (n + i) limit kept).uvmdealloc_pages howned1 hr hbase
    rw [bind_of_ok hdealloc]
    refine .inl ⟨t', own', rfl, hwithin.of_mem_eq hmem1, hspace, fun hs => ?_⟩
    exact (howned.kalloc_exactly hkalloc).done_iff.mpr (hs.mono (Nat.le_add_right ..)) rfl
  next hmem =>
    have hfit := h.succ_fits howned hlimit
    rw [bind_of_ok (a := ()) rfl]
    obtain ⟨res, s3, hmap, hcases, hexactly, -⟩ := h.addPage
      (v := { s1 with mem := s1.mem.fill mem pgSize 0 }) howned hr hfit hkalloc hmem
      userPerm_isLeaf (fun x hx => Memory.fill_of_not_mem hx) rfl rfl
    rw [bind_of_ok hmap]
    rcases hcases with ⟨own1, rfl, hpage, hwithin1, hspace1⟩ |
      ⟨s4, own1, rfl, hfree, hwithin1, hspace1⟩
    · have hnext : (n + i) * pgSize + pgSize = (n + (i + 1)) * pgSize := by
        rw [← Nat.add_assoc, Nat.succ_mul]
      simp only [ne_eq, not_true_eq_false, if_false, hnext]
      refine .inr ⟨mem, s3, own1, rfl, hwithin1, hspace1,
        PageAdded.filled hpage hwithin1.owned (fun x hx => ?_) fun x hx => ?_,
        hexactly.done_iff.mp rfl⟩
      · exact if_pos ⟨Nat.le_add_right .., Nat.add_lt_add_left hx mem⟩
      · refine (Memory.fill_of_not_mem hx).trans ?_
        rcases howned.kalloc hkalloc with ⟨hzero, -⟩ | ⟨-, hmem1, -⟩
        · exact (hmem hzero).elim
        · rw [hmem1, Memory.fill_of_not_mem hx]
    · obtain ⟨res, t', own', hdealloc, hwithin, hspace⟩ :=
        hspace1.uvmdealloc_pages hwithin1.owned hr hbase
      rw [if_pos (by decide), bind_of_ok hfree, bind_of_ok hdealloc]
      refine .inl ⟨t', own', rfl, hwithin1.trans hwithin, hspace, fun hs => ?_⟩
      exact absurd (hexactly.done_iff.mpr hs) (by decide)

/-- What holds of the user memory at `r` still holds when a page of zeroes is added. -/
def SurvivesGrowth (r limit : Nat) (P : (Nat → Role) → Ram → Nat → Prop) : Prop :=
  ∀ own own' s t n mem, P own s n → (n + 1) * pgSize ≤ limit →
    ZeroPageAdded own own' r n s t mem → P own' t (n + 1)

theorem allocLoop (count : Nat) {P : (Nat → Role) → Ram → Nat → Prop}
    (hP : SurvivesGrowth r limit P) (h : UserMap own s.mem r base (n + i) limit kept)
    (hs : P own s (n + i)) (howned : Owned im own roots s) (hr : roots r) (hbase : base ≤ n)
    (hlimit : mapStart ≤ limit) :
    ∃ done t own',
      Kernel.allocLoop im r (n * pgSize) count ((n + i) * pgSize) s = .ok (done, t) ∧
      Within im roots r own own' s t ∧
      UserMap own' t.mem r base (if done then n + i + count else n) limit kept ∧
      (done = true → P own' t (n + i + count)) := by
  induction count generalizing i own s with
  | zero => exact ⟨true, s, own, rfl, .refl howned, h, fun _ => hs⟩
  | succ count ih =>
    rcases h.allocPage count howned hr hbase hlimit with ⟨t, own', hrun, hwithin, hspace, -⟩ |
      ⟨mem, s3, own1, hstep, hwithin1, hspace1, hadded, -⟩
    · exact ⟨false, t, own', hrun, hwithin, hspace, by simp⟩
    · obtain ⟨done, t, own', hrun, hwithin, hspace, ht⟩ := ih (i := i + 1) hspace1
        (hP _ _ _ _ _ _ hs hspace1.fits hadded) hwithin1.owned
      rw [show n + (i + 1) + count = n + i + (count + 1) by omega] at hspace ht
      exact ⟨done, t, own', hstep.trans hrun, hwithin1.trans hwithin, hspace, ht⟩

/-- `uvmalloc` grows the user memory to the size it returns, or fails and leaves it as it
was. -/
theorem uvmalloc (newsz : Nat) {P : (Nat → Role) → Ram → Nat → Prop} (hP : SurvivesGrowth r limit P)
    (h : UserMap own s.mem r base (userPages oldsz) limit kept) (hs : P own s (userPages oldsz))
    (howned : Owned im own roots s) (hr : roots r) (hbase : base ≤ userPages oldsz)
    (hlimit : mapStart ≤ limit) :
    ∃ res t own', Kernel.uvmalloc im r oldsz newsz s = .ok (res, t) ∧
      Within im roots r own own' s t ∧
      UserMap own' t.mem r base (userPages (if res = 0 then oldsz else res)) limit kept ∧
      (res ≠ 0 → res = max oldsz newsz ∧ P own' t (userPages res)) := by
  rw [Kernel.uvmalloc]
  split
  next hlt => refine ⟨oldsz, s, own, rfl, .refl howned, by rwa [ite_self], fun _ => ⟨by omega, hs⟩⟩
  next hge =>
    have hstart := pgRoundUp_eq oldsz
    have hcount : userPages oldsz + (newsz - pgRoundUp oldsz + pgSize - 1) / pgSize =
        userPages newsz := by
      unfold userPages pgRoundUp pgSize
      omega
    obtain ⟨done, t, own', hloop, hwithin, hspace, ht⟩ := UserMap.allocLoop
      (n := userPages oldsz) (i := 0) ((newsz - pgRoundUp oldsz + pgSize - 1) / pgSize) hP h hs
      howned hr hbase hlimit
    rw [Nat.add_zero, ← hstart] at hloop
    rw [Nat.add_zero, hcount] at hspace ht
    rw [bind_of_ok hloop]
    cases done with
    | true =>
      refine ⟨newsz, t, own', rfl, hwithin, ?_, fun _ => ⟨by omega, ht rfl⟩⟩
      rw [if_pos rfl] at hspace
      split
      next hzero =>
        obtain rfl : oldsz = newsz := by omega
        exact hspace
      next => exact hspace
    | false => exact ⟨0, t, own', rfl, hwithin, hspace, fun hne => (hne rfl).elim⟩

/-- `uvmalloc` of one page fails for lack of pages only. -/
theorem uvmalloc_eq_zero_iff {newsz : Nat}
    (h : UserMap own s.mem r base (userPages oldsz) limit kept) (howned : Owned im own roots s)
    (hr : roots r) (hbase : base ≤ userPages oldsz) (hlimit : mapStart ≤ limit)
    (hlt : oldsz < newsz) (hone : userPages newsz ≤ userPages oldsz + 1) :
    (∃ t, Kernel.uvmalloc im r oldsz newsz s = .ok (0, t)) ↔ userPages oldsz < userPages newsz ∧
      ¬s.Supplies (1 + missing s.mem r (userPages oldsz * pgSize)) := by
  have hcount : userPages oldsz + (newsz - pgRoundUp oldsz + pgSize - 1) / pgSize =
      userPages newsz := by
    unfold userPages pgRoundUp pgSize
    omega
  rw [Kernel.uvmalloc, if_neg (by omega)]
  rcases Nat.lt_or_ge (userPages oldsz) (userPages newsz) with hgrow | hsame
  · have hcount' : (newsz - pgRoundUp oldsz + pgSize - 1) / pgSize = 1 := by omega
    rw [hcount', pgRoundUp_eq]
    rcases UserMap.allocPage (n := userPages oldsz) (i := 0) 0 h howned hr hbase hlimit with
      ⟨t, own', hrun, -, -, hshort⟩ | ⟨mem, t, own', hrun, -, -, -, hs⟩
    · simp only [Nat.add_zero, Nat.zero_add] at hrun hshort
      rw [bind_of_ok hrun]
      exact ⟨fun _ => ⟨hgrow, hshort⟩, fun _ => ⟨t, rfl⟩⟩
    · simp only [Nat.add_zero, Nat.zero_add] at hrun hs
      rw [bind_of_ok (hrun.trans rfl)]
      refine ⟨?_, fun hshort => (hshort.2 hs).elim⟩
      rintro ⟨u, hu⟩
      cases hu
      omega
  · have hcount' : (newsz - pgRoundUp oldsz + pgSize - 1) / pgSize = 0 := by
      unfold pgSize at *
      omega
    rw [hcount', bind_of_ok (show Kernel.allocLoop im r _ 0 _ s = .ok (true, s) from rfl)]
    refine ⟨?_, fun hgrow => (Nat.not_lt.mpr hsame hgrow.1).elim⟩
    rintro ⟨u, hu⟩
    cases hu
    omega

/-- The permissions `uvmcopy` copies are those of a leaf. -/
theorem flags_isLeaf {pa : Nat} (h : IsLeafPerm perm) : IsLeafPerm (pteFlags (mkPte pa perm)) := by
  rw [mkPte_flags h.1]
  refine ⟨Nat.or_lt_two_pow h.1 (by decide : 1 < 2 ^ 10), ?_⟩
  rw [Nat.and_or_distrib_right]
  exact fun hzero => h.2 (Nat.or_eq_zero_iff.mp hzero).1

/-- What `uvmcopy` copies: the first `N` pages are mapped, to pages that belong neither to
the page table at `new` nor to the allocator. -/
structure CopySource (own : Nat → Role) (m : Memory) (old new N : Nat) : Prop where
  mapped : ∀ va < N * pgSize, ∃ pa perm, IsLeafPerm perm ∧ leaf m old va = mkPte pa perm ∧
    ¬(own pa).At new ∧ own pa ≠ .kernel

/-- Page `j` of user memory has been copied, with its permissions. -/
structure PageCopied (m m' : Memory) (old new j : Nat) : Prop where
  flags : pteFlags (leaf m' new (j * pgSize)) = pteFlags (leaf m old (j * pgSize))
  bytes : ∀ x < pgSize, m' (pte2pa (leaf m' new (j * pgSize)) + x) =
    m (pte2pa (leaf m old (j * pgSize)) + x)

section Copying

variable {old N i : Nat}
variable {own' : Nat → Role}

/-- Work on the new page table leaves the pages to copy alone. -/
theorem CopySource.within (h : CopySource own s.mem old r N)
    (hwithin : Within im roots r own own' s t) (hroot : roots old) (hne : old ≠ r)
    (hfit : N * pgSize ≤ maxVA) : CopySource own' t.mem old r N := by
  refine ⟨fun va hva => ?_⟩
  obtain ⟨pa, perm, hperm, hpa, hat, hkernel⟩ := h.mapped va hva
  obtain ⟨hfree, huser, -⟩ := Role.ne_of_not_at hat
  have hsame := hwithin.kept pa hfree huser
  refine ⟨pa, perm, hperm, ?_, by rwa [hsame], by rwa [hsame]⟩
  rw [hwithin.other old va hroot hne (lt_treeVA (by omega)), hpa]

theorem CopySource.bytes_eq (h : CopySource own s.mem old r N)
    (hwithin : Within im roots r own own' s t) (howned : Owned im own roots s) {va x : Nat}
    (hva : va < N * pgSize) (hx : x < pgSize) :
    t.mem (pte2pa (leaf s.mem old va) + x) = s.mem (pte2pa (leaf s.mem old va) + x) := by
  obtain ⟨pa, perm, hperm, hpa, hat, hkernel⟩ := h.mapped va hva
  have hpage := howned.page pa hkernel
  rw [hpa, pte2pa_mkPte hperm.1 hpage.aligned hpage.lt_pow]
  exact hwithin.data pa hat hkernel _ (Nat.le_add_right ..) (by omega)

theorem undoCopy (h : UserMap own s.mem r 0 i limit kept) (howned : Owned im own roots s)
    (hr : roots r) : ∃ t own',
      (uvmunmap im r 0 (i * pgSize / pgSize) true >>= fun _ => pure (-1 : Int)) s = .ok (-1, t) ∧
      Within im roots r own own' s t ∧ UserMap own' t.mem r 0 0 limit kept := by
  rw [← Nat.zero_add i] at h
  obtain ⟨t, own', hrun, hwithin, hmap⟩ := h.shrink howned hr le_rfl
  refine ⟨t, own', ?_, hwithin, hmap⟩
  rw [Nat.zero_mul] at hrun
  rw [Nat.mul_div_cancel _ (by decide), uvmunmap, if_neg (by simp), bind_of_ok hrun]
  rfl

/-- One round of `uvmcopy`: the page is copied and the loop goes on, or a page is
missing and those copied so far are taken away again. -/
theorem copyPage (count : Nat) (h : UserMap own s.mem r 0 i limit kept)
    (hold : CopySource own s.mem old r N) (howned : Owned im own roots s) (hr : roots r)
    (hi : i < N) (hfit : N * pgSize ≤ limit) :
    (∃ t own', Kernel.copyLoop im old r (count + 1) (i * pgSize) s = .ok (-1, t) ∧
      Within im roots r own own' s t ∧ UserMap own' t.mem r 0 0 limit kept ∧
      ¬s.Supplies (1 + missing s.mem r (i * pgSize))) ∨
    (∃ mem t own', Kernel.copyLoop im old r (count + 1) (i * pgSize) s =
        Kernel.copyLoop im old r count ((i + 1) * pgSize) t ∧
      Within im roots r own own' s t ∧ UserMap own' t.mem r 0 (i + 1) limit kept ∧
      PageFilled own own' r i (pteFlags (leaf s.mem old (i * pgSize)))
        (fun x => s.mem (pte2pa (leaf s.mem old (i * pgSize)) + x)) s t mem ∧
      Exactly (1 + missing s.mem r (i * pgSize)) True s t ∧
      PathAdded s.mem t.mem r (i * pgSize)) := by
  have hva : i * pgSize < N * pgSize := Nat.mul_lt_mul_of_pos_right hi (by decide)
  have hmax : i * pgSize < maxVA := lt_of_lt_of_le hva (le_trans hfit h.limit_le)
  have hfit' : (i + 1) * pgSize ≤ limit := le_trans (Nat.mul_le_mul_right _ hi) hfit
  obtain ⟨pa, perm, hperm, hpa, hat, hkernel⟩ := hold.mapped (i * pgSize) hva
  obtain ⟨n, hn⟩ := exists_table_of_valid (s := s) (hpa ▸ mkPte_valid hperm.1)
  have hload : loadWord (n + 8 * px 0 (i * pgSize)) s = .ok (mkPte pa perm, s) := by
    rw [← hpa, leaf_of_table hn]
    rfl
  rw [Kernel.copyLoop, bind_of_ok (walk_of_table hmax hn)]
  simp only
  obtain ⟨mem, s1, hkalloc⟩ := exists_kalloc s
  rw [bind_of_ok hload, if_neg (mkPte_valid hperm.1), bind_of_ok hkalloc]
  split
  next hzero =>
    subst hzero
    obtain ⟨howned1, hmem1⟩ := howned.kalloc_zero hkalloc
    obtain ⟨t, own', hrun, hwithin, hmap⟩ :=
      (hmem1 ▸ h : UserMap own s1.mem r 0 i limit kept).undoCopy howned1 hr
    refine .inl ⟨t, own', hrun, hwithin.of_mem_eq hmem1, hmap, fun hs => ?_⟩
    exact (howned.kalloc_exactly hkalloc).done_iff.mpr (hs.mono (Nat.le_add_right ..)) rfl
  next hmem =>
    rw [bind_of_ok (a := ()) rfl]
    obtain ⟨res, s3, hmap, hcases, hexactly, hadded⟩ := h.addPage
      (v := { s1 with mem := s1.mem.move mem (pte2pa (mkPte pa perm)) pgSize }) howned hr hfit'
      hkalloc hmem (flags_isLeaf hperm) (fun x hx => Memory.move_of_not_mem hx) rfl rfl
    rw [bind_of_ok hmap]
    rcases hcases with ⟨own1, rfl, hpage, hwithin1, hmap1⟩ |
      ⟨s4, own1, rfl, hfree, hwithin1, hmap1⟩
    · have hnext : i * pgSize + pgSize = (i + 1) * pgSize := by rw [Nat.succ_mul]
      simp only [ne_eq, not_true_eq_false, if_false, hnext]
      obtain ⟨hfree, hmem1, -⟩ := (howned.kalloc hkalloc).resolve_left fun hzero => hmem hzero.1
      have hout : ∀ x, ¬(mem ≤ x ∧ x < mem + pgSize) → s1.mem x = s.mem x := fun x hx => by
        rw [hmem1, Memory.fill_of_not_mem hx]
      -- The page that is copied is not the one that was allocated for it.
      have hsource : AgreeOn s.mem s1.mem pa := howned.agreeOn_of_ne
        (howned.page mem (by simp [hfree])) hout hkernel fun heq => hat (by simp [heq, hfree, Role.At])
      have hpa' : pte2pa (mkPte pa perm) = pa :=
        pte2pa_mkPte hperm.1 (howned.page pa hkernel).aligned (howned.page pa hkernel).lt_pow
      refine .inr ⟨mem, s3, own1, rfl, hwithin1, hmap1, ?_, hexactly.congr (by simp), hadded rfl⟩
      rw [hpa, hpa']
      refine PageAdded.filled hpage hwithin1.owned (fun x hx => ?_) fun x hx => ?_
      · rw [← hsource _ (Nat.le_add_right ..) (by omega)]
        simp [Memory.move, hx, hpa']
      · exact (Memory.move_of_not_mem hx).trans (hout x hx)
    · obtain ⟨t, own', hrun, hwithin, hmap'⟩ := hmap1.undoCopy hwithin1.owned hr
      rw [if_pos (by decide), bind_of_ok hfree]
      exact .inl ⟨t, own', hrun, hwithin1.trans hwithin, hmap', fun hs =>
        absurd (hexactly.done_iff.mpr hs) (by decide)⟩

/-- A page that has been copied stays as it is in the next round. -/
theorem PageCopied.next {mem j : Nat} {bytes : Nat → BitVec 8} (hc : PageCopied m s.mem old r j)
    (h' : UserMap own' t.mem r 0 (i + 1) limit kept) (howned' : Owned im own' roots t)
    (hfilled : PageFilled own own' r i perm bytes s t mem) (hj : j < i) :
    PageCopied m t.mem old r j := by
  have hlow : j * pgSize < (i + 1) * pgSize := Nat.mul_lt_mul_of_pos_right (by omega) (by decide)
  have hdiv : j * pgSize / pgSize = j := Nat.mul_div_cancel _ (by decide)
  have hleaf : leaf t.mem r (j * pgSize) = leaf s.mem r (j * pgSize) := by
    rw [hfilled.leaf_eq _ (lt_treeVA (lt_of_lt_of_le hlow (le_trans h'.fits h'.limit_le))),
      if_neg (by omega)]
  have hrole' := h'.role_page howned' hlow
  rw [hleaf, hdiv] at hrole'
  have hne : pte2pa (leaf s.mem r (j * pgSize)) ≠ mem := by
    intro heq
    have hmem := hfilled.role
    rw [← heq, hrole'] at hmem
    simp only [Role.user.injEq, true_and] at hmem
    omega
  obtain ⟨-, hagree⟩ := hfilled.old _ j hne hrole'
  refine ⟨by rw [hleaf, hc.flags], fun x hx => ?_⟩
  rw [hleaf, hagree _ (Nat.le_add_right ..) (by omega), hc.bytes x hx]

theorem PageFilled.copied {mem : Nat} (hN : i * pgSize < maxVA)
    (hold : leaf m old (i * pgSize) = leaf s.mem old (i * pgSize))
    (hvalid : ∃ pa perm, IsLeafPerm perm ∧ leaf s.mem old (i * pgSize) = mkPte pa perm)
    (hbytes : ∀ x < pgSize, s.mem (pte2pa (leaf m old (i * pgSize)) + x) =
      m (pte2pa (leaf m old (i * pgSize)) + x))
    (hpage : IsPage im mem)
    (hfilled : PageFilled own own' r i (pteFlags (leaf s.mem old (i * pgSize)))
      (fun x => s.mem (pte2pa (leaf s.mem old (i * pgSize)) + x)) s t mem) :
    PageCopied m t.mem old r i := by
  obtain ⟨pa, perm, hperm, hpa⟩ := hvalid
  have hflags : pteFlags (mkPte pa perm) < 2 ^ 10 := (flags_isLeaf hperm).1
  have hleaf : leaf t.mem r (i * pgSize) = mkPte mem (pteFlags (leaf s.mem old (i * pgSize))) := by
    rw [hfilled.leaf_eq _ (lt_treeVA hN), if_pos (Nat.mul_div_cancel _ (by decide))]
  rw [hpa] at hleaf
  constructor
  · rw [hleaf, mkPte_flags hflags, hold, hpa, mkPte_flags hperm.1, Nat.or_assoc, Nat.or_self]
  · intro x hx
    rw [hleaf, pte2pa_mkPte hflags hpage.aligned hpage.lt_pow, hfilled.filled x hx, ← hold,
      hbytes x hx]

/-- `uvmcopy` copies all pages or none. -/
theorem copyLoop {own0 : Nat → Role} {s0 : Ram} (count : Nat)
    (h : UserMap own s.mem r 0 i limit kept) (hold : CopySource own0 s0.mem old r N)
    (howned0 : Owned im own0 roots s0) (hwithin0 : Within im roots r own0 own s0 s)
    (hcopied : ∀ j < i, PageCopied s0.mem s.mem old r j)
    (hr : roots r) (hroot : roots old) (hne : old ≠ r)
    (hcount : i + count = N) (hfit : N * pgSize ≤ limit) :
    ∃ res t own', Kernel.copyLoop im old r count (i * pgSize) s = .ok (res, t) ∧
      Within im roots r own0 own' s0 t ∧ ((res = -1 ∧ UserMap own' t.mem r 0 0 limit kept) ∨
        (res = 0 ∧ UserMap own' t.mem r 0 N limit kept ∧
          ∀ j < N, PageCopied s0.mem t.mem old r j)) := by
  induction count generalizing i own s with
  | zero =>
    obtain rfl : i = N := by omega
    exact ⟨0, s, own, rfl, hwithin0, .inr ⟨rfl, h, hcopied⟩⟩
  | succ count ih =>
    have hmax := le_trans hfit h.limit_le
    have hsource := hold.within hwithin0 hroot hne hmax
    have hva : i * pgSize < N * pgSize := Nat.mul_lt_mul_of_pos_right (by omega) (by decide)
    rcases h.copyPage count hsource hwithin0.owned hr (by omega) hfit with
      ⟨t, own', hrun, hwithin, hmap, -⟩ |
      ⟨mem, s3, own1, hstep, hwithin1, hmap1, hfilled, -, -⟩
    · exact ⟨-1, t, own', hrun, hwithin0.trans hwithin, .inl ⟨rfl, hmap⟩⟩
    · have hnext : ∀ j < i + 1, PageCopied s0.mem s3.mem old r j := by
        intro j hj
        rcases Nat.lt_succ_iff_lt_or_eq.mp hj with hlt | rfl
        · exact (hcopied j hlt).next hmap1 hwithin1.owned hfilled hlt
        · obtain ⟨pa, perm, hperm, hpa, -⟩ := hsource.mapped _ hva
          refine hfilled.copied (by omega)
            (hwithin0.other old _ hroot hne (lt_treeVA (by omega))).symm ⟨pa, perm, hperm, hpa⟩
            (fun x hx => hold.bytes_eq hwithin0 howned0 hva hx)
            (hwithin1.owned.page mem (by simp [hfilled.role]))
      obtain ⟨res, t, own', hrun, hwithin, hcases⟩ :=
        ih hmap1 (hwithin0.trans hwithin1) hnext (by omega)
      exact ⟨res, t, own', hstep.trans hrun, hwithin, hcases⟩

end Copying

end UserMap

end Kernel
end FastIpc
