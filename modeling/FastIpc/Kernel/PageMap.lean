import FastIpc.Kernel.Machine

/-!
# A page table as a map

What `walk` finds in the three levels of a page table is a partial map from virtual pages to
physical pages with flags.  `mappages` extends the map, `uvmunmap` makes it smaller and
`walkaddr` reads it.

Main results:

- Theorem `Owned.mapRange`: `mappages` maps a range of pages, or a front part of it.
- Theorem `page_table_is_map`: the operations in terms of the map.
-/

namespace FastIpc
namespace Kernel

open Foundation FaultM Foundation.RadixTree

/-! ## The map -/

/-- Physical page and flags of a virtual page. -/
abbrev PageMap := Nat → Option (Nat × Nat)

namespace PageMap

/-- The map with `count` virtual pages from `start` on mapped to consecutive physical
pages. -/
def extend (f : PageMap) (start count pa flags : Nat) : PageMap := fun v =>
  if start ≤ v ∧ v < start + count then some (pa + (v - start) * pgSize, flags) else f v

/-- The map without some virtual pages. -/
def remove (f : PageMap) (start count : Nat) : PageMap := fun v =>
  if start ≤ v ∧ v < start + count then none else f v

end PageMap

/-- What an entry says. -/
def decodeEntry (pte : Nat) : Option (Nat × Nat) :=
  if pte &&& pteV = 0 then none else some (pte2pa pte, pteFlags pte)

/-- The map of a page table. -/
def pageMap (m : Memory) (r : Nat) : PageMap := fun v =>
  if v * pgSize < maxVA then decodeEntry (leaf m r (v * pgSize)) else none

theorem decodeEntry_zero : decodeEntry 0 = none := rfl

theorem decodeEntry_eq_none {pte : Nat} : decodeEntry pte = none ↔ pte &&& pteV = 0 := by
  unfold decodeEntry
  split
  next h => simp [h]
  next h => simp [h]

theorem decodeEntry_mkPte {pa perm : Nat} (hperm : perm < 1024) (hpa : pa < 2 ^ 64) :
    decodeEntry (mkPte pa perm) = some (pgRoundDown pa, perm ||| pteV) := by
  rw [decodeEntry, if_neg (mkPte_valid hperm), pte2pa_mkPte_eq hperm hpa, mkPte_flags hperm]
  rfl

theorem pgRoundDown_add_mul (pa j : Nat) :
    pgRoundDown (pa + j * pgSize) = pgRoundDown pa + j * pgSize := by
  unfold pgRoundDown
  rw [Nat.add_mul_div_right _ _ (by decide), Nat.add_mul]

/-- The pages that a range of addresses touches. -/
def numPages (va size : Nat) : Nat := (va + size - 1) / pgSize - va / pgSize + 1

variable {im : Image} {own : Nat → Role} {roots : Nat → Prop} {s : Ram} {r perm : Nat}

/-! ## Mapping a range -/

/-- The loop of `mappages` is one page and then the rest. -/
theorem mapLoop_succ (r perm n a pa : Nat) :
    mapLoop r perm (n + 1) a pa = (do
      let res ← mapLoop r perm 0 a pa
      if res = 0 then mapLoop r perm n (a + pgSize) (pa + pgSize) else return res) := by
  rw [mapLoop, mapLoop, bind_assoc]
  congr 1
  funext entry
  cases entry with
  | none => rfl
  | some pte =>
    simp only [bind_assoc]
    congr 1
    funext word
    split
    next => rfl
    next =>
      rw [bind_assoc]
      rfl

/-- The places of the page-table pages on the way to a number of pages from an address on. -/
def ways : Nat → Nat → Finset (List (Fin 512))
  | _, 0 => ∅
  | va, n + 1 => {[px 2 va], [px 2 va, px 1 va]} ∪ ways (va + pgSize) n

/-- Those at which there is no page-table page. -/
def missingFor (m : Memory) (r va n : Nat) : Finset (List (Fin 512)) :=
  (ways va n).filter fun path => table m r path = none

theorem mem_ways {n va : Nat} {path : List (Fin 512)} (h : path ∈ ways va n) :
    path ≠ [] ∧ path.length ≤ 2 := by
  induction n generalizing va with
  | zero => simp [ways] at h
  | succ n ih =>
    rcases Finset.mem_union.mp h with hfirst | hrest
    · rcases Finset.mem_insert.mp hfirst with rfl | hpath
      · simp
      · rw [Finset.mem_singleton.mp hpath]
        simp
    · exact ih hrest

theorem card_missingFor_one (m : Memory) (r va : Nat) :
    (missingFor m r va 1).card = missing m r va := by
  have hbelow : table m r [px 2 va] = none → table m r [px 2 va, px 1 va] = none := by
    intro hnone
    rw [Option.eq_none_iff_forall_ne_some]
    intro p hp
    obtain ⟨p', hp', -⟩ := (@descend_snoc_eq_some _ _ _ _ _ _ _ [px 2 va] _).mp hp
    rw [← table, hnone] at hp'
    cases hp'
  rw [missingFor, ways, ways, Finset.union_empty, Finset.filter_insert, Finset.filter_singleton,
    missing]
  by_cases hone : table m r [px 2 va] = none
  · rw [if_pos hone, if_pos (hbelow hone), if_pos hone]
    exact Finset.card_pair (by simp)
  · rw [if_neg hone, if_neg hone]
    split <;> rfl

theorem missing_le_card (m : Memory) (r va n : Nat) :
    missing m r va ≤ (missingFor m r va (n + 1)).card := by
  rw [← card_missingFor_one]
  refine Finset.card_le_card (Finset.filter_subset_filter _ ?_)
  rw [ways, ways, ways, Finset.union_empty]
  exact Finset.subset_union_left

/-- Once the way to the first page is there, what is missing for the rest is missing. -/
theorem PathAdded.card_missingFor {m m' : Memory} {va : Nat} (h : PathAdded m m' r va) (n : Nat) :
    (missingFor m r va (n + 1)).card = missing m r va + (missingFor m' r (va + pgSize) n).card := by
  have hadded : ∀ path ∈ ways (va + pgSize) n,
      (table m' r path = none ↔ table m r path = none ∧ path ∉ ways va 1) := by
    intro path hpath
    obtain ⟨hne, hlen⟩ := mem_ways hpath
    rw [← Option.not_isSome_iff_eq_none, h path hlen, prefix_way_iff,
      ← Option.not_isSome_iff_eq_none]
    simp [ways, hne]
  rw [← card_missingFor_one, ← Finset.card_union_of_disjoint]
  · congr 1
    ext path
    simp only [missingFor, ways, Finset.union_empty, Finset.mem_filter, Finset.mem_union] at hadded ⊢
    grind
  · refine Finset.disjoint_left.mpr fun path hfirst hrest => ?_
    obtain ⟨hmem, hnone⟩ := Finset.mem_filter.mp hrest
    exact ((hadded path hmem).mp hnone).2 (Finset.mem_filter.mp hfirst).1

/-- One page is mapped, or a page-table page could not be allocated. -/
theorem Owned.mapOne (h : Owned im own roots s) (hr : roots r) {a pa : Nat} (ha : a < maxVA)
    (hperm : perm < 1024) (hpa : pa < 2 ^ 64) (hempty : leaf s.mem r a &&& pteV = 0) :
    ∃ res t own', mapLoop r perm 0 a pa s = .ok (res, t) ∧ Owned im own' roots t ∧
      (res = 0 ∧ (∀ va < treeVA, leaf t.mem r va =
        if va / pgSize = a / pgSize then mkPte pa perm else leaf s.mem r va) ∨
      res = -1 ∧ ∀ va, leaf t.mem r va = leaf s.mem r va) ∧
      Exactly (missing s.mem r a) (res = 0) s t ∧ (res = 0 → PathAdded s.mem t.mem r a) := by
  obtain ⟨res, t, own', s1, hrun, hgrown, hcases, htaken⟩ := h.mapPage hr hperm hpa ha hempty
  rcases hcases with ⟨rfl, rfl⟩ | ⟨rfl, hset⟩
  · exact ⟨-1, t, own', hrun, hgrown.owned, .inr ⟨rfl, fun va => hgrown.leaf_eq r va hr⟩, htaken⟩
  · refine ⟨0, t, own', hrun, hset.owned, .inl ⟨rfl, fun va hva => ?_⟩, htaken⟩
    rw [hset.leaf_eq r va hr hva, hgrown.leaf_eq r va hr]
    simp only [true_and]

theorem front_iff {a va : Nat} (haligned : a % pgSize = 0) :
    va / pgSize = a / pgSize ↔ a ≤ va ∧ va < a + 1 * pgSize := by
  unfold pgSize at *
  omega

theorem front_page {a va : Nat} (hin : a ≤ va ∧ va < a + 1 * pgSize) : (va - a) / pgSize = 0 := by
  unfold pgSize at *
  omega

theorem range_cons {a va k : Nat} :
    (a ≤ va ∧ va < a + (k + 1) * pgSize) ↔
      (a + pgSize ≤ va ∧ va < a + pgSize + k * pgSize) ∨ (a ≤ va ∧ va < a + 1 * pgSize) := by
  unfold pgSize
  omega

theorem page_of_rest {a va : Nat} (h : a + pgSize ≤ va) :
    (va - a) / pgSize * pgSize = pgSize + (va - (a + pgSize)) / pgSize * pgSize := by
  unfold pgSize at *
  omega

theorem next_page_ne {a i : Nat} : ¬(a + pgSize + i * pgSize) / pgSize = a / pgSize := by
  unfold pgSize
  omega

/-- The loop of `mappages` maps the pages one after the other, until no page-table page can be
allocated. -/
theorem Owned.mapRange (h : Owned im own roots s) (hr : roots r) {n a pa : Nat}
    (haligned : a % pgSize = 0) (hend : a + (n + 1) * pgSize ≤ maxVA) (hperm : perm < 1024)
    (hpa : pa + n * pgSize < 2 ^ 64)
    (hempty : ∀ i ≤ n, leaf s.mem r (a + i * pgSize) &&& pteV = 0) :
    ∃ res t own' k, mapLoop r perm n a pa s = .ok (res, t) ∧ Owned im own' roots t ∧
      (res = 0 ∧ k = n + 1 ∨ res = -1 ∧ k ≤ n) ∧
      Exactly (missingFor s.mem r a (n + 1)).card (res = 0) s t ∧ ∀ va < treeVA, leaf t.mem r va =
        if a ≤ va ∧ va < a + k * pgSize then mkPte (pa + (va - a) / pgSize * pgSize) perm
        else leaf s.mem r va := by
  induction n generalizing a pa s own with
  | zero =>
    have ha : a < maxVA := by
      unfold pgSize at hend
      omega
    obtain ⟨res, t, own', hrun, howned, hres, hexactly, -⟩ :=
      h.mapOne hr ha hperm (show pa < 2 ^ 64 by omega) (by simpa using hempty 0 le_rfl)
    rw [← card_missingFor_one] at hexactly
    rcases hres with ⟨rfl, hleaf⟩ | ⟨rfl, hleaf⟩
    · refine ⟨0, t, own', 1, hrun, howned, .inl ⟨rfl, rfl⟩, hexactly, fun va hva => ?_⟩
      rw [hleaf va hva, if_congr (front_iff haligned) rfl rfl]
      split
      next hin => rw [front_page hin, Nat.zero_mul, Nat.add_zero]
      next => rfl
    · refine ⟨-1, t, own', 0, hrun, howned, .inr ⟨rfl, le_rfl⟩, hexactly, fun va _ => ?_⟩
      rw [hleaf, if_neg (by omega)]
  | succ n ih =>
    have hmul : ∀ j, (j + 1) * pgSize = pgSize + j * pgSize := by
      intro j
      rw [Nat.succ_mul, Nat.add_comm]
    rw [hmul] at hend hpa
    obtain ⟨res, s1, own1, hrun, howned, hres, hexactly, hadded⟩ :=
      h.mapOne hr (show a < maxVA by unfold pgSize at hend; omega) hperm
        (show pa < 2 ^ 64 by omega) (by simpa using hempty 0 (Nat.zero_le _))
    rw [mapLoop_succ, bind_of_ok hrun]
    rcases hres with ⟨rfl, hleaf⟩ | ⟨rfl, hleaf⟩
    · have hempty1 : ∀ i ≤ n, leaf s1.mem r (a + pgSize + i * pgSize) &&& pteV = 0 := by
        intro i hi
        have hlt : (i + 1) * pgSize ≤ (n + 1) * pgSize :=
          Nat.mul_le_mul_right _ (Nat.succ_le_succ hi)
        have hva : a + (i + 1) * pgSize = a + pgSize + i * pgSize := by rw [hmul, Nat.add_assoc]
        have hold := hempty (i + 1) (by omega)
        rw [hva] at hold
        have hpos : 0 < pgSize := by decide
        rw [hleaf _ (lt_treeVA (by omega)), if_neg next_page_ne]
        exact hold
      obtain ⟨res, t, own', k, hrest, howned', hk, hexactly', hleaf'⟩ :=
        ih howned (by rw [Nat.add_mod_right]; exact haligned) (show a + pgSize + _ ≤ _ by omega)
          (show pa + pgSize + n * pgSize < 2 ^ 64 by omega) hempty1
      refine ⟨res, t, own', k + 1, hrest, howned', by omega, ?_, fun va hva => ?_⟩
      · rw [(hadded rfl).card_missingFor]
        exact hexactly.next rfl hexactly'
      rw [hleaf' va hva, hleaf va hva, if_congr (front_iff haligned) rfl rfl]
      by_cases hin : a + pgSize ≤ va ∧ va < a + pgSize + k * pgSize
      · rw [if_pos hin, if_pos (range_cons.mpr (.inl hin)), page_of_rest hin.1, Nat.add_assoc]
      · rw [if_neg hin]
        by_cases hfront : a ≤ va ∧ va < a + 1 * pgSize
        · rw [if_pos hfront, if_pos (range_cons.mpr (.inr hfront)), front_page hfront,
            Nat.zero_mul, Nat.add_zero]
        · rw [if_neg hfront, if_neg (mt range_cons.mp (not_or.mpr ⟨hin, hfront⟩))]
    · refine ⟨-1, s1, own1, 0, rfl, howned, .inr ⟨rfl, Nat.zero_le _⟩, ?_, fun va _ => ?_⟩
      · exact .of_short (fun hs => absurd (hexactly.done_iff.mpr hs) (by decide))
          (missing_le_card ..) (by decide)
      · rw [hleaf, if_neg (by omega)]

/-! ## The operations on the map -/

/-- The pages of a range have the entries of their addresses. -/
theorem pageMap_of_lt {m : Memory} {va : Nat} (hva : va < maxVA) :
    pageMap m r (va / pgSize) = decodeEntry (leaf m r va) := by
  have hlt : va / pgSize * pgSize < maxVA := lt_of_le_of_lt (Nat.div_mul_le_self ..) hva
  have hpage : va / pgSize * pgSize / pgSize = va / pgSize := Nat.mul_div_cancel _ (by decide)
  rw [pageMap, if_pos hlt]
  unfold leaf
  rw [px_congr hpage, px_congr hpage, px_congr hpage]

theorem walk_pageMap {va : Nat} (hva : va < maxVA) :
    ∃ pte, walk r va false s = .ok (pte, s) ∧
      pageMap s.mem r (va / pgSize) = pte.bind fun a => decodeEntry (s.mem.readLE a 8) := by
  refine ⟨_, walk_false hva, ?_⟩
  rw [pageMap_of_lt hva, leaf]
  cases table s.mem r [px 2 va, px 1 va] with
  | none => exact decodeEntry_zero
  | some n => rfl

theorem walkaddr_pageMap (va : Nat) :
    walkaddr r va s = .ok (
      match if va < maxVA then pageMap s.mem r (va / pgSize) else none with
      | some (pa, flags) => if flags &&& pteU = 0 then 0 else pa
      | none => 0, s) := by
  rw [walkaddr_eq, userPage]
  by_cases hva : va < maxVA
  · rw [if_pos hva, if_neg (by omega), pageMap_of_lt hva, decodeEntry]
    by_cases hvalid : leaf s.mem r va &&& pteV = 0
    · rw [if_pos hvalid, if_pos hvalid]
    · have hflags : pteFlags (leaf s.mem r va) &&& pteU = leaf s.mem r va &&& pteU := by
        rw [pteFlags, Nat.and_assoc]
        rfl
      rw [if_neg hvalid, if_neg hvalid]
      simp only [hflags]
  · rw [if_neg hva, if_pos (by omega)]

/-- The pages of a range of addresses lie below the limit, and their lengths sum up to hardly more
than that of the range. -/
theorem numPages_bounds {va size : Nat} (hsize : 0 < size) (hend : va + size ≤ maxVA) :
    (va / pgSize + numPages va size) * pgSize ≤ maxVA ∧
      numPages va size * pgSize < size + 2 * pgSize := by
  have hmax : maxVA = 274877906944 := by decide
  rw [hmax] at hend ⊢
  unfold numPages pgSize
  omega

/-- `mappages` extends the map by the pages of the range, or by some of the first ones. -/
theorem Owned.mappages_pageMap (h : Owned im own roots s) (hr : roots r) {va size pa : Nat}
    (hsize : 0 < size) (hend : va + size ≤ maxVA) (hperm : perm < 1024)
    (hpa : pa + size + pgSize ≤ 2 ^ 64)
    (hempty : ∀ v, va / pgSize ≤ v → v < va / pgSize + numPages va size →
      pageMap s.mem r v = none) :
    ∃ res t own' k, Kernel.mappages r va size pa perm s = .ok (res, t) ∧ Owned im own' roots t ∧
      (res = 0 ∧ k = numPages va size ∨ res = -1 ∧ k < numPages va size) ∧
      (res = 0 ↔ s.Supplies (missingFor s.mem r (pgRoundDown va) (numPages va size)).card) ∧
      pageMap t.mem r =
        (pageMap s.mem r).extend (va / pgSize) k (pgRoundDown pa) (perm ||| pteV) := by
  obtain ⟨htop, hlen⟩ := numPages_bounds hsize hend
  have hcount : (pgRoundDown (va + size - 1) - pgRoundDown va) / pgSize + 1 = numPages va size := by
    unfold pgRoundDown
    rw [← Nat.sub_mul, Nat.mul_div_cancel _ (by decide)]
    rfl
  generalize hn : (pgRoundDown (va + size - 1) - pgRoundDown va) / pgSize = n at hcount
  have hstart : pgRoundDown va = va / pgSize * pgSize := rfl
  rw [← hcount] at hempty htop hlen ⊢
  have hpage : ∀ v, v < va / pgSize + (n + 1) → v * pgSize < maxVA := by
    intro v hv
    refine lt_of_lt_of_le ?_ htop
    exact Nat.mul_lt_mul_of_pos_right hv (by decide)
  obtain ⟨res, t, own', k, hrun, howned, hk, hexactly, hleaf⟩ :=
    @mapRange im own roots s r perm h hr n (pgRoundDown va) pa (Nat.mul_mod_left ..)
      (by rw [hstart, ← Nat.add_mul]; exact htop) hperm
      (by
        rw [Nat.add_mul] at hlen
        omega)
      (fun i hi => by
        have hnone := hempty (va / pgSize + i) (by omega) (by omega)
        rw [pageMap, if_pos (hpage _ (by omega)), decodeEntry_eq_none, Nat.add_mul] at hnone
        exact hnone)
  refine ⟨res, t, own', k, by rw [Kernel.mappages, hn]; exact hrun, howned, by omega,
    hexactly.done_iff, ?_⟩
  funext v
  unfold PageMap.extend
  have hrange : (pgRoundDown va ≤ v * pgSize ∧ v * pgSize < pgRoundDown va + k * pgSize) ↔
      (va / pgSize ≤ v ∧ v < va / pgSize + k) := by
    rw [hstart, ← Nat.add_mul, Nat.mul_le_mul_right_iff (by decide),
      Nat.mul_lt_mul_right (by decide)]
  by_cases hv : v * pgSize < maxVA
  · rw [pageMap, if_pos hv, hleaf _ (lt_treeVA hv), if_congr hrange rfl rfl, pageMap, if_pos hv]
    split
    next hin =>
      have hoff : (v * pgSize - pgRoundDown va) / pgSize = v - va / pgSize := by
        rw [hstart, ← Nat.sub_mul, Nat.mul_div_cancel _ (by decide)]
      have hsmall : (v - va / pgSize) * pgSize ≤ n * pgSize := Nat.mul_le_mul_right _ (by omega)
      rw [Nat.add_mul] at hlen
      rw [hoff, decodeEntry_mkPte hperm (by omega), pgRoundDown_add_mul]
    next => rfl
  · rw [pageMap, if_neg hv, if_neg fun hin => hv (hpage v (by omega)), pageMap, if_neg hv]

/-- `uvmunmap` takes the pages of the range out of the map. -/
theorem Owned.uvmunmap_pageMap (h : Owned im own roots s) (hr : roots r) {va n : Nat}
    {doFree : Bool} {page : Nat → Nat} (haligned : va % pgSize = 0) (hend : va + n * pgSize ≤ maxVA)
    (hmapped : ∀ i < n, ∃ flags, pageMap s.mem r (va / pgSize + i) = some (page i, flags) ∧
      flags ≠ pteV)
    (hpage : doFree = true → ∀ i < n, IsData im own (page i))
    (hinj : doFree = true → ∀ i < n, ∀ i' < n, page i = page i' → i = i') :
    ∃ t own', uvmunmap im r va n doFree s = .ok ((), t) ∧ Owned im own' roots t ∧
      pageMap t.mem r = (pageMap s.mem r).remove (va / pgSize) n := by
  have hstart : va / pgSize * pgSize = va := Nat.div_mul_cancel (Nat.dvd_of_mod_eq_zero haligned)
  have hremovable : ∀ i < n, Removable im own s.mem r (va + i * pgSize) doFree (page i) := by
    intro i hi
    obtain ⟨flags, hflags, hne⟩ := hmapped i hi
    unfold pageMap at hflags
    split at hflags
    next =>
      rw [Nat.add_mul, hstart, decodeEntry] at hflags
      split at hflags
      next => cases hflags
      next hvalid =>
        obtain ⟨hpa, rfl⟩ := Prod.mk.inj (Option.some.inj hflags)
        exact ⟨hvalid, hne, fun hfree => ⟨hpa, hpage hfree i hi⟩⟩
    next => cases hflags
  obtain ⟨t, own', hrun, hunmapped⟩ := h.removeRange hr doFree n va page hend hremovable hinj haligned
  refine ⟨t, own', ?_, hunmapped.owned, ?_⟩
  · rw [uvmunmap, if_neg (not_not.mpr haligned), hrun]
  · funext v
    unfold PageMap.remove
    have hrange : (r = r ∧ va ≤ v * pgSize ∧ v * pgSize < va + n * pgSize) ↔
        (va / pgSize ≤ v ∧ v < va / pgSize + n) := by
      rw [eq_self_iff_true, true_and]
      conv_lhs => rw [← hstart]
      rw [← Nat.add_mul, Nat.mul_le_mul_right_iff (by decide), Nat.mul_lt_mul_right (by decide)]
    by_cases hv : v * pgSize < maxVA
    · rw [pageMap, if_pos hv, hunmapped.leaf_eq r _ hr (lt_treeVA hv), if_congr hrange rfl rfl,
        pageMap, if_pos hv]
      split
      next => exact decodeEntry_zero
      next => rfl
    · rw [pageMap, if_neg hv, pageMap, if_neg hv]
      split
      next => rfl
      next => rfl

/-- In a well-formed set of trees the lookup of `walk` is a map.  `mappages` on pages
that are not mapped extends it by the pages of the range, or by some of the first ones if it fails,
which it does exactly if the page-table pages that are missing cannot be allocated;
`uvmunmap` on mapped leaves takes exactly these out; `walkaddr` finds the user pages; and
the trees stay well formed. -/
theorem page_table_is_map (h : Owned im own roots s) (hr : roots r) :
    (∀ va < maxVA, ∃ pte, walk r va false s = .ok (pte, s) ∧
      pageMap s.mem r (va / pgSize) = pte.bind fun a => decodeEntry (s.mem.readLE a 8)) ∧
    (∀ va size pa perm, 0 < size → va + size ≤ maxVA → perm < 1024 → pa + size + pgSize ≤ 2 ^ 64 →
      (∀ v, va / pgSize ≤ v → v < va / pgSize + numPages va size → pageMap s.mem r v = none) →
      ∃ res t own' k, mappages r va size pa perm s = .ok (res, t) ∧ Owned im own' roots t ∧
        (res = 0 ∧ k = numPages va size ∨ res = -1 ∧ k < numPages va size) ∧
        (res = 0 ↔ s.Supplies (missingFor s.mem r (pgRoundDown va) (numPages va size)).card) ∧
        pageMap t.mem r =
          (pageMap s.mem r).extend (va / pgSize) k (pgRoundDown pa) (perm ||| pteV)) ∧
    (∀ va n doFree (page : Nat → Nat), va % pgSize = 0 → va + n * pgSize ≤ maxVA →
      (∀ i < n, ∃ flags, pageMap s.mem r (va / pgSize + i) = some (page i, flags) ∧ flags ≠ pteV) →
      (doFree = true → ∀ i < n, IsData im own (page i)) →
      (doFree = true → ∀ i < n, ∀ i' < n, page i = page i' → i = i') →
      ∃ t own', uvmunmap im r va n doFree s = .ok ((), t) ∧ Owned im own' roots t ∧
        pageMap t.mem r = (pageMap s.mem r).remove (va / pgSize) n) ∧
    ∀ va, walkaddr r va s = .ok (
      match if va < maxVA then pageMap s.mem r (va / pgSize) else none with
      | some (pa, flags) => if flags &&& pteU = 0 then 0 else pa
      | none => 0, s) := by
  refine ⟨fun va hva => walk_pageMap hva, ?_, ?_, walkaddr_pageMap⟩
  · intro va size pa perm hsize hend hperm hpa hempty
    exact h.mappages_pageMap hr hsize hend hperm hpa hempty
  · intro va n doFree page haligned hend hmapped hpage hinj
    exact h.uvmunmap_pageMap hr haligned hend hmapped hpage hinj

/-- A page mapped without further flags looks like a page-table page. -/
theorem uvmunmap_plain {va pa : Nat} {doFree : Bool} (haligned : va % pgSize = 0)
    (hva : va < maxVA) (hplain : pageMap s.mem r (va / pgSize) = some (pa, pteV)) :
    uvmunmap im r va 1 doFree s = .error (.panic "uvmunmap: not a leaf") := by
  rw [pageMap_of_lt hva, decodeEntry] at hplain
  split at hplain
  next => cases hplain
  next hvalid =>
    obtain ⟨n, hn⟩ := exists_table_of_valid hvalid
    have hflags := (Prod.mk.inj (Option.some.inj hplain)).2
    have hload : loadWord (n + 8 * px 0 va) s = .ok (leaf s.mem r va, s) := by
      rw [leaf_of_table hn]
      rfl
    have hpage : unmapPage im r doFree va s = .error (.panic "uvmunmap: not a leaf") := by
      rw [unmapPage, bind_of_ok (walk_of_table hva hn)]
      simp only
      rw [bind_of_ok hload, if_neg hvalid, if_pos hflags]
      rfl
    rw [uvmunmap, if_neg (not_not.mpr haligned), unmapLoop, bind_of_error hpage]

theorem smallRoot_owned : ∃ own, Owned smallImage own (IsRoot smallStart.proc) smallStart.ram ∧
    IsRoot smallStart.proc smallRoot := by
  obtain ⟨⟨own, hinv⟩, -⟩ := smallStart_started.kernelInv
  exact ⟨own, hinv.spaces.owned, by decide +kernel, 0, rfl⟩

/-- A page mapped with no permission cannot be unmapped: the call panics. -/
theorem unmap_plain_page_panics : ∃ own t own',
    Owned smallImage own (IsRoot smallStart.proc) smallStart.ram ∧
    mappages smallRoot 0x10000 pgSize 0x5000 0 smallStart.ram = .ok (0, t) ∧
    Owned smallImage own' (IsRoot smallStart.proc) t ∧
    pageMap t.mem smallRoot 16 = some (0x5000, pteV) ∧
    uvmunmap smallImage smallRoot 0x10000 1 false t = .error (.panic "uvmunmap: not a leaf") := by
  obtain ⟨own, howned, hroot⟩ := smallRoot_owned
  obtain ⟨res, t, own', k, hrun, howned', hk, -, hmap⟩ := @Owned.mappages_pageMap _ _ _ _ _ 0 howned
    hroot 0x10000 pgSize 0x5000 (by decide) (by decide) (by decide) (by decide) (fun v hlo hhi => by
      have hv : v = 16 := by
        have hlo' : 16 ≤ v := hlo
        have hhi' : v < 17 := hhi
        omega
      rw [hv]
      decide +kernel)
  have hzero : (mappages smallRoot 0x10000 pgSize 0x5000 0 smallStart.ram).toOption.map Prod.fst =
      some 0 := by
    decide +kernel
  rw [hrun] at hzero
  have hres : res = 0 := Option.some.inj hzero
  subst hres
  have hpages : k = 1 := by
    rcases hk with ⟨-, rfl⟩ | ⟨hneg, -⟩
    · rfl
    · cases hneg
  have hplain : pageMap t.mem smallRoot 16 = some (0x5000, pteV) := by
    rw [hmap, hpages]
    rfl
  exact ⟨own, t, own', howned, hrun, howned', hplain, uvmunmap_plain (by decide) (by decide) hplain⟩

/-- Two pages of the first process, of which the second needs a page-table page, are mapped and
unmapped. -/
theorem page_table_is_map_small : ∃ own t own' t',
    Owned smallImage own (IsRoot smallStart.proc) smallStart.ram ∧
    (missingFor smallStart.ram.mem smallRoot 0x1ff000 2).card = 1 ∧
    mappages smallRoot 0x1ff000 (2 * pgSize) 0x5000 (pteR ||| pteU) smallStart.ram = .ok (0, t) ∧
    Owned smallImage own' (IsRoot smallStart.proc) t ∧
    pageMap t.mem smallRoot = (pageMap smallStart.ram.mem smallRoot).extend 511 2 0x5000
      (pteR ||| pteU ||| pteV) ∧
    walkaddr smallRoot 0x200008 t = .ok (0x6000, t) ∧
    uvmunmap smallImage smallRoot 0x1ff000 2 false t = .ok ((), t') ∧
    pageMap t'.mem smallRoot = (pageMap t.mem smallRoot).remove 511 2 := by
  obtain ⟨own, howned, hroot⟩ := smallRoot_owned
  obtain ⟨-, hmappages, -⟩ := page_table_is_map howned hroot
  obtain ⟨res, t, own', k, hrun, howned', hk, hsupply, hmap⟩ := hmappages 0x1ff000 (2 * pgSize)
    0x5000 (pteR ||| pteU) (by decide) (by decide) (by decide) (by decide) (fun v hlo hhi => by
      have hv : v = 511 ∨ v = 512 := by
        have hlo' : 511 ≤ v := hlo
        have hhi' : v < 513 := hhi
        omega
      rcases hv with rfl | rfl <;> decide +kernel)
  have hcard : (missingFor smallStart.ram.mem smallRoot 0x1ff000 2).card = 1 := by decide +kernel
  obtain rfl : res = 0 := hsupply.mpr (smallStart_supplies.mono (hcard.le.trans (by decide)))
  obtain rfl : k = 2 := (hk.resolve_right fun hneg => absurd hneg.1 (by decide)).2
  have hget : ∀ v, pageMap t.mem smallRoot v = (pageMap smallStart.ram.mem smallRoot).extend 511 2
      0x5000 (pteR ||| pteU ||| pteV) v := fun v => congrFun hmap v
  obtain ⟨-, -, hunmap, hwalkaddr⟩ := page_table_is_map howned' hroot
  have haddr := hwalkaddr 0x200008
  rw [if_pos (by decide), hget] at haddr
  obtain ⟨t', own'', hrun', -, hmap'⟩ := hunmap 0x1ff000 2 false (fun i => 0x5000 + i * pgSize)
    (by decide) (by decide) (fun i hi => ⟨pteR ||| pteU ||| pteV, by
      rw [hget]
      interval_cases i <;> rfl, by decide⟩) (by simp) (by simp)
  exact ⟨own, t, own', t', howned, hcard, hrun, howned', hmap, haddr, hrun', hmap'⟩

end Kernel
end FastIpc
