import FastIpc.Kernel.Walking
import Mathlib.Data.Nat.Find

/-!
# What the page-table functions do to the maps

One lemma for each function of `kernel/vm.c` that works on single pages: when it
returns, and what it does to the map of the process, to the maps of the others and to
the roles of pages.

Main results:

- Theorem `walkaddr_eq`: a user address is looked up in the map.
- Theorem `Owned.mappages_of_table`: a page is mapped if its entry is empty.
- Theorem `Owned.copyout`: copying to user memory changes user pages only.
-/

namespace FastIpc
namespace Kernel

open Foundation FaultM Foundation.RadixTree
open Function (update update_of_ne update_self)

variable {im : Image} {own : Nat → Role} {roots : Nat → Prop} {s t : Ram} {r n va pa perm : Nat}

/-! ## Looking addresses up -/

/-- The physical page of a user address in a map, or `0`. -/
def userPage (m : Memory) (r va : Nat) : Nat :=
  if maxVA ≤ va then 0
  else if leaf m r va &&& pteV = 0 then 0
  else if leaf m r va &&& pteU = 0 then 0
  else pte2pa (leaf m r va)

theorem leaf_of_table (hn : table s.mem r [px 2 va, px 1 va] = some n) :
    leaf s.mem r va = entryAt s.mem n (px 0 va) := by
  rw [leaf, hn]

theorem exists_table_of_valid (hvalid : leaf s.mem r va &&& pteV ≠ 0) :
    ∃ n, table s.mem r [px 2 va, px 1 va] = some n := by
  cases hn : table s.mem r [px 2 va, px 1 va] with
  | some n => exact ⟨n, rfl⟩
  | none => simp [leaf, hn] at hvalid

/-- A user address is looked up in the map. -/
theorem walkaddr_eq : walkaddr r va s = .ok (userPage s.mem r va, s) := by
  unfold walkaddr userPage
  split
  next => rfl
  next hva =>
    rw [bind_of_ok (walk_false (by omega))]
    cases hn : table s.mem r [px 2 va, px 1 va] with
    | none => simp [leaf, hn]
    | some n =>
      simp only [Option.map_some, leaf, hn]
      rw [bind_of_ok (a := entryAt s.mem n (px 0 va)) rfl]
      split
      next => rfl
      next =>
        split
        next => rfl
        next => rfl

/-! ## Mapping -/

theorem pgRoundDown_of_aligned (h : va % pgSize = 0) : pgRoundDown va = va := by
  unfold pgRoundDown pgSize at *
  omega

theorem mappages_one (h : va % pgSize = 0) :
    mappages r va pgSize pa perm = mapLoop r perm 0 va pa := by
  have hround : pgRoundDown (va + pgSize - 1) - pgRoundDown va = 0 := by
    unfold pgRoundDown pgSize at *
    omega
  rw [mappages, hround, pgRoundDown_of_aligned h]
  rfl

/-- Mapping a page whose page-table page exists stores an entry if there is none. -/
theorem mappages_of_table (haligned : va % pgSize = 0) (hva : va < maxVA)
    (hn : table s.mem r [px 2 va, px 1 va] = some n) :
    mappages r va pgSize pa perm s = if leaf s.mem r va &&& pteV ≠ 0 then .error (.panic "remap")
      else .ok (0, { s with mem := s.mem.writeLE (n + 8 * px 0 va) 8 (mkPte pa perm) }) := by
  rw [mappages_one haligned, mapLoop, bind_of_ok (walk_of_table hva hn)]
  simp only [leaf_of_table hn]
  rw [bind_of_ok (a := entryAt s.mem n (px 0 va)) rfl]
  split
  next => rfl
  next => rfl

/-- What a change of one entry does to the maps. -/
structure LeafSet (im : Image) (own : Nat → Role) (roots : Nat → Prop) (r va w : Nat)
    (s t : Ram) : Prop where
  owned : Owned im own roots t
  leaf_eq : ∀ r' va', roots r' → va' < treeVA → leaf t.mem r' va' =
    if r' = r ∧ va' / pgSize = va / pgSize then w else leaf s.mem r' va'
  table_eq : ∀ r' path, roots r' → path.length ≤ 2 → table t.mem r' path = table s.mem r' path
  data : ∀ p, own p ≠ .kernel → own p ≠ .free → (∀ path, own p ≠ .node r path) →
    AgreeOn s.mem t.mem p

namespace Owned

/-- An entry that is not valid and whose page-table page exists is filled in. -/
theorem mappages_of_table (h : Owned im own roots s) (hr : roots r)
    (haligned : va % pgSize = 0) (hva : va < maxVA)
    (hn : table s.mem r [px 2 va, px 1 va] = some n) (hempty : leaf s.mem r va &&& pteV = 0)
    (hperm : perm < 1024) (hpa : pa < 2 ^ 56) :
    ∃ t, mappages r va pgSize pa perm s = .ok (0, t) ∧ t.fails = s.fails ∧
      t.freelist = s.freelist ∧ LeafSet im own roots r va (mkPte pa perm) s t := by
  obtain ⟨howned, htable, hleaf⟩ := h.storeLeaf hr hn (mkPte_lt hperm hpa) hva rfl
  refine ⟨{ s with mem := s.mem.writeLE (n + 8 * px 0 va) 8 (mkPte pa perm) }, ?_, rfl, rfl,
    ⟨howned, hleaf, fun r' path hr' => htable r' hr' path, fun p hp _ hnode =>
      h.storeLeaf_agree hr hn _ hp hnode⟩⟩
  rw [Kernel.mappages_of_table haligned hva hn, if_neg (not_not.mpr hempty)]

end Owned

/-! ## Unmapping -/

variable {doFree : Bool}

/-- When a page is unmapped, and the memory after it. -/
theorem unmapPage_eq_ok (hva : va < maxVA) :
    unmapPage im r doFree va s = .ok ((), t) ↔
      ∃ n, table s.mem r [px 2 va, px 1 va] = some n ∧ leaf s.mem r va &&& pteV ≠ 0 ∧
        pteFlags (leaf s.mem r va) ≠ pteV ∧
        ∃ s1, (if doFree then kfree im (pte2pa (leaf s.mem r va)) s = .ok ((), s1) else s1 = s) ∧
          t = { s1 with mem := s1.mem.writeLE (n + 8 * px 0 va) 8 0 } := by
  rw [unmapPage, bind_of_ok (walk_false hva)]
  cases hn : table s.mem r [px 2 va, px 1 va] with
  | none => simp
  | some n =>
    simp only [Option.map_some, leaf_of_table hn, Option.some.injEq, exists_eq_left']
    rw [bind_of_ok (a := entryAt s.mem n (px 0 va)) rfl]
    split
    next hv => simp [hv]
    next hv =>
      split
      next hf => simp [hf]
      next hf =>
        cases doFree with
        | true =>
          simp only [if_true, bind_eq_ok, ne_eq, hv, hf, not_false_eq_true, true_and]
          constructor
          · rintro ⟨⟨⟩, s1, hfree, hstore⟩
            cases hstore
            exact ⟨s1, hfree, rfl⟩
          · rintro ⟨s1, hfree, rfl⟩
            exact ⟨(), s1, hfree, rfl⟩
        | false =>
          simp only [ne_eq, hv, hf, not_false_eq_true, true_and]
          constructor
          · intro hrun
            cases hrun
            exact ⟨s, rfl, rfl⟩
          · rintro ⟨s1, hs1, rfl⟩
            cases hs1
            rfl

namespace Owned

variable (h : Owned im own roots s) (hr : roots r) (hva : va < maxVA)
  (hvalid : leaf s.mem r va &&& pteV ≠ 0) (hleaf : pteFlags (leaf s.mem r va) ≠ pteV)
include h hr hva hvalid hleaf

/-- A mapped page is unmapped and kept. -/
theorem unmapKeep :
    ∃ t, unmapPage im r false va s = .ok ((), t) ∧ t.fails = s.fails ∧
      LeafSet im own roots r va 0 s t := by
  obtain ⟨n, hn⟩ := exists_table_of_valid hvalid
  obtain ⟨howned, htable, hset⟩ := h.storeLeaf hr hn (w := 0) (by decide) hva rfl
  exact ⟨{ s with mem := s.mem.writeLE (n + 8 * px 0 va) 8 0 },
    (unmapPage_eq_ok hva).mpr ⟨n, hn, hvalid, hleaf, s, rfl, rfl⟩, rfl,
    ⟨howned, hset, fun r' path hr' => htable r' hr' path, fun p hp _ hnode =>
      h.storeLeaf_agree hr hn _ hp hnode⟩⟩

/-- A mapped page is unmapped and freed. -/
theorem unmapFree (hp : pte2pa (leaf s.mem r va) = pa) (hpage : IsPage im pa)
    (hused : own pa ≠ .free) (hnode : ∀ r, roots r → ∀ path, own pa ≠ .node r path) :
    ∃ t, unmapPage im r true va s = .ok ((), t) ∧ t.fails = s.fails ∧
      LeafSet im (update own pa .free) roots r va 0 s t := by
  obtain ⟨n, hn⟩ := exists_table_of_valid hvalid
  obtain ⟨s1, hrun, howned1, hfails, hout⟩ := h.kfree hpage hused hnode
  have hagree := h.write_page hpage hnode hout
  have hn1 : table s1.mem r [px 2 va, px 1 va] = some n := by
    rw [h.table_congr hr (hagree r hr) (by simp), hn]
  obtain ⟨howned, htable, hset⟩ := howned1.storeLeaf hr hn1 (w := 0) (by decide) hva rfl
  refine ⟨{ s1 with mem := s1.mem.writeLE (n + 8 * px 0 va) 8 0 },
    (unmapPage_eq_ok hva).mpr ⟨n, hn, hvalid, hleaf, s1, ?_, rfl⟩, hfails, ⟨howned, ?_, ?_, ?_⟩⟩
  · simpa [hp] using hrun
  · intro r' va' hr' hva'
    rw [hset r' va' hr' hva', h.leaf_congr hr' (hagree r' hr')]
  · intro r' path hr' hlen
    rw [htable r' hr' path hlen, h.table_congr hr' (hagree r' hr') hlen]
  · intro p hp' hfree hnode'
    have hpa : p ≠ pa := by
      rintro rfl
      exact hfree (update_self ..)
    have hkernel : own p ≠ .kernel := by rwa [update_of_ne hpa] at hp'
    exact (h.agreeOn_of_ne hpage hout hkernel hpa).trans
      (howned1.storeLeaf_agree hr hn1 _ hp' hnode')

end Owned

theorem unmapPage_null (hva : va < maxVA) (hperm : perm < 1024)
    (hleaf : leaf s.mem r va = mkPte 0 perm) : ∃ e, unmapPage im r true va s = .error e := by
  cases hrun : unmapPage im r true va s with
  | error e => exact ⟨e, rfl⟩
  | ok res =>
    obtain ⟨n, -, -, -, s1, hfree, -⟩ := (unmapPage_eq_ok hva).mp hrun
    rw [if_pos rfl, hleaf, pte2pa_mkPte hperm (by decide) (by decide), kfree, if_pos] at hfree
    · cases hfree
    · exact .inr (.inl (lt_trans im.trampoline_pos im.trampoline_lt))

/-! ## Unmapping a range -/

/-- A page whose contents are nobody's business but its users'. -/
structure IsData (im : Image) (own : Nat → Role) (p : Nat) : Prop where
  page : IsPage im p
  not_free : own p ≠ .free
  not_node : ∀ r path, own p ≠ .node r path

/-- Permissions that make an entry a leaf in the eyes of `freewalk`. -/
def IsLeafPerm (perm : Nat) : Prop := perm < 1024 ∧ perm &&& (pteR ||| pteW ||| pteX) ≠ 0

/-- An entry with such permissions passes the tests of `uvmunmap`. -/
theorem IsLeafPerm.flags (h : IsLeafPerm perm) : pteFlags (mkPte pa perm) ≠ pteV := by
  rw [mkPte_flags h.1]
  intro heq
  have hand : (perm ||| 1) &&& (pteR ||| pteW ||| pteX) = 0 := by
    rw [heq]
    rfl
  rw [Nat.and_or_distrib_right] at hand
  exact h.2 (Nat.or_eq_zero_iff.mp hand).1

/-- What unmapping the `n` pages from `va` on does: their entries become empty
and, if they are to be freed, the pages go to the allocator. -/
structure Unmapped (im : Image) (roots : Nat → Prop) (r va n : Nat) (page : Nat → Nat)
    (doFree : Bool) (own own' : Nat → Role) (s t : Ram) : Prop where
  owned : Owned im own' roots t
  leaf_eq : ∀ r' va', roots r' → va' < treeVA → leaf t.mem r' va' =
    if r' = r ∧ va ≤ va' ∧ va' < va + n * pgSize then 0 else leaf s.mem r' va'
  own_eq : ∀ p, own' p = if doFree = true ∧ ∃ i < n, page i = p then .free else own p
  data : ∀ p, own' p ≠ .kernel → own' p ≠ .free → (∀ path, own' p ≠ .node r path) →
    AgreeOn s.mem t.mem p

/-- A page that has not been freed has the role it had. -/
theorem Unmapped.own_of_ne_free {own' : Nat → Role} {page : Nat → Nat}
    (h : Unmapped im roots r va n page doFree own own' s t) {p : Nat} (hp : own' p ≠ .free) :
    own' p = own p := by
  have heq := h.own_eq p
  split at heq
  next => exact (hp heq).elim
  next => exact heq

/-- Unmapping a page and then the range after it unmaps the whole range. -/
theorem Unmapped.cons {own' own'' : Nat → Role} {u : Ram} {page : Nat → Nat}
    (hrest : Unmapped im roots r (va + pgSize) n (fun i => page (i + 1)) doFree own' own'' t u)
    (haligned : va % pgSize = 0) (hset : LeafSet im own' roots r va 0 s t)
    (hown : own' = if doFree then update own (page 0) .free else own) :
    Unmapped im roots r va (n + 1) page doFree own own'' s u where
  owned := hrest.owned
  leaf_eq r' va' hr' hva' := by
    have hrange : (r' = r ∧ va ≤ va' ∧ va' < va + (n + 1) * pgSize) ↔
        (r' = r ∧ va + pgSize ≤ va' ∧ va' < va + pgSize + n * pgSize) ∨
          (r' = r ∧ va' / pgSize = va / pgSize) := by
      unfold pgSize at *
      omega
    rw [hrest.leaf_eq r' va' hr' hva', hset.leaf_eq r' va' hr' hva', if_congr hrange rfl rfl]
    split
    next hin => rw [if_pos (.inl hin)]
    next hout =>
      split
      next hin => rw [if_pos (.inr hin)]
      next hout' => rw [if_neg (not_or.mpr ⟨hout, hout'⟩)]
  own_eq p := by
    rw [hrest.own_eq p, hown]
    cases doFree with
    | false => simp
    | true =>
      by_cases hlater : ∃ i < n, page (i + 1) = p
      · obtain ⟨i, hi, hp⟩ := hlater
        rw [if_pos ⟨rfl, i, hi, hp⟩, if_pos ⟨rfl, i + 1, by omega, hp⟩]
      · rw [if_neg (fun h => hlater h.2)]
        by_cases hfirst : page 0 = p
        · rw [if_pos (c := true = true ∧ _) ⟨rfl, 0, by omega, hfirst⟩, ← hfirst]
          simp
        · rw [if_neg (c := true = true ∧ _)]
          · simp [update_of_ne (Ne.symm hfirst)]
          · rintro ⟨-, i, hi, hp⟩
            cases i with
            | zero => exact hfirst hp
            | succ i => exact hlater ⟨i, by omega, hp⟩
  data p hp hfree hnode := by
    have hsame := hrest.own_of_ne_free hfree
    exact (hset.data p (by rwa [← hsame]) (by rwa [← hsame]) (by rwa [← hsame])).trans
      (hrest.data p hp hfree hnode)

theorem unmapLoop_add (doFree : Bool) (a b va : Nat) :
    unmapLoop im r doFree (a + b) va = (do
      unmapLoop im r doFree a va
      unmapLoop im r doFree b (va + a * pgSize)) := by
  induction a generalizing va with
  | zero => simp [unmapLoop]
  | succ a ih =>
    have hva : va + (a + 1) * pgSize = va + pgSize + a * pgSize := by
      rw [Nat.succ_mul]
      omega
    rw [Nat.add_right_comm, unmapLoop, unmapLoop, ih, hva]
    simp

/-- `uvmunmap` accepts the page: it is mapped as a leaf, and if it is to be freed it is the
page `pa` of the allocator, in use for something other than a page table. -/
structure Removable (im : Image) (own : Nat → Role) (m : Memory) (r va : Nat) (doFree : Bool)
    (pa : Nat) : Prop where
  valid : leaf m r va &&& pteV ≠ 0
  flags : pteFlags (leaf m r va) ≠ pteV
  page : doFree = true → pte2pa (leaf m r va) = pa ∧ IsData im own pa

theorem Removable.of_mkPte {m : Memory} (hperm : IsLeafPerm perm)
    (hleaf : leaf m r va = mkPte pa perm) (hpage : doFree = true → IsData im own pa) :
    Removable im own m r va doFree pa where
  valid := hleaf ▸ mkPte_valid hperm.1
  flags := hleaf ▸ hperm.flags
  page hfree := by
    have hdata := hpage hfree
    rw [hleaf, pte2pa_mkPte hperm.1 hdata.page.aligned hdata.page.lt_pow]
    exact ⟨rfl, hdata⟩

namespace Owned

variable (h : Owned im own roots s) (hr : roots r)
include h hr

theorem removePage (hva : va < maxVA) (hpage : Removable im own s.mem r va doFree pa) :
    ∃ t, Kernel.unmapPage im r doFree va s = .ok ((), t) ∧
      LeafSet im (if doFree then update own pa .free else own) roots r va 0 s t := by
  cases doFree with
  | false =>
    obtain ⟨t, hrun, -, hset⟩ := h.unmapKeep hr hva hpage.valid hpage.flags
    exact ⟨t, hrun, hset⟩
  | true =>
    obtain ⟨hpa, hdata⟩ := hpage.page rfl
    obtain ⟨t, hrun, -, hset⟩ := h.unmapFree hr hva hpage.valid hpage.flags hpa hdata.page
      hdata.not_free fun r _ => hdata.not_node r
    exact ⟨t, hrun, hset⟩

theorem unmapPage (doFree : Bool) (pa : Nat) (hva : va < maxVA) (hperm : IsLeafPerm perm)
    (hleaf : leaf s.mem r va = mkPte pa perm) (hpage : doFree = true → IsData im own pa) :
    ∃ t, Kernel.unmapPage im r doFree va s = .ok ((), t) ∧
      LeafSet im (if doFree then update own pa .free else own) roots r va 0 s t :=
  h.removePage hr hva (.of_mkPte hperm hleaf hpage)

theorem removeRange (doFree : Bool) (n va : Nat) (page : Nat → Nat) (hend : va + n * pgSize ≤ maxVA)
    (hpage : ∀ i < n, Removable im own s.mem r (va + i * pgSize) doFree (page i))
    (hinj : doFree = true → ∀ i < n, ∀ i' < n, page i = page i' → i = i')
    (haligned : va % pgSize = 0) :
    ∃ t own', Kernel.unmapLoop im r doFree n va s = .ok ((), t) ∧
      Unmapped im roots r va n page doFree own own' s t := by
  induction n generalizing va s own page with
  | zero =>
    refine ⟨s, own, rfl, h, fun r' va' _ _ => ?_, fun p => ?_, fun p _ _ _ => .refl _ p⟩
    · rw [if_neg (by omega)]
    · rw [if_neg (by simp)]
  | succ n ih =>
    have hfirst := hpage 0 (by omega)
    rw [Nat.zero_mul, Nat.add_zero] at hfirst
    have hnext : va + pgSize + n * pgSize = va + (n + 1) * pgSize := by
      rw [Nat.succ_mul]
      omega
    have hva : va < maxVA := by
      have hpos : 0 < pgSize := by decide
      omega
    obtain ⟨s1, hrun1, hset⟩ := h.removePage hr hva hfirst
    -- The other pages are still mapped and still in use.
    have hpage1 : ∀ i < n, Removable im
        (if doFree then update own (page 0) .free else own) s1.mem r
        (va + pgSize + i * pgSize) doFree (page (i + 1)) := by
      intro i hi
      have hold := hpage (i + 1) (by omega)
      have hva' : va + pgSize + i * pgSize = va + (i + 1) * pgSize := by
        rw [Nat.succ_mul]
        omega
      have hlt : va + (i + 1) * pgSize < maxVA := by
        refine lt_of_lt_of_le ?_ hend
        have := Nat.mul_lt_mul_of_pos_right (show i + 1 < n + 1 by omega)
          (show 0 < pgSize by decide)
        omega
      have hleaf : leaf s1.mem r (va + pgSize + i * pgSize) =
          leaf s.mem r (va + (i + 1) * pgSize) := by
        rw [hva', hset.leaf_eq r _ hr (lt_treeVA hlt), if_neg]
        unfold pgSize
        omega
      refine ⟨by rw [hleaf]; exact hold.valid, by rw [hleaf]; exact hold.flags, ?_⟩
      rw [hleaf]
      rintro rfl
      obtain ⟨hpa, hdata⟩ := hold.page rfl
      have hne : page (i + 1) ≠ page 0 := fun heq =>
        absurd (hinj rfl (i + 1) (by omega) 0 (by omega) heq) (by omega)
      refine ⟨hpa, hdata.page, ?_, fun r path => ?_⟩
      · simpa [update_of_ne hne] using hdata.not_free
      · simpa [update_of_ne hne] using hdata.not_node r path
    obtain ⟨t, own', hrun, hrest⟩ := ih hset.owned (va + pgSize) (fun i => page (i + 1))
      (by omega) hpage1
      (fun hfree i hi i' hi' heq => by
        have := hinj hfree (i + 1) (by omega) (i' + 1) (by omega) heq
        omega)
      (by unfold pgSize at *; omega)
    refine ⟨t, own', ?_, hrest.cons haligned hset rfl⟩
    rw [Kernel.unmapLoop, bind_of_ok hrun1, hrun]

theorem unmapLoop (doFree : Bool) (n va : Nat) (page : Nat → Nat) (hend : va + n * pgSize ≤ maxVA)
    (hleaf : ∀ i < n, ∃ perm, IsLeafPerm perm ∧ leaf s.mem r (va + i * pgSize) = mkPte (page i) perm)
    (hpage : doFree = true → ∀ i < n, IsData im own (page i))
    (hinj : doFree = true → ∀ i < n, ∀ i' < n, page i = page i' → i = i')
    (haligned : va % pgSize = 0) :
    ∃ t own', Kernel.unmapLoop im r doFree n va s = .ok ((), t) ∧
      Unmapped im roots r va n page doFree own own' s t := by
  refine h.removeRange hr doFree n va page hend (fun i hi => ?_) hinj haligned
  obtain ⟨perm, hperm, hpte⟩ := hleaf i hi
  exact .of_mkPte hperm hpte fun hfree => hpage hfree i hi

/-- A range in which a null page is mapped cannot be freed. -/
theorem unmapLoop_null (n va : Nat) (page : Nat → Nat) (hend : va + n * pgSize ≤ maxVA)
    (hleaf : ∀ i < n, ∃ perm, IsLeafPerm perm ∧ leaf s.mem r (va + i * pgSize) = mkPte (page i) perm)
    (hpage : ∀ i < n, page i = 0 ∨ IsData im own (page i))
    (hinj : ∀ i < n, ∀ i' < n, page i = page i' → page i ≠ 0 → i = i') (hnull : ∃ i < n, page i = 0)
    (haligned : va % pgSize = 0) : ∃ e, Kernel.unmapLoop im r true n va s = .error e := by
  classical
  -- The loop gets as far as the first null page.
  obtain ⟨hfind, hzero⟩ := Nat.find_spec hnull
  have hfirst : ∀ i < Nat.find hnull, page i ≠ 0 := fun i hi hi0 =>
    Nat.find_min hnull hi ⟨by omega, hi0⟩
  generalize Nat.find hnull = i0 at hfind hzero hfirst
  have hpos : 0 < pgSize := by decide
  have hlt : ∀ i < n, va + i * pgSize < maxVA := fun i hi => by
    have := Nat.mul_lt_mul_of_pos_right hi hpos
    omega
  have hlast : va + i0 * pgSize < maxVA := hlt i0 hfind
  obtain ⟨t, own', hrun, hunmapped⟩ := h.unmapLoop hr true i0 va page
    hlast.le (fun i hi => hleaf i (by omega))
    (fun _ i hi => (hpage i (by omega)).resolve_left (hfirst i hi))
    (fun _ i hi i' hi' heq => hinj i (by omega) i' (by omega) heq (hfirst i hi)) haligned
  obtain ⟨perm, hperm, hleaf0⟩ := hleaf i0 hfind
  obtain ⟨e, he⟩ : ∃ e, Kernel.unmapPage im r true (va + i0 * pgSize) t = .error e := by
    refine unmapPage_null hlast hperm.1 ?_
    rw [hunmapped.leaf_eq r _ hr (lt_treeVA hlast), if_neg (by omega), hleaf0, hzero]
  refine ⟨e, ?_⟩
  rw [show n = i0 + (n - i0 - 1 + 1) by omega, unmapLoop_add, bind_of_ok hrun,
    Kernel.unmapLoop, bind_of_error he]

end Owned

/-! ## Copying to user memory -/

/-- Only the contents of data pages changed. -/
structure Stored (im : Image) (own : Nat → Role) (roots : Nat → Prop) (s t : Ram) : Prop where
  owned : Owned im own roots t
  leaf_eq : ∀ r va, roots r → leaf t.mem r va = leaf s.mem r va
  table_eq : ∀ r path, roots r → path.length ≤ 2 → table t.mem r path = table s.mem r path
  freelist_eq : t.freelist = s.freelist
  fails_eq : t.fails = s.fails

namespace Stored

theorem refl (h : Owned im own roots s) : Stored im own roots s s :=
  ⟨h, fun _ _ _ => rfl, fun _ _ _ _ => rfl, rfl, rfl⟩

theorem trans {u : Ram} (h : Stored im own roots s t) (h' : Stored im own roots t u) :
    Stored im own roots s u where
  owned := h'.owned
  leaf_eq r va hr := (h'.leaf_eq r va hr).trans (h.leaf_eq r va hr)
  table_eq r path hr hlen := (h'.table_eq r path hr hlen).trans (h.table_eq r path hr hlen)
  freelist_eq := h'.freelist_eq.trans h.freelist_eq
  fails_eq := h'.fails_eq.trans h.fails_eq

theorem mono {roots' : Nat → Prop} (h : Stored im own roots s t)
    (hsub : ∀ r, roots' r → roots r) : Stored im own roots' s t where
  owned := h.owned.mono hsub
  leaf_eq r va hr := h.leaf_eq r va (hsub r hr)
  table_eq r path hr := h.table_eq r path (hsub r hr)
  __ := h

theorem userPage_eq (h : Stored im own roots s t) (hr : roots r) :
    userPage t.mem r va = userPage s.mem r va := by
  simp only [userPage, h.leaf_eq r va hr]

/-- A write inside a page that is in use, but not for the trees. -/
theorem of_write (h : Owned im own roots s) {p : Nat} (hp : IsPage im p) (hfree : own p ≠ .free)
    (hnode : ∀ r, roots r → ∀ path, own p ≠ .node r path)
    (hout : ∀ x, ¬(p ≤ x ∧ x < p + pgSize) → t.mem x = s.mem x)
    (hlist : t.freelist = s.freelist) (hfails : t.fails = s.fails) : Stored im own roots s t := by
  have hagree := h.write_page hp hnode hout
  refine ⟨h.of_agree ?_ hagree hlist, fun r va hr => h.leaf_congr hr (hagree r hr),
    fun r path hr hlen => h.table_congr hr (hagree r hr) hlen, hlist, hfails⟩
  intro q hq
  refine h.agreeOn_of_ne hp hout (by simp [hq]) ?_
  rintro rfl
  exact hfree hq

end Stored

namespace Owned

variable (h : Owned im own roots s) (hr : roots r)
  (hdata : ∀ va, userPage s.mem r va ≠ 0 → IsData im own (userPage s.mem r va))
include h hr hdata

/-- Copying to user memory returns and changes user pages only. -/
theorem copyoutLoop (rounds dstva src : Nat) (bytes : List (BitVec 8)) :
    ∃ res t, Kernel.copyoutLoop r rounds dstva src bytes s = .ok (res, t) ∧
      Stored im own roots s t ∧ ∀ p, own p ≠ .kernel →
        (∀ i < bytes.length, userPage s.mem r (pgRoundDown (dstva + i)) ≠ p) →
        AgreeOn s.mem t.mem p := by
  induction rounds generalizing s dstva src bytes with
  | zero => exact ⟨0, s, rfl, .refl h, fun p _ _ => .refl _ p⟩
  | succ rounds ih =>
    unfold Kernel.copyoutLoop
    split
    next => exact ⟨0, s, rfl, .refl h, fun p _ _ => .refl _ p⟩
    next hpos =>
      rw [bind_of_ok walkaddr_eq]
      split
      next => exact ⟨-1, s, rfl, .refl h, fun p _ _ => .refl _ p⟩
      next hpa =>
        rw [bind_of_ok (a := ()) rfl]
        have hoff : dstva - pgRoundDown dstva < pgSize ∧
            pgRoundDown dstva + (dstva - pgRoundDown dstva) = dstva := by
          unfold pgRoundDown pgSize
          omega
        generalize dstva - pgRoundDown dstva = off at hoff ⊢
        have hlen : min (pgSize - off) bytes.length ≤ pgSize - off ∧
            (min (pgSize - off) bytes.length < bytes.length →
              min (pgSize - off) bytes.length = pgSize - off) := by omega
        generalize min (pgSize - off) bytes.length = n at hlen ⊢
        -- One round writes at most to the end of the page of the current address.
        have hp := hdata _ hpa
        have hout : ∀ x, ¬(userPage s.mem r (pgRoundDown dstva) ≤ x ∧
            x < userPage s.mem r (pgRoundDown dstva) + pgSize) →
            mymemmoveFrom s.mem (userPage s.mem r (pgRoundDown dstva) + off) src
              (bytes.take n) x = s.mem x := by
          intro x hx
          refine mymemmoveFrom_of_not_mem ?_
          simp only [List.length_take]
          omega
        have hstored : Stored im own roots s { s with
            mem := mymemmoveFrom s.mem (userPage s.mem r (pgRoundDown dstva) + off) src
              (bytes.take n) } :=
          .of_write h hp.page hp.not_free (fun r _ => hp.not_node r) hout rfl rfl
        obtain ⟨res, t, hrun, ht, hagree⟩ := ih hstored.owned
          (fun va hva => by
            rw [hstored.userPage_eq hr] at hva ⊢
            exact hdata va hva)
          (pgRoundDown dstva + pgSize) (src + n) (bytes.drop n)
        refine ⟨res, t, hrun, hstored.trans ht, fun p hkernel hne => ?_⟩
        refine (h.agreeOn_of_ne hp.page hout hkernel (hne 0 (by omega)).symm).trans
          (hagree p hkernel fun i hi => ?_)
        rw [List.length_drop] at hi
        rw [hstored.userPage_eq hr, show pgRoundDown dstva + pgSize + i = dstva + (n + i) by omega]
        exact hne (n + i) (by omega)

/-- Copying to user memory returns and changes user pages only. -/
theorem copyout (dstva src : Nat) (bytes : List (BitVec 8)) :
    ∃ res t, Kernel.copyout r dstva src bytes s = .ok (res, t) ∧ Stored im own roots s t ∧
      ∀ p, own p ≠ .kernel → (∀ i < bytes.length, userPage s.mem r (pgRoundDown (dstva + i)) ≠ p) →
        AgreeOn s.mem t.mem p :=
  h.copyoutLoop hr hdata bytes.length dstva src bytes

end Owned

/-! ## What user code reads -/

/-- The physical address behind a user address. -/
def userAddr (m : Memory) (r va : Nat) : Nat := userPage m r (pgRoundDown va) + va % pgSize

/-- The byte that user code reads at an address, if it may. -/
def userByte (m : Memory) (r va : Nat) : Option (BitVec 8) :=
  if userPage m r (pgRoundDown va) = 0 then none else some (m (userAddr m r va))

namespace Owned

variable (h : Owned im own roots s) (hr : roots r)
  (hdata : ∀ va, userPage s.mem r va ≠ 0 → IsData im own (userPage s.mem r va))
include h hr hdata

theorem copyoutLoop_bytes {rounds dstva src : Nat} {bytes : List (BitVec 8)}
    (hrounds : bytes.length ≤ rounds) (hlen : bytes.length ≤ 8)
    (hpages : ∀ i < bytes.length, userPage s.mem r (pgRoundDown (dstva + i)) ≠ 0) :
    ∃ t, Kernel.copyoutLoop r rounds dstva src bytes s = .ok (0, t) ∧ Stored im own roots s t ∧
      (∀ i < bytes.length, t.mem (userAddr s.mem r (dstva + i)) = bytes.getD i 0) ∧
      ∀ x, (∀ i < bytes.length, x ≠ userAddr s.mem r (dstva + i)) → t.mem x = s.mem x := by
  induction rounds generalizing s dstva src bytes with
  | zero =>
    obtain rfl : bytes = [] := List.eq_nil_of_length_eq_zero (by omega)
    exact ⟨s, rfl, .refl h, by simp, fun _ _ => rfl⟩
  | succ rounds ih =>
    unfold Kernel.copyoutLoop
    split
    next hnil =>
      obtain rfl : bytes = [] := List.eq_nil_of_length_eq_zero hnil
      exact ⟨s, rfl, .refl h, by simp, fun _ _ => rfl⟩
    next hpos =>
      have hpa : userPage s.mem r (pgRoundDown dstva) ≠ 0 := hpages 0 (by omega)
      rw [bind_of_ok walkaddr_eq, if_neg hpa, bind_of_ok (a := ()) rfl,
        mymemmoveFrom_of_le (by rw [List.length_take]; omega)]
      have hoff : dstva - pgRoundDown dstva = dstva % pgSize := by
        unfold pgRoundDown pgSize
        omega
      rw [hoff]
      have hlt : dstva % pgSize < pgSize := Nat.mod_lt _ (by decide)
      obtain ⟨n, hn⟩ : ∃ n, n = min (pgSize - dstva % pgSize) bytes.length := ⟨_, rfl⟩
      rw [← hn]
      have hchunk : ∀ i < n, userAddr s.mem r (dstva + i) =
          userPage s.mem r (pgRoundDown dstva) + dstva % pgSize + i := by
        intro i hi
        have hround : pgRoundDown (dstva + i) = pgRoundDown dstva ∧
            (dstva + i) % pgSize = dstva % pgSize + i := by
          unfold pgRoundDown pgSize at *
          omega
        rw [userAddr, hround.1, hround.2, Nat.add_assoc]
      have hnext : n < bytes.length → pgRoundDown dstva + pgSize = dstva + n := by
        unfold pgRoundDown pgSize at *
        omega
      have hp := hdata _ hpa
      have hstored : Stored im own roots s { s with
          mem := s.mem.blit (userPage s.mem r (pgRoundDown dstva) + dstva % pgSize)
            (bytes.take n) } := by
        refine .of_write h hp.page hp.not_free (fun r _ => hp.not_node r)
          (fun x hx => Memory.blit_of_not_mem ?_) rfl rfl
        simp only [List.length_take]
        omega
      have hsame : ∀ va, userPage (s.mem.blit
          (userPage s.mem r (pgRoundDown dstva) + dstva % pgSize) (bytes.take n)) r va =
            userPage s.mem r va := fun va => hstored.userPage_eq hr
      have hpages' : ∀ i < (bytes.drop n).length, userPage (s.mem.blit
          (userPage s.mem r (pgRoundDown dstva) + dstva % pgSize) (bytes.take n)) r
            (pgRoundDown (pgRoundDown dstva + pgSize + i)) ≠ 0 := by
        intro i hi
        rw [List.length_drop] at hi
        rw [hsame, hnext (by omega), Nat.add_assoc]
        exact hpages (n + i) (by omega)
      obtain ⟨t, hrun, ht, hbytes, hframe⟩ := ih hstored.owned
        (fun va hva => by
          rw [hsame] at hva ⊢
          exact hdata va hva)
        (by rw [List.length_drop]; omega) (by rw [List.length_drop]; omega) hpages'
      -- The later rounds write to other offsets in their pages.
      have hlater : ∀ i < bytes.length - n, userAddr (s.mem.blit
          (userPage s.mem r (pgRoundDown dstva) + dstva % pgSize) (bytes.take n)) r
            (pgRoundDown dstva + pgSize + i) = userAddr s.mem r (dstva + (n + i)) := by
        intro i hi
        rw [hnext (by omega), Nat.add_assoc, userAddr, userAddr, hsame]
      have hmod : ∀ i < bytes.length, userAddr s.mem r (dstva + i) % pgSize =
          (dstva + i) % pgSize := by
        intro i hi
        have haligned := (hdata _ (hpages i hi)).page.aligned
        unfold userAddr
        rw [Nat.add_mod, haligned, Nat.zero_add, Nat.mod_mod, Nat.mod_mod]
      simp only [List.length_drop] at hbytes hframe
      refine ⟨t, hrun, hstored.trans ht, fun i hi => ?_, fun x hx => ?_⟩
      · by_cases hin : i < n
        · rw [hframe _ fun j hj heq => ?_, hchunk i hin]
          · have hmem : userPage s.mem r (pgRoundDown dstva) + dstva % pgSize + i <
                userPage s.mem r (pgRoundDown dstva) + dstva % pgSize + (bytes.take n).length := by
              rw [List.length_take]
              omega
            simp only [Memory.blit, hmem, Nat.le_add_right, and_self, if_true,
              Nat.add_sub_cancel_left]
            rw [List.getD_eq_getElem?_getD, List.getElem?_take_of_lt hin,
              List.getD_eq_getElem?_getD]
          · rw [hlater j hj] at heq
            have h1 := hmod i hi
            have h2 := hmod (n + j) (by omega)
            rw [heq, h2] at h1
            unfold pgSize at h1
            omega
        · have hj := hbytes (i - n) (by omega)
          rw [hlater (i - n) (by omega), show n + (i - n) = i by omega] at hj
          rw [hj, List.getD_eq_getElem?_getD, List.getElem?_drop, show n + (i - n) = i by omega,
            List.getD_eq_getElem?_getD]
      · rw [hframe x fun j hj heq => hx (n + j) (by omega) (by rw [heq, hlater j hj])]
        refine Memory.blit_of_not_mem fun hmem => ?_
        rw [List.length_take] at hmem
        obtain ⟨i, hi⟩ := Nat.exists_eq_add_of_le hmem.1
        exact hx i (by omega) (by rw [hchunk i (by omega), hi])

theorem copyout_bytes {dstva src : Nat} {bytes : List (BitVec 8)} (hlen : bytes.length ≤ 8)
    (hpages : ∀ i < bytes.length, userPage s.mem r (pgRoundDown (dstva + i)) ≠ 0) :
    ∃ t, Kernel.copyout r dstva src bytes s = .ok (0, t) ∧
      ∀ i < bytes.length, userByte t.mem r (dstva + i) = some (bytes.getD i 0) := by
  obtain ⟨t, hrun, hstored, hbytes, -⟩ := h.copyoutLoop_bytes hr hdata le_rfl hlen hpages
  refine ⟨t, hrun, fun i hi => ?_⟩
  rw [userByte, userAddr, hstored.userPage_eq hr, if_neg (hpages i hi)]
  exact congrArg some (hbytes i hi)

end Owned

end Kernel
end FastIpc
