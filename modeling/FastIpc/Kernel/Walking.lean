import FastIpc.Kernel.PageTable

/-!
# Walking down a page table

What `walk` does to memory.  Without allocation it reads the map; with allocation it
hangs zeroed pages into the tree, which changes no map, and takes exactly the pages that are
missing on the way to the address.

Main results:

- Theorem `walk_false`: without allocation `walk` looks up the page-table page.
- Theorem `Owned.walkLevel`: one level of `walk` with allocation.
- Theorem `Owned.walk`: creating page-table pages changes no map.
- Theorem `Owned.walk_exactly`: `walk` takes the pages that are missing.
-/

namespace FastIpc
namespace Kernel

open Foundation FaultM Foundation.RadixTree
open Function (update update_of_ne update_self)

/-! ## Walking down a tree -/

/-- The indices of an address from a level of the tree down to the last inner one. -/
def restPath (va : Nat) : Nat → List (Fin 512)
  | 0 => []
  | level + 1 => px (level + 1) va :: restPath va level

variable {n va : Nat} {s : Ram}

theorem walkFrom_of_descend {alloc : Bool} {level n' : Nat}
    (h : descend childOf (entryAt s.mem) n (restPath va level) = some n') :
    walkFrom va alloc level n s = .ok (some (n' + 8 * px 0 va), s) := by
  induction level generalizing n with
  | zero =>
    simp only [restPath, descend_nil, Option.some.injEq] at h
    subst h
    rfl
  | succ level ih =>
    rw [restPath, descend_cons, Option.bind_eq_some_iff] at h
    obtain ⟨c, hc, hrest⟩ := h
    unfold childOf at hc
    split at hc
    next hvalid =>
      cases hc
      rw [walkFrom, bind_of_ok (a := entryAt s.mem n (px (level + 1) va)) rfl, if_pos hvalid]
      exact ih hrest
    next => cases hc

theorem walkFrom_false {level : Nat} :
    walkFrom va false level n s =
      .ok ((descend childOf (entryAt s.mem) n (restPath va level)).map fun n' =>
        n' + 8 * (px 0 va).val, s) := by
  cases h : descend childOf (entryAt s.mem) n (restPath va level) with
  | some n' => exact walkFrom_of_descend h
  | none =>
    induction level generalizing n with
    | zero => simp [restPath] at h
    | succ level ih =>
      rw [walkFrom, bind_of_ok (a := entryAt s.mem n (px (level + 1) va)) rfl]
      rw [restPath, descend_cons] at h
      split
      next hvalid =>
        refine ih ?_
        simpa [childOf, hvalid] using h
      next => rfl

/-- Looking an entry up changes nothing. -/
theorem walk_false {r : Nat} (hva : va < maxVA) :
    walk r va false s =
      .ok ((table s.mem r [px 2 va, px 1 va]).map fun n => n + 8 * (px 0 va).val, s) := by
  rw [walk, if_neg (by omega)]
  exact walkFrom_false

/-- An entry whose page-table page exists is found without an allocation. -/
theorem walk_of_table {r : Nat} {alloc : Bool} (hva : va < maxVA)
    (hn : table s.mem r [px 2 va, px 1 va] = some n) :
    walk r va alloc s = .ok (some (n + 8 * px 0 va), s) := by
  rw [walk, if_neg (by omega)]
  exact walkFrom_of_descend hn

/-- Page-table pages of one tree were added, and nothing else happened. -/
structure Grown (im : Image) (roots : Nat → Prop) (r : Nat) (own own' : Nat → Role)
    (s t : Ram) : Prop where
  owned : Owned im own' roots t
  kept : ∀ p, own p ≠ .free → own' p = own p
  fresh : ∀ p, own p = .free → own' p = .free ∨ ∃ path, own' p = .node r path
  leaf_eq : ∀ r' va, roots r' → leaf t.mem r' va = leaf s.mem r' va
  table_some : ∀ r' path n, roots r' → path.length ≤ 2 → table s.mem r' path = some n →
    table t.mem r' path = some n
  data : ∀ p, own p ≠ .free → (∀ path, own p ≠ .node r path) → own p ≠ .kernel →
    AgreeOn s.mem t.mem p

namespace Grown

variable {im : Image} {own own' own'' : Nat → Role} {roots : Nat → Prop} {s t u : Ram} {r : Nat}

theorem of_mem_eq (h : Owned im own roots s) (hmem : t.mem = s.mem)
    (hlist : t.freelist = s.freelist) : Grown im roots r own own s t where
  owned := h.of_mem_eq hmem hlist
  kept _ _ := rfl
  fresh _ hp := .inl hp
  leaf_eq _ _ _ := by rw [hmem]
  table_some _ _ _ _ _ hn := by rwa [hmem]
  data _ _ _ _ _ _ _ := by rw [hmem]

theorem fresh_at (h : Grown im roots r own own' s t) (p : Nat) :
    own' p = own p ∨ (own' p).At r := by
  by_cases hp : own p = .free
  · rcases h.fresh p hp with hfree | ⟨path, hnode⟩
    · exact .inl (hfree.trans hp.symm)
    · rw [hnode]
      exact .inr rfl
  · exact .inl (h.kept p hp)

theorem trans (h : Grown im roots r own own' s t) (h' : Grown im roots r own' own'' t u) :
    Grown im roots r own own'' s u where
  owned := h'.owned
  kept p hp := by
    have hmid := h.kept p hp
    rw [h'.kept p (by rwa [hmid]), hmid]
  fresh p hp := by
    rcases h.fresh p hp with hmid | ⟨path, hmid⟩
    · exact h'.fresh p hmid
    · exact .inr ⟨path, by rw [h'.kept p (by simp [hmid]), hmid]⟩
  leaf_eq r' va hr' := (h'.leaf_eq r' va hr').trans (h.leaf_eq r' va hr')
  table_some r' path n hr' hlen hn :=
    h'.table_some r' path n hr' hlen (h.table_some r' path n hr' hlen hn)
  data p hp hnode hkernel x hlo hhi := by
    have hmid := h.kept p hp
    rw [h'.data p (by rwa [hmid]) (by rwa [hmid]) (by rwa [hmid]) x hlo hhi]
    exact h.data p hp hnode hkernel x hlo hhi

end Grown

/-! ## Creating page-table pages -/

/-- A zeroed page `c` was hung into the free entry `i` of an inner page-table
page `n`, and no other page was written. -/
structure Hung (own : Nat → Role) (r n : Nat) (path : List (Fin 512)) (i : Fin 512) (c : Nat)
    (s t : Ram) : Prop where
  short : path.length < 2
  parent : table s.mem r path = some n
  own_parent : own n = .node r path
  own_child : own c = .free
  unused : childOf (entryAt s.mem n i) = none
  pointer : childOf (mkPte c 0) = some c
  entry_parent : ∀ i', entryAt t.mem n i' = if i' = i then mkPte c 0 else entryAt s.mem n i'
  entry_child : ∀ i', entryAt t.mem c i' = 0
  agree : ∀ p, own p ≠ .kernel → p ≠ n → p ≠ c → AgreeOn s.mem t.mem p

namespace Hung

variable {im : Image} {own : Nat → Role} {roots : Nat → Prop} {s t : Ram}
  {r r' n c va : Nat} {path : List (Fin 512)} {i : Fin 512}
variable {path' : List (Fin 512)} {p : Nat}

variable (h : Hung own r n path i c s t)
include h

theorem entry_eq {i' : Fin 512} (hp : own p = .node r path') (hne : p ≠ n ∨ i' ≠ i) :
    entryAt t.mem p i' = entryAt s.mem p i' := by
  by_cases hpn : p = n
  · subst hpn
    rw [h.entry_parent, if_neg (by simpa using hne)]
  · refine (h.agree p (by simp [hp]) hpn ?_).entryAt_eq i'
    rintro rfl
    simp [h.own_child] at hp

theorem table_iff (hs : Owned im own roots s) (hr : roots r) (hlen : path'.length ≤ 2) :
    table t.mem r path' = some p ↔
      table s.mem r path' = some p ∨ (path' = path ++ [i] ∧ p = c) := by
  refine (hs.placed r hr).descend_graft (placeOf_eq_some.mpr h.own_parent) h.parent h.unused
    ?_ ?_ ?_ hlen
  · rw [h.entry_parent, if_pos rfl, h.pointer]
  · intro i'
    rw [h.entry_child, childOf_zero]
  · intro p path' i' hp hne
    exact h.entry_eq (placeOf_eq_some.mp hp) hne

theorem agree_other (hne : r' ≠ r) (hp : own p = .node r' path') : AgreeOn s.mem t.mem p := by
  refine h.agree p (by simp [hp]) ?_ ?_
  · rintro rfl
    rw [h.own_parent] at hp
    cases hp
    exact hne rfl
  · rintro rfl
    simp [h.own_child] at hp

/-- An empty page-table page adds nothing to the map. -/
theorem leaf_eq (hs : Owned im own roots s) (hr : roots r) (hr' : roots r') :
    leaf t.mem r' va = leaf s.mem r' va := by
  by_cases hrr : r' = r
  · subst hrr
    unfold leaf
    cases hold : table s.mem r' [px 2 va, px 1 va] with
    | some p =>
      have hown := hs.own_table hr (by simp) hold
      rw [(h.table_iff hs hr (by simp)).mpr (.inl hold)]
      refine h.entry_eq hown (.inl ?_)
      rintro rfl
      rw [h.own_parent] at hown
      cases hown
      exact absurd h.short (by simp)
    | none =>
      cases hnew : table t.mem r' [px 2 va, px 1 va] with
      | none => rfl
      | some p =>
        rcases (h.table_iff hs hr (by simp)).mp hnew with hp | ⟨-, rfl⟩
        · rw [hold] at hp
          cases hp
        · exact h.entry_child _
  · exact hs.leaf_congr hr' fun p path' hp => h.agree_other hrr hp

theorem owned (hs : Owned im own roots s) (hr : roots r)
    (hfree : ∃ l, Threaded t.mem t.freelist l ∧ l.Nodup ∧ ∀ p, p ∈ l ↔
      update own c (.node r (path ++ [i])) p = .free) :
    Owned im (update own c (.node r (path ++ [i]))) roots t := by
  have hpageC := hs.page c (by simp [h.own_child])
  have hkept : ∀ p, own p ≠ .free → update own c (.node r (path ++ [i])) p = own p := by
    intro p hp
    refine update_of_ne ?_ _ _
    rintro rfl
    exact hp h.own_child
  refine ⟨hfree, ?_, ?_, ?_, ?_⟩
  · intro p hp
    by_cases hpc : p = c
    · exact hpc ▸ hpageC
    · rw [update_of_ne hpc] at hp
      exact hs.page p hp
  · intro r' hr' path' p hlen hp
    rw [placeOf_eq_some]
    by_cases hrr : r' = r
    · subst hrr
      rcases (h.table_iff hs hr hlen).mp hp with hold | ⟨rfl, rfl⟩
      · have hown := hs.own_table hr hlen hold
        rw [hkept p (by simp [hown]), hown]
      · exact update_self ..
    · have hold : table s.mem r' path' = some p := by
        rw [← hs.table_congr hr' (fun q path'' hq => h.agree_other hrr hq) hlen]
        exact hp
      have hown := hs.own_table hr' hlen hold
      rw [hkept p (by simp [hown]), hown]
  · intro r' hr' path' p hlen hp i'
    by_cases hrr : r' = r
    · subst hrr
      rcases (h.table_iff hs hr hlen.le).mp hp with hold | ⟨-, rfl⟩
      · by_cases hpi : p = n ∧ i' = i
        · obtain ⟨rfl, rfl⟩ := hpi
          rw [h.entry_parent, if_pos rfl]
          exact .inr ⟨c, hpageC, rfl⟩
        · rw [h.entry_eq (hs.own_table hr hlen.le hold) (by tauto)]
          exact hs.inner r' hr path' p hlen hold i'
      · exact .inl (h.entry_child i')
    · have hagree : ∀ q path'', own q = .node r' path'' → AgreeOn s.mem t.mem q :=
        fun q path'' hq => h.agree_other hrr hq
      rw [hs.table_congr hr' hagree hlen.le] at hp
      rw [(hagree p path' (hs.own_table hr' hlen.le hp)).entryAt_eq i']
      exact hs.inner r' hr' path' p hlen hp i'
  · intro r' hr' path' p hp
    by_cases hpc : p = c
    · subst hpc
      rw [update_self] at hp
      cases hp
      have hlen : (path ++ [i]).length ≤ 2 := by
        have hshort := h.short
        simp only [List.length_append, List.length_singleton]
        omega
      exact ⟨hlen, (h.table_iff hs hr hlen).mpr (.inr ⟨rfl, rfl⟩)⟩
    · rw [update_of_ne hpc] at hp
      obtain ⟨hlen, hold⟩ := hs.reached r' hr' path' p hp
      refine ⟨hlen, ?_⟩
      by_cases hrr : r' = r
      · subst hrr
        exact (h.table_iff hs hr hlen).mpr (.inl hold)
      · rwa [hs.table_congr hr' (fun q path'' hq => h.agree_other hrr hq) hlen]

theorem grown (hs : Owned im own roots s) (hr : roots r)
    (ht : Owned im (update own c (.node r (path ++ [i]))) roots t) :
    Grown im roots r own (update own c (.node r (path ++ [i]))) s t where
  owned := ht
  kept p hp := by
    refine update_of_ne ?_ _ _
    rintro rfl
    exact hp h.own_child
  fresh p hp := by
    by_cases hpc : p = c
    · subst hpc
      exact .inr ⟨path ++ [i], update_self ..⟩
    · rw [update_of_ne hpc]
      exact .inl hp
  leaf_eq _ _ hr' := h.leaf_eq hs hr hr'
  table_some r' path' p hr' hlen hp := by
    by_cases hrr : r' = r
    · subst hrr
      exact (h.table_iff hs hr hlen).mpr (.inl hp)
    · rw [hs.table_congr hr' (fun q path'' hq => h.agree_other hrr hq) hlen]
      exact hp
  data p hp hnode hkernel := by
    refine h.agree p hkernel ?_ ?_
    · rintro rfl
      exact hnode path h.own_parent
    · rintro rfl
      exact hp h.own_child

end Hung

namespace Owned

variable {im : Image} {own own' : Nat → Role} {roots : Nat → Prop} {s s1 t : Ram}
  {r n c va : Nat} {path : List (Fin 512)} {i : Fin 512}

/-- The allocation, the zeroing and the store of one level of `walk`. -/
theorem hang (h : Owned im own roots s) (hr : roots r) (hlen : path.length < 2)
    (hn : table s.mem r path = some n) (hentry : childOf (entryAt s.mem n i) = none)
    (hc : own c = .free) (hs1 : Owned im (update own c .held) roots s1)
    (hmem1 : s1.mem = s.mem.fill c pgSize 5)
    (hmem : t.mem = (s1.mem.fill c pgSize 0).writeLE (n + 8 * i) 8 (mkPte c 0))
    (hlist : t.freelist = s1.freelist) :
    Hung own r n path i c s t ∧
      Grown im roots r own (update own c (.node r (path ++ [i]))) s t := by
  have hownN := h.own_table hr hlen.le hn
  have hpageN := h.page n (by simp [hownN])
  have hpageC := h.page c (by simp [hc])
  have hnc : n ≠ c := by
    rintro rfl
    simp [hc] at hownN
  have hpte : mkPte c 0 < 256 ^ 8 := mkPte_lt (by decide) hpageC.lt_pow
  have hnotC : ∀ p x, own p ≠ .kernel → p ≠ c → p ≤ x → x < p + pgSize →
      ¬(c ≤ x ∧ x < c + pgSize) := fun p x hp hpc hlo hhi hx =>
    hpc (IsPage.eq_of_mem (h.page p hp).aligned hpageC.aligned hlo hhi hx.1 hx.2)
  have hnotN : ∀ p x, own p ≠ .kernel → p ≠ n → p ≤ x → x < p + pgSize →
      ¬(n ≤ x ∧ x < n + pgSize) := fun p x hp hpn hlo hhi hx =>
    hpn (IsPage.eq_of_mem (h.page p hp).aligned hpageN.aligned hlo hhi hx.1 hx.2)
  have hhung : Hung own r n path i c s t := by
    refine ⟨hlen, hn, hownN, hc, hentry, childOf_mkPte hpageC.aligned hpageC.lt_pow, ?_, ?_, ?_⟩
    · intro i'
      rw [hmem, entryAt_store hpageN.aligned hpageN.aligned hpte]
      have hagree : AgreeOn s.mem (s1.mem.fill c pgSize 0) n := by
        intro x hlo hhi
        have hx := hnotC n x (by simp [hownN]) hnc hlo hhi
        rw [Memory.fill_of_not_mem hx, hmem1, Memory.fill_of_not_mem hx]
      simp only [true_and, hagree.entryAt_eq i']
    · intro i'
      have hi' := i'.isLt
      rw [hmem, entryAt_store hpageN.aligned hpageC.aligned hpte, if_neg fun hcn => hnc hcn.1.symm]
      exact Memory.readLE_fill_zero (by omega) (by unfold pgSize; omega)
    · intro p hp hpn hpc x hlo hhi
      have hx := hnotC p x hp hpc hlo hhi
      rw [hmem, store_out (hnotN p x hp hpn hlo hhi), Memory.fill_of_not_mem hx, hmem1,
        Memory.fill_of_not_mem hx]
  refine ⟨hhung, hhung.grown h hr (hhung.owned h hr ?_)⟩
  obtain ⟨l, hl, hnodup, hmemL⟩ := hs1.free
  refine ⟨l, ?_, hnodup, fun p => (hmemL p).trans (by by_cases hpc : p = c <;> simp [hpc])⟩
  rw [hlist]
  refine hl.congr fun p hp => Memory.readLE_congr fun x hlo hhi => ?_
  have hfree := (hmemL p).mp hp
  have hpc : p ≠ c := by
    rintro rfl
    simp at hfree
  rw [update_of_ne hpc] at hfree
  have hpn : p ≠ n := by
    rintro rfl
    simp [hownN] at hfree
  have hhi' : x < p + pgSize := by
    unfold pgSize
    omega
  rw [hmem, store_out (hnotN p x (by simp [hfree]) hpn hlo hhi'),
    Memory.fill_of_not_mem (hnotC p x (by simp [hfree]) hpc hlo hhi')]

theorem exists_walkFrom (va : Nat) (alloc : Bool) (level n : Nat) (s : Ram) :
    ∃ res t, Kernel.walkFrom va alloc level n s = .ok (res, t) := by
  induction level generalizing n s with
  | zero => exact ⟨_, s, rfl⟩
  | succ level ih =>
    rw [Kernel.walkFrom, bind_of_ok (a := entryAt s.mem n (px (level + 1) va)) rfl]
    split
    next => exact ih _ s
    next =>
      split
      next =>
        obtain ⟨c, s1, hkalloc⟩ := exists_kalloc s
        rw [bind_of_ok hkalloc]
        split
        next => exact ⟨_, s1, rfl⟩
        next =>
          rw [bind_of_ok (a := ()) rfl, bind_of_ok (a := ()) rfl]
          exact ih c _
      next => exact ⟨_, s, rfl⟩

variable (h : Owned im own roots s) (hr : roots r)
include h hr

/-- One level of `walk` with allocation: the page-table page is there, or it cannot be
allocated, or it is hung in. -/
theorem walkLevel (hlen : path.length < 2) (hn : table s.mem r path = some n) (va level : Nat) :
    (∃ c, table s.mem r (path ++ [px (level + 1) va]) = some c ∧
      Kernel.walkFrom va true (level + 1) n s = Kernel.walkFrom va true level c s) ∨
    table s.mem r (path ++ [px (level + 1) va]) = none ∧
      ((∃ t, Kernel.walkFrom va true (level + 1) n s = .ok (none, t) ∧
        Grown im roots r own own s t ∧ ¬s.Supplies 1) ∨
      ∃ c t own', Kernel.walkFrom va true (level + 1) n s = Kernel.walkFrom va true level c t ∧
        Grown im roots r own own' s t ∧ Exactly 1 True s t ∧
        ∀ path' p, path'.length ≤ 2 → (table t.mem r path' = some p ↔
          table s.mem r path' = some p ∨ (path' = path ++ [px (level + 1) va] ∧ p = c))) := by
  rw [Kernel.walkFrom, bind_of_ok (a := entryAt s.mem n (px (level + 1) va)) rfl]
  have hchild : table s.mem r (path ++ [px (level + 1) va]) =
      childOf (entryAt s.mem n (px (level + 1) va)) := by
    rw [table, descend_append, ← table, hn]
    simp [descend_cons, descend_nil]
  split
  next hvalid =>
    refine .inl ⟨_, hchild.trans ?_, rfl⟩
    simp [childOf, hvalid]
  next hinvalid =>
    have hentry : childOf (entryAt s.mem n (px (level + 1) va)) = none := by
      simp only [ne_eq, not_not] at hinvalid
      simp [childOf, hinvalid]
    refine .inr ⟨hchild.trans hentry, ?_⟩
    obtain ⟨c, s1, hkalloc⟩ := exists_kalloc s
    have hexactly := h.kalloc_exactly hkalloc
    rw [if_pos rfl, bind_of_ok hkalloc]
    rcases h.kalloc hkalloc with ⟨rfl, rfl⟩ | ⟨hc, hmem1, hs1⟩
    · exact .inl ⟨_, rfl, .of_mem_eq h rfl rfl, fun hs => hexactly.done_iff.mpr hs rfl⟩
    · have hc0 : c ≠ 0 := (h.page c (by simp [hc])).pos.ne'
      have howned1 := hs1 .held (by simp) (by simp)
      obtain ⟨hhung, hgrown⟩ := h.hang hr hlen hn hentry hc howned1 hmem1
        (t := { s1 with
          mem := (s1.mem.fill c pgSize 0).writeLE (n + 8 * px (level + 1) va) 8 (mkPte c 0) })
        rfl rfl
      have hfree : ∀ p, update own c .held p = .free ↔
          update own c (.node r (path ++ [px (level + 1) va])) p = .free := fun p => by
        by_cases hpc : p = c <;> simp [hpc]
      rw [if_neg hc0, bind_of_ok (a := ()) rfl, bind_of_ok (a := ()) rfl]
      refine .inr ⟨c, _, _, ?_, hgrown, hexactly.next hc0
        (howned1.exactly_zero hgrown.owned hfree rfl trivial), fun path' p hlen' =>
          hhung.table_iff h hr hlen'⟩
      simp [mkPte]

/-- Walking down with allocation only grows the tree. -/
theorem walkFrom {level : Nat} (hn : table s.mem r path = some n)
    (hpath : path ++ restPath va level = [px 2 va, px 1 va]) {res : Option Nat}
    (hrun : Kernel.walkFrom va true level n s = .ok (res, t)) :
    ∃ own', Grown im roots r own own' s t ∧ ∀ pte, res = some pte → ∃ n', pte = n' + 8 * px 0 va ∧
        table t.mem r [px 2 va, px 1 va] = some n' := by
  induction level generalizing own s n path with
  | zero =>
    cases hrun
    refine ⟨own, .of_mem_eq h rfl rfl, fun pte hpte => ⟨n, (Option.some.inj hpte).symm, ?_⟩⟩
    rw [← hpath, restPath, List.append_nil]
    exact hn
  | succ level ih =>
    have hpath' : (path ++ [px (level + 1) va]) ++ restPath va level = [px 2 va, px 1 va] := by
      simpa [restPath] using hpath
    have hlen : path.length < 2 := by
      have := congrArg List.length hpath'
      simp at this
      omega
    rcases h.walkLevel hr hlen hn va level with ⟨c, hc, hstep⟩ |
      ⟨-, ⟨u, hstep, hgrown, -⟩ | ⟨c, u, own1, hstep, hgrown, -, htable⟩⟩
    · exact ih h hc hpath' (hstep.symm.trans hrun)
    · rw [hstep] at hrun
      cases hrun
      exact ⟨own, hgrown, by simp⟩
    · have hc := (htable _ c (by simp; omega)).mpr (.inr ⟨rfl, rfl⟩)
      obtain ⟨own', hgrown', hres⟩ := ih hgrown.owned hc hpath' (hstep.symm.trans hrun)
      exact ⟨own', hgrown.trans hgrown', hres⟩

/-- Finding the place of an entry, with allocation, only grows the tree. -/
theorem walk {res : Option Nat} (hrun : Kernel.walk r va true s = .ok (res, t)) :
    ∃ own', Grown im roots r own own' s t ∧ ∀ pte, res = some pte → ∃ n', pte = n' + 8 * px 0 va ∧
        table t.mem r [px 2 va, px 1 va] = some n' := by
  unfold Kernel.walk at hrun
  split at hrun
  next => cases hrun
  next =>
    have hroot : table s.mem r [] = some r := rfl
    exact h.walkFrom hr hroot rfl hrun

end Owned

/-! ## The pages that are missing -/

/-- How many page-table pages are missing on the way to an address. -/
def missing (m : Memory) (r va : Nat) : Nat :=
  if table m r [px 2 va] = none then 2
  else if table m r [px 2 va, px 1 va] = none then 1
  else 0

theorem missing_le (m : Memory) (r va : Nat) : missing m r va ≤ 2 := by
  unfold missing
  split_ifs <;> omega

/-- The paths on the way to an address are the root, one step and two steps. -/
theorem prefix_way_iff {path : List (Fin 512)} {va : Nat} : path <+: [px 2 va, px 1 va] ↔
    path = [] ∨ path = [px 2 va] ∨ path = [px 2 va, px 1 va] := by
  rw [List.prefix_cons_iff]
  simp only [List.prefix_cons_iff, List.prefix_nil]
  constructor
  · rintro (rfl | ⟨t, rfl, rfl | ⟨t', rfl, rfl⟩⟩) <;> simp
  · rintro (rfl | rfl | rfl) <;> simp

/-- The page-table pages on the way to an address were added, and no others. -/
def PathAdded (m m' : Memory) (r va : Nat) : Prop :=
  ∀ path, path.length ≤ 2 → ((table m' r path).isSome ↔
    (table m r path).isSome ∨ path <+: [px 2 va, px 1 va])

namespace Owned

variable {im : Image} {own : Nat → Role} {roots : Nat → Prop} {s t : Ram} {r n va : Nat}

theorem walkLower (h : Owned im own roots s) (hr : roots r)
    (hn : table s.mem r [px 2 va] = some n) {res : Option Nat}
    (hrun : Kernel.walkFrom va true 1 n s = .ok (res, t)) :
    Exactly (if table s.mem r [px 2 va, px 1 va] = none then 1 else 0) (res ≠ none) s t ∧
      (res ≠ none → ∀ path, path.length ≤ 2 → ((table t.mem r path).isSome ↔
        (table s.mem r path).isSome ∨ path = [px 2 va, px 1 va])) := by
  rcases h.walkLevel hr (by simp) hn va 0 with ⟨c, hc, hstep⟩ |
    ⟨hnone, ⟨u, hstep, -, hshort⟩ | ⟨c, u, own1, hstep, -, hexactly, htable⟩⟩
  · rw [List.singleton_append] at hc
    rw [hstep] at hrun
    cases hrun
    rw [if_neg (by simp [hc])]
    refine ⟨h.exactly_zero h (fun _ => Iff.rfl) rfl (by simp), fun _ path _ => ?_⟩
    refine ⟨.inl, fun hpath => hpath.elim id ?_⟩
    rintro rfl
    simp [hc]
  · rw [List.singleton_append] at hnone
    rw [hstep] at hrun
    cases hrun
    rw [if_pos hnone]
    exact ⟨.of_short hshort le_rfl (by simp), by simp⟩
  · rw [List.singleton_append] at hnone
    rw [hstep] at hrun
    cases hrun
    rw [if_pos hnone]
    refine ⟨hexactly.congr (by simp), fun _ path hlen => ?_⟩
    simp only [Option.isSome_iff_exists, htable path _ hlen, List.singleton_append]
    constructor
    · rintro ⟨p, hp | ⟨hpath, -⟩⟩
      · exact .inl ⟨p, hp⟩
      · exact .inr hpath
    · rintro (⟨p, hp⟩ | hpath)
      · exact ⟨p, .inl hp⟩
      · exact ⟨c, .inr ⟨hpath, rfl⟩⟩

/-- `walk` with allocation takes the pages that are missing. -/
theorem walk_exactly (h : Owned im own roots s) (hr : roots r) {res : Option Nat}
    (hrun : Kernel.walk r va true s = .ok (res, t)) :
    Exactly (missing s.mem r va) (res ≠ none) s t ∧ (res ≠ none → PathAdded s.mem t.mem r va) := by
  unfold Kernel.walk at hrun
  split at hrun
  next => cases hrun
  next =>
    have hroot : table s.mem r [] = some r := rfl
    rcases h.walkLevel hr (by simp) hroot va 1 with ⟨c, hc, hstep⟩ |
      ⟨hnone, ⟨u, hstep, -, hshort⟩ | ⟨c, u, own1, hstep, hgrown, hexactly, htable⟩⟩
    · rw [List.nil_append] at hc
      obtain ⟨hexactly, hadded⟩ := h.walkLower hr hc (hstep.symm.trans hrun)
      refine ⟨by rwa [missing, if_neg (by simp [hc])], fun hres path hlen => ?_⟩
      rw [hadded hres path hlen, prefix_way_iff]
      constructor
      · exact Or.imp_right fun hpath => .inr (.inr hpath)
      · rintro (hpath | rfl | rfl | hpath)
        · exact .inl hpath
        · exact .inl rfl
        · exact .inl (by simp [hc])
        · exact .inr hpath
    · rw [List.nil_append] at hnone
      rw [hstep] at hrun
      cases hrun
      rw [missing, if_pos hnone]
      exact ⟨.of_short hshort (by omega) (by simp), by simp⟩
    · rw [List.nil_append] at hnone htable
      have hc := (htable [px 2 va] c (by simp)).mpr (.inr ⟨rfl, rfl⟩)
      have hlower : table u.mem r [px 2 va, px 1 va] = none := by
        rw [Option.eq_none_iff_forall_ne_some]
        intro p hp
        rcases (htable _ p (by simp)).mp hp with hold | ⟨hpath, -⟩
        · obtain ⟨p', hp', -⟩ := (@descend_snoc_eq_some _ _ _ _ _ _ _ [px 2 va] _).mp hold
          rw [← table, hnone] at hp'
          cases hp'
        · simp at hpath
      obtain ⟨hexactly', hadded⟩ := hgrown.owned.walkLower hr hc (hstep.symm.trans hrun)
      rw [if_pos hlower] at hexactly'
      rw [missing, if_pos hnone]
      refine ⟨hexactly.next trivial hexactly', fun hres path hlen => ?_⟩
      rw [hadded hres path hlen, prefix_way_iff]
      simp only [Option.isSome_iff_exists, htable path _ hlen]
      constructor
      · rintro (⟨p, hp | ⟨hpath, -⟩⟩ | hpath)
        · exact .inl ⟨p, hp⟩
        · exact .inr (.inr (.inl hpath))
        · exact .inr (.inr (.inr hpath))
      · rintro (⟨p, hp⟩ | rfl | hpath | hpath)
        · exact .inl ⟨p, .inl hp⟩
        · exact .inl ⟨r, .inl rfl⟩
        · exact .inl ⟨c, .inr ⟨hpath, rfl⟩⟩
        · exact .inr hpath

end Owned

end Kernel
end FastIpc
