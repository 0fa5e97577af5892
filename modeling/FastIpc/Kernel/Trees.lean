import FastIpc.Kernel.UserMemory

/-!
# Making and freeing page tables

A new page table is a tree of one empty page; a page table is freed by removing all its
leaves and then every page of the tree.

Main results:

- Theorem `Owned.uvmcreate`: a new page table is an empty tree.
- Theorem `Owned.freewalk`: a tree without leaves is freed.
- Theorem `Owned.uvmfree`: a page table that maps user memory only is freed.
-/

namespace FastIpc
namespace Kernel

open Foundation FaultM Foundation.RadixTree
open Function (update update_of_ne update_self)

/-! ## A new root -/

/-- The page tables in use and one more. -/
def withRoot (roots : Nat → Prop) (r r' : Nat) : Prop := roots r' ∨ r' = r

namespace Owned

variable {im : Image} {roots : Nat → Prop} {own : Nat → Role} {s t : Ram} {r : Nat}

theorem not_root_of_free (h : Owned im own roots s) (hr : own r = .free) : ¬roots r := by
  intro hroot
  have htable : table s.mem r [] = some r := rfl
  have hplace := h.own_table hroot (by simp) htable
  rw [hr] at hplace
  cases hplace

theorem addRoot (h : Owned im own roots s) (hrole : own r = .node r [])
    (honly : ∀ n path, own n = .node r path → n = r)
    (hzero : ∀ i, entryAt s.mem r i = 0) : Owned im own (withRoot roots r) s := by
  -- Nothing hangs below the root.
  have hbelow : ∀ path n, table s.mem r path = some n → path = [] ∧ n = r := by
    intro path n hn
    cases path with
    | nil => exact ⟨rfl, (Option.some.inj hn).symm⟩
    | cons i path =>
      rw [table, descend_cons, hzero i, childOf_zero] at hn
      cases hn
  refine ⟨h.free, h.page, fun r' hr' => ?_, fun r' hr' path n hlen hn i => ?_,
    fun r' hr' path n hn => ?_⟩
  · rcases hr' with hr' | rfl
    · exact h.placed r' hr'
    · intro path n _ hn
      obtain ⟨rfl, rfl⟩ := hbelow path n hn
      exact placeOf_eq_some.mpr hrole
  · rcases hr' with hr' | rfl
    · exact h.inner r' hr' path n hlen hn i
    · obtain ⟨rfl, rfl⟩ := hbelow path n hn
      exact .inl (hzero i)
  · rcases hr' with hr' | rfl
    · exact h.reached r' hr' path n hn
    · obtain rfl := honly n path hn
      rw [hrole] at hn
      cases hn
      exact ⟨by simp, rfl⟩

/-- A page table is created, or the call fails and changes nothing. -/
theorem uvmcreate (h : Owned im own roots s) (hrooted : Rooted own roots) :
    ∃ r t, Kernel.uvmcreate s = .ok (r, t) ∧ ((r = 0 ∧ Owned im own roots t ∧ t.mem = s.mem ∧ ¬s.Supplies 1) ∨ (own r = .free ∧
        Owned im (update own r (.node r [])) (withRoot roots r) t ∧
        (∀ r' va, roots r' → leaf t.mem r' va = leaf s.mem r' va) ∧
        (∀ i, entryAt t.mem r i = 0) ∧ Exactly 1 True s t ∧
        ∀ p, own p ≠ .kernel → own p ≠ .free → AgreeOn s.mem t.mem p)) := by
  obtain ⟨r, s1, hkalloc⟩ := exists_kalloc s
  rw [Kernel.uvmcreate, bind_of_ok hkalloc]
  split
  next hzero =>
    subst hzero
    obtain ⟨howned, hmem⟩ := h.kalloc_zero hkalloc
    exact ⟨0, s1, rfl, .inl ⟨rfl, howned, hmem, fun hs => (h.supplies_kalloc hs hkalloc).1 rfl⟩⟩
  next hpos =>
    refine ⟨r, _, rfl, ?_⟩
    rcases h.kalloc hkalloc with ⟨hzero, -⟩ | ⟨hfree, hmem1, howned1⟩
    · exact (hpos hzero).elim
    have hnew : ¬roots r := h.not_root_of_free hfree
    have howned1 := howned1 (.node r []) (by simp) fun r' hr' path heq => by
      cases heq
      exact hnew hr'
    have hpage := howned1.page r (by simp)
    have hstored : Stored im (update own r (.node r [])) roots s1
        { s1 with mem := s1.mem.fill r pgSize 0 } := by
      refine .of_write howned1 hpage (by simp) (fun r' hr' path => ?_)
        (fun x hx => Memory.fill_of_not_mem hx) rfl rfl
      rw [update_self]
      intro hrole
      cases hrole
      exact hnew hr'
    have hzero : ∀ i, entryAt (s1.mem.fill r pgSize 0) r i = 0 := by
      intro i
      have hi := i.isLt
      exact Memory.readLE_fill_zero (by omega) (by unfold pgSize; omega)
    have honly : ∀ n path, update own r (.node r []) n = .node r path → n = r := by
      intro n path hn
      by_contra hne
      rw [update_of_ne hne] at hn
      have hlives := hrooted n (by simp [hn])
      rw [hn] at hlives
      exact hnew hlives
    refine .inr ⟨hfree, hstored.owned.addRoot (by simp) honly hzero, fun r' va hr' => ?_, hzero,
      (h.kalloc_exactly hkalloc).next hpos
        (howned1.exactly_zero hstored.owned (fun _ => Iff.rfl) rfl trivial),
      fun p hkernel hp => ?_⟩
    · rw [hstored.leaf_eq r' va hr', h.leaf_congr hr' (h.kalloc_agree hfree hmem1 r' hr')]
    · refine h.agreeOn_of_ne hpage (fun x hx => (Memory.fill_of_not_mem hx).trans ?_) hkernel ?_
      · rw [hmem1, Memory.fill_of_not_mem hx]
      · rintro rfl
        exact hp hfree

end Owned

/-! ## Freeing a tree -/

/-- An entry that maps a page. -/
def IsLeafEntry (entry : Nat) : Prop := entry &&& pteV ≠ 0 ∧ entry &&& (pteR ||| pteW ||| pteX) ≠ 0

/-- The tree of a given height at page `n`, whose last entries satisfy `good`. -/
def Tree (im : Image) (own : Nat → Role) (m : Memory) (r : Nat) (good : Nat → Prop) :
    Nat → Nat → List (Fin 512) → Prop
  | 0, n, path => own n = .node r path ∧ ∀ i, good (entryAt m n i)
  | height + 1, n, path => own n = .node r path ∧ ∀ i, entryAt m n i = 0 ∨
      ∃ c, IsPage im c ∧ entryAt m n i = mkPte c 0 ∧ Tree im own m r good height c (path ++ [i])

/-- The tree has no leaves left. -/
abbrev Bare (im : Image) (own : Nat → Role) (m : Memory) (r : Nat) :
    Nat → Nat → List (Fin 512) → Prop :=
  Tree im own m r (· = 0)

/-- The tree may have leaves. -/
abbrev Leafy (im : Image) (own : Nat → Role) (m : Memory) (r : Nat) :
    Nat → Nat → List (Fin 512) → Prop :=
  Tree im own m r fun entry => entry = 0 ∨ IsLeafEntry entry

variable {im : Image} {m : Memory} {n r : Nat} {own : Nat → Role}

theorem Tree.congr {own' : Nat → Role} {m' : Memory} {height : Nat} {good : Nat → Prop}
    {path : List (Fin 512)} (h : Tree im own m r good height n path)
    (hsame : ∀ p rest, own p = .node r (path ++ rest) → own' p = own p ∧ AgreeOn m m' p) :
    Tree im own' m' r good height n path := by
  induction height generalizing n path with
  | zero =>
    obtain ⟨hrole, hagree⟩ := hsame n [] (by simpa using h.1)
    exact ⟨hrole.trans h.1, fun i => by rw [hagree.entryAt_eq]; exact h.2 i⟩
  | succ height ih =>
    obtain ⟨hrole, hagree⟩ := hsame n [] (by simpa using h.1)
    refine ⟨hrole.trans h.1, fun i => ?_⟩
    rw [hagree.entryAt_eq]
    rcases h.2 i with hzero | ⟨c, hc, hentry, hchild⟩
    · exact .inl hzero
    · refine .inr ⟨c, hc, hentry, ih hchild fun p rest hp => hsame p (i :: rest) ?_⟩
      rw [hp, List.append_assoc]
      rfl

theorem Tree.leaf_eq_zero (h : Bare im own m r 2 r []) (va : Nat) : leaf m r va = 0 := by
  unfold leaf table
  rcases h.2 (px 2 va) with hzero | ⟨c, hc, hentry, hchild⟩
  · rw [descend_cons, hzero, childOf_zero]
    rfl
  · rw [descend_cons, hentry, childOf_mkPte hc.aligned hc.lt_pow]
    rcases hchild.2 (px 1 va) with hzero | ⟨d, hd, hentry', hlast⟩
    · simp [descend_cons, hzero, childOf_zero]
    · simpa [descend_cons, hentry', childOf_mkPte hd.aligned hd.lt_pow] using hlast.2 (px 0 va)

/-- Where a tree leads does not depend on what happens outside its pages. -/
theorem Tree.descend_congr {m' : Memory} {height : Nat} {good : Nat → Prop}
    {path rest : List (Fin 512)} (h : Tree im own m r good height n path)
    (hsame : ∀ p rest, own p = .node r (path ++ rest) → AgreeOn m m' p)
    (hlen : rest.length ≤ height) :
    descend childOf (entryAt m') n rest = descend childOf (entryAt m) n rest := by
  induction height generalizing n path rest with
  | zero =>
    obtain rfl := List.length_eq_zero_iff.mp (Nat.le_zero.mp hlen)
    rfl
  | succ height ih =>
    cases rest with
    | nil => rfl
    | cons i rest =>
      have hentry := (hsame n [] (by simpa using h.1)).entryAt_eq i
      rw [descend_cons, descend_cons, hentry]
      rcases h.2 i with hzero | ⟨c, hc, hpte, hbelow⟩
      · rw [hzero, childOf_zero, Option.bind_none, Option.bind_none]
      · rw [hpte, childOf_mkPte hc.aligned hc.lt_pow, Option.bind_some, Option.bind_some]
        refine ih hbelow (fun p rest' hp => hsame p (i :: rest') ?_) (Nat.le_of_succ_le_succ hlen)
        rwa [List.append_assoc, List.singleton_append] at hp

/-- What freeing the tree below a path does: its pages go to the allocator and no other page
changes. -/
structure Freed (im : Image) (roots : Nat → Prop) (r : Nat) (below : List (Fin 512) → Prop)
    (own own' : Nat → Role) (s t : Ram) : Prop where
  owned : Owned im own' roots t
  own_eq : ∀ p, own' p = own p ∨ own' p = .free ∧ ∃ path, below path ∧ own p = .node r path
  agree : ∀ p, own p ≠ .kernel → (∀ path, below path → own p ≠ .node r path) → AgreeOn s.mem t.mem p

namespace Freed

variable {im : Image} {roots : Nat → Prop} {below below' : List (Fin 512) → Prop}
  {own own1 own2 : Nat → Role} {s t u : Ram} {r p : Nat}

theorem refl (h : Owned im own roots s) : Freed im roots r below own own s s :=
  ⟨h, fun _ => .inl rfl, fun _ _ _ _ _ _ => rfl⟩

variable (h : Freed im roots r below own own1 s t)
include h

theorem mono (hsub : ∀ path, below path → below' path) : Freed im roots r below' own own1 s t where
  owned := h.owned
  own_eq p := (h.own_eq p).imp_right fun ⟨hfree, path, hpath, hrole⟩ =>
    ⟨hfree, path, hsub path hpath, hrole⟩
  agree p hp hout := h.agree p hp fun path hpath => hout path (hsub path hpath)

theorem kept (hout : ∀ path, below path → own p ≠ .node r path) : own1 p = own p :=
  (h.own_eq p).resolve_right fun ⟨_, path, hpath, hrole⟩ => hout path hpath hrole

theorem trans (h' : Freed im roots r below own1 own2 t u) :
    Freed im roots r below own own2 s u where
  owned := h'.owned
  own_eq p := by
    rcases h.own_eq p with hsame | ⟨hfree, hbelow⟩
    · rw [← hsame]
      exact h'.own_eq p
    · rw [h'.kept (fun path _ => by simp [hfree])]
      exact .inr ⟨hfree, hbelow⟩
  agree p hp hout x hlo hhi := by
    have hsame := h.kept hout
    rw [h'.agree p (by rwa [hsame]) (by rwa [hsame]) x hlo hhi, h.agree p hp hout x hlo hhi]

end Freed

namespace Owned

variable {im : Image} {roots : Nat → Prop} {own : Nat → Role} {s t : Ram} {r n : Nat}
  {path : List (Fin 512)}

theorem freeNode (h : Owned im own roots s) (hr : ¬roots r) (hn : own n = .node r path) :
    ∃ t, Kernel.kfree im n s = .ok ((), t) ∧
      Freed im roots r (· = path) own (update own n .free) s t := by
  have hpage := h.page n (by simp [hn])
  obtain ⟨t, hrun, howned, -, hout⟩ := h.kfree hpage (by simp [hn]) fun r' hr' path' hnode => by
    rw [hn] at hnode
    cases hnode
    exact hr hr'
  refine ⟨t, hrun, howned, fun p => ?_, fun p hp hne => ?_⟩
  · by_cases hpn : p = n
    · subst hpn
      exact .inr ⟨by simp, path, rfl, hn⟩
    · exact .inl (update_of_ne hpn ..)
  · refine h.agreeOn_of_ne hpage hout hp ?_
    rintro rfl
    exact hne path rfl hn

/-- The panic of `freewalk`. -/
abbrev leafLeft : Fault := .panic "freewalk: leaf"

/-- The loop of `freewalk` over a page of the last level: it stops at the first entry that
maps a page. -/
theorem freewalkEntries_last (child : Nat → RamM Unit)
    (hentries : ∀ i, entryAt s.mem n i = 0 ∨ IsLeafEntry (entryAt s.mem n i)) (count i : Nat)
    (hi : i + count = 512) :
    (Kernel.freewalkEntries child n count i s = .ok ((), s) ∧
        ∀ j : Fin 512, i ≤ j.val → entryAt s.mem n j = 0) ∨
      (Kernel.freewalkEntries child n count i s = .error leafLeft ∧
        ¬∀ j : Fin 512, i ≤ j.val → entryAt s.mem n j = 0) := by
  induction count generalizing i with
  | zero => exact .inl ⟨rfl, fun j hj => absurd j.isLt (by omega)⟩
  | succ count ih =>
    have hlt : i < 512 := by omega
    have hload : loadWord (n + 8 * i) s = .ok (entryAt s.mem n ⟨i, hlt⟩, s) := rfl
    rw [Kernel.freewalkEntries, bind_of_ok hload]
    rcases hentries ⟨i, hlt⟩ with hzero | hleaf
    · have hnext : (∀ j : Fin 512, i + 1 ≤ j.val → entryAt s.mem n j = 0) ↔
          ∀ j : Fin 512, i ≤ j.val → entryAt s.mem n j = 0 := by
        refine ⟨fun h j hj => ?_, fun h j hj => h j (by omega)⟩
        by_cases hji : j.val = i
        · rw [show j = ⟨i, hlt⟩ from Fin.ext hji, hzero]
        · exact h j (by omega)
      rw [← hnext, hzero]
      simpa using ih (i + 1) (by omega)
    · refine .inr ⟨?_, fun h => hleaf.1 (by rw [h ⟨i, hlt⟩ le_rfl]; rfl)⟩
      rw [if_neg fun h => hleaf.2 h.2, if_pos hleaf.1]
      rfl

theorem clearEntry (h : Owned im own roots s) (hr : ¬roots r) (hn : own n = .node r path)
    (i : Fin 512) :
    Freed im roots r (· = path) own own s { s with mem := s.mem.writeLE (n + 8 * i) 8 0 } := by
  have hpage := h.page n (by simp [hn])
  have hstored : Stored im own roots s { s with mem := s.mem.writeLE (n + 8 * i) 8 0 } := by
    refine .of_write h hpage (by simp [hn]) (fun r' hr' path' hnode => ?_)
      (fun x hx => store_out hx) rfl rfl
    rw [hn] at hnode
    cases hnode
    exact hr hr'
  refine ⟨hstored.owned, fun _ => .inl rfl, fun p hp hne => ?_⟩
  refine h.agreeOn_of_ne hpage (fun x hx => store_out hx) hp ?_
  rintro rfl
  exact hne path rfl hn

/-- The body of the loop of `freewalk` for an entry that points to a tree: the tree is
freed, and the other entries and the trees below them stay as they are. -/
theorem freeChild {c : Nat} {child : Nat → RamM Unit} {i : Fin 512} {own1 : Nat → Role} {s1 : Ram}
    (hr : ¬roots r) (h : Owned im own roots s) (hn : own n = .node r path)
    (hrun1 : child c s = .ok ((), s1))
    (hfreed1 : Freed im roots r (path ++ [i] <+: ·) own own1 s s1) :
    ∃ t, (do child c; storeWord (n + 8 * i) 0) s = .ok ((), t) ∧
      Freed im roots r (path <+: ·) own own1 s t ∧ own1 n = .node r path ∧
      ∀ j, j ≠ i → entryAt t.mem n j = entryAt s.mem n j ∧
        ∀ p rest, own p = .node r (path ++ [j] ++ rest) →
          own1 p = own p ∧ AgreeOn s.mem t.mem p := by
  -- The page itself and the trees below its other entries are elsewhere.
  have hother : ∀ p rest, own p = .node r (path ++ rest) → (∀ rest', rest ≠ i :: rest') →
      ∀ path', path ++ [i] <+: path' → own p ≠ .node r path' := by
    rintro p rest hp hrest path' ⟨rest', rfl⟩ hp'
    rw [hp] at hp'
    simp only [Role.node.injEq, true_and, List.append_assoc, List.append_cancel_left_eq] at hp'
    exact hrest rest' hp'
  have hnOther := hother n [] (by simpa using hn) (by simp)
  have hn1 : own1 n = .node r path := (hfreed1.kept hnOther).trans hn
  have hfreed2 := hfreed1.owned.clearEntry hr hn1 i
  refine ⟨_, ?_, (hfreed1.mono fun path' hpath' => ?_).trans
    (hfreed2.mono fun path' hpath' => ?_), hn1, fun j hj => ⟨?_, fun p rest hp => ?_⟩⟩
  · rw [bind_of_ok hrun1]
    rfl
  · exact (List.prefix_append path _).trans hpath'
  · exact hpath' ▸ List.prefix_rfl
  · have hpage := h.page n (by simp [hn])
    rw [entryAt_store hpage.aligned hpage.aligned (by decide), if_neg fun heq => hj heq.2,
      (hfreed1.agree n (by simp [hn]) hnOther).entryAt_eq]
  · rw [List.append_assoc] at hp
    have hpOther := hother p ([j] ++ rest) hp fun rest' heq => hj (List.cons.inj heq).1
    have hp1 := hfreed1.kept hpOther
    refine ⟨hp1, fun x hlo hhi => ?_⟩
    rw [hfreed2.agree p (by simp [hp1, hp]) (fun path' hpath' => by simp [hp1, hp, hpath']) x hlo
      hhi, hfreed1.agree p (by simp [hp]) hpOther x hlo hhi]

/-- An entry of an inner page is empty or points to a tree whose last entries satisfy
`good`. -/
def Below (im : Image) (own : Nat → Role) (m : Memory) (r : Nat) (good : Nat → Prop) (height n : Nat)
    (path : List (Fin 512)) (j : Fin 512) : Prop :=
  entryAt m n j = 0 ∨ ∃ c, IsPage im c ∧ entryAt m n j = mkPte c 0 ∧
    Tree im own m r good height c (path ++ [j])

variable {height : Nat}

/-- The loop of `freewalk` over an inner page: it frees the trees below or meets a leaf. -/
theorem freewalkEntries {child : Nat → RamM Unit} (hr : ¬roots r)
    (hchild : ∀ {own s c path}, Owned im own roots s → Leafy im own s.mem r height c path →
      (∃ t own', child c s = .ok ((), t) ∧ Freed im roots r (path <+: ·) own own' s t ∧
        Bare im own s.mem r height c path ∧ ∀ rest p, rest.length ≤ height →
          descend childOf (entryAt s.mem) c rest = some p → own' p = .free) ∨
      (child c s = .error leafLeft ∧ ¬Bare im own s.mem r height c path))
    (count i : Nat) (hi : i + count = 512) (h : Owned im own roots s) (hn : own n = .node r path)
    (hentries : ∀ j : Fin 512, i ≤ j.val →
      Below im own s.mem r (fun entry => entry = 0 ∨ IsLeafEntry entry) height n path j) :
    (∃ t own', Kernel.freewalkEntries child n count i s = .ok ((), t) ∧
      Freed im roots r (path <+: ·) own own' s t ∧ own' n = .node r path ∧
      (∀ j : Fin 512, i ≤ j.val → Below im own s.mem r (· = 0) height n path j) ∧
      ∀ (j : Fin 512) rest p, i ≤ j.val → rest.length ≤ height →
        descend childOf (entryAt s.mem) n (j :: rest) = some p → own' p = .free) ∨
    (Kernel.freewalkEntries child n count i s = .error leafLeft ∧
      ¬∀ j : Fin 512, i ≤ j.val → Below im own s.mem r (· = 0) height n path j) := by
  induction count generalizing i own s with
  | zero =>
    exact .inl ⟨s, own, rfl, .refl h, hn, fun j hj => absurd j.isLt (by omega),
      fun j _ _ hj => absurd j.isLt (by omega)⟩
  | succ count ih =>
    have hlt : i < 512 := by omega
    have hload : loadWord (n + 8 * i) s = .ok (entryAt s.mem n ⟨i, hlt⟩, s) := rfl
    -- The entries from here on are this one and the rest.
    have hsplit : (∀ j : Fin 512, i ≤ j.val → Below im own s.mem r (· = 0) height n path j) ↔
        Below im own s.mem r (· = 0) height n path ⟨i, hlt⟩ ∧
          ∀ j : Fin 512, i + 1 ≤ j.val → Below im own s.mem r (· = 0) height n path j := by
      refine ⟨fun h => ⟨h _ le_rfl, fun j hj => h j (by omega)⟩, fun h j hj => ?_⟩
      by_cases hji : j.val = i
      · rw [show j = ⟨i, hlt⟩ from Fin.ext hji]
        exact h.1
      · exact h.2 j (by omega)
    rw [hsplit]
    rcases hentries ⟨i, hlt⟩ le_rfl with hzero | ⟨c, hc, hentry, hleafy⟩
    · have hhere : Below im own s.mem r (· = 0) height n path ⟨i, hlt⟩ := .inl hzero
      -- Nothing hangs below an empty entry.
      have hgone : ∀ {own' : Nat → Role}, (∀ (j : Fin 512) rest p, i + 1 ≤ j.val →
          rest.length ≤ height → descend childOf (entryAt s.mem) n (j :: rest) = some p →
          own' p = .free) → ∀ (j : Fin 512) rest p, i ≤ j.val → rest.length ≤ height →
          descend childOf (entryAt s.mem) n (j :: rest) = some p → own' p = .free := by
        intro own' hgone j rest p hj hlen hp
        by_cases hji : j.val = i
        · rw [descend_cons, show j = ⟨i, hlt⟩ from Fin.ext hji, hzero, childOf_zero] at hp
          cases hp
        · exact hgone j rest p (by omega) hlen hp
      have hnext : Kernel.freewalkEntries child n (count + 1) i s =
          Kernel.freewalkEntries child n count (i + 1) s := by
        rw [Kernel.freewalkEntries, bind_of_ok hload, hzero]
        simp
      rcases ih (i + 1) (by omega) h hn fun j hj => hentries j (by omega) with
        ⟨t, own', hrun, hfreed, hown, hall, hfree⟩ | ⟨hfault, hnot⟩
      · exact .inl ⟨t, own', hnext.trans hrun, hfreed, hown, ⟨hhere, hall⟩, hgone hfree⟩
      · exact .inr ⟨hnext.trans hfault, fun hall => hnot hall.2⟩
    · have hcond : mkPte c 0 &&& pteV ≠ 0 ∧ mkPte c 0 &&& (pteR ||| pteW ||| pteX) = 0 :=
        ⟨mkPte_valid (by decide), by rw [mkPte_and (by decide) (by decide)]; rfl⟩
      have haddr : pte2pa (mkPte c 0) = c := pte2pa_mkPte (by decide) hc.aligned hc.lt_pow
      have hhere : Below im own s.mem r (· = 0) height n path ⟨i, hlt⟩ ↔
          Bare im own s.mem r height c (path ++ [⟨i, hlt⟩]) := by
        refine ⟨fun hbelow => ?_, fun hbare => .inr ⟨c, hc, hentry, hbare⟩⟩
        rcases hbelow with hzero | ⟨c', hc', hentry', hbare⟩
        · rw [hentry] at hzero
          exact absurd (hzero ▸ hcond.1) (by decide)
        · rw [hentry] at hentry'
          have heq : pte2pa (mkPte c' 0) = c' := pte2pa_mkPte (by decide) hc'.aligned hc'.lt_pow
          rw [← hentry', haddr] at heq
          exact heq ▸ hbare
      rw [Kernel.freewalkEntries, bind_of_ok hload, hentry, if_pos hcond, haddr, hhere]
      rcases hchild h hleafy with ⟨s1, own1, hrun1, hfreed1, hbare, hgone1⟩ | ⟨hfault, hnot⟩
      · obtain ⟨s2, hrun2, hfreed2, hn2, hrest⟩ := freeChild hr h hn hrun1 hfreed1
        have hto : ∀ {good} (j : Fin 512), i + 1 ≤ j.val →
            Below im own s.mem r good height n path j →
            Below im own1 s2.mem r good height n path j := by
          intro good j hj
          obtain ⟨hsame, hbelow⟩ := hrest j fun heq => by simp [heq] at hj
          unfold Below
          rw [hsame]
          exact Or.imp_right fun ⟨c', hc', hentry', htree⟩ =>
            ⟨c', hc', hentry', htree.congr hbelow⟩
        have hfrom : ∀ {good} (j : Fin 512), i + 1 ≤ j.val →
            Below im own1 s2.mem r good height n path j →
            Below im own s.mem r good height n path j := by
          intro good j hj
          obtain ⟨hsame, hbelow⟩ := hrest j fun heq => by simp [heq] at hj
          unfold Below
          rw [hsame]
          refine Or.imp_right fun ⟨c', hc', hentry', htree⟩ =>
            ⟨c', hc', hentry', htree.congr fun p rest hp => ?_⟩
          have hkept : own p = own1 p := by
            rcases hfreed2.own_eq p with heq | ⟨hfree, -⟩
            · exact heq.symm
            · rw [hfree] at hp
              cases hp
          exact ⟨hkept, fun x hlo hhi => ((hbelow p rest (hkept.trans hp)).2 x hlo hhi).symm⟩
        rw [← bind_assoc, bind_of_ok hrun2]
        rcases ih (i + 1) (by omega) hfreed2.owned hn2
            fun j hj => hto j hj (hentries j (by omega)) with
          ⟨t, own', hrun, hfreed, hown, hall, hgone⟩ | ⟨hfault, hnot⟩
        · refine .inl ⟨t, own', hrun, hfreed2.trans hfreed, hown, ⟨hbare,
            fun j hj => hfrom j hj (hall j hj)⟩, fun j rest p hj hlen hp => ?_⟩
          by_cases hji : j.val = i
          · -- The page was freed with the tree below this entry.
            rw [descend_cons, show j = ⟨i, hlt⟩ from Fin.ext hji, hentry,
              childOf_mkPte hc.aligned hc.lt_pow] at hp
            have hfree := hgone1 rest p hlen hp
            rw [hfreed.kept fun path' _ => by simp [hfree], hfree]
          · refine hgone j rest p (by omega) hlen ?_
            obtain ⟨hsame, hbelow⟩ := hrest j fun heq => hji (by simp [heq])
            rw [descend_cons] at hp ⊢
            rw [hsame]
            rcases hentries j hj with hzero | ⟨c', hc', hentry', htree⟩
            · rw [hzero, childOf_zero] at hp
              cases hp
            · rw [hentry', childOf_mkPte hc'.aligned hc'.lt_pow] at hp ⊢
              exact (htree.descend_congr (fun p' rest' hp' => (hbelow p' rest' hp').2)
                hlen).trans hp
        · exact .inr ⟨hfault, fun hall => hnot fun j hj => hto j hj (hall.2 j hj)⟩
      · exact .inr ⟨bind_of_error hfault, fun hall => hnot hall.1⟩

/-- A tree is freed, or `freewalk` meets a leaf. -/
theorem freewalk (hr : ¬roots r) (depth : Nat) (hdepth : height < depth) (h : Owned im own roots s)
    (hleafy : Leafy im own s.mem r height n path) :
    (∃ t own', Kernel.freewalk im depth n s = .ok ((), t) ∧
      Freed im roots r (path <+: ·) own own' s t ∧ Bare im own s.mem r height n path ∧
      ∀ rest p, rest.length ≤ height → descend childOf (entryAt s.mem) n rest = some p →
        own' p = .free) ∨
    (Kernel.freewalk im depth n s = .error leafLeft ∧ ¬Bare im own s.mem r height n path) := by
  induction height generalizing depth own s n path with
  | zero =>
    cases depth with
    | zero => omega
    | succ depth =>
      rw [Kernel.freewalk]
      rcases freewalkEntries_last (Kernel.freewalk im depth) hleafy.2 512 0 rfl with
        ⟨hrun1, hzero⟩ | ⟨hfault, hnot⟩
      · obtain ⟨t, hrun, hfreed⟩ := h.freeNode hr hleafy.1
        refine .inl ⟨t, _, ?_, hfreed.mono fun path' hpath' => hpath' ▸ List.prefix_rfl,
          ⟨hleafy.1, fun j => hzero j (Nat.zero_le _)⟩, fun rest p hlen hp => ?_⟩
        · rw [bind_of_ok hrun1, hrun]
        · obtain rfl := List.length_eq_zero_iff.mp (Nat.le_zero.mp hlen)
          obtain rfl : n = p := by simpa using hp
          exact update_self ..
      · exact .inr ⟨bind_of_error hfault, fun hbare => hnot fun j _ => hbare.2 j⟩
  | succ height ih =>
    cases depth with
    | zero => omega
    | succ depth =>
      rw [Kernel.freewalk]
      rcases freewalkEntries hr (fun hs hb => ih depth (by omega) hs hb) 512 0 rfl h hleafy.1
          fun j _ => hleafy.2 j with
        ⟨s1, own1, hrun1, hfreed1, hn1, hbare, hgone⟩ | ⟨hfault, hnot⟩
      · obtain ⟨t, hrun, hfreed⟩ := hfreed1.owned.freeNode hr hn1
        refine .inl ⟨t, _, ?_, hfreed1.trans (hfreed.mono fun path' hpath' =>
          hpath' ▸ List.prefix_rfl), ⟨hleafy.1, fun j => hbare j (Nat.zero_le _)⟩,
          fun rest p hlen hp => ?_⟩
        · rw [bind_of_ok hrun1, hrun]
        · cases rest with
          | nil =>
            obtain rfl : n = p := by simpa using hp
            exact update_self ..
          | cons j rest =>
            have hfree := hgone j rest p (Nat.zero_le _) (by simpa using hlen) hp
            by_cases hpn : p = n
            · rw [hpn, update_self]
            · rw [update_of_ne hpn, hfree]
      · exact .inr ⟨bind_of_error hfault, fun hbare => hnot fun j _ => hbare.2 j⟩

/-- The entries of the last level of a tree are the entries of the addresses. -/
theorem tree (h : Owned im own roots s) (hr : roots r) {good : Nat → Prop}
    (hleaf : ∀ va < treeVA, good (leaf s.mem r va)) (hlen : path.length + height = 2)
    (hn : table s.mem r path = some n) : Tree im own s.mem r good height n path := by
  induction height generalizing n path with
  | zero =>
    refine ⟨h.own_table hr (by omega) hn, fun k => ?_⟩
    obtain ⟨a, b, rfl⟩ := List.length_eq_two.mp hlen
    -- The address that this entry is for.
    have ha := a.isLt
    have hb := b.isLt
    have hk := k.isLt
    have hpx : px 2 (a * 2 ^ 30 + b * 2 ^ 21 + k * 2 ^ 12) = a ∧
        px 1 (a * 2 ^ 30 + b * 2 ^ 21 + k * 2 ^ 12) = b ∧
        px 0 (a * 2 ^ 30 + b * 2 ^ 21 + k * 2 ^ 12) = k := by
      refine ⟨Fin.ext ?_, Fin.ext ?_, Fin.ext ?_⟩ <;> rw [px_val] <;> omega
    have hgood := hleaf (a * 2 ^ 30 + b * 2 ^ 21 + k * 2 ^ 12) (by
      rw [show treeVA = 2 ^ 39 from rfl]
      omega)
    rwa [leaf, hpx.1, hpx.2.1, hpx.2.2, hn] at hgood
  | succ height ih =>
    refine ⟨h.own_table hr (by omega) hn, fun i => ?_⟩
    refine (h.inner r hr path n (by omega) hn i).imp_right ?_
    rintro ⟨c, hc, hentry⟩
    refine ⟨c, hc, hentry, ih (by simp; omega) ?_⟩
    refine descend_snoc_eq_some.mpr ⟨n, hn, ?_⟩
    rw [hentry, childOf_mkPte hc.aligned hc.lt_pow]

end Owned

/-! ## Changes outside some address spaces -/

/-- A change that the given page tables do not notice. -/
structure Framed (im : Image) (roots : Nat → Prop) (own own' : Nat → Role) (s t : Ram) :
    Prop where
  owned : Owned im own' roots t
  kept : ∀ p, (own p).Lives roots → own' p = own p
  fresh : ∀ p, own' p = own p ∨ ¬(own' p).Lives roots
  leaf_eq : ∀ r va, roots r → va < treeVA → leaf t.mem r va = leaf s.mem r va

namespace Framed

variable {im : Image} {roots : Nat → Prop} {own own1 own2 : Nat → Role} {s t u : Ram} {r : Nat}

theorem of_stored (h : Stored im own roots s t) : Framed im roots own own s t where
  owned := h.owned
  kept _ _ := rfl
  fresh _ := .inl rfl
  leaf_eq r va hr _ := h.leaf_eq r va hr

theorem trans (h : Framed im roots own own1 s t) (h' : Framed im roots own1 own2 t u) :
    Framed im roots own own2 s u where
  owned := h'.owned
  kept p hp := by
    have hsame := h.kept p hp
    rw [h'.kept p (by rwa [hsame]), hsame]
  fresh p := by
    rcases h'.fresh p with hsame | hgone
    · rw [hsame]
      exact h.fresh p
    · exact .inr hgone
  leaf_eq r va hr hva := (h'.leaf_eq r va hr hva).trans (h.leaf_eq r va hr hva)

theorem eq_of_lives (h : Framed im roots own own1 s t) {p : Nat} (hp : (own1 p).Lives roots) :
    own1 p = own p :=
  (h.fresh p).resolve_right (not_not.mpr hp)

theorem mono {roots' : Nat → Prop} (h : Framed im roots own own1 s t)
    (hsub : ∀ r, roots' r → roots r) : Framed im roots' own own1 s t where
  owned := h.owned.mono hsub
  kept p hp := h.kept p (hp.mono hsub)
  fresh p := (h.fresh p).imp_right fun hgone hlives => hgone (hlives.mono hsub)
  leaf_eq r va hr := h.leaf_eq r va (hsub r hr)

/-- A change of the user memory of another page table. -/
theorem of_within (h : Within im (withRoot roots r) r own own1 s t) (hr : ¬roots r) :
    Framed im roots own own1 s t where
  owned := h.owned.mono fun _ => .inl
  kept p hp := by
    refine h.kept p (fun hfree => ?_) fun i huser => ?_
    · rw [hfree] at hp
      exact hp
    · rw [huser] at hp
      exact hr hp
  fresh p := (h.fresh p).imp_right fun hat => hat.not_lives hr
  leaf_eq r' va hr' hva := h.other r' va (.inl hr') (fun heq => hr (heq ▸ hr')) hva

end Framed

/-- A change elsewhere leaves an address space alone. -/
theorem Space.framed {roots : Nat → Prop} {own' : Nat → Role} {s t : Ram} {trapframe : Nat}
    {shown : Fin 10 → Nat → Nat} (h : Space im own s.mem r n trapframe shown) (hr : roots r)
    (hframed : Framed im roots own own' s t) : Space im own' t.mem r n trapframe shown := by
  refine h.congr (fun va hva => hframed.leaf_eq r va hr hva) (fun pa va => ⟨fun hrole => ?_,
    fun hrole => ?_⟩) fun _ _ _ => rfl
  · rw [hframed.kept pa (by rw [hrole]; exact hr), hrole]
  · rw [← hframed.eq_of_lives (by rw [hrole]; exact hr), hrole]

namespace Rooted

variable {im : Image} {roots : Nat → Prop} {own own' : Nat → Role} {s t : Ram} {r : Nat}

theorem within {roots' : Nat → Prop} (h : Rooted own roots) (hr : roots r)
    (hwithin : Within im roots' r own own' s t) : Rooted own' roots := by
  intro p hp
  rcases hwithin.fresh p with hsame | hat
  · rw [hsame] at hp ⊢
    exact h p hp
  · cases hrole : own' p with
    | free => exact (hp hrole).elim
    | node r' path =>
      rw [hrole] at hat
      obtain rfl : r' = r := hat
      exact hr
    | user r' i =>
      rw [hrole] at hat
      obtain rfl : r' = r := hat
      exact hr
    | _ => trivial

/-- Without pages of other trees on either side, a change that the trees do not notice leaves all
roles. -/
theorem own_eq (h : Rooted own roots) (h' : Rooted own' roots)
    (hframed : Framed im roots own own' s t) : own' = own := by
  funext p
  by_cases hp : own p = .free
  · by_contra hne
    exact (hframed.fresh p).resolve_left hne (h' p fun hfree => hne (hfree.trans hp.symm))
  · exact hframed.kept p (h p hp)

theorem setTrapframe (h : Rooted own roots) (trapframe p : Nat) :
    Rooted (update own trapframe (.trapframe p)) roots := by
  intro q hq
  by_cases hqt : q = trapframe
  · rw [hqt, update_self]
    trivial
  · rw [update_of_ne hqt] at hq ⊢
    exact h q hq

/-- The pages of a tree that is no more have been freed. -/
theorem freed (h : Rooted own (withRoot roots r))
    (hown : ∀ p, own' p = .free ∨ own' p = own p ∧ ¬(own p).At r) : Rooted own' roots := by
  intro p hp
  obtain ⟨hsame, hat⟩ := (hown p).resolve_left hp
  rw [hsame] at hp ⊢
  have hlives := h p hp
  cases hrole : own p with
  | free => exact (hp hrole).elim
  | node r' path =>
    rw [hrole] at hat hlives
    exact hlives.resolve_right hat
  | user r' i =>
    rw [hrole] at hat hlives
    exact hlives.resolve_right hat
  | _ => trivial

end Rooted

/-! ## Freeing an address space -/

/-- `uvmfree` unmaps the user memory, if there is any, and frees the table. -/
theorem uvmfree_eq (im : Image) (r sz : Nat) :
    uvmfree im r sz = (do
      (if 0 < sz then uvmunmap im r 0 (pgRoundUp sz / pgSize) true else pure ())
      freewalk im kernelStackDepth r) := by
  rw [uvmfree]
  split <;> rfl

namespace Owned

variable {im : Image} {roots : Nat → Prop} {own : Nat → Role} {s t : Ram} {r sz trapframe : Nat}

/-- A page table is freed if nothing is mapped any more, and otherwise `freewalk` panics. -/
theorem freeTree (h : Owned im own (withRoot roots r) s) (hr : ¬roots r)
    (hleaf : ∀ va < treeVA, leaf s.mem r va = 0 ∨ IsLeafEntry (leaf s.mem r va)) :
    (∃ t own', Kernel.freewalk im kernelStackDepth r s = .ok ((), t) ∧
      Framed im roots own own' s t ∧
      (∀ p, own' p = .free ∨ own' p = own p ∧ ∀ path, own p ≠ .node r path) ∧
      Spared own r s t ∧ ∀ va < treeVA, leaf s.mem r va = 0) ∨
    (Kernel.freewalk im kernelStackDepth r s = .error leafLeft ∧
      ¬∀ va < treeVA, leaf s.mem r va = 0) := by
  have hroots : Owned im own roots s := h.mono fun r' hr' => .inl hr'
  have hleafy : Leafy im own s.mem r 2 r [] := h.tree (.inr rfl) hleaf rfl rfl
  rcases hroots.freewalk hr kernelStackDepth (by decide) hleafy with
    ⟨t, own', hrun, hfreed, hbare, hgone⟩ | ⟨hfault, hnot⟩
  · have hown : ∀ p, own' p = .free ∨ own' p = own p ∧ ∀ path, own p ≠ .node r path := by
      intro p
      rcases hfreed.own_eq p with hsame | ⟨hfree, -⟩
      · by_cases hnode : ∃ path, own p = .node r path
        · obtain ⟨path, hnode⟩ := hnode
          obtain ⟨hlen, htable⟩ := h.reached r (.inr rfl) path p hnode
          exact .inl (hgone path p hlen htable)
        · exact .inr ⟨hsame, fun path hpath => hnode ⟨path, hpath⟩⟩
      · exact .inl hfree
    refine .inl ⟨t, own', hrun, ⟨hfreed.owned, fun p hp => hfreed.kept fun path _ hnode => ?_,
      fun p => ?_, fun r' va hr' _ => ?_⟩, hown, fun p hat hkernel =>
        hfreed.agree p hkernel fun path _ => (Role.ne_of_not_at hat).2.2 path,
      fun va _ => hbare.leaf_eq_zero va⟩
    · rw [hnode] at hp
      exact hr hp
    · rcases hown p with hfree | ⟨hsame, -⟩
      · exact .inr (by rw [hfree]; exact id)
      · exact .inl hsame
    · refine hroots.leaf_congr hr' fun n path hn => hfreed.agree n (by simp [hn]) fun path' _ => ?_
      rw [hn]
      intro heq
      cases heq
      exact hr hr'
  · exact .inr ⟨hfault, fun hzero => hnot (h.tree (.inr rfl) hzero rfl rfl)⟩

/-- A page table is freed with its user memory if nothing else is mapped, and otherwise
`freewalk` panics. -/
theorem uvmfree (h : Owned im own (withRoot roots r) s) (hr : ¬roots r)
    (hfit : userPages sz * pgSize ≤ mapStart)
    (huser : ∀ va < userPages sz * pgSize, ∃ pa perm, IsLeafPerm perm ∧
      leaf s.mem r va = mkPte pa perm ∧ own pa = .user r (va / pgSize))
    (hbound : ∀ pa i, own pa = .user r i → i < userPages sz)
    (hunique : ∀ pa pa' i, own pa = .user r i → own pa' = .user r i → pa = pa')
    (hrest : ∀ va < treeVA, userPages sz * pgSize ≤ va →
      leaf s.mem r va = 0 ∨ IsLeafEntry (leaf s.mem r va)) :
    (∃ t own', Kernel.uvmfree im r sz s = .ok ((), t) ∧ Framed im roots own own' s t ∧
      (∀ p, own' p = .free ∨ own' p = own p ∧ ¬(own p).At r) ∧ Spared own r s t ∧
      ∀ va < treeVA, userPages sz * pgSize ≤ va → leaf s.mem r va = 0) ∨
    (Kernel.uvmfree im r sz s = .error leafLeft ∧
      ¬∀ va < treeVA, userPages sz * pgSize ≤ va → leaf s.mem r va = 0) := by
  have hunmap : ∃ s1 own1, (if 0 < sz then uvmunmap im r 0 (pgRoundUp sz / pgSize) true
      else pure ()) s = .ok ((), s1) ∧ Within im (withRoot roots r) r own own1 s s1 ∧
      (∀ va < treeVA, leaf s1.mem r va =
        if va < userPages sz * pgSize then 0 else leaf s.mem r va) ∧
      ∀ p, own1 p = .free ∨ own1 p = own p ∧ ∀ i, own p ≠ .user r i := by
    by_cases hsz : 0 < sz
    · obtain ⟨s1, own1, hrun, hwithin, hleaf, hown⟩ :=
        h.unmapUser (.inr rfl) 0 (userPages sz)
          (by rw [Nat.zero_add]; exact le_trans hfit (by decide))
          (fun i hi => by
            obtain ⟨pa, perm, hperm, hpa, hrole⟩ := huser (i * pgSize)
              (Nat.mul_lt_mul_of_pos_right hi (by decide))
            rw [Nat.mul_div_cancel _ (by decide)] at hrole
            exact ⟨pa, perm, hperm, by rwa [Nat.zero_add], by rwa [Nat.zero_add]⟩) hunique
      refine ⟨s1, own1, ?_, hwithin, fun va hva => ?_, fun p => (hown p).imp And.left
        fun ⟨hsame, hkept⟩ => ⟨hsame, fun i hi => hkept i (hbound p i hi) (by rwa [Nat.zero_add])⟩⟩
      · rw [if_pos hsz, uvmunmap, if_neg (by simp)]
        rwa [Nat.zero_mul] at hrun
      · rw [hleaf va hva, Nat.zero_mul, Nat.zero_add]
        simp
    · obtain rfl : sz = 0 := by omega
      refine ⟨s, own, rfl, .refl h, fun va _ => ?_, fun p => .inr ⟨rfl, ?_⟩⟩
      · rw [if_neg (by simp [userPages, pgRoundUp, pgSize])]
      · intro i hi
        simpa [userPages, pgRoundUp, pgSize] using hbound p i hi
  obtain ⟨s1, own1, hrun1, hwithin, hleaf1, hown1⟩ := hunmap
  have hzero : (∀ va < treeVA, leaf s1.mem r va = 0) ↔
      ∀ va < treeVA, userPages sz * pgSize ≤ va → leaf s.mem r va = 0 := by
    refine forall₂_congr fun va hva => ?_
    rw [hleaf1 va hva]
    split
    next hlt => exact ⟨fun _ hle => absurd hle (by omega), fun _ => rfl⟩
    next hge => exact ⟨fun h _ => h, fun h => h (by omega)⟩
  rw [uvmfree_eq, bind_of_ok hrun1, ← hzero]
  refine (hwithin.owned.freeTree hr fun va hva => ?_).imp_left ?_
  · rw [hleaf1 va hva]
    split
    next => exact .inl rfl
    next hge => exact hrest va hva (by omega)
  · rintro ⟨t, own', hrun, hframed, hown, hspared, hall⟩
    refine ⟨t, own', hrun, (Framed.of_within hwithin hr).trans hframed, fun p => ?_,
      fun p hat hkernel => ?_, hall⟩
    rotate_left
    · obtain ⟨hfree, huser, -⟩ := Role.ne_of_not_at hat
      have hsame := hwithin.kept p hfree huser
      exact (hwithin.data p hat hkernel).trans (hspared p (by rwa [hsame]) (by rwa [hsame]))
    rcases hown p with hfree | ⟨hsame, hnode⟩
    · exact .inl hfree
    rcases hown1 p with hfree | ⟨hsame1, huser⟩
    · exact .inl (hsame.trans hfree)
    rw [hsame, hsame1]
    rw [hsame1] at hnode
    cases hrole : own p with
    | free => exact .inl rfl
    | node r' path =>
      refine .inr ⟨rfl, ?_⟩
      rintro rfl
      exact hnode path hrole
    | user r' i =>
      refine .inr ⟨rfl, ?_⟩
      rintro rfl
      exact huser i hrole
    | _ => exact .inr ⟨rfl, id⟩

end Owned

end Kernel
end FastIpc
