import FastIpc.Foundation.RadixTree
import FastIpc.Kernel.Vm

/-!
# Page tables as maps

The page tables of all processes live in the same physical memory as the pages they
map.  What keeps them apart is stated once: every page has one `Role`, and the
page-table pages reached from a root, the pages on the allocator's list and the pages
handed out all have the roles they should have.  Under this invariant a page table is
the map `leaf` from virtual addresses to entries: filling in an entry changes the
map at one page of one process, and allocating or freeing a page changes no map.

Main results:

- Theorem `Owned.storeLeaf`: storing an entry changes one page of one map.
-/

namespace FastIpc
namespace Kernel

open Foundation Foundation.RadixTree
open Function (update update_of_ne)

/-! ## Entries and indices -/

/-- The entry `mappages` stores for a page. -/
def mkPte (pa perm : Nat) : Nat := pa2pte pa ||| perm ||| pteV

theorem pa2pte_eq (pa : Nat) : pa2pte pa = pa / 4096 * 1024 := by
  simp [pa2pte, Nat.shiftLeft_eq, Nat.shiftRight_eq_div_pow]

theorem pte2pa_eq (pte : Nat) : pte2pa pte = pte / 1024 * 4096 % 2 ^ 64 := by
  simp [pte2pa, Nat.shiftLeft_eq, Nat.shiftRight_eq_div_pow]

theorem pteFlags_eq (pte : Nat) : pteFlags pte = pte % 1024 := Nat.and_two_pow_sub_one_eq_mod pte 10

theorem and_pteV (pte : Nat) : pte &&& pteV = pte % 2 := Nat.and_one_is_mod pte

theorem mkPte_eq {pa perm : Nat} (hperm : perm < 1024) :
    mkPte pa perm = pa / 4096 * 1024 + (perm ||| 1) := by
  have hflags : perm ||| 1 < 2 ^ 10 := Nat.or_lt_two_pow hperm (by decide)
  have hshift := Nat.shiftLeft_add_eq_or_of_lt hflags (pa / 4096)
  rw [Nat.shiftLeft_eq] at hshift
  rw [mkPte, Nat.or_assoc, pa2pte_eq]
  exact hshift.symm

section MkPte

variable {pa perm : Nat}

variable (hperm : perm < 1024)
include hperm

theorem mkPte_valid : mkPte pa perm &&& pteV ≠ 0 := by
  have hlow : (perm ||| 1) % 2 = 1 := by
    rw [← Nat.and_one_is_mod, Nat.and_or_distrib_right]
    have hbit : perm &&& 1 = 0 ∨ perm &&& 1 = 1 := by
      rw [Nat.and_one_is_mod]
      omega
    rcases hbit with h | h <;> simp [h]
  rw [and_pteV, mkPte_eq hperm]
  omega

theorem mkPte_flags : pteFlags (mkPte pa perm) = perm ||| 1 := by
  have hflags : perm ||| 1 < 2 ^ 10 := Nat.or_lt_two_pow hperm (by decide)
  rw [pteFlags_eq, mkPte_eq hperm]
  omega

theorem mkPte_and {mask : Nat} (hmask : 0x3FF &&& mask = mask) :
    mkPte pa perm &&& mask = (perm ||| 1) &&& mask := by
  rw [← mkPte_flags hperm, pteFlags, Nat.and_assoc, hmask]

theorem pte2pa_mkPte_eq (hpa : pa < 2 ^ 64) : pte2pa (mkPte pa perm) = pgRoundDown pa := by
  have hflags : perm ||| 1 < 2 ^ 10 := Nat.or_lt_two_pow hperm (by decide)
  rw [pte2pa_eq, mkPte_eq hperm]
  unfold pgRoundDown pgSize
  omega

theorem pte2pa_mkPte (haligned : pa % pgSize = 0) (hpa : pa < 2 ^ 56) :
    pte2pa (mkPte pa perm) = pa := by
  rw [pte2pa_mkPte_eq hperm (by omega)]
  unfold pgRoundDown
  unfold pgSize at haligned ⊢
  omega

theorem mkPte_lt_word (hpa : pa < 2 ^ 64) : mkPte pa perm < 256 ^ 8 := by
  have hflags : perm ||| 1 < 2 ^ 10 := Nat.or_lt_two_pow hperm (by decide)
  rw [mkPte_eq hperm]
  omega

theorem mkPte_lt (hpa : pa < 2 ^ 56) : mkPte pa perm < 256 ^ 8 :=
  mkPte_lt_word hperm (by omega)

end MkPte

theorem px_val (level va : Nat) : (px level va).val = va / 2 ^ (12 + 9 * level) % 512 := by
  simp [px, Nat.shiftRight_eq_div_pow]

/-- The addresses that a tree has entries for, twice those that may be used. -/
def treeVA : Nat := 2 * maxVA

variable {r va : Nat} {roots : Nat → Prop} {own : Nat → Role} {role : Role}

theorem lt_treeVA (h : va < maxVA) : va < treeVA := by
  unfold treeVA
  omega

/-- The three indices of an address determine its page. -/
theorem page_eq_of_px {va' : Nat} (hva : va < treeVA) (hva' : va' < treeVA)
    (h2 : px 2 va = px 2 va') (h1 : px 1 va = px 1 va') (h0 : px 0 va = px 0 va') :
    va / pgSize = va' / pgSize := by
  have h2' := congrArg Fin.val h2
  have h1' := congrArg Fin.val h1
  have h0' := congrArg Fin.val h0
  simp only [px_val] at h2' h1' h0'
  have hmax : treeVA = 2 ^ 39 := rfl
  rw [hmax] at hva hva'
  unfold pgSize
  omega

/-- The indices depend on the page of an address only. -/
theorem px_congr {level va' : Nat} (h : va / pgSize = va' / pgSize) :
    px level va = px level va' := by
  have hdiv : ∀ a : Nat, a / 2 ^ (12 + 9 * level) = a / pgSize / 2 ^ (9 * level) := by
    intro a
    rw [Nat.pow_add, ← Nat.div_div_eq_div_mul]
    rfl
  apply Fin.ext
  rw [px_val, px_val, hdiv, hdiv, h]

/-! ## Page tables in memory -/

/-- The page-table page an entry points to. -/
def childOf (entry : Nat) : Option Nat := if entry &&& pteV ≠ 0 then some (pte2pa entry) else none

/-- An entry of a page-table page. -/
def entryAt (m : Memory) (n : Nat) (i : Fin 512) : Nat := m.readLE (n + 8 * i) 8

/-- The page-table page at a path below a root. -/
def table (m : Memory) (r : Nat) (path : List (Fin 512)) : Option Nat :=
  descend childOf (entryAt m) r path

/-- The entry for a virtual address; `0` if its page-table page is missing. -/
def leaf (m : Memory) (r va : Nat) : Nat :=
  match table m r [px 2 va, px 1 va] with
  | some n => entryAt m n (px 0 va)
  | none => 0

@[simp]
theorem childOf_zero : childOf 0 = none := rfl

theorem childOf_mkPte {c : Nat} (haligned : c % pgSize = 0) (hc : c < 2 ^ 56) :
    childOf (mkPte c 0) = some c := by
  rw [childOf, if_pos (mkPte_valid (by decide)), pte2pa_mkPte (by decide) haligned hc]

/-- Two memories agree on a page. -/
def AgreeOn (m m' : Memory) (p : Nat) : Prop := ∀ x, p ≤ x → x < p + pgSize → m' x = m x

theorem AgreeOn.refl (m : Memory) (p : Nat) : AgreeOn m m p := fun _ _ _ => rfl

theorem AgreeOn.trans {m m' m'' : Memory} {p : Nat} (h : AgreeOn m m' p) (h' : AgreeOn m' m'' p) :
    AgreeOn m m'' p := fun x hlo hhi => (h' x hlo hhi).trans (h x hlo hhi)

theorem AgreeOn.entryAt_eq {m m' : Memory} {n : Nat} (h : AgreeOn m m' n) (i : Fin 512) :
    entryAt m' n i = entryAt m n i := by
  have hi := i.isLt
  refine Memory.readLE_congr fun x hlo hhi => h x (by omega) ?_
  unfold pgSize
  omega

/-! ## Roles -/

/-- What a physical page is used for. -/
inductive Role where
  /-- Not handed out by the allocator: the kernel's own text and data. -/
  | kernel
  | free
  /-- The page-table page at a path of the tree with a given root. -/
  | node (root : Nat) (path : List (Fin 512))
  /-- User memory of the page table with a given root. -/
  | user (root va : Nat)
  | trapframe (p : Nat)
  | ringData (slot i : Nat)
  | ringBook (slot : Nat)
  | pipe
  /-- Allocated by a call that has not put it to use yet. -/
  | held
  deriving DecidableEq

/-- A role that nothing but the page tables of `roots` and their users can take away. -/
def Role.Lives (roots : Nat → Prop) : Role → Prop
  | .free => False
  | .node r _ => roots r
  | .user r _ => roots r
  | _ => True

theorem Role.Lives.mono {roots' : Nat → Prop} (h : role.Lives roots')
    (hsub : ∀ r, roots' r → roots r) : role.Lives roots := by
  cases role with
  | free => exact h
  | node r path => exact hsub r h
  | user r va => exact hsub r h
  | _ => trivial

/-- A role that working on the page table at `r` can give to a page. -/
def Role.At (r : Nat) : Role → Prop
  | .free => True
  | .node r' _ => r' = r
  | .user r' _ => r' = r
  | _ => False

/-- The pages that belong neither to the page table at `r` nor to the allocator keep their
contents. -/
def Spared (own : Nat → Role) (r : Nat) (s t : Ram) : Prop :=
  ∀ p, ¬(own p).At r → own p ≠ .kernel → AgreeOn s.mem t.mem p

theorem Role.At.not_lives (h : role.At r) (hr : ¬roots r) : ¬role.Lives roots := by
  intro hlives
  cases role with
  | free => exact hlives
  | node r' path => exact hr (h ▸ hlives)
  | user r' va => exact hr (h ▸ hlives)
  | _ => exact h

theorem Role.ne_of_not_at (h : ¬role.At r) :
    role ≠ .free ∧ (∀ i, role ≠ .user r i) ∧ ∀ path, role ≠ .node r path := by
  refine ⟨?_, fun i => ?_, fun path => ?_⟩
  · rintro rfl
    exact h trivial
  · rintro rfl
    exact h rfl
  · rintro rfl
    exact h rfl

/-- A role that has nothing to do with processes. -/
def Role.Global : Role → Prop
  | .free => False
  | .node _ _ => False
  | .user _ _ => False
  | .trapframe _ => False
  | _ => True

theorem Role.Global.lives (h : role.Global) (roots : Nat → Prop) : role.Lives roots := by
  cases role with
  | free => exact h
  | node r path => exact h.elim
  | user r va => exact h.elim
  | _ => trivial

theorem Role.Global.not_at (h : role.Global) : ¬role.At r := by
  cases role with
  | free => exact h.elim
  | node r' path => exact h.elim
  | user r' va => exact h.elim
  | _ => exact id

/-- The pages that have nothing to do with processes are the same. -/
def SameGlobal (own own' : Nat → Role) : Prop :=
  ∀ p, (own p).Global ∨ (own' p).Global → own' p = own p

theorem SameGlobal.refl (own : Nat → Role) : SameGlobal own own := fun _ _ => rfl

theorem SameGlobal.trans {own1 own2 : Nat → Role} (h : SameGlobal own own1)
    (h' : SameGlobal own1 own2) : SameGlobal own own2 := by
  intro p hp
  rcases hp with hp | hp
  · have hsame := h p (.inl hp)
    rw [h' p (.inl (by rwa [hsame])), hsame]
  · have hsame := h' p (.inr hp)
    rw [hsame, h p (.inr (by rwa [← hsame]))]

theorem SameGlobal.eq_iff {own' : Nat → Role} (h : SameGlobal own own') (hrole : role.Global)
    (p : Nat) : own' p = role ↔ own p = role := by
  constructor
  · intro hp
    rw [← h p (.inr (by rwa [hp])), hp]
  · intro hp
    rw [h p (.inl (by rwa [hp])), hp]

/-- Every page-table page and every page of user memory belongs to one of the page tables. -/
def Rooted (own : Nat → Role) (roots : Nat → Prop) : Prop :=
  ∀ p, own p ≠ .free → (own p).Lives roots

theorem Rooted.mono {roots' : Nat → Prop} (h : Rooted own roots) (hsub : ∀ r, roots r → roots' r) :
    Rooted own roots' := fun p hp =>
  (h p hp).mono hsub

/-- The place of a page-table page in its tree. -/
def placeOf (own : Nat → Role) (n : Nat) : Option (Nat × List (Fin 512)) :=
  match own n with
  | .node r path => some (r, path)
  | _ => none

theorem placeOf_eq_some {n : Nat} {path : List (Fin 512)} :
    placeOf own n = some (r, path) ↔ own n = .node r path := by
  unfold placeOf
  split
  next r' path' h => simp [h]
  next h =>
    constructor
    · intro hnone
      cases hnone
    · intro hnode
      exact (h r path hnode).elim

/-- Every page has the role that memory and the page tables of `roots` give it. -/
structure Owned (im : Image) (own : Nat → Role) (roots : Nat → Prop) (s : Ram) : Prop where
  /-- The free pages are those on the allocator's list, each once. -/
  free : ∃ l, Threaded s.mem s.freelist l ∧ l.Nodup ∧ ∀ p, p ∈ l ↔ own p = .free
  page : ∀ p, own p ≠ .kernel → IsPage im p
  placed : ∀ r, roots r → Placed childOf (entryAt s.mem) (placeOf own) 2 r
  /-- An entry of an inner page-table page is empty or points to a page-table page. -/
  inner : ∀ r, roots r → ∀ path n, path.length < 2 → table s.mem r path = some n →
    ∀ i, entryAt s.mem n i = 0 ∨ ∃ c, IsPage im c ∧ entryAt s.mem n i = mkPte c 0
  /-- Every page with the role of a page-table page is one. -/
  reached : ∀ r, roots r → ∀ path n, own n = .node r path →
    path.length ≤ 2 ∧ table s.mem r path = some n

theorem IsPage.lt_pow {im : Image} {p : Nat} (h : IsPage im p) : p < 2 ^ 56 := by
  have hlt := h.lt_phyStop
  unfold phyStop at hlt
  omega

namespace Owned

variable {im : Image} {own own' : Nat → Role} {roots : Nat → Prop} {s t : Ram}
  {r r' n p va va' : Nat} {m' : Memory}

theorem mono {roots' : Nat → Prop} (h : Owned im own roots s) (hsub : ∀ r, roots' r → roots r) :
    Owned im own roots' s where
  free := h.free
  page := h.page
  placed r hr := h.placed r (hsub r hr)
  inner r hr := h.inner r (hsub r hr)
  reached r hr := h.reached r (hsub r hr)

section

variable (h : Owned im own roots s)
include h

theorem own_table (hr : roots r) {path : List (Fin 512)} (hlen : path.length ≤ 2)
    (hn : table s.mem r path = some n) : own n = .node r path :=
  placeOf_eq_some.mp (h.placed r hr path n hlen hn)

/-- Trees are not affected by what happens outside their page-table pages. -/
theorem table_congr (hr : roots r) (hsame : ∀ n path, own n = .node r path → AgreeOn s.mem m' n)
    {path : List (Fin 512)} (hlen : path.length ≤ 2) : table m' r path = table s.mem r path :=
  (h.placed r hr).descend_congr
    (fun n path i hn _ => (hsame n path (placeOf_eq_some.mp hn)).entryAt_eq i) hlen

/-- Maps are not affected by what happens outside their page-table pages. -/
theorem leaf_congr (hr : roots r) (hsame : ∀ n path, own n = .node r path → AgreeOn s.mem m' n) :
    leaf m' r va = leaf s.mem r va := by
  unfold leaf
  rw [h.table_congr hr hsame (by simp)]
  cases hn : table s.mem r [px 2 va, px 1 va] with
  | none => rfl
  | some n => exact (hsame n _ (h.own_table hr (by simp) hn)).entryAt_eq _

/-- Trees stay as they are when neither their pages nor the roles of these change. -/
theorem trees_congr (hsame : ∀ r, roots r → ∀ n path, own n = .node r path → AgreeOn s.mem m' n)
    (hown : ∀ r, roots r → ∀ n path, own n = .node r path ↔ own' n = .node r path) :
    (∀ r, roots r → Placed childOf (entryAt m') (placeOf own') 2 r) ∧
      (∀ r, roots r → ∀ path n, path.length < 2 → table m' r path = some n →
        ∀ i, entryAt m' n i = 0 ∨ ∃ c, IsPage im c ∧ entryAt m' n i = mkPte c 0) ∧
      ∀ r, roots r → ∀ path n, own' n = .node r path →
        path.length ≤ 2 ∧ table m' r path = some n := by
  refine ⟨?_, ?_, ?_⟩
  · intro r hr
    refine (h.placed r hr).congr ?_ ?_
    · intro n path i hn _
      exact (hsame r hr n path (placeOf_eq_some.mp hn)).entryAt_eq i
    · intro n path hn
      exact placeOf_eq_some.mpr ((hown r hr n path).mp (placeOf_eq_some.mp hn))
  · intro r hr path n hlen hn i
    rw [h.table_congr hr (hsame r hr) hlen.le] at hn
    rw [(hsame r hr n path (h.own_table hr hlen.le hn)).entryAt_eq i]
    exact h.inner r hr path n hlen hn i
  · intro r hr path n hn
    obtain ⟨hlen, htable⟩ := h.reached r hr path n ((hown r hr n path).mpr hn)
    exact ⟨hlen, by rw [h.table_congr hr (hsame r hr) hlen, htable]⟩

/-- Writes to pages that are neither free nor page-table pages keep the invariant. -/
theorem of_agree (hfree : ∀ p, own p = .free → AgreeOn s.mem t.mem p)
    (hsame : ∀ r, roots r → ∀ n path, own n = .node r path → AgreeOn s.mem t.mem n)
    (hlist : t.freelist = s.freelist) : Owned im own roots t := by
  obtain ⟨hplaced, hinner, hreached⟩ := h.trees_congr hsame fun _ _ _ _ => Iff.rfl
  obtain ⟨l, hl, hnodup, hmem⟩ := h.free
  refine ⟨⟨l, ?_, hnodup, hmem⟩, h.page, hplaced, hinner, hreached⟩
  rw [hlist]
  refine hl.congr fun p hp => Memory.readLE_congr fun x hlo hhi => ?_
  exact hfree p ((hmem p).mp hp) x hlo (by unfold pgSize; omega)

/-- The invariant speaks of memory and the list head only. -/
theorem of_mem_eq (hmem : t.mem = s.mem) (hlist : t.freelist = s.freelist) : Owned im own roots t :=
  h.of_agree (fun _ _ _ _ _ => by rw [hmem]) (fun _ _ _ _ _ _ _ _ => by rw [hmem]) hlist

theorem freelist_lt : s.freelist < 256 ^ 8 := by
  obtain ⟨l, hl, -, hmem⟩ := h.free
  cases l with
  | nil =>
    rw [show s.freelist = 0 from hl]
    decide
  | cons p l =>
    have hp : IsPage im p := h.page p (by rw [(hmem p).mp (by simp)]; simp)
    have hlt := hp.lt_pow
    rw [hl.1]
    omega

theorem onFreeList_iff : s.OnFreeList p ↔ own p = .free := by
  obtain ⟨l, hl, -, hmem⟩ := h.free
  constructor
  · rintro ⟨l', hl', hp⟩
    rw [hl'.unique hl] at hp
    exact (hmem p).mp hp
  · intro hp
    exact ⟨l, hl, (hmem p).mpr hp⟩

theorem agreeOn_of_ne (hp : IsPage im p) (hout : ∀ x, ¬(p ≤ x ∧ x < p + pgSize) → m' x = s.mem x)
    (hn : own n ≠ .kernel) (hne : n ≠ p) : AgreeOn s.mem m' n := by
  intro x hlo hhi
  refine hout x fun hx => hne ?_
  exact IsPage.eq_of_mem (h.page n hn).aligned hp.aligned hlo hhi hx.1 hx.2

/-- Writing a page that is no page-table page changes no tree and no map. -/
theorem write_page (hp : IsPage im p) (hnode : ∀ r, roots r → ∀ path, own p ≠ .node r path)
    (hout : ∀ x, ¬(p ≤ x ∧ x < p + pgSize) → m' x = s.mem x) :
    ∀ r, roots r → ∀ n path, own n = .node r path → AgreeOn s.mem m' n := by
  intro r hr n path hn
  refine h.agreeOn_of_ne hp hout (by simp [hn]) ?_
  rintro rfl
  exact hnode r hr path hn

/-! ## The allocator -/

/-- An allocation takes a free page, which may be given any role but that of a page-table page,
or fails. -/
theorem kalloc (hrun : Kernel.kalloc s = .ok (p, t)) :
    (p = 0 ∧ t = { s with fails := s.fails.tail }) ∨
      (own p = .free ∧ t.mem = s.mem.fill p pgSize 5 ∧
        ∀ role, role ≠ .free → (∀ r, roots r → ∀ path, role ≠ .node r path) →
          Owned im (update own p role) roots t) := by
  obtain ⟨l, hl, hnodup, hmem⟩ := h.free
  have hpages : ∀ q ∈ l, IsPage im q := fun q hq => h.page q (by simp [(hmem q).mp hq])
  rcases hl.kalloc hnodup (fun q hq => (hpages q hq).aligned) hrun with hfail | hok
  · exact .inl hfail
  · obtain ⟨rest, rfl, -, hmem', hrest⟩ := hok
    have hp : own p = .free := (hmem p).mp (by simp)
    have hpage := hpages p (by simp)
    refine .inr ⟨hp, hmem', fun role hrole hnode => ?_⟩
    have hsame : ∀ r, roots r → ∀ n path, own n = .node r path → AgreeOn s.mem t.mem n :=
      h.write_page hpage (fun _ _ path => by simp [hp])
        fun x hx => by rw [hmem', Memory.fill_of_not_mem hx]
    have hown : ∀ r, roots r → ∀ n path, own n = .node r path ↔
        update own p role n = .node r path := by
      intro r hr n path
      by_cases hnp : n = p
      · subst hnp
        simp [hp, hnode r hr path]
      · rw [update_of_ne hnp]
    obtain ⟨hplaced, hinner, hreached⟩ := h.trees_congr hsame hown
    refine ⟨⟨rest, hrest, (List.nodup_cons.mp hnodup).2, fun q => ?_⟩, fun q hq => ?_,
      hplaced, hinner, hreached⟩
    · by_cases hqp : q = p
      · subst hqp
        simp [hrole, (List.nodup_cons.mp hnodup).1]
      · rw [update_of_ne hqp, ← hmem q]
        simp [hqp]
    · by_cases hqp : q = p
      · exact hqp ▸ hpage
      · rw [update_of_ne hqp] at hq
        exact h.page q hq

theorem kalloc_agree (hp : own p = .free) (hmem : t.mem = s.mem.fill p pgSize 5) :
    ∀ r, roots r → ∀ n path, own n = .node r path → AgreeOn s.mem t.mem n :=
  h.write_page (h.page p (by simp [hp])) (fun _ _ path => by simp [hp])
    fun x hx => by rw [hmem, Memory.fill_of_not_mem hx]

/-- How many allocations succeed depends on the roles only. -/
theorem supplies_congr (h' : Owned im own' roots t) (hown : ∀ p, own p = .free ↔ own' p = .free)
    (hfails : t.fails = s.fails) (hs : s.Supplies n) : t.Supplies n := by
  obtain ⟨l, hl, hnodup, hmem⟩ := h.free
  obtain ⟨l', hl', hnodup', hmem'⟩ := h'.free
  obtain ⟨hfree, l0, hl0, hlen⟩ := hs
  obtain rfl := hl0.unique hl
  have hperm : l'.Perm l0 :=
    (List.perm_ext_iff_of_nodup hnodup' hnodup).mpr fun p =>
      (hmem' p).trans ((hown p).symm.trans (hmem p).symm)
  exact ⟨by rwa [hfails], l', hl', by rwa [hperm.length_eq]⟩

theorem supplies_kalloc (hs : s.Supplies (n + 1)) (hrun : Kernel.kalloc s = .ok (p, t)) :
    p ≠ 0 ∧ t.Supplies n := by
  obtain ⟨l, hl, hnodup, hmem⟩ := h.free
  exact hs.kalloc hl hnodup
    (fun q hq => (h.page q (by simp [(hmem q).mp hq])).aligned) hrun

theorem supplies_zero : s.Supplies 0 := by
  obtain ⟨l, hl, -, -⟩ := h.free
  exact ⟨by simp, l, hl, Nat.zero_le _⟩

/-- An operation that leaves the free pages alone takes none. -/
theorem exactly_zero (h' : Owned im own' roots t) (hown : ∀ p, own p = .free ↔ own' p = .free)
    (hfails : t.fails = s.fails) {done : Prop} (hdone : done) : Exactly 0 done s t where
  done_iff := iff_of_true hdone h.supplies_zero
  rest _ _ :=
    ⟨h'.supplies_congr h (fun p => (hown p).symm) hfails.symm, h.supplies_congr h' hown hfails⟩

/-- An allocation that succeeded was one of those that could be made before. -/
theorem supplies_of_kalloc (hrun : Kernel.kalloc s = .ok (p, t)) (hp : p ≠ 0) {m : Nat}
    (ht : t.Supplies m) : s.Supplies (m + 1) := by
  obtain ⟨l, hl, hnodup, hmem⟩ := h.free
  obtain ⟨hfails, l', hl', hlen⟩ := ht
  rcases hl.kalloc hnodup (fun q hq => (h.page q (by simp [(hmem q).mp hq])).aligned) hrun with
    ⟨hzero, -⟩ | ⟨rest, rfl, -, -, hrest⟩
  · exact (hp hzero).elim
  obtain rfl := hl'.unique hrest
  refine ⟨?_, _, hl, by simpa using hlen⟩
  unfold Kernel.kalloc at hrun
  split at hrun
  next =>
    cases hrun
    exact (hp rfl).elim
  next hok =>
    cases hrun
    cases hs : s.fails with
    | nil => simp
    | cons b fails =>
      have hb : b = false := by simpa [hs] using fun hb : b = true => hok (.inl (by simp [hs, hb]))
      intro c hc
      rw [List.take_succ_cons, List.mem_cons] at hc
      rcases hc with rfl | hc
      · exact hb
      · exact hfails c (by simpa [hs] using hc)

theorem kalloc_exactly (hrun : Kernel.kalloc s = .ok (p, t)) : Exactly 1 (p ≠ 0) s t where
  done_iff := by
    refine ⟨fun hp => h.supplies_of_kalloc hrun hp ?_, fun hs => (h.supplies_kalloc hs hrun).1⟩
    rcases h.kalloc hrun with ⟨hzero, -⟩ | ⟨-, -, howned⟩
    · exact (hp hzero).elim
    · exact (howned .held (by simp) (by simp)).supplies_zero
  rest hp _ := ⟨h.supplies_of_kalloc hrun hp, fun hs => (h.supplies_kalloc hs hrun).2⟩

/-- Freeing a page that is in use but not as a page-table page succeeds. -/
theorem kfree (hp : IsPage im p) (hused : own p ≠ .free)
    (hnode : ∀ r, roots r → ∀ path, own p ≠ .node r path) :
    ∃ t, Kernel.kfree im p s = .ok ((), t) ∧
      Owned im (update own p .free) roots t ∧ t.fails = s.fails ∧
      ∀ x, ¬(p ≤ x ∧ x < p + pgSize) → t.mem x = s.mem x := by
  obtain ⟨l, hl, hnodup, hmem⟩ := h.free
  have hpages : ∀ q ∈ l, IsPage im q := fun q hq => h.page q (by simp [(hmem q).mp hq])
  have hfresh : p ∉ l := fun hin => hused ((hmem p).mp hin)
  obtain ⟨t, hrun, hthread, hfails, hout⟩ :=
    hl.kfree hp hfresh (fun q hq => (hpages q hq).aligned) h.freelist_lt
  have hown : ∀ r, roots r → ∀ n path, own n = .node r path ↔
      update own p .free n = .node r path := by
    intro r hr n path
    by_cases hnp : n = p
    · subst hnp
      simp [hnode r hr path]
    · rw [update_of_ne hnp]
  obtain ⟨hplaced, hinner, hreached⟩ := h.trees_congr (h.write_page hp hnode hout) hown
  refine ⟨t, hrun, ⟨⟨p :: l, hthread, List.nodup_cons.mpr ⟨hfresh, hnodup⟩, fun q => ?_⟩,
    fun q hq => ?_, hplaced, hinner, hreached⟩, hfails, hout⟩
  · by_cases hqp : q = p
    · subst hqp
      simp
    · rw [update_of_ne hqp, ← hmem q]
      simp [hqp]
  · by_cases hqp : q = p
    · exact hqp ▸ hp
    · rw [update_of_ne hqp] at hq
      exact h.page q hq

end

/-! ## Entries -/

variable {w : Nat}

/-- What a store to an entry of a page-table page does to the entries of pages. -/
theorem entryAt_store (hn : n % pgSize = 0) (hp : p % pgSize = 0) {i i' : Fin 512} {m : Memory}
    (hw : w < 256 ^ 8) :
    entryAt (m.writeLE (n + 8 * i) 8 w) p i' = if p = n ∧ i' = i then w else entryAt m p i' := by
  have hi := i.isLt
  have hi' := i'.isLt
  unfold pgSize at hn hp
  split
  next heq =>
    obtain ⟨rfl, rfl⟩ := heq
    exact Memory.readLE_writeLE hw
  next hne =>
    refine Memory.readLE_writeLE_of_disjoint ?_
    by_cases hpn : p = n
    · have hii : i'.val ≠ i.val := fun h => hne ⟨hpn, Fin.ext h⟩
      omega
    · omega

/-- A store to a page-table page leaves other pages alone. -/
theorem store_out {i : Fin 512} {x : Nat} {m : Memory} (hx : ¬(n ≤ x ∧ x < n + pgSize)) :
    m.writeLE (n + 8 * i) 8 w x = m x := by
  have hi := i.isLt
  unfold pgSize at hx
  rw [Memory.writeLE, if_neg (by omega)]

variable (h : Owned im own roots s) (hr : roots r) (hn : table s.mem r [px 2 va, px 1 va] = some n)
include h hr hn

/-- Storing an entry changes one page of one map. -/
theorem storeLeaf (hw : w < 256 ^ 8) (hva : va < maxVA)
    (ht : t = { s with mem := s.mem.writeLE (n + 8 * px 0 va) 8 w }) :
    Owned im own roots t ∧
      (∀ r', roots r' → ∀ path, path.length ≤ 2 → table t.mem r' path = table s.mem r' path) ∧
      ∀ r' va', roots r' → va' < treeVA → leaf t.mem r' va' =
        if r' = r ∧ va' / pgSize = va / pgSize then w else leaf s.mem r' va' := by
  subst ht
  have hown := h.own_table hr (by simp) hn
  have hpage := h.page n (by simp [hown])
  -- The page written is a last-level page-table page, so no inner page is touched.
  have hentry : ∀ p i, own p ≠ .kernel → (p ≠ n ∨ i ≠ px 0 va) →
      entryAt (s.mem.writeLE (n + 8 * px 0 va) 8 w) p i = entryAt s.mem p i := by
    intro p i hp hne
    rw [entryAt_store hpage.aligned (h.page p hp).aligned hw, if_neg]
    rintro ⟨rfl, rfl⟩
    simp at hne
  have hinnerEntry : ∀ r', roots r' → ∀ p path i, placeOf own p = some (r', path) →
      path.length < 2 → entryAt (s.mem.writeLE (n + 8 * px 0 va) 8 w) p i = entryAt s.mem p i := by
    intro r' _ p path i hp hlen
    rw [placeOf_eq_some] at hp
    refine hentry p i (by simp [hp]) (.inl ?_)
    rintro rfl
    rw [hown] at hp
    cases hp
    simp at hlen
  have htable : ∀ r', roots r' → ∀ path, path.length ≤ 2 →
      table (s.mem.writeLE (n + 8 * px 0 va) 8 w) r' path = table s.mem r' path :=
    fun r' hr' path hlen => (h.placed r' hr').descend_congr (hinnerEntry r' hr') hlen
  refine ⟨⟨?_, h.page, ?_, ?_, ?_⟩, htable, ?_⟩
  · obtain ⟨l, hl, hnodup, hmem⟩ := h.free
    refine ⟨l, hl.congr fun p hp => Memory.readLE_congr fun x hlo hhi => store_out ?_, hnodup, hmem⟩
    have hfree := (hmem p).mp hp
    intro hx
    have heq : n = p := IsPage.eq_of_mem hpage.aligned (h.page p (by simp [hfree])).aligned
      hx.1 hx.2 hlo (by unfold pgSize; omega)
    simp [← heq, hown] at hfree
  · intro r' hr'
    exact (h.placed r' hr').congr (hinnerEntry r' hr') fun _ _ hp => hp
  · intro r' hr' path p hlen hp i
    rw [htable r' hr' path hlen.le] at hp
    have hplace := placeOf_eq_some.mpr (h.own_table hr' hlen.le hp)
    rw [hinnerEntry r' hr' p path i hplace hlen]
    exact h.inner r' hr' path p hlen hp i
  · intro r' hr' path p hp
    obtain ⟨hlen, hreached⟩ := h.reached r' hr' path p hp
    exact ⟨hlen, (htable r' hr' path hlen).trans hreached⟩
  · intro r' va' hr' hva'
    simp only [leaf, htable r' hr' _ (by simp : [px 2 va', px 1 va'].length ≤ 2)]
    cases hn' : table s.mem r' [px 2 va', px 1 va'] with
    | none =>
      rw [if_neg]
      rintro ⟨rfl, hpage'⟩
      rw [px_congr hpage', px_congr hpage', hn] at hn'
      cases hn'
    | some n' =>
      have hown' := h.own_table hr' (by simp) hn'
      simp only
      rw [entryAt_store hpage.aligned (h.page n' (by simp [hown'])).aligned hw]
      refine if_congr ?_ rfl rfl
      constructor
      · rintro ⟨rfl, h0⟩
        rw [hown] at hown'
        simp only [Role.node.injEq, List.cons.injEq, and_true] at hown'
        exact ⟨hown'.1.symm, page_eq_of_px hva' (lt_treeVA hva) hown'.2.1.symm hown'.2.2.symm h0⟩
      · rintro ⟨rfl, hpage'⟩
        rw [px_congr hpage', px_congr hpage', hn] at hn'
        exact ⟨(Option.some.inj hn').symm, px_congr hpage'⟩

theorem storeLeaf_agree (w : Nat) (hp : own p ≠ .kernel) (hnode : ∀ path, own p ≠ .node r path) :
    AgreeOn s.mem (s.mem.writeLE (n + 8 * px 0 va) 8 w) p := by
  have hown := h.own_table hr (by simp) hn
  refine h.agreeOn_of_ne (h.page n (by simp [hown])) (fun x hx => store_out hx) hp ?_
  rintro rfl
  exact hnode _ hown

end Owned

end Kernel
end FastIpc
