import FastIpc.Kernel.Mapping
import FastIpc.Kernel.Ringbuf

/-!
# Mapping and unmapping windows

The ten windows of a process lie below its trap frame, in the part of the address space
whose page-table pages every process has, so that mapping a ring into an empty window
needs no page-table page and cannot fail half-way.

Main results:

- Theorem `findWindow_eq`: the window `processSpace_mapper` chooses.
- Theorem `processSpaceMapper_of_empty`: an empty window is filled with the pages of
  the ring.
-/

namespace FastIpc
namespace Kernel

open Foundation FaultM Foundation.RadixTree
open Function (update update_of_ne update_self)

/-! ## Windows -/

/-- The address of a window. -/
def window (w : Fin 10) : Nat := mapStart + w * spaceJump

theorem maxVA_eq : maxVA = 2 ^ 38 := rfl

theorem mapStart_eq : mapStart = 2 ^ 38 - 342 * 4096 := rfl

theorem trapframeVA_eq : trapframeVA = 2 ^ 38 - 2 * 4096 := rfl

theorem trampolineVA_eq : trampolineVA = 2 ^ 38 - 4096 := rfl

theorem window_eq (w : Fin 10) : window w = 2 ^ 38 - 342 * 4096 + w * (34 * 4096) := rfl

/-- A window and the page after it lie between `mapStart` and the trap frame. -/
theorem window_bounds (w : Fin 10) :
    window w % pgSize = 0 ∧ mapStart ≤ window w ∧ window w + 34 * pgSize ≤ trapframeVA := by
  have hw := w.isLt
  rw [window_eq, mapStart_eq, trapframeVA_eq]
  unfold pgSize
  omega

theorem window_end_lt (w : Fin 10) : window w + 33 * pgSize < maxVA := by
  have hend := (window_bounds w).2.2
  have htrap : trapframeVA < maxVA := by decide
  unfold pgSize at *
  omega

/-- The first window whose first page is not a user page. -/
def firstWindow (m : Memory) (r : Nat) : Option (Fin 10) :=
  (List.finRange 10).find? fun w => userPage m r (window w) = 0

variable {r w : Nat}

theorem drop_windows (hw : w < 10) :
    (List.finRange 10).drop w = ⟨w, hw⟩ :: (List.finRange 10).drop (w + 1) := by
  rw [List.drop_eq_getElem_cons (by simpa using hw)]
  simp

theorem find_window {m : Memory} (hw : w < 10) :
    (((List.finRange 10).drop w).find? fun w => userPage m r (window w) = 0).map window =
      if userPage m r (mapStart + w * spaceJump) = 0 then some (mapStart + w * spaceJump)
      else (((List.finRange 10).drop (w + 1)).find? fun w =>
        userPage m r (window w) = 0).map window := by
  have hwin : window ⟨w, hw⟩ = mapStart + w * spaceJump := rfl
  rw [drop_windows hw]
  split
  next h => rw [List.find?_cons_of_pos (by simpa [hwin] using h), Option.map_some, hwin]
  next h => rw [List.find?_cons_of_neg (by simpa [hwin] using h)]

theorem findWindow_drop {n : Nat} {s : Ram} (hw : n + w = 9) :
    findWindow r (n + 1) (mapStart + w * spaceJump) s =
      .ok ((((List.finRange 10).drop w).find? fun w => userPage s.mem r (window w) = 0).map
        window, s) := by
  have hlast : maxMapLoc = mapStart + 9 * spaceJump := rfl
  induction n generalizing w with
  | zero =>
    have hend : (List.finRange 10).drop (w + 1) = [] := by
      rw [List.drop_eq_nil_iff]
      simp
      omega
    have hpos : 0 < spaceJump := by decide
    have hle : 9 * spaceJump ≤ w * spaceJump := Nat.mul_le_mul_right _ (by omega)
    rw [findWindow, bind_of_ok walkaddr_eq, find_window (by omega), hend]
    split
    next => rw [if_pos (by omega), List.find?_nil, Option.map_none, pure_apply]
    next h => rw [if_pos (not_not.mp h), pure_apply]
  | succ n ih =>
    have hnext : mapStart + w * spaceJump + spaceJump = mapStart + (w + 1) * spaceJump := by
      rw [Nat.add_mul, Nat.one_mul, Nat.add_assoc]
    have hle : (w + 1) * spaceJump ≤ 9 * spaceJump := Nat.mul_le_mul_right _ (by omega)
    rw [findWindow, bind_of_ok walkaddr_eq, find_window (by omega), hnext]
    split
    next => rw [if_neg (by omega), ih (by omega)]
    next h => rw [if_pos (not_not.mp h), pure_apply]

/-- The window `processSpace_mapper` chooses. -/
theorem findWindow_eq {s : Ram} :
    findWindow r 10 mapStart s = .ok ((firstWindow s.mem r).map window, s) := by
  have h := findWindow_drop (r := r) (n := 9) (w := 0) (s := s) (by decide)
  simpa [firstWindow] using h

/-- All windows of a process share one last-level page-table page. -/
theorem px_of_window {va : Nat} (hlo : mapStart ≤ va) (hhi : va < maxVA) :
    px 2 va = 255 ∧ px 1 va = 511 := by
  rw [mapStart_eq] at hlo
  rw [maxVA_eq] at hhi
  constructor
  · apply Fin.ext
    rw [px_val, show (12 + 9 * 2) = 30 from rfl]
    show _ = 255
    omega
  · apply Fin.ext
    rw [px_val, show (12 + 9 * 1) = 21 from rfl]
    show _ = 511
    omega

/-! ## Mapping a ring -/

/-- The page that page `i` of a window shows. -/
def Ringbuf.pageAt (b : Ringbuf) (i : Nat) : Nat :=
  if i < 2 * ringbufSize then b.bufPA (dataIndex i) else b.book

/-- A role of a page of the ring in slot `j`. -/
def Role.IsRing (j : Slot) (role : Role) : Prop :=
  (∃ i : Fin ringbufSize, role = .ringData j i) ∨ role = .ringBook j

theorem Role.IsRing.slot_eq {j j' : Slot} {role : Role} (h : role.IsRing j)
    (h' : role.IsRing j') : j = j' := by
  rcases h with ⟨i, rfl⟩ | rfl
  · rcases h' with ⟨i', h'⟩ | h'
    · simp only [Role.ringData.injEq] at h'
      exact Fin.ext h'.1
    · cases h'
  · rcases h' with ⟨i', h'⟩ | h'
    · cases h'
    · simp only [Role.ringBook.injEq] at h'
      exact Fin.ext h'

theorem Role.IsRing.ne_free {j : Slot} {role : Role} (h : role.IsRing j) : role ≠ .free := by
  rcases h with ⟨i, rfl⟩ | rfl
  · simp
  · simp

/-- Free pages were given to the ring in slot `j`, and nothing else happened to the tables but in
this slot. -/
structure RingStep (im : Image) (roots : Nat → Prop) (j : Slot) (own own' : Nat → Role)
    (k k' : KernelState) : Prop where
  owned : Owned im own' roots k'.ram
  kept : ∀ p, own p ≠ .free → own' p = own p
  fresh : ∀ p, own p = .free → own' p = .free ∨ (own' p).IsRing j
  frame : k' = { k with ram := k'.ram, ringbufs := k'.ringbufs }
  other : ∀ i, i ≠ j → k'.ringbufs i = k.ringbufs i

namespace RingStep

variable {im : Image} {roots : Nat → Prop} {j : Slot} {own own1 own2 : Nat → Role}
  {k k1 k2 : KernelState}

/-- The slot changes. -/
theorem setSlot (h : Owned im own roots k.ram) (g : Ringbuf → Ringbuf) :
    RingStep im roots j own own k (k.setSlot j g) :=
  ⟨h, fun _ _ => rfl, fun _ hp => .inl hp, rfl, fun _ hi => KernelState.setSlot_ne _ _ _ hi⟩

/-- Memory may change as long as the roles stay right. -/
theorem withRam (h : RingStep im roots j own own1 k k1) {ram : Ram}
    (hram : Owned im own1 roots ram) : RingStep im roots j own own1 k { k1 with ram := ram } :=
  ⟨hram, h.kept, h.fresh, by rw [h.frame], h.other⟩

theorem trans (h : RingStep im roots j own own1 k k1) (h' : RingStep im roots j own1 own2 k1 k2) :
    RingStep im roots j own own2 k k2 where
  owned := h'.owned
  kept p hp := by
    have hmid := h.kept p hp
    rw [h'.kept p (by rwa [hmid]), hmid]
  fresh p hp := by
    rcases h.fresh p hp with hmid | hmid
    · exact h'.fresh p hmid
    · rw [h'.kept p hmid.ne_free]
      exact .inr hmid
  frame := by rw [h'.frame, h.frame]
  other i hi := (h'.other i hi).trans (h.other i hi)

theorem free_of_free (h : RingStep im roots j own own1 k k1) {p : Nat} (hfree : own1 p = .free) :
    own p = .free := by
  by_contra hused
  exact hused (by rw [← h.kept _ hused, hfree])

/-- A page is allocated for the ring, if there is one, and noted in its slot. -/
theorem kalloc (h : Owned im own roots k.ram) {f : Nat} {ram : Ram}
    (hrun : Kernel.kalloc k.ram = .ok (f, ram)) (role : Role) (hrole : role.IsRing j)
    (hnode : ∀ r path, role ≠ .node r path) (g : Ringbuf → Ringbuf) :
    ∃ own1, RingStep im roots j own own1 k (KernelState.setSlot { k with ram := ram } j g) ∧
      (f = 0 ∨ own f = .free ∧ own1 f = role) ∧
      (∀ r va, roots r → leaf ram.mem r va = leaf k.ram.mem r va) ∧
      ∀ r path, roots r → path.length ≤ 2 → table ram.mem r path = table k.ram.mem r path := by
  rcases h.kalloc hrun with ⟨rfl, rfl⟩ | ⟨hfree, hmem, howned⟩
  · exact ⟨own, (setSlot h g).withRam (h.of_mem_eq rfl rfl), .inl rfl, fun _ _ _ => rfl,
      fun _ _ _ _ => rfl⟩
  · have hagree := h.kalloc_agree hfree hmem
    refine ⟨update own f role, ⟨howned _ hrole.ne_free fun r _ => hnode r, fun q hq => ?_,
      fun q hq => ?_, rfl, fun _ hi => KernelState.setSlot_ne _ _ _ hi⟩,
      .inr ⟨hfree, update_self ..⟩, fun r va hr => h.leaf_congr hr (hagree r hr),
      fun r path hr hlen => h.table_congr hr (hagree r hr) hlen⟩
    · refine update_of_ne ?_ _ _
      rintro rfl
      exact hq hfree
    · by_cases hqf : q = f
      · subst hqf
        rw [update_self]
        exact .inr hrole
      · rw [update_of_ne hqf]
        exact .inl hq

end RingStep

/-- Data pages `lo` up to `hi` of the ring in slot `j` were allocated if
`newmap` is set.  An allocation that failed leaves a null page. -/
structure DataAlloc (im : Image) (roots : Nat → Prop) (j : Slot) (newmap : Bool) (lo hi : Nat)
    (own own' : Nat → Role) (k k' : KernelState) : Prop extends
    RingStep im roots j own own' k k' where
  slot : k'.ringbufs j = { k.ringbufs j with bufPA := (k'.ringbufs j).bufPA }
  old : ∀ i : Fin ringbufSize, newmap = false ∨ i.val < lo ∨ hi ≤ i.val →
    (k'.ringbufs j).bufPA i = (k.ringbufs j).bufPA i
  new : newmap = true → ∀ i : Fin ringbufSize, lo ≤ i.val → i.val < hi →
    (k'.ringbufs j).bufPA i = 0 ∨
      own ((k'.ringbufs j).bufPA i) = .free ∧ own' ((k'.ringbufs j).bufPA i) = .ringData j i
  /-- If the allocations succeed there is no null page. -/
  supply : newmap = true → ∀ n, k.ram.Supplies (min hi ringbufSize - lo + n) →
    (∀ i : Fin ringbufSize, lo ≤ i.val → i.val < hi → (k'.ringbufs j).bufPA i ≠ 0) ∧
      k'.ram.Supplies n

namespace DataAlloc

variable {im : Image} {roots : Nat → Prop} {lo mid hi : Nat} {j : Slot} {newmap : Bool}
  {own own1 own2 : Nat → Role} {k k1 k2 : KernelState}

theorem refl (h : Owned im own roots k.ram) (hnone : newmap = false ∨ ringbufSize ≤ lo ∨ hi ≤ lo) :
    DataAlloc im roots j newmap lo hi own own k k where
  toRingStep := ⟨h, fun _ _ => rfl, fun _ hp => .inl hp, rfl, fun _ _ => rfl⟩
  slot := rfl
  old _ _ := rfl
  new hnew i hlo hhi := by
    have hi := i.isLt
    rcases hnone with hn | hn | hn
    · rw [hnew] at hn
      cases hn
    · omega
    · omega
  supply hnew n hs := by
    have hlo : ringbufSize ≤ lo ∨ hi ≤ lo := by
      rcases hnone with hn | hn
      · rw [hnew] at hn
        cases hn
      · exact hn
    refine ⟨fun i hilo hihi => ?_, ?_⟩
    · have hi := i.isLt
      omega
    · have hcount : min hi ringbufSize - lo + n = n := by omega
      rwa [hcount] at hs

/-- Memory may change as long as the roles stay right. -/
theorem withRam (h : DataAlloc im roots j newmap lo hi own own1 k k1) {ram : Ram}
    (hram : Owned im own1 roots ram) (hfails : ram.fails = k1.ram.fails) :
    DataAlloc im roots j newmap lo hi own own1 k { k1 with ram := ram } where
  toRingStep := h.toRingStep.withRam hram
  __ := h
  supply hnew n hs :=
    ⟨(h.supply hnew n hs).1,
      h.owned.supplies_congr hram (fun _ => Iff.rfl) hfails (h.supply hnew n hs).2⟩

theorem trans (h : DataAlloc im roots j newmap lo mid own own1 k k1)
    (h' : DataAlloc im roots j newmap mid hi own1 own2 k1 k2) (hlo : lo ≤ mid)
    (hhi : mid ≤ hi) : DataAlloc im roots j newmap lo hi own own2 k k2 where
  toRingStep := h.toRingStep.trans h'.toRingStep
  slot := by
    rw [h'.slot, h.slot]
  old i hout := by
    rw [h'.old i (hout.imp_right (Or.imp_left fun hi => by omega)),
      h.old i (hout.imp_right (Or.imp_right fun hi => by omega))]
  new hnew i hilo hihi := by
    by_cases hi : i.val < mid
    · rw [h'.old i (.inr (.inl hi))]
      rcases h.new hnew i hilo hi with hzero | ⟨hfree, hrole⟩
      · exact .inl hzero
      · exact .inr ⟨hfree, by rw [h'.kept _ (by simp [hrole]), hrole]⟩
    · rcases h'.new hnew i (by omega) hihi with hzero | ⟨hfree, hrole⟩
      · exact .inl hzero
      · exact .inr ⟨h.free_of_free hfree, hrole⟩
  supply hnew n hs := by
    have hcount : min hi ringbufSize - lo + n =
        min mid ringbufSize - lo + (min hi ringbufSize - mid + n) := by omega
    rw [hcount] at hs
    obtain ⟨hfirst, hs1⟩ := h.supply hnew _ hs
    obtain ⟨hsecond, hs2⟩ := h'.supply hnew n hs1
    refine ⟨fun i hilo hihi => ?_, hs2⟩
    by_cases hi : i.val < mid
    · rw [h'.old i (.inr (.inl hi))]
      exact hfirst i hilo hi
    · exact hsecond i (by omega) hihi

/-- The data pages the ring has after the allocations are pages or null. -/
theorem bufPA_lt (h : DataAlloc im roots j newmap lo hi own own1 k k1)
    {i : Fin ringbufSize} (hold : newmap = false ∨ i.val < lo ∨ hi ≤ i.val →
      (k.ringbufs j).bufPA i < 2 ^ 56) : (k1.ringbufs j).bufPA i < 2 ^ 56 := by
  by_cases hout : newmap = false ∨ i.val < lo ∨ hi ≤ i.val
  · rw [h.old i hout]
    exact hold hout
  · simp only [not_or, Bool.not_eq_false, not_lt, not_le] at hout
    rcases h.new hout.1 i hout.2.1 hout.2.2 with hzero | ⟨-, hrole⟩
    · rw [hzero]
      decide
    · exact (h.owned.page _ (by simp [hrole])).lt_pow

end DataAlloc

/-- Pages `lo` up to `hi` of a window were mapped to the data pages of the ring in
slot `j`, which were allocated if `newmap` is set. -/
structure DataMapped (im : Image) (roots : Nat → Prop) (r : Nat) (j : Slot) (newmap : Bool)
    (start lo hi : Nat) (own own' : Nat → Role) (k k' : KernelState) : Prop where
  alloc : DataAlloc im roots j newmap lo hi own own' k k'
  leaf_eq : ∀ r' va, roots r' → va < treeVA → leaf k'.ram.mem r' va =
    if r' = r ∧ start + lo * pgSize ≤ va ∧ va < start + hi * pgSize then
      mkPte ((k'.ringbufs j).bufPA (dataIndex ((va - start) / pgSize))) ringPerm
    else leaf k.ram.mem r' va
  table_eq : ∀ r' path, roots r' → path.length ≤ 2 →
    table k'.ram.mem r' path = table k.ram.mem r' path

namespace DataMapped

variable {im : Image} {roots : Nat → Prop} {r start lo mid hi : Nat} {j : Slot} {newmap : Bool}
  {own own1 own2 : Nat → Role} {k k1 k2 : KernelState}

theorem refl (h : Owned im own roots k.ram) :
    DataMapped im roots r j newmap start lo lo own own k k where
  alloc := .refl h (.inr (.inr (Nat.le_refl lo)))
  leaf_eq r' va _ _ := by
    rw [if_neg]
    omega
  table_eq _ _ _ _ := rfl

theorem trans (h : DataMapped im roots r j newmap start lo mid own own1 k k1)
    (h' : DataMapped im roots r j newmap start mid hi own1 own2 k1 k2) (hlo : lo ≤ mid)
    (hhi : mid ≤ hi) : DataMapped im roots r j newmap start lo hi own own2 k k2 where
  alloc := h.alloc.trans h'.alloc hlo hhi
  leaf_eq r' va hr' hva := by
    rw [h'.leaf_eq r' va hr' hva, h.leaf_eq r' va hr' hva]
    by_cases hsecond : r' = r ∧ start + mid * pgSize ≤ va ∧ va < start + hi * pgSize
    · have hle := Nat.mul_le_mul_right pgSize hlo
      rw [if_pos hsecond, if_pos ⟨hsecond.1, by omega, hsecond.2.2⟩]
    · rw [if_neg hsecond]
      by_cases hfirst : r' = r ∧ start + lo * pgSize ≤ va ∧ va < start + mid * pgSize
      · -- A page mapped in the first part shows a data page below the second part.
        have hindex : (dataIndex ((va - start) / pgSize)).val < mid := by
          have hpage : (va - start) / pgSize < mid := by
            rw [Nat.div_lt_iff_lt_mul (by decide)]
            omega
          exact lt_of_le_of_lt (Nat.mod_le _ _) hpage
        have hle := Nat.mul_le_mul_right pgSize hhi
        rw [if_pos hfirst, if_pos ⟨hfirst.1, hfirst.2.1, by omega⟩,
          h'.alloc.old _ (.inr (.inl hindex))]
      · have hle := Nat.mul_le_mul_right pgSize hlo
        rw [if_neg hfirst, if_neg (by omega)]
  table_eq r' path hr' hlen := (h'.table_eq r' path hr' hlen).trans (h.table_eq r' path hr' hlen)

end DataMapped

theorem ringPerm_lt : ringPerm < 1024 := by
  decide

theorem page_lt {start i n top : Nat} (hend : start + n * pgSize ≤ top) (hi : i < n) :
    start + i * pgSize < top := by
  have hle := Nat.mul_le_mul_right pgSize (Nat.succ_le_of_lt hi)
  have hpos : 0 < pgSize := by decide
  rw [Nat.succ_mul] at hle
  omega

/-- The number of the page an address of a range lies in. -/
theorem page_div {start i va : Nat} (h : start + i * pgSize ≤ va ∧ va < start + (i + 1) * pgSize) :
    (va - start) / pgSize = i := by
  unfold pgSize at *
  omega

section MapRing

variable {im : Image} {roots : Nat → Prop} {r start i n mem nd : Nat} {p : ProcId} {j : Slot}
  {newmap : Bool} {own : Nat → Role} {k : KernelState}

/-- The entry of a page of the window region is in the process's last page-table page. -/
theorem table_of_window {m : Memory} {va : Nat} (htop : table m r [255, 511] = some nd)
    (hlo : mapStart ≤ va) (hhi : va < maxVA) : table m r [px 2 va, px 1 va] = some nd := by
  rw [(px_of_window hlo hhi).1, (px_of_window hlo hhi).2]
  exact htop

/-- The allocation of one data page always returns and changes no map. -/
theorem allocData_spec (h : Owned im own roots k.ram) (j : Slot) (newmap : Bool) (i mem : Nat) :
    ∃ mem' k1 own1, allocData j newmap i mem k = .ok (mem', k1) ∧
      DataAlloc im roots j newmap i (i + 1) own own1 k k1 ∧
      (∀ r' va, roots r' → leaf k1.ram.mem r' va = leaf k.ram.mem r' va) ∧
      ∀ r' path, roots r' → path.length ≤ 2 →
        table k1.ram.mem r' path = table k.ram.mem r' path := by
  by_cases hnew : i < ringbufSize ∧ newmap = true
  · obtain ⟨hi, rfl⟩ := hnew
    obtain ⟨f, ram, hrun⟩ := exists_kalloc k.ram
    have heq : allocData j true i mem k =
        .ok (f, KernelState.setSlot { k with ram := ram } j fun b =>
          { b with bufPA := update b.bufPA (dataIndex i) f }) := by
      rw [allocData, if_pos ⟨hi, rfl⟩, bind_of_ok (onRam_of_ok hrun)]
      rfl
    have hindex : (dataIndex i).val = i := Nat.mod_eq_of_lt hi
    have hother : ∀ i' : Fin ringbufSize, i'.val < i ∨ i + 1 ≤ i'.val → i' ≠ dataIndex i := by
      rintro i' hi' rfl
      omega
    obtain ⟨own1, hstep, hpage, hmaps⟩ := RingStep.kalloc h hrun
      (.ringData j (dataIndex i)) (.inl ⟨_, rfl⟩) (by simp) fun b =>
        { b with bufPA := update b.bufPA (dataIndex i) f }
    refine ⟨f, _, own1, heq, ⟨hstep, by simp, ?_, ?_, ?_⟩, hmaps⟩
    · intro i' hout
      simp only [Bool.true_eq_false, false_or] at hout
      simp [update_of_ne (hother i' hout)]
    · intro _ i' hlo hhi
      obtain rfl : i' = dataIndex i := Fin.ext (by omega)
      simpa using hpage
    · intro _ n hs
      rw [show min (i + 1) ringbufSize - i + n = n + 1 by omega] at hs
      obtain ⟨hne, hrest⟩ := h.supplies_kalloc hs hrun
      refine ⟨fun i' hlo hhi => ?_, hrest⟩
      obtain rfl : i' = dataIndex i := Fin.ext (by omega)
      simpa using hne
  · refine ⟨mem, k, own, ?_, .refl h ?_, fun _ _ _ => rfl, fun _ _ _ _ => rfl⟩
    · rw [allocData, if_neg hnew]
      rfl
    · cases newmap with
      | false => exact .inl rfl
      | true => exact .inr (.inl (not_lt.mp fun hi => hnew ⟨hi, rfl⟩))

theorem mapWindowPage {ram : Ram} {pa : Nat} (h : Owned im own roots ram) (hr : roots r)
    (htop : table ram.mem r [255, 511] = some nd) (hstart : mapStart ≤ start)
    (haligned : start % pgSize = 0) (hend : start + i * pgSize < maxVA)
    (hempty : leaf ram.mem r (start + i * pgSize) &&& pteV = 0) (hpa : pa < 2 ^ 56) :
    ∃ ram', mappages r (start + i * pgSize) pgSize pa ringPerm ram = .ok (0, ram') ∧
      Owned im own roots ram' ∧ ram'.fails = ram.fails ∧
      (∀ r' va, roots r' → va < treeVA → leaf ram'.mem r' va =
        if r' = r ∧ start + i * pgSize ≤ va ∧ va < start + (i + 1) * pgSize then
          mkPte pa ringPerm
        else leaf ram.mem r' va) ∧
      ∀ r' path, roots r' → path.length ≤ 2 → table ram'.mem r' path = table ram.mem r' path := by
  have halign : (start + i * pgSize) % pgSize = 0 := by
    rw [Nat.add_mul_mod_self_right]
    exact haligned
  obtain ⟨ram', hrun, hfails, -, hset⟩ := h.mappages_of_table hr halign hend
    (table_of_window htop (by omega) hend) hempty ringPerm_lt hpa
  refine ⟨ram', hrun, hset.owned, hfails, ?_, hset.table_eq⟩
  intro r' va hr' hva
  rw [hset.leaf_eq r' va hr' hva]
  have hpages : va / pgSize = (start + i * pgSize) / pgSize ↔
      start + i * pgSize ≤ va ∧ va < start + (i + 1) * pgSize := by
    unfold pgSize at *
    omega
  simp only [hpages]

/-- One round of the loop, on a page that is not mapped. -/
theorem mapRing_succ (h : Owned im own roots k.ram) (hr : roots r)
    (hp : (k.proc p).pagetable = r) (htop : table k.ram.mem r [255, 511] = some nd)
    (hstart : mapStart ≤ start) (haligned : start % pgSize = 0) (hend : start + i * pgSize < maxVA)
    (hempty : leaf k.ram.mem r (start + i * pgSize) &&& pteV = 0)
    (hpages : ∀ i' : Fin ringbufSize, newmap = false ∨ i'.val < i →
      (k.ringbufs j).bufPA i' < 2 ^ 56) (n mem : Nat) :
    ∃ mem' k1 own1, mapRing im p j newmap start (n + 1) i mem k =
        mapRing im p j newmap start n (i + 1) mem' k1 ∧
      DataMapped im roots r j newmap start i (i + 1) own own1 k k1 ∧
      (k1.proc p).pagetable = r ∧ ∀ i' : Fin ringbufSize, newmap = false ∨ i'.val < i + 1 →
        (k1.ringbufs j).bufPA i' < 2 ^ 56 := by
  obtain ⟨mem', k1, own1, halloc, hdata, hleaf, htable⟩ := allocData_spec h j newmap i mem
  have hpage : ∀ i' : Fin ringbufSize, newmap = false ∨ i'.val < i + 1 →
      (k1.ringbufs j).bufPA i' < 2 ^ 56 := by
    intro i' hi'
    refine hdata.bufPA_lt fun hout => hpages i' ?_
    rcases hout with hout | hout | hout
    · exact .inl hout
    · exact .inr hout
    · exact hi'.imp_right fun h => absurd h (by omega)
  have hproc : (k1.proc p).pagetable = r := by
    rw [hdata.frame]
    exact hp
  have hindex : (dataIndex i).val ≤ i := Nat.mod_le i ringbufSize
  obtain ⟨ram, hmap, howned, hfails, hleaf', htable'⟩ := mapWindowPage hdata.owned hr
    ((htable r _ hr (by simp)).trans htop) hstart haligned hend
    (by rw [hleaf r _ hr]; exact hempty) (hpage (dataIndex i) (.inr (by omega)))
  refine ⟨mem', { k1 with ram := ram }, own1, ?_, ⟨hdata.withRam howned hfails, ?_, ?_⟩, hproc,
    hpage⟩
  · rw [mapRing, bind_of_ok halloc, bind_of_ok (get_apply k1)]
    simp only [hproc]
    rw [bind_of_ok (onRam_of_ok hmap), if_neg (not_not.mpr rfl)]
  · intro r' va hr' hva
    rw [hleaf' r' va hr' hva, hleaf r' va hr']
    split
    next hin => rw [page_div hin.2]
    next => rfl
  · intro r' path hr' hlen
    exact (htable' r' path hr' hlen).trans (htable r' path hr' hlen)

/-- The pages after those that were mapped are as before. -/
theorem DataMapped.leaf_later {own1 : Nat → Role} {k1 : KernelState} {lo hi : Nat}
    (h : DataMapped im roots r j newmap start lo hi own own1 k k1) (hr : roots r)
    (hend : start + i * pgSize < maxVA) (hi : hi ≤ i) :
    leaf k1.ram.mem r (start + i * pgSize) = leaf k.ram.mem r (start + i * pgSize) := by
  have hle := Nat.mul_le_mul_right pgSize hi
  rw [h.leaf_eq r _ hr (lt_treeVA hend), if_neg (by omega)]

/-- The pages of an empty window are mapped one after the other. -/
theorem mapRing_spec (h : Owned im own roots k.ram) (hr : roots r)
    (hp : (k.proc p).pagetable = r) (htop : table k.ram.mem r [255, 511] = some nd)
    (hstart : mapStart ≤ start) (haligned : start % pgSize = 0)
    (hend : start + (i + n) * pgSize ≤ maxVA)
    (hempty : ∀ i', i ≤ i' → i' < i + n → leaf k.ram.mem r (start + i' * pgSize) &&& pteV = 0)
    (hpages : ∀ i' : Fin ringbufSize, newmap = false ∨ i'.val < i →
      (k.ringbufs j).bufPA i' < 2 ^ 56) (mem : Nat) :
    ∃ k' own', mapRing im p j newmap start n i mem k = .ok (0, k') ∧
      DataMapped im roots r j newmap start i (i + n) own own' k k' := by
  induction n generalizing i mem own k with
  | zero => exact ⟨k, own, rfl, .refl h⟩
  | succ n ih =>
    obtain ⟨mem', k1, own1, hrun, hstep, hproc, hpages'⟩ := mapRing_succ h hr hp htop
      hstart haligned (page_lt hend (by omega)) (hempty i (Nat.le_refl i) (by omega)) hpages n mem
    obtain ⟨k', own', hrest, hmapped⟩ := ih hstep.alloc.owned hproc
      ((hstep.table_eq r _ hr (by simp)).trans htop)
      (by rw [show i + 1 + n = i + (n + 1) by omega]; exact hend)
      (fun i' hlo hhi => by
        rw [hstep.leaf_later hr (page_lt hend (by omega)) hlo]
        exact hempty i' (by omega) (by omega)) hpages' mem'
    rw [hrun, show i + (n + 1) = i + 1 + n by omega]
    exact ⟨k', own', hrest, hstep.trans hmapped (by omega) (by omega)⟩

/-- A page that is mapped already stops the loop, and the machine. -/
theorem mapRing_remap {m : Nat} (h : Owned im own roots k.ram) (hr : roots r)
    (hp : (k.proc p).pagetable = r) (htop : table k.ram.mem r [255, 511] = some nd)
    (hstart : mapStart ≤ start) (haligned : start % pgSize = 0)
    (hend : start + (i + m) * pgSize < maxVA)
    (hempty : ∀ i', i ≤ i' → i' < i + m → leaf k.ram.mem r (start + i' * pgSize) &&& pteV = 0)
    (hvalid : leaf k.ram.mem r (start + (i + m) * pgSize) &&& pteV ≠ 0)
    (hpages : 0 < m → ∀ i' : Fin ringbufSize, newmap = false ∨ i'.val < i →
      (k.ringbufs j).bufPA i' < 2 ^ 56) (mem : Nat) :
    mapRing im p j newmap start (m + 1 + n) i mem k = .error (.panic "remap") := by
  induction m generalizing i mem own k with
  | zero =>
    rw [Nat.add_zero] at hend hvalid
    obtain ⟨mem', k1, own1, halloc, hdata, hleaf, htable⟩ := allocData_spec h j newmap i mem
    have hproc : (k1.proc p).pagetable = r := by
      rw [hdata.frame]
      exact hp
    have halign : (start + i * pgSize) % pgSize = 0 := by rw [Nat.add_mul_mod_self_right, haligned]
    have hremap : mappages r (start + i * pgSize) pgSize ((k1.ringbufs j).bufPA (dataIndex i))
        ringPerm k1.ram = .error (.panic "remap") := by
      have htop1 : table k1.ram.mem r [255, 511] = some nd := (htable r _ hr (by simp)).trans htop
      rw [mappages_of_table halign hend (table_of_window htop1 (by omega) hend), if_pos]
      rw [hleaf r _ hr]
      exact hvalid
    rw [Nat.zero_add, Nat.add_comm 1 n, mapRing, bind_of_ok halloc, bind_of_ok (get_apply k1)]
    simp only [hproc]
    exact bind_of_error (onRam_of_error hremap)
  | succ m ih =>
    have hle := Nat.mul_le_mul_right pgSize (show i ≤ i + (m + 1) by omega)
    obtain ⟨mem', k1, own1, hrun, hstep, hproc, hpages'⟩ := mapRing_succ h hr hp htop
      hstart haligned (by omega) (hempty i (Nat.le_refl i) (by omega)) (hpages (by omega))
      (m + 1 + n) mem
    have hindex : i + 1 + m = i + (m + 1) := by omega
    rw [show m + 1 + 1 + n = m + 1 + n + 1 by omega, hrun]
    refine ih hstep.alloc.owned hproc ((hstep.table_eq r _ hr (by simp)).trans htop)
      (by rwa [hindex]) (fun i' hlo hhi => ?_) ?_ (fun _ => hpages') mem'
    · have hle' := Nat.mul_le_mul_right pgSize (show i' ≤ i + (m + 1) by omega)
      rw [hstep.leaf_later hr (by omega) hlo]
      exact hempty i' (by omega) (by omega)
    · rw [hindex, hstep.leaf_later hr hend (by omega)]
      exact hvalid

end MapRing

/-- The ring in slot `j` was mapped into the window at `start`, with new pages if
`newmap` is set. -/
structure RingMapped (im : Image) (roots : Nat → Prop) (r : Nat) (j : Slot) (newmap : Bool)
    (start : Nat) (own own' : Nat → Role) (k k' : KernelState) : Prop extends
    RingStep im roots j own own' k k' where
  slot : k'.ringbufs j = { k.ringbufs j with
    bufPA := (k'.ringbufs j).bufPA, vabuf := start, book := (k'.ringbufs j).book }
  old : newmap = false → (k'.ringbufs j).bufPA = (k.ringbufs j).bufPA ∧
    (k'.ringbufs j).book = (k.ringbufs j).book
  data : newmap = true → ∀ i : Fin ringbufSize, (k'.ringbufs j).bufPA i = 0 ∨
    own ((k'.ringbufs j).bufPA i) = .free ∧ own' ((k'.ringbufs j).bufPA i) = .ringData j i
  book : newmap = true → (k'.ringbufs j).book = 0 ∨
    own (k'.ringbufs j).book = .free ∧ own' (k'.ringbufs j).book = .ringBook j
  supply : newmap = true → k.ram.Supplies (ringbufSize + 1) →
    (∀ i, (k'.ringbufs j).bufPA i ≠ 0) ∧ (k'.ringbufs j).book ≠ 0
  leaf_eq : ∀ r' va, roots r' → va < treeVA → leaf k'.ram.mem r' va =
    if r' = r ∧ start ≤ va ∧ va < start + 33 * pgSize then
      mkPte ((k'.ringbufs j).pageAt ((va - start) / pgSize)) ringPerm
    else leaf k.ram.mem r' va
  table_eq : ∀ r' path, roots r' → path.length ≤ 2 →
    table k'.ram.mem r' path = table k.ram.mem r' path

section Mapper

variable {im : Image} {roots : Nat → Prop} {r nd : Nat} {p : ProcId} {j : Slot} {w : Fin 10}
  {newmap : Bool} {own : Nat → Role} {k : KernelState}

theorem processSpaceMapper_none (hp : (k.proc p).pagetable = r)
    (hw : firstWindow k.ram.mem r = none) : processSpaceMapper im p j newmap k = .ok (-1, k) := by
  have hfind : findWindow r 10 mapStart k.ram = .ok (none, k.ram) := by
    rw [findWindow_eq, hw]
    rfl
  rw [processSpaceMapper, bind_of_ok (get_apply k)]
  simp only [hp]
  rw [bind_of_ok (onRam_of_ok hfind)]
  rfl

/-- The book page of the ring in slot `j` was allocated if `newmap` is set. -/
structure BookAlloc (im : Image) (roots : Nat → Prop) (j : Slot) (newmap : Bool)
    (own own' : Nat → Role) (k k' : KernelState) : Prop extends
    RingStep im roots j own own' k k' where
  slot : k'.ringbufs j = { k.ringbufs j with book := (k'.ringbufs j).book }
  old : newmap = false → (k'.ringbufs j).book = (k.ringbufs j).book
  new : newmap = true → (k'.ringbufs j).book = 0 ∨
    own (k'.ringbufs j).book = .free ∧ own' (k'.ringbufs j).book = .ringBook j
  supply : newmap = true → k.ram.Supplies 1 → (k'.ringbufs j).book ≠ 0
  leaf_eq : ∀ r va, roots r → leaf k'.ram.mem r va = leaf k.ram.mem r va
  table_eq : ∀ r path, roots r → path.length ≤ 2 → table k'.ram.mem r path = table k.ram.mem r path

/-- The allocation of the book page always returns and changes no map. -/
theorem allocBook_spec (h : Owned im own roots k.ram) (j : Slot) (newmap : Bool) :
    ∃ k1 own1, allocBook j newmap k = .ok ((), k1) ∧ BookAlloc im roots j newmap own own1 k k1 := by
  cases newmap with
  | false =>
    exact ⟨k, own, rfl, ⟨⟨h, fun _ _ => rfl, fun _ hp => .inl hp, rfl, fun _ _ => rfl⟩, rfl,
      fun _ => rfl, nofun, nofun, fun _ _ _ => rfl, fun _ _ _ _ => rfl⟩⟩
  | true =>
    obtain ⟨f, ram, hrun⟩ := exists_kalloc k.ram
    have heq : allocBook j true k = .ok ((), KernelState.setSlot { k with ram := ram } j
        fun b => { b with book := f }) := by
      rw [allocBook, if_pos rfl, bind_of_ok (onRam_of_ok hrun)]
      rfl
    obtain ⟨own1, hstep, hpage, hleaf, htable⟩ := RingStep.kalloc h hrun (.ringBook j)
      (.inr rfl) (by simp) fun b => { b with book := f }
    exact ⟨_, own1, heq, hstep, by simp, nofun, fun _ => by simpa using hpage,
      fun _ hs => by simpa using (h.supplies_kalloc hs hrun).1, hleaf, htable⟩

/-- The steps of the mapper after it has chosen a window. -/
theorem processSpaceMapper_window (hp : (k.proc p).pagetable = r)
    (hw : firstWindow k.ram.mem r = some w) :
    processSpaceMapper im p j newmap k = (do
      if (← mapRing im p j newmap (window w) 32 0 0) ≠ 0 then
        return -1
      else
        allocBook j newmap
        let k ← get
        if (← onRam (mappages r (window w + 32 * pgSize) pgSize (k.ringbufs j).book ringPerm)) ≠ 0
        then
          throw (Fault.panic "map failed")
        else
          return 0) (k.setSlot j fun b => { b with vabuf := window w }) := by
  have hfind : findWindow r 10 mapStart k.ram = .ok (some (window w), k.ram) := by
    rw [findWindow_eq, hw]
    rfl
  rw [processSpaceMapper, bind_of_ok (get_apply k)]
  simp only [hp]
  rw [bind_of_ok (onRam_of_ok hfind)]
  simp only
  rw [bind_of_ok (modify_apply _ _)]
  rfl

/-- An empty window is filled with the pages of the ring. -/
theorem processSpaceMapper_of_empty (h : Owned im own roots k.ram) (hr : roots r)
    (hp : (k.proc p).pagetable = r) (htop : table k.ram.mem r [255, 511] = some nd)
    (hw : firstWindow k.ram.mem r = some w)
    (hempty : ∀ i < 33, leaf k.ram.mem r (window w + i * pgSize) &&& pteV = 0)
    (hpages : newmap = false → (∀ i, (k.ringbufs j).bufPA i < 2 ^ 56) ∧
      (k.ringbufs j).book < 2 ^ 56) :
    ∃ k' own', processSpaceMapper im p j newmap k = .ok (0, k') ∧
      RingMapped im roots r j newmap (window w) own own' k k' := by
  obtain ⟨haligned, hstart, hend⟩ := window_bounds w
  have htrap : trapframeVA ≤ maxVA := by decide
  have hend' : window w + 33 * pgSize ≤ maxVA := by
    unfold pgSize at *
    omega
  -- The sixteen data pages, twice.
  obtain ⟨k1, own1, hmap, hdata⟩ := mapRing_spec (p := p) (j := j) (n := 32) (i := 0)
    (k := k.setSlot j fun b => { b with vabuf := window w }) h hr hp htop hstart haligned
    (by unfold pgSize at *; omega) (fun i _ hi => hempty i (by omega))
    (fun i hi => by
      rw [KernelState.setSlot_same]
      rcases hi with hi | hi
      · exact (hpages hi).1 i
      · omega) 0
  -- The book page.
  obtain ⟨k2, own2, halloc, hbook⟩ := allocBook_spec hdata.alloc.owned j newmap
  have hlast : window w + 32 * pgSize < maxVA := page_lt hend' (by omega)
  have hleafLast : leaf k2.ram.mem r (window w + 32 * pgSize) &&& pteV = 0 := by
    rw [hbook.leaf_eq r _ hr, hdata.leaf_eq r _ hr (lt_treeVA hlast), if_neg (by omega)]
    exact hempty 32 (by omega)
  have hbookPage : (k2.ringbufs j).book < 2 ^ 56 := by
    cases newmap with
    | false =>
      rw [hbook.old rfl, hdata.alloc.slot, KernelState.setSlot_same]
      exact (hpages rfl).2
    | true =>
      rcases hbook.new rfl with hzero | ⟨-, hrole⟩
      · rw [hzero]
        decide
      · exact (hbook.owned.page _ (by simp [hrole])).lt_pow
  have htop2 : table k2.ram.mem r [255, 511] = some nd :=
    (hbook.table_eq r _ hr (by simp)).trans ((hdata.table_eq r _ hr (by simp)).trans htop)
  obtain ⟨ram, hmapBook, howned, hfails, hleaf, htable⟩ := mapWindowPage hbook.owned hr htop2
    hstart haligned hlast hleafLast hbookPage
  refine ⟨{ k2 with ram := ram }, own2, ?_, ?_⟩
  · rw [processSpaceMapper_window hp hw, bind_of_ok hmap, if_neg (not_not.mpr rfl),
      bind_of_ok halloc, bind_of_ok (get_apply k2), bind_of_ok (onRam_of_ok hmapBook)]
    rfl
  · have hslot : k2.ringbufs j = { k.ringbufs j with
        bufPA := (k2.ringbufs j).bufPA, vabuf := window w, book := (k2.ringbufs j).book } := by
      rw [hbook.slot, hdata.alloc.slot, KernelState.setSlot_same]
    have hbufPA : (k2.ringbufs j).bufPA = (k1.ringbufs j).bufPA := by rw [hbook.slot]
    have hsteps := ((RingStep.setSlot h _).trans hdata.alloc.toRingStep).trans hbook.toRingStep
    refine ⟨hsteps.withRam howned, hslot, ?_, ?_, ?_, ?_, ?_, ?_⟩
    · rintro rfl
      refine ⟨?_, ?_⟩
      · funext i
        rw [hbufPA, hdata.alloc.old i (.inl rfl), KernelState.setSlot_same]
      · rw [hbook.old rfl, hdata.alloc.slot, KernelState.setSlot_same]
    · rintro rfl i
      rw [hbufPA]
      refine (hdata.alloc.new rfl i (Nat.zero_le _) (lt_trans i.isLt (by decide))).imp_right ?_
      rintro ⟨hfree, hrole⟩
      exact ⟨hfree, by rw [hbook.kept _ (by simp [hrole]), hrole]⟩
    · rintro rfl
      refine (hbook.new rfl).imp_right ?_
      rintro ⟨hfree, hrole⟩
      exact ⟨hdata.alloc.free_of_free hfree, hrole⟩
    · rintro rfl hs
      obtain ⟨hdata', hs'⟩ := hdata.alloc.supply rfl 1 hs
      refine ⟨fun i => ?_, hbook.supply rfl hs'⟩
      rw [hbufPA]
      exact hdata' i (Nat.zero_le _) (lt_trans i.isLt (by decide))
    · intro r' va hr' hva
      rw [hleaf r' va hr' hva, hbook.leaf_eq r' va hr', hdata.leaf_eq r' va hr' hva]
      by_cases hbookVA : r' = r ∧ window w + 32 * pgSize ≤ va ∧ va < window w + (32 + 1) * pgSize
      · rw [if_pos hbookVA, if_pos ⟨hbookVA.1, by omega, hbookVA.2.2⟩, page_div hbookVA.2]
        rfl
      · rw [if_neg hbookVA]
        by_cases hdataVA : r' = r ∧ window w + 0 * pgSize ≤ va ∧ va < window w + (0 + 32) * pgSize
        · have hindex : (va - window w) / pgSize < 2 * ringbufSize := by
            rw [Nat.div_lt_iff_lt_mul (by decide)]
            unfold ringbufSize
            omega
          rw [if_pos hdataVA, if_pos ⟨hdataVA.1, by omega, by unfold pgSize at *; omega⟩,
            Ringbuf.pageAt, if_pos hindex, hbufPA]
        · rw [if_neg hdataVA, if_neg]
          · rfl
          · unfold pgSize at *
            omega
    · intro r' path hr' hlen
      rw [htable r' path hr' hlen, hbook.table_eq r' path hr' hlen, hdata.table_eq r' path hr' hlen]
      rfl

/-- A window that looks free, because its first page is not a user page, but has a page that is
mapped stops the machine. -/
theorem processSpaceMapper_remap {i : Nat} (h : Owned im own roots k.ram) (hr : roots r)
    (hp : (k.proc p).pagetable = r) (htop : table k.ram.mem r [255, 511] = some nd)
    (hw : firstWindow k.ram.mem r = some w) (hi : i < 33)
    (hempty : ∀ i' < i, leaf k.ram.mem r (window w + i' * pgSize) &&& pteV = 0)
    (hvalid : leaf k.ram.mem r (window w + i * pgSize) &&& pteV ≠ 0)
    (hpages : 0 < i → newmap = false → ∀ i, (k.ringbufs j).bufPA i < 2 ^ 56) :
    processSpaceMapper im p j newmap k = .error (.panic "remap") := by
  obtain ⟨haligned, hstart, -⟩ := window_bounds w
  have hend : window w + i * pgSize < maxVA := page_lt (window_end_lt w).le hi
  have hbound : 0 < i → ∀ i' : Fin ringbufSize, newmap = false ∨ i'.val < 0 →
      ((k.setSlot j fun b => { b with vabuf := window w }).ringbufs j).bufPA i' < 2 ^ 56 := by
    intro hpos i' hi'
    rw [KernelState.setSlot_same]
    exact hpages hpos (hi'.resolve_right (Nat.not_lt_zero _)) i'
  rw [processSpaceMapper_window hp hw]
  by_cases hdata : i < 32
  · have hrun := mapRing_remap (i := 0) (m := i) (n := 31 - i)
      (k := k.setSlot j fun b => { b with vabuf := window w }) h hr hp htop hstart haligned
      (by rwa [Nat.zero_add]) (fun i' _ hi' => hempty i' (by omega))
      (by rw [Nat.zero_add]; exact hvalid) hbound 0
    rw [show i + 1 + (31 - i) = 32 by omega] at hrun
    exact bind_of_error hrun
  · -- The data pages are mapped; the page of the counters is in the way.
    obtain rfl : i = 32 := by omega
    obtain ⟨k1, own1, hmap, hmapped⟩ := mapRing_spec (n := 32) (i := 0)
      (k := k.setSlot j fun b => { b with vabuf := window w }) h hr hp htop hstart haligned
      hend.le (fun i' _ hi' => hempty i' (by omega)) (hbound (by decide)) 0
    obtain ⟨k2, own2, halloc, hbook⟩ := allocBook_spec hmapped.alloc.owned j newmap
    have htop2 : table k2.ram.mem r [255, 511] = some nd :=
      (hbook.table_eq r _ hr (by simp)).trans ((hmapped.table_eq r _ hr (by simp)).trans htop)
    have halign : (window w + 32 * pgSize) % pgSize = 0 := by
      rw [Nat.add_mul_mod_self_right, haligned]
    have hremap : mappages r (window w + 32 * pgSize) pgSize (k2.ringbufs j).book ringPerm k2.ram =
        .error (.panic "remap") := by
      rw [mappages_of_table halign hend (table_of_window htop2 (by omega) hend), if_pos]
      rw [hbook.leaf_eq r _ hr, hmapped.leaf_later hr hend (by omega)]
      exact hvalid
    rw [bind_of_ok hmap, if_neg (not_not.mpr rfl), bind_of_ok halloc, bind_of_ok (get_apply k2)]
    exact bind_of_error (onRam_of_error hremap)

end Mapper

/-! ## Unmapping a ring -/

/-- The pages of a ring belong to it, but for those that could not be allocated. -/
structure RingOwned (own : Nat → Role) (j : Slot) (b : Ringbuf) : Prop where
  data : ∀ i, b.bufPA i = 0 ∨ own (b.bufPA i) = .ringData j i
  book : b.book = 0 ∨ own b.book = .ringBook j

theorem Ringbuf.exists_pageAt (b : Ringbuf) {p : Nat} :
    (∃ i < 16, b.pageAt i = p) ↔ ∃ i, b.bufPA i = p := by
  constructor
  · rintro ⟨i, hi, hp⟩
    rw [Ringbuf.pageAt, if_pos (lt_trans hi (by decide))] at hp
    exact ⟨dataIndex i, hp⟩
  · rintro ⟨i, hp⟩
    refine ⟨i, i.isLt, ?_⟩
    have hindex : dataIndex i = i := Fin.ext (Nat.mod_eq_of_lt i.isLt)
    rw [Ringbuf.pageAt, if_pos (lt_trans i.isLt (by decide)), hindex, hp]

/-- All pages of a ring could be allocated. -/
def Ringbuf.Backed (b : Ringbuf) : Prop := (∀ i, b.bufPA i ≠ 0) ∧ b.book ≠ 0

instance (b : Ringbuf) : Decidable b.Backed := inferInstanceAs (Decidable (_ ∧ _))

/-- The role of a page of a window. -/
def ringRole (j : Slot) (i : Nat) : Role :=
  if i < 2 * ringbufSize then .ringData j (dataIndex i) else .ringBook j

namespace RingOwned

variable {own : Nat → Role} {j : Slot} {b : Ringbuf}

theorem pageAt (h : RingOwned own j b) (i : Nat) :
    b.pageAt i = 0 ∨ own (b.pageAt i) = ringRole j i := by
  unfold Ringbuf.pageAt ringRole
  split
  next => exact h.data _
  next => exact h.book

theorem congr {own' : Nat → Role} {b' : Ringbuf} (h : RingOwned own j b)
    (hpages : b'.bufPA = b.bufPA ∧ b'.book = b.book)
    (hown : ∀ p, (own p).IsRing j → own' p = own p) : RingOwned own' j b' := by
  refine ⟨fun i => ?_, ?_⟩
  · rw [hpages.1]
    refine (h.data i).imp_right fun hrole => ?_
    rw [hown _ (.inl ⟨i, hrole⟩), hrole]
  · rw [hpages.2]
    refine h.book.imp_right fun hrole => ?_
    rw [hown _ (.inr hrole), hrole]

variable {im : Image} {roots : Nat → Prop} {s : Ram}

section

variable (h : RingOwned own j b) (hs : Owned im own roots s)
include h hs

theorem isData {i : Nat} (hi : b.pageAt i ≠ 0) : IsData im own (b.pageAt i) := by
  have hrole := (h.pageAt i).resolve_left hi
  unfold ringRole at hrole
  split at hrole
  next => exact ⟨hs.page _ (by simp [hrole]), by simp [hrole], by simp [hrole]⟩
  next => exact ⟨hs.page _ (by simp [hrole]), by simp [hrole], by simp [hrole]⟩

theorem data_lt (i : Fin ringbufSize) : b.bufPA i < 2 ^ 56 := by
  rcases h.data i with hzero | hrole
  · rw [hzero]
    decide
  · exact (hs.page _ (by simp [hrole])).lt_pow

theorem book_lt : b.book < 2 ^ 56 := by
  rcases h.book with hzero | hrole
  · rw [hzero]
    decide
  · exact (hs.page _ (by simp [hrole])).lt_pow

theorem pte2pa_pageAt (i : Nat) : pte2pa (mkPte (b.pageAt i) ringPerm) = b.pageAt i := by
  by_cases hi : b.pageAt i = 0
  · rw [hi, pte2pa_mkPte ringPerm_lt (by decide) (by decide)]
  · have hpage := (h.isData hs hi).page
    exact pte2pa_mkPte ringPerm_lt hpage.aligned hpage.lt_pow

end

/-- The sixteen data pages and the book page are different pages. -/
theorem pageAt_inj (h : RingOwned own j b) {i i' : Nat}
    (hi : i < ringbufSize ∨ i = 2 * ringbufSize) (hi' : i' < ringbufSize ∨ i' = 2 * ringbufSize)
    (heq : b.pageAt i = b.pageAt i') (hnull : b.pageAt i ≠ 0) : i = i' := by
  have hrole := (h.pageAt i).resolve_left hnull
  rw [heq, (h.pageAt i').resolve_left (heq ▸ hnull)] at hrole
  unfold ringRole dataIndex at hrole
  split at hrole
  next hlt =>
    split at hrole
    next hlt' =>
      simp only [Role.ringData.injEq, true_and] at hrole
      rw [Nat.mod_eq_of_lt (by omega), Nat.mod_eq_of_lt (by omega)] at hrole
      exact hrole.symm
    next => cases hrole
  next hge =>
    split at hrole
    next => cases hrole
    next hge' => omega

end RingOwned

theorem ringPerm_isLeaf : IsLeafPerm ringPerm := ⟨by decide, by decide⟩

/-- What unmapping a ring does: the window becomes empty and, if this was the last use of the
ring, its pages go to the allocator. -/
structure RingUnmapped (im : Image) (roots : Nat → Prop) (r start : Nat) (b : Ringbuf)
    (last : Bool) (own own' : Nat → Role) (s t : Ram) : Prop where
  owned : Owned im own' roots t
  leaf_eq : ∀ r' va, roots r' → va < treeVA → leaf t.mem r' va =
    if r' = r ∧ start ≤ va ∧ va < start + 33 * pgSize then 0 else leaf s.mem r' va
  own_eq : ∀ p, own' p = if last = true ∧ ((∃ i, b.bufPA i = p) ∨ b.book = p) then .free else own p

section UnmapRing

variable {im : Image} {roots : Nat → Prop} {r va : Nat} {j : Slot} {w : Fin 10} {b : Ringbuf}
  {last : Bool} {own : Nat → Role} {s : Ram}

/-- Unmapping single pages one after the other unmaps a range. -/
theorem unmapEach_eq {doFree : Bool} {n : Nat} (h : va % pgSize = 0) :
    unmapEach im r doFree n va = unmapLoop im r doFree n va := by
  induction n generalizing va with
  | zero => rfl
  | succ n ih =>
    have hnext : (va + pgSize) % pgSize = 0 := by rw [Nat.add_mod_right, h]
    rw [unmapEach, unmapLoop, ih hnext, uvmunmap, if_neg (by simp [h]), unmapLoop]
    simp [unmapLoop]

theorem unmapRing_eq (h : va % pgSize = 0) :
    unmapRing im r last va = (do
      unmapLoop im r last 16 va
      unmapLoop im r false 16 (va + 16 * pgSize)
      unmapLoop im r last 1 (va + 32 * pgSize)) := by
  have h16 : (va + 16 * pgSize) % pgSize = 0 := by rw [Nat.add_mul_mod_self_right, h]
  have h32 : (va + 32 * pgSize) % pgSize = 0 := by rw [Nat.add_mul_mod_self_right, h]
  rw [unmapRing, show 2 * ringbufSize = 32 from rfl, unmapEach_eq h, unmapEach_eq h16, uvmunmap,
    if_neg (by simpa using h32)]

/-- The data pages of a mapped window are unmapped, both times. -/
theorem unmapData_spec (last : Bool) (h : Owned im own roots s) (hr : roots r)
    (hleaf : ∀ i < 33, leaf s.mem r (window w + i * pgSize) = mkPte (b.pageAt i) ringPerm)
    (hb : RingOwned own j b) (hbacked : last = true → ∀ i, b.bufPA i ≠ 0) :
    ∃ t own', (do
      unmapLoop im r last 16 (window w)
      unmapLoop im r false 16 (window w + 16 * pgSize)) s = .ok ((), t) ∧ Owned im own' roots t ∧
      (∀ r' va, roots r' → va < treeVA → leaf t.mem r' va =
        if r' = r ∧ window w ≤ va ∧ va < window w + 32 * pgSize then 0 else leaf s.mem r' va) ∧
      ∀ p, own' p = if last = true ∧ ∃ i, b.bufPA i = p then .free else own p := by
  obtain ⟨haligned, -, hend⟩ := window_bounds w
  have hmax := window_end_lt w
  have hsome : last = true → ∀ i < 16, b.pageAt i ≠ 0 := fun hlast i hi hi0 =>
    (b.exists_pageAt.mp ⟨i, hi, hi0⟩).elim (hbacked hlast)
  obtain ⟨s1, own1, hrun1, h1⟩ := h.unmapLoop hr last 16 (window w) b.pageAt
    (by unfold pgSize at *; omega)
    (fun i hi => ⟨ringPerm, ringPerm_isLeaf, hleaf i (by omega)⟩)
    (fun hlast i hi => hb.isData h (hsome hlast i hi))
    (fun hlast i hi i' hi' heq => hb.pageAt_inj (.inl hi) (.inl hi') heq (hsome hlast i hi))
    haligned
  obtain ⟨s2, own2, hrun2, h2⟩ := h1.owned.unmapLoop hr false 16 (window w + 16 * pgSize)
    (fun i => b.pageAt (16 + i)) (by unfold pgSize at *; omega)
    (fun i hi => ⟨ringPerm, ringPerm_isLeaf, by
      have hpage : window w + 16 * pgSize + i * pgSize = window w + (16 + i) * pgSize := by
        rw [Nat.add_mul]
        omega
      rw [hpage, h1.leaf_eq r _ hr (lt_treeVA (page_lt hmax.le (by omega))),
        if_neg (by unfold pgSize; omega)]
      exact hleaf _ (by omega)⟩) (by simp) (by simp)
    (by rw [Nat.add_mul_mod_self_right, haligned])
  refine ⟨s2, own2, ?_, h2.owned, ?_, ?_⟩
  · rw [bind_of_ok hrun1, hrun2]
  · intro r' va hr' hva
    have hrange : (r' = r ∧ window w ≤ va ∧ va < window w + 32 * pgSize) ↔
        (r' = r ∧ window w + 16 * pgSize ≤ va ∧ va < window w + 16 * pgSize + 16 * pgSize) ∨
        (r' = r ∧ window w ≤ va ∧ va < window w + 16 * pgSize) := by
      unfold pgSize
      omega
    rw [h2.leaf_eq r' va hr' hva, h1.leaf_eq r' va hr' hva, if_congr hrange rfl rfl]
    split
    next hsecond => rw [if_pos (.inl hsecond)]
    next hsecond =>
      split
      next hfirst => rw [if_pos (.inr hfirst)]
      next hfirst => rw [if_neg (not_or.mpr ⟨hsecond, hfirst⟩)]
  · intro p
    rw [h2.own_eq p, if_neg (by simp), h1.own_eq p]
    exact if_congr (and_congr_right fun _ => b.exists_pageAt) rfl rfl

variable (h : Owned im own roots s) (hr : roots r)
  (hleaf : ∀ i < 33, leaf s.mem r (window w + i * pgSize) = mkPte (b.pageAt i) ringPerm)
  (hb : RingOwned own j b)
include h hr hleaf hb

theorem unmapRing_spec (hbacked : last = true → b.Backed) :
    ∃ t own', unmapRing im r last (window w) s = .ok ((), t) ∧
      RingUnmapped im roots r (window w) b last own own' s t := by
  have haligned := (window_bounds w).1
  have hbook : window w + 32 * pgSize < maxVA := page_lt (window_end_lt w).le (by omega)
  obtain ⟨s1, own1, hrun1, h1, hleaf1, hown1⟩ :=
    unmapData_spec last h hr hleaf hb fun hlast => (hbacked hlast).1
  have hkept : last = true → own1 b.book = own b.book := by
    intro hlast
    rw [hown1, if_neg]
    rintro ⟨-, i, hi⟩
    have hdata := (hb.data i).resolve_left ((hbacked hlast).1 i)
    rw [hi, (hb.book).resolve_left (hbacked hlast).2] at hdata
    cases hdata
  obtain ⟨t, hrun, hset⟩ := h1.unmapPage hr last b.book hbook ringPerm_isLeaf
    (by
      rw [hleaf1 r _ hr (lt_treeVA hbook), if_neg (by omega)]
      exact hleaf 32 (by omega))
    (fun hlast => by
      have hdata : IsData im own b.book := hb.isData h (i := 32) (hbacked hlast).2
      exact ⟨hdata.page, hkept hlast ▸ hdata.not_free,
        fun r path => hkept hlast ▸ hdata.not_node r path⟩)
  refine ⟨t, _, ?_, hset.owned, ?_, ?_⟩
  · rw [unmapRing_eq haligned, ← bind_assoc, bind_of_ok hrun1, unmapLoop, bind_of_ok hrun]
    rfl
  · intro r' va hr' hva
    have hrange : (r' = r ∧ window w ≤ va ∧ va < window w + 33 * pgSize) ↔
        (r' = r ∧ va / pgSize = (window w + 32 * pgSize) / pgSize) ∨
        (r' = r ∧ window w ≤ va ∧ va < window w + 32 * pgSize) := by
      unfold pgSize at *
      omega
    rw [hset.leaf_eq r' va hr' hva, hleaf1 r' va hr' hva, if_congr hrange rfl rfl]
    split
    next hsecond => rw [if_pos (.inl hsecond)]
    next hsecond =>
      split
      next hfirst => rw [if_pos (.inr hfirst)]
      next hfirst => rw [if_neg (not_or.mpr ⟨hsecond, hfirst⟩)]
  · intro p
    cases last with
    | false => rw [if_neg (by simp), if_neg (by simp), hown1, if_neg (by simp)]
    | true =>
      by_cases hp : b.book = p
      · rw [if_pos rfl, if_pos ⟨rfl, .inr hp⟩, ← hp, update_self]
      · rw [if_pos rfl, update_of_ne (Ne.symm hp), hown1]
        simp [hp]

theorem unmapRing_null (hnull : ¬b.Backed) : ∃ e, unmapRing im r true (window w) s = .error e := by
  have haligned := (window_bounds w).1
  have hmax := window_end_lt w
  rw [unmapRing_eq haligned]
  by_cases hdata : ∃ i < 16, b.pageAt i = 0
  · obtain ⟨e, he⟩ := h.unmapLoop_null hr 16 (window w) b.pageAt
      (by unfold pgSize at *; omega)
      (fun i hi => ⟨ringPerm, ringPerm_isLeaf, hleaf i (by omega)⟩)
      (fun i _ => (em (b.pageAt i = 0)).imp_right fun hi => hb.isData h hi)
      (fun i hi i' hi' heq hne => hb.pageAt_inj (.inl hi) (.inl hi') heq hne) hdata haligned
    exact ⟨e, bind_of_error he⟩
  · -- All data pages are there, so the book page is not.
    have hsome : ∀ i, b.bufPA i ≠ 0 := fun i hi => hdata (b.exists_pageAt.mpr ⟨i, hi⟩)
    have hbook : b.book = 0 := by
      by_contra hbook
      exact hnull ⟨hsome, hbook⟩
    have hlt : window w + 32 * pgSize < maxVA := page_lt hmax.le (by omega)
    obtain ⟨s1, own1, hrun1, -, hleaf1, -⟩ := unmapData_spec true h hr hleaf hb fun _ => hsome
    obtain ⟨e, he⟩ : ∃ e, unmapPage im r true (window w + 32 * pgSize) s1 = .error e := by
      refine unmapPage_null hlt ringPerm_lt ?_
      rw [hleaf1 r _ hr (lt_treeVA hlt), if_neg (by omega), ← hbook]
      exact hleaf 32 (by omega)
    refine ⟨e, ?_⟩
    rw [← bind_assoc, bind_of_ok hrun1, unmapLoop, bind_of_error he]

end UnmapRing

end Kernel
end FastIpc
