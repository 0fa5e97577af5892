import FastIpc.Kernel.Windows

/-!
# Address spaces

The address space of a process is user memory from address 0 on, the ten windows, the
trap frame and the trap code; everything else is unmapped.  Which windows show which
rings is the record of the rings' holders.  `Spaces` says this of all processes at
once, together with the owner of every physical page.

Main results:

- Theorem `Spaces.map`: mapping a ring into a free window adds a holder.
- Theorem `Spaces.unmap`: unmapping the window of a holder removes it.
-/

namespace FastIpc
namespace Kernel

open Foundation

/-! ## Parts of an address space -/

/-- The entry of a page belongs to all its addresses. -/
theorem leaf_eq_of_page {m : Memory} {r va va' : Nat} (h : va / pgSize = va' / pgSize) :
    leaf m r va = leaf m r va' := by
  rw [leaf, leaf, px_congr h, px_congr h, px_congr h]

/-- An address below `maxVA` is a user address or lies in a window or a trap page. -/
theorem exists_part {va : Nat} (hva : va < maxVA) :
    va < mapStart ∨ (∃ (w : Fin 10) (i : Nat), i < 34 ∧
      va / pgSize = (window w + i * pgSize) / pgSize) ∨
      va / pgSize = trapframeVA / pgSize ∨ va / pgSize = trampolineVA / pgSize := by
  rw [maxVA_eq] at hva
  by_cases hlow : va < mapStart
  · exact .inl hlow
  by_cases hwin : va < trapframeVA
  · refine .inr (.inl ?_)
    rw [mapStart_eq] at hlow
    rw [trapframeVA_eq] at hwin
    refine ⟨⟨(va - (2 ^ 38 - 342 * 4096)) / (34 * 4096), by omega⟩,
      (va - (2 ^ 38 - 342 * 4096)) % (34 * 4096) / 4096, by omega, ?_⟩
    rw [window_eq]
    unfold pgSize
    simp only
    omega
  · refine .inr (.inr ?_)
    rw [trapframeVA_eq] at hwin
    rw [trapframeVA_eq, trampolineVA_eq]
    unfold pgSize
    omega

/-- The pages that `sz` bytes of user memory take. -/
def userPages (sz : Nat) : Nat := pgRoundUp sz / pgSize

theorem userPages_mul (n : Nat) : userPages (n * pgSize) = n := by
  unfold userPages pgRoundUp pgSize
  omega

theorem pgRoundUp_eq (sz : Nat) : pgRoundUp sz = userPages sz * pgSize := by
  unfold userPages pgRoundUp pgSize
  omega

theorem userPages_eq (sz : Nat) : userPages sz = (sz + pgSize - 1) / pgSize := by
  unfold userPages pgRoundUp pgSize
  omega

theorem userPages_mono {sz sz' : Nat} (h : sz ≤ sz') : userPages sz ≤ userPages sz' := by
  unfold userPages pgRoundUp pgSize
  omega

/-- User memory of the page table at `r`: `n` pages of its own from address 0 on, and nothing behind
them below `limit`. -/
structure UserMem (own : Nat → Role) (m : Memory) (r n limit : Nat) : Prop where
  fits : n * pgSize ≤ limit
  user : ∀ va < n * pgSize, ∃ pa perm, IsLeafPerm perm ∧ leaf m r va = mkPte pa perm ∧
    own pa = .user r (va / pgSize)
  bound : ∀ pa i, own pa = .user r i → i < n
  unique : ∀ pa pa' i, own pa = .user r i → own pa' = .user r i → pa = pa'
  gap : ∀ va, n * pgSize ≤ va → va < limit → leaf m r va = 0

/-- A change elsewhere leaves user memory alone. -/
theorem UserMem.congr {own own' : Nat → Role} {m m' : Memory} {r n limit : Nat}
    (h : UserMem own m r n limit) (hleaf : ∀ va < limit, leaf m' r va = leaf m r va)
    (hown : ∀ pa i, own pa = .user r i ↔ own' pa = .user r i) : UserMem own' m' r n limit where
  fits := h.fits
  user va hva := by
    obtain ⟨pa, perm, hperm, hpa, hrole⟩ := h.user va hva
    exact ⟨pa, perm, hperm, by rw [hleaf va (lt_of_lt_of_le hva h.fits), hpa], (hown _ _).mp hrole⟩
  bound pa i hpa := h.bound pa i ((hown pa i).mpr hpa)
  unique pa pa' i hpa hpa' := h.unique pa pa' i ((hown pa i).mpr hpa) ((hown pa' i).mpr hpa')
  gap va hlo hhi := by rw [hleaf va hhi, h.gap va hlo hhi]

/-- An address space: `n` pages of user memory, the windows as `shown`, the trap
frame and the trap code. -/
structure Space (im : Image) (own : Nat → Role) (m : Memory) (r n trapframe : Nat)
    (shown : Fin 10 → Nat → Nat) : Prop extends UserMem own m r n mapStart where
  windows : ∀ w i, i < 34 → leaf m r (window w + i * pgSize) = shown w i
  trapframe : leaf m r trapframeVA = mkPte trapframe (pteR ||| pteW)
  trampoline : leaf m r trampolineVA = mkPte im.trampoline (pteR ||| pteX)
  upper : ∀ va, maxVA ≤ va → va < treeVA → leaf m r va = 0

namespace Space

variable {im : Image} {own own' : Nat → Role} {m m' : Memory} {r n trapframe : Nat}
  {shown shown' : Fin 10 → Nat → Nat}

variable (h : Space im own m r n trapframe shown)
include h

/-- A change outside an address space leaves it alone. -/
theorem congr (hleaf : ∀ va < treeVA, leaf m' r va = leaf m r va)
    (hown : ∀ pa va, own pa = .user r va ↔ own' pa = .user r va)
    (hshown : ∀ w i, i < 34 → shown' w i = shown w i) : Space im own' m' r n trapframe shown' where
  toUserMem := h.toUserMem.congr
    (fun va hva => hleaf va (lt_treeVA (lt_of_lt_of_le hva (by decide)))) hown
  windows w i hi := by
    have hend := (window_bounds w).2.2
    have htrap : trapframeVA < maxVA := by decide
    rw [hleaf _ (lt_treeVA (lt_trans (page_lt hend hi) htrap)), h.windows w i hi, hshown w i hi]
  trapframe := by rw [hleaf _ (by decide), h.trapframe]
  trampoline := by rw [hleaf _ (by decide), h.trampoline]
  upper va hlo hhi := by rw [hleaf va hhi, h.upper va hlo hhi]

theorem setWindow (w : Fin 10) (entry : Nat → Nat)
    (hleaf : ∀ va < treeVA, leaf m' r va = if window w ≤ va ∧ va < window w + 33 * pgSize then
      entry ((va - window w) / pgSize) else leaf m r va)
    (hown : ∀ pa va, own pa = .user r va ↔ own' pa = .user r va)
    (hshown : ∀ w' i, i < 34 → shown' w' i = if w' = w ∧ i < 33 then entry i else shown w' i) :
    Space im own' m' r n trapframe shown' := by
  obtain ⟨-, hstart, hend⟩ := window_bounds w
  have htrap : trapframeVA < maxVA := by decide
  have hpos : 0 < pgSize := by decide
  -- Everything but the window is as before.
  have hout : ∀ va < treeVA, va < mapStart ∨ trapframeVA ≤ va → leaf m' r va = leaf m r va := by
    intro va hva hpart
    rw [hleaf va hva, if_neg (by omega)]
  refine ⟨h.toUserMem.congr (fun va hva => hout va (lt_treeVA (by omega)) (.inl hva)) hown,
    ?_, ?_, ?_, ?_⟩
  · intro w' i hi
    have hlt : window w' + i * pgSize < treeVA :=
      lt_treeVA (lt_trans (page_lt (window_bounds w').2.2 hi) htrap)
    rw [hleaf _ hlt, hshown w' i hi]
    by_cases hin : w' = w ∧ i < 33
    · obtain ⟨rfl, hi'⟩ := hin
      have hpage : window w' + i * pgSize < window w' + 33 * pgSize := by
        unfold pgSize
        omega
      rw [if_pos ⟨by omega, hpage⟩, if_pos ⟨rfl, hi'⟩, Nat.add_sub_cancel_left,
        Nat.mul_div_cancel i hpos]
    · rw [if_neg hin, if_neg, h.windows w' i hi]
      intro hrange
      apply hin
      rw [window_eq, window_eq] at hrange
      unfold pgSize at hrange
      have hw : w'.val = w.val := by omega
      exact ⟨Fin.ext hw, by omega⟩
  · rw [hout _ (by decide) (.inr le_rfl), h.trapframe]
  · rw [hout _ (by decide) (.inr (by decide)), h.trampoline]
  · intro va hlo hhi
    rw [hout va hhi (.inr (by omega)), h.upper va hlo hhi]

theorem exists_top : ∃ nd, table m r [255, 511] = some nd := by
  have hvalid : leaf m r trapframeVA &&& pteV ≠ 0 := by
    rw [h.trapframe]
    exact mkPte_valid (by decide)
  obtain ⟨nd, hnd⟩ := exists_table_of_valid (s := ⟨m, 0, []⟩) hvalid
  refine ⟨nd, ?_⟩
  have hlow : mapStart ≤ trapframeVA := by decide
  obtain ⟨h2, h1⟩ := px_of_window hlow (by decide)
  rwa [h2, h1] at hnd

/-- The pages user code may touch are user memory and the pages of the windows. -/
theorem userPage_cases (hpage : ∀ p, own p ≠ .kernel → IsPage im p) {va : Nat}
    (hva : userPage m r va ≠ 0) :
    own (userPage m r va) = .user r (va / pgSize) ∨ ∃ w i, i < 34 ∧
      shown w i &&& pteV ≠ 0 ∧ userPage m r va = pte2pa (shown w i) := by
  unfold userPage at hva ⊢
  split
  next hmax => simp [hmax] at hva
  next hmax =>
    split
    next hv => simp [hmax, hv] at hva
    next hv =>
      split
      next hu => simp [hmax, hv, hu] at hva
      next hu =>
        rcases exists_part (Nat.lt_of_not_le hmax) with hlow | ⟨w, i, hi, hpart⟩ | hpart | hpart
        · by_cases hsz : va < n * pgSize
          · obtain ⟨pa, perm, hperm, hpa, hrole⟩ := h.user va hsz
            have hpa' := hpage pa (by simp [hrole])
            rw [hpa, pte2pa_mkPte hperm.1 hpa'.aligned hpa'.lt_pow]
            exact .inl hrole
          · rw [h.gap va (Nat.le_of_not_lt hsz) hlow] at hv
            exact (hv rfl).elim
        · rw [leaf_eq_of_page hpart, h.windows w i hi] at hv ⊢
          exact .inr ⟨w, i, hi, hv, rfl⟩
        -- The trap pages are not accessible to user code.
        · rw [leaf_eq_of_page hpart, h.trapframe, mkPte_and (by decide) (by decide)] at hu
          exact (hu (by decide)).elim
        · rw [leaf_eq_of_page hpart, h.trampoline, mkPte_and (by decide) (by decide)] at hu
          exact (hu (by decide)).elim

end Space

/-! ## Holders of rings -/

/-- An end of a ring that a process holds: the name it used, the ring's slot and the
window the ring is mapped into. -/
structure Holding where
  proc : ProcId
  name : CString
  ringEnd : RingEnd
  slot : Slot
  window : Fin 10
  deriving DecidableEq

/-- The end a process holds in a window. -/
def heldAt (holds : List Holding) (p : ProcId) (w : Fin 10) : Option Holding :=
  holds.find? fun h => h.proc = p ∧ h.window = w

/-- The entry of page `i` of a window. -/
def windowEntry (holds : List Holding) (ringbufs : Slot → Ringbuf) (p : ProcId) (w : Fin 10)
    (i : Nat) : Nat :=
  match heldAt holds p w with
  | some h => if i < 33 then mkPte ((ringbufs h.slot).pageAt i) ringPerm else 0
  | none => 0

/-- A process's windows differ. -/
def WindowsApart (holds : List Holding) : Prop :=
  ∀ h ∈ holds, ∀ h' ∈ holds, h.proc = h'.proc → h.window = h'.window → h = h'

section HeldAt

variable {holds : List Holding} {ringbufs ringbufs' : Slot → Ringbuf} {h : Holding} {p : ProcId}
  {w : Fin 10} {i : Nat}

theorem mem_of_heldAt (hat : heldAt holds p w = some h) :
    h ∈ holds ∧ h.proc = p ∧ h.window = w := by
  have hprop := List.find?_some hat
  simp only [decide_eq_true_eq] at hprop
  exact ⟨List.mem_of_find?_eq_some hat, hprop⟩

theorem heldAt_eq_some (hapart : WindowsApart holds) (hmem : h ∈ holds) :
    heldAt holds h.proc h.window = some h := by
  cases hat : heldAt holds h.proc h.window with
  | none =>
    have := List.find?_eq_none.mp hat h hmem
    simp at this
  | some h' =>
    obtain ⟨hmem', hproc, hwindow⟩ := mem_of_heldAt hat
    rw [hapart h' hmem' h hmem hproc hwindow]

theorem WindowsApart.cons (hapart : WindowsApart holds)
    (hat : heldAt holds h.proc h.window = none) : WindowsApart (h :: holds) := by
  have hnone : ∀ a ∈ holds, a.proc = h.proc → a.window ≠ h.window := by
    intro a ha hproc hwindow
    have := List.find?_eq_none.mp hat a ha
    simp [hproc, hwindow] at this
  intro a ha b hb hproc hwindow
  rcases List.mem_cons.mp ha with rfl | ha'
  · rcases List.mem_cons.mp hb with rfl | hb'
    · rfl
    · exact (hnone b hb' hproc.symm hwindow.symm).elim
  · rcases List.mem_cons.mp hb with rfl | hb'
    · exact (hnone a ha' hproc hwindow).elim
    · exact hapart a ha' b hb' hproc hwindow

theorem heldAt_cons :
    heldAt (h :: holds) p w = if h.proc = p ∧ h.window = w then some h else heldAt holds p w := by
  unfold heldAt
  rw [List.find?_cons]
  split
  next hmatch => rw [if_pos (by simpa using hmatch)]
  next hmatch => rw [if_neg (by simpa using hmatch)]

theorem heldAt_erase (hnodup : holds.Nodup) (hapart : WindowsApart holds) (hmem : h ∈ holds) :
    heldAt (holds.erase h) p w = if h.proc = p ∧ h.window = w then none else heldAt holds p w := by
  split
  next hmatch =>
    refine List.find?_eq_none.mpr fun h' hmem' => ?_
    simp only [decide_eq_true_eq]
    rintro ⟨hproc, hwindow⟩
    obtain ⟨hne, hmem'⟩ := (hnodup.mem_erase_iff).mp hmem'
    exact hne (hapart h' hmem' h hmem (hproc.trans hmatch.1.symm)
      (hwindow.trans hmatch.2.symm))
  next hmatch =>
    cases hat : heldAt holds p w with
    | none =>
      exact List.find?_eq_none.mpr fun h' hmem' =>
        List.find?_eq_none.mp hat h' (List.mem_of_mem_erase hmem')
    | some h' =>
      obtain ⟨hmem', hproc, hwindow⟩ := mem_of_heldAt hat
      have hne : h' ≠ h := by
        rintro rfl
        exact hmatch ⟨hproc, hwindow⟩
      have hapart' : WindowsApart (holds.erase h) := fun a ha b hb =>
        hapart a (List.mem_of_mem_erase ha) b (List.mem_of_mem_erase hb)
      rw [← hproc, ← hwindow]
      exact heldAt_eq_some hapart' ((hnodup.mem_erase_iff).mpr ⟨hne, hmem'⟩)

/-- The windows show the pages of the held rings only. -/
theorem windowEntry_congr (hsame : ∀ h ∈ holds,
    (ringbufs' h.slot).bufPA = (ringbufs h.slot).bufPA ∧
      (ringbufs' h.slot).book = (ringbufs h.slot).book) :
    windowEntry holds ringbufs' p w i = windowEntry holds ringbufs p w i := by
  unfold windowEntry
  cases hat : heldAt holds p w with
  | none => rfl
  | some h =>
    obtain ⟨hdata, hbook⟩ := hsame h (mem_of_heldAt hat).1
    simp only [Ringbuf.pageAt, hdata, hbook]

theorem windowEntry_erase (hnodup : holds.Nodup) (hapart : WindowsApart holds) (hmem : h ∈ holds)
    (hne : ¬(h.proc = p ∧ h.window = w)) :
    windowEntry (holds.erase h) ringbufs p w i = windowEntry holds ringbufs p w i := by
  rw [windowEntry, windowEntry, heldAt_erase hnodup hapart hmem, if_neg hne]

end HeldAt

/-! ## All address spaces -/

/-- The page tables in use. -/
def IsRoot (proc : ProcId → Proc) (r : Nat) : Prop := r ≠ 0 ∧ ∃ p, (proc p).pagetable = r

/-- The processes have the same page tables, sizes and trap frames. -/
def SameSpaces (proc proc' : ProcId → Proc) : Prop :=
  ∀ p, (proc' p).pagetable = (proc p).pagetable ∧ (proc' p).sz = (proc p).sz ∧
    (proc' p).trapframe = (proc p).trapframe

theorem SameSpaces.isRoot_eq {proc proc' : ProcId → Proc} (h : SameSpaces proc proc') :
    IsRoot proc' = IsRoot proc := by
  funext r
  simp only [IsRoot, fun p => (h p).1]

/-- A change of one process that leaves those fields alone. -/
theorem sameSpaces_setProc (k : KernelState) (p : ProcId) {f : Proc → Proc}
    (hf : ∀ q, (f q).pagetable = q.pagetable ∧ (f q).sz = q.sz ∧ (f q).trapframe = q.trapframe) :
    SameSpaces k.proc (k.setProc p f).proc := by
  intro q
  by_cases hq : q = p
  · subst hq
    rw [KernelState.setProc_same]
    exact hf _
  · rw [KernelState.setProc_ne _ _ _ hq]
    exact ⟨rfl, rfl, rfl⟩

/-- All processes have address spaces, and every page one owner. -/
structure Spaces (im : Image) (own : Nat → Role) (holds : List Holding) (k : KernelState) :
    Prop where
  owned : Owned im own (IsRoot k.proc) k.ram
  root_inj : ∀ p q, (k.proc p).pagetable ≠ 0 → (k.proc p).pagetable = (k.proc q).pagetable → p = q
  space : ∀ p, (k.proc p).pagetable ≠ 0 → Space im own k.ram.mem (k.proc p).pagetable
    (userPages (k.proc p).sz) (k.proc p).trapframe (windowEntry holds k.ringbufs p)
  trapframe : ∀ p, (k.proc p).pagetable ≠ 0 → own (k.proc p).trapframe = .trapframe p
  rooted : Rooted own (IsRoot k.proc)
  /-- Every page with the role of a trap frame is one. -/
  trapframe_only : ∀ pa (i : Nat), own pa = .trapframe i →
    ∃ p : ProcId, p.val = i ∧ (k.proc p).pagetable ≠ 0 ∧ (k.proc p).trapframe = pa
  held_root : ∀ h ∈ holds, (k.proc h.proc).pagetable ≠ 0
  held_window : WindowsApart holds
  held_pages : ∀ h ∈ holds, RingOwned own h.slot (k.ringbufs h.slot)

namespace Spaces

variable {im : Image} {own own' : Nat → Role} {holds : List Holding} {k k' : KernelState}
  {p : ProcId} {w : Fin 10}

theorem isRoot (hp : (k.proc p).pagetable ≠ 0) : IsRoot k.proc (k.proc p).pagetable := ⟨hp, p, rfl⟩

section

variable (h : Spaces im own holds k)
include h

theorem leaf_of_none (hp : (k.proc p).pagetable ≠ 0) (hat : heldAt holds p w = none) {i : Nat}
    (hi : i < 34) : leaf k.ram.mem (k.proc p).pagetable (window w + i * pgSize) = 0 := by
  rw [(h.space p hp).windows w i hi, windowEntry, hat]

theorem leaf_of_mem {a : Holding} (ha : a ∈ holds) {i : Nat} (hi : i < 33) :
    leaf k.ram.mem (k.proc a.proc).pagetable (window a.window + i * pgSize) =
      mkPte ((k.ringbufs a.slot).pageAt i) ringPerm := by
  rw [(h.space a.proc (h.held_root a ha)).windows a.window i (by omega), windowEntry,
    heldAt_eq_some h.held_window ha]
  simp [hi]

theorem isData (hp : (k.proc p).pagetable ≠ 0) {va : Nat}
    (hva : userPage k.ram.mem (k.proc p).pagetable va ≠ 0) :
    IsData im own (userPage k.ram.mem (k.proc p).pagetable va) := by
  rcases (h.space p hp).userPage_cases h.owned.page hva with hrole | ⟨w, i, hi, hv, hpa⟩
  · exact ⟨h.owned.page _ (by simp [hrole]), by simp [hrole], by simp [hrole]⟩
  · rw [hpa] at hva ⊢
    unfold windowEntry at hv hva ⊢
    split at hv
    next a hat =>
      have ha := (mem_of_heldAt hat).1
      simp only [hat] at hva ⊢
      split at hv
      next hi' =>
        rw [if_pos hi', (h.held_pages a ha).pte2pa_pageAt h.owned] at hva ⊢
        exact (h.held_pages a ha).isData h.owned hva
      next => exact (hv rfl).elim
    next => exact (hv rfl).elim

/-- A change of memory and tables that no address space sees. -/
theorem congr (howned : Owned im own (IsRoot k'.proc) k'.ram) (hproc : SameSpaces k.proc k'.proc)
    (hleaf : ∀ r, IsRoot k.proc r → ∀ va < treeVA, leaf k'.ram.mem r va = leaf k.ram.mem r va)
    (hpages : ∀ h ∈ holds, (k'.ringbufs h.slot).bufPA = (k.ringbufs h.slot).bufPA ∧
      (k'.ringbufs h.slot).book = (k.ringbufs h.slot).book) :
    Spaces im own holds k' where
  owned := howned
  root_inj p q hp heq := by
    rw [(hproc p).1, (hproc q).1] at heq
    exact h.root_inj p q ((hproc p).1 ▸ hp) heq
  space p hp := by
    obtain ⟨hroot, hsz, htrapframe⟩ := hproc p
    rw [hroot] at hp ⊢
    rw [hsz, htrapframe]
    exact (h.space p hp).congr (fun va hva => hleaf _ (isRoot hp) va hva) (fun _ _ => Iff.rfl)
      fun w i _ => windowEntry_congr hpages
  trapframe p hp := by
    rw [(hproc p).1] at hp
    rw [(hproc p).2.2, h.trapframe p hp]
  rooted := by
    rw [hproc.isRoot_eq]
    exact h.rooted
  trapframe_only pa i hpa := by
    obtain ⟨p, hpi, hp, htrapframe⟩ := h.trapframe_only pa i hpa
    exact ⟨p, hpi, by rwa [(hproc p).1], by rwa [(hproc p).2.2]⟩
  held_root a ha := by
    rw [(hproc a.proc).1]
    exact h.held_root a ha
  held_window := h.held_window
  held_pages a ha := (h.held_pages a ha).congr (hpages a ha) fun _ _ => rfl

end

/-- Mapping a ring into a free window adds a holder.  The slot is new to everybody or its
pages are the ring's already. -/
theorem map {a : Holding} {newmap : Bool} (h : Spaces im own holds k)
    (hp : (k.proc a.proc).pagetable ≠ 0) (hat : heldAt holds a.proc a.window = none)
    (hnew : newmap = true → ∀ b ∈ holds, b.slot ≠ a.slot)
    (hold : newmap = false → RingOwned own a.slot (k.ringbufs a.slot))
    (hmapped : RingMapped im (IsRoot k.proc) (k.proc a.proc).pagetable a.slot newmap
      (window a.window) own own' k k') : Spaces im own' (a :: holds) k' := by
  have hproc : k'.proc = k.proc := by rw [hmapped.frame]
  have hkept : ∀ p, own p ≠ .free → own' p = own p := hmapped.kept
  -- The rings held before keep their pages.
  have hpages : ∀ b ∈ holds, (k'.ringbufs b.slot).bufPA = (k.ringbufs b.slot).bufPA ∧
      (k'.ringbufs b.slot).book = (k.ringbufs b.slot).book := by
    intro b hb
    by_cases hslot : b.slot = a.slot
    · cases newmap with
      | false => exact hslot ▸ hmapped.old rfl
      | true => exact (hnew rfl b hb hslot).elim
    · rw [hmapped.other b.slot hslot]
      exact ⟨rfl, rfl⟩
  -- New roles are those of the ring's pages.
  have hback : ∀ p, own' p = own p ∨ (own' p).IsRing a.slot := by
    intro p
    by_cases hfree : own p = .free
    · exact (hmapped.fresh p hfree).imp_left fun h => h.trans hfree.symm
    · exact .inl (hkept p hfree)
  refine ⟨by rw [hproc]; exact hmapped.owned, by rw [hproc]; exact h.root_inj, ?_, ?_, ?_, ?_, ?_,
    ?_, ?_⟩
  · intro q hq
    rw [hproc] at hq ⊢
    have huser : ∀ pa va, own pa = .user (k.proc q).pagetable va ↔
        own' pa = .user (k.proc q).pagetable va := by
      intro pa va
      constructor
      · intro hrole
        rw [hkept _ (by simp [hrole]), hrole]
      · intro hrole
        rcases hback pa with hsame | hring
        · rw [← hsame, hrole]
        · simp [hrole, Role.IsRing] at hring
    by_cases hqa : q = a.proc
    · subst hqa
      refine (h.space _ hq).setWindow a.window
        (fun i => mkPte ((k'.ringbufs a.slot).pageAt i) ringPerm) (fun va hva => ?_) huser
        fun w i hi => ?_
      · rw [hmapped.leaf_eq _ va (isRoot hq) hva]
        simp
      · rw [windowEntry, heldAt_cons]
        by_cases hw : a.window = w
        · subst hw
          simp only [true_and, if_pos]
          split
          next => rfl
          next hi' => rw [windowEntry, hat]
        · rw [if_neg (fun h => hw h.2), if_neg (fun h => hw h.1.symm)]
          exact windowEntry_congr hpages
    · have hroot : (k.proc q).pagetable ≠ (k.proc a.proc).pagetable := fun heq =>
        hqa (h.root_inj q a.proc hq heq)
      refine (h.space q hq).congr (fun va hva => ?_) huser fun w i _ => ?_
      · rw [hmapped.leaf_eq _ va (isRoot hq) hva, if_neg (fun h => hroot h.1)]
      · rw [windowEntry, heldAt_cons, if_neg (fun h => hqa h.1.symm)]
        exact windowEntry_congr hpages
  · intro q hq
    rw [hproc] at hq ⊢
    have hrole := h.trapframe q hq
    rw [hkept _ (by simp [hrole]), hrole]
  · intro p hp
    rw [hproc]
    rcases hback p with hsame | hring
    · rw [hsame] at hp ⊢
      exact h.rooted p hp
    · rcases hring with ⟨i, hring⟩ | hring <;> simp [hring, Role.Lives]
  · intro pa i hpa
    rw [hproc]
    rcases hback pa with hsame | hring
    · exact h.trapframe_only pa i (hsame ▸ hpa)
    · simp [hpa, Role.IsRing] at hring
  · intro b hb
    rw [hproc]
    rcases List.mem_cons.mp hb with rfl | hb
    · exact hp
    · exact h.held_root b hb
  · exact h.held_window.cons hat
  · intro b hb
    rcases List.mem_cons.mp hb with rfl | hb
    · cases newmap with
      | true =>
        exact ⟨fun i => (hmapped.data rfl i).imp_right And.right,
          (hmapped.book rfl).imp_right And.right⟩
      | false => exact (hold rfl).congr (hmapped.old rfl) fun _ hrole => hkept _ hrole.ne_free
    · exact (h.held_pages b hb).congr (hpages b hb) fun _ hrole => hkept _ hrole.ne_free

/-- Unmapping the window of a holder removes it.  If the pages are freed, nobody else holds
the ring. -/
theorem unmap {a : Holding} {last : Bool} (h : Spaces im own holds k) (ha : a ∈ holds)
    (hnodup : holds.Nodup)
    (hunmapped : RingUnmapped im (IsRoot k.proc) (k.proc a.proc).pagetable (window a.window)
      (k.ringbufs a.slot) last own own' k.ram k'.ram)
    (hproc : SameSpaces k.proc k'.proc)
    (hlast : last = true → (k.ringbufs a.slot).Backed ∧ ∀ b ∈ holds, b.slot = a.slot → b = a)
    (hpages : ∀ b ∈ holds.erase a, (k'.ringbufs b.slot).bufPA = (k.ringbufs b.slot).bufPA ∧
      (k'.ringbufs b.slot).book = (k.ringbufs b.slot).book) :
    Spaces im own' (holds.erase a) k' := by
  -- Only pages of the ring change hands.
  have hkept : ∀ p, (last = true → ¬(own p).IsRing a.slot) → own' p = own p := by
    intro p hp
    rw [hunmapped.own_eq, if_neg]
    rintro ⟨rfl, hring⟩
    obtain ⟨hdata, hbook⟩ := (hlast rfl).1
    rcases hring with ⟨i, rfl⟩ | rfl
    · exact hp rfl (.inl ⟨i, ((h.held_pages a ha).data i).resolve_left (hdata i)⟩)
    · exact hp rfl (.inr ((h.held_pages a ha).book.resolve_left hbook))
  have hback : ∀ p, own' p = own p ∨ own' p = .free := by
    intro p
    rw [hunmapped.own_eq]
    split
    next => exact .inr rfl
    next => exact .inl rfl
  have hroots : IsRoot k'.proc = IsRoot k.proc := hproc.isRoot_eq
  refine ⟨by rw [hroots]; exact hunmapped.owned, ?_, ?_, ?_, ?_, ?_, ?_, ?_, ?_⟩
  · intro p q hp heq
    rw [(hproc p).1, (hproc q).1] at heq
    exact h.root_inj p q ((hproc p).1 ▸ hp) heq
  · intro q hq
    obtain ⟨hroot, hsz, htrapframe⟩ := hproc q
    rw [hroot] at hq ⊢
    rw [hsz, htrapframe]
    have huser : ∀ pa va, own pa = .user (k.proc q).pagetable va ↔
        own' pa = .user (k.proc q).pagetable va := by
      intro pa va
      constructor
      · intro hrole
        rw [hkept pa (by simp [hrole, Role.IsRing]), hrole]
      · intro hrole
        rcases hback pa with hsame | hfree
        · rw [← hsame, hrole]
        · simp [hrole] at hfree
    by_cases hqa : q = a.proc
    · subst hqa
      refine (h.space _ hq).setWindow a.window (fun _ => 0) (fun va hva => ?_) huser
        fun w i hi => ?_
      · rw [hunmapped.leaf_eq _ va (isRoot hq) hva]
        simp
      · rw [windowEntry_congr hpages]
        by_cases hw : a.window = w
        · subst hw
          rw [windowEntry, heldAt_erase hnodup h.held_window ha, if_pos ⟨rfl, rfl⟩, windowEntry,
            heldAt_eq_some h.held_window ha]
          simp only [true_and]
          split
          next => rfl
          next => rfl
        · rw [if_neg (fun h => hw h.1.symm)]
          exact windowEntry_erase hnodup h.held_window ha fun h => hw h.2
    · have hroot : (k.proc q).pagetable ≠ (k.proc a.proc).pagetable := fun heq =>
        hqa (h.root_inj q a.proc hq heq)
      refine (h.space q hq).congr (fun va hva => ?_) huser fun w i _ => ?_
      · rw [hunmapped.leaf_eq _ va (isRoot hq) hva, if_neg (fun h => hroot h.1)]
      · rw [windowEntry_congr hpages]
        exact windowEntry_erase hnodup h.held_window ha fun h => hqa h.1.symm
  · intro q hq
    rw [(hproc q).1] at hq
    have hrole := h.trapframe q hq
    rw [(hproc q).2.2, hkept _ (by simp [hrole, Role.IsRing]), hrole]
  · intro p hp
    rw [hroots]
    have hsame := (hback p).resolve_right hp
    rw [hsame] at hp ⊢
    exact h.rooted p hp
  · intro pa i hpa
    have hsame := (hback pa).resolve_right (by simp [hpa])
    obtain ⟨p, hpi, hp, htrapframe⟩ := h.trapframe_only pa i (hsame ▸ hpa)
    exact ⟨p, hpi, by rwa [(hproc p).1], by rwa [(hproc p).2.2]⟩
  · intro b hb
    rw [(hproc b.proc).1]
    exact h.held_root b (List.mem_of_mem_erase hb)
  · exact fun b hb c hc => h.held_window b (List.mem_of_mem_erase hb) c (List.mem_of_mem_erase hc)
  · intro b hb
    obtain ⟨hne, hb'⟩ := (hnodup.mem_erase_iff).mp hb
    refine (h.held_pages b hb').congr (hpages b hb) fun p hrole => hkept p fun hlast' hrole' => ?_
    exact hne ((hlast hlast').2 b hb' (hrole.slot_eq hrole'))

end Spaces

end Kernel
end FastIpc
