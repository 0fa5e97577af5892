import FastIpc.Kernel.Reloading

/-!
# The arguments of a program

The function `sys_exec` of `kernel/sysfile.c` copies the strings of its argument
list into pages of their own before it calls `exec`, and frees the pages on both ways
out.  What `fetchaddr`, `fetchstr`, `copyin` and `copyinstr` read from
user memory is modelled byte by byte.

Main results:

- Theorem `KernelInv.fetchArgs`: the pages taken for the arguments were free.
- Theorem `KernelInv.sysExec`: the call keeps the invariant and gives all of them back.
-/

namespace FastIpc
namespace Kernel

open Foundation FaultM
open Function (update update_of_ne update_self)

/-! ## Reading user memory -/

/-- Load bytes from a physical address. -/
def loadBytes (pa n : Nat) : RamM (List (BitVec 8)) := fun s =>
  .ok ((List.range n).map fun i => s.mem (pa + i), s)

/-- The loop of `copyin` over the rest `old` of a kernel buffer, from its address
`dst` on; every round takes at least one byte.  Of the bytes of a round `mymemmove`
copies a front part. -/
def copyinLoop (pagetable : Nat) :
    Nat → Nat → List (BitVec 8) → Nat → RamM (Option (List (BitVec 8)))
  | 0, _, _, _ => return some []
  | rounds + 1, dst, old, srcva => do
    if old.length = 0 then
      return some []
    else
      let va0 := pgRoundDown srcva
      let pa0 ← walkaddr pagetable va0
      if pa0 = 0 then
        return none
      else
        let n := min (pgSize - (srcva - va0)) old.length
        let moved := movedBytes dst (pa0 + (srcva - va0)) n
        let bytes ← loadBytes (pa0 + (srcva - va0)) moved
        match ← copyinLoop pagetable rounds (dst + n) (old.drop n) (va0 + pgSize) with
        | none => return none
        | some rest => return some (bytes ++ (old.take n).drop moved ++ rest)

/-- Fill a kernel buffer at `dst`, which holds `old`, from a user address: what it
holds afterwards. -/
def copyin (pagetable dst : Nat) (old : List (BitVec 8)) (srcva : Nat) :
    RamM (Option (List (BitVec 8))) :=
  copyinLoop pagetable old.length dst old srcva

/-- The word at a user address of a process. -/
def fetchaddr (p : ProcId) (addr : Nat) : KernelM (Option Nat) := do
  let q := (← get).proc p
  if q.sz ≤ addr ∨ q.sz < addr + 8 then
    return none
  else
    match ← onRam (copyin q.pagetable 0 (List.replicate 8 0) addr) with
    | none => return none
    | some bytes => return some (fieldAt bytes 0 8)

/-- The loop of `copyinstr`, with room for `max` more bytes from `dst` on. -/
def copyinstrLoop (pagetable : Nat) : Nat → Nat → Nat → Nat → RamM (Option (List (BitVec 8)))
  | 0, _, _, _ => return none
  | rounds + 1, dst, srcva, max => do
    if max = 0 then
      return none
    else
      let va0 := pgRoundDown srcva
      let pa0 ← walkaddr pagetable va0
      if pa0 = 0 then
        return none
      else
        let n := min (pgSize - (srcva - va0)) max
        let bytes ← loadBytes (pa0 + (srcva - va0)) n
        let str := bytes.takeWhile fun b => b ≠ 0
        storeBytes dst str
        if str.length < n then
          storeBytes (dst + str.length) [0]
          return some str
        else
          match ← copyinstrLoop pagetable rounds (dst + n) (va0 + pgSize) (max - n) with
          | none => return none
          | some rest => return some (str ++ rest)

/-- Copy a string from a user address to a kernel buffer of `max` bytes. -/
def copyinstr (pagetable dst srcva max : Nat) : RamM (Option (List (BitVec 8))) :=
  copyinstrLoop pagetable max dst srcva max

/-- The string in a buffer. -/
def CString.ofBytes (bytes : List (BitVec 8)) : CString where
  bytes := bytes.takeWhile fun b => b ≠ 0
  nonzero h := by simpa using List.all_eq_true.mp List.all_takeWhile _ h

/-- Copy a string from a user address of a process to a page. -/
def fetchstr (p : ProcId) (addr page : Nat) : KernelM (Option CString) := do
  let q := (← get).proc p
  match ← onRam (copyinstr q.pagetable page addr pgSize) with
  | none => return none
  | some bytes => return some (CString.ofBytes bytes)

/-! ## Executing a file -/

/-- The loop of `sys_exec` over the argument list from entry `i` on, with room for
`n` more: the pages allocated and the strings in them, and whether the end of the list
was reached. -/
def fetchArgs (p : ProcId) (uargv : Nat) : Nat → Nat → KernelM (List (Nat × CString) × Bool)
  | 0, _ => return ([], false)
  | n + 1, i => do
    match ← fetchaddr p ((uargv + 8 * i) % 2 ^ 64) with
    | none => return ([], false)
    | some uarg =>
      if uarg = 0 then
        return ([], true)
      else
        let page ← onRam kalloc
        if page = 0 then
          return ([], false)
        else
          match ← fetchstr p uarg page with
          | none => return ([(page, .empty)], false)
          | some arg =>
            let (args, ok) ← fetchArgs p uargv n (i + 1)
            return ((page, arg) :: args, ok)

/-- The loops of `sys_exec` that free the pages of the arguments. -/
def freeArgs (im : Image) : List Nat → KernelM Unit
  | [] => return ()
  | page :: pages => do
    onRam (kfree im page)
    freeArgs im pages

/-- Replace the image of the caller by the program in a file, with the arguments of the list
at a user address. -/
def sysExec (im : Image) (p : ProcId) (file : Option (List (BitVec 8))) (uargv : Nat) :
    KernelM Int := do
  let (args, ok) ← fetchArgs p uargv maxArg 0
  if ok then
    let ret ← exec im p file (args.map Prod.snd)
    freeArgs im (args.map Prod.fst)
    return ret
  else
    freeArgs im (args.map Prod.fst)
    return -1

/-! ## Pages outside the processes -/

/-- The roles of a page that is free or kept by the kernel for something other than processes
and rings. -/
def Role.Spare : Role → Prop
  | .free => True
  | .pipe => True
  | .held => True
  | _ => False

namespace KernelInv

variable {im : Image} {own own' : Nat → Role} {holds : List Holding} {k k' : KernelState}
  {p : ProcId}

/-- Pages that are no concern of the processes change hands. -/
theorem exchange (h : KernelInv im own holds k) {t : Ram} (howned : Owned im own' (IsRoot k.proc) t)
    (hleaf : ∀ r va, IsRoot k.proc r → leaf t.mem r va = leaf k.ram.mem r va)
    (hown : ∀ q, own' q = own q ∨ (own q).Spare ∧ (own' q).Spare) :
    KernelInv im own' holds { k with ram := t } := by
  have hspaces := h.spaces
  -- A role that is not spare was there before and is still there.
  have hkept : ∀ q, ¬(own q).Spare → own' q = own q := fun q hq =>
    (hown q).resolve_right fun hspare => hq hspare.1
  have hback : ∀ q, ¬(own' q).Spare → own' q = own q := fun q hq =>
    (hown q).resolve_right fun hspare => hq hspare.2
  refine ⟨⟨howned, hspaces.root_inj, fun q hq => ?_, fun q hq => ?_, fun q hq => ?_,
    fun pa i hpa => ?_, hspaces.held_root, hspaces.held_window, fun a ha => ?_⟩,
    h.ledger.congr rfl fun _ _ => rfl,
    h.procs.congr (fun _ => ⟨rfl, rfl, Iff.rfl, rfl⟩) rfl fun j e => h.procs.listed_lt j e⟩
  · refine (hspaces.space q hq).congr (fun va _ => hleaf _ va (Spaces.isRoot hq))
      (fun pa va => ⟨fun hrole => ?_, fun hrole => ?_⟩) fun _ _ _ => rfl
    · rw [hkept pa (by simp [hrole, Role.Spare]), hrole]
    · rw [← hback pa (by simp [hrole, Role.Spare]), hrole]
  · have hrole := hspaces.trapframe q hq
    exact (hkept _ (by simp [hrole, Role.Spare])).trans hrole
  · by_cases hspare : (own' q).Spare
    · cases hrole : own' q with
      | free => exact (hq hrole).elim
      | pipe => trivial
      | held => trivial
      | _ => simp [hrole, Role.Spare] at hspare
    · rw [hback q hspare] at hq ⊢
      exact hspaces.rooted q hq
  · exact hspaces.trapframe_only pa i (hback pa (by simp [hpa, Role.Spare]) ▸ hpa)
  · refine (hspaces.held_pages a ha).congr ⟨rfl, rfl⟩ fun q hrole => hkept q ?_
    rcases hrole with ⟨i, hi⟩ | hi
    · simp [hi, Role.Spare]
    · simp [hi, Role.Spare]

theorem kalloc (h : KernelInv im own holds k) (role : Role) (hrole : role.Spare)
    (hused : role ≠ .free) {page : Nat} {t : Ram} (hrun : Kernel.kalloc k.ram = .ok (page, t)) :
    (page = 0 ∧ KernelInv im own holds { k with ram := t }) ∨ (page ≠ 0 ∧ own page = .free ∧
        KernelInv im (update own page role) holds { k with ram := t }) := by
  have hnode : ∀ r, IsRoot k.proc r → ∀ path, role ≠ .node r path := by
    rintro r - path rfl
    exact hrole
  rcases h.spaces.owned.kalloc hrun with ⟨rfl, rfl⟩ | ⟨hfree, hmem, howned⟩
  · exact .inl ⟨rfl, h.exchange (h.spaces.owned.of_mem_eq rfl rfl) (fun _ _ _ => rfl)
      fun _ => .inl rfl⟩
  · have hpage : IsPage im page := h.spaces.owned.page page (by simp [hfree])
    have hagree := h.spaces.owned.kalloc_agree hfree hmem
    refine .inr ⟨hpage.pos.ne', hfree, h.exchange (howned role hused hnode)
      (fun r va hr => h.spaces.owned.leaf_congr hr (hagree r hr)) fun q => ?_⟩
    by_cases hq : q = page
    · rw [hq, update_self, hfree]
      exact .inr ⟨trivial, hrole⟩
    · exact .inl (update_of_ne hq ..)

theorem kfree (h : KernelInv im own holds k) {page : Nat} (hrole : (own page).Spare)
    (hused : own page ≠ .free) :
    ∃ t, Kernel.kfree im page k.ram = .ok ((), t) ∧
      KernelInv im (update own page .free) holds { k with ram := t } := by
  have hpage : IsPage im page := by
    refine h.spaces.owned.page page fun hkernel => ?_
    rw [hkernel] at hrole
    exact hrole
  have hnode : ∀ r, IsRoot k.proc r → ∀ path, own page ≠ .node r path := by
    intro r _ path hpath
    rw [hpath] at hrole
    exact hrole
  obtain ⟨t, hrun, howned, -, hout⟩ := h.spaces.owned.kfree hpage hused hnode
  have hagree := h.spaces.owned.write_page hpage hnode hout
  refine ⟨t, hrun, h.exchange howned
    (fun r va hr => h.spaces.owned.leaf_congr hr (hagree r hr)) fun q => ?_⟩
  by_cases hq : q = page
  · rw [hq, update_self]
    exact .inr ⟨hrole, trivial⟩
  · exact .inl (update_of_ne hq ..)

/-! ## Fetching the arguments -/

theorem exists_copyinLoop (r rounds dst : Nat) (old : List (BitVec 8)) (srcva : Nat) (s : Ram) :
    ∃ res, Kernel.copyinLoop r rounds dst old srcva s = .ok (res, s) := by
  induction rounds generalizing dst old srcva with
  | zero => exact ⟨_, rfl⟩
  | succ rounds ih =>
    unfold Kernel.copyinLoop
    split
    next => exact ⟨_, rfl⟩
    next =>
      simp only
      rw [bind_of_ok walkaddr_eq]
      split
      next => exact ⟨_, rfl⟩
      next =>
        rw [bind_of_ok rfl]
        obtain ⟨res, hres⟩ := ih (dst + min (pgSize - (srcva - pgRoundDown srcva)) old.length)
          (old.drop (min (pgSize - (srcva - pgRoundDown srcva)) old.length))
          (pgRoundDown srcva + pgSize)
        rw [bind_of_ok hres]
        cases res with
        | none => exact ⟨_, rfl⟩
        | some rest => exact ⟨_, rfl⟩

theorem exists_fetchaddr (p : ProcId) (addr : Nat) (k : KernelState) :
    ∃ res, Kernel.fetchaddr p addr k = .ok (res, k) := by
  rw [Kernel.fetchaddr, bind_of_ok (get_apply k)]
  split
  next => exact ⟨_, rfl⟩
  next =>
    obtain ⟨res, hres⟩ := exists_copyinLoop (k.proc p).pagetable 8 0 (List.replicate 8 0) addr k.ram
    rw [copyin, List.length_replicate, bind_of_ok (onRam_of_ok hres)]
    cases res with
    | none => exact ⟨_, rfl⟩
    | some bytes => exact ⟨_, rfl⟩

end KernelInv

namespace Owned

variable {im : Image} {own : Nat → Role} {roots : Nat → Prop} {s : Ram} {page : Nat}

/-- Bytes are stored in a page that the kernel keeps. -/
theorem storeHeld (h : Owned im own roots s) (hheld : own page = .held) {dst : Nat}
    (bytes : List (BitVec 8)) (hlo : page ≤ dst) (hhi : dst + bytes.length ≤ page + pgSize) :
    Stored im own roots s { s with mem := s.mem.blit dst bytes } := by
  refine .of_write h (h.page page (by simp [hheld])) (by simp [hheld]) (by simp [hheld])
    (fun x hx => Memory.blit_of_not_mem ?_) rfl rfl
  omega

/-- Copying a string to such a page returns and changes that page only. -/
theorem copyinstrLoop (h : Owned im own roots s) (hheld : own page = .held)
    (r rounds dst srcva max : Nat) (hlo : page ≤ dst) (hhi : dst + max ≤ page + pgSize) :
    ∃ res t, Kernel.copyinstrLoop r rounds dst srcva max s = .ok (res, t) ∧
      Stored im own roots s t := by
  induction rounds generalizing dst srcva max s with
  | zero => exact ⟨none, s, rfl, .refl h⟩
  | succ rounds ih =>
    unfold Kernel.copyinstrLoop
    split
    next => exact ⟨none, s, rfl, .refl h⟩
    next =>
      simp only
      rw [bind_of_ok walkaddr_eq]
      split
      next => exact ⟨none, s, rfl, .refl h⟩
      next =>
        rw [bind_of_ok rfl]
        generalize hn : min (pgSize - (srcva - pgRoundDown srcva)) max = n
        generalize hstr : List.takeWhile (fun b => decide (b ≠ 0)) (List.map (fun i => s.mem
          (userPage s.mem r (pgRoundDown srcva) + (srcva - pgRoundDown srcva) + i))
          (List.range n)) = str
        have hlen : str.length ≤ n := by
          rw [← hstr]
          refine le_trans (List.takeWhile_sublist _).length_le ?_
          simp
        have hstored := h.storeHeld hheld str hlo (by omega)
        rw [bind_of_ok rfl]
        split
        next hshort =>
          have hzero := hstored.owned.storeHeld hheld [0] (le_trans hlo (Nat.le_add_right ..))
            (by simp only [List.length_singleton]; omega : dst + str.length + _ ≤ _)
          rw [bind_of_ok rfl]
          exact ⟨some str, _, rfl, hstored.trans hzero⟩
        next =>
          obtain ⟨res, t, hrun, ht⟩ := ih hstored.owned (dst + n) (pgRoundDown srcva + pgSize)
            (max - n) (by omega) (by omega)
          rw [bind_of_ok hrun]
          cases res with
          | none => exact ⟨none, t, rfl, hstored.trans ht⟩
          | some rest => exact ⟨some (str ++ rest), t, rfl, hstored.trans ht⟩

end Owned

/-- The kernel's tables are the same. -/
structure SameTables (k k' : KernelState) : Prop where
  proc : k'.proc = k.proc
  ringbufs : k'.ringbufs = k.ringbufs
  nextpid : k'.nextpid = k.nextpid
  initproc : k'.initproc = k.initproc

theorem SameTables.trans {k k1 k2 : KernelState} (h : SameTables k k1) (h' : SameTables k1 k2) :
    SameTables k k2 :=
  ⟨h'.proc.trans h.proc, h'.ringbufs.trans h.ringbufs, h'.nextpid.trans h.nextpid,
    h'.initproc.trans h.initproc⟩

namespace KernelInv

variable {im : Image} {own own' : Nat → Role} {holds : List Holding} {k k' : KernelState}
  {p : ProcId}

variable (h : KernelInv im own holds k)
include h

theorem fetchstr {page : Nat} (hheld : own page = .held) (p : ProcId) (addr : Nat) :
    ∃ res t, Kernel.fetchstr p addr page k = .ok (res, { k with ram := t }) ∧
      KernelInv im own holds { k with ram := t } := by
  obtain ⟨res, t, hrun, hstored⟩ := h.spaces.owned.copyinstrLoop hheld (k.proc p).pagetable pgSize
    page addr pgSize le_rfl le_rfl
  rw [Kernel.fetchstr, bind_of_ok (get_apply k)]
  rw [copyinstr, bind_of_ok (onRam_of_ok hrun)]
  cases res with
  | none => exact ⟨none, t, rfl, h.stored hstored⟩
  | some bytes => exact ⟨some (.ofBytes bytes), t, rfl, h.stored hstored⟩

/-- The pages taken for the arguments were free and are kept. -/
theorem fetchArgs (p : ProcId) (uargv n i : Nat) :
    ∃ args ok k' own', Kernel.fetchArgs p uargv n i k = .ok ((args, ok), k') ∧
      KernelInv im own' holds k' ∧ SameTables k k' ∧ (args.map Prod.fst).Nodup ∧
      (∀ page ∈ args.map Prod.fst, own page = .free ∧ own' page = .held) ∧
      ∀ page, page ∉ args.map Prod.fst → own' page = own page := by
  induction n generalizing i k own with
  | zero => exact ⟨[], false, k, own, rfl, h, ⟨rfl, rfl, rfl, rfl⟩, by simp, by simp, by simp⟩
  | succ n ih =>
    obtain ⟨res, hfetch⟩ := exists_fetchaddr p ((uargv + 8 * i) % 2 ^ 64) k
    rw [Kernel.fetchArgs, bind_of_ok hfetch]
    cases res with
    | none => exact ⟨[], false, k, own, rfl, h, ⟨rfl, rfl, rfl, rfl⟩, by simp, by simp, by simp⟩
    | some uarg =>
      simp only
      split
      next => exact ⟨[], true, k, own, rfl, h, ⟨rfl, rfl, rfl, rfl⟩, by simp, by simp, by simp⟩
      next =>
        obtain ⟨page, s, hkalloc⟩ := exists_kalloc k.ram
        rw [bind_of_ok (onRam_of_ok hkalloc)]
        rcases h.kalloc .held trivial (by simp) hkalloc with
          ⟨rfl, hinv1⟩ | ⟨hpage, hfree, hinv1⟩
        · rw [if_pos rfl]
          exact ⟨[], false, _, own, rfl, hinv1, ⟨rfl, rfl, rfl, rfl⟩, by simp, by simp, by simp⟩
        rw [if_neg hpage]
        obtain ⟨res, t, hstr, hinv2⟩ := hinv1.fetchstr (update_self ..) p uarg
        have hother : ∀ q, q ≠ page → update own page .held q = own q :=
          fun q hq => update_of_ne hq ..
        rw [bind_of_ok hstr]
        cases res with
        | none =>
          refine ⟨[(page, .empty)], false, _, _, rfl, hinv2, ⟨rfl, rfl, rfl, rfl⟩, by simp,
            fun q hq => ?_, fun q hq => hother q (by simpa using hq)⟩
          obtain rfl : q = page := by simpa using hq
          exact ⟨hfree, update_self ..⟩
        | some arg =>
          obtain ⟨args, ok, k', own', hrun, hinv', htables, hnodup, hheld, hsame⟩ :=
            ih hinv2 (i + 1)
          have hnot : page ∉ args.map Prod.fst := fun hmem => by
            simpa using (hheld page hmem).1
          refine ⟨(page, arg) :: args, ok, k', own', ?_, hinv',
            ⟨htables.proc, htables.ringbufs, htables.nextpid, htables.initproc⟩, ?_,
            fun q hq => ?_, fun q hq => ?_⟩
          · simp only
            rw [bind_of_ok hrun]
            rfl
          · exact List.nodup_cons.mpr ⟨hnot, hnodup⟩
          · rcases List.mem_cons.mp hq with rfl | hmem
            · exact ⟨hfree, (hsame _ hnot).trans (update_self ..)⟩
            · have hne : q ≠ page := fun heq => hnot (heq ▸ hmem)
              exact ⟨(hother q hne).symm.trans (hheld q hmem).1, (hheld q hmem).2⟩
          · obtain ⟨hne, hmem⟩ := not_or.mp (fun hor => hq (List.mem_cons.mpr hor))
            exact (hsame q hmem).trans (hother q hne)

theorem freeArgs {pages : List Nat} (hnodup : pages.Nodup)
    (hheld : ∀ page ∈ pages, own page = .held) :
    ∃ k' own', Kernel.freeArgs im pages k = .ok ((), k') ∧ KernelInv im own' holds k' ∧
      SameTables k k' ∧ (∀ page ∈ pages, own' page = .free) ∧
      ∀ page, page ∉ pages → own' page = own page := by
  induction pages generalizing k own with
  | nil => exact ⟨k, own, rfl, h, ⟨rfl, rfl, rfl, rfl⟩, by simp, fun _ _ => rfl⟩
  | cons page pages ih =>
    obtain ⟨hnot, hnodup⟩ := List.nodup_cons.mp hnodup
    have hpage := hheld page (by simp)
    obtain ⟨t, hrun, hinv1⟩ := h.kfree (by rw [hpage]; trivial) (by simp [hpage])
    obtain ⟨k', own', hrest, hinv', htables, hfree, hsame⟩ := ih hinv1 hnodup fun q hq => by
      have hne : q ≠ page := fun heq => hnot (heq ▸ hq)
      rw [update_of_ne hne]
      exact hheld q (by simp [hq])
    refine ⟨k', own', ?_, hinv', ⟨htables.proc, htables.ringbufs, htables.nextpid,
      htables.initproc⟩, fun q hq => ?_, fun q hq => ?_⟩
    · rw [Kernel.freeArgs, bind_of_ok (onRam_of_ok hrun), hrest]
    · rcases List.mem_cons.mp hq with rfl | hmem
      · rw [hsame _ hnot, update_self]
      · exact hfree q hmem
    · obtain ⟨hne, hmem⟩ := not_or.mp (fun hor => hq (List.mem_cons.mpr hor))
      rw [hsame q hmem, update_of_ne hne]

/-- `sys_exec` keeps the invariant, and every page it takes for the arguments is free again
when it returns. -/
theorem sysExec (hp : (k.proc p).pagetable ≠ 0) (hnone : HoldsNothing holds p)
    (file : Option (List (BitVec 8))) (uargv : Nat) :
    ∃ res k' own', Kernel.sysExec im p file uargv k = .ok (res, k') ∧
      KernelInv im own' holds k' ∧ Reloaded k p k' ∧ SameGlobal own own' := by
  obtain ⟨args, ok, k1, own1, hfetch, hinv1, htables1, hnodup, hheld1, hsame1⟩ :=
    h.fetchArgs p uargv maxArg 0
  rw [Kernel.sysExec, bind_of_ok hfetch]
  -- Freeing the arguments undoes what fetching them did to the pages.
  have hglobal : ∀ {own2 own3}, SameGlobal own1 own2 →
      (∀ page ∈ args.map Prod.fst, own3 page = .free) →
      (∀ page, page ∉ args.map Prod.fst → own3 page = own2 page) → SameGlobal own own3 := by
    intro own2 own3 h2 hfree hsame q hq
    by_cases hmem : q ∈ args.map Prod.fst
    · rw [hfree q hmem, (hheld1 q hmem).1]
    · rw [hsame q hmem] at hq ⊢
      rw [← hsame1 q hmem] at hq ⊢
      exact h2 q hq
  have hp1 : (k1.proc p).pagetable ≠ 0 := by rwa [htables1.proc]
  cases ok with
  | false =>
    obtain ⟨k', own', hrun, hinv', htables, hfree, hsame⟩ :=
      hinv1.freeArgs hnodup fun page hpage => (hheld1 page hpage).2
    refine ⟨-1, k', own', bind_of_ok hrun, hinv', ?_, hglobal (.refl own1) hfree hsame⟩
    have htables := htables1.trans htables
    refine ⟨fun q _ => by rw [htables.proc], ?_, htables.ringbufs, htables.nextpid⟩
    rw [htables.proc]
    exact ⟨rfl, rfl, rfl, hp⟩
  | true =>
    simp only [if_pos]
    rcases hinv1.exec hp1 file (args.map Prod.snd) with
      ⟨res, k2, own2, hexec, hinv2, hreloaded, -, hglobal2⟩ | ⟨-, -, hholds⟩
    · have hheld2 : ∀ page ∈ args.map Prod.fst, own2 page = .held := fun page hpage => by
        have hheld := (hheld1 page hpage).2
        rw [hglobal2 page (.inl (by rw [hheld]; trivial)), hheld]
      obtain ⟨k', own', hrun, hinv', htables, hfree, hsame⟩ := hinv2.freeArgs hnodup hheld2
      rw [bind_of_ok hexec]
      refine ⟨res, k', own', bind_of_ok hrun, hinv', ?_, hglobal hglobal2 hfree hsame⟩
      refine ⟨fun q hq => by rw [htables.proc, hreloaded.other q hq, htables1.proc], ?_,
        by rw [htables.ringbufs, hreloaded.ringbufs, htables1.ringbufs],
        by rw [htables.nextpid, hreloaded.nextpid, htables1.nextpid]⟩
      have hentry := hreloaded.entry
      rw [htables1.proc] at hentry
      rw [htables.proc]
      exact hentry
    · exact (hholds hnone).elim

end KernelInv

end Kernel
end FastIpc
