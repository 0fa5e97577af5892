import FastIpc.Kernel.Spaces

/-!
# What the ring calls do

`createbuf` and `closebuf` in a state where every process has its address space
and the ring table agrees with the record of the rings' holders.  Each call is taken
apart once, into the outcomes it can have there; everything said about runs later rests
on these outcomes.

Main results:

- Theorem `KernelInv.close`: what `closebuf` does for a holder.
-/

namespace FastIpc
namespace Kernel

open Foundation FaultM
open Function (update update_apply update_eq_self update_idem update_of_ne update_self)

/-! ## The table and its holders -/

/-- The ring table agrees with the record of the holders. -/
structure Ledger (holds : List Holding) (k : KernelState) : Prop where
  nodup : holds.Nodup
  held_end : ∀ a ∈ holds, ∀ b ∈ holds, a.slot = b.slot → a.ringEnd = b.ringEnd → a = b
  held_pid : ∀ a ∈ holds, (k.ringbufs a.slot).pidsRW a.ringEnd = (k.proc a.proc).pid
  held_name : ∀ a ∈ holds, (k.ringbufs a.slot).name = a.name.safestrcpy 8
  refcount : ∀ a ∈ holds,
    (k.ringbufs a.slot).refcount = holds.countP fun b => b.slot = a.slot
  nonneg : ∀ j, 0 ≤ (k.ringbufs j).refcount
  named : ∀ j, (k.ringbufs j).name ≠ .empty → ∃ a ∈ holds, a.slot = j

/-- The process table: identifiers of processes in use are positive and differ, and the
next one is new. -/
structure Procs (k : KernelState) : Prop where
  unused : ∀ p, (k.proc p).pagetable = 0 ↔ (k.proc p).state = .unused
  unused_sz : ∀ p, (k.proc p).pagetable = 0 → (k.proc p).sz = 0
  pid_pos : ∀ p, (k.proc p).pagetable ≠ 0 → (k.proc p).pid ≠ 0
  pid_inj : ∀ p q, (k.proc p).pagetable ≠ 0 → (k.proc q).pagetable ≠ 0 →
    (k.proc p).pid = (k.proc q).pid → p = q
  pid_lt : ∀ p, (k.proc p).pid < k.nextpid
  listed_lt : ∀ j e, (k.ringbufs j).pidsRW e < k.nextpid

/-- The invariant of the kernel. -/
structure KernelInv (im : Image) (own : Nat → Role) (holds : List Holding) (k : KernelState) :
    Prop where
  spaces : Spaces im own holds k
  ledger : Ledger holds k
  procs : Procs k

namespace Ledger

variable {holds : List Holding} {k : KernelState} {a : Holding} {j : Slot}

theorem refcount_pos (h : Ledger holds k) (ha : a ∈ holds) : 0 < (k.ringbufs a.slot).refcount := by
  rw [h.refcount a ha]
  have hpos : 0 < holds.countP fun b => b.slot = a.slot := List.countP_pos_iff.mpr ⟨a, ha, by simp⟩
  exact_mod_cast hpos

theorem ne_slot_of_zero (h : Ledger holds k) (hj : (k.ringbufs j).refcount = 0) (ha : a ∈ holds) :
    a.slot ≠ j := by
  rintro rfl
  exact absurd hj (h.refcount_pos ha).ne'

end Ledger

/-! ## Opening an end -/

variable {straddr : CString} {k : KernelState}

theorem publishRing_spec {im : Image} {own : Nat → Role} {holds : List Holding} {p : ProcId}
    (h : Spaces im own holds k) (hp : (k.proc p).pagetable ≠ 0) (j : Slot) (retvaddr : Nat) :
    ∃ res t, copyout (k.proc p).pagetable retvaddr 0 (wordBytes (k.ringbufs j).vabuf) k.ram =
        .ok (res, t) ∧
      publishRing p j retvaddr k =
        .ok ((), ({ k with ram := t }).setProc p fun q => { q with validRingBuf := 1 }) ∧
      Stored im own (IsRoot k.proc) k.ram t := by
  obtain ⟨res, t, hrun, hstored, -⟩ := h.owned.copyout (Spaces.isRoot hp)
    (fun va hva => h.isData hp hva)
    retvaddr 0 (wordBytes (k.ringbufs j).vabuf)
  refine ⟨res, t, hrun, ?_, hstored⟩
  rw [publishRing, bind_of_ok (get_apply k), bind_of_ok (onRam_of_ok hrun), modify_apply]

/-- What opening an end of a ring leaves behind.  The address of the window has been copied
to `retvaddr` as far as that was possible. -/
structure Opened (im : Image) (own own' : Nat → Role) (holds : List Holding) (a : Holding)
    (newmap : Bool) (retvaddr : Nat) (k k' : KernelState) : Prop where
  spaces : Spaces im own' (a :: holds) k'
  other : ∀ i, i ≠ a.slot → k'.ringbufs i = k.ringbufs i
  refcount : (k'.ringbufs a.slot).refcount = (k.ringbufs a.slot).refcount + 1
  pids : ∀ e, (k'.ringbufs a.slot).pidsRW e = if e = a.ringEnd then (k.proc a.proc).pid
    else if newmap then 0 else (k.ringbufs a.slot).pidsRW e
  name : (k'.ringbufs a.slot).name =
    if newmap then a.name.safestrcpy 8 else (k.ringbufs a.slot).name
  vabuf : (k'.ringbufs a.slot).vabuf = window a.window
  old : newmap = false → (k'.ringbufs a.slot).bufPA = (k.ringbufs a.slot).bufPA ∧
    (k'.ringbufs a.slot).book = (k.ringbufs a.slot).book
  /-- The pages of a new ring come from the allocator. -/
  fresh : newmap = true → ∀ i, (k'.ringbufs a.slot).pageAt i = 0 ∨
    own ((k'.ringbufs a.slot).pageAt i) = .free
  supply : newmap = true → k.ram.Supplies (ringbufSize + 1) → (k'.ringbufs a.slot).Backed
  proc : k'.proc = update k.proc a.proc { k.proc a.proc with validRingBuf := 1 }
  rest : k'.nextpid = k.nextpid ∧ k'.initproc = k.initproc
  leaf_eq : ∀ r va, IsRoot k.proc r → va < treeVA → leaf k'.ram.mem r va =
    if r = (k.proc a.proc).pagetable ∧ window a.window ≤ va ∧
        va < window a.window + 33 * pgSize then
      mkPte ((k'.ringbufs a.slot).pageAt ((va - window a.window) / pgSize)) ringPerm
    else leaf k.ram.mem r va
  published : ∃ s res, Owned im own' (IsRoot k.proc) s ∧ Stored im own' (IsRoot k.proc) s k'.ram ∧
    copyout (k.proc a.proc).pagetable retvaddr 0 (wordBytes (window a.window)) s = .ok (res, k'.ram)

section Open

variable {im : Image} {own own' : Nat → Role} {holds : List Holding} {k k2 : KernelState}
  {a : Holding} {newmap : Bool} {straddr : CString} {opdesc : Int} {retvaddr : Nat} {j : Slot}
  {p : ProcId}

/-- A slot whose bookkeeping was updated and whose ring was then mapped is published. -/
theorem publish_opened (newmap : Bool) (b : Ringbuf) (h : Spaces im own holds k)
    (hp : (k.proc a.proc).pagetable ≠ 0) (hat : heldAt holds a.proc a.window = none)
    (hnew : newmap = true → ∀ c ∈ holds, c.slot ≠ a.slot)
    (hold : newmap = false → RingOwned own a.slot (k.ringbufs a.slot))
    (hpages : b.bufPA = (k.ringbufs a.slot).bufPA ∧ b.book = (k.ringbufs a.slot).book)
    (hrefcount : b.refcount = (k.ringbufs a.slot).refcount + 1)
    (hpids : ∀ e, b.pidsRW e = if e = a.ringEnd then (k.proc a.proc).pid
      else if newmap then 0 else (k.ringbufs a.slot).pidsRW e)
    (hname : b.name = if newmap then a.name.safestrcpy 8 else (k.ringbufs a.slot).name)
    (hmapped : RingMapped im (IsRoot k.proc) (k.proc a.proc).pagetable a.slot newmap
      (window a.window) own own' (k.setSlot a.slot fun _ => b) k2) (retvaddr : Nat) :
    ∃ k', publishRing a.proc a.slot retvaddr k2 = .ok ((), k') ∧
      Opened im own own' holds a newmap retvaddr k k' := by
  have hpages1 : ∀ i, ((k.setSlot a.slot fun _ => b).ringbufs i).bufPA = (k.ringbufs i).bufPA ∧
      ((k.setSlot a.slot fun _ => b).ringbufs i).book = (k.ringbufs i).book := by
    intro i
    by_cases hi : i = a.slot
    · subst hi
      rw [KernelState.setSlot_same]
      exact hpages
    · rw [KernelState.setSlot_ne _ _ _ hi]
      exact ⟨rfl, rfl⟩
  have h1 : Spaces im own holds (k.setSlot a.slot fun _ => b) :=
    h.congr h.owned (fun _ => ⟨rfl, rfl, rfl⟩) (fun _ _ _ _ => rfl) fun c _ => hpages1 c.slot
  have h2 : Spaces im own' (a :: holds) k2 :=
    h1.map hp hat hnew (fun hfalse => (hold hfalse).congr (hpages1 a.slot) fun _ _ => rfl) hmapped
  have hproc2 : k2.proc = k.proc := by
    rw [hmapped.frame]
    rfl
  have hrest2 : k2.nextpid = k.nextpid ∧ k2.initproc = k.initproc := by
    rw [hmapped.frame]
    exact ⟨rfl, rfl⟩
  have hslot := hmapped.slot
  rw [KernelState.setSlot_same] at hslot
  have hvabuf : (k2.ringbufs a.slot).vabuf = window a.window := by rw [hslot]
  have hbook2 : (k2.ringbufs a.slot).refcount = b.refcount ∧
      (k2.ringbufs a.slot).pidsRW = b.pidsRW ∧ (k2.ringbufs a.slot).name = b.name := by
    rw [hslot]
    exact ⟨rfl, rfl, rfl⟩
  obtain ⟨res, t, hcopy, hpublish, hstored⟩ :=
    publishRing_spec h2 (p := a.proc) (by rwa [hproc2]) a.slot retvaddr
  rw [hproc2] at hstored
  rw [hproc2, hvabuf] at hcopy
  refine ⟨_, hpublish, ?_, ?_, ?_, ?_, ?_, hvabuf, ?_, ?_, ?_, ?_, hrest2, ?_, k2.ram, res,
    hproc2 ▸ h2.owned, hstored, hcopy⟩
  · have hflag := sameSpaces_setProc { k2 with ram := t } a.proc
      (f := fun q => { q with validRingBuf := 1 }) fun _ => ⟨rfl, rfl, rfl⟩
    refine h2.congr ?_ hflag (fun r hr va _ => hstored.leaf_eq r va (hproc2 ▸ hr))
      fun c _ => ⟨rfl, rfl⟩
    rw [hflag.isRoot_eq]
    exact hproc2 ▸ hstored.owned
  · intro i hi
    rw [KernelState.setProc_ringbufs]
    exact (hmapped.other i hi).trans (KernelState.setSlot_ne _ _ _ hi)
  · exact hbook2.1.trans hrefcount
  · exact fun e => (congrFun hbook2.2.1 e).trans (hpids e)
  · exact hbook2.2.2.trans hname
  · rintro rfl
    obtain ⟨hdata, hbook⟩ := hmapped.old rfl
    exact ⟨hdata.trans (hpages1 a.slot).1, hbook.trans (hpages1 a.slot).2⟩
  · rintro rfl i
    rw [KernelState.setProc_ringbufs, Ringbuf.pageAt]
    split
    next => exact (hmapped.data rfl _).imp_right And.left
    next => exact (hmapped.book rfl).imp_right And.left
  · rintro rfl hs
    exact hmapped.supply rfl hs
  · rw [← hproc2]
    rfl
  · intro r va hr hva
    exact (hstored.leaf_eq r va hr).trans (hmapped.leaf_eq r va hr hva)

theorem slotAt_val (j : Slot) : slotAt (j.val : Int) = pure j := by
  rw [slotAt, dif_pos ⟨Int.natCast_nonneg _, j.isLt⟩]
  rfl

theorem createbuf_invalid (hop : opdesc < 0 ∨ 1 < opdesc) :
    createbuf im p straddr opdesc retvaddr k = .ok (-1, k) := by
  rw [createbuf, if_pos hop]
  rfl

/-- The slot in which `createbuf` makes a ring: the first one that is not in use, or the one
with the same name if all are in use. -/
def makeSlot (k : KernelState) (straddr : CString) : Option Slot :=
  (findFree k).or (findName k straddr)

theorem makeSlot_of_free (hfree : findFree k = some j) : makeSlot k straddr = some j := by
  rw [makeSlot, hfree, Option.some_or]

/-- Without a free slot a name that is not found is looked up outside the table. -/
theorem createbuf_full (hop : ¬(opdesc < 0 ∨ 1 < opdesc)) (hfound : findName k straddr = none)
    (hfree : findFree k = none) :
    createbuf im p straddr opdesc retvaddr k = .error (.outOfBounds (-1)) := by
  rw [createbuf, if_neg hop, bind_of_ok (get_apply k)]
  simp only [hfound, hfree, Option.map_none, Option.getD_none]
  rfl

theorem createbuf_taken (hop : ¬(opdesc < 0 ∨ 1 < opdesc)) (hfound : findName k straddr = some j)
    (hj : 0 < j.val) (htaken : (k.ringbufs j).pidsRW (ringEndOf opdesc) ≠ 0 ∨
      (k.ringbufs j).refcount < 0) : createbuf im p straddr opdesc retvaddr k = .ok (-1, k) := by
  have hattach : attachRing im p j (ringEndOf opdesc) k = .ok (false, k) := by
    rw [attachRing, bind_of_ok (get_apply k), if_pos htaken]
    rfl
  have hpos : (0 : Int) < j.val := by exact_mod_cast hj
  rw [createbuf, if_neg hop, bind_of_ok (get_apply k)]
  simp only [hfound, Option.map_some, Option.getD_some, if_pos hpos, slotAt_val, pure_bind]
  rw [bind_of_ok hattach]
  rfl

/-- The slot while its ring is mapped for another holder. -/
def Ringbuf.attaching (b : Ringbuf) (d : RingEnd) (pid : Nat) : Ringbuf :=
  { b with pidsRW := update b.pidsRW d pid, refcount := b.refcount + 1 }

theorem ringEnd_neZero : NeZero 2 := ⟨by decide⟩

/-- The slot while a new ring is mapped. -/
def Ringbuf.making (b : Ringbuf) (name : CString) (d : RingEnd) (pid : Nat) : Ringbuf :=
  haveI := ringEnd_neZero
  { b with
    refcount := b.refcount + 1
    pidsRW := update (update b.pidsRW (1 - d) 0) d pid
    name := name.safestrcpy 8 }

variable {d : RingEnd}

theorem ringEnd_eq_other {e : RingEnd} (h : e ≠ d) : e = 1 - d := by
  revert d e
  decide

theorem Ringbuf.making_pidsRW (b : Ringbuf) (name : CString) (d e : RingEnd) (pid : Nat) :
    (b.making name d pid).pidsRW e = if e = d then pid else 0 := by
  by_cases he : e = d
  · simp [Ringbuf.making, he]
  · simp only [Ringbuf.making, update_of_ne he, if_neg he]
    rw [ringEnd_eq_other he, update_self]

/-- What `createbuf` does once it has found the slot `j`: the slot becomes `b`, and the ring is
mapped.  If this works the caller gets `res`, and otherwise the slot is changed again. -/
def Maps (im : Image) (p : ProcId) (straddr : CString) (opdesc : Int) (retvaddr : Nat)
    (k : KernelState) (j : Slot) (newmap : Bool) (b : Ringbuf) (undo : Ringbuf → Ringbuf)
    (res : Int) : Prop :=
  createbuf im p straddr opdesc retvaddr k = (do
    if (← processSpaceMapper im p j newmap) ≠ 0 then
      modify fun (k : KernelState) => k.setSlot j undo
      return -1
    else
      publishRing p j retvaddr
      return res) (k.setSlot j fun _ => b)

/-- `createbuf` for a ring found after slot 0. -/
theorem maps_attach (hop : ¬(opdesc < 0 ∨ 1 < opdesc)) (hfound : findName k straddr = some j)
    (hj : 0 < j.val) (hend : (k.ringbufs j).pidsRW (ringEndOf opdesc) = 0)
    (hcount : 0 ≤ (k.ringbufs j).refcount) :
    Maps im p straddr opdesc retvaddr k j false
      ((k.ringbufs j).attaching (ringEndOf opdesc) (k.proc p).pid)
      (fun b => { b with
        pidsRW := update b.pidsRW (ringEndOf opdesc) 0
        refcount := b.refcount - 1 }) 0 := by
  have hpos : (0 : Int) < j.val := by exact_mod_cast hj
  rw [Maps, createbuf, if_neg hop, bind_of_ok (get_apply k)]
  simp only [hfound, Option.map_some, Option.getD_some, if_pos hpos, slotAt_val, Option.isSome_some,
    pure_bind, if_true, attachRing, bind_assoc]
  rw [bind_of_ok (get_apply k), if_neg (by simp [hend, hcount]), bind_assoc,
    bind_of_ok (modify_apply _ _), bind_assoc]
  refine congrFun (bind_congr fun r => ?_) _
  by_cases hr : r = 0
  · simp [hr]
  · simp [hr]

/-- `createbuf` for a ring that is not found after slot 0, if there is a slot for it. -/
theorem maps_make (hop : ¬(opdesc < 0 ∨ 1 < opdesc))
    (hfound : ∀ i, findName k straddr = some i → i.val = 0) (hslot : makeSlot k straddr = some j) :
    Maps im p straddr opdesc retvaddr k j true
      ((k.ringbufs j).making straddr (ringEndOf opdesc) (k.proc p).pid)
      (fun b => { b with name := .empty, pidsRW := update b.pidsRW (ringEndOf opdesc) 0 })
      (if (findName k straddr).isSome then 0 else 1) := by
  have hpos : ¬(0 : Int) < ((findName k straddr).map fun i => (i.val : Int)).getD (-1) := by
    cases hname : findName k straddr with
    | none => simp
    | some i => simp [hfound i hname]
  have hindex : ((findFree k).map fun i => (i.val : Int)).getD
      (((findName k straddr).map fun i => (i.val : Int)).getD (-1)) = j.val := by
    rcases Option.or_eq_some_iff.mp hslot with hfree | ⟨hfree, hname⟩
    · rw [hfree, Option.map_some, Option.getD_some]
    · rw [hfree, hname, Option.map_none, Option.getD_none, Option.map_some, Option.getD_some]
  rw [Maps, createbuf, if_neg hop, bind_of_ok (get_apply k)]
  simp only [if_neg hpos, hindex, slotAt_val, pure_bind, makeRing, bind_assoc]
  rw [bind_of_ok (modify_apply _ _)]
  refine congrFun (bind_congr fun r => ?_) _
  by_cases hr : r = 0
  · simp [hr]
  · simp [hr]

namespace Maps

variable {b : Ringbuf} {undo : Ringbuf → Ringbuf} {res : Int} {k' : KernelState} {e : Fault}

variable (h : Maps im p straddr opdesc retvaddr k j newmap b undo res)
include h

theorem of_none (hw : firstWindow k.ram.mem (k.proc p).pagetable = none) :
    createbuf im p straddr opdesc retvaddr k = .ok (-1, k.setSlot j fun _ => undo b) := by
  rw [h, bind_of_ok (processSpaceMapper_none (k := k.setSlot j fun _ => b) rfl hw),
    if_pos (by decide), bind_of_ok (modify_apply _ _), KernelState.setSlot_setSlot]
  rfl

theorem of_ok (hmap : processSpaceMapper im p j newmap (k.setSlot j fun _ => b) = .ok (0, k2))
    (hpublish : publishRing p j retvaddr k2 = .ok ((), k')) :
    createbuf im p straddr opdesc retvaddr k = .ok (res, k') := by
  rw [h, bind_of_ok hmap, if_neg (by decide), bind_of_ok hpublish]
  rfl

theorem of_error (hmap : processSpaceMapper im p j newmap (k.setSlot j fun _ => b) = .error e) :
    createbuf im p straddr opdesc retvaddr k = .error e := by
  rw [h]
  exact bind_of_error hmap

end Maps

/-- Without a free window an attempt to attach changes nothing. -/
theorem createbuf_attach_none (hop : ¬(opdesc < 0 ∨ 1 < opdesc))
    (hfound : findName k straddr = some j) (hj : 0 < j.val)
    (hend : (k.ringbufs j).pidsRW (ringEndOf opdesc) = 0) (hcount : 0 ≤ (k.ringbufs j).refcount)
    (hw : firstWindow k.ram.mem (k.proc p).pagetable = none) :
    createbuf im p straddr opdesc retvaddr k = .ok (-1, k) := by
  rw [(maps_attach hop hfound hj hend hcount).of_none hw, KernelState.setSlot_eq_self]
  simp only [Ringbuf.attaching, update_idem, Int.add_sub_cancel]
  rw [← hend, update_eq_self]

/-- Without a free window an attempt to make a ring leaves its slot counted. -/
theorem createbuf_make_none (hop : ¬(opdesc < 0 ∨ 1 < opdesc))
    (hfound : ∀ i, findName k straddr = some i → i.val = 0) (hslot : makeSlot k straddr = some j)
    (hw : firstWindow k.ram.mem (k.proc p).pagetable = none) :
    createbuf im p straddr opdesc retvaddr k = .ok (-1, k.setSlot j fun b =>
      { b with refcount := b.refcount + 1, name := .empty, pidsRW := fun _ => 0 }) := by
  have hpids : ∀ (d : RingEnd) (pids : RingEnd → Nat) (pid : Nat),
      update (update (update pids (1 - d) 0) d pid) d 0 = fun _ => 0 := by
    intro d pids pid
    funext e
    rw [update_idem]
    by_cases he : e = d
    · rw [he, update_self]
    · rw [update_of_ne he, ringEnd_eq_other he, update_self]
  rw [(maps_make hop hfound hslot).of_none hw]
  simp only [Ringbuf.making, hpids]
  rfl

end Open

namespace Spaces

variable {im : Image} {own : Nat → Role} {holds : List Holding} {k : KernelState} {a c : Holding}
  {straddr : CString} {opdesc : Int} {j : Slot} {p : ProcId} {w : Fin 10}

variable (h : Spaces im own holds k)
include h

/-- Mapping a ring fills the first window that nobody holds. -/
theorem mapper_empty (hp : (k.proc p).pagetable ≠ 0)
    (hw : firstWindow k.ram.mem (k.proc p).pagetable = some w) (hat : heldAt holds p w = none)
    (newmap : Bool) (b : Ringbuf) (hpages : newmap = false → RingOwned own j b) :
    ∃ k' own', processSpaceMapper im p j newmap (k.setSlot j fun _ => b) = .ok (0, k') ∧
      RingMapped im (IsRoot k.proc) (k.proc p).pagetable j newmap (window w) own own'
        (k.setSlot j fun _ => b) k' := by
  obtain ⟨nd, htop⟩ := (h.space p hp).exists_top
  refine processSpaceMapper_of_empty h.owned (isRoot hp) rfl htop hw
    (fun i hi => by simp [h.leaf_of_none hp hat (Nat.lt_succ_of_lt hi)]) fun hfalse => ?_
  rw [KernelState.setSlot_same]
  exact ⟨fun i => (hpages hfalse).data_lt h.owned i, (hpages hfalse).book_lt h.owned⟩

/-- A window that looks free because its ring has no first page is mapped again, which stops the
machine. -/
theorem createbuf_remap {newmap : Bool} {b : Ringbuf} {undo : Ringbuf → Ringbuf} {res : Int}
    {retvaddr : Nat} (hmaps : Maps im p straddr opdesc retvaddr k j newmap b undo res)
    (hp : (k.proc p).pagetable ≠ 0) (hw : firstWindow k.ram.mem (k.proc p).pagetable = some w)
    (hat : heldAt holds p w = some c) : ∃ e, createbuf im p straddr opdesc retvaddr k = .error e := by
  obtain ⟨nd, htop⟩ := (h.space p hp).exists_top
  obtain ⟨hc, rfl, rfl⟩ := mem_of_heldAt hat
  refine ⟨_, hmaps.of_error (processSpaceMapper_remap (k := k.setSlot j fun _ => b) (i := 0) h.owned
    (isRoot hp) rfl htop hw (by decide) nofun ?_ nofun)⟩
  rw [KernelState.setSlot_ram, h.leaf_of_mem hc (i := 0) (by omega)]
  exact mkPte_valid ringPerm_lt

/-- `createbuf` opens an end of the ring in the slot it has found. -/
theorem createbuf_opened {newmap : Bool} {b : Ringbuf} {undo : Ringbuf → Ringbuf} {res : Int}
    {retvaddr : Nat}
    (hmaps : Maps im a.proc straddr opdesc retvaddr k a.slot newmap b undo res)
    (hp : (k.proc a.proc).pagetable ≠ 0)
    (hw : firstWindow k.ram.mem (k.proc a.proc).pagetable = some a.window)
    (hat : heldAt holds a.proc a.window = none)
    (hnew : newmap = true → ∀ c ∈ holds, c.slot ≠ a.slot)
    (hold : newmap = false → RingOwned own a.slot (k.ringbufs a.slot))
    (hpages : b.bufPA = (k.ringbufs a.slot).bufPA ∧ b.book = (k.ringbufs a.slot).book)
    (hrefcount : b.refcount = (k.ringbufs a.slot).refcount + 1)
    (hpids : ∀ e, b.pidsRW e = if e = a.ringEnd then (k.proc a.proc).pid
      else if newmap then 0 else (k.ringbufs a.slot).pidsRW e)
    (hname : b.name = if newmap then a.name.safestrcpy 8 else (k.ringbufs a.slot).name) :
    ∃ k' own', createbuf im a.proc straddr opdesc retvaddr k = .ok (res, k') ∧
      Opened im own own' holds a newmap retvaddr k k' := by
  obtain ⟨k2, own', hmap, hmapped⟩ := h.mapper_empty (j := a.slot) hp hw hat newmap b
    fun hfalse => (hold hfalse).congr hpages fun _ _ => rfl
  obtain ⟨k', hpublish, hopened⟩ := publish_opened newmap b h hp hat hnew hold hpages hrefcount
    hpids hname hmapped retvaddr
  exact ⟨k', own', hmaps.of_ok hmap hpublish, hopened⟩

end Spaces

/-! ## Closing an end -/

/-- The slot of a ring after one of its ends was closed. -/
def Ringbuf.closing (b : Ringbuf) (last : Bool) : Ringbuf :=
  if last then b.cleared else { b with refcount := b.refcount - 1 }

/-- What closing an end of a ring leaves behind. -/
structure Closed (im : Image) (own own' : Nat → Role) (holds : List Holding) (a : Holding)
    (last : Bool) (k k' : KernelState) : Prop where
  spaces : Spaces im own' (holds.erase a) k'
  unmapped : RingUnmapped im (IsRoot k.proc) (k.proc a.proc).pagetable (window a.window)
    (k.ringbufs a.slot) last own own' k.ram k'.ram
  other : ∀ i, i ≠ a.slot → k'.ringbufs i = k.ringbufs i
  slot : k'.ringbufs a.slot = (k.ringbufs a.slot).closing last
  proc : k'.proc = update k.proc a.proc { k.proc a.proc with
    validRingBuf := if pidRingValid k' (k.proc a.proc).pid then 1 else 0 }
  rest : k'.nextpid = k.nextpid ∧ k'.initproc = k.initproc

/-- Without the name in the table the search runs beyond it. -/
theorem closebuf_unknown {im : Image} {p : ProcId} {opdesc : Int}
    (hfound : findName k straddr = none) :
    closebuf im p straddr opdesc k = .error (.outOfBounds maxRingbufs) := by
  rw [closebuf, bind_of_ok (get_apply k), hfound]
  rfl

namespace Spaces

variable {im : Image} {own : Nat → Role} {holds : List Holding} {k : KernelState} {a : Holding}
  {straddr : CString} {last : Bool}

/-- `closebuf` by a holder whose window is where the ring was mapped last. -/
theorem closebuf (h : Spaces im own holds k) (hnodup : holds.Nodup) (ha : a ∈ holds)
    (hfound : findName k straddr = some a.slot) (hva : (k.ringbufs a.slot).vabuf = window a.window)
    (hcount : last = decide ((k.ringbufs a.slot).refcount - 1 < 1))
    (hlast : last = true → (k.ringbufs a.slot).Backed ∧ ∀ b ∈ holds, b.slot = a.slot → b = a)
    (opdesc : Int) :
    ∃ k' own', Kernel.closebuf im a.proc straddr opdesc k = .ok (0, k') ∧
      Closed im own own' holds a last k k' := by
  have hp := h.held_root a ha
  obtain ⟨t, own', hrun, hunmapped⟩ := unmapRing_spec h.owned (isRoot hp)
    (fun i hi => h.leaf_of_mem ha hi) (h.held_pages a ha) fun hlast' => (hlast hlast').1
  let k2 : KernelState := { k.setSlot a.slot fun b => b.closing last with ram := t }
  have hslot2 : k2.ringbufs a.slot = (k.ringbufs a.slot).closing last :=
    KernelState.setSlot_same k a.slot fun b => b.closing last
  have hother2 : ∀ i, i ≠ a.slot → k2.ringbufs i = k.ringbufs i :=
    fun i hi => KernelState.setSlot_ne k a.slot (fun b => b.closing last) hi
  have hsame : SameSpaces k.proc (k2.setProc a.proc fun q =>
      { q with validRingBuf := if pidRingValid k2 q.pid then 1 else 0 }).proc :=
    sameSpaces_setProc k2 a.proc fun _ => ⟨rfl, rfl, rfl⟩
  refine ⟨_, own', ?_, h.unmap ha hnodup hunmapped hsame hlast ?_, hunmapped, hother2, hslot2, rfl,
    ⟨rfl, rfl⟩⟩
  · rw [Kernel.closebuf, bind_of_ok (get_apply k), hfound]
    simp only [← hcount]
    rw [bind_of_ok (set_apply _ _), bind_of_ok (onRam_of_ok (by rw [hva]; exact hrun)),
      bind_of_ok (modify_apply _ _)]
    rfl
  · intro b hb
    rw [KernelState.setProc_ringbufs]
    obtain ⟨hne, hb'⟩ := (hnodup.mem_erase_iff).mp hb
    by_cases hslot : b.slot = a.slot
    · cases last with
      | true => exact (hne ((hlast rfl).2 b hb' hslot)).elim
      | false =>
        rw [hslot, hslot2]
        exact ⟨rfl, rfl⟩
    · rw [hother2 _ hslot]
      exact ⟨rfl, rfl⟩

/-- The last holder of a ring without all its pages cannot close it. -/
theorem closebuf_null (h : Spaces im own holds k) (ha : a ∈ holds)
    (hfound : findName k straddr = some a.slot) (hva : (k.ringbufs a.slot).vabuf = window a.window)
    (hcount : (k.ringbufs a.slot).refcount - 1 < 1) (hnull : ¬(k.ringbufs a.slot).Backed)
    (opdesc : Int) : ∃ e, Kernel.closebuf im a.proc straddr opdesc k = .error e := by
  obtain ⟨e, he⟩ := unmapRing_null h.owned (isRoot (h.held_root a ha))
    (fun i hi => h.leaf_of_mem ha hi) (h.held_pages a ha) hnull
  refine ⟨e, ?_⟩
  rw [Kernel.closebuf, bind_of_ok (get_apply k), hfound]
  simp only [hcount, decide_true]
  rw [bind_of_ok (set_apply _ _), bind_of_error]
  refine onRam_of_error ?_
  rw [hva]
  exact he

end Spaces

/-! ## The bookkeeping after a call -/

theorem proc_flag_update (k : KernelState) (p q : ProcId) (flag : Int) :
    (update k.proc p { k.proc p with validRingBuf := flag } q).pagetable = (k.proc q).pagetable ∧
      (update k.proc p { k.proc p with validRingBuf := flag } q).sz = (k.proc q).sz ∧
      ((update k.proc p { k.proc p with validRingBuf := flag } q).state = .unused ↔
        (k.proc q).state = .unused) ∧
      (update k.proc p { k.proc p with validRingBuf := flag } q).pid = (k.proc q).pid := by
  by_cases hq : q = p
  · subst hq
    rw [update_self]
    exact ⟨rfl, rfl, Iff.rfl, rfl⟩
  · rw [update_of_ne hq]
    exact ⟨rfl, rfl, Iff.rfl, rfl⟩

namespace Ledger

variable {im : Image} {own own' : Nat → Role} {holds : List Holding} {k k' : KernelState}
  {a : Holding} {newmap last : Bool} {retvaddr : Nat}

/-- The holder of a newly opened end is recorded.  The slot was free, or the end was. -/
theorem opened (h : Ledger holds k) (hpid : ∀ c ∈ holds, (k.proc c.proc).pid ≠ 0)
    (ho : Opened im own own' holds a newmap retvaddr k k')
    (hmake : newmap = true → (k.ringbufs a.slot).refcount = 0)
    (hattach : newmap = false → (∃ c ∈ holds, c.slot = a.slot) ∧
      (k.ringbufs a.slot).pidsRW a.ringEnd = 0 ∧
      (k.ringbufs a.slot).name = a.name.safestrcpy 8) : Ledger (a :: holds) k' := by
  have hpid' : ∀ p, (k'.proc p).pid = (k.proc p).pid := fun p => by
    rw [ho.proc, (proc_flag_update k _ _ _).2.2.2]
  have hfresh : ∀ c ∈ holds, c.slot = a.slot → c.ringEnd ≠ a.ringEnd := by
    intro c hc hslot hend
    cases newmap with
    | true => exact h.ne_slot_of_zero (hmake rfl) hc hslot
    | false => exact hpid c hc (by rw [← h.held_pid c hc, hslot, hend, (hattach rfl).2.1])
  have hname : (k'.ringbufs a.slot).name = a.name.safestrcpy 8 := by
    rw [ho.name]
    cases newmap with
    | true => rfl
    | false => exact (hattach rfl).2.2
  have hcount : (k.ringbufs a.slot).refcount = holds.countP fun b => b.slot = a.slot := by
    cases newmap with
    | true =>
      rw [hmake rfl, eq_comm]
      have hnone : holds.countP (fun b => b.slot = a.slot) = 0 := by
        refine List.countP_eq_zero.mpr fun c hc => ?_
        simpa using h.ne_slot_of_zero (hmake rfl) hc
      exact_mod_cast hnone
    | false =>
      obtain ⟨c, hc, hslot⟩ := (hattach rfl).1
      rw [← hslot]
      exact h.refcount c hc
  refine ⟨?_, ?_, ?_, ?_, ?_, ?_, ?_⟩
  · exact List.nodup_cons.mpr ⟨fun hmem => hfresh a hmem rfl rfl, h.nodup⟩
  · intro b hb c hc hslot hend
    rcases List.mem_cons.mp hb with rfl | hb'
    · rcases List.mem_cons.mp hc with rfl | hc'
      · rfl
      · exact (hfresh c hc' hslot.symm hend.symm).elim
    · rcases List.mem_cons.mp hc with rfl | hc'
      · exact (hfresh b hb' hslot hend).elim
      · exact h.held_end b hb' c hc' hslot hend
  · intro c hc
    rw [hpid']
    rcases List.mem_cons.mp hc with rfl | hc'
    · rw [ho.pids, if_pos rfl]
    · by_cases hslot : c.slot = a.slot
      · cases newmap with
        | true => exact (h.ne_slot_of_zero (hmake rfl) hc' hslot).elim
        | false =>
          rw [hslot, ho.pids, if_neg (hfresh c hc' hslot), if_neg (by simp), ← hslot,
            h.held_pid c hc']
      · rw [ho.other c.slot hslot, h.held_pid c hc']
  · intro c hc
    rcases List.mem_cons.mp hc with rfl | hc'
    · exact hname
    · by_cases hslot : c.slot = a.slot
      · cases newmap with
        | true => exact (h.ne_slot_of_zero (hmake rfl) hc' hslot).elim
        | false => rw [hslot, hname, ← (hattach rfl).2.2, ← hslot, h.held_name c hc']
      · rw [ho.other c.slot hslot, h.held_name c hc']
  · intro c hc
    rw [List.countP_cons]
    by_cases hslot : c.slot = a.slot
    · simp only [hslot, decide_true, if_true]
      rw [ho.refcount, hcount]
      rfl
    · have hc' : c ∈ holds := (List.mem_cons.mp hc).resolve_left fun hca => hslot (hca ▸ rfl)
      rw [ho.other c.slot hslot, if_neg (by simpa using Ne.symm hslot)]
      exact h.refcount c hc'
  · intro j
    by_cases hj : j = a.slot
    · rw [hj, ho.refcount]
      have := h.nonneg a.slot
      omega
    · rw [ho.other j hj]
      exact h.nonneg j
  · intro j hj
    by_cases hja : j = a.slot
    · exact ⟨a, by simp, hja.symm⟩
    · rw [ho.other j hja] at hj
      obtain ⟨c, hc, hslot⟩ := h.named j hj
      exact ⟨c, by simp [hc], hslot⟩

theorem countP_erase (ha : a ∈ holds) (j : Slot) : (holds.countP fun b => b.slot = j) =
    ((holds.erase a).countP fun b => b.slot = j) + if a.slot = j then 1 else 0 := by
  rw [(List.perm_cons_erase ha).countP_eq, List.countP_cons]
  simp

/-- The number of holders decides which close is the last one. -/
theorem last_iff (h : Ledger holds k) (ha : a ∈ holds) :
    (k.ringbufs a.slot).refcount - 1 < 1 ↔ ∀ b ∈ holds, b.slot = a.slot → b = a := by
  have hcount := h.refcount a ha
  rw [countP_erase ha, if_pos rfl] at hcount
  constructor
  · intro hlast b hb hslot
    have hzero : ((holds.erase a).countP fun b => b.slot = a.slot) = 0 := by omega
    by_contra hne
    have := List.countP_eq_zero.mp hzero b ((h.nodup.mem_erase_iff).mpr ⟨hne, hb⟩)
    simp [hslot] at this
  · intro hall
    have hzero : ((holds.erase a).countP fun b => b.slot = a.slot) = 0 := by
      refine List.countP_eq_zero.mpr fun b hb => ?_
      obtain ⟨hne, hb'⟩ := (h.nodup.mem_erase_iff).mp hb
      simpa using fun hslot => hne (hall b hb' hslot)
    omega

/-- The holder of a closed end is no longer recorded. -/
theorem closed (h : Ledger holds k) (ha : a ∈ holds) (hc : Closed im own own' holds a last k k')
    (hcount : last = decide ((k.ringbufs a.slot).refcount - 1 < 1)) :
    Ledger (holds.erase a) k' := by
  have hpid' : ∀ p, (k'.proc p).pid = (k.proc p).pid := fun p => by
    rw [hc.proc, (proc_flag_update k _ _ _).2.2.2]
  -- A slot that is still held was not cleared.
  have hslot : ∀ b ∈ holds.erase a, k'.ringbufs b.slot = { k.ringbufs b.slot with
      refcount := (k.ringbufs b.slot).refcount - if a.slot = b.slot then 1 else 0 } := by
    intro b hb
    obtain ⟨hne, hb'⟩ := (h.nodup.mem_erase_iff).mp hb
    by_cases hba : b.slot = a.slot
    · have hfalse : last = false := by
        rw [hcount, decide_eq_false_iff_not, h.last_iff ha]
        exact fun hall => hne (hall b hb' hba)
      rw [hba, hc.slot, hfalse, if_pos rfl]
      rfl
    · rw [hc.other _ hba, if_neg (Ne.symm hba), Int.sub_zero]
  refine ⟨h.nodup.erase a, ?_, ?_, ?_, ?_, ?_, ?_⟩
  · exact fun b hb c hc => h.held_end b (List.mem_of_mem_erase hb) c (List.mem_of_mem_erase hc)
  · intro b hb
    rw [hslot b hb, hpid']
    exact h.held_pid b (List.mem_of_mem_erase hb)
  · intro b hb
    rw [hslot b hb]
    exact h.held_name b (List.mem_of_mem_erase hb)
  · intro b hb
    have hb' := h.refcount b (List.mem_of_mem_erase hb)
    rw [countP_erase ha] at hb'
    rw [hslot b hb]
    simp only
    split at hb'
    next heq =>
      rw [if_pos heq, hb']
      push_cast
      omega
    next heq =>
      rw [if_neg heq, hb']
      push_cast
      omega
  · intro j
    by_cases hj : j = a.slot
    · rw [hj, hc.slot, Ringbuf.closing]
      have hpos := h.refcount_pos ha
      split
      next => exact le_rfl
      next => exact Int.le_sub_one_of_lt hpos
    · rw [hc.other j hj]
      exact h.nonneg j
  · intro j hj
    by_cases hja : j = a.slot
    · subst hja
      rw [hc.slot, Ringbuf.closing] at hj
      cases last with
      | true => exact (hj rfl).elim
      | false =>
        have hmore := of_decide_eq_false hcount.symm
        rw [h.last_iff ha] at hmore
        push Not at hmore
        obtain ⟨b, hb, hslot, hne⟩ := hmore
        exact ⟨b, (h.nodup.mem_erase_iff).mpr ⟨hne, hb⟩, hslot⟩
    · rw [hc.other j hja] at hj
      obtain ⟨b, hb, hslot⟩ := h.named j hj
      exact ⟨b, (h.nodup.mem_erase_iff).mpr ⟨fun hba => hja (hba ▸ hslot.symm), hb⟩, hslot⟩

end Ledger

namespace Procs

variable {im : Image} {own own' : Nat → Role} {holds : List Holding} {k k' : KernelState}
  {a : Holding} {newmap last : Bool} {retvaddr : Nat}

theorem congr (h : Procs k) (hproc : ∀ p, (k'.proc p).pagetable = (k.proc p).pagetable ∧
      (k'.proc p).sz = (k.proc p).sz ∧ ((k'.proc p).state = .unused ↔ (k.proc p).state = .unused) ∧
      (k'.proc p).pid = (k.proc p).pid)
    (hnext : k'.nextpid = k.nextpid) (hlisted : ∀ j e, (k'.ringbufs j).pidsRW e < k.nextpid) :
    Procs k' where
  unused p := by rw [(hproc p).1, (hproc p).2.2.1, h.unused p]
  unused_sz p hp := by
    rw [(hproc p).1] at hp
    rw [(hproc p).2.1]
    exact h.unused_sz p hp
  pid_pos p hp := by
    rw [(hproc p).1] at hp
    rw [(hproc p).2.2.2]
    exact h.pid_pos p hp
  pid_inj p q hp hq heq := by
    rw [(hproc p).1] at hp
    rw [(hproc q).1] at hq
    rw [(hproc p).2.2.2, (hproc q).2.2.2] at heq
    exact h.pid_inj p q hp hq heq
  pid_lt p := by
    rw [(hproc p).2.2.2, hnext]
    exact h.pid_lt p
  listed_lt j e := by
    rw [hnext]
    exact hlisted j e

theorem pos (h : Procs k) : 0 < k.nextpid := Nat.lt_of_le_of_lt (Nat.zero_le _) (h.pid_lt 0)

theorem opened (h : Procs k) (ho : Opened im own own' holds a newmap retvaddr k k') : Procs k' := by
  refine h.congr (fun p => ?_) ho.rest.1 fun j e => ?_
  · rw [ho.proc]
    exact proc_flag_update k _ _ _
  · by_cases hj : j = a.slot
    · rw [hj, ho.pids]
      split
      next => exact h.pid_lt _
      next =>
        split
        next => exact h.pos
        next => exact h.listed_lt _ _
    · rw [ho.other j hj]
      exact h.listed_lt j e

theorem closed (h : Procs k) (hc : Closed im own own' holds a last k k') : Procs k' := by
  refine h.congr (fun p => ?_) hc.rest.1 fun j e => ?_
  · rw [hc.proc]
    exact proc_flag_update k _ _ _
  · by_cases hj : j = a.slot
    · rw [hj, hc.slot, Ringbuf.closing]
      split
      next => exact h.pos
      next => exact h.listed_lt _ _
    · rw [hc.other j hj]
      exact h.listed_lt j e

end Procs

/-! ## Outcomes of a call -/

theorem name_of_findName {j : Slot} (h : findName k straddr = some j) :
    (k.ringbufs j).name = straddr := by
  have hcmp := List.find?_some h
  simp only [decide_eq_true_eq, strcmp_eq_zero_iff] at hcmp
  exact hcmp.symm

theorem refcount_of_findFree {j : Slot} (h : findFree k = some j) :
    (k.ringbufs j).refcount = 0 := by
  simpa using List.find?_some h

/-- Whether `createbuf` attaches to a ring it found, rather than make one. -/
def attaches (k : KernelState) (straddr : CString) : Bool :=
  match findName k straddr with
  | some j => 0 < j.val
  | none => false

theorem attaches_iff :
    attaches k straddr = true ↔ ∃ j, findName k straddr = some j ∧ 0 < j.val := by
  unfold attaches
  cases findName k straddr with
  | none => simp
  | some j => simp

theorem attaches_eq_false_iff :
    attaches k straddr = false ↔ ∀ j, findName k straddr = some j → j.val = 0 := by
  unfold attaches
  cases findName k straddr with
  | none => simp
  | some j => simp

/-- The slot `createbuf` works on. -/
def targetSlot (k : KernelState) (straddr : CString) : Option Slot :=
  if attaches k straddr then findName k straddr else findFree k

/-- The end that a successful `createbuf` opens. -/
def openedEnd (k : KernelState) (p : ProcId) (straddr : CString) (opdesc : Int) :
    Option Holding := do
  let j ← targetSlot k straddr
  let w ← firstWindow k.ram.mem (k.proc p).pagetable
  return ⟨p, straddr, ringEndOf opdesc, j, w⟩

/-- A name is given, and the table has a free slot unless the ring can be attached to or is
not there. -/
def CreateSafe (k : KernelState) (straddr : CString) : Prop :=
  straddr ≠ .empty ∧ (findFree k = none → ∀ j, findName k straddr = some j → 0 < j.val)

/-- What a failed attempt to make a ring leaves in the slot. -/
def Ringbuf.leaked (b : Ringbuf) : Ringbuf :=
  { b with refcount := b.refcount + 1, name := .empty, pidsRW := fun _ => 0 }

namespace KernelInv

variable {im : Image} {own : Nat → Role} {holds : List Holding} {k k' : KernelState} {a : Holding}
  {straddr : CString} {opdesc res : Int} {retvaddr : Nat} {p : ProcId}

variable (h : KernelInv im own holds k)
include h

theorem exists_holder (hname : straddr ≠ .empty) {j : Slot} (hfound : findName k straddr = some j) :
    ∃ c ∈ holds, c.slot = j :=
  h.ledger.named j (by rwa [name_of_findName hfound])

/-- A name by which a ring is found is stored completely. -/
theorem safestrcpy_of_found (hname : straddr ≠ .empty) {j : Slot}
    (hfound : findName k straddr = some j) : straddr.safestrcpy 8 = straddr := by
  obtain ⟨c, hc, rfl⟩ := h.exists_holder hname hfound
  rw [← name_of_findName hfound, h.ledger.held_name c hc, CString.safestrcpy_safestrcpy]

/-- `createbuf` attaches the caller to a free end of a ring. -/
theorem attach (hp : (k.proc a.proc).pagetable ≠ 0) (hop : ¬(opdesc < 0 ∨ 1 < opdesc))
    (had : a.ringEnd = ringEndOf opdesc) (hname : a.name ≠ .empty)
    (hfound : findName k a.name = some a.slot) (hj : 0 < a.slot.val)
    (hend : (k.ringbufs a.slot).pidsRW a.ringEnd = 0)
    (hw : firstWindow k.ram.mem (k.proc a.proc).pagetable = some a.window)
    (hat : heldAt holds a.proc a.window = none) (retvaddr : Nat) :
    ∃ k' own', createbuf im a.proc a.name opdesc retvaddr k = .ok (0, k') ∧
      Opened im own own' holds a false retvaddr k k' ∧ KernelInv im own' (a :: holds) k' := by
  obtain ⟨c, hc, hslot⟩ := h.exists_holder hname hfound
  obtain ⟨k', own', hrun, ho⟩ := h.spaces.createbuf_opened
    (maps_attach hop hfound hj (had ▸ hend) (h.ledger.nonneg _)) hp hw hat (by simp)
    (fun _ => hslot ▸ h.spaces.held_pages c hc) ⟨rfl, rfl⟩ rfl
    (fun e => by simp [Ringbuf.attaching, update_apply, had]) rfl
  refine ⟨k', own', hrun, ho, ho.spaces, h.ledger.opened ?_ ho (by simp) fun _ => ?_,
    h.procs.opened ho⟩
  · exact fun b hb => h.procs.pid_pos _ (h.spaces.held_root b hb)
  · refine ⟨⟨c, hc, hslot⟩, hend, ?_⟩
    rw [h.safestrcpy_of_found hname hfound, name_of_findName hfound]

/-- `createbuf` makes a ring in a free slot. -/
theorem make (hp : (k.proc a.proc).pagetable ≠ 0) (hop : ¬(opdesc < 0 ∨ 1 < opdesc))
    (had : a.ringEnd = ringEndOf opdesc) (hfound : ∀ i, findName k a.name = some i → i.val = 0)
    (hfree : findFree k = some a.slot)
    (hw : firstWindow k.ram.mem (k.proc a.proc).pagetable = some a.window)
    (hat : heldAt holds a.proc a.window = none) (retvaddr : Nat) :
    ∃ k' own', createbuf im a.proc a.name opdesc retvaddr k =
        .ok (if (findName k a.name).isSome then 0 else 1, k') ∧
      Opened im own own' holds a true retvaddr k k' ∧ KernelInv im own' (a :: holds) k' := by
  have hzero := refcount_of_findFree hfree
  obtain ⟨k', own', hrun, ho⟩ := h.spaces.createbuf_opened
    (maps_make hop hfound (makeSlot_of_free hfree)) hp hw hat
    (fun _ c hc => h.ledger.ne_slot_of_zero hzero hc) (by simp) ⟨rfl, rfl⟩ rfl
    (fun e => by simp [Ringbuf.making_pidsRW, had]) rfl
  refine ⟨k', own', hrun, ho, ho.spaces, h.ledger.opened ?_ ho (fun _ => hzero) (by simp),
    h.procs.opened ho⟩
  exact fun b hb => h.procs.pid_pos _ (h.spaces.held_root b hb)

/-- `closebuf` by a holder whose window is where the ring was mapped last, if the last
holder of a ring finds all its pages. -/
theorem close (ha : a ∈ holds) (hfound : findName k straddr = some a.slot)
    (hva : (k.ringbufs a.slot).vabuf = window a.window)
    (hbacked : (k.ringbufs a.slot).refcount - 1 < 1 → (k.ringbufs a.slot).Backed) (opdesc : Int) :
    ∃ k' own', closebuf im a.proc straddr opdesc k = .ok (0, k') ∧
      Closed im own own' holds a (decide ((k.ringbufs a.slot).refcount - 1 < 1)) k k' ∧
      KernelInv im own' (holds.erase a) k' := by
  obtain ⟨k', own', hrun, hc⟩ := h.spaces.closebuf h.ledger.nodup ha hfound hva rfl
    (fun hlast => by
      have hlast' := of_decide_eq_true hlast
      exact ⟨hbacked hlast', (h.ledger.last_iff ha).mp hlast'⟩) opdesc
  exact ⟨k', own', hrun, hc, hc.spaces, h.ledger.closed ha hc rfl, h.procs.closed hc⟩

/-- The outcomes of `createbuf` for a ring found after slot 0. -/
theorem attach_cases (hp : (k.proc p).pagetable ≠ 0) (hop : ¬(opdesc < 0 ∨ 1 < opdesc))
    (hname : straddr ≠ .empty) (hattaches : attaches k straddr = true)
    (hrun : createbuf im p straddr opdesc retvaddr k = .ok (res, k')) :
    (res = -1 ∧ k' = k) ∨ ∃ a own', openedEnd k p straddr opdesc = some a ∧ res = 0 ∧
      Opened im own own' holds a false retvaddr k k' ∧ KernelInv im own' (a :: holds) k' := by
  obtain ⟨j, hfound, hj⟩ := attaches_iff.mp hattaches
  by_cases hend : (k.ringbufs j).pidsRW (ringEndOf opdesc) = 0
  · cases hw : firstWindow k.ram.mem (k.proc p).pagetable with
    | none =>
      rw [createbuf_attach_none hop hfound hj hend (h.ledger.nonneg j) hw] at hrun
      cases hrun
      exact .inl ⟨rfl, rfl⟩
    | some w =>
      cases hat : heldAt holds p w with
      | some c =>
        obtain ⟨e, he⟩ := h.spaces.createbuf_remap
          (maps_attach hop hfound hj hend (h.ledger.nonneg j)) hp hw hat
        rw [he] at hrun
        cases hrun
      | none =>
        obtain ⟨k1, own', hrun1, ho, hinv⟩ := h.attach (a := ⟨p, straddr, ringEndOf opdesc, j, w⟩)
          hp hop rfl hname hfound hj hend hw hat retvaddr
        rw [hrun1] at hrun
        cases hrun
        refine .inr ⟨_, own', ?_, rfl, ho, hinv⟩
        simp [openedEnd, targetSlot, hattaches, hfound, hw]
  · rw [createbuf_taken hop hfound hj (.inl hend)] at hrun
    cases hrun
    exact .inl ⟨rfl, rfl⟩

/-- The outcomes of `createbuf` for a ring not found after slot 0. -/
theorem make_cases (hp : (k.proc p).pagetable ≠ 0) (hop : ¬(opdesc < 0 ∨ 1 < opdesc))
    (hsafe : CreateSafe k straddr) (hattaches : attaches k straddr = false)
    (hrun : createbuf im p straddr opdesc retvaddr k = .ok (res, k')) :
    (res = -1 ∧ firstWindow k.ram.mem (k.proc p).pagetable = none ∧
        ∃ j, findFree k = some j ∧ k' = k.setSlot j Ringbuf.leaked) ∨
      ∃ a own', openedEnd k p straddr opdesc = some a ∧
        res = (if (findName k straddr).isSome then 0 else 1) ∧
        Opened im own own' holds a true retvaddr k k' ∧ KernelInv im own' (a :: holds) k' := by
  have hfound := attaches_eq_false_iff.mp hattaches
  cases hfree : findFree k with
  | none =>
    have hnone : findName k straddr = none := by
      cases hi : findName k straddr with
      | none => rfl
      | some i => exact absurd (hfound i hi) (hsafe.2 hfree i hi).ne'
    rw [createbuf_full hop hnone hfree] at hrun
    cases hrun
  | some j =>
    cases hw : firstWindow k.ram.mem (k.proc p).pagetable with
    | none =>
      rw [createbuf_make_none hop hfound (makeSlot_of_free hfree) hw] at hrun
      cases hrun
      exact .inl ⟨rfl, rfl, j, rfl, rfl⟩
    | some w =>
      cases hat : heldAt holds p w with
      | some c =>
        obtain ⟨e, he⟩ := h.spaces.createbuf_remap
          (maps_make hop hfound (makeSlot_of_free hfree)) hp hw hat
        rw [he] at hrun
        cases hrun
      | none =>
        obtain ⟨k1, own', hrun1, ho, hinv⟩ := h.make (a := ⟨p, straddr, ringEndOf opdesc, j, w⟩)
          hp hop rfl hfound hfree hw hat retvaddr
        rw [hrun1] at hrun
        cases hrun
        refine .inr ⟨_, own', ?_, rfl, ho, hinv⟩
        simp [openedEnd, targetSlot, hattaches, hfree, hw]

/-- The outcomes of `createbuf`: it fails and changes nothing, it fails and leaves a slot
counted that nobody uses, or it opens an end. -/
theorem createbuf_cases (hp : (k.proc p).pagetable ≠ 0)
    (hsafe : ¬(opdesc < 0 ∨ 1 < opdesc) → CreateSafe k straddr)
    (hrun : createbuf im p straddr opdesc retvaddr k = .ok (res, k')) :
    (res = -1 ∧ k' = k) ∨ ¬(opdesc < 0 ∨ 1 < opdesc) ∧
        ((res = -1 ∧ firstWindow k.ram.mem (k.proc p).pagetable = none ∧
          attaches k straddr = false ∧ ∃ j, findFree k = some j ∧ k' = k.setSlot j Ringbuf.leaked) ∨
        ∃ a own', openedEnd k p straddr opdesc = some a ∧
          res = (if (findName k straddr).isSome then 0 else 1) ∧
          Opened im own own' holds a (!attaches k straddr) retvaddr k k' ∧
          KernelInv im own' (a :: holds) k') := by
  by_cases hop : opdesc < 0 ∨ 1 < opdesc
  · rw [createbuf_invalid hop] at hrun
    cases hrun
    exact .inl ⟨rfl, rfl⟩
  have hsafe := hsafe hop
  cases hattaches : attaches k straddr with
  | true =>
    rcases h.attach_cases hp hop hsafe.1 hattaches hrun with hfail | ⟨a, own', ha, hres, ho, hinv⟩
    · exact .inl hfail
    · obtain ⟨j, hfound, -⟩ := attaches_iff.mp hattaches
      refine .inr ⟨hop, .inr ⟨a, own', ha, ?_, ho, hinv⟩⟩
      rw [hres, hfound]
      rfl
  | false =>
    rcases h.make_cases hp hop hsafe hattaches hrun with ⟨hres, hw, hleak⟩ | hopened
    · exact .inr ⟨hop, .inl ⟨hres, hw, rfl, hleak⟩⟩
    · exact .inr ⟨hop, .inr hopened⟩

end KernelInv

end Kernel
end FastIpc
