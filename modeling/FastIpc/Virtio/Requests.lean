import FastIpc.Virtio.Driver
import Mathlib

/-!
# Tracking disk requests

Which descriptors belong to which request, and where a request is: in the avail ring, with the
device, in the used ring or done.  A request is in flight while its call of
`virtio_disk_rw` waits for it; its three descriptors are its own, and its head is at exactly
one of these places.

Main results:

- Theorem `Inv.step`: every step keeps this bookkeeping right.
- Theorem `requests_tracked`: what follows for every interleaving.
-/

namespace FastIpc
namespace Virtio

open Foundation FaultM
open Function (update update_apply update_comm update_eq_self update_idem update_of_ne update_self)

variable {B : Type}

/-! ## The bookkeeping -/

/-- A descriptor is free exactly if no request in flight owns it, and no two requests own the same
descriptor. -/
structure Owners (s : State B) : Prop where
  free_iff : ∀ i, s.disk.free i = true ↔ ∀ b t, s.call b = .waiting t → i ∉ t.toList
  nodup : ∀ b t, s.call b = .waiting t → t.toList.Nodup
  disjoint : ∀ b b' t t', s.call b = .waiting t → s.call b' = .waiting t' → b ≠ b' →
    t.toList.Disjoint t'.toList

/-- The descriptors of a request form its chain. -/
structure Linked (desc : Fin num → Desc B) (t : Triple) : Prop where
  head : (desc t.head).flags = flagNext ∧ (desc t.head).next = BitVec.ofNat 16 t.data
  data : (desc t.data).flags &&& flagNext ≠ 0 ∧ (desc t.data).next = BitVec.ofNat 16 t.status
  status : (desc t.status).flags = flagWrite ∧ (desc t.status).addr = .status t.head

/-- The chain of a request, whose head remembers the buffer. -/
structure Formatted (d : Disk B) (b : B) (t : Triple) : Prop where
  linked : Linked d.desc t
  buffer : (d.info t.head).b = some b

/-- The heads that are at a stage, each listed once. -/
structure Lists (stage : Fin num → Stage) (g : Stage) (l : List (Fin num)) : Prop where
  nodup : l.Nodup
  mem_iff : ∀ i, i ∈ l ↔ stage i = g

/-- The heads in the avail ring, with the device and in the used ring. -/
structure Rings (s : State B) (queued taken posted : List (Fin num)) : Prop where
  avail : CyclicQueue.Contents s.disk.availRing s.lastAvail s.disk.availIdx
    (queued.map fun i => BitVec.ofNat 16 i.val)
  pending : s.pending = taken.map fun i => ⟨BitVec.ofNat 16 i.val, .status i⟩
  used : CyclicQueue.Contents s.disk.usedRing s.disk.usedIdx s.disk.usedEnd
    (posted.map fun i => BitVec.ofNat 32 i.val)
  queued : Lists s.stage .queued queued
  taken : Lists s.stage .taken taken
  posted : Lists s.stage .posted posted

/-- What holds between any two steps. -/
structure Inv (s : State B) : Prop where
  owners : Owners s
  formatted : ∀ b t, s.call b = .waiting t → Formatted s.disk b t
  rings : ∃ queued taken posted, Rings s queued taken posted
  head : ∀ i, s.stage i ≠ .processed → ∃ b t, s.call b = .waiting t ∧ t.head = i
  busy : ∀ b t, s.call b = .waiting t → (s.busy b = true ↔ s.stage t.head ≠ .processed)
  status : ∀ i, s.stage i = .posted → (s.disk.info i).status = 0

/-- A position of the avail ring that the device has still to read. -/
def Unconsumed (s : State B) (c : BitVec 16) : Prop :=
  (c - s.lastAvail).toNat < (s.disk.availIdx - s.lastAvail).toNat

theorem num_neZero : NeZero num := ⟨by decide⟩

/-- The entries that the device has still to read are not overwritten. -/
def KeepsAvail (s s' : State B) : Prop :=
  haveI := num_neZero
  ∀ c, Unconsumed s c →
    s'.disk.availRing (CyclicQueue.cell num c) = s.disk.availRing (CyclicQueue.cell num c)

theorem num_dvd {w : Nat} (hw : 3 ≤ w) : num ∣ 2 ^ w := by
  rw [show num = 2 ^ 3 from rfl]
  exact Nat.pow_dvd_pow 2 hw

theorem toNat_index {w : Nat} (hw : 3 ≤ w) (i : Fin num) : (BitVec.ofNat w i).toNat = i.val := by
  rw [BitVec.toNat_ofNat]
  have hle : 2 ^ 3 ≤ 2 ^ w := Nat.pow_le_pow_right (by decide) hw
  exact Nat.mod_eq_of_lt (lt_of_lt_of_le i.isLt hle)

variable {i : Fin num} {s : State B} {t : Triple}

theorem Triple.mem_toList : i ∈ t.toList ↔ i = t.head ∨ i = t.data ∨ i = t.status := by
  simp [toList]

theorem Triple.nodup_iff :
    t.toList.Nodup ↔ t.head ≠ t.data ∧ t.head ≠ t.status ∧ t.data ≠ t.status := by
  simp [toList, and_assoc]

/-- A list of different descriptors without one of them is shorter than their number. -/
theorem length_lt_num {l : List (Fin num)} (hl : l.Nodup) (hi : i ∉ l) : l.length < num := by
  have hlength := List.Nodup.length_le_card (List.nodup_cons.mpr ⟨hi, hl⟩)
  rw [List.length_cons, Fintype.card_fin] at hlength
  exact hlength

namespace Lists

variable {stage : Fin num → Stage} {g g' : Stage} {l : List (Fin num)}

/-- A head reaches the stage. -/
theorem push (h : Lists stage g l) (hi : stage i ≠ g) : Lists (update stage i g) g (l ++ [i]) where
  nodup := h.nodup.append (List.nodup_singleton _) (by simpa [h.mem_iff] using hi)
  mem_iff j := by
    rw [List.mem_append, List.mem_singleton, h.mem_iff]
    by_cases hj : j = i
    · simp [hj]
    · simp [hj]

/-- A head goes on to another stage. -/
theorem erase (h : Lists stage g l) (hg : g' ≠ g) : Lists (update stage i g') g (l.erase i) where
  nodup := h.nodup.erase i
  mem_iff j := by
    rw [h.nodup.mem_erase_iff, h.mem_iff]
    by_cases hj : j = i
    · simp [hj, hg]
    · simp [hj]

theorem tail (h : Lists stage g (i :: l)) (hg : g' ≠ g) : Lists (update stage i g') g l := by
  simpa using h.erase (i := i) hg

/-- A head moves between two other stages. -/
theorem other (h : Lists stage g l) (hi : stage i ≠ g) (hg : g' ≠ g) :
    Lists (update stage i g') g l := by
  have herase := h.erase (i := i) hg
  rwa [List.erase_of_not_mem (mt (h.mem_iff i).mp hi)] at herase

end Lists

theorem Inv.init : Inv (State.init : State B) where
  owners :=
    { free_iff := fun i => iff_of_true rfl nofun
      nodup := nofun
      disjoint := nofun }
  formatted := nofun
  rings := ⟨[], [], [], CyclicQueue.contents_nil _, rfl, CyclicQueue.contents_nil _,
    ⟨.nil, by simp [State.init]⟩, ⟨.nil, by simp [State.init]⟩, ⟨.nil, by simp [State.init]⟩⟩
  head i hi := absurd rfl hi
  busy := nofun
  status := nofun

/-! ## Steps that leave the requests alone -/

/-- Nothing has happened to the requests in flight; descriptors that are free may have been
written to. -/
structure Quiet (s s' : State B) : Prop where
  frame : s' = { s with
    disk := { s.disk with desc := s'.disk.desc }
    asleep := s'.asleep
    call := s'.call
    inIntr := s'.inIntr }
  desc : ∀ i, s.disk.free i = false → s'.disk.desc i = s.disk.desc i
  call : ∀ b t, s'.call b = .waiting t ↔ s.call b = .waiting t

namespace Quiet

variable {s s' s'' : State B}

theorem free_eq (h : Quiet s s') : s'.disk.free = s.disk.free := by
  rw [h.frame]

theorem keepsAvail (h : Quiet s s') : KeepsAvail s s' := by
  intro c _
  rw [h.frame]

theorem trans (h : Quiet s s') (h' : Quiet s' s'') : Quiet s s'' where
  frame := by
    rw [h'.frame, h.frame]
  desc i hi := by
    rw [h'.desc i (by rwa [h.free_eq]), h.desc i hi]
  call b t := (h'.call b t).trans (h.call b t)

end Quiet

/-- The descriptors of a request in flight are not free. -/
theorem Owners.not_free {b : B} (h : Owners s) (hb : s.call b = .waiting t) (hi : i ∈ t.toList) :
    s.disk.free i = false := by
  rw [← Bool.not_eq_true, h.free_iff]
  exact fun hnot => hnot b t hb hi

/-- Requests in flight have different heads. -/
theorem Owners.head_ne {b b' : B} {t' : Triple} (h : Owners s) (hb : s.call b = .waiting t)
    (hb' : s.call b' = .waiting t') (hne : b' ≠ b) : t'.head ≠ t.head := fun heq =>
  h.disjoint b' b t' t hb' hb hne (a := t.head) (by simp [Triple.toList, heq])
    (by simp [Triple.toList])

/-- A chain does not change with the descriptors of others. -/
theorem Formatted.congr {d d' : Disk B} {b : B} (h : Formatted d b t)
    (hdesc : ∀ i ∈ t.toList, d'.desc i = d.desc i)
    (hinfo : (d'.info t.head).b = (d.info t.head).b) : Formatted d' b t := by
  refine ⟨⟨?_, ?_, ?_⟩, ?_⟩
  · rw [hdesc t.head (by simp [Triple.toList])]
    exact h.linked.head
  · rw [hdesc t.data (by simp [Triple.toList])]
    exact h.linked.data
  · rw [hdesc t.status (by simp [Triple.toList])]
    exact h.linked.status
  · rw [hinfo]
    exact h.buffer

theorem Inv.quiet {s' : State B} (h : Inv s) (hq : Quiet s s') : Inv s' where
  owners :=
    { free_iff := fun i => by
        rw [hq.free_eq, h.owners.free_iff]
        simp only [hq.call]
      nodup := fun b t hb => h.owners.nodup b t ((hq.call b t).mp hb)
      disjoint := fun b b' t t' hb hb' => h.owners.disjoint b b' t t' ((hq.call b t).mp hb)
        ((hq.call b' t').mp hb') }
  formatted b t hb := by
    have hb := (hq.call b t).mp hb
    refine (h.formatted b t hb).congr (fun i hi => hq.desc i (h.owners.not_free hb hi)) ?_
    rw [hq.frame]
  rings := by
    obtain ⟨queued, taken, posted, hr⟩ := h.rings
    refine ⟨queued, taken, posted, ?_⟩
    rw [hq.frame]
    exact ⟨hr.avail, hr.pending, hr.used, hr.queued, hr.taken, hr.posted⟩
  head i hi := by
    rw [hq.frame] at hi
    obtain ⟨b, t, hb, ht⟩ := h.head i hi
    exact ⟨b, t, (hq.call b t).mpr hb, ht⟩
  busy b t hb := by
    have hbusy := h.busy b t ((hq.call b t).mp hb)
    rw [hq.frame]
    exact hbusy
  status i hi := by
    rw [hq.frame] at hi
    have hstatus := h.status i hi
    rw [hq.frame]
    exact hstatus

/-! ## Allocating and freeing descriptors -/

/-- `alloc_desc` finds a free descriptor if there is one. -/
theorem allocDesc_spec (s : State B) :
    (∃ i, s.disk.free i = true ∧ allocDesc s = .ok (some i, s.claim i)) ∨
      allocDesc s = .ok (none, s) := by
  rw [allocDesc, bind_of_ok (get_apply s)]
  cases hfind : (List.finRange num).find? fun i => s.disk.free i with
  | none => exact .inr rfl
  | some i => exact .inl ⟨i, List.find?_some hfind, rfl⟩

theorem claim_free (s : State B) (i j : Fin num) :
    (s.claim i).disk.free j = if j = i then false else s.disk.free j := by
  simp [State.claim, State.setDisk, update_apply]

/-- The descriptors of a triple are claimed one after the other. -/
def State.claims (s : State B) (t : Triple) : State B :=
  ((s.claim t.head).claim t.data).claim t.status

theorem claims_free (s : State B) (t : Triple) (i : Fin num) :
    (s.claims t).disk.free i = true ↔ s.disk.free i = true ∧ i ∉ t.toList := by
  simp only [State.claims, claim_free, Triple.mem_toList, not_or]
  split_ifs <;> simp [*]

section Descriptors

variable [DecidableEq B] {s : State B} {i : Fin num} {t : Triple}

theorem freeDesc_of_used (h : s.disk.free i = false) :
    freeDesc i.val s = .ok ((), s.release i) := by
  rw [freeDesc, dif_pos i.isLt, bind_of_ok (get_apply s), if_neg (by simp [h])]
  rfl

theorem release_free (s : State B) (i j : Fin num) :
    (s.release i).disk.free j = if j = i then true else s.disk.free j := by
  simp [State.release, State.setDisk, State.wakeup, update_apply]

theorem quiet_release (h : s.disk.free i = true) : Quiet s ((s.claim i).release i) where
  frame := by
    have hfree : update (update s.disk.free i false) i true = s.disk.free := by
      rw [update_idem, ← h, update_eq_self]
    simp [State.claim, State.release, State.setDisk, State.wakeup, hfree]
  desc j hj := by
    have hne : j ≠ i := by
      rintro rfl
      rw [h] at hj
      cases hj
    simp [State.claim, State.release, State.setDisk, State.wakeup, update_of_ne hne]
  call b t := Iff.rfl

/-- Claiming a descriptor and releasing another one may be swapped. -/
theorem release_claim {j : Fin num} (hne : j ≠ i) :
    (s.claim j).release i = (s.release i).claim j := by
  simp [State.claim, State.release, State.setDisk, State.wakeup, update_comm hne]

/-- `alloc3_desc` gives three free descriptors or changes nothing. -/
theorem alloc3Desc_spec (s : State B) :
    (∃ t, t.toList.Nodup ∧ (∀ i ∈ t.toList, s.disk.free i = true) ∧
      alloc3Desc s = .ok (some t, s.claims t)) ∨
    ∃ s', alloc3Desc s = .ok (none, s') ∧ Quiet s s' := by
  rcases allocDesc_spec s with ⟨i, hi, hfirst⟩ | hfirst
  · rcases allocDesc_spec (s.claim i) with ⟨j, hj, hsecond⟩ | hsecond
    · rw [claim_free] at hj
      have hji : j ≠ i := fun h => by simp [h] at hj
      rw [if_neg hji] at hj
      rcases allocDesc_spec ((s.claim i).claim j) with ⟨k, hk, hthird⟩ | hthird
      · simp only [claim_free] at hk
        have hkj : k ≠ j := fun h => by simp [h] at hk
        have hki : k ≠ i := fun h => by simp [h] at hk
        rw [if_neg hkj, if_neg hki] at hk
        refine .inl ⟨⟨i, j, k⟩, ?_, ?_, ?_⟩
        · exact Triple.nodup_iff.mpr ⟨hji.symm, hki.symm, hkj.symm⟩
        · intro l hl
          rcases Triple.mem_toList.mp hl with rfl | rfl | rfl
          · exact hi
          · exact hj
          · exact hk
        · rw [alloc3Desc, bind_of_ok hfirst]
          simp only
          rw [bind_of_ok hsecond]
          simp only
          rw [bind_of_ok hthird]
          rfl
      · -- The first two are given back.
        have hback : freeDesc i.val ((s.claim i).claim j) =
            .ok ((), ((s.claim i).claim j).release i) :=
          freeDesc_of_used (by rw [claim_free, claim_free, if_neg hji.symm, if_pos rfl])
        rw [release_claim hji] at hback
        have hquiet := quiet_release hi
        have hj' : ((s.claim i).release i).disk.free j = true := by rwa [hquiet.free_eq]
        have hback' : freeDesc j.val (((s.claim i).release i).claim j) =
            .ok ((), (((s.claim i).release i).claim j).release j) :=
          freeDesc_of_used (by rw [claim_free, if_pos rfl])
        refine .inr ⟨_, ?_, hquiet.trans (quiet_release hj')⟩
        rw [alloc3Desc, bind_of_ok hfirst]
        simp only
        rw [bind_of_ok hsecond]
        simp only
        rw [bind_of_ok hthird]
        simp only
        rw [bind_of_ok hback, bind_of_ok hback']
        rfl
    · have hback : freeDesc i.val (s.claim i) = .ok ((), (s.claim i).release i) :=
        freeDesc_of_used (by rw [claim_free, if_pos rfl])
      refine .inr ⟨_, ?_, quiet_release hi⟩
      rw [alloc3Desc, bind_of_ok hfirst]
      simp only
      rw [bind_of_ok hsecond]
      simp only
      rw [bind_of_ok hback]
      rfl
  · refine .inr ⟨s, ?_, ⟨rfl, fun _ _ => rfl, fun _ _ => Iff.rfl⟩⟩
    rw [alloc3Desc, bind_of_ok hfirst]
    rfl

end Descriptors

/-! ## Starting a request -/

/-- A step keeps the bookkeeping right, overwrites no entry of the avail ring that the device has
still to read, and lets a call return only when its request is done. -/
structure Progress (s s' : State B) : Prop where
  inv : Inv s'
  keepsAvail : KeepsAvail s s'
  returns : ∀ b t, s.call b = .waiting t → s'.call b ≠ .waiting t → s.stage t.head = .processed

theorem Quiet.progress {s' : State B} (hq : Quiet s s') (h : Inv s) : Progress s s' where
  inv := h.quiet hq
  keepsAvail := hq.keepsAvail
  returns b t hb hb' := absurd ((hq.call b t).mpr hb) hb'

theorem Inv.stage_of_free (h : Inv s) (hi : s.disk.free i = true) : s.stage i = .processed := by
  by_contra hne
  obtain ⟨b', t', hb', rfl⟩ := h.head i hne
  exact (h.owners.free_iff t'.head).mp hi b' t' hb' (by simp [Triple.toList])

section Start

variable [DecidableEq B] {s : State B} {b : B} {write : Bool} {sector : BitVec 64} {t : Triple}

/-- The state in which a call waits for its new request. -/
def started (s : State B) (b : B) (write : Bool) (sector : BitVec 64) (t : Triple) : State B :=
  (publish t.head (format b write sector t (s.claims t))).sleep b (.buf b) (.waiting t)

theorem started_call (b' : B) (t' : Triple) :
    (started s b write sector t).call b' = .waiting t' ↔
      b' = b ∧ t' = t ∨ b' ≠ b ∧ s.call b' = .waiting t' := by
  have hcall : (started s b write sector t).call = update s.call b (.waiting t) := rfl
  rw [hcall, update_apply]
  split
  next h => simp [h, eq_comm]
  next h => simp [h]

theorem started_free (i : Fin num) : (started s b write sector t).disk.free i = true ↔
    s.disk.free i = true ∧ i ∉ t.toList :=
  claims_free s t i

theorem started_stage : (started s b write sector t).stage = update s.stage t.head .queued := rfl

theorem started_desc_of_not_mem (hi : i ∉ t.toList) :
    (started s b write sector t).disk.desc i = s.disk.desc i := by
  rw [Triple.mem_toList, not_or, not_or] at hi
  have hdesc : (started s b write sector t).disk.desc = formatChain b write t s.disk.desc := rfl
  rw [hdesc, formatChain, update_of_ne hi.2.2, update_of_ne hi.2.1, update_of_ne hi.1]

theorem started_info_of_ne (hi : i ≠ t.head) :
    (started s b write sector t).disk.info i = s.disk.info i :=
  update_of_ne hi _ _

theorem started_formatted (ht : t.toList.Nodup) :
    Formatted (started s b write sector t).disk b t := by
  obtain ⟨hhd, hhs, hds⟩ := Triple.nodup_iff.mp ht
  have hdesc : (started s b write sector t).disk.desc = formatChain b write t s.disk.desc := rfl
  refine ⟨⟨?_, ?_, ?_⟩, ?_⟩
  · rw [hdesc, formatChain, update_of_ne hhs, update_of_ne hhd, update_self]
    exact ⟨rfl, rfl⟩
  · rw [hdesc, formatChain, update_of_ne hds, update_self]
    refine ⟨?_, rfl⟩
    cases write with
    | true => exact (by decide : (0 ||| flagNext) &&& flagNext ≠ 0)
    | false => exact (by decide : (flagWrite ||| flagNext) &&& flagNext ≠ 0)
  · rw [hdesc, formatChain, update_self]
    exact ⟨rfl, rfl⟩
  · show (update s.disk.info t.head ⟨some b, 0xff⟩ t.head).b = some b
    rw [update_self]

theorem Inv.started (h : Inv s) (hb : ∀ t', s.call b ≠ .waiting t') (ht : t.toList.Nodup)
    (hfree : ∀ i ∈ t.toList, s.disk.free i = true) : Progress s (started s b write sector t) := by
  have hhead : s.disk.free t.head = true := hfree t.head (by simp [Triple.toList])
  have hstage := h.stage_of_free hhead
  -- The descriptors of the requests that were in flight are not among the new ones.
  have hother : ∀ b' t', s.call b' = .waiting t' → ∀ i ∈ t'.toList, i ∉ t.toList := by
    intro b' t' hb' i hi hmem
    have hused := h.owners.not_free hb' hi
    rw [hfree i hmem] at hused
    cases hused
  have hheads : ∀ b' t', s.call b' = .waiting t' → t'.head ≠ t.head := by
    intro b' t' hb' heq
    exact hother b' t' hb' t'.head (by simp [Triple.toList]) (by simp [Triple.toList, heq])
  have hne : ∀ b' t', s.call b' = .waiting t' → b' ≠ b := by
    rintro b' t' hb' rfl
    exact hb t' hb'
  obtain ⟨queued, taken, posted, hr⟩ := h.rings
  have hroom : (queued.map fun i => BitVec.ofNat 16 i.val).length < num := by
    rw [List.length_map]
    exact length_lt_num hr.queued.nodup (i := t.head) (by simp [hr.queued.mem_iff, hstage])
  refine ⟨⟨⟨fun i => ?_, fun b' t' hb' => ?_, fun b1 b2 t1 t2 hb1 hb2 hb12 => ?_⟩, fun b' t' hb' => ?_,
    ⟨queued ++ [t.head], taken, posted, ?_, hr.pending, hr.used, hr.queued.push (by simp [hstage]),
      hr.taken.other (by simp [hstage]) (by decide), hr.posted.other (by simp [hstage]) (by decide)⟩,
    fun i hi => ?_, fun b' t' hb' => ?_, fun i hi => ?_⟩, fun c hc => ?_, fun b' t' hb' hb'' => ?_⟩
  · rw [started_free, h.owners.free_iff]
    constructor
    · rintro ⟨hold, hnew⟩ b' t' hb'
      rcases (started_call b' t').mp hb' with ⟨-, rfl⟩ | ⟨-, hb'⟩
      · exact hnew
      · exact hold b' t' hb'
    · intro hall
      exact ⟨fun b' t' hb' => hall b' t' ((started_call b' t').mpr (.inr ⟨hne b' t' hb', hb'⟩)),
        hall b t ((started_call b t).mpr (.inl ⟨rfl, rfl⟩))⟩
  · rcases (started_call b' t').mp hb' with ⟨-, rfl⟩ | ⟨-, hb'⟩
    · exact ht
    · exact h.owners.nodup b' t' hb'
  · rcases (started_call b1 t1).mp hb1 with ⟨rfl, rfl⟩ | ⟨-, hold1⟩
    · rcases (started_call b2 t2).mp hb2 with ⟨rfl, -⟩ | ⟨-, hold2⟩
      · exact (hb12 rfl).elim
      · exact fun i hi hi' => hother b2 t2 hold2 i hi' hi
    · rcases (started_call b2 t2).mp hb2 with ⟨-, rfl⟩ | ⟨-, hold2⟩
      · exact fun i hi hi' => hother b1 t1 hold1 i hi hi'
      · exact h.owners.disjoint b1 b2 t1 t2 hold1 hold2 hb12
  · rcases (started_call b' t').mp hb' with ⟨rfl, rfl⟩ | ⟨-, hb'⟩
    · exact started_formatted ht
    · refine (h.formatted b' t' hb').congr
        (fun i hi => started_desc_of_not_mem (hother b' t' hb' i hi)) ?_
      rw [started_info_of_ne (hheads b' t' hb')]
  · rw [List.map_append]
    exact hr.avail.push (num_dvd (by decide)) (by decide) hroom _
  · by_cases heq : i = t.head
    · exact ⟨b, t, (started_call b t).mpr (.inl ⟨rfl, rfl⟩), heq.symm⟩
    · rw [started_stage, update_of_ne heq] at hi
      obtain ⟨b', t', hb', hi'⟩ := h.head i hi
      exact ⟨b', t', (started_call b' t').mpr (.inr ⟨hne b' t' hb', hb'⟩), hi'⟩
  · have hbusy : (Virtio.started s b write sector t).busy = update s.busy b true := rfl
    rw [hbusy, started_stage]
    rcases (started_call b' t').mp hb' with ⟨rfl, rfl⟩ | ⟨hb'', hb'⟩
    · simp
    · rw [update_of_ne hb'', update_of_ne (hheads b' t' hb')]
      exact h.busy b' t' hb'
  · have heq : i ≠ t.head := by
      rintro rfl
      rw [started_stage, update_self] at hi
      cases hi
    rw [started_stage, update_of_ne heq] at hi
    rw [started_info_of_ne heq]
    exact h.status i hi
  · refine update_of_ne ?_ _ _
    refine hr.avail.cell_ne (num_dvd (by decide)) hroom ?_
    rwa [Unconsumed, hr.avail.used_eq (by decide)] at hc
  · exact absurd ((started_call b' t').mpr (.inr ⟨hne b' t' hb', hb'⟩)) hb''

theorem Inv.tryStart (h : Inv s) (hb : ∀ t', s.call b ≠ .waiting t') (write : Bool)
    (sector : BitVec 64) : ∃ s', tryStart b write sector s = .ok ((), s') ∧ Progress s s' := by
  rcases alloc3Desc_spec s with ⟨t, ht, hfree, halloc⟩ | ⟨s1, halloc, hquiet⟩
  · refine ⟨Virtio.started s b write sector t, ?_, h.started hb ht hfree⟩
    rw [Virtio.tryStart, bind_of_ok halloc]
    simp only
    rw [bind_of_ok (modify_apply _ _), waitDone, bind_of_ok (get_apply _), if_pos]
    · rfl
    · show update s.busy b true b = true
      rw [update_self]
  · refine ⟨s1.sleep b .free (.allocating write sector), ?_, Quiet.progress (hquiet.trans ?_) h⟩
    · rw [Virtio.tryStart, bind_of_ok halloc]
      rfl
    · refine ⟨rfl, fun _ _ => rfl, fun b' t' => ?_⟩
      show update s1.call b (.allocating write sector) b' = .waiting t' ↔ _
      rw [update_apply]
      split
      next heq =>
        rw [heq, hquiet.call]
        exact iff_of_false (by simp) (hb t')
      next => rfl

end Start

/-! ## Finishing a request -/

section Finish

variable [DecidableEq B] {s : State B} {b : B} {t : Triple}

/-- The descriptors of a triple are released one after the other. -/
def State.releases (s : State B) (t : Triple) : State B :=
  ((s.release t.head).release t.data).release t.status

theorem releases_free (s : State B) (t : Triple) (i : Fin num) :
    (s.releases t).disk.free i = true ↔ s.disk.free i = true ∨ i ∈ t.toList := by
  simp only [State.releases, release_free, Triple.mem_toList]
  split_ifs <;> simp [*]

theorem releases_desc_of_not_mem (hi : i ∉ t.toList) :
    (s.releases t).disk.desc i = s.disk.desc i := by
  rw [Triple.mem_toList, not_or, not_or] at hi
  simp [State.releases, State.release, State.setDisk, State.wakeup, update_of_ne hi.1,
    update_of_ne hi.2.1, update_of_ne hi.2.2]

theorem release_desc_of_ne {j : Fin num} (hne : j ≠ i) :
    (s.release i).disk.desc j = s.disk.desc j :=
  update_of_ne hne _ _

theorem freeChain_succ (hused : s.disk.free i = false) (rounds : Nat) :
    freeChain (rounds + 1) i s = (if (s.disk.desc i).flags &&& flagNext ≠ 0 then
        freeChain rounds (s.disk.desc i).next.toNat (s.release i)
      else .ok ((), s.release i)) := by
  rw [freeChain, bind_of_ok (get_apply s), dif_pos i.isLt, bind_of_ok (freeDesc_of_used hused)]
  split
  next => rfl
  next => rfl

theorem freeChain_spec (hl : Linked s.disk.desc t) (ht : t.toList.Nodup)
    (hused : ∀ i ∈ t.toList, s.disk.free i = false) :
    freeChain num t.head s = .ok ((), s.releases t) := by
  obtain ⟨hhd, hhs, hds⟩ := Triple.nodup_iff.mp ht
  have hhead : s.disk.free t.head = false := hused _ (by simp [Triple.toList])
  have hdata : (s.release t.head).disk.free t.data = false := by
    rw [release_free, if_neg hhd.symm]
    exact hused _ (by simp [Triple.toList])
  have hstatus : ((s.release t.head).release t.data).disk.free t.status = false := by
    rw [release_free, if_neg hds.symm, release_free, if_neg hhs.symm]
    exact hused _ (by simp [Triple.toList])
  show freeChain (5 + 1 + 1 + 1) t.head s = _
  rw [freeChain_succ hhead, hl.head.1, hl.head.2, if_pos (by decide), toNat_index (by decide),
    freeChain_succ hdata, release_desc_of_ne hhd.symm, if_pos hl.data.1, hl.data.2,
    toNat_index (by decide), freeChain_succ hstatus, release_desc_of_ne hds.symm,
    release_desc_of_ne hhs.symm, hl.status.1, if_neg (by decide)]
  rfl

/-- The state in which a call has returned. -/
def finished (s : State B) (b : B) (t : Triple) : State B :=
  let s' := (s.setDisk fun d =>
    { d with info := update d.info t.head { d.info t.head with b := none } }).releases t
  { s' with call := update s'.call b .idle }

theorem finished_call (b' : B) (t' : Triple) : (finished s b t).call b' = .waiting t' ↔
    b' ≠ b ∧ s.call b' = .waiting t' := by
  have hcall : (finished s b t).call = update s.call b .idle := rfl
  rw [hcall, update_apply]
  split
  next h => simp [h]
  next h => simp [h]

theorem finished_info (i : Fin num) : (finished s b t).disk.info i =
    if i = t.head then { s.disk.info i with b := none } else s.disk.info i := by
  have hinfo : (finished s b t).disk.info =
      update s.disk.info t.head { s.disk.info t.head with b := none } := rfl
  rw [hinfo, update_apply]
  split
  next h => rw [h]
  next => rfl

theorem Inv.finished (h : Inv s) (hb : s.call b = .waiting t) (hdone : s.stage t.head = .processed) :
    Progress s (finished s b t) := by
  obtain ⟨queued, taken, posted, hr⟩ := h.rings
  refine ⟨⟨⟨fun i => ?_, fun b' t' hb' => ?_, fun b1 b2 t1 t2 hb1 hb2 => ?_⟩, fun b' t' hb' => ?_,
    ⟨queued, taken, posted, hr.avail, hr.pending, hr.used, hr.queued, hr.taken, hr.posted⟩, fun i hi => ?_, fun b' t' hb' => ?_, fun i hi => ?_⟩,
    fun _ _ => rfl, fun b' t' hb' hb'' => ?_⟩
  · refine (releases_free _ t i).trans ?_
    simp only [finished_call, State.setDisk]
    rw [h.owners.free_iff]
    constructor
    · rintro (hold | hmem) b' t' ⟨hne, hb'⟩
      · exact hold b' t' hb'
      · exact fun hmem' => h.owners.disjoint b' b t' t hb' hb hne hmem' hmem
    · intro hall
      by_cases hmem : i ∈ t.toList
      · exact .inr hmem
      · refine .inl fun b' t' hb' => ?_
        by_cases heq : b' = b
        · rw [heq, hb] at hb'
          cases hb'
          exact hmem
        · exact hall b' t' ⟨heq, hb'⟩
  · exact h.owners.nodup b' t' ((finished_call b' t').mp hb').2
  · exact h.owners.disjoint b1 b2 t1 t2 ((finished_call b1 t1).mp hb1).2
      ((finished_call b2 t2).mp hb2).2
  · obtain ⟨hne, hb'⟩ := (finished_call b' t').mp hb'
    refine (h.formatted b' t' hb').congr (fun i hi => releases_desc_of_not_mem fun hmem => ?_) ?_
    · exact h.owners.disjoint b' b t' t hb' hb hne hi hmem
    · rw [finished_info, if_neg (h.owners.head_ne hb hb' hne)]
  · obtain ⟨b', t', hb', hi'⟩ := h.head i hi
    refine ⟨b', t', (finished_call b' t').mpr ⟨?_, hb'⟩, hi'⟩
    rintro rfl
    rw [hb] at hb'
    cases hb'
    exact hi (hi' ▸ hdone)
  · exact h.busy b' t' ((finished_call b' t').mp hb').2
  · have hstatus := h.status i hi
    rw [finished_info]
    split
    next => exact hstatus
    next => exact hstatus
  · by_cases heq : b' = b
    · rw [heq, hb] at hb'
      cases hb'
      exact hdone
    · exact absurd ((finished_call b' t').mpr ⟨heq, hb'⟩) hb''

theorem Inv.waitDone (h : Inv s) (hb : s.call b = .waiting t) :
    ∃ s', waitDone b t s = .ok ((), s') ∧ Progress s s' := by
  by_cases hbusy : s.busy b = true
  · refine ⟨s.sleep b (.buf b) (.waiting t), ?_, Quiet.progress ⟨rfl, fun _ _ => rfl, ?_⟩ h⟩
    · rw [Virtio.waitDone, bind_of_ok (get_apply s), if_pos hbusy]
      rfl
    · intro b' t'
      show update s.call b (.waiting t) b' = .waiting t' ↔ _
      rw [← hb, update_eq_self]
  · have hdone : s.stage t.head = .processed := by
      by_contra hne
      exact hbusy ((h.busy b t hb).mpr hne)
    refine ⟨Virtio.finished s b t, ?_, h.finished hb hdone⟩
    have hchain := freeChain_spec (s := s.setDisk fun d =>
        { d with info := update d.info t.head { d.info t.head with b := none } })
      (h.formatted b t hb).linked (h.owners.nodup b t hb) fun i hi => h.owners.not_free hb hi
    rw [Virtio.waitDone, bind_of_ok (get_apply s), if_neg hbusy,
      bind_of_ok (set_apply _ _), bind_of_ok hchain]
    rfl

end Finish

/-! ## The interrupt handler -/

/-- The entry of the used ring that the handler reads next is the head of a request that the device
has completed and whose call still waits. -/
theorem Inv.next_posted (h : Inv s) (hsome : s.disk.usedIdx ≠ s.disk.usedEnd) :
    ∃ b t, (s.disk.usedRing (CyclicQueue.cell num s.disk.usedIdx)).toNat = t.head.val ∧
      s.call b = .waiting t ∧ s.stage t.head = .posted ∧ (s.disk.info t.head).b = some b := by
  obtain ⟨queued, taken, posted, hr⟩ := h.rings
  cases posted with
  | nil => exact absurd ((hr.used.empty_iff (by decide)).mpr rfl) hsome
  | cons i posted =>
    obtain ⟨hentry, -⟩ := hr.used.pop (num_dvd (by decide)) (by decide)
    have hstage : s.stage i = .posted := (hr.posted.mem_iff i).mp List.mem_cons_self
    obtain ⟨b, t, hb, rfl⟩ := h.head i (by rw [hstage]; decide)
    refine ⟨b, t, ?_, hb, hstage, (h.formatted b t hb).buffer⟩
    rw [hentry, toNat_index (by decide)]

section Interrupt

variable [DecidableEq B] {s : State B}

/-- The handler has processed the completion of a request. -/
def processed (s : State B) (b : B) (i : Fin num) : State B :=
  ((({ s with busy := update s.busy b false }).wakeup (.buf b)).setDisk
    fun d => { d with usedIdx := d.usedIdx + 1 }).reach i .processed

theorem Inv.processed {b : B} (h : Inv s) (hb : s.call b = .waiting t)
    (hentry : (s.disk.usedRing (CyclicQueue.cell num s.disk.usedIdx)).toNat = t.head.val)
    (hsome : s.disk.usedIdx ≠ s.disk.usedEnd) (hposted : s.stage t.head = .posted) :
    Progress s (processed s b t.head) := by
  have hstage : (Virtio.processed s b t.head).stage = update s.stage t.head .processed := rfl
  obtain ⟨queued, taken, posted, hr⟩ := h.rings
  cases posted with
  | nil => exact absurd ((hr.used.empty_iff (by decide)).mpr rfl) hsome
  | cons i posted =>
    obtain ⟨hcell, hused⟩ := hr.used.pop (num_dvd (by decide)) (by decide)
    obtain rfl : i = t.head := by
      rw [hcell, toNat_index (by decide)] at hentry
      exact Fin.ext hentry
    refine ⟨⟨⟨h.owners.free_iff, h.owners.nodup, h.owners.disjoint⟩,
      fun b' t' hb' => ⟨(h.formatted b' t' hb').linked, (h.formatted b' t' hb').buffer⟩,
      ⟨queued, taken, posted, hr.avail, hr.pending, hused,
        hr.queued.other (by simp [hposted]) (by decide),
        hr.taken.other (by simp [hposted]) (by decide), hr.posted.tail (by decide)⟩,
      fun j hj => ?_, fun b' t' hb' => ?_, fun j hj => ?_⟩, fun _ _ => rfl, fun b' t' hb' hb'' => absurd hb' hb''⟩
    · rw [hstage, update_apply] at hj
      split at hj
      next => exact (hj rfl).elim
      next => exact h.head j hj
    · have hbusy : (Virtio.processed s b t.head).busy = update s.busy b false := rfl
      rw [hbusy, hstage]
      by_cases heq : b' = b
      · have hb' : s.call b' = .waiting t' := hb'
        rw [heq, hb] at hb'
        cases hb'
        simp [heq]
      · rw [update_of_ne heq, update_of_ne (h.owners.head_ne hb hb' heq)]
        exact h.busy b' t' hb'
    · rw [hstage, update_apply] at hj
      split at hj
      next => cases hj
      next => exact h.status j hj

theorem Inv.intrRound (h : Inv s) : ∃ s', intrRound s = .ok ((), s') ∧ Progress s s' := by
  rw [Virtio.intrRound, bind_of_ok (get_apply s)]
  by_cases hend : s.disk.usedIdx = s.disk.usedEnd
  · rw [if_pos hend]
    exact ⟨{ s with inIntr := false }, rfl, Quiet.progress ⟨rfl, fun _ _ => rfl, fun _ _ => Iff.rfl⟩ h⟩
  · obtain ⟨b, t, hentry, hb, hposted, hbuffer⟩ := h.next_posted hend
    refine ⟨Virtio.processed s b t.head, ?_, h.processed hb hentry hend hposted⟩
    simp only [if_neg hend, hentry, t.head.isLt, dif_pos, Fin.eta, h.status t.head hposted, hbuffer,
      ne_eq, not_true_eq_false, if_false]
    rfl

end Interrupt

/-! ## The device -/

section Device

variable {s : State B}

theorem chainAt_of_linked {desc : Fin num → Desc B} (h : Linked desc t) :
    chainAt desc (BitVec.ofNat 16 t.head.val) = some ⟨BitVec.ofNat 16 t.head.val, .status t.head⟩ := by
  have hindex : ∀ i : Fin num, (BitVec.ofNat 16 i.val).toNat = i.val := toNat_index (by decide)
  unfold chainAt
  simp only [hindex, Fin.eta, h.head.1, h.head.2, h.data.1, h.data.2, h.status.1, h.status.2,
    Fin.isLt, dif_pos, ne_eq, not_false_eq_true, and_self]
  rw [dif_pos ⟨by decide, trivial⟩, if_pos (by decide)]

theorem ofNat_index (i : Fin num) : Fin.ofNat num (BitVec.ofNat 16 i.val).toNat = i := by
  apply Fin.ext
  rw [toNat_index (by decide)]
  exact Nat.mod_eq_of_lt i.isLt

theorem Inv.owner (h : Inv s) (hi : s.stage i ≠ .processed) {s' : State B}
    (hcall : s'.call = s.call) {stage : Stage} (hstage : s'.stage = update s.stage i stage) :
    ∀ j, s'.stage j ≠ .processed → ∃ b t, s'.call b = .waiting t ∧ t.head = j := by
  intro j hj
  rw [hcall]
  by_cases heq : j = i
  · rw [heq]
    exact h.head i hi
  · rw [hstage, update_of_ne heq] at hj
    exact h.head j hj

/-- A request that is not done yet keeps its buffer busy. -/
theorem Inv.busy_of_reach (h : Inv s) (hi : s.stage i ≠ .processed) {s' : State B}
    (hcall : s'.call = s.call) (hbusy : s'.busy = s.busy) {stage : Stage}
    (hstage : s'.stage = update s.stage i stage) (hne : stage ≠ .processed) :
    ∀ b t, s'.call b = .waiting t → (s'.busy b = true ↔ s'.stage t.head ≠ .processed) := by
  intro b t hb
  rw [hcall] at hb
  rw [hbusy, h.busy b t hb, hstage, update_apply]
  split
  next heq => exact iff_of_true (heq ▸ hi) hne
  next => rfl

/-- The device has taken a request. -/
def taken (s : State B) (i : Fin num) : State B :=
  ({ s with
      lastAvail := s.lastAvail + 1
      pending := s.pending ++ [Chain.mk (BitVec.ofNat 16 i.val) (.status i)] }).reach i .taken

/-- The device takes the oldest request from the avail ring. -/
theorem Inv.deviceTake (h : Inv s) (hsome : s.lastAvail ≠ s.disk.availIdx) :
    ∃ s', deviceTake s = .ok ((), s') ∧ Progress s s' := by
  obtain ⟨queued, taken, posted, hr⟩ := h.rings
  cases queued with
  | nil => exact absurd ((hr.avail.empty_iff (by decide)).mpr rfl) hsome
  | cons i queued =>
    obtain ⟨hcell, havail⟩ := hr.avail.pop (num_dvd (by decide)) (by decide)
    have hqueued : s.stage i = .queued := (hr.queued.mem_iff i).mp List.mem_cons_self
    have hon : s.stage i ≠ .processed := by
      rw [hqueued]
      decide
    have hstage : (Virtio.taken s i).stage = update s.stage i .taken := rfl
    refine ⟨Virtio.taken s i, ?_, ⟨⟨⟨h.owners.free_iff, h.owners.nodup, h.owners.disjoint⟩,
      h.formatted, ⟨queued, taken ++ [i], posted, havail, ?_, hr.used, hr.queued.tail (by decide),
        hr.taken.push (by simp [hqueued]), hr.posted.other (by simp [hqueued]) (by decide)⟩,
      h.owner hon rfl hstage, h.busy_of_reach hon rfl rfl hstage (by decide), fun j hj => ?_⟩,
      fun _ _ => rfl, fun b t hb hb' => absurd hb hb'⟩⟩
    · obtain ⟨b, t, hb, rfl⟩ := h.head i hon
      rw [Virtio.deviceTake, bind_of_ok (get_apply s)]
      simp only [hcell, chainAt_of_linked (h.formatted b t hb).linked, ofNat_index]
      rfl
    · rw [List.map_append, ← hr.pending]
      rfl
    · rw [hstage, update_apply] at hj
      split at hj
      next => cases hj
      next => exact h.status j hj

/-- The device has completed a request. -/
def posted (s : State B) (i : Fin num) (rest : List (Chain B)) : State B :=
  haveI := num_neZero
  (({ s with pending := rest }).setDisk fun d =>
    { d with
      info := update d.info i { d.info i with status := 0 }
      usedRing := update d.usedRing (CyclicQueue.cell num d.usedEnd) (BitVec.ofNat 32 i.val)
      usedEnd := d.usedEnd + 1 }).reach i .posted

/-- The device completes one of the requests it works on. -/
theorem Inv.devicePost (h : Inv s) {n : Nat} {c : Chain B} (hc : s.pending[n]? = some c) :
    ∃ s', devicePost c (s.pending.eraseIdx n) s = .ok ((), s') ∧ Progress s s' := by
  obtain ⟨queued, taken, posted, hr⟩ := h.rings
  rw [hr.pending, List.getElem?_map, Option.map_eq_some_iff] at hc
  obtain ⟨i, hi, rfl⟩ := hc
  obtain ⟨hn, hget⟩ := List.getElem?_eq_some_iff.mp hi
  have htaken : s.stage i = .taken := (hr.taken.mem_iff i).mp (hget ▸ List.getElem_mem hn)
  have hon : s.stage i ≠ .processed := by
    rw [htaken]
    decide
  have hroom : (posted.map fun i => BitVec.ofNat 32 i.val).length < num := by
    rw [List.length_map]
    exact length_lt_num hr.posted.nodup (i := i) (by simp [hr.posted.mem_iff, htaken])
  have hstage : (Virtio.posted s i (s.pending.eraseIdx n)).stage = update s.stage i .posted := rfl
  have hinfo : ∀ j, (Virtio.posted s i (s.pending.eraseIdx n)).disk.info j =
      if j = i then { s.disk.info j with status := 0 } else s.disk.info j := by
    intro j
    show update s.disk.info i _ j = _
    rw [update_apply]
    split
    next heq => rw [heq]
    next => rfl
  refine ⟨Virtio.posted s i (s.pending.eraseIdx n), ?_,
    ⟨⟨⟨h.owners.free_iff, h.owners.nodup, h.owners.disjoint⟩, fun b t hb => ?_,
      ⟨queued, taken.erase i, posted ++ [i], hr.avail, ?_, ?_,
        hr.queued.other (by simp [htaken]) (by decide), hr.taken.erase (by decide),
        hr.posted.push (by simp [htaken])⟩,
      h.owner hon rfl hstage, h.busy_of_reach hon rfl rfl hstage (by decide), fun j hj => ?_⟩,
      fun _ _ => rfl, fun b t hb hb' => absurd hb hb'⟩⟩
  · have hwidth : (BitVec.ofNat 16 i.val).setWidth 32 = BitVec.ofNat 32 i.val := by
      apply BitVec.eq_of_toNat_eq
      rw [BitVec.toNat_setWidth, toNat_index (by decide), BitVec.toNat_ofNat]
    rw [Virtio.devicePost, bind_of_ok (get_apply s)]
    simp only [hwidth, ofNat_index]
    rfl
  · refine (h.formatted b t hb).congr (fun _ _ => rfl) ?_
    rw [hinfo]
    split
    next => rfl
    next => rfl
  · show s.pending.eraseIdx n = _
    rw [hr.pending, List.eraseIdx_map, ← hget, hr.taken.nodup.erase_getElem n hn]
  · rw [List.map_append]
    exact hr.used.push (num_dvd (by decide)) (by decide) hroom _
  · rw [hinfo]
    rw [hstage, update_apply] at hj
    split at hj
    next heq => rw [if_pos heq]
    next hne =>
      rw [if_neg hne]
      exact h.status j hj

end Device

/-! ## Every interleaving -/

section Steps

variable [DecidableEq B] {s s' : State B} {ev : Event B}

/-- An event that can happen happens without a fault. -/
theorem Inv.perform (h : Inv s) {r : Except Fault (Unit × State B)} (hr : perform s ev = some r) :
    ∃ s', r = .ok ((), s') ∧ Progress s s' := by
  cases ev with
  | rw b write blockno =>
    obtain ⟨⟨-, hidle⟩, hr⟩ := Option.ite_none_right_eq_some.mp hr
    cases hr
    exact h.tryStart (fun t ht => by rw [hidle] at ht; cases ht) write (sectorOf blockno)
  | resume b =>
    obtain ⟨-, hr⟩ := Option.ite_none_right_eq_some.mp hr
    cases hcall : s.call b with
    | idle => simp [hcall] at hr
    | allocating write sector =>
      simp only [hcall, Option.some.injEq] at hr
      subst hr
      exact h.tryStart (fun t ht => by rw [hcall] at ht; cases ht) write sector
    | waiting t =>
      simp only [hcall, Option.some.injEq] at hr
      subst hr
      exact h.waitDone hcall
  | kill b =>
    cases hr
    exact ⟨_, rfl, Quiet.progress ⟨rfl, fun _ _ => rfl, fun _ _ => Iff.rfl⟩ h⟩
  | intr =>
    obtain ⟨-, hr⟩ := Option.ite_none_right_eq_some.mp hr
    cases hr
    exact ⟨_, rfl, Quiet.progress ⟨rfl, fun _ _ => rfl, fun _ _ => Iff.rfl⟩ h⟩
  | intrRound =>
    obtain ⟨-, hr⟩ := Option.ite_none_right_eq_some.mp hr
    cases hr
    exact h.intrRound
  | take =>
    obtain ⟨hsome, hr⟩ := Option.ite_none_right_eq_some.mp hr
    cases hr
    exact h.deviceTake hsome
  | post n =>
    unfold Virtio.perform at hr
    cases hc : s.pending[n]? with
    | none => simp [hc] at hr
    | some c =>
      simp only [hc, Option.some.injEq] at hr
      subst hr
      exact h.devicePost hc

theorem step_eq_some (hstep : step s ev = some s') : perform s ev = some (.ok ((), s')) := by
  unfold step at hstep
  split at hstep
  next t hperform =>
    cases hstep
    exact hperform
  next => cases hstep

/-- Every step keeps the bookkeeping right. -/
theorem Inv.step (h : Inv s) (hstep : step s ev = some s') : Progress s s' := by
  obtain ⟨t, ht, hprogress⟩ := h.perform (step_eq_some hstep)
  cases ht
  exact hprogress

end Steps

/-- What is claimed of one step. -/
structure Sound [DecidableEq B] (s : State B) (ev : Event B) : Prop where
  no_fault : ∀ f, perform s ev ≠ some (.error f)
  keepsAvail : ∀ s', step s ev = some s' → KeepsAvail s s'
  /-- The handler uses the buffer of the request whose completion it processes. -/
  own_buffer : ev = .intrRound → s.disk.usedIdx ≠ s.disk.usedEnd →
    ∃ b t, (s.disk.usedRing (CyclicQueue.cell num s.disk.usedIdx)).toNat = t.head.val ∧
      s.call b = .waiting t ∧ s.stage t.head = .posted ∧ (s.disk.info t.head).b = some b
  /-- A call returns only after the completion of its request was processed. -/
  returns : ∀ s', step s ev = some s' → ∀ b t, s.call b = .waiting t → s'.call b ≠ .waiting t →
    s.stage t.head = .processed

/-- For every interleaving of calls for different buffers, interrupts and the device, which posts
every chain head once and with status 0: in every state that is reached, a descriptor is free
exactly if it belongs to no request in flight, requests in flight own disjoint triples, and
whatever happens next is sound. -/
theorem requests_tracked [DecidableEq B] {events : List (Event B)} {s : State B}
    (hrun : Run (StepOf step) .init events s) : Owners s ∧ ∀ ev, Sound s ev := by
  have hinv : Inv s := hrun.invariant (fun h hstep => (Inv.step h hstep).inv) Inv.init
  refine ⟨hinv.owners, fun ev => ⟨fun f hf => ?_, fun s' hstep => (hinv.step hstep).keepsAvail,
    fun _ hsome => hinv.next_posted hsome, fun s' hstep => (hinv.step hstep).returns⟩⟩
  obtain ⟨s', hs', -⟩ := hinv.perform hf
  cases hs'

/-- A read into one of two buffers, from the call to its return. -/
def readEvents : List (Event Bool) :=
  [.rw true false 5, .take, .post 0, .intr, .intrRound, .intrRound, .resume true]

/-- After it all descriptors are free again. -/
theorem requests_tracked_read : ∃ s : State Bool, Run (StepOf step) .init readEvents s ∧
    (∀ i, s.disk.free i = true) ∧ Owners s ∧ ∀ ev, Sound s ev := by
  have hfree : ((exec step (State.init : State Bool) readEvents).map fun s =>
      decide (∀ i, s.disk.free i = true)) = some true := by
    decide +kernel
  obtain ⟨s, hs, hall⟩ := Option.map_eq_some_iff.mp hfree
  have hrun := run_of_exec hs
  obtain ⟨howners, hsound⟩ := requests_tracked hrun
  exact ⟨s, hrun, of_decide_eq_true hall, howners, hsound⟩

end Virtio
end FastIpc
