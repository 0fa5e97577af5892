import FastIpc.Foundation.Run
import FastIpc.Kernel.Transfers
import FastIpc.Pipes.Calls

/-!
# Bytes that pipe calls account for

What a call of `piperead` removes from a pipe, delivers and counts, with the `copyout` of
`kernel/vm.c` on the page table of the caller, and what a call of `pipewrite` inserts and
counts.  The first loop of `piperead` removes nothing; the second one runs under the lock of the
pipe, so that it sees the pipe and the memory by itself.

Main results:

- Theorem `pipereadLoop_run`: the loop does the rounds of `piperead`.
- Theorem `pipe_calls_account`: when a call accounts for the bytes it moves.
-/

namespace FastIpc
namespace Pipes

open Foundation FaultM Kernel
open Function (update update_of_ne update_self)

/-! ## Reading -/

/-- The address of byte `i` of a buffer, `addr + i`. -/
def bufAddr (addr i : Nat) : Nat := (addr + i) % 2 ^ 64

/-- The second loop of `piperead`, with `i` bytes read.  It returns their number and leaves
the pipe as in the second component. -/
def pipereadLoop (pagetable addr : Nat) : Nat → Nat → Pipe → RamM (Nat × Pipe)
  | 0, i, pi => return (i, pi)
  | rounds + 1, i, pi => do
    if pi.Empty then
      return (i, pi)
    else if (← copyout pagetable (bufAddr addr i) 0 [pi.next]) = -1 then
      return (i, pi.take)
    else
      pipereadLoop pagetable addr rounds (i + 1) pi.take

/-- `piperead` for `n` bytes, once it does not have to wait. -/
def pipereadCopy (pagetable addr : Nat) (n : Int) (pi : Pipe) : RamM (Nat × Pipe) :=
  pipereadLoop pagetable addr n.toNat 0 pi

namespace Pipe

/-- The bytes a pipe holds. -/
def used (pi : Pipe) : Nat := (pi.nwrite - pi.nread).toNat

/-- The pipe after `i` bytes have been removed. -/
def skip (pi : Pipe) (i : Nat) : Pipe := { pi with nread := pi.nread + BitVec.ofNat 32 i }

/-- The byte that is removed after `i` others. -/
def byteAt (pi : Pipe) (i : Nat) : BitVec 8 := (pi.skip i).next

theorem skip_zero (pi : Pipe) : pi.skip 0 = pi := by
  simp [skip]

theorem take_skip (pi : Pipe) (i : Nat) : (pi.skip i).take = pi.skip (i + 1) := by
  unfold take skip
  congr 1
  apply BitVec.eq_of_toNat_eq
  simp [BitVec.toNat_add, BitVec.toNat_ofNat, Nat.add_assoc]

theorem empty_skip_iff (pi : Pipe) {i : Nat} (hi : i ≤ pi.used) :
    (pi.skip i).Empty ↔ i = pi.used := by
  unfold used at *
  unfold Empty skip
  constructor
  · intro h
    bv_omega
  · intro h
    bv_omega

theorem skip_succ_nread_ne (pi : Pipe) (i : Nat) :
    (pi.skip (i + 1)).nread ≠ pi.nread + BitVec.ofNat 32 i := by
  unfold skip
  bv_omega

end Pipe

/-- Memory after `i` bytes have been copied out to a buffer. -/
def deliver (m : Memory) (r addr : Nat) (pi : Pipe) : Nat → Memory
  | 0 => m
  | i + 1 => update (deliver m r addr pi i) (userAddr m r (bufAddr addr i)) (pi.byteAt i)

/-- User memory has no page in common with the page table. -/
def TableApart (m : Memory) (r : Nat) : Prop :=
  ∀ va path n, Accessible m r va → path.length ≤ 2 → table m r path = some n →
    ∀ x, n ≤ x → x < n + pgSize → ¬(pte2pa (leaf m r va) ≤ x ∧ x < pte2pa (leaf m r va) + pgSize)

variable {m : Memory} {r : Nat}

theorem accessible_pgRoundDown {va : Nat} : Accessible m r (pgRoundDown va) ↔ Accessible m r va :=
  accessible_of_page (pgRoundDown_div va)

theorem userAddr_of_accessible {va : Nat} (h : Accessible m r va) :
    userAddr m r va = pte2pa (leaf m r va) + va % pgSize := by
  rw [userAddr, userPage_of_accessible (accessible_pgRoundDown.mpr h),
    leaf_eq_of_page (pgRoundDown_div va)]

theorem copyout_byte (s : Ram) (r va : Nat) (ch : BitVec 8) :
    copyout r va 0 [ch] s = if Accessible s.mem r va then
        .ok (0, { s with mem := update s.mem (userAddr s.mem r va) ch })
      else .ok (-1, s) := by
  split
  next h =>
    have hpage : userPage s.mem r (pgRoundDown va) ≠ 0 :=
      userPage_ne_zero_iff.mpr (accessible_pgRoundDown.mpr h)
    have hsplit : pgRoundDown va + va % pgSize = va := Nat.div_add_mod' va pgSize
    have hrun := @copyout_page s r (pgRoundDown va) (va % pgSize) 0 [ch] (Nat.mul_mod_left ..) hpage
      (by simp) (Nat.mod_lt _ (by decide))
    rw [hsplit] at hrun
    rw [hrun, mymemmoveFrom_of_le (by simp)]
    congr 3
    funext x
    by_cases hx : x = userAddr s.mem r va
    · rw [hx, update_self]
      simp [userAddr, Memory.blit]
    · rw [update_of_ne hx]
      refine Memory.blit_of_not_mem fun hin => hx ?_
      simp only [List.length_singleton] at hin
      unfold userAddr
      omega
  next h =>
    have hpage : userPage s.mem r (pgRoundDown va) = 0 := by
      by_contra hne
      exact h (accessible_pgRoundDown.mp (userPage_ne_zero_iff.mp hne))
    rw [copyout, List.length_singleton, copyoutLoop, if_neg (by simp)]
    simp only [bind_of_ok walkaddr_eq]
    rw [if_pos hpage]
    rfl

theorem deliver_sameTable (hapart : TableApart m r) (addr : Nat) (pi : Pipe) {i : Nat}
    (hi : ∀ j < i, Accessible m r (bufAddr addr j)) : SameTable r m (deliver m r addr pi i) := by
  induction i with
  | zero => exact fun _ _ _ _ _ => rfl
  | succ i ih =>
    have haccess := hi i (Nat.lt_succ_self i)
    refine (ih fun j hj => hi j (Nat.lt_succ_of_lt hj)).of_eq fun path n hlen hn x hlo hhi => ?_
    have hmod : bufAddr addr i % pgSize < pgSize := Nat.mod_lt _ (by decide)
    refine update_of_ne (fun heq => ?_) _ _
    rw [userAddr_of_accessible haccess] at heq
    exact hapart _ path n haccess hlen hn x hlo hhi ⟨by omega, by omega⟩

/-- The loop removes bytes until the count, the pipe or the accessible part of the buffer ends.  In
the last case it removes one byte more than it delivers. -/
theorem pipereadLoop_eq {s : Ram} (hapart : TableApart s.mem r) (addr : Nat) (pi : Pipe)
    (rounds : Nat) {i : Nat} (hi : i ≤ pi.used)
    (haccess : ∀ j < i, Accessible s.mem r (bufAddr addr j)) :
    ∃ j, j ≤ min (i + rounds) pi.used ∧ (∀ j' < j, Accessible s.mem r (bufAddr addr j')) ∧
      ((j = min (i + rounds) pi.used ∧
          pipereadLoop r addr rounds i (pi.skip i) { s with mem := deliver s.mem r addr pi i } =
            .ok ((j, pi.skip j), { s with mem := deliver s.mem r addr pi j })) ∨
        (j < min (i + rounds) pi.used ∧ ¬Accessible s.mem r (bufAddr addr j) ∧
          pipereadLoop r addr rounds i (pi.skip i) { s with mem := deliver s.mem r addr pi i } =
            .ok ((j, pi.skip (j + 1)), { s with mem := deliver s.mem r addr pi j }))) := by
  induction rounds generalizing i with
  | zero => exact ⟨i, by omega, haccess, .inl ⟨by omega, rfl⟩⟩
  | succ rounds ih =>
    rw [pipereadLoop]
    by_cases hempty : i = pi.used
    · rw [if_pos ((pi.empty_skip_iff hi).mpr hempty)]
      exact ⟨i, by omega, haccess, .inl ⟨by omega, rfl⟩⟩
    · rw [if_neg fun h => hempty ((pi.empty_skip_iff hi).mp h)]
      have hsame := deliver_sameTable hapart addr pi haccess
      by_cases hnext : Accessible s.mem r (bufAddr addr i)
      · have hcopy : copyout r (bufAddr addr i) 0 [(pi.skip i).next]
            { s with mem := deliver s.mem r addr pi i } =
            .ok (0, { s with mem := deliver s.mem r addr pi (i + 1) }) := by
          rw [copyout_byte, if_pos (hsame.accessible_iff.mpr hnext), hsame.userAddr_eq]
          rfl
        rw [bind_of_ok hcopy, if_neg (by decide), pi.take_skip]
        have hlast : ∀ j < i + 1, Accessible s.mem r (bufAddr addr j) := by
          intro j hj
          rcases Nat.lt_succ_iff_lt_or_eq.mp hj with hlt | rfl
          · exact haccess j hlt
          · exact hnext
        rw [show i + (rounds + 1) = i + 1 + rounds by omega]
        exact ih (by omega) hlast
      · have hcopy : copyout r (bufAddr addr i) 0 [(pi.skip i).next]
            { s with mem := deliver s.mem r addr pi i } =
            .ok (-1, { s with mem := deliver s.mem r addr pi i }) := by
          rw [copyout_byte, if_neg fun h => hnext (hsame.accessible_iff.mp h)]
        rw [bind_of_ok hcopy, if_pos rfl, pi.take_skip]
        exact ⟨i, by omega, haccess, .inr ⟨by omega, hnext, rfl⟩⟩

/-- The bytes that a read of `pi` removed are those it counts, and it delivered them. -/
structure Accounted (r addr : Nat) (pi pi' : Pipe) (res : Nat) (s t : Ram) : Prop where
  counted : pi'.nread = pi.nread + BitVec.ofNat 32 res
  accessible : ∀ j < res, Accessible s.mem r (bufAddr addr j)
  delivered : t.mem = deliver s.mem r addr pi res

/-- A read accounts for the bytes it removes if and only if it can copy out all that it gets to. -/
theorem pipereadCopy_accounted_iff {s : Ram} (hapart : TableApart s.mem r) (addr : Nat) (n : Int)
    (pi : Pipe) : ∃ res pi' t, pipereadCopy r addr n pi s = .ok ((res, pi'), t) ∧
      (Accounted r addr pi pi' res s t ↔
        ∀ j < min n.toNat pi.used, Accessible s.mem r (bufAddr addr j)) := by
  obtain ⟨j, hj, haccess, hcases⟩ := pipereadLoop_eq hapart addr pi n.toNat (Nat.zero_le pi.used)
    (by simp)
  rw [Pipe.skip_zero, Nat.zero_add] at hcases
  rcases hcases with ⟨rfl, hrun⟩ | ⟨hlt, hnot, hrun⟩
  · exact ⟨_, _, _, hrun, fun _ => haccess, fun _ => ⟨rfl, haccess, rfl⟩⟩
  · exact ⟨_, _, _, hrun, fun h => absurd h.counted (pi.skip_succ_nread_ne j),
      fun h => absurd (h j hlt) hnot⟩

section Rounds

variable {P : Type} [DecidableEq P] {p : P} {n : Int} {i : Nat} {u : State P}

theorem step_round_read (hlock : u.lock = some p) (hframe : u.frame p = .read n i)
    (copied : Option (BitVec 8)) :
    step u (.round p copied) = some (piperead u p n i copied.isSome) := by
  simp only [step, if_pos hlock, hframe]

theorem piperead_copied (hmore : i < n ∧ ¬u.pipe.Empty) :
    piperead u p n i true = { u with
        pipe := u.pipe.take
        taken := u.taken ++ [u.pipe.next]
        frame := update u.frame p (.read n (i + 1)) } := by
  rw [piperead, if_pos hmore]
  rfl

/-- The loop does the rounds of `piperead` for a process that holds the lock. -/
theorem pipereadLoop_run {r addr res : Nat} (rounds : Nat) {s t : Ram} {pi' : Pipe}
    (hrounds : rounds = (n - i).toNat) (hlock : u.lock = some p) (hframe : u.frame p = .read n i)
    (hrun : pipereadLoop r addr rounds i u.pipe s = .ok ((res, pi'), t)) :
    ∃ actions v, Run (StepOf step) u actions v ∧ v.pipe = pi' ∧ v.frame p = .user res ∧
      v.lock = none := by
  induction rounds generalizing i u s with
  | zero =>
    cases hrun
    refine ⟨[.round p none], _, Run.cons (step_round_read hlock hframe none) .nil, ?_⟩
    rw [piperead, if_neg (by omega)]
    simp [State.ret, State.wakeup]
  | succ rounds ih =>
    rw [pipereadLoop] at hrun
    split at hrun
    next hempty =>
      cases hrun
      refine ⟨[.round p none], _, Run.cons (step_round_read hlock hframe none) .nil, ?_⟩
      rw [piperead, if_neg fun h => h.2 hempty]
      simp [State.ret, State.wakeup]
    next hempty =>
      obtain ⟨copied, s1, -, hrun⟩ := bind_eq_ok.mp hrun
      have hmore : i < n ∧ ¬u.pipe.Empty := ⟨by omega, hempty⟩
      split at hrun
      next =>
        cases hrun
        refine ⟨[.round p none], _, Run.cons (step_round_read hlock hframe none) .nil, ?_⟩
        rw [piperead, if_pos hmore]
        simp [State.ret, State.wakeup]
      next =>
        have hstep := step_round_read hlock hframe (some 0)
        rw [Option.isSome_some, piperead_copied hmore] at hstep
        obtain ⟨actions, v, hrest, hdone⟩ := ih
          (u := { u with
            pipe := u.pipe.take
            taken := u.taken ++ [u.pipe.next]
            frame := update u.frame p (.read n (i + 1)) })
          (by push_cast; omega) hlock (update_self ..) hrun
        exact ⟨_, v, Run.cons hstep hrest, hdone⟩

end Rounds

/-! ## Writing -/

section Writing

variable {P : Type} [DecidableEq P]

/-- What the last step put into the pipe for the call of `p`, with the position in its
buffer. -/
def inserted (p : P) (s t : State P) : Action P → List (Nat × BitVec 8)
  | .round q _ =>
    match s.frame p with
    | .write _ i => if q = p then (t.put.drop s.put.length).map fun ch => (i, ch) else []
    | _ => []
  | _ => []

/-- A process begins a call. -/
def Action.Begins (p : P) : Action P → Prop
  | .write q _ => q = p
  | .read q _ => q = p
  | _ => False

/-- Steps of the system while `p` begins no call, with what `p` has inserted. -/
def WatchStep (p : P) (s : State P × List (Nat × BitVec 8)) (a : Action P)
    (t : State P × List (Nat × BitVec 8)) : Prop :=
  ¬a.Begins p ∧ StepOf step s.1 a t.1 ∧ t.2 = s.2 ++ inserted p s.1 t.1 a

/-- A call of `pipewrite` has inserted the bytes it has counted so far; when it has returned,
those it returned. -/
def WriteCounted (p : P) (n : Int) (s : State P × List (Nat × BitVec 8)) : Prop :=
  match s.1.frame p with
  | .write n' i => n' = n ∧ s.2.map Prod.fst = List.range i
  | .writeSleep n' i => n' = n ∧ s.2.map Prod.fst = List.range i
  | .user res => 0 ≤ res → s.2.map Prod.fst = List.range res.toNat
  | _ => False

variable {n : Int} {p : P}

omit [DecidableEq P] in
/-- A step of another process leaves the call where it is. -/
theorem WriteCounted.of_frame {s t : State P × List (Nat × BitVec 8)} (h : WriteCounted p n s)
    (hframe : t.1.frame p = s.1.frame p) (hlist : t.2 = s.2) : WriteCounted p n t := by
  unfold WriteCounted at *
  rw [hframe, hlist]
  exact h

theorem WriteCounted.round {i : Nat} {s : State P} {l : List (Nat × BitVec 8)}
    (hl : l.map Prod.fst = List.range i) (copied : Option (BitVec 8))
    (hframe : s.frame p = .write n i) :
    WriteCounted p n (pipewrite s p n i copied,
      l ++ inserted p s (pipewrite s p n i copied) (.round p copied)) := by
  simp only [inserted, hframe, if_true]
  unfold pipewrite
  split
  next =>
    split
    next => simp [WriteCounted, State.ret]
    next =>
      split
      next => simp [WriteCounted, State.sleep, State.wakeup, hl]
      next =>
        cases copied with
        | none => simp [WriteCounted, State.ret, State.wakeup, hl]
        | some ch => simp [WriteCounted, hl, List.range_succ]
  next => simp [WriteCounted, State.ret, State.wakeup, hl]

theorem inserted_round_of_ne {q : P} (hne : q ≠ p) (s t : State P) (copied : Option (BitVec 8)) :
    inserted p s t (.round q copied) = [] := by
  simp only [inserted]
  split
  next => rw [if_neg hne]
  next => rfl

section Frames

variable {p q : P} {n : Int} {i : Nat} {s : State P}

theorem pipewrite_frame_of_ne (hne : q ≠ p) (copied : Option (BitVec 8)) :
    (pipewrite s q n i copied).frame p = s.frame p := by
  unfold pipewrite State.ret State.sleep State.wakeup
  split
  next =>
    split
    next => exact update_of_ne hne.symm _ _
    next =>
      split
      next => exact update_of_ne hne.symm _ _
      next => cases copied <;> exact update_of_ne hne.symm _ _
  next => exact update_of_ne hne.symm _ _

theorem pipereadWait_frame_of_ne (hne : q ≠ p) : (pipereadWait s q n).frame p = s.frame p := by
  unfold pipereadWait State.ret State.sleep
  split
  next => split <;> exact update_of_ne hne.symm _ _
  next => exact update_of_ne hne.symm _ _

theorem piperead_frame_of_ne (hne : q ≠ p) (copied : Bool) :
    (piperead s q n i copied).frame p = s.frame p := by
  unfold piperead State.ret State.wakeup
  split
  next => cases copied <;> exact update_of_ne hne.symm _ _
  next => exact update_of_ne hne.symm _ _

omit [DecidableEq P] in
theorem pipeclose_frame (writable : Bool) : (pipeclose s writable).frame = s.frame := by
  cases writable <;> rfl

end Frames

theorem WriteCounted.step {a : Action P} {s t : State P × List (Nat × BitVec 8)}
    (h : WriteCounted p n s) (hstep : WatchStep p s a t) : WriteCounted p n t := by
  obtain ⟨hbegins, hmove, hlist⟩ := hstep
  -- Only the process itself changes its frame, and only its rounds insert for it.
  have hother : t.1.frame p = s.1.frame p → inserted p s.1 t.1 a = [] → WriteCounted p n t :=
    fun hframe hnone => h.of_frame hframe (by rw [hlist, hnone, List.append_nil])
  rcases s with ⟨s, l⟩
  rcases t with ⟨t, l'⟩
  simp only at *
  cases moved_of_step hmove with
  | write hlock hframe => exact hother (update_of_ne (Ne.symm hbegins) _ _) rfl
  | read hlock hframe => exact hother (update_of_ne (Ne.symm hbegins) _ _) rfl
  | @rewrite q n' i hlock hawake hframe =>
    by_cases hqp : q = p
    · subst hqp
      simp only [WriteCounted, hframe] at h
      simpa [WriteCounted, State.acquire, hlist, inserted] using h
    · exact hother (update_of_ne (Ne.symm hqp) _ _) rfl
  | @reread q n' hlock hawake hframe =>
    by_cases hqp : q = p
    · subst hqp
      simp only [WriteCounted, hframe] at h
    · exact hother (update_of_ne (Ne.symm hqp) _ _) rfl
  | @pipewrite q n' i copied hlock hframe =>
    by_cases hqp : q = p
    · subst hqp
      simp only [WriteCounted, hframe] at h
      obtain ⟨rfl, hl⟩ := h
      rw [hlist]
      exact WriteCounted.round hl copied hframe
    · exact hother (pipewrite_frame_of_ne hqp copied) (inserted_round_of_ne hqp ..)
  | @pipereadWait q n' copied hlock hframe =>
    by_cases hqp : q = p
    · subst hqp
      simp only [WriteCounted, hframe] at h
    · exact hother (pipereadWait_frame_of_ne hqp) (inserted_round_of_ne hqp ..)
  | @piperead q n' i copied hlock hframe =>
    by_cases hqp : q = p
    · subst hqp
      simp only [WriteCounted, hframe] at h
    · exact hother (piperead_frame_of_ne hqp _) (inserted_round_of_ne hqp ..)
  | @close writable hlock => exact hother (congrFun (pipeclose_frame writable) p) rfl
  | kill => exact hother rfl rfl

end Writing

/-- A read that does not have to wait accounts for the bytes it removes if and only if it can copy
out all bytes that it gets to.  A write that returns a count has inserted that many bytes, those of
its buffer in order, whatever the other processes do. -/
theorem pipe_calls_account (r addr : Nat) (n : Int) (pi : Pipe) (s : Ram) (P : Type)
    [DecidableEq P] (p : P) :
    (TableApart s.mem r → ∃ res pi' t, pipereadCopy r addr n pi s = .ok ((res, pi'), t) ∧
        (Accounted r addr pi pi' res s t ↔
          ∀ j < min n.toNat pi.used, Accessible s.mem r (bufAddr addr j))) ∧
    ∀ (n res : Int) (s t : State P) (actions : List (Action P)) (bytes : List (Nat × BitVec 8)),
      s.frame p = .write n 0 → Run (WatchStep p) (s, []) actions (t, bytes) →
      t.frame p = .user res → 0 ≤ res → bytes.map Prod.fst = List.range res.toNat := by
  constructor
  · intro hapart
    exact pipereadCopy_accounted_iff hapart addr n pi
  · intro n res s t actions bytes hs hrun ht hres
    have hstart : WriteCounted p n (s, []) := by simp [WriteCounted, hs]
    have hend := hrun.invariant (fun hu hstep => hu.step hstep) hstart
    simp only [WriteCounted, ht] at hend
    exact hend hres

/-- What a process inserts in a run can be recorded. -/
theorem exists_watched {P : Type} [DecidableEq P] {p : P} {s t : State P} {actions : List (Action P)}
    (hrun : Run (StepOf step) s actions t) (hbegins : ∀ a ∈ actions, ¬a.Begins p) :
    ∃ bytes, Run (WatchStep p) (s, []) actions (t, bytes) := by
  induction hrun with
  | nil => exact ⟨[], .nil⟩
  | @snoc _ u v a _ hlast ih =>
    obtain ⟨bytes, hbytes⟩ := ih fun a ha => hbegins a (by simp [ha])
    exact ⟨bytes ++ inserted p u v a, hbytes.snoc ⟨hbegins a (by simp), hlast, rfl⟩⟩

/-- A pipe that holds `n` bytes, the first in the last cell but one. -/
def filled (n : BitVec 32) : Pipe := ⟨fun _ => 97, 510, 510 + n, true, true⟩

theorem leaf_twoPages {pte next : Nat} (hpte : pte < 256 ^ 8 ∧ next < 256 ^ 8) (va : Nat) :
    leaf (twoPages pte next) 0x1000 va ∈ [pte, next] ∨ leaf (twoPages pte next) 0x1000 va = 0 := by
  unfold leaf
  split
  next nd htable =>
    have hnd : nd = 0x1000 + 0x1000 * 2 := table_twoPages hpte le_rfl htable
    rw [entryAt_twoPages hpte (by rw [hnd]; decide), if_neg (by omega : ¬(nd = 0x2000 ∧ _)),
      if_neg (by omega : ¬(nd = 0x1000 ∧ _))]
    split_ifs <;> simp
  next => simp

theorem tableApart_twoDataPages : TableApart twoDataPages.mem 0x1000 := by
  intro va path n haccess hlen hn x hlo hhi hx
  have hplace := table_twoPages (by decide) hlen hn
  have hpa : ∀ pte ∈ [dataPage 0x5000, dataPage 0x8000], 0x5000 ≤ pte2pa pte := by decide
  rcases leaf_twoPages (show dataPage 0x5000 < 256 ^ 8 ∧ dataPage 0x8000 < 256 ^ 8 by decide) va
    with hleaf | hleaf
  · have hlow : 0x5000 ≤ pte2pa (leaf twoDataPages.mem 0x1000 va) := hpa _ hleaf
    unfold pgSize at *
    omega
  · exact haccess.2.1 (by rw [twoDataPages, twoPagesRam, hleaf, Nat.zero_and])

/-- A pipe with one free cell, and a process that has begun to write two bytes. -/
def writing : State Bool where
  pipe := filled 511
  lock := some true
  frame p := if p then .write 2 0 else .user 0
  asleep _ := none
  killed _ := false
  put := []
  taken := []

/-- It sleeps after the first byte, until the other process has read one. -/
def writingActions : List (Action Bool) :=
  [.round true (some 98), .round true none, .read false 1, .round false none,
    .round false (some 0), .round false none, .resume true, .round true (some 99), .round true none]

/-- Four bytes are read to both sides of a page edge, from both ends of the buffer; and two bytes
are written. -/
theorem pipe_calls_account_four_bytes :
    (∃ res pi' t, pipereadCopy 0x1000 0xffe 4 (filled 4) twoDataPages = .ok ((res, pi'), t) ∧
      Accounted 0x1000 0xffe (filled 4) pi' res twoDataPages t) ∧
    ∃ t bytes, Run (WatchStep true) (writing, []) writingActions (t, bytes) ∧
      t.frame true = .user 2 ∧ bytes.map Prod.fst = List.range 2 := by
  have hcalls := pipe_calls_account 0x1000 0xffe 4 (filled 4) twoDataPages Bool true
  constructor
  · obtain ⟨res, pi', t, hrun, hiff⟩ := hcalls.1 tableApart_twoDataPages
    exact ⟨res, pi', t, hrun, hiff.mpr (by decide +kernel)⟩
  · obtain ⟨t, hexec, hframe⟩ : ∃ t, exec step writing writingActions = some t ∧
        t.frame true = .user 2 := exists_exec (by decide +kernel)
    obtain ⟨bytes, hrun⟩ := exists_watched (p := true) (run_of_exec hexec)
      (by simp [writingActions, Action.Begins])
    exact ⟨t, bytes, hrun, hframe, hcalls.2 2 2 _ _ _ _ rfl hrun hframe (by decide)⟩

/-- A read into a page that is not mapped returns 0 and has removed a byte. -/
theorem piperead_drops_byte :
    pipereadCopy 0x1000 8192 1 (filled 1) twoDataPages =
      .ok ((0, (filled 1).take), twoDataPages) ∧
    ¬Accounted 0x1000 8192 (filled 1) (filled 1).take 0 twoDataPages twoDataPages := by
  constructor
  · have hcopy : copyout 0x1000 (bufAddr 8192 0) 0 [(filled 1).next] twoDataPages =
        .ok (-1, twoDataPages) := by
      rw [copyout_byte, if_neg (by decide +kernel)]
    show pipereadLoop 0x1000 8192 1 0 (filled 1) _ = _
    rw [pipereadLoop, if_neg (by decide), bind_of_ok hcopy]
    rfl
  · intro h
    exact absurd h.counted (by decide)

/-- A process that has begun to read four bytes. -/
def reading : State Bool := { writing with pipe := filled 4, frame := fun _ => .read 4 0 }

theorem pipereadLoop_run_four_bytes : ∃ res pi' t actions v,
    pipereadLoop 0x1000 0xffe 4 0 (filled 4) twoDataPages = .ok ((res, pi'), t) ∧
      Run (StepOf step) reading actions v ∧ v.pipe = pi' ∧ v.frame true = .user res := by
  obtain ⟨res, pi', t, hrun, -⟩ := pipereadCopy_accounted_iff tableApart_twoDataPages 0xffe 4
    (filled 4)
  obtain ⟨actions, v, hactions, hpipe, hframe, -⟩ :=
    pipereadLoop_run (n := 4) (i := 0) (u := reading) (p := true) 4 rfl rfl rfl hrun
  exact ⟨res, pi', t, actions, v, hrun, hactions, hpipe, hframe⟩

end Pipes
end FastIpc
