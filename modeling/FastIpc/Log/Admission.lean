import FastIpc.Log.Crash
import Mathlib.Data.Finset.Card

/-!
# Admission of operations to the log

The in-memory side of `kernel/log.c`: `begin_op`, `log_write` and `end_op`,
interleaved at the granularity of `log.lock`, with the commit running outside the
lock.  Each operation logs at most `MAXOPBLOCKS` distinct blocks.  A sleeping
`begin_op` has no effect until its test succeeds, so it is a step that is not enabled.

Admission reserves ten blocks for each operation out of `LOGSIZE`, but the log that
`mkfs` makes has `LOGSIZE` blocks including its header, and `log_write` tests for
room before it looks for the block among those already logged.  A call made when 29
distinct blocks have been logged since the last commit therefore panics.

Main results:

- Theorem `MemLog.logWrite_eq_ok`: a block is listed once, and the log has room for it.
- Theorem `third_operation_overflows`: three admitted operations overflow the log.
- Theorem `log_capacity`: which calls stay within the log.
-/

namespace FastIpc
namespace Log

open Foundation

/-- The panics of the three functions. -/
inductive LogPanic where
  | tooBigTransaction
  | outsideOfTrans
  | logCommitting
  deriving DecidableEq, Repr

/-- The in-memory log. -/
structure MemLog where
  lh : List BlockNo
  outstanding : Int
  committing : Bool

namespace MemLog

/-- `begin_op`, when its tests let the process through; until then it sleeps. -/
def beginOp (m : MemLog) : Option MemLog :=
  if m.committing then none
  else if (m.lh.length : Int) + (m.outstanding + 1) * maxOpBlocks > logSize then none
  else some { m with outstanding := m.outstanding + 1 }

/-- `log_write`.  The loop looks the block up among those already logged and ends at
the index it then writes. -/
def logWrite (L : LogArea) (m : MemLog) (b : BlockNo) : Except LogPanic MemLog :=
  if (m.lh.length : Int) ≥ logSize ∨ (m.lh.length : Int) ≥ (L.size : Int) - 1 then
    .error .tooBigTransaction
  else if m.outstanding < 1 then .error .outsideOfTrans
  else
    .ok { m with
      lh := if m.lh.idxOf b = m.lh.length then m.lh ++ [b] else m.lh.set (m.lh.idxOf b) b }

/-- `end_op` up to the release of the lock.  The last operation goes on to commit. -/
def endOp (m : MemLog) : Except LogPanic MemLog :=
  if m.committing then .error .logCommitting
  else .ok { m with
    outstanding := m.outstanding - 1
    committing := decide (m.outstanding - 1 = 0) }

variable {L : LogArea} {m log : MemLog} {b : BlockNo}

theorem beginOp_eq_some (h : m.beginOp = some log) :
    m.committing = false ∧ log = { m with outstanding := m.outstanding + 1 } := by
  unfold beginOp at h
  split at h
  next => cases h
  next hidle =>
    split at h
    next => cases h
    next =>
      cases h
      exact ⟨by simpa using hidle, rfl⟩

/-- During an operation, `log_write` panics only for lack of room. -/
theorem logWrite_eq_error {e : LogPanic} (h : m.logWrite L b = .error e) (hpos : 0 < m.outstanding) :
    e = .tooBigTransaction := by
  unfold logWrite at h
  split at h
  next =>
    cases h
    rfl
  next =>
    rw [if_neg (by omega)] at h
    cases h

/-- A block that is listed already is absorbed and a new one appended. -/
theorem logWrite_eq_ok (h : m.logWrite L b = .ok log) :
    m.lh.length + 1 < L.size ∧ log = { m with lh := if b ∈ m.lh then m.lh else m.lh ++ [b] } := by
  unfold logWrite at h
  split at h
  next => cases h
  next hroom =>
    split at h
    next => cases h
    next =>
      cases h
      refine ⟨by omega, ?_⟩
      by_cases hmem : b ∈ m.lh
      · have hlt := List.idxOf_lt_length_iff.mpr hmem
        rw [if_neg hlt.ne, if_pos hmem]
        nth_rewrite 2 [← List.getElem_idxOf hlt]
        rw [List.set_getElem_self]
      · rw [if_pos (List.idxOf_eq_length hmem), if_neg hmem]

theorem lh_of_endOp (h : m.endOp = .ok log) : log.lh = m.lh := by
  unfold endOp at h
  split at h
  next => cases h
  next =>
    cases h
    rfl

end MemLog

/-- The log, the operations in progress, and the ghosts: the blocks passed to
`log_write` since the last commit, the indices of `log.lh.block` written, and the
blocks commits wrote as log data. -/
structure LogSys extends MemLog where
  op : Nat → Option (List BlockNo)
  panic : Option LogPanic
  since : Finset BlockNo
  indices : List Nat
  logData : List BlockNo

/-- An empty log without operations. -/
def LogSys.init : LogSys where
  lh := []
  outstanding := 0
  committing := false
  op := fun _ => none
  panic := none
  since := ∅
  indices := []
  logData := []

/-- The calls of the processes.  A commit meets whatever the cache and the disk hold. -/
inductive OpAct where
  | beginOp (p : Nat)
  | logWrite (p : Nat) (b : BlockNo)
  | endOp (p : Nat)
  | commit (cache disk : Disk)
  | committed

/-- `begin_op` by a process that is then in an operation. -/
def LogSys.beginOp (s : LogSys) (p : Nat) : Option LogSys := do
  let log ← s.toMemLog.beginOp
  return { s with toMemLog := log, op := Function.update s.op p (some []) }

/-- `log_write`, and the index it writes. -/
def LogSys.logWrite (L : LogArea) (s : LogSys) (b : BlockNo) : LogSys :=
  match s.toMemLog.logWrite L b with
  | .error e => { s with panic := some e }
  | .ok log => { s with toMemLog := log, indices := s.indices ++ [s.lh.idxOf b] }

/-- `end_op` by a process that leaves its operation. -/
def LogSys.endOp (s : LogSys) (p : Nat) : LogSys :=
  match s.toMemLog.endOp with
  | .error e => { s with panic := some e }
  | .ok log => { s with toMemLog := log, op := Function.update s.op p none }

/-- One call, by a process that brackets its writes with `begin_op` and `end_op` and
logs at most `MAXOPBLOCKS` distinct blocks in between. -/
def LogSys.step (L : LogArea) (s : LogSys) : OpAct → Option LogSys
  | .beginOp p => if s.panic = none ∧ s.op p = none then s.beginOp p else none
  | .logWrite p b =>
    match s.panic, s.op p with
    | none, some bs =>
      if b ∈ bs ∨ bs.length < maxOpBlocks then
        some { s.logWrite L b with
          op := Function.update s.op p (some (if b ∈ bs then bs else b :: bs))
          since := insert b s.since }
      else none
    | _, _ => none
  | .endOp p => if s.panic = none ∧ s.op p ≠ none then some (s.endOp p) else none
  | .commit cache disk =>
    if s.panic = none ∧ s.committing ∧ s.lh ≠ [] then
      some { s with
        lh := []
        since := ∅
        logData := s.logData ++ (writeLog L (s.lh.map fun b => (b, cache b)) 0).storeTrace disk }
    else none
  | .committed =>
    if s.panic = none ∧ s.committing ∧ s.lh = [] then some { s with committing := false }
    else none

/-! ## The law and the condition under which it holds -/

/-- The log never overflows: no panic for a too big transaction, no header entry out of
range, and log data only inside the log area. -/
structure CapacityOk (L : LogArea) (s : LogSys) : Prop where
  no_panic : s.panic ≠ some .tooBigTransaction
  index_lt : ∀ i ∈ s.indices, i < logSize
  data_in_log : ∀ b ∈ s.logData, L.Contains b

/-- The condition on one call: `log_write` is called only while fewer than 29 distinct
blocks have been passed to it since the last commit. -/
def Room (s : LogSys) : OpAct → Prop
  | .logWrite _ _ => s.since.card < logSize - 1
  | _ => True

/-- The header lists exactly the blocks logged since the last commit, each once, and
`log.outstanding` counts the operations in progress. -/
structure CapacityInv (s : LogSys) : Prop extends CapacityOk mkfsArea s where
  nodup : s.lh.Nodup
  listed : s.lh.toFinset = s.since
  short : s.lh.length ≤ logSize - 1
  active : ∃ F : Finset Nat, (∀ p, p ∈ F ↔ s.op p ≠ none) ∧ s.outstanding = F.card

namespace CapacityInv

variable {s t : LogSys}

theorem init : CapacityInv LogSys.init where
  no_panic := by decide
  index_lt := by
    intro i hi
    cases hi
  data_in_log := by
    intro b hb
    cases hb
  nodup := List.nodup_nil
  listed := rfl
  short := Nat.zero_le _
  active := ⟨∅, fun p => by simp [LogSys.init], rfl⟩

variable (h : CapacityInv s)
include h

/-- The number of logged blocks is the number of distinct blocks passed in. -/
theorem length_eq : s.lh.length = s.since.card := by
  rw [← h.listed, List.toFinset_card_of_nodup h.nodup]

/-- While an operation is in progress `log.outstanding` is positive. -/
theorem outstanding_pos {p : Nat} (hp : s.op p ≠ none) : 1 ≤ s.outstanding := by
  obtain ⟨F, hF, hcard⟩ := h.active
  have hpos : 0 < F.card := Finset.card_pos.mpr ⟨p, (hF p).mpr hp⟩
  omega

theorem logWrite_full (hfull : ¬ s.since.card < logSize - 1) (b : BlockNo) :
    s.logWrite mkfsArea b = { s with panic := some .tooBigTransaction } := by
  have hlen := h.length_eq
  have hsize : mkfsArea.size = 30 := rfl
  have hlog : logSize = 30 := rfl
  unfold LogSys.logWrite MemLog.logWrite
  rw [if_pos (by omega)]

/-- With room, a block that is already listed is absorbed and a new one appended. -/
theorem logWrite_room (hroom : s.since.card < logSize - 1) {p : Nat} (hp : s.op p ≠ none)
    (b : BlockNo) :
    s.logWrite mkfsArea b = { s with
        lh := if b ∈ s.lh then s.lh else s.lh ++ [b]
        indices := s.indices ++ [s.lh.idxOf b] } := by
  have hlen := h.length_eq
  have hsize : mkfsArea.size = 30 := rfl
  have hlog : logSize = 30 := rfl
  have hpos := h.outstanding_pos hp
  cases hwrite : s.toMemLog.logWrite mkfsArea b with
  | error e =>
    unfold MemLog.logWrite at hwrite
    rw [if_neg (by omega), if_neg (by omega)] at hwrite
    cases hwrite
  | ok log => rw [LogSys.logWrite, hwrite, (MemLog.logWrite_eq_ok hwrite).2]

theorem logWrite (hroom : s.since.card < logSize - 1) {p : Nat} (hp : s.op p ≠ none) (b : BlockNo)
    (bs : List BlockNo) :
    CapacityInv { s.logWrite mkfsArea b with
      op := Function.update s.op p (some bs)
      since := insert b s.since } := by
  have hlen := h.length_eq
  rw [h.logWrite_room hroom hp b]
  exact
    { no_panic := h.no_panic
      index_lt := by
        intro i hi
        rcases List.mem_append.mp hi with hi | hi
        · exact h.index_lt i hi
        · rw [List.mem_singleton] at hi
          have hle : s.lh.idxOf b ≤ s.lh.length := List.idxOf_le_length
          omega
      data_in_log := h.data_in_log
      nodup := by
        by_cases hmem : b ∈ s.lh
        · simpa [hmem] using h.nodup
        · simpa [hmem, List.nodup_append, eq_comm] using ⟨h.nodup, fun c hc heq => hmem (heq ▸ hc)⟩
      listed := by
        by_cases hmem : b ∈ s.lh
        · have hin : b ∈ s.since := by rw [← h.listed]; simpa using hmem
          simp [hmem, h.listed, Finset.insert_eq_of_mem hin]
        · ext c
          simp [hmem, ← h.listed]
      short := by
        by_cases hmem : b ∈ s.lh
        · simpa [hmem] using h.short
        · simp only [hmem, if_false, List.length_append, List.length_singleton]
          omega
      active := by
        obtain ⟨F, hF, hcard⟩ := h.active
        refine ⟨F, ?_, hcard⟩
        intro q
        by_cases hq : q = p
        · subst hq
          simpa using (hF q).mpr hp
        · simpa [Function.update_of_ne hq] using hF q }

theorem beginOp {p : Nat} (hp : s.op p = none) (ht : s.beginOp p = some t) : CapacityInv t := by
  obtain ⟨log, hlog, ht⟩ := Option.bind_eq_some_iff.mp ht
  obtain ⟨-, rfl⟩ := MemLog.beginOp_eq_some hlog
  cases ht
  obtain ⟨F, hF, hcard⟩ := h.active
  refine { h with active := ⟨insert p F, ?_, ?_⟩ }
  · intro q
    by_cases hq : q = p
    · subst hq
      simp
    · simpa [hq] using hF q
  · have hnot : p ∉ F := fun hmem => (hF p).mp hmem hp
    rw [Finset.card_insert_of_notMem hnot]
    push_cast
    omega

theorem endOp {p : Nat} (hp : s.op p ≠ none) : CapacityInv (s.endOp p) := by
  have hactive : ∃ F : Finset Nat,
      (∀ q, q ∈ F ↔ Function.update s.op p none q ≠ none) ∧ s.outstanding - 1 = F.card := by
    obtain ⟨F, hF, hcard⟩ := h.active
    refine ⟨F.erase p, ?_, ?_⟩
    · intro q
      by_cases hq : q = p
      · subst hq
        simp
      · simpa [hq] using hF q
    · have hmem : p ∈ F := (hF p).mpr hp
      have hpos : 0 < F.card := Finset.card_pos.mpr ⟨p, hmem⟩
      rw [Finset.card_erase_of_mem hmem, hcard]
      omega
  unfold LogSys.endOp MemLog.endOp
  by_cases hbusy : s.committing = true
  · rw [if_pos hbusy]
    exact { h with no_panic := by simp }
  · rw [if_neg hbusy]
    exact { h with active := hactive }

/-- A commit writes its log data into the log area and empties the header. -/
theorem commit (cache disk : Disk) :
    CapacityInv { s with
      lh := []
      since := ∅
      logData := s.logData ++
        (writeLog mkfsArea (s.lh.map fun b => (b, cache b)) 0).storeTrace disk } where
  __ := h
  data_in_log := by
    intro b hb
    rcases List.mem_append.mp hb with hb | hb
    · exact h.data_in_log b hb
    · rw [writeLog_storeTrace, List.length_map] at hb
      obtain ⟨i, hi, rfl⟩ := List.mem_map.mp hb
      rw [List.mem_range] at hi
      have hshort := h.short
      have hsize : mkfsArea.size = 30 := rfl
      have hlog : logSize = 30 := rfl
      exact mkfsArea.contains_slot (by omega)
  nodup := List.nodup_nil
  listed := rfl
  short := Nat.zero_le _

/-- Every call that meets the condition keeps the invariant. -/
theorem step {a : OpAct} (hok : Room s a) (ht : s.step mkfsArea a = some t) : CapacityInv t := by
  cases a with
  | beginOp p =>
    simp only [LogSys.step] at ht
    split at ht
    next hp => exact h.beginOp hp.2 ht
    next => cases ht
  | logWrite p b =>
    simp only [LogSys.step] at ht
    split at ht
    next bs _ hop =>
      split at ht
      next =>
        cases ht
        exact h.logWrite hok (by rw [hop]; exact Option.some_ne_none bs) b _
      next => cases ht
    next => cases ht
  | endOp p =>
    simp only [LogSys.step] at ht
    split at ht
    next hp =>
      cases ht
      exact h.endOp hp.2
    next => cases ht
  | commit cache disk =>
    simp only [LogSys.step] at ht
    split at ht
    next =>
      cases ht
      exact h.commit cache disk
    next => cases ht
  | committed =>
    simp only [LogSys.step] at ht
    split at ht
    next =>
      cases ht
      exact { h with }
    next => cases ht

theorem overflow {a : OpAct} (hok : ¬ Room s a) (ht : s.step mkfsArea a = some t) :
    t.panic = some .tooBigTransaction := by
  cases a with
  | logWrite p b =>
    simp only [LogSys.step] at ht
    split at ht
    next =>
      split at ht
      next =>
        cases ht
        rw [h.logWrite_full hok b]
      next => cases ht
    next => cases ht
  | beginOp p => exact absurd trivial hok
  | endOp p => exact absurd trivial hok
  | commit cache disk => exact absurd trivial hok
  | committed => exact absurd trivial hok

end CapacityInv

/-- Log capacity, exactly: on every interleaving in which each `log_write` is called
with fewer than 29 distinct blocks logged since the last commit, the log of an image made
by `mkfs` never overflows; and from every state so reached the next call keeps it that
way exactly if it meets the condition. -/
theorem log_capacity {l : List OpAct} {s : LogSys}
    (hrun : Run (Guarded Room (StepOf (LogSys.step mkfsArea))) LogSys.init l s) :
    CapacityOk mkfsArea s ∧
      ∀ a t, LogSys.step mkfsArea s a = some t → (CapacityOk mkfsArea t ↔ Room s a) := by
  have hinv : CapacityInv s :=
    hrun.invariant_guarded (fun hu hok hstep => hu.step hok hstep) CapacityInv.init
  refine ⟨hinv.toCapacityOk, ?_⟩
  intro a t ht
  constructor
  · intro hcap
    by_contra hok
    exact hcap.no_panic (hinv.overflow hok ht)
  · intro hok
    exact (hinv.step hok ht).toCapacityOk

instance (s : LogSys) : (a : OpAct) → Decidable (Room s a)
  | .logWrite _ _ => inferInstanceAs (Decidable (_ < _))
  | .beginOp _ | .endOp _ | .commit _ _ | .committed => isTrue trivial

/-- An operation that logs blocks `first, …, first + count - 1`. -/
def logBlocks (p first count : Nat) : List OpAct :=
  (List.range count).map fun i => .logWrite p (BitVec.ofNat 32 (first + i))

/-- Two operations of ten blocks each fit. -/
theorem log_capacity_two_operations :
    ∃ s, Run (Guarded Room (StepOf (LogSys.step mkfsArea))) LogSys.init
        ([.beginOp 0, .beginOp 1] ++ logBlocks 0 100 10 ++ logBlocks 1 200 10) s ∧
      s.lh.length = 20 ∧ CapacityOk mkfsArea s := by
  have hexec : (exec (guardStep Room (LogSys.step mkfsArea)) LogSys.init
      ([.beginOp 0, .beginOp 1] ++ logBlocks 0 100 10 ++ logBlocks 1 200 10)).map
        (fun s => s.lh.length) = some 20 := by
    decide +kernel
  obtain ⟨s, hs, hlen⟩ := Option.map_eq_some_iff.mp hexec
  exact ⟨s, run_guarded_of_exec hs, hlen, (log_capacity (run_guarded_of_exec hs)).1⟩

/-- Three operations of ten blocks each are all admitted, and the thirtieth block
panics. -/
theorem third_operation_overflows :
    ¬ ∀ (l : List OpAct) (s : LogSys),
      Run (StepOf (LogSys.step mkfsArea)) LogSys.init l s → CapacityOk mkfsArea s := by
  intro hall
  have hexec : (exec (LogSys.step mkfsArea) LogSys.init
      ([.beginOp 0, .beginOp 1, .beginOp 2] ++ logBlocks 0 100 10 ++ logBlocks 1 200 10 ++
        logBlocks 2 300 10)).map (fun s => s.panic) = some (some .tooBigTransaction) := by
    decide +kernel
  obtain ⟨s, hs, hpanic⟩ := Option.map_eq_some_iff.mp hexec
  exact (hall _ s (run_of_exec hs)).no_panic hpanic

end Log
end FastIpc
