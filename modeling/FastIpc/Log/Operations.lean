import FastIpc.Log.Admission

/-!
# Operations and commits

The calls `begin_op`, `log_write` and `end_op` of `kernel/log.c` by any number
of processes, interleaved at the granularity of `log.lock`.  The last `end_op` commits
outside of the lock; the commit is a process of its own steps, which read the header that
`log_write` changes.  A logged block is pinned once in the buffer cache, and
`install_trans` drops the pin.

On the side, every operation records the number of commits before it and the blocks it logged, and
every commit the blocks it copied to the log and the pins it dropped.

Main results:

- Theorem `operations_commit_whole`: a commit writes whole operations.
-/

namespace FastIpc
namespace Log

open Foundation
open Function (update update_of_ne update_self)

/-- An operation: how many commits had begun before it, and the blocks it logged. -/
structure Operation where
  epoch : Nat
  blocks : List BlockNo

/-- Where `commit` is. -/
inductive CommitPhase where
  | start
  | writeLog (tail : Nat)
  | writeHead
  | install (tail : Nat)
  | clear
  | erase
  /-- Back in `end_op`. -/
  | done

/-- Where a process is. -/
inductive Status where
  | outside
  | inside (op : Operation)
  | committing (phase : CommitPhase)

/-- The in-memory log, the processes and the pins, and on the side the operations that have ended,
and for every commit that has begun, the blocks written and the pins dropped so far. -/
structure OpSys extends MemLog where
  panic : Option LogPanic
  proc : Nat → Status
  pins : BlockNo → Int
  ended : List Operation
  written : List (List BlockNo)
  dropped : List (List BlockNo)

/-- An empty log without operations. -/
def OpSys.init : OpSys where
  lh := []
  outstanding := 0
  committing := false
  panic := none
  proc _ := .outside
  pins _ := 0
  ended := []
  written := []
  dropped := []

/-- Append to the last list. -/
def addLast (l : List (List BlockNo)) (b : BlockNo) : List (List BlockNo) :=
  l.dropLast ++ [l.getLast?.getD [] ++ [b]]

theorem addLast_concat (l : List (List BlockNo)) (last : List BlockNo) (b : BlockNo) :
    addLast (l ++ [last]) b = l ++ [last ++ [b]] := by
  simp [addLast]

namespace OpSys

/-- `begin_op` by a process that is then in an operation. -/
def beginOp (s : OpSys) (p : Nat) : Option OpSys := do
  let log ← s.toMemLog.beginOp
  return { s with toMemLog := log, proc := update s.proc p (.inside ⟨s.written.length, []⟩) }

/-- `log_write` by a process inside an operation.  A block that is new to the log is pinned. -/
def logWrite (L : LogArea) (s : OpSys) (p : Nat) (op : Operation) (b : BlockNo) : OpSys :=
  match s.toMemLog.logWrite L b with
  | .error e => { s with panic := some e }
  | .ok log => { s with
      toMemLog := log
      pins := if s.lh.idxOf b = s.lh.length then update s.pins b (s.pins b + 1) else s.pins
      proc := update s.proc p (.inside { op with blocks := b :: op.blocks }) }

/-- `end_op` up to the release of the lock. -/
def endOp (s : OpSys) (p : Nat) (op : Operation) : OpSys :=
  match s.toMemLog.endOp with
  | .error e => { s with panic := some e }
  | .ok log => { s with
      toMemLog := log
      ended := op :: s.ended
      proc := update s.proc p (if log.committing then .committing .start else .outside) }

/-- The next step of a commit, or of the end of `end_op` after it. -/
def commitStep (s : OpSys) (p : Nat) (phase : CommitPhase) : OpSys :=
  let goto (s : OpSys) (phase : CommitPhase) : OpSys :=
    { s with proc := update s.proc p (.committing phase) }
  match phase with
  | .start =>
    if 0 < s.lh.length then
      goto { s with written := s.written ++ [[]], dropped := s.dropped ++ [[]] } (.writeLog 0)
    else
      goto s .done
  | .writeLog tail =>
    if h : tail < s.lh.length then
      goto { s with written := addLast s.written s.lh[tail] } (.writeLog (tail + 1))
    else
      goto s .writeHead
  | .writeHead => goto s (.install 0)
  | .install tail =>
    if h : tail < s.lh.length then
      goto { s with
        pins := update s.pins s.lh[tail] (s.pins s.lh[tail] - 1)
        dropped := addLast s.dropped s.lh[tail] } (.install (tail + 1))
    else
      goto s .clear
  | .clear => goto { s with lh := [] } .erase
  | .erase => goto s .done
  | .done => { s with committing := false, proc := update s.proc p .outside }

end OpSys

/-- The calls of the processes, and the steps of a commit. -/
inductive OpStep where
  | beginOp (p : Nat)
  | logWrite (p : Nat) (b : BlockNo)
  | endOp (p : Nat)
  | commit (p : Nat)

/-- One step, by a process that brackets its writes with `begin_op` and `end_op`; nothing
happens after a panic. -/
def OpSys.step (L : LogArea) (s : OpSys) (a : OpStep) : Option OpSys :=
  if s.panic ≠ none then none
  else
    match a with
    | .beginOp p =>
      match s.proc p with
      | .outside => s.beginOp p
      | _ => none
    | .logWrite p b =>
      match s.proc p with
      | .inside op => some (s.logWrite L p op b)
      | _ => none
    | .endOp p =>
      match s.proc p with
      | .inside op => some (s.endOp p op)
      | _ => none
    | .commit p =>
      match s.proc p with
      | .committing phase => some (s.commitStep p phase)
      | _ => none

/-! ## The invariant -/

/-- The books, with the finished commits and the blocks that are pinned: every operation that has
ended is part of a finished commit or of the present header. -/
structure Booked (lh : List BlockNo) (ended : List Operation) (pins : BlockNo → Int)
    (finished : List (List BlockNo)) (pinned : List BlockNo) : Prop where
  nodup : ∀ blocks ∈ finished, blocks.Nodup
  filed : ∀ op ∈ ended, op.epoch ≤ finished.length ∧
    ∀ b ∈ op.blocks, b ∈ (finished ++ [lh]).getD op.epoch []
  pins : ∀ b, pins b = if b ∈ pinned then 1 else 0

/-- What has been written and dropped in each phase of a commit. -/
def InPhase (s : OpSys) : Option CommitPhase → Prop
  | none | some .start => s.dropped = s.written ∧ Booked s.lh s.ended s.pins s.written s.lh
  | some (.writeLog tail) => ∃ finished, s.written = finished ++ [s.lh.take tail] ∧
      s.dropped = finished ++ [[]] ∧ tail ≤ s.lh.length ∧ Booked s.lh s.ended s.pins finished s.lh
  | some .writeHead => ∃ finished, s.written = finished ++ [s.lh] ∧
      s.dropped = finished ++ [[]] ∧ Booked s.lh s.ended s.pins finished s.lh
  | some (.install tail) => ∃ finished, s.written = finished ++ [s.lh] ∧
      s.dropped = finished ++ [s.lh.take tail] ∧ tail ≤ s.lh.length ∧
      Booked s.lh s.ended s.pins finished (s.lh.drop tail)
  | some .clear => ∃ finished, s.written = finished ++ [s.lh] ∧
      s.dropped = finished ++ [s.lh] ∧ Booked s.lh s.ended s.pins finished []
  | some .erase | some .done =>
    s.lh = [] ∧ s.dropped = s.written ∧ Booked s.lh s.ended s.pins s.written []

/-- The processes: `log.outstanding` counts those inside an operation, and there are none if a
commit is running. -/
structure Roster (proc : Nat → Status) (outstanding : Int) (running : Option (Nat × CommitPhase)) :
    Prop where
  committer : ∀ p phase, proc p = .committing phase ↔ running = some (p, phase)
  alone : running.isSome = true → ∀ p op, proc p ≠ .inside op
  active : ∃ F : Finset Nat, (∀ p, p ∈ F ↔ ∃ op, proc p = .inside op) ∧ outstanding = F.card

/-- The invariant, with the commit that is running. -/
structure Whole (s : OpSys) (running : Option (Nat × CommitPhase)) : Prop where
  roster : Roster s.proc s.outstanding running
  committing : s.committing = running.isSome
  inside : ∀ p op, s.proc p = .inside op → op.epoch = s.written.length ∧ ∀ b ∈ op.blocks, b ∈ s.lh
  nodup : s.lh.Nodup
  phase : InPhase s (running.map Prod.snd)
  panic : s.panic = none ∨ s.panic = some .tooBigTransaction

theorem getD_concat_lt {l : List (List BlockNo)} {last : List BlockNo} {e : Nat}
    (h : e < l.length) : (l ++ [last]).getD e [] = l.getD e [] := by
  simp [List.getElem?_append_left h]

theorem getD_concat_length {l : List (List BlockNo)} {last : List BlockNo} :
    (l ++ [last]).getD l.length [] = last := by
  simp

namespace Booked

variable {lh : List BlockNo} {ended : List Operation} {pins : BlockNo → Int}
  {finished : List (List BlockNo)} {pinned : List BlockNo} {b : BlockNo}

theorem add (h : Booked lh ended pins finished lh) (hb : b ∉ lh) :
    Booked (lh ++ [b]) ended (update pins b (pins b + 1)) finished (lh ++ [b]) where
  nodup := h.nodup
  filed op hop := by
    obtain ⟨hle, hblocks⟩ := h.filed op hop
    refine ⟨hle, fun c hc => ?_⟩
    have hmem := hblocks c hc
    rcases Nat.lt_or_eq_of_le hle with hlt | heq
    · rwa [getD_concat_lt hlt] at hmem ⊢
    · rw [heq, getD_concat_length] at hmem ⊢
      exact List.mem_append_left _ hmem
  pins c := by
    by_cases hc : c = b
    · subst hc
      rw [update_self, h.pins, if_neg hb, if_pos (by simp)]
      rfl
    · rw [update_of_ne hc, h.pins]
      simp [hc]

theorem file (h : Booked lh ended pins finished pinned) {op : Operation}
    (hepoch : op.epoch = finished.length) (hblocks : ∀ b ∈ op.blocks, b ∈ lh) :
    Booked lh (op :: ended) pins finished pinned where
  __ := h
  filed op' hop' := by
    rcases List.mem_cons.mp hop' with rfl | hop'
    · refine ⟨hepoch.le, fun c hc => ?_⟩
      rw [hepoch, getD_concat_length]
      exact hblocks c hc
    · exact h.filed op' hop'

theorem unpin (h : Booked lh ended pins finished (b :: pinned)) (hb : b ∉ pinned) :
    Booked lh ended (update pins b (pins b - 1)) finished pinned where
  __ := h
  pins c := by
    by_cases hc : c = b
    · subst hc
      rw [update_self, h.pins, if_pos (by simp), if_neg hb]
      rfl
    · rw [update_of_ne hc, h.pins]
      simp [hc]

theorem close (h : Booked lh ended pins finished pinned) (hnodup : lh.Nodup) :
    Booked [] ended pins (finished ++ [lh]) pinned where
  nodup blocks hblocks := by
    rcases List.mem_append.mp hblocks with hold | hnew
    · exact h.nodup blocks hold
    · rw [List.mem_singleton] at hnew
      rwa [hnew]
  filed op hop := by
    obtain ⟨hle, hblocks⟩ := h.filed op hop
    have hlt : op.epoch < (finished ++ [lh]).length := by
      rw [List.length_append, List.length_singleton]
      omega
    refine ⟨hlt.le, fun c hc => ?_⟩
    rw [getD_concat_lt hlt]
    exact hblocks c hc
  pins := h.pins

end Booked

namespace Roster

variable {proc : Nat → Status} {outstanding : Int} {running : Option (Nat × CommitPhase)} {p : Nat}
  {op : Operation} {phase : CommitPhase}

/-- While a process is in an operation, no commit runs. -/
theorem running_eq_none (h : Roster proc outstanding running) (hp : proc p = .inside op) :
    running = none := by
  cases running with
  | none => rfl
  | some r => exact (h.alone rfl p op hp).elim

theorem outstanding_pos (h : Roster proc outstanding running) (hp : proc p = .inside op) :
    0 < outstanding := by
  obtain ⟨F, hF, hcard⟩ := h.active
  have hpos : 0 < F.card := Finset.card_pos.mpr ⟨p, (hF p).mpr ⟨op, hp⟩⟩
  omega

section

variable (h : Roster proc outstanding none)
include h

theorem committer_update {status : Status} (hstatus : ∀ phase, status ≠ .committing phase) (q : Nat)
    (phase : CommitPhase) :
    update proc p status q = .committing phase ↔
      (none : Option (Nat × CommitPhase)) = some (q, phase) := by
  by_cases hq : q = p
  · subst hq
    simp [hstatus]
  · rw [update_of_ne hq, h.committer]

theorem enter (hp : proc p = .outside) (op : Operation) :
    Roster (update proc p (.inside op)) (outstanding + 1) none := by
  obtain ⟨F, hF, hcard⟩ := h.active
  have hnot : p ∉ F := fun hmem => by
    obtain ⟨op, hop⟩ := (hF p).mp hmem
    cases hp.symm.trans hop
  refine ⟨h.committer_update (by simp), by simp, insert p F, fun q => ?_, ?_⟩
  · by_cases hq : q = p
    · subst hq
      simp
    · simp [hq, hF]
  · rw [Finset.card_insert_of_notMem hnot, hcard]
    rfl

theorem stay (hp : proc p = .inside op) (op' : Operation) :
    Roster (update proc p (.inside op')) outstanding none := by
  obtain ⟨F, hF, hcard⟩ := h.active
  refine ⟨h.committer_update (by simp), by simp, F, fun q => ?_, hcard⟩
  by_cases hq : q = p
  · subst hq
    simp [hF, hp]
  · simp [hq, hF]

theorem leave (hp : proc p = .inside op) :
    ∃ F : Finset Nat, (∀ q, q ∈ F ↔ q ≠ p ∧ ∃ op, proc q = .inside op) ∧
      outstanding - 1 = F.card := by
  obtain ⟨F, hF, hcard⟩ := h.active
  have hmem : p ∈ F := (hF p).mpr ⟨op, hp⟩
  refine ⟨F.erase p, fun q => by rw [Finset.mem_erase, hF], ?_⟩
  have hpos : 0 < F.card := Finset.card_pos.mpr ⟨p, hmem⟩
  rw [Finset.card_erase_of_mem hmem, hcard]
  omega

theorem leave_outside (hp : proc p = .inside op) :
    Roster (update proc p .outside) (outstanding - 1) none := by
  obtain ⟨F, hF, hcard⟩ := h.leave hp
  refine ⟨h.committer_update (by simp), by simp, F, fun q => ?_, hcard⟩
  by_cases hq : q = p
  · subst hq
    simp [hF]
  · simp [hq, hF]

theorem leave_commit (hp : proc p = .inside op) (hlast : outstanding - 1 = 0) (phase : CommitPhase) :
    Roster (update proc p (.committing phase)) (outstanding - 1) (some (p, phase)) := by
  obtain ⟨F, hF, hcard⟩ := h.leave hp
  have hempty : F = ∅ := Finset.card_eq_zero.mp (by omega)
  have hnone : ∀ q op, update proc p (.committing phase) q ≠ .inside op := by
    intro q op hq
    by_cases hqp : q = p
    · subst hqp
      simp at hq
    · rw [update_of_ne hqp] at hq
      have hmem := (hF q).mpr ⟨hqp, op, hq⟩
      simp [hempty] at hmem
  refine ⟨fun q phase' => ?_, fun _ => hnone, ∅, fun q => ?_, by simpa using hlast⟩
  · by_cases hqp : q = p
    · subst hqp
      simp
    · rw [update_of_ne hqp, h.committer]
      simp [Ne.symm hqp]
  · simp [hnone]

end

theorem goto (h : Roster proc outstanding (some (p, phase))) (phase' : CommitPhase) :
    Roster (update proc p (.committing phase')) outstanding (some (p, phase')) := by
  have hp : proc p = .committing phase := (h.committer p phase).mpr rfl
  have hinside : ∀ q, (∃ op, update proc p (.committing phase') q = .inside op) ↔
      ∃ op, proc q = .inside op := by
    intro q
    by_cases hqp : q = p
    · subst hqp
      simp [hp]
    · rw [update_of_ne hqp]
  refine ⟨fun q phase'' => ?_, fun _ q op hq => ?_, ?_⟩
  · by_cases hqp : q = p
    · subst hqp
      simp
    · rw [update_of_ne hqp, h.committer]
      simp [Ne.symm hqp]
  · obtain ⟨op', hop'⟩ := (hinside q).mp ⟨op, hq⟩
    exact h.alone rfl q op' hop'
  · obtain ⟨F, hF, hcard⟩ := h.active
    exact ⟨F, fun q => by rw [hinside, hF], hcard⟩

theorem finish (h : Roster proc outstanding (some (p, phase))) :
    Roster (update proc p .outside) outstanding none := by
  have hp : proc p = .committing phase := (h.committer p phase).mpr rfl
  refine ⟨fun q phase' => ?_, by simp, ?_⟩
  · by_cases hqp : q = p
    · subst hqp
      simp
    · rw [update_of_ne hqp, h.committer]
      simp [Ne.symm hqp]
  · obtain ⟨F, hF, hcard⟩ := h.active
    refine ⟨F, fun q => ?_, hcard⟩
    by_cases hqp : q = p
    · subst hqp
      simp [hF, hp]
    · rw [update_of_ne hqp, hF]

end Roster

namespace Whole

variable {L : LogArea} {s t : OpSys} {running : Option (Nat × CommitPhase)} {p : Nat}
  {op : Operation} {phase : CommitPhase}

theorem init : Whole OpSys.init none where
  roster := ⟨by simp [OpSys.init], by simp, ∅, by simp [OpSys.init], rfl⟩
  committing := rfl
  inside p op h := by simp [OpSys.init] at h
  nodup := List.nodup_nil
  phase := ⟨rfl, by simp [OpSys.init], by simp [OpSys.init], by simp [OpSys.init]⟩
  panic := .inl rfl

theorem running_eq_none (h : Whole s running) (hidle : s.committing = false) : running = none := by
  rw [← Option.not_isSome_iff_eq_none, ← h.committing, hidle]
  decide

theorem beginOp (h : Whole s running) (hp : s.proc p = .outside)
    (hstep : s.beginOp p = some t) : Whole t none := by
  obtain ⟨log, hlog, ht⟩ := Option.bind_eq_some_iff.mp hstep
  obtain ⟨hidle, rfl⟩ := MemLog.beginOp_eq_some hlog
  cases ht
  obtain rfl := h.running_eq_none hidle
  refine ⟨h.roster.enter hp _, h.committing, fun q op hq => ?_, h.nodup, h.phase, h.panic⟩
  by_cases hqp : q = p
  · subst hqp
    simp only [update_self] at hq
    cases hq
    exact ⟨rfl, by simp⟩
  · simp only [update_of_ne hqp] at hq
    exact h.inside q op hq

theorem logWrite (h : Whole s running) (hp : s.proc p = .inside op) (b : BlockNo) :
    Whole (s.logWrite L p op b) none := by
  obtain rfl := h.roster.running_eq_none hp
  obtain ⟨hepoch, hblocks⟩ := h.inside p op hp
  obtain ⟨hdropped, hbooked⟩ := h.phase
  -- What the operations have logged stays listed.
  have hinside : ∀ lh : List BlockNo, (∀ c ∈ s.lh, c ∈ lh) → b ∈ lh → ∀ q op',
      update s.proc p (.inside { op with blocks := b :: op.blocks }) q = .inside op' →
      op'.epoch = s.written.length ∧ ∀ c ∈ op'.blocks, c ∈ lh := by
    intro lh hsub hb q op' hq
    by_cases hqp : q = p
    · subst hqp
      rw [update_self] at hq
      cases hq
      refine ⟨hepoch, fun c hc => ?_⟩
      rcases List.mem_cons.mp hc with rfl | hc
      · exact hb
      · exact hsub c (hblocks c hc)
    · rw [update_of_ne hqp] at hq
      obtain ⟨hepoch', hblocks'⟩ := h.inside q op' hq
      exact ⟨hepoch', fun c hc => hsub c (hblocks' c hc)⟩
  cases hwrite : s.toMemLog.logWrite L b with
  | error e =>
    rw [OpSys.logWrite, hwrite]
    have he := MemLog.logWrite_eq_error hwrite (h.roster.outstanding_pos hp)
    exact ⟨h.roster, h.committing, h.inside, h.nodup, h.phase, .inr (congrArg some he)⟩
  | ok log =>
    rw [OpSys.logWrite, hwrite]
    obtain ⟨-, rfl⟩ := MemLog.logWrite_eq_ok hwrite
    by_cases hb : b ∈ s.lh
    · simp only [List.idxOf_eq_length_iff, hb, not_true, if_true, if_false]
      exact ⟨h.roster.stay hp _, h.committing, hinside _ (fun c hc => hc) hb, h.nodup, h.phase,
        h.panic⟩
    · simp only [List.idxOf_eq_length_iff, hb, not_false_eq_true, if_true, if_false]
      refine ⟨h.roster.stay hp _, h.committing, ?_, ?_, ⟨hdropped, hbooked.add hb⟩, h.panic⟩
      · exact hinside _ (fun c hc => List.mem_append_left _ hc) (by simp)
      · exact List.nodup_append.mpr ⟨h.nodup, by simp,
          by simpa using fun c hc => ne_of_mem_of_not_mem hc hb⟩

theorem endOp (h : Whole s running) (hp : s.proc p = .inside op) :
    ∃ running', Whole (s.endOp p op) running' := by
  obtain rfl := h.roster.running_eq_none hp
  obtain ⟨hepoch, hblocks⟩ := h.inside p op hp
  obtain ⟨hdropped, hbooked⟩ := h.phase
  have hfiled := hbooked.file hepoch hblocks
  have hidle : s.committing = false := h.committing
  unfold OpSys.endOp MemLog.endOp
  simp only [hidle, Bool.false_eq_true, if_false]
  by_cases hlast : s.outstanding - 1 = 0
  · have hroster := h.roster.leave_commit hp hlast .start
    simp only [hlast, decide_true, if_true] at hroster ⊢
    exact ⟨some (p, .start), hroster, rfl, fun q op' hq => (hroster.alone rfl q op' hq).elim,
      h.nodup, ⟨hdropped, hfiled⟩, h.panic⟩
  · simp only [hlast, decide_false, Bool.false_eq_true, if_false]
    refine ⟨none, h.roster.leave_outside hp, rfl, fun q op' hq => ?_, h.nodup,
      ⟨hdropped, hfiled⟩, h.panic⟩
    by_cases hqp : q = p
    · subst hqp
      simp at hq
    · simp only [update_of_ne hqp] at hq
      exact h.inside q op' hq

theorem goto (h : Whole s (some (p, phase))) {phase' : CommitPhase}
    (hproc : t.proc = update s.proc p (.committing phase'))
    (houtstanding : t.outstanding = s.outstanding) (hcommitting : t.committing = s.committing)
    (hpanic : t.panic = s.panic) (hnodup : t.lh.Nodup) (hphase : InPhase t (some phase')) :
    Whole t (some (p, phase')) := by
  have hroster : Roster t.proc t.outstanding (some (p, phase')) := by
    rw [hproc, houtstanding]
    exact h.roster.goto phase'
  exact ⟨hroster, hcommitting.trans h.committing, fun q op hq => (hroster.alone rfl q op hq).elim,
    hnodup, hphase, hpanic ▸ h.panic⟩

theorem commitStep (h : Whole s running) (hp : s.proc p = .committing phase) :
    ∃ running', Whole (s.commitStep p phase) running' := by
  obtain rfl := (h.roster.committer p phase).mp hp
  have hphase := h.phase
  cases phase with
  | start =>
    obtain ⟨hdropped, hbooked⟩ := hphase
    unfold OpSys.commitStep
    simp only
    split
    next =>
      refine ⟨_, h.goto rfl rfl rfl rfl h.nodup ⟨s.written, ?_, ?_, Nat.zero_le _, hbooked⟩⟩
      · simp
      · rw [hdropped]
    next hnone =>
      have hempty : s.lh = [] := List.length_eq_zero_iff.mp (by omega)
      refine ⟨_, h.goto rfl rfl rfl rfl h.nodup ⟨hempty, hdropped, ?_⟩⟩
      simpa [hempty] using hbooked
  | writeLog tail =>
    obtain ⟨finished, hwritten, hdropped, hle, hbooked⟩ := hphase
    unfold OpSys.commitStep
    simp only
    split
    next hlt =>
      refine ⟨_, h.goto rfl rfl rfl rfl h.nodup ⟨finished, ?_, hdropped, hlt, hbooked⟩⟩
      rw [hwritten, addLast_concat, List.take_concat_get' _ _ hlt]
    next hge =>
      refine ⟨_, h.goto rfl rfl rfl rfl h.nodup ⟨finished, ?_, hdropped, hbooked⟩⟩
      rw [hwritten, List.take_of_length_le (by omega)]
  | writeHead =>
    obtain ⟨finished, hwritten, hdropped, hbooked⟩ := hphase
    exact ⟨_, h.goto rfl rfl rfl rfl h.nodup
      ⟨finished, hwritten, hdropped, Nat.zero_le _, hbooked⟩⟩
  | install tail =>
    obtain ⟨finished, hwritten, hdropped, hle, hbooked⟩ := hphase
    unfold OpSys.commitStep
    simp only
    split
    next hlt =>
      have hdrop : s.lh.drop tail = s.lh[tail] :: s.lh.drop (tail + 1) :=
        List.drop_eq_getElem_cons hlt
      have hnot : s.lh[tail] ∉ s.lh.drop (tail + 1) := by
        have hnodup := (List.drop_sublist tail s.lh).nodup h.nodup
        rw [hdrop] at hnodup
        exact (List.nodup_cons.mp hnodup).1
      rw [hdrop] at hbooked
      refine ⟨_, h.goto rfl rfl rfl rfl h.nodup
        ⟨finished, hwritten, ?_, hlt, hbooked.unpin hnot⟩⟩
      rw [hdropped, addLast_concat, List.take_concat_get' _ _ hlt]
    next hge =>
      rw [List.drop_eq_nil_of_le (by omega)] at hbooked
      refine ⟨_, h.goto rfl rfl rfl rfl h.nodup ⟨finished, hwritten, ?_, hbooked⟩⟩
      rw [hdropped, List.take_of_length_le (by omega)]
  | clear =>
    obtain ⟨finished, hwritten, hdropped, hbooked⟩ := hphase
    refine ⟨_, h.goto rfl rfl rfl rfl List.nodup_nil ⟨rfl, ?_, ?_⟩⟩
    · exact hdropped.trans hwritten.symm
    · show Booked [] s.ended s.pins s.written []
      rw [hwritten]
      exact hbooked.close h.nodup
  | erase => exact ⟨_, h.goto rfl rfl rfl rfl h.nodup hphase⟩
  | done =>
    obtain ⟨hempty, hdropped, hbooked⟩ := hphase
    refine ⟨none, h.roster.finish, rfl, fun q op hq => ?_, h.nodup, ⟨hdropped, ?_⟩, h.panic⟩
    · by_cases hqp : q = p
      · subst hqp
        simp [OpSys.commitStep] at hq
      · simp only [OpSys.commitStep, update_of_ne hqp] at hq
        exact (h.roster.alone rfl q op hq).elim
    · simpa [OpSys.commitStep, hempty] using hbooked

theorem step {a : OpStep} (h : Whole s running) (hstep : s.step L a = some t) :
    ∃ running', Whole t running' := by
  unfold OpSys.step at hstep
  split at hstep
  next => cases hstep
  next hpanic =>
    cases a with
    | beginOp p =>
      simp only at hstep
      split at hstep
      next hp => exact ⟨none, h.beginOp hp hstep⟩
      next => cases hstep
    | logWrite p b =>
      simp only at hstep
      split at hstep
      next op hp =>
        cases hstep
        exact ⟨none, h.logWrite hp b⟩
      next => cases hstep
    | endOp p =>
      simp only at hstep
      split at hstep
      next op hp =>
        cases hstep
        exact h.endOp hp
      next => cases hstep
    | commit p =>
      simp only at hstep
      split at hstep
      next phase hp =>
        cases hstep
        exact h.commitStep hp
      next => cases hstep

end Whole

theorem exists_whole {L : LogArea} {s : OpSys} {acts : List OpStep}
    (hrun : Run (StepOf (OpSys.step L)) OpSys.init acts s) : ∃ running, Whole s running := by
  induction hrun with
  | nil => exact ⟨none, Whole.init⟩
  | snoc _ hlast ih =>
    obtain ⟨running, h⟩ := ih
    exact h.step hlast

/-- In every state that the processes reach: a commit runs only while no operation is in progress;
neither of the two panics has happened; the header lists no block twice; an operation in progress
and all operations since the last commit have their blocks in the header; every earlier operation
has all its blocks in one commit, the one after it; and outside of a commit the blocks of the header
are pinned once each and no others, and every commit has dropped the pins of exactly the blocks it
wrote. -/
theorem operations_commit_whole {L : LogArea} {s : OpSys} {acts : List OpStep}
    (hrun : Run (StepOf (OpSys.step L)) OpSys.init acts s) :
    (s.committing = true → s.outstanding = 0 ∧ ∀ p op, s.proc p ≠ .inside op) ∧
      (∀ p phase, s.proc p = .committing phase → s.committing = true) ∧
      s.panic ≠ some .logCommitting ∧ s.panic ≠ some .outsideOfTrans ∧ s.lh.Nodup ∧
      (∀ p op, s.proc p = .inside op → op.epoch = s.written.length ∧ ∀ b ∈ op.blocks, b ∈ s.lh) ∧
      (s.committing = false → (∀ op ∈ s.ended,
          (op.epoch < s.written.length ∧ ∀ b ∈ op.blocks, b ∈ s.written.getD op.epoch []) ∨
          (op.epoch = s.written.length ∧ ∀ b ∈ op.blocks, b ∈ s.lh)) ∧
        (∀ b, s.pins b = if b ∈ s.lh then 1 else 0) ∧
        s.dropped = s.written ∧ ∀ blocks ∈ s.written, blocks.Nodup) := by
  obtain ⟨running, h⟩ := exists_whole hrun
  refine ⟨fun hc => ?_, fun p phase hp => ?_, ?_, ?_, h.nodup, h.inside, fun hc => ?_⟩
  · have hsome : running.isSome = true := h.committing.symm.trans hc
    obtain ⟨F, hF, hcard⟩ := h.roster.active
    have hempty : F = ∅ := Finset.eq_empty_of_forall_notMem fun p hp => by
      obtain ⟨op, hop⟩ := (hF p).mp hp
      exact h.roster.alone hsome p op hop
    exact ⟨by rw [hcard, hempty]; rfl, h.roster.alone hsome⟩
  · rw [h.committing, (h.roster.committer p phase).mp hp]
    rfl
  · rcases h.panic with hnone | hbig
    · simp [hnone]
    · simp [hbig]
  · rcases h.panic with hnone | hbig
    · simp [hnone]
    · simp [hbig]
  · obtain rfl := h.running_eq_none hc
    obtain ⟨hdropped, hbooked⟩ := h.phase
    refine ⟨fun op hop => ?_, hbooked.pins, hdropped, hbooked.nodup⟩
    obtain ⟨hle, hblocks⟩ := hbooked.filed op hop
    rcases Nat.lt_or_eq_of_le hle with hlt | heq
    · rw [getD_concat_lt hlt] at hblocks
      exact .inl ⟨hlt, hblocks⟩
    · rw [heq, getD_concat_length] at hblocks
      exact .inr ⟨heq, hblocks⟩

/-- Two operations that overlap and share a block, and their commit. -/
theorem operations_commit_whole_two : ∃ s,
    Run (StepOf (OpSys.step mkfsArea)) OpSys.init
      [.beginOp 0, .beginOp 1, .logWrite 0 50, .logWrite 1 51, .endOp 0, .logWrite 1 50, .endOp 1,
        .commit 1, .commit 1, .commit 1, .commit 1, .commit 1, .commit 1, .commit 1, .commit 1,
        .commit 1, .commit 1, .commit 1] s ∧
    s.committing = false ∧ s.written = [[50, 51]] ∧ s.dropped = s.written := by
  obtain ⟨s, hexec, hidle, hwritten⟩ : ∃ s, exec (OpSys.step mkfsArea) OpSys.init
      [.beginOp 0, .beginOp 1, .logWrite 0 50, .logWrite 1 51, .endOp 0, .logWrite 1 50, .endOp 1,
        .commit 1, .commit 1, .commit 1, .commit 1, .commit 1, .commit 1, .commit 1, .commit 1,
        .commit 1, .commit 1, .commit 1] = some s ∧ s.committing = false ∧
      s.written = [[50, 51]] :=
    ⟨_, rfl, rfl, rfl⟩
  have hrun := run_of_exec hexec
  obtain ⟨-, -, -, -, -, -, hbetween⟩ := operations_commit_whole hrun
  exact ⟨s, hrun, hidle, hwritten, (hbetween hidle).2.2.1⟩

end Log
end FastIpc
