import FastIpc.Foundation.Run
import FastIpc.Log.Commit

/-!
# Crash atomicity of the log

Each block write is atomic, durable and ordered.  The machine below commits one
transaction after the other, may crash between any two disk writes of a commit or of
a recovery, and recovers at the next boot.  Ghost fields record the transactions whose
commit returned, the one in flight, and whether its non-empty header has reached the
disk.

Between two writes the disk is always in one of two shapes: clean, with an empty
header and settled home blocks, or armed, with a header and log blocks that together
redo the transaction whatever its home blocks hold.  Recovery turns both into clean.

Main results:

- Theorem `MachineInv.step`: every write, crash, boot and return keeps the shapes.
- Theorem `crash_atomicity`: a transaction is wholly on the disk after a recovery, or not at all.
-/

namespace FastIpc
namespace Log

open Foundation
open Function (update update_of_ne update_self)

/-! ## Transactions -/

/-- A transaction as `log_write` admits it: distinct home blocks outside the log
area, few enough for the header and the log, with their new contents. -/
structure Tx (L : LogArea) where
  writes : List (BlockNo × Block)
  distinct : (writes.map Prod.fst).Nodup
  outside : ∀ b ∈ writes.map Prod.fst, ¬ L.Contains b
  fits : writes.length ≤ min logSize (L.size - 1)

/-- Write a list of blocks over a disk. -/
def overwrite : List (BlockNo × Block) → Disk → Disk
  | [], d => d
  | e :: rest, d => update (overwrite rest d) e.1 e.2

namespace Tx

variable {L : LogArea}

/-- The home blocks of a transaction, in log order. -/
def homes (tx : Tx L) : List BlockNo := tx.writes.map Prod.fst

/-- The effect of a transaction on the home blocks. -/
def apply (tx : Tx L) (d : Disk) : Disk := overwrite tx.writes d

@[simp]
theorem length_homes (tx : Tx L) : tx.homes.length = tx.writes.length := by
  simp [homes]

end Tx

/-- The effect of a sequence of transactions, oldest first. -/
def applyAll {L : LogArea} (txs : List (Tx L)) (d : Disk) : Disk :=
  txs.foldl (fun d tx => tx.apply d) d

variable {L : LogArea}

theorem applyAll_append (txs txs' : List (Tx L)) (d : Disk) :
    applyAll (txs ++ txs') d = applyAll txs' (applyAll txs d) :=
  List.foldl_append

@[simp]
theorem applyAll_singleton (tx : Tx L) (d : Disk) : applyAll [tx] d = tx.apply d := rfl

theorem overwrite_of_not_mem {ws : List (BlockNo × Block)} {d : Disk} {b : BlockNo}
    (hb : b ∉ ws.map Prod.fst) : overwrite ws d b = d b := by
  induction ws with
  | nil => rfl
  | cons e rest ih =>
    simp only [List.map_cons, List.mem_cons, not_or] at hb
    rw [overwrite, update_of_ne hb.1, ih hb.2]

theorem overwrite_getElem {ws : List (BlockNo × Block)} (hnodup : (ws.map Prod.fst).Nodup)
    (d : Disk) {i : Nat} (hi : i < ws.length) : overwrite ws d ws[i].1 = ws[i].2 := by
  induction ws generalizing i with
  | nil => simp at hi
  | cons e rest ih =>
    simp only [List.map_cons, List.nodup_cons] at hnodup
    cases i with
    | zero => simp [overwrite]
    | succ i =>
      have hi' : i < rest.length := by simpa using hi
      have hmem : rest[i].1 ∈ rest.map Prod.fst :=
        List.mem_map.mpr ⟨rest[i], List.getElem_mem hi', rfl⟩
      have hne : rest[i].1 ≠ e.1 := by
        intro heq
        rw [heq] at hmem
        exact hnodup.1 hmem
      simpa [overwrite, update_of_ne hne] using ih hnodup.2 hi'

/-! ## The machine -/

/-- What the machine is doing. -/
inductive Mode (L : LogArea) where
  | idle
  | committing (tx : Tx L) (rest : DiskProg Unit)
  | down
  | recovering (rest : DiskProg Unit)

/-- The disk, the activity on it, and the ghost history. -/
structure Machine (L : LogArea) where
  disk : Disk
  mode : Mode L
  committed : List (Tx L)
  current : Option (Tx L)
  logged : Bool

/-- A machine that has not committed anything yet. -/
def Machine.init (L : LogArea) (d : Disk) : Machine L where
  disk := d
  mode := .idle
  committed := []
  current := none
  logged := false

/-- The events of the machine. -/
inductive LogAct (L : LogArea) where
  | commit (tx : Tx L)
  | write
  | finish
  | crash
  | boot

/-- The interrupted transaction, if its header had reached the disk. -/
def Machine.redone {L : LogArea} (m : Machine L) : List (Tx L) :=
  if m.logged then m.current.toList else []

/-- One event: the start of a commit, one disk write, the return of the running
function, a crash, or a boot.  `logged` is set when a commit's write leaves a
non-empty header on the disk. -/
def Machine.step {L : LogArea} (m : Machine L) : LogAct L → Option (Machine L)
  | .commit tx =>
    match m.mode with
    | .idle => some { m with
        mode := .committing tx (Log.commit L tx.writes)
        current := some tx
        logged := false }
    | _ => none
  | .write =>
    match m.mode with
    | .committing tx p =>
      (p.advance m.disk).map fun r => { m with
        disk := r.1
        mode := .committing tx r.2
        logged := m.logged || decide (decodeHead (r.1 L.head) ≠ []) }
    | .recovering p =>
      (p.advance m.disk).map fun r => { m with disk := r.1, mode := .recovering r.2 }
    | _ => none
  | .finish =>
    match m.mode with
    | .committing tx (.ret _) => some { m with
        mode := .idle
        committed := m.committed ++ [tx]
        current := none
        logged := false }
    | .recovering (.ret _) => some { m with
        mode := .idle
        committed := m.committed ++ m.redone
        current := none
        logged := false }
    | _ => none
  | .crash => some { m with mode := .down }
  | .boot =>
    match m.mode with
    | .down => some { m with mode := .recovering (recoverFromLog L) }
    | _ => none

/-! ## The two shapes of the disk -/

/-- An empty header, and home blocks that equal `S`. -/
structure Clean (L : LogArea) (S d : Disk) : Prop where
  head : decodeHead (d L.head) = []
  home : ∀ b, ¬ L.Contains b → d b = S b

/-- A header and log blocks that redo `tx`; the other home blocks equal `S`. -/
structure Armed {L : LogArea} (S : Disk) (tx : Tx L) (d : Disk) : Prop where
  head : decodeHead (d L.head) = tx.homes
  slots : ∀ i (hi : i < tx.writes.length), d (L.slot i) = tx.writes[i].2
  home : ∀ b, ¬ L.Contains b → b ∉ tx.homes → d b = S b

/-- The first `k` home blocks of `tx` hold their new contents. -/
def Installed {L : LogArea} (tx : Tx L) (k : Nat) (d : Disk) : Prop :=
  ∀ i (hi : i < tx.writes.length), i < k → d tx.writes[i].1 = tx.writes[i].2

/-- What is left of a commit or a recovery while it installs. -/
def installing {L : LogArea} (tx : Tx L) (k : Nat) : DiskProg Unit :=
  installTrans L (tx.homes.drop k) k >>= fun _ => writeHead L []

/-- What is left of a commit while it fills the log. -/
def logging {L : LogArea} (tx : Tx L) (k : Nat) : DiskProg Unit :=
  writeLog L (tx.writes.drop k) k >>= fun _ => do
    writeHead L tx.homes
    installing tx 0

section Shapes

variable {L : LogArea} {S d : Disk} {tx : Tx L}
variable {i : Nat}

theorem Tx.lt_slots (tx : Tx L) (hi : i < tx.writes.length) : i < L.size - 1 := by
  have hfits := tx.fits
  omega

theorem Tx.home_outside (tx : Tx L) (hi : i < tx.writes.length) : ¬ L.Contains tx.writes[i].1 :=
  tx.outside _ (List.mem_map.mpr ⟨_, List.getElem_mem hi, rfl⟩)

theorem Tx.home_ne_head (tx : Tx L) (hi : i < tx.writes.length) : tx.writes[i].1 ≠ L.head := by
  intro heq
  exact tx.home_outside hi (heq ▸ L.contains_head)

theorem Tx.home_ne_slot (tx : Tx L) {j : Nat} (hi : i < tx.writes.length)
    (hj : j < tx.writes.length) : tx.writes[i].1 ≠ L.slot j := by
  intro heq
  exact tx.home_outside hi (heq ▸ L.contains_slot (tx.lt_slots hj))

/-- Writing inside the log area, but not the header, keeps a clean disk clean. -/
theorem Clean.update_slot (h : Clean L S d) (hi : i < L.size - 1) (v : Block) :
    Clean L S (update d (L.slot i) v) where
  head := by
    rw [update_of_ne (L.slot_ne_head hi).symm]
    exact h.head
  home := by
    intro b hb
    rw [update_of_ne]
    · exact h.home b hb
    · rintro rfl
      exact hb (L.contains_slot hi)

/-- Writing the header of a transaction whose log blocks are in place arms the disk. -/
theorem Clean.arm (h : Clean L S d)
    (hslots : ∀ i (hi : i < tx.writes.length), d (L.slot i) = tx.writes[i].2) (hb : Block) :
    Armed S tx (update d L.head (encodeHead tx.homes hb)) where
  head := by
    have hlen : tx.homes.length ≤ logSize := by
      have hfits := tx.fits
      rw [tx.length_homes]
      omega
    rw [update_self, decodeHead_encodeHead hlen]
  slots := by
    intro i hi
    rw [update_of_ne (L.slot_ne_head (tx.lt_slots hi))]
    exact hslots i hi
  home := by
    intro b hout _
    rw [update_of_ne]
    · exact h.home b hout
    · rintro rfl
      exact hout L.contains_head

theorem Armed.install (h : Armed S tx d) {k : Nat} (hk : k < tx.writes.length) :
    Armed S tx (update d tx.writes[k].1 (d (L.slot k))) where
  head := by
    rw [update_of_ne (tx.home_ne_head hk).symm]
    exact h.head
  slots := by
    intro i hi
    rw [update_of_ne (tx.home_ne_slot hk hi).symm]
    exact h.slots i hi
  home := by
    intro b hout hb
    rw [update_of_ne]
    · exact h.home b hout hb
    · rintro rfl
      exact hb (List.mem_map.mpr ⟨_, List.getElem_mem hk, rfl⟩)

/-- Installing one more block extends the installed prefix. -/
theorem Installed.install {k : Nat} (h : Installed tx k d) (harmed : Armed S tx d)
    (hk : k < tx.writes.length) :
    Installed tx (k + 1) (update d tx.writes[k].1 (d (L.slot k))) := by
  intro i hi hik
  by_cases heq : i = k
  · subst heq
    rw [update_self]
    exact harmed.slots i hi
  · have hne : tx.writes[i].1 ≠ tx.writes[k].1 := by
      intro hsame
      have hinj := (List.nodup_iff_injective_get.mp tx.distinct)
      have hi' : i < (tx.writes.map Prod.fst).length := by simpa using hi
      have hk' : k < (tx.writes.map Prod.fst).length := by simpa using hk
      have hget : (tx.writes.map Prod.fst).get ⟨i, hi'⟩ =
          (tx.writes.map Prod.fst).get ⟨k, hk'⟩ := by
        simpa using hsame
      have hfin := hinj hget
      simp only [Fin.mk.injEq] at hfin
      exact heq hfin
    rw [update_of_ne hne]
    exact h i hi (by omega)

/-- Erasing the header once everything is installed gives the transaction's result. -/
theorem Armed.erase (h : Armed S tx d) (hinst : Installed tx tx.writes.length d) (hb : Block) :
    Clean L (tx.apply S) (update d L.head (encodeHead [] hb)) where
  head := by
    rw [update_self]
    exact decodeHead_encodeHead (Nat.zero_le _) hb
  home := by
    intro b hout
    have hne : b ≠ L.head := by
      rintro rfl
      exact hout L.contains_head
    rw [update_of_ne hne]
    by_cases hmem : b ∈ tx.homes
    · obtain ⟨e, he, rfl⟩ := List.mem_map.mp hmem
      obtain ⟨i, hi, rfl⟩ := List.getElem_of_mem he
      rw [Tx.apply, overwrite_getElem tx.distinct S hi]
      exact hinst i hi hi
    · rw [Tx.apply, overwrite_of_not_mem hmem]
      exact h.home b hout hmem

/-- Erasing the header of a clean disk keeps it clean. -/
theorem Clean.erase (h : Clean L S d) (hb : Block) :
    Clean L S (update d L.head (encodeHead [] hb)) where
  head := by
    rw [update_self]
    exact decodeHead_encodeHead (Nat.zero_le _) hb
  home := by
    intro b hout
    rw [update_of_ne]
    · exact h.home b hout
    · rintro rfl
      exact hout L.contains_head

end Shapes

/-! ## The invariant -/

/-- A disk from which recovery reaches the settled state: clean already, or armed for a
transaction whose header had reached the disk. -/
def Recoverable {L : LogArea} (S : Disk) (m : Machine L) : Prop :=
  Clean L (applyAll m.redone S) m.disk ∨
    ∃ tx, m.logged = true ∧ m.current = some tx ∧ Armed S tx m.disk

/-- The armed phase of a commit or a recovery, `k` blocks into the installation. -/
def InstallPhase {L : LogArea} (S : Disk) (m : Machine L) (tx : Tx L) (p : DiskProg Unit) : Prop :=
  m.logged = true ∧ m.current = some tx ∧ Armed S tx m.disk ∧
    ∃ k, k ≤ tx.writes.length ∧ Installed tx k m.disk ∧ p = installing tx k

/-- The invariant of the machine, over the disk `S` that the committed transactions
produce. -/
def ModeOk {L : LogArea} (S : Disk) (m : Machine L) : Mode L → Prop
  | .idle => m.current = none ∧ m.logged = false ∧ Clean L S m.disk
  | .committing tx p =>
    m.current = some tx ∧
    ((m.logged = false ∧ Clean L S m.disk ∧ 0 < tx.writes.length ∧ ∃ k, k ≤ tx.writes.length ∧
        (∀ i (hi : i < tx.writes.length), i < k → m.disk (L.slot i) = tx.writes[i].2) ∧
        p = logging tx k) ∨
      InstallPhase S m tx p ∨
      (p = .ret () ∧ Clean L (tx.apply S) m.disk ∧ Clean L (applyAll m.redone S) m.disk))
  | .down => Recoverable S m
  | .recovering p =>
    (p = recoverFromLog L ∧ Recoverable S m) ∨ (∃ tx, InstallPhase S m tx p) ∨
    (p = .ret () ∧ Clean L (applyAll m.redone S) m.disk)

/-- The invariant, relative to the disk the run started from. -/
def MachineInv {L : LogArea} (d0 : Disk) (m : Machine L) : Prop :=
  ModeOk (applyAll m.committed d0) m m.mode

section Steps

variable {L : LogArea} {S : Disk} {m : Machine L} {tx : Tx L}

theorem redone_of_not_logged (hlog : m.logged = false) : m.redone = [] := by
  simp [Machine.redone, hlog]

/-- A disk in the middle of an installation can be recovered. -/
theorem InstallPhase.recoverable {p : DiskProg Unit} (h : InstallPhase S m tx p) :
    Recoverable S m :=
  .inr ⟨tx, h.1, h.2.1, h.2.2.1⟩

/-- The next write of an installation: one more home block, or the erased header. -/
theorem InstallPhase.advance {p : DiskProg Unit} (h : InstallPhase S m tx p) {d : Disk}
    {q : DiskProg Unit} (hadv : p.advance m.disk = some (d, q)) :
    (Armed S tx d ∧ ∃ k, k ≤ tx.writes.length ∧ Installed tx k d ∧ q = installing tx k) ∨
      (q = .ret () ∧ Clean L (tx.apply S) d) := by
  obtain ⟨-, -, harmed, k, hk, hinst, rfl⟩ := h
  by_cases hlt : k < tx.writes.length
  · have hdrop : tx.homes.drop k = tx.writes[k].1 :: tx.homes.drop (k + 1) := by
      rw [List.drop_eq_getElem_cons (by simpa using hlt)]
      simp [Tx.homes]
    rw [installing, hdrop, installTrans_cons, Option.some.injEq, Prod.mk.injEq] at hadv
    obtain ⟨rfl, rfl⟩ := hadv
    exact .inl ⟨harmed.install hlt, k + 1, hlt, hinst.install harmed hlt, rfl⟩
  · have hend : k = tx.writes.length := by omega
    subst hend
    have hdrop : tx.homes.drop tx.writes.length = [] := by rw [← tx.length_homes, List.drop_length]
    rw [installing, hdrop] at hadv
    simp only [installTrans, Prog.ret_bind, writeHead, Prog.advance_load, Prog.advance_store,
      Option.some.injEq, Prod.mk.injEq] at hadv
    obtain ⟨rfl, rfl⟩ := hadv
    exact .inr ⟨rfl, harmed.erase hinst _⟩

/-- A commit that is still filling the log, or about to write the header, performs that
write next. -/
theorem logging_advance {d : Disk} {q : DiskProg Unit} {k : Nat} (hk : k ≤ tx.writes.length)
    (hclean : Clean L S m.disk)
    (hslots : ∀ i (hi : i < tx.writes.length), i < k → m.disk (L.slot i) = tx.writes[i].2)
    (hadv : (logging tx k).advance m.disk = some (d, q)) :
    (Clean L S d ∧ k < tx.writes.length ∧
      (∀ i (hi : i < tx.writes.length), i < k + 1 → d (L.slot i) = tx.writes[i].2) ∧
      q = logging tx (k + 1)) ∨ (Armed S tx d ∧ q = installing tx 0) := by
  by_cases hlt : k < tx.writes.length
  · left
    rw [logging, List.drop_eq_getElem_cons hlt, writeLog_cons, Option.some.injEq,
      Prod.mk.injEq] at hadv
    obtain ⟨rfl, rfl⟩ := hadv
    refine ⟨hclean.update_slot (tx.lt_slots hlt) _, hlt, ?_, rfl⟩
    intro i hi hik
    by_cases heq : i = k
    · subst heq
      rw [update_self]
    · have hne : L.slot i ≠ L.slot k := by
        intro hsame
        exact heq (L.slot_injective (tx.lt_slots hi) (tx.lt_slots hlt) hsame)
      rw [update_of_ne hne]
      exact hslots i hi (by omega)
  · right
    have hend : k = tx.writes.length := by omega
    subst hend
    rw [logging, List.drop_length] at hadv
    simp only [writeLog, Prog.ret_bind, writeHead_advance, Option.some.injEq, Prod.mk.injEq] at hadv
    obtain ⟨rfl, rfl⟩ := hadv
    exact ⟨hclean.arm (fun i hi => hslots i hi hi) _, rfl⟩

/-- Neither loop has returned before its last header write. -/
theorem logging_ne_ret (tx : Tx L) (k : Nat) (u : Unit) : logging tx k ≠ .ret u := by
  cases hdrop : tx.writes.drop k with
  | nil => simp [logging, hdrop, writeLog, writeHead]
  | cons e rest => simp [logging, hdrop, writeLog]

theorem installing_ne_ret (tx : Tx L) (k : Nat) (u : Unit) : installing tx k ≠ .ret u := by
  cases hdrop : tx.homes.drop k with
  | nil => simp [installing, hdrop, installTrans, writeHead]
  | cons e rest => simp [installing, hdrop, installTrans]

/-- Recovery reads the header and then runs the installation it describes. -/
theorem recoverFromLog_advance (L : LogArea) (d : Disk) :
    (recoverFromLog L).advance d =
      (installTrans L (decodeHead (d L.head)) 0 >>= fun _ => writeHead L []).advance d :=
  rfl

end Steps

namespace MachineInv

variable {L : LogArea} {d0 : Disk} {m m' : Machine L}

theorem init (hempty : decodeHead (d0 L.head) = []) : MachineInv d0 (Machine.init L d0) :=
  ⟨rfl, rfl, ⟨hempty, fun _ _ => rfl⟩⟩

variable (h : MachineInv d0 m)
include h

theorem commit {tx : Tx L} (hm : m.step (.commit tx) = some m') : MachineInv d0 m' := by
  cases hmode : m.mode with
  | idle =>
    simp only [Machine.step, hmode, Option.some.injEq] at hm
    subst hm
    unfold MachineInv at h
    rw [hmode] at h
    obtain ⟨-, -, hclean⟩ := h
    refine ⟨rfl, ?_⟩
    by_cases hlen : 0 < tx.writes.length
    · left
      refine ⟨rfl, hclean, hlen, 0, Nat.zero_le _, fun i _ hi => absurd hi (Nat.not_lt_zero i), ?_⟩
      rw [Log.commit, if_pos hlen]
      rfl
    · right
      right
      have hnil : tx.writes = [] := List.eq_nil_of_length_eq_zero (by omega)
      have happly : tx.apply (applyAll m.committed d0) = applyAll m.committed d0 := by
        rw [Tx.apply, hnil]
        rfl
      refine ⟨?_, ?_, hclean⟩
      · rw [Log.commit, if_neg hlen]
      · rw [happly]
        exact hclean
  | committing tx' p => simp [Machine.step, hmode] at hm
  | down => simp [Machine.step, hmode] at hm
  | recovering p => simp [Machine.step, hmode] at hm

theorem write_commit {tx : Tx L} {p q : DiskProg Unit} {d : Disk}
    (hmode : m.mode = .committing tx p) (hadv : p.advance m.disk = some (d, q)) :
    MachineInv d0 { m with
      disk := d
      mode := .committing tx q
      logged := m.logged || decide (decodeHead (d L.head) ≠ []) } := by
  unfold MachineInv at h
  rw [hmode] at h
  obtain ⟨hcur, ⟨hlog, hclean, hpos, k, hk, hslots, rfl⟩ | hinst | ⟨rfl, -, -⟩⟩ := h
  · refine ⟨hcur, ?_⟩
    rcases logging_advance hk hclean hslots hadv with ⟨hclean', hlt, hslots', rfl⟩ | ⟨harmed, rfl⟩
    · left
      exact ⟨by simp [hlog, hclean'.head], hclean', hpos, k + 1, hlt, hslots', rfl⟩
    · right
      left
      have hne : decodeHead (d L.head) ≠ [] := by
        rw [harmed.head]
        intro hnil
        have hlen := tx.length_homes
        rw [hnil] at hlen
        simp only [List.length_nil] at hlen
        omega
      exact ⟨by simp [hne], hcur, harmed, 0, Nat.zero_le _,
        fun i _ hi => absurd hi (Nat.not_lt_zero i), rfl⟩
  · have hlog := hinst.1
    refine ⟨hcur, .inr ?_⟩
    rcases hinst.advance hadv with ⟨harmed, k, hk, hk', rfl⟩ | ⟨rfl, hclean⟩
    · exact .inl ⟨by simp [hlog], hcur, harmed, k, hk, hk', rfl⟩
    · refine .inr ⟨rfl, hclean, ?_⟩
      simpa [Machine.redone, hlog, hcur] using hclean
  · simp at hadv

theorem write_recovery {p q : DiskProg Unit} {d : Disk} (hmode : m.mode = .recovering p)
    (hadv : p.advance m.disk = some (d, q)) :
    MachineInv d0 { m with disk := d, mode := .recovering q } := by
  unfold MachineInv at h
  rw [hmode] at h
  have hinstall : ∀ {tx : Tx L} {p : DiskProg Unit},
      InstallPhase (applyAll m.committed d0) m tx p → p.advance m.disk = some (d, q) →
      MachineInv d0 { m with disk := d, mode := .recovering q } := by
    intro tx p hinst hadv
    refine .inr ?_
    rcases hinst.advance hadv with ⟨harmed, k, hk, hk', rfl⟩ | ⟨rfl, hclean⟩
    · exact .inl ⟨tx, hinst.1, hinst.2.1, harmed, k, hk, hk', rfl⟩
    · refine .inr ⟨rfl, ?_⟩
      simpa [Machine.redone, hinst.1, hinst.2.1] using hclean
  rcases h with ⟨rfl, hclean | ⟨tx, hlog, hcur, harmed⟩⟩ | ⟨tx, hinst⟩ | ⟨rfl, -⟩
  · -- an empty header: recovery only erases it again
    rw [recoverFromLog_advance, hclean.head] at hadv
    simp only [installTrans, Prog.ret_bind, writeHead, Prog.advance_load, Prog.advance_store,
      Option.some.injEq, Prod.mk.injEq] at hadv
    obtain ⟨rfl, rfl⟩ := hadv
    exact .inr (.inr ⟨rfl, hclean.erase _⟩)
  · rw [recoverFromLog_advance, harmed.head] at hadv
    exact hinstall (p := installing tx 0) ⟨hlog, hcur, harmed, 0, Nat.zero_le _,
      fun i _ hi => absurd hi (Nat.not_lt_zero i), rfl⟩ hadv
  · exact hinstall hinst hadv
  · simp at hadv

theorem recoverable : Recoverable (applyAll m.committed d0) m := by
  unfold MachineInv at h
  cases hmode : m.mode with
  | idle =>
    rw [hmode] at h
    obtain ⟨-, hlog, hclean⟩ := h
    left
    rw [redone_of_not_logged hlog]
    exact hclean
  | committing tx p =>
    rw [hmode] at h
    obtain ⟨-, ⟨hlog, hclean, -⟩ | hinst | ⟨-, -, hclean⟩⟩ := h
    · left
      rw [redone_of_not_logged hlog]
      exact hclean
    · exact hinst.recoverable
    · exact .inl hclean
  | down =>
    rw [hmode] at h
    exact h
  | recovering p =>
    rw [hmode] at h
    rcases h with ⟨-, h⟩ | ⟨tx, hinst⟩ | ⟨-, hclean⟩
    · exact h
    · exact hinst.recoverable
    · exact .inl hclean

/-- The return of a commit or of a recovery settles the history. -/
theorem finish (hm : m.step .finish = some m') : MachineInv d0 m' := by
  unfold MachineInv at h
  simp only [Machine.step] at hm
  split at hm
  next tx u hmode =>
    cases hm
    rw [hmode] at h
    obtain ⟨-, ⟨-, -, -, k, -, -, hp⟩ | ⟨-, -, -, k, -, -, hp⟩ | ⟨-, hclean, -⟩⟩ := h
    · exact absurd hp.symm (logging_ne_ret tx k u)
    · exact absurd hp.symm (installing_ne_ret tx k u)
    · refine ⟨rfl, rfl, ?_⟩
      rw [applyAll_append]
      exact hclean
  next u hmode =>
    cases hm
    rw [hmode] at h
    rcases h with ⟨hp, -⟩ | ⟨tx, -, -, -, k, -, -, hp⟩ | ⟨-, hclean⟩
    · cases hp
    · exact absurd hp.symm (installing_ne_ret tx k u)
    · refine ⟨rfl, rfl, ?_⟩
      rw [applyAll_append]
      exact hclean
  next => cases hm

/-- Every event keeps the invariant. -/
theorem step {a : LogAct L} (hm : m.step a = some m') : MachineInv d0 m' := by
  cases a with
  | commit tx => exact h.commit hm
  | write =>
    simp only [Machine.step] at hm
    split at hm
    next tx p hmode =>
      obtain ⟨⟨d, q⟩, hadv, rfl⟩ := Option.map_eq_some_iff.mp hm
      exact h.write_commit hmode hadv
    next p hmode =>
      obtain ⟨⟨d, q⟩, hadv, rfl⟩ := Option.map_eq_some_iff.mp hm
      exact h.write_recovery hmode hadv
    next => cases hm
  | finish => exact h.finish hm
  | crash =>
    simp only [Machine.step, Option.some.injEq] at hm
    subst hm
    exact h.recoverable
  | boot =>
    have hrec := h.recoverable
    simp only [Machine.step] at hm
    split at hm
    next =>
      cases hm
      exact .inl ⟨rfl, hrec⟩
    next => cases hm

end MachineInv

/-- Crash atomicity of the log: from a disk with an empty log, on every run of commits,
disk writes, crashes between them and recoveries that may crash as well, the disk
outside the log area at the end of a completed recovery is what the committed
transactions produce, followed by the interrupted one exactly if its non-empty header
had reached the disk; and while no commit runs it is what the committed ones produce. -/
theorem crash_atomicity {L : LogArea} {d0 : Disk} (hempty : decodeHead (d0 L.head) = [])
    {l : List (LogAct L)} {m : Machine L}
    (hrun : Run (StepOf Machine.step) (Machine.init L d0) l m) :
    (∀ u, m.mode = .recovering (.ret u) → ∀ b, ¬ L.Contains b → m.disk b =
        applyAll (m.committed ++ if m.logged then m.current.toList else []) d0 b) ∧
    (m.mode = .idle → ∀ b, ¬ L.Contains b → m.disk b = applyAll m.committed d0 b) := by
  have hinv : MachineInv d0 m :=
    hrun.invariant (fun hu hstep => hu.step hstep) (MachineInv.init hempty)
  unfold MachineInv at hinv
  constructor
  · intro u hmode b hb
    rw [hmode] at hinv
    rcases hinv with ⟨hp, -⟩ | ⟨tx, -, -, -, k, -, -, hp⟩ | ⟨-, hclean⟩
    · cases hp
    · exact absurd hp.symm (installing_ne_ret tx k u)
    · rw [applyAll_append]
      exact hclean.home b hb
  · intro hmode b hb
    rw [hmode] at hinv
    exact hinv.2.2.home b hb

/-- The log area of an image made by `mkfs`: 30 blocks from block 2 on. -/
def mkfsArea : LogArea where
  start := 2
  size := 30
  size_pos := by decide
  fits := by decide +kernel

/-- A transaction that rewrites block 100. -/
def oneBlockTx : Tx mkfsArea where
  writes := [(100, fun _ => 7)]
  distinct := by decide
  outside := by
    intro b hb
    simp only [List.map_cons, List.map_nil, List.mem_singleton] at hb
    subst hb
    decide
  fits := by decide

/-- The machine has just completed a recovery. -/
def Mode.recovered {L : LogArea} : Mode L → Bool
  | .recovering (.ret _) => true
  | _ => false

theorem Mode.eq_of_recovered {mode : Mode L} (h : mode.recovered = true) :
    mode = .recovering (.ret ()) := by
  cases mode with
  | recovering p =>
    cases p with
    | ret u => rfl
    | load x k => cases h
    | store x v k => cases h
  | idle => cases h
  | committing tx p => cases h
  | down => cases h

/-- A crash right after the header write, another one inside the recovery, and then a
completed recovery: the transaction is included. -/
theorem crash_atomicity_oneBlockTx :
    ∃ m, Run (StepOf Machine.step) (Machine.init mkfsArea fun _ _ => 0)
        [.commit oneBlockTx, .write, .write, .crash, .boot, .write, .crash, .boot, .write,
          .write] m ∧
      m.logged = true ∧
      m.disk 100 = applyAll (m.committed ++ if m.logged then m.current.toList else [])
        (fun _ _ => 0) 100 := by
  have hexec : (exec Machine.step (Machine.init mkfsArea fun _ _ => 0)
      [.commit oneBlockTx, .write, .write, .crash, .boot, .write, .crash, .boot, .write,
        .write]).map (fun m => (m.mode.recovered, m.logged)) = some (true, true) := by
    decide +kernel
  obtain ⟨m, hm, hobs⟩ := Option.map_eq_some_iff.mp hexec
  simp only [Prod.mk.injEq] at hobs
  have hempty : decodeHead ((fun _ _ => 0 : Disk) mkfsArea.head) = [] := by decide
  exact ⟨m, run_of_exec hm, hobs.2,
    (crash_atomicity hempty (run_of_exec hm)).1 () (Mode.eq_of_recovered hobs.1) 100 (by decide)⟩

end Log
end FastIpc
