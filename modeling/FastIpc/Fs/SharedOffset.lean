import FastIpc.Fs.FileWrite
import FastIpc.Fs.ShortWrite

/-!
# Processes that share a file

Calls of `filewrite` on one `struct file` by any number of processes, interleaved at the
granularity of the inode lock: a step of a process is one turn of its loop, and other processes
work on other inodes in between.  On the side, the chunks are recorded, each with the memory that
`writei` copies it from.  `mymemmove` leaves out the end of a stretch that it copies by words, and
there the file keeps the bytes it had.

Main results:

- Theorem `writeBytes_user`: which bytes of user memory a write stores.
- Theorem `Shared.step`: what a turn of a loop does.
- Theorem `shared_offset`: where the chunks are, and which bytes of them are in the file.
-/

namespace FastIpc
namespace Fs

open Foundation FaultM Kernel
open Function (update update_of_ne update_self)

/-! ## The system -/

/-- A call of `filewrite` under way: the how-manieth of the process it is, the page table of the
process, and the values of `addr`, `n` and `i`. -/
structure Pending where
  call : Nat
  pagetable : Nat
  addr : Nat
  n : Int
  i : Nat

/-- A chunk: the process and its call, the position in the call, the range in the file, and the user
address it comes from, with the page table and the memory at that time. -/
structure Chunk (P : Type) where
  proc : P
  call : Nat
  pos : Nat
  start : Nat
  len : Nat
  pagetable : Nat
  va : Nat
  mem : Memory

/-- The range of a chunk in the file. -/
def Chunk.range {P : Type} (ch : Chunk P) : Nat × Nat := (ch.start, ch.len)

/-- The range of a chunk in its call. -/
def Chunk.part {P : Type} (ch : Chunk P) : Nat × Nat := (ch.pos, ch.len)

/-- A byte of a chunk, as the process has it. -/
def Chunk.byte {P : Type} (ch : Chunk P) (k : Nat) : BitVec 8 :=
  ch.mem (userAddr ch.mem ch.pagetable (ch.va + k))

/-- Of the bytes `lo` to `hi`, moved at once from `src` to `dst`, `mymemmove` leaves out
byte `k`: the end of a range that it copies by words. -/
def LeftOut (dst src lo hi k : Nat) : Prop :=
  8 ≤ hi - lo ∧ (dst + lo) % 8 = 0 ∧ (src + lo) % 8 = 0 ∧ lo + (hi - lo) / 8 * 8 ≤ k

/-- A write of `len` bytes from the user address `va` to the position `start` of a file leaves out
byte `k`.  What is moved at once ends at the blocks of the file and at the pages of the process. -/
def Cut (start va len k : Nat) : Prop :=
  LeftOut start va (k - min k (min ((start + k) % bsize) ((va + k) % pgSize)))
    (min len (k + min (bsize - (start + k) % bsize) (pgSize - (va + k) % pgSize))) k

instance (dst src lo hi k : Nat) : Decidable (LeftOut dst src lo hi k) :=
  inferInstanceAs (Decidable (_ ∧ _))

instance (start va len k : Nat) : Decidable (Cut start va len k) :=
  inferInstanceAs (Decidable (LeftOut ..))

/-- The file system, the offset of the file and the processes; on the side, the lengths of the
calls of each process and the chunks written. -/
structure SharedFile (P : Type) where
  store : Store
  off : BitVec 32
  proc : P → Option Pending
  calls : P → List Int
  chunks : List (Chunk P)

/-- A process calls `filewrite`, takes a turn of its loop while the memory is as given, or the file
system works on another inode. -/
inductive FileEvent (sb : Superblock) (P : Type) where
  | filewrite (p : P) (pagetable addr : Nat) (n : Int)
  | turn (p : P) (mem : Memory)
  | other (call : Call sb)

section System

variable {sb : Superblock} {P : Type} [DecidableEq P]

/-- A turn of the loop of `filewrite`: write a chunk, or leave. -/
def SharedFile.turn (sb : Superblock) (inum : Nat) (s : SharedFile P) (p : P) (mem : Memory)
    (q : Pending) : Option (SharedFile P) :=
  if q.i < q.n then
    let n1 := min (q.n - q.i).toNat chunkMax
    let va := q.addr + q.i
    match withInode sb inum
      (writei sb inum (.user mem q.pagetable va) s.off (BitVec.ofNat 32 n1)) s.store with
    | .error _ => none
    | .ok (r, store) =>
      some { s with
        store := store
        off := if r > 0 then s.off + BitVec.ofInt 32 r else s.off
        proc := update s.proc p
          (if r = n1 then some { q with i := q.i + r.toNat } else none)
        chunks := if r > 0 then
            s.chunks ++ [⟨p, q.call, q.i, s.off.toNat, r.toNat, q.pagetable, va, mem⟩]
          else s.chunks }
  else some { s with proc := update s.proc p none }

/-- One event. -/
def SharedFile.step (sb : Superblock) (inum : Nat) (s : SharedFile P) :
    FileEvent sb P → Option (SharedFile P)
  | .filewrite p pagetable addr n =>
    match s.proc p with
    | none =>
      some { s with
        proc := update s.proc p (some ⟨(s.calls p).length, pagetable, addr, n, 0⟩)
        calls := update s.calls p (s.calls p ++ [n]) }
    | some _ => none
  | .turn p mem =>
    match s.proc p with
    | none => none
    | some q => s.turn sb inum p mem q
  | .other call =>
    if call.inode = some inum then none
    else
      match call.run s.store with
      | .error _ => none
      | .ok (_, store) => some { s with store := store }

/-- The source of a call is accessible in each of its turns. -/
def SharedFile.Reads (s : SharedFile P) : FileEvent sb P → Prop
  | .turn p mem => ∀ q ∈ s.proc p, ∀ k < q.n.toNat, Accessible mem q.pagetable (q.addr + k)
  | _ => True

end System

/-! ## One chunk -/

section Chunks

variable {sb : Superblock} {inum : Nat}

/-- What is left out of a range that starts `n` bytes later. -/
theorem leftOut_add {dst dst' src lo hi k n : Nat} (hmod : dst' % 8 = (dst + n) % 8) :
    LeftOut dst' (src + n) lo hi k ↔ LeftOut dst src (n + lo) (n + hi) (n + k) := by
  unfold LeftOut
  rw [Nat.add_sub_add_left]
  omega

/-- The pieces of a range store nothing before their first offset. -/
theorem storedBytes_of_lt {mem : Memory} {page : Nat → Nat} {a rounds va off len k : Nat}
    (hk : k < off) : storedBytes mem a (pieces page rounds va off len).1 k = none := by
  induction rounds generalizing va off len with
  | zero => rfl
  | succ rounds ih =>
    unfold pieces
    split
    next => rfl
    next =>
      dsimp only
      split
      next => rfl
      next =>
        rw [storedBytes, if_neg (by dsimp only; omega)]
        exact ih (by omega)

/-- What `copyin` stores of a range that is accessible. -/
theorem storedBytes_pieces {mem : Memory} {r a rounds va off len k : Nat} (hrounds : len ≤ rounds)
    (hacc : ∀ i < len, Accessible mem r (va + i)) (hfits : a + off + len ≤ pgSize) (hk : k < len) :
    storedBytes mem a (pieces (userPage mem r) rounds va off len).1 (off + k) =
      if LeftOut (a + off) va (k - min k ((va + k) % pgSize))
        (min len (k + (pgSize - (va + k) % pgSize))) k then none
      else some (mem (userAddr mem r (va + k))) := by
  induction rounds generalizing va off len k with
  | zero => omega
  | succ rounds ih =>
    have hfirst : Accessible mem r (pgRoundDown va) :=
      (accessible_of_page (pgRoundDown_div va)).mpr (hacc 0 (by omega))
    have hpage := userPage_ne_zero_iff.mpr hfirst
    have hround : userPage mem r (pgRoundDown va) % pgSize = 0 := by
      rw [userPage_of_accessible hfirst, pte2pa_eq]
      unfold pgSize
      omega
    rw [pieces, if_neg (by omega)]
    dsimp only
    rw [if_neg hpage, sub_pgRoundDown, storedBytes]
    dsimp only
    generalize hn : min (pgSize - va % pgSize) len = n
    have hnext : pgRoundDown va + (pgSize - va % pgSize) + va % pgSize =
        va + (pgSize - va % pgSize) := by
      unfold pgRoundDown pgSize
      omega
    have hmod := Nat.mod_lt va (show 0 < pgSize by decide)
    have hmoved : movedBytes (a + off) (userPage mem r (pgRoundDown va) + va % pgSize) n =
        if 8 ≤ n ∧ (a + off) % 8 = 0 ∧ va % 8 = 0 then n / 8 * 8 else n := by
      have hiff : CopiesWords (a + off) (userPage mem r (pgRoundDown va) + va % pgSize) n ↔
          8 ≤ n ∧ (a + off) % 8 = 0 ∧ va % 8 = 0 := by
        unfold CopiesWords RunsInto
        unfold pgSize at *
        omega
      unfold movedBytes
      simp only [hiff]
    rw [hmoved]
    by_cases hlt : k < n
    · -- the byte is in the first piece
      have hin : (va + k) % pgSize = va % pgSize + k := by
        unfold pgSize at *
        omega
      have hlo : k - min k (va % pgSize + k) = 0 := by omega
      have hhi : min len (k + (pgSize - (va % pgSize + k))) = n := by omega
      rw [hin, hlo, hhi, userAddr_add (by omega), Nat.add_sub_cancel_left]
      simp only [LeftOut, Nat.sub_zero, Nat.add_zero, Nat.zero_add]
      split_ifs
      all_goals first | rfl | omega | exact storedBytes_of_lt (by omega)
    · -- it is in a later one, and the next page starts behind the first
      have hnlt : n = pgSize - va % pgSize := by omega
      have hstart : pgRoundDown va + pgSize = va + n := by omega
      rw [if_neg (by split_ifs <;> omega), hstart, show off + k = off + n + (k - n) by omega,
        ih (by omega) (fun i hi => by rw [Nat.add_assoc]; exact hacc _ (by omega)) (by omega)
          (by omega), show va + n + (k - n) = va + k by omega]
      have hlo : n + (k - n - min (k - n) ((va + k) % pgSize)) = k - min k ((va + k) % pgSize) := by
        unfold pgSize at *
        omega
      have hhi : n + min (len - n) (k - n + (pgSize - (va + k) % pgSize)) =
          min len (k + (pgSize - (va + k) % pgSize)) := by omega
      simp only [leftOut_add (show (a + (off + n)) % 8 = (a + off + n) % 8 by rw [Nat.add_assoc]),
        hlo, hhi, Nat.add_sub_cancel' (Nat.le_of_not_lt hlt)]

/-- What is left out, for the part of the write that lies in one block of the file. -/
theorem cut_of_block {start va n tot m k : Nat} (hlt : tot < n)
    (hplace : tot = 0 ∨ (start + tot) % bsize = 0 ∨ tot = n)
    (hm : min (n - tot) (bsize - (start + tot) % bsize) = m) (hk : k < m) :
    Cut start va n (tot + k) ↔ LeftOut ((start + tot) % bsize + 0) (va + tot)
      (k - min k ((va + tot + k) % pgSize)) (min m (k + (pgSize - (va + tot + k) % pgSize))) k := by
  have hblock : (start + (tot + k)) % bsize = (start + tot) % bsize + k := by
    simp only [bsize] at *
    omega
  have hmod : ((start + tot) % bsize + 0) % 8 = (start + tot) % 8 := by
    simp only [bsize]
    omega
  rw [leftOut_add hmod, Cut, hblock, ← Nat.add_assoc va]
  generalize (start + tot) % bsize = b at *
  generalize (va + tot + k) % pgSize = c
  have hlo : tot + (k - min k c) = tot + k - min (tot + k) (min (b + k) c) := by omega
  have hhi : tot + min m (k + (pgSize - c)) =
      min n (tot + k + min (bsize - (b + k)) (pgSize - c)) := by
    generalize pgSize - c = d
    rw [← hm, Nat.add_assoc, ← Nat.add_min_add_left k, ← Nat.add_sub_assoc (by omega),
      Nat.add_comm b, Nat.add_sub_add_left, min_assoc, ← Nat.add_min_add_left,
      Nat.add_sub_cancel' hlt.le]
  rw [hlo, hhi]

/-- A write from accessible user memory stores all bytes but those `mymemmove` leaves out. -/
theorem writeBytes_user {mem : Memory} {r va start n : Nat}
    (hacc : ∀ k < n, Accessible mem r (va + k)) (f : Nat → BitVec 8) {fuel tot : Nat}
    (htot : tot ≤ n) (hfuel : n - tot ≤ fuel)
    (hplace : tot = 0 ∨ (start + tot) % bsize = 0 ∨ tot = n) :
    ∃ g, writeBytes (.user mem r va) n fuel tot (start + tot) f = (n, start + n, g) ∧
      ∀ x, g x = if start + tot ≤ x ∧ x < start + n ∧ ¬Cut start va n (x - start) then
        mem (userAddr mem r (va + (x - start))) else f x := by
  induction fuel generalizing tot f with
  | zero =>
    have heq : tot = n := by omega
    subst heq
    exact ⟨f, rfl, fun x => by rw [if_neg (by omega)]⟩
  | succ fuel ih =>
    unfold writeBytes
    by_cases hlt : tot < n
    · rw [if_pos hlt]
      dsimp only
      generalize hm : min (n - tot) (bsize - (start + tot) % bsize) = m
      have hpos : 0 < m := by
        simp only [bsize] at hm
        omega
      rw [if_pos (Source.user_ok.mpr fun k _ hk => hacc k (by omega)), Nat.add_assoc]
      obtain ⟨g, hg, hbytes⟩ := ih (overlay f (start + tot) m
        ((Source.user mem r va).copy tot m ((start + tot) % bsize)).2)
        (show tot + m ≤ n by omega) (by omega) (by simp only [bsize] at *; omega)
      refine ⟨g, hg, fun x => ?_⟩
      rw [hbytes]
      by_cases hin : start + tot ≤ x ∧ x < start + tot + m
      · -- the byte is in this block of the file
        obtain ⟨k, rfl⟩ := Nat.exists_eq_add_of_le hin.1
        have hk : k < m := by omega
        have hcut : Cut start va n (tot + k) ↔ _ := cut_of_block hlt hplace hm hk
        have hcopy : ((Source.user mem r va).copy tot m ((start + tot) % bsize)).2 (0 + k) = _ :=
          storedBytes_pieces le_rfl (fun i hi => by rw [Nat.add_assoc]; exact hacc _ (by omega))
            (by simp only [bsize, pgSize] at *; omega) hk
        rw [if_neg (by omega), overlay, if_pos hin, Nat.add_sub_cancel_left,
          ← Nat.zero_add k, hcopy, Nat.zero_add, show start + tot + k - start = tot + k by omega]
        by_cases hout : Cut start va n (tot + k)
        · rw [if_pos (hcut.mp hout), if_neg (by simp [hout])]
          rfl
        · rw [if_neg (hcut.not.mp hout), if_pos ⟨hin.1, by omega, hout⟩, Nat.add_assoc]
          rfl
      · have hiff : start + (tot + m) ≤ x ↔ start + tot ≤ x := by omega
        rw [overlay, if_neg hin]
        simp only [hiff]
    · rw [if_neg hlt]
      have heq : tot = n := by omega
      subst heq
      exact ⟨f, rfl, fun x => by rw [if_neg (by omega)]⟩

/-- A chunk is written whole, but for what is left out, and the rest of the file stays. -/
theorem writei_chunk {s : Store} {mem : Memory} {root va n1 : Nat} {off : BitVec 32}
    (hsb : sb.Layout) (hi : inum < sb.ninodes) (hcons : Consistent sb s.disk)
    (hacc : ∀ k < n1, Accessible mem root (va + k))
    (hoff : off.toNat ≤ (s.disk.dinode sb inum).size.toNat)
    (hlimit : off.toNat + n1 ≤ maxFile * bsize) :
    wp (withInode sb inum (writei sb inum (.user mem root va) off (BitVec.ofNat 32 n1)))
      (fun r s' => r = n1 ∧ Consistent sb s'.disk ∧ (s'.disk.dinode sb inum).type ≠ 0 ∧
        off.toNat + n1 ≤ (s'.disk.dinode sb inum).size.toNat ∧
        ∀ x < maxFile * bsize, s'.disk.fileByte sb inum x =
          if off.toNat ≤ x ∧ x < off.toNat + n1 ∧ ¬Cut off.toNat va n1 (x - off.toNat) then
            mem (userAddr mem root (va + (x - off.toNat)))
          else s.disk.fileByte sb inum x)
      (fun _ => True) s := by
  have hn1 : (BitVec.ofNat 32 n1).toNat = n1 := by
    rw [BitVec.toNat_ofNat, Nat.mod_eq_of_lt]
    simp only [maxFile, bsize] at hlimit
    omega
  have hwritable : Writable (s.disk.dinode sb inum).size off (BitVec.ofNat 32 n1) := by
    unfold Writable
    rw [hn1]
    simp only [maxFile, bsize] at *
    omega
  refine withInode_spec hi hcons trivial fun ho => ?_
  apply wp_mono (writei_spec hsb ho (.user mem root va) off (BitVec.ofNat 32 n1)) _
    fun _ _ => trivial
  intro r c' hpost
  rw [if_pos hwritable] at hpost
  obtain ⟨tot, fin, f, hbytes, hr, hstored⟩ := hpost
  rw [hn1] at hbytes
  obtain ⟨g, hg, hstore⟩ := writeBytes_user hacc (Ctx.byte ⟨s, s.disk.dinode sb inum⟩)
    (Nat.zero_le n1) (Nat.sub_le n1 0)
    (show 0 = 0 ∨ (off.toNat + 0) % bsize = 0 ∨ 0 = n1 from .inl rfl)
  obtain ⟨rfl, rfl, rfl⟩ := Prod.mk.inj (hg.symm.trans hbytes) |>.imp id Prod.mk.inj
  have hsize := hstored.size
  rw [hstored.dinode]
  refine ⟨hr, hstored.consistent, hstored.toWrote.toOpen.type, by omega, ?_⟩
  intro x hx
  unfold Disk.fileByte
  rw [hstored.dinode]
  show c'.byte x = _
  rw [hstored.toWrote.byte x hx, hstore x]
  rfl

end Chunks

/-! ## Runs -/

section Runs

variable {sb : Superblock} {P : Type}

/-- The length of a call. -/
def FileEvent.len : FileEvent sb P → Nat
  | .filewrite _ _ _ n => n.toNat
  | _ => 0

/-- The sum of the lengths of all calls. -/
def totalLen (l : List (FileEvent sb P)) : Nat := (l.map FileEvent.len).sum

/-- What a process has left to write. -/
def remaining : Option Pending → Nat
  | none => 0
  | some q => (q.n - q.i).toNat

namespace SharedFile

/-- How much of a call of a process is written. -/
def done (s : SharedFile P) (p : P) (k : Nat) : Nat :=
  match s.proc p with
  | none => ((s.calls p).getD k 0).toNat
  | some q => if q.call = k then q.i else ((s.calls p).getD k 0).toNat

variable [DecidableEq P]

/-- The chunks of a process. -/
def chunksBy (s : SharedFile P) (p : P) : List (Chunk P) := s.chunks.filter fun ch => ch.proc = p

/-- The chunks of a call of a process. -/
def chunksOf (s : SharedFile P) (p : P) (k : Nat) : List (Chunk P) :=
  (s.chunksBy p).filter fun ch => ch.call = k

end SharedFile

variable [DecidableEq P] [Fintype P] {inum off0 : Nat} {old : Nat → BitVec 8}
  {l : List (FileEvent sb P)} {s s' : SharedFile P}

/-- What holds after the events `l`, which started with the offset `off0` and the bytes `old`. -/
structure Shared (sb : Superblock) (inum off0 : Nat) (old : Nat → BitVec 8)
    (l : List (FileEvent sb P)) (s : SharedFile P) : Prop where
  consistent : Consistent sb s.store.disk
  type : (s.store.disk.dinode sb inum).type ≠ 0
  off_le : s.off.toNat ≤ (s.store.disk.dinode sb inum).size.toNat
  tiles : Tiles off0 (s.chunks.map Chunk.range) s.off.toNat
  bytes : ∀ ch ∈ s.chunks, ∀ k < ch.len, s.store.disk.fileByte sb inum (ch.start + k) =
    if Cut ch.start ch.va ch.len k then old (ch.start + k) else ch.byte k
  rest : ∀ x < maxFile * bsize, x < off0 ∨ s.off.toNat ≤ x → s.store.disk.fileByte sb inum x = old x
  pending : ∀ p q, s.proc p = some q → q.i ≤ q.n.toNat ∧
    q.call + 1 = (s.calls p).length ∧ (s.calls p).getD q.call 0 = q.n
  parts : ∀ p k, Tiles 0 ((s.chunksOf p k).map Chunk.part) (s.done p k)
  ordered : ∀ p, (s.chunksBy p).Pairwise fun ch ch' => ch.call ≤ ch'.call
  bounded : ∀ ch ∈ s.chunks, ch.call < (s.calls ch.proc).length
  total : s.off.toNat + ∑ p, remaining (s.proc p) = off0 + totalLen l

theorem sum_remaining_update (proc : P → Option Pending) (p : P) (v : Option Pending) :
    ∑ x, remaining (update proc p v x) + remaining (proc p) =
      ∑ x, remaining (proc x) + remaining v := by
  rw [← Finset.add_sum_erase _ _ (Finset.mem_univ p),
    ← Finset.add_sum_erase _ (fun x => remaining (proc x)) (Finset.mem_univ p), update_self]
  have hrest : ∑ x ∈ Finset.univ.erase p, remaining (update proc p v x) =
      ∑ x ∈ Finset.univ.erase p, remaining (proc x) := by
    apply Finset.sum_congr rfl
    intro x hx
    rw [update_of_ne (Finset.ne_of_mem_erase hx)]
  rw [hrest]
  omega

omit [DecidableEq P] [Fintype P] in
theorem totalLen_append (l : List (FileEvent sb P)) (e : FileEvent sb P) :
    totalLen (l ++ [e]) = totalLen l + e.len := by
  simp [totalLen]

namespace Shared

/-- A process makes a call. -/
theorem filewrite (h : Shared sb inum off0 old l s) {p : P} {r addr : Nat} {n : Int}
    (hproc : s.proc p = none) : Shared sb inum off0 old (l ++ [.filewrite p r addr n]) { s with
      proc := update s.proc p (some ⟨(s.calls p).length, r, addr, n, 0⟩)
      calls := update s.calls p (s.calls p ++ [n]) } where
  __ := h
  pending p' q hq := by
    by_cases hp : p' = p
    · subst hp
      simp only [update_self, Option.some.injEq] at hq
      subst hq
      simp
    · simp only [update_of_ne hp] at hq ⊢
      exact h.pending p' q hq
  parts p' k := by
    have hold := h.parts p' k
    by_cases hp : p' = p
    · subst hp
      simp only [SharedFile.done, hproc] at hold
      simp only [SharedFile.done, update_self]
      by_cases hk : (s.calls p').length = k
      · -- the new call has no chunk yet
        rw [if_pos hk]
        rw [List.getD_eq_default _ _ (by omega)] at hold
        exact hold
      · rw [if_neg hk]
        by_cases hlt : k < (s.calls p').length
        · rw [List.getD_append _ _ _ _ hlt]
          exact hold
        · rw [List.getD_eq_default _ _ (by simp; omega)]
          rw [List.getD_eq_default _ _ (by omega)] at hold
          exact hold
    · simp only [SharedFile.done, update_of_ne hp]
      exact hold
  bounded ch hch := by
    have hold := h.bounded ch hch
    by_cases hp : ch.proc = p
    · rw [hp] at hold
      simp only [hp, update_self, List.length_append]
      omega
    · simp only [update_of_ne hp]
      exact hold
  total := by
    have hsum := sum_remaining_update s.proc p (some ⟨(s.calls p).length, r, addr, n, 0⟩)
    have htotal := h.total
    rw [totalLen_append]
    simp only [hproc, remaining, FileEvent.len] at *
    simp only [Nat.cast_zero, Int.sub_zero] at hsum
    omega

/-- A call returns. -/
theorem leave (h : Shared sb inum off0 old l s) {p : P} {mem : Memory} {q : Pending}
    (hproc : s.proc p = some q) (hdone : ¬(q.i : Int) < q.n) :
    Shared sb inum off0 old (l ++ [.turn p mem]) { s with proc := update s.proc p none } where
  __ := h
  pending p' q' hq' := by
    by_cases hp : p' = p
    · simp [hp] at hq'
    · simp only [update_of_ne hp] at hq'
      exact h.pending p' q' hq'
  parts p' k := by
    have hold := h.parts p' k
    obtain ⟨hle, -, hcall⟩ := h.pending p q hproc
    by_cases hp : p' = p
    · subst hp
      simp only [SharedFile.done, hproc] at hold
      simp only [SharedFile.done, update_self]
      by_cases hk : q.call = k
      · rw [if_pos hk] at hold
        rw [← hk, hcall, show q.n.toNat = q.i by omega, hk]
        exact hold
      · rw [if_neg hk] at hold
        exact hold
    · simp only [SharedFile.done, update_of_ne hp]
      exact hold
  total := by
    have hsum := sum_remaining_update s.proc p none
    have htotal := h.total
    rw [totalLen_append]
    simp only [hproc, remaining, FileEvent.len] at *
    omega

/-- A chunk is written at the offset, which moves on behind it. -/
theorem chunk (hsb : sb.Layout) (hi : inum < sb.ninodes) (h : Shared sb inum off0 old l s) {p : P}
    {mem : Memory} {q : Pending} (hproc : s.proc p = some q) (hmore : (q.i : Int) < q.n)
    (hreads : ∀ k < q.n.toNat, Accessible mem q.pagetable (q.addr + k))
    (hlimit : off0 + totalLen l ≤ maxFile * bsize) (hstep : s.turn sb inum p mem q = some s') :
    Shared sb inum off0 old (l ++ [.turn p mem]) s' := by
  obtain ⟨hle, hlength, hcall⟩ := h.pending p q hproc
  unfold SharedFile.turn at hstep
  rw [if_pos hmore] at hstep
  dsimp only at hstep
  generalize hn1 : min (q.n - q.i).toNat chunkMax = n1 at hstep
  have hpos : 0 < n1 := by
    have : chunkMax = 3072 := rfl
    omega
  have hleft : remaining (s.proc p) = (q.n - q.i).toNat := by
    rw [hproc]
    rfl
  have hsum := sum_remaining_update s.proc p (some { q with i := q.i + n1 })
  have htotal := h.total
  have hnew : remaining (some { q with i := q.i + n1 }) = (q.n - q.i).toNat - n1 := by
    simp only [remaining]
    omega
  have hroom : s.off.toNat + n1 ≤ maxFile * bsize := by omega
  split at hstep
  next => cases hstep
  next r store hrun =>
    obtain ⟨hr, hcons, htype, hsize, hbytes⟩ := wp_of_ok (writei_chunk hsb hi h.consistent
      (fun k hk => by rw [Nat.add_assoc]; exact hreads _ (by omega)) h.off_le hroom) hrun
    subst hr
    have hoff : (s.off + BitVec.ofInt 32 (n1 : Int)).toNat = s.off.toNat + n1 := by
      rw [BitVec.ofInt_natCast, BitVec.toNat_add, BitVec.toNat_ofNat]
      simp only [maxFile, bsize] at hroom
      omega
    rw [if_pos (by omega), if_pos rfl, if_pos (by omega), Int.toNat_natCast] at hstep
    cases hstep
    constructor
    · exact hcons
    · exact htype
    · show (s.off + BitVec.ofInt 32 (n1 : Int)).toNat ≤ _
      rw [hoff]
      exact hsize
    · show Tiles off0 _ (s.off + BitVec.ofInt 32 (n1 : Int)).toNat
      rw [hoff, List.map_append]
      exact h.tiles.snoc n1
    · intro ch hch k hk
      rcases List.mem_append.mp hch with hch | hch
      · -- an earlier chunk lies before the offset
        have hbounds := h.tiles.bounds (List.mem_map_of_mem hch)
        simp only [Chunk.range] at hbounds
        rw [hbytes _ (by omega), if_neg (by omega)]
        exact h.bytes ch hch k hk
      · rw [List.mem_singleton] at hch
        subst hch
        dsimp only at hk ⊢
        rw [hbytes _ (by omega), Nat.add_sub_cancel_left, h.rest _ (by omega) (by omega)]
        by_cases hcut : Cut s.off.toNat (q.addr + q.i) n1 k
        · rw [if_pos hcut, if_neg (by simp [hcut])]
        · rw [if_neg hcut, if_pos ⟨by omega, by omega, hcut⟩]
          rfl
    · intro x hx hout
      have hfirst := h.tiles.eq_add_sum
      dsimp only at hout
      rw [hbytes x hx, if_neg (by omega)]
      exact h.rest x hx (by omega)
    · intro p' q' hq'
      by_cases hp : p' = p
      · subst hp
        simp only [update_self, Option.some.injEq] at hq'
        subst hq'
        exact ⟨by dsimp only; omega, hlength, hcall⟩
      · simp only [update_of_ne hp] at hq'
        exact h.pending p' q' hq'
    · intro p' k
      have hold := h.parts p' k
      by_cases hp : p' = p
      · subst hp
        simp only [SharedFile.done, hproc] at hold
        simp only [SharedFile.done, SharedFile.chunksOf, SharedFile.chunksBy, update_self,
          List.filter_append, List.map_append] at hold ⊢
        by_cases hk : q.call = k
        · rw [if_pos hk] at hold
          rw [if_pos hk]
          simpa [hk, Chunk.part] using hold.snoc n1
        · rw [if_neg hk] at hold
          rw [if_neg hk]
          simpa [hk] using hold
      · simp only [SharedFile.done, SharedFile.chunksOf, SharedFile.chunksBy,
          update_of_ne hp, List.filter_append, List.map_append] at hold ⊢
        simpa [Ne.symm hp] using hold
    · intro p'
      have hold := h.ordered p'
      simp only [SharedFile.chunksBy, List.filter_append] at hold ⊢
      by_cases hp : p = p'
      · subst hp
        rw [List.pairwise_append]
        refine ⟨hold, by simp, ?_⟩
        intro a ha b hb
        obtain ⟨ha, hap⟩ := List.mem_filter.mp ha
        have hbound := h.bounded a ha
        simp only [decide_eq_true_eq] at hap
        simp only [decide_true, List.filter_cons_of_pos, List.filter_nil, List.mem_singleton] at hb
        rw [hap] at hbound
        rw [hb]
        dsimp only
        omega
      · simpa [hp] using hold
    · intro ch hch
      rcases List.mem_append.mp hch with hch | hch
      · exact h.bounded ch hch
      · rw [List.mem_singleton] at hch
        rw [hch]
        dsimp only
        omega
    · show (s.off + BitVec.ofInt 32 (n1 : Int)).toNat + _ = _
      rw [hoff, totalLen_append]
      simp only [FileEvent.len]
      omega

theorem other (hsb : sb.Layout) (h : Shared sb inum off0 old l s) {call : Call sb} {store : Store}
    (hne : call.inode ≠ some inum) (hrun : call.run s.store = .ok ((), store)) :
    Shared sb inum off0 old (l ++ [.other call]) { s with store := store } := by
  obtain ⟨hcons, hsame⟩ := wp_of_ok (Call.run_spec hsb h.consistent call) hrun
  obtain ⟨hdinode, hbytes⟩ := hsame inum h.type hne
  constructor
  · exact hcons
  · rw [hdinode]
    exact h.type
  · rw [hdinode]
    exact h.off_le
  · exact h.tiles
  · intro ch hch k hk
    rw [hbytes]
    exact h.bytes ch hch k hk
  · intro x hx hout
    rw [hbytes]
    exact h.rest x hx hout
  · exact h.pending
  · exact h.parts
  · exact h.ordered
  · exact h.bounded
  · rw [totalLen_append]
    exact h.total

/-- What an event does. -/
theorem step (hsb : sb.Layout) (hi : inum < sb.ninodes) (h : Shared sb inum off0 old l s)
    {e : FileEvent sb P} (he : s.Reads e) (hlimit : off0 + totalLen l ≤ maxFile * bsize)
    (hstep : s.step sb inum e = some s') : Shared sb inum off0 old (l ++ [e]) s' := by
  cases e with
  | filewrite p r addr n =>
    simp only [SharedFile.step] at hstep
    split at hstep
    next hproc =>
      cases hstep
      exact h.filewrite hproc
    next => cases hstep
  | turn p mem =>
    simp only [SharedFile.step] at hstep
    split at hstep
    next => cases hstep
    next q hproc =>
      by_cases hmore : (q.i : Int) < q.n
      · exact h.chunk hsb hi hproc hmore (he q hproc) hlimit hstep
      · unfold SharedFile.turn at hstep
        rw [if_neg hmore] at hstep
        cases hstep
        exact h.leave hproc hmore
  | other call =>
    simp only [SharedFile.step] at hstep
    split at hstep
    next => cases hstep
    next hne =>
      split at hstep
      next => cases hstep
      next u store hrun =>
        cases hstep
        exact h.other hsb hne hrun

/-- What a run does. -/
theorem run {s0 : SharedFile P} (hsb : sb.Layout) (hi : inum < sb.ninodes)
    (h : Shared sb inum off0 old [] s0)
    (hrun : Run (Guarded SharedFile.Reads (StepOf (SharedFile.step sb inum))) s0 l s)
    (hlimit : off0 + totalLen l ≤ maxFile * bsize) : Shared sb inum off0 old l s := by
  induction hrun with
  | nil => exact h
  | snoc _ hlast ih =>
    rw [totalLen_append] at hlimit
    exact (ih (by omega)).step hsb hi hlast.1 (by omega) hlast.2

end Shared

/-- A shared file that nobody writes to yet, with its offset inside the file. -/
structure SharedFile.Fresh (sb : Superblock) (inum : Nat) (s : SharedFile P) : Prop where
  lt : inum < sb.ninodes
  consistent : Consistent sb s.store.disk
  type : (s.store.disk.dinode sb inum).type ≠ 0
  off_le : s.off.toNat ≤ (s.store.disk.dinode sb inum).size.toNat
  proc : ∀ p, s.proc p = none
  calls : ∀ p, s.calls p = []
  chunks : s.chunks = []

theorem SharedFile.Fresh.shared (h : s.Fresh sb inum) :
    Shared sb inum s.off.toNat (s.store.disk.fileByte sb inum) [] s where
  __ := h
  tiles := by
    rw [h.chunks]
    rfl
  bytes := by simp [h.chunks]
  rest _ _ _ := rfl
  pending p q hq := by simp [h.proc] at hq
  parts p k := by
    simp only [SharedFile.chunksOf, SharedFile.chunksBy, SharedFile.done, h.chunks, h.proc, h.calls]
    rfl
  ordered p := by simp [SharedFile.chunksBy, h.chunks]
  bounded := by simp [h.chunks]
  total := by simp [h.proc, remaining, totalLen]

/-- In every interleaving of calls whose sources are accessible, as long as the limit of a file is
not reached: the chunks follow each other from the first offset to the offset of the file, so they
are disjoint.  Each byte of a chunk is in the file at the end, except those that `mymemmove` leaves
out, where the file has the byte it had at the start; outside of the chunks it is unchanged.  The
chunks of a process are in the order of its calls, those of a call follow each other from its start
on, and cover it once the process has returned.  When all have returned, the offset has moved by the
sum of the lengths. -/
theorem shared_offset {s0 : SharedFile P} (hsb : sb.Layout) (hfresh : s0.Fresh sb inum)
    (hrun : Run (Guarded SharedFile.Reads (StepOf (SharedFile.step sb inum))) s0 l s)
    (hlimit : s0.off.toNat + totalLen l ≤ maxFile * bsize) :
    Tiles s0.off.toNat (s.chunks.map Chunk.range) s.off.toNat ∧
      s.off.toNat ≤ (s.store.disk.dinode sb inum).size.toNat ∧
      (s.chunks.Pairwise fun ch ch' => ch.start + ch.len ≤ ch'.start) ∧
      (∀ ch ∈ s.chunks, ∀ k < ch.len, s.store.disk.fileByte sb inum (ch.start + k) =
        if Cut ch.start ch.va ch.len k then s0.store.disk.fileByte sb inum (ch.start + k)
        else ch.byte k) ∧
      (∀ x < maxFile * bsize, x < s0.off.toNat ∨ s.off.toNat ≤ x →
        s.store.disk.fileByte sb inum x = s0.store.disk.fileByte sb inum x) ∧
      (∀ p, (s.chunksBy p).Pairwise fun ch ch' => ch.call ≤ ch'.call) ∧
      (∀ p k, Tiles 0 ((s.chunksOf p k).map Chunk.part) (s.done p k)) ∧ (∀ p, s.proc p = none → ∀ k,
        Tiles 0 ((s.chunksOf p k).map Chunk.part) ((s.calls p).getD k 0).toNat) ∧
      ((∀ p, s.proc p = none) → s.off.toNat = s0.off.toNat + totalLen l) := by
  have h := Shared.run hsb hfresh.lt hfresh.shared hrun hlimit
  refine ⟨h.tiles, h.off_le, ?_, h.bytes, h.rest, h.ordered, h.parts, ?_, ?_⟩
  · exact List.pairwise_map.mp h.tiles.pairwise
  · intro p hp k
    have hparts := h.parts p k
    simp only [SharedFile.done, hp] at hparts
    exact hparts
  · intro hidle
    have htotal := h.total
    simpa [hidle, remaining] using htotal

end Runs

/-- Two processes share an empty file on the tiny disk. -/
def tinyShared : SharedFile (Fin 2) where
  store := ⟨tinyDisk.putDinode tinySuper 1 { Dinode.zero with type := 2 }, []⟩
  off := 0
  proc _ := none
  calls _ := []
  chunks := []

theorem tinyShared_fresh : tinyShared.Fresh tinySuper 1 := by
  have hsaved : Saved tinySuper 1 tinyCtx ⟨tinyShared.store, tinyCtx.ip⟩ :=
    Saved.of_putDinode tinySuper_layout (by decide) tinyCtx_represents.toOpen.sound rfl rfl
  have hdinode : tinyShared.store.disk.dinode tinySuper 1 = tinyCtx.ip :=
    (congrFun hsaved.dinode 1).trans (Ctx.view_self ..)
  refine ⟨by decide, hsaved.consistent, ?_, Nat.zero_le _, fun _ => rfl, fun _ => rfl, rfl⟩
  rw [hdinode]
  decide

/-- The process with one page, with the numbers from one to ten at its start. -/
def tenBytes : Memory := (onePage (dataPage 0x5000)).blit 0x5000 [1, 2, 3, 4, 5, 6, 7, 8, 9, 10]

instance (s : SharedFile (Fin 2)) (e : FileEvent tinySuper (Fin 2)) : Decidable (s.Reads e) :=
  match e with
  | .turn p _ => Option.decidableForallMem (s.proc p)
  | .filewrite .. => .isTrue trivial
  | .other _ => .isTrue trivial

/-- Eight and seven bytes, the second call overtaking the first. -/
def tinyEvents : List (FileEvent tinySuper (Fin 2)) :=
  let first : Fin 2 := ⟨0, Nat.zero_lt_two⟩
  let second : Fin 2 := ⟨1, Nat.one_lt_two⟩
  [.filewrite first 0x1000 0 8, .filewrite second 0x1000 1 7, .turn second tenBytes,
    .turn first tenBytes, .turn second tenBytes, .turn first tenBytes]

theorem shared_offset_tiny : ∃ s,
    Run (Guarded SharedFile.Reads (StepOf (SharedFile.step tinySuper 1))) tinyShared tinyEvents s ∧
      s.off.toNat = 15 ∧ s.chunks.length = 2 ∧ ∀ ch ∈ s.chunks, ∀ k < ch.len,
        s.store.disk.fileByte tinySuper 1 (ch.start + k) = ch.byte k := by
  have hexec : (exec (guardStep SharedFile.Reads (SharedFile.step tinySuper 1)) tinyShared
      tinyEvents).any (fun s => decide (s.off = 15 ∧ s.chunks.length = 2 ∧
        ∀ ch ∈ s.chunks, ∀ k < ch.len, ¬Cut ch.start ch.va ch.len k)) = true := by
    decide +kernel
  obtain ⟨s, hs, hres⟩ := (Option.any_eq_true _ _).mp hexec
  obtain ⟨hoff, hlen, hcut⟩ := of_decide_eq_true hres
  have hrun := run_guarded_of_exec hs
  obtain ⟨-, -, -, hbytes, -⟩ := shared_offset tinySuper_layout tinyShared_fresh hrun (by decide)
  refine ⟨s, hrun, by rw [hoff]; rfl, hlen, fun ch hch k hk => ?_⟩
  rw [hbytes ch hch k hk, if_neg (hcut ch hch k hk)]

/-- Of ten bytes from a word boundary on, `filewrite` counts all and stores eight. -/
theorem shared_offset_cut : ∃ s,
    Run (Guarded SharedFile.Reads (StepOf (SharedFile.step tinySuper 1))) tinyShared
      [.filewrite 0 0x1000 0 10, .turn 0 tenBytes, .turn 0 tenBytes] s ∧
      s.off.toNat = 10 ∧ ∃ ch ∈ s.chunks, ch.len = 10 ∧ ch.byte 8 = 9 ∧
        s.store.disk.fileByte tinySuper 1 (ch.start + 8) = 0 := by
  have hexec : (exec (guardStep SharedFile.Reads (SharedFile.step tinySuper 1)) tinyShared
      [.filewrite 0 0x1000 0 10, .turn 0 tenBytes, .turn 0 tenBytes]).any (fun s =>
        decide (s.off.toNat = 10 ∧ ∃ ch ∈ s.chunks, ch.len = 10 ∧ ch.byte 8 = 9 ∧
          s.store.disk.fileByte tinySuper 1 (ch.start + 8) = 0)) = true := by
    decide +kernel
  obtain ⟨s, hs, hres⟩ := (Option.any_eq_true _ _).mp hexec
  exact ⟨s, run_guarded_of_exec hs, of_decide_eq_true hres⟩

end Fs
end FastIpc
