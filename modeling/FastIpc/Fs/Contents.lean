import FastIpc.Fs.Ownership

/-!
# Files as arrays of bytes

A file is a size and its bytes.  On an inode without holes `readi` and `writei` with
kernel buffers do what reading and writing an array of bytes does, as long as there are free blocks
for what is written.

Main results:

- Theorem `FileCall.run_refines`: one call.
- Theorem `files_are_byte_arrays`: every sequence of calls.
-/

namespace FastIpc
namespace Fs

open Foundation FaultM

variable {sb : Superblock} {i : Nat} {c : Ctx}

/-! ## The array -/

/-- A file: its size and its bytes. -/
structure ByteFile where
  size : Nat
  byte : Nat → BitVec 8

namespace ByteFile

/-- Replace a range of bytes; the file grows if the range ends beyond it. -/
def write (f : ByteFile) (bytes : Nat → BitVec 8) (off n : Nat) : ByteFile :=
  ⟨max f.size (off + n), fun x => if off ≤ x ∧ x < off + n then bytes (x - off) else f.byte x⟩

/-- The bytes of a range, as far as the file goes. -/
def read (f : ByteFile) (off n : Nat) : List (BitVec 8) :=
  (List.range (min n (f.size - off))).map fun k => f.byte (off + k)

end ByteFile

/-! ## The calls -/

/-- Reads and writes with kernel buffers. -/
inductive FileCall where
  | write (bytes : Nat → BitVec 8) (off n : BitVec 32)
  | read (off n : BitVec 32)

namespace FileCall

/-- The call on an inode: the value returned and the bytes read. -/
def run (sb : Superblock) (i : Nat) : FileCall → InodeM (Int × List (BitVec 8))
  | .write bytes off n => do
    let r ← writei sb i (.kernel bytes) off n
    return (r, [])
  | .read off n => readi sb n.toNat off n

/-- Does the call pass the checks on its range? -/
def Accepted (f : ByteFile) : FileCall → Prop
  | .write _ off n =>
    off.toNat ≤ f.size ∧ off.toNat + n.toNat < 2 ^ 32 ∧ off.toNat + n.toNat ≤ maxFile * bsize
  | .read off n => off.toNat ≤ f.size ∧ off.toNat + n.toNat < 2 ^ 32

instance (f : ByteFile) (call : FileCall) : Decidable (call.Accepted f) :=
  match call with
  | .write .. => inferInstanceAs (Decidable (_ ∧ _))
  | .read .. => inferInstanceAs (Decidable (_ ∧ _))

/-- What the call returns on an array of bytes. -/
def result (f : ByteFile) (call : FileCall) : Int × List (BitVec 8) :=
  match call with
  | .write _ _ n => if call.Accepted f then (n.toNat, []) else (-1, [])
  | .read off n =>
    if call.Accepted f then
      ((min n.toNat (f.size - off.toNat) : Nat), f.read off.toNat n.toNat)
    else (0, [])

/-- The array of bytes after the call. -/
def after (f : ByteFile) (call : FileCall) : ByteFile :=
  match call with
  | .write bytes off n => if call.Accepted f then f.write bytes off.toNat n.toNat else f
  | .read .. => f

/-- There are free blocks for a write that is accepted. -/
def HasRoom (sb : Superblock) (c : Ctx) : FileCall → Prop
  | .write _ off n => Writable c.ip.size off n → Enough sb c (span off.toNat n.toNat)
  | .read .. => True

end FileCall

/-! ## One call -/

/-- The inode at work has no hole, and its size and bytes are those of the array. -/
structure Represents (sb : Superblock) (i : Nat) (c : Ctx) (f : ByteFile) : Prop where
  toOpen : Open sb i c
  covers : Covers c.ip c.store.disk c.ip.size.toNat
  size : c.ip.size.toNat = f.size
  byte : ∀ x < f.size, c.byte x = f.byte x

theorem Source.kernel_copy (bytes : Nat → BitVec 8) (tot m a : Nat) :
    (Source.kernel bytes).copy tot m a = (true, fun k => some (bytes (tot + k))) :=
  rfl

/-- The abstract loop with a kernel buffer copies everything. -/
theorem writeBytes_kernel (bytes f : Nat → BitVec 8) {n fuel tot off : Nat} (htot : tot ≤ n)
    (hfuel : n - tot ≤ fuel) :
    writeBytes (.kernel bytes) n fuel tot off f = (n, off + (n - tot), fun x =>
      if off ≤ x ∧ x < off + (n - tot) then bytes (tot + (x - off)) else f x) := by
  induction fuel generalizing tot off f with
  | zero =>
    have heq : tot = n := by omega
    subst heq
    simp [writeBytes, show ∀ x, ¬(off ≤ x ∧ x < off) by omega]
  | succ fuel ih =>
    unfold writeBytes
    by_cases hlt : tot < n
    · rw [if_pos hlt]
      dsimp only
      generalize hm : min (n - tot) (bsize - off % bsize) = m
      have hpos : 0 < m := by
        simp only [bsize] at hm
        omega
      rw [Source.kernel_copy, if_pos rfl, ih _ (by omega) (by omega)]
      have hend : off + m + (n - (tot + m)) = off + (n - tot) := by omega
      rw [hend]
      refine congrArg (fun g => (n, off + (n - tot), g)) ?_
      funext x
      unfold overlay
      -- before the chunk, inside it, after it
      by_cases hlo : x < off
      · rw [if_neg (by omega), if_neg (by omega), if_neg (by omega)]
      · by_cases hmid : x < off + m
        · rw [if_neg (by omega), if_pos (by omega), if_pos (by omega)]
          rfl
        · by_cases hhi : x < off + (n - tot)
          · rw [if_pos (by omega), if_pos (by omega)]
            congr 1
            omega
          · rw [if_neg (by omega), if_neg (by omega), if_neg (by omega)]
    · rw [if_neg hlt]
      have heq : tot = n := by omega
      subst heq
      simp [show ∀ x, ¬(off ≤ x ∧ x < off) by omega]

theorem readi_clipped {off n : BitVec 32} (h : Covers c.ip c.store.disk c.ip.size.toNat)
    (hoff : off.toNat ≤ c.ip.size.toNat) (hwrap : off.toNat + n.toNat < 2 ^ 32) :
    readi sb n.toNat off n c = .ok (((min n.toNat (c.ip.size.toNat - off.toNat) : Nat),
        fileBytes c.ip c.store.disk off.toNat (min n.toNat (c.ip.size.toNat - off.toNat))), c) := by
  have hadd : (off + n).toNat = off.toNat + n.toNat := by
    rw [BitVec.toNat_add, Nat.mod_eq_of_lt hwrap]
  have hguard : ¬(off > c.ip.size ∨ off + n < off) := by
    rw [gt_iff_lt, BitVec.lt_def, BitVec.lt_def, hadd]
    omega
  have hclip : (if off + n > c.ip.size then c.ip.size - off else n).toNat =
      min n.toNat (c.ip.size.toNat - off.toNat) := by
    split
    next hgt =>
      rw [gt_iff_lt, BitVec.lt_def, hadd] at hgt
      rw [BitVec.toNat_sub_of_le (by rw [BitVec.le_def]; exact hoff)]
      omega
    next hle =>
      rw [gt_iff_lt, BitVec.lt_def, hadd] at hle
      omega
  unfold readi
  rw [bind_of_ok (get_apply c), if_neg hguard]
  show readLoop sb n.toNat (if off + n > c.ip.size then c.ip.size - off else n).toNat
    (if off + n > c.ip.size then c.ip.size - off else n).toNat 0 off.toNat [] c = _
  rw [hclip, readLoop_of_covers h (by omega) (Nat.zero_le _) (by omega) (by omega), Nat.sub_zero,
    List.nil_append]

theorem readi_of_beyond {off n : BitVec 32}
    (h : ¬(off.toNat ≤ c.ip.size.toNat ∧ off.toNat + n.toNat < 2 ^ 32)) :
    readi sb n.toNat off n c = .ok ((0, []), c) := by
  have hguard : off > c.ip.size ∨ off + n < off := by
    have hoff := off.isLt
    have hn := n.isLt
    rw [gt_iff_lt, BitVec.lt_def, BitVec.lt_def, BitVec.toNat_add]
    omega
  unfold readi
  rw [bind_of_ok (get_apply c), if_pos hguard]
  rfl

/-- A write leaves no hole: the old blocks stay, and the range has its blocks. -/
theorem Stored.covers {c' : Ctx} {f : Nat → BitVec 8} {off n fin : Nat}
    (h : Stored sb i c c' f off n fin) (hcovers : Covers c.ip c.store.disk c.ip.size.toNat)
    (hoff : off ≤ c.ip.size.toNat) (hfin : fin ≤ maxFile * bsize) :
    Covers c'.ip c'.store.disk c'.ip.size.toNat := by
  have hle := hcovers.le
  rw [h.size]
  refine ⟨by omega, ?_⟩
  intro k hk
  by_cases hold : k < blocksOf c.ip.size.toNat
  · obtain ⟨b, hb⟩ := Option.isSome_iff_exists.mp (hcovers.block k hold)
    rw [h.toWrote.ref _ b hb]
    rfl
  · -- the first byte of the block is in the range
    have hcovered := h.toWrote.covered (k * bsize)
      (by simp only [blocksOf, bsize] at *; omega) (by simp only [blocksOf, bsize] at *; omega)
    rwa [Nat.mul_div_cancel _ (show 0 < bsize by decide)] at hcovered

/-- Reading leaves the file alone and returns what the byte array has. -/
theorem Represents.readi_eq {f : ByteFile} (h : Represents sb i c f) (off n : BitVec 32) :
    readi sb n.toNat off n c = .ok ((FileCall.read off n).result f, c) := by
  simp only [FileCall.result]
  by_cases haccepted : (FileCall.read off n).Accepted f
  · rw [if_pos haccepted]
    simp only [FileCall.Accepted, ← h.size] at haccepted
    rw [readi_clipped h.covers haccepted.1 haccepted.2, h.size]
    have hbytes : fileBytes c.ip c.store.disk off.toNat (min n.toNat (f.size - off.toNat)) =
        f.read off.toNat n.toNat := by
      apply List.map_congr_left
      intro k hk
      rw [List.mem_range] at hk
      exact h.byte _ (by omega)
    rw [hbytes]
  · rw [if_neg haccepted]
    simp only [FileCall.Accepted, ← h.size] at haccepted
    exact readi_of_beyond haccepted

/-- A call on the inode does what it does on the array.  A read, and a write that is refused,
changes nothing. -/
theorem FileCall.run_refines {f : ByteFile} (hsb : sb.Layout) (h : Represents sb i c f)
    (call : FileCall) (hroom : call.HasRoom sb c) :
    ∃ c', call.run sb i c = .ok (call.result f, c') ∧ Represents sb i c' (call.after f) ∧
      (∀ bytes off n, call = .write bytes off n → call.Accepted f ∨ c' = c) ∧
      ∀ off n, call = .read off n → c' = c := by
  cases call with
  | read off n => exact ⟨c, h.readi_eq off n, h, by simp, fun _ _ _ => rfl⟩
  | write bytes off n =>
    have hwp := writei_spec hsb h.toOpen (.kernel bytes) off n
    have haccepted : Writable c.ip.size off n ↔ (FileCall.write bytes off n).Accepted f := by
      unfold Writable FileCall.Accepted
      rw [h.size]
    simp only [run, result, after]
    cases hrun : writei sb i (.kernel bytes) off n c with
    | error e =>
      obtain ⟨-, hw, henough⟩ := wp_of_error hwp hrun
      exact absurd (hroom hw) henough
    | ok r =>
      have hpost := wp_of_ok hwp hrun
      refine ⟨r.2, ?_⟩
      rw [bind_of_ok (show writei sb i (.kernel bytes) off n c = .ok (r.1, r.2) from hrun),
        pure_apply]
      by_cases hw : Writable c.ip.size off n
      · rw [if_pos hw] at hpost
        obtain ⟨tot, fin, g, hbytes, hr, hstored⟩ := hpost
        rw [writeBytes_kernel _ _ (Nat.zero_le _) (Nat.sub_le ..)] at hbytes
        simp only [Nat.sub_zero, Prod.mk.injEq] at hbytes
        obtain ⟨rfl, rfl, rfl⟩ := hbytes
        have hcovers := hstored.covers h.covers hw.1 hw.2.2
        rw [if_pos (haccepted.mp hw), if_pos (haccepted.mp hw), hr]
        refine ⟨rfl, ⟨hstored.toWrote.toOpen, hcovers, ?_, ?_⟩, ?_, by simp⟩
        · rw [hstored.size, h.size]
          rfl
        · intro x hx
          have hle := hcovers.le
          have hmax := h.covers.le
          replace hx : x < max f.size (off.toNat + n.toNat) := hx
          have hoff := hw.1
          have hlimit := hw.2.2
          have hsize := h.size
          rw [hstored.toWrote.byte x (by omega)]
          unfold ByteFile.write
          dsimp only
          split
          next => rw [Nat.zero_add]
          next => exact h.byte x (by omega)
        · intro _ _ _ _
          exact .inl (haccepted.mp hw)
      · rw [if_neg hw] at hpost
        rw [if_neg (mt haccepted.mpr hw), if_neg (mt haccepted.mpr hw), hpost.1, hpost.2]
        exact ⟨rfl, h, fun _ _ _ _ => .inr rfl, by simp⟩

/-! ## Sequences of calls -/

/-- Make calls one after the other. -/
def runCalls (sb : Superblock) (i : Nat) : List FileCall → InodeM (List (Int × List (BitVec 8)))
  | [] => return []
  | call :: rest => do
    let r ← call.run sb i
    let rs ← runCalls sb i rest
    return r :: rs

/-- What the calls return on an array of bytes. -/
def resultsOf (f : ByteFile) : List FileCall → List (Int × List (BitVec 8))
  | [] => []
  | call :: rest => call.result f :: resultsOf (call.after f) rest

/-- The array of bytes after the calls. -/
def afterCalls (f : ByteFile) (calls : List FileCall) : ByteFile := calls.foldl FileCall.after f

/-- Each call finds room when its turn comes. -/
def RoomFor (sb : Superblock) (i : Nat) : List FileCall → Ctx → Prop
  | [], _ => True
  | call :: rest, c =>
    call.HasRoom sb c ∧ ∀ r c', call.run sb i c = .ok (r, c') → RoomFor sb i rest c'

/-- Every sequence of reads and writes on an inode without holes returns what it returns on an array
of bytes, and leaves the inode without holes and with the bytes of the array.  After it, and so
between any two calls, a read and a refused write change nothing. -/
theorem files_are_byte_arrays {f : ByteFile} (hsb : sb.Layout) (h : Represents sb i c f)
    {calls : List FileCall} (hroom : RoomFor sb i calls c) :
    ∃ c', runCalls sb i calls c = .ok (resultsOf f calls, c') ∧
      Represents sb i c' (afterCalls f calls) ∧ ∀ call : FileCall, call.HasRoom sb c' →
        ∃ c'', call.run sb i c' = .ok (call.result (afterCalls f calls), c'') ∧
          (∀ bytes off n, call = .write bytes off n →
            call.Accepted (afterCalls f calls) ∨ c'' = c') ∧
          ∀ off n, call = .read off n → c'' = c' := by
  induction calls generalizing c f with
  | nil =>
    refine ⟨c, rfl, h, ?_⟩
    intro call hcall
    obtain ⟨c'', hrun, -, hkeep⟩ := call.run_refines hsb h hcall
    exact ⟨c'', hrun, hkeep⟩
  | cons call rest ih =>
    obtain ⟨c1, hrun, hrep, -⟩ := call.run_refines hsb h hroom.1
    obtain ⟨c', hrest, hrest'⟩ := ih hrep (hroom.2 _ _ hrun)
    refine ⟨c', ?_, hrest'⟩
    unfold runCalls resultsOf
    rw [bind_of_ok hrun, bind_of_ok hrest]
    rfl

/-- The empty file of a new inode on the tiny disk. -/
def tinyCtx : Ctx := ⟨⟨tinyDisk, []⟩, { Dinode.zero with type := 2 }⟩

theorem tinyCtx_represents : Represents tinySuper 1 tinyCtx ⟨0, fun _ => 0⟩ := by
  have hrefs : refs (tinyCtx.view tinySuper 1) tinyDisk = refs (tinyDisk.dinode tinySuper) tinyDisk :=
    refs_update_fresh (by decide) fun _ => rfl
  have hsound : Sound tinySuper (tinyCtx.view tinySuper 1) tinyDisk :=
    ⟨by rw [hrefs]; exact tinyDisk_consistent.owned, tinyDisk_consistent.low⟩
  refine ⟨⟨by decide, by decide, hsound⟩, ⟨Nat.zero_le _, ?_⟩, rfl, ?_⟩
  · intro n hn
    exact absurd hn (Nat.not_lt_zero n)
  · intro x hx
    exact absurd hx (Nat.not_lt_zero x)

/-- A file of zeros on the tiny disk, with nothing in the log. -/
def tinyFile (n : BitVec 32) : Ctx :=
  match writei tinySuper 1 (.kernel fun _ => 0) 0 n tinyCtx with
  | .ok (_, c) => ⟨⟨c.store.disk, []⟩, c.ip⟩
  | .error _ => tinyCtx

theorem tinyFile_open {n : BitVec 32} (hn : Writable tinyCtx.ip.size 0 n)
    (hok : (writei tinySuper 1 (.kernel fun _ => 0) 0 n tinyCtx).toBool = true) :
    Open tinySuper 1 (tinyFile n) ∧
      Covers (tinyFile n).ip (tinyFile n).store.disk (tinyFile n).ip.size.toNat := by
  have hspec := writei_spec tinySuper_layout tinyCtx_represents.toOpen (.kernel fun _ => 0) 0 n
  unfold tinyFile
  cases hrun : writei tinySuper 1 (.kernel fun _ => 0) 0 n tinyCtx with
  | error e =>
    rw [hrun] at hok
    cases hok
  | ok r =>
    have hpost := wp_of_ok hspec hrun
    rw [if_pos hn] at hpost
    obtain ⟨tot, fin, g, hbytes, -, hst⟩ := hpost
    rw [writeBytes_kernel _ _ (Nat.zero_le _) (Nat.sub_le ..)] at hbytes
    simp only [Nat.sub_zero, Prod.mk.injEq] at hbytes
    obtain ⟨-, rfl, -⟩ := hbytes
    exact ⟨⟨hst.toWrote.toOpen.lt, hst.toWrote.toOpen.type, hst.toWrote.toOpen.sound⟩,
      hst.covers tinyCtx_represents.covers hn.1 hn.2.2⟩

/-- Five bytes are written, and four can be read from the second on. -/
def tinyFileCalls : List FileCall := [.write (fun k => BitVec.ofNat 8 (k + 1)) 0 5, .read 1 10]

theorem files_are_byte_arrays_tiny : ∃ c', runCalls tinySuper 1 tinyFileCalls tinyCtx =
    .ok ([(5, []), (4, [2, 3, 4, 5])], c') := by
  have henough : Enough tinySuper tinyCtx (span 0 5) := by
    unfold Enough
    decide +kernel
  have hroom : RoomFor tinySuper 1 tinyFileCalls tinyCtx :=
    ⟨fun _ => henough, fun _ _ _ => ⟨trivial, fun _ _ _ => trivial⟩⟩
  obtain ⟨c', hrun, -⟩ := files_are_byte_arrays tinySuper_layout tinyCtx_represents hroom
  exact ⟨c', hrun⟩

end Fs
end FastIpc
