import FastIpc.Buffers.Recency
import FastIpc.Foundation.FaultState
import FastIpc.Log.Admission

/-!
# Buffers, their locks and the log over a disk

The functions of `kernel/bio.c` with the sleep locks of the buffers and the disk behind them,
and the functions of `kernel/log.c` that are written with them.  A call is one step.  A call
that would sleep does not return: it is the step that it takes once it is let through.

The history variable `logical` is what the blocks hold for the users of the cache: the data
that a holder last put into a block before `log_write` or `bwrite`.

Main results:

- Theorem `Kept.bread`: what `bread` gives.
-/

namespace FastIpc
namespace Buffers

open Foundation FaultM
open Function (update update_apply update_eq_self update_of_ne update_self)
open Log (BlockNo Block Disk LogArea LogPanic encodeHead)

variable {P : Type}

/-- The cache with the holders of the buffers' locks, the disk, the in-memory log and the
contents of the blocks as their users see them. -/
structure BlockSys (P : Type) extends Log.MemLog where
  cache : Bcache Block
  owner : Fin nbuf → Option P
  disk : Disk
  logical : Disk

/-- Why a call does not return. -/
inductive Stop where
  /-- `bget` finds no buffer. -/
  | bget (e : Fault)
  /-- The caller sleeps, for a buffer or for room in the log. -/
  | asleep
  /-- The panic `bwrite`. -/
  | bwrite
  /-- The panic `brelse`. -/
  | brelse
  /-- A panic of the log. -/
  | log (e : LogPanic)
  /-- The caller does not hold the buffer that it modifies. -/
  | notHolder

/-- Code that works on the blocks. -/
abbrev BlockM (P : Type) := FaultM Stop (BlockSys P)

namespace BlockSys

/-- Put data into a buffer. -/
def fill (s : BlockSys P) (b : Fin nbuf) (v : Block) : BlockSys P :=
  { s with cache := { s.cache with data := update s.cache.data b v } }

/-- `virtio_disk_rw(b, 0)`, and the buffer is valid. -/
def diskRead (s : BlockSys P) (b : Fin nbuf) : BlockSys P :=
  { s with cache :=
    { s.cache with
      data := update s.cache.data b (s.disk (s.cache.blockno b))
      valid := update s.cache.valid b true } }

/-- `virtio_disk_rw(b, 1)`. -/
def diskWrite (s : BlockSys P) (b : Fin nbuf) : BlockSys P :=
  { s with disk := update s.disk (s.cache.blockno b) (s.cache.data b) }

end BlockSys

/-! ## `kernel/bio.c` -/

/-- `bread`, once the buffer's lock is free. -/
def bread (p : P) (dev blockno : BitVec 32) : BlockM P (Fin nbuf) := do
  let s ← get
  match s.cache.bget dev blockno with
  | .error e => throw (.bget e)
  | .ok (b, c) =>
    if (s.owner b).isSome then
      throw .asleep
    else
      let s := { s with cache := c, owner := update s.owner b (some p) }
      set (if c.valid b then s else s.diskRead b)
      return b

section Bio

variable [DecidableEq P]

def bwrite (p : P) (b : Fin nbuf) : BlockM P Unit := do
  let s ← get
  if s.owner b = some p then
    set (s.diskWrite b)
  else
    throw .bwrite

def brelse (p : P) (b : Fin nbuf) : BlockM P Unit := do
  let s ← get
  if s.owner b = some p then
    set { s with owner := update s.owner b none, cache := s.cache.release b }
  else
    throw .brelse

end Bio

/-- Copy one buffer's data to another. -/
def memmove (dst src : Fin nbuf) : BlockM P Unit := modify fun s => s.fill dst (s.cache.data src)

def bunpin (b : Fin nbuf) : BlockM P Unit := modify fun s => { s with cache := s.cache.bunpin b }

/-! ## `kernel/log.c` -/

def beginOp : BlockM P Unit := do
  let s ← get
  match s.toMemLog.beginOp with
  | none => throw .asleep
  | some log => set { s with toMemLog := log }

/-- `log_write`.  A block that is new to the log is pinned. -/
def logWrite (L : LogArea) (b : Fin nbuf) : BlockM P Unit := do
  let s ← get
  match s.toMemLog.logWrite L (s.cache.blockno b) with
  | .error e => throw (.log e)
  | .ok log =>
    let isNew := s.lh.idxOf (s.cache.blockno b) = s.lh.length
    set { s with toMemLog := log, cache := if isNew then s.cache.bpin b else s.cache }

section Log

variable [DecidableEq P] (L : LogArea) (dev : BitVec 32)

/-- The loop of `write_log`, from slot `tail` on. -/
def writeLog (p : P) : List BlockNo → Nat → BlockM P Unit
  | [], _ => pure ()
  | blockno :: rest, tail => do
    let dst ← bread p dev (L.slot tail)
    let src ← bread p dev blockno
    memmove dst src
    bwrite p dst
    brelse p src
    brelse p dst
    writeLog p rest (tail + 1)

/-- The loop of `install_trans(0)`, from slot `tail` on. -/
def installTrans (p : P) : List BlockNo → Nat → BlockM P Unit
  | [], _ => pure ()
  | blockno :: rest, tail => do
    let lbuf ← bread p dev (L.slot tail)
    let dbuf ← bread p dev blockno
    memmove dbuf lbuf
    bwrite p dbuf
    bunpin dbuf
    brelse p lbuf
    brelse p dbuf
    installTrans p rest (tail + 1)

def writeHead (p : P) : BlockM P Unit := do
  let buf ← bread p dev L.head
  modify fun s => s.fill buf (encodeHead s.lh (s.cache.data buf))
  bwrite p buf
  brelse p buf

def commit (p : P) : BlockM P Unit := do
  let s ← get
  if 0 < s.lh.length then
    writeLog L dev p s.lh 0
    writeHead L dev p
    installTrans L dev p s.lh 0
    modify fun s => { s with lh := [] }
    writeHead L dev p

def endOp (p : P) : BlockM P Unit := do
  let s ← get
  match s.toMemLog.endOp with
  | .error e => throw (.log e)
  | .ok log =>
    set { s with toMemLog := log }
    if log.committing then
      commit L dev p
      modify fun s => { s with committing := false }

/-! ## Sequences of calls -/

/-- A holder modifies its buffer, and is about to call `log_write` or `bwrite`. -/
def install (p : P) (b : Fin nbuf) (v : Block) : BlockM P Unit := do
  let s ← get
  if s.owner b = some p then
    set { s.fill b v with logical := update s.logical (s.cache.blockno b) v }
  else
    throw .notHolder

/-- The calls, each by a process. -/
inductive BlockCall (P : Type) where
  | bread (p : P) (blockno : BlockNo)
  | logWrite (p : P) (b : Fin nbuf) (v : Block)
  | bwrite (p : P) (b : Fin nbuf) (v : Block)
  | brelse (p : P) (b : Fin nbuf)
  | beginOp
  | endOp (p : P)

/-- What a call does. -/
def BlockCall.run : BlockCall P → BlockM P Unit
  | .bread p blockno => do
    let _ ← Buffers.bread p dev blockno
  | .logWrite p b v => do
    install p b v
    Buffers.logWrite L b
  | .bwrite p b v => do
    install p b v
    Buffers.bwrite p b
  | .brelse p b => Buffers.brelse p b
  | .beginOp => Buffers.beginOp
  | .endOp p => Buffers.endOp L dev p

/-- A call that returns. -/
def blockStep (s : BlockSys P) (a : BlockCall P) : Option (BlockSys P) :=
  match a.run L dev s with
  | .ok (_, t) => some t
  | .error _ => none

end Log

/-! ## What the cache, the disk and the pins have to do with each other -/

/-- How often a buffer is in use: by its holder and by the log. -/
def uses (dev : BitVec 32) (pins : Finset BlockNo) (s : BlockSys P) (b : Fin nbuf) : Nat :=
  (if (s.owner b).isSome then 1 else 0) +
    if s.cache.dev b = dev ∧ s.cache.blockno b ∈ pins then 1 else 0

/-- A pinned block has its contents in the cache.  Any other block has them on the disk, and a
buffer of it has what the disk has. -/
structure Kept (L : LogArea) (dev : BitVec 32) (pins : Finset BlockNo) (s : BlockSys P) : Prop where
  listed : ∃ l, Listed s.cache l
  unique : ∀ b b', s.cache.dev b = dev → s.cache.dev b' = dev →
    s.cache.blockno b = s.cache.blockno b' → b = b'
  refcnt : ∀ b, s.cache.refcnt b = BitVec.ofNat 32 (uses dev pins s b)
  held : ∀ b, (s.owner b).isSome → s.cache.dev b = dev ∧ s.cache.valid b = true
  pinned : ∀ x ∈ pins, ∃ b, s.cache.dev b = dev ∧ s.cache.blockno b = x ∧
    s.cache.valid b = true ∧ s.cache.data b = s.logical x
  coherent : ∀ b, s.cache.dev b = dev → s.cache.valid b = true → s.cache.blockno b ∉ pins →
    s.cache.data b = s.disk (s.cache.blockno b)
  clean : ∀ x, x ∉ pins → ¬L.Contains x → s.disk x = s.logical x
  outside : ∀ x ∈ pins, ¬L.Contains x

/-- A process holds the buffer of a block, with these contents. -/
def Holds (p : P) (b : Fin nbuf) (x : BlockNo) (v : Block) (s : BlockSys P) : Prop :=
  s.owner b = some p ∧ s.cache.blockno b = x ∧ s.cache.data b = v

/-- What `bread` gives: the contents of a pinned block, and what the disk has of another. -/
def contents (pins : Finset BlockNo) (s : BlockSys P) (x : BlockNo) : Block :=
  if x ∈ pins then s.logical x else s.disk x

/-- A process has got the buffer for a block. -/
def taken (s : BlockSys P) (p : P) (b : Fin nbuf) (dev x : BitVec 32) (count : BitVec 32)
    (v : Block) : BlockSys P :=
  { s with
    cache :=
      { s.cache with
        dev := update s.cache.dev b dev
        blockno := update s.cache.blockno b x
        valid := update s.cache.valid b true
        refcnt := update s.cache.refcnt b count
        data := update s.cache.data b v }
    owner := update s.owner b (some p) }

theorem Holds.isSome {p : P} {b : Fin nbuf} {x : BlockNo} {v : Block} {s : BlockSys P}
    (h : Holds p b x v s) : (s.owner b).isSome := by
  rw [h.1]
  rfl

namespace Kept

variable {L : LogArea} {dev : BitVec 32} {pins : Finset BlockNo} {s t : BlockSys P} {p : P}
  {b : Fin nbuf} {x : BlockNo} {v : Block}

theorem congr (h : Kept L dev pins s) (hcache : t.cache = s.cache) (howner : t.owner = s.owner)
    (hdisk : t.disk = s.disk) (hlogical : t.logical = s.logical) : Kept L dev pins t := by
  obtain ⟨m, c, o, d, g⟩ := t
  cases hcache
  cases howner
  cases hdisk
  cases hlogical
  exact ⟨h.listed, h.unique, h.refcnt, h.held, h.pinned, h.coherent, h.clean, h.outside⟩

theorem uses_le (s : BlockSys P) (b : Fin nbuf) : uses dev pins s b ≤ 2 := by
  unfold uses
  split <;> split <;> omega

section

variable (h : Kept L dev pins s)
include h

theorem uses_eq_zero (hzero : s.cache.refcnt b = 0) : uses dev pins s b = 0 := by
  have hle : uses dev pins s b ≤ 2 := uses_le s b
  have hnat := congrArg BitVec.toNat ((h.refcnt b).symm.trans hzero)
  rw [BitVec.toNat_ofNat, Nat.mod_eq_of_lt (by omega)] at hnat
  simpa using hnat

/-- A process gets the buffer of a block.  No other buffer is the block's, and the buffer was not
pinned for another block. -/
theorem taken (hfree : s.owner b = none)
    (hother : ∀ b', b' ≠ b → s.cache.dev b' = dev → s.cache.blockno b' ≠ x)
    (hloose : s.cache.dev b = dev → s.cache.blockno b ∈ pins → s.cache.blockno b = x) :
    Kept L dev pins (taken s p b dev x (BitVec.ofNat 32 (1 + if x ∈ pins then 1 else 0))
      (contents pins s x)) where
  listed := by
    obtain ⟨l, hl⟩ := h.listed
    exact ⟨l, hl.ring, hl.mem⟩
  unique := by
    intro b1 b2 h1 h2 heq
    simp only [Buffers.taken, update_apply] at h1 h2 heq
    split at h1 <;> split at h2
    next e1 e2 => rw [e1, e2]
    next e1 e2 =>
      rw [if_pos e1, if_neg e2] at heq
      exact (hother b2 e2 h2 heq.symm).elim
    next e1 e2 =>
      rw [if_neg e1, if_pos e2] at heq
      exact (hother b1 e1 h1 heq).elim
    next e1 e2 =>
      rw [if_neg e1, if_neg e2] at heq
      exact h.unique b1 b2 h1 h2 heq
  refcnt := by
    intro b'
    by_cases hb : b' = b
    · subst hb
      simp [Buffers.taken, uses]
    · simpa [Buffers.taken, uses, hb] using h.refcnt b'
  held := by
    intro b' hsome
    by_cases hb : b' = b
    · subst hb
      simp [Buffers.taken]
    · simp only [Buffers.taken, update_of_ne hb] at hsome ⊢
      exact h.held b' hsome
  pinned := by
    intro y hy
    obtain ⟨b', hdev, hblockno, hvalid, hdata⟩ := h.pinned y hy
    by_cases hb : b' = b
    · subst hb
      have hxy : y = x := by
        rw [← hblockno]
        exact hloose hdev (hblockno ▸ hy)
      subst hxy
      exact ⟨b', by simp [Buffers.taken, contents, hy]⟩
    · exact ⟨b', by simp [Buffers.taken, hb, hdev, hblockno, hvalid, hdata]⟩
  coherent := by
    intro b' hdev hvalid hpin
    by_cases hb : b' = b
    · subst hb
      simp only [Buffers.taken, update_self] at hpin ⊢
      exact if_neg hpin
    · simp only [Buffers.taken, update_of_ne hb] at hdev hvalid hpin ⊢
      exact h.coherent b' hdev hvalid hpin
  __ := h

theorem cached (hdev : s.cache.dev b = dev) (hblockno : s.cache.blockno b = x)
    (hvalid : s.cache.valid b = true) : s.cache.data b = contents pins s x := by
  unfold contents
  split
  next hx =>
    obtain ⟨b', hdev', hblockno', -, hdata⟩ := h.pinned x hx
    rwa [h.unique b b' hdev hdev' (hblockno.trans hblockno'.symm)]
  next hx =>
    subst hblockno
    exact h.coherent b hdev hvalid hx

/-- A block that is not valid in the cache has its contents on the disk. -/
theorem contents_of_not_valid
    (hnone : ∀ b, s.cache.dev b = dev → s.cache.blockno b = x → s.cache.valid b = false) :
    x ∉ pins ∧ contents pins s x = s.disk x := by
  have hx : x ∉ pins := by
    intro hx
    obtain ⟨b, hdev, hblockno, hvalid, -⟩ := h.pinned x hx
    rw [hnone b hdev hblockno] at hvalid
    cases hvalid
  exact ⟨hx, if_neg hx⟩

theorem bread_hit (hcached : s.cache.caches dev x b = true) (hfree : s.owner b = none)
    {t : BlockSys P}
    (ht : t = { s with cache := s.cache.hold b, owner := update s.owner b (some p) }) :
    (if (s.cache.hold b).valid b then t else t.diskRead b) =
      Buffers.taken s p b dev x (BitVec.ofNat 32 (1 + if x ∈ pins then 1 else 0))
        (contents pins s x) := by
  obtain ⟨hdev, hblockno⟩ := of_decide_eq_true hcached
  have hcount : s.cache.refcnt b + 1#32 = BitVec.ofNat 32 (1 + if x ∈ pins then 1 else 0) := by
    rw [h.refcnt b, uses, hfree, hdev, hblockno]
    by_cases hx : x ∈ pins <;> simp [hx]
  have hsame1 : update s.cache.dev b dev = s.cache.dev := by rw [← hdev, update_eq_self]
  have hsame2 : update s.cache.blockno b x = s.cache.blockno := by rw [← hblockno, update_eq_self]
  subst ht
  split
  next hvalid =>
    have hsame3 : update s.cache.valid b true = s.cache.valid := by
      rw [← show s.cache.valid b = true from hvalid, update_eq_self]
    have hsame4 : update s.cache.data b (contents pins s x) = s.cache.data := by
      rw [← h.cached hdev hblockno hvalid, update_eq_self]
    simp [Buffers.taken, Bcache.hold, hsame1, hsame2, hsame3, hsame4, hcount]
  next hvalid =>
    have hnone : ∀ b', s.cache.dev b' = dev → s.cache.blockno b' = x → s.cache.valid b' = false := by
      intro b' hdev' hblockno'
      rw [h.unique b' b hdev' hdev (hblockno'.trans hblockno.symm)]
      exact Bool.eq_false_iff.mpr hvalid
    simp [Buffers.taken, Bcache.hold, BlockSys.diskRead, hsame1, hsame2, hcount, hblockno,
      (h.contents_of_not_valid hnone).2]

theorem bread_miss (hmiss : ∀ b', s.cache.caches dev x b' = false) {t : BlockSys P}
    (ht : t = { s with cache := s.cache.rebind b dev x, owner := update s.owner b (some p) }) :
    (if (s.cache.rebind b dev x).valid b then t else t.diskRead b) =
      Buffers.taken s p b dev x (BitVec.ofNat 32 (1 + if x ∈ pins then 1 else 0))
        (contents pins s x) := by
  have hnone : ∀ b', s.cache.dev b' = dev → s.cache.blockno b' = x → s.cache.valid b' = false := by
    intro b' hdev hblockno
    have hcached : s.cache.caches dev x b' = true := decide_eq_true ⟨hdev, hblockno⟩
    rw [hmiss b'] at hcached
    cases hcached
  obtain ⟨hx, hcontents⟩ := h.contents_of_not_valid hnone
  subst ht
  simp [Buffers.taken, Bcache.rebind, BlockSys.diskRead, hx, hcontents]

/-- `bread` gives the contents of a block, locked, and leaves what others hold alone. -/
theorem bread :
    wlp (Buffers.bread p dev x) (fun b t => Kept L dev pins t ∧ Holds p b x (contents pins s x) t ∧
      (∃ c o, t = { s with cache := c, owner := o }) ∧
      ∀ p' b' y v, Holds p' b' y v s → Holds p' b' y v t) s := by
  intro b t hrun
  obtain ⟨l, hl⟩ := h.listed
  suffices hsuff : s.owner b = none ∧
      (∀ b', b' ≠ b → s.cache.dev b' = dev → s.cache.blockno b' ≠ x) ∧
      (s.cache.dev b = dev → s.cache.blockno b ∈ pins → s.cache.blockno b = x) ∧
      t = Buffers.taken s p b dev x (BitVec.ofNat 32 (1 + if x ∈ pins then 1 else 0))
        (contents pins s x) by
    obtain ⟨hfree, hother, hloose, rfl⟩ := hsuff
    refine ⟨h.taken hfree hother hloose, ?_, ⟨_, _, rfl⟩, ?_⟩
    · simp [Holds, Buffers.taken]
    · intro p' b' y v hholds
      have hne : b' ≠ b := by
        rintro rfl
        rw [hholds.1] at hfree
        cases hfree
      simpa [Holds, Buffers.taken, hne] using hholds
  unfold Buffers.bread at hrun
  obtain ⟨s', u, hget, hrun⟩ := bind_eq_ok.mp hrun
  cases hget
  cases hbget : s.cache.bget dev x with
  | error e =>
    rw [hbget] at hrun
    cases hrun
  | ok r =>
    obtain ⟨b', c⟩ := r
    rw [hbget] at hrun
    dsimp only at hrun
    split at hrun
    · cases hrun
    next hfree =>
      cases hrun
      have hfree : s.owner b = none := by simpa using hfree
      rcases hl.bget_cases hbget with ⟨hcached, rfl⟩ | ⟨hmiss, hzero, rfl, -⟩
      · obtain ⟨hdev, hblockno⟩ := of_decide_eq_true hcached
        refine ⟨hfree, ?_, fun _ _ => hblockno, h.bread_hit hcached hfree rfl⟩
        intro b' hne hdev' hblockno'
        exact hne (h.unique b' b hdev' hdev (hblockno'.trans hblockno.symm))
      · have huses := h.uses_eq_zero hzero
        refine ⟨hfree, ?_, ?_, h.bread_miss hmiss rfl⟩
        · intro b' _ hdev' hblockno'
          have hcached : s.cache.caches dev x b' = true := decide_eq_true ⟨hdev', hblockno'⟩
          rw [hmiss b'] at hcached
          cases hcached
        · intro hdev' hpin
          simp [uses, hdev', hpin] at huses

/-- A holder writes `v` to its block in the cache; the disk and the logical contents change at most
there. -/
theorem write (hsome : (s.owner b).isSome) (hx : s.cache.blockno b = x) {d g : Disk}
    (hd : ∀ y, y ≠ x → d y = s.disk y) (hg : ∀ y, y ≠ x → g y = s.logical y)
    (hdisk : x ∉ pins → d x = v) (hv : ¬L.Contains x → g x = v) :
    Kept L dev pins { s.fill b v with disk := d, logical := g } where
  listed := by
    obtain ⟨l, hl⟩ := h.listed
    exact ⟨l, hl.ring, hl.mem⟩
  __ := h
  pinned := by
    intro y hy
    obtain ⟨b', hdev, hblockno, hvalid, hdata⟩ := h.pinned y hy
    refine ⟨b', hdev, hblockno, hvalid, ?_⟩
    by_cases hb : b' = b
    · subst hb
      have hyx : y = x := hblockno.symm.trans hx
      subst hyx
      simpa [BlockSys.fill] using (hv (h.outside y hy)).symm
    · have hyx : y ≠ x := by
        rintro rfl
        exact hb (h.unique b' b hdev (h.held b hsome).1 (hblockno.trans hx.symm))
      simpa [BlockSys.fill, hb, hg y hyx] using hdata
  coherent := by
    intro b' hdev hvalid hpin
    by_cases hb : b' = b
    · subst hb
      simpa [BlockSys.fill, hx] using (hdisk (hx ▸ hpin)).symm
    · have hyx : s.cache.blockno b' ≠ x := fun heq =>
        hb (h.unique b' b hdev (h.held b hsome).1 (heq.trans hx.symm))
      simpa [BlockSys.fill, hb, hd _ hyx] using h.coherent b' hdev hvalid hpin
  clean := by
    intro y hpin hout
    by_cases hyx : y = x
    · subst hyx
      exact (hdisk hpin).trans (hv hout).symm
    · simpa [hd y hyx, hg y hyx] using h.clean y hpin hout

/-- A holder writes its block, to the cache and to the disk. -/
theorem put (hsome : (s.owner b).isSome) (hx : s.cache.blockno b = x) {g : Disk}
    (hv : ¬L.Contains x → g x = v) (hg : ∀ y, y ≠ x → g y = s.logical y) :
    Kept L dev pins { s.fill b v with disk := update s.disk x v, logical := g } :=
  h.write hsome hx (fun _ hy => update_of_ne hy ..) hg (fun _ => update_self ..) hv

/-- A holder changes a pinned block in the cache. -/
theorem absorb (hsome : (s.owner b).isSome) (hx : s.cache.blockno b = x) (hpin : x ∈ pins) :
    Kept L dev pins { s.fill b v with logical := update s.logical x v } :=
  h.write hsome hx (fun _ _ => rfl) (fun _ hy => update_of_ne hy ..) (absurd hpin)
    fun _ => update_self ..

end

/-- The count of a buffer changes with the blocks that are pinned. -/
theorem uses_insert (hx : s.cache.blockno b = x) (hdev : s.cache.dev b = dev) (hpin : x ∉ pins) :
    uses dev (insert x pins) s b = uses dev pins s b + 1 := by
  simp [uses, hx, hdev, hpin]

theorem uses_insert_of_ne (hx : s.cache.dev b = dev → s.cache.blockno b ≠ x) :
    uses dev (insert x pins) s b = uses dev pins s b := by
  unfold uses
  by_cases hdev : s.cache.dev b = dev
  · simp [hx hdev]
  · simp [hdev]

/-- A block whose contents are in the cache is pinned. -/
theorem pin (h : Kept L dev pins s) (hsome : (s.owner b).isSome) (hx : s.cache.blockno b = x)
    (hpin : x ∉ pins) (hout : ¬L.Contains x) (hv : s.cache.data b = s.logical x) :
    Kept L dev (insert x pins) { s with cache := s.cache.bpin b } where
  listed := by
    obtain ⟨l, hl⟩ := h.listed
    exact ⟨l, hl.ring, hl.mem⟩
  __ := h
  refcnt := by
    intro b'
    by_cases hb : b' = b
    · subst hb
      have huses : uses dev (insert x pins) s b' = uses dev pins s b' + 1 :=
        uses_insert hx (h.held b' hsome).1 hpin
      simp only [Bcache.bpin, Bcache.hold, update_self, h.refcnt b']
      exact (BitVec.ofNat_add ..).symm.trans (congrArg (BitVec.ofNat 32) huses).symm
    · have hne : s.cache.dev b' = dev → s.cache.blockno b' ≠ x := fun hdev heq =>
        hb (h.unique b' b hdev (h.held b hsome).1 (heq.trans hx.symm))
      simp only [Bcache.bpin, Bcache.hold, update_of_ne hb, h.refcnt b']
      exact (congrArg (BitVec.ofNat 32) (uses_insert_of_ne hne)).symm
  pinned := by
    intro y hy
    rcases Finset.mem_insert.mp hy with rfl | hy
    · exact ⟨b, (h.held b hsome).1, hx, (h.held b hsome).2, hv⟩
    · exact h.pinned y hy
  coherent b' hdev hvalid hpin' := h.coherent b' hdev hvalid fun hmem =>
    hpin' (Finset.mem_insert_of_mem hmem)
  clean y hpin' := h.clean y fun hmem => hpin' (Finset.mem_insert_of_mem hmem)
  outside := by
    intro y hy
    rcases Finset.mem_insert.mp hy with rfl | hy
    · exact hout
    · exact h.outside y hy

/-- A block that is the same in the cache and on the disk is unpinned. -/
theorem unpin (h : Kept L dev (insert x pins) s) (hsome : (s.owner b).isSome)
    (hx : s.cache.blockno b = x) (hpin : x ∉ pins) (hdata : s.cache.data b = s.disk x)
    (hdisk : s.disk x = s.logical x) : Kept L dev pins { s with cache := s.cache.bunpin b } where
  listed := by
    obtain ⟨l, hl⟩ := h.listed
    exact ⟨l, hl.ring, hl.mem⟩
  __ := h
  refcnt := by
    intro b'
    by_cases hb : b' = b
    · subst hb
      simp only [Bcache.bunpin, update_self, h.refcnt b',
        uses_insert hx (h.held b' hsome).1 hpin, BitVec.ofNat_add]
      exact BitVec.add_sub_cancel ..
    · have hne : s.cache.dev b' = dev → s.cache.blockno b' ≠ x := fun hdev heq =>
        hb (h.unique b' b hdev (h.held b hsome).1 (heq.trans hx.symm))
      simp only [Bcache.bunpin, update_of_ne hb, h.refcnt b', uses_insert_of_ne hne]
      rfl
  pinned y hy := h.pinned y (Finset.mem_insert_of_mem hy)
  coherent := by
    intro b' hdev hvalid hpin'
    by_cases hb : b' = b
    · subst hb
      exact hdata.trans (congrArg s.disk hx.symm)
    · have hne : s.cache.blockno b' ≠ x := fun heq =>
        hb (h.unique b' b hdev (h.held b hsome).1 (heq.trans hx.symm))
      exact h.coherent b' hdev hvalid fun hmem => (Finset.mem_insert.mp hmem).elim hne hpin'
  clean := by
    intro y hpin' hout
    by_cases hyx : y = x
    · exact hyx ▸ hdisk
    · exact h.clean y (fun hmem => (Finset.mem_insert.mp hmem).elim hyx hpin') hout
  outside y hy := h.outside y (Finset.mem_insert_of_mem hy)

/-- A holder gives its buffer up. -/
theorem release (h : Kept L dev pins s) (hsome : (s.owner b).isSome) :
    Kept L dev pins
      { s with owner := update s.owner b none, cache := s.cache.release b } := by
  obtain ⟨links, hlinks⟩ := s.cache.release_eq b
  have hlisted : ∃ l, Listed (s.cache.release b) l := by
    obtain ⟨l, hl⟩ := h.listed
    rcases hl.release b with ⟨-, before, after, -, hlisted⟩ | ⟨-, hlisted⟩
    · exact ⟨_, hlisted⟩
    · exact ⟨l, hlisted⟩
  rw [hlinks] at hlisted ⊢
  refine ⟨hlisted, h.unique, ?_, ?_, h.pinned, h.coherent, h.clean, h.outside⟩
  · intro b'
    by_cases hb : b' = b
    · subst hb
      simp only [update_self, h.refcnt b', uses, hsome, if_true, BitVec.ofNat_add]
      simp
    · simpa [uses, hb] using h.refcnt b'
  · intro b' hsome'
    by_cases hb : b' = b
    · simp [hb] at hsome'
    · exact h.held b' (by simpa [hb] using hsome')

end Kept

end Buffers
end FastIpc
