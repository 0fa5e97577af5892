import FastIpc.Buffers.Store

/-!
# The buffer cache and the log as one store of blocks

What the calls of `FastIpc.Buffers.Store` do to the contents of the blocks.  A commit copies
the pinned blocks to the log and from there to their places, with the buffers it needs for that
taken from the same cache, and unpins each block once the disk has it.

Main results:

- Theorem `Kept.installTrans`: after the copies, no block needs its buffer any more.
- Theorem `Tidy.step`: cache, disk and log agree after every call.
- Theorem `bread_returns_logical`: `bread` returns the contents of the block.
-/

namespace FastIpc
namespace Buffers

open Foundation FaultM
open Function (update update_of_ne update_self)
open Log (BlockNo Block Disk LogArea encodeHead MemLog)

variable {P : Type} {L : LogArea} {dev : BitVec 32} {pins : Finset BlockNo}
  {s t : BlockSys P} {p : P} {b : Fin nbuf} {x : BlockNo} {v : Block}

/-- The log has the contents of these blocks, from slot `tail` on. -/
def Copied (L : LogArea) (s : BlockSys P) : List BlockNo → Nat → Prop
  | [], _ => True
  | x :: rest, tail => s.disk (L.slot tail) = s.logical x ∧ Copied L s rest (tail + 1)

theorem Copied.congr {blocks : List BlockNo} {tail : Nat} (h : Copied L s blocks tail)
    (hfit : tail + blocks.length < L.size)
    (hdisk : ∀ i, i < L.size - 1 → t.disk (L.slot i) = s.disk (L.slot i))
    (hlogical : t.logical = s.logical) : Copied L t blocks tail := by
  induction blocks generalizing tail with
  | nil => trivial
  | cons x rest ih =>
    rw [List.length_cons] at hfit
    refine ⟨?_, ih h.2 (by omega)⟩
    rw [hdisk tail (by omega), hlogical]
    exact h.1

namespace Kept

/-- The log and the block are read one after the other, and both are then held. -/
theorem bread_pair (h : Kept L dev pins s) {tail : Nat} (hfit : tail < L.size - 1) (hx : x ∈ pins)
    {f : Fin nbuf → Fin nbuf → BlockM P Unit} {Q : Unit → BlockSys P → Prop}
    (hQ : ∀ lbuf dbuf c o,
      Kept L dev pins { s with cache := c, owner := o } → lbuf ≠ dbuf →
      Holds p lbuf (L.slot tail) (s.disk (L.slot tail)) { s with cache := c, owner := o } →
      Holds p dbuf x (s.logical x) { s with cache := c, owner := o } →
      wlp (f lbuf dbuf) Q { s with cache := c, owner := o }) :
    wlp (Buffers.bread p dev (L.slot tail) >>= fun lbuf =>
      Buffers.bread p dev x >>= fun dbuf => f lbuf dbuf) Q s := by
  have hslot : L.slot tail ∉ pins := fun hmem =>
    h.outside _ hmem (L.contains_slot hfit)
  refine wlp_bind.mpr ?_
  refine wlp_mono h.bread ?_
  rintro lbuf s1 ⟨h1, hl, ⟨c1, o1, rfl⟩, -⟩
  refine wlp_bind.mpr ?_
  refine wlp_mono h1.bread ?_
  rintro dbuf s2 ⟨h2, hd, ⟨c2, o2, rfl⟩, hkept⟩
  have hl := hkept _ _ _ _ hl
  rw [contents, if_neg hslot] at hl
  rw [contents, if_pos hx] at hd
  refine hQ lbuf dbuf c2 o2 h2 ?_ hl hd
  rintro rfl
  exact hslot (hl.2.1.symm.trans hd.2.1 ▸ hx)

end Kept

/-! ## Between the calls -/

/-- The pinned blocks are those of the log, each listed once, and the log has room for them. -/
structure Tidy (L : LogArea) (dev : BitVec 32) (s : BlockSys P) : Prop where
  kept : Kept L dev s.lh.toFinset s
  nodup : s.lh.Nodup
  fits : s.lh.length < L.size

namespace Tidy

theorem bread (h : Tidy L dev s) : wlp (Buffers.bread p dev x) (fun _ t => Tidy L dev t) s := by
  refine wlp_mono h.kept.bread ?_
  rintro b t ⟨hkept, -, ⟨c, o, rfl⟩, -⟩
  exact ⟨hkept, h.nodup, h.fits⟩

theorem beginOp (h : Tidy L dev s) : wlp Buffers.beginOp (fun _ t => Tidy L dev t) s := by
  unfold Buffers.beginOp
  refine wlp_bind.mpr (wlp_get.mpr ?_)
  split
  next => exact wlp_throw _
  next log hlog =>
    obtain ⟨-, rfl⟩ := MemLog.beginOp_eq_some hlog
    exact (wlp_set _).mpr ⟨h.kept.congr rfl rfl rfl rfl, h.nodup, h.fits⟩

/-- A block is changed and pinned.  It is as good as pinned before it is changed, since nothing comes
in between. -/
theorem added (h : Tidy L dev s) (hsome : (s.owner b).isSome) (hnot : s.cache.blockno b ∉ s.lh)
    (hout : ¬L.Contains (s.cache.blockno b)) (hroom : s.lh.length + 1 < L.size) :
    Tidy L dev
      { s with
        cache := (s.fill b v).cache.bpin b
        lh := s.lh ++ [s.cache.blockno b]
        logical := update s.logical (s.cache.blockno b) v } where
  kept := by
    have hpin : s.cache.blockno b ∉ s.lh.toFinset := fun hmem => hnot (List.mem_toFinset.mp hmem)
    have hdata : s.cache.data b = s.logical (s.cache.blockno b) := by
      obtain ⟨hdev, hvalid⟩ := h.kept.held b hsome
      rw [h.kept.coherent b hdev hvalid hpin, h.kept.clean _ hpin hout]
    have hkept := (h.kept.pin hsome rfl hpin hout hdata).absorb (v := v) hsome rfl
      (Finset.mem_insert_self ..)
    have hpins : (s.lh ++ [s.cache.blockno b]).toFinset =
        insert (s.cache.blockno b) s.lh.toFinset := by
      ext y
      simp [or_comm]
    dsimp only
    rw [hpins]
    exact hkept.congr rfl rfl rfl rfl
  nodup := by
    refine List.nodup_append.mpr ⟨h.nodup, List.nodup_singleton _, ?_⟩
    rintro y hy z hz rfl
    exact hnot (List.mem_singleton.mp hz ▸ hy)
  fits := by
    rwa [List.length_append, List.length_singleton]

end Tidy

/-- Before the first call: nobody uses a buffer, nothing is logged, and what is cached is what the
disk holds. -/
structure AtRest (s : BlockSys P) : Prop where
  listed : ∃ l, Listed s.cache l
  unique : ∀ b b', s.cache.dev b ≠ 0 → s.cache.dev b = s.cache.dev b' →
    s.cache.blockno b = s.cache.blockno b' → b = b'
  refcnt : ∀ b, s.cache.refcnt b = 0
  owner : ∀ b, s.owner b = none
  cached : ∀ b, s.cache.dev b ≠ 0 → s.cache.valid b = true →
    s.cache.data b = s.disk (s.cache.blockno b)
  lh : s.lh = []
  logical : s.logical = s.disk

theorem AtRest.tidy (h : AtRest s) (hdev : dev ≠ 0) : Tidy L dev s where
  kept := {
    listed := h.listed
    unique := fun b b' hb hb' => h.unique b b' (hb ▸ hdev) (hb.trans hb'.symm)
    refcnt := fun b => by simp [h.refcnt b, uses, h.owner b, h.lh]
    held := fun b hsome => by simp [h.owner b] at hsome
    pinned := fun x hx => by simp [h.lh] at hx
    coherent := fun b hb hvalid _ => h.cached b (hb ▸ hdev) hvalid
    clean := fun x _ _ => congrFun h.logical.symm x
    outside := fun x hx => by simp [h.lh] at hx }
  nodup := by
    rw [h.lh]
    exact List.nodup_nil
  fits := by
    rw [h.lh]
    exact L.size_pos

section Calls

variable [DecidableEq P]

/-- A holder puts data into its buffer and writes it to the disk. -/
theorem wlp_bwrite {Q : Unit → BlockSys P → Prop} (hb : s.owner b = some p)
    (hx : s.cache.blockno b = x) (hQ : Q () { s.fill b v with disk := update s.disk x v }) :
    wlp (bwrite p b) Q (s.fill b v) := by
  have hrun : bwrite p b (s.fill b v) = .ok ((), (s.fill b v).diskWrite b) := by
    unfold bwrite
    rw [bind_of_ok (get_apply _), if_pos (show (s.fill b v).owner b = some p from hb)]
    rfl
  refine wlp_of_run hrun ?_
  have hdata : (s.fill b v).cache.data b = v := update_self ..
  unfold BlockSys.diskWrite
  rw [hdata, show (s.fill b v).cache.blockno b = x from hx]
  exact hQ

namespace Kept

theorem brelse (h : Kept L dev pins s) (hb : s.owner b = some p) {Q : Unit → BlockSys P → Prop}
    (hQ : ∀ c, Kept L dev pins { s with owner := update s.owner b none, cache := c } →
      Q () { s with owner := update s.owner b none, cache := c }) :
    wlp (Buffers.brelse p b) Q s := by
  have hrun : Buffers.brelse p b s = .ok ((),
      { s with owner := update s.owner b none, cache := s.cache.release b }) := by
    unfold Buffers.brelse
    rw [bind_of_ok (get_apply _), if_pos hb]
    rfl
  have hsome : (s.owner b).isSome := by
    rw [hb]
    rfl
  exact wlp_of_run hrun (hQ _ (h.release hsome))

end Kept

/-! ## The commit -/

namespace Kept

theorem writeLog {blocks : List BlockNo} {tail : Nat} (h : Kept L dev pins s)
    (hmem : ∀ x ∈ blocks, x ∈ pins) (hfit : tail + blocks.length < L.size) :
    wlp (Buffers.writeLog L dev p blocks tail) (fun _ t => Kept L dev pins t ∧
      Copied L t blocks tail ∧ (∃ c o d, t = { s with cache := c, owner := o, disk := d }) ∧
      ∀ i, i < tail → t.disk (L.slot i) = s.disk (L.slot i)) s := by
  induction blocks generalizing tail s with
  | nil => exact wlp_pure () |>.mpr ⟨h, trivial, ⟨_, _, _, rfl⟩, fun _ _ => rfl⟩
  | cons x rest ih =>
    rw [List.length_cons] at hfit
    refine h.bread_pair (by omega) (hmem x List.mem_cons_self) ?_
    intro dst src c o h1 hne hdst hsrc
    refine wlp_bind.mpr ?_
    refine (wlp_modify _).mpr ?_
    refine wlp_bind.mpr ?_
    refine wlp_bwrite hdst.1 hdst.2.1 ?_
    have h2 := h1.put (v := c.data src) hdst.isSome hdst.2.1 (g := s.logical)
      (fun hout => (hout (L.contains_slot (by omega))).elim) fun _ _ => rfl
    refine wlp_bind.mpr ?_
    refine h2.brelse hsrc.1 ?_
    intro c3 h3
    refine wlp_bind.mpr ?_
    refine h3.brelse ((update_of_ne hne ..).trans hdst.1) ?_
    intro c4 h4
    refine wlp_mono (ih h4 (fun y hy => hmem y (List.mem_cons_of_mem _ hy)) (by omega)) ?_
    rintro _ t ⟨h5, hcopied, ⟨c5, o5, d5, rfl⟩, hbefore⟩
    refine ⟨h5, ⟨?_, hcopied⟩, ⟨_, _, _, rfl⟩, ?_⟩
    · rw [hbefore tail (Nat.lt_succ_self _)]
      exact (update_self ..).trans hsrc.2.2
    · intro i hi
      rw [hbefore i (by omega)]
      refine update_of_ne (fun heq => ?_) ..
      have hi := L.slot_injective (by omega) (by omega) heq
      omega

theorem writeHead (h : Kept L dev pins s) :
    wlp (Buffers.writeHead L dev p) (fun _ t => Kept L dev pins t ∧
      (∃ c o d, t = { s with cache := c, owner := o, disk := d }) ∧
      ∀ i, i < L.size - 1 → t.disk (L.slot i) = s.disk (L.slot i)) s := by
  unfold Buffers.writeHead
  refine wlp_bind.mpr ?_
  refine wlp_mono h.bread ?_
  rintro buf s1 ⟨h1, hbuf, ⟨c, o, rfl⟩, -⟩
  refine wlp_bind.mpr ?_
  refine (wlp_modify _).mpr ?_
  refine wlp_bind.mpr ?_
  refine wlp_bwrite hbuf.1 hbuf.2.1 ?_
  have h2 := h1.put (v := encodeHead s.lh (c.data buf)) hbuf.isSome hbuf.2.1 (g := s.logical)
    (fun hout => (hout L.contains_head).elim) fun _ _ => rfl
  refine h2.brelse hbuf.1 ?_
  intro c3 h3
  refine ⟨h3, ⟨_, _, _, rfl⟩, ?_⟩
  intro i hi
  exact update_of_ne (L.slot_ne_head hi) ..

/-- `install_trans` copies the blocks from the log to their places and unpins them. -/
theorem installTrans {blocks : List BlockNo} {tail : Nat} (h : Kept L dev blocks.toFinset s)
    (hnodup : blocks.Nodup) (hfit : tail + blocks.length < L.size) (hcopied : Copied L s blocks tail) :
    wlp (Buffers.installTrans L dev p blocks tail) (fun _ t => Kept L dev ∅ t ∧
      ∃ c o d, t = { s with cache := c, owner := o, disk := d }) s := by
  induction blocks generalizing tail s with
  | nil => exact wlp_pure () |>.mpr ⟨h, _, _, _, rfl⟩
  | cons x rest ih =>
    rw [List.length_cons] at hfit
    obtain ⟨hx, hnodup⟩ := List.nodup_cons.mp hnodup
    have hxpin : x ∈ (x :: rest).toFinset := List.mem_toFinset.mpr List.mem_cons_self
    have hxout := h.outside x hxpin
    refine h.bread_pair (by omega) hxpin ?_
    intro lbuf dbuf c o h1 hne hlbuf hdbuf
    have hdata : c.data lbuf = s.logical x := hlbuf.2.2.trans hcopied.1
    refine wlp_bind.mpr ?_
    refine (wlp_modify _).mpr ?_
    refine wlp_bind.mpr ?_
    refine wlp_bwrite hdbuf.1 hdbuf.2.1 ?_
    have h2 := h1.put (v := c.data lbuf) hdbuf.isSome hdbuf.2.1 (g := s.logical)
      (fun _ => hdata.symm) fun _ _ => rfl
    refine wlp_bind.mpr ?_
    refine (wlp_modify _).mpr ?_
    -- The disk has the block now, and its buffer need not be kept.
    rw [List.toFinset_cons] at h2
    have h3 := h2.unpin (b := dbuf) hdbuf.isSome hdbuf.2.1 (by simpa using hx)
      ((update_self ..).trans (update_self x (c.data lbuf) s.disk).symm)
      ((update_self x (c.data lbuf) s.disk).trans hdata)
    refine wlp_bind.mpr ?_
    refine h3.brelse hlbuf.1 ?_
    intro c4 h4
    refine wlp_bind.mpr ?_
    refine h4.brelse ((update_of_ne hne.symm ..).trans hdbuf.1) ?_
    intro c5 h5
    have hkept := hcopied.2.congr (t := { s with
        cache := c5
        owner := update (update o lbuf none) dbuf none
        disk := update s.disk x (c.data lbuf) }) (by omega)
      (fun i hi => update_of_ne (fun heq : L.slot i = x => hxout (heq ▸ L.contains_slot hi))
        ..) rfl
    refine wlp_mono (ih h5 hnodup (by omega) hkept) ?_
    rintro _ t ⟨h6, c6, o6, d6, rfl⟩
    exact ⟨h6, _, _, _, rfl⟩

/-- `commit` leaves the contents of the blocks to the disk. -/
theorem commit (h : Kept L dev s.lh.toFinset s) (hnodup : s.lh.Nodup) (hfit : s.lh.length < L.size) :
    wlp (Buffers.commit L dev p) (fun _ t => Kept L dev ∅ t ∧ t.lh = [] ∧ t.logical = s.logical) s := by
  unfold Buffers.commit
  refine wlp_bind.mpr ?_
  refine wlp_get.mpr ?_
  split
  next =>
    refine wlp_bind.mpr ?_
    refine wlp_mono (h.writeLog (fun x hx => List.mem_toFinset.mpr hx) (by omega)) ?_
    rintro _ s1 ⟨h1, hcopied, ⟨c1, o1, d1, rfl⟩, -⟩
    refine wlp_bind.mpr ?_
    refine wlp_mono h1.writeHead ?_
    rintro _ s2 ⟨h2, ⟨c2, o2, d2, rfl⟩, hdisk⟩
    refine wlp_bind.mpr ?_
    refine wlp_mono (h2.installTrans hnodup (by omega)
      (hcopied.congr (by omega) hdisk rfl)) ?_
    rintro _ s3 ⟨h3, c3, o3, d3, rfl⟩
    refine wlp_bind.mpr ?_
    refine (wlp_modify _).mpr ?_
    have h4 : Kept L dev ∅ { s with cache := c3, owner := o3, disk := d3, lh := [] } :=
      h3.congr rfl rfl rfl rfl
    refine wlp_mono h4.writeHead ?_
    rintro _ s5 ⟨h5, ⟨c5, o5, d5, rfl⟩, -⟩
    exact ⟨h5, rfl, rfl⟩
  next hempty =>
    have hnil : s.lh = [] := List.eq_nil_of_length_eq_zero (by omega)
    rw [hnil] at h
    exact (wlp_pure ()).mpr ⟨h, hnil, rfl⟩

end Kept

/-! ## Every call -/

/-- `log_write` is not called for a block of the log itself. -/
def LogsOutside (L : LogArea) (s : BlockSys P) : BlockCall P → Prop
  | .logWrite _ b _ => ¬L.Contains (s.cache.blockno b)
  | _ => True

instance (L : LogArea) (s : BlockSys P) (a : BlockCall P) : Decidable (LogsOutside L s a) := by
  unfold LogsOutside
  split <;> infer_instance

/-- A holder installs data, and goes on with the buffer. -/
theorem wlp_install {f : Unit → BlockM P Unit} {Q : Unit → BlockSys P → Prop}
    (hf : s.owner b = some p → wlp (f ()) Q
      { s.fill b v with logical := update s.logical (s.cache.blockno b) v }) :
    wlp (install p b v >>= f) Q s := by
  unfold install
  refine wlp_bind.mpr (wlp_bind.mpr (wlp_get.mpr ?_))
  split
  next hb => exact (wlp_set _).mpr (hf hb)
  next => exact wlp_throw _

namespace Tidy

/-- A holder modifies its buffer and writes it to the disk. -/
theorem bwrite (h : Tidy L dev s) :
    wlp (install p b v >>= fun _ => Buffers.bwrite p b) (fun _ t => Tidy L dev t) s := by
  refine wlp_install fun hb => ?_
  have hsome : (s.owner b).isSome := by
    rw [hb]
    rfl
  have hkept := h.kept.put (v := v) (g := update s.logical (s.cache.blockno b) v) hsome rfl
    (fun _ => update_self ..) fun _ hne => update_of_ne hne ..
  exact wlp_bwrite (s := { s with
    logical := update s.logical (s.cache.blockno b) v }) hb rfl ⟨hkept, h.nodup, h.fits⟩

theorem logWrite (h : Tidy L dev s) (hout : ¬L.Contains (s.cache.blockno b)) :
    wlp (install p b v >>= fun _ => Buffers.logWrite L b) (fun _ t => Tidy L dev t) s := by
  refine wlp_install fun hb => ?_
  have hsome : (s.owner b).isSome := by
    rw [hb]
    rfl
  unfold Buffers.logWrite
  refine wlp_bind.mpr (wlp_get.mpr ?_)
  split
  next => exact wlp_throw _
  next log hlog =>
    obtain ⟨hroom, rfl⟩ := MemLog.logWrite_eq_ok hlog
    refine (wlp_set _).mpr ?_
    by_cases hmem : s.cache.blockno b ∈ s.lh
    · have hkept := h.kept.absorb (v := v) hsome rfl (List.mem_toFinset.mpr hmem)
      simp only [BlockSys.fill, List.idxOf_eq_length_iff, hmem, not_true, if_true, if_false]
      exact ⟨hkept.congr rfl rfl rfl rfl, h.nodup, h.fits⟩
    · have hadded := h.added (v := v) hsome hmem hout hroom
      simpa only [BlockSys.fill, List.idxOf_eq_length_iff, hmem, not_false_eq_true, if_true,
        if_false] using hadded

theorem brelse (h : Tidy L dev s) : wlp (Buffers.brelse p b) (fun _ t => Tidy L dev t) s := by
  by_cases hb : s.owner b = some p
  · exact h.kept.brelse hb fun c hkept => ⟨hkept, h.nodup, h.fits⟩
  · unfold Buffers.brelse
    refine wlp_bind.mpr (wlp_get.mpr ?_)
    rw [if_neg hb]
    exact wlp_throw _

theorem endOp (h : Tidy L dev s) : wlp (Buffers.endOp L dev p) (fun _ t => Tidy L dev t) s := by
  unfold Buffers.endOp
  refine wlp_bind.mpr (wlp_get.mpr ?_)
  split
  next => exact wlp_throw _
  next log hlog =>
    have hlh := MemLog.lh_of_endOp hlog
    have hkept : Kept L dev log.lh.toFinset { s with toMemLog := log } := by
      rw [hlh]
      exact h.kept.congr rfl rfl rfl rfl
    refine wlp_bind.mpr ((wlp_set _).mpr ?_)
    split
    next =>
      refine wlp_bind.mpr ?_
      refine wlp_mono (hkept.commit (hlh ▸ h.nodup) (hlh ▸ h.fits)) ?_
      rintro _ t ⟨hclear, hnil, -⟩
      refine (wlp_modify _).mpr ⟨?_, ?_, ?_⟩
      · simp only [hnil]
        exact hclear.congr rfl rfl rfl rfl
      · simp only [hnil]
        exact List.nodup_nil
      · simp only [hnil]
        exact L.size_pos
    next => exact (wlp_pure _).mpr ⟨hkept, hlh ▸ h.nodup, hlh ▸ h.fits⟩

/-- Cache, disk and log agree on the contents of the blocks after every call. -/
theorem step {a : BlockCall P} (h : Tidy L dev s) (hok : LogsOutside L s a)
    (hstep : StepOf (blockStep L dev) s a t) : Tidy L dev t := by
  have hrun : wlp (a.run L dev) (fun _ t => Tidy L dev t) s := by
    cases a with
    | bread p blockno => exact wlp_bind.mpr (wlp_mono h.bread fun _ _ ht => (wlp_pure _).mpr ht)
    | logWrite p b v => exact h.logWrite hok
    | bwrite p b v => exact h.bwrite
    | brelse p b => exact h.brelse
    | beginOp => exact h.beginOp
    | endOp p => exact h.endOp
  unfold StepOf blockStep at hstep
  split at hstep
  next u hu =>
    cases hstep
    exact hrun _ _ hu
  next => cases hstep

end Tidy

/-! ## Runs -/

/-- After every sequence of calls, `bread` returns the contents of a block outside the log,
and every block that is logged and not committed is in the cache with its contents. -/
theorem bread_returns_logical {s0 : BlockSys P} {calls : List (BlockCall P)} (hdev : dev ≠ 0)
    (hrest : AtRest s0) (hrun : Run (Guarded (LogsOutside L) (StepOf (blockStep L dev))) s0 calls s)
    (hx : ¬L.Contains x) :
    (bread p dev x s = .ok (b, t) → t.owner b = some p ∧ t.cache.dev b = dev ∧
      t.cache.blockno b = x ∧ t.cache.data b = s.logical x) ∧
    ∀ y ∈ s.lh, ∃ b', s.cache.caches dev y b' = true ∧ s.cache.valid b' = true ∧
      s.cache.data b' = s.logical y := by
  have htidy : Tidy L dev s :=
    hrun.invariant_guarded (fun hu hok hstep => hu.step hok hstep) (hrest.tidy hdev)
  constructor
  · intro hread
    obtain ⟨hkept, hholds, -, -⟩ := htidy.kept.bread b t hread
    refine ⟨hholds.1, (hkept.held b hholds.isSome).1, hholds.2.1, hholds.2.2.trans ?_⟩
    unfold contents
    split
    next => rfl
    next hpin => exact htidy.kept.clean x hpin hx
  · intro y hy
    obtain ⟨b', hb', hblockno, hvalid, hdata⟩ := htidy.kept.pinned y (List.mem_toFinset.mpr hy)
    exact ⟨b', decide_eq_true ⟨hb', hblockno⟩, hvalid, hdata⟩

end Calls

/-! ## A small disk -/

/-- A log of a header and three blocks. -/
def smallArea : LogArea where
  start := 2
  size := 4
  size_pos := by decide
  fits := by decide

/-- A block that begins with a certain word. -/
def blockOf (w : BitVec 32) : Block := fun i =>
  if i.val = 0 then w else 0

/-- The cache after `binit`, over a disk of zeros. -/
def zeroSys : BlockSys Nat where
  cache := binit
    { dev := fun _ => 0
      blockno := fun _ => 0
      valid := fun _ => false
      refcnt := fun _ => 0
      data := fun _ => blockOf 0
      links := ⟨fun _ => none, fun _ => none⟩ }
  owner := fun _ => none
  disk := fun _ => blockOf 0
  lh := []
  outstanding := 0
  committing := false
  logical := fun _ => blockOf 0

theorem zeroSys_atRest : AtRest zeroSys where
  listed := ⟨_, listed_binit _⟩
  unique _ _ hdev := (hdev rfl).elim
  refcnt _ := rfl
  owner _ := rfl
  cached _ hdev := (hdev rfl).elim
  lh := rfl
  logical := rfl

/-- A block that is logged, given up and committed. -/
theorem bread_returns_logical_committed : ∃ s b t,
    Run (Guarded (LogsOutside smallArea) (StepOf (blockStep smallArea 1))) zeroSys
      [.beginOp, .bread 1 40, .logWrite 1 0 (blockOf 7), .brelse 1 0, .endOp 1] s ∧
    bread 2 1 40 s = .ok (b, t) ∧ t.cache.data b = s.logical 40 ∧ s.logical 40 0 = 7 := by
  obtain ⟨s, hexec, hread, hseven⟩ : ∃ s,
      exec (guardStep (LogsOutside smallArea) (blockStep smallArea 1)) zeroSys
        [.beginOp, .bread 1 40, .logWrite 1 0 (blockOf 7), .brelse 1 0, .endOp 1] = some s ∧
      (bread 2 1 40 s).toBool = true ∧ s.logical 40 0 = 7 :=
    exists_exec (by decide +kernel)
  have hrun := run_guarded_of_exec hexec
  cases hok : bread 2 1 40 s with
  | error e =>
    rw [hok] at hread
    cases hread
  | ok r =>
    have hlogical := (bread_returns_logical (by decide) zeroSys_atRest hrun (by decide)).1 hok
    exact ⟨s, r.1, r.2, hrun, hok, hlogical.2.2.2, hseven⟩

/-- The second block of the log is logged, as the first block of an operation that then logs block
40.  The commit copies block 40 to the second block of the log, and installs the first block of the
operation over it: block 40 ends with the data of the other. -/
theorem logged_log_block : ∃ s b t,
    Run (StepOf (blockStep smallArea 1)) zeroSys
      [.beginOp, .bread 1 4, .logWrite 1 0 (blockOf 5), .brelse 1 0, .bread 1 40,
        .logWrite 1 1 (blockOf 7), .brelse 1 1, .endOp 1] s ∧
    ¬smallArea.Contains 40 ∧ bread 2 1 40 s = .ok (b, t) ∧ t.cache.data b 0 = 5 ∧
    s.logical 40 0 = 7 := by
  obtain ⟨s, hexec, hread, hseven⟩ : ∃ s, exec (blockStep smallArea 1) zeroSys
      [.beginOp, .bread 1 4, .logWrite 1 0 (blockOf 5), .brelse 1 0, .bread 1 40,
        .logWrite 1 1 (blockOf 7), .brelse 1 1, .endOp 1] = some s ∧
      ((bread 2 1 40 s).toOption.any fun r => decide (r.2.cache.data r.1 0 = 5)) = true ∧
      s.logical 40 0 = 7 :=
    exists_exec (by decide +kernel)
  cases hok : bread 2 1 40 s with
  | error e =>
    rw [hok] at hread
    cases hread
  | ok r =>
    rw [hok] at hread
    exact ⟨s, r.1, r.2, run_of_exec hexec, by decide, hok, of_decide_eq_true hread, hseven⟩

end Buffers
end FastIpc
