import FastIpc.Fs.Contents
import FastIpc.Kernel.StringCopy

/-!
# Writes that end early

`writei` with a source in user memory stops at the first page that cannot be read.  By then
`either_copyin` may have changed the front part of the buffer at which it stopped.  This buffer
is not passed to the log, but it stays in the cache: a later `bread` returns it as it is, until
it is evicted and read again from the disk.

Main results:

- Theorem `Source.user_copy`: the source in user memory is what `copyin` does.
- Theorem `writeBytes_short`: where a write stops.
- Theorem `short_write_iff`: when a short write changes only what it reports.
-/

namespace FastIpc
namespace Fs

open Foundation Kernel

/-! ## Sources in user memory -/

/-- The byte that some pieces put at a position of a buffer, which starts at offset `a` after a
word boundary. -/
def storedBytes (mem : Memory) (a : Nat) : List Piece → Nat → Option (BitVec 8)
  | [], _ => none
  | p :: rest, k =>
    if p.off ≤ k ∧ k < p.off + movedBytes (a + p.off) p.pa p.len then
      some (mem (p.pa + (k - p.off)))
    else storedBytes mem a rest k

/-- The source at a user address. -/
def Source.user (mem : Memory) (r src : Nat) : Source where
  copy tot m a :=
    (decide ((userPieces mem r (src + tot) m).2 = 0),
      storedBytes mem a (userPieces mem r (src + tot) m).1)

variable {mem : Memory} {a m n off r src tot : Nat}

/-- How much `mymemmove` copies depends on the alignment only, if nothing overlaps. -/
theorem movedBytes_congr {dst dst' : Nat} (hmod : dst % 8 = dst' % 8)
    (hapart : dst ≤ src ∨ src + n ≤ dst) (hapart' : dst' ≤ src ∨ src + n ≤ dst') :
    movedBytes dst src n = movedBytes dst' src n := by
  have hiff : CopiesWords dst src n ↔ CopiesWords dst' src n := by
    unfold CopiesWords RunsInto
    omega
  unfold movedBytes
  simp only [hiff]

theorem moves_stored {ps : List Piece} {dst : Nat} {u t : Ram} (hmod : dst % 8 = a % 8)
    (hrun : moves (fun p => mymemmoveRam (dst + p.off) p.pa p.len) ps u = .ok ((), t))
    (hsrc : ∀ x, ¬(dst ≤ x ∧ x < dst + m) → u.mem x = mem x)
    (hin : ∀ p ∈ ps, p.off + p.len ≤ m ∧ (dst + m ≤ p.pa ∨ p.pa + p.len ≤ dst) ∧ a + m ≤ p.pa)
    (hpair : ps.Pairwise fun p p' => p.off + p.len ≤ p'.off) :
    (∀ x, ¬(dst ≤ x ∧ x < dst + m) → t.mem x = mem x) ∧
      ∀ k < m, t.mem (dst + k) = (storedBytes mem a ps k).getD (u.mem (dst + k)) := by
  induction ps generalizing u with
  | nil =>
    cases hrun
    exact ⟨hsrc, fun _ _ => rfl⟩
  | cons p rest ih =>
    obtain ⟨hfits, hapart, hlow⟩ := hin p (List.mem_cons_self ..)
    have hmoved := movedBytes_le (dst + p.off) p.pa p.len
    have hcongr : movedBytes (dst + p.off) p.pa p.len = movedBytes (a + p.off) p.pa p.len :=
      movedBytes_congr (by omega) (by omega) (by omega)
    rw [moves, FaultM.bind_of_ok rfl] at hrun
    have hmem : ∀ x, mymemmove u.mem (dst + p.off) p.pa p.len x =
        if dst + p.off ≤ x ∧ x < dst + p.off + movedBytes (a + p.off) p.pa p.len then
          mem (p.pa + (x - (dst + p.off)))
        else u.mem x := by
      intro x
      rw [mymemmove_eq, hcongr, Memory.move]
      split
      next h => exact hsrc _ (by omega)
      next => rfl
    obtain ⟨hout, hstored⟩ := ih hrun
      (fun x hx => by
        dsimp only
        rw [hmem, if_neg (by omega)]
        exact hsrc x hx)
      (fun p' hp' => hin p' (List.mem_cons_of_mem _ hp')) hpair.of_cons
    refine ⟨hout, fun k hk => ?_⟩
    rw [hstored k hk]
    dsimp only
    rw [hmem, storedBytes]
    by_cases hhere : p.off ≤ k ∧ k < p.off + movedBytes (a + p.off) p.pa p.len
    · -- no later piece reaches this byte
      have hrest : ∀ l : List Piece, (∀ p' ∈ l, p.off + p.len ≤ p'.off) →
          storedBytes mem a l k = none := by
        intro l hl
        induction l with
        | nil => rfl
        | cons p' l ih' =>
          have hafter := hl p' (List.mem_cons_self ..)
          rw [storedBytes, if_neg (by omega), ih' fun q hq => hl q (List.mem_cons_of_mem _ hq)]
      rw [hrest rest (List.pairwise_cons.mp hpair).1, if_pos hhere, if_pos (by omega),
        show dst + k - (dst + p.off) = k - p.off by omega]
      rfl
    · rw [if_neg hhere, if_neg (by omega)]

/-- The source in user memory is what `copyin` makes of a buffer that starts on a word boundary
and is apart from the page table and from the pages read. -/
theorem Source.user_copy {s : Ram} {r src tot m buf a : Nat} (hbuf : buf % 8 = 0)
    (hfits : a + m ≤ pgSize) (hapart : BufferApart s.mem r (buf + a) (src + tot) m) :
    ∃ ret t, copyinWith mymemmoveRam r (buf + a) (src + tot) m s = .ok (ret, t) ∧
      (ret = 0 ↔ ((Source.user s.mem r src).copy tot m a).1 = true) ∧
      (∀ x, ¬(buf + a ≤ x ∧ x < buf + a + m) → t.mem x = s.mem x) ∧ ∀ k < m, t.mem (buf + a + k) =
        (((Source.user s.mem r src).copy tot m a).2 k).getD (s.mem (buf + a + k)) := by
  obtain ⟨moved, hsplit⟩ := @pieces_split (userPage s.mem r) m (src + tot) 0 m le_rfl
  have hexact := hsplit.exact
  have hle := hexact.le
  -- each piece lies inside the buffer, and its page outside
  have hin : ∀ p ∈ (userPieces s.mem r (src + tot) m).1, p.off + p.len ≤ m ∧
      (buf + a + m ≤ p.pa ∨ p.pa + p.len ≤ buf + a) ∧ a + m ≤ p.pa := by
    intro p hp
    have hbounds := hexact.tiles.bounds (List.mem_map_of_mem hp)
    have hoffset := hexact.offset p hp
    obtain ⟨hpos, hlen, hacc, hpa⟩ := hexact.inside p hp
    unfold Piece.range at hbounds
    dsimp only at hbounds
    have hpage := hapart.page p.va (by omega) (by omega) hacc
    have hacc' := (accessible_of_page (pgRoundDown_div p.va)).mpr hacc
    rw [userPage_of_accessible hacc', leaf_eq_of_page (pgRoundDown_div p.va)] at hpage
    have hlow : pgSize ≤ pte2pa (leaf s.mem r p.va) := by
      have hne := hacc.2.2.2
      rw [pte2pa_eq] at hne ⊢
      unfold pgSize
      omega
    refine ⟨by omega, by omega, by omega⟩
  have hpair : (userPieces s.mem r (src + tot) m).1.Pairwise fun p p' => p.off + p.len ≤ p'.off := by
    have htiles := List.pairwise_map.mp hexact.tiles.pairwise
    refine htiles.imp_of_mem fun hp hp' hle' => ?_
    have hoffset := hexact.offset _ hp
    have hoffset' := hexact.offset _ hp'
    unfold Piece.range at hle'
    dsimp only at hle'
    omega
  obtain ⟨t, hrun, hmoves⟩ := @transfer_eq
    (fun p => mymemmoveRam (buf + a + p.off) p.pa p.len) r s s m (src + tot) 0 m
    (fun _ _ _ _ _ => rfl) (fun p hp u hu => by
      refine ⟨_, rfl, hu.of_eq fun path node hlen hnode x hlo hhi => ?_⟩
      have htable := hapart.table path node hlen hnode
      have hp' := hin p hp
      have hmoved := movedBytes_le (buf + a + p.off) p.pa p.len
      rw [mymemmove_eq]
      exact Memory.move_of_not_mem (by omega))
  obtain ⟨hout, hstored⟩ := moves_stored (show (buf + a) % 8 = a % 8 by omega) hmoves
    (fun _ _ => rfl) hin hpair
  refine ⟨_, t, hrun, ?_, hout, hstored⟩
  unfold Source.user
  rw [decide_eq_true_iff]
  exact Iff.rfl

/-- Twenty bytes from the end of one page and the start of the next, copied by words. -/
theorem Source.user_copy_two_pages : ∃ t,
    copyinWith mymemmoveRam 0x1000 0x6000 0xff8 20 twoDataPages = .ok (0, t) ∧
      ∀ k < 20, t.mem (0x6000 + k) =
        (((Source.user twoDataPages.mem 0x1000 0xff8).copy 0 20 0).2 k).getD
          (twoDataPages.mem (0x6000 + k)) := by
  have hpages : userPage twoDataPages.mem 0x1000 0 = 0x5000 ∧
      userPage twoDataPages.mem 0x1000 0x1000 = 0x8000 := by
    decide +kernel
  have hapart : BufferApart twoDataPages.mem 0x1000 0x6000 0xff8 20 := by
    constructor
    · intro path n hlen hn
      have hplace := table_twoPages (by decide) hlen hn
      unfold pgSize
      omega
    · intro va hlo hhi _
      have hround : pgRoundDown va = 0 ∨ pgRoundDown va = 0x1000 := by
        unfold pgRoundDown pgSize
        omega
      rcases hround with hround | hround
      · rw [hround, hpages.1]
        decide
      · rw [hround, hpages.2]
        decide
  obtain ⟨ret, t, hrun, hret, -, hbytes⟩ := @Source.user_copy twoDataPages 0x1000 0xff8 0 20 0x6000 0
    (by decide) (by decide) hapart
  obtain rfl : ret = 0 := hret.mpr (by decide +kernel)
  exact ⟨t, hrun, hbytes⟩

/-- A copy succeeds if the whole range is accessible. -/
theorem Source.user_ok :
    ((Source.user mem r src).copy tot m a).1 = true ↔
      ∀ k, tot ≤ k → k < tot + m → Accessible mem r (src + k) := by
  obtain ⟨moved, hsplit⟩ := @pieces_split (userPage mem r) m (src + tot) 0 m le_rfl
  have hiff : (userPieces mem r (src + tot) m).2 = 0 ↔ _ := hsplit.exact.zero_iff
  unfold Source.user
  rw [decide_eq_true_iff, hiff]
  constructor
  · intro h k hlo hhi
    exact h (src + k) (by omega) (by omega)
  · intro h x hlo hhi
    have hx := h (x - src) (by omega) (by omega)
    rwa [show src + (x - src) = x by omega] at hx

/-- A range inside one page is copied as a whole or not at all. -/
theorem pieces_of_fits {page : Nat → Nat} {rounds va len : Nat} (hfits : va % pgSize + len ≤ pgSize)
    (hfail : (pieces page rounds va off len).2 ≠ 0) : (pieces page rounds va off len).1 = [] := by
  cases rounds with
  | zero => rfl
  | succ rounds =>
    unfold pieces at hfail ⊢
    split
    next => rfl
    next hlen =>
      rw [if_neg hlen] at hfail
      dsimp only at hfail ⊢
      rw [sub_pgRoundDown, show min (pgSize - va % pgSize) len = len by omega, Nat.sub_self,
        pieces_zero] at hfail
      split
      next => rfl
      next hpage =>
        rw [if_neg hpage] at hfail
        exact absurd rfl hfail

/-- A range of at most a page that cannot be copied has at most one piece. -/
theorem pieces_fail {page : Nat → Nat} {rounds va len : Nat} (hlen : len ≤ pgSize)
    (hfail : (pieces page rounds va off len).2 ≠ 0) :
    (pieces page rounds va off len).1 = [] ∨ (pieces page rounds va off len).1 =
      [⟨va, page (pgRoundDown va) + va % pgSize, off, pgSize - va % pgSize⟩] := by
  by_cases hfits : va % pgSize + len ≤ pgSize
  · exact .inl (pieces_of_fits hfits hfail)
  · cases rounds with
    | zero => exact .inl rfl
    | succ rounds =>
      unfold pieces at hfail ⊢
      have hpos : len ≠ 0 := by
        have hmod := Nat.mod_lt va (show 0 < pgSize by decide)
        omega
      rw [if_neg hpos] at hfail ⊢
      dsimp only at hfail ⊢
      rw [sub_pgRoundDown,
        show min (pgSize - va % pgSize) len = pgSize - va % pgSize by omega] at hfail ⊢
      split
      next => exact .inl rfl
      next hpage =>
        rw [if_neg hpage] at hfail
        -- the rest starts on a page boundary
        have hrest : (pgRoundDown va + pgSize) % pgSize + (len - (pgSize - va % pgSize)) ≤
            pgSize := by
          unfold pgRoundDown
          rw [Nat.add_mod_right, Nat.mul_mod_left]
          omega
        rw [pieces_of_fits hrest hfail]
        exact .inr rfl

/-- What a copy that fails has stored: the bytes before the first one that is not accessible, as far
as `mymemmove` copies them. -/
theorem Source.user_fail (hm : m ≤ pgSize)
    (hfail : ((Source.user mem r src).copy tot m a).1 = false) :
    ∃ j < m, (∀ k < j, Accessible mem r (src + tot + k)) ∧ ¬Accessible mem r (src + tot + j) ∧
      ∀ k, ((Source.user mem r src).copy tot m a).2 k =
        if k < movedBytes a (userAddr mem r (src + tot)) j then
          some (mem (userAddr mem r (src + tot) + k))
        else none := by
  have hret : (userPieces mem r (src + tot) m).2 ≠ 0 := of_decide_eq_false hfail
  obtain ⟨j, hsplit⟩ := @pieces_split (userPage mem r) m (src + tot) 0 m le_rfl
  obtain ⟨-, hlt, hstop, hbefore⟩ := hsplit.exact.stopped hret
  refine ⟨j, hlt, fun k hk => hbefore _ (by omega) (by omega), hstop, fun k => ?_⟩
  have htiles := hsplit.tiles
  show storedBytes mem a (pieces (userPage mem r) m (src + tot) 0 m).1 k = _
  rcases pieces_fail hm hret with hnone | hone
  · rw [hnone] at htiles ⊢
    have hj : j = 0 := by
      have heq : src + tot = src + tot + j := htiles
      omega
    rw [hj, movedBytes_of_le _ _ (Nat.zero_le _)]
    rfl
  · rw [hone] at htiles ⊢
    have hj : pgSize - (src + tot) % pgSize = j := by
      have heq : src + tot + (pgSize - (src + tot) % pgSize) = src + tot + j := htiles.2
      omega
    rw [hj, storedBytes, ← userAddr]
    by_cases hk : k < movedBytes a (userAddr mem r (src + tot)) j
    · rw [if_pos hk, if_pos ⟨Nat.zero_le _, by simpa using hk⟩]
      rfl
    · rw [if_neg hk, if_neg (by simpa using hk)]
      rfl

/-! ## Where a write stops -/

/-- A write that ends early has stopped at a chunk that could not be copied.  Up to that chunk the
source is accessible, and outside of the range before it only the copy that failed has changed
bytes. -/
theorem writeBytes_short {src : Source} {acc : Nat → Prop} {fuel tot' off' : Nat}
    {f g : Nat → BitVec 8}
    (hok : ∀ tot m a, (src.copy tot m a).1 = true ↔ ∀ k, tot ≤ k → k < tot + m → acc k)
    (hfuel : n - tot ≤ fuel) (hrun : writeBytes src n fuel tot off f = (tot', off', g))
    (hlt : tot' < n) :
    (src.copy tot' (min (n - tot') (bsize - off' % bsize)) (off' % bsize)).1 = false ∧
      (∀ k, tot ≤ k → k < tot' → acc k) ∧ (tot' = tot ∨ off' % bsize = 0) ∧
      ∀ x, ¬(off ≤ x ∧ x < off') → g x = overlay f off' (min (n - tot') (bsize - off' % bsize))
        (src.copy tot' (min (n - tot') (bsize - off' % bsize)) (off' % bsize)).2 x := by
  induction fuel generalizing tot off f with
  | zero =>
    cases hrun
    omega
  | succ fuel ih =>
    unfold writeBytes at hrun
    split at hrun
    next hmore =>
      dsimp only at hrun
      generalize hm : min (n - tot) (bsize - off % bsize) = m at hrun
      split at hrun
      next hcopied =>
        have hpos : 0 < m := by
          simp only [bsize] at hm
          omega
        have hbounds := writeBytes_bounds (by omega) hrun
        obtain ⟨hfail, hacc, hplace, hsame⟩ := ih (by omega) hrun
        refine ⟨hfail, fun k hlo hhi => ?_, .inr ?_, fun x hx => ?_⟩
        · by_cases hk : k < tot + m
          · exact (hok _ _ _).mp hcopied k hlo hk
          · exact hacc k (by omega) hhi
        · rcases hplace with hstart | hblock
          · simp only [bsize] at *
            omega
          · exact hblock
        · rw [hsame x (by omega)]
          unfold overlay
          rw [if_neg (show ¬(off ≤ x ∧ x < off + m) by omega)]
      next hfail =>
        cases hrun
        rw [hm]
        exact ⟨Bool.eq_false_iff.mpr hfail, fun k hlo hhi => by omega, .inl rfl, fun _ _ => rfl⟩
    next =>
      cases hrun
      omega

/-- The number of bytes, of at most `n`, that are accessible from an address on. -/
def reach (mem : Memory) (r src : Nat) : Nat → Nat
  | 0 => 0
  | n + 1 => if Accessible mem r src then reach mem r (src + 1) n + 1 else 0

theorem reach_eq {p : Nat} (hp : p < n) (hbefore : ∀ k < p, Accessible mem r (src + k))
    (hstop : ¬Accessible mem r (src + p)) : reach mem r src n = p := by
  induction n generalizing src p with
  | zero => omega
  | succ n ih =>
    unfold reach
    cases p with
    | zero => exact if_neg hstop
    | succ p =>
      have hfirst : Accessible mem r src := hbefore 0 (Nat.succ_pos _)
      rw [if_pos hfirst]
      congr 1
      refine ih (Nat.lt_of_succ_lt_succ hp) (fun k hk => ?_) ?_
      · rw [Nat.add_assoc, Nat.add_comm 1]
        exact hbefore _ (Nat.succ_lt_succ hk)
      · rwa [Nat.add_assoc, Nat.add_comm 1]

/-- The start of the chunk of a write at `off` that has position `p` of the source: chunks
end at block boundaries of the file. -/
def chunkStart (off p : Nat) : Nat := if p < bsize - off % bsize then 0 else p - (off + p) % bsize

theorem chunkStart_eq {off q p : Nat} (hplace : q = 0 ∨ (off + q) % bsize = 0) (hle : q ≤ p)
    (hlt : p < q + (bsize - (off + q) % bsize)) : chunkStart off p = q := by
  unfold chunkStart
  split
  next =>
    simp only [bsize] at *
    omega
  next =>
    simp only [bsize] at *
    omega

/-! ## What is seen afterwards -/

/-- What later calls of `bread` may return: a buffer as long as it is in the cache, and the
block of the device after it was evicted.  A block that was passed to the log is not evicted before
it is on the device. -/
def LaterReads (device : Disk) (c : Ctx) (d : Disk) : Prop :=
  ∀ b, d b = c.store.disk b ∨ b ∉ c.store.touched ∧ d b = device b

/-- A write that returned `tot` has changed no byte of the old file but those it reports, and
it has made the size right. -/
def OnlyReported (sb : Superblock) (i : Nat) (device : Disk) (c c' : Ctx) (off tot : Nat) : Prop :=
  ∀ d, LaterReads device c' d → (d.dinode sb i).size.toNat = max c.ip.size.toNat (off + tot) ∧
    ∀ x < c.ip.size.toNat, ¬(off ≤ x ∧ x < off + tot) → d.fileByte sb i x = c.byte x

/-- In the chunk that has the first inaccessible byte of the source, the bytes before that one that
are copied are those the file has already. -/
def Harmless (mem : Memory) (r src : Nat) (c : Ctx) (off n : Nat) : Prop :=
  let p := reach mem r src n
  let q := chunkStart off p
  ∀ k < movedBytes ((off + q) % bsize) (userAddr mem r (src + q)) (p - q),
    off + q + k < c.ip.size.toNat → mem (userAddr mem r (src + q) + k) = c.byte (off + q + k)

section

variable {sb : Superblock} {i : Nat} {device : Disk} {c c' : Ctx} {f : Nat → BitVec 8}
  {off n fin : Nat}
variable {d : Disk}

theorem LaterReads.dinode (hd : LaterReads device c' d) (hst : Stored sb i c c' f off n fin) :
    d.dinode sb i = c'.ip := by
  have hblock : d (sb.iblock i) = c'.store.disk (sb.iblock i) :=
    (hd _).resolve_right fun h => h.1 hst.saved
  rw [← hst.dinode, Disk.dinode_of_lt hst.toWrote.toOpen.lt,
    Disk.dinode_of_lt hst.toWrote.toOpen.lt, hblock]

/-- The block with the addresses is the one the write left. -/
theorem LaterReads.indirect {a : Nat} (hd : LaterReads device c' d)
    (hclean : ∀ b, b ∉ c.store.touched → device b = c.store.disk b)
    (hst : Stored sb i c c' f off n fin) (ha : c'.ip.ref c'.store.disk .indirect = some a) :
    d a = c'.store.disk a := by
  rcases hd a with hcached | ⟨hout, hdevice⟩
  · exact hcached
  · rw [hdevice, hclean a fun hin => hout (hst.logged.mono a hin)]
    by_contra hne
    rcases hst.logged.changed a (Ne.symm hne) with hin | hlast
    · exact hout hin
    · rw [← refs_view sb i] at ha hlast
      have hplace := hst.toWrote.toOpen.sound.owned.unique hlast ha
      exact spotOf_ne_indirect _ (congrArg Prod.snd hplace)

/-- Each byte is found as the write left it or as it was before. -/
theorem LaterReads.fileByte (hd : LaterReads device c' d)
    (hclean : ∀ b, b ∉ c.store.touched → device b = c.store.disk b)
    (hst : Stored sb i c c' f off n fin) (x : Nat) :
    d.fileByte sb i x = c'.byte x ∨ d.fileByte sb i x = c.byte x := by
  have href : c'.ip.ref d = c'.ip.ref c'.store.disk := by
    funext s
    apply Dinode.ref_of_agree
    intro a ha k _
    rw [hd.indirect hclean hst ha]
  unfold Disk.fileByte Ctx.byte byteAt
  rw [hd.dinode hst, href]
  cases hb : c'.ip.ref c'.store.disk (spotOf (x / bsize)) with
  | none => exact .inl rfl
  | some b =>
    rcases hd b with hcached | ⟨hout, hdevice⟩
    · exact .inl (congrFun hcached _)
    · -- a block that is not in the log belonged to the file before
      have hold := (hst.logged.fresh _ b hb).resolve_right hout
      rw [hold]
      refine .inr (congrFun (hdevice.trans (hclean b fun hin => ?_)) _)
      exact hout (hst.logged.mono b hin)

end

/-- A write from user memory that ends early changes only what it reports, whatever is evicted
afterwards, exactly if the bytes that were stored but not reported were there before. -/
theorem short_write_iff {sb : Superblock} {i : Nat} {device : Disk} {c c' : Ctx}
    {mem : Memory} {r src tot : Nat} {off n : BitVec 32} (hsb : sb.Layout) (ho : Open sb i c)
    (hsize : c.ip.size.toNat ≤ maxFile * bsize)
    (hclean : ∀ b, b ∉ c.store.touched → device b = c.store.disk b)
    (hrun : writei sb i (.user mem r src) off n c = .ok ((tot : Nat), c'))
    (hshort : tot < n.toNat) :
    OnlyReported sb i device c c' off.toNat tot ↔ Harmless mem r src c off.toNat n.toNat := by
  have hpost := FaultM.wp_of_ok (writei_spec hsb ho (.user mem r src) off n) hrun
  have hw : Writable c.ip.size off n := by
    by_contra hw
    rw [if_neg hw] at hpost
    have hneg := hpost.1
    dsimp only at hneg
    omega
  rw [if_pos hw] at hpost
  obtain ⟨tot', fin, g, hbytes, htot, hst⟩ := hpost
  have heq : tot = tot' := Int.ofNat.inj htot
  subst heq
  obtain ⟨hfail, hacc, hplace, hsame⟩ :=
    writeBytes_short (fun _ _ _ => Source.user_ok) (Nat.sub_le ..) hbytes hshort
  have hfin : fin = off.toNat + tot := (writeBytes_bounds (Nat.zero_le _) hbytes).1
  subst hfin
  generalize hm : min (n.toNat - tot) (bsize - (off.toNat + tot) % bsize) = m at hfail hsame
  obtain ⟨j, hj, hbefore, hstop, hstored⟩ := Source.user_fail (by
    unfold pgSize
    simp only [bsize] at hm
    omega) hfail
  have hreach : reach mem r src n.toNat = tot + j := by
    refine reach_eq (by omega) (fun k hk => ?_) (by rwa [← Nat.add_assoc])
    by_cases hlt : k < tot
    · exact hacc k (Nat.zero_le _) hlt
    · have hk' := hbefore (k - tot) (by omega)
      rwa [show src + tot + (k - tot) = src + k by omega] at hk'
  have hstart : chunkStart off.toNat (tot + j) = tot := chunkStart_eq hplace (by omega) (by omega)
  have hmoved := movedBytes_le ((off.toNat + tot) % bsize) (userAddr mem r (src + tot)) j
  -- the bytes of the file, outside of what is reported
  have hbyte : ∀ x < c.ip.size.toNat, ¬(off.toNat ≤ x ∧ x < off.toNat + tot) →
      c'.byte x = overlay c.byte (off.toNat + tot) m
        ((Source.user mem r src).copy tot m ((off.toNat + tot) % bsize)).2 x := by
    intro x hx hout
    rw [hst.toWrote.byte x (by omega), hsame x hout]
  unfold Harmless
  simp only [hreach, hstart, Nat.add_sub_cancel_left]
  constructor
  · intro honly k hk hlt
    have hbytes' := (honly c'.store.disk fun _ => .inl rfl).2 (off.toNat + tot + k) hlt (by omega)
    rw [Disk.fileByte, hst.dinode, ← Ctx.byte, hbyte _ hlt (by omega), overlay,
      if_pos (by omega), Nat.add_sub_cancel_left, hstored, if_pos hk] at hbytes'
    exact hbytes'
  · intro hharmless d hd
    refine ⟨by rw [hd.dinode hst]; exact hst.size, fun x hx hout => ?_⟩
    rcases hd.fileByte hclean hst x with hfound | hfound
    · rw [hfound, hbyte x hx hout, overlay]
      split
      next hin =>
        rw [hstored]
        split
        next hk =>
          have hsame' := hharmless _ hk (by omega)
          rw [show off.toNat + tot + (x - (off.toNat + tot)) = x by omega] at hsame'
          exact hsame'
        next => rfl
      next => rfl
    · exact hfound

/-- A process with one page, which ends with four bytes of one value. -/
def fourBytes (value : BitVec 8) : Memory :=
  (onePage (dataPage 0x5000)).blit 0x5ffc [value, value, value, value]

/-- Of eight bytes from the end of the page on, four can be read.  The write reports none, but it
has changed the buffer. -/
theorem short_write_changes_buffer :
    ∃ c', writei tinySuper 1 (.user (fourBytes 1) 0x1000 0xffc) 0 8 (tinyFile 8) = .ok ((0 : Nat), c') ∧
      ¬OnlyReported tinySuper 1 (tinyFile 8).store.disk (tinyFile 8) c' 0 0 := by
  refine ⟨_, rfl, fun honly => ?_⟩
  have hbyte := (honly _ fun _ => .inl rfl).2 0 (by decide +kernel) (by decide)
  revert hbyte
  decide +kernel

/-- Zero bytes written over zero bytes. -/
theorem short_write_iff_zero :
    ∃ c', writei tinySuper 1 (.user (fourBytes 0) 0x1000 0xffc) 0 8 (tinyFile 8) = .ok ((0 : Nat), c') ∧
      OnlyReported tinySuper 1 (tinyFile 8).store.disk (tinyFile 8) c' 0 0 := by
  have hharmless : Harmless (fourBytes 0) 0x1000 0xffc (tinyFile 8) 0 8 := by
    unfold Harmless
    decide +kernel
  refine ⟨_, rfl, ?_⟩
  exact (@short_write_iff tinySuper 1 (tinyFile 8).store.disk (tinyFile 8) _ (fourBytes 0) 0x1000 0xffc 0 0
    8 tinySuper_layout (tinyFile_open (by decide) (by decide +kernel)).1 (by decide +kernel) (fun _ _ => rfl) rfl (by decide)).mpr hharmless

end Fs
end FastIpc
