import FastIpc.Fs.Growth
import Mathlib.Order.Interval.Finset.Nat

/-!
# Writing a file

`writei` as an operation on the bytes of a file.  The abstract loop `writeBytes` works on
an array of bytes; the loop of `writei` does the same to the bytes of the inode, and keeps the
file system sound and the other files as they are.

Main results:

- Theorem `writeLoop_spec`: the loop refines the abstract one.
- Theorem `iupdate_spec`: writing the inode back changes no block of a file.
- Theorem `writei_spec`: a write keeps the file system sound and every other file.
-/

namespace FastIpc
namespace Fs

open Foundation FaultM

variable {sb : Superblock} {i : Nat}

/-! ## Arrays of bytes -/

/-- The loop of `writei` on an array of bytes: the values of `tot` and `off` at the
end, and the bytes. -/
def writeBytes (src : Source) (n : Nat) :
    Nat → Nat → Nat → (Nat → BitVec 8) → Nat × Nat × (Nat → BitVec 8)
  | 0, tot, off, f => (tot, off, f)
  | fuel + 1, tot, off, f =>
    if tot < n then
      let m := min (n - tot) (bsize - off % bsize)
      let f' := overlay f off m (src.copy tot m (off % bsize)).2
      if (src.copy tot m (off % bsize)).1 then writeBytes src n fuel (tot + m) (off + m) f'
      else (tot, off, f')
    else (tot, off, f)

variable {blk : Block} {c c' : Ctx} {b n off : Nat} {f : Nat → BitVec 8}

theorem overlay_of_lt {a m x : Nat} {new : Nat → Option (BitVec 8)} (h : x < a) :
    overlay f a m new x = f x :=
  if_neg (by omega)

/-! ## One block -/

/-- A block of the inode at work is replaced. -/
structure Replaced (sb : Superblock) (i : Nat) (c c' : Ctx) (n : Nat) (blk : Block) : Prop where
  toOpen : Open sb i c'
  keeps : Keeps sb i c.store.disk c'.store.disk
  ip : c'.ip = c.ip
  ref : c'.ip.ref c'.store.disk = c.ip.ref c.store.disk
  byte : ∀ x, x / bsize < maxFile → c'.byte x = if x / bsize = n then blk (x % bsize) else c.byte x
  marked : ∀ x < sb.size, sb.marked c'.store.disk x = sb.marked c.store.disk x

theorem Replaced.of_update (hsb : sb.Layout) (ho : Open sb i c) (hn : n < maxFile)
    (hb : c.ip.ref c.store.disk (spotOf n) = some b) (hip : c'.ip = c.ip)
    (hdisk : c'.store.disk = Function.update c.store.disk b blk) : Replaced sb i c c' n blk := by
  have hview := refs_view sb i c (spotOf n)
  rw [hb] at hview
  have hdata : sb.IsData b := ho.sound.owned.cell_of_ref hview
  have hind : ∀ j, refs (c.view sb i) c.store.disk (j, .indirect) ≠ some b := by
    intro j hj
    have hplace := ho.sound.owned.unique hj hview
    exact spotOf_ne_indirect n (congrArg Prod.snd hplace).symm
  have hdinode : c'.store.disk.dinode sb = c.store.disk.dinode sb := by
    rw [hdisk]
    apply Disk.dinode_of_agree
    intro j hj
    exact Function.update_of_ne (hsb.iblock_ne hj hdata) ..
  have hrefs : refs (c'.view sb i) c'.store.disk = refs (c.view sb i) c.store.disk := by
    rw [Ctx.view, hdinode, hip, hdisk]
    exact refs_update_disk hind
  have href : c'.ip.ref c'.store.disk = c.ip.ref c.store.disk := by
    funext s
    rw [← refs_view sb i, hrefs, refs_view]
  have hmarked : ∀ x < sb.size, sb.marked c'.store.disk x = sb.marked c.store.disk x := by
    intro x hx
    rw [hdisk, Disk.marked_update (hsb.bblock_ne hx hdata)]
  constructor
  · refine ⟨ho.lt, by rw [hip]; exact ho.type, ?_, ?_⟩
    · rw [hrefs]
      apply ho.sound.owned.congr_marked
      intro x hx
      rw [hmarked x hx.2]
    · intro x hx
      rw [hmarked x (by omega)]
      exact ho.sound.low x hx
  · constructor
    · intro j _
      rw [hdinode]
    · intro j s x hj hx
      rw [← refs_view_of_ne hj] at hx
      have hne : x ≠ b := by
        intro hxb
        rw [hxb] at hx
        exact hj (congrArg Prod.fst (ho.sound.owned.unique hx hview))
      rw [hdisk, Function.update_of_ne hne]
  · exact hip
  · exact href
  · intro x hx
    unfold Ctx.byte byteAt
    rw [href]
    by_cases hxn : x / bsize = n
    · rw [if_pos hxn, hxn, hb]
      simp only [hdisk, Function.update_self]
    · rw [if_neg hxn]
      cases hy : c.ip.ref c.store.disk (spotOf (x / bsize)) with
      | none => rfl
      | some y =>
        have hne : y ≠ b := by
          intro hyb
          rw [hyb, ← refs_view sb i] at hy
          have hplace := ho.sound.owned.unique hy hview
          exact hxn (spotOf_inj hx hn (congrArg Prod.snd hplace))
        simp only [hdisk, Function.update_of_ne hne]
  · exact hmarked

theorem Replaced.spent {S : Finset Spot} (h : Replaced sb i c c' n blk) (hS : spotOf n ∈ S)
    (hb : c.ip.ref c.store.disk (spotOf n) = some b)
    (htouched : ∀ x ∈ c'.store.touched, x ∈ c.store.touched ∨ x = b) : Spent sb c c' S where
  ref s x hx := by
    rw [h.ref]
    exact hx
  enough := by
    have hmissing : missing c' S = missing c S := by
      unfold missing
      rw [h.ref]
    have hfree : freeBlocks sb c'.store.disk = freeBlocks sb c.store.disk := by
      apply Finset.filter_congr
      intro x hx
      rw [h.marked x (Finset.mem_range.mp hx)]
    unfold Enough
    rw [hmissing, hfree]
  touched x hx := by
    rcases htouched x hx with hx | rfl
    · exact .inl hx
    · exact .inr (.inl ⟨spotOf n, hS, by rw [h.ref]; exact hb⟩)

/-- The replaced block is passed to the log, or it is an exception. -/
theorem Replaced.logged {E : Nat → Prop} (h : Replaced sb i c c' n blk)
    (hdisk : c'.store.disk = Function.update c.store.disk b blk)
    (hmono : ∀ x ∈ c.store.touched, x ∈ c'.store.touched) (hb : b ∈ c'.store.touched ∨ E b) :
    Logged c c' E where
  mono := hmono
  changed x hx := by
    by_cases hxb : x = b
    · rw [hxb]
      exact hb
    · rw [hdisk, Function.update_of_ne hxb] at hx
      exact absurd rfl hx
  fresh s x hx := by
    rw [h.ref] at hx
    exact .inl hx

/-! ## The loop -/

/-- Replacing bytes of one block of a file is replacing bytes of the file. -/
theorem overlay_block {m : Nat} {new : Nat → Option (BitVec 8)} (hm : m ≤ bsize - off % bsize)
    (hblk : ∀ x, x / bsize = off / bsize → f x = blk (x % bsize)) (x : Nat) :
    (if x / bsize = off / bsize then overlay blk (off % bsize) m new (x % bsize) else f x) =
      overlay f off m new x := by
  unfold overlay
  by_cases hx : x / bsize = off / bsize
  · have hiff : (off % bsize ≤ x % bsize ∧ x % bsize < off % bsize + m) ↔
        (off ≤ x ∧ x < off + m) := by
      simp only [bsize] at *
      omega
    have hsub : x % bsize - off % bsize = x - off := by
      simp only [bsize] at *
      omega
    rw [if_pos hx, hblk x hx, hsub]
    simp only [hiff]
  · rw [if_neg hx, if_neg]
    simp only [bsize] at *
    omega

/-- The inode at work has been written to: its bytes are `f`, and the range from `lo` to
`hi` has its blocks. -/
structure Wrote (sb : Superblock) (i : Nat) (c c' : Ctx) (f : Nat → BitVec 8) (lo hi : Nat) :
    Prop where
  toOpen : Open sb i c'
  keeps : Keeps sb i c.store.disk c'.store.disk
  ip : c'.ip = { c.ip with size := c'.ip.size, addrs := c'.ip.addrs }
  byte : ∀ x < maxFile * bsize, c'.byte x = f x
  ref : ∀ s b, c.ip.ref c.store.disk s = some b → c'.ip.ref c'.store.disk s = some b
  covered : ∀ x, lo ≤ x → x < hi → (c'.ip.ref c'.store.disk (spotOf (x / bsize))).isSome

namespace Wrote

variable {c c1 c2 c' : Ctx} {f g : Nat → BitVec 8} {lo mid hi : Nat}

/-- One round: a block is found or allocated, and its bytes are replaced. -/
theorem of_replaced {m : Nat} {new : Nat → Option (BitVec 8)}
    (hf : ∀ x < maxFile * bsize, c.byte x = f x) (hgrown : Grown sb i c c1)
    (hb : c1.ip.ref c1.store.disk (spotOf (off / bsize)) = some b)
    (hrep : Replaced sb i c1 c2 (off / bsize)
      (overlay (c1.store.disk b) (off % bsize) m new))
    (hm : m ≤ bsize - off % bsize) : Wrote sb i c c2 (overlay f off m new) off (off + m) where
  toOpen := hrep.toOpen
  keeps := hgrown.keeps.trans hrep.keeps
  ip := by
    rw [hrep.ip, hgrown.ip]
  byte x hx := by
    have hblk : ∀ y, y / bsize = off / bsize → c1.byte y = c1.store.disk b (y % bsize) := by
      intro y hy
      exact byteAt_of_ref (by rw [hy]; exact hb)
    have hlt : x / bsize < maxFile := Nat.div_lt_of_lt_mul (by rwa [Nat.mul_comm])
    rw [hrep.byte x hlt, overlay_block hm hblk]
    unfold overlay
    rw [hgrown.byte, hf x hx]
  ref s x hx := by
    rw [hrep.ref]
    exact hgrown.ref s x hx
  covered x hlo hhi := by
    have hdiv : x / bsize = off / bsize := by
      simp only [bsize] at *
      omega
    rw [hrep.ref, hdiv, hb]
    rfl

theorem trans (h : Wrote sb i c c1 f lo mid) (h' : Wrote sb i c1 c2 g mid hi) :
    Wrote sb i c c2 g lo hi where
  toOpen := h'.toOpen
  keeps := h.keeps.trans h'.keeps
  ip := by
    rw [h'.ip, h.ip]
  byte := h'.byte
  ref s b hb := h'.ref s b (h.ref s b hb)
  covered x hlo hhi := by
    by_cases hx : x < mid
    · obtain ⟨b, hb⟩ := Option.isSome_iff_exists.mp (h.covered x hlo hx)
      rw [h'.ref _ b hb]
      rfl
    · exact h'.covered x (by omega) hhi

theorem shrink (h : Wrote sb i c c' f lo hi) (hle : mid ≤ hi) : Wrote sb i c c' f lo mid :=
  { h with covered := fun x hlo hmid => h.covered x hlo (by omega) }

theorem refl (ho : Open sb i c) (hf : ∀ x < maxFile * bsize, c.byte x = f x) :
    Wrote sb i c c f lo lo where
  toOpen := ho
  keeps := Keeps.refl ..
  ip := rfl
  byte := hf
  ref _ _ h := h
  covered x hlo hhi := by omega

end Wrote

/-- The loop does to the bytes of the inode what the abstract loop does to an array.  It runs out
of blocks only if there are too few for the places of the range. -/
theorem writeLoop_spec (hsb : sb.Layout) (src : Source) (n : Nat) {fuel tot : Nat} {S : Finset Spot}
    (ho : Open sb i c) (hf : ∀ x < maxFile * bsize, c.byte x = f x) (hfuel : n - tot ≤ fuel)
    (hmax : off + (n - tot) ≤ maxFile * bsize)
    (hS : ∀ x, off ≤ x → x < off + (n - tot) → needs (x / bsize) ⊆ S) :
    wp (writeLoop sb src n fuel tot off)
      (fun r c' => ∃ g, writeBytes src n fuel tot off f = (r.1, r.2, g) ∧
        c'.ip.size = c.ip.size ∧ Wrote sb i c c' g off r.2 ∧ Spent sb c c' S ∧
        Logged c c' fun x => c'.ip.ref c'.store.disk (spotOf (r.2 / bsize)) = some x)
      (fun e => e = "balloc: out of blocks" ∧ ¬Enough sb c S) c := by
  induction fuel generalizing tot off c f with
  | zero => exact ⟨f, rfl, rfl, Wrote.refl ho hf, Spent.refl sb c S, Logged.refl ..⟩
  | succ fuel ih =>
    unfold writeLoop writeBytes
    by_cases hlt : tot < n
    · rw [if_pos hlt, if_pos hlt, wp_bind]
      have hblock : off / bsize < maxFile := by
        simp only [maxFile, bsize] at *
        omega
      have hneeds : needs (off / bsize) ⊆ S := hS off (Nat.le_refl _) (by omega)
      apply wp_mono (bmap_spec hsb ho hblock) _
        fun e he => ⟨he.1, he.2 S hneeds⟩
      rintro b c1 ⟨hgrown, hb, hspent⟩
      dsimp only
      generalize hm : min (n - tot) (bsize - off % bsize) = m
      have hpos : 0 < m := by
        simp only [bsize] at hm
        omega
      have hsize1 : c1.ip.size = c.ip.size := by rw [hgrown.ip]
      rw [wp_bind, wp_get]
      -- the buffer changes in the same way whether or not the copy ends early
      have hround : ∀ s2 : Store, s2.disk = Function.update c1.store.disk b
            (overlay (c1.store.disk b) (off % bsize) m (src.copy tot m (off % bsize)).2) →
          (∀ x ∈ s2.touched, x ∈ c1.store.touched ∨ x = b) →
          (∀ x ∈ c1.store.touched, x ∈ s2.touched) →
          Wrote sb i c ⟨s2, c1.ip⟩ (overlay f off m (src.copy tot m (off % bsize)).2) off
            (off + m) ∧ Spent sb c ⟨s2, c1.ip⟩ S ∧
          c1.ip.ref s2.disk (spotOf (off / bsize)) = some b ∧
          ∀ E : Nat → Prop, (b ∈ s2.touched ∨ E b) → Logged c ⟨s2, c1.ip⟩ E := by
        intro s2 hdisk htouched hmono
        have hrep : Replaced sb i c1 ⟨s2, c1.ip⟩ (off / bsize) _ :=
          Replaced.of_update hsb hgrown.toOpen hblock hb rfl hdisk
        exact ⟨Wrote.of_replaced hf hgrown hb hrep (by omega),
          (hspent S hneeds).trans (hrep.spent (hneeds (spotOf_mem_needs _)) hb htouched),
          (congrFun hrep.ref _).trans hb,
          fun E hE => hgrown.logged.trans (hrep.logged hdisk hmono hE)⟩
      by_cases hok : (src.copy tot m (off % bsize)).1 = true
      · rw [if_pos hok, if_pos hok, wp_bind, onStore, wp_zoom, logWrite, wp_modify]
        obtain ⟨hwrote, hspent', -, hlogged⟩ := hround (c1.store.put b _) rfl
          (by simp [Store.touched, Store.put]) (by simp +contextual [Store.touched, Store.put])
        have hrest := ih hwrote.toOpen hwrote.byte (show n - (tot + m) ≤ fuel by omega)
          (show off + m + (n - (tot + m)) ≤ maxFile * bsize by omega)
          (fun x hlo hhi => hS x (by omega) (by omega))
        apply wp_mono hrest
        · rintro r c' ⟨g, hg, hsize, hrest, hspent'', hlogged'⟩
          have hround' := hlogged (fun _ => False) (.inl (by simp [Store.touched, Store.put]))
          exact ⟨g, hg, hsize.trans hsize1, hwrote.trans hrest, hspent'.trans hspent'',
            hround'.trans hlogged'⟩
        · rintro e ⟨he, hfull⟩
          exact ⟨he, fun henough => hfull (hspent'.enough.mpr henough)⟩
      · rw [if_neg hok, if_neg hok, wp_bind, onStore, wp_zoom, setBuf, wp_modify, wp_pure]
        obtain ⟨hwrote, hspent', hb', hlogged⟩ := hround ⟨_, c1.store.logged⟩ rfl
          (fun x hx => .inl hx) (fun x hx => hx)
        exact ⟨_, rfl, hsize1, hwrote.shrink (Nat.le_add_right ..), hspent', hlogged _ (.inr hb')⟩
    · rw [if_neg hlt, if_neg hlt, wp_pure]
      exact ⟨f, rfl, rfl, Wrote.refl ho hf, Spent.refl sb c S, Logged.refl ..⟩

/-! ## Writing the inode back -/

/-- The file system on disk: every block is referred to from one place at most, and the free map
says which ones are. -/
def Consistent (sb : Superblock) (d : Disk) : Prop := Sound sb (d.dinode sb) d

/-- The inode at work has been written to disk. -/
structure Saved (sb : Superblock) (i : Nat) (c c' : Ctx) : Prop where
  ip : c'.ip = c.ip
  dinode : c'.store.disk.dinode sb = c.view sb i
  consistent : Consistent sb c'.store.disk
  keeps : Keeps sb i c.store.disk c'.store.disk
  ref : c'.ip.ref c'.store.disk = c.ip.ref c.store.disk
  byte : ∀ x, c'.byte x = c.byte x
  other : ∀ x ≠ sb.iblock i, c'.store.disk x = c.store.disk x

theorem Saved.of_putDinode (hsb : sb.Layout) (hi : i < sb.ninodes)
    (hs : Sound sb (c.view sb i) c.store.disk) (hip : c'.ip = c.ip)
    (hdisk : c'.store.disk = c.store.disk.putDinode sb i c.ip) : Saved sb i c c' := by
  have hdata : ∀ {b}, sb.IsData b → c'.store.disk b = c.store.disk b := by
    intro b hb
    rw [hdisk]
    exact Disk.putDinode_of_ne (hsb.iblock_ne hi hb).symm
  have hdinode : c'.store.disk.dinode sb = c.view sb i := by
    rw [hdisk, Disk.dinode_putDinode hi]
    rfl
  have hmarked : ∀ b, sb.marked c'.store.disk b = sb.marked c.store.disk b := by
    intro b
    rw [hdisk]
    exact Disk.marked_update (hsb.iblock_ne_bblock hi b).symm _
  have hrefs : refs (c.view sb i) c'.store.disk = refs (c.view sb i) c.store.disk := by
    apply refs_of_agree
    intro j a ha k _
    rw [hdata (hs.owned.cell_of_ref ha)]
  have href : c'.ip.ref c'.store.disk = c.ip.ref c.store.disk := by
    funext s
    rw [hip]
    simpa only [refs_apply, Ctx.view_self] using congrFun hrefs (i, s)
  constructor
  · exact hip
  · exact hdinode
  · constructor
    · rw [hdinode, hrefs]
      apply hs.owned.congr_marked
      intro b _
      rw [hmarked]
    · intro b hb
      rw [hmarked]
      exact hs.low b hb
  · constructor
    · intro j hj
      rw [hdinode, Ctx.view, Function.update_of_ne hj]
    · intro j s b hj hb
      rw [← refs_view_of_ne hj] at hb
      exact hdata (hs.owned.cell_of_ref hb)
  · exact href
  · intro x
    unfold Ctx.byte byteAt
    rw [href]
    cases hb : c.ip.ref c.store.disk (spotOf (x / bsize)) with
    | none => rfl
    | some b =>
      rw [← refs_view sb i] at hb
      exact congrFun (hdata (hs.owned.cell_of_ref hb)) _
  · intro x hx
    rw [hdisk]
    exact Disk.putDinode_of_ne hx

/-- Writing the inode back makes the file system on disk the one in memory. -/
theorem iupdate_spec (hsb : sb.Layout) (hi : i < sb.ninodes)
    (hs : Sound sb (c.view sb i) c.store.disk) :
    wp (iupdate sb i)
      (fun _ c' => Saved sb i c c' ∧ c'.store.touched = c.store.touched ++ [sb.iblock i])
      (fun _ => False) c := by
  unfold iupdate
  rw [wp_bind, wp_get, onStore, wp_zoom, logWrite, wp_modify]
  exact ⟨Saved.of_putDinode hsb hi hs rfl rfl, by simp [Store.touched, Store.put]⟩

/-! ## The write -/

/-- The abstract loop counts the bytes it moves on by, and no more than asked for. -/
theorem writeBytes_bounds {src : Source} {fuel tot tot' off' : Nat} {g : Nat → BitVec 8}
    (htot : tot ≤ n) (h : writeBytes src n fuel tot off f = (tot', off', g)) :
    off' + tot = off + tot' ∧ tot ≤ tot' ∧ tot' ≤ n := by
  induction fuel generalizing tot off f with
  | zero =>
    cases h
    omega
  | succ fuel ih =>
    unfold writeBytes at h
    split at h
    next hlt =>
      dsimp only at h
      split at h
      next =>
        have := ih (by omega) h
        omega
      next =>
        cases h
        omega
    next =>
      cases h
      omega

/-- What `writei` checks: the write starts inside the file, and its end is neither beyond the
limit of a file nor of the word. -/
def Writable (size off n : BitVec 32) : Prop :=
  off.toNat ≤ size.toNat ∧ off.toNat + n.toNat < 2 ^ 32 ∧ off.toNat + n.toNat ≤ maxFile * bsize

instance (size off n : BitVec 32) : Decidable (Writable size off n) :=
  inferInstanceAs (Decidable (_ ∧ _))

theorem not_writable_iff {size off n : BitVec 32} :
    ¬Writable size off n ↔ (off > size ∨ off + n < off) ∨ (off + n).toNat > maxFile * bsize := by
  have hoff := off.isLt
  have hn := n.isLt
  rw [Writable, GT.gt, BitVec.lt_def, BitVec.lt_def, BitVec.toNat_add]
  generalize maxFile * bsize = limit
  omega

/-- The end of a write: the size grows to the end of the range, and the inode is saved. -/
theorem writeDone_spec {c1 : Ctx} {lo hi : Nat} (hsb : sb.Layout) (hsize : c1.ip.size = c.ip.size)
    (h : Wrote sb i c c1 f lo hi) (hlt : hi < 2 ^ 32) :
    wp (writeDone sb i hi)
      (fun _ c' => c'.ip.size.toNat = max c.ip.size.toNat hi ∧
        c'.store.disk.dinode sb i = c'.ip ∧ Consistent sb c'.store.disk ∧
        Wrote sb i c c' f lo hi ∧ c'.ip.ref c'.store.disk = c1.ip.ref c1.store.disk ∧
        c'.store.touched = c1.store.touched ++ [sb.iblock i] ∧
        ∀ x ≠ sb.iblock i, c'.store.disk x = c1.store.disk x)
      (fun _ => False) c1 := by
  unfold writeDone
  rw [wp_bind, wp_modify]
  generalize hc2 : (if hi > c1.ip.size.toNat then
    { c1 with ip := { c1.ip with size := BitVec.ofNat 32 hi } } else c1 : Ctx) = c2
  have hstore : c2.store = c1.store := by
    rw [← hc2]
    split <;> rfl
  have hip : c2.ip = { c1.ip with size := c2.ip.size } := by
    rw [← hc2]
    split <;> rfl
  have hmax : c2.ip.size.toNat = max c.ip.size.toNat hi := by
    rw [← hc2, ← hsize]
    split
    next hgt =>
      rw [BitVec.toNat_ofNat, Nat.mod_eq_of_lt hlt]
      omega
    next hle => omega
  have href : c2.ip.ref c2.store.disk = c1.ip.ref c1.store.disk := by
    funext s
    rw [hstore, hip]
    exact Dinode.ref_eq_of_addrs Iff.rfl rfl
  have hrefs : refs (c2.view sb i) c2.store.disk = refs (c1.view sb i) c1.store.disk := by
    have hview : c2.view sb i = Function.update (c1.view sb i) i c2.ip := by
      rw [Ctx.view, Ctx.view, hstore, Function.update_idem]
    rw [hview, hstore]
    apply refs_update_same
    · rw [Ctx.view_self, hip]
    · rw [Ctx.view_self, hip]
  have hsound : Sound sb (c2.view sb i) c2.store.disk := by
    constructor
    · rw [hrefs, hstore]
      exact h.toOpen.sound.owned
    · rw [hstore]
      exact h.toOpen.sound.low
  apply wp_mono (iupdate_spec hsb h.toOpen.lt hsound) _ fun _ h => h
  rintro _ c' ⟨hsaved, htouched⟩
  have hsaved_i : c'.store.disk.dinode sb i = c'.ip := by
    rw [hsaved.dinode, Ctx.view_self, hsaved.ip]
  refine ⟨by rw [hsaved.ip, hmax], hsaved_i, hsaved.consistent, ?_, by rw [hsaved.ref, href],
    by rw [htouched, hstore], fun x hx => by rw [hsaved.other x hx, hstore]⟩
  constructor
  · refine ⟨h.toOpen.lt, ?_, ?_⟩
    · rw [hsaved.ip, hip]
      exact h.toOpen.type
    · have hview : c'.view sb i = c'.store.disk.dinode sb := by
        rw [Ctx.view, ← hsaved_i, Function.update_eq_self]
      rw [hview]
      exact hsaved.consistent
  · refine h.keeps.trans ?_
    rw [← hstore]
    exact hsaved.keeps
  · rw [hsaved.ip, hip, h.ip]
  · intro x hx
    rw [hsaved.byte, ← h.byte x hx]
    unfold Ctx.byte
    rw [href, hstore]
  · intro s b hb
    rw [hsaved.ref, href]
    exact h.ref s b hb
  · intro x hlo hhi
    rw [hsaved.ref, href]
    exact h.covered x hlo hhi

/-- The places that a write takes. -/
def span (off n : Nat) : Finset Spot := ((Finset.Ico off (off + n)).image (· / bsize)).biUnion needs

theorem needs_subset_span {x : Nat} (hlo : off ≤ x) (hhi : x < off + n) :
    needs (x / bsize) ⊆ span off n := by
  apply Finset.subset_biUnion_of_mem needs
  exact Finset.mem_image_of_mem _ (Finset.mem_Ico.mpr ⟨hlo, hhi⟩)

/-- A write that passes its checks does to the file what the abstract loop does, and leaves the file
system consistent and the inode saved. -/
structure Stored (sb : Superblock) (i : Nat) (c c' : Ctx) (f : Nat → BitVec 8) (off n fin : Nat) :
    Prop where
  toWrote : Wrote sb i c c' f off fin
  size : c'.ip.size.toNat = max c.ip.size.toNat fin
  dinode : c'.store.disk.dinode sb i = c'.ip
  consistent : Consistent sb c'.store.disk
  touched : ∀ x ∈ c'.store.touched, x ∈ c.store.touched ∨ Loggable sb c c' (span off n) x ∨
    x = sb.iblock i
  saved : sb.iblock i ∈ c'.store.touched
  logged : Logged c c' fun x => c'.ip.ref c'.store.disk (spotOf (fin / bsize)) = some x

theorem Logged.save {c1 : Ctx}
    (h : Logged c c1 fun x => c1.ip.ref c1.store.disk (spotOf n) = some x)
    (href : c'.ip.ref c'.store.disk = c1.ip.ref c1.store.disk)
    (htouched : c'.store.touched = c1.store.touched ++ [sb.iblock i])
    (hother : ∀ x ≠ sb.iblock i, c'.store.disk x = c1.store.disk x) :
    Logged c c' fun x => c'.ip.ref c'.store.disk (spotOf n) = some x where
  mono x hx := by
    rw [htouched]
    exact List.mem_append_left _ (h.mono x hx)
  changed x hx := by
    rw [htouched, href]
    by_cases hxi : x = sb.iblock i
    · rw [hxi]
      exact .inl (List.mem_append_right _ (List.mem_singleton_self _))
    · rw [hother x hxi] at hx
      exact (h.changed x hx).imp_left (List.mem_append_left _)
  fresh s x hx := by
    rw [href] at hx
    rw [htouched]
    exact (h.fresh s x hx).imp_right (List.mem_append_left _)

/-- A write either fails its checks and does nothing, or it is done.  It runs out of blocks only if
there are too few. -/
theorem writei_spec (hsb : sb.Layout) (ho : Open sb i c) (src : Source) (off n : BitVec 32) :
    wp (writei sb i src off n)
      (fun r c' =>
        if Writable c.ip.size off n then
          ∃ tot fin f, writeBytes src n.toNat n.toNat 0 off.toNat c.byte = (tot, fin, f) ∧
            r = tot ∧ Stored sb i c c' f off.toNat n.toNat fin
        else r = -1 ∧ c' = c)
      (fun e => e = "balloc: out of blocks" ∧ Writable c.ip.size off n ∧
        ¬Enough sb c (span off.toNat n.toNat)) c := by
  unfold writei
  rw [wp_bind, wp_get]
  by_cases hw : Writable c.ip.size off n
  · have hchecks := not_or.mp (mt not_writable_iff.mpr (not_not.mpr hw))
    simp only [if_pos hw]
    rw [if_neg hchecks.1, if_neg hchecks.2, wp_bind]
    have hmax : off.toNat + (n.toNat - 0) ≤ maxFile * bsize := hw.2.2
    have hspan : ∀ x, off.toNat ≤ x → x < off.toNat + (n.toNat - 0) →
        needs (x / bsize) ⊆ span off.toNat n.toNat := fun _ => needs_subset_span
    apply wp_mono
      (writeLoop_spec hsb src n.toNat ho (fun _ _ => rfl) (Nat.sub_le ..) hmax hspan) _
      fun _ he => ⟨he.1, hw, he.2⟩
    rintro ⟨tot, fin⟩ c1 ⟨f, hbytes, hsize, hwrote, hspent, hlogged⟩
    have hbounds := writeBytes_bounds (Nat.zero_le _) hbytes
    have hlt := hw.2.1
    dsimp only at *
    rw [wp_bind]
    apply wp_mono (writeDone_spec hsb hsize hwrote (by omega))
    · rintro _ c' ⟨hmax, hdinode, hcons, hwrote', href, htouched, hother⟩
      have hsaved : sb.iblock i ∈ c'.store.touched := by
        rw [htouched]
        exact List.mem_append_right _ (List.mem_singleton_self _)
      refine ⟨tot, fin, f, hbytes, rfl, hwrote', hmax, hdinode, hcons, ?_, hsaved,
        hlogged.save href htouched hother⟩
      intro x hx
      rw [htouched, List.mem_append, List.mem_singleton] at hx
      rcases hx with hx | hx
      · rcases hspent.touched x hx with hx | hx
        · exact .inl hx
        · refine .inr (.inl ?_)
          unfold Loggable at hx ⊢
          rw [href]
          exact hx
      · exact .inr (.inr hx)
    · exact fun _ h => h.elim
  · simp only [if_neg hw]
    rcases not_writable_iff.mp hw with hrange | hlimit
    · rw [if_pos hrange]
      exact ⟨rfl, rfl⟩
    · by_cases hrange : off > c.ip.size ∨ off + n < off
      · rw [if_pos hrange]
        exact ⟨rfl, rfl⟩
      · rw [if_neg hrange, if_pos hlimit]
        exact ⟨rfl, rfl⟩

end Fs
end FastIpc
