import FastIpc.Fs.Blocks
import FastIpc.Fs.Reading

/-!
# Giving a block to a file

What `bmap` does in a sound file system: it returns the block that is there, or it takes a free
block, which is zero, so that the bytes of the file stay as they were.  No other file changes.

Main results:

- Theorem `bmap_spec`: the block is found or allocated.
-/

namespace FastIpc
namespace Fs

open Foundation FaultM
open Function (update update_idem update_of_ne update_self)

variable {sb : Superblock} {i : Nat}

/-! ## States of one inode -/

/-- The inodes, with the copy in memory for the inode at work. -/
def Ctx.view (sb : Superblock) (i : Nat) (c : Ctx) : Nat → Dinode :=
  update (c.store.disk.dinode sb) i c.ip

/-- The bytes of the inode at work. -/
def Ctx.byte (c : Ctx) (off : Nat) : BitVec 8 := byteAt (c.ip.ref c.store.disk) c.store.disk off

@[simp]
theorem Ctx.view_self (sb : Superblock) (i : Nat) (c : Ctx) : c.view sb i i = c.ip := update_self ..

theorem refs_view (sb : Superblock) (i : Nat) (c : Ctx) (s : Spot) :
    refs (c.view sb i) c.store.disk (i, s) = c.ip.ref c.store.disk s := by
  rw [refs_apply, Ctx.view_self]

theorem refs_view_of_ne {j : Nat} (hj : j ≠ i) (c : Ctx) (s : Spot) :
    refs (c.view sb i) c.store.disk (j, s) = (c.store.disk.dinode sb j).ref c.store.disk s := by
  rw [refs_apply, Ctx.view, update_of_ne hj]

/-- An allocated inode is at work in a sound file system. -/
structure Open (sb : Superblock) (i : Nat) (c : Ctx) : Prop where
  lt : i < sb.ninodes
  type : c.ip.type ≠ 0
  sound : Sound sb (c.view sb i) c.store.disk

/-- Nothing of the other inodes is touched: neither the inodes nor the blocks they refer to. -/
structure Keeps (sb : Superblock) (i : Nat) (d d' : Disk) : Prop where
  dinode : ∀ j ≠ i, d'.dinode sb j = d.dinode sb j
  block : ∀ j s b, j ≠ i → (d.dinode sb j).ref d s = some b → d' b = d b

namespace Keeps

variable {d d' d'' : Disk}

theorem refl (sb : Superblock) (i : Nat) (d : Disk) : Keeps sb i d d :=
  ⟨fun _ _ => rfl, fun _ _ _ _ _ => rfl⟩

/-- The other inodes refer to the blocks they referred to. -/
theorem ref_eq (h : Keeps sb i d d') {j : Nat} (hj : j ≠ i) (s : Spot) :
    (d'.dinode sb j).ref d' s = (d.dinode sb j).ref d s := by
  rw [h.dinode j hj]
  apply Dinode.ref_of_agree
  intro a ha k _
  rw [h.block j .indirect a hj ha]

theorem byte_eq (h : Keeps sb i d d') {j : Nat} (hj : j ≠ i) (off : Nat) :
    byteAt ((d'.dinode sb j).ref d') d' off = byteAt ((d.dinode sb j).ref d) d off := by
  unfold byteAt
  rw [h.ref_eq hj]
  cases hb : (d.dinode sb j).ref d (spotOf (off / bsize)) with
  | none => rfl
  | some b => exact congrFun (h.block j _ b hj hb) _

theorem trans (h : Keeps sb i d d') (h' : Keeps sb i d' d'') : Keeps sb i d d'' where
  dinode j hj := (h'.dinode j hj).trans (h.dinode j hj)
  block j s b hj hb := by
    rw [h'.block j s b hj (by rw [h.ref_eq hj]; exact hb)]
    exact h.block j s b hj hb

end Keeps

/-! ## The log -/

/-- What changes from one state to another is passed to the log, but for the blocks of `E`, and
so is every block that the inode at work did not refer to before. -/
structure Logged (c c' : Ctx) (E : Nat → Prop) : Prop where
  mono : ∀ x ∈ c.store.touched, x ∈ c'.store.touched
  changed : ∀ x, c'.store.disk x ≠ c.store.disk x → x ∈ c'.store.touched ∨ E x
  fresh : ∀ s x, c'.ip.ref c'.store.disk s = some x →
    c.ip.ref c.store.disk s = some x ∨ x ∈ c'.store.touched

namespace Logged

variable {c c1 c2 : Ctx} {E : Nat → Prop}

theorem refl (c : Ctx) (E : Nat → Prop) : Logged c c E :=
  ⟨fun _ h => h, fun _ h => absurd rfl h, fun _ _ h => .inl h⟩

theorem trans (h : Logged c c1 fun _ => False) (h' : Logged c1 c2 E) : Logged c c2 E where
  mono x hx := h'.mono x (h.mono x hx)
  changed x hx := by
    by_cases hsame : c2.store.disk x = c1.store.disk x
    · rw [hsame] at hx
      exact .inl (h'.mono x ((h.changed x hx).resolve_right id))
    · exact h'.changed x hsame
  fresh s x hx := by
    rcases h'.fresh s x hx with hx | hx
    · exact (h.fresh s x hx).imp_right (h'.mono x)
    · exact .inr hx

end Logged

/-! ## One block -/

/-- A free block is put into an empty place of the inode at work. -/
structure Fill (sb : Superblock) (i : Nat) (c c' : Ctx) (s : Spot) (b : Nat) : Prop where
  isData : sb.IsData b
  free : sb.marked c.store.disk b = false
  dinode : c'.store.disk.dinode sb = c.store.disk.dinode sb
  ip : c'.ip = { c.ip with addrs := c'.ip.addrs }
  empty : c.ip.ref c.store.disk s = none
  refs : refs (c'.view sb i) c'.store.disk =
    update (refs (c.view sb i) c.store.disk) (i, s) (some b)
  marked : ∀ x < sb.size,
    sb.marked c'.store.disk x = (decide (x = b) || sb.marked c.store.disk x)
  zero : c'.store.disk b = Block.zero
  same : ∀ x, sb.IsData x → x ≠ b → c.ip.ref c.store.disk .indirect ≠ some x →
    c'.store.disk x = c.store.disk x
  touched : ∀ x ∈ c'.store.touched, x ∈ c.store.touched ∨ x = b ∨ x = sb.bblock b ∨
    (∃ k, s = .entry k) ∧ c.ip.ref c.store.disk .indirect = some x
  logged : ∀ x, x ∈ c.store.touched ∨ x = b ∨ c'.store.disk x ≠ c.store.disk x →
    x ∈ c'.store.touched

namespace Fill

variable {c c' : Ctx} {s : Spot} {b : Nat}

variable (h : Fill sb i c c' s b)
include h

theorem ref_eq (t : Spot) :
    c'.ip.ref c'.store.disk t = update (c.ip.ref c.store.disk) s (some b) t := by
  rw [← refs_view sb i, h.refs]
  by_cases hts : t = s
  · rw [hts, update_self, update_self]
  · rw [update_of_ne (by simpa using hts), update_of_ne hts, refs_view]

theorem toLogged : Logged c c' fun _ => False where
  mono x hx := h.logged x (.inl hx)
  changed x hx := .inl (h.logged x (.inr (.inr hx)))
  fresh t x hx := by
    rw [h.ref_eq] at hx
    by_cases hts : t = s
    · rw [hts, update_self] at hx
      exact .inr (h.logged x (.inr (.inl (Option.some.inj hx).symm)))
    · rw [update_of_ne hts] at hx
      exact .inl hx

theorem toOpen (ho : Open sb i c) : Open sb i c' where
  lt := ho.lt
  type := by
    rw [h.ip]
    exact ho.type
  sound := by
    have hnone : Fs.refs (c.view sb i) c.store.disk (i, s) = none := by
      rw [refs_view]
      exact h.empty
    constructor
    · rw [h.refs]
      apply (ho.sound.owned.fill hnone h.isData (by rw [h.free]; exact Bool.false_ne_true)).congr_marked
      intro x hx
      rw [h.marked x hx.2]
      simp
    · intro x hx
      rw [h.marked x (by omega), ho.sound.low x hx, Bool.or_true]

/-- The inode at work does not refer to the block before. -/
theorem ref_ne (ho : Open sb i c) (p : Nat × Spot) :
    Fs.refs (c.view sb i) c.store.disk p ≠ some b := by
  intro hp
  have hmarked := ho.sound.owned.marked_of_ref hp
  rw [h.free] at hmarked
  cases hmarked

/-- A block that another place refers to stays, unless it is the indirect block. -/
theorem block_eq (ho : Open sb i c) {p : Nat × Spot} {x : Nat}
    (hp : Fs.refs (c.view sb i) c.store.disk p = some x) (hne : p ≠ (i, .indirect)) :
    c'.store.disk x = c.store.disk x := by
  apply h.same x (ho.sound.owned.cell_of_ref hp)
  · intro hxb
    exact h.ref_ne ho p (hxb ▸ hp)
  · intro hind
    rw [← refs_view sb i] at hind
    exact hne (ho.sound.owned.unique hp hind)

theorem keeps (ho : Open sb i c) : Keeps sb i c.store.disk c'.store.disk where
  dinode j _ := congrFun h.dinode j
  block j t x hj hx := by
    rw [← refs_view_of_ne hj] at hx
    apply h.block_eq ho hx
    intro heq
    exact hj (congrArg Prod.fst heq)

/-- The new block is zero, so no byte of the file changes. -/
theorem byte_eq (ho : Open sb i c) (off : Nat) : c'.byte off = c.byte off := by
  unfold Ctx.byte byteAt
  rw [h.ref_eq]
  by_cases hs : spotOf (off / bsize) = s
  · rw [hs, update_self, h.empty]
    exact congrFun h.zero _
  · rw [update_of_ne hs]
    cases hx : c.ip.ref c.store.disk (spotOf (off / bsize)) with
    | none => rfl
    | some x =>
      rw [← refs_view sb i] at hx
      have hblock := h.block_eq ho hx (by simp [spotOf_ne_indirect])
      exact congrFun hblock _

end Fill

/-! ## Free blocks -/

/-- The blocks that are not marked. -/
def freeBlocks (sb : Superblock) (d : Disk) : Finset Nat :=
  (Finset.range sb.size).filter fun b => sb.marked d b = false

/-- The places among some that refer to no block. -/
def missing (c : Ctx) (S : Finset Spot) : Finset Spot :=
  S.filter fun s => c.ip.ref c.store.disk s = none

/-- There are free blocks for all these places of the inode at work. -/
def Enough (sb : Superblock) (c : Ctx) (S : Finset Spot) : Prop :=
  (missing c S).card ≤ (freeBlocks sb c.store.disk).card

/-- Blocks that may be logged when these places get blocks: the blocks themselves, and the blocks of
the free map for the new ones. -/
def Loggable (sb : Superblock) (c c' : Ctx) (S : Finset Spot) (x : Nat) : Prop :=
  (∃ s ∈ S, c'.ip.ref c'.store.disk s = some x) ∨ ∃ s ∈ S, c.ip.ref c.store.disk s = none ∧
      ∃ b, c'.ip.ref c'.store.disk s = some b ∧ x = sb.bblock b

/-- Blocks have been taken for these places only. -/
structure Spent (sb : Superblock) (c c' : Ctx) (S : Finset Spot) : Prop where
  ref : ∀ s b, c.ip.ref c.store.disk s = some b → c'.ip.ref c'.store.disk s = some b
  enough : Enough sb c' S ↔ Enough sb c S
  touched : ∀ x ∈ c'.store.touched, x ∈ c.store.touched ∨ Loggable sb c c' S x

variable {c : Ctx} {b : Nat} {s : Spot}

theorem not_enough {S : Finset Spot} (hs : s ∈ S) (hnone : c.ip.ref c.store.disk s = none)
    (hfull : ∀ b < sb.size, sb.marked c.store.disk b = true) : ¬Enough sb c S := by
  have hfree : freeBlocks sb c.store.disk = ∅ := by
    apply Finset.filter_eq_empty_iff.mpr
    intro b hb
    rw [hfull b (Finset.mem_range.mp hb)]
    exact Bool.true_eq_false.mp
  have hmissing : s ∈ missing c S := Finset.mem_filter.mpr ⟨hs, hnone⟩
  unfold Enough
  rw [hfree, Finset.card_empty]
  exact Nat.not_le.mpr (Finset.card_pos.mpr ⟨s, hmissing⟩)

theorem Fill.ref_mono {c' : Ctx} (h : Fill sb i c c' s b) (t : Spot) (x : Nat)
    (hx : c.ip.ref c.store.disk t = some x) : c'.ip.ref c'.store.disk t = some x := by
  have hne : t ≠ s := by
    intro hts
    rw [hts, h.empty] at hx
    cases hx
  rw [h.ref_eq, update_of_ne hne]
  exact hx

/-- Both the free blocks and the places without one become fewer by one. -/
theorem Fill.enough_iff {c' : Ctx} {S : Finset Spot} (h : Fill sb i c c' s b) (hs : s ∈ S) :
    Enough sb c' S ↔ Enough sb c S := by
  have hmem : s ∈ missing c S := Finset.mem_filter.mpr ⟨hs, h.empty⟩
  have hmissing : missing c' S = (missing c S).erase s := by
    ext t
    simp only [missing, Finset.mem_filter, Finset.mem_erase, h.ref_eq]
    by_cases hts : t = s
    · simp [hts]
    · simp [hts]
  have hbmem : b ∈ freeBlocks sb c.store.disk :=
    Finset.mem_filter.mpr ⟨Finset.mem_range.mpr h.isData.2, h.free⟩
  have hfree : freeBlocks sb c'.store.disk = (freeBlocks sb c.store.disk).erase b := by
    ext x
    simp only [freeBlocks, Finset.mem_filter, Finset.mem_erase, Finset.mem_range]
    by_cases hx : x < sb.size
    · simp [hx, h.marked x hx]
    · simp [hx]
  unfold Enough
  rw [hmissing, hfree, Finset.card_erase_of_mem hmem, Finset.card_erase_of_mem hbmem]
  have hpos := Finset.card_pos.mpr ⟨s, hmem⟩
  have hbpos := Finset.card_pos.mpr ⟨b, hbmem⟩
  omega

namespace Spent

variable {c c1 c2 : Ctx} {S : Finset Spot}

theorem refl (sb : Superblock) (c : Ctx) (S : Finset Spot) : Spent sb c c S :=
  ⟨fun _ _ h => h, Iff.rfl, fun _ h => .inl h⟩

theorem of_fill (h : Fill sb i c c1 s b) (hs : s ∈ S)
    (hind : (∃ k, s = .entry k) → Spot.indirect ∈ S) : Spent sb c c1 S where
  ref := h.ref_mono
  enough := h.enough_iff hs
  touched x hx := by
    have hb : c1.ip.ref c1.store.disk s = some b := by rw [h.ref_eq, update_self]
    rcases h.touched x hx with hx | rfl | rfl | ⟨hentry, ha⟩
    · exact .inl hx
    · exact .inr (.inl ⟨s, hs, hb⟩)
    · exact .inr (.inr ⟨s, hs, h.empty, b, hb, rfl⟩)
    · exact .inr (.inl ⟨.indirect, hind hentry, h.ref_mono _ _ ha⟩)

theorem trans (h : Spent sb c c1 S) (h' : Spent sb c1 c2 S) : Spent sb c c2 S where
  ref s b hb := h'.ref s b (h.ref s b hb)
  enough := h'.enough.trans h.enough
  touched x hx := by
    rcases h'.touched x hx with hx | ⟨s, hs, hb⟩ | ⟨s, hs, hnone, b, hb, hxb⟩
    · rcases h.touched x hx with hx | ⟨s, hs, hb⟩ | ⟨s, hs, hnone, b, hb, hxb⟩
      · exact .inl hx
      · exact .inr (.inl ⟨s, hs, h'.ref s x hb⟩)
      · exact .inr (.inr ⟨s, hs, hnone, b, h'.ref s b hb, hxb⟩)
    · exact .inr (.inl ⟨s, hs, hb⟩)
    · refine .inr (.inr ⟨s, hs, ?_, b, hb, hxb⟩)
      cases hold : c.ip.ref c.store.disk s with
      | none => rfl
      | some y =>
        rw [h.ref s y hold] at hnone
        cases hnone

end Spent

/-! ## The block of an address -/

/-- What allocating a block leaves of a sound file system. -/
structure Allocated.Effect (sb : Superblock) (v : Nat → Dinode) (d d' : Disk) (b : Nat) : Prop where
  dinode : d'.dinode sb = d.dinode sb
  refs : refs v d' = Fs.refs v d
  marked : ∀ x < sb.size, sb.marked d' x = (decide (x = b) || sb.marked d x)
  same : ∀ x, sb.IsData x → x ≠ b → d' x = d x
  zero : d' b = Block.zero

/-- Only the block and its block of the free map change. -/
theorem Allocated.changed {d d' : Disk} {x : Nat} (h : Allocated sb d d' b) (hx : d' x ≠ d x) :
    x = sb.bblock b ∨ x = b := by
  by_contra hne
  rw [not_or] at hne
  apply hx
  rw [h.disk, update_of_ne hne.2, Disk.mark, update_of_ne hne.1]

theorem Allocated.effect {v : Nat → Dinode} {d d' : Disk} (hsb : sb.Layout)
    (h : Allocated sb d d' b) (hsound : Sound sb v d) : Allocated.Effect sb v d d' b := by
  have hsame : ∀ x, sb.IsData x → x ≠ b → d' x = d x := by
    intro x hx hxb
    rw [h.disk, update_of_ne hxb, Disk.mark, update_of_ne (hsb.bblock_ne h.isData.2 hx).symm]
  constructor
  · apply Disk.dinode_of_agree
    intro j hj
    rw [h.disk, update_of_ne (hsb.iblock_ne hj h.isData), Disk.mark,
      update_of_ne (hsb.iblock_ne_bblock hj b)]
  · apply refs_of_agree
    intro j a ha k _
    rw [hsame a (hsound.owned.cell_of_ref ha)]
    intro hab
    have hmarked := hsound.owned.marked_of_ref ha
    rw [hab, h.free] at hmarked
    cases hmarked
  · intro x hx
    rw [h.disk, Disk.marked_update (hsb.bblock_ne hx h.isData), Disk.marked_mark]
  · exact hsame
  · rw [h.disk, update_self]

section Bmap

variable {c : Ctx}

/-- An address is found, or a block allocated for it. -/
theorem bmapAddr_spec (hsb : sb.Layout) (ho : Open sb i c) (k : Fin (ndirect + 1)) :
    wp (bmapAddr sb k)
      (fun b c' => c' = c ∧ c.ip.ref c.store.disk (spotOfAddr k) = some b ∨
        Fill sb i c c' (spotOfAddr k) b)
      (fun e => e = "balloc: out of blocks" ∧ ∀ S, spotOfAddr k ∈ S → ¬Enough sb c S) c := by
  by_cases hzero : c.ip.addrs k = 0
  · unfold bmapAddr
    rw [wp_bind, wp_get, if_pos hzero, wp_bind, onStore, wp_zoom]
    have hempty : c.ip.ref c.store.disk (spotOfAddr k) = none := by
      rw [ref_spotOfAddr ho.type, hzero, pointer_zero]
    apply wp_mono (balloc_spec ho.sound)
    · rintro b s' ⟨halloc, htouched⟩
      rw [wp_bind, wp_modify, wp_pure]
      right
      have heff := halloc.effect hsb ho.sound
      have hpointer := hsb.pointer_eq halloc.isData
      have htoNat : (BitVec.ofNat 32 b).toNat = b := (pointer_eq_some.mp hpointer).2
      refine ⟨halloc.isData, halloc.free, heff.dinode, rfl, hempty, ?_, heff.marked, heff.zero,
        fun x hx hxb _ => heff.same x hx hxb, ?_, ?_⟩
      · have hset := refs_setAddr (v := c.view sb i) (d := s'.disk) (i := i) (k := k)
          (w := BitVec.ofNat 32 b) (by rw [Ctx.view_self]; exact ho.type)
          (by rw [Ctx.view_self]; exact hzero)
          (by
            intro _ j hj
            rw [htoNat, heff.zero]
            exact Block.word_of_zero fun _ _ _ => rfl)
        rw [hpointer, heff.refs, Ctx.view_self] at hset
        rw [← hset, Ctx.view, Ctx.view, heff.dinode, update_idem]
      · intro x hx
        replace hx : x ∈ s'.touched := hx
        rw [htouched] at hx
        simp only [List.mem_append, List.mem_cons, List.not_mem_nil, or_false] at hx
        tauto
      · intro x hx
        show x ∈ s'.touched
        rw [htouched]
        simp only [List.mem_append, List.mem_cons, List.not_mem_nil, or_false]
        rcases hx with hx | hx | hx
        · exact .inl hx
        · exact .inr (.inr hx)
        · exact .inr (halloc.changed hx)
    · rintro e ⟨he, hfull⟩
      exact ⟨he, fun S hS => not_enough hS hempty hfull⟩
  · apply wp_of_run (bmapAddr_of_ne hzero)
    left
    refine ⟨rfl, ?_⟩
    rw [ref_spotOfAddr ho.type, pointer_eq_some]
    exact ⟨hzero, rfl⟩

/-- An entry of the indirect block is found, or a block allocated for it. -/
theorem bmapEntry_spec (hsb : sb.Layout) (ho : Open sb i c) {a : Nat}
    (hind : c.ip.ref c.store.disk .indirect = some a) (k : Fin nindirect) :
    wp (bmapEntry sb a k)
      (fun b c' => c' = c ∧ c.ip.ref c.store.disk (.entry k) = some b ∨ Fill sb i c c' (.entry k) b)
      (fun e => e = "balloc: out of blocks" ∧ ∀ S, Spot.entry k ∈ S → ¬Enough sb c S) c := by
  have hentry : c.ip.ref c.store.disk (.entry k) = pointer ((c.store.disk a).word (4 * k)) := by
    rw [Dinode.ref_entry ho.type, hind, Option.bind_some]
  by_cases hzero : (c.store.disk a).word (4 * k) = 0
  · unfold bmapEntry
    rw [wp_bind, wp_get, if_pos hzero, wp_bind, onStore, wp_zoom]
    have hempty : c.ip.ref c.store.disk (.entry k) = none := by rw [hentry, hzero, pointer_zero]
    apply wp_mono (balloc_spec ho.sound)
    · rintro b s' ⟨halloc, htouched⟩
      right
      have heff := halloc.effect hsb ho.sound
      have hpointer := hsb.pointer_eq halloc.isData
      have hview := refs_view sb i c .indirect
      rw [hind] at hview
      have ha : sb.IsData a := ho.sound.owned.cell_of_ref hview
      have hab : b ≠ a := by
        intro hba
        have hmarked := ho.sound.owned.marked_of_ref hview
        rw [← hba, halloc.free] at hmarked
        cases hmarked
      have hset := refs_setEntry (v := c.view sb i) (d := s'.disk) (i := i) (a := a)
        (by rw [heff.refs]; exact hview)
        (by
          intro j hj
          rw [heff.refs] at hj
          exact congrArg Prod.fst (ho.sound.owned.unique hj hview))
        k (BitVec.ofNat 32 b)
      rw [hpointer, heff.refs] at hset
      have hdinode : ∀ blk, Disk.dinode sb (update s'.disk a blk) = c.store.disk.dinode sb := by
        intro blk
        rw [← heff.dinode]
        apply Disk.dinode_of_agree
        intro j hj
        exact update_of_ne (hsb.iblock_ne hj ha) ..
      refine ⟨halloc.isData, halloc.free, hdinode _, rfl, hempty, ?_, ?_, ?_, ?_, ?_, ?_⟩
      · show refs (update (Disk.dinode sb (update s'.disk a _)) i c.ip) _ = _
        rw [hdinode]
        exact hset
      · intro x hx
        show sb.marked (update s'.disk a _) x = _
        rw [Disk.marked_update (hsb.bblock_ne hx ha), heff.marked x hx]
      · show update s'.disk a _ b = _
        rw [update_of_ne hab, heff.zero]
      · intro x hx hxb hxa
        have hne : x ≠ a := by
          intro heq
          rw [heq] at hxa
          exact hxa hind
        show update s'.disk a _ x = _
        rw [update_of_ne hne, heff.same x hx hxb]
      · intro x hx
        replace hx : x ∈ s'.touched ∨ x = a := by
          simpa [Store.touched, Store.put] using hx
        rw [htouched] at hx
        simp only [List.mem_append, List.mem_cons, List.not_mem_nil, or_false] at hx
        rcases hx with (hx | hx | hx) | hx
        · exact .inl hx
        · exact .inr (.inr (.inl hx))
        · exact .inr (.inl hx)
        · exact .inr (.inr (.inr ⟨⟨k, rfl⟩, hx ▸ hind⟩))
      · intro x hx
        suffices h : x ∈ s'.touched ∨ x = a by
          simpa [Store.touched, Store.put] using h
        rw [htouched]
        simp only [List.mem_append, List.mem_cons, List.not_mem_nil, or_false]
        rcases hx with hx | hx | hx
        · exact .inl (.inl hx)
        · exact .inl (.inr (.inr hx))
        · by_cases hxa : x = a
          · exact .inr hxa
          · replace hx : update s'.disk a _ x ≠ c.store.disk x := hx
            rw [update_of_ne hxa] at hx
            exact .inl (.inr (halloc.changed hx))
    · rintro e ⟨he, hfull⟩
      exact ⟨he, fun S hS => not_enough hS hempty hfull⟩
  · apply wp_of_run (bmapEntry_of_ne hzero)
    left
    refine ⟨rfl, ?_⟩
    rw [hentry, pointer_eq_some]
    exact ⟨hzero, rfl⟩

end Bmap

/-! ## The block of a file -/

/-- The inode at work may have got blocks; all else is kept. -/
structure Grown (sb : Superblock) (i : Nat) (c c' : Ctx) : Prop where
  toOpen : Open sb i c'
  keeps : Keeps sb i c.store.disk c'.store.disk
  ip : c'.ip = { c.ip with addrs := c'.ip.addrs }
  byte : ∀ off, c'.byte off = c.byte off
  ref : ∀ s b, c.ip.ref c.store.disk s = some b → c'.ip.ref c'.store.disk s = some b
  logged : Logged c c' fun _ => False

namespace Grown

variable {c c' c'' : Ctx}

theorem refl (ho : Open sb i c) : Grown sb i c c :=
  ⟨ho, Keeps.refl .., rfl, fun _ => rfl, fun _ _ h => h, Logged.refl ..⟩

theorem of_fill (ho : Open sb i c) (h : Fill sb i c c' s b) : Grown sb i c c' where
  toOpen := h.toOpen ho
  keeps := h.keeps ho
  ip := h.ip
  byte := h.byte_eq ho
  ref := h.ref_mono
  logged := h.toLogged

theorem trans (h : Grown sb i c c') (h' : Grown sb i c' c'') : Grown sb i c c'' where
  toOpen := h'.toOpen
  keeps := h.keeps.trans h'.keeps
  ip := by
    rw [h'.ip, h.ip]
  byte off := (h'.byte off).trans (h.byte off)
  ref s b hb := h'.ref s b (h.ref s b hb)
  logged := h.logged.trans h'.logged

end Grown

/-- The places that a block of a file takes: its own, and for most blocks the indirect block. -/
def needs (n : Nat) : Finset Spot := if n < ndirect then {spotOf n} else {.indirect, spotOf n}

theorem spotOf_mem_needs (n : Nat) : spotOf n ∈ needs n := by
  unfold needs
  split <;> simp

/-- The block of a file is found or allocated. -/
theorem bmap_spec (hsb : sb.Layout) (ho : Open sb i c) {n : Nat} (hn : n < maxFile) :
    wp (bmap sb n)
      (fun b c' => Grown sb i c c' ∧ c'.ip.ref c'.store.disk (spotOf n) = some b ∧
        ∀ S, needs n ⊆ S → Spent sb c c' S)
      (fun e => e = "balloc: out of blocks" ∧ ∀ S, needs n ⊆ S → ¬Enough sb c S) c := by
  unfold bmap needs
  by_cases hlt : n < ndirect
  · rw [dif_pos hlt, if_pos hlt, spotOf_of_lt hlt, ← spotOfAddr_castSucc]
    apply wp_mono (bmapAddr_spec hsb ho _)
    · rintro b c' (⟨rfl, hb⟩ | hfill)
      · exact ⟨Grown.refl ho, hb, fun S _ => Spent.refl sb _ S⟩
      · refine ⟨Grown.of_fill ho hfill, by rw [hfill.ref_eq, update_self], ?_⟩
        intro S hS
        apply Spent.of_fill hfill (hS (Finset.mem_singleton_self _))
        rw [spotOfAddr_castSucc]
        rintro ⟨k, hk⟩
        cases hk
    · rintro e ⟨he, hfull⟩
      exact ⟨he, fun S hS => hfull S (hS (Finset.mem_singleton_self _))⟩
  · have hk : n - ndirect < nindirect := by
      simp only [maxFile, ndirect, nindirect] at *
      omega
    rw [dif_neg hlt, if_neg hlt, if_pos hk, wp_bind, spotOf_of_ge (by omega)]
    have haddr := bmapAddr_spec hsb ho indirectAddr
    rw [spotOfAddr_indirectAddr] at haddr
    apply wp_mono haddr
    · intro a c1 h1
      -- the indirect block is there now
      have hgrown : Grown sb i c c1 ∧ c1.ip.ref c1.store.disk .indirect = some a ∧
          ∀ S, Spot.indirect ∈ S → Spent sb c c1 S := by
        rcases h1 with ⟨rfl, ha⟩ | hfill
        · exact ⟨Grown.refl ho, ha, fun S _ => Spent.refl sb _ S⟩
        · exact ⟨Grown.of_fill ho hfill, by rw [hfill.ref_eq, update_self],
            fun S hS => Spent.of_fill hfill hS fun _ => hS⟩
      obtain ⟨hgrown, hind, hspent⟩ := hgrown
      have hval : (Fin.ofNat nindirect (n - ndirect)).val = n - ndirect := by
        rw [Fin.val_ofNat, Nat.mod_eq_of_lt hk]
      have hentry := bmapEntry_spec hsb hgrown.toOpen hind (Fin.ofNat nindirect (n - ndirect))
      rw [hval] at hentry
      apply wp_mono hentry
      · rintro b c2 (⟨rfl, hb⟩ | hfill)
        · exact ⟨hgrown, hb, fun S hS => hspent S (hS (Finset.mem_insert_self ..))⟩
        · refine ⟨hgrown.trans (Grown.of_fill hgrown.toOpen hfill),
            by rw [hfill.ref_eq, update_self], ?_⟩
          intro S hS
          have hindS := hS (Finset.mem_insert_self ..)
          have hentryS := hS (Finset.mem_insert_of_mem (Finset.mem_singleton_self _))
          exact (hspent S hindS).trans (Spent.of_fill hfill hentryS fun _ => hindS)
      · rintro e ⟨he, hfull⟩
        refine ⟨he, ?_⟩
        intro S hS henough
        have hindS := hS (Finset.mem_insert_self ..)
        have hentryS := hS (Finset.mem_insert_of_mem (Finset.mem_singleton_self _))
        exact hfull S hentryS ((hspent S hindS).enough.mpr henough)
    · rintro e ⟨he, hfull⟩
      exact ⟨he, fun S hS => hfull S (hS (Finset.mem_insert_self ..))⟩

end Fs
end FastIpc
