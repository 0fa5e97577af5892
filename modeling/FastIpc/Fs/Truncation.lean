import FastIpc.Fs.Writing

/-!
# Discarding a file

`itrunc` in a sound file system.  Between the release of a block and the change of the place
that referred to it the free map and the references disagree; `Freeing` says by how much.  No
block is released twice, so the panic of `bfree` is not reached.

Main results:

- Theorem `itrunc_spec`: all blocks of the inode are released, and nothing else changes.
- Theorem `ifree_spec`: the same for an inode that is freed.
- Theorem `ialloc_spec`: a new inode refers to no block.
-/

namespace FastIpc
namespace Fs

open Foundation FaultM
open Function (update update_apply update_eq_self update_idem update_of_ne update_self)

variable {sb : Superblock} {i : Nat}

/-! ## Blocks on their way out -/

/-- The file system apart from the free map is the same. -/
structure SameData (sb : Superblock) (c c' : Ctx) : Prop where
  ip : c'.ip = c.ip
  dinode : c'.store.disk.dinode sb = c.store.disk.dinode sb
  data : ∀ b, sb.IsData b → c'.store.disk b = c.store.disk b

/-- The blocks of the places in `gone` have been released, the places still refer to them. -/
structure Freeing (sb : Superblock) (i : Nat) (c : Ctx) (gone : List (Nat × Spot)) : Prop where
  owned : Exclusive (refs (c.view sb i) c.store.disk) sb.IsData fun b =>
    sb.marked c.store.disk b = true ∨ ∃ p ∈ gone, refs (c.view sb i) c.store.disk p = some b
  freed : ∀ p ∈ gone, ∀ b, refs (c.view sb i) c.store.disk p = some b →
    sb.marked c.store.disk b = false
  low : ∀ b < sb.size - sb.nblocks, sb.marked c.store.disk b = true

namespace SameData

variable {c c1 c2 : Ctx}

theorem refl (sb : Superblock) (c : Ctx) : SameData sb c c := ⟨rfl, rfl, fun _ _ => rfl⟩

theorem trans (h : SameData sb c c1) (h' : SameData sb c1 c2) : SameData sb c c2 where
  ip := h'.ip.trans h.ip
  dinode := h'.dinode.trans h.dinode
  data b hb := (h'.data b hb).trans (h.data b hb)

variable (h : SameData sb c c1)
  (hdata : ∀ {p b}, refs (c.view sb i) c.store.disk p = some b → sb.IsData b)
include h hdata

theorem refs_eq : refs (c1.view sb i) c1.store.disk = refs (c.view sb i) c.store.disk := by
  rw [Ctx.view, h.ip, h.dinode]
  apply refs_of_agree
  intro j a ha k _
  rw [h.data a (hdata ha)]

theorem keeps : Keeps sb i c.store.disk c1.store.disk where
  dinode j _ := congrFun h.dinode j
  block j s b hj hb := by
    rw [← refs_view_of_ne hj] at hb
    exact h.data b (hdata hb)

end SameData

namespace Freeing

variable {c c' : Ctx} {gone : List (Nat × Spot)} {p : Nat × Spot} {b : Nat}

theorem of_sound (h : Sound sb (c.view sb i) c.store.disk) : Freeing sb i c [] where
  owned := by
    apply h.owned.congr_marked
    intro b _
    simp
  freed := by simp
  low := h.low

/-- A place that refers to nothing has nothing to release. -/
theorem cons_of_none (h : Freeing sb i c gone)
    (hp : refs (c.view sb i) c.store.disk p = none) : Freeing sb i c (p :: gone) where
  owned := by
    apply h.owned.congr_marked
    intro b _
    simp [hp]
  freed q hq b hb := by
    rcases List.mem_cons.mp hq with rfl | hq
    · rw [hp] at hb
      cases hb
    · exact h.freed q hq b hb
  low := h.low

theorem marked_of_ref (h : Freeing sb i c gone) (hp : p ∉ gone)
    (hb : refs (c.view sb i) c.store.disk p = some b) : sb.marked c.store.disk b = true := by
  rcases h.owned.marked_of_ref hb with hmarked | ⟨q, hq, hqb⟩
  · exact hmarked
  · rw [h.owned.unique hb hqb] at hp
    exact absurd hq hp

theorem cons_of_unmark (hsb : sb.Layout) (h : Freeing sb i c gone) (hp : p ∉ gone)
    (hb : refs (c.view sb i) c.store.disk p = some b) (hip : c'.ip = c.ip)
    (hdisk : c'.store.disk = c.store.disk.unmark sb b) :
    SameData sb c c' ∧ Freeing sb i c' (p :: gone) := by
  have hdata : sb.IsData b := h.owned.cell_of_ref hb
  have hsame : SameData sb c c' := by
    refine ⟨hip, ?_, ?_⟩
    · rw [hdisk]
      apply Disk.dinode_of_agree
      intro j hj
      exact update_of_ne (hsb.iblock_ne_bblock hj b) ..
    · intro x hx
      rw [hdisk]
      exact update_of_ne (hsb.bblock_ne hdata.2 hx).symm ..
  have hrefs := hsame.refs_eq h.owned.cell_of_ref
  have hmarked : ∀ x, sb.marked c'.store.disk x = (decide (x ≠ b) && sb.marked c.store.disk x) := by
    intro x
    rw [hdisk, Disk.marked_unmark]
  refine ⟨hsame, ?_, ?_, ?_⟩
  · rw [hrefs]
    apply h.owned.congr_marked
    intro x _
    rw [hmarked]
    by_cases hxb : x = b
    · simp [hxb, hb, h.marked_of_ref hp hb]
    · have hne : ¬some b = some x := by simpa using Ne.symm hxb
      simp [hxb, hb, hne]
  · intro q hq x hx
    rw [hrefs] at hx
    rw [hmarked]
    rcases List.mem_cons.mp hq with rfl | hq
    · rw [hb, Option.some.injEq] at hx
      simp [hx]
    · rw [h.freed q hq x hx, Bool.and_false]
  · intro x hx
    have hne : x ≠ b := by
      intro hxb
      rw [hxb] at hx
      exact absurd hdata.1 (by omega)
    rw [hmarked, h.low x hx]
    simp [hne]

/-- Once the places that are gone refer to nothing, the file system is sound. -/
theorem sound (h : Freeing sb i c gone) (hstore : c'.store = c.store)
    (hrefs : ∀ p, refs (c'.view sb i) c.store.disk p =
      if p ∈ gone then none else refs (c.view sb i) c.store.disk p) :
    Sound sb (c'.view sb i) c'.store.disk := by
  rw [hstore]
  refine ⟨h.owned.restrict ?_ ?_, h.low⟩
  · intro p b hp
    rw [hrefs] at hp
    split at hp
    next => cases hp
    next => exact hp
  · intro b hb
    constructor
    · intro hmarked
      obtain ⟨p, hp⟩ := (h.owned.marked_iff hb).mp (.inl hmarked)
      have hgone : p ∉ gone := by
        intro hin
        rw [h.freed p hin b hp] at hmarked
        cases hmarked
      exact ⟨p, by rw [hrefs, if_neg hgone]; exact hp⟩
    · rintro ⟨p, hp⟩
      rw [hrefs] at hp
      split at hp
      next => cases hp
      next hgone => exact h.marked_of_ref hgone hp

end Freeing

/-! ## Releasing the blocks -/

section Free

variable {c : Ctx} {gone : List (Nat × Spot)}

theorem bfree_freeing (hsb : sb.Layout) (h : Freeing sb i c gone) {p : Nat × Spot} {b : Nat}
    (hp : p ∉ gone) (hb : refs (c.view sb i) c.store.disk p = some b) :
    wp (onStore (bfree sb b))
      (fun _ c' => SameData sb c c' ∧ Freeing sb i c' (p :: gone)) (fun _ => False) c := by
  rw [onStore, wp_zoom]
  apply wp_mono (bfree_spec (h.marked_of_ref hp hb)) _ fun _ h => h
  intro _ s' hs'
  exact h.cons_of_unmark hsb hp hb rfl hs'

/-- The block of an address is released, and the address cleared. -/
theorem freeAddr_spec (hsb : sb.Layout) (htype : c.ip.type ≠ 0) (h : Freeing sb i c gone)
    {k : Fin (ndirect + 1)} (hk : (i, spotOfAddr k) ∉ gone) :
    wp (freeAddr sb k)
      (fun _ c' => ∃ c1, SameData sb c c1 ∧ Freeing sb i c1 ((i, spotOfAddr k) :: gone) ∧
        c' = { c1 with ip := c1.ip.setAddr k 0 })
      (fun _ => False) c := by
  have href : refs (c.view sb i) c.store.disk (i, spotOfAddr k) = pointer (c.ip.addrs k) := by
    rw [refs_view, ref_spotOfAddr htype]
  unfold freeAddr
  rw [wp_bind, wp_get]
  by_cases hzero : c.ip.addrs k = 0
  · rw [if_neg (not_not.mpr hzero), wp_pure]
    refine ⟨c, SameData.refl sb c, h.cons_of_none ?_, ?_⟩
    · rw [href, hzero, pointer_zero]
    · have hset : c.ip.setAddr k 0 = c.ip := by
        unfold Dinode.setAddr
        rw [← hzero, update_eq_self]
      rw [hset]
  · rw [if_pos hzero, wp_bind]
    have hb : pointer (c.ip.addrs k) = some (c.ip.addrs k).toNat := pointer_eq_some.mpr ⟨hzero, rfl⟩
    apply wp_mono (bfree_freeing hsb h hk (href.trans hb)) _ fun _ h => h
    rintro _ c1 ⟨hsame, hfreeing⟩
    rw [wp_modify]
    exact ⟨c1, hsame, hfreeing, rfl⟩

/-- The blocks of the entries of the indirect block are released, one after the other. -/
theorem freeEntries_spec (hsb : sb.Layout) (h : Freeing sb i c gone) {a : Nat}
    (hind : c.ip.ref c.store.disk .indirect = some a) {l : List (Fin nindirect)} (hnodup : l.Nodup)
    (hgone : ∀ k ∈ l, (i, Spot.entry k) ∉ gone) :
    wp (freeEntries sb a l)
      (fun _ c' => SameData sb c c' ∧ ∃ gone', Freeing sb i c' gone' ∧
        ∀ p, p ∈ gone' ↔ p ∈ gone ∨ ∃ k ∈ l, p = (i, .entry k))
      (fun _ => False) c := by
  induction l generalizing c gone with
  | nil => exact ⟨SameData.refl sb c, gone, h, by simp⟩
  | cons k rest ih =>
    have htype : c.ip.type ≠ 0 := by
      intro htype
      rw [Dinode.ref_of_free htype] at hind
      cases hind
    have href : refs (c.view sb i) c.store.disk (i, .entry k) =
        pointer ((c.store.disk a).word (4 * k)) := by
      rw [refs_view, Dinode.ref_entry htype, hind, Option.bind_some]
    have hk : (i, Spot.entry k) ∉ gone := hgone k (List.mem_cons_self ..)
    -- what is left of the list, with this entry gone
    have hrest : ∀ c1, SameData sb c c1 → Freeing sb i c1 ((i, .entry k) :: gone) →
        wp (freeEntries sb a rest)
          (fun _ c' => SameData sb c c' ∧ ∃ gone', Freeing sb i c' gone' ∧
            ∀ p, p ∈ gone' ↔ p ∈ gone ∨ ∃ k' ∈ k :: rest, p = (i, .entry k'))
          (fun _ => False) c1 := by
      intro c1 hsame hfreeing
      have hind1 : c1.ip.ref c1.store.disk .indirect = some a := by
        rw [← refs_view sb i, hsame.refs_eq h.owned.cell_of_ref, refs_view]
        exact hind
      have hgone1 : ∀ k' ∈ rest, (i, Spot.entry k') ∉ (i, Spot.entry k) :: gone := by
        intro k' hk' hin
        rcases List.mem_cons.mp hin with heq | hin
        · simp only [Prod.mk.injEq, Spot.entry.injEq, true_and] at heq
          rw [heq] at hk'
          exact (List.nodup_cons.mp hnodup).1 hk'
        · exact hgone k' (List.mem_cons_of_mem _ hk') hin
      apply wp_mono (ih hfreeing hind1 (List.nodup_cons.mp hnodup).2 hgone1) _ fun _ h => h
      rintro _ c' ⟨hsame', gone', hfreeing', hmem⟩
      refine ⟨hsame.trans hsame', gone', hfreeing', ?_⟩
      intro p
      rw [hmem]
      simp only [List.mem_cons, exists_eq_or_imp]
      tauto
    unfold freeEntries
    rw [wp_bind, wp_get]
    by_cases hzero : (c.store.disk a).word (4 * k) = 0
    · simp only [hzero, ne_eq, not_true_eq_false, if_false]
      apply hrest c (SameData.refl sb c)
      apply h.cons_of_none
      rw [href, hzero, pointer_zero]
    · simp only [ne_eq, hzero, not_false_eq_true, if_true]
      rw [wp_bind]
      have hb := href.trans (pointer_eq_some.mpr ⟨hzero, rfl⟩)
      apply wp_mono (bfree_freeing hsb h hk hb) _ fun _ h => h
      rintro _ c1 ⟨hsame, hfreeing⟩
      exact hrest c1 hsame hfreeing

end Free

/-! ## Truncation -/

/-- The inode at work may have lost blocks; all else is kept. -/
structure Shrunk (sb : Superblock) (i : Nat) (c c' : Ctx) : Prop where
  toOpen : Open sb i c'
  keeps : Keeps sb i c.store.disk c'.store.disk
  ip : c'.ip = { c.ip with addrs := c'.ip.addrs }
  zero : ∀ k, c.ip.addrs k = 0 → c'.ip.addrs k = 0

namespace Shrunk

variable {c c1 c2 : Ctx}

theorem refl (ho : Open sb i c) : Shrunk sb i c c := ⟨ho, Keeps.refl .., rfl, fun _ h => h⟩

theorem trans (h : Shrunk sb i c c1) (h' : Shrunk sb i c1 c2) : Shrunk sb i c c2 where
  toOpen := h'.toOpen
  keeps := h.keeps.trans h'.keeps
  ip := by
    rw [h'.ip, h.ip]
  zero k hk := h'.zero k (h.zero k hk)

/-- The places whose blocks were released are cleared together with an address. -/
theorem of_freeing {gone : List (Nat × Spot)} {k : Fin (ndirect + 1)} (ho : Open sb i c)
    (hsame : SameData sb c c1) (hfreeing : Freeing sb i c1 gone)
    (hrefs : ∀ p, refs (update (c1.view sb i) i ((c1.view sb i i).setAddr k 0))
      c1.store.disk p = if p ∈ gone then none else refs (c1.view sb i) c1.store.disk p) :
    Shrunk sb i c { c1 with ip := c1.ip.setAddr k 0 } where
  toOpen := by
    refine ⟨ho.lt, ?_, hfreeing.sound rfl ?_⟩
    · show c1.ip.type ≠ 0
      rw [hsame.ip]
      exact ho.type
    · intro p
      rw [← hrefs, Ctx.view, Ctx.view, update_idem, update_self]
  keeps := hsame.keeps ho.sound.owned.cell_of_ref
  ip := by
    show c1.ip.setAddr k 0 = _
    rw [hsame.ip]
    rfl
  zero j hj := by
    show update c1.ip.addrs k 0 j = 0
    by_cases hjk : j = k
    · rw [hjk, update_self]
    · rw [update_of_ne hjk, hsame.ip, hj]

end Shrunk

/-- An inode without an indirect block has no entries either. -/
theorem refs_clearIndirect {v : Nat → Dinode} {d : Disk} (p : Nat × Spot) :
    refs (update v i ((v i).setAddr indirectAddr 0)) d p =
      if p = (i, .indirect) ∨ ∃ k, p = (i, .entry k) then none else refs v d p := by
  obtain ⟨j, s⟩ := p
  rw [refs_apply]
  by_cases hj : j = i
  · subst hj
    rw [update_self]
    have hnone : pointer 0#32 = none := pointer_zero
    cases s with
    | direct k => simp [refs, Dinode.ref]
    | indirect => simp [Dinode.ref, hnone]
    | entry k => simp [Dinode.ref, hnone]
  · rw [update_of_ne hj]
    simp [hj, refs]

section Truncate

variable {c : Ctx}

theorem freeDirect_spec (hsb : sb.Layout) (ho : Open sb i c) (l : List (Fin ndirect)) :
    wp (freeDirect sb l)
      (fun _ c' => Shrunk sb i c c' ∧ ∀ k ∈ l, c'.ip.addrs k.castSucc = 0) (fun _ => False) c := by
  induction l generalizing c with
  | nil => exact ⟨Shrunk.refl ho, by simp⟩
  | cons k rest ih =>
    unfold freeDirect
    rw [wp_bind]
    have hfree := freeAddr_spec hsb ho.type (Freeing.of_sound ho.sound)
      (show (i, spotOfAddr k.castSucc) ∉ [] from List.not_mem_nil)
    apply wp_mono hfree _ fun _ h => h
    rintro _ c' ⟨c1, hsame, hfreeing, rfl⟩
    have hshrunk : Shrunk sb i c { c1 with ip := c1.ip.setAddr k.castSucc 0 } := by
      apply Shrunk.of_freeing ho hsame hfreeing
      intro p
      have htype : (c1.view sb i i).type ≠ 0 := by
        rw [Ctx.view_self, hsame.ip]
        exact ho.type
      rw [refs_setDirect htype, pointer_zero, spotOfAddr_castSucc]
      simp only [List.mem_singleton, update_apply]
    apply wp_mono (ih hshrunk.toOpen) _ fun _ h => h
    rintro _ c2 ⟨hrest, hzero⟩
    refine ⟨hshrunk.trans hrest, ?_⟩
    intro j hj
    rcases List.mem_cons.mp hj with rfl | hj
    · exact hrest.zero _ (update_self ..)
    · exact hzero j hj

/-- The indirect block is released, with the blocks of its entries. -/
theorem freeIndirect_spec (hsb : sb.Layout) (ho : Open sb i c) :
    wp (freeIndirect sb)
      (fun _ c' => Shrunk sb i c c' ∧ c'.ip.addrs indirectAddr = 0) (fun _ => False) c := by
  unfold freeIndirect
  rw [wp_bind, wp_get]
  by_cases hzero : c.ip.addrs indirectAddr = 0
  · rw [if_neg (not_not.mpr hzero)]
    exact ⟨Shrunk.refl ho, hzero⟩
  · rw [if_pos hzero, wp_bind]
    have hind : c.ip.ref c.store.disk .indirect = some (c.ip.addrs indirectAddr).toNat := by
      rw [Dinode.ref_indirect ho.type]
      exact pointer_eq_some.mpr ⟨hzero, rfl⟩
    have hentries := freeEntries_spec hsb (Freeing.of_sound ho.sound) hind
      (List.nodup_finRange nindirect) (fun _ _ => List.not_mem_nil)
    apply wp_mono hentries _ fun _ h => h
    rintro _ c1 ⟨hsame, gone, hfreeing, hmem⟩
    have htype : c1.ip.type ≠ 0 := by
      rw [hsame.ip]
      exact ho.type
    have hgone : (i, spotOfAddr indirectAddr) ∉ gone := by
      rw [hmem, spotOfAddr_indirectAddr]
      simp
    apply wp_mono (freeAddr_spec hsb htype hfreeing hgone) _ fun _ h => h
    rintro _ c' ⟨c2, hsame2, hfreeing2, rfl⟩
    refine ⟨Shrunk.of_freeing ho (hsame.trans hsame2) hfreeing2 ?_, by simp⟩
    intro p
    rw [refs_clearIndirect]
    simp [hmem, spotOfAddr_indirectAddr]

/-- The inode at work has been written to disk without blocks. -/
structure Truncated (sb : Superblock) (i : Nat) (c c' : Ctx) : Prop where
  ip : c'.ip = { c.ip with size := 0, addrs := fun _ => 0 }
  dinode : c'.store.disk.dinode sb i = c'.ip
  consistent : Consistent sb c'.store.disk
  keeps : Keeps sb i c.store.disk c'.store.disk

/-- All blocks of the inode are released. -/
theorem itrunc_spec (hsb : sb.Layout) (ho : Open sb i c) :
    wp (itrunc sb i) (fun _ c' => Truncated sb i c c') (fun _ => False) c := by
  unfold itrunc
  rw [wp_bind]
  apply wp_mono (freeDirect_spec hsb ho _) _ fun _ h => h
  rintro _ c1 ⟨hshrunk1, hzero1⟩
  rw [wp_bind]
  apply wp_mono (freeIndirect_spec hsb hshrunk1.toOpen) _ fun _ h => h
  rintro _ c2 ⟨hshrunk2, hzero2⟩
  rw [wp_bind, wp_modify]
  have hshrunk := hshrunk1.trans hshrunk2
  have haddrs : c2.ip.addrs = fun _ => 0 := by
    funext k
    cases k using Fin.lastCases with
    | last => exact hzero2
    | cast k => exact hshrunk2.zero _ (hzero1 k (List.mem_finRange k))
  generalize hc3 : ({ c2 with ip := { c2.ip with size := 0 } } : Ctx) = c3
  have hsound : Sound sb (c3.view sb i) c3.store.disk := by
    have hview : c3.view sb i = update (c2.view sb i) i c3.ip := by
      rw [← hc3, Ctx.view, Ctx.view, update_idem]
    have hrefs : refs (c3.view sb i) c3.store.disk = refs (c2.view sb i) c2.store.disk := by
      rw [hview, ← hc3]
      apply refs_update_same
      · rw [Ctx.view_self]
      · rw [Ctx.view_self]
    constructor
    · rw [hrefs, ← hc3]
      exact hshrunk.toOpen.sound.owned
    · rw [← hc3]
      exact hshrunk.toOpen.sound.low
  apply wp_mono (iupdate_spec hsb ho.lt hsound) _ fun _ h => h
  rintro _ c' ⟨hsaved, -⟩
  constructor
  · rw [hsaved.ip, ← hc3, haddrs.symm, hshrunk.ip]
  · rw [hsaved.dinode, Ctx.view_self, hsaved.ip]
  · exact hsaved.consistent
  · refine hshrunk.keeps.trans ?_
    have hkeeps := hsaved.keeps
    rw [← hc3] at hkeeps
    exact hkeeps

theorem refs_update_none {v : Nat → Dinode} {d : Disk} {ip : Dinode}
    (hold : ∀ k, (v i).addrs k = 0) (hnew : ∀ k, ip.addrs k = 0) :
    refs (update v i ip) d = refs v d := by
  have hnone : ∀ (ip' : Dinode) (s : Spot), (∀ k, ip'.addrs k = 0) → ip'.ref d s = none := by
    intro ip' s hzero
    have hpointer : ∀ k, pointer (ip'.addrs k) = none := fun k => pointer_eq_none.mpr (hzero k)
    cases s <;> simp [Dinode.ref, hpointer]
  funext ⟨j, s⟩
  rw [refs_apply, refs_apply]
  by_cases hj : j = i
  · rw [hj, update_self, hnone ip s hnew, hnone (v i) s hold]
  · rw [update_of_ne hj]

/-- The inode is freed, and all its blocks are released. -/
theorem ifree_spec (hsb : sb.Layout) (ho : Open sb i c) :
    wp (ifree sb i)
      (fun _ c' => (c'.store.disk.dinode sb i).type = 0 ∧ Consistent sb c'.store.disk ∧
        Keeps sb i c.store.disk c'.store.disk)
      (fun _ => False) c := by
  unfold ifree
  rw [wp_bind]
  apply wp_mono (itrunc_spec hsb ho) _ fun _ h => h
  intro _ c1 htrunc
  rw [wp_bind, wp_modify]
  generalize hc2 : ({ c1 with ip := { c1.ip with type := 0 } } : Ctx) = c2
  have haddrs : ∀ k, c1.ip.addrs k = 0 := by
    intro k
    rw [htrunc.ip]
  have hsound : Sound sb (c2.view sb i) c2.store.disk := by
    have hrefs : refs (c2.view sb i) c2.store.disk =
        refs (c1.store.disk.dinode sb) c1.store.disk := by
      rw [← hc2]
      apply refs_update_none
      · rw [htrunc.dinode]
        exact haddrs
      · exact haddrs
    constructor
    · rw [hrefs, ← hc2]
      exact htrunc.consistent.owned
    · rw [← hc2]
      exact htrunc.consistent.low
  apply wp_mono (iupdate_spec hsb ho.lt hsound) _ fun _ h => h
  rintro _ c' ⟨hsaved, -⟩
  refine ⟨?_, hsaved.consistent, htrunc.keeps.trans ?_⟩
  · rw [hsaved.dinode, Ctx.view_self, ← hc2]
  · have hkeeps := hsaved.keeps
    rw [← hc2] at hkeeps
    exact hkeeps

end Truncate

/-! ## New inodes -/

theorem scanInodes_sound {d : Disk} {fuel inum k : Nat} (h : scanInodes sb d fuel inum = some k) :
    inum ≤ k ∧ k < sb.ninodes ∧ (d.dinode sb k).type = 0 := by
  induction fuel generalizing inum with
  | zero => cases h
  | succ fuel ih =>
    unfold scanInodes at h
    split at h
    next hlt =>
      split at h
      next htype =>
        cases h
        exact ⟨Nat.le_refl _, hlt, by rw [Disk.dinode_of_lt hlt]; exact htype⟩
      next =>
        have := ih h
        exact ⟨by omega, this.2⟩
    next => cases h

/-- A free inode gets a type; it refers to no block. -/
theorem ialloc_spec {s : Store} (hsb : sb.Layout) (hcons : Consistent sb s.disk)
    (type : BitVec 16) :
    wp (ialloc sb type)
      (fun inum s' => (1 ≤ inum ∧ inum < sb.ninodes) ∧ (s.disk.dinode sb inum).type = 0 ∧
        s'.disk.dinode sb inum = { Dinode.zero with type := type } ∧
        Consistent sb s'.disk ∧ Keeps sb inum s.disk s'.disk)
      (fun e => e = "ialloc: no inodes") s := by
  unfold ialloc
  rw [wp_bind, wp_get]
  dsimp only
  split
  next => exact rfl
  next inum hscan =>
      obtain ⟨hpos, hlt, htype⟩ := scanInodes_sound hscan
      rw [wp_bind, logWrite, wp_modify, wp_pure]
      -- the new inode as the inode at work, saved at once
      have hsound : Sound sb (Ctx.view sb inum ⟨s, { Dinode.zero with type := type }⟩) s.disk := by
        have hrefs : refs (Ctx.view sb inum ⟨s, { Dinode.zero with type := type }⟩) s.disk =
            refs (s.disk.dinode sb) s.disk := refs_update_fresh htype fun _ => rfl
        exact ⟨by rw [hrefs]; exact hcons.owned, hcons.low⟩
      have hsaved : Saved sb inum ⟨s, { Dinode.zero with type := type }⟩
          ⟨s.put (sb.iblock inum) ((s.disk (sb.iblock inum)).putDinode (inum % ipb)
            { Dinode.zero with type := type }), { Dinode.zero with type := type }⟩ :=
        Saved.of_putDinode hsb hlt hsound rfl rfl
      refine ⟨⟨hpos, hlt⟩, htype, ?_, hsaved.consistent, hsaved.keeps⟩
      exact (congrFun hsaved.dinode inum).trans (Ctx.view_self ..)

end Fs
end FastIpc
