import FastIpc.Fs.Contents
import FastIpc.Log.Commit

/-!
# Writing through a file descriptor

`filewrite` cuts a write into chunks, so that each one fits into the log with all the blocks it
changes on the way.

Main results:

- Theorem `write_chunk_fits_log`: a chunk logs at most `MAXOPBLOCKS` distinct blocks.
-/

namespace FastIpc
namespace Fs

open Foundation Log

variable {sb : Superblock} {i : Nat} {c c' : Ctx}

/-! ## Blocks of a chunk -/

/-- The most bytes of a chunk. -/
def chunkMax : Nat := (maxOpBlocks - 1 - 1 - 2) / 2 * bsize

/-- The places of a range that lies within some blocks. -/
theorem span_subset {off n : Nat} {ks : Finset Nat}
    (h : ∀ x, off ≤ x → x < off + n → x / bsize ∈ ks) :
    span off n ⊆ insert .indirect (ks.image spotOf) := by
  intro s hs
  obtain ⟨k, hk, hneeds⟩ := Finset.mem_biUnion.mp hs
  obtain ⟨x, hx, rfl⟩ := Finset.mem_image.mp hk
  rw [Finset.mem_Ico] at hx
  have hspot := Finset.mem_image_of_mem spotOf (h x hx.1 hx.2)
  unfold needs at hneeds
  split at hneeds
  next =>
    rw [Finset.mem_singleton.mp hneeds]
    exact Finset.mem_insert_of_mem hspot
  next =>
    rcases Finset.mem_insert.mp hneeds with rfl | hneeds
    · exact Finset.mem_insert_self ..
    · rw [Finset.mem_singleton.mp hneeds]
      exact Finset.mem_insert_of_mem hspot

theorem card_places_le (ks : Finset Nat) :
    (insert Spot.indirect (ks.image spotOf)).card ≤ ks.card + 1 :=
  (Finset.card_insert_le ..).trans (Nat.add_le_add_right Finset.card_image_le 1)

/-- A chunk takes at most nine blocks and bits of the free map: if it does not start at the start
of a block, that block is there already. -/
theorem places_and_missing_le {off n : Nat} (hcovers : Covers c.ip c.store.disk c.ip.size.toNat)
    (hoff : off ≤ c.ip.size.toNat) (hn : n ≤ chunkMax) :
    (span off n).card + (missing c (span off n)).card ≤ 9 := by
  have hmax : chunkMax = 3072 := rfl
  rw [hmax] at hn
  by_cases haligned : off % bsize = 0
  · have hspan : span off n ⊆ insert .indirect ((Finset.Ico (off / bsize) (off / bsize + 3)).image
        spotOf) := by
      apply span_subset
      intro x hlo hhi
      rw [Finset.mem_Ico]
      simp only [bsize] at *
      omega
    have hcard := (Finset.card_le_card hspan).trans (card_places_le _)
    rw [Nat.card_Ico] at hcard
    have hmissing : (missing c (span off n)).card ≤ (span off n).card := Finset.card_filter_le ..
    omega
  · have hspan : span off n ⊆ insert .indirect ((Finset.Ico (off / bsize) (off / bsize + 4)).image
        spotOf) := by
      apply span_subset
      intro x hlo hhi
      rw [Finset.mem_Ico]
      simp only [bsize] at *
      omega
    have hcard := (Finset.card_le_card hspan).trans (card_places_le _)
    rw [Nat.card_Ico] at hcard
    -- the first block is not missing
    have hmissing : missing c (span off n) ⊆
        insert .indirect ((Finset.Ico (off / bsize + 1) (off / bsize + 4)).image spotOf) := by
      intro s hs
      obtain ⟨hs, hnone⟩ := Finset.mem_filter.mp hs
      have hfirst : (c.ip.ref c.store.disk (spotOf (off / bsize))).isSome := by
        apply hcovers.block
        simp only [blocksOf, bsize] at *
        omega
      rcases Finset.mem_insert.mp (hspan hs) with rfl | himage
      · exact Finset.mem_insert_self ..
      · obtain ⟨k, hk, rfl⟩ := Finset.mem_image.mp himage
        apply Finset.mem_insert_of_mem
        apply Finset.mem_image_of_mem
        have hne : k ≠ off / bsize := by
          intro heq
          rw [heq] at hnone
          rw [hnone] at hfirst
          cases hfirst
        rw [Finset.mem_Ico] at hk ⊢
        omega
    have hcard' := (Finset.card_le_card hmissing).trans (card_places_le _)
    rw [Nat.card_Ico] at hcard'
    omega

/-- The blocks that may be logged are no more than the places and the missing ones. -/
theorem exists_loggable (sb : Superblock) (c c' : Ctx) (S : Finset Spot) :
    ∃ T : Finset Nat, (∀ x, Loggable sb c c' S x → x ∈ T) ∧ T.card ≤ S.card + (missing c S).card := by
  classical
  refine ⟨S.image (fun s => (c'.ip.ref c'.store.disk s).getD 0) ∪
    (missing c S).image (fun s => sb.bblock ((c'.ip.ref c'.store.disk s).getD 0)), ?_, ?_⟩
  · rintro x (⟨s, hs, hx⟩ | ⟨s, hs, hnone, b, hb, hx⟩)
    · apply Finset.mem_union_left
      exact Finset.mem_image.mpr ⟨s, hs, by rw [hx]; rfl⟩
    · apply Finset.mem_union_right
      refine Finset.mem_image.mpr ⟨s, Finset.mem_filter.mpr ⟨hs, hnone⟩, ?_⟩
      rw [hb, hx]
      rfl
  · exact (Finset.card_union_le ..).trans
      (Nat.add_le_add Finset.card_image_le Finset.card_image_le)

/-- Whatever the source, the free map and the super block: a chunk that `filewrite` writes to
an inode without holes logs at most `MAXOPBLOCKS` distinct blocks. -/
theorem write_chunk_fits_log (hsb : sb.Layout) (ho : Open sb i c)
    (hcovers : Covers c.ip c.store.disk c.ip.size.toNat) (hlogged : c.store.logged = [])
    {src : Source} {off n : BitVec 32} (hoff : off.toNat ≤ c.ip.size.toNat)
    (hn : n.toNat ≤ chunkMax) {r : Int} (hrun : writei sb i src off n c = .ok (r, c')) :
    c'.store.touched.toFinset.card ≤ maxOpBlocks := by
  have hpost := FaultM.wp_of_ok (writei_spec hsb ho src off n) hrun
  have htouched : c.store.touched = [] := by
    unfold Store.touched
    rw [hlogged]
    rfl
  dsimp only at hpost
  split at hpost
  next =>
    obtain ⟨tot, fin, f, -, -, hstored⟩ := hpost
    obtain ⟨T, hT, hcard⟩ := exists_loggable sb c c' (span off.toNat n.toNat)
    have hsub : c'.store.touched.toFinset ⊆ insert (sb.iblock i) T := by
      intro x hx
      rcases hstored.touched x (List.mem_toFinset.mp hx) with hx | hx | hx
      · rw [htouched] at hx
        cases hx
      · exact Finset.mem_insert_of_mem (hT x hx)
      · rw [hx]
        exact Finset.mem_insert_self ..
    have hnine := places_and_missing_le hcovers hoff hn
    have hten : (insert (sb.iblock i) T).card ≤ T.card + 1 := Finset.card_insert_le ..
    have hle := Finset.card_le_card hsub
    have hmax : maxOpBlocks = 10 := rfl
    omega
  next =>
    rw [hpost.2, htouched]
    exact Nat.zero_le _

/-- Three blocks from the middle of the last block before the indirect one on: the block that is
there, three new ones, the indirect block, their bits, and the inode. -/
theorem write_chunk_fits_log_tiny : ∃ r c',
    writei tinySuper 1 (.kernel fun _ => 1) 11776 3072 (tinyFile 11776) = .ok (r, c') ∧
      c'.store.touched.toFinset.card = 7 ∧ c'.store.touched.toFinset.card ≤ maxOpBlocks := by
  have hok : (writei tinySuper 1 (.kernel fun _ => 1) 11776 3072 (tinyFile 11776)).toOption.any
      (fun r => decide (r.2.store.touched.toFinset.card = 7)) = true := by
    decide +kernel
  have hfile := tinyFile_open (n := 11776) (by decide) (by decide +kernel)
  cases hrun : writei tinySuper 1 (.kernel fun _ => 1) 11776 3072 (tinyFile 11776) with
  | error e =>
    rw [hrun] at hok
    cases hok
  | ok p =>
    rw [hrun] at hok
    exact ⟨p.1, p.2, rfl, of_decide_eq_true hok, write_chunk_fits_log tinySuper_layout
      hfile.1 hfile.2 (by decide +kernel) (by decide +kernel) (by decide) hrun⟩

end Fs
end FastIpc
