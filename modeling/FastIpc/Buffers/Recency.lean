import FastIpc.Buffers.Cache
import FastIpc.Foundation.Run

/-!
# The order of the buffers

All sequences of `bget`, `brelse`, `bpin` and `bunpin` from `binit` on, in
any order and with counts that may wrap.  On the side the buffers are recorded for which
`brelse` has brought the count to 0, the last one first.

Main results:

- Theorem `Sorted.step`: the list stays sorted by the last time a buffer was given up.
- Theorem `buffer_list_sound`: the list is sound, and `bget` recycles what was given up first.
-/

namespace FastIpc
namespace Buffers

open Foundation

variable {D : Type}

/-- The cache, and the buffers that `brelse` has given up, the last one first. -/
structure Sys (D : Type) where
  cache : Bcache D
  released : List (Fin nbuf)

/-- The calls. -/
inductive Action where
  | bget (dev blockno : BitVec 32)
  | brelse (b : Fin nbuf)
  | bpin (b : Fin nbuf)
  | bunpin (b : Fin nbuf)

/-- One call; there is no step if `bget` does not return. -/
def step (s : Sys D) : Action → Option (Sys D)
  | .bget dev blockno =>
    match s.cache.bget dev blockno with
    | .ok (_, c) => some { s with cache := c }
    | .error _ => none
  | .brelse b =>
    let c := s.cache.release b
    some ⟨c, if c.refcnt b = 0 then b :: s.released else s.released⟩
  | .bpin b => some { s with cache := s.cache.bpin b }
  | .bunpin b => some { s with cache := s.cache.bunpin b }

/-- A buffer was given up before another one; buffers that have never been given up come first, in
their initial order. -/
def Older (released : List (Fin nbuf)) (b b' : Fin nbuf) : Prop :=
  released.idxOf b' < released.idxOf b ∨ b ∉ released ∧ b' ∉ released ∧ b < b'

/-- The cache before `binit`: memory that is zero. -/
structure Zeroed (c : Bcache D) : Prop where
  dev : ∀ b, c.dev b = 0
  blockno : ∀ b, c.blockno b = 0
  refcnt : ∀ b, c.refcnt b = 0

/-- The list has all buffers, those that were given up last in front, and no block has two
buffers. -/
structure Sorted (s : Sys D) (l : List (Fin nbuf)) : Prop where
  listed : Listed s.cache l
  sorted : l.Pairwise fun b b' => Older s.released b' b
  unique : ∀ b b', s.cache.dev b ≠ 0 → s.cache.dev b = s.cache.dev b' →
    s.cache.blockno b = s.cache.blockno b' → b = b'

/-- Some list is sorted. -/
def Ordered (s : Sys D) : Prop := ∃ l, Sorted s l

theorem older_cons {released : List (Fin nbuf)} {b x y : Fin nbuf} (hx : x ≠ b) (hy : y ≠ b) :
    Older (b :: released) x y ↔ Older released x y := by
  simp [Older, List.idxOf_cons_ne _ hx.symm, List.idxOf_cons_ne _ hy.symm, hx, hy]

theorem older_self {released : List (Fin nbuf)} {b x : Fin nbuf} (hx : x ≠ b) :
    Older (b :: released) x b := by
  refine .inl ?_
  rw [List.idxOf_cons_self, List.idxOf_cons_ne _ hx.symm]
  exact Nat.succ_pos _

theorem sorted_binit {c : Bcache D} (h : Zeroed c) :
    Sorted ⟨binit c, []⟩ (List.finRange nbuf).reverse where
  listed := listed_binit c
  sorted := by
    rw [List.pairwise_reverse]
    refine (List.pairwise_lt_finRange nbuf).imp fun hlt => .inr ⟨?_, ?_, hlt⟩
    all_goals exact List.not_mem_nil
  unique b _ hdev := (hdev (h.dev b)).elim

namespace Sorted

variable {s t : Sys D} {l : List (Fin nbuf)}

/-- A call that leaves the list and the blocks as they are. -/
theorem congr (h : Sorted s l) (hlinks : t.cache.links = s.cache.links)
    (hreleased : t.released = s.released) (hdev : t.cache.dev = s.cache.dev)
    (hblockno : t.cache.blockno = s.cache.blockno) : Sorted t l where
  listed := ⟨hlinks ▸ h.listed.ring, h.listed.mem⟩
  sorted := hreleased ▸ h.sorted
  unique := by
    rw [hdev, hblockno]
    exact h.unique

/-- `bget` recycles a buffer for a block that has none. -/
theorem rebind (h : Sorted s l) {dev blockno : BitVec 32} (b : Fin nbuf)
    (hmiss : ∀ b', s.cache.caches dev blockno b' = false) :
    Sorted { s with cache := s.cache.rebind b dev blockno } l where
  listed := ⟨h.listed.ring, h.listed.mem⟩
  sorted := h.sorted
  unique := by
    have hnot : ∀ b', s.cache.dev b' = dev → s.cache.blockno b' = blockno → False := by
      intro b' hdev hblockno
      have hcached : s.cache.caches dev blockno b' = true := decide_eq_true ⟨hdev, hblockno⟩
      rw [hmiss b'] at hcached
      cases hcached
    intro x y hdev heq hblockno
    simp only [Bcache.rebind, Function.update_apply] at hdev heq hblockno
    split at heq
    next hx =>
      split at heq
      next hy => rw [hx, hy]
      next hy =>
        rw [if_pos hx, if_neg hy] at hblockno
        exact (hnot y heq.symm hblockno.symm).elim
    next hx =>
      split at heq
      next hy =>
        rw [if_neg hx, if_pos hy] at hblockno
        exact (hnot x heq hblockno).elim
      next hy =>
        rw [if_neg hx] at hdev
        rw [if_neg hx, if_neg hy] at hblockno
        exact h.unique x y hdev heq hblockno

/-- `brelse` gives a buffer up, or only counts. -/
theorem brelse (h : Sorted s l) (b : Fin nbuf) : ∃ l', Sorted
    ⟨s.cache.release b, if (s.cache.release b).refcnt b = 0 then b :: s.released else s.released⟩
    l' := by
  have hrefcnt : (s.cache.release b).refcnt b = s.cache.refcnt b - 1 := by
    obtain ⟨links, hlinks⟩ := s.cache.release_eq b
    rw [hlinks]
    exact Function.update_self ..
  have hsame : (s.cache.release b).dev = s.cache.dev ∧
      (s.cache.release b).blockno = s.cache.blockno := by
    obtain ⟨links, hlinks⟩ := s.cache.release_eq b
    rw [hlinks]
    exact ⟨rfl, rfl⟩
  have hunique := h.unique
  rw [← hsame.1, ← hsame.2] at hunique
  rw [hrefcnt]
  rcases h.listed.release b with ⟨hzero, before, after, hl, hlisted⟩ | ⟨hzero, hlisted⟩
  · rw [if_pos hzero]
    refine ⟨b :: (before ++ after), hlisted, List.pairwise_cons.mpr ⟨fun x hx => ?_, ?_⟩, hunique⟩
    · refine older_self ?_
      rintro rfl
      exact (List.nodup_cons.mp hlisted.ring.nodup).1 hx
    · -- The order of the others is the one before.
      have hsub : (before ++ after).Sublist l := by
        rw [hl]
        exact List.Sublist.append_left (List.sublist_cons_self ..) _
      refine (h.sorted.sublist hsub).imp_of_mem fun hx hy holder => (older_cons ?_ ?_).mpr holder
      · rintro rfl
        exact (List.nodup_cons.mp hlisted.ring.nodup).1 hy
      · rintro rfl
        exact (List.nodup_cons.mp hlisted.ring.nodup).1 hx
  · rw [if_neg hzero]
    exact ⟨l, hlisted, h.sorted, hunique⟩

/-- One call. -/
theorem step {a : Action} (h : Sorted s l) (hstep : Buffers.step s a = some t) : Ordered t := by
  cases a with
  | bget dev blockno =>
    simp only [Buffers.step] at hstep
    split at hstep
    next b c hrun =>
      cases hstep
      rcases h.listed.bget_cases hrun with ⟨-, rfl⟩ | ⟨hmiss, -, rfl, -⟩
      · exact ⟨l, h.congr rfl rfl rfl rfl⟩
      · exact ⟨l, h.rebind b hmiss⟩
    next => cases hstep
  | brelse b =>
    cases hstep
    exact h.brelse b
  | bpin b =>
    cases hstep
    exact ⟨l, h.congr rfl rfl rfl rfl⟩
  | bunpin b =>
    cases hstep
    exact ⟨l, h.congr rfl rfl rfl rfl⟩

theorem kept {a : Action} (h : Sorted s l) (hstep : Buffers.step s a = some t) {b : Fin nbuf}
    (hb : s.cache.refcnt b ≠ 0) :
    t.cache.dev b = s.cache.dev b ∧ t.cache.blockno b = s.cache.blockno b := by
  cases a with
  | bget dev blockno =>
    simp only [Buffers.step] at hstep
    split at hstep
    next b' c hrun =>
      cases hstep
      rcases h.listed.bget_cases hrun with ⟨-, rfl⟩ | ⟨-, hzero, rfl, -⟩
      · exact ⟨rfl, rfl⟩
      · have hne : b ≠ b' := by
          rintro rfl
          exact hb hzero
        exact ⟨Function.update_of_ne hne _ _, Function.update_of_ne hne _ _⟩
    next => cases hstep
  | brelse b' =>
    cases hstep
    simp only [Bcache.release]
    split <;> exact ⟨rfl, rfl⟩
  | bpin b' =>
    cases hstep
    exact ⟨rfl, rfl⟩
  | bunpin b' =>
    cases hstep
    exact ⟨rfl, rfl⟩

/-- `bget` recycles the unused buffer that was given up first. -/
theorem recycled (h : Sorted s l) {dev blockno : BitVec 32} {b : Fin nbuf} {c : Bcache D}
    (hrun : s.cache.bget dev blockno = .ok (b, c))
    (hmiss : ∀ b', ¬(s.cache.dev b' = dev ∧ s.cache.blockno b' = blockno)) :
    s.cache.refcnt b = 0 ∧ ∀ b' ≠ b, s.cache.refcnt b' = 0 → Older s.released b b' := by
  rcases h.listed.bget_cases hrun with ⟨hfound, -⟩ | ⟨-, hzero, -, before, after, hl, hafter⟩
  · exact (hmiss b (of_decide_eq_true hfound)).elim
  refine ⟨hzero, fun b' hne hzero' => ?_⟩
  have hmem := h.listed.mem b'
  have hsorted := h.sorted
  rw [hl] at hmem hsorted
  rcases List.mem_append.mp hmem with hbefore | hmem
  · exact (List.pairwise_append.mp hsorted).2.2 b' hbefore b List.mem_cons_self
  · rcases List.mem_cons.mp hmem with heq | hmem
    · exact (hne heq).elim
    · exact (hafter b' hmem hzero').elim

end Sorted

theorem Ordered.step {s t : Sys D} {a : Action} (h : Ordered s) (hstep : Buffers.step s a = some t) :
    Ordered t := by
  obtain ⟨l, hsorted⟩ := h
  exact hsorted.step hstep

/-- In every state reached from `binit`: the pointers from the head form a ring through all
buffers, and those back are its inverse; no two buffers hold the same block of a device other than
0; `bget` returns unless all buffers are in use; no call changes the block of a buffer in use;
and the buffer that `bget` recycles is the unused one that was given up first. -/
theorem buffer_list_sound {c : Bcache D} {t : Sys D} {calls : List Action} (hzero : Zeroed c)
    (hrun : Run (StepOf step) ⟨binit c, []⟩ calls t) :
    (∃ l, Path t.cache.links.next none l none ∧ l.Nodup ∧ (∀ b, b ∈ l) ∧
      Function.LeftInverse t.cache.links.prev t.cache.links.next ∧
      Function.RightInverse t.cache.links.prev t.cache.links.next) ∧
    (∀ b b', t.cache.dev b ≠ 0 → t.cache.dev b = t.cache.dev b' →
      t.cache.blockno b = t.cache.blockno b' → b = b') ∧
    (∀ a u, step t a = some u → ∀ b, t.cache.refcnt b ≠ 0 →
      u.cache.dev b = t.cache.dev b ∧ u.cache.blockno b = t.cache.blockno b) ∧
    (∀ dev blockno e, t.cache.bget dev blockno = .error e →
      e = .noBuffers ∧ ∀ b, t.cache.refcnt b ≠ 0) ∧
    ∀ dev blockno b c', t.cache.bget dev blockno = .ok (b, c') →
      (∀ b', ¬(t.cache.dev b' = dev ∧ t.cache.blockno b' = blockno)) →
      t.cache.refcnt b = 0 ∧ ∀ b' ≠ b, t.cache.refcnt b' = 0 → Older t.released b b' := by
  have hordered : Ordered t := hrun.invariant (fun hs hstep => hs.step hstep)
    ⟨_, sorted_binit hzero⟩
  obtain ⟨l, hsorted⟩ := hordered
  obtain ⟨hleft, hright⟩ := hsorted.listed.ring.inverse hsorted.listed.mem
  exact ⟨⟨l, hsorted.listed.ring.next, hsorted.listed.ring.nodup, hsorted.listed.mem, hleft, hright⟩,
    hsorted.unique, fun a u hstep b hb => hsorted.kept hstep hb,
    fun dev blockno e hget => hsorted.listed.bget_error hget,
    fun dev blockno b c' hget hmiss => hsorted.recycled hget hmiss⟩

/-- Memory that is zero. -/
def zeroCache : Bcache Unit where
  dev _ := 0
  blockno _ := 0
  valid _ := false
  refcnt _ := 0
  data _ := ()
  links := ⟨fun _ => none, fun _ => none⟩

/-- Two blocks are read, one of them is pinned, and both are given up.  The count of the pinned one
has come to 0 by `bunpin`, so that it is recycled as if it had not been used. -/
theorem buffer_list_sound_two : ∃ t : Sys Unit,
    Run (StepOf step) ⟨binit zeroCache, []⟩
      [.bget 1 5, .bget 1 6, .bpin 0, .brelse 1, .brelse 0, .bunpin 0] t ∧
    t.released = [1] ∧ (∃ c', t.cache.bget 1 7 = .ok (0, c')) ∧
    ∀ b' ≠ 0, t.cache.refcnt b' = 0 → Older t.released 0 b' := by
  obtain ⟨t, hexec, hreleased, hmiss, hget⟩ : ∃ t, exec step ⟨binit zeroCache, []⟩
      [.bget 1 5, .bget 1 6, .bpin 0, .brelse 1, .brelse 0, .bunpin 0] = some t ∧
      t.released = [1] ∧ (∀ b', ¬(t.cache.dev b' = 1 ∧ t.cache.blockno b' = 7)) ∧
      (t.cache.bget 1 7).toOption.map Prod.fst = some 0 :=
    exists_exec (by decide +kernel)
  have hrun := run_of_exec hexec
  obtain ⟨-, -, -, -, hrecycled⟩ := buffer_list_sound ⟨fun _ => rfl, fun _ => rfl, fun _ => rfl⟩ hrun
  cases hok : t.cache.bget 1 7 with
  | error e =>
    rw [hok] at hget
    cases hget
  | ok res =>
    rw [hok] at hget
    obtain ⟨b, c'⟩ := res
    obtain rfl : b = 0 := Option.some.inj hget
    exact ⟨t, hrun, hreleased, ⟨c', hok⟩, (hrecycled 1 7 0 c' hok hmiss).2⟩

end Buffers
end FastIpc
