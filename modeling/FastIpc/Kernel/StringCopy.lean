import FastIpc.Kernel.Transfers

/-!
# Copying strings from a process

`copyinstr` of `kernel/vm.c` finds the end of a string in user memory, whatever the
number of pages it spans, and `fetchstr` and `argstr` of `kernel/syscall.c` return
its length.  The buffer of the kernel must not be part of what is read: neither of the page table
nor of the pages that hold the string.

Main results:

- Theorem `copyinstrLoop_spec`: what one call of the loop does.
- Theorem `copyinstr_exact`: when `copyinstr` succeeds, and what it copies.
-/

namespace FastIpc
namespace Kernel

open Foundation FaultM

/-! ## Lengths -/

/-- `strlen`; the second number bounds the bytes looked at. -/
def strlen (m : Memory) (a : Nat) : Nat → Nat
  | 0 => 0
  | n + 1 => if m a = 0 then 0 else strlen m (a + 1) n + 1

/-- `fetchstr` to any buffer of `max` bytes: the length of the string. -/
def fetchstrLength (pagetable addr buf max : Nat) : RamM Int := do
  match ← copyinstr pagetable buf addr max with
  | none => return -1
  | some _ =>
    let s ← get
    return (strlen s.mem buf max : Nat)

/-- `argstr` with the arguments of a system call. -/
def argstr (args : Fin 6 → Nat) (pagetable : Nat) (n : Fin 6) (buf max : Nat) : RamM Int :=
  fetchstrLength pagetable (args n) buf max

theorem strlen_eq {m : Memory} {a k n : Nat} (hk : k < n) (hzero : m (a + k) = 0)
    (hbefore : ∀ i < k, m (a + i) ≠ 0) : strlen m a n = k := by
  induction n generalizing a k with
  | zero => omega
  | succ n ih =>
    unfold strlen
    cases k with
    | zero => exact if_pos hzero
    | succ k =>
      have hfirst : m a ≠ 0 := hbefore 0 (Nat.succ_pos _)
      rw [if_neg hfirst]
      congr 1
      refine ih (Nat.lt_of_succ_lt_succ hk) ?_ fun i hi => ?_
      · rwa [Nat.add_assoc, Nat.add_comm 1]
      · rw [Nat.add_assoc, Nat.add_comm 1]
        exact hbefore _ (Nat.succ_lt_succ hi)

/-! ## Strings in user memory -/

/-- The string at a user address has `k` bytes, and it is accessible to its end. -/
structure EndsAfter (m : Memory) (r va k : Nat) : Prop where
  accessible : ∀ i ≤ k, Accessible m r (va + i)
  zero : m (userAddr m r (va + k)) = 0
  before : ∀ i < k, m (userAddr m r (va + i)) ≠ 0

/-- The buffer is apart from the page table and from the accessible pages of the range. -/
structure BufferApart (m : Memory) (r dst srcva max : Nat) : Prop where
  table : ∀ path n, path.length ≤ 2 → table m r path = some n → dst + max ≤ n ∨ n + pgSize ≤ dst
  page : ∀ va, srcva ≤ va → va < srcva + max → Accessible m r va →
    dst + max ≤ userPage m r (pgRoundDown va) ∨ userPage m r (pgRoundDown va) + pgSize ≤ dst

/-- What a call leaves: on success the string and its end, otherwise anything in the buffer. -/
def StringCopied (m m' : Memory) (r dst srcva max : Nat) : Option (List (BitVec 8)) → Prop
  | some str => str.length < max ∧ EndsAfter m r srcva str.length ∧
      (∀ i < str.length, str[i]? = some (m (userAddr m r (srcva + i)))) ∧
      (∀ i ≤ str.length, m' (dst + i) = m (userAddr m r (srcva + i))) ∧
      ∀ x, ¬(dst ≤ x ∧ x ≤ dst + str.length) → m' x = m x
  | none => (∀ k < max, ¬EndsAfter m r srcva k) ∧ ∀ x, ¬(dst ≤ x ∧ x < dst + max) → m' x = m x

section

variable {m m' : Memory} {r dst srcva max : Nat}
variable {k n va : Nat}

theorem userAddr_add {i : Nat} (hi : va % pgSize + i < pgSize) :
    userAddr m r (va + i) = userPage m r (pgRoundDown va) + va % pgSize + i := by
  have hround : pgRoundDown (va + i) = pgRoundDown va := by
    unfold pgRoundDown pgSize at *
    omega
  have hmod : (va + i) % pgSize = va % pgSize + i := by
    unfold pgSize at *
    omega
  rw [userAddr, hround, hmod, Nat.add_assoc]

theorem accessible_add {i : Nat} (hi : va % pgSize + i < pgSize) :
    Accessible m r (va + i) ↔ Accessible m r va := by
  refine accessible_of_page ?_
  unfold pgSize at *
  omega

/-- A string that does not end in its first `n` bytes goes on after them. -/
theorem endsAfter_add (hacc : ∀ i < n, Accessible m r (va + i))
    (hne : ∀ i < n, m (userAddr m r (va + i)) ≠ 0) :
    EndsAfter m r va (n + k) ↔ EndsAfter m r (va + n) k := by
  constructor
  · intro h
    constructor
    · intro i hi
      rw [Nat.add_assoc]
      exact h.accessible _ (by omega)
    · rw [Nat.add_assoc]
      exact h.zero
    · intro i hi
      rw [Nat.add_assoc]
      exact h.before _ (by omega)
  · intro h
    constructor
    · intro i hi
      by_cases hlt : i < n
      · exact hacc i hlt
      · have hrest := h.accessible (i - n) (by omega)
        rwa [Nat.add_assoc, Nat.add_sub_cancel' (Nat.le_of_not_lt hlt)] at hrest
    · rw [← Nat.add_assoc]
      exact h.zero
    · intro i hi
      by_cases hlt : i < n
      · exact hne i hlt
      · have hrest := h.before (i - n) (by omega)
        rwa [Nat.add_assoc, Nat.add_sub_cancel' (Nat.le_of_not_lt hlt)] at hrest

theorem EndsAfter.le (h : EndsAfter m r va k) (hne : ∀ i < n, m (userAddr m r (va + i)) ≠ 0) :
    n ≤ k := by
  by_contra hlt
  exact hne k (by omega) h.zero

theorem EndsAfter.unique {k' : Nat} (h : EndsAfter m r va k) (h' : EndsAfter m r va k') : k = k' :=
  le_antisymm (h'.le h.before) (h.le h'.before)

theorem takeWhile_map_range (f : Nat → BitVec 8) (n : Nat) :
    ∃ k ≤ n, ((List.range n).map f).takeWhile (fun b => decide (b ≠ 0)) = (List.range k).map f ∧
      (∀ i < k, f i ≠ 0) ∧ (k < n → f k = 0) := by
  induction n with
  | zero => exact ⟨0, le_rfl, rfl, by simp, by simp⟩
  | succ n ih =>
    obtain ⟨k, hk, heq, hne, hzero⟩ := ih
    rw [List.range_succ, List.map_append, List.takeWhile_append, heq]
    simp only [List.length_map, List.length_range, List.map_cons, List.map_nil]
    by_cases hend : k = n ∧ f n ≠ 0
    · obtain ⟨rfl, hn⟩ := hend
      refine ⟨k + 1, le_rfl, ?_, ?_, by omega⟩
      · rw [if_pos rfl, List.range_succ, List.map_append, List.takeWhile_cons_of_pos (by simpa)]
        rfl
      · intro i hi
        rcases Nat.lt_succ_iff_lt_or_eq.mp hi with hlt | rfl
        · exact hne i hlt
        · exact hn
    · refine ⟨k, by omega, ?_, hne, fun _ => ?_⟩
      · split
        next hkn =>
          subst hkn
          have hn : f k = 0 := not_not.mp fun hn => hend ⟨rfl, hn⟩
          rw [List.takeWhile_cons_of_neg (by simp [hn]), List.append_nil]
        next => rfl
      · by_cases hkn : k = n
        · subst hkn
          exact not_not.mp fun hn => hend ⟨rfl, hn⟩
        · exact hzero (by omega)

/-! ## The loop -/

/-- Writing to the buffer changes neither the page table nor the string. -/
theorem BufferApart.same (h : BufferApart m r dst srcva max)
    (hout : ∀ x, ¬(dst ≤ x ∧ x < dst + max) → m' x = m x) :
    SameTable r m m' ∧ ∀ i < max, Accessible m r (srcva + i) →
      m' (userAddr m r (srcva + i)) = m (userAddr m r (srcva + i)) := by
  constructor
  · refine SameTable.of_eq (fun _ _ _ _ _ => rfl) fun path n hlen hn x hlo hhi => hout x ?_
    have htable := h.table path n hlen hn
    omega
  · intro i hi hacc
    have hpage := h.page (srcva + i) (by omega) (by omega) hacc
    have hmod := Nat.mod_lt (srcva + i) (show 0 < pgSize by decide)
    refine hout _ ?_
    unfold userAddr
    omega

/-- The rest of the buffer is apart from the rest of the range. -/
theorem BufferApart.rest (h : BufferApart m r dst srcva max) (hsame : SameTable r m m')
    (hn : n ≤ max) : BufferApart m' r (dst + n) (srcva + n) (max - n) := by
  constructor
  · intro path p hlen hp
    rw [hsame.table_eq hlen] at hp
    have htable := h.table path p hlen hp
    omega
  · intro va hlo hhi hacc
    rw [hsame.userPage_eq]
    have hpage := h.page va (by omega) (by omega) (hsame.accessible_iff.mp hacc)
    omega

theorem endsAfter_congr (hsame : SameTable r m m') (hbyte : ∀ i ≤ k, Accessible m r (va + i) →
      m' (userAddr m r (va + i)) = m (userAddr m r (va + i))) :
    EndsAfter m' r va k ↔ EndsAfter m r va k := by
  constructor
  · intro h
    have hacc : ∀ i ≤ k, Accessible m r (va + i) := fun i hi =>
      hsame.accessible_iff.mp (h.accessible i hi)
    refine ⟨hacc, ?_, fun i hi => ?_⟩
    · rw [← hbyte k le_rfl (hacc k le_rfl), ← hsame.userAddr_eq]
      exact h.zero
    · rw [← hbyte i hi.le (hacc i hi.le), ← hsame.userAddr_eq]
      exact h.before i hi
  · intro h
    refine ⟨fun i hi => hsame.accessible_iff.mpr (h.accessible i hi), ?_, fun i hi => ?_⟩
    · rw [hsame.userAddr_eq, hbyte k le_rfl (h.accessible k le_rfl)]
      exact h.zero
    · rw [hsame.userAddr_eq, hbyte i hi.le (h.accessible i hi.le)]
      exact h.before i hi

theorem stringCopied_of_end (hk : k < max) (hend : EndsAfter m r srcva k) :
    StringCopied m ((m.blit dst ((List.range k).map fun i => m (userAddr m r (srcva + i)))).blit
      (dst + k) [0]) r dst srcva max
      (some ((List.range k).map fun i => m (userAddr m r (srcva + i)))) := by
  have hlen : ((List.range k).map fun i => m (userAddr m r (srcva + i))).length = k := by simp
  refine ⟨by rwa [hlen], by rwa [hlen], fun i hi => ?_, fun i hi => ?_, fun x hx => ?_⟩
  · rw [hlen] at hi
    simp [hi]
  · rw [hlen] at hi
    by_cases hik : i = k
    · subst hik
      rw [hend.zero]
      simp [Memory.blit]
    · rw [Memory.blit_of_not_mem (by simp; omega), Memory.blit, if_pos (by rw [hlen]; omega),
        Nat.add_sub_cancel_left]
      simp [List.getD_eq_getElem?_getD, show i < k by omega]
  · rw [hlen] at hx
    rw [Memory.blit_of_not_mem (by simp; omega), Memory.blit_of_not_mem (by rw [hlen]; omega)]

theorem stringCopied_append {mid : Memory} {res : Option (List (BitVec 8))} (hn : n ≤ max)
    (hapart : BufferApart m r dst srcva max) (hacc : ∀ i < n, Accessible m r (srcva + i))
    (hne : ∀ i < n, m (userAddr m r (srcva + i)) ≠ 0)
    (hmid : mid = m.blit dst ((List.range n).map fun i => m (userAddr m r (srcva + i))))
    (hrest : StringCopied mid m' r (dst + n) (srcva + n) (max - n) res) :
    StringCopied m m' r dst srcva max
      (res.map (((List.range n).map fun i => m (userAddr m r (srcva + i))) ++ ·)) := by
  have hlen : ((List.range n).map fun i => m (userAddr m r (srcva + i))).length = n := by simp
  have hout : ∀ x, ¬(dst ≤ x ∧ x < dst + n) → mid x = m x := by
    intro x hx
    rw [hmid]
    exact Memory.blit_of_not_mem (by rwa [hlen])
  obtain ⟨hsame, hbyte⟩ := hapart.same fun x hx => hout x (by omega)
  have hbytes : ∀ i, n + i < max → Accessible m r (srcva + n + i) →
      mid (userAddr m r (srcva + n + i)) = m (userAddr m r (srcva + n + i)) := by
    intro i hi hacc'
    rw [Nat.add_assoc] at hacc' ⊢
    exact hbyte _ hi hacc'
  -- the string goes on in the changed memory as it did before
  have hends : ∀ k, n + k < max → (EndsAfter mid r (srcva + n) k ↔ EndsAfter m r srcva (n + k)) := by
    intro k hk
    rw [endsAfter_add hacc hne]
    exact endsAfter_congr hsame fun i hi => hbytes i (by omega)
  cases res with
  | none =>
    refine ⟨fun k hk hend => ?_, fun x hx => ?_⟩
    · obtain ⟨j, rfl⟩ := Nat.exists_eq_add_of_le (hend.le hne)
      exact hrest.1 j (by omega) ((hends j hk).mpr hend)
    · rw [hrest.2 x (by omega), hout x (by omega)]
  | some rest =>
    obtain ⟨hshort, hend, hstr, hcopied, hframe⟩ := hrest
    have hend' := (hends _ (by omega)).mp hend
    have hacc' : ∀ i ≤ rest.length, Accessible m r (srcva + n + i) := fun i hi =>
      hsame.accessible_iff.mp (hend.accessible i hi)
    have htail : ∀ i ≤ rest.length, mid (userAddr mid r (srcva + n + i)) =
        m (userAddr m r (srcva + (n + i))) := by
      intro i hi
      rw [hsame.userAddr_eq, hbytes i (by omega) (hacc' i hi), Nat.add_assoc]
    have hsum : (((List.range n).map fun i => m (userAddr m r (srcva + i))) ++ rest).length =
        n + rest.length := by
      rw [List.length_append, hlen]
    refine ⟨by rw [hsum]; omega, by rw [hsum]; exact hend', fun i hi => ?_, fun i hi => ?_,
      fun x hx => ?_⟩
    · rw [hsum] at hi
      by_cases hin : i < n
      · rw [List.getElem?_append_left (by rwa [hlen])]
        simp [hin]
      · obtain ⟨j, rfl⟩ := Nat.exists_eq_add_of_le (Nat.le_of_not_lt hin)
        rw [List.getElem?_append_right (by rw [hlen]; omega), hlen, Nat.add_sub_cancel_left,
          hstr j (by omega), htail j (by omega)]
    · rw [hsum] at hi
      by_cases hin : i < n
      · rw [hframe _ (by omega), hmid, Memory.blit, if_pos (by rw [hlen]; omega),
          Nat.add_sub_cancel_left]
        simp [List.getD_eq_getElem?_getD, hin]
      · obtain ⟨j, rfl⟩ := Nat.exists_eq_add_of_le (Nat.le_of_not_lt hin)
        rw [← Nat.add_assoc, hcopied j (by omega), htail j (by omega)]
    · rw [hsum] at hx
      rw [hframe x (by omega), hout x (by omega)]

theorem copyinstrLoop_zero (r rounds dst srcva : Nat) (s : Ram) :
    copyinstrLoop r rounds dst srcva 0 s = .ok (none, s) := by
  cases rounds with
  | zero => rfl
  | succ rounds => rfl

/-- The loop finds the end of the string within the bound, or there is none. -/
theorem copyinstrLoop_spec {rounds : Nat} {s : Ram} (hrounds : max ≤ rounds)
    (hapart : BufferApart s.mem r dst srcva max) :
    ∃ res t, copyinstrLoop r rounds dst srcva max s = .ok (res, t) ∧
      StringCopied s.mem t.mem r dst srcva max res := by
  induction rounds generalizing dst srcva max s with
  | zero =>
    have hmax : max = 0 := by omega
    subst hmax
    exact ⟨none, s, rfl, fun k hk => by omega, fun _ _ => rfl⟩
  | succ rounds ih =>
    unfold copyinstrLoop
    by_cases hmax : max = 0
    · subst hmax
      exact ⟨none, s, rfl, fun k hk => by omega, fun _ _ => rfl⟩
    · rw [if_neg hmax, bind_of_ok walkaddr_eq]
      by_cases hpage : userPage s.mem r (pgRoundDown srcva) = 0
      · -- the first byte cannot be read
        rw [if_pos hpage]
        refine ⟨none, s, rfl, fun k hk hend => ?_, fun _ _ => rfl⟩
        have hacc := hend.accessible 0 (Nat.zero_le _)
        rw [Nat.add_zero, ← accessible_of_page (pgRoundDown_div srcva),
          ← userPage_ne_zero_iff] at hacc
        exact hacc hpage
      · rw [if_neg hpage, sub_pgRoundDown, bind_of_ok rfl]
        have hmod := Nat.mod_lt srcva (show 0 < pgSize by decide)
        generalize hn : min (pgSize - srcva % pgSize) max = n
        have hacc : ∀ i < n, Accessible s.mem r (srcva + i) := by
          intro i hi
          rw [accessible_add (by omega), ← accessible_of_page (pgRoundDown_div srcva),
            ← userPage_ne_zero_iff]
          exact hpage
        have hbytes : ((List.range n).map fun i => s.mem (userPage s.mem r (pgRoundDown srcva) +
            srcva % pgSize + i)) =
            (List.range n).map fun i => s.mem (userAddr s.mem r (srcva + i)) := by
          refine List.map_congr_left fun i hi => ?_
          rw [userAddr_add (by have := List.mem_range.mp hi; omega)]
        rw [hbytes]
        obtain ⟨k, hk, heq, hne, hzero⟩ :=
          takeWhile_map_range (fun i => s.mem (userAddr s.mem r (srcva + i))) n
        rw [heq, bind_of_ok rfl, List.length_map, List.length_range]
        by_cases hshort : k < n
        · rw [if_pos hshort, bind_of_ok rfl]
          exact ⟨_, _, rfl, stringCopied_of_end (by omega)
            ⟨fun i hi => hacc i (by omega), hzero hshort, hne⟩⟩
        · have hkn : k = n := by omega
          subst hkn
          rw [if_neg hshort]
          -- the rest of the range starts on the next page, unless there is none
          have hrest : ∃ res t, copyinstrLoop r rounds (dst + k) (pgRoundDown srcva + pgSize)
              (max - k) { s with mem := s.mem.blit dst ((List.range k).map fun i =>
                s.mem (userAddr s.mem r (srcva + i))) } = .ok (res, t) ∧
              StringCopied (s.mem.blit dst ((List.range k).map fun i =>
                s.mem (userAddr s.mem r (srcva + i)))) t.mem r (dst + k) (srcva + k)
                (max - k) res := by
            by_cases hlast : k = max
            · subst hlast
              rw [Nat.sub_self, copyinstrLoop_zero]
              exact ⟨none, _, rfl, fun j hj => by omega, fun _ _ => rfl⟩
            · have hnext : pgRoundDown srcva + pgSize = srcva + k := by
                unfold pgRoundDown pgSize at *
                omega
              rw [hnext]
              refine ih (by omega) (hapart.rest (hapart.same fun x hx => ?_).1 (by omega))
              exact Memory.blit_of_not_mem (by simp only [List.length_map, List.length_range]; omega)
          obtain ⟨res, t, hrun, hcopied⟩ := hrest
          rw [bind_of_ok hrun]
          have happend := stringCopied_append (by omega) hapart hacc hne rfl hcopied
          cases res with
          | none => exact ⟨none, t, rfl, happend⟩
          | some rest => exact ⟨some _, t, rfl, happend⟩

/-- The call that fetches a string returns its length. -/
theorem fetchstrLength_eq {s t : Ram} {res : Option (List (BitVec 8))}
    (hrun : copyinstr r dst srcva max s = .ok (res, t))
    (hcopied : StringCopied s.mem t.mem r dst srcva max res) :
    fetchstrLength r srcva dst max s = .ok (res.elim (-1) fun str => (str.length : Nat), t) := by
  rw [fetchstrLength, bind_of_ok hrun]
  cases res with
  | none => rfl
  | some str =>
    obtain ⟨hshort, hend, -, hbytes, -⟩ := hcopied
    have hlen : strlen t.mem dst max = str.length := by
      refine strlen_eq hshort ?_ fun i hi => ?_
      · rw [hbytes _ le_rfl]
        exact hend.zero
      · rw [hbytes i hi.le]
        exact hend.before i hi
    simp only
    rw [bind_of_ok (get_apply t), hlen]
    rfl

/-- `copyinstr` succeeds exactly if the string ends within the bound and is accessible to its
end; it then copies the string with its end and nothing else, and `fetchstr` and
`argstr` return the length.  Otherwise nothing outside the buffer changes. -/
theorem copyinstr_exact {s : Ram} (hapart : BufferApart s.mem r dst srcva max) :
    ∃ res t, copyinstr r dst srcva max s = .ok (res, t) ∧
      (res.isSome ↔ ∃ k < max, EndsAfter s.mem r srcva k) ∧ (∀ k < max, EndsAfter s.mem r srcva k →
        (∀ i ≤ k, t.mem (dst + i) = s.mem (userAddr s.mem r (srcva + i))) ∧
        (∀ x, ¬(dst ≤ x ∧ x ≤ dst + k) → t.mem x = s.mem x) ∧
        fetchstrLength r srcva dst max s = .ok ((k : Nat), t) ∧
        ∀ args n, args n = srcva → argstr args r n dst max s = .ok ((k : Nat), t)) ∧
      (res = none → (∀ x, ¬(dst ≤ x ∧ x < dst + max) → t.mem x = s.mem x) ∧
        fetchstrLength r srcva dst max s = .ok (-1, t)) := by
  obtain ⟨res, t, hrun, hcopied⟩ := @copyinstrLoop_spec r dst srcva max max s le_rfl hapart
  have hfetch := fetchstrLength_eq hrun hcopied
  refine ⟨res, t, hrun, ?_⟩
  cases res with
  | none =>
    refine ⟨⟨fun h => ?_, fun ⟨k, hk, hend⟩ => absurd hend (hcopied.1 k hk)⟩,
      fun k hk hend => absurd hend (hcopied.1 k hk), fun _ => ⟨hcopied.2, hfetch⟩⟩
    cases h
  | some str =>
    obtain ⟨hshort, hend, -, hbytes, hframe⟩ := hcopied
    refine ⟨⟨fun _ => ⟨_, hshort, hend⟩, fun _ => rfl⟩, fun k hk hend' => ?_, nofun⟩
    have hlen : k = str.length := hend'.unique hend
    subst hlen
    refine ⟨hbytes, hframe, hfetch, fun args n harg => ?_⟩
    rw [argstr, harg]
    exact hfetch

end

/-- A string in the physical page 0 is mapped for user code, but it is not found. -/
theorem string_at_page_zero_not_found :
    leaf (onePage (dataPage 0)) 0x1000 0 &&& pteV ≠ 0 ∧
      leaf (onePage (dataPage 0)) 0x1000 0 &&& pteU ≠ 0 ∧
      onePage (dataPage 0) (pte2pa (leaf (onePage (dataPage 0)) 0x1000 0)) = 0 ∧
      copyinstr 0x1000 0x6000 0 1 (onePageRam (dataPage 0)) =
        .ok (none, onePageRam (dataPage 0)) := by
  have hpage : userPage (onePageRam (dataPage 0)).mem 0x1000 (pgRoundDown 0) = 0 := by
    decide +kernel
  refine ⟨by decide +kernel, by decide +kernel, by decide +kernel, ?_⟩
  rw [copyinstr, copyinstrLoop, if_neg (by decide), bind_of_ok walkaddr_eq, if_pos hpage]
  rfl

/-- A process whose memory starts with a string of two bytes. -/
def greeting : Ram :=
  { onePageRam (dataPage 0x5000) with mem := (onePage (dataPage 0x5000)).blit 0x5000 [72, 105] }

theorem copyinstr_exact_greeting :
    ∃ t, fetchstrLength 0x1000 0 0x6000 4 greeting = .ok (2, t) ∧
      ∀ i ≤ 2, t.mem (0x6000 + i) = greeting.mem (userAddr greeting.mem 0x1000 (0 + i)) := by
  have hsame : SameTable 0x1000 (onePage (dataPage 0x5000)) greeting.mem := by
    refine sameTable_twoPages (by decide) (fun _ _ _ _ _ => rfl) fun x _ hx => ?_
    exact Memory.blit_of_not_mem (by simp only [List.length_cons, List.length_nil]; omega)
  have hpage : userPage greeting.mem 0x1000 0 = 0x5000 := by decide +kernel
  have hapart : BufferApart greeting.mem 0x1000 0x6000 0 4 := by
    constructor
    · intro path n hlen hn
      rw [hsame.table_eq hlen] at hn
      have hplace := table_twoPages (by decide) hlen hn
      unfold pgSize
      omega
    · intro va _ hva _
      have hround : pgRoundDown va = 0 := by
        unfold pgRoundDown pgSize
        omega
      rw [hround, hpage]
      decide
  have hend : EndsAfter greeting.mem 0x1000 0 2 :=
    ⟨by decide +kernel, by decide +kernel, by decide +kernel⟩
  obtain ⟨-, t, -, -, hfound, -⟩ := copyinstr_exact hapart
  obtain ⟨hbytes, -, hfetch, -⟩ := hfound 2 (by decide) hend
  exact ⟨t, hfetch, hbytes⟩

end Kernel
end FastIpc
