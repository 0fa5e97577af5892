import FastIpc.Foundation.Tiling
import FastIpc.Kernel.Arguments

/-!
# Moving bytes between the kernel and a process

The loops of `copyout` and `copyin` for any way to move the bytes of one piece.  They
cut a range of user addresses at the page boundaries, look every page up and stop at the first one
that user code cannot access.  `walkaddr` says by 0 that there is no such page, so a page with
the physical address 0 counts as missing.

Main results:

- Theorems `copyoutLoop_eq_transfer`, `copyinLoop_eq_pieces`: the calls on a buffer of the kernel are
  instances.
- Theorem `transfer_eq`: the loop moves the pieces of the range, one after the other.
- Theorem `pieces_split`: the pieces follow each other up to the first page that is missing.
- Theorem `copies_split_exactly`: both for `copyout` and `copyin`, in terms of the
  page table.
-/

namespace FastIpc
namespace Kernel

open Foundation FaultM

/-! ## The loops -/

/-- A piece of a transfer: user address, physical address, offset in the buffer of the kernel, and
length. -/
structure Piece where
  va : Nat
  pa : Nat
  off : Nat
  len : Nat
deriving DecidableEq

/-- The user addresses of a piece. -/
def Piece.range (p : Piece) : Nat × Nat := (p.va, p.len)

/-- The loop of `copyout` and `copyin`, with `len` bytes to go from the user address
`va` on; every round takes at least one byte, so their number bounds the rounds. -/
def transfer (move : Piece → RamM Unit) (pagetable : Nat) : Nat → Nat → Nat → Nat → RamM Int
  | 0, _, _, _ => return 0
  | rounds + 1, va, off, len => do
    if len = 0 then
      return 0
    else
      let va0 := pgRoundDown va
      let pa0 ← walkaddr pagetable va0
      if pa0 = 0 then
        return -1
      else
        let n := min (pgSize - (va - va0)) len
        move ⟨va, pa0 + (va - va0), off, n⟩
        transfer move pagetable rounds (va0 + pgSize) (off + n) (len - n)

/-- `copyout` with a given way to move bytes; its arguments are those of `memmove`. -/
def copyoutWith (mover : Nat → Nat → Nat → RamM Unit) (pagetable dstva src len : Nat) : RamM Int :=
  transfer (fun p => mover p.pa (src + p.off) p.len) pagetable len dstva 0 len

/-- `copyin` with a given way to move bytes. -/
def copyinWith (mover : Nat → Nat → Nat → RamM Unit) (pagetable dst srcva len : Nat) : RamM Int :=
  transfer (fun p => mover (dst + p.off) p.pa p.len) pagetable len srcva 0 len

/-- `mymemmove` on the memory of the machine. -/
def mymemmoveRam (dst src n : Nat) : RamM Unit := fun s =>
  .ok ((), { s with mem := mymemmove s.mem dst src n })

/-- `copyout` moves the bytes of its buffer by this loop. -/
theorem copyoutLoop_eq_transfer (r src : Nat) (bytes : List (BitVec 8)) (rounds va off : Nat) :
    copyoutLoop r rounds va (src + off) (bytes.drop off) =
      transfer (fun p => copyBytes p.pa (src + p.off) ((bytes.drop p.off).take p.len)) r rounds va
        off (bytes.length - off) := by
  induction rounds generalizing va off with
  | zero => rfl
  | succ rounds ih =>
    rw [copyoutLoop, transfer, List.length_drop]
    simp only [List.drop_drop, Nat.add_assoc, ih, Nat.sub_sub]

/-! ## The pieces of a range -/

/-- The pieces moved, and the value returned, for a given page lookup. -/
def pieces (page : Nat → Nat) : Nat → Nat → Nat → Nat → List Piece × Int
  | 0, _, _, _ => ([], 0)
  | rounds + 1, va, off, len =>
    if len = 0 then ([], 0)
    else
      let va0 := pgRoundDown va
      if page va0 = 0 then ([], -1)
      else
        let n := min (pgSize - (va - va0)) len
        let rest := pieces page rounds (va0 + pgSize) (off + n) (len - n)
        (⟨va, page va0 + (va - va0), off, n⟩ :: rest.1, rest.2)

/-- What a piece puts into a kernel buffer at `dst`, of which `mymemmove` copies a front part. -/
def Piece.fill (p : Piece) (m : Memory) (dst : Nat) (old : List (BitVec 8)) : List (BitVec 8) :=
  let moved := movedBytes (dst + p.off) p.pa p.len
  (List.range moved).map (fun i => m (p.pa + i)) ++ ((old.drop p.off).take p.len).drop moved

/-- `copyin` fills its buffer piece by piece. -/
theorem copyinLoop_eq_pieces (r dst : Nat) (old : List (BitVec 8)) (s : Ram) (rounds va off : Nat) :
    copyinLoop r rounds (dst + off) (old.drop off) va s =
      let ps := pieces (userPage s.mem r) rounds va off (old.length - off)
      .ok (if ps.2 = 0 then some (ps.1.flatMap (Piece.fill · s.mem dst old)) else none, s) := by
  induction rounds generalizing va off with
  | zero => rfl
  | succ rounds ih =>
    rw [copyinLoop, pieces, List.length_drop]
    by_cases hlen : old.length - off = 0
    · rw [if_pos hlen, if_pos hlen]
      rfl
    · rw [if_neg hlen, if_neg hlen]
      dsimp only
      rw [bind_of_ok walkaddr_eq]
      by_cases hpage : userPage s.mem r (pgRoundDown va) = 0
      · rw [if_pos hpage, if_pos hpage]
        rfl
      · rw [if_neg hpage, if_neg hpage, bind_of_ok rfl, List.drop_drop, Nat.add_assoc,
          bind_of_ok (ih ..), Nat.sub_sub]
        dsimp only
        split_ifs <;> rfl

theorem pieces_zero (page : Nat → Nat) (rounds va off : Nat) :
    pieces page rounds va off 0 = ([], 0) := by
  cases rounds with
  | zero => rfl
  | succ rounds => rfl

/-- Move some pieces. -/
def moves (move : Piece → RamM Unit) : List Piece → RamM Unit
  | [] => return
  | p :: rest => do
    move p
    moves move rest

/-- The page-table pages of the first memory are the same in the second. -/
def SameTable (r : Nat) (m m' : Memory) : Prop :=
  ∀ path n i, path.length ≤ 2 → table m r path = some n → entryAt m' n i = entryAt m n i

namespace SameTable

variable {r : Nat} {m m' : Memory}

variable (h : SameTable r m m')
include h

theorem table_eq {path : List (Fin 512)} (hpath : path.length ≤ 2) :
    table m' r path = table m r path :=
  RadixTree.descend_congr (fun walked n i hlen hn => h walked n i hlen.le hn) hpath

theorem leaf_eq (va : Nat) : leaf m' r va = leaf m r va := by
  unfold leaf
  rw [h.table_eq le_rfl]
  cases hn : table m r [px 2 va, px 1 va] with
  | none => rfl
  | some n => exact h _ n _ le_rfl hn

theorem userPage_eq (va : Nat) : userPage m' r va = userPage m r va := by
  unfold userPage
  rw [h.leaf_eq]

theorem userAddr_eq (va : Nat) : userAddr m' r va = userAddr m r va := by
  unfold userAddr
  rw [h.userPage_eq]

theorem of_eq {m'' : Memory}
    (hsame : ∀ path n, path.length ≤ 2 → table m r path = some n → ∀ x, n ≤ x → x < n + pgSize →
      m'' x = m' x) :
    SameTable r m m'' := by
  intro path n i hlen hn
  rw [← h path n i hlen hn]
  refine Memory.readLE_congr fun x hlo hhi => hsame path n hlen hn x (by omega) ?_
  have hi := i.isLt
  unfold pgSize
  omega

end SameTable

/-- The loop moves the pieces one after the other, if moving them leaves the page table alone. -/
theorem transfer_eq {move : Piece → RamM Unit} {r : Nat} {s u : Ram} {rounds va off len : Nat}
    (hsame : SameTable r s.mem u.mem)
    (hmove : ∀ p ∈ (pieces (userPage s.mem r) rounds va off len).1, ∀ u, SameTable r s.mem u.mem →
      ∃ t, move p u = .ok ((), t) ∧ SameTable r s.mem t.mem) :
    ∃ t, transfer move r rounds va off len u =
        .ok ((pieces (userPage s.mem r) rounds va off len).2, t) ∧
      moves move (pieces (userPage s.mem r) rounds va off len).1 u = .ok ((), t) := by
  induction rounds generalizing u va off len with
  | zero => exact ⟨u, rfl, rfl⟩
  | succ rounds ih =>
    unfold transfer
    unfold pieces at hmove ⊢
    by_cases hlen : len = 0
    · rw [if_pos hlen] at hmove ⊢
      rw [if_pos hlen]
      exact ⟨u, rfl, rfl⟩
    · rw [if_neg hlen] at hmove ⊢
      rw [if_neg hlen, bind_of_ok walkaddr_eq, hsame.userPage_eq]
      dsimp only at hmove ⊢
      by_cases hpage : userPage s.mem r (pgRoundDown va) = 0
      · rw [if_pos hpage, if_pos hpage]
        exact ⟨u, rfl, rfl⟩
      · rw [if_neg hpage] at hmove ⊢
        rw [if_neg hpage]
        obtain ⟨u', hu', hsame'⟩ := hmove _ (List.mem_cons_self ..) u hsame
        obtain ⟨t, hrest, hmoves⟩ := ih hsame' fun p hp => hmove p (List.mem_cons_of_mem _ hp)
        refine ⟨t, ?_, ?_⟩
        · rw [bind_of_ok hu', hrest]
        · rw [moves, bind_of_ok hu', hmoves]

/-- The pieces of a range of which `moved` bytes are moved. -/
structure Split (page : Nat → Nat) (va off len moved : Nat) (ps : List Piece) (ret : Int) :
    Prop where
  le : moved ≤ len
  /-- They follow each other. -/
  tiles : Tiles va (ps.map Piece.range) (va + moved)
  /-- The offsets in the buffer match. -/
  offset : ∀ p ∈ ps, p.off + va = p.va + off
  /-- Each lies in one page, which is there. -/
  inside : ∀ p ∈ ps, 0 < p.len ∧ p.va % pgSize + p.len ≤ pgSize ∧
    page (pgRoundDown p.va) ≠ 0 ∧ p.pa = page (pgRoundDown p.va) + p.va % pgSize
  /-- They end with the range or at a page that is missing. -/
  result : moved = len ∧ ret = 0 ∨ moved < len ∧ ret = -1 ∧ page (pgRoundDown (va + moved)) = 0

theorem sub_pgRoundDown (va : Nat) : va - pgRoundDown va = va % pgSize := by
  unfold pgRoundDown pgSize
  omega

theorem pieces_split (page : Nat → Nat) {rounds va off len : Nat} (hrounds : len ≤ rounds) :
    ∃ moved, Split page va off len moved (pieces page rounds va off len).1
      (pieces page rounds va off len).2 := by
  induction rounds generalizing va off len with
  | zero =>
    have hlen : len = 0 := by omega
    exact ⟨0, Nat.zero_le _, rfl, by simp [pieces], by simp [pieces], .inl ⟨hlen.symm, rfl⟩⟩
  | succ rounds ih =>
    unfold pieces
    by_cases hlen : len = 0
    · rw [if_pos hlen]
      exact ⟨0, Nat.zero_le _, rfl, by simp, by simp, .inl ⟨hlen.symm, rfl⟩⟩
    · rw [if_neg hlen]
      dsimp only
      by_cases hpage : page (pgRoundDown va) = 0
      · rw [if_pos hpage]
        exact ⟨0, Nat.zero_le _, rfl, by simp, by simp,
          .inr ⟨by omega, rfl, by rw [Nat.add_zero]; exact hpage⟩⟩
      · rw [if_neg hpage, sub_pgRoundDown]
        generalize hn : min (pgSize - va % pgSize) len = n
        have hmod := Nat.mod_lt va (show 0 < pgSize by decide)
        obtain ⟨moved, hrest⟩ := @ih (pgRoundDown va + pgSize) (off + n) (len - n) (by omega)
        -- unless this piece is the last one, the next starts where it ends
        have hnext : n < len → pgRoundDown va + pgSize = va + n := by
          intro hlt
          unfold pgRoundDown pgSize at *
          omega
        have hmoved : n = len → moved = 0 := by
          intro heq
          have hle := hrest.le
          omega
        refine ⟨n + moved, ?_, ⟨rfl, ?_⟩, ?_, ?_, ?_⟩
        · have hle := hrest.le
          omega
        · by_cases hlast : n = len
          · rw [hlast, Nat.sub_self, pieces_zero, ← hlast, hmoved hlast]
            rfl
          · have htiles := hrest.tiles
            rw [hnext (by omega)] at htiles ⊢
            rwa [← Nat.add_assoc]
        · intro p hp
          rcases List.mem_cons.mp hp with rfl | hp
          · exact Nat.add_comm ..
          · have hoffset := hrest.offset p hp
            have hlt : n < len := by
              by_contra hge
              rw [Nat.sub_eq_zero_of_le (Nat.le_of_not_lt hge), pieces_zero] at hp
              cases hp
            rw [hnext hlt] at hoffset
            omega
        · intro p hp
          rcases List.mem_cons.mp hp with rfl | hp
          · exact ⟨by dsimp only; omega, by dsimp only; omega, hpage, rfl⟩
          · exact hrest.inside p hp
        · rcases hrest.result with ⟨heq, hret⟩ | ⟨hlt, hret, hnone⟩
          · exact .inl ⟨by omega, hret⟩
          · refine .inr ⟨by omega, hret, ?_⟩
            rw [hnext (by omega)] at hnone
            rwa [← Nat.add_assoc]

/-! ## Accessible addresses -/

/-- User code may access the address, and its page is not the physical page 0. -/
def Accessible (m : Memory) (r va : Nat) : Prop :=
  va < maxVA ∧ leaf m r va &&& pteV ≠ 0 ∧ leaf m r va &&& pteU ≠ 0 ∧ pte2pa (leaf m r va) ≠ 0

instance (m : Memory) (r va : Nat) : Decidable (Accessible m r va) :=
  inferInstanceAs (Decidable (_ ∧ _))

theorem pgRoundDown_div (va : Nat) : pgRoundDown va / pgSize = va / pgSize :=
  Nat.mul_div_cancel _ (by decide)

theorem lt_maxVA_of_page {va va' : Nat} (h : va / pgSize = va' / pgSize) :
    va < maxVA ↔ va' < maxVA := by
  have hmax : maxVA = 67108864 * pgSize := by decide
  rw [hmax, ← Nat.div_lt_iff_lt_mul (by decide), h, Nat.div_lt_iff_lt_mul (by decide)]

theorem accessible_of_page {m : Memory} {r va va' : Nat} (h : va / pgSize = va' / pgSize) :
    Accessible m r va ↔ Accessible m r va' := by
  unfold Accessible
  rw [leaf_eq_of_page h, lt_maxVA_of_page h]

theorem SameTable.accessible_iff {m m' : Memory} {r va : Nat} (h : SameTable r m m') :
    Accessible m' r va ↔ Accessible m r va := by
  unfold Accessible
  rw [h.leaf_eq]

theorem userPage_of_accessible {m : Memory} {r va : Nat} (h : Accessible m r va) :
    userPage m r va = pte2pa (leaf m r va) := by
  rw [userPage, if_neg (Nat.not_le.mpr h.1), if_neg h.2.1, if_neg h.2.2.1]

/-- `walkaddr` finds the page of an address exactly if the address is accessible. -/
theorem userPage_ne_zero_iff {m : Memory} {r va : Nat} :
    userPage m r va ≠ 0 ↔ Accessible m r va := by
  constructor
  · intro hne
    unfold userPage at hne
    split at hne
    next => exact absurd rfl hne
    next hva =>
      split at hne
      next => exact absurd rfl hne
      next hvalid =>
        split at hne
        next => exact absurd rfl hne
        next huser => exact ⟨Nat.lt_of_not_le hva, hvalid, huser, hne⟩
  · intro h
    rw [userPage_of_accessible h]
    exact h.2.2.2

/-- The pieces of a copy between the kernel and the range of `len` bytes from `va` on,
of which `moved` bytes are moved. -/
structure ExactSplit (m : Memory) (r va len moved : Nat) (ps : List Piece) (ret : Int) :
    Prop where
  le : moved ≤ len
  /-- The pieces follow each other from `va` on. -/
  tiles : Tiles va (ps.map Piece.range) (va + moved)
  /-- The offsets in the buffer of the kernel match. -/
  offset : ∀ p ∈ ps, p.va = va + p.off
  /-- Each piece lies in one user page. -/
  inside : ∀ p ∈ ps, 0 < p.len ∧ p.va % pgSize + p.len ≤ pgSize ∧ Accessible m r p.va ∧
    p.pa = pte2pa (leaf m r p.va) + p.va % pgSize
  /-- The call succeeds if the whole range is accessible. -/
  zero_iff : ret = 0 ↔ ∀ x, va ≤ x → x < va + len → Accessible m r x
  moved_all : ret = 0 → moved = len
  /-- Otherwise it stops at the first address that is not. -/
  stopped : ret ≠ 0 → ret = -1 ∧ moved < len ∧ ¬Accessible m r (va + moved) ∧
    ∀ x, va ≤ x → x < va + moved → Accessible m r x

/-- The pieces of a range, in terms of the page table. -/
theorem Split.exact {m : Memory} {r va len moved : Nat} {ps : List Piece} {ret : Int}
    (h : Split (userPage m r) va 0 len moved ps ret) : ExactSplit m r va len moved ps ret := by
  have hpage : ∀ x, userPage m r (pgRoundDown x) ≠ 0 ↔ Accessible m r x := by
    intro x
    rw [userPage_ne_zero_iff, accessible_of_page (pgRoundDown_div x)]
  -- what was moved lies in pieces, each of them in one accessible page
  have hmoved : ∀ x, va ≤ x → x < va + moved → Accessible m r x := by
    intro x hlo hhi
    obtain ⟨range, hrange, hfrom, hto⟩ := h.tiles.exists_range hlo hhi
    obtain ⟨p, hp, rfl⟩ := List.mem_map.mp hrange
    obtain ⟨-, hfits, hne, -⟩ := h.inside p hp
    have hsame : x / pgSize = p.va / pgSize := by
      unfold Piece.range at hfrom hto
      unfold pgSize at hfits ⊢
      dsimp only at hfrom hto
      omega
    rw [accessible_of_page hsame]
    exact (hpage _).mp hne
  have hstop : ∀ {x}, userPage m r (pgRoundDown x) = 0 → ¬Accessible m r x :=
    fun hzero hacc => (hpage _).mpr hacc hzero
  constructor
  · exact h.le
  · exact h.tiles
  · intro p hp
    have hoffset := h.offset p hp
    omega
  · intro p hp
    obtain ⟨hpos, hfits, hne, hpa⟩ := h.inside p hp
    have hacc := (hpage p.va).mp hne
    refine ⟨hpos, hfits, hacc, ?_⟩
    rw [hpa, userPage_of_accessible ((accessible_of_page (pgRoundDown_div _)).mpr hacc),
      leaf_eq_of_page (pgRoundDown_div _)]
  · rcases h.result with ⟨rfl, rfl⟩ | ⟨hlt, rfl, hzero⟩
    · exact ⟨fun _ => hmoved, fun _ => rfl⟩
    · constructor
      · intro hret
        cases hret
      · intro hall
        exact absurd (hall _ (by omega) (by omega)) (hstop hzero)
  · rcases h.result with ⟨heq, -⟩ | ⟨-, rfl, -⟩
    · exact fun _ => heq
    · intro hret
      cases hret
  · rcases h.result with ⟨-, rfl⟩ | ⟨hlt, rfl, hzero⟩
    · intro hret
      exact absurd rfl hret
    · exact fun _ => ⟨rfl, hlt, hstop hzero, hmoved⟩

/-- The pieces of a range of user addresses, and the value returned. -/
def userPieces (m : Memory) (r va len : Nat) : List Piece × Int :=
  pieces (userPage m r) len va 0 len

/-- `copyout` and `copyin` cut a user range at the page boundaries and move the pieces in
order up to the first page that user code cannot access, for any way to move a piece that leaves
the page table alone. -/
theorem copies_split_exactly {mover : Nat → Nat → Nat → RamM Unit} {r va len buf : Nat} {s : Ram}
    (hout : ∀ p ∈ (userPieces s.mem r va len).1, ∀ u, SameTable r s.mem u.mem →
      ∃ t, mover p.pa (buf + p.off) p.len u = .ok ((), t) ∧ SameTable r s.mem t.mem)
    (hin : ∀ p ∈ (userPieces s.mem r va len).1, ∀ u, SameTable r s.mem u.mem →
      ∃ t, mover (buf + p.off) p.pa p.len u = .ok ((), t) ∧ SameTable r s.mem t.mem) :
    ∃ ps ret moved, ExactSplit s.mem r va len moved ps ret ∧
      (∃ t, copyoutWith mover r va buf len s = .ok (ret, t) ∧
        moves (fun p => mover p.pa (buf + p.off) p.len) ps s = .ok ((), t)) ∧
      ∃ t, copyinWith mover r buf va len s = .ok (ret, t) ∧
        moves (fun p => mover (buf + p.off) p.pa p.len) ps s = .ok ((), t) := by
  obtain ⟨moved, hsplit⟩ := @pieces_split (userPage s.mem r) len va 0 len le_rfl
  refine ⟨_, _, moved, hsplit.exact, ?_, ?_⟩
  · exact transfer_eq (fun _ _ _ _ _ => rfl) hout
  · exact transfer_eq (fun _ _ _ _ _ => rfl) hin

/-! ## A process of two pages -/

/-- A memory that is empty but for the page tables, at 0x1000, 0x2000 and 0x3000, of a process
with the entries `pte` and `next` for its lowest pages. -/
def twoPages (pte next : Nat) : Memory :=
  (((Memory.writeLE (fun _ => 0) 0x1000 8 (mkPte 0x2000 0)).writeLE 0x2000 8
    (mkPte 0x3000 0)).writeLE 0x3000 8 pte).writeLE 0x3008 8 next

/-- The same with one page. -/
abbrev onePage (pte : Nat) : Memory := twoPages pte 0

/-- A page of user memory that can be read and written. -/
def dataPage (pa : Nat) : Nat := mkPte pa (pteR ||| pteW ||| pteU)

theorem entryAt_twoPages {pte next p : Nat} (hpte : pte < 256 ^ 8 ∧ next < 256 ^ 8)
    (hp : p % pgSize = 0) (i : Fin 512) :
    entryAt (twoPages pte next) p i = if p = 0x3000 ∧ i = 1 then next
      else if p = 0x3000 ∧ i = 0 then pte
      else if p = 0x2000 ∧ i = 0 then mkPte 0x3000 0
      else if p = 0x1000 ∧ i = 0 then mkPte 0x2000 0
      else 0 := by
  have heq : twoPages pte next = (((Memory.writeLE (fun _ => 0) (0x1000 + 8 * (0 : Fin 512)) 8
      (mkPte 0x2000 0)).writeLE (0x2000 + 8 * (0 : Fin 512)) 8 (mkPte 0x3000 0)).writeLE
      (0x3000 + 8 * (0 : Fin 512)) 8 pte).writeLE (0x3000 + 8 * (1 : Fin 512)) 8 next := rfl
  rw [heq, Owned.entryAt_store (by decide) hp hpte.2, Owned.entryAt_store (by decide) hp hpte.1,
    Owned.entryAt_store (by decide) hp (by decide), Owned.entryAt_store (by decide) hp (by decide)]
  rfl

theorem childOf_twoPages {pte next p c : Nat} {i : Fin 512} (hpte : pte < 256 ^ 8 ∧ next < 256 ^ 8)
    (hp : p = 0x1000 ∨ p = 0x2000) (hc : childOf (entryAt (twoPages pte next) p i) = some c) :
    c = p + 0x1000 := by
  have hmid : childOf (mkPte 0x2000 0) = some 0x2000 := by decide
  have hlow : childOf (mkPte 0x3000 0) = some 0x3000 := by decide
  rw [entryAt_twoPages hpte (by rcases hp with rfl | rfl <;> decide), if_neg (by omega),
    if_neg (by omega)] at hc
  split at hc
  next h =>
    rw [hlow] at hc
    rw [h.1, ← Option.some.inj hc]
  next =>
    split at hc
    next h =>
      rw [hmid] at hc
      rw [h.1, ← Option.some.inj hc]
    next =>
      rw [childOf_zero] at hc
      cases hc

theorem table_twoPages {pte next n : Nat} {path : List (Fin 512)} (hpte : pte < 256 ^ 8 ∧ next < 256 ^ 8)
    (hlen : path.length ≤ 2) (hn : table (twoPages pte next) 0x1000 path = some n) :
    n = 0x1000 + 0x1000 * path.length := by
  match path with
  | [] => exact (Option.some.inj hn).symm
  | [i] =>
    obtain ⟨c, hc, hrest⟩ := Option.bind_eq_some_iff.mp hn
    rw [← Option.some.inj hrest, childOf_twoPages hpte (.inl rfl) hc]
    rfl
  | [i, j] =>
    obtain ⟨c, hc, hrest⟩ := Option.bind_eq_some_iff.mp hn
    have hmid := childOf_twoPages hpte (.inl rfl) hc
    obtain ⟨d, hd, hlast⟩ := Option.bind_eq_some_iff.mp hrest
    have hlow := childOf_twoPages hpte (.inr hmid) hd
    have heq := Option.some.inj hlast
    simp only [List.length_cons, List.length_nil]
    omega
  | _ :: _ :: _ :: _ =>
    simp only [List.length_cons] at hlen
    omega

theorem sameTable_twoPages {pte next : Nat} {m m' : Memory} (hpte : pte < 256 ^ 8 ∧ next < 256 ^ 8)
    (h : SameTable 0x1000 (twoPages pte next) m) (hsame : ∀ x, 0x1000 ≤ x → x < 0x4000 → m' x = m x) :
    SameTable 0x1000 (twoPages pte next) m' := by
  refine h.of_eq fun path n hlen hn x hlo hhi => hsame x ?_ ?_
  · have hplace := table_twoPages hpte hlen hn
    omega
  · have hplace := table_twoPages hpte hlen hn
    unfold pgSize at hhi
    omega

/-- The memory of a process of two pages, with nothing on the free list. -/
def twoPagesRam (pte next : Nat) : Ram where
  mem := twoPages pte next
  freelist := 0
  fails := []

/-- The memory of a process of one page. -/
abbrev onePageRam (pte : Nat) : Ram := twoPagesRam pte 0

/-- The memory of a process with two data pages. -/
def twoDataPages : Ram := twoPagesRam (dataPage 0x5000) (dataPage 0x8000)

/-- A page that lies at the physical address 0 is mapped for user code, but neither copy reaches
it. -/
theorem page_zero_not_copied :
    leaf (onePage (dataPage 0)) 0x1000 0 &&& pteV ≠ 0 ∧
      leaf (onePage (dataPage 0)) 0x1000 0 &&& pteU ≠ 0 ∧
      ∀ mover, (∃ t, copyoutWith mover 0x1000 0 0x6000 1 (onePageRam (dataPage 0)) = .ok (-1, t)) ∧
        ∃ t, copyinWith mover 0x1000 0x6000 0 1 (onePageRam (dataPage 0)) = .ok (-1, t) := by
  have hpieces : pieces (userPage (onePageRam (dataPage 0)).mem 0x1000) 1 0 0 1 = ([], -1) := by
    decide +kernel
  have hrun : ∀ move, ∃ t, transfer move 0x1000 1 0 0 1 (onePageRam (dataPage 0)) =
      .ok (-1, t) := by
    intro move
    obtain ⟨t, ht, -⟩ := @transfer_eq move 0x1000 (onePageRam (dataPage 0))
      (onePageRam (dataPage 0)) 1 0 0 1 (fun _ _ _ _ _ => rfl) (by
        intro p hp
        rw [hpieces] at hp
        cases hp)
    rw [hpieces] at ht
    exact ⟨t, ht⟩
  exact ⟨by decide +kernel, by decide +kernel, fun _ => ⟨hrun _, hrun _⟩⟩

/-- Two bytes between a buffer and the pages of a process, at their edge. -/
theorem copies_split_exactly_two :
    ∃ ps ret moved, ExactSplit twoDataPages.mem 0x1000 0xfff 2 moved ps ret ∧
      (∃ t, copyoutWith mymemmoveRam 0x1000 0xfff 0x6000 2 twoDataPages = .ok (ret, t) ∧
        moves (fun p => mymemmoveRam p.pa (0x6000 + p.off) p.len) ps twoDataPages = .ok ((), t)) ∧
      ∃ t, copyinWith mymemmoveRam 0x1000 0x6000 0xfff 2 twoDataPages = .ok (ret, t) ∧
        moves (fun p => mymemmoveRam (0x6000 + p.off) p.pa p.len) ps twoDataPages = .ok ((), t) := by
  have hpieces : (userPieces twoDataPages.mem 0x1000 0xfff 2).1 =
      [⟨0xfff, 0x5fff, 0, 1⟩, ⟨0x1000, 0x8000, 1, 1⟩] := by
    decide +kernel
  have hkeep : ∀ dst src, 0x4000 ≤ dst → ∀ u : Ram, SameTable 0x1000 twoDataPages.mem u.mem →
      ∃ t, mymemmoveRam dst src 1 u = .ok ((), t) ∧ SameTable 0x1000 twoDataPages.mem t.mem := by
    intro dst src hdst u hu
    refine ⟨_, rfl, sameTable_twoPages (by decide) hu fun x _ hx => ?_⟩
    rw [mymemmove_eq]
    exact Memory.move_of_not_mem (by omega)
  refine copies_split_exactly ?_ ?_
  · rw [hpieces]
    simp only [List.forall_mem_cons]
    exact ⟨hkeep _ _ (by decide), hkeep _ _ (by decide), by simp⟩
  · rw [hpieces]
    simp only [List.forall_mem_cons]
    exact ⟨hkeep _ _ (by decide), hkeep _ _ (by decide), by simp⟩

end Kernel
end FastIpc
