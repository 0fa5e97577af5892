import FastIpc.Kernel.StackLayout

/-!
# Loading a program

What `exec` builds before it replaces an image: the segments of the file over pages of
zeroes, and above them a stack page with the arguments.  `imageOf` says what the file asks
for; `Loaded` says that the user memory under construction holds it.

Main results:

- Theorem `Loading.loadSegments`: the segments are loaded one over the other.
- Theorem `Loading.setupStack`: the arguments are written as planned, to the stack page only.
- Theorem `Loading.execBuild`: what building a program depends on.
-/

namespace FastIpc
namespace Kernel

open Foundation FaultM

/-! ## What a file asks for -/

/-- An image with `n` bytes from `va` on replaced. -/
def overlay (img : Nat → BitVec 8) (va n : Nat) (byte : Nat → BitVec 8) : Nat → BitVec 8 :=
  fun x => if va ≤ x ∧ x < va + n then byte (x - va) else img x

theorem overlay_append (img : Nat → BitVec 8) (va i n : Nat) (byte : Nat → BitVec 8) :
    overlay (overlay img va i byte) (va + i) n (fun x => byte (i + x)) =
      overlay img va (i + n) byte := by
  funext x
  unfold overlay
  by_cases hlow : x < va + i
  · rw [if_neg (by omega)]
    exact if_congr (by omega) rfl rfl
  · by_cases hin : x < va + i + n
    · rw [if_pos (by omega), if_pos (by omega)]
      exact congrArg byte (by omega)
    · rw [if_neg (by omega), if_neg (by omega), if_neg (by omega)]

theorem overlay_congr {img : Nat → BitVec 8} {va n : Nat} {byte byte' : Nat → BitVec 8}
    (h : ∀ x < n, byte x = byte' x) : overlay img va n byte = overlay img va n byte' := by
  funext x
  unfold overlay
  split
  next hx => exact h _ (by omega)
  next => rfl

theorem overlay_zero (img : Nat → BitVec 8) (va : Nat) (byte : Nat → BitVec 8) :
    overlay img va 0 byte = img := by
  funext x
  exact if_neg (by omega)

/-- A segment to load, with its place in memory and in the file. -/
structure Segment where
  vaddr : Nat
  off : Nat
  filesz : Nat

/-- A byte of a segment; offsets in a file are 32-bit numbers. -/
def Segment.byte (file : List (BitVec 8)) (seg : Segment) (x : Nat) : BitVec 8 :=
  file.getD ((seg.off + x) % 2 ^ 32) 0

/-- The segments that the program headers from an offset on ask to load. -/
def segments (file : List (BitVec 8)) : Nat → Nat → List Segment
  | 0, _ => []
  | n + 1, off =>
    let ph := readi file off proghdrSize
    if fieldAt ph 0 4 ≠ elfProgLoad then
      segments file n ((off + proghdrSize) % 2 ^ 32)
    else
      ⟨fieldAt ph 16 8, fieldAt ph 8 8 % 2 ^ 32, fieldAt ph 32 8⟩ ::
        segments file n ((off + proghdrSize) % 2 ^ 32)

/-- An image after a segment has been loaded. -/
def Segment.load (file : List (BitVec 8)) (img : Nat → BitVec 8) (seg : Segment) :
    Nat → BitVec 8 :=
  overlay img seg.vaddr seg.filesz (seg.byte file)

/-- What segments make of memory that holds zeroes. -/
def imageOf (file : List (BitVec 8)) (segs : List Segment) : Nat → BitVec 8 :=
  segs.foldl (Segment.load file) fun _ => 0

/-- A segment lies in user memory, and its bytes are in the file. -/
structure Segment.Placed (file : List (BitVec 8)) (sz : Nat) (seg : Segment) : Prop where
  aligned : seg.vaddr % pgSize = 0
  inside : seg.vaddr + seg.filesz ≤ sz
  in_file : ∀ x < seg.filesz, (seg.off + x) % 2 ^ 32 < file.length

theorem readi_of_length {file : List (BitVec 8)} {off n : Nat} (hn : 0 < n)
    (h : (readi file off n).length = n) : ∀ x < n, (off + x) % 2 ^ 32 < file.length ∧
      (readi file off n).getD x 0 = file.getD ((off + x) % 2 ^ 32) 0 := by
  intro x hx
  unfold readi at h ⊢
  split at h
  next => exact absurd h (by simpa using hn.ne)
  next hin =>
    rw [List.length_take, List.length_drop] at h
    have hmod : (off + x) % 2 ^ 32 = off + x := Nat.mod_eq_of_lt (by omega)
    rw [if_neg hin, hmod]
    refine ⟨by omega, ?_⟩
    simp only [List.getD_eq_getElem?_getD]
    rw [List.getElem?_take_of_lt hx, List.getElem?_drop]

theorem readi_length_le (file : List (BitVec 8)) (off n : Nat) : (readi file off n).length ≤ n := by
  unfold readi
  split
  next => exact Nat.zero_le _
  next => exact List.length_take_le _ _

/-! ## User memory under construction -/

/-- The first `n` pages of user memory can be accessed and hold an image, which is zero from
their end on. -/
structure Loaded (own : Nat → Role) (s : Ram) (r n : Nat) (img : Nat → BitVec 8) : Prop where
  access : ∀ va < n * pgSize, leaf s.mem r va &&& pteU ≠ 0
  bytes : ∀ pa i, own pa = .user r i → ∀ x < pgSize, s.mem (pa + x) = img (i * pgSize + x)
  beyond : ∀ va, n * pgSize ≤ va → img va = 0

theorem Loaded.survivesGrowth (r : Nat) (img : Nat → BitVec 8) :
    UserMap.SurvivesGrowth r mapStart fun own s n => Loaded own s r n img := by
  intro own own' s t n mem h hfit hadded
  have htop : mapStart < treeVA := by decide
  refine ⟨fun va hva => ?_, fun pa i hpa x hx => ?_, fun va hva => ?_⟩
  · rw [hadded.leaf_eq va (by omega)]
    split
    next =>
      rw [mkPte_and (by decide) (by decide)]
      decide
    next hne =>
      refine h.access va ?_
      rw [div_pgSize_eq_iff] at hne
      omega
  · by_cases hmem : pa = mem
    · rw [hmem] at hpa ⊢
      have hi : n = i := by simpa using hadded.role.symm.trans hpa
      rw [hadded.filled x hx, h.beyond _ (by rw [hi]; omega)]
    · obtain ⟨hold, hagree⟩ := hadded.old pa i hmem hpa
      rw [hagree _ (by omega) (by omega), h.bytes pa i hold x hx]
  · rw [Nat.succ_mul] at hva
    exact h.beyond va (by omega)

/-- An address space under construction. -/
structure Loading (im : Image) (roots : Nat → Prop) (own : Nat → Role) (s : Ram)
    (r n trapframe : Nat) (img : Nat → BitVec 8) : Prop where
  owned : Owned im own roots s
  space : Space im own s.mem r n trapframe fun _ _ => 0
  loaded : Loaded own s r n img

namespace Loading

variable {im : Image} {roots : Nat → Prop} {own : Nat → Role} {s : Ram} {r n trapframe : Nat}
  {img : Nat → BitVec 8}

/-- Every page of user memory is found by `walkaddr`. -/
theorem exists_page (h : Loading im roots own s r n trapframe img) {va : Nat}
    (hva : va < n * pgSize) :
    ∃ pa, own pa = .user r (va / pgSize) ∧ userPage s.mem r va = pa ∧ pa ≠ 0 := by
  obtain ⟨pa, perm, hperm, hleaf, hrole⟩ := h.space.user va hva
  have hpage := h.owned.page pa (by simp [hrole])
  have hmax : va < maxVA := lt_of_lt_of_le hva (le_trans h.space.fits (by decide))
  refine ⟨pa, hrole, ?_, hpage.pos.ne'⟩
  rw [userPage, if_neg (by omega), if_neg, if_neg (h.loaded.access va hva), hleaf,
    pte2pa_mkPte hperm.1 hpage.aligned hpage.lt_pow]
  rw [hleaf]
  exact mkPte_valid hperm.1

theorem blit (h : Loading im roots own s r n trapframe img) (hr : roots r) {pa i : Nat}
    (hrole : own pa = .user r i) {bytes : List (BitVec 8)} (hlen : bytes.length ≤ pgSize) :
    Loading im roots own { s with mem := s.mem.blit pa bytes } r n trapframe
        (overlay img (i * pgSize) bytes.length fun x => bytes.getD x 0) ∧
      Within im roots r own own s { s with mem := s.mem.blit pa bytes } := by
  have hout : ∀ x, ¬(pa ≤ x ∧ x < pa + pgSize) → s.mem.blit pa bytes x = s.mem x :=
    fun x hx => Memory.blit_of_not_mem (by omega)
  obtain ⟨hstored, hspared⟩ := h.owned.writeUser
    (t := { s with mem := s.mem.blit pa bytes }) hrole hout rfl rfl
  have hi : (i + 1) * pgSize ≤ n * pgSize := Nat.mul_le_mul_right _ (h.space.bound pa i hrole)
  rw [Nat.succ_mul] at hi
  refine ⟨⟨hstored.owned, h.space.stored hstored hr, fun va hva => ?_, fun pa' i' hpa' x hx => ?_,
    fun va hva => ?_⟩, .of_stored hstored hspared⟩
  · rw [hstored.leaf_eq r va hr]
    exact h.loaded.access va hva
  · by_cases heq : pa' = pa
    · rw [heq] at hpa' ⊢
      obtain rfl : i = i' := by simpa using hrole.symm.trans hpa'
      refine if_congr (by omega) ?_ (h.loaded.bytes pa i hrole x hx)
      rw [Nat.add_sub_cancel_left, Nat.add_sub_cancel_left]
    · -- Another page of user memory, at another place.
      have hne : i' ≠ i := by
        rintro rfl
        exact heq (h.space.unique pa' pa i' hpa' hrole)
      have hplace : ¬(i * pgSize ≤ i' * pgSize + x ∧ i' * pgSize + x < i * pgSize + bytes.length) := by
        unfold pgSize at *
        omega
      rw [overlay, if_neg hplace]
      exact (h.owned.agreeOn_of_ne (h.owned.page pa (by simp [hrole])) hout (by simp [hpa']) heq _
        (by omega) (by omega)).trans (h.loaded.bytes pa' i' hpa' x hx)
  · rw [overlay, if_neg (by omega)]
    exact h.loaded.beyond va hva

/-- Loading the rest of a segment, of which the first `i` bytes are there. -/
theorem loadsegLoop (file : List (BitVec 8)) (seg : Segment) (rounds i : Nat)
    (haligned : seg.vaddr % pgSize = 0) (hi : i % pgSize = 0)
    (hrounds : rounds = (seg.filesz - i + pgSize - 1) / pgSize)
    (hfit : seg.vaddr + seg.filesz ≤ n * pgSize)
    (h : Loading im roots own s r n trapframe
      (overlay img seg.vaddr (min i seg.filesz) (seg.byte file))) (hr : roots r) :
    ∃ res t, Kernel.loadsegLoop r seg.vaddr file seg.off seg.filesz rounds i s = .ok (res, t) ∧
      Within im roots r own own s t ∧ Space im own t.mem r n trapframe (fun _ _ => 0) ∧
      (0 ≤ res → Loading im roots own t r n trapframe (seg.load file img) ∧
        ∀ x, i ≤ x → x < seg.filesz → (seg.off + x) % 2 ^ 32 < file.length) := by
  induction rounds generalizing s i with
  | zero =>
    have hdone : seg.filesz ≤ i := by
      unfold pgSize at hrounds
      omega
    rw [min_eq_right hdone] at h
    exact ⟨0, s, rfl, .refl h.owned, h.space, fun _ => ⟨h, fun x hlo hhi => by omega⟩⟩
  | succ rounds ih =>
    have hlt : i < seg.filesz := by
      unfold pgSize at hrounds
      omega
    obtain ⟨pa, hrole, hpa, hne⟩ := h.exists_page (show seg.vaddr + i < n * pgSize by omega)
    rw [Kernel.loadsegLoop, bind_of_ok walkaddr_eq, hpa, if_neg hne, bind_of_ok (a := ()) rfl]
    have hchunk : 0 < min (seg.filesz - i) pgSize := by
      unfold pgSize
      omega
    have hread := readi_length_le file ((seg.off + i) % 2 ^ 32) (min (seg.filesz - i) pgSize)
    obtain ⟨hloading, hwithin⟩ := h.blit hr hrole (le_trans hread (Nat.min_le_right ..))
    split
    next => exact ⟨-1, _, rfl, hwithin, hloading.space, fun hres => absurd hres (by decide)⟩
    next hlen =>
      have hbytes := readi_of_length hchunk (not_not.mp hlen)
      have hplace : (seg.vaddr + i) / pgSize * pgSize = seg.vaddr + i := by
        unfold pgSize at *
        omega
      have hmin : i + min (seg.filesz - i) pgSize = min (i + pgSize) seg.filesz := by omega
      have hoff : ∀ x, ((seg.off + i) % 2 ^ 32 + x) % 2 ^ 32 = (seg.off + (i + x)) % 2 ^ 32 := by
        intro x
        omega
      rw [not_not.mp hlen, hplace, min_eq_left hlt.le, overlay_congr fun x hx =>
        show _ = seg.byte file (i + x) by rw [(hbytes x hx).2, hoff, Segment.byte],
        overlay_append, hmin] at hloading
      obtain ⟨res, t, hrun, hwithin', hspace, hdone⟩ := ih (i + pgSize)
        (by rw [Nat.add_mod_right, hi]) (by unfold pgSize at *; omega) hloading
      refine ⟨res, t, hrun, hwithin.trans hwithin', hspace, fun hres => ?_⟩
      obtain ⟨hloaded, hin⟩ := hdone hres
      refine ⟨hloaded, fun x hlo hhi => ?_⟩
      by_cases hx : x < i + pgSize
      · have := (hbytes (x - i) (by omega)).1
        rwa [hoff, Nat.add_sub_cancel' hlo] at this
      · exact hin x (Nat.le_of_not_lt hx) hhi

/-- The segments are loaded one over the other. -/
theorem loadSegments (file : List (BitVec 8)) (count off sz : Nat)
    (h : Loading im roots own s r (userPages sz) trapframe img) (hr : roots r) :
    ∃ done sz' t own', Kernel.loadSegments im r file count off sz s = .ok ((done, sz'), t) ∧
      Within im roots r own own' s t ∧
      Space im own' t.mem r (userPages sz') trapframe (fun _ _ => 0) ∧
      (done = true → sz ≤ sz' ∧ Loading im roots own' t r (userPages sz') trapframe
          ((segments file count off).foldl (Segment.load file) img) ∧
        ∀ seg ∈ segments file count off, seg.Placed file sz') := by
  induction count generalizing own s off sz img with
  | zero => exact ⟨true, sz, s, own, rfl, .refl h.owned, h.space,
    fun _ => ⟨le_rfl, h, by simp [segments]⟩⟩
  | succ count ih =>
    have hstop : ∃ done sz' t own', (pure (false, sz) : RamM (Bool × Nat)) s =
        .ok ((done, sz'), t) ∧ Within im roots r own own' s t ∧
        Space im own' t.mem r (userPages sz') trapframe (fun _ _ => 0) ∧
        (done = true → sz ≤ sz' ∧ Loading im roots own' t r (userPages sz') trapframe
            ((segments file (count + 1) off).foldl (Segment.load file) img) ∧
          ∀ seg ∈ segments file (count + 1) off, seg.Placed file sz') :=
      ⟨false, sz, s, own, rfl, .refl h.owned, h.space, by simp⟩
    rw [Kernel.loadSegments]
    split
    next => exact hstop
    next =>
    split
    next htype =>
      simp only [segments, if_pos htype]
      exact ih _ _ h
    next htype =>
    split
    next => exact hstop
    next hmem =>
    split
    next => exact hstop
    next =>
    simp only [segments, if_neg htype]
    generalize fieldAt (readi file off proghdrSize) 16 8 = vaddr
    generalize fieldAt (readi file off proghdrSize) 8 8 = offset
    generalize fieldAt (readi file off proghdrSize) 32 8 = filesz at hmem ⊢
    generalize fieldAt (readi file off proghdrSize) 40 8 = memsz at hmem ⊢
    obtain ⟨sz1, s1, own1, halloc, hwithin1, hspace1, hloaded1⟩ := h.space.uvmalloc_of
      (vaddr + memsz) (Loaded.survivesGrowth r img) h.loaded h.owned hr
    rw [bind_of_ok halloc]
    split
    next hsz =>
      rw [if_pos hsz] at hspace1
      exact ⟨false, sz, s1, own1, rfl, hwithin1, hspace1, by simp⟩
    next hsz =>
    rw [if_neg hsz] at hspace1
    obtain ⟨hmax, hloaded1⟩ := hloaded1 hsz
    split
    next => exact ⟨false, sz1, s1, own1, rfl, hwithin1, hspace1, by simp⟩
    next haligned =>
      -- The segment is inside user memory, so its size fits into 32 bits.
      have hlt := hspace1.sz_lt hwithin1.owned
      have hround : sz1 ≤ userPages sz1 * pgSize := by
        unfold userPages pgRoundUp pgSize
        omega
      rw [loadseg, if_neg haligned, Nat.mod_eq_of_lt (show filesz < 2 ^ 32 by omega)]
      obtain ⟨res, s2, hload, hwithin2, hspace2, hdone⟩ := loadsegLoop file
        ⟨vaddr, offset % 2 ^ 32, filesz⟩ _ 0 (not_not.mp haligned) (Nat.zero_mod _) rfl
        (show vaddr + filesz ≤ userPages sz1 * pgSize by omega)
        (by rw [Nat.zero_min, overlay_zero]; exact ⟨hwithin1.owned, hspace1, hloaded1⟩) hr
      have hload' : Kernel.loadsegLoop r vaddr file (offset % 2 ^ 32) filesz
          ((filesz + pgSize - 1) / pgSize) 0 s1 = .ok (res, s2) := hload
      rw [bind_of_ok hload']
      split
      next => exact ⟨false, sz1, s2, own1, rfl, hwithin1.trans hwithin2, hspace2, by simp⟩
      next hres =>
        obtain ⟨hloading, hin⟩ := hdone (Int.not_lt.mp hres)
        obtain ⟨done, sz', t, own2, hrun, hwithin, hspace, hrest⟩ := ih
          ((off + proghdrSize) % 2 ^ 32) sz1 hloading
        refine ⟨done, sz', t, own2, hrun, (hwithin1.trans hwithin2).trans hwithin, hspace,
          fun hd => ?_⟩
        obtain ⟨hle, hloading', hplaced⟩ := hrest hd
        refine ⟨by omega, hloading', List.forall_mem_cons.mpr ⟨⟨not_not.mp haligned, ?_,
          fun x hx => hin x (Nat.zero_le _) hx⟩, hplaced⟩⟩
        show vaddr + filesz ≤ sz'
        omega

end Loading

/-! ## The stack -/

/-- Taking an entry away from user code leaves its address. -/
theorem mkPte_clear {pa perm : Nat} (hpa : pa < 2 ^ 56) :
    mkPte pa perm &&& (2 ^ 64 - 1 - pteU) = mkPte pa (perm &&& (2 ^ 64 - 1 - pteU)) := by
  have haddr : pa2pte pa &&& (2 ^ 64 - 1 - pteU) = pa2pte pa := by
    refine Nat.eq_of_testBit_eq fun i => ?_
    rw [Nat.testBit_and]
    cases hi : (pa2pte pa).testBit i with
    | false => rfl
    | true =>
      have hlt : i < 64 := by
        by_contra hge
        have hsmall : pa2pte pa < 2 ^ i := by
          refine lt_of_lt_of_le ?_ (Nat.pow_le_pow_right (by decide) (Nat.le_of_not_lt hge))
          rw [pa2pte_eq]
          omega
        rw [Nat.testBit_lt_two_pow hsmall] at hi
        cases hi
      rw [pa2pte, Nat.testBit_shiftLeft] at hi
      have hge : 10 ≤ i := by
        by_contra hlow
        simp [hlow] at hi
      have hmask : ∀ i < 64, 10 ≤ i → (2 ^ 64 - 1 - pteU).testBit i = true := by decide
      rw [hmask i hlt hge]
      rfl
  rw [mkPte, Nat.and_or_distrib_right, Nat.and_or_distrib_right, haddr, mkPte]
  rfl

theorem IsLeafPerm.clear {perm : Nat} (h : IsLeafPerm perm) :
    IsLeafPerm (perm &&& (2 ^ 64 - 1 - pteU)) := by
  refine ⟨lt_of_le_of_lt Nat.and_le_left h.1, ?_⟩
  rw [Nat.and_assoc]
  exact h.2

theorem Space.uvmclear {im : Image} {roots : Nat → Prop} {own : Nat → Role} {s : Ram}
    {r n trapframe : Nat} {va : Nat} (h : Space im own s.mem r n trapframe fun _ _ => 0)
    (howned : Owned im own roots s) (hr : roots r) (hva : va < n * pgSize) :
    ∃ pa perm t, Kernel.uvmclear r va s = .ok ((), t) ∧
      LeafSet im own roots r va (mkPte pa perm) s t ∧
      Space im own t.mem r n trapframe fun _ _ => 0 := by
  have hmap : mapStart < maxVA := by decide
  have hfit := h.fits
  have hmax : va < maxVA := by omega
  obtain ⟨pa, perm, hperm, hpa, hrole⟩ := h.user va hva
  have hpage := howned.page pa (by simp [hrole])
  have hvalid : leaf s.mem r va &&& pteV ≠ 0 := by
    rw [hpa]
    exact mkPte_valid hperm.1
  obtain ⟨nd, hnd⟩ := exists_table_of_valid hvalid
  have hrun : Kernel.uvmclear r va s = .ok ((), { s with
      mem := s.mem.writeLE (nd + 8 * px 0 va) 8 (mkPte pa (perm &&& (2 ^ 64 - 1 - pteU))) }) := by
    rw [← mkPte_clear hpage.lt_pow, ← hpa, leaf_of_table hnd, Kernel.uvmclear,
      bind_of_ok (walk_of_table hmax hnd)]
    rfl
  obtain ⟨howned', htable, hleaf⟩ := howned.storeLeaf hr hnd
    (mkPte_lt hperm.clear.1 hpage.lt_pow) hmax rfl
  have hset : LeafSet im own roots r va (mkPte pa (perm &&& (2 ^ 64 - 1 - pteU))) s _ :=
    ⟨howned', hleaf, fun r' path hr' hlen => htable r' hr' path hlen,
      fun p hkernel _ hnode => howned.storeLeaf_agree hr hnd _ hkernel hnode⟩
  -- The page of the address lies in user memory.
  have hsame : ∀ va', va' / pgSize = va / pgSize → va' < n * pgSize := by
    intro va' heq
    have hpos : 0 < pgSize := by decide
    have hlt : va / pgSize < n := (Nat.div_lt_iff_lt_mul hpos).mpr hva
    exact lt_of_lt_of_le (div_pgSize_eq_iff.mp heq).2 (Nat.mul_le_mul_right pgSize hlt)
  refine ⟨pa, _, _, hrun, hset, h.ofUserMap (h.userMap.replace (Nat.zero_le n) hfit
    (fun va' hva' hlo => ?_) (fun va' hva' => ?_)
    (fun pa' i hpa' => ⟨h.bound pa' i hpa', fun pa'' => h.unique pa' pa'' i hpa'⟩)
    fun va' hlo hhi => ?_)⟩
  · rw [hleaf r va' hr hva', if_neg]
    have hge : n * pgSize ≤ va' := by omega
    exact fun heq => absurd (hsame va' heq.2) (Nat.not_lt.mpr hge)
  · obtain ⟨pa', perm', hperm', hpa', hrole'⟩ := h.user va' hva'
    rw [hleaf r va' hr (lt_treeVA (by omega))]
    split
    next heq => exact ⟨pa, _, hperm.clear, rfl, by rw [heq.2, hrole]⟩
    next => exact ⟨pa', perm', hperm', hpa', hrole'⟩
  · rw [hleaf r va' hr (lt_treeVA (by omega)), if_neg, h.gap va' hlo hhi]
    exact fun heq => absurd (hsame va' heq.2) (Nat.not_lt.mpr hlo)

namespace Loading

variable {im : Image} {roots : Nat → Prop} {own : Nat → Role} {s : Ram} {r sz trapframe : Nat}
  {img : Nat → BitVec 8}

/-- The arguments are written as planned.  Only the stack page changes. -/
theorem setupStack (h : Loading im roots own s r (userPages sz) trapframe img) (hr : roots r)
    (haligned : sz % pgSize = 0) (hsz : 2 * pgSize ≤ sz)
    (hzero : ∀ va, sz - pgSize ≤ va → img va = 0) (argv : List CString) :
    ∃ t, Kernel.setupStack r sz argv s =
        .ok ((stackPlan sz argv).map fun plan => (plan.1, plan.2.length), t) ∧
      Within im roots r own own s t ∧ Space im own t.mem r (userPages sz) trapframe (fun _ _ => 0) ∧
      (∀ pa i, own pa = .user r i → (i + 1) * pgSize < sz → ∀ x < pgSize,
        t.mem (pa + x) = img (i * pgSize + x)) ∧
      (∃ i, own (userPage t.mem r (sz - pgSize)) = .user r i) ∧
      ∀ sp ustack, stackPlan sz argv = some (sp, ustack) → (∀ i ≤ ustack.length,
        t.mem.readLE (userPage t.mem r (sz - pgSize) + (sp - (sz - pgSize)) + 8 * i) 8 =
          (ustack ++ [0]).getD i 0) ∧
        List.Forall₂ (Pushed t.mem (userPage t.mem r (sz - pgSize)) (sz - pgSize)) argv ustack := by
  have hpages : userPages sz * pgSize = sz := by
    unfold userPages pgRoundUp pgSize at *
    omega
  have hbase : (sz - pgSize) % pgSize = 0 := by
    unfold pgSize at *
    omega
  have hother : (sz - pgSize) / pgSize ≠ (sz - 2 * pgSize) / pgSize := by
    unfold pgSize at *
    omega
  have hpos : 0 < pgSize := by decide
  obtain ⟨pa0, perm, s1, hclear, hset, hspace1⟩ :=
    h.space.uvmclear h.owned hr (show sz - 2 * pgSize < userPages sz * pgSize by omega)
  obtain ⟨pa, hrole, hpa, hne⟩ := h.exists_page (show sz - pgSize < userPages sz * pgSize by omega)
  have hpa1 : userPage s1.mem r (sz - pgSize) = pa := by
    have htop : mapStart < treeVA := by decide
    have hfit := h.space.fits
    have hleaf : leaf s1.mem r (sz - pgSize) = leaf s.mem r (sz - pgSize) := by
      rw [hset.leaf_eq r _ hr (by omega), if_neg fun heq => hother heq.2]
    rw [← hpa, userPage, userPage, hleaf]
  have hwithin1 : Within im roots r own own s s1 := .of_leafSet hset
  -- What is written to the stack page leaves the other pages alone.
  have hrest : ∀ t, PageWritten pa s1 t → Within im roots r own own s t ∧
      Space im own t.mem r (userPages sz) trapframe (fun _ _ => 0) ∧
      userPage t.mem r (sz - pgSize) = pa ∧
      ∀ pa i, own pa = .user r i → (i + 1) * pgSize < sz → ∀ x < pgSize,
        t.mem (pa + x) = img (i * pgSize + x) := by
    intro t ht
    obtain ⟨hstored, hspared⟩ := hset.owned.writeUser hrole ht.out ht.freelist ht.fails
    refine ⟨hwithin1.trans (.of_stored hstored hspared), hspace1.stored hstored hr,
      (hstored.userPage_eq hr).trans hpa1, fun pa' i hpa' hi x hx => ?_⟩
    have hne' : pa' ≠ pa := by
      rintro rfl
      have hidx : i = (sz - pgSize) / pgSize := by simpa using hpa'.symm.trans hrole
      unfold pgSize at *
      omega
    have hagree := (hset.data pa' (by simp [hpa']) (by simp [hpa']) (by simp [hpa'])).trans
      (hset.owned.agreeOn_of_ne (hset.owned.page pa (by simp [hrole])) ht.out (by simp [hpa']) hne')
    rw [hagree _ (by omega) (by omega), h.loaded.bytes pa' i hpa' x hx]
  obtain ⟨s2, hpush, hwritten, -, hstrings⟩ := pushArgs_eq hset.owned hr hrole hpa1 hbase (by omega)
    argv (show sz ≤ sz - pgSize + pgSize by omega) []
  have hclean : ∀ x, sz - pgSize + x < sz → s1.mem (pa + x) = 0 := by
    intro x hx
    rw [hset.data pa (by simp [hrole]) (by simp [hrole]) (by simp [hrole]) _ (by omega) (by omega),
      h.loaded.bytes pa _ hrole x (by omega)]
    exact hzero _ (by unfold pgSize at *; omega)
  obtain ⟨hwithin2, hspace2, hpa2, hbytes2⟩ := hrest s2 hwritten
  rw [Kernel.setupStack, bind_of_ok hclear]
  simp only
  rw [bind_of_ok hpush, stackPlan]
  cases hplan : pushPlan (sz - pgSize) argv sz [] with
  | none => exact ⟨s2, rfl, hwithin2, hspace2, hbytes2, ⟨_, hpa2 ▸ hrole⟩, by simp⟩
  | some plan =>
    obtain ⟨sp, ustack⟩ := plan
    obtain ⟨hle, haddrs⟩ := pushPlan_le hplan
    have harray : sp - (ustack.length + 1) * 8 - (sp - (ustack.length + 1) * 8) % 16 =
        arraySp sp ustack.length := rfl
    rw [Option.bind_some]
    simp only [harray]
    by_cases hlow : arraySp sp ustack.length < sz - pgSize
    · simp only [if_pos hlow]
      exact ⟨s2, rfl, hwithin2, hspace2, hbytes2, ⟨_, hpa2 ▸ hrole⟩, by simp⟩
    · simp only [if_neg hlow]
      have hbound : arraySp sp ustack.length + (ustack.length + 1) * 8 ≤ sp := by
        unfold arraySp at *
        omega
      obtain ⟨off, hoff⟩ := Nat.exists_eq_add_of_le (Nat.le_of_not_lt hlow)
      have hlt := h.space.sz_lt h.owned
      obtain ⟨t, hcopy, hwritten', habove, hwords⟩ := pushArray_eq hbase hpa2 hne
        (show ustack ++ [0] ≠ [] by simp)
        (show off + (ustack ++ [0]).length * 8 ≤ pgSize by
          rw [List.length_append, List.length_singleton]
          omega)
        (fun w hw => by
          rcases List.mem_append.mp hw with hw | hw
          · have := (haddrs w hw).resolve_left (by simp)
            omega
          · rw [List.mem_singleton.mp hw]
            exact Nat.two_pow_pos 64)
      obtain ⟨hwithin, hspace, hpa', hbytes⟩ := hrest t (hwritten.trans hwritten')
      rw [hoff, bind_of_ok hcopy, if_neg (by decide)]
      refine ⟨t, rfl, hwithin, hspace, hbytes, ⟨_, hpa' ▸ hrole⟩, ?_⟩
      rw [List.length_append, List.length_singleton] at habove hwords
      rintro _ _ ⟨⟩
      refine ⟨fun i hi => ?_, ?_⟩
      · rw [hpa', Nat.add_sub_cancel_left]
        exact hwords i (by omega)
      · -- The array lies below the strings.
        obtain ⟨addrs, haddrs', hall⟩ := hstrings hclean _ _ hplan
        rw [List.nil_append] at haddrs'
        rw [haddrs']
        refine hall.imp ?_
        rintro arg a ⟨hle', hlow', hfits, hstored⟩
        refine ⟨hlow', hfits, fun j hj => ?_⟩
        rw [hpa', ← hstored j hj, Nat.add_assoc]
        exact habove _ (by omega)

/-- What `exec` has built: the segments of the file over zeroes, and in the last page the
arguments. -/
structure Built (own : Nat → Role) (r sz : Nat) (elf file : List (BitVec 8)) (argv : List CString)
    (prog : Program) (t : Ram) : Prop where
  placed : ∀ seg ∈ segments file (fieldAt elf 56 2) (fieldAt elf 32 8 % 2 ^ 32),
    seg.Placed file (sz - 2 * pgSize)
  bytes : ∀ pa i, own pa = .user r i → (i + 1) * pgSize < sz → ∀ x < pgSize, t.mem (pa + x) =
    imageOf file (segments file (fieldAt elf 56 2) (fieldAt elf 32 8 % 2 ^ 32)) (i * pgSize + x)
  entry : prog.entry = fieldAt elf 24 8
  stack : ∃ i, own (userPage t.mem r (sz - pgSize)) = .user r i
  plan : ∃ ustack, stackPlan sz argv = some (prog.sp, ustack) ∧ prog.argc = ustack.length ∧
    (∀ i ≤ ustack.length,
      t.mem.readLE (userPage t.mem r (sz - pgSize) + (prog.sp - (sz - pgSize)) + 8 * i) 8 =
        (ustack ++ [0]).getD i 0) ∧
    List.Forall₂ (Pushed t.mem (userPage t.mem r (sz - pgSize)) (sz - pgSize)) argv ustack

end Loading

/-- Building a program fails whatever the arguments are, or else exactly if these do not fit. -/
theorem Space.execBuild {im : Image} {roots : Nat → Prop} {own : Nat → Role} {s : Ram}
    {r trapframe : Nat} (h : Space im own s.mem r 0 trapframe fun _ _ => 0)
    (howned : Owned im own roots s) (hr : roots r) (elf file : List (BitVec 8)) :
    (∃ sz t own', (∀ argv, Kernel.execBuild im r elf file argv s = .ok ((sz, none), t)) ∧
      Within im roots r own own' s t ∧
      Space im own' t.mem r (userPages sz) trapframe fun _ _ => 0) ∨
    (∃ sz own', sz % pgSize = 0 ∧ 2 * pgSize ≤ sz ∧ ∀ argv, ∃ prog t,
      Kernel.execBuild im r elf file argv s = .ok ((sz, prog), t) ∧ Within im roots r own own' s t ∧
      (Space im own' t.mem r (userPages sz) trapframe fun _ _ => 0) ∧
      (prog = none ↔ stackPlan sz argv = none) ∧
      ∀ prog', prog = some prog' → Loading.Built own' r sz elf file argv prog' t) := by
  have hempty : Loading im roots own s r (userPages 0) trapframe fun _ => 0 := by
    refine ⟨howned, h, fun va hva => ?_, fun pa i hpa => ?_, fun _ _ => rfl⟩
    · exact absurd hva (by simp [userPages, pgRoundUp, pgSize])
    · exact absurd (h.bound pa i hpa) (by omega)
  obtain ⟨loaded, sz1, s1, own1, hload, hwithin1, hspace1, hdone⟩ := hempty.loadSegments file
    (fieldAt elf 56 2) (fieldAt elf 32 8 % 2 ^ 32) 0 hr
  simp only [Kernel.execBuild, bind_of_ok hload]
  cases loaded with
  | false => exact .inl ⟨sz1, s1, own1, fun argv => rfl, hwithin1, hspace1⟩
  | true =>
    obtain ⟨-, hloading1, hplaced⟩ := hdone rfl
    have hround : userPages (pgRoundUp sz1) = userPages sz1 ∧ pgRoundUp sz1 % pgSize = 0 ∧
        sz1 ≤ pgRoundUp sz1 := by
      unfold userPages pgRoundUp pgSize
      omega
    rw [← hround.1] at hloading1
    obtain ⟨sz2, s2, own2, halloc, hwithin2, hspace2, hloaded2⟩ := hloading1.space.uvmalloc_of
      (pgRoundUp sz1 + 2 * pgSize) (Loaded.survivesGrowth r _) hloading1.loaded
      hwithin1.owned hr
    have hwithin := hwithin1.trans hwithin2
    simp only [not_true_eq_false, if_false, bind_of_ok halloc]
    by_cases hsz : sz2 = 0
    · rw [if_pos hsz] at hspace2
      simp only [if_pos hsz]
      exact .inl ⟨_, s2, own2, fun argv => rfl, hwithin, hspace2⟩
    · rw [if_neg hsz] at hspace2
      obtain ⟨hmax, hloaded2⟩ := hloaded2 hsz
      simp only [if_neg hsz]
      have haligned : sz2 % pgSize = 0 := by
        rw [hmax, max_eq_right (Nat.le_add_right ..), Nat.add_mul_mod_self_right]
        exact hround.2.1
      have hloading2 : Loading im roots own2 s2 r (userPages sz2) trapframe _ :=
        ⟨hwithin2.owned, hspace2, hloaded2⟩
      refine .inr ⟨sz2, own2, haligned, by omega, fun argv => ?_⟩
      obtain ⟨t, hstack, hwithin3, hspace3, hbytes, hpage, hwords⟩ :=
        hloading2.setupStack hr haligned (by omega) (fun va hva => hloading1.loaded.beyond va (by
          rw [hround.1, ← pgRoundUp_eq]
          omega)) argv
      rw [bind_of_ok hstack]
      cases hplan : stackPlan sz2 argv with
      | none => exact ⟨none, t, rfl, hwithin.trans hwithin3, hspace3, by simp, by simp⟩
      | some plan =>
        refine ⟨_, t, rfl, hwithin.trans hwithin3, hspace3, by simp, ?_⟩
        rintro _ ⟨⟩
        refine ⟨fun seg hseg => ?_, hbytes, rfl, hpage, plan.2, hplan, rfl, hwords _ _ hplan⟩
        have hseg' := hplaced seg hseg
        have hinside := hseg'.inside
        exact ⟨hseg'.aligned, by omega, hseg'.in_file⟩

end Kernel
end FastIpc
