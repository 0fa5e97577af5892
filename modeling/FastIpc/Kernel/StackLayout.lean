import FastIpc.Kernel.Images

/-!
# The arguments of a program

`exec` pushes the argument strings and an array of pointers to them on the user stack, a
single page below which a page is taken away from user code.  The addresses do not depend on
memory: `stackPlan` computes them as the source does, and with the sizes rounded up to
multiples of 16 they have a closed form.

Main results:

- Theorem `stackPlan_eq`: the closed form.
- Theorem `stackPlan_layout`: strings and array are aligned, disjoint and inside the page.
- Theorem `StoredAt.stringAt_iff`: which strings arrive completely.
-/

namespace FastIpc
namespace Kernel

open Foundation

/-! ## The plan -/

/-- The stack pointer after a string of a given length was pushed. -/
def pushSp (sp len : Nat) : Nat := sp - (len + 1) - (sp - (len + 1)) % 16

/-- The stack pointer after the array of pointers was pushed. -/
def arraySp (sp argc : Nat) : Nat := sp - (argc + 1) * 8 - (sp - (argc + 1) * 8) % 16

/-- The stack pointer and the addresses of the strings, as `pushArgs` finds them if every
copy succeeds. -/
def pushPlan (stackbase : Nat) : List CString → Nat → List Nat → Option (Nat × List Nat)
  | [], sp, ustack => some (sp, ustack)
  | arg :: argv, sp, ustack =>
    if maxArg ≤ ustack.length then none
    else if pushSp sp arg.bytes.length < stackbase then none
    else
      pushPlan stackbase argv (pushSp sp arg.bytes.length)
        (ustack ++ [pushSp sp arg.bytes.length])

/-- The address of the array of pointers and the addresses of the strings, if they fit into the
last page below `sz`. -/
def stackPlan (sz : Nat) (argv : List CString) : Option (Nat × List Nat) :=
  (pushPlan (sz - pgSize) argv sz []).bind fun (sp, ustack) =>
    if arraySp sp ustack.length < sz - pgSize then none
    else some (arraySp sp ustack.length, ustack)

variable {argv : List CString} {ustack : List Nat} {sp stackbase sz : Nat} {s : Ram}

theorem pushPlan_le {sp' : Nat} {ustack' : List Nat}
    (h : pushPlan stackbase argv sp ustack = some (sp', ustack')) :
    sp' ≤ sp ∧ ∀ a ∈ ustack', a ∈ ustack ∨ a ≤ sp := by
  induction argv generalizing sp ustack with
  | nil =>
    cases h
    exact ⟨le_rfl, fun a ha => .inl ha⟩
  | cons arg argv ih =>
    rw [pushPlan] at h
    split at h
    next => cases h
    next =>
    split at h
    next => cases h
    next =>
      have hpush : pushSp sp arg.bytes.length ≤ sp := by
        unfold pushSp
        omega
      obtain ⟨hle, haddrs⟩ := ih h
      refine ⟨hle.trans hpush, fun a ha => ?_⟩
      rcases haddrs a ha with hmem | hale
      · rcases List.mem_append.mp hmem with hold | hnew
        · exact .inl hold
        · exact .inr ((List.mem_singleton.mp hnew).trans_le hpush)
      · exact .inr (hale.trans hpush)

theorem stackPlan_le (h : stackPlan sz argv = some (sp, ustack)) : sp ≤ sz := by
  obtain ⟨⟨sp', ustack'⟩, hpush, harray⟩ := Option.bind_eq_some_iff.mp h
  have hle := (pushPlan_le hpush).1
  simp only at harray
  split at harray
  next => cases harray
  next =>
    cases harray
    unfold arraySp
    omega

/-! ## Rounded sizes -/

/-- The room that `n` bytes take on the stack. -/
def rounded (n : Nat) : Nat := (n + 15) / 16 * 16

/-- The room that strings take with their terminators. -/
def stringRoom (argv : List CString) : Nat :=
  (argv.map fun arg => rounded (arg.bytes.length + 1)).sum

/-- The rounded sizes of the strings and of the array fit into a page. -/
def Fits (argv : List CString) : Prop := stringRoom argv + rounded ((argv.length + 1) * 8) ≤ pgSize

instance (argv : List CString) : Decidable (Fits argv) := inferInstanceAs (Decidable (_ ≤ _))

theorem stringRoom_cons (arg : CString) (argv : List CString) :
    stringRoom (arg :: argv) = rounded (arg.bytes.length + 1) + stringRoom argv :=
  rfl

theorem stringRoom_append (argv argv' : List CString) :
    stringRoom (argv ++ argv') = stringRoom argv + stringRoom argv' := by
  simp [stringRoom]

theorem stringRoom_mod (argv : List CString) : stringRoom argv % 16 = 0 := by
  induction argv with
  | nil => rfl
  | cons arg argv ih =>
    rw [stringRoom_cons, rounded]
    omega

theorem stringRoom_take_succ {i : Nat} (hi : i < argv.length) :
    stringRoom (argv.take (i + 1)) =
      stringRoom (argv.take i) + rounded ((argv.get ⟨i, hi⟩).bytes.length + 1) := by
  rw [List.take_succ_eq_append_getElem hi, stringRoom_append]
  rfl

theorem stringRoom_take_mono (argv : List CString) {i j : Nat} (h : i ≤ j) :
    stringRoom (argv.take i) ≤ stringRoom (argv.take j) := by
  obtain ⟨k, rfl⟩ := Nat.exists_eq_add_of_le h
  rw [List.take_add, stringRoom_append]
  exact Nat.le_add_right ..

/-- What the two subtractions of the source do if there is no underflow. -/
theorem pushSp_eq {len : Nat} (hsp : sp % 16 = 0) (hlen : len + 1 ≤ sp) :
    pushSp sp len = sp - rounded (len + 1) := by
  unfold pushSp rounded
  omega

theorem arraySp_eq {argc : Nat} (hsp : sp % 16 = 0) (hargc : (argc + 1) * 8 ≤ sp) :
    arraySp sp argc = sp - rounded ((argc + 1) * 8) := by
  unfold arraySp rounded
  omega

/-! ## Closed form -/

/-- The address of each string: the rounded sizes up to it below the top of the stack. -/
def argAddrs (sp : Nat) (argv : List CString) : List Nat :=
  (List.range argv.length).map fun i => sp - stringRoom (argv.take (i + 1))

theorem argAddrs_cons (sp : Nat) (arg : CString) (argv : List CString) :
    argAddrs sp (arg :: argv) = (sp - rounded (arg.bytes.length + 1)) ::
      argAddrs (sp - rounded (arg.bytes.length + 1)) argv := by
  simp only [argAddrs, List.length_cons, List.range_succ_eq_map, List.map_cons, List.map_map,
    List.take_succ_cons, List.take_zero, stringRoom_cons]
  refine congrArg₂ _ rfl (List.map_congr_left fun i _ => ?_)
  simp only [Function.comp_apply, Nat.succ_eq_add_one]
  omega

/-- The strings fit exactly if their rounded sizes do.  No subtraction underflows: the strings are
shorter than a page, and the stack page is not the first one. -/
theorem pushPlan_eq (hbase : pgSize ≤ stackbase) (hsp : sp % 16 = 0) (hle : stackbase ≤ sp)
    (hlen : ∀ arg ∈ argv, arg.bytes.length < pgSize)
    (hargc : ustack.length + argv.length ≤ maxArg) :
    pushPlan stackbase argv sp ustack = if stackbase + stringRoom argv ≤ sp then
        some (sp - stringRoom argv, ustack ++ argAddrs sp argv)
      else none := by
  induction argv generalizing sp ustack with
  | nil => simp [pushPlan, stringRoom, argAddrs, hle]
  | cons arg argv ih =>
    have hpush : pushSp sp arg.bytes.length = sp - rounded (arg.bytes.length + 1) :=
      pushSp_eq hsp (by have := hlen arg (by simp); omega)
    have hroom : rounded (arg.bytes.length + 1) % 16 = 0 := Nat.mul_mod_left ..
    rw [List.length_cons] at hargc
    rw [pushPlan, if_neg (by omega), hpush, stringRoom_cons]
    by_cases hfit : sp - rounded (arg.bytes.length + 1) < stackbase
    · rw [if_pos hfit, if_neg (by omega)]
    · rw [if_neg hfit, ih (by omega) (Nat.le_of_not_lt hfit)
        (fun arg' harg' => hlen arg' (by simp [harg'])) (by simp; omega), argAddrs_cons]
      have hpos : 0 < stackbase := lt_of_lt_of_le (by decide) hbase
      refine if_congr (by omega) ?_ rfl
      rw [List.append_assoc, List.singleton_append, Nat.sub_sub]

/-- The arguments fit exactly if the rounded sizes of the strings and of the array do. -/
theorem stackPlan_eq (hsz : sz % pgSize = 0) (hbase : 2 * pgSize ≤ sz)
    (hlen : ∀ arg ∈ argv, arg.bytes.length < pgSize) (hargc : argv.length ≤ maxArg) :
    stackPlan sz argv = if Fits argv then
        some (sz - stringRoom argv - rounded ((argv.length + 1) * 8), argAddrs sz argv)
      else none := by
  have haligned : sz % 16 = 0 := by
    unfold pgSize at hsz
    omega
  have hmod := stringRoom_mod argv
  rw [stackPlan, pushPlan_eq (by omega) haligned (Nat.sub_le ..) hlen (by simpa)]
  by_cases hfit : sz - pgSize + stringRoom argv ≤ sz
  · have harray : (argv.length + 1) * 8 ≤ sz - stringRoom argv := by
      unfold maxArg at hargc
      unfold pgSize at *
      omega
    have hlength : (argAddrs sz argv).length = argv.length := by simp [argAddrs]
    have hpos : 0 < rounded ((argv.length + 1) * 8) := by
      unfold rounded
      omega
    rw [if_pos hfit, Option.bind_some]
    simp only [List.nil_append, hlength]
    rw [arraySp_eq (by omega) harray]
    by_cases hroom : Fits argv
    · rw [if_pos hroom, if_neg]
      unfold Fits at hroom
      omega
    · rw [if_neg hroom, if_pos]
      unfold Fits at hroom
      omega
  · rw [if_neg hfit, Option.bind_none, if_neg]
    unfold Fits
    omega

/-! ## The layout -/

/-- How the arguments lie in the last page below `sz`: the strings with their terminators at
the addresses in `ustack`, and the array that holds these addresses and a null pointer at
`sp`. -/
structure Layout (sz : Nat) (argv : List CString) (ustack : List Nat) (sp : Nat) : Prop where
  length : ustack.length = argv.length
  sp_aligned : sp % 16 = 0
  aligned : ∀ a ∈ ustack, a % 16 = 0
  array_inside : sz - pgSize ≤ sp ∧ sp + (argv.length + 1) * 8 ≤ sz
  inside : ∀ i (hi : i < argv.length), sz - pgSize ≤ ustack.getD i 0 ∧
    ustack.getD i 0 + (argv.get ⟨i, hi⟩).bytes.length + 1 ≤ sz
  /-- Every string ends before the ones pushed earlier begin. -/
  disjoint : ∀ i j (hj : j < argv.length), i < j →
    ustack.getD j 0 + (argv.get ⟨j, hj⟩).bytes.length + 1 ≤ ustack.getD i 0
  array_disjoint : ∀ i < argv.length, sp + (argv.length + 1) * 8 ≤ ustack.getD i 0

/-- Arguments that fit are laid out in the page. -/
theorem stackPlan_layout (hsz : sz % pgSize = 0) (hbase : 2 * pgSize ≤ sz)
    (hlen : ∀ arg ∈ argv, arg.bytes.length < pgSize) (hargc : argv.length ≤ maxArg)
    (hplan : stackPlan sz argv = some (sp, ustack)) : Layout sz argv ustack sp := by
  rw [stackPlan_eq hsz hbase hlen hargc] at hplan
  split at hplan
  next hfit =>
    cases hplan
    unfold Fits at hfit
    have haligned : sz % 16 = 0 := by
      unfold pgSize at hsz
      omega
    have hroom : ∀ n, n ≤ rounded n ∧ rounded n % 16 = 0 := by
      intro n
      unfold rounded
      omega
    have hall : ∀ i, stringRoom (argv.take i) ≤ stringRoom argv := by
      intro i
      have := stringRoom_append (argv.take i) (argv.drop i)
      rw [List.take_append_drop] at this
      omega
    have hget : ∀ i, i < argv.length →
        (argAddrs sz argv).getD i 0 = sz - stringRoom (argv.take (i + 1)) := by
      intro i hi
      simp [argAddrs, List.getD_eq_getElem?_getD, hi]
    have hmod := stringRoom_mod argv
    have harray := hroom ((argv.length + 1) * 8)
    refine ⟨by simp [argAddrs], by omega, fun a ha => ?_, by omega, fun i hi => ?_,
      fun i j hj hij => ?_, fun i hi => ?_⟩
    · obtain ⟨i, -, rfl⟩ := List.mem_map.mp ha
      have := stringRoom_mod (argv.take (i + 1))
      omega
    · have htake := stringRoom_take_succ hi
      have := hroom ((argv.get ⟨i, hi⟩).bytes.length + 1)
      have := hall (i + 1)
      rw [hget i hi]
      omega
    · have htake := stringRoom_take_succ hj
      have := hroom ((argv.get ⟨j, hj⟩).bytes.length + 1)
      have := hall (j + 1)
      have hmono := stringRoom_take_mono argv (show i + 1 ≤ j by omega)
      rw [hget i (by omega), hget j hj]
      omega
    · have := hall (i + 1)
      rw [hget i hi]
      omega
  next => cases hplan

/-- No subtraction of the source goes below zero: what is pushed next is not larger than the stack
pointer, as long as the loop has not failed. -/
def NoUnderflow (stackbase argc : Nat) : List CString → Nat → Prop
  | [], sp => (argc + 1) * 8 ≤ sp
  | arg :: argv, sp => arg.bytes.length + 1 ≤ sp ∧ (stackbase ≤ pushSp sp arg.bytes.length →
        NoUnderflow stackbase argc argv (pushSp sp arg.bytes.length))

theorem noUnderflow {argc : Nat} (hbase : pgSize ≤ stackbase) (hle : stackbase ≤ sp)
    (hlen : ∀ arg ∈ argv, arg.bytes.length < pgSize) (hargc : argc ≤ maxArg) :
    NoUnderflow stackbase argc argv sp := by
  induction argv generalizing sp with
  | nil =>
    unfold maxArg at hargc
    unfold pgSize at hbase
    unfold NoUnderflow
    omega
  | cons arg argv ih =>
    have harg := hlen arg (by simp)
    exact ⟨by omega, fun hpush => ih hpush fun arg' harg' => hlen arg' (by simp [harg'])⟩

/-! ## Writing the arguments -/

/-- Only bytes of one page were written. -/
structure PageWritten (pa : Nat) (s t : Ram) : Prop where
  out : ∀ x, ¬(pa ≤ x ∧ x < pa + pgSize) → t.mem x = s.mem x
  freelist : t.freelist = s.freelist
  fails : t.fails = s.fails

theorem PageWritten.trans {pa : Nat} {t u : Ram} (h : PageWritten pa s t)
    (h' : PageWritten pa t u) : PageWritten pa s u :=
  ⟨fun x hx => (h'.out x hx).trans (h.out x hx), h'.freelist.trans h.freelist,
    h'.fails.trans h.fails⟩

theorem copyout_page {r base off src : Nat} {bytes : List (BitVec 8)} (hbase : base % pgSize = 0)
    (hpa : userPage s.mem r base ≠ 0) (hne : bytes ≠ []) (hfit : off + bytes.length ≤ pgSize) :
    copyout r (base + off) src bytes s = .ok (0, { s with
      mem := mymemmoveFrom s.mem (userPage s.mem r base + off) src bytes }) := by
  have hpos := List.length_pos_iff.mpr hne
  have hround : pgRoundDown (base + off) = base := by
    unfold pgRoundDown pgSize at *
    omega
  have hmin : min (pgSize - off) bytes.length = bytes.length := by omega
  obtain ⟨rounds, hrounds⟩ := Nat.exists_eq_add_of_lt hpos
  rw [copyout, hrounds, Nat.zero_add, copyoutLoop, if_neg hpos.ne', hround,
    FaultM.bind_of_ok walkaddr_eq, if_neg hpa, Nat.add_sub_cancel_left, hmin, List.take_length,
    List.drop_length, FaultM.bind_of_ok (a := ()) rfl]
  cases rounds with
  | zero => rfl
  | succ rounds => rfl

theorem copyout_pageWritten {pa off src : Nat} {bytes : List (BitVec 8)}
    (hfit : off + bytes.length ≤ pgSize) :
    PageWritten pa s { s with mem := mymemmoveFrom s.mem (pa + off) src bytes } :=
  ⟨fun _ hx => mymemmoveFrom_of_not_mem (by omega), rfl, rfl⟩

/-! ## Strings in memory -/

/-- The characters of a string stand at an address, with a zero behind them. -/
def StringAt (m : Memory) (a : Nat) (arg : CString) : Prop :=
  ∀ j ≤ arg.bytes.length, m (a + j) = arg.bytes.getD j 0

/-- How many of `n` bytes `mymemmove` copies between word boundaries. -/
def wholeWords (n : Nat) : Nat := if n < 8 then n else n / 8 * 8

/-- What a copy brings of a string to an address in a page of zeroes. -/
def StoredAt (m : Memory) (a : Nat) (arg : CString) : Prop :=
  ∀ j ≤ arg.bytes.length, m (a + j) = (arg.bytes.take (wholeWords (arg.bytes.length + 1))).getD j 0

/-- A string was pushed to an address in a page that is shown at `base`. -/
structure Pushed (m : Memory) (page base : Nat) (arg : CString) (a : Nat) : Prop where
  base_le : base ≤ a
  fits : a + arg.bytes.length < base + pgSize
  stored : StoredAt m (page + (a - base)) arg

/-- The copy leaves out no character: the string is shorter than a word, or what does not fill a
word is the terminator at most. -/
def CString.Whole (arg : CString) : Prop := arg.bytes.length < 8 ∨ (arg.bytes.length + 1) % 8 ≤ 1

instance (arg : CString) : Decidable arg.Whole := inferInstanceAs (Decidable (_ ∨ _))

theorem getD_take_of_lt {bytes : List (BitVec 8)} {j n : Nat} (h : j < n) :
    (bytes.take n).getD j 0 = bytes.getD j 0 := by
  simp [List.getD_eq_getElem?_getD, h]

/-- A string that was copied stands there exactly if none of its characters was left out. -/
theorem StoredAt.stringAt_iff {m : Memory} {a : Nat} {arg : CString} (h : StoredAt m a arg) :
    StringAt m a arg ↔ arg.Whole := by
  unfold CString.Whole
  constructor
  · intro hstring
    by_contra hpart
    -- The first character that was left out is not zero.
    have hlt : wholeWords (arg.bytes.length + 1) < arg.bytes.length := by
      unfold wholeWords
      split <;> omega
    have hzero := (hstring _ hlt.le).symm.trans (h _ hlt.le)
    rw [List.getD_eq_getElem _ _ hlt, List.getD_eq_default _ _ (by simp)] at hzero
    exact arg.nonzero (hzero ▸ List.getElem_mem hlt)
  · intro hwhole j hj
    have hall : arg.bytes.length ≤ wholeWords (arg.bytes.length + 1) := by
      unfold wholeWords
      split <;> omega
    rw [h j hj, List.take_of_length_le hall]

theorem forall₂_stringAt_iff {m : Memory} {page base : Nat}
    (h : List.Forall₂ (Pushed m page base) argv ustack) :
    List.Forall₂ (fun arg a => StringAt m (page + (a - base)) arg) argv ustack ↔
      ∀ arg ∈ argv, arg.Whole := by
  induction h with
  | nil => simp
  | cons hpushed _ ih =>
    rw [List.forall₂_cons, List.forall_mem_cons, hpushed.stored.stringAt_iff, ih]

theorem storedAt_copy {m : Memory} {dst : Nat} {arg : CString} (hdst : dst % 8 = 0)
    (hlt : arg.bytes.length < dst) (hzero : ∀ j ≤ arg.bytes.length, m (dst + j) = 0) :
    StoredAt (mymemmoveFrom m dst 0 (arg.bytes ++ [0])) dst arg := by
  have hmoved : movedBytes dst 0 (arg.bytes ++ [0]).length = wholeWords (arg.bytes.length + 1) := by
    rw [List.length_append, List.length_singleton, wholeWords]
    split
    next hshort => exact movedBytes_of_le dst 0 hshort.le
    next hlong => exact if_pos ⟨by omega, rfl, hdst, by unfold RunsInto; omega⟩
  intro j hj
  have hsnoc : (arg.bytes ++ [0]).getD j 0 = arg.bytes.getD j 0 := by
    rcases Nat.lt_or_eq_of_le hj with hlt | rfl
    · exact List.getD_append _ _ _ _ hlt
    · simp
  rw [mymemmoveFrom, hmoved, Memory.blit, Nat.add_sub_cancel_left]
  by_cases hin : j < wholeWords (arg.bytes.length + 1)
  · rw [if_pos ⟨Nat.le_add_right .., by simp; omega⟩, getD_take_of_lt hin, getD_take_of_lt hin, hsnoc]
  · rw [if_neg (by simp; omega), hzero j hj, List.getD_eq_default _ _ (by simp; omega)]

section Pushing

variable {im : Image} {roots : Nat → Prop} {own : Nat → Role} {s : Ram} {r pa i stackbase : Nat}

/-- The loop over the arguments follows the plan and writes to the stack page only.  In a page of
zeroes, each string is stored at its address. -/
theorem pushArgs_eq (howned : Owned im own roots s) (hr : roots r) (hrole : own pa = .user r i)
    (hpa : userPage s.mem r stackbase = pa) (hbase : stackbase % pgSize = 0) (hpos : 0 < stackbase)
    (argv : List CString) (hsp : sp ≤ stackbase + pgSize) (ustack : List Nat) :
    ∃ t, pushArgs r stackbase argv sp ustack s = .ok (pushPlan stackbase argv sp ustack, t) ∧
      PageWritten pa s t ∧ (∀ x, sp ≤ stackbase + x → t.mem (pa + x) = s.mem (pa + x)) ∧
      ((∀ x, stackbase + x < sp → s.mem (pa + x) = 0) → ∀ sp' ustack',
        pushPlan stackbase argv sp ustack = some (sp', ustack') → ∃ addrs, ustack' = ustack ++ addrs ∧
          List.Forall₂ (fun arg a => sp' ≤ a ∧ Pushed t.mem pa stackbase arg a) argv addrs) := by
  have hpage : IsPage im pa := howned.page pa (by simp [hrole])
  induction argv generalizing s sp ustack with
  | nil =>
    refine ⟨s, rfl, ⟨fun _ _ => rfl, rfl, rfl⟩, fun _ _ => rfl, fun _ _ _ hplan => ?_⟩
    cases hplan
    exact ⟨[], (List.append_nil _).symm, .nil⟩
  | cons arg argv ih =>
    rw [pushArgs, pushPlan]
    split
    next => exact ⟨s, rfl, ⟨fun _ _ => rfl, rfl, rfl⟩, fun _ _ => rfl, by simp⟩
    next =>
    have hpush : sp - (arg.bytes.length + 1) - (sp - (arg.bytes.length + 1)) % 16 =
        pushSp sp arg.bytes.length := rfl
    simp only [hpush]
    split
    next => exact ⟨s, rfl, ⟨fun _ _ => rfl, rfl, rfl⟩, fun _ _ => rfl, by simp⟩
    next hge =>
      have hbound : pushSp sp arg.bytes.length + arg.bytes.length + 1 ≤ sp ∧
          pushSp sp arg.bytes.length % 16 = 0 := by
        unfold pushSp at *
        omega
      obtain ⟨off, hoff⟩ := Nat.exists_eq_add_of_le (Nat.le_of_not_lt hge)
      rw [hoff] at hbound ⊢
      have hfit : off + (arg.bytes ++ [0]).length ≤ pgSize := by
        rw [List.length_append, List.length_singleton]
        omega
      have hwritten : PageWritten pa s { s with
          mem := mymemmoveFrom s.mem (pa + off) 0 (arg.bytes ++ [0]) } := copyout_pageWritten hfit
      have hrest : ∀ x, x < off ∨ sp ≤ stackbase + x →
          mymemmoveFrom s.mem (pa + off) 0 (arg.bytes ++ [0]) (pa + x) = s.mem (pa + x) := by
        intro x hx
        refine mymemmoveFrom_of_not_mem ?_
        rw [List.length_append, List.length_singleton]
        omega
      have hstored := (howned.writeUser (r := r) hrole hwritten.out rfl rfl).1
      rw [FaultM.bind_of_ok (copyout_page hbase (hpa ▸ hpage.pos.ne') (by simp) hfit),
        if_neg (by decide), hpa]
      obtain ⟨t, hrun, hout, habove, hstrings⟩ := ih hstored.owned
        (by rw [hstored.userPage_eq hr, hpa]) (show stackbase + off ≤ stackbase + pgSize by omega)
        (ustack ++ [stackbase + off])
      refine ⟨t, hrun, hwritten.trans hout, fun x hx => ?_, fun hzero sp' ustack' hplan => ?_⟩
      · rw [habove x (by omega)]
        exact hrest x (.inr hx)
      · obtain ⟨addrs, rfl, hall⟩ := hstrings (fun x hx =>
          (hrest x (.inl (by omega))).trans (hzero x (by omega))) sp' ustack' hplan
        refine ⟨(stackbase + off) :: addrs, by simp, .cons ⟨(pushPlan_le hplan).1,
          Nat.le_add_right .., by omega, fun j hj => ?_⟩ hall⟩
        have halign := hpage.aligned
        have hlarge := hpage.pos
        have hcopied : StoredAt (mymemmoveFrom s.mem (pa + off) 0 (arg.bytes ++ [0])) (pa + off) arg :=
          storedAt_copy (by unfold pgSize at *; omega) (by unfold pgSize at *; omega)
            fun j hj => by rw [Nat.add_assoc]; exact hzero (off + j) (by omega)
        rw [Nat.add_sub_cancel_left, ← hcopied j hj, Nat.add_assoc]
        exact habove (off + j) (by omega)

theorem getD_flatMap_wordBytes (words : List Nat) (i : Nat) {j : Nat} (hj : j < 8) :
    (words.flatMap wordBytes).getD (8 * i + j) 0 = Memory.byteOf (words.getD i 0) j := by
  have hlen : ∀ w, (wordBytes w).length = 8 := fun w => by simp [wordBytes]
  induction words generalizing i with
  | nil => simp [Memory.byteOf]
  | cons w words ih =>
    rw [List.flatMap_cons]
    cases i with
    | zero =>
      rw [List.getD_append _ _ _ _ (by rw [hlen]; omega)]
      simp [wordBytes, List.getD_eq_getElem?_getD, hj]
    | succ i =>
      rw [List.getD_append_right _ _ _ _ (by rw [hlen]; omega), hlen,
        show 8 * (i + 1) + j - 8 = 8 * i + j by omega, ih, List.getD_cons_succ]

/-- The array is copied completely, since it consists of words. -/
theorem pushArray_eq {off : Nat} {words : List Nat} (hbase : stackbase % pgSize = 0)
    (hpa : userPage s.mem r stackbase = pa) (hne : pa ≠ 0) (hwords : words ≠ [])
    (hfit : off + words.length * 8 ≤ pgSize) (hlt : ∀ w ∈ words, w < 2 ^ 64) :
    ∃ t, copyout r (stackbase + off) 0 (words.flatMap wordBytes) s = .ok (0, t) ∧
      PageWritten pa s t ∧ (∀ x, off + words.length * 8 ≤ x → t.mem (pa + x) = s.mem (pa + x)) ∧
      ∀ i < words.length, t.mem.readLE (pa + off + 8 * i) 8 = words.getD i 0 := by
  have hlen : (words.flatMap wordBytes).length = words.length * 8 := by
    simp [List.length_flatMap, wordBytes]
  have hpos := List.length_pos_iff.mpr hwords
  refine ⟨_, copyout_page hbase (hpa ▸ hne) ?_ (by rwa [hlen]), ?_, fun x hx => ?_, fun i hi => ?_⟩
  · intro hnil
    rw [hnil, List.length_nil] at hlen
    omega
  · rw [hpa]
    exact copyout_pageWritten (by rwa [hlen])
  · rw [hpa]
    exact mymemmoveFrom_of_not_mem (by omega)
  · have hall : movedBytes (pa + off) 0 (words.length * 8) = words.length * 8 := by
      unfold movedBytes
      split
      next => omega
      next => rfl
    have hget : words.getD i 0 < 2 ^ 64 := by
      rw [List.getD_eq_getElem _ _ hi]
      exact hlt _ (List.getElem_mem hi)
    rw [hpa]
    refine (Memory.readLE_of_bytes (w := words.getD i 0) fun k hk => ?_).trans
      (Nat.mod_eq_of_lt hget)
    show mymemmoveFrom s.mem (pa + off) 0 (words.flatMap wordBytes) (pa + off + 8 * i + k) = _
    rw [mymemmoveFrom, hlen, hall, ← hlen, List.take_length, Memory.blit, if_pos (by omega),
      show pa + off + 8 * i + k - (pa + off) = 8 * i + k by omega]
    exact getD_flatMap_wordBytes words i hk

end Pushing

end Kernel
end FastIpc
