import FastIpc.Foundation.ByteMemory
import FastIpc.User.Calls

/-!
# The descriptor table in memory

`user_ring_bufs` as bytes.  An entry of `struct user_ring_buf` has two pointers, an
`int` and sixteen bytes for the name; the compiler adds four bytes so that the pointers of
the next entry are aligned.  `strcpy` writes one byte more than the name has, and for a name
of sixteen bytes that is the first of the four.

Main results:

- Theorem `createRingBufAt_refines`: on bytes `createRingBuf` does what it does on the
  table.
- Theorem `createRingBufAt_frame`: it writes to one entry only, or not at all.
-/

namespace FastIpc
namespace User

open Foundation
open Function (update update_of_ne update_self)

/-! ## Entries -/

/-- `sizeof(struct user_ring_buf)`. -/
def entrySize : Nat := 40

/-- Where the fields of an entry are; the first pointer is at its start. -/
def bookField : Nat := 8

@[inherit_doc bookField]
def existsField : Nat := 16

@[inherit_doc bookField]
def nameField : Nat := 20

/-- `&user_ring_bufs[i]`. -/
def entryAddr (base : Nat) (i : Fin maxRingbufs) : Nat := base + i * entrySize

/-- The `int` at an address. -/
def intAt (m : Memory) (a : Nat) : Int := (BitVec.ofNat 32 (m.readLE a 4)).toInt

/-- The string at an address, up to its terminator or `n` bytes. -/
def stringAt (m : Memory) (a : Nat) : Nat → List UInt8
  | 0 => []
  | n + 1 => if m a = 0 then [] else UInt8.ofBitVec (m a) :: stringAt m (a + 1) n

/-- The entry at an address.  The terminator of a name of sixteen bytes follows the field. -/
def entryOf (m : Memory) (a : Nat) : UserRingBuf where
  buf := m.readLE a 8
  book := m.readLE (a + bookField) 8
  existsFlag := intAt m (a + existsField)
  name := stringAt m (a + nameField) 17

/-- The table at an address. -/
def tableOf (m : Memory) (base : Nat) : UserTable := fun i =>
  entryOf m (entryAddr base i)

/-! ## Creating a descriptor -/

/-- `strcpy`, for a source that is not overwritten. -/
def strcpy (m : Memory) (s : Nat) : List UInt8 → Memory
  | [] => update m s 0
  | c :: t => strcpy (update m s c.toBitVec) (s + 1) t

/-- The stores to the pointers of an entry. -/
def setPointers (m : Memory) (a ringbuf : Nat) : Memory :=
  (m.writeLE a 8 ringbuf).writeLE (a + bookField) 8 (ringbuf + bookOffset)

/-- `createRingBuf` on the bytes of the table, after its `createbuf` system call
returned `exists` and stored `ringbuf`. -/
def createRingBufAt (m : Memory) (base : Nat) (straddr : List UInt8) (existed : Int)
    (ringbuf : Nat) : BookProg (Int × Memory) :=
  if existed = -1 then pure (-1, m)
  else if straddr.length > 16 then pure (-1, m)
  else match freeEntry (tableOf m base) with
  | none => pure (-1, m)
  | some i => do
    let a := entryAddr base i
    let m := setPointers m a ringbuf
    if existed ≠ 0 then
      store .readDone 0
      store .writeDone 0
      return ((i : Nat), strcpy m (a + nameField) straddr)
    else
      return ((i : Nat), strcpy (m.writeLE (a + existsField) 4 1) (a + nameField) straddr)

/-! ## What is read back -/

variable {m : Memory}

theorem strcpy_of_not_mem {s x : Nat} {t : List UInt8} (h : ¬(s ≤ x ∧ x ≤ s + t.length)) :
    strcpy m s t x = m x := by
  induction t generalizing m s with
  | nil => exact update_of_ne (by simp at h; omega) _ _
  | cons c t ih =>
    rw [List.length_cons] at h
    rw [strcpy, ih (by omega), update_of_ne (by omega)]

theorem stringAt_strcpy {s n : Nat} {t : List UInt8} (hzero : 0 ∉ t) (hlen : t.length < n) :
    stringAt (strcpy m s t) s n = t := by
  induction t generalizing m s n with
  | nil =>
    obtain ⟨n, rfl⟩ : ∃ k, n = k + 1 := ⟨n - 1, by simp at hlen; omega⟩
    rw [stringAt, strcpy, update_self, if_pos rfl]
  | cons c t ih =>
    rw [List.length_cons] at hlen
    obtain ⟨n, rfl⟩ : ∃ k, n = k + 1 := ⟨n - 1, by omega⟩
    have hfirst : strcpy (update m s c.toBitVec) (s + 1) t s = c.toBitVec := by
      rw [strcpy_of_not_mem (by omega), update_self]
    have hne : c.toBitVec ≠ 0 := fun hc => hzero (by
      rw [show c = 0 from UInt8.toBitVec_inj.mp hc]
      exact List.mem_cons_self)
    rw [stringAt, strcpy, hfirst, if_neg hne,
      ih (fun hmem => hzero (List.mem_cons_of_mem _ hmem)) (by omega)]

theorem stringAt_congr {m' : Memory} {a n : Nat} (h : ∀ x, a ≤ x → x < a + n → m' x = m x) :
    stringAt m' a n = stringAt m a n := by
  induction n generalizing a with
  | zero => rfl
  | succ n ih =>
    rw [stringAt, stringAt, h a (Nat.le_refl a) (by omega),
      ih fun x hlo hhi => h x (by omega) (by omega)]

theorem entryOf_congr {m' : Memory} {a : Nat} (h : ∀ x, a ≤ x → x < a + entrySize → m' x = m x) :
    entryOf m' a = entryOf m a := by
  unfold entrySize at h
  have hbuf : m'.readLE a 8 = m.readLE a 8 :=
    Memory.readLE_congr fun x hlo hhi => h x hlo (by omega)
  have hbook : m'.readLE (a + bookField) 8 = m.readLE (a + bookField) 8 :=
    Memory.readLE_congr fun x hlo hhi => h x (by omega) (by unfold bookField at *; omega)
  have hexists : m'.readLE (a + existsField) 4 = m.readLE (a + existsField) 4 :=
    Memory.readLE_congr fun x hlo hhi => h x (by omega) (by unfold existsField at *; omega)
  have hname : stringAt m' (a + nameField) 17 = stringAt m (a + nameField) 17 :=
    stringAt_congr fun x hlo hhi => h x (by omega) (by unfold nameField at *; omega)
  unfold entryOf intAt
  rw [hbuf, hbook, hexists, hname]

section Create

variable {m : Memory} {base ringbuf : Nat} {straddr : List UInt8} {existed : Int}

/-- An entry before the name is copied. -/
def prepared (m : Memory) (a ringbuf : Nat) (existed : Int) : Memory :=
  if existed ≠ 0 then setPointers m a ringbuf
  else (setPointers m a ringbuf).writeLE (a + existsField) 4 1

/-- The result of `createRingBuf` and the memory after it. -/
theorem createRingBufAt_outcome (seen : Counter → BitVec 64) :
    (createRingBufAt m base straddr existed ringbuf).outcome seen =
      if existed = -1 ∨ straddr.length > 16 then (-1, m)
      else match freeEntry (tableOf m base) with
      | none => (-1, m)
      | some i => ((i.val : Int), strcpy (prepared m (entryAddr base i) ringbuf existed)
          (entryAddr base i + nameField) straddr) := by
  unfold createRingBufAt
  by_cases hexisted : existed = -1
  · rw [if_pos hexisted, if_pos (.inl hexisted)]
    rfl
  by_cases hlen : straddr.length > 16
  · rw [if_neg hexisted, if_pos hlen, if_pos (.inr hlen)]
    rfl
  rw [if_neg hexisted, if_neg hlen, if_neg (not_or.mpr ⟨hexisted, hlen⟩)]
  cases freeEntry (tableOf m base) with
  | none => rfl
  | some i =>
    simp only [prepared]
    split
    next => rfl
    next => rfl

variable {a x : Nat}

theorem setPointers_of_not_mem (h : ¬(a ≤ x ∧ x < a + existsField)) :
    setPointers m a ringbuf x = m x := by
  unfold existsField at h
  unfold setPointers bookField
  by_cases hlt : x < a
  · rw [Memory.writeLE_of_lt (by omega), Memory.writeLE_of_lt hlt]
  · rw [Memory.writeLE_of_ge (by omega), Memory.writeLE_of_ge (by omega)]

theorem prepared_of_lt (h : x < a + existsField) :
    prepared m a ringbuf existed x = setPointers m a ringbuf x := by
  unfold prepared
  split
  next => rfl
  next => rw [Memory.writeLE_of_lt h]

theorem prepared_of_not_mem (h : ¬(a ≤ x ∧ x < a + nameField)) :
    prepared m a ringbuf existed x = m x := by
  by_cases hlt : x < a + existsField
  · rw [prepared_of_lt hlt, setPointers_of_not_mem]
    unfold existsField nameField at *
    omega
  · have hge : a + existsField + 4 ≤ x := by
      unfold existsField nameField at *
      omega
    unfold prepared
    split
    next => exact setPointers_of_not_mem (by omega)
    next => rw [Memory.writeLE_of_ge hge, setPointers_of_not_mem (by omega)]

/-- The flag is set only for a ring that was there before. -/
theorem prepared_flag (m : Memory) (a ringbuf : Nat) (existed : Int) :
    intAt (prepared m a ringbuf existed) (a + existsField) =
      if existed ≠ 0 then intAt m (a + existsField) else 1 := by
  unfold prepared intAt
  split
  next => rw [Memory.readLE_congr fun x hlo hhi => setPointers_of_not_mem fun h => by omega]
  next =>
    rw [Memory.readLE_writeLE (by decide)]
    decide

/-- The pointers of an entry after they were set, if nothing else is stored to them. -/
theorem readLE_of_pointers {m' : Memory} (hringbuf : ringbuf + bookOffset < 2 ^ 64)
    (h : ∀ x, x < a + existsField → m' x = setPointers m a ringbuf x) :
    m'.readLE a 8 = ringbuf ∧ m'.readLE (a + bookField) 8 = ringbuf + bookOffset := by
  constructor
  · rw [Memory.readLE_congr fun x hlo hhi => h x (by unfold existsField; omega), setPointers,
      Memory.readLE_writeLE_of_disjoint (.inl (by unfold bookField; omega)),
      Memory.readLE_writeLE (by omega)]
  · rw [Memory.readLE_congr fun x hlo hhi => h x (by unfold bookField existsField at *; omega),
      setPointers, Memory.readLE_writeLE (by omega)]

theorem entryOf_strcpy (a : Nat) (hzero : 0 ∉ straddr) (hlen : straddr.length ≤ 16)
    (hringbuf : ringbuf + bookOffset < 2 ^ 64) :
    entryOf (strcpy (prepared m a ringbuf existed) (a + nameField) straddr) a =
      ⟨ringbuf, ringbuf + bookOffset,
        if existed ≠ 0 then intAt m (a + existsField) else 1, straddr⟩ := by
  have hbefore : ∀ x, x < a + nameField →
      strcpy (prepared m a ringbuf existed) (a + nameField) straddr x =
        prepared m a ringbuf existed x :=
    fun x hx => strcpy_of_not_mem (by omega)
  obtain ⟨hbuf, hbook⟩ := readLE_of_pointers (m := m) hringbuf fun x hx =>
    (hbefore x (hx.trans_le (by unfold existsField nameField; omega))).trans (prepared_of_lt hx)
  have hexists : (strcpy (prepared m a ringbuf existed) (a + nameField) straddr).readLE
      (a + existsField) 4 = (prepared m a ringbuf existed).readLE (a + existsField) 4 :=
    Memory.readLE_congr fun x hlo hhi => hbefore x (by unfold existsField nameField at *; omega)
  rw [← prepared_flag m a ringbuf]
  unfold entryOf intAt
  rw [hbuf, hbook, hexists, stringAt_strcpy hzero (by omega)]

/-- The bytes outside an entry are not touched by the stores to it. -/
theorem strcpy_frame (hlen : straddr.length ≤ 16) (hx : ¬(a ≤ x ∧ x < a + entrySize)) :
    strcpy (prepared m a ringbuf existed) (a + nameField) straddr x = m x := by
  unfold entrySize at hx
  unfold nameField
  rw [strcpy_of_not_mem (by omega), prepared_of_not_mem (by unfold nameField; omega)]

theorem entryAddr_disjoint {i i' : Fin maxRingbufs} (hne : i' ≠ i) (hlo : entryAddr base i' ≤ x)
    (hhi : x < entryAddr base i' + entrySize) :
    ¬(entryAddr base i ≤ x ∧ x < entryAddr base i + entrySize) := by
  have hval : i'.val ≠ i.val := fun h => hne (Fin.ext h)
  unfold entryAddr entrySize at *
  omega

/-- On bytes `createRingBuf` does what it does on the table. -/
theorem createRingBufAt_refines (hzero : 0 ∉ straddr) (hringbuf : ringbuf + bookOffset < 2 ^ 64)
    (seen : Counter → BitVec 64) :
    (((createRingBufAt m base straddr existed ringbuf).outcome seen).1,
        tableOf ((createRingBufAt m base straddr existed ringbuf).outcome seen).2 base) =
      (createRingBuf (tableOf m base) straddr existed ringbuf).outcome seen := by
  rw [createRingBufAt_outcome]
  unfold createRingBuf
  by_cases hexisted : existed = -1
  · rw [if_pos hexisted, if_pos (.inl hexisted)]
    rfl
  by_cases hlen : straddr.length > 16
  · rw [if_neg hexisted, if_pos hlen, if_pos (.inr hlen)]
    rfl
  rw [if_neg hexisted, if_neg hlen, if_neg (not_or.mpr ⟨hexisted, hlen⟩)]
  cases freeEntry (tableOf m base) with
  | none => rfl
  | some i =>
    have htable : tableOf (strcpy (prepared m (entryAddr base i) ringbuf existed)
        (entryAddr base i + nameField) straddr) base =
        update (tableOf m base) i ⟨ringbuf, ringbuf + bookOffset,
          if existed ≠ 0 then (tableOf m base i).existsFlag else 1, straddr⟩ := by
      funext i'
      by_cases hi : i' = i
      · rw [hi, update_self]
        exact entryOf_strcpy _ hzero (by omega) hringbuf
      · rw [update_of_ne hi]
        exact entryOf_congr fun x hlo hhi =>
          strcpy_frame (by omega) (entryAddr_disjoint hi hlo hhi)
    simp only [htable]
    by_cases hzero : existed = 0
    · simp [hzero]
    · simp [hzero, store]

theorem createRingBufAt_refines_zero :
    tableOf ((createRingBufAt (fun _ => 0) 4096 [98] 0 8192).outcome fun _ => 0).2 4096 =
      ((createRingBuf (tableOf (fun _ => 0) 4096) [98] 0 8192).outcome fun _ => 0).2 := by
  have hrefines := @createRingBufAt_refines (fun _ => 0) 4096 8192 [98] 0 (by decide)
    (by unfold bookOffset; omega) fun _ => 0
  rw [← hrefines]

/-- `createRingBuf` writes to the entry whose number it returns, and to no other byte; if it
fails it writes nothing. -/
theorem createRingBufAt_frame (m : Memory) (base : Nat) (straddr : List UInt8) (existed : Int)
    (ringbuf : Nat) (seen : Counter → BitVec 64) :
    (createRingBufAt m base straddr existed ringbuf).outcome seen = (-1, m) ∨ ∃ i : Fin maxRingbufs,
        ((createRingBufAt m base straddr existed ringbuf).outcome seen).1 = i.val ∧
        ∀ x, ¬(entryAddr base i ≤ x ∧ x < entryAddr base i + entrySize) →
          ((createRingBufAt m base straddr existed ringbuf).outcome seen).2 x = m x := by
  rw [createRingBufAt_outcome]
  split
  next => exact .inl rfl
  next hok =>
    cases freeEntry (tableOf m base) with
    | none => exact .inl rfl
    | some i => exact .inr ⟨i, rfl, fun x hx => strcpy_frame (by omega) hx⟩

/-- It fails exactly if the system call failed, the name is too long or there is no entry. -/
theorem createRingBufAt_fails_iff (m : Memory) (base : Nat) (straddr : List UInt8) (existed : Int)
    (ringbuf : Nat) (seen : Counter → BitVec 64) :
    ((createRingBufAt m base straddr existed ringbuf).outcome seen).1 = -1 ↔
      existed = -1 ∨ straddr.length > 16 ∨ freeEntry (tableOf m base) = none := by
  rw [createRingBufAt_outcome, ← or_assoc]
  split
  next hfails => simp [hfails]
  next hok =>
    cases hfree : freeEntry (tableOf m base) with
    | none => simp
    | some i => simpa using fun h => hok h

end Create

end User
end FastIpc
