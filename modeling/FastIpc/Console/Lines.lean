import FastIpc.Console.Calls
import FastIpc.Foundation.Run
import Mathlib.Data.List.Count
import Mathlib.Data.List.Induction

/-!
# The line discipline of the console

Main results:

- Theorem `Lined.intr`: `consoleintr` on the buffer and on the line.
- Theorem `console_lines`: what holds over all runs.
-/

namespace FastIpc
namespace Console

open Foundation CyclicQueue

variable {P : Type}

theorem inputBuf_dvd : inputBuf ∣ 2 ^ 32 := by
  decide

theorem inputBuf_lt : inputBuf < 2 ^ 32 := by
  decide

/-! ## The buffer and the line -/

/-- The buffer holds the line from the first character on that has not been removed. -/
structure Lined (k : Cons) (l : Line) (removed : List (BitVec 8)) : Prop where
  holds : Holds k.buf k.r k.e (l.committed ++ l.pending) removed
  w_eq : k.w = BitVec.ofNat 32 l.committed.length
  removed_le : removed.length ≤ l.committed.length
  plain : ∀ c ∈ l.pending, c ≠ newline

namespace Lined

variable {k : Cons} {l : Line} {removed : List (BitVec 8)}

section

variable (h : Lined k l removed)
include h

theorem length_le : l.committed.length + l.pending.length ≤ removed.length + inputBuf := by
  rw [← List.length_append]
  exact h.holds.length_le

theorem removed_prefix : removed <+: l.committed :=
  List.prefix_of_prefix_length_le h.holds.taken_prefix (List.prefix_append _ _) h.removed_le

theorem pending_eq : (k.e - k.w).toNat = l.pending.length := by
  have hlen := h.length_le
  have hle := h.removed_le
  rw [h.holds.nwrite_eq, h.w_eq, List.length_append]
  exact toNat_ofNat_sub (by unfold inputBuf at hlen; omega) _

theorem ready_eq : (k.w - k.r).toNat = l.committed.length - removed.length := by
  have hlen := h.length_le
  obtain ⟨d, hd⟩ := Nat.exists_eq_add_of_le h.removed_le
  rw [h.holds.nread_eq, h.w_eq, hd, Nat.add_sub_cancel_left]
  exact toNat_ofNat_sub (by unfold inputBuf at hlen; omega) _

theorem used_eq : (k.e - k.r).toNat = l.committed.length + l.pending.length - removed.length := by
  rw [h.holds.used_eq inputBuf_lt, List.length_append]

theorem e_eq_w_iff : k.e = k.w ↔ l.pending = [] := by
  rw [← List.length_eq_zero_iff, ← h.pending_eq]
  constructor
  · intro heq
    rw [heq, BitVec.sub_self]
    rfl
  · intro hzero
    have hsub : k.e - k.w = 0#32 := BitVec.eq_of_toNat_eq hzero
    rw [← BitVec.sub_add_cancel k.e k.w, hsub, BitVec.zero_add]

end

/-- The loop that kills a line goes back to the last commit. -/
theorem killLoop {buf : Fin inputBuf → BitVec 8} {r e : BitVec 32} {put pending : List (BitVec 8)}
    (h : Holds buf r e (put ++ pending) removed) (hle : removed.length ≤ put.length)
    (hplain : ∀ c ∈ pending, c ≠ newline) :
    Holds buf r (Cons.killLoop buf pending.length e) put removed := by
  induction pending using List.reverseRecOn generalizing e with
  | nil =>
    rw [List.append_nil] at h
    exact h
  | append_singleton pending c ih =>
    rw [← List.append_assoc] at h
    obtain ⟨hc, h'⟩ := h.unpush inputBuf_dvd (by rw [List.length_append]; omega)
    rw [List.length_append, List.length_singleton, Cons.killLoop, hc, if_pos]
    · exact ih h' fun c hc => hplain c (List.mem_append_left _ hc)
    · exact hplain c (List.mem_append_right _ (List.mem_singleton_self c))

theorem room_iff (h : Lined k l removed) : k.e - k.r < BitVec.ofNat 32 inputBuf ↔
    ¬removed.length + inputBuf ≤ (l.committed ++ l.pending).length := by
  have hle := h.removed_le
  rw [BitVec.lt_def, h.used_eq, BitVec.toNat_ofNat, Nat.mod_eq_of_lt inputBuf_lt,
    List.length_append]
  omega

/-- A character is stored, and commits the line or not. -/
theorem store (h : Lined k l removed)
    (hroom : ¬removed.length + inputBuf ≤ (l.committed ++ l.pending).length) (c : BitVec 8) :
    Holds (k.store c).buf (k.store c).r (k.store c).e (l.committed ++ l.pending ++ [c]) removed := by
  refine h.holds.push inputBuf_dvd inputBuf_lt (fun hfull => hroom ?_) c
  exact ((h.holds.full_iff inputBuf_lt).mp hfull).ge

/-- What `consoleintr` does to the buffer is what the character does to the line. -/
theorem intr {s : State P} (h : Lined s.cons l removed) (c : BitVec 8) :
    Lined (consoleintr s c).cons (l.type removed.length c) removed := by
  rw [consoleintr, Line.type]
  by_cases hP : c = control 'P'
  · rw [if_pos hP, if_pos (.inl hP)]
    exact h
  rw [if_neg hP]
  by_cases hU : c = control 'U'
  · have hkill := killLoop h.holds h.removed_le h.plain
    rw [← h.pending_eq] at hkill
    rw [if_neg (show ¬(c = control 'P' ∨ c = 0) by rw [hU]; decide), if_pos hU, if_pos hU]
    refine ⟨?_, h.w_eq, h.removed_le, by simp⟩
    rw [List.append_nil]
    exact hkill
  rw [if_neg hU, if_neg hU]
  by_cases hH : c = control 'H' ∨ c = 0x7f
  · rw [if_neg (show ¬(c = control 'P' ∨ c = 0) by rcases hH with rfl | rfl <;> decide), if_pos hH,
      if_pos hH]
    rcases List.eq_nil_or_concat' l.pending with hnil | ⟨pending, last, hpending⟩
    · have hholds := h.holds
      rw [hnil] at hholds
      rw [if_neg (not_not_intro (h.e_eq_w_iff.mpr hnil)), hnil]
      exact ⟨hholds, h.w_eq, h.removed_le, by simp⟩
    · have hne : s.cons.e ≠ s.cons.w := by
        rw [ne_eq, h.e_eq_w_iff, hpending]
        simp
      have hholds := h.holds
      rw [hpending, ← List.append_assoc] at hholds
      have hlen := h.removed_le
      obtain ⟨-, hback⟩ := hholds.unpush inputBuf_dvd (by rw [List.length_append]; omega)
      rw [if_pos hne, hpending, List.dropLast_concat]
      refine ⟨hback, h.w_eq, h.removed_le, fun d hd => h.plain d ?_⟩
      rw [hpending]
      exact List.mem_append_left _ hd
  rw [if_neg hH, if_neg hH]
  by_cases h0 : c = 0
  · rw [if_neg (fun hand => hand.1 h0), if_pos (.inr h0)]
    exact h
  rw [if_neg (not_or.mpr ⟨hP, h0⟩)]
  by_cases hfull : removed.length + inputBuf ≤ (l.committed ++ l.pending).length
  · rw [if_neg (fun hand => h.room_iff.mp hand.2 hfull), if_pos hfull]
    exact h
  rw [if_pos ⟨h0, h.room_iff.mpr hfull⟩, if_neg hfull]
  generalize (if c = 0x0d then newline else c) = d
  have hholds := h.store hfull d
  have hfull' : (s.cons.store d).e = (s.cons.store d).r + BitVec.ofNat 32 inputBuf ↔
      (l.committed ++ l.pending ++ [d]).length = removed.length + inputBuf :=
    hholds.full_iff inputBuf_lt
  simp only
  split
  next hcommit =>
    rw [hfull'] at hcommit
    rw [if_pos hcommit]
    refine ⟨?_, hholds.nwrite_eq, hholds.taken_le, by simp⟩
    rw [List.append_nil]
    exact hholds
  next hopen =>
    rw [hfull'] at hopen
    rw [if_neg hopen]
    refine ⟨?_, h.w_eq, h.removed_le, ?_⟩
    · rw [← List.append_assoc]
      exact hholds
    · intro b hb
      rcases List.mem_append.mp hb with hb | hb
      · exact h.plain b hb
      · rw [List.mem_singleton.mp hb]
        exact fun hnl => hopen (.inl hnl)

theorem remove {s : State P} (h : Lined s.cons l removed) (hne : s.cons.r ≠ s.cons.w) :
    Lined s.remove.cons l (removed ++ [s.cons.next]) := by
  have hlt : removed.length < l.committed.length := by
    refine lt_of_le_of_ne h.removed_le fun heq => hne ?_
    rw [h.holds.nread_eq, h.w_eq, heq]
  have hne' : s.cons.r ≠ s.cons.e := by
    rw [ne_eq, h.holds.empty_iff inputBuf_lt, List.length_append]
    omega
  refine ⟨h.holds.pop inputBuf_dvd inputBuf_lt hne', h.w_eq, ?_, h.plain⟩
  rw [List.length_append, List.length_singleton]
  exact hlt

end Lined

/-! ## Reads -/

/-- No read delivers a control-D, and the reads that have removed one, one each, return 0. -/
structure Ended (s : State P) : Prop where
  frame : ∀ p n got, s.frame p = .read n got ∨ s.frame p = .sleep n got → control 'D' ∉ got
  finished : ∀ f ∈ s.reads, control 'D' ∉ f.got ∧ (f.eof = true → f.got = [] ∧ f.result = 0)
  count_eq : s.removed.count (control 'D') = s.reads.countP Finished.eof

/-- The lines and the reads of a state. -/
structure Sound (s : State P) : Prop where
  lined : Lined s.cons s.line s.removed
  ended : Ended s

theorem Ended.remove {s : State P} (h : Ended s) (hD : s.cons.next ≠ control 'D') :
    Ended s.remove := by
  refine ⟨h.frame, h.finished, ?_⟩
  show (s.removed ++ [s.cons.next]).count _ = _
  rw [List.count_append, h.count_eq, List.count_singleton, if_neg (by simpa using hD)]
  rfl

theorem Fresh.sound {s : State P} (h : Fresh s) : Sound s := by
  refine ⟨⟨?_, ?_, ?_, ?_⟩, ⟨fun p n got hp => ?_, ?_, ?_⟩⟩
  · rw [h.r, h.e, h.line, h.removed]
    exact holds_nil _
  · rw [h.w, h.line]
    rfl
  · rw [h.removed]
    exact Nat.zero_le _
  · rw [h.line]
    simp
  · obtain ⟨result, hframe⟩ := h.frame p
    rw [hframe] at hp
    rcases hp with hp | hp <;> cases hp
  · rw [h.reads]
    simp
  · rw [h.removed, h.reads]
    rfl

variable [DecidableEq P]

namespace Ended

variable {s : State P} {p : P} {n : Int} {got : List (BitVec 8)}

/-- A process goes on with bytes that are no control-D. -/
theorem update (h : Ended s) {frame : Frame}
    (hframe : ∀ n got, frame = .read n got ∨ frame = .sleep n got → control 'D' ∉ got) :
    ∀ q n got, Function.update s.frame p frame q = .read n got ∨
      Function.update s.frame p frame q = .sleep n got → control 'D' ∉ got := by
  intro q n got hq
  by_cases hqp : q = p
  · subst hqp
    rw [Function.update_self] at hq
    exact hframe n got hq
  · rw [Function.update_of_ne hqp] at hq
    exact h.frame q n got hq

theorem ret (h : Ended s) (hgot : control 'D' ∉ got) (result : Int) :
    Ended (s.ret p got result false) := by
  refine ⟨h.update (by rintro n got (heq | heq) <;> cases heq), fun f hf => ?_, ?_⟩
  · rcases List.mem_append.mp hf with hf | hf
    · exact h.finished f hf
    · rw [List.mem_singleton.mp hf]
      exact ⟨hgot, fun heof => by cases heof⟩
  · show s.removed.count _ = (s.reads ++ [_]).countP _
    rw [h.count_eq, List.countP_append]
    rfl

theorem retEof (h : Ended s) (hD : s.cons.next = control 'D') :
    Ended (s.remove.ret p [] 0 true) := by
  refine ⟨h.update (by rintro n got (heq | heq) <;> cases heq), fun f hf => ?_, ?_⟩
  · rcases List.mem_append.mp hf with hf | hf
    · exact h.finished f hf
    · rw [List.mem_singleton.mp hf]
      exact ⟨List.not_mem_nil, fun _ => ⟨rfl, rfl⟩⟩
  · show (s.removed ++ [s.cons.next]).count _ = (s.reads ++ [_]).countP _
    rw [hD, List.count_append, List.countP_append, h.count_eq, List.count_singleton_self]
    rfl

end Ended

namespace Sound

variable {s t : State P} {p : P} {n : Int} {got : List (BitVec 8)}

theorem ret (h : Sound s) (hgot : control 'D' ∉ got) (result : Int) :
    Sound (s.ret p got result false) :=
  ⟨h.lined, h.ended.ret hgot result⟩

theorem remove (h : Sound s) (hne : s.cons.r ≠ s.cons.w) (hD : s.cons.next ≠ control 'D') :
    Sound s.remove :=
  ⟨h.lined.remove hne, h.ended.remove hD⟩

theorem consoleread (h : Sound s) (hgot : control 'D' ∉ got) (copied : Bool) :
    Sound (Console.consoleread s p n got copied) := by
  rw [Console.consoleread]
  split
  next =>
    split
    next =>
      split
      next => exact h.ret hgot _
      next =>
        refine ⟨h.lined, h.ended.update ?_, h.ended.finished, h.ended.count_eq⟩
        rintro n' got' (heq | heq) <;> cases heq
        exact hgot
    next hne =>
      simp only
      split
      next hD =>
        split
        next => exact h.ret hgot _
        next hempty =>
          obtain rfl : got = [] := List.length_eq_zero_iff.mp (by omega)
          exact ⟨h.lined.remove hne, h.ended.retEof hD⟩
      next hD =>
        have hgot' : control 'D' ∉ got ++ [s.cons.next] := by
          intro hmem
          rcases List.mem_append.mp hmem with hmem | hmem
          · exact hgot hmem
          · exact hD (List.mem_singleton.mp hmem).symm
        have hremove := h.remove hne hD
        split
        next =>
          split
          next => exact hremove.ret hgot' _
          next =>
            refine ⟨hremove.lined, hremove.ended.update ?_, hremove.ended.finished,
              hremove.ended.count_eq⟩
            rintro n' got' (heq | heq) <;> cases heq
            exact hgot'
        next => exact hremove.ret hgot _
  next => exact h.ret hgot _

theorem consoleintr_reads (s : State P) (c : BitVec 8) : (consoleintr s c).frame = s.frame ∧
    (consoleintr s c).reads = s.reads ∧ (consoleintr s c).removed = s.removed := by
  unfold consoleintr
  simp only
  split_ifs <;> exact ⟨rfl, rfl, rfl⟩

theorem step {a : Action P} (h : Sound s) (hstep : Console.step s a = some t) : Sound t := by
  cases a with
  | intr c =>
    simp only [Console.step] at hstep
    split at hstep
    next =>
      cases hstep
      obtain ⟨hframe, hreads, hremoved⟩ := consoleintr_reads s c
      refine ⟨?_, ⟨?_, ?_, ?_⟩⟩
      · simp only [hremoved]
        exact h.lined.intr c
      · simp only [hframe]
        exact h.ended.frame
      · simp only [hreads]
        exact h.ended.finished
      · simp only [hremoved, hreads]
        exact h.ended.count_eq
    next => cases hstep
  | read p n =>
    simp only [Console.step] at hstep
    split at hstep
    next =>
      cases hstep
      refine ⟨h.lined, h.ended.update ?_, h.ended.finished, h.ended.count_eq⟩
      rintro n got (heq | heq) <;> cases heq
      exact List.not_mem_nil
    next => cases hstep
  | resume p =>
    simp only [Console.step] at hstep
    split at hstep
    next n got hlock hasleep hframe =>
      cases hstep
      refine ⟨h.lined, h.ended.update ?_, h.ended.finished, h.ended.count_eq⟩
      rintro n' got' (heq | heq) <;> cases heq
      exact h.ended.frame p n got (.inr hframe)
    next => cases hstep
  | round p copied =>
    simp only [Console.step] at hstep
    split at hstep
    next =>
      split at hstep
      next n got hframe =>
        cases hstep
        exact h.consoleread (h.ended.frame p n got (.inl hframe)) copied
      next => cases hstep
    next => cases hstep
  | kill p =>
    cases hstep
    exact ⟨h.lined, h.ended.frame, h.ended.finished, h.ended.count_eq⟩

end Sound

/-- What a read does when a control-D is next: it returns the bytes it has, and removes the control-D
if it has none. -/
def MeetsEof (s : State P) (p : P) (got : List (BitVec 8)) (t : State P) : Prop :=
  t.frame p = .user got.length ∧
    if got = [] then t.removed = s.removed ++ [control 'D'] ∧ t.reads = s.reads ++ [⟨[], 0, true⟩]
    else t.cons = s.cons ∧ t.removed = s.removed ∧ t.reads = s.reads ++ [⟨got, got.length, false⟩]

theorem meetsEof_of_step {s t : State P} {p : P} {n : Int} {got : List (BitVec 8)} {copied : Bool}
    (hframe : s.frame p = .read n got) (hlt : got.length < n) (hne : s.cons.r ≠ s.cons.w)
    (hD : s.cons.next = control 'D') (hstep : step s (.round p copied) = some t) :
    MeetsEof s p got t := by
  simp only [step, hframe] at hstep
  split at hstep
  next =>
    cases hstep
    rw [consoleread, if_pos hlt, if_neg hne]
    simp only [hD, if_true]
    split
    next hpos =>
      have hgot : got ≠ [] := List.length_pos_iff.mp hpos
      exact ⟨Function.update_self .., by rw [if_neg hgot]; exact ⟨rfl, rfl, rfl⟩⟩
    next hempty =>
      obtain rfl : got = [] := List.length_eq_zero_iff.mp (by omega)
      refine ⟨Function.update_self .., ?_⟩
      rw [if_pos rfl]
      exact ⟨by rw [← hD]; rfl, rfl⟩
  next => cases hstep

/-- In every run: the indices stay in order; readers remove a prefix of the committed characters;
no read delivers a control-D; as many control-Ds have been removed as there are reads that have
removed one, and these return 0 bytes; and a control-D ends the read that meets it. -/
theorem console_lines {s t : State P} {actions : List (Action P)} (hfresh : Fresh s)
    (hrun : Run (StepOf step) s actions t) :
    (t.cons.w - t.cons.r).toNat ≤ (t.cons.e - t.cons.r).toNat ∧
      (t.cons.e - t.cons.r).toNat ≤ inputBuf ∧ t.removed <+: t.line.committed ∧
      (∀ f ∈ t.reads, control 'D' ∉ f.got ∧ (f.eof = true → f.got = [] ∧ f.result = 0)) ∧
      t.removed.count (control 'D') = t.reads.countP Finished.eof ∧
      ∀ p n got copied u, t.frame p = .read n got → got.length < n → t.cons.r ≠ t.cons.w →
        t.cons.next = control 'D' → step t (.round p copied) = some u → MeetsEof t p got u := by
  have hsound : Sound t := hrun.invariant (fun hs hstep => hs.step hstep) hfresh.sound
  have hlen := hsound.lined.length_le
  refine ⟨?_, ?_, hsound.lined.removed_prefix, hsound.ended.finished, hsound.ended.count_eq,
    fun p n got copied u hframe hlt hne hD hstep => meetsEof_of_step hframe hlt hne hD hstep⟩
  · rw [hsound.lined.ready_eq, hsound.lined.used_eq]
    omega
  · rw [hsound.lined.used_eq]
    omega

/-- A console of two processes that nobody has used. -/
def freshConsole : State Bool where
  cons := ⟨fun _ => 0, 0, 0, 0⟩
  lock := none
  frame _ := .user 0
  asleep _ := false
  killed _ := false
  line := ⟨[], []⟩
  removed := []
  reads := []

theorem freshConsole_fresh : Fresh freshConsole := ⟨rfl, rfl, rfl, fun _ => ⟨0, rfl⟩, rfl, rfl, rfl⟩

/-- A process waits for a line; `a`, `b`, a backspace and a control-D are typed; it gets
`a`, and the next read gets the end of file. -/
theorem console_lines_eof : ∃ t, Run (StepOf step) freshConsole
      [.read true 5, .round true true, .intr 97, .intr 98, .intr 8, .intr 4, .resume true,
        .round true true, .round true true, .read false 5, .round false true] t ∧
    t.line.committed = [97, 4] ∧ t.removed = [97, 4] ∧ t.reads.length = 2 ∧
    t.removed <+: t.line.committed ∧ t.removed.count (control 'D') = t.reads.countP Finished.eof := by
  obtain ⟨t, hexec, hline, hremoved, hreads⟩ : ∃ t, exec step freshConsole
      [.read true 5, .round true true, .intr 97, .intr 98, .intr 8, .intr 4, .resume true,
        .round true true, .round true true, .read false 5, .round false true] = some t ∧
      t.line.committed = [97, 4] ∧ t.removed = [97, 4] ∧ t.reads.length = 2 :=
    exists_exec (by decide +kernel)
  have hrun := run_of_exec hexec
  obtain ⟨-, -, hpre, -, hcount, -⟩ := console_lines freshConsole_fresh hrun
  exact ⟨t, hrun, hline, hremoved, hreads, hpre, hcount⟩

end Console
end FastIpc
