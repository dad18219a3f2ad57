/-
# Writing to `/proc/hide`

`proc_write_hidden` copies at most 16 bytes into the array `temp` and gives it to `kstrtoint`
without a terminator behind them: that line is commented out.  What is parsed are the bytes written,
and behind them whatever the stack held, up to its first zero byte.

`kstrtoint` is not part of the patch and comes from outside; `ParsesInt` is what is documented of
it.  `write_hidden_iff` says when a value written comes back (what stood behind it adds nothing to
the number), and for which texts the outcome depends on the text alone (a terminator is among the
bytes, or they begin no number).

The parser is a parameter with its documented behaviour as a hypothesis, and no more: a text that is
an integer gives its value, and any other is refused.
-/
import Mathlib.Algebra.Group.Int.Defs
import Osexp.Hide.Machine
import Osexp.Lib.IntText

namespace Osexp.Hide

open Kernel IntText

/-! ## 1. The handler -/

/-- The size of `temp`. -/
def PROC_MAX_SIZE : Nat := 16

def EFAULT : Int := 14

/-- What memory holds from `temp` on: its bytes, and those behind it. -/
structure Stack where
  memory : List Char
  room : PROC_MAX_SIZE ≤ memory.length

/-- The string in a buffer: everything before the first zero byte. -/
def cString (buf : List Char) : List Char := buf.takeWhile (· != '\x00')

/-- The string that starts at `temp` when `count` bytes of `buf` have been copied. -/
def tempString (buf : List Char) (stack : Stack) : List Char :=
  let count := min buf.length PROC_MAX_SIZE
  cString (buf.take count ++ stack.memory.drop count)

/-- `proc_write_hidden`: the result and the state.  `buf` is `none` when it cannot be read. -/
def procWriteHiddenText (kstrtoint : List Char → Option Int) (buf : Option (List Char))
    (stack : Stack) (k : Kernel) : Int × Kernel :=
  match buf with
  | none => (-EFAULT, k)
  | some buf =>
    match kstrtoint (tempString buf stack) with
    | none => (-1, k.procWriteHidden none)
    | some v => ((min buf.length PROC_MAX_SIZE : Nat), k.procWriteHidden (some v))

/-- The values of an `int`. -/
def IsInt (v : Int) : Prop := -2 ^ 31 ≤ v ∧ v < 2 ^ 31

instance (v : Int) : Decidable (IsInt v) := inferInstanceAs (Decidable (_ ∧ _))

/-- `kstrtoint(s, 10, _)` accepts an integer written in decimal, with or without a newline at the
end, that an `int` holds, and nothing else. -/
def ParsesInt (kstrtoint : List Char → Option Int) : Prop :=
  ∀ s v, kstrtoint s = some v ↔ Reads s v ∧ IsInt v

/-! ## 2. What a write promises -/

/-- The decimal text of a value. -/
def intText : Int → List Char
  | .ofNat n => decimal n
  | .negSucc n => '-' :: decimal (n + 1)

/-- The same as it is written, with a newline or without. -/
def written (v : Int) (newline : Bool) : List Char :=
  intText v ++ if newline then ['\n'] else []

/-- The write returns the length of its text and sets the flag to the value, and a read that follows
delivers the value and a newline. -/
structure ComesBack (kstrtoint : List Char → Option Int) (v : Int) (newline : Bool) (stack : Stack)
    (k : Kernel) : Prop where
  ret : (procWriteHiddenText kstrtoint (some (written v newline)) stack k).1 =
    (written v newline).length
  flag : (procWriteHiddenText kstrtoint (some (written v newline)) stack k).2.hiddenFlag = v
  read : ∀ call : ReadCall, (written v true).length ≤ call.count →
    (written v true).length ≤ call.writable →
    (procWriteHiddenText kstrtoint (some (written v newline)) stack k).2.procReadHidden call 0 =
      some ⟨written v true, (written v true).length, (written v true).length⟩

/-- The outcome of a write of this text does not depend on what the stack held. -/
def StackFree (kstrtoint : List Char → Option Int) (text : List Char) : Prop :=
  ∀ stack stack' k, procWriteHiddenText kstrtoint (some text) stack k =
    procWriteHiddenText kstrtoint (some text) stack' k

/-- What the stack held behind the bytes of a text, up to the first zero byte. -/
def leftBehind (text : List Char) (stack : Stack) : List Char :=
  cString (stack.memory.drop text.length)

/-- Some text that begins like this one is accepted. -/
def BeginsInt (text : List Char) : Prop := ∃ rest v, Reads (text ++ rest) v ∧ IsInt v

section Write

variable {kstrtoint : List Char → Option Int} {text : List Char} {stack : Stack} {k : Kernel}
  {v : Int}

theorem cString_append {s t : List Char} (h : '\x00' ∉ s) : cString (s ++ t) = s ++ cString t := by
  refine List.takeWhile_append_of_pos fun c hc => ?_
  rw [bne_iff_ne]
  rintro rfl
  exact h hc

theorem cString_append_of_mem {s : List Char} (h : '\x00' ∈ s) (t t' : List Char) :
    cString (s ++ t) = cString (s ++ t') := by
  induction s with
  | nil => cases h
  | cons c s ih =>
    by_cases hc : c = '\x00'
    · subst hc
      rfl
    · have hs : '\x00' ∈ s := (List.mem_cons.mp h).resolve_left (Ne.symm hc)
      have hcons : ∀ r, cString (c :: s ++ r) = c :: cString (s ++ r) := fun r =>
        List.takeWhile_cons_of_pos (bne_iff_ne.mpr hc)
      rw [hcons, hcons, ih hs]

/-- Texts that fit are copied whole. -/
theorem tempString_of_length (h : text.length ≤ PROC_MAX_SIZE) (stack : Stack) :
    tempString text stack = cString (text ++ stack.memory.drop text.length) := by
  rw [tempString, Nat.min_eq_left h, List.take_length]

theorem tempString_of_notMem (h : text.length ≤ PROC_MAX_SIZE) (hnul : '\x00' ∉ text)
    (stack : Stack) : tempString text stack = text ++ leftBehind text stack := by
  rw [tempString_of_length h, cString_append hnul, leftBehind]

theorem nul_notMem_of_reads {s : List Char} (h : Reads s v) : '\x00' ∉ s :=
  fun hmem => absurd (h.isLetter _ hmem) (by decide)

/-! ## 3. Values written -/

/-- The text of a value, with something behind it, is read as the value exactly when what follows
adds nothing. -/
theorem reads_intText_append {t : List Char} :
    Reads (intText v ++ t) v ↔ AddsNothing v.natAbs t := by
  cases v with
  | ofNat n =>
    obtain ⟨c, s, hcons⟩ := List.exists_cons_of_ne_nil (@Nat.toDigits_ne_nil n 10)
    have hc : c.isDigit = true := by
      refine Nat.isDigit_of_mem_toDigits (by decide) (by decide) (n := n) (b := 10) ?_
      rw [hcons]
      exact List.mem_cons_self
    have hdigits := @readsNat_digits_append t n
    rw [hcons, List.cons_append] at hdigits
    rw [intText, decimal, hcons, List.cons_append]
    exact (reads_iff_of_head hc).trans hdigits
  | negSucc n => exact reads_minus_iff.trans readsNat_digits_append

theorem length_intText_le (hv : IsInt v) : (intText v).length ≤ 11 := by
  obtain ⟨hlo, hhi⟩ := hv
  have hdecimal : ∀ n : Nat, n ≤ 2 ^ 31 → (decimal n).length ≤ 10 := by
    intro n hn
    exact (Nat.length_toDigits_le_iff (by decide) (by decide)).mpr (by omega)
  cases v with
  | ofNat n =>
    have hn : (n : Int) < 2 ^ 31 := hhi
    have hlen := hdecimal n (by omega)
    rw [intText]
    omega
  | negSucc n =>
    have hlen := hdecimal (n + 1) (by omega)
    rw [intText, List.length_cons]
    omega

theorem length_written_le (hv : IsInt v) (newline : Bool) :
    (written v newline).length ≤ 12 := by
  have hlen := length_intText_le hv
  rw [written, List.length_append]
  cases newline
  · exact Nat.le_succ_of_le hlen
  · exact Nat.succ_le_succ hlen

theorem written_fits (hv : IsInt v) (newline : Bool) :
    (written v newline).length ≤ PROC_MAX_SIZE :=
  (length_written_le hv newline).trans (by decide)

theorem nul_notMem_written (v : Int) (newline : Bool) : '\x00' ∉ written v newline := by
  have hdecimal : ∀ n, '\x00' ∉ decimal n := by
    intro n hmem
    have hdigit := Nat.isDigit_of_mem_toDigits (by decide) (by decide) hmem
    cases hdigit
  have htext : '\x00' ∉ intText v := by
    cases v with
    | ofNat n => exact hdecimal n
    | negSucc n =>
      intro hmem
      rcases List.mem_cons.mp hmem with h | h
      · cases h
      · exact hdecimal _ h
  rw [written, List.mem_append]
  rintro (h | h)
  · exact htext h
  · cases newline
    · cases h
    · exact absurd (List.mem_singleton.mp h) (by decide)

/-- What is read when the flag is `v`. -/
theorem flagText_eq (hv : IsInt v) (hflag : k.hiddenFlag = v) : k.flagText = written v true := by
  have htext : k.flagText = (intText k.hiddenFlag ++ ['\n']).take (STR_SIZE - 1) := rfl
  have hlen := length_written_le hv true
  rw [htext, hflag]
  exact List.take_of_length_le (by unfold STR_SIZE; exact hlen.trans (by decide))

/-- A read with a large buffer delivers all of the text. -/
theorem procReadHidden_eq (hv : IsInt v) (hflag : k.hiddenFlag = v) {call : ReadCall}
    (hwritable : (written v true).length ≤ call.writable) :
    k.procReadHidden call 0 =
      some ⟨written v true, (written v true).length, (written v true).length⟩ := by
  have hnone : (written v true).length - call.writable = 0 := by omega
  rw [procReadHidden, flagText_eq hv hflag, finishRead, copyToUser]
  simp only [hnone, Nat.sub_zero, Nat.zero_add, lt_irrefl, if_false,
    List.take_of_length_le hwritable]

/-- **When a value comes back.** -/
theorem comesBack_iff (hparse : ParsesInt kstrtoint) (hv : IsInt v) (newline : Bool)
    (stack : Stack) (k : Kernel) :
    ComesBack kstrtoint v newline stack k ↔
      AddsNothing v.natAbs
        ((if newline then ['\n'] else []) ++ leftBehind (written v newline) stack) := by
  have hfit := written_fits hv newline
  have htemp := tempString_of_notMem hfit (nul_notMem_written v newline) stack
  have hmin : min (written v newline).length PROC_MAX_SIZE = (written v newline).length :=
    Nat.min_eq_left hfit
  -- the number is read as it was written
  have hreads : kstrtoint (tempString (written v newline) stack) = some v ↔
      AddsNothing v.natAbs
        ((if newline then ['\n'] else []) ++ leftBehind (written v newline) stack) := by
    rw [htemp, hparse, and_iff_left hv, ← reads_intText_append, ← List.append_assoc]
    rfl
  rw [← hreads]
  constructor
  · intro h
    have hret := h.ret
    have hflag := h.flag
    unfold procWriteHiddenText at hret hflag
    dsimp only at hret hflag
    cases hk : kstrtoint (tempString (written v newline) stack) with
    | none =>
      rw [hk] at hret
      have hneg : (-1 : Int) = (written v newline).length := hret
      omega
    | some v' =>
      rw [hk] at hflag
      exact congrArg some hflag
  · intro h
    have hcall : procWriteHiddenText kstrtoint (some (written v newline)) stack k =
        (((written v newline).length : Int), k.procWriteHidden (some v)) := by
      simp only [procWriteHiddenText, h, hmin]
    refine ⟨by rw [hcall], by rw [hcall]; rfl, ?_⟩
    intro call _ hwritable
    rw [hcall]
    exact procReadHidden_eq hv rfl hwritable

/-! ## 4. Any text -/

/-- A stack that holds this string behind a text of `n` bytes. -/
def stackWith (n : Nat) (s : List Char) : Stack where
  memory := List.replicate n 'x' ++ (s ++ List.replicate (PROC_MAX_SIZE + 1) '\x00')
  room := by
    simp only [List.length_append, List.length_replicate]
    omega

theorem leftBehind_stackWith {s : List Char} (h : '\x00' ∉ s) :
    leftBehind text (stackWith text.length s) = s := by
  have hdrop : (stackWith text.length s).memory.drop text.length =
      s ++ List.replicate (PROC_MAX_SIZE + 1) '\x00' :=
    List.drop_left' (List.length_replicate ..)
  rw [leftBehind, hdrop, cString_append h]
  exact List.append_nil s

theorem notMem_rest {rest : List Char} (h : Reads (text ++ rest) v) : '\x00' ∉ rest :=
  fun hmem => nul_notMem_of_reads h (List.mem_append_right _ hmem)

/-- No text is accepted that has an `x` in it. -/
theorem kstrtoint_x (hparse : ParsesInt kstrtoint) (text : List Char) :
    kstrtoint (text ++ ['x']) = none := by
  cases h : kstrtoint (text ++ ['x']) with
  | none => rfl
  | some v =>
    have hreads := ((hparse _ _).mp h).1
    have hx := hreads.isLetter 'x' (List.mem_append_right _ List.mem_cons_self)
    exact absurd hx (by decide)

/-- **For which texts the outcome does not depend on the stack.** -/
theorem stackFree_iff (hparse : ParsesInt kstrtoint) (hlen : text.length ≤ PROC_MAX_SIZE) :
    StackFree kstrtoint text ↔ '\x00' ∈ text ∨ ¬ BeginsInt text := by
  by_cases hnul : '\x00' ∈ text
  · refine iff_of_true (fun stack stack' k => ?_) (Or.inl hnul)
    have htemp : tempString text stack = tempString text stack' := by
      rw [tempString_of_length hlen, tempString_of_length hlen]
      exact cString_append_of_mem hnul _ _
    simp only [procWriteHiddenText, htemp]
  · rw [or_iff_right hnul]
    constructor
    · rintro h ⟨rest, v, hreads, hv⟩
      -- once the number is completed, once it is spoiled
      have hgood : kstrtoint (tempString text (stackWith text.length rest)) = some v := by
        rw [tempString_of_notMem hlen hnul, leftBehind_stackWith (notMem_rest hreads)]
        exact (hparse _ _).mpr ⟨hreads, hv⟩
      have hbad : kstrtoint (tempString text (stackWith text.length ['x'])) = none := by
        rw [tempString_of_notMem hlen hnul, leftBehind_stackWith (by decide)]
        exact kstrtoint_x hparse text
      have hret := congrArg Prod.fst
        (h (stackWith text.length rest) (stackWith text.length ['x']) initial)
      simp only [procWriteHiddenText, hgood, hbad] at hret
      omega
    · intro h stack stack' k
      have hnone : ∀ stack, kstrtoint (tempString text stack) = none := by
        intro stack
        rw [tempString_of_notMem hlen hnul]
        cases hk : kstrtoint (text ++ leftBehind text stack) with
        | none => rfl
        | some v => exact absurd ⟨_, v, (hparse _ _).mp hk⟩ h
      simp only [procWriteHiddenText, hnone]

end Write

/-- **When a value written comes back, and when a write depends on its text alone.** The handler
reads the stack behind the bytes that were written, so the same `echo` may set the flag to one value
today and to another tomorrow.  The first half is about the value: it comes back exactly when what
stood behind adds nothing to the number.  The second is about the outcome as a whole, for every text
that fits: it is the same for all contents of the stack exactly when there is a terminator in the
text, or no number at its start. -/
theorem write_hidden_iff {kstrtoint : List Char → Option Int} (hparse : ParsesInt kstrtoint) :
    (∀ v newline stack k, IsInt v → (ComesBack kstrtoint v newline stack k ↔
      AddsNothing v.natAbs
        ((if newline then ['\n'] else []) ++ leftBehind (written v newline) stack))) ∧
      ∀ text : List Char, text.length ≤ PROC_MAX_SIZE →
        (StackFree kstrtoint text ↔ '\x00' ∈ text ∨ ¬ BeginsInt text) :=
  ⟨fun _ newline stack k hv => comesBack_iff hparse hv newline stack k,
    fun _ hlen => stackFree_iff hparse hlen⟩

/-- A `kstrtoint` in base 10. -/
def kstrtointTen (s : List Char) : Option Int := (read s).filter (fun v => decide (IsInt v))

theorem parsesInt_kstrtointTen : ParsesInt kstrtointTen := by
  intro s v
  rw [kstrtointTen, Option.filter_eq_some_iff, read_eq_some_iff, decide_eq_true_eq]

/-- `1` and a newline on a stack of zero bytes, and a word. -/
theorem write_hidden_one : ComesBack kstrtointTen 1 true (stackWith 2 []) initial ∧
    StackFree kstrtointTen ['o', 'n'] := by
  obtain ⟨hvalue, htext⟩ := write_hidden_iff parsesInt_kstrtointTen
  refine ⟨(hvalue 1 true _ initial (by decide)).mpr ⟨[], ['\n'], by decide, rfl, by simp,
    fun _ => rfl⟩, (htext _ (by decide)).mpr (Or.inr ?_)⟩
  rintro ⟨rest, v, hreads, _⟩
  exact absurd (hreads.isLetter 'o' (by simp)) (by decide)

/-- `1` without a newline, where the stack held a `0`: the flag is 10. -/
theorem stack_adds_digit :
    (procWriteHiddenText kstrtointTen (some ['1']) (stackWith 1 ['0']) initial).2.hiddenFlag = 10 ∧
      ¬ (ComesBack kstrtointTen 1 false (stackWith 1 ['0']) initial ∧
        StackFree kstrtointTen ['1']) := by
  have hten : (procWriteHiddenText kstrtointTen (some ['1']) (stackWith 1 ['0'])
      initial).2.hiddenFlag = 10 := by decide +kernel
  refine ⟨hten, ?_⟩
  rintro ⟨hback, _⟩
  have hone : (procWriteHiddenText kstrtointTen (some ['1']) (stackWith 1 ['0'])
      initial).2.hiddenFlag = 1 := hback.flag
  rw [hten] at hone
  cases hone

end Osexp.Hide
