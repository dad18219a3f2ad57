/-
# The buffers of `proc_read_hidden_process`

The handler formats the number of every marked process into `tmp` and appends it to `kbuf`.  Here
both are arrays of their size, and the loop stops at the first write that does not fit.  No number
is too long for `tmp`; nothing bounds how many are appended to `kbuf`.

`lists_hidden_iff`: the loop ends with the numbers of the marked processes, one after the other,
exactly when their text with its terminator fits `kbuf`.

Two bounds are at work, and they are of different kinds.  A number has few digits, so `tmp` is large
enough whatever happens.  `kbuf` has 1000 bytes, and some hundred hidden processes fill it; the text
of one state is the subject here, what happens while the processes change is that of
`Osexp.Hide.ReadTurns`.

`kbuf_eq_hiddenLoop` connects the loop with the handler of `Osexp.Hide.Calls`, which builds the text
at once.
-/
import Mathlib.Algebra.GroupWithZero.Nat
import Osexp.Hide.Agreement

namespace Osexp.Hide

open Kernel

/-- The size of `tmp` in `proc_read_hidden_process`. -/
def TMP_SIZE : Nat := 16

/-! ## 1. The loop -/

/-- The two arrays of the handler. -/
inductive ReadBuffer
  | tmp
  | kbuf
  deriving DecidableEq

/-- `sprintf(tmp, "%ld ", (long)p->pid); strcat(kbuf, tmp);`, or the array that is too small for the
text and its terminator. -/
def appendPid (kbuf : List Char) (p : Task) : Except ReadBuffer (List Char) :=
  let tmp := decimal p.pid ++ [' ']
  if TMP_SIZE < tmp.length + 1 then .error .tmp
  else if KBUF_SIZE < (kbuf ++ tmp).length + 1 then .error .kbuf
  else .ok (kbuf ++ tmp)

/-- The loop of `proc_read_hidden_process` over the processes. -/
def hiddenLoop : List Task → List Char → Except ReadBuffer (List Char)
  | [], kbuf => .ok kbuf
  | p :: ps, kbuf =>
    if p.cloak = 1 then appendPid kbuf p >>= hiddenLoop ps else hiddenLoop ps kbuf

/-- Every write is inside its array, and the text has the numbers of the marked processes, each
once and in the order of the list. -/
def ListsHidden (ps : List Task) : Prop :=
  ∃ text, hiddenLoop ps [] = .ok text ∧
    Text.tokens (· == ' ') text = (ps.filter Task.cloaked).map fun p => decimal p.pid

/-! ## 2. What it leaves in the buffer -/

/-- The numbers of the marked processes, each with a blank. -/
def hiddenNumbers (ps : List Task) : List Char :=
  (ps.filter Task.cloaked).flatMap fun p => decimal p.pid ++ [' ']

section Loop

variable {ps : List Task} {p : Task} {kbuf : List Char}

theorem length_decimal_le {n : Nat} (h : n ≤ PID_MAX_LIMIT) : (decimal n).length ≤ 7 := by
  refine (Nat.length_toDigits_le_iff (by decide) (by decide)).mpr ?_
  unfold PID_MAX_LIMIT at h
  omega

/-- A number fits `tmp`, so only `kbuf` can be too small. -/
theorem appendPid_eq (h : p.pid ≤ PID_MAX_LIMIT) :
    appendPid kbuf p =
      if (kbuf ++ (decimal p.pid ++ [' '])).length < KBUF_SIZE then
        .ok (kbuf ++ (decimal p.pid ++ [' ']))
      else .error .kbuf := by
  have hlen := length_decimal_le h
  have htmp : ¬ TMP_SIZE < (decimal p.pid ++ [' ']).length + 1 := by
    rw [List.length_append, List.length_singleton]
    unfold TMP_SIZE
    omega
  rw [appendPid, if_neg htmp]
  split
  · rename_i hover
    rw [if_neg (by omega)]
  · rename_i hfits
    rw [if_pos (by omega)]

theorem hiddenNumbers_cons_of_cloaked (h : p.cloak = 1) :
    hiddenNumbers (p :: ps) = (decimal p.pid ++ [' ']) ++ hiddenNumbers ps := by
  rw [hiddenNumbers, List.filter_cons_of_pos (Task.cloaked_iff.mpr h), List.flatMap_cons,
    hiddenNumbers]

theorem hiddenNumbers_cons_of_not (h : p.cloak ≠ 1) :
    hiddenNumbers (p :: ps) = hiddenNumbers ps := by
  rw [hiddenNumbers, List.filter_cons_of_neg fun hc => h (Task.cloaked_iff.mp hc), hiddenNumbers]

/-- **What the loop appends**, by induction on the list; a prefix that does not fit is no prefix of
a text that does. -/
theorem hiddenLoop_eq (hpids : ∀ p ∈ ps, p.pid ≤ PID_MAX_LIMIT) (hbuf : kbuf.length < KBUF_SIZE) :
    hiddenLoop ps kbuf =
      if (kbuf ++ hiddenNumbers ps).length < KBUF_SIZE then .ok (kbuf ++ hiddenNumbers ps)
      else .error .kbuf := by
  induction ps generalizing kbuf with
  | nil => simp [hiddenLoop, hiddenNumbers, hbuf]
  | cons p ps ih =>
    obtain ⟨hp, hps⟩ := List.forall_mem_cons.mp hpids
    rw [hiddenLoop]
    split
    · rename_i hcloak
      rw [hiddenNumbers_cons_of_cloaked hcloak, appendPid_eq hp]
      split
      · rename_i hfits
        have hrest := ih hps hfits
        rw [List.append_assoc] at hrest
        exact hrest
      · rename_i hover
        have hmore : ¬ (kbuf ++ ((decimal p.pid ++ [' ']) ++ hiddenNumbers ps)).length <
            KBUF_SIZE := by
          simp only [List.length_append] at hover ⊢
          omega
        rw [if_neg hmore]
        rfl
    · rename_i hcloak
      rw [hiddenNumbers_cons_of_not hcloak]
      exact ih hps hbuf

theorem tokens_hiddenNumbers (ps : List Task) :
    Text.tokens (· == ' ') (hiddenNumbers ps) =
      (ps.filter Task.cloaked).map fun p => decimal p.pid :=
  Text.tokens_flatMap rfl fun p _ => decimal_word p.pid

theorem length_hiddenNumbers (ps : List Task) :
    (hiddenNumbers ps).length =
      ((ps.filter Task.cloaked).map fun p => (decimal p.pid).length + 1).sum := by
  rw [hiddenNumbers, List.length_flatMap]
  simp only [List.length_append, List.length_singleton]

end Loop

/-- In a state of the kernel the loop over its processes leaves the text that is read. -/
theorem kbuf_eq_hiddenLoop (k : Kernel) : k.kbuf = (hiddenLoop k.processes []).toOption := by
  have hpids : ∀ p ∈ k.processes, p.pid ≤ PID_MAX_LIMIT :=
    fun p hp => Nat.le_of_lt (k.tasks.small p (mem_processes.mp hp).1)
  rw [hiddenLoop_eq hpids (by decide), List.nil_append, kbuf, hiddenText_eq]
  unfold pidText hiddenNumbers
  split <;> rfl

/-! ## 3. The condition -/

/-- **When the file lists the marked processes**: their numbers, each with a blank, take less than
the size of `kbuf`.  How many processes are hidden is up to those who hide them, and the handler has
no bound for it, so this is a condition on the state and not one that the handler sees to; beyond it
the handler writes over its own stack. -/
theorem lists_hidden_iff {ps : List Task} (hpids : ∀ p ∈ ps, p.pid ≤ PID_MAX_LIMIT) :
    ListsHidden ps ↔
      ((ps.filter Task.cloaked).map fun p => (decimal p.pid).length + 1).sum < KBUF_SIZE := by
  rw [ListsHidden, hiddenLoop_eq hpids (by decide), List.nil_append, length_hiddenNumbers]
  constructor
  · rintro ⟨text, htext, _⟩
    by_contra hover
    rw [if_neg hover] at htext
    cases htext
  · intro hfits
    exact ⟨hiddenNumbers ps, if_pos hfits, tokens_hiddenNumbers ps⟩

/-- `n` marked processes, numbered from 100 on. -/
def crowd (n : Nat) : List Task :=
  (List.range n).map fun i => ⟨100 + i, 100 + i, 1000, ['s', 'h'], by decide, 1, i⟩

/-- Two hundred of them are listed. -/
theorem lists_hidden_crowd : ListsHidden (crowd 200) :=
  (lists_hidden_iff (by decide +kernel)).mpr (by decide +kernel)

/-- Three hundred run over the buffer. -/
theorem crowd_overruns_kbuf : ¬ ListsHidden (crowd 300) := by
  rintro ⟨text, htext, _⟩
  rw [hiddenLoop_eq (by decide +kernel) (by decide), if_neg (by decide +kernel)] at htext
  cases htext

end Osexp.Hide
