/-
# Reading `/proc/hide` and `/proc/hidden_process`

Both handlers copy their whole text on every call, whatever `count` and the offset are, and compare
the offset with the length of the text after they have moved it on.  So a reader gets what the
contract of `read` promises only if it stops after one call whose buffer takes all of the text, or
if the text is empty: `read_contract_iff`.

The two handlers are copied from a pattern for small files that is well known, in which the offset
is what tells the first call from the second.  Here it is moved before it is tested, and the copy is
made in any case: a second read gets the text again, with 0 as the number of bytes, and a buffer of
one byte is written over.

A file is given by its text, so both handlers are one definition (`finishRead`), and the result is
about any number of calls with buffers of any sizes on either of the files.
-/
import Osexp.Hide.Machine

namespace Osexp.Hide

open Kernel

/-! ## 1. Reading a file -/

inductive ProcFile
  | hide
  | hiddenProcess
  deriving DecidableEq

namespace ProcFile

/-- The text of the file; `none` when building it runs over `kbuf`. -/
def content (k : Kernel) : ProcFile → Option (List Char)
  | hide => some k.flagText
  | hiddenProcess => k.kbuf

/-- The handler of the file. -/
def read (k : Kernel) (call : ReadCall) (ppos : Nat) : ProcFile → Option ReadResult
  | hide => k.procReadHidden call ppos
  | hiddenProcess => k.procReadHiddenProcess call ppos

/-- A call that was made: at this offset, with this result. -/
structure Made where
  call : ReadCall
  pos : Nat
  result : ReadResult

/-- The calls on one open file, while its content does not change. -/
def reads (file : ProcFile) (k : Kernel) : List ReadCall → Nat → Option (List Made)
  | [], _ => some []
  | call :: calls, pos => do
    let result ← file.read k call pos
    let rest ← file.reads k calls result.ppos
    return ⟨call, pos, result⟩ :: rest

/-! ## 2. The contract -/

/-- The call stays within its buffer, says what it delivered (or fails), and moves the offset by
that. -/
structure Made.Ok (m : Made) : Prop where
  within : m.result.stored.length ≤ m.call.count
  ret_le : m.result.ret ≤ m.call.count
  ret : m.result.ret < 0 ∨ m.result.ret = m.result.stored.length
  offset : m.result.ppos = m.pos + m.result.stored.length

/-- All calls are right, and up to the first result 0 they deliver the content. -/
def Contract (file : ProcFile) (k : Kernel) (calls : List ReadCall) : Prop :=
  ∃ made, file.reads k calls 0 = some made ∧ (∀ m ∈ made, m.Ok) ∧
    ∀ text, file.content k = some text → (∃ m ∈ made, m.result.ret = 0) →
      (made.takeWhile (·.result.ret != 0)).flatMap (·.result.stored) = text

/-- The calls get what the contract promises: none is made, or the text is empty, or there is one
call, whose buffer takes all of the text. -/
def Served (file : ProcFile) (k : Kernel) (calls : List ReadCall) : Prop :=
  calls = [] ∨ ∃ text, file.content k = some text ∧
    (text = [] ∨ ∃ call, calls = [call] ∧ text.length ≤ call.count ∧ text.length ≤ call.writable)

section Calls

variable {file : ProcFile} {k : Kernel} {text : List Char} {call : ReadCall}

theorem read_eq (call : ReadCall) (ppos : Nat) :
    file.read k call ppos = (file.content k).map fun text => finishRead text call ppos := by
  cases file <;> rfl

theorem reads_cons (h : file.content k = some text) (c : ReadCall) (cs : List ReadCall)
    (pos : Nat) :
    file.reads k (c :: cs) pos =
      (file.reads k cs (finishRead text c pos).ppos).map
        (⟨c, pos, finishRead text c pos⟩ :: ·) := by
  rw [reads, read_eq, h, Option.map_some]
  exact (Option.map_eq_bind ..).symm

theorem finishRead_ret (text : List Char) (call : ReadCall) (ppos : Nat) :
    (finishRead text call ppos).stored = text.take call.writable ∧
      (finishRead text call ppos).ppos = ppos + (text.length - (text.length - call.writable)) ∧
      (finishRead text call ppos).ret =
        if text.length < ppos + (text.length - (text.length - call.writable)) then (0 : Int)
        else text.length := by
  refine ⟨?_, ?_, apply_ite ReadResult.ret _ _ _⟩
  · exact (apply_ite ReadResult.stored _ _ _).trans (ite_self _)
  · exact (apply_ite ReadResult.ppos _ _ _).trans (ite_self _)

/-- The first call is right when its buffer takes all of the text. -/
theorem ok_first_iff (call : ReadCall) :
    (Made.mk call 0 (finishRead text call 0)).Ok ↔
      text.length ≤ call.count ∧ text.length ≤ call.writable := by
  obtain ⟨hstored, hppos, hret⟩ := finishRead_ret text call 0
  rw [if_neg (by omega)] at hret
  constructor
  · rintro ⟨_, hle, hval, _⟩
    simp only [hret, hstored, List.length_take] at hle hval
    omega
  · rintro ⟨hcount, hwritable⟩
    refine ⟨?_, ?_, ?_, ?_⟩
    · simp only [hstored, List.length_take]
      omega
    · simp only [hret]
      omega
    · simp only [hret, hstored, List.length_take]
      omega
    · simp only [hppos, hstored, List.length_take]
      omega

/-- A second call is never right: it delivers the text again and returns 0, or delivers nothing and
returns the length of the text. -/
theorem not_ok_second (hne : text ≠ []) (call : ReadCall) :
    ¬ (Made.mk call text.length (finishRead text call text.length)).Ok := by
  rintro ⟨_, _, hval, _⟩
  have hlen : 0 < text.length := List.length_pos_iff.mpr hne
  obtain ⟨hstored, _, hret⟩ := finishRead_ret text call text.length
  simp only [hret, hstored, List.length_take] at hval
  split at hval <;> omega

theorem finishRead_nil (call : ReadCall) : finishRead [] call 0 = ⟨[], 0, 0⟩ := by
  simp [finishRead, copyToUser]

/-- On an empty file every call is right. -/
theorem reads_nil (h : file.content k = some []) (calls : List ReadCall) :
    file.reads k calls 0 = some (calls.map fun call => ⟨call, 0, ⟨[], 0, 0⟩⟩) := by
  induction calls with
  | nil => rfl
  | cons call calls ih => rw [reads_cons h, finishRead_nil, ih, Option.map_some, List.map_cons]

theorem contract_nil (h : file.content k = some []) (calls : List ReadCall) :
    file.Contract k calls := by
  refine ⟨_, reads_nil h calls, ?_, ?_⟩
  · intro m hm
    obtain ⟨call, _, rfl⟩ := List.mem_map.mp hm
    exact ⟨Nat.zero_le _, Int.natCast_nonneg _, Or.inr rfl, rfl⟩
  · rintro text htext -
    obtain rfl : [] = text := Option.some.inj (h.symm.trans htext)
    cases calls <;> rfl

/-- What two calls on a file with text do. -/
theorem reads_cons_cons (h : file.content k = some text) {c c' : ReadCall} {cs : List ReadCall}
    {made : List Made} (hreads : file.reads k (c :: c' :: cs) 0 = some made) :
    ⟨c, 0, finishRead text c 0⟩ ∈ made ∧
      ⟨c', (finishRead text c 0).ppos,
        finishRead text c' (finishRead text c 0).ppos⟩ ∈ made := by
  rw [reads_cons h, reads_cons h, Option.map_map] at hreads
  obtain ⟨rest, _, rfl⟩ := Option.map_eq_some_iff.mp hreads
  exact ⟨List.mem_cons_self, List.mem_cons_of_mem _ List.mem_cons_self⟩

end Calls

/-- **When the calls on one of the two files get what `read` promises**: not more bytes than were
asked for, and over the calls the content once and then nothing.  `cat` relies on both.  The
handlers keep to it only where they need not do anything for it, and `Served` says where that is. -/
theorem read_contract_iff (file : ProcFile) (k : Kernel) (calls : List ReadCall) :
    file.Contract k calls ↔ file.Served k calls := by
  cases calls with
  | nil => exact iff_of_true ⟨[], rfl, by simp, by simp⟩ (Or.inl rfl)
  | cons c cs =>
    cases hcontent : file.content k with
    | none =>
      refine iff_of_false ?_ ?_
      · rintro ⟨made, hreads, _⟩
        rw [reads, read_eq, hcontent, Option.map_none] at hreads
        cases hreads
      · rintro (h | ⟨text, htext, _⟩)
        · cases h
        · cases hcontent.symm.trans htext
    | some text =>
      by_cases hempty : text = []
      · subst hempty
        exact iff_of_true (contract_nil hcontent _) (Or.inr ⟨[], hcontent, Or.inl rfl⟩)
      · cases cs with
        | nil =>
          have hreads : file.reads k [c] 0 = some [⟨c, 0, finishRead text c 0⟩] := by
            rw [reads_cons hcontent, reads, Option.map_some]
          constructor
          · rintro ⟨made, hmade, hok, _⟩
            obtain rfl := Option.some.inj (hreads.symm.trans hmade)
            have hfirst := (ok_first_iff c).mp (hok _ List.mem_cons_self)
            exact Or.inr ⟨text, hcontent, Or.inr ⟨c, rfl, hfirst⟩⟩
          · rintro (h | ⟨text', htext, h | ⟨c', hc, hfirst⟩⟩)
            · cases h
            · obtain rfl : text = text' := Option.some.inj (hcontent.symm.trans htext)
              exact absurd h hempty
            · obtain rfl : text = text' := Option.some.inj (hcontent.symm.trans htext)
              obtain rfl : c = c' := (List.cons.inj hc).1
              refine ⟨_, hreads, ?_, ?_⟩
              · intro m hm
                rw [List.mem_singleton.mp hm]
                exact (ok_first_iff c).mpr hfirst
              · -- the one result is the length of the text, which is not 0
                rintro _ - ⟨m, hm, hret⟩
                rw [List.mem_singleton.mp hm] at hret
                have hlen : 0 < text.length := List.length_pos_iff.mpr hempty
                simp only [(finishRead_ret text c 0).2.2] at hret
                split at hret <;> omega
        | cons c' cs =>
          refine iff_of_false ?_ ?_
          · rintro ⟨made, hreads, hok, _⟩
            obtain ⟨hmem, hmem'⟩ := reads_cons_cons hcontent hreads
            have hfirst := (ok_first_iff c).mp (hok _ hmem)
            have hpos : (finishRead text c 0).ppos = text.length := by
              rw [(finishRead_ret text c 0).2.1]
              omega
            rw [hpos] at hmem'
            exact not_ok_second hempty c' (hok _ hmem')
          · rintro (h | ⟨text', htext, h | ⟨c'', hc, _⟩⟩)
            · cases h
            · obtain rfl : text = text' := Option.some.inj (hcontent.symm.trans htext)
              exact hempty h
            · cases hc

/-- A reader with a buffer of one byte: the first call stores the two bytes of `"1\n"`. -/
theorem read_overruns_buffer :
    hide.content initial = some ['1', '\n'] ∧ ¬ hide.Contract initial [⟨1, 2⟩, ⟨1, 2⟩] := by
  refine ⟨by decide, ?_⟩
  rintro ⟨made, hreads, hok, _⟩
  have hcontent : hide.content initial = some ['1', '\n'] := by decide
  have hfirst := (ok_first_iff ⟨1, 2⟩).mp (hok _ (reads_cons_cons hcontent hreads).1)
  exact absurd hfirst.1 (by decide)

end ProcFile

end Osexp.Hide
