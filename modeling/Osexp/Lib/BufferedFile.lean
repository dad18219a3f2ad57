/-
# Reading a shared file through a buffer

A process reads a file line by line through a buffer of its own, which it fills with blocks of
`B` letters.  The position in the file is not its own: processes that share the open file move it
too.  The library function that a process leaves through gives back what the process has in its
buffer but has not used, by moving the position back that far (`Reader.giveBack`).

* `readLine_some`, `readLine_eq_none_iff`: a reader reads the lines of `Reader.rest`, what it has
  in its buffer followed by the file from the position on, whatever the block size.
* `length_rest_giveBack`: giving something back makes `rest` longer, so that text is read again.

So what a reader will see does not depend on the blocks as long as nobody moves the position, and
the two laws together say what one move does to everything that follows.
-/
import Osexp.Lib.Text

namespace BufferedFile

variable {α : Type*} {nl : α}

/-! ## 1. Lines -/

section Lines

variable [DecidableEq α]

/-- The lines of a text, each with the `nl` it ends in; the last one may have none. -/
def lines (nl : α) : List α → List (List α)
  | [] => []
  | c :: s => if c = nl then [c] :: lines nl s else Text.consHead c (lines nl s)

theorem lines_cons_of_ne {c : α} (h : c ≠ nl) (s : List α) :
    lines nl (c :: s) = Text.consHead c (lines nl s) := by
  rw [lines, if_neg h]

theorem lines_eq_nil_iff {s : List α} : lines nl s = [] ↔ s = [] := by
  cases s with
  | nil => simp [lines]
  | cons c s =>
    rw [lines]
    split
    · simp
    · simp [Text.consHead_ne_nil]

theorem lines_append_cons {s : List α} (h : nl ∉ s) (t : List α) :
    lines nl (s ++ nl :: t) = (s ++ [nl]) :: lines nl t := by
  induction s with
  | nil => simp [lines]
  | cons c s ih =>
    obtain ⟨hc, hs⟩ := List.mem_cons.not.mp h |> not_or.mp
    rw [List.cons_append, lines_cons_of_ne (Ne.symm hc), ih hs]
    rfl

/-- Letters before a text without a line end belong to its first line. -/
theorem lines_append_of_notMem {s : List α} (h : nl ∉ s) {t l : List α} {ls : List (List α)}
    (ht : lines nl t = l :: ls) : lines nl (s ++ t) = (s ++ l) :: ls := by
  induction s with
  | nil => exact ht
  | cons c s ih =>
    obtain ⟨hc, hs⟩ := List.mem_cons.not.mp h |> not_or.mp
    rw [List.cons_append, lines_cons_of_ne (Ne.symm hc), ih hs]
    rfl

theorem lines_of_notMem {s : List α} (h : nl ∉ s) (hne : s ≠ []) : lines nl s = [s] := by
  induction s with
  | nil => exact absurd rfl hne
  | cons c s ih =>
    obtain ⟨hc, hs⟩ := List.mem_cons.not.mp h |> not_or.mp
    rw [lines_cons_of_ne (Ne.symm hc)]
    rcases eq_or_ne s [] with rfl | hs'
    · rfl
    · rw [ih hs hs']
      rfl

/-- A text is its lines, one after the other. -/
theorem flatten_lines (s : List α) : (lines nl s).flatten = s := by
  induction s with
  | nil => rfl
  | cons c s ih =>
    rw [lines]
    split
    · rw [List.flatten_cons, ih]
      rfl
    · cases hl : lines nl s with
      | nil => rw [lines_eq_nil_iff.mp hl]; rfl
      | cons l ls =>
        rw [hl] at ih
        rw [← ih]
        rfl

/-- A text has no line end, or a first line that ends in one. -/
theorem lines_cases (nl : α) (s : List α) :
    nl ∉ s ∨ ∃ l t, nl ∉ l ∧ s = l ++ nl :: t ∧ lines nl s = (l ++ [nl]) :: lines nl t := by
  rcases Decidable.em (nl ∈ s) with h | h
  · obtain ⟨l, t, hs, hl⟩ := List.eq_append_cons_of_mem h
    exact Or.inr ⟨l, t, hl, hs, by rw [hs, lines_append_cons hl]⟩
  · exact Or.inl h

end Lines

/-! ## 2. The reader -/

/-- An open file with a buffer: the letters read ahead and not used yet, and the position from
which the next block is read. -/
structure Reader (α : Type*) where
  file : List α
  offset : Nat
  buffer : List α

namespace Reader

/-- The file has just been opened. -/
def start (file : List α) : Reader α := ⟨file, 0, []⟩

/-- What the reader will read if nobody moves the position. -/
def rest (r : Reader α) : List α := r.buffer ++ r.file.drop r.offset

/-- What is in the buffer has been read from the file. -/
structure Filled (r : Reader α) : Prop where
  ahead : r.buffer.length ≤ r.offset
  inFile : r.offset ≤ r.file.length

/-- The next block of the file. -/
def block (B : Nat) (r : Reader α) : List α := (r.file.drop r.offset).take B

/-- The buffer filled with the next block. -/
def refill (B : Nat) (r : Reader α) : Reader α :=
  { r with offset := r.offset + (r.block B).length, buffer := r.block B }

/-- Move the position back by `k`; a position before the start of the file is refused. -/
def seekBack (k : Nat) (r : Reader α) : Reader α :=
  if k ≤ r.offset then { r with offset := r.offset - k } else r

/-- `n` processes give back what is in their copies of the buffer, one after the other. -/
def giveBack : Nat → Reader α → Reader α
  | 0, r => r
  | n + 1, r => giveBack n (r.seekBack r.buffer.length)

end Reader

theorem length_refill_lt {B : Nat} {r : Reader α} (h : r.block B ≠ []) :
    r.file.length - (r.refill B).offset < r.file.length - r.offset := by
  have hpos := List.length_pos_iff.mpr h
  have hle : (r.block B).length ≤ r.file.length - r.offset := by
    rw [Reader.block, List.length_take, List.length_drop]
    exact Nat.min_le_right _ _
  show r.file.length - (r.offset + (r.block B).length) < _
  omega

/-- Read up to the next `nl` or to the end of the file; `none` when there is nothing left. -/
def readLine [DecidableEq α] (B : Nat) (nl : α) (r : Reader α) : Option (List α × Reader α) :=
  if nl ∈ r.buffer then
    some (r.buffer.takeWhile (· != nl) ++ [nl],
      { r with buffer := (r.buffer.dropWhile (· != nl)).tail })
  else if _h : r.block B = [] then
    if r.buffer = [] then none else some (r.buffer, { r with buffer := [] })
  else (readLine B nl (r.refill B)).map fun (line, r') => (r.buffer ++ line, r')
termination_by r.file.length - r.offset
decreasing_by exact length_refill_lt _h

/-! ## 3. What a reader reads -/

section ReadLine

variable {B : Nat} {r r' : Reader α} {line : List α}

theorem rest_eq_refill (h : r.offset ≤ r.file.length) :
    r.rest = r.buffer ++ (r.refill B).rest := by
  have hsplit := List.take_append_drop B (r.file.drop r.offset)
  have hdrop : r.file.drop (r.offset + (r.block B).length) = (r.file.drop r.offset).drop B := by
    rw [List.drop_drop, Reader.block, List.length_take, List.length_drop]
    rcases Nat.le_total B (r.file.length - r.offset) with hB | hB
    · rw [Nat.min_eq_left hB]
    · rw [Nat.min_eq_right hB, List.drop_eq_nil_of_le (by omega), List.drop_eq_nil_of_le (by omega)]
  show r.buffer ++ r.file.drop r.offset =
    r.buffer ++ (r.block B ++ r.file.drop (r.offset + (r.block B).length))
  rw [hdrop, Reader.block, hsplit]

theorem filled_refill (h : r.offset ≤ r.file.length) : (r.refill B).Filled := by
  have hle : (r.block B).length ≤ r.file.length - r.offset := by
    rw [Reader.block, List.length_take, List.length_drop]
    exact Nat.min_le_right _ _
  refine ⟨?_, ?_⟩
  · exact Nat.le_add_left _ _
  · show r.offset + (r.block B).length ≤ r.file.length
    omega

/-- **A line read is the first line of the rest**, and what is left is the new rest: by induction
on the blocks read for it. -/
theorem readLine_some [DecidableEq α] (hB : 0 < B) : ∀ {r r' : Reader α} {line : List α},
    r.offset ≤ r.file.length → readLine B nl r = some (line, r') →
    lines nl r.rest = line :: lines nl r'.rest ∧ r'.file = r.file ∧
      r'.offset ≤ r'.file.length ∧ (r.Filled → r'.Filled) := by
  intro r
  induction r using readLine.induct B nl with
  | case1 r hmem =>
    intro r' line hr h
    rw [readLine, if_pos hmem] at h
    cases h
    obtain ⟨l, t, hbuf, hl⟩ := List.eq_append_cons_of_mem hmem
    have hne : ∀ c ∈ l, (c != nl) = true := by
      intro c hc
      exact bne_iff_ne.mpr (fun he => hl (he ▸ hc))
    have htake : r.buffer.takeWhile (· != nl) = l := by
      rw [hbuf, List.takeWhile_append_of_pos hne, List.takeWhile_cons_of_neg (by simp),
        List.append_nil]
    have hdrop : (r.buffer.dropWhile (· != nl)).tail = t := by
      rw [hbuf, List.dropWhile_append_of_pos hne, List.dropWhile_cons_of_neg (by simp)]
      rfl
    refine ⟨?_, rfl, hr, ?_⟩
    · rw [htake, hdrop]
      show lines nl (r.buffer ++ _) = _
      rw [hbuf, List.append_assoc, List.cons_append, lines_append_cons hl]
      rfl
    · rintro ⟨hahead, hin⟩
      refine ⟨?_, hin⟩
      have hlen := congrArg List.length hbuf
      simp only [List.length_append, List.length_cons] at hlen
      rw [hdrop]
      show t.length ≤ r.offset
      omega
  | case2 r hmem hblock hbuf =>
    intro r' line _ h
    rw [readLine, if_neg hmem, dif_pos hblock, if_pos hbuf] at h
    cases h
  | case3 r hmem hblock hbuf =>
    intro r' line hr h
    rw [readLine, if_neg hmem, dif_pos hblock, if_neg hbuf] at h
    cases h
    have hend : r.file.drop r.offset = [] := by
      rcases List.take_eq_nil_iff.mp hblock with h0 | hnil
      · omega
      · exact hnil
    refine ⟨?_, rfl, hr, fun hf => ⟨Nat.zero_le _, hf.inFile⟩⟩
    show lines nl (r.buffer ++ r.file.drop r.offset) = r.buffer :: lines nl ([] ++ _)
    rw [hend, List.append_nil, lines_of_notMem hmem hbuf]
    rfl
  | case4 r hmem hblock ih =>
    intro r' line hr h
    rw [readLine, if_neg hmem, dif_neg hblock] at h
    obtain ⟨⟨l, r₁⟩, hread, heq⟩ := Option.map_eq_some_iff.mp h
    cases heq
    have hfill := @filled_refill α B r hr
    obtain ⟨hlines, hfile, hin, hfilled⟩ := ih hfill.inFile hread
    refine ⟨?_, hfile, hin, fun _ => hfilled hfill⟩
    rw [@rest_eq_refill α B r hr]
    exact lines_append_of_notMem hmem hlines

/-- Nothing is read only when nothing is left. -/
theorem readLine_eq_none_iff [DecidableEq α] (hB : 0 < B) :
    ∀ {r : Reader α}, r.offset ≤ r.file.length →
    (readLine B nl r = none ↔ r.rest = []) := by
  intro r
  induction r using readLine.induct B nl with
  | case1 r hmem =>
    intro _
    rw [readLine, if_pos hmem, Reader.rest, List.append_eq_nil_iff]
    have hne : r.buffer ≠ [] := List.ne_nil_of_mem hmem
    simp [hne]
  | case2 r hmem hblock hbuf =>
    intro _
    have hend : r.file.drop r.offset = [] :=
      (List.take_eq_nil_iff.mp hblock).resolve_left hB.ne'
    rw [readLine, if_neg hmem, dif_pos hblock, if_pos hbuf, Reader.rest, hbuf, hend]
    simp
  | case3 r hmem hblock hbuf =>
    intro _
    rw [readLine, if_neg hmem, dif_pos hblock, if_neg hbuf, Reader.rest,
      List.append_eq_nil_iff]
    simp [hbuf]
  | case4 r hmem hblock ih =>
    intro hr
    have hfill := @filled_refill α B r hr
    have hne : (r.refill B).rest ≠ [] := by
      rw [Reader.rest]
      exact List.append_ne_nil_of_left_ne_nil hblock _
    rw [readLine, if_neg hmem, dif_neg hblock, Option.map_eq_none_iff, ih hfill.inFile,
      @rest_eq_refill α B r hr, List.append_eq_nil_iff]
    simp [hne]

end ReadLine

/-! ## 4. Giving back -/

section GiveBack

variable {r : Reader α}

@[simp] theorem file_seekBack (k : Nat) (r : Reader α) : (r.seekBack k).file = r.file := by
  unfold Reader.seekBack
  split <;> rfl

@[simp] theorem buffer_seekBack (k : Nat) (r : Reader α) : (r.seekBack k).buffer = r.buffer := by
  unfold Reader.seekBack
  split <;> rfl

theorem offset_seekBack_le (k : Nat) (r : Reader α) : (r.seekBack k).offset ≤ r.offset := by
  unfold Reader.seekBack
  split
  · exact Nat.sub_le _ _
  · exact le_rfl

/-- Giving back leaves the file and the buffer, and never moves the position on. -/
theorem giveBack_frame (n : Nat) (r : Reader α) :
    (r.giveBack n).file = r.file ∧ (r.giveBack n).buffer = r.buffer ∧
      (r.giveBack n).offset ≤ r.offset := by
  induction n generalizing r with
  | zero => exact ⟨rfl, rfl, le_rfl⟩
  | succ n ih =>
    obtain ⟨hfile, hbuffer, hoffset⟩ := ih (r.seekBack r.buffer.length)
    rw [Reader.giveBack]
    exact ⟨hfile.trans (file_seekBack _ r), hbuffer.trans (buffer_seekBack _ r),
      hoffset.trans (offset_seekBack_le _ r)⟩

/-- An empty buffer gives nothing back. -/
theorem giveBack_of_empty (h : r.buffer = []) (n : Nat) : r.giveBack n = r := by
  induction n with
  | zero => rfl
  | succ n ih =>
    have hseek : r.seekBack r.buffer.length = r := by
      obtain ⟨file, offset, buffer⟩ := r
      cases h
      simp [Reader.seekBack]
    rw [Reader.giveBack, hseek, ih]

/-- Nothing is given back by nobody, and nothing of an empty buffer. -/
theorem giveBack_eq {n : Nat} (h : n = 0 ∨ r.buffer = []) : r.giveBack n = r := by
  rcases h with rfl | hempty
  · rfl
  · exact giveBack_of_empty hempty n

theorem giveBack_within (h : r.offset ≤ r.file.length) (n : Nat) :
    (r.giveBack n).offset ≤ (r.giveBack n).file.length := by
  obtain ⟨hfile, _, hoffset⟩ := giveBack_frame n r
  rw [hfile]
  exact hoffset.trans h

theorem length_rest (r : Reader α) :
    r.rest.length = r.buffer.length + (r.file.length - r.offset) := by
  rw [Reader.rest, List.length_append, List.length_drop]

/-- **What is given back is read again**: the rest does not get shorter, and gets longer when
somebody gives back a buffer that is not empty. -/
theorem length_rest_giveBack (n : Nat) (r : Reader α) :
    r.rest.length ≤ (r.giveBack n).rest.length ∧
      (n ≠ 0 → r.buffer ≠ [] → r.Filled → r.rest.length < (r.giveBack n).rest.length) := by
  obtain ⟨hfile, hbuffer, hoffset⟩ := giveBack_frame n r
  rw [length_rest, length_rest, hfile, hbuffer]
  refine ⟨by omega, ?_⟩
  intro hn hne hfilled
  obtain ⟨m, rfl⟩ : ∃ m, n = m + 1 := Nat.exists_eq_add_one_of_ne_zero hn
  have hpos := List.length_pos_iff.mpr hne
  obtain ⟨hahead, hin⟩ := hfilled
  have hfirst : (r.seekBack r.buffer.length).offset = r.offset - r.buffer.length := by
    unfold Reader.seekBack
    rw [if_pos hahead]
  have hmore := (giveBack_frame m (r.seekBack r.buffer.length)).2.2
  have hle : (r.giveBack (m + 1)).offset ≤ r.offset - r.buffer.length := hfirst ▸ hmore
  omega

/-- So a rest that stays as long shows that nothing was given back. -/
theorem eq_zero_or_empty_of_length {n : Nat} {r : Reader α} (hfilled : r.Filled)
    (h : (r.giveBack n).rest.length ≤ r.rest.length) : n = 0 ∨ r.buffer = [] := by
  by_contra hno
  push Not at hno
  exact absurd ((length_rest_giveBack n r).2 hno.1 hno.2 hfilled) (Nat.not_lt.mpr h)

end GiveBack

end BufferedFile
