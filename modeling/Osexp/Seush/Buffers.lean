/-
# The buffers of `handle_redirection`

`command_noredi`, `redi_infile` and `redi_outfile` are arrays on the stack that nothing initialises.
All four formats begin with a scan set.  On a text that begins with an operator it takes nothing,
so no call assigns anything, and the command is what the stack held.

`bufferFree_iff`: the outcome for a text is decided by the text, with a first word in `argv`, exactly
when the text begins with anything but an operator.

A shell that forgets to look at what `sscanf` returns is a common thing; here the return value is
looked at, for the number of items, and it is the fallback that does not ask whether there was any.
The buffers are a parameter of `handle_redirection` in this model, for each call another one, so
that a result which does not depend on them can be told from one that does.
-/
import Osexp.Seush.Blanks

namespace Osexp.Seush

open Text

variable {w : World}

/-! ## 1. The property -/

/-- What `handle_redirection` makes of a text does not depend on what its buffers held. -/
structure BufferFree (text : CString) (env : Environment) (s : Shell w) : Prop where
  /-- `command_noredi` has been assigned when `clean` reads it: it holds a beginning of the text. -/
  assigned : ∀ b type c, scanRedirection text b = .ok (type, c) →
    c .commandNoredi ≠ [] ∧ c .commandNoredi <+: text
  same : ∀ b b', handleRedirection b text {} env s = handleRedirection b' text {} env s
  /-- `access` and `strcat` are not given a NULL. -/
  argv : ∀ b, handleRedirection b text {} env s ≠ .error .nullArgument ∧
    ∀ p t, handleRedirection b text {} env s = .ok (p, t) → p.argv ≠ []

/-- The text is not empty and does not begin with an operator. -/
def BeginsCommand (text : CString) : Prop := ∃ c ∈ text.head?, c ≠ '<' ∧ c ≠ '>'

/-! ## 2. What the scan sets take -/

section Scan

variable {text : CString}

/-- A cleaned text begins with a command when the first scan set takes something. -/
theorem Cleaned.beginsCommand_iff (h : Cleaned text) :
    BeginsCommand text ↔ text.takeWhile inScanset ≠ [] := by
  cases text with
  | nil => simp [BeginsCommand]
  | cons c t =>
    have htab : c ≠ '\t' := by
      rintro rfl
      exact h.head rfl
    have hline : c ≠ '\n' := by
      rintro rfl
      cases h.line '\n' List.mem_cons_self
    have hscan : inScanset c = true ↔ c ≠ '<' ∧ c ≠ '>' := by
      simp [inScanset, htab, hline]
    rw [List.takeWhile_cons]
    simp [BeginsCommand, ← hscan]

/-- The command of a cleaned text has a word. -/
theorem Cleaned.argvItem_ne_nil (h : Cleaned text) (hne : text.takeWhile inScanset ≠ []) :
    argvItem text ≠ [] := by
  rw [h.words_command]
  intro hnil
  cases text with
  | nil => exact hne rfl
  | cons c t =>
    by_cases hc : inScanset c = true
    · have hblank := tokens_eq_nil_iff.mp hnil c (by
        rw [List.takeWhile_cons_of_pos hc]
        exact List.mem_cons_self)
      rw [squeeze_cons h.squeezed] at hblank
      cases hblank
    · exact hne (List.takeWhile_cons_of_neg hc)

/-- One `sscanf` call leaves its first item in `command_noredi`. -/
theorem sscanf_command {ds : List Directive} {dests : List Buffer} {b c : Scratch} {n : Nat}
    (hne : text.takeWhile inScanset ≠ []) (hdests : .commandNoredi ∉ dests)
    (h : sscanf (.scanset :: ds) (.commandNoredi :: dests) text b = .ok (n, c)) :
    c .commandNoredi = text.takeWhile inScanset := by
  obtain ⟨_, rfl⟩ := sscanf_inv h
  have hkeep : ∀ (dests : List Buffer) (items : List CString) (d : Scratch),
      .commandNoredi ∉ dests → d.fill (dests.zip items) .commandNoredi = d .commandNoredi := by
    intro dests
    induction dests with
    | nil => exact fun _ _ _ => rfl
    | cons k dests ih =>
      intro items d hnot
      obtain ⟨hk, hnot⟩ := not_or.mp (mt List.mem_cons.mpr hnot)
      cases items with
      | nil => rfl
      | cons item items =>
        rw [List.zip_cons_cons, Scratch.fill, ih items _ hnot, if_neg hk]
  rw [scan, if_neg (by simpa using hne), List.zip_cons_cons, Scratch.fill, hkeep _ _ _ hdests,
    if_pos rfl]

/-- So do the four together. -/
theorem scanRedirection_command {b c : Scratch} {type : RedirectionType}
    (hne : text.takeWhile inScanset ≠ []) (h : scanRedirection text b = .ok (type, c)) :
    c .commandNoredi = text.takeWhile inScanset := by
  obtain ⟨⟨n₁, b₁⟩, h₁, h⟩ := bind_eq_ok h
  dsimp only at h
  split at h
  · cases h
    exact sscanf_command hne (by decide) h₁
  · obtain ⟨⟨n₂, b₂⟩, h₂, h⟩ := bind_eq_ok h
    dsimp only at h
    split at h
    · cases h
      exact sscanf_command hne (by decide) h₂
    · obtain ⟨⟨n₃, b₃⟩, h₃, h⟩ := bind_eq_ok h
      dsimp only at h
      split at h
      · cases h
        exact sscanf_command hne (by decide) h₃
      · obtain ⟨⟨n₄, b₄⟩, h₄, h⟩ := bind_eq_ok h
        have hc : c = b₄ := by
          dsimp only at h
          split at h <;> cases h <;> rfl
        rw [hc]
        exact sscanf_command hne (by decide) h₄

end Scan

/-! ## 3. The outcome -/

section Outcome

variable {text : CString} {env : Environment} {s : Shell w}

/-- The lookup keeps the first word, and needs it. -/
theorem findExec_argv {cwd : w.Dir} {p : Process} (hp : p.argv ≠ []) :
    findExec env cwd p ≠ .error .nullArgument ∧ ∀ q, findExec env cwd p = .ok q → q.argv ≠ [] := by
  refine ⟨?_, ?_⟩
  · intro h
    unfold findExec at h
    split at h
    · rename_i hnil
      exact hp hnil
    · split at h <;> cases h
  · intro q hq
    rw [(findExec_spec hq).1]
    exact hp

/-- A text that begins with a command is read alike whatever the buffers held. -/
theorem Cleaned.readCommand_same (h : Cleaned text) (hne : text.takeWhile inScanset ≠ [])
    (b b' : Scratch) : readCommand text b = readCommand text b' := by
  cases hover : overflow text with
  | some k => rw [readCommand_overflow hover, readCommand_overflow hover]
  | none => rw [h.reading hover hne, h.reading hover hne]

theorem Cleaned.handleRedirection_argv (h : Cleaned text) (hne : text.takeWhile inScanset ≠ [])
    (b : Scratch) : handleRedirection b text {} env s ≠ .error .nullArgument ∧
      ∀ p t, handleRedirection b text {} env s = .ok (p, t) → p.argv ≠ [] := by
  rw [handleRedirection_eq]
  cases hover : overflow text with
  | some k =>
    rw [readCommand_overflow hover]
    refine ⟨?_, ?_⟩
    · intro he
      cases he
    · intro p t he
      cases he
  | none =>
    rw [h.reading hover hne]
    obtain ⟨q, u, hq, hfind⟩ := handleReading_eq
      (readingOf (argvItem text) (outFiles text) (inFiles text)) env s
    have hargv : q.argv ≠ [] := by
      rw [hq, (readingOf_names _ (outFiles_or_inFiles text)).1]
      exact h.argvItem_ne_nil hne
    obtain ⟨hnull, hkeep⟩ := @findExec_argv w env u.cwd q hargv
    dsimp only [bind, Except.bind]
    rw [hfind]
    refine ⟨?_, ?_⟩
    · intro he
      cases hq' : findExec env u.cwd q with
      | error f =>
        rw [hq'] at he
        cases he
        exact hnull hq'
      | ok r =>
        rw [hq'] at he
        cases he
    · intro p t he
      obtain ⟨r, hr, hpair⟩ := map_eq_ok he
      cases hpair
      exact hkeep _ hr

/-- What becomes of a text of which nothing is taken, where the buffers held an empty string. -/
theorem handleRedirection_nothing (hnil : text.takeWhile inScanset = []) :
    handleRedirection (fun _ => []) text {} env s =
      if env.paths = [] then .ok ({}, s) else .error .nullArgument := by
  have hread : readCommand [] (fun _ => []) = .ok ⟨.noRedi, [], none, none⟩ := by
    decide +kernel
  rw [handleRedirection_eq, readCommand_nothing hnil, hread]
  dsimp only [bind, Except.bind, handleReading, findExec]
  split <;> rfl

end Outcome

/-- **When the buffers do not matter.** The outcome of `handle_redirection` on a text is the same
for all contents of its three uninitialised arrays, with a first word in `argv`, exactly when the
text begins with anything but an operator.  Otherwise the command is what some earlier call has left
on the stack, so that the same line may run different programs. -/
theorem bufferFree_iff (t : CString) (env : Environment) (s : Shell w) :
    BufferFree (clean t) env s ↔ BeginsCommand (clean t) := by
  have hclean := cleaned_clean t
  rw [hclean.beginsCommand_iff]
  constructor
  · intro h hnil
    obtain ⟨hnull, hargv⟩ := h.argv (fun _ => [])
    rw [handleRedirection_nothing hnil] at hnull hargv
    by_cases hpaths : env.paths = []
    · rw [if_pos hpaths] at hargv
      exact hargv _ _ rfl rfl
    · rw [if_neg hpaths] at hnull
      exact hnull rfl
  · intro hne
    refine ⟨?_, ?_, fun b => hclean.handleRedirection_argv hne b⟩
    · intro b type c hscan
      rw [scanRedirection_command hne hscan]
      exact ⟨hne, List.takeWhile_prefix _⟩
    · intro b b'
      rw [handleRedirection_eq, handleRedirection_eq, hclean.readCommand_same hne b b']

/-- `< f cat` runs what the previous command left on the stack, or hands a NULL to `strcat`. -/
theorem stale_command_runs :
    (∃ p t, handleRedirection (fun _ => "/bin/ls -l".toList) (clean "< f cat".toList) {}
        rootSession.env rootSession.shell = .ok (p, t) ∧
      p.execPath = some "/bin/ls".toList ∧ p.argv = ["/bin/ls".toList, "-l".toList]) ∧
    handleRedirection (fun _ => []) (clean "< f cat".toList) {} rootSession.env
      rootSession.shell = .error .nullArgument ∧
    ¬ BufferFree (clean "< f cat".toList) rootSession.env rootSession.shell := by
  have hnull : handleRedirection (fun _ => []) (clean "< f cat".toList) {} rootSession.env
      rootSession.shell = .error .nullArgument := by
    rw [handleRedirection_nothing (by decide +kernel)]
    rfl
  refine ⟨?stale, hnull, fun h => (h.argv _).1 hnull⟩
  case stale =>
    have hread : readCommand [] (fun _ => "/bin/ls -l".toList) =
        .ok ⟨.noRedi, ["/bin/ls".toList, "-l".toList], none, none⟩ := by
      decide +kernel
    rw [handleRedirection_eq, readCommand_nothing (by decide +kernel), hread]
    exact ⟨_, _, rfl, rfl, rfl⟩

end Osexp.Seush
