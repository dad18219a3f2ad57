/-
# A heap of objects with fresh identities

An allocation gives out a number that has never been given out before, so a number names at most
one object during a run, and a freed one names none ever after.

`live_alloc` and `free_of_live` say what the two operations do to the live objects, and
`lt_next_of_live` that a live object is older than the next one.

`count` is the number of live objects.  `Owns` is for a computation that holds objects of its own:
they are live and no two of them are the same, so each can be freed once (`Owns.free`); `Frame`
says that the objects from before are as they were, but for some.

The identities are what makes the usual mistakes visible.  A pointer to a freed object is a number
that is not live; a second `free`, or a read through it, is then an error of the operation, and not
something that happens to work because the memory has not been given out again.
-/
import Mathlib.Data.List.Nodup

variable {β : Type*}

/-- The live objects, and the number that the next allocation gives out. -/
structure Heap (β : Type*) where
  live : Nat → Option β
  next : Nat
  unused : ∀ id, next ≤ id → live id = none

namespace Heap

/-! ## 1. The operations -/

/-- Nothing has been allocated. -/
theorem unused_empty (id : Nat) (_ : 0 ≤ id) : (fun _ => none : Nat → Option β) id = none := rfl

def empty : Heap β := ⟨fun _ => none, 0, unused_empty⟩

/-- A new object; its number is the `next` of the heap before. -/
def alloc (x : β) (h : Heap β) : Heap β where
  live := fun id => if id = h.next then some x else h.live id
  next := h.next + 1
  unused := by
    intro id hid
    rw [if_neg (by omega)]
    exact h.unused id (by omega)

/-- The heap without the object, `none` when there is no such object. -/
def free (id : Nat) (h : Heap β) : Option (Heap β) :=
  if (h.live id).isSome then
    some {
      live := fun k => if k = id then none else h.live k
      next := h.next
      unused := by
        intro k hk
        split
        · rfl
        · exact h.unused k hk }
  else none

/-! ## 2. The live objects -/

@[simp] theorem next_alloc (x : β) (h : Heap β) : (h.alloc x).next = h.next + 1 := rfl

theorem live_alloc (x : β) (h : Heap β) (id : Nat) :
    (h.alloc x).live id = if id = h.next then some x else h.live id := rfl

@[simp] theorem live_alloc_next (x : β) (h : Heap β) : (h.alloc x).live h.next = some x := by
  rw [live_alloc, if_pos rfl]

theorem lt_next_of_live {h : Heap β} {id : Nat} {x : β} (hid : h.live id = some x) :
    id < h.next := by
  by_contra hle
  rw [h.unused id (Nat.le_of_not_lt hle)] at hid
  cases hid

/-- An allocation leaves live objects as they are. -/
theorem live_alloc_of_live {h : Heap β} {id : Nat} {y : β} (hid : h.live id = some y) (x : β) :
    (h.alloc x).live id = some y := by
  rw [live_alloc, if_neg (Nat.ne_of_lt (lt_next_of_live hid)), hid]

/-- A live object can be freed, and the others stay. -/
theorem free_of_live {h : Heap β} {id : Nat} {x : β} (hid : h.live id = some x) :
    ∃ h', h.free id = some h' ∧ h'.next = h.next ∧
      ∀ k, k ≠ id → h'.live k = h.live k := by
  refine ⟨_, if_pos (by rw [hid]; rfl), rfl, ?_⟩
  intro k hk
  exact if_neg hk

/-- Live objects stay live when the heap grows by several allocations. -/
theorem map_live_alloc {h : Heap β} {ids : List Nat} {xs : List β}
    (hids : ids.map h.live = xs.map some) (x : β) :
    ids.map (h.alloc x).live = xs.map some := by
  rw [← hids]
  refine List.map_congr_left ?_
  intro id hid
  obtain ⟨y, _, hy⟩ := List.mem_map.mp (hids ▸ List.mem_map_of_mem hid)
  rw [live_alloc_of_live hy.symm, hy]

/-! ## 3. Writing and counting -/

/-- Another value for a live object. -/
def write (id : Nat) (x : β) (h : Heap β) : Option (Heap β) :=
  if hid : (h.live id).isSome then
    some {
      live := fun k => if k = id then some x else h.live k
      next := h.next
      unused := by
        intro k hk
        rw [if_neg]
        · exact h.unused k hk
        · rintro rfl
          rw [h.unused k hk] at hid
          cases hid }
  else none

theorem write_of_live {h : Heap β} {id : Nat} (hid : (h.live id).isSome) (x : β) :
    ∃ h', h.write id x = some h' ∧ h'.next = h.next ∧ h'.live id = some x ∧
      ∀ k, k ≠ id → h'.live k = h.live k := by
  refine ⟨_, dif_pos hid, rfl, if_pos rfl, ?_⟩
  intro k hk
  exact if_neg hk

/-- How many objects are live. -/
def count (h : Heap β) : Nat := (List.range h.next).countP (fun id => (h.live id).isSome)

theorem count_congr {h h' : Heap β} (hnext : h'.next = h.next)
    (hlive : ∀ id, (h'.live id).isSome = (h.live id).isSome) : h'.count = h.count := by
  rw [count, count, hnext]
  exact List.countP_congr fun id _ => by rw [hlive id]

theorem count_alloc (x : β) (h : Heap β) : (h.alloc x).count = h.count + 1 := by
  have hold : (List.range h.next).countP (fun id => ((h.alloc x).live id).isSome) = h.count := by
    refine List.countP_congr fun id hid => ?_
    rw [live_alloc, if_neg (Nat.ne_of_lt (List.mem_range.mp hid))]
  rw [count, next_alloc, List.range_succ, List.countP_append, hold]
  simp

theorem count_write {h h' : Heap β} {id : Nat} {x : β} (hw : h.write id x = some h') :
    h'.count = h.count := by
  unfold write at hw
  split at hw
  · rename_i hid
    cases hw
    refine count_congr rfl fun k => ?_
    dsimp only
    split
    · rename_i hk
      rw [hk, hid, Option.isSome_some]
    · rfl
  · cases hw

theorem count_free {h h' : Heap β} {id : Nat} (hf : h.free id = some h') :
    h'.count + 1 = h.count := by
  unfold free at hf
  split at hf
  · rename_i hid
    cases hf
    obtain ⟨x, hx⟩ := Option.isSome_iff_exists.mp hid
    have hmem : id ∈ List.range h.next := List.mem_range.mpr (lt_next_of_live hx)
    -- the numbers before, the object that goes, and the numbers behind it
    obtain ⟨before, behind, hsplit⟩ := List.append_of_mem hmem
    have hnodup : (before ++ id :: behind).Nodup := hsplit ▸ List.nodup_range
    have hother : ∀ l : List Nat, id ∉ l →
        l.countP (fun k => (if k = id then none else h.live k).isSome) =
          l.countP (fun k => (h.live k).isSome) := by
      intro l hl
      refine List.countP_congr fun k hk => ?_
      have hne : k ≠ id := fun heq => hl (heq ▸ hk)
      rw [if_neg hne]
    have hbefore : id ∉ before := by
      intro hin
      exact (List.nodup_append.mp hnodup).2.2 id hin id List.mem_cons_self rfl
    have hbehind : id ∉ behind := (List.nodup_cons.mp (List.nodup_append.mp hnodup).2.1).1
    have hold : (id :: behind).countP (fun k => (h.live k).isSome) =
        behind.countP (fun k => (h.live k).isSome) + 1 := List.countP_cons_of_pos hid
    unfold count
    dsimp only
    rw [hsplit, List.countP_append, List.countP_append, hother before hbefore, hold,
      List.countP_cons_of_neg (by simp), hother behind hbehind]
    omega
  · cases hf

/-! ## 4. Objects of one's own -/

/-- The objects are live, and no two are the same. -/
structure Owns (h : Heap β) (ids : List Nat) : Prop where
  nodup : ids.Nodup
  live : ∀ id ∈ ids, (h.live id).isSome

/-- The objects from before are live as before, and but for those of `but` they are unchanged. -/
structure Frame (but : List Nat) (h h' : Heap β) : Prop where
  next : h.next ≤ h'.next
  alive : ∀ id, (h.live id).isSome → (h'.live id).isSome
  live : ∀ id, id < h.next → id ∉ but → h'.live id = h.live id

namespace Frame

variable {but : List Nat} {h h₁ h₂ : Heap β} {id : Nat} {x : β}

theorem refl (but : List Nat) (h : Heap β) : Frame but h h :=
  ⟨Nat.le_refl _, fun _ hid => hid, fun _ _ _ => rfl⟩

theorem trans (h₁₂ : Frame but h h₁) (h₂₃ : Frame but h₁ h₂) : Frame but h h₂ where
  next := Nat.le_trans h₁₂.next h₂₃.next
  alive := fun id hid => h₂₃.alive id (h₁₂.alive id hid)
  live := fun id hid hnot =>
    (h₂₃.live id (Nat.lt_of_lt_of_le hid h₁₂.next) hnot).trans (h₁₂.live id hid hnot)

/-- What is new to the first heap does not count as from before. -/
theorem trans_new {new : List Nat} (h₁₂ : Frame but h h₁) (h₂₃ : Frame (new ++ but) h₁ h₂)
    (hnew : ∀ id ∈ new, h.next ≤ id) : Frame but h h₂ where
  next := Nat.le_trans h₁₂.next h₂₃.next
  alive := fun id hid => h₂₃.alive id (h₁₂.alive id hid)
  live := by
    intro id hid hnot
    rw [h₂₃.live id (Nat.lt_of_lt_of_le hid h₁₂.next), h₁₂.live id hid hnot]
    rw [List.mem_append, not_or]
    exact ⟨fun hmem => absurd (hnew id hmem) (Nat.not_le.mpr hid), hnot⟩

theorem alloc (hf : Frame but h h₁) (x : β) : Frame but h (h₁.alloc x) where
  next := Nat.le_succ_of_le hf.next
  alive := by
    intro id hid
    rw [live_alloc]
    split
    · rfl
    · exact hf.alive id hid
  live := by
    intro id hid hnot
    rw [live_alloc, if_neg (Nat.ne_of_lt (Nat.lt_of_lt_of_le hid hf.next))]
    exact hf.live id hid hnot

/-- An object of `but`, or a new one, is written. -/
theorem write (hf : Frame but h h₁) (hw : h₁.write id x = some h₂)
    (hid : id ∈ but ∨ h.next ≤ id) : Frame but h h₂ := by
  unfold Heap.write at hw
  split at hw
  · cases hw
    refine ⟨hf.next, ?_, ?_⟩
    · intro k hk
      dsimp only
      split
      · rfl
      · exact hf.alive k hk
    · intro k hk hnot
      dsimp only
      rw [if_neg, hf.live k hk hnot]
      rintro rfl
      exact hid.elim hnot (fun hle => absurd hk (Nat.not_lt.mpr hle))
  · cases hw

theorem mono {but' : List Nat} (hf : Frame but h h₁) (hsub : but ⊆ but') : Frame but' h h₁ :=
  ⟨hf.next, hf.alive, fun id hid hnot => hf.live id hid (fun hin => hnot (hsub hin))⟩

/-- Then only new objects change. -/
theorem after (hf : Frame but h h₁) (hnext : h₁.next ≤ h₂.next)
    (hsame : ∀ id, id < h.next → h₂.live id = h₁.live id) : Frame but h h₂ where
  next := Nat.le_trans hf.next hnext
  alive := by
    intro id hid
    obtain ⟨x, hx⟩ := Option.isSome_iff_exists.mp hid
    rw [hsame id (lt_next_of_live hx)]
    exact hf.alive id hid
  live := fun id hid hnot => (hsame id hid).trans (hf.live id hid hnot)

/-- A new object is freed. -/
theorem free (hf : Frame but h h₁) (hfree : h₁.free id = some h₂) (hid : h.next ≤ id) :
    Frame but h h₂ := by
  unfold Heap.free at hfree
  split at hfree
  · cases hfree
    refine hf.after (Nat.le_refl _) fun k hk => ?_
    exact if_neg (Nat.ne_of_lt (Nat.lt_of_lt_of_le hk hid))
  · cases hfree

end Frame

namespace Owns

variable {h : Heap β} {id : Nat} {ids rest : List Nat}

theorem nil (h : Heap β) : h.Owns [] := ⟨List.nodup_nil, List.forall_mem_nil _⟩

theorem lt_next (ho : h.Owns ids) (hid : id ∈ ids) : id < h.next := by
  obtain ⟨x, hx⟩ := Option.isSome_iff_exists.mp (ho.live id hid)
  exact lt_next_of_live hx

theorem perm {ids' : List Nat} (ho : h.Owns ids) (hp : ids.Perm ids') : h.Owns ids' :=
  ⟨hp.nodup_iff.mp ho.nodup, fun id hid => ho.live id (hp.mem_iff.mpr hid)⟩

/-- Objects from before stay one's own, -/
theorem frame {but : List Nat} {h' : Heap β} (ho : h.Owns ids) (hf : Frame but h h') :
    h'.Owns ids :=
  ⟨ho.nodup, fun id hid => hf.alive id (ho.live id hid)⟩

/-- and new ones are others. -/
theorem extend {but new : List Nat} {h' : Heap β} (ho : h.Owns ids) (hf : Frame but h h')
    (hn : h'.Owns new) (hnew : ∀ id ∈ new, h.next ≤ id) : h'.Owns (new ++ ids) where
  nodup := by
    refine List.nodup_append.mpr ⟨hn.nodup, ho.nodup, ?_⟩
    rintro a ha b hb rfl
    exact absurd (hnew a ha) (Nat.not_le.mpr (ho.lt_next hb))
  live := by
    intro id hid
    rcases List.mem_append.mp hid with hid | hid
    · exact hn.live id hid
    · exact (ho.frame hf).live id hid

theorem alloc (ho : h.Owns ids) (x : β) : (h.alloc x).Owns (h.next :: ids) where
  nodup := List.nodup_cons.mpr ⟨fun hmem => Nat.lt_irrefl _ (ho.lt_next hmem), ho.nodup⟩
  live := by
    intro id hid
    rw [live_alloc]
    split
    · rfl
    · rename_i hne
      exact ho.live id ((List.mem_cons.mp hid).resolve_left hne)

/-- One object is freed, and the others stay. -/
theorem free (ho : h.Owns (id :: ids)) : ∃ h', h.free id = some h' ∧ h'.Owns ids ∧
    h'.next = h.next ∧ (∀ k, k ≠ id → h'.live k = h.live k) ∧ h'.count + 1 = h.count := by
  obtain ⟨hnot, hnodup⟩ := List.nodup_cons.mp ho.nodup
  obtain ⟨x, hx⟩ := Option.isSome_iff_exists.mp (ho.live id List.mem_cons_self)
  obtain ⟨h', hfree, hnext, hkeep⟩ := free_of_live hx
  refine ⟨h', hfree, ⟨hnodup, fun k hk => ?_⟩, hnext, hkeep, count_free hfree⟩
  rw [hkeep k (fun heq => hnot (heq ▸ hk))]
  exact ho.live k (List.mem_cons_of_mem _ hk)

end Owns

end Heap
