/-
# Files written through open files

A file has contents, and an open file of it has a position; several descriptors may share one open
file.  A write puts its bytes over what stands at the position and moves the position behind them.
Opening a file for writing creates it when it does not exist, and leaves its contents alone when it
does.

`content_writes`: a sequence of writes through one open file leaves all its bytes in one piece,
where the first write began, and what stands before and behind them as it was.

Opening does not truncate here, which is what an `open` without the flag for it does.  So the old
contents matter: they are what shows behind the end of the new ones, and `writeAt_zero_eq_iff` says
when nothing of them does.
-/
import Mathlib.Data.List.Basic

namespace OpenFiles

variable {ν ι β : Type*}

/-- Bytes written over a file at a position within it. -/
def writeAt (old : List β) (pos : Nat) (bytes : List β) : List β :=
  old.take pos ++ (bytes ++ old.drop (pos + bytes.length))

theorem writeAt_nil (old : List β) (pos : Nat) : writeAt old pos [] = old := by
  rw [writeAt, List.nil_append, List.length_nil, Nat.add_zero, List.take_append_drop]

theorem writeAt_zero (old bytes : List β) :
    writeAt old 0 bytes = bytes ++ old.drop bytes.length := by
  rw [writeAt, List.take_zero, List.nil_append, Nat.zero_add]

theorem le_length_writeAt {old : List β} {pos : Nat} (h : pos ≤ old.length) (bytes : List β) :
    pos + bytes.length ≤ (writeAt old pos bytes).length := by
  rw [writeAt, List.length_append, List.length_append, List.length_take, Nat.min_eq_left h]
  omega

/-- **Two writes, one behind the other**, are one write of both. -/
theorem writeAt_writeAt {old : List β} {pos : Nat} (h : pos ≤ old.length) (a b : List β) :
    writeAt (writeAt old pos a) (pos + a.length) b = writeAt old pos (a ++ b) := by
  have hlen : (old.take pos ++ a).length = pos + a.length := by
    rw [List.length_append, List.length_take, Nat.min_eq_left h]
  have htake : (writeAt old pos a).take (pos + a.length) = old.take pos ++ a := by
    rw [writeAt, ← List.append_assoc, ← hlen, List.take_left]
  have hdrop : (writeAt old pos a).drop (pos + a.length + b.length) =
      old.drop (pos + (a ++ b).length) := by
    rw [writeAt, ← List.append_assoc, ← List.drop_drop, ← hlen, List.drop_left, List.drop_drop, hlen,
      List.length_append, Nat.add_assoc]
  rw [writeAt, htake, hdrop, writeAt, List.append_assoc, List.append_assoc]

/-- Nothing of the old contents is left exactly when they are no longer than what is written. -/
theorem writeAt_zero_eq_iff (old bytes : List β) :
    writeAt old 0 bytes = bytes ↔ old.length ≤ bytes.length := by
  rw [writeAt_zero, List.append_right_eq_self, List.drop_eq_nil_iff]

/-! ## Open files -/

/-- The contents of the files that exist, and the positions of the open files. -/
structure Disk (ν ι β : Type*) where
  content : ν → Option (List β)
  position : ι → Nat

namespace Disk

variable [DecidableEq ν] [DecidableEq ι]

/-- Open a file for writing as the open file `i`. -/
def openWrite (name : ν) (i : ι) (d : Disk ν ι β) : Disk ν ι β where
  content := Function.update d.content name (some ((d.content name).getD []))
  position := Function.update d.position i 0

/-- Write to the open file `i` of a file. -/
def write (name : ν) (i : ι) (bytes : List β) (d : Disk ν ι β) : Disk ν ι β where
  content := Function.update d.content name
    ((d.content name).map (fun old => writeAt old (d.position i) bytes))
  position := Function.update d.position i (d.position i + bytes.length)

theorem content_write {name : ν} {i : ι} {d : Disk ν ι β} {old : List β}
    (h : d.content name = some old) (bytes : List β) :
    (d.write name i bytes).content name = some (writeAt old (d.position i) bytes) := by
  have hupdate : (d.write name i bytes).content name =
    (d.content name).map (fun old => writeAt old (d.position i) bytes) := Function.update_self ..
  rw [hupdate, h, Option.map_some]

/-- **A sequence of writes.** -/
theorem content_writes {name : ν} {i : ι} : ∀ (chunks : List (List β)) {d : Disk ν ι β}
    {old : List β}, d.content name = some old → d.position i ≤ old.length →
      (chunks.foldl (fun d bytes => d.write name i bytes) d).content name =
        some (writeAt old (d.position i) chunks.flatten)
  | [], d, old, h, _ => by rw [List.foldl_nil, List.flatten_nil, writeAt_nil, h]
  | bytes :: chunks, d, old, h, hpos => by
    have hnext : (d.write name i bytes).position i = d.position i + bytes.length :=
      Function.update_self ..
    rw [List.foldl_cons, content_writes chunks (content_write h bytes)
      (Nat.le_trans (Nat.le_of_eq hnext) (le_length_writeAt hpos bytes)), hnext, writeAt_writeAt hpos,
      List.flatten_cons]

/-- The contents of a file that has been opened and written. -/
theorem content_openWrite_writes (name : ν) (i : ι) (d : Disk ν ι β) (chunks : List (List β)) :
    (chunks.foldl (fun d bytes => d.write name i bytes) (d.openWrite name i)).content name =
      some (writeAt ((d.content name).getD []) 0 chunks.flatten) := by
  have hpos : (d.openWrite name i).position i = 0 := Function.update_self ..
  have hcontent : (d.openWrite name i).content name = some ((d.content name).getD []) :=
    Function.update_self ..
  rw [content_writes chunks hcontent (Nat.le_trans (Nat.le_of_eq hpos) (Nat.zero_le _)), hpos]

end Disk

end OpenFiles
