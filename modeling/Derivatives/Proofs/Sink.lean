import Derivatives.Sink

/-!
# Writing with and without a limit

A sink without a limit accepts all texts, so that what is written to it is what the texts
are (`Sink.writeAll_of_unlimited`). One with a limit accepts as many of their bytes as there is
room for, and says so if there is no room for all of them (`Sink.writeAll_of_limited`).
-/

namespace Derivatives.Sink

/-- The bytes of texts, one after the other. -/
def bytes : List String → ByteArray
  | [] => .empty
  | text :: texts => text.toUTF8 ++ bytes texts

/-- A sink that has accepted more bytes. -/
def put (sink : Sink) (more : ByteArray) : Sink := { sink with written := sink.written ++ more }

variable {sink : Sink}

@[simp]
theorem put_empty (sink : Sink) : sink.put .empty = sink := by
  rw [put, ByteArray.append_empty]

@[simp]
theorem put_put (sink : Sink) (more more' : ByteArray) :
    (sink.put more).put more' = sink.put (more ++ more') := by
  rw [put, put, put, ByteArray.append_assoc]

theorem unlimited_put (h : sink.room = none) (more : ByteArray) : (sink.put more).room = none := h

theorem write_of_unlimited (h : sink.room = none) (text : String) :
    sink.write text = (none, sink.put text.toUTF8) := by
  obtain ⟨written, room⟩ := sink
  obtain rfl : room = none := h
  rfl

/-- Without a limit, all is accepted. -/
theorem writeAll_of_unlimited (h : sink.room = none) (texts : List String) :
    sink.writeAll texts = (none, sink.put (bytes texts)) := by
  induction texts generalizing sink with
  | nil => rw [writeAll, bytes, put_empty]
  | cons text texts ih =>
    rw [writeAll, write_of_unlimited h]
    change (sink.put text.toUTF8).writeAll texts = _
    rw [ih (unlimited_put h _), put_put, bytes]

theorem bytes_append (texts texts' : List String) :
    bytes (texts ++ texts') = bytes texts ++ bytes texts' := by
  induction texts with
  | nil => exact ByteArray.empty_append.symm
  | cons text texts ih => rw [List.cons_append, bytes, bytes, ih, ByteArray.append_assoc]

theorem extract_append_of_le {first rest : ByteArray} {n : Nat} (h : n ≤ first.size) :
    (first ++ rest).extract 0 n = first.extract 0 n := by
  rw [ByteArray.extract_append, Nat.zero_sub, Nat.sub_eq_zero_of_le h, ByteArray.extract_same,
    ByteArray.append_empty]

/-- With a limit, all is accepted if there is room for it; otherwise the bytes that there is room
    for are, and no more. -/
theorem writeAll_of_limited (written : ByteArray) (n : Nat) (texts : List String) :
    Sink.writeAll ⟨written, some n⟩ texts =
      if (bytes texts).size ≤ n then
        (none, ⟨written ++ bytes texts, some (n - (bytes texts).size)⟩)
      else (some full, ⟨written ++ (bytes texts).extract 0 n, some 0⟩) := by
  induction texts generalizing written n with
  | nil =>
    have hsize : (bytes []).size = 0 := rfl
    rw [writeAll, hsize, if_pos (Nat.zero_le n), bytes, ByteArray.append_empty, Nat.sub_zero]
  | cons text texts ih =>
    have hsize : (bytes (text :: texts)).size = text.toUTF8.size + (bytes texts).size := by
      rw [bytes, ByteArray.size_append]
    rw [writeAll, write]
    by_cases htext : text.toUTF8.size ≤ n
    · -- The first text fits, and the others have the room that it leaves.
      have hfits : (bytes texts).size ≤ n - text.toUTF8.size ↔
          (bytes (text :: texts)).size ≤ n := by omega
      have hextract : (bytes (text :: texts)).extract 0 n =
          text.toUTF8 ++ (bytes texts).extract 0 (n - text.toUTF8.size) := by
        rw [bytes, ByteArray.extract_append, Nat.zero_sub, ← Nat.max_eq_left htext,
          ByteArray.extract_zero_max_size]
      have hbytes : text.toUTF8 ++ bytes texts = bytes (text :: texts) := rfl
      simp only [if_pos htext, ih, hfits, hsize, hextract, ByteArray.append_assoc, hbytes,
        Nat.sub_sub]
    · -- The first text does not fit, so nothing of the others is written.
      have hextract : (bytes (text :: texts)).extract 0 n = text.toUTF8.extract 0 n :=
        extract_append_of_le (Nat.le_of_not_le htext)
      have hnot : ¬ (bytes (text :: texts)).size ≤ n := by omega
      simp only [if_neg htext, if_neg hnot, hextract]

end Derivatives.Sink
