import Derivatives.Proofs.Session

/-!
# Running out of room

A sink with room for so many bytes gets all that is written about a line if it has room for it,
and otherwise the bytes that it has room for, whatever is written about the line and however that
is cut into texts (`Sink.writeAll_of_limited`). What becomes of a line without a limit becomes of it
with one, but for the error that there is no room left (`Session.handle_of_limited`). As nothing is
kept of a line that has been handled, the error is of no matter to the lines that come later
(`Session.handle_within_room`).
-/

namespace Derivatives.Session

/-- Handles lines one after the other, each with a sink of its own. -/
def handleEach (options : Options) : List (Sink × String) → List (Except Error Outcome × Sink)
  | [] => []
  | (sink, line) :: calls => handle options sink line :: handleEach options calls

variable {options : Options} {line : String} {outcome : Outcome}

theorem handleEach_append (options : Options) (calls calls' : List (Sink × String)) :
    handleEach options (calls ++ calls') =
      handleEach options calls ++ handleEach options calls' := by
  induction calls with
  | nil => rfl
  | cons call calls ih => rw [List.cons_append, handleEach, handleEach, ih, List.cons_append]

/-- With a limit, what becomes of a line is written as far as there is room, and it is an error if
    there is no room for all of it. -/
theorem handle_of_limited (h : process options line = .ok outcome) (written : ByteArray) (n : Nat) :
    handle options ⟨written, some n⟩ line =
      if (answer options line).size ≤ n then
        (.ok outcome,
          ⟨written ++ answer options line, some (n - (answer options line).size)⟩)
      else (.error Sink.full, ⟨written ++ (answer options line).extract 0 n, some 0⟩) := by
  simp only [answer_eq h, handle, h, Sink.writeAll_of_limited]
  by_cases hle : (Sink.bytes (outcome.pieces options)).size ≤ n
  · rw [if_pos hle, if_pos hle]
  · rw [if_neg hle, if_neg hle]

/-- Let a sink have room for `n` bytes. If that is enough for what is written about a line without
    a limit, the same becomes of the line, and all of it is written. If it is not, handling the
    line fails for the lack of room; the first `n` bytes are written, and nothing is after them,
    however they are cut into texts and whatever would come next. Either way, the lines handled
    before and later are handled as they are without this one. -/
theorem handle_within_room (options : Options) (line : String) (written : ByteArray) (n : Nat) :
    let all := (handle options {} line).2.written
    (∃ outcome, (handle options {} line).1 = .ok outcome) ∧
    (all.size ≤ n → ∃ left,
      handle options ⟨written, some n⟩ line =
        ((handle options {} line).1, ⟨written ++ all, some left⟩)) ∧
    (n < all.size →
      handle options ⟨written, some n⟩ line =
        (.error (.outputFailed "no room"), ⟨written ++ all.extract 0 n, some 0⟩) ∧
      ∀ texts later, Sink.bytes texts = all →
        Sink.writeAll ⟨written, some n⟩ (texts ++ later) =
          (some (.outputFailed "no room"), ⟨written ++ all.extract 0 n, some 0⟩)) ∧
    ∀ earlier later, handleEach options (earlier ++ (⟨written, some n⟩, line) :: later) =
      handleEach options earlier ++
        handle options ⟨written, some n⟩ line :: handleEach options later := by
  obtain ⟨outcome, h⟩ := exists_process options line
  intro all
  have hall : answer options line = all := rfl
  have hlimited := handle_of_limited h written n
  rw [hall] at hlimited
  have hunlimited : (handle options {} line).1 = .ok outcome := by rw [handle_of_unlimited rfl h]
  refine ⟨⟨outcome, hunlimited⟩, fun hle => ?_, fun hlt => ⟨?_, fun texts later htexts => ?_⟩,
    fun earlier later => handleEach_append options earlier _⟩
  · rw [hlimited, if_pos hle, hunlimited]
    exact ⟨_, rfl⟩
  · rw [hlimited, if_neg (Nat.not_le.2 hlt), Sink.full]
  · -- What would come next does not fit either, and the first `n` bytes are not of it.
    have hnot : ¬ (all ++ Sink.bytes later).size ≤ n := by
      rw [ByteArray.size_append]
      omega
    rw [Sink.writeAll_of_limited, Sink.bytes_append, htexts, if_neg hnot,
      Sink.extract_append_of_le (Nat.le_of_lt hlt), Sink.full]

/-- About a line that is rejected, there is more to write than 50 bytes. -/
theorem handle_within_room_rejected :
    let all := (handle {} {} "3 + * 2").2.written
    all.size ≤ 100 ∧ 50 < all.size ∧
      (∃ left, handle {} { room := some 100 } "3 + * 2" =
        (.ok (.rejected "Misplaced operator." "* 2"), ⟨.empty ++ all, some left⟩)) ∧
      handle {} { room := some 50 } "3 + * 2" =
        (.error (.outputFailed "no room"), ⟨.empty ++ all.extract 0 50, some 0⟩) := by
  intro all
  have houtcome : (handle {} {} "3 + * 2").1 =
      .ok (.rejected "Misplaced operator." "* 2") := by decide +kernel
  have hle : all.size ≤ 100 := by decide +kernel
  have hlt : 50 < all.size := by decide +kernel
  have hroom := (handle_within_room {} "3 + * 2" .empty 100).2.1 hle
  rw [houtcome] at hroom
  have hfull := ((handle_within_room {} "3 + * 2" .empty 50).2.2.1 hlt).1
  exact ⟨hle, hlt, hroom, hfull⟩

end Derivatives.Session
