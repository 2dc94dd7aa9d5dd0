import Derivatives.Proofs.Token

/-!
# Characters between tokens

A character that is no part of a numeral, nor of an exponent that lacks its digits, ends
whatever token stands in front of it (`Numeral.Separates`): the lexemes of a text are those
of what is in front of the character, and those from there on
(`lexemes_append_of_separates`).
-/

namespace Derivatives

namespace Number.Numeral

variable {c : Char} {w : List Char}

/-- A character that is no part of a numeral, nor of what could have been one. -/
structure Separates (c : Char) : Prop where
  isDigit_eq : c.isDigit = false
  ne_point : c ≠ '.'
  isMark_eq : isMark c = false
  ne_sign : c ≠ '+' ∧ c ≠ '-'

theorem takeWhile_append_of_separates (hc : Separates c) (u w : List Char) :
    (u ++ c :: w).takeWhile Char.isDigit = u.takeWhile Char.isDigit := by
  induction u with
  | nil => rw [List.nil_append, List.takeWhile_cons, hc.isDigit_eq]; rfl
  | cons d u ih => rw [List.cons_append, List.takeWhile_cons, List.takeWhile_cons, ih]

theorem dropWhile_append_of_separates (hc : Separates c) (u w : List Char) :
    (u ++ c :: w).dropWhile Char.isDigit = u.dropWhile Char.isDigit ++ c :: w := by
  induction u with
  | nil => rw [List.nil_append, List.dropWhile_cons, hc.isDigit_eq]; rfl
  | cons d u ih =>
    rw [List.cons_append, List.dropWhile_cons, List.dropWhile_cons, ih]
    split <;> rfl

theorem scanFraction_append_of_separates (hc : Separates c) (u w : List Char) :
    scanFraction (u ++ c :: w) = ((scanFraction u).1, (scanFraction u).2 ++ c :: w) := by
  by_cases hpoint : u.head? = some '.'
  · obtain ⟨u, rfl⟩ := List.head?_eq_some_iff.1 hpoint
    exact Prod.ext (congrArg some (takeWhile_append_of_separates hc u w))
      (dropWhile_append_of_separates hc u w)
  · have hu : scanFraction u = (none, u) := scanFraction_of_ne fun d hd hpoint' =>
      hpoint (hpoint' ▸ hd)
    rw [hu]
    refine scanFraction_of_ne fun d hd => ?_
    cases u with
    | nil => exact Option.some.inj hd ▸ hc.ne_point
    | cons d' u => exact fun h => hpoint (h ▸ hd)

theorem scanSign_append_of_separates (hc : Separates c) (u w : List Char) :
    scanSign (u ++ c :: w) = ((scanSign u).1, (scanSign u).2 ++ c :: w) := by
  cases u with
  | nil => exact scanSign_of_ne fun d hd => Option.some.inj hd ▸ hc.ne_sign
  | cons d u =>
    by_cases hplus : d = '+'
    · subst hplus; rfl
    by_cases hminus : d = '-'
    · subst hminus; rfl
    have hne {v : List Char} : ∀ d' ∈ (d :: v).head?, d' ≠ '+' ∧ d' ≠ '-' := fun d' hd' =>
      Option.some.inj hd' ▸ ⟨hplus, hminus⟩
    rw [scanSign_of_ne hne, List.cons_append, scanSign_of_ne hne]

theorem scanExponent_append_of_separates (hc : Separates c) (u w : List Char) :
    scanExponent (u ++ c :: w) = ((scanExponent u).1, (scanExponent u).2 ++ c :: w) := by
  cases u with
  | nil => simp [scanExponent, hc.isMark_eq]
  | cons d u =>
    simp only [List.cons_append, scanExponent, scanSign_append_of_separates hc,
      takeWhile_append_of_separates hc, dropWhile_append_of_separates hc]
    split <;> rfl

/-- Scanning stops at a separating character at the latest. -/
theorem scan_append_of_separates (hc : Separates c) (u w : List Char) :
    scan (u ++ c :: w) = ((scan u).1, (scan u).2 ++ c :: w) := by
  simp only [scan, takeWhile_append_of_separates hc, dropWhile_append_of_separates hc,
    scanFraction_append_of_separates hc, scanExponent_append_of_separates hc]

end Number.Numeral

open Number

/-- The lexemes in front of a separating character do not depend on it. -/
theorem lexemes_append_of_separates {c : Char} (hc : Numeral.Separates c) (p : Nat)
    (u w : List Char) :
    lexemes p (u ++ c :: w) = lexemes p u ++ lexemes (p + u.length) (c :: w) := by
  fun_induction lexemes p u with
  | case1 => rfl
  | case2 p d u hd ih =>
    rw [List.cons_append, lexemes, if_pos hd, ih, List.length_cons, Nat.add_assoc,
      Nat.add_comm 1]
  | case3 p d u hd hdigit stop ih =>
    have hscan := Numeral.scan_append_of_separates hc (d :: u) w
    have hlength := Numeral.length_scan (d :: u)
    have hstop : p + (d :: u).length = stop + (Numeral.scan (d :: u)).2.length := by
      rw [← hlength, Nat.add_assoc]
    rw [List.cons_append] at hscan ⊢
    rw [lexemes_cons_of_isDigit p _ hdigit, hscan, ih, hstop]
    rfl
  | case4 p d u hd hdigit ih =>
    rw [List.cons_append, lexemes_cons p (Bool.eq_false_iff.2 hd) (Bool.eq_false_iff.2 hdigit), ih,
      List.length_cons, Nat.add_assoc, Nat.add_comm 1]
    rfl

end Derivatives
