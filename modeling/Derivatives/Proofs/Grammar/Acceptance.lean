import Derivatives.Proofs.Formula
import Derivatives.Proofs.Grammar.Completeness
import Derivatives.Proofs.Grammar.Soundness
import Derivatives.Proofs.Grammar.Unambiguous

/-!
# Lines with formulas are sentences

A line has a formula just if its characters are those of a readable sentence, of
which there is one at most, and then the formula stands for what the sentence
does (`Formula.parse_iff_sentence`).
-/

namespace Derivatives

open Grammar Number

/-- The expressions on a line are those that readable sentences on it stand for. -/
theorem Expr.parse_eq_ok_iff_sentence {line : String} {e : Expr} :
    Expr.parse line = .ok e ↔
      ∃ s : Sentence, s.text = lineCharacters line ∧ s.Readable ∧ s.tree = e := by
  rw [Expr.parse_eq_ok_iff]
  constructor
  · rintro ⟨last, hlast, hfinish⟩
    exact Sentence.exists_of_after hlast hfinish
  · rintro ⟨s, htext, hs, rfl⟩
    rw [← htext]
    exact hs.exists_after

/-- The formula on a line stands for the expression on it. -/
theorem Formula.exists_parse_iff {line : String} {e : Expr} :
    (∃ f, Formula.parse line = .ok f ∧ f.toExpr = e) ↔ Expr.parse line = .ok e := by
  rw [Formula.parse]
  cases Expr.parse line with
  | error err => simp [Except.map]
  | ok e' => simp [Except.map, toExpr_ofExpr]

/-- A line has a formula that stands for an expression just if its characters are those
    of a readable sentence that does; and no other sentence has them. -/
theorem Formula.parse_iff_sentence (line : String) :
    (∀ e, (∃ f, Formula.parse line = .ok f ∧ f.toExpr = e) ↔
      ∃ s : Sentence, s.text = lineCharacters line ∧ s.Readable ∧ s.tree = e) ∧
    ∀ s s' : Sentence, s.text = lineCharacters line → s'.text = lineCharacters line → s = s' :=
  ⟨fun _ => Formula.exists_parse_iff.trans Expr.parse_eq_ok_iff_sentence,
    fun _ _ h h' => Sentence.text_injective (h.trans h'.symm)⟩

/-- The sentence `-x*2 + 1`. -/
def negatedProduct : Sentence where
  expression := .expression (some noBlanks)
    (.term (.var noBlanks 'x' (.inl rfl))
      (.andFactor noBlanks .mul rfl
        (.number noBlanks ⟨⟨['2'], none, none⟩, by decide⟩) .noFactor))
    (.andTerm space .add rfl
      (.term (.number space ⟨⟨['1'], none, none⟩, by decide⟩) .noFactor) .noTerm)
  trailing := noBlanks

/-- A leading minus negates the first term as a whole, and nothing behind it. -/
theorem Formula.parse_negatedProduct :
    ∃ f, Formula.parse "-x*2 + 1\n" = .ok f ∧
      f.toExpr = .binary .add
        (.negate (.binary .mul .var (.constant (Numeral.double ⟨['2'], none, none⟩))))
        (.constant (Numeral.double ⟨['1'], none, none⟩)) :=
  ((Formula.parse_iff_sentence "-x*2 + 1\n").1 _).2
    ⟨negatedProduct, by decide, by decide +kernel, rfl⟩

end Derivatives
