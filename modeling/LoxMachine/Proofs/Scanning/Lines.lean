import Mathlib.Order.Monotone.Basic
import LoxMachine.Proofs.Scanning.Gaps

/-!
# Lines of tokens

A token is on the line that the newlines in front of it make, wherever they stand: between tokens, at the
end of comments or inside strings. Only a string that no quote closes is on the line where the text ends.

Main statement: `line_of_token`.
-/

namespace LoxMachine

open Text

namespace Scanner

/-- How many lines end in some clusters. -/
def newlines (text : List Cluster) : Nat :=
  text.countP Cluster.isNewline

section Lines

variable {s : Scanner}

theorem newlines_append (text text' : List Cluster) :
    newlines (text ++ text') = newlines text + newlines text' :=
  List.countP_append

theorem line_behind (s : Scanner) : s.next.2.line = s.line + newlines (s.gap ++ s.next.1.lexeme) := by
  rw [newlines_append]
  rcases s.next_cases with ⟨hgap, hnext⟩ | hcuts
  · rw [hnext, hgap]
    rfl
  · rw [hcuts.line_eq, Nat.add_assoc]
    rfl

/-- The newlines inside a token that are counted before it is reported. -/
def late (t : Token) : Nat :=
  if t.kind = .error .unterminatedString then newlines t.lexeme else 0

theorem late_le (t : Token) : late t ≤ newlines t.lexeme := by
  rw [late]
  split
  · exact Nat.le_refl _
  · exact Nat.zero_le _

theorem line_token (s : Scanner) : s.next.1.line = s.line + newlines s.gap + late s.next.1 := by
  rcases s.next_cases with ⟨hgap, hnext⟩ | hcuts
  · rw [hnext, hgap]
    rfl
  · exact hcuts.token_line

/-- A token is on a line that the scanner has come to, and the scanner does not go back. -/
theorem line_next (s : Scanner) : s.line ≤ s.next.1.line ∧ s.next.1.line ≤ s.next.2.line := by
  have hlate := late_le s.next.1
  rw [line_token, line_behind, newlines_append]
  omega

/-- A scanner has counted the newlines it has left behind. -/
theorem line_after (n : Nat) (s : Scanner) : (s.after n).line = s.line + newlines (s.passed n) := by
  induction n generalizing s with
  | zero => rfl
  | succ n ih =>
      calc (after n s.next.2).line
          = s.next.2.line + newlines (s.next.2.passed n) := ih s.next.2
        _ = s.line + newlines (s.gap ++ s.next.1.lexeme) + newlines (s.next.2.passed n) := by rw [line_behind]
        _ = s.line + newlines (s.passed (n + 1)) := by rw [passed, newlines_append _ (passed n _), Nat.add_assoc]

theorem line_token_after (n : Nat) (s : Scanner) :
    (s.token n).line = s.line + newlines (s.before n) + late (s.token n) := by
  rw [token, line_token, line_after, before, newlines_append, Nat.add_assoc s.line]

theorem line_le_succ (n : Nat) (s : Scanner) : (s.token n).line ≤ (s.token (n + 1)).line := by
  calc (s.token n).line
      ≤ (s.after n).next.2.line := (s.after n).line_next.2
    _ = (s.after (n + 1)).line := by rw [after_succ]
    _ ≤ (s.token (n + 1)).line := (s.after (n + 1)).line_next.1

end Lines

/-- The line of a token is one more than the newlines in front of its first cluster, and also those inside
it if it is a string that no quote closes. So lines never decrease, and the end token is on the last one. -/
theorem line_of_token (text : List Cluster) (n : Nat) :
    let s := ofClusters text
    s.before n ++ (s.token n).lexeme <+: text ∧
      (s.token n).line = 1 + newlines (s.before n) +
        (if (s.token n).kind = .error .unterminatedString then newlines (s.token n).lexeme else 0) ∧
      (∀ i ≤ n, (s.token i).line ≤ (s.token n).line) ∧
      ((s.token n).kind = .eof → (s.token n).line = 1 + newlines text) := by
  intro s
  refine ⟨⟨(s.after n).next.2.rest, ?_⟩, s.line_token_after n, fun i hi => ?_, fun heof => ?_⟩
  · rw [List.append_assoc]
    exact s.before_append n
  · exact monotone_nat_of_le_succ (fun k => s.line_le_succ k) hi
  · have hwhole : s.before n = text := by
      rw [before, ← (next_of_eof heof).1]
      exact s.passed_append n
    rw [s.line_token_after, hwhole, late, heof]
    rfl

/-- A string over two lines is on its first, and one that is not closed is on its last. -/
example :
    ((ofClusters [['"'], ['\r', '\n'], ['"'], ['\n'], ['"'], ['\r'], ['a']]).tokens.map (·.line)) =
      [1, 4, 4] := by
  decide +kernel

end Scanner

end LoxMachine
