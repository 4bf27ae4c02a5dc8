import LoxMachine.Proofs.Compile.Accept

/-!
# Scanned tokens

The tokens of a text end with its only end token, and their texts fit their kinds.
-/

namespace LoxMachine

namespace TokenKind

theorem lookup_spec {α β : Type} [BEq α] [LawfulBEq α] {a : α} {b : β} {l : List (α × β)}
    (h : l.lookup a = some b) : (a, b) ∈ l := by
  induction l with
  | nil => cases h
  | cons x l ih =>
      rw [List.lookup_cons] at h
      split at h
      · rename_i heq
        obtain rfl := Option.some.inj h
        rw [eq_of_beq heq]
        exact List.mem_cons_self
      · exact List.mem_cons_of_mem _ (ih h)

theorem ofWord_cases (word : List Text.Cluster) :
    TokenKind.ofWord word = .identifier ∧ keywords.lookup (String.ofList word.flatten) = none ∨
      (String.ofList word.flatten, TokenKind.ofWord word) ∈ keywords := by
  rw [TokenKind.ofWord]
  cases h : keywords.lookup (String.ofList word.flatten) with
  | none => exact .inl ⟨rfl, rfl⟩
  | some kind => exact .inr (lookup_spec h)

end TokenKind

namespace Scanner

open Text

theorem single?_kind {g : Cluster} {kind : TokenKind} (h : TokenKind.single? g = some kind) :
    kind ≠ .identifier ∧ kind ≠ .kwThis ∧ kind ≠ .eof := by
  unfold TokenKind.single? at h
  split at h <;> first | (obtain rfl := Option.some.inj h; decide) | cases h

theorem extensible?_kind {g : Cluster} {alone extended : TokenKind}
    (h : TokenKind.extensible? g = some (alone, extended)) :
    (alone ≠ .identifier ∧ alone ≠ .kwThis ∧ alone ≠ .eof) ∧
      extended ≠ .identifier ∧ extended ≠ .kwThis ∧ extended ≠ .eof := by
  unfold TokenKind.extensible? at h
  split at h <;>
    first | (obtain ⟨rfl, rfl⟩ := Prod.mk.inj (Option.some.inj h); decide) | cases h

theorem proper_of_kind {t : Token} (h : t.kind ≠ .identifier ∧ t.kind ≠ .kwThis) : t.Proper :=
  ⟨fun hk => absurd hk h.1, fun hk => absurd hk h.2⟩

theorem proper_word {word : List Cluster} (hne : String.ofList word.flatten ≠ "") (line : Nat) :
    Token.Proper ⟨.ofWord word, word, line⟩ := by
  have hcases := TokenKind.ofWord_cases word
  have htext : Token.text ⟨.ofWord word, word, line⟩ = String.ofList word.flatten := rfl
  generalize String.ofList word.flatten = text at hne hcases htext
  refine ⟨fun hk => ⟨htext ▸ hne, fun hsuper => ?_, fun hthis => ?_⟩, fun hk => ?_⟩
  · change TokenKind.ofWord word = _ at hk
    rw [hk, ← htext, hsuper] at hcases
    exact absurd hcases (by decide)
  · change TokenKind.ofWord word = _ at hk
    rw [hk, ← htext, hthis] at hcases
    exact absurd hcases (by decide)
  · change TokenKind.ofWord word = _ at hk
    rw [hk, ← htext] at hcases
    simpa [TokenKind.keywords] using hcases

theorem proper_readWord {g : Cluster} (hg : g.isLetter = true) (rest : List Cluster) (line : Nat) :
    (readWord (g :: rest) line).1.Proper := by
  obtain ⟨c, rfl⟩ : ∃ c, g = [c] := by
    unfold Cluster.isLetter at hg
    split at hg
    · exact ⟨_, rfl⟩
    · cases hg
  have hword : ([c] :: rest).takeWhile Cluster.isWordPart =
      [c] :: rest.takeWhile Cluster.isWordPart :=
    List.takeWhile_cons_of_pos (by rw [Cluster.isWordPart, hg]; rfl)
  rw [readWord, hword]
  exact proper_word (by simp [← String.toList_inj]) line

theorem proper_read (s : Scanner) : s.read.1.Proper := by
  obtain ⟨_ | ⟨g, rest⟩, line⟩ := s
  · exact proper_of_kind ⟨by simp [read, take], by simp [read, take]⟩
  rw [read]
  split
  · rename_i hkind
    have := single?_kind hkind
    exact proper_of_kind ⟨this.1, this.2.1⟩
  split
  · rename_i hkind
    obtain ⟨halone, hextended⟩ := extensible?_kind hkind
    split
    · exact proper_of_kind ⟨hextended.1, hextended.2.1⟩
    · exact proper_of_kind ⟨halone.1, halone.2.1⟩
  split
  · rw [readString]
    split <;> exact proper_of_kind ⟨by simp [take], by simp [take]⟩
  split
  · rw [readNumber]
    split
    · split <;> exact proper_of_kind ⟨by simp [take], by simp [take]⟩
    · exact proper_of_kind ⟨by simp [take], by simp [take]⟩
  split
  · exact proper_readWord (by assumption) rest line
  · exact proper_of_kind ⟨by simp [take], by simp [take]⟩

theorem proper_next (s : Scanner) : s.next.1.Proper :=
  proper_read s.skipBlanks

/-- The tokens of a text fit their kinds, and the last one alone is an end token. -/
theorem tokens_spec (s : Scanner) : (∀ t ∈ s.tokens, t.Proper) ∧ EndOnce s.tokens := by
  rw [tokens_eq]
  split
  · rename_i h
    exact ⟨by simpa using proper_next s, [], _, rfl, h, nofun⟩
  · rename_i h
    obtain ⟨hproper, inner, last, heq, hlast, hinner⟩ := tokens_spec s.next.2
    refine ⟨fun t ht => ?_, s.next.1 :: inner, last, by rw [heq]; rfl, hlast, fun t ht => ?_⟩
    · rcases List.mem_cons.mp ht with rfl | ht
      · exact proper_next s
      · exact hproper t ht
    · rcases List.mem_cons.mp ht with rfl | ht
      · exact h
      · exact hinner t ht
termination_by s.rest.length
decreasing_by exact next_shorter (by assumption)

end Scanner

end LoxMachine
