import Mathlib
import LoxMachine.Proofs.Scanning.Gaps

/-!
# The forms of tokens

What the tokens of the language look like, said of whole lexemes (`Spells`): punctuation and keywords as
they are spelled, identifiers, numbers and strings. Whoever reads from the left needs to know which of
these a cluster can begin (`Spells.begins`).
-/

namespace LoxMachine

open Text

/-! ## Spellings -/

/-- How a token is written that has one spelling only. -/
def TokenKind.spelling? : TokenKind → Option String
  | .leftParen => some "("
  | .rightParen => some ")"
  | .leftBrace => some "\x7b"
  | .rightBrace => some "\x7d"
  | .comma => some ","
  | .dot => some "."
  | .minus => some "-"
  | .plus => some "+"
  | .semicolon => some ";"
  | .slash => some "/"
  | .asterisk => some "*"
  | .bang => some "!"
  | .bangEqual => some "!="
  | .equal => some "="
  | .equalEqual => some "=="
  | .greater => some ">"
  | .greaterEqual => some ">="
  | .less => some "<"
  | .lessEqual => some "<="
  | .kwAnd => some "and"
  | .kwAssert => some "assert"
  | .kwClass => some "class"
  | .kwElse => some "else"
  | .kwFalse => some "false"
  | .kwFor => some "for"
  | .kwFun => some "fun"
  | .kwIf => some "if"
  | .kwNil => some "nil"
  | .kwOr => some "or"
  | .kwPrint => some "print"
  | .kwReturn => some "return"
  | .kwSuper => some "super"
  | .kwThis => some "this"
  | .kwTrue => some "true"
  | .kwVar => some "var"
  | .kwWhile => some "while"
  | .identifier | .string | .number | .error _ | .eof => none

namespace Vocabulary

/-- The clusters of a text in which nothing is attached to any character. -/
def bare (text : String) : List Cluster :=
  text.toList.map ([·])

/-- A digit with nothing attached to it. -/
def Digit (g : Cluster) : Prop :=
  ∃ c : Char, g = [c] ∧ '0' ≤ c ∧ c ≤ '9'

/-- A letter or the underscore, with nothing attached to it. -/
def Letter (g : Cluster) : Prop :=
  ∃ c : Char, g = [c] ∧ ('a' ≤ c ∧ c ≤ 'z' ∨ 'A' ≤ c ∧ c ≤ 'Z' ∨ c = '_')

/-- A letter or underscore, then letters, digits and underscores. -/
def Word (lexeme : List Cluster) : Prop :=
  ∃ g rest, lexeme = g :: rest ∧ Letter g ∧ ∀ x ∈ rest, Letter x ∨ Digit x

/-- At least one digit and no other cluster. -/
def Digits (lexeme : List Cluster) : Prop :=
  lexeme ≠ [] ∧ ∀ g ∈ lexeme, Digit g

/-- Digits, alone or with a point and more digits behind them. -/
def Numeral (lexeme : List Cluster) : Prop :=
  ∃ whole, Digits whole ∧ (lexeme = whole ∨ ∃ fraction, Digits fraction ∧ lexeme = whole ++ ['.'] :: fraction)

/-- The tokens of the language. -/
inductive Spells : TokenKind → List Cluster → Prop where
  | fixed {kind text} : TokenKind.spelling? kind = some text → Spells kind (bare text)
  | identifier {lexeme} : Word lexeme → (∀ kind text, TokenKind.spelling? kind = some text → lexeme ≠ bare text) →
      Spells .identifier lexeme
  | number {lexeme} : Numeral lexeme → Spells .number lexeme
  | string {body} : ['"'] ∉ body → Spells .string (['"'] :: (body ++ [['"']]))

/-! ## Classes of clusters -/

section Classes

variable {g : Cluster} {text : String} {lexeme : List Cluster} {kind : TokenKind}

theorem isDigit_iff : Cluster.isDigit g = true ↔ Digit g := by
  rw [Cluster.isDigit.eq_def]
  split
  · rename_i c
    simp [Digit, Char.isDigit, Char.le_def]
  · rename_i hne
    exact iff_of_false nofun fun ⟨c, hc, _⟩ => hne c hc

theorem isLetter_iff : Cluster.isLetter g = true ↔ Letter g := by
  rw [Cluster.isLetter.eq_def]
  split
  · rename_i c
    simp [Letter, Char.isAlpha, Char.isLower, Char.isUpper, Char.le_def]
    tauto
  · rename_i hne
    refine iff_of_false (by simp) ?_
    rintro ⟨c, hc, -⟩
    exact hne c hc

theorem isWordPart_iff : Cluster.isWordPart g = true ↔ Letter g ∨ Digit g := by
  rw [Cluster.isWordPart, Bool.or_eq_true, isLetter_iff, isDigit_iff]

theorem ofList_flatten_bare (text : String) : String.ofList (bare text).flatten = text := by
  simp [bare, ← List.flatMap_def]

/-- Clusters to which nothing is attached are those of their text. -/
theorem bare_ofList_flatten (h : ∀ g ∈ lexeme, ∃ c, g = [c]) : bare (String.ofList lexeme.flatten) = lexeme := by
  rw [bare, String.toList_ofList]
  induction lexeme with
  | nil => rfl
  | cons g lexeme ih =>
      obtain ⟨c, rfl⟩ := h g List.mem_cons_self
      simpa using ih fun g hg => h g (List.mem_cons_of_mem _ hg)

theorem Letter.single (h : Letter g) : ∃ c, g = [c] :=
  have ⟨c, hc, _⟩ := h
  ⟨c, hc⟩

theorem Digit.single (h : Digit g) : ∃ c, g = [c] :=
  have ⟨c, hc, _⟩ := h
  ⟨c, hc⟩

theorem Word.single (h : Word lexeme) : ∀ g ∈ lexeme, ∃ c, g = [c] := by
  obtain ⟨g, rest, rfl, hg, hrest⟩ := h
  intro x hx
  rcases List.mem_cons.mp hx with rfl | hx
  · exact hg.single
  · rcases hrest x hx with h | h
    · exact h.single
    · exact h.single

/-! ## Punctuation -/

/-- A cluster that begins no word, no number and no string. -/
structure Apart (g : Cluster) : Prop where
  letter : ¬ Letter g
  digit : ¬ Digit g
  quote : g ≠ ['"']

theorem Apart.of_single (h : TokenKind.single? g = some kind) : Apart g := by
  unfold TokenKind.single? at h
  split at h
  all_goals first
    | cases h; done
    | exact ⟨mt isLetter_iff.mpr nofun, mt isDigit_iff.mpr nofun, by decide⟩

theorem Apart.of_extensible {kinds : TokenKind × TokenKind} (h : TokenKind.extensible? g = some kinds) :
    Apart g := by
  unfold TokenKind.extensible? at h
  split at h
  all_goals first
    | cases h; done
    | exact ⟨mt isLetter_iff.mpr nofun, mt isDigit_iff.mpr nofun, by decide⟩

theorem extensible?_of_single (h : TokenKind.single? g = some kind) : TokenKind.extensible? g = none := by
  unfold TokenKind.single? at h
  split at h
  all_goals first
    | cases h; done
    | rfl

theorem spells_of_single (h : TokenKind.single? g = some kind) : Spells kind [g] := by
  obtain ⟨text, hspelling, htext⟩ : ∃ text, kind.spelling? = some text ∧ bare text = [g] := by
    unfold TokenKind.single? at h
    split at h
    all_goals first
      | cases h; done
      | obtain rfl := Option.some.inj h; exact ⟨_, rfl, rfl⟩
  rw [← htext]
  exact .fixed hspelling

theorem spells_of_extensible {alone extended : TokenKind}
    (h : TokenKind.extensible? g = some (alone, extended)) :
    Spells alone [g] ∧ Spells extended [g, ['=']] := by
  obtain ⟨text, text', hspelling, htext, hspelling', htext'⟩ : ∃ text text', alone.spelling? = some text ∧
      bare text = [g] ∧ extended.spelling? = some text' ∧ bare text' = [g, ['=']] := by
    unfold TokenKind.extensible? at h
    split at h
    all_goals first
      | cases h; done
      | obtain ⟨rfl, rfl⟩ := Prod.mk.inj (Option.some.inj h); exact ⟨_, _, rfl, rfl, rfl, rfl⟩
  rw [← htext, ← htext']
  exact ⟨.fixed hspelling, .fixed hspelling'⟩

theorem not_letter_quote : ¬ Letter ['"'] :=
  mt isLetter_iff.mpr nofun

theorem not_digit_quote : ¬ Digit ['"'] :=
  mt isDigit_iff.mpr nofun

theorem Letter.not_digit (h : Letter g) : ¬ Digit g := by
  rintro ⟨c, rfl, hlow, hhigh⟩
  obtain ⟨d, heq, hletter⟩ := h
  obtain rfl : c = d := by simpa using heq
  simp only [Char.le_def, UInt32.le_iff_toNat_le] at hlow hhigh hletter
  have h9 : '9'.val.toNat = 57 := rfl
  have ha : 'a'.val.toNat = 97 := rfl
  have hA : 'A'.val.toNat = 65 := rfl
  rcases hletter with hletter | hletter | rfl
  · omega
  · omega
  · exact absurd hhigh (by decide)

/-! ## Words -/

theorem spelling_of_keyword (h : (text, kind) ∈ TokenKind.keywords) : kind.spelling? = some text := by
  have hall : ∀ x ∈ TokenKind.keywords, x.2.spelling? = some x.1 := by decide
  exact hall _ h

theorem word_of_keyword (h : (text, kind) ∈ TokenKind.keywords) : Word (bare text) := by
  have hall : ∀ x ∈ TokenKind.keywords, (bare x.1).head?.any Cluster.isLetter = true ∧
      (bare x.1).all Cluster.isWordPart = true := by
    decide +kernel
  obtain ⟨hhead, hparts⟩ := hall _ h
  cases hword : bare text with
  | nil =>
      rw [hword] at hhead
      cases hhead
  | cons g rest =>
      rw [hword] at hhead hparts
      refine ⟨g, rest, rfl, isLetter_iff.mp hhead, fun x hx => isWordPart_iff.mp ?_⟩
      exact List.all_eq_true.mp hparts x (List.mem_cons_of_mem _ hx)

theorem not_keyword_identifier : (text, TokenKind.identifier) ∉ TokenKind.keywords := by
  intro h
  cases spelling_of_keyword h

/-- What has one spelling is punctuation or a keyword. -/
theorem spelling_cases (h : kind.spelling? = some text) :
    (∃ g, bare text = [g] ∧ TokenKind.single? g = some kind) ∨
      (∃ g alone extended, TokenKind.extensible? g = some (alone, extended) ∧
        (bare text = [g] ∧ kind = alone ∨ bare text = [g, ['=']] ∧ kind = extended)) ∨
      (text, kind) ∈ TokenKind.keywords := by
  cases kind
  case leftParen | rightParen | leftBrace | rightBrace | comma | dot | minus | plus | semicolon | slash | asterisk =>
    obtain rfl := Option.some.inj h
    exact .inl ⟨_, rfl, rfl⟩
  case bang | equal | greater | less =>
    obtain rfl := Option.some.inj h
    exact .inr (.inl ⟨_, _, _, rfl, .inl ⟨rfl, rfl⟩⟩)
  case bangEqual | equalEqual | greaterEqual | lessEqual =>
    obtain rfl := Option.some.inj h
    exact .inr (.inl ⟨_, _, _, rfl, .inr ⟨rfl, rfl⟩⟩)
  case identifier | string | number | error | eof => cases h
  all_goals
    obtain rfl := Option.some.inj h
    exact .inr (.inr (by decide))

/-- The kind of a word, as it is looked up, is the one of its spelling. -/
theorem spells_ofWord (h : Word lexeme) : Spells (TokenKind.ofWord lexeme) lexeme := by
  have hbare := bare_ofList_flatten h.single
  rcases TokenKind.ofWord_cases lexeme with ⟨hkind, hnone⟩ | hmem
  · rw [hkind]
    refine .identifier h fun kind text hspelling heq => ?_
    obtain ⟨g, rest, hword, hg, -⟩ := h
    rw [heq, ofList_flatten_bare] at hnone
    rcases spelling_cases hspelling with ⟨g', htext, hg'⟩ | ⟨g', alone, extended, hg', htext⟩ | hmem
    · have hsame : g = g' := by
        rw [← heq, hword] at htext
        exact (List.cons.inj htext).1
      subst hsame
      exact (Apart.of_single hg').letter hg
    · have hsame : g = g' := by
        rw [← heq, hword] at htext
        rcases htext with ⟨htext, -⟩ | ⟨htext, -⟩ <;> exact (List.cons.inj htext).1
      subst hsame
      exact (Apart.of_extensible hg').letter hg
    · have := List.lookup_eq_none_iff.mp hnone _ hmem
      simp at this
  · have := Spells.fixed (spelling_of_keyword hmem)
    rwa [hbare] at this

/-- The look-up finds the keyword that is spelled so, and no other one. -/
theorem ofWord_bare (h : (text, kind) ∈ TokenKind.keywords) : TokenKind.ofWord (bare text) = kind := by
  have hall : ∀ x ∈ TokenKind.keywords, TokenKind.keywords.lookup x.1 = some x.2 := by decide
  rw [TokenKind.ofWord, ofList_flatten_bare, hall _ h]
  rfl

theorem ofWord_of_identifier
    (h : ∀ kind text, TokenKind.spelling? kind = some text → lexeme ≠ bare text) (hword : Word lexeme) :
    TokenKind.ofWord lexeme = .identifier := by
  rcases TokenKind.ofWord_cases lexeme with ⟨hkind, -⟩ | hmem
  · exact hkind
  · exact absurd (bare_ofList_flatten hword.single).symm (h _ _ (spelling_of_keyword hmem))

end Classes

/-! ## What a cluster begins -/

section Begins

variable {g : Cluster} {kind : TokenKind} {l lexeme : List Cluster}

theorem Spells.ne_nil (h : Spells kind lexeme) : lexeme ≠ [] := by
  cases h with
  | fixed h =>
      rcases spelling_cases h with ⟨g, htext, -⟩ | ⟨g, _, _, -, ⟨htext, -⟩ | ⟨htext, -⟩⟩ | hmem
      · simp [htext]
      · simp [htext]
      · simp [htext]
      · obtain ⟨g, rest, htext, -⟩ := word_of_keyword hmem
        simp [htext]
  | identifier h =>
      obtain ⟨g, rest, rfl, -⟩ := h
      exact List.cons_ne_nil _ _
  | number h =>
      obtain ⟨whole, ⟨hne, -⟩, rfl | ⟨fraction, -, rfl⟩⟩ := h
      · exact hne
      · simp
  | string => exact List.cons_ne_nil _ _

/-- The first cluster of a token decides what is behind it. -/
theorem Spells.begins (h : Spells kind (g :: l)) :
    (TokenKind.single? g = some kind ∧ l = []) ∨
      (∃ alone extended, TokenKind.extensible? g = some (alone, extended) ∧
        (l = [] ∧ kind = alone ∨ l = [['=']] ∧ kind = extended)) ∨
      (Word (g :: l) ∧ kind = TokenKind.ofWord (g :: l)) ∨
      (Numeral (g :: l) ∧ kind = .number) ∨
      g = ['"'] ∧ (∃ body, ['"'] ∉ body ∧ l = body ++ [['"']]) ∧ kind = .string := by
  generalize heq : g :: l = lexeme at h
  cases h with
  | fixed hspelling =>
      rcases spelling_cases hspelling with ⟨g', htext, hg'⟩ | ⟨g', alone, extended, hg', htext⟩ | hmem
      · rw [htext] at heq
        obtain ⟨rfl, rfl⟩ := List.cons.inj heq
        exact .inl ⟨hg', rfl⟩
      · refine .inr (.inl ?_)
        rcases htext with ⟨htext, hkind⟩ | ⟨htext, hkind⟩
        · rw [htext] at heq
          obtain ⟨rfl, rfl⟩ := List.cons.inj heq
          exact ⟨alone, extended, hg', .inl ⟨rfl, hkind⟩⟩
        · rw [htext] at heq
          obtain ⟨rfl, rfl⟩ := List.cons.inj heq
          exact ⟨alone, extended, hg', .inr ⟨rfl, hkind⟩⟩
      · exact .inr (.inr (.inl ⟨word_of_keyword hmem, (ofWord_bare hmem).symm⟩))
  | identifier hword hother => exact .inr (.inr (.inl ⟨hword, (ofWord_of_identifier hother hword).symm⟩))
  | number hnumeral => exact .inr (.inr (.inr (.inl ⟨hnumeral, rfl⟩)))
  | @string body hbody =>
      obtain ⟨rfl, rfl⟩ := List.cons.inj heq
      exact .inr (.inr (.inr (.inr ⟨rfl, ⟨body, hbody, rfl⟩, rfl⟩)))

theorem Numeral.digit (h : Numeral (g :: l)) : Digit g := by
  obtain ⟨whole, ⟨hne, hall⟩, hshape⟩ := h
  cases whole with
  | nil => exact absurd rfl hne
  | cons x whole =>
      have hx := hall x List.mem_cons_self
      rcases hshape with heq | ⟨fraction, -, heq⟩
      · rwa [(List.cons.inj heq).1]
      · rwa [(List.cons.inj heq).1]

theorem Word.letter (h : Word (g :: l)) : Letter g ∧ ∀ x ∈ l, Letter x ∨ Digit x := by
  obtain ⟨x, rest, heq, hx, hrest⟩ := h
  obtain ⟨rfl, rfl⟩ := List.cons.inj heq
  exact ⟨hx, hrest⟩

section

variable {alone extended : TokenKind}

theorem Spells.of_single {k : TokenKind} (h : Spells kind (g :: l)) (hg : TokenKind.single? g = some k) :
    l = [] ∧ kind = k := by
  have hapart := Apart.of_single hg
  have hextensible := extensible?_of_single hg
  rcases h.begins with ⟨hk, hl⟩ | ⟨_, _, hx, -⟩ | ⟨hw, -⟩ | ⟨hn, -⟩ | ⟨hq, -⟩
  · exact ⟨hl, Option.some.inj (hk.symm.trans hg)⟩
  · cases hextensible.symm.trans hx
  · exact absurd hw.letter.1 hapart.letter
  · exact absurd hn.digit hapart.digit
  · exact absurd hq hapart.quote

theorem Spells.of_extensible (h : Spells kind (g :: l))
    (hg : TokenKind.extensible? g = some (alone, extended)) :
    l = [] ∧ kind = alone ∨ l = [['=']] ∧ kind = extended := by
  have hapart := Apart.of_extensible hg
  rcases h.begins with ⟨hk, -⟩ | ⟨a, b, hx, hcases⟩ | ⟨hw, -⟩ | ⟨hn, -⟩ | ⟨hq, -⟩
  · cases (extensible?_of_single hk).symm.trans hg
  · obtain ⟨rfl, rfl⟩ := Prod.mk.inj (Option.some.inj (hx.symm.trans hg))
    exact hcases
  · exact absurd hw.letter.1 hapart.letter
  · exact absurd hn.digit hapart.digit
  · exact absurd hq hapart.quote

theorem Spells.of_letter (h : Spells kind (g :: l)) (hg : Letter g) :
    (∀ x ∈ l, Letter x ∨ Digit x) ∧ kind = TokenKind.ofWord (g :: l) := by
  rcases h.begins with ⟨hk, -⟩ | ⟨_, _, hx, -⟩ | ⟨hw, hkind⟩ | ⟨hn, -⟩ | ⟨rfl, -⟩
  · exact absurd hg (Apart.of_single hk).letter
  · exact absurd hg (Apart.of_extensible hx).letter
  · exact ⟨hw.letter.2, hkind⟩
  · exact absurd hn.digit hg.not_digit
  · exact absurd hg not_letter_quote

theorem Spells.of_digit (h : Spells kind (g :: l)) (hg : Digit g) : Numeral (g :: l) ∧ kind = .number := by
  rcases h.begins with ⟨hk, -⟩ | ⟨_, _, hx, -⟩ | ⟨hw, -⟩ | hn | ⟨rfl, -⟩
  · exact absurd hg (Apart.of_single hk).digit
  · exact absurd hg (Apart.of_extensible hx).digit
  · exact absurd hg hw.letter.1.not_digit
  · exact hn
  · exact absurd hg not_digit_quote

theorem Spells.of_quote (h : Spells kind (['"'] :: l)) :
    (∃ body, ['"'] ∉ body ∧ l = body ++ [['"']]) ∧ kind = .string := by
  rcases h.begins with ⟨hk, -⟩ | ⟨_, _, hx, -⟩ | ⟨hw, -⟩ | ⟨hn, -⟩ | ⟨-, hstring⟩
  · cases hk
  · cases hx
  · exact absurd hw.letter.1 not_letter_quote
  · exact absurd hn.digit not_digit_quote
  · exact hstring

end

theorem Spells.quote_of_string (h : Spells .string (g :: l)) : g = ['"'] := by
  generalize heq : g :: l = lexeme at h
  cases h with
  | fixed hspelling => cases hspelling
  | string => exact (List.cons.inj heq).1

/-- A lexeme has one kind. -/
theorem Spells.kind_unique {kind' : TokenKind} (h : Spells kind lexeme) (h' : Spells kind' lexeme) :
    kind = kind' := by
  cases lexeme with
  | nil => exact absurd rfl h.ne_nil
  | cons g l =>
      rcases h.begins with ⟨hk, -⟩ | ⟨_, _, hx, hcases⟩ | ⟨hw, rfl⟩ | ⟨hn, rfl⟩ | ⟨rfl, -, rfl⟩
      · exact (h'.of_single hk).2.symm
      · rcases hcases with ⟨rfl, rfl⟩ | ⟨rfl, rfl⟩
        · rcases h'.of_extensible hx with ⟨-, rfl⟩ | ⟨hl, -⟩
          · rfl
          · cases hl
        · rcases h'.of_extensible hx with ⟨hl, -⟩ | ⟨-, rfl⟩
          · cases hl
          · rfl
      · exact (h'.of_letter hw.letter.1).2.symm
      · exact (h'.of_digit hn.digit).2.symm
      · exact h'.of_quote.2.symm

end Begins

end Vocabulary

end LoxMachine
