import LoxMachine.Proofs.Scanning.Longest

/-!
# Tokens written down again

A token is read back from its clusters, whatever text it was found in, if a blank or a newline follows or
nothing at all: no token but a string has a blank in it, and a string ends with its first quote
(`Spells.length_le_of_stop`). So tokens of any texts, written one behind the other with blanks and newlines
between them, are the tokens of what is written.

Main statement: `respaced`.
-/

namespace LoxMachine

open Text

namespace Vocabulary

/-! ## Writing -/

/-- A space, a tab or a newline. -/
def Blank (g : Cluster) : Prop :=
  Cluster.isBlank g = true ∨ Cluster.isNewline g = true

/-- A text that is some tokens, with at least one blank or newline between each two of them. -/
inductive Spaced : List Token → List Cluster → Prop where
  | nothing : Spaced [] []
  | single (t : Token) : Spaced [t] t.lexeme
  | cons {t t' ts sep text} : sep ≠ [] → (∀ g ∈ sep, Blank g) → Spaced (t' :: ts) text →
      Spaced (t :: t' :: ts) (t.lexeme ++ (sep ++ text))

/-- A token that is found in some text, neither an error nor the end. -/
structure Printable (t : Token) : Prop where
  found : ∃ text, t ∈ (Scanner.ofClusters text).tokens
  not_eof : t.kind ≠ .eof
  not_error : ∀ cause, t.kind ≠ .error cause

/-- What may stand behind a token without being read into it. -/
def Stops (rest : List Cluster) : Prop :=
  ∀ g ∈ rest.head?, Blank g

section Respacing

variable {text lexeme lexeme' rest sep gap : List Cluster} {kind kind' : TokenKind} {g : Cluster}
  {t : Token} {ts : List Token}

/-! ## Blanks and tokens -/

theorem Blank.cases (h : Blank g) : g = [' '] ∨ g = ['\t'] ∨ g = ['\n'] ∨ g = ['\r'] ∨ g = ['\r', '\n'] := by
  simpa [Blank, Cluster.isBlank, Cluster.isNewline, or_assoc] using h

theorem Blank.not_letter (h : Blank g) : ¬ Letter g := by
  rw [← isLetter_iff]
  rcases h.cases with rfl | rfl | rfl | rfl | rfl
  all_goals nofun

theorem Blank.not_digit (h : Blank g) : ¬ Digit g := by
  rw [← isDigit_iff]
  rcases h.cases with rfl | rfl | rfl | rfl | rfl
  all_goals nofun

theorem Blank.not_punctuation (h : Blank g) : TokenKind.single? g = none ∧ TokenKind.extensible? g = none := by
  rcases h.cases with rfl | rfl | rfl | rfl | rfl
  all_goals exact ⟨rfl, rfl⟩

theorem Blank.ne_quote (h : Blank g) : g ≠ ['"'] := by
  rcases h.cases with rfl | rfl | rfl | rfl | rfl
  all_goals decide

/-- No token but a string has a blank in it. -/
theorem Spells.not_blank (h : Spells kind lexeme) (hkind : kind ≠ .string) : ∀ g ∈ lexeme, ¬ Blank g := by
  have hword {word : List Cluster} (hw : Word word) : ∀ g ∈ word, ¬ Blank g := by
    obtain ⟨x, rest, rfl, hx, hrest⟩ := hw
    intro g hg hblank
    rcases List.mem_cons.mp hg with rfl | hg
    · exact hblank.not_letter hx
    · exact (hrest g hg).elim hblank.not_letter hblank.not_digit
  have hdigits {digits : List Cluster} (hd : Digits digits) : ∀ g ∈ digits, ¬ Blank g :=
    fun g hg hblank => hblank.not_digit (hd.2 g hg)
  cases h with
  | fixed hspelling =>
      rcases spelling_cases hspelling with ⟨x, htext, hx⟩ | ⟨x, _, _, hx, ⟨htext, -⟩ | ⟨htext, -⟩⟩ | hmem
      · rw [htext]
        intro g hg hblank
        rw [List.mem_singleton.mp hg] at hblank
        cases hblank.not_punctuation.1.symm.trans hx
      · rw [htext]
        intro g hg hblank
        rw [List.mem_singleton.mp hg] at hblank
        cases hblank.not_punctuation.2.symm.trans hx
      · rw [htext]
        intro g hg hblank
        rcases List.mem_cons.mp hg with rfl | hg
        · cases hblank.not_punctuation.2.symm.trans hx
        · rw [List.mem_singleton.mp hg] at hblank
          cases hblank.not_punctuation.2
      · exact hword (word_of_keyword hmem)
  | identifier hw => exact hword hw
  | string => exact absurd rfl hkind
  | number h =>
      obtain ⟨whole, hwhole, rfl | ⟨fraction, hfraction, rfl⟩⟩ := h
      · exact hdigits hwhole
      · intro g hg hblank
        rcases List.mem_append.mp hg with hg | hg
        · exact hdigits hwhole g hg hblank
        · rcases List.mem_cons.mp hg with rfl | hg
          · cases hblank.not_punctuation.1
          · exact hdigits hfraction g hg hblank

/-- A token ends where a blank follows. -/
theorem Spells.length_le_of_stop (h : Spells kind lexeme) (hstop : Stops rest) (h' : Spells kind' lexeme')
    (hstart : lexeme' <+: lexeme ++ rest) : lexeme'.length ≤ lexeme.length := by
  have hown : lexeme <+: lexeme ++ rest := List.prefix_append _ _
  obtain ⟨g, l, rfl⟩ := List.exists_cons_of_ne_nil h.ne_nil
  obtain ⟨l', rfl, hl'⟩ := h'.cons_of_start hstart
  by_cases hstring : kind' = .string
  · subst hstring
    have hquote := h'.quote_of_string
    subst hquote
    obtain ⟨⟨body, hbody, rfl⟩, -⟩ := h.of_quote
    obtain ⟨⟨body', hbody', rfl⟩, -⟩ := h'.of_quote
    have hl := (List.cons_prefix_cons.mp hown).2
    rw [((quote_prefix_iff hbody).mp hl).1, ((quote_prefix_iff hbody').mp hl').1]
  · by_contra hlt
    obtain ⟨more, hmore⟩ := List.prefix_of_prefix_length_le hown hstart (Nat.le_of_not_le hlt)
    cases more with
    | nil =>
        rw [← hmore, List.append_nil] at hlt
        exact hlt (Nat.le_refl _)
    | cons x more =>
        obtain ⟨z, hz⟩ := hstart
        rw [← hmore, List.append_assoc] at hz
        have hhead : rest.head? = some x := by
          rw [← List.append_cancel_left hz]
          rfl
        refine h'.not_blank hstring x ?_ (hstop x hhead)
        rw [← hmore]
        simp

theorem Spells.takes (h : Spells kind lexeme) (hstop : Stops rest) : Takes (lexeme ++ rest) kind lexeme :=
  .longest h (List.prefix_append _ _) fun _ _ h' hstart => h.length_le_of_stop hstop h' hstart

theorem Spells.solid (h : Spells kind lexeme) (hstop : Stops rest) : Scanner.Solid (lexeme ++ rest) := by
  obtain ⟨g, l, rfl⟩ := List.exists_cons_of_ne_nil h.ne_nil
  refine ⟨fun x hx => ?_, fun hcomment => ?_⟩
  · obtain rfl := Option.some.inj hx
    have hblank : ¬ Blank g := by
      by_cases hkind : kind = .string
      · subst hkind
        rw [h.quote_of_string]
        exact fun hblank => hblank.ne_quote rfl
      · exact h.not_blank hkind g List.mem_cons_self
    rw [Blank, not_or] at hblank
    simpa using hblank
  · obtain ⟨hg, hhead⟩ := hcomment
    obtain rfl := Option.some.inj hg
    obtain ⟨rfl, -⟩ := h.of_single (g := ['/']) rfl
    have hblank := hstop _ hhead
    cases hblank.not_punctuation.1

theorem gap_of_blanks (h : ∀ g ∈ gap, Blank g) (rest : List Cluster) : Scanner.Gap rest gap := by
  induction gap with
  | nil => exact .nothing
  | cons g gap ih =>
      have hgap := ih fun x hx => h x (List.mem_cons_of_mem _ hx)
      rcases h g List.mem_cons_self with hg | hg
      · exact .blank hg hgap
      · exact .newline hg hgap

theorem Printable.spells (h : Printable t) : Spells t.kind t.lexeme := by
  obtain ⟨text, ht⟩ := h.found
  rcases (lexed_tokens (Scanner.ofClusters text)).takes t.form (List.mem_map_of_mem ht) with heof | ⟨_, htakes⟩
  · exact absurd (Prod.mk.inj heof).1 h.not_eof
  · have hnot := h.not_error
    change Takes _ t.kind t.lexeme at htakes
    generalize t.kind = kind, t.lexeme = lexeme at htakes hnot
    cases htakes with
    | longest hs => exact hs
    | unterminated | unexpected => exact absurd rfl (hnot _)

/-! ## Reading back -/

theorem Spaced.lexed (h : Spaced ts text) (hts : ∀ t ∈ ts, Printable t) {lead trail : List Cluster}
    (hlead : ∀ g ∈ lead, Blank g) (htrail : ∀ g ∈ trail, Blank g) :
    Lexed (lead ++ (text ++ trail)) (ts.map Token.form ++ [(.eof, [])]) := by
  induction h generalizing lead with
  | nothing =>
      refine .done (gap_of_blanks (fun g hg => ?_) [])
      rcases List.mem_append.mp hg with hg | hg
      · exact hlead g hg
      · exact htrail g hg
  | single t =>
      have hspells := (hts t List.mem_cons_self).spells
      have hstop : Stops trail := fun g hg => htrail g (List.mem_of_mem_head? hg)
      exact .token (gap_of_blanks hlead _) (hspells.solid hstop) (hspells.takes hstop)
        (.done (gap_of_blanks htrail []))
  | @cons t t' ts sep text hsep hblank _ ih =>
      have hspells := (hts t List.mem_cons_self).spells
      have hrest := ih (fun t ht => hts t (List.mem_cons_of_mem _ ht)) hblank
      have hstop : Stops (sep ++ (text ++ trail)) := by
        obtain ⟨g, sep, rfl⟩ := List.exists_cons_of_ne_nil hsep
        rintro x hx
        obtain rfl := Option.some.inj hx
        exact hblank g List.mem_cons_self
      rw [List.append_assoc, List.append_assoc]
      exact .token (gap_of_blanks hlead _) (hspells.solid hstop) (hspells.takes hstop) hrest

end Respacing

/-- Tokens that are written down one behind the other, with blanks or newlines between them, are read back.
So the tokens of a text without errors are those of any text that spaces them otherwise. -/
theorem respaced :
    (∀ ts text lead trail, (∀ t ∈ ts, Printable t) → Spaced ts text → (∀ g ∈ lead, Blank g) →
      (∀ g ∈ trail, Blank g) →
      (Scanner.ofClusters (lead ++ (text ++ trail))).tokens.map Token.form =
        ts.map Token.form ++ [(.eof, [])]) ∧
      (∀ source text lead trail, (∀ t ∈ (Scanner.ofClusters source).tokens, ∀ cause, t.kind ≠ .error cause) →
        Spaced (Scanner.ofClusters source).tokens.dropLast text → (∀ g ∈ lead, Blank g) →
        (∀ g ∈ trail, Blank g) →
        (Scanner.ofClusters (lead ++ (text ++ trail))).tokens.map Token.form =
          (Scanner.ofClusters source).tokens.map Token.form) := by
  refine ⟨fun ts text lead trail hts h hlead htrail => ?_, fun source text lead trail hplain h hlead htrail => ?_⟩
  · exact ((h.lexed hts hlead htrail).unique rfl).symm
  · obtain ⟨-, inner, last, htokens, hlast, hinner⟩ := Scanner.tokens_spec (Scanner.ofClusters source)
    have hend : last.form = (.eof, []) := by
      have hmem : last ∈ (Scanner.ofClusters source).tokens := by simp [htokens]
      rw [Token.form, hlast, Scanner.lexeme_of_eof hmem hlast]
    have hprintable : ∀ t ∈ inner, Printable t := fun t ht => by
      have hmem : t ∈ (Scanner.ofClusters source).tokens := by simp [htokens, ht]
      exact ⟨⟨source, hmem⟩, hinner t ht, hplain t hmem⟩
    rw [htokens, List.dropLast_concat] at h
    rw [htokens, List.map_append, List.map_singleton, hend]
    exact ((h.lexed hprintable hlead htrail).unique rfl).symm

/-- Slashes, a bang, an equals sign and a string with a comment in it. -/
def marks : List Token :=
  [⟨.slash, [['/']], 1⟩, ⟨.slash, [['/']], 1⟩, ⟨.bang, [['!']], 1⟩, ⟨.equal, [['=']], 1⟩,
    ⟨.string, [['"'], ['/'], ['/'], ['\n'], ['"']], 2⟩]

def spacedMarks : List Cluster :=
  [['/'], [' '], ['/'], ['\t'], ['!'], ['\r', '\n'], ['='], [' '], ['"'], ['/'], ['/'], ['\n'], ['"']]

theorem respaced_marks :
    (∀ t ∈ marks, Printable t) ∧ Spaced marks spacedMarks ∧
      (Scanner.ofClusters spacedMarks).tokens.map Token.form = marks.map Token.form ++ [(.eof, [])] ∧
      (Scanner.ofClusters [['-'], ['\n'], ['1'], ['.'], ['5'], ['\t']]).tokens.map Token.form =
        (Scanner.ofClusters [['-'], ['1'], ['.'], ['5']]).tokens.map Token.form := by
  have hblank {g : Cluster} (hg : Cluster.isBlank g = true ∨ Cluster.isNewline g = true) : ∀ x ∈ [g], Blank x := by
    intro x hx
    rwa [List.mem_singleton.mp hx]
  have hprintable : ∀ t ∈ marks, Printable t := by
    -- Each of them is found in one of two texts.
    have hfound : ∀ t ∈ marks, t ∈ (Scanner.ofClusters [['/'], ['!'], ['/'], ['=']]).tokens ∨
        t ∈ (Scanner.ofClusters [['\r'], ['"'], ['/'], ['/'], ['\n'], ['"']]).tokens := by
      decide +kernel
    have hkinds : ∀ t ∈ marks, t.kind ≠ .eof ∧ ∀ cause, t.kind ≠ .error cause := by
      simp [marks]
    intro t ht
    exact ⟨(hfound t ht).elim (⟨_, ·⟩) (⟨_, ·⟩), (hkinds t ht).1, (hkinds t ht).2⟩
  have hspaced : Spaced marks spacedMarks := by
    exact .cons (List.cons_ne_nil [' '] []) (hblank (.inl rfl)) <|
      .cons (List.cons_ne_nil ['\t'] []) (hblank (.inl rfl)) <|
      .cons (List.cons_ne_nil ['\r', '\n'] []) (hblank (.inr rfl)) <|
      .cons (List.cons_ne_nil [' '] []) (hblank (.inl rfl)) (.single _)
  have htokens : (Scanner.ofClusters [['-'], ['1'], ['.'], ['5']]).tokens =
      [⟨.minus, [['-']], 1⟩, ⟨.number, [['1'], ['.'], ['5']], 1⟩, .eof 1] := by
    decide +kernel
  have hplain : ∀ t ∈ (Scanner.ofClusters [['-'], ['1'], ['.'], ['5']]).tokens, ∀ cause, t.kind ≠ .error cause := by
    simp [htokens, Token.eof]
  have hminus : Spaced (Scanner.ofClusters [['-'], ['1'], ['.'], ['5']]).tokens.dropLast
      [['-'], ['\n'], ['1'], ['.'], ['5']] := by
    rw [htokens]
    exact .cons (List.cons_ne_nil ['\n'] []) (hblank (.inr rfl)) (.single _)
  refine ⟨hprintable, hspaced, respaced.1 marks spacedMarks [] [] hprintable hspaced (by simp) (by simp), ?_⟩
  exact respaced.2 [['-'], ['1'], ['.'], ['5']] _ [] [['\t']] hplain hminus (by simp) (hblank (.inl rfl))

end Vocabulary

end LoxMachine
