import LoxMachine.Proofs.Scanning.Vocabulary

/-!
# The longest token

A lexer that is told nothing but the forms of tokens skips the gap in front and takes the longest token
that the text begins with (`Takes`). There is one way to do this to the end of a text (`Lexed.unique`),
and the scanner does it (`lexed_tokens`).

Main statement: `lexed_iff`.
-/

namespace LoxMachine

open Text

/-- A token without its place. -/
def Token.form (t : Token) : TokenKind × List Cluster :=
  (t.kind, t.lexeme)

namespace Vocabulary

/-! ## A lexer that compares all tokens -/

/-- What a lexer takes from the beginning of a text: the longest token; or else one cluster, or all if it
is the quote of a string that is not closed. -/
inductive Takes (text : List Cluster) : TokenKind → List Cluster → Prop where
  | longest {kind lexeme} : Spells kind lexeme → lexeme <+: text →
      (∀ kind' lexeme', Spells kind' lexeme' → lexeme' <+: text → lexeme'.length ≤ lexeme.length) →
      Takes text kind lexeme
  | unterminated {rest} : text = ['"'] :: rest → ['"'] ∉ rest →
      Takes text (.error .unterminatedString) text
  | unexpected {g rest} : text = g :: rest → g ≠ ['"'] →
      (∀ kind lexeme, Spells kind lexeme → ¬ lexeme <+: text) →
      Takes text (.error .unexpectedCharacter) [g]

/-- The kinds and lexemes that such a lexer finds in a text, the end among them. -/
inductive Lexed : List Cluster → List (TokenKind × List Cluster) → Prop where
  | done {gap} : Scanner.Gap [] gap → Lexed gap [(.eof, [])]
  | token {gap kind lexeme rest ts} : Scanner.Gap (lexeme ++ rest) gap → Scanner.Solid (lexeme ++ rest) →
      Takes (lexeme ++ rest) kind lexeme → Lexed rest ts →
      Lexed (gap ++ (lexeme ++ rest)) ((kind, lexeme) :: ts)

section Takes

variable {text l rest lexeme lexeme' : List Cluster} {kind kind' : TokenKind} {g : Cluster} {line : Nat}

theorem Spells.cons_of_start (h : Spells kind lexeme) (hstart : lexeme <+: g :: rest) :
    ∃ l, lexeme = g :: l ∧ l <+: rest := by
  cases lexeme with
  | nil => exact absurd rfl h.ne_nil
  | cons x l =>
      obtain ⟨rfl, hl⟩ := List.cons_prefix_cons.mp hstart
      exact ⟨l, rfl, hl⟩

/-- The longest of the tokens with the first cluster of the text. -/
theorem Takes.of_longest (h : Spells kind (g :: l)) (hstart : l <+: rest)
    (hmax : ∀ kind' l', Spells kind' (g :: l') → l' <+: rest → l'.length ≤ l.length) :
    Takes (g :: rest) kind (g :: l) := by
  refine .longest h (List.cons_prefix_cons.mpr ⟨rfl, hstart⟩) fun kind' lexeme' h' hstart' => ?_
  obtain ⟨l', rfl, hl'⟩ := h'.cons_of_start hstart'
  exact Nat.succ_le_succ (hmax kind' l' h' hl')

/-- A string that begins a text ends at the next quote. -/
theorem quote_prefix_iff {body : List Cluster} (hbody : ['"'] ∉ body) :
    body ++ [['"']] <+: text ↔ body = text.takeWhile (· != ['"']) ∧ ['"'] ∈ text := by
  have hall : ∀ x ∈ body, (x != ['"']) = true := fun x hx => by
    rw [bne_iff_ne]
    rintro rfl
    exact hbody hx
  constructor
  · rintro ⟨rest, rfl⟩
    rw [List.append_assoc, List.takeWhile_append_of_pos hall]
    simp
  · rintro ⟨heq, hmem⟩
    have hsplit := List.takeWhile_append_dropWhile (p := (· != ['"'])) (l := text)
    rw [← heq] at hsplit
    cases hdrop : text.dropWhile (· != ['"']) with
    | nil =>
        rw [hdrop, List.append_nil] at hsplit
        rw [← hsplit] at hmem
        exact absurd hmem hbody
    | cons close rest =>
        have hclose : close = ['"'] := by
          have := List.head?_dropWhile_not (· != ['"']) text
          rw [hdrop] at this
          simpa using this
        refine ⟨rest, ?_⟩
        rw [List.append_assoc, List.singleton_append, ← hclose, ← hdrop, hsplit]

theorem Takes.ne_nil (h : Takes text kind lexeme) : text ≠ [] := by
  cases h with
  | longest hs hstart =>
      rintro rfl
      exact hs.ne_nil (List.prefix_nil.mp hstart)
  | unterminated htext =>
      rw [htext]
      exact List.cons_ne_nil _ _
  | unexpected htext =>
      rw [htext]
      exact List.cons_ne_nil _ _

theorem takes_unique (h : Takes text kind lexeme) (h' : Takes text kind' lexeme') :
    kind = kind' ∧ lexeme = lexeme' := by
  cases h with
  | longest hs hstart hmax =>
      cases h' with
      | longest hs' hstart' hmax' =>
          have hlength := Nat.le_antisymm (hmax' _ _ hs hstart) (hmax _ _ hs' hstart')
          have heq : lexeme = lexeme' := by
            obtain ⟨z, hz⟩ := hstart
            obtain ⟨z', hz'⟩ := hstart'
            exact (List.append_inj (hz.trans hz'.symm) hlength).1
          subst heq
          exact ⟨hs.kind_unique hs', rfl⟩
      | unterminated htext hnot =>
          subst htext
          obtain ⟨l, rfl, hl⟩ := hs.cons_of_start hstart
          obtain ⟨⟨body, hbody, rfl⟩, -⟩ := hs.of_quote
          exact absurd ((quote_prefix_iff hbody).mp hl).2 hnot
      | unexpected _ _ hnone => exact absurd hstart (hnone _ _ hs)
  | unterminated htext hnot =>
      subst htext
      cases h' with
      | longest hs hstart =>
          obtain ⟨l, rfl, hl⟩ := hs.cons_of_start hstart
          obtain ⟨⟨body, hbody, rfl⟩, -⟩ := hs.of_quote
          exact absurd ((quote_prefix_iff hbody).mp hl).2 hnot
      | unterminated => exact ⟨rfl, rfl⟩
      | unexpected heq hne => exact absurd (List.cons.inj heq).1.symm hne
  | unexpected htext hne hnone =>
      subst htext
      cases h' with
      | longest hs hstart => exact absurd hstart (hnone _ _ hs)
      | unterminated heq => exact absurd (List.cons.inj heq).1 hne
      | unexpected heq => exact ⟨rfl, by rw [(List.cons.inj heq).1]⟩

/-! ## The scanner takes the longest token -/

/-- A scanner answers with what the lexer takes from a text. -/
def TakesAs (text : List Cluster) (x : Token × Scanner) : Prop :=
  Takes text x.1.kind x.1.lexeme

theorem length_le_takeWhile {p : Cluster → Bool} (hall : ∀ x ∈ l, p x = true) (hstart : l <+: text) :
    l.length ≤ (text.takeWhile p).length := by
  obtain ⟨z, rfl⟩ := hstart
  rw [List.takeWhile_append_of_pos hall, List.length_append]
  exact Nat.le_add_right _ _

theorem digits_takeWhile (hg : Digit g) (rest : List Cluster) :
    Digits ((g :: rest).takeWhile Cluster.isDigit) := by
  refine ⟨?_, fun x hx => isDigit_iff.mp (List.mem_takeWhile_imp hx)⟩
  rw [List.takeWhile_cons_of_pos (isDigit_iff.mpr hg)]
  exact List.cons_ne_nil _ _

/-- Where a numeral with a point begins, the digits in front of the point are all that begin there. -/
theorem split_at_point {whole fraction : List Cluster} (hwhole : Digits whole)
    (hstart : whole ++ ['.'] :: fraction <+: text) :
    text.takeWhile Cluster.isDigit = whole ∧
      ∃ z, text.dropWhile Cluster.isDigit = ['.'] :: (fraction ++ z) := by
  obtain ⟨z, rfl⟩ := hstart
  have hall : ∀ x ∈ whole, Cluster.isDigit x = true := fun x hx => isDigit_iff.mpr (hwhole.2 x hx)
  rw [List.append_assoc, List.takeWhile_append_of_pos hall, List.dropWhile_append_of_pos hall]
  exact ⟨by simp [Cluster.isDigit], z, rfl⟩

theorem readNumber_takes (hg : Digit g) (rest : List Cluster) (line : Nat) :
    TakesAs (g :: rest) (Scanner.readNumber (g :: rest) line) := by
  have hwhole := digits_takeWhile hg rest
  have hsplit := List.takeWhile_append_dropWhile (p := Cluster.isDigit) (l := g :: rest)
  -- A numeral without a point is no longer than the digits at the beginning.
  have hplain {digits : List Cluster} (hdigits : Digits digits) (hstart : digits <+: g :: rest) :
      digits.length ≤ ((g :: rest).takeWhile Cluster.isDigit).length :=
    length_le_takeWhile (fun x hx => isDigit_iff.mpr (hdigits.2 x hx)) hstart
  have hnumeral {kind' : TokenKind} {lexeme' : List Cluster} (h : Spells kind' lexeme')
      (hstart : lexeme' <+: g :: rest) : Numeral lexeme' := by
    obtain ⟨l', rfl, -⟩ := h.cons_of_start hstart
    exact (h.of_digit hg).1
  rw [Scanner.readNumber]
  split
  · rename_i d rest' hdrop
    split
    · rename_i hd
      have hfraction := digits_takeWhile (isDigit_iff.mp hd) rest'
      have hsplit' := List.takeWhile_append_dropWhile (p := Cluster.isDigit) (l := d :: rest')
      show Takes (g :: rest) .number
        ((g :: rest).takeWhile Cluster.isDigit ++ ['.'] :: (d :: rest').takeWhile Cluster.isDigit)
      refine .longest (.number ⟨_, hwhole, .inr ⟨_, hfraction, rfl⟩⟩)
        ⟨(d :: rest').dropWhile Cluster.isDigit, ?_⟩ fun kind' lexeme' h hstart => ?_
      · rw [List.append_assoc, List.cons_append, hsplit', ← hdrop, hsplit]
      · obtain ⟨whole, hwhole', rfl | ⟨fraction, hfraction', rfl⟩⟩ := hnumeral h hstart
        · exact (hplain hwhole' hstart).trans (by simp)
        · obtain ⟨hsame, z, hz⟩ := split_at_point hwhole' hstart
          rw [hdrop] at hz
          have hle : fraction.length ≤ ((d :: rest').takeWhile Cluster.isDigit).length :=
            length_le_takeWhile (fun x hx => isDigit_iff.mpr (hfraction'.2 x hx)) ⟨z, (List.cons.inj hz).2.symm⟩
          rw [hsame, List.length_append, List.length_append, List.length_cons, List.length_cons]
          omega
    · rename_i hd
      refine .longest (.number ⟨_, hwhole, .inl rfl⟩) ⟨_, List.takeWhile_append_dropWhile⟩ fun kind' lexeme' h hstart => ?_
      obtain ⟨whole, hwhole', rfl | ⟨fraction, hfraction', rfl⟩⟩ := hnumeral h hstart
      · exact hplain hwhole' hstart
      · obtain ⟨-, z, hz⟩ := split_at_point hwhole' hstart
        cases fraction with
        | nil => exact absurd rfl hfraction'.1
        | cons x fraction =>
            rw [hdrop] at hz
            obtain ⟨rfl, -⟩ := List.cons.inj (List.cons.inj hz).2
            exact absurd (isDigit_iff.mpr (hfraction'.2 d List.mem_cons_self)) hd
  · rename_i hpoint
    refine .longest (.number ⟨_, hwhole, .inl rfl⟩) ⟨_, List.takeWhile_append_dropWhile⟩ fun kind' lexeme' h hstart => ?_
    obtain ⟨whole, hwhole', rfl | ⟨fraction, hfraction', rfl⟩⟩ := hnumeral h hstart
    · exact hplain hwhole' hstart
    · obtain ⟨-, z, hz⟩ := split_at_point hwhole' hstart
      cases fraction with
      | nil => exact absurd rfl hfraction'.1
      | cons x fraction => exact absurd hz (hpoint x (fraction ++ z))

theorem readWord_takes (hg : Letter g) (rest : List Cluster) (line : Nat) :
    TakesAs (g :: rest) (Scanner.readWord (g :: rest) line) := by
  have hpart : Cluster.isWordPart g = true := isWordPart_iff.mpr (.inl hg)
  have hword : (g :: rest).takeWhile Cluster.isWordPart = g :: rest.takeWhile Cluster.isWordPart :=
    List.takeWhile_cons_of_pos hpart
  rw [TakesAs, Scanner.readWord, hword]
  refine .of_longest (spells_ofWord ⟨g, _, rfl, hg, fun x hx => isWordPart_iff.mp (List.mem_takeWhile_imp hx)⟩)
    ⟨_, List.takeWhile_append_dropWhile⟩ fun kind' l' h hstart => ?_
  exact length_le_takeWhile (fun x hx => isWordPart_iff.mpr ((h.of_letter hg).1 x hx)) hstart

theorem readString_takes (rest : List Cluster) (line : Nat) :
    TakesAs (['"'] :: rest) (Scanner.readString ['"'] rest line) := by
  have hbody : ['"'] ∉ rest.takeWhile (· != ['"']) := fun h => by
    have := List.mem_takeWhile_imp h
    simp at this
  have hsplit := List.takeWhile_append_dropWhile (p := (· != ['"'])) (l := rest)
  rw [Scanner.readString]
  split
  · rename_i hdrop
    rw [hdrop, List.append_nil] at hsplit
    rw [hsplit] at hbody ⊢
    exact .unterminated rfl hbody
  · rename_i close rest' hdrop
    have hclose : close = ['"'] := by
      have := List.head?_dropWhile_not (· != ['"']) rest
      rw [hdrop] at this
      simpa using this
    subst hclose
    have hmem : ['"'] ∈ rest := by
      rw [← hsplit, hdrop]
      simp
    refine .of_longest (.string hbody) ((quote_prefix_iff hbody).mpr ⟨rfl, hmem⟩) fun kind' l' h hstart => ?_
    obtain ⟨⟨body, hbody', rfl⟩, -⟩ := h.of_quote
    rw [((quote_prefix_iff hbody').mp hstart).1]

theorem read_takes (g : Cluster) (rest : List Cluster) (line : Nat) :
    TakesAs (g :: rest) (Scanner.read ⟨g :: rest, line⟩) := by
  rw [Scanner.read]
  split
  · rename_i hsingle
    refine .of_longest (spells_of_single hsingle) List.nil_prefix fun kind' l' h _ => ?_
    rw [(h.of_single hsingle).1]
  rename_i hsingle
  split
  · rename_i hextensible
    obtain ⟨halone, hextended⟩ := spells_of_extensible hextensible
    split
    · refine .of_longest hextended (by simp) fun kind' l' h _ => ?_
      rcases h.of_extensible hextensible with ⟨rfl, -⟩ | ⟨rfl, -⟩
      · exact Nat.zero_le _
      · exact Nat.le_refl _
    · rename_i hequal
      refine .of_longest halone List.nil_prefix fun kind' l' h hstart => ?_
      rcases h.of_extensible hextensible with ⟨rfl, -⟩ | ⟨rfl, -⟩
      · exact Nat.le_refl _
      · obtain ⟨z, rfl⟩ := hstart
        exact absurd rfl (hequal z)
  rename_i hextensible
  split
  · rename_i hquote
    rw [hquote]
    exact readString_takes rest line
  rename_i hquote
  split
  · rename_i hdigit
    exact readNumber_takes (isDigit_iff.mp hdigit) rest line
  rename_i hdigit
  split
  · rename_i hletter
    exact readWord_takes (isLetter_iff.mp hletter) rest line
  · rename_i hletter
    refine .unexpected rfl hquote fun kind lexeme h hstart => ?_
    obtain ⟨l, rfl, -⟩ := h.cons_of_start hstart
    rcases h.begins with ⟨hk, -⟩ | ⟨_, _, hx, -⟩ | ⟨hw, -⟩ | ⟨hn, -⟩ | ⟨hq, -⟩
    · cases hsingle.symm.trans hk
    · cases hextensible.symm.trans hx
    · exact hletter (isLetter_iff.mpr hw.letter.1)
    · exact hdigit (isDigit_iff.mpr hn.digit)
    · exact hquote hq

theorem next_takes {s : Scanner} (h : s.skipBlanks.rest ≠ []) : TakesAs s.skipBlanks.rest s.next := by
  have hnext : s.next = Scanner.read ⟨s.skipBlanks.rest, s.skipBlanks.line⟩ := rfl
  rw [hnext]
  cases hrest : s.skipBlanks.rest with
  | nil => exact absurd hrest h
  | cons g rest => exact read_takes g rest _

end Takes

/-! ## All tokens -/

/-- The scanner does as the lexer. -/
theorem lexed_tokens (s : Scanner) : Lexed s.rest (s.tokens.map Token.form) := by
  rw [Scanner.tokens_eq]
  by_cases h : s.next.1.kind = .eof
  · obtain ⟨hgap, hnext⟩ := Scanner.next_of_eof h
    have hall := s.gap_spec.2.1
    rw [Scanner.rest_skipBlanks_eq_nil_iff.mpr h] at hall
    rw [if_pos h, hnext, hgap]
    exact .done hall
  · obtain ⟨heq, hgap, hsolid, -⟩ := s.gap_spec
    have htakes : Takes s.skipBlanks.rest s.next.1.kind s.next.1.lexeme :=
      next_takes (mt Scanner.rest_skipBlanks_eq_nil_iff.mp h)
    rw [if_neg h, List.map_cons, heq]
    rw [Scanner.rest_skipBlanks] at hgap hsolid htakes ⊢
    exact .token hgap hsolid htakes (lexed_tokens s.next.2)
termination_by s.rest.length
decreasing_by exact Scanner.next_shorter h

/-- There is no other way to do it. -/
theorem Lexed.unique {text : List Cluster} {ts : List (TokenKind × List Cluster)} (h : Lexed text ts)
    {s : Scanner} (hs : s.rest = text) : ts = s.tokens.map Token.form := by
  induction h generalizing s with
  | @done gap hgap =>
      obtain ⟨-, hskip⟩ := Scanner.gap_of_eq (hs.trans (List.append_nil gap).symm) hgap Scanner.solid_nil
      have hnext : s.next = (.eof _, ⟨[], _⟩) := congrArg Scanner.read hskip
      rw [Scanner.tokens_eq, hnext]
      rfl
  | @token gap kind lexeme rest ts hgap hsolid htakes _ ih =>
      obtain ⟨-, hskip⟩ := Scanner.gap_of_eq hs hgap hsolid
      have hrest : s.skipBlanks.rest = lexeme ++ rest := by rw [hskip]
      have hne : s.skipBlanks.rest ≠ [] := by
        rw [hrest]
        exact htakes.ne_nil
      have hown : Takes (lexeme ++ rest) s.next.1.kind s.next.1.lexeme := by
        rw [← hrest]
        exact next_takes hne
      obtain ⟨hkind, hlexeme⟩ := takes_unique htakes hown
      have heof : s.next.1.kind ≠ .eof := mt Scanner.rest_skipBlanks_eq_nil_iff.mpr hne
      have hbehind : s.next.2.rest = rest := by
        rw [Scanner.rest_skipBlanks, ← hlexeme] at hrest
        exact List.append_cancel_left hrest
      rw [Scanner.tokens_eq, if_neg heof, List.map_cons, ← ih hbehind, Token.form, ← hkind, ← hlexeme]

/-! ## Words and marks -/

section Forms

variable {text lexeme : List Cluster} {kind : TokenKind} {ts : List (TokenKind × List Cluster)}

theorem Lexed.takes (h : Lexed text ts) : ∀ x ∈ ts, x = (.eof, []) ∨ ∃ text, Takes text x.1 x.2 := by
  induction h with
  | done =>
      intro x hx
      exact .inl (List.mem_singleton.mp hx)
  | token _ _ htakes _ ih =>
      intro x hx
      rcases List.mem_cons.mp hx with rfl | hx
      · exact .inr ⟨_, htakes⟩
      · exact ih x hx

/-- A word is taken for what the look-up makes of it. -/
theorem Takes.kind_of_word (h : Takes text kind lexeme) (hword : Word lexeme) :
    kind = TokenKind.ofWord lexeme := by
  have hspells := spells_ofWord hword
  cases h with
  | longest hs => exact hs.kind_unique hspells
  | unterminated htext =>
      subst htext
      exact absurd hword.letter.1 not_letter_quote
  | unexpected htext _ hnone =>
      refine absurd ?_ (hnone _ _ hspells)
      rw [htext]
      exact List.cons_prefix_cons.mpr ⟨rfl, List.nil_prefix⟩

theorem ofWord_eq_iff (lexeme : List Cluster) :
    (String.ofList lexeme.flatten, kind) ∈ TokenKind.keywords ↔
      kind = TokenKind.ofWord lexeme ∧ kind ≠ .identifier := by
  constructor
  · intro hmem
    have hkind : TokenKind.ofWord lexeme = kind := by
      have hof := ofWord_bare hmem
      rwa [TokenKind.ofWord, ofList_flatten_bare] at hof
    refine ⟨hkind.symm, ?_⟩
    rintro rfl
    exact not_keyword_identifier hmem
  · rintro ⟨rfl, hne⟩
    rcases TokenKind.ofWord_cases lexeme with ⟨hkind, -⟩ | hmem
    · exact absurd hkind hne
    · exact hmem

/-- Only inside strings is anything attached to a cluster of a token. -/
theorem Spells.single (h : Spells kind lexeme) (hkind : kind ≠ .string) : ∀ g ∈ lexeme, ∃ c, g = [c] := by
  have hdigits {digits : List Cluster} (hd : Digits digits) : ∀ g ∈ digits, ∃ c, g = [c] :=
    fun g hg => (hd.2 g hg).single
  cases h with
  | fixed => simp [bare]
  | identifier hword => exact hword.single
  | string => exact absurd rfl hkind
  | number h =>
      obtain ⟨whole, hwhole, rfl | ⟨fraction, hfraction, rfl⟩⟩ := h
      · exact hdigits hwhole
      · intro g hg
        rcases List.mem_append.mp hg with hg | hg
        · exact hdigits hwhole g hg
        · rcases List.mem_cons.mp hg with rfl | hg
          · exact ⟨_, rfl⟩
          · exact hdigits hfraction g hg

end Forms

/-- The kinds and lexemes that the scanner finds are those of the lexer that compares all tokens. Among
words it takes for keywords exactly the seventeen that are spelled as the whole lexeme, and a cluster of more
than one character is in no token but a string or an error. -/
theorem lexed_iff (text : List Cluster) :
    (∀ ts, Lexed text ts ↔ ts = (Scanner.ofClusters text).tokens.map Token.form) ∧
      (∀ t ∈ (Scanner.ofClusters text).tokens, Word t.lexeme →
        ∀ kind, (t.text, kind) ∈ TokenKind.keywords ↔ kind = t.kind ∧ kind ≠ .identifier) ∧
      TokenKind.keywords.length = 17 ∧
      (∀ t ∈ (Scanner.ofClusters text).tokens, (∃ g ∈ t.lexeme, 1 < g.length) →
        t.kind = .string ∨ ∃ cause, t.kind = .error cause) := by
  have hlexed : Lexed text ((Scanner.ofClusters text).tokens.map Token.form) :=
    lexed_tokens (Scanner.ofClusters text)
  have htakes {t : Token} (ht : t ∈ (Scanner.ofClusters text).tokens) (hne : t.lexeme ≠ []) :
      ∃ text, Takes text t.kind t.lexeme := by
    rcases hlexed.takes t.form (List.mem_map_of_mem ht) with heof | h
    · exact absurd (Prod.mk.inj heof).2 hne
    · exact h
  refine ⟨fun ts => ⟨fun h => h.unique rfl, ?_⟩, fun t ht hword kind => ?_, rfl, fun t ht hmark => ?_⟩
  · rintro rfl
    exact hlexed
  · have hne : t.lexeme ≠ [] := by
      obtain ⟨g, rest, heq, -⟩ := hword
      simp [heq]
    obtain ⟨_, h⟩ := htakes ht hne
    rw [h.kind_of_word hword]
    exact ofWord_eq_iff t.lexeme
  · obtain ⟨g, hg, hlength⟩ := hmark
    obtain ⟨_, h⟩ := htakes ht (List.ne_nil_of_mem hg)
    by_cases hstring : t.kind = .string
    · exact .inl hstring
    · generalize t.kind = kind, t.lexeme = lexeme at h hg hstring
      cases h with
      | longest hs =>
          obtain ⟨c, rfl⟩ := hs.single hstring g hg
          exact absurd hlength (Nat.lt_irrefl 1)
      | unterminated => exact .inr ⟨_, rfl⟩
      | unexpected => exact .inr ⟨_, rfl⟩

/-- An accent ends the word in front of it: the keyword is read, and the letter that bears the accent is no
token. -/
theorem lexed_iff_accent :
    Lexed [['o'], ['r'], ['e', '\u0301']]
        [(.kwOr, [['o'], ['r']]), (.error .unexpectedCharacter, [['e', '\u0301']]), (.eof, [])] ∧
      (⟨.kwOr, [['o'], ['r']], 1⟩ ∈ (Scanner.ofClusters [['o'], ['r'], ['e', '\u0301']]).tokens ∧
        Word [['o'], ['r']] ∧ ("or", TokenKind.kwOr) ∈ TokenKind.keywords) ∧
      ⟨.error .unexpectedCharacter, [['e', '\u0301']], 1⟩ ∈
        (Scanner.ofClusters [['o'], ['r'], ['e', '\u0301']]).tokens := by
  obtain ⟨hlexed, hwords, -, -⟩ := lexed_iff [['o'], ['r'], ['e', '\u0301']]
  have hor : ⟨.kwOr, [['o'], ['r']], 1⟩ ∈ (Scanner.ofClusters [['o'], ['r'], ['e', '\u0301']]).tokens := by
    decide +kernel
  have hword : Word [['o'], ['r']] := word_of_keyword (by decide : ("or", TokenKind.kwOr) ∈ TokenKind.keywords)
  exact ⟨(hlexed _).mpr (by decide +kernel), ⟨hor, hword, (hwords _ hor hword _).mpr ⟨rfl, nofun⟩⟩,
    by decide +kernel⟩

end Vocabulary

end LoxMachine
