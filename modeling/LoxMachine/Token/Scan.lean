import LoxMachine.Token.Basic

/-!
# Reading tokens

`Scanner.next` skips blanks, newlines and comments and reads one token from the clusters left; at
the end it answers with the same end token for ever. `tokens` reads up to the first of these. Every
other token takes at least one cluster (`next_shorter`), so the sequence is finite.
-/

namespace LoxMachine

open Text

/-- The clusters still to be read and the line of the first of them. -/
structure Scanner where
  rest : List Cluster
  line : Nat
deriving DecidableEq, Repr

namespace Scanner

def ofClusters (text : List Cluster) : Scanner :=
  ⟨text, 1⟩

def ofString (source : String) : Scanner :=
  ofClusters (clusters source.toList)

/-! ## Skipping -/

/-- Skips what separates tokens. A comment runs from two slashes up to the next newline. -/
def skip (inComment : Bool) (line : Nat) : List Cluster → Scanner
  | [] => ⟨[], line⟩
  | g :: rest =>
    if g.isNewline then skip false (line + 1) rest
    else if inComment then skip true line rest
    else if g.isBlank then skip false line rest
    else if g = ['/'] ∧ rest.head? = some ['/'] then skip true line rest
    else ⟨g :: rest, line⟩

def skipBlanks (s : Scanner) : Scanner :=
  skip false s.line s.rest

/-! ## Reading one token -/

/-- A token made of `lexeme`, and the scanner behind it. -/
def take (kind : TokenKind) (lexeme rest : List Cluster) (line : Nat) : Token × Scanner :=
  (⟨kind, lexeme, line⟩, ⟨rest, line⟩)

/-- A string, whose opening quote has been read, runs to the next quote. It is reported on the line
where it starts, or, if no quote closes it, on the line where the text ends. -/
def readString (quote : Cluster) (rest : List Cluster) (line : Nat) : Token × Scanner :=
  let body := rest.takeWhile (· != ['"'])
  let lastLine := line + body.countP Cluster.isNewline
  match rest.dropWhile (· != ['"']) with
  | [] => take (.error .unterminatedString) (quote :: body) [] lastLine
  | close :: rest => (⟨.string, quote :: (body ++ [close]), line⟩, ⟨rest, lastLine⟩)

/-- Digits; and a point with digits after it, if a digit follows the point. -/
def readNumber (rest : List Cluster) (line : Nat) : Token × Scanner :=
  let whole := rest.takeWhile Cluster.isDigit
  match rest.dropWhile Cluster.isDigit with
  | ['.'] :: d :: rest' =>
    if d.isDigit then
      take .number (whole ++ ['.'] :: (d :: rest').takeWhile Cluster.isDigit)
        ((d :: rest').dropWhile Cluster.isDigit) line
    else take .number whole (['.'] :: d :: rest') line
  | rest' => take .number whole rest' line

/-- Letters, digits and underscores. -/
def readWord (rest : List Cluster) (line : Nat) : Token × Scanner :=
  let word := rest.takeWhile Cluster.isWordPart
  take (.ofWord word) word (rest.dropWhile Cluster.isWordPart) line

/-- One token from clusters that begin with no separator. -/
def read : Scanner → Token × Scanner
  | ⟨[], line⟩ => take .eof [] [] line
  | ⟨g :: rest, line⟩ =>
    match TokenKind.single? g with
    | some kind => take kind [g] rest line
    | none =>
      match TokenKind.extensible? g with
      | some (alone, extended) =>
        match rest with
        | ['='] :: rest' => take extended [g, ['=']] rest' line
        | _ => take alone [g] rest line
      | none =>
        if g = ['"'] then readString g rest line
        else if g.isDigit then readNumber (g :: rest) line
        else if g.isLetter then readWord (g :: rest) line
        else take (.error .unexpectedCharacter) [g] rest line

def next (s : Scanner) : Token × Scanner :=
  s.skipBlanks.read

/-! ## Every token takes something -/

theorem length_skip_le (inComment : Bool) (line : Nat) (text : List Cluster) :
    (skip inComment line text).rest.length ≤ text.length := by
  induction text generalizing inComment line with
  | nil => simp [skip]
  | cons g rest ih =>
    rw [skip]
    repeat' split
    all_goals first
      | exact Nat.le_succ_of_le (ih _ _)
      | exact Nat.le_refl _

theorem length_dropWhile_le {α : Type} (p : α → Bool) (l : List α) :
    (l.dropWhile p).length ≤ l.length := by
  have h := congrArg List.length (List.takeWhile_append_dropWhile (p := p) (l := l))
  rw [List.length_append] at h
  omega

theorem readString_shorter (quote : Cluster) (rest : List Cluster) (line : Nat) :
    (readString quote rest line).2.rest.length ≤ rest.length := by
  have h := length_dropWhile_le (· != ['"']) rest
  rw [readString]
  split
  · simp [take]
  · simp_all; omega

theorem readNumber_shorter {g : Cluster} (hg : g.isDigit = true) (rest : List Cluster)
    (line : Nat) : (readNumber (g :: rest) line).2.rest.length ≤ rest.length := by
  have h := length_dropWhile_le Cluster.isDigit rest
  rw [readNumber, List.dropWhile_cons_of_pos (by exact hg)]
  split
  · rename_i d rest' heq
    have h' := length_dropWhile_le Cluster.isDigit (d :: rest')
    rw [heq] at h
    split
    · simp_all [take]; omega
    · simp_all [take]
  · exact h

theorem readWord_shorter {g : Cluster} (hg : g.isLetter = true) (rest : List Cluster)
    (line : Nat) : (readWord (g :: rest) line).2.rest.length ≤ rest.length := by
  rw [readWord, List.dropWhile_cons_of_pos (by simp [Cluster.isWordPart, hg])]
  exact length_dropWhile_le _ rest

theorem read_shorter {s : Scanner} (h : s.rest ≠ []) :
    s.read.2.rest.length < s.rest.length := by
  obtain ⟨_ | ⟨g, rest⟩, line⟩ := s
  · exact absurd rfl h
  rw [read]
  split
  · simp [take]
  split
  · split
    · exact Nat.lt_succ_of_lt (Nat.lt_succ_self _)
    · simp [take]
  split
  · exact Nat.lt_succ_of_le (readString_shorter g rest line)
  split
  · exact Nat.lt_succ_of_le (readNumber_shorter (by assumption) rest line)
  split
  · exact Nat.lt_succ_of_le (readWord_shorter (by assumption) rest line)
  · simp [take]

theorem next_shorter {s : Scanner} (h : s.next.1.kind ≠ .eof) :
    s.next.2.rest.length < s.rest.length := by
  refine Nat.lt_of_lt_of_le (read_shorter ?_) (length_skip_le false s.line s.rest)
  intro hnil
  apply h
  rw [next]
  generalize s.skipBlanks = t at hnil ⊢
  obtain ⟨rest, line⟩ := t
  obtain rfl : rest = [] := hnil
  rfl

/-! ## All tokens -/

/-- Reads tokens behind those in `found`, up to the first end token. -/
def collect (s : Scanner) (found : Array Token) : Array Token :=
  if _h : s.next.1.kind = .eof then found.push s.next.1
  else collect s.next.2 (found.push s.next.1)
termination_by s.rest.length
decreasing_by exact next_shorter _h

/-- The tokens of a text, the end token last. -/
def tokens (s : Scanner) : List Token :=
  (s.collect #[]).toList

theorem collect_of_eof {s : Scanner} (h : s.next.1.kind = .eof) (found : Array Token) :
    s.collect found = found.push s.next.1 := by
  rw [collect, dif_pos h]

theorem collect_of_ne_eof {s : Scanner} (h : s.next.1.kind ≠ .eof) (found : Array Token) :
    s.collect found = s.next.2.collect (found.push s.next.1) := by
  rw [collect, dif_neg h]

theorem toList_collect (s : Scanner) (found : Array Token) :
    (s.collect found).toList = found.toList ++ s.tokens := by
  by_cases h : s.next.1.kind = .eof
  · simp [tokens, collect_of_eof h]
  · rw [tokens, collect_of_ne_eof h, collect_of_ne_eof h, toList_collect s.next.2,
      toList_collect s.next.2 (#[].push _)]
    simp
termination_by s.rest.length
decreasing_by all_goals exact next_shorter h

/-- The tokens are the next one and, unless it is the end, the tokens behind it. -/
theorem tokens_eq (s : Scanner) :
    s.tokens = s.next.1 :: if s.next.1.kind = .eof then [] else s.next.2.tokens := by
  split
  · rename_i h
    simp [tokens, collect_of_eof h]
  · rename_i h
    rw [tokens, collect_of_ne_eof h, toList_collect]
    rfl

end Scanner

end LoxMachine
