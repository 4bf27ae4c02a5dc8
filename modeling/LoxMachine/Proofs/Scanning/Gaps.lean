import Mathlib.Data.List.TakeWhile
import LoxMachine.Proofs.Compile.Scanned

/-!
# What stands between tokens

The tokens of a text are pieces of it, one behind the other, and between them is nothing but blanks,
newlines and comments (`Gap`). `skip` takes the longest gap (`skip_of_gap`), `read` takes at least one
cluster (`read_spec`), so whoever asks for tokens again and again gets all of the text and then the end
token for ever.

Main statement: `covers`.
-/

namespace LoxMachine

open Text

namespace Scanner

/-! ## Gaps -/

/-- Nothing or what begins with a newline. -/
def Ends (y : List Cluster) : Prop :=
  ∀ n ∈ y.head?, Cluster.isNewline n = true

/-- What separates tokens, with `rest` behind it. A comment runs from two slashes up to the next newline
or the end of the text. -/
inductive Gap (rest : List Cluster) : List Cluster → Prop where
  | nothing : Gap rest []
  | blank {g gap} : Cluster.isBlank g = true → Gap rest gap → Gap rest (g :: gap)
  | newline {g gap} : Cluster.isNewline g = true → Gap rest gap → Gap rest (g :: gap)
  | comment {body gap} : (∀ g ∈ body, Cluster.isNewline g = false) → Ends (gap ++ rest) → Gap rest gap →
      Gap rest (['/'] :: ['/'] :: (body ++ gap))

/-- Two slashes, which begin a comment. -/
def BeginsComment (text : List Cluster) : Prop :=
  text.head? = some ['/'] ∧ text.tail.head? = some ['/']

/-- No gap begins there. -/
structure Solid (text : List Cluster) : Prop where
  visible : ∀ g ∈ text.head?, Cluster.isBlank g = false ∧ Cluster.isNewline g = false
  code : ¬ BeginsComment text

theorem solid_nil : Solid [] :=
  ⟨nofun, fun h => nomatch h.1⟩

/-- What a scanner skips in front of its next token. -/
def gap (s : Scanner) : List Cluster :=
  s.rest.take (s.rest.length - s.skipBlanks.rest.length)

section Gap

variable {rest gap text : List Cluster} {line : Nat}

theorem not_digit_of_newline (n : Cluster) (h : Cluster.isNewline n = true) : Cluster.isDigit n = false := by
  simp only [Cluster.isNewline, Bool.or_eq_true, beq_iff_eq] at h
  rcases h with (rfl | rfl) | rfl <;> rfl

theorem not_wordPart_of_newline (n : Cluster) (h : Cluster.isNewline n = true) :
    Cluster.isWordPart n = false := by
  simp only [Cluster.isNewline, Bool.or_eq_true, beq_iff_eq] at h
  rcases h with (rfl | rfl) | rfl <;> rfl

theorem not_newline_of_blank {g : Cluster} (h : Cluster.isBlank g = true) : Cluster.isNewline g = false := by
  simp only [Cluster.isBlank, Bool.or_eq_true, beq_iff_eq] at h
  rcases h with rfl | rfl <;> rfl

/-- Every text begins with a gap, with something solid behind it. -/
theorem exists_gap (text : List Cluster) : ∃ gap rest, text = gap ++ rest ∧ Gap rest gap ∧ Solid rest := by
  induction hlen : text.length using Nat.strongRecOn generalizing text with
  | ind n ih =>
      subst hlen
      cases text with
      | nil => exact ⟨[], [], rfl, .nothing, solid_nil⟩
      | cons g text =>
          by_cases hblank : Cluster.isBlank g = true
          · obtain ⟨gap, rest, rfl, hgap, hsolid⟩ := ih _ (Nat.lt_succ_self _) text rfl
            exact ⟨g :: gap, rest, rfl, .blank hblank hgap, hsolid⟩
          by_cases hnewline : Cluster.isNewline g = true
          · obtain ⟨gap, rest, rfl, hgap, hsolid⟩ := ih _ (Nat.lt_succ_self _) text rfl
            exact ⟨g :: gap, rest, rfl, .newline hnewline hgap, hsolid⟩
          by_cases hcomment : BeginsComment (g :: text)
          · obtain ⟨hg, hhead⟩ := hcomment
            obtain rfl := Option.some.inj hg
            obtain ⟨text, rfl⟩ := List.head?_eq_some_iff.mp hhead
            set open' := text.takeWhile (!Cluster.isNewline ·) with hopen
            set behind := text.dropWhile (!Cluster.isNewline ·) with hbehind
            have hsplit : open' ++ behind = text := List.takeWhile_append_dropWhile
            have hshorter : behind.length < (['/'] :: ['/'] :: text).length := by
              rw [← hsplit]
              simp only [List.length_cons, List.length_append]
              omega
            obtain ⟨gap, rest, heq, hgap, hsolid⟩ := ih _ hshorter behind rfl
            refine ⟨['/'] :: ['/'] :: (open' ++ gap), rest, ?_, .comment ?_ ?_ hgap, hsolid⟩
            · rw [← hsplit, heq]
              simp
            · intro n hn
              simpa using List.mem_takeWhile_imp hn
            · intro n hn
              rw [← heq] at hn
              have := List.head?_dropWhile_not (!Cluster.isNewline ·) text
              rw [← hbehind, Option.mem_def.mp hn] at this
              simpa using this
          · refine ⟨[], g :: text, rfl, .nothing, ⟨fun n hn => ?_, hcomment⟩⟩
            obtain rfl := Option.some.inj hn
            exact ⟨by simpa using hblank, by simpa using hnewline⟩

/-! ## Skipping -/

theorem skip_comment {body : List Cluster} (hbody : ∀ g ∈ body, Cluster.isNewline g = false)
    (hends : Ends rest) (line : Nat) : skip true line (body ++ rest) = skip false line rest := by
  induction body with
  | nil =>
      cases rest with
      | nil => rfl
      | cons n rest =>
          have hn := hends n rfl
          rw [List.nil_append, skip, skip, if_pos hn, if_pos hn]
  | cons g body ih =>
      have hg := hbody g List.mem_cons_self
      rw [List.cons_append, skip, if_neg (by simp [hg]), if_pos rfl]
      exact ih fun n hn => hbody n (List.mem_cons_of_mem _ hn)

theorem skip_solid (h : Solid rest) (line : Nat) : skip false line rest = ⟨rest, line⟩ := by
  cases rest with
  | nil => rfl
  | cons g rest =>
      obtain ⟨hblank, hnewline⟩ := h.visible g rfl
      rw [skip, if_neg (by simp [hnewline]), if_neg (by simp), if_neg (by simp [hblank]), if_neg]
      rintro ⟨rfl, hhead⟩
      exact h.code ⟨rfl, hhead⟩

/-- Exactly a gap is skipped, and its newlines are counted. -/
theorem skip_of_gap (hgap : Gap rest gap) (hsolid : Solid rest) (line : Nat) :
    skip false line (gap ++ rest) = ⟨rest, line + gap.countP Cluster.isNewline⟩ := by
  induction hgap generalizing line with
  | nothing => exact skip_solid hsolid line
  | blank hg _ ih =>
      have hnewline := not_newline_of_blank hg
      rw [List.cons_append, skip, if_neg (by simp [hnewline]), if_neg (by simp), if_pos hg, ih,
        List.countP_cons_of_neg (by simp [hnewline])]
  | newline hg _ ih =>
      rw [List.cons_append, skip, if_pos hg, ih, List.countP_cons_of_pos hg]
      congr 1
      omega
  | @comment body gap hbody hends _ ih =>
      have hcount : body.countP Cluster.isNewline = 0 := by
        rw [List.countP_eq_zero]
        intro g hg
        simp [hbody g hg]
      have hslash : Cluster.isNewline ['/'] = false := rfl
      rw [List.cons_append, List.cons_append, List.append_assoc]
      -- The first slash opens the comment and the second is part of it.
      rw [skip, if_neg (by simp [hslash]), if_neg (by simp), if_neg (by simp [Cluster.isBlank]),
        if_pos ⟨rfl, rfl⟩, skip, if_neg (by simp [hslash]), if_pos rfl, skip_comment hbody hends, ih,
        List.countP_cons_of_neg (by simp [hslash]), List.countP_cons_of_neg (by simp [hslash]),
        List.countP_append, hcount, Nat.zero_add]

/-- A gap and something solid are what the scanner makes of them. -/
theorem gap_of_eq {s : Scanner} (hrest : s.rest = gap ++ rest) (hgap : Gap rest gap) (hsolid : Solid rest) :
    s.gap = gap ∧ s.skipBlanks = ⟨rest, s.line + gap.countP Cluster.isNewline⟩ := by
  have hskip : s.skipBlanks = ⟨rest, s.line + gap.countP Cluster.isNewline⟩ := by
    rw [skipBlanks, hrest, skip_of_gap hgap hsolid]
  refine ⟨?_, hskip⟩
  rw [Scanner.gap, hskip, hrest]
  simp

theorem gap_spec (s : Scanner) :
    s.rest = s.gap ++ s.skipBlanks.rest ∧ Gap s.skipBlanks.rest s.gap ∧ Solid s.skipBlanks.rest ∧
      s.skipBlanks.line = s.line + s.gap.countP Cluster.isNewline := by
  obtain ⟨gap, rest, heq, hgap, hsolid⟩ := exists_gap s.rest
  obtain ⟨hs, hskip⟩ := gap_of_eq heq hgap hsolid
  rw [hs, hskip]
  exact ⟨heq, hgap, hsolid, rfl⟩

end Gap

/-! ## One token -/

/-- A token is cut off the beginning of a text. It bears the line it begins on, unless it is a string that
no quote closes: that one bears the line it ends on. -/
structure Cuts (text : List Cluster) (line : Nat) (x : Token × Scanner) : Prop where
  text_eq : text = x.1.lexeme ++ x.2.rest
  ne_nil : x.1.lexeme ≠ []
  not_eof : x.1.kind ≠ .eof
  token_line : x.1.line = line +
    if x.1.kind = .error .unterminatedString then x.1.lexeme.countP Cluster.isNewline else 0
  line_eq : x.2.line = line + x.1.lexeme.countP Cluster.isNewline

section Cuts

variable {text lexeme rest : List Cluster} {kind : TokenKind} {line : Nat} {g : Cluster}

/-- A token on one line. -/
theorem Cuts.inline (htext : text = lexeme ++ rest) (hne : lexeme ≠ []) (hkind : kind ≠ .eof)
    (hline : ∀ g ∈ lexeme, Cluster.isNewline g = false) : Cuts text line (take kind lexeme rest line) := by
  have hcount : lexeme.countP Cluster.isNewline = 0 := by
    rw [List.countP_eq_zero]
    intro g hg
    simp [hline g hg]
  refine ⟨htext, hne, hkind, ?_, ?_⟩
  · simp [take, hcount]
  · simp [take, hcount]

theorem not_newline_of_mem_takeWhile {p : Cluster → Bool}
    (hp : ∀ n, Cluster.isNewline n = true → p n = false) :
    ∀ g ∈ text.takeWhile p, Cluster.isNewline g = false := by
  intro g hg
  have hpos := List.mem_takeWhile_imp hg
  refine Bool.eq_false_iff.mpr fun hnewline => ?_
  rw [hp g hnewline] at hpos
  cases hpos

theorem readNumber_cuts (hg : Cluster.isDigit g = true) (rest : List Cluster) (line : Nat) :
    Cuts (g :: rest) line (readNumber (g :: rest) line) := by
  have hsplit := List.takeWhile_append_dropWhile (p := Cluster.isDigit) (l := g :: rest)
  have hne : (g :: rest).takeWhile Cluster.isDigit ≠ [] := by
    rw [List.takeWhile_cons_of_pos hg]
    exact List.cons_ne_nil _ _
  have hwhole : ∀ n ∈ (g :: rest).takeWhile Cluster.isDigit, Cluster.isNewline n = false :=
    not_newline_of_mem_takeWhile not_digit_of_newline
  rw [readNumber]
  split
  · rename_i d rest' heq
    rw [heq] at hsplit
    split
    · have hfraction := List.takeWhile_append_dropWhile (p := Cluster.isDigit) (l := d :: rest')
      refine .inline ?_ (by simp) (by simp) fun n hn => ?_
      · rw [List.append_assoc, List.cons_append, hfraction, hsplit]
      · rcases List.mem_append.mp hn with hn | hn
        · exact hwhole n hn
        · rcases List.mem_cons.mp hn with rfl | hn
          · rfl
          · exact not_newline_of_mem_takeWhile not_digit_of_newline n hn
    · exact .inline hsplit.symm hne (by simp) hwhole
  · exact .inline hsplit.symm hne (by simp) hwhole

theorem ofWord_ne_eof (word : List Cluster) : TokenKind.ofWord word ≠ .eof := by
  rcases TokenKind.ofWord_cases word with ⟨hword, -⟩ | hmem
  · rw [hword]
    nofun
  · intro heof
    rw [heof] at hmem
    simp [TokenKind.keywords] at hmem

theorem readWord_cuts (hg : Cluster.isLetter g = true) (rest : List Cluster) (line : Nat) :
    Cuts (g :: rest) line (readWord (g :: rest) line) := by
  have hpart : Cluster.isWordPart g = true := by rw [Cluster.isWordPart, hg, Bool.true_or]
  refine .inline List.takeWhile_append_dropWhile.symm ?_ (ofWord_ne_eof _)
    (not_newline_of_mem_takeWhile not_wordPart_of_newline)
  rw [List.takeWhile_cons_of_pos hpart]
  exact List.cons_ne_nil _ _

theorem readString_cuts (rest : List Cluster) (line : Nat) :
    Cuts (['"'] :: rest) line (readString ['"'] rest line) := by
  have hsplit := List.takeWhile_append_dropWhile (p := (· != ['"'])) (l := rest)
  have hquote : Cluster.isNewline ['"'] = false := rfl
  rw [readString]
  split
  · rename_i hdrop
    rw [hdrop, List.append_nil] at hsplit
    refine ⟨?_, List.cons_ne_nil _ _, by simp [take], ?_, ?_⟩
    · simp [take, hsplit]
    · simp [take, hquote]
    · simp [take, hquote]
  · rename_i close rest' hdrop
    have hclose : close = ['"'] := by
      have := List.head?_dropWhile_not (· != ['"']) rest
      rw [hdrop] at this
      simpa using this
    rw [hdrop] at hsplit
    refine ⟨?_, List.cons_ne_nil _ _, by simp, rfl, ?_⟩
    · simp [hsplit]
    · simp [hquote, hclose]

/-- What is read from a solid text. -/
theorem read_spec (hsolid : Solid (g :: rest)) (line : Nat) : Cuts (g :: rest) line (read ⟨g :: rest, line⟩) := by
  have hg : ∀ n ∈ [g], Cluster.isNewline n = false := by
    intro n hn
    rw [List.mem_singleton.mp hn]
    exact (hsolid.visible g rfl).2
  rw [read]
  split
  · rename_i hkind
    exact .inline rfl (List.cons_ne_nil _ _) (single?_kind hkind).2.2 hg
  split
  · rename_i hkinds
    obtain ⟨⟨-, -, halone⟩, -, -, hextended⟩ := extensible?_kind hkinds
    split
    · refine .inline rfl (List.cons_ne_nil _ _) hextended fun n hn => ?_
      rcases List.mem_cons.mp hn with rfl | hn
      · exact hg _ List.mem_cons_self
      · rw [List.mem_singleton.mp hn]
        rfl
    · exact .inline rfl (List.cons_ne_nil _ _) halone hg
  split
  · rename_i hquote
    rw [hquote]
    exact readString_cuts rest line
  split
  · exact readNumber_cuts (by assumption) rest line
  split
  · exact readWord_cuts (by assumption) rest line
  · exact .inline rfl (List.cons_ne_nil _ _) (by simp) hg

end Cuts

/-- Behind the gap there is a token or the end of the text. -/
theorem next_cases (s : Scanner) :
    s.rest = s.gap ∧ s.next = (.eof (s.line + s.rest.countP Cluster.isNewline),
        ⟨[], s.line + s.rest.countP Cluster.isNewline⟩) ∨
      Cuts s.skipBlanks.rest (s.line + s.gap.countP Cluster.isNewline) s.next := by
  obtain ⟨heq, -, hsolid, hline⟩ := s.gap_spec
  have hnext : s.next = read ⟨s.skipBlanks.rest, s.skipBlanks.line⟩ := rfl
  rw [hnext, ← hline]
  cases hrest : s.skipBlanks.rest with
  | nil =>
      rw [hrest, List.append_nil] at heq
      refine .inl ⟨heq, ?_⟩
      rw [hline, ← heq]
      rfl
  | cons g rest =>
      rw [hrest] at hsolid
      exact .inr (read_spec hsolid _)

/-! ## Token after token -/

/-- The scanner that has been asked for `n` tokens. -/
def after : Nat → Scanner → Scanner
  | 0, s => s
  | n + 1, s => after n s.next.2

/-- The token it is asked for next. -/
def token (n : Nat) (s : Scanner) : Token :=
  (s.after n).next.1

/-- The first `n` gaps and tokens, in turn. -/
def passed : Nat → Scanner → List Cluster
  | 0, _ => []
  | n + 1, s => s.gap ++ s.next.1.lexeme ++ passed n s.next.2

/-- All that stands in front of a token. -/
def before (n : Nat) (s : Scanner) : List Cluster :=
  s.passed n ++ (s.after n).gap

/-- The next token if there is one, as a stream of tokens yields it, and the scanner behind it. -/
def next? (s : Scanner) : Option Token × Scanner :=
  (if s.next.1.kind = .eof then none else some s.next.1, s.next.2)

/-- What the stream yields when `n` answers have been drawn from it. -/
def draw : Nat → Scanner → Option Token
  | 0, s => s.next?.1
  | n + 1, s => draw n s.next?.2

section Tokens

variable {s : Scanner}

theorem rest_next (s : Scanner) : s.rest = s.gap ++ s.next.1.lexeme ++ s.next.2.rest := by
  rcases s.next_cases with ⟨hgap, hnext⟩ | hcuts
  · rw [hnext]
    simpa [Token.eof] using hgap
  · rw [List.append_assoc, ← hcuts.text_eq]
    exact s.gap_spec.1

theorem passed_append (n : Nat) (s : Scanner) : s.passed n ++ (s.after n).rest = s.rest := by
  induction n generalizing s with
  | zero => rfl
  | succ n ih => rw [passed, after, List.append_assoc, ih, ← rest_next]

/-- What follows the gap in front of a token. -/
theorem rest_skipBlanks (s : Scanner) : s.skipBlanks.rest = s.next.1.lexeme ++ s.next.2.rest := by
  have h := s.gap_spec.1.symm.trans s.rest_next
  rw [List.append_assoc] at h
  exact List.append_cancel_left h

theorem not_eof_iff : s.next.1.kind ≠ .eof ↔ s.next.1.lexeme ≠ [] := by
  rcases s.next_cases with ⟨-, hnext⟩ | hcuts
  · rw [hnext]
    exact iff_of_false (fun h => h rfl) fun h => h rfl
  · exact iff_of_true hcuts.not_eof hcuts.ne_nil

/-- At the end of the text the scanner stays where it is. -/
theorem next_of_eof (h : s.next.1.kind = .eof) : s.rest = s.gap ∧
    s.next = (.eof (s.line + s.rest.countP Cluster.isNewline),
      ⟨[], s.line + s.rest.countP Cluster.isNewline⟩) := by
  rcases s.next_cases with hend | hcuts
  · exact hend
  · exact absurd h hcuts.not_eof

theorem rest_skipBlanks_eq_nil_iff : s.skipBlanks.rest = [] ↔ s.next.1.kind = .eof := by
  rw [rest_skipBlanks]
  constructor
  · intro h
    by_contra hne
    exact not_eof_iff.mp hne (List.append_eq_nil_iff.mp h).1
  · intro h
    rw [(next_of_eof h).2]
    rfl

theorem token_end (line n : Nat) : token n ⟨[], line⟩ = .eof line := by
  induction n with
  | zero => rfl
  | succ n ih => exact ih

/-- The tokens of a text are those the scanner is asked for one by one, up to the first end token. -/
theorem exists_tokens (s : Scanner) : ∃ n, (∀ i < n, (s.token i).kind ≠ .eof) ∧ (s.token n).kind = .eof ∧
    s.tokens = (List.range (n + 1)).map (s.token ·) := by
  by_cases h : s.next.1.kind = .eof
  · refine ⟨0, nofun, h, ?_⟩
    rw [tokens_eq, if_pos h]
    rfl
  · obtain ⟨n, hbefore, hend, htokens⟩ := exists_tokens s.next.2
    refine ⟨n + 1, fun i hi => ?_, hend, ?_⟩
    · cases i with
      | zero => exact h
      | succ i => exact hbefore i (Nat.lt_of_succ_lt_succ hi)
    · rw [tokens_eq, if_neg h, htokens, List.range_succ_eq_map (n := n + 1), List.map_cons, List.map_map]
      rfl
termination_by s.rest.length
decreasing_by exact next_shorter h

theorem lexeme_of_eof {t : Token} (ht : t ∈ s.tokens) (h : t.kind = .eof) : t.lexeme = [] := by
  obtain ⟨n, -, -, htokens⟩ := s.exists_tokens
  rw [htokens, List.mem_map] at ht
  obtain ⟨i, -, rfl⟩ := ht
  by_contra hne
  exact not_eof_iff.mpr hne h

theorem token_of_eof {n i : Nat} (h : (s.token n).kind = .eof) (hi : n ≤ i) :
    s.token i = .eof ((s.after n).line + (s.after n).rest.countP Cluster.isNewline) := by
  induction n generalizing s i with
  | zero =>
      obtain ⟨-, hnext⟩ := next_of_eof (s := s) h
      cases i with
      | zero => exact congrArg Prod.fst hnext
      | succ i =>
          change token i s.next.2 = _
          rw [hnext]
          exact token_end _ i
  | succ n ih =>
      cases i with
      | zero => exact absurd hi (Nat.not_succ_le_zero n)
      | succ i => exact ih (s := s.next.2) h (Nat.le_of_succ_le_succ hi)

theorem draw_eq (n : Nat) (s : Scanner) :
    s.draw n = if (s.token n).kind = .eof then none else some (s.token n) := by
  induction n generalizing s with
  | zero => rfl
  | succ n ih => exact ih s.next.2

theorem before_append (n : Nat) (s : Scanner) :
    s.before n ++ ((s.token n).lexeme ++ (s.after n).next.2.rest) = s.rest := by
  have h := passed_append n s
  rwa [rest_next (s.after n), List.append_assoc, ← List.append_assoc] at h

end Tokens

/-! ## The whole text -/

/-- `n` tokens and the gaps between them make up a text. -/
structure Covers (text : List Cluster) (n : Nat) (s : Scanner) : Prop where
  /-- Each call gives a token of at least one cluster, -/
  takes : ∀ i < n, (s.token i).kind ≠ .eof ∧ (s.token i).lexeme ≠ []
  /-- and after them the same end token for ever. -/
  ended : ∃ line, ∀ i, n ≤ i → s.token i = ⟨.eof, [], line⟩
  /-- What is in front of a token, or at the end, is a gap. -/
  gaps : ∀ i, Gap ((s.token i).lexeme ++ (s.after (i + 1)).rest) (s.after i).gap
  /-- Nothing is lost and nothing is taken twice. -/
  text_eq : text = s.passed n ++ (s.after n).gap
  tokens_eq : s.tokens = (List.range (n + 1)).map (s.token ·)
  /-- The stream yields these tokens and then no more. -/
  drawn : ∀ i, s.draw i = if i < n then some (s.token i) else none

theorem after_succ (n : Nat) (s : Scanner) : s.after (n + 1) = (s.after n).next.2 := by
  induction n generalizing s with
  | zero => rfl
  | succ n ih => exact ih s.next.2

/-- Whatever the clusters of a text are, its tokens and gaps make it up. -/
theorem covers (text : List Cluster) : ∃ n, Covers text n (ofClusters text) := by
  set s := ofClusters text with hs
  obtain ⟨n, hbefore, hend, htokens⟩ := s.exists_tokens
  have hended {i : Nat} (hi : n ≤ i) := token_of_eof hend hi
  refine ⟨n, fun i hi => ⟨hbefore i hi, not_eof_iff.mp (hbefore i hi)⟩, ⟨_, fun i => hended⟩, fun i => ?_, ?_,
    htokens, fun i => ?_⟩
  · rw [after_succ, token, ← rest_skipBlanks]
    exact (s.after i).gap_spec.2.1
  · rw [← (next_of_eof hend).1, passed_append]
    rfl
  · rw [draw_eq]
    by_cases hi : i < n
    · rw [if_neg (hbefore i hi), if_pos hi]
    · rw [if_pos (by rw [hended (Nat.le_of_not_lt hi)]; rfl), if_neg hi]

end Scanner

end LoxMachine
