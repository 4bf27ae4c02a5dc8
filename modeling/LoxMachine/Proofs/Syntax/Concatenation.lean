import Mathlib.Data.List.TakeWhile
import LoxMachine.Proofs.Compile.Unlined
import LoxMachine.Proofs.Scanning.Gaps
import LoxMachine.Proofs.Syntax.Unambiguous

/-!
# Texts on end

A text, a newline and another text have the tokens of the one and those of the other, lines apart, and so
the declarations of both.

Main statement: `script_append`.
-/

namespace LoxMachine

open Text Unicode Syntax

/-! ## Clusters -/

namespace Text

/-- Clusters that have been found stay as they are. -/
theorem Cutter.close_foldl (text : List Char) (found more : List Cluster) (cs : List Char)
    (last : BreakClass) (e : Ending) :
    (text.foldl Cutter.push ⟨found ++ more, cs, last, e⟩).close =
      (text.foldl Cutter.push ⟨found, cs, last, e⟩).close ++ more := by
  induction text generalizing found cs last e with
  | nil => cases cs <;> rfl
  | cons c text ih =>
      rw [List.foldl_cons, List.foldl_cons, Cutter.push, Cutter.push]
      dsimp only
      split
      · exact ih found _ _ _
      · have hclose : Cutter.close ⟨found ++ more, cs, last, e⟩ = Cutter.close ⟨found, cs, last, e⟩ ++ more := by
          cases cs <;> rfl
        rw [hclose]
        exact ih _ _ _ _

/-- Behind a line feed the text is cut as if it began there. -/
theorem Cutter.clusters_behind {k : Cutter} (hlast : k.last = .lineFeed) (text : List Char) :
    (text.foldl Cutter.push k).close.reverse = k.close.reverse ++ clusters text := by
  cases text with
  | nil => simp [clusters, Cutter.close]
  | cons c text =>
      have hpush : k.push c = ⟨k.close, [c], .of c, Ending.plain.push (.of c)⟩ := by
        have hjoins : joins k.last k.ending (.of c) = false := by rw [hlast]; rfl
        simp only [Cutter.push, hjoins, Bool.false_eq_true, if_false]
      have hbegin : Cutter.push {} c = ⟨[], [c], .of c, Ending.plain.push (.of c)⟩ := by
        have hjoins : joins .control .plain (.of c) = false := by rfl
        simp only [Cutter.push, hjoins, Bool.false_eq_true, if_false]
        rfl
      rw [clusters, List.foldl_cons, List.foldl_cons, hpush, hbegin, ← List.nil_append k.close,
        Cutter.close_foldl]
      simp

theorem eq_return {c : Char} (h : BreakClass.of c = .carriageReturn) : c = '\r' := by
  refine Decidable.byContradiction fun hne => ?_
  have hskip {p : Prop} [Decidable p] {a b : BreakClass} (ha : a ≠ .carriageReturn)
      (hb : b ≠ .carriageReturn) : (if p then a else b) ≠ .carriageReturn := by
    by_cases hp : p
    · rwa [if_pos hp]
    · rwa [if_neg hp]
  rw [BreakClass.of, if_neg hne] at h
  refine absurd h (hskip (hskip (by simp) (hskip (by simp) (by simp))) ?_)
  iterate 3 refine hskip (by simp) ?_
  refine hskip (hskip (by simp) (by simp)) ?_
  iterate 9 refine hskip (by simp) ?_
  exact hskip (by simp) (by simp)

/-- A carriage return stands alone, unless a line feed follows. -/
theorem Cutter.openChars_of_return (text : List Char) {k : Cutter}
    (h : k.last = .carriageReturn → k.openChars = ['\r']) :
    (text.foldl Cutter.push k).last = .carriageReturn → (text.foldl Cutter.push k).openChars = ['\r'] := by
  induction text generalizing k with
  | nil => exact h
  | cons c text ih =>
      refine ih ?_
      rw [Cutter.push]
      intro hlast
      by_cases hjoins : joins k.last k.ending (.of c)
      · have hnext : BreakClass.of c = .carriageReturn := by simpa [hjoins] using hlast
        rw [hnext] at hjoins
        cases hk : k.last <;> rw [hk] at hjoins <;> cases hjoins
      · have hnext : BreakClass.of c = .carriageReturn := by simpa [hjoins] using hlast
        rw [if_neg hjoins, eq_return hnext]

/-- A line feed ends a cluster of its own, or it joins a carriage return. -/
theorem clusters_append (text text' : List Char) :
    ∃ as x n, clusters text = as ++ x ∧ (∀ g ∈ x, Cluster.isNewline g = true) ∧
      Cluster.isNewline n = true ∧ clusters (text ++ '\n' :: text') = as ++ n :: clusters text' := by
  set k := text.foldl Cutter.push {} with hk
  have hclass : BreakClass.of '\n' = .lineFeed := rfl
  have hcut : clusters (text ++ '\n' :: text') = (k.push '\n').close.reverse ++ clusters text' := by
    have hlast : (k.push '\n').last = .lineFeed := by
      rw [Cutter.push, hclass]
      split <;> rfl
    rw [← Cutter.clusters_behind hlast, clusters, List.foldl_append, List.foldl_cons]
  by_cases hreturn : k.last = .carriageReturn
  · have hopen : k.openChars = ['\r'] := Cutter.openChars_of_return text (by simp) hreturn
    have hpush : (k.push '\n').close = ['\r', '\n'] :: k.found := by
      rw [Cutter.push, hclass, hreturn, hopen]
      rfl
    have hclose : k.close = ['\r'] :: k.found := by
      rw [Cutter.close, hopen]
      rfl
    refine ⟨k.found.reverse, [['\r']], ['\r', '\n'], ?_, by decide, rfl, ?_⟩
    · rw [clusters, ← hk, hclose, List.reverse_cons]
    · rw [hcut, hpush, List.reverse_cons, List.append_assoc]
      rfl
  · have hjoins : joins k.last k.ending .lineFeed = false := by
      cases hlast : k.last <;> first | rfl | exact absurd hlast hreturn
    have hpush : (k.push '\n').close = ['\n'] :: k.close := by
      rw [Cutter.push, hclass, hjoins]
      rfl
    refine ⟨k.close.reverse, [], ['\n'], ?_, by simp, rfl, ?_⟩
    · rw [clusters, ← hk, List.append_nil]
    · rw [hcut, hpush, List.reverse_cons, List.append_assoc]
      rfl

end Text

/-! ## Tokens without lines -/

namespace Scanner

/-- Where the next token begins. -/
def begin (inComment : Bool) (text : List Cluster) : List Cluster :=
  (skip inComment 0 text).rest

/-- The token at the beginning, without its line, and what is behind it. -/
def first (text : List Cluster) : Token × List Cluster :=
  ((read ⟨text, 0⟩).1.unlined, (read ⟨text, 0⟩).2.rest)

/-- The tokens of a text, without their lines. -/
def words (text : List Cluster) : List Token :=
  (tokens ⟨text, 0⟩).map Token.unlined

theorem rest_skip (inComment : Bool) (line : Nat) (text : List Cluster) :
    (skip inComment line text).rest = begin inComment text := by
  rw [begin]
  generalize 0 = line'
  induction text generalizing inComment line line' with
  | nil => rfl
  | cons g rest ih =>
      rw [skip, skip]
      repeat' split
      all_goals first | exact ih _ _ _ | rfl

theorem read_line (text : List Cluster) (line : Nat) :
    ((read ⟨text, line⟩).1.unlined, (read ⟨text, line⟩).2.rest) = first text := by
  rw [first]
  generalize 0 = line'
  obtain _ | ⟨g, rest⟩ := text
  · rfl
  simp only [read]
  cases TokenKind.single? g with
  | some kind => rfl
  | none =>
      cases TokenKind.extensible? g with
      | some kinds =>
          dsimp only
          split <;> rfl
      | none =>
          dsimp only
          split
          · rw [readString, readString]
            split <;> rfl
          · split
            · rw [readNumber, readNumber]
              split
              · split <;> rfl
              · rfl
            · split <;> rfl

theorem next_line (text : List Cluster) (line : Nat) :
    ((next ⟨text, line⟩).1.unlined, (next ⟨text, line⟩).2.rest) = first (begin false text) := by
  rw [← rest_skip false line, ← read_line _ (skip false line text).line]
  rfl

theorem tokens_line (text : List Cluster) (line : Nat) :
    (tokens ⟨text, line⟩).map Token.unlined = words text := by
  rw [words]
  generalize 0 = line'
  induction hlen : text.length using Nat.strongRecOn generalizing text line line' with
  | ind n ih =>
      subst hlen
      have hnext := (next_line text line).trans (next_line text line').symm
      obtain ⟨htoken, hrest⟩ := Prod.mk.inj hnext
      have hkind : (next ⟨text, line⟩).1.kind = (next ⟨text, line'⟩).1.kind := by
        change (next ⟨text, line⟩).1.unlined.kind = (next ⟨text, line'⟩).1.unlined.kind
        rw [htoken]
      rw [tokens_eq ⟨text, line⟩, tokens_eq ⟨text, line'⟩, List.map_cons, List.map_cons, htoken, hkind]
      by_cases heof : (next ⟨text, line'⟩).1.kind = .eof
      · rw [if_pos heof, if_pos heof]
      · rw [if_neg heof, if_neg heof]
        have hshorter := next_shorter (s := ⟨text, line'⟩) heof
        have hbehind : (next ⟨text, line⟩).2 =
            ⟨(next ⟨text, line'⟩).2.rest, (next ⟨text, line⟩).2.line⟩ := by rw [← hrest]
        rw [hbehind]
        exact congrArg (_ :: ·) (ih _ hshorter _ _ _ rfl)

theorem words_eq (text : List Cluster) :
    words text = (first (begin false text)).1 ::
      if (first (begin false text)).1.kind = .eof then [] else words (first (begin false text)).2 := by
  rw [← next_line text 0, words, tokens_eq, List.map_cons]
  refine congrArg (_ :: ·) ?_
  change List.map _ (if (next ⟨text, 0⟩).1.kind = .eof then _ else _) =
    if (next ⟨text, 0⟩).1.kind = .eof then _ else _
  split
  · rfl
  · exact tokens_line _ _

/-! ## Before a newline -/

section Ends

variable {y : List Cluster}

theorem Ends.head_ne (h : Ends y) {g : Cluster} (hg : Cluster.isNewline g = false) (rest : List Cluster) :
    y ≠ g :: rest := by
  rintro rfl
  exact nomatch hg.symm.trans (h g rfl)

theorem Ends.takeWhile_append (h : Ends y) {p : Cluster → Bool} (hp : ∀ n, Cluster.isNewline n = true → p n = false)
    (l : List Cluster) : (l ++ y).takeWhile p = l.takeWhile p ∧ (l ++ y).dropWhile p = l.dropWhile p ++ y := by
  have hy : y.takeWhile p = [] ∧ y.dropWhile p = y := by
    cases y with
    | nil => exact ⟨rfl, rfl⟩
    | cons n y =>
        have hn := hp n (h n rfl)
        exact ⟨List.takeWhile_cons_of_neg (by simp [hn]), List.dropWhile_cons_of_neg (by simp [hn])⟩
  induction l with
  | nil => exact hy
  | cons a l ih =>
      rw [List.cons_append, List.takeWhile_cons, List.takeWhile_cons, List.dropWhile_cons, List.dropWhile_cons]
      split
      · exact ⟨congrArg (a :: ·) ih.1, ih.2⟩
      · exact ⟨rfl, rfl⟩

theorem readWord_append (h : Ends y) (rest : List Cluster) (line : Nat) :
    readWord (rest ++ y) line = ((readWord rest line).1, ⟨(readWord rest line).2.rest ++ y, line⟩) := by
  obtain ⟨htake, hdrop⟩ := h.takeWhile_append not_wordPart_of_newline rest
  rw [readWord, readWord, htake, hdrop]
  rfl

theorem readNumber_append (h : Ends y) (rest : List Cluster) (line : Nat) :
    readNumber (rest ++ y) line = ((readNumber rest line).1, ⟨(readNumber rest line).2.rest ++ y, line⟩) := by
  obtain ⟨htake, hdrop⟩ := h.takeWhile_append not_digit_of_newline rest
  rw [readNumber, readNumber, htake, hdrop]
  have hpoint : Cluster.isNewline ['.'] = false := rfl
  rcases rest.dropWhile Cluster.isDigit with _ | ⟨a, _ | ⟨d, rest'⟩⟩
  · rw [List.nil_append]
    split
    · exact absurd rfl (h.head_ne hpoint _)
    · rfl
  · by_cases ha : a = ['.']
    · subst ha
      cases y with
      | nil => rfl
      | cons n y =>
          have hn := not_digit_of_newline n (h n rfl)
          simp [hn, take]
    · simp [ha, take]
  · by_cases ha : a = ['.']
    · subst ha
      obtain ⟨htake, hdrop⟩ := h.takeWhile_append not_digit_of_newline (d :: rest')
      simp only [List.cons_append] at htake hdrop ⊢
      rw [htake, hdrop]
      split <;> rfl
    · simp [ha, take]

theorem dropWhile_append_of_cons {p : Cluster → Bool} {l r : List Cluster} {c : Cluster}
    (h : l.dropWhile p = c :: r) (y : List Cluster) :
    (l ++ y).takeWhile p = l.takeWhile p ∧ (l ++ y).dropWhile p = c :: (r ++ y) := by
  induction l with
  | nil => cases h
  | cons a l ih =>
      rw [List.dropWhile_cons] at h
      rw [List.cons_append, List.takeWhile_cons, List.takeWhile_cons, List.dropWhile_cons]
      split
      · rename_i ha
        rw [if_pos ha] at h
        exact ⟨congrArg (a :: ·) (ih h).1, (ih h).2⟩
      · rename_i ha
        rw [if_neg ha] at h
        obtain ⟨rfl, rfl⟩ := List.cons.inj h
        exact ⟨rfl, rfl⟩

/-- Only a string that is not complete reads on behind a newline. -/
theorem first_append (h : Ends y) {g : Cluster} {rest : List Cluster}
    (hquote : g = ['"'] → rest.dropWhile (· != ['"']) ≠ []) :
    first (g :: (rest ++ y)) = ((first (g :: rest)).1, (first (g :: rest)).2 ++ y) := by
  rw [first, first]
  simp only [read]
  cases hsingle : TokenKind.single? g with
  | some kind => rfl
  | none =>
      cases hextensible : TokenKind.extensible? g with
      | some kinds =>
          obtain ⟨alone, extended⟩ := kinds
          have hequal : Cluster.isNewline ['='] = false := rfl
          cases rest with
          | nil =>
              rw [List.nil_append]
              dsimp only
              split
              · exact absurd rfl (h.head_ne hequal _)
              · rfl
          | cons a rest =>
              by_cases ha : a = ['=']
              · subst ha
                rfl
              · simp [ha, take]
      | none =>
          dsimp only
          split
          · rename_i hg
            rw [readString, readString]
            cases hdrop : rest.dropWhile (· != ['"']) with
            | nil => exact absurd hdrop (hquote hg)
            | cons c r =>
                obtain ⟨htake, hdrop'⟩ := dropWhile_append_of_cons hdrop y
                rw [htake, hdrop']
          · split
            · rw [← List.cons_append, readNumber_append h]
            · split
              · rw [← List.cons_append, readWord_append h]
              · rfl

theorem first_unterminated {rest : List Cluster} (hrest : rest.dropWhile (· != ['"']) = []) :
    (first (['"'] :: rest)).1.kind = .error .unterminatedString := by
  have hread : read ⟨['"'] :: rest, 0⟩ = readString ['"'] rest 0 := rfl
  rw [first, hread, readString, hrest]
  rfl

/-- A text ends before the next token, or the token begins in it. -/
theorem begin_append (inComment : Bool) (as : List Cluster) :
    (∀ y, Ends y → begin inComment (as ++ y) = begin false y) ∨
      ∃ g rest, rest.length < as.length ∧ ∀ y, Ends y → begin inComment (as ++ y) = g :: (rest ++ y) := by
  induction as generalizing inComment with
  | nil =>
      refine .inl fun y hy => ?_
      cases y with
      | nil => rfl
      | cons n y =>
          have hn := hy n rfl
          simp only [List.nil_append, begin, skip, hn, if_true]
  | cons a as ih =>
      have hlater (inComment' : Bool) (hskip : ∀ y, begin inComment (a :: as ++ y) = begin inComment' (as ++ y)) :
          (∀ y, Ends y → begin inComment (a :: as ++ y) = begin false y) ∨
            ∃ g rest, rest.length < (a :: as).length ∧
              ∀ y, Ends y → begin inComment (a :: as ++ y) = g :: (rest ++ y) := by
        rcases ih inComment' with h | ⟨g, rest, hlt, h⟩
        · exact .inl fun y hy => (hskip y).trans (h y hy)
        · exact .inr ⟨g, rest, Nat.lt_succ_of_lt hlt, fun y hy => (hskip y).trans (h y hy)⟩
      by_cases hnewline : Cluster.isNewline a
      · refine hlater false fun y => ?_
        rw [List.cons_append, begin, skip, if_pos hnewline, rest_skip]
      by_cases hcomment : inComment
      · refine hlater true fun y => ?_
        rw [List.cons_append, begin, skip, if_neg hnewline, if_pos hcomment, rest_skip]
      by_cases hblank : Cluster.isBlank a
      · refine hlater false fun y => ?_
        rw [List.cons_append, begin, skip, if_neg hnewline, if_neg hcomment, if_pos hblank, rest_skip]
      have hother (y : List Cluster) : begin inComment (a :: as ++ y) =
          if a = ['/'] ∧ (as ++ y).head? = some ['/'] then begin true (as ++ y) else a :: (as ++ y) := by
        rw [List.cons_append, begin, skip, if_neg hnewline, if_neg hcomment, if_neg hblank]
        split
        · exact rest_skip _ _ _
        · rfl
      by_cases hslashes : a = ['/'] ∧ as.head? = some ['/']
      · obtain ⟨rfl, hhead⟩ := hslashes
        obtain ⟨as', rfl⟩ : ∃ as', as = ['/'] :: as' := by
          cases as with
          | nil => cases hhead
          | cons b as => exact ⟨as, by rw [Option.some.inj hhead]⟩
        exact hlater true fun y => (hother y).trans (if_pos ⟨rfl, rfl⟩)
      · refine .inr ⟨a, as, Nat.lt_succ_self _, fun y hy => (hother y).trans (if_neg ?_)⟩
        rintro ⟨ha, hhead⟩
        cases as with
        | nil =>
            have := hy _ hhead
            cases this
        | cons b as => exact hslashes ⟨ha, hhead⟩

theorem words_congr {text text' : List Cluster} (h : begin false text = begin false text') :
    words text = words text' := by
  rw [words_eq, words_eq text', h]

theorem begin_newlines {x : List Cluster} (hx : ∀ n ∈ x, Cluster.isNewline n = true) : begin false x = [] := by
  induction x with
  | nil => rfl
  | cons n x ih =>
      have hn := hx n List.mem_cons_self
      rw [begin, skip, if_pos hn, rest_skip]
      exact ih fun n hmem => hx n (List.mem_cons_of_mem _ hmem)

theorem kind_first_ne_eof (g : Cluster) (rest : List Cluster) : (first (g :: rest)).1.kind ≠ .eof := by
  change (read ⟨g :: rest, 0⟩).1.kind ≠ .eof
  rw [read]
  split
  · rename_i hkind
    exact (single?_kind hkind).2.2
  · split
    · rename_i hkinds
      obtain ⟨⟨-, -, halone⟩, -, -, hextended⟩ := extensible?_kind hkinds
      split
      · exact hextended
      · exact halone
    · split
      · rw [readString]
        split <;> simp [take]
      · split
        · rw [readNumber]
          split
          · split <;> simp [take]
          · simp [take]
        · split
          · exact ofWord_ne_eof _
          · simp [take]

/-- A text whose strings are all complete is read up to its end, whatever lines follow. -/
theorem words_append (as : List Cluster) {x : List Cluster} (hx : ∀ n ∈ x, Cluster.isNewline n = true)
    (hplain : ∀ t ∈ words (as ++ x), t.kind ≠ .error .unterminatedString) :
    ∃ ts, ∀ y, Ends y → words (as ++ y) = ts ++ words y := by
  have hends : Ends x := fun n hn => hx n (List.mem_of_mem_head? hn)
  induction hlen : as.length using Nat.strongRecOn generalizing as with
  | ind n ih =>
      subst hlen
      rcases begin_append false as with hbegin | ⟨g, rest, hlt, hbegin⟩
      · exact ⟨[], fun y hy => words_congr (hbegin y hy)⟩
      · have hquote : g = ['"'] → rest.dropWhile (· != ['"']) ≠ [] := by
          rintro rfl hrest
          refine hplain _ ?_ ((first_unterminated ?_ : (first (['"'] :: (rest ++ x))).1.kind = _))
          · rw [words_eq, hbegin x hends]
            exact List.mem_cons_self
          · rw [List.dropWhile_eq_nil_iff] at hrest ⊢
            intro n hn
            rcases List.mem_append.mp hn with hn | hn
            · exact hrest n hn
            · have := hx n hn
              simp only [bne_iff_ne, ne_eq]
              rintro rfl
              cases this
        have hwords (y : List Cluster) (hy : Ends y) :
            words (as ++ y) = (first (g :: rest)).1 :: words ((first (g :: rest)).2 ++ y) := by
          rw [words_eq, hbegin y hy, first_append hy hquote, if_neg (kind_first_ne_eof g rest)]
        have hshorter : (first (g :: rest)).2.length < (g :: rest).length :=
          read_shorter (s := ⟨g :: rest, 0⟩) nofun
        obtain ⟨ts, hts⟩ := ih _ (Nat.lt_of_lt_of_le hshorter hlt) (first (g :: rest)).2
          (fun t ht => hplain t (by rw [hwords x hends]; exact List.mem_cons_of_mem _ ht)) rfl
        exact ⟨(first (g :: rest)).1 :: ts, fun y hy => by rw [hwords y hy, hts y hy, List.cons_append]⟩

end Ends

theorem words_ofString (source : String) :
    (ofString source).tokens.map Token.unlined = words (clusters source.toList) :=
  tokens_line _ _

/-- A text, a newline and another text: the tokens of the first, but for the end token, and those of the
second. -/
theorem words_lines (source source' : String)
    (hplain : ∀ t ∈ (ofString source).tokens, t.kind ≠ .error .unterminatedString) :
    ∃ ts last, (ofString source).tokens.map Token.unlined = ts ++ [last] ∧
      (ofString (source ++ "\n" ++ source')).tokens.map Token.unlined =
        ts ++ (ofString source').tokens.map Token.unlined := by
  obtain ⟨as, x, n, hsource, hx, hn, hboth⟩ := clusters_append source.toList source'.toList
  have htext : (source ++ "\n" ++ source').toList = source.toList ++ '\n' :: source'.toList := by simp
  have hwords : ∀ t ∈ words (as ++ x), t.kind ≠ .error .unterminatedString := by
    intro t ht
    rw [← hsource, ← words_ofString, List.mem_map] at ht
    obtain ⟨t, ht, rfl⟩ := ht
    exact hplain t ht
  obtain ⟨ts, hts⟩ := words_append as hx hwords
  refine ⟨ts, (first []).1, ?_, ?_⟩
  · rw [words_ofString, hsource, hts x fun n hmem => hx n (List.mem_of_mem_head? hmem), words_eq,
      begin_newlines hx]
    rfl
  · have hends : Ends (n :: clusters source'.toList) := fun n' hmem => Option.some.inj hmem ▸ hn
    have hskip : begin false (n :: clusters source'.toList) = begin false (clusters source'.toList) := by
      rw [begin, skip, if_pos hn, rest_skip]
    rw [words_ofString, words_ofString, htext, hboth, hts _ hends, words_congr hskip]

end Scanner

/-! ## Declarations -/

namespace Syntax

/-- Lines are nothing to the grammar. -/
theorem Derives.unlined {x : Phrase} {ts : List Token} (h : Derives x ts) : Derives x (ts.map Token.unlined) := by
  induction h
  all_goals try simp only [List.map_append, List.map_cons, List.map_nil]
  case number t _ hk hn => exact @Derives.number t.unlined _ hk hn
  case string t hk => exact @Derives.string t.unlined hk
  case nil hk => exact .nil hk
  case true hk => exact .true hk
  case false hk => exact .false hk
  case «variable» t hk => exact @Derives.variable t.unlined hk
  case this hk => exact .this hk
  case super t dot name hk hdot hname => exact @Derives.super t.unlined dot.unlined name.unlined hk hdot hname
  case grouping hl hr _ ih => exact .grouping hl hr ih
  case call hl hr _ _ ih ih' => exact .call hl hr ih ih'
  case get dot name _ _ hdot hname _ ih => exact @Derives.get dot.unlined name.unlined _ _ hdot hname ih
  case unary op hk _ ih => exact .unary op hk ih
  case binary op hk hq _ _ ih ih' => exact .binary op hk hq ih ih'
  case and hk _ _ ih ih' => exact .and hk ih ih'
  case or hk _ _ ih ih' => exact .or hk ih ih'
  case assign name t _ _ hname hk _ ih => exact @Derives.assign name.unlined t.unlined _ _ hname hk ih
  case set dot name t _ _ _ _ hdot hname hk _ _ ih ih' =>
    exact @Derives.set dot.unlined name.unlined t.unlined _ _ _ _ hdot hname hk ih ih'
  case tighter hp _ ih => exact .tighter hp ih
  case noArguments => exact .noArguments
  case lastArgument ih => exact .lastArgument ih
  case argument hk _ _ ih ih' => exact .argument hk ih ih'
  case absent => exact .absent
  case present ih => exact .present ih
  case expression hk _ ih => exact .expression hk ih
  case print hk hsemi _ ih => exact .print hk hsemi ih
  case assert hk hsemi _ ih => exact .assert hk hsemi ih
  case block hl hr _ ih => exact .block hl hr ih
  case cond ht hl hr _ _ ih ih' => exact .cond ht hl hr ih ih'
  case condElse ht hl hr ht' _ _ hopen _ ih ih' ih'' => exact .condElse ht hl hr ht' ih ih' hopen ih''
  case «while» ht hl hr _ _ ih ih' => exact .while ht hl hr ih ih'
  case «for» ht hl hsemi hr _ _ _ _ ih ih' ih'' ih''' => exact .for ht hl hsemi hr ih ih' ih'' ih'''
  case «return» ht hsemi _ ih => exact .return ht hsemi ih
  case noFirst hsemi => exact .noFirst hsemi
  case firstVar ih => exact .firstVar ih
  case firstExpression ih => exact .firstExpression ih
  case statement ih => exact .statement ih
  case var t name semi ht hname hsemi => exact @Derives.var t.unlined name.unlined semi.unlined ht hname hsemi
  case varValue t name eq semi _ _ ht hname heq hsemi _ ih =>
    exact @Derives.varValue t.unlined name.unlined eq.unlined semi.unlined _ _ ht hname heq hsemi ih
  case functionDeclaration ht _ ih => exact .functionDeclaration ht ih
  case cls t name l r _ _ ht hname hl hr _ ih =>
    exact @Derives.cls t.unlined name.unlined l.unlined r.unlined _ _ ht hname hl hr ih
  case subclass t name less parent l r _ _ ht hname hless hparent hl hr _ ih =>
    exact @Derives.subclass t.unlined name.unlined less.unlined parent.unlined l.unlined r.unlined _ _ ht hname
      hless hparent hl hr ih
  case noDeclarations => exact .noDeclarations
  case declarations ih ih' => exact .declarations ih ih'
  case noParameters => exact .noParameters
  case lastParameter name hname => exact @Derives.lastParameter name.unlined hname
  case parameter name comma _ _ _ hname hcomma _ ih =>
    exact @Derives.parameter name.unlined comma.unlined _ _ _ hname hcomma ih
  case function name l r lb rb _ _ _ _ hname hl hr hlb hrb _ _ ih ih' =>
    exact @Derives.function name.unlined l.unlined r.unlined lb.unlined rb.unlined _ _ _ _ hname hl hr hlb hrb ih ih'
  case noMethods => exact .noMethods
  case methods ih ih' => exact .methods ih ih'

theorem Derives.append {ss ss' : List Stmt} {ts ts' : List Token} (h : Derives (.declarations ss) ts)
    (h' : Derives (.declarations ss') ts') : Derives (.declarations (ss ++ ss')) (ts ++ ts') := by
  induction ss generalizing ts with
  | nil =>
      cases h
      exact h'
  | cons s ss ih =>
      cases h with
      | declarations hs h =>
          rw [List.append_assoc]
          exact .declarations hs (ih h)

theorem Script.unlined {ts : List Token} {tree : List Stmt} (h : Script ts tree) :
    Script (ts.map Token.unlined) tree := by
  obtain ⟨ts, last, rfl, hlast, hd⟩ := h
  exact ⟨ts.map Token.unlined, last.unlined, List.map_append, hlast, hd.unlined⟩

/-- A text, a newline and another text are the declarations of both. -/
theorem Script.append {source source' : String} {tree tree' tree'' : List Stmt}
    (h : Script (Scanner.ofString source).tokens tree) (h' : Script (Scanner.ofString source').tokens tree')
    (h'' : Script (Scanner.ofString (source ++ "\n" ++ source')).tokens tree'')
    (hplain : ∀ t ∈ (Scanner.ofString source).tokens, t.kind ≠ .error .unterminatedString) :
    tree'' = tree ++ tree' := by
  obtain ⟨words, end₀, hwords, hboth⟩ := Scanner.words_lines source source' hplain
  obtain ⟨ts, last, hts, -, hd⟩ := h.unlined
  obtain ⟨ts', last', hts', hlast', hd'⟩ := h'.unlined
  obtain ⟨rfl, rfl⟩ := List.append_singleton_inj.mp (hwords.symm.trans hts)
  refine h''.unlined.unique ⟨words ++ ts', last', ?_, hlast', hd.append hd'⟩
  rw [hboth, hts', List.append_assoc]

end Syntax

end LoxMachine
