import LoxMachine.Proofs.Compile.Script
import LoxMachine.Proofs.Verdict.Declarations

/-!
# Which texts are accepted

Main statement: `accepted_iff`. A text that passes no limit is accepted if and only if it can be
scanned, its tokens are those of a sequence of declarations, and these are legal.
-/

namespace LoxMachine

open Builder Syntax Statement

/-- No phrase contains an error. -/
theorem Syntax.Derives.plain {x : Phrase} {ts : List Token} (h : Derives x ts) :
    ∀ t ∈ ts, t.IsPlain := by
  have hunary (op : UnaryOp) (cause : ScanError) : op.kind ≠ .error cause := by
    cases op <;> nofun
  have hbinary (op : BinaryOp) (cause : ScanError) : op.kind ≠ .error cause := by
    cases op <;> nofun
  induction h <;> simp_all [Token.IsPlain, or_imp]

/-- The tokens of these declarations, up to the end of the text. -/
def Syntax.Script (tokens : List Token) (tree : List Stmt) : Prop :=
  ∃ ts last, tokens = ts ++ [last] ∧ last.kind = .eof ∧ Derives (.declarations tree) ts

/-- The text is too large in some respect. -/
def Rejection.ExceedsLimit (r : Rejection) : Prop :=
  ∃ e ∈ r.errors, e.IsLimit

namespace Program

section Verdict

variable {s : Builder} {c : Scope} {r : Token} {tokens ts us : List Token} {tree : List Stmt}

/-- A script goes on up to the end token, which it reads. -/
theorem guards_eof (hr : r.kind = .eof) : Guards (do return !(← accept .eof)) r where
  keeps := inferInstance
  go {s c t us} hs hk := by
    have hne : t.kind ≠ .eof := fun h => by rw [h] at hk; exact hk
    rw [bind_of_run (accept_of_ne (hs.tokens.current ▸ hne))]
    rfl
  stop {s c us} hs := by
    have hkind : s.current.kind = .eof := hs.tokens.current ▸ hr
    have hnil : s.upcoming = [] := by
      have hends := hs.tokens.sound.ends
      rwa [if_pos hkind] at hends
    have hrun : advance s = ((), { s with previous := s.current, upcoming := [] }) := by
      change ((), Builder.pull { s with previous := s.current } s.upcoming) = _
      rw [hnil]
      rfl
    have hsound := Keeps.sound (x := advance) s hs.tokens.sound
    rw [hrun] at hsound
    have hrest := hs.tokens.rest
    rw [rest, hnil] at hrest
    refine ⟨{ s with previous := s.current, upcoming := [] }, ?_,
      ⟨hsound, hs.tokens.clean, hrest, hs.tokens.plain⟩,
      hs.shows.stays (.of_body rfl rfl rfl rfl)⟩
    rw [accept_bind, if_pos hkind, bind_of_run hrun]
    rfl

instance (bound : Nat) : Keeps (declarations bound) := by
  unfold declarations
  infer_instance

theorem declarations_verdict (hd : Derives (.declarations tree) ts) (hr : r.kind = .eof)
    (hs : s.Stands .script (ts ++ [r])) {n : Nat} (hn : (ts ++ [r]).length ≤ n) :
    Decides (declarations n s) (legalAll .script tree) [r] fun _ _ => True := by
  have hall : DeclarationsJudged tree ts := judged_of_derives hd
  have hscript := hall (guards_eof hr) (by rw [hr]; nofun) hs (Nat.le_succ_of_le hn) hn
  have hend : Decides (declarations n s) (legalAll .script tree) [r] fun _ s' =>
      s'.Shows (tree.foldl Scope.after .script) := hs.bindLast hscript fun _ s₁ hs₁ => hs₁.last
  exact hend.map fun _ _ _ => trivial

/-- The start of a script. -/
theorem stands_start (firstIndex : Nat) {tokens : List Token} (hproper : ∀ t ∈ tokens, t.Proper)
    (hends : EndOnce tokens) (hplain : ∀ t ∈ tokens, t.IsPlain) :
    ((start firstIndex []).pull tokens).Stands .script tokens := by
  have hshows : (start firstIndex []).Shows .script :=
    ⟨Body.shows_new .script "", .nil, rfl, rfl, rfl⟩
  obtain ⟨t, us, rfl⟩ : ∃ t us, tokens = t :: us := by
    obtain ⟨inner, last, rfl, -⟩ := hends
    cases inner <;> exact ⟨_, _, rfl⟩
  have hpull : (start firstIndex []).pull (t :: us) =
      { start firstIndex [] with current := t, upcoming := us } := by
    rw [pull]
    split
    · exact absurd (by assumption) (hplain t List.mem_cons_self _)
    · rfl
  have hsound : ((start firstIndex []).pull (t :: us)).Sound := sound_first hproper hends
  refine ⟨⟨hsound, ?_, ?_, hplain⟩, hshows.stays (stays_pull _ _)⟩
  · rw [hpull]
    rfl
  · rw [hpull]
    rfl

theorem conclude_of_clean (h : s.errors = #[]) : conclude s = .ok ⟨s.finished, s.routine⟩ := by
  rw [conclude, h]
  rfl

theorem conclude_of_errors (h : s.errors ≠ #[]) :
    conclude s = .error ⟨s.errors.toList, s.finished.extract 0 s.sound⟩ := by
  rw [conclude, if_neg fun hempty => h (Array.isEmpty_iff.mp hempty)]

/-- Where no limit is passed, a script is accepted if and only if it is legal. -/
theorem ofTokens_verdict (firstIndex : Nat) (hproper : ∀ t ∈ tokens, t.Proper)
    (hends : EndOnce tokens) (hscript : Script tokens tree) (hplain : ∀ t ∈ tokens, t.IsPlain) :
    (∃ r, ofTokens firstIndex tokens = .error r ∧ r.ExceedsLimit) ∨
      ((∃ p, ofTokens firstIndex tokens = .ok p) ↔ legalAll .script tree) := by
  obtain ⟨ts, last, rfl, hlast, hd⟩ := hscript
  have hstands := stands_start firstIndex hproper hends hplain
  have hverdict := declarations_verdict hd hlast hstands (Nat.le_refl _)
  rw [ofTokens, script_run]
  generalize declarations _ _ = r at hverdict
  cases hverdict with
  | exceeds h =>
      obtain ⟨e, he, hlimit⟩ := h
      have herrors : r.2.errors ≠ #[] := fun h => by
        rw [h] at he
        exact absurd he (Array.not_mem_empty e)
      exact .inl ⟨_, conclude_of_errors herrors, e, Array.mem_toList_iff.mpr he, hlimit⟩
  | accepts hlegal hat _ =>
      exact .inr (iff_of_true ⟨_, conclude_of_clean hat.clean⟩ hlegal)
  | rejects hillegal herrors =>
      refine .inr (iff_of_false ?_ hillegal)
      rintro ⟨p, hp⟩
      rw [conclude_of_errors herrors] at hp
      cases hp

end Verdict

variable {firstIndex : Nat} {source : String} {p : Program}

/-- What an accepted text consists of. -/
theorem script_of_compile (h : compile firstIndex source = .ok p) :
    ∃ tree, Script (Scanner.ofString source).tokens tree ∧
      (∀ t ∈ (Scanner.ofString source).tokens, t.IsPlain) ∧ legalAll .script tree ∧
      p.LaidOut firstIndex tree := by
  obtain ⟨tree, ts, last, heq, hlast, hd, hlaid⟩ := compile_spec h
  obtain ⟨hproper, hends⟩ := Scanner.tokens_spec (Scanner.ofString source)
  have hscript : Script (Scanner.ofString source).tokens tree := ⟨ts, last, heq, hlast, hd⟩
  have hplain : ∀ t ∈ (Scanner.ofString source).tokens, t.IsPlain := by
    intro t ht cause hk
    rw [heq, List.mem_append, List.mem_singleton] at ht
    rcases ht with ht | rfl
    · exact hd.plain t ht cause hk
    · exact nomatch hlast.symm.trans hk
  refine ⟨tree, hscript, hplain, ?_, hlaid⟩
  rcases ofTokens_verdict firstIndex hproper hends hscript hplain with hlimit | hverdict
  · obtain ⟨r, hr, -⟩ := hlimit
    exact nomatch hr.symm.trans h
  · exact hverdict.mp ⟨p, h⟩

/-- A text that passes no limit is accepted if and only if it is a script of the language. -/
theorem accepted_iff
    (hlimit : ∀ r, compile firstIndex source = .error r → ¬ r.ExceedsLimit) :
    (∃ p, compile firstIndex source = .ok p) ↔
      (∀ t ∈ (Scanner.ofString source).tokens, t.IsPlain) ∧
        ∃ tree, Script (Scanner.ofString source).tokens tree ∧ legalAll .script tree := by
  constructor
  · rintro ⟨p, hp⟩
    obtain ⟨tree, hscript, hplain, hlegal, -⟩ := script_of_compile hp
    exact ⟨hplain, tree, hscript, hlegal⟩
  · rintro ⟨hplain, tree, hscript, hlegal⟩
    obtain ⟨hproper, hends⟩ := Scanner.tokens_spec (Scanner.ofString source)
    rcases ofTokens_verdict firstIndex hproper hends hscript hplain with hexceeds | hverdict
    · obtain ⟨r, hr, hexceeds⟩ := hexceeds
      exact absurd hexceeds (hlimit r hr)
    · exact hverdict.mpr hlegal

/-- Two variables of one name in a block pass no limit and are not accepted, so they are no legal
script. -/
theorem accepted_iff_redeclared :
    (∀ r, compile 0 "{ var a; var a; }" = .error r → ¬ r.ExceedsLimit) ∧
      ¬ ((∀ t ∈ (Scanner.ofString "{ var a; var a; }").tokens, t.IsPlain) ∧
        ∃ tree, Script (Scanner.ofString "{ var a; var a; }").tokens tree ∧ legalAll .script tree) := by
  have hcompile : (compile 0 "{ var a; var a; }").map (fun _ => ()) =
      .error ⟨[.grammar 1 (.atToken "a") .duplicateLocal], #[]⟩ := by decide +kernel
  cases hr : compile 0 "{ var a; var a; }" with
  | ok p =>
      rw [hr] at hcompile
      cases hcompile
  | error r =>
      rw [hr] at hcompile
      obtain rfl := Except.error.inj hcompile
      have hlimit : ∀ r, compile 0 "{ var a; var a; }" = .error r → ¬ r.ExceedsLimit := by
        rintro r hr'
        obtain rfl := Except.error.inj (hr.symm.trans hr')
        rintro ⟨e, he, hlimit⟩
        obtain rfl := List.mem_singleton.mp he
        exact hlimit
      refine ⟨fun r h => hlimit r (hr.trans h), fun h => ?_⟩
      obtain ⟨p, hp⟩ := (accepted_iff hlimit).mpr h
      exact nomatch hr.symm.trans hp

end Program

end LoxMachine
