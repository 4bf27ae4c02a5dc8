import LoxMachine.Proofs.Guarded.Expressions

/-!
# Statements with static errors

Where the tokens are those of a statement, the guarded rules read them whatever rules of the language
they break. Recovery at the end of a declaration either stays there, or passes over exactly one
expression statement, or comes to a brace (`resume_settles`).
-/

namespace LoxMachine.Guarded

open Builder Syntax

/-! ## Tokens of expressions -/

/-- A token that recovery passes over and does not stop behind. -/
def IsInner (t : Token) : Prop :=
  t.kind ≠ .eof ∧ t.kind ≠ .semicolon ∧ startsStatement t.kind = false ∧ isBrace t.kind = false

/-- An expression consists of tokens that recovery passes over. -/
theorem inner_of_derives {x : Phrase} {ts : List Token} (h : Derives x ts) :
    match x with
    | .expression _ _ | .arguments _ => ∀ t ∈ ts, IsInner t
    | _ => True := by
  have hunary (op : UnaryOp) : op.kind ≠ .eof ∧ op.kind ≠ .semicolon ∧
      startsStatement op.kind = false ∧ isBrace op.kind = false := by cases op <;> decide
  have hbinary (op : BinaryOp) : op.kind ≠ .eof ∧ op.kind ≠ .semicolon ∧
      startsStatement op.kind = false ∧ isBrace op.kind = false := by cases op <;> decide
  induction h <;> simp_all [IsInner, or_imp, startsStatement, isBrace]

/-- Declarations of which the first is an expression statement, and those behind it. -/
def Skipped (ts ts' : List Token) : Prop :=
  ∃ us semi, ts = us ++ semi :: ts' ∧ semi.kind = .semicolon ∧ ∀ u ∈ us, IsInner u

/-- A declaration that begins with a token of an expression is an expression statement. -/
theorem skipped_of_derives {st : Stmt} {ts : List Token} (h : Derives (.declaration st) ts)
    (hbegins : ∀ t ∈ ts.head?, BeginsExpression t.kind) (us : List Token) :
    Skipped (ts ++ us) us := by
  cases h with
  | statement h =>
      cases h with
      | @expression semi e ts hsemi he =>
          exact ⟨ts, semi, by simp, hsemi, inner_of_derives he⟩
      | _ => simp_all [BeginsExpression]
  | _ => simp_all [BeginsExpression]

/-! ## At the end of a declaration -/

section Resume

variable {s : Builder} {r t : Token} {ts ts' us : List Token} {b : Nat}

theorem isLost_run (hs : s.Holds (t :: us)) : isLost s =
    (!(decide (t.kind = .eof) || decide (s.previous.kind = .semicolon) || startsStatement t.kind), s) := by
  rw [← current_of_holds hs]
  rfl

theorem skipToken_run (hs : s.Holds (t :: us)) : skipToken s =
    if isBrace t.kind = true then .error (.overBrace s.errors) else .ok ((), (Builder.advance s).2) := by
  change ((if isBrace s.current.kind = true then halt (.overBrace s.errors)
    else liftM Builder.advance : Guarded Unit) s) = _
  rw [current_of_holds hs]
  split <;> rfl

/-- The rest of an expression statement is passed over, and no more. -/
theorem skip_settles (hs : s.Holds (us ++ t :: ts)) (ht : t.kind = .semicolon)
    (hus : ∀ u ∈ us, IsInner u) (hprevious : s.previous.kind ≠ .semicolon) :
    Settles ((repeatWhile isLost skipToken b >>= pure) s) fun _ s' => s'.Holds ts := by
  induction us generalizing s b with
  | nil =>
      have hlost : isLost s = (true, s) := by
        rw [isLost_run hs, ht, decide_eq_false hprevious]
        rfl
      refine .loopStep hlost fun b => ?_
      have hskip : skipToken s = .ok ((), (Builder.advance s).2) := by
        rw [skipToken_run hs, ht, if_neg nofun]
      obtain ⟨hat, hp⟩ := advance_holds hs (by rw [ht]; nofun)
      rw [bind_ok hskip]
      have hne : ts ≠ [] := fun hnil => by
        have := hat.rest
        rw [hnil] at this
        exact nomatch this
      obtain ⟨u, us, rfl⟩ := List.exists_cons_of_ne_nil hne
      have hend : isLost (Builder.advance s).2 = (false, (Builder.advance s).2) := by
        rw [isLost_run hat, hp, decide_eq_true ht]
        simp
      exact .loopEnd hend hat
  | cons u us ih =>
      obtain ⟨heof, hsemi, hstarts, hbrace⟩ := hus u List.mem_cons_self
      have hlost : isLost s = (true, s) := by
        rw [isLost_run hs, decide_eq_false heof, decide_eq_false hprevious, hstarts]
        rfl
      refine .loopStep hlost fun b => ?_
      have hskip : skipToken s = .ok ((), (Builder.advance s).2) := by
        rw [skipToken_run hs, hbrace, if_neg nofun]
      obtain ⟨hat, hp⟩ := advance_holds hs heof
      rw [bind_ok hskip]
      exact ih hat (fun u hu => hus u (List.mem_cons_of_mem _ hu)) (hp ▸ hsemi)

/-- Recovery stops at a brace that it would pass over. -/
theorem brace_settles {R : Unit → Builder → Prop} (hs : s.Holds (t :: us))
    (herror : s.errors ≠ #[]) (hlost : isLost s = (true, s)) (ht : isBrace t.kind = true) :
    Settles ((repeatWhile isLost skipToken b >>= pure) s) R := by
  refine .loopStep hlost fun b => ?_
  have hskip : skipToken s = .error (.overBrace s.errors) := by
    rw [skipToken_run hs, if_pos ht]
  rw [bind_error hskip]
  exact ⟨herror, hs.errors.1⟩

/-- What closes a sequence of declarations. -/
def Closing (r : Token) : Prop :=
  r.kind = .rightBrace ∨ r.kind = .eof

/-- Recovery between declarations stays where it is, or passes over one expression statement, or
comes to a brace. -/
theorem resume_settles (hs : s.Holds (ts ++ r :: us)) (herror : s.errors ≠ #[]) (hr : Closing r)
    (hbegins : ∀ t ∈ ts.head?, BeginsDeclaration t.kind)
    (hskip : ∀ t ∈ ts.head?, BeginsExpression t.kind → Skipped ts ts') :
    Settles (resumeWarily b s) fun _ s' =>
      s'.Holds (ts ++ r :: us) ∨ Skipped ts ts' ∧ s'.Holds (ts' ++ r :: us) := by
  have hcalm : Builder.Holds { s with panicking := false } (ts ++ r :: us) :=
    ⟨hs.fed, hs.rest, hs.plain, hs.errors.1, nofun⟩
  have herror : Builder.errors { s with panicking := false } ≠ #[] := herror
  change Settles (repeatWhile isLost skipToken b { s with panicking := false }) _
  generalize { s with panicking := false } = s at hcalm herror
  rw [← bind_pure (repeatWhile isLost skipToken b)]
  cases hlost : (isLost s).1 with
  | false => exact .loopEnd (Prod.ext hlost rfl) (.inl hcalm)
  | true =>
      have hlost : isLost s = (true, s) := Prod.ext hlost rfl
      cases ts with
      | nil =>
          rcases hr with hr | hr
          · exact brace_settles hcalm herror hlost (by rw [hr]; rfl)
          · rw [isLost_run hcalm, hr] at hlost
            cases hlost
      | cons t ts =>
          cases hbrace : isBrace t.kind with
          | true => exact brace_settles hcalm herror hlost hbrace
          | false =>
              have hkinds := congrArg Prod.fst (isLost_run hcalm ▸ hlost)
              simp only [Bool.not_eq_true', Bool.or_eq_false_iff, decide_eq_false_iff_not] at hkinds
              have hexpression : BeginsExpression t.kind := by
                have hdeclaration := hbegins t rfl
                have hstarts := hkinds.2
                revert hdeclaration hstarts hbrace
                cases t.kind <;> simp [BeginsDeclaration, BeginsStatement, BeginsExpression,
                  startsStatement, isBrace]
              have hskipped := hskip t rfl hexpression
              obtain ⟨vs, semi, hts, hsemi, hinner⟩ := hskipped
              rw [hts, List.append_assoc] at hcalm
              exact (skip_settles hcalm hsemi hinner hkinds.1.2).map fun _ _ h =>
                .inr ⟨hskip t rfl hexpression, h⟩

end Resume

/-! ## Statements -/

/-- The parts of a construct inside another one, with `k` tokens left at its beginning. -/
def partsBelow (n k : Nat) : Parts :=
  ⟨n, within (n + 1) .assignment, below k (statement resumeWarily n),
    below k (declaration resumeWarily n), resumeWarily (n + 1)⟩

/-- A declaration without the recovery at its end. -/
def declared (parts : Parts) : Guarded Unit := do
  if ← accept .kwClass then classDeclaration parts
  else if ← accept .kwFun then functionDeclaration parts
  else if ← accept .kwVar then variableDeclaration parts
  else statementRule parts

theorem declarationRule_eq (parts : Parts) : declarationRule parts = (do
    declared parts
    if (← get).panicking then parts.recover) := by
  unfold declarationRule declared
  simp only [bind_assoc]
  congr 1; funext b; cases b
  · simp only [Bool.false_eq_true, if_false, bind_assoc]
    congr 1; funext b; cases b
    · simp only [Bool.false_eq_true, if_false, bind_assoc]
      congr 1; funext b; cases b <;> rfl
    · rfl
  · rfl

section Statements

variable {s : Builder} {t r semi : Token} {ts us vs : List Token} {n k b : Nat} {e : Expr}
  {α : Type} {f : Unit → Guarded α} {R : α → Builder → Prop}

/-- An expression, up to a token that ends it. -/
theorem expression_then (hd : Derives (.expression .assignment e) ts) (hs : s.Holds (ts ++ t :: us))
    (ht : t.kind = .semicolon ∨ t.kind = .rightParen)
    (hf : ∀ s', s'.Holds (t :: us) → Settles (f () s') R) :
    Settles (((partsBelow n k).expression >>= f) s) R := by
  refine (expression_settles hd hs ?_ ?_).bind fun _ _ hat => hf _ hat
  all_goals rcases ht with ht | ht <;> rw [ht] <;> first | rfl | nofun

/-- What has been shown of a statement that is a part of a construct. -/
def StatementRead (st : Stmt) (ts : List Token) : Prop :=
  ∀ {n k s t us}, s.Holds (ts ++ t :: us) → (st.isOpen = true → t.kind ≠ .kwElse) →
    Settles (statementRule (partsBelow n k) s) fun _ s' => s'.Holds (t :: us)

theorem StatementRead.part {st : Stmt} (h : StatementRead st ts) (hs : s.Holds (ts ++ t :: us))
    (ht : st.isOpen = true → t.kind ≠ .kwElse) :
    Settles ((partsBelow n k).statement s) fun _ s' => s'.Holds (t :: us) := by
  cases n with
  | zero => exact Settles.fewer (x := halt .unfinished) trivial
  | succ n =>
      refine Settles.fewer ?_
      rw [statement, get_bind]
      exact h hs ht

/-- The rule for a statement that begins with a token of its own. -/
def keywordRule (parts : Parts) : TokenKind → Option (Guarded Unit)
  | .kwPrint => some (printStatement parts)
  | .kwAssert => some (assertStatement parts)
  | .kwIf => some (ifStatement parts)
  | .kwReturn => some (returnStatement parts)
  | .kwWhile => some (whileStatement parts)
  | .kwFor => some (forStatement parts)
  | .leftBrace => some (blockStatement parts)
  | _ => none

theorem statementRule_settles {parts : Parts} {R : Unit → Builder → Prop} (hs : s.Holds (t :: us))
    (hx : ∀ x, keywordRule parts t.kind = some x →
      ∀ s', s'.Holds us → s'.previous = t → Settles (x s') R)
    (hy : keywordRule parts t.kind = none → Settles (expressionStatement parts s) R) :
    Settles (statementRule parts s) R := by
  rw [statementRule]
  refine .keyword hs nofun (fun hk => hx _ (by rw [hk]; rfl)) fun h₁ => ?_
  refine .keyword hs nofun (fun hk => hx _ (by rw [hk]; rfl)) fun h₂ => ?_
  refine .keyword hs nofun (fun hk => hx _ (by rw [hk]; rfl)) fun h₃ => ?_
  refine .keyword hs nofun (fun hk => hx _ (by rw [hk]; rfl)) fun h₄ => ?_
  refine .keyword hs nofun (fun hk => hx _ (by rw [hk]; rfl)) fun h₅ => ?_
  refine .keyword hs nofun (fun hk => hx _ (by rw [hk]; rfl)) fun h₆ => ?_
  refine .keyword hs nofun (fun hk => hx _ (by rw [hk]; rfl)) fun h₇ => hy ?_
  unfold keywordRule
  split <;> first | contradiction | rfl

theorem statement_keyword {x : Guarded Unit} {R : Unit → Builder → Prop} (hs : s.Holds (t :: us))
    (hx : keywordRule (partsBelow n k) t.kind = some x)
    (hf : ∀ s', s'.Holds us → s'.previous = t → Settles (x s') R) :
    Settles (statementRule (partsBelow n k) s) R := by
  refine statementRule_settles hs (fun y hy => ?_) fun hnone => nomatch hx.symm.trans hnone
  obtain rfl := Option.some.inj (hx.symm.trans hy)
  exact hf

/-! ### Simple statements -/

theorem read_print (ht : t.kind = .kwPrint) (hsemi : semi.kind = .semicolon)
    (hd : Derives (.expression .assignment e) ts) :
    StatementRead (.print e) (t :: ts ++ [semi]) := by
  intro n k s t' us hs _
  have hs : s.Holds (t :: (ts ++ semi :: t' :: us)) := by simpa using hs
  refine statement_keyword hs (by rw [ht]; rfl) fun s₁ hat₁ _ => ?_
  refine expression_then hd hat₁ (.inl hsemi) fun s₂ hat₂ => .expect hat₂ hsemi fun s₃ hat₃ _ => ?_
  exact .last hat₃

theorem read_assert (ht : t.kind = .kwAssert) (hsemi : semi.kind = .semicolon)
    (hd : Derives (.expression .assignment e) ts) :
    StatementRead (.assert e) (t :: ts ++ [semi]) := by
  intro n k s t' us hs _
  have hs : s.Holds (t :: (ts ++ semi :: t' :: us)) := by simpa using hs
  refine statement_keyword hs (by rw [ht]; rfl) fun s₁ hat₁ _ => ?_
  refine expression_then hd hat₁ (.inl hsemi) fun s₂ hat₂ => .expect hat₂ hsemi fun s₃ hat₃ _ => ?_
  exact .last hat₃

theorem expressionStatement_settles (hsemi : semi.kind = .semicolon)
    (hd : Derives (.expression .assignment e) ts) (hs : s.Holds (ts ++ semi :: us)) :
    Settles (expressionStatement (partsBelow n k) s) fun _ s' => s'.Holds us :=
  expression_then hd hs (.inl hsemi) fun _ hat => .expect hat hsemi fun _ hat' _ => .last hat'

/-- The first token of an expression is there and begins no other statement. -/
theorem exists_first (hd : Derives (.expression .assignment e) ts) :
    ∃ t us, ts = t :: us ∧ BeginsExpression t.kind := by
  obtain ⟨t, us, rfl⟩ := List.exists_cons_of_length_pos (hd.pos rfl)
  exact ⟨t, us, rfl, hd.begins t rfl⟩

theorem keywordRule_of_begins {parts : Parts} {kind : TokenKind} (h : BeginsExpression kind) :
    keywordRule parts kind = none := by
  cases kind <;> first | rfl | cases h

theorem read_expression (hsemi : semi.kind = .semicolon)
    (hd : Derives (.expression .assignment e) ts) :
    StatementRead (.expression e) (ts ++ [semi]) := by
  intro n k s t' us hs _
  rw [List.append_assoc] at hs
  have hstatement := expressionStatement_settles (n := n) (k := k) hsemi hd hs
  obtain ⟨t, vs, rfl, hbegins⟩ := exists_first hd
  have hnone : keywordRule (partsBelow n k) t.kind = none := keywordRule_of_begins hbegins
  exact statementRule_settles hs (fun x hx => nomatch hnone.symm.trans hx) fun _ => hstatement

/-- What is known of an expression that may be missing. -/
theorem optional_cases {o : Option Expr} (hd : Derives (.optional o) ts) :
    o = none ∧ ts = [] ∨ ∃ e, o = some e ∧ Derives (.expression .assignment e) ts := by
  cases hd with
  | absent => exact .inl ⟨rfl, rfl⟩
  | present h => exact .inr ⟨_, rfl, h⟩

theorem read_return {o : Option Expr} (ht : t.kind = .kwReturn) (hsemi : semi.kind = .semicolon)
    (hd : Derives (.optional o) ts) : StatementRead (.return o) (t :: ts ++ [semi]) := by
  intro n k s t' us hs _
  have hs : s.Holds (t :: (ts ++ semi :: t' :: us)) := by simpa using hs
  refine statement_keyword hs (by rw [ht]; rfl) fun s₁ hat₁ _ => ?_
  have hvalue {e : Expr} (hd : Derives (.expression .assignment e) ts) {s : Builder}
      (hs : s.Holds (ts ++ semi :: t' :: us)) : Settles ((do
        (partsBelow n k).expression
        expect .returnEnd
        emit .ret : Guarded Unit) s) fun _ s' => s'.Holds (t' :: us) :=
    expression_then hd hs (.inl hsemi) fun _ hat => .expect hat hsemi fun _ hat' _ => .last hat'
  have hrest {s : Builder} (hs : s.Holds (ts ++ semi :: t' :: us)) : Settles ((do
      if ← accept .semicolon then emitReturn
      else
        if (← get).body.kind = .initializer then error .initializerReturn
        (partsBelow n k).expression
        expect .returnEnd
        emit .ret : Guarded Unit) s) fun _ s' => s'.Holds (t' :: us) := by
    rcases optional_cases hd with ⟨-, rfl⟩ | ⟨e, -, hd⟩
    · exact .accept hs hsemi nofun fun _ hat _ => .last (x := liftM emitReturn) hat
    · obtain ⟨u, vs, rfl, hbegins⟩ := exists_first hd
      refine .acceptNot hs (fun hk => by rw [hk] at hbegins; exact hbegins) ?_
      rw [if_neg nofun, get_bind]
      dsimp only
      split
      · exact .waits hs fun _ _ hat _ => hvalue hd hat
      · exact hvalue hd hs
  rw [returnStatement, get_bind]
  dsimp only
  split
  · exact .waits hat₁ fun _ _ hat _ => hrest hat
  · exact hrest hat₁

/-! ### Branches and loops -/

theorem read_if {c : Expr} {yes : Stmt} {l r : Token} (ht : t.kind = .kwIf)
    (hl : l.kind = .leftParen) (hr : r.kind = .rightParen)
    (hd : Derives (.expression .assignment c) ts) (hyes : StatementRead yes us) :
    StatementRead (.cond c yes none) (t :: l :: ts ++ r :: us) := by
  intro n k s t' vs hs helse
  have hs : s.Holds (t :: l :: (ts ++ r :: (us ++ t' :: vs))) := by simpa using hs
  refine statement_keyword hs (by rw [ht]; rfl) fun s₁ hat₁ _ => ?_
  refine .expect hat₁ hl fun s₂ hat₂ _ => expression_then hd hat₂ (.inr hr) fun s₃ hat₃ => ?_
  refine .expect hat₃ hr fun s₄ hat₄ _ => .waits hat₄ fun _ s₅ hat₅ _ => .waits hat₅ fun _ s₆ hat₆ _ => ?_
  refine (hyes.part hat₆ fun _ => helse rfl).bind fun _ s₇ hat₇ => .waits hat₇ fun _ s₈ hat₈ _ => ?_
  refine .waits hat₈ fun _ s₉ hat₉ _ => .waits hat₉ fun _ s₁₀ hat₁₀ _ => ?_
  refine .acceptNot hat₁₀ (helse rfl) ?_
  exact .last (x := patchJump _) hat₁₀

theorem read_ifElse {c : Expr} {yes no : Stmt} {l r t₁ : Token} (ht : t.kind = .kwIf)
    (hl : l.kind = .leftParen) (hr : r.kind = .rightParen) (ht₁ : t₁.kind = .kwElse)
    (hd : Derives (.expression .assignment c) ts) (hyes : StatementRead yes us)
    (hopen : yes.isOpen = false) (hno : StatementRead no vs) :
    StatementRead (.cond c yes (some no)) (t :: l :: ts ++ r :: us ++ t₁ :: vs) := by
  intro n k s t' ws hs helse
  have hs : s.Holds (t :: l :: (ts ++ r :: (us ++ t₁ :: (vs ++ t' :: ws)))) := by simpa using hs
  refine statement_keyword hs (by rw [ht]; rfl) fun s₁ hat₁ _ => ?_
  refine .expect hat₁ hl fun s₂ hat₂ _ => expression_then hd hat₂ (.inr hr) fun s₃ hat₃ => ?_
  refine .expect hat₃ hr fun s₄ hat₄ _ => .waits hat₄ fun _ s₅ hat₅ _ => .waits hat₅ fun _ s₆ hat₆ _ => ?_
  refine (hyes.part hat₆ fun h => nomatch hopen.symm.trans h).bind fun _ s₇ hat₇ => .waits hat₇ fun _ s₈ hat₈ _ => ?_
  refine .waits hat₈ fun _ s₉ hat₉ _ => .waits hat₉ fun _ s₁₀ hat₁₀ _ => ?_
  refine .accept hat₁₀ ht₁ nofun fun s₁₁ hat₁₁ _ => ?_
  exact (hno.part hat₁₁ helse).bind fun _ _ hat => .last hat

theorem read_while {c : Expr} {st : Stmt} {l r : Token} (ht : t.kind = .kwWhile)
    (hl : l.kind = .leftParen) (hr : r.kind = .rightParen)
    (hd : Derives (.expression .assignment c) ts) (hst : StatementRead st us) :
    StatementRead (.while c st) (t :: l :: ts ++ r :: us) := by
  intro n k s t' vs hs helse
  have hs : s.Holds (t :: l :: (ts ++ r :: (us ++ t' :: vs))) := by simpa using hs
  refine statement_keyword hs (by rw [ht]; rfl) fun s₁ hat₁ _ => .waits hat₁ fun start s₂ hat₂ _ => ?_
  refine .expect hat₂ hl fun s₃ hat₃ _ => expression_then hd hat₃ (.inr hr) fun s₄ hat₄ => ?_
  refine .expect hat₄ hr fun s₅ hat₅ _ => .waits hat₅ fun _ s₆ hat₆ _ => .waits hat₆ fun _ s₇ hat₇ _ => ?_
  refine (hst.part hat₇ helse).bind fun _ s₈ hat₈ => .waits hat₈ fun _ s₉ hat₉ _ => ?_
  exact .waits hat₉ fun _ s₁₀ hat₁₀ _ => .last hat₁₀

/-- What has been shown of the first clause of a loop. -/
def FirstRead (ts : List Token) : Prop :=
  ∀ {n k s us}, s.Holds (ts ++ us) →
    Settles (forInitializer (partsBelow n k) s) fun _ s' => s'.Holds us

theorem forCondition_settles {o : Option Expr} (hd : Derives (.optional o) ts)
    (hsemi : semi.kind = .semicolon) (hs : s.Holds (ts ++ semi :: us)) :
    Settles (forCondition (partsBelow n k) s) fun _ s' => s'.Holds us := by
  rw [forCondition]
  rcases optional_cases hd with ⟨-, rfl⟩ | ⟨e, -, hd⟩
  · exact .accept hs hsemi nofun fun _ hat _ => hat
  · have hs' := hs
    obtain ⟨u, vs, rfl, hbegins⟩ := exists_first hd
    refine .acceptNot hs (fun hk => by rw [hk] at hbegins; exact hbegins) ?_
    rw [if_neg nofun]
    refine expression_then hd hs' (.inl hsemi) fun s₁ hat₁ => .expect hat₁ hsemi fun s₂ hat₂ _ => ?_
    exact .waits hat₂ fun _ s₃ hat₃ _ => .last hat₃

theorem forIncrement_settles {o : Option Expr} {start : Nat} (hd : Derives (.optional o) ts)
    (hr : r.kind = .rightParen) (hs : s.Holds (ts ++ r :: us)) :
    Settles (forIncrement (partsBelow n k) start s) fun _ s' => s'.Holds us := by
  rw [forIncrement]
  rcases optional_cases hd with ⟨-, rfl⟩ | ⟨e, -, hd⟩
  · exact .accept hs hr nofun fun _ hat _ => hat
  · have hs' := hs
    obtain ⟨u, vs, rfl, hbegins⟩ := exists_first hd
    refine .acceptNot hs (fun hk => by rw [hk] at hbegins; exact hbegins) ?_
    rw [if_neg nofun]
    refine .waits hs' fun _ s₁ hat₁ _ => .waits hat₁ fun _ s₂ hat₂ _ => ?_
    refine expression_then hd hat₂ (.inr hr) fun s₃ hat₃ => .waits hat₃ fun _ s₄ hat₄ _ => ?_
    exact .expect hat₄ hr fun s₅ hat₅ _ => .last hat₅

theorem read_for {init : Option Stmt} {c step : Option Expr} {st : Stmt} {l r : Token}
    {ws : List Token} (ht : t.kind = .kwFor) (hl : l.kind = .leftParen)
    (hsemi : semi.kind = .semicolon) (hr : r.kind = .rightParen) (hfirst : FirstRead ts)
    (hc : Derives (.optional c) us) (hstep : Derives (.optional step) vs) (hst : StatementRead st ws) :
    StatementRead (.for init c step st) (t :: l :: ts ++ us ++ semi :: vs ++ r :: ws) := by
  intro n k s t' xs hs helse
  have hs : s.Holds (t :: l :: (ts ++ (us ++ semi :: (vs ++ r :: (ws ++ t' :: xs))))) := by
    simpa using hs
  refine statement_keyword hs (by rw [ht]; rfl) fun s₁ hat₁ _ => .waits hat₁ fun _ s₂ hat₂ _ => ?_
  refine .expect hat₂ hl fun s₃ hat₃ _ => (hfirst hat₃).bind fun _ s₄ hat₄ => ?_
  refine .waits hat₄ fun start s₅ hat₅ _ => ?_
  refine (forCondition_settles hc hsemi hat₅).bind fun exit s₆ hat₆ => ?_
  refine (forIncrement_settles hstep hr hat₆).bind fun start s₇ hat₇ => ?_
  refine (hst.part hat₇ helse).bind fun _ s₈ hat₈ => .waits hat₈ fun _ s₉ hat₉ _ => ?_
  cases exit with
  | none => exact .last (x := endScope) hat₉
  | some exitJump =>
      exact .waits hat₉ fun _ s₁₀ hat₁₀ _ => .waits (x := liftM (emit .pop)) hat₁₀
        fun _ s₁₁ hat₁₁ _ => .last (x := endScope) hat₁₁

end Statements

end LoxMachine.Guarded
