import LoxMachine.Proofs.Compile.Classes
import LoxMachine.Proofs.Verdict.Variables

/-!
# The verdict on statements

Where the tokens are those of a statement, the rules read them, and whether they do so without an
error is decided by the rules that no grammar can state. The rules are taken one by one, each for
parts on which the verdict is known (`StatementJudged`).
-/

namespace LoxMachine.Statement

open Builder Syntax

/-! ## What is shown of phrases -/

/-- An `else` that follows would belong to the statement. -/
def TakesElse (st : Stmt) (us : List Token) : Prop :=
  st.isOpen = true ∧ ∃ t ∈ us.head?, t.kind = .kwElse

/-- The rules read these tokens, and decide whether the statement is legal. -/
def StatementJudged (st : Stmt) (ts : List Token) : Prop :=
  ∀ {n s c us}, s.Stands c (ts ++ us) → (ts ++ us).length ≤ n → ¬ TakesElse st us →
    Decides (statement n s) (st.Legal c) us fun _ s' => s'.Shows c

def DeclarationJudged (st : Stmt) (ts : List Token) : Prop :=
  ∀ {n s c us}, s.Stands c (ts ++ us) → (ts ++ us).length ≤ n → ¬ TakesElse st us →
    Decides (declaration n s) (st.Legal c) us fun _ s' => s'.Shows (c.after st)

/-- A condition that goes on where a declaration begins and stops at the token `r`. -/
structure Guards (x : Build Bool) (r : Token) : Prop where
  keeps : Keeps x
  go : ∀ {s c t us}, s.Stands c (t :: us) → BeginsDeclaration t.kind → x s = (true, s)
  stop : ∀ {s c us}, s.Stands c (r :: us) → ∃ s', x s = (false, s') ∧ s'.Stands c (r :: us)

def DeclarationsJudged (ss : List Stmt) (ts : List Token) : Prop :=
  ∀ {x r n b s c us}, Guards x r → r.kind ≠ .kwElse → s.Stands c (ts ++ r :: us) →
    (ts ++ r :: us).length ≤ n → (ts ++ r :: us).length ≤ b →
    Decides (repeatWhile x (declaration n) b s) (legalAll c ss) (r :: us)
      fun _ s' => s'.Shows (ss.foldl Scope.after c)

section Parts

variable {α : Type} {n : Nat} {s : Builder} {c : Scope} {t l r semi : Token}
  {ts us vs ws : List Token} {P Q : Prop} {R : α → Builder → Prop} {e : Expr} {st : Stmt}

set_option synthInstance.maxSize 4096

instance : Keeps (partsWithin n).expression :=
  inferInstanceAs (Keeps (Expression.parse n .assignment))

instance : Keeps (partsWithin n).statement :=
  inferInstanceAs (Keeps (statement n))

instance : Keeps (partsWithin n).declaration :=
  inferInstanceAs (Keeps (declaration n))

instance : Still (partsWithin n).expression :=
  inferInstanceAs (Still (Expression.parse n .assignment))

/-! ## Expressions in statements -/

/-- An expression and the token that ends it. -/
theorem closed_judged {x : Expectation} {f : Unit → Build α} [∀ a, Keeps (f a)]
    (hx : x.kind = .semicolon ∨ x.kind = .rightParen) (hd : Derives (.expression .assignment e) ts)
    (hs : s.Stands c (ts ++ t :: us)) (hk : t.kind = x.kind) (hn : (ts ++ t :: us).length ≤ n + 1)
    (hf : ∀ s', s'.Stands c us → Decides (f () s') Q vs R) :
    Decides (((partsWithin n).expression >>= fun _ => expect x >>= f) s) (c.AllowsAll e.uses ∧ Q) vs
      R := by
  have hpower : Power.ofKind t.kind = .none ∧ t.kind ≠ .equal := by
    rw [hk]
    rcases hx with hx | hx <;> rw [hx] <;> exact ⟨rfl, nofun⟩
  have hexpression := Expression.parse_decides hd hs.tokens hn hs.shows.sees hpower.1 hpower.2
  exact hs.bind (.still hs hexpression) fun _ s' hs' => hs'.expect hk fun s'' hs'' _ => hf s'' hs''

/-! ## First tokens -/

/-- The statement that a keyword or brace begins, without it. -/
def beginning (parts : Parts) : TokenKind → Option (Build Unit)
  | .kwPrint => some (printStatement parts)
  | .kwAssert => some (assertStatement parts)
  | .kwIf => some (ifStatement parts)
  | .kwReturn => some (returnStatement parts)
  | .kwWhile => some (whileStatement parts)
  | .kwFor => some (forStatement parts)
  | .leftBrace => some (blockStatement parts)
  | _ => none

theorem accept_bind (k : TokenKind) (f : Bool → Build α) (s : Builder) :
    (accept k >>= f) s =
      if s.current.kind = k then (advance >>= fun _ => f true) s else f false s := by
  split
  · rename_i hk
    rw [bind_of_run (accept_of_eq hk)]
    rfl
  · rename_i hk
    exact bind_of_run (accept_of_ne hk)

theorem statementRule_run (parts : Parts) (s : Builder) : statementRule parts s =
    match beginning parts s.current.kind with
    | some x => (advance >>= fun _ => x) s
    | none => expressionStatement parts s := by
  unfold statementRule
  simp only [accept_bind, Bool.false_eq_true, if_true, if_false]
  cases s.current.kind <;> rfl

/-- A statement begins with a token of its own. -/
theorem begun_judged {x : Nat → Build Unit}
    (hx : ∀ n, beginning (partsWithin n) t.kind = some (x n))
    (h : ∀ {n s c us}, s.Stands c (ts ++ us) → (ts ++ us).length ≤ n → ¬ TakesElse st us →
      Decides (x n s) (st.Legal c) us fun _ s' => s'.Shows c) : StatementJudged st (t :: ts) := by
  intro n s c us hs hn hopen
  obtain _ | n := n
  · simp at hn
  have hne : t.kind ≠ .eof := by
    intro heof
    have := hx 0
    rw [heof] at this
    cases this
  change Decides (statementRule (partsWithin n) s) _ _ _
  rw [statementRule_run, hs.tokens.current, hx]
  refine hs.advance hne fun s' hs' _ => h hs' (Nat.le_of_succ_le_succ hn) hopen

/-! ## Simple statements -/

theorem print_judged (hk : t.kind = .kwPrint) (hsemi : semi.kind = .semicolon)
    (hd : Derives (.expression .assignment e) ts) : StatementJudged (.print e) (t :: (ts ++ [semi])) := by
  refine begun_judged (x := fun n => printStatement (partsWithin n))
    (fun _ => by rw [hk]; rfl) fun hs hn _ => ?_
  rw [List.append_assoc] at hs hn
  exact (closed_judged (x := .valueEnd) (.inl rfl) hd hs hsemi (Nat.le_succ_of_le hn)
    fun _ hs₁ => hs₁.last).congr (and_iff_left trivial)

theorem assert_judged (hk : t.kind = .kwAssert) (hsemi : semi.kind = .semicolon)
    (hd : Derives (.expression .assignment e) ts) :
    StatementJudged (.assert e) (t :: (ts ++ [semi])) := by
  refine begun_judged (x := fun n => assertStatement (partsWithin n))
    (fun _ => by rw [hk]; rfl) fun hs hn _ => ?_
  rw [List.append_assoc] at hs hn
  exact (closed_judged (x := .assertionEnd) (.inl rfl) hd hs hsemi (Nat.le_succ_of_le hn)
    fun _ hs₁ => hs₁.last).congr (and_iff_left trivial)

theorem expressionStatement_judged (hsemi : semi.kind = .semicolon)
    (hd : Derives (.expression .assignment e) ts) (hs : s.Stands c (ts ++ semi :: us))
    (hn : (ts ++ semi :: us).length ≤ n + 1) :
    Decides (expressionStatement (partsWithin n) s) (c.AllowsAll e.uses) us
      fun _ s' => s'.Shows c :=
  (closed_judged (x := .expressionEnd) (.inl rfl) hd hs hsemi hn fun _ hs₁ => hs₁.last).congr
    (and_iff_left trivial)

/-- No statement begins as an expression does but one. -/
theorem beginning_of_beginsExpression {parts : Parts} {k : TokenKind} (hk : BeginsExpression k) :
    beginning parts k = none := by
  cases k <;> first | rfl | exact absurd hk id

theorem expression_judged (hsemi : semi.kind = .semicolon)
    (hd : Derives (.expression .assignment e) ts) : StatementJudged (.expression e) (ts ++ [semi]) := by
  intro n s c us hs hn _
  obtain _ | n := n
  · simp at hn
  change Decides (statementRule (partsWithin n) s) _ _ _
  rw [List.append_assoc] at hs hn
  obtain ⟨t, ts, rfl⟩ := List.exists_cons_of_length_pos (hd.pos rfl)
  have hbegins : BeginsExpression t.kind := hd.begins t rfl
  rw [statementRule_run, hs.tokens.current, beginning_of_beginsExpression hbegins]
  exact expressionStatement_judged hsemi hd hs hn

/-- What a return statement does where one may stand. -/
def returnValue (parts : Parts) : Build Unit := do
  if ← accept .semicolon then emitReturn
  else
    if (← get).body.kind = .initializer then error .initializerReturn
    parts.expression
    expect .returnEnd
    emit .ret

instance : Keeps (returnValue (partsWithin n)) := by
  unfold returnValue
  dsimp only
  infer_instance

theorem returnStatement_run (parts : Parts) (s : Builder) : returnStatement parts s =
    (if s.body.kind = .script then error .topLevelReturn >>= fun _ => returnValue parts
      else returnValue parts : Build Unit) s :=
  rfl

theorem return_judged {e : Option Expr} (hk : t.kind = .kwReturn) (hsemi : semi.kind = .semicolon)
    (hd : Derives (.optional e) ts) : StatementJudged (.return e) (t :: (ts ++ [semi])) := by
  refine begun_judged (x := fun n => returnStatement (partsWithin n))
    (fun _ => by rw [hk]; rfl) fun {n s c us} hs hn _ => ?_
  rw [List.append_assoc] at hs hn
  have hkind : s.body.kind = c.inner.kind := hs.shows.body.kind
  rw [returnStatement_run, hkind]
  cases hd with
  | absent =>
      refine .unless hs.tokens (fun h h' => h' h) fun hscript => ?_
      refine hs.accept hsemi nofun fun s₁ hs₁ _ => ?_
      have hreturn : Decides (emitReturn s₁) True us fun _ s' => s'.Shows c := hs₁.last
      exact hreturn.congr (iff_of_true trivial hscript)
  | @present e _ hd =>
      refine .unless hs.tokens (fun h h' => h'.1 h) fun hscript => ?_
      have hnot : ∀ t ∈ (ts ++ ([semi] ++ us)).head?, t.kind ≠ .semicolon := by
        intro t ht hsemi'
        have hbegins := hd.begins t (mem_head?_append (hd.pos rfl) ht)
        rw [Phrase.BeginsWith, hsemi'] at hbegins
        exact hbegins
      refine hs.acceptNot_head hnot ?_
      change Decides ((if s.body.kind = .initializer then error .initializerReturn >>= fun _ => _
        else _ : Build Unit) s) _ _ _
      rw [hkind]
      refine .unless hs.tokens (fun h h' => h'.2.1 h) fun hinitializer => ?_
      refine (closed_judged (x := .returnEnd) (.inl rfl) hd hs hsemi (Nat.le_succ_of_le hn)
        fun _ hs₁ => hs₁.last).congr ?_
      exact ⟨fun h => ⟨hscript, hinitializer, h.1⟩, fun h => ⟨h.2.2, trivial⟩⟩

/-! ## Variables -/

/-- What a declaration does behind the name of its variable. -/
def initialization (parts : Parts) (global : Nat) : Build Unit := do
  if ← accept .equal then parts.expression else emit .litNil
  modify fun s => { s with initializing := none }
  expect .variableEnd
  defineVariable global

theorem variableDeclaration_eq (parts : Parts) : variableDeclaration parts = (do
    let global ← readVariable .variableName
    if ← inGlobalScope then
      let name ← lastText
      modify fun s => { s with initializing := some name }
    initialization parts global) :=
  rfl

instance (k : Nat) : Keeps (initialization (partsWithin n) k) := by
  unfold initialization
  infer_instance

/-- The tokens of the initializer of a variable, if it has one. -/
inductive Initializes : Option Expr → List Token → Prop where
  | none : Initializes none []
  | some {eq e ts} : eq.kind = .equal → Derives (.expression .assignment e) ts →
      Initializes (some e) (eq :: ts)

/-- A variable has its value once no initializer is being compiled. -/
theorem ends_judged {name : String} (k : Nat) (hs : s.At (semi :: us))
    (hlacks : Builder.Lacks { s with initializing := none } c name) (hsemi : semi.kind = .semicolon) :
    Decides ((do
      modify fun s => { s with initializing := none }
      expect .variableEnd
      defineVariable k : Build Unit) s) True us fun _ s' => s'.Shows (c.declare name) := by
  have hat : At { s with initializing := none } (semi :: us) := by
    refine ⟨?_, hs.clean, hs.rest, hs.plain⟩
    exact ⟨hs.sound.calm, hs.sound.proper, hs.sound.ends, hs.sound.fits, hs.sound.wired⟩
  change Decides ((expect .variableEnd >>= fun _ => defineVariable k)
    { s with initializing := none }) _ _ _
  refine .expect hat hsemi fun s₁ hr hat₁ _ => ?_
  exact (hlacks.stays hr.stays).defineVariable hat₁ k

theorem initialization_judged {name : String} {value : Option Expr} (k : Nat)
    (hv : Initializes value ts) (hs : s.At (ts ++ semi :: us)) (hn : (ts ++ semi :: us).length ≤ n + 1)
    (hsemi : semi.kind = .semicolon) (hsees : s.Sees (c.initializing name))
    (hlacks : Builder.Lacks { s with initializing := none } c name) :
    Decides (initialization (partsWithin n) k s) ((c.initializing name).Admits value) us
      fun _ s' => s'.Shows (c.declare name) := by
  have hstays {s' : Builder} (h : s.Stays s') :
      Builder.Stays { s with initializing := none } { s' with initializing := none } :=
    ⟨h.body, h.outer, h.classes, rfl⟩
  cases hv with
  | none =>
      refine .acceptNot (by rw [hs.current, hsemi]; nofun) ?_
      refine .lenient hs fun _ s₁ hacc hat₁ => ?_
      exact ends_judged k hat₁ (hlacks.stays (hstays hacc.stays)) hsemi
  | @some eq e ts hequal hd =>
      refine .accept hs hequal nofun fun s₁ hr hat₁ _ => ?_
      have hexpression := Expression.parse_decides (n := n) hd hat₁ (Nat.le_of_succ_le hn)
        (hsees.stays hr.stays) (by rw [hsemi]; rfl) (by rw [hsemi]; nofun)
      refine hexpression.first hat₁.sound fun _ s₂ hacc hat₂ _ _ => ?_
      exact ends_judged k hat₂ (hlacks.stays (hstays (hr.stays.trans hacc.stays))) hsemi

theorem variable_judged {name : Token} {value : Option Expr} (hname : name.kind = .identifier)
    (hv : Initializes value ts) (hs : s.Stands c (name :: (ts ++ semi :: us)))
    (hn : (ts ++ semi :: us).length ≤ n + 1) (hsemi : semi.kind = .semicolon) :
    Decides (variableDeclaration (partsWithin n) s) ((Stmt.var name.text value).Legal c) us
      fun _ s' => s'.Shows (c.declare name.text) := by
  rw [variableDeclaration_eq, Stmt.Legal]
  refine (hs.readVariable rfl hname).bind hs.tokens.sound fun k s₁ _ hat hmay hread => ?_
  obtain ⟨hlacks, hid, hprevious⟩ := hread
  have hscope : inGlobalScope s₁ = (decide (s₁.body.depth = 0), s₁) := rfl
  rw [bind_of_run hscope]
  dsimp only
  split
  · rename_i hd
    rw [bind_of_run (lastText_run s₁), hprevious]
    have hd := of_decide_eq_true hd
    have hsound := Keeps.sound (x := (modify fun s : Builder =>
      { s with initializing := some name.text } : Build Unit)) s₁ hat.sound
    exact initialization_judged (s := { s₁ with initializing := some name.text }) k hv
      ⟨hsound, hat.clean, hat.rest, hat.plain⟩ hn hsemi (hlacks.sees_global hid hd)
      ⟨hlacks.body, hlacks.outer, hlacks.classes, rfl, hlacks.pending⟩
  · rename_i hd
    exact initialization_judged k hv hat hn hsemi (hlacks.sees hid fun h => hd (decide_eq_true h))
      ⟨hlacks.body, hlacks.outer, hlacks.classes, rfl, hlacks.pending⟩

/-! ## Blocks -/

theorem guards_insideBraces (hr : r.kind = .rightBrace) : Guards insideBraces r where
  keeps := inferInstance
  go {s c t us} hs hk := by
    have hcheck {k : TokenKind} (hne : t.kind ≠ k) : check k s = (false, s) := by
      rw [check_run, hs.tokens.current, decide_eq_false hne]
    have hbrace : t.kind ≠ .rightBrace := fun h => by rw [h] at hk; exact hk
    have heof : t.kind ≠ .eof := fun h => by rw [h] at hk; exact hk
    unfold insideBraces
    rw [bind_of_run (hcheck hbrace), bind_of_run (hcheck heof)]
    rfl
  stop {s c us} hs := by
    refine ⟨s, ?_, hs⟩
    have hcheck (k : TokenKind) : check k s = (decide (r.kind = k), s) := by
      rw [check_run, hs.tokens.current]
    unfold insideBraces
    rw [bind_of_run (hcheck _), bind_of_run (hcheck _), hr]
    rfl

theorem block_judged {ss : List Stmt} (h : DeclarationsJudged ss ts) (hr : r.kind = .rightBrace)
    (hs : s.Stands c (ts ++ r :: us)) (hn : (ts ++ r :: us).length ≤ n) :
    Decides (block (partsWithin n) s) (legalAll c ss) us
      fun _ s' => s'.Shows (ss.foldl Scope.after c) := by
  have hall := h (guards_insideBraces hr) (by rw [hr]; nofun) hs hn hn
  exact hs.bindLast hall fun _ s₁ hs₁ => hs₁.expectLast hr

theorem blockStatement_judged {ss : List Stmt} (h : DeclarationsJudged ss ts)
    (hl : l.kind = .leftBrace) (hr : r.kind = .rightBrace) :
    StatementJudged (.block ss) (l :: (ts ++ [r])) := by
  refine begun_judged (x := fun n => blockStatement (partsWithin n))
    (fun _ => by rw [hl]; rfl) fun {n s c us} hs hn _ => ?_
  rw [List.append_assoc] at hs hn
  refine hs.beginScope fun s₁ hs₁ => ?_
  obtain ⟨scope, hscope⟩ := c.opened_afterAll [] ss
  refine hs₁.bindLast (block_judged h hr hs₁ hn) fun _ s₂ hs₂ => ?_
  rw [show c.enter = c.opened [] from rfl, hscope] at hs₂
  exact hs₂.endScope

/-! ## Conditions -/

theorem takesElse_cond {e : Expr} {yes : Stmt} : TakesElse (.cond e yes none) us ↔
    ∃ t ∈ us.head?, t.kind = .kwElse :=
  and_iff_right rfl

/-- The branches of a condition, from the first one on. -/
def branches (parts : Parts) (thenJump : Nat) : Build Unit := do
  emit .pop
  parts.statement
  let elseJump ← emitJump .jump
  patchJump thenJump
  emit .pop
  if ← accept .kwElse then parts.statement
  patchJump elseJump

instance (k : Nat) : Keeps (branches (partsWithin n) k) := by
  unfold branches
  infer_instance

/-- A condition up to its branches. -/
theorem condition_judged {R : Unit → Builder → Prop} (hl : l.kind = .leftParen) (hr : r.kind = .rightParen)
    (hd : Derives (.expression .assignment e) ts) (hs : s.Stands c (l :: (ts ++ r :: us)))
    (hn : (ts ++ r :: us).length ≤ n + 1)
    (hf : ∀ k s', s'.Stands c us → Decides (branches (partsWithin n) k s') Q vs R) :
    Decides ((ifStatement (partsWithin n) : Build Unit) s) (c.AllowsAll e.uses ∧ Q) vs R := by
  refine hs.expect hl fun s₁ hs₁ _ => ?_
  refine closed_judged (x := .conditionClose) (.inr rfl) hd hs₁ hr hn fun s₂ hs₂ => ?_
  exact hs₂.pass hf

theorem cond_judged {yes : Stmt} (ht : t.kind = .kwIf) (hl : l.kind = .leftParen)
    (hr : r.kind = .rightParen) (hd : Derives (.expression .assignment e) ts)
    (hyes : StatementJudged yes us) :
    StatementJudged (.cond e yes none) (t :: l :: (ts ++ r :: us)) := by
  refine begun_judged (x := fun n => ifStatement (partsWithin n))
    (fun _ => by rw [ht]; rfl) fun {n s c vs} hs hn hopen => ?_
  have hnot : ¬ ∃ t ∈ vs.head?, t.kind = .kwElse := fun h => hopen (takesElse_cond.mpr h)
  simp only [List.cons_append, List.append_assoc, List.length_cons, List.length_append] at hs hn
  rw [Stmt.Legal]
  refine condition_judged hl hr hd hs (by simp only [List.length_append, List.length_cons]; omega)
    fun k s₁ hs₁ => hs₁.pass fun _ s₂ hs₂ => ?_
  have hyes := hyes (n := n) hs₂ (by simp only [List.length_append]; omega) fun h => hnot h.2
  refine hs₂.bindLast hyes fun _ s₃ hs₃ => ?_
  refine hs₃.pass fun k s₄ hs₄ => hs₄.pass fun _ s₅ hs₅ => hs₅.pass fun _ s₆ hs₆ => ?_
  have hend : Decides (patchJump k s₆) True vs fun _ s' => s'.Shows c := hs₆.last
  exact hs₆.acceptNot_head (fun t ht h => hnot ⟨t, ht, h⟩) hend

theorem condElse_judged {t' : Token} {yes no : Stmt} (ht : t.kind = .kwIf) (hl : l.kind = .leftParen)
    (hr : r.kind = .rightParen) (ht' : t'.kind = .kwElse)
    (hd : Derives (.expression .assignment e) ts) (hyes : StatementJudged yes us)
    (hclosed : yes.isOpen = false) (hno : StatementJudged no vs) :
    StatementJudged (.cond e yes (some no)) (t :: l :: (ts ++ r :: us ++ t' :: vs)) := by
  refine begun_judged (x := fun n => ifStatement (partsWithin n))
    (fun _ => by rw [ht]; rfl) fun {n s c ws} hs hn hopen => ?_
  simp only [List.cons_append, List.append_assoc, List.length_cons, List.length_append] at hs hn
  rw [Stmt.Legal]
  refine condition_judged hl hr hd hs (by simp only [List.length_append, List.length_cons]; omega)
    fun k s₁ hs₁ => hs₁.pass fun _ s₂ hs₂ => ?_
  have hyes := hyes (n := n) hs₂ (by simp only [List.length_append, List.length_cons]; omega) fun h => by
    rw [TakesElse, hclosed] at h
    cases h.1
  refine hs₂.bind hyes fun _ s₃ hs₃ => ?_
  refine hs₃.pass fun k s₄ hs₄ => hs₄.pass fun _ s₅ hs₅ => hs₅.pass fun _ s₆ hs₆ => ?_
  refine hs₆.accept ht' nofun fun s₇ hs₇ _ => ?_
  exact hs₇.bindLast (hno (n := n) hs₇ (by simp only [List.length_append]; omega) hopen) fun _ s₈ hs₈ => hs₈.last

/-! ## Loops -/

theorem while_judged (ht : t.kind = .kwWhile) (hl : l.kind = .leftParen) (hr : r.kind = .rightParen)
    (hd : Derives (.expression .assignment e) ts) (hst : StatementJudged st us) :
    StatementJudged (.while e st) (t :: l :: (ts ++ r :: us)) := by
  refine begun_judged (x := fun n => whileStatement (partsWithin n))
    (fun _ => by rw [ht]; rfl) fun {n s c vs} hs hn hopen => ?_
  simp only [List.cons_append, List.append_assoc, List.length_cons, List.length_append] at hs hn
  rw [Stmt.Legal]
  refine hs.pass fun k s₁ hs₁ => hs₁.expect hl fun s₂ hs₂ _ => ?_
  refine closed_judged (x := .conditionClose) (.inr rfl) hd hs₂ hr
    (by simp only [List.length_append, List.length_cons]; omega) fun s₃ hs₃ => ?_
  refine hs₃.pass fun k s₄ hs₄ => hs₄.pass fun _ s₅ hs₅ => ?_
  refine hs₅.bindLast (hst (n := n) hs₅ (by simp only [List.length_append]; omega) hopen) fun _ s₆ hs₆ => ?_
  exact hs₆.pass fun _ s₇ hs₇ => hs₇.last

/-- What the first clause of a loop has to obey. -/
def FirstLegal (c : Scope) : Option Stmt → Prop
  | none => True
  | some st => st.Legal c

theorem derives_var {name : String} {value : Option Expr}
    (hd : Derives (.declaration (.var name value)) ts) : ∃ t x vs semi, ts = t :: x :: (vs ++ [semi]) ∧
      t.kind = .kwVar ∧ x.kind = .identifier ∧ x.text = name ∧ semi.kind = .semicolon ∧
      Initializes value vs := by
  cases hd with
  | statement hd => cases hd
  | var ht hx hsemi => exact ⟨_, _, [], _, rfl, ht, hx, rfl, hsemi, .none⟩
  | varValue ht hx heq hsemi he =>
      exact ⟨_, _, _, _, rfl, ht, hx, rfl, hsemi, .some heq he⟩

theorem derives_expressionStatement {e : Expr} (hd : Derives (.statement (.expression e)) ts) :
    ∃ vs semi, ts = vs ++ [semi] ∧ semi.kind = .semicolon ∧
      Derives (.expression .assignment e) vs := by
  cases hd with
  | expression hsemi he => exact ⟨_, _, rfl, hsemi, he⟩

theorem first_judged {first : Option Stmt} (hd : Derives (.first first) ts)
    (hs : s.Stands c (ts ++ us)) (hn : (ts ++ us).length ≤ n) :
    Decides (forInitializer (partsWithin n) s) (FirstLegal c first) us
      fun _ s' => s'.Shows (first.elim c c.after) := by
  cases hd with
  | noFirst hsemi => exact hs.accept hsemi nofun fun s₁ hs₁ _ => .accepts trivial hs₁.tokens hs₁.shows
  | firstVar hd =>
      obtain ⟨t, x, vs, semi, rfl, ht, hx, rfl, hsemi, hv⟩ := derives_var hd
      simp only [List.cons_append, List.append_assoc, List.length_cons, List.nil_append] at hs hn
      refine hs.acceptNot (by rw [ht]; nofun) (hs.accept ht nofun fun s₁ hs₁ _ => ?_)
      exact variable_judged hx hv hs₁ (by omega) hsemi
  | firstExpression hd =>
      obtain ⟨vs, semi, rfl, hsemi, he⟩ := derives_expressionStatement hd
      rw [List.append_assoc] at hs hn
      have hnot {k : TokenKind} (hk : ¬ BeginsExpression k) :
          ∀ t ∈ (vs ++ ([semi] ++ us)).head?, t.kind ≠ k := by
        rintro t ht rfl
        exact hk (he.begins t (mem_head?_append (he.pos rfl) ht))
      refine hs.acceptNot_head (hnot nofun) (hs.acceptNot_head (hnot nofun) ?_)
      exact expressionStatement_judged hsemi he hs (Nat.le_succ_of_le hn)

/-- An optional expression does not begin with the token that ends it. -/
theorem not_begins {k : TokenKind} {e : Expr} (hd : Derives (.expression .assignment e) ts)
    (hk : ¬ BeginsExpression k) : ∀ t ∈ (ts ++ us).head?, t.kind ≠ k := by
  rintro t ht rfl
  exact hk (hd.begins t (mem_head?_append (hd.pos rfl) ht))

theorem test_judged {test : Option Expr} (hd : Derives (.optional test) ts)
    (hs : s.Stands c (ts ++ semi :: us)) (hn : (ts ++ semi :: us).length ≤ n + 1)
    (hsemi : semi.kind = .semicolon) :
    Decides (forCondition (partsWithin n) s) (c.Admits test) us fun _ s' => s'.Shows c := by
  cases hd with
  | absent => exact hs.accept hsemi nofun fun s₁ hs₁ _ => .accepts trivial hs₁.tokens hs₁.shows
  | present hd =>
      refine hs.acceptNot_head (not_begins hd nofun) ?_
      refine (closed_judged (x := .loopConditionEnd) (.inl rfl) hd hs hsemi hn
        fun s₁ hs₁ => ?_).congr (and_iff_left trivial)
      exact hs₁.pass fun k s₂ hs₂ => hs₂.pass fun _ s₃ hs₃ => hs₃.last

theorem step_judged {step : Option Expr} (start : Nat) (hd : Derives (.optional step) ts)
    (hs : s.Stands c (ts ++ r :: us)) (hn : (ts ++ r :: us).length ≤ n + 1)
    (hr : r.kind = .rightParen) :
    Decides (forIncrement (partsWithin n) start s) (c.Admits step) us fun _ s' => s'.Shows c := by
  cases hd with
  | absent => exact hs.accept hr nofun fun s₁ hs₁ _ => .accepts trivial hs₁.tokens hs₁.shows
  | @present e _ hd =>
      refine hs.acceptNot_head (not_begins hd nofun) ?_
      refine hs.pass fun bodyJump s₁ hs₁ => hs₁.pass fun increment s₂ hs₂ => ?_
      have hexpression := Expression.parse_decides (n := n) hd hs₂.tokens hn hs₂.shows.sees
        (by rw [hr]; rfl) (by rw [hr]; nofun)
      refine hs₂.bindLast (.still hs₂ hexpression) fun _ s₃ hs₃ => hs₃.pass fun _ s₄ hs₄ => ?_
      refine hs₄.expect hr fun s₅ hs₅ _ => hs₅.pass fun _ s₆ hs₆ => hs₆.pass fun _ s₇ hs₇ => ?_
      exact hs₇.last

/-- The end of a loop. -/
def closing (exit : Option Nat) : Build Unit := do
  match exit with
  | none => pure ()
  | some exitJump =>
    patchJump exitJump
    emit .pop
  endScope

/-- A loop behind its first clause. -/
def rounds (parts : Parts) : Build Unit := do
  let start ← here
  let exit ← forCondition parts
  let start ← forIncrement parts start
  parts.statement
  emitLoop start
  closing exit

theorem forStatement_eq (parts : Parts) : forStatement parts = (do
    beginScope
    expect .forOpen
    forInitializer parts
    rounds parts) :=
  rfl

instance (exit : Option Nat) : Keeps (closing exit) := by
  cases exit <;> (dsimp only [closing]; infer_instance)

instance : Keeps (rounds (partsWithin n)) := by
  unfold rounds
  infer_instance

theorem legal_for {first : Option Stmt} {test step : Option Expr} {body : Stmt} :
    (Stmt.for first test step body).Legal c ↔ FirstLegal c.enter first ∧
      (first.elim c.enter c.enter.after).Admits test ∧
      (first.elim c.enter c.enter.after).Admits step ∧
      body.Legal (first.elim c.enter c.enter.after) := by
  cases first with
  | none =>
      rw [Stmt.Legal]
      exact (and_iff_right trivial).symm
  | some first =>
      rw [Stmt.Legal]
      rfl

theorem for_judged {first : Option Stmt} {test step : Option Expr} (ht : t.kind = .kwFor)
    (hl : l.kind = .leftParen) (hsemi : semi.kind = .semicolon) (hr : r.kind = .rightParen)
    (hfirst : Derives (.first first) ts) (htest : Derives (.optional test) us)
    (hstep : Derives (.optional step) vs) (hst : StatementJudged st ws) :
    StatementJudged (.for first test step st) (t :: l :: (ts ++ (us ++ semi :: (vs ++ r :: ws)))) := by
  refine begun_judged (x := fun n => forStatement (partsWithin n))
    (fun _ => by rw [ht]; rfl) fun {n s c xs} hs hn hopen => ?_
  simp only [List.cons_append, List.append_assoc, List.length_cons, List.length_append] at hs hn
  refine Decides.congr ?_ legal_for.symm
  rw [forStatement_eq]
  refine hs.beginScope fun s₁ hs₁ => hs₁.expect hl fun s₂ hs₂ _ => ?_
  refine hs₂.bind (first_judged hfirst hs₂
    (by simp only [List.length_append, List.length_cons]; omega)) fun _ s₃ hs₃ => ?_
  obtain ⟨scope, hscope⟩ : ∃ scope, first.elim c.enter c.enter.after = c.opened scope := by
    cases first with
    | none => exact ⟨[], rfl⟩
    | some first => exact c.opened_after [] first
  rw [hscope] at hs₃ ⊢
  refine hs₃.pass fun start s₄ hs₄ => ?_
  refine hs₄.bind (test_judged htest hs₄
    (by simp only [List.length_append, List.length_cons]; omega) hsemi) fun exit s₅ hs₅ => ?_
  refine hs₅.bind (step_judged start hstep hs₅
    (by simp only [List.length_append, List.length_cons]; omega) hr) fun next s₆ hs₆ => ?_
  refine hs₆.bindLast (hst (n := n) hs₆ (by simp only [List.length_append]; omega) hopen)
    fun _ s₇ hs₇ => hs₇.pass fun _ s₈ hs₈ => ?_
  cases exit with
  | none => exact hs₈.endScope
  | some k => exact hs₈.pass fun _ s₉ hs₉ => hs₉.pass fun _ s₁₀ hs₁₀ => hs₁₀.endScope

end Parts

end LoxMachine.Statement
