import LoxMachine.Proofs.Limits.Variables
import LoxMachine.Proofs.Verdict.Statements

/-!
# Limits of statements

Where the tokens are those of a statement that breaks no rule, the rules make what the statement needs, or the
budget is too large. The rules are taken one by one, each for parts of which that is known
(`StatementSettled`), as in the verdict on statements.
-/

namespace LoxMachine.Statement

open Builder Syntax

/-! ## What is shown of phrases -/

/-- The rules read these tokens, and make what the statement needs if the budget can be afforded. -/
def StatementSettled (st : Stmt) (ts : List Token) : Prop :=
  ∀ {B n s c us todo}, B.around = c.outer → st.Legal c → (ts ++ us).length ≤ n → ¬ TakesElse st us →
    Owes B (Showing c) (ts ++ us) (st.needs c ++ todo) s →
    Settles B (statement n s) fun _ s' => Owes B (Showing c) us todo s'

def DeclarationSettled (st : Stmt) (ts : List Token) : Prop :=
  ∀ {B n s c us todo}, B.around = c.outer → st.Legal c → (ts ++ us).length ≤ n → ¬ TakesElse st us →
    Owes B (Showing c) (ts ++ us) (st.needs c ++ todo) s →
    Settles B (declaration n s) fun _ s' => Owes B (Showing (c.after st)) us todo s'

/-- A condition of which declarations are repeated, and that makes nothing itself. -/
structure Watches (x : Build Bool) (r : Token) : Prop extends Guards x r where
  body : ∀ s, (x s).2.body = s.body
  outer : ∀ s, (x s).2.outer = s.outer
  fresh : ∀ s, (x s).2.fresh = s.fresh

def DeclarationsSettled (ss : List Stmt) (ts : List Token) : Prop :=
  ∀ {B x r n b s c us todo}, Watches x r → r.kind ≠ .kwElse → B.around = c.outer → legalAll c ss →
    (ts ++ r :: us).length ≤ n → (ts ++ r :: us).length ≤ b →
    Owes B (Showing c) (ts ++ r :: us) (needsOfAll c ss ++ todo) s →
    Settles B (repeatWhile x (declaration n) b s) fun _ s' =>
      Owes B (Showing (ss.foldl Scope.after c)) (r :: us) todo s'

section Parts

variable {α : Type} {B : Budget} {V : Builder → Prop} {n : Nat} {s : Builder} {c : Scope} {t l r semi : Token}
  {ts us vs ws : List Token} {todo : List Need} {R : α → Builder → Prop} {e : Expr} {st : Stmt}

set_option synthInstance.maxSize 4096

/-! ## Expressions in statements -/

/-- An expression and the token that ends it. -/
theorem closed_settles [Sights V c] {x : Expectation} {f : Unit → Build α} [∀ a, Keeps (f a)]
    (hx : x.kind = .semicolon ∨ x.kind = .rightParen) (hd : Derives (.expression .assignment e) ts)
    (hB : B.around = c.outer) (hlegal : c.AllowsAll e.uses) (hk : t.kind = x.kind)
    (hn : (ts ++ t :: us).length ≤ n + 1) (hs : Owes B V (ts ++ t :: us) (e.needs c ++ todo) s)
    (hf : ∀ s', Owes B V us todo s' → Settles B (f () s') R) :
    Settles B (((partsWithin n).expression >>= fun _ => expect x >>= f) s) R := by
  have hpower : Power.ofKind t.kind = .none ∧ t.kind ≠ .equal := by
    rw [hk]
    rcases hx with hx | hx <;> rw [hx] <;> exact ⟨rfl, nofun⟩
  have hexpression := Expression.parse_settles hd hB hlegal hn hpower.1 hpower.2 hs
  exact hexpression.bind fun _ s' h' => h'.expect hk fun s'' h'' _ => hf s'' h''

/-! ## First tokens -/

/-- A statement begins with a token of its own. -/
theorem begun_settled {x : Nat → Build Unit}
    (hx : ∀ n, beginning (partsWithin n) t.kind = some (x n))
    (h : ∀ {B n s c us todo}, B.around = c.outer → st.Legal c → (ts ++ us).length ≤ n →
      ¬ TakesElse st us → Owes B (Showing c) (ts ++ us) (st.needs c ++ todo) s →
      Settles B (x n s) fun _ s' => Owes B (Showing c) us todo s') : StatementSettled st (t :: ts) := by
  intro B n s c us todo hB hlegal hn hopen hs
  obtain _ | n := n
  · simp at hn
  have hne : t.kind ≠ .eof := by
    intro heof
    have := hx 0
    rw [heof] at this
    cases this
  change Settles B (statementRule (partsWithin n) s) _
  rw [statementRule_run, hs.tokens.current, hx]
  exact hs.advance hne fun s' hs' _ => h hB hlegal (Nat.le_of_succ_le_succ hn) hopen hs'

/-! ## Simple statements -/

theorem print_settled (hk : t.kind = .kwPrint) (hsemi : semi.kind = .semicolon)
    (hd : Derives (.expression .assignment e) ts) : StatementSettled (.print e) (t :: (ts ++ [semi])) := by
  refine begun_settled (x := fun n => printStatement (partsWithin n))
    (fun _ => by rw [hk]; rfl) fun hB hlegal hn _ hs => ?_
  rw [Stmt.needs, List.append_assoc, List.append_assoc] at hs
  rw [List.append_assoc] at hn
  exact closed_settles (x := .valueEnd) (.inl rfl) hd hB hlegal hsemi (Nat.le_succ_of_le hn) hs
    fun _ h₁ => h₁.emit .print

theorem assert_settled (hk : t.kind = .kwAssert) (hsemi : semi.kind = .semicolon)
    (hd : Derives (.expression .assignment e) ts) : StatementSettled (.assert e) (t :: (ts ++ [semi])) := by
  refine begun_settled (x := fun n => assertStatement (partsWithin n))
    (fun _ => by rw [hk]; rfl) fun hB hlegal hn _ hs => ?_
  rw [Stmt.needs, List.append_assoc, List.append_assoc] at hs
  rw [List.append_assoc] at hn
  exact closed_settles (x := .assertionEnd) (.inl rfl) hd hB hlegal hsemi (Nat.le_succ_of_le hn) hs
    fun _ h₁ => h₁.emit .assert

theorem expressionStatement_settles (hsemi : semi.kind = .semicolon)
    (hd : Derives (.expression .assignment e) ts) (hB : B.around = c.outer) (hlegal : c.AllowsAll e.uses)
    (hn : (ts ++ semi :: us).length ≤ n + 1)
    (hs : Owes B (Showing c) (ts ++ semi :: us) ((Stmt.expression e).needs c ++ todo) s) :
    Settles B (expressionStatement (partsWithin n) s) fun _ s' => Owes B (Showing c) us todo s' := by
  rw [Stmt.needs, List.append_assoc] at hs
  exact closed_settles (x := .expressionEnd) (.inl rfl) hd hB hlegal hsemi hn hs fun _ h₁ => h₁.emit .pop

theorem expression_settled (hsemi : semi.kind = .semicolon)
    (hd : Derives (.expression .assignment e) ts) : StatementSettled (.expression e) (ts ++ [semi]) := by
  intro B n s c us todo hB hlegal hn _ hs
  obtain _ | n := n
  · simp at hn
  change Settles B (statementRule (partsWithin n) s) _
  rw [List.append_assoc] at hs hn
  obtain ⟨t, ts, rfl⟩ := List.exists_cons_of_length_pos (hd.pos rfl)
  have hbegins : BeginsExpression t.kind := hd.begins t rfl
  rw [statementRule_run, hs.tokens.current, beginning_of_beginsExpression hbegins]
  exact expressionStatement_settles hsemi hd hB hlegal hn hs

theorem return_settled {e : Option Expr} (hk : t.kind = .kwReturn) (hsemi : semi.kind = .semicolon)
    (hd : Derives (.optional e) ts) : StatementSettled (.return e) (t :: (ts ++ [semi])) := by
  refine begun_settled (x := fun n => returnStatement (partsWithin n))
    (fun _ => by rw [hk]; rfl) fun {B n s c us todo} hB hlegal hn _ hs => ?_
  rw [List.append_assoc] at hs hn
  have hkind {s : Builder} {us : List Token} {todo : List Need} (h : Owes B (Showing c) us todo s) :
      s.body.kind = c.inner.kind := h.stands.shows.body.kind
  rw [returnStatement_run, hkind hs]
  cases hd with
  | absent =>
      rw [Stmt.Legal] at hlegal
      rw [Stmt.needs] at hs
      rw [if_neg hlegal]
      exact hs.accept hsemi (by simp) fun s₁ h₁ _ => h₁.emitReturn (hkind h₁)
  | @present e _ hd =>
      rw [Stmt.Legal] at hlegal
      rw [Stmt.needs, List.append_assoc] at hs
      obtain ⟨hscript, hinitializer, hlegal⟩ := hlegal
      rw [if_neg hscript]
      refine hs.acceptNot (not_begins hd id) ?_
      change Settles B ((if s.body.kind = .initializer then error .initializerReturn >>= fun _ => _
        else _ : Build Unit) s) _
      rw [hkind hs, if_neg hinitializer]
      exact closed_settles (x := .returnEnd) (.inl rfl) hd hB hlegal hsemi (Nat.le_succ_of_le hn) hs
        fun _ h₁ => h₁.emit .ret

/-! ## Variables -/

/-- A variable has its value once no initializer is being compiled. -/
theorem ends_settles {name : String} (k : Nat) (hsemi : semi.kind = .semicolon)
    (hs : Owes B (Awaiting c name) (semi :: us) (c.defining ++ todo) s) :
    Settles B ((do
      modify fun s => { s with initializing := none }
      expect .variableEnd
      defineVariable k : Build Unit) s) fun _ s' => Owes B (Showing (c.declare name)) us todo s' := by
  have hat := hs.tokens
  have hlacking : Owes B (Lacking c name) (semi :: us) (c.defining ++ todo) { s with initializing := none } := by
    refine hs.turned ⟨?_, hat.clean, hat.rest, hat.plain⟩ hs.view.2 rfl rfl rfl rfl
    exact ⟨hat.sound.calm, hat.sound.proper, hat.sound.ends, hat.sound.fits, hat.sound.wired⟩
  change Settles B ((expect .variableEnd >>= fun _ => defineVariable k) { s with initializing := none }) _
  exact hlacking.expect hsemi fun s₁ h₁ _ => h₁.defineVariable k

theorem initialization_settles {name : String} {value : Option Expr} (k : Nat) (hv : Initializes value ts)
    (hB : B.around = c.outer) (hlegal : (c.initializing name).Admits value)
    (hn : (ts ++ semi :: us).length ≤ n + 1) (hsemi : semi.kind = .semicolon)
    (hs : Owes B (Awaiting c name) (ts ++ semi :: us)
      ((c.initializing name).initializer value ++ (c.defining ++ todo)) s) :
    Settles B (initialization (partsWithin n) k s) fun _ s' =>
      Owes B (Showing (c.declare name)) us todo s' := by
  cases hv with
  | none =>
      refine hs.acceptNot (fun t ht => ?_) ?_
      · obtain rfl := Option.some.inj ht
        rw [hsemi]
        nofun
      · exact (hs.emit .litNil).bind fun _ s₁ h₁ => ends_settles k hsemi h₁
  | @some eq e ts hequal hd =>
      refine hs.accept hequal nofun fun s₁ h₁ _ => ?_
      refine (Expression.parse_settles (c := c.initializing name) (n := n) hd hB hlegal (Nat.le_of_succ_le hn)
        (by rw [hsemi]; rfl) (by rw [hsemi]; nofun) h₁).bind fun _ s₂ h₂ => ?_
      exact ends_settles k hsemi h₂

/-- Behind its name a variable awaits its value. -/
theorem awaiting_of_lacks {name : String} (hname : IsIdentifier name) (hlacks : s.Lacks c name)
    (hd : s.body.depth ≠ 0) : Awaiting c name s :=
  ⟨⟨hlacks.sees hname hd, .cons (fun x => hlacks.body.slot? x) (forall₂_slots hlacks.outer)⟩,
    ⟨hlacks.body, hlacks.outer, hlacks.classes, rfl, hlacks.pending⟩⟩

theorem awaiting_of_lacks_global {name : String} (hname : IsIdentifier name) (hlacks : s.Lacks c name)
    (hd : s.body.depth = 0) : Awaiting c name { s with initializing := some name } :=
  ⟨⟨hlacks.sees_global hname hd, .cons (fun x => hlacks.body.slot? x) (forall₂_slots hlacks.outer)⟩,
    ⟨hlacks.body, hlacks.outer, hlacks.classes, rfl, hlacks.pending⟩⟩

theorem variable_settles {name : Token} {value : Option Expr} (hname : name.kind = .identifier)
    (hv : Initializes value ts) (hB : B.around = c.outer) (hlegal : (Stmt.var name.text value).Legal c)
    (hn : (ts ++ semi :: us).length ≤ n + 1) (hsemi : semi.kind = .semicolon)
    (hs : Owes B (Showing c) (name :: (ts ++ semi :: us)) ((Stmt.var name.text value).needs c ++ todo) s) :
    Settles B (variableDeclaration (partsWithin n) s) fun _ s' =>
      Owes B (Showing (c.declare name.text)) us todo s' := by
  rw [Stmt.Legal] at hlegal
  rw [Stmt.needs] at hs
  simp only [List.append_assoc] at hs
  rw [variableDeclaration_eq]
  refine (hs.readVariable rfl hname hlegal.1).bind fun k s₁ h => ?_
  obtain ⟨h₁, hid, hprevious⟩ := h
  have hscope : inGlobalScope s₁ = (decide (s₁.body.depth = 0), s₁) := rfl
  rw [bind_of_run hscope]
  dsimp only
  split
  · rename_i hd
    rw [bind_of_run (lastText_run s₁), hprevious]
    have hat := h₁.tokens
    have hsound := Keeps.sound (x := (modify fun s : Builder =>
      { s with initializing := some name.text } : Build Unit)) s₁ hat.sound
    have hview := awaiting_of_lacks_global hid h₁.view (of_decide_eq_true hd)
    exact initialization_settles (s := { s₁ with initializing := some name.text }) k hv hB hlegal.2 hn hsemi
      (h₁.turned ⟨hsound, hat.clean, hat.rest, hat.plain⟩ hview rfl rfl rfl rfl)
  · rename_i hd
    have hview := awaiting_of_lacks hid h₁.view fun h => hd (decide_eq_true h)
    exact initialization_settles k hv hB hlegal.2 hn hsemi (h₁.view_mono hview)

/-! ## Blocks -/

theorem watches_insideBraces (hr : r.kind = .rightBrace) : Watches insideBraces r where
  toGuards := guards_insideBraces hr
  body _ := rfl
  outer _ := rfl
  fresh _ := rfl

theorem block_settles {ss : List Stmt} (h : DeclarationsSettled ss ts) (hr : r.kind = .rightBrace)
    (hB : B.around = c.outer) (hlegal : legalAll c ss) (hn : (ts ++ r :: us).length ≤ n)
    (hs : Owes B (Showing c) (ts ++ r :: us) (needsOfAll c ss ++ todo) s) :
    Settles B (block (partsWithin n) s) fun _ s' => Owes B (Showing (ss.foldl Scope.after c)) us todo s' :=
  (h (watches_insideBraces hr) (by rw [hr]; nofun) hB hlegal hn hn hs).bind fun _ _ h₁ => h₁.expectLast hr

theorem blockStatement_settled {ss : List Stmt} (h : DeclarationsSettled ss ts)
    (hl : l.kind = .leftBrace) (hr : r.kind = .rightBrace) :
    StatementSettled (.block ss) (l :: (ts ++ [r])) := by
  refine begun_settled (x := fun n => blockStatement (partsWithin n))
    (fun _ => by rw [hl]; rfl) fun {B n s c us todo} hB hlegal hn _ hs => ?_
  rw [Stmt.Legal] at hlegal
  rw [Stmt.needs, List.append_assoc, List.append_assoc] at hs
  rw [List.append_assoc] at hn
  refine hs.beginScope fun s₁ h₁ => ?_
  obtain ⟨scope, hscope⟩ := c.opened_afterAll [] ss
  refine (block_settles (c := c.enter) h hr hB hlegal hn h₁).bind fun _ s₂ h₂ => ?_
  rw [show c.enter = c.opened [] from rfl, hscope] at h₂
  exact h₂.endScope

/-! ## Conditions -/

/-- A condition up to its branches. -/
theorem condition_settles {R : Unit → Builder → Prop} (hl : l.kind = .leftParen) (hr : r.kind = .rightParen)
    (hd : Derives (.expression .assignment e) ts) (hB : B.around = c.outer) (hlegal : c.AllowsAll e.uses)
    (hn : (ts ++ r :: us).length ≤ n + 1)
    (hs : Owes B (Showing c) (l :: (ts ++ r :: us)) (e.needs c ++ .bytes 3 :: .bytes 1 :: todo) s)
    (hf : ∀ j s', Owes B (Showing c) us todo s' → j + 3 + Need.size todo = Need.size B.whole →
      Settles B ((do
        (partsWithin n).statement
        let elseJump ← emitJump .jump
        patchJump j
        emit .pop
        if ← accept .kwElse then (partsWithin n).statement
        patchJump elseJump : Build Unit) s') R) :
    Settles B ((ifStatement (partsWithin n) : Build Unit) s) R := by
  refine hs.expect hl fun s₁ h₁ _ => ?_
  refine closed_settles (x := .conditionClose) (.inr rfl) hd hB hlegal hr hn h₁ fun s₂ h₂ => ?_
  refine (h₂.emitJump .jumpIfFalse).bind fun j s₃ ⟨h₃, hj⟩ => (h₃.emit .pop).bind fun _ s₄ h₄ => ?_
  refine hf j s₄ h₄ ?_
  simp only [Need.size_cons, Need.length] at hj
  omega

theorem cond_settled {yes : Stmt} (ht : t.kind = .kwIf) (hl : l.kind = .leftParen)
    (hr : r.kind = .rightParen) (hd : Derives (.expression .assignment e) ts)
    (hyes : StatementSettled yes us) :
    StatementSettled (.cond e yes none) (t :: l :: (ts ++ r :: us)) := by
  refine begun_settled (x := fun n => ifStatement (partsWithin n))
    (fun _ => by rw [ht]; rfl) fun {B n s c vs todo} hB hlegal hn hopen hs => ?_
  have hnot : ¬ ∃ t ∈ vs.head?, t.kind = .kwElse := fun h => hopen (takesElse_cond.mpr h)
  rw [Stmt.Legal] at hlegal
  rw [Stmt.needs] at hs
  simp only [List.cons_append, List.append_assoc, List.nil_append, List.length_cons, List.length_append] at hs hn
  refine condition_settles hl hr hd hB hlegal.1 (by simp only [List.length_append, List.length_cons]; omega)
    hs fun j s₁ h₁ hj => ?_
  refine (hyes (n := n) hB hlegal.2 (by simp only [List.length_append]; omega) (fun h => hnot h.2) h₁).bind
    fun _ s₂ h₂ => (h₂.emitJump .jump).bind fun j' s₃ h => ?_
  obtain ⟨h₃, hj'⟩ := h
  simp only [Need.size_cons, Need.size_append, Need.length] at hj hj'
  refine (h₃.patchJump (j := j) (by simp only [Need.size_cons, Need.length]; omega)).bind
    fun _ s₄ h₄ => (h₄.emit .pop).bind fun _ s₅ h₅ => ?_
  refine h₅.acceptNot (fun t ht h => hnot ⟨t, ht, h⟩) ?_
  exact h₅.patchJump (j := j') (by omega)

theorem condElse_settled {t' : Token} {yes no : Stmt} (ht : t.kind = .kwIf) (hl : l.kind = .leftParen)
    (hr : r.kind = .rightParen) (ht' : t'.kind = .kwElse)
    (hd : Derives (.expression .assignment e) ts) (hyes : StatementSettled yes us)
    (hclosed : yes.isOpen = false) (hno : StatementSettled no vs) :
    StatementSettled (.cond e yes (some no)) (t :: l :: (ts ++ r :: us ++ t' :: vs)) := by
  refine begun_settled (x := fun n => ifStatement (partsWithin n))
    (fun _ => by rw [ht]; rfl) fun {B n s c ws todo} hB hlegal hn hopen hs => ?_
  rw [Stmt.Legal] at hlegal
  rw [Stmt.needs] at hs
  simp only [List.cons_append, List.append_assoc, List.nil_append, List.length_cons, List.length_append] at hs hn
  refine condition_settles hl hr hd hB hlegal.1 (by simp only [List.length_append, List.length_cons]; omega)
    hs fun j s₁ h₁ hj => ?_
  have hnot : ¬ TakesElse yes (t' :: (vs ++ ws)) := by
    rintro ⟨hopen', -⟩
    exact Bool.noConfusion (hclosed.symm.trans hopen')
  refine (hyes (n := n) hB hlegal.2.1 (by simp only [List.length_append, List.length_cons]; omega) hnot
    h₁).bind fun _ s₂ h₂ => (h₂.emitJump .jump).bind fun j' s₃ h => ?_
  obtain ⟨h₃, hj'⟩ := h
  simp only [Need.size_cons, Need.size_append, Need.length] at hj hj'
  refine (h₃.patchJump (j := j) (by simp only [Need.size_cons, Need.size_append, Need.length]; omega)).bind
    fun _ s₄ h₄ => (h₄.emit .pop).bind fun _ s₅ h₅ => ?_
  refine h₅.accept ht' (by simp) fun s₆ h₆ _ => ?_
  refine (hno (n := n) hB hlegal.2.2 (by simp only [List.length_append]; omega) hopen h₆).bind fun _ s₇ h₇ => ?_
  exact h₇.patchJump (j := j') (by omega)

/-! ## Loops -/

theorem while_settled (ht : t.kind = .kwWhile) (hl : l.kind = .leftParen) (hr : r.kind = .rightParen)
    (hd : Derives (.expression .assignment e) ts) (hst : StatementSettled st us) :
    StatementSettled (.while e st) (t :: l :: (ts ++ r :: us)) := by
  refine begun_settled (x := fun n => whileStatement (partsWithin n))
    (fun _ => by rw [ht]; rfl) fun {B n s c vs todo} hB hlegal hn hopen hs => ?_
  rw [Stmt.Legal] at hlegal
  rw [Stmt.needs] at hs
  simp only [List.cons_append, List.append_assoc, List.nil_append, List.length_cons, List.length_append] at hs hn
  refine hs.here fun start hstart => hs.expect hl fun s₁ h₁ _ => ?_
  refine closed_settles (x := .conditionClose) (.inr rfl) hd hB hlegal.1 hr
    (by simp only [List.length_append, List.length_cons]; omega) h₁ fun s₂ h₂ => ?_
  refine (h₂.emitJump .jumpIfFalse).bind fun j s₃ h => ?_
  obtain ⟨h₃, hj⟩ := h
  refine (h₃.emit .pop).bind fun _ s₄ h₄ => ?_
  refine (hst (n := n) hB hlegal.2 (by simp only [List.length_append]; omega) hopen h₄).bind fun _ s₅ h₅ => ?_
  simp only [Need.size_cons, Need.size_append, Need.length] at hstart hj
  refine (h₅.emitLoop (i := start) (by simp only [Need.size_cons, Need.length]; omega)).bind
    fun _ s₆ h₆ => (h₆.patchJump (j := j) (by simp only [Need.size_cons, Need.length]; omega)).bind
      fun _ s₇ h₇ => ?_
  exact h₇.emit .pop

theorem first_settles {first : Option Stmt} (hd : Derives (.first first) ts) (hB : B.around = c.outer)
    (hlegal : FirstLegal c first) (hn : (ts ++ us).length ≤ n)
    (hs : Owes B (Showing c) (ts ++ us) (first.elim [] (Stmt.needs c) ++ todo) s) :
    Settles B (forInitializer (partsWithin n) s) fun _ s' =>
      Owes B (Showing (first.elim c c.after)) us todo s' := by
  cases hd with
  | noFirst hsemi => exact hs.accept hsemi (by simp) fun s₁ h₁ _ => h₁.settles ()
  | firstVar hd =>
      obtain ⟨t, x, vs, semi, rfl, ht, hx, rfl, hsemi, hv⟩ := derives_var hd
      simp only [List.cons_append, List.append_assoc, List.length_cons, List.nil_append] at hs hn
      refine hs.acceptNot (fun u hu => ?_) (hs.accept ht (by simp) fun s₁ h₁ _ => ?_)
      · obtain rfl := Option.some.inj hu
        rw [ht]
        simp
      · exact variable_settles hx hv hB hlegal (by omega) hsemi h₁
  | firstExpression hd =>
      obtain ⟨vs, semi, rfl, hsemi, he⟩ := derives_expressionStatement hd
      rw [FirstLegal, Stmt.Legal] at hlegal
      rw [List.append_assoc] at hs hn
      refine hs.acceptNot (not_begins he id) (hs.acceptNot (not_begins he id) ?_)
      exact expressionStatement_settles hsemi he hB hlegal (Nat.le_succ_of_le hn) hs

/-- The jump out of a loop, if there is one, is told by what is made behind its condition. -/
def Exits (whole todo : List Need) : Option Expr → Option Nat → Prop
  | none, none => True
  | some _, some j => j + 3 + Need.size todo = Need.size whole
  | _, _ => False

theorem test_settles {test : Option Expr} (hd : Derives (.optional test) ts) (hB : B.around = c.outer)
    (hlegal : c.Admits test) (hn : (ts ++ semi :: us).length ≤ n + 1) (hsemi : semi.kind = .semicolon)
    (hs : Owes B (Showing c) (ts ++ semi :: us) (c.testing test ++ todo) s) :
    Settles B (forCondition (partsWithin n) s) fun exit s' =>
      Owes B (Showing c) us todo s' ∧ Exits B.whole todo test exit := by
  cases hd with
  | absent => exact hs.accept hsemi nofun fun s₁ h₁ _ => .kept h₁.clean ⟨h₁, trivial⟩
  | present hd =>
      rw [Scope.testing] at hs
      simp only [List.append_assoc, List.cons_append, List.nil_append] at hs
      refine hs.acceptNot (not_begins hd nofun) ?_
      refine closed_settles (x := .loopConditionEnd) (.inl rfl) hd hB hlegal hsemi hn hs fun s₁ h₁ => ?_
      refine (h₁.emitJump .jumpIfFalse).bind fun j s₂ ⟨h₂, hj⟩ => (h₂.emit .pop).bind fun _ s₃ h₃ => ?_
      refine .kept h₃.clean ⟨h₃, ?_⟩
      change j + 3 + Need.size todo = _
      simp only [Need.size_cons, Need.length] at hj
      omega

/-- Behind its body a loop goes on at the condition or, if there is one, at the increment. -/
theorem step_settles {step : Option Expr} (start test : Nat) (hd : Derives (.optional step) ts)
    (hB : B.around = c.outer) (hlegal : c.Admits step) (hn : (ts ++ r :: us).length ≤ n + 1)
    (hr : r.kind = .rightParen)
    (hstart : start + test + Need.size (c.stepping test step ++ todo) = Need.size B.whole)
    (hs : Owes B (Showing c) (ts ++ r :: us) (c.stepping test step ++ todo) s) :
    Settles B (forIncrement (partsWithin n) start s) fun next s' =>
      Owes B (Showing c) us todo s' ∧ next + c.back test step + Need.size todo = Need.size B.whole := by
  cases hd with
  | absent => exact hs.accept hr (by simp) fun s₁ h₁ _ => .kept h₁.clean ⟨h₁, hstart⟩
  | @present e _ hd =>
      rw [Scope.stepping] at hs hstart
      simp only [List.cons_append, List.append_assoc, List.nil_append] at hs
      simp only [Need.size_cons, Need.size_append, Need.size_nil, Need.length] at hstart
      refine hs.acceptNot (not_begins hd id) ?_
      refine (hs.emitJump .jump).bind fun bodyJump s₁ h => ?_
      obtain ⟨h₁, hj⟩ := h
      refine h₁.here fun increment hincrement => ?_
      simp only [Need.size_cons, Need.size_append, Need.length] at hj hincrement
      refine (Expression.parse_settles (n := n) hd hB hlegal hn (by rw [hr]; rfl) (by rw [hr]; simp)
        h₁).bind fun _ s₂ h₂ => (h₂.emit .pop).bind fun _ s₃ h₃ => h₃.expect hr fun s₄ h₄ _ => ?_
      refine (h₄.emitLoop (i := start) (by simp only [Need.size_cons, Need.length]; omega)).bind
        fun _ s₅ h₅ => (h₅.patchJump (j := bodyJump) (by omega)).bind fun _ s₆ h₆ => ?_
      refine .kept h₆.clean ⟨h₆, ?_⟩
      change increment + (Need.size (e.needs c) + 4) + Need.size todo = _
      omega

/-- The end of a loop. -/
theorem closing_settles {scope : List String} {test : Option Expr} {exit : Option Nat} {d : Nat}
    {whole : List Need} (hexit : Exits B.whole whole test exit)
    (hd : Need.size whole =
      d + 3 + Need.size (Scope.exiting (d + 4) test ++ ((c.opened scope).leaving c ++ todo)))
    (hs : Owes B (Showing (c.opened scope)) us
      (Scope.exiting (d + 4) test ++ ((c.opened scope).leaving c ++ todo)) s) :
    Settles B (closing exit s) fun _ s' => Owes B (Showing c) us todo s' := by
  obtain _ | e := test <;> obtain _ | j := exit
  · exact hs.endScope
  · cases hexit
  · cases hexit
  · rw [Scope.exiting] at hs hd
    simp only [List.cons_append, List.nil_append, Need.size_cons, Need.size_append, Need.length] at hs hd
    have hexit : j + 3 + Need.size whole = Need.size B.whole := hexit
    refine (hs.patchJump (j := j) ?_).bind fun _ s₁ h₁ => (h₁.emit .pop).bind fun _ s₂ h₂ => h₂.endScope
    simp only [Need.size_cons, Need.size_append, Need.length]
    omega

theorem for_settled {first : Option Stmt} {test step : Option Expr} (ht : t.kind = .kwFor)
    (hl : l.kind = .leftParen) (hsemi : semi.kind = .semicolon) (hr : r.kind = .rightParen)
    (hfirst : Derives (.first first) ts) (htest : Derives (.optional test) us)
    (hstep : Derives (.optional step) vs) (hst : StatementSettled st ws) :
    StatementSettled (.for first test step st) (t :: l :: (ts ++ (us ++ semi :: (vs ++ r :: ws)))) := by
  refine begun_settled (x := fun n => forStatement (partsWithin n))
    (fun _ => by rw [ht]; rfl) fun {B n s c xs todo} hB hlegal hn hopen hs => ?_
  obtain ⟨hlegalFirst, hlegalTest, hlegalStep, hlegalBody⟩ := legal_for.mp hlegal
  rw [Stmt.needs_for] at hs
  simp only [List.cons_append, List.append_assoc, List.length_cons, List.length_append] at hs hn
  rw [forStatement_eq]
  refine hs.beginScope fun s₁ h₁ => h₁.expect hl fun s₂ h₂ _ => ?_
  refine (first_settles (c := c.enter) hfirst hB hlegalFirst
    (by simp only [List.length_append, List.length_cons]; omega) h₂).bind fun _ s₃ h₃ => ?_
  obtain ⟨scope, hscope⟩ : ∃ scope, first.elim c.enter c.enter.after = c.opened scope := by
    cases first with
    | none => exact ⟨[], rfl⟩
    | some first => exact c.opened_after [] first
  rw [hscope] at h₃ hlegalTest hlegalStep hlegalBody
  simp only [Scope.looping, List.append_assoc, List.cons_append, List.nil_append] at h₃
  refine h₃.here fun start hstart => ?_
  refine (test_settles (c := c.opened scope) htest hB hlegalTest
    (by simp only [List.length_append, List.length_cons]; omega) hsemi h₃).bind fun exit s₄ ⟨h₄, hexit⟩ => ?_
  refine (step_settles (c := c.opened scope) start (Need.size ((c.opened scope).testing test)) hstep hB hlegalStep
    (by simp only [List.length_append, List.length_cons]; omega) hr ?_ h₄).bind fun next s₅ ⟨h₅, hnext⟩ => ?_
  · simp only [Need.size_append] at hstart ⊢
    omega
  refine (hst (n := n) (c := c.opened scope) hB hlegalBody (by simp only [List.length_append]; omega) hopen
    h₅).bind fun _ s₆ h₆ => ?_
  simp only [Need.size_cons, Need.size_append, Need.length] at hnext
  refine (h₆.emitLoop (i := next) ?_).bind fun _ s₇ h₇ => ?_
  · simp only [Need.size_append]
    omega
  refine closing_settles hexit ?_ h₇
  simp only [Need.size_cons, Need.size_append, Need.length]
  omega

end Parts

end LoxMachine.Statement
