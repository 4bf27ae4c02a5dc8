import LoxMachine.Proofs.Guarded.Reading
import LoxMachine.Proofs.Guarded.Script
import LoxMachine.Proofs.Verdict.Script

/-!
# Recovery from static errors

After an error a guarded declaration recovers, and as far as no brace is passed over, the declarations
behind it are read as they were written. So up to the first brace that recovery passes over no error of
syntax is reported: `recovers_until_brace`.
-/

namespace LoxMachine.Guarded

open Builder Syntax
open Statement (insideBraces parameter maxParameters emitCapture)

section Declarations

variable {s : Builder} {t r semi : Token} {ts us vs : List Token} {n k b : Nat} {e : Expr}
  {α : Type} {f : Unit → Guarded α} {R : α → Builder → Prop}

/-! ## Variables -/

theorem aside_classes (f : List Bool → List Bool) :
    Aside (modify fun s : Builder => { s with classes := f s.classes } : Build PUnit) :=
  ⟨fun _ => ⟨rfl, rfl, rfl, id⟩⟩

instance (name : Option String) :
    Aside (modify fun s : Builder => { s with initializing := name } : Build PUnit) :=
  ⟨fun _ => ⟨rfl, rfl, rfl, id⟩⟩

/-- A variable whose name is read and declared. -/
theorem readVariable_then {e : Expectation} {g : Nat → Guarded α} (hs : s.Holds (t :: us))
    (ht : t.kind = e.kind) (hf : ∀ a s', s'.Holds us → Settles (g a s') R) :
    Settles ((liftM (readVariable e) >>= g) s) R := by
  change Settles ((liftM (expect e) >>= fun _ => liftM (do
    declareVariable
    if ← inGlobalScope then nameConstant (← lastText) else return 0 : Build Nat) >>= g) s) R
  exact .expect hs ht fun _ hat _ => .waits hat fun a s' hat' _ => hf a s' hat'

/-- What has been shown of a declaration. -/
def DeclarationRead (st : Stmt) (ts : List Token) : Prop :=
  ∀ {n k s t us}, s.Holds (ts ++ t :: us) → (st.isOpen = true → t.kind ≠ .kwElse) →
    Settles (declared (partsBelow n k) s) fun _ s' => s'.Holds (t :: us)

/-- A declaration that begins with a token of no declaration is a statement. -/
theorem StatementRead.declaration {st : Stmt} (h : StatementRead st ts)
    (hd : Derives (.statement st) ts) : DeclarationRead st ts := by
  intro n k s t us hs helse
  have hstatement := h (n := n) (k := k) hs helse
  obtain ⟨u, vs, rfl⟩ := List.exists_cons_of_length_pos (hd.pos rfl)
  have hbegins : BeginsStatement u.kind := hd.begins u rfl
  have hne {kind : TokenKind} (hkind : ¬ BeginsStatement kind) : u.kind ≠ kind :=
    fun hk => hkind (hk ▸ hbegins)
  rw [declared]
  refine .acceptNot hs (hne nofun) (.acceptNot hs (hne nofun) (.acceptNot hs (hne nofun) ?_))
  exact hstatement

/-- An equals sign and a value, or nothing. -/
def IsInitializer (ts : List Token) : Prop :=
  ts = [] ∨ ∃ eq vs e, ts = eq :: vs ∧ eq.kind = .equal ∧ Derives (.expression .assignment e) vs

theorem variableDeclaration_settles {name semi : Token} (hname : name.kind = .identifier)
    (hsemi : semi.kind = .semicolon) (hs : s.Holds (name :: (ts ++ semi :: us)))
    (hvalue : IsInitializer ts) :
    Settles (variableDeclaration (partsBelow n k) s) fun _ s' => s'.Holds us := by
  refine readVariable_then hs hname fun global s₁ hat₁ => ?_
  have hrest {s : Builder} (hs : s.Holds (semi :: us)) : Settles ((do
      (modify fun s => { s with initializing := none } : Build Unit)
      expect .variableEnd
      defineVariable global : Guarded Unit) s) fun _ s' => s'.Holds us :=
    .waits hs fun _ s₂ hat₂ _ => .expect hat₂ hsemi fun _ hat₃ _ => .last hat₃
  have hassigned {s : Builder} (hs : s.Holds (ts ++ semi :: us)) : Settles ((do
      if ← accept .equal then (partsBelow n k).expression else emit .litNil
      (modify fun s => { s with initializing := none } : Build Unit)
      expect .variableEnd
      defineVariable global : Guarded Unit) s) fun _ s' => s'.Holds us := by
    rcases hvalue with rfl | ⟨eq, vs, e, rfl, heq, hd⟩
    · refine .acceptNot hs (by rw [hsemi]; nofun) ?_
      exact .waits (x := liftM (emit .litNil)) hs fun _ _ hat _ => hrest hat
    · refine .accept hs heq nofun fun s₂ hat₂ _ => ?_
      exact expression_then hd hat₂ (.inl hsemi) fun _ hat₃ => hrest hat₃
  refine .waits hat₁ fun isGlobal s₂ hat₂ _ => ?_
  cases isGlobal with
  | false => exact hassigned hat₂
  | true => exact .waits hat₂ fun _ s₃ hat₃ _ => .waits hat₃ fun _ s₄ hat₄ _ => hassigned hat₄

theorem read_var {name semi : Token} {value : Option Expr} (ht : t.kind = .kwVar)
    (hname : name.kind = .identifier) (hsemi : semi.kind = .semicolon) (hvalue : IsInitializer ts) :
    DeclarationRead (.var name.text value) (t :: name :: ts ++ [semi]) := by
  intro n k s t' us hs _
  have hs : s.Holds (t :: name :: (ts ++ semi :: t' :: us)) := by simpa using hs
  rw [declared]
  refine .acceptNot hs (by rw [ht]; nofun) (.acceptNot hs (by rw [ht]; nofun) ?_)
  refine .accept hs ht nofun fun s₁ hat₁ _ => ?_
  exact variableDeclaration_settles hname hsemi hat₁ hvalue

theorem first_var {name semi : Token} (ht : t.kind = .kwVar) (hname : name.kind = .identifier)
    (hsemi : semi.kind = .semicolon) (hvalue : IsInitializer ts) :
    FirstRead (t :: name :: ts ++ [semi]) := by
  intro n k s us hs
  have hs : s.Holds (t :: name :: (ts ++ semi :: us)) := by simpa using hs
  rw [forInitializer]
  refine .acceptNot hs (by rw [ht]; nofun) (.accept hs ht nofun fun s₁ hat₁ _ => ?_)
  exact variableDeclaration_settles hname hsemi hat₁ hvalue

theorem first_none (hsemi : semi.kind = .semicolon) : FirstRead [semi] := by
  intro n k s us hs
  rw [forInitializer]
  exact .accept hs hsemi nofun fun _ hat _ => hat

theorem first_expression (hd : Derives (.statement (.expression e)) ts) : FirstRead ts := by
  intro n k s us hs
  cases hd with
  | @expression semi _ vs hsemi hd =>
      have hs : s.Holds (vs ++ semi :: us) := by simpa using hs
      have hstatement := expressionStatement_settles (n := n) (k := k) hsemi hd hs
      obtain ⟨u, vs, rfl, hbegins⟩ := exists_first hd
      have hne {kind : TokenKind} (hkind : ¬ BeginsExpression kind) : u.kind ≠ kind :=
        fun hk => hkind (hk ▸ hbegins)
      rw [forInitializer]
      exact .acceptNot hs (hne nofun) (.acceptNot hs (hne nofun) hstatement)

/-! ## Sequences of declarations -/

/-- What has been shown of declarations in a loop that ends with `r`. -/
def LoopRead (ts : List Token) : Prop :=
  ∀ {c : Build Bool} {body : Guarded Unit} {n : Nat} {r : Token} {us : List Token}
    {g : Unit → Guarded Unit} {R : Unit → Builder → Prop},
    (∀ s t us, s.Holds (t :: us) → BeginsDeclaration t.kind → c s = (true, s)) →
    (∀ s Q, Settles (declaration resumeWarily n s) Q → Settles (body s) Q) →
    Closing r →
    (∀ b s, s.Holds (r :: us) → Settles ((repeatWhile c body b >>= g) s) R) →
    ∀ {b s}, s.Holds (ts ++ r :: us) → Settles ((repeatWhile c body b >>= g) s) R

/-- What has been shown of declarations, after recovery at their beginning too. -/
def LoopsRead (ts : List Token) : Prop :=
  LoopRead ts ∧ ∃ ts', (∀ t ∈ ts.head?, BeginsExpression t.kind → Skipped ts ts') ∧ LoopRead ts'

theorem loopRead_nil : LoopRead [] :=
  fun _ _ _ hend _ _ hs => hend _ _ hs

/-- A declaration, and the recovery at its end. -/
theorem declaration_settles {st : Stmt} (h : DeclarationRead st ts) (hr : Closing r)
    (hbegins : ∀ t ∈ us.head?, BeginsDeclaration t.kind) {us' : List Token}
    (hskip : ∀ t ∈ us.head?, BeginsExpression t.kind → Skipped us us')
    (hs : s.Holds (ts ++ (us ++ r :: vs))) :
    Settles (declaration resumeWarily n s) fun _ s' =>
      s'.Holds (us ++ r :: vs) ∨ s'.Holds (us' ++ r :: vs) := by
  cases n with
  | zero => trivial
  | succ n =>
      rw [declaration, get_bind]
      change Settles (declarationRule (partsBelow n s.left) s) _
      rw [declarationRule_eq]
      obtain ⟨t, ws, hws, helse⟩ : ∃ t ws, us ++ r :: vs = t :: ws ∧ t.kind ≠ .kwElse := by
        cases us with
        | nil => exact ⟨r, vs, rfl, fun hk => by rcases hr with hr | hr <;> cases hr.symm.trans hk⟩
        | cons u us =>
            have hu := hbegins u rfl
            exact ⟨u, us ++ r :: vs, rfl, fun hk => by rw [hk] at hu; exact hu⟩
      rw [hws] at hs
      refine (h hs fun _ => helse).bind fun _ s₁ hat₁ => ?_
      rw [get_bind]
      rw [← hws] at hat₁
      split
      · rename_i hpanic
        have herror := hat₁.errors.2 hpanic
        exact (resume_settles hat₁ herror hr hbegins hskip).map fun _ _ hat => hat.imp_right And.right
      · exact .inl hat₁

theorem loopRead_cons {st : Stmt} (h : DeclarationRead st ts)
    (hd : Derives (.declaration st) ts) (hus : LoopsRead us)
    (hbegins : ∀ t ∈ us.head?, BeginsDeclaration t.kind) : LoopRead (ts ++ us) := by
  intro c body n r vs g R hc hbody hr hend b s hs
  obtain ⟨us', hskip, hus'⟩ := hus.2
  rw [List.append_assoc] at hs
  have hgo : c s = (true, s) := by
    have hfirst := hd.begins
    obtain ⟨t, ts, rfl⟩ := List.exists_cons_of_length_pos (hd.pos rfl)
    exact hc s t _ hs (hfirst t rfl)
  refine .loopStep hgo fun b => ?_
  refine (hbody s _ (declaration_settles h hr hbegins hskip hs)).bind fun _ s₁ hat₁ => ?_
  rcases hat₁ with hat₁ | hat₁
  · exact hus.1 hc hbody hr hend hat₁
  · exact hus' hc hbody hr hend hat₁

theorem insideBraces_run (hs : s.Holds (t :: us)) :
    insideBraces s = (!decide (t.kind = .rightBrace) && !decide (t.kind = .eof), s) := by
  rw [← current_of_holds hs]
  rfl

/-- Declarations between braces. -/
theorem block_settles (h : LoopRead ts) (hr : r.kind = .rightBrace) (hs : s.Holds (ts ++ r :: us)) :
    Settles (block (partsBelow n k) s) fun _ s' => s'.Holds us := by
  rw [block]
  refine h (fun s t us hs hbegins => ?_) (fun s Q hQ => hQ.fewer) (.inl hr) (fun b s hs => ?_) hs
  · rw [insideBraces_run hs]
    cases hk : t.kind <;> first | rfl | (rw [hk] at hbegins; exact hbegins.elim)
  · refine .loopEnd (by rw [insideBraces_run hs, hr]; rfl) ?_
    have hclose : Settles ((liftM (expect .blockClose) >>= pure : Guarded Unit) s)
      fun _ s' => s'.Holds us := .expect hs hr fun _ hat _ => hat
    exact hclose

theorem read_block {ss : List Stmt} {l : Token} (hl : l.kind = .leftBrace) (hr : r.kind = .rightBrace)
    (h : LoopRead ts) : StatementRead (.block ss) (l :: ts ++ [r]) := by
  intro n k s t us hs _
  have hs : s.Holds (l :: (ts ++ r :: t :: us)) := by simpa using hs
  refine statement_keyword hs (by rw [hl]; rfl) fun s₁ hat₁ _ => .waits hat₁ fun _ s₂ hat₂ _ => ?_
  exact (block_settles h hr hat₂).bind fun _ s₃ hat₃ => .last (x := endScope) hat₃

/-! ## Functions -/

instance (captures : Array Capture) : Aside (captures.forM emitCapture) := by
  have h : captures.forM emitCapture = captures.toList.forM emitCapture := by
    cases captures
    simp
  rw [h]
  infer_instance

/-- What has been shown of the names of parameters. -/
def ParametersRead (ts : List Token) : Prop :=
  ts ≠ [] → ∀ {b s r us} {g : Unit → Guarded Unit} {R : Unit → Builder → Prop},
    r.kind = .rightParen → s.Holds (ts ++ r :: us) →
    (∀ s', s'.Holds (r :: us) → Settles (g () s') R) →
    Settles ((liftM parameter >>= fun _ => repeatWhile (accept .comma) parameter b >>= g) s) R

theorem lift_bind {β γ : Type} (y : Build α) (z : α → Build β) (g : β → Guarded γ) :
    (liftM (y >>= z) >>= g) = (liftM y >>= fun a => liftM (z a) >>= g : Guarded γ) :=
  rfl

theorem parameter_then {g : Unit → Guarded α} (hs : s.Holds (t :: us))
    (ht : t.kind = .identifier) (hf : ∀ s', s'.Holds us → Settles (g () s') R) :
    Settles ((liftM parameter >>= g) s) R := by
  have hnamed {s : Builder} (hs : s.Holds (t :: us)) : Settles ((liftM (do
      let constant ← readVariable .parameterName
      defineVariable constant : Build Unit) >>= g) s) R := by
    rw [lift_bind]
    refine readVariable_then hs ht fun constant s₂ hat₂ => ?_
    exact .waits hat₂ fun _ s₃ hat₃ _ => hf s₃ hat₃
  rw [parameter, lift_bind]
  refine .waits hs fun _ s₁ hat₁ _ => ?_
  rw [lift_bind]
  refine .waits hat₁ fun s₂ s₃ hat₃ _ => ?_
  dsimp only
  split
  · rw [lift_bind]
    exact .waits hat₃ fun _ s₄ hat₄ _ => hnamed hat₄
  · exact hnamed hat₃

theorem parametersRead_last (ht : t.kind = .identifier) : ParametersRead [t] := by
  intro _ b s r us g R hr hs hg
  refine parameter_then hs ht fun s₁ hat₁ => ?_
  have hend : accept .comma s₁ = (false, s₁) := accept_of_ne (by rw [current_of_holds hat₁, hr]; nofun)
  exact .loopEnd hend (hg s₁ hat₁)

theorem parametersRead_cons {comma : Token} (ht : t.kind = .identifier) (hcomma : comma.kind = .comma)
    (hne : ts ≠ []) (h : ParametersRead ts) : ParametersRead (t :: comma :: ts) := by
  intro _ b s r us g R hr hs hg
  refine parameter_then hs ht fun s₁ hat₁ => .loopStep (accept_of_eq (current_of_holds hat₁ ▸ hcomma)) fun b => ?_
  exact h hne hr (advance_holds hat₁ (by rw [hcomma]; simp)).1 hg

theorem parameters_settles {names : List String} {l : Token} (hd : Derives (.parameters names) ts)
    (h : ParametersRead ts) (hl : l.kind = .leftParen) (hr : r.kind = .rightParen)
    (hs : s.Holds (l :: (ts ++ r :: us))) :
    Settles (parameters (partsBelow n k) s) fun _ s' => s'.Holds us := by
  rw [parameters]
  refine .expect hs hl fun s₁ hat₁ _ => ?_
  have hclose {s : Builder} (hs : s.Holds (r :: us)) : Settles ((liftM (expect .parametersClose) >>=
      pure : Guarded Unit) s) fun _ s' => s'.Holds us := .expect hs hr fun _ hat _ => hat
  have hcheck {t : Token} {vs : List Token} (hs : s₁.Holds (t :: vs)) :
      check .rightParen s₁ = (decide (t.kind = .rightParen), s₁) := by
    rw [← current_of_holds hs]
    rfl
  cases ts with
  | nil =>
      rw [bind_ok (congrArg Except.ok (hcheck hat₁)), hr]
      exact hclose hat₁
  | cons t ts =>
      have hbegins : t.kind = .identifier := hd.begins t rfl
      rw [bind_ok (congrArg Except.ok (hcheck hat₁)), hbegins]
      exact h nofun hr hat₁ fun s₂ hat₂ => hclose hat₂

/-- What has been shown of a function from its name on. -/
def FunctionRead (ts : List Token) : Prop :=
  ∃ name vs, ts = name :: vs ∧ name.kind = .identifier ∧ ∀ {n k kind s us}, s.Holds (vs ++ us) →
    Settles (function (partsBelow n k) kind s) fun _ s' => s'.Holds us

theorem read_function {names : List String} {name l lb rb : Token} (hname : name.kind = .identifier)
    (hl : l.kind = .leftParen) (hr : r.kind = .rightParen) (hlb : lb.kind = .leftBrace)
    (hrb : rb.kind = .rightBrace) (hd : Derives (.parameters names) ts) (h : ParametersRead ts)
    (hbody : LoopRead us) :
    FunctionRead (name :: l :: ts ++ r :: lb :: us ++ [rb]) := by
  refine ⟨name, l :: ts ++ r :: lb :: us ++ [rb], by simp, hname, fun {n k kind s vs} hs => ?_⟩
  have hs : s.Holds (l :: (ts ++ r :: lb :: (us ++ rb :: vs))) := by simpa using hs
  rw [function]
  refine .waits hs fun text s₁ hat₁ _ => .waits hat₁ fun _ s₂ hat₂ _ => .waits hat₂ fun _ s₃ hat₃ _ => ?_
  refine (parameters_settles hd h hl hr hat₃).bind fun _ s₄ hat₄ => ?_
  refine .expect hat₄ hlb fun s₅ hat₅ _ => (block_settles hbody hrb hat₅).bind fun _ s₆ hat₆ => ?_
  refine .waits hat₆ fun _ s₇ hat₇ _ => .waits hat₇ fun fc s₈ hat₈ _ => ?_
  exact .last hat₈

theorem read_functionDeclaration {f : Fun Stmt} (ht : t.kind = .kwFun) (h : FunctionRead ts) :
    DeclarationRead (.function f) (t :: ts) := by
  intro n k s t' us hs _
  obtain ⟨name, vs, rfl, hname, hfunction⟩ := h
  rw [declared]
  refine .acceptNot hs (by rw [ht]; nofun) (.accept hs ht nofun fun s₁ hat₁ _ => ?_)
  rw [if_pos rfl, functionDeclaration]
  have hkind : name.kind = Expectation.functionName.kind := hname
  have hat₁ : s₁.Holds (name :: (vs ++ t' :: us)) := hat₁
  -- The rule is not to be run, only to be taken apart.
  with_reducible refine readVariable_then hat₁ hkind fun global s₂ hat₂ => ?_
  refine .waits hat₂ fun _ s₃ hat₃ _ => ?_
  exact (hfunction hat₃).bind fun _ s₄ hat₄ => .last hat₄

/-! ## Classes -/

/-- What has been shown of the methods of a class. -/
def MethodsRead (ts : List Token) : Prop :=
  ∀ {n k b s r us} {g : Unit → Guarded Unit} {R : Unit → Builder → Prop},
    r.kind = .rightBrace → s.Holds (ts ++ r :: us) →
    (∀ s', s'.Holds (r :: us) → Settles (g () s') R) →
    Settles ((repeatWhile insideBraces (method (partsBelow n k)) b >>= g) s) R

theorem methodsRead_nil : MethodsRead [] := by
  intro n k b s r us g R hr hs hg
  exact .loopEnd (by rw [insideBraces_run hs, hr]; rfl) (hg s hs)

theorem methodsRead_cons (h : FunctionRead ts) (hus : MethodsRead us) : MethodsRead (ts ++ us) := by
  intro n k b s r vs g R hr hs hg
  obtain ⟨name, ws, rfl, hname, hfunction⟩ := h
  have hs : s.Holds (name :: (ws ++ (us ++ r :: vs))) := by simpa using hs
  refine .loopStep (by rw [insideBraces_run hs, hname]; rfl) fun b => ?_
  rw [method, bind_assoc]
  refine .expect hs hname fun s₁ hat₁ _ => ?_
  simp only [bind_assoc]
  refine .waits hat₁ fun text s₂ hat₂ _ => .waits hat₂ fun constant s₃ hat₃ _ => ?_
  refine (hfunction hat₃).bind fun _ s₄ hat₄ => ?_
  exact .waits hat₄ fun _ s₅ hat₅ _ => hus hr hat₅ hg

theorem superclass_settles {parent : Token} {name : String} (hparent : parent.kind = .identifier)
    (hs : s.Holds (parent :: us)) : Settles (superclass name s) fun _ s' => s'.Holds us := by
  have := aside_classes (true :: ·.tail)
  have hinherit {s : Builder} (hs : s.Holds us) : Settles ((do
      beginScope
      addLocal "super"
      defineVariable 0
      readNamed name
      emit .inherit
      (modify fun s => { s with classes := true :: s.classes.tail } : Build Unit) : Guarded Unit) s)
      fun _ s' => s'.Holds us := by
    refine .waits hs fun _ s₁ hat₁ _ => .waits hat₁ fun _ s₂ hat₂ _ => ?_
    refine .waits hat₂ fun _ s₃ hat₃ _ => .waits hat₃ fun _ s₄ hat₄ _ => ?_
    exact .waits hat₄ fun _ s₅ hat₅ _ => .last hat₅
  rw [superclass]
  refine .expect hs hparent fun s₁ hat₁ _ => .waits hat₁ fun text s₂ hat₂ _ => ?_
  refine .waits hat₂ fun _ s₃ hat₃ _ => .waits hat₃ fun text s₄ hat₄ _ => ?_
  dsimp only
  split
  · exact .waits hat₄ fun _ s₅ hat₅ _ => hinherit hat₅
  · exact hinherit hat₄

instance : Waits endClass := by
  have := aside_classes (·.tail)
  unfold endClass
  infer_instance

theorem read_class {name l : Token} {parent : Option String} {fs : List (Fun Stmt)}
    {less : List Token} (ht : t.kind = .kwClass) (hname : name.kind = .identifier)
    (hl : l.kind = .leftBrace) (hr : r.kind = .rightBrace) (h : MethodsRead ts)
    (hless : less = [] ∨ ∃ t p, less = [t, p] ∧ t.kind = .less ∧ p.kind = .identifier) :
    DeclarationRead (.cls name.text parent fs) (t :: name :: (less ++ l :: ts) ++ [r]) := by
  intro n k s t' us hs _
  have hs : s.Holds (t :: name :: (less ++ l :: (ts ++ r :: t' :: us))) := by simpa using hs
  have hbody {text : String} {s : Builder} (hs : s.Holds (l :: (ts ++ r :: t' :: us))) :
      Settles ((do classBody (partsBelow n k) text; endClass) s) fun _ s' => s'.Holds (t' :: us) := by
    refine Settles.bind (R := fun _ s' => s'.Holds (t' :: us)) ?_ fun _ _ hat => .last hat
    rw [classBody]
    refine .waits hs fun _ s₁ hat₁ _ => .expect hat₁ hl fun s₂ hat₂ _ => h hr hat₂ fun s₃ hat₃ => ?_
    exact .expect hat₃ hr fun s₄ hat₄ _ => .last hat₄
  have := aside_classes (false :: ·)
  rw [declared]
  refine .accept hs ht (by simp) fun s₁ hat₁ _ => ?_
  rw [if_pos rfl, classDeclaration_eq]
  refine .expect hat₁ hname fun s₂ hat₂ _ => .waits hat₂ fun text s₃ hat₃ _ => ?_
  refine .waits hat₃ fun constant s₄ hat₄ _ => .waits hat₄ fun _ s₅ hat₅ _ => ?_
  refine .waits hat₅ fun _ s₆ hat₆ _ => .waits hat₆ fun _ s₇ hat₇ _ => .waits hat₇ fun _ s₈ hat₈ _ => ?_
  rcases hless with rfl | ⟨lt, p, rfl, hlt, hp⟩
  · exact .acceptNot hat₈ (by rw [hl]; simp) (hbody hat₈)
  · refine .accept hat₈ hlt (by simp) fun s₉ hat₉ _ => ?_
    exact (superclass_settles hp hat₉).bind fun _ s₁₀ hat₁₀ => hbody hat₁₀

end Declarations

/-! ## Scripts -/

/-- What is shown of phrases by induction on the grammar. -/
def Read : Phrase → List Token → Prop
  | .statement st, ts => StatementRead st ts
  | .first _, ts => FirstRead ts
  | .declaration st, ts => DeclarationRead st ts
  | .declarations _, ts => LoopsRead ts
  | .parameters _, ts => ParametersRead ts
  | .function _, ts => FunctionRead ts
  | .methods _, ts => MethodsRead ts
  | _, _ => True

theorem read_of_derives {x : Phrase} {ts : List Token} (h : Derives x ts) : Read x ts := by
  induction h with
  | expression hsemi hd => exact read_expression hsemi hd
  | print ht hsemi hd => exact read_print ht hsemi hd
  | assert ht hsemi hd => exact read_assert ht hsemi hd
  | block hl hr _ ih => exact read_block hl hr ih.1
  | cond ht hl hr hd _ _ ih => exact read_if ht hl hr hd ih
  | condElse ht hl hr ht' hd _ hopen _ _ ih ih' => exact read_ifElse ht hl hr ht' hd ih hopen ih'
  | «while» ht hl hr hd _ _ ih => exact read_while ht hl hr hd ih
  | «for» ht hl hsemi hr _ hc hstep _ ih _ _ ih' => exact read_for ht hl hsemi hr ih hc hstep ih'
  | «return» ht hsemi hd => exact read_return ht hsemi hd
  | noFirst hsemi => exact first_none hsemi
  | firstVar hd =>
      cases hd with
      | statement h => cases h
      | var ht hname hsemi => exact first_var ht hname hsemi (.inl rfl)
      | varValue ht hname heq hsemi hd =>
          exact first_var ht hname hsemi (.inr ⟨_, _, _, rfl, heq, hd⟩)
  | firstExpression hd => exact first_expression hd
  | statement hd ih => exact StatementRead.declaration ih hd
  | var ht hname hsemi => exact read_var ht hname hsemi (.inl rfl)
  | varValue ht hname heq hsemi hd =>
      exact read_var ht hname hsemi (.inr ⟨_, _, _, rfl, heq, hd⟩)
  | functionDeclaration ht _ ih => exact read_functionDeclaration ht ih
  | cls ht hname hl hr _ ih => exact read_class ht hname hl hr ih (.inl rfl)
  | subclass ht hname hless hparent hl hr _ ih =>
      exact read_class ht hname hl hr ih (.inr ⟨_, _, rfl, hless, hparent⟩)
  | noDeclarations => exact ⟨loopRead_nil, [], nofun, loopRead_nil⟩
  | @declarations st ss ts us hd hds ih ih' =>
      refine ⟨loopRead_cons ih hd ih' hds.begins, us, fun t ht hk => ?_, ih'.1⟩
      have hfirst := mem_head?_append (hd.pos rfl) ht
      refine skipped_of_derives hd (fun u hu => ?_) us
      obtain rfl := Option.some.inj (hfirst.symm.trans hu)
      exact hk
  | noParameters => exact fun h => absurd rfl h
  | lastParameter hname => exact parametersRead_last hname
  | parameter hname hcomma hd ih =>
      exact parametersRead_cons hname hcomma (by cases hd <;> nofun) ih
  | function hname hl hr hlb hrb hd _ ih ih' => exact read_function hname hl hr hlb hrb hd ih ih'.1
  | noMethods => exact methodsRead_nil
  | methods _ _ ih ih' => exact methodsRead_cons ih ih'
  | _ => trivial

/-- A script that has been read without passing over a brace has static errors only. -/
theorem script_settles {tokens : List Token} {tree : List Stmt} (hends : EndOnce tokens)
    (h : Script tokens tree) (n firstIndex : Nat) :
    Settles (script resumeWarily n (Program.start firstIndex tokens)) fun _ s' =>
      ∀ e ∈ s'.errors, e.IsStatic := by
  obtain ⟨ts, last, rfl, hlast, hd⟩ := h
  have hplain : ∀ t ∈ ts ++ [last], t.IsPlain := fun t ht cause hk => by
    rw [List.mem_append, List.mem_singleton] at ht
    rcases ht with ht | rfl
    · exact hd.plain t ht cause hk
    · simp [hlast] at hk
  have hfed := (within_first hends firstIndex).fed
  generalize htokens : ts ++ [last] = tokens at *
  obtain ⟨t, us, rfl⟩ : ∃ t us, tokens = t :: us := by
    cases ts <;> exact ⟨_, _, htokens.symm⟩
  have hfirst : (Builder.advance (Program.start firstIndex (t :: us))).2 =
      { Program.start firstIndex [] with current := t, upcoming := us } := by
    change Builder.pull { Program.start firstIndex (t :: us) with previous := .eof 1 } (t :: us) = _
    rw [pull]
    split
    · exact absurd (by assumption) (hplain t List.mem_cons_self _)
    · rfl
  have hs : (Builder.advance (Program.start firstIndex (t :: us))).2.Holds (ts ++ [last]) := by
    refine ⟨hfed, ?_, htokens ▸ hplain, ?_⟩ <;> rw [hfirst]
    · exact htokens.symm
    · exact ⟨by simp [Program.start], by simp [Program.start]⟩
  change Settles ((repeatWhile isUnread (declaration resumeWarily (n + 1)) n >>= fun _ =>
    liftM emitReturn : Guarded Unit) (Builder.advance (Program.start firstIndex (t :: us))).2) _
  have hread : LoopsRead ts := read_of_derives hd
  refine hread.1 (fun s t us hs hbegins => ?_) (fun _ _ hQ => hQ) (.inr hlast) (fun b s hs => ?_) hs
  · rw [isUnread_run, current_of_holds hs, if_neg]
    intro hk
    rw [hk] at hbegins
    exact hbegins
  · refine .loopEnd (by rw [isUnread_run, current_of_holds hs, if_pos hlast]) ?_
    rw [hs.fed.advance_of_eof (current_of_holds hs ▸ hlast)]
    have herrors : Blameless { s with previous := s.current, upcoming := [] } := hs.errors
    exact ((Aside.apart (y := emitReturn) _).errors herrors).1

/-- Where the tokens of a text are those of declarations, all errors are static up to where recovery
first passes over a brace. If it never does, there is no other error at all; and if it does, the errors
reported before are the first ones of the text, and they are static. -/
theorem recovers_until_brace {source : String} {tree : List Stmt}
    (h : Script (Scanner.ofString source).tokens tree) (firstIndex : Nat) :
    (compile resumeWarily (Scanner.ofString source).tokens.length firstIndex source =
        .ok (Program.compile firstIndex source) ∧
      ∀ r, Program.compile firstIndex source = .error r → ∀ e ∈ r.errors, e.IsStatic) ∨
    ∃ es r, compile resumeWarily (Scanner.ofString source).tokens.length firstIndex source =
        .error (.overBrace es) ∧
      Program.compile firstIndex source = .error r ∧ es ≠ #[] ∧ es.toList <+: r.errors ∧
      ∀ e ∈ es, e.IsStatic := by
  have hends := (Scanner.tokens_spec (Scanner.ofString source)).2
  have hsettles := script_settles hends h (Scanner.ofString source).tokens.length firstIndex
  have hcompile : Program.compile firstIndex source = Program.conclude (final firstIndex source) :=
    rfl
  rw [compile]
  rcases agrees_script (w := true) resumeWarily hends (Nat.le_refl _) firstIndex with
    hrun | ⟨-, es, hrun, hprefix⟩
  · rw [hrun] at hsettles ⊢
    refine .inl ⟨rfl, fun r hr e he => hsettles e ?_⟩
    rw [hcompile, Program.conclude] at hr
    split at hr
    · cases hr
    · obtain rfl := Except.error.inj hr
      exact Array.mem_toList_iff.mp he
  · rw [hrun] at hsettles ⊢
    have herrors : (final firstIndex source).errors ≠ #[] := fun hnil => by
      have hprefix : es.toList <+: (final firstIndex source).errors.toList := hprefix
      rw [hnil] at hprefix
      exact hsettles.1 (Array.toList_eq_nil_iff.mp (List.prefix_nil.mp hprefix))
    exact .inr ⟨es, _, rfl, hcompile.trans (Program.conclude_of_errors herrors), hsettles.1, hprefix,
      hsettles.2⟩

/-- A token of one character on the first line. -/
def ofChar (kind : TokenKind) (c : Char) : Token :=
  ⟨kind, [[c]], 1⟩

/-- A function with two parameters of one name, in a block. -/
theorem script_duplicate : Script (Scanner.ofString "{ fun f(a, a) {} }").tokens
    [.block [.function ⟨"f", ["a", "a"], []⟩]] := by
  have htokens : (Scanner.ofString "{ fun f(a, a) {} }").tokens =
      [ofChar .leftBrace '\x7b', ⟨.kwFun, [['f'], ['u'], ['n']], 1⟩, ofChar .identifier 'f',
        ofChar .leftParen '(', ofChar .identifier 'a', ofChar .comma ',', ofChar .identifier 'a',
        ofChar .rightParen ')', ofChar .leftBrace '\x7b', ofChar .rightBrace '\x7d',
        ofChar .rightBrace '\x7d'] ++ [.eof 1] := by
    decide +kernel
  have hparameters : Derives (.parameters ["a", "a"])
      [ofChar .identifier 'a', ofChar .comma ',', ofChar .identifier 'a'] :=
    @Derives.parameter (ofChar .identifier 'a') _ _ _ _ rfl rfl
      (@Derives.lastParameter (ofChar .identifier 'a') rfl)
  have hfunction := @Derives.function (ofChar .identifier 'f') (ofChar .leftParen '(')
    (ofChar .rightParen ')') (ofChar .leftBrace '\x7b') (ofChar .rightBrace '\x7d') _ _ _ _ rfl rfl
    rfl rfl rfl hparameters .noDeclarations
  have hdeclaration := @Derives.functionDeclaration ⟨.kwFun, [['f'], ['u'], ['n']], 1⟩ _ _ rfl hfunction
  have hblock := @Derives.block (ofChar .leftBrace '\x7b') (ofChar .rightBrace '\x7d') _ _ rfl rfl
    (.declarations hdeclaration .noDeclarations)
  have hscript := Derives.declarations (.statement hblock) .noDeclarations
  exact ⟨_, _, htokens, rfl, hscript⟩

/-- Here recovery stops at the brace behind the parameters. -/
theorem recovers_until_brace_duplicate :
    ∃ es r, compile resumeWarily (Scanner.ofString "{ fun f(a, a) {} }").tokens.length 0
        "{ fun f(a, a) {} }" = .error (.overBrace es) ∧
      Program.compile 0 "{ fun f(a, a) {} }" = .error r ∧ es ≠ #[] ∧ es.toList <+: r.errors ∧
      ∀ e ∈ es, e.IsStatic := by
  refine (recovers_until_brace script_duplicate 0).resolve_left fun h => ?_
  have hstops : (compile resumeWarily (Scanner.ofString "{ fun f(a, a) {} }").tokens.length 0
      "{ fun f(a, a) {} }").isOk = false := by decide +kernel
  rw [h.1] at hstops
  cases hstops

/-- And where recovery passes over that brace, the block around the function is not closed. -/
theorem recovery_passes_brace :
    Script (Scanner.ofString "{ fun f(a, a) {} }").tokens
        [.block [.function ⟨"f", ["a", "a"], []⟩]] ∧
      ∃ r, Program.compile 0 "{ fun f(a, a) {} }" = .error r ∧
        .grammar 1 .atEnd (.expect .blockClose) ∈ r.errors ∧
        ¬ (SourceError.grammar 1 .atEnd (.expect .blockClose)).IsStatic := by
  have hcompile : (Program.compile 0 "{ fun f(a, a) {} }").map (fun _ => ()) =
      .error ⟨[.grammar 1 (.atToken "a") .duplicateLocal,
        .grammar 1 .atEnd (.expect .blockClose)], #[]⟩ := by decide +kernel
  refine ⟨script_duplicate, ?_⟩
  cases hr : Program.compile 0 "{ fun f(a, a) {} }" with
  | ok p =>
      rw [hr] at hcompile
      cases hcompile
  | error r =>
      rw [hr] at hcompile
      obtain rfl := Except.error.inj hcompile
      exact ⟨_, rfl, by simp, id⟩

end LoxMachine.Guarded
