import LoxMachine.Proofs.Guarded.Wary
import LoxMachine.Proofs.Verdict.Expressions

/-!
# Guarded expressions

Where the tokens are those of an expression, the guarded parser reads them, whatever state it is in,
and reports no error of syntax. As in the verdict on expressions, what is shown by induction on the
grammar is that the parser, begun at an expression, comes to its loop behind it (`Reaches`).
-/

namespace LoxMachine.Guarded

open Builder Syntax

/-! ## The rule for expressions -/

/-- Reads an equals sign where an assignment may stand. -/
def assigns (canAssign : Bool) : Build Bool :=
  if canAssign then accept .equal else return false

/-- What the rule for expressions does behind an operand. -/
def rest (n : Nat) (sub : Power → Guarded Unit) (p : Power) (b : Nat) : Guarded Unit := do
  repeatWhile (continues p) (operator n sub (p ≤ .assignment)) b
  if ← assigns (p ≤ .assignment) then error .invalidAssignmentTarget

theorem rule_eq (n : Nat) (sub : Power → Guarded Unit) (p : Power) : rule n sub p = (do
    advance
    match opening n sub (p ≤ .assignment) (← get).previous.kind with
    | none => error .expectExpression
    | some first => do
      first
      rest n sub p n) :=
  rfl

/-- The parser for operands where fewer than `k` tokens have to be left. -/
def inner (k n : Nat) (p : Power) : Guarded Unit :=
  below k (within n p)

variable {α : Type} {s : Builder} {t : Token} {us : List Token} {n b k : Nat} {p : Power}
  {sub : Power → Guarded Unit} {R : α → Builder → Prop}

theorem settles_notAssigned {canAssign : Bool} {f : Bool → Guarded α} (hs : s.Holds (t :: us))
    (hk : t.kind ≠ .equal) (hf : Settles (f false s) R) :
    Settles ((liftM (assigns canAssign) >>= f) s) R := by
  cases canAssign with
  | false => exact hf
  | true => exact .acceptNot hs hk hf

theorem continues_run (hs : s.Holds (t :: us)) :
    continues p s = (decide (p ≤ Power.ofKind t.kind), s) := by
  rw [← current_of_holds hs]
  rfl

/-- Nothing can be assigned to where there is no equals sign, and no operator binds tightly
enough. -/
theorem rest_stop (hs : s.Holds (t :: us)) (hp : ¬ p ≤ Power.ofKind t.kind) (hk : t.kind ≠ .equal) :
    Settles (rest n sub p b s) fun _ s' => s' = s := by
  refine .loopEnd ((continues_run hs).trans (by rw [decide_eq_false hp])) ?_
  exact settles_notAssigned hs hk rfl

/-- An operator that binds tightly enough. -/
theorem rest_step {R : Unit → Builder → Prop} (hs : s.Holds (t :: us))
    (hassign : Power.assignment ≤ p) (hp : p ≤ Power.ofKind t.kind)
    (hf : ∀ s' b, s'.Holds us → s'.previous = t →
      Settles ((continuation n sub (p ≤ .assignment) t.kind >>= fun _ => rest n sub p b) s') R) :
    Settles (rest n sub p b s) R := by
  have hne : t.kind ≠ .eof := by
    intro heof
    rw [heof] at hp
    exact absurd (Power.le_trans hassign hp) (by decide)
  obtain ⟨hat, hprevious⟩ := advance_holds hs hne
  refine .loopStep ((continues_run hs).trans (by rw [decide_eq_true hp])) fun b => ?_
  have hrun := hf _ b hat hprevious
  rw [← hprevious] at hrun
  exact hrun

/-- The first token of an expression. -/
theorem rule_first {R : Unit → Builder → Prop} {x : Guarded Unit} (hs : s.Holds (t :: us))
    (hx : opening n sub (p ≤ .assignment) t.kind = some x)
    (hf : ∀ s', s'.Holds us → s'.previous = t → Settles ((x >>= fun _ => rest n sub p n) s') R) :
    Settles (rule n sub p s) R := by
  have hne : t.kind ≠ .eof := by
    intro heof
    rw [heof] at hx
    cases hx
  obtain ⟨hat, hprevious⟩ := advance_holds hs hne
  rw [rule_eq]
  change Settles ((match opening n sub (p ≤ .assignment) (Builder.advance s).2.previous.kind with
    | none => liftM (error .expectExpression)
    | some first => first >>= fun _ => rest n sub p n : Guarded Unit) (Builder.advance s).2) R
  rw [hprevious, hx]
  exact hf _ hat hprevious

/-! ## Operands -/

/-- The parser, begun at the tokens `ts`, comes to its loop behind them. -/
def Reaches (q : Power) (e : Expr) (ts : List Token) : Prop :=
  ∀ {n k p s t us}, Power.assignment ≤ p → p ≤ q → p ≤ .unary → s.Holds (ts ++ t :: us) →
    Syntax.Follows q e t →
    ∀ {R}, (∀ s' b, s'.Holds (t :: us) → Settles (rest n (inner k n) p b s') R) →
    Settles (rule n (inner k n) p s) R

/-- An expression that nothing behind it belongs to. -/
theorem Reaches.whole {e : Expr} {ts : List Token} (h : Reaches p e ts)
    (hassign : Power.assignment ≤ p) (hunary : p ≤ .unary) (hs : s.Holds (ts ++ t :: us))
    (hleft : (Power.ofKind t.kind).left ≤ p) (hequal : t.kind ≠ .equal)
    (hstop : ¬ p ≤ Power.ofKind t.kind) :
    Settles (within n p s) fun _ s' => s'.Holds (t :: us) := by
  cases n with
  | zero => trivial
  | succ n =>
      have hfollows : Syntax.Follows p e t := by
        refine ⟨hleft, hequal, fun _ hparen => hstop ?_⟩
        rw [hparen]
        exact Power.le_trans hunary (by decide)
      rw [within, get_bind]
      exact h (k := s.left) hassign (Power.le_refl p) hunary hs hfollows fun s' b hat =>
        (rest_stop hat hstop hequal).map fun _ _ heq => heq ▸ hat

/-- An expression of one token. -/
theorem reaches_token {e : Expr} {x : Guarded Unit}
    (hx : ∀ n sub canAssign, opening n sub canAssign t.kind = some x)
    (hd : ∀ {s us}, s.Holds us → s.previous = t → Settles (x s) fun _ s' => s'.Holds us) :
    Reaches .primary e [t] :=
  fun {n _ _ _ _ _} _ _ _ hs _ _ hrest => rule_first hs (hx _ _ _) fun _ hat hprevious =>
    (hd hat hprevious).bind fun _ s₂ hat₂ => hrest s₂ n hat₂

theorem reaches_waiting {e : Expr} {x : Guarded Unit} [hw : Waits x]
    (hx : ∀ n sub canAssign, opening n sub canAssign t.kind = some x) : Reaches .primary e [t] :=
  reaches_token hx fun {s _} hs _ => (hw.settles s).map fun _ _ h => h.holds hs

theorem reaches_number (hk : t.kind = .number) {m : Number} (hm : Number.ofLiteral? t.text = some m) :
    Reaches .primary (.number m) [t] := by
  refine reaches_token (x := liftM Expression.number) (fun _ _ _ => by rw [hk]; rfl)
    fun {s us} hs hprevious => ?_
  change (Expression.number s).2.Holds us
  rw [Expression.number_of_literal (hprevious ▸ hm)]
  exact (Aside.apart (y := emitConstant (.number m)) s).holds hs

instance : Aside Expression.string := by
  unfold Expression.string
  infer_instance

theorem reaches_string (hk : t.kind = .string) : Reaches .primary (.string t.contents) [t] :=
  reaches_waiting (x := liftM Expression.string) fun _ _ _ => by rw [hk]; rfl

theorem reaches_literal {e : Expr} (hk : t.kind = .kwNil ∨ t.kind = .kwTrue ∨ t.kind = .kwFalse) :
    Reaches .primary e [t] := by
  refine reaches_token (x := literal) (fun _ _ _ => by rcases hk with hk | hk | hk <;> rw [hk] <;> rfl)
    fun {s us} hs hprevious => ?_
  obtain ⟨op, hop⟩ : ∃ op, IsLiteral t.kind op := by
    rcases hk with hk | hk | hk <;> simp [IsLiteral, hk]
  rw [literal_of_kind hop (congrArg Token.kind hprevious)]
  exact (Aside.apart (y := emit op) s).holds hs

instance : Waits this := by
  unfold this
  infer_instance

theorem reaches_this (hk : t.kind = .kwThis) : Reaches .primary .this [t] :=
  reaches_waiting (x := this) fun _ _ _ => by rw [hk]; rfl

theorem named_eq (name : String) (canAssign : Bool) : named sub name canAssign = (do
    let v ← resolve name
    if ← assigns canAssign then
      sub .assignment
      emitWith v.setOp v.operand
    else emitWith v.getOp v.operand) :=
  rfl

theorem reaches_variable (hk : t.kind = .identifier) :
    Reaches .primary (.variable t.text) [t] := by
  intro n k p s t' us _ _ _ hs hfollows R hrest
  refine rule_first hs (x := liftM lastText >>= fun name => named (inner k n) name (p ≤ .assignment))
    (by rw [hk]; rfl) fun s₁ hat₁ _ => ?_
  rw [bind_assoc]
  refine .waits hat₁ fun name s₂ hat₂ _ => ?_
  rw [named_eq, bind_assoc]
  refine .waits hat₂ fun v s₃ hat₃ _ => ?_
  rw [bind_assoc]
  refine settles_notAssigned hat₃ hfollows.equal ?_
  exact .waits (x := liftM (emitWith v.getOp v.operand)) hat₃ fun _ s₄ hat₄ _ => hrest s₄ n hat₄

theorem reaches_assign {name : Token} {e : Expr} {ts : List Token} (hname : name.kind = .identifier)
    (hk : t.kind = .equal) (h : Reaches .assignment e ts) :
    Reaches .assignment (.assign name.text e) (name :: t :: ts) := by
  intro n k p s t' us hassign hp hunary hs hfollows R hrest
  obtain rfl : p = .assignment := Power.rank_injective (Nat.le_antisymm hp hassign)
  refine rule_first hs (x := liftM lastText >>= fun name => named (inner k n) name true)
    (by rw [hname]; rfl) fun s₁ hat₁ _ => ?_
  rw [bind_assoc]
  refine .waits hat₁ fun name s₂ hat₂ _ => ?_
  rw [named_eq, bind_assoc]
  refine .waits hat₂ fun v s₃ hat₃ _ => ?_
  rw [bind_assoc]
  refine .accept hat₃ hk nofun fun s₄ hat₄ _ => ?_
  have hstop := Power.not_le_of_left_le (.inl rfl) hfollows.power
  rw [if_pos rfl, bind_assoc]
  refine (h.whole hassign hunary hat₄ hfollows.power hfollows.equal hstop).fewer.bind
    fun _ s₅ hat₅ => .waits hat₅ fun _ s₆ hat₆ _ => hrest s₆ n hat₆

theorem reaches_grouping {l r : Token} {e : Expr} {ts : List Token} (hl : l.kind = .leftParen)
    (hr : r.kind = .rightParen) (h : Reaches .assignment e ts) :
    Reaches .primary (.grouping e) (l :: ts ++ [r]) := by
  intro n k p s t us _ _ _ hs _ R hrest
  have hs : s.Holds (l :: (ts ++ r :: t :: us)) := by simpa using hs
  refine rule_first hs (x := inner k n .assignment >>= fun _ => liftM (expect .groupClose))
    (by rw [hl]; rfl) fun s₁ hat₁ _ => ?_
  rw [bind_assoc]
  have hclose : Power.ofKind r.kind = .none ∧ r.kind ≠ .equal := by rw [hr]; exact ⟨rfl, nofun⟩
  refine (h.whole (Power.le_refl _) (by decide) hat₁ (by rw [hclose.1]; decide) hclose.2
    (by rw [hclose.1]; decide)).fewer.bind fun _ s₂ hat₂ => ?_
  exact .expect hat₂ hr fun s₃ hat₃ _ => hrest s₃ n hat₃

theorem reaches_unary {e : Expr} {ts : List Token} (op : UnaryOp) (hk : t.kind = op.kind)
    (h : Reaches .unary e ts) : Reaches .unary (.unary op e) (t :: ts) := by
  intro n k p s t' us _ _ _ hs hfollows R hrest
  refine rule_first hs (x := unary (inner k n)) (by rw [hk]; cases op <;> rfl) fun s₁ hat₁ hprevious => ?_
  have hop : IsUnary t.kind op.code := by cases op <;> simp [IsUnary, hk, UnaryOp.kind, UnaryOp.code]
  rw [bind_run_congr (unary_of_kind hop (congrArg Token.kind hprevious)), bind_assoc]
  refine (h.whole (by decide) (Power.le_refl _) hat₁ hfollows.power hfollows.equal
    (Power.not_le_of_left_le (by simp) hfollows.power)).fewer.bind fun _ s₂ hat₂ => ?_
  exact .waits (x := liftM (emit op.code)) hat₂ fun _ s₃ hat₃ _ => hrest s₃ n hat₃

/-! ## Operators -/

/-- An operator with an operand on either side. What is done before and after its right operand
reads no token. -/
theorem reaches_operator {β : Type} {q q' level : Power} {a b e : Expr} {ts us' : List Token}
    (x : Guarded β) (y : β → Guarded Unit) [Waits x] [∀ j, Waits (y j)]
    (hcont : ∀ n sub canAssign s, s.previous = t → continuation n sub canAssign t.kind s =
      (x >>= fun j => sub q' >>= fun _ => y j) s)
    (ha : Reaches q a ts) (hleft : Syntax.Follows q a t) (hlevel : level ≤ q)
    (hpower : level ≤ Power.ofKind t.kind) (hb : Reaches q' b us') (hassign' : Power.assignment ≤ q')
    (hunary' : q' ≤ .unary) (hstop : ∀ k : TokenKind, (Power.ofKind k).left ≤ level →
      ¬ q' ≤ Power.ofKind k ∧ (Power.ofKind k).left ≤ q') :
    Reaches level e (ts ++ t :: us') := by
  intro n k p s t' us hassign hp hunary hs hfollows R hrest
  have hs : s.Holds (ts ++ t :: (us' ++ t' :: us)) := by simpa using hs
  refine ha hassign (Power.le_trans hp hlevel) hunary hs hleft fun s₁ m hat₁ => ?_
  refine rest_step hat₁ hassign (Power.le_trans hp hpower) fun s₂ m hat₂ hprevious => ?_
  obtain ⟨hstops, hright⟩ := hstop t'.kind hfollows.power
  rw [bind_congr_run (hcont n (inner k n) _ s₂ hprevious), bind_assoc]
  refine .waits hat₂ fun j s₃ hat₃ _ => ?_
  rw [bind_assoc]
  exact (hb.whole hassign' hunary' hat₃ hright hfollows.equal hstops).fewer.bind
    fun _ s₄ hat₄ => .waits hat₄ fun _ s₅ hat₅ _ => hrest s₅ m hat₅

theorem reaches_binary {q : Power} {a b : Expr} {ts us : List Token} (op : BinaryOp) (hk : t.kind = op.kind)
    (hq : Tightens op.power q) (ha : Reaches op.power a ts) (hb : Reaches q b us) :
    Reaches op.power (.binary op a b) (ts ++ t :: us) := by
  obtain rfl := hq.next_eq
  refine reaches_operator (pure ()) (fun _ => liftM ((Expression.operations op.kind).forM emit))
    (fun n sub canAssign s hs => ?_) ha ?_ (Power.le_refl _) ?_ hb ?_ ?_
    (fun k h => Power.not_next_le_of_left_le h)
  · have hbinary : continuation n sub canAssign op.kind = binary sub := by cases op <;> rfl
    rw [hk, hbinary, binary, get_bind, hs, hk]
    cases op <;> rfl
  · refine ⟨?_, ?_, fun _ => ?_⟩ <;> rw [hk] <;> cases op <;> decide
  · rw [hk, op.ofKind_kind]
    exact Power.le_refl _
  · cases op <;> decide
  · cases op <;> decide

theorem reaches_and {a b : Expr} {ts us : List Token} (hk : t.kind = .kwAnd)
    (ha : Reaches .equality a ts) (hb : Reaches .and b us) :
    Reaches .and (.and a b) (ts ++ t :: us) := by
  refine reaches_operator (liftM (do
      let endJump ← emitJump .jumpIfFalse
      emit .pop
      return endJump)) patchJump
    (fun n sub canAssign s _ => ?_) ha ?_ (by decide) ?_ hb (by decide) (by decide)
    (fun k h => ⟨Power.not_le_of_left_le (by simp) h, h⟩)
  · rw [hk]
    rfl
  · exact ⟨by rw [hk]; decide, by rw [hk]; nofun, fun _ => by rw [hk]; nofun⟩
  · rw [hk]
    decide

theorem reaches_or {a b : Expr} {ts us : List Token} (hk : t.kind = .kwOr)
    (ha : Reaches .and a ts) (hb : Reaches .or b us) :
    Reaches .or (.or a b) (ts ++ t :: us) := by
  refine reaches_operator
    (do
      let elseJump ← emitJump .jumpIfFalse
      let endJump ← emitJump .jump
      patchJump elseJump
      emit .pop
      return endJump) patchJump
    (fun n sub canAssign s _ => ?_) ha ?_ (by decide) ?_ hb (by decide) (by decide)
    (fun k h => ⟨Power.not_le_of_left_le (by simp) h, h⟩)
  · rw [hk]
    simp only [bind_assoc, pure_bind]
    rfl
  · exact ⟨by rw [hk]; decide, by rw [hk]; nofun, fun _ => by rw [hk]; nofun⟩
  · rw [hk]
    decide

/-! ## Arguments -/

/-- The parser for arguments reads the tokens `ts`. -/
def ReachesAll (es : List Expr) (ts : List Token) : Prop :=
  ∀ {n k b count s r us}, es ≠ [] → s.Holds (ts ++ r :: us) → r.kind = .rightParen →
    Settles (argumentsFrom b (inner k n) count s) fun _ s' => s'.Holds (r :: us)

/-- An expression is followed by something that is no operator. -/
theorem Reaches.before {e : Expr} {ts : List Token} (h : Reaches .assignment e ts)
    (hs : s.Holds (ts ++ t :: us)) (hk : Power.ofKind t.kind = .none) (hequal : t.kind ≠ .equal) :
    Settles (within n .assignment s) fun _ s' => s'.Holds (t :: us) :=
  h.whole (Power.le_refl _) (by decide) hs (by rw [hk]; decide) hequal (by rw [hk]; decide)

/-- An argument and the comma or the end behind it. -/
theorem argument_settles {e : Expr} {ts : List Token} {count : Nat} (h : Reaches .assignment e ts)
    (hs : s.Holds (ts ++ t :: us)) (hk : t.kind = .comma ∨ t.kind = .rightParen) :
    Settles (argument (inner k n) count s) fun more s' =>
      if t.kind = .comma then more = true ∧ s'.Holds us else more = false ∧ s'.Holds (t :: us) := by
  have hpower : Power.ofKind t.kind = .none ∧ t.kind ≠ .equal := by
    rcases hk with hk | hk <;> rw [hk] <;> exact ⟨rfl, by simp⟩
  rw [argument]
  have haccept {s : Builder} (hs : s.Holds (t :: us)) :
      Settles ((liftM (accept .comma) : Guarded Bool) s) fun more s' =>
        if t.kind = .comma then more = true ∧ s'.Holds us
        else more = false ∧ s'.Holds (t :: us) := by
    rw [← bind_pure (liftM (accept .comma) : Guarded Bool)]
    rcases hk with hk | hk <;> rw [hk]
    · exact .accept hs hk (by simp) fun _ hat _ => ⟨rfl, hat⟩
    · exact .acceptNot hs (by rw [hk]; simp) ⟨rfl, hs⟩
  refine (h.before hs hpower.1 hpower.2).fewer.bind fun _ s₁ hat₁ => ?_
  dsimp only
  split
  · exact .waits hat₁ fun _ s₂ hat₂ _ => haccept hat₂
  · exact haccept hat₁

theorem reachesAll_singleton {e : Expr} {ts : List Token} (h : Reaches .assignment e ts) :
    ReachesAll [e] ts := by
  intro n k b count s r us _ hs hr
  cases b with
  | zero => trivial
  | succ b =>
      rw [argumentsFrom_succ]
      refine (argument_settles h hs (.inr hr)).bind fun more s₁ hmore => ?_
      rw [hr, if_neg nofun] at hmore
      obtain ⟨rfl, hat₁⟩ := hmore
      exact hat₁

theorem reachesAll_cons {e e' : Expr} {es : List Expr} {comma : Token} {ts us' : List Token}
    (hk : comma.kind = .comma) (h : Reaches .assignment e ts) (h' : ReachesAll (e' :: es) us') :
    ReachesAll (e :: e' :: es) (ts ++ comma :: us') := by
  intro n k b count s r us _ hs hr
  have hs : s.Holds (ts ++ comma :: (us' ++ r :: us)) := by simpa using hs
  cases b with
  | zero => trivial
  | succ b =>
      rw [argumentsFrom_succ]
      refine (argument_settles h hs (.inl hk)).bind fun more s₁ hmore => ?_
      rw [hk, if_pos rfl] at hmore
      obtain ⟨rfl, hat₁⟩ := hmore
      rw [if_pos rfl]
      exact (h' nofun hat₁ hr).fewer

/-- Arguments in parentheses. -/
theorem arguments_settles {es : List Expr} {ts : List Token} {r : Token}
    (hd : Derives (.arguments es) ts) (h : ReachesAll es ts) (hs : s.Holds (ts ++ r :: us))
    (hr : r.kind = .rightParen) : Settles (arguments b (inner k n) s) fun _ s' => s'.Holds us := by
  have hclose {count : Nat} {s : Builder} (hs : s.Holds (r :: us)) :
      Settles ((liftM (expect .argumentsClose) >>= fun _ =>
        pure (min count Expression.maxArguments) : Guarded Nat) s) fun _ s' => s'.Holds us :=
    .expect hs hr fun _ hat _ => hat
  have hrun : arguments b (inner k n) s = ((if decide (s.current.kind = .rightParen) = true then
      pure 0 else argumentsFrom b (inner k n) 0) >>= fun count =>
        liftM (expect .argumentsClose) >>= fun _ =>
        pure (min count Expression.maxArguments) : Guarded Nat) s := by
    rw [arguments]
    change (if decide (s.current.kind = .rightParen) = true then _ else _ : Guarded Nat) s = _
    split <;> rfl
  rw [hrun]
  cases es with
  | nil =>
      cases hd
      rw [if_pos (decide_eq_true (by rw [current_of_holds hs, hr])), pure_bind]
      exact hclose hs
  | cons e es =>
      have hkind : s.current.kind ≠ .rightParen := by
        obtain ⟨t, ts, rfl⟩ := List.exists_cons_of_length_pos (hd.pos rfl)
        have hbegins := hd.begins t rfl
        rw [current_of_holds hs]
        intro hk
        rw [Phrase.BeginsWith, hk] at hbegins
        exact hbegins
      rw [if_neg (by simpa using hkind)]
      exact (h (by simp) hs hr).bind fun _ _ hat => hclose hat

/-! ## Calls and properties -/

theorem reaches_call {f : Expr} {as : List Expr} {l r : Token} {ts us' : List Token}
    (hl : l.kind = .leftParen) (hr : r.kind = .rightParen) (hf : f.isProperty = false)
    (h : Reaches .call f ts) (hd : Derives (.arguments as) us') (h' : ReachesAll as us') :
    Reaches .call (.call f as) (ts ++ l :: us' ++ [r]) := by
  intro n k p s t us hassign hp hunary hs _ R hrest
  have hs : s.Holds (ts ++ l :: (us' ++ r :: t :: us)) := by simpa using hs
  have hfollows : Syntax.Follows .call f l :=
    Syntax.follows_call hl rfl fun hp => nomatch hf.symm.trans hp
  refine h hassign hp hunary hs hfollows fun s₁ m hat₁ => ?_
  have hpower : p ≤ Power.ofKind l.kind := by
    rw [hl]
    exact hp
  refine rest_step hat₁ hassign hpower fun s₂ m hat₂ _ => ?_
  have hcall : continuation n (inner k n) (p ≤ .assignment) l.kind =
      (arguments n (inner k n) >>= fun count => liftM (emitWith .call count)) := by
    rw [hl]
    rfl
  rw [hcall, bind_assoc]
  exact (arguments_settles hd h' hat₂ hr).bind fun count s₃ hat₃ =>
    .waits hat₃ fun _ s₄ hat₄ _ => hrest s₄ m hat₄

/-- What is done with a property whose name has been read. -/
def member (n : Nat) (sub : Power → Guarded Unit) (canAssign : Bool) (name : Nat) :
    Guarded Unit := do
  if ← assigns canAssign then
    sub .assignment
    emitWith .setProperty name
  else if ← accept .leftParen then
    let count ← arguments n sub
    emitWith .invoke name
    emitByte count.toUInt8
  else emitWith .getProperty name

theorem property_eq (canAssign : Bool) : property n sub canAssign = (do
    expect .propertyName
    let name ← nameConstant (← lastText)
    member n sub canAssign name) :=
  rfl

theorem reaches_member {o : Expr} {ts : List Token} {dot name : Token} (hdot : dot.kind = .dot)
    (hname : name.kind = .identifier) (h : Reaches .call o ts) (hassign : Power.assignment ≤ p)
    (hp : p ≤ .call) (hunary : p ≤ .unary) (hs : s.Holds (ts ++ dot :: name :: us))
    {R : Unit → Builder → Prop} (hrest : ∀ s' j b, s'.Holds us →
      Settles ((member n (inner k n) (p ≤ .assignment) j >>= fun _ => rest n (inner k n) p b) s') R) :
    Settles (rule n (inner k n) p s) R := by
  have hfollows : Syntax.Follows .call o dot := Syntax.follows_call hdot rfl nofun
  refine h hassign hp hunary hs hfollows fun s₁ m hat₁ => ?_
  have hpower : p ≤ Power.ofKind dot.kind := by
    rw [hdot]
    exact hp
  refine rest_step hat₁ hassign hpower fun s₂ m hat₂ _ => ?_
  have hproperty : continuation n (inner k n) (p ≤ .assignment) dot.kind =
      property n (inner k n) (p ≤ .assignment) := by
    rw [hdot]
    rfl
  rw [hproperty, property_eq, bind_assoc]
  refine .expect hat₂ hname fun s₃ hat₃ _ => ?_
  rw [bind_assoc]
  refine .waits hat₃ fun name s₄ hat₄ _ => ?_
  rw [bind_assoc]
  exact .waits hat₄ fun j s₅ hat₅ _ => hrest s₅ j m hat₅

theorem reaches_get {o : Expr} {ts : List Token} {dot name : Token} (hdot : dot.kind = .dot)
    (hname : name.kind = .identifier) (h : Reaches .call o ts) :
    Reaches .call (.get o name.text) (ts ++ [dot, name]) := by
  intro n k p s t us hassign hp hunary hs hfollows R hrest
  rw [List.append_assoc] at hs
  refine reaches_member hdot hname h hassign hp hunary hs fun s₁ j m hat₁ => ?_
  rw [member, bind_assoc]
  refine settles_notAssigned hat₁ hfollows.equal ?_
  rw [if_neg nofun, bind_assoc]
  refine .acceptNot hat₁ (hfollows.property rfl) ?_
  exact .waits (x := liftM (emitWith .getProperty j)) hat₁ fun _ s₂ hat₂ _ => hrest s₂ m hat₂

theorem reaches_set {o e : Expr} {ts us' : List Token} {dot name : Token} (hdot : dot.kind = .dot)
    (hname : name.kind = .identifier) (hk : t.kind = .equal) (h : Reaches .call o ts)
    (h' : Reaches .assignment e us') :
    Reaches .assignment (.set o name.text e) (ts ++ dot :: name :: t :: us') := by
  intro n k p s t' us hassign hp hunary hs hfollows R hrest
  obtain rfl : p = .assignment := Power.rank_injective (Nat.le_antisymm hp hassign)
  have hs : s.Holds (ts ++ dot :: name :: t :: (us' ++ t' :: us)) := by simpa using hs
  refine reaches_member hdot hname h hassign (by decide) hunary hs fun s₁ j m hat₁ => ?_
  rw [member, bind_assoc]
  refine .accept hat₁ hk nofun fun s₂ hat₂ _ => ?_
  rw [if_pos rfl, bind_assoc]
  exact (h'.whole hassign hunary hat₂ hfollows.power hfollows.equal
    (Power.not_le_of_left_le (.inl rfl) hfollows.power)).fewer.bind
    fun _ s₃ hat₃ => .waits hat₃ fun _ s₄ hat₄ _ => hrest s₄ m hat₄

theorem reaches_invoke {o : Expr} {as : List Expr} {ts us' : List Token} {dot name l r : Token}
    (hdot : dot.kind = .dot) (hname : name.kind = .identifier) (hl : l.kind = .leftParen)
    (hr : r.kind = .rightParen) (h : Reaches .call o ts) (hd : Derives (.arguments as) us')
    (h' : ReachesAll as us') :
    Reaches .call (.call (.get o name.text) as) (ts ++ [dot, name] ++ l :: us' ++ [r]) := by
  intro n k p s t us hassign hp hunary hs hfollows R hrest
  have hs : s.Holds (ts ++ dot :: name :: l :: (us' ++ r :: t :: us)) := by simpa using hs
  refine reaches_member hdot hname h hassign hp hunary hs fun s₁ j m hat₁ => ?_
  rw [member, bind_assoc]
  refine settles_notAssigned hat₁ (by rw [hl]; nofun) ?_
  rw [if_neg nofun, bind_assoc]
  refine .accept hat₁ hl nofun fun s₂ hat₂ _ => ?_
  rw [if_pos rfl, bind_assoc]
  refine (arguments_settles hd h' hat₂ hr).bind fun count s₃ hat₃ => ?_
  rw [bind_assoc]
  exact .waits hat₃ fun _ s₄ hat₄ _ => .waits hat₄ fun _ s₅ hat₅ _ => hrest s₅ m hat₅

/-! ## Superclasses -/

/-- What is done with a method of the superclass whose name has been read. -/
def superMember (n : Nat) (sub : Power → Guarded Unit) (name : Nat) : Guarded Unit := do
  if ← accept .leftParen then
    let count ← arguments n sub
    readNamed "super"
    emitWith .superInvoke name
    emitByte count.toUInt8
  else
    readNamed "super"
    emitWith .getSuper name

/-- A method of the superclass, behind `super`. -/
def superName (n : Nat) (sub : Power → Guarded Unit) : Guarded Unit := do
  expect .superDot
  expect .superclassMethodName
  let name ← nameConstant (← lastText)
  readNamed "this"
  superMember n sub name

theorem super_eq (n : Nat) (sub : Power → Guarded Unit) : super n sub = (do
    match (← get).classes.head? with
    | none =>
      error .superOutsideClass
      superName n sub
    | some hasSuperclass =>
      if hasSuperclass then superName n sub
      else
        error .superWithoutSuperclass
        superName n sub) :=
  rfl

/-- Whether there is a superclass is checked in front of everything else. -/
theorem superCheck (next : Guarded Unit) (s : Builder) (o : Option Bool) :
    ∃ x : Build Unit, Aside x ∧ (match o with
      | none => liftM (error .superOutsideClass) >>= fun _ => next
      | some hasSuperclass =>
        if hasSuperclass = true then next
        else liftM (error .superWithoutSuperclass) >>= fun _ => next : Guarded Unit) s =
      (liftM x >>= fun _ => next) s := by
  cases o with
  | none => exact ⟨error .superOutsideClass, inferInstance, rfl⟩
  | some hasSuperclass =>
      cases hasSuperclass with
      | true => exact ⟨pure (), inferInstance, rfl⟩
      | false => exact ⟨error .superWithoutSuperclass, inferInstance, rfl⟩

theorem super_run (n : Nat) (sub : Power → Guarded Unit) (s : Builder) :
    ∃ x : Build Unit, Aside x ∧ super n sub s = (liftM x >>= fun _ => superName n sub) s := by
  rw [super_eq, get_bind]
  exact superCheck (superName n sub) s s.classes.head?

theorem reaches_superMember {dot name : Token} (hk : t.kind = .kwSuper) (hdot : dot.kind = .dot)
    (hname : name.kind = .identifier) (hs : s.Holds (t :: dot :: name :: us))
    {R : Unit → Builder → Prop} (hrest : ∀ s' j, s'.Holds us →
      Settles ((superMember n (inner k n) j >>= fun _ => rest n (inner k n) p n) s') R) :
    Settles (rule n (inner k n) p s) R := by
  refine rule_first hs (x := super n (inner k n)) (by rw [hk]; rfl) fun s₁ hat₁ _ => ?_
  obtain ⟨x, hx, hrun⟩ := super_run n (inner k n) s₁
  rw [bind_congr_run hrun, bind_assoc]
  refine .waits hat₁ fun _ s₂ hat₂ _ => ?_
  simp only [superName, bind_assoc]
  refine .expect hat₂ hdot fun s₃ hat₃ _ => .expect hat₃ hname fun s₄ hat₄ _ => ?_
  exact .waits hat₄ fun _ s₅ hat₅ _ => .waits hat₅ fun j s₆ hat₆ _ => .waits hat₆
    fun _ s₇ hat₇ _ => hrest s₇ j hat₇

theorem reaches_super {dot name : Token} (hk : t.kind = .kwSuper) (hdot : dot.kind = .dot)
    (hname : name.kind = .identifier) : Reaches .primary (.super name.text) [t, dot, name] := by
  intro n k p s t' us _ _ _ hs hfollows R hrest
  refine reaches_superMember hk hdot hname hs fun s₁ j hat₁ => ?_
  rw [superMember, bind_assoc]
  refine .acceptNot hat₁ (hfollows.property rfl) ?_
  rw [if_neg nofun, bind_assoc]
  exact .waits hat₁ fun _ s₂ hat₂ _ => .waits hat₂ fun _ s₃ hat₃ _ => hrest s₃ n hat₃

theorem reaches_superInvoke {as : List Expr} {us' : List Token} {dot name l r : Token}
    (hk : t.kind = .kwSuper) (hdot : dot.kind = .dot) (hname : name.kind = .identifier)
    (hl : l.kind = .leftParen) (hr : r.kind = .rightParen) (hd : Derives (.arguments as) us')
    (h : ReachesAll as us') :
    Reaches .call (.call (.super name.text) as) ([t, dot, name] ++ l :: us' ++ [r]) := by
  intro n k p s t' us _ _ _ hs _ R hrest
  have hs : s.Holds (t :: dot :: name :: l :: (us' ++ r :: t' :: us)) := by simpa using hs
  refine reaches_superMember hk hdot hname hs fun s₁ j hat₁ => ?_
  rw [superMember, bind_assoc]
  refine .accept hat₁ hl nofun fun s₂ hat₂ _ => ?_
  rw [if_pos rfl, bind_assoc]
  refine (arguments_settles hd h hat₂ hr).bind fun count s₃ hat₃ => ?_
  rw [bind_assoc]
  refine .waits hat₃ fun _ s₄ hat₄ _ => ?_
  rw [bind_assoc]
  exact .waits hat₄ fun _ s₅ hat₅ _ => .waits hat₅ fun _ s₆ hat₆ _ => hrest s₆ n hat₆

/-! ## Whole expressions -/

/-- What is shown of phrases by induction on the grammar. The object of a property can be read on
its own, as a call of the property has rules of its own. -/
def Readable : Phrase → List Token → Prop
  | .expression q e, ts => Reaches q e ts ∧ ∀ o name, e = .get o name → q = .call →
      ∃ ts' dot t, ts = ts' ++ [dot, t] ∧ dot.kind = .dot ∧ t.kind = .identifier ∧ t.text = name ∧
        Reaches .call o ts'
  | .arguments es, ts => ReachesAll es ts
  | _, _ => True

theorem Reaches.readable {q : Power} {e : Expr} {ts : List Token} (h : Reaches q e ts)
    (he : ∀ o name, e ≠ .get o name) : Readable (.expression q e) ts :=
  ⟨h, fun o name heq => absurd heq (he o name)⟩

theorem Reaches.tighter {q q' : Power} {e : Expr} {ts : List Token} (h : Reaches q' e ts)
    (hq : Tightens q q') : Reaches q e ts := by
  have hle := hq.le
  intro n k p s t us hassign hp hunary hs hfollows R hrest
  exact h hassign (Power.le_trans hp hle) hunary hs
    ⟨Power.le_trans hfollows.power hle, hfollows.equal, hfollows.property⟩ hrest

theorem readable {x : Phrase} {ts : List Token} (h : Derives x ts) : Readable x ts := by
  induction h with
  | number hk hm => exact Reaches.readable (reaches_number hk hm) nofun
  | string hk => exact Reaches.readable (reaches_string hk) nofun
  | nil hk => exact Reaches.readable (reaches_literal (.inl hk)) nofun
  | true hk => exact Reaches.readable (reaches_literal (.inr (.inl hk))) nofun
  | false hk => exact Reaches.readable (reaches_literal (.inr (.inr hk))) nofun
  | «variable» hk => exact Reaches.readable (reaches_variable hk) nofun
  | this hk => exact Reaches.readable (reaches_this hk) nofun
  | super hk hdot hname => exact Reaches.readable (reaches_super hk hdot hname) nofun
  | grouping hl hr _ ih => exact Reaches.readable (reaches_grouping hl hr ih.1) nofun
  | @call l r f as ts us hl hr hf has ih ih' =>
      refine Reaches.readable ?_ nofun
      cases f with
      | get o name =>
          obtain ⟨ts', dot, t, rfl, hdot, ht, rfl, ho⟩ := ih.2 o name rfl rfl
          exact reaches_invoke hdot ht hl hr ho has ih'
      | super name =>
          obtain ⟨t, dot, nm, rfl, hk, hdot, hname, rfl⟩ := hf.eq_super rfl
          exact reaches_superInvoke hk hdot hname hl hr has ih'
      | _ => exact reaches_call hl hr rfl ih.1 has ih'
  | get hdot hname _ ih =>
      refine ⟨reaches_get hdot hname ih.1, fun o name heq _ => ?_⟩
      obtain ⟨rfl, rfl⟩ := Expr.get.inj heq
      exact ⟨_, _, _, rfl, hdot, hname, rfl, ih.1⟩
  | unary op hk _ ih => exact Reaches.readable (reaches_unary op hk ih.1) nofun
  | binary op hk hq _ _ ih ih' => exact Reaches.readable (reaches_binary op hk hq ih.1 ih'.1) nofun
  | and hk _ _ ih ih' => exact Reaches.readable (reaches_and hk ih.1 ih'.1) nofun
  | or hk _ _ ih ih' => exact Reaches.readable (reaches_or hk ih.1 ih'.1) nofun
  | assign hname hk _ ih => exact Reaches.readable (reaches_assign hname hk ih.1) nofun
  | set hdot hname hk _ _ ih ih' => exact Reaches.readable (reaches_set hdot hname hk ih.1 ih'.1) nofun
  | tighter hq hd ih =>
      refine ⟨Reaches.tighter ih.1 hq, fun o name heq hcall => ?_⟩
      subst heq hcall
      cases hq
      exact (hd.get_not_primary rfl).elim
  | noArguments => exact fun hne => absurd rfl hne
  | lastArgument _ ih => exact reachesAll_singleton ih.1
  | argument hk _ _ ih ih' => exact reachesAll_cons hk ih.1 ih'
  | _ => trivial

/-- An expression is read up to a token that cannot continue it. -/
theorem expression_settles {e : Expr} {ts : List Token} (hd : Derives (.expression .assignment e) ts)
    (hs : s.Holds (ts ++ t :: us)) (hk : Power.ofKind t.kind = .none) (hequal : t.kind ≠ .equal) :
    Settles (within n .assignment s) fun _ s' => s'.Holds (t :: us) :=
  Reaches.before (readable hd).1 hs hk hequal

end LoxMachine.Guarded
