import LoxMachine.Proofs.Compile.Generated
import LoxMachine.Proofs.Limits.Basic

/-!
# Limits of expressions

Where the tokens are those of an expression that breaks no rule, the parser makes what the expression needs,
or the budget is too large. As in the verdict on expressions, what is shown by induction on the grammar is
that the parser, begun at an expression, comes to its loop behind it, owing what is left (`Spends`).

Main statement: `parse_settles`.
-/

namespace LoxMachine.Expression

open Builder Syntax

variable {B : Budget} {V : Builder → Prop} {c : Scope} {s : Builder} {t : Token} {us ts : List Token}
  {todo : List Need} {n b : Nat} {p : Power} {R : Unit → Builder → Prop} {e : Expr}

/-! ## The rule for expressions -/

theorem settles_stop (h : Owes B V (t :: us) todo s) (hp : ¬ p ≤ Power.ofKind t.kind) (hk : t.kind ≠ .equal) :
    Settles B (rest n p b s) fun _ s' => Owes B V (t :: us) todo s' := by
  rw [rest_stops (h.tokens.current ▸ hp) fun hequal => hk (h.tokens.current ▸ hequal.2)]
  exact h.settles ()

theorem settles_step [Sights V c] (h : Owes B V (t :: us) todo s) (hassign : Power.assignment ≤ p)
    (hp : p ≤ Power.ofKind t.kind)
    (hf : ∀ s', Owes B V us todo s' → Settles B
      ((continuation n (within n) (p ≤ .assignment) t.kind >>= fun _ => rest n p b) s') R) :
    Settles B (rest n p (b + 1) s) R := by
  have hne : t.kind ≠ .eof := by
    intro heof
    rw [heof] at hp
    exact absurd (Power.le_trans hassign hp) (by decide)
  obtain ⟨s', hrun, hr, hat, hprevious⟩ := h.tokens.advance hne
  rw [rest_continues (by rw [h.tokens.current]; exact hp), hrun, hprevious]
  exact hf s' (h.reads hr hat)

theorem settles_first [Sights V c] {x : Build Unit} (h : Owes B V (t :: us) todo s)
    (hx : opening n (within n) (p ≤ .assignment) t.kind = some x)
    (hf : ∀ s', Owes B V us todo s' → s'.previous = t → Settles B ((x >>= fun _ => rest n p n) s') R) :
    Settles B (rule n (within n) p s) R := by
  have hne : t.kind ≠ .eof := by
    intro heof
    rw [heof] at hx
    cases hx
  obtain ⟨s', hrun, hr, hat, hprevious⟩ := h.tokens.advance hne
  rw [rule_of_opening hrun (hprevious ▸ hx)]
  exact hf s' (h.reads hr hat) hprevious

theorem settles_notAssigned {α : Type} {canAssign : Bool} {f : Bool → Build α} {R : α → Builder → Prop}
    (hk : s.current.kind ≠ .equal) (hf : Settles B (f false s) R) :
    Settles B ((assigns canAssign >>= f) s) R := by
  cases canAssign with
  | false => exact hf
  | true => exact .acceptNot hk hf

/-! ## Operands -/

/-- The parser, begun at the tokens `ts`, comes to its loop behind them, with what the expression needs made,
if the names in it are allowed. -/
def Spends (q : Power) (e : Expr) (ts : List Token) : Prop :=
  ∀ {B : Budget} {V : Builder → Prop} {c : Scope} [Sights V c] {n p s t us todo R}, B.around = c.outer →
    c.AllowsAll e.uses → Power.assignment ≤ p → p ≤ q → p ≤ .unary → (ts ++ t :: us).length ≤ n + 1 →
    Follows q e t → Owes B V (ts ++ t :: us) (e.needs c ++ todo) s →
    (∀ s' b, Owes B V (t :: us) todo s' → (t :: us).length ≤ b → Settles B (rest n p b s') R) →
    Settles B (rule n (within n) p s) R

/-- An expression that nothing behind it belongs to. -/
theorem Spends.whole [Sights V c] (h : Spends p e ts) (hB : B.around = c.outer) (hlegal : c.AllowsAll e.uses)
    (hassign : Power.assignment ≤ p) (hunary : p ≤ .unary) (hn : (ts ++ t :: us).length ≤ n)
    (hleft : (Power.ofKind t.kind).left ≤ p) (hequal : t.kind ≠ .equal) (hstop : ¬ p ≤ Power.ofKind t.kind)
    (hs : Owes B V (ts ++ t :: us) (e.needs c ++ todo) s) :
    Settles B (within n p s) fun _ s' => Owes B V (t :: us) todo s' := by
  obtain _ | n := n
  · simp at hn
  have hfollows : Follows p e t := by
    refine ⟨hleft, hequal, fun _ hparen => hstop ?_⟩
    rw [hparen]
    exact Power.le_trans hunary (by decide)
  exact h hB hlegal hassign (Power.le_refl p) hunary hn hfollows hs fun s' b hs' _ =>
    settles_stop hs' hstop hequal

/-- An expression of one token. -/
theorem spends_token {x : Build Unit}
    (hx : ∀ n canAssign, opening n (within n) canAssign t.kind = some x)
    (hd : ∀ {B V c} [Sights V c] {s us todo}, B.around = c.outer → c.AllowsAll e.uses →
      Owes B V us (e.needs c ++ todo) s → s.previous = t →
      Settles B (x s) fun _ s' => Owes B V us todo s') : Spends .primary e [t] := by
  intro B V c _ n p s t' us todo R hB hlegal _ _ _ hn _ hs hrest
  refine settles_first hs (hx _ _) fun s₁ h₁ hprevious => ?_
  exact (hd hB hlegal h₁ hprevious).bind fun _ s₂ h₂ => hrest s₂ n h₂ (Nat.le_of_succ_le_succ hn)

theorem spends_number (hk : t.kind = .number) {m : Number} (hm : Number.ofLiteral? t.text = some m) :
    Spends .primary (.number m) [t] := by
  refine spends_token (x := number) (fun _ _ => by rw [hk]; rfl) fun {B V c _ s us todo} _ _ hs hprevious => ?_
  rw [number_of_literal (hprevious ▸ hm)]
  exact hs.emitConstant (by simp)

theorem spends_string (hk : t.kind = .string) : Spends .primary (.string t.contents) [t] := by
  refine spends_token (x := string) (fun _ _ => by rw [hk]; rfl) fun {B V c _ s us todo} _ _ hs hprevious => ?_
  change Settles B (emitConstant (.string s.previous.contents) s) _
  rw [hprevious]
  exact hs.emitConstant nofun

theorem spends_literal {op : Opcode} {e : Expr}
    (hx : ∀ n canAssign, opening n (within n) canAssign t.kind = some (literal op))
    (he : ∀ c, e.needs c = [.bytes 1]) : Spends .primary e [t] := by
  refine spends_token hx fun {B V c _ s us todo} _ _ hs _ => ?_
  rw [he] at hs
  exact Owes.emit hs op

theorem spends_this (hk : t.kind = .kwThis) : Spends .primary .this [t] := by
  refine spends_token (x := this) (fun _ _ => by rw [hk]; rfl) fun {B V c _ s us todo} hB hlegal hs hprevious => ?_
  have hlegal : c.classes ≠ [] := by simpa [Expr.uses, Scope.Allows] using hlegal
  have hclasses : s.classes = c.classes := (Sights.views hs.view).sees.classes
  have htext : s.previous.text = "this" :=
    (hs.tokens.sound.proper s.previous List.mem_cons_self).this (hprevious ▸ hk)
  change Settles B ((if s.classes.isEmpty = true then error .thisOutsideClass
    else lastText >>= fun name => readNamed name : Build Unit) s) _
  rw [hclasses, if_neg fun hempty => hlegal (List.isEmpty_iff.mp hempty), bind_of_run (lastText_run s), htext]
  exact hs.readReserved hB fun h => h.2.2 rfl

theorem spends_variable (hk : t.kind = .identifier) : Spends .primary (.variable t.text) [t] := by
  intro B V c _ n p s t' us todo R hB hlegal _ _ _ hn hfollows hs hrest
  refine settles_first hs (x := lastText >>= fun name => named (within n) name (p ≤ .assignment))
    (by rw [hk]; rfl) fun s₁ h₁ hprevious => ?_
  rw [bind_assoc, bind_of_run (lastText_run s₁), hprevious, named_eq, bind_assoc]
  have hallowed : c.pending = some t.text → c.place? t.text ≠ none := by
    simpa [Expr.uses, Scope.Allows] using hlegal
  rw [Expr.needs, Scope.reading, List.append_assoc] at h₁
  refine (h₁.resolve hB hallowed).bind fun v s₂ h₂ => ?_
  rw [bind_assoc]
  refine settles_notAssigned (h₂.1.tokens.current ▸ hfollows.equal) ?_
  exact Settles.bind (Owes.emitWith h₂.1 v.getOp v.operand) fun _ s₃ h₃ =>
    hrest s₃ n h₃ (Nat.le_of_succ_le_succ hn)

theorem spends_assign {name : Token} (hname : name.kind = .identifier) (hk : t.kind = .equal)
    (h : Spends .assignment e ts) : Spends .assignment (.assign name.text e) (name :: t :: ts) := by
  intro B V c _ n p s t' us todo R hB hlegal hassign hp hunary hn hfollows hs hrest
  obtain rfl : p = .assignment := Power.rank_injective (Nat.le_antisymm hp hassign)
  refine settles_first hs (x := lastText >>= fun name => named (within n) name true)
    (by rw [hname]; rfl) fun s₁ h₁ hprevious => ?_
  rw [bind_assoc, bind_of_run (lastText_run s₁), hprevious, named_eq, bind_assoc]
  obtain ⟨hallowed, hvalue⟩ : (c.pending = some name.text → c.place? name.text ≠ none) ∧
      c.AllowsAll e.uses := by
    simp only [Expr.uses, Scope.allowsAll_append, Scope.allowsAll_cons, Scope.allowsAll_nil,
      and_true] at hlegal
    exact hlegal.symm
  rw [Expr.needs, List.append_assoc, List.append_assoc] at h₁
  refine (h₁.resolve hB hallowed).bind fun v s₂ h₂ => ?_
  rw [bind_assoc]
  refine h₂.1.accept hk (by simp) fun s₃ h₃ _ => ?_
  have hlen : (ts ++ t' :: us).length ≤ n := by
    simp only [List.length_append, List.length_cons] at hn ⊢
    omega
  have hstop := Power.not_le_of_left_le (.inl rfl) hfollows.power
  change Settles B ((within n .assignment >>= fun _ => emitWith v.setOp v.operand >>= fun _ =>
    rest n .assignment n) s₃) _
  refine (h.whole hB hvalue hassign hunary hlen hfollows.power hfollows.equal hstop h₃).bind
    fun _ s₄ h₄ => ?_
  refine Settles.bind (Owes.emitWith h₄ v.setOp v.operand) fun _ s₅ h₅ => hrest s₅ n h₅ ?_
  simp only [List.length_append, List.length_cons] at hlen ⊢
  omega

theorem spends_grouping {l r : Token} (hl : l.kind = .leftParen) (hr : r.kind = .rightParen)
    (h : Spends .assignment e ts) : Spends .primary (.grouping e) (l :: ts ++ [r]) := by
  intro B V c _ n p s t us todo R hB hlegal _ _ _ hn _ hs hrest
  have hs : Owes B V (l :: (ts ++ r :: t :: us)) (e.needs c ++ todo) s := by simpa [Expr.needs] using hs
  have hn : (ts ++ r :: t :: us).length ≤ n ∧ (t :: us).length ≤ n := by
    simp only [List.length_append, List.length_cons, List.length_nil] at hn ⊢
    omega
  refine settles_first hs (x := within n .assignment >>= fun _ => expect .groupClose)
    (by rw [hl]; rfl) fun s₁ h₁ _ => ?_
  rw [bind_assoc]
  have hclose : Power.ofKind r.kind = .none ∧ r.kind ≠ .equal := by rw [hr]; exact ⟨rfl, by simp⟩
  refine (h.whole hB (by simpa [Expr.uses] using hlegal) (Power.le_refl _) (by decide) hn.1
    (by rw [hclose.1]; decide) hclose.2 (by rw [hclose.1]; decide) h₁).bind fun _ s₂ h₂ => ?_
  exact h₂.expect hr fun s₃ h₃ _ => hrest s₃ n h₃ hn.2

theorem spends_unary (op : UnaryOp) (hk : t.kind = op.kind) (h : Spends .unary e ts) :
    Spends .unary (.unary op e) (t :: ts) := by
  intro B V c _ n p s t' us todo R hB hlegal _ _ _ hn hfollows hs hrest
  have hn : (ts ++ t' :: us).length ≤ n ∧ (t' :: us).length ≤ n := by
    simp only [List.length_append, List.length_cons] at hn ⊢
    omega
  refine settles_first hs (x := within n .unary >>= fun _ => emit op.code)
    (by rw [hk]; cases op <;> rfl) fun s₁ h₁ _ => ?_
  rw [bind_assoc]
  rw [Expr.needs, List.append_assoc] at h₁
  refine (h.whole hB (by simpa [Expr.uses] using hlegal) (by decide) (Power.le_refl _) hn.1 hfollows.power
    hfollows.equal (Power.not_le_of_left_le (by simp) hfollows.power) h₁).bind fun _ s₂ h₂ => ?_
  exact Settles.bind (Owes.emit h₂ op.code) fun _ s₃ h₃ => hrest s₃ n h₃ hn.2

/-! ## Operators -/

/-- An operator with an operand on either side. Before its right operand it makes what `pre` lists, and
behind it what `post` lists. -/
theorem spends_operator {β : Type} {q q' level : Power} {a b e : Expr} {ts us' : List Token}
    (x : Build β) (y : β → Build Unit) (pre : List Need) (post : List Need → List Need) [∀ j, Keeps (y j)]
    (hcont : ∀ n canAssign, continuation n (within n) canAssign t.kind =
      (x >>= fun j => within n q' >>= fun _ => y j))
    (hxy : ∀ {B V c} [Sights V c] {s us ns todo}, Owes B V us (pre ++ (ns ++ (post ns ++ todo))) s →
      Settles B (x s) fun j s' => Owes B V us (ns ++ (post ns ++ todo)) s' ∧
        ∀ s'' us', Owes B V us' (post ns ++ todo) s'' →
          Settles B (y j s'') fun _ s' => Owes B V us' todo s')
    (ha : Spends q a ts) (hleft : Follows q a t) (hlevel : level ≤ q)
    (hpower : level ≤ Power.ofKind t.kind) (hb : Spends q' b us') (hassign' : Power.assignment ≤ q')
    (hunary' : q' ≤ .unary) (hstop : ∀ k : TokenKind, (Power.ofKind k).left ≤ level →
      ¬ q' ≤ Power.ofKind k ∧ (Power.ofKind k).left ≤ q') (huses : e.uses = a.uses ++ b.uses)
    (hneeds : ∀ c, e.needs c = a.needs c ++ (pre ++ (b.needs c ++ post (b.needs c)))) :
    Spends level e (ts ++ t :: us') := by
  intro B V c _ n p s t' us todo R hB hlegal hassign hp hunary hn hfollows hs hrest
  have hs : Owes B V (ts ++ t :: (us' ++ t' :: us))
      (a.needs c ++ (pre ++ (b.needs c ++ (post (b.needs c) ++ todo)))) s := by
    simpa [hneeds] using hs
  have hn : (ts ++ t :: (us' ++ t' :: us)).length ≤ n + 1 ∧ (us' ++ t' :: us).length ≤ n := by
    simp only [List.length_append, List.length_cons] at hn ⊢
    omega
  rw [huses, Scope.allowsAll_append] at hlegal
  refine ha hB hlegal.1 hassign (Power.le_trans hp hlevel) hunary hn.1 hleft hs fun s₁ m h₁ hm => ?_
  obtain _ | m := m
  · simp at hm
  refine settles_step h₁ hassign (Power.le_trans hp hpower) fun s₂ h₂ => ?_
  rw [hcont, bind_assoc]
  refine (hxy h₂).bind fun j s₃ ⟨h₃, hy⟩ => ?_
  obtain ⟨hstops, hright⟩ := hstop t'.kind hfollows.power
  rw [bind_assoc]
  refine (hb.whole hB hlegal.2 hassign' hunary' hn.2 hright hfollows.equal hstops h₃).bind
    fun _ s₄ h₄ => (hy s₄ _ h₄).bind fun _ s₅ h₅ => hrest s₅ m h₅ ?_
  simp only [List.length_append, List.length_cons] at hm ⊢
  omega

theorem spends_binary {q : Power} {a b : Expr} {ts us : List Token} (op : BinaryOp) (hk : t.kind = op.kind)
    (hq : Tightens op.power q) (ha : Spends op.power a ts) (hb : Spends q b us) :
    Spends op.power (.binary op a b) (ts ++ t :: us) := by
  obtain rfl := hq.next_eq
  refine spends_operator (pure ()) (fun _ => (operations t.kind).forM emit) []
    (fun _ => (operations op.kind).map fun _ => .bytes 1) (fun n canAssign => ?_)
    (fun {B V c _ s us ns todo} hs => ?_) ha ?_ (Power.le_refl _) ?_ hb ?_ ?_
    (fun k h => Power.not_next_le_of_left_le h) rfl (fun c => by simp [Expr.needs])
  · rw [hk, pure_bind]
    cases op <;> rfl
  · refine .kept hs.clean ⟨hs, fun s'' us' h'' => ?_⟩
    rw [hk]
    exact h''.emitAll id
  · refine ⟨?_, ?_, fun _ => ?_⟩ <;> rw [hk] <;> cases op <;> decide
  · rw [hk, op.ofKind_kind]
    exact Power.le_refl _
  · cases op <;> decide
  · cases op <;> decide

theorem spends_and {a b : Expr} {ts us : List Token} (hk : t.kind = .kwAnd)
    (ha : Spends .equality a ts) (hb : Spends .and b us) :
    Spends .and (.and a b) (ts ++ t :: us) := by
  refine spends_operator (emitJump .jumpIfFalse >>= fun j => emit .pop >>= fun _ => pure j) patchJump
    [.bytes 3, .bytes 1] (fun ns => [.leap (Need.size ns + 1)]) (fun n canAssign => ?_)
    (fun {B V c _ s us ns todo} hs => ?_) ha ?_ (by decide) ?_ hb (by decide) (by decide)
    (fun k h => ⟨Power.not_le_of_left_le (by simp) h, h⟩) rfl (fun c => by simp [Expr.needs])
  · rw [hk, bind_assoc]
    simp only [bind_assoc, pure_bind]
    rfl
  · simp only [List.cons_append, List.nil_append] at hs ⊢
    refine (Owes.emitJump hs .jumpIfFalse).bind fun j s₁ h => ?_
    obtain ⟨h₁, hj⟩ := h
    refine Settles.bind (Owes.emit h₁ .pop) fun _ s₂ h₂ => .kept h₂.clean ⟨h₂, fun s'' us' h'' => ?_⟩
    refine Owes.patchJump (j := j) h'' ?_
    simp only [Need.size_cons, Need.size_append, Need.length] at hj
    omega
  · exact ⟨by rw [hk]; decide, by rw [hk]; simp, fun _ => by rw [hk]; simp⟩
  · rw [hk]
    decide

theorem spends_or {a b : Expr} {ts us : List Token} (hk : t.kind = .kwOr)
    (ha : Spends .and a ts) (hb : Spends .or b us) :
    Spends .or (.or a b) (ts ++ t :: us) := by
  refine spends_operator
    (do
      let elseJump ← emitJump .jumpIfFalse
      let endJump ← emitJump .jump
      patchJump elseJump
      emit .pop
      return endJump) patchJump [.bytes 3, .bytes 3, .leap 3, .bytes 1]
    (fun ns => [.leap (Need.size ns + 1)]) (fun n canAssign => ?_)
    (fun {B V c _ s us ns todo} hs => ?_) ha ?_ (by decide) ?_ hb (by decide) (by decide)
    (fun k h => ⟨Power.not_le_of_left_le (by simp) h, h⟩) rfl (fun c => by simp [Expr.needs])
  · rw [hk]
    simp only [bind_assoc, pure_bind]
    rfl
  · simp only [List.cons_append, List.nil_append] at hs ⊢
    refine (Owes.emitJump hs .jumpIfFalse).bind fun j s₁ h => ?_
    obtain ⟨h₁, hj⟩ := h
    refine (Owes.emitJump h₁ .jump).bind fun j' s₂ h => ?_
    obtain ⟨h₂, hj'⟩ := h
    simp only [Need.size_cons, Need.size_append, Need.length] at hj hj'
    refine Settles.bind (Owes.patchJump (j := j) h₂ ?_) fun _ s₃ h₃ =>
      Settles.bind (Owes.emit h₃ .pop) fun _ s₄ h₄ => .kept h₄.clean ⟨h₄, fun s'' us' h'' => ?_⟩
    · simp only [Need.size_cons, Need.size_append, Need.length]
      omega
    · refine Owes.patchJump (j := j') h'' ?_
      omega
  · exact ⟨by rw [hk]; decide, by rw [hk]; simp, fun _ => by rw [hk]; simp⟩
  · rw [hk]
    decide

/-! ## Arguments -/

/-- An argument is followed by a comma or the end of the arguments. -/
theorem Spends.argument [Sights V c] (h : Spends .assignment e ts) (hB : B.around = c.outer)
    (hlegal : c.AllowsAll e.uses) (hn : (ts ++ t :: us).length ≤ n) (hk : Power.ofKind t.kind = .none)
    (hequal : t.kind ≠ .equal) (hs : Owes B V (ts ++ t :: us) (e.needs c ++ todo) s) :
    Settles B (within n .assignment s) fun _ s' => Owes B V (t :: us) todo s' :=
  h.whole hB hlegal (Power.le_refl _) (by decide) hn (by rw [hk]; decide) hequal (by rw [hk]; decide) hs

/-- The parser for arguments reads the tokens `ts`. -/
def SpendsAll (es : List Expr) (ts : List Token) : Prop :=
  ∀ {B : Budget} {V : Builder → Prop} {c : Scope} [Sights V c] {n b count s r us todo}, es ≠ [] →
    B.around = c.outer → c.AllowsAll (usesOfAll es) → r.kind = .rightParen →
    (ts ++ r :: us).length ≤ n → (ts ++ r :: us).length ≤ b → count ≤ maxArguments →
    .arguments (count + es.length) ∈ todo → Owes B V (ts ++ r :: us) (needsOfEach c es ++ todo) s →
    Settles B (argumentsFrom (within n) b count s) fun _ s' =>
      Owes B V (r :: us) todo s' ∧ count + es.length ≤ maxArguments

/-- Behind an argument the number of arguments is checked. -/
theorem Owes.checkArguments {α : Type} {count m : Nat} {x : Build α} [Keeps x] {R : α → Builder → Prop}
    (h : Owes B V us todo s) (hmem : .arguments m ∈ todo) (hlt : count < m)
    (hx : count ≠ maxArguments → Settles B (x s) R) :
    Settles B ((if count = maxArguments then error .tooManyArguments >>= fun _ => x else x) s) R := by
  split
  · rename_i hcount
    refine .error h.calm fun hB => ?_
    have hfits : m ≤ maxArguments := (h.promised hmem hB).1
    omega
  · exact hx (by assumption)

theorem spendsAll_singleton (h : Spends .assignment e ts) : SpendsAll [e] ts := by
  intro B V c _ n b count s r us todo _ hB hlegal hr hn hb hcount hmem hs
  obtain _ | b := b
  · simp at hb
  rw [usesOfAll, usesOfAll, List.append_nil] at hlegal
  rw [needsOfEach, needsOfEach, List.append_nil] at hs
  rw [argumentsFrom]
  refine (h.argument hB hlegal hn (by rw [hr]; rfl) (by rw [hr]; simp) hs).bind fun _ s₁ h₁ => ?_
  refine Owes.checkArguments h₁ hmem (Nat.lt_succ_self _) fun hne => ?_
  refine .acceptNot (by rw [h₁.tokens.current, hr]; simp) (.kept h₁.clean ⟨h₁, ?_⟩)
  exact Nat.succ_le_of_lt (Nat.lt_of_le_of_ne hcount hne)

theorem spendsAll_cons {e' : Expr} {es : List Expr} {comma : Token} {us' : List Token}
    (hk : comma.kind = .comma) (h : Spends .assignment e ts) (h' : SpendsAll (e' :: es) us') :
    SpendsAll (e :: e' :: es) (ts ++ comma :: us') := by
  intro B V c _ n b count s r us todo _ hB hlegal hr hn hb hcount hmem hs
  obtain _ | b := b
  · simp at hb
  have hs : Owes B V (ts ++ comma :: (us' ++ r :: us))
      (e.needs c ++ (needsOfEach c (e' :: es) ++ todo)) s := by
    simpa [needsOfEach] using hs
  have hlen : (ts ++ comma :: (us' ++ r :: us)).length ≤ n ∧ (us' ++ r :: us).length ≤ n ∧
      (us' ++ r :: us).length ≤ b := by
    simp only [List.length_append, List.length_cons] at hn hb ⊢
    omega
  have hcons : count + (e :: e' :: es).length = count + 1 + (e' :: es).length := by
    simp only [List.length_cons]
    omega
  rw [usesOfAll, Scope.allowsAll_append] at hlegal
  rw [hcons] at hmem ⊢
  rw [argumentsFrom]
  refine (h.argument hB hlegal.1 hlen.1 (by rw [hk]; rfl) (by rw [hk]; simp) hs).bind fun _ s₁ h₁ => ?_
  refine Owes.checkArguments h₁ (List.mem_append_right _ hmem) (by simp only [List.length_cons]; omega) fun hne => ?_
  refine h₁.accept hk (by simp) fun s₂ h₂ _ => ?_
  exact h' (by simp) hB hlegal.2 hr hlen.2.1 hlen.2.2 (Nat.succ_le_of_lt (Nat.lt_of_le_of_ne hcount hne)) hmem h₂

/-- Arguments in parentheses. -/
theorem arguments_settles [Sights V c] {es : List Expr} {r : Token} (hd : Derives (.arguments es) ts)
    (h : SpendsAll es ts) (hB : B.around = c.outer) (hlegal : c.AllowsAll (usesOfAll es))
    (hr : r.kind = .rightParen) (hn : (ts ++ r :: us).length ≤ n)
    (hs : Owes B V (ts ++ r :: us) (needsOfEach c es ++ .arguments es.length :: todo) s) :
    Settles B (arguments n (within n) s) fun _ s' => Owes B V us todo s' := by
  rw [arguments, bind_of_run (check_run _ _)]
  cases es with
  | nil =>
      cases hd
      have hkind : s.current.kind = .rightParen := by rw [hs.tokens.current, hr]
      dsimp only
      rw [if_pos (decide_eq_true hkind), pure_bind]
      refine hs.expect hr fun s₁ h₁ _ => ?_
      exact (h₁.skip (Nat.zero_le _) trivial rfl rfl rfl rfl).settles _
  | cons e es =>
      have hkind : s.current.kind ≠ .rightParen := by
        obtain ⟨t, ts, rfl⟩ := List.exists_cons_of_length_pos (hd.pos rfl)
        have hbegins := hd.begins t rfl
        rw [hs.tokens.current]
        intro hk
        rw [Phrase.BeginsWith, hk] at hbegins
        exact hbegins
      dsimp only
      rw [if_neg (by simpa using hkind)]
      have hmem : .arguments (0 + (e :: es).length) ∈ Need.arguments (e :: es).length :: todo := by
        rw [Nat.zero_add]
        exact List.mem_cons_self
      refine (h (by simp) hB hlegal hr hn hn (Nat.zero_le _) hmem hs).bind fun count s₁ hread => ?_
      obtain ⟨h₁, hcount⟩ := hread
      rw [Nat.zero_add] at hcount
      refine h₁.expect hr fun s₂ h₂ _ => ?_
      exact (h₂.skip hcount trivial rfl rfl rfl rfl).settles _

/-! ## Calls and properties -/

theorem spends_call {f : Expr} {as : List Expr} {l r : Token} {us' : List Token}
    (hl : l.kind = .leftParen) (hr : r.kind = .rightParen) (hf : f.isProperty = false)
    (h : Spends .call f ts) (hd : Derives (.arguments as) us') (h' : SpendsAll as us') :
    Spends .call (.call f as) (ts ++ l :: us' ++ [r]) := by
  intro B V c _ n p s t us todo R hB hlegal hassign hp hunary hn _ hs hrest
  have hs : Owes B V (ts ++ l :: (us' ++ r :: t :: us))
      (f.needs c ++ (needsOfEach c as ++ .arguments as.length :: .bytes 2 :: todo)) s := by
    simpa [Expr.needs_call as hf c] using hs
  have hn : (ts ++ l :: (us' ++ r :: t :: us)).length ≤ n + 1 ∧
      (us' ++ r :: t :: us).length ≤ n := by
    simp only [List.length_append, List.length_cons, List.length_nil] at hn ⊢
    omega
  have huses : (Expr.call f as).uses = f.uses ++ usesOfAll as := by
    cases f <;> first | rfl | cases hf
  rw [huses, Scope.allowsAll_append] at hlegal
  have hfollows : Follows .call f l := follows_call hl rfl fun hp => nomatch hf.symm.trans hp
  refine h hB hlegal.1 hassign hp hunary hn.1 hfollows hs fun s₁ m h₁ hm => ?_
  obtain _ | m := m
  · simp at hm
  have hpower : p ≤ Power.ofKind l.kind := by
    rw [hl]
    exact hp
  refine settles_step h₁ hassign hpower fun s₂ h₂ => ?_
  have hcall : continuation n (within n) (p ≤ .assignment) l.kind =
      (arguments n (within n) >>= fun count => emitWith .call count) := by
    rw [hl]
    rfl
  rw [hcall, bind_assoc]
  refine (arguments_settles hd h' hB hlegal.2 hr hn.2 h₂).bind fun count s₃ h₃ =>
    Settles.bind (Owes.emitWith h₃ .call count) fun _ s₄ h₄ => hrest s₄ m h₄ ?_
  simp only [List.length_append, List.length_cons] at hm ⊢
  omega

theorem spends_member {o : Expr} {dot name : Token} (hdot : dot.kind = .dot)
    (hname : name.kind = .identifier) (h : Spends .call o ts) [Sights V c] (hB : B.around = c.outer)
    (hlegal : c.AllowsAll o.uses) (hassign : Power.assignment ≤ p) (hp : p ≤ .call) (hunary : p ≤ .unary)
    (hn : (ts ++ dot :: name :: us).length ≤ n + 1)
    (hs : Owes B V (ts ++ dot :: name :: us) (o.needs c ++ .constant (.string name.text) :: todo) s)
    (hrest : ∀ s' k b, Owes B V us todo s' → us.length ≤ b →
      Settles B ((member n (p ≤ .assignment) k >>= fun _ => rest n p b) s') R) :
    Settles B (rule n (within n) p s) R := by
  have hfollows : Follows .call o dot := follows_call hdot rfl nofun
  refine h hB hlegal hassign hp hunary hn hfollows hs fun s₁ m h₁ hm => ?_
  obtain _ | m := m
  · simp at hm
  have hpower : p ≤ Power.ofKind dot.kind := by
    rw [hdot]
    exact hp
  refine settles_step h₁ hassign hpower fun s₂ h₂ => ?_
  have hproperty : continuation n (within n) (p ≤ .assignment) dot.kind =
      property n (within n) (p ≤ .assignment) := by
    rw [hdot]
    rfl
  rw [hproperty, property_eq, bind_assoc]
  refine h₂.expect hname fun s₃ h₃ hprevious => ?_
  rw [bind_assoc, bind_of_run (lastText_run s₃), hprevious, bind_assoc]
  refine h₃.nameConstant.bind fun k s₄ h₄ => hrest s₄ k m h₄.1 ?_
  simp only [List.length_cons] at hm
  omega

theorem spends_get {o : Expr} {dot name : Token} (hdot : dot.kind = .dot)
    (hname : name.kind = .identifier) (h : Spends .call o ts) :
    Spends .call (.get o name.text) (ts ++ [dot, name]) := by
  intro B V c _ n p s t us todo R hB hlegal hassign hp hunary hn hfollows hs hrest
  have hs : Owes B V (ts ++ dot :: name :: t :: us)
      (o.needs c ++ .constant (.string name.text) :: .bytes 2 :: todo) s := by
    simpa [Expr.needs] using hs
  rw [List.append_assoc] at hn
  refine spends_member hdot hname h hB (by simpa [Expr.uses] using hlegal) hassign hp hunary hn hs
    fun s₁ k m h₁ hm => ?_
  rw [member, bind_assoc]
  refine settles_notAssigned (h₁.tokens.current ▸ hfollows.equal) ?_
  change Settles B (((accept .leftParen >>= _) >>= _) s₁) R
  rw [bind_assoc]
  refine .acceptNot (h₁.tokens.current ▸ hfollows.property rfl) ?_
  exact Settles.bind (Owes.emitWith h₁ .getProperty k) fun _ s₂ h₂ => hrest s₂ m h₂ hm

theorem spends_set {o : Expr} {us' : List Token} {dot name : Token} (hdot : dot.kind = .dot)
    (hname : name.kind = .identifier) (hk : t.kind = .equal) (h : Spends .call o ts)
    (h' : Spends .assignment e us') :
    Spends .assignment (.set o name.text e) (ts ++ dot :: name :: t :: us') := by
  intro B V c _ n p s t' us todo R hB hlegal hassign hp hunary hn hfollows hs hrest
  obtain rfl : p = .assignment := Power.rank_injective (Nat.le_antisymm hp hassign)
  have hs : Owes B V (ts ++ dot :: name :: t :: (us' ++ t' :: us))
      (o.needs c ++ .constant (.string name.text) :: (e.needs c ++ .bytes 2 :: todo)) s := by
    simpa [Expr.needs] using hs
  have hn : (ts ++ dot :: name :: t :: (us' ++ t' :: us)).length ≤ n + 1 ∧
      (us' ++ t' :: us).length ≤ n := by
    simp only [List.length_append, List.length_cons] at hn ⊢
    omega
  rw [Expr.uses, Scope.allowsAll_append] at hlegal
  refine spends_member hdot hname h hB hlegal.1 hassign (by decide) hunary hn.1 hs fun s₁ k m h₁ hm => ?_
  rw [member, bind_assoc]
  refine h₁.accept hk (by simp) fun s₂ h₂ _ => ?_
  change Settles B ((within n .assignment >>= fun _ => emitWith .setProperty k >>= fun _ =>
    rest n .assignment m) s₂) R
  refine (h'.whole hB hlegal.2 hassign hunary hn.2 hfollows.power hfollows.equal
    (Power.not_le_of_left_le (.inl rfl) hfollows.power) h₂).bind fun _ s₃ h₃ =>
    Settles.bind (Owes.emitWith h₃ .setProperty k) fun _ s₄ h₄ => hrest s₄ m h₄ ?_
  simp only [List.length_append, List.length_cons] at hm ⊢
  omega

theorem spends_invoke {o : Expr} {as : List Expr} {us' : List Token} {dot name l r : Token}
    (hdot : dot.kind = .dot) (hname : name.kind = .identifier) (hl : l.kind = .leftParen)
    (hr : r.kind = .rightParen) (h : Spends .call o ts) (hd : Derives (.arguments as) us')
    (h' : SpendsAll as us') :
    Spends .call (.call (.get o name.text) as) (ts ++ [dot, name] ++ l :: us' ++ [r]) := by
  intro B V c _ n p s t us todo R hB hlegal hassign hp hunary hn hfollows hs hrest
  have hs : Owes B V (ts ++ dot :: name :: l :: (us' ++ r :: t :: us))
      (o.needs c ++ .constant (.string name.text) ::
        (needsOfEach c as ++ .arguments as.length :: .bytes 2 :: .bytes 1 :: todo)) s := by
    simpa [Expr.needs] using hs
  have hn : (ts ++ dot :: name :: l :: (us' ++ r :: t :: us)).length ≤ n + 1 ∧
      (us' ++ r :: t :: us).length ≤ n := by
    simp only [List.length_append, List.length_cons, List.length_nil] at hn ⊢
    omega
  rw [Expr.uses, Expr.uses, Scope.allowsAll_append] at hlegal
  · refine spends_member hdot hname h hB hlegal.1 hassign hp hunary hn.1 hs fun s₁ k m h₁ hm => ?_
    rw [member, bind_assoc]
    refine settles_notAssigned (by rw [h₁.tokens.current, hl]; simp) ?_
    change Settles B (((accept .leftParen >>= _) >>= _) s₁) _
    rw [bind_assoc]
    refine h₁.accept hl (by simp) fun s₂ h₂ _ => ?_
    change Settles B ((arguments n (within n) >>= fun count => emitWith .invoke k >>= fun _ =>
      emitByte count.toUInt8 >>= fun _ => rest n p m) s₂) _
    refine (arguments_settles hd h' hB hlegal.2 hr hn.2 h₂).bind fun count s₃ h₃ =>
      Settles.bind (Owes.emitWith h₃ .invoke k) fun _ s₄ h₄ =>
        Settles.bind (Owes.emitByte h₄ count.toUInt8) fun _ s₅ h₅ => hrest s₅ m h₅ ?_
    simp only [List.length_append, List.length_cons] at hm ⊢
    omega
  · simp

/-! ## Superclasses -/

theorem spends_superMember {dot name : Token} (hk : t.kind = .kwSuper) (hdot : dot.kind = .dot)
    (hname : name.kind = .identifier) [Sights V c] (hB : B.around = c.outer)
    (hlegal : c.AllowsAll [.this, .super])
    (hs : Owes B V (t :: dot :: name :: us)
      (.constant (.string name.text) :: (c.reading "this" ++ todo)) s)
    (hrest : ∀ s' k, Owes B V us todo s' →
      Settles B ((superMember n k >>= fun _ => rest n p n) s') R) :
    Settles B (rule n (within n) p s) R := by
  refine settles_first hs (x := super n (within n)) (by rw [hk]; rfl) fun s₁ h₁ _ => ?_
  have hclasses : s₁.classes = c.classes := (Sights.views h₁.view).sees.classes
  rw [bind_run_congr (super_run (hclasses ▸ allows_super.mp hlegal)), superName]
  simp only [bind_assoc]
  refine h₁.expect hdot fun s₂ h₂ _ => h₂.expect hname fun s₃ h₃ hprevious => ?_
  rw [bind_of_run (lastText_run s₃), hprevious]
  refine h₃.nameConstant.bind fun k s₄ h₄ => ?_
  exact (h₄.1.readReserved hB fun h => h.2.2 rfl).bind fun _ s₅ h₅ => hrest s₅ k h₅

theorem spends_super {dot name : Token} (hk : t.kind = .kwSuper) (hdot : dot.kind = .dot)
    (hname : name.kind = .identifier) : Spends .primary (.super name.text) [t, dot, name] := by
  intro B V c _ n p s t' us todo R hB hlegal _ _ _ hn hfollows hs hrest
  have hs : Owes B V (t :: dot :: name :: t' :: us) (.constant (.string name.text) ::
      (c.reading "this" ++ (c.reading "super" ++ .bytes 2 :: todo))) s := by
    simpa [Expr.needs] using hs
  refine spends_superMember hk hdot hname hB (by simpa [Expr.uses] using hlegal) hs fun s₁ k h₁ => ?_
  rw [superMember, bind_assoc]
  refine .acceptNot (h₁.tokens.current ▸ hfollows.property rfl) ?_
  change Settles B ((readNamed "super" >>= fun _ => emitWith .getSuper k >>= fun _ => rest n p n) s₁) R
  refine (h₁.readReserved hB fun h => h.2.1 rfl).bind fun _ s₂ h₂ =>
    Settles.bind (Owes.emitWith h₂ .getSuper k) fun _ s₃ h₃ => hrest s₃ n h₃ ?_
  simp only [List.length_append, List.length_cons] at hn ⊢
  omega

theorem spends_superInvoke {as : List Expr} {us' : List Token} {dot name l r : Token}
    (hk : t.kind = .kwSuper) (hdot : dot.kind = .dot) (hname : name.kind = .identifier)
    (hl : l.kind = .leftParen) (hr : r.kind = .rightParen) (hd : Derives (.arguments as) us')
    (h : SpendsAll as us') :
    Spends .call (.call (.super name.text) as) ([t, dot, name] ++ l :: us' ++ [r]) := by
  intro B V c _ n p s t' us todo R hB hlegal _ _ _ hn _ hs hrest
  have hs : Owes B V (t :: dot :: name :: l :: (us' ++ r :: t' :: us)) (.constant (.string name.text) ::
      (c.reading "this" ++ (needsOfEach c as ++ .arguments as.length ::
        (c.reading "super" ++ .bytes 2 :: .bytes 1 :: todo)))) s := by
    simpa [Expr.needs] using hs
  have hn : (us' ++ r :: t' :: us).length ≤ n ∧ (t' :: us).length ≤ n := by
    simp only [List.length_append, List.length_cons, List.length_nil] at hn ⊢
    omega
  obtain ⟨hsuper, hargs⟩ : c.AllowsAll [.this, .super] ∧ c.AllowsAll (usesOfAll as) := by
    simp only [Expr.uses, Scope.allowsAll_cons, Scope.allowsAll_append, Scope.allowsAll_nil,
      and_true] at hlegal ⊢
    tauto
  refine spends_superMember hk hdot hname hB hsuper hs fun s₁ k h₁ => ?_
  rw [superMember, bind_assoc]
  refine h₁.accept hl (by simp) fun s₂ h₂ _ => ?_
  change Settles B ((arguments n (within n) >>= fun count => readNamed "super" >>= fun _ =>
    emitWith .superInvoke k >>= fun _ => emitByte count.toUInt8 >>= fun _ => rest n p n) s₂) R
  refine (arguments_settles hd h hB hargs hr hn.1 h₂).bind fun count s₃ h₃ => ?_
  refine (h₃.readReserved hB fun h => h.2.1 rfl).bind fun _ s₄ h₄ =>
    Settles.bind (Owes.emitWith h₄ .superInvoke k) fun _ s₅ h₅ =>
      Settles.bind (Owes.emitByte h₅ count.toUInt8) fun _ s₆ h₆ => hrest s₆ n h₆ hn.2

/-! ## Whole expressions -/

/-- What is shown of phrases by induction on the grammar. The object of a property can be read on
its own, as a call of the property has rules of its own. -/
def Frugal : Phrase → List Token → Prop
  | .expression q e, ts => Spends q e ts ∧ ∀ o name, e = .get o name → q = .call →
      ∃ ts' dot t, ts = ts' ++ [dot, t] ∧ dot.kind = .dot ∧ t.kind = .identifier ∧ t.text = name ∧
        Spends .call o ts'
  | .arguments es, ts => SpendsAll es ts
  | _, _ => True

theorem Spends.frugal {q : Power} {e : Expr} {ts : List Token} (h : Spends q e ts)
    (he : ∀ o name, e ≠ .get o name) : Frugal (.expression q e) ts :=
  ⟨h, fun o name heq => absurd heq (he o name)⟩

theorem Spends.tighter {q q' : Power} (h : Spends q' e ts) (hq : Tightens q q') : Spends q e ts := by
  have hle := hq.le
  intro B V c _ n p s t us todo R hB hlegal hassign hp hunary hn hfollows hs hrest
  exact h hB hlegal hassign (Power.le_trans hp hle) hunary hn
    ⟨Power.le_trans hfollows.power hle, hfollows.equal, hfollows.property⟩ hs hrest

theorem frugal {x : Phrase} {ts : List Token} (h : Derives x ts) : Frugal x ts := by
  induction h with
  | number hk hm => exact Spends.frugal (spends_number hk hm) nofun
  | string hk => exact Spends.frugal (spends_string hk) nofun
  | nil hk => exact Spends.frugal (spends_literal (fun _ _ => by rw [hk]; rfl) fun _ => rfl) nofun
  | true hk => exact Spends.frugal (spends_literal (fun _ _ => by rw [hk]; rfl) fun _ => rfl) nofun
  | false hk => exact Spends.frugal (spends_literal (fun _ _ => by rw [hk]; rfl) fun _ => rfl) nofun
  | «variable» hk => exact Spends.frugal (spends_variable hk) nofun
  | this hk => exact Spends.frugal (spends_this hk) nofun
  | super hk hdot hname => exact Spends.frugal (spends_super hk hdot hname) nofun
  | grouping hl hr _ ih => exact Spends.frugal (spends_grouping hl hr ih.1) nofun
  | @call l r f as ts us hl hr hf has ih ih' =>
      refine Spends.frugal ?_ nofun
      cases f with
      | get o name =>
          obtain ⟨ts', dot, t, rfl, hdot, ht, rfl, ho⟩ := ih.2 o name rfl rfl
          exact spends_invoke hdot ht hl hr ho has ih'
      | super name =>
          obtain ⟨t, dot, nm, rfl, hk, hdot, hname, rfl⟩ := hf.eq_super rfl
          exact spends_superInvoke hk hdot hname hl hr has ih'
      | _ => exact spends_call hl hr rfl ih.1 has ih'
  | get hdot hname _ ih =>
      refine ⟨spends_get hdot hname ih.1, fun o name heq _ => ?_⟩
      obtain ⟨rfl, rfl⟩ := Expr.get.inj heq
      exact ⟨_, _, _, rfl, hdot, hname, rfl, ih.1⟩
  | unary op hk _ ih => exact Spends.frugal (spends_unary op hk ih.1) nofun
  | binary op hk hq _ _ ih ih' => exact Spends.frugal (spends_binary op hk hq ih.1 ih'.1) nofun
  | and hk _ _ ih ih' => exact Spends.frugal (spends_and hk ih.1 ih'.1) nofun
  | or hk _ _ ih ih' => exact Spends.frugal (spends_or hk ih.1 ih'.1) nofun
  | assign hname hk _ ih => exact Spends.frugal (spends_assign hname hk ih.1) nofun
  | set hdot hname hk _ _ ih ih' => exact Spends.frugal (spends_set hdot hname hk ih.1 ih'.1) nofun
  | tighter hq hd ih =>
      refine ⟨Spends.tighter ih.1 hq, fun o name heq hcall => ?_⟩
      subst heq hcall
      cases hq
      exact (hd.get_not_primary rfl).elim
  | noArguments => exact fun hne => absurd rfl hne
  | lastArgument _ ih => exact spendsAll_singleton ih.1
  | argument hk _ _ ih ih' => exact spendsAll_cons hk ih.1 ih'
  | _ => trivial

/-- An expression that breaks no rule is read up to a token that cannot continue it, and what it needs is made
of it, or the budget is too large. -/
theorem parse_settles [Sights V c] (hd : Derives (.expression .assignment e) ts) (hB : B.around = c.outer)
    (hlegal : c.AllowsAll e.uses) (hn : (ts ++ t :: us).length ≤ n + 1) (hk : Power.ofKind t.kind = .none)
    (hequal : t.kind ≠ .equal) (hs : Owes B V (ts ++ t :: us) (e.needs c ++ todo) s) :
    Settles B (parse n .assignment s) fun _ s' => Owes B V (t :: us) todo s' :=
  Spends.argument (frugal hd).1 (n := n + 1) hB hlegal hn hk hequal hs

end LoxMachine.Expression
