import LoxMachine.Proofs.Verdict.Scopes
import LoxMachine.Proofs.Syntax.Grammar

/-!
# The verdict on expressions

Where the tokens are those of an expression, the parser reads them, and whether it does so without
an error is decided by the names in it. The grammar has operators of one level to the left of one
another, while the parser reads operand by operand in a loop. So what is shown by induction on the
grammar is that the parser, begun at an expression, comes to its loop behind it (`Reaches`).

Main statement: `parse_decides`.
-/

namespace LoxMachine.Expression

open Builder Syntax

/-! ## The rule for expressions -/

/-- Reads an equals sign where an assignment may stand. -/
def assigns (canAssign : Bool) : Build Bool :=
  if canAssign then accept .equal else return false

/-- What the rule for expressions does behind an operand. -/
def rest (n : Nat) (p : Power) (b : Nat) : Build Unit := do
  repeatWhile (do return p ≤ Power.ofKind (← get).current.kind)
    (do
      advance
      continuation n (within n) (p ≤ .assignment) (← get).previous.kind)
    b
  if ← assigns (p ≤ .assignment) then error .invalidAssignmentTarget

theorem rule_eq (n : Nat) (p : Power) : rule n (within n) p = (do
    advance
    match opening n (within n) (p ≤ .assignment) (← get).previous.kind with
    | none => error .expectExpression
    | some first => do
      first
      rest n p n) :=
  rfl

variable {α : Type} {s : Builder} {t : Token} {us vs : List Token} {n b : Nat} {p : Power} {P : Prop}
  {c : Scope}

/-- What an expression begins with is told by its first token. -/
theorem rule_of_opening {s' : Builder} {x : Build Unit} (hrun : advance s = ((), s'))
    (hx : opening n (within n) (p ≤ .assignment) s'.previous.kind = some x) :
    rule n (within n) p s = (x >>= fun _ => rest n p n) s' := by
  rw [rule_eq, bind_of_run hrun, get_bind_run, hx]

set_option synthInstance.maxSize 4096

instance (canAssign : Bool) : Keeps (assigns canAssign) := by
  unfold assigns
  infer_instance

instance : Keeps (rest n p b) := by
  unfold rest
  infer_instance

theorem decides_notAssigned {canAssign : Bool} {f : Bool → Build α} {R : α → Builder → Prop}
    (hk : s.current.kind ≠ .equal) (hf : Decides (f false s) P vs R) :
    Decides ((assigns canAssign >>= f) s) P vs R := by
  cases canAssign with
  | false => exact hf
  | true => exact .acceptNot hk hf

/-- Nothing can be assigned to where there is no equals sign, and no operator binds tightly
enough. -/
theorem rest_stop (hs : s.At (t :: us)) (hp : ¬ p ≤ Power.ofKind t.kind) (hk : t.kind ≠ .equal) :
    Decides (rest n p b s) True (t :: us) fun _ s' => s' = s := by
  have hcond : (do return p ≤ Power.ofKind (← get).current.kind : Build Bool) s = (false, s) := by
    change (decide (p ≤ Power.ofKind s.current.kind), s) = _
    rw [decide_eq_false (hs.current ▸ hp)]
  rw [rest, bind_of_run (repeatWhile_stop hcond)]
  exact decides_notAssigned (hs.current ▸ hk) (.accepts trivial hs rfl)

/-- An operator that binds tightly enough. -/
theorem rest_step {R : Unit → Builder → Prop} (hs : s.At (t :: us)) (hassign : Power.assignment ≤ p)
    (hp : p ≤ Power.ofKind t.kind)
    (hf : ∀ s', s.Reads s' → s'.At us → s'.previous = t →
      Decides ((continuation n (within n) (p ≤ .assignment) t.kind >>= fun _ => rest n p b) s') P vs R) :
    Decides (rest n p (b + 1) s) P vs R := by
  have hcond : (do return p ≤ Power.ofKind (← get).current.kind : Build Bool) s = (true, s) := by
    change (decide (p ≤ Power.ofKind s.current.kind), s) = _
    rw [decide_eq_true (hs.current ▸ hp)]
  have hne : t.kind ≠ .eof := by
    intro heof
    rw [heof] at hp
    exact absurd (Power.le_trans hassign hp) (by decide)
  obtain ⟨s', hrun, hr, hat, hprevious⟩ := hs.advance hne
  have : rest n p (b + 1) s =
      (continuation n (within n) (p ≤ .assignment) s'.previous.kind >>= fun _ => rest n p b) s' := by
    have hbody : repeatWhile _ (do
        advance
        continuation n (within n) (p ≤ .assignment) (← get).previous.kind) (b + 1) s = _ :=
      repeatWhile_step hcond
    rw [bind_assoc, bind_of_run hrun] at hbody
    rw [rest, bind_run_congr hbody, bind_assoc]
    rfl
  rw [this, hprevious]
  exact hf s' hr hat hprevious

/-- The first token of an expression. -/
theorem rule_first {R : Unit → Builder → Prop} {x : Build Unit} (hs : s.At (t :: us))
    (hx : opening n (within n) (p ≤ .assignment) t.kind = some x)
    (hf : ∀ s', s.Reads s' → s'.At us → s'.previous = t →
      Decides ((x >>= fun _ => rest n p n) s') P vs R) :
    Decides (rule n (within n) p s) P vs R := by
  have hne : t.kind ≠ .eof := by
    intro heof
    rw [heof] at hx
    cases hx
  obtain ⟨s', hrun, hr, hat, hprevious⟩ := hs.advance hne
  rw [rule_of_opening hrun (hprevious ▸ hx)]
  exact hf s' hr hat hprevious

/-! ## Operands -/

/-- The parser, begun at the tokens `ts`, comes to its loop behind them, unless the names in the
expression are not allowed. -/
def Reaches (q : Power) (e : Expr) (ts : List Token) : Prop :=
  ∀ {n p s t us c}, Power.assignment ≤ p → p ≤ q → p ≤ .unary → s.At (ts ++ t :: us) →
    (ts ++ t :: us).length ≤ n + 1 → s.Sees c → Follows q e t →
    ∀ {Q vs R}, (∀ s' b, s'.At (t :: us) → s'.Sees c → (t :: us).length ≤ b →
      Decides (rest n p b s') Q vs R) →
    Decides (rule n (within n) p s) (c.AllowsAll e.uses ∧ Q) vs R

/-- An expression that nothing behind it belongs to. -/
theorem Reaches.whole {e : Expr} {ts : List Token} (h : Reaches p e ts)
    (hassign : Power.assignment ≤ p) (hunary : p ≤ .unary) (hs : s.At (ts ++ t :: us))
    (hn : (ts ++ t :: us).length ≤ n) (hc : s.Sees c) (hleft : (Power.ofKind t.kind).left ≤ p)
    (hequal : t.kind ≠ .equal) (hstop : ¬ p ≤ Power.ofKind t.kind) :
    Decides (within n p s) (c.AllowsAll e.uses) (t :: us) fun _ _ => True := by
  obtain _ | n := n
  · simp at hn
  have hfollows : Follows p e t := by
    refine ⟨hleft, hequal, fun _ hparen => hstop ?_⟩
    rw [hparen]
    exact Power.le_trans hunary (by decide)
  refine Decides.congr (h hassign (Power.le_refl p) hunary hs hn hc hfollows
    fun s' b hat _ _ => (rest_stop hat hstop hequal).map fun _ _ _ => trivial) ?_
  exact and_iff_left trivial

/-- An expression of one token. -/
theorem reaches_token {e : Expr} {x : Build Unit} [Keeps x] [Still x]
    (hx : ∀ n canAssign, opening n (within n) canAssign t.kind = some x)
    (hd : ∀ {s us c}, s.At us → s.Sees c → s.previous = t →
      Decides (x s) (c.AllowsAll e.uses) us fun _ _ => True) : Reaches .primary e [t] := by
  intro n p s t' us c _ _ _ hs hn hc _ Q vs R hrest
  refine rule_first hs (hx _ _) fun s' hr hat hprevious => ?_
  have hc' := hc.stays hr.stays
  exact (hd hat hc' hprevious).bind hat.sound fun _ s₂ h hat₂ _ _ =>
    hrest s₂ n hat₂ (hc'.stays h.stays) (Nat.le_of_succ_le_succ hn)

theorem number_of_literal {m : Number} (hm : Number.ofLiteral? s.previous.text = some m) :
    number s = emitConstant (.number m) s := by
  rw [number, bind_of_run (show lastText s = (s.previous.text, s) from rfl), hm]

theorem reaches_number (hk : t.kind = .number) {m : Number} (hm : Number.ofLiteral? t.text = some m) :
    Reaches .primary (.number m) [t] := by
  refine reaches_token (x := number) (fun _ _ => by rw [hk]; rfl) fun {s us c} hs _ hprevious => ?_
  rw [number_of_literal (hprevious ▸ hm)]
  exact (Lenient.last hs fun _ _ _ _ => trivial).congr (iff_of_true trivial (c.allowsAll_nil))

theorem reaches_string (hk : t.kind = .string) : Reaches .primary (.string t.contents) [t] := by
  refine reaches_token (x := string) (fun _ _ => by rw [hk]; rfl) fun {s us c} hs _ _ => ?_
  change Decides (emitConstant (.string s.previous.contents) s) _ us _
  exact (Lenient.last hs fun _ _ _ _ => trivial).congr (iff_of_true trivial (c.allowsAll_nil))

theorem reaches_literal {op : Opcode} {e : Expr}
    (hx : ∀ n canAssign, opening n (within n) canAssign t.kind = some (literal op))
    (he : e.uses = []) : Reaches .primary e [t] := by
  refine reaches_token hx fun {s us c} hs _ _ => ?_
  change Decides (emit op s) _ us _
  rw [he]
  exact (Lenient.last hs fun _ _ _ _ => trivial).congr (iff_of_true trivial (c.allowsAll_nil))

theorem reaches_this (hk : t.kind = .kwThis) : Reaches .primary .this [t] := by
  refine reaches_token (x := this) (fun _ _ => by rw [hk]; rfl) fun {s us c} hs hc hprevious => ?_
  have hlegal : c.AllowsAll Expr.this.uses ↔ c.classes ≠ [] := by simp [Expr.uses, Scope.Allows]
  refine Decides.congr ?_ hlegal.symm
  change Decides ((if s.classes.isEmpty = true then error .thisOutsideClass
    else lastText >>= fun name => readNamed name : Build Unit) s) _ us _
  rw [hc.classes]
  split
  · rename_i hempty
    have hnil := List.isEmpty_iff.mp hempty
    exact .errorLast hs fun h => h hnil
  · rename_i hempty
    have htext : s.previous.text = "this" :=
      (hs.sound.proper s.previous List.mem_cons_self).this (hprevious ▸ hk)
    change Decides (readNamed s.previous.text s) _ us _
    rw [htext]
    refine (readReserved_decides hs hc (fun h => h.2.2 rfl)).congr (iff_of_true trivial ?_)
    exact fun hnil => hempty (by rw [hnil]; rfl)

theorem named_eq (sub : Power → Build Unit) (name : String) (canAssign : Bool) :
    named sub name canAssign = (do
      let v ← resolve name
      if ← assigns canAssign then
        sub .assignment
        emitWith v.setOp v.operand
      else emitWith v.getOp v.operand) :=
  rfl

theorem reaches_variable (hk : t.kind = .identifier) :
    Reaches .primary (.variable t.text) [t] := by
  intro n p s t' us c _ _ _ hs hn hc hfollows Q vs R hrest
  refine rule_first hs (x := lastText >>= fun name => named (within n) name (p ≤ .assignment))
    (by rw [hk]; rfl) fun s₁ hr hat hprevious => ?_
  have hc₁ := hc.stays hr.stays
  rw [bind_assoc, bind_of_run (lastText_run s₁), hprevious, named_eq,
    bind_assoc]
  have hallows : c.AllowsAll (Expr.variable t.text).uses ↔
      (c.pending = some t.text → c.place? t.text ≠ none) := by simp [Expr.uses, Scope.Allows]
  rw [hallows]
  refine (resolve_decides hat hc₁ t.text).bind hat.sound fun v s₂ h₂ hat₂ _ _ => ?_
  have hc₂ := hc₁.stays h₂.stays
  rw [bind_assoc]
  refine decides_notAssigned (hat₂.current ▸ hfollows.equal) ?_
  refine Decides.lenient (x := emitWith v.getOp v.operand) hat₂ fun _ s₃ h₃ hat₃ => ?_
  exact hrest s₃ n hat₃ (hc₂.stays h₃.stays) (Nat.le_of_succ_le_succ hn)

theorem reaches_assign {name : Token} {e : Expr} {ts : List Token} (hname : name.kind = .identifier)
    (hk : t.kind = .equal) (h : Reaches .assignment e ts) :
    Reaches .assignment (.assign name.text e) (name :: t :: ts) := by
  intro n p s t' us c hassign hp hunary hs hn hc hfollows Q vs R hrest
  obtain rfl : p = .assignment := Power.rank_injective (Nat.le_antisymm hp hassign)
  refine rule_first hs (x := lastText >>= fun name => named (within n) name true)
    (by rw [hname]; rfl) fun s₁ hr hat hprevious => ?_
  have hc₁ := hc.stays hr.stays
  rw [bind_assoc, bind_of_run (lastText_run s₁), hprevious, named_eq,
    bind_assoc]
  have hallows : c.AllowsAll (Expr.assign name.text e).uses ∧ Q ↔
      (c.pending = some name.text → c.place? name.text ≠ none) ∧ c.AllowsAll e.uses ∧ Q := by
    simp only [Expr.uses, Scope.Allows, Scope.allowsAll_append, Scope.allowsAll_cons,
      Scope.allowsAll_nil, and_true]
    tauto
  rw [hallows]
  refine (resolve_decides hat hc₁ name.text).bind hat.sound fun v s₂ h₂ hat₂ _ _ => ?_
  have hc₂ := hc₁.stays h₂.stays
  rw [bind_assoc]
  refine Decides.accept hat₂ hk (by simp) fun s₃ hr₃ hat₃ _ => ?_
  have hc₃ := hc₂.stays hr₃.stays
  have hlen : (ts ++ t' :: us).length ≤ n := by
    simp only [List.length_append, List.length_cons] at hn ⊢
    omega
  have hstop := Power.not_le_of_left_le (.inl rfl) hfollows.power
  change Decides ((within n .assignment >>= fun _ => emitWith v.setOp v.operand >>= fun _ => rest n .assignment n) s₃) _ vs R
  refine (h.whole hassign hunary hat₃ hlen hc₃ hfollows.power hfollows.equal hstop).bind hat₃.sound
    fun _ s₄ h₄ hat₄ _ _ => .lenient hat₄ fun _ s₅ h₅ hat₅ => ?_
  refine hrest s₅ n hat₅ ((hc₃.stays h₄.stays).stays h₅.stays) ?_
  simp only [List.length_append, List.length_cons] at hlen ⊢
  omega

theorem reaches_grouping {l r : Token} {e : Expr} {ts : List Token} (hl : l.kind = .leftParen)
    (hr : r.kind = .rightParen) (h : Reaches .assignment e ts) :
    Reaches .primary (.grouping e) (l :: ts ++ [r]) := by
  intro n p s t us c _ _ _ hs hn hc _ Q vs R hrest
  have hs : s.At (l :: (ts ++ r :: t :: us)) := by simpa using hs
  have hn : (ts ++ r :: t :: us).length ≤ n ∧ (t :: us).length ≤ n := by
    simp only [List.length_append, List.length_cons, List.length_nil] at hn ⊢
    omega
  refine rule_first hs (x := within n .assignment >>= fun _ => expect .groupClose)
    (by rw [hl]; rfl) fun s₁ hr₁ hat₁ _ => ?_
  have hc₁ := hc.stays hr₁.stays
  rw [bind_assoc]
  have hclose : Power.ofKind r.kind = .none ∧ r.kind ≠ .equal := by rw [hr]; exact ⟨rfl, nofun⟩
  refine (h.whole (Power.le_refl _) (by decide) hat₁ hn.1 hc₁ (by rw [hclose.1]; decide) hclose.2
    (by rw [hclose.1]; decide)).bind hat₁.sound fun _ s₂ h₂ hat₂ _ _ => ?_
  refine .expect hat₂ hr fun s₃ hr₃ hat₃ _ => ?_
  exact hrest s₃ n hat₃ ((hc₁.stays h₂.stays).stays hr₃.stays) hn.2

theorem reaches_unary {e : Expr} {ts : List Token} (op : UnaryOp) (hk : t.kind = op.kind)
    (h : Reaches .unary e ts) : Reaches .unary (.unary op e) (t :: ts) := by
  intro n p s t' us c _ _ _ hs hn hc hfollows Q vs R hrest
  have hn : (ts ++ t' :: us).length ≤ n ∧ (t' :: us).length ≤ n := by
    simp only [List.length_append, List.length_cons] at hn ⊢
    omega
  refine rule_first hs (x := within n .unary >>= fun _ => emit op.code)
    (by rw [hk]; cases op <;> rfl) fun s₁ hr₁ hat₁ _ => ?_
  have hc₁ := hc.stays hr₁.stays
  rw [bind_assoc]
  refine (h.whole (by decide) (Power.le_refl _) hat₁ hn.1 hc₁ hfollows.power hfollows.equal
    (Power.not_le_of_left_le (by simp) hfollows.power)).bind hat₁.sound fun _ s₂ h₂ hat₂ _ _ => ?_
  exact .lenient hat₂ fun _ s₃ h₃ hat₃ =>
    hrest s₃ n hat₃ ((hc₁.stays h₂.stays).stays h₃.stays) hn.2

/-! ## Operators -/

/-- An operator with an operand on either side. What is done before and after its right operand
checks nothing. -/
theorem reaches_operator {β : Type} {q q' level : Power} {a b e : Expr} {ts us' : List Token}
    (x : Build β) (y : β → Build Unit) [Lenient x] [Still x] [∀ j, Lenient (y j)]
    [∀ j, Still (y j)] [∀ j, Keeps (y j)]
    (hcont : ∀ n canAssign, continuation n (within n) canAssign t.kind =
      (x >>= fun j => within n q' >>= fun _ => y j))
    (ha : Reaches q a ts) (hleft : Follows q a t) (hlevel : level ≤ q)
    (hpower : level ≤ Power.ofKind t.kind) (hb : Reaches q' b us') (hassign' : Power.assignment ≤ q')
    (hunary' : q' ≤ .unary) (hstop : ∀ k : TokenKind, (Power.ofKind k).left ≤ level →
      ¬ q' ≤ Power.ofKind k ∧ (Power.ofKind k).left ≤ q') (huses : e.uses = a.uses ++ b.uses) :
    Reaches level e (ts ++ t :: us') := by
  intro n p s t' us c hassign hp hunary hs hn hc hfollows Q vs R hrest
  have hs : s.At (ts ++ t :: (us' ++ t' :: us)) := by simpa using hs
  have hn : (ts ++ t :: (us' ++ t' :: us)).length ≤ n + 1 ∧ (us' ++ t' :: us).length ≤ n := by
    simp only [List.length_append, List.length_cons] at hn ⊢
    omega
  have hallows : c.AllowsAll e.uses ∧ Q ↔ c.AllowsAll a.uses ∧ c.AllowsAll b.uses ∧ Q := by
    rw [huses, Scope.allowsAll_append, and_assoc]
  rw [hallows]
  refine ha hassign (Power.le_trans hp hlevel) hunary hs hn.1 hc hleft fun s₁ m hat₁ hc₁ hm => ?_
  obtain _ | m := m
  · simp at hm
  refine rest_step hat₁ hassign (Power.le_trans hp hpower) fun s₂ hr₂ hat₂ _ => ?_
  have hc₂ := hc₁.stays hr₂.stays
  rw [hcont, bind_assoc]
  refine .lenient hat₂ fun j s₃ h₃ hat₃ => ?_
  have hc₃ := hc₂.stays h₃.stays
  obtain ⟨hstops, hright⟩ := hstop t'.kind hfollows.power
  rw [bind_assoc]
  refine (hb.whole hassign' hunary' hat₃ hn.2 hc₃ hright hfollows.equal hstops).bind hat₃.sound
    fun _ s₄ h₄ hat₄ _ _ => .lenient hat₄ fun _ s₅ h₅ hat₅ => ?_
  refine hrest s₅ m hat₅ ((hc₃.stays h₄.stays).stays h₅.stays) ?_
  simp only [List.length_append, List.length_cons] at hm ⊢
  omega

theorem reaches_binary {q : Power} {a b : Expr} {ts us : List Token} (op : BinaryOp) (hk : t.kind = op.kind)
    (hq : Tightens op.power q) (ha : Reaches op.power a ts) (hb : Reaches q b us) :
    Reaches op.power (.binary op a b) (ts ++ t :: us) := by
  obtain rfl := hq.next_eq
  refine reaches_operator (pure ()) (fun _ => (operations t.kind).forM emit)
    (fun n canAssign => ?_) ha ?_ (Power.le_refl _) ?_ hb ?_ ?_
    (fun k h => Power.not_next_le_of_left_le h) rfl
  · rw [hk, pure_bind]
    cases op <;> rfl
  · refine ⟨?_, ?_, fun _ => ?_⟩ <;> rw [hk] <;> cases op <;> decide
  · rw [hk, op.ofKind_kind]
    exact Power.le_refl _
  · cases op <;> decide
  · cases op <;> decide

theorem reaches_and {a b : Expr} {ts us : List Token} (hk : t.kind = .kwAnd)
    (ha : Reaches .equality a ts) (hb : Reaches .and b us) :
    Reaches .and (.and a b) (ts ++ t :: us) := by
  refine reaches_operator (emitJump .jumpIfFalse >>= fun j => emit .pop >>= fun _ => pure j) patchJump
    (fun n canAssign => ?_) ha ?_ (by decide) ?_ hb (by decide) (by decide)
    (fun k h => ⟨Power.not_le_of_left_le (by simp) h, h⟩) rfl
  · rw [hk, bind_assoc]
    simp only [bind_assoc, pure_bind]
    rfl
  · exact ⟨by rw [hk]; decide, by rw [hk]; nofun, fun _ => by rw [hk]; nofun⟩
  · rw [hk]
    decide

theorem reaches_or {a b : Expr} {ts us : List Token} (hk : t.kind = .kwOr)
    (ha : Reaches .and a ts) (hb : Reaches .or b us) :
    Reaches .or (.or a b) (ts ++ t :: us) := by
  refine reaches_operator
    (do
      let elseJump ← emitJump .jumpIfFalse
      let endJump ← emitJump .jump
      patchJump elseJump
      emit .pop
      return endJump) patchJump
    (fun n canAssign => ?_) ha ?_ (by decide) ?_ hb (by decide) (by decide)
    (fun k h => ⟨Power.not_le_of_left_le (by simp) h, h⟩) rfl
  · rw [hk]
    simp only [bind_assoc, pure_bind]
    rfl
  · exact ⟨by rw [hk]; decide, by rw [hk]; nofun, fun _ => by rw [hk]; nofun⟩
  · rw [hk]
    decide

/-! ## Arguments -/

/-- The parser for arguments reads the tokens `ts`. -/
def ReachesAll (es : List Expr) (ts : List Token) : Prop :=
  ∀ {n b count s r us c}, es ≠ [] → s.At (ts ++ r :: us) → r.kind = .rightParen →
    (ts ++ r :: us).length ≤ n → (ts ++ r :: us).length ≤ b → s.Sees c →
    Decides (argumentsFrom (within n) b count s) (c.AllowsAll (usesOfAll es)) (r :: us)
      fun _ _ => True

/-- An argument is followed by a comma or the end of the arguments. -/
theorem Reaches.argument {e : Expr} {ts : List Token} (h : Reaches .assignment e ts)
    (hs : s.At (ts ++ t :: us)) (hn : (ts ++ t :: us).length ≤ n) (hc : s.Sees c)
    (hk : Power.ofKind t.kind = .none) (hequal : t.kind ≠ .equal) :
    Decides (within n .assignment s) (c.AllowsAll e.uses) (t :: us) fun _ _ => True :=
  h.whole (Power.le_refl _) (by decide) hs hn hc (by rw [hk]; decide) hequal (by rw [hk]; decide)

theorem reachesAll_singleton {e : Expr} {ts : List Token} (h : Reaches .assignment e ts) :
    ReachesAll [e] ts := by
  intro n b count s r us c _ hs hr hn hb hc
  obtain _ | b := b
  · simp at hb
  rw [usesOfAll, usesOfAll, List.append_nil, argumentsFrom]
  refine (h.argument hs hn hc (by rw [hr]; rfl) (by rw [hr]; nofun)).first hs.sound
    fun _ s₁ _ hat₁ _ _ => ?_
  dsimp only
  split
  · exact .limit hat₁ trivial
  · exact .acceptNot (by rw [hat₁.current, hr]; nofun) (.accepts trivial hat₁ trivial)

theorem reachesAll_cons {e e' : Expr} {es : List Expr} {comma : Token} {ts us' : List Token}
    (hk : comma.kind = .comma) (h : Reaches .assignment e ts) (h' : ReachesAll (e' :: es) us') :
    ReachesAll (e :: e' :: es) (ts ++ comma :: us') := by
  intro n b count s r us c _ hs hr hn hb hc
  obtain _ | b := b
  · simp at hb
  have hs : s.At (ts ++ comma :: (us' ++ r :: us)) := by simpa using hs
  have hlen : (ts ++ comma :: (us' ++ r :: us)).length ≤ n ∧ (us' ++ r :: us).length ≤ n ∧
      (us' ++ r :: us).length ≤ b := by
    simp only [List.length_append, List.length_cons] at hn hb ⊢
    omega
  rw [usesOfAll, argumentsFrom, Scope.allowsAll_append]
  refine (h.argument hs hlen.1 hc (by rw [hk]; rfl) (by rw [hk]; simp)).bind hs.sound
    fun _ s₁ h₁ hat₁ _ _ => ?_
  dsimp only
  split
  · exact .limit hat₁ trivial
  · refine .accept hat₁ hk (by simp) fun s₂ hr₂ hat₂ _ => ?_
    exact h' (by simp) hat₂ hr hlen.2.1 hlen.2.2 ((hc.stays h₁.stays).stays hr₂.stays)

/-- Arguments in parentheses. -/
theorem arguments_decides {es : List Expr} {ts : List Token} {r : Token}
    (hd : Derives (.arguments es) ts) (h : ReachesAll es ts) (hs : s.At (ts ++ r :: us))
    (hr : r.kind = .rightParen) (hn : (ts ++ r :: us).length ≤ n) (hc : s.Sees c) :
    Decides (arguments n (within n) s) (c.AllowsAll (usesOfAll es)) us fun _ _ => True := by
  rw [arguments, bind_of_run (check_run _ _)]
  cases es with
  | nil =>
      cases hd
      have hkind : s.current.kind = .rightParen := by rw [hs.current, hr]
      dsimp only
      rw [if_pos (decide_eq_true hkind), pure_bind]
      refine .expect hs hr fun s₁ _ hat₁ _ => .accepts ?_ hat₁ trivial
      exact c.allowsAll_nil
  | cons e es =>
      have hkind : s.current.kind ≠ .rightParen := by
        obtain ⟨t, ts, rfl⟩ := List.exists_cons_of_length_pos (hd.pos rfl)
        have hbegins := hd.begins t rfl
        rw [hs.current]
        intro hk
        rw [Phrase.BeginsWith, hk] at hbegins
        exact hbegins
      dsimp only
      rw [if_neg (by simpa using hkind)]
      refine (h (by simp) hs hr hn hn hc).first hs.sound fun _ s₁ h₁ hat₁ _ _ => ?_
      exact .expect hat₁ hr fun s₂ _ hat₂ _ => .accepts trivial hat₂ trivial

/-! ## Calls and properties -/

theorem reaches_call {f : Expr} {as : List Expr} {l r : Token} {ts us' : List Token}
    (hl : l.kind = .leftParen) (hr : r.kind = .rightParen) (hf : f.isProperty = false)
    (h : Reaches .call f ts) (hd : Derives (.arguments as) us') (h' : ReachesAll as us') :
    Reaches .call (.call f as) (ts ++ l :: us' ++ [r]) := by
  intro n p s t us c hassign hp hunary hs hn hc _ Q vs R hrest
  have hs : s.At (ts ++ l :: (us' ++ r :: t :: us)) := by simpa using hs
  have hn : (ts ++ l :: (us' ++ r :: t :: us)).length ≤ n + 1 ∧
      (us' ++ r :: t :: us).length ≤ n := by
    simp only [List.length_append, List.length_cons, List.length_nil] at hn ⊢
    omega
  have huses : (Expr.call f as).uses = f.uses ++ usesOfAll as := by
    cases f <;> first | rfl | cases hf
  rw [huses, Scope.allowsAll_append, and_assoc]
  have hfollows : Follows .call f l := follows_call hl rfl fun hp => nomatch hf.symm.trans hp
  refine h hassign hp hunary hs hn.1 hc hfollows fun s₁ m hat₁ hc₁ hm => ?_
  obtain _ | m := m
  · simp at hm
  have hpower : p ≤ Power.ofKind l.kind := by
    rw [hl]
    exact hp
  refine rest_step hat₁ hassign hpower fun s₂ hr₂ hat₂ _ => ?_
  have hc₂ := hc₁.stays hr₂.stays
  have hcall : continuation n (within n) (p ≤ .assignment) l.kind =
      (arguments n (within n) >>= fun count => emitWith .call count) := by
    rw [hl]
    rfl
  rw [hcall, bind_assoc]
  refine (arguments_decides hd h' hat₂ hr hn.2 hc₂).bind hat₂.sound fun count s₃ h₃ hat₃ _ _ =>
    .lenient hat₃ fun _ s₄ h₄ hat₄ => ?_
  refine hrest s₄ m hat₄ ((hc₂.stays h₃.stays).stays h₄.stays) ?_
  simp only [List.length_append, List.length_cons] at hm ⊢
  omega

/-- What is done with a property whose name has been read. -/
def member (n : Nat) (canAssign : Bool) (name : Nat) : Build Unit := do
  if ← assigns canAssign then
    within n .assignment
    emitWith .setProperty name
  else if ← accept .leftParen then
    let count ← arguments n (within n)
    emitWith .invoke name
    emitByte count.toUInt8
  else emitWith .getProperty name

theorem property_eq (n : Nat) (canAssign : Bool) : property n (within n) canAssign = (do
    expect .propertyName
    let name ← nameConstant (← lastText)
    member n canAssign name) :=
  rfl

instance (canAssign : Bool) (name : Nat) : Keeps (member n canAssign name) := by
  unfold member
  infer_instance

theorem reaches_member {o : Expr} {ts : List Token} {dot name : Token} (hdot : dot.kind = .dot)
    (hname : name.kind = .identifier) (h : Reaches .call o ts) (hassign : Power.assignment ≤ p)
    (hp : p ≤ .call) (hunary : p ≤ .unary) (hs : s.At (ts ++ dot :: name :: us))
    (hn : (ts ++ dot :: name :: us).length ≤ n + 1) (hc : s.Sees c) {Q : Prop}
    {R : Unit → Builder → Prop} (hrest : ∀ s' k b, s'.At us → s'.Sees c → us.length ≤ b →
      Decides ((member n (p ≤ .assignment) k >>= fun _ => rest n p b) s') Q vs R) :
    Decides (rule n (within n) p s) (c.AllowsAll o.uses ∧ Q) vs R := by
  have hfollows : Follows .call o dot := follows_call hdot rfl nofun
  refine h hassign hp hunary hs hn hc hfollows fun s₁ m hat₁ hc₁ hm => ?_
  obtain _ | m := m
  · simp at hm
  have hpower : p ≤ Power.ofKind dot.kind := by
    rw [hdot]
    exact hp
  refine rest_step hat₁ hassign hpower fun s₂ hr₂ hat₂ _ => ?_
  have hc₂ := hc₁.stays hr₂.stays
  have hproperty : continuation n (within n) (p ≤ .assignment) dot.kind =
      property n (within n) (p ≤ .assignment) := by
    rw [hdot]
    rfl
  rw [hproperty, property_eq, bind_assoc]
  refine .expect hat₂ hname fun s₃ hr₃ hat₃ _ => ?_
  have hc₃ := hc₂.stays hr₃.stays
  rw [bind_assoc, bind_of_run (lastText_run s₃), bind_assoc]
  refine .lenient hat₃ fun k s₄ h₄ hat₄ => hrest s₄ k m hat₄ (hc₃.stays h₄.stays) ?_
  simp only [List.length_cons] at hm
  omega

theorem reaches_get {o : Expr} {ts : List Token} {dot name : Token} (hdot : dot.kind = .dot)
    (hname : name.kind = .identifier) (h : Reaches .call o ts) :
    Reaches .call (.get o name.text) (ts ++ [dot, name]) := by
  intro n p s t us c hassign hp hunary hs hn hc hfollows Q vs R hrest
  rw [List.append_assoc] at hs hn
  refine reaches_member hdot hname h hassign hp hunary hs hn hc fun s₁ k m hat₁ hc₁ hm => ?_
  rw [member, bind_assoc]
  refine decides_notAssigned (hat₁.current ▸ hfollows.equal) ?_
  change Decides (((accept .leftParen >>= _) >>= _) s₁) Q vs R
  rw [bind_assoc]
  refine .acceptNot (hat₁.current ▸ hfollows.property rfl) ?_
  exact .lenient (x := emitWith .getProperty k) hat₁ fun _ s₂ h₂ hat₂ =>
    hrest s₂ m hat₂ (hc₁.stays h₂.stays) hm

theorem reaches_set {o e : Expr} {ts us' : List Token} {dot name : Token} (hdot : dot.kind = .dot)
    (hname : name.kind = .identifier) (hk : t.kind = .equal) (h : Reaches .call o ts)
    (h' : Reaches .assignment e us') :
    Reaches .assignment (.set o name.text e) (ts ++ dot :: name :: t :: us') := by
  intro n p s t' us c hassign hp hunary hs hn hc hfollows Q vs R hrest
  obtain rfl : p = .assignment := Power.rank_injective (Nat.le_antisymm hp hassign)
  have hs : s.At (ts ++ dot :: name :: t :: (us' ++ t' :: us)) := by simpa using hs
  have hn : (ts ++ dot :: name :: t :: (us' ++ t' :: us)).length ≤ n + 1 ∧
      (us' ++ t' :: us).length ≤ n := by
    simp only [List.length_append, List.length_cons] at hn ⊢
    omega
  rw [Expr.uses, Scope.allowsAll_append, and_assoc]
  refine reaches_member hdot hname h hassign (by decide) hunary hs hn.1 hc
    fun s₁ k m hat₁ hc₁ hm => ?_
  rw [member, bind_assoc]
  refine .accept hat₁ hk nofun fun s₂ hr₂ hat₂ _ => ?_
  have hc₂ := hc₁.stays hr₂.stays
  change Decides ((within n .assignment >>= fun _ => emitWith .setProperty k >>= fun _ =>
    rest n .assignment m) s₂) _ vs R
  refine (h'.whole hassign hunary hat₂ hn.2 hc₂ hfollows.power hfollows.equal
    (Power.not_le_of_left_le (.inl rfl) hfollows.power)).bind hat₂.sound
    fun _ s₃ h₃ hat₃ _ _ => .lenient hat₃ fun _ s₄ h₄ hat₄ => ?_
  refine hrest s₄ m hat₄ ((hc₂.stays h₃.stays).stays h₄.stays) ?_
  simp only [List.length_append, List.length_cons] at hm ⊢
  omega

theorem reaches_invoke {o : Expr} {as : List Expr} {ts us' : List Token} {dot name l r : Token}
    (hdot : dot.kind = .dot) (hname : name.kind = .identifier) (hl : l.kind = .leftParen)
    (hr : r.kind = .rightParen) (h : Reaches .call o ts) (hd : Derives (.arguments as) us')
    (h' : ReachesAll as us') :
    Reaches .call (.call (.get o name.text) as) (ts ++ [dot, name] ++ l :: us' ++ [r]) := by
  intro n p s t us c hassign hp hunary hs hn hc hfollows Q vs R hrest
  have hs : s.At (ts ++ dot :: name :: l :: (us' ++ r :: t :: us)) := by simpa using hs
  have hn : (ts ++ dot :: name :: l :: (us' ++ r :: t :: us)).length ≤ n + 1 ∧
      (us' ++ r :: t :: us).length ≤ n := by
    simp only [List.length_append, List.length_cons, List.length_nil] at hn ⊢
    omega
  rw [Expr.uses, Expr.uses, Scope.allowsAll_append, and_assoc]
  · refine reaches_member hdot hname h hassign hp hunary hs hn.1 hc fun s₁ k m hat₁ hc₁ hm => ?_
    rw [member, bind_assoc]
    refine decides_notAssigned (by rw [hat₁.current, hl]; nofun) ?_
    change Decides (((accept .leftParen >>= _) >>= _) s₁) _ vs R
    rw [bind_assoc]
    refine .accept hat₁ hl nofun fun s₂ hr₂ hat₂ _ => ?_
    have hc₂ := hc₁.stays hr₂.stays
    change Decides ((arguments n (within n) >>= fun count => emitWith .invoke k >>= fun _ =>
      emitByte count.toUInt8 >>= fun _ => rest n p m) s₂) _ vs R
    refine (arguments_decides hd h' hat₂ hr hn.2 hc₂).bind hat₂.sound fun count s₃ h₃ hat₃ _ _ =>
      .lenient hat₃ fun _ s₄ h₄ hat₄ => .lenient hat₄ fun _ s₅ h₅ hat₅ => ?_
    refine hrest s₅ m hat₅ (((hc₂.stays h₃.stays).stays h₄.stays).stays h₅.stays) ?_
    simp only [List.length_append, List.length_cons] at hm ⊢
    omega
  · nofun

/-! ## Superclasses -/

/-- What is done with a method of the superclass whose name has been read. -/
def superMember (n : Nat) (name : Nat) : Build Unit := do
  if ← accept .leftParen then
    let count ← arguments n (within n)
    readNamed "super"
    emitWith .superInvoke name
    emitByte count.toUInt8
  else
    readNamed "super"
    emitWith .getSuper name

instance (name : Nat) : Keeps (superMember n name) := by
  unfold superMember
  infer_instance

/-- A method of the superclass, behind `super`. -/
def superName (n : Nat) : Build Unit := do
  expect .superDot
  expect .superclassMethodName
  let name ← nameConstant (← lastText)
  readNamed "this"
  superMember n name

instance : Keeps (superName n) := by
  unfold superName
  infer_instance

theorem super_run (hclass : s.classes.head? = some true) :
    super n (within n) s = superName n s := by
  rw [super, get_bind_run, hclass]
  rfl

theorem super_refused (hclass : s.classes.head? ≠ some true) :
    ∃ d : Defect, d.IsStatic ∧ super n (within n) s = (error d >>= fun _ => superName n) s := by
  rw [super, get_bind_run]
  cases h : s.classes.head? with
  | none => exact ⟨.superOutsideClass, trivial, rfl⟩
  | some hasSuperclass =>
      cases hasSuperclass with
      | true => exact absurd h hclass
      | false => exact ⟨.superWithoutSuperclass, trivial, rfl⟩

theorem allows_super {c : Scope} : c.AllowsAll [.this, .super] ↔ c.classes.head? = some true := by
  simp only [Scope.allowsAll_cons, Scope.Allows, Scope.allowsAll_nil, and_true]
  exact ⟨And.right, fun h => ⟨fun hnil => by simp [hnil] at h, h⟩⟩

theorem reaches_superMember {dot name : Token} (hk : t.kind = .kwSuper) (hdot : dot.kind = .dot)
    (hname : name.kind = .identifier) (hs : s.At (t :: dot :: name :: us)) (hc : s.Sees c) {Q : Prop}
    {R : Unit → Builder → Prop} (hrest : ∀ s' k, s'.At us → s'.Sees c →
      Decides ((superMember n k >>= fun _ => rest n p n) s') Q vs R) :
    Decides (rule n (within n) p s) (c.AllowsAll [.this, .super] ∧ Q) vs R := by
  refine rule_first hs (x := super n (within n)) (by rw [hk]; rfl) fun s₁ hr₁ hat₁ _ => ?_
  have hc₁ := hc.stays hr₁.stays
  by_cases hclass : c.classes.head? = some true
  · refine Decides.congr (P := Q) ?_ (and_iff_right (allows_super.mpr hclass)).symm
    rw [bind_run_congr (super_run (hc₁.classes ▸ hclass)), superName]
    simp only [bind_assoc]
    refine .expect hat₁ hdot fun s₂ hr₂ hat₂ _ => .expect hat₂ hname fun s₃ hr₃ hat₃ _ => ?_
    have hc₃ := (hc₁.stays hr₂.stays).stays hr₃.stays
    rw [bind_of_run (lastText_run s₃)]
    refine .lenient hat₃ fun k s₄ h₄ hat₄ => ?_
    have hc₄ := hc₃.stays h₄.stays
    exact ((readReserved_decides hat₄ hc₄ fun h => h.2.2 rfl).bind hat₄.sound
      fun _ s₅ h₅ hat₅ _ _ => hrest s₅ k hat₅ (hc₄.stays h₅.stays)).congr (and_iff_right trivial)
  · obtain ⟨d, -, hrun⟩ := super_refused (n := n) (hc₁.classes ▸ hclass)
    have hrest : (super n (within n) >>= fun _ => rest n p n) s₁ =
        (error d >>= fun _ => superName n >>= fun _ => rest n p n) s₁ := by
      rw [bind_run_congr hrun, bind_assoc]
    rw [hrest]
    exact .error hat₁ fun h => hclass (allows_super.mp h.1)

theorem reaches_super {dot name : Token} (hk : t.kind = .kwSuper) (hdot : dot.kind = .dot)
    (hname : name.kind = .identifier) : Reaches .primary (.super name.text) [t, dot, name] := by
  intro n p s t' us c _ _ _ hs hn hc hfollows Q vs R hrest
  refine reaches_superMember hk hdot hname hs hc fun s₁ k hat₁ hc₁ => ?_
  rw [superMember, bind_assoc]
  refine .acceptNot (hat₁.current ▸ hfollows.property rfl) ?_
  change Decides ((readNamed "super" >>= fun _ => emitWith .getSuper k >>= fun _ => rest n p n) s₁)
    Q vs R
  refine Decides.congr ((readReserved_decides hat₁ hc₁ fun h => h.2.1 rfl).bind hat₁.sound
    fun _ s₂ h₂ hat₂ _ _ => .lenient hat₂ fun _ s₃ h₃ hat₃ => ?_) (and_iff_right trivial)
  refine hrest s₃ n hat₃ ((hc₁.stays h₂.stays).stays h₃.stays) ?_
  simp only [List.length_append, List.length_cons] at hn ⊢
  omega

theorem reaches_superInvoke {as : List Expr} {us' : List Token} {dot name l r : Token}
    (hk : t.kind = .kwSuper) (hdot : dot.kind = .dot) (hname : name.kind = .identifier)
    (hl : l.kind = .leftParen) (hr : r.kind = .rightParen) (hd : Derives (.arguments as) us')
    (h : ReachesAll as us') :
    Reaches .call (.call (.super name.text) as) ([t, dot, name] ++ l :: us' ++ [r]) := by
  intro n p s t' us c _ _ _ hs hn hc _ Q vs R hrest
  have hs : s.At (t :: dot :: name :: l :: (us' ++ r :: t' :: us)) := by simpa using hs
  have hn : (us' ++ r :: t' :: us).length ≤ n ∧ (t' :: us).length ≤ n := by
    simp only [List.length_append, List.length_cons, List.length_nil] at hn ⊢
    omega
  have hallows : c.AllowsAll (Expr.call (.super name.text) as).uses ∧ Q ↔
      c.AllowsAll [.this, .super] ∧ c.AllowsAll (usesOfAll as) ∧ Q := by
    simp only [Expr.uses, Scope.allowsAll_cons, Scope.allowsAll_append, Scope.allowsAll_nil]
    tauto
  rw [hallows]
  refine reaches_superMember hk hdot hname hs hc fun s₁ k hat₁ hc₁ => ?_
  rw [superMember, bind_assoc]
  refine .accept hat₁ hl (by simp) fun s₂ hr₂ hat₂ _ => ?_
  have hc₂ := hc₁.stays hr₂.stays
  change Decides ((arguments n (within n) >>= fun count => readNamed "super" >>= fun _ =>
    emitWith .superInvoke k >>= fun _ => emitByte count.toUInt8 >>= fun _ => rest n p n) s₂) _ vs R
  refine (arguments_decides hd h hat₂ hr hn.1 hc₂).bind hat₂.sound fun count s₃ h₃ hat₃ _ _ => ?_
  have hc₃ := hc₂.stays h₃.stays
  refine Decides.congr ((readReserved_decides hat₃ hc₃ fun h => h.2.1 rfl).bind hat₃.sound
    fun _ s₄ h₄ hat₄ _ _ => .lenient hat₄ fun _ s₅ h₅ hat₅ => .lenient hat₅
    fun _ s₆ h₆ hat₆ => ?_) (and_iff_right trivial)
  exact hrest s₆ n hat₆ (((hc₃.stays h₄.stays).stays h₅.stays).stays h₆.stays) hn.2

/-! ## Whole expressions -/

/-- What is shown of phrases by induction on the grammar. The object of a property can be read on
its own, as a call of the property has rules of its own. -/
def Readable : Phrase → List Token → Prop
  | .expression q e, ts => Reaches q e ts ∧ ∀ o name, e = .get o name → q = .call →
      ∃ ts' dot t, ts = ts' ++ [dot, t] ∧ dot.kind = .dot ∧ t.kind = .identifier ∧ t.text = name ∧
        Reaches .call o ts'
  | .arguments es, ts => ReachesAll es ts
  | _, _ => True

theorem Reaches.readable {q : Power} {e : Expr} {ts : List Token} (h : Reaches q e ts)
    (he : ∀ o name, e ≠ .get o name) : Readable (.expression q e) ts :=
  ⟨h, fun o name heq => absurd heq (he o name)⟩

theorem Reaches.tighter {q q' : Power} {e : Expr} {ts : List Token} (h : Reaches q' e ts)
    (hq : Tightens q q') : Reaches q e ts := by
  have hle := hq.le
  intro n p s t us c hassign hp hunary hs hn hc hfollows Q vs R hrest
  exact h hassign (Power.le_trans hp hle) hunary hs hn hc
    ⟨Power.le_trans hfollows.power hle, hfollows.equal, hfollows.property⟩ hrest

theorem readable {x : Phrase} {ts : List Token} (h : Derives x ts) : Readable x ts := by
  induction h with
  | number hk hm => exact Reaches.readable (reaches_number hk hm) nofun
  | string hk => exact Reaches.readable (reaches_string hk) nofun
  | nil hk => exact Reaches.readable (reaches_literal (fun _ _ => by rw [hk]; rfl) rfl) nofun
  | true hk => exact Reaches.readable (reaches_literal (fun _ _ => by rw [hk]; rfl) rfl) nofun
  | false hk => exact Reaches.readable (reaches_literal (fun _ _ => by rw [hk]; rfl) rfl) nofun
  | «variable» hk => exact Reaches.readable (reaches_variable hk) nofun
  | this hk => exact Reaches.readable (reaches_this hk) nofun
  | super hk hdot hname => exact Reaches.readable (reaches_super hk hdot hname) nofun
  | grouping hl hr _ ih => exact Reaches.readable (reaches_grouping hl hr ih.1) nofun
  | @call l r f as ts us hl hr hf has ih ih' =>
      refine Reaches.readable ?_ nofun
      cases f with
      | get o name =>
          obtain ⟨ts', dot, t, rfl, hdot, ht, rfl, ho⟩ := ih.2 o name rfl rfl
          exact reaches_invoke hdot ht hl hr ho has ih'
      | super name =>
          obtain ⟨t, dot, nm, rfl, hk, hdot, hname, rfl⟩ := hf.eq_super rfl
          exact reaches_superInvoke hk hdot hname hl hr has ih'
      | _ => exact reaches_call hl hr rfl ih.1 has ih'
  | get hdot hname _ ih =>
      refine ⟨reaches_get hdot hname ih.1, fun o name heq _ => ?_⟩
      obtain ⟨rfl, rfl⟩ := Expr.get.inj heq
      exact ⟨_, _, _, rfl, hdot, hname, rfl, ih.1⟩
  | unary op hk _ ih => exact Reaches.readable (reaches_unary op hk ih.1) nofun
  | binary op hk hq _ _ ih ih' => exact Reaches.readable (reaches_binary op hk hq ih.1 ih'.1) nofun
  | and hk _ _ ih ih' => exact Reaches.readable (reaches_and hk ih.1 ih'.1) nofun
  | or hk _ _ ih ih' => exact Reaches.readable (reaches_or hk ih.1 ih'.1) nofun
  | assign hname hk _ ih => exact Reaches.readable (reaches_assign hname hk ih.1) nofun
  | set hdot hname hk _ _ ih ih' => exact Reaches.readable (reaches_set hdot hname hk ih.1 ih'.1) nofun
  | tighter hq hd ih =>
      refine ⟨Reaches.tighter ih.1 hq, fun o name heq hcall => ?_⟩
      subst heq hcall
      cases hq
      exact (hd.get_not_primary rfl).elim
  | noArguments => exact fun hne => absurd rfl hne
  | lastArgument _ ih => exact reachesAll_singleton ih.1
  | argument hk _ _ ih ih' => exact reachesAll_cons hk ih.1 ih'
  | _ => trivial

/-- An expression is read up to a token that cannot continue it, and whether it is accepted is
decided by the names in it. -/
theorem parse_decides {e : Expr} {ts : List Token} (hd : Derives (.expression .assignment e) ts)
    (hs : s.At (ts ++ t :: us)) (hn : (ts ++ t :: us).length ≤ n + 1) (hc : s.Sees c)
    (hk : Power.ofKind t.kind = .none) (hequal : t.kind ≠ .equal) :
    Decides (parse n .assignment s) (c.AllowsAll e.uses) (t :: us) fun _ _ => True :=
  Reaches.argument (readable hd).1 (n := n + 1) hs hn hc hk hequal

end LoxMachine.Expression
