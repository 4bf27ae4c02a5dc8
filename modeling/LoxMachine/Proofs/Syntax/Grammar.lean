import LoxMachine.Proofs.Syntax.Tree

/-!
# The grammar

`Derives x ts`: the phrase `x` is written by the tokens `ts`. Expressions are stratified by how
tightly they bind, from assignments down to primaries; operators of one level group to the left,
`and`, `or` and assignments to the right. An `else` belongs to the nearest condition, so the branch
in front of it is not open.
-/

namespace LoxMachine

/-! ## Levels -/

namespace Power

/-- How tightly the left operand of an operator binds at least. -/
def left : Power → Power
  | .or => .and
  | .and => .equality
  | p => p

theorem le_refl (p : Power) : p ≤ p :=
  Nat.le_refl p.rank

theorem le_trans {p q r : Power} (h : p ≤ q) (h' : q ≤ r) : p ≤ r :=
  Nat.le_trans (m := q.rank) h h'

theorem rank_injective {p q : Power} (h : p.rank = q.rank) : p = q := by
  cases p <;> cases q <;> first | rfl | cases h

/-- What cannot be part of the right operand of an operator takes the whole as its left operand. -/
theorem left_le_power {op : Syntax.BinaryOp} {r : Power} (h : ¬ op.power.next ≤ r) :
    r.left ≤ op.power := by
  cases op <;> cases r <;> first | decide | exact absurd (by decide) h

/-- The same for an operator that groups to the right. -/
theorem left_le_of_not_le {q r : Power} (h : ¬ q ≤ r) : r.left ≤ q := by
  cases q <;> cases r <;> first | decide | exact absurd (by decide) h

/-- What takes the whole as its left operand cannot be part of the right operand of an operator. -/
theorem not_next_le_of_left_le {op : Syntax.BinaryOp} {r : Power} (h : r.left ≤ op.power) :
    ¬ op.power.next ≤ r ∧ r.left ≤ op.power.next := by
  cases op <;> cases r <;> first | decide | exact absurd h (by decide)

/-- The same for an operator that groups to the right, and for one in front of its operand. -/
theorem not_le_of_left_le {q : Power} (hq : q = .assignment ∨ q = .or ∨ q = .and ∨ q = .unary)
    {k : TokenKind} (h : (ofKind k).left ≤ q) : ¬ q ≤ ofKind k := by
  rcases hq with rfl | rfl | rfl | rfl <;> cases k <;>
    first | exact of_decide_eq_false rfl | exact absurd h (of_decide_eq_false rfl)

theorem left_le_primary (r : Power) : r.left ≤ .primary := by
  cases r <;> decide

theorem left_ofKind_le_call (k : TokenKind) : (ofKind k).left ≤ .call := by
  cases k <;> exact of_decide_eq_true rfl

end Power

namespace Syntax

/-- The levels of expressions. Without an operator of its own level, an expression is one of the next. -/
inductive Tightens : Power → Power → Prop where
  | assignment : Tightens .assignment .or
  | or : Tightens .or .and
  | and : Tightens .and .equality
  | equality : Tightens .equality .comparison
  | comparison : Tightens .comparison .term
  | term : Tightens .term .factor
  | factor : Tightens .factor .unary
  | unary : Tightens .unary .call
  | call : Tightens .call .primary

theorem Tightens.next_eq {p q : Power} (h : Tightens p q) : p.next = q := by
  cases h <;> rfl

theorem Tightens.rank {p q : Power} (h : Tightens p q) : q.rank = p.rank + 1 := by
  cases h <;> rfl

theorem Tightens.le {p q : Power} (h : Tightens p q) : p ≤ q := by
  cases h <;> decide

theorem tightens_next {p : Power} (hassign : Power.assignment ≤ p) (hcall : p ≤ Power.call) :
    Tightens p p.next := by
  cases p <;> first | constructor | exact absurd hassign (by decide) | exact absurd hcall (by decide)

theorem BinaryOp.tightens (op : BinaryOp) : Tightens op.power op.power.next := by
  cases op <;> constructor

/-! ## Phrases -/

/-- What tokens can write. -/
inductive Phrase where
  | expression (p : Power) (e : Expr)
  /-- Expressions with commas between them. -/
  | arguments (es : List Expr)
  /-- An expression or nothing. -/
  | optional (e : Option Expr)
  | statement (s : Stmt)
  /-- The first clause of a `for`, with its semicolon. -/
  | first (s : Option Stmt)
  | declaration (s : Stmt)
  | declarations (ss : List Stmt)
  /-- Names with commas between them. -/
  | parameters (names : List String)
  /-- A function from its name on. -/
  | function (f : Fun Stmt)
  | methods (fs : List (Fun Stmt))

inductive Derives : Phrase → List Token → Prop where
  -- Primaries
  | number {t n} : t.kind = .number → Number.ofLiteral? t.text = some n →
      Derives (.expression .primary (.number n)) [t]
  | string {t} : t.kind = .string → Derives (.expression .primary (.string t.contents)) [t]
  | nil {t} : t.kind = .kwNil → Derives (.expression .primary .nil) [t]
  | true {t} : t.kind = .kwTrue → Derives (.expression .primary (.boolean true)) [t]
  | false {t} : t.kind = .kwFalse → Derives (.expression .primary (.boolean false)) [t]
  | variable {t} : t.kind = .identifier → Derives (.expression .primary (.variable t.text)) [t]
  | this {t} : t.kind = .kwThis → Derives (.expression .primary .this) [t]
  | super {t dot name} : t.kind = .kwSuper → dot.kind = .dot → name.kind = .identifier →
      Derives (.expression .primary (.super name.text)) [t, dot, name]
  | grouping {l r e ts} : l.kind = .leftParen → r.kind = .rightParen →
      Derives (.expression .assignment e) ts →
      Derives (.expression .primary (.grouping e)) (l :: ts ++ [r])
  -- Calls and properties
  | call {l r f as ts us} : l.kind = .leftParen → r.kind = .rightParen →
      Derives (.expression .call f) ts → Derives (.arguments as) us →
      Derives (.expression .call (.call f as)) (ts ++ l :: us ++ [r])
  | get {dot name o ts} : dot.kind = .dot → name.kind = .identifier →
      Derives (.expression .call o) ts →
      Derives (.expression .call (.get o name.text)) (ts ++ [dot, name])
  -- Operators
  | unary {t e ts} (op : UnaryOp) : t.kind = op.kind → Derives (.expression .unary e) ts →
      Derives (.expression .unary (.unary op e)) (t :: ts)
  | binary {t q a b ts us} (op : BinaryOp) : t.kind = op.kind → Tightens op.power q →
      Derives (.expression op.power a) ts → Derives (.expression q b) us →
      Derives (.expression op.power (.binary op a b)) (ts ++ t :: us)
  | and {t a b ts us} : t.kind = .kwAnd →
      Derives (.expression .equality a) ts → Derives (.expression .and b) us →
      Derives (.expression .and (.and a b)) (ts ++ t :: us)
  | or {t a b ts us} : t.kind = .kwOr →
      Derives (.expression .and a) ts → Derives (.expression .or b) us →
      Derives (.expression .or (.or a b)) (ts ++ t :: us)
  -- Assignments
  | assign {name t e ts} : name.kind = .identifier → t.kind = .equal →
      Derives (.expression .assignment e) ts →
      Derives (.expression .assignment (.assign name.text e)) (name :: t :: ts)
  | set {dot name t o e ts us} : dot.kind = .dot → name.kind = .identifier → t.kind = .equal →
      Derives (.expression .call o) ts → Derives (.expression .assignment e) us →
      Derives (.expression .assignment (.set o name.text e)) (ts ++ dot :: name :: t :: us)
  | tighter {p q e ts} : Tightens p q → Derives (.expression q e) ts →
      Derives (.expression p e) ts
  -- Arguments
  | noArguments : Derives (.arguments []) []
  | lastArgument {e ts} : Derives (.expression .assignment e) ts → Derives (.arguments [e]) ts
  | argument {comma e e' es ts us} : comma.kind = .comma →
      Derives (.expression .assignment e) ts → Derives (.arguments (e' :: es)) us →
      Derives (.arguments (e :: e' :: es)) (ts ++ comma :: us)
  | absent : Derives (.optional none) []
  | present {e ts} : Derives (.expression .assignment e) ts → Derives (.optional (some e)) ts
  -- Statements
  | expression {semi e ts} : semi.kind = .semicolon → Derives (.expression .assignment e) ts →
      Derives (.statement (.expression e)) (ts ++ [semi])
  | print {t semi e ts} : t.kind = .kwPrint → semi.kind = .semicolon →
      Derives (.expression .assignment e) ts →
      Derives (.statement (.print e)) (t :: ts ++ [semi])
  | assert {t semi e ts} : t.kind = .kwAssert → semi.kind = .semicolon →
      Derives (.expression .assignment e) ts →
      Derives (.statement (.assert e)) (t :: ts ++ [semi])
  | block {l r ss ts} : l.kind = .leftBrace → r.kind = .rightBrace →
      Derives (.declarations ss) ts → Derives (.statement (.block ss)) (l :: ts ++ [r])
  | cond {t l r c yes ts us} : t.kind = .kwIf → l.kind = .leftParen → r.kind = .rightParen →
      Derives (.expression .assignment c) ts → Derives (.statement yes) us →
      Derives (.statement (.cond c yes none)) (t :: l :: ts ++ r :: us)
  | condElse {t l r t' c yes no ts us vs} : t.kind = .kwIf → l.kind = .leftParen →
      r.kind = .rightParen → t'.kind = .kwElse → Derives (.expression .assignment c) ts →
      Derives (.statement yes) us → yes.isOpen = Bool.false → Derives (.statement no) vs →
      Derives (.statement (.cond c yes (some no))) (t :: l :: ts ++ r :: us ++ t' :: vs)
  | while {t l r c s ts us} : t.kind = .kwWhile → l.kind = .leftParen → r.kind = .rightParen →
      Derives (.expression .assignment c) ts → Derives (.statement s) us →
      Derives (.statement (.while c s)) (t :: l :: ts ++ r :: us)
  | for {t l semi r init c step s ts us vs ws} : t.kind = .kwFor → l.kind = .leftParen →
      semi.kind = .semicolon → r.kind = .rightParen → Derives (.first init) ts →
      Derives (.optional c) us → Derives (.optional step) vs → Derives (.statement s) ws →
      Derives (.statement (.for init c step s)) (t :: l :: ts ++ us ++ semi :: vs ++ r :: ws)
  | return {t semi e ts} : t.kind = .kwReturn → semi.kind = .semicolon →
      Derives (.optional e) ts → Derives (.statement (.return e)) (t :: ts ++ [semi])
  | noFirst {semi} : semi.kind = .semicolon → Derives (.first none) [semi]
  | firstVar {name value ts} : Derives (.declaration (.var name value)) ts →
      Derives (.first (some (.var name value))) ts
  | firstExpression {e ts} : Derives (.statement (.expression e)) ts →
      Derives (.first (some (.expression e))) ts
  -- Declarations
  | statement {s ts} : Derives (.statement s) ts → Derives (.declaration s) ts
  | var {t name semi} : t.kind = .kwVar → name.kind = .identifier → semi.kind = .semicolon →
      Derives (.declaration (.var name.text none)) [t, name, semi]
  | varValue {t name eq semi e ts} : t.kind = .kwVar → name.kind = .identifier →
      eq.kind = .equal → semi.kind = .semicolon → Derives (.expression .assignment e) ts →
      Derives (.declaration (.var name.text (some e))) (t :: name :: eq :: ts ++ [semi])
  | functionDeclaration {t f ts} : t.kind = .kwFun → Derives (.function f) ts →
      Derives (.declaration (.function f)) (t :: ts)
  | cls {t name l r fs ts} : t.kind = .kwClass → name.kind = .identifier → l.kind = .leftBrace →
      r.kind = .rightBrace → Derives (.methods fs) ts →
      Derives (.declaration (.cls name.text none fs)) (t :: name :: l :: ts ++ [r])
  | subclass {t name less parent l r fs ts} : t.kind = .kwClass → name.kind = .identifier →
      less.kind = .less → parent.kind = .identifier → l.kind = .leftBrace →
      r.kind = .rightBrace → Derives (.methods fs) ts →
      Derives (.declaration (.cls name.text (some parent.text) fs))
        (t :: name :: less :: parent :: l :: ts ++ [r])
  | noDeclarations : Derives (.declarations []) []
  | declarations {s ss ts us} : Derives (.declaration s) ts → Derives (.declarations ss) us →
      Derives (.declarations (s :: ss)) (ts ++ us)
  -- Functions
  | noParameters : Derives (.parameters []) []
  | lastParameter {name} : name.kind = .identifier → Derives (.parameters [name.text]) [name]
  | parameter {name comma n ns ts} : name.kind = .identifier → comma.kind = .comma →
      Derives (.parameters (n :: ns)) ts →
      Derives (.parameters (name.text :: n :: ns)) (name :: comma :: ts)
  | function {name l r lb rb ns ss ts us} : name.kind = .identifier → l.kind = .leftParen →
      r.kind = .rightParen → lb.kind = .leftBrace → rb.kind = .rightBrace →
      Derives (.parameters ns) ts → Derives (.declarations ss) us →
      Derives (.function ⟨name.text, ns, ss⟩) (name :: l :: ts ++ r :: lb :: us ++ [rb])
  | noMethods : Derives (.methods []) []
  | methods {f fs ts us} : Derives (.function f) ts → Derives (.methods fs) us →
      Derives (.methods (f :: fs)) (ts ++ us)

/-- An expression that binds tightly stands wherever a looser one can. -/
theorem Derives.loosen {p q : Power} {e : Expr} {ts : List Token}
    (h : Derives (.expression q e) ts) (hp : Power.assignment ≤ p) (hpq : p ≤ q) :
    Derives (.expression p e) ts := by
  obtain ⟨n, hn⟩ : ∃ n, q.rank = p.rank + n := ⟨q.rank - p.rank, by have : p.rank ≤ q.rank := hpq; omega⟩
  induction n generalizing p with
  | zero =>
      obtain rfl := Power.rank_injective hn
      exact h
  | succ n ih =>
      have hq : q.rank ≤ Power.call.rank + 1 := by cases q <;> decide
      have hcall : p.rank ≤ Power.call.rank := by omega
      have hnext := tightens_next hp hcall
      have hrank := hnext.rank
      refine .tighter hnext (ih (Power.le_trans hp hnext.le) ?_ (by omega))
      change p.next.rank ≤ q.rank
      omega

/-- What can stand behind an expression of some level, so that it ends there. -/
structure Follows (q : Power) (e : Expr) (t : Token) : Prop where
  power : (Power.ofKind t.kind).left ≤ q
  equal : t.kind ≠ .equal
  property : e.isProperty = Bool.true → t.kind ≠ .leftParen

theorem follows_call {t : Token} {k : TokenKind} {e : Expr} (hk : t.kind = k)
    (hpower : Power.ofKind k = .call) (hparen : e.isProperty = Bool.true → k ≠ .leftParen) :
    Follows .call e t := by
  refine ⟨Power.left_ofKind_le_call _, fun hequal => ?_, fun hp => hk ▸ hparen hp⟩
  rw [← hk, hequal] at hpower
  cases hpower

/-- The phrases that are never empty. -/
def Phrase.solid : Phrase → Bool
  | .expression _ _ | .arguments (_ :: _) | .statement _ | .first _ | .declaration _
  | .function _ => true
  | _ => false

theorem Derives.pos {x : Phrase} {ts : List Token} (h : Derives x ts) (hx : x.solid = Bool.true) :
    0 < ts.length := by
  induction h with
  | noArguments | absent | present | noDeclarations | declarations | noParameters | lastParameter
  | parameter | noMethods | methods => cases hx
  | tighter _ _ ih | lastArgument _ ih | statement _ ih | firstVar _ ih | firstExpression _ ih => exact ih rfl
  | _ =>
      simp only [List.length_append, List.length_cons]
      omega

/-- A method of the superclass is written in one way only. -/
theorem Derives.eq_super {x : Phrase} {q : Power} {name : String} {ts : List Token}
    (h : Derives x ts) (hx : x = .expression q (.super name)) :
    ∃ t dot nm : Token, ts = [t, dot, nm] ∧ t.kind = .kwSuper ∧ dot.kind = .dot ∧
      nm.kind = .identifier ∧ nm.text = name := by
  induction h generalizing q with
  | super hk hdot hname =>
      obtain ⟨-, he⟩ := Phrase.expression.inj hx
      exact ⟨_, _, _, rfl, hk, hdot, hname, Expr.super.inj he⟩
  | tighter _ _ ih =>
      obtain ⟨-, rfl⟩ := Phrase.expression.inj hx
      exact ih rfl
  | _ => cases hx

/-- A property is no primary. -/
theorem Derives.get_not_primary {x : Phrase} {o : Expr} {name : String} {ts : List Token}
    (h : Derives x ts) (hx : x = .expression .primary (.get o name)) : False := by
  cases h with
  | tighter htightens =>
      obtain ⟨rfl, -⟩ := Phrase.expression.inj hx
      cases htightens
  | binary => cases (Phrase.expression.inj hx).2
  | _ => cases hx

/-! ## First tokens -/

def BeginsExpression : TokenKind → Prop
  | .leftParen | .minus | .bang | .identifier | .string | .number | .kwFalse | .kwTrue | .kwNil
  | .kwSuper | .kwThis => True
  | _ => False

def BeginsStatement : TokenKind → Prop
  | .kwPrint | .kwAssert | .kwIf | .kwReturn | .kwWhile | .kwFor | .leftBrace => True
  | k => BeginsExpression k

def BeginsDeclaration : TokenKind → Prop
  | .kwClass | .kwFun | .kwVar => True
  | k => BeginsStatement k

/-- What a phrase can begin with if it is not empty. -/
def Phrase.BeginsWith : Phrase → TokenKind → Prop
  | .expression _ _ | .arguments _ | .optional _ => BeginsExpression
  | .statement _ => BeginsStatement
  | .first none => (· = .semicolon)
  | .first _ | .declaration _ | .declarations _ => BeginsDeclaration
  | .parameters _ | .function _ | .methods _ => (· = .identifier)

theorem BeginsExpression.statement {k : TokenKind} (h : BeginsExpression k) : BeginsStatement k := by
  cases k <;> first | exact h | trivial

theorem BeginsStatement.declaration {k : TokenKind} (h : BeginsStatement k) :
    BeginsDeclaration k := by
  cases k <;> first | exact h | trivial

theorem mem_head?_append {ts us : List Token} (hpos : 0 < ts.length) {t : Token}
    (h : t ∈ (ts ++ us).head?) : t ∈ ts.head? := by
  cases ts with
  | nil => cases hpos
  | cons => exact h

theorem Derives.begins {x : Phrase} {ts : List Token} (h : Derives x ts) :
    ∀ t ∈ ts.head?, x.BeginsWith t.kind := by
  induction h with
  | call _ _ hf _ ih =>
      intro t ht
      rw [List.append_assoc] at ht
      exact ih t (mem_head?_append (hf.pos rfl) ht)
  | get _ _ hf ih | binary _ _ _ hf _ ih | and _ hf _ ih | or _ hf _ ih
  | set _ _ _ hf _ ih =>
      exact fun t ht => ih t (mem_head?_append (hf.pos rfl) ht)
  | argument _ hf _ ih => exact fun t ht => ih t (mem_head?_append (hf.pos rfl) ht)
  | tighter _ _ ih => exact ih
  | lastArgument _ ih | present _ ih => exact ih
  | expression _ hf ih => exact fun t ht => (ih t (mem_head?_append (hf.pos rfl) ht)).statement
  | firstVar _ ih => exact ih
  | firstExpression _ ih => exact fun t ht => (ih t ht).declaration
  | statement _ ih => exact fun t ht => (ih t ht).declaration
  | declarations hf _ ih => exact fun t ht => ih t (mem_head?_append (hf.pos rfl) ht)
  | methods hf _ ih => exact fun t ht => ih t (mem_head?_append (hf.pos rfl) ht)
  | noArguments | absent | noDeclarations | noParameters | noMethods => exact nofun
  | unary op hk =>
      rintro _ ⟨⟩
      change BeginsExpression (Token.kind _)
      rw [hk]
      cases op <;> trivial
  | _ =>
      rintro _ ⟨⟩
      simp_all [Phrase.BeginsWith, BeginsExpression, BeginsStatement, BeginsDeclaration]

end Syntax

end LoxMachine
