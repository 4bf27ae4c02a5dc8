import LoxMachine.Proofs.Syntax.Reader
import LoxMachine.Proofs.Verdict.Script

/-!
# Trees of texts

Statements are read by their first tokens, expressions by operator precedence. What the grammar derives is
read (`reads`), so a text has at most one tree.

Main statement: `Script.unique`.
-/

namespace LoxMachine.Syntax

namespace Reader

/-! ## Reading statements -/

def skip (k : TokenKind) : List Token → Option (List Token)
  | [] => none
  | t :: ts => if t.kind = k then some ts else none

def name? : List Token → Option (String × List Token)
  | [] => none
  | t :: ts => if t.kind = .identifier then some (t.text, ts) else none

def whole (ts : List Token) : Option (Expr × List Token) :=
  read ts.length .assignment ts

/-- An expression up to a token of that kind, or nothing. -/
def upTo (k : TokenKind) (ts : List Token) : Option (Option Expr × List Token) := do
  if ahead k ts then
    let us ← skip k ts
    return (none, us)
  else
    let (e, us) ← whole ts
    let us ← skip k us
    return (some e, us)

/-- Names up to the parenthesis behind them. -/
def parameters : List Token → Option (List String × List Token)
  | name :: t :: ts =>
    if name.kind = .identifier then
      if t.kind = .comma then do
        let (names, us) ← parameters ts
        return (name.text :: names, us)
      else some ([name.text], t :: ts)
    else some ([], name :: t :: ts)
  | ts => some ([], ts)

def binding (ts : List Token) : Option (Stmt × List Token) := do
  let (name, us) ← name? ts
  if ahead .equal us then
    let us ← skip .equal us
    let (e, us) ← whole us
    let us ← skip .semicolon us
    return (.var name (some e), us)
  else
    let us ← skip .semicolon us
    return (.var name none, us)

def simple (ts : List Token) : Option (Stmt × List Token) := do
  let (e, us) ← whole ts
  let us ← skip .semicolon us
  return (.expression e, us)

/-- The first clause of a loop. -/
def clause (ts : List Token) : Option (Option Stmt × List Token) :=
  if ahead .semicolon ts then do
    let us ← skip .semicolon ts
    return (none, us)
  else if ahead .kwVar ts then do
    let us ← skip .kwVar ts
    let (s, us) ← binding us
    return (some s, us)
  else do
    let (s, us) ← simple ts
    return (some s, us)

def beginsDeclaration : TokenKind → Bool
  | .kwClass | .kwFun | .kwVar | .kwPrint | .kwAssert | .kwIf | .kwReturn | .kwWhile | .kwFor | .leftBrace
  | .leftParen | .minus | .bang | .identifier | .string | .number | .kwFalse | .kwTrue | .kwNil
  | .kwSuper | .kwThis => true
  | _ => false

mutual

/-- A statement, or a declaration where one may stand. -/
def item : Nat → Bool → List Token → Option (Stmt × List Token)
  | 0, _, _ => none
  | _, _, [] => none
  | n + 1, declares, t :: ts =>
    match t.kind, declares with
    | .kwVar, true => binding ts
    | .kwFun, true => do
      let (f, us) ← function n ts
      return (.function f, us)
    | .kwClass, true => do
      let (name, us) ← name? ts
      if ahead .less us then
        let us ← skip .less us
        let (parent, us) ← name? us
        let us ← skip .leftBrace us
        let (fs, us) ← methods n us
        let us ← skip .rightBrace us
        return (.cls name (some parent) fs, us)
      else
        let us ← skip .leftBrace us
        let (fs, us) ← methods n us
        let us ← skip .rightBrace us
        return (.cls name none fs, us)
    | .kwPrint, _ => do
      let (e, us) ← whole ts
      let us ← skip .semicolon us
      return (.print e, us)
    | .kwAssert, _ => do
      let (e, us) ← whole ts
      let us ← skip .semicolon us
      return (.assert e, us)
    | .leftBrace, _ => do
      let (ss, us) ← items n ts
      let us ← skip .rightBrace us
      return (.block ss, us)
    | .kwIf, _ => do
      let us ← skip .leftParen ts
      let (c, us) ← whole us
      let us ← skip .rightParen us
      let (yes, us) ← item n false us
      if ahead .kwElse us then
        let us ← skip .kwElse us
        let (no, us) ← item n false us
        return (.cond c yes (some no), us)
      else return (.cond c yes none, us)
    | .kwWhile, _ => do
      let us ← skip .leftParen ts
      let (c, us) ← whole us
      let us ← skip .rightParen us
      let (s, us) ← item n false us
      return (.while c s, us)
    | .kwFor, _ => do
      let us ← skip .leftParen ts
      let (init, us) ← clause us
      let (c, us) ← upTo .semicolon us
      let (step, us) ← upTo .rightParen us
      let (s, us) ← item n false us
      return (.for init c step s, us)
    | .kwReturn, _ => do
      let (e, us) ← upTo .semicolon ts
      return (.return e, us)
    | _, _ => simple (t :: ts)

def items : Nat → List Token → Option (List Stmt × List Token)
  | 0, _ => none
  | _, [] => some ([], [])
  | n + 1, t :: ts =>
    if beginsDeclaration t.kind then do
      let (s, us) ← item n true (t :: ts)
      let (ss, us) ← items n us
      return (s :: ss, us)
    else some ([], t :: ts)

def function : Nat → List Token → Option (Fun Stmt × List Token)
  | 0, _ => none
  | n + 1, ts => do
    let (name, us) ← name? ts
    let us ← skip .leftParen us
    let (ps, us) ← parameters us
    let us ← skip .rightParen us
    let us ← skip .leftBrace us
    let (ss, us) ← items n us
    let us ← skip .rightBrace us
    return (⟨name, ps, ss⟩, us)

def methods : Nat → List Token → Option (List (Fun Stmt) × List Token)
  | 0, _ => none
  | n + 1, ts =>
    if ahead .identifier ts then do
      let (f, us) ← function n ts
      let (fs, us) ← methods n us
      return (f :: fs, us)
    else some ([], ts)

end

/-! ## What is derived is read -/

section Steps

variable {t : Token} {ts us vs : List Token} {e : Expr} {k : TokenKind}

theorem skip_cons (hk : t.kind = k) : skip k (t :: ts) = some ts :=
  if_pos hk

theorem name?_cons (hk : t.kind = .identifier) : name? (t :: ts) = some (t.text, ts) :=
  if_pos hk

theorem ahead_of_eq (hk : t.kind = k) : ahead k (t :: ts) = true :=
  decide_eq_true hk

theorem ahead_of_ne (hk : t.kind ≠ k) : ahead k (t :: ts) = false :=
  decide_eq_false hk

theorem whole_append (hd : Derives (.expression .assignment e) ts) (hk : Power.ofKind t.kind = .none)
    (hequal : t.kind ≠ .equal) : whole (ts ++ t :: us) = some (e, t :: us) :=
  hd.read (Nat.le_refl _) hk hequal

/-- An expression does not begin with that token. -/
theorem ahead_expression (hd : Derives (.expression .assignment e) ts) (hk : ¬ BeginsExpression k) :
    ahead k (ts ++ us) = false := by
  obtain ⟨t, ts, rfl⟩ := List.exists_cons_of_length_pos (hd.pos rfl)
  have hbegins : BeginsExpression t.kind := hd.begins t rfl
  exact ahead_of_ne fun hk' => hk (hk' ▸ hbegins)

/-- An expression up to a semicolon or parenthesis. -/
theorem whole_before (hd : Derives (.expression .assignment e) ts) (hk : t.kind = k)
    (hpower : Power.ofKind k = .none := by rfl) (hequal : k ≠ .equal := by nofun) :
    whole (ts ++ t :: us) = some (e, t :: us) :=
  whole_append hd (hk ▸ hpower) (hk ▸ hequal)

theorem simple_append {semi : Token} (hd : Derives (.expression .assignment e) ts)
    (hk : semi.kind = .semicolon) : simple (ts ++ semi :: us) = some (.expression e, us) := by
  have hread : whole (ts ++ semi :: us) = some (e, semi :: us) :=
    whole_append hd (by rw [hk]; rfl) (by rw [hk]; nofun)
  simp only [simple, hread, skip_cons hk, Option.bind_eq_bind, Option.bind_some, Option.pure_def]

theorem binding_none {name semi : Token} (hname : name.kind = .identifier) (hsemi : semi.kind = .semicolon) :
    binding (name :: semi :: us) = some (.var name.text none, us) := by
  have hvalue : ahead .equal (semi :: us) = false := ahead_of_ne (by rw [hsemi]; nofun)
  simp only [binding, name?_cons hname, hvalue, Bool.false_eq_true, if_false, skip_cons hsemi,
    Option.bind_eq_bind, Option.bind_some, Option.pure_def]

theorem binding_some {name eq semi : Token} (hname : name.kind = .identifier) (heq : eq.kind = .equal)
    (hsemi : semi.kind = .semicolon) (hd : Derives (.expression .assignment e) ts) :
    binding (name :: eq :: (ts ++ semi :: us)) = some (.var name.text (some e), us) := by
  simp only [binding, name?_cons hname, ahead_of_eq heq, if_true, skip_cons heq, whole_before hd hsemi,
    skip_cons hsemi, Option.bind_eq_bind, Option.bind_some, Option.pure_def]

/-- A loop may begin with a variable. -/
theorem clause_binding {name : String} {value : Option Expr}
    (hd : Derives (.declaration (.var name value)) ts) :
    clause (ts ++ us) = some (some (.var name value), us) := by
  cases hd with
  | @var t _ _ hk hname hsemi =>
      have hsemicolon (ts : List Token) : ahead .semicolon (t :: ts) = false :=
        ahead_of_ne (by rw [hk]; nofun)
      simp only [List.cons_append, List.nil_append, clause, hsemicolon, Bool.false_eq_true, if_false,
        ahead_of_eq hk, if_true, skip_cons hk, binding_none hname hsemi, Option.bind_eq_bind,
        Option.bind_some, Option.pure_def]
  | @varValue t _ _ _ _ _ hk hname heq hsemi hd =>
      have hsemicolon (ts : List Token) : ahead .semicolon (t :: ts) = false :=
        ahead_of_ne (by rw [hk]; nofun)
      simp only [List.cons_append, List.append_assoc, List.nil_append, clause, hsemicolon,
        Bool.false_eq_true, if_false, ahead_of_eq hk, if_true, skip_cons hk,
        binding_some hname heq hsemi hd, Option.bind_eq_bind, Option.bind_some, Option.pure_def]
  | statement hd => cases hd

theorem upTo_append {o : Option Expr} (hd : Derives (.optional o) ts) (hk : t.kind = k)
    (hpower : Power.ofKind k = .none) (hequal : k ≠ .equal) (hbegins : ¬ BeginsExpression k) :
    upTo k (ts ++ t :: us) = some (o, us) := by
  cases hd with
  | absent =>
      simp only [upTo, List.nil_append, ahead_of_eq hk, if_true, skip_cons hk, Option.bind_eq_bind,
        Option.bind_some, Option.pure_def]
  | present hd =>
      have hread : whole (_ ++ t :: us) = some (_, t :: us) := whole_append hd (hk ▸ hpower) (hk ▸ hequal)
      simp only [upTo, ahead_expression hd hbegins, Bool.false_eq_true, if_false, hread, skip_cons hk,
        Option.bind_eq_bind, Option.bind_some, Option.pure_def]

end Steps

/-- No `else` follows. -/
def Closed (us : List Token) : Prop :=
  ∀ t ∈ us.head?, t.kind ≠ .kwElse

/-- What is shown of phrases by induction on the grammar: they are read, whatever may follow them. -/
def Reads : Phrase → List Token → Prop
  | .statement s, ts => ∀ n declares us, 2 * ts.length ≤ n → (s.isOpen = Bool.true → Closed us) →
      item n declares (ts ++ us) = some (s, us)
  | .declaration s, ts => ∀ n us, 2 * ts.length ≤ n → (s.isOpen = Bool.true → Closed us) →
      item n Bool.true (ts ++ us) = some (s, us)
  | .declarations ss, ts => ∀ n us, 2 * ts.length + 1 ≤ n → Closed us →
      (∀ t ∈ us.head?, ¬ BeginsDeclaration t.kind) → items n (ts ++ us) = some (ss, us)
  | .first s, ts => ∀ us, clause (ts ++ us) = some (s, us)
  | .parameters names, ts => ∀ t us, t.kind = .rightParen → parameters (ts ++ t :: us) = some (names, t :: us)
  | .function f, ts => ∀ n us, 2 * ts.length ≤ n → function n (ts ++ us) = some (f, us)
  | .methods fs, ts => ∀ n us, 2 * ts.length + 1 ≤ n → (∀ t ∈ us.head?, t.kind ≠ .identifier) →
      methods n (ts ++ us) = some (fs, us)
  | _, _ => True

theorem beginsDeclaration_of {k : TokenKind} (h : BeginsDeclaration k) : beginsDeclaration k = true := by
  cases k <;> first | rfl | exact h.elim

theorem beginsDeclaration_of_not {k : TokenKind} (h : ¬ BeginsDeclaration k) :
    beginsDeclaration k = false := by
  cases k <;> first | rfl | exact absurd trivial h

theorem item_simple {t : Token} {ts : List Token} {n : Nat} {declares : Bool} (h : BeginsExpression t.kind) :
    item (n + 1) declares (t :: ts) = simple (t :: ts) := by
  cases hk : t.kind <;> rw [hk] at h <;> first | exact False.elim h | simp only [item, hk]

theorem not_begins_of_end {k : TokenKind} {r : Token} {us : List Token} (hr : r.kind = k)
    (hk : ¬ BeginsDeclaration k) : ∀ t ∈ (r :: us).head?, ¬ BeginsDeclaration t.kind := by
  rintro t ⟨⟩
  rwa [hr]

/-- Declarations do not begin with an `else`. -/
theorem closed_append {ss : List Stmt} {ts us : List Token} (hd : Derives (.declarations ss) ts)
    (h : Closed us) : Closed (ts ++ us) := by
  intro t ht hk
  cases ts with
  | nil => exact h t ht hk
  | cons u ts =>
      obtain rfl := Option.some.inj ht
      have hbegins : BeginsDeclaration u.kind := hd.begins u rfl
      rw [hk] at hbegins
      exact hbegins

theorem ahead_function {f : Fun Stmt} {ts us : List Token} (hd : Derives (.function f) ts) :
    ahead .identifier (ts ++ us) = true := by
  obtain ⟨t, ts, rfl⟩ := List.exists_cons_of_length_pos (hd.pos rfl)
  exact ahead_of_eq (hd.begins t rfl)

theorem reads {x : Phrase} {ts : List Token} (h : Derives x ts) : Reads x ts := by
  induction h with
  | expression hsemi hd =>
      intro n declares us hn _
      obtain ⟨t, ts, rfl⟩ := List.exists_cons_of_length_pos (hd.pos rfl)
      obtain _ | n := n
      · simp at hn
      have hread : simple (_ ++ _ :: us) = some (.expression _, us) := simple_append hd hsemi
      rw [List.append_assoc, List.cons_append, item_simple (hd.begins t rfl)]
      exact hread
  | print hk hsemi hd =>
      intro n declares us hn _
      obtain _ | n := n
      · simp at hn
      simp only [List.cons_append, List.append_assoc, List.nil_append]
      simp only [item, hk, whole_before hd hsemi, skip_cons hsemi, Option.bind_eq_bind, Option.bind_some,
        Option.pure_def]
  | assert hk hsemi hd =>
      intro n declares us hn _
      obtain _ | n := n
      · simp at hn
      simp only [List.cons_append, List.append_assoc, List.nil_append]
      simp only [item, hk, whole_before hd hsemi, skip_cons hsemi, Option.bind_eq_bind, Option.bind_some,
        Option.pure_def]
  | @block l r _ _ hl hr hd ih =>
      intro n declares us hn _
      obtain _ | n := n
      · simp at hn
      simp only [List.cons_append, List.append_assoc, List.nil_append, List.length_cons,
        List.length_append, List.length_nil] at hn ⊢
      have hread := ih n (r :: us) (by omega) (by simp [Closed, hr]) (not_begins_of_end hr id)
      simp only [item, hl, hread, skip_cons hr, Option.bind_eq_bind, Option.bind_some, Option.pure_def]
  | cond hk hl hr hd hyes _ ih =>
      intro n declares us hn hopen
      obtain _ | n := n
      · simp at hn
      have hclosed := hopen rfl
      simp only [List.cons_append, List.append_assoc, List.length_cons, List.length_append] at hn ⊢
      have hread := ih n false us (by omega) fun _ => hclosed
      have helse : ahead .kwElse us = false := by
        cases us with
        | nil => rfl
        | cons u us => exact ahead_of_ne (hclosed u rfl)
      simp only [item, hk, skip_cons hl, whole_before hd hr, skip_cons hr, hread, helse,
        Bool.false_eq_true, if_false, Option.bind_eq_bind, Option.bind_some, Option.pure_def]
  | @condElse _ _ _ t' _ _ _ _ _ vs hk hl hr helse hd hyes hyesOpen hno _ ih ih' =>
      intro n declares us hn hopen
      obtain _ | n := n
      · simp at hn
      simp only [List.cons_append, List.append_assoc, List.length_cons, List.length_append] at hn ⊢
      have hread := ih n false (t' :: (vs ++ us)) (by omega) fun h => nomatch hyesOpen.symm.trans h
      have hread' := ih' n false us (by omega) hopen
      simp only [item, hk, skip_cons hl, whole_before hd hr, skip_cons hr, hread, ahead_of_eq helse,
        if_true, skip_cons helse, hread', Option.bind_eq_bind, Option.bind_some, Option.pure_def]
  | «while» hk hl hr hd hs _ ih =>
      intro n declares us hn hopen
      obtain _ | n := n
      · simp at hn
      simp only [List.cons_append, List.append_assoc, List.length_cons, List.length_append] at hn ⊢
      have hread := ih n false us (by omega) hopen
      simp only [item, hk, skip_cons hl, whole_before hd hr, skip_cons hr, hread, Option.bind_eq_bind,
        Option.bind_some, Option.pure_def]
  | «for» hk hl hsemi hr hfirst hc hstep hs ihfirst _ _ ih =>
      intro n declares us hn hopen
      obtain _ | n := n
      · simp at hn
      simp only [List.cons_append, List.append_assoc, List.length_cons, List.length_append] at hn ⊢
      have hread := ih n false us (by omega) hopen
      simp only [item, hk, skip_cons hl, ihfirst _, upTo_append hc hsemi rfl nofun id,
        upTo_append hstep hr rfl nofun id, hread, Option.bind_eq_bind, Option.bind_some, Option.pure_def]
  | «return» hk hsemi hd =>
      intro n declares us hn _
      obtain _ | n := n
      · simp at hn
      simp only [List.cons_append, List.append_assoc, List.nil_append]
      simp only [item, hk, upTo_append hd hsemi rfl nofun id, Option.bind_eq_bind, Option.bind_some,
        Option.pure_def]
  | noFirst hsemi =>
      intro us
      simp only [List.singleton_append, clause, ahead_of_eq hsemi, if_true, skip_cons hsemi,
        Option.bind_eq_bind, Option.bind_some, Option.pure_def]
  | firstVar hd => exact fun us => clause_binding hd
  | firstExpression hd =>
      intro us
      cases hd with
      | @expression semi _ _ hsemi hd =>
          have hsemicolon : ahead .semicolon (_ ++ ([semi] ++ us)) = false := ahead_expression hd id
          have hvar : ahead .kwVar (_ ++ ([semi] ++ us)) = false := ahead_expression hd id
          rw [List.append_assoc, clause, hsemicolon, hvar]
          simp only [Bool.false_eq_true, if_false, List.singleton_append, simple_append hd hsemi,
            Option.bind_eq_bind, Option.bind_some, Option.pure_def]
  | statement _ ih => exact fun n us hn hopen => ih n true us hn hopen
  | var hk hname hsemi =>
      intro n us hn _
      obtain _ | n := n
      · simp at hn
      simp only [List.cons_append, List.nil_append, item, hk, binding_none hname hsemi]
  | varValue hk hname heq hsemi hd =>
      intro n us hn _
      obtain _ | n := n
      · simp at hn
      simp only [List.cons_append, List.append_assoc, List.nil_append, item, hk, binding_some hname heq hsemi hd]
  | functionDeclaration hk _ ih =>
      intro n us hn _
      obtain _ | n := n
      · simp at hn
      rw [List.length_cons] at hn
      simp only [List.cons_append, item, hk, ih n us (by omega), Option.bind_eq_bind, Option.bind_some,
        Option.pure_def]
  | @cls _ _ _ r _ _ hk hname hl hr _ ih =>
      intro n us hn _
      obtain _ | n := n
      · simp at hn
      simp only [List.cons_append, List.append_assoc, List.nil_append, List.length_cons,
        List.length_append, List.length_nil] at hn ⊢
      have hread := ih n (r :: us) (by omega) (by simp [hr])
      simp only [item, hk, name?_cons hname, ahead_of_ne (k := .less) (by rw [hl]; nofun),
        Bool.false_eq_true, if_false, skip_cons hl, hread, skip_cons hr, Option.bind_eq_bind, Option.bind_some,
        Option.pure_def]
  | @subclass _ _ _ _ _ r _ _ hk hname hless hparent hl hr _ ih =>
      intro n us hn _
      obtain _ | n := n
      · simp at hn
      simp only [List.cons_append, List.append_assoc, List.nil_append, List.length_cons,
        List.length_append, List.length_nil] at hn ⊢
      have hread := ih n (r :: us) (by omega) (by simp [hr])
      simp only [item, hk, name?_cons hname, ahead_of_eq hless, if_true, skip_cons hless, name?_cons hparent,
        skip_cons hl, hread, skip_cons hr, Option.bind_eq_bind, Option.bind_some, Option.pure_def]
  | noDeclarations =>
      intro n us hn _ hnone
      obtain _ | n := n
      · simp at hn
      cases us with
      | nil => rfl
      | cons u us =>
          rw [List.nil_append, items, beginsDeclaration_of_not (hnone u rfl), if_neg nofun]
  | @declarations _ _ _ vs hs hss ih ih' =>
      intro n us hn hclosed hnone
      obtain _ | n := n
      · simp at hn
      obtain ⟨t, ts, rfl⟩ := List.exists_cons_of_length_pos (hs.pos rfl)
      simp only [List.cons_append, List.append_assoc, List.length_cons, List.length_append] at hn ⊢
      have hbegins : BeginsDeclaration t.kind := hs.begins t rfl
      have hread := ih n (vs ++ us) (by rw [List.length_cons]; omega) fun _ => closed_append hss hclosed
      have hrest := ih' n us (by omega) hclosed hnone
      rw [List.cons_append] at hread
      rw [items, beginsDeclaration_of hbegins, if_pos rfl, hread]
      simp only [hrest, Option.bind_eq_bind, Option.bind_some, Option.pure_def]
  | noParameters =>
      intro t us ht
      cases us with
      | nil => rfl
      | cons u us => rw [List.nil_append, parameters, if_neg (by rw [ht]; nofun)]
  | lastParameter hname =>
      intro t us ht
      rw [List.singleton_append, parameters, if_pos hname, if_neg (by rw [ht]; nofun)]
  | parameter hname hcomma _ ih =>
      intro t us ht
      simp only [List.cons_append, parameters, if_pos hname, if_pos hcomma, ih t us ht, Option.bind_eq_bind,
        Option.bind_some, Option.pure_def]
  | @function _ _ r _ rb _ _ _ _ hname hl hr hlb hrb _ _ ih ih' =>
      intro n us hn
      obtain _ | n := n
      · simp at hn
      simp only [List.cons_append, List.append_assoc, List.nil_append, List.length_cons,
        List.length_append, List.length_nil] at hn ⊢
      have hread := ih' n (rb :: us) (by omega) (by simp [Closed, hrb]) (not_begins_of_end hrb id)
      simp only [function, name?_cons hname, skip_cons hl, ih _ _ hr, skip_cons hr, skip_cons hlb, hread,
        skip_cons hrb, Option.bind_eq_bind, Option.bind_some, Option.pure_def]
  | noMethods =>
      intro n us hn hnone
      obtain _ | n := n
      · simp at hn
      have hahead : ahead .identifier us = false := by
        cases us with
        | nil => rfl
        | cons u us => exact ahead_of_ne (hnone u rfl)
      rw [List.nil_append, methods, hahead, if_neg nofun]
  | @methods _ _ _ vs hf hfs ih ih' =>
      intro n us hn hnone
      obtain _ | n := n
      · simp at hn
      have hpos := hf.pos rfl
      rw [List.length_append] at hn
      have hread := ih n (vs ++ us) (by omega)
      have hrest := ih' n us (by omega) hnone
      rw [List.append_assoc, methods, ahead_function hf, if_pos rfl, hread]
      simp only [hrest, Option.bind_eq_bind, Option.bind_some, Option.pure_def]
  | _ => trivial

end Reader

/-- A text has at most one tree. -/
theorem Script.unique {tokens : List Token} {tree tree' : List Stmt} (h : Script tokens tree)
    (h' : Script tokens tree') : tree = tree' := by
  obtain ⟨ts, last, rfl, hlast, hd⟩ := h
  obtain ⟨ts', last', heq, hlast', hd'⟩ := h'
  obtain ⟨rfl, rfl⟩ := List.append_singleton_inj.mp heq
  have hclosed : Reader.Closed [last] := by simp [Reader.Closed, hlast]
  have hnone : ∀ t ∈ [last].head?, ¬ BeginsDeclaration t.kind :=
    Reader.not_begins_of_end hlast id
  have hread := Reader.reads hd _ [last] (Nat.le_refl _) hclosed hnone
  have hread' := Reader.reads hd' _ [last] (Nat.le_refl _) hclosed hnone
  exact (Prod.mk.inj (Option.some.inj (hread.symm.trans hread'))).1

end LoxMachine.Syntax
