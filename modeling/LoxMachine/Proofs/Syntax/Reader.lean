import LoxMachine.Proofs.Syntax.Grammar

/-!
# Reading trees

The grammar leaves open how a tree is found. Here it is read by operator precedence: a loop extends the
tree of what has been read by one operator after the other (`rest`). Every tree that the grammar gives to
some tokens is the one that is read from them (`arrives`), so tokens have at most one tree.

A step of the reader takes tokens off that have another one behind them; what a tree is read from is always
followed by something that is not part of it.

Main statements: `Derives.read`, `Derives.unique`, `power_of_not_extends`.
-/

namespace LoxMachine.Syntax

def BinaryOp.ofKind? : TokenKind → Option BinaryOp
  | .plus => some .add
  | .minus => some .subtract
  | .asterisk => some .multiply
  | .slash => some .divide
  | .equalEqual => some .equal
  | .bangEqual => some .notEqual
  | .greater => some .greater
  | .greaterEqual => some .greaterEqual
  | .less => some .less
  | .lessEqual => some .lessEqual
  | _ => none

theorem BinaryOp.kind_of_ofKind? {k : TokenKind} {op : BinaryOp} (h : ofKind? k = some op) :
    k = op.kind := by
  cases k <;> cases h <;> rfl

namespace Reader

/-! ## Tokens -/

/-- Whether a token of that kind comes next. -/
def ahead (k : TokenKind) : List Token → Bool
  | [] => false
  | t :: _ => t.kind = k

def next? : List Token → Option (Token × List Token)
  | t :: u :: us => some (t, u :: us)
  | _ => none

def take? (k : TokenKind) (ts : List Token) : Option (Token × List Token) := do
  let (t, us) ← next? ts
  if t.kind = k then some (t, us) else none

/-! ## Trees -/

section Operands

variable (bound : Nat) (sub : Power → List Token → Option (Expr × List Token))

def argumentsFrom : Nat → List Token → Option (List Expr × List Token)
  | 0, _ => none
  | b + 1, ts => do
    let (e, us) ← sub .assignment ts
    if ahead .comma us then
      let (_, us) ← next? us
      let (es, us) ← argumentsFrom b us
      return (e :: es, us)
    else return ([e], us)

/-- Arguments up to the parenthesis that closes them. -/
def arguments (ts : List Token) : Option (List Expr × List Token) :=
  (if ahead .rightParen ts then some ([], ts) else argumentsFrom sub bound ts).bind fun (es, us) => do
    let (_, us) ← take? .rightParen us
    return (es, us)

def named (canAssign : Bool) (name : String) (ts : List Token) : Option (Expr × List Token) :=
  if canAssign && ahead .equal ts then do
    let (_, us) ← next? ts
    let (e, us) ← sub .assignment us
    return (.assign name e, us)
  else some (.variable name, ts)

def super (ts : List Token) : Option (Expr × List Token) := do
  let (_, us) ← take? .dot ts
  let (name, us) ← take? .identifier us
  if ahead .leftParen us then
    let (_, us) ← next? us
    let (as, us) ← arguments bound sub us
    return (.call (.super name.text) as, us)
  else return (.super name.text, us)

/-- The tree that begins with the token `t`. -/
def opening (canAssign : Bool) (t : Token) (ts : List Token) : Option (Expr × List Token) :=
  match t.kind with
  | .leftParen => do
    let (e, us) ← sub .assignment ts
    let (_, us) ← take? .rightParen us
    return (.grouping e, us)
  | .minus => do
    let (e, us) ← sub .unary ts
    return (.unary .negate e, us)
  | .bang => do
    let (e, us) ← sub .unary ts
    return (.unary .not e, us)
  | .identifier => named sub canAssign t.text ts
  | .string => some (.string t.contents, ts)
  | .number => (Number.ofLiteral? t.text).map fun n => (.number n, ts)
  | .kwFalse => some (.boolean false, ts)
  | .kwTrue => some (.boolean true, ts)
  | .kwNil => some (.nil, ts)
  | .kwSuper => super bound sub ts
  | .kwThis => some (.this, ts)
  | _ => none

/-- A property of the tree `left`. -/
def property (canAssign : Bool) (left : Expr) (ts : List Token) : Option (Expr × List Token) := do
  let (name, us) ← take? .identifier ts
  if canAssign && ahead .equal us then
    let (_, us) ← next? us
    let (e, us) ← sub .assignment us
    return (.set left name.text e, us)
  else if ahead .leftParen us then
    let (_, us) ← next? us
    let (as, us) ← arguments bound sub us
    return (.call (.get left name.text) as, us)
  else return (.get left name.text, us)

/-- The tree that the operator `t` makes of the tree `left`. -/
def continuation (canAssign : Bool) (left : Expr) (t : Token) (ts : List Token) :
    Option (Expr × List Token) :=
  match t.kind with
  | .leftParen => do
    if left.isProperty then none
    let (as, us) ← arguments bound sub ts
    return (.call left as, us)
  | .dot => property bound sub canAssign left ts
  | .kwAnd => do
    let (e, us) ← sub .and ts
    return (.and left e, us)
  | .kwOr => do
    let (e, us) ← sub .or ts
    return (.or left e, us)
  | k => do
    let op ← BinaryOp.ofKind? k
    let (e, us) ← sub op.power.next ts
    return (.binary op left e, us)

/-- Extends the tree `left` by the operators that bind tightly enough. -/
def rest (p : Power) : Nat → Expr → List Token → Option (Expr × List Token)
  | 0, _, _ => none
  | _, _, [] => none
  | b + 1, left, t :: ts =>
    if p ≤ Power.ofKind t.kind then do
      let (_, us) ← next? (t :: ts)
      let (e, us) ← continuation bound sub (p ≤ .assignment) left t us
      rest p b e us
    else if p ≤ .assignment ∧ t.kind = .equal then none
    else some (left, t :: ts)

end Operands

/-- Reads an expression whose operators bind at least as tightly as asked for. -/
def read : Nat → Power → List Token → Option (Expr × List Token)
  | 0, _, _ => none
  | n + 1, p, ts => do
    let (t, us) ← next? ts
    let (e, us) ← opening n (read n) (p ≤ .assignment) t us
    rest n (read n) p n e us

/-! ## Steps of the reader -/

section Steps

variable {n b : Nat} {p q level : Power} {e left : Expr} {t : Token} {ts us vs : List Token}
  {sub : Power → List Token → Option (Expr × List Token)}

theorem next?_cons (h : ts ≠ []) : next? (t :: ts) = some (t, ts) := by
  cases ts with
  | nil => exact absurd rfl h
  | cons => rfl

theorem next?_append (t u : Token) (ts us : List Token) :
    next? (t :: (ts ++ u :: us)) = some (t, ts ++ u :: us) :=
  next?_cons (List.append_ne_nil_of_right_ne_nil ts (List.cons_ne_nil u us))

theorem take?_cons {k : TokenKind} (hk : t.kind = k) (h : ts ≠ []) :
    take? k (t :: ts) = some (t, ts) := by
  rw [take?, next?_cons h, Option.bind_eq_bind, Option.bind_some]
  exact if_pos hk

theorem next?_eq_some (h : next? ts = some (t, us)) : ts = t :: us ∧ us ≠ [] := by
  match ts, h with
  | t :: u :: us, rfl => exact ⟨rfl, List.cons_ne_nil u us⟩

theorem take?_eq_some {k : TokenKind} (h : take? k ts = some (t, us)) :
    ts = t :: us ∧ us ≠ [] ∧ t.kind = k := by
  simp only [take?, Option.bind_eq_bind, Option.bind_eq_some_iff, Prod.exists] at h
  obtain ⟨t', us', hnext, h⟩ := h
  split at h
  · obtain ⟨rfl, rfl⟩ := Prod.mk.inj (Option.some.inj h)
    obtain ⟨rfl, hne⟩ := next?_eq_some hnext
    exact ⟨rfl, hne, by assumption⟩
  · cases h

theorem ahead_cons (k : TokenKind) : ahead k (t :: ts) = decide (t.kind = k) := rfl

theorem read_first (h : ts ≠ []) : read (n + 1) p (t :: ts) =
    (opening n (read n) (p ≤ .assignment) t ts).bind fun x => rest n (read n) p n x.1 x.2 := by
  rw [read, next?_cons h]
  rfl

theorem rest_stop (hb : (t :: us).length ≤ b) (hp : ¬ p ≤ Power.ofKind t.kind) (hk : t.kind ≠ .equal) :
    rest n sub p b left (t :: us) = some (left, t :: us) := by
  obtain _ | b := b
  · cases hb
  rw [rest, if_neg hp, if_neg fun h => hk h.2]

theorem rest_step (h : us ≠ []) (hp : p ≤ Power.ofKind t.kind) :
    rest n sub p (b + 1) left (t :: us) =
      (continuation n sub (p ≤ .assignment) left t us).bind fun x => rest n sub p b x.1 x.2 := by
  rw [rest, if_pos hp, next?_cons h]
  rfl

/-! ## Operands -/

/-- The reader, begun at the tokens `ts`, comes to its loop behind them with the tree `e`. -/
def Arrives (q : Power) (e : Expr) (ts : List Token) : Prop :=
  ∀ {n p t us}, Power.assignment ≤ p → p ≤ q → p ≤ .unary → (ts ++ t :: us).length ≤ n + 1 →
    Follows q e t → ∃ b, (t :: us).length ≤ b ∧
      read (n + 1) p (ts ++ t :: us) = rest n (read n) p b e (t :: us)

/-- An expression that nothing behind it belongs to. -/
theorem Arrives.whole (h : Arrives p e ts) (hassign : Power.assignment ≤ p) (hunary : p ≤ .unary)
    (hn : (ts ++ t :: us).length ≤ n) (hleft : (Power.ofKind t.kind).left ≤ p)
    (hequal : t.kind ≠ .equal) (hstop : ¬ p ≤ Power.ofKind t.kind) :
    read n p (ts ++ t :: us) = some (e, t :: us) := by
  obtain _ | n := n
  · simp at hn
  have hfollows : Follows p e t :=
    ⟨hleft, hequal, fun _ hparen => hstop (hparen ▸ Power.le_trans hunary (by decide))⟩
  obtain ⟨b, hb, hread⟩ := h hassign (Power.le_refl p) hunary hn hfollows
  rw [hread, rest_stop hb hstop hequal]

theorem Arrives.tighter {q' : Power} (h : Arrives q' e ts) (hq : Tightens q q') : Arrives q e ts := by
  have hle := hq.le
  intro n p t us hassign hp hunary hn hfollows
  exact h hassign (Power.le_trans hp hle) hunary hn
    ⟨Power.le_trans hfollows.power hle, hfollows.equal, hfollows.property⟩

/-- An expression of one token. -/
theorem arrives_token (hx : ∀ n canAssign us, opening n (read n) canAssign t us = some (e, us)) :
    Arrives .primary e [t] := by
  intro n p t' us _ _ _ hn _
  refine ⟨n, Nat.le_of_succ_le_succ hn, ?_⟩
  rw [List.singleton_append, read_first (by simp), hx, Option.bind_some]

theorem arrives_variable (hk : t.kind = .identifier) : Arrives .primary (.variable t.text) [t] := by
  intro n p t' us _ _ _ hn hfollows
  refine ⟨n, Nat.le_of_succ_le_succ hn, ?_⟩
  have hahead : (decide (p ≤ .assignment) && ahead .equal (t' :: us)) = false := by
    rw [ahead_cons, decide_eq_false hfollows.equal, Bool.and_false]
  rw [List.singleton_append, read_first (by simp), opening, hk]
  simp only [named, hahead, Bool.false_eq_true, if_false, Option.bind_some]

theorem arrives_assign {name : Token} (hname : name.kind = .identifier) (hk : t.kind = .equal)
    (h : Arrives .assignment e ts) : Arrives .assignment (.assign name.text e) (name :: t :: ts) := by
  intro n p t' us hassign hp hunary hn hfollows
  obtain rfl : p = .assignment := Power.rank_injective (Nat.le_antisymm hp hassign)
  have hlen : (ts ++ t' :: us).length ≤ n ∧ (t' :: us).length ≤ n := by
    simp only [List.length_append, List.length_cons] at hn ⊢
    omega
  have hahead : (decide (Power.assignment ≤ .assignment) && ahead .equal (t :: (ts ++ t' :: us))) =
      true := by
    rw [ahead_cons, decide_eq_true hk]
    rfl
  refine ⟨n, hlen.2, ?_⟩
  rw [List.cons_append, List.cons_append, read_first (by simp), opening, hname]
  have hsub := h.whole hassign hunary hlen.1 hfollows.power hfollows.equal
    (Power.not_le_of_left_le (.inl rfl) hfollows.power)
  simp only [named, hahead, if_true, next?_append, hsub, Option.bind_eq_bind, Option.bind_some,
    Option.pure_def]

theorem arrives_grouping {l r : Token} (hl : l.kind = .leftParen) (hr : r.kind = .rightParen)
    (h : Arrives .assignment e ts) : Arrives .primary (.grouping e) (l :: ts ++ [r]) := by
  intro n p t us _ _ _ hn _
  have hlen : (ts ++ r :: t :: us).length ≤ n ∧ (t :: us).length ≤ n := by
    simp only [List.length_append, List.length_cons, List.length_nil] at hn ⊢
    omega
  have hclose : Power.ofKind r.kind = .none ∧ r.kind ≠ .equal := by rw [hr]; exact ⟨rfl, nofun⟩
  have hsub := h.whole (Power.le_refl _) (by decide) hlen.1 (by rw [hclose.1]; decide) hclose.2
    (by rw [hclose.1]; decide)
  refine ⟨n, hlen.2, ?_⟩
  have hassoc : l :: ts ++ [r] ++ t :: us = l :: (ts ++ r :: t :: us) := by simp
  rw [hassoc, read_first (by simp), opening, hl]
  simp only [hsub, take?_cons hr (List.cons_ne_nil t us), Option.bind_eq_bind, Option.bind_some,
    Option.pure_def]

theorem arrives_unary (op : UnaryOp) (hk : t.kind = op.kind) (h : Arrives .unary e ts) :
    Arrives .unary (.unary op e) (t :: ts) := by
  intro n p t' us _ _ _ hn hfollows
  have hlen : (ts ++ t' :: us).length ≤ n ∧ (t' :: us).length ≤ n := by
    simp only [List.length_append, List.length_cons] at hn ⊢
    omega
  have hsub := h.whole (by decide) (Power.le_refl _) hlen.1 hfollows.power hfollows.equal
    (Power.not_le_of_left_le (by simp) hfollows.power)
  refine ⟨n, hlen.2, ?_⟩
  rw [List.cons_append, read_first (by simp), opening, hk]
  cases op <;> simp only [UnaryOp.kind, hsub, Option.bind_eq_bind, Option.bind_some, Option.pure_def]

/-! ## Operators -/

/-- An operator with an operand on either side. -/
theorem arrives_operator {a b : Expr} {us' : List Token} {q' : Power} (make : Expr → Expr → Expr)
    (hcont : ∀ n canAssign left ts, continuation n (read n) canAssign left t ts =
      (read n q' ts).bind fun x => some (make left x.1, x.2))
    (ha : Arrives q a ts) (hleft : Follows q a t) (hlevel : level ≤ q)
    (hpower : level ≤ Power.ofKind t.kind) (hb : Arrives q' b us') (hassign' : Power.assignment ≤ q')
    (hunary' : q' ≤ .unary) (hstop : ∀ k : TokenKind, (Power.ofKind k).left ≤ level →
      ¬ q' ≤ Power.ofKind k ∧ (Power.ofKind k).left ≤ q') :
    Arrives level (make a b) (ts ++ t :: us') := by
  intro n p t' us hassign hp hunary hn hfollows
  have hassoc : ts ++ t :: us' ++ t' :: us = ts ++ t :: (us' ++ t' :: us) := by simp
  have hlen : (ts ++ t :: (us' ++ t' :: us)).length ≤ n + 1 ∧ (us' ++ t' :: us).length ≤ n := by
    simp only [List.length_append, List.length_cons] at hn ⊢
    omega
  obtain ⟨m, hm, hread⟩ := ha hassign (Power.le_trans hp hlevel) hunary hlen.1 hleft
  obtain _ | m := m
  · simp at hm
  obtain ⟨hstops, hright⟩ := hstop t'.kind hfollows.power
  refine ⟨m, ?_, ?_⟩
  · simp only [List.length_append, List.length_cons] at hm ⊢
    omega
  · rw [hassoc, hread, rest_step (by simp) (Power.le_trans hp hpower), hcont,
      hb.whole hassign' hunary' hlen.2 hright hfollows.equal hstops]
    rfl

theorem arrives_binary {a b : Expr} {us : List Token} (op : BinaryOp) (hk : t.kind = op.kind)
    (hq : Tightens op.power q) (ha : Arrives op.power a ts) (hb : Arrives q b us) :
    Arrives op.power (.binary op a b) (ts ++ t :: us) := by
  obtain rfl := hq.next_eq
  refine arrives_operator (.binary op) (fun n canAssign left ts => ?_) ha ?_ (Power.le_refl _)
    ?_ hb ?_ ?_ (fun k h => Power.not_next_le_of_left_le h)
  · rw [continuation, hk]
    cases op <;> rfl
  · refine ⟨?_, ?_, fun _ => ?_⟩ <;> rw [hk] <;> cases op <;> decide
  · rw [hk, op.ofKind_kind]
    exact Power.le_refl _
  · cases op <;> decide
  · cases op <;> decide

theorem arrives_and {a b : Expr} {us : List Token} (hk : t.kind = .kwAnd)
    (ha : Arrives .equality a ts) (hb : Arrives .and b us) :
    Arrives .and (.and a b) (ts ++ t :: us) := by
  refine arrives_operator .and (fun _ _ _ _ => by rw [continuation, hk]; rfl) ha ?_ (by decide)
    (by rw [hk]; decide) hb (by decide) (by decide) (fun k h => ⟨Power.not_le_of_left_le (by simp) h, h⟩)
  exact ⟨by rw [hk]; decide, by rw [hk]; nofun, fun _ => by rw [hk]; nofun⟩

theorem arrives_or {a b : Expr} {us : List Token} (hk : t.kind = .kwOr)
    (ha : Arrives .and a ts) (hb : Arrives .or b us) : Arrives .or (.or a b) (ts ++ t :: us) := by
  refine arrives_operator .or (fun _ _ _ _ => by rw [continuation, hk]; rfl) ha ?_ (by decide)
    (by rw [hk]; decide) hb (by decide) (by decide) (fun k h => ⟨Power.not_le_of_left_le (by simp) h, h⟩)
  exact ⟨by rw [hk]; decide, by rw [hk]; nofun, fun _ => by rw [hk]; nofun⟩

/-! ## Arguments -/

/-- The reader of arguments takes the tokens `ts`. -/
def ArrivesAll (es : List Expr) (ts : List Token) : Prop :=
  ∀ {n b r us}, es ≠ [] → r.kind = .rightParen → us ≠ [] → (ts ++ r :: us).length ≤ n →
    (ts ++ r :: us).length ≤ b → argumentsFrom (read n) b (ts ++ r :: us) = some (es, r :: us)

/-- An argument is followed by a comma or the end of the arguments. -/
theorem Arrives.argument (h : Arrives .assignment e ts) (hn : (ts ++ t :: us).length ≤ n)
    (hk : Power.ofKind t.kind = .none) (hequal : t.kind ≠ .equal) :
    read n .assignment (ts ++ t :: us) = some (e, t :: us) :=
  h.whole (Power.le_refl _) (by decide) hn (by rw [hk]; decide) hequal (by rw [hk]; decide)

theorem arrivesAll_singleton (h : Arrives .assignment e ts) : ArrivesAll [e] ts := by
  intro n b r us _ hr _ hn hb
  obtain _ | b := b
  · simp at hb
  have hahead : ahead .comma (r :: us) = false := decide_eq_false (by rw [hr]; nofun)
  rw [argumentsFrom, h.argument hn (by rw [hr]; rfl) (by rw [hr]; nofun)]
  simp only [Option.bind_eq_bind, Option.bind_some, hahead, Bool.false_eq_true, if_false,
    Option.pure_def]

theorem arrivesAll_cons {e' : Expr} {es : List Expr} {comma : Token} {us' : List Token}
    (hk : comma.kind = .comma) (h : Arrives .assignment e ts) (h' : ArrivesAll (e' :: es) us') :
    ArrivesAll (e :: e' :: es) (ts ++ comma :: us') := by
  intro n b r us _ hr hne hn hb
  obtain _ | b := b
  · simp at hb
  have hassoc : ts ++ comma :: us' ++ r :: us = ts ++ comma :: (us' ++ r :: us) := by simp
  have hlen : (ts ++ comma :: (us' ++ r :: us)).length ≤ n ∧ (us' ++ r :: us).length ≤ n ∧
      (us' ++ r :: us).length ≤ b := by
    simp only [List.length_append, List.length_cons] at hn hb ⊢
    omega
  have hahead : ahead .comma (comma :: (us' ++ r :: us)) = true := decide_eq_true hk
  rw [hassoc, argumentsFrom, h.argument hlen.1 (by rw [hk]; rfl) (by rw [hk]; nofun)]
  simp only [Option.bind_eq_bind, Option.bind_some, hahead, if_true, next?_append,
    h' nofun hr hne hlen.2.1 hlen.2.2, Option.pure_def]

/-- Arguments in parentheses. -/
theorem arguments_eq {es : List Expr} {r : Token} (hd : Derives (.arguments es) ts) (h : ArrivesAll es ts)
    (hr : r.kind = .rightParen) (hne : us ≠ []) (hn : (ts ++ r :: us).length ≤ n) :
    arguments n (read n) (ts ++ r :: us) = some (es, us) := by
  cases es with
  | nil =>
      cases hd
      have hahead : ahead .rightParen (r :: us) = true := decide_eq_true hr
      simp only [arguments, List.nil_append, hahead, if_true, Option.bind_eq_bind, Option.bind_some,
        take?_cons hr hne, Option.pure_def]
  | cons e es =>
      have hahead : ahead .rightParen (ts ++ r :: us) = false := by
        obtain ⟨t, ts, rfl⟩ := List.exists_cons_of_length_pos (hd.pos rfl)
        have hbegins := hd.begins t rfl
        refine decide_eq_false fun hk => ?_
        rw [Phrase.BeginsWith, hk] at hbegins
        exact hbegins
      simp only [arguments, hahead, Bool.false_eq_true, if_false, h (by simp) hr hne hn hn,
        Option.bind_eq_bind, Option.bind_some, take?_cons hr hne, Option.pure_def]

/-! ## Calls and properties -/

theorem arrives_call {f : Expr} {as : List Expr} {l r : Token} {us' : List Token}
    (hl : l.kind = .leftParen) (hr : r.kind = .rightParen) (hf : f.isProperty = false)
    (h : Arrives .call f ts) (hd : Derives (.arguments as) us') (h' : ArrivesAll as us') :
    Arrives .call (.call f as) (ts ++ l :: us' ++ [r]) := by
  intro n p t us hassign hp hunary hn _
  have hassoc : ts ++ l :: us' ++ [r] ++ t :: us = ts ++ l :: (us' ++ r :: t :: us) := by simp
  have hlen : (ts ++ l :: (us' ++ r :: t :: us)).length ≤ n + 1 ∧
      (us' ++ r :: t :: us).length ≤ n := by
    simp only [List.length_append, List.length_cons, List.length_nil] at hn ⊢
    omega
  have hfollows : Follows .call f l := follows_call hl rfl fun hp => nomatch hf.symm.trans hp
  obtain ⟨m, hm, hread⟩ := h hassign hp hunary hlen.1 hfollows
  obtain _ | m := m
  · simp at hm
  refine ⟨m, ?_, ?_⟩
  · simp only [List.length_append, List.length_cons] at hm ⊢
    omega
  · rw [hassoc, hread, rest_step (by simp) (by rw [hl]; exact hp), continuation, hl]
    simp only [hf, Bool.false_eq_true, if_false, Option.bind_eq_bind, Option.bind_some,
      arguments_eq hd h' hr (List.cons_ne_nil t us) hlen.2, Option.pure_def]

/-- A property, up to what is done with it. -/
theorem arrives_member {o : Expr} {dot name : Token} (hdot : dot.kind = .dot) (h : Arrives .call o ts)
    (hassign : Power.assignment ≤ p) (hp : p ≤ .call) (hunary : p ≤ .unary)
    (hn : (ts ++ dot :: name :: us).length ≤ n + 1) :
    ∃ m, us.length ≤ m ∧ read (n + 1) p (ts ++ dot :: name :: us) =
      (property n (read n) (p ≤ .assignment) o (name :: us)).bind fun x =>
        rest n (read n) p m x.1 x.2 := by
  have hfollows : Follows .call o dot := follows_call hdot rfl nofun
  obtain ⟨m, hm, hread⟩ := h hassign hp hunary hn hfollows
  obtain _ | m := m
  · simp at hm
  refine ⟨m, ?_, ?_⟩
  · simp only [List.length_cons] at hm
    omega
  · rw [hread, rest_step (List.cons_ne_nil name us) (by rw [hdot]; exact hp), continuation, hdot]

theorem arrives_get {o : Expr} {dot name : Token} (hdot : dot.kind = .dot)
    (hname : name.kind = .identifier) (h : Arrives .call o ts) :
    Arrives .call (.get o name.text) (ts ++ [dot, name]) := by
  intro n p t us hassign hp hunary hn hfollows
  have hassoc : ts ++ [dot, name] ++ t :: us = ts ++ dot :: name :: t :: us := by simp
  rw [hassoc] at hn
  obtain ⟨m, hm, hread⟩ := arrives_member hdot h hassign hp hunary hn
  refine ⟨m, hm, ?_⟩
  have hassign' : (decide (p ≤ .assignment) && ahead .equal (t :: us)) = false := by
    rw [ahead_cons, decide_eq_false hfollows.equal, Bool.and_false]
  have hcall : ahead .leftParen (t :: us) = false := decide_eq_false (hfollows.property rfl)
  rw [hassoc, hread]
  simp only [property, take?_cons hname (List.cons_ne_nil t us), Option.bind_eq_bind, Option.bind_some,
    hassign', Bool.false_eq_true, if_false, hcall, Option.pure_def]

theorem arrives_set {o : Expr} {us' : List Token} {dot name : Token} (hdot : dot.kind = .dot)
    (hname : name.kind = .identifier) (hk : t.kind = .equal) (h : Arrives .call o ts)
    (h' : Arrives .assignment e us') :
    Arrives .assignment (.set o name.text e) (ts ++ dot :: name :: t :: us') := by
  intro n p t' us hassign hp hunary hn hfollows
  obtain rfl : p = .assignment := Power.rank_injective (Nat.le_antisymm hp hassign)
  have hassoc : ts ++ dot :: name :: t :: us' ++ t' :: us =
      ts ++ dot :: name :: t :: (us' ++ t' :: us) := by simp
  have hlen : (ts ++ dot :: name :: t :: (us' ++ t' :: us)).length ≤ n + 1 ∧
      (us' ++ t' :: us).length ≤ n := by
    simp only [List.length_append, List.length_cons] at hn ⊢
    omega
  obtain ⟨m, hm, hread⟩ := arrives_member hdot h hassign (by decide) hunary hlen.1
  have hassign' : (decide (Power.assignment ≤ .assignment) && ahead .equal (t :: (us' ++ t' :: us))) =
      true := by
    rw [ahead_cons, decide_eq_true hk]
    rfl
  have hsub := h'.whole hassign hunary hlen.2 hfollows.power hfollows.equal
    (Power.not_le_of_left_le (.inl rfl) hfollows.power)
  refine ⟨m, ?_, ?_⟩
  · simp only [List.length_append, List.length_cons] at hm ⊢
    omega
  · rw [hassoc, hread]
    simp only [property, take?_cons hname (List.cons_ne_nil t _), Option.bind_eq_bind, Option.bind_some,
      hassign', if_true, next?_append,
      hsub, Option.pure_def]

theorem arrives_invoke {o : Expr} {as : List Expr} {us' : List Token} {dot name l r : Token}
    (hdot : dot.kind = .dot) (hname : name.kind = .identifier) (hl : l.kind = .leftParen)
    (hr : r.kind = .rightParen) (h : Arrives .call o ts) (hd : Derives (.arguments as) us')
    (h' : ArrivesAll as us') :
    Arrives .call (.call (.get o name.text) as) (ts ++ [dot, name] ++ l :: us' ++ [r]) := by
  intro n p t us hassign hp hunary hn _
  have hassoc : ts ++ [dot, name] ++ l :: us' ++ [r] ++ t :: us =
      ts ++ dot :: name :: l :: (us' ++ r :: t :: us) := by simp
  have hlen : (ts ++ dot :: name :: l :: (us' ++ r :: t :: us)).length ≤ n + 1 ∧
      (us' ++ r :: t :: us).length ≤ n := by
    simp only [List.length_append, List.length_cons, List.length_nil] at hn ⊢
    omega
  obtain ⟨m, hm, hread⟩ := arrives_member hdot h hassign hp hunary hlen.1
  have hassign' : (decide (p ≤ .assignment) && ahead .equal (l :: (us' ++ r :: t :: us))) = false := by
    rw [ahead_cons, hl]
    exact Bool.and_false _
  have hcall : ahead .leftParen (l :: (us' ++ r :: t :: us)) = true := decide_eq_true hl
  refine ⟨m, ?_, ?_⟩
  · simp only [List.length_append, List.length_cons] at hm ⊢
    omega
  · rw [hassoc, hread]
    simp only [property, take?_cons hname (List.cons_ne_nil l _), Option.bind_eq_bind, Option.bind_some,
      hassign', Bool.false_eq_true, if_false, hcall, if_true,
      next?_append,
      arguments_eq hd h' hr (List.cons_ne_nil t us) hlen.2, Option.pure_def]

/-! ## Superclasses -/

theorem arrives_super {dot name : Token} (hk : t.kind = .kwSuper) (hdot : dot.kind = .dot)
    (hname : name.kind = .identifier) : Arrives .primary (.super name.text) [t, dot, name] := by
  intro n p t' us _ _ _ hn hfollows
  have hcall : ahead .leftParen (t' :: us) = false := decide_eq_false (hfollows.property rfl)
  refine ⟨n, ?_, ?_⟩
  · simp only [List.length_append, List.length_cons] at hn ⊢
    omega
  · change read (n + 1) p (t :: dot :: name :: t' :: us) = _
    rw [read_first (List.cons_ne_nil _ _), opening, hk]
    simp only [super, take?_cons hdot (List.cons_ne_nil name _), take?_cons hname (List.cons_ne_nil t' _),
      Option.bind_eq_bind, Option.bind_some, hcall, Bool.false_eq_true, if_false, Option.pure_def]

theorem arrives_superInvoke {as : List Expr} {us' : List Token} {dot name l r : Token}
    (hk : t.kind = .kwSuper) (hdot : dot.kind = .dot) (hname : name.kind = .identifier)
    (hl : l.kind = .leftParen) (hr : r.kind = .rightParen) (hd : Derives (.arguments as) us')
    (h : ArrivesAll as us') :
    Arrives .call (.call (.super name.text) as) ([t, dot, name] ++ l :: us' ++ [r]) := by
  intro n p t' us _ _ _ hn _
  have hassoc : [t, dot, name] ++ l :: us' ++ [r] ++ t' :: us =
      t :: dot :: name :: l :: (us' ++ r :: t' :: us) := by simp
  have hlen : (us' ++ r :: t' :: us).length ≤ n ∧ (t' :: us).length ≤ n := by
    simp only [List.length_append, List.length_cons, List.length_nil] at hn ⊢
    omega
  have hcall : ahead .leftParen (l :: (us' ++ r :: t' :: us)) = true := decide_eq_true hl
  refine ⟨n, hlen.2, ?_⟩
  rw [hassoc, read_first (List.cons_ne_nil _ _), opening, hk]
  simp only [super, take?_cons hdot (List.cons_ne_nil name _), take?_cons hname (List.cons_ne_nil l _),
    Option.bind_eq_bind, Option.bind_some, hcall, if_true,
    next?_append,
    arguments_eq hd h hr (List.cons_ne_nil t' us) hlen.1, Option.pure_def]

end Steps

/-! ## Whole expressions -/

/-- What is shown of phrases by induction on the grammar. The object of a property can be read on
its own, as a call of the property has rules of its own. -/
def Readable : Phrase → List Token → Prop
  | .expression q e, ts => Arrives q e ts ∧ ∀ o name, e = .get o name → q = .call →
      ∃ ts' dot t, ts = ts' ++ [dot, t] ∧ dot.kind = .dot ∧ t.kind = .identifier ∧ t.text = name ∧
        Arrives .call o ts'
  | .arguments es, ts => ArrivesAll es ts
  | _, _ => True

theorem Arrives.readable {q : Power} {e : Expr} {ts : List Token} (h : Arrives q e ts)
    (he : ∀ o name, e ≠ .get o name) : Readable (.expression q e) ts :=
  ⟨h, fun o name heq => absurd heq (he o name)⟩

theorem readable {x : Phrase} {ts : List Token} (h : Derives x ts) : Readable x ts := by
  induction h with
  | number hk hm =>
      exact Arrives.readable (arrives_token fun _ _ _ => by rw [opening, hk]; simp [hm]) nofun
  | string hk => exact Arrives.readable (arrives_token fun _ _ _ => by rw [opening, hk]) nofun
  | nil hk => exact Arrives.readable (arrives_token fun _ _ _ => by rw [opening, hk]) nofun
  | true hk => exact Arrives.readable (arrives_token fun _ _ _ => by rw [opening, hk]) nofun
  | false hk => exact Arrives.readable (arrives_token fun _ _ _ => by rw [opening, hk]) nofun
  | «variable» hk => exact Arrives.readable (arrives_variable hk) nofun
  | this hk => exact Arrives.readable (arrives_token fun _ _ _ => by rw [opening, hk]) nofun
  | super hk hdot hname => exact Arrives.readable (arrives_super hk hdot hname) nofun
  | grouping hl hr _ ih => exact Arrives.readable (arrives_grouping hl hr ih.1) nofun
  | @call l r f as ts us hl hr hf has ih ih' =>
      refine Arrives.readable ?_ nofun
      cases f with
      | get o name =>
          obtain ⟨ts', dot, t, rfl, hdot, ht, rfl, ho⟩ := ih.2 o name rfl rfl
          exact arrives_invoke hdot ht hl hr ho has ih'
      | super name =>
          obtain ⟨t, dot, nm, rfl, hk, hdot, hname, rfl⟩ := hf.eq_super rfl
          exact arrives_superInvoke hk hdot hname hl hr has ih'
      | _ => exact arrives_call hl hr rfl ih.1 has ih'
  | get hdot hname _ ih =>
      refine ⟨arrives_get hdot hname ih.1, fun o name heq _ => ?_⟩
      obtain ⟨rfl, rfl⟩ := Expr.get.inj heq
      exact ⟨_, _, _, rfl, hdot, hname, rfl, ih.1⟩
  | unary op hk _ ih => exact Arrives.readable (arrives_unary op hk ih.1) nofun
  | binary op hk hq _ _ ih ih' => exact Arrives.readable (arrives_binary op hk hq ih.1 ih'.1) nofun
  | and hk _ _ ih ih' => exact Arrives.readable (arrives_and hk ih.1 ih'.1) nofun
  | or hk _ _ ih ih' => exact Arrives.readable (arrives_or hk ih.1 ih'.1) nofun
  | assign hname hk _ ih => exact Arrives.readable (arrives_assign hname hk ih.1) nofun
  | set hdot hname hk _ _ ih ih' =>
      exact Arrives.readable (arrives_set hdot hname hk ih.1 ih'.1) nofun
  | tighter hq hd ih =>
      refine ⟨Arrives.tighter ih.1 hq, fun o name heq hcall => ?_⟩
      subst heq hcall
      cases hq
      exact (hd.get_not_primary rfl).elim
  | noArguments => exact fun hne => absurd rfl hne
  | lastArgument _ ih => exact arrivesAll_singleton ih.1
  | argument hk _ _ ih ih' => exact arrivesAll_cons hk ih.1 ih'
  | _ => trivial

end Reader

/-- What the grammar derives is read, up to a token that cannot continue it. -/
theorem Derives.read {e : Expr} {ts us : List Token} {t : Token} {n : Nat}
    (hd : Derives (.expression .assignment e) ts) (hn : (ts ++ t :: us).length ≤ n)
    (hk : Power.ofKind t.kind = .none) (hequal : t.kind ≠ .equal) :
    Reader.read n .assignment (ts ++ t :: us) = some (e, t :: us) :=
  Reader.Arrives.argument (Reader.readable hd).1 hn hk hequal

/-- Some expression goes on with this token. -/
def Extends (t : Token) : Prop :=
  ∃ e e' ts us, Derives (.expression .assignment e) ts ∧
    Derives (.expression .assignment e') (ts ++ t :: us)

theorem power_of_not_extends {t : Token} (h : ¬ Extends t) : Power.ofKind t.kind = .none := by
  have hnil : Derives (.expression .primary .nil) [⟨.kwNil, [], 0⟩] := .nil rfl
  have hwhole := hnil.loosen (p := .assignment) (by decide) (by decide)
  have hcall := hnil.loosen (p := .call) (by decide) (by decide)
  refine Decidable.byContradiction fun hpower => h ?_
  have hkind : t.kind = .leftParen ∨ t.kind = .dot ∨ t.kind = .kwAnd ∨ t.kind = .kwOr ∨
      ∃ op : BinaryOp, t.kind = op.kind := by
    cases hop : BinaryOp.ofKind? t.kind with
    | some op => exact .inr (.inr (.inr (.inr ⟨op, BinaryOp.kind_of_ofKind? hop⟩)))
    | none => cases hk : t.kind <;> rw [hk] at hpower hop <;> simp_all [Power.ofKind, BinaryOp.ofKind?]
  rcases hkind with hk | hk | hk | hk | ⟨op, hk⟩
  · have hpair := Derives.call (r := ⟨.rightParen, [], 0⟩) hk rfl hcall .noArguments
    exact ⟨_, _, _, _, hwhole, hpair.loosen (by decide) (by decide)⟩
  · have hget : Derives (.expression .call (.get .nil _)) ([_] ++ [t, ⟨.identifier, [], 0⟩]) :=
      .get hk rfl hcall
    exact ⟨_, _, _, _, hwhole, hget.loosen (by decide) (by decide)⟩
  · have hand := Derives.and hk (hnil.loosen (by decide) (by decide)) (hnil.loosen (by decide) (by decide))
    exact ⟨_, _, _, _, hwhole, hand.loosen (by decide) (by decide)⟩
  · have hor := Derives.or hk (hnil.loosen (by decide) (by decide)) (hnil.loosen (by decide) (by decide))
    exact ⟨_, _, _, _, hwhole, hor.loosen (by decide) (by decide)⟩
  · have hbinary := Derives.binary op hk op.tightens
      (hnil.loosen (by cases op <;> decide) (by cases op <;> decide))
      (hnil.loosen (by cases op <;> decide) (by cases op <;> decide))
    exact ⟨_, _, _, _, hwhole, hbinary.loosen (by decide) (by cases op <;> decide)⟩

theorem ne_equal_of_not_extends {t : Token} (h : ¬ Extends t) : t.kind ≠ .equal := by
  have hnil : Derives (.expression .assignment .nil) [⟨.kwNil, [], 0⟩] :=
    Derives.loosen (.nil rfl) (by decide) (by decide)
  have hname : Derives (.expression .assignment _) [⟨.identifier, [], 0⟩] :=
    Derives.loosen (.variable rfl) (by decide) (by decide)
  exact fun hk => h ⟨_, _, _, _, hname, .assign rfl hk hnil⟩

/-- The tokens that go on with an expression are the operators and the sign of an assignment. -/
theorem not_extends {t : Token} (hk : Power.ofKind t.kind = .none) (hequal : t.kind ≠ .equal) :
    ¬ Extends t := by
  rintro ⟨e, e', ts, us, hd, hd'⟩
  have hread := hd.read (Nat.le_refl (ts ++ t :: (us ++ [Token.eof 0])).length) hk hequal
  have hread' := hd'.read (Nat.le_refl (ts ++ t :: us ++ [Token.eof 0]).length) rfl (by decide)
  rw [List.append_assoc, List.cons_append] at hread'
  rw [hread] at hread'
  have hlength := congrArg (fun r => r.2.length) (Option.some.inj hread')
  simp at hlength

/-- Tokens have at most one tree. -/
theorem Derives.unique {e e' : Expr} {ts : List Token} (hd : Derives (.expression .assignment e) ts)
    (hd' : Derives (.expression .assignment e') ts) : e = e' := by
  have hread := hd.read (Nat.le_refl (ts ++ [Token.eof 0]).length) rfl (by decide)
  rw [hd'.read (Nat.le_refl _) rfl (by decide)] at hread
  exact (Prod.mk.inj (Option.some.inj hread)).1.symm

end LoxMachine.Syntax
