import LoxMachine.Proofs.Compile.Script
import LoxMachine.Proofs.Guarded.Statements

/-!
# Guarded scripts

Reading a first token leaves a builder with enough tokens, so a whole script is followed by its guarded
form. Every text is therefore compiled in the end, by as many rounds as it has tokens, and nothing that
makes no sense is ever done on the way: `compile_ends` and `compile_safe`.
-/

namespace LoxMachine

/-! ## How many tokens there are -/

/-- Every token but the last one takes a cluster. -/
theorem Scanner.length_tokens_le (s : Scanner) : s.tokens.length ≤ s.rest.length + 1 := by
  rw [tokens_eq]
  split
  · simp
  · have hlt := next_shorter (s := s) (by assumption)
    have ih := length_tokens_le s.next.2
    rw [List.length_cons]
    omega
termination_by s.rest.length
decreasing_by exact next_shorter (by assumption)

namespace Guarded

open Builder Statement

/-! ## Scripts -/

theorem within_first {tokens : List Token} (hends : EndOnce tokens) (firstIndex : Nat) :
    (Builder.advance (Program.start firstIndex tokens)).2.Within tokens.length {} := by
  have hfed : (Builder.advance (Program.start firstIndex tokens)).2.Fed := .pull (.inr hends)
  refine ⟨hfed, ?_, Nat.zero_le _, Nat.zero_le _, Nat.zero_le _⟩
  rw [hfed.left_eq]
  change (Builder.pull { Program.start firstIndex tokens with previous := _ } tokens).upcoming.length < _
  obtain ⟨inner, last, rfl, -⟩ := hends
  cases hts : inner ++ [last] with
  | nil => simp at hts
  | cons t us =>
      rw [Builder.pull]
      split
      · exact Nat.lt_succ_of_le (upcoming_pull _ us)
      · exact Nat.lt_succ_self _

instance : Balanced isUnread := by
  unfold isUnread
  infer_instance

instance (bound : Nat) : Balanced (Program.script bound) :=
  inferInstanceAs (Balanced (do
    Builder.advance
    Builder.repeatWhile isUnread (Statement.declaration (bound + 1)) bound
    emitReturn))

theorem isUnread_run (s : Builder) :
    isUnread s = if s.current.kind = .eof then (false, (Builder.advance s).2) else (true, s) := by
  rw [isUnread]
  split
  · exact bind_of_run (accept_of_eq (by assumption))
  · exact bind_of_run (accept_of_ne (by assumption))

/-- Where the end has not been reached, nothing has been read to see it. -/
theorem isUnread_goes {s : Builder} (h : (isUnread s).1 = true) :
    s.current.kind ≠ .eof ∧ (isUnread s).2 = s := by
  rw [isUnread_run] at h ⊢
  split at h
  · cases h
  · exact ⟨by assumption, by rw [if_neg (by assumption)]⟩

theorem agrees_script {w : Bool} (recover : Nat → Guarded Unit) [Recovers w recover]
    {tokens : List Token} (hends : EndOnce tokens) {n : Nat} (hn : tokens.length ≤ n)
    (firstIndex : Nat) :
    Agrees w (script recover n (Program.start firstIndex tokens))
      (Program.script tokens.length (Program.start firstIndex tokens)) := by
  have hdeclaration := (follows_knot (w := w) recover (Nat.le_succ tokens.length)
    (Nat.le_succ_of_le hn) {}).2
  have : Follows w tokens.length {}
      (repeatWhile isUnread (declaration recover (n + 1)) n)
      (Builder.repeatWhile isUnread (Statement.declaration (tokens.length + 1)) tokens.length) := by
    refine follows_repeatWhile (fun s hs hgo => ?_) (Nat.le_refl _) hn
    obtain ⟨hne, hsame⟩ := isUnread_goes hgo
    rw [hsame]
    exact takes_declaration _ s hs.fed hne
  have hrest : Follows w tokens.length {} (do
      repeatWhile isUnread (declaration recover (n + 1)) n
      emitReturn) (do
      Builder.repeatWhile isUnread (Statement.declaration (tokens.length + 1)) tokens.length
      emitReturn) := inferInstance
  exact .bind (.inl rfl) (fun _ => inferInstance) (hrest.agrees _ (within_first hends firstIndex))

/-- Compiling by guarded rules gives what compiling gives. -/
theorem compile_eq (n firstIndex : Nat) (source : String)
    (hn : (Scanner.ofString source).tokens.length ≤ n) :
    compile synchronize n firstIndex source = .ok (Program.compile firstIndex source) := by
  have hagrees := agrees_script (w := false) synchronize
    (Scanner.tokens_spec (Scanner.ofString source)).2 hn firstIndex
  rw [compile, hagrees.resolve_right nofun]
  rfl

/-! ## Every rule -/

/-- The rules that texts are compiled by. -/
inductive Rule where
  /-- An expression whose operators bind at least as tightly. -/
  | expression (least : Power)
  /-- What the token last read begins. -/
  | opening (canAssign : Bool)
  /-- What the token last read continues. -/
  | continuation (canAssign : Bool)
  | named (name : String) (canAssign : Bool)
  | arguments
  | print | assert | expressionStatement | ret | block | variable | branch | while | for
  | statement
  | function (kind : BodyKind)
  | functionDeclaration | method | classDeclaration | declaration

namespace Rule

/-- An expression is asked for where an assignment may stand, or within operators. -/
def Called : Rule → Prop
  | .expression least => .assignment ≤ least
  | _ => True

/-- What the rule does where fewer than `n` tokens are left. -/
def run (n : Nat) : Rule → Build Unit
  | .expression least => Expression.within n least
  | .opening canAssign => do
    match Expression.opening n (Expression.within n) canAssign (← get).previous.kind with
    | none => pure ()
    | some first => first
  | .continuation canAssign => do
    Expression.continuation n (Expression.within n) canAssign (← get).previous.kind
  | .named name canAssign => Expression.named (Expression.within n) name canAssign
  | .arguments => do
    let _ ← Expression.arguments n (Expression.within n)
  | .print => Statement.printStatement (Statement.partsWithin n)
  | .assert => Statement.assertStatement (Statement.partsWithin n)
  | .expressionStatement => Statement.expressionStatement (Statement.partsWithin n)
  | .ret => Statement.returnStatement (Statement.partsWithin n)
  | .block => Statement.block (Statement.partsWithin n)
  | .variable => Statement.variableDeclaration (Statement.partsWithin n)
  | .branch => Statement.ifStatement (Statement.partsWithin n)
  | .while => Statement.whileStatement (Statement.partsWithin n)
  | .for => Statement.forStatement (Statement.partsWithin n)
  | .statement => Statement.statement n
  | .function kind => Statement.function (Statement.partsWithin n) kind
  | .functionDeclaration => Statement.functionDeclaration (Statement.partsWithin n)
  | .method => Statement.method (Statement.partsWithin n)
  | .classDeclaration => Statement.classDeclaration (Statement.partsWithin n)
  | .declaration => Statement.declaration n

end Rule

/-- The guarded parts of a construct where at most `n` tokens are left. -/
def partsWithin (recover : Nat → Guarded Unit) (n : Nat) : Parts :=
  ⟨n, within (n + 1) .assignment, statement recover n, declaration recover n, recover (n + 1)⟩

/-- The guarded form of a rule. -/
def Rule.guarded (n : Nat) : Rule → Guarded Unit
  | .expression least => within n least
  | .opening canAssign => do
    match Guarded.opening n (within n) canAssign (← get).previous.kind with
    | none => pure ()
    | some first => first
  | .continuation canAssign => do
    Guarded.continuation n (within n) canAssign (← get).previous.kind
  | .named name canAssign => Guarded.named (within n) name canAssign
  | .arguments => do
    let _ ← Guarded.arguments n (within n)
  | .print => Guarded.printStatement (partsWithin synchronize n)
  | .assert => Guarded.assertStatement (partsWithin synchronize n)
  | .expressionStatement => Guarded.expressionStatement (partsWithin synchronize n)
  | .ret => Guarded.returnStatement (partsWithin synchronize n)
  | .block => Guarded.block (partsWithin synchronize n)
  | .variable => Guarded.variableDeclaration (partsWithin synchronize n)
  | .branch => Guarded.ifStatement (partsWithin synchronize n)
  | .while => Guarded.whileStatement (partsWithin synchronize n)
  | .for => Guarded.forStatement (partsWithin synchronize n)
  | .statement => Guarded.statement synchronize n
  | .function kind => Guarded.function (partsWithin synchronize n) kind
  | .functionDeclaration => Guarded.functionDeclaration (partsWithin synchronize n)
  | .method => Guarded.method (partsWithin synchronize n)
  | .classDeclaration => Guarded.classDeclaration (partsWithin synchronize n)
  | .declaration => Guarded.declaration synchronize n

theorem partsFollow_within {w : Bool} (recover : Nat → Guarded Unit) [hrec : Recovers w recover]
    (n : Nat) : PartsFollow w n (partsWithin recover n) (Statement.partsWithin n) where
  bound := Nat.le_refl n
  guardedBound := Nat.le_refl n
  expression := fun _ => follows_within (by decide) (Nat.le_refl _) (Nat.le_refl _)
  statement := fun r => (follows_knot recover (Nat.le_refl n) (Nat.le_refl n) r).1
  declaration := fun r => (follows_knot recover (Nat.le_refl n) (Nat.le_refl n) r).2
  recover := fun _ => hrec.follows (Nat.le_refl n) (Nat.le_refl n)
  takes := fun hn => by
    obtain ⟨k, rfl⟩ := Nat.exists_eq_add_one_of_ne_zero (Nat.ne_of_gt hn)
    exact takes_declaration k

section Parts

variable (n : Nat)

instance : Balanced (Statement.partsWithin n).expression :=
  inferInstanceAs (Balanced (Expression.parse n .assignment))

instance : Balanced (Statement.partsWithin n).statement :=
  inferInstanceAs (Balanced (Statement.statement n))

instance : Balanced (Statement.partsWithin n).declaration :=
  inferInstanceAs (Balanced (Statement.declaration n))

instance (rule : Rule) : Balanced (rule.run n) := by
  cases rule <;> dsimp only [Rule.run]
  case opening canAssign =>
    refine Balanced.bind inferInstance fun s => ?_
    split
    · infer_instance
    · exact Expression.balanced_opening n (Expression.within n) (by assumption)
  all_goals infer_instance

theorem followsOperand_within (p : Power) (hp : Power.assignment ≤ p) :
    FollowsOperand false n (within n) (Expression.within n) p :=
  fun _ => follows_within hp (Nat.le_refl _) (Nat.le_refl _)

theorem follows_rule_run {rule : Rule} (h : rule.Called) :
    Follows false n {} (rule.guarded n) (rule.run n) := by
  have := partsFollow_within (w := false) synchronize n
  have := followsOperand_within n .assignment (by decide)
  have := followsOperand_within n .unary (by decide)
  have := followsOperand_within n .and (by decide)
  have := followsOperand_within n .or (by decide)
  have (p : Power) := followsOperand_within n p.next (by cases p <;> decide)
  cases rule <;> dsimp only [Rule.run, Rule.guarded]
  case expression least => exact followsOperand_within n least h {}
  case opening canAssign =>
    refine ⟨fun s hs => ?_⟩
    change Agrees false
      ((match Guarded.opening n (within n) canAssign s.previous.kind with
        | none => pure ()
        | some first => first : Guarded Unit) s)
      ((match Expression.opening n (Expression.within n) canAssign s.previous.kind with
        | none => pure ()
        | some first => first : Build Unit) s)
    rcases followsAt_opening (w := false) (r := {}) (within n) (Expression.within n)
      (Nat.le_refl n) (Nat.le_refl n) canAssign s.previous.kind with ⟨h, h'⟩ | ⟨x, y, h, h', hxy⟩
    · rw [h, h']
      exact .inl rfl
    · rw [h, h']
      exact hxy s hs rfl
  case continuation canAssign =>
    exact ⟨fun s hs => followsAt_continuation (Nat.le_refl n) (Nat.le_refl n) canAssign _ s hs rfl⟩
  case arguments =>
    have := follows_arguments (w := false) (r := {}) (within n) (Expression.within n)
      (Nat.le_refl n) (Nat.le_refl n)
    infer_instance
  case expressionStatement => exact (follows_expressionStatement _ _).mono (Nat.le_succ n)
  case statement => exact (follows_knot synchronize (Nat.le_refl n) (Nat.le_refl n) {}).1
  case declaration => exact (follows_knot synchronize (Nat.le_refl n) (Nat.le_refl n) {}).2
  all_goals infer_instance

end Parts

/-! ## Every loop -/

/-- The loops in which texts are compiled. -/
inductive Loop where
  | script | block | classBody | parameters
  | arguments (count : Nat)
  | operators (least : Power) (canAssign : Bool)
  | skipping

namespace Loop

/-- Operators are looked for where an assignment may stand, or within operators. -/
def Called : Loop → Prop
  | .operators least _ => .assignment ≤ least
  | _ => True

/-- One round where fewer than `n` tokens are left; whether there is another one to come. -/
def round (n : Nat) : Loop → Guarded Bool
  | .script => Option.isSome <$> whileStep isUnread (Guarded.declaration synchronize n) ()
  | .block => Option.isSome <$> whileStep insideBraces (Guarded.declaration synchronize n) ()
  | .classBody =>
    Option.isSome <$> whileStep insideBraces (Guarded.method (partsWithin synchronize n)) ()
  | .parameters => Option.isSome <$> whileStep (accept .comma) Statement.parameter ()
  | .arguments count => Option.isSome <$> argumentStep (within n) count
  | .operators least canAssign =>
    Option.isSome <$> whileStep (continues least) (operator n (within n) canAssign) ()
  | .skipping => Option.isSome <$> whileStep isLost Builder.advance ()

end Loop

/-- A round of a loop with a condition ends the loop or takes a token. -/
theorem whileStep_run {n : Nat} {c : Build Bool} {x : Guarded Unit} {y : Build Unit} {s : Builder}
    [hc : Balanced c] [hx : Follows false n {} x y] (hs : s.Within n {})
    (hless : (c s).1 = true → (y (c s).2).2.left < s.left) :
    ∃ more s', (Option.isSome <$> whileStep c x ()) s = .ok (more, s') ∧
      (more = true → s'.left < s.left) := by
  have hstep : Option.isSome <$> whileStep c x () =
      (liftM c >>= fun go => if go = true then x >>= fun _ => pure true else pure false) := by
    simp only [whileStep, map_bind]
    congr 1
    funext go
    cases go
    · rfl
    · simp only [if_true, map_bind, map_pure]
      rfl
  rw [hstep, bind_ok (rfl : (liftM c : Guarded Bool) s = .ok (c s))]
  cases hgo : (c s).1
  · exact ⟨false, (c s).2, rfl, by simp⟩
  · have hx := (hx.agrees _ (hs.nests (hc.nests s))).resolve_right (by simp)
    exact ⟨true, (y (c s).2).2, bind_ok hx, fun _ => hless hgo⟩

/-- Every round of a loop ends the loop or takes a token. -/
theorem round_run {loop : Loop} (h : loop.Called) {n : Nat} {s : Builder} (hs : s.Within n {}) :
    ∃ more s', loop.round n s = .ok (more, s') ∧ (more = true → s'.left < s.left) := by
  have hpos : ∃ k, n = k + 1 := Nat.exists_eq_add_one_of_ne_zero (Nat.ne_zero_of_lt hs.left)
  have htakes : Takes (Statement.declaration n) := by
    obtain ⟨k, rfl⟩ := hpos
    exact takes_declaration k
  have hparts := partsFollow_within (w := false) synchronize n
  have hdeclaration := (follows_knot (w := false) synchronize (Nat.le_refl n) (Nat.le_refl n) {}).2
  cases loop with
  | script =>
      refine whileStep_run (y := Statement.declaration n) hs fun hgo => ?_
      obtain ⟨hne, hsame⟩ := isUnread_goes hgo
      rw [hsame]
      exact htakes s hs.fed hne
  | block =>
      exact whileStep_run (y := Statement.declaration n) hs fun hgo =>
        htakes s hs.fed (not_eof_of_insideBraces hgo)
  | classBody =>
      exact whileStep_run (y := Statement.method (Statement.partsWithin n)) hs fun hgo =>
        left_method_lt hs.fed hs.left htakes hgo
  | parameters =>
      refine whileStep_run (y := Statement.parameter) hs fun hgo => ?_
      have hread := Balanced.nests (x := accept .comma) s
      exact Nat.lt_of_le_of_lt ((Balanced.nests _).left_le (hread.fed hs.fed))
        (left_accept_lt hs.fed (by simp) hgo)
  | arguments count =>
      have hstep : Option.isSome <$> argumentStep (within n) count = argument (within n) count := by
        rw [← bind_pure (argument (within n) count)]
        simp only [argumentStep, map_bind]
        congr 1
        funext more
        cases more <;> rfl
      have := followsOperand_within n .assignment (by decide)
      have hx := (Follows.agrees (w := false) (x := argument (within n) count)
        (y := oneArgument (Expression.within n) count) s hs).resolve_right (by simp)
      exact ⟨_, _, hstep ▸ hx, left_oneArgument_lt (Expression.within n) hs.fed⟩
  | operators least canAssign =>
      have := followsOperand_within n .assignment (by decide)
      have := followsOperand_within n .and (by decide)
      have := followsOperand_within n .or (by decide)
      have (p : Power) := followsOperand_within n p.next (by cases p <;> decide)
      have := follows_operator (w := false) (r := {}) (within n)
        (Expression.within n) (Nat.le_refl n) (Nat.le_refl n) canAssign
      exact whileStep_run hs fun hgo =>
        left_operator_lt n (Expression.within n) canAssign hs.fed h hgo
  | skipping =>
      exact whileStep_run (y := Builder.advance) hs fun hgo => left_advance_of_lost hs.fed hgo

/-! ## Compiling -/

/-- Compiling ends for every text. A text has at most one token more than clusters; and where every
loop has as many rounds as there are tokens, or more, and no more rules stand inside each other, no
bound is used up. For a round of a loop, wherever it starts, ends the loop or takes a token; and a
rule, wherever it starts, is never refused a round or a rule inside itself because no token has been
taken since. -/
theorem compile_ends :
    (∀ source : String, (Scanner.ofString source).tokens.length ≤
      (Text.clusters source.toList).length + 1) ∧
    (∀ (n firstIndex : Nat) (source : String), (Scanner.ofString source).tokens.length ≤ n →
      compile synchronize n firstIndex source = .ok (Program.compile firstIndex source)) ∧
    (∀ (loop : Loop) (n : Nat) (s : Builder), loop.Called → s.Fed → s.left < n →
      ∃ more s', loop.round n s = .ok (more, s') ∧ (more = true → s'.left < s.left)) ∧
    ∀ (rule : Rule) (n : Nat) (s : Builder), rule.Called → s.Fed → s.left < n →
      rule.guarded n s = .ok (rule.run n s) := by
  have hwithin {n : Nat} {s : Builder} (hs : s.Fed) (hn : s.left < n) : s.Within n {} :=
    ⟨hs, hn, Nat.zero_le _, Nat.zero_le _, Nat.zero_le _⟩
  refine ⟨fun source => Scanner.length_tokens_le _, fun n i source hn => compile_eq n i source hn,
    fun loop n s h hs hn => round_run h (hwithin hs hn), fun rule n s h hs hn => ?_⟩
  exact ((follows_rule_run n h).agrees s (hwithin hs hn)).resolve_right nofun

/-- A class body that begins with a stray token, and its tokens from the first one on. -/
theorem compile_ends_stray :
    compile synchronize 6 0 "class A { 1 }" = .ok (Program.compile 0 "class A { 1 }") ∧
    (∃ more s', Loop.classBody.round 6 (Builder.advance (Program.start 0
        (Scanner.ofString "class A { 1 }").tokens)).2 = .ok (more, s') ∧
      (more = true → s'.left < 6)) ∧
    Rule.guarded 6 .declaration (Builder.advance (Program.start 0
      (Scanner.ofString "class A { 1 }").tokens)).2 =
      .ok (Rule.run 6 .declaration (Builder.advance (Program.start 0
        (Scanner.ofString "class A { 1 }").tokens)).2) := by
  have hlength : (Scanner.ofString "class A { 1 }").tokens.length = 6 := by decide +kernel
  have hs := within_first (Scanner.tokens_spec (Scanner.ofString "class A { 1 }")).2 0
  rw [hlength] at hs
  refine ⟨compile_ends.2.1 6 0 _ (Nat.le_of_eq hlength), ?_,
    compile_ends.2.2.2 .declaration 6 _ trivial hs.fed hs.left⟩
  obtain ⟨more, s', hround, hless⟩ := compile_ends.2.2.1 .classBody 6 _ trivial hs.fed hs.left
  exact ⟨more, s', hround, fun hmore => Nat.lt_trans (hless hmore) hs.left⟩

/-- What is left of the builder when the whole text has been read. -/
def final (firstIndex : Nat) (source : String) : Builder :=
  (Program.script (Scanner.ofString source).tokens.length
    (Program.start firstIndex (Scanner.ofString source).tokens)).2

/-- Compiling does nothing that makes no sense, whatever the text is. Wherever a rule starts, none of
its steps is refused, and it leaves as many scopes, functions and classes open as it finds; so when
the whole text has been read, the script itself is being compiled and nothing is open. -/
theorem compile_safe :
    (∀ (rule : Rule) (n : Nat) (s : Builder), rule.Called → s.Fed → s.left < n →
      ∃ s', rule.guarded n s = .ok ((), s') ∧ rule.run n s = ((), s') ∧ s'.Fed ∧
        s'.body.depth = s.body.depth ∧ s'.body.kind = s.body.kind ∧
        s'.outer.length = s.outer.length ∧ s'.classes = s.classes) ∧
    ∀ (firstIndex : Nat) (source : String),
      compile synchronize (Scanner.ofString source).tokens.length firstIndex source =
        .ok (Program.conclude (final firstIndex source)) ∧
      (final firstIndex source).body.kind = .script ∧ (final firstIndex source).body.depth = 0 ∧
      (final firstIndex source).outer = [] ∧ (final firstIndex source).classes = [] := by
  constructor
  · intro rule n s h hs hn
    have hrun := (follows_rule_run n h).agrees s
      ⟨hs, hn, Nat.zero_le _, Nat.zero_le _, Nat.zero_le _⟩
    have hnests := Balanced.nests (x := rule.run n) s
    exact ⟨(rule.run n s).2, hrun.resolve_right nofun, rfl, hnests.fed hs, hnests.depth, hnests.kind,
      hnests.around.length_eq.symm, hnests.classes⟩
  · intro firstIndex source
    have hnests := Balanced.nests (x := Program.script (Scanner.ofString source).tokens.length)
      (Program.start firstIndex (Scanner.ofString source).tokens)
    refine ⟨compile_eq _ firstIndex source (Nat.le_refl _), hnests.kind, hnests.depth, ?_,
      hnests.classes⟩
    exact List.length_eq_zero_iff.mp hnests.around.length_eq.symm

/-- A block that is not closed is left all the same. -/
theorem compile_safe_unclosed : ∃ s',
    Rule.guarded 3 .declaration (Builder.advance (Program.start 0
      (Scanner.ofString "\x7b \x7b").tokens)).2 = .ok ((), s') ∧ s'.body.depth = 0 := by
  have hlength : (Scanner.ofString "\x7b \x7b").tokens.length = 3 := by decide +kernel
  have hs := within_first (Scanner.tokens_spec (Scanner.ofString "\x7b \x7b")).2 0
  rw [hlength] at hs
  obtain ⟨s', hrun, -, -, hdepth, -⟩ := compile_safe.1 .declaration 3 _ trivial hs.fed hs.left
  exact ⟨s', hrun, hdepth.trans (congrArg Body.depth (pull_apart _ _).1)⟩

end Guarded

end LoxMachine
