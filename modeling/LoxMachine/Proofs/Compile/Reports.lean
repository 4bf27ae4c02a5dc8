import LoxMachine.Proofs.Compile.Lined
import LoxMachine.Proofs.Compile.Logged
import LoxMachine.Proofs.Guarded.Script
import LoxMachine.Proofs.Verdict.Script

/-!
# Reported errors

Main statement: `Program.errors_follow_source`.

The errors of a text are what is kept of the reports that its compilation makes (`Logged.compile`): none is
lost but in a panic. Text that is no token is read past and reported.

Their lines never decrease. An error belongs to the token last read, to the current token, or to text
between the current token and the next one that is no token. After a recovery there may be an error at the
current token already, so an error at the token last read would come out of order until a token is taken
(`Ordered`). Each rule that can report such an error either takes a token first, or stands behind one that
was taken since (`KeepsOrder`).
-/

namespace LoxMachine

namespace Builder

variable {s s' : Builder}

/-! ## Lines of errors -/

/-- Tokens and errors come in the order of their lines, and no error is beyond the current token. If a
token was taken since the last panic ended, none is beyond the token last read. -/
structure Ordered (taken : Bool) (s : Builder) : Prop where
  fed : s.Fed
  tokens : (s.previous :: s.current :: s.upcoming).Pairwise (·.line ≤ ·.line)
  errors : s.errors.toList.Pairwise (·.line ≤ ·.line)
  reached : ∀ e ∈ s.errors.toList, e.line ≤ s.current.line
  behind : taken = true → s.panicking = false → ∀ e ∈ s.errors.toList, e.line ≤ s.previous.line

variable {taken : Bool}

theorem Ordered.loosen (h : Ordered taken s) : Ordered false s :=
  { h with behind := nofun }

theorem Ordered.level (h : Ordered taken s) (hs : Level s s') : Ordered taken s' := by
  refine ⟨?_, ?_, ?_, ?_, ?_⟩
  · rw [Fed, hs.current, hs.upcoming]
    exact h.fed
  · rw [hs.previous, hs.current, hs.upcoming]
    exact h.tokens
  · rw [hs.errors]
    exact h.errors
  · rw [hs.errors, hs.current]
    exact h.reached
  · rw [hs.errors, hs.panicking, hs.previous]
    exact h.behind

/-- A report at a line that none of the errors is beyond. -/
theorem Ordered.report (h : Ordered taken s) (e : SourceError) (hreached : e.line ≤ s.current.line)
    (hlast : s.panicking = false → ∀ e' ∈ s.errors.toList, e'.line ≤ e.line) :
    Ordered true (s.report e) := by
  cases hp : s.panicking with
  | true =>
      rw [Builder.report, if_pos hp]
      exact { h with behind := fun _ hcalm => nomatch hp.symm.trans hcalm }
  | false =>
      rw [Builder.report, if_neg (by rw [hp]; exact Bool.false_ne_true)]
      refine ⟨h.fed, h.tokens, ?_, ?_, fun _ => nofun⟩
      · simp only [Array.toList_push]
        refine List.pairwise_append.mpr ⟨h.errors, List.pairwise_singleton _ _, fun a ha b hb => ?_⟩
        rw [List.mem_singleton.mp hb]
        exact hlast hp a ha
      · simp only [Array.toList_push]
        intro a ha
        rcases List.mem_append.mp ha with ha | ha
        · exact h.reached a ha
        · rw [List.mem_singleton.mp ha]
          exact hreached

/-- What is pulled stands behind the errors. -/
theorem Ordered.pull {us : List Token} (hends : us = [] ∧ s.current.kind = .eof ∨ EndOnce us)
    (htokens : (s.previous :: us).Pairwise (·.line ≤ ·.line)) (hle : s.previous.line ≤ s.current.line)
    (herrors : s.errors.toList.Pairwise (·.line ≤ ·.line))
    (hcurrent : us = [] → ∀ e ∈ s.errors.toList, e.line ≤ s.current.line)
    (hreached : ∀ e ∈ s.errors.toList, ∀ t ∈ us, e.line ≤ t.line)
    (hbehind : s.panicking = false → ∀ e ∈ s.errors.toList, e.line ≤ s.previous.line) :
    Ordered true (s.pull us) := by
  induction us generalizing s with
  | nil =>
      refine ⟨Fed.pull hends, ?_, herrors, hcurrent rfl, fun _ => hbehind⟩
      exact List.pairwise_cons.mpr ⟨fun t ht => List.mem_singleton.mp ht ▸ hle, List.pairwise_singleton _ _⟩
  | cons t us ih =>
      have htail := endOnce_tail (hends.resolve_left fun hnil => List.cons_ne_nil _ _ hnil.1)
      obtain ⟨hprevious, hrest⟩ := List.pairwise_cons.mp htokens
      obtain ⟨hfirst, htail'⟩ := List.pairwise_cons.mp hrest
      rw [Builder.pull]
      split
      · rename_i cause hkind
        rw [hkind, if_neg (by simp)] at htail
        have hne : us ≠ [] := by
          obtain ⟨inner, last, rfl, -⟩ := htail
          simp
        have hpairwise : (s.previous :: us).Pairwise (·.line ≤ ·.line) :=
          List.pairwise_cons.mpr ⟨fun u hu => hprevious u (List.mem_cons_of_mem _ hu), htail'⟩
        rw [Builder.report]
        split
        · rename_i hp
          exact ih (.inr htail) hpairwise hle herrors (absurd · hne)
            (fun e he u hu => hreached e he u (List.mem_cons_of_mem _ hu)) hbehind
        · rename_i hp
          have hcalm : s.panicking = false := Bool.not_eq_true _ ▸ hp
          refine ih (s := { s with panicking := true, errors := s.errors.push (.scan t.line cause) })
            (.inr htail) hpairwise hle ?_ (absurd · hne) ?_ (by simp)
          · simp only [Array.toList_push]
            refine List.pairwise_append.mpr ⟨herrors, List.pairwise_singleton _ _, fun a ha b hb => ?_⟩
            rw [List.mem_singleton.mp hb]
            exact Nat.le_trans (hbehind hcalm a ha) (hprevious t List.mem_cons_self)
          · simp only [Array.toList_push]
            intro a ha u hu
            rcases List.mem_append.mp ha with ha | ha
            · exact hreached a ha u (List.mem_cons_of_mem _ hu)
            · rw [List.mem_singleton.mp ha]
              exact hfirst u hu
      · refine ⟨htail, htokens, herrors, fun e he => hreached e he t List.mem_cons_self, fun _ => hbehind⟩

theorem Ordered.advance (h : Ordered taken s) : Ordered true (advance s).2 := by
  obtain ⟨hfirst, hrest⟩ := List.pairwise_cons.mp h.tokens
  refine Ordered.pull (s := { s with previous := s.current }) ?_ hrest (Nat.le_refl _) h.errors
    (fun _ => h.reached) (fun e he t ht => ?_) fun _ => h.reached
  · have hfed := h.fed
    rw [Fed] at hfed
    split at hfed
    · exact .inl ⟨hfed, by assumption⟩
    · exact .inr hfed
  · exact Nat.le_trans (h.reached e he) ((List.pairwise_cons.mp hrest).1 t ht)

/-! ## Actions -/

/-- An action keeps the errors in order, with a token taken in front of it and behind it, or not. -/
class KeepsOrder {α : Type} (taken taken' : Bool) (x : Build α) : Prop where
  ordered : ∀ s : Builder, Ordered taken s → Ordered taken' (x s).2

section Combinators

variable {α β : Type} {a b c : Bool}

instance (priority := low) (x : Build α) [Silent x] : KeepsOrder a a x :=
  ⟨fun s hs => hs.level (Silent.level s)⟩

theorem KeepsOrder.bind {x : Build α} {f : α → Build β} (hx : KeepsOrder a b x)
    (hf : ∀ r, KeepsOrder b c (f r)) : KeepsOrder a c (x >>= f) :=
  ⟨fun s hs => (hf _).ordered _ (hx.ordered s hs)⟩

instance (x : Build α) (f : α → Build β) [hx : KeepsOrder a true x]
    [hf : ∀ r, KeepsOrder true c (f r)] : KeepsOrder a c (x >>= f) :=
  hx.bind hf

/-- No token need be taken in front. -/
theorem KeepsOrder.tighten {x : Build α} (hx : KeepsOrder false b x) : KeepsOrder true b x :=
  ⟨fun s hs => hx.ordered s hs.loosen⟩

theorem KeepsOrder.loosen {x : Build α} (hx : KeepsOrder a b x) : KeepsOrder a false x :=
  ⟨fun s hs => (hx.ordered s hs).loosen⟩

instance (p : Prop) [Decidable p] (x y : Build α) [hx : KeepsOrder a b x] [hy : KeepsOrder a b y] :
    KeepsOrder a b (if p then x else y) := by
  split
  · exact hx
  · exact hy

theorem KeepsOrder.repeatWhile {condition : Build Bool} {x : Build Unit} (hc : KeepsOrder a a condition)
    (hx : KeepsOrder a a x) (bound : Nat) : KeepsOrder a a (repeatWhile condition x bound) := by
  induction bound with
  | zero => exact inferInstanceAs (KeepsOrder a a (pure ()))
  | succ bound ih =>
      refine hc.bind fun more => ?_
      cases more
      · exact inferInstanceAs (KeepsOrder a a (pure ()))
      · exact hx.bind fun _ => ih

instance (condition : Build Bool) (x : Build Unit) [hc : KeepsOrder true true condition]
    [hx : KeepsOrder true true x] (bound : Nat) :
    KeepsOrder true true (Builder.repeatWhile condition x bound) :=
  hc.repeatWhile hx bound

end Combinators

section Actions

variable {a b c : Bool}

/-! ### Errors and tokens -/

instance (d : Defect) : KeepsOrder true true (error d) := by
  refine ⟨fun s hs => ?_⟩
  exact hs.report _ ((List.pairwise_cons.mp hs.tokens).1 _ List.mem_cons_self) (hs.behind rfl)

instance (d : Defect) : KeepsOrder a true (errorAtCurrent d) :=
  ⟨fun _ hs => hs.report _ (Nat.le_refl _) fun _ => hs.reached⟩

instance : KeepsOrder a true advance :=
  ⟨fun _ hs => hs.advance⟩

instance (kind : TokenKind) : KeepsOrder a a (accept kind) := by
  unfold accept
  refine KeepsOrder.bind (b := a) inferInstance fun there => ?_
  cases there
  · exact inferInstanceAs (KeepsOrder a a (pure false))
  · have hadvance : KeepsOrder a true (advance >>= fun _ => pure true) := inferInstance
    cases a
    · exact hadvance.loosen
    · exact hadvance

/-- Behind a token that is there, one was taken. -/
instance {α : Type} (kind : TokenKind) (x y : Build α) [hx : KeepsOrder true b x] [hy : KeepsOrder a b y] :
    KeepsOrder a b (accept kind >>= fun there => if there = true then x else y) := by
  unfold accept
  rw [bind_assoc]
  refine KeepsOrder.bind (b := a) inferInstance fun there => ?_
  cases there
  · exact hy
  · exact KeepsOrder.bind (b := true) (x := advance) inferInstance fun _ => hx

instance (e : Expectation) : KeepsOrder a true (expect e) :=
  inferInstanceAs (KeepsOrder a true (accept e.kind >>= fun there =>
    if there = true then pure () else errorAtCurrent (.expect e)))

instance (bound : Nat) : KeepsOrder a false (synchronize bound) := by
  have hcalm (s : Builder) (hs : Ordered a s) : Ordered false { s with panicking := false } :=
    { hs with behind := nofun }
  have hloop : KeepsOrder false false
      (Builder.repeatWhile (do return !(← get).atBoundary) advance bound) :=
    .repeatWhile inferInstance (KeepsOrder.loosen (b := true) inferInstance) bound
  exact ⟨fun s hs => hloop.ordered _ (hcalm s hs)⟩

/-! ### Code and variables -/

instance (offset : Nat) : KeepsOrder true true (patchJump offset) := by
  unfold patchJump
  infer_instance

instance (start : Nat) : KeepsOrder true true (emitLoop start) := by
  unfold emitLoop
  infer_instance

instance (v : Value) : KeepsOrder true true (makeConstant v) := by
  unfold makeConstant
  refine KeepsOrder.bind (b := true) inferInstance fun index => ?_
  cases index <;> infer_instance

instance (v : Value) : KeepsOrder true true (emitConstant v) := by
  unfold emitConstant
  infer_instance

instance (name : String) : KeepsOrder true true (nameConstant name) :=
  inferInstanceAs (KeepsOrder true true (makeConstant _))

instance (name : String) : KeepsOrder true true (addLocal name) := by
  unfold addLocal
  infer_instance

instance : KeepsOrder true true declareVariable := by
  unfold declareVariable
  infer_instance

instance (e : Expectation) : KeepsOrder true true (readVariable e) := by
  unfold readVariable
  infer_instance

instance (name : String) : KeepsOrder true true (resolve name) := by
  unfold resolve
  refine KeepsOrder.bind (b := true) inferInstance fun s => ?_
  split
  · infer_instance
  · refine KeepsOrder.bind (b := true) inferInstance fun r => ?_
    cases r <;> infer_instance

instance (name : String) : KeepsOrder true true (readNamed name) := by
  unfold readNamed
  infer_instance

end Actions

end Builder

/-! ## Expressions -/

namespace Expression

open Builder

instance (op : Opcode) : KeepsOrder true true (literal op) :=
  inferInstanceAs (KeepsOrder true true (emit op))

instance : KeepsOrder true true number := by
  unfold number
  refine KeepsOrder.bind (b := true) inferInstance fun text => ?_
  cases Number.ofLiteral? text <;> infer_instance

instance : KeepsOrder true true string := by
  unfold string
  infer_instance

section Operands

variable (bound : Nat) (sub : Power → Build Unit) [∀ p, KeepsOrder true true (sub p)]

set_option synthInstance.maxSize 4096

instance : KeepsOrder true true (expression sub) :=
  inferInstanceAs (KeepsOrder true true (sub .assignment))

instance (name : String) (canAssign : Bool) : KeepsOrder true true (named sub name canAssign) := by
  unfold named
  infer_instance

instance : KeepsOrder true true (grouping sub) := by
  unfold grouping
  infer_instance

instance (op : Opcode) : KeepsOrder true true (unary sub op) := by
  unfold unary
  infer_instance

instance (count : Nat) : KeepsOrder true true (argumentsFrom sub bound count) := by
  induction bound generalizing count with
  | zero => exact inferInstanceAs (KeepsOrder true true (pure count))
  | succ bound ih =>
      rw [argumentsFrom]
      infer_instance

instance : KeepsOrder true true (arguments bound sub) := by
  unfold arguments
  infer_instance

instance : KeepsOrder true true this := by
  unfold this
  infer_instance

instance : KeepsOrder true true (super bound sub) := by
  unfold super
  refine KeepsOrder.bind (b := true) inferInstance fun s => ?_
  cases s.classes.head? <;> dsimp only <;> infer_instance

theorem keepsOrder_opening {canAssign : Bool} {kind : TokenKind} {x : Build Unit}
    (h : opening bound sub canAssign kind = some x) : KeepsOrder true true x := by
  cases kind <;> simp only [opening, Option.some.injEq, reduceCtorEq] at h <;>
    subst h <;> infer_instance

instance (operator : TokenKind) : KeepsOrder true true (binary sub operator) := by
  unfold binary
  infer_instance

instance : KeepsOrder true true (call bound sub) := by
  unfold call
  infer_instance

instance (canAssign : Bool) : KeepsOrder true true (property bound sub canAssign) := by
  unfold property
  infer_instance

instance : KeepsOrder true true (and sub) := by
  unfold and
  infer_instance

instance : KeepsOrder true true (or sub) := by
  unfold or
  infer_instance

instance (canAssign : Bool) (operator : TokenKind) :
    KeepsOrder true true (continuation bound sub canAssign operator) := by
  cases operator <;> dsimp only [continuation] <;> infer_instance

/-- An expression takes its first token before anything else. -/
instance (a : Bool) (least : Power) : KeepsOrder a true (rule bound sub least) := by
  unfold rule
  refine KeepsOrder.bind (b := true) inferInstance fun _ => ?_
  refine KeepsOrder.bind (b := true) inferInstance fun s => ?_
  split
  · infer_instance
  · have := keepsOrder_opening bound sub (by assumption)
    infer_instance

end Operands

instance (n : Nat) (least : Power) : KeepsOrder true true (within n least) := by
  induction n generalizing least with
  | zero => exact inferInstanceAs (KeepsOrder true true (pure ()))
  | succ n ih => exact inferInstanceAs (KeepsOrder true true (rule n (within n) least))

instance (a : Bool) (bound : Nat) (least : Power) : KeepsOrder a true (parse bound least) :=
  inferInstanceAs (KeepsOrder a true (rule bound (within bound) least))

end Expression

/-! ## Statements -/

namespace Statement

open Builder

section Rules

variable (parts : Parts) [∀ a, KeepsOrder a true parts.expression] [KeepsOrder true true parts.statement]
  [hdeclaration : KeepsOrder false false parts.declaration]

set_option synthInstance.maxSize 4096

omit [KeepsOrder true true parts.statement] hdeclaration in
instance : KeepsOrder true true (printStatement parts) := by
  unfold printStatement
  infer_instance

omit [KeepsOrder true true parts.statement] hdeclaration in
instance : KeepsOrder true true (assertStatement parts) := by
  unfold assertStatement
  infer_instance

omit [KeepsOrder true true parts.statement] hdeclaration in
instance (a : Bool) : KeepsOrder a true (expressionStatement parts) := by
  unfold expressionStatement
  infer_instance

omit [KeepsOrder true true parts.statement] hdeclaration in
instance : KeepsOrder true true (returnStatement parts) := by
  unfold returnStatement
  dsimp only
  infer_instance

omit [∀ a, KeepsOrder a true parts.expression] [KeepsOrder true true parts.statement] in
/-- Behind its declarations, which may have ended with a recovery, a block takes its brace. -/
instance : KeepsOrder true true (block parts) :=
  have hloop : KeepsOrder false false (repeatWhile insideBraces parts.declaration parts.bound) :=
    .repeatWhile inferInstance hdeclaration parts.bound
  hloop.tighten.bind fun _ => inferInstance

omit [∀ a, KeepsOrder a true parts.expression] [KeepsOrder true true parts.statement] in
instance : KeepsOrder true true (blockStatement parts) := by
  unfold blockStatement
  infer_instance

omit [KeepsOrder true true parts.statement] hdeclaration in
instance : KeepsOrder true true (variableDeclaration parts) := by
  unfold variableDeclaration
  infer_instance

omit hdeclaration in
instance : KeepsOrder true true (ifStatement parts) := by
  unfold ifStatement
  infer_instance

omit hdeclaration in
instance : KeepsOrder true true (whileStatement parts) := by
  unfold whileStatement
  infer_instance

omit [KeepsOrder true true parts.statement] hdeclaration in
instance : KeepsOrder true true (forInitializer parts) := by
  unfold forInitializer
  infer_instance

omit [KeepsOrder true true parts.statement] hdeclaration in
instance : KeepsOrder true true (forCondition parts) := by
  unfold forCondition
  infer_instance

omit [KeepsOrder true true parts.statement] hdeclaration in
instance (start : Nat) : KeepsOrder true true (forIncrement parts start) := by
  unfold forIncrement
  infer_instance

omit hdeclaration in
instance : KeepsOrder true true (forStatement parts) := by
  unfold forStatement
  refine KeepsOrder.bind (b := true) inferInstance fun _ => ?_
  refine KeepsOrder.bind (b := true) inferInstance fun _ => ?_
  refine KeepsOrder.bind (b := true) inferInstance fun _ => ?_
  refine KeepsOrder.bind (b := true) inferInstance fun _ => ?_
  refine KeepsOrder.bind (b := true) inferInstance fun exitJump => ?_
  cases exitJump <;> dsimp only <;> infer_instance

instance (a : Bool) : KeepsOrder a true (statementRule parts) := by
  unfold statementRule
  infer_instance

instance : KeepsOrder true true parameter := by
  unfold parameter
  infer_instance

omit [∀ a, KeepsOrder a true parts.expression] [KeepsOrder true true parts.statement] hdeclaration in
instance : KeepsOrder true true (parameters parts) := by
  unfold parameters
  infer_instance

omit [∀ a, KeepsOrder a true parts.expression] [KeepsOrder true true parts.statement] in
instance (kind : BodyKind) : KeepsOrder true true (function parts kind) := by
  unfold function
  infer_instance

omit [∀ a, KeepsOrder a true parts.expression] [KeepsOrder true true parts.statement] in
instance : KeepsOrder true true (functionDeclaration parts) := by
  unfold functionDeclaration
  infer_instance

omit [∀ a, KeepsOrder a true parts.expression] [KeepsOrder true true parts.statement] in
instance : KeepsOrder true true (method parts) := by
  unfold method
  infer_instance

instance (name : String) : KeepsOrder true true (superclass name) := by
  unfold superclass
  infer_instance

omit [∀ a, KeepsOrder a true parts.expression] [KeepsOrder true true parts.statement] in
instance (name : String) : KeepsOrder true true (members parts name) := by
  unfold members
  infer_instance

omit [∀ a, KeepsOrder a true parts.expression] [KeepsOrder true true parts.statement] in
instance : KeepsOrder true true (classDeclaration parts) := by
  rw [classDeclaration_eq]
  infer_instance

omit [∀ a, KeepsOrder a true parts.expression] [KeepsOrder true true parts.statement] hdeclaration in
instance : KeepsOrder true false (settle parts) := by
  unfold settle
  refine KeepsOrder.bind (b := true) inferInstance fun _ => ?_
  split
  · infer_instance
  · exact KeepsOrder.loosen (b := true) inferInstance

/-- A declaration takes a token, but if it ends with a recovery, that need not. -/
instance : KeepsOrder false false (declarationRule parts) :=
  inferInstanceAs (KeepsOrder false false (accept .kwClass >>= fun there =>
    if there then classDeclaration parts >>= fun _ => settle parts
    else accept .kwFun >>= fun there =>
      if there then functionDeclaration parts >>= fun _ => settle parts
      else accept .kwVar >>= fun there =>
        if there then variableDeclaration parts >>= fun _ => settle parts
        else statementRule parts >>= fun _ => settle parts))

end Rules

theorem keepsOrder_within (n : Nat) :
    KeepsOrder true true (statement n) ∧ KeepsOrder false false (declaration n) := by
  induction n with
  | zero =>
      exact ⟨inferInstanceAs (KeepsOrder true true (pure ())),
        inferInstanceAs (KeepsOrder false false (pure ()))⟩
  | succ n ih =>
      obtain ⟨_, _⟩ := ih
      rw [statement, declaration]
      exact ⟨inferInstance, inferInstance⟩

instance (n : Nat) : KeepsOrder false false (declaration n) :=
  (keepsOrder_within n).2

end Statement

/-! ## Programs -/

namespace Program

open Builder

theorem rejected_iff {s : Builder} : (∃ r, conclude s = .error r) ↔ s.errors ≠ #[] := by
  constructor
  · rintro ⟨r, hr⟩ hclean
    exact nomatch (conclude_of_clean hclean).symm.trans hr
  · exact fun h => ⟨_, conclude_of_errors h⟩

theorem errors_of_rejected {s : Builder} {r : Rejection} (h : conclude s = .error r) :
    r.errors = s.errors.toList := by
  obtain rfl := Except.error.inj ((conclude_of_errors (rejected_iff.mp ⟨r, h⟩)).symm.trans h)
  rfl

/-- A builder that has read nothing but its first token. -/
theorem ordered_first {firstIndex : Nat} {tokens : List Token} (hends : EndOnce tokens)
    (hlines : (∀ t ∈ tokens, 1 ≤ t.line) ∧ tokens.Pairwise (·.line ≤ ·.line)) :
    Ordered true ((start firstIndex []).pull tokens) :=
  .pull (.inr hends) (List.pairwise_cons.mpr hlines) (Nat.le_refl _) .nil (fun _ => nofun) nofun fun _ => nofun

theorem ordered_script (firstIndex bound : Nat) {tokens : List Token} (hends : EndOnce tokens)
    (hlines : (∀ t ∈ tokens, 1 ≤ t.line) ∧ tokens.Pairwise (·.line ≤ ·.line)) :
    Ordered false (script bound (start firstIndex tokens)).2 := by
  have hend : KeepsOrder false false (do return !(← accept .eof)) :=
    .bind (b := false) inferInstance fun _ => inferInstance
  have hrest : KeepsOrder false false (declarations bound) :=
    (hend.repeatWhile inferInstance bound).bind fun _ => inferInstance
  rw [script_run]
  exact hrest.ordered _ (ordered_first hends hlines).loosen

/-- Where every round takes a token, a loop goes on until its condition fails. -/
theorem repeatWhile_ends {c : Build Bool} {x : Build Unit} [hc : Balanced c] [hx : Balanced x]
    (htakes : ∀ s : Builder, s.Fed → (c s).1 = true → (x (c s).2).2.left < s.left) {bound : Nat}
    {s : Builder} (hs : s.Fed) (hleft : s.left < bound) :
    ∃ s', s'.Fed ∧ (c s').1 = false ∧ (repeatWhile c x bound s).2 = (c s').2 := by
  induction bound generalizing s with
  | zero => exact absurd hleft (Nat.not_lt_zero _)
  | succ bound ih =>
      have hrun : repeatWhile c x (bound + 1) s =
          (if (c s).1 = true then (x >>= fun _ => repeatWhile c x bound) else pure () : Build Unit)
            (c s).2 :=
        rfl
      cases hgo : (c s).1 with
      | false =>
          rw [hrun, if_neg (by rw [hgo]; exact Bool.false_ne_true)]
          exact ⟨s, hs, hgo, rfl⟩
      | true =>
          rw [hrun, if_pos hgo]
          have hless := htakes s hs hgo
          exact ih ((hx.nests _).fed ((hc.nests s).fed hs)) (by omega)

/-- All tokens of a text are read. -/
theorem upcoming_script (firstIndex : Nat) {tokens : List Token} (hends : EndOnce tokens) :
    (script tokens.length (start firstIndex tokens)).2.upcoming = [] := by
  have hfirst := Guarded.within_first hends firstIndex
  obtain ⟨s, hs, hend, hloop⟩ := repeatWhile_ends (c := Guarded.isUnread)
    (x := Statement.declaration (tokens.length + 1)) (fun s hs hgo => by
      obtain ⟨hne, hsame⟩ := Guarded.isUnread_goes hgo
      rw [hsame]
      exact Statement.takes_declaration _ s hs hne) hfirst.fed hfirst.left
  have heof : s.current.kind = .eof := by
    by_contra hne
    rw [Guarded.isUnread_run, if_neg hne] at hend
    cases hend
  have hrun : (script tokens.length (start firstIndex tokens)).2 =
      (emitReturn (Guarded.isUnread s).2).2 := by
    rw [← hloop]
    rfl
  rw [hrun, (Silent.level (x := emitReturn) _).upcoming, Guarded.isUnread_run, if_pos heof,
    hs.advance_of_eof heof]

/-- The errors of a text come in its order, and none is lost but in a panic. What is no token is reported. -/
theorem errors_follow_source (firstIndex : Nat) (source : String) :
    ∃ events, Logged.compile firstIndex source = (compile firstIndex source, events) ∧
      ((∃ r, compile firstIndex source = .error r) ↔ ∃ e, .report e ∈ events) ∧
      (∀ r, compile firstIndex source = .error r →
        r.errors = entries false events ∧ r.errors ≠ [] ∧ r.errors.Pairwise (·.line ≤ ·.line) ∧
        ∀ xs e e' ys, r.errors = xs ++ e :: e' :: ys → ∃ before between behind,
          events = before ++ .report e :: between ++ .report e' :: behind ∧
            entries false before = xs ∧ .recover ∈ between) ∧
      ∀ t ∈ (Scanner.ofString source).tokens, ∀ cause, t.kind = .error cause →
        .report (.scan t.line cause) ∈ events ∧ ∃ r, compile firstIndex source = .error r := by
  set tokens := (Scanner.ofString source).tokens with htokens
  have hends : EndOnce tokens := (Scanner.tokens_spec _).2
  set events := (Logged.script tokens.length).log (start firstIndex tokens) with hevents
  have hcourse : Course (start firstIndex tokens) events
      (script tokens.length (start firstIndex tokens)).2 := by
    rw [← Logged.act_script]
    exact (Logged.script tokens.length).course _
  have herrors : _ = entries false events := hcourse.errors
  have hrejected : (∃ r, compile firstIndex source = .error r) ↔ ∃ e, .report e ∈ events := by
    refine rejected_iff.trans (Iff.trans ?_ entries_ne_nil)
    rw [← herrors, Ne, Ne, Array.toList_eq_nil_iff]
  refine ⟨events, Prod.ext (Logged.compile_fst firstIndex source) rfl, hrejected, fun r hr => ?_,
    fun t ht cause hkind => ?_⟩
  · have heq : r.errors = entries false events := (errors_of_rejected hr).trans herrors
    refine ⟨heq, ?_, ?_, fun xs e e' ys hsplit => recovers_between (heq ▸ hsplit)⟩
    · rw [heq, entries_ne_nil]
      exact hrejected.mp ⟨r, hr⟩
    · rw [heq, ← herrors]
      exact (ordered_script firstIndex _ hends (Scanner.lines_tokens (Scanner.ofString source))).errors
  · obtain ⟨passed, hpassed, hscanned⟩ := hcourse.scanned
    rw [upcoming_script firstIndex hends, List.append_nil] at hpassed
    have hreport := hscanned t (hpassed ▸ ht) cause hkind
    exact ⟨hreport, hrejected.mpr ⟨_, hreport⟩⟩

/-- The second error is come upon while the builder recovers from the first, and the one behind it is lost
in the panic that follows. -/
example : Logged.compile 0 "1 2 @;\nvar;\n3" =
    (.error ⟨[.grammar 1 (.atToken "2") (.expect .expressionEnd), .scan 1 .unexpectedCharacter,
      .grammar 3 .atEnd (.expect .expressionEnd)], #[]⟩,
    [.report (.grammar 1 (.atToken "2") (.expect .expressionEnd)), .recover,
      .report (.scan 1 .unexpectedCharacter),
      .report (.grammar 2 (.atToken ";") (.expect .variableName)), .recover,
      .report (.grammar 3 .atEnd (.expect .expressionEnd)), .recover]) := by
  decide +kernel

end Program

end LoxMachine
