import LoxMachine.Proofs.Compile.Classes

/-!
# Nesting

What a rule finds open it leaves open, whatever the tokens are and whatever errors it has reported:
the scopes of the function, the functions around it and the classes (`Nests`). Neither does a rule take
code or errors back, or give tokens back. Rules that open something close it again, and most of them open
nothing, so that keeping the nesting is a matter of their parts (`Balanced`).
-/

namespace LoxMachine

namespace Builder

/-! ## Tokens left -/

/-- There is one end token, behind all other tokens. -/
def Fed (s : Builder) : Prop :=
  if s.current.kind = .eof then s.upcoming = [] else EndOnce s.upcoming

/-- How many tokens are left in front of the end token. -/
def left (s : Builder) : Nat :=
  (s.current :: s.upcoming).countP (·.kind ≠ .eof)

theorem EndOnce.countP {ts : List Token} (h : EndOnce ts) :
    ts.countP (·.kind ≠ .eof) + 1 = ts.length := by
  obtain ⟨inner, last, rfl, hlast, hinner⟩ := h
  rw [List.countP_append, List.countP_eq_length.mpr fun t ht => decide_eq_true (hinner t ht)]
  simp [hlast]

theorem Fed.left_eq {s : Builder} (h : s.Fed) : s.left = s.upcoming.length := by
  rw [Fed] at h
  rw [left, List.countP_cons]
  split at h
  · rename_i heof
    simp [h, heof]
  · rename_i hne
    have := EndOnce.countP h
    rw [if_pos (decide_eq_true hne)]
    exact this

theorem Fed.report {s : Builder} (h : s.Fed) (e : SourceError) : (s.report e).Fed := by
  rw [Builder.report]
  split <;> exact h

theorem Fed.pull {s : Builder} {us : List Token}
    (h : us = [] ∧ s.current.kind = .eof ∨ EndOnce us) : (s.pull us).Fed := by
  induction us generalizing s with
  | nil =>
      obtain ⟨-, heof⟩ | ⟨inner, last, heq, -⟩ := h
      · exact (if_pos heof).mpr rfl
      · simp at heq
  | cons t us ih =>
      have htail := endOnce_tail (h.resolve_left fun hnil => List.cons_ne_nil _ _ hnil.1)
      rw [Builder.pull]
      split
      · rename_i herror
        rw [herror, if_neg (by simp)] at htail
        exact ih (.inr htail)
      · exact htail

theorem Fed.behind {s : Builder} (h : s.Fed) : (advance s).2.Fed := by
  refine Fed.pull (s := { s with previous := s.current }) ?_
  rw [Fed] at h
  split at h
  · exact .inl ⟨h, by assumption⟩
  · exact .inr h

theorem upcoming_advance_le (s : Builder) : (advance s).2.upcoming.length ≤ s.upcoming.length :=
  upcoming_pull _ _

/-- The end token stays for ever. -/
theorem Fed.advance_of_eof {s : Builder} (h : s.Fed) (heof : s.current.kind = .eof) :
    (advance s).2 = { s with previous := s.current, upcoming := [] } := by
  rw [Fed, if_pos heof] at h
  change Builder.pull { s with previous := s.current } s.upcoming = _
  rw [h]
  rfl

/-- Reading a token that is not the end. -/
theorem Fed.left_advance_lt {s : Builder} (h : s.Fed) (hne : s.current.kind ≠ .eof) :
    (advance s).2.left < s.left := by
  rw [h.behind.left_eq, h.left_eq]
  rw [Fed, if_neg hne] at h
  obtain ⟨inner, last, heq, -⟩ := h
  cases hus : s.upcoming with
  | nil => simp [hus] at heq
  | cons t us =>
      change (Builder.pull { s with previous := s.current } s.upcoming).upcoming.length < _
      rw [hus, Builder.pull]
      split
      · exact Nat.lt_succ_of_le (upcoming_pull _ us)
      · exact Nat.lt_succ_self _

/-! ## What a rule leaves as it was -/

/-- The same scopes, functions and classes are open; no code and no error is taken back, and no token
given back. -/
structure Nests (s s' : Builder) : Prop where
  fed : s.Fed → s'.Fed
  upcoming : s'.upcoming.length ≤ s.upcoming.length
  errors : s.errors.toList <+: s'.errors.toList
  kind : s'.body.kind = s.body.kind
  depth : s'.body.depth = s.body.depth
  code : s.body.chunk.size ≤ s'.body.chunk.size
  around : Body.GrowAll s.outer s'.outer
  classes : s'.classes = s.classes

namespace Nests

variable {s s' s'' : Builder}

theorem refl (s : Builder) : s.Nests s :=
  ⟨id, Nat.le_refl _, List.prefix_refl _, rfl, rfl, Nat.le_refl _, .refl _, rfl⟩

theorem trans (h : s.Nests s') (h' : s'.Nests s'') : s.Nests s'' :=
  ⟨h'.fed ∘ h.fed, Nat.le_trans h'.upcoming h.upcoming, h.errors.trans h'.errors,
    h'.kind.trans h.kind,
    h'.depth.trans h.depth, Nat.le_trans h.code h'.code, h.around.trans h'.around,
    h'.classes.trans h.classes⟩

theorem left_le (h : s.Nests s') (hs : s.Fed) : s'.left ≤ s.left := by
  rw [(h.fed hs).left_eq, hs.left_eq]
  exact h.upcoming

/-- Nothing but the code of the body is different. -/
theorem of_body {b : Body} (hkind : b.kind = s.body.kind) (hdepth : b.depth = s.body.depth)
    (hcode : s.body.chunk.size ≤ b.chunk.size) : s.Nests { s with body := b } :=
  ⟨id, Nat.le_refl _, List.prefix_refl _, hkind, hdepth, hcode, .refl _, rfl⟩

end Nests

/-- An action that leaves the nesting as it was. -/
class Balanced {α : Type} (x : Build α) : Prop where
  nests : ∀ s : Builder, s.Nests (x s).2

section Combinators

variable {α β : Type}

instance (a : α) : Balanced (pure a : Build α) :=
  ⟨Nests.refl⟩

theorem Balanced.bind {x : Build α} {f : α → Build β} (hx : Balanced x)
    (hf : ∀ a, Balanced (f a)) : Balanced (x >>= f) :=
  ⟨fun s => (hx.nests s).trans ((hf (x s).1).nests _)⟩

instance (x : Build α) (f : α → Build β) [hx : Balanced x] [hf : ∀ a, Balanced (f a)] :
    Balanced (x >>= f) :=
  hx.bind hf

instance (x : Build α) (f : α → β) [hx : Balanced x] : Balanced (f <$> x) :=
  ⟨hx.nests⟩

instance (c : Prop) [Decidable c] (x y : Build α) [hx : Balanced x] [hy : Balanced y] :
    Balanced (if c then x else y) := by
  split
  · exact hx
  · exact hy

instance : Balanced (get : Build Builder) :=
  ⟨Nests.refl⟩

theorem balanced_onBody {f : Body → α × Body} (hkind : ∀ b, (f b).2.kind = b.kind)
    (hdepth : ∀ b, (f b).2.depth = b.depth)
    (hcode : ∀ b : Body, b.chunk.size ≤ (f b).2.chunk.size) : Balanced (onBody f) :=
  ⟨fun _ => .of_body (hkind _) (hdepth _) (hcode _)⟩

theorem balanced_onChunk {f : Nat → Chunk → α × Chunk}
    (hf : ∀ line (c : Chunk), c.size ≤ (f line c).2.size) : Balanced (onChunk f) :=
  ⟨fun _ => .of_body rfl rfl (hf _ _)⟩

instance (xs : List α) (f : α → Build PUnit) [∀ a, Balanced (f a)] : Balanced (xs.forM f) := by
  induction xs with
  | nil => exact inferInstanceAs (Balanced (pure PUnit.unit))
  | cons a xs ih => exact inferInstanceAs (Balanced (f a >>= fun _ => xs.forM f))

instance (c : Build Bool) (x : Build Unit) [Balanced c] [Balanced x] (bound : Nat) :
    Balanced (repeatWhile c x bound) := by
  induction bound with
  | zero => exact inferInstanceAs (Balanced (pure ()))
  | succ bound ih =>
      rw [repeatWhile]
      infer_instance

end Combinators

/-! ## Errors and tokens -/

theorem nests_report (s : Builder) (e : SourceError) : s.Nests (s.report e) := by
  refine ⟨fun h => h.report e, Nat.le_of_eq (by rw [upcoming_report]), ?_, ?_, ?_, ?_, ?_, ?_⟩ <;>
    rw [report] <;> split <;>
    first
    | rfl
    | exact Nat.le_refl _
    | exact .refl _
    | exact List.prefix_refl _
    | exact Array.toList_push ▸ List.prefix_append _ _

instance (t : Token) (d : Defect) : Balanced (errorAt t d) :=
  ⟨fun _ => nests_report _ _⟩

instance (d : Defect) : Balanced (error d) :=
  inferInstanceAs (Balanced (get >>= fun s => errorAt s.previous d))

instance (d : Defect) : Balanced (errorAtCurrent d) :=
  inferInstanceAs (Balanced (get >>= fun s => errorAt s.current d))

/-- What lies apart from tokens and errors is not touched. -/
theorem pull_apart (s : Builder) (us : List Token) :
    (s.pull us).body = s.body ∧ (s.pull us).outer = s.outer ∧ (s.pull us).classes = s.classes := by
  induction us generalizing s with
  | nil => exact ⟨rfl, rfl, rfl⟩
  | cons t us ih =>
      rw [pull]
      split
      · obtain ⟨hbody, houter, hclasses⟩ := ih (s.report (.scan t.line _))
        rw [hbody, houter, hclasses, report]
        split <;> exact ⟨rfl, rfl, rfl⟩
      · exact ⟨rfl, rfl, rfl⟩

theorem errors_prefix_pull (s : Builder) (us : List Token) :
    s.errors.toList <+: (s.pull us).errors.toList := by
  induction us generalizing s with
  | nil => exact List.prefix_refl _
  | cons t us ih =>
      rw [pull]
      split
      · exact (nests_report s _).errors.trans (ih _)
      · exact List.prefix_refl _

instance : Balanced advance := by
  refine ⟨fun s => ?_⟩
  obtain ⟨hbody, houter, hclasses⟩ := pull_apart { s with previous := s.current } s.upcoming
  refine ⟨Fed.behind, upcoming_advance_le s, errors_prefix_pull { s with previous := s.current } s.upcoming,
    ?_, ?_, ?_, ?_, hclasses⟩
  · exact congrArg Body.kind hbody
  · exact congrArg Body.depth hbody
  · exact Nat.le_of_eq (congrArg (·.chunk.size) hbody).symm
  · exact houter ▸ .refl _

instance (kind : TokenKind) : Balanced (check kind) := by
  unfold check
  infer_instance

instance (kind : TokenKind) : Balanced (accept kind) := by
  unfold accept
  infer_instance

instance (e : Expectation) : Balanced (expect e) := by
  unfold expect
  infer_instance

instance : Balanced lastText := by
  unfold lastText
  infer_instance

instance (bound : Nat) : Balanced (synchronize bound) := by
  unfold synchronize
  have : Balanced (modify fun s : Builder => { s with panicking := false } : Build PUnit) :=
    ⟨fun _ => ⟨id, Nat.le_refl _, List.prefix_refl _, rfl, rfl, Nat.le_refl _, .refl _, rfl⟩⟩
  infer_instance

/-! ## Code -/

theorem size_patchJump (c : Chunk) (offset : Nat) : (c.patchJump offset).2.size = c.size := by
  rw [Chunk.patchJump]
  split
  · rw [Chunk.size_setByte, Chunk.size_setByte]
  · rfl

theorem size_addConstant_eq (c : Chunk) (v : Value) : (c.addConstant v).2.size = c.size := by
  rw [Chunk.addConstant]
  split
  · rfl
  · split <;> rfl

instance (b : UInt8) : Balanced (emitByte b) :=
  balanced_onChunk fun _ c => by rw [Chunk.size_write]; exact Nat.le_succ _

instance (op : Opcode) : Balanced (emit op) :=
  balanced_onChunk fun _ c => by rw [Chunk.writeOp, Chunk.size_write]; exact Nat.le_succ _

instance (op : Opcode) (n : Nat) : Balanced (emitWith op n) :=
  inferInstanceAs (Balanced (emit op >>= fun _ => emitByte n.toUInt8))

instance : Balanced here := by
  unfold here
  infer_instance

instance (op : Opcode) : Balanced (emitJump op) :=
  balanced_onChunk fun _ c => by
    simp only [Chunk.writeJump, Chunk.writeOp, Chunk.size_write]
    omega

instance (offset : Nat) : Balanced (patchJump offset) := by
  unfold patchJump
  have : Balanced (onChunk fun _ c => c.patchJump offset) :=
    balanced_onChunk fun _ c => Nat.le_of_eq (size_patchJump c offset).symm
  infer_instance

instance (start : Nat) : Balanced (emitLoop start) := by
  unfold emitLoop
  have : Balanced (onChunk fun line c => c.writeLoop start line) :=
    balanced_onChunk fun _ c => by
      simp only [Chunk.writeLoop, Chunk.writeOp, Chunk.size_write]
      omega
  infer_instance

instance : Balanced emitReturn := by
  unfold emitReturn
  infer_instance

instance (v : Value) : Balanced (makeConstant v) := by
  unfold makeConstant
  have : Balanced (onChunk fun _ c => c.addConstant v) :=
    balanced_onChunk fun _ c => Nat.le_of_eq (size_addConstant_eq c v).symm
  refine Balanced.bind inferInstance fun index => ?_
  cases index <;> infer_instance

instance (v : Value) : Balanced (emitConstant v) := by
  unfold emitConstant
  infer_instance

instance (name : String) : Balanced (nameConstant name) :=
  inferInstanceAs (Balanced (makeConstant _))

/-! ## Variables -/

instance : Balanced inGlobalScope := by
  unfold inGlobalScope
  infer_instance

instance (name : String) : Balanced (addLocal name) := by
  unfold addLocal
  have : Balanced (onBody fun b =>
      match b.addLocal? name with
      | some b => (false, b)
      | none => (true, b)) := by
    refine balanced_onBody (fun b => ?_) (fun b => ?_) fun b => Nat.le_of_eq ?_
    all_goals
      rw [Body.addLocal?]
      split <;> rename_i h <;> split at h <;> cases h <;> rfl
  infer_instance

instance : Balanced declareVariable := by
  unfold declareVariable
  infer_instance

instance (e : Expectation) : Balanced (readVariable e) := by
  unfold readVariable
  infer_instance

instance : Balanced markInitialized := by
  unfold markInitialized
  have : Balanced (onBody fun b => ((), b.markInitialized)) := by
    refine balanced_onBody (fun b => ?_) (fun b => ?_) fun b => Nat.le_of_eq ?_
    all_goals
      rw [Body.markInitialized]
      split <;> rfl
  infer_instance

instance (global : Nat) : Balanced (defineVariable global) := by
  unfold defineVariable
  infer_instance

instance (name : String) : Balanced (resolveOutside name) := by
  refine ⟨fun s => ?_⟩
  have h := Body.resolve_spec (rfl : Body.resolve name s.body s.outer = _)
  exact ⟨id, Nat.le_refl _, List.prefix_refl _, h.body.kind, h.body.depth,
    Nat.le_of_eq (congrArg Chunk.size h.body.chunk).symm, h.around, rfl⟩

instance (name : String) : Balanced (resolve name) := by
  unfold resolve
  refine Balanced.bind inferInstance fun s => ?_
  split
  · infer_instance
  · refine Balanced.bind inferInstance fun r => ?_
    cases r <;> infer_instance

instance (name : String) : Balanced (readNamed name) := by
  unfold readNamed
  infer_instance

/-! ## Scopes and functions -/

/-- The end of a scope takes the scope away and adds code only. -/
theorem endScope_run (s : Builder) : ∃ b : Body, (endScope s).2 = { s with body := b } ∧
    b.kind = s.body.kind ∧ b.depth = s.body.depth - 1 ∧ s.body.chunk.size ≤ b.chunk.size := by
  have hgone : ∀ (gone : List Local) (s : Builder), ∃ b : Body,
      ((gone.forM fun l => emit (if l.captured then .closeUpvalue else .pop)) s).2 =
        { s with body := b } ∧ b.kind = s.body.kind ∧ b.depth = s.body.depth ∧
        s.body.chunk.size ≤ b.chunk.size := by
    intro gone
    induction gone with
    | nil => exact fun s => ⟨s.body, rfl, rfl, rfl, Nat.le_refl _⟩
    | cons l gone ih =>
        intro s
        obtain ⟨b, hrun, hkind, hdepth, hcode⟩ :=
          ih (emit (if l.captured then .closeUpvalue else .pop) s).2
        refine ⟨b, hrun, hkind, hdepth, Nat.le_trans (Balanced.nests s).code hcode⟩
  obtain ⟨b, hrun, hkind, hdepth, hcode⟩ :=
    hgone s.body.leaveScope.1 { s with body := s.body.leaveScope.2 }
  exact ⟨b, hrun, hkind, hdepth, hcode⟩

/-- An action that ends the innermost scope and is balanced but for that. -/
class Closes {α : Type} (x : Build α) : Prop where
  nests : ∀ {s s' : Builder}, (beginScope s).2.Nests s' → s.Nests (x s').2

section Closes

variable {α β : Type}

instance : Closes endScope := by
  refine ⟨fun {s s'} h => ?_⟩
  obtain ⟨b, hrun, hkind, hdepth, hcode⟩ := endScope_run s'
  rw [hrun]
  exact ⟨h.fed, h.upcoming, h.errors, hkind.trans h.kind, by rw [hdepth, h.depth]; rfl,
    Nat.le_trans h.code hcode, h.around, h.classes⟩

theorem Closes.bind {x : Build α} {f : α → Build β} (hx : Balanced x) (hf : ∀ a, Closes (f a)) :
    Closes (x >>= f) :=
  ⟨fun {_ s'} h => (hf (x s').1).nests (h.trans (hx.nests s'))⟩

instance (x : Build α) (f : α → Build β) [hx : Balanced x] [hf : ∀ a, Closes (f a)] :
    Closes (x >>= f) :=
  .bind hx hf

instance (f : Unit → Build α) [hf : Closes (f ())] : Balanced (beginScope >>= f) :=
  ⟨fun s => hf.nests (Nests.refl (beginScope s).2)⟩

end Closes

/-- What is done inside a new function, which is closed then. -/
theorem nests_function {α : Type} {x : Build α} [hx : Balanced x] (kind : BodyKind) (name : String)
    (s : Builder) :
    s.Nests (closeBody (x (beginScope (openBody kind name s).2).2).2).2 := by
  have h := hx.nests (beginScope (openBody kind name s).2).2
  generalize (x (beginScope (openBody kind name s).2).2).2 = s' at h
  have haround : Body.GrowAll (s.body :: s.outer) s'.outer := h.around
  cases houter : s'.outer with
  | nil =>
      rw [houter] at haround
      cases haround
  | cons b outer =>
      rw [houter] at haround
      obtain ⟨hb, houter'⟩ := List.forall₂_cons.mp haround
      rw [closeBody_run houter]
      exact ⟨h.fed, h.upcoming, h.errors, hb.kind, hb.depth, Nat.le_of_eq (congrArg Chunk.size hb.chunk).symm,
        houter', h.classes⟩

end Builder

/-! ## Expressions -/

namespace Expression

open Builder

instance (op : Opcode) : Balanced (literal op) :=
  inferInstanceAs (Balanced (emit op))

instance : Balanced number := by
  unfold number
  refine Balanced.bind inferInstance fun text => ?_
  cases Number.ofLiteral? text <;> infer_instance

instance : Balanced string := by
  unfold string
  infer_instance

section Operands

variable (bound : Nat) (sub : Power → Build Unit) [∀ p, Balanced (sub p)]

set_option synthInstance.maxSize 4096

instance : Balanced (expression sub) :=
  inferInstanceAs (Balanced (sub .assignment))

instance (name : String) (canAssign : Bool) : Balanced (named sub name canAssign) := by
  unfold named
  infer_instance

instance : Balanced (grouping sub) := by
  unfold grouping
  infer_instance

instance (op : Opcode) : Balanced (unary sub op) := by
  unfold unary
  infer_instance

instance (count : Nat) : Balanced (argumentsFrom sub bound count) := by
  induction bound generalizing count with
  | zero => exact inferInstanceAs (Balanced (pure count))
  | succ bound ih =>
      rw [argumentsFrom]
      infer_instance

instance : Balanced (arguments bound sub) := by
  unfold arguments
  infer_instance

instance : Balanced this := by
  unfold this
  infer_instance

instance : Balanced (super bound sub) := by
  unfold super
  refine Balanced.bind inferInstance fun s => ?_
  cases s.classes.head? <;> dsimp only <;> infer_instance

theorem balanced_opening {canAssign : Bool} {kind : TokenKind} {x : Build Unit}
    (h : opening bound sub canAssign kind = some x) : Balanced x := by
  cases kind <;> simp only [opening, Option.some.injEq, reduceCtorEq] at h <;>
    subst h <;> infer_instance

instance (operator : TokenKind) : Balanced (binary sub operator) := by
  unfold binary
  infer_instance

instance : Balanced (call bound sub) := by
  unfold call
  infer_instance

instance (canAssign : Bool) : Balanced (property bound sub canAssign) := by
  unfold property
  infer_instance

instance : Balanced (and sub) := by
  unfold and
  infer_instance

instance : Balanced (or sub) := by
  unfold or
  infer_instance

instance (canAssign : Bool) (operator : TokenKind) :
    Balanced (continuation bound sub canAssign operator) := by
  cases operator <;> dsimp only [continuation] <;> infer_instance

instance (least : Power) : Balanced (rule bound sub least) := by
  unfold rule
  refine Balanced.bind inferInstance fun _ => ?_
  refine Balanced.bind inferInstance fun s => ?_
  split
  · infer_instance
  · have := balanced_opening bound sub (by assumption)
    infer_instance

end Operands

instance (n : Nat) (least : Power) : Balanced (within n least) := by
  induction n generalizing least with
  | zero => exact inferInstanceAs (Balanced (pure ()))
  | succ n ih => exact inferInstanceAs (Balanced (rule n (within n) least))

instance (bound : Nat) (least : Power) : Balanced (parse bound least) :=
  inferInstanceAs (Balanced (within (bound + 1) least))

end Expression

/-! ## Statements -/

namespace Statement

open Builder

section Rules

variable (parts : Parts) [Balanced parts.expression] [Balanced parts.statement]
  [Balanced parts.declaration]

set_option synthInstance.maxSize 4096

omit [Balanced parts.statement] [Balanced parts.declaration] in
instance : Balanced (printStatement parts) := by
  unfold printStatement
  infer_instance

omit [Balanced parts.statement] [Balanced parts.declaration] in
instance : Balanced (assertStatement parts) := by
  unfold assertStatement
  infer_instance

omit [Balanced parts.statement] [Balanced parts.declaration] in
instance : Balanced (expressionStatement parts) := by
  unfold expressionStatement
  infer_instance

omit [Balanced parts.statement] [Balanced parts.declaration] in
instance : Balanced (returnStatement parts) := by
  unfold returnStatement
  dsimp only
  infer_instance

instance : Balanced insideBraces := by
  unfold insideBraces
  infer_instance

omit [Balanced parts.expression] [Balanced parts.statement] in
instance : Balanced (block parts) := by
  unfold block
  infer_instance

omit [Balanced parts.expression] [Balanced parts.statement] in
instance : Balanced (blockStatement parts) :=
  inferInstanceAs (Balanced (beginScope >>= fun _ => block parts >>= fun _ => endScope))

instance (name : Option String) :
    Balanced (modify fun s : Builder => { s with initializing := name } : Build PUnit) :=
  ⟨fun _ => ⟨id, Nat.le_refl _, List.prefix_refl _, rfl, rfl, Nat.le_refl _, .refl _, rfl⟩⟩

omit [Balanced parts.statement] [Balanced parts.declaration] in
instance : Balanced (variableDeclaration parts) := by
  unfold variableDeclaration
  infer_instance

omit [Balanced parts.declaration] in
instance : Balanced (ifStatement parts) := by
  unfold ifStatement
  infer_instance

omit [Balanced parts.declaration] in
instance : Balanced (whileStatement parts) := by
  unfold whileStatement
  infer_instance

omit [Balanced parts.statement] [Balanced parts.declaration] in
instance : Balanced (forInitializer parts) := by
  unfold forInitializer
  infer_instance

omit [Balanced parts.statement] [Balanced parts.declaration] in
instance : Balanced (forCondition parts) := by
  unfold forCondition
  infer_instance

omit [Balanced parts.statement] [Balanced parts.declaration] in
instance (start : Nat) : Balanced (forIncrement parts start) := by
  unfold forIncrement
  infer_instance

omit [Balanced parts.declaration] in
instance : Balanced (forStatement parts) := by
  unfold forStatement
  have (exitJump : Option Nat) : Closes (do
      match exitJump with
      | none => pure ()
      | some exitJump =>
        patchJump exitJump
        emit .pop
      endScope) := by
    cases exitJump <;> dsimp only <;> infer_instance
  infer_instance

instance : Balanced (statementRule parts) := by
  unfold statementRule
  infer_instance

instance : Balanced parameter := by
  unfold parameter
  have : Balanced (onBody fun b => ((), { b with arity := b.arity + 1 })) :=
    balanced_onBody (fun _ => rfl) (fun _ => rfl) fun _ => Nat.le_refl _
  infer_instance

omit [Balanced parts.expression] [Balanced parts.statement] [Balanced parts.declaration] in
instance : Balanced (parameters parts) := by
  unfold parameters
  infer_instance

instance (c : Capture) : Balanced (emitCapture c) := by
  unfold emitCapture
  infer_instance

instance (captures : Array Capture) : Balanced (captures.forM emitCapture) := by
  have h : captures.forM emitCapture = captures.toList.forM emitCapture := by
    cases captures
    simp
  rw [h]
  infer_instance

instance (kind : BodyKind) : Balanced (function parts kind) := by
  refine ⟨fun s => ?_⟩
  have hbody := nests_function (x := do
    parameters parts
    expect .bodyOpen
    block parts
    emitReturn) kind s.previous.text s
  simp only [run_bind] at hbody
  simp only [function, run_bind]
  exact hbody.trans (Balanced.nests (x := do
    emitWith .closure (← makeConstant (.function _))
    Array.forM emitCapture _) _)

omit [Balanced parts.expression] [Balanced parts.statement] in
instance : Balanced (functionDeclaration parts) := by
  unfold functionDeclaration
  infer_instance

omit [Balanced parts.expression] [Balanced parts.statement] in
instance : Balanced (method parts) := by
  unfold method
  infer_instance

/-! ## Classes -/

/-- The start of a class. -/
def openClass (inherits : Bool) (s : Builder) : Builder :=
  { s with classes := inherits :: s.classes }

/-- Inside a class, whose superclass takes a scope of its own. -/
def Member (s s' : Builder) : Prop :=
  (openClass false s).Nests s' ∨ (beginScope (openClass true s)).2.Nests s'

variable {α β : Type} {x : Build α} {s : Builder}

/-- The action leads from states with one property to states with another. -/
def Leads (x : Build α) (P Q : Builder → Prop) : Prop :=
  ∀ s, P s → Q (x s).2

theorem Leads.bind {f : α → Build β} {P Q R : Builder → Prop} (hx : Leads x P Q)
    (hf : ∀ a, Leads (f a) Q R) : Leads (x >>= f) P R :=
  fun s h => hf _ _ (hx s h)

theorem leads_nests (hx : Balanced x) : Leads x s.Nests s.Nests :=
  fun s' h => h.trans (hx.nests s')

theorem leads_member (hx : Balanced x) : Leads x (Member s) (Member s) :=
  fun s' h => h.imp (·.trans (hx.nests s')) (·.trans (hx.nests s'))

/-- A superclass opens its scope. -/
theorem leads_superclass (name : String) :
    Leads (superclass name) (openClass false s).Nests (Member s) := by
  have hopened : Leads (do
      beginScope
      addLocal "super"
      defineVariable 0
      readNamed name
      emit .inherit
      modify fun s => { s with classes := true :: s.classes.tail })
      (openClass false s).Nests (Member s) := by
    refine .bind (Q := (beginScope (openClass false s)).2.Nests) (fun s' h => ?_) fun _ => ?_
    · exact ⟨h.fed, h.upcoming, h.errors, h.kind, congrArg (· + 1) h.depth, h.code, h.around, h.classes⟩
    refine .bind (leads_nests inferInstance) fun _ => ?_
    refine .bind (leads_nests inferInstance) fun _ => ?_
    refine .bind (leads_nests inferInstance) fun _ => ?_
    refine .bind (leads_nests inferInstance) fun _ => ?_
    exact fun s' h => .inr ⟨h.fed, h.upcoming, h.errors, h.kind, h.depth, h.code, h.around,
      congrArg (true :: List.tail ·) h.classes⟩
  unfold superclass
  refine .bind (leads_nests inferInstance) fun _ => ?_
  refine .bind (leads_nests inferInstance) fun _ => ?_
  refine .bind (leads_nests inferInstance) fun _ => ?_
  refine .bind (leads_nests inferInstance) fun _ => ?_
  dsimp only
  split
  · exact .bind (leads_nests inferInstance) fun _ => hopened
  · exact hopened

/-- The end of a class. -/
theorem leads_endClass : Leads (do
    let hasSuperclass := (← get).classes.head?.getD false
    modify fun s => { s with classes := s.classes.tail }
    if hasSuperclass then endScope) (Member s) s.Nests := by
  intro s' h
  change s.Nests ((if s'.classes.head?.getD false = true then endScope else pure () : Build Unit)
    { s' with classes := s'.classes.tail }).2
  rcases h with h | h
  · have hclasses : s'.classes = false :: s.classes := h.classes
    rw [hclasses]
    exact ⟨h.fed, h.upcoming, h.errors, h.kind, h.depth, h.code, h.around, rfl⟩
  · have hclasses : s'.classes = true :: s.classes := h.classes
    rw [hclasses]
    exact Closes.nests (x := endScope) (s := s)
      ⟨h.fed, h.upcoming, h.errors, h.kind, h.depth, h.code, h.around, rfl⟩

omit [Balanced parts.expression] [Balanced parts.statement] in
theorem leads_members (name : String) : Leads (members parts name) (Member s) s.Nests := by
  unfold members
  refine .bind (leads_member inferInstance) fun _ => ?_
  refine .bind (leads_member inferInstance) fun _ => ?_
  refine .bind (leads_member inferInstance) fun _ => ?_
  refine .bind (leads_member inferInstance) fun _ => ?_
  exact .bind (leads_member inferInstance) fun _ => leads_endClass

omit [Balanced parts.expression] [Balanced parts.statement] in
instance : Balanced (classDeclaration parts) := by
  refine ⟨fun s => (?_ : Leads (classDeclaration parts) s.Nests s.Nests) s (.refl s)⟩
  rw [classDeclaration_eq]
  refine .bind (leads_nests inferInstance) fun _ => ?_
  refine .bind (leads_nests inferInstance) fun name => ?_
  refine .bind (leads_nests inferInstance) fun _ => ?_
  refine .bind (leads_nests inferInstance) fun _ => ?_
  refine .bind (leads_nests inferInstance) fun _ => ?_
  refine .bind (leads_nests inferInstance) fun _ => ?_
  refine .bind (Q := (openClass false s).Nests) (fun s' h => ?_) fun _ => ?_
  · exact ⟨h.fed, h.upcoming, h.errors, h.kind, h.depth, h.code, h.around, congrArg (false :: ·) h.classes⟩
  refine .bind (leads_nests inferInstance) fun inherits => ?_
  cases inherits
  · exact fun s' h => leads_members parts name s' (.inl h)
  · exact .bind (leads_superclass name) fun _ => leads_members parts name

instance : Balanced (declarationRule parts) := by
  unfold declarationRule
  infer_instance

end Rules

theorem balanced_within (n : Nat) : Balanced (statement n) ∧ Balanced (declaration n) := by
  induction n with
  | zero => exact ⟨inferInstanceAs (Balanced (pure ())), inferInstanceAs (Balanced (pure ()))⟩
  | succ n ih =>
      obtain ⟨_, _⟩ := ih
      rw [statement, declaration]
      exact ⟨inferInstance, inferInstance⟩

instance (n : Nat) : Balanced (statement n) :=
  (balanced_within n).1

instance (n : Nat) : Balanced (declaration n) :=
  (balanced_within n).2

end Statement

end LoxMachine
