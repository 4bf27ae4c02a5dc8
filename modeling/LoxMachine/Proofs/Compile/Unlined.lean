import Mathlib
import LoxMachine.Program.Basic

/-!
# Lines

Lines reach the tables of chunks and the errors of a text, and decide nothing else. `unlined` sets
the lines of a thing to zero. A building action is blind to lines if it answers the same and leaves
the same behind, lines apart, when all lines are zero (`Blind`); all of them are, so the tokens
without their lines determine the program without its lines.

Main statement: `Program.compile_sameButLines`.
-/

namespace LoxMachine

/-! ## Without lines -/

def Token.unlined (t : Token) : Token :=
  { t with line := 0 }

def Chunk.unlined (c : Chunk) : Chunk :=
  { c with code := c.code.map fun (byte, _) => (byte, 0) }

def Body.unlined (b : Body) : Body :=
  { b with chunk := b.chunk.unlined }

def Routine.unlined (r : Routine) : Routine :=
  { r with code := r.code.unlined }

def SourceError.unlined : SourceError → SourceError
  | .scan _ cause => .scan 0 cause
  | .grammar _ place cause => .grammar 0 place cause

def Builder.unlined (s : Builder) : Builder :=
  { s with
    previous := s.previous.unlined
    current := s.current.unlined
    upcoming := s.upcoming.map Token.unlined
    errors := s.errors.map SourceError.unlined
    body := s.body.unlined
    outer := s.outer.map Body.unlined
    finished := s.finished.map Routine.unlined }

/-! ## Chunks -/

namespace Chunk

theorem size_unlined (c : Chunk) : c.unlined.size = c.size :=
  Array.size_map

theorem unlined_write (c : Chunk) (byte : UInt8) (line : Nat) :
    (c.write byte line).unlined = c.unlined.write byte 0 := by
  simp [unlined, write]

theorem unlined_setByte (c : Chunk) (offset : Nat) (byte : UInt8) :
    (c.setByte offset byte).unlined = c.unlined.setByte offset byte := by
  have : (c.code.modify offset fun (_, line) => (byte, line)).map (fun (b, _) => (b, (0 : Nat))) =
      (c.code.map fun (b, _) => (b, 0)).modify offset fun (_, line) => (byte, line) := by
    refine Array.ext_getElem? fun i => ?_
    simp only [Array.getElem?_map, Array.getElem?_modify]
    split <;> cases c.code[i]? <;> rfl
  simp only [unlined, setByte, this]

theorem patchJump_unlined (c : Chunk) (offset : Nat) :
    c.unlined.patchJump offset = ((c.patchJump offset).1, (c.patchJump offset).2.unlined) := by
  rw [patchJump, patchJump, size_unlined]
  split
  · rw [unlined_setByte, unlined_setByte]
  · rfl

theorem writeLoop_unlined (c : Chunk) (start line : Nat) :
    c.unlined.writeLoop start 0 =
      ((c.writeLoop start line).1, (c.writeLoop start line).2.unlined) := by
  simp only [writeLoop, writeOp, size_unlined, unlined_write]

theorem writeJump_unlined (c : Chunk) (op : Opcode) (line : Nat) :
    c.unlined.writeJump op 0 = ((c.writeJump op line).1, (c.writeJump op line).2.unlined) := by
  simp only [writeJump, writeOp, size_unlined, unlined_write]

theorem addConstant_unlined (c : Chunk) (v : Value) :
    c.unlined.addConstant v = ((c.addConstant v).1, (c.addConstant v).2.unlined) := by
  have hconstants : c.unlined.constants = c.constants := rfl
  rw [addConstant, addConstant, hconstants]
  cases c.constants.idxOf? v with
  | some i => rfl
  | none =>
      dsimp only
      split_ifs <;> rfl

end Chunk

/-! ## Blind actions -/

namespace Builder

/-- The action does the same without lines. -/
class Blind {α : Type} (x : Build α) : Prop where
  unlined : ∀ s : Builder, x s.unlined = ((x s).1, (x s).2.unlined)

section Combinators

variable {α β : Type}

instance (a : α) : Blind (pure a : Build α) :=
  ⟨fun _ => rfl⟩

theorem Blind.bind {x : Build α} {f : α → Build β} (hx : Blind x) (hf : ∀ a, Blind (f a)) :
    Blind (x >>= f) := by
  refine ⟨fun s => ?_⟩
  change f (x s.unlined).1 (x s.unlined).2 = ((f (x s).1 (x s).2).1, (f (x s).1 (x s).2).2.unlined)
  rw [hx.unlined]
  exact (hf _).unlined _

instance (x : Build α) (f : α → Build β) [hx : Blind x] [hf : ∀ a, Blind (f a)] :
    Blind (x >>= f) :=
  hx.bind hf

instance (x : Build α) (f : α → β) [hx : Blind x] : Blind (f <$> x) := by
  refine ⟨fun s => ?_⟩
  change (f (x s.unlined).1, (x s.unlined).2) = _
  rw [hx.unlined]
  rfl

instance (c : Prop) [Decidable c] (x y : Build α) [hx : Blind x] [hy : Blind y] :
    Blind (if c then x else y) := by
  split
  · exact hx
  · exact hy

/-- What is read of the builder must not depend on lines. -/
theorem Blind.get {f : Builder → Build α} (h : ∀ s, f s.unlined = f s) (hf : ∀ s, Blind (f s)) :
    Blind (get >>= f) := by
  refine ⟨fun s => ?_⟩
  change f s.unlined s.unlined = _
  rw [h]
  exact (hf s).unlined s

theorem blind_modify {f : Builder → Builder} (h : ∀ s, f s.unlined = (f s).unlined) :
    Blind (modify f : Build PUnit) :=
  ⟨fun s => congrArg (Prod.mk _) (h s)⟩

instance (xs : List α) (f : α → Build PUnit) [∀ a, Blind (f a)] : Blind (xs.forM f) := by
  induction xs with
  | nil => exact inferInstanceAs (Blind (pure PUnit.unit))
  | cons a xs ih => exact inferInstanceAs (Blind (f a >>= fun _ => xs.forM f))

instance (c : Build Bool) (x : Build Unit) [Blind c] [Blind x] (bound : Nat) :
    Blind (repeatWhile c x bound) := by
  induction bound with
  | zero => exact inferInstanceAs (Blind (pure ()))
  | succ bound ih =>
      rw [repeatWhile]
      infer_instance

end Combinators

/-! ## Errors -/

theorem unlined_report (s : Builder) (e : SourceError) :
    (s.report e).unlined = s.unlined.report e.unlined := by
  rw [report, report]
  change _ = if s.panicking then _ else _
  split
  · rfl
  · simp [unlined]

/-- Two reports of one defect at one token. -/
theorem unlined_errorAt (t : Token) (d : Defect) (s : Builder) :
    errorAt t.unlined d s.unlined = ((), (errorAt t d s).2.unlined) :=
  congrArg (Prod.mk ()) (unlined_report s (.grammar t.line (.ofToken t) d)).symm

instance (d : Defect) : Blind (error d) :=
  ⟨fun s => unlined_errorAt s.previous d s⟩

instance (d : Defect) : Blind (errorAtCurrent d) :=
  ⟨fun s => unlined_errorAt s.current d s⟩

/-! ## Tokens -/

theorem unlined_pull (s : Builder) (us : List Token) :
    (s.pull us).unlined = s.unlined.pull (us.map Token.unlined) := by
  induction us generalizing s with
  | nil => rfl
  | cons t us ih =>
      have hkind : t.unlined.kind = t.kind := rfl
      rw [List.map_cons, pull, pull, hkind]
      cases t.kind with
      | error cause =>
          dsimp only
          rw [ih, unlined_report]
          rfl
      | _ => rfl

instance : Blind advance :=
  blind_modify fun s => (unlined_pull { s with previous := s.current } s.upcoming).symm

instance (kind : TokenKind) : Blind (check kind) :=
  .get (fun _ => rfl) inferInstance

instance (kind : TokenKind) : Blind (accept kind) := by
  unfold accept
  infer_instance

instance (e : Expectation) : Blind (expect e) := by
  unfold expect
  infer_instance

instance : Blind lastText :=
  .get (fun _ => rfl) inferInstance

instance (bound : Nat) : Blind (synchronize bound) := by
  unfold synchronize
  have : Blind (modify fun s : Builder => { s with panicking := false } : Build PUnit) :=
    blind_modify fun _ => rfl
  have : Blind (do return !(← get).atBoundary) := .get (fun _ => rfl) inferInstance
  infer_instance

/-! ## Code -/

theorem blind_onBody {α : Type} {f : Body → α × Body}
    (h : ∀ b, f b.unlined = ((f b).1, (f b).2.unlined)) : Blind (onBody f) := by
  refine ⟨fun s => ?_⟩
  change ((f s.body.unlined).1, { s.unlined with body := (f s.body.unlined).2 }) = _
  rw [h]
  rfl

theorem blind_onChunk {α : Type} {f : Nat → Chunk → α × Chunk}
    (h : ∀ line c, f 0 c.unlined = ((f line c).1, (f line c).2.unlined)) : Blind (onChunk f) := by
  refine ⟨fun s => ?_⟩
  change ((f 0 s.body.chunk.unlined).1,
    { s.unlined with body := { s.body.unlined with chunk := (f 0 s.body.chunk.unlined).2 } }) = _
  rw [h s.previous.line]
  rfl

instance (b : UInt8) : Blind (emitByte b) :=
  blind_onChunk fun line c => congrArg (Prod.mk ()) (c.unlined_write b line).symm

instance (op : Opcode) : Blind (emit op) :=
  blind_onChunk fun line c => congrArg (Prod.mk ()) (c.unlined_write op.toByte line).symm

instance (op : Opcode) (n : Nat) : Blind (emitWith op n) :=
  inferInstanceAs (Blind (emit op >>= fun _ => emitByte n.toUInt8))

instance : Blind here :=
  .get (fun s => congrArg pure s.body.chunk.size_unlined) inferInstance

instance (op : Opcode) : Blind (emitJump op) :=
  blind_onChunk fun line c => c.writeJump_unlined op line

instance (offset : Nat) : Blind (patchJump offset) := by
  unfold patchJump
  have : Blind (onChunk fun _ c => c.patchJump offset) :=
    blind_onChunk fun _ c => c.patchJump_unlined offset
  infer_instance

instance (start : Nat) : Blind (emitLoop start) := by
  unfold emitLoop
  have : Blind (onChunk fun line c => c.writeLoop start line) :=
    blind_onChunk fun line c => c.writeLoop_unlined start line
  infer_instance

instance : Blind emitReturn :=
  .get (fun _ => rfl) inferInstance

instance (v : Value) : Blind (makeConstant v) := by
  unfold makeConstant
  have : Blind (onChunk fun _ c => c.addConstant v) :=
    blind_onChunk fun _ c => c.addConstant_unlined v
  refine Blind.bind inferInstance fun index => ?_
  cases index <;> infer_instance

instance (v : Value) : Blind (emitConstant v) := by
  unfold emitConstant
  infer_instance

instance (name : String) : Blind (nameConstant name) :=
  inferInstanceAs (Blind (makeConstant _))

/-! ## Scopes and variables -/

instance : Blind beginScope :=
  blind_onBody fun _ => rfl

instance : Blind endScope := by
  unfold endScope
  have : Blind (onBody Body.leaveScope) := blind_onBody fun _ => rfl
  infer_instance

instance : Blind inGlobalScope :=
  .get (fun _ => rfl) inferInstance

instance (name : String) : Blind (addLocal name) := by
  unfold addLocal
  refine Blind.bind (blind_onBody fun b => ?_) inferInstance
  have hlocals : b.unlined.locals = b.locals := rfl
  rw [Body.addLocal?, Body.addLocal?, hlocals]
  split_ifs <;> rfl

instance : Blind declareVariable := by
  unfold declareVariable
  have (name : String) : Blind (do
      if (← get).body.isDeclared name then error .duplicateLocal
      addLocal name) := .get (fun _ => rfl) inferInstance
  infer_instance

instance (e : Expectation) : Blind (readVariable e) := by
  unfold readVariable
  infer_instance

instance : Blind markInitialized := by
  unfold markInitialized
  have : Blind (onBody fun b => ((), b.markInitialized)) := by
    refine blind_onBody fun b => ?_
    have hlocals : b.unlined.locals = b.locals := rfl
    rw [Body.markInitialized, Body.markInitialized, hlocals]
    cases b.locals <;> rfl
  infer_instance

instance (global : Nat) : Blind (defineVariable global) := by
  unfold defineVariable
  infer_instance

end Builder

namespace Body

theorem addCapture_unlined (b : Body) (c : Capture) :
    b.unlined.addCapture c = ((b.addCapture c).1, (b.addCapture c).2.unlined) := by
  have hcaptures : b.unlined.captures = b.captures := rfl
  rw [addCapture, addCapture, hcaptures]
  cases b.captures.idxOf? c with
  | some i => rfl
  | none =>
      dsimp only
      split_ifs <;> rfl

theorem link_unlined (b : Body) (c : Capture) :
    b.unlined.link c = ((b.link c).1, (b.link c).2.unlined) := by
  rw [link, link, addCapture_unlined]
  rcases b.addCapture c with ⟨_ | i, b'⟩ <;> rfl

theorem resolve_unlined (name : String) (b : Body) (outer : List Body) :
    resolve name b.unlined (outer.map unlined) =
      ((resolve name b outer).1, (resolve name b outer).2.1.unlined,
        (resolve name b outer).2.2.map unlined) := by
  induction outer generalizing b with
  | nil => rfl
  | cons parent outer ih =>
      have hlocals : parent.unlined.locals = parent.locals := rfl
      rw [List.map_cons, resolve, resolve, ih, hlocals]
      cases captureSlot? name parent.locals with
      | some marked =>
          dsimp only
          rw [link_unlined]
          rfl
      | none =>
          rcases resolve name parent outer with ⟨_ | i, parent', outer'⟩
          · rfl
          · dsimp only
            rw [link_unlined]
            rfl
          · rfl

end Body

namespace Builder

instance (name : String) : Blind (resolveOutside name) := by
  refine ⟨fun s => ?_⟩
  have h := Body.resolve_unlined name s.body s.outer
  change ((Body.resolve name s.body.unlined (s.outer.map Body.unlined)).1, { s.unlined with
    body := (Body.resolve name s.body.unlined (s.outer.map Body.unlined)).2.1
    outer := (Body.resolve name s.body.unlined (s.outer.map Body.unlined)).2.2 }) = _
  rw [h]
  rfl

instance (name : String) : Blind (resolve name) := by
  unfold resolve
  refine .get (fun _ => rfl) fun s => ?_
  split
  · infer_instance
  · refine Blind.bind inferInstance fun r => ?_
    cases r with
    | found index => infer_instance
    | absent => exact .get (fun _ => rfl) inferInstance
    | full => infer_instance

instance (name : String) : Blind (readNamed name) := by
  unfold readNamed
  infer_instance

/-! ## Functions -/

instance (kind : BodyKind) (name : String) : Blind (openBody kind name) := by
  refine blind_modify fun s => ?_
  have hnew : (Body.new kind name).unlined = Body.new kind name := by
    simp [Body.new, Body.unlined, Chunk.unlined]
  change _ = { s.unlined with
    body := (Body.new kind name).unlined, outer := s.body.unlined :: s.outer.map Body.unlined }
  rw [hnew]
  rfl

theorem routine_unlined (s : Builder) : s.unlined.routine = s.routine.unlined := by
  simp [routine, unlined, Routine.unlined, Body.unlined]

theorem isEmpty_errors_unlined (s : Builder) : s.unlined.errors.isEmpty = s.errors.isEmpty := by
  simp [unlined, Array.isEmpty]

instance : Blind closeBody := by
  refine ⟨fun s => ?_⟩
  have hclose (s : Builder) : closeBody s = ((s.routine.function, s.body.captures),
      match s.outer with
      | [] => s
      | body :: outer =>
          { s with
            body, outer
            finished := s.finished.push s.routine
            sound := if s.errors.isEmpty then s.sound + 1 else s.sound }) := by
    rw [closeBody]
    change (match s.outer with | [] => _ | body :: outer => _ : _ × Builder) = _
    cases s.outer <;> rfl
  have houter : s.unlined.outer = s.outer.map Body.unlined := rfl
  rw [hclose, hclose, routine_unlined, isEmpty_errors_unlined, houter]
  refine congrArg (Prod.mk _) ?_
  cases s.outer with
  | nil => rfl
  | cons body outer => simp [unlined]

end Builder

/-! ## Expressions -/

namespace Expression

open Builder

instance (op : Opcode) : Blind (literal op) :=
  inferInstanceAs (Blind (emit op))

instance : Blind number := by
  unfold number
  refine Blind.bind inferInstance fun text => ?_
  cases Number.ofLiteral? text <;> infer_instance

instance : Blind string :=
  .get (fun _ => rfl) inferInstance

section Operands

variable (bound : Nat) (sub : Power → Build Unit) [∀ p, Blind (sub p)]

set_option synthInstance.maxSize 4096

instance : Blind (expression sub) :=
  inferInstanceAs (Blind (sub .assignment))

instance (name : String) (canAssign : Bool) : Blind (named sub name canAssign) := by
  unfold named
  infer_instance

instance : Blind (grouping sub) := by
  unfold grouping
  infer_instance

instance (op : Opcode) : Blind (unary sub op) := by
  unfold unary
  infer_instance

instance (count : Nat) : Blind (argumentsFrom sub bound count) := by
  induction bound generalizing count with
  | zero => exact inferInstanceAs (Blind (pure count))
  | succ bound ih =>
      rw [argumentsFrom]
      infer_instance

instance : Blind (arguments bound sub) := by
  unfold arguments
  infer_instance

instance : Blind this :=
  .get (fun _ => rfl) inferInstance

instance : Blind (super bound sub) := by
  refine .get (fun _ => rfl) fun s => ?_
  cases s.classes.head? <;> dsimp only <;> infer_instance

/-- Every rule for the beginning of an expression is blind. -/
theorem blind_opening {canAssign : Bool} {kind : TokenKind} {x : Build Unit}
    (h : opening bound sub canAssign kind = some x) : Blind x := by
  cases kind <;> simp only [opening, Option.some.injEq, reduceCtorEq] at h <;>
    subst h <;> infer_instance

instance (operator : TokenKind) : Blind (binary sub operator) := by
  unfold binary
  infer_instance

instance : Blind (call bound sub) := by
  unfold call
  infer_instance

instance (canAssign : Bool) : Blind (property bound sub canAssign) := by
  unfold property
  infer_instance

instance : Blind (and sub) := by
  unfold and
  infer_instance

instance : Blind (or sub) := by
  unfold or
  infer_instance

instance (canAssign : Bool) (operator : TokenKind) :
    Blind (continuation bound sub canAssign operator) := by
  cases operator <;> dsimp only [continuation] <;> infer_instance

instance (least : Power) : Blind (rule bound sub least) := by
  unfold rule
  refine Blind.bind inferInstance fun _ => .get (fun _ => rfl) fun s => ?_
  split
  · infer_instance
  · have := blind_opening bound sub (by assumption)
    have : Blind (do return decide (least ≤ Power.ofKind (← get).current.kind)) :=
      .get (fun _ => rfl) inferInstance
    have (canAssign : Bool) : Blind (do
        advance
        continuation bound sub canAssign (← get).previous.kind) :=
      .bind inferInstance fun _ => .get (fun _ => rfl) inferInstance
    infer_instance

end Operands

instance (n : Nat) (least : Power) : Blind (within n least) := by
  induction n generalizing least with
  | zero => exact inferInstanceAs (Blind (pure ()))
  | succ n ih => exact inferInstanceAs (Blind (rule n (within n) least))

instance (bound : Nat) (least : Power) : Blind (parse bound least) :=
  inferInstanceAs (Blind (within (bound + 1) least))

end Expression

/-! ## Statements -/

namespace Statement

open Builder

section Rules

variable (parts : Parts) [Blind parts.expression] [Blind parts.statement]
  [Blind parts.declaration]

set_option synthInstance.maxSize 4096

omit [Blind parts.statement] [Blind parts.declaration] in
instance : Blind (printStatement parts) := by
  unfold printStatement
  infer_instance

instance : Blind (assertStatement parts) := by
  unfold assertStatement
  infer_instance

instance : Blind (expressionStatement parts) := by
  unfold expressionStatement
  infer_instance

instance : Blind (returnStatement parts) := by
  have : Blind (do
      if ← accept .semicolon then emitReturn
      else
        if (← get).body.kind = .initializer then error .initializerReturn
        parts.expression
        expect .returnEnd
        emit .ret) := by
    have : Blind (do
        if (← get).body.kind = .initializer then error .initializerReturn
        parts.expression
        expect .returnEnd
        emit .ret) := .get (fun _ => rfl) inferInstance
    infer_instance
  exact .get (fun _ => rfl) inferInstance

instance : Blind insideBraces := by
  unfold insideBraces
  infer_instance

instance : Blind (block parts) := by
  unfold block
  infer_instance

instance : Blind (blockStatement parts) := by
  unfold blockStatement
  infer_instance

instance (name : Option String) :
    Blind (modify fun s : Builder => { s with initializing := name } : Build PUnit) :=
  blind_modify fun _ => rfl

theorem blind_classes (f : List Bool → List Bool) :
    Blind (modify fun s : Builder => { s with classes := f s.classes } : Build PUnit) :=
  blind_modify fun _ => rfl

instance : Blind (variableDeclaration parts) := by
  unfold variableDeclaration
  infer_instance

instance : Blind (ifStatement parts) := by
  unfold ifStatement
  infer_instance

instance : Blind (whileStatement parts) := by
  unfold whileStatement
  infer_instance

instance : Blind (forInitializer parts) := by
  unfold forInitializer
  infer_instance

instance : Blind (forCondition parts) := by
  unfold forCondition
  infer_instance

instance (start : Nat) : Blind (forIncrement parts start) := by
  unfold forIncrement
  infer_instance

instance : Blind (forStatement parts) := by
  unfold forStatement
  iterate 4 refine Blind.bind inferInstance fun _ => ?_
  refine Blind.bind inferInstance fun exitJump => ?_
  cases exitJump <;> dsimp only <;> infer_instance

instance : Blind (statementRule parts) := by
  unfold statementRule
  infer_instance

instance : Blind parameter := by
  unfold parameter
  have : Blind (onBody fun b => ((), { b with arity := b.arity + 1 })) := blind_onBody fun _ => rfl
  exact .bind inferInstance fun _ => .get (fun _ => rfl) inferInstance

instance : Blind (parameters parts) := by
  unfold parameters
  infer_instance

instance (c : Capture) : Blind (emitCapture c) := by
  unfold emitCapture
  infer_instance

instance (captures : Array Capture) : Blind (captures.forM emitCapture) := by
  have h : captures.forM emitCapture = captures.toList.forM emitCapture := by
    cases captures
    simp
  rw [h]
  infer_instance

instance (kind : BodyKind) : Blind (function parts kind) := by
  unfold function
  infer_instance

instance : Blind (functionDeclaration parts) := by
  unfold functionDeclaration
  infer_instance

instance : Blind (method parts) := by
  unfold method
  infer_instance

instance (name : String) : Blind (superclass name) := by
  have := blind_classes (true :: ·.tail)
  unfold superclass
  infer_instance

instance : Blind (classDeclaration parts) := by
  have := blind_classes (false :: ·)
  have := blind_classes List.tail
  have hend : Blind (do
      let hasSuperclass := (← get).classes.head?.getD false
      modify fun s => { s with classes := s.classes.tail }
      if hasSuperclass then endScope) := .get (fun _ => rfl) inferInstance
  have (name : String) : Blind (do
      readNamed name
      expect .classOpen
      repeatWhile insideBraces (method parts) parts.bound
      expect .classClose
      emit .pop
      let hasSuperclass := (← get).classes.head?.getD false
      modify fun s => { s with classes := s.classes.tail }
      if hasSuperclass then endScope) := by
    iterate 5 refine Blind.bind inferInstance fun _ => ?_
    exact hend
  unfold classDeclaration
  iterate 8 refine Blind.bind inferInstance fun _ => ?_
  infer_instance

instance : Blind (declarationRule parts) := by
  have : Blind (do if (← get).panicking then synchronize parts.bound) :=
    .get (fun _ => rfl) inferInstance
  unfold declarationRule
  infer_instance

end Rules

theorem blind_within (n : Nat) : Blind (statement n) ∧ Blind (declaration n) := by
  induction n with
  | zero => exact ⟨inferInstanceAs (Blind (pure ())), inferInstanceAs (Blind (pure ()))⟩
  | succ n ih =>
      obtain ⟨_, _⟩ := ih
      rw [statement, declaration]
      exact ⟨inferInstance, inferInstance⟩

instance (n : Nat) : Blind (declaration n) :=
  (blind_within n).2

end Statement

/-! ## Programs -/

/-- Two errors of one kind at one place that say the same, wherever they are. -/
def SourceError.SameButLine : SourceError → SourceError → Prop
  | .scan _ cause, .scan _ cause' => cause = cause'
  | .grammar _ place cause, .grammar _ place' cause' => place = place' ∧ cause = cause'
  | _, _ => False

/-- Two functions whose code differs at most in its table of lines. Constants that are functions name
them by their place in the store. -/
structure Routine.SameButLines (r r' : Routine) : Prop where
  function : r.function = r'.function
  kind : r.kind = r'.kind
  bytes : r.code.code.map (·.1) = r'.code.code.map (·.1)
  constants : r.code.constants = r'.code.constants

structure Program.SameButLines (p p' : Program) : Prop where
  nested : List.Forall₂ Routine.SameButLines p.nested.toList p'.nested.toList
  main : p.main.SameButLines p'.main

structure Rejection.SameButLines (r r' : Rejection) : Prop where
  errors : List.Forall₂ SourceError.SameButLine r.errors r'.errors
  sound : List.Forall₂ Routine.SameButLines r.sound.toList r'.sound.toList

theorem SourceError.sameButLine_of_unlined {e e' : SourceError} (h : e.unlined = e'.unlined) :
    e.SameButLine e' := by
  cases e <;> cases e' <;> simp_all [unlined, SameButLine]

theorem Chunk.bytes_unlined (c : Chunk) : c.unlined.code.map (·.1) = c.code.map (·.1) := by
  simp [unlined, Function.comp_def]

theorem Routine.sameButLines_of_unlined {r r' : Routine} (h : r.unlined = r'.unlined) :
    r.SameButLines r' where
  function := show r.unlined.function = r'.unlined.function by rw [h]
  kind := show r.unlined.kind = r'.unlined.kind by rw [h]
  bytes := by
    rw [← r.code.bytes_unlined, ← r'.code.bytes_unlined]
    exact congrArg (fun r => r.code.code.map (·.1)) h
  constants := congrArg (fun r => r.code.constants) h

theorem forall₂_of_map_eq {α β : Type} {f : α → β} {R : α → α → Prop}
    (hR : ∀ a b, f a = f b → R a b) : ∀ {l l' : List α}, l.map f = l'.map f → List.Forall₂ R l l'
  | [], [], _ => .nil
  | a :: l, b :: l', h => by
      obtain ⟨hab, h⟩ := List.cons.inj h
      exact .cons (hR a b hab) (forall₂_of_map_eq hR h)

namespace Program

open Builder

instance (bound : Nat) : Blind (script bound) := by
  unfold script
  infer_instance

theorem unlined_start (firstIndex : Nat) {ts ts' : List Token}
    (h : ts.map Token.unlined = ts'.map Token.unlined) :
    (start firstIndex ts).unlined = (start firstIndex ts').unlined := by
  simp only [start, Builder.unlined, h]

/-- Tokens that differ in their lines alone have programs, or rejections, that do. -/
theorem ofTokens_sameButLines (firstIndex : Nat) {ts ts' : List Token}
    (h : ts.map Token.unlined = ts'.map Token.unlined) :
    match ofTokens firstIndex ts, ofTokens firstIndex ts' with
    | .ok p, .ok p' => p.SameButLines p'
    | .error r, .error r' => r.SameButLines r'
    | _, _ => False := by
  have hlength : ts.length = ts'.length := by simpa using congrArg List.length h
  have hrun : ((script ts.length (start firstIndex ts)).2).unlined =
      ((script ts'.length (start firstIndex ts')).2).unlined := by
    have hs := (inferInstance : Blind (script ts.length)).unlined (start firstIndex ts)
    rw [unlined_start firstIndex h, (inferInstance : Blind (script ts.length)).unlined, hlength] at hs
    rw [hlength]
    exact (Prod.mk.inj hs).2.symm
  rw [ofTokens, ofTokens]
  generalize (script ts.length (start firstIndex ts)).2 = s at hrun ⊢
  generalize (script ts'.length (start firstIndex ts')).2 = s' at hrun ⊢
  have hfinished : s.finished.toList.map Routine.unlined = s'.finished.toList.map Routine.unlined := by
    simpa [unlined] using congrArg (·.finished.toList) hrun
  have herrors : s.errors.toList.map SourceError.unlined = s'.errors.toList.map SourceError.unlined := by
    simpa [unlined] using congrArg (·.errors.toList) hrun
  have hempty : s.errors.isEmpty = s'.errors.isEmpty := by
    rw [← s.isEmpty_errors_unlined, hrun, s'.isEmpty_errors_unlined]
  have hsound : s.sound = s'.sound := congrArg (·.sound) hrun
  rw [conclude, conclude, hempty]
  split_ifs
  · refine ⟨forall₂_of_map_eq (fun _ _ => Routine.sameButLines_of_unlined) hfinished, ?_⟩
    refine Routine.sameButLines_of_unlined ?_
    rw [← routine_unlined, ← routine_unlined, hrun]
  · refine ⟨forall₂_of_map_eq (fun _ _ => SourceError.sameButLine_of_unlined) herrors,
      forall₂_of_map_eq (fun _ _ => Routine.sameButLines_of_unlined) ?_⟩
    simp [List.map_take, hfinished, hsound]

/-- The layout of a text decides nothing but lines: texts whose tokens agree in kind and clusters
both have a program, or neither, and what they have differs in lines alone. -/
theorem compile_sameButLines (firstIndex : Nat) {source source' : String}
    (h : List.Forall₂ (fun t t' => t.kind = t'.kind ∧ t.lexeme = t'.lexeme)
      (Scanner.ofString source).tokens (Scanner.ofString source').tokens) :
    match compile firstIndex source, compile firstIndex source' with
    | .ok p, .ok p' => p.SameButLines p'
    | .error r, .error r' => r.SameButLines r'
    | _, _ => False := by
  refine ofTokens_sameButLines firstIndex ?_
  generalize (Scanner.ofString source).tokens = ts at h ⊢
  generalize (Scanner.ofString source').tokens = ts' at h ⊢
  induction h with
  | nil => rfl
  | @cons t t' _ _ ht _ ih =>
      rw [List.map_cons, List.map_cons, ih, Token.unlined, Token.unlined, ht.1, ht.2]

/-- A newline and a comment between the tokens of a text. -/
theorem compile_sameButLines_comment :
    match compile 0 "a;", compile 0 "a // b\n;" with
    | .ok p, .ok p' => p.SameButLines p'
    | .error r, .error r' => r.SameButLines r'
    | _, _ => False := by
  refine compile_sameButLines 0 ?_
  have h : (Scanner.ofString "a;").tokens =
      [⟨.identifier, [['a']], 1⟩, ⟨.semicolon, [[';']], 1⟩, .eof 1] := by cbv
  have h' : (Scanner.ofString "a // b\n;").tokens =
      [⟨.identifier, [['a']], 1⟩, ⟨.semicolon, [[';']], 2⟩, .eof 2] := by cbv
  rw [h, h']
  simp [Token.eof]

end Program

end LoxMachine
