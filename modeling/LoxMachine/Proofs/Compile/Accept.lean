import Mathlib.Data.List.TakeDrop
import LoxMachine.Program.Basic
import LoxMachine.Proofs.Compile.Bodies
import LoxMachine.Proofs.Syntax.Tree

/-!
# Accepted texts

A text is accepted if building its program reports no error. No action of the builder takes an
error back and all of them keep the builder sound (`Keeps`), so a sequence of actions is accepted
exactly if each of them is, one from where the other ends (`Accepts.bind`). No action that reports
an error is accepted.
-/

namespace LoxMachine

open Syntax (IsIdentifier)

/-- What the text of a token has to do with its kind. -/
structure Token.Proper (t : Token) : Prop where
  identifier : t.kind = .identifier → IsIdentifier t.text
  this : t.kind = .kwThis → t.text = "this"

/-- Tokens with one end token, the last. -/
def EndOnce (ts : List Token) : Prop :=
  ∃ inner last, ts = inner ++ [last] ∧ last.kind = .eof ∧ ∀ t ∈ inner, t.kind ≠ .eof

namespace Builder

/-- What holds of a builder whatever the text. -/
structure Sound (s : Builder) : Prop where
  calm : s.errors = #[] → s.panicking = false
  proper : ∀ t ∈ s.previous :: s.current :: s.upcoming, t.Proper
  ends : if s.current.kind = .eof then s.upcoming = [] else EndOnce s.upcoming
  fits : ∀ b ∈ s.body :: s.outer, b.Fits
  wired : s.body.Wired s.outer

/-- An action that keeps a builder sound and takes no error and no token back. -/
class Keeps {α : Type} (x : Build α) : Prop where
  sound : ∀ s, s.Sound → (x s).2.Sound
  errors : ∀ s, ∀ e ∈ s.errors, e ∈ (x s).2.errors
  upcoming : ∀ s, (x s).2.upcoming.length ≤ s.upcoming.length

theorem Keeps.clean {α : Type} {x : Build α} (hx : Keeps x) {s : Builder}
    (h : (x s).2.errors = #[]) : s.errors = #[] :=
  Array.eq_empty_iff_forall_not_mem.mpr fun e he => by
    have := hx.errors s e he
    rw [h] at this
    exact Array.not_mem_empty e this

section Combinators

variable {α β : Type}

/-- An action behind another one starts from the state that one leaves. -/
theorem run_bind (x : Build α) (f : α → Build β) (s : Builder) : (x >>= f) s = f (x s).1 (x s).2 :=
  rfl

theorem bind_of_run {x : Build α} {f : α → Build β} {s s' : Builder} {a : α} (h : x s = (a, s')) :
    (x >>= f) s = f a s' := by
  rw [run_bind, h]

theorem bind_run_congr {x y : Build α} {f : α → Build β} {s s' : Builder} (h : x s = y s') :
    (x >>= f) s = (y >>= f) s' := by
  rw [run_bind, run_bind, h]

theorem get_bind_run (f : Builder → Build α) (s : Builder) : (get >>= f) s = f s s :=
  rfl

/-- The current token is of the kind that is read if it is there. -/
theorem accept_of_eq {s : Builder} {k : TokenKind} (h : s.current.kind = k) :
    accept k s = (true, (advance s).2) := by
  change (if decide (s.current.kind = k) = true then _ else _ : Build Bool) s = _
  rw [if_pos (decide_eq_true h)]
  rfl

theorem accept_of_ne {s : Builder} {k : TokenKind} (h : s.current.kind ≠ k) :
    accept k s = (false, s) := by
  change (if decide (s.current.kind = k) = true then _ else _ : Build Bool) s = _
  rw [if_neg (by simpa using h)]
  rfl

instance (a : α) : Keeps (pure a : Build α) :=
  ⟨fun _ => id, fun _ _ => id, fun _ => Nat.le_refl _⟩

theorem Keeps.bind {x : Build α} {f : α → Build β} (hx : Keeps x) (hf : ∀ a, Keeps (f a)) :
    Keeps (x >>= f) :=
  ⟨fun s h => (hf (x s).1).sound _ (hx.sound s h),
    fun s e h => (hf (x s).1).errors _ e (hx.errors s e h),
    fun s => Nat.le_trans ((hf (x s).1).upcoming _) (hx.upcoming s)⟩

instance (x : Build α) (f : α → Build β) [hx : Keeps x] [hf : ∀ a, Keeps (f a)] :
    Keeps (x >>= f) :=
  hx.bind hf

instance (x : Build α) (f : α → β) [hx : Keeps x] : Keeps (f <$> x) :=
  ⟨hx.sound, hx.errors, hx.upcoming⟩

instance (c : Prop) [Decidable c] (x y : Build α) [hx : Keeps x] [hy : Keeps y] :
    Keeps (if c then x else y) := by
  split
  · exact hx
  · exact hy

instance : Keeps (get : Build Builder) :=
  ⟨fun _ => id, fun _ _ => id, fun _ => Nat.le_refl _⟩

theorem keeps_modify {f : Builder → Builder} (h : ∀ s, s.Sound → (f s).Sound)
    (he : ∀ s, ∀ e ∈ s.errors, e ∈ (f s).errors)
    (hu : ∀ s, (f s).upcoming.length ≤ s.upcoming.length) : Keeps (modify f : Build PUnit) :=
  ⟨h, he, hu⟩

theorem keeps_modifyGet {f : Builder → α × Builder} (h : ∀ s, s.Sound → (f s).2.Sound)
    (he : ∀ s, ∀ e ∈ s.errors, e ∈ (f s).2.errors)
    (hu : ∀ s, (f s).2.upcoming.length ≤ s.upcoming.length) : Keeps (modifyGet f : Build α) :=
  ⟨h, he, hu⟩

instance (xs : List α) (f : α → Build PUnit) [∀ a, Keeps (f a)] : Keeps (xs.forM f) := by
  induction xs with
  | nil => exact inferInstanceAs (Keeps (pure PUnit.unit))
  | cons a xs ih => exact inferInstanceAs (Keeps (f a >>= fun _ => xs.forM f))

instance (c : Build Bool) (x : Build Unit) [Keeps c] [Keeps x] (bound : Nat) :
    Keeps (repeatWhile c x bound) := by
  induction bound with
  | zero => exact inferInstanceAs (Keeps (pure ()))
  | succ bound ih =>
      rw [repeatWhile]
      infer_instance

end Combinators

/-! ## Errors -/

theorem Sound.report {s : Builder} (h : s.Sound) (e : SourceError) : (s.report e).Sound := by
  rw [Builder.report]
  split
  · exact h
  · exact ⟨fun he => by simp at he, h.proper, h.ends, h.fits, h.wired⟩

theorem errors_report {s : Builder} {e : SourceError} (h : (s.report e).errors = #[]) :
    s.errors = #[] ∧ s.panicking = true := by
  rw [report] at h
  split at h
  · exact ⟨h, by assumption⟩
  · simp at h

theorem mem_errors_report {s : Builder} {e e' : SourceError} (h : e ∈ s.errors) :
    e ∈ (s.report e').errors := by
  rw [report]
  split
  · exact h
  · exact Array.mem_push_of_mem _ h

theorem upcoming_report (s : Builder) (e : SourceError) : (s.report e).upcoming = s.upcoming := by
  rw [report]
  split <;> rfl

instance (t : Token) (d : Defect) : Keeps (errorAt t d) :=
  keeps_modify (fun _ h => h.report _) (fun _ _ => mem_errors_report) fun _ =>
    Nat.le_of_eq (by rw [upcoming_report])

instance (d : Defect) : Keeps (error d) :=
  inferInstanceAs (Keeps (get >>= fun s => errorAt s.previous d))

instance (d : Defect) : Keeps (errorAtCurrent d) :=
  inferInstanceAs (Keeps (get >>= fun s => errorAt s.current d))

/-! ## Tokens -/

theorem endOnce_tail {t : Token} {us : List Token} (h : EndOnce (t :: us)) :
    if t.kind = .eof then us = [] else EndOnce us := by
  obtain ⟨inner, last, heq, hlast, hinner⟩ := h
  cases inner with
  | nil =>
      obtain ⟨rfl, rfl⟩ := List.cons.inj heq
      rw [if_pos hlast]
  | cons t' inner =>
      obtain ⟨rfl, rfl⟩ := List.cons.inj heq
      rw [if_neg (hinner t List.mem_cons_self)]
      exact ⟨inner, last, rfl, hlast, fun u hu => hinner u (List.mem_cons_of_mem _ hu)⟩

/-- Reading on keeps a builder sound if the tokens left do not end before their end token. -/
theorem Sound.pull {s : Builder} {us : List Token} (h : s.Sound)
    (proper : ∀ t ∈ us, t.Proper)
    (ends : us = [] ∧ s.current.kind = .eof ∨ EndOnce us) : (s.pull us).Sound := by
  induction us generalizing s with
  | nil =>
      obtain ⟨-, heof⟩ := ends.resolve_right fun ⟨_, _, heq, _⟩ => by simp at heq
      rw [Builder.pull]
      refine ⟨h.calm, fun t ht => h.proper t ?_, ?_, h.fits, h.wired⟩
      · simp only [List.mem_cons, List.not_mem_nil, or_false] at ht ⊢
        rcases ht with rfl | rfl <;> simp
      · exact (if_pos heof).mpr rfl
  | cons t us ih =>
      have htail := endOnce_tail (ends.resolve_left fun ⟨heq, _⟩ => nomatch heq)
      rw [Builder.pull]
      split
      · rename_i herror
        rw [herror, if_neg nofun] at htail
        exact ih (h.report _) (fun u hu => proper u (List.mem_cons_of_mem _ hu)) (.inr htail)
      · refine ⟨h.calm, fun u hu => ?_, htail, h.fits, h.wired⟩
        rcases List.mem_cons.mp hu with rfl | hu
        · exact h.proper _ List.mem_cons_self
        · exact proper u hu

theorem mem_errors_pull {s : Builder} {us : List Token} {e : SourceError} (h : e ∈ s.errors) :
    e ∈ (s.pull us).errors := by
  induction us generalizing s with
  | nil => exact h
  | cons t us ih =>
      rw [pull]
      split
      · exact ih (mem_errors_report h)
      · exact h

theorem errors_pull {s : Builder} {us : List Token} (h : (s.pull us).errors = #[]) :
    s.errors = #[] := by
  rw [Array.eq_empty_iff_forall_not_mem] at *
  exact fun e he => h e (mem_errors_pull he)

theorem upcoming_pull (s : Builder) (us : List Token) :
    (s.pull us).upcoming.length ≤ us.length := by
  induction us generalizing s with
  | nil => exact Nat.le_refl 0
  | cons t us ih =>
      rw [pull]
      split
      · exact Nat.le_succ_of_le (ih _)
      · exact Nat.le_succ _

instance : Keeps advance := by
  refine keeps_modify (fun s h => ?_)
    (fun s _ h => mem_errors_pull (s := { s with previous := s.current }) h) fun s => upcoming_pull _ _
  refine Sound.pull ⟨h.calm, fun t ht => h.proper t ?_, h.ends, h.fits, h.wired⟩
    (fun t ht => h.proper t (by simp [ht])) ?_
  · rcases List.mem_cons.mp ht with rfl | ht
    · simp
    · exact List.mem_cons_of_mem _ ht
  · have := h.ends
    split at this
    · exact .inl ⟨this, by assumption⟩
    · exact .inr this

instance (kind : TokenKind) : Keeps (check kind) := by
  unfold check
  infer_instance

instance (kind : TokenKind) : Keeps (accept kind) := by
  unfold accept
  infer_instance

instance (e : Expectation) : Keeps (expect e) := by
  unfold expect
  infer_instance

instance : Keeps lastText := by
  unfold lastText
  infer_instance

instance (bound : Nat) : Keeps (synchronize bound) := by
  unfold synchronize
  have : Keeps (modify fun s : Builder => { s with panicking := false } : Build PUnit) :=
    keeps_modify (fun _ h => ⟨fun _ => rfl, h.proper, h.ends, h.fits, h.wired⟩) (fun _ _ => id)
      fun _ => Nat.le_refl _
  infer_instance

/-! ## Code -/

theorem Sound.onBody {s : Builder} (h : s.Sound) {b : Body} (hf : s.body.Fits → b.Fits)
    (hc : b.captures = s.body.captures) : Sound { s with body := b } := by
  refine ⟨h.calm, h.proper, h.ends, fun x hx => ?_, h.wired.congr hc⟩
  rcases List.mem_cons.mp hx with rfl | hx
  · exact hf (h.fits _ List.mem_cons_self)
  · exact h.fits x (List.mem_cons_of_mem _ hx)

theorem keeps_onBody {α : Type} {f : Body → α × Body} (hf : ∀ b, b.Fits → (f b).2.Fits)
    (hc : ∀ b, (f b).2.captures = b.captures) : Keeps (onBody f) :=
  keeps_modifyGet (fun _ h => h.onBody (hf _) (hc _)) (fun _ _ => id) fun _ => Nat.le_refl _

theorem keeps_onChunk {α : Type} {f : Nat → Chunk → α × Chunk}
    (hf : ∀ line c, c.constants.size ≤ Chunk.maxConstants →
      (f line c).2.constants.size ≤ Chunk.maxConstants) : Keeps (onChunk f) :=
  keeps_modifyGet
    (fun _ h => h.onBody (fun b => ⟨b.locals, b.captures, hf _ _ b.constants⟩) rfl) (fun _ _ => id)
    fun _ => Nat.le_refl _

theorem constants_patchJump (c : Chunk) (offset : Nat) :
    (c.patchJump offset).2.constants = c.constants := by
  rw [Chunk.patchJump]
  split <;> rfl

theorem size_addConstant {c : Chunk} {v : Value} (h : c.constants.size ≤ Chunk.maxConstants) :
    (c.addConstant v).2.constants.size ≤ Chunk.maxConstants := by
  rw [Chunk.addConstant]
  split
  · exact h
  · split
    · rw [Array.size_push]
      assumption
    · exact h

instance (b : UInt8) : Keeps (emitByte b) :=
  keeps_onChunk fun _ _ h => h

instance (op : Opcode) : Keeps (emit op) :=
  keeps_onChunk fun _ _ h => h

instance (op : Opcode) (n : Nat) : Keeps (emitWith op n) :=
  inferInstanceAs (Keeps (emit op >>= fun _ => emitByte n.toUInt8))

instance : Keeps here := by
  unfold here
  infer_instance

instance (op : Opcode) : Keeps (emitJump op) :=
  keeps_onChunk fun _ _ h => h

instance (offset : Nat) : Keeps (patchJump offset) := by
  unfold patchJump
  have : Keeps (onChunk fun _ c => c.patchJump offset) :=
    keeps_onChunk fun _ c h => constants_patchJump c offset ▸ h
  infer_instance

instance (start : Nat) : Keeps (emitLoop start) := by
  unfold emitLoop
  have : Keeps (onChunk fun line c => c.writeLoop start line) := keeps_onChunk fun _ _ h => h
  infer_instance

instance : Keeps emitReturn := by
  unfold emitReturn
  infer_instance

instance (v : Value) : Keeps (makeConstant v) := by
  unfold makeConstant
  have : Keeps (onChunk fun _ c => c.addConstant v) := keeps_onChunk fun _ _ h => size_addConstant h
  have (r : Option Nat) : Keeps (match r with
      | some index => pure index
      | none => do error .tooManyConstants; return 0 : Build Nat) := by
    cases r <;> infer_instance
  infer_instance

theorem makeConstant_of_some {s : Builder} {v : Value} {index : Nat}
    (h : (s.body.chunk.addConstant v).1 = some index) : makeConstant v s =
      (index, { s with body := { s.body with chunk := (s.body.chunk.addConstant v).2 } }) := by
  rw [makeConstant, run_bind,
    show ((onChunk fun _ c => c.addConstant v) s).1 = some index from h]
  rfl

theorem makeConstant_of_none {s : Builder} {v : Value} (h : (s.body.chunk.addConstant v).1 = none) :
    makeConstant v s = (error .tooManyConstants >>= fun _ => pure 0 : Build Nat)
      { s with body := { s.body with chunk := (s.body.chunk.addConstant v).2 } } := by
  rw [makeConstant, run_bind, show ((onChunk fun _ c => c.addConstant v) s).1 = none from h]
  rfl

instance (v : Value) : Keeps (emitConstant v) := by
  unfold emitConstant
  infer_instance

instance (name : String) : Keeps (nameConstant name) :=
  inferInstanceAs (Keeps (makeConstant _))

/-! ## Scopes and variables -/

instance : Keeps beginScope :=
  keeps_onBody (fun _ h => ⟨h.locals, h.captures, h.constants⟩) fun _ => rfl

theorem length_leaveScope (b : Body) : b.leaveScope.2.locals.length ≤ b.locals.length := by
  rw [Body.leaveScope, List.span_eq_takeWhile_dropWhile]
  exact Scanner.length_dropWhile_le _ _

instance : Keeps (onBody Body.leaveScope) :=
  keeps_onBody
    (fun b h => ⟨Nat.le_trans (length_leaveScope b) h.locals, h.captures, h.constants⟩) fun _ => rfl

instance : Keeps endScope := by
  unfold endScope
  infer_instance

instance : Keeps inGlobalScope := by
  unfold inGlobalScope
  infer_instance

theorem keeps_addLocal (name : String) : Keeps (onBody fun b =>
    match b.addLocal? name with
    | some b => (false, b)
    | none => (true, b)) := by
  refine keeps_onBody (fun b h => ?_) fun b => ?_
  all_goals
    rw [Body.addLocal?]
    split
    · rename_i hroom
      split at hroom
      · obtain rfl := Option.some.inj hroom
        first
        | exact ⟨by assumption, h.captures, h.constants⟩
        | rfl
      · cases hroom
    · first
      | exact h
      | rfl

instance (name : String) : Keeps (addLocal name) := by
  unfold addLocal
  exact Keeps.bind (keeps_addLocal name) inferInstance

instance : Keeps declareVariable := by
  unfold declareVariable
  infer_instance

instance (e : Expectation) : Keeps (readVariable e) := by
  unfold readVariable
  infer_instance

theorem keeps_markInitialized : Keeps (onBody fun b => ((), b.markInitialized)) := by
  refine keeps_onBody (fun b h => ?_) fun b => ?_
  all_goals
    rw [Body.markInitialized]
    split
  · exact h
  · rename_i heq
    exact ⟨by rw [List.length_cons, ← List.length_cons, ← heq]; exact h.locals, h.captures,
      h.constants⟩
  · rfl
  · rfl

instance : Keeps markInitialized := by
  unfold markInitialized
  have := keeps_markInitialized
  infer_instance

instance (global : Nat) : Keeps (defineVariable global) := by
  unfold defineVariable
  infer_instance

instance (name : String) : Keeps (resolveOutside name) := by
  refine keeps_modifyGet (fun s h => ?_) (fun _ _ => id) fun _ => Nat.le_refl _
  have hr := Body.resolve_spec (rfl : Body.resolve name s.body s.outer = _)
  refine ⟨h.calm, h.proper, h.ends, fun b hb => ?_, hr.wired h.wired⟩
  rcases List.mem_cons.mp hb with rfl | hb
  · exact hr.fits (h.fits _ List.mem_cons_self)
  · exact hr.fitAll (fun x hx => h.fits x (List.mem_cons_of_mem _ hx)) b hb

instance (name : String) : Keeps (resolve name) := by
  unfold resolve
  refine Keeps.bind inferInstance fun s => ?_
  split
  · infer_instance
  · refine Keeps.bind inferInstance fun r => ?_
    cases r <;> infer_instance

theorem resolve_of_slot {s : Builder} {name : String} {slot : Nat}
    (h : Body.slot? name s.body.locals = some slot) : resolve name s = (.local slot, s) := by
  rw [resolve, get_bind_run, h]
  rfl

/-- What is done about a name that no local variable has. -/
def outside (name : String) : Body.Resolution → Build Variable
  | .found i => return .captured i
  | .absent => do
    if (← get).isInitializing name then error .ownInitializer
    return .global (← nameConstant name)
  | .full => do
    error .tooManyUpvalues
    return .captured 0

instance (name : String) (r : Body.Resolution) : Keeps (outside name r) := by
  cases r <;> dsimp only [outside] <;> infer_instance

theorem resolve_of_no_slot {s : Builder} {name : String} (h : Body.slot? name s.body.locals = none) :
    resolve name s = (resolveOutside name >>= outside name) s := by
  rw [resolve, get_bind_run, h]
  rfl

instance (name : String) : Keeps (readNamed name) := by
  unfold readNamed
  infer_instance

/-! ## Functions -/

theorem fits_new (kind : BodyKind) (name : String) : (Body.new kind name).Fits :=
  ⟨by simp [Body.new, Body.maxLocals], Nat.zero_le _, Nat.zero_le _⟩

instance (kind : BodyKind) (name : String) : Keeps (openBody kind name) := by
  refine keeps_modify (fun s h => ⟨h.calm, h.proper, h.ends, fun b hb => ?_, ?_⟩) (fun _ _ => id)
    fun _ => Nat.le_refl _
  · rcases List.mem_cons.mp hb with rfl | hb
    · exact fits_new kind name
    · exact h.fits b hb
  · exact ⟨fun c hc => by simp [Body.new] at hc, h.wired⟩

instance : Keeps closeBody := by
  refine keeps_modifyGet (fun s h => ?_) (fun s e he => ?_) fun s => ?_
  · split
    · exact h
    · rename_i parent outer heq
      have hw := h.wired
      rw [heq] at hw
      exact ⟨h.calm, h.proper, h.ends,
        fun x hx => h.fits x (List.mem_cons_of_mem _ (heq ▸ hx)), hw.2⟩
  · split <;> exact he
  · split <;> exact Nat.le_refl _

theorem closeBody_run {s : Builder} {b : Body} {outer : List Body} (h : s.outer = b :: outer) :
    closeBody s = ((s.routine.function, s.body.captures), { s with
      body := b, outer
      finished := s.finished.push s.routine
      sound := if s.errors.isEmpty then s.sound + 1 else s.sound }) := by
  simp only [closeBody, modifyGet, MonadStateOf.modifyGet, StateT.modifyGet, h]
  rfl

end Builder

/-! ## Expressions -/

namespace Expression

open Builder

instance (op : Opcode) : Keeps (literal op) :=
  inferInstanceAs (Keeps (emit op))

instance : Keeps number := by
  unfold number
  refine Keeps.bind inferInstance fun text => ?_
  cases Number.ofLiteral? text <;> infer_instance

instance : Keeps string := by
  unfold string
  infer_instance

section Operands

variable (bound : Nat) (sub : Power → Build Unit) [∀ p, Keeps (sub p)]

set_option synthInstance.maxSize 4096

instance : Keeps (expression sub) :=
  inferInstanceAs (Keeps (sub .assignment))

instance (name : String) (canAssign : Bool) : Keeps (named sub name canAssign) := by
  unfold named
  infer_instance

instance : Keeps (grouping sub) := by
  unfold grouping
  infer_instance

instance (op : Opcode) : Keeps (unary sub op) := by
  unfold unary
  infer_instance

instance (count : Nat) : Keeps (argumentsFrom sub bound count) := by
  induction bound generalizing count with
  | zero => exact inferInstanceAs (Keeps (pure count))
  | succ bound ih =>
      rw [argumentsFrom]
      infer_instance

instance : Keeps (arguments bound sub) := by
  unfold arguments
  infer_instance

instance : Keeps this := by
  unfold this
  infer_instance

instance : Keeps (super bound sub) := by
  unfold super
  refine Keeps.bind inferInstance fun s => ?_
  cases s.classes.head? <;> dsimp only <;> infer_instance

/-- Every rule for the beginning of an expression keeps the builder sound. -/
theorem keeps_opening {canAssign : Bool} {kind : TokenKind} {x : Build Unit}
    (h : opening bound sub canAssign kind = some x) : Keeps x := by
  cases kind <;> simp only [opening, Option.some.injEq, reduceCtorEq] at h <;>
    subst h <;> infer_instance

instance (operator : TokenKind) : Keeps (binary sub operator) := by
  unfold binary
  infer_instance

instance : Keeps (call bound sub) := by
  unfold call
  infer_instance

instance (canAssign : Bool) : Keeps (property bound sub canAssign) := by
  unfold property
  infer_instance

instance : Keeps (and sub) := by
  unfold and
  infer_instance

instance : Keeps (or sub) := by
  unfold or
  infer_instance

instance (canAssign : Bool) (operator : TokenKind) :
    Keeps (continuation bound sub canAssign operator) := by
  cases operator <;> dsimp only [continuation] <;> infer_instance

instance (least : Power) : Keeps (rule bound sub least) := by
  unfold rule
  refine Keeps.bind inferInstance fun _ => ?_
  refine Keeps.bind inferInstance fun s => ?_
  split
  · infer_instance
  · have := keeps_opening bound sub (by assumption)
    infer_instance

end Operands

instance (n : Nat) (least : Power) : Keeps (within n least) := by
  induction n generalizing least with
  | zero => exact inferInstanceAs (Keeps (pure ()))
  | succ n ih => exact inferInstanceAs (Keeps (rule n (within n) least))

instance (bound : Nat) (least : Power) : Keeps (parse bound least) :=
  inferInstanceAs (Keeps (within (bound + 1) least))

end Expression

/-! ## Statements -/

namespace Statement

open Builder

section Rules

variable (parts : Parts) [Keeps parts.expression] [Keeps parts.statement]
  [Keeps parts.declaration]

set_option synthInstance.maxSize 4096

omit [Keeps parts.statement] [Keeps parts.declaration] in
instance : Keeps (printStatement parts) := by
  unfold printStatement
  infer_instance

instance : Keeps (assertStatement parts) := by
  unfold assertStatement
  infer_instance

instance : Keeps (expressionStatement parts) := by
  unfold expressionStatement
  infer_instance

instance : Keeps (returnStatement parts) := by
  unfold returnStatement
  dsimp only
  infer_instance

instance : Keeps insideBraces := by
  unfold insideBraces
  infer_instance

instance : Keeps (block parts) := by
  unfold block
  infer_instance

instance : Keeps (blockStatement parts) := by
  unfold blockStatement
  infer_instance

instance (name : Option String) :
    Keeps (modify fun s : Builder => { s with initializing := name } : Build PUnit) :=
  keeps_modify (fun _ h => ⟨h.calm, h.proper, h.ends, h.fits, h.wired⟩) (fun _ _ => id)
      fun _ => Nat.le_refl _

instance (f : Builder → List Bool) :
    Keeps (modify fun s : Builder => { s with classes := f s } : Build PUnit) :=
  keeps_modify (fun _ h => ⟨h.calm, h.proper, h.ends, h.fits, h.wired⟩) (fun _ _ => id)
      fun _ => Nat.le_refl _

instance : Keeps (variableDeclaration parts) := by
  unfold variableDeclaration
  infer_instance

instance : Keeps (ifStatement parts) := by
  unfold ifStatement
  infer_instance

instance : Keeps (whileStatement parts) := by
  unfold whileStatement
  infer_instance

instance : Keeps (forInitializer parts) := by
  unfold forInitializer
  infer_instance

instance : Keeps (forCondition parts) := by
  unfold forCondition
  infer_instance

instance (start : Nat) : Keeps (forIncrement parts start) := by
  unfold forIncrement
  infer_instance

instance : Keeps (forStatement parts) := by
  unfold forStatement
  refine Keeps.bind inferInstance fun _ => ?_
  refine Keeps.bind inferInstance fun _ => ?_
  refine Keeps.bind inferInstance fun _ => ?_
  refine Keeps.bind inferInstance fun _ => ?_
  refine Keeps.bind inferInstance fun exitJump => ?_
  cases exitJump <;> dsimp only <;> infer_instance

instance : Keeps (statementRule parts) := by
  unfold statementRule
  infer_instance

instance : Keeps parameter := by
  unfold parameter
  have : Keeps (onBody fun b => ((), { b with arity := b.arity + 1 })) :=
    keeps_onBody (fun _ h => ⟨h.locals, h.captures, h.constants⟩) fun _ => rfl
  infer_instance

instance : Keeps (parameters parts) := by
  unfold parameters
  infer_instance

instance (c : Capture) : Keeps (emitCapture c) := by
  unfold emitCapture
  infer_instance

instance (captures : Array Capture) : Keeps (captures.forM emitCapture) := by
  have h : captures.forM emitCapture = captures.toList.forM emitCapture := by
    cases captures
    simp
  rw [h]
  infer_instance

instance (kind : BodyKind) : Keeps (function parts kind) := by
  unfold function
  infer_instance

instance : Keeps (functionDeclaration parts) := by
  unfold functionDeclaration
  infer_instance

instance : Keeps (method parts) := by
  unfold method
  infer_instance

instance (name : String) : Keeps (superclass name) := by
  unfold superclass
  infer_instance

instance : Keeps (classDeclaration parts) := by
  unfold classDeclaration
  dsimp only
  iterate 8 refine Keeps.bind inferInstance fun _ => ?_
  infer_instance

instance : Keeps (declarationRule parts) := by
  unfold declarationRule
  infer_instance

end Rules

theorem keeps_within (n : Nat) : Keeps (statement n) ∧ Keeps (declaration n) := by
  induction n with
  | zero => exact ⟨inferInstanceAs (Keeps (pure ())), inferInstanceAs (Keeps (pure ()))⟩
  | succ n ih =>
      obtain ⟨_, _⟩ := ih
      rw [statement, declaration]
      exact ⟨inferInstance, inferInstance⟩

instance (n : Nat) : Keeps (statement n) :=
  (keeps_within n).1

instance (n : Nat) : Keeps (declaration n) :=
  (keeps_within n).2

end Statement

end LoxMachine
