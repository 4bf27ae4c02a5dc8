import LoxMachine.Proofs.Verdict.Basic
import LoxMachine.Proofs.Compile.Names

/-!
# Scopes of a builder

The scopes that a builder keeps are those of the text it has read (`Shows`). Most actions leave them
as they are (`Still`); following a name outwards marks variables as captured at most.
-/

namespace LoxMachine

open Syntax (FunctionScope Scope IsIdentifier slotOf? placeIn?)

/-! ## Bodies -/

namespace Body

/-- The same scopes, perhaps with more variables captured. -/
structure Alike (b b' : Body) : Prop where
  kind : b'.kind = b.kind
  depth : b'.depth = b.depth
  locals : Raised b.locals b'.locals

theorem Alike.refl (b : Body) : Alike b b :=
  ⟨rfl, rfl, Raised.refl _⟩

theorem Alike.trans {a b c : Body} (h : Alike a b) (h' : Alike b c) : Alike a c :=
  ⟨h'.kind.trans h.kind, h'.depth.trans h.depth, h.locals.trans h'.locals⟩

theorem Grows.alike {b b' : Body} (h : Grows b b') : Alike b b' :=
  ⟨h.kind, h.depth, h.locals⟩

/-- The variables of some scopes, each with the number of scopes around it. -/
def marks : List (List String) → List (String × Option Nat)
  | [] => []
  | scope :: scopes => scope.map (·, some (scopes.length + 1)) ++ marks scopes

def mark (l : Local) : String × Option Nat :=
  (l.name, l.depth)

/-- The scopes of a body are those of a function. -/
structure Shows (b : Body) (f : FunctionScope) : Prop where
  kind : b.kind = f.kind
  depth : b.depth = f.scopes.length
  locals : b.locals.map mark = marks f.scopes ++ [(receiverName f.kind, some 0)]

theorem Raised.map_mark {a b : List Local} (h : Raised a b) : b.map mark = a.map mark := by
  induction h with
  | nil => rfl
  | cons hl _ ih => rw [List.map_cons, List.map_cons, ih, mark, mark, hl.name, hl.depth]

variable {b b' : Body} {f : FunctionScope} {name : String}

theorem Shows.alike (h : b.Shows f) (h' : b.Alike b') : b'.Shows f :=
  ⟨h'.kind.trans h.kind, h'.depth.trans h.depth, h'.locals.map_mark.trans h.locals⟩

theorem mem_marks {scopes : List (List String)} {m : String × Option Nat} (h : m ∈ marks scopes) :
    ∃ k, m.2 = some (k + 1) ∧ k < scopes.length := by
  induction scopes with
  | nil => cases h
  | cons scope scopes ih =>
      rcases List.mem_append.mp h with h | h
      · obtain ⟨x, -, rfl⟩ := List.mem_map.mp h
        exact ⟨_, rfl, Nat.lt_succ_self _⟩
      · obtain ⟨k, hk, hlt⟩ := ih h
        exact ⟨k, hk, Nat.lt_succ_of_lt hlt⟩

theorem map_fst_marks (scopes : List (List String)) :
    (marks scopes).map (·.1) = scopes.flatten := by
  induction scopes with
  | nil => rfl
  | cons scope scopes ih => simp [marks, ih, Function.comp_def]

/-- All variables of a body that shows a frame are initialized. -/
theorem Shows.initialized (h : b.Shows f) {l : Local} (hl : l ∈ b.locals) : l.depth.isSome = true := by
  have hm : mark l ∈ marks f.scopes ++ [(receiverName f.kind, some 0)] :=
    h.locals ▸ List.mem_map_of_mem hl
  rcases List.mem_append.mp hm with hm | hm
  · obtain ⟨k, hk, -⟩ := mem_marks hm
    exact congrArg Option.isSome hk
  · exact congrArg (·.2.isSome) (List.mem_singleton.mp hm)

theorem slot?_eq_slotOf? {locals : List Local} (h : ∀ l ∈ locals, l.depth.isSome = true) :
    slot? name locals = slotOf? name (locals.map (·.name)) := by
  induction locals with
  | nil => rfl
  | cons l locals ih =>
      rw [slot?, List.map_cons, slotOf?, ih fun l hl => h l (List.mem_cons_of_mem _ hl)]
      simp [Local.answersTo, h l List.mem_cons_self]

theorem Shows.names (h : b.Shows f) : b.locals.map (·.name) = f.locals := by
  have := congrArg (List.map (·.1)) h.locals
  rw [List.map_map, List.map_append, map_fst_marks] at this
  exact this

theorem Shows.slot? (h : b.Shows f) (name : String) :
    Body.slot? name b.locals = slotOf? name f.locals := by
  rw [slot?_eq_slotOf? fun l hl => h.initialized hl, h.names]

theorem forall₂_shows {bs bs' : List Body} {fs : List FunctionScope}
    (h : List.Forall₂ Shows bs fs) (h' : List.Forall₂ Alike bs bs') : List.Forall₂ Shows bs' fs := by
  induction h generalizing bs' with
  | nil =>
      cases h'
      exact .nil
  | cons hshows _ ih =>
      obtain _ | ⟨halike, htail⟩ := h'
      exact .cons (hshows.alike halike) (ih htail)

theorem slots_of_shows {bs : List Body} {fs : List FunctionScope} (h : List.Forall₂ Shows bs fs)
    (name : String) : bs.map (fun b => Body.slot? name b.locals) =
      (fs.map FunctionScope.locals).map (slotOf? name) := by
  induction h with
  | nil => rfl
  | cons hb _ ih => rw [List.map_cons, List.map_cons, List.map_cons, ih, hb.slot?]

theorem Shows.not_hasUninitialized (h : b.Shows f) : b.hasUninitialized name = false := by
  rw [hasUninitialized, List.any_eq_false]
  intro l hl hl'
  have := h.initialized hl
  rw [Option.isSome_iff_exists] at this
  obtain ⟨k, hk⟩ := this
  simp [hk] at hl'

theorem Alike.hasUninitialized (h : b.Alike b') (name : String) :
    b'.hasUninitialized name = b.hasUninitialized name := by
  have h := congrArg (List.any · fun m => m.1 == name && m.2.isNone) h.locals.map_mark
  rw [Body.hasUninitialized, Body.hasUninitialized]
  simpa [List.any_map, mark, Function.comp_def] using h

/-! ## Scopes -/

section Scopes

variable {scope : List String} {scopes : List (List String)} {d : Nat}

/-- The variables of the innermost scope are those in front. -/
theorem takeWhile_marks (scope : List String) (scopes : List (List String)) (r : String)
    (p : String × Option Nat → Bool) (hp : ∀ x k, p (x, some k) = decide (scopes.length < k)) : (marks (scope :: scopes) ++ [(r, some 0)]).takeWhile p =
      scope.map (·, some (scopes.length + 1)) ∧
    (marks (scope :: scopes) ++ [(r, some 0)]).dropWhile p = marks scopes ++ [(r, some 0)] := by
  have hin : ∀ m ∈ scope.map (·, some (scopes.length + 1)), p m = true := by
    intro m hm
    obtain ⟨x, -, rfl⟩ := List.mem_map.mp hm
    simp [hp]
  have hout : ∀ m ∈ (marks scopes ++ [(r, some 0)]).head?, p m = false := by
    intro m hm
    rcases List.mem_append.mp (List.mem_of_mem_head? hm) with hm | hm
    · obtain ⟨k, hk, hlt⟩ := mem_marks hm
      rw [show m = (m.1, some (k + 1)) from Prod.ext rfl hk, hp]
      exact decide_eq_false (by omega)
    · rw [List.mem_singleton.mp hm, hp]
      exact decide_eq_false (Nat.not_lt_zero _)
  rw [marks, List.append_assoc, List.takeWhile_append_of_pos hin, List.dropWhile_append_of_pos hin]
  generalize marks scopes ++ [(r, some 0)] = rest at hout ⊢
  cases rest with
  | nil => simp
  | cons m rest =>
      have := hout m rfl
      rw [List.takeWhile_cons_of_neg (by simp [this]), List.dropWhile_cons_of_neg (by simp [this])]
      simp

/-- A body tells which names its innermost scope has. -/
theorem Shows.isDeclared (h : b.Shows f) (hd : b.depth ≠ 0) :
    b.isDeclared name = true ↔ ¬ f.MayDeclare name := by
  obtain ⟨kind, _ | ⟨scope, scopes⟩⟩ := f
  · exact absurd h.depth hd
  have hdepth : b.depth = scopes.length + 1 := h.depth
  have htake := (takeWhile_marks scope scopes (receiverName kind)
    (fun m => m.2.all (b.depth ≤ ·)) fun x k => by
      simp only [hdepth, Option.all_some, Nat.lt_iff_add_one_le]).1
  rw [← h.locals, List.takeWhile_map] at htake
  have hany : b.isDeclared name = ((b.locals.takeWhile fun l => l.depth.all (b.depth ≤ ·)).map mark).any
      (·.1 == name) := by
    rw [Body.isDeclared, List.any_map]
    rfl
  rw [hany, show (fun l : Local => l.depth.all (b.depth ≤ ·)) =
    ((fun m : String × Option Nat => m.2.all (b.depth ≤ ·)) ∘ mark) from rfl, htake]
  simp [FunctionScope.MayDeclare]

theorem Shows.enter (h : b.Shows f) : Shows { b with depth := b.depth + 1 } f.enter :=
  ⟨h.kind, congrArg (· + 1) h.depth, by simpa [FunctionScope.enter, marks] using h.locals⟩

/-- The end of a scope removes its variables. -/
theorem Shows.leave {kind : BodyKind} (h : b.Shows ⟨kind, scope :: scopes⟩) :
    b.leaveScope.2.Shows ⟨kind, scopes⟩ := by
  have hdepth : b.depth - 1 = scopes.length := by rw [h.depth]; rfl
  have hdrop := (takeWhile_marks scope scopes (receiverName kind)
    (fun m => m.2.all (b.depth - 1 < ·)) fun x k => by simp [hdepth]).2
  rw [← h.locals, List.dropWhile_map] at hdrop
  rw [leaveScope, List.span_eq_takeWhile_dropWhile]
  exact ⟨h.kind, hdepth, hdrop⟩

/-- A variable that has been declared and initialized is in the innermost scope. -/
theorem Shows.declare {kind : BodyKind} (h : b.Shows ⟨kind, scope :: scopes⟩) (name : String)
    (captured : Bool) : Shows { b with locals := ⟨name, some b.depth, captured⟩ :: b.locals }
      (FunctionScope.declare ⟨kind, scope :: scopes⟩ name) := by
  refine ⟨h.kind, h.depth, ?_⟩
  rw [List.map_cons, h.locals, mark, h.depth]
  simp [FunctionScope.declare, marks]

end Scopes

theorem shows_new (kind : BodyKind) (name : String) : (Body.new kind name).Shows ⟨kind, []⟩ :=
  ⟨rfl, rfl, rfl⟩

end Body

/-! ## Builders -/

namespace Builder

/-- The same scopes, perhaps with more variables captured. -/
structure Stays (s s' : Builder) : Prop where
  body : s.body.Alike s'.body
  outer : List.Forall₂ Body.Alike s.outer s'.outer
  classes : s'.classes = s.classes
  initializing : s'.initializing = s.initializing

theorem Stays.refl (s : Builder) : s.Stays s :=
  ⟨.refl _, List.forall₂_same.mpr fun b _ => .refl b, rfl, rfl⟩

theorem Stays.trans {s s' s'' : Builder} (h : s.Stays s') (h' : s'.Stays s'') : s.Stays s'' :=
  ⟨h.body.trans h'.body, Body.forall₂_trans (R := Body.Alike) (fun _ _ _ => Body.Alike.trans) h.outer h'.outer,
    h'.classes.trans h.classes, h'.initializing.trans h.initializing⟩

/-- What does not touch the bodies does not touch the scopes. -/
theorem Stays.of_body {s s' : Builder} (hbody : s'.body = s.body) (houter : s'.outer = s.outer)
    (hclasses : s'.classes = s.classes) (hinitializing : s'.initializing = s.initializing) :
    s.Stays s' := by
  have h := refl s
  exact ⟨hbody ▸ h.body, houter ▸ h.outer, hclasses, hinitializing⟩

theorem Reads.stays {s s' : Builder} (h : s.Reads s') : s.Stays s' := by
  rw [h.eq]
  exact .of_body rfl rfl rfl rfl

/-- An action that leaves the scopes as they are, whether it succeeds or not. -/
class Still {α : Type} (x : Build α) : Prop where
  stays : ∀ s : Builder, s.Stays (x s).2

theorem Accepts.stays {α : Type} {x : Build α} [hx : Still x] {s s' : Builder} {a : α}
    (h : Accepts x s a s') : s.Stays s' := by
  have := hx.stays s
  rwa [h.run] at this

section Still

variable {α β : Type}

instance (a : α) : Still (pure a : Build α) :=
  ⟨Stays.refl⟩

instance : Still (get : Build Builder) :=
  ⟨Stays.refl⟩

theorem Still.bind {x : Build α} {f : α → Build β} (hx : Still x) (hf : ∀ a, Still (f a)) :
    Still (x >>= f) :=
  ⟨fun s => (hx.stays s).trans ((hf (x s).1).stays _)⟩

instance (x : Build α) (f : α → Build β) [hx : Still x] [hf : ∀ a, Still (f a)] :
    Still (x >>= f) :=
  hx.bind hf

instance (c : Prop) [Decidable c] (x y : Build α) [hx : Still x] [hy : Still y] :
    Still (if c then x else y) := by
  split
  · exact hx
  · exact hy

instance (xs : List α) (f : α → Build PUnit) [∀ a, Still (f a)] : Still (xs.forM f) := by
  induction xs with
  | nil => exact inferInstanceAs (Still (pure PUnit.unit))
  | cons a xs ih => exact inferInstanceAs (Still (f a >>= fun _ => xs.forM f))

instance (c : Build Bool) (x : Build Unit) [Still c] [Still x] (bound : Nat) :
    Still (repeatWhile c x bound) := by
  induction bound with
  | zero => exact inferInstanceAs (Still (pure ()))
  | succ bound ih =>
      rw [repeatWhile]
      infer_instance

theorem stays_report (s : Builder) (e : SourceError) : s.Stays (s.report e) := by
  rw [report]
  split
  · exact .refl s
  · exact .of_body rfl rfl rfl rfl

instance (t : Token) (d : Defect) : Still (errorAt t d) :=
  ⟨fun s => stays_report s _⟩

instance (d : Defect) : Still (error d) :=
  inferInstanceAs (Still (get >>= fun s => errorAt s.previous d))

instance (d : Defect) : Still (errorAtCurrent d) :=
  inferInstanceAs (Still (get >>= fun s => errorAt s.current d))

theorem stays_pull (s : Builder) (us : List Token) : s.Stays (s.pull us) := by
  induction us generalizing s with
  | nil => exact .of_body rfl rfl rfl rfl
  | cons t us ih =>
      rw [pull]
      split
      · exact (stays_report s _).trans (ih _)
      · exact .of_body rfl rfl rfl rfl

instance : Still advance :=
  ⟨fun s => by
    have h : s.Stays { s with previous := s.current } := .of_body rfl rfl rfl rfl
    exact h.trans (stays_pull _ s.upcoming)⟩

instance (kind : TokenKind) : Still (check kind) := by
  unfold check
  infer_instance

instance (kind : TokenKind) : Still (accept kind) := by
  unfold accept
  infer_instance

instance (e : Expectation) : Still (expect e) := by
  unfold expect
  infer_instance

instance : Still lastText := by
  unfold lastText
  infer_instance

instance : Still inGlobalScope := by
  unfold inGlobalScope
  infer_instance

theorem still_onChunk {f : Nat → Chunk → α × Chunk} : Still (onChunk f) :=
  ⟨fun s => ⟨⟨rfl, rfl, Body.Raised.refl _⟩, (Stays.refl s).outer, rfl, rfl⟩⟩

instance (b : UInt8) : Still (emitByte b) := still_onChunk

instance (op : Opcode) : Still (emit op) := still_onChunk

instance (op : Opcode) (n : Nat) : Still (emitWith op n) :=
  inferInstanceAs (Still (emit op >>= fun _ => emitByte n.toUInt8))

instance : Still here := by
  unfold here
  infer_instance

instance (op : Opcode) : Still (emitJump op) := still_onChunk

instance (offset : Nat) : Still (patchJump offset) := by
  unfold patchJump
  have : Still (onChunk fun _ c => c.patchJump offset) := still_onChunk
  infer_instance

instance (start : Nat) : Still (emitLoop start) := by
  unfold emitLoop
  have : Still (onChunk fun line c => c.writeLoop start line) := still_onChunk
  infer_instance

instance : Still emitReturn := by
  unfold emitReturn
  infer_instance

instance (v : Value) : Still (makeConstant v) := by
  unfold makeConstant
  have : Still (onChunk fun _ c => c.addConstant v) := still_onChunk
  have (r : Option Nat) : Still (match r with
      | some index => pure index
      | none => do error .tooManyConstants; return 0 : Build Nat) := by
    cases r <;> infer_instance
  infer_instance

instance (v : Value) : Still (emitConstant v) := by
  unfold emitConstant
  infer_instance

instance (name : String) : Still (nameConstant name) :=
  inferInstanceAs (Still (makeConstant _))

instance (name : String) : Still (resolveOutside name) := by
  refine ⟨fun s => ?_⟩
  have hr := Body.resolve_spec (rfl : Body.resolve name s.body s.outer = _)
  exact ⟨hr.body.alike, hr.around.imp fun _ _ => Body.Grows.alike, rfl, rfl⟩

instance (name : String) : Still (resolve name) := by
  unfold resolve
  refine Still.bind inferInstance fun s => ?_
  split
  · infer_instance
  · refine Still.bind inferInstance fun r => ?_
    cases r <;> infer_instance

instance (name : String) : Still (readNamed name) := by
  unfold readNamed
  infer_instance

end Still

end Builder

/-! ## Expressions -/

namespace Expression

open Builder

instance (op : Opcode) : Still (literal op) :=
  inferInstanceAs (Still (emit op))

instance : Still number := by
  unfold number
  refine Still.bind inferInstance fun text => ?_
  cases Number.ofLiteral? text <;> infer_instance

instance : Still string := by
  unfold string
  infer_instance

section Operands

variable (bound : Nat) (sub : Power → Build Unit) [∀ p, Still (sub p)]

set_option synthInstance.maxSize 4096

instance : Still (expression sub) :=
  inferInstanceAs (Still (sub .assignment))

instance (name : String) (canAssign : Bool) : Still (named sub name canAssign) := by
  unfold named
  infer_instance

instance : Still (grouping sub) := by
  unfold grouping
  infer_instance

instance (op : Opcode) : Still (unary sub op) := by
  unfold unary
  infer_instance

instance (count : Nat) : Still (argumentsFrom sub bound count) := by
  induction bound generalizing count with
  | zero => exact inferInstanceAs (Still (pure count))
  | succ bound ih =>
      rw [argumentsFrom]
      infer_instance

instance : Still (arguments bound sub) := by
  unfold arguments
  infer_instance

instance : Still this := by
  unfold this
  infer_instance

instance : Still (super bound sub) := by
  unfold super
  refine Still.bind inferInstance fun s => ?_
  cases s.classes.head? <;> dsimp only <;> infer_instance

theorem still_opening {canAssign : Bool} {kind : TokenKind} {x : Build Unit}
    (h : opening bound sub canAssign kind = some x) : Still x := by
  cases kind <;> simp only [opening, Option.some.injEq, reduceCtorEq] at h <;>
    subst h <;> infer_instance

instance (operator : TokenKind) : Still (binary sub operator) := by
  unfold binary
  infer_instance

instance : Still (call bound sub) := by
  unfold call
  infer_instance

instance (canAssign : Bool) : Still (property bound sub canAssign) := by
  unfold property
  infer_instance

instance : Still (and sub) := by
  unfold and
  infer_instance

instance : Still (or sub) := by
  unfold or
  infer_instance

instance (canAssign : Bool) (operator : TokenKind) :
    Still (continuation bound sub canAssign operator) := by
  cases operator <;> dsimp only [continuation] <;> infer_instance

instance (least : Power) : Still (rule bound sub least) := by
  unfold rule
  refine Still.bind inferInstance fun _ => ?_
  refine Still.bind inferInstance fun s => ?_
  split
  · infer_instance
  · have := still_opening bound sub (by assumption)
    infer_instance

end Operands

instance (n : Nat) (least : Power) : Still (within n least) := by
  induction n generalizing least with
  | zero => exact inferInstanceAs (Still (pure ()))
  | succ n ih => exact inferInstanceAs (Still (rule n (within n) least))

instance (bound : Nat) (least : Power) : Still (parse bound least) :=
  inferInstanceAs (Still (within (bound + 1) least))

end Expression

/-! ## What a builder shows -/

namespace Syntax

variable {name : String} {l : List String} {ls : List (List String)}

theorem placeIn?_eq_none :
    placeIn? name ls = none ↔ ∀ l ∈ ls, slotOf? name l = none := by
  induction ls with
  | nil => simp [placeIn?]
  | cons l ls ih =>
      rw [placeIn?, List.forall_mem_cons]
      cases slotOf? name l <;> simp [ih]

end Syntax

namespace Builder

/-- A builder at a place of a text, between statements. -/
structure Shows (s : Builder) (c : Scope) : Prop where
  body : s.body.Shows c.inner
  outer : List.Forall₂ Body.Shows s.outer c.outer
  classes : s.classes = c.classes
  initializing : s.initializing = none
  pending : c.pending = none

/-- A builder at a place of a text, as far as expressions are concerned. -/
structure Sees (s : Builder) (c : Scope) : Prop where
  place : ∀ name, c.place? name = none ↔ ∀ b ∈ s.body :: s.outer, Body.slot? name b.locals = none
  pending : ∀ name, s.isInitializing name = true ↔ c.pending = some name
  identifier : ∀ name, c.pending = some name → IsIdentifier name
  classes : s.classes = c.classes

variable {s s' : Builder} {c : Scope} {us : List Token} {name : String}

theorem Shows.stays (h : s.Shows c) (hs : s.Stays s') : s'.Shows c :=
  ⟨h.body.alike hs.body, Body.forall₂_shows h.outer hs.outer, hs.classes.trans h.classes,
    hs.initializing.trans h.initializing, h.pending⟩

/-- A name leads nowhere where no body has a variable of that name. -/
theorem place?_eq_none (h : (s.body :: s.outer).map (fun b => Body.slot? name b.locals) =
      ((c.inner :: c.outer).map FunctionScope.locals).map (slotOf? name)) :
    c.place? name = none ↔ ∀ b ∈ s.body :: s.outer, Body.slot? name b.locals = none := by
  rw [Scope.place?, Syntax.placeIn?_eq_none]
  have hmem {o : Option Nat} := (congrArg (o ∈ ·) h).to_iff
  simp only [List.mem_map] at hmem
  constructor
  · intro hnone b hb
    obtain ⟨l, hl, heq⟩ := hmem.mp ⟨b, hb, rfl⟩
    exact heq.symm.trans (hnone l (List.mem_map.mpr hl))
  · intro hnone l hl
    obtain ⟨b, hb, heq⟩ := hmem.mpr ⟨l, List.mem_map.mp hl, rfl⟩
    exact heq.symm.trans (hnone b hb)

theorem Shows.sees (h : s.Shows c) : s.Sees c where
  place name := place?_eq_none (Body.slots_of_shows (.cons h.body h.outer) name)
  pending name := by
    rw [isInitializing, h.body.not_hasUninitialized, h.initializing, h.pending]
    simp
  identifier name hname := nomatch h.pending.symm.trans hname
  classes := h.classes

theorem Sees.stays (h : s.Sees c) (hs : s.Stays s') : s'.Sees c := by
  have hall : List.Forall₂ Body.Alike (s.body :: s.outer) (s'.body :: s'.outer) := .cons hs.body hs.outer
  refine ⟨fun name => (h.place name).trans ?_, fun name => ?_, h.identifier,
    hs.classes.trans h.classes⟩
  · generalize s.body :: s.outer = bs, s'.body :: s'.outer = bs' at hall
    induction hall with
    | nil => rfl
    | cons hb _ ih => rw [List.forall_mem_cons, List.forall_mem_cons, ih, hb.locals.slot?]
  · rw [← h.pending, isInitializing, isInitializing, hs.initializing, hs.body.hasUninitialized]

/-- A variable that a name leads to outwards is there. -/
theorem exists_of_leads {outer : List Body} {k : Capture}
    (h : Body.Leads name (outer.map Body.enclosing) k) :
    ∃ b ∈ outer, Body.slot? name b.locals ≠ none := by
  induction outer generalizing k with
  | nil => cases h
  | cons b outer ih =>
      cases h with
      | here hslot => exact ⟨b, List.mem_cons_self, fun hnone => nomatch hslot.symm.trans hnone⟩
      | outwards _ _ hleads =>
          obtain ⟨b', hb', hslot⟩ := ih hleads
          exact ⟨b', List.mem_cons_of_mem _ hb', hslot⟩

/-- Whether a variable may be named is decided when it is looked up. -/
theorem resolve_decides (hs : s.At us) (hc : s.Sees c) (name : String) :
    Decides (resolve name s) (c.pending = some name → c.place? name ≠ none) us fun _ _ => True := by
  cases hslot : Body.slot? name s.body.locals with
  | some slot =>
      rw [resolve_of_slot hslot]
      refine .accepts (fun _ hnone => ?_) hs trivial
      have := (hc.place name).mp hnone s.body List.mem_cons_self
      rw [hslot] at this
      cases this
  | none =>
      have : Lenient (resolveOutside name) := lenient_of_silent fun _ => ⟨rfl, rfl⟩
      rw [resolve_of_no_slot hslot]
      refine .lenient hs fun r s₁ h hat => ?_
      have hc₁ := hc.stays h.stays
      obtain ⟨hr, -⟩ := Accepts.of_resolveOutside h
      cases r with
      | found i =>
          refine .accepts (fun _ hnone => ?_) hat trivial
          obtain ⟨k, -, hleads⟩ := hr.leads i rfl
          obtain ⟨b, hb, hslot⟩ := exists_of_leads hleads
          exact hslot ((hc₁.place name).mp hnone b (List.mem_cons_of_mem _ hb))
      | full => exact .limit hat trivial
      | absent =>
          have hnone : c.place? name = none :=
            (hc.place name).mpr (List.forall_mem_cons.mpr ⟨hslot, hr.absent rfl⟩)
          change Decides ((if s₁.isInitializing name = true then _ else _ : Build Variable) s₁) _ _ _
          split
          · rename_i hpending
            exact .error hat fun h => h ((hc₁.pending name).mp hpending) hnone
          · rename_i hpending
            refine (Lenient.last hat fun _ _ _ _ => trivial).congr ⟨fun _ h => ?_, fun _ => trivial⟩
            exact absurd ((hc₁.pending name).mpr h) hpending

theorem readNamed_decides (hs : s.At us) (hc : s.Sees c) (name : String) :
    Decides (readNamed name s) (c.pending = some name → c.place? name ≠ none) us fun _ _ => True :=
  (resolve_decides hs hc name).first hs.sound fun _ _ _ hat _ _ => Lenient.last hat fun _ _ _ _ => trivial

/-- No variable is called as a receiver or a superclass is. -/
theorem readReserved_decides (hs : s.At us) (hc : s.Sees c) (hname : ¬ IsIdentifier name) :
    Decides (readNamed name s) True us fun _ _ => True :=
  (readNamed_decides hs hc name).congr
    ⟨fun _ => trivial, fun _ h => absurd (hc.identifier name h) hname⟩

end Builder

end LoxMachine
