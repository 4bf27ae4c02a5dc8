import LoxMachine.Proofs.Code.Instruction
import LoxMachine.Proofs.Syntax.Tree
import LoxMachine.Proofs.Compile.Bodies

/-!
# Code laid out

How the code of a function is laid out for its syntax tree. `Loads` is about expressions: the code
between two offsets pushes their values. `Runs` is about statements and the functions in them: the
code between two offsets executes them and leaves the locals they declare on the stack. Locals are
listed with the marks they have when their scope ends.
-/

namespace LoxMachine

open Syntax

/-- The code of a function. -/
structure Layout where
  code : Chunk
  /-- The names of the variables it captures. -/
  captured : List String
  /-- Where it has them from. -/
  captures : List Capture
  kind : BodyKind
  /-- The functions around it where it begins, the nearest first. -/
  around : List Body.Enclosing

/-- What a name can stand for. -/
inductive Access where
  | local (slot : Nat)
  | captured (index : Nat)
  | global (name : String)

namespace Access

def get : Access → Instr
  | .local n => .getLocal n
  | .captured n => .getUpvalue n
  | .global name => .getGlobal name

def set : Access → Instr
  | .local n => .setLocal n
  | .captured n => .setUpvalue n
  | .global name => .setGlobal name

def IsGlobal : Access → Prop
  | .global _ => True
  | _ => False

end Access

namespace Layout

variable (F : Layout) (L : List Local)

/-- The instruction at `p`, up to `q`. -/
def At (p : Nat) (ins : Instr) (q : Nat) : Prop :=
  F.code.instr? p = some (ins, q)

/-- What a name stands for where the locals are `L`: the newest local of that name that has been
initialized, or such a local of the nearest function around that has one, or else a global. -/
inductive Finds (name : String) : Access → Prop where
  | local {n} : Body.slot? name L = some n → Finds name (.local n)
  | captured {n c} : Body.slot? name L = none → F.captured[n]? = some name →
      F.captures[n]? = some c → Body.Leads name F.around c → Finds name (.captured n)
  | global : Body.slot? name L = none → (∀ E ∈ F.around, Body.slot? name E.locals = none) →
      Finds name (.global name)

/-- Operations on the top of the stack, one behind the other. -/
def Operates : List Opcode → Nat → Nat → Prop
  | [], i, j => i = j
  | op :: ops, i, j => ∃ k, F.At i (.operator op) k ∧ Operates ops k j

/-- The end of a scope takes its locals off the stack, the newest first. -/
def Drops : List Local → Nat → Nat → Prop
  | [], i, j => i = j
  | l :: ls, i, j => ∃ k, F.At i (if l.captured then .closeUpvalue else .pop) k ∧ Drops ls k j

/-! ## Expressions -/

/-- The code from `i` to `j` pushes the values of some expressions, the first one first. -/
inductive Loads : List Expr → Nat → Nat → Prop where
  | nothing {i} : Loads [] i i
  | several {e e' es i k j} : Loads [e] i k → Loads (e' :: es) k j → Loads (e :: e' :: es) i j
  | number {n i j} : F.At i (.push (.number n)) j → Loads [.number n] i j
  | string {s i j} : F.At i (.push (.string s)) j → Loads [.string s] i j
  | nil {i j} : F.At i (.push .nil) j → Loads [.nil] i j
  | boolean {b i j} : F.At i (.push (.boolean b)) j → Loads [.boolean b] i j
  | grouping {e i j} : Loads [e] i j → Loads [.grouping e] i j
  | variable {name p i j} : IsIdentifier name → F.Finds L name p → F.At i p.get j →
      Loads [.variable name] i j
  | assign {name e p i k j} : IsIdentifier name → F.Finds L name p → Loads [e] i k →
      F.At k p.set j → Loads [.assign name e] i j
  | this {p i j} : F.Finds L "this" p → F.At i p.get j → Loads [.this] i j
  | super {name p q i k l j} : F.Finds L "this" p → F.At i p.get k → F.Finds L "super" q →
      ¬ q.IsGlobal → F.At k q.get l → F.At l (.getSuper name) j → Loads [.super name] i j
  | unary {op e i k j} : Loads [e] i k → F.At k (.operator (UnaryOp.code op)) j →
      Loads [.unary op e] i j
  | binary {op a b i k l j} : Loads [a] i k → Loads [b] k l →
      F.Operates (Expression.operations (BinaryOp.kind op)) l j → Loads [.binary op a b] i j
  | and {a b i k k' l j} : Loads [a] i k → F.At k (.jumpIfFalse j) k' → F.At k' .pop l →
      Loads [b] l j → Loads [.and a b] i j
  | or {a b i k k' l l' j} : Loads [a] i k → F.At k (.jumpIfFalse l) k' → F.At k' (.jump j) l →
      F.At l .pop l' → Loads [b] l' j → Loads [.or a b] i j
  | get {o name i k j} : Loads [o] i k → F.At k (.getProperty name) j → Loads [.get o name] i j
  | set {o name e i k l j} : Loads [o] i k → Loads [e] k l → F.At l (.setProperty name) j →
      Loads [.set o name e] i j
  | call {f as i k l j} : f.isProperty = false → Loads [f] i k → Loads as k l →
      F.At l (.call as.length) j → Loads [.call f as] i j
  | invoke {o name as i k l j} : Loads [o] i k → Loads as k l →
      F.At l (.invoke name as.length) j → Loads [.call (.get o name) as] i j
  | superInvoke {name as p q i k l m j} : F.Finds L "this" p → F.At i p.get k → Loads as k l →
      F.Finds L "super" q → ¬ q.IsGlobal → F.At l q.get m →
      F.At m (.superInvoke name as.length) j → Loads [.call (.super name) as] i j

/-! ## Statements -/

/-- The condition of a loop, with its jump to `exit`. -/
inductive LoopTest (exit : Nat) : Option Expr → Nat → Nat → Prop where
  | none {i} : LoopTest exit none i i
  | some {c i k k' j} : F.Loads L [c] i k → F.At k (.jumpIfFalse exit) k' → F.At k' .pop j →
      LoopTest exit (some c) i j

/-- The step of a loop, jumped over on the way to the body at `j`; the body goes on at `next`. -/
inductive LoopStep (start : Nat) : Option Expr → (i j next : Nat) → Prop where
  | none {i} : LoopStep start none i i start
  | some {e i next k k' j} : F.At i (.jump j) next → F.Loads L [e] next k → F.At k .pop k' →
      F.At k' (.loop start) j → LoopStep start (some e) i j next

/-- A value left over from the condition is dropped behind the loop. -/
def LoopEnd : Option Expr → Nat → Nat → Prop
  | none, i, j => i = j
  | some _, i, j => F.At i .pop j

/-- The answer of a function that says nothing else. -/
def implicitResult : BodyKind → Instr
  | .initializer => .getLocal 0
  | _ => .push .nil

end Layout

/-- What the code of a function consists of. -/
inductive Part where
  | code (ss : List Stmt)
  | closure (f : Fun Stmt) (kind : BodyKind)
  | methods (fs : List (Fun Stmt))

namespace Layout

/-- A capture leads to the variable of that name in the function around it. -/
def Captures (F : Layout) (L : List Local) (c : Capture) (name : String) : Prop :=
  if c.fromLocal then ∃ l, Body.localAt? L c.index = some l ∧ l.name = name ∧ l.captured = true
  else F.captured[c.index]? = some name

/-- How the variable declared last in a scope is read. -/
def ownAccess (depth : Nat) (L : List Local) (name : String) : Access :=
  if depth = 0 then .global name else .local L.length

/-- Outside of all scopes a variable is global, elsewhere it is the newest local. -/
inductive Declares (F : Layout) (depth : Nat) (L : List Local) (name : String) :
    Nat → Nat → List Local → Prop where
  | global {i j} : depth = 0 → F.At i (.defineGlobal name) j → Declares F depth L name i j L
  | local {i captured} : depth ≠ 0 →
      Declares F depth L name i i (⟨name, some depth, captured⟩ :: L)

/-- The locals at the start of a function. -/
inductive Parameters (kind : BodyKind) : List String → List Local → Prop where
  | nil {captured} : Parameters kind [] [⟨Body.receiverName kind, some 0, captured⟩]
  | snoc {names name captured L} : IsIdentifier name → Parameters kind names L →
      Parameters kind (names ++ [name]) (⟨name, some 1, captured⟩ :: L)

theorem Parameters.length_eq {kind : BodyKind} {names : List String} {L : List Local}
    (h : Parameters kind names L) : L.length = names.length + 1 := by
  induction h with
  | nil => rfl
  | snoc _ _ ih => rw [List.length_cons, List.length_append, ih, List.length_singleton]

/-- The code from `i` to `j` executes a part of a function inside `depth` scopes, from the locals
`L` to the locals `L'`. The functions inside are among `routines`. -/
inductive Runs (routines : Array Routine) :
    (F : Layout) → (depth : Nat) → (L : List Local) → Part → (i j : Nat) → (L' : List Local) → Prop
    where
  | nothing {F d L i} : Runs routines F d L (.code []) i i L
  | several {F d L s s' ss i k j L₁ L'} : Runs routines F d L (.code [s]) i k L₁ →
      Runs routines F d L₁ (.code (s' :: ss)) k j L' → Runs routines F d L (.code (s :: s' :: ss)) i j L'
  | expression {F d L e i k j} : F.Loads L [e] i k → F.At k .pop j →
      Runs routines F d L (.code [.expression e]) i j L
  | print {F d L e i k j} : F.Loads L [e] i k → F.At k (.operator .print) j →
      Runs routines F d L (.code [.print e]) i j L
  | assert {F d L e i k j} : F.Loads L [e] i k → F.At k (.operator .assert) j →
      Runs routines F d L (.code [.assert e]) i j L
  | var {F d L name i k j L'} : IsIdentifier name → F.At i (.push .nil) k →
      F.Declares d L name k j L' → Runs routines F d L (.code [.var name none]) i j L'
  | varGlobal {F d L name e i k j} : IsIdentifier name → d = 0 → F.Loads L [e] i k →
      F.At k (.defineGlobal name) j → Runs routines F d L (.code [.var name (some e)]) i j L
  | varLocal {F d L name captured e i j} : IsIdentifier name → d ≠ 0 →
      F.Loads (⟨name, none, captured⟩ :: L) [e] i j →
      Runs routines F d L (.code [.var name (some e)]) i j (⟨name, some d, captured⟩ :: L)
  | block {F d L ss new i k j} : Runs routines F (d + 1) L (.code ss) i k (new ++ L) →
      F.Drops new k j → Runs routines F d L (.code [.block ss]) i j L
  | cond {F d L c yes i k k' l m t j} : F.Loads L [c] i k → F.At k (.jumpIfFalse t) k' →
      F.At k' .pop l → Runs routines F d L (.code [yes]) l m L → F.At m (.jump j) t →
      F.At t .pop j → Runs routines F d L (.code [.cond c yes none]) i j L
  | condElse {F d L c yes no i k k' l m t n j} : F.Loads L [c] i k → F.At k (.jumpIfFalse t) k' →
      F.At k' .pop l → Runs routines F d L (.code [yes]) l m L → F.At m (.jump j) t →
      F.At t .pop n → Runs routines F d L (.code [no]) n j L →
      Runs routines F d L (.code [.cond c yes (some no)]) i j L
  | while {F d L c s i k k' l m t j} : F.Loads L [c] i k → F.At k (.jumpIfFalse t) k' →
      F.At k' .pop l → Runs routines F d L (.code [s]) l m L → F.At m (.loop i) t →
      F.At t .pop j → Runs routines F d L (.code [.while c s]) i j L
  | for {F d L first c step s new i a b l next m exit p j} :
      Runs routines F (d + 1) L (.code first.toList) i a (new ++ L) →
      F.LoopTest (new ++ L) exit c a b → F.LoopStep (new ++ L) a step b l next →
      Runs routines F (d + 1) (new ++ L) (.code [s]) l m (new ++ L) → F.At m (.loop next) exit →
      F.LoopEnd c exit p → F.Drops new p j → Runs routines F d L (.code [.for first c step s]) i j L
  | return {F d L i k j} : F.kind ≠ .script → F.At i (implicitResult F.kind) k → F.At k .ret j →
      Runs routines F d L (.code [.return none]) i j L
  | returnValue {F d L e i k j} : F.kind ≠ .script → F.Loads L [e] i k → F.At k .ret j →
      Runs routines F d L (.code [.return (some e)]) i j L
  | functionGlobal {F d L f i k j} : IsIdentifier f.name → d = 0 →
      Runs routines F d L (.closure f .function) i k L → F.At k (.defineGlobal f.name) j →
      Runs routines F d L (.code [.function f]) i j L
  | functionLocal {F d L captured f i j} : IsIdentifier f.name → d ≠ 0 →
      Runs routines F d (⟨f.name, some d, captured⟩ :: L) (.closure f .function) i j
        (⟨f.name, some d, captured⟩ :: L) →
      Runs routines F d L (.code [.function f]) i j (⟨f.name, some d, captured⟩ :: L)
  | cls {F d L name fs i k l m n j L'} : IsIdentifier name → F.At i (.makeClass name) k →
      F.Declares d L name k l L' → F.At l (ownAccess d L name).get m →
      Runs routines F d L' (.methods fs) m n L' → F.At n .pop j →
      Runs routines F d L (.code [.cls name none fs]) i j L'
  | subclass {F d L name parent captured fs p i k l a b c m n o j L'} : IsIdentifier name →
      F.At i (.makeClass name) k → F.Declares d L name k l L' → IsIdentifier parent →
      F.Finds L' parent p → F.At l p.get a → F.At a (ownAccess d L name).get b →
      F.At b .inherit c → F.At c (ownAccess d L name).get m →
      Runs routines F (d + 1) (⟨"super", some (d + 1), captured⟩ :: L') (.methods fs) m n
        (⟨"super", some (d + 1), captured⟩ :: L') →
      F.At n .pop o → F.Drops [⟨"super", some (d + 1), captured⟩] o j →
      Runs routines F d L (.code [.cls name (some parent) fs]) i j L'
  | noMethods {F d L i} : Runs routines F d L (.methods []) i i L
  | methods {F d L f fs i k l j} : Runs routines F d L (.closure f (methodKind f.name)) i k L →
      F.At k (.method f.name) l → Runs routines F d L (.methods fs) l j L →
      Runs routines F d L (.methods (f :: fs)) i j L
  | closure {F G d L f kind g L₀ L₁ i j k k'} : G.kind = kind →
      G.around = ⟨L, F.captures⟩ :: F.around → F.At i (.closure g G.captures) j →
      g.name = f.name → g.arity = f.parameters.length →
      List.Forall₂ (F.Captures L) G.captures G.captured →
      routines[g.index]? = some ⟨g, G.code, kind⟩ →
      Parameters kind f.parameters L₀ → Runs routines G 1 L₀ (.code f.body) 0 k L₁ →
      G.At k (implicitResult kind) k' → G.At k' .ret G.code.size →
      Runs routines F d L (.closure f kind) i j L

theorem Runs.cons {routines : Array Routine} {F : Layout} {d i k j : Nat} {L L₁ L' : List Local}
    {s : Stmt} {ss : List Stmt} (h : Runs routines F d L (.code [s]) i k L₁)
    (h' : Runs routines F d L₁ (.code ss) k j L') : Runs routines F d L (.code (s :: ss)) i j L' := by
  cases ss with
  | nil =>
      cases h'
      exact h
  | cons s' ss => exact .several h h'

theorem Declares.length_le {F : Layout} {d i j : Nat} {L L' : List Local} {name : String}
    (h : F.Declares d L name i j L') : L.length ≤ L'.length := by
  cases h with
  | global => exact Nat.le_refl _
  | «local» => exact Nat.le_succ _

theorem Runs.length_le {routines : Array Routine} {F : Layout} {d i j : Nat} {L L' : List Local}
    {part : Part} (h : Runs routines F d L part i j L') : L.length ≤ L'.length := by
  induction h with
  | several _ _ ih ih' => exact Nat.le_trans ih ih'
  | var _ _ hd | cls _ _ hd | subclass _ _ hd => exact hd.length_le
  | varLocal | functionLocal => exact Nat.le_succ _
  | _ => exact Nat.le_refl _

/-- The layout of a script. -/
def script (code : Chunk) : Layout :=
  ⟨code, [], [], .script, []⟩

/-- The code of a whole function: it executes some statements from its parameters on, and then
returns. -/
def Whole (routines : Array Routine) (F : Layout) (arity : Nat) : Prop :=
  ∃ d ss L₀ L₁ k k', L₀.length = arity + 1 ∧ Runs routines F d L₀ (.code ss) 0 k L₁ ∧
    F.At k (implicitResult F.kind) k' ∧ F.At k' .ret F.code.size

end Layout

/-- A compiled function that is laid out like the code of some function. -/
def Routine.LaidOut (routines : Array Routine) (r : Routine) : Prop :=
  ∃ F : Layout, F.code = r.code ∧ F.captures.length = r.function.captures ∧
    F.captured.length = r.function.captures ∧ F.Whole routines r.function.arity

end LoxMachine
