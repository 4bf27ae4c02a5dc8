import LoxMachine.Machine.Run
import LoxMachine.Proofs.Syntax.Tree

/-!
# The evaluator

What a text without functions, classes and properties means. Expressions and statements are evaluated
along their trees, on a memory that has the globals and, block by block, the local variables. A loop goes
round a given number of times at most; what has come to an end by then does not depend on that number
(`Yields.unique`).
-/

namespace LoxMachine.Syntax

open Std (HashMap)

/-! ## The language without calls -/

/-- Whether an expression has no calls, no properties and no receivers. -/
def Expr.IsPlain : Expr → Prop
  | .number _ | .string _ | .nil | .boolean _ | .variable _ => True
  | .grouping e | .assign _ e | .unary _ e => e.IsPlain
  | .binary _ a b | .and a b | .or a b => a.IsPlain ∧ b.IsPlain
  | .this | .super _ | .get _ _ | .set _ _ _ | .call _ _ => False

def OptionIsPlain (e : Option Expr) : Prop :=
  ∀ a ∈ e, a.IsPlain

mutual

/-- Whether a statement has no functions and no classes, and its expressions are plain. -/
def Stmt.IsPlain : Stmt → Prop
  | .expression e | .print e | .assert e => e.IsPlain
  | .var _ value => OptionIsPlain value
  | .block body => AllPlain body
  | .cond test yes none => test.IsPlain ∧ yes.IsPlain
  | .cond test yes (some no) => test.IsPlain ∧ yes.IsPlain ∧ no.IsPlain
  | .while test body => test.IsPlain ∧ body.IsPlain
  | .for none test step body => OptionIsPlain test ∧ OptionIsPlain step ∧ body.IsPlain
  | .for (some first) test step body =>
    first.IsPlain ∧ OptionIsPlain test ∧ OptionIsPlain step ∧ body.IsPlain
  | .return _ | .function _ | .cls _ _ _ => False

def AllPlain : List Stmt → Prop
  | [] => True
  | s :: ss => s.IsPlain ∧ AllPlain ss

end

/-! ## Memories -/

/-- The variables of a block, the newest first. -/
abbrev Block := List (String × Value)

/-- The newest variable of that name gets another value. -/
def Block.assign (name : String) (v : Value) : Block → Block
  | [] => []
  | (x, w) :: b => if x = name then (x, v) :: b else (x, w) :: Block.assign name v b

/-- The innermost variable of that name gets another value, if there is one. -/
def assignIn (name : String) (v : Value) : List Block → Option (List Block)
  | [] => none
  | b :: bs =>
    if (b.lookup name).isSome then some (b.assign name v :: bs) else (assignIn name v bs).map (b :: ·)

structure Memory where
  globals : HashMap String Value
  /-- The open blocks, the innermost first. -/
  blocks : List Block
  output : String

namespace Memory

/-- The memory of a script before its first statement. -/
def start : Memory :=
  ⟨(Machine.new {}).globals, [], ""⟩

/-- The value of the innermost variable of that name. -/
def get? (M : Memory) (name : String) : Option Value :=
  (M.blocks.findSome? (·.lookup name)).or M.globals[name]?

def set? (M : Memory) (name : String) (v : Value) : Option Memory :=
  match assignIn name v M.blocks with
  | some blocks => some { M with blocks }
  | none =>
    if M.globals.contains name then some { M with globals := M.globals.insert name v } else none

/-- A new variable of the innermost block, or a global one outside of all blocks. -/
def declare (M : Memory) (name : String) (v : Value) : Memory :=
  match M.blocks with
  | [] => { M with globals := M.globals.insert name v }
  | b :: bs => { M with blocks := ((name, v) :: b) :: bs }

def printLine (M : Memory) (text : String) : Memory :=
  { M with output := M.output ++ text ++ "\n" }

/-- A block begins. -/
def enter (M : Memory) : Memory :=
  { M with blocks := [] :: M.blocks }

/-- The innermost block ends. -/
def leave (M : Memory) : Memory :=
  { M with blocks := M.blocks.tail }

end Memory

/-! ## Evaluations -/

/-- Why an evaluation stops early. -/
inductive Stop where
  | error (e : RuntimeError)
  /-- A loop has gone round too often. -/
  | exhausted
  /-- Functions and classes have no meaning here. -/
  | unsupported
deriving DecidableEq, Repr

abbrev Eval := EStateM Stop Memory

theorem get_bind_apply {α : Type} (f : Memory → Eval α) (M : Memory) : (get >>= f) M = f M M :=
  rfl

/-- The value of a variable, which there has to be. -/
def Memory.read (name : String) : Eval Value := do
  match (← get).get? name with
  | some v => return v
  | none => throw (.error (.undefinedVariable name))

theorem Memory.read_apply (name : String) (M : Memory) : Memory.read name M =
    match M.get? name with
    | some v => .ok v M
    | none => .error (.error (.undefinedVariable name)) M := by
  rw [Memory.read, get_bind_apply]
  cases M.get? name <;> rfl

/-- Gives a variable, which there has to be, another value. -/
def Memory.write (name : String) (v : Value) : Eval Unit := do
  match (← get).set? name v with
  | some M => set M
  | none => throw (.error (.undefinedVariable name))

theorem Memory.write_apply (name : String) (v : Value) (M : Memory) : Memory.write name v M =
    match M.set? name v with
    | some M' => .ok () M'
    | none => .error (.error (.undefinedVariable name)) M := by
  rw [Memory.write, get_bind_apply]
  cases M.set? name v <;> rfl

/-! ## Operators -/

/-- The operands of an operator of numbers. -/
def numbers (f : Number → Number → Value) : Value → Value → Except RuntimeError Value
  | .number a, .number b => .ok (f a b)
  | _, _ => .error .operandsMustBeNumbers

def UnaryOp.apply : UnaryOp → Value → Except RuntimeError Value
  | .not, v => .ok (.boolean v.isFalsey)
  | .negate, .number n => .ok (.number n.neg)
  | .negate, _ => .error .operandMustBeNumber

def BinaryOp.apply : BinaryOp → Value → Value → Except RuntimeError Value
  | .add, .string a, .string b => .ok (.string (a ++ b))
  | .add, a, b => numbers (fun a b => .number (a.add b)) a b
  | .subtract, a, b => numbers (fun a b => .number (a.sub b)) a b
  | .multiply, a, b => numbers (fun a b => .number (a.mul b)) a b
  | .divide, a, b => numbers (fun a b => .number (a.div b)) a b
  | .equal, a, b => .ok (.boolean (a.same b))
  | .notEqual, a, b => .ok (.boolean !(a.same b))
  | .less, a, b => numbers (fun a b => .boolean (a.lt b)) a b
  | .greaterEqual, a, b => numbers (fun a b => .boolean !(a.lt b)) a b
  | .greater, a, b => numbers (fun a b => .boolean (b.lt a)) a b
  | .lessEqual, a, b => numbers (fun a b => .boolean !(b.lt a)) a b

def ofExcept {α : Type} : Except RuntimeError α → Eval α
  | .ok a => pure a
  | .error e => throw (.error e)

/-! ## Expressions -/

/-- The value of an expression. Operands are evaluated from left to right; `and` and `or` give one of
their operands, and the right one only if the left one does not settle it. -/
def Expr.eval : Expr → Eval Value
  | .number n => pure (.number n)
  | .string s => pure (.string s)
  | .nil => pure .nil
  | .boolean b => pure (.boolean b)
  | .grouping e => e.eval
  | .variable name => Memory.read name
  | .assign name e => do
    let v ← e.eval
    Memory.write name v
    return v
  | .unary op e => do ofExcept (op.apply (← e.eval))
  | .binary op a b => do
    let x ← a.eval
    let y ← b.eval
    ofExcept (op.apply x y)
  | .and a b => do
    let v ← a.eval
    if v.isFalsey then return v else b.eval
  | .or a b => do
    let v ← a.eval
    if v.isFalsey then b.eval else return v
  | .this | .super _ | .get _ _ | .set _ _ _ | .call _ _ => throw .unsupported

/-- Whether a condition holds; one that is left out does. -/
def holds : Option Expr → Eval Bool
  | none => pure true
  | some e => return !(← e.eval).isFalsey

/-- The step of a loop, if it has one. -/
def perform : Option Expr → Eval Unit
  | none => pure ()
  | some e => do let _ ← e.eval

/-! ## Statements -/

def check : Value → Except RuntimeError Unit
  | .boolean true => .ok ()
  | .boolean false => .error .assertionFailed
  | _ => .error .assertionNotBoolean

/-- Goes round as long as the test holds. -/
def iterate (test : Eval Bool) (body : Eval Unit) : Nat → Eval Unit
  | 0 => throw .exhausted
  | n + 1 => do
    if ← test then
      body
      iterate test body n

/-- Evaluates in a block of its own. -/
def inBlock (x : Eval Unit) : Eval Unit := do
  modify Memory.enter
  x
  modify Memory.leave

mutual

/-- Executes a statement, each of its loops `fuel` times round at most. A variable is there when its
initializer has been evaluated. -/
def Stmt.exec (fuel : Nat) : Stmt → Eval Unit
  | .expression e => do let _ ← e.eval
  | .print e => do
    let v ← e.eval
    modify (·.printLine v.toString)
  | .assert e => do ofExcept (check (← e.eval))
  | .var name none => modify (·.declare name .nil)
  | .var name (some e) => do
    let v ← e.eval
    modify (·.declare name v)
  | .block body => inBlock (execAll fuel body)
  | .cond test yes none => do if ← holds test then yes.exec fuel
  | .cond test yes (some no) => do if ← holds test then yes.exec fuel else no.exec fuel
  | .while test body => iterate (holds test) (body.exec fuel) fuel
  | .for none test step body =>
    inBlock (iterate (holds test) (do body.exec fuel; perform step) fuel)
  | .for (some first) test step body =>
    inBlock do
      first.exec fuel
      iterate (holds test) (do body.exec fuel; perform step) fuel
  | .return _ | .function _ | .cls _ _ _ => throw .unsupported

def execAll (fuel : Nat) : List Stmt → Eval Unit
  | [] => pure ()
  | s :: ss => do
    s.exec fuel
    execAll fuel ss

end

/-! ## Scripts -/

/-- How a script ends and what it prints, unless a loop goes round more often than that. -/
def evaluate (fuel : Nat) (tree : List Stmt) : Option (Except RuntimeError Unit × String) :=
  match execAll fuel tree .start with
  | .ok _ M => some (.ok (), M.output)
  | .error (.error e) M => some (.error e, M.output)
  | .error _ _ => none

/-- The script prints `output` and ends with `r`. -/
def Yields (tree : List Stmt) (output : String) (r : Except RuntimeError Unit) : Prop :=
  ∃ fuel, evaluate fuel tree = some (r, output)

/-! ## The number of rounds -/

/-- Where `x` is not exhausted, `y` does the same. -/
def Settles {α : Type} (x y : Eval α) : Prop :=
  ∀ M, (∀ M', x M ≠ .error .exhausted M') → y M = x M

namespace Settles

variable {α β : Type} {x y : Eval α} {f g : α → Eval β}

theorem refl (x : Eval α) : Settles x x :=
  fun _ _ => rfl

theorem bind (h : Settles x y) (h' : ∀ a, Settles (f a) (g a)) : Settles (x >>= f) (y >>= g) := by
  intro M hM
  change ∀ M', EStateM.bind x f M ≠ .error .exhausted M' at hM
  change EStateM.bind y g M = EStateM.bind x f M
  have hx : ∀ M', x M ≠ .error .exhausted M' := by
    intro M' hx
    refine hM M' ?_
    rw [EStateM.bind, hx]
  rw [EStateM.bind] at hM ⊢
  rw [EStateM.bind, h M hx]
  cases hxM : x M with
  | error e M' => rfl
  | ok a M' =>
      rw [hxM] at hM
      exact h' a M' hM

theorem iterate {test : Eval Bool} {body body' : Eval Unit} (h : Settles body body') {n n' : Nat} (hn : n ≤ n') :
    Settles (Syntax.iterate test body n) (Syntax.iterate test body' n') := by
  induction n generalizing n' with
  | zero => exact fun M hM => absurd rfl (hM M)
  | succ n ih =>
      cases n' with
      | zero => exact absurd hn (Nat.not_succ_le_zero n)
      | succ n' =>
          refine bind (refl test) fun b => ?_
          cases b with
          | false => exact refl _
          | true => exact bind h fun _ => ih (Nat.le_of_succ_le_succ hn)

theorem inBlock {x y : Eval Unit} (h : Settles x y) : Settles (Syntax.inBlock x) (Syntax.inBlock y) :=
  bind (refl _) fun _ => bind h fun _ => refl _

end Settles

mutual

/-- More rounds change nothing for a statement that comes to its end. -/
theorem Stmt.exec_mono {fuel fuel' : Nat} (h : fuel ≤ fuel') :
    (s : Stmt) → Settles (s.exec fuel) (s.exec fuel')
  | .expression _ | .print _ | .assert _ | .var _ none | .var _ (some _) | .return _ | .function _
  | .cls _ _ _ => .refl _
  | .block body => .inBlock (execAll_mono h body)
  | .cond _ yes none => .bind (.refl _) fun
    | true => yes.exec_mono h
    | false => .refl _
  | .cond _ yes (some no) => .bind (.refl _) fun
    | true => yes.exec_mono h
    | false => no.exec_mono h
  | .while _ body => .iterate (body.exec_mono h) h
  | .for none _ _ body => .inBlock (.iterate (.bind (body.exec_mono h) fun _ => .refl _) h)
  | .for (some first) _ _ body =>
    .inBlock (.bind (first.exec_mono h) fun _ => .iterate (.bind (body.exec_mono h) fun _ => .refl _) h)

theorem execAll_mono {fuel fuel' : Nat} (h : fuel ≤ fuel') :
    (ss : List Stmt) → Settles (execAll fuel ss) (execAll fuel' ss)
  | [] => .refl _
  | s :: ss => .bind (s.exec_mono h) fun _ => execAll_mono h ss

end

theorem evaluate_mono {fuel fuel' : Nat} (h : fuel ≤ fuel') {tree : List Stmt}
    {x : Except RuntimeError Unit × String} (hx : evaluate fuel tree = some x) :
    evaluate fuel' tree = some x := by
  rw [evaluate] at hx ⊢
  rw [execAll_mono h tree .start]
  · exact hx
  · intro M hM
    rw [hM] at hx
    cases hx

/-- A script comes to one end only. -/
theorem Yields.unique {tree : List Stmt} {output output' : String} {r r' : Except RuntimeError Unit}
    (h : Yields tree output r) (h' : Yields tree output' r') : output = output' ∧ r = r' := by
  obtain ⟨fuel, h⟩ := h
  obtain ⟨fuel', h'⟩ := h'
  have h₁ := evaluate_mono (Nat.le_max_left fuel fuel') h
  have h₂ := evaluate_mono (Nat.le_max_right fuel fuel') h'
  cases h₁.symm.trans h₂
  exact ⟨rfl, rfl⟩

end LoxMachine.Syntax
