import LoxMachine.Proofs.Code.Instruction
import LoxMachine.Proofs.Machine.Stack

/-!
# The history of classes

A run leaves no record of how its classes came about: tables of methods are filled in place, and
what a class inherits is copied into its own. A `Lineage` is that record. No instruction reads it;
`Lineage.next` keeps it up to date.
-/

namespace LoxMachine

structure Lineage where
  /-- The class from which a class inherits, by the number of the class. -/
  parent : Nat → Option Class
  /-- The methods in the body of a class, the last one first. -/
  own : Nat → List (String × Closure)
  /-- The class in whose body a closure was made, by the number of the closure. -/
  home : Nat → Option Class
  /-- The class whose body is being executed. -/
  current : Option Class

namespace Lineage

/-- Before there are any classes. -/
def start : Lineage :=
  ⟨fun _ => none, fun _ => [], fun _ => none, none⟩

/-- The class from which the class around a closure inherits. -/
def parentOf (ℓ : Lineage) (closure : Nat) : Option Class :=
  (ℓ.home closure).bind (ℓ.parent ·.id)

/-- Where closures that are made now belong: a function inside of a method belongs where that does. -/
def place (ℓ : Lineage) (m : Machine) : Option Class :=
  match ℓ.current with
  | some c => some c
  | none => m.frames.head?.bind (ℓ.home ·.closure.id)

/-- An entry of a numbered table is replaced. -/
def set {α : Type} (table : Nat → α) (i : Nat) (a : α) : Nat → α :=
  fun j => if j = i then a else table j

@[simp] theorem set_self {α : Type} (table : Nat → α) (i : Nat) (a : α) : set table i a i = a :=
  if_pos rfl

theorem set_ne {α : Type} (table : Nat → α) {i j : Nat} (a : α) (h : j ≠ i) :
    set table i a j = table j :=
  if_neg h

/-- The record after an instruction, which the machine `m` executes. -/
def after (ℓ : Lineage) (m : Machine) : Instr → Lineage
  | .makeClass name => { ℓ with current := some (m.store.newClass name).1 }
  | .inherit =>
    match m.values with
    | .cls c :: .cls p :: _ => { ℓ with parent := set ℓ.parent c.id (some p) }
    | _ => ℓ
  | .method name =>
    match m.values with
    | .closure g :: .cls c :: _ =>
      { ℓ with own := set ℓ.own c.id ((name, g) :: ℓ.own c.id) }
    | _ => ℓ
  | .closure _ _ => { ℓ with home := set ℓ.home m.store.nextId (ℓ.place m) }
  | .pop => { ℓ with current := none }
  | _ => ℓ

/-- The record after a step of the machine. -/
def next (ℓ : Lineage) (m : Machine) : Lineage :=
  match m.frames with
  | [] => ℓ
  | f :: _ =>
    match (m.store.chunk f.closure.function).instr? f.ip with
    | some (ins, _) => ℓ.after m ins
    | none => ℓ

theorem next_eq {ℓ : Lineage} {m : Machine} {f : Frame} {fs : List Frame} {ins : Instr} {q : Nat}
    (hframes : m.frames = f :: fs)
    (hi : (m.store.chunk f.closure.function).instr? f.ip = some (ins, q)) :
    ℓ.next m = ℓ.after m ins := by
  rw [next, hframes]
  dsimp only
  rw [hi]

end Lineage

end LoxMachine
