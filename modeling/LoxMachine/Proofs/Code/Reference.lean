import LoxMachine.Proofs.Syntax.Tree

/-!
# Code of a tree

The code of an expression by recursion on its tree. Code refers to constants and variables by number, so
the code of an operand depends on the constants and captures that the operands before it have brought
about. Those are kept in the bodies, of which the code itself is not looked at.

There is no code where a limit is passed.
-/

namespace LoxMachine

/-! ## Bodies without their code -/

namespace Chunk

def bytes (c : Chunk) : List UInt8 :=
  c.code.toList.map (·.1)

def bare (c : Chunk) : Chunk :=
  { c with code := #[] }

theorem length_bytes (c : Chunk) : c.bytes.length = c.size := by
  rw [bytes, List.length_map, Array.length_toList]
  rfl

theorem bytes_write (c : Chunk) (byte : UInt8) (line : Nat) :
    (c.write byte line).bytes = c.bytes ++ [byte] := by
  rw [bytes, write, Array.toList_push, List.map_append]
  rfl

theorem bytes_setByte (c : Chunk) (offset : Nat) (byte : UInt8) :
    (c.setByte offset byte).bytes = c.bytes.set offset byte := by
  refine List.ext_getElem? fun i => ?_
  simp only [bytes, setByte, List.getElem?_map, Array.getElem?_toList, Array.getElem?_modify,
    List.getElem?_set, List.length_map, Array.length_toList]
  split
  · subst offset
    split
    · rename_i hlt
      rw [Array.getElem?_eq_getElem hlt]
      rfl
    · rename_i hle
      rw [Array.getElem?_eq_none (Nat.le_of_not_lt hle)]
      rfl
  · rfl

/-- The distance of a jump is filled in if two bytes can hold it. -/
theorem bytes_patchJump {c : Chunk} {before after : List UInt8} {op high low : UInt8}
    (h : c.bytes = before ++ [op, high, low] ++ after) :
    if after.length ≤ maxDistance then
      (c.patchJump (before.length + 1)).2.bytes =
        before ++ [op, highByte after.length, lowByte after.length] ++ after
    else (c.patchJump (before.length + 1)).1 = false := by
  have hdistance : c.size - (before.length + 1) - 2 = after.length := by
    rw [← length_bytes, h, List.length_append, List.length_append]
    simp only [List.length_cons, List.length_nil]
    omega
  rw [patchJump, hdistance]
  split
  · rw [bytes_setByte, bytes_setByte, h, List.append_assoc, List.append_assoc,
      List.set_append_right _ _ (Nat.le_add_right ..), List.set_append_right _ _ (by omega), Nat.add_assoc,
      Nat.add_sub_cancel_left, Nat.add_sub_cancel_left]
    rfl
  · rfl

theorem addConstant_bare (c : Chunk) (v : Value) :
    c.bare.addConstant v = ((c.addConstant v).1, (c.addConstant v).2.bare) := by
  have hconstants : c.bare.constants = c.constants := rfl
  rw [addConstant, addConstant, hconstants]
  cases c.constants.idxOf? v with
  | some i => rfl
  | none =>
      dsimp only
      split <;> rfl

theorem addConstant_of_none {c : Chunk} {v : Value} (h : (c.addConstant v).1 = none) :
    (c.addConstant v).2 = c := by
  rw [addConstant] at h ⊢
  cases hindex : c.constants.idxOf? v with
  | some i => rfl
  | none =>
      simp only [hindex] at h ⊢
      split at h
      · cases h
      · rename_i hfull
        rw [if_neg hfull]

end Chunk

namespace Body

def bare (b : Body) : Body :=
  { b with chunk := b.chunk.bare }

theorem addCapture_bare (b : Body) (c : Capture) :
    b.bare.addCapture c = ((b.addCapture c).1, (b.addCapture c).2.bare) := by
  have hcaptures : b.bare.captures = b.captures := rfl
  rw [addCapture, addCapture, hcaptures]
  cases b.captures.idxOf? c with
  | some i => rfl
  | none =>
      dsimp only
      split <;> rfl

theorem link_bare (b : Body) (c : Capture) :
    b.bare.link c = ((b.link c).1, (b.link c).2.bare) := by
  rw [link, link, addCapture_bare]
  rcases b.addCapture c with ⟨_ | i, b'⟩ <;> rfl

/-- Names are looked up without looking at the code. -/
theorem resolve_bare (name : String) (b : Body) (outer : List Body) :
    resolve name b.bare outer =
      ((resolve name b outer).1, (resolve name b outer).2.1.bare, (resolve name b outer).2.2) := by
  cases outer with
  | nil => rfl
  | cons parent outer =>
      rw [resolve, resolve]
      cases captureSlot? name parent.locals with
      | some found => simp only [link_bare]
      | none =>
          dsimp only
          rcases resolve name parent outer with ⟨_ | i | _, parent', outer'⟩ <;> simp only [link_bare]

end Body

/-! ## Generating -/

open Builder (Variable)

/-- Answers something for the body that code is made for and the bodies around it. -/
abbrev Generate := StateT (Body × List Body) Option

namespace Generate

/-- The number of a constant. -/
def constant (v : Value) : Generate Nat := fun (b, outer) =>
  match b.chunk.addConstant v with
  | (some i, chunk) => some (i, { b with chunk }, outer)
  | (none, _) => none

theorem constant_of_some {v : Value} {b : Body} {outer : List Body} {i : Nat}
    (h : (b.chunk.addConstant v).1 = some i) : constant v (b, outer) =
      some (i, { b with chunk := (b.chunk.addConstant v).2 }, outer) := by
  rw [constant, show b.chunk.addConstant v = (some i, (b.chunk.addConstant v).2) from Prod.ext h rfl]

/-- What a name stands for that no local variable has. -/
def outside (name : String) : Body.Resolution → Generate Variable
  | .found i => pure (.captured i)
  | .absent => do
    let k ← constant (.string name)
    return .global k
  | .full => failure

/-- What a name stands for. -/
def «variable» (name : String) : Generate Variable := fun (b, outer) =>
  match Body.slot? name b.locals with
  | some slot => some (.local slot, b, outer)
  | none => outside name (Body.resolve name b outer).1 (Body.resolve name b outer).2

theorem variable_of_slot {name : String} {b : Body} {outer : List Body} {slot : Nat}
    (h : Body.slot? name b.locals = some slot) :
    «variable» name (b, outer) = some (.local slot, b, outer) := by
  rw [«variable», h]

theorem variable_of_no_slot {name : String} {b : Body} {outer : List Body}
    (h : Body.slot? name b.locals = none) : «variable» name (b, outer) =
      outside name (Body.resolve name b outer).1 (Body.resolve name b outer).2 := by
  rw [«variable», h]

/-- A jump over as many bytes. -/
def jump (op : Opcode) (distance : Nat) : Generate (List UInt8) :=
  if distance ≤ Chunk.maxDistance then
    pure [op.toByte, Chunk.highByte distance, Chunk.lowByte distance]
  else failure

/-- A number that has to fit a byte. -/
def argumentCount (count : Nat) : Generate Nat :=
  if count ≤ Expression.maxArguments then pure count else failure

def operation (op : Opcode) (operand : Nat) : List UInt8 :=
  [op.toByte, operand.toUInt8]

def reading (name : String) : Generate (List UInt8) := do
  let v ← Generate.variable name
  return operation v.getOp v.operand

end Generate

namespace Syntax

open Generate

/-- The bytes of an operator. -/
def BinaryOp.bytes (op : BinaryOp) : List UInt8 :=
  if op.negated then [op.code.toByte, Opcode.not.toByte] else [op.code.toByte]

mutual

/-- Operands come in the order of the source, operators behind their operands. What `and` and `or` jump
over is their right operand and the removal of the left one; `or` gets there by jumping over the jump. -/
def Expr.code : Expr → Generate (List UInt8)
  | .number n => do
    let k ← constant (.number n)
    return operation .constant k
  | .string s => do
    let k ← constant (.string s)
    return operation .constant k
  | .nil => return [Opcode.litNil.toByte]
  | .boolean b => return [(if b then Opcode.litTrue else .litFalse).toByte]
  | .grouping e => e.code
  | .variable name => reading name
  | .assign name e => do
    let v ← Generate.variable name
    let x ← e.code
    return x ++ operation v.setOp v.operand
  | .this => reading "this"
  | .super name => do
    let k ← constant (.string name)
    let this ← reading "this"
    let superclass ← reading "super"
    return this ++ superclass ++ operation .getSuper k
  | .unary op e => do
    let x ← e.code
    return x ++ [op.code.toByte]
  | .binary op a b => do
    let x ← a.code
    let y ← b.code
    return x ++ y ++ op.bytes
  | .and a b => do
    let x ← a.code
    let y ← b.code
    let leap ← jump .jumpIfFalse (y.length + 1)
    return x ++ leap ++ Opcode.pop.toByte :: y
  | .or a b => do
    let x ← a.code
    let skip ← jump .jumpIfFalse 3
    let y ← b.code
    let leap ← jump .jump (y.length + 1)
    return x ++ skip ++ leap ++ Opcode.pop.toByte :: y
  | .get o name => do
    let x ← o.code
    let k ← constant (.string name)
    return x ++ operation .getProperty k
  | .set o name e => do
    let x ← o.code
    let k ← constant (.string name)
    let y ← e.code
    return x ++ y ++ operation .setProperty k
  | .call (.get o name) as => do
    let x ← o.code
    let k ← constant (.string name)
    let ys ← codeOfAll as
    let count ← argumentCount as.length
    return x ++ ys ++ operation .invoke k ++ [count.toUInt8]
  | .call (.super name) as => do
    let k ← constant (.string name)
    let this ← reading "this"
    let ys ← codeOfAll as
    let count ← argumentCount as.length
    let superclass ← reading "super"
    return this ++ ys ++ superclass ++ operation .superInvoke k ++ [count.toUInt8]
  | .call f as => do
    let x ← f.code
    let ys ← codeOfAll as
    let count ← argumentCount as.length
    return x ++ ys ++ operation .call count

def codeOfAll : List Expr → Generate (List UInt8)
  | [] => return []
  | e :: es => do
    let x ← e.code
    let ys ← codeOfAll es
    return x ++ ys

end

end Syntax

end LoxMachine
