import LoxMachine.Chunk.Basic

/-!
# Listings

The readable form of a chunk: one line for each instruction with its offset, its source line (a bar
if it is that of the byte before), its name and its operands. `instructionLength` says where the
next instruction starts; a byte that is no instruction counts as one of length one.
-/

namespace LoxMachine.Chunk

/-! ## Lengths -/

/-- What follows the code of an operation. -/
inductive Operands where
  | none
  /-- One byte that numbers a constant. -/
  | constant
  /-- One byte: a slot, a captured variable or a number of arguments. -/
  | byte
  /-- Two bytes: a distance. -/
  | distance (backwards : Bool)
  /-- A constant and a number of arguments. -/
  | invocation
  /-- A constant, which is a function, and two bytes for each variable it captures. -/
  | closure
deriving DecidableEq, Repr

def Operands.of : Opcode → Operands
  | .constant | .getGlobal | .defineGlobal | .setGlobal | .getProperty | .setProperty | .getSuper
  | .makeClass | .method => .constant
  | .getLocal | .setLocal | .getUpvalue | .setUpvalue | .call => .byte
  | .jump | .jumpIfFalse => .distance false
  | .loop => .distance true
  | .invoke | .superInvoke => .invocation
  | .closure => .closure
  | _ => .none

/-- How many variables the function among the constants that is numbered at `offset` captures. -/
def capturesAt (c : Chunk) (offset : Nat) : Nat :=
  match (c.byte? offset).bind c.constant? with
  | some (.function f) => f.captures
  | _ => 0

def instructionLength (c : Chunk) (offset : Nat) : Nat :=
  match (c.byte? offset).bind Opcode.ofByte? with
  | none => 1
  | some op =>
    match Operands.of op with
    | .none => 1
    | .constant | .byte => 2
    | .distance _ | .invocation => 3
    | .closure => 2 + 2 * c.capturesAt (offset + 1)

theorem instructionLength_pos (c : Chunk) (offset : Nat) : 0 < c.instructionLength offset := by
  unfold instructionLength
  repeat' split
  all_goals omega

/-! ## Numbers in listings -/

/-- At least `width` characters, filled up with zeros on the left. -/
def pad (width : Nat) (digits : List Char) : String :=
  String.ofList (List.replicate (width - digits.length) '0' ++ digits)

def hex (width n : Nat) : String :=
  "0x" ++ pad width (Nat.toDigits 16 n)

/-! ## One instruction -/

/-- The source line, or a bar if it is that of the byte before. -/
def lineMark (c : Chunk) (offset : Nat) : String :=
  match c.line? offset with
  | none => "????"
  | some line =>
    if 0 < offset ∧ c.line? (offset - 1) = some line then "   |"
    else pad 4 (Nat.toDigits 10 line)

/-- An operation and the constant numbered at `offset`. -/
def withConstant (c : Chunk) (op : Opcode) (offset : Nat) : String :=
  match c.byte? offset with
  | none => op.name ++ " (unknown)"
  | some index =>
    match c.constant? index with
    | some v => op.name ++ " " ++ toString index ++ " " ++ v.toString
    | none => op.name ++ " (index " ++ hex 2 index.toNat ++ " unknown)"

/-- The address to which the jump at `offset` leads. -/
def target? (backwards : Bool) (offset distance : Nat) : Option Nat :=
  if !backwards then some (offset + 3 + distance)
  else if distance ≤ offset + 3 then some (offset + 3 - distance)
  else none

/-- One captured variable of a closure. -/
def captureLine (c : Chunk) (offset : Nat) : String :=
  "\n       |   " ++
    match c.byte? offset, c.byte? (offset + 1) with
    | some source, some index =>
      (if source = 1 then "local" else "upvalue") ++ " " ++ toString index
    | _, _ => "(unknown)"

/-- An operation that stands at `offset`, with its operands. -/
def operation (c : Chunk) (op : Opcode) (offset : Nat) : String :=
  match Operands.of op with
  | .none => op.name
  | .constant => c.withConstant op (offset + 1)
  | .byte =>
    match c.byte? (offset + 1) with
    | some operand => op.name ++ " " ++ toString operand
    | none => op.name ++ " (unknown)"
  | .distance backwards =>
    match c.pair? (offset + 1) with
    | none => op.name ++ " (unknown)"
    | some distance =>
      op.name ++ " " ++ hex 4 offset ++ " -> " ++
        ((target? backwards offset distance).elim "(invalid)" (hex 4))
  | .invocation =>
    c.withConstant op (offset + 1) ++
      match c.byte? (offset + 2) with
      | some count => " (" ++ toString count ++ " args)"
      | none => " (unknown args)"
  | .closure =>
    c.withConstant op (offset + 1) ++
      String.join ((List.range (c.capturesAt (offset + 1))).map fun i =>
        c.captureLine (offset + 2 + 2 * i))

def instructionAt (c : Chunk) (offset : Nat) : String :=
  hex 4 offset ++ " " ++ c.lineMark offset ++ " " ++
    match c.byte? offset with
    | none => "(end of chunk)"
    | some byte =>
      match Opcode.ofByte? byte with
      | some op => c.operation op offset
      | none => "Unknown opcode " ++ hex 2 byte.toNat

/-! ## A whole chunk -/

/-- The instructions from `offset` on, each on a line of its own, behind `text`. -/
def instructionsFrom (c : Chunk) (offset : Nat) (text : String) : String :=
  if offset < c.size then
    c.instructionsFrom (offset + c.instructionLength offset)
      (text ++ c.instructionAt offset ++ "\n")
  else text
termination_by c.size - offset
decreasing_by
  have := c.instructionLength_pos offset
  omega

def listing (c : Chunk) (title : String) : String :=
  c.instructionsFrom 0 ("== " ++ title ++ " ==\n")

def constantLine (index : Nat) (v : Value) : String :=
  pad 4 (Nat.toDigits 10 index) ++ ": " ++ v.debug ++ "\n"

/-- The listing and the constants. -/
def debug (c : Chunk) : String :=
  c.listing "chunk" ++ "\nConstants:\n" ++
    String.join (c.constants.toList.mapIdx constantLine)

end LoxMachine.Chunk
