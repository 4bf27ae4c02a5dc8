/-!
# Operation codes

The instructions of the machine by name. Each is stored as one byte, its place in the list
`Opcode.all`; other bytes are no instruction.
-/

namespace LoxMachine

inductive Opcode where
  | constant | litNil | litTrue | litFalse | pop
  | getLocal | setLocal | getGlobal | defineGlobal | setGlobal | getUpvalue | setUpvalue
  | getProperty | setProperty | getSuper
  | equal | greater | less | add | subtract | multiply | divide | not | negate
  | print | assert | jump | jumpIfFalse | loop
  | call | invoke | superInvoke | closure | closeUpvalue | ret
  | makeClass | inherit | method
deriving DecidableEq, Repr, Inhabited

namespace Opcode

def all : Array Opcode :=
  #[.constant, .litNil, .litTrue, .litFalse, .pop,
    .getLocal, .setLocal, .getGlobal, .defineGlobal, .setGlobal, .getUpvalue, .setUpvalue,
    .getProperty, .setProperty, .getSuper,
    .equal, .greater, .less, .add, .subtract, .multiply, .divide, .not, .negate,
    .print, .assert, .jump, .jumpIfFalse, .loop,
    .call, .invoke, .superInvoke, .closure, .closeUpvalue, .ret,
    .makeClass, .inherit, .method]

def toByte (op : Opcode) : UInt8 :=
  op.ctorIdx.toUInt8

def ofByte? (b : UInt8) : Option Opcode :=
  all[b.toNat]?

theorem ofByte?_toByte (op : Opcode) : ofByte? op.toByte = some op := by
  cases op <;> rfl

/-- The name a listing shows. -/
def name : Opcode → String
  | .constant => "Constant"
  | .litNil => "Nil"
  | .litTrue => "True"
  | .litFalse => "False"
  | .pop => "Pop"
  | .getLocal => "GetLocal"
  | .setLocal => "SetLocal"
  | .getGlobal => "GetGlobal"
  | .defineGlobal => "DefineGlobal"
  | .setGlobal => "SetGlobal"
  | .getUpvalue => "GetUpvalue"
  | .setUpvalue => "SetUpvalue"
  | .getProperty => "GetProperty"
  | .setProperty => "SetProperty"
  | .getSuper => "GetSuper"
  | .equal => "Equal"
  | .greater => "Greater"
  | .less => "Less"
  | .add => "Add"
  | .subtract => "Subtract"
  | .multiply => "Multiply"
  | .divide => "Divide"
  | .not => "Not"
  | .negate => "Negate"
  | .print => "Print"
  | .assert => "Assert"
  | .jump => "Jump"
  | .jumpIfFalse => "JumpIfFalse"
  | .loop => "Loop"
  | .call => "Call"
  | .invoke => "Invoke"
  | .superInvoke => "SuperInvoke"
  | .closure => "Closure"
  | .closeUpvalue => "CloseUpvalue"
  | .ret => "Return"
  | .makeClass => "Class"
  | .inherit => "Inherit"
  | .method => "Method"

end Opcode

end LoxMachine
