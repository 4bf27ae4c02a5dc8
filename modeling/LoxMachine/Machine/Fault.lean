/-!
# Faults

Why a run stops early. A script can do something wrong (`RuntimeError`); code that no compiler made
can also break the rules of the machine itself (`Violation`).
-/

namespace LoxMachine

/-- What a script did wrong. -/
inductive RuntimeError where
  | operandMustBeNumber
  | operandsMustBeNumbers
  | undefinedVariable (name : String)
  | undefinedProperty (name : String)
  | onlyInstancesHaveProperties
  | onlyInstancesHaveFields
  | onlyInstancesHaveMethods
  | superclassMustBeClass
  | arityMismatch (expected got : Nat)
  | notCallable
  | stackOverflow
  | assertionFailed
  | assertionNotBoolean
deriving DecidableEq, Repr

def RuntimeError.message : RuntimeError → String
  | .operandMustBeNumber => "Operand must be a number."
  | .operandsMustBeNumbers => "Operands must be numbers."
  | .undefinedVariable name => "Undefined variable '" ++ name ++ "'."
  | .undefinedProperty name => "Undefined property '" ++ name ++ "'."
  | .onlyInstancesHaveProperties => "Only instances have properties."
  | .onlyInstancesHaveFields => "Only instances have fields."
  | .onlyInstancesHaveMethods => "Only instances have methods."
  | .superclassMustBeClass => "Superclass must be a class."
  | .arityMismatch expected got =>
    "Expected " ++ toString expected ++ " arguments but got " ++ toString got ++ "."
  | .notCallable => "Can only call functions and classes."
  | .stackOverflow => "Stack overflow."
  | .assertionFailed => "Assertion failed."
  | .assertionNotBoolean => "Assertion operand must be a boolean."

/-- A rule of the machine that the code broke. -/
inductive Violation where
  | invalidOpcode (byte : UInt8)
  | invalidInstructionPointer (pointer : Nat)
  | invalidConstant (index : UInt8)
  | invalidUpvalue (index : Nat)
  | stackUnderflow
  | missingFrame
  | invalidTypes
deriving DecidableEq, Repr

def Violation.message : Violation → String
  | .invalidOpcode byte =>
    "invalid opcode? No discriminant in enum \x60Opcode\x60 matches the value \x60" ++
      toString byte ++ "\x60"
  | .invalidInstructionPointer pointer => "invalid instruction pointer " ++ toString pointer
  | .invalidConstant index => "invalid constant? " ++ toString index
  | .invalidUpvalue index => "invalid upvalue? " ++ toString index
  | .stackUnderflow => "stack underflow?"
  | .missingFrame => "no active call frame"
  | .invalidTypes => "invalid compile time types"

inductive Fault where
  | runtime (e : RuntimeError)
  | violation (v : Violation)
deriving DecidableEq, Repr

def Fault.message : Fault → String
  | .runtime e => e.message
  | .violation v => "Internal error: " ++ v.message

end LoxMachine
