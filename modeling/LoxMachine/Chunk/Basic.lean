import LoxMachine.Value
import LoxMachine.Opcode

/-!
# Chunks

A chunk is the code of one function: bytes, each with the line it was compiled from, and the
constants that the code refers to by one-byte indices. Identical constants share an index, so a
pool holds each value once and at most `maxConstants` of them.

A forward jump is written with a placeholder for its distance, which `patchJump` fills in when the
code it jumps over is there. Distances take two bytes, the high one first, and count from behind the
jump.
-/

namespace LoxMachine

structure Chunk where
  /-- The bytes, each with its line. -/
  code : Array (UInt8 × Nat) := #[]
  constants : Array Value := #[]
deriving DecidableEq, Repr, Inhabited

namespace Chunk

/-- As many constants as one byte can number. -/
def maxConstants : Nat := 256

/-- The greatest distance that two bytes hold. -/
def maxDistance : Nat := 65535

/-! ## Reading -/

def size (c : Chunk) : Nat :=
  c.code.size

def byte? (c : Chunk) (offset : Nat) : Option UInt8 :=
  c.code[offset]?.map (·.1)

def line? (c : Chunk) (offset : Nat) : Option Nat :=
  c.code[offset]?.map (·.2)

def constant? (c : Chunk) (index : UInt8) : Option Value :=
  c.constants[index.toNat]?

/-- Two bytes as one number. -/
def pair (high low : UInt8) : Nat :=
  high.toNat * 256 + low.toNat

def pair? (c : Chunk) (offset : Nat) : Option Nat := do
  let high ← c.byte? offset
  let low ← c.byte? (offset + 1)
  return pair high low

/-- The bytes from `offset` on, as many as `length` says. -/
def slice? (c : Chunk) (offset length : Nat) : Option (Array UInt8) :=
  if offset + length ≤ c.size then some ((c.code.extract offset (offset + length)).map (·.1))
  else none

/-! ## Writing -/

def write (c : Chunk) (byte : UInt8) (line : Nat) : Chunk :=
  { c with code := c.code.push (byte, line) }

def writeOp (c : Chunk) (op : Opcode) (line : Nat) : Chunk :=
  c.write op.toByte line

/-- The index of a constant identical to `v`, which is added if there is none. No index if it would
have to be added to a full pool. -/
def addConstant (c : Chunk) (v : Value) : Option Nat × Chunk :=
  match c.constants.idxOf? v with
  | some i => (some i, c)
  | none =>
    if c.constants.size < maxConstants then
      (some c.constants.size, { c with constants := c.constants.push v })
    else (none, c)

/-- The high and the low byte of a distance. -/
def highByte (n : Nat) : UInt8 := (n / 256).toUInt8

def lowByte (n : Nat) : UInt8 := (n % 256).toUInt8

/-- Writes a jump whose distance is still open, and gives the place of the distance. -/
def writeJump (c : Chunk) (op : Opcode) (line : Nat) : Nat × Chunk :=
  (c.size + 1, ((c.writeOp op line).write 0xFF line).write 0xFF line)

/-- Replaces a byte and keeps its line. -/
def setByte (c : Chunk) (offset : Nat) (byte : UInt8) : Chunk :=
  { c with code := c.code.modify offset fun (_, line) => (byte, line) }

/-- Lets the jump whose distance stands at `offset` lead to the end of the code and says whether it
is near enough; if not, nothing changes. -/
def patchJump (c : Chunk) (offset : Nat) : Bool × Chunk :=
  let distance := c.size - offset - 2
  if distance ≤ maxDistance then
    (true, (c.setByte offset (highByte distance)).setByte (offset + 1) (lowByte distance))
  else (false, c)

/-- Writes a jump back to `start` and says whether it is near enough; if not, the distance written
is the greatest there is. -/
def writeLoop (c : Chunk) (start : Nat) (line : Nat) : Bool × Chunk :=
  let distance := c.size + 3 - start
  let fits : Bool := distance ≤ maxDistance
  let written := if fits then distance else maxDistance
  (fits, ((c.writeOp .loop line).write (highByte written) line).write (lowByte written) line)

/-- A chunk from its bytes and constants; constants that find no room are left out. -/
def assemble (code : Array (UInt8 × Nat)) (constants : List Value) : Chunk :=
  constants.foldl (fun c v => (c.addConstant v).2) { code }

/-! ## What writing changes -/

@[simp] theorem size_write (c : Chunk) (byte : UInt8) (line : Nat) :
    (c.write byte line).size = c.size + 1 :=
  Array.size_push ..

@[simp] theorem constants_write (c : Chunk) (byte : UInt8) (line : Nat) :
    (c.write byte line).constants = c.constants := rfl

@[simp] theorem size_setByte (c : Chunk) (offset : Nat) (byte : UInt8) :
    (c.setByte offset byte).size = c.size :=
  Array.size_modify

@[simp] theorem constants_setByte (c : Chunk) (offset : Nat) (byte : UInt8) :
    (c.setByte offset byte).constants = c.constants := rfl

theorem byte?_setByte (c : Chunk) (offset i : Nat) (byte : UInt8) :
    (c.setByte offset byte).byte? i =
      if i = offset then (c.byte? i).map fun _ => byte else c.byte? i := by
  simp only [byte?, setByte, Array.getElem?_modify]
  by_cases h : i = offset
  · simp [h, Option.map_map, Function.comp_def]
  · simp [h, Ne.symm h]

/-- A byte that is replaced keeps its line. -/
@[simp] theorem line?_setByte (c : Chunk) (offset i : Nat) (byte : UInt8) :
    (c.setByte offset byte).line? i = c.line? i := by
  simp only [line?, setByte, Array.getElem?_modify]
  split <;> simp [Option.map_map, Function.comp_def]

/-- The two bytes of a distance give it back. -/
theorem pair_highByte_lowByte {n : Nat} (h : n ≤ maxDistance) :
    pair (highByte n) (lowByte n) = n := by
  simp only [maxDistance] at h
  simp only [pair, highByte, lowByte, Nat.toUInt8, UInt8.toNat_ofNat']
  omega

end Chunk

end LoxMachine
