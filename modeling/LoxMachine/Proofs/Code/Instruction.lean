import LoxMachine.Program.Body
import LoxMachine.Proofs.Machine.Action

/-!
# Instructions

A chunk read as instructions with their operands. `Chunk.instr?` decodes the instruction at an
offset together with the offset behind it, names and constants looked up in the pool, and jumps
given by their targets. `Instr.exec` says what a decoded instruction does.

Main statement: `step_eq_exec`, a machine step executes the instruction decoded at the instruction
pointer.
-/

namespace LoxMachine

namespace Opcode

/-- How many values an operation takes from the stack. -/
def takes : Opcode → Nat
  | .equal | .greater | .less | .add | .subtract | .multiply | .divide => 2
  | _ => 1

/-- How many values an operation leaves in their place. -/
def gives : Opcode → Nat
  | .print | .assert => 0
  | _ => 1

def IsOperator : Opcode → Prop
  | .equal | .greater | .less | .add | .subtract | .multiply | .divide | .not | .negate | .print
  | .assert => True
  | _ => False

end Opcode

/-- Constants of the source. -/
def Value.IsPlain : Value → Prop
  | .number _ | .boolean _ | .nil | .string _ => True
  | _ => False

inductive Instr where
  | push (v : Value)
  | pop
  | getLocal (slot : Nat) | setLocal (slot : Nat)
  | getGlobal (name : String) | defineGlobal (name : String) | setGlobal (name : String)
  | getUpvalue (index : Nat) | setUpvalue (index : Nat)
  | getProperty (name : String) | setProperty (name : String) | getSuper (name : String)
  /-- An operation on the top of the stack alone, without operands. -/
  | operator (op : Opcode)
  | jump (target : Nat) | jumpIfFalse (target : Nat) | loop (target : Nat)
  | call (count : Nat)
  | invoke (name : String) (count : Nat) | superInvoke (name : String) (count : Nat)
  | closure (f : Function) (captures : List Capture)
  | closeUpvalue
  | ret
  | makeClass (name : String) | inherit | method (name : String)
deriving DecidableEq, Repr

/-! ## Decoding -/

namespace Chunk

def operand? (c : Chunk) (offset : Nat) : Option Nat :=
  (c.byte? offset).map (·.toNat)

/-- The constant that the byte at an offset numbers. -/
def constantAt? (c : Chunk) (offset : Nat) : Option Value :=
  (c.byte? offset).bind c.constant?

def nameAt? (c : Chunk) (offset : Nat) : Option String :=
  match c.constantAt? offset with
  | some (.string s) => some s
  | _ => none

/-- The operands of a closure, two bytes for each capture: whether it is a local, and its number. -/
def captures? (c : Chunk) : (count offset : Nat) → Option (List Capture)
  | 0, _ => some []
  | n + 1, offset =>
    match c.byte? offset, c.byte? (offset + 1), captures? c n (offset + 2) with
    | some source, some index, some rest =>
      if source = 0 ∨ source = 1 then some (⟨index.toNat, source = 1⟩ :: rest) else none
    | _, _, _ => none

/-- The instruction that an operation at offset `p` makes with its operands, and the offset behind
it. -/
def decode (c : Chunk) (p : Nat) : Opcode → Option (Instr × Nat)
  | .constant => (c.constantAt? (p + 1)).map fun v => (.push v, p + 2)
  | .litNil => some (.push .nil, p + 1)
  | .litTrue => some (.push (.boolean true), p + 1)
  | .litFalse => some (.push (.boolean false), p + 1)
  | .pop => some (.pop, p + 1)
  | .getLocal => (c.operand? (p + 1)).map fun n => (.getLocal n, p + 2)
  | .setLocal => (c.operand? (p + 1)).map fun n => (.setLocal n, p + 2)
  | .getGlobal => (c.nameAt? (p + 1)).map fun s => (.getGlobal s, p + 2)
  | .defineGlobal => (c.nameAt? (p + 1)).map fun s => (.defineGlobal s, p + 2)
  | .setGlobal => (c.nameAt? (p + 1)).map fun s => (.setGlobal s, p + 2)
  | .getUpvalue => (c.operand? (p + 1)).map fun n => (.getUpvalue n, p + 2)
  | .setUpvalue => (c.operand? (p + 1)).map fun n => (.setUpvalue n, p + 2)
  | .getProperty => (c.nameAt? (p + 1)).map fun s => (.getProperty s, p + 2)
  | .setProperty => (c.nameAt? (p + 1)).map fun s => (.setProperty s, p + 2)
  | .getSuper => (c.nameAt? (p + 1)).map fun s => (.getSuper s, p + 2)
  | .jump => (c.pair? (p + 1)).map fun d => (.jump (p + 3 + d), p + 3)
  | .jumpIfFalse => (c.pair? (p + 1)).map fun d => (.jumpIfFalse (p + 3 + d), p + 3)
  | .loop =>
    match c.pair? (p + 1) with
    | some d => if d ≤ p + 3 then some (.loop (p + 3 - d), p + 3) else none
    | none => none
  | .call => (c.operand? (p + 1)).map fun n => (.call n, p + 2)
  | .invoke =>
    match c.nameAt? (p + 1), c.operand? (p + 2) with
    | some s, some n => some (.invoke s n, p + 3)
    | _, _ => none
  | .superInvoke =>
    match c.nameAt? (p + 1), c.operand? (p + 2) with
    | some s, some n => some (.superInvoke s n, p + 3)
    | _, _ => none
  | .closure =>
    match c.constantAt? (p + 1) with
    | some (.function f) =>
      (c.captures? f.captures (p + 2)).map fun cs => (.closure f cs, p + 2 + 2 * f.captures)
    | _ => none
  | .closeUpvalue => some (.closeUpvalue, p + 1)
  | .ret => some (.ret, p + 1)
  | .makeClass => (c.nameAt? (p + 1)).map fun s => (.makeClass s, p + 2)
  | .inherit => some (.inherit, p + 1)
  | .method => (c.nameAt? (p + 1)).map fun s => (.method s, p + 2)
  | op => some (.operator op, p + 1)

/-- The instruction at an offset, and the offset behind it. -/
def instr? (c : Chunk) (p : Nat) : Option (Instr × Nat) :=
  ((c.byte? p).bind Opcode.ofByte?).bind (c.decode p)

theorem captures?_succ {c : Chunk} {n offset : Nat} {cs : List Capture} :
    c.captures? (n + 1) offset = some cs ↔ ∃ source index rest,
      c.byte? offset = some source ∧ c.byte? (offset + 1) = some index ∧
      c.captures? n (offset + 2) = some rest ∧ (source = 0 ∨ source = 1) ∧
      cs = ⟨index.toNat, source = 1⟩ :: rest := by
  rw [captures?]
  constructor
  · intro h
    split at h
    · split at h
      · exact ⟨_, _, _, by assumption, by assumption, by assumption, by assumption,
          (Option.some.inj h).symm⟩
      · cases h
    · cases h
  · rintro ⟨source, index, rest, hsource, hindex, hrest, hbit, rfl⟩
    simp only [hsource, hindex, hrest, if_pos hbit]

theorem length_of_captures? {c : Chunk} {n offset : Nat} {cs : List Capture}
    (h : c.captures? n offset = some cs) : cs.length = n := by
  induction n generalizing offset cs with
  | zero => obtain rfl := Option.some.inj h; rfl
  | succ n ih =>
      obtain ⟨_, _, rest, -, -, hrest, -, rfl⟩ := captures?_succ.mp h
      rw [List.length_cons, ih hrest]

theorem lt_of_instr? {c : Chunk} {p q : Nat} {ins : Instr} (h : c.instr? p = some (ins, q)) :
    p < q := by
  obtain ⟨op, -, h⟩ := Option.bind_eq_some_iff.mp h
  cases op <;> simp only [decode] at h <;> (repeat' split at h) <;>
    simp only [Option.map_eq_some_iff, Option.some.injEq, Prod.mk.injEq, reduceCtorEq] at h <;>
    omega

theorem le_of_instr?_closure {c : Chunk} {p q : Nat} {g : Function} {cs : List Capture}
    (h : c.instr? p = some (.closure g cs, q)) : 2 * cs.length ≤ q := by
  obtain ⟨op, -, hd⟩ := Option.bind_eq_some_iff.mp h
  cases op with
  | closure =>
      simp only [decode] at hd
      split at hd
      · obtain ⟨cs', hcs, heq⟩ := Option.map_eq_some_iff.mp hd
        obtain ⟨hins, rfl⟩ := Prod.mk.inj heq
        obtain ⟨-, rfl⟩ := Instr.closure.inj hins
        have := length_of_captures? hcs
        omega
      · cases hd
  | invoke | superInvoke | loop =>
      simp only [decode] at hd
      repeat' split at hd
      all_goals cases hd
  | _ => simp [decode] at hd

theorem isOperator_of_instr? {c : Chunk} {p q : Nat} {op : Opcode}
    (h : c.instr? p = some (.operator op, q)) : op.IsOperator := by
  obtain ⟨op', -, hd⟩ := Option.bind_eq_some_iff.mp h
  cases op' with
  | closure | invoke | superInvoke | loop =>
      simp only [decode] at hd
      repeat' split at hd
      all_goals simp at hd
  | equal | greater | less | add | subtract | multiply | divide | not | negate | print | assert =>
      obtain ⟨heq, -⟩ := Prod.mk.inj (Option.some.inj hd)
      obtain rfl := Instr.operator.inj heq
      trivial
  | _ => simp [decode] at hd

/-! ## Extending -/

/-- `c'` has the bytes of `c` from `i` up to `j`, and its constants. -/
structure Agree (c c' : Chunk) (i j : Nat) : Prop where
  byte? : ∀ p, i ≤ p → p < j → c'.byte? p = c.byte? p
  constant? : ∀ (k : Nat) (v : Value), c.constants[k]? = some v → c'.constants[k]? = some v

section Agree

variable {c c' : Chunk} {i j : Nat} (h : Agree c c' i j)
include h

theorem Agree.mono {i' j' : Nat} (hi : i ≤ i') (hj : j' ≤ j) : Agree c c' i' j' :=
  ⟨fun p hp hp' => h.byte? p (by omega) (by omega), h.constant?⟩

theorem Agree.operand? {p n : Nat} (hp : i ≤ p) (hp' : p < j) (hn : c.operand? p = some n) :
    c'.operand? p = some n := by
  rw [Chunk.operand?, h.byte? p hp hp']
  exact hn

theorem Agree.pair? {p d : Nat} (hp : i ≤ p) (hp' : p + 1 < j) (hd : c.pair? p = some d) :
    c'.pair? p = some d := by
  rw [Chunk.pair?, h.byte? p hp (by omega), h.byte? (p + 1) (by omega) hp']
  exact hd

theorem Agree.constantAt? {p : Nat} {v : Value} (hp : i ≤ p) (hp' : p < j)
    (hv : c.constantAt? p = some v) : c'.constantAt? p = some v := by
  obtain ⟨b, hb, hc⟩ := Option.bind_eq_some_iff.mp hv
  rw [Chunk.constantAt?, h.byte? p hp hp', hb]
  exact h.constant? b.toNat v hc

theorem Agree.nameAt? {p : Nat} {s : String} (hp : i ≤ p) (hp' : p < j)
    (hs : c.nameAt? p = some s) : c'.nameAt? p = some s := by
  rw [Chunk.nameAt?] at hs
  split at hs
  · rename_i hv
    obtain rfl := Option.some.inj hs
    rw [Chunk.nameAt?, h.constantAt? hp hp' hv]
  · cases hs

theorem Agree.captures? {n p : Nat} {cs : List Capture} (hp : i ≤ p) (hp' : p + 2 * n ≤ j)
    (hcs : c.captures? n p = some cs) : c'.captures? n p = some cs := by
  induction n generalizing p cs with
  | zero => exact hcs
  | succ n ih =>
      obtain ⟨source, index, rest, hsource, hindex, hrest, hbit, rfl⟩ := captures?_succ.mp hcs
      refine captures?_succ.mpr ⟨source, index, rest, ?_, ?_, ih (by omega) (by omega) hrest, hbit, rfl⟩
      · rw [h.byte? p hp (by omega), hsource]
      · rw [h.byte? (p + 1) (by omega) (by omega), hindex]

/-- An instruction is the same in a chunk that agrees on its bytes. -/
theorem Agree.instr? {p q : Nat} {ins : Instr} (hp : i ≤ p) (hq : q ≤ j)
    (hins : c.instr? p = some (ins, q)) : c'.instr? p = some (ins, q) := by
  have hlt := lt_of_instr? hins
  obtain ⟨op, hop, hd⟩ := Option.bind_eq_some_iff.mp hins
  rw [Chunk.instr?, h.byte? p hp (by omega), hop]
  change c'.decode p op = some (ins, q)
  cases op with
  | constant =>
      obtain ⟨v, hv, heq⟩ := Option.map_eq_some_iff.mp hd
      obtain ⟨rfl, rfl⟩ := Prod.mk.inj heq
      simp only [decode, h.constantAt? (by omega) (by omega) hv, Option.map_some]
  | getLocal | setLocal | getUpvalue | setUpvalue | call =>
      obtain ⟨n, hn, heq⟩ := Option.map_eq_some_iff.mp hd
      obtain ⟨rfl, rfl⟩ := Prod.mk.inj heq
      simp only [decode, h.operand? (by omega) (by omega) hn, Option.map_some]
  | getGlobal | defineGlobal | setGlobal | getProperty | setProperty | getSuper | makeClass
  | method =>
      obtain ⟨s, hs, heq⟩ := Option.map_eq_some_iff.mp hd
      obtain ⟨rfl, rfl⟩ := Prod.mk.inj heq
      simp only [decode, h.nameAt? (by omega) (by omega) hs, Option.map_some]
  | jump | jumpIfFalse =>
      obtain ⟨d, hdist, heq⟩ := Option.map_eq_some_iff.mp hd
      obtain ⟨rfl, rfl⟩ := Prod.mk.inj heq
      simp only [decode, h.pair? (by omega) (by omega) hdist, Option.map_some]
  | loop =>
      simp only [decode] at hd ⊢
      split at hd
      · rename_i d hdist
        split at hd
        · rename_i hle
          obtain ⟨rfl, rfl⟩ := Prod.mk.inj (Option.some.inj hd)
          simp only [h.pair? (by omega) (by omega) hdist, if_pos hle]
        · cases hd
      · cases hd
  | invoke | superInvoke =>
      simp only [decode] at hd ⊢
      split at hd
      · rename_i s n hs hn
        obtain ⟨rfl, rfl⟩ := Prod.mk.inj (Option.some.inj hd)
        simp only [h.nameAt? (by omega) (by omega) hs, h.operand? (by omega) (by omega) hn]
      · cases hd
  | closure =>
      simp only [decode] at hd ⊢
      split at hd
      · rename_i f hf
        obtain ⟨cs, hcs, heq⟩ := Option.map_eq_some_iff.mp hd
        obtain ⟨rfl, rfl⟩ := Prod.mk.inj heq
        simp only [h.constantAt? (by omega) (by omega) hf,
          h.captures? (by omega) (by omega) hcs, Option.map_some]
      · cases hd
  | _ => exact hd

end Agree

end Chunk

/-! ## Executing -/

namespace Machine

/-- The cells that the captures at `offset` stand for in the running frame, behind those in
`cells`. -/
def captureAll : (offset : Nat) → List Capture → Array Nat → Action (Array Nat)
  | _, [], cells => pure cells
  | offset, ⟨index, fromLocal⟩ :: rest, cells => do
    moveTo (offset + 2)
    let f ← frame
    let cell ←
      if fromLocal then capture (f.base + index)
      else orViolate f.closure.cells[index]? (.invalidUpvalue index)
    captureAll (offset + 2) rest (cells.push cell)

end Machine

open Machine in
/-- What an instruction does; `next` is the offset behind it. An instruction that checks its receiver
moves on only after the check. -/
def Instr.exec (next : Nat) : Instr → Action Unit
  | .push v => do moveTo next; Machine.push v
  | .pop => do moveTo next; let _ ← Machine.pop
  | .getLocal slot => do moveTo next; Machine.push (← readSlot ((← frame).base + slot))
  | .setLocal slot => do
    moveTo next
    let f ← frame
    writeSlot (f.base + slot) (← peek 0)
  | .getGlobal name => do moveTo next; Machine.getGlobal name
  | .defineGlobal name => do moveTo next; Machine.defineGlobal name
  | .setGlobal name => do moveTo next; Machine.setGlobal name
  | .getUpvalue index => do
    moveTo next
    let cell ← orViolate (← frame).closure.cells[index]? (.invalidUpvalue index)
    match (← get).store.cells[cell]? with
    | some (.closed v) => Machine.push v
    | some (.inSlot slot) => Machine.push (← readSlot slot)
    | none => violate (.invalidUpvalue cell)
  | .setUpvalue index => do
    moveTo next
    let cell ← orViolate (← frame).closure.cells[index]? (.invalidUpvalue index)
    let v ← peek 0
    match (← get).store.cells[cell]? with
    | some (.closed _) => changeStore (·.setCell cell v)
    | some (.inSlot slot) => writeSlot slot v
    | none => violate (.invalidUpvalue cell)
  | .getProperty name => do
    match ← peek 0 with
    | .object o =>
      moveTo next
      match (← get).store.field? o name with
      | some v =>
        let _ ← Machine.pop
        Machine.push v
      | none => bindMethod o.cls name
    | _ => fail .onlyInstancesHaveProperties
  | .setProperty name => do
    match ← peek 1 with
    | .object o =>
      moveTo next
      let v ← Machine.pop
      changeStore (·.setField o name v)
      let _ ← Machine.pop
      Machine.push v
    | _ => fail .onlyInstancesHaveFields
  | .getSuper name => do moveTo next; bindMethod (← popClass) name
  | .operator op => do moveTo next; execute op
  | .jump target => moveTo target
  | .jumpIfFalse target => do
    moveTo next
    if (← peek 0).isFalsey then moveTo target
  | .loop target => moveTo target
  | .call count => do moveTo next; callValue (← peek count) count
  | .invoke name count => do moveTo next; Machine.invoke name count
  | .superInvoke name count => do moveTo next; invokeFrom (← popClass) name count
  | .closure f captures => do
    let first := next - 2 * captures.length
    moveTo first
    let cells ← captureAll first captures #[]
    Machine.push (.closure (← make (·.newClosure f cells)))
  | .closeUpvalue => do moveTo next; Machine.closeUpvalue
  | .ret => do moveTo next; leave
  | .makeClass name => do moveTo next; Machine.push (.cls (← make (·.newClass name)))
  | .inherit => do moveTo next; Machine.inherit
  | .method name => do
    moveTo next
    match ← Machine.pop with
    | .closure c =>
      match ← peek 0 with
      | .cls cls => changeStore (·.setMethod cls name c)
      | _ => violate .invalidTypes
    | _ => violate .invalidTypes

/-! ## Steps -/

namespace Machine

section Operands

variable {m : Machine} {f : Frame} {fs : List Frame} (h : m.frames = f :: fs)
include h

theorem readConstant_goto {p : Nat} {v : Value}
    (hv : (m.store.chunk f.closure.function).constantAt? p = some v) :
    readConstant (m.goto p) = .ok v (m.goto (p + 1)) := by
  obtain ⟨b, hb, hc⟩ := Option.bind_eq_some_iff.mp hv
  simp [readConstant, readByte_goto h hb, frame_goto h, hc, orViolate]

theorem readName_goto {p : Nat} {s : String}
    (hs : (m.store.chunk f.closure.function).nameAt? p = some s) :
    readName (m.goto p) = .ok s (m.goto (p + 1)) := by
  rw [Chunk.nameAt?] at hs
  split at hs
  · rename_i hv
    obtain rfl := Option.some.inj hs
    simp [readName, readConstant_goto h hv]
  · cases hs

theorem readLocal_goto {p n : Nat}
    (hn : (m.store.chunk f.closure.function).operand? p = some n) :
    readLocal (m.goto p) = .ok (f.base + n) (m.goto (p + 1)) := by
  obtain ⟨b, hb, rfl⟩ := Option.map_eq_some_iff.mp hn
  simp [readLocal, readByte_goto h hb, frame_goto h]

end Operands

/-- Reading the captures of a closure byte by byte makes the cells of the decoded captures. -/
theorem readCaptures_goto {n p : Nat} {cs : List Capture} {cells : Array Nat} {m : Machine}
    {f : Frame} {fs : List Frame} (h : m.frames = f :: fs)
    (hcs : (m.store.chunk f.closure.function).captures? n p = some cs) :
    readCaptures n cells (m.goto p) = captureAll p cs cells (m.goto p) := by
  induction n generalizing p cs cells m with
  | zero => obtain rfl := Option.some.inj hcs; rfl
  | succ n ih =>
      obtain ⟨source, index, rest, hsource, hindex, hrest, -, rfl⟩ := Chunk.captures?_succ.mp hcs
      simp only [readCaptures, captureAll, bind_apply, readByte_goto h hsource,
        readByte_goto h hindex, moveTo_goto h, frame_goto h, ite_apply, decide_eq_true_eq]
      split
      · have hframes := (frames_captured m (f.base + index.toNat)).trans h
        have hchunk : (m.captured (f.base + index.toNat)).2.store.chunk f.closure.function =
            m.store.chunk f.closure.function := by
          rw [Store.chunk, Store.chunk, chunks_captured]
        rw [capture_apply, captured_goto]
        exact ih hframes (hchunk ▸ hrest)
      · cases hcell : f.closure.cells[index.toNat]? with
        | none => rfl
        | some cell =>
            simp only [orViolate_apply]
            exact ih h hrest

/-- A step executes the instruction decoded at the instruction pointer, its first byte read. -/
theorem step_eq_exec {m : Machine} {f : Frame} {fs : List Frame} (h : m.frames = f :: fs)
    {ins : Instr} {next : Nat}
    (hi : (m.store.chunk f.closure.function).instr? f.ip = some (ins, next)) :
    step m = ins.exec next (m.goto (f.ip + 1)) := by
  have h0 : m = m.goto f.ip := by
    simp only [goto, h, List.modifyHead_cons]
    rw [← h]
  obtain ⟨op, hop, hi⟩ := Option.bind_eq_some_iff.mp hi
  obtain ⟨b, hb, hop⟩ := Option.bind_eq_some_iff.mp hop
  have hstep : step m = execute op (m.goto (f.ip + 1)) := by
    rw [congrArg step h0]
    simp only [step, bind_apply, readByte_goto h hb, hop]
  rw [hstep]
  cases op with
  | constant =>
      obtain ⟨v, hv, heq⟩ := Option.map_eq_some_iff.mp hi
      obtain ⟨rfl, rfl⟩ := Prod.mk.inj heq
      simp [execute, Instr.exec, readConstant_goto h hv, moveTo_goto h]
  | litNil | litTrue | litFalse | pop | closeUpvalue | ret | inherit =>
      obtain ⟨rfl, rfl⟩ := Prod.mk.inj (Option.some.inj hi)
      simp [execute, Instr.exec, moveTo_goto h]
  | equal | greater | less | add | subtract | multiply | divide | not | negate | print | assert =>
      obtain ⟨rfl, rfl⟩ := Prod.mk.inj (Option.some.inj hi)
      simp [Instr.exec, moveTo_goto h]
  | getLocal | setLocal =>
      obtain ⟨n, hn, heq⟩ := Option.map_eq_some_iff.mp hi
      obtain ⟨rfl, rfl⟩ := Prod.mk.inj heq
      simp [execute, Instr.exec, readLocal_goto h hn, moveTo_goto h, frame_goto h]
  | call =>
      obtain ⟨n, hn, heq⟩ := Option.map_eq_some_iff.mp hi
      obtain ⟨rfl, rfl⟩ := Prod.mk.inj heq
      obtain ⟨b, hb, rfl⟩ := Option.map_eq_some_iff.mp hn
      simp only [execute, Instr.exec, bind_apply, readByte_goto h hb, moveTo_goto h]
  | getUpvalue | setUpvalue =>
      obtain ⟨n, hn, heq⟩ := Option.map_eq_some_iff.mp hi
      obtain ⟨rfl, rfl⟩ := Prod.mk.inj heq
      obtain ⟨b, hb, rfl⟩ := Option.map_eq_some_iff.mp hn
      have hread : readCell (m.goto (f.ip + 1)) =
          orViolate f.closure.cells[b.toNat]? (.invalidUpvalue b.toNat) (m.goto (f.ip + 2)) :=
        (bind_of_ok (readByte_goto h hb)).trans ((bind_of_ok (frame_goto h _)).trans rfl)
      refine (bind_congr_apply hread).trans (Eq.symm ?_)
      exact (bind_of_ok (moveTo_goto h _ _)).trans ((bind_of_ok (frame_goto h _)).trans rfl)
  | getGlobal | defineGlobal | setGlobal | getSuper | makeClass =>
      obtain ⟨s, hs, heq⟩ := Option.map_eq_some_iff.mp hi
      obtain ⟨rfl, rfl⟩ := Prod.mk.inj heq
      simp only [execute, Instr.exec, bind_apply, readName_goto h hs, moveTo_goto h]
  | method =>
      obtain ⟨s, hs, heq⟩ := Option.map_eq_some_iff.mp hi
      obtain ⟨rfl, rfl⟩ := Prod.mk.inj heq
      refine (bind_of_ok (readName_goto h hs)).trans (Eq.symm ?_)
      exact (bind_of_ok (moveTo_goto h _ _)).trans rfl
  | getProperty | setProperty =>
      obtain ⟨s, hs, heq⟩ := Option.map_eq_some_iff.mp hi
      obtain ⟨rfl, rfl⟩ := Prod.mk.inj heq
      refine peek_bind_congr fun v => ?_
      cases v with
      | object o =>
          refine (bind_of_ok (readName_goto h hs)).trans (Eq.symm ?_)
          exact (bind_of_ok (moveTo_goto h _ _)).trans rfl
      | _ => rfl
  | jump =>
      obtain ⟨d, hd, heq⟩ := Option.map_eq_some_iff.mp hi
      obtain ⟨rfl, rfl⟩ := Prod.mk.inj heq
      simp only [execute, Instr.exec, Machine.jump, bind_apply, readDistance_goto h hd,
        moveTo_goto h, frame_goto h]
  | jumpIfFalse =>
      obtain ⟨d, hd, heq⟩ := Option.map_eq_some_iff.mp hi
      obtain ⟨rfl, rfl⟩ := Prod.mk.inj heq
      simp only [execute, Instr.exec, Machine.jumpIfFalse, bind_apply, readDistance_goto h hd,
        moveTo_goto h, peek_apply]
      cases fromTop? (m.goto (f.ip + 3)) 0 <;> simp [frame_goto h, moveTo_goto h]
  | loop =>
      simp only [Chunk.decode] at hi
      split at hi
      · rename_i d hd
        split at hi
        · rename_i hle
          obtain ⟨rfl, rfl⟩ := Prod.mk.inj (Option.some.inj hi)
          simp [execute, Instr.exec, Machine.loop, readDistance_goto h hd, moveTo_goto h,
            frame_goto h, hle]
        · cases hi
      · cases hi
  | invoke | superInvoke =>
      simp only [Chunk.decode] at hi
      split at hi
      · rename_i s n hs hn
        obtain ⟨b, hb, rfl⟩ := Option.map_eq_some_iff.mp hn
        obtain ⟨rfl, rfl⟩ := Prod.mk.inj (Option.some.inj hi)
        simp [execute, Instr.exec, readName_goto h hs, readByte_goto h hb, moveTo_goto h]
      · cases hi
  | closure =>
      simp only [Chunk.decode] at hi
      split at hi
      · rename_i g hg
        obtain ⟨cs, hcs, heq⟩ := Option.map_eq_some_iff.mp hi
        obtain ⟨rfl, rfl⟩ := Prod.mk.inj heq
        simp only [execute, Instr.exec, makeClosure, bind_apply, readConstant_goto h hg,
          Chunk.length_of_captures? hcs, Nat.add_sub_cancel, moveTo_goto h,
          readCaptures_goto h hcs]
      · cases hi

end Machine

end LoxMachine
