import LoxMachine.Proofs.Code.Instruction
import LoxMachine.Proofs.Compile.Bodies

/-!
# Emitting instructions

The bytes of a chunk after writing to it, and the instructions they make. What is appended leaves
the code before it as it is; a jump that is patched changes nothing but its own distance.
-/

namespace LoxMachine.Chunk

variable {c c' : Chunk}

theorem byte?_write (c : Chunk) (b : UInt8) (line i : Nat) :
    (c.write b line).byte? i = if i = c.size then some b else c.byte? i := by
  rw [byte?, write, Array.getElem?_push]
  by_cases h : i = c.size
  · rw [if_pos h, if_pos (show i = c.code.size from h), Option.map_some]
  · rw [if_neg h, if_neg (show ¬ i = c.code.size from h), byte?]

theorem lt_size_of_byte? {i : Nat} {b : UInt8} (h : c.byte? i = some b) : i < c.size := by
  obtain ⟨x, hx, -⟩ := Option.map_eq_some_iff.mp h
  exact (Array.getElem?_eq_some_iff.mp hx).1

theorem byte?_isSome {i : Nat} (h : i < c.size) : ∃ b, c.byte? i = some b :=
  ⟨_, by rw [byte?, Array.getElem?_eq_getElem h, Option.map_some]⟩

theorem instr?_eq_decode {p : Nat} {op : Opcode} (h : c.byte? p = some op.toByte) :
    c.instr? p = c.decode p op := by
  rw [instr?, h, Option.bind_some, Opcode.ofByte?_toByte, Option.bind_some]

theorem lt_size_of_constantAt? {p : Nat} {v : Value} (h : c.constantAt? p = some v) :
    p < c.size := by
  obtain ⟨b, hb, -⟩ := Option.bind_eq_some_iff.mp h
  exact lt_size_of_byte? hb

theorem lt_size_of_nameAt? {p : Nat} {s : String} (h : c.nameAt? p = some s) : p < c.size := by
  rw [nameAt?] at h
  split at h
  · exact lt_size_of_constantAt? (by assumption)
  · cases h

theorem lt_size_of_operand? {p n : Nat} (h : c.operand? p = some n) : p < c.size := by
  obtain ⟨b, hb, -⟩ := Option.map_eq_some_iff.mp h
  exact lt_size_of_byte? hb

theorem lt_size_of_pair? {p d : Nat} (h : c.pair? p = some d) : p + 1 < c.size := by
  obtain ⟨_, _, h⟩ := Option.bind_eq_some_iff.mp h
  obtain ⟨_, h, _⟩ := Option.bind_eq_some_iff.mp h
  exact lt_size_of_byte? h

theorem le_size_of_captures? {n p : Nat} {cs : List Capture} (hp : p ≤ c.size)
    (h : c.captures? n p = some cs) : p + 2 * n ≤ c.size := by
  induction n generalizing p cs with
  | zero => exact hp
  | succ n ih =>
      obtain ⟨_, _, rest, -, hindex, hrest, -, -⟩ := captures?_succ.mp h
      have := ih (Nat.succ_le_of_lt (lt_size_of_byte? hindex)) hrest
      omega

/-- An instruction ends within the code. -/
theorem le_size_of_instr? {p q : Nat} {ins : Instr} (h : c.instr? p = some (ins, q)) :
    q ≤ c.size := by
  obtain ⟨op, hop, hd⟩ := Option.bind_eq_some_iff.mp h
  obtain ⟨b, hb, -⟩ := Option.bind_eq_some_iff.mp hop
  have hlt := lt_size_of_byte? hb
  cases op with
  | constant =>
      obtain ⟨_, hv, heq⟩ := Option.map_eq_some_iff.mp hd
      obtain ⟨-, rfl⟩ := Prod.mk.inj heq
      exact lt_size_of_constantAt? hv
  | getLocal | setLocal | getUpvalue | setUpvalue | call =>
      obtain ⟨_, hn, heq⟩ := Option.map_eq_some_iff.mp hd
      obtain ⟨-, rfl⟩ := Prod.mk.inj heq
      exact lt_size_of_operand? hn
  | getGlobal | defineGlobal | setGlobal | getProperty | setProperty | getSuper | makeClass
  | method =>
      obtain ⟨_, hs, heq⟩ := Option.map_eq_some_iff.mp hd
      obtain ⟨-, rfl⟩ := Prod.mk.inj heq
      exact lt_size_of_nameAt? hs
  | jump | jumpIfFalse =>
      obtain ⟨_, hdist, heq⟩ := Option.map_eq_some_iff.mp hd
      obtain ⟨-, rfl⟩ := Prod.mk.inj heq
      exact lt_size_of_pair? hdist
  | loop =>
      simp only [decode] at hd
      split at hd
      · rename_i hdist
        split at hd
        · obtain ⟨-, rfl⟩ := Prod.mk.inj (Option.some.inj hd)
          exact lt_size_of_pair? hdist
        · cases hd
      · cases hd
  | invoke | superInvoke =>
      simp only [decode] at hd
      split at hd
      · rename_i hn
        obtain ⟨-, rfl⟩ := Prod.mk.inj (Option.some.inj hd)
        exact lt_size_of_operand? hn
      · cases hd
  | closure =>
      simp only [decode] at hd
      split at hd
      · rename_i hf
        obtain ⟨_, hcs, heq⟩ := Option.map_eq_some_iff.mp hd
        obtain ⟨-, rfl⟩ := Prod.mk.inj heq
        exact le_size_of_captures? (lt_size_of_constantAt? hf) hcs
      · cases hd
  | _ =>
      obtain ⟨-, rfl⟩ := Prod.mk.inj (Option.some.inj hd)
      exact hlt

/-! ## Agreement -/

theorem Agree.refl (c : Chunk) (i j : Nat) : Agree c c i j :=
  ⟨fun _ _ _ => rfl, fun _ _ => id⟩

theorem Agree.trans {c'' : Chunk} {i j : Nat} (h : Agree c c' i j) (h' : Agree c' c'' i j) :
    Agree c c'' i j :=
  ⟨fun p hp hp' => (h'.byte? p hp hp').trans (h.byte? p hp hp'),
    fun k v hv => h'.constant? k v (h.constant? k v hv)⟩

theorem agree_write (c : Chunk) (b : UInt8) (line i : Nat) : Agree c (c.write b line) i c.size :=
  ⟨fun p _ hp => by rw [byte?_write, if_neg (Nat.ne_of_lt hp)], fun _ _ => id⟩

theorem code_addConstant (c : Chunk) (v : Value) : (c.addConstant v).2.code = c.code := by
  rw [addConstant]
  repeat' split
  all_goals rfl

theorem agree_addConstant (c : Chunk) (v : Value) (i : Nat) :
    Agree c (c.addConstant v).2 i c.size := by
  refine ⟨fun p _ _ => by rw [byte?, code_addConstant]; rfl, fun k w hw => ?_⟩
  rw [addConstant]
  repeat' split
  · exact hw
  · have hlt := (Array.getElem?_eq_some_iff.mp hw).1
    simp only [Array.getElem?_push, if_neg (Nat.ne_of_lt hlt)]
    exact hw
  · exact hw

/-- An index that was found for a constant leads to it. -/
theorem constants_addConstant {v : Value} {index : Nat} (h : c.addConstant v = (some index, c')) :
    c'.constants[index]? = some v := by
  rw [addConstant] at h
  split at h
  · rename_i hi
    obtain ⟨hindex, rfl⟩ := Prod.mk.inj h
    obtain rfl := Option.some.inj hindex
    exact Body.getElem?_of_idxOf? hi
  · split at h
    · obtain ⟨hindex, rfl⟩ := Prod.mk.inj h
      obtain rfl := Option.some.inj hindex
      exact Array.getElem?_push_size
    · cases (Prod.mk.inj h).1

theorem mem_constants_addConstant {v w : Value} (h : w ∈ (c.addConstant v).2.constants) :
    w ∈ c.constants ∨ w = v := by
  rw [addConstant] at h
  split at h
  · exact .inl h
  · split at h
    · exact Array.mem_push.mp h
    · exact .inl h

/-! ## Jumps -/

/-- `c'` is `c` with a distance at `offset` that leads to the end of the code. -/
structure Patched (c : Chunk) (offset : Nat) (c' : Chunk) : Prop where
  size : c'.size = c.size
  constants : c'.constants = c.constants
  byte? : ∀ p, p ≠ offset → p ≠ offset + 1 → c'.byte? p = c.byte? p
  pair? : offset + 2 ≤ c.size → c'.pair? offset = some (c.size - offset - 2)

theorem patched_of_patchJump {offset : Nat} (h : c.patchJump offset = (true, c')) :
    Patched c offset c' := by
  rw [patchJump] at h
  split at h
  · rename_i hfits
    obtain ⟨-, rfl⟩ := Prod.mk.inj h
    refine ⟨by simp, rfl, fun p hp hp' => ?_, fun hsize => ?_⟩
    · rw [byte?_setByte, if_neg hp', byte?_setByte, if_neg hp]
    · obtain ⟨b, hb⟩ := byte?_isSome (c := c) (i := offset) (by omega)
      obtain ⟨b', hb'⟩ := byte?_isSome (c := c) (i := offset + 1) (by omega)
      simp [pair?, byte?_setByte, hb, hb', pair_highByte_lowByte hfits]
  · cases (Prod.mk.inj h).1

theorem Patched.agree {offset i j : Nat} (h : Patched c offset c')
    (hij : offset + 2 ≤ i ∨ j ≤ offset) : Agree c c' i j :=
  ⟨fun p hp hp' => h.byte? p (by omega) (by omega), fun k v hv => by rw [h.constants]; exact hv⟩

/-- The jump whose distance has been patched. -/
theorem Patched.instr? {p : Nat} {op : Opcode} (h : Patched c (p + 1) c')
    (hop : c.byte? p = some op.toByte) (hsize : p + 3 ≤ c.size) :
    (op = .jump → c'.instr? p = some (.jump c.size, p + 3)) ∧
      (op = .jumpIfFalse → c'.instr? p = some (.jumpIfFalse c.size, p + 3)) := by
  have hp : c'.byte? p = some op.toByte := by rw [h.byte? p (by omega) (by omega), hop]
  have hd := h.pair? (by omega)
  have htarget : p + 3 + (c.size - (p + 1) - 2) = c.size := by omega
  constructor
  all_goals
    rintro rfl
    rw [instr?_eq_decode hp, decode, hd, Option.map_some, htarget]

theorem byte?_writeJump {op : Opcode} {line i : Nat} :
    (c.writeJump op line).2.byte? i =
      if i = c.size + 2 then some 0xFF else if i = c.size + 1 then some 0xFF
      else if i = c.size then some op.toByte else c.byte? i := by
  simp only [writeJump, writeOp, byte?_write, size_write]

theorem instr?_writeLoop {start line : Nat} (hstart : start ≤ c.size)
    (h : c.writeLoop start line = (true, c')) :
    c'.instr? c.size = some (.loop start, c.size + 3) ∧ c'.size = c.size + 3 ∧
      c'.constants = c.constants ∧ ∀ p, p < c.size → c'.byte? p = c.byte? p := by
  rw [writeLoop] at h
  obtain ⟨hfits, rfl⟩ := Prod.mk.inj h
  have hle : c.size + 3 - start ≤ maxDistance := of_decide_eq_true hfits
  rw [hfits, if_pos rfl]
  refine ⟨?_, by simp only [writeOp, size_write], rfl, fun p hp => ?_⟩
  · have hop : (((c.writeOp .loop line).write (highByte (c.size + 3 - start)) line).write
        (lowByte (c.size + 3 - start)) line).byte? c.size = some Opcode.loop.toByte := by
      simp [writeOp, byte?_write]
      omega
    have hd : (((c.writeOp .loop line).write (highByte (c.size + 3 - start)) line).write
        (lowByte (c.size + 3 - start)) line).pair? (c.size + 1) = some (c.size + 3 - start) := by
      simp [pair?, writeOp, byte?_write, pair_highByte_lowByte hle]
    simp only [instr?_eq_decode hop, decode, hd]
    rw [if_pos (by omega), show c.size + 3 - (c.size + 3 - start) = start by omega]
  · simp only [writeOp, byte?_write, size_write]
    rw [if_neg (by omega), if_neg (by omega), if_neg (by omega)]

end LoxMachine.Chunk
