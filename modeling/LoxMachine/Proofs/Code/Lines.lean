import LoxMachine.Proofs.Code.WellFormed
import LoxMachine.Proofs.Code.Listing

/-!
# Lines of instructions

Code is cut at an offset if it consists of whole instructions up to there, each of one line. Whole
instructions that are written behind it and distances that are filled in leave it cut where it was
(`Continues`). Lines that are written in ascending order stay so (`Rising`).
-/

namespace LoxMachine.Chunk

/-! ## Instructions of one line -/

/-- The instruction at `p` is complete and all of one line. -/
structure OneLine (c : Chunk) (p : Nat) : Prop where
  size : p + c.instructionLength p ≤ c.size
  line : ∀ i, p ≤ i → i < p + c.instructionLength p → c.line? i = c.line? p
  /-- A closure is long enough for its function. -/
  closure : (c.byte? p).bind Opcode.ofByte? = some .closure →
    ∃ f, c.constantAt? (p + 1) = some (.function f)

/-- Up to this offset the code consists of such instructions. -/
inductive Cut (c : Chunk) : Nat → Prop where
  | start : Cut c 0
  | next {p} : Cut c p → c.OneLine p → Cut c (p + c.instructionLength p)

variable {c c' c'' : Chunk} {p q line : Nat} {op : Opcode}

theorem Cut.stop (h : c.Cut p) : c.Stop p := by
  induction h with
  | start => exact .start
  | @next p _ hline ih =>
      have := c.instructionLength_pos p
      exact .next ih (by have := hline.size; omega)

/-- A reading that stops at two offsets has read an instruction between them. -/
theorem Stop.next_le (hp : c.Stop p) (hq : c.Stop q) (hlt : p < q) :
    p + c.instructionLength p ≤ q := by
  generalize hsum : p + q = n
  induction n using Nat.strongRecOn generalizing p q with
  | ind n ih =>
      cases hq with
      | start => exact absurd hlt (Nat.not_lt_zero _)
      | @next r hr hsize =>
          have hpos := c.instructionLength_pos r
          rcases Nat.lt_trichotomy p r with h | rfl | h
          · exact Nat.le_trans (ih (p + r) (by omega) hp hr h rfl) (Nat.le_add_right _ _)
          · exact Nat.le_refl _
          · have := ih (r + p) (by omega) hr hp h rfl
            omega

theorem Cut.oneLine_of_lt (hq : c.Cut q) (hp : c.Stop p) (hlt : p < q) : c.OneLine p := by
  induction hq with
  | start => exact absurd hlt (Nat.not_lt_zero _)
  | @next r hr hline ih =>
      rcases Nat.lt_trichotomy p r with h | rfl | h
      · exact ih h
      · exact hline
      · have := hr.stop.next_le hp h
        omega

theorem line?_of_size_le (h : c.size ≤ p) : c.line? p = none := by
  rw [line?, Array.getElem?_eq_none h, Option.map_none]

/-- Where all code is cut, every instruction is of one line. -/
theorem Cut.line?_eq (hc : c.Cut c.size) (hp : c.Stop p) {i : Nat} (hi : p ≤ i)
    (hi' : i < p + c.instructionLength p) : c.line? i = c.line? p := by
  by_cases hlt : p < c.size
  · exact (hc.oneLine_of_lt hp hlt).line i hi hi'
  · rw [line?_of_size_le (by omega), line?_of_size_le (by omega)]

/-! ## Code that goes on -/

theorem capturesAt_of_constantAt? {f : Function} (h : c.constantAt? p = some (.function f)) :
    c.capturesAt p = f.captures := by
  rw [capturesAt, show (c.byte? p).bind c.constant? = some (.function f) from h]

/-- The length of an instruction depends on its operation, and for a closure on its function. -/
theorem instructionLength_congr (hbyte : c'.byte? p = c.byte? p)
    (hclosure : (c.byte? p).bind Opcode.ofByte? = some .closure →
      c'.capturesAt (p + 1) = c.capturesAt (p + 1)) :
    c'.instructionLength p = c.instructionLength p := by
  rw [instructionLength, instructionLength, hbyte]
  cases hop : (c.byte? p).bind Opcode.ofByte? with
  | none => rfl
  | some op =>
      dsimp only
      cases op <;> first | rfl | exact congrArg (2 + 2 * ·) (hclosure hop)

/-- An instruction is the same in code that agrees on its bytes. -/
theorem OneLine.agree (h : c.OneLine p) (hagree : Agree c c' 0 c.size)
    (hlines : ∀ i, i < c.size → c'.line? i = c.line? i) (hsize : c.size ≤ c'.size) :
    c'.OneLine p ∧ c'.instructionLength p = c.instructionLength p := by
  have hpos := c.instructionLength_pos p
  have hend := h.size
  have hbyte : c'.byte? p = c.byte? p := hagree.byte? p (Nat.zero_le _) (by omega)
  have hclosure : (c.byte? p).bind Opcode.ofByte? = some .closure →
      ∃ f, c'.constantAt? (p + 1) = some (.function f) ∧ c.constantAt? (p + 1) = some (.function f) :=
    fun hop => by
      obtain ⟨f, hf⟩ := h.closure hop
      exact ⟨f, hagree.constantAt? (Nat.zero_le _) (lt_size_of_constantAt? hf) hf, hf⟩
  have hlength : c'.instructionLength p = c.instructionLength p := by
    refine instructionLength_congr hbyte fun hop => ?_
    obtain ⟨f, hf', hf⟩ := hclosure hop
    rw [capturesAt_of_constantAt? hf', capturesAt_of_constantAt? hf]
  refine ⟨⟨by omega, fun i hi hi' => ?_, fun hop => ?_⟩, hlength⟩
  · rw [hlines i (by omega), hlines p (by omega), h.line i hi (by omega)]
  · obtain ⟨f, hf', -⟩ := hclosure (hbyte ▸ hop)
    exact ⟨f, hf'⟩

theorem Cut.agree (h : c.Cut p) (hagree : Agree c c' 0 c.size)
    (hlines : ∀ i, i < c.size → c'.line? i = c.line? i) (hsize : c.size ≤ c'.size) : c'.Cut p := by
  induction h with
  | start => exact .start
  | next _ hline ih =>
      obtain ⟨hline', hlength⟩ := hline.agree hagree hlines hsize
      exact hlength ▸ .next ih hline'

/-- Code that is cut at its end goes on with whole instructions; of those that are there nothing
changes but distances of jumps. -/
structure Continues (c c' : Chunk) : Prop where
  size : c.size ≤ c'.size
  whole : c.Cut c.size → c'.Cut c'.size
  cut : c.Cut c.size → ∀ p, c.Cut p → c'.Cut p
  operation : c.Cut c.size → ∀ p, c.Cut p → p < c.size → c'.byte? p = c.byte? p

theorem Continues.refl (c : Chunk) : c.Continues c :=
  ⟨Nat.le_refl _, id, fun _ _ => id, fun _ _ _ _ => rfl⟩

/-- Constants are added. -/
theorem continues_of_code (hcode : c'.code = c.code) (hagree : Agree c c' 0 c.size) :
    c.Continues c' := by
  have hsize : c'.size = c.size := congrArg Array.size hcode
  have hlines : ∀ i, i < c.size → c'.line? i = c.line? i := fun i _ => by rw [line?, hcode, line?]
  refine ⟨Nat.le_of_eq hsize.symm, fun hc => ?_, fun _ p hp => hp.agree hagree hlines
    (Nat.le_of_eq hsize.symm), fun _ p _ hlt => hagree.byte? p (Nat.zero_le _) hlt⟩
  rw [hsize]
  exact hc.agree hagree hlines (Nat.le_of_eq hsize.symm)

/-- One instruction is added. -/
theorem continues_of_oneLine (hagree : Agree c c' 0 c.size)
    (hlines : ∀ i, i < c.size → c'.line? i = c.line? i) (hnew : c'.OneLine c.size)
    (hend : c.size + c'.instructionLength c.size = c'.size) : c.Continues c' := by
  have hsize : c.size ≤ c'.size := by omega
  refine ⟨hsize, fun hc => ?_, fun _ p hp => hp.agree hagree hlines hsize,
    fun _ p _ hlt => hagree.byte? p (Nat.zero_le _) hlt⟩
  exact hend ▸ .next (hc.agree hagree hlines hsize) hnew

/-- Bytes of one line are added. -/
theorem getElem?_of_written {bytes : List UInt8}
    (hcode : c'.code = c.code ++ (bytes.map (·, line)).toArray) (i : Nat) :
    c'.code[i]? = if i < c.size then c.code[i]? else bytes[i - c.size]?.map (·, line) := by
  rw [hcode, Array.getElem?_append]
  split
  · rename_i h
    rw [if_pos (show i < c.size from h)]
  · rename_i h
    rw [if_neg (show ¬ i < c.size from h), List.getElem?_toArray, List.getElem?_map]
    rfl

/-- An operation and its operands are added. -/
theorem continues_of_written {bytes : List UInt8}
    (hcode : c'.code = c.code ++ ((op.toByte :: bytes).map (·, line)).toArray)
    (hconstants : c'.constants = c.constants)
    (hlength : c'.instructionLength c.size = bytes.length + 1)
    (hclosure : op = .closure → ∃ f, c'.constantAt? (c.size + 1) = some (.function f)) :
    c.Continues c' := by
  have hget := getElem?_of_written hcode
  have hsize : c'.size = c.size + (bytes.length + 1) := by
    rw [size, hcode, Array.size_append]
    simp [size]
  have hagree : Agree c c' 0 c.size :=
    ⟨fun i _ hi => by rw [byte?, hget, if_pos hi, byte?], fun k v hv => hconstants ▸ hv⟩
  have hop : (c'.byte? c.size).bind Opcode.ofByte? = some op := by
    rw [byte?, hget, if_neg (Nat.lt_irrefl _), Nat.sub_self]
    exact Opcode.ofByte?_toByte op
  have hnew {i : Nat} (hi : c.size ≤ i) (hi' : i < c'.size) : c'.line? i = some line := by
    have hlt : i - c.size < (op.toByte :: bytes).length := by
      rw [List.length_cons]
      omega
    rw [line?, hget, if_neg (by omega), List.getElem?_eq_getElem hlt]
    rfl
  refine continues_of_oneLine hagree (fun i hi => by rw [line?, hget, if_pos hi, line?])
    ⟨by omega, fun i hi hi' => ?_, fun h => ?_⟩ (by omega)
  · rw [hnew hi (by omega), hnew (Nat.le_refl _) (by omega)]
  · exact hclosure (Option.some.inj (hop.symm.trans h))

/-- An operation that is no closure is as long as its operands. -/
theorem continues_of_operation (line : Nat) (bytes : List UInt8) (hop : op ≠ .closure)
    (hbytes : (Operands.of op).size = bytes.length)
    (hcode : c'.code = c.code ++ ((op.toByte :: bytes).map (·, line)).toArray)
    (hconstants : c'.constants = c.constants) : c.Continues c' := by
  refine continues_of_written hcode hconstants ?_ fun h => absurd h hop
  have hget := getElem?_of_written hcode c.size
  have hbyte : (c'.byte? c.size).bind Opcode.ofByte? = some op := by
    rw [byte?, hget, if_neg (Nat.lt_irrefl _), Nat.sub_self]
    exact Opcode.ofByte?_toByte op
  rw [instructionLength_eq hbyte, ← hbytes]
  cases op <;> first | rfl | exact absurd rfl hop

/-! ## Jumps -/

/-- A jump stands at `p`. -/
structure JumpAt (c : Chunk) (p : Nat) : Prop where
  cut : c.Cut p
  operation : ∃ op : Opcode, op.IsJump ∧ (c.byte? p).bind Opcode.ofByte? = some op
  size : p + 3 ≤ c.size

theorem JumpAt.continues (h : c.JumpAt p) (hc : c.Cut c.size) (h' : c.Continues c') : c'.JumpAt p where
  cut := h'.cut hc p h.cut
  operation := by
    rw [h'.operation hc p h.cut (by have := h.size; omega)]
    exact h.operation
  size := Nat.le_trans h.size h'.size

theorem JumpAt.instructionLength (h : c.JumpAt p) : c.instructionLength p = 3 := by
  obtain ⟨op, hjump, hop⟩ := h.operation
  rw [instructionLength_eq hop]
  cases op <;> first | rfl | exact hjump.elim

theorem patchJump_lines (c : Chunk) (offset i : Nat) : (c.patchJump offset).2.line? i = c.line? i := by
  rw [patchJump]
  split
  · rw [line?_setByte, line?_setByte]
  · rfl

/-- Filling in the distance of a jump. -/
theorem JumpAt.continues_patchJump (h : c.JumpAt p) : c.Continues (c.patchJump (p + 1)).2 := by
  cases hrun : c.patchJump (p + 1) with
  | mk near c' =>
  have hlines : ∀ i, c'.line? i = c.line? i := fun i => by
    rw [← patchJump_lines c (p + 1), hrun]
  cases near with
  | false =>
      rw [patchJump] at hrun
      split at hrun
      · cases (Prod.mk.inj hrun).1
      · obtain ⟨-, rfl⟩ := Prod.mk.inj hrun
        exact .refl c
  | true =>
      have hpatched := patched_of_patchJump hrun
      have hsize : c'.size = c.size := hpatched.size
      -- Neither an operation nor the constant of a closure stands where the distance is.
      have hbyte {q : Nat} (hq : c.Stop q) : c'.byte? q = c.byte? q := by
        refine hpatched.byte? q ?_ ?_ <;> rintro rfl
        · have := h.cut.stop.next_le hq (Nat.lt_succ_self p)
          rw [h.instructionLength] at this
          omega
        · have := h.cut.stop.next_le hq (by omega)
          rw [h.instructionLength] at this
          omega
      have hclosure {q : Nat} (hq : c.Stop q)
          (hop : (c.byte? q).bind Opcode.ofByte? = some .closure) :
          c'.byte? (q + 1) = c.byte? (q + 1) := by
        have hne : q ≠ p := by
          rintro rfl
          obtain ⟨op, hjump, hop'⟩ := h.operation
          obtain rfl := Option.some.inj (hop.symm.trans hop')
          exact hjump
        refine hpatched.byte? _ (fun heq => hne (Nat.succ.inj heq)) fun heq => ?_
        obtain rfl : q = p + 1 := Nat.succ.inj heq
        have := h.cut.stop.next_le hq (Nat.lt_succ_self p)
        rw [h.instructionLength] at this
        omega
      have hcut {q : Nat} (hq : c.Cut q) : c'.Cut q := by
        induction hq with
        | start => exact .start
        | @next q hq hline ih =>
            have hconstant (hop : (c.byte? q).bind Opcode.ofByte? = some .closure) :
                c'.constantAt? (q + 1) = c.constantAt? (q + 1) := by
              rw [constantAt?, constantAt?, hclosure hq.stop hop]
              congr 1
              funext b
              rw [constant?, constant?, hpatched.constants]
            have hlength : c'.instructionLength q = c.instructionLength q := by
              refine instructionLength_congr (hbyte hq.stop) fun hop => ?_
              obtain ⟨f, hf⟩ := hline.closure hop
              rw [capturesAt_of_constantAt? hf, capturesAt_of_constantAt? ((hconstant hop).trans hf)]
            refine hlength ▸ .next ih ⟨by have := hline.size; omega, fun i hi hi' => ?_, fun hop => ?_⟩
            · rw [hlines, hlines, hline.line i hi (hlength ▸ hi')]
            · have hop := hbyte hq.stop ▸ hop
              exact (hline.closure hop).imp fun f hf => (hconstant hop).trans hf
      exact ⟨Nat.le_of_eq hsize.symm, fun hc => hsize ▸ hcut hc, fun _ q hq => hcut hq,
        fun _ q hq _ => hbyte hq.stop⟩

/-! ## The order of lines -/

/-- Lines never decrease, and none is greater than `line`. -/
structure Rising (c : Chunk) (line : Nat) : Prop where
  ascending : ∀ i j x y, i ≤ j → c.line? i = some x → c.line? j = some y → x ≤ y
  bounded : ∀ i x, c.line? i = some x → x ≤ line

theorem rising_empty (line : Nat) : Rising {} line :=
  ⟨nofun, nofun⟩

theorem Rising.mono {line' : Nat} (h : c.Rising line) (hle : line ≤ line') : c.Rising line' :=
  ⟨h.ascending, fun i x hx => Nat.le_trans (h.bounded i x hx) hle⟩

theorem Rising.of_lines (h : c.Rising line) (hlines : ∀ i, c'.line? i = c.line? i) :
    c'.Rising line :=
  ⟨fun i j x y hij hx hy => h.ascending i j x y hij (hlines i ▸ hx) (hlines j ▸ hy),
    fun i x hx => h.bounded i x (hlines i ▸ hx)⟩

theorem line?_write (c : Chunk) (b : UInt8) (line i : Nat) :
    (c.write b line).line? i = if i = c.size then some line else c.line? i := by
  rw [line?, write, Array.getElem?_push]
  by_cases h : i = c.size
  · rw [if_pos h, if_pos (show i = c.code.size from h), Option.map_some]
  · rw [if_neg h, if_neg (show ¬ i = c.code.size from h), line?]

theorem Rising.write (h : c.Rising line) (b : UInt8) : (c.write b line).Rising line := by
  refine ⟨fun i j x y hij hx hy => ?_, fun i x hx => ?_⟩
  · rw [line?_write] at hx hy
    split at hy
    · obtain rfl := Option.some.inj hy
      split at hx
      · exact Nat.le_of_eq (Option.some.inj hx).symm
      · exact h.bounded i x hx
    · rename_i hj
      split at hx
      · rename_i hi
        rw [line?_of_size_le (by omega)] at hy
        cases hy
      · exact h.ascending i j x y hij hx hy
  · rw [line?_write] at hx
    split at hx
    · exact Nat.le_of_eq (Option.some.inj hx).symm
    · exact h.bounded i x hx

theorem Rising.written {bytes : List UInt8} (h : c.Rising line)
    (hcode : c'.code = c.code ++ (bytes.map (·, line)).toArray) : c'.Rising line := by
  induction bytes generalizing c with
  | nil => exact h.of_lines fun i => by rw [line?, hcode, line?, List.map_nil, Array.append_empty]
  | cons b bytes ih =>
      refine ih (h.write b) ?_
      rw [hcode, ← Array.toList_inj]
      simp [Chunk.write]

end LoxMachine.Chunk
