import LoxMachine.Proofs.Compile.Steps

/-!
# Accepted emissions

Which instruction stands at the end of the code after an accepted emission. Operands fit into their
byte because bodies have room for no more than a byte can number.
-/

namespace LoxMachine.Builder

open Chunk (Agree Patched)

namespace Accepts

variable {α : Type} {s s' s'' : Builder} {u v : Unit}

theorem of_onChunk {f : Nat → Chunk → α × Chunk} {a : α} (h : Accepts (onChunk f) s a s') :
    ∃ line, f line s.body.chunk = (a, s'.body.chunk) ∧ s' = s.withChunk s'.body.chunk := by
  have hrun := of_modifyGet h
  obtain ⟨rfl, rfl⟩ := Prod.mk.inj hrun
  exact ⟨s.previous.line, rfl, rfl⟩

theorem of_emitByte {b : UInt8} (h : Accepts (emitByte b) s u s') :
    ∃ line, s'.body.chunk = s.body.chunk.write b line ∧ s' = s.withChunk s'.body.chunk := by
  obtain ⟨line, hf, heq⟩ := of_onChunk h
  exact ⟨line, (Prod.mk.inj hf).2.symm, heq⟩

theorem of_emitOp {op : Opcode} (h : Accepts (emit op) s u s') :
    ∃ line, s'.body.chunk = s.body.chunk.writeOp op line ∧ s' = s.withChunk s'.body.chunk := by
  obtain ⟨line, hf, heq⟩ := of_onChunk h
  exact ⟨line, (Prod.mk.inj hf).2.symm, heq⟩

/-- An operation without operands. -/
theorem of_emit {op : Opcode} (ins : Instr) (h : Accepts (emit op) s u s')
    (hd : ∀ (c : Chunk) (p : Nat), c.decode p op = some (ins, p + 1)) : Emits s ins s' := by
  obtain ⟨line, hc, heq⟩ := of_emitOp h
  refine ⟨heq, ?_, ?_, pool_of_eq (by rw [hc]; rfl)⟩
  · rw [hc]
    exact Chunk.agree_write ..
  · have hop : s'.body.chunk.byte? s.body.chunk.size = some op.toByte := by
      rw [hc, Chunk.writeOp, Chunk.byte?_write, if_pos rfl]
    rw [Chunk.instr?_eq_decode hop, hd, hc, Chunk.writeOp, Chunk.size_write]

/-- The bytes of an operation with an operand of one byte. -/
theorem of_emitWith {op : Opcode} {n : Nat} (h : Accepts (emitWith op n) s u s') :
    s' = s.withChunk s'.body.chunk ∧ Agree s.body.chunk s'.body.chunk 0 s.body.chunk.size ∧
      s'.body.chunk.byte? s.body.chunk.size = some op.toByte ∧
      s'.body.chunk.byte? (s.body.chunk.size + 1) = some n.toUInt8 ∧ s'.body.chunk.size = s.body.chunk.size + 2 ∧
      s'.body.chunk.constants = s.body.chunk.constants := by
  obtain ⟨_, s₁, h₁, h₂⟩ := h.bind
  obtain ⟨line, hc, heq⟩ := of_emitOp h₁
  obtain ⟨line', hc', heq'⟩ := of_emitByte h₂
  refine ⟨by rw [heq', heq]; rfl, ?_, ?_, ?_, ?_, ?_⟩
  · rw [hc', hc]
    refine (Chunk.agree_write ..).trans ((Chunk.agree_write _ _ _ 0).mono (Nat.le_refl _) ?_)
    exact Nat.le_of_lt (Nat.lt_of_lt_of_eq (Nat.lt_succ_self _) (Chunk.size_write ..).symm)
  · simp [hc', hc, Chunk.writeOp, Chunk.byte?_write]
  · simp [hc', hc, Chunk.writeOp, Chunk.byte?_write]
  · simp [hc', hc, Chunk.writeOp]
  · rw [hc', hc, Chunk.writeOp, Chunk.constants_write, Chunk.constants_write]

theorem toNat_toUInt8 {n : Nat} (h : n < 256) : n.toUInt8.toNat = n := by
  simp [Nat.mod_eq_of_lt h]

/-- An operation with a number. -/
theorem of_emitNumber {op : Opcode} {n : Nat} (mk : Nat → Instr)
    (h : Accepts (emitWith op n) s u s') (hn : n < 256)
    (hd : ∀ (c : Chunk) (p : Nat), c.decode p op = (c.operand? (p + 1)).map fun n => (mk n, p + 2)) :
    Emits s (mk n) s' := by
  obtain ⟨heq, hagree, hop, hoperand, hsize, hconstants⟩ := of_emitWith h
  refine ⟨heq, hagree, ?_, pool_of_eq hconstants⟩
  rw [Chunk.instr?_eq_decode hop, hd, Chunk.operand?, hoperand, hsize, Option.map_some,
    Option.map_some, toNat_toUInt8 hn]

theorem constantAt?_of_byte {c : Chunk} {p k : Nat} {v : Value} (hb : c.byte? p = some k.toUInt8)
    (hk : k < 256) (hv : c.constants[k]? = some v) : c.constantAt? p = some v := by
  rw [Chunk.constantAt?, hb, Option.bind_some, Chunk.constant?, toNat_toUInt8 hk, hv]

theorem nameAt?_of_byte {c : Chunk} {p k : Nat} {name : String}
    (hb : c.byte? p = some k.toUInt8) (hk : k < 256)
    (hv : c.constants[k]? = some (.string name)) : c.nameAt? p = some name := by
  rw [Chunk.nameAt?, constantAt?_of_byte hb hk hv]

/-- The index of a constant fits into a byte. -/
theorem constant_lt {k : Nat} {v : Value} (h : s.Sound) (hv : s.body.chunk.constants[k]? = some v) :
    k < 256 :=
  Nat.lt_of_lt_of_le (Array.getElem?_eq_some_iff.mp hv).1 (h.fits _ List.mem_cons_self).constants

/-- An operation with a name. -/
theorem of_emitName {op : Opcode} {k : Nat} {name : String} (mk : String → Instr)
    (h : Accepts (emitWith op k) s u s') (hk : s.body.chunk.constants[k]? = some (.string name))
    (hd : ∀ (c : Chunk) (p : Nat), c.decode p op = (c.nameAt? (p + 1)).map fun s => (mk s, p + 2)) :
    Emits s (mk name) s' := by
  obtain ⟨heq, hagree, hop, hoperand, hsize, hconstants⟩ := of_emitWith h
  refine ⟨heq, hagree, ?_, pool_of_eq hconstants⟩
  rw [Chunk.instr?_eq_decode hop, hd,
    nameAt?_of_byte hoperand (constant_lt h.sound hk) (hconstants ▸ hk), hsize, Option.map_some]

/-- An operation with a name and a number. -/
theorem of_emitNameNumber {op : Opcode} {k n : Nat} {name : String} (mk : String → Nat → Instr)
    (h : Accepts (emitWith op k) s u s') (h' : Accepts (emitByte n.toUInt8) s' v s'')
    (hk : s.body.chunk.constants[k]? = some (.string name)) (hn : n < 256)
    (hd : ∀ (c : Chunk) (p : Nat), c.decode p op =
      match c.nameAt? (p + 1), c.operand? (p + 2) with
      | some s, some n => some (mk s n, p + 3)
      | _, _ => none) :
    Emits s (mk name n) s'' := by
  obtain ⟨heq, hagree, hop, hoperand, hsize, hconstants⟩ := of_emitWith h
  obtain ⟨line, hc, heq'⟩ := of_emitByte h'
  have hlt : s.body.chunk.size < s'.body.chunk.size := by omega
  refine ⟨by rw [heq', heq]; rfl, ?_, ?_, pool_of_eq (by rw [hc]; exact hconstants)⟩
  · rw [hc]
    exact hagree.trans ((Chunk.agree_write _ _ _ 0).mono (Nat.le_refl _) (Nat.le_of_lt hlt))
  · have hop' : s''.body.chunk.byte? s.body.chunk.size = some op.toByte := by
      rw [hc, Chunk.byte?_write, if_neg (by omega), hop]
    have hk' : s''.body.chunk.byte? (s.body.chunk.size + 1) = some k.toUInt8 := by
      rw [hc, Chunk.byte?_write, if_neg (by omega), hoperand]
    have hn' : s''.body.chunk.operand? (s.body.chunk.size + 2) = some n := by
      rw [Chunk.operand?, hc, Chunk.byte?_write, if_pos (by omega), Option.map_some,
        toNat_toUInt8 hn]
    have hname : s''.body.chunk.nameAt? (s.body.chunk.size + 1) = some name := by
      refine nameAt?_of_byte hk' (constant_lt h.sound hk) ?_
      rw [hc, Chunk.constants_write, hconstants]
      exact hk
    have hsize' : s''.body.chunk.size = s.body.chunk.size + 3 := by
      rw [hc, Chunk.size_write, hsize]
    rw [Chunk.instr?_eq_decode hop', hd, hname, hn', hsize']

/-! ## Constants -/

end Accepts

/-- `s'` is `s` with a constant in its pool, at `k`. -/
structure Pools (s : Builder) (c : Value) (k : Nat) (s' : Builder) : Prop where
  eq : s' = s.withChunk s'.body.chunk
  agree : Agree s.body.chunk s'.body.chunk 0 s.body.chunk.size
  size : s'.body.chunk.size = s.body.chunk.size
  constant : s'.body.chunk.constants[k]? = some c
  mem : ∀ v ∈ s'.body.chunk.constants, v ∈ s.body.chunk.constants ∨ v = c

theorem Pools.pool {s s' : Builder} {c : Value} {k : Nat} (h : Pools s c k s')
    (hc : Admits s.firstIndex s.finished c) (v : Value) (hv : v ∈ s'.body.chunk.constants) :
    v ∈ s.body.chunk.constants ∨ Admits s.firstIndex s.finished v :=
  (h.mem v hv).imp id fun heq => by rw [heq]; exact hc

section Names

variable {s s' : Builder} {name : String} {k : Nat} (h : Pools s (.string name) k s')
include h

theorem Pools.steps (i : Nat) : Steps i s [] s' := by
  rw [h.eq]
  exact steps_withChunk (h.agree.mono (Nat.zero_le i) (Nat.le_refl _)) (Nat.le_of_eq h.size.symm)
    (h.pool trivial)

theorem Pools.locals : s'.body.locals = s.body.locals := by
  rw [h.eq]
  rfl

theorem Pools.quiet : Quiet s [] s' :=
  ⟨h.steps 0, h.size, by rw [h.locals]⟩

end Names

namespace Accepts

variable {α : Type} {s s' s'' : Builder} {u v : Unit}

theorem of_makeConstant {c : Value} {k : Nat} (h : Accepts (makeConstant c) s k s') :
    Pools s c k s' := by
  have hrun := h.run
  cases hadd : (s.body.chunk.addConstant c).1 with
  | some index =>
      rw [makeConstant_of_some hadd] at hrun
      obtain ⟨rfl, rfl⟩ := Prod.mk.inj hrun
      exact ⟨rfl, Chunk.agree_addConstant .., congrArg Array.size (Chunk.code_addConstant ..),
        Chunk.constants_addConstant (Prod.ext hadd rfl), fun v hv => Chunk.mem_constants_addConstant hv⟩
  | none =>
      have : Keeps (onChunk fun _ chunk => chunk.addConstant c) :=
        keeps_onChunk fun _ _ h => size_addConstant h
      have hsound := Keeps.sound (x := onChunk fun _ chunk => chunk.addConstant c) s h.sound
      rw [makeConstant_of_none hadd] at hrun
      obtain ⟨_, _, herror, -⟩ := Accepts.bind (x := error .tooManyConstants) (f := fun _ => pure 0)
        ⟨hsound, hrun, h.clean⟩
      exact absurd herror not_error

theorem of_nameConstant {name : String} {k : Nat} (h : Accepts (nameConstant name) s k s') :
    Pools s (.string name) k s' :=
  of_makeConstant h

theorem of_emitConstant {c : Value} (h : Accepts (emitConstant c) s u s')
    (hc : Admits s.firstIndex s.finished c) : Emits s (.push c) s' := by
  obtain ⟨k, s₁, h₁, h₂⟩ := h.bind
  have hp := of_makeConstant h₁
  obtain ⟨heq, hagree, hop, hoperand, hsize, hconstants⟩ := of_emitWith h₂
  rw [hp.size] at hop hoperand hsize hagree
  refine ⟨by rw [heq, hp.eq]; rfl, hp.agree.trans hagree, ?_, fun v hv => hp.pool hc v ?_⟩
  · rw [Chunk.instr?_eq_decode hop, Chunk.decode, hsize, constantAt?_of_byte hoperand
      (constant_lt h₂.sound hp.constant) (hconstants ▸ hp.constant), Option.map_some]
  · rwa [hconstants] at hv

/-! ## Jumps -/

end Accepts

/-- `s'` is `s` with a jump that does not lead anywhere yet. -/
structure Awaits (s : Builder) (op : Opcode) (s' : Builder) : Prop where
  eq : s' = s.withChunk s'.body.chunk
  agree : Agree s.body.chunk s'.body.chunk 0 s.body.chunk.size
  size : s'.body.chunk.size = s.body.chunk.size + 3
  byte : s'.body.chunk.byte? s.body.chunk.size = some op.toByte
  constants : s'.body.chunk.constants = s.body.chunk.constants

/-- `s'` is `s` with the jump at `p` leading to the end of the code. -/
structure Patches (s : Builder) (p : Nat) (s' : Builder) : Prop where
  eq : s' = s.withChunk s'.body.chunk
  patched : Patched s.body.chunk (p + 1) s'.body.chunk

theorem Awaits.steps {s s' : Builder} {op : Opcode} (h : Awaits s op s') : Steps 0 s [] s' := by
  rw [h.eq]
  exact steps_withChunk h.agree (by rw [h.size]; omega) (pool_of_eq h.constants)

theorem Awaits.locals {s s' : Builder} {op : Opcode} (h : Awaits s op s') :
    s'.body.locals = s.body.locals := by
  rw [h.eq]
  rfl

namespace Patches

variable {s s' : Builder} {p : Nat}

theorem steps (h : Patches s p s') : Steps (p + 3) s [] s' := by
  rw [h.eq]
  exact steps_withChunk (h.patched.agree (.inl (Nat.le_refl _))) (Nat.le_of_eq h.patched.size.symm)
    (pool_of_eq h.patched.constants)

theorem locals (h : Patches s p s') : s'.body.locals = s.body.locals := by
  rw [h.eq]
  rfl

theorem current (h : Patches s p s') : s'.current = s.current := by
  rw [h.eq]
  rfl

/-- Code in front of the jump stays as it is. -/
theorem after (h : Patches s p s') {s₀ : Builder} {ts : List Token} (hs : Steps 0 s₀ ts s)
    (hp : s₀.body.chunk.size ≤ p) : Steps 0 s₀ ts s' := by
  have hagree := hs.agree.trans (h.patched.agree (.inr (Nat.le_succ_of_le hp)))
  rw [h.eq]
  exact { hs with
    agree := hagree
    size := Nat.le_trans hs.size (Nat.le_of_eq h.patched.size.symm)
    orderly := fun ho => (hs.orderly ho).pool (pool_of_eq h.patched.constants) }

/-- The jump, patched after some code behind it. -/
theorem instr {s₀ s₁ : Builder} {op : Opcode} {ts : List Token} {i : Nat}
    (h : Patches s s₀.body.chunk.size s') (hw : Awaits s₀ op s₁) (hs : Steps i s₁ ts s)
    (hi : i ≤ s₀.body.chunk.size) :
    (op = .jump → s'.body.chunk.instr? s₀.body.chunk.size =
      some (.jump s.body.chunk.size, s₁.body.chunk.size)) ∧
    (op = .jumpIfFalse → s'.body.chunk.instr? s₀.body.chunk.size =
      some (.jumpIfFalse s.body.chunk.size, s₁.body.chunk.size)) := by
  have hsize := hw.size
  have hbyte : s.body.chunk.byte? s₀.body.chunk.size = some op.toByte := by
    rw [hs.agree.byte? _ hi (by omega), hw.byte]
  rw [hsize]
  exact h.patched.instr? hbyte (by have := hs.size; omega)

end Patches

namespace Accepts

variable {α : Type} {s s' s'' : Builder} {u v : Unit}

theorem of_emitJump {op : Opcode} {offset : Nat} (h : Accepts (emitJump op) s offset s') :
    offset = s.body.chunk.size + 1 ∧ Awaits s op s' := by
  obtain ⟨line, hf, heq⟩ := of_onChunk h
  obtain ⟨rfl, hc⟩ := Prod.mk.inj hf
  have hbyte (i : Nat) := congrArg (·.byte? i) hc
  simp only [Chunk.byte?_write, Chunk.writeOp, Chunk.size_write] at hbyte
  refine ⟨rfl, heq, ⟨fun p _ hp => ?_, fun k v hv => hc ▸ hv⟩, ?_, ?_, hc ▸ rfl⟩
  · rw [← hbyte p, if_neg (by omega), if_neg (by omega), if_neg (by omega)]
  · rw [← hc]
    simp [Chunk.writeOp]
  · rw [← hbyte, if_neg (by omega), if_neg (by omega), if_pos rfl]

theorem of_patchJump {p : Nat} (h : Accepts (patchJump (p + 1)) s u s') : Patches s p s' := by
  have : Keeps (onChunk fun _ c => c.patchJump (p + 1)) :=
    keeps_onChunk fun _ c h => constants_patchJump c (p + 1) ▸ h
  obtain ⟨fits, s₁, h₁, h₂⟩ := h.bind
  obtain ⟨line, hf, heq⟩ := of_onChunk h₁
  split at h₂
  · obtain ⟨-, rfl⟩ := of_pure h₂
    subst fits
    exact ⟨heq, Chunk.patched_of_patchJump hf⟩
  · exact absurd h₂ not_error

theorem of_emitLoop {start : Nat} (h : Accepts (emitLoop start) s u s')
    (hstart : start ≤ s.body.chunk.size) : Emits s (.loop start) s' := by
  have : Keeps (onChunk fun line c => c.writeLoop start line) := keeps_onChunk fun _ _ h => h
  obtain ⟨fits, s₁, h₁, h₂⟩ := h.bind
  obtain ⟨line, hf, heq⟩ := of_onChunk h₁
  split at h₂
  · obtain ⟨-, rfl⟩ := of_pure h₂
    subst fits
    obtain ⟨hi, hsize, hconstants, hbyte⟩ := Chunk.instr?_writeLoop hstart hf
    refine ⟨heq, ⟨fun p _ hp => hbyte p hp, fun k v hv => hconstants ▸ hv⟩, ?_, pool_of_eq hconstants⟩
    rw [hi, hsize]
  · exact absurd h₂ not_error

theorem of_here {p : Nat} (h : Accepts here s p s') : s' = s ∧ p = s.body.chunk.size := by
  obtain ⟨_, _, hget, hpure⟩ := h.bind
  obtain ⟨rfl, rfl⟩ := of_get hget
  obtain ⟨rfl, rfl⟩ := of_pure hpure
  exact ⟨rfl, rfl⟩

end Accepts

end LoxMachine.Builder
