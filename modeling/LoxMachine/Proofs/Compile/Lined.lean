import LoxMachine.Proofs.Code.Lines
import LoxMachine.Proofs.Compile.Nesting
import LoxMachine.Proofs.Scanning.Lines

/-!
# Lines of compiled code

Tokens come in the order of their lines, and whatever is emitted belongs to the line of the token last
read. So the lines of a function never decrease, and since an instruction is emitted between two tokens,
it is all of one line. `Lined` says so of a builder at any time, with the places of the jumps that do not
lead anywhere yet; every action that is accepted keeps it (`Writes`).
-/

namespace LoxMachine

/-! ## Lines of tokens -/

namespace Scanner

/-- The tokens of a text come in the order of their lines. -/
theorem lines_tokens (s : Scanner) :
    (∀ t ∈ s.tokens, s.line ≤ t.line) ∧ s.tokens.Pairwise (·.line ≤ ·.line) := by
  obtain ⟨hfirst, hlast⟩ := line_next s
  rw [tokens_eq]
  split
  · refine ⟨fun t ht => ?_, List.pairwise_singleton _ _⟩
    obtain rfl := List.mem_singleton.mp ht
    exact hfirst
  · obtain ⟨hrest, hpairwise⟩ := lines_tokens s.next.2
    refine ⟨fun t ht => ?_, List.pairwise_cons.mpr ⟨fun t ht => ?_, hpairwise⟩⟩
    · rcases List.mem_cons.mp ht with rfl | ht
      · exact hfirst
      · exact Nat.le_trans (Nat.le_trans hfirst hlast) (hrest t ht)
    · exact Nat.le_trans hlast (hrest t ht)
termination_by s.rest.length
decreasing_by exact next_shorter (by assumption)

end Scanner

/-- Code of whole instructions, each of one line, whose lines never decrease. -/
structure Chunk.Lined (c : Chunk) : Prop where
  cut : c.Cut c.size
  ascending : ∀ i j x y, i ≤ j → c.line? i = some x → c.line? j = some y → x ≤ y

/-- An operation other than a closure with `n` bytes of operands. -/
class Opcode.Takes (op : Opcode) (n : outParam Nat) : Prop where
  size : (Chunk.Operands.of op).size = n
  ne : op ≠ .closure

theorem Body.GrowAll.map_chunk {bs bs' : List Body} (h : GrowAll bs bs') :
    bs'.map (·.chunk) = bs.map (·.chunk) := by
  induction h with
  | nil => rfl
  | cons hgrows _ ih => rw [List.map_cons, List.map_cons, hgrows.chunk, ih]

namespace Builder

/-! ## Code under construction -/

/-- The code emitted so far is of lines in their order. Jumps that do not lead anywhere yet stand
at `open`. -/
structure Lined (jumps : List Nat) (s : Builder) : Prop where
  tokens : (s.previous :: s.current :: s.upcoming).Pairwise (·.line ≤ ·.line)
  cut : s.body.chunk.Cut s.body.chunk.size
  jumps : ∀ p ∈ jumps, s.body.chunk.JumpAt p
  rising : ∀ b ∈ s.body :: s.outer, b.chunk.Rising s.previous.line
  finished : ∀ r ∈ s.finished, r.code.Lined

variable {J : List Nat} {s s' : Builder}

theorem Lined.weaken {p : Nat} (h : Lined (p :: J) s) : Lined J s :=
  ⟨h.tokens, h.cut, fun q hq => h.jumps q (List.mem_cons_of_mem _ hq), h.rising, h.finished⟩

/-- The code of the body goes on. -/
theorem Lined.continues (h : Lined J s) {c : Chunk} (hc : s.body.chunk.Continues c)
    (hrising : c.Rising s.previous.line) : Lined J (s.withChunk c) where
  tokens := h.tokens
  cut := hc.whole h.cut
  jumps p hp := (h.jumps p hp).continues h.cut hc
  rising b hb := by
    rcases List.mem_cons.mp hb with rfl | hb
    · exact hrising
    · exact h.rising b (List.mem_cons_of_mem _ hb)
  finished := h.finished

/-- What a builder has read and emitted. -/
def text (s : Builder) : List Token × List Chunk × Array Routine :=
  (s.previous :: s.current :: s.upcoming, (s.body :: s.outer).map (·.chunk), s.finished)

theorem Lined.congr (h : Lined J s) (heq : s'.text = s.text) : Lined J s' := by
  obtain ⟨htokens, hrest⟩ := Prod.mk.inj heq
  obtain ⟨hchunks, hfinished⟩ := Prod.mk.inj hrest
  have hprevious : s'.previous = s.previous := (List.cons.inj htokens).1
  have hchunk : s'.body.chunk = s.body.chunk := (List.cons.inj hchunks).1
  refine ⟨htokens ▸ h.tokens, hchunk ▸ h.cut, fun p hp => hchunk ▸ h.jumps p hp, fun b hb => ?_,
    hfinished ▸ h.finished⟩
  have hb' := List.mem_map_of_mem (f := (·.chunk)) hb
  rw [hchunks] at hb'
  obtain ⟨b', hmem, heq'⟩ := List.mem_map.mp hb'
  rw [hprevious, ← heq']
  exact h.rising b' hmem

/-- An accepted action keeps the lines in order. -/
class Writes {α : Type} (J : List Nat) (x : Build α) : Prop where
  keeps : Keeps x
  lined : ∀ {s s' : Builder} {a : α}, Accepts x s a s' → Lined J s → Lined J s'

section Combinators

variable {α β : Type}

theorem Accepts.nests {x : Build α} {a : α} [hx : Balanced x] (h : Accepts x s a s') : s.Nests s' := by
  have := hx.nests s
  rwa [h.run] at this

theorem writes_of_text {x : Build α} [hx : Keeps x] (h : ∀ s, (x s).2.text = s.text) : Writes J x :=
  ⟨hx, fun {s s' _} hrun hs => hs.congr (by rw [← h s, hrun.run])⟩

instance (a : α) : Writes J (pure a : Build α) :=
  writes_of_text fun _ => rfl

theorem Writes.bind {x : Build α} {f : α → Build β} (hx : Writes J x) (hf : ∀ a, Writes J (f a)) :
    Writes J (x >>= f) := by
  refine ⟨hx.keeps.bind fun a => (hf a).keeps, fun h hs => ?_⟩
  obtain ⟨a, s₁, h₁, h₂⟩ := h.bind_of hx.keeps fun a => (hf a).keeps
  exact (hf a).lined h₂ (hx.lined h₁ hs)

instance (x : Build α) (f : α → Build β) [hx : Writes J x] [hf : ∀ a, Writes J (f a)] :
    Writes J (x >>= f) :=
  hx.bind hf

instance (c : Prop) [Decidable c] (x y : Build α) [hx : Writes J x] [hy : Writes J y] :
    Writes J (if c then x else y) := by
  split
  · exact hx
  · exact hy

instance : Writes J (get : Build Builder) :=
  writes_of_text fun _ => rfl

theorem writes_onBody {f : Body → α × Body} [Keeps (onBody f)] (h : ∀ b, (f b).2.chunk = b.chunk) :
    Writes J (onBody f) :=
  writes_of_text fun s =>
    show (_, ((f s.body).2 :: s.outer).map (·.chunk), _) = _ by rw [List.map_cons, h]; rfl

/-- What an action emits, given the line of the token last read. -/
theorem writes_onChunk {f : Nat → Chunk → α × Chunk} [hf : Keeps (onChunk f)] (h : ∀ line c, Chunk.Continues c (f line c).2)
    (hrising : ∀ line (c : Chunk), c.Rising line → (f line c).2.Rising line) :
    Writes J (onChunk f) := by
  refine ⟨hf, fun {s s' a} hx hs => ?_⟩
  rw [show s' = s.withChunk (f s.previous.line s.body.chunk).2 from (congrArg Prod.snd hx.run).symm]
  exact hs.continues (h _ _) (hrising _ _ (hs.rising _ List.mem_cons_self))

theorem writes_forM {xs : List α} {f : α → Build PUnit} (h : ∀ a ∈ xs, Writes J (f a)) :
    Writes J (xs.forM f) := by
  induction xs with
  | nil => exact inferInstanceAs (Writes J (pure PUnit.unit))
  | cons a xs ih =>
      exact (h a List.mem_cons_self).bind fun _ => ih fun b hb => h b (List.mem_cons_of_mem _ hb)

instance (xs : List α) (f : α → Build PUnit) [h : ∀ a, Writes J (f a)] : Writes J (xs.forM f) :=
  writes_forM fun a _ => h a

instance (c : Build Bool) (x : Build Unit) [Writes J c] [Writes J x] (bound : Nat) :
    Writes J (repeatWhile c x bound) := by
  induction bound with
  | zero => exact inferInstanceAs (Writes J (pure ()))
  | succ bound ih =>
      rw [repeatWhile]
      infer_instance

end Combinators

/-! ## Errors and tokens -/

instance (t : Token) (d : Defect) : Writes J (errorAt t d) :=
  ⟨inferInstance, fun h => absurd h Accepts.not_errorAt⟩

instance (d : Defect) : Writes J (error d) :=
  inferInstanceAs (Writes J (get >>= fun s => errorAt s.previous d))

instance (d : Defect) : Writes J (errorAtCurrent d) :=
  inferInstanceAs (Writes J (get >>= fun s => errorAt s.current d))

instance : Writes J advance := by
  refine ⟨inferInstance, fun {s s' _} h hs => ?_⟩
  have hclean := h.clean
  have heq := Accepts.of_modify h
  have hle : s.previous.line ≤ s.current.line := (List.pairwise_cons.mp hs.tokens).1 _ List.mem_cons_self
  have htail := (List.pairwise_cons.mp hs.tokens).2
  have hrising : ∀ b ∈ s.body :: s.outer, b.chunk.Rising s.current.line := fun b hb =>
    (hs.rising b hb).mono hle
  rw [heq] at hclean ⊢
  rcases pull_of_clean (s := { s with previous := s.current }) (h.sound.calm h.clean_start) hclean with
    ⟨heq', -⟩ | ⟨t, us, hus, heq'⟩
  · rw [heq']
    refine ⟨List.pairwise_cons.mpr ⟨fun t ht => ?_, List.pairwise_singleton _ _⟩, hs.cut, hs.jumps,
      hrising, hs.finished⟩
    exact Nat.le_of_eq (congrArg Token.line (List.mem_singleton.mp ht)).symm
  · rw [heq']
    rw [show s.upcoming = t :: us from hus] at htail
    exact ⟨htail, hs.cut, hs.jumps, hrising, hs.finished⟩

instance (kind : TokenKind) : Writes J (check kind) := by
  unfold check
  infer_instance

instance (kind : TokenKind) : Writes J (accept kind) := by
  unfold accept
  infer_instance

instance (e : Expectation) : Writes J (expect e) := by
  unfold expect
  infer_instance

instance : Writes J lastText := by
  unfold lastText
  infer_instance

instance (bound : Nat) : Writes J (synchronize bound) := by
  unfold synchronize
  have : Keeps (modify fun s : Builder => { s with panicking := false } : Build PUnit) :=
    keeps_modify (fun _ h => ⟨fun _ => rfl, h.proper, h.ends, h.fits, h.wired⟩) (fun _ _ => id)
      fun _ => Nat.le_refl _
  have : Writes J (modify fun s : Builder => { s with panicking := false } : Build PUnit) :=
    writes_of_text fun _ => rfl
  infer_instance

/-! ## Code -/

instance (op : Opcode) [h : op.Takes 0] : Writes J (emit op) :=
  have : Keeps (onChunk fun line c => ((), c.writeOp op line)) := keeps_onChunk fun _ _ h => h
  writes_onChunk (f := fun line c => ((), c.writeOp op line))
    (fun line _ => Chunk.continues_of_operation line [] h.ne h.size rfl rfl) fun _ _ hc => hc.write _

instance (op : Opcode) (n : Nat) [h : op.Takes 1] : Writes J (emitWith op n) :=
  have : Keeps (onChunk fun line c => ((), (c.writeOp op line).write n.toUInt8 line)) :=
    keeps_onChunk fun _ _ h => h
  writes_onChunk (f := fun line c => ((), (c.writeOp op line).write n.toUInt8 line))
    (fun line _ => Chunk.continues_of_operation line [n.toUInt8] h.ne h.size rfl rfl)
    fun _ _ hc => (hc.write _).write _

instance (op : Opcode) (n : Nat) (b : UInt8) [h : op.Takes 2] :
    Writes J (emitWith op n >>= fun _ => emitByte b) :=
  have : Keeps (onChunk fun line c => ((), ((c.writeOp op line).write n.toUInt8 line).write b line)) :=
    keeps_onChunk fun _ _ h => h
  writes_onChunk (f := fun line c => ((), ((c.writeOp op line).write n.toUInt8 line).write b line))
    (fun line _ => Chunk.continues_of_operation line [n.toUInt8, b] h.ne h.size rfl rfl)
    fun _ _ hc => ((hc.write _).write _).write _

instance : Writes J here := by
  unfold here
  infer_instance

theorem writes_emitJump {α : Type} {op : Opcode} {f : Nat → Build α} [hk : ∀ p, Keeps (f p)]
    (hop : op.IsJump) (htakes : op.Takes 2) (hf : ∀ p, Writes (p :: J) (f (p + 1))) :
    Writes J (emitJump op >>= f) := by
  refine ⟨inferInstance, fun {s s' a} h hs => ?_⟩
  obtain ⟨offset, s₁, h₁, h₂⟩ := h.bind
  obtain ⟨rfl, hwait⟩ := Accepts.of_emitJump h₁
  have hs₁ : s₁ = s.withChunk (s.body.chunk.writeJump op s.previous.line).2 :=
    (congrArg Prod.snd h₁.run).symm
  have hcontinues : s.body.chunk.Continues (s.body.chunk.writeJump op s.previous.line).2 :=
    Chunk.continues_of_operation s.previous.line [0xFF, 0xFF] htakes.ne htakes.size rfl rfl
  have hlined := hs.continues hcontinues
    ((((hs.rising _ List.mem_cons_self).write _).write _).write _)
  have hjump : s₁.body.chunk.JumpAt s.body.chunk.size := by
    refine ⟨?_, ⟨op, hop, ?_⟩, Nat.le_of_eq hwait.size.symm⟩
    · rw [hs₁]
      exact hcontinues.cut hs.cut _ hs.cut
    · rw [hwait.byte]
      exact Opcode.ofByte?_toByte op
  rw [← hs₁] at hlined
  refine ((hf s.body.chunk.size).lined h₂ ⟨hlined.tokens, hlined.cut, fun q hq => ?_, hlined.rising,
    hlined.finished⟩).weaken
  rcases List.mem_cons.mp hq with rfl | hq
  · exact hjump
  · exact hlined.jumps q hq

theorem writes_patchJump {p : Nat} (h : p ∈ J) : Writes J (patchJump (p + 1)) := by
  refine ⟨inferInstance, fun {s s' _} hx hs => ?_⟩
  have : Keeps (onChunk fun _ c => c.patchJump (p + 1)) :=
    keeps_onChunk fun _ c h => constants_patchJump c (p + 1) ▸ h
  obtain ⟨fits, s₁, h₁, h₂⟩ := hx.bind
  have hs₁ : s₁ = s.withChunk (s.body.chunk.patchJump (p + 1)).2 := (congrArg Prod.snd h₁.run).symm
  have hlined := hs.continues (hs.jumps p h).continues_patchJump
    ((hs.rising _ List.mem_cons_self).of_lines (Chunk.patchJump_lines _ _))
  exact Writes.lined h₂ (hs₁ ▸ hlined)

instance {α : Type} (f : Nat → Build α) [∀ p, Keeps (f p)] [hf : ∀ p, Writes (p :: J) (f (p + 1))] :
    Writes J (emitJump .jump >>= f) :=
  writes_emitJump trivial ⟨rfl, nofun⟩ hf

instance {α : Type} (f : Nat → Build α) [∀ p, Keeps (f p)] [hf : ∀ p, Writes (p :: J) (f (p + 1))] :
    Writes J (emitJump .jumpIfFalse >>= f) :=
  writes_emitJump trivial ⟨rfl, nofun⟩ hf

instance (p : Nat) : Writes (p :: J) (patchJump (p + 1)) :=
  writes_patchJump List.mem_cons_self

instance (p q : Nat) : Writes (q :: p :: J) (patchJump (p + 1)) :=
  writes_patchJump (List.mem_cons_of_mem _ List.mem_cons_self)

instance (start : Nat) : Writes J (emitLoop start) := by
  unfold emitLoop
  have : Keeps (onChunk fun line c => c.writeLoop start line) := keeps_onChunk fun _ _ h => h
  have : Writes J (onChunk fun line c => c.writeLoop start line) :=
    writes_onChunk (fun line c =>
        @Chunk.continues_of_operation c (c.writeLoop start line).2 .loop line [_, _] nofun rfl rfl rfl)
      fun _ _ hc => ((hc.write _).write _).write _
  infer_instance

section Operations

instance : Opcode.Takes .litNil 0 := ⟨rfl, nofun⟩
instance : Opcode.Takes .litTrue 0 := ⟨rfl, nofun⟩
instance : Opcode.Takes .litFalse 0 := ⟨rfl, nofun⟩
instance : Opcode.Takes .pop 0 := ⟨rfl, nofun⟩
instance : Opcode.Takes .ret 0 := ⟨rfl, nofun⟩
instance : Opcode.Takes .print 0 := ⟨rfl, nofun⟩
instance : Opcode.Takes .assert 0 := ⟨rfl, nofun⟩
instance : Opcode.Takes .not 0 := ⟨rfl, nofun⟩
instance : Opcode.Takes .negate 0 := ⟨rfl, nofun⟩
instance : Opcode.Takes .inherit 0 := ⟨rfl, nofun⟩
instance : Opcode.Takes .constant 1 := ⟨rfl, nofun⟩
instance : Opcode.Takes .getLocal 1 := ⟨rfl, nofun⟩
instance : Opcode.Takes .defineGlobal 1 := ⟨rfl, nofun⟩
instance : Opcode.Takes .getSuper 1 := ⟨rfl, nofun⟩
instance : Opcode.Takes .getProperty 1 := ⟨rfl, nofun⟩
instance : Opcode.Takes .setProperty 1 := ⟨rfl, nofun⟩
instance : Opcode.Takes .makeClass 1 := ⟨rfl, nofun⟩
instance : Opcode.Takes .method 1 := ⟨rfl, nofun⟩
instance : Opcode.Takes .call 1 := ⟨rfl, nofun⟩
instance : Opcode.Takes .invoke 2 := ⟨rfl, nofun⟩
instance : Opcode.Takes .superInvoke 2 := ⟨rfl, nofun⟩

instance (c : Prop) [Decidable c] : Opcode.Takes (if c then .closeUpvalue else .pop) 0 := by
  split <;> exact ⟨rfl, nofun⟩

instance (v : Variable) : Opcode.Takes v.getOp 1 := by
  cases v <;> exact ⟨rfl, nofun⟩

instance (v : Variable) : Opcode.Takes v.setOp 1 := by
  cases v <;> exact ⟨rfl, nofun⟩

end Operations

instance : Writes J emitReturn := by
  unfold emitReturn
  infer_instance

instance (v : Value) : Writes J (makeConstant v) := by
  unfold makeConstant
  have : Keeps (onChunk fun _ c => c.addConstant v) := keeps_onChunk fun _ _ h => size_addConstant h
  have hlines (c : Chunk) (i : Nat) : (c.addConstant v).2.line? i = c.line? i := by
    rw [Chunk.line?, Chunk.code_addConstant, Chunk.line?]
  refine Writes.bind (writes_onChunk (fun _ c => ?_) fun _ _ hc => hc.of_lines (hlines _)) fun index => ?_
  · exact Chunk.continues_of_code (Chunk.code_addConstant c v) (Chunk.agree_addConstant c v 0)
  · cases index <;> infer_instance

instance (v : Value) : Writes J (emitConstant v) := by
  unfold emitConstant
  infer_instance

instance (name : String) : Writes J (nameConstant name) :=
  inferInstanceAs (Writes J (makeConstant _))

/-! ## Variables -/

instance : Writes J inGlobalScope := by
  unfold inGlobalScope
  infer_instance

instance (name : String) : Writes J (addLocal name) := by
  unfold addLocal
  have := keeps_addLocal name
  have : Writes J (onBody fun b =>
      match b.addLocal? name with
      | some b => (false, b)
      | none => (true, b)) := by
    refine writes_onBody fun b => ?_
    rw [Body.addLocal?]
    split <;> rename_i h <;> split at h <;> cases h <;> rfl
  infer_instance

instance : Writes J declareVariable := by
  unfold declareVariable
  infer_instance

instance (e : Expectation) : Writes J (readVariable e) := by
  unfold readVariable
  infer_instance

instance : Writes J markInitialized := by
  unfold markInitialized
  have := keeps_markInitialized
  have : Writes J (onBody fun b => ((), b.markInitialized)) := by
    refine writes_onBody fun b => ?_
    rw [Body.markInitialized]
    split <;> rfl
  infer_instance

instance (global : Nat) : Writes J (defineVariable global) := by
  unfold defineVariable
  infer_instance

instance (name : String) : Writes J (resolveOutside name) := by
  refine writes_of_text fun s => ?_
  have h := Body.resolve_spec (rfl : Body.resolve name s.body s.outer = _)
  change (_, ((Body.resolve name s.body s.outer).2.1 :: (Body.resolve name s.body s.outer).2.2).map
    (·.chunk), _) = _
  rw [Body.GrowAll.map_chunk (.cons h.body h.around)]
  rfl

instance (name : String) : Writes J (resolve name) := by
  unfold resolve
  refine Writes.bind inferInstance fun s => ?_
  split
  · infer_instance
  · refine Writes.bind inferInstance fun r => ?_
    cases r <;> infer_instance

instance (name : String) : Writes J (readNamed name) := by
  unfold readNamed
  infer_instance

instance : Writes J beginScope :=
  writes_of_text fun _ => rfl

instance : Writes J endScope := by
  unfold endScope
  have : Writes J (onBody Body.leaveScope) := writes_onBody fun _ => rfl
  infer_instance

end Builder

/-! ## Expressions -/

namespace Expression

open Builder

variable {J : List Nat}

instance : Writes J number := by
  unfold number
  refine Writes.bind inferInstance fun text => ?_
  cases Number.ofLiteral? text <;> infer_instance

instance : Writes J string := by
  unfold string
  infer_instance

theorem takes_of_mem_operations {operator : TokenKind} {op : Opcode} (h : op ∈ operations operator) :
    op.Takes 0 := by
  have hop : Chunk.Operands.of op = .none := by
    cases operator <;> simp only [operations, List.not_mem_nil, List.mem_cons, or_false] at h <;>
      rcases h with rfl | rfl <;> rfl
  exact ⟨by rw [hop]; rfl, fun hclosure => by rw [hclosure] at hop; cases hop⟩

section Operands

variable (bound : Nat) (sub : Power → Build Unit) [∀ p, Keeps (sub p)] [∀ J p, Writes J (sub p)]

set_option synthInstance.maxSize 4096

omit [∀ p, Keeps (sub p)] in
instance : Writes J (expression sub) :=
  inferInstanceAs (Writes J (sub .assignment))

instance (name : String) (canAssign : Bool) : Writes J (named sub name canAssign) := by
  unfold named
  infer_instance

instance : Writes J (grouping sub) := by
  unfold grouping
  infer_instance

instance (op : Opcode) [op.Takes 0] : Writes J (unary sub op) := by
  unfold unary
  infer_instance

instance (count : Nat) : Writes J (argumentsFrom sub bound count) := by
  induction bound generalizing count with
  | zero => exact inferInstanceAs (Writes J (pure count))
  | succ bound ih =>
      rw [argumentsFrom]
      infer_instance

instance : Writes J (arguments bound sub) := by
  unfold arguments
  infer_instance

instance : Writes J this := by
  unfold this
  infer_instance

instance : Writes J (super bound sub) := by
  unfold super
  refine Writes.bind inferInstance fun s => ?_
  cases s.classes.head? <;> dsimp only <;> infer_instance

omit [∀ p, Keeps (sub p)] in
theorem writes_opening {canAssign : Bool} {kind : TokenKind} {x : Build Unit}
    (h : opening bound sub canAssign kind = some x) : Writes J x := by
  cases kind <;> simp only [opening, literal, Option.some.injEq, reduceCtorEq] at h <;>
    subst h <;> infer_instance

omit [∀ p, Keeps (sub p)] in
instance (operator : TokenKind) : Writes J (binary sub operator) := by
  unfold binary
  refine Writes.bind inferInstance fun _ => writes_forM fun op hop => ?_
  have : op.Takes 0 := takes_of_mem_operations hop
  infer_instance

instance : Writes J (call bound sub) := by
  unfold call
  infer_instance

instance (canAssign : Bool) : Writes J (property bound sub canAssign) := by
  unfold property
  infer_instance

instance : Writes J (and sub) := by
  unfold and
  infer_instance

instance : Writes J (or sub) := by
  unfold or
  infer_instance

instance (canAssign : Bool) (operator : TokenKind) :
    Writes J (continuation bound sub canAssign operator) := by
  cases operator <;> dsimp only [continuation] <;> infer_instance

instance (least : Power) : Writes J (rule bound sub least) := by
  unfold rule
  refine Writes.bind inferInstance fun _ => ?_
  refine Writes.bind inferInstance fun s => ?_
  split
  · infer_instance
  · have := writes_opening (J := J) bound sub (by assumption)
    infer_instance

end Operands

instance (n : Nat) (least : Power) : Writes J (within n least) := by
  induction n generalizing J least with
  | zero => exact inferInstanceAs (Writes J (pure ()))
  | succ n ih => exact inferInstanceAs (Writes J (rule n (within n) least))

instance (bound : Nat) (least : Power) : Writes J (parse bound least) :=
  inferInstanceAs (Writes J (within (bound + 1) least))

end Expression

/-! ## Statements -/

namespace Statement

open Builder

variable {J : List Nat} (parts : Parts)

instance : Writes J insideBraces := by
  unfold insideBraces
  infer_instance

instance (name : Option String) :
    Writes J (modify fun s : Builder => { s with initializing := name } : Build PUnit) :=
  writes_of_text fun _ => rfl

instance (f : Builder → List Bool) :
    Writes J (modify fun s : Builder => { s with classes := f s } : Build PUnit) :=
  writes_of_text fun _ => rfl

set_option synthInstance.maxSize 4096

section Expressions

variable [Keeps parts.expression] [∀ J, Writes J parts.expression]

omit [Keeps parts.expression] in
instance : Writes J (printStatement parts) := by
  unfold printStatement
  infer_instance

omit [Keeps parts.expression] in
instance : Writes J (assertStatement parts) := by
  unfold assertStatement
  infer_instance

omit [Keeps parts.expression] in
instance : Writes J (expressionStatement parts) := by
  unfold expressionStatement
  infer_instance

omit [Keeps parts.expression] in
instance : Writes J (returnStatement parts) := by
  unfold returnStatement
  dsimp only
  infer_instance

omit [Keeps parts.expression] in
instance : Writes J (variableDeclaration parts) := by
  unfold variableDeclaration
  infer_instance

omit [Keeps parts.expression] in
instance : Writes J (forInitializer parts) := by
  unfold forInitializer
  infer_instance

omit [Keeps parts.expression] in
/-- The jump out of a loop does not lead anywhere until the loop ends. -/
theorem writes_forCondition {f : Option Nat → Build Unit} [∀ exit, Keeps (f exit)]
    (hnone : Writes J (f none)) (hsome : ∀ p, Writes (p :: J) (f (some (p + 1)))) :
    Writes J (forCondition parts >>= f) := by
  unfold forCondition
  simp only [bind_assoc]
  refine Writes.bind inferInstance fun done => ?_
  cases done
  · simp only [Bool.false_eq_true, if_false, bind_assoc, pure_bind]
    infer_instance
  · simp only [if_true, pure_bind]
    infer_instance

instance (start : Nat) : Writes J (forIncrement parts start) := by
  unfold forIncrement
  infer_instance

variable [Keeps parts.statement] [∀ J, Writes J parts.statement]

instance : Writes J (ifStatement parts) := by
  unfold ifStatement
  dsimp only
  refine Writes.bind inferInstance fun _ => ?_
  refine Writes.bind inferInstance fun _ => ?_
  refine Writes.bind inferInstance fun _ => ?_
  refine writes_emitJump trivial ⟨rfl, nofun⟩ fun thenJump => ?_
  refine Writes.bind inferInstance fun _ => ?_
  refine Writes.bind inferInstance fun _ => ?_
  refine writes_emitJump trivial ⟨rfl, nofun⟩ fun elseJump => ?_
  infer_instance

instance : Writes J (whileStatement parts) := by
  unfold whileStatement
  infer_instance

instance : Writes J (forStatement parts) := by
  unfold forStatement
  refine Writes.bind inferInstance fun _ => ?_
  refine Writes.bind inferInstance fun _ => ?_
  refine Writes.bind inferInstance fun _ => ?_
  refine Writes.bind inferInstance fun start => ?_
  have (exitJump : Option Nat) : Keeps (do
      match exitJump with
      | none => pure ()
      | some exitJump =>
        patchJump exitJump
        emit .pop
      endScope) := by
    cases exitJump <;> dsimp only <;> infer_instance
  refine writes_forCondition parts ?_ fun p => ?_ <;> dsimp only <;> infer_instance

end Expressions

/-! ## Functions -/

section Declarations

variable [Balanced parts.declaration] [Keeps parts.declaration] [∀ J, Writes J parts.declaration]

omit [Balanced parts.declaration] [Keeps parts.declaration] in
instance : Writes J (block parts) := by
  unfold block
  infer_instance

omit [Balanced parts.declaration] [Keeps parts.declaration] in
instance : Writes J (blockStatement parts) := by
  unfold blockStatement
  infer_instance

instance : Writes J parameter := by
  unfold parameter
  have : Keeps (onBody fun b => ((), { b with arity := b.arity + 1 })) :=
    keeps_onBody (fun _ h => ⟨h.locals, h.captures, h.constants⟩) fun _ => rfl
  have : Writes J (onBody fun b => ((), { b with arity := b.arity + 1 })) :=
    writes_onBody fun _ => rfl
  infer_instance

omit [Balanced parts.declaration] [Keeps parts.declaration] [∀ J, Writes J parts.declaration] in
instance : Writes J (parameters parts) := by
  unfold parameters
  infer_instance

/-- The bytes for the captures of a closure. -/
theorem captures_run (cs : List Capture) (s : Builder) : ∃ bytes : List UInt8,
    bytes.length = 2 * cs.length ∧ (cs.forM emitCapture s).2 = s.withChunk { s.body.chunk with
      code := s.body.chunk.code ++ (bytes.map (·, s.previous.line)).toArray } := by
  induction cs generalizing s with
  | nil =>
      refine ⟨[], rfl, ?_⟩
      rw [List.map_nil, Array.append_empty]
      rfl
  | cons c cs ih =>
      obtain ⟨bytes, hlength, hrun⟩ := ih (emitCapture c s).2
      refine ⟨(if c.fromLocal then 1 else 0) :: c.index.toUInt8 :: bytes, ?_, ?_⟩
      · simp only [List.length_cons, hlength]
        omega
      · have hfirst : (emitCapture c s).2 = s.withChunk ((s.body.chunk.write
            (if c.fromLocal then 1 else 0) s.previous.line).write c.index.toUInt8 s.previous.line) := rfl
        change (cs.forM emitCapture (emitCapture c s).2).2 = _
        rw [hrun, hfirst]
        simp only [withChunk, Chunk.write, List.map_cons, ← Array.toList_inj, Builder.mk.injEq,
          Body.mk.injEq, Chunk.mk.injEq]
        simp

/-- A closure is as long as its captures take. -/
theorem lined_closure {f : Function} {cs : Array Capture} {s s' : Builder} {u : Unit}
    (h : Accepts (do
      emitWith .closure (← makeConstant (.function f))
      cs.forM Statement.emitCapture) s u s')
    (hcount : f.captures = cs.size) (hs : Lined J s) : Lined J s' := by
  obtain ⟨k, s₁, h₁, hrun⟩ := h.bind
  obtain ⟨_, s₂, h₂, h₃⟩ := hrun.bind
  have hs₁ := Writes.lined h₁ hs
  have hs₂ : s₂ = s₁.withChunk ((s₁.body.chunk.writeOp .closure s₁.previous.line).write k.toUInt8
      s₁.previous.line) := (congrArg Prod.snd h₂.run).symm
  obtain ⟨bytes, hlength, hcaptures⟩ := captures_run cs.toList s₂
  have hs' : s' = s₁.withChunk s'.body.chunk ∧ s'.body.chunk.constants = s₁.body.chunk.constants ∧
      s'.body.chunk.code = s₁.body.chunk.code ++
        ((Opcode.closure.toByte :: k.toUInt8 :: bytes).map (·, s₁.previous.line)).toArray := by
    have heq : s' = (cs.toList.forM emitCapture s₂).2 := by
      refine (congrArg Prod.snd h₃.run).symm.trans ?_
      cases cs
      simp
    rw [hcaptures, hs₂] at heq
    subst heq
    refine ⟨rfl, rfl, ?_⟩
    rw [← Array.toList_inj]
    simp [withChunk, Chunk.write, Chunk.writeOp]
  obtain ⟨heq, hconstants, hcode⟩ := hs'
  have hbyte (i : Nat) := Chunk.getElem?_of_written hcode (s₁.body.chunk.size + i)
  have hconstant : s'.body.chunk.constantAt? (s₁.body.chunk.size + 1) = some (.function f) := by
    refine Accepts.constantAt?_of_byte ?_ (Accepts.constant_lt h₂.sound (Accepts.of_makeConstant h₁).constant)
      (hconstants ▸ (Accepts.of_makeConstant h₁).constant)
    rw [Chunk.byte?, hbyte, if_neg (by omega), Nat.add_sub_cancel_left]
    rfl
  have hop : (s'.body.chunk.byte? s₁.body.chunk.size).bind Opcode.ofByte? = some .closure := by
    rw [Chunk.byte?, ← Nat.add_zero s₁.body.chunk.size, hbyte, if_neg (by omega),
      Nat.add_sub_cancel_left]
    exact Opcode.ofByte?_toByte .closure
  rw [heq]
  refine hs₁.continues (Chunk.continues_of_written hcode hconstants ?_ fun _ => ⟨f, hconstant⟩)
    ((hs₁.rising _ List.mem_cons_self).written hcode)
  rw [Chunk.instructionLength, hop]
  change 2 + 2 * s'.body.chunk.capturesAt (s₁.body.chunk.size + 1) = _
  rw [Chunk.capturesAt_of_constantAt? hconstant, hcount, List.length_cons, hlength,
    Array.length_toList]
  omega

instance (kind : BodyKind) : Writes J (function parts kind) := by
  refine ⟨inferInstance, fun {s s' _} h hs => ?_⟩
  obtain ⟨text, s₀, h₀, hrun⟩ := h.bind
  obtain ⟨_, s₁, h₁, hrun⟩ := hrun.bind
  obtain ⟨_, s₂, h₂, hrun⟩ := hrun.bind
  obtain ⟨_, s₃, h₃, hrun⟩ := hrun.bind
  obtain ⟨_, s₄, h₄, hrun⟩ := hrun.bind
  obtain ⟨_, s₅, h₅, hrun⟩ := hrun.bind
  obtain ⟨_, s₆, h₆, hrun⟩ := hrun.bind
  obtain ⟨r, s₇, h₇, hcont⟩ := hrun.bind
  obtain ⟨hs₀, rfl⟩ := Accepts.of_lastText h₀
  subst s₀
  have hs₁ : s₁ = { s with body := Body.new kind s.previous.text, outer := s.body :: s.outer } :=
    Accepts.of_modify h₁
  have hopened : Lined [] s₁ := by
    rw [hs₁]
    refine ⟨hs.tokens, .start, nofun, fun b hb => ?_, hs.finished⟩
    rcases List.mem_cons.mp hb with rfl | hb
    · exact Chunk.rising_empty _
    · exact hs.rising b hb
  have hinner : Lined [] s₆ := Writes.lined h₆ (Writes.lined h₅ (Writes.lined h₄ (Writes.lined h₃
    (Writes.lined h₂ hopened))))
  have hgrow : Body.GrowAll (s.body :: s.outer) s₆.outer := by
    have hs₂ : s₂.outer = s.body :: s.outer := by
      rw [Accepts.of_beginScope h₂, hs₁]
      rfl
    exact hs₂ ▸ (h₃.nests.trans (h₄.nests.trans (h₅.nests.trans h₆.nests))).around
  obtain ⟨b, outer, hb, houter, ho⟩ := List.forall₂_cons_left_iff.mp hgrow
  obtain ⟨rfl, hs₇⟩ := Accepts.of_closeBody h₇ ho
  refine lined_closure hcont rfl ?_
  rw [hs₇]
  have hchunk : b.chunk = s.body.chunk := hb.chunk
  refine ⟨hinner.tokens, hchunk ▸ hs.cut, fun p hp => hchunk ▸ hs.jumps p hp, fun b' hb' => ?_,
    fun r hr => ?_⟩
  · exact hinner.rising b' (List.mem_cons_of_mem _ (ho ▸ hb'))
  · rcases Array.mem_push.mp hr with hr | rfl
    · exact hinner.finished r hr
    · exact ⟨hinner.cut, (hinner.rising _ List.mem_cons_self).ascending⟩

instance : Writes J (functionDeclaration parts) := by
  unfold functionDeclaration
  infer_instance

instance : Writes J (method parts) := by
  unfold method
  infer_instance

instance (name : String) : Writes J (superclass name) := by
  unfold superclass
  infer_instance

instance (name : String) : Writes J (members parts name) := by
  unfold members
  dsimp only
  infer_instance

instance : Writes J (classDeclaration parts) := by
  rw [classDeclaration_eq]
  infer_instance

end Declarations

section Rules

variable [Keeps parts.expression] [∀ J, Writes J parts.expression]
  [Keeps parts.statement] [∀ J, Writes J parts.statement]
  [Balanced parts.declaration] [Keeps parts.declaration] [∀ J, Writes J parts.declaration]

instance : Writes J (statementRule parts) := by
  unfold statementRule
  infer_instance

instance : Writes J (declarationRule parts) := by
  unfold declarationRule
  infer_instance

end Rules

theorem writes_within (n : Nat) : (∀ J, Writes J (statement n)) ∧ ∀ J, Writes J (declaration n) := by
  induction n with
  | zero =>
      exact ⟨fun J => inferInstanceAs (Writes J (pure ())), fun J => inferInstanceAs (Writes J (pure ()))⟩
  | succ n ih =>
      obtain ⟨_, _⟩ := ih
      simp only [statement, declaration]
      exact ⟨fun J => inferInstance, fun J => inferInstance⟩

instance (n : Nat) : Writes J (declaration n) :=
  (writes_within n).2 J

end Statement

/-! ## Programs -/

namespace Program

open Builder

theorem lined_first {firstIndex : Nat} {tokens : List Token}
    (htokens : (∀ t ∈ tokens, 1 ≤ t.line) ∧ tokens.Pairwise (·.line ≤ ·.line))
    (h : ((start firstIndex []).pull tokens).errors = #[]) :
    Lined [] ((start firstIndex []).pull tokens) := by
  have hlined {t : Token} {us : List Token} (hus : (t :: us).Pairwise (·.line ≤ ·.line))
      (hfirst : ∀ u ∈ t :: us, 1 ≤ u.line) :
      Lined [] { start firstIndex [] with current := t, upcoming := us } := by
    refine ⟨List.pairwise_cons.mpr ⟨hfirst, hus⟩, .start, nofun, fun b hb => ?_, fun r hr => ?_⟩
    · rw [List.mem_singleton.mp hb]
      exact Chunk.rising_empty _
    · exact absurd hr (Array.not_mem_empty r)
  rcases pull_of_clean rfl h with ⟨heq, -⟩ | ⟨t, us, rfl, heq⟩
  · rw [heq]
    exact hlined (List.pairwise_singleton _ _) fun u hu => by
      rw [List.mem_singleton.mp hu]
      exact Nat.le_refl 1
  · rw [heq]
    exact hlined htokens.2 htokens.1

/-- The functions of a text that is accepted are of whole instructions, each of one line, and their
lines never decrease. -/
theorem compile_lined {firstIndex : Nat} {source : String} {p : Program}
    (h : compile firstIndex source = .ok p) : ∀ r ∈ p.routines, r.code.Lined := by
  obtain ⟨hproper, hends⟩ := Scanner.tokens_spec (Scanner.ofString source)
  have htokens := Scanner.lines_tokens (Scanner.ofString source)
  rw [compile, ofTokens, script_run] at h
  obtain ⟨hclean, rfl⟩ := conclude_ok h
  have : Keeps (declarations (Scanner.ofString source).tokens.length) := by
    unfold declarations
    infer_instance
  have : Writes [] (declarations (Scanner.ofString source).tokens.length) := by
    unfold declarations
    infer_instance
  have hacc : Accepts (declarations (Scanner.ofString source).tokens.length)
      ((start firstIndex []).pull (Scanner.ofString source).tokens) () _ :=
    ⟨sound_first hproper hends, rfl, hclean⟩
  have hlined := Writes.lined hacc (lined_first htokens hacc.clean_start)
  intro r hr
  rcases Array.mem_push.mp hr with hr | rfl
  · exact hlined.finished r hr
  · exact ⟨hlined.cut, (hlined.rising _ List.mem_cons_self).ascending⟩

end Program

end LoxMachine
