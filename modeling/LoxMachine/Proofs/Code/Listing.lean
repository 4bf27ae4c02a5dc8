import Mathlib
import LoxMachine.Proofs.Code.Instruction
import LoxMachine.Proofs.Machine.Quiet
import LoxMachine.Proofs.Machine.Success

/-!
# Listings follow the machine

A listing finds the end of an instruction from a table of operands, the machine by reading operands
one after the other. The two agree on any bytes: an action that reads operands moves the running
frame as many bytes on as it reads (`Advances`), an action that may enter a call leaves that frame
below the new one (`Passes`), and the jumps end at the address that the listing shows.

Main statement: `listing_follows_step`.
-/

namespace LoxMachine

open Machine

namespace Chunk

/-- The line of a listing for a jump at an offset, with the text of its address. -/
def jumpText (c : Chunk) (op : Opcode) (offset : Nat) (address : String) : String :=
  hex 4 offset ++ " " ++ c.lineMark offset ++ " " ++
    (op.name ++ " " ++ hex 4 offset ++ " -> " ++ address)

theorem jumpText_injective {c : Chunk} {op : Opcode} {offset : Nat} {a b : String}
    (h : c.jumpText op offset a = c.jumpText op offset b) : a = b := by
  simpa [jumpText] using h

/-- The digits of an address begin with a zero, so they are not the text for a missing one. -/
theorem hex_ne_invalid (width n : Nat) : hex width n ≠ "(invalid)" := by
  intro h
  have := congrArg (·.toList.head?) h
  simp [hex] at this

section Text

variable {c : Chunk} {p d : Nat} {op : Opcode}

theorem instructionLength_eq (h : (c.byte? p).bind Opcode.ofByte? = some op) :
    c.instructionLength p =
      match Operands.of op with
      | .none => 1
      | .constant | .byte => 2
      | .distance _ | .invocation => 3
      | .closure => 2 + 2 * c.capturesAt (p + 1) := by
  cases op <;> simp only [instructionLength, h, Operands.of]

/-- The line for a complete jump. -/
theorem instructionAt_jump {backwards : Bool}
    (hop : (c.byte? p).bind Opcode.ofByte? = some op) (hkind : Operands.of op = .distance backwards)
    (hd : c.pair? (p + 1) = some d) :
    c.instructionAt p = c.jumpText op p ((target? backwards p d).elim "(invalid)" (hex 4)) := by
  obtain ⟨b, hb, hop⟩ := Option.bind_eq_some_iff.mp hop
  simp only [instructionAt, hb, hop, operation, hkind, hd, jumpText]

theorem instructionAt_eq_jumpText {backwards : Bool} {target : Nat}
    (hop : (c.byte? p).bind Opcode.ofByte? = some op) (hkind : Operands.of op = .distance backwards)
    (hd : c.pair? (p + 1) = some d) (htarget : target? backwards p d = some target) :
    c.instructionAt p = c.jumpText op p (hex 4 target) := by
  rw [instructionAt_jump hop hkind hd, htarget, Option.elim_some]

theorem target?_forward (p d : Nat) : target? false p d = some (p + 1 + 2 + d) := rfl

theorem target?_backward (h : d ≤ p + 1 + 2) : target? true p d = some (p + 1 + 2 - d) :=
  if_pos h

end Text

end Chunk

namespace Machine

/-! ## Reading operands -/

/-- An action that, where it succeeds, moves the running frame `n` bytes on and leaves the others. -/
def Advances {α : Type} (n : Nat) (x : Action α) : Prop :=
  ∀ (m m' : Machine) (f : Frame) (fs : List Frame) (a : α), m.frames = f :: fs → x m = .ok a m' →
    m'.frames = { f with ip := f.ip + n } :: fs ∧ m'.store.chunks = m.store.chunks

/-- The same for an action that may enter calls, whose frames are then above that frame. -/
def Passes {α : Type} (n : Nat) (x : Action α) : Prop :=
  ∀ (m m' : Machine) (f : Frame) (fs : List Frame) (a : α), m.frames = f :: fs → x m = .ok a m' →
    ∃ above, m'.frames = above ++ { f with ip := f.ip + n } :: fs

variable {α β : Type} {n k : Nat}

theorem Quiet.advances {x : Action α} (h : Quiet x) : Advances 0 x := fun _ _ _ _ _ hframes hx =>
  ⟨(h.beside hx).frames.trans hframes, (h.beside hx).chunks⟩

theorem Advances.bind {x : Action α} {g : α → Action β} (hx : Advances n x)
    (hg : ∀ a, Advances k (g a)) : Advances (n + k) (x >>= g) := by
  intro m m'' f fs b hframes hrun
  obtain ⟨a, m', h, hrun⟩ := bind_eq_ok.mp hrun
  obtain ⟨hframes', hchunks⟩ := hx m m' f fs a hframes h
  obtain ⟨hframes'', hchunks'⟩ := hg a m' m'' _ fs b hframes' hrun
  rw [Nat.add_assoc] at hframes''
  exact ⟨hframes'', hchunks'.trans hchunks⟩

theorem Advances.behind {x : Action α} {g : α → Action β} (hx : Quiet x) (hg : ∀ a, Advances n (g a)) :
    Advances n (x >>= g) := by
  rw [← Nat.zero_add n]
  exact hx.advances.bind hg

theorem Advances.passes {x : Action α} (h : Advances n x) : Passes n x :=
  fun m m' f fs a hframes hx => ⟨[], (h m m' f fs a hframes hx).1⟩

theorem Advances.bind_passes {x : Action α} {g : α → Action β} (hx : Advances n x)
    (hg : ∀ a, Passes k (g a)) : Passes (n + k) (x >>= g) := by
  intro m m'' f fs b hframes hrun
  obtain ⟨a, m', h, hrun⟩ := bind_eq_ok.mp hrun
  obtain ⟨above, hframes''⟩ := hg a m' m'' _ fs b (hx m m' f fs a hframes h).1 hrun
  rw [Nat.add_assoc] at hframes''
  exact ⟨above, hframes''⟩

theorem Passes.behind {x : Action α} {g : α → Action β} (hx : Quiet x) (hg : ∀ a, Passes n (g a)) :
    Passes n (x >>= g) := by
  rw [← Nat.zero_add n]
  exact hx.advances.bind_passes hg

section Reading

variable {m m' : Machine} {f : Frame} {fs : List Frame}

theorem readByte_eq_ok {b : UInt8} (h : m.frames = f :: fs) (hrun : readByte m = .ok b m') :
    (m.store.chunk f.closure.function).byte? f.ip = some b ∧ m' = m.goto (f.ip + 1) := by
  cases hb : (m.store.chunk f.closure.function).byte? f.ip with
  | none => simp [readByte, h, hb] at hrun
  | some b' =>
      have hread := readByte_goto h hb
      rw [goto_ip h, hrun] at hread
      cases hread
      exact ⟨rfl, rfl⟩

theorem advances_readByte : Advances 1 readByte := by
  intro m m' f fs b h hrun
  obtain ⟨-, rfl⟩ := readByte_eq_ok h hrun
  exact ⟨frames_goto m _ h, rfl⟩

theorem advances_readConstant : Advances 1 readConstant :=
  advances_readByte.bind fun _ => (Quiet.frame.bind fun _ => .get_bind fun _ => .orViolate _ _).advances

theorem advances_readName : Advances 1 readName :=
  advances_readConstant.bind fun v => Quiet.advances <| by
    cases v <;> first | exact .pure _ | exact .violate _

theorem advances_readLocal : Advances 1 readLocal :=
  advances_readByte.bind fun _ => (Quiet.frame.bind fun _ => .pure _).advances

theorem advances_readCell : Advances 1 readCell :=
  advances_readByte.bind fun _ => (Quiet.frame.bind fun _ => .orViolate _ _).advances

theorem advances_capture (slot : Nat) : Advances 0 (capture slot) := by
  intro m m' f fs cell h hrun
  rw [capture_apply] at hrun
  cases hrun
  exact ⟨(frames_captured m slot).trans h, chunks_captured m slot⟩

theorem advances_readCaptures (n : Nat) (cells : Array Nat) :
    Advances (2 * n) (readCaptures n cells) := by
  induction n generalizing cells with
  | zero => exact (Quiet.pure _).advances
  | succ n ih =>
      rw [show 2 * (n + 1) = 1 + (1 + (0 + (0 + 2 * n))) by omega]
      refine advances_readByte.bind fun source => advances_readByte.bind fun index =>
        Quiet.frame.advances.bind fun f => ?_
      split
      · exact (advances_capture _).bind fun _ => ih _
      · exact (Quiet.orViolate _ _).advances.bind fun _ => ih _

/-- A closure is followed by the captures of its function. -/
theorem makeClosure_frames (h : m.frames = f :: fs) {u : Unit} (hrun : makeClosure m = .ok u m') :
    m'.frames = { f with
      ip := f.ip + 1 + 2 * (m.store.chunk f.closure.function).capturesAt f.ip } :: fs := by
  obtain ⟨v, m₁, hread, hrun⟩ := bind_eq_ok.mp hrun
  have hconstant : (m.store.chunk f.closure.function).constantAt? f.ip = some v := by
    obtain ⟨b, m₂, hb, hrest⟩ := bind_eq_ok.mp hread
    obtain ⟨hbyte, rfl⟩ := readByte_eq_ok h hb
    obtain ⟨g, m₃, hframe, hrest⟩ := bind_eq_ok.mp hrest
    rw [frame_goto h] at hframe
    cases hframe
    obtain ⟨_, _, ⟨⟩, hrest⟩ := bind_eq_ok.mp hrest
    exact Option.bind_eq_some_iff.mpr ⟨b, hbyte, (orViolate_eq_ok hrest).1⟩
  obtain ⟨hframes₁, -⟩ := advances_readConstant m m₁ f fs v h hread
  cases v with
  | function g =>
      have hcaptures : (m.store.chunk f.closure.function).capturesAt f.ip = g.captures := by
        rw [Chunk.capturesAt, show ((m.store.chunk f.closure.function).byte? f.ip).bind
          (m.store.chunk f.closure.function).constant? = some (.function g) from hconstant]
      have hrest (cells : Array Nat) : Quiet (make (·.newClosure g cells) >>= fun c => push (.closure c)) :=
        (Quiet.make (fun _ => rfl) fun _ => rfl).bind fun _ => .push _
      rw [hcaptures]
      exact ((advances_readCaptures g.captures #[]).bind fun cells => (hrest cells).advances)
        m₁ m' _ fs u hframes₁ hrun |>.1
  | _ => cases hrun

end Reading

/-! ## Calls -/

theorem passes_call (c : Closure) (count : Nat) : Passes 0 (call c count) := by
  have henter (base : Nat) : Passes 0 (get >>= fun m =>
      if m.frames.length < maxFrames then
        modify fun m => { m with frames := ⟨c, 0, base⟩ :: m.frames }
      else fail .stackOverflow) := by
    intro m m' f fs u h hrun
    obtain ⟨_, _, ⟨⟩, hrun⟩ := bind_eq_ok.mp hrun
    split at hrun
    · cases hrun
      exact ⟨[_], congrArg (_ :: ·) h⟩
    · cases hrun
  rw [call]
  split
  · exact .behind (.fail _) fun _ => .behind (.slotBelow count) henter
  · exact .behind (.slotBelow count) henter

theorem passes_callValue (callee : Value) (count : Nat) : Passes 0 (callValue callee count) := by
  refine .behind (.slotBelow count) fun slot => ?_
  cases callee with
  | closure c => exact passes_call c count
  | bound _ receiver method =>
      exact .behind (.writeSlot slot receiver) fun _ => passes_call method count
  | cls c =>
      refine .behind (.make (fun _ => rfl) fun _ => rfl) fun o =>
        .behind (.writeSlot slot _) fun _ => .behind .get fun m => ?_
      cases m.store.method? c initName with
      | some method => exact passes_call method count
      | none => exact (Quiet.ite (.fail _) (.pure _)).advances.passes
  | native n => exact (Quiet.callNative n slot).advances.passes
  | _ => exact (Quiet.fail _).advances.passes

theorem passes_invokeFrom (c : Class) (name : String) (count : Nat) :
    Passes 0 (invokeFrom c name count) :=
  .behind (.method c name) fun method => passes_call method count

theorem passes_invoke (name : String) (count : Nat) : Passes 0 (invoke name count) := by
  refine .behind (.peek count) fun receiver => ?_
  cases receiver with
  | object o =>
      refine .behind .get fun m => ?_
      cases m.store.field? o name with
      | some v =>
          exact .behind (.slotBelow count) fun slot =>
            .behind (.writeSlot slot v) fun _ => passes_callValue v count
      | none => exact passes_invokeFrom o.cls name count
  | _ => exact (Quiet.fail _).advances.passes

/-! ## The other instructions -/

theorem advances_getUpvalue : Advances 1 getUpvalue :=
  advances_readCell.bind fun cell => Quiet.advances <| .get_bind fun m => by
    split
    · exact .push _
    · exact (Quiet.readSlot _).bind fun _ => .push _
    · exact .violate _

theorem advances_setUpvalue : Advances 1 setUpvalue := by
  refine advances_readCell.bind (k := 0) fun cell =>
    .behind (.peek 0) fun v => .behind .get fun m => ?_
  split
  · intro m m' f fs u h hrun
    cases hrun
    exact ⟨h, rfl⟩
  · exact (Quiet.writeSlot _ _).advances
  · exact (Quiet.violate _).advances

/-- Closing cells changes neither frames nor code. -/
theorem advances_closeUpvalue : Advances 0 closeUpvalue := by
  refine .behind (.slotBelow 0) fun top => Advances.bind (n := 0) (fun m m' f fs u h hrun => ?_)
    fun _ => (Quiet.pop.bind fun _ => .pure _).advances
  obtain ⟨-, rfl⟩ := closeFrom_eq_ok hrun rfl
  refine ⟨h, ?_⟩
  change (closeCells m.stack _ m.store).chunks = m.store.chunks
  rw [closeCells_eq]

theorem advances_getProperty : Advances 1 getProperty := by
  refine .behind (.peek 0) fun receiver => ?_
  cases receiver with
  | object o =>
      refine advances_readName.bind fun name => Quiet.advances <| .get_bind fun m => ?_
      cases m.store.field? o name with
      | some v => exact Quiet.pop.bind fun _ => .push v
      | none => exact .bindMethod o.cls name
  | _ => exact fun _ _ _ _ _ _ hrun => by cases hrun

theorem advances_setProperty : Advances 1 setProperty := by
  refine .behind (.peek 1) fun receiver => ?_
  cases receiver with
  | object o =>
      refine advances_readName.bind fun name => (Quiet.pop.bind fun v => ?_).advances
      have hset : Quiet (changeStore (·.setField o name v)) :=
        .changeStore (fun _ => rfl) fun _ => rfl
      exact hset.bind fun _ => Quiet.pop.bind fun _ => .push v
  | _ => exact fun _ _ _ _ _ _ hrun => by cases hrun

theorem advances_defineMethod : Advances 1 defineMethod :=
  advances_readName.bind fun name => Quiet.advances <| Quiet.pop.bind fun v => by
    cases v with
    | closure c =>
        refine (Quiet.peek 0).bind fun w => ?_
        cases w with
        | cls k => exact .changeStore (fun _ => rfl) fun _ => rfl
        | _ => exact .violate _
    | _ => exact .violate _

end Machine

/-! ## Instructions -/

/-- Operations that go on at an address of their own, not behind their operands. -/
def Opcode.IsJump : Opcode → Prop
  | .jump | .jumpIfFalse | .loop => True
  | _ => False

/-- What the operands of an operation take, those of closures apart. -/
def Chunk.Operands.size : Chunk.Operands → Nat
  | .none | .closure => 0
  | .constant | .byte => 1
  | .distance _ | .invocation => 2

theorem passes_execute {op : Opcode} (hjump : ¬op.IsJump) (hclosure : op ≠ .closure) (hret : op ≠ .ret) :
    Passes (Chunk.Operands.of op).size (execute op) := by
  cases op with
  | constant => exact (advances_readConstant.bind fun v => (Quiet.push v).advances).passes
  | litNil | litTrue | litFalse => exact (Quiet.push _).advances.passes
  | pop => exact (Quiet.pop.bind fun _ => .pure _).advances.passes
  | getLocal =>
      exact (advances_readLocal.bind fun slot =>
        ((Quiet.readSlot slot).bind fun v => .push v).advances).passes
  | setLocal =>
      exact (advances_readLocal.bind fun slot =>
        ((Quiet.peek 0).bind fun v => .writeSlot slot v).advances).passes
  | getGlobal => exact (advances_readName.bind fun name => (Quiet.getGlobal name).advances).passes
  | defineGlobal => exact (advances_readName.bind fun name => (Quiet.defineGlobal name).advances).passes
  | setGlobal => exact (advances_readName.bind fun name => (Quiet.setGlobal name).advances).passes
  | getUpvalue => exact advances_getUpvalue.passes
  | setUpvalue => exact advances_setUpvalue.passes
  | getProperty => exact advances_getProperty.passes
  | setProperty => exact advances_setProperty.passes
  | getSuper =>
      exact (advances_readName.bind fun name =>
        (Quiet.popClass.bind fun c => .bindMethod c name).advances).passes
  | equal => exact (Quiet.pop.bind fun _ => Quiet.pop.bind fun _ => .push _).advances.passes
  | greater | less | subtract | multiply | divide => exact (Quiet.binary _).advances.passes
  | add => exact Quiet.add.advances.passes
  | not => exact (Quiet.pop.bind fun _ => .push _).advances.passes
  | negate => exact Quiet.negate.advances.passes
  | print => exact Quiet.printTop.advances.passes
  | assert => exact Quiet.assertTop.advances.passes
  | jump | jumpIfFalse | loop => exact absurd trivial hjump
  | call =>
      exact advances_readByte.bind_passes fun count => .behind (.peek _) fun callee =>
        passes_callValue callee _
  | invoke =>
      exact advances_readName.bind_passes fun name => advances_readByte.bind_passes fun count =>
        passes_invoke name _
  | superInvoke =>
      exact advances_readName.bind_passes fun name => advances_readByte.bind_passes fun count =>
        .behind .popClass fun c => passes_invokeFrom c name _
  | closure => exact absurd rfl hclosure
  | closeUpvalue => exact advances_closeUpvalue.passes
  | ret => exact absurd rfl hret
  | makeClass =>
      exact (advances_readName.bind fun name =>
        ((Quiet.make (fun _ => rfl) fun _ => rfl).bind fun _ => .push _).advances).passes
  | inherit => exact Quiet.inherit.advances.passes
  | method => exact advances_defineMethod.passes

section Steps

variable {m m' : Machine} {f : Frame} {fs : List Frame} {op : Opcode} {d : Nat}

/-- A step executes the operation that the byte at the instruction pointer stands for. -/
theorem step_eq_ok {u : Unit} (h : m.frames = f :: fs) (hrun : step m = .ok u m') :
    ∃ op, ((m.store.chunk f.closure.function).byte? f.ip).bind Opcode.ofByte? = some op ∧
      execute op (m.goto (f.ip + 1)) = .ok u m' := by
  obtain ⟨b, m₁, hread, hrun⟩ := bind_eq_ok.mp hrun
  obtain ⟨hb, rfl⟩ := readByte_eq_ok h hread
  cases hop : Opcode.ofByte? b with
  | none =>
      rw [hop] at hrun
      cases hrun
  | some op =>
      rw [hop] at hrun
      exact ⟨op, by rw [hb, Option.bind_some, hop], hrun⟩

theorem readDistance_eq_ok {p : Nat} (h : m.frames = f :: fs)
    (hrun : readDistance (m.goto p) = .ok d m') :
    (m.store.chunk f.closure.function).pair? p = some d ∧ m' = m.goto (p + 2) := by
  have hgoto (q : Nat) := frames_goto m q h
  obtain ⟨high, m₁, hh, hrun⟩ := bind_eq_ok.mp hrun
  obtain ⟨hhigh, rfl⟩ := readByte_eq_ok (hgoto p) hh
  obtain ⟨low, m₂, hl, hrun⟩ := bind_eq_ok.mp hrun
  rw [goto_goto] at hl
  obtain ⟨hlow, rfl⟩ := readByte_eq_ok (hgoto (p + 1)) hl
  cases hrun
  refine ⟨?_, by simp⟩
  rw [store_goto] at hhigh hlow
  simp only [Chunk.pair?, Option.bind_eq_bind, hhigh, hlow, Option.bind_some, Option.pure_def]

/-- The operation jumps from the machine as it is. -/
def Machine.Jumps (m : Machine) : Opcode → Prop
  | .jump | .loop => True
  | .jumpIfFalse => ∃ v, m.stack.back? = some v ∧ v.isFalsey = true
  | _ => False

theorem top_of_peek {v : Value} {m₁ : Machine} (h : peek 0 m = .ok v m₁) :
    m.stack.back? = some v ∧ m = m₁ := by
  obtain ⟨hv, rfl⟩ := peek_eq_ok h
  refine ⟨?_, rfl⟩
  rw [← Array.getLast?_toList, ← List.head?_reverse]
  rwa [← List.head?_eq_getElem?] at hv

/-- A jump that succeeds ends at the address that the listing shows. -/
theorem target_of_execute {u : Unit} (h : m.frames = f :: fs)
    (hop : ((m.store.chunk f.closure.function).byte? f.ip).bind Opcode.ofByte? = some op)
    (hjumps : m.Jumps op) (hrun : execute op (m.goto (f.ip + 1)) = .ok u m') :
    ∃ target, m'.frames = { f with ip := target } :: fs ∧
      (m.store.chunk f.closure.function).instructionAt f.ip =
        (m.store.chunk f.closure.function).jumpText op f.ip (Chunk.hex 4 target) := by
  have hframe {r : Nat} {g : Frame} {m₁ : Machine} (hm : frame (m.goto r) = .ok g m₁) :
      { f with ip := r } = g ∧ m.goto r = m₁ := by
    rw [frame_goto h] at hm
    cases hm
    exact ⟨rfl, rfl⟩
  have hmove {r s : Nat} {m₁ : Machine} {u : Unit} (hm : moveTo r (m.goto s) = .ok u m₁) :
      m₁.frames = { f with ip := r } :: fs := by
    rw [moveTo_goto h] at hm
    cases hm
    exact frames_goto m r h
  cases op with
  | jump =>
      obtain ⟨d, m₁, hread, hrun⟩ := bind_eq_ok.mp hrun
      obtain ⟨hd, rfl⟩ := readDistance_eq_ok h hread
      obtain ⟨g, m₂, hg, hrun⟩ := bind_eq_ok.mp hrun
      obtain ⟨rfl, rfl⟩ := hframe hg
      exact ⟨_, hmove hrun, Chunk.instructionAt_eq_jumpText hop rfl hd (Chunk.target?_forward _ _)⟩
  | jumpIfFalse =>
      obtain ⟨d, m₁, hread, hrun⟩ := bind_eq_ok.mp hrun
      obtain ⟨hd, rfl⟩ := readDistance_eq_ok h hread
      obtain ⟨v, m₂, hpeek, hrun⟩ := bind_eq_ok.mp hrun
      obtain ⟨hv, rfl⟩ := top_of_peek hpeek
      obtain ⟨v', hv', hfalse⟩ := hjumps
      obtain rfl := Option.some.inj (hv.symm.trans hv')
      rw [if_pos hfalse] at hrun
      obtain ⟨g, m₃, hg, hrun⟩ := bind_eq_ok.mp hrun
      obtain ⟨rfl, rfl⟩ := hframe hg
      exact ⟨_, hmove hrun, Chunk.instructionAt_eq_jumpText hop rfl hd (Chunk.target?_forward _ _)⟩
  | loop =>
      obtain ⟨d, m₁, hread, hrun⟩ := bind_eq_ok.mp hrun
      obtain ⟨hd, rfl⟩ := readDistance_eq_ok h hread
      obtain ⟨g, m₂, hg, hrun⟩ := bind_eq_ok.mp hrun
      obtain ⟨rfl, rfl⟩ := hframe hg
      dsimp only at hrun
      by_cases hle : d ≤ f.ip + 1 + 2
      · rw [if_pos hle] at hrun
        exact ⟨_, hmove hrun, Chunk.instructionAt_eq_jumpText hop rfl hd (Chunk.target?_backward hle)⟩
      · rw [if_neg hle] at hrun
        cases hrun
  | _ => exact hjumps.elim

/-- Any other operation ends behind its operands, as the listing counts them; above the frame that
executed it there may be the frame of a call that it has entered. -/
theorem frames_of_execute {u : Unit} (h : m.frames = f :: fs)
    (hop : ((m.store.chunk f.closure.function).byte? f.ip).bind Opcode.ofByte? = some op)
    (hjumps : ¬m.Jumps op) (hret : op ≠ .ret) (hrun : execute op (m.goto (f.ip + 1)) = .ok u m') :
    ∃ above, m'.frames = above ++
      { f with ip := f.ip + (m.store.chunk f.closure.function).instructionLength f.ip } :: fs := by
  have hgoto := frames_goto m (f.ip + 1) h
  rw [Chunk.instructionLength_eq hop]
  by_cases hclosure : op = .closure
  · subst hclosure
    refine ⟨[], (makeClosure_frames hgoto hrun).trans ?_⟩
    have hlength (k : Nat) : f.ip + 1 + 1 + 2 * k = f.ip + (2 + 2 * k) := by omega
    exact congrArg (fun ip => { f with ip } :: fs) (hlength _)
  · by_cases hjump : op.IsJump
    · cases op with
      | jump | loop => exact absurd trivial hjumps
      | jumpIfFalse =>
          obtain ⟨d, m₁, hread, hrun⟩ := bind_eq_ok.mp hrun
          obtain ⟨-, rfl⟩ := readDistance_eq_ok h hread
          obtain ⟨v, m₂, hpeek, hrun⟩ := bind_eq_ok.mp hrun
          obtain ⟨hv, rfl⟩ := top_of_peek hpeek
          rw [if_neg fun hfalse => hjumps ⟨v, hv, hfalse⟩] at hrun
          cases hrun
          exact ⟨[], frames_goto m _ h⟩
      | _ => exact hjump.elim
    · obtain ⟨above, hframes⟩ := passes_execute hjump hclosure hret _ _ _ _ _ hgoto hrun
      refine ⟨above, hframes.trans ?_⟩
      rw [Nat.add_assoc]
      cases op <;> first | rfl | exact absurd trivial hjump | exact absurd rfl hclosure

/-- The listing shows no address for a loop exactly when the machine has none. -/
theorem invalid_iff (h : m.frames = f :: fs)
    (hop : ((m.store.chunk f.closure.function).byte? f.ip).bind Opcode.ofByte? = some .loop)
    (hd : (m.store.chunk f.closure.function).pair? (f.ip + 1) = some d) :
    (m.store.chunk f.closure.function).instructionAt f.ip =
        (m.store.chunk f.closure.function).jumpText .loop f.ip "(invalid)" ↔
      ∃ p m', step m = .error (.violation (.invalidInstructionPointer p)) m' := by
  have hstep : step m = Machine.loop (m.goto (f.ip + 1)) := by
    obtain ⟨b, hb, hb'⟩ := Option.bind_eq_some_iff.mp hop
    rw [← goto_ip h]
    simp only [step, bind_apply, readByte_goto h hb, hb', goto_goto]
    rfl
  rw [Chunk.instructionAt_jump hop rfl hd, Chunk.target?, if_neg (by decide), hstep]
  simp only [Machine.loop, bind_apply, readDistance_goto h hd, frame_goto h, Machine.ite_apply]
  by_cases hle : d ≤ f.ip + 3
  · rw [if_pos hle, if_pos hle, moveTo_goto h]
    constructor
    · intro htext
      exact absurd (Chunk.jumpText_injective htext) (Chunk.hex_ne_invalid _ _)
    · rintro ⟨_, _, ⟨⟩⟩
  · rw [if_neg hle, if_neg hle]
    exact ⟨fun _ => ⟨_, _, rfl⟩, fun _ => rfl⟩

/-- On any code, in any state: what succeeds is an instruction; it ends where the listing says that
the next one begins, or, if it jumps, at the address that the listing shows; and the listing shows no
address for a complete loop exactly when the machine finds its target invalid. -/
theorem listing_follows_step (h : m.frames = f :: fs) :
    (∀ m', step m = .ok () m' → ∃ op,
      ((m.store.chunk f.closure.function).byte? f.ip).bind Opcode.ofByte? = some op ∧
      (m.Jumps op → ∃ target, m'.frames = { f with ip := target } :: fs ∧
        (m.store.chunk f.closure.function).instructionAt f.ip =
          (m.store.chunk f.closure.function).jumpText op f.ip (Chunk.hex 4 target)) ∧
      (¬m.Jumps op → op ≠ .ret → ∃ above, m'.frames = above ++
        { f with ip := f.ip + (m.store.chunk f.closure.function).instructionLength f.ip } :: fs)) ∧
    (((m.store.chunk f.closure.function).byte? f.ip).bind Opcode.ofByte? = some .loop →
      ∀ d, (m.store.chunk f.closure.function).pair? (f.ip + 1) = some d →
        ((m.store.chunk f.closure.function).instructionAt f.ip =
            (m.store.chunk f.closure.function).jumpText .loop f.ip "(invalid)" ↔
          ∃ p m', step m = .error (.violation (.invalidInstructionPointer p)) m')) := by
  refine ⟨fun m' hrun => ?_, fun hop d hd => invalid_iff h hop hd⟩
  obtain ⟨op, hop, hrun⟩ := step_eq_ok h hrun
  exact ⟨op, hop, fun hjumps => target_of_execute h hop hjumps hrun,
    fun hjumps hret => frames_of_execute h hop hjumps hret hrun⟩

/-- A loop to before the code begins, and one to its beginning. -/
theorem listing_follows_step_loop :
    let code (distance : UInt8) : Chunk := ⟨#[(28, 1), (0, 1), (distance, 1)], #[]⟩
    let m (distance : UInt8) : Machine :=
      { frames := [⟨⟨0, ⟨0, "", 0, 0⟩, #[]⟩, 0, 0⟩], store := { chunks := #[code distance] } }
    (∃ p m', step (m 4) = .error (.violation (.invalidInstructionPointer p)) m') ∧
      step (m 3) = .ok () (m 3) ∧
      ∃ target, (m 3).frames = [⟨⟨0, ⟨0, "", 0, 0⟩, #[]⟩, target, 0⟩] ∧
        (code 3).instructionAt 0 = (code 3).jumpText .loop 0 (Chunk.hex 4 target) := by
  intro code m
  have hdistance : (code 4).pair? 1 = some 4 := by cbv
  have htext : (code 4).instructionAt 0 = (code 4).jumpText .loop 0 "(invalid)" := by
    cbv
  have hloop (distance : UInt8) : ((code distance).byte? 0).bind Opcode.ofByte? = some .loop :=
    Opcode.ofByte?_toByte .loop
  have hframes (distance : UInt8) : (m distance).frames = [⟨⟨0, ⟨0, "", 0, 0⟩, #[]⟩, 0, 0⟩] := rfl
  have hinvalid := ((listing_follows_step (hframes 4)).2 (hloop 4) 4 hdistance).mp htext
  have hstep : step (m 3) = .ok () (m 3) := by
    simp [step, readByte, readDistance, m, code, Store.chunk, Chunk.byte?, Opcode.ofByte?, Opcode.all,
      execute, Machine.loop, frame, moveTo, Chunk.pair]
  obtain ⟨op, hop, hjump, -⟩ := (listing_follows_step (hframes 3)).1 (m 3) hstep
  obtain rfl := Option.some.inj ((hloop 3).symm.trans hop)
  exact ⟨hinvalid, hstep, hjump trivial⟩

end Steps

end LoxMachine
