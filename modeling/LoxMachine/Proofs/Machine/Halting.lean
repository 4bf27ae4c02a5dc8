import LoxMachine.Proofs.Machine.Effect
import LoxMachine.Proofs.Machine.Quiet

/-!
# Where an instruction fails

An instruction that fails has read its first byte and no byte behind its operands, and no call has been
entered or left: the innermost frame stands inside the instruction, and the others are as they were.

Main statement: `halts_of_step`.
-/

namespace LoxMachine

namespace Machine

/-- If the action fails for what the script does, the machine is then as `Q` says. -/
def Halts {α : Type} (Q : Machine → Prop) (x : Action α) (m : Machine) : Prop :=
  ∀ e m', x m = .error (.runtime e) m' → Q m'

/-- If the action fails, the frames and the code are as they were. -/
def Stays {α : Type} (x : Action α) : Prop :=
  ∀ m, Halts (fun m' => m'.frames = m.frames ∧ m'.store.chunks = m.store.chunks) x m

variable {α β : Type} {Q : Machine → Prop} {m : Machine}

theorem Halts.bind {x : Action α} {f : α → Action β} (hx : Halts Q x m)
    (hf : ∀ a m', x m = .ok a m' → Halts Q (f a) m') : Halts Q (x >>= f) m := by
  intro e m' h
  rw [bind_apply] at h
  cases hrun : x m with
  | ok a m₁ =>
      rw [hrun] at h
      exact hf a m₁ hrun e m' h
  | error fault m₁ =>
      rw [hrun] at h
      cases h
      exact hx e m' hrun

theorem Halts.of_ok {x : Action α} {a : α} {m' : Machine} (h : x m = .ok a m') : Halts Q x m := by
  intro e m₁ hrun
  rw [h] at hrun
  cases hrun

theorem Halts.of_violation {x : Action α} {v : Violation} {m' : Machine}
    (h : x m = .error (.violation v) m') : Halts Q x m := by
  intro e m₁ hrun
  rw [h] at hrun
  cases hrun

/-- Looking at the machine does not fail. -/
theorem Halts.get_bind {f : Machine → Action β} (h : Halts Q (f m) m) : Halts Q (get >>= f) m :=
  h

theorem halts_orViolate (x : Option α) (v : Violation) : Halts Q (orViolate x v) m := by
  cases x with
  | none => exact .of_violation rfl
  | some a => exact .of_ok rfl

theorem halts_moveTo (ip : Nat) : Halts Q (moveTo ip) m := by
  refine .get_bind ?_
  cases m.frames with
  | nil => exact .of_violation rfl
  | cons f fs => exact .of_ok rfl

theorem halts_pop : Halts Q pop m := by
  refine .get_bind ?_
  cases m.stack.back? with
  | none => exact .of_violation rfl
  | some v => exact .of_ok rfl

theorem halts_push {v : Value} (h : m.stack.size < maxStack) : Halts Q (push v) m := by
  refine .get_bind ?_
  rw [if_pos h]
  exact .of_ok rfl

theorem halts_slotBelow (d : Nat) : Halts Q (slotBelow d) m := by
  refine .get_bind ?_
  dsimp only
  split
  · exact .of_ok rfl
  · exact .of_violation rfl

theorem halts_peek (d : Nat) : Halts Q (peek d) m := by
  cases hv : m.fromTop? d with
  | none => exact .of_violation ((peek_apply m d).trans (by rw [hv]))
  | some v => exact .of_ok ((peek_apply m d).trans (by rw [hv]))

theorem halts_closeFrom (slot : Nat) : Halts Q (closeFrom slot) m := by
  have happly := closeFrom_apply m slot
  split at happly
  · exact .of_violation happly
  · exact .of_ok happly

namespace Stays

theorem of_quiet {x : Action α} (h : Quiet x) : Stays x := by
  intro m e m' hx
  have := h m
  rw [Leaves, hx] at this
  exact ⟨this.frames, this.chunks⟩

/-- A quiet action, and one behind it that may enter a call. -/
theorem bind {x : Action α} {f : α → Action β} (hx : Quiet x) (hf : ∀ a, Stays (f a)) :
    Stays (x >>= f) := by
  refine fun m => (of_quiet hx m).bind fun a m₁ hrun e m' h => ?_
  obtain ⟨hframes, hchunks⟩ := hf a m₁ e m' h
  exact ⟨hframes.trans (hx.beside hrun).frames, hchunks.trans (hx.beside hrun).chunks⟩

/-! ## Calls -/

theorem call (c : Closure) (count : Nat) : Stays (call c count) := by
  have henter (slot : Nat) : Stays (get >>= fun m =>
      if m.frames.length < maxFrames then
        modify fun m => { m with frames := ⟨c, 0, slot⟩ :: m.frames }
      else fail .stackOverflow) := by
    refine .bind .get fun m => ?_
    split
    · exact fun _ => .of_ok rfl
    · exact .of_quiet (.fail _)
  rw [Machine.call]
  split
  · exact .bind (.fail _) fun _ => .bind (.slotBelow count) henter
  · exact .bind (.slotBelow count) henter

theorem construct (c : Class) (slot count : Nat) : Stays (construct c slot count) := by
  refine .bind (.make (fun _ => rfl) fun _ => rfl) fun o => .bind (.writeSlot slot _) fun _ =>
    .bind .get fun m => ?_
  cases m.store.method? c initName with
  | some method => exact call method count
  | none => exact .of_quiet (.ite (.fail _) (.pure _))

theorem callValue (callee : Value) (count : Nat) : Stays (callValue callee count) := by
  refine .bind (.slotBelow count) fun slot => ?_
  cases callee with
  | closure c => exact call c count
  | bound _ receiver method => exact .bind (.writeSlot slot receiver) fun _ => call method count
  | cls c => exact construct c slot count
  | native n => exact .of_quiet (.callNative n slot)
  | _ => exact .of_quiet (.fail _)

theorem invokeFrom (c : Class) (name : String) (count : Nat) : Stays (invokeFrom c name count) :=
  .bind (.method c name) fun method => call method count

theorem invoke (name : String) (count : Nat) : Stays (invoke name count) := by
  refine .bind (.peek count) fun receiver => ?_
  cases receiver with
  | object o =>
      refine .bind .get fun m => ?_
      cases m.store.field? o name with
      | some v =>
          exact .bind (.slotBelow count) fun slot => .bind (.writeSlot slot v) fun _ =>
            callValue v count
      | none => exact invokeFrom o.cls name count
  | _ => exact .of_quiet (.fail _)

/-! ## Operators -/

theorem operator {op : Opcode} (hop : op.IsOperator) : Stays (execute op) := by
  refine of_quiet ?_
  cases op with
  | equal => exact Quiet.pop.bind fun _ => Quiet.pop.bind fun _ => .push _
  | greater | less | subtract | multiply | divide => exact .binary _
  | add => exact .add
  | not => exact Quiet.pop.bind fun _ => .push _
  | negate => exact .negate
  | print => exact .printTop
  | assert => exact .assertTop
  | _ => cases hop

end Stays

/-! ## Captured variables and results -/

theorem halts_captureAll {p : Nat} {cs : List Capture} {cells : Array Nat} :
    Halts Q (captureAll p cs cells) m := by
  induction cs generalizing p cells m with
  | nil => exact .of_ok rfl
  | cons c cs ih =>
      refine (halts_moveTo _).bind fun _ m₁ _ => Halts.bind (halts_orViolate _ _) fun f m₂ _ => ?_
      split
      · exact Halts.bind (.of_ok (capture_apply _ _)) fun cell m₃ _ => ih
      · exact (halts_orViolate _ _).bind fun cell m₃ _ => ih

/-- There is room for the result of a call: it takes the place of what the call had on the stack. -/
theorem halts_leave (hstack : m.stack.size ≤ maxStack) : Halts Q leave m := by
  refine halts_pop.bind fun result m₁ hpop => .get_bind ?_
  obtain ⟨vs, hvs, rfl⟩ := pop_eq_ok hpop
  cases (m.setValues vs).frames with
  | nil => exact .of_violation rfl
  | cons f fs =>
      have hsize : vs.length < maxStack := by
        have := congrArg List.length hvs
        rw [← size_stack, List.length_cons] at this
        omega
      refine Halts.bind (.of_ok rfl) fun _ m₂ hmodify => (halts_closeFrom _).bind fun _ m₃ hclose =>
        Halts.bind (.of_ok rfl) fun _ m₄ htruncate => ?_
      cases hmodify
      cases htruncate
      split
      · refine halts_push ?_
        have hstack₃ : m₃.stack = (m.setValues vs).stack := by
          rw [closeFrom_apply] at hclose
          split at hclose <;> cases hclose
          rfl
        change (m₃.stack.shrink f.base).size < maxStack
        rw [Array.size_shrink, hstack₃, setValues, List.size_toArray, List.length_reverse]
        exact Nat.lt_of_le_of_lt (Nat.min_le_right _ _) hsize
      · exact .of_ok rfl

end Machine

/-! ## Instructions -/

section Instructions

open Machine

variable {m m' : Machine} {f : Frame} {fs : List Frame} {q : Nat} {ins : Instr}

/-- An instruction fails behind its first byte and not behind its operands. -/
theorem halts_exec (h : m.frames = f :: fs) (hstack : m.stack.size ≤ maxStack)
    (hi : (m.store.chunk f.closure.function).instr? f.ip = some (ins, q)) :
    Halts (fun m' => m'.store.chunks = m.store.chunks ∧
      ∃ ip, f.ip < ip ∧ ip ≤ q ∧ m'.frames = { f with ip } :: fs) (ins.exec q) (m.goto (f.ip + 1)) := by
  set Q : Machine → Prop := fun m' => m'.store.chunks = m.store.chunks ∧
    ∃ ip, f.ip < ip ∧ ip ≤ q ∧ m'.frames = { f with ip } :: fs
  have hlt : f.ip < q := Chunk.lt_of_instr? hi
  have hstays {α : Type} {x : Action α} {p : Nat} (hx : Stays x) (hp : f.ip < p) (hq : p ≤ q) :
      Halts Q x (m.goto p) := fun e m' hrun => by
    obtain ⟨hframes, hchunks⟩ := hx _ e m' hrun
    exact ⟨hchunks, p, hp, hq, hframes.trans (frames_goto m p h)⟩
  have hmoved {α : Type} {x : Action α} (hx : Halts Q x (m.goto q)) :
      Halts Q (moveTo q >>= fun _ => x) (m.goto (f.ip + 1)) := by
    refine (halts_moveTo q).bind fun _ m₁ hmove => ?_
    rw [moveTo_goto h] at hmove
    cases hmove
    exact hx
  have hquiet {α : Type} {x : Action α} (hx : Stays x) :
      Halts Q (moveTo q >>= fun _ => x) (m.goto (f.ip + 1)) :=
    hmoved (hstays hx hlt (Nat.le_refl q))
  cases ins with
  | push v => exact hquiet (.of_quiet (.push v))
  | pop => exact hquiet (.of_quiet (Quiet.pop.bind fun _ => .pure _))
  | getLocal n =>
      exact hquiet (.of_quiet (Quiet.frame.bind fun f => (Quiet.readSlot _).bind fun v => .push v))
  | setLocal n =>
      exact hquiet (.of_quiet (Quiet.frame.bind fun f => (Quiet.peek 0).bind fun v => .writeSlot _ v))
  | getGlobal name => exact hquiet (.of_quiet (.getGlobal name))
  | defineGlobal name => exact hquiet (.of_quiet (.defineGlobal name))
  | setGlobal name => exact hquiet (.of_quiet (.setGlobal name))
  | getUpvalue i =>
      refine hquiet (.bind .frame fun f => .bind (.orViolate _ _) fun cell => .bind .get fun m => ?_)
      split
      · exact .of_quiet (.push _)
      · exact .of_quiet ((Quiet.readSlot _).bind fun v => .push v)
      · exact .of_quiet (.violate _)
  | setUpvalue i =>
      refine hquiet (.bind .frame fun f => .bind (.orViolate _ _) fun cell => .bind (.peek 0) fun v =>
        .bind .get fun m => ?_)
      split
      · exact fun _ => .of_ok rfl
      · exact .of_quiet (.writeSlot _ _)
      · exact .of_quiet (.violate _)
  | getProperty name =>
      refine (halts_peek 0).bind fun v m₁ hpeek => ?_
      obtain ⟨-, rfl⟩ := peek_eq_ok hpeek
      cases v with
      | object o =>
          refine hquiet (.of_quiet (.get_bind fun m => ?_))
          cases m.store.field? o name with
          | some v => exact Quiet.pop.bind fun _ => .push v
          | none => exact .bindMethod o.cls name
      | _ => exact hstays (.of_quiet (.fail _)) (Nat.lt_succ_self _) hlt
  | setProperty name =>
      refine (halts_peek 1).bind fun v m₁ hpeek => ?_
      obtain ⟨-, rfl⟩ := peek_eq_ok hpeek
      cases v with
      | object o =>
          refine hquiet (.of_quiet (Quiet.pop.bind fun v => ?_))
          have hset : Quiet (changeStore (·.setField o name v)) :=
            .changeStore (fun _ => rfl) fun _ => rfl
          exact hset.bind fun _ => Quiet.pop.bind fun _ => .push v
      | _ => exact hstays (.of_quiet (.fail _)) (Nat.lt_succ_self _) hlt
  | getSuper name =>
      exact hquiet (.of_quiet (Quiet.popClass.bind fun c => .bindMethod c name))
  | operator op => exact hquiet (.operator (Chunk.isOperator_of_instr? hi))
  | jump target | loop target => exact halts_moveTo target
  | jumpIfFalse target =>
      refine hmoved ((halts_peek 0).bind fun v m₁ _ => ?_)
      split
      · exact halts_moveTo target
      · exact .of_ok rfl
  | call n => exact hquiet (.bind (.peek n) fun v => .callValue v n)
  | invoke name n => exact hquiet (.invoke name n)
  | superInvoke name n => exact hquiet (.bind .popClass fun c => .invokeFrom c name n)
  | closure g cs =>
      dsimp only [Instr.exec]
      refine (halts_moveTo _).bind fun _ m₁ hmove => halts_captureAll.bind fun cells m₂ hcaptures => ?_
      rw [moveTo_goto h] at hmove
      cases hmove
      obtain ⟨new, m₃, -, hcaptured, rfl⟩ := captures_of_ok h hcaptures
      rw [Nat.sub_add_cancel (Chunk.le_of_instr?_closure hi)]
      intro e m' hrun
      have hnew : Quiet (make (·.newClosure g cells) >>= fun c => Machine.push (.closure c)) :=
        (Quiet.make (fun _ => rfl) fun _ => rfl).bind fun c => .push _
      obtain ⟨hframes, hchunks⟩ := Stays.of_quiet hnew _ e m' hrun
      refine ⟨hchunks.trans hcaptured.chunks_eq, q, hlt, Nat.le_refl q, hframes.trans ?_⟩
      exact frames_goto m₃ q (hcaptured.frames_eq.trans h)
  | closeUpvalue =>
      exact hmoved ((halts_slotBelow 0).bind fun slot _ _ => (halts_closeFrom slot).bind fun _ _ _ =>
        halts_pop.bind fun _ _ _ => .of_ok rfl)
  | ret => exact hmoved (halts_leave hstack)
  | makeClass name =>
      exact hquiet (.of_quiet ((Quiet.make (fun _ => rfl) fun _ => rfl).bind fun c => .push _))
  | inherit => exact hquiet (.of_quiet .inherit)
  | method name =>
      refine hquiet (.of_quiet (Quiet.pop.bind fun v => ?_))
      cases v with
      | closure g =>
          refine (Quiet.peek 0).bind fun v => ?_
          cases v with
          | cls c => exact .changeStore (fun _ => rfl) fun _ => rfl
          | _ => exact .violate _
      | _ => exact .violate _

theorem halts_of_step (h : m.frames = f :: fs) (hstack : m.stack.size ≤ maxStack)
    (hi : (m.store.chunk f.closure.function).instr? f.ip = some (ins, q)) :
    Halts (fun m' => m'.store.chunks = m.store.chunks ∧
      ∃ ip, f.ip < ip ∧ ip ≤ q ∧ m'.frames = { f with ip } :: fs) step m := by
  intro e m' hrun
  rw [step_eq_exec h hi] at hrun
  exact halts_exec h hstack hi e m' hrun

end Instructions

end LoxMachine
