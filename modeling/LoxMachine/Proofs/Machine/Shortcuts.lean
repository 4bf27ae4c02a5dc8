import LoxMachine.Proofs.Code.Instruction
import LoxMachine.Proofs.Machine.Success

/-!
# Calling a property at once

`Invoke` calls a property of the object below the arguments without putting it on the stack first, and
`SuperInvoke` does so with a method of the superclass. The long way is to replace the object by its
property, which for a method makes a bound method, and then to call what is there. Both ways end alike
(`Agrees`): with the same fault, or on machines that differ in nothing but the place in the code at which
the calling frame stands, and in the bound method that has been made.

What a call does depends on neither of the two (`Blind`).

Main statement: `shortcuts_agree`.
-/

namespace LoxMachine.Machine

/-! ## Machines in a call -/

/-- The machine with other frames, after `made` more bound methods. -/
def elsewhere (m : Machine) (frames : List Frame) (made : Nat) : Machine :=
  { m with frames, store := { m.store with nextId := m.store.nextId + made } }

/-- Two machines during a call from the frame `f`: the calling frame may stand at different places, and
the second machine has made so many more bound methods. -/
inductive SameCall (f : Frame) (fs : List Frame) (made : Nat) : Machine → Machine → Prop
  | intro {m : Machine} {entered : List Frame} {ip : Nat} (ip' : Nat) :
      m.frames = entered ++ { f with ip } :: fs →
      SameCall f fs made m (m.elsewhere (entered ++ { f with ip := ip' } :: fs) made)

/-- Two actions have ended alike, up to `R` where they have failed. -/
inductive Agrees {α : Type} (f : Frame) (fs : List Frame) (made : Nat) (R : Fault → Fault → Prop) :
    EStateM.Result Fault Machine α → EStateM.Result Fault Machine α → Prop
  | ok {a m m'} : SameCall f fs made m m' → Agrees f fs made R (.ok a m) (.ok a m')
  | error {e e' m m'} : R e e' → Agrees f fs made R (.error e m) (.error e' m')

/-- The action does the same on two such machines. -/
def Blind {α : Type} (f : Frame) (fs : List Frame) (made : Nat) (x : Action α) : Prop :=
  ∀ m m', SameCall f fs made m m' → Agrees f fs made Eq (x m) (x m')

variable {α β : Type} {f : Frame} {fs : List Frame} {made : Nat}

namespace Blind

theorem pure (a : α) : Blind f fs made (pure a) :=
  fun _ _ h => .ok h

theorem fail (e : RuntimeError) : Blind f fs made (fail e : Action α) :=
  fun _ _ _ => .error rfl

theorem bind {x : Action α} {g : α → Action β} (hx : Blind f fs made x)
    (hg : ∀ a, Blind f fs made (g a)) : Blind f fs made (x >>= g) := by
  intro m m' h
  have hfirst := hx m m' h
  rw [bind_apply, bind_apply]
  generalize x m = r at hfirst
  generalize x m' = r' at hfirst
  cases hfirst with
  | ok h₁ => exact hg _ _ _ h₁
  | error he => exact .error he

/-- What an action looks up must not depend on the frames and the number of bound methods. -/
theorem get_bind {g : Machine → Action β} (hg : ∀ m, Blind f fs made (g m))
    (hsame : ∀ m frames, g (m.elsewhere frames made) = g m) : Blind f fs made (get >>= g) := by
  rintro m _ ⟨ip', hframes⟩
  rw [bind_apply, get_apply, bind_apply, get_apply]
  dsimp only
  rw [hsame]
  exact hg m m _ (.intro ip' hframes)

theorem modify {g : Machine → Machine}
    (hg : ∀ m frames, g (m.elsewhere frames made) = (g m).elsewhere frames made)
    (hframes : ∀ m, (g m).frames = m.frames) : Blind f fs made (modify g) := by
  rintro m _ ⟨ip', h⟩
  rw [modify_apply, modify_apply, hg]
  exact .ok (.intro ip' ((hframes m).trans h))

theorem ite {c : Prop} [Decidable c] {x y : Action α} (hx : Blind f fs made x)
    (hy : Blind f fs made y) : Blind f fs made (if c then x else y) := by
  split
  · exact hx
  · exact hy

theorem slotBelow (distance : Nat) : Blind f fs made (slotBelow distance) :=
  get_bind (fun _ => ite (pure _) fun _ _ _ => .error rfl) fun _ _ => rfl

theorem writeSlot (slot : Nat) (v : Value) : Blind f fs made (writeSlot slot v) :=
  get_bind (fun _ => ite (modify (fun _ _ => rfl) fun _ => rfl) fun _ _ _ => .error rfl) fun _ _ => rfl

theorem push (v : Value) : Blind f fs made (push v) :=
  get_bind (fun _ => ite (modify (fun _ _ => rfl) fun _ => rfl) (fail _)) fun _ _ => rfl

/-- Entering a call puts a frame on the others. -/
theorem enter (g : Closure) (base : Nat) : Blind f fs made (get >>= fun m =>
    if m.frames.length < maxFrames then
      MonadState.modifyGet fun m : Machine => (PUnit.unit, { m with frames := ⟨g, 0, base⟩ :: m.frames })
    else Machine.fail .stackOverflow) := by
  rintro m _ ⟨ip', hframes⟩
  rename_i entered ip
  simp only [bind_apply, get_apply, ite_apply, fail_apply, modifyGet_apply]
  have hlength : (m.elsewhere (entered ++ { f with ip := ip' } :: fs) made).frames.length =
      m.frames.length := by
    rw [hframes, elsewhere, List.length_append, List.length_append, List.length_cons, List.length_cons]
  rw [hlength]
  split
  · have hentered : ⟨g, 0, base⟩ :: m.frames = (⟨g, 0, base⟩ :: entered) ++ { f with ip := ip } :: fs :=
      congrArg (⟨g, 0, base⟩ :: ·) hframes
    have hcall : SameCall f fs made { m with frames := ⟨g, 0, base⟩ :: m.frames } _ := .intro ip' hentered
    exact .ok hcall
  · exact .error rfl

theorem call (g : Closure) (count : Nat) : Blind f fs made (call g count) := by
  rw [Machine.call]
  split
  · exact bind (fail _) fun _ => (slotBelow count).bind (enter g)
  · exact (slotBelow count).bind (enter g)

theorem construct (c : Class) (slot count : Nat) : Blind f fs made (construct c slot count) := by
  have hnew : Blind f fs made (make (·.newObject c)) := by
    rintro m _ ⟨ip', hframes⟩
    exact .ok (.intro ip' hframes)
  refine hnew.bind fun o => (writeSlot slot _).bind fun _ => get_bind (fun m => ?_) fun _ _ => rfl
  cases m.store.method? c initName with
  | some method => exact call method count
  | none => exact ite (fail _) (pure _)

theorem truncate (slot : Nat) : Blind f fs made (truncate slot) :=
  modify (fun _ _ => rfl) fun _ => rfl

theorem callNative (n : Native) (slot : Nat) : Blind f fs made (callNative n slot) :=
  get_bind (fun _ => (truncate slot).bind fun _ => push _) fun _ _ => rfl

theorem callValue (callee : Value) (count : Nat) : Blind f fs made (callValue callee count) := by
  refine (slotBelow count).bind fun slot => ?_
  cases callee with
  | closure g => exact call g count
  | bound _ receiver method => exact (writeSlot slot receiver).bind fun _ => call method count
  | cls c => exact construct c slot count
  | native n => exact callNative n slot
  | _ => exact fail _

end Blind

/-! ## The long way -/

/-- Runs an action with the `count` top values out of its reach. -/
def beneath (count : Nat) (x : Action Unit) : Action Unit := do
  let m ← get
  set (m.setValues (m.values.drop count))
  x
  modify fun m' => m'.setValues (m.values.take count ++ m'.values)

/-- Puts the property below `count` arguments in place of its object and calls it; `first` and `second`
are the offsets behind the two instructions. -/
def callProperty (name : String) (count first second : Nat) : Action Unit := do
  beneath count (Instr.exec first (.getProperty name))
  Instr.exec second (.call count)

/-- Puts the method of the class on top of the stack in place of the object below `count` arguments and
calls it. -/
def callSuper (name : String) (count first second : Nat) : Action Unit := do
  let superclass ← pop
  beneath count do
    Machine.push superclass
    Instr.exec first (.getSuper name)
  Instr.exec second (.call count)

/-- How many bound methods the long way makes. -/
def boundFor (m : Machine) (receiver : Value) (name : String) : Nat :=
  match receiver with
  | .object o => if (m.store.field? o name).isSome then 0 else 1
  | _ => 0

/-- A receiver without methods is one without properties; all other faults are the same. -/
def SameFault (receiver : Value) (e e' : Fault) : Prop :=
  match receiver with
  | .object _ => e = e'
  | _ => e = .runtime .onlyInstancesHaveMethods ∧ e' = .runtime .onlyInstancesHaveProperties

section LongWay

variable {m : Machine} {args rest vs : List Value} {receiver v : Value} {name : String} {c : Class}
  {o : Object} {g : Closure} {p q : Nat}

theorem beneath_apply (hvalues : m.values = args ++ vs) (x : Action Unit) :
    beneath args.length x m =
      match x (m.setValues vs) with
      | .ok _ m' => .ok () (m'.setValues (args ++ m'.values))
      | .error e m' => .error e m' := by
  simp only [beneath, bind_apply, get_apply, set_apply, modify_apply, hvalues, List.drop_left,
    List.take_left]
  cases x (m.setValues vs) <;> rfl

/-- The machine after a method has been bound to the receiver on top of the stack. -/
def withBound (m : Machine) (receiver : Value) (g : Closure) (rest : List Value) : Machine :=
  (m.elsewhere m.frames 1).setValues (.bound m.store.nextId receiver g :: rest)

theorem bindMethod_cons (hvalues : m.values = receiver :: rest) (hroom : rest.length < maxStack) :
    bindMethod c name m =
      match m.store.method? c name with
      | some g => .ok () (m.withBound receiver g rest)
      | none => .error (.runtime (.undefinedProperty name)) m := by
  simp only [bindMethod, method, bind_apply, get_apply]
  cases m.store.method? c name with
  | none => rfl
  | some g =>
      simp only [pure_apply, pop_cons hvalues]
      change Machine.push _ { m.setValues rest with store := _ } = _
      rw [push_apply, if_pos (by simpa [values, Machine.setValues] using hroom)]
      simp [values, Machine.setValues, withBound, elsewhere]

theorem getProperty_cons (name : String) (hframes : m.frames = f :: fs) (hvalues : m.values = receiver :: rest)
    (hroom : rest.length < maxStack) (p : Nat) :
    Instr.exec p (.getProperty name) m =
      match receiver with
      | .object o =>
        match m.store.field? o name with
        | some v => .ok () ((m.goto p).setValues (v :: rest))
        | none => bindMethod o.cls name (m.goto p)
      | _ => .error (.runtime .onlyInstancesHaveProperties) m := by
  have htop : m.values[0]? = some receiver := by rw [hvalues, List.getElem?_cons_zero]
  simp only [Instr.exec, bind_apply, peek_values, htop]
  cases receiver with
  | object o =>
      simp only [bind_apply, moveTo_apply hframes, get_apply, store_goto]
      cases m.store.field? o name with
      | none => rfl
      | some v =>
          have hgoto : (m.goto p).values = .object o :: rest := hvalues
          simp only [bind_apply, pop_cons hgoto, push_apply, values_setValues, if_pos hroom]
          rfl
  | _ => rfl

end LongWay

/-! ## Both ways -/

section Ways

variable {m : Machine} {args rest : List Value} {receiver v : Value} {name : String} {c : Class}
  {o : Object} {g : Closure}

/-- The caller at two places. -/
theorem SameCall.goto (hframes : m.frames = f :: fs) (p q made : Nat) :
    SameCall f fs made (m.goto p) ((m.goto q).elsewhere (m.goto q).frames made) := by
  have h : SameCall f fs made (m.goto p) ((m.goto p).elsewhere ([] ++ { f with ip := q } :: fs) made) :=
    .intro q (frames_goto m p hframes)
  rw [frames_goto m q hframes]
  exact h

section Below

variable (hvalues : m.values = args ++ v :: rest)
include hvalues

theorem slotBelow_append : slotBelow args.length m = .ok rest.length m := by
  have hlength : m.values.length = args.length + (rest.length + 1) := by
    rw [hvalues, List.length_append, List.length_cons]
  rw [slotBelow_apply, if_pos (by omega), hlength]
  congr 1
  omega

theorem writeSlot_append (w : Value) :
    writeSlot rest.length w m = .ok () (m.setValues (args ++ w :: rest)) := by
  have hlength : rest.length < m.values.length := by
    rw [hvalues, List.length_append, List.length_cons]
    omega
  rw [writeSlot_apply, if_pos hlength, hvalues, setSlot_append]

theorem call_exec (hframes : m.frames = f :: fs) (q : Nat) :
    Instr.exec q (.call args.length) m = callValue v args.length (m.goto q) := by
  simp [Instr.exec, moveTo_apply hframes, peek_values, hvalues]

/-- A call of a bound method is one of the method on its receiver. -/
theorem callValue_bound {id : Nat} :
    callValue (.bound id receiver g) args.length m =
      Machine.call g args.length (m.setValues (args ++ receiver :: rest)) := by
  simp only [callValue, bind_apply, slotBelow_append hvalues, writeSlot_append hvalues]

end Below

/-- Calling what stands in place of the receiver, on the two machines. -/
theorem callValue_agrees (hframes : m.frames = f :: fs) (v : Value) (p first second : Nat) :
    Agrees f fs 0 Eq (callValue v args.length ((m.goto p).setValues (args ++ v :: rest)))
      (Instr.exec second (.call args.length) ((m.goto first).setValues (args ++ v :: rest))) := by
  have hframes' : ((m.goto first).setValues (args ++ v :: rest)).frames = { f with ip := first } :: fs :=
    frames_goto m first hframes
  have hagree := Blind.callValue v args.length _ _
    (SameCall.goto (m := m.setValues (args ++ v :: rest)) hframes p second 0)
  have hsame : ((m.goto first).setValues (args ++ v :: rest)).goto second =
      ((m.goto first).goto second).setValues (args ++ v :: rest) := rfl
  rw [call_exec (values_setValues ..) hframes', hsame, goto_goto]
  exact hagree

/-- Calling the bound method that stands in place of its receiver is calling the method. -/
theorem call_agrees (hframes : m.frames = f :: fs) (hvalues : m.values = args ++ receiver :: rest)
    (g : Closure) (id p first second : Nat) :
    Agrees f fs 1 Eq (Machine.call g args.length (m.goto p))
      (Instr.exec second (.call args.length)
        (((m.goto first).elsewhere (m.goto first).frames 1).setValues
          (args ++ .bound id receiver g :: rest))) := by
  have hframes' : (((m.goto first).elsewhere (m.goto first).frames 1).setValues
      (args ++ .bound id receiver g :: rest)).frames = { f with ip := first } :: fs :=
    frames_goto m first hframes
  have hbound : ((((m.goto first).elsewhere (m.goto first).frames 1).setValues
      (args ++ .bound id receiver g :: rest)).goto second).values =
        args ++ .bound id receiver g :: rest := by
    rw [values_goto, values_setValues]
  have hback : ((((m.goto first).elsewhere (m.goto first).frames 1).setValues
      (args ++ .bound id receiver g :: rest)).goto second).setValues (args ++ receiver :: rest) =
        (m.goto second).elsewhere (m.goto second).frames 1 := by
    rw [← goto_goto m first second]
    conv => rhs; rw [← setValues_values m, hvalues]
    rfl
  rw [call_exec (values_setValues ..) hframes', callValue_bound hbound, hback]
  exact Blind.call g _ _ _ (.goto hframes p second 1)

/-- Binding a method beneath the arguments and calling it is calling it at once. -/
theorem bindMethod_agrees (hframes : m.frames = f :: fs) (hvalues : m.values = args ++ receiver :: rest)
    (hroom : rest.length < maxStack) {x : Action Unit} {first : Nat}
    (hx : x (m.setValues (receiver :: rest)) =
      bindMethod c name ((m.setValues (receiver :: rest)).goto first)) (p second : Nat) :
    Agrees f fs 1 Eq (invokeFrom c name args.length (m.goto p))
      ((beneath args.length x >>= fun _ => Instr.exec second (.call args.length)) m) := by
  have hreceiver : ((m.setValues (receiver :: rest)).goto first).values = receiver :: rest := by
    rw [values_goto, values_setValues]
  rw [bind_apply, beneath_apply hvalues, hx, bindMethod_cons hreceiver hroom]
  simp only [invokeFrom, method, bind_apply, get_apply, store_goto, store_setValues]
  cases m.store.method? c name with
  | none => exact .error rfl
  | some g =>
      simp only [pure_apply, withBound, values_setValues]
      exact call_agrees hframes hvalues g _ p first second

theorem invoke_agrees (hframes : m.frames = f :: fs) (hvalues : m.values = args ++ receiver :: rest)
    (hroom : rest.length < maxStack) (p first second : Nat) :
    Agrees f fs (m.boundFor receiver name) (SameFault receiver)
      (Machine.invoke name args.length (m.goto p)) (callProperty name args.length first second m) := by
  have htop : (m.goto p).values[args.length]? = some receiver := by
    rw [values_goto, hvalues, List.getElem?_append_right (Nat.le_refl _), Nat.sub_self,
      List.getElem?_cons_zero]
  have hproperty := getProperty_cons (m := m.setValues (receiver :: rest)) name hframes
    (values_setValues ..) hroom first
  cases receiver with
  | object o =>
      cases hfield : m.store.field? o name with
      | some v =>
          have hvalues' : (m.goto p).values = args ++ .object o :: rest := hvalues
          simp only [callProperty, Machine.invoke, bind_apply, beneath_apply hvalues, hproperty,
            peek_values, htop, get_apply, store_goto, store_setValues, hfield, boundFor,
            slotBelow_append hvalues', writeSlot_append hvalues', values_setValues]
          exact callValue_agrees hframes v p first second
      | none =>
          have hbind : Instr.exec first (.getProperty name) (m.setValues (.object o :: rest)) =
              bindMethod o.cls name ((m.setValues (.object o :: rest)).goto first) := by
            simp only [hproperty, store_setValues, hfield]
          have hagree := bindMethod_agrees hframes hvalues hroom hbind p second
          rw [bind_apply] at hagree
          simp only [callProperty, Machine.invoke, bind_apply, peek_values, htop, get_apply, store_goto,
            hfield, boundFor]
          exact hagree
  | _ =>
      simp only [callProperty, Machine.invoke, bind_apply, beneath_apply hvalues, hproperty,
        peek_values, htop]
      exact .error ⟨rfl, rfl⟩

/-- The superclass is put back on top of its object and taken off again. -/
theorem getSuper_cons (superclass : Value) (name : String) (hframes : m.frames = f :: fs) (hvalues : m.values = vs)
    (hroom : vs.length < maxStack) (p : Nat) :
    (do Machine.push superclass; Instr.exec p (.getSuper name)) m =
      match superclass with
      | .cls c => bindMethod c name (m.goto p)
      | _ => .error (.violation .invalidTypes) (m.goto p) := by
  subst hvalues
  have hframes' : (m.setValues (superclass :: m.values)).frames = f :: fs := hframes
  have hpushed : ((m.setValues (superclass :: m.values)).goto p).values = superclass :: m.values := by
    rw [values_goto, values_setValues]
  have hback : ((m.setValues (superclass :: m.values)).goto p).setValues m.values = m.goto p := by
    conv => rhs; rw [← setValues_values m]
    rfl
  simp only [bind_apply, push_apply, if_pos hroom, Instr.exec, moveTo_apply hframes', popClass,
    pop_cons hpushed, hback]
  cases superclass <;> rfl

theorem superInvoke_agrees {superclass : Value} (hframes : m.frames = f :: fs)
    (hvalues : m.values = superclass :: (args ++ receiver :: rest)) (hroom : rest.length + 1 < maxStack)
    (p first second : Nat) :
    Agrees f fs 1 Eq ((popClass >>= fun c => invokeFrom c name args.length) (m.goto p))
      (callSuper name args.length first second m) := by
  have hvalues' : (m.goto p).values = superclass :: (args ++ receiver :: rest) := hvalues
  have hsuper := getSuper_cons (m := (m.setValues (args ++ receiver :: rest)).setValues (receiver :: rest))
    superclass name hframes (values_setValues ..) hroom first
  cases superclass with
  | cls c =>
      rw [bind_apply, popClass_cons hvalues', callSuper, bind_apply, pop_cons hvalues]
      exact bindMethod_agrees (m := m.setValues (args ++ receiver :: rest)) hframes
        (values_setValues ..) (by omega) hsuper p second
  | _ =>
      have hfails : popClass (m.goto p) = .error (.violation .invalidTypes)
          ((m.goto p).setValues (args ++ receiver :: rest)) := by
        rw [popClass, bind_apply, pop_cons hvalues']
        rfl
      rw [bind_apply, hfails, callSuper, bind_apply, pop_cons hvalues]
      dsimp only
      rw [bind_apply, beneath_apply (values_setValues ..), hsuper]
      exact .error rfl

end Ways

/-- Calling a property or a method of the superclass at once ends like putting it in place of its object
and calling what is there then. The arguments lie on top of the object, and a stack has never more values
than it may have (`History.intact_throughout`). -/
theorem shortcuts_agree {m : Machine} (hframes : m.frames = f :: fs) (hsize : m.stack.size ≤ maxStack)
    (args rest : List Value) (receiver : Value) (name : String) (next first second : Nat) :
    ((m.store.chunk f.closure.function).instr? f.ip = some (.invoke name args.length, next) →
      m.values = args ++ receiver :: rest →
        Agrees f fs (m.boundFor receiver name) (SameFault receiver) (step m)
          (callProperty name args.length first second m)) ∧
    (∀ superclass,
      (m.store.chunk f.closure.function).instr? f.ip = some (.superInvoke name args.length, next) →
        m.values = superclass :: (args ++ receiver :: rest) →
          Agrees f fs 1 Eq (step m) (callSuper name args.length first second m)) := by
  rw [size_stack] at hsize
  have hbehind : ∀ ip, moveTo next (m.goto ip) = .ok () (m.goto next) := fun ip =>
    moveTo_goto hframes ip next
  constructor
  · intro hinstr hvalues
    rw [hvalues, List.length_append, List.length_cons] at hsize
    rw [step_eq_exec hframes hinstr, Instr.exec, bind_apply, hbehind]
    exact invoke_agrees hframes hvalues (by omega) next first second
  · intro superclass hinstr hvalues
    rw [hvalues, List.length_cons, List.length_append, List.length_cons] at hsize
    rw [step_eq_exec hframes hinstr, Instr.exec, bind_apply, hbehind]
    exact superInvoke_agrees hframes hvalues (by omega) next first second

/-- A field that holds a function of the host, and a method of the superclass, called with an argument. -/
theorem shortcuts_agree_native_field :
    let code : Chunk :=
      ⟨#[(Opcode.invoke.toByte, 1), (0, 1), (1, 1), (Opcode.superInvoke.toByte, 1), (0, 1), (1, 1)],
        #[.string "f"]⟩
    let object : Value := .object ⟨0, ⟨0, "A"⟩⟩
    let native : Value := .native ⟨0, "clock"⟩
    let caller (ip : Nat) : Frame := ⟨⟨0, ⟨0, "", 0, 0⟩, #[]⟩, ip, 0⟩
    let m (ip : Nat) (stack : Array Value) : Machine :=
      { store := { chunks := #[code], fields := #[({} : Std.HashMap String Value).insert "f" native],
                   methods := #[∅], natives := #[clock] }
        frames := [caller ip], stack }
    Agrees (caller 0) [] ((m 0 #[object, .nil]).boundFor object "f") (SameFault object)
        (step (m 0 #[object, .nil])) (callProperty "f" 1 2 4 (m 0 #[object, .nil])) ∧
      Agrees (caller 3) [] 1 Eq (step (m 3 #[object, .nil, .cls ⟨0, "A"⟩]))
        (callSuper "f" 1 2 4 (m 3 #[object, .nil, .cls ⟨0, "A"⟩])) := by
  intro code object native caller m
  have hinvoke : code.instr? 0 = some (.invoke "f" 1, 3) := by decide +kernel
  have hsuper : code.instr? 3 = some (.superInvoke "f" 1, 6) := by decide +kernel
  exact ⟨(shortcuts_agree rfl (by decide +kernel) [.nil] [] object "f" 3 2 4).1 hinvoke rfl,
    (shortcuts_agree rfl (by decide +kernel) [.nil] [] object "f" 6 2 4).2 _ hsuper rfl⟩

end LoxMachine.Machine
