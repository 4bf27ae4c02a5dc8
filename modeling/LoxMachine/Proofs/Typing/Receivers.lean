import LoxMachine.Proofs.Typing.Inheritance
import LoxMachine.Proofs.Typing.Isolation

/-!
# Receivers

A method finds its receiver in slot zero. What is there is an object, and the same object for as long
as the frame lasts: nothing is assigned to a slot of which it is known what is in it. An initializer
gives its receiver back, whichever way it was entered and left. So a call of a class ends with the new
object in place of the class.

Main statement: `Underway.receives`.
-/

namespace LoxMachine

open Machine Syntax

/-- What the body of a closure was compiled as. -/
def Program.kindOf? (p : Program) (c : Closure) : Option BodyKind :=
  p.routines[c.function.index]?.map (·.kind)

/-- The next instruction calls a class, which is the callee or a field of the receiver. -/
def Machine.CallsClass (m : Machine) (ins : Instr) (c : Class) : Prop :=
  (∃ n slot, ins = .call n ∧ slot + ins.pops = m.stack.size ∧ m.stack[slot]? = some (.cls c)) ∨
  ∃ name n slot o, ins = .invoke name n ∧ slot + ins.pops = m.stack.size ∧
    m.stack[slot]? = some (.object o) ∧ m.store.field? o name = some (.cls c)

/-! ## Slots of which the value is known -/

section Fixed

variable {w : World} {n : Nat} {m m' : Machine} {f f' : Frame} {fs : List Frame} {G : Layout} {E : Env}
  {σ : Shape} {Γ : List Slot} {kind : BodyKind} {k q i : Nat} {ins : Instr}

/-- What is known about slot zero of the frame of a method. -/
theorem Grounded.receiver {s : List Slot} (h : Grounded G.kind s) (hmethod : G.kind.IsMethod) :
    ∃ o b, atSlot? s 0 = some ⟨.is (.object o), b⟩ := by
  obtain ⟨v, b, hv, hslot⟩ := h
  cases hkind : G.kind with
  | method | initializer =>
      rw [hkind] at hv hslot
      obtain ⟨o, rfl⟩ := hv
      exact ⟨o, b, hslot⟩
  | script | function =>
      rw [hkind] at hmethod
      exact hmethod.elim

theorem Closure.Has.kind_eq {c : Closure} (h : c.Has w G E)
    (hkind : w.routines[c.function.index]?.map (·.kind) = some kind) : G.kind = kind := by
  rw [h.routine] at hkind
  exact Option.some.inj hkind

theorem Calls.has (h : Calls w n fs Γ) (hf : f ∈ fs) : ∃ G E, f.closure.Has w G E := by
  induction h with
  | none => cases hf
  | @call g fs G E s Γ hhas _ _ _ _ ih =>
      rcases List.mem_cons.mp hf with rfl | hf
      · exact ⟨G, E, hhas⟩
      · exact ih hf

theorem Calls.receiver (h : Calls w n fs Γ) (hf : f ∈ fs)
    (hkind : w.routines[f.closure.function.index]?.map (·.kind) = some kind)
    (hmethod : kind.IsMethod) : ∃ o b, atSlot? Γ f.base = some ⟨.is (.object o), b⟩ := by
  induction h with
  | none => cases hf
  | @call g fs G E s Γ hhas hground hsafe hbase hcalls ih =>
      rcases List.mem_cons.mp hf with rfl | hf
      · obtain rfl := hhas.kind_eq hkind
        obtain ⟨o, b, hslot⟩ := hground.receiver hmethod
        refine ⟨o, b, ?_⟩
        rw [hbase, ← Nat.add_zero Γ.length, atSlot?_append_left, hslot]
      · obtain ⟨o, b, hslot⟩ := ih hf
        exact ⟨o, b, atSlot?_append_of_some hslot⟩

/-- The receivers of all active methods are known, and what the next instruction takes lies above
them. -/
theorem Running.receiver (R : Running w n m f fs G E σ Γ)
    (hground : Grounded G.kind (σ.slots.drop k)) (hf : f' ∈ m.frames)
    (hkind : w.routines[f'.closure.function.index]?.map (·.kind) = some kind)
    (hmethod : kind.IsMethod) :
    ∃ o b, atSlot? (σ.slots.drop k ++ Γ) f'.base = some ⟨.is (.object o), b⟩ := by
  rw [R.frames] at hf
  rcases List.mem_cons.mp hf with rfl | hf
  · obtain rfl := R.has.kind_eq hkind
    obtain ⟨o, b, hslot⟩ := hground.receiver hmethod
    refine ⟨o, b, ?_⟩
    rw [R.base, ← Nat.add_zero Γ.length, atSlot?_append_left, hslot]
  · obtain ⟨o, b, hslot⟩ := R.calls.receiver hf hkind hmethod
    exact ⟨o, b, atSlot?_append_of_some hslot⟩

theorem Running.atSlot?_of_drop (R : Running w n m f fs G E σ Γ) {s : Slot}
    (h : atSlot? (σ.slots.drop k ++ Γ) i = some s) :
    atSlot? (σ.slots ++ Γ) i = some s ∧ ∃ v, m.stack[i]? = some v ∧ Fits w n v s.kind := by
  have hslot : atSlot? (σ.slots ++ Γ) i = some s := by
    rw [← List.take_append_drop k σ.slots, List.append_assoc]
    exact atSlot?_append_of_some h
  obtain ⟨v, hv, hfits⟩ := forall₂_atSlot? R.values hslot
  exact ⟨hslot, v, (getElem?_stack m i).trans hv, hfits⟩

/-- Nothing is assigned to a slot of which it is known what is in it. -/
theorem Running.fixed {K : Layout → Env → Nat → Shape → Prop} {u : Value} {b : Bool}
    (R : Running w n m f fs G E σ Γ) (hflow : Flow w.routines K G E q ins σ)
    (hground : Grounded G.kind (σ.slots.drop ins.pops)) (heffect : Effect f q ins m m')
    (hslot : atSlot? (σ.slots.drop ins.pops ++ Γ) i = some ⟨.is u, b⟩)
    (hret : ins = .ret → i < f.base) : m'.stack[i]? = m.stack[i]? := by
  obtain ⟨hslot', -⟩ := R.atSlot?_of_drop hslot
  have hroom : i + ins.pops < m.values.length := by
    have := lt_of_atSlot? hslot
    have := hground.length_pos
    rw [R.values.length_eq]
    simp only [List.length_append, List.length_drop] at *
    omega
  rcases heffect.untouched hroom hret with hsame | ⟨j, rfl, rfl⟩ | ⟨j, cell, rfl, hcell, hopen⟩
  · exact hsame
  · cases hflow with
    | setLocal hlocal =>
        rw [R.base, atSlot?_append_left, hlocal] at hslot'
        cases hslot'
  · cases hflow with
    | setUpvalue hany =>
        obtain ⟨cell', hcell', hk⟩ := R.has.cell hany
        obtain rfl := Option.some.inj (hcell.symm.trans hcell')
        obtain ⟨k', hk', hshared⟩ := R.steady.shared i cell ((R.steady.opened _ _).mp hopen)
        obtain rfl := Option.some.inj (hk.symm.trans hk')
        rw [hshared] at hslot'
        cases hslot'

/-- What an initializer hands back is its receiver. -/
theorem Running.back?_of_ret {K : Layout → Env → Nat → Shape → Prop}
    (R : Running w n m f fs G E σ Γ) (hflow : Flow w.routines K G E q .ret σ)
    (hkind : G.kind = .initializer) : m.stack.back? = m.stack[f.base]? := by
  cases hflow with
  | ret hne => exact absurd hkind hne
  | @retReceiver v b s hslot =>
      obtain ⟨u, us, hvs, ⟨rfl, -⟩, hus⟩ := R.uncons
      have hslot' : atSlot? (s ++ Γ) f.base = some ⟨.is u, b⟩ := by
        rw [R.base, ← Nat.add_zero Γ.length, atSlot?_append_left, hslot]
      obtain ⟨u', hu', rfl, -⟩ := forall₂_atSlot? hus hslot'
      rw [back?_stack, getElem?_stack, hvs, atSlot?_cons_of_some hu']
      rfl

end Fixed

/-! ## Calls of classes -/

section Classes

variable {m m' : Machine} {f : Frame} {fs : List Frame} {q : Nat} {ins : Instr} {c : Class}

/-- The new object is where the class was, and its initializer is entered, if there is one. -/
theorem Machine.Calling.constructs {args rest : List Value} (h : Calling m args rest (.cls c) m') :
    m'.stack[rest.length]? = some (.object (m.nextObject c)) ∧
      (m'.frames = m.frames ∨ ∃ g, m.store.method? c initName = some g ∧
        m'.frames = ⟨g, 0, rest.length⟩ :: m.frames) := by
  rw [getElem?_stack]
  cases h with
  | construct hinit =>
      refine ⟨?_, .inr ⟨_, hinit, rfl⟩⟩
      rw [values_entered, values_setValues]
      exact atSlot?_append_of_some (by rw [atSlot?_cons, if_pos rfl])
  | create =>
      refine ⟨?_, .inl rfl⟩
      rw [values_setValues, atSlot?_cons, if_pos rfl]

theorem Effect.constructs (h : Effect f q ins m m') (hframes : m.frames = f :: fs)
    (hclass : m.CallsClass ins c) :
    ∃ slot, slot + ins.pops = m.stack.size ∧ m'.stack[slot]? = some (.object (m.nextObject c)) ∧
      (m'.frames = { f with ip := q } :: fs ∨ ∃ g, m.store.method? c initName = some g ∧
        m'.frames = ⟨g, 0, slot⟩ :: { f with ip := q } :: fs) := by
  have hgoto : (m.goto q).frames = { f with ip := q } :: fs := frames_goto m q hframes
  have hcallee {args rest : List Value} {v : Value} {slot : Nat} (hvs : m.values = args ++ v :: rest)
      (hslot : slot + (args.length + 1) = m.stack.size) :
      slot = rest.length ∧ m.stack[slot]? = some v := by
    rw [size_stack, hvs, List.length_append, List.length_cons] at hslot
    obtain rfl : slot = rest.length := by omega
    rw [getElem?_stack, hvs]
    exact ⟨rfl, atSlot?_append_of_some (by rw [atSlot?_cons, if_pos rfl])⟩
  rcases hclass with ⟨n, slot, rfl, hslot, hcls⟩ | ⟨name, n, slot, o, rfl, hslot, hobject, hfield⟩
  · cases h with
    | call hvs hlen hcall =>
        obtain ⟨rfl, hv⟩ := hcallee hvs (hlen.symm ▸ hslot)
        obtain rfl := Option.some.inj (hcls.symm.trans hv)
        exact ⟨_, hslot, hcall.constructs.1, hgoto ▸ hcall.constructs.2⟩
  · cases h with
    | invokeField hvs hlen hfield' hcall =>
        obtain ⟨rfl, hv⟩ := hcallee hvs (hlen.symm ▸ hslot)
        obtain rfl := Value.object.inj (Option.some.inj (hobject.symm.trans hv))
        obtain rfl := Option.some.inj (hfield.symm.trans hfield')
        exact ⟨_, hslot, hcall.constructs.1, hgoto ▸ hcall.constructs.2⟩
    | invokeMethod hvs hlen hfield' _ =>
        obtain ⟨rfl, hv⟩ := hcallee hvs (hlen.symm ▸ hslot)
        obtain rfl := Value.object.inj (Option.some.inj (hobject.symm.trans hv))
        cases hfield.symm.trans hfield'

/-- A class is called with as many arguments as its initializer takes. -/
theorem Machine.steps_construct (args : List Value) {rest : List Value} {g : Closure}
    (hframes : m.frames = f :: fs)
    (hi : (m.store.chunk f.closure.function).instr? f.ip = some (.call args.length, q))
    (hvs : m.values = args ++ .cls c :: rest) (hg : m.store.method? c initName = some g)
    (harity : args.length = g.function.arity) (hdepth : m.frames.length < maxFrames) :
    m.Steps (({ m.goto q with store := (m.store.newObject c).2 }.setValues
      (args ++ Value.object (m.nextObject c) :: rest)).entered g rest.length) := by
  refine ⟨m.time, m.console, (step_eq_exec hframes hi).trans ?_⟩
  set m₁ : Machine := { m.goto q with store := (m.store.newObject c).2 } with hm₁
  set m₂ := m₁.setValues (args ++ Value.object (m.nextObject c) :: rest) with hm₂
  obtain ⟨hlt, hslot⟩ := slot_callee (m := m.goto q) hvs
  have hpeek : peek args.length (m.goto q) = .ok (.cls c) (m.goto q) := by
    rw [peek_values, values_goto, hvs]
    simp
  have hwrite : writeSlot rest.length (.object (m.nextObject c)) m₁ = .ok () m₂ := by
    have hvs₁ : m₁.values = args ++ .cls c :: rest := hvs
    rw [writeSlot_apply, hvs₁, setSlot_append, if_pos (by simp; omega)]
  have hcall : Machine.call g args.length m₂ = .ok () (m₂.entered g rest.length) := by
    obtain ⟨hlt', hslot'⟩ := slot_callee (values_setValues m₁ _)
    have hdepth' : m₂.frames.length < maxFrames := by
      change (m.goto q).frames.length < maxFrames
      rw [frames_goto m q hframes]
      rw [hframes] at hdepth
      exact hdepth
    rw [call_apply g _ hlt', if_neg (not_not.mpr harity), if_pos hdepth', hslot']
    rfl
  have hmake : make (·.newObject c) (m.goto q) = .ok (m.nextObject c) m₁ := rfl
  have hmethod : m₂.store.method? c initName = some g := hg
  have hconstruct :
      construct c rest.length args.length (m.goto q) = .ok () (m₂.entered g rest.length) := by
    rw [construct, bind_of_ok hmake, bind_of_ok hwrite, bind_of_ok (get_apply m₂), hmethod]
    exact hcall
  rw [Instr.exec, bind_of_ok (moveTo_goto hframes _ q), bind_of_ok hpeek, callValue, bind_apply,
    slotBelow_apply, if_pos hlt, hslot]
  exact hconstruct

/-- A method that has been put into the table of a class is there. -/
theorem Machine.Steps.method?_self {name : String} {g : Closure} {vs : List Value} (h : m.Steps m')
    (hframes : m.frames = f :: fs)
    (hi : (m.store.chunk f.closure.function).instr? f.ip = some (.method name, q))
    (hvs : m.values = .closure g :: .cls c :: vs) (hc : c.id < m.store.methods.size) :
    m'.store.method? c name = some g := by
  obtain ⟨time, console, heffect⟩ := h.effect hframes hi
  cases heffect with
  | method hvs' =>
      obtain ⟨hclosure, hrest⟩ := List.cons.inj (hvs.symm.trans hvs')
      obtain rfl := Value.closure.inj hclosure
      obtain rfl := Value.cls.inj (List.cons.inj hrest).1
      exact (Store.method?_setMethod _ _ _ _ _ _).trans (if_pos ⟨rfl, hc, rfl⟩)

/-- Other instructions leave the tables as they are. -/
theorem Machine.Steps.method?_eq {name : String} (h : m.Steps m') (hframes : m.frames = f :: fs)
    (hi : (m.store.chunk f.closure.function).instr? f.ip = some (ins, q)) (hins : ¬ ins.Declares) :
    m'.store.method? c name = m.store.method? c name := by
  obtain ⟨time, console, heffect⟩ := h.effect hframes hi
  rw [Store.method?, heffect.methods_eq hins]
  rfl

end Classes

/-! ## Frames of methods -/

section Run

variable {p : Program} {ℓ : Lineage} {m m' : Machine} {source : String} {f : Frame}
  {fs : List Frame} {kind : BodyKind}

/-- Active closures have been compiled. -/
theorem Underway.compiled (hp : Program.compile 0 source = .ok p) (h : Underway p ℓ m)
    (hf : f ∈ m.frames) : ∃ kind, p.kindOf? f.closure = some kind := by
  obtain ⟨w, f', fs', G, E, σ, Γ, ins, q, hrs, -, R, -⟩ :=
    (h.live hp (List.ne_nil_of_mem hf) 1).view
  obtain ⟨G', E', hhas⟩ : ∃ G' E', f.closure.Has w G' E' := by
    rw [R.frames] at hf
    rcases List.mem_cons.mp hf with rfl | hf
    · exact ⟨G, E, R.has⟩
    · exact R.calls.has hf
  rw [Program.kindOf?, ← hrs, hhas.routine]
  exact ⟨G'.kind, rfl⟩

theorem Underway.receiver (hp : Program.compile 0 source = .ok p) (h : Underway p ℓ m)
    (hf : f ∈ m.frames) (hkind : p.kindOf? f.closure = some kind) (hmethod : kind.IsMethod) :
    ∃ o, m.stack[f.base]? = some (.object o) := by
  obtain ⟨w, f', fs', G, E, σ, Γ, ins, q, hrs, -, R, -, hground, -⟩ :=
    (h.live hp (List.ne_nil_of_mem hf) 1).view
  rw [Program.kindOf?, ← hrs] at hkind
  obtain ⟨o, b, hslot⟩ := R.receiver hground hf hkind hmethod
  obtain ⟨-, v, hv, rfl, -⟩ := R.atSlot?_of_drop hslot
  exact ⟨o, hv⟩

/-- An initializer hands its receiver back. -/
theorem Underway.returns (hp : Program.compile 0 source = .ok p) (h : Underway p ℓ m) {q : Nat}
    (hframes : m.frames = f :: fs) (hkind : p.kindOf? f.closure = some .initializer)
    (hi : (m.store.chunk f.closure.function).instr? f.ip = some (.ret, q)) (hstep : m.Steps m') :
    m.stack.back? = m.stack[f.base]? ∧ m'.frames = fs ∧
      (fs ≠ [] → m'.stack[f.base]? = m.stack[f.base]?) := by
  obtain ⟨w, f', fs', G, E, σ, Γ, ins, q', hrs, -, R, hi', hground, hflow⟩ :=
    (h.live hp hstep.frames_ne_nil 1).view
  obtain ⟨rfl, rfl⟩ := List.cons.inj (hframes.symm.trans R.frames)
  obtain ⟨rfl, rfl⟩ := Prod.mk.inj (Option.some.inj (hi.symm.trans hi'))
  rw [Program.kindOf?, ← hrs] at hkind
  rw [← hrs] at hflow
  have hback := R.back?_of_ret hflow (R.has.kind_eq hkind)
  have hroom : f.base + 1 < m.values.length := R.lt_values hground
  obtain ⟨time, console, heffect⟩ := hstep.effect hframes hi
  obtain ⟨hframes', hleft⟩ := heffect.left hframes
  refine ⟨hback, hframes', fun hfs => ?_⟩
  obtain ⟨v, vs, hvs, hvs'⟩ := hleft hfs
  change m.values = v :: vs at hvs
  rw [hvs, List.length_cons] at hroom
  rw [← hback, back?_stack, hvs, getElem?_stack, hvs', atSlot?_cons, List.length_drop,
    if_pos (by omega)]
  rfl

/-- A step keeps the receiver of a frame, and hands it back when it leaves the frame of an
initializer. -/
theorem Underway.step_receiver (gs : List Frame) (hp : Program.compile 0 source = .ok p)
    (h : Underway p ℓ m) (hframes : m.frames = gs ++ f :: fs)
    (hkind : p.kindOf? f.closure = some kind) (hmethod : kind.IsMethod) (hstep : m.Steps m')
    (hlater : fs.length < m'.frames.length ∨ kind = .initializer ∧ fs ≠ []) :
    m'.stack[f.base]? = m.stack[f.base]? := by
  obtain ⟨w, f', fs', G, E, σ, Γ, ins, q, hrs, -, R, hi, hground, hflow⟩ :=
    (h.live hp hstep.frames_ne_nil 1).view
  have hframes' := hframes.symm.trans R.frames
  by_cases hleaves : ins = .ret ∧ gs = []
  · obtain ⟨rfl, rfl⟩ := hleaves
    obtain ⟨rfl, rfl⟩ := List.cons.inj hframes'
    rcases hlater with hlt | ⟨rfl, hfs⟩
    · obtain ⟨time, console, heffect⟩ := hstep.effect R.frames hi
      rw [(heffect.left R.frames).1] at hlt
      exact absurd hlt (Nat.lt_irrefl _)
    · exact (h.returns hp R.frames hkind hi hstep).2.2 hfs
  · have hf : f ∈ m.frames := by
      rw [hframes]
      exact List.mem_append_right _ List.mem_cons_self
    rw [Program.kindOf?, ← hrs] at hkind
    rw [← hrs] at hflow
    obtain ⟨o, b, hslot⟩ := R.receiver hground hf hkind hmethod
    obtain ⟨time, console, heffect⟩ := hstep.effect R.frames hi
    have R' : Running w (1 + 0) { m with time, console } f' fs' G E σ Γ := { R with }
    refine R'.fixed hflow hground heffect hslot fun hret => ?_
    have hpairwise := (R.based hground).1
    rw [R.frames] at hpairwise
    cases gs with
    | nil => exact absurd ⟨hret, rfl⟩ hleaves
    | cons g gs =>
        obtain ⟨rfl, rfl⟩ := List.cons.inj hframes'
        exact (List.pairwise_cons.mp hpairwise).1 f (by simp)

theorem Underway.within_receiver {ms : List Machine} (gs : List Frame)
    (hp : Program.compile 0 source = .ok p) (h : Underway p ℓ m)
    (hw : Machine.Within fs.length m ms m') (hframes : m.frames = gs ++ f :: fs)
    (hkind : p.kindOf? f.closure = some kind) (hmethod : kind.IsMethod)
    (hlater : fs.length < m'.frames.length ∨ kind = .initializer ∧ fs ≠ []) :
    m'.stack[f.base]? = m.stack[f.base]? := by
  induction hw generalizing ℓ gs f with
  | refl => rfl
  | @step m m₁ m' ms hdepth hstep hw ih =>
      rcases (h.step_frame gs hp hframes hstep).1 with ⟨gs', ip, hframes'⟩ | ⟨hframes', -⟩
      · have hlt : fs.length < m₁.frames.length := by
          rw [hframes', List.length_append, List.length_cons]
          omega
        have hfirst := h.step_receiver gs hp hframes hkind hmethod hstep (.inl hlt)
        exact (ih gs' (h.next hstep) hframes' hkind hlater).trans hfirst
      · cases hw with
        | refl => exact h.step_receiver gs hp hframes hkind hmethod hstep hlater
        | step hdepth' => exact absurd hdepth' (by rw [hframes']; exact Nat.lt_irrefl _)

/-- The methods that construction runs have been compiled as initializers. -/
theorem Underway.kind_of_init (hp : Program.compile 0 source = .ok p) (h : Underway p ℓ m)
    (hactive : m.frames ≠ []) {c : Class} {g : Closure} (hg : m.store.method? c initName = some g) :
    p.kindOf? g = some .initializer := by
  obtain ⟨w, f, fs, G, E, σ, Γ, ins, q, hrs, -, R, -, -, -⟩ := (h.live hp hactive 1).view
  obtain ⟨H, E', hhas, hkind, -⟩ := R.steady.methods c initName g hg
  rw [Program.kindOf?, ← hrs, hhas.routine]
  exact congrArg some (hkind.trans (if_pos rfl))

/-- A call of a class ends with the new object in place of the class. -/
theorem Underway.constructs (hp : Program.compile 0 source = .ok p) (h : Underway p ℓ m)
    {ins : Instr} {q : Nat} {c : Class} {m₁ : Machine} {ms : List Machine}
    (hframes : m.frames = f :: fs)
    (hi : (m.store.chunk f.closure.function).instr? f.ip = some (ins, q))
    (hclass : m.CallsClass ins c) (hstep : m.Steps m₁)
    (hw : Machine.Within m.frames.length m₁ ms m') :
    ∃ slot, slot + ins.pops = m.stack.size ∧ m'.stack[slot]? = some (.object (m.nextObject c)) := by
  obtain ⟨time, console, heffect⟩ := hstep.effect hframes hi
  obtain ⟨slot, hslot, hobject, hgoes⟩ := heffect.constructs hframes hclass
  refine ⟨slot, hslot, ?_⟩
  rw [hframes] at hw
  rcases hgoes with hframes₁ | ⟨g, hg, hframes₁⟩
  · cases hw with
    | refl => exact hobject
    | step hdepth => exact absurd hdepth (by rw [hframes₁]; exact Nat.lt_irrefl _)
  · have hkind := h.kind_of_init hp hstep.frames_ne_nil hg
    have hw : Machine.Within ({ f with ip := q } :: fs).length m₁ ms m' := hw
    have hsame := (h.next hstep).within_receiver [] hp hw hframes₁ hkind trivial
      (.inr ⟨rfl, List.cons_ne_nil _ _⟩)
    exact hsame.trans hobject

/-- An active frame of a method has an object in slot zero, the same for as long as the frame lasts.
What an initializer returns is this object. A call of a class, when it has been executed, has left in
place of the class the object that it made, the next one by its number and an instance of the class
called. -/
theorem Underway.receives (hp : Program.compile 0 source = .ok p) (h : Underway p ℓ m) :
    (∀ f ∈ m.frames, ∃ kind, p.kindOf? f.closure = some kind ∧
      (kind.IsMethod → ∃ o, m.stack[f.base]? = some (.object o))) ∧
    (∀ gs f fs kind ms m', m.frames = gs ++ f :: fs → p.kindOf? f.closure = some kind →
      kind.IsMethod → Machine.Within fs.length m ms m' → fs.length < m'.frames.length →
      (∃ gs' ip, m'.frames = gs' ++ { f with ip } :: fs) ∧ m'.stack[f.base]? = m.stack[f.base]?) ∧
    (∀ f fs q m', m.frames = f :: fs → p.kindOf? f.closure = some .initializer →
      (m.store.chunk f.closure.function).instr? f.ip = some (.ret, q) → m.Steps m' →
      m.stack.back? = m.stack[f.base]? ∧ m'.frames = fs ∧
        (fs ≠ [] → m'.stack[f.base]? = m.stack[f.base]?)) ∧
    ∀ f fs ins q c m₁ ms m', m.frames = f :: fs →
      (m.store.chunk f.closure.function).instr? f.ip = some (ins, q) → m.CallsClass ins c →
      m.Steps m₁ → Machine.Within m.frames.length m₁ ms m' → m'.frames.length = m.frames.length →
      ∃ slot o, slot + ins.pops = m.stack.size ∧ m'.stack.size = slot + 1 ∧
        m'.stack[slot]? = some (.object o) ∧ o.cls = c ∧ o.id = m.store.fields.size := by
  refine ⟨fun f hf => ?_, fun gs f fs kind ms m' hframes hkind hmethod hw hlt => ?_,
    fun f fs q m' => h.returns hp, fun f fs ins q c m₁ ms m' hframes hi hclass hstep hw hlen => ?_⟩
  · obtain ⟨kind, hkind⟩ := h.compiled hp hf
    exact ⟨kind, hkind, h.receiver hp hf hkind⟩
  · refine ⟨?_, h.within_receiver gs hp hw hframes hkind hmethod (.inl hlt)⟩
    rcases (h.within gs hp hw hframes).1 with hgoes | ⟨hframes', -⟩
    · exact hgoes
    · rw [hframes'] at hlt
      exact absurd hlt (Nat.lt_irrefl _)
  · obtain ⟨slot, hslot, hobject⟩ := h.constructs hp hframes hi hclass hstep hw
    have hcalls : ins.Calls := by
      rcases hclass with ⟨n, -, rfl, -⟩ | ⟨name, n, -, -, rfl, -⟩
      · trivial
      · trivial
    obtain ⟨-, slot', hslot', hsize, -⟩ :=
      h.call hp hframes hi hcalls hstep hw hlen
    exact ⟨slot, _, hslot, by omega, hobject, rfl, rfl⟩

end Run

/-! ## An object that is made -/

/-- An initializer that has a closure hand back its receiver, and returns early. -/
def constructingSource : String :=
  "{ class A { init() { fun g() { return this; } this.b = g(); return; } } A(); }"

def constructingRun (budget : Nat) : Machine :=
  ((Machine.new {}).runSource budget constructingSource).2

def constructingFrame (ip : Nat) : Frame :=
  ⟨⟨0, ⟨2, "", 0, 0⟩, #[]⟩, ip, 0⟩

def constructingInit : Closure :=
  ⟨1, ⟨1, "init", 0, 0⟩, #[]⟩

/-- The machine in the initializer of the new object. -/
def constructingEntered : Machine :=
  let m := constructingRun 6
  ({ m.goto 13 with store := (m.store.newObject ⟨0, "A"⟩).2 }.setValues
    (.object (m.nextObject ⟨0, "A"⟩) :: m.values.tail)).entered constructingInit 2

theorem kindOf?_constructing {p : Program} (hp : Program.compile 0 constructingSource = .ok p) :
    p.kindOf? constructingInit = some .initializer := by
  have hkind : (Program.compile 0 constructingSource).toOption.bind (·.kindOf? constructingInit) =
      some .initializer := by
    decide +kernel
  rw [hp] at hkind
  exact hkind

/-- The class has its initializer when it is called. -/
theorem method?_constructing
    (hsteps : ∀ n < 6, (constructingRun n).Steps (constructingRun (n + 1))) :
    (constructingRun 6).store.method? ⟨0, "A"⟩ initName = some constructingInit := by
  obtain ⟨⟨hframes₃, hi₃⟩, ⟨hframes₄, hi₄⟩, ⟨hframes₅, hi₅⟩, htop, hsize⟩ :
      ((constructingRun 3).frames = [constructingFrame 6] ∧
        ((constructingRun 3).store.chunk (constructingFrame 6).closure.function).instr? 6 =
          some (.method initName, 8)) ∧
      ((constructingRun 4).frames = [constructingFrame 8] ∧
        ((constructingRun 4).store.chunk (constructingFrame 8).closure.function).instr? 8 =
          some (.pop, 9)) ∧
      ((constructingRun 5).frames = [constructingFrame 9] ∧
        ((constructingRun 5).store.chunk (constructingFrame 9).closure.function).instr? 9 =
          some (.getLocal 1, 11)) ∧
      (constructingRun 3).values.take 2 = [.closure constructingInit, .cls ⟨0, "A"⟩] ∧
      (constructingRun 3).store.methods.size = 1 := by
    decide +kernel
  have hvs : (constructingRun 3).values =
      .closure constructingInit :: .cls ⟨0, "A"⟩ :: (constructingRun 3).values.drop 2 :=
    (List.take_append_drop 2 _).symm.trans (congrArg (· ++ _) htop)
  rw [(hsteps 5 (by decide)).method?_eq hframes₅ hi₅ id,
    (hsteps 4 (by decide)).method?_eq hframes₄ hi₄ id]
  exact (hsteps 3 (by decide)).method?_self hframes₃ hi₃ hvs (hsize ▸ Nat.one_pos)

/-- The class is called with its initializer. -/
theorem steps_constructing (hsteps : ∀ n < 6, (constructingRun n).Steps (constructingRun (n + 1))) :
    (constructingRun 6).Steps constructingEntered := by
  obtain ⟨hframes, hi, hhead, hrest⟩ : (constructingRun 6).frames = [constructingFrame 11] ∧
      ((constructingRun 6).store.chunk (constructingFrame 11).closure.function).instr? 11 =
        some (.call 0, 13) ∧
      (constructingRun 6).values.head? = some (.cls ⟨0, "A"⟩) ∧
      (constructingRun 6).values.tail.length = 2 := by
    decide +kernel
  have h := Machine.steps_construct [] hframes hi (List.eq_cons_of_mem_head? hhead)
    (method?_constructing hsteps) rfl (hframes ▸ Nat.lt_of_lt_of_le Nat.one_lt_two (by decide))
  rw [hrest] at h
  exact h

/-- The call of the class, a closure called by the initializer, the end of the initializer and the
object that the call leaves. -/
theorem Underway.receives_constructing : ∃ p ℓ ℓ₁ ℓ₂,
    Program.compile 0 constructingSource = .ok p ∧
    Underway p ℓ (constructingRun 6) ∧ (constructingRun 6).CallsClass (.call 0) ⟨0, "A"⟩ ∧
    Underway p ℓ₁ constructingEntered ∧
    constructingEntered.frames = [⟨constructingInit, 0, 2⟩, constructingFrame 13] ∧
    p.kindOf? constructingInit = some .initializer ∧
    (∃ o, constructingEntered.stack[2]? = some (.object o)) ∧
    (constructingEntered.run 4).2.frames.length = 3 ∧
    (∃ gs ip, (constructingEntered.run 4).2.frames =
      gs ++ [⟨constructingInit, ip, 2⟩, constructingFrame 13]) ∧
    (constructingEntered.run 4).2.stack[2]? = constructingEntered.stack[2]? ∧
    Underway p ℓ₂ (constructingEntered.run 9).2 ∧
    (constructingEntered.run 9).2.stack.back? = (constructingEntered.run 9).2.stack[2]? ∧
    (constructingEntered.run 10).2.frames = [constructingFrame 13] ∧
    (constructingEntered.run 10).2.stack.size = 3 ∧
    (constructingEntered.run 10).2.stack[2]? = some (.object ⟨0, ⟨0, "A"⟩⟩) := by
  obtain ⟨hrun, hframes, hi, hslot, hsize, hfields⟩ :
      ((Machine.new {}).runSource 6 constructingSource).1 = .unfinished ∧
      (constructingRun 6).frames = [constructingFrame 11] ∧
      ((constructingRun 6).store.chunk (constructingFrame 11).closure.function).instr? 11 =
        some (.call 0, 13) ∧
      (constructingRun 6).stack[2]? = some (.cls ⟨0, "A"⟩) ∧ (constructingRun 6).stack.size = 3 ∧
      (constructingRun 6).store.fields.size = 0 := by
    decide +kernel
  obtain ⟨hrun', hdeep, hframes', hthree, hlast, hi', hone⟩ :
      (constructingEntered.run 10).1 = .unfinished ∧
      (∀ n < 10, 1 < (constructingEntered.run n).2.frames.length) ∧
      constructingEntered.frames = [⟨constructingInit, 0, 2⟩, constructingFrame 13] ∧
      (constructingEntered.run 4).2.frames.length = 3 ∧
      (constructingEntered.run 9).2.frames = [⟨constructingInit, 15, 2⟩, constructingFrame 13] ∧
      ((constructingEntered.run 9).2.store.chunk constructingInit.function).instr? 15 =
        some (.ret, 16) ∧
      (constructingEntered.run 10).2.frames.length = 1 := by
    decide +kernel
  obtain ⟨p, hp, hunderway, hsteps⟩ := Underway.of_unfinished hrun
  have hkind := kindOf?_constructing hp
  -- The three states that the parts of the statement are about.
  obtain ⟨ℓ, h⟩ : ∃ ℓ, Underway p ℓ (constructingRun 6) := hunderway 6 (Nat.le_refl 6)
  have hcall := steps_constructing hsteps
  have h₁ := h.next hcall
  obtain ⟨ℓ₂, h₂⟩ := h₁.run_of_le (n := 9) hrun' (by decide)
  have hclass : (constructingRun 6).CallsClass (.call 0) ⟨0, "A"⟩ :=
    .inl ⟨0, 2, rfl, hsize.symm, hslot⟩
  have hwithin {n : Nat} (hn : n ≤ 10) :=
    Machine.within_of_steps (s := fun i => (constructingEntered.run i).2)
      (fun i hi => steps_run hrun' (Nat.lt_of_lt_of_le hi hn))
      fun i hi => hdeep i (Nat.lt_of_lt_of_le hi hn)
  obtain ⟨kind, hkind', hreceiver⟩ := (Underway.receives hp h₁).1 ⟨constructingInit, 0, 2⟩
    (hframes' ▸ List.mem_cons_self)
  obtain rfl := Option.some.inj (hkind.symm.trans hkind')
  obtain ⟨hkeeps, hsame⟩ := (Underway.receives hp h₁).2.1 [] ⟨constructingInit, 0, 2⟩ _ _ _ _
    hframes' hkind trivial (hwithin (n := 4) (by decide)) (hthree ▸ by decide)
  obtain ⟨hback, hleft, -⟩ := (Underway.receives hp h₂).2.2.1 _ _ _ _ hlast hkind hi'
    (steps_run hrun' (n := 9) (by decide))
  have hdepth : (constructingRun 6).frames.length = 1 := congrArg List.length hframes
  obtain ⟨slot, ⟨id, c⟩, hpops, hsize', hobject, hcls, hid⟩ :=
    (Underway.receives hp h).2.2.2 _ _ _ _ _ _ _ _ hframes hi hclass hcall
      (hdepth ▸ hwithin (n := 10) (by decide)) (hone.trans hdepth.symm)
  obtain rfl : slot = 2 := Nat.succ.inj (hpops.trans hsize)
  obtain rfl : id = 0 := hid.trans hfields
  obtain rfl : c = ⟨0, "A"⟩ := hcls
  exact ⟨p, ℓ, _, ℓ₂, hp, h, hclass, h₁, hframes', hkind, hreceiver trivial, hthree, hkeeps, hsame,
    h₂, hback, hleft, hsize', hobject⟩

end LoxMachine
