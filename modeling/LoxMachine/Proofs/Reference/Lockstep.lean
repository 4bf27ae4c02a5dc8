import LoxMachine.Proofs.Reference.Steps
import LoxMachine.Proofs.Twin.Scripts
import LoxMachine.Proofs.Typing.Underway

/-!
# Both machines along a run

From the same code the machine and the machine of cells go on step by step in the same states
(`Lockstep`): each instruction reads the same values on both (`SameReads`), and they succeed or fail
together.

Main statement: `Program.runs_on_cells`.
-/

namespace LoxMachine

open Machine

/-! ## What instructions read -/

/-- What a machine has for an instruction of the running call. -/
structure View where
  /-- The value that lies so many below the top of the stack. -/
  below? : Nat → Option Value
  /-- The value in a slot of the call. -/
  local? : Nat → Option Value
  /-- The value of a variable that the running closure has captured. -/
  captured? : Nat → Option Value
  global? : String → Option Value
  field? : Object → String → Option Value
  method? : Class → String → Option Closure

/-- A method that an instance of a class has, if the value is a class. -/
def View.inherited? (V : View) (name : String) : Option Value → Option Value
  | some (.cls c) => (V.method? c name).map .closure
  | _ => none

/-- A property of a value: its field, or else the method of its class. -/
def View.property? (V : View) (name : String) : Option Value → Option Value
  | some (.object o) => (V.field? o name).or (V.inherited? name (some (.cls o.cls)))
  | _ => none

/-- The variables and properties that an instruction looks up. What it calls may be a class, which
has an initializer. -/
def Instr.lookups (V : View) : Instr → List (Option Value)
  | .getLocal slot => [V.local? slot]
  | .getUpvalue i => [V.captured? i]
  | .getGlobal name | .setGlobal name => [V.global? name]
  | .getProperty name => [V.property? name (V.below? 0)]
  | .getSuper name | .superInvoke name _ => [V.inherited? name (V.below? 0)]
  | .call n => [V.inherited? initName (V.below? n)]
  | .invoke name n =>
    let callee := V.property? name (V.below? n)
    [callee, V.inherited? initName callee]
  | _ => []

/-- All that an instruction reads: the values at the top of the stack, and what it looks up. -/
def Instr.reads (V : View) (ins : Instr) : List (Option Value) :=
  (List.range ins.pops).map V.below? ++ ins.lookups V

def Machine.view (m : Machine) (f : Frame) : View where
  below? n := m.values[n]?
  local? slot := atSlot? m.values (f.base + slot)
  captured? i := f.closure.cells[i]?.bind m.reads?
  global? name := m.globals[name]?
  field? := m.store.field?
  method? := m.store.method?

def CellMachine.view (s : CellMachine) (f : Frame) : View where
  below? n := s.stack[n]?.bind (s.heap[·]?)
  local? slot := (atSlot? s.stack (f.base + slot)).bind (s.heap[·]?)
  captured? i := f.closure.cells[i]?.bind (s.heap[·]?)
  global? name := s.globals[name]?
  field? := s.store.field?
  method? := s.store.method?

/-! ## Steps that go together -/

/-- The same instruction comes next, and it reads the same values. -/
def SameReads (N : Naming) (m : Machine) (s : CellMachine) : Prop :=
  ∃ f fs f' fs' ins q, m.frames = f :: fs ∧ s.frames = f' :: fs' ∧
    (m.store.chunk f.closure.function).instr? f.ip = some (ins, q) ∧
    (s.store.chunk f'.closure.function).instr? f'.ip = some (ins, q) ∧
    List.Forall₂ (Option.Rel N.Like) (ins.reads (m.view f)) (ins.reads (s.view f'))

/-- Both succeed, as `Q` says, or both fail with the same error, in the same calls and with the same
output and log. -/
inductive SameResult (Q : Machine → CellMachine → Prop) :
    EStateM.Result Fault Machine Unit → EStateM.Result Fault CellMachine Unit → Prop where
  | ok {m s} : Q m s → SameResult Q (.ok () m) (.ok () s)
  | error {e m s} : s.console = m.console → s.trace = m.trace →
      SameResult Q (.error (.runtime e) m) (.error (.runtime e) s)

/-- For `n` steps both machines are in the same states, whatever time the host sets. -/
def Lockstep : Nat → Naming → Machine → CellMachine → Prop
  | 0, N, m, s => Reflects N 0 m s
  | n + 1, N, m, s => Reflects N 0 m s ∧ SameReads N m s ∧ ∀ time : Number,
      SameResult (fun m' s' => ∃ N' : Naming, N.Le N' ∧ Reflects N' 0 m' s' ∧
          (m'.frames ≠ [] → Lockstep n N' m' s'))
        (Machine.step { m with time }.traceStep) (CellMachine.step { s with time }.traceStep)

theorem SameResult.mono {Q Q' : Machine → CellMachine → Prop}
    {r : EStateM.Result Fault Machine Unit} {r' : EStateM.Result Fault CellMachine Unit}
    (h : SameResult Q r r') (hQ : ∀ m s, Q m s → Q' m s) : SameResult Q' r r' := by
  cases h with
  | ok h => exact .ok (hQ _ _ h)
  | error hconsole htrace => exact .error hconsole htrace

/-! ## The same values -/

/-- The same values, but for the names of cells. -/
structure View.Like (N : Naming) (V V' : View) : Prop where
  below : ∀ n, Option.Rel N.Like (V.below? n) (V'.below? n)
  locals : ∀ slot, Option.Rel N.Like (V.local? slot) (V'.local? slot)
  captured : ∀ i, Option.Rel N.Like (V.captured? i) (V'.captured? i)
  globals : ∀ name, Option.Rel N.Like (V.global? name) (V'.global? name)
  fields : ∀ o name, Option.Rel N.Like (V.field? o name) (V'.field? o name)
  methods : ∀ c name, Option.Rel N.Agree (V.method? c name) (V'.method? c name)

section Views

variable {N : Naming} {V V' : View} {v v' : Option Value}

theorem View.Like.inherited (h : V.Like N V') (name : String) (hv : Option.Rel N.Like v v') :
    Option.Rel N.Like (V.inherited? name v) (V'.inherited? name v') := by
  cases hv with
  | none => exact .none
  | @some u u' hu =>
      cases hu with
      | fixed =>
          cases u with
          | cls c =>
              rcases rel_cases (h.methods c name) with ⟨hnone, hnone'⟩ | ⟨g, g', hsome, hsome', hg⟩
              · rw [View.inherited?, View.inherited?, hnone, hnone']
                exact .none
              · rw [View.inherited?, View.inherited?, hsome, hsome']
                exact .some (.closure hg)
          | _ => exact .none
      | closure | bound => exact .none

theorem View.Like.property (h : V.Like N V') (name : String) (hv : Option.Rel N.Like v v') :
    Option.Rel N.Like (V.property? name v) (V'.property? name v') := by
  cases hv with
  | none => exact .none
  | @some u u' hu =>
      cases hu with
      | fixed =>
          cases u with
          | object o =>
              rw [View.property?, View.property?]
              rcases rel_cases (h.fields o name) with ⟨hnone, hnone'⟩ | ⟨u, u', hsome, hsome', hu⟩
              · rw [hnone, hnone']
                exact h.inherited name (.some (.fixed (v := .cls o.cls) trivial))
              · rw [hsome, hsome']
                exact .some hu
          | _ => exact .none
      | closure | bound => exact .none

theorem View.Like.lookups (h : V.Like N V') (ins : Instr) :
    List.Forall₂ (Option.Rel N.Like) (ins.lookups V) (ins.lookups V') := by
  cases ins with
  | getLocal slot => exact .cons (h.locals slot) .nil
  | getUpvalue i => exact .cons (h.captured i) .nil
  | getGlobal name | setGlobal name => exact .cons (h.globals name) .nil
  | getProperty name => exact .cons (h.property name (h.below 0)) .nil
  | getSuper name | superInvoke name => exact .cons (h.inherited name (h.below 0)) .nil
  | call n => exact .cons (h.inherited initName (h.below n)) .nil
  | invoke name n =>
      have hcallee := h.property name (h.below n)
      exact .cons hcallee (.cons (h.inherited initName hcallee) .nil)
  | _ => exact .nil

theorem View.Like.reads (h : V.Like N V') (ins : Instr) :
    List.Forall₂ (Option.Rel N.Like) (ins.reads V) (ins.reads V') := by
  refine List.rel_append ?_ (h.lookups ins)
  rw [List.forall₂_map_left_iff, List.forall₂_map_right_iff, List.forall₂_same]
  exact fun n _ => h.below n

end Views

namespace Reflects

variable {N : Naming} {k : Nat} {m : Machine} {s : CellMachine} {f f' : Frame}

/-- What a cell holds that stands for a captured variable. -/
theorem reads?_rel {c d : Nat} (M : Reflects N k m s) (hcd : N.pair c d) :
    Option.Rel N.Like (m.reads? c) s.heap[d]? := by
  obtain ⟨x, hx, hstands⟩ := M.cells c d hcd
  rw [Machine.reads?, hx]
  cases x with
  | inSlot slot =>
      obtain ⟨v, hv, v', hv', hlike⟩ := M.holds hstands
      rw [hv']
      change Option.Rel N.Like (atSlot? m.values slot) _
      rw [hv]
      exact .some hlike
  | closed v =>
      obtain ⟨-, v', hv', hlike⟩ := hstands
      rw [hv']
      exact .some hlike

theorem below_rel (M : Reflects N k m s) (n : Nat) :
    Option.Rel N.Like m.values[n]? (s.stack[n]?.bind (s.heap[·]?)) := by
  cases hv : m.values[n]? with
  | none =>
      rw [List.getElem?_eq_none (M.length_eq.trans_le (List.getElem?_eq_none_iff.mp hv))]
      exact .none
  | some v =>
      obtain ⟨d, v', hd, hv', hlike⟩ := M.getElem? hv
      rw [hd, Option.bind_some, hv']
      exact .some hlike

theorem slot_rel (M : Reflects N k m s) (slot : Nat) :
    Option.Rel N.Like (atSlot? m.values slot) ((atSlot? s.stack slot).bind (s.heap[·]?)) := by
  by_cases hlt : slot < m.values.length
  · obtain ⟨d, hd⟩ := M.cell_of_slot hlt
    obtain ⟨v, hv, v', hv', hlike⟩ := M.holds hd
    rw [hv, hd, Option.bind_some, hv']
    exact .some hlike
  · have hle := Nat.le_of_not_lt hlt
    rw [atSlot?_eq_none.mpr hle, atSlot?_eq_none.mpr (M.length_eq.trans_le hle)]
    exact .none

theorem captured_rel (M : Reflects N k m s) (hf : N.SameCall f f') (i : Nat) :
    Option.Rel N.Like (f.closure.cells[i]?.bind m.reads?) (f'.closure.cells[i]?.bind (s.heap[·]?)) := by
  have hcells := hf.closure.cells
  rw [← Array.getElem?_toList, ← Array.getElem?_toList]
  cases hc : f.closure.cells.toList[i]? with
  | none =>
      rw [List.getElem?_eq_none (hcells.length_eq.symm.trans_le (List.getElem?_eq_none_iff.mp hc))]
      exact .none
  | some c =>
      obtain ⟨d, hd, hcd⟩ := forall₂_getElem? hcells hc
      rw [hd]
      exact M.reads?_rel hcd

theorem view (M : Reflects N k m s) (hf : N.SameCall f f') : (m.view f).Like N (s.view f') where
  below := M.below_rel
  locals slot := by
    change Option.Rel N.Like _ ((atSlot? s.stack (f'.base + slot)).bind (s.heap[·]?))
    rw [hf.base]
    exact M.slot_rel (f.base + slot)
  captured := M.captured_rel hf
  globals := M.globals
  fields := M.fields
  methods := M.methods

/-! ## One step -/

/-- The host sets the clock. -/
theorem host (M : Reflects N k m s) (time : Number) : Reflects N k { m with time } { s with time } :=
  { M with
    tidy := { M.tidy with }
    time := rfl }

theorem record (M : Reflects N k m s) (level : LogLevel) (text : String) :
    Reflects N k (m.record level text) (s.record level text) :=
  M.setConsole (congrArg (·.record level text) M.console)

theorem chunk_eq (M : Reflects N k m s) (hf : N.SameCall f f') :
    s.store.chunk f'.closure.function = m.store.chunk f.closure.function := by
  rw [Store.chunk, Store.chunk, M.chunks, hf.closure.function]

theorem debugRow_eq (M : Reflects N k m s) : Value.debugRow s.contents = Value.debugRow m.stack := by
  have hrow : (s.stack.filterMap (s.heap[·]?)).map Value.debug = m.values.map Value.debug := by
    have hvalues := M.values
    generalize m.values = vs, s.stack = ds at hvalues
    induction hvalues with
    | nil => rfl
    | @cons v d vs ds hv _ ih =>
        obtain ⟨v', hv', hlike⟩ := hv
        rw [List.filterMap_cons_some hv', List.map_cons, List.map_cons, ih, hlike.debug_eq]
  have hstack : m.stack.toList = m.values.reverse := (List.reverse_reverse _).symm
  rw [Value.debugRow, Value.debugRow, CellMachine.contents, hstack, List.filterMap_reverse,
    List.map_reverse, List.map_reverse, hrow]

theorem traceStep (M : Reflects N k m s) : Reflects N k m.traceStep s.traceStep := by
  have hframes := M.frames
  rw [Machine.traceStep, CellMachine.traceStep]
  cases hfs : m.frames with
  | nil =>
      rw [hfs] at hframes
      rw [List.forall₂_nil_left_iff.mp hframes]
      exact M
  | cons f fs =>
      rw [hfs] at hframes
      obtain ⟨f', fs', hf, -, hfs'⟩ := List.forall₂_cons_left_iff.mp hframes
      rw [hfs', M.console]
      dsimp only
      rw [M.debugRow_eq, M.chunk_eq hf, hf.ip]
      split
      · exact (M.record _ _).record _ _
      · exact M

end Reflects

namespace CellMachine

/-- A step executes the instruction decoded at the instruction pointer. -/
theorem step_eq_exec {s : CellMachine} {f : Frame} {fs : List Frame} {ins : Instr} {next : Nat}
    (h : s.frames = f :: fs)
    (hi : (s.store.chunk f.closure.function).instr? f.ip = some (ins, next)) :
    step s = exec next ins (s.goto (f.ip + 1)) := by
  have hdecode : orViolate ((s.store.chunk f.closure.function).instr? f.ip)
      (.invalidInstructionPointer f.ip) s = .ok (ins, next) s := by
    rw [hi]
    rfl
  exact (bind_of_ok rfl).trans ((bind_of_ok (frame_apply h)).trans
    ((bind_of_ok hdecode).trans (bind_of_ok rfl)))

/-- Machines in the same calls give up in the same way. -/
theorem abort_eq {m : Machine} {s : CellMachine} (fault : Fault) (hconsole : s.console = m.console)
    (htrace : s.trace = m.trace) :
    (s.abort fault).1 = (m.abort fault).1 ∧ (s.abort fault).2.console = (m.abort fault).2.console :=
  ⟨by rw [abort, Machine.abort, htrace],
    congrArg (·.record .debug ("Runtime error: " ++ fault.message)) hconsole⟩

end CellMachine

theorem Machine.Alive.host {m : Machine} (h : m.Alive) (time : Number) : { m with time }.Alive := by
  obtain ⟨rs, ℓ, hlive⟩ := h
  exact ⟨rs, ℓ, fun n => (hlive n).host time m.console⟩

/-- A shape suits only constants of the source. -/
theorem Live.plain {rs : Array Routine} {ℓ : Lineage} {m : Machine} {f : Frame} {fs : List Frame}
    {v : Value} {q : Nat} (h : Live rs ℓ 1 m) (hframes : m.frames = f :: fs)
    (hi : (m.store.chunk f.closure.function).instr? f.ip = some (.push v, q)) : v.IsPlain := by
  obtain ⟨w, f₁, fs₁, G, E, σ, Γ, ins, q₁, -, -, R, hi₁, -, hflow⟩ := h.view
  obtain ⟨rfl, rfl⟩ := List.cons.inj (hframes.symm.trans R.frames)
  obtain ⟨rfl, rfl⟩ := Prod.mk.inj (Option.some.inj (hi.symm.trans hi₁))
  cases hflow with
  | push hv _ => exact hv

namespace Reflects

variable {N : Naming} {m : Machine} {s : CellMachine}

theorem sameReads (M : Reflects N 0 m s) (h : m.Alive) : SameReads N m s := by
  obtain ⟨rs, ℓ, hlive⟩ := h
  obtain ⟨f, fs, ins, q, hframes, hi, -⟩ := (hlive 1).next
  have hcalls := M.frames
  rw [hframes] at hcalls
  obtain ⟨f', fs', hf, -, hframes'⟩ := List.forall₂_cons_left_iff.mp hcalls
  exact ⟨f, fs, f', fs', ins, q, hframes, hframes', hi, by rw [M.chunk_eq hf, hf.ip, hi],
    (M.view hf).reads ins⟩

/-- One instruction of a run. -/
theorem echoes_step (M : Reflects N 0 m s) (h : m.Alive) :
    Echoes (Joined N) Machine.step m CellMachine.step s := by
  obtain ⟨f, fs, f', fs', ins, q, hframes, hframes', hi, hi', -⟩ := M.sameReads h
  obtain ⟨rs, ℓ, hlive⟩ := h
  have hstep := Machine.step_eq_exec hframes hi
  have hstep' := CellMachine.step_eq_exec hframes' hi'
  have hip : f'.ip = f.ip := by
    have hcalls := M.frames
    rw [hframes, hframes'] at hcalls
    exact (List.forall₂_cons.mp hcalls).1.ip
  obtain ⟨f₁, fs₁, ins₁, q₁, hframes₁, hi₁, hfree⟩ := (hlive 1).next
  obtain ⟨rfl, rfl⟩ := List.cons.inj (hframes.symm.trans hframes₁)
  obtain ⟨rfl, rfl⟩ := Prod.mk.inj (Option.some.inj (hi.symm.trans hi₁))
  have M₁ : Reflects N ins.replaces (m.goto (f.ip + 1)) (s.goto (f.ip + 1)) :=
    Reflects.goto { M with free := fun x hx => hfree x.1 x.2 hx } (f.ip + 1)
  have hbelow (m' : Machine) (hexec : ins.exec q (m.goto (f.ip + 1)) = .ok () m') :
      ∀ x ∈ m'.openCells, x.1 < m'.values.length := by
    have hgoes := (hlive 1).step
    rw [Fine, hstep, hexec] at hgoes
    intro x hx
    rw [← size_stack]
    exact hgoes.linked.below x.1 x.2 hx
  have hechoes := M₁.exec (q := q) (fun v hv => (hlive 1).plain hframes (hv ▸ hi))
    (fun op hop => Chunk.isOperator_of_instr? (hop ▸ hi))
    (fun g cs hcs => Chunk.le_of_instr?_closure (hcs ▸ hi)) hbelow
  rw [Echoes] at hechoes ⊢
  rw [hstep, hstep', hip]
  exact hechoes

/-- After a step both machines are in the same state again, and the run goes on, or both have
failed. -/
theorem step (M : Reflects N 0 m s) (h : m.Alive) :
    SameResult (fun m' s' => ∃ N' : Naming, N.Le N' ∧ Reflects N' 0 m' s' ∧ (m'.frames ≠ [] → m'.Alive))
      (Machine.step m.traceStep) (CellMachine.step s.traceStep) := by
  have hechoes := M.traceStep.echoes_step (m.hushed_traceStep.alive h)
  rw [Echoes] at hechoes
  rcases h.step with ⟨e, m', hstep⟩ | ⟨m', hstep, halive⟩
  · rw [hstep] at hechoes ⊢
    obtain ⟨s', hstep', hconsole, htrace⟩ := hechoes
    rw [hstep']
    exact .error hconsole htrace
  · rw [hstep] at hechoes ⊢
    obtain ⟨⟨⟩, s', hstep', N', hN, M'⟩ := hechoes
    rw [hstep']
    exact .ok ⟨N', hN, M', halive⟩

/-! ## Runs -/

theorem lockstep (M : Reflects N 0 m s) (h : m.Alive) (n : Nat) : Lockstep n N m s := by
  induction n generalizing N m s with
  | zero => exact M
  | succ n ih =>
      refine ⟨M, M.sameReads h, fun time => ((M.host time).step (h.host time)).mono ?_⟩
      rintro m' s' ⟨N', hN, M', halive⟩
      exact ⟨N', hN, M', fun hne => ih M' (halive hne)⟩

/-- Both machines come to the same end, with the same output and log. -/
theorem run (M : Reflects N 0 m s) (h : m.Alive) (budget : Nat) :
    (s.run budget).1 = (m.run budget).1 ∧ (s.run budget).2.console = (m.run budget).2.console := by
  induction budget generalizing N m s with
  | zero => exact ⟨rfl, M.console⟩
  | succ budget ih =>
      have hstep := M.step h
      rw [CellMachine.run, Machine.run]
      generalize Machine.step m.traceStep = r, CellMachine.step s.traceStep = r' at hstep
      cases hstep with
      | error hconsole htrace => exact CellMachine.abort_eq _ hconsole htrace
      | @ok m' s' hjoined =>
          obtain ⟨N', -, M', halive⟩ := hjoined
          have hframes := M'.frames
          dsimp only
          cases hfs : m'.frames with
          | nil =>
              rw [hfs] at hframes
              rw [List.forall₂_nil_left_iff.mp hframes]
              exact ⟨rfl, M'.console⟩
          | cons f fs =>
              rw [hfs] at hframes
              obtain ⟨f', fs', -, -, hfs'⟩ := List.forall₂_cons_left_iff.mp hframes
              rw [hfs']
              exact ih M' (halive (by rw [hfs]; exact List.cons_ne_nil f fs))

end Reflects

/-! ## Programs -/

/-- No cell stands for a variable yet. -/
def Naming.none : Naming where
  pair _ _ := False
  single := ⟨fun _ _ _ h => h.elim, fun _ _ _ h => h.elim⟩

/-- A new machine with its code, and its machine of cells. -/
theorem reflects_new (console : Console) (p : Program) :
    Reflects .none 0 ((Machine.new console).load p) (CellMachine.of ((Machine.new console).load p)) where
  tidy := { opened := fun c slot => iff_of_false nofun nofun, descending := .nil }
  free := nofun
  distinct := .nil
  values := .nil
  cells := nofun
  named := nofun
  frames := .nil
  chunks := rfl
  natives := ⟨rfl, rfl⟩
  nextId := rfl
  globals name := by
    have hglobals : ((Machine.new console).load p).globals =
        (∅ : Std.HashMap String Value).insert "clock" (.native (Store.newNative {} "clock" clock).1) := rfl
    rw [CellMachine.of, hglobals, Std.HashMap.getElem?_insert]
    split
    · exact .some (.fixed trivial)
    · rw [Std.HashMap.getElem?_empty]
      exact .none
  methods _ _ := .none
  classes := rfl
  fields _ _ := .none
  objects := rfl
  console := rfl
  time := rfl

theorem Reflects.enter {N : Naming} {k : Nat} {m : Machine} {s : CellMachine} (M : Reflects N k m s)
    (f : Function) : Echoes (Joined N) (Machine.enter f) m (CellMachine.enter f) s := by
  have hclosure : N.Agree (m.store.newClosure f #[]).1 (s.store.newClosure f #[]).1 := ⟨M.nextId, rfl, .nil⟩
  exact .bind_ok rfl rfl (.bind (M.newId.push_apply (.closure hclosure) fun _ _ M₁ => M₁.call hclosure))

namespace Program

variable {source : String} {p : Program}

/-- Both machines enter the program, in the same state. -/
theorem enters (hp : compile 0 source = .ok p) (console : Console) :
    ∃ m s N, Machine.enter p.main.function ((Machine.new console).load p) = .ok () m ∧
      CellMachine.enter p.main.function (.of ((Machine.new console).load p)) = .ok () s ∧
      Reflects N 0 m s ∧ m.Alive := by
  obtain ⟨tree, -, -, -, hlaid⟩ := Program.script_of_compile hp
  have henter := enter_apply (m := (Machine.new console).load p) (f := p.main.function) rfl rfl
    (by rw [hlaid.main])
  have hechoes := (reflects_new console p).enter p.main.function
  rw [Echoes, henter] at hechoes
  obtain ⟨⟨⟩, s, henter', N, -, M⟩ := hechoes
  exact ⟨_, s, N, henter, henter', M, alive_begun ⟨_, _, fun n => idle_new n console⟩ hp⟩

/-- Whatever program runs on a new machine, the machine of cells goes with it: for any number of steps
they are in the same states, and for any budget they come to the same end with the same output. -/
theorem runs_on_cells (hp : compile 0 source = .ok p) (console : Console) :
    (∃ m₀ m s N, (Machine.new console).prepare source = (.ok p.main.function, m₀) ∧
      Machine.enter p.main.function m₀ = .ok () m ∧
      CellMachine.enter p.main.function (.of m₀) = .ok () s ∧ ∀ n, Lockstep n N m s) ∧
    ∀ budget,
      (CellMachine.runSource (Machine.new console) budget source).1 =
        ((Machine.new console).runSource budget source).1 ∧
      (CellMachine.runSource (Machine.new console) budget source).2.console =
        ((Machine.new console).runSource budget source).2.console := by
  have hp' : compile (Machine.new console).store.chunks.size source = .ok p := hp
  obtain ⟨console', hprepare⟩ := prepare_of_compile hp'
  change _ = (Except.ok p.main.function, (Machine.new console').load p) at hprepare
  obtain ⟨m, s, N, henter, henter', M, halive⟩ := enters hp console'
  refine ⟨⟨_, m, s, N, hprepare, henter, henter', fun n => M.lockstep halive n⟩, fun budget => ?_⟩
  obtain ⟨hend, hconsole⟩ := M.run halive budget
  simp only [Machine.runSource, CellMachine.runSource, hprepare, interpret, CellMachine.interpret, henter,
    henter']
  exact ⟨congrArg Ending.ofOutcome hend, hconsole⟩

/-- A method that captures the class its own class inherits from. -/
theorem runs_on_cells_inheriting : ∃ p m₀ m s N,
    compile 0 inheritingSource = .ok p ∧
    (Machine.new {}).prepare inheritingSource = (.ok p.main.function, m₀) ∧
    Machine.enter p.main.function m₀ = .ok () m ∧
    CellMachine.enter p.main.function (.of m₀) = .ok () s ∧ ∀ n, Lockstep n N m s := by
  obtain ⟨p, -, hp, -⟩ := underway_inheriting
  obtain ⟨⟨m₀, m, s, N, hlockstep⟩, -⟩ := runs_on_cells hp {}
  exact ⟨p, m₀, m, s, N, hp, hlockstep⟩

end Program

end LoxMachine
