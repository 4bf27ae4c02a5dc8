import LoxMachine.Proofs.Code.Layout
import LoxMachine.Proofs.Meaning.Places
import LoxMachine.Proofs.Twin.Running

/-!
# Machines and memories

A machine in the code of a script holds a memory: its stack has the local variables and, on top of
them, what is being computed (`Layout.Holds`). The instructions do to the machine what evaluations do to
the memory. `CarriesOut` compares the rest of a run with the result of an evaluation; the stack of the
machine may overflow at any time.

Main statements: `CarriesOut.bind` and `CarriesOut.iterate`.
-/

namespace LoxMachine

open Machine Syntax

/-! ## Parts of a run -/

/-- The run fails with this error, after it has printed `output` in all. -/
def Machine.Fails (m : Machine) (e : RuntimeError) (output : String) : Prop :=
  ∃ k m' m'', m.Continues k m' ∧ Machine.step m'.traceStep = .error (.runtime e) m'' ∧
    m''.console.output = output

def Machine.Overflows (m : Machine) : Prop :=
  ∃ output, m.Fails .stackOverflow output

/-- The next instruction leads to a machine with `Q`, or the stack overflows. -/
def Machine.GoesOn (m : Machine) (Q : Machine → Prop) : Prop :=
  m.Overflows ∨ ∃ m', m.Continues 1 m' ∧ Q m'

/-- So it does if `r` is a value, and fails otherwise. -/
def Machine.Settles {α : Type} (m : Machine) (output : String) (Q : α → Machine → Prop) :
    Except RuntimeError α → Prop
  | .ok a => m.GoesOn (Q a)
  | .error e => m.Fails e output

/-- What becomes of a machine is the result `r` of an evaluation; where it goes on, `post` holds. If the
evaluation is exhausted, then the machine goes on for `n` instructions. -/
inductive CarriesOut {α : Type} (n : Nat) (post : α → Memory → Machine → Prop) (m : Machine) :
    EStateM.Result Stop Memory α → Prop where
  | overflow {r} : m.Overflows → CarriesOut n post m r
  | ok {k m' a M} : m.Continues k m' → post a M m' → CarriesOut n post m (.ok a M)
  | error {e M} : m.Fails e M.output → CarriesOut n post m (.error (.error e) M)
  | exhausted {k m' M} : n ≤ k → m.Continues k m' → CarriesOut n post m (.error .exhausted M)

section CarriesOut

variable {α β : Type} {n k : Nat} {m m' : Machine} {M : Memory} {e : RuntimeError} {output : String}
  {post : α → Memory → Machine → Prop} {post' : β → Memory → Machine → Prop} {Q : Machine → Prop}

theorem Machine.Continues.fails (h : m.Continues k m') (h' : m'.Fails e output) : m.Fails e output := by
  obtain ⟨j, m₁, m₂, hgo, hstep, houtput⟩ := h'
  exact ⟨k + j, m₁, m₂, h.trans hgo, hstep, houtput⟩

theorem Machine.Continues.overflows (h : m.Continues k m') (h' : m'.Overflows) : m.Overflows :=
  have ⟨output, h'⟩ := h'
  ⟨output, h.fails h'⟩

namespace CarriesOut

theorem mono {j : Nat} {r : EStateM.Result Stop Memory α} (h : CarriesOut n post m r) (hj : j ≤ n) :
    CarriesOut j post m r := by
  cases h with
  | overflow h => exact .overflow h
  | ok h hpost => exact .ok h hpost
  | error h => exact .error h
  | exhausted hk h => exact .exhausted (Nat.le_trans hj hk) h

/-- Instructions in front count for an exhausted evaluation. -/
theorem behind {r : EStateM.Result Stop Memory α} (h : m.Continues k m') (h' : CarriesOut n post m' r) :
    CarriesOut (k + n) post m r := by
  cases h' with
  | overflow h' => exact .overflow (h.overflows h')
  | ok h' hpost => exact .ok (h.trans h') hpost
  | error h' => exact .error (h.fails h')
  | exhausted hj h' => exact .exhausted (Nat.add_le_add_left hj k) (h.trans h')

theorem after {r : EStateM.Result Stop Memory α} (h : m.Continues k m') (h' : CarriesOut n post m' r) :
    CarriesOut n post m r :=
  (behind h h').mono (Nat.le_add_left n k)

theorem advance {r : EStateM.Result Stop Memory α} (h : m.GoesOn Q)
    (h' : ∀ m', Q m' → CarriesOut n post m' r) : CarriesOut n post m r := by
  rcases h with h | ⟨m', h, hQ⟩
  · exact .overflow h
  · exact after h (h' m' hQ)

theorem weaken {r : EStateM.Result Stop Memory α} {post' : α → Memory → Machine → Prop}
    (h : CarriesOut n post m r) (hpost : ∀ a M m', post a M m' → post' a M m') : CarriesOut n post' m r := by
  cases h with
  | overflow h => exact .overflow h
  | ok h hp => exact .ok h (hpost _ _ _ hp)
  | error h => exact .error h
  | exhausted hk h => exact .exhausted hk h

/-- Instructions behind that cannot fail. -/
theorem before {r : EStateM.Result Stop Memory α} {post' : α → Memory → Machine → Prop}
    (h : CarriesOut n post m r)
    (hpost : ∀ a M m', post a M m' → ∃ k m'', m'.Continues k m'' ∧ post' a M m'') :
    CarriesOut n post' m r := by
  cases h with
  | overflow h => exact .overflow h
  | ok h hp =>
      obtain ⟨k, m'', hgo, hp'⟩ := hpost _ _ _ hp
      exact .ok (h.trans hgo) hp'
  | error h => exact .error h
  | exhausted hk h => exact .exhausted hk h

theorem settle {r : Except RuntimeError α} {Q : α → Machine → Prop} (h : m.Settles M.output Q r)
    (hpost : ∀ a m', Q a m' → post a M m') : CarriesOut n post m (ofExcept r M) := by
  cases r with
  | ok a => exact advance h fun m' hQ => .ok (.refl m') (hpost a m' hQ)
  | error e => exact .error h

/-- The machine goes on where the evaluation does. -/
theorem bind {x : Eval α} {f : α → Eval β} (h : CarriesOut n post m (x M))
    (h' : ∀ a M' m', post a M' m' → CarriesOut n post' m' (f a M')) : CarriesOut n post' m ((x >>= f) M) := by
  change CarriesOut n post' m (EStateM.bind x f M)
  rw [EStateM.bind]
  generalize x M = r at h
  cases h with
  | overflow h => exact .overflow h
  | ok hgo hpost => exact after hgo (h' _ _ _ hpost)
  | error h => exact .error h
  | exhausted hk h => exact .exhausted hk h

/-- A loop, around which the machine takes at least one instruction. -/
theorem iterate {test : Eval Bool} {body : Eval Unit} {P : Memory → Machine → Prop}
    {Q : Bool → Memory → Machine → Prop} {fuel : Nat}
    (htest : ∀ M m, P M m → CarriesOut fuel Q m (test M))
    (hbody : ∀ M m, Q true M m →
      CarriesOut fuel (fun _ M' m' => ∃ m'', m'.Continues 1 m'' ∧ P M' m'') m (body M))
    (hn : n ≤ fuel) (h : P M m) : CarriesOut n (fun _ => Q false) m (Syntax.iterate test body n M) := by
  induction n generalizing M m with
  | zero => exact .exhausted (Nat.le_refl 0) (.refl m)
  | succ n ih =>
      refine bind ((htest M m h).mono hn) fun b M' m' hb => ?_
      cases b with
      | false => exact .ok (.refl m') hb
      | true =>
          refine bind ((hbody M' m' hb).mono hn) fun _ M₁ m₁ ⟨m₂, hgo, hinv⟩ => ?_
          have hrest := behind hgo (ih (Nat.le_of_succ_le hn) hinv)
          rwa [Nat.add_comm] at hrest

end CarriesOut

end CarriesOut

/-- The operator that another one negates. -/
def Syntax.BinaryOp.positive : BinaryOp → BinaryOp
  | .notEqual => .equal
  | .greaterEqual => .less
  | .lessEqual => .greater
  | op => op

/-! ## Machines that hold a memory -/

namespace Layout

/-- The machine is at `p` in the code of a script, with the values `vs` on top of the variables. -/
structure Holds (F : Layout) (vs : List Value) (M : Memory) (p : Nat) (m : Machine) : Prop where
  frame : ∃ c : Closure, m.frames = [⟨c, p, 0⟩] ∧ m.store.chunk c.function = F.code
  values : ∃ callee, m.values = vs ++ M.slots callee
  globals : m.globals = M.globals
  openCells : m.openCells = []
  output : m.console.output = M.output
  broken : m.console.broken = false

end Layout

/-- An action goes on where `Q` holds, or the stack overflows. -/
def Succeeds (x : Action Unit) (m : Machine) (Q : Machine → Prop) : Prop :=
  (∃ m', x m = .error (.runtime .stackOverflow) m') ∨ ∃ m', x m = .ok () m' ∧ Q m'

/-- An action ends as a computation does. -/
def Answers {α : Type} (x : Action Unit) (m : Machine) (output : String) (Q : α → Machine → Prop) :
    Except RuntimeError α → Prop
  | .ok a => Succeeds x m (Q a)
  | .error e => ∃ m', x m = .error (.runtime e) m' ∧ m'.console.output = output

section Actions

variable {x y : Action Unit} {m : Machine} {Q : Machine → Prop}

theorem Succeeds.congr (hrun : x m = y m) (h : Succeeds y m Q) : Succeeds x m Q := by
  rwa [Succeeds, hrun]

theorem Answers.congr {α : Type} {output : String} {Q : α → Machine → Prop} {r : Except RuntimeError α}
    (hrun : x m = y m) (h : Answers y m output Q r) : Answers x m output Q r := by
  cases r with
  | ok a => exact Succeeds.congr hrun h
  | error e =>
      rw [Answers] at h ⊢
      rwa [hrun]

theorem closed_of_nil {slot : Nat} (h : m.openCells = []) : m.closed slot = m := by
  obtain ⟨store, globals, stack, frames, openCells, console, time⟩ := m
  obtain rfl : openCells = [] := h
  rfl

end Actions

namespace Layout.Holds

variable {F : Layout} {vs ws : List Value} {v a b : Value} {M M' : Memory} {i j p q n : Nat}
  {m m' : Machine} {name : String} {ins : Instr}

theorem frames_ne_nil (h : F.Holds vs M p m) : m.frames ≠ [] := by
  obtain ⟨c, hframes, -⟩ := h.frame
  rw [hframes]
  exact List.cons_ne_nil _ _

theorem hushed (h : F.Holds vs M p m) (hm : m.Hushed m') : F.Holds vs M p m' := by
  obtain ⟨c, rfl, houtput, hbroken⟩ := hm
  exact { h with output := houtput.trans h.output, broken := hbroken.trans h.broken }

theorem goto (h : F.Holds vs M p m) (q : Nat) : F.Holds vs M q (m.goto q) := by
  obtain ⟨c, hframes, hcode⟩ := h.frame
  exact { h with frame := ⟨c, frames_goto m q hframes, hcode⟩ }

/-- Other values on top of the variables. -/
theorem setValues {callee : Value} (h : F.Holds vs M p m) :
    F.Holds ws M p (m.setValues (ws ++ M.slots callee)) :=
  { h with values := ⟨callee, values_setValues _ _⟩ }

/-! ## The stack -/

theorem push (h : F.Holds vs M p m) (v : Value) : Succeeds (Machine.push v) m (F.Holds (v :: vs) M p) := by
  obtain ⟨callee, hvalues⟩ := h.values
  rw [Succeeds, push_apply]
  split
  · rw [hvalues, ← List.cons_append]
    exact .inr ⟨_, rfl, h.setValues⟩
  · exact .inl ⟨m, rfl⟩

theorem pop (h : F.Holds (v :: vs) M p m) : ∃ m', Machine.pop m = .ok v m' ∧ F.Holds vs M p m' := by
  obtain ⟨callee, hvalues⟩ := h.values
  rw [List.cons_append] at hvalues
  exact ⟨_, pop_cons hvalues, h.setValues⟩

theorem peek (h : F.Holds (v :: vs) M p m) : Machine.peek 0 m = .ok v m := by
  obtain ⟨callee, hvalues⟩ := h.values
  rw [peek_values, hvalues]
  rfl

theorem peek_one (h : F.Holds (b :: a :: vs) M p m) : Machine.peek 1 m = .ok a m := by
  obtain ⟨callee, hvalues⟩ := h.values
  rw [peek_values, hvalues]
  rfl

/-! ## Operators -/

theorem binary (h : F.Holds (b :: a :: vs) M p m) (f : Number → Number → Value) :
    Answers (Machine.binary f) m M.output (fun v => F.Holds (v :: vs) M p) (numbers f a b) := by
  obtain ⟨m₁, hpop, h₁⟩ := h.pop
  obtain ⟨m₂, hpop', h₂⟩ := h₁.pop
  cases a with
  | number a =>
      cases b with
      | number b =>
          have hrun : Machine.binary f m = Machine.push (f a b) m₂ := by
            simp only [Machine.binary, bind_apply, hpop, hpop']
          rw [numbers, Answers, Succeeds, hrun]
          exact h₂.push _
      | _ => exact ⟨m₂, by simp only [Machine.binary, bind_apply, hpop, hpop', fail_apply], h₂.output⟩
  | _ => exact ⟨m₂, by simp only [Machine.binary, bind_apply, hpop, hpop', fail_apply], h₂.output⟩

theorem add (h : F.Holds (b :: a :: vs) M p m) :
    Answers Machine.add m M.output (fun v => F.Holds (v :: vs) M p) (BinaryOp.add.apply a b) := by
  have hbinary := h.binary fun a b => .number (a.add b)
  obtain ⟨m₁, hpop, h₁⟩ := h.pop
  obtain ⟨m₂, hpop', h₂⟩ := h₁.pop
  have hpeek := h.peek
  have hpeek' := h.peek_one
  cases a with
  | number a =>
      cases b with
      | number b =>
          have hrun : Machine.add m = Machine.binary (fun a b => .number (a.add b)) m := by
            simp only [Machine.add, bind_apply, hpeek, hpeek']
          exact hbinary.congr hrun
      | _ => exact ⟨m, by simp only [Machine.add, bind_apply, hpeek, hpeek', fail_apply], h.output⟩
  | string a =>
      cases b with
      | string b =>
          have hrun : Machine.add m = Machine.push (.string (a ++ b)) m₂ := by
            simp only [Machine.add, bind_apply, hpeek, hpeek', hpop, hpop']
          rw [BinaryOp.apply, Answers, Succeeds, hrun]
          exact h₂.push _
      | _ => exact ⟨m, by simp only [Machine.add, bind_apply, hpeek, hpeek', fail_apply], h.output⟩
  | _ => exact ⟨m, by simp only [Machine.add, bind_apply, hpeek, hpeek', fail_apply], h.output⟩

theorem equal (h : F.Holds (b :: a :: vs) M p m) :
    Succeeds (execute .equal) m (F.Holds (.boolean (a.same b) :: vs) M p) := by
  obtain ⟨m₁, hpop, h₁⟩ := h.pop
  obtain ⟨m₂, hpop', h₂⟩ := h₁.pop
  have hrun : execute .equal m = Machine.push (.boolean (a.same b)) m₂ := by
    simp only [execute, bind_apply, hpop, hpop']
  rw [Succeeds, hrun]
  exact h₂.push _

/-- What the operation of an operator makes, up to a negation. -/
theorem operate (h : F.Holds (b :: a :: vs) M p m) (op : BinaryOp) :
    Answers (execute op.code) m M.output (fun v => F.Holds (v :: vs) M p) (op.positive.apply a b) := by
  cases op with
  | add => exact h.add
  | equal | notEqual => exact h.equal
  | subtract | multiply | divide | less | greater | greaterEqual | lessEqual => exact h.binary _

theorem not (h : F.Holds (v :: vs) M p m) :
    Succeeds (execute .not) m (F.Holds (.boolean v.isFalsey :: vs) M p) := by
  obtain ⟨m₁, hpop, h₁⟩ := h.pop
  have hrun : execute .not m = Machine.push (.boolean v.isFalsey) m₁ := by
    simp only [execute, bind_apply, hpop]
  rw [Succeeds, hrun]
  exact h₁.push _

theorem unary (h : F.Holds (v :: vs) M p m) (op : UnaryOp) :
    Answers (execute op.code) m M.output (fun v => F.Holds (v :: vs) M p) (op.apply v) := by
  cases op with
  | not => exact h.not
  | negate =>
      obtain ⟨m₁, hpop, h₁⟩ := h.pop
      cases v with
      | number n =>
          have hrun : execute .negate m = Machine.push (.number n.neg) m₁ := by
            simp only [execute, negate, bind_apply, hpop]
          rw [UnaryOp.code, UnaryOp.apply, Answers, Succeeds, hrun]
          exact h₁.push _
      | _ =>
          exact ⟨m₁, by simp only [UnaryOp.code, execute, negate, bind_apply, hpop, fail_apply], h₁.output⟩

theorem printTop (h : F.Holds (v :: vs) M p m) :
    Succeeds (execute .print) m (F.Holds vs (M.printLine v.toString) p) := by
  obtain ⟨m₁, hpop, h₁⟩ := h.pop
  refine .inr ⟨{ m₁ with console := m₁.console.printLine v.toString }, ?_, ?_⟩
  · simp only [execute, Machine.printTop, bind_apply, hpop, modify_apply]
  · have hprint : m₁.console.printLine v.toString =
        { m₁.console with output := m₁.console.output ++ v.toString ++ "\n" } := by
      rw [Console.printLine, if_neg (by rw [h₁.broken]; exact Bool.false_ne_true)]
    rw [hprint]
    exact { h₁ with output := congrArg (· ++ v.toString ++ "\n") h₁.output }

theorem assertTop (h : F.Holds (v :: vs) M p m) :
    Answers (execute .assert) m M.output (fun _ => F.Holds vs M p) (check v) := by
  obtain ⟨m₁, hpop, h₁⟩ := h.pop
  cases v with
  | boolean b =>
      cases b with
      | true => exact .inr ⟨m₁, by simp only [execute, Machine.assertTop, bind_apply, hpop]; rfl, h₁⟩
      | false => exact ⟨m₁, by simp only [execute, Machine.assertTop, bind_apply, hpop, fail_apply], h₁.output⟩
  | _ => exact ⟨m₁, by simp only [execute, Machine.assertTop, bind_apply, hpop, fail_apply], h₁.output⟩

/-! ## Variables -/

theorem getGlobal (h : F.Holds vs M p m) (name : String) :
    Answers (Machine.getGlobal name) m M.output (fun v => F.Holds (v :: vs) M p)
      (match M.globals[name]? with
      | some v => .ok v
      | none => .error (.undefinedVariable name)) := by
  cases hv : M.globals[name]? with
  | some v =>
      have hrun : Machine.getGlobal name m = Machine.push v m := by
        simp only [Machine.getGlobal, bind_apply, get_apply, h.globals, hv]
      rw [Answers, Succeeds, hrun]
      exact h.push v
  | none =>
      refine ⟨m, ?_, h.output⟩
      simp only [Machine.getGlobal, bind_apply, get_apply, h.globals, hv, fail_apply]

theorem setGlobal (h : F.Holds (v :: vs) M p m) (name : String) :
    Answers (Machine.setGlobal name) m M.output (fun M' => F.Holds (v :: vs) M' p)
      (if M.globals.contains name then .ok { M with globals := M.globals.insert name v }
        else .error (.undefinedVariable name)) := by
  have hpeek := h.peek
  split
  · rename_i hname
    refine .inr ⟨{ m with globals := m.globals.insert name v }, ?_, ?_⟩
    · simp only [Machine.setGlobal, bind_apply, hpeek, get_apply, Machine.ite_apply, h.globals, if_pos hname, modify_apply]
    · exact { h with globals := congrArg (·.insert name v) h.globals }
  · rename_i hname
    refine ⟨m, ?_, h.output⟩
    simp only [Machine.setGlobal, bind_apply, hpeek, get_apply, Machine.ite_apply, h.globals, if_neg hname, fail_apply]

theorem defineGlobal (h : F.Holds (v :: vs) M p m) (name : String) :
    Succeeds (Machine.defineGlobal name) m
      (F.Holds vs { M with globals := M.globals.insert name v } p) := by
  obtain ⟨m₁, hpop, h₁⟩ := h.pop
  refine .inr ⟨{ m₁ with globals := m₁.globals.insert name v }, ?_, ?_⟩
  · simp only [Machine.defineGlobal, bind_apply, hpop, modify_apply]
  · exact { h₁ with globals := congrArg (·.insert name v) h₁.globals }

theorem closeUpvalue (h : F.Holds (v :: vs) M p m) :
    ∃ m', Machine.closeUpvalue m = .ok () m' ∧ F.Holds vs M p m' := by
  obtain ⟨callee, hvalues⟩ := h.values
  obtain ⟨m₁, hpop, h₁⟩ := h.pop
  refine ⟨m₁, ?_, h₁⟩
  have hlt : 0 < m.values.length := by rw [hvalues]; exact Nat.succ_pos _
  rw [Machine.closeUpvalue, bind_apply, slotBelow_apply, if_pos hlt]
  dsimp only
  rw [bind_apply, closeFrom_apply, h.openCells, closed_of_nil h.openCells]
  simp only [List.takeWhile_nil, List.any_nil, Bool.false_eq_true, if_false, bind_apply, hpop, pure_apply]

/-! ## One instruction -/

theorem step (h : F.Holds vs M p m) (hi : F.At p ins q) {x : Action Unit}
    (hx : ins.exec q = (do moveTo q; x)) :
    ∃ m₁, F.Holds vs M q m₁ ∧ Machine.step m.traceStep = x m₁ := by
  have h₁ := h.hushed m.hushed_traceStep
  obtain ⟨c, hframes, hcode⟩ := h₁.frame
  refine ⟨m.traceStep.goto q, h₁.goto q, ?_⟩
  have hi₁ : (m.traceStep.store.chunk c.function).instr? p = some (ins, q) := hcode ▸ hi
  rw [step_eq_exec hframes hi₁, hx, bind_apply, moveTo_goto hframes]

theorem settles {α : Type} {Q : α → Machine → Prop} {r : Except RuntimeError α} {x : Action Unit}
    (h : F.Holds vs M p m) (hi : F.At p ins q) (hx : ins.exec q = (do moveTo q; x))
    (hQ : ∀ a m', Q a m' → m'.frames ≠ [])
    (hrun : ∀ m₁, F.Holds vs M q m₁ → Answers x m₁ M.output Q r) : m.Settles M.output Q r := by
  obtain ⟨m₁, h₁, hstep⟩ := h.step hi hx
  have hanswers := hrun m₁ h₁
  cases r with
  | ok a =>
      rcases hanswers with ⟨m', hfail⟩ | ⟨m', hok, hpost⟩
      · exact .inl ⟨_, 0, m, m', .refl m, hstep.trans hfail, rfl⟩
      · exact .inr ⟨m', .of_step (hstep.trans hok) (hQ a m' hpost), hpost⟩
  | error e =>
      obtain ⟨m', hfail, houtput⟩ := hanswers
      exact ⟨0, m, m', .refl m, hstep.trans hfail, houtput⟩

theorem goesOn {x : Action Unit} (h : F.Holds vs M p m) (hi : F.At p ins q)
    (hx : ins.exec q = (do moveTo q; x))
    (hrun : ∀ m₁, F.Holds vs M q m₁ → Succeeds x m₁ (F.Holds ws M' q)) : m.GoesOn (F.Holds ws M' q) :=
  h.settles (r := .ok ()) hi hx (fun _ _ => frames_ne_nil) hrun

theorem continues {x : Action Unit} (h : F.Holds vs M p m) (hi : F.At p ins q)
    (hx : ins.exec q = (do moveTo q; x))
    (hrun : ∀ m₁, F.Holds vs M q m₁ → ∃ m', x m₁ = .ok () m' ∧ F.Holds ws M' j m') :
    ∃ m', m.Continues 1 m' ∧ F.Holds ws M' j m' := by
  obtain ⟨m₁, h₁, hstep⟩ := h.step hi hx
  obtain ⟨m', hok, h'⟩ := hrun m₁ h₁
  exact ⟨m', .of_step (hstep.trans hok) h'.frames_ne_nil, h'⟩

theorem pushes (h : F.Holds vs M p m) (hi : F.At p (.push v) q) : m.GoesOn (F.Holds (v :: vs) M q) :=
  h.goesOn hi rfl fun _ h₁ => h₁.push v

theorem operator {op : Opcode} (h : F.Holds vs M p m) (hi : F.At p (.operator op) q)
    (hrun : ∀ m₁, F.Holds vs M q m₁ → Succeeds (execute op) m₁ (F.Holds ws M' q)) :
    m.GoesOn (F.Holds ws M' q) :=
  h.goesOn hi rfl hrun

theorem drop (h : F.Holds (v :: vs) M p m) (hi : F.At p .pop q) :
    ∃ m', m.Continues 1 m' ∧ F.Holds vs M q m' :=
  h.continues hi rfl fun m₁ h₁ => by
    obtain ⟨m', hpop, h'⟩ := h₁.pop
    exact ⟨m', by rw [bind_apply, hpop]; rfl, h'⟩

theorem close (h : F.Holds (v :: vs) M p m) (hi : F.At p .closeUpvalue q) :
    ∃ m', m.Continues 1 m' ∧ F.Holds vs M q m' :=
  h.continues hi rfl fun _ h₁ => h₁.closeUpvalue

/-- The end of a block takes its variables off the stack. -/
theorem drops {ls : List Local} (h : F.Holds vs M p m) (hdrops : F.Drops ls p q)
    (hlength : vs.length = ls.length) : ∃ k m', m.Continues k m' ∧ F.Holds [] M q m' := by
  induction ls generalizing vs p m with
  | nil =>
      obtain rfl : vs = [] := List.length_eq_zero_iff.mp hlength
      obtain rfl := hdrops
      exact ⟨0, m, .refl m, h⟩
  | cons l ls ih =>
      obtain ⟨v, vs, rfl⟩ := List.exists_cons_of_length_eq_add_one hlength
      obtain ⟨r, hi, hdrops⟩ := hdrops
      have hfirst : ∃ m', m.Continues 1 m' ∧ F.Holds vs M r m' := by
        split at hi
        · exact h.close hi
        · exact h.drop hi
      obtain ⟨m₁, hgo, h₁⟩ := hfirst
      obtain ⟨k, m', hgo', h'⟩ := ih h₁ hdrops (Nat.succ.inj hlength)
      exact ⟨1 + k, m', hgo.trans hgo', h'⟩

theorem jumps (h : F.Holds vs M p m) (hi : F.At p (.jump j) q) :
    ∃ m', m.Continues 1 m' ∧ F.Holds vs M j m' := by
  have h₁ := h.hushed m.hushed_traceStep
  obtain ⟨c, hframes, hcode⟩ := h₁.frame
  have hi₁ : (m.traceStep.store.chunk c.function).instr? p = some (.jump j, q) := hcode ▸ hi
  exact ⟨_, .of_step (step_goes hframes hi₁ (.inl rfl)) (h₁.goto j).frames_ne_nil, h₁.goto j⟩

theorem loops (h : F.Holds vs M p m) (hi : F.At p (.loop j) q) :
    ∃ m', m.Continues 1 m' ∧ F.Holds vs M j m' := by
  have h₁ := h.hushed m.hushed_traceStep
  obtain ⟨c, hframes, hcode⟩ := h₁.frame
  have hi₁ : (m.traceStep.store.chunk c.function).instr? p = some (.loop j, q) := hcode ▸ hi
  exact ⟨_, .of_step (step_goes hframes hi₁ (.inr rfl)) (h₁.goto j).frames_ne_nil, h₁.goto j⟩

theorem branches (h : F.Holds (v :: vs) M p m) (hi : F.At p (.jumpIfFalse j) q) :
    ∃ m', m.Continues 1 m' ∧ F.Holds (v :: vs) M (if v.isFalsey then j else q) m' :=
  h.continues hi rfl fun m₁ h₁ => by
    obtain ⟨c, hframes, -⟩ := h₁.frame
    rw [bind_apply, h₁.peek]
    dsimp only
    split
    · exact ⟨_, moveTo_apply hframes j, h₁.goto j⟩
    · exact ⟨m₁, rfl, h₁⟩

/-! ## Variables in their slots -/

theorem getLocal (h : F.Holds vs M p m) (hi : F.At p (.getLocal n) q) (hne : name ≠ "")
    (hslot : slotOf? name (M.names.flatten ++ [""]) = some n) :
    ∃ v, M.get? name = some v ∧ m.GoesOn (F.Holds (v :: vs) M q) := by
  obtain ⟨v, hget, hv⟩ := Memory.get?_of_slotOf? hne hslot
  refine ⟨v, hget, h.goesOn hi rfl fun m₁ h₁ => ?_⟩
  obtain ⟨c, hframes, -⟩ := h₁.frame
  obtain ⟨callee, hvalues⟩ := h₁.values
  have hread : readSlot (0 + n) m₁ = .ok v m₁ := by
    rw [readSlot_apply, Nat.zero_add, hvalues, atSlot?_append_of_some (hv callee)]
  refine Succeeds.congr ?_ (h₁.push v)
  rw [bind_apply, frame_apply hframes]
  dsimp only
  rw [bind_apply, hread]

theorem setLocal (h : F.Holds (v :: vs) M p m) (hi : F.At p (.setLocal n) q) (hne : name ≠ "")
    (hslot : slotOf? name (M.names.flatten ++ [""]) = some n) :
    ∃ M', M.set? name v = some M' ∧ M'.names = M.names ∧
      ∃ m', m.Continues 1 m' ∧ F.Holds (v :: vs) M' q m' := by
  obtain ⟨bs, hset, hnames, hslots⟩ := Memory.set?_of_slotOf? (v := v) hne hslot
  obtain ⟨w, -, hw⟩ := Memory.get?_of_slotOf? hne hslot
  refine ⟨_, hset, hnames, h.continues hi rfl fun m₁ h₁ => ?_⟩
  obtain ⟨c, hframes, -⟩ := h₁.frame
  obtain ⟨callee, hvalues⟩ := h₁.values
  have hlt := lt_of_atSlot? (hw callee)
  have hvalues' : setSlot m₁.values (0 + n) v =
      v :: vs ++ ({ M with blocks := bs } : Memory).slots callee := by
    rw [Nat.zero_add, hvalues, setSlot_append_right _ _ hlt, hslots]
  refine ⟨m₁.setValues (setSlot m₁.values (0 + n) v), ?_, ?_⟩
  · rw [bind_apply, frame_apply hframes]
    dsimp only
    rw [bind_apply, h₁.peek]
    dsimp only
    rw [writeSlot_apply, if_pos]
    rw [hvalues, List.length_append]
    omega
  · exact { h₁ with values := ⟨callee, by rw [values_setValues, hvalues']⟩ }

end Layout.Holds

end LoxMachine
