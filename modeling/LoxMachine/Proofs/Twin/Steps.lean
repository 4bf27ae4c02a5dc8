import LoxMachine.Proofs.Code.Blocks
import LoxMachine.Proofs.Machine.Halting
import LoxMachine.Proofs.Twin.Calls

/-!
# Twins that execute an instruction

Two instructions that match, on two machines that are twins.

Main statement: `Amid.exec`.
-/

namespace LoxMachine

open Machine

section Values

variable {S : Scene} {n : Nat} {B : Bond} {m m' : Machine} {v v' u u' : Value}

theorem Heaps.isFalsey (h : Heaps S n B m m') (hv : B.Twin v v') : v'.isFalsey = v.isFalsey := by
  cases hv with
  | fixed => rfl
  | made hmade => cases h.linked _ _ hmade <;> rfl

theorem Heaps.toString_eq (h : Heaps S n B m m') (hv : B.Twin v v') : v'.toString = v.toString := by
  cases hv with
  | fixed => rfl
  | made hmade => exact ((h.linked _ _ hmade).toString_eq h.linked).symm

/-- Twins are equal to the same values. -/
theorem Heaps.same (h : Heaps S n B m m') (hv : B.Twin v v') (hu : B.Twin u u') :
    v'.same u' = v.same u := by
  have hmixed {a a' b : Value} (ha : B.made a a') (hb : b.Fixed) :
      a.same b = false ∧ b.same a = false ∧ a'.same b = false ∧ b.same a' = false := by
    cases h.linked _ _ ha <;> cases b <;> first | exact ⟨rfl, rfl, rfl, rfl⟩ | exact hb.elim
  cases hv with
  | fixed hv =>
      cases hu with
      | fixed => rfl
      | made hu =>
          obtain ⟨-, hleft, -, hright⟩ := hmixed hu hv
          rw [hleft, hright]
  | made hv =>
      cases hu with
      | fixed hu =>
          obtain ⟨hleft, -, hright, -⟩ := hmixed hv hu
          rw [hleft, hright]
      | made hu =>
          have hsingle := h.single _ _ _ _ hv hu
          cases h.linked _ _ hv <;> cases h.linked _ _ hu <;>
            exact decide_eq_decide.mpr hsingle.symm

end Values

section Instructions

variable {S : Scene} {n q q' : Nat} {B : Bond} {P : Pairing} {f f' : Frame} {fs fs' : List Frame}
  {m m' : Machine} {v v' : Value} {vs vs' : List Value}

/-! ## Operators -/

/-- One value less is on the stack once one has been popped. -/
theorem length_setValues_pop {k : Nat} {v : Value} {us : List Value} (heq : m.values = v :: us)
    (h : k + 1 < m.values.length) : k < (m.setValues us).values.length := by
  rw [heq, List.length_cons] at h
  rw [values_setValues]
  exact Nat.lt_of_succ_lt_succ h

/-- Operations on two numbers. -/
theorem Amid.binary (A : Amid S n B P f fs f' fs' m m') (hlen : 2 < m.values.length)
    (hresembles : Resembles S.left S.right n P f.ip f'.ip) {g : Number → Number → Value}
    (hg : ∀ a b, (g a b).Fixed) : Same S n (Machine.binary g) m (Machine.binary g) m' := by
  refine A.pop (by omega) fun b b' us us' heq _ hb hus => ?_
  have A₁ := A.setValues hus
  refine A₁.pop (length_setValues_pop heq hlen) fun a a' ws ws' _ _ ha hws => ?_
  have A₂ := A₁.setValues hws
  cases ha with
  | fixed =>
      cases a with
      | number a =>
          cases hb with
          | fixed =>
              cases b with
              | number b => exact A₂.push_last (.fixed (hg a b)) hresembles
              | _ => exact .fail A₂.heaps.output
          | made hmade => cases A.heaps.linked _ _ hmade <;> exact .fail A₂.heaps.output
      | _ => exact .fail A₂.heaps.output
  | made hmade => cases A.heaps.linked _ _ hmade <;> exact .fail A₂.heaps.output

theorem Amid.add (A : Amid S n B P f fs f' fs' m m') (hlen : 2 < m.values.length)
    (hresembles : Resembles S.left S.right n P f.ip f'.ip) :
    Same S n Machine.add m Machine.add m' := by
  refine A.peek hlen fun a a' _ _ ha => A.peek (by omega) fun b b' _ _ hb => ?_
  cases ha with
  | fixed =>
      cases hb with
      | fixed =>
          cases a with
          | number a =>
              cases b with
              | number b => exact A.binary hlen hresembles fun _ _ => trivial
              | _ => exact .fail A.heaps.output
          | string a =>
              cases b with
              | string b =>
                  refine A.pop (by omega) fun _ _ us us' heq _ _ hus => ?_
                  have A₁ := A.setValues hus
                  refine A₁.pop (length_setValues_pop heq hlen) fun _ _ ws ws' _ _ _ hws => ?_
                  exact (A₁.setValues hws).push_last (.fixed trivial) hresembles
              | _ => exact .fail A.heaps.output
          | _ => exact .fail A.heaps.output
      | made hmade =>
          cases A.heaps.linked _ _ hmade <;> cases a <;> exact .fail A.heaps.output
  | made hmade => cases A.heaps.linked _ _ hmade <;> exact .fail A.heaps.output

theorem output_printLine {c c' : Console} (houtput : c.output = c'.output) (hbroken : c.broken = c'.broken)
    (text : String) : (c.printLine text).output = (c'.printLine text).output ∧
      (c.printLine text).broken = (c'.printLine text).broken := by
  have hrecord (c : Console) : (c.record .error "Error writing output value: writer broken").output = c.output ∧
      (c.record .error "Error writing output value: writer broken").broken = c.broken := by
    rw [Console.record]
    split <;> exact ⟨rfl, rfl⟩
  rw [Console.printLine, Console.printLine, hbroken]
  split
  · rw [(hrecord c).1, (hrecord c').1, (hrecord c).2, (hrecord c').2]
    exact ⟨houtput, hbroken⟩
  · exact ⟨congrArg (· ++ text ++ "\n") houtput, rfl⟩

theorem Amid.operate (A : Amid S n B P f fs f' fs' m m') {op : Opcode} (hop : op.IsOperator)
    (hlen : op.takes < m.values.length) (hresembles : Resembles S.left S.right n P f.ip f'.ip) :
    Same S n (execute op) m (execute op) m' := by
  cases op with
  | equal =>
      refine A.pop (Nat.lt_of_succ_lt hlen) fun b b' us us' heq _ hb hus => ?_
      have A₁ := A.setValues hus
      refine A₁.pop (length_setValues_pop heq hlen) fun a a' ws ws' _ _ ha hws => ?_
      rw [A.heaps.same ha hb]
      exact (A₁.setValues hws).push_last (.fixed trivial) hresembles
  | greater | less | subtract | multiply | divide => exact A.binary hlen hresembles fun _ _ => trivial
  | add => exact A.add hlen hresembles
  | not =>
      refine A.pop hlen fun v v' us us' _ _ hv hus => ?_
      rw [A.heaps.isFalsey hv]
      exact (A.setValues hus).push_last (.fixed trivial) hresembles
  | negate =>
      refine A.pop hlen fun v v' us us' _ _ hv hus => ?_
      have A₁ := A.setValues hus
      cases hv with
      | fixed =>
          cases v with
          | number a => exact A₁.push_last (.fixed trivial) hresembles
          | _ => exact .fail A₁.heaps.output
      | made hmade => cases A.heaps.linked _ _ hmade <;> exact .fail A₁.heaps.output
  | print =>
      refine A.pop hlen fun v v' us us' _ _ hv hus => ?_
      have A₁ := A.setValues hus
      rw [A.heaps.toString_eq hv]
      obtain ⟨houtput, hbroken⟩ := output_printLine A.heaps.output A.heaps.broken v.toString
      have hheaps : Heaps S n B { m.setValues us with console := m.console.printLine v.toString }
          { m'.setValues us' with console := m'.console.printLine v.toString } :=
        { A₁.heaps with output := houtput, broken := hbroken }
      exact .of_ok rfl rfl (Amid.twins (A₁.change (.refl B) hheaps rfl rfl rfl rfl) hresembles)
  | assert =>
      refine A.pop hlen fun v v' us us' _ _ hv hus => ?_
      have A₁ := A.setValues hus
      cases hv with
      | fixed =>
          cases v with
          | boolean b =>
              cases b with
              | true => exact .pure (A₁.twins hresembles)
              | false => exact .fail A₁.heaps.output
          | _ => exact .fail A₁.heaps.output
      | made hmade => cases A.heaps.linked _ _ hmade <;> exact .fail A₁.heaps.output
  | _ => exact hop.elim

/-! ## Variables and properties -/

theorem Amid.getProperty (A : Amid S n B P f fs f' fs' m m') (name : String) (hlen : 1 < m.values.length)
    (hresembles : Resembles S.left S.right n P q q') :
    Same S n ((Instr.getProperty name).exec q) m ((Instr.getProperty name).exec q') m' := by
  refine A.peek hlen fun v v' _ _ hv => ?_
  cases hv with
  | fixed =>
      cases v with
      | object o =>
          have A₁ := A.goto q q'
          refine A.moveTo q q' (.bind_ok rfl rfl ?_)
          rcases rel_cases (A₁.heaps.fields o name) with ⟨hnone, hnone'⟩ | ⟨u, u', hsome, hsome', hu⟩
          · rw [hnone, hnone']
            exact A₁.bindMethod o.cls name hlen hresembles
          · rw [hsome, hsome']
            refine A₁.pop hlen fun _ _ us us' _ _ _ hus => ?_
            exact (A₁.setValues hus).push_last hu hresembles
      | _ => exact .fail A.heaps.output
  | made hmade => cases A.heaps.linked _ _ hmade <;> exact .fail A.heaps.output

theorem Amid.setProperty (A : Amid S n B P f fs f' fs' m m') (name : String) (hlen : 2 < m.values.length)
    (hresembles : Resembles S.left S.right n P q q') :
    Same S n ((Instr.setProperty name).exec q) m ((Instr.setProperty name).exec q') m' := by
  refine A.peek hlen fun v v' _ _ hv => ?_
  cases hv with
  | fixed =>
      cases v with
      | object o =>
          have A₁ := A.goto q q'
          refine A.moveTo q q' (A₁.pop (Nat.lt_of_succ_lt hlen) fun u u' us us' heq _ hu hus => ?_)
          have A₂ := A₁.setValues hus
          have A₃ := A₂.change (.refl B) (A₂.heaps.setField hu o name) rfl rfl rfl rfl
          refine .bind_ok rfl rfl (A₃.pop ?_ fun _ _ ws ws' _ _ _ hws => ?_)
          · exact length_setValues_pop heq hlen
          · exact (A₃.setValues hws).push_last hu hresembles
      | _ => exact .fail A.heaps.output
  | made hmade => cases A.heaps.linked _ _ hmade <;> exact .fail A.heaps.output

theorem Amid.getGlobal (A : Amid S n B P f fs f' fs' m m') (name : String)
    (hresembles : Resembles S.left S.right n P q q') :
    Same S n ((Instr.getGlobal name).exec q) m ((Instr.getGlobal name).exec q') m' := by
  have A₁ := A.goto q q'
  refine A.moveTo q q' (.bind_ok rfl rfl ?_)
  rcases rel_cases (A₁.heaps.globals name) with ⟨hnone, hnone'⟩ | ⟨v, v', hsome, hsome', hv⟩
  · rw [hnone, hnone']
    exact .fail A₁.heaps.output
  · rw [hsome, hsome']
    exact A₁.push_last hv hresembles

theorem Amid.setGlobal (A : Amid S n B P f fs f' fs' m m') (name : String) (hlen : 1 < m.values.length)
    (hresembles : Resembles S.left S.right n P q q') :
    Same S n ((Instr.setGlobal name).exec q) m ((Instr.setGlobal name).exec q') m' := by
  have A₁ := A.goto q q'
  refine A.moveTo q q' (A₁.peek hlen fun v v' _ _ hv => .bind_ok rfl rfl ?_)
  have A₂ := A₁.change (.refl B) (A₁.heaps.insertGlobal hv name) rfl rfl rfl rfl
  have hcontains : (m'.goto q').globals.contains name = (m.goto q).globals.contains name := by
    rw [Std.HashMap.contains_eq_isSome_getElem?, Std.HashMap.contains_eq_isSome_getElem?]
    rcases rel_cases (A₁.heaps.globals name) with ⟨hnone, hnone'⟩ | ⟨_, _, hsome, hsome', -⟩
    · rw [hnone, hnone']
    · rw [hsome, hsome']
      rfl
  rw [hcontains]
  by_cases hdefined : (m.goto q).globals.contains name
  · rw [if_pos hdefined, if_pos hdefined]
    exact .of_ok rfl rfl (A₂.twins hresembles)
  · rw [if_neg hdefined, if_neg hdefined]
    exact .fail A₁.heaps.output

theorem Amid.makeClass (A : Amid S n B P f fs f' fs' m m') (name : String)
    (hresembles : Resembles S.left S.right n P q q') :
    Same S n ((Instr.makeClass name).exec q) m ((Instr.makeClass name).exec q') m' := by
  have A₁ := A.goto q q'
  have hclass : (m'.store.newClass name).1 = (m.store.newClass name).1 := by
    rw [Store.newClass, Store.newClass, A.heaps.classes]
  have hmake : make (·.newClass name) (m'.goto q') =
      .ok (m.store.newClass name).1 { m'.goto q' with store := (m'.store.newClass name).2 } := by
    rw [← hclass]
    rfl
  have A₂ := A₁.change (.refl B) (A₁.heaps.newClass name) rfl rfl rfl rfl
  exact A.moveTo q q' (.bind_ok rfl hmake (A₂.push_last (.fixed trivial) hresembles))

theorem Amid.inherit (A : Amid S n B P f fs f' fs' m m') (hlen : 2 < m.values.length)
    (hresembles : Resembles S.left S.right n P q q') :
    Same S n (Instr.inherit.exec q) m (Instr.inherit.exec q') m' := by
  have A₁ := A.goto q q'
  refine A.moveTo q q' (A₁.peek hlen fun v v' _ _ hv => ?_)
  cases hv with
  | fixed =>
      cases v with
      | cls parent =>
          refine A₁.popClass (Nat.lt_of_succ_lt hlen) fun child us us' _ _ hus => ?_
          have A₂ := A₁.setValues hus
          have A₃ := A₂.change (.refl B) (A₂.heaps.inherit parent child) rfl rfl rfl rfl
          exact .of_ok rfl rfl (A₃.twins hresembles)
      | _ => exact .fail A₁.heaps.output
  | made hmade => cases A₁.heaps.linked _ _ hmade <;> exact .fail A₁.heaps.output

theorem Amid.defineMethod (A : Amid S n B P f fs f' fs' m m') (name : String) (hlen : 2 < m.values.length)
    (hresembles : Resembles S.left S.right n P q q') :
    Same S n ((Instr.method name).exec q) m ((Instr.method name).exec q') m' := by
  have A₁ := A.goto q q'
  refine A.moveTo q q' (A₁.pop (Nat.lt_of_succ_lt hlen) fun v v' us us' heq _ hv hus => ?_)
  have A₂ := A₁.setValues hus
  cases hv with
  | fixed hfixed => cases v <;> first | exact .of_violation rfl | exact hfixed.elim
  | made hmade =>
      cases A₁.heaps.linked _ _ hmade with
      | bound => exact .of_violation rfl
      | closure =>
          refine A₂.peek (length_setValues_pop heq hlen) fun u u' _ _ hu => ?_
          cases hu with
          | fixed =>
              cases u with
              | cls c =>
                  have A₃ := A₂.change (.refl B) (A₂.heaps.setMethod hmade c name) rfl rfl rfl rfl
                  exact .of_ok rfl rfl (A₃.twins hresembles)
              | _ => exact .of_violation rfl
          | made hmade' => cases A₂.heaps.linked _ _ hmade' <;> exact .of_violation rfl

theorem Amid.getUpvalue {k k' : Nat} (A : Amid S n B P f fs f' fs' m m') (hk : P.shares k k')
    (hresembles : Resembles S.left S.right n P q q') :
    Same S n ((Instr.getUpvalue k).exec q) m ((Instr.getUpvalue k').exec q') m' := by
  have A₁ := A.goto q q'
  refine A.moveTo q q' (A₁.frame (A₁.cell hk fun c c' hcell => .bind_ok rfl rfl ?_))
  obtain ⟨x, x', hx, hx', htwin⟩ := A₁.heaps.cells c c' hcell
  rw [hx, hx']
  cases htwin with
  | inSlot hpos => exact A₁.readSlot hpos fun v v' hv => A₁.push_last hv hresembles
  | closed hv => exact A₁.push_last hv hresembles

theorem Amid.setUpvalue {k k' : Nat} (A : Amid S n B P f fs f' fs' m m') (hk : P.shares k k')
    (hlen : 1 < m.values.length) (hresembles : Resembles S.left S.right n P q q') :
    Same S n ((Instr.setUpvalue k).exec q) m ((Instr.setUpvalue k').exec q') m' := by
  have A₁ := A.goto q q'
  refine A.moveTo q q' (A₁.frame (A₁.cell hk fun c c' hcell => A₁.peek hlen fun v v' _ _ hv => ?_))
  refine .bind_ok rfl rfl ?_
  obtain ⟨x, x', hx, hx', htwin⟩ := A₁.heaps.cells c c' hcell
  rw [hx, hx']
  cases htwin with
  | @inSlot slot hpos =>
      exact A₁.writeSlot fun _ => (A₁.setValues (A₁.values.setSlot hv slot)).twins hresembles
  | closed =>
      have A₂ := A₁.change (.refl B) (A₁.heaps.setCell hcell hv) rfl rfl rfl rfl
      exact .of_ok rfl rfl (A₂.twins hresembles)

/-! ## Captured variables -/

theorem Amid.captures {α β : Type} {Q : α → Machine → β → Machine → Prop} {p p' : Nat}
    {cs cs' : List Capture} (A : Amid S n B P f fs f' fs' m m') {g : Array Nat → Action α}
    {k : Array Nat → Action β}
    (h : ∀ new m₁ new' m₁', Captures f cs m new m₁ → Captures f' cs' m' new' m₁' →
      Jointly Q (g new.toArray) (m₁.goto (p + 2 * cs.length)) (k new'.toArray)
        (m₁'.goto (p' + 2 * cs'.length))) :
    Jointly Q (captureAll p cs #[] >>= g) (m.goto p) (captureAll p' cs' #[] >>= k) (m'.goto p') := by
  refine .bind ?_
  rw [Jointly]
  cases hx : captureAll p cs #[] (m.goto p) with
  | error e m₁ =>
      cases e with
      | runtime e => exact (halts_captureAll (Q := fun _ => False) e m₁ hx).elim
      | violation v => trivial
  | ok cells m₁ =>
      obtain ⟨new, m₁, rfl, hcaptures, rfl⟩ := captures_of_ok A.frames hx
      cases hy : captureAll p' cs' #[] (m'.goto p') with
      | error e m₁' =>
          cases e with
          | runtime e => exact (halts_captureAll (Q := fun _ => False) e m₁' hy).elim
          | violation v => trivial
      | ok cells' m₁' =>
          obtain ⟨new', m₁', rfl, hcaptures', rfl⟩ := captures_of_ok A.frames' hy
          have := h new m₁ new' m₁' hcaptures hcaptures'
          simpa using this

/-- The variables that two new closures share are shared already, or captured in the same slot. -/
theorem Amid.shared {G : Pairing} {cs cs' : List Capture} {new new' : List Nat}
    (A : Amid S n B P f fs f' fs' m m') (hcs : P.Captures G cs cs')
    (hnew : List.Forall₂ (f.Leads m) cs new) (hnew' : List.Forall₂ (f'.Leads m') cs' new') (k k' : Nat)
    (hk : G.shares k k') :
    ∃ x x', new.toArray[k]? = some x ∧ new'.toArray[k']? = some x' ∧ (B.sharing m m').cell x x' := by
  obtain ⟨c, c', hc, hc', hsource⟩ := hcs k k' hk
  obtain ⟨x, hx, hleads⟩ := forall₂_getElem? hnew hc
  obtain ⟨x', hx', hleads'⟩ := forall₂_getElem? hnew' hc'
  refine ⟨x, x', by rw [List.getElem?_toArray, hx], by rw [List.getElem?_toArray, hx'], ?_⟩
  cases hsource with
  | @«local» slot hslot =>
      rw [Frame.Leads, if_pos rfl] at hleads hleads'
      rw [A.lineup.base] at hleads'
      exact .inr ⟨f.base + slot, A.lineup.slot_pos hslot, hleads, hleads'⟩
  | outer hshares =>
      obtain ⟨y, y', hy, hy', hcell⟩ := A.lineup.seat.cells _ _ hshares
      obtain rfl := Option.some.inj (hleads.symm.trans hy)
      obtain rfl := Option.some.inj (hleads'.symm.trans hy')
      exact .inl hcell

theorem Amid.closure {g g' : Function} {cs cs' : List Capture} {G : Pairing}
    (A : Amid S n B P f fs f' fs' m m') (hm : m.Tidy) (hm' : m'.Tidy) (hlength : 2 * cs.length ≤ q)
    (hlength' : 2 * cs'.length ≤ q') (hname : g.name = g'.name) (harity : g.arity = g'.arity)
    (hscript : ¬ G.script) (hleft : S.left[g.index]? = some G.left)
    (hright : S.right[g'.index]? = some G.right) (hcode : Resembles S.left S.right n G 0 0)
    (hcs : P.Captures G cs cs') (hresembles : Resembles S.left S.right n P q q') :
    Same S n ((Instr.closure g cs).exec q) m ((Instr.closure g' cs').exec q') m' := by
  refine A.moveTo _ _ (A.captures fun new m₁ new' m₁' hcaptures hcaptures' => ?_)
  rw [Nat.sub_add_cancel hlength, Nat.sub_add_cancel hlength']
  obtain ⟨htidy, hgrows, hleads⟩ := hcaptures.tidy hm
  obtain ⟨htidy', hgrows', hleads'⟩ := hcaptures'.tidy hm'
  have A₁ := A.change (.refl B) (A.heaps.grow hgrows hgrows') hcaptures.frames_eq hcaptures'.frames_eq
    (by rw [hgrows.eq]) (by rw [hgrows'.eq])
  have A₂ := A₁.change (B.le_sharing m₁ m₁') (A₁.heaps.share htidy htidy') rfl rfl rfl rfl
  refine .bind_ok rfl rfl ((A₂.goto q q').push_made (.closure ?_) rfl rfl hresembles)
  exact ⟨hname, harity, G, hscript, ⟨hleft, hright, A₁.shared hcs hleads hleads'⟩, hcode⟩

theorem jointly_closeFrom {α β : Type} {Q : α → Machine → β → Machine → Prop} {slot : Nat}
    {g : Unit → Action α} {k : Unit → Action β}
    (h : Jointly Q (g ()) (m.closed slot) (k ()) (m'.closed slot)) :
    Jointly Q (closeFrom slot >>= g) m (closeFrom slot >>= k) m' := by
  refine .bind ?_
  by_cases hm : (m.openCells.takeWhile (slot ≤ ·.1)).any (m.stack.size ≤ ·.1)
  · exact .of_violation ((closeFrom_apply m slot).trans (if_pos hm))
  · by_cases hm' : (m'.openCells.takeWhile (slot ≤ ·.1)).any (m'.stack.size ≤ ·.1)
    · exact .of_violation_right ((closeFrom_apply m' slot).trans (if_pos hm'))
    · exact .of_ok ((closeFrom_apply m slot).trans (if_neg hm))
        ((closeFrom_apply m' slot).trans (if_neg hm')) h

/-- Nothing is left to close where all variables in slots lie below. -/
theorem Machine.closed_eq_self {slot : Nat} (h : ∀ x ∈ m.openCells, x.1 < slot) : m.closed slot = m := by
  have hdrop : m.openCells.dropWhile (slot ≤ ·.1) = m.openCells := by
    cases hcells : m.openCells with
    | nil => rfl
    | cons x l =>
        have := h x (by rw [hcells]; exact List.mem_cons_self)
        exact List.dropWhile_cons_of_neg (by simpa using this)
  have htake : m.openCells.takeWhile (slot ≤ ·.1) = [] := by
    cases hcells : m.openCells with
    | nil => rfl
    | cons x l =>
        have := h x (by rw [hcells]; exact List.mem_cons_self)
        exact List.takeWhile_cons_of_neg (by simpa using this)
  rw [Machine.closed, hdrop, htake]
  rfl

theorem Amid.closed (A : Amid S n B P f fs f' fs' m m') (hm : m.Tidy) (hm' : m'.Tidy) (slot : Nat) :
    Amid S n B P f fs f' fs' (m.closed slot) (m'.closed slot) :=
  A.change (.refl B) (A.heaps.closed hm hm' A.values slot) rfl rfl rfl rfl

/-! ## Ready for an instruction -/

/-- What is known of a machine that runs a program before its next instruction. -/
structure Machine.Ready (m : Machine) (ins : Instr) : Prop where
  tidy : m.Tidy
  deep : ins.pops < m.values.length
  /-- A value that is dropped is no variable that closures share. -/
  unshared : ins = .pop → ∀ x ∈ m.openCells, x.1 < m.values.length - 1

/-- Dropping a value that nobody shares is like closing it first. -/
theorem Machine.Ready.shed {ins : Instr} (h : m.Ready ins) (hins : ins.Sheds) :
    ins.exec q m = (do moveTo q; Machine.closeUpvalue : Action Unit) m := by
  rcases hins with rfl | rfl
  · rw [Instr.exec, bind_apply, bind_apply]
    cases hmove : Machine.moveTo q m with
    | error => rfl
    | ok u m₁ =>
        obtain rfl : m₁ = m.goto q := by
          cases hframes : m.frames with
          | nil =>
              simp [Machine.moveTo, hframes] at hmove
          | cons g gs =>
              rw [moveTo_apply hframes] at hmove
              cases hmove
              rfl
        have hlen : 0 < (m.goto q).values.length := Nat.lt_of_succ_lt h.deep
        have hbelow : ∀ x ∈ (m.goto q).openCells, x.1 < (m.goto q).values.length - 1 - 0 := h.unshared rfl
        have hclose : closeFrom ((m.goto q).values.length - 1 - 0) (m.goto q) = .ok () (m.goto q) := by
          rw [closeFrom_apply, Machine.closed_eq_self hbelow, if_neg]
          simp only [List.any_eq_true, decide_eq_true_eq, not_exists, not_and]
          intro x hx
          obtain ⟨hmem, -⟩ := (h.tidy.descending.mem_takeWhile (x := x)).mp hx
          have := hbelow x hmem
          rw [size_stack]
          omega
        simp only [Machine.closeUpvalue, bind_apply, slotBelow_apply, if_pos hlen, hclose]
  · rfl

theorem Amid.closeUpvalue (A : Amid S n B P f fs f' fs' m m') (hm : m.Tidy) (hm' : m'.Tidy)
    (hlen : 1 < m.values.length) (hresembles : Resembles S.left S.right n P f.ip f'.ip) :
    Same S n Machine.closeUpvalue m Machine.closeUpvalue m' := by
  refine A.slotBelow (by omega) (jointly_closeFrom ?_)
  have A₁ := A.closed hm hm' (m.values.length - 1 - 0)
  exact A₁.pop hlen fun _ _ us us' _ _ _ hus => .pure ((A₁.setValues hus).twins hresembles)

theorem Amid.leave (A : Amid S n B P f fs f' fs' m m') (hm : m.Tidy) (hm' : m'.Tidy)
    (hlen : 1 < m.values.length) (hscript : ¬ P.script) : Same S n Machine.leave m Machine.leave m' := by
  refine A.pop hlen fun v v' us us' _ _ hv hus => .bind_ok rfl rfl ?_
  have A₁ := A.setValues hus
  rw [A₁.frames, A₁.frames']
  refine .bind_ok rfl rfl ?_
  rw [A.lineup.base]
  have hheaps : Heaps S n B
      (Machine.closed { m.setValues us with frames := fs } f.base)
      (Machine.closed { m'.setValues us' with frames := fs' } f.base) := by
    have hbefore : Heaps S n B { m.setValues us with frames := fs } { m'.setValues us' with frames := fs' } :=
      { A₁.heaps with }
    exact hbefore.closed { hm with } { hm' with } A₁.values f.base
  refine jointly_closeFrom (.bind_ok (truncate_apply _) (truncate_apply _) ?_)
  cases A.lineup with
  | script h => exact absurd h hscript
  | @call _ Q _ _ g g' gs gs' _ _ hbase _ hresembles hlineup =>
      have hstacks : B.Stacks (us.drop (us.length - f.base)) (us'.drop (us'.length - f.base)) := by
        have := hus.pos
        rw [hus.length_eq]
        exact hus.drop (by omega)
      have A₂ : Amid S n B Q g gs g' gs'
          ((Machine.closed { m.setValues us with frames := g :: gs } f.base).setValues
            (us.drop (us.length - f.base)))
          ((Machine.closed { m'.setValues us' with frames := g' :: gs' } f.base).setValues
            (us'.drop (us'.length - f.base))) := {
        frames := rfl
        frames' := rfl
        lineup := hlineup
        values := by
          rw [values_setValues, values_setValues]
          exact hstacks
        heaps := { hheaps with } }
      have hvalues (m : Machine) (fs : List Frame) (us : List Value) :
          (Machine.closed { m.setValues us with frames := fs } f.base).values = us := values_setValues m us
      rw [hvalues, hvalues, if_pos (List.cons_ne_nil _ _), if_pos (List.cons_ne_nil _ _)]
      exact A₂.push_last hv hresembles

/-! ## One instruction -/

/-- What a match of two instructions that are the same does. -/
theorem Amid.portable {ins : Instr} (A : Amid S n B P f fs f' fs' m m') (hins : ins.Portable)
    (hop : ∀ op, ins = .operator op → op.IsOperator) (hready : m.Ready ins) (hready' : m'.Ready ins)
    (h : Resembles S.left S.right n P q q') : Same S n (ins.exec q) m (ins.exec q') m' := by
  have hdeep := hready.deep
  have A₁ := A.goto q q'
  cases ins with
  | push v =>
      refine A.moveTo q q' (A₁.push_last (.fixed ?_) h)
      cases v <;> trivial
  | pop =>
      exact A.moveTo q q' (A₁.pop hdeep fun _ _ us us' _ _ _ hus => .pure ((A₁.setValues hus).twins h))
  | closeUpvalue =>
      exact A.moveTo q q' (A₁.closeUpvalue { hready.tidy with } { hready'.tidy with } hdeep h)
  | getGlobal name => exact A.getGlobal name h
  | defineGlobal name =>
      refine A.moveTo q q' (A₁.pop hdeep fun v v' us us' _ _ hv hus => ?_)
      have A₂ := A₁.setValues hus
      have A₃ := A₂.change (.refl B) (A₂.heaps.insertGlobal hv name) rfl rfl rfl rfl
      exact .of_ok rfl rfl (A₃.twins h)
  | setGlobal name => exact A.setGlobal name hdeep h
  | getProperty name => exact A.getProperty name hdeep h
  | setProperty name => exact A.setProperty name hdeep h
  | getSuper name =>
      refine A.moveTo q q' (A₁.popClass (Nat.lt_of_succ_lt hdeep) fun c us us' heq _ hus => ?_)
      exact (A₁.setValues hus).bindMethod c name (length_setValues_pop heq hdeep) h
  | operator op => exact A.moveTo q q' (A₁.operate (hop op rfl) hdeep h)
  | call n =>
      exact A.moveTo q q' (A₁.peek hdeep fun v v' _ _ hv => A₁.callValue hv hdeep h)
  | invoke name n => exact A.moveTo q q' (A₁.invoke name hdeep h)
  | superInvoke name n =>
      refine A.moveTo q q' (A₁.popClass (Nat.lt_of_le_of_lt (Nat.le_add_left 1 (n + 1)) hdeep)
        fun c us us' heq _ hus => ?_)
      exact (A₁.setValues hus).invokeFrom c name (length_setValues_pop heq hdeep) h
  | makeClass name => exact A.makeClass name h
  | inherit => exact A.inherit hdeep h
  | method name => exact A.defineMethod name hdeep h
  | _ => exact hins.elim

/-- Two instructions that match do the same. -/
theorem Amid.exec {r r' : Nat} {ins ins' : Instr} (A : Amid S n B P f fs f' fs' m m')
    (hi : P.left.instr? r = some (ins, q)) (hi' : P.right.instr? r' = some (ins', q'))
    (hready : m.Ready ins) (hready' : m'.Ready ins')
    (hmatch : Match S.left S.right (Resembles S.left S.right n) P q q' ins ins') :
    Same S n (ins.exec q) m (ins'.exec q') m' := by
  have hdeep := hready.deep
  have A₁ := A.goto q q'
  cases hmatch with
  | portable hins h =>
      refine A.portable hins ?_ hready hready' h
      rintro op rfl
      exact Chunk.isOperator_of_instr? hi
  | shed hins hins' h =>
      have hlen : 1 < m.values.length := by rcases hins with rfl | rfl <;> exact hdeep
      have hsame : Same S n (do Machine.moveTo q; Machine.closeUpvalue) m
          (do Machine.moveTo q'; Machine.closeUpvalue) m' :=
        A.moveTo q q' (A₁.closeUpvalue { hready.tidy with } { hready'.tidy with } hlen h)
      rw [Same, Jointly] at hsame ⊢
      rwa [hready.shed hins, hready'.shed hins']
  | @getLocal slot hslot h =>
      refine A.moveTo q q' (A₁.frame ?_)
      rw [A.lineup.base]
      exact A₁.readSlot (A.lineup.slot_pos hslot) fun _ _ hv => A₁.push_last hv h
  | @setLocal slot hslot h =>
      refine A.moveTo q q' (A₁.frame (A₁.peek hdeep fun v v' _ _ hv => ?_))
      rw [A.lineup.base]
      exact A₁.writeSlot fun _ => (A₁.setValues (A₁.values.setSlot hv _)).twins h
  | getUpvalue hk h => exact A.getUpvalue hk h
  | setUpvalue hk h => exact A.setUpvalue hk hdeep h
  | @go _ _ t t' hgo hgo' h =>
      have hexec {ins : Instr} {t q : Nat} (hgo : ins.Goes t) : ins.exec q = Machine.moveTo t := by
        rcases hgo with rfl | rfl <;> rfl
      rw [hexec hgo, hexec hgo']
      exact .of_ok (moveTo_apply A.frames t) (moveTo_apply A.frames' t') ((A.goto t t').twins h)
  | @jumpIfFalse t t' ht h =>
      refine A.moveTo q q' (A₁.peek hdeep fun v v' _ _ hv => ?_)
      rw [A.heaps.isFalsey hv]
      by_cases hfalse : v.isFalsey
      · rw [if_pos hfalse, if_pos hfalse]
        exact .of_ok (moveTo_apply A₁.frames t) (moveTo_apply A₁.frames' t') ((A₁.goto t t').twins ht)
      · rw [if_neg hfalse, if_neg hfalse]
        exact .pure (A₁.twins h)
  | closure hname harity hscript hleft hright hcode hcs h =>
      exact A.closure hready.tidy hready'.tidy (Chunk.le_of_instr?_closure hi)
        (Chunk.le_of_instr?_closure hi') hname harity hscript hleft hright hcode hcs h
  | ret hscript => exact A.moveTo q q' (A₁.leave { hready.tidy with } { hready'.tidy with } hdeep hscript)

end Instructions

end LoxMachine
