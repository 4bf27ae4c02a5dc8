import LoxMachine.Proofs.Machine.Halting
import LoxMachine.Proofs.Reference.Calls

/-!
# Instructions on both machines

One instruction on the machine and on the machine of cells. Only a few differ: variables are read and
assigned in slots or closed cells there, in the cells of positions here, and closures capture the
cells of slots there, the cells of positions here.

Main statement: `Reflects.exec`.
-/

namespace LoxMachine

open Machine

/-! ## Closures on the machine of cells -/

namespace CellMachine

variable {q d : Nat} {g : Function} {c : List Capture} {s s₁ : CellMachine}

theorem exec_closure {f : Frame} {fs : List Frame} {new : List Nat}
    (hpush : push .nil (s.goto q) = .ok () s₁) (hd : s₁.stack[0]? = some d)
    (hframes : s₁.frames = f :: fs) (hshared : c.mapM (shared f) s₁ = .ok new s₁) :
    exec q (.closure g c) s = .ok () { s₁ with
      store := (s₁.store.newClosure g new.toArray).2
      heap := s₁.heap.setIfInBounds d (.closure (s₁.store.newClosure g new.toArray).1) } := by
  have hmade : make (·.newClosure g new.toArray) s₁ = .ok (s₁.store.newClosure g new.toArray).1
      { s₁ with store := (s₁.store.newClosure g new.toArray).2 } := rfl
  have hcell : cellBelow 0 { s₁ with store := (s₁.store.newClosure g new.toArray).2 } = .ok d _ :=
    cellBelow_apply hd
  exact (bind_of_ok rfl).trans ((bind_of_ok hpush).trans ((bind_of_ok (frame_apply hframes)).trans
    ((bind_of_ok hshared).trans ((bind_of_ok hmade).trans (bind_of_ok hcell)))))

theorem exec_closure_full (hfull : ¬ s.stack.length < maxStack) :
    exec q (.closure g c) s = .error (.runtime .stackOverflow) (s.goto q) :=
  (bind_of_ok rfl).trans (bind_of_error ((push_apply .nil (s.goto q)).trans (if_neg hfull)))

end CellMachine

namespace Reflects

variable {α β : Type} {Q : α → Machine → β → CellMachine → Prop} {N : Naming} {k q d : Nat} {m : Machine}
  {s : CellMachine} {v v' : Value}

/-! ## Operators -/

theorem binary (M : Reflects N 2 m s) {g : Number → Number → Value} (hg : ∀ a b, (g a b).Fixed) :
    Echoes (Joined N) (Machine.binary g) m (CellMachine.binary g) s := by
  refine M.pop fun b b' m₁ s₁ hb M₁ => M₁.pop fun a a' m₂ s₂ ha M₂ => ?_
  cases ha with
  | @fixed a =>
      cases hb with
      | @fixed b =>
          cases a with
          | number a =>
              cases b with
              | number b => exact M₂.push_last (.fixed (hg a b))
              | _ => exact M₂.fail
          | _ => exact M₂.fail
      | closure | bound => cases a <;> exact M₂.fail
  | closure | bound => exact M₂.fail

theorem add (M : Reflects N 2 m s) : Echoes (Joined N) Machine.add m CellMachine.add s := by
  refine M.peek fun a a' ha => M.peek fun b b' hb => ?_
  cases ha with
  | @fixed a =>
      cases hb with
      | @fixed b =>
          cases a with
          | number a =>
              cases b with
              | number b => exact M.binary fun _ _ => trivial
              | _ => exact M.fail
          | string a =>
              cases b with
              | string b =>
                  refine M.pop fun _ _ m₁ s₁ _ M₁ => M₁.pop fun _ _ m₂ s₂ _ M₂ => ?_
                  exact M₂.push_last (.fixed trivial)
              | _ => exact M.fail
          | _ => exact M.fail
      | closure | bound => cases a <;> exact M.fail
  | closure | bound => exact M.fail

theorem operate {op : Opcode} (hop : op.IsOperator) (M : Reflects N op.takes m s) :
    Echoes (Joined N) (execute op) m (CellMachine.operate op) s := by
  cases op with
  | equal =>
      refine pop M fun b b' m₁ s₁ hb M₁ => M₁.pop fun a a' m₂ s₂ ha M₂ => ?_
      rw [ha.same_eq hb]
      exact M₂.push_last (.fixed trivial)
  | greater | less | subtract | multiply | divide => exact binary M fun _ _ => trivial
  | add => exact add M
  | not =>
      refine pop M fun v v' m₁ s₁ hv M₁ => ?_
      rw [hv.isFalsey_eq]
      exact M₁.push_last (.fixed trivial)
  | negate =>
      refine pop M fun v v' m₁ s₁ hv M₁ => ?_
      cases hv with
      | @fixed v =>
          cases v with
          | number a => exact M₁.push_last (.fixed trivial)
          | _ => exact M₁.fail
      | closure | bound => exact M₁.fail
  | print =>
      refine pop M fun v v' m₁ s₁ hv M₁ => .of_ok rfl rfl (M₁.setConsole ?_).joined
      rw [hv.toString_eq, M₁.console]
  | assert =>
      refine pop M fun v v' m₁ s₁ hv M₁ => ?_
      cases hv with
      | @fixed v =>
          cases v with
          | boolean b =>
              cases b with
              | true => exact .pure M₁.joined
              | false => exact M₁.fail
          | _ => exact M₁.fail
      | closure | bound => exact M₁.fail
  | _ => exact hop.elim

/-! ## Variables and properties -/

theorem setSlot {slot : Nat} (M : Reflects N k m s) (hv : N.Like v v') :
    Echoes (Joined N) (Machine.writeSlot slot v) m
      (CellMachine.cellAt slot >>= fun d => CellMachine.write d v') s := by
  by_cases hlt : slot < m.values.length
  · obtain ⟨d, hd⟩ := M.cell_of_slot hlt
    exact .bind_right (CellMachine.cellAt_apply hd) (M.writeSlot hd hv fun _ _ M₁ => M₁.joined)
  · exact .of_violation ((writeSlot_apply slot v).trans (if_neg hlt))

theorem getGlobal (M : Reflects N k m s) (name : String) :
    Echoes (Joined N) ((Instr.getGlobal name).exec q) m (CellMachine.exec q (.getGlobal name)) s := by
  refine M.moveTo q fun m₁ s₁ M₁ => .bind_ok rfl rfl ?_
  rcases rel_cases (M₁.globals name) with ⟨hnone, hnone'⟩ | ⟨v, v', hsome, hsome', hv⟩
  · rw [hnone, hnone']
    exact M₁.fail
  · rw [hsome, hsome']
    exact M₁.push_last hv

theorem setGlobal (M : Reflects N k m s) (name : String) :
    Echoes (Joined N) ((Instr.setGlobal name).exec q) m (CellMachine.exec q (.setGlobal name)) s := by
  refine M.moveTo q fun m₁ s₁ M₁ => M₁.peek fun v v' hv => .bind_ok rfl rfl ?_
  have hglobal := M₁.globals name
  rw [Std.HashMap.contains_eq_isSome_getElem?, Std.HashMap.contains_eq_isSome_getElem?]
  rcases rel_cases hglobal with ⟨hnone, hnone'⟩ | ⟨u, u', hsome, hsome', -⟩
  · rw [hnone, hnone']
    exact M₁.fail
  · rw [hsome, hsome']
    exact .of_ok rfl rfl (M₁.insertGlobal hv name).joined

theorem getUpvalue (M : Reflects N k m s) (i : Nat) :
    Echoes (Joined N) ((Instr.getUpvalue i).exec q) m (CellMachine.exec q (.getUpvalue i)) s := by
  refine M.moveTo q fun m₁ s₁ M₁ => M₁.frame fun f f' hf => cell hf fun c d hcd => ?_
  refine .bind_left rfl ?_
  obtain ⟨x, hx, hstands⟩ := M₁.cells c d hcd
  rw [hx]
  cases x with
  | inSlot slot =>
      obtain ⟨v, hv, v', hv', hlike⟩ := M₁.holds hstands
      exact .bind_ok (by rw [readSlot_apply, hv]) (CellMachine.read_apply hv') (M₁.push_last hlike)
  | closed v =>
      obtain ⟨-, v', hv', hlike⟩ := hstands
      exact .bind_right (CellMachine.read_apply hv') (M₁.push_last hlike)

theorem setUpvalue (M : Reflects N k m s) (i : Nat) :
    Echoes (Joined N) ((Instr.setUpvalue i).exec q) m (CellMachine.exec q (.setUpvalue i)) s := by
  refine M.moveTo q fun m₁ s₁ M₁ => M₁.frame fun f f' hf => cell hf fun c d hcd => ?_
  refine M₁.peek fun v v' hv => .bind_left rfl ?_
  obtain ⟨x, hx, hstands⟩ := M₁.cells c d hcd
  rw [hx]
  cases x with
  | inSlot slot => exact M₁.writeSlot hstands hv fun m₂ s₂ M₂ => M₂.joined
  | closed u => exact .of_ok rfl rfl (M₁.assignClosed hcd hx hv).joined

theorem getProperty (M : Reflects N 1 m s) (name : String) :
    Echoes (Joined N) ((Instr.getProperty name).exec q) m (CellMachine.exec q (.getProperty name)) s := by
  refine M.peek fun v v' hv => ?_
  cases hv with
  | @fixed v =>
      cases v with
      | object o =>
          refine M.moveTo q fun m₁ s₁ M₁ => .bind_ok rfl rfl ?_
          rcases rel_cases (M₁.fields o name) with ⟨hnone, hnone'⟩ | ⟨u, u', hsome, hsome', hu⟩
          · rw [hnone, hnone']
            exact M₁.bindMethod o.cls name
          · rw [hsome, hsome']
            exact M₁.pop fun _ _ m₂ s₂ _ M₂ => M₂.push_last hu
      | _ => exact M.fail
  | closure | bound => exact M.fail

theorem setProperty (M : Reflects N 2 m s) (name : String) :
    Echoes (Joined N) ((Instr.setProperty name).exec q) m (CellMachine.exec q (.setProperty name)) s := by
  refine M.peek fun v v' hv => ?_
  cases hv with
  | @fixed v =>
      cases v with
      | object o =>
          refine M.moveTo q fun m₁ s₁ M₁ => M₁.pop fun u u' m₂ s₂ hu M₂ => ?_
          refine .bind_ok rfl rfl ((M₂.setField hu o name).pop fun _ _ m₃ s₃ _ M₃ => ?_)
          exact M₃.push_last hu
      | _ => exact M.fail
  | closure | bound => exact M.fail

theorem invoke {count : Nat} (M : Reflects N (count + 1) m s) (name : String) :
    Echoes (Joined N) ((Instr.invoke name count).exec q) m (CellMachine.exec q (.invoke name count)) s := by
  refine M.moveTo q fun m₁ s₁ M₁ => M₁.peek fun v v' hv => ?_
  cases hv with
  | @fixed v =>
      cases v with
      | object o =>
          refine .bind_ok rfl rfl ?_
          rcases rel_cases (M₁.fields o name) with ⟨hnone, hnone'⟩ | ⟨u, u', hsome, hsome', hu⟩
          · rw [hnone, hnone']
            exact M₁.invokeFrom o.cls name
          · rw [hsome, hsome']
            refine M₁.slotBelow fun slot d hd _ => .bind (M₁.writeSlot hd hu fun m₂ s₂ M₂ => ?_)
            exact M₂.callValue hu
      | _ => exact M₁.fail
  | closure | bound => exact M₁.fail

/-! ## Classes -/

theorem makeClass (M : Reflects N k m s) (name : String) :
    Echoes (Joined N) ((Instr.makeClass name).exec q) m (CellMachine.exec q (.makeClass name)) s := by
  refine M.moveTo q fun m₁ s₁ M₁ => ?_
  have hclass : (s₁.store.newClass name).1 = (m₁.store.newClass name).1 := by
    rw [Store.newClass, Store.newClass, M₁.classes]
  have hmake : CellMachine.make (·.newClass name) s₁ =
      .ok (m₁.store.newClass name).1 { s₁ with store := (s₁.store.newClass name).2 } := by
    rw [← hclass]
    rfl
  exact .bind_ok rfl hmake ((M₁.newClass name).push_last (.fixed trivial))

theorem inheritFrom (M : Reflects N 1 m s) :
    Echoes (Joined N) (Instr.inherit.exec q) m (CellMachine.exec q .inherit) s := by
  refine M.moveTo q fun m₁ s₁ M₁ => M₁.peek fun v v' hv => ?_
  cases hv with
  | @fixed v =>
      cases v with
      | cls parent =>
          exact M₁.popClass fun child m₂ s₂ M₂ => .of_ok rfl rfl (M₂.inherit parent child).joined
      | _ => exact M₁.fail
  | closure | bound => exact M₁.fail

theorem defineMethod (M : Reflects N 1 m s) (name : String) :
    Echoes (Joined N) ((Instr.method name).exec q) m (CellMachine.exec q (.method name)) s := by
  refine M.moveTo q fun m₁ s₁ M₁ => M₁.pop fun v v' m₂ s₂ hv M₂ => ?_
  cases hv with
  | @fixed v hfixed =>
      cases v with
      | function | closure | bound => exact hfixed.elim
      | _ => exact .of_violation rfl
  | bound => exact .of_violation rfl
  | closure hg =>
      refine M₂.peek fun u u' hu => ?_
      cases hu with
      | @fixed u =>
          cases u with
          | cls c => exact .of_ok rfl rfl (M₂.setMethod hg c name).joined
          | _ => exact .of_violation rfl
      | closure | bound => exact .of_violation rfl

/-! ## Captured variables -/

/-- A scope drops a variable, or the machine closes it first. -/
theorem closeUpvalue (M : Reflects N 0 m s) :
    Echoes (Joined N) (Instr.closeUpvalue.exec q) m (CellMachine.exec q .closeUpvalue) s := by
  refine M.moveTo q fun m₁ s₁ M₁ => ?_
  cases hvs : m₁.values with
  | nil =>
      have hempty : Machine.slotBelow 0 m₁ = .error (.violation .stackUnderflow) m₁ := by
        rw [slotBelow_apply, hvs]
        rfl
      exact .bind (.of_violation hempty)
  | cons v vs =>
      obtain ⟨d, v', hd, hv', hlike⟩ := M₁.getElem? (n := 0) (v := v) (by rw [hvs]; rfl)
      have hslot : Machine.slotBelow 0 m₁ = .ok vs.length m₁ := by
        rw [slotBelow_apply, hvs]
        rfl
      have hlength := M₁.length_eq
      rw [hvs, List.length_cons] at hlength
      have M₂ := M₁.close vs.length
      rw [hlength, hvs, List.length_cons, Nat.add_sub_cancel_left] at M₂
      refine .bind_left hslot ?_
      by_cases hbeyond : (m₁.openCells.takeWhile (vs.length ≤ ·.1)).any (m₁.stack.size ≤ ·.1)
      · exact .bind (.of_violation ((closeFrom_apply m₁ vs.length).trans (if_pos hbeyond)))
      · refine .bind_left ((closeFrom_apply m₁ vs.length).trans (if_neg hbeyond)) ?_
        have hvs' : (m₁.closed vs.length).values = v :: vs := hvs
        exact .bind_ok (pop_cons hvs') (CellMachine.pop_apply hd hv') (.pure M₂.joined)

/-- A call drops all its positions, when the machine has closed the variables in them. -/
theorem leave (M : Reflects N 1 m s) :
    Echoes (Joined N) (Instr.ret.exec q) m (CellMachine.exec q .ret) s := by
  refine M.moveTo q fun m₁ s₁ M₁ => M₁.pop fun v v' m₂ s₂ hv M₂ => .bind_ok rfl rfl ?_
  have hframes := M₂.frames
  cases hfs : m₂.frames with
  | nil => exact .of_violation rfl
  | cons f fs =>
      rw [hfs] at hframes
      obtain ⟨f', fs', hf, hrest, hfs'⟩ := List.forall₂_cons_left_iff.mp hframes
      rw [hfs']
      have M₃ := (M₂.setFrames hrest).close f.base
      have hclose := closeFrom_apply { m₂ with frames := fs } f.base
      refine .bind_ok rfl rfl ?_
      by_cases hbeyond : (m₂.openCells.takeWhile (f.base ≤ ·.1)).any (m₂.stack.size ≤ ·.1)
      · exact .bind (.of_violation (hclose.trans (if_pos hbeyond)))
      · refine .bind_left (hclose.trans (if_neg hbeyond)) ?_
        refine .bind_right rfl (.bind_ok (truncate_apply f.base) rfl ?_)
        rw [hf.base]
        cases hrest with
        | nil => exact .pure M₃.joined
        | cons => exact M₃.push_last hv

/-- The closure is pushed when all its variables have been captured. -/
theorem exec_closure {f : Frame} {fs : List Frame} {g : Function} {cs : List Capture} {new : Array Nat}
    {m₁ : Machine} (hframes : m.frames = f :: fs)
    (hrun : captureAll (q - 2 * cs.length) cs #[] (m.goto (q - 2 * cs.length)) = .ok new m₁)
    (hvalues : m₁.values = m.values) :
    (Instr.closure g cs).exec q m =
      if m.values.length < maxStack then
        .ok () ({ m₁ with store := (m₁.store.newClosure g new).2 }.setValues
          (.closure (m₁.store.newClosure g new).1 :: m.values))
      else .error (.runtime .stackOverflow) { m₁ with store := (m₁.store.newClosure g new).2 } := by
  set m₂ : Machine := { m₁ with store := (m₁.store.newClosure g new).2 }
  have hexec : (Instr.closure g cs).exec q m = Machine.push (.closure (m₁.store.newClosure g new).1) m₂ := by
    change (Machine.moveTo _ >>= fun _ => captureAll _ _ _ >>= fun cells => _) m = _
    rw [bind_apply, moveTo_apply hframes (q - 2 * cs.length)]
    dsimp only
    rw [bind_apply, hrun]
    rfl
  rw [hexec, Machine.push_apply, show m₂.values = m.values from hvalues]

/-- The cells that a closure captures there, and those that it shares here. -/
theorem sharedCells {f f' : Frame} {cs : List Capture} {new : List Nat} (M : Reflects N k m s)
    (hf : N.SameCall f f') (hnew : List.Forall₂ (f.Leads m) cs new)
    (hopen : ∀ slot c d, (slot, c) ∈ m.openCells → atSlot? s.stack slot = some d → N.pair c d) :
    ∃ new', cs.mapM (CellMachine.shared f') s = .ok new' s ∧ List.Forall₂ N.pair new new' := by
  induction hnew with
  | nil => exact ⟨[], rfl, .nil⟩
  | @cons capture c cs new hlead _ ih =>
      obtain ⟨new', hmap, hnew'⟩ := ih
      obtain ⟨d, hd, hcd⟩ : ∃ d, CellMachine.shared f' capture s = .ok d s ∧ N.pair c d := by
        rw [Frame.Leads] at hlead
        rw [CellMachine.shared]
        split at hlead
        · rename_i hlocal
          have hfree : f.base + capture.index + k < m.values.length := M.free _ hlead
          obtain ⟨d, hd⟩ := M.cell_of_slot (Nat.lt_of_le_of_lt (Nat.le_add_right _ k) hfree)
          rw [if_pos hlocal, hf.base]
          exact ⟨d, CellMachine.cellAt_apply hd, hopen _ c d hlead hd⟩
        · rename_i hlocal
          rw [← Array.getElem?_toList] at hlead
          obtain ⟨d, hd, hcd⟩ := forall₂_getElem? hf.closure.cells hlead
          rw [Array.getElem?_toList] at hd
          rw [if_neg hlocal, hd]
          exact ⟨d, rfl, hcd⟩
      refine ⟨d :: new', ?_, .cons hcd hnew'⟩
      rw [List.mapM_cons]
      exact (CellMachine.bind_of_ok hd).trans (CellMachine.bind_of_ok hmap)

/-- A closure of cells that go together is put into the position that was made for it. -/
theorem placeClosure {g : Function} {new new' : List Nat} {vs : List Value} (M : Reflects N k m s)
    (hvalues : m.values = .nil :: vs) (hd : atSlot? s.stack vs.length = some d)
    (hnew : List.Forall₂ N.pair new new') :
    Reflects N k ({ m with store := (m.store.newClosure g new.toArray).2 }.setValues
        (.closure (m.store.newClosure g new.toArray).1 :: vs))
      { s with
        store := (s.store.newClosure g new'.toArray).2
        heap := s.heap.setIfInBounds d (.closure (s.store.newClosure g new'.toArray).1) } := by
  have hlike : N.Like (.closure (m.store.newClosure g new.toArray).1)
      (.closure (s.store.newClosure g new'.toArray).1) := .closure ⟨M.nextId, rfl, hnew⟩
  have M₁ := M.newId.assign hd hlike
  rw [show Machine.values { m with store := { m.store with nextId := m.store.nextId + 1 } } = .nil :: vs
    from hvalues, setSlot_cons, if_pos rfl] at M₁
  exact M₁

/-- There is room for a closure: it takes the cells of the variables it captures, that of its own
position among them when it captures itself. -/
theorem newClosure {f : Frame} {fs : List Frame} {g : Function} {cs : List Capture} {new : List Nat}
    {m₁ : Machine} (M : Reflects N k m s) (hframes : m.frames = f :: fs)
    (hcaptures : Captures f cs m new m₁) (hroom : m.values.length < maxStack)
    (hopened : ∀ x ∈ m₁.openCells, x.1 < (Value.nil :: m.values).length) :
    ∃ N' s', N.Le N' ∧ CellMachine.exec q (.closure g cs) s = .ok () s' ∧
      Reflects N' 0 ({ m₁.goto q with store := (m₁.store.newClosure g new.toArray).2 }.setValues
        (.closure (m₁.store.newClosure g new.toArray).1 :: m.values)) s' := by
  have hlength := M.length_eq
  have hcalls := M.frames
  rw [hframes] at hcalls
  obtain ⟨f', fs', hf, -, hframes'⟩ := List.forall₂_cons_left_iff.mp hcalls
  obtain ⟨htidy, hgrows, hleads⟩ := hcaptures.tidy M.tidy
  -- Its position is pushed first, so that the cell can be shared.
  set s₁ : CellMachine :=
    { s.goto q with heap := s.heap.push .nil, stack := s.heap.size :: s.stack } with hs₁
  have hpush : CellMachine.push .nil (s.goto q) = .ok () s₁ :=
    (CellMachine.push_apply _ _).trans (if_pos (hlength ▸ hroom))
  have hrunning : s₁.frames = { f' with ip := q } :: fs' := by
    rw [hs₁, CellMachine.goto, hframes']
    rfl
  have M₁ : Reflects N (k + 1) ((m.goto q).setValues (.nil :: m.values)) s₁ :=
    (M.goto q).push (.fixed trivial)
  have hgrows' : ((m.goto q).setValues (.nil :: m.values)).Grows
      ((m₁.goto q).setValues (.nil :: m.values)) := by
    obtain ⟨cells, openCells, rfl⟩ : ∃ cells openCells,
        m₁ = { m with store := { m.store with cells }, openCells } :=
      ⟨_, _, hgrows.eq⟩
    exact ⟨rfl, hgrows.cells⟩
  obtain ⟨N', hN, M₂, hopen⟩ := M₁.share hgrows' { htidy with } (by rwa [values_setValues])
  have hcall : N'.SameCall { f with ip := q } { f' with ip := q } :=
    ⟨hf.closure.mono hN, rfl, hf.base⟩
  obtain ⟨new', hshared, hpairs⟩ := M₂.sharedCells hcall hleads hopen
  have hd : atSlot? s₁.stack m.values.length = some s.heap.size := by
    rw [hs₁, atSlot?_cons, if_pos hlength.symm]
  exact ⟨N', _, hN, CellMachine.exec_closure hpush rfl hrunning hshared,
    M₂.placeClosure (values_setValues _ _) hd hpairs⟩

theorem closure {g : Function} {cs : List Capture} (M : Reflects N k m s) (hq : 2 * cs.length ≤ q)
    (hbelow : ∀ m', (Instr.closure g cs).exec q m = .ok () m' →
      ∀ x ∈ m'.openCells, x.1 < m'.values.length) :
    Echoes (Joined N) ((Instr.closure g cs).exec q) m (CellMachine.exec q (.closure g cs)) s := by
  have hlength := M.length_eq
  cases hframes : m.frames with
  | nil => exact .bind_violation (moveTo_nil hframes _)
  | cons f fs =>
      have hmove := moveTo_apply hframes (q - 2 * cs.length)
      cases hrun : captureAll (q - 2 * cs.length) cs #[] (m.goto (q - 2 * cs.length)) with
      | error e m₁ =>
          cases e with
          | runtime e => exact (halts_captureAll (Q := fun _ => False) e m₁ hrun).elim
          | violation v => exact .bind_left hmove (.bind_violation hrun)
      | ok cells m₁ =>
          obtain ⟨new, m₁, rfl, hcaptures, rfl⟩ := captures_of_ok hframes hrun
          rw [Array.empty_append, Nat.sub_add_cancel hq] at hrun
          have hexec := exec_closure (g := g) hframes hrun hcaptures.values
          by_cases hroom : m.values.length < maxStack
          · rw [if_pos hroom] at hexec
            have hopened : ∀ x ∈ m₁.openCells, x.1 < (Value.nil :: m.values).length := fun x hx => by
              have := hbelow _ hexec x hx
              rwa [values_setValues] at this
            obtain ⟨N', s', hN, hexec', M'⟩ := M.newClosure hframes hcaptures hroom hopened
            exact .of_ok hexec hexec' ⟨N', hN, M'⟩
          · rw [if_neg hroom] at hexec
            have hexec' := CellMachine.exec_closure_full (g := g) (c := cs) (q := q) (hlength ▸ hroom)
            obtain ⟨cells, openCells, rfl⟩ : ∃ cells openCells,
                m₁ = { m with store := { m.store with cells }, openCells } :=
              ⟨_, _, (hcaptures.tidy M.tidy).2.1.eq⟩
            exact .of_error hexec hexec' M.console (M.goto q).trace_eq

/-! ## One instruction -/

/-- What an instruction of a program does on the machine, it does on the machine of cells. -/
theorem exec {ins : Instr} (M : Reflects N ins.replaces m s) (hplain : ∀ v, ins = .push v → v.IsPlain)
    (hop : ∀ op, ins = .operator op → op.IsOperator)
    (hq : ∀ g cs, ins = .closure g cs → 2 * cs.length ≤ q)
    (hbelow : ∀ m', ins.exec q m = .ok () m' → ∀ x ∈ m'.openCells, x.1 < m'.values.length) :
    Echoes (Joined N) (ins.exec q) m (CellMachine.exec q ins) s := by
  cases ins with
  | push v => exact M.moveTo q fun m₁ s₁ M₁ => M₁.push_last (.fixed (hplain v rfl).fixed)
  | pop => exact M.moveTo q fun m₁ s₁ M₁ => pop M₁ fun _ _ m₂ s₂ _ M₂ => .pure M₂.joined
  | getLocal slot =>
      refine M.moveTo q fun m₁ s₁ M₁ => M₁.frame fun f f' hf => ?_
      rw [hf.base]
      exact M₁.readSlot fun v v' hv => M₁.push_last hv
  | setLocal slot =>
      refine M.moveTo q fun m₁ s₁ M₁ => M₁.frame fun f f' hf => M₁.peek fun v v' hv => ?_
      rw [hf.base]
      exact M₁.setSlot hv
  | getGlobal name => exact M.getGlobal name
  | defineGlobal name =>
      exact M.moveTo q fun m₁ s₁ M₁ => pop M₁ fun v v' m₂ s₂ hv M₂ =>
        .of_ok rfl rfl (M₂.insertGlobal hv name).joined
  | setGlobal name => exact M.setGlobal name
  | getUpvalue i => exact M.getUpvalue i
  | setUpvalue i => exact M.setUpvalue i
  | getProperty name => exact M.getProperty name
  | setProperty name => exact M.setProperty name
  | getSuper name =>
      exact M.moveTo q fun m₁ s₁ M₁ => popClass M₁ fun c m₂ s₂ M₂ => bindMethod M₂ c name
  | operator op => exact M.moveTo q fun m₁ s₁ M₁ => M₁.operate (hop op rfl)
  | jump target | loop target => exact M.jump target
  | jumpIfFalse target =>
      refine M.moveTo q fun m₁ s₁ M₁ => M₁.peek fun v v' hv => ?_
      rw [hv.isFalsey_eq]
      by_cases hfalse : v.isFalsey
      · rw [if_pos hfalse, if_pos hfalse]
        exact M₁.jump target
      · rw [if_neg hfalse, if_neg hfalse]
        exact .pure M₁.joined
  | call n => exact M.moveTo q fun m₁ s₁ M₁ => M₁.peek fun v v' hv => M₁.callValue hv
  | invoke name n => exact M.invoke name
  | superInvoke name n =>
      exact M.moveTo q fun m₁ s₁ M₁ => popClass M₁ fun c m₂ s₂ M₂ => M₂.invokeFrom c name
  | closure g cs => exact M.closure (hq g cs rfl) hbelow
  | closeUpvalue => exact M.closeUpvalue
  | ret => exact M.leave
  | makeClass name => exact M.makeClass name
  | inherit => exact M.inheritFrom
  | method name => exact M.defineMethod name

end Reflects

end LoxMachine
