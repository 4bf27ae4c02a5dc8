import LoxMachine.Proofs.Typing.Calls

/-!
# Steps of a running machine

A machine whose code finds the shapes it needs for one instruction more takes a step without
breaking a rule of the machine, and the code finds its shapes again (`Live.step`). There is one rule
for each instruction that does more than move values on the stack; leaving a call hands the answer
to the call that waits for it.
-/

namespace LoxMachine

open Machine

namespace Machine

theorem captureAll_local {m : Machine} {f : Frame} {fs : List Frame} (h : m.frames = f :: fs)
    (p index : Nat) (cs : List Capture) (cells : Array Nat) :
    captureAll p (⟨index, true⟩ :: cs) cells m =
      captureAll (p + 2) cs (cells.push ((m.goto (p + 2)).captured (f.base + index)).1)
        ((m.goto (p + 2)).captured (f.base + index)).2 := by
  simp only [captureAll, bind_apply, moveTo_apply h, frame_apply (frames_goto m (p + 2) h), if_true,
    capture_apply]

theorem captureAll_outer {m : Machine} {f : Frame} {fs : List Frame} (h : m.frames = f :: fs)
    (p : Nat) {index cell : Nat} (hcell : f.closure.cells[index]? = some cell) (cs : List Capture)
    (cells : Array Nat) :
    captureAll p (⟨index, false⟩ :: cs) cells m =
      captureAll (p + 2) cs (cells.push cell) (m.goto (p + 2)) := by
  simp only [captureAll, bind_apply, moveTo_apply h, frame_apply (frames_goto m (p + 2) h),
    Bool.false_eq_true, if_false, hcell, orViolate_apply]

end Machine

/-- The cell of a captured variable, by its place. -/
theorem Closure.Has.cell {w : World} {c : Closure} {G : Layout} {E : Env} (h : c.Has w G E) {i : Nat}
    {k : Kind} (hi : E.cells[i]? = some k) :
    ∃ cell, c.cells[i]? = some cell ∧ w.kinds[cell]? = some k := by
  obtain ⟨cell, hcell, hk⟩ := forall₂_getElem? h.cells.flip hi
  rw [Array.getElem?_toList] at hcell
  exact ⟨cell, hcell, hk⟩

/-- What the class around closures that are made now inherits from. -/
def Env.inherited (E : Env) : Option Decl → Option Class
  | none => E.parent
  | some D => D.parent

namespace Running

variable {w : World} {n : Nat} {m : Machine} {f : Frame} {fs : List Frame} {G : Layout} {E : Env}
  {σ : Shape} {Γ : List Slot} {k : Kind} {s : List Slot} {d : Option Decl} {α : Type}
  {Q : α → Machine → Prop}

/-! ## The running frame -/

theorem moveTo {g : Unit → Action α} (R : Running w n m f fs G E σ Γ) (p : Nat)
    (h : ∀ m', Running w n m' { f with ip := p } fs G E σ Γ → Fine Q (g ()) m') :
    Fine Q (Machine.moveTo p >>= g) m :=
  .bind_ok (moveTo_apply R.frames p) (h _ (R.goto p))

theorem frame {g : Frame → Action α} (R : Running w n m f fs G E σ Γ) (h : Fine Q (g f) m) :
    Fine Q (Machine.frame >>= g) m :=
  .bind_ok (frame_apply R.frames) h

/-- A jump is a step. -/
theorem jumpTo {p : Nat} (R : Running w n m f fs G E σ Γ) (h : Safe w.routines n G E p σ) :
    Fine (fun _ => Goes w.routines w.lineage n) (Machine.moveTo p) m :=
  .of_ok (moveTo_apply R.frames p) ((R.goto p).goes h)

/-- A constant on top of the stack. -/
theorem plain {v : Value} (R : Running w n m f fs G E ⟨s, d⟩ Γ) (hv : v.IsPlain)
    (h : Safe w.routines n G E f.ip ⟨.temp .any :: s, d⟩) :
    Fine (fun _ => Goes w.routines w.lineage n) (Machine.push v) m :=
  R.push (x := .temp .any) hv.ok h

/-- The value on top of the stack. -/
theorem top {x : Slot} (R : Running w n m f fs G E ⟨x :: s, d⟩ Γ) :
    ∃ v, Machine.peek 0 m = .ok v m ∧ Fits w n v x.kind := by
  obtain ⟨v, vs, heq, hv, -⟩ := R.uncons
  refine ⟨v, ?_, hv⟩
  rw [peek_values, heq]
  rfl

/-! ## Globals -/

/-- The variable of the class that is being declared holds it. -/
theorem fits_decl {d : Decl} (R : Running w n m f fs G E ⟨s, some d⟩ Γ) :
    Fits w n (.cls d.cls) d.kind := by
  rw [Decl.kind]
  have hd := R.declaring
  cases hd with
  | fresh hfresh => rw [if_pos hfresh]; rfl
  | grown hfresh _ hcls =>
      rw [if_neg (by simp [hfresh])]
      exact ⟨rfl, show d.cls.id < w.classes by omega⟩

theorem holder {d : Decl} (R : Running w n m f fs G E ⟨s, some d⟩ Γ) {name : String}
    (h : d.holder = some name) : m.globals[name]? = some (.cls d.cls) := by
  have hd := R.declaring
  cases hd with
  | fresh _ _ _ _ _ _ _ hholder => exact hholder name h
  | grown _ _ _ _ _ hholder => exact hholder name h

theorem getGlobal {name : String} (R : Running w n m f fs G E ⟨s, d⟩ Γ)
    (h : Safe w.routines n G E f.ip ⟨.temp (globalKind d name) :: s, d⟩) :
    Fine (fun _ => Goes w.routines w.lineage n) (Machine.getGlobal name) m := by
  refine .bind_get ?_
  cases hglobal : m.globals[name]? with
  | none => trivial
  | some v =>
      refine R.push (x := .temp _) ?_ h
      have hsteady := R.steady.globals name v hglobal
      cases d with
      | none => exact hsteady nofun
      | some d =>
          rw [globalKind]
          by_cases hholder : d.holder = some name
          · obtain rfl := Option.some.inj (hglobal.symm.trans (R.holder hholder))
            simp only [if_pos hholder]
            exact R.fits_decl
          · simp only [if_neg hholder]
            refine hsteady fun heq => hholder ?_
            rw [Decl.excused] at heq
            split at heq
            · exact heq
            · cases heq

theorem defineGlobal {name : String} (R : Running w n m f fs G E ⟨.temp .any :: s, none⟩ Γ)
    (h : Safe w.routines n G E f.ip ⟨s, none⟩) :
    Fine (fun _ => Goes w.routines w.lineage n) (Machine.defineGlobal name) m := by
  refine R.pop fun v m' hv R' => ?_
  have R'' : Running w n { m' with globals := m'.globals.insert name v } f fs G E ⟨s, none⟩ Γ :=
    { R' with
      steady := R'.steady.insertGlobal name fun _ => hv
      declaring := by
        have hd := R'.declaring
        cases hd with
        | none hcurrent hsize => exact .none hcurrent hsize }
  exact .of_ok rfl (R''.goes h)

/-- The variable of a class that is being declared. -/
theorem holdGlobal {name : String} {d : Decl} (hholder : d.holder = none)
    (R : Running w n m f fs G E ⟨.temp d.kind :: s, some d⟩ Γ)
    (h : Safe w.routines n G E f.ip ⟨s, some { d with holder := some name }⟩) :
    Fine (fun _ => Goes w.routines w.lineage n) (Machine.defineGlobal name) m := by
  refine R.pop fun v m' hv R' => ?_
  have hcls : v = .cls d.cls := by
    rw [Decl.kind] at hv
    split at hv
    · exact hv
    · exact hv.1
  have hnew : (m'.globals.insert name v)[name]? = some (.cls d.cls) := by
    rw [hcls]
    exact Std.HashMap.getElem?_insert_self
  have hexcused : Decl.excused (some d) = none := by
    rw [Decl.excused, hholder]
    split <;> rfl
  have R'' : Running w n { m' with globals := m'.globals.insert name v } f fs G E
      ⟨s, some { d with holder := some name }⟩ Γ :=
    { R' with
      steady := by
        have hsteady := R'.steady
        rw [hexcused] at hsteady
        refine hsteady.insertGlobal name fun hx => ?_
        have hfits := R'.fits_decl
        rw [Decl.kind] at hfits
        by_cases hfresh : d.fresh = true
        · exact absurd (if_pos hfresh) hx
        · rw [if_neg hfresh] at hfits
          exact hcls ▸ hfits.2
      declaring := by
        have hheld : ∀ name', some name = some name' →
            (m'.globals.insert name v)[name']? = some (.cls d.cls) := by
          intro name' heq
          obtain rfl := Option.some.inj heq
          exact hnew
        have hd := R'.declaring
        cases hd with
        | fresh hfresh hcurrent hid hsize hown hparent hnone _ =>
            exact .fresh hfresh hcurrent hid hsize hown hparent hnone hheld
        | grown hfresh hcurrent hid hsize hparent _ =>
            exact .grown hfresh hcurrent hid hsize hparent hheld }
  exact .of_ok rfl (R''.goes h)

theorem setGlobal {name : String} (R : Running w n m f fs G E ⟨.temp .any :: s, none⟩ Γ)
    (h : Safe w.routines n G E f.ip ⟨.temp .any :: s, none⟩) :
    Fine (fun _ => Goes w.routines w.lineage n) (Machine.setGlobal name) m := by
  obtain ⟨v, hpeek, hv⟩ := R.top
  refine .bind_ok hpeek (.bind_get ?_)
  split
  · have R' : Running w n { m with globals := m.globals.insert name v } f fs G E
        ⟨.temp .any :: s, none⟩ Γ :=
      { R with
        steady := R.steady.insertGlobal name fun _ => hv
        declaring := by
          have hd := R.declaring
          cases hd with
          | none hcurrent hsize => exact .none hcurrent hsize }
    exact .of_ok rfl (R'.goes h)
  · trivial

/-! ## Variables -/

theorem getLocal {i : Nat} {b : Bool} (R : Running w n m f fs G E ⟨s, d⟩ Γ)
    (hi : atSlot? s i = some ⟨k, b⟩) (h : Safe w.routines n G E f.ip ⟨.temp k :: s, d⟩) :
    Fine (fun _ => Goes w.routines w.lineage n) (do Machine.push (← readSlot (f.base + i))) m := by
  have hslot : atSlot? (s ++ Γ) (f.base + i) = some ⟨k, b⟩ := by
    rw [R.base, atSlot?_append_left, hi]
  obtain ⟨v, hv, hfits⟩ := forall₂_atSlot? R.values hslot
  exact .bind_ok (by rw [readSlot_apply, hv]) (R.push (x := .temp k) hfits h)

theorem setSlot {slot : Nat} {b : Bool} {v : Value} (R : Running w n m f fs G E ⟨s, d⟩ Γ)
    (hslot : atSlot? (s ++ Γ) slot = some ⟨.any, b⟩) (hv : v.Ok w n)
    (h : Safe w.routines n G E f.ip ⟨s, d⟩) :
    Fine (fun _ => Goes w.routines w.lineage n) (writeSlot slot v) m := by
  have hlt : slot < m.values.length := by
    rw [R.values.length_eq]
    exact lt_of_atSlot? hslot
  refine .of_ok ((writeSlot_apply _ _).trans (if_pos hlt)) ((R.setValues ?_).goes h)
  refine forall₂_setSlot R.values fun t ht => ?_
  obtain rfl := Option.some.inj (hslot.symm.trans ht)
  exact hv

theorem setLocal {i : Nat} {b : Bool} (R : Running w n m f fs G E ⟨.temp .any :: s, d⟩ Γ)
    (hi : atSlot? (.temp .any :: s) i = some ⟨.any, b⟩)
    (h : Safe w.routines n G E f.ip ⟨.temp .any :: s, d⟩) :
    Fine (fun _ => Goes w.routines w.lineage n)
      (do writeSlot (f.base + i) (← Machine.peek 0)) m := by
  obtain ⟨v, hpeek, hv⟩ := R.top
  refine .bind_ok hpeek (R.setSlot (b := b) ?_ hv h)
  rw [R.base, atSlot?_append_left, hi]

/-- The cell of a captured variable, by its place. -/
theorem cell {i : Nat} {v : Violation} {g : Nat → Action α} (R : Running w n m f fs G E σ Γ)
    (hi : E.cells[i]? = some k) (h : ∀ c, w.kinds[c]? = some k → Fine Q (g c) m) :
    Fine Q (do g (← orViolate (← Machine.frame).closure.cells[i]? v)) m := by
  refine R.frame ?_
  obtain ⟨c, hc, hk⟩ := R.has.cell hi
  rw [hc]
  exact .bind_ok rfl (h c hk)

/-- A captured variable is closed or in a shared slot. -/
theorem cell_cases {c : Nat} (R : Running w n m f fs G E σ Γ) (hc : w.kinds[c]? = some k) :
    (∃ v, m.store.cells[c]? = some (.closed v) ∧ Fits w n v k) ∨
      ∃ slot, m.store.cells[c]? = some (.inSlot slot) ∧
        atSlot? (σ.slots ++ Γ) slot = some ⟨k, true⟩ := by
  have hlt := (Array.getElem?_eq_some_iff.mp hc).1
  rw [R.steady.size] at hlt
  cases hcell : m.store.cells[c]? with
  | none => exact absurd (Array.getElem?_eq_none_iff.mp hcell) (Nat.not_le_of_lt hlt)
  | some cell =>
      cases cell with
      | closed v => exact .inl ⟨v, rfl, R.steady.closed c v k hcell hc⟩
      | inSlot slot =>
          obtain ⟨k', hk', hslot⟩ := R.steady.shared slot c ((R.steady.opened c slot).mp hcell)
          obtain rfl := Option.some.inj (hc.symm.trans hk')
          exact .inr ⟨slot, rfl, hslot⟩

theorem getUpvalue {i q : Nat} (R : Running w n m f fs G E ⟨s, d⟩ Γ) (hi : E.cells[i]? = some k)
    (h : Safe w.routines n G E q ⟨.temp k :: s, d⟩) :
    Fine (fun _ => Goes w.routines w.lineage n) ((Instr.getUpvalue i).exec q) m := by
  refine R.moveTo q fun m' R' => R'.cell hi fun c hc => .bind_get ?_
  rcases R'.cell_cases hc with ⟨v, hcell, hv⟩ | ⟨slot, hcell, hslot⟩
  · rw [hcell]
    exact R'.push (x := .temp k) hv h
  · rw [hcell]
    obtain ⟨v, hv, hfits⟩ := forall₂_atSlot? R'.values hslot
    exact .bind_ok (by rw [readSlot_apply, hv]) (R'.push (x := .temp k) hfits h)

theorem setUpvalue {i q : Nat} (R : Running w n m f fs G E ⟨.temp .any :: s, d⟩ Γ)
    (hi : E.cells[i]? = some .any) (h : Safe w.routines n G E q ⟨.temp .any :: s, d⟩) :
    Fine (fun _ => Goes w.routines w.lineage n) ((Instr.setUpvalue i).exec q) m := by
  refine R.moveTo q fun m' R' => R'.cell hi fun c hc => ?_
  obtain ⟨v, hpeek, hv⟩ := R'.top
  refine .bind_ok hpeek (.bind_get ?_)
  rcases R'.cell_cases hc with ⟨u, hcell, -⟩ | ⟨slot, hcell, hslot⟩
  · rw [hcell]
    exact .of_ok rfl ((R'.setStore (R'.steady.setCell hcell hc hv) rfl).goes h)
  · rw [hcell]
    exact R'.setSlot hslot hv h

/-! ## Properties and methods -/

theorem bindMethod {c : Class} {o : Object} {name : String}
    (R : Running w n m f fs G E ⟨.temp (.is (.object o)) :: s, none⟩ Γ)
    (h : Safe w.routines n G E f.ip ⟨.temp .any :: s, none⟩) :
    Fine (fun _ => Goes w.routines w.lineage n) (Machine.bindMethod c name) m := by
  refine .bind (.bind_get ?_)
  cases hmethod : m.store.method? c name with
  | none => trivial
  | some g =>
      have hg := R.steady.methods c name g hmethod
      refine .pure (R.pop fun v m' hv R' => .bind_ok rfl ?_)
      have R'' := R'.setStore (s := (m'.store.newBound v g).2) R'.steady.newId rfl
      refine R''.push (x := .temp .any) ⟨⟨o, hv.1⟩, hg.imp ?_⟩ h
      rintro kind rfl
      rw [Syntax.methodKind]
      split <;> trivial

theorem getProperty {name : String} {q : Nat} (R : Running w n m f fs G E ⟨.temp .any :: s, none⟩ Γ)
    (h : Safe w.routines n G E q ⟨.temp .any :: s, none⟩) :
    Fine (fun _ => Goes w.routines w.lineage n) ((Instr.getProperty name).exec q) m := by
  refine R.peek [] rfl fun v hv hknown => ?_
  cases v with
  | object o =>
      refine (hknown (.is (.object o)) ⟨rfl, hv⟩).moveTo q fun m' R' => .bind_get ?_
      cases hfield : m'.store.field? o name with
      | some u =>
          have hu := R'.steady.fields o name u hfield
          exact R'.pop fun _ m'' _ R'' => R''.push (x := .temp .any) hu h
      | none => exact R'.bindMethod h
  | _ => trivial

theorem setProperty {name : String} {q : Nat}
    (R : Running w n m f fs G E ⟨.temp .any :: .temp .any :: s, none⟩ Γ)
    (h : Safe w.routines n G E q ⟨.temp .any :: s, none⟩) :
    Fine (fun _ => Goes w.routines w.lineage n) ((Instr.setProperty name).exec q) m := by
  refine R.peek [.temp .any] rfl fun v hv _ => ?_
  cases v with
  | object o =>
      refine R.moveTo q fun m' R' => R'.pop fun u m'' hu R'' => ?_
      refine .bind_ok rfl ((R''.setStore (R''.steady.setField o name hu) rfl).pop fun _ m₃ _ R₃ => ?_)
      exact R₃.push (x := .temp .any) hu h
  | _ => trivial

/-! ## Operators -/

theorem binary {g : Number → Number → Value} (hg : ∀ a b, (g a b).IsPlain)
    (R : Running w n m f fs G E ⟨.temp .any :: .temp .any :: s, d⟩ Γ)
    (h : Safe w.routines n G E f.ip ⟨.temp .any :: s, d⟩) :
    Fine (fun _ => Goes w.routines w.lineage n) (Machine.binary g) m := by
  refine R.pop fun b m' _ R' => R'.pop fun a m'' _ R'' => ?_
  cases a <;> cases b <;> first | exact R''.plain (hg _ _) h | trivial

theorem add (R : Running w n m f fs G E ⟨.temp .any :: .temp .any :: s, d⟩ Γ)
    (h : Safe w.routines n G E f.ip ⟨.temp .any :: s, d⟩) :
    Fine (fun _ => Goes w.routines w.lineage n) Machine.add m := by
  refine R.peek [.temp .any] rfl fun a _ _ => R.peek [] rfl fun b _ _ => ?_
  cases a <;> cases b <;> try trivial
  · exact R.binary (fun _ _ => trivial) h
  · exact R.pop fun _ m' _ R' => R'.pop fun _ m'' _ R'' =>
      R''.plain trivial h

/-- The operations on the top of the stack take as many values and leave as many as they say. -/
theorem operator {op : Opcode} (R : Running w n m f fs G E ⟨temps op.takes ++ s, d⟩ Γ)
    (hop : op.IsOperator) (h : Safe w.routines n G E f.ip ⟨temps op.gives ++ s, d⟩) :
    Fine (fun _ => Goes w.routines w.lineage n) (execute op) m := by
  cases op with
  | add => exact R.add h
  | greater | less | subtract | multiply | divide => exact R.binary (fun _ _ => trivial) h
  | equal =>
      exact Running.pop R fun _ m' _ R' => R'.pop fun _ m'' _ R'' => R''.plain trivial h
  | not => exact Running.pop R fun _ m' _ R' => R'.plain trivial h
  | negate =>
      refine Running.pop R fun v m' _ R' => ?_
      cases v <;> first | exact R'.plain trivial h | trivial
  | print => exact Running.pop R fun v m' _ R' => .of_ok rfl (Running.goes { R' with } h)
  | assert =>
      refine Running.pop R fun v m' _ R' => ?_
      cases v with
      | boolean b => cases b <;> first | exact .of_ok rfl (R'.goes h) | trivial
      | _ => trivial
  | _ => cases hop

/-! ## Closures -/

/-- Each capture of a new closure finds a cell of its kind. -/
theorem captureAll {slots : List Slot} {x : Option String} {cs : List Capture} {Ks Ks₀ : List Kind}
    {cells : Array Nat} {p : Nat} (hcs : List.Forall₂ (Reaches E slots) cs Ks)
    (hframes : m.frames = { f with ip := p } :: fs) (hhas : f.closure.Has w G E)
    (hbase : f.base = Γ.length)
    (hsteady : Steady w n (slots ++ Γ) x m.store m.globals m.openCells)
    (hcells : List.Forall₂ (fun c k => w.kinds[c]? = some k) cells.toList Ks₀) :
    ∃ kinds cells' m', Machine.captureAll p cs cells m = .ok cells' m' ∧
      w.Le { w with kinds } ∧ m'.frames = { f with ip := p + 2 * cs.length } :: fs ∧
      m'.values = m.values ∧ m'.globals = m.globals ∧ m'.store.nextId = m.store.nextId ∧
      m'.store.methods = m.store.methods ∧
      Steady { w with kinds } n (slots ++ Γ) x m'.store m.globals m'.openCells ∧
      List.Forall₂ (fun c k => kinds[c]? = some k) cells'.toList (Ks₀ ++ Ks) := by
  induction hcs generalizing w m p cells Ks₀ with
  | nil =>
      exact ⟨w.kinds, cells, m, rfl, .refl w, hframes, rfl, rfl, rfl, rfl, hsteady, by simpa using hcells⟩
  | @cons c k cs Ks hc hcs ih =>
      obtain ⟨index, fromLocal⟩ := c
      -- the cell of the first capture
      obtain ⟨kinds, cell, m', hrun, hle, hframes', hvalues, hglobals, hid, hmethods, hsteady', hcell⟩ :
          ∃ kinds cell m', Machine.captureAll p (⟨index, fromLocal⟩ :: cs) cells m =
              Machine.captureAll (p + 2) cs (cells.push cell) m' ∧ w.Le { w with kinds } ∧
            m'.frames = { f with ip := p + 2 } :: fs ∧ m'.values = m.values ∧
            m'.globals = m.globals ∧ m'.store.nextId = m.store.nextId ∧
            m'.store.methods = m.store.methods ∧
            Steady { w with kinds } n (slots ++ Γ) x m'.store m.globals m'.openCells ∧
            kinds[cell]? = some k := by
        have hframes₂ := frames_goto m (p + 2) hframes
        cases fromLocal with
        | true =>
            have hslot : atSlot? (slots ++ Γ) (f.base + index) = some ⟨k, true⟩ := by
              rw [hbase, atSlot?_append_left]
              exact hc
            have hsteady₂ : Steady w n (slots ++ Γ) x (m.goto (p + 2)).store
              (m.goto (p + 2)).globals (m.goto (p + 2)).openCells := hsteady
            obtain ⟨kinds, hle, hkind, hs⟩ := hsteady₂.captured hslot
            refine ⟨kinds, _, _, captureAll_local hframes p index cs cells, hle, ?_, ?_, ?_, ?_, ?_,
              hs, hkind⟩
            · rw [frames_captured, hframes₂]
            all_goals
              rw [captured]
              split <;> rfl
        | false =>
            obtain ⟨cell, hcell, hkind⟩ := hhas.cell hc
            exact ⟨w.kinds, cell, m.goto (p + 2), captureAll_outer hframes p hcell cs cells, .refl w,
              hframes₂, rfl, rfl, rfl, rfl, hsteady, hkind⟩
      have hcells' : List.Forall₂ (fun c k => kinds[c]? = some k) (cells.push cell).toList
          (Ks₀ ++ [k]) := by
        rw [Array.toList_push]
        exact List.rel_append (hcells.imp fun _ _ hk => hle.kinds _ _ hk) (.cons hcell .nil)
      obtain ⟨kinds', cells'', m'', hrun', hle', hframes'', hvalues', hglobals', hid', hmethods',
          hsteady'', hall⟩ :=
        ih (w := { w with kinds }) hframes' (hhas.mono hle) (hglobals ▸ hsteady') hcells'
      refine ⟨kinds', cells'', m'', hrun.trans hrun', hle.trans hle', ?_, hvalues'.trans hvalues,
        hglobals'.trans hglobals, hid'.trans hid, hmethods'.trans hmethods, hglobals ▸ hsteady'',
        by simpa using hall⟩
      rw [hframes'', List.length_cons]
      congr 2
      omega

/-- The class around closures that are made now can inherit no more. -/
theorem place_lt (R : Running w n m f fs G E ⟨s, d⟩ Γ) (hfresh : ∀ D, d = some D → D.fresh = false)
    {c : Class} (hc : w.lineage.place m = some c) : c.id < w.classes := by
  rw [Lineage.place, R.frames] at hc
  have hd := R.declaring
  cases hd with
  | none hcurrent =>
      rw [hcurrent] at hc
      exact (R.steady.ordered.homes _ _ hc).2
  | fresh h => exact absurd (hfresh _ rfl) (by simp [h])
  | grown _ hcurrent hid =>
      rw [hcurrent] at hc
      obtain rfl := Option.some.inj hc
      omega

/-- In the body of a class, closures belong to that class. -/
theorem place_decl {D : Decl} (R : Running w n m f fs G E ⟨s, some D⟩ Γ) :
    w.lineage.place m = some D.cls := by
  rw [Lineage.place]
  have hd := R.declaring
  cases hd with
  | fresh _ hcurrent | grown _ hcurrent => rw [hcurrent]

theorem place_parent (R : Running w n m f fs G E ⟨s, d⟩ Γ) :
    (w.lineage.place m).bind (w.lineage.parent ·.id) = E.inherited d := by
  rw [Lineage.place, R.frames]
  have hd := R.declaring
  cases hd with
  | none hcurrent =>
      rw [hcurrent]
      exact R.has.parent
  | fresh _ hcurrent _ _ _ hparent => rw [hcurrent]; exact hparent
  | grown _ hcurrent _ _ hparent => rw [hcurrent]; exact hparent

theorem closure {g : Function} {captures : List Capture} {new : Slot} {H : Layout} {Ks : List Kind}
    {parent : Option Class} {q : Nat} (R : Running w n m f fs G E ⟨s, d⟩ Γ)
    (hfresh : ∀ D, d = some D → D.fresh = false)
    (hparent : E.inherited d = parent)
    (hnew : new.kind = .any ∧ ¬ H.kind.IsMethod ∨ ∃ D, d = some D ∧ new.kind = .method H.kind D.cls)
    (hg : Enters w.routines (Safe w.routines n) g H ⟨Ks, parent⟩)
    (hcs : List.Forall₂ (Reaches E (new :: s)) captures Ks) (hq : 2 * captures.length ≤ q)
    (h : Safe w.routines n G E q ⟨new :: s, d⟩) :
    Fine (fun _ => Goes w.routines (w.lineage.after m (.closure g captures)) n)
      ((Instr.closure g captures).exec q) m := by
  set p := q - 2 * captures.length with hp
  refine .bind_ok (moveTo_apply R.frames p) ?_
  have R' := R.goto p
  -- the slot that the closure will be in may be captured before it is there
  obtain ⟨kinds, cells, m', hrun, hle, hframes, hvalues, hglobals, hid, hmethods, hsteady, hcells⟩ :=
    captureAll hcs R'.frames R'.has R'.base (R'.steady.push new)
      (show List.Forall₂ _ (#[] : Array Nat).toList [] from .nil)
  refine .bind_ok hrun (.bind_ok rfl ?_)
  have hid : m'.store.nextId = m.store.nextId := hid
  have hmethods : m'.store.methods = m.store.methods := hmethods
  have hids := R.steady.ids
  have hle' : World.Le { w with kinds } (World.numbering { w with kinds } m.store.nextId (w.lineage.place m)) :=
    World.le_numbering hids
  have hordered : (World.numbering w m.store.nextId (w.lineage.place m)).lineage.Ordered
      (m.store.nextId + 1) w.classes m'.store.methods.size :=
    hmethods ▸ World.ordered_numbering R.steady.ordered hids fun c => R.place_lt hfresh
  set w' := World.numbering { w with kinds } m.store.nextId (w.lineage.place m)
  have hhome : w'.lineage.home m.store.nextId = w.lineage.place m := Lineage.set_self _ _ _
  let c : Closure := ⟨m'.store.nextId, g, cells⟩
  have hok (P : BodyKind → Prop) (hP : P H.kind) : c.Ok w' n P := by
    refine ⟨H, ⟨Ks, parent⟩, ⟨hg.routine, hcells, ?_, ?_⟩, hP, hg⟩
    · rw [show c.id = m.store.nextId from hid]
      exact Nat.lt_succ_self _
    · rw [show c.id = m.store.nextId from hid, Lineage.parentOf, hhome]
      exact R.place_parent.trans hparent
  have hfits : Fits w' n (.closure c) new.kind := by
    rcases hnew with ⟨hany, hkind⟩ | ⟨D, rfl, hmethod⟩
    · rw [hany]
      exact hok (fun kind => ¬ kind.IsMethod) hkind
    · rw [hmethod]
      refine ⟨c, rfl, hok _ rfl, ?_⟩
      rw [show c.id = m.store.nextId from hid]
      exact hhome.trans R.place_decl
  let made : Machine := { m' with store := { m'.store with nextId := m'.store.nextId + 1 } }
  have hw := hle.trans hle'
  have hvs : Holds w' n made.values (s ++ Γ) := by
    rw [show made.values = m.values from hvalues]
    exact R.values.mono hw
  have R'' : Running w' n (made.setValues (.closure c :: made.values)) { f with ip := q } fs G E
      ⟨new :: s, d⟩ Γ := by
    refine R.evolve hw ?_ ?_ ?_ ?_
    · rw [← show p + 2 * captures.length = q by omega]
      exact hframes
    · have hsteady' : Steady w' n (new :: s ++ Γ) (Decl.excused d) made.store m.globals
          made.openCells :=
        hsteady.newId.evolve hle' rfl rfl (Nat.le_of_eq (congrArg (· + 1) hid.symm))
          hsteady.classes hordered
      rw [← show m'.globals = m.globals from hglobals] at hsteady'
      exact hsteady'
    · rw [values_setValues]
      exact .cons hfits hvs
    · have hd := R.declaring
      rw [← hmethods, ← show m'.globals = m.globals from hglobals] at hd
      cases hd with
      | none h₁ h₂ => exact .none h₁ h₂
      | fresh h₁ h₂ h₃ h₄ h₅ h₆ h₇ h₈ => exact .fresh h₁ h₂ h₃ h₄ h₅ h₆ h₇ h₈
      | grown h₁ h₂ h₃ h₄ h₅ h₆ => exact .grown h₁ h₂ h₃ h₄ h₅ h₆
  rw [Fine, Machine.push_apply]
  by_cases hroom : made.values.length < maxStack
  · rw [if_pos hroom]
    exact R''.goes h
  · rw [if_neg hroom]
    trivial

theorem closeUpvalue {t : Slot} (R : Running w n m f fs G E ⟨t :: s, d⟩ Γ)
    (h : Safe w.routines n G E f.ip ⟨s, d⟩) :
    Fine (fun _ => Goes w.routines w.lineage n) Machine.closeUpvalue m := by
  obtain ⟨v, vs, heq, -, hvs⟩ := R.uncons
  have hlen := hvs.length_eq
  have hvalues := R.values
  have htop : Machine.slotBelow 0 m = .ok (s ++ Γ).length m := by
    rw [slotBelow_apply, heq, ← hlen, if_pos (by simp)]
    simp
  have hmethods : (m.closed (s ++ Γ).length).store.methods = m.store.methods := by
    rw [show (m.closed (s ++ Γ).length).store = _ from Machine.closeCells_eq _ _ _]
  have R' : Running w n ((m.closed (s ++ Γ).length).setValues vs) f fs G E ⟨s, d⟩ Γ := by
    refine R.evolve (.refl w) R.frames ?_ ?_ ?_
    · have hsteady : Steady w n ([t] ++ (s ++ Γ)) (Decl.excused d) m.store m.globals m.openCells :=
        R.steady
      exact hsteady.close hvalues
    · rw [values_setValues]
      exact hvs
    · rw [show ((m.closed (s ++ Γ).length).setValues vs).store.methods = m.store.methods from hmethods]
      exact R.declaring
  exact .bind_ok htop (.bind_ok (R.closeFrom _ m.frames) (.bind_ok (pop_cons heq) (.of_ok rfl (R'.goes h))))

/-- The answer of a call goes to the call that waits for it; without one the run is over. -/
theorem leave (R : Running w n m f fs G E ⟨.temp k :: s, none⟩ Γ)
    (hk : ∀ v, Fits w n v k → v.Ok w n) :
    Fine (fun _ => Goes w.routines w.lineage n) Machine.leave m := by
  refine R.pop fun v m' hv R' => .bind_get ?_
  rw [R'.frames]
  refine .bind_modify ?_
  have hsteady := R'.steady.close R'.values
  refine .bind_ok (R'.closeFrom f.base fs) (.bind_ok (truncate_apply _) ?_)
  obtain ⟨ws, us, heq, hws, hus⟩ := R'.values.split
  have hvalues : ({ m' with frames := fs }.closed f.base).values.drop
      (({ m' with frames := fs }.closed f.base).values.length - f.base) = us := by
    change m'.values.drop (m'.values.length - f.base) = us
    rw [heq, R'.base, ← hus.length_eq, List.length_append, Nat.add_sub_cancel, List.drop_left]
  have hmethods : (m'.closed f.base).store.methods = m'.store.methods := by
    rw [show (m'.closed f.base).store = _ from Machine.closeCells_eq _ _ _]
  have hdeclaring : Declaring w.lineage w.classes (m'.closed f.base).store.methods.size m'.globals
      none := by
    rw [hmethods]
    exact R'.declaring
  rw [hvalues]
  rw [← R'.base] at hsteady
  have hcalls := R'.calls
  cases hcalls with
  | none =>
      rw [if_neg (fun h => h rfl)]
      refine .of_ok rfl (.inr ⟨rfl, ?_, ?_, w, rfl, rfl, ?_, hdeclaring⟩)
      · rw [values_setValues]
        exact List.forall₂_nil_right_iff.mp hus
      all_goals
        have hopen : ({ m' with frames := [] }.closed f.base).openCells = [] := by
          refine List.eq_nil_iff_forall_not_mem.mpr fun x hx => ?_
          exact absurd (hsteady.lt_of_mem hx) (Nat.not_lt_zero _)
        first
        | exact hopen
        | exact hopen ▸ hsteady
  | @call f' fs' G' E' s' Γ' hhas hground hsafe hbase hcalls =>
      rw [if_pos (List.cons_ne_nil _ _)]
      have R'' : Running w n (({ m' with frames := f' :: fs' }.closed f.base).setValues us) f' fs' G'
          E' ⟨s', none⟩ Γ' := {
        frames := rfl
        has := hhas
        base := hbase
        calls := hcalls
        values := by
          rw [values_setValues]
          exact hus
        steady := hsteady
        declaring := hdeclaring }
      exact R''.push (x := .temp .any) (hk v hv) hsafe

/-! ## Classes -/

theorem endClass {D : Decl} (R : Running w n m f fs G E ⟨.temp k :: s, some D⟩ Γ)
    (hfresh : D.fresh = false) (h : Safe w.routines n G E f.ip ⟨s, none⟩) :
    Fine (fun _ => Goes w.routines { w.lineage with current := none } n)
      (do let _ ← Machine.pop) m := by
  refine R.pop fun v m' _ R' => .of_ok rfl ?_
  let w' : World := { w with lineage := { w.lineage with current := none } }
  have hle : w.Le w' :=
    ⟨fun _ _ => id, fun _ _ => id, Nat.le_refl _, Nat.le_refl _, fun _ _ => rfl, fun _ _ => rfl⟩
  have hexcused : Decl.excused (some D) = none := if_neg (by simp [hfresh])
  have hsteady : Steady w' n (s ++ Γ) none m'.store m'.globals m'.openCells :=
    hexcused ▸ R'.steady.evolve hle rfl rfl R'.steady.ids R'.steady.classes
      ⟨R'.steady.ordered.older, R'.steady.ordered.unborn, R'.steady.ordered.homes⟩
  have hsize : m'.store.methods.size = w.classes := by
    have hd := R'.declaring
    cases hd with
    | fresh hfresh' => exact absurd hfresh' (by simp [hfresh])
    | grown _ _ _ hsize => exact hsize
  have R'' : Running w' n m' f fs G E ⟨s, none⟩ Γ :=
    R'.evolve hle R'.frames hsteady (R'.values.mono hle) (.none rfl hsize)
  exact R''.goes h

/-- A new class can be declared in one go or inherit first. -/
theorem makeClass {name : String} {fresh : Bool} {q : Nat}
    (R : Running w n m f fs G E ⟨s, none⟩ Γ)
    (h : ∀ c, Safe w.routines n G E q
      ⟨.temp (Decl.mk c none fresh none).kind :: s, some ⟨c, none, fresh, none⟩⟩) :
    Fine (fun _ => Goes w.routines (w.lineage.after m (.makeClass name)) n)
      ((Instr.makeClass name).exec q) m := by
  refine .bind_ok (moveTo_apply R.frames q) (.bind_ok rfl ?_)
  set c : Class := (m.store.newClass name).1 with hc
  have hid : c.id = m.store.methods.size := rfl
  have hsize : m.store.methods.size = w.classes := by
    have hd := R.declaring
    cases hd with
    | none _ hsize => exact hsize
  have hunborn := R.steady.ordered.unborn c.id (Nat.le_of_eq hid.symm)
  let w' : World := { w with
    lineage := { w.lineage with current := some c }
    classes := if fresh then w.classes else w.classes + 1 }
  have hclasses : w.classes ≤ w'.classes := by
    change w.classes ≤ if fresh then w.classes else w.classes + 1
    split <;> omega
  have hle : w.Le w' :=
    ⟨fun _ _ => id, fun _ _ => id, Nat.le_refl _, hclasses, fun _ _ => rfl, fun _ _ => rfl⟩
  let m' : Machine := { m.goto q with store := (m.store.newClass name).2 }
  have hsize' : m'.store.methods.size = w.classes + 1 := by
    rw [← hsize]
    exact Array.size_push _
  have hclasses' : w'.classes ≤ m'.store.methods.size := by
    rw [hsize']
    change (if fresh then w.classes else w.classes + 1) ≤ _
    split <;> omega
  have hsteady : Steady w' n (s ++ Γ) none m'.store m'.globals m'.openCells := by
    have hnew := R.steady.newClass name
    have hold := hnew.ordered
    refine hnew.evolve hle rfl rfl hnew.ids hclasses' ⟨fun id p hp => ?_, hold.unborn, fun id p hp => ?_⟩
    · exact ⟨Nat.lt_of_lt_of_le (hold.older id p hp).1 hclasses, (hold.older id p hp).2⟩
    · exact ⟨(hold.homes id p hp).1, Nat.lt_of_lt_of_le (hold.homes id p hp).2 hclasses⟩
  have hexcused : Decl.excused (some ⟨c, none, fresh, none⟩) = none := by
    rw [Decl.excused]
    split <;> rfl
  have hdeclaring : Declaring w'.lineage w'.classes m'.store.methods.size m'.globals
      (some ⟨c, none, fresh, none⟩) := by
    cases fresh with
    | true => exact .fresh rfl rfl (hid.trans hsize) hsize' hunborn.1 hunborn.2 rfl nofun
    | false =>
        exact .grown rfl rfl (congrArg (· + 1) (hid.trans hsize)) hsize' hunborn.2 nofun
  have R' : Running w' n m' { f with ip := q } fs G E ⟨s, some ⟨c, none, fresh, none⟩⟩ Γ :=
    R.evolve hle (R.goto q).frames (hexcused.symm ▸ hsteady) (R.values.mono hle) hdeclaring
  exact R'.push (x := .temp _) R'.fits_decl (h c)

/-- What is known of a class that inherits. -/
theorem inherit {i q : Nat} {D : Decl}
    (R : Running w n m f fs G E
      ⟨.temp (.own D.cls) :: .temp .any :: (List.replicate i (.temp (.own D.cls)) ++ s), some D⟩ Γ)
    (hfresh : D.fresh = true)
    (h : ∀ c, Safe w.routines n G E q
      ⟨.temp (.is (.cls c)) :: (List.replicate i (.temp (.is (.cls D.cls))) ++ s),
        some { D with fresh := false, parent := some c }⟩) :
    Fine (fun _ => Goes w.routines (w.lineage.after m .inherit) n) (Instr.inherit.exec q) m := by
  refine .bind_ok (moveTo_apply R.frames q) ?_
  obtain ⟨child, vs, heq, rfl, hvs⟩ := (R.goto q).uncons
  obtain ⟨u, us, hu, hus, rfl⟩ := List.forall₂_cons_right_iff.mp hvs
  have hpeek : Machine.peek 1 (m.goto q) = .ok u (m.goto q) := by
    rw [peek_values, heq]
    rfl
  refine .bind_ok hpeek ?_
  cases u with
  | cls parent =>
      refine .bind_ok (popClass_cons heq) (.of_ok rfl ?_)
      have hd := R.declaring
      cases hd with
      | grown hgrown => exact absurd hfresh (by simp [hgrown])
      | fresh _ hcurrent hid hsize hown hnone hnone' hholder =>
      have hparent : parent.id < w.classes := hu
      rw [Lineage.after_inherit (show m.values = .cls D.cls :: .cls parent :: us from heq)]
      set w' := w.inheriting D.cls parent
      have hle : w.Le w' := World.le_inheriting R.steady.ordered hid
      have hok : (Value.cls D.cls).Ok w' n := show D.cls.id < w.classes + 1 by omega
      have hok' : (Value.cls parent).Ok w' n := Nat.lt_succ_of_lt hparent
      let m' : Machine := { (m.goto q).setValues (.cls parent :: us) with
        store := m.store.inherit parent D.cls }
      have hvs' : Holds w' n (.cls parent :: us)
          (.temp (.is (.cls parent)) :: (List.replicate i (Slot.temp (.is (.cls D.cls))) ++ s ++ Γ)) := by
        have hus : Holds w n us (List.replicate i (Slot.temp (.own D.cls)) ++ (s ++ Γ)) := by
          rw [← List.append_assoc]
          exact hus
        rw [List.append_assoc]
        exact .cons ⟨rfl, hok'⟩ ((hus.mono hle).settle hok)
      have hsize' : m'.store.methods.size = m.store.methods.size := by
        simp [m', Store.inherit]
      have hsteady : Steady w' n
          (.temp (.is (.cls parent)) :: (List.replicate i (Slot.temp (.is (.cls D.cls))) ++ s ++ Γ)) none
          m'.store m'.globals m'.openCells := by
        have hold : Steady w n (.temp (.own D.cls) :: .temp .any ::
            (List.replicate i (.temp (.own D.cls)) ++ (s ++ Γ))) D.holder m.store m.globals m.openCells := by
          rw [← show Decl.excused (some D) = D.holder from if_pos hfresh, ← List.append_assoc]
          exact R.steady
        rw [List.append_assoc]
        refine (hold.inheriting hid hsize hparent).unexcuse fun name v hname hv => ?_
        obtain rfl := Option.some.inj ((hholder name hname).symm.trans hv)
        exact hok
      have R' : Running w' n m' { f with ip := q } fs G E
          ⟨.temp (.is (.cls parent)) :: (List.replicate i (Slot.temp (.is (.cls D.cls))) ++ s),
            some { D with fresh := false, parent := some parent }⟩ Γ := by
        refine R.evolve hle (R.goto q).frames hsteady ?_ ?_
        · rw [show m'.values = .cls parent :: us from values_setValues (m.goto q) _]
          exact hvs'
        · exact .grown rfl hcurrent (congrArg (· + 1) hid) (hsize'.trans hsize) (Lineage.set_self _ _ _) hholder
      exact R'.goes (h parent)
  | _ => trivial

theorem method {name : String} {q : Nat} {D : Decl}
    (R : Running w n m f fs G E
      ⟨.temp (.method (Syntax.methodKind name) D.cls) :: .temp (.is (.cls D.cls)) :: s, some D⟩ Γ)
    (hfresh : D.fresh = false)
    (h : Safe w.routines n G E q ⟨.temp (.is (.cls D.cls)) :: s, some D⟩) :
    Fine (fun _ => Goes w.routines (w.lineage.after m (.method name)) n)
      ((Instr.method name).exec q) m := by
  refine .bind_ok (moveTo_apply R.frames q) ?_
  obtain ⟨v, vs, heq, ⟨g, rfl, hg, -⟩, hvs⟩ := (R.goto q).uncons
  obtain ⟨u, us, ⟨rfl, hu⟩, hus, rfl⟩ := List.forall₂_cons_right_iff.mp hvs
  have hvalues : m.values = .closure g :: .cls D.cls :: us := heq
  have hpeek : Machine.peek 0 ((m.goto q).setValues (.cls D.cls :: us)) =
      .ok (.cls D.cls) ((m.goto q).setValues (.cls D.cls :: us)) := by
    rw [peek_values, values_setValues]
    rfl
  refine .bind_ok (pop_cons heq) (.bind_ok hpeek (.of_ok rfl ?_))
  have hd := R.declaring
  cases hd with
  | fresh hfresh' => exact absurd hfresh' (by simp [hfresh])
  | grown _ hcurrent hid hsize hparent hholder =>
  let w' : World := { w with lineage := w.lineage.after m (.method name) }
  have hℓ : w'.lineage = { w.lineage with
      own := Lineage.set w.lineage.own D.cls.id ((name, g) :: w.lineage.own D.cls.id) } := by
    change w.lineage.after m (.method name) = _
    rw [Lineage.after, hvalues]
  have hle : w.Le w' := by
    refine ⟨fun _ _ => id, fun _ _ => id, Nat.le_refl _, Nat.le_refl _, fun id _ => ?_, fun id _ => ?_⟩
    all_goals
      simp only [Lineage.parentOf, hℓ]
  have hordered : w'.lineage.Ordered w.ids w.classes m.store.methods.size := by
    have hold := R.steady.ordered
    rw [hℓ]
    refine ⟨hold.older, fun id hid' => ?_, hold.homes⟩
    rw [← (hold.unborn id hid').1]
    exact ⟨Lineage.set_ne _ _ (by omega), (hold.unborn id hid').2⟩
  let m' : Machine := { (m.goto q).setValues (.cls D.cls :: us) with
    store := m.store.setMethod D.cls name g }
  have hsize' : m'.store.methods.size = m.store.methods.size := by simp [m', Store.setMethod]
  have hsteady : Steady w' n (.temp (.is (.cls D.cls)) :: s ++ Γ) (Decl.excused (some D)) m'.store
      m'.globals m'.openCells := by
    have h₁ : Steady w n ([Slot.temp (.method (Syntax.methodKind name) D.cls)] ++
        (.temp (.is (.cls D.cls)) :: s ++ Γ)) (Decl.excused (some D)) m.store m.globals
        m.openCells := R.steady
    have h₂ := (h₁.replace (by simp) []).setMethod D.cls name hg
    exact h₂.evolve hle rfl rfl h₂.ids h₂.classes (hsize' ▸ hordered)
  have R' : Running w' n m' { f with ip := q } fs G E ⟨.temp (.is (.cls D.cls)) :: s, some D⟩ Γ := by
    refine R.evolve hle (R.goto q).frames hsteady ?_ (.grown hfresh ?_ hid (hsize'.trans hsize) ?_ hholder)
    · rw [show m'.values = .cls D.cls :: us from values_setValues (m.goto q) _]
      exact Holds.mono (.cons ⟨rfl, hu⟩ hus) hle
    · rw [hℓ]
      exact hcurrent
    · rw [hℓ]
      exact hparent
  exact R'.goes h

/-! ## One instruction -/

theorem exec {q : Nat} {ins : Instr} (R : Running w n m f fs G E σ Γ)
    (hground : Grounded G.kind (σ.slots.drop ins.pops))
    (hflow : Flow w.routines (Safe w.routines n) G E q ins σ)
    (hq : ∀ g captures, ins = .closure g captures → 2 * captures.length ≤ q) :
    Fine (fun _ => Goes w.routines (w.lineage.after m ins) n) (ins.exec q) m := by
  cases hflow with
  | push hv h => exact R.moveTo q fun m' R' => R'.plain hv h
  | pop h =>
      have hcurrent : { w.lineage with current := none } = w.lineage := by
        have hd := R.declaring
        cases hd with
        | none hcurrent => rw [← hcurrent]
      rw [Lineage.after, hcurrent]
      exact R.moveTo q fun m' R' => R'.pop fun _ m'' _ R'' => .of_ok rfl (R''.goes h)
  | endClass hfresh h => exact R.moveTo q fun m' R' => R'.endClass hfresh h
  | getLocal hi h =>
      refine R.moveTo q fun m' R' => ?_
      exact R'.frame (g := fun f => do Machine.push (← readSlot (f.base + _))) (R'.getLocal hi h)
  | setLocal hi h => exact R.moveTo q fun m' R' => R'.frame (R'.setLocal hi h)
  | getGlobal h => exact R.moveTo q fun m' R' => R'.getGlobal h
  | defineGlobal h => exact R.moveTo q fun m' R' => R'.defineGlobal h
  | holdGlobal hholder h => exact R.moveTo q fun m' R' => R'.holdGlobal hholder h
  | setGlobal h => exact R.moveTo q fun m' R' => R'.setGlobal h
  | getUpvalue hi h => exact R.getUpvalue hi h
  | setUpvalue hi h => exact R.setUpvalue hi h
  | getProperty h => exact R.getProperty h
  | setProperty h => exact R.setProperty h
  | getSuper _ h => exact R.moveTo q fun m' R' => R'.popClass fun m'' R'' => R''.bindMethod h
  | operator hop h => exact R.moveTo q fun m' R' => R'.operator hop h
  | jump h => exact R.jumpTo h
  | loop h => exact R.jumpTo h
  | jumpIfFalse h h' =>
      refine R.moveTo q fun m' R' => ?_
      obtain ⟨v, hpeek, -⟩ := R'.top
      refine .bind_ok hpeek ?_
      split
      · exact R'.jumpTo h
      · exact .of_ok rfl (R'.goes h')
  | @call i s h =>
      have hs : Grounded G.kind s := drop_temps i _ s ▸ hground
      refine R.moveTo q fun m' R' => R'.peek (temps i) List.length_replicate fun v hv hknown => ?_
      exact (hknown (.is v) ⟨rfl, hv⟩).callValue hs h hv
  | @invoke name i s h =>
      have hs : Grounded G.kind s := drop_temps i _ s ▸ hground
      exact R.moveTo q fun m' R' => R'.invoke hs h _
  | @superInvoke name i c o s _ h =>
      have hs : Grounded G.kind s := drop_temps i _ s ▸ hground
      exact R.moveTo q fun m' R' => R'.popClass fun m'' R'' => R''.invokeFrom hs h c _
  | closure hany hkind hg hcs h =>
      exact R.closure (fun D hD => by cases hD) rfl (.inl ⟨hany, hkind⟩) hg hcs (hq _ _ rfl) h
  | methodClosure hfresh hkind hg hcs h =>
      refine R.closure (fun D hD => ?_) rfl (.inr ⟨_, rfl, rfl⟩) hg hcs (hq _ _ rfl) h
      obtain rfl := Option.some.inj hD
      exact hfresh
  | closeUpvalue h => exact R.moveTo q fun m' R' => R'.closeUpvalue h
  | ret _ => exact R.moveTo q fun m' R' => R'.leave fun _ hv => hv
  | retReceiver _ => exact R.moveTo q fun m' R' => R'.leave fun _ hv => hv.1 ▸ hv.2
  | makeClass h => exact R.makeClass h
  | inherit _ hfresh h => exact R.inherit hfresh h
  | method hfresh h => exact R.method hfresh h

end Running

/-! ## One step -/

theorem Lineage.after_goto (ℓ : Lineage) {m : Machine} {f : Frame} {fs : List Frame}
    (h : m.frames = f :: fs) (p : Nat) (ins : Instr) : ℓ.after (m.goto p) ins = ℓ.after m ins := by
  have hplace : ℓ.place (m.goto p) = ℓ.place m := by
    rw [place, place, frames_goto m p h, h]
    rfl
  cases ins <;> first | rfl | simp only [after, hplace]; rfl

theorem Live.step {rs : Array Routine} {ℓ : Lineage} {n : Nat} {m : Machine}
    (h : Live rs ℓ (n + 1) m) : Fine (fun _ => Goes rs (ℓ.next m) n) Machine.step m := by
  obtain ⟨w, f, fs, G, E, σ, Γ, rfl, rfl, R, τ, ins, q, hle, hi, hground, hflow⟩ := h
  have hi : (m.store.chunk f.closure.function).instr? f.ip = some (ins, q) := by
    rw [Store.chunk, R.steady.chunks, Array.getD_eq_getD_getElem?, Array.getElem?_map, R.has.routine]
    exact hi
  rw [Fine, step_eq_exec R.frames hi, Lineage.next_eq R.frames hi,
    ← Lineage.after_goto _ R.frames (f.ip + 1)]
  refine ((R.succ.weaken hle).goto (f.ip + 1)).exec hground hflow fun g captures heq => ?_
  subst heq
  exact Chunk.le_of_instr?_closure hi

end LoxMachine
