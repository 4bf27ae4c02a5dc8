import LoxMachine.Proofs.Machine.Cells
import LoxMachine.Proofs.Machine.Store
import LoxMachine.Proofs.Twin.Code

/-!
# Twin machines

Two machines that run code that resembles code. What both have made, closure by closure, method by
method and captured variable by captured variable, is kept in a `Bond`; up to it their stacks, globals
and stores are the same (`Heaps`), and their calls are pairwise of functions that resemble each other
(`Lineup`). As before, every statement has a number `n`: code resembles code for `n` instructions.

The lowest slot of the stack belongs to the scripts, which differ.
-/

namespace LoxMachine

open Std (HashMap)

/-! ## Values -/

/-- Closures and bound methods have a number of their own, which tells when they were made. -/
def Value.serial? : Value → Option Nat
  | .closure c => some c.id
  | .bound id _ _ => some id
  | _ => none

/-- The same for any two machines. -/
def Value.Fixed : Value → Prop
  | .number _ | .boolean _ | .nil | .string _ | .cls _ | .object _ | .native _ => True
  | _ => False

/-- What two machines have made alike. -/
structure Bond where
  made : Value → Value → Prop
  cell : Nat → Nat → Prop

/-- All the code of the one machine and of the other, and the scripts they run. -/
structure Scene where
  left : Array Chunk
  right : Array Chunk
  scripts : Pairing

/-- Values that stand for the same. -/
inductive Bond.Twin (B : Bond) : Value → Value → Prop where
  | fixed {v} : v.Fixed → B.Twin v v
  | made {v v'} : B.made v v' → B.Twin v v'

inductive Bond.TwinCell (B : Bond) : Cell → Cell → Prop where
  | inSlot {slot} : 0 < slot → B.TwinCell (.inSlot slot) (.inSlot slot)
  | closed {v v'} : B.Twin v v' → B.TwinCell (.closed v) (.closed v')

/-- Two functions as the pairing says, with the variables they have captured. -/
structure Bond.Seat (S : Scene) (B : Bond) (P : Pairing) (c c' : Closure) : Prop where
  left : S.left[c.function.index]? = some P.left
  right : S.right[c'.function.index]? = some P.right
  cells : ∀ k k', P.shares k k' → ∃ x x', c.cells[k]? = some x ∧ c'.cells[k']? = some x' ∧ B.cell x x'

/-- Closures that do the same when they are called. -/
structure Bond.Alike (S : Scene) (n : Nat) (B : Bond) (c c' : Closure) : Prop where
  name : c.function.name = c'.function.name
  arity : c.function.arity = c'.function.arity
  code : ∃ P : Pairing, ¬ P.script ∧ B.Seat S P c c' ∧ Resembles S.left S.right n P 0 0

inductive Bond.Linked (S : Scene) (n : Nat) (B : Bond) : Value → Value → Prop where
  | closure {c c'} : B.Alike S n c c' → B.Linked S n (.closure c) (.closure c')
  | bound {id id' r r' c c'} : B.Twin r r' → B.made (.closure c) (.closure c') →
      B.Linked S n (.bound id r c) (.bound id' r' c')

structure Bond.Le (B B' : Bond) : Prop where
  made : ∀ v v', B.made v v' → B'.made v v'
  cell : ∀ c c', B.cell c c' → B'.cell c c'

section Mono

variable {S : Scene} {B B' : Bond} {n : Nat} {v v' : Value} {c c' : Closure} {P : Pairing}

theorem Bond.Le.refl (B : Bond) : B.Le B :=
  ⟨fun _ _ => id, fun _ _ => id⟩

theorem Bond.Twin.mono (h : B.Twin v v') (hB : B.Le B') : B'.Twin v v' := by
  cases h with
  | fixed h => exact .fixed h
  | made h => exact .made (hB.made _ _ h)

theorem Bond.TwinCell.mono {x x' : Cell} (h : B.TwinCell x x') (hB : B.Le B') : B'.TwinCell x x' := by
  cases h with
  | inSlot h => exact .inSlot h
  | closed h => exact .closed (h.mono hB)

theorem Bond.Seat.mono (h : B.Seat S P c c') (hB : B.Le B') : B'.Seat S P c c' where
  left := h.left
  right := h.right
  cells k k' hk :=
    have ⟨x, x', hx, hx', hcell⟩ := h.cells k k' hk
    ⟨x, x', hx, hx', hB.cell _ _ hcell⟩

theorem Bond.Alike.mono (h : B.Alike S n c c') (hB : B.Le B') : B'.Alike S n c c' where
  name := h.name
  arity := h.arity
  code :=
    have ⟨P, hscript, hseat, hcode⟩ := h.code
    ⟨P, hscript, hseat.mono hB, hcode⟩

theorem Bond.Alike.succ (h : B.Alike S (n + 1) c c') : B.Alike S n c c' where
  name := h.name
  arity := h.arity
  code :=
    have ⟨P, hscript, hseat, hcode⟩ := h.code
    ⟨P, hscript, hseat, hcode.succ⟩

theorem Bond.Linked.mono (h : B.Linked S n v v') (hB : B.Le B') : B'.Linked S n v v' := by
  cases h with
  | closure h => exact .closure (h.mono hB)
  | bound hr hc => exact .bound (hr.mono hB) (hB.made _ _ hc)

theorem Bond.Linked.succ (h : B.Linked S (n + 1) v v') : B.Linked S n v v' := by
  cases h with
  | closure h => exact .closure h.succ
  | bound hr hc => exact .bound hr hc

/-- Twins print alike. -/
theorem Bond.Linked.toString_eq (h : B.Linked S n v v')
    (hlinked : ∀ v v', B.made v v' → B.Linked S n v v') : v.toString = v'.toString := by
  have hname {c c' : Closure} (h : B.Alike S n c c') : c.function.toString = c'.function.toString := by
    rw [Function.toString, Function.toString, h.name]
  cases h with
  | closure h => exact hname h
  | bound _ hc =>
      cases hlinked _ _ hc with
      | closure h => exact hname h

end Mono

/-! ## The stack -/

/-- Stacks of twins, up to the lowest slot. -/
inductive Bond.Stacks (B : Bond) : List Value → List Value → Prop where
  | bottom (v v') : B.Stacks [v] [v']
  | cons {v v' vs vs'} : B.Twin v v' → B.Stacks vs vs' → B.Stacks (v :: vs) (v' :: vs')

section Stacks

variable {B B' : Bond} {v v' : Value} {vs vs' : List Value} {slot d : Nat}

theorem Bond.Stacks.mono (h : B.Stacks vs vs') (hB : B.Le B') : B'.Stacks vs vs' := by
  induction h with
  | bottom v v' => exact .bottom v v'
  | cons hv _ ih => exact .cons (hv.mono hB) ih

theorem Bond.Stacks.length_eq (h : B.Stacks vs vs') : vs'.length = vs.length := by
  induction h with
  | bottom => rfl
  | cons _ _ ih => rw [List.length_cons, List.length_cons, ih]

theorem Bond.Stacks.pos (h : B.Stacks vs vs') : 0 < vs.length := by
  cases h <;> exact Nat.succ_pos _

theorem Bond.Stacks.getElem? (h : B.Stacks vs vs') (hd : d + 1 < vs.length) :
    ∃ v v', vs[d]? = some v ∧ vs'[d]? = some v' ∧ B.Twin v v' := by
  induction h generalizing d with
  | bottom => simp at hd
  | @cons v v' _ _ hv _ ih =>
      cases d with
      | zero => exact ⟨v, v', rfl, rfl, hv⟩
      | succ d => exact ih (by simpa using hd)

/-- A slot other than the lowest one. -/
theorem Bond.Stacks.atSlot? (h : B.Stacks vs vs') (hpos : 0 < slot) (hslot : slot < vs.length) :
    ∃ v v', LoxMachine.atSlot? vs slot = some v ∧ LoxMachine.atSlot? vs' slot = some v' ∧ B.Twin v v' := by
  have hlength := h.length_eq
  obtain ⟨v, v', hv, hv', htwin⟩ := h.getElem? (d := vs.length - 1 - slot) (by omega)
  refine ⟨v, v', ?_, ?_, htwin⟩
  · rw [LoxMachine.atSlot?, List.getElem?_reverse hslot, hv]
  · rw [LoxMachine.atSlot?, List.getElem?_reverse (hlength ▸ hslot), hlength, hv']

theorem Bond.Stacks.drop (h : B.Stacks vs vs') (hd : d < vs.length) :
    B.Stacks (vs.drop d) (vs'.drop d) := by
  induction h generalizing d with
  | bottom v v' =>
      obtain rfl : d = 0 := by simpa using hd
      exact .bottom v v'
  | cons hv h ih =>
      cases d with
      | zero => exact .cons hv h
      | succ d => exact ih (by simpa using hd)

theorem Bond.Stacks.setSlot (h : B.Stacks vs vs') (hv : B.Twin v v') (slot : Nat) :
    B.Stacks (LoxMachine.setSlot vs slot v) (LoxMachine.setSlot vs' slot v') := by
  induction h with
  | bottom w w' =>
      rw [setSlot_cons, setSlot_cons]
      split
      · exact .bottom v v'
      · exact .bottom w w'
  | cons hw h ih =>
      rw [setSlot_cons, setSlot_cons, h.length_eq]
      split
      · exact .cons hv h
      · exact .cons hw ih

end Stacks

/-! ## The heap -/

/-- A value has a number that was given out before. -/
def Machine.Knows (m : Machine) (v : Value) : Prop :=
  ∃ i, v.serial? = some i ∧ i < m.store.nextId

/-- Everything but the stack and the calls is the same up to the bond. -/
structure Heaps (S : Scene) (n : Nat) (B : Bond) (m m' : Machine) : Prop where
  left : m.store.chunks = S.left
  right : m'.store.chunks = S.right
  linked : ∀ v v', B.made v v' → B.Linked S n v v'
  known : ∀ v v', B.made v v' → m.Knows v ∧ m'.Knows v'
  single : ∀ v v' u u', B.made v v' → B.made u u' → (v = u ↔ v' = u')
  cells : ∀ c c', B.cell c c' → ∃ x x', m.store.cells[c]? = some x ∧ m'.store.cells[c']? = some x' ∧
    B.TwinCell x x'
  singleCell : ∀ c c' d d', B.cell c c' → B.cell d d' → (c = d ↔ c' = d')
  globals : ∀ name : String, Option.Rel B.Twin m.globals[name]? m'.globals[name]?
  methods : ∀ c name, Option.Rel (fun f f' => B.made (.closure f) (.closure f'))
    (m.store.method? c name) (m'.store.method? c name)
  classes : m.store.methods.size = m'.store.methods.size
  fields : ∀ o name, Option.Rel B.Twin (m.store.field? o name) (m'.store.field? o name)
  objects : m.store.fields.size = m'.store.fields.size
  natives : m.store.natives = #[Machine.clock] ∧ m'.store.natives = #[Machine.clock]
  time : m.time = m'.time
  output : m.console.output = m'.console.output
  broken : m.console.broken = m'.console.broken

/-- The calls in which the machines are, those that called them waiting; of the running call it is
left open where it is. -/
inductive Lineup (S : Scene) (n : Nat) (B : Bond) : Pairing → Frame → List Frame → Frame → List Frame →
    Prop where
  | script {f f'} : S.scripts.script → B.Seat S S.scripts f.closure f'.closure → f.base = 0 →
      f'.base = 0 → Lineup S n B S.scripts f [] f' []
  | call {P Q f f' g g' fs fs'} : ¬ P.script → B.Seat S P f.closure f'.closure → 0 < f.base →
      f'.base = f.base → Resembles S.left S.right n Q g.ip g'.ip → Lineup S n B Q g fs g' fs' →
      Lineup S n B P f (g :: fs) f' (g' :: fs')

/-- Two machines amid an instruction. -/
structure Amid (S : Scene) (n : Nat) (B : Bond) (P : Pairing) (f : Frame) (fs : List Frame)
    (f' : Frame) (fs' : List Frame) (m m' : Machine) : Prop where
  frames : m.frames = f :: fs
  frames' : m'.frames = f' :: fs'
  lineup : Lineup S n B P f fs f' fs'
  values : B.Stacks m.values m'.values
  heaps : Heaps S n B m m'

/-- Two machines whose next `n` instructions do the same. -/
def Twins (S : Scene) (n : Nat) (m m' : Machine) : Prop :=
  ∃ B P f fs f' fs', Amid S n B P f fs f' fs' m m' ∧ Resembles S.left S.right n P f.ip f'.ip

section Mono

variable {S : Scene} {B B' : Bond} {n p p' : Nat} {P : Pairing} {f f' : Frame} {fs fs' : List Frame}
  {m m' : Machine}

theorem Lineup.mono (h : Lineup S n B P f fs f' fs') (hB : B.Le B') : Lineup S n B' P f fs f' fs' := by
  induction h with
  | script hscript hseat hbase hbase' => exact .script hscript (hseat.mono hB) hbase hbase'
  | call hscript hseat hbase hbase' hresembles _ ih =>
      exact .call hscript (hseat.mono hB) hbase hbase' hresembles ih

theorem Lineup.succ (h : Lineup S (n + 1) B P f fs f' fs') : Lineup S n B P f fs f' fs' := by
  induction h with
  | script hscript hseat hbase hbase' => exact .script hscript hseat hbase hbase'
  | call hscript hseat hbase hbase' hresembles _ ih =>
      exact .call hscript hseat hbase hbase' hresembles.succ ih

theorem Lineup.seat (h : Lineup S n B P f fs f' fs') : B.Seat S P f.closure f'.closure := by
  cases h <;> assumption

theorem Lineup.base (h : Lineup S n B P f fs f' fs') : f'.base = f.base := by
  cases h with
  | script _ _ hbase hbase' => rw [hbase, hbase']
  | call _ _ _ hbase => exact hbase

/-- The slots that functions name lie above the lowest one. -/
theorem Lineup.slot_pos (h : Lineup S n B P f fs f' fs') {slot : Nat} (hslot : P.script → 0 < slot) :
    0 < f.base + slot := by
  cases h with
  | script hscript => exact Nat.add_pos_right _ (hslot hscript)
  | call _ _ hpos => exact Nat.add_pos_left hpos _

theorem Lineup.length_eq (h : Lineup S n B P f fs f' fs') : fs'.length = fs.length := by
  induction h with
  | script => rfl
  | call _ _ _ _ _ _ ih => rw [List.length_cons, List.length_cons, ih]

/-- The running call is somewhere else. -/
theorem Lineup.goto (h : Lineup S n B P f fs f' fs') (p p' : Nat) :
    Lineup S n B P { f with ip := p } fs { f' with ip := p' } fs' := by
  cases h with
  | script hscript hseat hbase hbase' => exact .script hscript hseat hbase hbase'
  | call hscript hseat hbase hbase' hresembles h => exact .call hscript hseat hbase hbase' hresembles h

theorem Heaps.succ (h : Heaps S (n + 1) B m m') : Heaps S n B m m' :=
  { h with linked := fun v v' hv => (h.linked v v' hv).succ }

theorem Amid.succ (A : Amid S (n + 1) B P f fs f' fs' m m') : Amid S n B P f fs f' fs' m m' :=
  { A with lineup := A.lineup.succ, heaps := A.heaps.succ }

theorem Amid.goto (A : Amid S n B P f fs f' fs' m m') (p p' : Nat) :
    Amid S n B P { f with ip := p } fs { f' with ip := p' } fs' (m.goto p) (m'.goto p') where
  frames := Machine.frames_goto m p A.frames
  frames' := Machine.frames_goto m' p' A.frames'
  lineup := A.lineup.goto p p'
  values := A.values
  heaps := { A.heaps with }

theorem Amid.twins (A : Amid S n B P f fs f' fs' m m')
    (h : Resembles S.left S.right n P f.ip f'.ip) : Twins S n m m' :=
  ⟨B, P, f, fs, f', fs', A, h⟩

end Mono

/-! ## The other way round -/

def Bond.flip (B : Bond) : Bond :=
  ⟨fun v v' => B.made v' v, fun c c' => B.cell c' c⟩

def Scene.flip (S : Scene) : Scene :=
  ⟨S.right, S.left, S.scripts.flip⟩

section Flip

variable {S : Scene} {B : Bond} {n : Nat} {P : Pairing} {v v' : Value} {vs vs' : List Value} {x x' : Cell}
  {c c' : Closure} {f f' : Frame} {fs fs' : List Frame} {m m' : Machine}

theorem Bond.Twin.flip (h : B.Twin v v') : B.flip.Twin v' v := by
  cases h with
  | fixed h => exact .fixed h
  | made h => exact .made h

theorem Bond.TwinCell.flip (h : B.TwinCell x x') : B.flip.TwinCell x' x := by
  cases h with
  | inSlot h => exact .inSlot h
  | closed h => exact .closed h.flip

theorem Bond.Seat.flip (h : B.Seat S P c c') : B.flip.Seat S.flip P.flip c' c where
  left := h.right
  right := h.left
  cells k k' hk :=
    have ⟨x, x', hx, hx', hcell⟩ := h.cells k' k hk
    ⟨x', x, hx', hx, hcell⟩

theorem Bond.Alike.flip (h : B.Alike S n c c') : B.flip.Alike S.flip n c' c where
  name := h.name.symm
  arity := h.arity.symm
  code :=
    have ⟨P, hscript, hseat, hcode⟩ := h.code
    ⟨P.flip, hscript, hseat.flip, hcode.flip⟩

theorem Bond.Linked.flip (h : B.Linked S n v v') : B.flip.Linked S.flip n v' v := by
  cases h with
  | closure h => exact .closure h.flip
  | bound hr hc => exact .bound hr.flip hc

theorem Bond.Stacks.flip (h : B.Stacks vs vs') : B.flip.Stacks vs' vs := by
  induction h with
  | bottom v v' => exact .bottom v' v
  | cons hv _ ih => exact .cons hv.flip ih

theorem rel_flip {α β : Type} {R : α → β → Prop} {R' : β → α → Prop} (hR : ∀ a b, R a b → R' b a)
    {o : Option α} {o' : Option β} (h : Option.Rel R o o') : Option.Rel R' o' o := by
  cases h with
  | some h => exact .some (hR _ _ h)
  | none => exact .none

theorem Heaps.flip (h : Heaps S n B m m') : Heaps S.flip n B.flip m' m where
  left := h.right
  right := h.left
  linked v v' hv := (h.linked v' v hv).flip
  known v v' hv := (h.known v' v hv).symm
  single v v' u u' hv hu := (h.single v' v u' u hv hu).symm
  cells c c' hc :=
    have ⟨x, x', hx, hx', hcell⟩ := h.cells c' c hc
    ⟨x', x, hx', hx, hcell.flip⟩
  singleCell c c' d d' hc hd := (h.singleCell c' c d' d hc hd).symm
  globals name := rel_flip (fun _ _ => Bond.Twin.flip) (h.globals name)
  methods c name := rel_flip (fun _ _ => id) (h.methods c name)
  classes := h.classes.symm
  fields o name := rel_flip (fun _ _ => Bond.Twin.flip) (h.fields o name)
  objects := h.objects.symm
  natives := h.natives.symm
  time := h.time.symm
  output := h.output.symm
  broken := h.broken.symm

theorem Lineup.flip (h : Lineup S n B P f fs f' fs') : Lineup S.flip n B.flip P.flip f' fs' f fs := by
  induction h with
  | script hscript hseat hbase hbase' => exact .script (S := S.flip) hscript hseat.flip hbase' hbase
  | call hscript hseat hpos hbase hcode _ ih =>
      exact .call hscript hseat.flip (hbase ▸ hpos) hbase.symm hcode.flip ih

theorem Amid.flip (A : Amid S n B P f fs f' fs' m m') : Amid S.flip n B.flip P.flip f' fs' f fs m' m where
  frames := A.frames'
  frames' := A.frames
  lineup := A.lineup.flip
  values := A.values.flip
  heaps := A.heaps.flip

end Flip

end LoxMachine
