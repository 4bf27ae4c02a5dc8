import LoxMachine.Proofs.Code.Blocks
import LoxMachine.Proofs.Typing.Slots

/-!
# Shapes of the stack

What is known about the stack of a function at an offset of its code, in the manner of a bytecode
verifier. A slot has a kind and may be shared with closures; only a slot that is not shared can be
dropped without closing it. `Flow` gives the shapes that an instruction needs and makes, `Safe n`
says that `n` instructions from an offset on find the shapes they need, those of the functions made
on the way included.
-/

namespace LoxMachine

open Syntax

/-! ## Kinds and slots -/

/-- What is known about a value. -/
inductive Kind where
  | any
  /-- It is this value. -/
  | is (v : Value)
  /-- It is a class that is only just being declared: nobody else has it yet. -/
  | own (c : Class)
  /-- It is a method on its way into its class. -/
  | method (k : BodyKind) (c : Class)
deriving DecidableEq, Repr

structure Slot where
  kind : Kind
  /-- Whether closures may share the variable in the slot. -/
  shared : Bool
deriving DecidableEq, Repr

/-- A value on its way through the stack. -/
abbrev Slot.temp (k : Kind) : Slot :=
  ⟨k, false⟩

/-- Less is known about a slot: which value is in it, or that nobody shares it. -/
def Slot.Le (s t : Slot) : Prop :=
  s = t ∨ s.shared = false ∧ (t.kind = s.kind ∨ t.kind = .any ∧ ∃ v, s.kind = .is v)

/-- A class that is being declared. -/
structure Decl where
  cls : Class
  /-- The global variable that holds it. -/
  holder : Option String
  /-- Whether it can still inherit. -/
  fresh : Bool
  /-- The class it inherits from. -/
  parent : Option Class

/-- The slots of a function, the top first, and the class in whose body we are. -/
structure Shape where
  slots : List Slot
  decl : Option Decl

def Shape.Le (σ τ : Shape) : Prop :=
  List.Forall₂ Slot.Le σ.slots τ.slots ∧ τ.decl = σ.decl

namespace Slot

theorem Le.refl (s : Slot) : s.Le s :=
  .inl rfl

theorem Le.trans {a b c : Slot} (h : a.Le b) (h' : b.Le c) : a.Le c := by
  rcases h with rfl | ⟨ha, hk⟩
  · exact h'
  rcases h' with rfl | ⟨-, hk'⟩
  · exact .inr ⟨ha, hk⟩
  · refine .inr ⟨ha, ?_⟩
    rcases hk' with heq | ⟨hany, v, hv⟩
    · rw [heq]
      exact hk
    · rcases hk with heq | ⟨hany', -⟩
      · exact .inr ⟨hany, v, heq ▸ hv⟩
      · exact nomatch hv.symm.trans hany'

theorem Le.of_shared {s t : Slot} (h : s.Le t) (hs : s.shared = true) : t = s := by
  rcases h with rfl | ⟨ha, -⟩
  · rfl
  · rw [hs] at ha
    cases ha

/-- Which value is in a slot can be forgotten. -/
theorem le_any (v : Value) (b : Bool) : Le (.temp (.is v)) ⟨.any, b⟩ :=
  .inr ⟨rfl, .inr ⟨rfl, v, rfl⟩⟩

/-- A temporary can become a variable. -/
theorem le_shared (k : Kind) (b : Bool) : Le (.temp k) ⟨k, b⟩ :=
  .inr ⟨rfl, .inl rfl⟩

end Slot

theorem slots_refl (s : List Slot) : List.Forall₂ Slot.Le s s :=
  List.forall₂_same.mpr fun x _ => Slot.Le.refl x

namespace Shape

theorem Le.refl (σ : Shape) : σ.Le σ :=
  ⟨slots_refl σ.slots, rfl⟩

theorem Le.trans {ρ σ τ : Shape} (h : ρ.Le σ) (h' : σ.Le τ) : ρ.Le τ :=
  ⟨Body.forall₂_trans (R := Slot.Le) (fun _ _ _ => Slot.Le.trans) h.1 h'.1, h'.2.trans h.2⟩

end Shape

/-- What is known about the variable of a class that is being declared. -/
def Decl.kind (d : Decl) : Kind :=
  if d.fresh then .own d.cls else .is (.cls d.cls)

/-- What is known about a global variable. -/
def globalKind (d : Option Decl) (name : String) : Kind :=
  match d with
  | some d => if d.holder = some name then d.kind else .any
  | none => .any

/-! ## Receivers -/

def BodyKind.IsMethod : BodyKind → Prop
  | .method | .initializer => True
  | .script | .function => False

/-- What can be in slot zero when a function is entered. -/
def BodyKind.Receives : BodyKind → Value → Prop
  | .method, v | .initializer, v => ∃ o, v = .object o
  | .script, _ | .function, _ => True

/-- What is known about slot zero: a method has its receiver there. -/
def BodyKind.slotKind : BodyKind → Value → Kind
  | .method, v | .initializer, v => .is v
  | .script, _ | .function, _ => .any

/-- Slot zero is there and, in a method, holds the receiver. -/
def Grounded (kind : BodyKind) (s : List Slot) : Prop :=
  ∃ v b, kind.Receives v ∧ atSlot? s 0 = some ⟨kind.slotKind v, b⟩

theorem Grounded.append {kind : BodyKind} {s : List Slot} (h : Grounded kind s) (top : List Slot) :
    Grounded kind (top ++ s) :=
  have ⟨v, b, hv, hslot⟩ := h
  ⟨v, b, hv, atSlot?_append_of_some hslot⟩

theorem Grounded.cons {kind : BodyKind} {s : List Slot} (h : Grounded kind s) (x : Slot) :
    Grounded kind (x :: s) :=
  h.append [x]

theorem Grounded.length_pos {kind : BodyKind} {s : List Slot} (h : Grounded kind s) :
    0 < s.length :=
  have ⟨_, _, _, hslot⟩ := h
  lt_of_atSlot? hslot

/-! ## The flow of shapes -/

/-- What a closure brings along: the kinds of its captured variables, and the class that the class
it belongs to inherits from. -/
structure Env where
  cells : List Kind
  parent : Option Class

/-- A capture leads to a shared slot, or to a captured variable of the function around it. -/
def Reaches (E : Env) (slots : List Slot) (c : Capture) (k : Kind) : Prop :=
  if c.fromLocal then atSlot? slots c.index = some ⟨k, true⟩ else E.cells[c.index]? = some k

/-- The code of a function is as `G`, and `K` holds at its start, with any receiver. -/
structure Enters (routines : Array Routine) (K : Layout → Env → Nat → Shape → Prop) (f : Function)
    (G : Layout) (E : Env) : Prop where
  routine : routines[f.index]? = some ⟨f, G.code, G.kind⟩
  start : ∀ v, G.kind.Receives v → ∃ (params : List Slot) (b : Bool), params.length = f.arity ∧
    (∀ s ∈ params, s.kind = .any) ∧ K G E 0 ⟨params ++ [⟨G.kind.slotKind v, b⟩], none⟩

/-- Temporaries of which nothing is known. -/
abbrev temps (n : Nat) : List Slot :=
  List.replicate n (.temp .any)

theorem temps_append (n : Nat) (s : List Slot) :
    temps n ++ .temp .any :: s = temps (n + 1) ++ s := by
  rw [temps, temps, List.replicate_succ', List.append_assoc]
  rfl

theorem drop_temps (n : Nat) (x : Slot) (s : List Slot) :
    (temps n ++ x :: s).drop (n + 1) = s := by
  have hsplit : temps n ++ x :: s = (temps n ++ [x]) ++ s := by simp
  have hlen : n + 1 = (temps n ++ [x]).length := by simp
  rw [hsplit, hlen, List.drop_left]

/-- The instruction that ends at `q` lets a class inherit; the two before it read the variables that
the superclass and the class are named by. -/
def Layout.NamesParent (F : Layout) (q : Nat) : Prop :=
  ∃ i j p a b, F.At i (Access.get a) j ∧ F.At j (Access.get b) p ∧ F.At p .inherit q

/-- From a shape that suits the instruction, `K` holds wherever it leads; the offset behind it
is `q`. -/
inductive Flow (routines : Array Routine) (K : Layout → Env → Nat → Shape → Prop) (F : Layout)
    (E : Env) (q : Nat) : Instr → Shape → Prop where
  | push {v s} : v.IsPlain → K F E q ⟨.temp .any :: s, none⟩ →
      Flow routines K F E q (.push v) ⟨s, none⟩
  | pop {k s} : K F E q ⟨s, none⟩ → Flow routines K F E q .pop ⟨.temp k :: s, none⟩
  | endClass {s d} : d.fresh = false → K F E q ⟨s, none⟩ →
      Flow routines K F E q .pop ⟨.temp (.is (.cls d.cls)) :: s, some d⟩
  | getLocal {n k b s d} : atSlot? s n = some ⟨k, b⟩ → K F E q ⟨.temp k :: s, d⟩ →
      Flow routines K F E q (.getLocal n) ⟨s, d⟩
  | setLocal {n b s} : atSlot? (.temp .any :: s) n = some ⟨.any, b⟩ →
      K F E q ⟨.temp .any :: s, none⟩ → Flow routines K F E q (.setLocal n) ⟨.temp .any :: s, none⟩
  | getGlobal {name s d} : K F E q ⟨.temp (globalKind d name) :: s, d⟩ →
      Flow routines K F E q (.getGlobal name) ⟨s, d⟩
  | defineGlobal {name s} : K F E q ⟨s, none⟩ →
      Flow routines K F E q (.defineGlobal name) ⟨.temp .any :: s, none⟩
  | holdGlobal {name s d} : d.holder = none → K F E q ⟨s, some { d with holder := some name }⟩ →
      Flow routines K F E q (.defineGlobal name) ⟨.temp d.kind :: s, some d⟩
  | setGlobal {name s} : K F E q ⟨.temp .any :: s, none⟩ →
      Flow routines K F E q (.setGlobal name) ⟨.temp .any :: s, none⟩
  | getUpvalue {n k s d} : E.cells[n]? = some k → K F E q ⟨.temp k :: s, d⟩ →
      Flow routines K F E q (.getUpvalue n) ⟨s, d⟩
  | setUpvalue {n s} : E.cells[n]? = some .any → K F E q ⟨.temp .any :: s, none⟩ →
      Flow routines K F E q (.setUpvalue n) ⟨.temp .any :: s, none⟩
  | getProperty {name s} : K F E q ⟨.temp .any :: s, none⟩ →
      Flow routines K F E q (.getProperty name) ⟨.temp .any :: s, none⟩
  | setProperty {name s} : K F E q ⟨.temp .any :: s, none⟩ →
      Flow routines K F E q (.setProperty name) ⟨.temp .any :: .temp .any :: s, none⟩
  | getSuper {name c o s} : E.parent = some c → K F E q ⟨.temp .any :: s, none⟩ →
      Flow routines K F E q (.getSuper name)
        ⟨.temp (.is (.cls c)) :: .temp (.is (.object o)) :: s, none⟩
  | operator {op s} : op.IsOperator → K F E q ⟨temps op.gives ++ s, none⟩ →
      Flow routines K F E q (.operator op) ⟨temps op.takes ++ s, none⟩
  | jump {p s} : K F E p ⟨s, none⟩ → Flow routines K F E q (.jump p) ⟨s, none⟩
  | jumpIfFalse {p s} : K F E p ⟨.temp .any :: s, none⟩ → K F E q ⟨.temp .any :: s, none⟩ →
      Flow routines K F E q (.jumpIfFalse p) ⟨.temp .any :: s, none⟩
  | loop {p s} : K F E p ⟨s, none⟩ → Flow routines K F E q (.loop p) ⟨s, none⟩
  | call {n s} : K F E q ⟨.temp .any :: s, none⟩ →
      Flow routines K F E q (.call n) ⟨temps n ++ .temp .any :: s, none⟩
  | invoke {name n s} : K F E q ⟨.temp .any :: s, none⟩ →
      Flow routines K F E q (.invoke name n) ⟨temps n ++ .temp .any :: s, none⟩
  | superInvoke {name n c o s} : E.parent = some c → K F E q ⟨.temp .any :: s, none⟩ →
      Flow routines K F E q (.superInvoke name n)
        ⟨.temp (.is (.cls c)) :: (temps n ++ .temp (.is (.object o)) :: s), none⟩
  | closure {f captures new G Ks s} : new.kind = .any → ¬ G.kind.IsMethod →
      Enters routines K f G ⟨Ks, E.parent⟩ → List.Forall₂ (Reaches E (new :: s)) captures Ks →
      K F E q ⟨new :: s, none⟩ → Flow routines K F E q (.closure f captures) ⟨s, none⟩
  | methodClosure {f captures G Ks s d} : d.fresh = false → G.kind.IsMethod →
      Enters routines K f G ⟨Ks, d.parent⟩ →
      List.Forall₂ (Reaches E (.temp (.method G.kind d.cls) :: s)) captures Ks →
      K F E q ⟨.temp (.method G.kind d.cls) :: s, some d⟩ →
      Flow routines K F E q (.closure f captures) ⟨s, some d⟩
  | closeUpvalue {t s} : K F E q ⟨s, none⟩ → Flow routines K F E q .closeUpvalue ⟨t :: s, none⟩
  | ret {s} : F.kind ≠ .initializer → Flow routines K F E q .ret ⟨.temp .any :: s, none⟩
  | retReceiver {v b s} : atSlot? s 0 = some ⟨.is v, b⟩ →
      Flow routines K F E q .ret ⟨.temp (.is v) :: s, none⟩
  | makeClass {name fresh s} :
      (∀ c, K F E q ⟨.temp (Decl.mk c none fresh none).kind :: s, some ⟨c, none, fresh, none⟩⟩) →
      Flow routines K F E q (.makeClass name) ⟨s, none⟩
  | inherit {n s d} : F.NamesParent q → d.fresh = true →
      (∀ c, K F E q ⟨.temp (.is (.cls c)) :: (List.replicate n (.temp (.is (.cls d.cls))) ++ s),
        some { d with fresh := false, parent := some c }⟩) →
      Flow routines K F E q .inherit
        ⟨.temp (.own d.cls) :: .temp .any :: (List.replicate n (.temp (.own d.cls)) ++ s), some d⟩
  | method {name s d} : d.fresh = false → K F E q ⟨.temp (.is (.cls d.cls)) :: s, some d⟩ →
      Flow routines K F E q (.method name)
        ⟨.temp (.method (methodKind name) d.cls) :: .temp (.is (.cls d.cls)) :: s, some d⟩

/-- `n` instructions from the offset `p` on find the shapes they need, and leave slot zero alone. -/
def Safe (routines : Array Routine) : Nat → Layout → Env → Nat → Shape → Prop
  | 0, _, _, _, _ => True
  | n + 1, F, E, p, σ => ∃ τ ins q, σ.Le τ ∧ F.At p ins q ∧
      Grounded F.kind (τ.slots.drop ins.pops) ∧ Flow routines (Safe routines n) F E q ins τ

section Mono

variable {routines routines' : Array Routine} {K K' : Layout → Env → Nat → Shape → Prop}
  {F : Layout} {E : Env} {q : Nat} {ins : Instr} {σ : Shape}

theorem Enters.mono {f : Function} {G : Layout} (h : Enters routines K f G E)
    (hroutines : ∀ (i : Nat) (r : Routine), routines[i]? = some r → routines'[i]? = some r)
    (hK : ∀ G E p σ, K G E p σ → K' G E p σ) : Enters routines' K' f G E where
  routine := hroutines _ _ h.routine
  start v hv :=
    have ⟨params, b, hlen, hany, hstart⟩ := h.start v hv
    ⟨params, b, hlen, hany, hK _ _ _ _ hstart⟩

theorem Flow.mono (h : Flow routines K F E q ins σ)
    (hroutines : ∀ (i : Nat) (r : Routine), routines[i]? = some r → routines'[i]? = some r)
    (hK : ∀ G E p σ, K G E p σ → K' G E p σ) : Flow routines' K' F E q ins σ := by
  cases h with
  | push hv h => exact .push hv (hK _ _ _ _ h)
  | pop h => exact .pop (hK _ _ _ _ h)
  | endClass hd h => exact .endClass hd (hK _ _ _ _ h)
  | getLocal hn h => exact .getLocal hn (hK _ _ _ _ h)
  | setLocal hn h => exact .setLocal hn (hK _ _ _ _ h)
  | getGlobal h => exact .getGlobal (hK _ _ _ _ h)
  | defineGlobal h => exact .defineGlobal (hK _ _ _ _ h)
  | holdGlobal hd h => exact .holdGlobal hd (hK _ _ _ _ h)
  | setGlobal h => exact .setGlobal (hK _ _ _ _ h)
  | getUpvalue hn h => exact .getUpvalue hn (hK _ _ _ _ h)
  | setUpvalue hn h => exact .setUpvalue hn (hK _ _ _ _ h)
  | getProperty h => exact .getProperty (hK _ _ _ _ h)
  | setProperty h => exact .setProperty (hK _ _ _ _ h)
  | getSuper hc h => exact .getSuper hc (hK _ _ _ _ h)
  | operator hop h => exact .operator hop (hK _ _ _ _ h)
  | jump h => exact .jump (hK _ _ _ _ h)
  | jumpIfFalse h h' => exact .jumpIfFalse (hK _ _ _ _ h) (hK _ _ _ _ h')
  | loop h => exact .loop (hK _ _ _ _ h)
  | call h => exact .call (hK _ _ _ _ h)
  | invoke h => exact .invoke (hK _ _ _ _ h)
  | superInvoke hc h => exact .superInvoke hc (hK _ _ _ _ h)
  | closure hnew hG hf hcs h => exact .closure hnew hG (hf.mono hroutines hK) hcs (hK _ _ _ _ h)
  | methodClosure hd hG hf hcs h =>
      exact .methodClosure hd hG (hf.mono hroutines hK) hcs (hK _ _ _ _ h)
  | closeUpvalue h => exact .closeUpvalue (hK _ _ _ _ h)
  | ret hF => exact .ret hF
  | retReceiver hv => exact .retReceiver hv
  | makeClass h => exact .makeClass fun c => hK _ _ _ _ (h c)
  | inherit hnames hd h => exact .inherit hnames hd fun c => hK _ _ _ _ (h c)
  | method hd h => exact .method hd (hK _ _ _ _ h)

theorem Safe.extend {n p : Nat} (h : Safe routines n F E p σ)
    (hroutines : ∀ (i : Nat) (r : Routine), routines[i]? = some r → routines'[i]? = some r) :
    Safe routines' n F E p σ := by
  induction n generalizing F E p σ with
  | zero => trivial
  | succ n ih =>
      obtain ⟨τ, ins, q, hle, hi, hground, hflow⟩ := h
      exact ⟨τ, ins, q, hle, hi, hground, hflow.mono hroutines fun _ _ _ _ h => ih h⟩

theorem Safe.succ {n p : Nat} (h : Safe routines (n + 1) F E p σ) : Safe routines n F E p σ := by
  induction n generalizing F E p σ with
  | zero => trivial
  | succ n ih =>
      obtain ⟨τ, ins, q, hle, hi, hground, hflow⟩ := h
      exact ⟨τ, ins, q, hle, hi, hground, hflow.mono (fun _ _ => id) fun _ _ _ _ h => ih h⟩

theorem Safe.weaken {n p : Nat} {τ : Shape} (h : Safe routines n F E p τ) (hle : σ.Le τ) :
    Safe routines n F E p σ := by
  cases n with
  | zero => trivial
  | succ n =>
      obtain ⟨τ', ins, q, hle', hi, hground, hflow⟩ := h
      exact ⟨τ', ins, q, hle.trans hle', hi, hground, hflow⟩

end Mono

end LoxMachine
