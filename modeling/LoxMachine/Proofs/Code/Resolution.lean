import LoxMachine.Proofs.Code.WellFormed
import LoxMachine.Proofs.Verdict.Script

/-!
# What names are compiled to

Main statement: `Program.names_resolve`.

A text mentions variables, and functions that it makes (`Stmt.mentions`), in the order in which code is made
for them. The instructions of a function that refer to variables or make functions are those mentions, one by
one and in their order. Each of them denotes what the name stands for by the scopes of the text alone
(`Mention.Denotes`): the innermost variable of that name, told by its slot in the function where it is
declared, or else a global. From an inner function the number of a capture leads there along the operands of
the closures around it (`Chain`).
-/

namespace LoxMachine

open Syntax

namespace Syntax

/-! ## Mentions -/

/-- What instructions may refer to. -/
inductive Mention where
  | use (c : Scope) (u : Use)
  /-- A global variable is defined. -/
  | define (name : String)
  /-- The receiver, which an initializer answers. -/
  | receiver
  /-- A function is made. -/
  | function (c : Scope) (f : Fun Stmt) (kind : BodyKind)

namespace Scope

def uses (c : Scope) (us : List Use) : List Mention :=
  us.map (.use c)

/-- Those of an expression, if there is one. -/
def usesOf (c : Scope) : Option Expr → List Mention
  | none => []
  | some e => c.uses e.uses

/-- A variable outside of all scopes has to be defined; others are just left on the stack. -/
def defines (c : Scope) (name : String) : List Mention :=
  match c.inner.scopes with
  | [] => [.define name]
  | _ :: _ => []

/-- What a function answers that says nothing else. -/
def answers (c : Scope) : List Mention :=
  match c.inner.kind with
  | .initializer => [.receiver]
  | _ => []

/-- The methods of a class. -/
def makes (c : Scope) (fs : List (Fun Stmt)) : List Mention :=
  fs.map fun f => .function c f (methodKind f.name)

end Scope

mutual

/-- A class is read for its superclass to be put in, and for its methods. The increment of a loop stands
before its body. -/
def Stmt.mentions (c : Scope) : Stmt → List Mention
  | .expression e | .print e | .assert e => c.uses e.uses
  | .var name value => (c.initializing name).usesOf value ++ c.defines name
  | .block body => mentionsOfAll c.enter body
  | .cond test yes none => c.uses test.uses ++ yes.mentions c
  | .cond test yes (some no) => c.uses test.uses ++ yes.mentions c ++ no.mentions c
  | .while test body => c.uses test.uses ++ body.mentions c
  | .for none test step body =>
    c.enter.usesOf test ++ c.enter.usesOf step ++ body.mentions c.enter
  | .for (some first) test step body =>
    first.mentions c.enter ++ (c.enter.after first).usesOf test ++ (c.enter.after first).usesOf step ++
      body.mentions (c.enter.after first)
  | .return none => c.answers
  | .return (some e) => c.uses e.uses
  | .function f => .function (c.declare f.name) f .function :: c.defines f.name
  | .cls name none methods =>
    c.defines name ++ (c.declare name).uses [.read name] ++ ((c.declare name).methods false).makes methods
  | .cls name (some parent) methods =>
    c.defines name ++ (c.declare name).uses [.read parent, .read name] ++
      ((c.declare name).methods true).uses [.read name] ++ ((c.declare name).methods true).makes methods

def mentionsOfAll (c : Scope) : List Stmt → List Mention
  | [] => []
  | s :: ss => s.mentions c ++ mentionsOfAll (c.after s) ss

end

/-- The mentions in a function, from its scope on. -/
def Fun.mentions (c : Scope) (kind : BodyKind) (f : Fun Stmt) : List Mention :=
  mentionsOfAll (c.function kind f.parameters) f.body ++ (c.function kind f.parameters).answers

def Use.name : Use → String
  | .read name | .write name => name
  | .this => "this"
  | .super => "super"

end Syntax

/-! ## Instructions -/

/-- Whether an instruction refers to a variable or makes a function. -/
def Instr.refers : Instr → Bool
  | .getLocal _ | .setLocal _ | .getUpvalue _ | .setUpvalue _ | .getGlobal _ | .setGlobal _
  | .defineGlobal _ | .closure .. => true
  | _ => false

/-- The instructions from one offset to another. -/
inductive Chunk.Spans (c : Chunk) : Nat → List Instr → Nat → Prop where
  | nil {i} : Spans c i [] i
  | cons {i ins k l j} : c.instr? i = some (ins, k) → Spans c k l j → Spans c i (ins :: l) j

/-- The captures of a function and of those around it, the nearest first, lead from number `k` outwards
through `level` functions to a slot of the next one. -/
inductive Chain : (captures : List (List Capture)) → (k level slot : Nat) → Prop where
  | here {cs around k slot} : cs[k]? = some ⟨slot, true⟩ → Chain (cs :: around) k 0 slot
  | outwards {cs around k k' level slot} : cs[k]? = some ⟨k', false⟩ → Chain around k' level slot →
      Chain (cs :: around) k (level + 1) slot

/-- What a name stands for at some place of a text, and how it is reached from the function there. -/
inductive Syntax.Scope.Reaches (c : Scope) (captures : List (List Capture)) (name : String) : Access → Prop
    where
  | local {slot} : c.place? name = some (0, slot) → Reaches c captures name (.local slot)
  | captured {k level slot} : c.place? name = some (level + 1, slot) → Chain captures k level slot →
      Reaches c captures name (.captured k)
  | global : c.place? name = none → Reaches c captures name (.global name)

def Access.instr (a : Access) : Use → Instr
  | .write _ => a.set
  | _ => a.get

mutual

/-- The instruction is what a mention is compiled to, inside functions with these captures. -/
inductive Syntax.Mention.Denotes (routines : Array Routine) : List (List Capture) → Mention → Instr → Prop
    where
  | use {captures c u a} : c.Reaches captures u.name a → Denotes routines captures (.use c u) (a.instr u)
  | define {captures name} : Denotes routines captures (.define name) (.defineGlobal name)
  | receiver {captures} : Denotes routines captures .receiver (.getLocal 0)
  /-- The instructions of a function that is made are the mentions in it. -/
  | function {captures c f kind g cs code l} : routines[g.index]? = some ⟨g, code, kind⟩ →
      code.Spans 0 l code.size →
      DenoteAll routines (cs :: captures) (f.mentions c kind) (l.filter Instr.refers) →
      Denotes routines captures (.function c f kind) (.closure g cs)

inductive Syntax.Mention.DenoteAll (routines : Array Routine) :
    List (List Capture) → List Mention → List Instr → Prop where
  | nil {captures} : DenoteAll routines captures [] []
  | cons {captures m ms ins l} : Denotes routines captures m ins → DenoteAll routines captures ms l →
      DenoteAll routines captures (m :: ms) (ins :: l)

end

theorem Chunk.Spans.append {c : Chunk} {l l' : List Instr} {i j k : Nat} (h : c.Spans i l k)
    (h' : c.Spans k l' j) : c.Spans i (l ++ l') j := by
  induction h with
  | nil => exact h'
  | cons hi _ ih => exact .cons hi (ih h')

theorem Access.refers_instr (a : Access) (u : Use) : (a.instr u).refers = true := by
  cases a <;> cases u <;> rfl

namespace Syntax.Mention

variable {routines : Array Routine} {captures : List (List Capture)} {m : Mention} {ms ms' : List Mention}
  {ins : Instr} {l l' : List Instr}

theorem Denotes.refers (h : m.Denotes routines captures ins) : ins.refers = true := by
  cases h with
  | use => exact Access.refers_instr _ _
  | _ => rfl

theorem DenoteAll.append (h : DenoteAll routines captures ms l) (h' : DenoteAll routines captures ms' l') :
    DenoteAll routines captures (ms ++ ms') (l ++ l') := by
  induction ms generalizing l with
  | nil =>
      cases h
      exact h'
  | cons m ms ih =>
      obtain _ | ⟨hm, hms⟩ := h
      exact .cons hm (ih hms)

end Syntax.Mention

/-! ## Code between two offsets -/

namespace Layout

/-- The captures of the function and of those around it. -/
def chains (F : Layout) : List (List Capture) :=
  F.captures :: F.around.map (·.captures)

/-- What the code from `i` to `j` refers to. -/
def Mentions (routines : Array Routine) (F : Layout) (ms : List Mention) (i j : Nat) : Prop :=
  ∃ l, F.code.Spans i l j ∧ Mention.DenoteAll routines F.chains ms (l.filter Instr.refers)

variable {routines : Array Routine} {F : Layout} {L L' : List Local} {c : Scope} {ms ms' : List Mention}
  {m : Mention} {ins : Instr} {i j k d : Nat} {name : String} {a : Access}

namespace Mentions

theorem refl (i : Nat) : F.Mentions routines [] i i :=
  ⟨[], .nil, .nil⟩

theorem append (h : F.Mentions routines ms i k) (h' : F.Mentions routines ms' k j) :
    F.Mentions routines (ms ++ ms') i j := by
  obtain ⟨l, hspans, hdenote⟩ := h
  obtain ⟨l', hspans', hdenote'⟩ := h'
  refine ⟨l ++ l', hspans.append hspans', ?_⟩
  rw [List.filter_append]
  exact hdenote.append hdenote'

theorem silent (h : F.At i ins j) (hins : ins.refers = false) : F.Mentions routines [] i j := by
  refine ⟨[ins], .cons h .nil, ?_⟩
  rw [List.filter_singleton, hins]
  exact .nil

theorem one (h : F.At i ins j) (hm : m.Denotes routines F.chains ins) : F.Mentions routines [m] i j := by
  refine ⟨[ins], .cons h .nil, ?_⟩
  rw [List.filter_singleton, hm.refers]
  exact .cons hm .nil

/-- An instruction that refers to nothing goes before or behind. -/
theorem behind (h : F.At i ins k) (hins : ins.refers = false) (h' : F.Mentions routines ms k j) :
    F.Mentions routines ms i j :=
  (silent h hins).append h'

theorem before (h : F.Mentions routines ms i k) (h' : F.At k ins j) (hins : ins.refers = false) :
    F.Mentions routines ms i j :=
  List.append_nil ms ▸ h.append (silent h' hins)

theorem use {u : Use} (ha : c.Reaches F.chains u.name a) (h : F.At i (a.instr u) j) :
    F.Mentions routines (c.uses [u]) i j :=
  one h (.use ha)

end Mentions

/-! ## Names -/

/-- What is seen from the function is what its text says, as far as names are looked up. -/
structure Sees (F : Layout) (L : List Local) (c : Scope) : Prop where
  slots : ∀ name, Body.slot? name L = slotOf? name c.inner.locals
  around : List.Forall₂ (fun E f => ∀ name, Body.slot? name E.locals = slotOf? name f.locals) F.around
    c.outer

/-- The captures on the way to a variable lead to its slot. -/
theorem chain_of_leads {Es : List Body.Enclosing} {fs : List FunctionScope} {x : Capture}
    {cs : List Capture} (h : Body.Leads name Es x)
    (hfs : List.Forall₂ (fun E f => ∀ name, Body.slot? name E.locals = slotOf? name f.locals) Es fs)
    (hx : cs[k]? = some x) :
    ∃ level slot, placeIn? name (fs.map FunctionScope.locals) = some (level, slot) ∧
      Chain (cs :: Es.map (·.captures)) k level slot := by
  induction h generalizing fs cs k with
  | @here E Es slot hslot =>
      obtain _ | ⟨hE, _⟩ := hfs
      refine ⟨0, slot, ?_, .here hx⟩
      rw [List.map_cons, placeIn?, ← hE, hslot]
  | @outwards E Es n x hslot hn _ ih =>
      obtain _ | ⟨hE, hEs⟩ := hfs
      obtain ⟨level, slot, hplace, hchain⟩ := ih hEs hn
      refine ⟨level + 1, slot, ?_, .outwards hx hchain⟩
      rw [List.map_cons, placeIn?, ← hE, hslot, hplace]
      rfl

theorem placeIn?_of_around {Es : List Body.Enclosing} {fs : List FunctionScope}
    (hfs : List.Forall₂ (fun E f => ∀ name, Body.slot? name E.locals = slotOf? name f.locals) Es fs)
    (h : ∀ E ∈ Es, Body.slot? name E.locals = none) : placeIn? name (fs.map FunctionScope.locals) = none := by
  induction hfs with
  | nil => rfl
  | cons hE _ ih =>
      rw [List.map_cons, placeIn?, ← hE, h _ List.mem_cons_self, ih fun E hE => h E (List.mem_cons_of_mem _ hE)]
      rfl

/-- What the compiler finds for a name is what its text says. -/
theorem Finds.reaches (h : F.Finds L name a) (hc : F.Sees L c) : c.Reaches F.chains name a := by
  cases h with
  | «local» hslot =>
      rw [hc.slots] at hslot
      exact .local (by simp [Scope.place?, placeIn?, hslot])
  | captured hslot _ hx hleads =>
      rw [hc.slots] at hslot
      obtain ⟨level, slot, houter, hchain⟩ := chain_of_leads hleads hc.around hx
      exact .captured (by simp [Scope.place?, placeIn?, hslot, houter]) hchain
  | global hslot haround =>
      rw [hc.slots] at hslot
      have houter := placeIn?_of_around hc.around haround
      exact .global (by simp [Scope.place?, placeIn?, hslot, houter])

/-! ## Expressions -/

theorem Mentions.operates {ops : List Opcode} (h : F.Operates ops i j) : F.Mentions routines [] i j := by
  induction ops generalizing i with
  | nil =>
      obtain rfl := h
      exact .refl i
  | cons op ops ih =>
      obtain ⟨k, hop, hops⟩ := h
      exact .behind hop rfl (ih hops)

/-- What the code of some expressions refers to. -/
abbrev Uses (routines : Array Routine) (F : Layout) (c : Scope) (us : List Use) (i j : Nat) : Prop :=
  F.Mentions routines (c.uses us) i j

namespace Uses

variable {us us' : List Use}

theorem append (h : F.Uses routines c us i k) (h' : F.Uses routines c us' k j) :
    F.Uses routines c (us ++ us') i j := by
  rw [Uses, Scope.uses, List.map_append]
  exact Mentions.append h h'

theorem get {u : Use} (ha : F.Finds L u.name a) (hc : F.Sees L c) (hu : a.instr u = a.get)
    (h : F.At i a.get j) : F.Uses routines c [u] i j :=
  .use (ha.reaches hc) (hu ▸ h)

theorem set (ha : F.Finds L name a) (hc : F.Sees L c) (h : F.At i a.set j) :
    F.Uses routines c [.write name] i j :=
  .use (u := .write name) (ha.reaches hc) h

end Uses

/-- The code of some expressions refers to what they do. -/
theorem Loads.mentions {es : List Expr} (h : F.Loads L es i j) (hc : F.Sees L c) :
    F.Uses routines c (usesOfAll es) i j := by
  induction h with
  | nothing => exact .refl _
  | several _ _ ih ih' => simpa [usesOfAll] using ih.append ih'
  | number hi | string hi | nil hi | boolean hi => exact .silent hi rfl
  | grouping _ ih => exact ih
  | «variable» _ ha hi => exact .get (u := .read _) ha hc rfl hi
  | assign _ ha _ hi ih => simpa [usesOfAll, Expr.uses] using ih.append (.set ha hc hi)
  | this ha hi => exact .get (u := .this) ha hc rfl hi
  | «super» ha hi hb _ hi' hi'' =>
      have hthis : F.Uses routines c [.this] _ _ := .get ha hc rfl hi
      exact (hthis.append (.get (u := .super) hb hc rfl hi')).before hi'' rfl
  | unary _ hi ih => exact Mentions.before ih hi rfl
  | binary _ _ hops ih ih' =>
      have h : F.Uses routines c (_ ++ []) _ _ := (ih.append ih').append (Mentions.operates hops)
      simpa [usesOfAll, Expr.uses] using h
  | and _ hi hi' _ ih ih' => simpa [usesOfAll, Expr.uses] using ih.append (.behind hi rfl (.behind hi' rfl ih'))
  | or _ hi hi' hi'' _ ih ih' =>
      simpa [usesOfAll, Expr.uses] using ih.append (.behind hi rfl (.behind hi' rfl (.behind hi'' rfl ih')))
  | get _ hi ih => exact Mentions.before ih hi rfl
  | set _ _ hi ih ih' => simpa [usesOfAll, Expr.uses] using (ih.append ih').before hi rfl
  | @call f as _ _ _ _ hproperty _ _ hi ih ih' =>
      have huses : (Expr.call f as).uses = f.uses ++ usesOfAll as := by
        cases f <;> first | rfl | cases hproperty
      simpa [usesOfAll, huses] using (ih.append ih').before hi rfl
  | invoke _ _ hi ih ih' => simpa [usesOfAll, Expr.uses] using (ih.append ih').before hi rfl
  | superInvoke ha hi _ hb _ hi' hi'' ih =>
      have hthis : F.Uses routines c [.this] _ _ := .get ha hc rfl hi
      have hsuper : F.Uses routines c [.super] _ _ := .get hb hc rfl hi'
      simpa [usesOfAll, Expr.uses] using (hthis.append (ih.append hsuper)).before hi'' rfl

/-- The code of one expression. -/
theorem Loads.mentionsOne {e : Expr} (h : F.Loads L [e] i j) (hc : F.Sees L c) :
    F.Uses routines c e.uses i j := by
  have h' : F.Uses routines c (usesOfAll [e]) i j := h.mentions hc
  simpa [usesOfAll] using h'

/-! ## Statements -/

/-- Between statements the locals are those of the text. -/
structure Stands (F : Layout) (d : Nat) (L : List Local) (c : Scope) : Prop where
  names : L.map (·.name) = c.inner.locals
  initialized : ∀ l ∈ L, l.depth.isSome = true
  depth : d = c.inner.scopes.length
  kind : F.kind = c.inner.kind
  around : List.Forall₂ (fun E f => ∀ name, Body.slot? name E.locals = slotOf? name f.locals) F.around
    c.outer
  top : d = 0 → c.inner.kind = .script ∧ c.outer = []

namespace Stands

theorem sees (h : F.Stands d L c) : F.Sees L c :=
  ⟨fun name => by rw [Body.slot?_eq_slotOf? h.initialized, h.names], h.around⟩

/-- A variable without a value is not seen. -/
theorem initializing (h : F.Stands d L c) (x : String) (captured : Bool) :
    F.Sees (⟨x, none, captured⟩ :: L) (c.initializing x) :=
  ⟨fun name => by
    rw [Body.slot?, if_neg (by simp [Body.Local.answersTo])]
    exact h.sees.slots name, h.around⟩

theorem enter (h : F.Stands d L c) : F.Stands (d + 1) L c.enter :=
  ⟨h.names, h.initialized, congrArg (· + 1) h.depth, h.kind, h.around, nofun⟩

theorem global (h : F.Stands 0 L c) (name : String) : F.Stands 0 L (c.declare name) := by
  have hnil : c.inner.scopes = [] := List.length_eq_zero_iff.mp h.depth.symm
  have hsame : c.declare name = c := by
    rw [Scope.declare, FunctionScope.declare, hnil]
  rwa [hsame]

theorem «local» (h : F.Stands d L c) (hd : d ≠ 0) (name : String) (captured : Bool) :
    F.Stands d (⟨name, some d, captured⟩ :: L) (c.declare name) := by
  obtain ⟨scope, scopes, hscopes⟩ : ∃ scope scopes, c.inner.scopes = scope :: scopes :=
    List.exists_cons_of_ne_nil fun hnil => hd (h.depth.trans (congrArg List.length hnil))
  have hdeclare : c.inner.declare name = ⟨c.inner.kind, (name :: scope) :: scopes⟩ := by
    rw [FunctionScope.declare, hscopes]
  have hlocals : (c.inner.declare name).locals = name :: c.inner.locals := by
    rw [hdeclare, FunctionScope.locals, FunctionScope.locals, hscopes]
    rfl
  refine ⟨?_, ?_, ?_, ?_, h.around, fun h0 => absurd h0 hd⟩
  · exact (congrArg (name :: ·) h.names).trans hlocals.symm
  · exact List.forall_mem_cons.mpr ⟨rfl, h.initialized⟩
  · change d = (c.inner.declare name).scopes.length
    rw [hdeclare, h.depth, hscopes]
    rfl
  · change F.kind = (c.inner.declare name).kind
    rw [hdeclare, h.kind]

theorem declares (h : F.Stands d L c) (hdecl : F.Declares d L name i j L') :
    F.Stands d L' (c.declare name) ∧ F.Mentions routines (c.defines name) i j := by
  cases hdecl with
  | global hd hi =>
      subst hd
      have hnil : c.inner.scopes = [] := List.length_eq_zero_iff.mp h.depth.symm
      rw [Scope.defines, hnil]
      exact ⟨h.global name, .one hi .define⟩
  | «local» hd =>
      refine ⟨h.local hd name _, ?_⟩
      rw [Scope.defines]
      split
      · rename_i hnil
        exact absurd (h.depth.trans (congrArg List.length hnil)) hd
      · exact .refl _

/-- The class that has just been declared. -/
theorem own (h : F.Stands d L c) (hid : IsIdentifier name) (hi : F.At i (ownAccess d L name).get j) :
    F.Uses routines (c.declare name) [.read name] i j ∧
      F.Uses routines ((c.declare name).methods true) [.read name] i j := by
  rw [ownAccess] at hi
  split at hi
  · rename_i hd
    obtain ⟨hkind, houter⟩ := h.top hd
    have hnil : c.inner.scopes = [] := List.length_eq_zero_iff.mp (h.depth.symm.trans hd)
    have hplace : (c.declare name).place? name = none ∧
        ((c.declare name).methods true).place? name = none := by
      simp [Scope.place?, Scope.declare, Scope.methods, FunctionScope.declare, FunctionScope.enter,
        FunctionScope.locals, hnil, houter, hkind, placeIn?, slotOf?, Body.receiverName, hid.1.symm,
        hid.2.1.symm]
    exact ⟨.use (u := .read name) (.global hplace.1) hi, .use (u := .read name) (.global hplace.2) hi⟩
  · rename_i hd
    obtain ⟨scope, scopes, hscopes⟩ : ∃ scope scopes, c.inner.scopes = scope :: scopes :=
      List.exists_cons_of_ne_nil fun hnil => hd (h.depth.trans (congrArg List.length hnil))
    have hlength : L.length = c.inner.locals.length := by rw [← h.names, List.length_map]
    have hplace : (c.declare name).place? name = some (0, L.length) ∧
        ((c.declare name).methods true).place? name = some (0, L.length) := by
      simp [Scope.place?, Scope.declare, Scope.methods, FunctionScope.declare, FunctionScope.enter,
        FunctionScope.locals, hscopes, placeIn?, slotOf?, hid.2.1.symm, hlength]
    exact ⟨.use (u := .read name) (.local hplace.1) hi, .use (u := .read name) (.local hplace.2) hi⟩

theorem methods (h : F.Stands d L c) : F.Stands d L (c.methods false) :=
  ⟨h.names, h.initialized, h.depth, h.kind, h.around, h.top⟩

theorem subclass (h : F.Stands d L c) (captured : Bool) :
    F.Stands (d + 1) (⟨"super", some (d + 1), captured⟩ :: L) (c.methods true) :=
  have := h.enter.local (Nat.succ_ne_zero d) "super" captured
  ⟨this.names, this.initialized, this.depth, this.kind, this.around, this.top⟩

end Stands

/-- The locals of a function at its start are its parameters. -/
theorem Parameters.stands {kind : BodyKind} {names : List String} {G : Layout} (h : Parameters kind names L)
    (hkind : G.kind = kind) (haround : List.Forall₂
      (fun E f => ∀ name, Body.slot? name E.locals = slotOf? name f.locals) G.around (c.inner :: c.outer)) :
    G.Stands 1 L (c.function kind names) := by
  have hlocals : L.map (·.name) = names.reverse ++ [Body.receiverName kind] ∧
      ∀ l ∈ L, l.depth.isSome = true := by
    clear hkind haround
    induction h with
    | nil => exact ⟨rfl, List.forall_mem_singleton.mpr rfl⟩
    | snoc _ _ ih => exact ⟨by simp [ih.1], List.forall_mem_cons.mpr ⟨rfl, ih.2⟩⟩
  refine ⟨?_, hlocals.2, rfl, hkind, haround, nofun⟩
  rw [hlocals.1]
  simp [Scope.function, FunctionScope.locals]

theorem Mentions.answers {kind : BodyKind} {k : Nat} (hkind : kind = c.inner.kind)
    (hi : F.At i (implicitResult kind) k) (hret : F.At k .ret j) : F.Mentions routines c.answers i j := by
  rw [Scope.answers, ← hkind]
  cases kind with
  | initializer => exact (Mentions.one hi .receiver).before hret rfl
  | script | function | method => exact .behind hi rfl (.silent hret rfl)

theorem Mentions.drops {ls : List Local} (h : F.Drops ls i j) : F.Mentions routines [] i j := by
  induction ls generalizing i with
  | nil =>
      obtain rfl := h
      exact .refl i
  | cons l ls ih =>
      obtain ⟨k, hi, hls⟩ := h
      exact .behind hi (by split <;> rfl) (ih hls)

theorem LoopTest.mentions {exit : Nat} {test : Option Expr} (h : F.LoopTest L exit test i j)
    (hc : F.Sees L c) : F.Mentions routines (c.usesOf test) i j := by
  cases h with
  | none => exact .refl i
  | some hload hi hi' => exact ((hload.mentionsOne hc).before hi rfl).before hi' rfl

theorem LoopStep.mentions {start next : Nat} {step : Option Expr} (h : F.LoopStep L start step i j next)
    (hc : F.Sees L c) : F.Mentions routines (c.usesOf step) i j := by
  cases h with
  | none => exact .refl i
  | some hi hload hi' hi'' => exact .behind hi rfl (((hload.mentionsOne hc).before hi' rfl).before hi'' rfl)

theorem LoopEnd.mentions {test : Option Expr} (h : F.LoopEnd test i j) : F.Mentions routines [] i j := by
  cases test with
  | none =>
      obtain rfl := h
      exact .refl i
  | some _ => exact .silent h rfl

/-- What the code of a part of a function refers to. -/
def Names (routines : Array Routine) (F : Layout) (d : Nat) (c : Scope) (L' : List Local) (i j : Nat) :
    Part → Prop
  | .code ss => F.Mentions routines (mentionsOfAll c ss) i j ∧ F.Stands d L' (ss.foldl Scope.after c)
  | .closure f kind => F.Mentions routines [.function c f kind] i j
  | .methods fs => F.Mentions routines (c.makes fs) i j

theorem Names.statement {st : Stmt} (h : F.Mentions routines (st.mentions c) i j)
    (hc : F.Stands d L' (c.after st)) : F.Names routines d c L' i j (.code [st]) :=
  ⟨by simpa [mentionsOfAll] using h, hc⟩

theorem Names.one {st : Stmt} (h : F.Names routines d c L' i j (.code [st])) :
    F.Mentions routines (st.mentions c) i j ∧ F.Stands d L' (c.after st) :=
  ⟨by simpa [mentionsOfAll] using h.1, h.2⟩

/-- The code of a part of a function refers to what its text mentions. -/
theorem Runs.names {part : Part} (h : Runs routines F d L part i j L') (hc : F.Stands d L c) :
    F.Names routines d c L' i j part := by
  induction h generalizing c with
  | nothing => exact ⟨.refl _, hc⟩
  | several _ _ ih ih' =>
      obtain ⟨hfirst, hc₁⟩ := (ih hc).one
      obtain ⟨hrest, hc₂⟩ := ih' hc₁
      exact ⟨hfirst.append hrest, hc₂⟩
  | expression hload hi | print hload hi | assert hload hi =>
      exact .statement ((hload.mentionsOne hc.sees).before hi rfl) hc
  | var _ hi hdecl =>
      obtain ⟨hc₁, hdefines⟩ := hc.declares hdecl
      exact .statement (.behind hi rfl hdefines) hc₁
  | @varGlobal _ _ _ name _ _ _ _ _ hd hload hi =>
      obtain ⟨hc₁, hdefines⟩ := hc.declares (.global hd hi)
      have hsees : Sees _ _ (c.initializing name) := ⟨hc.sees.slots, hc.around⟩
      exact .statement (.append (hload.mentionsOne hsees) hdefines) hc₁
  | varLocal _ hd hload =>
      obtain ⟨hc₁, hdefines⟩ := hc.declares (.local hd)
      exact .statement (.append (hload.mentionsOne (hc.initializing _ _)) hdefines) hc₁
  | block _ hdrops ih =>
      obtain ⟨hbody, -⟩ := ih hc.enter
      exact .statement (by simpa [Stmt.mentions] using hbody.append (.drops hdrops)) hc
  | cond hload hi hi' _ hi'' hi₃ ih =>
      have hyes := (ih hc).one.1
      have htest : Uses routines _ _ _ _ _ := (hload.mentionsOne hc.sees).before hi rfl
      refine .statement ?_ hc
      exact ((htest.before hi' rfl).append hyes |>.before hi'' rfl).before hi₃ rfl
  | condElse hload hi hi' _ hi'' hi₃ _ ih ih' =>
      have hyes := (ih hc).one.1
      have hno := (ih' hc).one.1
      have htest : Uses routines _ _ _ _ _ := (hload.mentionsOne hc.sees).before hi rfl
      refine .statement ?_ hc
      exact (((htest.before hi' rfl).append hyes |>.before hi'' rfl).before hi₃ rfl).append hno
  | «while» hload hi hi' _ hi'' hi₃ ih =>
      have hbody := (ih hc).one.1
      have htest : Uses routines _ _ _ _ _ := (hload.mentionsOne hc.sees).before hi rfl
      refine .statement ?_ hc
      exact ((htest.before hi' rfl).append hbody |>.before hi'' rfl).before hi₃ rfl
  | @«for» _ _ _ first _ _ _ _ _ _ _ _ _ _ _ _ _ _ htest hstep _ hi hend hdrops ih ih' =>
      obtain ⟨hfirst, hc₁⟩ := ih hc.enter
      have hloop : Mentions routines _ _ _ _ := (htest.mentions hc₁.sees).append (hstep.mentions hc₁.sees)
      have hbody := ((ih' hc₁).one.1.before hi rfl).append (.append hend.mentions (.drops hdrops))
      refine .statement ?_ hc
      cases first with
      | none => simpa [Stmt.mentions, mentionsOfAll] using hfirst.append (hloop.append hbody)
      | some first => simpa [Stmt.mentions, mentionsOfAll] using hfirst.append (hloop.append hbody)
  | «return» _ hi hret => exact .statement (.answers hc.kind hi hret) hc
  | returnValue _ hload hi => exact .statement ((hload.mentionsOne hc.sees).before hi rfl) hc
  | functionGlobal _ hd _ hi ih =>
      obtain ⟨hc₁, hdefines⟩ := hc.declares (.global hd hi)
      exact .statement (.append (ih hc₁) hdefines) hc₁
  | functionLocal _ hd _ ih =>
      obtain ⟨hc₁, hdefines⟩ := hc.declares (.local hd)
      exact .statement (.append (ih hc₁) hdefines) hc₁
  | cls hid hi hdecl hown _ hi' ih =>
      obtain ⟨hc₁, hdefines⟩ := hc.declares hdecl
      have hmethods := (ih hc₁.methods).before hi' rfl
      refine .statement ?_ hc₁
      exact .behind hi rfl ((hdefines.append (hc.own hid hown).1).append hmethods)
  | @subclass _ _ _ name parent _ _ _ _ _ _ _ _ _ _ _ _ _ _ hid hi hdecl _ hfinds hget hown hi' hown' _ hi'' hdrops ih =>
      obtain ⟨hc₁, hdefines⟩ := hc.declares hdecl
      have hparent : Uses routines _ _ [.read parent] _ _ := .get hfinds hc₁.sees rfl hget
      have hreads := (hparent.append (hc.own hid hown).1).before hi' rfl
      have hmethods := ((ih (hc₁.subclass _)).before hi'' rfl).append (.drops hdrops)
      refine .statement ?_ hc₁
      have h := ((hdefines.append hreads).append (hc.own hid hown').2).append hmethods
      exact .behind hi rfl (by simpa [Stmt.mentions] using h)
  | noMethods => exact .refl _
  | methods _ hi _ ih ih' => exact ((ih hc).before hi rfl).append (ih' hc)
  | @closure F G d L f kind g L₀ L₁ i j k k' hkind haround hi _ _ _ hg hparams _ hi' hret ih =>
      have hc₁ : G.Stands 1 L₀ (c.function kind f.parameters) := by
        refine hparams.stands hkind ?_
        rw [haround]
        exact .cons hc.sees.slots hc.around
      have hchains : G.chains = G.captures :: F.chains := by rw [chains, haround]; rfl
      obtain ⟨l, hspans, hdenote⟩ := (ih hc₁).1.append (.answers (c := c.function kind f.parameters) rfl hi' hret)
      rw [hchains] at hdenote
      exact Mentions.one hi (.function hg hspans hdenote)

end Layout

namespace Program

/-- Every name is compiled to what the scopes of the text say. The instructions of the script that refer to
variables or make functions are, in their order, what its text mentions, and so are those of the functions
in it; a local variable is accessed in its slot, a captured one along the operands of the closures on the way
to it, and what is declared nowhere around is global. -/
theorem names_resolve {firstIndex : Nat} {source : String} {p : Program}
    (h : compile firstIndex source = .ok p) :
    ∃ tree, Script (Scanner.ofString source).tokens tree ∧
      ∀ routines, p.KeptIn firstIndex routines → ∃ l, p.main.code.Spans 0 l p.main.code.size ∧
        Mention.DenoteAll routines [[]] (mentionsOfAll .script tree) (l.filter Instr.refers) := by
  obtain ⟨tree, hscript, -, -, hlaid⟩ := script_of_compile h
  refine ⟨tree, hscript, fun routines hroutines => ?_⟩
  obtain ⟨captured, k, l, hruns, hi, hret⟩ := hlaid.code routines hroutines
  have hstands : (Layout.script p.main.code).Stands 0 [⟨"", some 0, captured⟩] .script :=
    ⟨rfl, List.forall_mem_singleton.mpr rfl, rfl, rfl, .nil, fun _ => ⟨rfl, rfl⟩⟩
  exact ((hruns.names hstands).1.before hi rfl).before hret rfl

/-- A variable that is captured through a function between, and another one of that name. -/
theorem names_resolve_shadowed :
    let source := "{ var a; fun f() { fun g() { a = a; { var a = 1; print a; } } } }"
    ∃ p, compile 0 source = .ok p ∧ ∃ tree, Script (Scanner.ofString source).tokens tree ∧
      ∀ routines, p.KeptIn 0 routines → ∃ l, p.main.code.Spans 0 l p.main.code.size ∧
        Mention.DenoteAll routines [[]] (mentionsOfAll .script tree) (l.filter Instr.refers) := by
  intro source
  have hcompile : (compile 0 source).map (fun _ => ()) = .ok () := by decide +kernel
  obtain ⟨p, hp, -⟩ := exists_of_map_compile hcompile
  exact ⟨p, hp, names_resolve hp⟩

end Program

end LoxMachine
