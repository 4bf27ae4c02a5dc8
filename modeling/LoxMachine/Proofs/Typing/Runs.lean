import LoxMachine.Proofs.Compile.Script
import LoxMachine.Proofs.Typing.Loads

/-!
# Shapes along statements

The locals of a function are in its slots (`slotsOf`), those that closures capture shared. The code
of statements leads from the slots of the locals before it to those of the locals behind it.

Main statement: `shaped_of_runs`, and from it `enters_script`, a laid out script is safe.
-/

namespace LoxMachine

open Syntax

def slotsOf (T : Ties) (L : List Local) : List Slot :=
  L.map fun l => ⟨T.kindOf l.name, l.captured⟩

variable {routines : Array Routine} {F : Layout} {E : Env} {T : Ties} {c : Scope}
  {L L' : List Local} {s : List Slot} {i j k d : Nat}

theorem length_slotsOf (T : Ties) (L : List Local) : (slotsOf T L).length = L.length :=
  List.length_map _

theorem slotsOf_append (T : Ties) (L L' : List Local) :
    slotsOf T (L ++ L') = slotsOf T L ++ slotsOf T L' :=
  List.map_append

theorem covers_slotsOf (T : Ties) (L : List Local) : Covers T L (slotsOf T L) := by
  intro name n hn
  obtain ⟨l, hl, rfl, -⟩ := Body.slot?_localAt? hn
  exact ⟨l.captured, by rw [slotsOf, atSlot?_map, ← localAt?_eq_atSlot?, hl]; rfl⟩

/-- A variable that is being initialized is not in its slot yet. -/
theorem covers_declared (T : Ties) (name : String) (captured : Bool) (L : List Local) :
    Covers T (⟨name, none, captured⟩ :: L) (slotsOf T L) := by
  intro name' n hn
  rw [Body.slot?, if_neg (by simp [Body.Local.answersTo])] at hn
  exact covers_slotsOf T L name' n hn

theorem slot?_of_append {name : String} {new : List Local}
    (h : Body.slot? name (new ++ L) = none) : Body.slot? name L = none := by
  induction new with
  | nil => exact h
  | cons l new ih =>
      rw [List.cons_append, Body.slot?] at h
      split at h
      · cases h
      · exact ih h

/-! ## What a function knows of its places -/

/-- Between statements: the receiver is in slot zero, and what the names stand for is known. -/
structure Standing (F : Layout) (E : Env) (L : List Local) (T : Ties) (c : Scope) : Prop where
  rooted : ∃ L₁ captured, L = L₁ ++ [⟨Body.receiverName F.kind, some 0, captured⟩]
  receiver : F.kind.IsMethod → ∃ o, T.this = some o
  plain : ∀ l ∈ L, l.name ≠ "super"
  knows : Knows F E L T
  within : Within F E L T c.classes
  kind : c.inner.kind = F.kind

/-- What a function needs to know of those around it. -/
structure Encloses (F : Layout) (E : Env) (L : List Local) (T : Ties) (classes : List Bool)
    (kind : BodyKind) (parent : Option Class) : Prop where
  knows : Knows F E L T
  this : ¬ kind.IsMethod → classes ≠ [] → (∃ o, T.this = some o) ∧ Visible F L "this"
  super : classes.head? = some true → ∃ C, T.super = some C ∧ parent = some C

theorem Knows.append (h : Knows F E L T) (new : List Local) : Knows F E (new ++ L) T where
  length_eq := h.length_eq
  kind name n c hnone := h.kind name n c (slot?_of_append hnone)

theorem Visible.append {name : String} (h : Visible F L name) (new : List Local) :
    Visible F (new ++ L) name :=
  h.imp_left fun h hnone => h (slot?_of_append hnone)

theorem Standing.grounded (h : Standing F E L T c) : Grounded F.kind (slotsOf T L) := by
  obtain ⟨L₁, captured, rfl⟩ := h.rooted
  rw [slotsOf_append]
  refine Grounded.append ?_ _
  cases hkind : F.kind with
  | script | function => exact ⟨.nil, captured, trivial, rfl⟩
  | method | initializer =>
      obtain ⟨o, ho⟩ := h.receiver (hkind ▸ trivial)
      refine ⟨.object o, captured, ⟨o, rfl⟩, ?_⟩
      exact congrArg (fun x => some (Slot.mk x captured)) (Ties.kindOf_this ho)

theorem Standing.append {c' : Scope} (h : Standing F E L T c) (new : List Local)
    (hnew : ∀ l ∈ new, l.name ≠ "super") (hclasses : c'.classes = c.classes)
    (hkind : c'.inner.kind = c.inner.kind) : Standing F E (new ++ L) T c' where
  rooted :=
    have ⟨L₁, captured, heq⟩ := h.rooted
    ⟨new ++ L₁, captured, by rw [heq, List.append_assoc]⟩
  receiver := h.receiver
  plain l hl := (List.mem_append.mp hl).elim (hnew l) (h.plain l)
  knows := h.knows.append new
  within := {
    this := fun hne =>
      have ⟨ho, hv⟩ := h.within.this (hclasses ▸ hne)
      ⟨ho, hv.append new⟩
    super := fun hhead => h.within.super (hclasses ▸ hhead) }
  kind := hkind.trans h.kind

/-- Places with the same classes around them. -/
theorem Standing.at {c' : Scope} (h : Standing F E L T c) (hclasses : c'.classes = c.classes)
    (hkind : c'.inner.kind = c.inner.kind) : Standing F E L T c' :=
  h.append [] nofun hclasses hkind

theorem Standing.encloses (h : Standing F E L T c) : Encloses F E L T c.classes .function E.parent where
  knows := h.knows
  this _ := h.within.this
  super := h.within.super

/-! ## The text around -/

theorem kind_declare (f : FunctionScope) (name : String) : (f.declare name).kind = f.kind := by
  rw [FunctionScope.declare]
  split <;> rfl

theorem kind_after (c : Scope) (s : Stmt) : (c.after s).inner.kind = c.inner.kind := by
  rw [Scope.after.eq_def]
  split
  · exact kind_declare c.inner _
  · exact kind_declare c.inner _
  · exact kind_declare c.inner _
  · rfl

theorem classes_after (c : Scope) (s : Stmt) : (c.after s).classes = c.classes := by
  rw [Scope.after.eq_def]
  split <;> rfl

theorem Declares.extends {name : String} (hid : IsIdentifier name) (h : F.Declares d L name i j L') :
    ∃ new, L' = new ++ L ∧ ∀ l ∈ new, l.name ≠ "super" := by
  cases h with
  | global => exact ⟨[], rfl, nofun⟩
  | «local» =>
      refine ⟨[_], rfl, fun l hl => ?_⟩
      obtain rfl := List.mem_singleton.mp hl
      exact hid.2.1

/-- Statements leave the variables they declare. -/
theorem Runs.extends {part : Part} (h : Layout.Runs routines F d L part i j L') :
    ∃ new, L' = new ++ L ∧ ∀ l ∈ new, l.name ≠ "super" := by
  induction h with
  | several _ _ ih ih' =>
      obtain ⟨new, rfl, hnew⟩ := ih
      obtain ⟨new', rfl, hnew'⟩ := ih'
      refine ⟨new' ++ new, (List.append_assoc _ _ _).symm, fun l hl => ?_⟩
      exact (List.mem_append.mp hl).elim (hnew' l) (hnew l)
  | var hid _ hd | cls hid _ hd | subclass hid _ hd => exact Declares.extends hid hd
  | @varLocal F _ _ _ _ _ _ _ hid hd => exact Declares.extends (F := F) (i := 0) hid (.local hd)
  | @functionLocal F _ _ _ _ _ _ hid hd => exact Declares.extends (F := F) (i := 0) hid (.local hd)
  | _ => exact ⟨[], rfl, nofun⟩

/-! ## Simple statements -/

theorem leads_load {e : Expr} (h : F.Loads L [e] i j) (hcov : Covers T L s) (hknows : Knows F E L T)
    (hw : Within F E L T c.classes) (hadmits : c.Admits (some e)) (hg : Grounded F.kind s) :
    Leads routines F E i ⟨s, none⟩ j ⟨.temp .any :: s, none⟩ :=
  leads_loads h hcov hknows hw (by simpa [usesOfAll, Scope.Admits] using hadmits) hg

theorem Standing.loads {e : Expr} (h : Standing F E L T c) (he : F.Loads L [e] i j)
    (hadmits : c.Admits (some e)) :
    Leads routines F E i ⟨slotsOf T L, none⟩ j ⟨.temp .any :: slotsOf T L, none⟩ :=
  leads_load he (covers_slotsOf T L) h.knows h.within hadmits h.grounded

theorem safe_ret (hi : F.At i .ret j) (hkind : F.kind ≠ .initializer) (hg : Grounded F.kind s)
    (n : Nat) : Safe routines n F E i ⟨.temp .any :: s, none⟩ := by
  cases n with
  | zero => trivial
  | succ n => exact ⟨_, _, j, Shape.Le.refl _, hi, hg, .ret hkind⟩

/-- A function that says nothing else returns nothing, an initializer its receiver. -/
theorem safe_return (hi : F.At i (Layout.implicitResult F.kind) j) (hret : F.At j .ret k)
    (hg : Grounded F.kind s) (n : Nat) : Safe routines n F E i ⟨s, none⟩ := by
  by_cases hkind : F.kind = .initializer
  · rw [hkind] at hi
    obtain ⟨v, b, -, hslot⟩ := id hg
    rw [hkind] at hslot
    have hsafe : Safe routines n F E j ⟨.temp (.is v) :: s, none⟩ := by
      cases n with
      | zero => trivial
      | succ n => exact ⟨_, _, k, Shape.Le.refl _, hret, hg, .retReceiver hslot⟩
    have hleads : Leads routines F E i ⟨s, none⟩ j ⟨.temp (.is v) :: s, none⟩ :=
      .step hi hg fun _ h => .getLocal hslot h
    exact hleads n hsafe
  · have hpush : Layout.implicitResult F.kind = .push .nil := by
      cases hF : F.kind with
      | initializer => exact absurd hF hkind
      | _ => rfl
    rw [hpush] at hi
    have hleads : Leads routines F E i ⟨s, none⟩ j ⟨.temp .any :: s, none⟩ :=
      .step hi hg fun _ h => .push trivial h
    exact hleads n (safe_ret hret hkind hg n)

/-- The value on top of the stack becomes a variable. -/
theorem leads_declares {name : String} (hid : IsIdentifier name) (h : F.Declares d L name i j L')
    (hg : Grounded F.kind (slotsOf T L)) :
    Leads routines F E i ⟨.temp .any :: slotsOf T L, none⟩ j ⟨slotsOf T L', none⟩ := by
  cases h with
  | global _ hi => exact .step hi hg fun _ h => .defineGlobal h
  | @«local» captured _ =>
      have hslot : Slot.Le (.temp .any) ⟨T.kindOf name, captured⟩ := by
        rw [Ties.kindOf_identifier hid]
        exact Slot.le_shared _ _
      exact .weaken (.refl _ _) ⟨.cons hslot (slots_refl _), rfl⟩

/-- The end of a scope. -/
theorem leads_drops {new : List Local} (h : F.Drops new i j) (hg : Grounded F.kind s) :
    Leads routines F E i ⟨slotsOf T new ++ s, none⟩ j ⟨s, none⟩ := by
  induction new generalizing i with
  | nil =>
      obtain rfl : i = j := h
      exact .refl _ _
  | cons l new ih =>
      obtain ⟨k, hi, hdrops⟩ := h
      refine .trans ?_ (ih hdrops)
      cases hcaptured : l.captured with
      | false =>
          rw [hcaptured] at hi
          rw [slotsOf, List.map_cons, hcaptured]
          exact .pop hi (hg.append _)
      | true =>
          rw [hcaptured] at hi
          exact .step hi (hg.append _) fun _ h => .closeUpvalue h

/-! ## Loops -/

/-- A loop whose exit is safe is safe: each round takes at least the jump back. -/
theorem leads_loop {start next exit test body m : Nat} {condition step : Option Expr}
    (h : Standing F E L T c) (hcondition : c.Admits condition) (hadmits : c.Admits step)
    (htest : F.LoopTest L exit condition start test)
    (hstep : F.LoopStep L start step test body next)
    (hbody : Leads routines F E body ⟨slotsOf T L, none⟩ m ⟨slotsOf T L, none⟩)
    (hloop : F.At m (.loop next) exit) (hend : F.LoopEnd condition exit j) :
    Leads routines F E start ⟨slotsOf T L, none⟩ j ⟨slotsOf T L, none⟩ := by
  have hg := h.grounded
  intro n hn
  induction n with
  | zero => trivial
  | succ n ih =>
      have hstart := ih hn.succ
      have hnext : Safe routines n F E next ⟨slotsOf T L, none⟩ := by
        cases hstep with
        | none => exact hstart
        | some _ he hpop hback =>
            have hback : Safe routines (n + 1) F E _ ⟨slotsOf T L, none⟩ :=
              ⟨_, _, _, Shape.Le.refl _, hback, hg, .loop hstart⟩
            exact (h.loads he hadmits _ (Leads.pop hpop hg _ hback)).succ
      have hagain : Safe routines (n + 1) F E m ⟨slotsOf T L, none⟩ :=
        ⟨_, _, _, Shape.Le.refl _, hloop, hg, .loop hnext⟩
      have htestEnd : Safe routines (n + 1) F E test ⟨slotsOf T L, none⟩ := by
        have := hbody _ hagain
        cases hstep with
        | none => exact this
        | some hjump => exact Leads.jump hjump hg _ this
      cases htest with
      | none => exact htestEnd
      | some hc hjump hpop =>
          have hexit := Leads.pop (x := .any) hend hg _ hn
          exact h.loads hc hcondition _ (.branch hjump hg hexit (Leads.pop hpop hg _ htestEnd))

/-! ## Functions -/

/-- What the code of a part of a function is shown to do with the slots. -/
def Part.Shaped (routines : Array Routine) (F : Layout) (L : List Local) (i j : Nat)
    (L' : List Local) : Part → Prop
  | .code ss => ∀ E T c, Standing F E L T c → legalAll c ss →
      Leads routines F E i ⟨slotsOf T L, none⟩ j ⟨slotsOf T L', none⟩
  | .closure f kind => ∀ E T c parent, Encloses F E L T c.classes kind parent → f.Legal c kind →
      ∃ g captures G Ks, F.At i (.closure g captures) j ∧ G.kind = kind ∧
        (∀ n, Enters routines (Safe routines n) g G ⟨Ks, parent⟩) ∧
        List.Forall₂ (Reaches E (slotsOf T L)) captures Ks
  | .methods fs => ∀ E T c D, Grounded F.kind (slotsOf T L) → D.fresh = false →
      (∀ kind : BodyKind, kind.IsMethod → Encloses F E L T c.classes kind D.parent) →
      legalMethods c fs →
      Leads routines F E i ⟨.temp (.is (.cls D.cls)) :: slotsOf T L, some D⟩ j
        ⟨.temp (.is (.cls D.cls)) :: slotsOf T L, some D⟩

theorem Reaches.append {capture : Capture} {x : Kind} (h : Reaches E s capture x)
    (top : List Slot) : Reaches E (top ++ s) capture x := by
  unfold Reaches at *
  split
  · rename_i hl
    rw [if_pos hl] at h
    exact atSlot?_append_of_some h
  · rename_i hl
    rwa [if_neg hl] at h

/-- A closure that has been made is a temporary or, if `new` is, the variable it is to be. -/
theorem leads_closure {g : Function} {captures : List Capture} {G : Layout} {Ks : List Kind}
    (new : Slot) (hi : F.At i (.closure g captures) j) (hnew : new.kind = .any)
    (hkind : G.kind = .function) (hg : ∀ n, Enters routines (Safe routines n) g G ⟨Ks, E.parent⟩)
    (hcs : List.Forall₂ (Reaches E (new :: s)) captures Ks) (hs : Grounded F.kind s) :
    Leads routines F E i ⟨s, none⟩ j ⟨new :: s, none⟩ := by
  rintro (_ | n) hn
  · trivial
  · refine ⟨_, _, j, Shape.Le.refl _, hi, hs, .closure hnew ?_ (hg n) hcs hn.succ⟩
    rw [hkind]
    exact id

/-- What a capture leads to. -/
theorem captures_reaches {capture : Capture} {name : String} (h : F.Captures L capture name)
    (hknows : Knows F E L T) : ∃ x, Reaches E (slotsOf T L) capture x := by
  unfold Layout.Captures at h
  unfold Reaches
  split
  · rename_i hl
    rw [if_pos hl] at h
    obtain ⟨l, hl, rfl, hcaptured⟩ := h
    exact ⟨T.kindOf l.name, by
      rw [slotsOf, atSlot?_map, ← localAt?_eq_atSlot?, hl, Option.map_some, hcaptured]⟩
  · rename_i hl
    rw [if_neg hl] at h
    have hlt := (List.getElem?_eq_some_iff.mp h).1
    rw [← hknows.length_eq] at hlt
    exact ⟨_, List.getElem?_eq_getElem hlt⟩

/-- A capture of a name leads to a variable of its kind. -/
theorem kind_of_reaches {capture : Capture} {name : String} {x : Kind}
    (hreaches : Reaches E (slotsOf T L) capture x) (hknows : Knows F E L T)
    (hcaptures : F.Captures L capture name)
    (hleads : Body.Leads name (⟨L, F.captures⟩ :: F.around) capture) : x = T.kindOf name := by
  cases hleads with
  | here hslot =>
      obtain ⟨b, hb⟩ := covers_slotsOf T L name _ hslot
      rw [Reaches, if_pos rfl, hb] at hreaches
      exact congrArg Slot.kind (Option.some.inj hreaches).symm
  | outwards hnone hc hleads =>
      rw [Layout.Captures, if_neg (by simp)] at hcaptures
      rw [Reaches, if_neg (by simp), hknows.kind _ _ _ hnone hcaptures hc hleads] at hreaches
      exact (Option.some.inj hreaches).symm

theorem captures_kinds {cs : List Capture} {names : List String} (hknows : Knows F E L T)
    (h : List.Forall₂ (F.Captures L) cs names) :
    ∃ Ks, List.Forall₂ (Reaches E (slotsOf T L)) cs Ks := by
  induction h with
  | nil => exact ⟨[], .nil⟩
  | cons hc _ ih =>
      obtain ⟨x, hx⟩ := captures_reaches hc hknows
      obtain ⟨Ks, hKs⟩ := ih
      exact ⟨x :: Ks, .cons hx hKs⟩

/-- In a method `this` stands for the receiver. -/
def Ties.entered (T : Ties) (kind : BodyKind) (v : Value) : Ties :=
  match kind, v with
  | .method, .object o | .initializer, .object o => { T with this := some o }
  | _, _ => T

namespace Ties

variable {kind : BodyKind} {v : Value}

theorem super_entered (T : Ties) (kind : BodyKind) (v : Value) :
    (T.entered kind v).super = T.super := by
  rw [entered.eq_def]
  split <;> rfl

theorem this_entered (hv : kind.Receives v) (hkind : kind.IsMethod) :
    ∃ o, v = .object o ∧ (T.entered kind v).this = some o := by
  cases kind with
  | script | function => exact hkind.elim
  | method | initializer =>
      obtain ⟨o, rfl⟩ := hv
      exact ⟨o, rfl, rfl⟩

theorem entered_of_not (hkind : ¬ kind.IsMethod) : T.entered kind v = T := by
  cases kind with
  | script | function => rfl
  | method | initializer => exact absurd trivial hkind

theorem kindOf_receiver (hv : kind.Receives v) :
    (T.entered kind v).kindOf (Body.receiverName kind) = kind.slotKind v := by
  cases kind with
  | script | function => rfl
  | method | initializer =>
      obtain ⟨o, rfl⟩ := hv
      exact kindOf_this rfl

theorem kindOf_entered {name : String} (h : name ≠ Body.receiverName kind) :
    (T.entered kind v).kindOf name = T.kindOf name := by
  by_cases hkind : kind.IsMethod
  · have hname : name ≠ "this" := by
      cases kind with
      | script | function => exact hkind.elim
      | method | initializer => exact h
    rw [kindOf, kindOf, super_entered, if_neg hname, if_neg hname]
  · rw [entered_of_not hkind]

end Ties

section Parameters

variable {kind : BodyKind} {names : List String}

theorem Parameters.rooted (h : Layout.Parameters kind names L) :
    ∃ L₁ captured, L = L₁ ++ [⟨Body.receiverName kind, some 0, captured⟩] ∧
      L₁.length = names.length ∧ ∀ l ∈ L₁, IsIdentifier l.name := by
  induction h with
  | @nil captured => exact ⟨[], captured, rfl, rfl, nofun⟩
  | snoc hid _ ih =>
      obtain ⟨L₁, captured, rfl, hlen, hall⟩ := ih
      refine ⟨_ :: L₁, captured, rfl, by simp [hlen], List.forall_mem_cons.mpr ⟨hid, hall⟩⟩

theorem Parameters.slot?_receiver (h : Layout.Parameters kind names L) :
    Body.slot? (Body.receiverName kind) L ≠ none := by
  obtain ⟨L₁, captured, rfl, -⟩ := Parameters.rooted h
  intro hnone
  have := slot?_of_append hnone
  simp [Body.slot?, Body.Local.answersTo] at this

end Parameters

/-- The variables that a function captures are of the kinds of their names. -/
theorem Encloses.stands {G : Layout} {kind : BodyKind} {parent : Option Class} {names : List String}
    {L₀ : List Local} {Ks : List Kind} {v : Value} (h : Encloses F E L T c.classes kind parent)
    (hkind : G.kind = kind) (haround : G.around = ⟨L, F.captures⟩ :: F.around)
    (hcs : List.Forall₂ (F.Captures L) G.captures G.captured)
    (hKs : List.Forall₂ (Reaches E (slotsOf T L)) G.captures Ks)
    (hparams : Layout.Parameters kind names L₀) (hv : kind.Receives v) :
    Standing G ⟨Ks, parent⟩ L₀ (T.entered kind v) (c.function kind names) := by
  have hreceiver := Parameters.slot?_receiver hparams
  obtain ⟨L₁, captured, hL₀, -, hids⟩ := Parameters.rooted hparams
  refine { rooted := ⟨L₁, captured, hkind ▸ hL₀⟩, receiver := ?_, plain := ?_, knows := ?_,
           within := ?_, kind := hkind.symm }
  · intro hmethod
    obtain ⟨o, -, ho⟩ := Ties.this_entered (T := T) hv (hkind ▸ hmethod)
    exact ⟨o, ho⟩
  · intro l hl
    rw [hL₀, List.mem_append, List.mem_singleton] at hl
    rcases hl with hl | rfl
    · exact (hids l hl).2.1
    · cases kind <;> simp [Body.receiverName]
  · refine ⟨hKs.length_eq.symm.trans hcs.length_eq, fun name n capture hnone hname hcapture hleads => ?_⟩
    have hne : name ≠ Body.receiverName kind := fun heq => hreceiver (heq ▸ hnone)
    obtain ⟨name', hname', hcaptures⟩ := forall₂_getElem? hcs hcapture
    obtain rfl := Option.some.inj (hname'.symm.trans hname)
    obtain ⟨x, hx, hreaches⟩ := forall₂_getElem? hKs hcapture
    rw [haround] at hleads
    rw [hx, Ties.kindOf_entered hne, kind_of_reaches hreaches h.knows hcaptures hleads]
  · refine ⟨fun hclasses => ?_, fun hhead => Ties.super_entered T kind v ▸ h.super hhead⟩
    by_cases hmethod : kind.IsMethod
    · obtain ⟨o, -, ho⟩ := Ties.this_entered (T := T) hv hmethod
      refine ⟨⟨o, ho⟩, .inl ?_⟩
      cases kind with
      | script | function => exact hmethod.elim
      | method | initializer => exact hreceiver
    · obtain ⟨ho, hvisible⟩ := h.this hmethod hclasses
      rw [Ties.entered_of_not hmethod]
      refine ⟨ho, .inr ?_⟩
      rw [haround]
      rcases hvisible with hlocal | ⟨E, hE, hlocal⟩
      · exact ⟨_, List.mem_cons_self, hlocal⟩
      · exact ⟨E, List.mem_cons_of_mem _ hE, hlocal⟩

/-- A function whose body is safe can be entered. -/
theorem enters_of_body {G : Layout} {g : Function} {names : List String} {L₀ L₁ : List Local}
    {k k' k'' : Nat} (hroutine : routines[g.index]? = some ⟨g, G.code, G.kind⟩)
    (harity : g.arity = names.length) (hparams : Layout.Parameters G.kind names L₀)
    (hstands : ∀ v, G.kind.Receives v → Standing G E L₀ (T.entered G.kind v) c)
    (hbody : (Part.code f).Shaped routines G L₀ 0 k L₁) (hlegal : legalAll c f)
    (hruns : ∃ new, L₁ = new ++ L₀ ∧ ∀ l ∈ new, l.name ≠ "super")
    (hresult : G.At k (Layout.implicitResult G.kind) k') (hret : G.At k' .ret k'') (n : Nat) :
    Enters routines (Safe routines n) g G E where
  routine := hroutine
  start v hv := by
    obtain ⟨L₂, captured, hL₀, hlen, hids⟩ := Parameters.rooted hparams
    have hs := hstands v hv
    obtain ⟨new, rfl, -⟩ := hruns
    have hground : Grounded G.kind (slotsOf (T.entered G.kind v) (new ++ L₀)) := by
      rw [slotsOf_append]
      exact hs.grounded.append _
    have hstart := hbody E _ c hs hlegal n (safe_return hresult hret hground n)
    refine ⟨slotsOf (T.entered G.kind v) L₂, captured, ?_, ?_, ?_⟩
    · rw [length_slotsOf, hlen, harity]
    · intro s hs
      obtain ⟨l, hl, rfl⟩ := List.mem_map.mp hs
      exact Ties.kindOf_identifier (hids l hl)
    · have heq : slotsOf (T.entered G.kind v) L₀ =
          slotsOf (T.entered G.kind v) L₂ ++ [⟨G.kind.slotKind v, captured⟩] := by
        rw [hL₀, slotsOf_append, ← Ties.kindOf_receiver hv]
        rfl
      rwa [heq] at hstart

/-! ## Classes -/

/-- The shape when the variable of a class has just been declared. -/
def ownShape (d : Nat) (T : Ties) (L : List Local) (name : String) (D : Decl) : Shape :=
  if d = 0 then ⟨slotsOf T L, some { D with holder := some name }⟩
  else ⟨.temp D.kind :: slotsOf T L, some D⟩

theorem grounded_ownShape (d : Nat) (name : String) (D : Decl) (hg : Grounded F.kind (slotsOf T L)) :
    Grounded F.kind (ownShape d T L name D).slots := by
  rw [ownShape]
  split
  · exact hg
  · exact hg.cons _

theorem leads_own {name : String} {D : Decl} (h : F.Declares d L name i j L') (hD : D.holder = none)
    (hg : Grounded F.kind (slotsOf T L)) :
    Leads routines F E i ⟨.temp D.kind :: slotsOf T L, some D⟩ j (ownShape d T L name D) := by
  rw [ownShape]
  cases h with
  | global h0 hi =>
      rw [if_pos h0]
      exact .step hi hg fun _ h => .holdGlobal hD h
  | «local» hd =>
      rw [if_neg hd]
      exact .refl _ _

/-- The variable of the class still holds it. -/
theorem leads_getOwn {name : String} {D : Decl} (top : List Slot)
    (hi : F.At i (Layout.ownAccess d L name).get j) (hg : Grounded F.kind (slotsOf T L)) :
    Leads routines F E i ⟨top ++ (ownShape d T L name D).slots, (ownShape d T L name D).decl⟩ j
      ⟨.temp D.kind :: (top ++ (ownShape d T L name D).slots), (ownShape d T L name D).decl⟩ := by
  have hground := (grounded_ownShape d name D hg).append top
  rw [ownShape, Layout.ownAccess] at *
  split
  · rename_i h0
    rw [if_pos h0] at hi hground
    have hkind : globalKind (some { D with holder := some name }) name = D.kind := if_pos rfl
    refine .step hi hground fun _ h => ?_
    rw [← hkind] at h
    exact .getGlobal h
  · rename_i h0
    rw [if_neg h0] at hi hground
    have hslot : atSlot? (Slot.temp D.kind :: slotsOf T L) L.length = some (.temp D.kind) := by
      rw [atSlot?_cons, if_pos (length_slotsOf T L).symm]
    exact .step hi hground fun _ h => .getLocal (atSlot?_append_of_some hslot) h

/-- The variable of a class that cannot inherit any more is a variable like any other. -/
theorem ownShape_le {name : String} {D : Decl} {m n : Nat} (hid : IsIdentifier name)
    (hfresh : D.fresh = false) (h : F.Declares d L name m n L') {top top' : List Slot}
    (htop : List.Forall₂ Slot.Le top top') :
    Shape.Le ⟨top ++ (ownShape d T L name D).slots, (ownShape d T L name D).decl⟩
      ⟨top' ++ slotsOf T L', (ownShape d T L name D).decl⟩ := by
  refine ⟨List.rel_append htop ?_, rfl⟩
  rw [ownShape]
  cases h with
  | global h0 _ =>
      rw [if_pos h0]
      exact slots_refl _
  | @«local» captured hd =>
      rw [if_neg hd]
      have hown : Slot.Le (.temp D.kind) ⟨T.kindOf name, captured⟩ := by
        rw [Decl.kind, hfresh, Ties.kindOf_identifier hid]
        exact Slot.le_any _ _
      exact .cons hown (slots_refl _)

theorem ownShape_decl (d : Nat) (T : Ties) (L : List Local) (name : String) (D : Decl) :
    ∃ D' : Decl, (ownShape d T L name D).decl = some D' ∧ D'.cls = D.cls ∧ D'.fresh = D.fresh ∧
      D'.parent = D.parent := by
  rw [ownShape]
  split <;> exact ⟨_, rfl, rfl, rfl, rfl⟩

/-- A name that does not name the newest local is found as it was before. -/
theorem finds_of_ne {name : String} {l : Local} {p : Access} (hne : l.name ≠ name)
    (h : F.Finds (l :: L) name p) : F.Finds L name p := by
  cases h with
  | «local» hn => exact .local (Layout.slot?_cons_of_ne hne ▸ hn)
  | captured hnone hn hc hleads => exact .captured (Layout.slot?_cons_of_ne hne ▸ hnone) hn hc hleads
  | global hnone haround => exact .global (Layout.slot?_cons_of_ne hne ▸ hnone) haround

/-- Reading the superclass keeps what is known about the class. -/
theorem leads_getParent {name parent : String} {D : Decl} {p : Access} {m k : Nat}
    (h : F.Declares d L name m k L') (hid : IsIdentifier parent) (hne : name ≠ parent)
    (hD : D.holder = none) (hknows : Knows F E L T) (hg : Grounded F.kind (slotsOf T L))
    (hp : F.Finds L' parent p) (hi : F.At i p.get j) :
    Leads routines F E i (ownShape d T L name D) j
      ⟨.temp .any :: (ownShape d T L name D).slots, (ownShape d T L name D).decl⟩ := by
  have hground := grounded_ownShape d name D hg
  have hparent : F.Finds L parent p := by
    cases h with
    | global => exact hp
    | «local» => exact finds_of_ne hne hp
  by_cases hglobal : p.IsGlobal
  · have hkind : globalKind (ownShape d T L name D).decl parent = .any := by
      rw [ownShape]
      split
      · exact if_neg fun heq => hne (Option.some.inj heq)
      · exact if_neg (by simp [hD])
    cases hparent with
    | global =>
        refine .step hi hground fun _ h => ?_
        rw [← hkind] at h
        exact .getGlobal h
    | _ => exact hglobal.elim
  · have hcov : Covers T L (ownShape d T L name D).slots := by
      rw [ownShape]
      split
      · exact covers_slotsOf T L
      · exact (covers_slotsOf T L).cons _
    rw [← Ties.kindOf_identifier (T := T) hid]
    exact leads_known hparent hglobal hcov hknows hground hi

/-- A class inherits, and everything that holds it holds a class like any other. -/
theorem safe_inherit {name : String} {D : Decl} {n : Nat} (hfresh : D.fresh = true)
    (hi : F.At i .inherit j) (hnames : F.NamesParent j) (hg : Grounded F.kind (slotsOf T L))
    (h : ∀ S : Class, Safe routines n F E j
      ⟨.temp (.is (.cls S)) :: (ownShape d T L name { D with fresh := false, parent := some S }).slots,
        (ownShape d T L name { D with fresh := false, parent := some S }).decl⟩) :
    Safe routines n F E i ⟨.temp D.kind :: .temp .any :: (ownShape d T L name D).slots,
      (ownShape d T L name D).decl⟩ := by
  cases n with
  | zero => trivial
  | succ n =>
      have hkind : D.kind = .own D.cls := by rw [Decl.kind, hfresh]; rfl
      refine ⟨_, _, j, Shape.Le.refl _, hi, grounded_ownShape d name D hg, ?_⟩
      have h (S : Class) := (h S).succ
      unfold ownShape at h ⊢
      rw [hkind]
      split
      · rename_i h0
        simp only [if_pos h0] at h
        exact .inherit (n := 0) (d := { D with holder := some name }) hnames hfresh h
      · rename_i h0
        simp only [if_neg h0] at h
        exact .inherit (n := 1) (d := D) hnames hfresh h

/-- The end of a class body. -/
theorem leads_endClass {D : Decl} (hi : F.At i .pop j) (hfresh : D.fresh = false)
    (hg : Grounded F.kind s) :
    Leads routines F E i ⟨.temp (.is (.cls D.cls)) :: s, some D⟩ j ⟨s, none⟩ :=
  .step hi hg fun _ h => .endClass hfresh h

/-- The body of a class that cannot inherit any more. -/
theorem leads_members {name : String} {fs : List (Fun Stmt)} {c' : Scope} {D : Decl} {T' : Ties}
    {L₁ : List Local} (top : List Slot) {top' : List Slot} {l m p q : Nat} (hid : IsIdentifier name)
    (hfresh : D.fresh = false) (hd : F.Declares d L name p q L')
    (htop : List.Forall₂ Slot.Le top top') (hslots : top' ++ slotsOf T L' = slotsOf T' L₁)
    (hown : F.At i (Layout.ownAccess d L name).get l)
    (hmethods : (Part.methods fs).Shaped routines F L₁ l m L₁)
    (hencloses : ∀ kind : BodyKind, kind.IsMethod → Encloses F E L₁ T' c'.classes kind D.parent)
    (hlegal : legalMethods c' fs) (hpop : F.At m .pop j) (hg : Grounded F.kind (slotsOf T L))
    (hg' : Grounded F.kind (slotsOf T' L₁)) :
    Leads routines F E i ⟨top ++ (ownShape d T L name D).slots, (ownShape d T L name D).decl⟩ j
      ⟨slotsOf T' L₁, none⟩ := by
  refine (leads_getOwn top hown hg).trans ?_
  have hle := ownShape_le (T := T) hid hfresh hd (.cons (Slot.Le.refl (.temp D.kind)) htop)
  have hkind : D.kind = .is (.cls D.cls) := by rw [Decl.kind, hfresh]; rfl
  refine .weaken ?_ hle
  obtain ⟨D', hD', hcls, hfresh', hparent⟩ := ownShape_decl d T L name D
  rw [hD', List.cons_append, hslots, hkind, ← hcls]
  exact (hmethods E T' c' D' hg' (hfresh'.trans hfresh) (hparent ▸ hencloses) hlegal).trans
    (leads_endClass hpop (hfresh'.trans hfresh) hg')

/-- The superclass is a variable of a scope around the methods. -/
theorem Knows.inheriting {captured : Bool} {depth : Option Nat} (h : Knows F E L T) (S : Class)
    (hdepth : depth.isSome) :
    Knows F E (⟨"super", depth, captured⟩ :: L) { T with super := some S } where
  length_eq := h.length_eq
  kind name n capture hnone hname hcapture hleads := by
    have hne : name ≠ "super" := by
      rintro rfl
      simp [Body.slot?, Body.Local.answersTo, hdepth] at hnone
    have hkind : Ties.kindOf { T with super := some S } name = T.kindOf name := by
      rw [Ties.kindOf, Ties.kindOf, if_neg hne, if_neg hne]
    rw [hkind]
    have hnone : Body.slot? name ([⟨"super", depth, captured⟩] ++ L) = none := hnone
    exact h.kind name n capture (slot?_of_append hnone) hname hcapture hleads

theorem slotsOf_inheriting (S : Class) (h : ∀ l ∈ L, l.name ≠ "super") :
    slotsOf { T with super := some S } L = slotsOf T L := by
  refine List.map_congr_left fun l hl => ?_
  have hne := h l hl
  rw [Ties.kindOf, Ties.kindOf, if_neg hne, if_neg hne]

/-- A class is made, whichever it is. -/
theorem safe_makeClass {name : String} {n : Nat} (fresh : Bool) (hi : F.At i (.makeClass name) k)
    (hg : Grounded F.kind s)
    (h : ∀ C : Class, Safe routines n F E k
      ⟨.temp (Decl.kind ⟨C, none, fresh, none⟩) :: s, some ⟨C, none, fresh, none⟩⟩) :
    Safe routines n F E i ⟨s, none⟩ := by
  cases n with
  | zero => trivial
  | succ n => exact ⟨_, _, _, Shape.Le.refl _, hi, hg, .makeClass fun C => (h C).succ⟩

theorem shaped_class {name : String} {fs : List (Fun Stmt)} {l m n : Nat} (hid : IsIdentifier name)
    (hi : F.At i (.makeClass name) k) (hd : F.Declares d L name k l L')
    (hown : F.At l (Layout.ownAccess d L name).get m)
    (hmethods : (Part.methods fs).Shaped routines F L' m n L') (hpop : F.At n .pop j) :
    (Part.code [.cls name none fs]).Shaped routines F L i j L' := by
  intro E T c hs ⟨⟨_, _, hlegal⟩, _⟩ n hn
  obtain ⟨new, rfl, hplain⟩ := Declares.extends hid hd
  have hs' : Standing F E (new ++ L) T c := hs.append new hplain rfl rfl
  refine safe_makeClass false hi hs.grounded fun C => leads_own hd rfl hs.grounded n ?_
  refine leads_members [] (D := ⟨C, none, false, none⟩) hid rfl hd .nil rfl hown hmethods ?_ hlegal hpop
    hs.grounded hs'.grounded n hn
  intro kind hkind
  exact ⟨hs'.knows, fun h => absurd hkind h, fun h => nomatch h⟩

/-- The methods of a class that has inherited: the superclass is a variable of a scope around them. -/
theorem leads_inheriting {name : String} {captured : Bool} {fs : List (Fun Stmt)} {l m n o : Nat}
    {new : List Local} {C S : Class} (hid : IsIdentifier name) (hd : F.Declares d L name k l (new ++ L))
    (hown : F.At i (Layout.ownAccess d L name).get m)
    (hmethods : (Part.methods fs).Shaped routines F (⟨"super", some (d + 1), captured⟩ :: (new ++ L)) m n
      (⟨"super", some (d + 1), captured⟩ :: (new ++ L)))
    (hpop : F.At n .pop o) (hdrops : F.Drops [⟨"super", some (d + 1), captured⟩] o j)
    (hs : Standing F E L T c) (hs' : Standing F E (new ++ L) T c)
    (hlegal : legalMethods ((c.declare name).methods true) fs) :
    Leads routines F E i
      ⟨[Slot.temp (.is (.cls S))] ++ (ownShape d T L name ⟨C, none, false, some S⟩).slots,
        (ownShape d T L name ⟨C, none, false, some S⟩).decl⟩ j ⟨slotsOf T (new ++ L), none⟩ := by
  have hsuper : [⟨.is (.cls S), captured⟩] = slotsOf { T with super := some S }
      [⟨"super", some (d + 1), captured⟩] :=
    congrArg (fun k => [Slot.mk k captured]) (Ties.kindOf_super rfl).symm
  have hslots : [⟨.is (.cls S), captured⟩] ++ slotsOf T (new ++ L) = slotsOf
      { T with super := some S } (⟨"super", some (d + 1), captured⟩ :: (new ++ L)) := by
    rw [hsuper, ← slotsOf_inheriting S hs'.plain]
    rfl
  have hground := hslots ▸ hs'.grounded.append _
  refine (leads_members _ hid rfl hd (.cons (Slot.le_shared _ captured) .nil) hslots hown hmethods
    ?_ hlegal hpop hs.grounded hground).trans ?_
  · intro kind hkind
    exact ⟨hs'.knows.inheriting S rfl, fun h => absurd hkind h, fun _ => ⟨S, rfl, rfl⟩⟩
  · rw [← hslots, hsuper]
    exact leads_drops hdrops hs'.grounded

theorem shaped_subclass {name parent : String} {captured : Bool} {fs : List (Fun Stmt)} {p : Access}
    {l a b r m n o : Nat} (hid : IsIdentifier name) (hi : F.At i (.makeClass name) k)
    (hd : F.Declares d L name k l L') (hid' : IsIdentifier parent) (hp : F.Finds L' parent p)
    (hparent : F.At l p.get a) (hown : F.At a (Layout.ownAccess d L name).get b) (hinherit : F.At b .inherit r)
    (hown' : F.At r (Layout.ownAccess d L name).get m)
    (hmethods : (Part.methods fs).Shaped routines F (⟨"super", some (d + 1), captured⟩ :: L') m n
      (⟨"super", some (d + 1), captured⟩ :: L'))
    (hpop : F.At n .pop o) (hdrops : F.Drops [⟨"super", some (d + 1), captured⟩] o j) :
    (Part.code [.cls name (some parent) fs]).Shaped routines F L i j L' := by
  intro E T c hs ⟨⟨_, hne, hlegal⟩, _⟩ n hn
  obtain ⟨new, rfl, hplain⟩ := Declares.extends hid hd
  have hs' : Standing F E (new ++ L) T c := hs.append new hplain rfl rfl
  have hne : name ≠ parent := fun heq => hne (heq ▸ rfl)
  refine safe_makeClass true hi hs.grounded fun C => leads_own hd rfl hs.grounded n ?_
  refine leads_getParent hd hid' hne rfl hs.knows hs.grounded hp hparent n ?_
  refine leads_getOwn [.temp .any] hown hs.grounded n ?_
  refine safe_inherit rfl hinherit ⟨_, _, _, _, _, hparent, hown, hinherit⟩ hs.grounded fun S => ?_
  exact leads_inheriting hid hd hown' hmethods hpop hdrops hs hs' hlegal n hn

/-! ## Statements -/

/-- A method is made and put into the class, which stays on the stack for the others. -/
theorem shaped_methods {f : Fun Stmt} {fs : List (Fun Stmt)} {l : Nat}
    (hclosure : (Part.closure f (methodKind f.name)).Shaped routines F L i k L)
    (hi : F.At k (.method f.name) l) (hmethods : (Part.methods fs).Shaped routines F L l j L) :
    (Part.methods (f :: fs)).Shaped routines F L i j L := by
  intro E T c D hg hfresh hencloses ⟨hlegal, hrest⟩
  have hmethod : (methodKind f.name).IsMethod := by
    rw [methodKind]
    split <;> trivial
  obtain ⟨g, captures, G, Ks, hclosure, hkind, henters, hcs⟩ :=
    hclosure E T c D.parent (hencloses _ hmethod) hlegal
  refine .trans ?_ (hmethods E T c D hg hfresh hencloses hrest)
  have hcs' := hcs.imp fun _ _ hr => hr.append [.temp (.method G.kind D.cls), .temp (.is (.cls D.cls))]
  rintro (_ | n) hn
  · trivial
  · have hmade : Leads routines F E k
        ⟨.temp (.method G.kind D.cls) :: .temp (.is (.cls D.cls)) :: slotsOf T L, some D⟩ l
        ⟨.temp (.is (.cls D.cls)) :: slotsOf T L, some D⟩ := by
      refine .step hi hg fun _ h => ?_
      rw [hkind]
      exact .method hfresh h
    exact ⟨_, _, _, Shape.Le.refl _, hclosure, hg.cons _,
      .methodClosure hfresh (hkind ▸ hmethod) (henters n) hcs' (hmade n hn.succ)⟩

theorem shaped_of_runs {part : Part} (h : Layout.Runs routines F d L part i j L') :
    part.Shaped routines F L i j L' := by
  induction h with
  | nothing => exact fun _ _ _ _ _ => .refl _ _
  | @several _ _ _ s _ _ _ _ _ _ _ h _ ih ih' =>
      intro E T c hs ⟨hfirst, hrest⟩
      obtain ⟨new, rfl, hnew⟩ := Runs.extends h
      have hs' := hs.append new hnew (classes_after c s) (kind_after c s)
      exact (ih E T c hs ⟨hfirst, trivial⟩).trans (ih' E T _ hs' hrest)
  | expression he hi =>
      intro E T c hs hlegal
      exact (hs.loads he hlegal.1).trans (.pop hi hs.grounded)
  | print he hi =>
      intro E T c hs hlegal
      exact (hs.loads he hlegal.1).trans (Leads.operate hi trivial hs.grounded)
  | assert he hi =>
      intro E T c hs hlegal
      exact (hs.loads he hlegal.1).trans (Leads.operate hi trivial hs.grounded)
  | var hid hi hd =>
      intro E T c hs hlegal
      exact .trans (.step hi hs.grounded fun _ h => .push trivial h)
        (leads_declares hid hd hs.grounded)
  | @varGlobal _ _ _ name _ _ _ _ hid _ he hi =>
      intro E T c hs hlegal
      have hs' : Standing _ E _ T (c.initializing name) := hs.at rfl rfl
      exact (hs'.loads he hlegal.1.2).trans (.step hi hs.grounded fun _ h => .defineGlobal h)
  | @varLocal _ _ _ name captured _ _ _ hid hd he =>
      intro E T c hs hlegal
      have hs' : Standing _ E (⟨name, none, captured⟩ :: _) T (c.initializing name) :=
        hs.append [_] (by simpa using hid.2.1) rfl rfl
      refine .trans ?_ (leads_declares hid (.local hd) hs.grounded)
      exact leads_load he (covers_declared T _ _ _) hs'.knows hs'.within hlegal.1.2 hs.grounded
  | block _ hdrops ih =>
      intro E T c hs hlegal
      refine Leads.trans (ih E T c.enter (hs.at rfl rfl) hlegal.1) ?_
      rw [slotsOf_append]
      exact leads_drops hdrops hs.grounded
  | cond he hi hpop _ hjump hpop' ih =>
      intro E T c hs ⟨⟨htest, hyes⟩, _⟩ n hn
      have hg := hs.grounded
      exact hs.loads he htest n (.branch hi hg (Leads.pop hpop' hg n hn)
        (Leads.pop hpop hg n (ih E T c hs ⟨hyes, trivial⟩ n (Leads.jump hjump hg n hn))))
  | condElse he hi hpop _ hjump hpop' _ ih ih' =>
      intro E T c hs ⟨⟨htest, hyes, hno⟩, _⟩ n hn
      have hg := hs.grounded
      exact hs.loads he htest n (.branch hi hg
        (Leads.pop hpop' hg n (ih' E T c hs ⟨hno, trivial⟩ n hn))
        (Leads.pop hpop hg n (ih E T c hs ⟨hyes, trivial⟩ n (Leads.jump hjump hg n hn))))
  | «while» he hi hpop _ hloop hpop' ih =>
      intro E T c hs ⟨⟨htest, hbody⟩, _⟩
      have hnone : c.Admits none := trivial
      exact leads_loop hs htest hnone (.some he hi hpop) .none
        (ih E T c hs ⟨hbody, trivial⟩) hloop hpop'
  | @«for» _ _ _ first _ _ _ _ _ _ _ _ _ _ _ _ _ h htest hstep _ hloop hend hdrops ih ih' =>
      intro E T c hs ⟨hlegal, _⟩
      obtain ⟨c', hfirst, hclasses, hkind, hcondition, hadmits, hbody⟩ : ∃ c' : Scope,
          legalAll c.enter first.toList ∧ c'.classes = c.classes ∧
          c'.inner.kind = c.inner.kind ∧ c'.Admits _ ∧ c'.Admits _ ∧ Stmt.Legal c' _ := by
        cases first with
        | none => exact ⟨c.enter, trivial, rfl, rfl, hlegal⟩
        | some s =>
            exact ⟨c.enter.after s, ⟨hlegal.1, trivial⟩, classes_after _ _, kind_after _ _, hlegal.2⟩
      obtain ⟨new', hnew', hplain⟩ := Runs.extends h
      obtain rfl := List.append_cancel_right hnew'
      have hs' := hs.append _ hplain hclasses hkind
      refine Leads.trans (ih E T c.enter (hs.at rfl rfl) hfirst) ?_
      refine (leads_loop hs' hcondition hadmits htest hstep (ih' E T c' hs' ⟨hbody, trivial⟩) hloop
        hend).trans ?_
      rw [slotsOf_append]
      exact leads_drops hdrops hs.grounded
  | «return» _ hi hret =>
      intro E T c hs _ n _
      exact safe_return hi hret hs.grounded n
  | returnValue _ he hret =>
      intro E T c hs ⟨⟨_, hkind, hadmits⟩, _⟩ n _
      exact hs.loads he hadmits n (safe_ret hret (hs.kind ▸ hkind) hs.grounded n)
  | @functionGlobal _ _ _ f _ _ _ hid _ _ hi ih =>
      intro E T c hs ⟨⟨_, hlegal⟩, _⟩
      have hs' : Standing _ E _ T (c.declare f.name) := hs.at rfl (kind_declare _ _)
      obtain ⟨g, captures, G, Ks, hclosure, hkind, hg, hcs⟩ :=
        ih E T _ E.parent hs'.encloses hlegal
      refine (leads_closure (.temp .any) hclosure rfl hkind hg ?_ hs.grounded).trans
        (.step hi hs.grounded fun _ h => .defineGlobal h)
      exact hcs.imp fun _ _ hr => hr.append [_]
  | @functionLocal _ d _ captured f _ _ hid hd _ ih =>
      intro E T c hs ⟨⟨_, hlegal⟩, _⟩
      have hs' : Standing _ E (⟨f.name, some d, captured⟩ :: _) T (c.declare f.name) :=
        hs.append [_] (by simpa using hid.2.1) rfl (kind_declare _ _)
      obtain ⟨g, captures, G, Ks, hclosure, hkind, hg, hcs⟩ :=
        ih E T _ E.parent hs'.encloses hlegal
      exact leads_closure _ hclosure (Ties.kindOf_identifier hid) hkind hg hcs hs.grounded
  | cls hid hi hd hown _ hpop ih => exact shaped_class hid hi hd hown ih hpop
  | subclass hid hi hd hid' hp hparent hown hinherit hown' _ hpop hdrops ih =>
      exact shaped_subclass hid hi hd hid' hp hparent hown hinherit hown' ih hpop hdrops
  | noMethods => exact fun _ _ _ _ _ _ _ _ => .refl _ _
  | methods _ hi _ ih ih' => exact shaped_methods ih hi ih'
  | @closure F G _ L f kind g L₀ L₁ _ _ _ _ hkind haround hi hname harity hcs hroutine hparams hbody
      hresult hret ih =>
      intro E T c parent hencloses hlegal
      obtain ⟨Ks, hKs⟩ := captures_kinds hencloses.knows hcs
      refine ⟨g, G.captures, G, Ks, hi, hkind, fun n => ?_, hKs⟩
      subst hkind
      obtain ⟨_, _, _⟩ := f
      exact enters_of_body hroutine harity hparams
        (fun v hv => hencloses.stands rfl haround hcs hKs hparams hv) ih hlegal.2
        (Runs.extends hbody) hresult hret n

/-- A laid out script can be entered once its code is there. -/
theorem enters_script {firstIndex : Nat} {p : Program} {tree : List Stmt}
    (h : p.LaidOut firstIndex tree) (hlegal : legalAll .script tree)
    (hnested : p.KeptIn firstIndex routines)
    (hmain : routines[firstIndex + p.nested.size]? = some p.main) (n : Nat) :
    Enters routines (Safe routines n) p.main.function (.script p.main.code) ⟨[], none⟩ := by
  obtain ⟨captured, k, l, hruns, hresult, hret⟩ := h.code routines hnested
  have harity : p.main.function.arity = ([] : List String).length := by rw [h.main]; rfl
  have hroutine : routines[p.main.function.index]? = some ⟨p.main.function, p.main.code, .script⟩ := by
    have hindex : p.main.function.index = firstIndex + p.nested.size := by rw [h.main]
    rw [hindex, ← h.kind]
    exact hmain
  have hparams : Layout.Parameters .script [] [⟨"", some 0, captured⟩] := .nil
  have hstands (v : Value) : Standing (.script p.main.code) ⟨[], none⟩ [⟨"", some 0, captured⟩]
      (Ties.entered ⟨none, none⟩ .script v) .script := by
    refine ⟨⟨[], captured, rfl⟩, nofun, by simp, ⟨rfl, fun name n c _ hname => ?_⟩, ⟨nofun, nofun⟩, rfl⟩
    cases n <;> cases hname
  exact enters_of_body (G := .script p.main.code) hroutine harity hparams (fun v _ => hstands v)
    (shaped_of_runs hruns) hlegal (Runs.extends hruns) hresult hret n

end LoxMachine
