import LoxMachine.Proofs.Syntax.Scope
import LoxMachine.Proofs.Typing.Shape

/-!
# Shapes along expressions

Code that loads expressions finds the shapes it needs if the code behind it does (`leads_loads`).
Inside of a class, `this` and `super` stand for values that never change (`Ties`); whatever a name
leads to is of the kind that these say.
-/

namespace LoxMachine

open Syntax

/-- Code that goes on safely at `j` with the shape `τ` starts safely at `i` with the shape `σ`. -/
def Leads (routines : Array Routine) (F : Layout) (E : Env) (i : Nat) (σ : Shape) (j : Nat)
    (τ : Shape) : Prop :=
  ∀ n, Safe routines n F E j τ → Safe routines n F E i σ

variable {routines : Array Routine} {F : Layout} {E : Env} {L : List Local} {s t : List Slot}
  {σ τ : Shape} {i j k : Nat}

namespace Leads

theorem refl (i : Nat) (σ : Shape) : Leads routines F E i σ i σ :=
  fun _ h => h

theorem trans {υ : Shape} (h : Leads routines F E i σ k τ) (h' : Leads routines F E k τ j υ) :
    Leads routines F E i σ j υ :=
  fun n hn => h n (h' n hn)

theorem weaken {σ' : Shape} (h : Leads routines F E i σ' j τ) (hle : σ.Le σ') :
    Leads routines F E i σ j τ :=
  fun n hn => (h n hn).weaken hle

/-- One instruction that goes on behind it. -/
theorem step {ins : Instr} (hi : F.At i ins j) (hg : Grounded F.kind (σ.slots.drop ins.pops))
    (h : ∀ K, K F E j τ → Flow routines K F E j ins σ) : Leads routines F E i σ j τ := by
  rintro (_ | n) hn
  · trivial
  · exact ⟨_, ins, j, Shape.Le.refl _, hi, hg, h _ hn.succ⟩

theorem jump (hi : F.At i (.jump j) k) (hg : Grounded F.kind s) :
    Leads routines F E i ⟨s, none⟩ j ⟨s, none⟩ := by
  rintro (_ | n) hn
  · trivial
  · exact ⟨_, _, k, Shape.Le.refl _, hi, hg, .jump hn.succ⟩

theorem pop {x : Kind} (hi : F.At i .pop j) (hg : Grounded F.kind s) :
    Leads routines F E i ⟨.temp x :: s, none⟩ j ⟨s, none⟩ :=
  step hi hg fun _ h => .pop h

theorem operate {op : Opcode} (hi : F.At i (.operator op) j) (hop : op.IsOperator)
    (hg : Grounded F.kind s) :
    Leads routines F E i ⟨temps op.takes ++ s, none⟩ j ⟨temps op.gives ++ s, none⟩ := by
  refine step hi ?_ fun _ h => .operator hop h
  have hdrop : (temps op.takes ++ s).drop (Instr.operator op).pops = s := by
    rw [show (Instr.operator op).pops = (temps op.takes).length from List.length_replicate.symm,
      List.drop_left]
  rw [hdrop]
  exact hg

end Leads

/-- A jump that is safe on both sides. -/
theorem Safe.branch {n p q : Nat} (hi : F.At i (.jumpIfFalse p) q) (hg : Grounded F.kind s)
    (hp : Safe routines n F E p ⟨.temp .any :: s, none⟩)
    (hq : Safe routines n F E q ⟨.temp .any :: s, none⟩) :
    Safe routines n F E i ⟨.temp .any :: s, none⟩ := by
  cases n with
  | zero => trivial
  | succ n => exact ⟨_, _, q, Shape.Le.refl _, hi, hg, .jumpIfFalse hp.succ hq.succ⟩

/-! ## Names -/

/-- What `this` and `super` stand for. -/
structure Ties where
  this : Option Object
  super : Option Class

/-- The kind of the variables of a name. -/
def Ties.kindOf (T : Ties) (name : String) : Kind :=
  if name = "super" then T.super.elim .any fun c => .is (.cls c)
  else if name = "this" then T.this.elim .any fun o => .is (.object o)
  else .any

/-- The initialized locals of `L` are in their slots. -/
def Covers (T : Ties) (L : List Local) (s : List Slot) : Prop :=
  ∀ name n, Body.slot? name L = some n → ∃ b, atSlot? s n = some ⟨T.kindOf name, b⟩

/-- The captured variables are of the kinds of their names. -/
structure Knows (F : Layout) (E : Env) (L : List Local) (T : Ties) : Prop where
  length_eq : E.cells.length = F.captured.length
  kind : ∀ (name : String) (n : Nat) (c : Capture), Body.slot? name L = none →
    F.captured[n]? = some name → F.captures[n]? = some c → Body.Leads name F.around c →
    E.cells[n]? = some (T.kindOf name)

/-- A name leads to a variable of some function. -/
def Visible (F : Layout) (L : List Local) (name : String) : Prop :=
  Body.slot? name L ≠ none ∨ ∃ E ∈ F.around, Body.slot? name E.locals ≠ none

/-- Inside of a class it is known what `this` stands for, and `super` if it inherits. -/
structure Within (F : Layout) (E : Env) (L : List Local) (T : Ties) (classes : List Bool) : Prop
    where
  this : classes ≠ [] → (∃ o, T.this = some o) ∧ Visible F L "this"
  super : classes.head? = some true → ∃ c, T.super = some c ∧ E.parent = some c

namespace Ties

variable {T : Ties} {name : String}

theorem kindOf_identifier (h : IsIdentifier name) : T.kindOf name = .any := by
  rw [kindOf, if_neg h.2.1, if_neg h.2.2]

theorem kindOf_super {c : Class} (h : T.super = some c) : T.kindOf "super" = .is (.cls c) := by
  rw [kindOf, if_pos rfl, h]
  rfl

theorem kindOf_this {o : Object} (h : T.this = some o) : T.kindOf "this" = .is (.object o) := by
  rw [kindOf, if_neg (by decide), if_pos rfl, h]
  rfl

theorem kindOf_cases (T : Ties) (name : String) :
    T.kindOf name = .any ∨ ∃ v, T.kindOf name = .is v := by
  rw [kindOf]
  split
  · cases T.super <;> simp
  · split
    · cases T.this <;> simp
    · exact .inl rfl

/-- A temporary value of a variable. -/
theorem temp_le (T : Ties) (name : String) (b : Bool) : Slot.Le (.temp (T.kindOf name)) ⟨.any, b⟩ := by
  rcases T.kindOf_cases name with h | ⟨v, h⟩ <;> rw [h]
  · exact Slot.le_shared _ _
  · exact Slot.le_any _ _

end Ties

variable {T : Ties} {classes : List Bool}

theorem Covers.append (h : Covers T L s) (top : List Slot) : Covers T L (top ++ s) := by
  intro name n hn
  obtain ⟨b, hb⟩ := h name n hn
  exact ⟨b, atSlot?_append_of_some hb⟩

theorem Covers.cons (h : Covers T L s) (x : Slot) : Covers T L (x :: s) :=
  h.append [x]

/-- A name that is not global is read with its kind. -/
theorem leads_known {name : String} {p : Access} {d : Option Decl} (hp : F.Finds L name p)
    (hlocal : ¬ p.IsGlobal) (hcov : Covers T L s) (hknows : Knows F E L T) (hg : Grounded F.kind s)
    (hi : F.At i p.get j) :
    Leads routines F E i ⟨s, d⟩ j ⟨.temp (T.kindOf name) :: s, d⟩ := by
  cases hp with
  | «local» hn =>
      obtain ⟨b, hb⟩ := hcov _ _ hn
      exact .step hi hg fun _ h => .getLocal hb h
  | captured hnone hn hc hleads =>
      exact .step hi hg fun _ h => .getUpvalue (hknows.kind _ _ _ hnone hn hc hleads) h
  | global _ _ => exact absurd trivial hlocal

theorem temp_le (T : Ties) (name : String) (s : List Slot) (d : Option Decl) :
    Shape.Le ⟨.temp (T.kindOf name) :: s, d⟩ ⟨.temp .any :: s, d⟩ :=
  ⟨.cons (T.temp_le name false) (slots_refl s), rfl⟩

theorem leads_get {name : String} {p : Access} (hp : F.Finds L name p) (hcov : Covers T L s)
    (hknows : Knows F E L T) (hg : Grounded F.kind s) (hi : F.At i p.get j) :
    Leads routines F E i ⟨s, none⟩ j ⟨.temp .any :: s, none⟩ := by
  by_cases hglobal : p.IsGlobal
  · cases p with
    | global name => exact .step hi hg fun _ h => .getGlobal h
    | _ => exact hglobal.elim
  · exact (leads_known hp hglobal hcov hknows hg hi).trans (.weaken (.refl _ _) (temp_le T name s none))

theorem leads_set {name : String} {p : Access} (hid : IsIdentifier name) (hp : F.Finds L name p)
    (hcov : Covers T L s) (hknows : Knows F E L T) (hg : Grounded F.kind s) (hi : F.At i p.set j) :
    Leads routines F E i ⟨.temp .any :: s, none⟩ j ⟨.temp .any :: s, none⟩ := by
  have hg' : Grounded F.kind ((Slot.temp .any :: s).drop 1) := hg
  cases hp with
  | «local» hn =>
      obtain ⟨b, hb⟩ := hcov.cons (.temp .any) _ _ hn
      rw [Ties.kindOf_identifier hid] at hb
      exact .step hi hg' fun _ h => .setLocal hb h
  | captured hnone hn hc hleads =>
      have hk := hknows.kind _ _ _ hnone hn hc hleads
      rw [Ties.kindOf_identifier hid] at hk
      exact .step hi hg' fun _ h => .setUpvalue hk h
  | global _ _ => exact .step hi hg' fun _ h => .setGlobal h

/-- The receiver. -/
theorem leads_this {p : Access} (hw : Within F E L T classes) (hclasses : classes ≠ [])
    (hp : F.Finds L "this" p) (hcov : Covers T L s) (hknows : Knows F E L T)
    (hg : Grounded F.kind s) (hi : F.At i p.get j) :
    ∃ o, Leads routines F E i ⟨s, none⟩ j ⟨.temp (.is (.object o)) :: s, none⟩ := by
  obtain ⟨⟨o, ho⟩, hvisible⟩ := hw.this hclasses
  have hlocal : ¬ p.IsGlobal := by
    cases hp with
    | global hnone haround =>
        rcases hvisible with h | ⟨E, hE, h⟩
        · exact absurd hnone h
        · exact absurd (haround E hE) h
    | _ => exact id
  refine ⟨o, ?_⟩
  rw [← Ties.kindOf_this ho]
  exact leads_known hp hlocal hcov hknows hg hi

/-- The superclass. -/
theorem leads_super {p : Access} (hw : Within F E L T classes) (hclasses : classes.head? = some true)
    (hp : F.Finds L "super" p) (hlocal : ¬ p.IsGlobal) (hcov : Covers T L s) (hknows : Knows F E L T)
    (hg : Grounded F.kind s) (hi : F.At i p.get j) :
    ∃ c, E.parent = some c ∧ Leads routines F E i ⟨s, none⟩ j ⟨.temp (.is (.cls c)) :: s, none⟩ := by
  obtain ⟨c, hc, hparent⟩ := hw.super hclasses
  refine ⟨c, hparent, ?_⟩
  rw [← Ties.kindOf_super hc]
  exact leads_known hp hlocal hcov hknows hg hi

/-! ## Expressions -/

theorem leads_operates {op : BinaryOp} (hg : Grounded F.kind s)
    (h : F.Operates (Expression.operations (BinaryOp.kind op)) i j) :
    Leads routines F E i ⟨.temp .any :: .temp .any :: s, none⟩ j ⟨.temp .any :: s, none⟩ := by
  have hone {c : Opcode} {i j : Nat} (hc : c.IsOperator) (htakes : c.takes = 2) (hgives : c.gives = 1)
      (hi : F.At i (.operator c) j) :
      Leads routines F E i ⟨.temp .any :: .temp .any :: s, none⟩ j ⟨.temp .any :: s, none⟩ := by
    have hleads : Leads routines F E i ⟨temps c.takes ++ s, none⟩ j ⟨temps c.gives ++ s, none⟩ :=
      .operate hi hc hg
    rwa [htakes, hgives] at hleads
  have hnot {i j : Nat} (hi : F.At i (.operator .not) j) :
      Leads routines F E i ⟨.temp .any :: s, none⟩ j ⟨.temp .any :: s, none⟩ :=
    Leads.operate hi trivial hg
  rw [BinaryOp.operations_kind] at h
  split at h
  · obtain ⟨k, hi, l, hi', rfl⟩ := h
    exact .trans (hone (by cases op <;> trivial) (by cases op <;> rfl) (by cases op <;> rfl) hi) (hnot hi')
  · obtain ⟨k, hi, rfl⟩ := h
    exact hone (by cases op <;> trivial) (by cases op <;> rfl) (by cases op <;> rfl) hi

/-- The values of expressions are temporaries on top of the stack. -/
theorem leads_loads {es : List Expr} {c : Scope} (h : F.Loads L es i j) (hcov : Covers T L s)
    (hknows : Knows F E L T) (hw : Within F E L T c.classes) (huses : c.AllowsAll (usesOfAll es))
    (hg : Grounded F.kind s) :
    Leads routines F E i ⟨s, none⟩ j ⟨temps es.length ++ s, none⟩ := by
  induction h generalizing s with
  | nothing => exact .refl _ _
  | several _ _ ih ih' =>
      rw [usesOfAll, Scope.allowsAll_append] at huses
      have := (ih hcov (by simpa [usesOfAll] using huses.1) hg).trans
        (ih' (hcov.cons _) huses.2 (hg.cons _))
      rwa [List.length_cons, ← temps_append]
  | number hi => exact .step hi hg fun _ h => .push trivial h
  | string hi => exact .step hi hg fun _ h => .push trivial h
  | nil hi => exact .step hi hg fun _ h => .push trivial h
  | boolean hi => exact .step hi hg fun _ h => .push trivial h
  | grouping _ ih => exact ih hcov (by simpa [usesOfAll, Expr.uses] using huses) hg
  | «variable» _ hp hi => exact leads_get hp hcov hknows hg hi
  | assign hid hp _ hi ih =>
      simp only [usesOfAll, Expr.uses, List.append_nil, Scope.allowsAll_append] at huses
      exact (ih hcov (by simpa [usesOfAll] using huses.1) hg).trans
        (leads_set hid hp hcov hknows hg hi)
  | this hp hi => exact leads_get hp hcov hknows hg hi
  | super hp hi hq hlocal hi' hi'' =>
      simp only [usesOfAll, Expr.uses, List.append_nil, Scope.allowsAll_cons] at huses
      obtain ⟨hthis, hsuper, -⟩ := huses
      obtain ⟨o, hleads⟩ := leads_this hw hthis hp hcov hknows hg hi
      obtain ⟨C, hC, hleads'⟩ :=
        leads_super hw hsuper hq hlocal (hcov.cons (.temp (.is (.object o)))) hknows (hg.cons _) hi'
      exact hleads.trans (hleads'.trans (.step hi'' hg fun _ h => .getSuper hC h))
  | @unary op _ _ _ _ _ hi ih =>
      refine (ih hcov (by simpa [usesOfAll, Expr.uses] using huses) hg).trans ?_
      have : Leads routines F E _ _ _ ⟨temps op.code.gives ++ s, none⟩ :=
        Leads.operate hi (by cases op <;> trivial) hg
      cases op <;> exact this
  | binary _ _ hops ih ih' =>
      simp only [usesOfAll, Expr.uses, List.append_nil, Scope.allowsAll_append] at huses
      exact (ih hcov (by simpa [usesOfAll] using huses.1) hg).trans
        ((ih' (hcov.cons _) (by simpa [usesOfAll] using huses.2) (hg.cons _)).trans
          (leads_operates hg hops))
  | and _ hi hpop _ ih ih' =>
      simp only [usesOfAll, Expr.uses, List.append_nil, Scope.allowsAll_append] at huses
      intro n hn
      have hright := ih' hcov (by simpa [usesOfAll] using huses.2) hg n hn
      exact ih hcov (by simpa [usesOfAll] using huses.1) hg n
        (.branch hi hg hn (Leads.pop hpop hg n hright))
  | or _ hi hi' hpop _ ih ih' =>
      simp only [usesOfAll, Expr.uses, List.append_nil, Scope.allowsAll_append] at huses
      intro n hn
      have hright := ih' hcov (by simpa [usesOfAll] using huses.2) hg n hn
      exact ih hcov (by simpa [usesOfAll] using huses.1) hg n
        (.branch hi hg (Leads.pop hpop hg n hright) (Leads.jump hi' (hg.cons _) n hn))
  | get _ hi ih =>
      exact (ih hcov (by simpa [usesOfAll, Expr.uses] using huses) hg).trans
        (.step hi hg fun _ h => .getProperty h)
  | set _ _ hi ih ih' =>
      simp only [usesOfAll, Expr.uses, List.append_nil, Scope.allowsAll_append] at huses
      exact (ih hcov (by simpa [usesOfAll] using huses.1) hg).trans
        ((ih' (hcov.cons _) (by simpa [usesOfAll] using huses.2) (hg.cons _)).trans
          (.step hi hg fun _ h => .setProperty h))
  | @call f as _ _ _ _ hf _ _ hi ih ih' =>
      have huses : c.AllowsAll (f.uses ++ usesOfAll as) := by
        rw [usesOfAll, usesOfAll, List.append_nil] at huses
        cases f with
        | super => cases hf
        | _ => simpa only [Expr.uses] using huses
      rw [Scope.allowsAll_append] at huses
      refine (ih hcov (by simpa [usesOfAll] using huses.1) hg).trans
        ((ih' (hcov.cons _) huses.2 (hg.cons _)).trans (.step hi ?_ fun _ h => .call h))
      exact (drop_temps as.length _ s).symm ▸ hg
  | @invoke o name as _ _ _ _ _ _ hi ih ih' =>
      have huses : c.AllowsAll (o.uses ++ usesOfAll as) := by
        simpa only [usesOfAll, Expr.uses, List.append_nil] using huses
      rw [Scope.allowsAll_append] at huses
      refine (ih hcov (by simpa [usesOfAll] using huses.1) hg).trans
        ((ih' (hcov.cons _) huses.2 (hg.cons _)).trans (.step hi ?_ fun _ h => .invoke h))
      exact (drop_temps as.length _ s).symm ▸ hg
  | @superInvoke name as p q _ _ _ _ _ hp hi _ hq hlocal hi' hi'' ih =>
      have huses : c.AllowsAll (.this :: (usesOfAll as ++ [Syntax.Use.super])) := by
        simpa only [usesOfAll, Expr.uses, List.append_nil] using huses
      rw [Scope.allowsAll_cons, Scope.allowsAll_append, Scope.allowsAll_cons] at huses
      obtain ⟨hthis, has, hsuper, -⟩ := huses
      obtain ⟨o, hleads⟩ := leads_this hw hthis hp hcov hknows hg hi
      obtain ⟨C, hC, hleads'⟩ := leads_super hw hsuper hq hlocal
        ((hcov.cons (.temp (.is (.object o)))).append (temps as.length)) hknows
        ((hg.cons _).append _) hi'
      refine hleads.trans ((ih (hcov.cons _) has (hg.cons _)).trans
        (hleads'.trans (.step hi'' ?_ fun _ h => .superInvoke hC h)))
      exact (drop_temps as.length _ s).symm ▸ hg

end LoxMachine
