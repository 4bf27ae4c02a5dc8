import LoxMachine.Proofs.Twin.Code

/-!
# Expressions side by side

Two layouts in places of the same names (`Beside`, `SameNames`). The code of one expression, laid out
in both, is alike.

Main statement: `parallel_loads`.
-/

namespace LoxMachine

open Syntax

/-- Locals of the same names, up to their depths and marks. -/
def SameNames : List Local → List Local → Prop :=
  List.Forall₂ fun l l' => l'.name = l.name ∧ l'.depth.isSome = l.depth.isSome

namespace SameNames

variable {L L' : List Local}

theorem length_eq (h : SameNames L L') : L.length = L'.length :=
  List.Forall₂.length_eq h

theorem slot? (h : SameNames L L') (name : String) : Body.slot? name L' = Body.slot? name L := by
  induction h with
  | nil => rfl
  | @cons l l' L L' hl h ih =>
      rw [Body.slot?, Body.slot?, ih, SameNames.length_eq (L := L) h, Body.Local.answersTo,
        Body.Local.answersTo, hl.1, hl.2]

/-- Scopes that end at the same places hold equally many locals. -/
theorem length_new {new new' : List Local} (h : SameNames (new ++ L) (new' ++ L'))
    (hL : SameNames L L') : new.length = new'.length := by
  have := h.length_eq
  have := hL.length_eq
  simp only [List.length_append] at *
  omega

end SameNames

/-! ## Layouts -/

/-- Two functions at the same place of a text, as far as names tell. -/
structure Layout.Beside (F F' : Layout) : Prop where
  kind : F'.kind = F.kind
  around : List.Forall₂ (fun E E' => SameNames E.locals E'.locals) F.around F'.around

/-- Captured variables of the same name. -/
def Layout.Shares (F F' : Layout) (n n' : Nat) : Prop :=
  ∃ name c c', name ≠ "" ∧ F.captured[n]? = some name ∧ F.captures[n]? = some c ∧
    Body.Leads name F.around c ∧ F'.captured[n']? = some name ∧ F'.captures[n']? = some c' ∧
    Body.Leads name F'.around c'

/-- Two layouts side by side, as they part at `exit`. -/
def Layout.pair (F F' : Layout) (exit : Nat → Nat → Prop) : Pairing :=
  ⟨F.code, F'.code, F.Shares F', F.kind = .script, exit⟩

/-- A script has no name in slot zero. -/
def Layout.Bottom (F : Layout) (L : List Local) : Prop :=
  F.kind = .script → ∃ new l, L = new ++ [l] ∧ l.name = ""

section Loads

variable {F F' : Layout} {L L' : List Local} {C C' : Array Chunk} {exit : Nat → Nat → Prop}
  {i i' j j' : Nat}

theorem Layout.Bottom.append (h : F.Bottom L) (new : List Local) : F.Bottom (new ++ L) := by
  intro hkind
  obtain ⟨old, l, rfl, hl⟩ := h hkind
  exact ⟨new ++ old, l, (List.append_assoc _ _ _).symm, hl⟩

theorem Layout.Bottom.length_pos (h : F.Bottom L) (hkind : F.kind = .script) : 0 < L.length := by
  obtain ⟨old, l, rfl, -⟩ := h hkind
  simp

/-- Names are not found in slot zero of a script. -/
theorem Layout.Bottom.slot_pos (h : F.Bottom L) {name : String} {slot : Nat} (hname : name ≠ "")
    (hslot : Body.slot? name L = some slot) (hkind : F.kind = .script) : 0 < slot := by
  obtain ⟨old, l, rfl, hl⟩ := h hkind
  refine Nat.pos_of_ne_zero ?_
  rintro rfl
  obtain ⟨l', hl', heq, -⟩ := Body.slot?_localAt? hslot
  have hzero : Body.localAt? (old ++ [l]) 0 = some l := by simp [Body.localAt?]
  obtain rfl := Option.some.inj (hzero.symm.trans hl')
  exact hname (heq.symm.trans hl)

/-- A name that leads to a function around it leads to one on both sides. -/
theorem leads_ne_none {name : String} {Es : List Body.Enclosing} {c : Capture}
    (h : Body.Leads name Es c) : ∃ E ∈ Es, Body.slot? name E.locals ≠ none := by
  induction h with
  | here hslot => exact ⟨_, List.mem_cons_self, by simp [hslot]⟩
  | outwards _ _ _ ih =>
      obtain ⟨E, hE, hne⟩ := ih
      exact ⟨E, List.mem_cons_of_mem _ hE, hne⟩

theorem Layout.Beside.around_none (h : F.Beside F') (name : String) :
    (∀ E ∈ F.around, Body.slot? name E.locals = none) ↔
      ∀ E ∈ F'.around, Body.slot? name E.locals = none := by
  have haround := h.around
  generalize F.around = Es, F'.around = Es' at haround
  induction haround with
  | nil => simp
  | cons hnames _ ih => simp only [List.forall_mem_cons, ih, hnames.slot? name]

/-- What a name stands for on the one side and on the other. -/
inductive SameAccess (F F' : Layout) : Access → Access → Prop where
  | local {slot} : (F.kind = .script → 0 < slot) → SameAccess F F' (.local slot) (.local slot)
  | captured {n n'} : F.Shares F' n n' → SameAccess F F' (.captured n) (.captured n')
  | global {name} : SameAccess F F' (.global name) (.global name)

theorem Layout.Beside.finds (h : F.Beside F') (hL : SameNames L L') (hbottom : F.Bottom L)
    {name : String} {p p' : Access} (hname : name ≠ "") (hp : F.Finds L name p)
    (hp' : F'.Finds L' name p') : SameAccess F F' p p' := by
  have hslot := hL.slot? name
  cases hp with
  | «local» hn =>
      cases hp' with
      | «local» hn' =>
          obtain rfl := Option.some.inj (hn.symm.trans (hslot.symm.trans hn'))
          exact .local (hbottom.slot_pos hname hn)
      | captured hnone | global hnone => exact nomatch hnone.symm.trans (hslot.trans hn)
  | captured hnone hn hc hleads =>
      cases hp' with
      | «local» hn' => exact nomatch hnone.symm.trans (hslot.symm.trans hn')
      | captured _ hn' hc' hleads' => exact .captured ⟨name, _, _, hname, hn, hc, hleads, hn', hc', hleads'⟩
      | global _ haround =>
          obtain ⟨E, hE, hne⟩ := leads_ne_none hleads
          exact absurd ((h.around_none name).mpr haround E hE) hne
  | global hnone haround =>
      cases hp' with
      | «local» hn' => exact nomatch hnone.symm.trans (hslot.symm.trans hn')
      | captured _ _ _ hleads' =>
          obtain ⟨E, hE, hne⟩ := leads_ne_none hleads'
          exact absurd ((h.around_none name).mp haround E hE) hne
      | global => exact .global

theorem SameAccess.get {p p' : Access} (h : SameAccess F F' p p') (hi : F.At i p.get j)
    (hi' : F'.At i' p'.get j') : Parallel C C' (F.pair F' exit) i i' j j' := by
  cases h with
  | «local» hslot => exact .step hi hi' fun _ h => .getLocal hslot h
  | captured hshares => exact .step hi hi' fun _ h => .getUpvalue hshares h
  | global => exact .portable hi hi' trivial

theorem SameAccess.set {p p' : Access} (h : SameAccess F F' p p') (hi : F.At i p.set j)
    (hi' : F'.At i' p'.set j') : Parallel C C' (F.pair F' exit) i i' j j' := by
  cases h with
  | «local» hslot => exact .step hi hi' fun _ h => .setLocal hslot h
  | captured hshares => exact .step hi hi' fun _ h => .setUpvalue hshares h
  | global => exact .portable hi hi' trivial

/-! ## Expressions -/

theorem parallel_pop (hi : F.At i .pop j) (hi' : F'.At i' .pop j') :
    Parallel C C' (F.pair F' exit) i i' j j' :=
  .portable hi hi' trivial

theorem parallel_jump {k k' : Nat} (hi : F.At i (.jump j) k) (hi' : F'.At i' (.jump j') k') :
    Parallel C C' (F.pair F' exit) i i' j j' :=
  .go hi hi' (.inl rfl) (.inl rfl)

theorem parallel_operates {ops : List Opcode} (h : F.Operates ops i j) (h' : F'.Operates ops i' j') :
    Parallel C C' (F.pair F' exit) i i' j j' := by
  induction ops generalizing i i' with
  | nil =>
      obtain rfl : i = j := h
      obtain rfl : i' = j' := h'
      exact .refl _ _
  | cons op ops ih =>
      obtain ⟨k, hi, h⟩ := h
      obtain ⟨k', hi', h'⟩ := h'
      exact .trans (.portable hi hi' trivial) (ih h h')

theorem parallel_loads {es : List Expr} (hF : F.Beside F') (hL : SameNames L L')
    (hbottom : F.Bottom L) (h : F.Loads L es i j) (h' : F'.Loads L' es i' j') :
    Parallel C C' (F.pair F' exit) i i' j j' := by
  have this_ne : "this" ≠ "" := by decide
  have super_ne : "super" ≠ "" := by decide
  induction h generalizing i' j' with
  | nothing =>
      cases h'
      exact .refl _ _
  | several _ _ ih ih' =>
      cases h' with
      | several h₁ h₂ => exact (ih h₁).trans (ih' h₂)
  | number hi =>
      cases h' with
      | number hi' => exact .portable hi hi' trivial
  | string hi =>
      cases h' with
      | string hi' => exact .portable hi hi' trivial
  | nil hi =>
      cases h' with
      | nil hi' => exact .portable hi hi' trivial
  | boolean hi =>
      cases h' with
      | boolean hi' => exact .portable hi hi' trivial
  | grouping _ ih =>
      cases h' with
      | grouping h' => exact ih h'
  | «variable» hid hp hi =>
      cases h' with
      | «variable» _ hp' hi' => exact (hF.finds hL hbottom hid.1 hp hp').get hi hi'
  | assign hid hp _ hi ih =>
      cases h' with
      | assign _ hp' h' hi' => exact (ih h').trans ((hF.finds hL hbottom hid.1 hp hp').set hi hi')
  | this hp hi =>
      cases h' with
      | this hp' hi' => exact (hF.finds hL hbottom this_ne hp hp').get hi hi'
  | super hp hi hq _ hi₂ hi₃ =>
      cases h' with
      | super hp' hi' hq' _ hi₂' hi₃' =>
          exact ((hF.finds hL hbottom this_ne hp hp').get hi hi').trans
            (((hF.finds hL hbottom super_ne hq hq').get hi₂ hi₂').trans (.portable hi₃ hi₃' trivial))
  | unary _ hi ih =>
      cases h' with
      | unary h' hi' => exact (ih h').trans (.portable hi hi' trivial)
  | binary _ _ hops ih ih' =>
      cases h' with
      | binary h₁ h₂ hops' => exact (ih h₁).trans ((ih' h₂).trans (parallel_operates hops hops'))
  | and _ hi hpop _ ih ih' =>
      cases h' with
      | and h₁ hi' hpop' h₂ =>
          intro n hn
          exact ih h₁ n (.branch hi hi' hn (parallel_pop hpop hpop' n (ih' h₂ n hn)))
  | or _ hi hjump hpop _ ih ih' =>
      cases h' with
      | or h₁ hi' hjump' hpop' h₂ =>
          intro n hn
          exact ih h₁ n (.branch hi hi' (parallel_pop hpop hpop' n (ih' h₂ n hn))
            (parallel_jump hjump hjump' n hn))
  | get _ hi ih =>
      cases h' with
      | get h' hi' => exact (ih h').trans (.portable hi hi' trivial)
  | set _ _ hi ih ih' =>
      cases h' with
      | set h₁ h₂ hi' => exact (ih h₁).trans ((ih' h₂).trans (.portable hi hi' trivial))
  | call hf _ _ hi ih ih' =>
      cases h' with
      | call _ h₁ h₂ hi' => exact (ih h₁).trans ((ih' h₂).trans (.portable hi hi' trivial))
      | invoke | superInvoke => cases hf
  | invoke _ _ hi ih ih' =>
      cases h' with
      | call hf => cases hf
      | invoke h₁ h₂ hi' => exact (ih h₁).trans ((ih' h₂).trans (.portable hi hi' trivial))
  | superInvoke hp hi _ hq _ hi₂ hi₃ ih =>
      cases h' with
      | call hf => cases hf
      | superInvoke hp' hi' h' hq' _ hi₂' hi₃' =>
          exact ((hF.finds hL hbottom this_ne hp hp').get hi hi').trans ((ih h').trans
            (((hF.finds hL hbottom super_ne hq hq').get hi₂ hi₂').trans (.portable hi₃ hi₃' trivial)))

end Loads

end LoxMachine
