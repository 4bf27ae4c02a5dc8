import LoxMachine.Proofs.Twin.Loads
import LoxMachine.Proofs.Typing.Runs

/-!
# Statements side by side

A `for` abbreviates a `while`; `Part.Unfolds` says that one tree is another one with some of its
loops written out. The code of the two is alike, whatever else is laid out around it: the code of a
`for` takes some jumps more, and the variables that functions capture may be numbered differently.

Main statement: `Part.Unfolds.alike`.
-/

namespace LoxMachine

open Syntax

/-! ## Loops written out -/

/-- Statements without statements inside. -/
def Syntax.Stmt.Simple : Stmt → Prop
  | .expression _ | .print _ | .assert _ | .var _ _ | .return _ => True
  | _ => False

/-- A `for` with a condition, as a `while`. -/
def Syntax.Stmt.asWhile (first : List Stmt) (c : Expr) (step : Option Expr) (s : Stmt) : Stmt :=
  .block (first ++ [.while c (.block (s :: step.toList.map .expression))])

/-- The second part is the first one with some loops written out, in the functions inside as well. -/
inductive Part.Unfolds : Part → Part → Prop where
  | nothing : Unfolds (.code []) (.code [])
  | several {s t s' t' ss ts} : Unfolds (.code [s]) (.code [t]) →
      Unfolds (.code (s' :: ss)) (.code (t' :: ts)) → Unfolds (.code (s :: s' :: ss)) (.code (t :: t' :: ts))
  | simple {s} : s.Simple → Unfolds (.code [s]) (.code [s])
  | block {ss ts} : Unfolds (.code ss) (.code ts) → Unfolds (.code [.block ss]) (.code [.block ts])
  | cond {c s t} : Unfolds (.code [s]) (.code [t]) →
      Unfolds (.code [.cond c s none]) (.code [.cond c t none])
  | condElse {c s t s' t'} : Unfolds (.code [s]) (.code [t]) → Unfolds (.code [s']) (.code [t']) →
      Unfolds (.code [.cond c s (some s')]) (.code [.cond c t (some t')])
  | while {c s t} : Unfolds (.code [s]) (.code [t]) →
      Unfolds (.code [.while c s]) (.code [.while c t])
  | for {first c step s t} : Unfolds (.code first.toList) (.code first.toList) →
      Unfolds (.code [s]) (.code [t]) →
      Unfolds (.code [.for first c step s]) (.code [.for first c step t])
  | written {first c step s t} : Unfolds (.code first.toList) (.code first.toList) →
      Unfolds (.code [s]) (.code [t]) →
      Unfolds (.code [.for first (some c) step s]) (.code [.asWhile first.toList c step t])
  | function {name parameters ss ts} : Unfolds (.code ss) (.code ts) →
      Unfolds (.code [.function ⟨name, parameters, ss⟩]) (.code [.function ⟨name, parameters, ts⟩])
  | cls {name parent fs gs} : Unfolds (.methods fs) (.methods gs) →
      Unfolds (.code [.cls name parent fs]) (.code [.cls name parent gs])
  | noMethods : Unfolds (.methods []) (.methods [])
  | methods {name parameters ss ts fs gs} : Unfolds (.code ss) (.code ts) →
      Unfolds (.methods fs) (.methods gs) →
      Unfolds (.methods (⟨name, parameters, ss⟩ :: fs)) (.methods (⟨name, parameters, ts⟩ :: gs))

/-! ## Code of both -/

section Alike

variable {rs rs' : Array Routine} {F F' : Layout} {L L' L₁ L₁' : List Local} {d d' i i' j j' : Nat}
  {exit : Nat → Nat → Prop}

/-- The code of functions. -/
abbrev codes (rs : Array Routine) : Array Chunk :=
  rs.map (·.code)

/-- Places at which code is laid out alike. -/
structure Places (F F' : Layout) (d d' : Nat) (L L' : List Local) : Prop where
  beside : F.Beside F'
  depth : d = 0 ↔ d' = 0
  names : SameNames L L'
  bottom : F.Bottom L

/-- What the code of the one part does, that of the other does as well. -/
def Part.Alike (rs rs' : Array Routine) (part part' : Part) : Prop :=
  ∀ {F F' d d' L L' i i' j j' L₁ L₁'}, Places F F' d d' L L' → Layout.Runs rs F d L part i j L₁ →
    Layout.Runs rs' F' d' L' part' i' j' L₁' →
    SameNames L₁ L₁' ∧ ∀ exit, Parallel (codes rs) (codes rs') (F.pair F' exit) i i' j j'

theorem Places.loads {e : Expr} (h : Places F F' d d' L L') (he : F.Loads L [e] i j)
    (he' : F'.Loads L' [e] i' j') :
    Parallel (codes rs) (codes rs') (F.pair F' exit) i i' j j' :=
  parallel_loads h.beside h.names h.bottom he he'

/-- Deeper inside, with some more locals. -/
theorem Places.append {e e' : Nat} (h : Places F F' d d' L L') (new : List Local)
    (hnames : SameNames (new ++ L) L₁') (hdepth : e = 0 ↔ e' = 0) :
    Places F F' e e' (new ++ L) L₁' :=
  ⟨h.beside, hdepth, hnames, h.bottom.append new⟩

/-- Behind a declaration. -/
theorem Places.cons (h : Places F F' d d' L L') (name : String) {e e' : Nat} {depth depth' : Option Nat}
    {captured captured' : Bool} (hdepth : depth'.isSome = depth.isSome) (he : e = 0 ↔ e' = 0) :
    Places F F' e e' (⟨name, depth, captured⟩ :: L) (⟨name, depth', captured'⟩ :: L') :=
  h.append [_] (List.Forall₂.cons ⟨rfl, hdepth⟩ h.names) he

theorem Places.enter (h : Places F F' d d' L L') : Places F F' (d + 1) (d' + 1) L L' :=
  h.append [] h.names (by omega)

theorem Places.declares {name : String} (h : Places F F' d d' L L') (hd : F.Declares d L name i j L₁)
    (hd' : F'.Declares d' L' name i' j' L₁') : Places F F' d d' L₁ L₁' := by
  cases hd with
  | global h0 =>
      cases hd' with
      | global => exact h
      | «local» h0' => exact absurd (h.depth.mp h0) h0'
  | «local» h0 =>
      cases hd' with
      | global h0' => exact absurd (h.depth.mpr h0') h0
      | «local» => exact h.cons name rfl h.depth

theorem Places.parallel_declares {name : String} (h : Places F F' d d' L L')
    (hd : F.Declares d L name i j L₁) (hd' : F'.Declares d' L' name i' j' L₁') :
    Parallel (codes rs) (codes rs') (F.pair F' exit) i i' j j' := by
  cases hd with
  | global h0 hi =>
      cases hd' with
      | global _ hi' => exact .portable hi hi' trivial
      | «local» h0' => exact absurd (h.depth.mp h0) h0'
  | «local» h0 =>
      cases hd' with
      | global h0' => exact absurd (h.depth.mpr h0') h0
      | «local» => exact .refl _ _

theorem parallel_drops {new new' : List Local} (hlength : new.length = new'.length)
    (h : F.Drops new i j) (h' : F'.Drops new' i' j') :
    Parallel (codes rs) (codes rs') (F.pair F' exit) i i' j j' := by
  induction new generalizing new' i i' with
  | nil =>
      obtain rfl := List.length_eq_zero_iff.mp hlength.symm
      obtain rfl : i = j := h
      obtain rfl : i' = j' := h'
      exact .refl _ _
  | cons l new ih =>
      obtain _ | ⟨l', new'⟩ := new'
      · cases hlength
      obtain ⟨k, hi, h⟩ := h
      obtain ⟨k', hi', h'⟩ := h'
      refine .trans (.step hi hi' fun _ hK => .shed ?_ ?_ hK) (ih (Nat.succ.inj hlength) h h')
      · cases l.captured <;> simp [Instr.Sheds]
      · cases l'.captured <;> simp [Instr.Sheds]

/-- The class that is being declared is read alike. -/
theorem Places.own {name : String} (h : Places F F' d d' L L')
    (hi : F.At i (Layout.ownAccess d L name).get j)
    (hi' : F'.At i' (Layout.ownAccess d' L' name).get j') :
    Parallel (codes rs) (codes rs') (F.pair F' exit) i i' j j' := by
  rw [Layout.ownAccess] at hi hi'
  by_cases h0 : d = 0
  · rw [if_pos h0] at hi
    rw [if_pos (h.depth.mp h0)] at hi'
    exact SameAccess.global.get hi hi'
  · rw [if_neg h0] at hi
    rw [if_neg (mt h.depth.mpr h0), ← h.names.length_eq] at hi'
    exact (SameAccess.local h.bottom.length_pos).get hi hi'

/-- Both return nothing, or both their receiver. -/
theorem resembles_return {k k' : Nat} (hbeside : F.Beside F') (hscript : F.kind ≠ .script)
    (hi : F.At i (Layout.implicitResult F.kind) j) (hret : F.At j .ret k)
    (hi' : F'.At i' (Layout.implicitResult F'.kind) j') (hret' : F'.At j' .ret k') (n : Nat) :
    Resembles (codes rs) (codes rs') n (F.pair F' exit) i i' := by
  rw [hbeside.kind] at hi'
  have hanswer : Resembles (codes rs) (codes rs') n (F.pair F' exit) j j' :=
    Resembles.ret (P := F.pair F' exit) hscript hret hret' n
  refine Parallel.step (P := F.pair F' exit) hi hi' (fun _ h => ?_) n hanswer
  cases hkind : F.kind with
  | initializer => exact .getLocal (fun h => absurd h hscript) h
  | script | function | method => exact .portable trivial h

/-! ## Loops -/

theorem parallel_test {c : Expr} {n exit₁ exit₁' : Nat} (h : Places F F' d d' L L')
    (ht : F.LoopTest L exit₁ (some c) i j) (ht' : F'.LoopTest L' exit₁' (some c) i' j')
    (hexit : Resembles (codes rs) (codes rs') n (F.pair F' exit) exit₁ exit₁')
    (hj : Resembles (codes rs) (codes rs') n (F.pair F' exit) j j') :
    Resembles (codes rs) (codes rs') n (F.pair F' exit) i i' := by
  cases ht with
  | some hc hi hpop =>
      cases ht' with
      | some hc' hi' hpop' =>
          exact h.loads hc hc' n (.branch hi hi' hexit (parallel_pop hpop hpop' n hj))

/-- Loops with bodies that are alike. -/
theorem parallel_loop {c step : Option Expr}
    {test body next m exit₁ test' body' next' m' exit₁' : Nat} (h : Places F F' d d' L L')
    (htest : F.LoopTest L exit₁ c i test) (htest' : F'.LoopTest L' exit₁' c i' test')
    (hstep : F.LoopStep L i step test body next) (hstep' : F'.LoopStep L' i' step test' body' next')
    (hbody : Parallel (codes rs) (codes rs') (F.pair F' exit) body body' m m')
    (hloop : F.At m (.loop next) exit₁) (hloop' : F'.At m' (.loop next') exit₁')
    (hend : F.LoopEnd c exit₁ j) (hend' : F'.LoopEnd c exit₁' j') :
    Parallel (codes rs) (codes rs') (F.pair F' exit) i i' j j' := by
  intro n hn
  -- Each round takes at least the jump back.
  induction n with
  | zero => trivial
  | succ n ih =>
      have hstart := ih hn.succ
      have hback {k k' l l' : Nat} (hk : F.At k (.loop i) l) (hk' : F'.At k' (.loop i') l') :
          Resembles (codes rs) (codes rs') (n + 1) (F.pair F' exit) k k' :=
        .of_next ⟨_, _, l, l', hk, hk', .go (.inr rfl) (.inr rfl) hstart⟩
      have hagain : Resembles (codes rs) (codes rs') (n + 1) (F.pair F' exit) test test' := by
        cases hstep with
        | none =>
            cases hstep' with
            | none => exact hbody _ (hback hloop hloop')
        | some hjump he hpop hloop₁ =>
            cases hstep' with
            | some hjump' he' hpop' hloop₁' =>
                refine parallel_jump hjump hjump' _ (hbody _ ?_)
                refine Parallel.go (P := F.pair F' exit) hloop hloop' (.inr rfl) (.inr rfl) _ ?_
                exact h.loads he he' _ (parallel_pop hpop hpop' _ (hback hloop₁ hloop₁'))
      cases c with
      | none =>
          cases htest
          cases htest'
          exact hagain
      | some c => exact parallel_test h htest htest' (parallel_pop hend hend' _ hn) hagain

/-- A loop whose step stands before its body, and one whose step stands behind it. -/
theorem parallel_written {c : Expr} {step : Option Expr}
    {test body next m exit₁ body' m' l' exit₁' : Nat} (h : Places F F' d d' L L')
    (htest : F.LoopTest L exit₁ (some c) i test) (htest' : F'.LoopTest L' exit₁' (some c) i' body')
    (hstep : F.LoopStep L i step test body next)
    (hbody : Parallel (codes rs) (codes rs') (F.pair F' exit) body body' m m')
    (hloop : F.At m (.loop next) exit₁)
    (hstep' : step.elim (m' = l') fun e => ∃ k, F'.Loads L' [e] m' k ∧ F'.At k .pop l')
    (hloop' : F'.At l' (.loop i') exit₁') (hend : F.At exit₁ .pop j) (hend' : F'.At exit₁' .pop j') :
    Parallel (codes rs) (codes rs') (F.pair F' exit) i i' j j' := by
  intro n hn
  induction n with
  | zero => trivial
  | succ n ih =>
      have hback {k l : Nat} (hk : F.At k (.loop i) l) :
          Resembles (codes rs) (codes rs') (n + 1) (F.pair F' exit) k l' :=
        .of_next ⟨_, _, l, exit₁', hk, hloop', .go (.inr rfl) (.inr rfl) (ih hn.succ)⟩
      refine parallel_test h htest htest' (parallel_pop hend hend' _ hn) ?_
      cases hstep with
      | none =>
          obtain rfl : m' = l' := hstep'
          exact hbody _ (hback hloop)
      | some hjump he hpop hloop₁ =>
          obtain ⟨k', he', hpop'⟩ := hstep'
          -- The jump over the step is taken on the left only, and so is the one back to it.
          refine Parallel.skip (P := F.pair F' exit) (.step .refl hjump (.inl rfl)) .refl _ (hbody _ ?_)
          refine Parallel.skip (P := F.pair F' exit) (.step .refl hloop (.inr rfl)) .refl _ ?_
          exact h.loads he he' _ (parallel_pop hpop hpop' _ (hback hloop₁))

/-! ## Functions -/

theorem sameNames_parameters {kind : BodyKind} {names : List String}
    (h : Layout.Parameters kind names L) (h' : Layout.Parameters kind names L') : SameNames L L' := by
  induction h generalizing L' with
  | nil =>
      generalize hnames : ([] : List String) = names at h'
      cases h' with
      | nil => exact List.Forall₂.cons ⟨rfl, rfl⟩ List.Forall₂.nil
      | snoc => simp at hnames
  | @snoc names name _ _ _ _ ih =>
      generalize hnames : names ++ [name] = all at h'
      cases h' with
      | nil => simp at hnames
      | snoc _ h' =>
          obtain ⟨rfl, heq⟩ := List.append_inj' hnames rfl
          obtain rfl := List.singleton_inj.mp heq
          exact List.Forall₂.cons ⟨rfl, rfl⟩ (ih h')

theorem captures_shared {G G' : Layout} (h : Places F F' d d' L L')
    (haround : G.around = ⟨L, F.captures⟩ :: F.around)
    (haround' : G'.around = ⟨L', F'.captures⟩ :: F'.around)
    (hcs : List.Forall₂ (F.Captures L) G.captures G.captured)
    (hcs' : List.Forall₂ (F'.Captures L') G'.captures G'.captured) (exit' : Nat → Nat → Prop) :
    (F.pair F' exit).Captures (G.pair G' exit') G.captures G'.captures := by
  rintro n n' ⟨name, c, c', hname, hn, hc, hleads, hn', hc', hleads'⟩
  refine ⟨c, c', hc, hc', ?_⟩
  have hcapture : F.Captures L c name := by
    obtain ⟨name₁, hn₁, hcapture⟩ := forall₂_getElem? hcs hc
    rwa [Option.some.inj (hn.symm.trans hn₁)]
  have hcapture' : F'.Captures L' c' name := by
    obtain ⟨name₁, hn₁, hcapture'⟩ := forall₂_getElem? hcs' hc'
    rwa [Option.some.inj (hn'.symm.trans hn₁)]
  have hslots := h.names.slot? name
  rw [haround] at hleads
  rw [haround'] at hleads'
  cases hleads with
  | here hslot =>
      cases hleads' with
      | here hslot' =>
          obtain rfl := Option.some.inj (hslot.symm.trans (hslots.symm.trans hslot'))
          exact .local (h.bottom.slot_pos hname hslot)
      | outwards hnone => exact nomatch hnone.symm.trans (hslots.trans hslot)
  | outwards hnone hc₁ hleads =>
      cases hleads' with
      | here hslot' => exact nomatch hnone.symm.trans (hslots.symm.trans hslot')
      | outwards _ hc₁' hleads' =>
          rw [Layout.Captures, if_neg (by simp)] at hcapture hcapture'
          exact .outer ⟨name, _, _, hname, hcapture, hc₁, hleads, hcapture', hc₁', hleads'⟩

/-- Functions whose bodies are alike are made alike. -/
theorem parallel_closure {name : String} {parameters : List String} {ss ts : List Stmt}
    {kind : BodyKind} (hbody : Part.Alike rs rs' (.code ss) (.code ts)) (hkind : kind ≠ .script)
    (h : Places F F' d d' L L') (hf : Layout.Runs rs F d L (.closure ⟨name, parameters, ss⟩ kind) i j L₁)
    (hf' : Layout.Runs rs' F' d' L' (.closure ⟨name, parameters, ts⟩ kind) i' j' L₁') :
    Parallel (codes rs) (codes rs') (F.pair F' exit) i i' j j' := by
  cases hf with
  | @closure _ G _ _ _ _ g _ _ _ _ _ _ hG haround hi hname harity hcs hroutine hparams hruns hresult hret =>
  cases hf' with
  | @closure _ G' _ _ _ _ g' _ _ _ _ _ _ hG' haround' hi' hname' harity' hcs' hroutine' hparams' hruns'
      hresult' hret' =>
  have hscript : G.kind ≠ .script := by rwa [hG]
  have hplaces : Places G G' 1 1 _ _ := {
    beside := ⟨hG'.trans hG.symm, by
      rw [haround, haround']
      exact .cons h.names h.beside.around⟩
    depth := Iff.rfl
    names := sameNames_parameters hparams hparams'
    bottom := fun hk => absurd hk hscript }
  have hstart (n : Nat) :
      Resembles (codes rs) (codes rs') n (G.pair G' fun _ _ => False) 0 0 := by
    rw [← hG] at hresult
    rw [← hG'] at hresult'
    exact (hbody hplaces hruns hruns').2 _ n
      (resembles_return hplaces.beside hscript hresult hret hresult' hret' n)
  have hcode : (codes rs)[g.index]? = some (G.pair G' fun _ _ => False).left := by
    rw [Array.getElem?_map, hroutine]
    rfl
  have hcode' : (codes rs')[g'.index]? = some (G.pair G' fun _ _ => False).right := by
    rw [Array.getElem?_map, hroutine']
    rfl
  rintro (_ | n) hn
  · trivial
  · exact .of_next ⟨_, _, _, _, hi, hi', .closure (hname.trans hname'.symm) (harity.trans harity'.symm)
      hscript hcode hcode' (hstart n) (captures_shared h haround haround' hcs hcs' _) hn.succ⟩

/-! ## Statements -/

theorem Places.after {part : Part} (h : Places F F' d d' L L') (hruns : Layout.Runs rs F d L part i j L₁)
    (hnames : SameNames L₁ L₁') : Places F F' d d' L₁ L₁' := by
  obtain ⟨new, rfl, -⟩ := Runs.extends hruns
  exact h.append new hnames h.depth

theorem alike_simple {s : Stmt} (hs : s.Simple) : Part.Alike rs rs' (.code [s]) (.code [s]) := by
  intro F F' d d' L L' i i' j j' L₁ L₁' h hruns hruns'
  cases s with
  | expression e =>
      cases hruns with | expression he hpop =>
      cases hruns' with | expression he' hpop' =>
      exact ⟨h.names, fun _ => (h.loads he he').trans (parallel_pop hpop hpop')⟩
  | print e =>
      cases hruns with | print he hi =>
      cases hruns' with | print he' hi' =>
      exact ⟨h.names, fun _ => (h.loads he he').trans (.portable hi hi' trivial)⟩
  | assert e =>
      cases hruns with | assert he hi =>
      cases hruns' with | assert he' hi' =>
      exact ⟨h.names, fun _ => (h.loads he he').trans (.portable hi hi' trivial)⟩
  | var name value =>
      cases hruns with
      | var _ hi hd =>
          cases hruns' with | var _ hi' hd' =>
          exact ⟨(h.declares hd hd').names, fun _ =>
            .trans (.portable hi hi' trivial) (h.parallel_declares hd hd')⟩
      | varGlobal _ h0 he hi =>
          cases hruns' with
          | varGlobal _ _ he' hi' =>
              exact ⟨h.names, fun _ => (h.loads he he').trans (.portable hi hi' trivial)⟩
          | varLocal _ h0' => exact absurd (h.depth.mp h0) h0'
      | varLocal _ h0 he =>
          cases hruns' with
          | varGlobal _ h0' => exact absurd (h.depth.mpr h0') h0
          | varLocal _ _ he' =>
              exact ⟨List.Forall₂.cons ⟨rfl, rfl⟩ h.names, fun _ =>
                Places.loads (h.cons name (by rfl) h.depth) he he'⟩
  | «return» value =>
      cases hruns with
      | «return» hscript hi hret =>
          cases hruns' with | «return» _ hi' hret' =>
          exact ⟨h.names, fun _ n _ => resembles_return h.beside hscript hi hret hi' hret' n⟩
      | returnValue hscript he hret =>
          cases hruns' with | returnValue _ he' hret' =>
          exact ⟨h.names, fun exit n _ => h.loads he he' n
            (Resembles.ret (P := Layout.pair F F' exit) hscript hret hret' n)⟩
  | _ => exact hs.elim

theorem alike_cls {name : String} {parent : Option String} {fs gs : List (Fun Stmt)}
    (hmethods : Part.Alike rs rs' (.methods fs) (.methods gs)) :
    Part.Alike rs rs' (.code [.cls name parent fs]) (.code [.cls name parent gs]) := by
  intro F F' d d' L L' i i' j j' L₁ L₁' h hruns hruns'
  cases hruns with
  | cls _ hi hd hown hfs hpop =>
      cases hruns' with | cls _ hi' hd' hown' hgs hpop' =>
      refine ⟨(h.declares hd hd').names, fun exit => ?_⟩
      refine Parallel.trans (.portable hi hi' trivial) ((h.parallel_declares hd hd').trans ?_)
      exact (h.own hown hown').trans (((hmethods (h.declares hd hd') hfs hgs).2 exit).trans
        (parallel_pop hpop hpop'))
  | @subclass _ _ _ _ _ captured _ _ _ _ _ _ _ _ _ _ _ _ _ _ hi hd hid hp hparent hown hinherit hown₂ hfs
      hpop hdrops =>
      cases hruns' with
      | @subclass _ _ _ _ _ captured' _ _ _ _ _ _ _ _ _ _ _ _ _ _ hi' hd' _ hp' hparent' hown'
          hinherit' hown₂' hgs hpop' hdrops' =>
      have hdeclared := h.declares hd hd'
      have hinside : Places F F' (d + 1) (d' + 1) (⟨"super", some (d + 1), captured⟩ :: _)
          (⟨"super", some (d' + 1), captured'⟩ :: _) := hdeclared.cons "super" rfl (by omega)
      have hfound := hdeclared.beside.finds hdeclared.names hdeclared.bottom hid.1 hp hp'
      refine ⟨hdeclared.names, fun exit => ?_⟩
      refine Parallel.trans (.portable hi hi' trivial) ((h.parallel_declares hd hd').trans ?_)
      refine (hfound.get hparent hparent').trans ((h.own hown hown').trans ?_)
      refine Parallel.trans (.portable hinherit hinherit' trivial) ((h.own hown₂ hown₂').trans ?_)
      exact ((hmethods hinside hfs hgs).2 exit).trans ((parallel_pop hpop hpop').trans
        (parallel_drops (by rfl) hdrops hdrops'))

theorem runs_append {ss ts : List Stmt} (h : Layout.Runs rs F d L (.code (ss ++ ts)) i j L₁) :
    ∃ k L₂, Layout.Runs rs F d L (.code ss) i k L₂ ∧ Layout.Runs rs F d L₂ (.code ts) k j L₁ := by
  induction ss generalizing i L with
  | nil => exact ⟨i, L, .nothing, h⟩
  | cons s ss ih =>
      cases hss : ss ++ ts with
      | nil =>
          obtain ⟨rfl, rfl⟩ := List.append_eq_nil_iff.mp hss
          exact ⟨j, L₁, h, .nothing⟩
      | cons t us =>
          rw [List.cons_append, hss] at h
          cases h with
          | several h₁ h₂ =>
              rw [← hss] at h₂
              obtain ⟨k, L₂, h₂, h₃⟩ := ih h₂
              exact ⟨k, L₂, h₁.cons h₂, h₃⟩

theorem runs_step {step : Option Expr}
    (h : Layout.Runs rs F d L (.code (step.toList.map .expression)) i j L₁) :
    L₁ = L ∧ step.elim (i = j) fun e => ∃ k, F.Loads L [e] i k ∧ F.At k .pop j := by
  cases step with
  | none =>
      cases h
      exact ⟨rfl, rfl⟩
  | some e =>
      cases h with
      | expression he hpop => exact ⟨rfl, _, he, hpop⟩

theorem alike_for {first : Option Stmt} {c step : Option Expr} {s t : Stmt}
    (hfirst : Part.Alike rs rs' (.code first.toList) (.code first.toList))
    (hbody : Part.Alike rs rs' (.code [s]) (.code [t])) :
    Part.Alike rs rs' (.code [.for first c step s]) (.code [.for first c step t]) := by
  intro F F' d d' L L' i i' j j' L₁ L₁' h hruns hruns'
  cases hruns with | «for» h₁ htest hstep hs hloop hend hdrops =>
  cases hruns' with | «for» h₁' htest' hstep' ht hloop' hend' hdrops' =>
  obtain ⟨hnames, hbegin⟩ := hfirst h.enter h₁ h₁'
  have hinside := h.enter.after h₁ hnames
  refine ⟨h.names, fun exit => (hbegin exit).trans (Parallel.trans ?_
    (parallel_drops (hnames.length_new h.names) hdrops hdrops'))⟩
  exact parallel_loop hinside htest htest' hstep hstep' ((hbody hinside hs ht).2 exit) hloop hloop' hend hend'

/-- A `for` does what it abbreviates. -/
theorem alike_written {first : Option Stmt} {c : Expr} {step : Option Expr} {s t : Stmt}
    (hfirst : Part.Alike rs rs' (.code first.toList) (.code first.toList))
    (hbody : Part.Alike rs rs' (.code [s]) (.code [t])) :
    Part.Alike rs rs' (.code [.for first (some c) step s]) (.code [.asWhile first.toList c step t]) := by
  intro F F' d d' L L' i i' j j' L₁ L₁' h hruns hruns'
  cases hruns with | «for» h₁ htest hstep hs hloop hend hdrops =>
  cases hruns' with | @block _ _ _ _ outer _ _ _ hruns' hdrops' =>
  obtain ⟨k, L₂, h₁', hruns'⟩ := runs_append hruns'
  obtain ⟨hnames, hbegin⟩ := hfirst h.enter h₁ h₁'
  have hinside := h.enter.after h₁ hnames
  cases hruns' with | «while» hc' hi' hpop' hruns' hloop' hend' =>
  cases hruns' with | @block _ _ _ _ new _ _ _ hruns' hdrops₂' =>
  rw [← List.singleton_append] at hruns'
  obtain ⟨k', L₃, ht, hruns'⟩ := runs_append hruns'
  obtain ⟨hnames', hround⟩ := hbody (hinside.append [] hinside.names (by omega)) hs ht
  -- The step declares nothing, and so the body does neither.
  obtain ⟨rfl, hstep'⟩ := runs_step hruns'
  have hlength : ([] : List Local).length = new.length := SameNames.length_new hnames' hnames
  obtain rfl : new = [] := List.length_eq_zero_iff.mp hlength.symm
  obtain rfl := hdrops₂'
  refine ⟨h.names, fun exit => (hbegin exit).trans (Parallel.trans ?_
    (parallel_drops (hnames.length_new h.names) hdrops hdrops'))⟩
  exact parallel_written hinside htest (.some hc' hi' hpop') hstep (hround exit) hloop hstep' hloop' hend hend'

/-- Writing loops out changes nothing in what the code does. -/
theorem Part.Unfolds.alike {part part' : Part} (h : part.Unfolds part') : Part.Alike rs rs' part part' := by
  induction h with
  | nothing =>
      intro F F' d d' L L' i i' j j' L₁ L₁' h hruns hruns'
      cases hruns
      cases hruns'
      exact ⟨h.names, fun _ => .refl _ _⟩
  | several _ _ ih ih' =>
      intro F F' d d' L L' i i' j j' L₁ L₁' h hruns hruns'
      cases hruns with | several h₁ h₂ =>
      cases hruns' with | several h₁' h₂' =>
      obtain ⟨hnames, hbegin⟩ := ih h h₁ h₁'
      obtain ⟨hnames', hrest⟩ := ih' (h.after h₁ hnames) h₂ h₂'
      exact ⟨hnames', fun exit => (hbegin exit).trans (hrest exit)⟩
  | simple hs => exact alike_simple hs
  | block _ ih =>
      intro F F' d d' L L' i i' j j' L₁ L₁' h hruns hruns'
      cases hruns with | block hruns hdrops =>
      cases hruns' with | block hruns' hdrops' =>
      obtain ⟨hnames, hinside⟩ := ih h.enter hruns hruns'
      exact ⟨h.names, fun exit => (hinside exit).trans
        (parallel_drops (hnames.length_new h.names) hdrops hdrops')⟩
  | cond _ ih =>
      intro F F' d d' L L' i i' j j' L₁ L₁' h hruns hruns'
      cases hruns with | cond hc hi hpop hyes hjump hpop₂ =>
      cases hruns' with | cond hc' hi' hpop' hyes' hjump' hpop₂' =>
      refine ⟨h.names, fun exit n hn => h.loads hc hc' n (.branch hi hi' ?_ ?_)⟩
      · exact parallel_pop hpop₂ hpop₂' n hn
      · exact parallel_pop hpop hpop' n ((ih h hyes hyes').2 exit n (parallel_jump hjump hjump' n hn))
  | condElse _ _ ih ih' =>
      intro F F' d d' L L' i i' j j' L₁ L₁' h hruns hruns'
      cases hruns with | condElse hc hi hpop hyes hjump hpop₂ hno =>
      cases hruns' with | condElse hc' hi' hpop' hyes' hjump' hpop₂' hno' =>
      refine ⟨h.names, fun exit n hn => h.loads hc hc' n (.branch hi hi' ?_ ?_)⟩
      · exact parallel_pop hpop₂ hpop₂' n ((ih' h hno hno').2 exit n hn)
      · exact parallel_pop hpop hpop' n ((ih h hyes hyes').2 exit n (parallel_jump hjump hjump' n hn))
  | «while» _ ih =>
      intro F F' d d' L L' i i' j j' L₁ L₁' h hruns hruns'
      cases hruns with | «while» hc hi hpop hs hloop hend =>
      cases hruns' with | «while» hc' hi' hpop' hs' hloop' hend' =>
      exact ⟨h.names, fun exit => parallel_loop (c := some _) h (.some hc hi hpop) (.some hc' hi' hpop') .none
        .none ((ih h hs hs').2 exit) hloop hloop' hend hend'⟩
  | «for» _ _ ih ih' => exact alike_for ih ih'
  | written _ _ ih ih' => exact alike_written ih ih'
  | function _ ih =>
      intro F F' d d' L L' i i' j j' L₁ L₁' h hruns hruns'
      cases hruns with
      | functionGlobal _ h0 hf hi =>
          cases hruns' with
          | functionGlobal _ _ hf' hi' =>
              exact ⟨h.names, fun _ => (parallel_closure ih (by simp) h hf hf').trans (.portable hi hi' trivial)⟩
          | functionLocal _ h0' => exact absurd (h.depth.mp h0) h0'
      | functionLocal _ h0 hf =>
          cases hruns' with
          | functionGlobal _ h0' => exact absurd (h.depth.mpr h0') h0
          | functionLocal _ _ hf' =>
              exact ⟨List.Forall₂.cons ⟨rfl, rfl⟩ h.names, fun _ =>
                parallel_closure ih (by simp) (h.cons _ (by rfl) h.depth) hf hf'⟩
  | cls _ ih => exact alike_cls ih
  | noMethods =>
      intro F F' d d' L L' i i' j j' L₁ L₁' h hruns hruns'
      cases hruns
      cases hruns'
      exact ⟨h.names, fun _ => .refl _ _⟩
  | methods _ _ ih ih' =>
      intro F F' d d' L L' i i' j j' L₁ L₁' h hruns hruns'
      cases hruns with | methods hf hi hfs =>
      cases hruns' with | methods hf' hi' hfs' =>
      have hkind (name : String) : methodKind name ≠ .script := by
        rw [methodKind]
        split <;> simp
      exact ⟨h.names, fun exit => (parallel_closure ih (hkind _) h hf hf').trans
        (Parallel.trans (.portable hi hi' trivial) ((ih' h hfs hfs').2 exit))⟩

end Alike

end LoxMachine
