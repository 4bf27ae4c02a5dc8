import LoxMachine.Proofs.Compile.Functions

/-!
# Accepted classes and declarations

A class is on the stack while its methods are attached to it. One with a superclass is compiled in a
scope of its own, whose only variable is the superclass.

Main statement: `parts_spec`, the parsers for statements and declarations compile what they read.
-/

namespace LoxMachine

open Syntax (IsIdentifier)

/-! ## The access to the class -/

namespace Layout

variable {F : Layout} {L L' : List Local} {name : String} {a : Access} {d i j : Nat}

theorem slot?_cons_self (name : String) (d : Nat) (captured : Bool) (L : List Local) :
    Body.slot? name (⟨name, some d, captured⟩ :: L) = some L.length := by
  simp [Body.slot?, Body.Local.answersTo]

theorem slot?_cons_of_ne {l : Local} (h : l.name ≠ name) :
    Body.slot? name (l :: L) = Body.slot? name L := by
  simp [Body.slot?, Body.Local.answersTo, h]

theorem Finds.eq_local {n : Nat} (h : F.Finds L name a) (hslot : Body.slot? name L = some n) :
    a = .local n := by
  cases h with
  | «local» h => rw [Option.some.inj (h.symm.trans hslot)]
  | captured h => cases h.symm.trans hslot
  | global h => cases h.symm.trans hslot

/-- The name of a class that has just been declared stands for it. -/
theorem Declares.own (h : F.Declares d L name i j L') (ha : F.Finds L' name a)
    (hglobal : d = 0 → a = .global name) : a = ownAccess d L name := by
  cases h with
  | global h0 _ => rw [ownAccess, if_pos h0, hglobal h0]
  | «local» hd => rw [ownAccess, if_neg hd, ha.eq_local (slot?_cons_self ..)]

/-- The same within the scope of its superclass. -/
theorem Declares.ownInside {l : Local} (h : F.Declares d L name i j L')
    (ha : F.Finds (l :: L') name a) (hl : l.name ≠ name) (hglobal : d = 0 → a = .global name) :
    a = ownAccess d L name := by
  cases h with
  | global h0 _ => rw [ownAccess, if_pos h0, hglobal h0]
  | «local» hd =>
      rw [ownAccess, if_neg hd, ha.eq_local ((slot?_cons_of_ne hl).trans (slot?_cons_self ..))]

end Layout

namespace Builder

/-- The open classes have nothing to do with the code. -/
theorem Does.classes {s s' : Builder} {ts : List Token} {P : Deed} (h : Does s ts s' P)
    (cs : List Bool) : Does { s with classes := cs } ts { s' with classes := cs } P :=
  ⟨{ h.steps with classes := rfl }, h.declared, fun hc hi =>
    h.code ⟨hc.code, hc.captured, hc.captures, hc.around, hc.kind, hc.locals, hc.routines⟩ hi⟩

end Builder

namespace Statement

open Builder Syntax
open Expression (length_reads ne_eof)

/-- The methods of a class and its end. -/
def members (parts : Parts) (name : String) : Build Unit := do
  readNamed name
  expect .classOpen
  repeatWhile insideBraces (method parts) parts.bound
  expect .classClose
  emit .pop
  let hasSuperclass := (← get).classes.head?.getD false
  modify fun s => { s with classes := s.classes.tail }
  if hasSuperclass then endScope

theorem classDeclaration_eq (parts : Parts) : classDeclaration parts = (do
    expect .className
    let name ← lastText
    let constant ← nameConstant name
    declareVariable
    emitWith .makeClass constant
    defineVariable constant
    modify fun s => { s with classes := false :: s.classes }
    if ← accept .less then superclass name
    members parts name) :=
  rfl

section Rules

variable {n : Nat} {parts : Parts} [Keeps parts.expression] [Keeps parts.statement]
  [Keeps parts.declaration] (hparts : PartsSpec n parts) {s s₁ s' : Builder} {u : Unit}

set_option synthInstance.maxSize 4096

instance (name : String) : Keeps (members parts name) := by
  unfold members
  infer_instance

/-- The name of a class, up to its variable. -/
theorem makeClass_spec {s₂ s₃ s₄ s₅ : Builder} {k : Nat} {v w : Unit}
    (hident : s.current.kind = .identifier) (hr : s.Reads s₁)
    (h₂ : Accepts (nameConstant s.current.text) s₁ k s₂) (h₃ : Accepts declareVariable s₂ u s₃)
    (h₄ : Accepts (emitWith .makeClass k) s₃ v s₄) (h₅ : Accepts (defineVariable k) s₄ w s₅) :
    Does s [s.current] s₅ fun _ F L i j L' => ∃ l, F.At i (.makeClass s.current.text) l ∧
      F.Declares s.body.depth L s.current.text l j L' := by
  have hp := Accepts.of_nameConstant h₂
  have hquiet := (hr.quiet (ne_eof hident nofun)).trans hp.quiet
  have hdepth := hquiet.steps.depth
  have hprevious : s₂.previous = s.current := by rw [hp.eq, ← hr.previous]; rfl
  rcases Accepts.of_declareVariable h₃ with ⟨h0, rfl⟩ | ⟨h0, rfl⟩
  · have hmake := Accepts.of_emitName .makeClass h₄ hp.constant fun _ _ => rfl
    rcases Accepts.of_defineVariable h₅ with ⟨-, h₆⟩ | ⟨hne, -⟩
    · have hconst := (hmake.steps 0).agree.constant? _ _ hp.constant
      have hdefine := Accepts.of_emitName .defineGlobal h₆ hconst fun _ _ => rfl
      refine (hquiet.does (hmake.adds.trans hdefine.adds).does).map ?_
      rintro routines F L i j L' ⟨rfl, l, hi, hi'⟩
      exact ⟨l, hi, .global (hdepth ▸ h0) hi'⟩
    · exact absurd ((hmake.steps 0).depth.trans h0) hne
  · have hmake := Accepts.of_emitName .makeClass h₄ hp.constant fun _ _ => rfl
    rw [hprevious] at h₄ hmake
    rcases Accepts.of_defineVariable h₅ with ⟨h0', -⟩ | ⟨-, rfl⟩
    · exact absurd ((hmake.steps 0).depth.symm.trans h0') h0
    · refine (hquiet.does (hmake.adds.declares h0)).map ?_
      rintro routines F L i j L' ⟨captured, rfl, hi⟩
      rw [hdepth]
      exact ⟨j, hi, .local (hdepth ▸ h0)⟩

include hparts

/-- The methods of a class, from the reading of the class on; its scope may end behind them. -/
theorem members_spec {name : String} (hsuper : s.SuperKnown) (hn : s.rest.length ≤ n)
    (h : Accepts (members parts name) s u s') :
    ∃ a fs l ts r s₁ s₂, Fetches s name a s₁ ∧ Does s (l :: ts ++ [r]) s₂ (fun routines F L i j L' =>
      L' = L ∧ F.Finds L name a ∧ ∃ m n, F.At i a.get m ∧
        Layout.Runs routines F s.body.depth L (.methods fs) m n L ∧ F.At n .pop j) ∧
      s₂.body.locals.length = s.body.locals.length ∧ Derives (.methods fs) ts ∧
      l.kind = .leftBrace ∧ r.kind = .rightBrace ∧
      Accepts (if s.classes.head?.getD false then endScope else pure ())
        { s₂ with classes := s.classes.tail } u s' := by
  obtain ⟨_, s₁, h₁, hrun⟩ := h.bind
  obtain ⟨_, s₂, h₂, hrun⟩ := hrun.bind
  obtain ⟨_, s₃, h₃, hrun⟩ := hrun.bind
  obtain ⟨_, s₄, h₄, hrun⟩ := hrun.bind
  obtain ⟨_, s₅, h₅, hrun⟩ := hrun.bind
  obtain ⟨_, s₆, h₆, hend⟩ := hrun.get_bind.bind
  obtain ⟨a, hf⟩ := Accepts.of_readNamed h₁
  obtain ⟨hopen, hr⟩ := Accepts.of_expect h₂
  obtain ⟨hclose, hr'⟩ := Accepts.of_expect h₄
  have hget := hf.adds.quiet (hr.quiet (ne_eof hopen nofun))
  have hlen := hget.steps.length_rest
  obtain ⟨fs, ts, hdoes, hsame, hd⟩ :=
    methods_spec hparts (hget.steps.superKnown hsuper) (by omega) h₃
  have hpop := Accepts.of_emit .pop h₅ fun _ _ => rfl
  have hquiet' := hr'.quiet (ne_eof hclose nofun)
  rw [hget.steps.depth] at hdoes
  have hall := hget.does.trans ((hdoes.quiet hquiet').trans hpop.adds.does)
  have hclasses := hall.steps.classes
  obtain rfl := Accepts.of_modify h₆
  rw [hclasses] at hend
  refine ⟨a, fs, s₁.current, ts, s₃.current, s₁, s₅, hf, ?_, ?_, hd, hopen, hclose, hend⟩
  · have := hall.map (Q := fun routines F L i j L' => L' = L ∧ F.Finds L name a ∧ ∃ m n, F.At i a.get m ∧
      Layout.Runs routines F s.body.depth L (.methods fs) m n L ∧ F.At n .pop j) <| by
      rintro routines F L i j L' ⟨m, L₁, ⟨rfl, hfind, hi⟩, k, L₂, ⟨rfl, hruns⟩, rfl, hpop⟩
      exact ⟨rfl, hfind, m, k, hi, hruns, hpop⟩
    simpa using this
  · rw [hpop.locals, hquiet'.locals, hsame, hget.locals]

omit hparts in
/-- The code that lets a class inherit from the superclass in the newest slot, and attaches its
methods. -/
def Inherits (d : Nat) (name : String) (a a' : Access) (fs : List (Fun Stmt)) (routines : Array Routine)
    (F : Layout) (L : List Local) (i j : Nat) : Prop :=
  F.Finds L name a ∧ F.Finds L name a' ∧ ∃ k l m n, F.At i a.get k ∧ F.At k .inherit l ∧
    F.At l a'.get m ∧ Layout.Runs routines F (d + 1) L (.methods fs) m n L ∧ F.At n .pop j

omit hparts in
/-- The code that reads a superclass and lets a class inherit from it, in the scope of the
superclass from `s₂` on. -/
theorem superclass_spec {name : String} (h : Accepts (superclass name) s u s') :
    ∃ p a s₂ s₃ s₄, s.current.kind = .identifier ∧ IsIdentifier s.current.text ∧
      Adds s [s.current] s₂ (fun F L i j => F.Finds L s.current.text p ∧ F.At i p.get j) ∧
      Fetches (s₂.inScope.declare "super").initialized name a s₃ ∧ Emits s₃ .inherit s₄ ∧
      s' = { s₄ with classes := true :: s₄.classes.tail } := by
  obtain ⟨_, s₁, h₁, hrun⟩ := h.bind
  obtain ⟨text, s₁', h₂, hrun⟩ := hrun.bind
  obtain ⟨_, s₂, h₃, hrun⟩ := hrun.bind
  obtain ⟨text', s₂', h₄, hrun⟩ := hrun.bind
  obtain ⟨hident, hr⟩ := Accepts.of_expect h₁
  have hid' := (h.sound.proper s.current (by simp)).identifier hident
  obtain ⟨rfl, rfl⟩ := Accepts.of_lastText h₂
  obtain ⟨rfl, rfl⟩ := Accepts.of_lastText h₄
  rw [hr.previous] at h₃
  obtain ⟨p, hparent⟩ := Accepts.of_readNamed h₃
  dsimp only at hrun
  split at hrun
  · obtain ⟨_, _, herror, -⟩ := hrun.bind
    exact absurd herror Accepts.not_error
  · obtain ⟨_, s₃, h₅, hcont⟩ := hrun.bind
    obtain ⟨_, s₄, h₆, hcont⟩ := hcont.bind
    obtain ⟨_, s₅, h₇, hcont⟩ := hcont.bind
    obtain ⟨_, s₆, h₈, hcont⟩ := hcont.bind
    obtain ⟨_, s₇, h₉, h₁₀⟩ := hcont.bind
    obtain rfl := Accepts.of_beginScope h₅
    obtain rfl := Accepts.of_addLocal h₆
    rcases Accepts.of_defineVariable h₇ with ⟨h0, -⟩ | ⟨-, rfl⟩
    · cases h0
    obtain ⟨a, hown⟩ := Accepts.of_readNamed h₈
    have hinherit := Accepts.of_emit .inherit h₉ fun _ _ => rfl
    exact ⟨p, a, _, s₆, s₇, hident, hid',
      (hr.quiet (ne_eof hident nofun)).adds hparent.adds, hown, hinherit, Accepts.of_modify h₁₀⟩

/-- The methods of a class that inherits nothing. -/
theorem alone_spec {name : String} (hready : s.Ready) (hid : IsIdentifier name) (hn : s.rest.length ≤ n)
    (h : Accepts (members parts name) { s with classes := false :: s.classes } u s') :
    ∃ a fs l ts r, Does s (l :: ts ++ [r]) s' (fun routines F L i j L' =>
      L' = L ∧ F.Finds L name a ∧ ∃ m n, F.At i a.get m ∧
        Layout.Runs routines F s.body.depth L (.methods fs) m n L ∧ F.At n .pop j) ∧
      (s.body.depth = 0 → a = .global name) ∧ Derives (.methods fs) ts ∧
      l.kind = .leftBrace ∧ r.kind = .rightBrace := by
  have hplain : ({ s with classes := false :: s.classes } : Builder).SuperKnown := fun h =>
    absurd (Option.some.inj (show some false = some true from h)) nofun
  obtain ⟨a, fs, l, ts, r, s₁, s₂, hf, hdoes, -, hd, hopen, hclose, hend⟩ := members_spec hparts hplain hn h
  obtain ⟨-, rfl⟩ := Accepts.of_pure hend
  refine ⟨a, fs, l, ts, r, hdoes.classes s.classes, fun h0 => ?_, hd, hopen, hclose⟩
  obtain ⟨houter, hslot⟩ := hready.outside h0
  exact hf.alone houter (hslot _ hid)

/-- The superclass and the methods of a class that inherits from it. -/
theorem inheriting_spec {name : String} {v : Unit} {s₂ : Builder} (hready : s.Ready) (hid : IsIdentifier name)
    (hn : s.rest.length ≤ n) (hless : s.current.kind = .less)
    (hr : Reads { s with classes := false :: s.classes } s₁) (h : Accepts (superclass name) s₁ v s₂)
    (h' : Accepts (members parts name) s₂ u s') :
    ∃ p a a' fs l ts r, s₁.current.kind = .identifier ∧ IsIdentifier s₁.current.text ∧
      Does s (s.current :: s₁.current :: l :: ts ++ [r]) s' (fun routines F L i j L' =>
        L' = L ∧ F.Finds L s₁.current.text p ∧ ∃ k m captured, F.At i p.get k ∧
          Inherits s.body.depth name a a' fs routines F (⟨"super", some (s.body.depth + 1), captured⟩ :: L) k m ∧
          F.Drops [⟨"super", some (s.body.depth + 1), captured⟩] m j) ∧
      (s.body.depth = 0 → a = .global name ∧ a' = .global name) ∧ Derives (.methods fs) ts ∧
      l.kind = .leftBrace ∧ r.kind = .rightBrace := by
  obtain ⟨p, a, s₃, s₄, s₅, hparent, hid', hget, hown, hinherit, rfl⟩ := superclass_spec h
  have hfirst := (hr.quiet (ne_eof hless nofun)).adds hget
  have hinner := hown.adds.trans hinherit.adds
  have hsuper : ({ s₅ with classes := true :: s₅.classes.tail } : Builder).SuperKnown := by
    intro _
    refine ⟨s₅.body, List.mem_cons_self, s₃.body.locals.length, ?_⟩
    rw [(hinner.steps.raised hinner.locals).slot?]
    exact Layout.slot?_cons_self ..
  have hlen : s₅.rest.length ≤ s₁.rest.length := h.length_rest
  have hlen₁ : s.rest.length = s₁.rest.length + 1 :=
    congrArg List.length (hr.rest (ne_eof hless nofun))
  obtain ⟨a', fs, l, ts, r, s₆, s₇, hf, hdoes, hsame, hd, hopen, hclose, hend⟩ :=
    members_spec hparts hsuper (show s₅.rest.length ≤ n by omega) h'
  have hclasses₃ : s₃.classes = false :: s.classes := hfirst.steps.classes
  have hclasses₅ : s₅.classes = s₃.classes := hinner.steps.classes
  have hdepth₃ : s₃.body.depth = s.body.depth := hfirst.steps.depth
  have hdepth₅ : s₅.body.depth = s.body.depth + 1 := hinner.steps.depth.trans (congrArg (· + 1) hdepth₃)
  have hlen₅ : s₅.body.locals.length = s₃.body.locals.length + 1 := hinner.locals
  have hmembers : Does (Builder.declare (Builder.inScope { s₃ with classes := s.classes })
      "super").initialized ([] ++ [] ++ (l :: ts ++ [r])) { s₇ with classes := s.classes }
      fun routines F L i j L' => L' = L ∧ Inherits s.body.depth name a a' fs routines F L i j := by
    refine ((hinner.does.classes s.classes).trans (hdoes.classes s.classes)).map ?_
    rintro routines F L i j L' ⟨k, L₁, ⟨rfl, m, ⟨hfind, hi⟩, hinh⟩, rfl, hfind', m', n', hget', hruns, hpop⟩
    rw [show ({ s₅ with classes := true :: s₅.classes.tail } : Builder).body.depth = s.body.depth + 1
      from hdepth₅] at hruns
    exact ⟨rfl, hfind, hfind', m, k, m', n', hi, hinh, hget', hruns, hpop⟩
  obtain ⟨hscoped, -⟩ := hmembers.declares (hsame.trans hlen₅) nofun
  have hparentCode := hfirst.does.classes s.classes
  have hready₃ := hparentCode.ready hready
  have hend' : Accepts endScope { s₇ with classes := s.classes } u s' := by
    have : (true :: s₅.classes.tail).tail = s.classes := by
      rw [hclasses₅, hclasses₃]
      rfl
    rw [← this]
    exact hend
  obtain ⟨hscope, -⟩ := Does.scope hready₃ hscoped hend'
  refine ⟨p, a, a', fs, l, ts, r, hparent, hid', (hparentCode.trans hscope).map ?_, fun h0 => ?_, hd, hopen,
    hclose⟩
  · rintro routines F L i j L' ⟨k, L₁, ⟨rfl, hfind, hi⟩, rfl, new, m, ⟨captured, hnew, hinherits⟩, hdrops⟩
    obtain rfl : new = [⟨"super", some (s.body.depth + 1), captured⟩] := by
      rw [← hdepth₃]
      exact List.append_cancel_right (show new ++ L' = [_] ++ L' from hnew)
    exact ⟨rfl, hfind, k, m, captured, hi, hinherits, hdrops⟩
  · obtain ⟨houter, hslot⟩ := hready₃.outside (hdepth₃.trans h0)
    have hslot₃ : Body.slot? name (s₃.inScope.declare "super").initialized.body.locals = none :=
      (Layout.slot?_cons_of_ne hid.2.1.symm).trans (hslot _ hid)
    refine ⟨hown.alone houter hslot₃, hf.alone ?_ ?_⟩
    · exact List.forall₂_nil_left_iff.mp (houter ▸ hinner.steps.outer)
    · exact ((hinner.steps.raised hinner.locals).slot? _).trans hslot₃

theorem class_spec (hready : s.Ready) (hn : s₁.rest.length ≤ n) (hr : s.Reads s₁)
    (hk : s.current.kind = .kwClass) (h : Accepts (classDeclaration parts) s₁ u s') :
    ∃ st, DeclarationOf s st s' := by
  have hquiet := hr.quiet (ne_eof hk nofun)
  rw [classDeclaration_eq] at h
  obtain ⟨_, s₂, h₁, hrun⟩ := h.bind
  obtain ⟨name, s₃, h₂, hrun⟩ := hrun.bind
  obtain ⟨k, s₄, h₃, hrun⟩ := hrun.bind
  obtain ⟨_, s₅, h₄, hrun⟩ := hrun.bind
  obtain ⟨_, s₆, h₅, hrun⟩ := hrun.bind
  obtain ⟨_, s₇, h₆, hrun⟩ := hrun.bind
  obtain ⟨_, s₈, h₇, hrun⟩ := hrun.bind
  obtain ⟨less, s₉, h₈, hcont⟩ := hrun.bind
  dsimp only at hcont
  obtain ⟨hident, hr₂⟩ := Accepts.of_expect h₁
  obtain ⟨rfl, rfl⟩ := Accepts.of_lastText h₂
  rw [hr₂.previous] at h₃ hcont
  have hid := (h₁.sound.proper s₁.current (by simp)).identifier hident
  have hmade := makeClass_spec hident hr₂ h₃ h₄ h₅ h₆
  have hready₇ := hmade.ready (hquiet.ready hready)
  have hdepth₇ : s₇.body.depth = s.body.depth := hmade.steps.depth.trans hquiet.steps.depth
  rw [hquiet.steps.depth] at hmade
  have hlen₇ := hmade.steps.length_rest
  obtain rfl := Accepts.of_modify h₇
  rcases Accepts.of_accept h₈ with ⟨rfl, hless, hr₃⟩ | ⟨rfl, -, rfl⟩
  · rw [if_pos rfl] at hcont
    obtain ⟨_, s₁₀, h₉, h₁₀⟩ := hcont.bind
    obtain ⟨p, a, a', fs, l, ts, r, hparent, hid', hdoes, hglobal, hd, hopen, hclose⟩ :=
      inheriting_spec hparts hready₇ hid (by omega) hless hr₃ h₉ h₁₀
    rw [hdepth₇] at hdoes hglobal
    refine ⟨.cls s₁.current.text (some s₉.current.text) fs, _, (hquiet.does (hmade.trans hdoes)).map ?_, ?_⟩
    · rintro routines F L i j L' ⟨k, L₁, ⟨l, hi, hdeclares⟩, rfl, hfind, m, k', captured, hget,
        ⟨hown, hown', b, c, m', n', hb, hc, hm, hruns, hpop⟩, hdrops⟩
      have hne : "super" ≠ s₁.current.text := hid.2.1.symm
      rw [hdeclares.ownInside hown hne fun h0 => (hglobal h0).1] at hb
      rw [hdeclares.ownInside hown' hne fun h0 => (hglobal h0).2] at hm
      exact .subclass hid hi hdeclares hid' hfind hget hb hc hm hruns hpop hdrops
    · have := Derives.subclass hk hident hless hparent hopen hclose hd
      simpa using this
  · rw [if_neg nofun] at hcont
    obtain ⟨a, fs, l, ts, r, hdoes, hglobal, hd, hopen, hclose⟩ :=
      alone_spec hparts hready₇ hid (by omega) hcont
    rw [hdepth₇] at hdoes hglobal
    refine ⟨.cls s₁.current.text none fs, _, (hquiet.does (hmade.trans hdoes)).map ?_, ?_⟩
    · rintro routines F L i j L' ⟨k, L₁, ⟨l, hi, hdeclares⟩, rfl, hfind, m, n, hget, hruns, hpop⟩
      rw [hdeclares.own hfind hglobal] at hget
      exact .cls hid hi hdeclares hget hruns hpop
    · have := Derives.cls hk hident hopen hclose hd
      simpa using this

/-! ## Statements and declarations -/

theorem statement_spec (hready : s.Ready) (hn : s.rest.length ≤ n + 1)
    (h : Accepts (statementRule parts) s u s') : ∃ st, StatementOf s st s' := by
  have hlen {s₁ : Builder} {k : TokenKind} (hk : s.current.kind = k) (hne : k ≠ .eof)
      (hr : s.Reads s₁) : s₁.rest.length ≤ n := by
    have := length_reads hr (ne_eof hk hne)
    omega
  obtain ⟨_, s₁, h₁, h₂⟩ := h.bind
  rcases Accepts.of_accept h₁ with ⟨rfl, hk, hr⟩ | ⟨rfl, -, rfl⟩
  · exact print_spec hparts hready (hlen hk nofun hr) hr hk h₂
  obtain ⟨_, s₂, h₃, h₄⟩ := h₂.bind
  rcases Accepts.of_accept h₃ with ⟨rfl, hk, hr⟩ | ⟨rfl, -, rfl⟩
  · exact assert_spec hparts hready (hlen hk nofun hr) hr hk h₄
  obtain ⟨_, s₃, h₅, h₆⟩ := h₄.bind
  rcases Accepts.of_accept h₅ with ⟨rfl, hk, hr⟩ | ⟨rfl, -, rfl⟩
  · exact if_spec hparts hready (hlen hk nofun hr) hr hk h₆
  obtain ⟨_, s₄, h₇, h₈⟩ := h₆.bind
  rcases Accepts.of_accept h₇ with ⟨rfl, hk, hr⟩ | ⟨rfl, -, rfl⟩
  · exact return_spec hparts hready (hlen hk nofun hr) hr hk h₈
  obtain ⟨_, s₅, h₉, h₁₀⟩ := h₈.bind
  rcases Accepts.of_accept h₉ with ⟨rfl, hk, hr⟩ | ⟨rfl, -, rfl⟩
  · exact while_spec hparts hready (hlen hk nofun hr) hr hk h₁₀
  obtain ⟨_, s₆, h₁₁, h₁₂⟩ := h₁₀.bind
  rcases Accepts.of_accept h₁₁ with ⟨rfl, hk, hr⟩ | ⟨rfl, -, rfl⟩
  · exact for_spec hparts hready (hlen hk nofun hr) hr hk h₁₂
  obtain ⟨_, s₇, h₁₃, h₁₄⟩ := h₁₂.bind
  rcases Accepts.of_accept h₁₃ with ⟨rfl, hk, hr⟩ | ⟨rfl, -, rfl⟩
  · exact blockStatement_spec hparts hready (hlen hk nofun hr) hr hk h₁₄
  obtain ⟨e, he⟩ := expression_spec hparts hready hn h₁₄
  exact ⟨_, he⟩

theorem declaration_spec (hready : s.Ready) (hn : s.rest.length ≤ n + 1)
    (h : Accepts (declarationRule parts) s u s') : ∃ st, DeclarationOf s st s' := by
  have hlen {s₁ : Builder} {k : TokenKind} (hk : s.current.kind = k) (hne : k ≠ .eof)
      (hr : s.Reads s₁) : s₁.rest.length ≤ n := by
    have := length_reads hr (ne_eof hk hne)
    omega
  -- without an error there is nothing to recover from
  have hend {s₁ : Builder} (h : Accepts (do
      if (← get).panicking then synchronize parts.bound) s₁ u s') : s' = s₁ := by
    have hcalm := h.sound.calm h.clean_start
    have h := h.get_bind
    rw [hcalm] at h
    exact (Accepts.of_pure h).2
  obtain ⟨_, s₁, h₁, h₂⟩ := h.bind
  rcases Accepts.of_accept h₁ with ⟨rfl, hk, hr⟩ | ⟨rfl, -, rfl⟩
  · rw [if_pos rfl] at h₂
    obtain ⟨_, s₂, h₃, h₄⟩ := h₂.bind
    obtain rfl := hend h₄
    exact class_spec hparts hready (hlen hk nofun hr) hr hk h₃
  rw [if_neg nofun] at h₂
  obtain ⟨_, s₂, h₃, h₄⟩ := h₂.bind
  rcases Accepts.of_accept h₃ with ⟨rfl, hk, hr⟩ | ⟨rfl, -, rfl⟩
  · rw [if_pos rfl] at h₄
    obtain ⟨_, s₃, h₅, h₆⟩ := h₄.bind
    obtain rfl := hend h₆
    exact functionDeclaration_spec hparts hready (hlen hk nofun hr) hr hk h₅
  rw [if_neg nofun] at h₄
  obtain ⟨_, s₃, h₅, h₆⟩ := h₄.bind
  rcases Accepts.of_accept h₅ with ⟨rfl, hk, hr⟩ | ⟨rfl, -, rfl⟩
  · rw [if_pos rfl] at h₆
    obtain ⟨_, s₄, h₇, h₈⟩ := h₆.bind
    obtain rfl := hend h₈
    obtain ⟨name, value, h⟩ := variable_spec hparts hready (hlen hk nofun hr) hr hk h₇
    exact ⟨_, h⟩
  rw [if_neg nofun] at h₆
  obtain ⟨_, s₄, h₇, h₈⟩ := h₆.bind
  obtain rfl := hend h₈
  obtain ⟨st, h⟩ := statement_spec hparts hready hn h₇
  exact ⟨st, h.declaration⟩

end Rules

/-! ## Tying the knot -/

/-- The parsers for the parts of a construct where at most `n` tokens are left. -/
def partsWithin (n : Nat) : Parts :=
  ⟨n, Expression.parse n .assignment, statement n, declaration n⟩

theorem parts_spec (n : Nat) : PartsSpec n (partsWithin n) := by
  have hexpression (n : Nat) {s s' : Builder} {u : Unit} (hsuper : s.SuperKnown)
      (hn : s.rest.length ≤ n + 1) (h : Accepts (Expression.parse n .assignment) s u s') :
      ∃ e ts, Adds s ts s' (fun F L => F.Loads L [e]) ∧ Derives (.expression .assignment e) ts := by
    obtain ⟨e, ts, hadds, hd, -⟩ := Expression.within_spec (n + 1) (Power.le_refl _) (by decide)
      hsuper hn h
    exact ⟨e, ts, hadds, hd⟩
  induction n with
  | zero =>
      refine ⟨rfl, hexpression 0, fun _ hn => ?_, fun _ hn => ?_⟩
      all_goals exact absurd hn (Nat.not_succ_le_zero _)
  | succ n ih =>
      have hkeeps (n : Nat) : Keeps (partsWithin n).expression ∧ Keeps (partsWithin n).statement ∧
          Keeps (partsWithin n).declaration :=
        ⟨inferInstanceAs (Keeps (Expression.parse n .assignment)),
          inferInstanceAs (Keeps (statement n)), inferInstanceAs (Keeps (declaration n))⟩
      obtain ⟨_, _, _⟩ := hkeeps n
      exact ⟨rfl, hexpression (n + 1), fun hready hn h => statement_spec ih hready hn h,
        fun hready hn h => declaration_spec ih hready hn h⟩

end Statement

end LoxMachine
