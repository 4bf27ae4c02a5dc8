import LoxMachine.Proofs.Compile.Scopes

/-!
# Accepted statements

An accepted statement is one of the grammar, and its code is laid out for its tree. The rules are
taken one by one, each for parsers of its parts that compile what they read (`PartsSpec`).
-/

namespace LoxMachine.Statement

open Builder Syntax
open Chunk (Agree)
open Expression (length_reads ne_eof)

/-- Code that executes a part of a function. -/
def executes (depth : Nat) (part : Part) : Deed :=
  fun routines F L i j L' => Layout.Runs routines F depth L part i j L'

/-- A statement has been compiled between two builders. -/
structure StatementOf (s : Builder) (st : Stmt) (s' : Builder) : Prop where
  tokens : ∃ ts, Does s ts s' (executes s.body.depth (.code [st])) ∧ Derives (.statement st) ts
  locals : s'.body.locals.length = s.body.locals.length
  dangling : st.isOpen = true → s'.current.kind ≠ .kwElse

/-- A declaration or statement has been compiled between two builders. -/
def DeclarationOf (s : Builder) (st : Stmt) (s' : Builder) : Prop :=
  ∃ ts, Does s ts s' (executes s.body.depth (.code [st])) ∧ Derives (.declaration st) ts

/-- The parsers for the parts of a construct compile what they read. -/
structure PartsSpec (n : Nat) (parts : Parts) : Prop where
  bound : parts.bound = n
  expression : ∀ {s s' u}, s.SuperKnown → s.rest.length ≤ n + 1 → Accepts parts.expression s u s' →
    ∃ e ts, Adds s ts s' (fun F L => F.Loads L [e]) ∧ Derives (.expression .assignment e) ts
  statement : ∀ {s s' u}, s.Ready → s.rest.length ≤ n → Accepts parts.statement s u s' →
    ∃ st, StatementOf s st s'
  declaration : ∀ {s s' u}, s.Ready → s.rest.length ≤ n → Accepts parts.declaration s u s' →
    ∃ st, DeclarationOf s st s'

theorem StatementOf.declaration {s s' : Builder} {st : Stmt} (h : StatementOf s st s') :
    DeclarationOf s st s' := by
  obtain ⟨ts, hdoes, hd⟩ := h.tokens
  exact ⟨ts, hdoes, .statement hd⟩

theorem kind_ne_eof (e : Expectation) : e.kind ≠ .eof := by
  cases e <;> nofun

section Rules

variable {n : Nat} {parts : Parts} [Keeps parts.expression] [Keeps parts.statement]
  [Keeps parts.declaration] (hparts : PartsSpec n parts) {s s₁ s' : Builder} {u : Unit}

set_option synthInstance.maxSize 4096
set_option linter.unusedSectionVars false

/-! ## Simple statements -/

theorem simple {st : Stmt} {ts : List Token} {A : Layout → List Local → Nat → Nat → Prop}
    (h : Adds s ts s' A)
    (hrun : ∀ routines F L i j, A F L i j → Layout.Runs routines F s.body.depth L (.code [st]) i j L)
    (hd : Derives (.statement st) ts) (hopen : st.isOpen = false) : StatementOf s st s' := by
  refine ⟨⟨ts, h.does.map ?_, hd⟩, h.locals, fun hopen' => ?_⟩
  · rintro routines F L i j L' ⟨rfl, ha⟩
    exact hrun routines F L' i j ha
  · rw [hopen] at hopen'
    cases hopen'

include hparts

/-- An expression with a token of punctuation behind it. -/
theorem closed_spec (hsuper : s.SuperKnown) (hn : s.rest.length ≤ n + 1) {e : Expectation}
    {s₂ : Builder} {v : Unit} (h₁ : Accepts parts.expression s u s₁)
    (h₂ : Accepts (expect e) s₁ v s₂) : ∃ x ts t, Adds s (ts ++ [t]) s₂ (fun F L => F.Loads L [x]) ∧
      Derives (.expression .assignment x) ts ∧ t.kind = e.kind := by
  obtain ⟨x, ts, hadds, hd⟩ := hparts.expression hsuper hn h₁
  obtain ⟨hkind, hr⟩ := Accepts.of_expect h₂
  exact ⟨x, ts, _, hadds.quiet (hr.quiet (ne_eof hkind (kind_ne_eof e))), hd, hkind⟩

theorem print_spec (hready : s.Ready) (hn : s₁.rest.length ≤ n) (hr : s.Reads s₁)
    (hk : s.current.kind = .kwPrint) (h : Accepts (printStatement parts) s₁ u s') :
    ∃ st, StatementOf s st s' := by
  obtain ⟨_, s₂, h₁, hrun⟩ := h.bind
  obtain ⟨_, s₃, h₂, h₃⟩ := hrun.bind
  have hquiet := hr.quiet (ne_eof hk nofun)
  obtain ⟨e, ts, t, hadds, hd, ht⟩ :=
    closed_spec hparts (hquiet.ready hready).super (by omega) h₁ h₂
  have hemit := Accepts.of_emit (.operator .print) h₃ fun _ _ => rfl
  refine ⟨.print e, simple (hquiet.adds (hadds.trans hemit.adds)) ?_ ?_ rfl⟩
  · rintro routines F L i j ⟨k, hl, hi⟩
    exact .print hl hi
  · have := Derives.print hk ht hd
    simpa using this

theorem assert_spec (hready : s.Ready) (hn : s₁.rest.length ≤ n) (hr : s.Reads s₁)
    (hk : s.current.kind = .kwAssert) (h : Accepts (assertStatement parts) s₁ u s') :
    ∃ st, StatementOf s st s' := by
  obtain ⟨_, s₂, h₁, hrun⟩ := h.bind
  obtain ⟨_, s₃, h₂, h₃⟩ := hrun.bind
  have hquiet := hr.quiet (ne_eof hk nofun)
  obtain ⟨e, ts, t, hadds, hd, ht⟩ :=
    closed_spec hparts (hquiet.ready hready).super (by omega) h₁ h₂
  have hemit := Accepts.of_emit (.operator .assert) h₃ fun _ _ => rfl
  refine ⟨.assert e, simple (hquiet.adds (hadds.trans hemit.adds)) ?_ ?_ rfl⟩
  · rintro routines F L i j ⟨k, hl, hi⟩
    exact .assert hl hi
  · have := Derives.assert hk ht hd
    simpa using this

theorem expression_spec (hready : s.Ready) (hn : s.rest.length ≤ n + 1)
    (h : Accepts (expressionStatement parts) s u s') : ∃ e, StatementOf s (.expression e) s' := by
  obtain ⟨_, s₂, h₁, hrun⟩ := h.bind
  obtain ⟨_, s₃, h₂, h₃⟩ := hrun.bind
  obtain ⟨e, ts, t, hadds, hd, ht⟩ := closed_spec hparts hready.super hn h₁ h₂
  have hemit := Accepts.of_emit .pop h₃ fun _ _ => rfl
  refine ⟨e, simple (hadds.trans hemit.adds) ?_ ?_ rfl⟩
  · rintro routines F L i j ⟨k, hl, hi⟩
    exact .expression hl hi
  · have := Derives.expression ht hd
    simpa using this

omit hparts in
/-- The implicit end of a function. -/
theorem of_emitReturn (h : Accepts emitReturn s u s') :
    Adds s [] s' fun F _ i j =>
      F.kind = s.body.kind ∧ ∃ k, F.At i (Layout.implicitResult F.kind) k ∧ F.At k .ret j := by
  have hrun := h.get_bind
  dsimp only at hrun
  have hemit : ∃ s₁ v, Emits s (Layout.implicitResult s.body.kind) s₁ ∧ Accepts (emit .ret) s₁ v s' := by
    split at hrun
    · rename_i hk
      obtain ⟨v, s₁, h₁, h₂⟩ := hrun.bind
      have := Accepts.of_emitNumber .getLocal h₁ (by decide) fun _ _ => rfl
      exact ⟨s₁, u, by rw [hk]; exact this, h₂⟩
    · rename_i hk
      obtain ⟨v, s₁, h₁, h₂⟩ := hrun.bind
      have := Accepts.of_emit (.push .nil) h₁ fun _ _ => rfl
      refine ⟨s₁, u, ?_, h₂⟩
      rw [Layout.implicitResult]
      · exact this
      · exact hk
  obtain ⟨s₁, v, hfirst, hlast⟩ := hemit
  have hret := Accepts.of_emit .ret hlast fun _ _ => rfl
  refine (hfirst.adds.trans hret.adds).kind.map ?_
  rintro F L i j ⟨hF, k, hi, hi'⟩
  exact ⟨hF, k, hF ▸ hi, hi'⟩

theorem return_spec (hready : s.Ready) (hn : s₁.rest.length ≤ n) (hr : s.Reads s₁)
    (hk : s.current.kind = .kwReturn) (h : Accepts (returnStatement parts) s₁ u s') :
    ∃ st, StatementOf s st s' := by
  have hquiet := hr.quiet (ne_eof hk nofun)
  have hrun := h.get_bind
  dsimp only at hrun
  split at hrun
  · obtain ⟨_, _, herror, -⟩ := hrun.bind
    exact absurd herror Accepts.not_error
  · rename_i hscript
    obtain ⟨semi, s₂, h₁, hcont⟩ := hrun.bind
    rcases Accepts.of_accept h₁ with ⟨rfl, hsemi, hr₂⟩ | ⟨rfl, -, rfl⟩
    · have hadds := (hr₂.quiet (ne_eof hsemi nofun)).adds (of_emitReturn hcont)
      have hkind : s₂.body.kind = s₁.body.kind := by rw [hr₂.body]
      refine ⟨.return none, simple (hquiet.adds hadds) ?_ ?_ rfl⟩
      · rintro routines F L i j ⟨hF, k, hi, hi'⟩
        refine .return ?_ hi hi'
        rw [hF, hkind]
        exact hscript
      · exact .return hk hsemi .absent
    · have hcont := hcont.get_bind
      split at hcont
      · obtain ⟨_, _, herror, -⟩ := hcont.bind
        exact absurd herror Accepts.not_error
      · obtain ⟨_, s₃, h₂, hcont⟩ := hcont.bind
        obtain ⟨_, s₄, h₃, h₄⟩ := hcont.bind
        obtain ⟨e, ts, t, hadds, hd, ht⟩ :=
          closed_spec hparts (hquiet.ready hready).super (by omega) h₂ h₃
        have hemit := Accepts.of_emit .ret h₄ fun _ _ => rfl
        refine ⟨.return (some e), simple (hquiet.adds (hadds.trans hemit.adds).kind) ?_ ?_ rfl⟩
        · rintro routines F L i j ⟨hF, k, hl, hi⟩
          refine .returnValue ?_ hl hi
          rw [hF]
          exact hscript
        · have := Derives.return hk ht (.present hd)
          simpa using this

/-! ## Blocks and variables -/

theorem declarations_spec {b : Nat} (hready : s.Ready) (hn : s.rest.length ≤ n)
    (hb : s.rest.length ≤ b) (h : Accepts (repeatWhile insideBraces parts.declaration b) s u s') :
    ∃ ss ts, Does s ts s' (executes s.body.depth (.code ss)) ∧ Derives (.declarations ss) ts := by
  induction b generalizing s with
  | zero => cases hb
  | succ b ih =>
      obtain ⟨go, s₁, h₁, h₂⟩ := Accepts.bind (by rw [repeatWhile] at h; exact h)
      obtain ⟨brace, s₂, h₃, h₄⟩ := h₁.bind
      obtain ⟨rfl, rfl⟩ := Accepts.of_check h₃
      obtain ⟨eof, s₃, h₅, h₆⟩ := h₄.bind
      obtain ⟨rfl, rfl⟩ := Accepts.of_check h₅
      obtain ⟨-, rfl⟩ := Accepts.of_pure h₆
      split at h₂
      · obtain ⟨_, s₃, h₅, h₆⟩ := h₂.bind
        obtain ⟨st, ts, hdoes, hd⟩ := hparts.declaration hready hn h₅
        have hlen := hdoes.steps.length_rest
        have hpos := hd.pos rfl
        obtain ⟨ss, ts', hdoes', hd'⟩ := ih (hdoes.ready hready) (by omega) (by omega) h₆
        rw [hdoes.steps.depth] at hdoes'
        refine ⟨st :: ss, _, (hdoes.trans hdoes').map ?_, .declarations hd hd'⟩
        rintro routines F L i j L' ⟨k, L₁, hr, hr'⟩
        exact hr.cons hr'
      · obtain ⟨-, rfl⟩ := Accepts.of_pure h₂
        refine ⟨[], [], ⟨Steps.refl 0 s', declared_same (Steps.refl 0 s') rfl, fun hc _ => ?_⟩,
          .noDeclarations⟩
        rw [Body.oldest_length hc.length]
        exact .nothing

/-- What stands between braces, the closing one included. -/
theorem block_spec (hready : s.Ready) (hn : s.rest.length ≤ n) (h : Accepts (block parts) s u s') :
    ∃ ss ts r, Does s (ts ++ [r]) s' (executes s.body.depth (.code ss)) ∧
      Derives (.declarations ss) ts ∧ r.kind = .rightBrace := by
  obtain ⟨_, s₁, h₁, h₂⟩ := h.bind
  rw [hparts.bound] at h₁
  obtain ⟨ss, ts, hdoes, hd⟩ := declarations_spec hparts hready hn hn h₁
  obtain ⟨hkind, hr⟩ := Accepts.of_expect h₂
  exact ⟨ss, ts, _, hdoes.quiet (hr.quiet (ne_eof hkind nofun)), hd, hkind⟩

theorem blockStatement_spec (hready : s.Ready) (hn : s₁.rest.length ≤ n) (hr : s.Reads s₁)
    (hk : s.current.kind = .leftBrace) (h : Accepts (blockStatement parts) s₁ u s') :
    ∃ st, StatementOf s st s' := by
  have hquiet := hr.quiet (ne_eof hk nofun)
  obtain ⟨_, s₂, h₁, hrun⟩ := h.bind
  obtain ⟨_, s₃, h₂, h₃⟩ := hrun.bind
  obtain rfl := Accepts.of_beginScope h₁
  obtain ⟨ss, ts, r, hdoes, hd, hclose⟩ :=
    block_spec hparts (hquiet.ready hready).inScope hn h₂
  obtain ⟨hscope, hlocals⟩ := Does.scope (hquiet.ready hready) hdoes h₃
  refine ⟨.block ss, ⟨_, (hquiet.does hscope).map ?_, ?_⟩, hlocals.trans hquiet.locals, nofun⟩
  · rintro routines F L i j L' ⟨rfl, new, k, hr', hdrops⟩
    have hdepth : s₁.inScope.body.depth = s.body.depth + 1 := by
      rw [← hquiet.steps.depth]
      rfl
    rw [executes, hdepth] at hr'
    exact .block hr' hdrops
  · have := Derives.block hk hclose hd
    simpa using this

omit hparts in
theorem quiet_initializing (s : Builder) (name : Option String) :
    Quiet s [] { s with initializing := name } :=
  ⟨{ Steps.refl 0 s with }, rfl, rfl⟩

/-- The code for the value of a variable. -/
def Sets (F : Layout) (L : List Local) : Option Expr → Nat → Nat → Prop
  | none, i, j => F.At i (.push .nil) j
  | some e, i, j => F.Loads L [e] i j

/-- The value of a variable, up to the end of the declaration. -/
theorem value_spec (hsuper : s.SuperKnown) (hn : s.rest.length ≤ n + 1) {k : Nat}
    (h : Accepts (do
      if ← accept .equal then parts.expression else emit .litNil
      modify fun s => { s with initializing := none }
      expect .variableEnd
      defineVariable k) s u s') :
    ∃ value ts s₁, Adds s ts s₁ (fun F L => Sets F L value) ∧
      Accepts (defineVariable k) s₁ u s' ∧ ∀ {t name : Token}, t.kind = .kwVar →
        name.kind = .identifier → Derives (.declaration (.var name.text value)) (t :: name :: ts) := by
  obtain ⟨eq, s₁, h₁, hrun⟩ := h.bind
  dsimp only at hrun
  obtain ⟨value, ts, s₂, hadds, hrun, hd⟩ : ∃ value ts s₂,
      Adds s ts s₂ (fun F L => Sets F L value) ∧ Accepts (do
        modify fun s => { s with initializing := none }
        expect .variableEnd
        defineVariable k) s₂ u s' ∧ ∀ {t name semi : Token}, t.kind = .kwVar →
          name.kind = .identifier → semi.kind = .semicolon →
          Derives (.declaration (.var name.text value)) (t :: name :: ts ++ [semi]) := by
    rcases Accepts.of_accept h₁ with ⟨rfl, heq, hr⟩ | ⟨rfl, -, rfl⟩
    · rw [if_pos rfl] at hrun
      obtain ⟨_, s₂, h₂, hrun⟩ := hrun.bind
      have hquiet := hr.quiet (ne_eof heq nofun)
      have hlen := hquiet.steps.length_rest
      obtain ⟨e, ts, hadds, hd⟩ := hparts.expression (hquiet.steps.superKnown hsuper)
        (by rw [List.length_singleton] at hlen; omega) h₂
      exact ⟨some e, _, s₂, hquiet.adds hadds, hrun, fun ht hname hsemi =>
        .varValue ht hname heq hsemi hd⟩
    · rw [if_neg nofun] at hrun
      obtain ⟨_, s₂, h₂, hrun⟩ := hrun.bind
      have hemit := Accepts.of_emit (.push .nil) h₂ fun _ _ => rfl
      exact ⟨none, _, s₂, hemit.adds, hrun, .var⟩
  obtain ⟨_, s₃, h₃, hrun⟩ := hrun.bind
  obtain ⟨_, s₄, h₄, h₅⟩ := hrun.bind
  have hinit := quiet_initializing s₂ none
  rw [← Accepts.of_modify h₃] at hinit
  obtain ⟨hsemi, hr⟩ := Accepts.of_expect h₄
  refine ⟨value, _, s₄, (hadds.quiet hinit).quiet (hr.quiet (ne_eof hsemi nofun)), h₅,
    fun ht hname => ?_⟩
  have := hd ht hname hsemi
  simpa using this

omit hparts in
theorem runs_global {routines : Array Routine} {F : Layout} {L : List Local} {name : String}
    {value : Option Expr} {i k j : Nat} (hid : IsIdentifier name) (hv : Sets F L value i k)
    (hi : F.At k (.defineGlobal name) j) : Layout.Runs routines F 0 L (.code [.var name value]) i j L := by
  cases value with
  | none => exact .var hid hv (.global rfl hi)
  | some e => exact .varGlobal hid rfl hv hi

omit hparts in
theorem runs_local {routines : Array Routine} {F : Layout} {L : List Local} {name : String}
    {value : Option Expr} {captured : Bool} {d i j : Nat} (hid : IsIdentifier name) (hd : d ≠ 0)
    (hv : Sets F (⟨name, none, captured⟩ :: L) value i j) :
    Layout.Runs routines F d L (.code [.var name value]) i j (⟨name, some d, captured⟩ :: L) := by
  cases value with
  | none => exact .var hid hv (.local hd)
  | some e => exact .varLocal hid hd hv

/-- A variable with or without a value, from its name on. -/
theorem variable_spec (hready : s.Ready) (hn : s₁.rest.length ≤ n) (hr : s.Reads s₁)
    (hk : s.current.kind = .kwVar) (h : Accepts (variableDeclaration parts) s₁ u s') :
    ∃ name value, DeclarationOf s (.var name value) s' := by
  have hquiet := hr.quiet (ne_eof hk nofun)
  have hready₁ := hquiet.ready hready
  have hdepth := hquiet.steps.depth
  obtain ⟨k, s₂, h₁, hrun⟩ := h.bind
  obtain ⟨b, s₃, h₂, hrun⟩ := hrun.bind
  obtain ⟨rfl, rfl⟩ := Accepts.of_inGlobalScope h₂
  obtain ⟨hident, hid, s₄, hr₂, hcase⟩ := Accepts.of_readVariable h₁ rfl
  have hquiet₂ := hr₂.quiet (ne_eof hident nofun)
  have hn₂ := h₁.length_rest
  dsimp only at hrun
  rcases hcase with ⟨h0, hp⟩ | ⟨h0, rfl⟩
  · rw [if_pos (decide_eq_true (by rw [hp.eq, ← h0, ← hr₂.body]; rfl))] at hrun
    obtain ⟨name, s₅, h₃, hcont⟩ := hrun.bind
    obtain ⟨rfl, -⟩ := Accepts.of_lastText h₃
    obtain ⟨_, s₆, h₄, h₅⟩ := hcont.bind
    have hinit := quiet_initializing s₅ (some name)
    rw [← Accepts.of_modify h₄] at hinit
    have hall := ((hquiet.trans hquiet₂).trans hp.quiet).trans hinit
    obtain ⟨value, ts, s₇, hadds, h₆, hd⟩ := value_spec hparts (hall.ready hready).super
      (by have := hinit.steps.length_rest; simp at this; omega) h₅
    rcases Accepts.of_defineVariable h₆ with ⟨-, h₇⟩ | ⟨hne, -⟩
    · have hconst := (hinit.steps.trans hadds.steps).agree.constant? _ _ hp.constant
      have hemit := Accepts.of_emitName .defineGlobal h₇ hconst fun _ _ => rfl
      refine ⟨s₁.current.text, value, _, (hall.adds (hadds.trans hemit.adds)).does.map ?_, ?_⟩
      · rintro routines F L i j L' ⟨rfl, k, hv, hi⟩
        rw [executes, ← hdepth, h0]
        exact runs_global hid hv hi
      · simpa using hd hk hident
    · refine absurd ?_ hne
      rw [hadds.steps.depth, hinit.steps.depth, (hp.steps 0).depth, hquiet₂.steps.depth, h0]
  · have hne : ¬ decide ((s₄.declare s₁.current.text).body.depth = 0) = true := by
      intro h
      exact h0 (hr₂.body ▸ of_decide_eq_true h)
    rw [if_neg hne] at hrun
    have hdeclare := (hquiet.trans hquiet₂).steps.trans (steps_declare s₄ s₁.current.text)
    obtain ⟨value, ts, s₅, hadds, h₃, hd⟩ :=
      value_spec hparts (hdeclare.superKnown hready.super) (by omega) hrun
    have hdepth₄ : s₄.body.depth = s.body.depth := (hquiet.trans hquiet₂).steps.depth
    rcases Accepts.of_defineVariable h₃ with ⟨h0', -⟩ | ⟨-, rfl⟩
    · refine absurd ?_ h0
      rw [← h0', hadds.steps.depth, ← hr₂.body]
      rfl
    · have hdoes := hadds.declares (s := s₄) (by rw [hr₂.body]; exact h0)
      refine ⟨s₁.current.text, value, _, ((hquiet.trans hquiet₂).does hdoes).map ?_, ?_⟩
      · rintro routines F L i j L' ⟨captured, rfl, hv⟩
        rw [hdepth₄]
        exact runs_local hid (by rw [← hdepth]; exact h0) hv
      · simpa using hd hk hident

/-! ## Branches and loops -/

/-- A condition between parentheses, from the word in front of it on. -/
theorem condition_spec {e : Expectation} (he : e.kind = .leftParen) (hready : s.Ready)
    (hn : s.rest.length ≤ n) {s₂ s₃ : Builder} {v w : Unit} (h₁ : Accepts (expect e) s u s₁)
    (h₂ : Accepts parts.expression s₁ v s₂) (h₃ : Accepts (expect .conditionClose) s₂ w s₃) :
    ∃ c l ts r, Adds s (l :: ts ++ [r]) s₃ (fun F L => F.Loads L [c]) ∧
      Derives (.expression .assignment c) ts ∧ l.kind = .leftParen ∧ r.kind = .rightParen := by
  obtain ⟨hopen, hr⟩ := Accepts.of_expect h₁
  have hquiet := hr.quiet (ne_eof hopen (kind_ne_eof e))
  have hlen := hquiet.steps.length_rest
  rw [List.length_singleton] at hlen
  obtain ⟨c, ts, r, hadds, hd, hclose⟩ :=
    closed_spec hparts (hquiet.ready hready).super (by omega) h₂ h₃
  exact ⟨c, _, ts, r, hquiet.adds hadds, hd, hopen.trans he, hclose⟩

omit hparts in
/-- A statement behind the value of a condition. -/
theorem StatementOf.behindPop {st : Stmt} {ts : List Token} {d : Nat}
    (hpop : Adds s ts s₁ fun F _ i j => F.At i .pop j) (h : StatementOf s₁ st s')
    (hdepth : s₁.body.depth = d) :
    ∃ us, Does s (ts ++ us) s' (fun routines F L i j L' => L' = L ∧ ∃ k, F.At i .pop k ∧
      Layout.Runs routines F d L (.code [st]) k j L) ∧ Derives (.statement st) us ∧
      s'.body.locals.length = s.body.locals.length := by
  obtain ⟨us, hdoes, hd⟩ := h.tokens
  rw [hdepth] at hdoes
  refine ⟨us, (hpop.does.trans (hdoes.same h.locals)).map ?_, hd, by rw [h.locals, hpop.locals]⟩
  rintro routines F L i j L' ⟨k, L₁, ⟨rfl, hi⟩, rfl, hr⟩
  exact ⟨rfl, k, hi, hr⟩

theorem if_spec (hready : s.Ready) (hn : s₁.rest.length ≤ n) (hr : s.Reads s₁)
    (hk : s.current.kind = .kwIf) (h : Accepts (ifStatement parts) s₁ u s') :
    ∃ st, StatementOf s st s' := by
  have hquiet := hr.quiet (ne_eof hk nofun)
  obtain ⟨_, s₂, h₁, hrun⟩ := h.bind
  obtain ⟨_, s₃, h₂, hrun⟩ := hrun.bind
  obtain ⟨_, s₄, h₃, hrun⟩ := hrun.bind
  obtain ⟨thenJump, s₅, h₄, hrun⟩ := hrun.bind
  obtain ⟨_, s₆, h₅, hrun⟩ := hrun.bind
  obtain ⟨_, s₇, h₆, hrun⟩ := hrun.bind
  obtain ⟨elseJump, s₈, h₇, hrun⟩ := hrun.bind
  obtain ⟨_, s₉, h₈, hrun⟩ := hrun.bind
  obtain ⟨_, s₁₀, h₉, hrun⟩ := hrun.bind
  obtain ⟨otherwise, s₁₁, h₁₀, hcont⟩ := hrun.bind
  obtain ⟨c, l, ts, r, hadds, hd, hopen, hclose⟩ :=
    condition_spec hparts rfl (hquiet.ready hready) hn h₁ h₂ h₃
  have htest := hquiet.adds hadds
  obtain ⟨rfl, hw⟩ := Accepts.of_emitJump h₄
  obtain ⟨rfl, hw'⟩ := Accepts.of_emitJump h₇
  have hp := Accepts.of_patchJump h₈
  have hpop := Accepts.of_emit .pop h₅ fun _ _ => rfl
  have hpop' := Accepts.of_emit .pop h₉ fun _ _ => rfl
  have hready₆ := ((htest.ready hready).of_same hw.steps hw.locals).of_same (hpop.steps 0) hpop.locals
  have hlen₄ := hadds.steps.length_rest
  have hlen₅ := hw.steps.length_rest
  have hlen₆ := (hpop.steps 0).length_rest
  rw [List.length_nil] at hlen₅ hlen₆
  obtain ⟨yes, hyes⟩ := hparts.statement hready₆ (by omega) h₆
  have hdepth₆ : s₆.body.depth = s.body.depth := by
    rw [(hpop.steps 0).depth, hw.steps.depth, htest.steps.depth]
  obtain ⟨us, hdoes, hdyes, hlen₇⟩ := hyes.behindPop hpop.adds hdepth₆
  have hafter : Steps 0 s₇ [] s₈ := hw'.steps
  have hready₇ := hdoes.ready ((htest.ready hready).of_same hw.steps hw.locals)
  have hready₁₀ := ((hready₇.of_same hafter hw'.locals).of_same hp.steps hp.locals).of_same
    (hpop'.steps 0) hpop'.locals
  have hcurrent : s₁₀.current = s₇.current := by
    rw [(hpop'.steps 0).current, hp.current, hafter.current]
  have hdepth₁₀ : s₁₀.body.depth = s.body.depth := by
    rw [(hpop'.steps 0).depth, hp.steps.depth, hafter.depth, hdoes.steps.depth, hw.steps.depth,
      htest.steps.depth]
  have hlen₇' := hdoes.steps.length_rest
  have hlen₁₀ := ((hafter.mono (Nat.zero_le _)).trans (hp.steps.trans (hpop'.steps _))).length_rest
  have hlen₁₁ := h₁₀.length_rest
  simp only [List.length_append, List.length_nil] at hlen₁₀
  dsimp only at hcont
  rcases Accepts.of_accept h₁₀ with ⟨rfl, helse, hr₂⟩ | ⟨rfl, helse, rfl⟩
  · rw [if_pos rfl] at hcont
    obtain ⟨_, s₁₂, h₁₁, h₁₂⟩ := hcont.bind
    have hp' := Accepts.of_patchJump h₁₂
    have hquiet₂ := hr₂.quiet (ne_eof helse nofun)
    obtain ⟨no, hno⟩ := hparts.statement (hquiet₂.ready hready₁₀) (by omega) h₁₁
    obtain ⟨vs, hdoes', hdno, hlen'⟩ := hno.behindPop (hpop'.adds.quiet hquiet₂)
      (hquiet₂.steps.depth.trans hdepth₁₀)
    obtain ⟨hbranch, hlocals⟩ := Does.branch hw hdoes hlen₇ hw' hp hdoes' hlen' hp'
    refine ⟨.cond c yes (some no), ⟨_, (htest.does.trans hbranch).map ?_, ?_⟩,
      hlocals.trans htest.locals, ?_⟩
    · rintro routines F L i j L' ⟨k, L₁, ⟨rfl, hl⟩, rfl, k', m, t, hi, ⟨-, l, hi', hyes'⟩, hj, -, n', hi'', hno'⟩
      exact .condElse hl hi hi' hyes' hj hi'' hno'
    · have hclosed : yes.isOpen = false := by
        cases hopen' : yes.isOpen with
        | false => rfl
        | true => exact absurd (hcurrent ▸ helse) (hyes.dangling hopen')
      have := Derives.condElse hk hopen hclose helse hd hdyes hclosed hdno
      simpa using this
    · intro hopen'
      rw [hp'.current]
      exact hno.dangling hopen'
  · rw [if_neg nofun] at hcont
    have hp' := Accepts.of_patchJump hcont
    obtain ⟨hbranch, hlocals⟩ :=
      Does.branch hw hdoes hlen₇ hw' hp hpop'.adds.does hpop'.adds.locals hp'
    refine ⟨.cond c yes none, ⟨_, (htest.does.trans hbranch).map ?_, ?_⟩,
      hlocals.trans htest.locals, fun _ => hp'.current ▸ helse⟩
    · rintro routines F L i j L' ⟨k, L₁, ⟨rfl, hl⟩, rfl, k', m, t, hi, ⟨-, l, hi', hyes'⟩, hj, -, hi''⟩
      exact .cond hl hi hi' hyes' hj hi''
    · have := Derives.cond hk hopen hclose hd hdyes
      simpa using this

theorem while_spec (hready : s.Ready) (hn : s₁.rest.length ≤ n) (hr : s.Reads s₁)
    (hk : s.current.kind = .kwWhile) (h : Accepts (whileStatement parts) s₁ u s') :
    ∃ st, StatementOf s st s' := by
  have hquiet := hr.quiet (ne_eof hk nofun)
  obtain ⟨start, s₂, h₁, hrun⟩ := h.bind
  obtain ⟨rfl, rfl⟩ := Accepts.of_here h₁
  obtain ⟨_, s₃, h₂, hrun⟩ := hrun.bind
  obtain ⟨_, s₄, h₃, hrun⟩ := hrun.bind
  obtain ⟨_, s₅, h₄, hrun⟩ := hrun.bind
  obtain ⟨exit, s₆, h₅, hrun⟩ := hrun.bind
  obtain ⟨_, s₇, h₆, hrun⟩ := hrun.bind
  obtain ⟨_, s₈, h₇, hrun⟩ := hrun.bind
  obtain ⟨_, s₉, h₈, hrun⟩ := hrun.bind
  obtain ⟨_, s₁₀, h₉, h₁₀⟩ := hrun.bind
  obtain ⟨c, l, ts, r, htest, hd, hopen, hclose⟩ :=
    condition_spec hparts rfl (hquiet.ready hready) hn h₂ h₃ h₄
  obtain ⟨rfl, hw⟩ := Accepts.of_emitJump h₅
  have hpop := Accepts.of_emit .pop h₆ fun _ _ => rfl
  have hready₅ := htest.ready (hquiet.ready hready)
  have hready₇ := (hready₅.of_same hw.steps hw.locals).of_same (hpop.steps 0) hpop.locals
  have hlen₅ := htest.steps.length_rest
  have hlen₆ := hw.steps.length_rest
  have hlen₇ := (hpop.steps 0).length_rest
  rw [List.length_nil] at hlen₆ hlen₇
  obtain ⟨body, hbody⟩ := hparts.statement hready₇ (by omega) h₇
  have hdepth₇ : s₇.body.depth = s.body.depth := by
    rw [(hpop.steps 0).depth, hw.steps.depth, htest.steps.depth, hquiet.steps.depth]
  obtain ⟨us, hdoes, hdbody, hlen₈⟩ := hbody.behindPop hpop.adds hdepth₇
  have hstart := Nat.le_trans htest.steps.size (Nat.le_trans hw.steps.size hdoes.steps.size)
  have hloop := Accepts.of_emitLoop h₈ hstart
  have hover := Does.jumpOver hw (hdoes.trans hloop.adds.does) (Accepts.of_patchJump h₉)
  have hpop' := Accepts.of_emit .pop h₁₀ fun _ _ => rfl
  have hall := (htest.does.trans (hover.trans hpop'.adds.does)).starts
  refine ⟨.while c body, ⟨_, (hquiet.does hall).map ?_, ?_⟩, ?_, fun hopen' => ?_⟩
  · rintro routines F L i j L' ⟨rfl, k, L₁, ⟨rfl, hl⟩, t, L₂, ⟨k', -, hi, m, L₃, ⟨rfl, l, hi', hbody'⟩,
      rfl, hm⟩, rfl, ht⟩
    exact .while hl (hi rfl) hi' hbody' hm ht
  · have := Derives.while hk hopen hclose hd hdbody
    simpa using this
  · rw [hpop'.locals, (Accepts.of_patchJump h₉).locals, hloop.locals, hlen₈, hw.locals, htest.locals, hquiet.locals]
  · rw [(hpop'.steps 0).current, (Accepts.of_patchJump h₉).current, (hloop.steps 0).current]
    exact hbody.dangling hopen'

/-! ## For loops -/

/-- The first clause of a loop. -/
theorem first_spec (hready : s.Ready) (hn : s.rest.length ≤ n + 1)
    (h : Accepts (forInitializer parts) s u s') : ∃ first ts,
      Does s ts s' (executes s.body.depth (.code first.toList)) ∧ Derives (.first first) ts := by
  obtain ⟨semi, s₁, h₁, hrun⟩ := h.bind
  rcases Accepts.of_accept h₁ with ⟨rfl, hsemi, hr⟩ | ⟨rfl, -, rfl⟩
  · rw [if_pos rfl] at hrun
    obtain ⟨-, rfl⟩ := Accepts.of_pure hrun
    have hquiet := hr.quiet (ne_eof hsemi nofun)
    refine ⟨none, _, ⟨hquiet.steps, declared_same hquiet.steps hquiet.locals, fun hc _ => ?_⟩,
      .noFirst hsemi⟩
    rw [Body.oldest_length (hc.length.trans hquiet.locals), hquiet.size]
    exact .nothing
  · rw [if_neg nofun] at hrun
    obtain ⟨var, s₂, h₂, hcont⟩ := hrun.bind
    rcases Accepts.of_accept h₂ with ⟨rfl, hvar, hr⟩ | ⟨rfl, -, rfl⟩
    · rw [if_pos rfl] at hcont
      have hlen := (hr.quiet (ne_eof hvar nofun)).steps.length_rest
      rw [List.length_singleton] at hlen
      obtain ⟨name, value, ts, hdoes, hd⟩ :=
        variable_spec hparts hready (by omega) hr hvar hcont
      exact ⟨some (.var name value), ts, hdoes, .firstVar hd⟩
    · rw [if_neg nofun] at hcont
      obtain ⟨e, he⟩ := expression_spec hparts hready hn hcont
      obtain ⟨ts, hdoes, hd⟩ := he.tokens
      exact ⟨some (.expression e), ts, hdoes, .firstExpression hd⟩

/-- The code for the condition of a loop, whose jump waits for the end of the loop. -/
inductive Tests (s : Builder) : Option Expr → List Token → Option Nat → Builder → Prop where
  | none {ts s'} : Quiet s ts s' → Tests s none ts none s'
  | some {c ts s₁ s₂ s'} : Adds s ts s₁ (fun F L => F.Loads L [c]) → Awaits s₁ .jumpIfFalse s₂ →
      Emits s₂ .pop s' → Tests s (some c) ts (some (s₁.body.chunk.size + 1)) s'

omit hparts in
theorem Tests.same {c : Option Expr} {ts : List Token} {exit : Option Nat}
    (h : Tests s c ts exit s') :
    Steps 0 s ts s' ∧ s'.body.locals.length = s.body.locals.length := by
  cases h with
  | none hquiet => exact ⟨hquiet.steps, hquiet.locals⟩
  | some hadds hw hpop =>
      have := (hadds.steps.trans hw.steps).trans (hpop.steps 0)
      rw [List.append_nil, List.append_nil] at this
      exact ⟨this, by rw [hpop.locals, hw.locals, hadds.locals]⟩

theorem test_spec (hready : s.Ready) (hn : s.rest.length ≤ n + 1) {exit : Option Nat}
    (h : Accepts (forCondition parts) s exit s') : ∃ c ts semi, Tests s c (ts ++ [semi]) exit s' ∧
      Derives (.optional c) ts ∧ semi.kind = .semicolon := by
  obtain ⟨none, s₁, h₁, hrun⟩ := h.bind
  rcases Accepts.of_accept h₁ with ⟨rfl, hsemi, hr⟩ | ⟨rfl, -, rfl⟩
  · rw [if_pos rfl] at hrun
    obtain ⟨rfl, rfl⟩ := Accepts.of_pure hrun
    exact ⟨.none, [], s.current, .none (hr.quiet (ne_eof hsemi nofun)), .absent, hsemi⟩
  · rw [if_neg nofun] at hrun
    obtain ⟨_, s₂, h₂, hcont⟩ := hrun.bind
    obtain ⟨_, s₃, h₃, hcont⟩ := hcont.bind
    obtain ⟨jump, s₄, h₄, hcont⟩ := hcont.bind
    obtain ⟨_, s₅, h₅, h₆⟩ := hcont.bind
    obtain ⟨c, ts, semi, hadds, hd, hsemi⟩ := closed_spec hparts hready.super hn h₂ h₃
    obtain ⟨rfl, hw⟩ := Accepts.of_emitJump h₄
    have hpop := Accepts.of_emit .pop h₅ fun _ _ => rfl
    obtain ⟨rfl, rfl⟩ := Accepts.of_pure h₆
    exact ⟨some c, ts, semi, .some hadds hw hpop, .present hd, hsemi⟩

/-- The third clause of a loop, with the parenthesis behind it. -/
theorem step_spec (hready : s.Ready) (hn : s.rest.length ≤ n + 1) {start next : Nat}
    (hstart : start ≤ s.body.chunk.size) (h : Accepts (forIncrement parts start) s next s') :
    ∃ step ts r, Does s (ts ++ [r]) s' (fun _ F L i j L' => L' = L ∧ F.LoopStep L start step i j next) ∧
      s'.body.locals.length = s.body.locals.length ∧ Derives (.optional step) ts ∧
      r.kind = .rightParen ∧ next ≤ s'.body.chunk.size := by
  obtain ⟨none, s₁, h₁, hrun⟩ := h.bind
  rcases Accepts.of_accept h₁ with ⟨rfl, hclose, hr⟩ | ⟨rfl, -, rfl⟩
  · rw [if_pos rfl] at hrun
    obtain ⟨rfl, rfl⟩ := Accepts.of_pure hrun
    have hquiet := hr.quiet (ne_eof hclose nofun)
    refine ⟨.none, [], s.current, ⟨hquiet.steps, declared_same hquiet.steps hquiet.locals,
      fun hc _ => ?_⟩, hquiet.locals, .absent, hclose, hquiet.size ▸ hstart⟩
    rw [Body.oldest_length (hc.length.trans hquiet.locals), hquiet.size]
    exact ⟨rfl, .none⟩
  · rw [if_neg nofun] at hrun
    obtain ⟨jump, s₂, h₂, hcont⟩ := hrun.bind
    obtain ⟨_, s₃, h₃, hcont⟩ := hcont.bind
    obtain ⟨_, s₄, h₄, hcont⟩ := hcont.bind
    obtain ⟨_, s₅, h₅, hcont⟩ := hcont.bind
    obtain ⟨_, s₆, h₆, hcont⟩ := hcont.bind
    obtain ⟨_, s₇, h₇, hcont⟩ := hcont.bind
    obtain ⟨_, s₈, h₈, h₉⟩ := hcont.bind
    obtain ⟨rfl, hw⟩ := Accepts.of_emitJump h₂
    obtain ⟨rfl, rfl⟩ := Accepts.of_here h₃
    have hlen := hw.steps.length_rest
    rw [List.length_nil] at hlen
    have hready₃ := hready.of_same hw.steps hw.locals
    obtain ⟨e, ts, hadds, hd⟩ := hparts.expression hready₃.super (by omega) h₄
    have hpop := Accepts.of_emit .pop h₅ fun _ _ => rfl
    obtain ⟨hclose, hr⟩ := Accepts.of_expect h₆
    have hstep := (hadds.trans hpop.adds).quiet (hr.quiet (ne_eof hclose nofun))
    have hsize := Nat.le_trans hw.steps.size hstep.steps.size
    have hloop := Accepts.of_emitLoop h₇ (Nat.le_trans hstart hsize)
    have hp := Accepts.of_patchJump h₈
    obtain ⟨rfl, rfl⟩ := Accepts.of_pure h₉
    have hinner := (hstep.trans hloop.adds).does.starts
    refine ⟨some e, ts, s₅.current, ?_, ?_, .present hd, hclose, ?_⟩
    · have := (Does.jumpOver hw hinner hp).map (Q := fun _ F L i j L' =>
        L' = L ∧ F.LoopStep L start (some e) i j s₃.body.chunk.size) ?_
      · simpa using this
      · rintro routines F L i j L' ⟨k, hi, -, rfl, rfl, l, ⟨m, hl, hm⟩, hloop'⟩
        exact ⟨rfl, .some (hi rfl) hl hm hloop'⟩
    · rw [hp.locals, hloop.locals, hstep.locals, hw.locals]
    · exact Nat.le_trans hstep.steps.size (Nat.le_trans (hloop.steps 0).size hp.steps.size)

omit hparts in
/-- What stands behind the body of a loop, where its condition leads to. -/
theorem Tests.close {c : Option Expr} {ts us : List Token} {exit : Option Nat}
    {P : Array Routine → Layout → List Local → Nat → Nat → Prop} {v : Unit} {s₂ : Builder} (ht : Tests s c ts exit s₁)
    (hdoes : Does s₁ us s₂ fun routines F L i j L' => L' = L ∧ P routines F L i j)
    (h : Accepts (match exit with
      | .none => endScope
      | .some p => do
        patchJump p
        emit .pop
        endScope) s₂ v s') :
    ∃ s₃, Accepts endScope s₃ v s' ∧ s₃.current = s₂.current ∧
      Does s (ts ++ us) s₃ fun routines F L i j L' => L' = L ∧ ∃ k l,
        F.LoopTest L l c i k ∧ P routines F L k l ∧ F.LoopEnd c l j := by
  cases ht with
  | none hquiet =>
      refine ⟨s₂, h, rfl, (hquiet.does hdoes).map ?_⟩
      rintro routines F L i j L' ⟨rfl, hp⟩
      exact ⟨rfl, i, j, .none, hp, rfl⟩
  | @some c _ _ _ _ hadds hw hpop =>
      obtain ⟨_, s₃, h₁, hcont⟩ := h.bind
      obtain ⟨_, s₄, h₂, h₃⟩ := hcont.bind
      have hp := Accepts.of_patchJump h₁
      have hpop' := Accepts.of_emit .pop h₂ fun _ _ => rfl
      have hover := Does.jumpOver hw (hpop.adds.does.trans hdoes) hp
      have hall := hadds.does.trans (hover.trans hpop'.adds.does)
      simp only [List.nil_append, List.append_nil] at hall
      refine ⟨s₄, h₃, ?_, hall.map ?_⟩
      · rw [(hpop'.steps 0).current, hp.current]
      · rintro routines F L i j L' ⟨k, L₁, ⟨rfl, hl⟩, t, L₂, ⟨k', -, hi, m, L₃, ⟨rfl, hi'⟩, rfl, hp⟩,
          rfl, ht⟩
        exact ⟨rfl, m, t, .some hl (hi trivial) hi', hp, ht⟩

theorem for_spec (hready : s.Ready) (hn : s₁.rest.length ≤ n) (hr : s.Reads s₁)
    (hk : s.current.kind = .kwFor) (h : Accepts (forStatement parts) s₁ u s') :
    ∃ st, StatementOf s st s' := by
  have hkeeps (exit : Option Nat) : Keeps (match exit with
      | none => endScope
      | some p => do
        patchJump p
        emit .pop
        endScope) := by
    cases exit <;> dsimp only <;> infer_instance
  have hquiet := hr.quiet (ne_eof hk nofun)
  unfold forStatement at h
  dsimp only at h
  obtain ⟨_, s₂, h₁, hrun⟩ := h.bind
  obtain rfl := Accepts.of_beginScope h₁
  obtain ⟨_, s₃, h₂, hrun⟩ := hrun.bind
  obtain ⟨_, s₄, h₃, hrun⟩ := hrun.bind
  obtain ⟨start, s₅, h₄, hrun⟩ := hrun.bind
  obtain ⟨exit, s₆, h₅, hrun⟩ := hrun.bind
  obtain ⟨next, s₇, h₆, hrun⟩ := hrun.bind
  obtain ⟨_, s₈, h₇, hrun⟩ := hrun.bind
  obtain ⟨_, s₉, h₈, hend⟩ := hrun.bind
  obtain ⟨rfl, rfl⟩ := Accepts.of_here h₄
  have hready₁ := hquiet.ready hready
  obtain ⟨hopen, hr₂⟩ := Accepts.of_expect h₂
  have hquiet₂ := hr₂.quiet (ne_eof hopen nofun)
  have hready₃ := hquiet₂.ready hready₁.inScope
  have hlen₃ := h₂.length_rest
  have hlen₅ := h₃.length_rest
  have hlen₆ := h₅.length_rest
  have hlen₇ := h₆.length_rest
  have hn₂ : s₁.inScope.rest.length ≤ n := hn
  obtain ⟨first, ts, hfirst, hdfirst⟩ := first_spec hparts hready₃ (by omega) h₃
  have hready₅ := hfirst.ready hready₃
  obtain ⟨c, us, semi, htest, hdc, hsemi⟩ := test_spec hparts hready₅ (by omega) h₅
  have hready₆ := hready₅.of_steps htest.same.1 (declared_same htest.same.1 htest.same.2)
  obtain ⟨step, vs, r, hstep, hsame, hdstep, hclose, hnext⟩ :=
    step_spec hparts hready₆ (by omega) htest.same.1.size h₆
  have hready₇ := hstep.ready hready₆
  obtain ⟨body, hbody⟩ := hparts.statement hready₇ (by omega) h₇
  obtain ⟨ws, hdoes, hdbody⟩ := hbody.tokens
  have hloop := Accepts.of_emitLoop h₈ (Nat.le_trans hnext hdoes.steps.size)
  have hdepth₃ : s₃.body.depth = s.body.depth + 1 := by
    rw [hquiet₂.steps.depth, ← hquiet.steps.depth]
    rfl
  have hdepth₇ : s₇.body.depth = s.body.depth + 1 := by
    rw [hstep.steps.depth, htest.same.1.depth, hfirst.steps.depth, hdepth₃]
  rw [hdepth₃] at hfirst
  rw [hdepth₇] at hdoes
  have hinner := ((hstep.trans (hdoes.same hbody.locals)).trans hloop.adds.does).map
    (Q := fun routines F L i j L' => L' = L ∧ ∃ l m, F.LoopStep L s₅.body.chunk.size step i l next ∧
      Layout.Runs routines F (s.body.depth + 1) L (.code [body]) l m L ∧ F.At m (.loop next) j) <| by
    rintro routines F L i j L' ⟨m, L₁, ⟨l, L₂, ⟨rfl, hl⟩, rfl, hb⟩, rfl, hm⟩
    exact ⟨rfl, l, m, hl, hb, hm⟩
  obtain ⟨s₁₀, hend', hcurrent, hall⟩ := htest.close hinner hend
  obtain ⟨hscope, hlocals⟩ :=
    Does.scope hready₁ (hquiet₂.does (hfirst.trans hall.starts)) hend'
  refine ⟨.for first c step body, ⟨_, (hquiet.does hscope).map ?_, ?_⟩,
    hlocals.trans hquiet.locals, fun hopen' => ?_⟩
  · rintro routines F L i j L' ⟨rfl, new, p, ⟨a, L₁, hf, rfl, rfl, b, exit, hc, ⟨l, m, hs, hb, hm⟩, he⟩,
      hdrops⟩
    exact .for hf hc hs hb hm he hdrops
  · have := Derives.for hk hopen hsemi hclose hdfirst hdc hdstep hdbody
    simpa using this
  · rw [Accepts.current_endScope hend', hcurrent, (hloop.steps 0).current]
    exact hbody.dangling hopen'

end Rules

end LoxMachine.Statement
