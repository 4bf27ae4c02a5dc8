import LoxMachine.Proofs.Compile.Classes
import LoxMachine.Proofs.Compile.Scanned

/-!
# Compiled programs

Main statement: `compile_spec`. A text that is accepted is a sequence of declarations of the grammar,
and the code of its program is laid out for their trees.
-/

namespace LoxMachine

open Builder Syntax Statement
open Expression (length_reads ne_eof)

/-- The functions inside a script are kept from `firstIndex` on. -/
def Program.KeptIn (firstIndex : Nat) (p : Program) (routines : Array Routine) : Prop :=
  ∀ (k : Nat) (r : Routine), p.nested[k]? = some r → routines[firstIndex + k]? = some r

/-- A program is laid out for the declarations of a script, wherever its functions are kept from
`firstIndex` on. -/
structure Program.LaidOut (firstIndex : Nat) (p : Program) (tree : List Stmt) : Prop where
  main : p.main.function = ⟨firstIndex + p.nested.size, "", 0, 0⟩
  kind : p.main.kind = .script
  code : ∀ routines : Array Routine, p.KeptIn firstIndex routines →
    ∃ captured k l, Layout.Runs routines (.script p.main.code) 0 [⟨"", some 0, captured⟩]
        (.code tree) 0 k [⟨"", some 0, captured⟩] ∧
      (Layout.script p.main.code).At k (.push .nil) l ∧
      (Layout.script p.main.code).At l .ret p.main.code.size
  nested : ∀ r ∈ p.nested, ∀ routines : Array Routine, p.KeptIn firstIndex routines → r.LaidOut routines
  constants : ∀ r ∈ p.routines, ∀ v ∈ r.code.constants, Admits firstIndex p.nested v

namespace Builder

variable {s s' : Builder} {u : Unit}

/-! ## The declarations of a script -/

theorem Accepts.of_script {n b : Nat} (hready : s.Ready) (hn : s.rest.length ≤ n + 1)
    (hb : s.rest.length ≤ b) (h : Accepts (repeatWhile (do return !(← accept .eof))
      (Statement.declaration (n + 1)) b) s u s') :
    ∃ ss ts s₁, Does s ts s₁ (executes s.body.depth (.code ss)) ∧ Derives (.declarations ss) ts ∧
      s₁.current.kind = .eof ∧ s₁.upcoming = [] ∧ s₁.Reads s' := by
  induction b generalizing s with
  | zero => cases hb
  | succ b ih =>
      obtain ⟨go, s₁, h₁, h₂⟩ := Accepts.bind (by rw [repeatWhile] at h; exact h)
      obtain ⟨eof, s₂, h₃, h₄⟩ := h₁.bind
      obtain ⟨rfl, rfl⟩ := Accepts.of_pure h₄
      rcases Accepts.of_accept h₃ with ⟨rfl, heof, hr⟩ | ⟨rfl, -, rfl⟩
      · rw [if_neg nofun] at h₂
        obtain ⟨-, rfl⟩ := Accepts.of_pure h₂
        have hends := h.sound.ends
        rw [if_pos heof] at hends
        refine ⟨[], [], s, ⟨Steps.refl 0 s, declared_same (Steps.refl 0 s) rfl, fun hc _ => ?_⟩,
          .noDeclarations, heof, hends, hr⟩
        rw [Body.oldest_length hc.length]
        exact .nothing
      · rw [Bool.not_false, if_pos rfl] at h₂
        obtain ⟨_, s₃, h₅, h₆⟩ := h₂.bind
        obtain ⟨st, ts, hdoes, hd⟩ := (parts_spec (n + 1)).declaration hready hn h₅
        have hlen := hdoes.steps.length_rest
        have hpos := hd.pos rfl
        obtain ⟨ss, us, s₄, hdoes', hd', hend⟩ :=
          ih (hdoes.ready hready) (by omega) (by omega) h₆
        rw [hdoes.steps.depth] at hdoes'
        refine ⟨st :: ss, _, s₄, (hdoes.trans hdoes').map ?_, .declarations hd hd', hend⟩
        rintro routines F L i j L' ⟨k, L₁, hr, hr'⟩
        exact hr.cons hr'

/-! ## The start -/

theorem pull_upcoming (s : Builder) (us vs : List Token) :
    Builder.pull { s with upcoming := us } vs = s.pull vs := by
  induction vs generalizing s with
  | nil => rfl
  | cons t vs ih =>
      rw [pull, pull]
      split
      · have : Builder.report { s with upcoming := us } (.scan t.line ‹_›) =
            { s.report (.scan t.line ‹_›) with upcoming := us } := by
          rw [report, report]
          split <;> rfl
        rw [this, ih]
      · rfl

/-- A builder that has not been given any tokens yet. -/
theorem sound_start (firstIndex : Nat) : Sound (Program.start firstIndex []) := by
  refine ⟨fun _ => rfl, fun t ht => ?_, rfl, fun b hb => ?_, rfl⟩
  · have : t = .eof 1 := by simpa [Program.start] using ht
    rw [this]
    exact ⟨nofun, nofun⟩
  · obtain rfl : b = Body.new .script "" := by simpa [Program.start] using hb
    exact ⟨by decide, by decide, by decide⟩

theorem sound_first {firstIndex : Nat} {tokens : List Token} (hproper : ∀ t ∈ tokens, t.Proper)
    (hends : EndOnce tokens) : ((Program.start firstIndex []).pull tokens).Sound :=
  (sound_start firstIndex).pull hproper (.inr hends)

/-- Once the first token has been read, all of them are left. -/
theorem first_spec {firstIndex : Nat} {tokens : List Token} (hends : EndOnce tokens)
    (h : ((Program.start firstIndex []).pull tokens).errors = #[]) :
    ((Program.start firstIndex []).pull tokens).rest = tokens ∧
      ((Program.start firstIndex []).pull tokens).body = .new .script "" ∧
      ((Program.start firstIndex []).pull tokens).outer = [] ∧
      ((Program.start firstIndex []).pull tokens).classes = [] ∧
      ((Program.start firstIndex []).pull tokens).firstIndex = firstIndex ∧
      ((Program.start firstIndex []).pull tokens).finished = #[] := by
  rcases pull_of_clean rfl h with ⟨-, hnil⟩ | ⟨t, us, hus, heq⟩
  · obtain ⟨inner, last, heq, -⟩ := hends
    rw [hnil] at heq
    simp at heq
  · rw [heq, hus]
    exact ⟨rfl, rfl, rfl, rfl, rfl, rfl⟩

/-- Before the first token no function has been compiled. -/
theorem orderly_empty (firstIndex : Nat) :
    Orderly firstIndex #[] (Body.new .script "").chunk [] where
  own := fun v hv => by simp [Body.new] at hv
  around := fun b hb => by cases hb
  inside := fun r hr => by simp at hr
  laidOut := fun r hr => by simp at hr

theorem ready_first {s : Builder} (hbody : s.body = .new .script "") (houter : s.outer = [])
    (hclasses : s.classes = []) : s.Ready := by
  refine ⟨fun l hl => ?_, fun _ => ⟨houter, fun name hid => ?_⟩, fun h => ?_⟩
  · rw [hbody] at hl
    obtain rfl := List.mem_singleton.mp hl
    exact ⟨0, rfl, Nat.zero_le _⟩
  · rw [hbody]
    exact Layout.slot?_cons_of_ne hid.1.symm
  · rw [hclasses] at h
    cases h

end Builder

/-! ## Programs -/

namespace Program

/-- The rest of a script once its first token has been read. -/
def declarations (bound : Nat) : Build Unit := do
  repeatWhile (do return !(← accept .eof)) (Statement.declaration (bound + 1)) bound
  emitReturn

theorem script_run (firstIndex : Nat) (tokens : List Token) (bound : Nat) :
    script bound (start firstIndex tokens) =
      declarations bound ((start firstIndex []).pull tokens) := by
  have : script bound (start firstIndex tokens) =
      declarations bound ((start firstIndex tokens).pull tokens) := rfl
  rw [this]
  exact congrArg _ (pull_upcoming (start firstIndex []) tokens tokens)

theorem conclude_ok {s : Builder} {p : Program} (h : conclude s = .ok p) :
    s.errors = #[] ∧ p = ⟨s.finished, s.routine⟩ := by
  rw [conclude] at h
  split at h
  · exact ⟨Array.isEmpty_iff.mp (by assumption), (Except.ok.inj h).symm⟩
  · cases h

/-- Outside of all scopes a script has no local but the one in slot zero. -/
theorem script_locals {ts : List Token} {P : Deed} {s s' : Builder} {L : List Local} (h : Does s ts s' P)
    (hbody : s.body = .new .script "") (hL : Body.Raised s'.body.locals L) :
    ∃ captured, L = [⟨"", some 0, captured⟩] := by
  obtain ⟨new, old, heq, hold, -, hzero⟩ := h.declared
  obtain rfl := hzero (by rw [hbody]; rfl)
  have hold := hold.trans (heq ▸ hL)
  rw [hbody] at hold
  obtain ⟨⟨name, depth, captured⟩, rest, hl, hrest, rfl⟩ := List.forall₂_cons_left_iff.mp hold
  obtain rfl := List.forall₂_nil_left_iff.mp hrest
  obtain rfl : name = "" := hl.name
  obtain rfl : depth = some 0 := hl.depth
  exact ⟨captured, rfl⟩

/-- What an accepted script makes of a builder that has read nothing but its first token. -/
theorem declarations_laidOut {bound : Nat} {s s' : Builder} {u : Unit}
    (h : Accepts (declarations bound) s u s') (hb : s.rest.length ≤ bound)
    (hbody : s.body = .new .script "") (houter : s.outer = []) (hclasses : s.classes = [])
    (hfinished : s.finished = #[]) :
    ∃ tree ts last, s.rest = ts ++ [last] ∧ last.kind = .eof ∧ Derives (.declarations tree) ts ∧
      LaidOut s.firstIndex ⟨s'.finished, s'.routine⟩ tree := by
  have hready := ready_first hbody houter hclasses
  obtain ⟨_, s₂, h₁, h₂⟩ := h.bind
  obtain ⟨tree, ts, s₁, hdoes, hd, heof, hnil, hr⟩ :=
    Accepts.of_script hready (Nat.le_succ_of_le hb) hb h₁
  have hret := of_emitReturn h₂
  have hsame : s₂.body = s₁.body ∧ s₂.outer = s₁.outer ∧ s₂.firstIndex = s₁.firstIndex ∧
      s₂.finished = s₁.finished := by
    rw [hr.eq]
    exact ⟨rfl, rfl, rfl, rfl⟩
  obtain ⟨hbody₂, houter₂, hindex₂, hfinished₂⟩ := hsame
  have houter' : s'.outer = [] := by
    have h₁ : s₁.outer = [] := List.forall₂_nil_left_iff.mp (houter ▸ hdoes.steps.outer)
    exact List.forall₂_nil_left_iff.mp ((houter₂.trans h₁) ▸ hret.steps.outer)
  have hcaptures : s'.body.captures = #[] := by
    have : Keeps (declarations bound) := by
      unfold declarations
      infer_instance
    have := h.sound'.wired
    rwa [houter'] at this
  have hindex : s'.firstIndex = s.firstIndex := by
    rw [hret.steps.firstIndex, hindex₂, hdoes.steps.firstIndex]
  have hscript : s'.body.kind = .script := by
    rw [hret.steps.kind, hbody₂, hdoes.steps.kind, hbody]
    rfl
  have hlayout : s'.layout [] = .script s'.body.chunk := by
    simp [layout, Layout.script, hcaptures, hscript]
  have horderly : Orderly s'.firstIndex s'.finished s'.body.chunk s'.outer := by
    refine hret.steps.orderly ?_
    rw [hindex₂, hfinished₂, hbody₂, houter₂]
    refine hdoes.steps.orderly ?_
    rw [hbody, houter, hfinished]
    exact orderly_empty s.firstIndex
  rw [houter', hindex] at horderly
  refine ⟨tree, ts, s₁.current, ?_, heof, hd, ?_, hscript, fun routines hroutines => ?_,
    horderly.laidOut, fun r hr => ?_⟩
  · rw [hdoes.steps.rest, rest, hnil]
  · have hname : s'.body.name = "" := by
      rw [hret.steps.name, hbody₂, hdoes.steps.name, hbody]
      rfl
    have harity : s'.body.arity = 0 := by
      rw [hret.steps.arity, hbody₂, hdoes.steps.arity, hbody]
      rfl
    simp only [routine, hname, harity, hcaptures, hindex]
    rfl
  · have hc : Completes routines (s'.layout []) s'.body.locals 0 s' :=
      completes_layout (fun k r hk => hindex ▸ hroutines k r hk) (houter' ▸ .nil)
    have hc₂ := hc.before_same hret.steps hret.locals
    have hc₁ : Completes routines (s'.layout []) s'.body.locals 0 s₁ :=
      ⟨hbody₂ ▸ hc₂.code, houter₂ ▸ hbody₂ ▸ hc₂.captured, hbody₂ ▸ hc₂.captures,
        houter₂ ▸ hc₂.around, hbody₂ ▸ hc₂.kind, hbody₂ ▸ hc₂.locals,
        hindex₂ ▸ hfinished₂ ▸ hc₂.routines⟩
    obtain ⟨hkind, l, hresult, hend⟩ := hret.code hc (Nat.zero_le _)
    have hruns := hdoes.code hc₁ (Nat.zero_le _)
    obtain ⟨captured, hlocals⟩ := script_locals hdoes hbody hc₁.locals
    have hsize₂ : s₂.body.chunk.size = s₁.body.chunk.size := by rw [hbody₂]
    rw [hlayout, hsize₂] at hresult
    rw [hlayout] at hend
    rw [hlayout, hlocals, hbody] at hruns
    exact ⟨captured, _, l, hruns, hresult, hend⟩
  · rcases Array.mem_push.mp hr with hr | rfl
    · exact horderly.inside r hr
    · exact horderly.own

theorem ofTokens_spec {firstIndex : Nat} {tokens : List Token} {p : Program}
    (hproper : ∀ t ∈ tokens, t.Proper) (hends : EndOnce tokens)
    (h : ofTokens firstIndex tokens = .ok p) : ∃ tree ts last, tokens = ts ++ [last] ∧
      last.kind = .eof ∧ Derives (.declarations tree) ts ∧ p.LaidOut firstIndex tree := by
  rw [ofTokens, script_run] at h
  obtain ⟨hclean, rfl⟩ := conclude_ok h
  have : Keeps (declarations tokens.length) := by
    unfold declarations
    infer_instance
  have hacc : Accepts (declarations tokens.length) ((start firstIndex []).pull tokens) () _ :=
    ⟨sound_first hproper hends, rfl, hclean⟩
  obtain ⟨hrest, hbody, houter, hclasses, hindex, hfinished⟩ :=
    first_spec hends hacc.clean_start
  have := declarations_laidOut hacc (Nat.le_of_eq (congrArg List.length hrest)) hbody houter hclasses
    hfinished
  rwa [hrest, hindex] at this

/-- A text that is accepted is a script of the grammar, and its program is laid out for it. -/
theorem compile_spec {firstIndex : Nat} {source : String} {p : Program}
    (h : compile firstIndex source = .ok p) :
    ∃ tree ts last, (Scanner.ofString source).tokens = ts ++ [last] ∧ last.kind = .eof ∧
      Derives (.declarations tree) ts ∧ p.LaidOut firstIndex tree := by
  obtain ⟨hproper, hends⟩ := Scanner.tokens_spec (Scanner.ofString source)
  exact ofTokens_spec hproper hends h

/-- What is computed from the outcome of compiling a text without errors comes from its program. -/
theorem exists_of_map_compile {firstIndex : Nat} {source : String} {β : Type} {f : Program → β}
    {b : β} (h : (compile firstIndex source).map f = .ok b) :
    ∃ p, compile firstIndex source = .ok p ∧ f p = b := by
  cases hp : compile firstIndex source with
  | error r =>
      rw [hp] at h
      cases h
  | ok p =>
      rw [hp] at h
      exact ⟨p, rfl, Except.ok.inj h⟩

end Program

end LoxMachine
