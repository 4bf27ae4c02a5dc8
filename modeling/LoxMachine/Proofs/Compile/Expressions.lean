import LoxMachine.Proofs.Compile.Names
import LoxMachine.Proofs.Syntax.Grammar

/-!
# Accepted expressions

An accepted expression is one of the grammar, and its code is laid out for its tree. An expression
in progress (`Parsed`) binds tightly enough to be the left operand of the operator that comes next,
if one does; the loop over the operators keeps this.

Main statement: `within_spec`.
-/

namespace LoxMachine.Expression

open Builder Syntax
open Chunk (Agree)

/-- An expression of level `q` has been compiled, and an operator may follow. -/
structure Parsed (s : Builder) (q : Power) (e : Expr) (s' : Builder) : Prop where
  tokens : ∃ ts, Adds s ts s' (fun F L => F.Loads L [e]) ∧ Derives (.expression q e) ts
  ready : (Power.ofKind s'.current.kind).left ≤ q
  property : e.isProperty = true → s'.current.kind ≠ .leftParen

/-- The parser for operands compiles expressions where at most `n` tokens are left. -/
def Parses (n : Nat) (sub : Power → Build Unit) : Prop :=
  ∀ {p s s' u}, Power.assignment ≤ p → p ≤ Power.unary → s.SuperKnown → s.rest.length ≤ n →
    Accepts (sub p) s u s' → ∃ e ts, Adds s ts s' (fun F L => F.Loads L [e]) ∧
      Derives (.expression p e) ts ∧ ¬ p ≤ Power.ofKind s'.current.kind

/-- Reading a token leaves one less. -/
theorem length_reads {s s' : Builder} (h : s.Reads s') (hne : s.current.kind ≠ .eof) :
    s.rest.length = s'.rest.length + 1 := by
  rw [h.rest hne, List.length_cons]

theorem ne_eof {s : Builder} {k : TokenKind} (h : s.current.kind = k) (hk : k ≠ .eof) :
    s.current.kind ≠ .eof :=
  h ▸ hk

section Operands

variable {bound n : Nat} {sub : Power → Build Unit} [∀ p, Keeps (sub p)] {s s' s₁ : Builder}
  {u : Unit}

set_option synthInstance.maxSize 4096

/-! ## What begins an expression -/

theorem primary {e : Expr} {ts : List Token} (h : Adds s ts s' (fun F L => F.Loads L [e]))
    (hd : Derives (.expression .primary e) ts) (hp : e.isProperty = false) :
    Parsed s .primary e s' :=
  ⟨⟨ts, h, hd⟩, Power.left_le_primary _, fun hp' => by rw [hp] at hp'; cases hp'⟩

/-- A literal is one instruction. -/
theorem literal_spec {v : Value} {e : Expr} (hr : s.Reads s₁) (hne : s.current.kind ≠ .eof)
    (h : Emits s₁ (.push v) s') (hl : ∀ F L i j, F.At i (.push v) j → Layout.Loads F L [e] i j)
    (hd : Derives (.expression .primary e) [s.current]) (hp : e.isProperty = false) :
    Parsed s .primary e s' :=
  primary (((hr.quiet hne).adds h.adds).map hl) hd hp

theorem number_spec (hr : s.Reads s₁) (hk : s.current.kind = .number)
    (h : Accepts number s₁ u s') : ∃ e, Parsed s .primary e s' := by
  obtain ⟨text, s₂, h₁, h₂⟩ :=
    h.bind_of inferInstance fun text => by cases Number.ofLiteral? text <;> infer_instance
  obtain ⟨rfl, rfl⟩ := Accepts.of_lastText h₁
  rw [hr.previous] at h₂
  cases hn : Number.ofLiteral? s.current.text with
  | some n =>
      rw [hn] at h₂
      exact ⟨.number n, literal_spec hr (ne_eof hk nofun) (Accepts.of_emitConstant h₂ trivial)
        (fun _ _ _ _ => .number) (.number hk hn) rfl⟩
  | none =>
      rw [hn] at h₂
      exact absurd h₂ Accepts.not_error

theorem string_spec (hr : s.Reads s₁) (hk : s.current.kind = .string)
    (h : Accepts string s₁ u s') : ∃ e, Parsed s .primary e s' := by
  have h := h.get_bind
  rw [hr.previous] at h
  exact ⟨.string s.current.contents, literal_spec hr (ne_eof hk nofun) (Accepts.of_emitConstant h trivial)
    (fun _ _ _ _ => .string) (.string hk) rfl⟩

theorem named_spec (hsub : Parses n sub) (hsuper : s₁.SuperKnown) (hn : s₁.rest.length ≤ n) (hr : s.Reads s₁)
    (hk : s.current.kind = .identifier) {canAssign : Bool}
    (h : Accepts (named sub s.current.text canAssign) s₁ u s') :
    ∃ q e, (canAssign = false → q = .primary) ∧ Power.assignment ≤ q ∧ Parsed s q e s' := by
  have hid : IsIdentifier s.current.text := by
    refine (h.sound.proper s.current ?_).identifier hk
    rw [hr.previous]
    exact List.mem_cons_self
  have hquiet := hr.quiet (ne_eof hk nofun)
  obtain ⟨v, s₂, h₁, hrest⟩ := h.bind
  have hv := Accepts.of_resolve h₁
  obtain ⟨b, s₃, h₂, hend⟩ := hrest.bind
  have hread : b = true ∧ canAssign = true ∧ s₂.current.kind = .equal ∧ s₂.Reads s₃ ∨
      b = false ∧ s₃ = s₂ := by
    split at h₂
    · rename_i hc
      rcases Accepts.of_accept h₂ with ⟨rfl, hequal, hr'⟩ | ⟨rfl, -, rfl⟩
      · exact .inl ⟨rfl, hc, hequal, hr'⟩
      · exact .inr ⟨rfl, rfl⟩
    · exact .inr (Accepts.of_pure h₂)
  rcases hread with ⟨rfl, hc, hequal, hr'⟩ | ⟨rfl, rfl⟩
  · obtain ⟨_, s₄, h₃, h₄⟩ := hend.bind
    have hequiet := hr'.quiet (ne_eof hequal nofun)
    have hlen : s₃.rest.length ≤ n := by
      have := hv.steps.length_rest
      have := hequiet.steps.length_rest
      simp only [List.length_nil, List.length_singleton] at *
      omega
    obtain ⟨e, ts, hadds, hd, hpower⟩ := hsub (Power.le_refl _) (by decide)
      (hequiet.steps.superKnown (hv.steps.superKnown hsuper)) hlen h₃
    have hvalue := hequiet.adds hadds
    have hset := Accepts.of_emitSet h₄ (hv.refers.steps hvalue.steps hvalue.locals)
    have hcode := hquiet.adds (hv.quiet.adds (hv.refers.adds (hvalue.trans hset.adds)))
    refine ⟨.assignment, .assign s.current.text e, fun hf => ?_, Power.le_refl _, ⟨_, hcode.map ?_, ?_⟩,
      ?_, nofun⟩
    · rw [hc] at hf
      cases hf
    · rintro F L i j ⟨hfinds, k, hl, hs⟩
      exact .assign hid hfinds hl hs
    · simpa using Derives.assign hk hequal hd
    · rw [hset.eq]
      exact Power.left_le_of_not_le hpower
  · have hget := Accepts.of_emitGet hend hv.refers
    have hcode := hquiet.adds (hv.quiet.adds (hv.refers.adds hget.adds))
    exact ⟨.primary, .variable s.current.text, fun _ => rfl, by decide,
      primary (hcode.map fun _ _ _ _ ⟨hfinds, hg⟩ => .variable hid hfinds hg) (.variable hk) rfl⟩

theorem grouping_spec (hsub : Parses n sub) (hsuper : s₁.SuperKnown) (hn : s₁.rest.length ≤ n)
    (hr : s.Reads s₁) (hk : s.current.kind = .leftParen) (h : Accepts (grouping sub) s₁ u s') :
    ∃ e, Parsed s .primary e s' := by
  obtain ⟨_, s₂, h₁, h₂⟩ := h.bind
  obtain ⟨e, ts, hadds, hd, -⟩ := hsub (Power.le_refl _) (by decide) hsuper hn h₁
  obtain ⟨hclose, hr'⟩ := Accepts.of_expect h₂
  have hcode := (hr.quiet (ne_eof hk nofun)).adds (hadds.quiet (hr'.quiet (ne_eof hclose nofun)))
  exact ⟨.grouping e, primary (hcode.map fun _ _ _ _ => .grouping) (.grouping hk hclose hd) rfl⟩

theorem unary_spec (hsub : Parses n sub) (hsuper : s₁.SuperKnown) (hn : s₁.rest.length ≤ n)
    (hr : s.Reads s₁) (op : UnaryOp) (hk : s.current.kind = op.kind)
    (h : Accepts (unary sub op.code) s₁ u s') : ∃ e, Parsed s .unary e s' := by
  obtain ⟨_, s₂, h₁, h₂⟩ := h.bind
  obtain ⟨e, ts, hadds, hd, hpower⟩ := hsub (by decide) (Power.le_refl _) hsuper hn h₁
  have hemit := Accepts.of_emit (.operator op.code) h₂ fun _ _ => by cases op <;> rfl
  have hcode := (hr.quiet (ne_eof hk (by cases op <;> nofun))).adds (hadds.trans hemit.adds)
  refine ⟨.unary op e, ⟨_, hcode.map ?_, ?_⟩, ?_, nofun⟩
  · rintro F L i j ⟨k, hl, ho⟩
    exact .unary hl ho
  · simpa using Derives.unary op hk hd
  · rw [hemit.eq]
    exact Power.left_le_of_not_le hpower

theorem this_spec (hr : s.Reads s₁) (hk : s.current.kind = .kwThis) (h : Accepts this s₁ u s') :
    ∃ e, Parsed s .primary e s' := by
  have hthis : s₁.previous.text = "this" := by
    have hprevious := hr.previous
    refine (h.sound.proper s₁.previous List.mem_cons_self).this ?_
    rw [hprevious, hk]
  have hrun := h.get_bind
  split at hrun
  · exact absurd hrun Accepts.not_error
  · obtain ⟨text, s₂, h₁, h₂⟩ := hrun.bind
    obtain ⟨rfl, rfl⟩ := Accepts.of_lastText h₁
    rw [hthis] at h₂
    obtain ⟨a, ha⟩ := Accepts.of_readNamed h₂
    have hcode := (hr.quiet (ne_eof hk nofun)).adds ha.adds
    exact ⟨.this, primary (hcode.map fun _ _ _ _ ⟨hf, hg⟩ => .this hf hg) (.this hk) rfl⟩

/-! ## Arguments -/

theorem argumentsFrom_spec (hsub : Parses n sub) {b count answer : Nat} {s s' : Builder}
    (hsuper : s.SuperKnown) (hn : s.rest.length ≤ n) (hb : s.rest.length ≤ b)
    (hcount : count ≤ maxArguments) (h : Accepts (argumentsFrom sub b count) s answer s') :
    ∃ e es ts, Adds s ts s' (fun F L => F.Loads L (e :: es)) ∧ Derives (.arguments (e :: es)) ts ∧
      answer = count + (e :: es).length ∧ answer ≤ maxArguments := by
  induction b generalizing count s with
  | zero => cases hb
  | succ b ih =>
      obtain ⟨_, s₁, h₁, hrest⟩ := h.bind
      obtain ⟨e, ts, hadds, hd, -⟩ := hsub (Power.le_refl _) (by decide) hsuper hn h₁
      have hlen := hadds.steps.length_rest
      dsimp only at hrest
      split at hrest
      · obtain ⟨_, _, herror, -⟩ := hrest.bind
        exact absurd herror Accepts.not_error
      · rename_i hlt
        obtain ⟨comma, s₂, h₂, hend⟩ := hrest.bind
        rcases Accepts.of_accept h₂ with ⟨rfl, hcomma, hr⟩ | ⟨rfl, -, rfl⟩
        · have hquiet := hr.quiet (ne_eof hcomma nofun)
          have hlen' := length_reads hr (ne_eof hcomma nofun)
          obtain ⟨e', es, ts', hadds', hd', rfl, hle⟩ :=
            ih (hquiet.steps.superKnown (hadds.steps.superKnown hsuper)) (by omega) (by omega)
              (by omega) hend
          refine ⟨e, e' :: es, _, (hadds.trans (hquiet.adds hadds')).map ?_,
            .argument hcomma hd hd', by simp only [List.length_cons]; omega, hle⟩
          rintro F L i j ⟨k, hl, hl'⟩
          exact .several hl hl'
        · obtain ⟨rfl, rfl⟩ := Accepts.of_pure hend
          exact ⟨e, [], ts, hadds, .lastArgument hd, rfl, by omega⟩

theorem arguments_spec (hsub : Parses n sub) {s s' : Builder} {answer : Nat}
    (hsuper : s.SuperKnown) (hn : s.rest.length ≤ n) (hb : s.rest.length ≤ bound)
    (h : Accepts (arguments bound sub) s answer s') :
    ∃ es ts r, Adds s (ts ++ [r]) s' (fun F L => F.Loads L es) ∧ Derives (.arguments es) ts ∧
      r.kind = .rightParen ∧ answer = es.length ∧ answer < 256 := by
  obtain ⟨empty, s₁, h₁, hrest⟩ := h.bind
  obtain ⟨rfl, rfl⟩ := Accepts.of_check h₁
  dsimp only at hrest
  split at hrest
  all_goals
    obtain ⟨count, s₂, h₂, hrest⟩ := hrest.bind
    obtain ⟨_, s₃, h₃, hend⟩ := hrest.bind
    obtain ⟨rfl, rfl⟩ := Accepts.of_pure hend
    obtain ⟨hclose, hr⟩ := Accepts.of_expect h₃
    have hquiet := hr.quiet (ne_eof hclose nofun)
  · obtain ⟨rfl, rfl⟩ := Accepts.of_pure h₂
    refine ⟨[], [], _, ⟨hquiet.steps, hquiet.locals, fun _ _ => ?_⟩, .noArguments, hclose, rfl,
      by decide⟩
    rw [hquiet.size]
    exact .nothing
  · obtain ⟨e, es, ts, hadds, hd, rfl, hle⟩ :=
      argumentsFrom_spec hsub hsuper hn hb (Nat.zero_le _) h₂
    refine ⟨e :: es, ts, _, hadds.quiet hquiet, hd, hclose, ?_, ?_⟩
    · rw [Nat.min_eq_left hle, Nat.zero_add]
    · rw [Nat.min_eq_left hle]
      exact Nat.lt_succ_of_le hle

/-- The arguments with the parenthesis in front of them. -/
theorem opened_arguments_spec (hsub : Parses n sub) {s s₁ s' : Builder} {answer : Nat}
    (hsuper : s.SuperKnown) (hn : s.rest.length ≤ n) (hb : s.rest.length ≤ bound) (hr : s.Reads s₁)
    (hopen : s.current.kind = .leftParen) (h : Accepts (arguments bound sub) s₁ answer s') :
    ∃ es ts r, Adds s ([s.current] ++ (ts ++ [r])) s' (fun F L => F.Loads L es) ∧
      Derives (.arguments es) ts ∧ r.kind = .rightParen ∧ answer = es.length ∧ answer < 256 := by
  have hquiet := hr.quiet (ne_eof hopen nofun)
  have hlen := length_reads hr (ne_eof hopen nofun)
  obtain ⟨es, ts, r, hargs, hd, hclose, hcount⟩ :=
    arguments_spec hsub (hquiet.steps.superKnown hsuper) (by omega) (by omega) h
  exact ⟨es, ts, r, hquiet.adds hargs, hd, hclose, hcount⟩

/-- Where `super` is allowed it is not a global. -/
theorem not_isGlobal_super {a : Access} (h : Fetches s "super" a s') (hsuper : s.SuperKnown)
    (hclass : s.classes.head? = some true) : ¬ a.IsGlobal := by
  intro hglobal
  obtain ⟨hbody, houter⟩ := h.isGlobal hglobal
  obtain ⟨b, hb, slot, hslot⟩ := hsuper hclass
  rcases List.mem_cons.mp hb with rfl | hb
  · rw [hbody] at hslot
    cases hslot
  · rw [houter b hb] at hslot
    cases hslot

theorem super_spec (hsub : Parses n sub) (hsuper : s₁.SuperKnown) (hn : s₁.rest.length ≤ n)
    (hb : s₁.rest.length ≤ bound) (hr : s.Reads s₁) (hk : s.current.kind = .kwSuper)
    (h : Accepts (super bound sub) s₁ u s') :
    ∃ q e, Power.call ≤ q ∧ Parsed s q e s' := by
  have hrun := h.get_bind
  cases hclass : s₁.classes.head? with
  | none =>
      simp only [hclass] at hrun
      obtain ⟨_, _, herror, -⟩ := hrun.bind
      exact absurd herror Accepts.not_error
  | some hasSuperclass =>
  simp only [hclass] at hrun
  split at hrun
  case isFalse =>
    obtain ⟨_, _, herror, -⟩ := hrun.bind
    exact absurd herror Accepts.not_error
  case isTrue hyes =>
  subst hyes
  obtain ⟨_, s₂, h₁, hrun⟩ := hrun.bind
  obtain ⟨_, s₃, h₂, hrun⟩ := hrun.bind
  obtain ⟨text, s₄, h₃, hrun⟩ := hrun.bind
  obtain ⟨name, s₅, h₄, hrun⟩ := hrun.bind
  obtain ⟨_, s₆, h₅, hrun⟩ := hrun.bind
  obtain ⟨paren, s₇, h₆, hcont⟩ := hrun.bind
  obtain ⟨hdot, hr₂⟩ := Accepts.of_expect h₁
  obtain ⟨hname, hr₃⟩ := Accepts.of_expect h₂
  obtain ⟨rfl, rfl⟩ := Accepts.of_lastText h₃
  have hpool := Accepts.of_nameConstant h₄
  obtain ⟨a, hthis⟩ := Accepts.of_readNamed h₅
  rw [hr₃.previous] at hpool
  have hquiet := ((hr₂.quiet (ne_eof hdot nofun)).trans (hr₃.quiet (ne_eof hname nofun))).trans
    hpool.quiet
  have hstart := (hr.quiet (ne_eof hk nofun)).adds (hquiet.adds hthis.adds)
  have hlen := hquiet.steps.length_rest
  have hlen' := hthis.adds.steps.length_rest
  have hsuper' := hthis.adds.steps.superKnown (hquiet.steps.superKnown hsuper)
  have hclass' : s₆.classes.head? = some true := by
    rw [hthis.adds.steps.classes, hquiet.steps.classes, hclass]
  have hconstant := hthis.adds.steps.agree.constant? _ _ hpool.constant
  rcases Accepts.of_accept h₆ with ⟨rfl, hparen, hr₇⟩ | ⟨rfl, hparen, rfl⟩
  · obtain ⟨count, s₈, h₇, hcont⟩ := hcont.bind
    obtain ⟨_, s₉, h₈, hcont⟩ := hcont.bind
    obtain ⟨_, s₁₀, h₉, hend⟩ := hcont.bind
    obtain ⟨es, ts, r, hargs, hd, hclose, rfl, hlt⟩ :=
      opened_arguments_spec hsub hsuper' (by omega) (by omega) hr₇ hparen h₇
    obtain ⟨b, hread⟩ := Accepts.of_readNamed h₈
    have hbefore := hargs.trans hread.adds
    have hemit := Accepts.of_emitNameNumber .superInvoke h₉ hend
      (hbefore.steps.agree.constant? _ _ hconstant) hlt fun _ _ => rfl
    have hglobal := not_isGlobal_super hread (hargs.steps.superKnown hsuper')
      (hargs.steps.classes ▸ hclass')
    refine ⟨.call, .call (.super s₂.current.text) es, Power.le_refl _,
      ⟨_, (hstart.trans (hbefore.trans hemit.adds)).map ?_, ?_⟩, Power.left_ofKind_le_call _, nofun⟩
    · rintro F L i j ⟨k, ⟨hf, hg⟩, m, ⟨l, hl, hf', hg'⟩, hi⟩
      exact .superInvoke hf hg hl hf' hglobal hg' hi
    · have := Derives.call hparen hclose
        (Derives.loosen (.super hk hdot hname) (by decide) (by decide)) hd
      simpa using this
  · obtain ⟨_, s₈, h₇, hend⟩ := hcont.bind
    obtain ⟨b, hread⟩ := Accepts.of_readNamed h₇
    have hemit := Accepts.of_emitName .getSuper hend
      (hread.adds.steps.agree.constant? _ _ hconstant) fun _ _ => rfl
    have hglobal := not_isGlobal_super hread hsuper' hclass'
    refine ⟨.primary, .super s₂.current.text, by decide,
      ⟨_, (hstart.trans (hread.adds.trans hemit.adds)).map ?_, ?_⟩, Power.left_le_primary _,
      fun _ => ?_⟩
    · rintro F L i j ⟨k, ⟨hf, hg⟩, m, ⟨hf', hg'⟩, hi⟩
      exact .super hf hg hf' hglobal hg' hi
    · exact .super hk hdot hname
    · rw [(hemit.steps 0).current, hread.adds.steps.current]
      exact hparen

/-! ## What continues an expression -/

theorem of_operations {ops : List Opcode} {u : PUnit}
    (hops : ∀ op ∈ ops, ∀ (c : Chunk) (p : Nat), c.decode p op = some (.operator op, p + 1))
    (h : Accepts (ops.forM emit) s u s') : Adds s [] s' fun F _ i j => F.Operates ops i j := by
  induction ops generalizing s with
  | nil =>
      obtain ⟨-, rfl⟩ := Accepts.of_pure h
      exact ⟨Steps.refl 0 s', rfl, fun _ _ => rfl⟩
  | cons op ops ih =>
      obtain ⟨_, s₁, h₁, h₂⟩ := Accepts.bind (x := emit op) (f := fun _ => ops.forM emit) h
      have hemit := Accepts.of_emit _ h₁ (hops op List.mem_cons_self)
      exact hemit.adds.trans (ih (fun o ho => hops o (List.mem_cons_of_mem _ ho)) h₂)

/-- The left operand, with the operator behind it read. -/
theorem Parsed.operand {q : Power} {e : Expr} (h : Parsed s q e s₁) {s₂ : Builder}
    (hr : s₁.Reads s₂) (hne : s₁.current.kind ≠ .eof)
    (hleft : Power.assignment ≤ (Power.ofKind s₁.current.kind).left) :
    ∃ ts, Adds s (ts ++ [s₁.current]) s₂ (fun F L => F.Loads L [e]) ∧
      Derives (.expression (Power.ofKind s₁.current.kind).left e) ts := by
  obtain ⟨ts, hadds, hd⟩ := h.tokens
  exact ⟨ts, hadds.quiet (hr.quiet hne), hd.loosen hleft h.ready⟩

theorem binary_spec (hsub : Parses n sub) {s₂ : Builder} (hsuper : s₂.SuperKnown)
    (hn : s₂.rest.length ≤ n) {q : Power} {a : Expr} (ha : Parsed s q a s₁) (hr : s₁.Reads s₂)
    (op : BinaryOp) (hk : s₁.current.kind = op.kind) (h : Accepts (binary sub op.kind) s₂ u s') :
    ∃ e, Parsed s op.power e s' := by
  obtain ⟨_, s₃, h₁, h₂⟩ := h.bind
  rw [op.ofKind_kind] at h₁
  obtain ⟨b, us, hb, hd, hpower⟩ := hsub (p := op.power.next) (by cases op <;> decide)
    (by cases op <;> decide) hsuper hn h₁
  have hops := of_operations (fun o ho => ?_) h₂
  · have hleft : (Power.ofKind s₁.current.kind).left = op.power := by
      rw [hk]
      cases op <;> rfl
    obtain ⟨ts, hcode, hda⟩ := ha.operand hr (ne_eof hk (by cases op <;> nofun))
      (by rw [hleft]; cases op <;> decide)
    rw [hleft] at hda
    refine ⟨.binary op a b, ⟨_, (hcode.trans (hb.trans hops)).map ?_, ?_⟩, ?_, nofun⟩
    · rintro F L i j ⟨k, hl, l, hl', ho⟩
      exact .binary hl hl' ho
    · have := Derives.binary op hk op.tightens hda hd
      simpa using this
    · rw [hops.steps.current]
      exact Power.left_le_power hpower
  · rw [BinaryOp.operations_kind] at ho
    intro c p
    cases op <;> simp [BinaryOp.negated, BinaryOp.code] at ho <;>
      first | (obtain rfl := ho; rfl) | (obtain rfl | rfl := ho <;> rfl)

theorem call_spec (hsub : Parses n sub) {s₂ : Builder} (hsuper : s₂.SuperKnown)
    (hn : s₂.rest.length ≤ n) (hb : s₂.rest.length ≤ bound) {q : Power} {f : Expr}
    (hf : Parsed s q f s₁) (hr : s₁.Reads s₂) (hk : s₁.current.kind = .leftParen)
    (h : Accepts (call bound sub) s₂ u s') : ∃ e, Parsed s .call e s' := by
  obtain ⟨count, s₃, h₁, h₂⟩ := h.bind
  obtain ⟨es, us, r, hargs, hd, hclose, rfl, hlt⟩ := arguments_spec hsub hsuper hn hb h₁
  have hemit := Accepts.of_emitNumber .call h₂ hlt fun _ _ => rfl
  obtain ⟨ts, hcode, hdf⟩ := hf.operand hr (ne_eof hk nofun) (by rw [hk]; decide)
  rw [hk] at hdf
  have hproperty : f.isProperty = false := by
    cases hp : f.isProperty
    · rfl
    · exact absurd hk (hf.property hp)
  refine ⟨.call f es, ⟨_, (hcode.trans (hargs.trans hemit.adds)).map ?_, ?_⟩,
    Power.left_ofKind_le_call _, nofun⟩
  · rintro F L i j ⟨k, hl, l, hl', hi⟩
    exact .call hproperty hl hl' hi
  · have := Derives.call hk hclose hdf hd
    simpa using this

theorem property_spec (hsub : Parses n sub) {s₂ : Builder} (hsuper : s₂.SuperKnown)
    (hn : s₂.rest.length ≤ n) (hb : s₂.rest.length ≤ bound) {q : Power} {o : Expr}
    (ho : Parsed s q o s₁) (hr : s₁.Reads s₂) (hk : s₁.current.kind = .dot) {canAssign : Bool}
    (h : Accepts (property bound sub canAssign) s₂ u s') :
    ∃ q e, (canAssign = false → q = .call) ∧ Power.assignment ≤ q ∧ q ≤ .call ∧ Parsed s q e s' := by
  obtain ⟨ts, hcode, hdo⟩ := ho.operand hr (ne_eof hk nofun) (by rw [hk]; decide)
  rw [hk] at hdo
  obtain ⟨_, s₃, h₁, hrun⟩ := h.bind
  obtain ⟨text, s₄, h₂, hrun⟩ := hrun.bind
  obtain ⟨name, s₅, h₃, hrun⟩ := hrun.bind
  obtain ⟨assigns, s₆, h₄, hcont⟩ := hrun.bind
  obtain ⟨hname, hr₃⟩ := Accepts.of_expect h₁
  obtain ⟨rfl, rfl⟩ := Accepts.of_lastText h₂
  have hpool := Accepts.of_nameConstant h₃
  rw [hr₃.previous] at hpool
  have hquiet := (hr₃.quiet (ne_eof hname nofun)).trans hpool.quiet
  have hlen := hquiet.steps.length_rest
  have hsuper' := hquiet.steps.superKnown hsuper
  have hread : assigns = true ∧ canAssign = true ∧ s₅.current.kind = .equal ∧ s₅.Reads s₆ ∨
      assigns = false ∧ s₆ = s₅ := by
    split at h₄
    · rename_i hc
      rcases Accepts.of_accept h₄ with ⟨rfl, hequal, hr'⟩ | ⟨rfl, -, rfl⟩
      · exact .inl ⟨rfl, hc, hequal, hr'⟩
      · exact .inr ⟨rfl, rfl⟩
    · exact .inr (Accepts.of_pure h₄)
  rcases hread with ⟨rfl, hc, hequal, hr₆⟩ | ⟨rfl, rfl⟩
  · obtain ⟨_, s₇, h₅, hend⟩ := hcont.bind
    have hequiet := hr₆.quiet (ne_eof hequal nofun)
    have hlen₆ := length_reads hr₆ (ne_eof hequal nofun)
    obtain ⟨e, us, he, hd, hpower⟩ := hsub (Power.le_refl _) (by decide)
      (hequiet.steps.superKnown hsuper') (by omega) h₅
    have hvalue := hequiet.adds he
    have hemit := Accepts.of_emitName .setProperty hend
      (hvalue.steps.agree.constant? _ _ hpool.constant) fun _ _ => rfl
    refine ⟨.assignment, .set o s₂.current.text e, fun hf => ?_, Power.le_refl _, by decide,
      ⟨_, (hcode.trans (hquiet.adds (hvalue.trans hemit.adds))).map ?_, ?_⟩, ?_, nofun⟩
    · rw [hc] at hf
      cases hf
    · rintro F L i j ⟨k, hl, l, hl', hi⟩
      exact .set hl hl' hi
    · have := Derives.set hk hname hequal hdo hd
      simpa using this
    · rw [(hemit.steps 0).current]
      exact Power.left_le_of_not_le hpower
  · obtain ⟨calls, s₇, h₅, htail⟩ := hcont.bind
    rcases Accepts.of_accept h₅ with ⟨rfl, hparen, hr₇⟩ | ⟨rfl, hparen, rfl⟩
    · obtain ⟨count, s₈, h₆, htail⟩ := htail.bind
      obtain ⟨_, s₉, h₇, hend⟩ := htail.bind
      obtain ⟨es, us, r, hargs, hd, hclose, rfl, hlt⟩ :=
        opened_arguments_spec hsub hsuper' (by omega) (by omega) hr₇ hparen h₆
      have hemit := Accepts.of_emitNameNumber .invoke h₇ hend
        (hargs.steps.agree.constant? _ _ hpool.constant) hlt fun _ _ => rfl
      refine ⟨.call, .call (.get o s₂.current.text) es, fun _ => rfl, by decide, Power.le_refl _,
        ⟨_, (hcode.trans (hquiet.adds (hargs.trans hemit.adds))).map ?_, ?_⟩,
        Power.left_ofKind_le_call _, nofun⟩
      · rintro F L i j ⟨k, hl, l, hl', hi⟩
        exact .invoke hl hl' hi
      · have := Derives.call hparen hclose (.get hk hname hdo) hd
        simpa using this
    · have hemit := Accepts.of_emitName .getProperty htail hpool.constant fun _ _ => rfl
      refine ⟨.call, .get o s₂.current.text, fun _ => rfl, by decide, Power.le_refl _,
        ⟨_, (hcode.trans (hquiet.adds hemit.adds)).map ?_, ?_⟩, Power.left_ofKind_le_call _,
        fun _ => ?_⟩
      · rintro F L i j ⟨k, hl, hi⟩
        exact .get hl hi
      · have := Derives.get hk hname hdo
        simpa using this
      · rw [(hemit.steps 0).current]
        exact hparen

theorem and_spec (hsub : Parses n sub) {s₂ : Builder} (hsuper : s₂.SuperKnown)
    (hn : s₂.rest.length ≤ n) {q : Power} {a : Expr} (ha : Parsed s q a s₁) (hr : s₁.Reads s₂)
    (hk : s₁.current.kind = .kwAnd) (h : Accepts (and sub) s₂ u s') :
    ∃ e, Parsed s .and e s' := by
  obtain ⟨ts, hcode, hda⟩ := ha.operand hr (ne_eof hk nofun) (by rw [hk]; decide)
  rw [hk] at hda
  obtain ⟨offset, s₃, h₁, hrun⟩ := h.bind
  obtain ⟨_, s₄, h₂, hrun⟩ := hrun.bind
  obtain ⟨_, s₅, h₃, hend⟩ := hrun.bind
  obtain ⟨rfl, hw⟩ := Accepts.of_emitJump h₁
  have hpop := Accepts.of_emit .pop h₂ fun _ _ => rfl
  have hlen := hw.steps.length_rest
  have hlen' := (hpop.steps 0).length_rest
  obtain ⟨b, us, hb, hd, hpower⟩ := hsub (by decide) (by decide)
    ((hpop.steps 0).superKnown (hw.steps.superKnown hsuper))
    (by simp only [List.length_nil] at *; omega) h₃
  have hp := Accepts.of_patchJump hend
  have hsize := hw.size
  have hright := hpop.adds.trans hb
  have hsteps := hp.after (hw.steps.trans hright.steps) (Nat.le_refl _)
  have hlocals : s'.body.locals.length = s₂.body.locals.length := by
    rw [hp.locals, hright.locals, hw.locals]
  refine ⟨.and a b, ⟨_, ⟨hcode.steps.trans hsteps, hlocals.trans hcode.locals, fun hc hi => ?_⟩, ?_⟩,
    ?_, nofun⟩
  · have hle := hcode.steps.size
    have hsize' := hp.patched.size
    have hleft := hcode.code (hc.before_same (hsteps.mono (Nat.zero_le _)) hlocals) hi
    have hjump := hc.has (Nat.le_trans hi hle) ((hp.instr hw hright.steps (Nat.zero_le _)).2 rfl)
    have hc₅ := (hc.mono (Nat.le_trans (Nat.le_trans hi hle) (Nat.le_add_right _ 3))).before_same
      hp.steps (by rw [hp.locals])
    obtain ⟨k, hpopAt, hloads⟩ := hright.code hc₅ (Nat.le_of_eq hsize.symm)
    rw [hsize']
    exact .and hleft hjump hpopAt hloads
  · have := Derives.and hk hda hd
    simpa using this
  · rw [hp.current]
    exact Power.left_le_of_not_le hpower

theorem or_spec (hsub : Parses n sub) {s₂ : Builder} (hsuper : s₂.SuperKnown)
    (hn : s₂.rest.length ≤ n) {q : Power} {a : Expr} (ha : Parsed s q a s₁) (hr : s₁.Reads s₂)
    (hk : s₁.current.kind = .kwOr) (h : Accepts (or sub) s₂ u s') :
    ∃ e, Parsed s .or e s' := by
  obtain ⟨ts, hcode, hda⟩ := ha.operand hr (ne_eof hk nofun) (by rw [hk]; decide)
  rw [hk] at hda
  obtain ⟨elseOffset, s₃, h₁, hrun⟩ := h.bind
  obtain ⟨endOffset, s₄, h₂, hrun⟩ := hrun.bind
  obtain ⟨_, s₅, h₃, hrun⟩ := hrun.bind
  obtain ⟨_, s₆, h₄, hrun⟩ := hrun.bind
  obtain ⟨_, s₇, h₅, hend⟩ := hrun.bind
  obtain ⟨rfl, hw⟩ := Accepts.of_emitJump h₁
  obtain ⟨rfl, hw'⟩ := Accepts.of_emitJump h₂
  have hp := Accepts.of_patchJump h₃
  have hpop := Accepts.of_emit .pop h₄ fun _ _ => rfl
  have hp' := Accepts.of_patchJump hend
  have hsize := hw.size
  have hsize' := hw'.size
  have hsize₅ := hp.patched.size
  have hsteps₅ := hp.after (hw.steps.trans hw'.steps) (Nat.le_refl _)
  have hlen := hsteps₅.length_rest
  have hlen' := (hpop.steps 0).length_rest
  obtain ⟨b, us, hb, hd, hpower⟩ := hsub (by decide) (by decide)
    ((hpop.steps 0).superKnown (hsteps₅.superKnown hsuper))
    (by simp only [List.length_nil] at *; omega) h₅
  have hright := hpop.adds.trans hb
  have hsteps := hp'.after (hsteps₅.trans hright.steps) (by omega)
  have hlocals : s'.body.locals.length = s₂.body.locals.length := by
    rw [hp'.locals, hright.locals, hp.locals, hw'.locals, hw.locals]
  refine ⟨.or a b, ⟨_, ⟨hcode.steps.trans hsteps, hlocals.trans hcode.locals,
    @fun _ F _ i hc hi => ?_⟩, ?_⟩,
    ?_, nofun⟩
  · have hle := Nat.le_trans hi hcode.steps.size
    have hleft := hcode.code (hc.before_same (hsteps.mono (Nat.zero_le _)) hlocals) hi
    have helse : F.At s₂.body.chunk.size (.jumpIfFalse s₄.body.chunk.size) s₃.body.chunk.size := by
      -- the second patch lies behind the first jump
      have hagree : Agree s₅.body.chunk s'.body.chunk 0 s₃.body.chunk.size :=
        (hright.steps.agree.mono (Nat.le_refl _) (by omega)).trans
          (hp'.patched.agree (.inr (Nat.le_succ _)))
      exact hc.has hle (hagree.instr? (Nat.zero_le _) (Nat.le_refl _)
        ((hp.instr hw hw'.steps (Nat.zero_le _)).2 rfl))
    have hover := hc.has (p := s₃.body.chunk.size) (by omega)
      ((hp'.instr hw' (hp.steps.trans (hright.steps.mono (Nat.zero_le _))) (by omega)).1 rfl)
    have hc₇ := (hc.mono (j := s₃.body.chunk.size + 3) (by omega)).before_same hp'.steps
      (by rw [hp'.locals])
    obtain ⟨k, hpopAt, hloads⟩ := hright.code hc₇ (by omega)
    rw [hp'.patched.size]
    rw [hsize₅] at hpopAt
    exact .or hleft helse hover hpopAt hloads
  · have := Derives.or hk hda hd
    simpa using this
  · rw [hp'.current]
    exact Power.left_le_of_not_le hpower

theorem continuation_spec (hsub : Parses n sub) {s₂ : Builder} (hsuper : s₂.SuperKnown)
    (hn : s₂.rest.length ≤ n) (hb : s₂.rest.length ≤ bound) {p q : Power} {e : Expr}
    (he : Parsed s q e s₁) (hr : s₁.Reads s₂) (hp : Power.assignment ≤ p)
    (hpower : p ≤ Power.ofKind s₁.current.kind)
    (h : Accepts (continuation bound sub (p ≤ .assignment) s₂.previous.kind) s₂ u s') :
    ∃ q e, p ≤ q ∧ Parsed s q e s' := by
  rw [hr.previous] at h
  have hbinary (op : BinaryOp) (hk : s₁.current.kind = op.kind) : ∃ q e, p ≤ q ∧ Parsed s q e s' := by
    have hop : Accepts (binary sub op.kind) s₂ u s' := by
      rw [hk] at h
      cases op <;> exact h
    obtain ⟨e, he⟩ := binary_spec hsub hsuper hn he hr op hk hop
    rw [hk, op.ofKind_kind] at hpower
    exact ⟨op.power, e, hpower, he⟩
  cases hk : s₁.current.kind with
  | leftParen =>
      rw [hk] at h hpower
      obtain ⟨e, he⟩ := call_spec hsub hsuper hn hb he hr hk h
      exact ⟨_, e, hpower, he⟩
  | dot =>
      rw [hk] at h hpower
      obtain ⟨q', e, hcall, hassign, -, he⟩ := property_spec hsub hsuper hn hb he hr hk h
      refine ⟨q', e, ?_, he⟩
      by_cases hle : p ≤ .assignment
      · exact Power.le_trans hle hassign
      · rw [hcall (decide_eq_false hle)]
        exact hpower
  | kwAnd =>
      rw [hk] at h hpower
      obtain ⟨e, he⟩ := and_spec hsub hsuper hn he hr hk h
      exact ⟨_, e, hpower, he⟩
  | kwOr =>
      rw [hk] at h hpower
      obtain ⟨e, he⟩ := or_spec hsub hsuper hn he hr hk h
      exact ⟨_, e, hpower, he⟩
  | plus => exact hbinary .add hk
  | minus => exact hbinary .subtract hk
  | asterisk => exact hbinary .multiply hk
  | slash => exact hbinary .divide hk
  | equalEqual => exact hbinary .equal hk
  | bangEqual => exact hbinary .notEqual hk
  | greater => exact hbinary .greater hk
  | greaterEqual => exact hbinary .greaterEqual hk
  | less => exact hbinary .less hk
  | lessEqual => exact hbinary .lessEqual hk
  | _ =>
      rw [hk] at hpower
      exact absurd (Power.le_trans hp hpower) (show ¬ Power.assignment ≤ Power.none by decide)

/-- The operators behind an operand, one after the other. -/
theorem operators_spec (hsub : Parses n sub) {p q : Power} {e : Expr} {b : Nat}
    (hsuper : s.SuperKnown) (hn : s₁.rest.length ≤ n) (hbound : s₁.rest.length ≤ bound)
    (hb : s₁.rest.length ≤ b) (hp : Power.assignment ≤ p) (hpq : p ≤ q) (he : Parsed s q e s₁)
    (h : Accepts (repeatWhile (do return p ≤ Power.ofKind (← get).current.kind)
      (do advance; continuation bound sub (p ≤ .assignment) (← get).previous.kind) b) s₁ u s') :
    ∃ q e, p ≤ q ∧ Parsed s q e s' ∧ ¬ p ≤ Power.ofKind s'.current.kind := by
  induction b generalizing s₁ q e with
  | zero => cases hb
  | succ b ih =>
      obtain ⟨go, s₂, h₁, h₂⟩ := Accepts.bind (by rw [repeatWhile] at h; exact h)
      obtain ⟨rfl, rfl⟩ := Accepts.of_pure h₁.get_bind
      split at h₂
      · rename_i hpower
        have hpower := of_decide_eq_true hpower
        obtain ⟨_, s₃, hbody, h₂⟩ := h₂.bind
        obtain ⟨_, s₄, hadvance, hcont⟩ := hbody.bind
        have hr := Accepts.of_advance hadvance
        have hne : s₂.current.kind ≠ .eof := by
          intro heof
          rw [heof] at hpower
          exact absurd (Power.le_trans hp hpower) (by decide)
        have hlen := length_reads hr hne
        have hlen' := hcont.length_rest
        obtain ⟨ts, hadds, -⟩ := he.tokens
        have hsuper' := (hadds.quiet (hr.quiet hne)).steps.superKnown hsuper
        obtain ⟨q', e', hpq', he'⟩ := continuation_spec hsub hsuper' (by omega) (by omega) he hr hp
          hpower hcont.get_bind
        exact ih (by omega) (by omega) (by omega) hpq' he' h₂
      · rename_i hpower
        obtain ⟨-, rfl⟩ := Accepts.of_pure h₂
        exact ⟨q, e, hpq, he, fun hle => hpower (decide_eq_true hle)⟩

theorem opening_spec (hsub : Parses n sub) (hsuper : s₁.SuperKnown) (hn : s₁.rest.length ≤ n)
    (hb : s₁.rest.length ≤ bound) (hr : s.Reads s₁) {p : Power}
    (hunary : p ≤ .unary) {x : Build Unit}
    (hx : opening bound sub (p ≤ .assignment) s.current.kind = some x) (h : Accepts x s₁ u s') :
    ∃ q e, p ≤ q ∧ Parsed s q e s' := by
  have hprimary {e : Expr} (he : Parsed s .primary e s') : ∃ q e, p ≤ q ∧ Parsed s q e s' :=
    ⟨_, e, Power.le_trans hunary (by decide), he⟩
  have hliteral {op : Opcode} {v : Value} {e : Expr} (hne : s.current.kind ≠ .eof)
      (hx : some (literal op) = some x) (hd : ∀ (c : Chunk) (p : Nat), c.decode p op = some (.push v, p + 1))
      (hl : ∀ F L i j, F.At i (.push v) j → Layout.Loads F L [e] i j)
      (hder : Derives (.expression .primary e) [s.current]) (hprop : e.isProperty = false) :
      ∃ q e, p ≤ q ∧ Parsed s q e s' := by
    obtain rfl := Option.some.inj hx
    exact hprimary (literal_spec hr hne (Accepts.of_emit _ h hd) hl hder hprop)
  cases hk : s.current.kind with
  | leftParen =>
      rw [hk] at hx
      obtain rfl := Option.some.inj hx
      obtain ⟨e, he⟩ := grouping_spec hsub hsuper hn hr hk h
      exact hprimary he
  | minus =>
      rw [hk] at hx
      obtain rfl := Option.some.inj hx
      obtain ⟨e, he⟩ := unary_spec hsub hsuper hn hr .negate hk h
      exact ⟨_, e, hunary, he⟩
  | bang =>
      rw [hk] at hx
      obtain rfl := Option.some.inj hx
      obtain ⟨e, he⟩ := unary_spec hsub hsuper hn hr .not hk h
      exact ⟨_, e, hunary, he⟩
  | identifier =>
      rw [hk] at hx
      obtain rfl := Option.some.inj hx
      obtain ⟨text, s₂, h₁, h₂⟩ := h.bind
      obtain ⟨rfl, rfl⟩ := Accepts.of_lastText h₁
      rw [hr.previous] at h₂
      obtain ⟨q, e, hcall, hassign, he⟩ := named_spec hsub hsuper hn hr hk h₂
      refine ⟨q, e, ?_, he⟩
      by_cases hle : p ≤ .assignment
      · exact Power.le_trans hle hassign
      · rw [hcall (decide_eq_false hle)]
        exact Power.le_trans hunary (by decide)
  | string =>
      rw [hk] at hx
      obtain rfl := Option.some.inj hx
      obtain ⟨e, he⟩ := string_spec hr hk h
      exact hprimary he
  | number =>
      rw [hk] at hx
      obtain rfl := Option.some.inj hx
      obtain ⟨e, he⟩ := number_spec hr hk h
      exact hprimary he
  | kwFalse =>
      rw [hk] at hx
      exact hliteral (v := .boolean false) (e := .boolean false) (by rw [hk]; nofun) hx
        (fun _ _ => rfl) (fun _ _ _ _ => .boolean) (.false hk) rfl
  | kwTrue =>
      rw [hk] at hx
      exact hliteral (v := .boolean true) (e := .boolean true) (by rw [hk]; nofun) hx
        (fun _ _ => rfl) (fun _ _ _ _ => .boolean) (.true hk) rfl
  | kwNil =>
      rw [hk] at hx
      exact hliteral (v := .nil) (e := .nil) (by rw [hk]; nofun) hx
        (fun _ _ => rfl) (fun _ _ _ _ => .nil) (.nil hk) rfl
  | kwSuper =>
      rw [hk] at hx
      obtain rfl := Option.some.inj hx
      obtain ⟨q, e, hq, he⟩ := super_spec hsub hsuper hn hb hr hk h
      exact ⟨q, e, Power.le_trans (Power.le_trans hunary (by decide)) hq, he⟩
  | kwThis =>
      rw [hk] at hx
      obtain rfl := Option.some.inj hx
      obtain ⟨e, he⟩ := this_spec hr hk h
      exact hprimary he
  | _ =>
      rw [hk] at hx
      cases hx

theorem rule_spec (hsub : Parses n sub) {p : Power} (hp : Power.assignment ≤ p) (hunary : p ≤ .unary)
    (hsuper : s.SuperKnown) (hn : s.rest.length ≤ n + 1) (h : Accepts (rule n sub p) s u s') :
    ∃ e ts, Adds s ts s' (fun F L => F.Loads L [e]) ∧ Derives (.expression p e) ts ∧
      ¬ p ≤ Power.ofKind s'.current.kind := by
  obtain ⟨_, s₁, h₁, hrun⟩ := h.bind_of inferInstance fun _ => by
    refine Keeps.bind inferInstance fun s => ?_
    split
    · infer_instance
    · have := keeps_opening n sub (by assumption)
      infer_instance
  have hr := Accepts.of_advance h₁
  have hrun := hrun.get_bind
  rw [hr.previous] at hrun
  split at hrun
  · exact absurd hrun Accepts.not_error
  · rename_i x hx
    have hne : s.current.kind ≠ .eof := by
      intro heof
      rw [heof] at hx
      cases hx
    have hlen := length_reads hr hne
    have hk := keeps_opening n sub hx
    obtain ⟨_, s₂, hfirst, hrun⟩ := hrun.bind
    have hlen' := hfirst.length_rest
    have hsuper' := (hr.quiet hne).steps.superKnown hsuper
    obtain ⟨q, e, hpq, he⟩ :=
      opening_spec hsub hsuper' (by omega) (by omega) hr hunary hx hfirst
    obtain ⟨_, s₃, hloop, hrun⟩ := hrun.bind
    obtain ⟨q, e, hpq, he, hend⟩ := operators_spec hsub hsuper (by omega) (by omega) (by omega) hp hpq
      he hloop
    obtain ⟨assigns, s₄, h₄, hlast⟩ := hrun.bind
    have hsame : s₄ = s₃ ∧ assigns = false := by
      cases assigns with
      | true =>
          rw [if_pos rfl] at hlast
          exact absurd hlast Accepts.not_error
      | false =>
          split at h₄
          · rcases Accepts.of_accept h₄ with ⟨hf, -⟩ | ⟨-, -, heq⟩
            · cases hf
            · exact ⟨heq, rfl⟩
          · exact ⟨(Accepts.of_pure h₄).2, rfl⟩
    obtain ⟨rfl, rfl⟩ := hsame
    obtain ⟨-, rfl⟩ := Accepts.of_pure hlast
    obtain ⟨ts, hadds, hd⟩ := he.tokens
    exact ⟨e, ts, hadds, hd.loosen hp hpq, hend⟩

end Operands

/-- Nested expressions are compiled as long as there are tokens for them. -/
theorem within_spec (n : Nat) : Parses n (within n) := by
  induction n with
  | zero =>
      intro _ _ _ _ _ _ _ hn
      cases hn
  | succ n ih =>
      intro p s s' u hp hunary hsuper hn h
      exact rule_spec ih hp hunary hsuper hn h

end LoxMachine.Expression
