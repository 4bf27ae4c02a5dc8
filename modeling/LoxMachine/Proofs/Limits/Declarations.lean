import LoxMachine.Proofs.Compile.Functions
import LoxMachine.Proofs.Limits.Functions

/-!
# Limits of declarations

Parameters, functions and classes, and with them all phrases of the grammar: where the tokens are those of a
phrase that breaks no rule, the rules make what it needs, or the budget is too large.

Main statement: `settled_of_derives`.
-/

namespace LoxMachine.Statement

open Builder Syntax

section Rules

variable {α : Type} {B : Budget} {n b : Nat} {s s₀ : Builder} {c : Scope} {t l r : Token}
  {ts us vs ws before : List Token} {todo : List Need} {R : α → Builder → Prop} {st : Stmt} {kind : BodyKind}
  {called : String} {names acc : List String}

set_option synthInstance.maxSize 4096

/-! ## Parameters -/

/-- A parameter behind `names`, if there may be one more. -/
theorem parameter_settles (ho : Opens s₀ kind called names before s)
    (hs : Owes B (Showing (c.opened acc)) (t :: us) ((c.opened acc).room t.text ++ todo) s)
    (hk : t.kind = .identifier) (hnew : t.text ∉ acc) (hfew : B.Affordable → names.length < maxParameters) :
    Settles B (parameter s) fun _ s' => Owes B (Showing (c.opened (t.text :: acc))) us todo s' ∧
      names.length < maxParameters ∧ ∃ before', Opens s₀ kind called (names ++ [t.text]) before' s' := by
  have : Keeps (onBody fun b => ((), { b with arity := b.arity + 1 })) :=
    keeps_onBody (fun _ h => ⟨h.locals, h.captures, h.constants⟩) fun _ => rfl
  have harity : s.body.arity = names.length := congrArg Body.arity ho.body
  have hat := hs.tokens
  have hmore : Owes B (Showing (c.opened acc)) (t :: us) ((c.opened acc).room t.text ++ todo)
      { s with body := { s.body with arity := s.body.arity + 1 } } := by
    have hsound := Keeps.sound (x := onBody fun b => ((), { b with arity := b.arity + 1 })) s hat.sound
    have hc := hs.stands.shows
    exact hs.turned ⟨hsound, hat.clean, hat.rest, hat.plain⟩
      ⟨⟨hc.body.kind, hc.body.depth, hc.body.locals⟩, hc.outer, hc.classes, hc.initializing, hc.pending⟩
      rfl rfl rfl rfl
  have hread : Settles B ((readVariable .parameterName >>= fun k => defineVariable k)
      { s with body := { s.body with arity := s.body.arity + 1 } })
      fun _ s' => Owes B (Showing (c.opened (t.text :: acc))) us todo s' :=
    (hmore.readVariable rfl hk (mayDeclare_opened.mpr hnew)).bind fun k s₁ ⟨h₁, _⟩ =>
      h₁.defineVariable k
  have hwhole : Settles B (parameter s) fun _ s' =>
      Owes B (Showing (c.opened (t.text :: acc))) us todo s' ∧ names.length < maxParameters := by
    change Settles B ((if maxParameters < s.body.arity + 1 then errorAtCurrent .tooManyParameters >>= fun _ =>
        readVariable .parameterName >>= fun k => defineVariable k
      else readVariable .parameterName >>= fun k => defineVariable k : Build Unit)
      { s with body := { s.body with arity := s.body.arity + 1 } }) _
    split
    · rename_i hmany
      refine .broken (fun hclean => ?_) fun hB => absurd (hfew hB) (by omega)
      rw [run_bind] at hclean
      exact errors_errorAtCurrent_ne hmore.calm _
        (Keeps.clean (x := readVariable .parameterName >>= fun k => defineVariable k) inferInstance hclean)
    · exact hread.map fun h => ⟨h, by omega⟩
  refine (hwhole.accepted hat.sound).map fun ⟨⟨h, hlt⟩, hacc⟩ => ?_
  have hopens := (Accepts.of_parameter ho hacc).2
  rw [hat.current] at hopens
  exact ⟨h, hlt, _, hopens⟩

/-- Parameters behind `names`, each with a name of its own. -/
theorem parameterNames_settles {x : Phrase} {name : String} {more : List String} (hd : Derives x ts)
    (hx : x = .parameters (name :: more)) (hr : r.kind = .rightParen) (ho : Opens s₀ kind called names before s)
    (hs : Owes B (Showing (c.opened acc)) (ts ++ r :: us) ((c.opened acc).slots (name :: more) ++ todo) s)
    (hb : ts.length ≤ b) (hnodup : (name :: more).Nodup) (hnew : ∀ y ∈ name :: more, y ∉ acc)
    (hfew : B.Affordable → names.length + (name :: more).length ≤ maxParameters) :
    Settles B ((parameter >>= fun _ => repeatWhile (accept .comma) parameter b) s) fun _ s' =>
      Owes B (Showing (c.opened ((name :: more).reverse ++ acc))) (r :: us) todo s' ∧
        names.length + (name :: more).length ≤ maxParameters := by
  induction hd generalizing s acc b name more names before with
  | @lastParameter t hk =>
      obtain ⟨rfl, rfl⟩ := List.cons.inj (Phrase.parameters.inj hx)
      rw [Scope.slots, Scope.slots, List.append_nil] at hs
      refine (parameter_settles ho hs hk (hnew _ List.mem_cons_self) fun hB => hfew hB).bind
        fun _ s₁ h => ?_
      obtain ⟨h₁, hlt, -⟩ := h
      have hnone : accept .comma s₁ = (false, s₁) :=
        accept_of_ne (by rw [h₁.tokens.current, hr]; simp)
      rw [repeatWhile_stop hnone]
      exact .kept h₁.clean ⟨h₁, hlt⟩
  | @parameter t comma name' more' ts' hk hcomma hd ih =>
      obtain ⟨rfl, rfl⟩ := List.cons.inj (Phrase.parameters.inj hx)
      obtain _ | b := b
      · simp at hb
      obtain ⟨hfirst, hnodup', hnew'⟩ := fresh_cons.mp ⟨hnodup, hnew⟩
      rw [Scope.slots, List.append_assoc] at hs
      refine (parameter_settles ho hs hk hfirst fun hB => ?_).bind fun _ s₁ h => ?_
      · have := hfew hB
        simp only [List.length_cons] at this
        omega
      obtain ⟨h₁, hlt, before', ho₁⟩ := h
      have hne : s₁.current.kind ≠ .eof := by
        rw [h₁.tokens.current, hcomma]
        simp
      obtain ⟨s₂, hrun, hreads, hat₂, -⟩ := h₁.tokens.accept hcomma (by simp)
      rw [repeatWhile_step hrun]
      have hlength : (names ++ [t.text]).length + (name' :: more').length =
          names.length + (t.text :: name' :: more').length := by
        simp only [List.length_append, List.length_cons, List.length_nil]
        omega
      have hrest := ih rfl (ho₁.reads hreads hne) (h₁.reads hreads hat₂)
        (Nat.le_of_succ_le_succ (Nat.le_of_succ_le hb)) hnodup' hnew' fun hB => hlength ▸ hfew hB
      rw [hlength] at hrest
      simpa using hrest
  | _ => cases hx

theorem parameters_settles (hd : Derives (.parameters names) ts) (hl : l.kind = .leftParen)
    (hr : r.kind = .rightParen) (ho : Opens s₀ kind called [] before s)
    (hs : Owes B (Showing (c.opened [])) (l :: (ts ++ r :: us)) ((c.opened []).slots names ++ todo) s)
    (hn : ts.length ≤ n) (hnodup : names.Nodup) (hfew : B.Affordable → names.length ≤ maxParameters) :
    Settles B (parameters (partsWithin n) s) fun _ s' =>
      Owes B (Showing (c.opened names.reverse)) us todo s' ∧ names.length ≤ maxParameters := by
  have hopen : s.current.kind ≠ .eof := by
    rw [hs.tokens.current, hl]
    nofun
  obtain ⟨s₁, hrun, hreads, hat, -⟩ := hs.tokens.expect (e := .parametersOpen) hl
  have ho₁ := ho.reads hreads hopen
  have h₁ := hs.reads hreads hat
  rw [parameters, bind_of_run hrun]
  cases names with
  | nil =>
      cases hd
      have hcheck : check .rightParen s₁ = (true, s₁) := by
        rw [check_run, h₁.tokens.current, decide_eq_true hr]
      rw [bind_of_run hcheck]
      have hend := h₁.expectLast (e := .parametersClose) hr
      exact hend.map fun h => ⟨h, Nat.zero_le _⟩
  | cons name more =>
      have hcheck : check .rightParen s₁ = (false, s₁) := by
        obtain ⟨t, us', heq⟩ := h₁.tokens.exists_cons
        have hhead : t ∈ (ts ++ r :: us).head? := by rw [heq]; rfl
        have hbegins := hd.begins t (mem_head?_append ?_ hhead)
        · rw [heq] at h₁
          have hbegins : t.kind = .identifier := hbegins
          rw [check_run, h₁.tokens.current, hbegins]
          rfl
        · cases hd <;> exact Nat.succ_pos _
      rw [bind_of_run hcheck]
      have hnames := parameterNames_settles hd rfl hr ho₁ h₁ hn hnodup (fun _ _ => List.not_mem_nil)
        fun hB => by simpa using hfew hB
      rw [List.append_nil, List.length_nil, Nat.zero_add] at hnames
      exact Settles.bind (f := fun _ => expect .parametersClose) hnames fun _ s₂ ⟨h₂, hle⟩ =>
        (h₂.expectLast (e := .parametersClose) hr).map fun h => ⟨h, hle⟩

/-! ## Functions -/

/-- The rules read a function from its name on, and make what it needs if the budget can be afforded. -/
def FunctionSettled (f : Fun Stmt) (ts : List Token) : Prop :=
  ∃ name us, ts = name :: us ∧ name.kind = .identifier ∧ name.text = f.name ∧
    ∀ {B kind n s c vs todo}, B.around = c.outer → f.Legal c kind → (us ++ vs).length ≤ n →
      Owes B (Showing c) (us ++ vs) (f.needs c kind ++ todo) s →
      Settles B (function (partsWithin n) kind s) fun _ s' => Owes B (Showing c) vs todo s'

theorem function_settled {name lb rb : Token} {ss : List Stmt} (hname : name.kind = .identifier)
    (hl : l.kind = .leftParen) (hr : r.kind = .rightParen) (hlb : lb.kind = .leftBrace)
    (hrb : rb.kind = .rightBrace) (hd : Derives (.parameters names) ts) (hss : DeclarationsSettled ss us) :
    FunctionSettled ⟨name.text, names, ss⟩ (name :: l :: (ts ++ r :: lb :: (us ++ [rb]))) := by
  refine ⟨name, _, rfl, hname, rfl, fun {B kind n s c vs todo} hB hlegal hn hs => ?_⟩
  simp only [List.cons_append, List.append_assoc, List.length_cons, List.length_append,
    List.nil_append] at hs hn
  rw [Fun.Legal] at hlegal
  rw [Fun.needs] at hs
  obtain ⟨hnodup, hlegal⟩ := hlegal
  have hshows := hs.stands.shows
  obtain ⟨spent, hwhole, hfits, hnear, hcharged⟩ := hs.ledger
  have hfew : B.Affordable → names.length ≤ maxParameters := fun hafford =>
    (Budget.fits_function hwhole hafford).1
  obtain ⟨s₁, hstart⟩ : ∃ s₁, s₁ = (Builder.beginScope (Builder.openBody kind s.previous.text s).2).2 :=
    ⟨_, rfl⟩
  have ho : Opens s kind s.previous.text [] [] s₁ := by
    rw [hstart]
    exact ⟨rfl, rfl, .nil, rfl, rfl, rfl, rfl⟩
  have hopened := hstart ▸ Owes.openBody kind s.previous.text hB hwhole hcharged hs.stands
  have hbody : Settles (B.inside c spent _ todo names.length hB hwhole) ((do
      parameters (partsWithin n)
      expect .bodyOpen
      block (partsWithin n) : Build Unit) s₁)
      fun _ s' => Owes (B.inside c spent _ todo names.length hB hwhole)
        (Showing (ss.foldl Scope.after (c.function kind names))) vs [] s' ∧ names.length ≤ maxParameters := by
    refine (parameters_settles (c := ⟨⟨kind, []⟩, c.inner :: c.outer, c.classes, none⟩) hd hl hr ho hopened
      (by omega) hnodup hfew).bind fun _ s₂ h₂ => h₂.1.expect hlb fun s₃ h₃ _ => ?_
    exact (block_settles (c := c.function kind names) (n := n) hss hrb rfl hlegal
      (by simp only [List.length_append, List.length_cons]; omega) h₃.only).map fun h₄ => ⟨h₄, h₂.2⟩
  rw [function_eq, bind_of_run (lastText_run s)]
  have hparts : (do
      parameters (partsWithin n)
      expect .bodyOpen
      block (partsWithin n)
      emitReturn
      closure : Build Unit) = (do
        parameters (partsWithin n)
        expect .bodyOpen
        block (partsWithin n) : Build Unit) >>= fun _ => emitReturn >>= fun _ => closure := by
    simp only [bind_assoc]
  rw [run_bind, run_bind, ← hstart, hparts]
  refine (Settles.budget (B := B) hbody id).bind fun _ s₄ h => ?_
  obtain ⟨h₄, hk⟩ := h
  obtain ⟨scope, hscope⟩ : ∃ scope, ss.foldl Scope.after (c.function kind names) =
      Scope.opened ⟨⟨kind, []⟩, c.inner :: c.outer, c.classes, none⟩ scope :=
    Scope.opened_afterAll ⟨⟨kind, []⟩, c.inner :: c.outer, c.classes, none⟩ names.reverse ss
  rw [hscope] at h₄
  exact Owes.closeBody hB hwhole h₄ hfits hnear rfl rfl hshows.pending hk fun _ _ _ hreturns => hreturns.closure

theorem functionDeclaration_settles {f : Fun Stmt} (hf : FunctionSettled f ts) (hB : B.around = c.outer)
    (hlegal : (Stmt.function f).Legal c) (hn : (ts ++ us).length ≤ n)
    (hs : Owes B (Showing c) (ts ++ us) ((Stmt.function f).needs c ++ todo) s) :
    Settles B (functionDeclaration (partsWithin n) s) fun _ s' =>
      Owes B (Showing (c.declare f.name)) us todo s' := by
  obtain ⟨name, ts', rfl, hname, hname', hbody⟩ := hf
  rw [Stmt.Legal, ← hname'] at hlegal
  rw [Stmt.needs, ← hname'] at hs
  simp only [List.append_assoc, List.cons_append] at hs
  rw [← hname']
  refine (hs.readVariable (e := .functionName) rfl hname hlegal.1).bind fun k s₁ h₁ => ?_
  refine h₁.1.markInitialized.bind fun _ s₂ h₂ => ?_
  refine (hbody (n := n) (c := c.declare name.text) hB hlegal.2 (Nat.le_of_succ_le hn) h₂).bind
    fun _ s₃ h₃ => ?_
  exact h₃.defineFunction k

/-! ## Classes -/

theorem method_settles {f : Fun Stmt} (hf : FunctionSettled f ts) (hB : B.around = c.outer)
    (hlegal : f.Legal c (methodKind f.name)) (hn : (ts ++ us).length ≤ n)
    (hs : Owes B (Showing c) (ts ++ us)
      (.constant (.string f.name) :: (f.needs c (methodKind f.name) ++ .bytes 2 :: todo)) s) :
    Settles B (method (partsWithin n) s) fun _ s' => Owes B (Showing c) us todo s' := by
  obtain ⟨name, ts', rfl, hname, hname', hbody⟩ := hf
  refine hs.expect (e := .methodName) hname fun s₁ h₁ hprevious => ?_
  rw [bind_of_run (lastText_run s₁), hprevious, hname']
  refine h₁.nameConstant.bind fun k s₂ ⟨h₂, _⟩ => ?_
  exact (hbody (n := n) hB hlegal (Nat.le_of_succ_le hn) h₂).bind fun _ s₃ h₃ => h₃.emitWith .method k

def MethodsSettled (fs : List (Fun Stmt)) (ts : List Token) : Prop :=
  ∀ {B r n b s c us todo}, r.kind = .rightBrace → B.around = c.outer → legalMethods c fs →
    (ts ++ r :: us).length ≤ n → (ts ++ r :: us).length ≤ b →
    Owes B (Showing c) (ts ++ r :: us) (needsOfMethods c fs ++ todo) s →
    Settles B (repeatWhile insideBraces (method (partsWithin n)) b s) fun _ s' =>
      Owes B (Showing c) (r :: us) todo s'

theorem noMethods_settled : MethodsSettled [] [] := by
  intro B r n b s c us todo hr _ _ _ hb hs
  rw [needsOfMethods] at hs
  obtain _ | b := b
  · cases hb
  have hstop : insideBraces s = (false, s) := by
    change (!decide (s.current.kind = .rightBrace) && !decide (s.current.kind = .eof), s) = _
    rw [hs.tokens.current, hr]
    rfl
  rw [repeatWhile, bind_of_run hstop]
  exact hs.settles ()

theorem methods_settled {f : Fun Stmt} {fs : List (Fun Stmt)} (hf : FunctionSettled f ts)
    (hfs : MethodsSettled fs us) : MethodsSettled (f :: fs) (ts ++ us) := by
  intro B r n b s c vs todo hr hB hlegal hn hb hs
  rw [needsOfMethods] at hs
  rw [legalMethods] at hlegal
  simp only [List.append_assoc, List.cons_append, List.nil_append] at hs hn hb
  have hpos : 0 < ts.length := by
    obtain ⟨name, us, rfl, -⟩ := hf
    exact Nat.succ_pos _
  rw [List.length_append] at hb hn
  obtain _ | b := b
  · omega
  have hgo : insideBraces s = (true, s) := by
    obtain ⟨name, us, rfl, hname, -⟩ := hf
    exact (guards_insideBraces (r := r) hr).go hs.stands (by rw [hname]; trivial)
  rw [repeatWhile_step hgo]
  refine (method_settles hf hB hlegal.1 (by rw [List.length_append]; omega) hs).bind fun _ s₁ h₁ => ?_
  exact hfs hr hB hlegal.2 (by omega) (by omega) h₁

theorem members_settles {fs : List (Fun Stmt)} (inherits : Bool) (name : String)
    (hfs : MethodsSettled fs ts) (hl : l.kind = .leftBrace) (hr : r.kind = .rightBrace)
    (hB : B.around = c.outer) (hlegal : legalMethods (c.methods inherits) fs)
    (hn : (ts ++ r :: us).length ≤ n)
    (hs : Owes B (Showing (c.methods inherits)) (l :: (ts ++ r :: us))
      ((c.methods inherits).reading name ++ (needsOfMethods (c.methods inherits) fs ++
        .bytes 1 :: ((c.methods inherits).leaving c ++ todo))) s) :
    Settles B (members (partsWithin n) name s) fun _ s' => Owes B (Showing c) us todo s' := by
  refine (Owes.read (c := c.methods inherits) hB hs).bind fun _ s₁ ⟨h₁, _⟩ => h₁.expect hl fun s₂ h₂ _ => ?_
  refine (hfs (c := c.methods inherits) hr hB hlegal hn hn h₂).bind fun _ s₃ h₃ => h₃.expect hr fun s₄ h₄ _ => ?_
  refine Settles.bind (h₄.emit .pop) fun _ s₅ h₅ => ?_
  have hclasses : s₅.classes = inherits :: c.classes := h₅.stands.shows.classes
  have h₆ := h₅.classes List.tail
  change Settles B ((if s₅.classes.head?.getD false then endScope else pure () : Build Unit)
    { s₅ with classes := s₅.classes.tail }) _
  rw [hclasses] at h₆ ⊢
  cases inherits with
  | false =>
      have hnothing : (c.methods false).leaving c = [] := by simp [Scope.leaving, Scope.methods]
      rw [hnothing] at h₆
      exact h₆.settles ()
  | true =>
      have hopened : Owes B (Showing (c.opened ["super"])) us ((c.opened ["super"]).leaving c ++ todo)
        { s₅ with classes := c.classes } := h₆
      exact hopened.endScope

/-- The superclass is kept in a slot of its own. -/
theorem superclass_settles (name : String) (hk : t.kind = .identifier) (hB : B.around = c.outer)
    (hne : some t.text ≠ some name)
    (hs : Owes B (Showing (c.methods false)) (t :: us) (c.reading t.text ++ (c.enter.room "super" ++
      ((c.methods true).reading name ++ .bytes 1 :: todo))) s) :
    Settles B (superclass name s) fun _ s' => Owes B (Showing (c.methods true)) us todo s' := by
  refine hs.expect (e := .superclassName) hk fun s₁ h₁ hprevious => ?_
  rw [bind_of_run (lastText_run s₁), hprevious]
  refine (Owes.read (c := c.methods false) hB h₁).bind fun _ s₂ ⟨h₂, hprevious₂⟩ => ?_
  rw [bind_of_run (lastText_run s₂), hprevious₂, hprevious]
  dsimp only
  rw [if_neg fun h : name = t.text => hne (congrArg some h.symm)]
  refine h₂.beginScope fun s₃ h₃ => ?_
  have hdepth : s₃.body.depth ≠ 0 := fun h => nomatch (depth_eq_zero h₃.stands.shows).mp h
  have h₃ : Owes B _ us ((c.methods false).enter.room "super" ++ _) s₃ := h₃
  refine (h₃.addLocal hdepth).bind fun _ s₄ ⟨h₄, _⟩ => (h₄.defineVariable 0).bind fun _ s₅ h₅ => ?_
  have h₅ : Owes B _ us (((c.methods false).enter.declare "super").reading name ++ _) s₅ := h₅
  refine (Owes.read (c := (c.methods false).enter.declare "super") hB h₅).bind fun _ s₆ ⟨h₆, _⟩ => Settles.bind (h₆.emit .inherit) fun _ s₇ h₇ => ?_
  have h₈ := h₇.classes fun cs => true :: cs.tail
  exact .kept h₈.clean h₈

/-- A class behind its name. -/
theorem className_settles {name : Token} (hname : name.kind = .identifier)
    (hmay : c.inner.MayDeclare name.text)
    (hs : Owes B (Showing c) (name :: us)
      (.constant (.string name.text) :: (c.room name.text ++ .bytes 2 :: (c.defining ++ todo))) s)
    {R : Unit → Builder → Prop}
    (hf : ∀ s', Owes B (Showing ((c.declare name.text).methods false)) us todo s' →
      Settles B (heritage (partsWithin n) name.text s') R) :
    Settles B (classDeclaration (partsWithin n) s) R := by
  rw [classDeclaration_eq]
  refine hs.expect (e := .className) hname fun s₁ h₁ hprevious => ?_
  rw [bind_of_run (lastText_run s₁), hprevious]
  refine h₁.nameConstant.bind fun k s₂ ⟨h₂, hprevious₂⟩ => ?_
  have htext : s₂.previous.text = name.text := by rw [hprevious₂, hprevious]
  refine (h₂.declareVariable htext hmay).bind fun _ s₃ ⟨h₃, _⟩ => ?_
  refine Settles.bind (h₃.emitWith .makeClass k) fun _ s₄ h₄ => ?_
  refine (h₄.defineVariable k).bind fun _ s₅ h₅ => ?_
  exact hf _ (h₅.classes (false :: ·))

theorem class_settles {name : Token} {fs : List (Fun Stmt)} (hname : name.kind = .identifier)
    (hl : l.kind = .leftBrace) (hr : r.kind = .rightBrace) (hfs : MethodsSettled fs ts)
    (hB : B.around = c.outer) (hlegal : (Stmt.cls name.text none fs).Legal c)
    (hn : (ts ++ r :: us).length ≤ n)
    (hs : Owes B (Showing c) (name :: l :: (ts ++ r :: us)) ((Stmt.cls name.text none fs).needs c ++ todo) s) :
    Settles B (classDeclaration (partsWithin n) s) fun _ s' =>
      Owes B (Showing (c.declare name.text)) us todo s' := by
  rw [Stmt.Legal] at hlegal
  rw [Stmt.needs] at hs
  simp only [List.append_assoc, List.cons_append, List.nil_append] at hs
  refine className_settles hname hlegal.1 hs fun s₁ h₁ => h₁.acceptNot (fun t ht => ?_) ?_
  · obtain rfl := Option.some.inj ht
    rw [hl]
    simp
  · refine members_settles (c := c.declare name.text) false name.text hfs hl hr hB hlegal.2.2 hn ?_
    have hnothing : ((c.declare name.text).methods false).leaving (c.declare name.text) = [] := by
      simp [Scope.leaving, Scope.methods]
    rw [hnothing]
    exact h₁

theorem subclass_settles {name less parent : Token} {fs : List (Fun Stmt)}
    (hname : name.kind = .identifier) (hless : less.kind = .less)
    (hparent : parent.kind = .identifier) (hl : l.kind = .leftBrace) (hr : r.kind = .rightBrace)
    (hfs : MethodsSettled fs ts) (hB : B.around = c.outer)
    (hlegal : (Stmt.cls name.text (some parent.text) fs).Legal c) (hn : (ts ++ r :: us).length ≤ n)
    (hs : Owes B (Showing c) (name :: less :: parent :: l :: (ts ++ r :: us))
      ((Stmt.cls name.text (some parent.text) fs).needs c ++ todo) s) :
    Settles B (classDeclaration (partsWithin n) s) fun _ s' =>
      Owes B (Showing (c.declare name.text)) us todo s' := by
  rw [Stmt.Legal] at hlegal
  rw [Stmt.needs] at hs
  simp only [List.append_assoc, List.cons_append, List.nil_append] at hs
  refine className_settles hname hlegal.1 hs fun s₁ h₁ => h₁.accept hless (by simp) fun s₂ h₂ _ => ?_
  refine (superclass_settles (c := c.declare name.text) name.text hparent hB hlegal.2.1 h₂).bind
    fun _ s₃ h₃ => ?_
  exact members_settles (c := c.declare name.text) true name.text hfs hl hr hB hlegal.2.2 hn h₃

/-! ## Declarations -/

/-- Without an error there is nothing to recover from. -/
theorem settle_settles {x : Build Unit}
    (h : Settles B (x s) fun _ s' => Owes B (Showing c) us todo s') :
    Settles B ((x >>= fun _ => settle (partsWithin n)) s) fun _ s' => Owes B (Showing c) us todo s' := by
  refine h.bind fun _ s' h' => ?_
  change Settles B ((if s'.panicking then synchronize n else pure () : Build Unit) s') _
  rw [h'.calm]
  exact h'.settles ()

/-- A declaration begins with a keyword of its own. -/
theorem declared_settled {x : Nat → Build Unit}
    (hx : ∀ n, declaring (partsWithin n) t.kind = some (x n))
    (h : ∀ {B n s c us todo}, B.around = c.outer → st.Legal c → (ts ++ us).length ≤ n →
      Owes B (Showing c) (ts ++ us) (st.needs c ++ todo) s →
      Settles B (x n s) fun _ s' => Owes B (Showing (c.after st)) us todo s') :
    DeclarationSettled st (t :: ts) := by
  intro B n s c us todo hB hlegal hn _ hs
  obtain _ | n := n
  · simp at hn
  have hne : t.kind ≠ .eof := by
    intro heof
    have := hx 0
    rw [heof] at this
    cases this
  change Settles B (declarationRule (partsWithin n) s) _
  rw [declarationRule_run, hs.tokens.current, hx]
  refine hs.advance hne fun s' h' _ => ?_
  exact settle_settles (h hB hlegal (Nat.le_of_succ_le_succ hn) h')

theorem statement_settled (hd : Derives (.statement st) ts) (h : StatementSettled st ts) :
    DeclarationSettled st ts := by
  intro B n s c us todo hB hlegal hn hopen hs
  obtain ⟨t, ts, rfl⟩ := List.exists_cons_of_length_pos (hd.pos rfl)
  obtain _ | n := n
  · simp at hn
  have hbegins : BeginsStatement t.kind := hd.begins t rfl
  change Settles B (declarationRule (partsWithin n) s) _
  rw [declarationRule_run, hs.tokens.current, declaring_of_beginsStatement hbegins, after_of_derives hd]
  exact settle_settles (h (n := n + 1) hB hlegal hn hopen hs)

theorem noDeclarations_settled : DeclarationsSettled [] [] := by
  intro B x r n b s c us todo hx _ _ _ _ hb hs
  rw [needsOfAll] at hs
  obtain ⟨s', hrun, hs'⟩ := hx.stop hs.stands
  obtain _ | b := b
  · cases hb
  have hbody := hx.body s
  have houter := hx.outer s
  have hfresh := hx.fresh s
  rw [hrun] at hbody houter hfresh
  rw [repeatWhile, bind_of_run hrun]
  have h' : Owes B (Showing c) (r :: us) todo s' :=
    hs.turned hs'.tokens hs'.shows (by rw [hbody]) (by rw [hbody]) houter hfresh
  exact h'.settles ()

theorem declarations_settled {ss : List Stmt} (hd : Derives (.declaration st) ts)
    (hds : Derives (.declarations ss) us) (h : DeclarationSettled st ts)
    (hss : DeclarationsSettled ss us) : DeclarationsSettled (st :: ss) (ts ++ us) := by
  intro B x r n b s c vs todo hx hr hB hlegal hn hb hs
  rw [needsOfAll] at hs
  rw [legalAll] at hlegal
  simp only [List.append_assoc] at hs hn hb
  have hpos := hd.pos rfl
  rw [List.length_append] at hn hb
  obtain _ | b := b
  · omega
  have hgo : x s = (true, s) := by
    obtain ⟨t, ts, rfl⟩ := List.exists_cons_of_length_pos hpos
    exact hx.go hs.stands (hd.begins t rfl)
  have hopen : ¬ TakesElse st (us ++ r :: vs) := by
    rintro ⟨-, t, ht, helse⟩
    cases us with
    | nil => exact hr (Option.some.inj ht ▸ helse)
    | cons u us =>
        obtain rfl : u = t := Option.some.inj ht
        have hbegins : BeginsDeclaration u.kind := hds.begins u rfl
        rw [helse] at hbegins
        exact hbegins
  have := hx.keeps
  have hB' : B.around = (c.after st).outer := by
    rw [hB]
    cases st <;> rfl
  rw [repeatWhile_step hgo]
  refine (h hB hlegal.1 (by rw [List.length_append]; omega) hopen hs).bind fun _ s₁ h₁ => ?_
  exact hss hx hr hB' hlegal.2 (by omega) (by omega) h₁

/-! ## All phrases -/

/-- What is known of the rules for a phrase. -/
def Settled : Phrase → List Token → Prop
  | .statement st, ts => StatementSettled st ts
  | .declaration st, ts => DeclarationSettled st ts
  | .declarations ss, ts => DeclarationsSettled ss ts
  | .function f, ts => FunctionSettled f ts
  | .methods fs, ts => MethodsSettled fs ts
  | _, _ => True

/-- The rules make what a phrase needs that breaks no rule, or the budget is too large. -/
theorem settled_of_derives {x : Phrase} (hd : Derives x ts) : Settled x ts := by
  induction hd with
  | expression hsemi he => exact expression_settled hsemi he
  | print ht hsemi he => exact print_settled ht hsemi he
  | assert ht hsemi he => exact assert_settled ht hsemi he
  | block hl hr _ ih => exact blockStatement_settled ih hl hr
  | cond ht hl hr he _ _ ih => exact cond_settled ht hl hr he ih
  | condElse ht hl hr ht' he _ hclosed _ _ ih ih' =>
      exact condElse_settled ht hl hr ht' he ih hclosed ih'
  | «while» ht hl hr he _ _ ih => exact while_settled ht hl hr he ih
  | «for» ht hl hsemi hr hfirst htest hstep _ _ _ _ ih =>
      simp only [Settled, List.cons_append, List.append_assoc]
      exact for_settled ht hl hsemi hr hfirst htest hstep ih
  | «return» ht hsemi he => exact return_settled ht hsemi he
  | statement hd ih => exact statement_settled hd ih
  | var ht hname hsemi =>
      refine declared_settled (x := fun n => variableDeclaration (partsWithin n))
        (fun _ => by rw [ht]; rfl) fun hB hlegal hn hs => ?_
      exact variable_settles hname .none hB hlegal (Nat.le_of_succ_le (Nat.le_succ_of_le hn)) hsemi hs
  | varValue ht hname heq hsemi he =>
      change DeclarationSettled _ (_ :: _ :: _ :: (_ ++ [_]))
      refine declared_settled (x := fun n => variableDeclaration (partsWithin n))
        (fun _ => by rw [ht]; rfl) fun hB hlegal hn hs => ?_
      simp only [List.cons_append, List.append_assoc] at hs hn
      exact variable_settles hname (.some heq he) hB hlegal
        (Nat.le_of_succ_le (Nat.le_succ_of_le hn)) hsemi hs
  | functionDeclaration ht _ ih =>
      refine declared_settled (x := fun n => functionDeclaration (partsWithin n))
        (fun _ => by rw [ht]; rfl) fun hB hlegal hn hs => ?_
      exact functionDeclaration_settles ih hB hlegal hn hs
  | cls ht hname hl hr _ ih =>
      change DeclarationSettled _ (_ :: _ :: _ :: (_ ++ [_]))
      refine declared_settled (x := fun n => classDeclaration (partsWithin n))
        (fun _ => by rw [ht]; rfl) fun hB hlegal hn hs => ?_
      simp only [List.cons_append, List.append_assoc, List.length_cons, List.nil_append] at hs hn
      exact class_settles hname hl hr ih hB hlegal (by omega) hs
  | subclass ht hname hless hparent hl hr _ ih =>
      change DeclarationSettled _ (_ :: _ :: _ :: _ :: _ :: (_ ++ [_]))
      refine declared_settled (x := fun n => classDeclaration (partsWithin n))
        (fun _ => by rw [ht]; rfl) fun hB hlegal hn hs => ?_
      simp only [List.cons_append, List.append_assoc, List.length_cons, List.nil_append] at hs hn
      exact subclass_settles hname hless hparent hl hr ih hB hlegal (by omega) hs
  | noDeclarations => exact noDeclarations_settled
  | declarations hd hds ih ih' => exact declarations_settled hd hds ih ih'
  | function hname hl hr hlb hrb hps _ _ ih =>
      simp only [Settled, List.cons_append, List.append_assoc]
      exact function_settled hname hl hr hlb hrb hps ih
  | noMethods => exact noMethods_settled
  | methods _ _ ih ih' => exact methods_settled ih ih'
  | _ => trivial

end Rules

end LoxMachine.Statement
