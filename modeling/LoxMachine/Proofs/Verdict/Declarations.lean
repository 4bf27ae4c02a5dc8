import LoxMachine.Proofs.Verdict.Statements

/-!
# The verdict on functions and classes

A function is compiled in a scope of its own, in which its parameters are declared; a class in the
scope of its superclass, if it has one. With these all phrases of the grammar are judged by induction
on their derivations.

Main statement: `declarations_judged`.
-/

namespace LoxMachine

open Syntax (FunctionScope Scope)

namespace Builder

variable {β : Type} {f : Unit → Build β} {s s' : Builder} {c c' : Scope} {t r : Token}
  {us vs : List Token} {P : Prop} {R : β → Builder → Prop}

/-! ## Bodies of functions -/

/-- A function is compiled in a scope for its parameters. -/
theorem Stands.openBody {kind : BodyKind} {name : String} (hs : s.Stands c us)
    (hf : ∀ s', s'.Stands (c.function kind []) us → Decides (f () s') P vs R) :
    Decides ((Builder.openBody kind name >>= fun _ => Builder.beginScope >>= f) s) P vs R := by
  have hat : At (Builder.openBody kind name s).2 us :=
    ⟨Keeps.sound (x := Builder.openBody kind name) s hs.tokens.sound, hs.tokens.clean,
      hs.tokens.rest, hs.tokens.plain⟩
  have hshows : Shows (Builder.openBody kind name s).2
      ⟨⟨kind, []⟩, c.inner :: c.outer, c.classes, none⟩ :=
    ⟨Body.shows_new kind name, .cons hs.shows.body hs.shows.outer, hs.shows.classes,
      hs.shows.initializing, rfl⟩
  exact Stands.beginScope ⟨hat, hshows⟩ hf

/-- Behind a function the scopes are those around it. -/
theorem Stands.closeBody {f : Function × Array Capture → Build β} (hs : s.Stands c' us)
    (houter : c'.outer = c.inner :: c.outer) (hclasses : c'.classes = c.classes)
    (hpending : c.pending = none)
    (hf : ∀ a s', s'.Stands c us → Decides (f a s') P vs R) :
    Decides ((Builder.closeBody >>= f) s) P vs R := by
  have hc := hs.shows
  have hshows := hc.outer
  rw [houter] at hshows
  cases hbodies : s.outer with
  | nil =>
      rw [hbodies] at hshows
      cases hshows
  | cons b outer =>
      rw [hbodies] at hshows
      obtain ⟨hb, hrest⟩ := List.forall₂_cons.mp hshows
      obtain ⟨a, s', hrun, heq⟩ : ∃ a s', Builder.closeBody s = (a, s') ∧
          s' = { s with body := b, outer, finished := s'.finished, sound := s'.sound } :=
        ⟨_, _, closeBody_run hbodies, rfl⟩
      have hsound := Keeps.sound (x := Builder.closeBody) s hs.tokens.sound
      rw [hrun] at hsound
      rw [bind_of_run hrun]
      refine hf a s' ⟨⟨hsound, ?_, ?_, hs.tokens.plain⟩, ?_⟩
      · rw [heq]
        exact hs.tokens.clean
      · rw [heq]
        exact hs.tokens.rest
      · rw [heq]
        exact ⟨hb, hrest, hc.classes.trans hclasses, hc.initializing, hpending⟩

/-- The open classes have nothing to do with tokens and bodies. -/
theorem Stands.classes (hs : s.Stands c us) (f : List Bool → List Bool) :
    Stands { s with classes := f s.classes } { c with classes := f c.classes } us := by
  obtain ⟨⟨hsound, hclean, hrest, hplain⟩, hshows⟩ := hs
  exact ⟨⟨⟨hsound.calm, hsound.proper, hsound.ends, hsound.fits, hsound.wired⟩, hclean, hrest,
    hplain⟩, hshows.body, hshows.outer, congrArg f hshows.classes, hshows.initializing,
    hshows.pending⟩

end Builder

namespace Statement

open Builder Syntax

section Rules

variable {α : Type} {n b : Nat} {s : Builder} {c : Scope} {t l r : Token} {ts us vs ws : List Token}
  {P Q : Prop} {R : α → Builder → Prop} {st : Stmt}

set_option synthInstance.maxSize 4096

/-! ## Parameters -/

theorem mayDeclare_opened {acc : List String} {name : String} :
    (c.opened acc).inner.MayDeclare name ↔ name ∉ acc := by
  simp [FunctionScope.MayDeclare, Scope.opened]

theorem parameter_judged (hs : s.Stands c (t :: us)) (hk : t.kind = .identifier) :
    Decides (parameter s) (c.inner.MayDeclare t.text) us fun _ s' => s'.Shows (c.declare t.text) := by
  have : Keeps (onBody fun b => ((), { b with arity := b.arity + 1 })) :=
    keeps_onBody (fun _ h => ⟨h.locals, h.captures, h.constants⟩) fun _ => rfl
  have : Lenient (onBody fun b => ((), { b with arity := b.arity + 1 })) := lenient_onBody
  have : Still (onBody fun b => ((), { b with arity := b.arity + 1 })) :=
    ⟨fun s => ⟨⟨rfl, rfl, Body.Raised.refl _⟩, (Stays.refl s).outer, rfl, rfl⟩⟩
  have hread {s : Builder} (hs : s.Stands c (t :: us)) :
      Decides ((readVariable .parameterName >>= fun k => defineVariable k) s)
        (c.inner.MayDeclare t.text) us fun _ s' => s'.Shows (c.declare t.text) :=
    (hs.readVariable rfl hk).first hs.tokens.sound fun k _ _ hat _ hlacks =>
      hlacks.1.defineVariable hat k
  refine hs.pass fun _ s₁ hs₁ => ?_
  change Decides ((if maxParameters < s₁.body.arity then
    errorAtCurrent .tooManyParameters >>= fun _ =>
      readVariable .parameterName >>= fun k => defineVariable k
    else readVariable .parameterName >>= fun k => defineVariable k : Build Unit) s₁) _ _ _
  split
  · have : Lenient (errorAtCurrent .tooManyParameters) := lenient_errorAtCurrent trivial
    exact .lenient hs₁.tokens fun _ _ h _ => absurd h Accepts.not_errorAtCurrent
  · exact hread hs₁

/-- Names that differ from each other and from those in `acc`, one by one. -/
theorem fresh_cons {x : String} {xs acc : List String} :
    (x :: xs).Nodup ∧ (∀ y ∈ x :: xs, y ∉ acc) ↔
      x ∉ acc ∧ xs.Nodup ∧ ∀ y ∈ xs, y ∉ x :: acc := by
  rw [List.nodup_cons, List.forall_mem_cons]
  constructor
  · rintro ⟨⟨hx, hxs⟩, hacc, hrest⟩
    refine ⟨hacc, hxs, fun y hy hmem => ?_⟩
    rcases List.mem_cons.mp hmem with rfl | hmem
    · exact hx hy
    · exact hrest y hy hmem
  · rintro ⟨hacc, hxs, hrest⟩
    refine ⟨⟨fun hx => hrest x hx List.mem_cons_self, hxs⟩, hacc, fun y hy hmem => ?_⟩
    exact hrest y hy (List.mem_cons_of_mem x hmem)

/-- Parameters have names of their own, which no other variable of their scope has. -/
theorem parameterNames_judged {x : Phrase} {name : String} {names acc : List String}
    (hd : Derives x ts) (hx : x = .parameters (name :: names)) (hr : r.kind = .rightParen)
    (hs : s.Stands (c.opened acc) (ts ++ r :: us)) (hb : ts.length ≤ b) :
    Decides ((parameter >>= fun _ => repeatWhile (accept .comma) parameter b) s)
      ((name :: names).Nodup ∧ ∀ y ∈ name :: names, y ∉ acc) (r :: us)
      fun _ s' => s'.Shows (c.opened ((name :: names).reverse ++ acc)) := by
  induction hd generalizing s acc b name names with
  | @lastParameter t hk =>
      obtain ⟨rfl, rfl⟩ := List.cons.inj (Phrase.parameters.inj hx)
      have hfirst := (parameter_judged hs hk).congr mayDeclare_opened
      refine (hs.bindLast hfirst fun _ s₁ hs₁ => ?_).congr (by simp)
      have hnone : accept .comma s₁ = (false, s₁) :=
        accept_of_ne (by rw [hs₁.tokens.current, hr]; simp)
      rw [repeatWhile_stop hnone]
      exact .accepts trivial hs₁.tokens hs₁.shows
  | @parameter t comma name' names' ts' hk hcomma hd ih =>
      obtain ⟨rfl, rfl⟩ := List.cons.inj (Phrase.parameters.inj hx)
      obtain _ | b := b
      · simp at hb
      have hfirst := (parameter_judged hs hk).congr mayDeclare_opened
      refine (hs.bind (Q := (name' :: names').Nodup ∧ ∀ y ∈ name' :: names', y ∉ t.text :: acc)
        hfirst fun _ s₁ hs₁ => ?_).congr ?_
      · obtain ⟨s₂, hrun, hreads, hat₂, -⟩ := hs₁.tokens.accept hcomma (by simp)
        rw [repeatWhile_step hrun]
        have hs₂ : s₂.Stands (c.opened (t.text :: acc)) (ts' ++ r :: us) :=
          ⟨hat₂, hs₁.shows.stays hreads.stays⟩
        have := ih rfl hs₂ (b := b) (by simp only [List.length_cons] at hb; omega)
        simpa using this
      · exact fresh_cons.symm
  | _ => cases hx

theorem parameters_judged {names : List String} (hd : Derives (.parameters names) ts)
    (hl : l.kind = .leftParen) (hr : r.kind = .rightParen)
    (hs : s.Stands (c.opened []) (l :: (ts ++ r :: us))) (hn : ts.length ≤ n) :
    Decides (parameters (partsWithin n) s) names.Nodup us
      fun _ s' => s'.Shows (c.opened names.reverse) := by
  refine hs.expect hl fun s₁ hs₁ _ => ?_
  cases names with
  | nil =>
      cases hd
      have hcheck : check .rightParen s₁ = (true, s₁) := by
        rw [check_run, hs₁.tokens.current, decide_eq_true hr]
      rw [bind_of_run hcheck]
      have hend : Decides (expect .parametersClose s₁) True us fun _ s' => s'.Shows (c.opened []) :=
        hs₁.expectLast hr
      exact hend.congr (iff_of_true trivial List.nodup_nil)
  | cons name names =>
      have hcheck : check .rightParen s₁ = (false, s₁) := by
        obtain ⟨t, us', heq⟩ := hs₁.tokens.exists_cons
        have hhead : t ∈ (ts ++ r :: us).head? := by rw [heq]; rfl
        have hbegins := hd.begins t (mem_head?_append ?_ hhead)
        · rw [heq] at hs₁
          have hbegins : t.kind = .identifier := hbegins
          rw [check_run, hs₁.tokens.current, hbegins]
          rfl
        · cases hd <;> exact Nat.succ_pos _
      rw [bind_of_run hcheck]
      have hnames := parameterNames_judged hd rfl hr hs₁ hn
      rw [List.append_nil] at hnames
      have hall := hs₁.bindLast hnames fun _ s₂ hs₂ =>
        (hs₂.expectLast (e := .parametersClose) hr)
      exact hall.congr ⟨And.left, fun h => ⟨h, fun _ _ => List.not_mem_nil⟩⟩

/-! ## Functions -/

/-- The rules read a function from its name on, and decide whether it is legal. -/
def FunctionJudged (f : Fun Stmt) (ts : List Token) : Prop :=
  ∃ name us, ts = name :: us ∧ name.kind = .identifier ∧ name.text = f.name ∧
    ∀ {kind n s c vs}, s.Stands c (us ++ vs) → (us ++ vs).length ≤ n →
      Decides (function (partsWithin n) kind s) (f.Legal c kind) vs fun _ s' => s'.Shows c

instance (captures : Array Capture) : Lenient (captures.forM emitCapture) := by
  have (c : Capture) : Lenient (emitCapture c) := by
    unfold emitCapture
    infer_instance
  rw [show captures.forM emitCapture = captures.toList.forM emitCapture by cases captures; simp]
  infer_instance

instance (captures : Array Capture) : Still (captures.forM emitCapture) := by
  have (c : Capture) : Still (emitCapture c) := by
    unfold emitCapture
    infer_instance
  rw [show captures.forM emitCapture = captures.toList.forM emitCapture by cases captures; simp]
  infer_instance

/-- The end of a function and the closure made of it. -/
def closure : Build Unit := do
  let (f, captures) ← closeBody
  emitWith .closure (← makeConstant (.function f))
  captures.forM emitCapture

theorem function_eq (parts : Parts) (kind : BodyKind) : function parts kind = (do
    let name ← lastText
    openBody kind name
    beginScope
    parameters parts
    expect .bodyOpen
    block parts
    emitReturn
    closure) :=
  rfl

instance : Keeps closure := by
  unfold closure
  infer_instance

theorem function_judged {name lb rb : Token} {names : List String} {ss : List Stmt}
    (hname : name.kind = .identifier) (hl : l.kind = .leftParen) (hr : r.kind = .rightParen)
    (hlb : lb.kind = .leftBrace) (hrb : rb.kind = .rightBrace) (hd : Derives (.parameters names) ts)
    (hss : DeclarationsJudged ss us) :
    FunctionJudged ⟨name.text, names, ss⟩ (name :: l :: (ts ++ r :: lb :: (us ++ [rb]))) := by
  refine ⟨name, _, rfl, hname, rfl, fun {kind n s c vs} hs hn => ?_⟩
  simp only [List.cons_append, List.append_assoc, List.length_cons, List.length_append,
    List.nil_append] at hs hn
  rw [function_eq, bind_of_run (lastText_run s), Fun.Legal]
  refine hs.openBody fun s₁ hs₁ => ?_
  have houter : ∀ scope : List String, ((c.function kind []).opened scope).outer = c.inner :: c.outer :=
    fun _ => rfl
  have hparameters := parameters_judged (c := ⟨⟨kind, []⟩, c.inner :: c.outer, c.classes, none⟩) hd
    hl hr hs₁ (n := n) (by omega)
  refine hs₁.bind hparameters fun _ s₂ hs₂ => hs₂.expect hlb fun s₃ hs₃ _ => ?_
  refine hs₃.bindLast (block_judged (n := n) hss hrb hs₃
    (by simp only [List.length_append, List.length_cons]; omega)) fun _ s₄ hs₄ => ?_
  obtain ⟨scope, hscope⟩ := Scope.opened_afterAll
    ⟨⟨kind, []⟩, c.inner :: c.outer, c.classes, none⟩ names.reverse ss
  have hfunction : c.function kind names =
      Scope.opened ⟨⟨kind, []⟩, c.inner :: c.outer, c.classes, none⟩ names.reverse := rfl
  rw [hfunction, hscope] at hs₄
  refine hs₄.pass fun _ s₅ hs₅ => ?_
  refine hs₅.closeBody rfl rfl hs.shows.pending fun a s₆ hs₆ => ?_
  exact hs₆.pass fun k s₇ hs₇ => hs₇.pass fun _ s₈ hs₈ => hs₈.last

theorem functionDeclaration_judged {f : Fun Stmt} (hf : FunctionJudged f ts)
    (hs : s.Stands c (ts ++ us)) (hn : (ts ++ us).length ≤ n) :
    Decides (functionDeclaration (partsWithin n) s) ((Stmt.function f).Legal c) us
      fun _ s' => s'.Shows (c.declare f.name) := by
  obtain ⟨name, ts', rfl, hname, hname', hbody⟩ := hf
  rw [Stmt.Legal, ← hname']
  refine (hs.readVariable (e := .functionName) rfl hname).bind hs.tokens.sound
    fun k s₁ _ hat₁ _ hread => ?_
  refine Decides.congr ((hread.1.markInitialized hat₁).bind (Q := f.Legal (c.declare name.text) .function)
    hat₁.sound fun _ s₂ _ hat₂ _ hshows => ?_) (and_iff_right trivial)
  have hs₂ : s₂.Stands (c.declare name.text) (ts' ++ us) := ⟨hat₂, hshows⟩
  refine hs₂.bindLast (hbody (n := n) hs₂ (Nat.le_of_succ_le hn)) fun _ s₃ hs₃ => ?_
  exact Shows.defineVariable hs₃.tokens hs₃.shows k

/-! ## Classes -/

theorem method_judged {f : Fun Stmt} (hf : FunctionJudged f ts) (hs : s.Stands c (ts ++ us))
    (hn : (ts ++ us).length ≤ n) :
    Decides (method (partsWithin n) s) (f.Legal c (methodKind f.name)) us
      fun _ s' => s'.Shows c := by
  obtain ⟨name, ts', rfl, hname, hname', hbody⟩ := hf
  refine hs.expect (e := .methodName) hname fun s₁ hs₁ hprevious => ?_
  rw [bind_of_run (lastText_run s₁), hprevious, ← hname']
  refine hs₁.pass fun k s₂ hs₂ => ?_
  exact hs₂.bindLast (hbody (n := n) hs₂ (Nat.le_of_succ_le hn)) fun _ s₃ hs₃ => hs₃.last

def MethodsJudged (fs : List (Fun Stmt)) (ts : List Token) : Prop :=
  ∀ {r n b s c us}, r.kind = .rightBrace → s.Stands c (ts ++ r :: us) →
    (ts ++ r :: us).length ≤ n → (ts ++ r :: us).length ≤ b →
    Decides (repeatWhile insideBraces (method (partsWithin n)) b s) (legalMethods c fs) (r :: us)
      fun _ s' => s'.Shows c

theorem noMethods_judged : MethodsJudged [] [] := by
  intro r n b s c us hr hs hn hb
  obtain ⟨s', hrun, hs'⟩ := (guards_insideBraces hr).stop hs
  obtain _ | b := b
  · cases hb
  rw [repeatWhile, bind_of_run hrun]
  exact .accepts (by rw [legalMethods]; trivial) hs'.tokens hs'.shows

theorem methods_judged {f : Fun Stmt} {fs : List (Fun Stmt)} (hf : FunctionJudged f ts)
    (hfs : MethodsJudged fs us) : MethodsJudged (f :: fs) (ts ++ us) := by
  intro r n b s c vs hr hs hn hb
  rw [List.append_assoc] at hs hn hb
  have hpos : 0 < ts.length := by
    obtain ⟨name, us, rfl, -⟩ := hf
    exact Nat.succ_pos _
  rw [List.length_append] at hb hn
  obtain _ | b := b
  · omega
  have hgo : insideBraces s = (true, s) := by
    obtain ⟨name, us, rfl, hname, -⟩ := hf
    exact (guards_insideBraces (r := r) hr).go hs (by rw [hname]; trivial)
  rw [repeatWhile_step hgo, legalMethods]
  refine hs.bind (method_judged hf hs (by rw [List.length_append]; omega)) fun _ s₁ hs₁ => ?_
  exact hfs hr hs₁ (by omega) (by omega)

/-- A class behind its name and its superclass. -/
theorem members_judged {fs : List (Fun Stmt)} {inherits : Bool} (name : String)
    (hfs : MethodsJudged fs ts) (hl : l.kind = .leftBrace) (hr : r.kind = .rightBrace)
    (hs : s.Stands (c.methods inherits) (l :: (ts ++ r :: us)))
    (hn : (ts ++ r :: us).length ≤ n) :
    Decides (members (partsWithin n) name s) (legalMethods (c.methods inherits) fs) us
      fun _ s' => s'.Shows c := by
  refine hs.readNamed name fun s₁ hs₁ _ => hs₁.expect hl fun s₂ hs₂ _ => ?_
  refine hs₂.bindLast (hfs hr hs₂ hn hn) fun _ s₃ hs₃ => hs₃.expect hr fun s₄ hs₄ _ => ?_
  refine hs₄.pass fun _ s₅ hs₅ => ?_
  have hclasses : s₅.classes = inherits :: c.classes := hs₅.shows.classes
  have hs₆ := hs₅.classes List.tail
  change Decides ((if s₅.classes.head?.getD false then endScope else pure () : Build Unit)
    { s₅ with classes := s₅.classes.tail }) _ _ _
  rw [hclasses] at hs₆ ⊢
  cases inherits with
  | false => exact .accepts trivial hs₆.tokens hs₆.shows
  | true =>
      have hopened : Stands { s₅ with classes := c.classes } (c.opened ["super"]) us := hs₆
      exact hopened.endScope

/-- No class is its own superclass. -/
theorem superclass_judged (name : String) (hk : t.kind = .identifier)
    (hs : s.Stands (c.methods false) (t :: us)) :
    Decides (superclass name s) (some t.text ≠ some name) us
      fun _ s' => s'.Shows (c.methods true) := by
  refine hs.expect (e := .superclassName) hk fun s₁ hs₁ hprevious => ?_
  rw [bind_of_run (lastText_run s₁), hprevious]
  refine hs₁.readNamed t.text fun s₂ hs₂ hprevious₂ => ?_
  rw [bind_of_run (lastText_run s₂), hprevious₂, hprevious]
  refine .unless hs₂.tokens (fun h h' => h' (congrArg some h.symm)) fun hne => ?_
  refine Decides.congr (P := True) ?_ (iff_of_true trivial fun h => hne (Option.some.inj h).symm)
  refine hs₂.beginScope fun s₃ hs₃ => ?_
  have hdepth : s₃.body.depth ≠ 0 := fun h => nomatch (depth_eq_zero hs₃.shows).mp h
  refine (addLocal_lacks hs₃ hdepth "super").first hs₃.tokens.sound fun _ s₄ _ hat₄ _ hlacks => ?_
  refine (hlacks.defineVariable hat₄ 0).first hat₄.sound fun _ s₅ _ hat₅ _ hshows => ?_
  refine Stands.readNamed ⟨hat₅, hshows⟩ name fun s₆ hs₆ _ => hs₆.pass fun _ s₇ hs₇ => ?_
  have hs₈ := hs₇.classes fun cs => true :: cs.tail
  exact .accepts trivial hs₈.tokens hs₈.shows

/-- A class behind its name. -/
def heritage (parts : Parts) (name : String) : Build Unit := do
  if ← accept .less then superclass name
  members parts name

instance (name : String) : Keeps (heritage (partsWithin n) name) := by
  unfold heritage
  infer_instance

theorem className_judged {name : Token} (hname : name.kind = .identifier)
    (hs : s.Stands c (name :: us))
    (hf : ∀ s', s'.Stands ((c.declare name.text).methods false) us →
      Decides (heritage (partsWithin n) name.text s') Q vs fun _ s' => s'.Shows (c.declare name.text)) :
    Decides (classDeclaration (partsWithin n) s) (c.inner.MayDeclare name.text ∧ Q) vs
      fun _ s' => s'.Shows (c.declare name.text) := by
  rw [classDeclaration_eq]
  refine hs.expect (e := .className) hname fun s₁ hs₁ hprevious => ?_
  rw [bind_of_run (lastText_run s₁), hprevious]
  refine .lenient hs₁.tokens fun k s₂ hacc hat₂ => ?_
  have hs₂ : s₂.Stands c us := ⟨hat₂, hs₁.shows.stays hacc.stays⟩
  have hname₂ : s₂.previous = name := by
    rw [(Accepts.of_nameConstant hacc).eq]
    exact hprevious
  have hdeclare := hs₂.declareVariable
  rw [hname₂] at hdeclare
  refine hdeclare.bind hat₂.sound fun _ s₃ _ hat₃ _ hlacks => ?_
  refine .lenient hat₃ fun _ s₄ hacc₄ hat₄ => ?_
  refine Decides.congr (((hlacks.stays hacc₄.stays).defineVariable hat₄ k).bind (Q := Q) hat₄.sound
    fun _ s₅ _ hat₅ _ hshows => ?_) (and_iff_right trivial)
  exact hf _ (Stands.classes ⟨hat₅, hshows⟩ (false :: ·))

theorem class_judged {name : Token} {fs : List (Fun Stmt)} (hname : name.kind = .identifier)
    (hl : l.kind = .leftBrace) (hr : r.kind = .rightBrace) (hfs : MethodsJudged fs ts)
    (hs : s.Stands c (name :: l :: (ts ++ r :: us))) (hn : (ts ++ r :: us).length ≤ n) :
    Decides (classDeclaration (partsWithin n) s) ((Stmt.cls name.text none fs).Legal c) us
      fun _ s' => s'.Shows (c.declare name.text) := by
  rw [Stmt.Legal]
  refine className_judged hname hs fun s₁ hs₁ => hs₁.acceptNot (by rw [hl]; simp) ?_
  exact (members_judged name.text hfs hl hr hs₁ hn).congr (and_iff_right (by simp)).symm

theorem subclass_judged {name less parent : Token} {fs : List (Fun Stmt)}
    (hname : name.kind = .identifier) (hless : less.kind = .less)
    (hparent : parent.kind = .identifier) (hl : l.kind = .leftBrace) (hr : r.kind = .rightBrace)
    (hfs : MethodsJudged fs ts) (hs : s.Stands c (name :: less :: parent :: l :: (ts ++ r :: us)))
    (hn : (ts ++ r :: us).length ≤ n) :
    Decides (classDeclaration (partsWithin n) s) ((Stmt.cls name.text (some parent.text) fs).Legal c)
      us fun _ s' => s'.Shows (c.declare name.text) := by
  rw [Stmt.Legal]
  refine className_judged hname hs fun s₁ hs₁ => hs₁.accept hless (by simp) fun s₂ hs₂ _ => ?_
  exact hs₂.bind (superclass_judged name.text hparent hs₂) fun _ s₃ hs₃ =>
    members_judged name.text hfs hl hr hs₃ hn

/-! ## Declarations -/

/-- The declaration that a keyword begins, without it. -/
def declaring (parts : Parts) : TokenKind → Option (Build Unit)
  | .kwClass => some (classDeclaration parts)
  | .kwFun => some (functionDeclaration parts)
  | .kwVar => some (variableDeclaration parts)
  | _ => none

/-- What is done behind a declaration with errors. -/
def settle (parts : Parts) : Build Unit := do
  if (← get).panicking then synchronize parts.bound

theorem declarationRule_run (parts : Parts) (s : Builder) : declarationRule parts s =
    match declaring parts s.current.kind with
    | some x => (advance >>= fun _ => x >>= fun _ => settle parts) s
    | none => (statementRule parts >>= fun _ => settle parts) s := by
  have hrun : declarationRule parts = (accept .kwClass >>= fun b =>
      if b then classDeclaration parts >>= fun _ => settle parts
      else accept .kwFun >>= fun b =>
        if b then functionDeclaration parts >>= fun _ => settle parts
        else accept .kwVar >>= fun b =>
          if b then variableDeclaration parts >>= fun _ => settle parts
          else statementRule parts >>= fun _ => settle parts) := rfl
  rw [hrun]
  simp only [accept_bind, Bool.false_eq_true, if_true, if_false]
  cases s.current.kind <;> rfl

instance : Keeps (settle (partsWithin n)) := by
  unfold settle
  infer_instance

/-- Without an error there is nothing to recover from. -/
theorem settle_judged {x : Build Unit} (hs : s.Sound)
    (h : Decides (x s) P us fun _ s' => s'.Shows c) :
    Decides ((x >>= fun _ => settle (partsWithin n)) s) P us fun _ s' => s'.Shows c := by
  refine h.first hs fun _ s' _ hat _ hshows => ?_
  change Decides ((if s'.panicking then synchronize n else pure () : Build Unit) s') _ _ _
  rw [hat.sound.calm hat.clean]
  exact .accepts trivial hat hshows

/-- A declaration begins with a keyword of its own. -/
theorem declared_judged {x : Nat → Build Unit}
    (hx : ∀ n, declaring (partsWithin n) t.kind = some (x n))
    (h : ∀ {n s c us}, s.Stands c (ts ++ us) → (ts ++ us).length ≤ n →
      Decides (x n s) (st.Legal c) us fun _ s' => s'.Shows (c.after st)) :
    DeclarationJudged st (t :: ts) := by
  intro n s c us hs hn _
  obtain _ | n := n
  · simp at hn
  have hne : t.kind ≠ .eof := by
    intro heof
    have := hx 0
    rw [heof] at this
    cases this
  change Decides (declarationRule (partsWithin n) s) _ _ _
  rw [declarationRule_run, hs.tokens.current, hx]
  refine hs.advance hne fun s' hs' _ => ?_
  exact settle_judged hs'.tokens.sound (h hs' (Nat.le_of_succ_le_succ hn))

theorem declaring_of_beginsStatement {parts : Parts} {k : TokenKind} (hk : BeginsStatement k) :
    declaring parts k = none := by
  cases k <;> first | rfl | exact absurd hk id

theorem after_of_derives (hd : Derives (.statement st) ts) : c.after st = c := by
  cases hd <;> rfl

theorem statement_judged (hd : Derives (.statement st) ts) (h : StatementJudged st ts) :
    DeclarationJudged st ts := by
  intro n s c us hs hn hopen
  obtain ⟨t, ts, rfl⟩ := List.exists_cons_of_length_pos (hd.pos rfl)
  obtain _ | n := n
  · simp at hn
  have hbegins : BeginsStatement t.kind := hd.begins t rfl
  change Decides (declarationRule (partsWithin n) s) _ _ _
  rw [declarationRule_run, hs.tokens.current, declaring_of_beginsStatement hbegins,
    after_of_derives hd]
  exact settle_judged hs.tokens.sound (h (n := n + 1) hs hn hopen)

theorem noDeclarations_judged : DeclarationsJudged [] [] := by
  intro x r n b s c us hx _ hs _ hb
  obtain ⟨s', hrun, hs'⟩ := hx.stop hs
  obtain _ | b := b
  · cases hb
  rw [repeatWhile, bind_of_run hrun, legalAll]
  exact .accepts trivial hs'.tokens hs'.shows

theorem declarations_judged {ss : List Stmt} (hd : Derives (.declaration st) ts)
    (hds : Derives (.declarations ss) us) (h : DeclarationJudged st ts)
    (hss : DeclarationsJudged ss us) : DeclarationsJudged (st :: ss) (ts ++ us) := by
  intro x r n b s c vs hx hr hs hn hb
  rw [List.append_assoc] at hs hn hb
  have hpos := hd.pos rfl
  rw [List.length_append] at hn hb
  obtain _ | b := b
  · omega
  have hgo : x s = (true, s) := by
    obtain ⟨t, ts, rfl⟩ := List.exists_cons_of_length_pos hpos
    exact hx.go hs (hd.begins t rfl)
  have hopen : ¬ TakesElse st (us ++ r :: vs) := by
    rintro ⟨-, t, ht, helse⟩
    cases us with
    | nil => exact hr (Option.some.inj ht ▸ helse)
    | cons u us =>
        obtain rfl : u = t := Option.some.inj ht
        have hbegins : BeginsDeclaration u.kind := hds.begins u rfl
        rw [helse] at hbegins
        exact hbegins
  have := hx.keeps
  rw [repeatWhile_step hgo, legalAll]
  refine hs.bind (h hs (by rw [List.length_append]; omega) hopen) fun _ s₁ hs₁ => ?_
  exact hss hx hr hs₁ (by omega) (by omega)

/-! ## All phrases -/

/-- What is known of the rules for a phrase. -/
def Judged : Phrase → List Token → Prop
  | .statement st, ts => StatementJudged st ts
  | .declaration st, ts => DeclarationJudged st ts
  | .declarations ss, ts => DeclarationsJudged ss ts
  | .function f, ts => FunctionJudged f ts
  | .methods fs, ts => MethodsJudged fs ts
  | _, _ => True

/-- The rules read what the grammar derives, and decide whether it is legal. -/
theorem judged_of_derives {x : Phrase} (hd : Derives x ts) : Judged x ts := by
  induction hd with
  | expression hsemi he => exact expression_judged hsemi he
  | print ht hsemi he => exact print_judged ht hsemi he
  | assert ht hsemi he => exact assert_judged ht hsemi he
  | block hl hr _ ih => exact blockStatement_judged ih hl hr
  | cond ht hl hr he _ _ ih => exact cond_judged ht hl hr he ih
  | condElse ht hl hr ht' he _ hclosed _ _ ih ih' =>
      exact condElse_judged ht hl hr ht' he ih hclosed ih'
  | «while» ht hl hr he _ _ ih => exact while_judged ht hl hr he ih
  | «for» ht hl hsemi hr hfirst htest hstep _ _ _ _ ih =>
      simp only [Judged, List.cons_append, List.append_assoc]
      exact for_judged ht hl hsemi hr hfirst htest hstep ih
  | «return» ht hsemi he => exact return_judged ht hsemi he
  | statement hd ih => exact statement_judged hd ih
  | var ht hname hsemi =>
      refine declared_judged (x := fun n => variableDeclaration (partsWithin n))
        (fun _ => by rw [ht]; rfl) fun hs hn => ?_
      exact variable_judged hname .none hs (Nat.le_of_succ_le (Nat.le_succ_of_le hn)) hsemi
  | varValue ht hname heq hsemi he =>
      change DeclarationJudged _ (_ :: _ :: _ :: (_ ++ [_]))
      refine declared_judged (x := fun n => variableDeclaration (partsWithin n))
        (fun _ => by rw [ht]; rfl) fun hs hn => ?_
      simp only [List.cons_append, List.append_assoc] at hs hn
      exact variable_judged hname (.some heq he) hs
        (Nat.le_of_succ_le (Nat.le_succ_of_le hn)) hsemi
  | functionDeclaration ht _ ih =>
      refine declared_judged (x := fun n => functionDeclaration (partsWithin n))
        (fun _ => by rw [ht]; rfl) fun hs hn => ?_
      exact functionDeclaration_judged ih hs hn
  | cls ht hname hl hr _ ih =>
      change DeclarationJudged _ (_ :: _ :: _ :: (_ ++ [_]))
      refine declared_judged (x := fun n => classDeclaration (partsWithin n))
        (fun _ => by rw [ht]; rfl) fun hs hn => ?_
      simp only [List.cons_append, List.append_assoc, List.length_cons, List.nil_append] at hs hn
      exact class_judged hname hl hr ih hs (by omega)
  | subclass ht hname hless hparent hl hr _ ih =>
      change DeclarationJudged _ (_ :: _ :: _ :: _ :: _ :: (_ ++ [_]))
      refine declared_judged (x := fun n => classDeclaration (partsWithin n))
        (fun _ => by rw [ht]; rfl) fun hs hn => ?_
      simp only [List.cons_append, List.append_assoc, List.length_cons, List.nil_append] at hs hn
      exact subclass_judged hname hless hparent hl hr ih hs (by omega)
  | noDeclarations => exact noDeclarations_judged
  | declarations hd hds ih ih' => exact declarations_judged hd hds ih ih'
  | function hname hl hr hlb hrb hps _ _ ih =>
      simp only [Judged, List.cons_append, List.append_assoc]
      exact function_judged hname hl hr hlb hrb hps ih
  | noMethods => exact noMethods_judged
  | methods _ _ ih ih' => exact methods_judged ih ih'
  | _ => trivial

end Rules

end Statement

end LoxMachine
