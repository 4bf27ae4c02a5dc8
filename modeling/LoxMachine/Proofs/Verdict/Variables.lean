import LoxMachine.Proofs.Compile.Scopes
import LoxMachine.Proofs.Verdict.Expressions

/-!
# The verdict on declarations of variables

A builder that `Stands` at a place has reported nothing, has these tokens left and shows the scopes
of that place. Between the declaration of a local variable and its initialization the builder
`Lacks` its value.
-/

namespace LoxMachine

open Syntax (FunctionScope Scope IsIdentifier Stmt slotOf?)

namespace Syntax.Scope

/-- A place inside a scope of a function, behind declarations of these variables. -/
def opened (c : Scope) (scope : List String) : Scope :=
  { c with inner := ⟨c.inner.kind, scope :: c.inner.scopes⟩ }

theorem opened_after (c : Scope) (scope : List String) (st : Stmt) :
    ∃ scope', (c.opened scope).after st = c.opened scope' := by
  cases st <;> exact ⟨_, rfl⟩

/-- What is declared in a scope is in that scope. -/
theorem opened_afterAll (c : Scope) (scope : List String) (ss : List Stmt) :
    ∃ scope', ss.foldl after (c.opened scope) = c.opened scope' := by
  induction ss generalizing scope with
  | nil => exact ⟨scope, rfl⟩
  | cons st ss ih =>
      obtain ⟨scope', h⟩ := c.opened_after scope st
      rw [List.foldl_cons, h]
      exact ih scope'

end Syntax.Scope

namespace Builder

/-! ## Places -/

/-- A builder at a place of a text where nothing has been reported. -/
structure Stands (s : Builder) (c : Scope) (us : List Token) : Prop where
  tokens : s.At us
  shows : s.Shows c

section Stands

variable {α β : Type} {x : Build α} {f : α → Build β} {s : Builder} {c c' : Scope} {t : Token}
  {ts us vs : List Token} {P Q : Prop} {R : β → Builder → Prop}

/-- An action that leaves the scopes as they are leaves the builder at the same place. -/
theorem Decides.still [Still x] (hs : s.Stands c ts) (h : Decides (x s) P us fun _ _ => True) :
    Decides (x s) P us fun _ s' => s'.Shows c :=
  h.also hs.tokens.sound fun _ _ hacc _ _ => hs.shows.stays hacc.stays

theorem Stands.bind [∀ a, Keeps (f a)] (hs : s.Stands c ts)
    (hx : Decides (x s) P us fun _ s' => s'.Shows c')
    (hf : ∀ a s', s'.Stands c' us → Decides (f a s') Q vs R) :
    Decides ((x >>= f) s) (P ∧ Q) vs R :=
  hx.bind hs.tokens.sound fun a s' _ hat _ hc => hf a s' ⟨hat, hc⟩

/-- An action at the end that checks nothing more. -/
theorem Stands.bindLast [∀ a, Keeps (f a)] (hs : s.Stands c ts)
    (hx : Decides (x s) P us fun _ s' => s'.Shows c')
    (hf : ∀ a s', s'.Stands c' us → Decides (f a s') True vs R) : Decides ((x >>= f) s) P vs R :=
  (hs.bind hx hf).congr (and_iff_left trivial)

theorem Stands.pass [Lenient x] [Still x] [∀ a, Keeps (f a)] (hs : s.Stands c us)
    (hf : ∀ a s', s'.Stands c us → Decides (f a s') Q vs R) : Decides ((x >>= f) s) Q vs R :=
  .lenient hs.tokens fun a s' h hat => hf a s' ⟨hat, hs.shows.stays h.stays⟩

theorem Stands.last [Lenient x] [Still x] (hs : s.Stands c us) :
    Decides (x s) True us fun _ s' => s'.Shows c :=
  Lenient.last hs.tokens fun _ _ h _ => hs.shows.stays h.stays

theorem Stands.expect {e : Expectation} {f : Unit → Build β} (hs : s.Stands c (t :: us))
    (hk : t.kind = e.kind) (hf : ∀ s', s'.Stands c us → s'.previous = t → Decides (f () s') P vs R) :
    Decides ((Builder.expect e >>= f) s) P vs R :=
  .expect hs.tokens hk fun s' hr hat => hf s' ⟨hat, hs.shows.stays hr.stays⟩

theorem Stands.expectLast {e : Expectation} (hs : s.Stands c (t :: us)) (hk : t.kind = e.kind) :
    Decides (Builder.expect e s) True us fun _ s' => s'.Shows c := by
  obtain ⟨s', hrun, hr, hat, -⟩ := hs.tokens.expect hk
  rw [hrun]
  exact .accepts trivial hat (hs.shows.stays hr.stays)

theorem Stands.advance {f : Unit → Build β} (hs : s.Stands c (t :: us)) (hk : t.kind ≠ .eof)
    (hf : ∀ s', s'.Stands c us → s'.previous = t → Decides (f () s') P vs R) :
    Decides ((Builder.advance >>= f) s) P vs R :=
  .advance hs.tokens hk fun s' hr hat => hf s' ⟨hat, hs.shows.stays hr.stays⟩

theorem Stands.accept {k : TokenKind} {f : Bool → Build β} (hs : s.Stands c (t :: us))
    (hk : t.kind = k) (hne : k ≠ .eof)
    (hf : ∀ s', s'.Stands c us → s'.previous = t → Decides (f true s') P vs R) :
    Decides ((Builder.accept k >>= f) s) P vs R :=
  .accept hs.tokens hk hne fun s' hr hat => hf s' ⟨hat, hs.shows.stays hr.stays⟩

theorem Stands.acceptNot {k : TokenKind} {f : Bool → Build β} (hs : s.Stands c (t :: us))
    (hk : t.kind ≠ k) (hf : Decides (f false s) P vs R) :
    Decides ((Builder.accept k >>= f) s) P vs R :=
  .acceptNot (hs.tokens.current ▸ hk) hf

/-- The same where the current token is known by where it comes from. -/
theorem Stands.acceptNot_head {k : TokenKind} {f : Bool → Build β} (hs : s.Stands c us)
    (hk : ∀ t ∈ us.head?, t.kind ≠ k) (hf : Decides (f false s) P vs R) :
    Decides ((Builder.accept k >>= f) s) P vs R := by
  obtain ⟨t, us, rfl⟩ := hs.tokens.exists_cons
  exact hs.acceptNot (hk t rfl) hf

/-- No variable is being initialized between statements, so any name may be read. -/
theorem Stands.readNamed {f : Unit → Build β} [∀ a, Keeps (f a)] (hs : s.Stands c us)
    (name : String)
    (hf : ∀ s', s'.Stands c us → s'.previous = s.previous → Decides (f () s') P vs R) :
    Decides ((Builder.readNamed name >>= f) s) P vs R := by
  have hallowed : (c.pending = some name → c.place? name ≠ none) ↔ True :=
    ⟨fun _ => trivial, fun _ h => nomatch hs.shows.pending.symm.trans h⟩
  have h := (readNamed_decides hs.tokens hs.shows.sees name).congr hallowed
  refine (h.bind hs.tokens.sound fun _ s' hacc hat _ _ => ?_).congr (and_iff_right trivial)
  obtain ⟨_, hfetches⟩ := Accepts.of_readNamed hacc
  exact hf s' ⟨hat, hs.shows.stays hacc.stays⟩ hfetches.previous

theorem Stands.beginScope {f : Unit → Build β} (hs : s.Stands c us)
    (hf : ∀ s', s'.Stands c.enter us → Decides (f () s') P vs R) :
    Decides ((Builder.beginScope >>= f) s) P vs R := by
  have hc := hs.shows
  have ht := hs.tokens
  refine hf _ ⟨⟨Keeps.sound (x := Builder.beginScope) s ht.sound, ht.clean, ht.rest, ht.plain⟩, ?_⟩
  exact ⟨hc.body.enter, hc.outer, hc.classes, hc.initializing, hc.pending⟩

/-- A scope ends. -/
theorem Stands.endScope {scope : List String} (hs : s.Stands (c.opened scope) us) :
    Decides (Builder.endScope s) True us fun _ s' => s'.Shows c := by
  have hc := hs.shows
  refine Lenient.last hs.tokens fun _ s' h _ => ?_
  obtain ⟨gone, s₁, h₁, h₂⟩ := h.bind
  obtain ⟨hgone, heq⟩ := Accepts.of_onBody h₁
  have hshows : s₁.Shows c := by
    have hbody : s₁.body = s.body.leaveScope.2 := (congrArg Prod.snd hgone).symm
    rw [heq, hbody]
    exact ⟨hc.body.leave, hc.outer, hc.classes, hc.initializing, hc.pending⟩
  exact hshows.stays h₂.stays

end Stands

end Builder

/-! ## Variables without a value -/

namespace Body

/-- A local variable of that name has been declared and not been initialized. -/
def Lacks (b : Body) (f : FunctionScope) (name : String) : Prop :=
  match f.scopes with
  | [] => b.Shows f
  | _ :: _ => ∃ captured locals, b.locals = ⟨name, none, captured⟩ :: locals ∧
      Body.Shows { b with locals } f

variable {b b' : Body} {f : FunctionScope} {name : String}

theorem Lacks.alike (h : b.Lacks f name) (h' : b.Alike b') : b'.Lacks f name := by
  obtain ⟨kind, _ | ⟨scope, scopes⟩⟩ := f
  · exact Shows.alike h h'
  · obtain ⟨captured, locals, heq, hshows⟩ := h
    have hraised := h'.locals
    rw [heq] at hraised
    obtain ⟨⟨name', depth, captured'⟩, locals', hl, hraised', heq'⟩ :=
      List.forall₂_cons_left_iff.mp hraised
    obtain rfl : name' = name := hl.name
    obtain rfl : depth = none := hl.depth
    exact ⟨captured', locals', heq', hshows.alike ⟨h'.kind, h'.depth, hraised'⟩⟩

/-- A variable is there once it has a value. -/
theorem Lacks.initialized (h : b.Lacks f name) (hd : b.depth ≠ 0) :
    b.markInitialized.Shows (f.declare name) := by
  obtain ⟨kind, _ | ⟨scope, scopes⟩⟩ := f
  · exact absurd h.depth hd
  · obtain ⟨captured, locals, heq, hshows⟩ := h
    rw [markInitialized, heq]
    exact hshows.declare name captured

theorem Lacks.global (h : b.Lacks f name) (hd : b.depth = 0) : b.Shows (f.declare name) := by
  obtain ⟨kind, _ | ⟨scope, scopes⟩⟩ := f
  · exact h
  · obtain ⟨captured, locals, heq, hshows⟩ := h
    exact absurd (hd.symm.trans hshows.depth) (Nat.succ_ne_zero _).symm

theorem Lacks.slot? (h : b.Lacks f name) (x : String) :
    Body.slot? x b.locals = slotOf? x f.locals := by
  obtain ⟨kind, _ | ⟨scope, scopes⟩⟩ := f
  · exact Shows.slot? h x
  · obtain ⟨captured, locals, heq, hshows⟩ := h
    rw [heq, Body.slot?, if_neg (by simp [Local.answersTo])]
    exact hshows.slot? x

theorem Lacks.hasUninitialized (h : b.Lacks f name) (x : String) :
    b.hasUninitialized x = true ↔ b.depth ≠ 0 ∧ name = x := by
  obtain ⟨kind, _ | ⟨scope, scopes⟩⟩ := f
  · rw [Shows.not_hasUninitialized h, h.depth]
    simp
  · obtain ⟨captured, locals, heq, hshows⟩ := h
    have hrest : (locals.any fun l => l.name == x && l.depth.isNone) = false :=
      hshows.not_hasUninitialized
    have hd : b.depth ≠ 0 := fun hd => absurd (hd.symm.trans hshows.depth) (Nat.succ_ne_zero _).symm
    rw [Body.hasUninitialized, heq, List.any_cons, hrest]
    simp [hd]

/-- What is marked as initialized once more stays as it is. -/
theorem Shows.markInitialized (h : b.Shows (f.declare name)) (hd : b.depth ≠ 0) :
    b.markInitialized.Shows (f.declare name) := by
  obtain ⟨kind, _ | ⟨scope, scopes⟩⟩ := f
  · exact absurd h.depth hd
  · have hlocals := h.locals
    cases heq : b.locals with
    | nil =>
        rw [heq] at hlocals
        simp [FunctionScope.declare, marks] at hlocals
    | cons l locals =>
        rw [heq] at hlocals
        obtain ⟨hl, hlocals'⟩ := List.cons.inj hlocals
        rw [Body.markInitialized, heq]
        refine ⟨h.kind, h.depth, ?_⟩
        rw [List.map_cons, hlocals']
        refine congrArg (· :: _) ?_
        rw [← hl]
        exact Prod.ext rfl (h.depth ▸ (congrArg Prod.snd hl).symm)

end Body

namespace Builder

/-- A builder between the declaration of a variable and its initialization. -/
structure Lacks (s : Builder) (c : Scope) (name : String) : Prop where
  body : s.body.Lacks c.inner name
  outer : List.Forall₂ Body.Shows s.outer c.outer
  classes : s.classes = c.classes
  initializing : s.initializing = none
  pending : c.pending = none

variable {s s' : Builder} {c : Scope} {t : Token} {us : List Token} {name : String}

theorem Lacks.stays (h : s.Lacks c name) (hs : s.Stays s') : s'.Lacks c name :=
  ⟨h.body.alike hs.body, Body.forall₂_shows h.outer hs.outer, hs.classes.trans h.classes,
    hs.initializing.trans h.initializing, h.pending⟩

/-- While a variable has no value, other names stand for what they stood for before. -/
theorem Lacks.slots (h : s.Lacks c name) (x : String) :
    (s.body :: s.outer).map (fun b => Body.slot? x b.locals) =
      ((c.inner :: c.outer).map FunctionScope.locals).map (slotOf? x) := by
  rw [List.map_cons, List.map_cons, List.map_cons, h.body.slot? x, Body.slots_of_shows h.outer x]

/-- The initializer of a local variable. -/
theorem Lacks.sees (h : s.Lacks c name) (hname : IsIdentifier name) (hd : s.body.depth ≠ 0) :
    s.Sees (c.initializing name) where
  place x := place?_eq_none (h.slots x)
  pending x := by
    rw [isInitializing, h.initializing, Bool.or_eq_true, h.body.hasUninitialized]
    simp [Scope.initializing, hd]
  identifier x hx := Option.some.inj hx ▸ hname
  classes := h.classes

/-- The initializer of a global variable. -/
theorem Lacks.sees_global (h : s.Lacks c name) (hname : IsIdentifier name) (hd : s.body.depth = 0) :
    Sees { s with initializing := some name } (c.initializing name) where
  place x := place?_eq_none (h.slots x)
  pending x := by
    rw [isInitializing, Bool.or_eq_true, h.body.hasUninitialized]
    simp [Scope.initializing, hd]
  identifier x hx := Option.some.inj hx ▸ hname
  classes := h.classes

/-! ## Declarations -/

theorem depth_eq_zero (h : s.Shows c) : s.body.depth = 0 ↔ c.inner.scopes = [] := by
  rw [h.body.depth, List.length_eq_zero_iff]

theorem addLocal_lacks (hs : s.Stands c us) (hd : s.body.depth ≠ 0) (name : String) :
    Decides (addLocal name s) True us fun _ s' => s'.Lacks c name := by
  refine Lenient.last hs.tokens fun _ s' h _ => ?_
  obtain rfl := Accepts.of_addLocal h
  have hc := hs.shows
  refine ⟨?_, hc.outer, hc.classes, hc.initializing, hc.pending⟩
  rw [Body.Lacks]
  split
  · rename_i hnil
    exact absurd ((depth_eq_zero hc).mpr hnil) hd
  · exact ⟨false, s.body.locals, rfl, hc.body⟩

/-- A local variable that is declared has a name of its own in its scope. -/
theorem Stands.declareVariable (hs : s.Stands c us) :
    Decides (declareVariable s) (c.inner.MayDeclare s.previous.text) us
      fun _ s' => s'.Lacks c s.previous.text := by
  have hc := hs.shows
  by_cases hd : s.body.depth = 0
  · have hnil := (depth_eq_zero hc).mp hd
    have hrun : Builder.declareVariable s = ((), s) := by
      change (if decide (s.body.depth = 0) = true then pure () else _ : Build Unit) s = _
      rw [if_pos (decide_eq_true hd)]
      rfl
    rw [hrun]
    refine .accepts ?_ hs.tokens ⟨?_, hc.outer, hc.classes, hc.initializing, hc.pending⟩
    · rw [FunctionScope.MayDeclare, hnil]
      simp
    · rw [Body.Lacks, hnil]
      exact hc.body
  · have hrun : Builder.declareVariable s =
        (if s.body.isDeclared s.previous.text = true then
          error .duplicateLocal >>= fun _ => addLocal s.previous.text
        else addLocal s.previous.text : Build Unit) s := by
      change (if decide (s.body.depth = 0) = true then pure () else _ : Build Unit) s = _
      rw [if_neg (by simpa using hd)]
      rfl
    rw [hrun]
    have hdeclared : s.body.isDeclared s.previous.text = true ↔
        ¬ c.inner.MayDeclare s.previous.text := hc.body.isDeclared hd
    split
    · exact .error hs.tokens (hdeclared.mp (by assumption))
    · rename_i hmay
      refine (addLocal_lacks hs hd _).congr (iff_of_true trivial ?_)
      exact not_not.mp fun h => hmay (hdeclared.mpr h)

theorem Lacks.markInitialized (hs : s.At us) (h : s.Lacks c name) :
    Decides (markInitialized s) True us fun _ s' => s'.Shows (c.declare name) := by
  refine Lenient.last hs fun _ s' hacc _ => ?_
  have heq := Accepts.of_markInitialized hacc
  split at heq
  · rename_i hd
    obtain rfl := heq
    exact ⟨h.body.global hd, h.outer, h.classes, h.initializing, h.pending⟩
  · rename_i hd
    obtain rfl := heq
    exact ⟨h.body.initialized hd, h.outer, h.classes, h.initializing, h.pending⟩

theorem Lacks.defineVariable (hs : s.At us) (h : s.Lacks c name) (k : Nat) :
    Decides (defineVariable k s) True us fun _ s' => s'.Shows (c.declare name) := by
  refine Lenient.last hs fun _ s' hacc _ => ?_
  rcases Accepts.of_defineVariable hacc with ⟨hd, hemit⟩ | ⟨hd, rfl⟩
  · have hshows : s.Shows (c.declare name) :=
      ⟨h.body.global hd, h.outer, h.classes, h.initializing, h.pending⟩
    exact hshows.stays hemit.stays
  · exact ⟨h.body.initialized hd, h.outer, h.classes, h.initializing, h.pending⟩

/-- A variable that already has its value, as a function has, is there as before. -/
theorem Shows.defineVariable (hs : s.At us) (h : s.Shows (c.declare name)) (k : Nat) :
    Decides (defineVariable k s) True us fun _ s' => s'.Shows (c.declare name) := by
  refine Lenient.last hs fun _ s' hacc _ => ?_
  rcases Accepts.of_defineVariable hacc with ⟨-, hemit⟩ | ⟨hd, rfl⟩
  · exact h.stays hemit.stays
  · exact ⟨Body.Shows.markInitialized h.body hd, h.outer, h.classes, h.initializing, h.pending⟩

/-- The name of a variable is read and declared. -/
theorem Stands.readVariable {e : Expectation} (he : e.kind = .identifier)
    (hs : s.Stands c (t :: us)) (hk : t.kind = .identifier) :
    Decides (readVariable e s) (c.inner.MayDeclare t.text) us fun _ s' =>
      s'.Lacks c t.text ∧ IsIdentifier t.text ∧ s'.previous = t := by
  have hdecides : Decides (Builder.readVariable e s) (c.inner.MayDeclare t.text) us
      fun _ s' => s'.Lacks c t.text := by
    refine hs.expect (hk.trans he.symm) fun s₁ hs₁ hprevious => ?_
    have hdeclare := hs₁.declareVariable
    rw [hprevious] at hdeclare
    refine hdeclare.first hs₁.tokens.sound fun _ s₂ _ hat₂ _ hlacks => ?_
    exact Lenient.last hat₂ fun _ s₃ h₃ _ => hlacks.stays h₃.stays
  refine hdecides.also hs.tokens.sound fun _ s' hacc _ hlacks => ?_
  obtain ⟨-, hidentifier, s₁, hr, h⟩ := Accepts.of_readVariable hacc he
  rw [← hs.tokens.current] at hlacks ⊢
  refine ⟨hlacks, hidentifier, ?_⟩
  rcases h with ⟨-, hpools⟩ | ⟨-, heq⟩
  · rw [hpools.eq]
    exact hr.previous
  · rw [heq]
    exact hr.previous

end Builder

end LoxMachine
