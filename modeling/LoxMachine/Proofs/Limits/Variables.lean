import LoxMachine.Proofs.Limits.Expressions

/-!
# Limits of scopes

A declaration takes a slot or, outside of all scopes, the place of a name among the constants; the end of a
scope takes an instruction a variable. What the scopes of the builder are behind all this is known from the
verdict; here it is said what has been made.
-/

namespace LoxMachine

open Syntax (FunctionScope Scope Need IsIdentifier)

namespace Body

variable {b : Body} {f : FunctionScope} {scope : List String} {kind : BodyKind} {name : String}

theorem Shows.length_locals (h : b.Shows f) : b.locals.length = f.locals.length := by
  rw [← h.names, List.length_map]

theorem Lacks.depth (h : b.Lacks f name) : b.depth = f.scopes.length := by
  obtain ⟨kind, _ | ⟨scope, scopes⟩⟩ := f
  · exact Shows.depth h
  · obtain ⟨captured, locals, -, hshows⟩ := h
    exact hshows.depth

/-- The end of a scope removes as many variables as were declared in it. -/
theorem length_leaveScope (b : Body) :
    b.leaveScope.1.length + b.leaveScope.2.locals.length = b.locals.length := by
  rw [leaveScope, List.span_eq_takeWhile_dropWhile, ← List.length_append, List.takeWhile_append_dropWhile]

/-- What is initialized has been made before. -/
theorem markInitialized_made (b : Body) :
    b.markInitialized.chunk = b.chunk ∧ b.markInitialized.captures = b.captures := by
  rw [markInitialized]
  split <;> exact ⟨rfl, rfl⟩

end Body

namespace Builder

variable {α β : Type} {x : Build α} {f : Unit → Build β} {B : Budget} {V W : Builder → Prop} {c : Scope}
  {s s' : Builder} {us vs : List Token} {t : Token} {todo : List Need} {name : String} {P : Prop}
  {R R₁ : α → Builder → Prop} {R' : β → Builder → Prop}

/-! ## Verdicts -/

/-- Where nothing is reported the verdict is known. -/
theorem Decides.of_clean {r : α × Builder} (h : Decides r P us R) (hclean : r.2.errors = #[]) :
    r.2.At us ∧ R r.1 r.2 := by
  cases h with
  | exceeds h =>
      obtain ⟨e, he, -⟩ := h
      rw [hclean] at he
      exact absurd he (Array.not_mem_empty e)
  | accepts _ hat hr => exact ⟨hat, hr⟩
  | rejects _ he => exact absurd hclean he

theorem Settles.also {r : α × Builder} (h : Settles B r R) (hd : Decides r P us R₁) :
    Settles B r fun a s' => R a s' ∧ R₁ a s' := by
  cases h with
  | kept he hR => exact .kept he ⟨hR, (hd.of_clean he).2⟩
  | broken he hB => exact .broken he hB

theorem Owes.stands (h : Owes B (Showing c) us todo s) : s.Stands c us :=
  ⟨h.tokens, h.view⟩

/-- What is known of the scopes may change where nothing is made. -/
theorem Owes.turned (h : Owes B V vs todo s) (hat : s'.At us) (hview : W s')
    (hchunk : s'.body.chunk = s.body.chunk) (hcaptures : s'.body.captures = s.body.captures)
    (houter : s'.outer = s.outer) (hfresh : s'.fresh = s.fresh) : Owes B W us todo s' := by
  obtain ⟨ns, hwhole, hfits, hnear, hcharged⟩ := h.ledger
  refine ⟨hat, hview, ns, hwhole, hfits, hnear, ?_⟩
  rw [hfresh, houter]
  exact hcharged.congr (hchunk ▸ hcharged.pays) hcaptures rfl

/-- The same debts, where more is known of the scopes. -/
theorem Owes.view_mono (h : Owes B V us todo s) (hview : W s) : Owes B W us todo s :=
  ⟨h.tokens, hview, h.ledger⟩

/-! ## Declarations -/

/-- A local variable takes a slot, if there is one. -/
theorem Owes.addLocal (hd : s.body.depth ≠ 0) (h : Owes B (Showing c) us (c.room name ++ todo) s) :
    Settles B (Builder.addLocal name s) fun _ s' =>
      Owes B (Lacking c name) us todo s' ∧ s'.previous = s.previous := by
  have hdecides := addLocal_lacks h.stands hd name
  have hne : c.inner.scopes ≠ [] := fun hnil => hd ((depth_eq_zero h.view).mpr hnil)
  have hroom : c.room name = [.locals (s.body.locals.length + 1)] := by
    rw [Body.Shows.length_locals (Shows.body h.view)]
    obtain ⟨⟨kind, _ | ⟨scope, scopes⟩⟩, outer, classes, pending⟩ := c
    · exact absurd rfl hne
    · simp [Scope.room, Scope.declare, FunctionScope.declare, FunctionScope.locals]
  rw [hroom] at h
  rw [addLocal_run] at hdecides ⊢
  split
  · rename_i hlt
    rw [if_pos hlt] at hdecides
    obtain ⟨hat, hlacks⟩ := hdecides.of_clean h.clean
    exact .kept h.clean ⟨(h.skip hlt trivial rfl rfl rfl rfl).turned hat hlacks rfl rfl rfl rfl, rfl⟩
  · rename_i hfull
    exact h.check (fun _ hfits _ => hfull hfits) fun hclean => absurd hclean (errors_error_ne h.calm _)

/-- A variable that is declared takes a slot if it is local. -/
theorem Owes.declareVariable (hname : s.previous.text = name) (hmay : c.inner.MayDeclare name)
    (h : Owes B (Showing c) us (c.room name ++ todo) s) :
    Settles B (Builder.declareVariable s) fun _ s' =>
      Owes B (Lacking c name) us todo s' ∧ s'.previous = s.previous := by
  subst hname
  by_cases hd : s.body.depth = 0
  · have hnil := (depth_eq_zero h.view).mp hd
    have hrun : Builder.declareVariable s = ((), s) := by
      change (if decide (s.body.depth = 0) = true then pure () else _ : Build Unit) s = _
      rw [if_pos (decide_eq_true hd)]
      rfl
    have hdecides := h.stands.declareVariable
    rw [hrun] at hdecides ⊢
    have hroom : c.room s.previous.text = [] := by rw [Scope.room, hnil]
    rw [hroom] at h
    exact .kept h.clean ⟨h.view_mono (hdecides.of_clean h.clean).2, rfl⟩
  · have hrun : Builder.declareVariable s = (if s.body.isDeclared s.previous.text = true then
          error .duplicateLocal >>= fun _ => Builder.addLocal s.previous.text
        else Builder.addLocal s.previous.text : Build Unit) s := by
      change (if decide (s.body.depth = 0) = true then pure () else _ : Build Unit) s = _
      rw [if_neg (by simpa using hd)]
      rfl
    rw [hrun, if_neg fun hdeclared => (Body.Shows.isDeclared (Shows.body h.view) hd).mp hdeclared hmay]
    exact h.addLocal hd

theorem Lacks.global_iff (h : s.Lacks c name) : s.body.depth = 0 ↔ c.inner.scopes = [] := by
  rw [h.body.depth, List.length_eq_zero_iff]

/-- The name of a variable is read and declared; that of a global is a constant. -/
theorem Owes.readVariable {e : Expectation} (he : e.kind = .identifier) (hk : t.kind = .identifier)
    (hmay : c.inner.MayDeclare t.text)
    (h : Owes B (Showing c) (t :: us) (c.room t.text ++ (c.globalName t.text ++ todo)) s) :
    Settles B (Builder.readVariable e s) fun _ s' =>
      Owes B (Lacking c t.text) us todo s' ∧ IsIdentifier t.text ∧ s'.previous = t := by
  have hmade : Settles B (Builder.readVariable e s) fun _ s' => Owes B (Lacking c t.text) us todo s' := by
    refine h.expect (hk.trans he.symm) fun s₁ h₁ hprevious => ?_
    refine (h₁.declareVariable (congrArg Token.text hprevious) hmay).bind fun _ s₂ ⟨h₂, hprevious₂⟩ => ?_
    change Settles B ((if decide (s₂.body.depth = 0) = true then
      lastText >>= fun name => Builder.nameConstant name else pure 0 : Build Nat) s₂) _
    have hglobal := Lacks.global_iff h₂.view
    cases hscopes : c.inner.scopes with
    | nil =>
        rw [if_pos (decide_eq_true (hglobal.mpr hscopes)), bind_of_run (lastText_run s₂), hprevious₂, hprevious]
        rw [Scope.globalName, hscopes] at h₂
        exact h₂.nameConstant.map And.left
    | cons scope scopes =>
        rw [if_neg fun hd => nomatch hscopes.symm.trans (hglobal.mp (of_decide_eq_true hd))]
        rw [Scope.globalName, hscopes] at h₂
        exact h₂.settles 0
  exact (hmade.also (h.stands.readVariable he hk)).map fun ⟨h, _, hread⟩ => ⟨h, hread⟩

theorem markInitialized_run (s : Builder) : Builder.markInitialized s =
    if s.body.depth = 0 then ((), s) else ((), s.initialized) := by
  change (if decide (s.body.depth = 0) = true then pure () else _ : Build Unit) s = _
  by_cases hd : s.body.depth = 0
  · rw [if_pos hd, if_pos (decide_eq_true hd)]
    rfl
  · rw [if_neg hd, if_neg fun h => hd (of_decide_eq_true h)]
    rfl

/-- Initialized variables are on the stack already. -/
theorem Owes.initialized (h : Owes B V us todo s) (hat : s.initialized.At us) (hview : W s.initialized) :
    Owes B W us todo s.initialized :=
  have hmade := s.body.markInitialized_made
  h.turned hat hview hmade.1 hmade.2 rfl rfl

theorem Owes.markInitialized (h : Owes B (Lacking c name) us todo s) :
    Settles B (Builder.markInitialized s) fun _ s' => Owes B (Showing (c.declare name)) us todo s' := by
  have hdecides := Lacks.markInitialized h.tokens h.view
  rw [markInitialized_run] at hdecides ⊢
  split at hdecides <;> rename_i hd
  · rw [if_pos hd]
    exact .kept h.clean (h.view_mono (hdecides.of_clean h.clean).2)
  · rw [if_neg hd]
    obtain ⟨hat, hshows⟩ := hdecides.of_clean h.clean
    exact .kept h.clean (h.initialized hat hshows)

/-- A global variable has to be defined, a local one is there. -/
theorem Owes.define [Stable V] (k : Nat) (hd : s.body.depth = 0 ↔ c.inner.scopes = [])
    (hdecides : Decides (Builder.defineVariable k s) P us fun _ s' => W s')
    (h : Owes B V us (c.defining ++ todo) s) :
    Settles B (Builder.defineVariable k s) fun _ s' => Owes B W us todo s' := by
  have hrun : Builder.defineVariable k s = (if decide (s.body.depth = 0) = true then
      Builder.emitWith .defineGlobal k else Builder.markInitialized : Build Unit) s := rfl
  rw [hrun] at hdecides ⊢
  cases hscopes : c.inner.scopes with
  | nil =>
      rw [if_pos (decide_eq_true (hd.mpr hscopes))] at hdecides ⊢
      rw [Scope.defining, hscopes] at h
      exact ((Owes.emitWith h .defineGlobal k).also hdecides).map fun h => h.1.view_mono h.2
  | cons scope scopes =>
      have hd : s.body.depth ≠ 0 := fun h => nomatch hscopes.symm.trans (hd.mp h)
      rw [if_neg fun h => hd (of_decide_eq_true h), markInitialized_run, if_neg hd] at hdecides ⊢
      rw [Scope.defining, hscopes] at h
      obtain ⟨hat, hview⟩ := hdecides.of_clean h.clean
      exact .kept h.clean (h.initialized hat hview)

theorem Owes.defineVariable (k : Nat) (h : Owes B (Lacking c name) us (c.defining ++ todo) s) :
    Settles B (Builder.defineVariable k s) fun _ s' => Owes B (Showing (c.declare name)) us todo s' :=
  h.define k (Lacks.global_iff h.view) (Lacks.defineVariable h.tokens h.view k)

/-- A function is there before it is defined. -/
theorem Owes.defineFunction (k : Nat) (h : Owes B (Showing (c.declare name)) us (c.defining ++ todo) s) :
    Settles B (Builder.defineVariable k s) fun _ s' => Owes B (Showing (c.declare name)) us todo s' := by
  refine h.define k ?_ (Shows.defineVariable h.tokens h.view k)
  rw [depth_eq_zero h.view]
  obtain ⟨⟨kind, _ | ⟨scope, scopes⟩⟩, outer, classes, pending⟩ := c
  · exact Iff.rfl
  · exact iff_of_false nofun nofun

/-! ## Scopes -/

theorem Owes.beginScope (h : Owes B (Showing c) us todo s)
    (hf : ∀ s', Owes B (Showing c.enter) us todo s' → Settles B (f () s') R') :
    Settles B ((Builder.beginScope >>= f) s) R' := by
  have hc : s.Shows c := h.view
  have hat := h.tokens
  refine hf _ (h.turned ⟨Keeps.sound (x := Builder.beginScope) s hat.sound, hat.clean, hat.rest, hat.plain⟩
    ?_ rfl rfl rfl rfl)
  exact ⟨hc.body.enter, hc.outer, hc.classes, hc.initializing, hc.pending⟩

/-- The end of a scope takes an instruction for each of its variables. -/
theorem Owes.endScope {scope : List String}
    (h : Owes B (Showing (c.opened scope)) us ((c.opened scope).leaving c ++ todo) s) :
    Settles B (Builder.endScope s) fun _ s' => Owes B (Showing c) us todo s' := by
  have hc : s.Shows (c.opened scope) := h.view
  have hat := h.tokens
  have hleft : s.body.leaveScope.2.Shows c.inner := hc.body.leave
  have hlength : (c.opened scope).leaving c = s.body.leaveScope.1.map fun _ => Need.bytes 1 := by
    have h₁ := s.body.length_leaveScope
    have h₂ := hc.body.length_locals
    have h₃ := hleft.length_locals
    rw [Scope.leaving, ← h₂, ← h₃, List.map_const']
    congr 1
    omega
  rw [hlength] at h
  have hturned : Owes B (Showing c) us (s.body.leaveScope.1.map (fun _ => Need.bytes 1) ++ todo)
      { s with body := s.body.leaveScope.2 } := by
    refine h.turned ?_ ⟨hleft, hc.outer, hc.classes, hc.initializing, hc.pending⟩ rfl rfl rfl rfl
    exact ⟨Keeps.sound (x := onBody Body.leaveScope) s hat.sound, hat.clean, hat.rest, hat.plain⟩
  exact hturned.emitAll fun l => if l.captured then .closeUpvalue else .pop

theorem emitReturn_run (s : Builder) : Builder.emitReturn s =
    ((if s.body.kind = .initializer then Builder.emitWith .getLocal 0 else Builder.emit .litNil) >>= fun _ =>
      Builder.emit .ret : Build Unit) s := by
  change (if s.body.kind = .initializer then _ else _ : Build Unit) s = _
  split <;> rfl

theorem Owes.emitReturn [Stable V] (hkind : s.body.kind = c.inner.kind)
    (h : Owes B V us (c.answering ++ todo) s) :
    Settles B (Builder.emitReturn s) fun _ s' => Owes B V us todo s' := by
  have hfirst : Settles B ((if s.body.kind = .initializer then Builder.emitWith .getLocal 0
      else Builder.emit .litNil : Build Unit) s) fun _ s' => Owes B V us (.bytes 1 :: todo) s' := by
    rw [hkind]
    rw [Scope.answering] at h
    cases hk : c.inner.kind with
    | initializer =>
        rw [hk] at h
        exact Owes.emitWith h .getLocal 0
    | script | function | method =>
        rw [hk] at h
        exact Owes.emit h .litNil
  rw [emitReturn_run]
  exact hfirst.bind fun _ s' h' => Owes.emit h' .ret

end Builder

end LoxMachine
