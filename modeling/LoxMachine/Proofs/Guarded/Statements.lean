import LoxMachine.Proofs.Guarded.Agreement

/-!
# Guarded statements

The rules for statements and declarations are followed where those for their parts are
(`PartsFollow`). A rule reads a token before it comes to a part, but for an expression that stands
for a statement; so every rule inside another one has fewer tokens left.
-/

namespace LoxMachine.Guarded

open Builder Statement

/-- The parts of a construct are followed, where fewer than `n` tokens are left behind its first. -/
class PartsFollow (w : Bool) (n : Nat) (gparts : Parts) (parts : Statement.Parts) : Prop where
  bound : n ≤ parts.bound
  guardedBound : n ≤ gparts.bound
  expression : ∀ r, Follows w (n + 1) r gparts.expression parts.expression
  statement : ∀ r, Follows w n r gparts.statement parts.statement
  declaration : ∀ r, Follows w n r gparts.declaration parts.declaration
  recover : ∀ r, Follows w (n + 1) r gparts.recover (Builder.synchronize parts.bound)
  takes : 0 < n → Takes parts.declaration

section Rules

variable {w : Bool} {n : Nat} {r : Room} {gparts : Parts} {parts : Statement.Parts}

instance [h : PartsFollow w n gparts parts] : Follows w n r gparts.expression parts.expression :=
  (h.expression r).mono (Nat.le_succ n)

instance [h : PartsFollow w n gparts parts] : Follows w n r gparts.statement parts.statement :=
  h.statement r

instance [h : PartsFollow w n gparts parts] : Follows w n r gparts.declaration parts.declaration :=
  h.declaration r

variable [h : PartsFollow w n gparts parts] [Balanced parts.expression] [Balanced parts.statement]
  [Balanced parts.declaration]

set_option synthInstance.maxSize 4096

/-! ## Simple statements -/

instance : Follows w n r (printStatement gparts) (Statement.printStatement parts) := by
  unfold printStatement Statement.printStatement
  infer_instance

instance : Follows w n r (assertStatement gparts) (Statement.assertStatement parts) := by
  unfold assertStatement Statement.assertStatement
  infer_instance

variable (gparts parts) in
omit [Balanced parts.statement] [Balanced parts.declaration] in
/-- A statement that begins with no token of its own. -/
theorem follows_expressionStatement :
    Follows w (n + 1) r (expressionStatement gparts) (Statement.expressionStatement parts) := by
  unfold expressionStatement Statement.expressionStatement
  have := h.expression r
  infer_instance

instance : Follows w n r (returnStatement gparts) (Statement.returnStatement parts) := by
  unfold returnStatement Statement.returnStatement
  dsimp only
  infer_instance

instance : Follows w n r (block gparts) (Statement.block parts) := by
  unfold block Statement.block
  have := follows_repeatWhile (w := w) (r := r) (c := insideBraces) (x := gparts.declaration)
    (y := parts.declaration)
    (fun s hs hgo => h.takes (Nat.zero_lt_of_lt hs.left) s hs.fed (not_eof_of_insideBraces hgo)) h.bound h.guardedBound
  infer_instance

instance : Follows w n r (variableDeclaration gparts) (Statement.variableDeclaration parts) := by
  unfold variableDeclaration Statement.variableDeclaration
  infer_instance

/-! ## Branches and loops -/

instance : Follows w n r (ifStatement gparts) (Statement.ifStatement parts) := by
  unfold ifStatement Statement.ifStatement
  refine .bind inferInstance (fun _ => inferInstance) fun _ => ?_
  refine .bind inferInstance (fun _ => inferInstance) fun _ => ?_
  refine .bind inferInstance (fun _ => inferInstance) fun _ => ?_
  refine follows_emitJump (fun _ => inferInstance) fun thenJump _ => ?_
  refine .bind inferInstance (fun _ => inferInstance) fun _ => ?_
  refine .bind inferInstance (fun _ => inferInstance) fun _ => ?_
  refine follows_emitJump (fun _ => inferInstance) fun elseJump hlt => ?_
  have := follows_patchJump (w := w) (n := n) (r := { r with code := elseJump + 2 })
    (j := thenJump) (by simp only at hlt ⊢; omega)
  have := follows_patchJump (w := w) (n := n) (r := { r with code := elseJump + 2 }) (Nat.le_refl _)
  infer_instance

instance : Follows w n r (whileStatement gparts) (Statement.whileStatement parts) := by
  unfold whileStatement Statement.whileStatement
  refine follows_here (fun _ => inferInstance) fun start _ => ?_
  refine .bind inferInstance (fun _ => inferInstance) fun _ => ?_
  refine .bind inferInstance (fun _ => inferInstance) fun _ => ?_
  refine .bind inferInstance (fun _ => inferInstance) fun _ => ?_
  refine follows_emitJump (fun _ => inferInstance) fun exitJump hlt => ?_
  have := follows_emitLoop (w := w) (n := n) (r := { r with code := exitJump + 2 })
    (i := start) (by simp only at hlt ⊢; omega)
  have := follows_patchJump (w := w) (n := n) (r := { r with code := exitJump + 2 }) (Nat.le_refl _)
  infer_instance

instance : Follows w n r (forInitializer gparts) (Statement.forInitializer parts) := by
  unfold forInitializer Statement.forInitializer
  have := (follows_expressionStatement (w := w) (n := n) (r := r) gparts parts).mono
    (Nat.le_succ n)
  infer_instance

instance : Follows w n r (blockStatement gparts) (Statement.blockStatement parts) := by
  unfold blockStatement Statement.blockStatement
  refine follows_beginScope inferInstance ?_
  have := follows_endScope (w := w) (n := n) (r := { r with scopes := r.scopes + 1 })
    (Nat.succ_pos _)
  infer_instance

omit [Balanced parts.statement] [Balanced parts.declaration] in
/-- Behind the condition of a loop its jump is in the code. -/
theorem follows_forCondition {α : Type} {f : Option Nat → Guarded α} {g : Option Nat → Build α}
    [hg : ∀ exit, Extends (g exit)]
    (hf : ∀ (code : Nat) (exit : Option Nat), r.code ≤ code → (∀ j ∈ exit, j + 2 ≤ code) →
      Follows w n { r with code } (f exit) (g exit)) :
    Follows w n r (forCondition gparts >>= f) (Statement.forCondition parts >>= g) := by
  unfold forCondition Statement.forCondition
  simp only [bind_assoc]
  refine .bind inferInstance (fun _ => ?_) fun done => ?_
  · split <;> simp only [bind_assoc, pure_bind] <;> infer_instance
  cases done
  · simp only [Bool.false_eq_true, if_false, bind_assoc, pure_bind]
    refine .bind inferInstance (fun _ => inferInstance) fun _ => ?_
    refine .bind inferInstance (fun _ => inferInstance) fun _ => ?_
    refine follows_emitJump (fun _ => inferInstance) fun exitJump hlt => ?_
    refine .bind inferInstance (fun _ => inferInstance) fun _ => ?_
    exact hf (exitJump + 2) (some exitJump) (by omega) fun j hj => by
      obtain rfl := Option.some.inj hj
      exact Nat.le_refl _
  · simp only [if_true, pure_bind]
    exact hf r.code none (Nat.le_refl _) nofun

omit [Balanced parts.statement] [Balanced parts.declaration] in
/-- Wherever a loop goes on after its body, there is code. -/
theorem follows_forIncrement {α : Type} {start : Nat} {f : Nat → Guarded α} {g : Nat → Build α}
    [hg : ∀ start, Extends (g start)] (hstart : start ≤ r.code)
    (hf : ∀ (code start : Nat), r.code ≤ code → start ≤ code →
      Follows w n { r with code } (f start) (g start)) :
    Follows w n r (forIncrement gparts start >>= f) (Statement.forIncrement parts start >>= g) := by
  unfold forIncrement Statement.forIncrement
  simp only [bind_assoc]
  refine .bind inferInstance (fun _ => ?_) fun done => ?_
  · split <;> simp only [bind_assoc, pure_bind] <;> infer_instance
  cases done
  · simp only [Bool.false_eq_true, if_false, bind_assoc, pure_bind]
    refine follows_emitJump (fun _ => inferInstance) fun bodyJump hlt => ?_
    refine follows_here (fun _ => inferInstance) fun increment hle => ?_
    simp only at hlt hle
    refine .bind inferInstance (fun _ => inferInstance) fun _ => ?_
    refine .bind inferInstance (fun _ => inferInstance) fun _ => ?_
    refine .bind inferInstance (fun _ => inferInstance) fun _ => ?_
    refine .bind (follows_emitLoop (by simp only; omega)) (fun _ => inferInstance) fun _ => ?_
    refine .bind (follows_patchJump (by simp only; omega)) (fun _ => inferInstance) fun _ => ?_
    exact hf increment increment (by omega) (Nat.le_refl _)
  · simp only [if_true, pure_bind]
    exact hf r.code start (Nat.le_refl _) hstart

instance : Follows w n r (forStatement gparts) (Statement.forStatement parts) := by
  unfold forStatement Statement.forStatement
  have (exit : Option Nat) : Extends (do
      match exit with
      | none => pure ()
      | some exitJump =>
        Builder.patchJump exitJump
        emit .pop
      Builder.endScope) := by
    cases exit <;> dsimp only <;> infer_instance
  refine follows_beginScope inferInstance ?_
  refine .bind inferInstance (fun _ => inferInstance) fun _ => ?_
  refine .bind inferInstance (fun _ => inferInstance) fun _ => ?_
  refine follows_here (fun _ => inferInstance) fun start _ => ?_
  refine follows_forCondition fun code exit hcode hexit => ?_
  refine follows_forIncrement hcode fun code' start' hcode' hstart' => ?_
  refine .bind inferInstance (fun _ => inferInstance) fun _ => ?_
  refine .bind (follows_emitLoop hstart') (fun _ => inferInstance) fun _ => ?_
  have hend := follows_endScope (w := w) (n := n) (r := ⟨code', r.scopes + 1, r.functions⟩)
    (Nat.succ_pos _)
  cases exit with
  | none => exact hend
  | some j =>
      have := follows_patchJump (w := w) (n := n) (r := ⟨code', r.scopes + 1, r.functions⟩)
        (Nat.le_trans (hexit j rfl) hcode')
      dsimp only
      infer_instance

/-- Behind a token that is read because it is there, fewer are left. -/
theorem follows_keyword {α : Type} {k : TokenKind} {x x' : Guarded α} {y y' : Build α}
    [Balanced y] [Balanced y'] (hk : k ≠ .eof) (hx : Follows w n r x y)
    (hx' : Follows w (n + 1) r x' y') :
    Follows w (n + 1) r (liftM (accept k) >>= fun b => if b = true then x else x')
      (accept k >>= fun b => if b = true then y else y') := by
  refine ⟨fun s hs => .bind (.inl rfl) (fun _ => inferInstance) ?_⟩
  have hs' := hs.nests (Balanced.nests (x := accept k) s)
  split
  · rename_i hread
    have hlt := left_accept_lt hs.fed hk hread
    have hle := hs.left
    exact hx.agrees _ { hs' with left := by omega }
  · exact hx'.agrees _ hs'

theorem follows_statementRule :
    Follows w (n + 1) r (statementRule gparts) (Statement.statementRule parts) := by
  unfold statementRule Statement.statementRule
  refine follows_keyword nofun inferInstance ?_
  refine follows_keyword nofun inferInstance ?_
  refine follows_keyword nofun inferInstance ?_
  refine follows_keyword nofun inferInstance ?_
  refine follows_keyword nofun inferInstance ?_
  refine follows_keyword nofun inferInstance ?_
  refine follows_keyword nofun inferInstance ?_
  exact follows_expressionStatement gparts parts

/-! ## Functions and classes -/

instance : Follows w n r (parameters gparts) (Statement.parameters parts) := by
  unfold parameters Statement.parameters
  have := follows_repeatWhile (w := w) (r := r) (c := accept .comma)
    (x := liftM Statement.parameter) (y := Statement.parameter)
    (fun s hs hgo => Nat.lt_of_le_of_lt
      ((Balanced.nests (x := Statement.parameter) _).left_le
        ((Balanced.nests (x := accept .comma) s).fed hs.fed))
      (left_accept_lt hs.fed nofun hgo)) h.bound h.guardedBound
  infer_instance

instance (kind : BodyKind) (name : String) : Extends (openBody kind name) :=
  ⟨fun _ => List.prefix_refl _⟩

instance : Extends beginScope :=
  ⟨fun _ => List.prefix_refl _⟩

instance (kind : BodyKind) :
    Follows w n r (function gparts kind) (Statement.function parts kind) := by
  unfold function Statement.function
  refine .bind inferInstance (fun _ => inferInstance) fun name => ?_
  refine follows_openBody inferInstance ?_
  refine follows_beginScope inferInstance ?_
  refine .bind inferInstance (fun _ => inferInstance) fun _ => ?_
  refine .bind inferInstance (fun _ => inferInstance) fun _ => ?_
  refine .bind inferInstance (fun _ => inferInstance) fun _ => ?_
  refine .bind inferInstance (fun _ => inferInstance) fun _ => ?_
  exact follows_closing (Nat.succ_pos _) (fun _ => inferInstance) fun _ => inferInstance

instance : Follows w n r (functionDeclaration gparts) (Statement.functionDeclaration parts) := by
  unfold functionDeclaration Statement.functionDeclaration
  infer_instance

instance : Follows w n r (method gparts) (Statement.method parts) := by
  unfold method Statement.method
  infer_instance

/-- The part of a class behind the superclass, up to the closing brace. -/
def classBody (gparts : Parts) (name : String) : Guarded Unit := do
  readNamed name
  expect .classOpen
  repeatWhile Statement.insideBraces (method gparts) gparts.bound
  expect .classClose
  emit .pop

def endClass : Guarded Unit := do
  let hasSuperclass := (← get).classes.head?.getD false
  (modify fun s => { s with classes := s.classes.tail } : Build Unit)
  if hasSuperclass then endScope

theorem classDeclaration_eq (gparts : Parts) : classDeclaration gparts = (do
    expect .className
    let name ← lastText
    let constant ← nameConstant name
    declareVariable
    emitWith .makeClass constant
    defineVariable constant
    (modify fun s => { s with classes := false :: s.classes } : Build Unit)
    if ← accept .less then superclass name
    classBody gparts name
    endClass) := by
  simp only [classDeclaration, classBody, endClass, bind_assoc]

instance (name : String) : Follows w n r (classBody gparts name) (do
    Builder.readNamed name
    expect .classOpen
    Builder.repeatWhile insideBraces (Statement.method parts) parts.bound
    expect .classClose
    emit .pop) := by
  unfold classBody
  have := follows_repeatWhile (w := w) (r := r) (c := insideBraces) (x := method gparts)
    (y := Statement.method parts)
    (fun s hs hgo => left_method_lt hs.fed (Nat.lt_of_lt_of_le hs.left h.bound)
      (h.takes (Nat.zero_lt_of_lt hs.left)) hgo) h.bound h.guardedBound
  infer_instance

theorem extends_ite {c : Prop} [Decidable c] {y y' : Build Unit} [Extends y] [Extends y'] :
    Extends (if c then y else y') := by
  split <;> infer_instance

theorem extends_openClass (f : List Bool → List Bool) :
    Extends (modify fun s : Builder => { s with classes := f s.classes } : Build PUnit) :=
  ⟨fun _ => List.prefix_refl _⟩

instance (name : String) : Extends (Statement.superclass name) := by
  unfold Statement.superclass
  have := @extends_ite
  have := extends_openClass (true :: ·.tail)
  infer_instance

/-- The superclass, whose scope is left open. -/
instance (name : String) : Follows w n r (superclass name) (Statement.superclass name) := by
  unfold superclass Statement.superclass
  have := @extends_ite
  have := extends_openClass (true :: ·.tail)
  refine .bind inferInstance (fun _ => inferInstance) fun _ => ?_
  refine .bind inferInstance (fun _ => inferInstance) fun _ => ?_
  refine .bind inferInstance (fun _ => inferInstance) fun _ => ?_
  refine .bind inferInstance (fun _ => inferInstance) fun _ => ?_
  dsimp only
  split
  · refine .bind inferInstance (fun _ => inferInstance) fun _ => ?_
    exact follows_beginScope inferInstance inferInstance
  · exact follows_beginScope inferInstance inferInstance

/-- The end of a class finds the scope of its superclass. -/
theorem agrees_endClass {s s' : Builder} (hs' : Member s s') :
    Agrees w (endClass s') ((do
      let hasSuperclass := (← get).classes.head?.getD false
      modify fun s => { s with classes := s.classes.tail }
      if hasSuperclass then Builder.endScope : Build Unit) s') := by
  refine .inl ?_
  rcases hs' with hs' | hs'
  · have hclasses : s'.classes = false :: s.classes := hs'.classes
    change (if s'.classes.head?.getD false = true then endScope else pure () : Guarded Unit)
      { s' with classes := s'.classes.tail } = .ok ((if s'.classes.head?.getD false = true then
        Builder.endScope else pure () : Build Unit) { s' with classes := s'.classes.tail })
    rw [hclasses]
    rfl
  · have hclasses : s'.classes = true :: s.classes := hs'.classes
    have hdepth : 0 < s'.body.depth := hs'.depth ▸ Nat.succ_pos _
    change (if s'.classes.head?.getD false = true then endScope else pure () : Guarded Unit)
      { s' with classes := s'.classes.tail } = .ok ((if s'.classes.head?.getD false = true then
        Builder.endScope else pure () : Build Unit) { s' with classes := s'.classes.tail })
    rw [hclasses]
    exact when_ok (decide_eq_true hdepth)

/-- Inside a class as many tokens are left as outside at most. -/
theorem within_member {s s' : Builder} (hs : s.Within n r) (hs' : Member s s') :
    s'.Within n {} := by
  have hnests (s₁ : Builder) (hfed : s₁.Fed) (hleft : s₁.left = s.left) (h : s₁.Nests s') :
      s'.Within n {} :=
    ⟨h.fed hfed, Nat.lt_of_le_of_lt (h.left_le hfed) (hleft ▸ hs.left), Nat.zero_le _,
      Nat.zero_le _, Nat.zero_le _⟩
  exact hs'.elim (hnests _ hs.fed rfl) (hnests _ hs.fed rfl)

omit [Balanced parts.expression] [Balanced parts.statement] in
theorem agrees_members {name : String} {s s' : Builder} (hs : s.Within n r) (hs' : Member s s') :
    Agrees w ((classBody gparts name >>= fun _ => endClass) s') (members parts name s') := by
  have heq : members parts name = ((do
      Builder.readNamed name
      expect .classOpen
      Builder.repeatWhile insideBraces (Statement.method parts) parts.bound
      expect .classClose
      emit .pop) >>= fun _ => (do
      let hasSuperclass := (← get).classes.head?.getD false
      modify fun s => { s with classes := s.classes.tail }
      if hasSuperclass then Builder.endScope)) := by
    simp only [members, bind_assoc]
  have := extends_openClass (·.tail)
  have := @extends_ite
  rw [heq]
  exact .bind (Follows.agrees (r := {}) _ (within_member hs hs')) (fun _ => inferInstance)
    (agrees_endClass (leads_member inferInstance s' hs'))

instance : Follows w n r (classDeclaration gparts) (Statement.classDeclaration parts) := by
  rw [classDeclaration_eq, Statement.classDeclaration_eq]
  have := extends_openClass (false :: ·)
  have := @extends_ite
  have (name : String) : Extends (members parts name) := by
    have := extends_openClass (·.tail)
    unfold members
    infer_instance
  iterate 6 refine .bind inferInstance (fun _ => inferInstance) fun _ => ?_
  refine ⟨fun s hs => .bind (.inl rfl) (fun _ => inferInstance) ?_⟩
  have hopen : Agrees w ((liftM (accept .less) : Guarded Bool) (openClass false s))
      (accept .less (openClass false s)) := .inl rfl
  refine hopen.bind (fun _ => inferInstance) ?_
  have haccept := Balanced.nests (x := accept .less) (openClass false s)
  dsimp only
  split
  · have hread : (accept .less (openClass false s)).2.Within n r :=
      Builder.Within.nests (s := openClass false s)
        ⟨hs.fed, hs.left, hs.code, hs.scopes, hs.functions⟩ haccept
    exact .bind (Follows.agrees _ hread) (fun _ => inferInstance)
      (agrees_members hs (leads_superclass _ _ haccept))
  · exact agrees_members hs (.inl haccept)

theorem follows_declarationRule :
    Follows w (n + 1) r (declarationRule gparts) (Statement.declarationRule parts) := by
  have hrecover := h.recover r
  have := hrecover.mono (Nat.le_succ n)
  unfold declarationRule Statement.declarationRule
  refine follows_keyword nofun inferInstance ?_
  refine follows_keyword nofun inferInstance ?_
  refine follows_keyword nofun inferInstance ?_
  exact .bind follows_statementRule (fun _ => inferInstance) fun _ => inferInstance

end Rules

/-! ## Tying the knot -/

theorem eof_of_left {s : Builder} (h : s.left = 0) : s.current.kind = .eof := by
  rw [left, List.countP_eq_zero] at h
  simpa using h s.current List.mem_cons_self

/-- A recovery may as well look once more, where its bound has been used up. -/
theorem skip_succ {b : Nat} {s : Builder} (hs : s.Fed) (h : s.left ≤ b) :
    Builder.repeatWhile isLost Builder.advance (b + 1) s =
      Builder.repeatWhile isLost Builder.advance b s := by
  have hstep (b : Nat) (s : Builder) : Builder.repeatWhile isLost Builder.advance (b + 1) s =
      if (isLost s).1 = true then Builder.repeatWhile isLost Builder.advance b (Builder.advance s).2
      else ((), s) := by
    rw [Builder.repeatWhile]
    change (if (isLost s).1 = true then _ else _ : Build Unit) s = _
    split <;> rfl
  induction b generalizing s with
  | zero =>
      have hfound : ¬(isLost s).1 = true := by
        change ¬(!s.atBoundary) = true
        rw [atBoundary_of_eof (eof_of_left (Nat.le_zero.mp h))]
        nofun
      rw [hstep, if_neg hfound]
      rfl
  | succ b ih =>
      rw [hstep (b + 1) s, hstep b s]
      split
      · rename_i hlost
        have hlt : (Builder.advance s).2.left < s.left := left_advance_of_lost hs hlost
        exact ih hs.behind (by omega)
      · rfl

/-- A recovery that does what `synchronize` does, or is wary and stops. -/
class Recovers (w : Bool) (recover : Nat → Guarded Unit) : Prop where
  follows : ∀ {n m m' : Nat} {r : Room}, n ≤ m → n ≤ m' →
    Follows w (n + 1) r (recover (m' + 1)) (Builder.synchronize m)

theorem recovers_resume {w : Bool} {skip : Guarded Unit}
    (h : ∀ n r, Follows w n r skip Builder.advance) : Recovers w (resume skip) := by
  refine ⟨fun {n m m' r} hm hm' => ⟨fun s hs => ?_⟩⟩
  have hmore : Builder.synchronize (m + 1) s = Builder.synchronize m s :=
    skip_succ (s := { s with panicking := false }) hs.fed
      (Nat.le_trans (Nat.le_of_lt_succ hs.left) hm)
  have := h (n + 1) r
  exact hmore ▸ (follows_resume (Nat.succ_le_succ hm) (Nat.succ_le_succ hm')).agrees s hs

instance : Recovers false synchronize :=
  recovers_resume fun _ _ => inferInstance

theorem follows_knot {w : Bool} (recover : Nat → Guarded Unit) [hrec : Recovers w recover]
    {n m m' : Nat} (hm : n ≤ m) (hm' : n ≤ m') (r : Room) :
    Follows w n r (statement recover m') (Statement.statement m) ∧
      Follows w n r (declaration recover m') (Statement.declaration m) := by
  induction n generalizing m m' r with
  | zero =>
      exact ⟨⟨fun s hs => absurd hs.left (Nat.not_lt_zero _)⟩,
        ⟨fun s hs => absurd hs.left (Nat.not_lt_zero _)⟩⟩
  | succ n ih =>
      obtain ⟨m, rfl⟩ := Nat.exists_eq_add_one_of_ne_zero (Nat.ne_zero_of_lt hm)
      obtain ⟨m', rfl⟩ := Nat.exists_eq_add_one_of_ne_zero (Nat.ne_zero_of_lt hm')
      have hparts (s : Builder) (hs : s.left ≤ n) : PartsFollow w s.left
          ⟨m', within (m' + 1) .assignment, below s.left (statement recover m'),
            below s.left (declaration recover m'), recover (m' + 1)⟩
          ⟨m, Expression.parse m .assignment, Statement.statement m, Statement.declaration m⟩ := by
        have hb : s.left ≤ m := by omega
        have hb' : s.left ≤ m' := by omega
        exact
          { bound := hb
            guardedBound := hb'
            expression := fun _ =>
              follows_within (by decide) (Nat.succ_le_succ hb) (Nat.succ_le_succ hb')
            statement := fun r => ((ih (by omega) (by omega) r).1.mono hs).below
            declaration := fun r => ((ih (by omega) (by omega) r).2.mono hs).below
            recover := fun _ => hrec.follows hb hb'
            takes := fun hpos => by
              obtain ⟨k, rfl⟩ : ∃ k, m = k + 1 := ⟨m - 1, by omega⟩
              exact takes_declaration k }
      rw [statement, declaration, Statement.statement, Statement.declaration]
      refine ⟨⟨fun s hs => ?_⟩, ⟨fun s hs => ?_⟩⟩ <;>
        have := hparts s (Nat.le_of_lt_succ hs.left) <;> rw [get_bind]
      · refine (?_ : Follows w (s.left + 1) r _ _).agrees s { hs with left := Nat.lt_succ_self _ }
        exact follows_statementRule
      · refine (?_ : Follows w (s.left + 1) r _ _).agrees s { hs with left := Nat.lt_succ_self _ }
        exact follows_declarationRule

end LoxMachine.Guarded
