import LoxMachine.Proofs.Compile.Nesting

/-!
# Progress

An action either takes a token or still has the same one in front of it (`Onward`). A rule that stands
in a loop therefore takes tokens if it does so where it is stuck on the first one: a method that begins
with a stray token has it still in front when its block begins, and there it is skipped.
-/

namespace LoxMachine

namespace Builder

/-- A token that is read because it is there is taken. -/
theorem left_accept_lt {k : TokenKind} {s : Builder} (hs : s.Fed) (hk : k ≠ .eof)
    (h : (accept k s).1 = true) : (accept k s).2.left < s.left := by
  by_cases hkind : s.current.kind = k
  · rw [accept_of_eq hkind]
    exact hs.left_advance_lt (hkind ▸ hk)
  · rw [accept_of_ne hkind] at h
    cases h

/-- Tokens have been taken, or the same token is still in front. -/
def Moves (s s' : Builder) : Prop :=
  s'.Fed ∧ (s'.left < s.left ∨ s'.left = s.left ∧ s'.current = s.current)

variable {s s' s'' : Builder}

theorem Moves.refl (hs : s.Fed) : s.Moves s :=
  ⟨hs, .inr ⟨rfl, rfl⟩⟩

theorem Moves.trans (h : s.Moves s') (h' : s'.Moves s'') : s.Moves s'' := by
  obtain ⟨hs', hlt | ⟨hleft, hcurrent⟩⟩ := h
  · obtain ⟨hs'', hlt' | ⟨hleft', -⟩⟩ := h'
    · exact ⟨hs'', .inl (Nat.lt_trans hlt' hlt)⟩
    · exact ⟨hs'', .inl (hleft' ▸ hlt)⟩
  · obtain ⟨hs'', hlt' | ⟨hleft', hcurrent'⟩⟩ := h'
    · exact ⟨hs'', .inl (hleft ▸ hlt')⟩
    · exact ⟨hs'', .inr ⟨hleft'.trans hleft, hcurrent'.trans hcurrent⟩⟩

theorem Moves.left_le (h : s.Moves s') : s'.left ≤ s.left :=
  h.2.elim Nat.le_of_lt fun h => Nat.le_of_eq h.1

/-- No token is touched. -/
theorem Moves.of_quiet (hs : s.Fed) (hcurrent : s'.current = s.current)
    (hupcoming : s'.upcoming = s.upcoming) : s.Moves s' := by
  refine ⟨?_, .inr ⟨?_, hcurrent⟩⟩
  · rw [Fed, hcurrent, hupcoming]
    exact hs
  · rw [left, hcurrent, hupcoming]
    rfl

/-- An action that takes tokens or leaves the first one where it is. -/
class Onward {α : Type} (x : Build α) : Prop where
  moves : ∀ s : Builder, s.Fed → s.Moves (x s).2

section Combinators

variable {α β : Type}

instance (a : α) : Onward (pure a : Build α) :=
  ⟨fun _ hs => .refl hs⟩

instance : Onward (get : Build Builder) :=
  ⟨fun _ hs => .refl hs⟩

theorem Onward.bind {x : Build α} {f : α → Build β} (hx : Onward x) (hf : ∀ a, Onward (f a)) :
    Onward (x >>= f) :=
  ⟨fun s hs => (hx.moves s hs).trans ((hf _).moves _ (hx.moves s hs).1)⟩

instance (x : Build α) (f : α → Build β) [hx : Onward x] [hf : ∀ a, Onward (f a)] :
    Onward (x >>= f) :=
  hx.bind hf

instance (c : Prop) [Decidable c] (x y : Build α) [hx : Onward x] [hy : Onward y] :
    Onward (if c then x else y) := by
  split
  · exact hx
  · exact hy

instance (f : Body → α × Body) : Onward (onBody f) :=
  ⟨fun _ hs => .of_quiet hs rfl rfl⟩

instance (f : Nat → Chunk → α × Chunk) : Onward (onChunk f) :=
  ⟨fun _ hs => .of_quiet hs rfl rfl⟩

instance (c : Build Bool) (x : Build Unit) [Onward c] [Onward x] (bound : Nat) :
    Onward (repeatWhile c x bound) := by
  induction bound with
  | zero => exact inferInstanceAs (Onward (pure ()))
  | succ bound ih =>
      rw [repeatWhile]
      infer_instance

end Combinators

instance (t : Token) (d : Defect) : Onward (errorAt t d) := by
  refine ⟨fun s hs => ?_⟩
  change s.Moves (s.report _)
  rw [report]
  split <;> exact .of_quiet hs rfl rfl

instance (d : Defect) : Onward (error d) :=
  inferInstanceAs (Onward (get >>= fun s => errorAt s.previous d))

instance (d : Defect) : Onward (errorAtCurrent d) :=
  inferInstanceAs (Onward (get >>= fun s => errorAt s.current d))

instance : Onward advance := by
  refine ⟨fun s hs => ⟨hs.behind, ?_⟩⟩
  by_cases heof : s.current.kind = .eof
  · have hupcoming : s.upcoming = [] := by
      rw [Fed, if_pos heof] at hs
      exact hs
    refine .inr ⟨?_, by rw [hs.advance_of_eof heof]⟩
    rw [hs.behind.left_eq, hs.left_eq, hs.advance_of_eof heof, hupcoming]
  · exact .inl (hs.left_advance_lt heof)

instance (kind : TokenKind) : Onward (check kind) := by
  unfold check
  infer_instance

instance (kind : TokenKind) : Onward (accept kind) := by
  unfold accept
  infer_instance

instance (e : Expectation) : Onward (expect e) := by
  unfold expect
  infer_instance

instance : Onward lastText := by
  unfold lastText
  infer_instance

instance (v : Value) : Onward (makeConstant v) := by
  unfold makeConstant
  refine Onward.bind inferInstance fun index => ?_
  cases index <;> infer_instance

instance (name : String) : Onward (nameConstant name) :=
  inferInstanceAs (Onward (makeConstant _))

instance : Onward inGlobalScope := by
  unfold inGlobalScope
  infer_instance

instance : Onward declareVariable := by
  unfold declareVariable addLocal
  infer_instance

instance (e : Expectation) : Onward (readVariable e) := by
  unfold readVariable
  infer_instance

instance (global : Nat) : Onward (defineVariable global) := by
  unfold defineVariable markInitialized emitWith emit emitByte
  infer_instance

instance : Onward beginScope :=
  inferInstanceAs (Onward (onBody _))

instance (kind : BodyKind) (name : String) : Onward (openBody kind name) :=
  ⟨fun _ hs => .of_quiet hs rfl rfl⟩

instance : Onward closeBody := by
  refine ⟨fun s hs => ?_⟩
  change s.Moves (match s.outer with
    | [] => ((s.routine.function, s.body.captures), s)
    | body :: outer => _ : (Function × Array Capture) × Builder).2
  cases s.outer <;> exact .of_quiet hs rfl rfl

end Builder

namespace Statement

open Builder

/-- An action that takes a token unless there is none. -/
def Takes {α : Type} (x : Build α) : Prop :=
  ∀ s : Builder, s.Fed → s.current.kind ≠ .eof → (x s).2.left < s.left

/-- Inside of braces the end has not been reached. -/
theorem not_eof_of_insideBraces {s : Builder} (h : (insideBraces s).1 = true) :
    s.current.kind ≠ .eof := by
  intro heof
  change (!decide (s.current.kind = .rightBrace) && !decide (s.current.kind = .eof)) = true at h
  simp [heof] at h

instance : Onward parameter := by
  unfold parameter
  infer_instance

variable {parts : Parts} {s : Builder}

/-- What comes before the body of a function. -/
def header (parts : Parts) (kind : BodyKind) : Build Unit := do
  openBody kind (← lastText)
  beginScope
  parameters parts
  expect .bodyOpen

/-- The body of a function behind its brace. -/
def bodyFrom (parts : Parts) : Build Unit := do
  block parts
  emitReturn
  let (f, captures) ← closeBody
  emitWith .closure (← makeConstant (.function f))
  captures.forM emitCapture

theorem function_split (parts : Parts) (kind : BodyKind) :
    function parts kind = (header parts kind >>= fun _ => bodyFrom parts) := by
  simp only [function, header, bodyFrom, bind_assoc]

instance : Onward (parameters parts) := by
  unfold parameters
  infer_instance

instance (kind : BodyKind) : Onward (header parts kind) := by
  unfold header
  infer_instance

/-- A block that does not end at once takes a token, if a declaration does. -/
theorem left_block_lt [Balanced parts.declaration] (hs : s.Fed) (hb : s.left < parts.bound)
    (ht : Takes parts.declaration) (h : (insideBraces s).1 = true) :
    (block parts s).2.left < s.left := by
  obtain ⟨b, hbound⟩ := Nat.exists_eq_add_one_of_ne_zero (Nat.ne_zero_of_lt hb)
  have hgo : insideBraces s = (true, s) := Prod.ext h rfl
  have hround : repeatWhile insideBraces parts.declaration parts.bound s =
      repeatWhile insideBraces parts.declaration b (parts.declaration s).2 := by
    rw [hbound, repeatWhile]
    change (if (insideBraces s).1 = true then _ else _ : Build Unit) (insideBraces s).2 = _
    rw [hgo]
    rfl
  have hfed := (Balanced.nests (x := parts.declaration) s).fed hs
  have hloop : (repeatWhile insideBraces parts.declaration parts.bound s).2.left < s.left := by
    rw [hround]
    exact Nat.lt_of_le_of_lt ((Balanced.nests _).left_le hfed)
      (ht s hs (not_eof_of_insideBraces h))
  have hrest := (Balanced.nests (x := repeatWhile insideBraces parts.declaration parts.bound) s).fed hs
  rw [block, run_bind]
  exact Nat.lt_of_le_of_lt ((Balanced.nests (x := expect .blockClose) _).left_le hrest) hloop

/-- What comes behind the block of a function gives no token back. -/
theorem left_bodyFrom_le [Balanced parts.declaration] (hs : s.Fed) :
    (bodyFrom parts s).2.left ≤ (block parts s).2.left := by
  have hblock := (Balanced.nests (x := block parts) s).fed hs
  have hreturn := Balanced.nests (x := emitReturn) (block parts s).2
  have hclose := Onward.moves (x := closeBody) _ (hreturn.fed hblock)
  have hrest := Balanced.nests (x := do
    emitWith .closure (← makeConstant (.function (closeBody (emitReturn (block parts s).2).2).1.1))
    (closeBody (emitReturn (block parts s).2).2).1.2.forM emitCapture)
    (closeBody (emitReturn (block parts s).2).2).2
  rw [bodyFrom, run_bind, run_bind, run_bind]
  exact Nat.le_trans (hrest.left_le hclose.1)
    (Nat.le_trans hclose.left_le (hreturn.left_le hblock))

/-- What comes before the block of a method. -/
def methodStart (parts : Parts) : Build Nat := do
  expect .methodName
  let name ← lastText
  let constant ← nameConstant name
  header parts (if name = initializerName then .initializer else .method)
  return constant

theorem method_eq (parts : Parts) : method parts = (do
    let constant ← methodStart parts
    bodyFrom parts
    emitWith .method constant) := by
  simp only [method, methodStart, function_split, bind_assoc, pure_bind]

instance : Onward (methodStart parts) := by
  unfold methodStart
  infer_instance

/-- A method takes a token, whatever it begins with: if nothing before its block does, the block
skips one. -/
theorem left_method_lt [Balanced parts.declaration] (hs : s.Fed) (hb : s.left < parts.bound)
    (ht : Takes parts.declaration) (h : (insideBraces s).1 = true) :
    (method parts s).2.left < s.left := by
  obtain ⟨hfed, hmoves⟩ := Onward.moves (x := methodStart parts) s hs
  have hend (constant : Nat) (s : Builder) : (emitWith .method constant s).2.left = s.left := rfl
  rw [method_eq, run_bind, run_bind, hend]
  generalize (methodStart parts s).2 = s₁ at hfed hmoves ⊢
  refine Nat.lt_of_le_of_lt (left_bodyFrom_le hfed) ?_
  rcases hmoves with hlt | ⟨hleft, hcurrent⟩
  · exact Nat.lt_of_le_of_lt ((Balanced.nests (x := block parts) s₁).left_le hfed) hlt
  · have hgo : (insideBraces s₁).1 = true := by
      change (!decide (s₁.current.kind = .rightBrace) && !decide (s₁.current.kind = .eof)) = true
      rw [hcurrent]
      exact h
    exact hleft ▸ left_block_lt hfed (hleft ▸ hb) ht hgo

/-! ## Rules that take a token -/

section Takes

variable {α β : Type} {x y : Build α} {f : α → Build β}

theorem Takes.bind (hx : Takes x) [hb : Balanced x] [hf : ∀ a, Balanced (f a)] :
    Takes (x >>= f) :=
  fun s hs hne => Nat.lt_of_le_of_lt (((hf _).nests _).left_le ((hb.nests s).fed hs)) (hx s hs hne)

theorem takes_advance : Takes advance :=
  fun _ hs hne => hs.left_advance_lt hne

/-- Either the keyword is taken, or the other rule finds the same token. -/
theorem takes_keyword {k : TokenKind} (hk : k ≠ .eof) [hx : Balanced x] (hy : Takes y) :
    Takes (accept k >>= fun b => if b = true then x else y) := by
  intro s hs hne
  change ((if (accept k s).1 = true then x else y) (accept k s).2).2.left < s.left
  have hnests := Balanced.nests (x := accept k) s
  split
  · rename_i hread
    exact Nat.lt_of_le_of_lt ((hx.nests _).left_le (hnests.fed hs)) (left_accept_lt hs hk hread)
  · rename_i hread
    have hkind : s.current.kind ≠ k := fun hkind => hread (by rw [accept_of_eq hkind])
    rw [accept_of_ne hkind]
    exact hy s hs hne

end Takes

theorem takes_within (n : Nat) (p : Power) : Takes (Expression.within (n + 1) p) := by
  rw [Expression.within, Expression.rule]
  refine @Takes.bind _ _ _ _ takes_advance inferInstance fun _ =>
    Balanced.bind inferInstance fun s => ?_
  split
  · infer_instance
  · have := Expression.balanced_opening n (Expression.within n) (by assumption)
    infer_instance

theorem takes_statementRule (parts : Parts) [Balanced parts.expression] [Balanced parts.statement]
    [Balanced parts.declaration] (hx : Takes parts.expression) : Takes (statementRule parts) := by
  unfold statementRule
  iterate 7 refine takes_keyword nofun ?_
  exact hx.bind

theorem takes_declaration (n : Nat) : Takes (declaration (n + 1)) := by
  rw [declaration, declarationRule]
  iterate 3 refine takes_keyword (by simp) ?_
  have hexpression : Takes (Expression.parse n .assignment) := takes_within n .assignment
  exact (takes_statementRule ⟨n, Expression.parse n .assignment, statement n, declaration n⟩
    hexpression).bind

end Statement

end LoxMachine
