import LoxMachine.Proofs.Guarded.Statements
import LoxMachine.Proofs.Verdict.Basic

/-!
# Wary recovery

Recovery goes by the kinds of tokens and knows nothing of braces, so behind a brace it may take one
construct for another. A wary recovery stops before it passes over a brace.

`Settles out R`: if a guarded action ends, `R` holds of its result; and if a wary recovery has stopped,
then with errors that are no matter of syntax. Nothing is said of the other ways to stop.
-/

namespace LoxMachine

/-! ## Errors that are no matter of syntax -/

/-- No error is a matter of syntax, and where there is a panic there is an error. -/
def Builder.Blameless (s : Builder) : Prop :=
  (∀ e ∈ s.errors, e.IsStatic) ∧ (s.panicking = true → s.errors ≠ #[])

/-- These tokens are left, and no error was a matter of syntax. -/
structure Builder.Holds (s : Builder) (us : List Token) : Prop where
  fed : s.Fed
  rest : s.rest = us
  plain : ∀ t ∈ us, t.IsPlain
  errors : s.Blameless

namespace Guarded

open Builder

def isBrace : TokenKind → Bool
  | .leftBrace | .rightBrace => true
  | _ => false

/-- Passes over a token unless it is a brace. -/
def skipToken : Guarded Unit := do
  let s ← get
  if isBrace s.current.kind then halt (.overBrace s.errors) else advance

def resumeWarily : Nat → Guarded Unit :=
  resume skipToken

instance {n : Nat} {r : Room} : Follows true n r skipToken Builder.advance := by
  refine ⟨fun s _ => ?_⟩
  change Agrees true ((if isBrace s.current.kind = true then halt (.overBrace s.errors)
    else liftM Builder.advance : Guarded Unit) s) (Builder.advance s)
  split
  · exact .inr ⟨rfl, s.errors, rfl, (Balanced.nests (x := Builder.advance) s).errors⟩
  · exact .inl rfl

instance : Recovers true resumeWarily :=
  recovers_resume fun _ _ => inferInstance

/-! ## What guarded actions end with -/

def Settles {α : Type} (out : Except Halt (α × Builder)) (R : α → Builder → Prop) : Prop :=
  match out with
  | .ok (a, s) => R a s
  | .error (.overBrace errors) => errors ≠ #[] ∧ ∀ e ∈ errors, e.IsStatic
  | .error _ => True

section Settles

variable {α β : Type} {x : Guarded α} {f : α → Guarded β} {s s' : Builder} {t : Token}
  {us : List Token} {R : α → Builder → Prop} {Q : β → Builder → Prop}

theorem Settles.bind (hx : Settles (x s) R) (hf : ∀ a s', R a s' → Settles (f a s') Q) :
    Settles ((x >>= f) s) Q := by
  cases hrun : x s with
  | ok r =>
      rw [bind_ok hrun]
      exact hf _ _ (by rwa [hrun] at hx)
  | error h =>
      rw [bind_error hrun]
      rw [hrun] at hx
      cases h <;> exact hx

theorem bind_congr_run {y : Guarded α} (h : x s = y s) : (x >>= f) s = (y >>= f) s := by
  change (x s >>= fun r => f r.1 r.2) = (y s >>= fun r => f r.1 r.2)
  rw [h]

theorem Settles.map {R' : α → Builder → Prop} {out : Except Halt (α × Builder)}
    (h : Settles out R) (hr : ∀ a s', R a s' → R' a s') : Settles out R' := by
  cases out with
  | ok r => exact hr _ _ h
  | error h' => cases h' <;> exact h

theorem settles_halt {h : Halt} (hh : ∀ errors, h ≠ .overBrace errors) :
    Settles (halt (α := α) h s) R := by
  cases h <;> first | trivial | exact absurd rfl (hh _)

theorem Settles.fewer {n : Nat} (h : Settles (x s) R) : Settles (below n x s) R := by
  change Settles ((if s.left < n then x else halt .idle : Guarded α) s) R
  split
  · exact h
  · exact settles_halt nofun

end Settles

/-! ## Actions that read no token -/

/-- No token has been read, and all errors since are static. -/
structure Apart (s s' : Builder) : Prop where
  previous : s'.previous = s.previous
  current : s'.current = s.current
  upcoming : s'.upcoming = s.upcoming
  errors : s.Blameless → s'.Blameless

namespace Apart

variable {s s' s'' : Builder}

theorem refl (s : Builder) : Apart s s :=
  ⟨rfl, rfl, rfl, id⟩

theorem trans (h : Apart s s') (h' : Apart s' s'') : Apart s s'' :=
  ⟨h'.previous.trans h.previous, h'.current.trans h.current, h'.upcoming.trans h.upcoming,
    h'.errors ∘ h.errors⟩

theorem holds {us : List Token} (h : Apart s s') (hs : s.Holds us) : s'.Holds us := by
  refine ⟨?_, ?_, hs.plain, h.errors hs.errors⟩
  · rw [Fed, h.current, h.upcoming]
    exact hs.fed
  · rw [rest, h.current, h.upcoming]
    exact hs.rest

end Apart

class Waits {α : Type} (x : Guarded α) : Prop where
  settles : ∀ s, Settles (x s) fun _ s' => Apart s s'

class Aside {α : Type} (y : Build α) : Prop where
  apart : ∀ s, Apart s (y s).2

section Aside

variable {α β : Type}

theorem Aside.bind {y : Build α} {f : α → Build β} (hy : Aside y) (hf : ∀ a, Aside (f a)) :
    Aside (y >>= f) :=
  ⟨fun s => (hy.apart s).trans ((hf _).apart _)⟩

instance (y : Build α) (f : α → Build β) [hy : Aside y] [hf : ∀ a, Aside (f a)] :
    Aside (y >>= f) :=
  hy.bind hf

instance (a : α) : Aside (pure a : Build α) :=
  ⟨fun s => .refl s⟩

instance : Aside (get : Build Builder) :=
  ⟨fun s => .refl s⟩

instance (c : Prop) [Decidable c] (x y : Build α) [hx : Aside x] [hy : Aside y] :
    Aside (if c then x else y) := by
  split
  · exact hx
  · exact hy

instance (xs : List α) (f : α → Build PUnit) [∀ a, Aside (f a)] : Aside (xs.forM f) := by
  induction xs with
  | nil => exact inferInstanceAs (Aside (pure PUnit.unit))
  | cons a xs ih => exact inferInstanceAs (Aside (f a >>= fun _ => xs.forM f))

instance (f : Body → α × Body) : Aside (onBody f) :=
  ⟨fun _ => ⟨rfl, rfl, rfl, id⟩⟩

instance (f : Nat → Chunk → α × Chunk) : Aside (onChunk f) :=
  ⟨fun _ => ⟨rfl, rfl, rfl, id⟩⟩

theorem aside_errorAt {d : Defect} (hd : d.IsStatic) (t : Token) : Aside (errorAt t d) := by
  refine ⟨fun s => ?_⟩
  change Apart s (s.report _)
  rw [report]
  split
  · exact .refl s
  · refine ⟨rfl, rfl, rfl, fun h => ⟨fun e he => ?_, fun _ hnil => by simp at hnil⟩⟩
    rcases Array.mem_push.mp he with he | rfl
    · exact h.1 e he
    · exact hd

theorem aside_error {d : Defect} (hd : d.IsStatic) : Aside (error d) :=
  ⟨fun s => (aside_errorAt hd s.previous).apart s⟩

instance : Aside (error .ownInitializer) := aside_error trivial
instance : Aside (error .duplicateLocal) := aside_error trivial
instance : Aside (error .tooManyLocals) := aside_error trivial
instance : Aside (error .tooManyUpvalues) := aside_error trivial
instance : Aside (error .tooManyConstants) := aside_error trivial
instance : Aside (error .tooManyArguments) := aside_error trivial
instance : Aside (error .jumpTooLarge) := aside_error trivial
instance : Aside (error .loopTooLarge) := aside_error trivial
instance : Aside (error .topLevelReturn) := aside_error trivial
instance : Aside (error .initializerReturn) := aside_error trivial
instance : Aside (error .thisOutsideClass) := aside_error trivial
instance : Aside (error .superOutsideClass) := aside_error trivial
instance : Aside (error .superWithoutSuperclass) := aside_error trivial
instance : Aside (error .inheritFromSelf) := aside_error trivial

instance : Aside (errorAtCurrent .tooManyParameters) :=
  ⟨fun s => (aside_errorAt (d := .tooManyParameters) trivial s.current).apart s⟩

instance (k : TokenKind) : Aside (check k) := by
  unfold check
  infer_instance

instance : Aside lastText := by
  unfold lastText
  infer_instance

instance : Aside inGlobalScope := by
  unfold inGlobalScope
  infer_instance

instance : Aside here := by
  unfold here
  infer_instance

instance (b : UInt8) : Aside (emitByte b) :=
  inferInstanceAs (Aside (onChunk _))

instance (op : Opcode) : Aside (emit op) :=
  inferInstanceAs (Aside (onChunk _))

instance (op : Opcode) (n : Nat) : Aside (emitWith op n) :=
  inferInstanceAs (Aside (emit op >>= fun _ => emitByte n.toUInt8))

instance (op : Opcode) : Aside (emitJump op) :=
  inferInstanceAs (Aside (onChunk _))

instance (offset : Nat) : Aside (Builder.patchJump offset) := by
  unfold Builder.patchJump
  infer_instance

instance (start : Nat) : Aside (Builder.emitLoop start) := by
  unfold Builder.emitLoop
  infer_instance

instance : Aside emitReturn := by
  unfold emitReturn
  infer_instance

instance (v : Value) : Aside (makeConstant v) := by
  unfold makeConstant
  refine Aside.bind inferInstance fun index => ?_
  cases index <;> infer_instance

instance (v : Value) : Aside (emitConstant v) := by
  unfold emitConstant
  infer_instance

instance (name : String) : Aside (nameConstant name) :=
  inferInstanceAs (Aside (makeConstant _))

instance : Aside beginScope :=
  inferInstanceAs (Aside (onBody _))

instance : Aside Builder.endScope := by
  unfold Builder.endScope
  infer_instance

instance (name : String) : Aside (addLocal name) := by
  unfold addLocal
  infer_instance

instance : Aside declareVariable := by
  unfold declareVariable
  infer_instance

instance (global : Nat) : Aside (defineVariable global) := by
  unfold defineVariable markInitialized
  infer_instance

instance : Aside markInitialized := by
  unfold markInitialized
  infer_instance

instance (kind : BodyKind) (name : String) : Aside (openBody kind name) :=
  ⟨fun _ => ⟨rfl, rfl, rfl, id⟩⟩

instance : Aside Builder.closeBody := by
  refine ⟨fun s => ?_⟩
  change Apart s (match s.outer with
    | [] => ((s.routine.function, s.body.captures), s)
    | body :: outer => _ : (Function × Array Capture) × Builder).2
  cases s.outer <;> exact ⟨rfl, rfl, rfl, id⟩

instance (name : String) : Aside (Builder.resolveOutside name) :=
  ⟨fun _ => ⟨rfl, rfl, rfl, id⟩⟩

instance (name : String) : Aside (Builder.resolve name) := by
  unfold Builder.resolve
  refine Aside.bind inferInstance fun s => ?_
  split
  · infer_instance
  · refine Aside.bind inferInstance fun r => ?_
    cases r <;> infer_instance

instance (name : String) : Aside (Builder.readNamed name) := by
  unfold Builder.readNamed
  infer_instance

instance (c : Capture) : Aside (Statement.emitCapture c) := by
  unfold Statement.emitCapture
  infer_instance

end Aside

section Waits

variable {α β : Type} {x : Guarded α} {y : Build α} {f : α → Guarded β} {s : Builder}
  {t : Token} {us : List Token} {R : β → Builder → Prop}

theorem Waits.bind (hx : Waits x) (hf : ∀ a, Waits (f a)) : Waits (x >>= f) :=
  ⟨fun s => (hx.settles s).bind fun a s' h => ((hf a).settles s').map fun _ _ h' => h.trans h'⟩

instance (x : Guarded α) (f : α → Guarded β) [hx : Waits x] [hf : ∀ a, Waits (f a)] :
    Waits (x >>= f) :=
  hx.bind hf

instance (a : α) : Waits (pure a : Guarded α) :=
  ⟨fun s => .refl s⟩

instance : Waits (get : Guarded Builder) :=
  ⟨fun s => .refl s⟩

instance (c : Prop) [Decidable c] (x x' : Guarded α) [hx : Waits x] [hx' : Waits x'] :
    Waits (if c then x else x') := by
  split
  · exact hx
  · exact hx'

instance (y : Build α) [hy : Aside y] : Waits (liftM y : Guarded α) :=
  ⟨fun s => hy.apart s⟩

theorem waits_when [Aside y] {c : Builder → Bool} {h : Halt} (hh : ∀ errors, h ≠ .overBrace errors) :
    Waits (when c h y) := by
  have : Waits (halt h : Guarded α) := ⟨fun _ => settles_halt hh⟩
  unfold when
  infer_instance

instance (offset : Nat) : Waits (patchJump offset) := waits_when nofun
instance (start : Nat) : Waits (emitLoop start) := waits_when nofun
instance : Waits endScope := waits_when nofun
instance : Waits closeBody := waits_when nofun

instance (name : String) : Waits (resolveOutside name) := by
  refine ⟨fun s => ?_⟩
  rw [resolveOutside, resolveAround_eq]
  exact Aside.apart (y := Builder.resolveOutside name) s

instance (name : String) : Waits (resolve name) := by
  unfold resolve
  refine Waits.bind inferInstance fun s => ?_
  split
  · infer_instance
  · refine Waits.bind inferInstance fun r => ?_
    cases r <;> dsimp only <;> infer_instance

instance (name : String) : Waits (readNamed name) := by
  unfold readNamed
  infer_instance

/-- An action that reads no token, and then another one. -/
theorem Settles.waits [hx : Waits x] (hs : s.Holds us)
    (hf : ∀ a s', s'.Holds us → s'.previous = s.previous → Settles (f a s') R) :
    Settles ((x >>= f) s) R :=
  (hx.settles s).bind fun a s' h => hf a s' (h.holds hs) h.previous

theorem Settles.last [hx : Waits x] (hs : s.Holds us) : Settles (x s) fun _ s' => s'.Holds us :=
  (hx.settles s).map fun _ _ h => h.holds hs

end Waits

/-! ## Tokens -/

section Tokens

variable {α : Type} {x : Guarded α} {s : Builder} {t : Token} {us : List Token}
  {R : α → Builder → Prop}

theorem current_of_holds (hs : s.Holds (t :: us)) : s.current = t :=
  (List.cons.inj hs.rest).1

/-- Behind a token other than the end there is another one. -/
theorem advance_holds (hs : s.Holds (t :: us)) (ht : t.kind ≠ .eof) :
    (Builder.advance s).2.Holds us ∧ (Builder.advance s).2.previous = t := by
  have hfed := hs.fed
  have hupcoming : s.upcoming = us := (List.cons.inj hs.rest).2
  rw [Fed, current_of_holds hs, if_neg ht, hupcoming] at hfed
  obtain ⟨t', us, rfl⟩ : ∃ t' us', us = t' :: us' := by
    obtain ⟨inner, last, rfl, -⟩ := hfed
    cases inner <;> exact ⟨_, _, rfl⟩
  have hrun : (Builder.advance s).2 = { s with previous := t, current := t', upcoming := us } := by
    change Builder.pull { s with previous := s.current } s.upcoming = _
    rw [hupcoming, current_of_holds hs, pull]
    split
    · exact absurd (by assumption) (hs.plain t' (by simp) _)
    · rfl
  refine ⟨⟨hs.fed.behind, ?_, fun u hu => hs.plain u (List.mem_cons_of_mem _ hu), ?_⟩, ?_⟩
  all_goals rw [hrun]
  · rfl
  · exact hs.errors

/-- The current token is of the kind that is read if it is there. -/
theorem Settles.accept {k : TokenKind} {f : Bool → Guarded α} (hs : s.Holds (t :: us))
    (hk : t.kind = k) (hne : k ≠ .eof)
    (hf : ∀ s', s'.Holds us → s'.previous = t → Settles (f true s') R) :
    Settles ((liftM (Builder.accept k) >>= f) s) R := by
  change Settles (f (Builder.accept k s).1 (Builder.accept k s).2) R
  rw [accept_of_eq (current_of_holds hs ▸ hk)]
  exact hf _ (advance_holds hs (hk ▸ hne)).1 (advance_holds hs (hk ▸ hne)).2

/-- The current token is of another kind. -/
theorem Settles.acceptNot {k : TokenKind} {f : Bool → Guarded α} (hs : s.Holds (t :: us))
    (hk : t.kind ≠ k) (hf : Settles (f false s) R) :
    Settles ((liftM (Builder.accept k) >>= f) s) R := by
  change Settles (f (Builder.accept k s).1 (Builder.accept k s).2) R
  rwa [accept_of_ne (current_of_holds hs ▸ hk)]

/-- Either the current token is the keyword, or it is looked at again. -/
theorem Settles.keyword {k : TokenKind} {x y : Guarded α} (hs : s.Holds (t :: us)) (hne : k ≠ .eof)
    (hx : t.kind = k → ∀ s', s'.Holds us → s'.previous = t → Settles (x s') R)
    (hy : t.kind ≠ k → Settles (y s) R) :
    Settles ((liftM (Builder.accept k) >>= fun b => if b = true then x else y) s) R := by
  by_cases hk : t.kind = k
  · exact .accept hs hk hne fun s' hat hp => hx hk s' hat hp
  · exact .acceptNot hs hk (hy hk)

theorem Settles.expect {e : Expectation} {f : Unit → Guarded α} (hs : s.Holds (t :: us))
    (hk : t.kind = e.kind) (hf : ∀ s', s'.Holds us → s'.previous = t → Settles (f () s') R) :
    Settles ((liftM (Builder.expect e) >>= f) s) R := by
  have hne : e.kind ≠ .eof := by cases e <;> nofun
  have hrun : Builder.expect e s = ((), (Builder.advance s).2) := by
    change (if (Builder.accept e.kind s).1 = true then _ else _ : Build Unit)
      (Builder.accept e.kind s).2 = _
    rw [accept_of_eq (current_of_holds hs ▸ hk)]
    rfl
  change Settles (f () (Builder.expect e s).2) R
  rw [hrun]
  exact hf _ (advance_holds hs (hk ▸ hne)).1 (advance_holds hs (hk ▸ hne)).2

end Tokens

/-! ## Loops -/

section Loops

variable {α β : Type} {c : Build Bool} {x : Guarded α} {f : α → Guarded β} {s s' : Builder}
  {R : β → Builder → Prop}

theorem below_bind (n : Nat) (x : Guarded α) (f : α → Guarded β) :
    (below n x >>= f) = below n (x >>= f) := by
  simp only [below, bind_assoc]
  congr 1
  funext s
  split <;> rfl

/-- Whether there are fewer tokens left makes no difference to what is settled. -/
theorem Settles.bind_below {n : Nat} (h : Settles ((x >>= f) s) R) :
    Settles ((x >>= fun a => below n (f a)) s) R := by
  cases hrun : x s with
  | ok r =>
      rw [bind_ok hrun] at h ⊢
      exact h.fewer
  | error e =>
      rw [bind_error hrun] at h ⊢
      exact h

variable {body : Guarded Unit} {b : Nat} {g : Unit → Guarded β}

/-- A loop that ends at once. -/
theorem Settles.loopEnd (hc : c s = (false, s')) (hg : Settles (g () s') R) :
    Settles ((repeatWhile c body b >>= g) s) R := by
  cases b with
  | zero => trivial
  | succ b =>
      have hrun : repeatWhile c body (b + 1) s = .ok ((), s') := by
        rw [repeatWhile_succ, bind_ok (rfl : (liftM c : Guarded Bool) s = .ok (c s)), hc]
        rfl
      rw [bind_ok hrun]
      exact hg

/-- A loop that goes round. -/
theorem Settles.loopStep (hc : c s = (true, s'))
    (hg : ∀ b, Settles ((body >>= fun _ => repeatWhile c body b >>= g) s') R) :
    Settles ((repeatWhile c body b >>= g) s) R := by
  cases b with
  | zero => trivial
  | succ b =>
      have hrun : (repeatWhile c body (b + 1) >>= g) s =
          (body >>= fun _ => below s.left (repeatWhile c body b >>= g)) s' := by
        have hstep : repeatWhile c body (b + 1) s =
            (body >>= fun _ => below s.left (repeatWhile c body b)) s' := by
          rw [repeatWhile_succ, bind_ok (rfl : (liftM c : Guarded Bool) s = .ok (c s)), hc]
          rfl
        change (repeatWhile c body (b + 1) s >>= fun r => g r.1 r.2) = _
        rw [hstep]
        change ((body >>= fun _ => below s.left (repeatWhile c body b)) >>= g) s' = _
        rw [bind_assoc]
        simp only [below_bind]
      rw [hrun]
      exact (hg b).bind_below

end Loops

end Guarded

end LoxMachine
