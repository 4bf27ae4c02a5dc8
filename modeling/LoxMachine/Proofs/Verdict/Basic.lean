import LoxMachine.Proofs.Compile.Inversion
import LoxMachine.Proofs.Syntax.Scope

/-!
# What decides whether a text is accepted

`Decides r P us R`: the outcome `r` of an action tells whether `P` holds. If it does, no error has
been reported and the tokens `us` are left; if it does not, there is an error. Only where a limit of
the machine has been passed nothing is told.

An action that checks no rule (`Lenient`) ends without an error or with a limit passed. An action
that is `Still` leaves the scopes as they are.
-/

namespace LoxMachine

/-! ## Limits -/

/-- The defects of a text that obeys all rules but is too large in some respect. -/
def Defect.IsLimit : Defect → Prop
  | .tooManyLocals | .tooManyUpvalues | .tooManyConstants | .tooManyParameters | .tooManyArguments
  | .jumpTooLarge | .loopTooLarge => True
  | _ => False

def SourceError.IsLimit : SourceError → Prop
  | .grammar _ _ cause => cause.IsLimit
  | .scan _ _ => False

/-- A rule of the language is broken, or a limit is passed. -/
def Defect.IsStatic : Defect → Prop
  | .expect _ | .expectExpression | .invalidAssignmentTarget | .invalidNumber => False
  | _ => True

def SourceError.IsStatic : SourceError → Prop
  | .grammar _ _ cause => cause.IsStatic
  | .scan _ _ => False

/-- A token that is not an error. -/
def Token.IsPlain (t : Token) : Prop :=
  ∀ cause, t.kind ≠ .error cause

namespace Builder

/-- Some limit has been passed. -/
def Exceeds (s : Builder) : Prop :=
  ∃ e ∈ s.errors, e.IsLimit

/-- No error has been reported, and these tokens are left. -/
structure At (s : Builder) (us : List Token) : Prop where
  sound : s.Sound
  clean : s.errors = #[]
  rest : s.rest = us
  plain : ∀ t ∈ us, t.IsPlain

inductive Decides {α : Type} (r : α × Builder) (P : Prop) (us : List Token)
    (R : α → Builder → Prop) : Prop where
  | exceeds : r.2.Exceeds → Decides r P us R
  | accepts : P → r.2.At us → R r.1 r.2 → Decides r P us R
  | rejects : ¬ P → r.2.errors ≠ #[] → Decides r P us R

section Decides

variable {α β : Type} {x : Build α} {f : α → Build β} {s s' : Builder} {P P' Q : Prop}
  {ts us vs : List Token} {R : α → Builder → Prop} {R' : β → Builder → Prop}

theorem Decides.congr {r : α × Builder} (h : Decides r P us R) (hp : P ↔ P') : Decides r P' us R :=
  propext hp ▸ h

theorem Decides.map {r : α × Builder} {R₁ : α → Builder → Prop} (h : Decides r P us R)
    (hr : P → r.2.At us → R r.1 r.2 → R₁ r.1 r.2) : Decides r P us R₁ := by
  cases h with
  | exceeds h => exact .exceeds h
  | accepts hp hat hr' => exact .accepts hp hat (hr hp hat hr')
  | rejects hp he => exact .rejects hp he

/-- What is known of an accepted action. -/
theorem Decides.also {R₁ : α → Builder → Prop} (hs : s.Sound) (h : Decides (x s) P us R)
    (hr : ∀ a s', Accepts x s a s' → s'.At us → R a s' → R₁ a s') : Decides (x s) P us R₁ :=
  h.map fun _ hat hr' => hr _ _ ⟨hs, rfl, hat.clean⟩ hat hr'

/-- What one action decides and then the next one. -/
theorem Decides.bind [hk : ∀ a, Keeps (f a)] (hs : s.Sound) (hx : Decides (x s) P us R)
    (hf : ∀ a s', Accepts x s a s' → s'.At us → P → R a s' → Decides (f a s') Q vs R') :
    Decides ((x >>= f) s) (P ∧ Q) vs R' := by
  have hkeeps := hk (x s).1
  cases hx with
  | exceeds h =>
      obtain ⟨e, he, hlimit⟩ := h
      exact .exceeds ⟨e, hkeeps.errors _ e he, hlimit⟩
  | accepts hp hat hr =>
      have h : Decides (f (x s).1 (x s).2) Q vs R' := hf _ _ ⟨hs, rfl, hat.clean⟩ hat hp hr
      exact h.congr ⟨fun hq => ⟨hp, hq⟩, And.right⟩
  | rejects hp he => exact .rejects (fun h => hp h.1) fun hclean => he (hkeeps.clean hclean)

/-- An action that follows on one which checks something else. -/
theorem Decides.first [hk : ∀ a, Keeps (f a)] (hs : s.Sound) (hx : Decides (x s) P us R)
    (hf : ∀ a s', Accepts x s a s' → s'.At us → P → R a s' → Decides (f a s') True vs R') :
    Decides ((x >>= f) s) P vs R' :=
  (hx.bind hs hf).congr ⟨And.left, fun hp => ⟨hp, trivial⟩⟩

/-! ## Actions that check nothing -/

/-- An action that reads no token and reports nothing but that a limit is passed. -/
class Lenient {α : Type} (x : Build α) : Prop where
  decides : ∀ {s us}, s.At us → Decides (x s) True us fun _ _ => True

/-- A lenient action and then another one. -/
theorem Decides.lenient [hx : Lenient x] [hk : ∀ a, Keeps (f a)] (hs : s.At us)
    (hf : ∀ a s', Accepts x s a s' → s'.At us → Decides (f a s') Q vs R') :
    Decides ((x >>= f) s) Q vs R' :=
  ((hx.decides hs).bind hs.sound fun a s' h hat _ _ => hf a s' h hat).congr
    ⟨And.right, fun hq => ⟨trivial, hq⟩⟩

/-- A lenient action at the end. -/
theorem Lenient.last [hx : Lenient x] (hs : s.At us)
    (hr : ∀ a s', Accepts x s a s' → s'.At us → R a s') : Decides (x s) True us R :=
  (hx.decides hs).also hs.sound fun a s' h hat _ => hr a s' h hat

end Decides

section Lenient

variable {α β : Type}

/-- An action that reports nothing. -/
theorem lenient_of_silent {x : Build α} [hx : Keeps x]
    (h : ∀ s, (x s).2.errors = s.errors ∧ (x s).2.rest = s.rest) : Lenient x :=
  ⟨fun {s _} hs => .accepts trivial ⟨hx.sound s hs.sound, (h s).1.trans hs.clean,
    (h s).2.trans hs.rest, hs.plain⟩ trivial⟩

instance (a : α) : Lenient (pure a : Build α) :=
  lenient_of_silent fun _ => ⟨rfl, rfl⟩

instance : Lenient (get : Build Builder) :=
  lenient_of_silent fun _ => ⟨rfl, rfl⟩

instance (x : Build α) (f : α → Build β) [Lenient x] [∀ a, Lenient (f a)] [∀ a, Keeps (f a)] :
    Lenient (x >>= f) :=
  ⟨fun hs => .lenient hs fun a _ _ hat => Lenient.decides (x := f a) hat⟩

instance (c : Prop) [Decidable c] (x y : Build α) [hx : Lenient x] [hy : Lenient y] :
    Lenient (if c then x else y) := by
  split
  · exact hx
  · exact hy

instance (xs : List α) (f : α → Build PUnit) [∀ a, Lenient (f a)] [∀ a, Keeps (f a)] :
    Lenient (xs.forM f) := by
  induction xs with
  | nil => exact inferInstanceAs (Lenient (pure PUnit.unit))
  | cons a xs ih => exact inferInstanceAs (Lenient (f a >>= fun _ => xs.forM f))

theorem lenient_onBody {f : Body → α × Body} [Keeps (onBody f)] : Lenient (onBody f) :=
  lenient_of_silent fun _ => ⟨rfl, rfl⟩

theorem lenient_onChunk {f : Nat → Chunk → α × Chunk} [Keeps (onChunk f)] : Lenient (onChunk f) :=
  lenient_of_silent fun _ => ⟨rfl, rfl⟩

/-- Where nothing has been reported, an error is. -/
theorem errors_report_of_at {s : Builder} {us : List Token} (hs : s.At us) (e : SourceError) :
    (s.report e).errors = #[e] := by
  rw [report, hs.sound.calm hs.clean, if_neg (by simp), hs.clean]
  rfl

theorem lenient_errorAt {d : Defect} (hd : d.IsLimit) (t : Token) : Lenient (errorAt t d) :=
  ⟨fun {s us} hs => .exceeds ⟨.grammar t.line (.ofToken t) d, by
    change _ ∈ (s.report (.grammar t.line (.ofToken t) d)).errors
    rw [errors_report_of_at hs]
    exact Array.mem_singleton.mpr rfl, hd⟩⟩

theorem lenient_error {d : Defect} (hd : d.IsLimit) : Lenient (error d) :=
  ⟨fun {s _} hs => (lenient_errorAt hd s.previous).decides hs⟩

theorem lenient_errorAtCurrent {d : Defect} (hd : d.IsLimit) : Lenient (errorAtCurrent d) :=
  ⟨fun {s _} hs => (lenient_errorAt hd s.current).decides hs⟩

instance : Lenient (error .tooManyConstants) := lenient_error trivial
instance : Lenient (error .tooManyLocals) := lenient_error trivial
instance : Lenient (error .tooManyUpvalues) := lenient_error trivial
instance : Lenient (error .tooManyArguments) := lenient_error trivial
instance : Lenient (error .jumpTooLarge) := lenient_error trivial
instance : Lenient (error .loopTooLarge) := lenient_error trivial

theorem errors_error {s : Builder} {us : List Token} (hs : s.At us) (d : Defect) :
    (error d s).2.errors = #[.grammar s.previous.line (.ofToken s.previous) d] :=
  errors_report_of_at hs _

/-- An error where a rule is broken, whatever follows. -/
theorem Decides.error {s : Builder} {us vs : List Token} {P : Prop} {d : Defect} {f : Unit → Build α}
    [hf : ∀ a, Keeps (f a)] {R : α → Builder → Prop} (hs : s.At us) (hp : ¬ P) :
    Decides ((Builder.error d >>= f) s) P vs R := by
  refine .rejects hp fun hclean => ?_
  have : (Builder.error d s).2.errors = #[] := (hf _).clean hclean
  rw [errors_error hs] at this
  cases this

theorem Decides.errorLast {s : Builder} {us vs : List Token} {P : Prop} {d : Defect}
    {R : Unit → Builder → Prop} (hs : s.At us) (hp : ¬ P) : Decides (Builder.error d s) P vs R :=
  .rejects hp fun hclean => by
    rw [errors_error hs] at hclean
    cases hclean

/-- A check in front of something else. -/
theorem Decides.unless {s : Builder} {us vs : List Token} {P c : Prop} [Decidable c] {d : Defect}
    {x : Build α} [Keeps x] {R : α → Builder → Prop} (hs : s.At us) (hc : c → ¬ P)
    (hx : ¬ c → Decides (x s) P vs R) :
    Decides ((if c then Builder.error d >>= fun _ => x else x) s) P vs R := by
  split
  · exact .error hs (hc (by assumption))
  · exact hx (by assumption)

/-- An error where a limit is passed, whatever follows. -/
theorem Decides.limit {s : Builder} {us vs : List Token} {P : Prop} {d : Defect} {f : Unit → Build α}
    [hf : ∀ a, Keeps (f a)] {R : α → Builder → Prop} (hs : s.At us) (hd : d.IsLimit) :
    Decides ((Builder.error d >>= f) s) P vs R := by
  have hmem : .grammar s.previous.line (.ofToken s.previous) d ∈ (Builder.error d s).2.errors := by
    rw [errors_error hs]
    exact Array.mem_singleton.mpr rfl
  exact .exceeds ⟨_, (hf _).errors _ _ hmem, hd⟩

instance (b : UInt8) : Lenient (emitByte b) := lenient_of_silent fun _ => ⟨rfl, rfl⟩

instance (op : Opcode) : Lenient (emit op) := lenient_of_silent fun _ => ⟨rfl, rfl⟩

instance (op : Opcode) (n : Nat) : Lenient (emitWith op n) :=
  inferInstanceAs (Lenient (emit op >>= fun _ => emitByte n.toUInt8))

instance : Lenient here := by
  unfold here
  infer_instance

instance (op : Opcode) : Lenient (emitJump op) := lenient_of_silent fun _ => ⟨rfl, rfl⟩

instance (offset : Nat) : Lenient (patchJump offset) := by
  unfold patchJump
  have : Keeps (onChunk fun _ c => c.patchJump offset) :=
    keeps_onChunk fun _ c h => constants_patchJump c offset ▸ h
  have : Lenient (onChunk fun _ c => c.patchJump offset) := lenient_onChunk
  infer_instance

instance (start : Nat) : Lenient (emitLoop start) := by
  unfold emitLoop
  have : Keeps (onChunk fun line c => c.writeLoop start line) := keeps_onChunk fun _ _ h => h
  have : Lenient (onChunk fun line c => c.writeLoop start line) := lenient_onChunk
  infer_instance

instance : Lenient emitReturn := by
  unfold emitReturn
  infer_instance

instance (v : Value) : Lenient (makeConstant v) := by
  unfold makeConstant
  have : Keeps (onChunk fun _ c => c.addConstant v) := keeps_onChunk fun _ _ h => size_addConstant h
  have : Lenient (onChunk fun _ c => c.addConstant v) := lenient_onChunk
  have (r : Option Nat) : Keeps (match r with
      | some index => pure index
      | none => do error .tooManyConstants; return 0 : Build Nat) := by
    cases r <;> infer_instance
  have (r : Option Nat) : Lenient (match r with
      | some index => pure index
      | none => do error .tooManyConstants; return 0 : Build Nat) := by
    cases r <;> infer_instance
  infer_instance

instance (v : Value) : Lenient (emitConstant v) := by
  unfold emitConstant
  infer_instance

instance (name : String) : Lenient (nameConstant name) :=
  inferInstanceAs (Lenient (makeConstant _))

instance : Lenient lastText := by
  unfold lastText
  infer_instance

instance : Lenient inGlobalScope := by
  unfold inGlobalScope
  infer_instance

instance (name : String) : Lenient (addLocal name) := by
  unfold addLocal
  have := keeps_addLocal name
  have : Lenient (onBody fun b =>
      match b.addLocal? name with
      | some b => (false, b)
      | none => (true, b)) := lenient_onBody
  exact inferInstance

instance : Lenient beginScope :=
  lenient_of_silent fun _ => ⟨rfl, rfl⟩

instance : Lenient endScope := by
  unfold endScope
  have : Lenient (onBody Body.leaveScope) := lenient_onBody
  infer_instance

instance : Lenient markInitialized := by
  unfold markInitialized
  have := keeps_markInitialized
  have : Lenient (onBody fun b => ((), b.markInitialized)) := lenient_onBody
  infer_instance

instance (global : Nat) : Lenient (defineVariable global) := by
  unfold defineVariable
  infer_instance

end Lenient

/-! ## Tokens -/

section Tokens

variable {α : Type} {s s' : Builder} {t : Token} {us vs : List Token} {P : Prop}
  {R : α → Builder → Prop}

theorem At.current (hs : s.At (t :: us)) : s.current = t :=
  (List.cons.inj hs.rest).1

theorem At.upcoming (hs : s.At (t :: us)) : s.upcoming = us :=
  (List.cons.inj hs.rest).2

/-- There is always a token. -/
theorem At.ne_nil (hs : s.At us) : us ≠ [] := by
  rw [← hs.rest]
  nofun

theorem At.exists_cons (hs : s.At us) : ∃ t vs, us = t :: vs :=
  List.exists_cons_of_ne_nil hs.ne_nil

/-- Behind a token other than the end there is another one. -/
theorem At.advance (hs : s.At (t :: us)) (ht : t.kind ≠ .eof) :
    ∃ s', Builder.advance s = ((), s') ∧ s.Reads s' ∧ s'.At us ∧ s'.previous = t := by
  have hends := hs.sound.ends
  rw [hs.current, if_neg ht, hs.upcoming] at hends
  obtain ⟨t', us, rfl⟩ : ∃ t' us', us = t' :: us' := by
    obtain ⟨inner, last, rfl, -⟩ := hends
    cases inner <;> exact ⟨_, _, rfl⟩
  have hrun : Builder.advance s = ((), { s with previous := t, current := t', upcoming := us }) := by
    change ((), Builder.pull { s with previous := s.current } s.upcoming) = _
    rw [hs.upcoming, hs.current, pull]
    split
    · exact absurd (by assumption) (hs.plain t' (by simp) _)
    · rfl
  have hsound := Keeps.sound (x := Builder.advance) s hs.sound
  rw [hrun] at hsound
  exact ⟨_, hrun, Accepts.of_advance ⟨hs.sound, hrun, hs.clean⟩,
    ⟨hsound, hs.clean, rfl, fun u hu => hs.plain u (List.mem_cons_of_mem _ hu)⟩, rfl⟩

theorem Decides.advance {f : Unit → Build α} (hs : s.At (t :: us)) (ht : t.kind ≠ .eof)
    (hf : ∀ s', s.Reads s' → s'.At us → s'.previous = t → Decides (f () s') P vs R) :
    Decides ((Builder.advance >>= f) s) P vs R := by
  obtain ⟨s', hrun, hr, hat, hp⟩ := hs.advance ht
  rw [bind_of_run hrun]
  exact hf s' hr hat hp

theorem At.accept {k : TokenKind} (hs : s.At (t :: us)) (hk : t.kind = k) (hne : k ≠ .eof) :
    ∃ s', Builder.accept k s = (true, s') ∧ s.Reads s' ∧ s'.At us ∧ s'.previous = t := by
  obtain ⟨s', hrun, h⟩ := hs.advance (hk ▸ hne)
  refine ⟨s', ?_, h⟩
  rw [accept_of_eq (hs.current ▸ hk), hrun]

/-- The current token is of the kind that is read if it is there. -/
theorem Decides.accept {k : TokenKind} {f : Bool → Build α} (hs : s.At (t :: us)) (hk : t.kind = k)
    (hne : k ≠ .eof)
    (hf : ∀ s', s.Reads s' → s'.At us → s'.previous = t → Decides (f true s') P vs R) :
    Decides ((accept k >>= f) s) P vs R := by
  obtain ⟨s', hrun, hr, hat, hp⟩ := hs.accept hk hne
  rw [bind_of_run hrun]
  exact hf s' hr hat hp

/-- The current token is of another kind. -/
theorem Decides.acceptNot {k : TokenKind} {f : Bool → Build α} (hk : s.current.kind ≠ k)
    (hf : Decides (f false s) P vs R) : Decides ((Builder.accept k >>= f) s) P vs R := by
  rwa [bind_of_run (accept_of_ne hk)]

theorem At.expect {e : Expectation} (hs : s.At (t :: us)) (hk : t.kind = e.kind) :
    ∃ s', Builder.expect e s = ((), s') ∧ s.Reads s' ∧ s'.At us ∧ s'.previous = t := by
  obtain ⟨s', hrun, h⟩ := hs.accept hk (by cases e <;> nofun)
  refine ⟨s', ?_, h⟩
  change (if (Builder.accept e.kind s).1 = true then _ else _ : Build Unit)
    (Builder.accept e.kind s).2 = _
  rw [hrun]
  rfl

theorem Decides.expect {e : Expectation} {f : Unit → Build α} (hs : s.At (t :: us))
    (hk : t.kind = e.kind)
    (hf : ∀ s', s.Reads s' → s'.At us → s'.previous = t → Decides (f () s') P vs R) :
    Decides ((Builder.expect e >>= f) s) P vs R := by
  obtain ⟨s', hrun, hr, hat, hp⟩ := hs.expect hk
  rw [bind_of_run hrun]
  exact hf s' hr hat hp

theorem check_run (k : TokenKind) (s : Builder) :
    check k s = (decide (s.current.kind = k), s) :=
  rfl

theorem lastText_run (s : Builder) : lastText s = (s.previous.text, s) :=
  rfl

/-! ## Loops -/

theorem repeatWhile_stop {condition : Build Bool} {body : Build Unit} {b : Nat}
    (h : condition s = (false, s)) : repeatWhile condition body b s = ((), s) := by
  cases b with
  | zero => rfl
  | succ b =>
      rw [repeatWhile, bind_of_run h]
      rfl

theorem repeatWhile_step {condition : Build Bool} {body : Build Unit} {b : Nat}
    (h : condition s = (true, s')) :
    repeatWhile condition body (b + 1) s = (body >>= fun _ => repeatWhile condition body b) s' := by
  rw [repeatWhile, bind_of_run h]
  rfl

end Tokens

end Builder

end LoxMachine
