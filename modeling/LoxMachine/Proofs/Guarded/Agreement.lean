import LoxMachine.Proofs.Compile.Progress
import LoxMachine.Proofs.Guarded.Rules

/-!
# Guarded rules and the rules they guard

A guarded rule does what the rule does that it guards (`Follows`), from every state of the builder
with enough tokens (`Within`), the end token in its place, and whatever the tokens are. So no step is
ever refused, and bounds greater than the number of tokens left are never used up. Only a wary
recovery may stop, with errors that are reported anyway.
-/

namespace LoxMachine

/-- What a builder has at least. -/
structure Room where
  code : Nat := 0
  scopes : Nat := 0
  functions : Nat := 0

/-- There is that much room, and fewer than `n` tokens are left. -/
structure Builder.Within (s : Builder) (n : Nat) (r : Room) : Prop where
  fed : s.Fed
  left : s.left < n
  code : r.code ≤ s.body.chunk.size
  scopes : r.scopes ≤ s.body.depth
  functions : r.functions ≤ s.outer.length

theorem Builder.Within.nests {s s' : Builder} {n : Nat} {r : Room} (h : s.Within n r)
    (hs : s.Nests s') : s'.Within n r :=
  ⟨hs.fed h.fed, Nat.lt_of_le_of_lt (hs.left_le h.fed) h.left, Nat.le_trans h.code hs.code,
    hs.depth ▸ h.scopes, by rw [← hs.around.length_eq]; exact h.functions⟩

namespace Guarded

open Builder

/-- A guarded action did what the action does, or a wary recovery has stopped it before. -/
def Agrees {α : Type} (wary : Bool) (out : Except Halt (α × Builder)) (r : α × Builder) : Prop :=
  out = .ok r ∨ wary = true ∧ ∃ es, out = .error (.overBrace es) ∧ es.toList <+: r.2.errors.toList

/-- No error is taken back. -/
class Extends {α : Type} (y : Build α) : Prop where
  errors : ∀ s : Builder, s.errors.toList <+: (y s).2.errors.toList

class Follows {α : Type} (w : Bool) (n : Nat) (r : Room) (x : Guarded α) (y : Build α) :
    Prop where
  agrees : ∀ s : Builder, s.Within n r → Agrees w (x s) (y s)

section Combinators

variable {α β : Type} {w : Bool} {n m : Nat} {r : Room} {x : Guarded α} {y : Build α}
  {f : α → Guarded β} {g : α → Build β} {s : Builder}

theorem bind_ok {a : α} {s' : Builder} (h : x s = .ok (a, s')) : (x >>= f) s = f a s' := by
  change (x s >>= fun p => f p.1 p.2) = _
  rw [h]
  rfl

theorem bind_error {h : Halt} (hx : x s = .error h) : (x >>= f) s = .error h := by
  change (x s >>= fun p => f p.1 p.2) = _
  rw [hx]
  rfl

theorem get_bind (f : Builder → Guarded β) (s : Builder) :
    ((get : Guarded Builder) >>= f) s = f s s :=
  rfl

instance (y : Build α) (g : α → Build β) [hy : Extends y] [hg : ∀ a, Extends (g a)] :
    Extends (y >>= g) :=
  ⟨fun s => (hy.errors s).trans ((hg _).errors _)⟩

instance : Extends Builder.endScope := by
  refine ⟨fun s => ?_⟩
  obtain ⟨b, hrun, -⟩ := endScope_run s
  exact hrun ▸ List.prefix_refl _

instance : Extends Builder.closeBody := by
  refine ⟨fun s => ?_⟩
  change s.errors.toList <+: (match s.outer with
    | [] => ((s.routine.function, s.body.captures), s)
    | body :: outer => _ : (Function × Array Capture) × Builder).2.errors.toList
  cases s.outer <;> exact List.prefix_refl _

theorem extends_of_balanced {y : Build α} (hy : Balanced y) : Extends y :=
  ⟨fun s => (hy.nests s).errors⟩

instance (y : Build α) [hy : Balanced y] : Extends y :=
  extends_of_balanced hy

/-- One action and then another one, which may rely on the first. -/
theorem Agrees.bind (hx : Agrees w (x s) (y s)) (hg : ∀ a, Extends (g a))
    (hf : Agrees w (f (y s).1 (y s).2) (g (y s).1 (y s).2)) :
    Agrees w ((x >>= f) s) ((y >>= g) s) := by
  rcases hx with hx | ⟨hw, es, hx, hes⟩
  · rw [bind_ok hx]
    exact hf
  · exact .inr ⟨hw, es, bind_error hx, hes.trans ((hg _).errors _)⟩

instance (a : α) : Follows w n r (pure a) (pure a) :=
  ⟨fun _ _ => .inl rfl⟩

instance : Follows w n r (get : Guarded Builder) (get : Build Builder) :=
  ⟨fun _ _ => .inl rfl⟩

instance (y : Build α) : Follows w n r (liftM y) y :=
  ⟨fun _ _ => .inl rfl⟩

theorem Follows.bind (hx : Follows w n r x y) [hy : Balanced y] (hg : ∀ a, Extends (g a))
    (hf : ∀ a, Follows w n r (f a) (g a)) : Follows w n r (x >>= f) (y >>= g) :=
  ⟨fun s hs => (hx.agrees s hs).bind hg ((hf _).agrees _ (hs.nests (hy.nests s)))⟩

instance (x : Guarded α) (y : Build α) (f : α → Guarded β) (g : α → Build β)
    [hx : Follows w n r x y] [Balanced y] [hf : ∀ a, Follows w n r (f a) (g a)]
    [hg : ∀ a, Extends (g a)] : Follows w n r (x >>= f) (y >>= g) :=
  hx.bind hg hf

instance (c : Prop) [Decidable c] (x x' : Guarded α) (y y' : Build α) [Follows w n r x y]
    [Follows w n r x' y'] : Follows w n r (if c then x else x') (if c then y else y') := by
  split <;> infer_instance

theorem Follows.mono (h : Follows w m r x y) (hn : n ≤ m) : Follows w n r x y :=
  ⟨fun s hs => h.agrees s { hs with left := Nat.lt_of_lt_of_le hs.left hn }⟩

theorem when_ok {c : Builder → Bool} {h : Halt} (hc : c s = true) : when c h y s = .ok (y s) := by
  change (if c s = true then liftM y else halt h : Guarded α) s = _
  rw [if_pos hc]
  rfl

/-- An action that makes sense where there is that much room. -/
theorem follows_when {c : Builder → Bool} {h : Halt}
    (hc : ∀ s, s.Within n r → c s = true) : Follows w n r (when c h y) y :=
  ⟨fun s hs => .inl (when_ok (hc s hs))⟩

/-! ## Loops -/

theorem below_run {s : Builder} (h : s.left < n) (x : Guarded α) : below n x s = x s := by
  change (if s.left < n then x else halt .idle : Guarded α) s = x s
  rw [if_pos h]

/-- Where fewer tokens are left, nothing is refused. -/
theorem Follows.below (h : Follows w n r x y) : Follows w n r (below n x) y :=
  ⟨fun s hs => (below_run hs.left x).symm ▸ h.agrees s hs⟩

theorem repeatWhile_succ (c : Build Bool) (x : Guarded Unit) (b : Nat) (s : Builder) :
    repeatWhile c x (b + 1) s =
      (liftM c >>= fun go => if go = true then x >>= fun _ => below s.left (repeatWhile c x b)
        else pure ()) s := by
  rw [repeatWhile, rounds, get_bind]
  refine congrFun ?_ s
  simp only [whileStep, bind_assoc]
  congr 1
  funext go
  cases go
  · rfl
  · simp only [if_pos, bind_assoc, pure_bind]
    rfl

/-- A loop of which every round takes a token ends by itself. -/
theorem follows_repeatWhile {c : Build Bool} {x : Guarded Unit} {y : Build Unit} {b b' : Nat}
    [hc : Balanced c] [hy : Balanced y] [hx : Follows w n r x y]
    (hless : ∀ s : Builder, s.Within n r → (c s).1 = true → (y (c s).2).2.left < s.left)
    (hb : n ≤ b) (hb' : n ≤ b') :
    Follows w n r (repeatWhile c x b') (Builder.repeatWhile c y b) := by
  suffices ∀ b b' (s : Builder), s.Within n r → s.left < b → s.left < b' →
      Agrees w (repeatWhile c x b' s) (Builder.repeatWhile c y b s) from
    ⟨fun s hs => this b b' s hs (Nat.lt_of_lt_of_le hs.left hb) (Nat.lt_of_lt_of_le hs.left hb')⟩
  intro b
  induction b with
  | zero => exact fun _ _ _ h => absurd h (Nat.not_lt_zero _)
  | succ b ih =>
      rintro (_ | b') s hs h h'
      · exact absurd h' (Nat.not_lt_zero _)
      rw [repeatWhile_succ, Builder.repeatWhile]
      refine .bind (.inl rfl) (fun _ => inferInstance) ?_
      have hs₁ := hs.nests (hc.nests s)
      split
      · rename_i hgo
        have hlt := hless s hs hgo
        refine .bind (hx.agrees _ hs₁) (fun _ => inferInstance) ?_
        rw [below_run hlt]
        exact ih b' _ (hs₁.nests (hy.nests _)) (by omega) (by omega)
      · exact .inl rfl

end Combinators

/-! ## Tokens -/

section Tokens

variable {w : Bool} {n : Nat} {r : Room}

theorem atBoundary_of_eof {s : Builder} (h : s.current.kind = .eof) : s.atBoundary = true := by
  simp [atBoundary, h]

instance : Balanced isLost := by
  unfold isLost
  infer_instance

/-- A round of recovery passes over a token. -/
theorem left_advance_of_lost {s : Builder} (hs : s.Fed) (h : (isLost s).1 = true) :
    (advance (isLost s).2).2.left < s.left := by
  refine hs.left_advance_lt fun heof => ?_
  change (!s.atBoundary) = true at h
  rw [atBoundary_of_eof heof] at h
  cases h

theorem follows_resume {skip : Guarded Unit} [Follows w n r skip Builder.advance] {b b' : Nat}
    (hb : n ≤ b) (hb' : n ≤ b') : Follows w n r (resume skip b') (Builder.synchronize b) := by
  unfold resume Builder.synchronize
  have : Balanced (modify fun s : Builder => { s with panicking := false } : Build PUnit) :=
    ⟨fun _ => ⟨id, Nat.le_refl _, List.prefix_refl _, rfl, rfl, Nat.le_refl _, .refl _, rfl⟩⟩
  have : Follows w n r (repeatWhile isLost skip b')
      (Builder.repeatWhile isLost Builder.advance b) :=
    follows_repeatWhile (fun s hs h => left_advance_of_lost hs.fed h) hb hb'
  exact .bind inferInstance
    (fun _ => inferInstanceAs (Extends (Builder.repeatWhile isLost Builder.advance b)))
    fun _ => this

end Tokens

/-! ## Code and scopes -/

section Code

variable {α : Type} {w : Bool} {n : Nat} {r : Room}

theorem follows_patchJump {j : Nat} (h : j + 2 ≤ r.code) :
    Follows w n r (patchJump j) (Builder.patchJump j) :=
  follows_when fun _ hs => decide_eq_true (Nat.le_trans h hs.code)

theorem follows_emitLoop {i : Nat} (h : i ≤ r.code) :
    Follows w n r (emitLoop i) (Builder.emitLoop i) :=
  follows_when fun _ hs => decide_eq_true (Nat.le_trans h hs.code)

theorem follows_endScope (h : 0 < r.scopes) :
    Follows w n r endScope Builder.endScope :=
  follows_when fun _ hs => decide_eq_true (Nat.lt_of_lt_of_le h hs.scopes)

theorem follows_closeBody (h : 0 < r.functions) :
    Follows w n r closeBody Builder.closeBody := by
  refine follows_when fun s hs => ?_
  have := Nat.lt_of_lt_of_le h hs.functions
  cases houter : s.outer with
  | nil => simp [houter] at this
  | cons => rfl

/-- What follows on a jump may rely on its distance being in the code. -/
theorem follows_emitJump {op : Opcode} {f : Nat → Guarded α} {g : Nat → Build α}
    (hg : ∀ offset, Extends (g offset))
    (hf : ∀ offset, r.code < offset → Follows w n { r with code := offset + 2 } (f offset) (g offset)) :
    Follows w n r (liftM (emitJump op) >>= f) (emitJump op >>= g) := by
  refine ⟨fun s hs => .bind (.inl rfl) hg ?_⟩
  have hnests := hs.nests (Balanced.nests (x := emitJump op) s)
  refine (hf _ ?_).agrees _ ⟨hnests.fed, hnests.left, ?_, hnests.scopes, hnests.functions⟩
  · exact Nat.lt_succ_of_le hs.code
  · change s.body.chunk.size + 1 + 2 ≤ (s.body.chunk.writeJump op _).2.size
    simp only [Chunk.writeJump, Chunk.writeOp, Chunk.size_write]
    omega

/-- What follows may rely on the code that is there. -/
theorem follows_here {f : Nat → Guarded α} {g : Nat → Build α} (hg : ∀ start, Extends (g start))
    (hf : ∀ start, r.code ≤ start → Follows w n { r with code := start } (f start) (g start)) :
    Follows w n r (liftM here >>= f) (here >>= g) :=
  ⟨fun _ hs => .bind (.inl rfl) hg ((hf _ hs.code).agrees _ { hs with code := Nat.le_refl _ })⟩

end Code

/-! ## Scopes and functions -/

section Scopes

variable {α : Type} {w : Bool} {n : Nat} {r : Room}

theorem follows_beginScope {f : Unit → Guarded α} {g : Unit → Build α} (hg : Extends (g ()))
    (hf : Follows w n { r with scopes := r.scopes + 1 } (f ()) (g ())) :
    Follows w n r (liftM beginScope >>= f) (beginScope >>= g) :=
  ⟨fun _ hs => .bind (.inl rfl) (fun _ => hg) (hf.agrees _
    { hs with scopes := Nat.succ_le_succ hs.scopes })⟩

theorem follows_openBody {kind : BodyKind} {name : String} {f : Unit → Guarded α}
    {g : Unit → Build α} (hg : Extends (g ()))
    (hf : Follows w n ⟨0, 0, 1⟩ (f ()) (g ())) :
    Follows w n r (liftM (openBody kind name) >>= f) (openBody kind name >>= g) :=
  ⟨fun _ hs => .bind (.inl rfl) (fun _ => hg) (hf.agrees _
    ⟨hs.fed, hs.left, Nat.zero_le _, Nat.zero_le _, Nat.succ_le_succ (Nat.zero_le _)⟩)⟩

/-- Behind a function nothing is known of the one around it. -/
theorem follows_closing {f : Function × Array Capture → Guarded α}
    {g : Function × Array Capture → Build α} (hr : 0 < r.functions) (hg : ∀ a, Extends (g a))
    (hf : ∀ a, Follows w n {} (f a) (g a)) :
    Follows w n r (closeBody >>= f) (Builder.closeBody >>= g) := by
  refine ⟨fun s hs => ((follows_closeBody hr).agrees s hs).bind hg ?_⟩
  have hmoves := Onward.moves (x := Builder.closeBody) s hs.fed
  exact (hf _).agrees _ ⟨hmoves.1, Nat.lt_of_le_of_lt hmoves.left_le hs.left, Nat.zero_le _,
    Nat.zero_le _, Nat.zero_le _⟩

end Scopes

/-! ## Captured variables -/

/-- Looking a local up by its slot marks the one that a name leads to. -/
theorem captureSlot?_eq (name : String) (locals : List Local) :
    Body.captureSlot? name locals =
      (Body.slot? name locals).bind fun slot => (markSlot? slot locals).map (slot, ·) := by
  induction locals with
  | nil => rfl
  | cons l locals ih =>
      rw [Body.captureSlot?, Body.slot?]
      split
      · simp [markSlot?]
      · rw [ih]
        cases hslot : Body.slot? name locals with
        | none => rfl
        | some slot =>
            have hlt := Body.slot?_lt_length hslot
            have hsub : locals.length - slot = locals.length - 1 - slot + 1 := by omega
            have hmark : markSlot? slot (l :: locals) = (markSlot? slot locals).map (l :: ·) := by
              have hlt' : slot < (l :: locals).length := Nat.lt_succ_of_lt hlt
              rw [markSlot?, markSlot?, if_pos hlt, if_pos hlt', List.length_cons,
                Nat.add_sub_cancel, hsub]
              rfl
            rw [Option.bind_some, Option.bind_some, hmark, Option.map_map, Option.map_map]
            rfl

/-- The slot that a name leads to is there. -/
theorem markSlot?_of_slot? {name : String} {locals : List Local} {slot : Nat}
    (h : Body.slot? name locals = some slot) : ∃ marked, markSlot? slot locals = some marked :=
  ⟨_, if_pos (Body.slot?_lt_length h)⟩

theorem resolveAround_eq (name : String) (b : Body) (outer : List Body) :
    resolveAround name b outer = .ok (Body.resolve name b outer) := by
  induction outer generalizing b with
  | nil => rfl
  | cons parent outer ih =>
      rw [resolveAround, Body.resolve, captureSlot?_eq]
      cases hslot : Body.slot? name parent.locals with
      | some slot =>
          obtain ⟨marked, hmarked⟩ := markSlot?_of_slot? hslot
          simp only [Option.bind_some, hmarked, Option.map_some]
      | none =>
          simp only [Option.bind_none]
          rw [ih parent]
          generalize Body.resolve name parent outer = resolved
          obtain ⟨_ | i | _, parent, outer⟩ := resolved <;> rfl

section Names

variable {w : Bool} {n : Nat} {r : Room}

instance (name : String) : Follows w n r (resolveOutside name) (Builder.resolveOutside name) := by
  refine ⟨fun s _ => .inl ?_⟩
  rw [resolveOutside, resolveAround_eq]
  rfl

instance (name : String) : Follows w n r (resolve name) (Builder.resolve name) := by
  unfold resolve Builder.resolve
  refine .bind inferInstance (fun s => ?_) fun s => ?_
  · cases Body.slot? name s.body.locals
    · refine extends_of_balanced (Balanced.bind inferInstance fun answer => ?_)
      cases answer <;> infer_instance
    · infer_instance
  · cases Body.slot? name s.body.locals
    · refine .bind inferInstance (fun answer => ?_) fun answer => ?_
      · cases answer <;> infer_instance
      · cases answer <;> dsimp only <;> infer_instance
    · infer_instance

instance (name : String) : Follows w n r (readNamed name) (Builder.readNamed name) := by
  unfold readNamed Builder.readNamed
  infer_instance

end Names

/-! ## Expressions -/

section Operands

variable {w : Bool} {n b b' : Nat} {r : Room} {gsub : Power → Guarded Unit} {sub : Power → Build Unit}
  [∀ p, Balanced (sub p)]

/-- The parser for operands is followed at one level. -/
abbrev FollowsOperand (w : Bool) (n : Nat) (gsub : Power → Guarded Unit) (sub : Power → Build Unit)
    (p : Power) : Prop :=
  ∀ r, Follows w n r (gsub p) (sub p)

section Assignments

variable [FollowsOperand w n gsub sub .assignment]

set_option synthInstance.maxSize 4096

instance (name : String) (canAssign : Bool) :
    Follows w n r (named gsub name canAssign) (Expression.named sub name canAssign) := by
  unfold named Expression.named Expression.expression
  infer_instance

instance : Follows w n r (grouping gsub) (Expression.grouping sub) := by
  unfold grouping Expression.grouping Expression.expression
  infer_instance

theorem below_map {α β : Type} (n : Nat) (x : Guarded α) (f : α → β) :
    (below n x >>= fun a => pure (f a)) = below n (x >>= fun a => pure (f a)) := by
  simp only [below, bind_assoc]
  congr 1
  funext s
  split <;> rfl

theorem argumentsFrom_succ (gsub : Power → Guarded Unit) (b count : Nat) (s : Builder) :
    argumentsFrom (b + 1) gsub count s = (argument gsub count >>= fun more =>
      if more = true then below s.left (argumentsFrom b gsub (count + 1))
      else pure (count + 1)) s := by
  rw [argumentsFrom, rounds, bind_assoc, get_bind]
  refine congrFun ?_ s
  simp only [argumentStep, bind_assoc]
  congr 1
  funext more
  cases more
  · rfl
  · simp only [if_pos, pure_bind, below_map]
    rfl

/-- An argument, and whether there is another one to come. -/
def oneArgument (sub : Power → Build Unit) (count : Nat) : Build Bool := do
  sub .assignment
  if count = Expression.maxArguments then error .tooManyArguments
  accept .comma

theorem argumentsFrom_eq (sub : Power → Build Unit) (b count : Nat) :
    Expression.argumentsFrom sub (b + 1) count = (oneArgument sub count >>= fun more =>
      if more = true then Expression.argumentsFrom sub b (count + 1) else pure (count + 1)) := by
  rw [Expression.argumentsFrom, oneArgument, Expression.expression]
  simp only [bind_assoc]
  congr 1
  funext _
  split <;> simp only [bind_assoc]

instance (count : Nat) : Balanced (oneArgument sub count) := by
  unfold oneArgument
  infer_instance

instance (count : Nat) : Follows w n r (argument gsub count) (oneArgument sub count) := by
  unfold argument oneArgument
  infer_instance

/-- Where another argument is to come, a comma has been read. -/
theorem left_oneArgument_lt (sub : Power → Build Unit) [∀ p, Balanced (sub p)] {count : Nat} {s : Builder} (hs : s.Fed)
    (h : (oneArgument sub count s).1 = true) : (oneArgument sub count s).2.left < s.left := by
  obtain ⟨s', hnests, hrun⟩ : ∃ s', s.Nests s' ∧ oneArgument sub count s = accept .comma s' := by
    have hfirst := Balanced.nests (x := sub .assignment) s
    by_cases hcount : count = Expression.maxArguments
    · refine ⟨_, hfirst.trans (Balanced.nests (x := error .tooManyArguments) _), ?_⟩
      simp only [oneArgument, if_pos hcount]
      rfl
    · refine ⟨_, hfirst, ?_⟩
      simp only [oneArgument, if_neg hcount]
      rfl
  rw [hrun] at h ⊢
  exact Nat.lt_of_lt_of_le (left_accept_lt (hnests.fed hs) nofun h) (hnests.left_le hs)

variable (gsub sub) in
theorem follows_argumentsFrom (count : Nat) (hb : n ≤ b) (hb' : n ≤ b') :
    Follows w n r (argumentsFrom b' gsub count) (Expression.argumentsFrom sub b count) := by
  suffices ∀ b b' count (s : Builder), s.Within n r → s.left < b → s.left < b' →
      Agrees w (argumentsFrom b' gsub count s) (Expression.argumentsFrom sub b count s) from
    ⟨fun s hs => this b b' count s hs (Nat.lt_of_lt_of_le hs.left hb)
      (Nat.lt_of_lt_of_le hs.left hb')⟩
  intro b
  induction b with
  | zero => exact fun _ _ _ _ h => absurd h (Nat.not_lt_zero _)
  | succ b ih =>
      rintro (_ | b') count s hs h h'
      · exact absurd h' (Nat.not_lt_zero _)
      rw [argumentsFrom_succ, argumentsFrom_eq]
      refine .bind (Follows.agrees (r := r) s hs) (fun _ => inferInstance) ?_
      split
      · rename_i hmore
        have hlt := left_oneArgument_lt sub hs.fed hmore
        rw [below_run hlt]
        exact ih b' _ _ (hs.nests (Balanced.nests s)) (by omega) (by omega)
      · exact .inl rfl

variable (gsub sub) in
theorem follows_arguments (hb : n ≤ b) (hb' : n ≤ b') :
    Follows w n r (arguments b' gsub) (Expression.arguments b sub) := by
  unfold arguments Expression.arguments
  have := follows_argumentsFrom (w := w) (r := r) gsub sub 0 hb hb'
  infer_instance

instance : Follows w n r this Expression.this := by
  unfold this Expression.this
  infer_instance

theorem follows_super (hb : n ≤ b) (hb' : n ≤ b') :
    Follows w n r (super b' gsub) (Expression.super b sub) := by
  unfold super Expression.super
  have := follows_arguments (w := w) (r := r) gsub sub hb hb'
  refine .bind inferInstance (fun s => ?_) fun s => ?_
  · cases s.classes.head? <;> dsimp only <;> infer_instance
  cases s.classes.head? with
  | none =>
      iterate 4 refine .bind inferInstance (fun _ => inferInstance) fun _ => ?_
      infer_instance
  | some hasSuperclass =>
      dsimp only
      split
      · iterate 3 refine .bind inferInstance (fun _ => inferInstance) fun _ => ?_
        infer_instance
      · iterate 4 refine .bind inferInstance (fun _ => inferInstance) fun _ => ?_
        infer_instance

theorem follows_call (hb : n ≤ b) (hb' : n ≤ b') :
    Follows w n r (call b' gsub) (Expression.call b sub) := by
  unfold call Expression.call
  have := follows_arguments (w := w) (r := r) gsub sub hb hb'
  infer_instance

theorem follows_property (hb : n ≤ b) (hb' : n ≤ b') (canAssign : Bool) :
    Follows w n r (property b' gsub canAssign) (Expression.property b sub canAssign) := by
  unfold property Expression.property Expression.expression
  have := follows_arguments (w := w) (r := r) gsub sub hb hb'
  infer_instance

end Assignments

instance [FollowsOperand w n gsub sub .and] : Follows w n r (and gsub) (Expression.and sub) := by
  unfold and Expression.and
  refine follows_emitJump (fun _ => inferInstance) fun endJump _ => ?_
  have := follows_patchJump (w := w) (n := n) (r := { r with code := endJump + 2 }) (Nat.le_refl _)
  infer_instance

instance [FollowsOperand w n gsub sub .or] : Follows w n r (or gsub) (Expression.or sub) := by
  unfold or Expression.or
  refine follows_emitJump (fun _ => inferInstance) fun elseJump _ => ?_
  refine follows_emitJump (fun _ => inferInstance) fun endJump hlt => ?_
  have := follows_patchJump (w := w) (n := n) (r := { r with code := endJump + 2 }) (Nat.le_refl _)
  have := follows_patchJump (w := w) (n := n) (r := { r with code := endJump + 2 })
    (j := elseJump) (by simp only at hlt ⊢; omega)
  infer_instance

/-- A rule that looks at its token does what the rule for that token does. -/
def FollowsAt (w : Bool) (n : Nat) (r : Room) (kind : TokenKind) (x : Guarded Unit)
    (y : Build Unit) : Prop :=
  ∀ s : Builder, s.Within n r → s.previous.kind = kind → Agrees w (x s) (y s)

theorem Follows.at {kind : TokenKind} {x : Guarded Unit} {y : Build Unit} (h : Follows w n r x y) :
    FollowsAt w n r kind x y :=
  fun s hs _ => h.agrees s hs

/-- The operation of a literal. -/
def IsLiteral (kind : TokenKind) (op : Opcode) : Prop :=
  kind = .kwFalse ∧ op = .litFalse ∨ kind = .kwTrue ∧ op = .litTrue ∨ kind = .kwNil ∧ op = .litNil

/-- The operation of an operator before its operand. -/
def IsUnary (kind : TokenKind) (op : Opcode) : Prop :=
  kind = .minus ∧ op = .negate ∨ kind = .bang ∧ op = .not

section Kinds

variable {kind : TokenKind} {op : Opcode} {s : Builder}

theorem bind_run_congr {x y : Guarded α} {f : α → Guarded β} (h : x s = y s) : (x >>= f) s = (y >>= f) s := by
  change (x s >>= _) = (y s >>= _)
  rw [h]

theorem literal_of_kind (h : IsLiteral kind op) (hk : s.previous.kind = kind) :
    literal s = (liftM (emit op) : Guarded Unit) s := by
  rw [literal, get_bind, hk]
  rcases h with ⟨rfl, rfl⟩ | ⟨rfl, rfl⟩ | ⟨rfl, rfl⟩ <;> rfl

theorem unary_of_kind (h : IsUnary kind op) (hk : s.previous.kind = kind) :
    unary gsub s = (gsub .unary >>= fun _ => liftM (emit op) : Guarded Unit) s := by
  rw [unary, get_bind, hk]
  rcases h with ⟨rfl, rfl⟩ | ⟨rfl, rfl⟩ <;> rfl

theorem binary_of_kind (h : Expression.operations kind ≠ []) (hk : s.previous.kind = kind) :
    binary gsub s = (gsub (Power.ofKind kind).next >>= fun _ =>
      liftM ((Expression.operations kind).forM emit : Build Unit) : Guarded Unit) s := by
  rw [binary, get_bind, hk]
  cases hcodes : Expression.operations kind with
  | nil => exact absurd hcodes h
  | cons => rfl

end Kinds

theorem followsAt_literal {kind : TokenKind} {op : Opcode} (h : IsLiteral kind op) :
    FollowsAt w n r kind literal (Expression.literal op) :=
  fun _ _ hk => .inl (literal_of_kind h hk)

theorem followsAt_unary [FollowsOperand w n gsub sub .unary] {kind : TokenKind} {op : Opcode}
    (h : IsUnary kind op) : FollowsAt w n r kind (unary gsub) (Expression.unary sub op) := by
  intro s hs hk
  rw [unary_of_kind h hk]
  refine (?_ : Follows w n r _ _).agrees s hs
  unfold Expression.unary
  infer_instance

theorem followsAt_binary [∀ p : Power, FollowsOperand w n gsub sub p.next] {kind : TokenKind} (h : Expression.operations kind ≠ []) :
    FollowsAt w n r kind (binary gsub) (Expression.binary sub kind) := by
  intro s hs hk
  rw [binary_of_kind h hk]
  refine (?_ : Follows w n r _ _).agrees s hs
  unfold Expression.binary
  infer_instance

section Rule

variable [FollowsOperand w n gsub sub .assignment]

variable (gsub sub) in
/-- Both know a rule for the beginning of an expression, and the same one, or none. -/
theorem followsAt_opening [FollowsOperand w n gsub sub .unary] (hb : n ≤ b) (hb' : n ≤ b') (canAssign : Bool) (kind : TokenKind) :
    opening b' gsub canAssign kind = none ∧ Expression.opening b sub canAssign kind = none ∨
      ∃ x y, opening b' gsub canAssign kind = some x ∧
        Expression.opening b sub canAssign kind = some y ∧ FollowsAt w n r kind x y := by
  cases kind
  case leftParen => exact .inr ⟨_, _, rfl, rfl, Follows.at inferInstance⟩
  case minus => exact .inr ⟨_, _, rfl, rfl, followsAt_unary (.inl ⟨rfl, rfl⟩)⟩
  case bang => exact .inr ⟨_, _, rfl, rfl, followsAt_unary (.inr ⟨rfl, rfl⟩)⟩
  case identifier => exact .inr ⟨_, _, rfl, rfl, Follows.at inferInstance⟩
  case string => exact .inr ⟨_, _, rfl, rfl, Follows.at inferInstance⟩
  case number => exact .inr ⟨_, _, rfl, rfl, Follows.at inferInstance⟩
  case kwFalse => exact .inr ⟨_, _, rfl, rfl, followsAt_literal (.inl ⟨rfl, rfl⟩)⟩
  case kwTrue => exact .inr ⟨_, _, rfl, rfl, followsAt_literal (.inr (.inl ⟨rfl, rfl⟩))⟩
  case kwNil => exact .inr ⟨_, _, rfl, rfl, followsAt_literal (.inr (.inr ⟨rfl, rfl⟩))⟩
  case kwSuper => exact .inr ⟨_, _, rfl, rfl, (follows_super hb hb').at⟩
  case kwThis => exact .inr ⟨_, _, rfl, rfl, Follows.at inferInstance⟩
  all_goals exact .inl ⟨rfl, rfl⟩

variable [FollowsOperand w n gsub sub .and] [FollowsOperand w n gsub sub .or]
  [∀ p : Power, FollowsOperand w n gsub sub p.next]

theorem followsAt_continuation (hb : n ≤ b) (hb' : n ≤ b') (canAssign : Bool) (kind : TokenKind) :
    FollowsAt w n r kind (continuation b' gsub canAssign kind)
      (Expression.continuation b sub canAssign kind) := by
  cases kind
  case leftParen => exact (follows_call hb hb').at
  case dot => exact (follows_property hb hb' canAssign).at
  case kwAnd => exact Follows.at (inferInstanceAs (Follows w n r (and gsub) (Expression.and sub)))
  case kwOr => exact Follows.at (inferInstanceAs (Follows w n r (or gsub) (Expression.or sub)))
  case minus | plus | slash | asterisk | bangEqual | equalEqual | greater | greaterEqual | less
    | lessEqual => exact followsAt_binary (by simp [Expression.operations])
  all_goals exact Follows.at (inferInstanceAs (Follows w n r (pure ()) (pure ())))

instance (least : Power) : Balanced (continues least) := by
  unfold continues
  infer_instance

variable (b sub) in
/-- An operator and its right operand take tokens. -/
theorem left_operator_lt (canAssign : Bool) {least : Power} {s : Builder} (hs : s.Fed)
    (hleast : Power.assignment ≤ least) (h : (continues least s).1 = true) :
    ((do
      advance
      Expression.continuation b sub canAssign (← get).previous.kind) (continues least s).2).2.left <
      s.left := by
  have hne : s.current.kind ≠ .eof := by
    intro heof
    have hle : least ≤ Power.ofKind s.current.kind := of_decide_eq_true h
    rw [heof] at hle
    exact absurd (Power.le_trans hleast hle) (by decide)
  refine Nat.lt_of_le_of_lt ?_ (hs.left_advance_lt hne)
  exact (Balanced.nests (x := Expression.continuation b sub canAssign _) _).left_le hs.behind

theorem previous_pull (s : Builder) (us : List Token) : (s.pull us).previous = s.previous := by
  induction us generalizing s with
  | nil => rfl
  | cons t us ih =>
      rw [pull]
      split
      · rw [ih, report]
        split <;> rfl
      · rfl

variable (gsub sub) in
theorem follows_operator (hb : n ≤ b) (hb' : n ≤ b') (canAssign : Bool) :
    Follows w n r (operator b' gsub canAssign) (do
      advance
      Expression.continuation b sub canAssign (← get).previous.kind) := by
  refine ⟨fun s hs => .bind (.inl rfl) (fun _ => inferInstance) ?_⟩
  exact followsAt_continuation hb hb' canAssign _ _ (hs.nests (Balanced.nests s)) rfl

theorem follows_rule [FollowsOperand w n gsub sub .unary] (hb : n ≤ b) (hb' : n ≤ b') {least : Power}
    (hleast : Power.assignment ≤ least) :
    Follows w (n + 1) r (rule b' gsub least) (Expression.rule b sub least) := by
  refine ⟨fun s hs => .bind (.inl rfl) (fun _ => ?_) ?_⟩
  · refine extends_of_balanced (Balanced.bind inferInstance fun s => ?_)
    split
    · infer_instance
    · have := Expression.balanced_opening b sub (by assumption)
      infer_instance
  have hprevious : (advance s).2.previous = s.current := previous_pull _ _
  rw [get_bind, Builder.get_bind_run]
  by_cases heof : s.current.kind = .eof
  · rw [hprevious, heof]
    exact .inl rfl
  have hs₁ : (advance s).2.Within n r :=
    { hs.nests (Balanced.nests s) with
      left := Nat.lt_of_lt_of_le (hs.fed.left_advance_lt heof) (Nat.le_of_lt_succ hs.left) }
  rcases followsAt_opening (w := w) (r := r) gsub sub hb hb' (decide (least ≤ .assignment))
      (advance s).2.previous.kind with ⟨h, h'⟩ | ⟨x, y, h, h', hxy⟩
  · rw [h, h']
    exact .inl rfl
  rw [h, h']
  have := Expression.balanced_opening b sub h'
  have := follows_operator (w := w) (r := r) gsub sub hb hb'
    (decide (least ≤ .assignment))
  have : Follows w n r
      (repeatWhile (continues least) (operator b' gsub (decide (least ≤ .assignment))) b')
      (Builder.repeatWhile (do return least ≤ Power.ofKind (← get).current.kind) (do
        advance
        Expression.continuation b sub (decide (least ≤ .assignment)) (← get).previous.kind) b) :=
    follows_repeatWhile (c := continues least)
    (fun s hs h => left_operator_lt b sub _ hs.fed hleast h) hb hb'
  refine .bind (hxy _ hs₁ rfl) (fun _ => inferInstance) ?_
  exact Follows.agrees (r := r) _ (hs₁.nests (Balanced.nests _))

end Rule

end Operands

theorem follows_within {w : Bool} {n m m' : Nat} {r : Room} {p : Power}
    (hp : Power.assignment ≤ p) (hm : n ≤ m) (hm' : n ≤ m') :
    Follows w n r (within m' p) (Expression.within m p) := by
  induction n generalizing m m' r p with
  | zero => exact ⟨fun s hs => absurd hs.left (Nat.not_lt_zero _)⟩
  | succ n ih =>
      obtain ⟨m, rfl⟩ := Nat.exists_eq_add_one_of_ne_zero (Nat.ne_zero_of_lt hm)
      obtain ⟨m', rfl⟩ := Nat.exists_eq_add_one_of_ne_zero (Nat.ne_zero_of_lt hm')
      refine ⟨fun s hs => ?_⟩
      have hlt := hs.left
      have hsub (p : Power) (hp : Power.assignment ≤ p) (r : Room) :
          Follows w s.left r (below s.left (within m' p)) (Expression.within m p) :=
        ((ih hp (by omega) (by omega)).mono (Nat.le_of_lt_succ hs.left)).below
      have := hsub .assignment (by decide)
      have := hsub .unary (by decide)
      have := hsub .and (by decide)
      have := hsub .or (by decide)
      have (p : Power) := hsub p.next (by cases p <;> decide)
      exact (follows_rule (n := s.left) (by omega) (by omega) hp).agrees s
        { hs with left := Nat.lt_succ_self _ }

end Guarded

end LoxMachine
