import LoxMachine.Proofs.Code.Reference
import LoxMachine.Proofs.Syntax.Reader
import LoxMachine.Proofs.Verdict.Expressions

/-!
# Expressions in one pass

The parser builds no tree. Yet where a tree can be read, it takes the same tokens and appends the code that
the tree has (`Gives`), unless it reports that a rule is broken or a limit passed. Reader and parser go the
same way, so what is shown is that each step of the one is a step of the other (`within_yields`).

Main statement: `expression_gives_code`.
-/

namespace LoxMachine

open Syntax

namespace Builder

/-! ## Where the parser stands -/

/-- The tokens `us` are left before those of the tail. -/
structure Faces (tail : List Token) (s : Builder) (us : List Token) : Prop where
  rest : s.rest = us ++ tail
  more : us ≠ []
  plain : ∀ t ∈ us, t.IsPlain
  this : ∀ t ∈ us, t.kind = .kwThis → t.text = "this"
  calm : s.errors = #[] → s.panicking = false

/-- What numbers in the code refer to. -/
def around (s : Builder) : Body × List Body :=
  (s.body.bare, s.outer)

def bytes (s : Builder) : List UInt8 :=
  s.body.chunk.bytes

/-- From `s` to `s'` the tokens up to `us` have been read and `code` has been appended, as generating with
the answer `a` tells. Errors reported on the way are no matter of syntax, and where one has been reported
nothing is said of the code. -/
structure Gives {α : Type} (tail : List Token) (s s' : Builder) (us : List Token) (g : Generate α) (a : α)
    (code : List UInt8) : Prop where
  stands : Faces tail s' us
  static : ∀ e ∈ s'.errors, e ∈ s.errors ∨ e.IsStatic
  clean : s'.errors = #[] → s.errors = #[]
  code : s'.errors = #[] → g s.around = some (a, s'.around) ∧ s'.bytes = s.bytes ++ code

section Gives

variable {α β : Type} {s s₁ s₂ s' : Builder} {tail us vs ts : List Token} {t : Token} {g : Generate α} {a : α}
  {b : β} {f : α → Generate β} {code code' : List UInt8}

theorem Gives.bind (h : Gives tail s s₁ us g a code) (h' : Gives tail s₁ s₂ vs (f a) b code') :
    Gives tail s s₂ vs (g >>= f) b (code ++ code') where
  stands := h'.stands
  static e he := (h'.static e he).elim (h.static e) .inr
  clean hclean := h.clean (h'.clean hclean)
  code hclean := by
    obtain ⟨hg, hbytes⟩ := h.code (h'.clean hclean)
    obtain ⟨hg', hbytes'⟩ := h'.code hclean
    refine ⟨?_, by rw [hbytes', hbytes, List.append_assoc]⟩
    change (g s.around).bind _ = _
    rw [hg]
    exact hg'

theorem Gives.then {g' : Generate β} (h : Gives tail s s₁ us g a code) (h' : Gives tail s₁ s₂ vs g' b code') :
    Gives tail s s₂ vs (g >>= fun _ => g') b (code ++ code') :=
  h.bind h'

/-- Steps that answer nothing may come first or last. -/
theorem Gives.behind (h : Gives tail s s₁ us (pure () : Generate Unit) () code)
    (h' : Gives tail s₁ s₂ vs g a code') : Gives tail s s₂ vs g a (code ++ code') := by
  have hall := h.then h'
  rw [pure_bind] at hall
  exact hall

theorem Gives.before (h : Gives tail s s₁ us g a code) (h' : Gives tail s₁ s₂ vs (pure a) a code') :
    Gives tail s s₂ vs g a (code ++ code') := by
  have hall := h.bind (f := pure) h'
  rw [bind_pure] at hall
  exact hall

/-- An answer may be made of the one that has been given. -/
theorem Gives.answer (h : Gives tail s s' us g a code) (make : α → β) :
    Gives tail s s' us (g >>= fun a => pure (make a)) (make a) code := by
  refine ⟨h.stands, h.static, h.clean, fun hclean => ⟨?_, (h.code hclean).2⟩⟩
  change (g s.around).bind _ = _
  rw [(h.code hclean).1]
  rfl

/-- The answer may be read off from what has been found. -/
theorem Gives.map {g' : Generate β} (h : Gives tail s s' us g a code)
    (hg : g s.around = some (a, s'.around) → g' s.around = some (b, s'.around)) :
    Gives tail s s' us g' b code :=
  ⟨h.stands, h.static, h.clean, fun hclean => ⟨hg (h.code hclean).1, (h.code hclean).2⟩⟩

theorem Gives.congr (h : Gives tail s s' us g a code) (hcode : code = code') : Gives tail s s' us g a code' :=
  hcode ▸ h

/-- A state that differs in its code only. -/
theorem gives_pure {s s' : Builder} (hs : Faces tail s' us) (herrors : s'.errors = s.errors) (haround : s'.around = s.around)
    (hbytes : s'.bytes = s.bytes ++ code) (a : α) : Gives tail s s' us (pure a) a code :=
  ⟨hs, fun _ he => .inl (herrors ▸ he), fun h => herrors ▸ h, fun _ => ⟨by rw [haround]; rfl, hbytes⟩⟩

theorem Faces.same (hs : Faces tail s us) (hrest : s'.rest = s.rest) (herrors : s'.errors = s.errors)
    (hpanic : s'.panicking = s.panicking) : Faces tail s' us :=
  ⟨hrest.trans hs.rest, hs.more, hs.plain, hs.this, fun h => hpanic.trans (hs.calm (herrors ▸ h))⟩

theorem Faces.current (hs : Faces tail s (t :: us)) : s.current = t :=
  (List.cons.inj hs.rest).1

theorem Faces.gives_refl (hs : Faces tail s us) (a : α) : Gives tail s s us (pure a) a [] :=
  gives_pure hs rfl rfl (List.append_nil _).symm a

/-! ## Tokens -/

theorem Faces.advance (hs : Faces tail s (t :: us)) (hne : us ≠ []) :
    ∃ s', Builder.advance s = ((), s') ∧ s'.previous = t ∧
      ∀ {α : Type} (a : α), Gives tail s s' us (pure a) a [] := by
  obtain ⟨u, us, rfl⟩ := List.exists_cons_of_ne_nil hne
  have hupcoming : s.upcoming = u :: (us ++ tail) := (List.cons.inj hs.rest).2
  have hrun : Builder.advance s = ((), { s with previous := t, current := u, upcoming := us ++ tail }) := by
    change ((), Builder.pull { s with previous := s.current } s.upcoming) = _
    rw [hupcoming, hs.current, pull]
    split
    · exact absurd (by assumption) (hs.plain u (by simp) _)
    · rfl
  exact ⟨_, hrun, rfl, gives_pure ⟨rfl, List.cons_ne_nil u us,
    fun v hv => hs.plain v (List.mem_cons_of_mem _ hv), fun v hv => hs.this v (List.mem_cons_of_mem _ hv),
    hs.calm⟩ rfl rfl (List.append_nil _).symm⟩

theorem Faces.accept {k : TokenKind} (hs : Faces tail s (t :: us)) (hk : t.kind = k) (hne : us ≠ []) :
    ∃ s', Builder.accept k s = (true, s') ∧ s'.previous = t ∧
      ∀ {α : Type} (a : α), Gives tail s s' us (pure a) a [] := by
  obtain ⟨s', hrun, h⟩ := hs.advance hne
  refine ⟨s', ?_, h⟩
  rw [accept_of_eq (hs.current ▸ hk), hrun]

theorem Faces.expect {e : Expectation} (hs : Faces tail s (t :: us)) (hk : t.kind = e.kind) (hne : us ≠ []) :
    ∃ s', Builder.expect e s = ((), s') ∧ s'.previous = t ∧
      ∀ {α : Type} (a : α), Gives tail s s' us (pure a) a [] := by
  obtain ⟨s', hrun, h⟩ := hs.accept hk hne
  refine ⟨s', ?_, h⟩
  change (if (Builder.accept e.kind s).1 = true then _ else _ : Build Unit)
    (Builder.accept e.kind s).2 = _
  rw [hrun]
  rfl

/-! ## Errors -/

/-- Where an error has been reported nothing is said of the code. -/
theorem gives_error {d : Defect} (hd : d.IsStatic) (hs : Faces tail s us) :
    Gives tail s (error d s).2 us g a code := by
  have hrest : (error d s).2.rest = s.rest := by
    change (s.report _).rest = s.rest
    rw [report]
    split <;> rfl
  have hsome : (error d s).2.errors ≠ #[] := by
    intro hempty
    obtain ⟨hclean, hpanic⟩ := errors_report hempty
    rw [hs.calm hclean] at hpanic
    cases hpanic
  refine ⟨⟨hrest.trans hs.rest, hs.more, hs.plain, hs.this, fun h => absurd h hsome⟩, fun e he => ?_,
    fun h => absurd h hsome, fun h => absurd h hsome⟩
  change e ∈ (s.report _).errors at he
  rw [report] at he
  split at he
  · exact .inl he
  · rcases Array.mem_push.mp he with he | rfl
    · exact .inl he
    · exact .inr hd

theorem Faces.fails_error {d : Defect} (hs : Faces tail s us) (b : β) (hd : d.IsStatic) :
    Gives tail s (error d s).2 us (failure : Generate β) b [] :=
  gives_error hd hs

theorem Gives.error {d : Defect} (h : Gives tail s s₁ us g a code) (hd : d.IsStatic)
    (herrors : s₂.errors = s₁.errors) (hs : Faces tail s₂ us) {g' : Generate β} :
    Gives tail s (error d s₂).2 us g' b code' := by
  have herror := hs.fails_error b hd
  have hsome : (Builder.error d s₂).2.errors ≠ #[] := fun hclean => nomatch (herror.code hclean).1
  exact ⟨herror.stands, fun e he => (herror.static e he).elim (fun he => h.static e (herrors ▸ he)) .inr,
    fun hclean => absurd hclean hsome, fun hclean => absurd hclean hsome⟩

/-! ## Code -/

theorem Faces.emitByte (hs : Faces tail s us) (byte : UInt8) (a : α) :
    Gives tail s (emitByte byte s).2 us (pure a) a [byte] := by
  have hbytes : (Builder.emitByte byte s).2.bytes = s.bytes ++ [byte] := by
    exact Chunk.bytes_write s.body.chunk byte s.previous.line
  have hfaces : Faces tail (Builder.emitByte byte s).2 us := hs.same rfl rfl rfl
  exact gives_pure (s := s) hfaces rfl rfl hbytes a

theorem Faces.emit (hs : Faces tail s us) (op : Opcode) (a : α) :
    Gives tail s (emit op s).2 us (pure a) a [op.toByte] :=
  hs.emitByte op.toByte a

theorem Faces.emitWith (hs : Faces tail s us) (op : Opcode) (operand : Nat) (a : α) :
    Gives tail s (emitWith op operand s).2 us (pure a) a (Generate.operation op operand) := by
  have hop := hs.emit op a
  exact hop.bind (hop.stands.emitByte operand.toUInt8 a)

theorem Faces.makeConstant (hs : Faces tail s us) (v : Value) :
    Gives tail s (makeConstant v s).2 us (Generate.constant v) (makeConstant v s).1 [] := by
  cases hadd : (s.body.chunk.addConstant v).1 with
  | some index =>
      have hbare : s.body.bare.chunk.addConstant v = _ := s.body.chunk.addConstant_bare v
      have hgen : Generate.constant v s.around = _ :=
        Generate.constant_of_some ((congrArg Prod.fst hbare).trans hadd)
      rw [hbare] at hgen
      rw [makeConstant_of_some hadd]
      refine ⟨hs.same rfl rfl rfl, fun e he => .inl he, id, fun _ => ⟨hgen, ?_⟩⟩
      change (s.body.chunk.addConstant v).2.code.toList.map (·.1) = _
      rw [Chunk.code_addConstant, List.append_nil]
      rfl
  | none =>
      rw [makeConstant_of_none hadd, Chunk.addConstant_of_none hadd]
      exact gives_error (d := .tooManyConstants) trivial hs

/-- Where nothing can be generated an error has been reported. -/
theorem Gives.fails (h : Gives tail s s' us g a code) (hg : g s.around = none) {g' : Generate β} :
    Gives tail s s' us g' b code' := by
  have herror : s'.errors ≠ #[] := fun hclean => by
    rw [(h.code hclean).1] at hg
    cases hg
  exact ⟨h.stands, h.static, h.clean, fun hclean => absurd hclean herror⟩

theorem Faces.outside (hs : Faces tail s us) (name : String) (r : Body.Resolution) :
    Gives tail s (outside name r s).2 us (Generate.outside name r) (outside name r s).1 [] := by
  cases r with
  | found i => exact hs.gives_refl _
  | full => exact gives_error (d := .tooManyUpvalues) trivial hs
  | absent =>
      have hrun : Builder.outside name .absent s = (if s.isInitializing name = true then
          error .ownInitializer >>= fun _ => nameConstant name >>= fun k => pure (.global k)
        else nameConstant name >>= fun k => pure (.global k) : Build Variable) s := rfl
      rw [hrun]
      split
      · have herror := hs.fails_error () (d := .ownInitializer) trivial
        exact (herror.then (herror.stands.makeConstant (.string name))).fails rfl
      · exact (hs.makeConstant (.string name)).bind ((hs.makeConstant _).stands.gives_refl _)

theorem Faces.resolve (hs : Faces tail s us) (name : String) :
    Gives tail s (resolve name s).2 us (Generate.variable name) (resolve name s).1 [] := by
  cases hslot : Body.slot? name s.body.locals with
  | some slot =>
      rw [resolve_of_slot hslot]
      exact (hs.gives_refl ()).map fun _ => Generate.variable_of_slot hslot
  | none =>
      have hgen : Generate.variable name s.around = _ :=
        Generate.variable_of_no_slot (b := s.body.bare) hslot
      rw [Body.resolve_bare] at hgen
      rw [resolve_of_no_slot hslot]
      have hbody := (Body.resolve_spec (rfl : Body.resolve name s.body s.outer = _)).body
      have houtside : Gives tail s (resolveOutside name s).2 us
          (fun _ => some ((), (resolveOutside name s).2.around)) () [] := by
        refine ⟨hs.same rfl rfl rfl, fun _ => .inl, id, fun _ => ⟨rfl, ?_⟩⟩
        rw [List.append_nil]
        exact congrArg Chunk.bytes hbody.chunk
      exact (houtside.then (houtside.stands.outside name _)).map fun hg => hgen.trans hg

/-! ## Jumps -/

theorem Faces.emitJump (hs : Faces tail s us) (op : Opcode) (a : α) :
    (emitJump op s).1 = s.bytes.length + 1 ∧
      Gives tail s (emitJump op s).2 us (pure a) a [op.toByte, 0xFF, 0xFF] := by
  refine ⟨congrArg (· + 1) s.body.chunk.length_bytes.symm, ?_⟩
  have hfaces : Faces tail (Builder.emitJump op s).2 us := hs.same rfl rfl rfl
  refine gives_pure (s := s) hfaces rfl rfl ?_ a
  change (((s.body.chunk.write _ _).write _ _).write _ _).bytes = _
  rw [Chunk.bytes_write, Chunk.bytes_write, Chunk.bytes_write, List.append_assoc, List.append_assoc]
  rfl

/-- The distance of a jump is filled in where the code it leads over is there. -/
theorem Gives.patchJump {op : Opcode} {before after : List UInt8} {j : Nat}
    (h : Gives tail s s' us g a (before ++ [op.toByte, 0xFF, 0xFF] ++ after)) (distance : α → Nat)
    (make : α → List UInt8 → β)
    (hj : s'.errors = #[] → j = s.bytes.length + before.length + 1) (hlen : distance a = after.length) :
    ∃ leap, leap.length = 3 ∧ Gives tail s (patchJump j s').2 us
      (do
        let a ← g
        let leap ← Generate.jump op (distance a)
        return make a leap)
      (make a leap) (before ++ leap ++ after) := by
  refine ⟨[op.toByte, Chunk.highByte after.length, Chunk.lowByte after.length], rfl, ?_⟩
  obtain ⟨s₁, hs₁⟩ : ∃ s₁, s₁ =
      { s' with body := { s'.body with chunk := (s'.body.chunk.patchJump j).2 } } := ⟨_, rfl⟩
  have hrun : Builder.patchJump j s' = (if (s'.body.chunk.patchJump j).1 = true then pure ()
      else Builder.error .jumpTooLarge : Build Unit) s₁ := by
    rw [hs₁]
    rfl
  have herrors : s₁.errors = s'.errors := by rw [hs₁]
  have hstands : Faces tail s₁ us := h.stands.same (by rw [hs₁]; rfl) herrors (by rw [hs₁])
  have haround : s₁.around = s'.around := by
    have hbare : (s'.body.chunk.patchJump j).2.bare = s'.body.chunk.bare := by
      rw [Chunk.bare, Chunk.bare, constants_patchJump]
    rw [hs₁, around, around, Body.bare, Body.bare, hbare]
  rw [hrun]
  split
  · rename_i hfits
    refine ⟨hstands, fun e he => h.static e (herrors ▸ he), fun hclean => h.clean (herrors ▸ hclean),
      fun hclean => ?_⟩
    obtain ⟨hg, hbytes⟩ := h.code (herrors ▸ hclean)
    rw [← List.append_assoc, ← List.append_assoc] at hbytes
    have hpatch := Chunk.bytes_patchJump hbytes
    rw [List.length_append, ← hj (herrors ▸ hclean), hfits] at hpatch
    split at hpatch
    · rename_i hnear
      constructor
      · have hjump : Generate.jump op (distance a) s'.around = some
            ([op.toByte, Chunk.highByte after.length, Chunk.lowByte after.length], s'.around) := by
          rw [Generate.jump, hlen, if_pos hnear]
          rfl
        change (g s.around).bind _ = some (_, s₁.around)
        rw [hg, haround]
        change (Generate.jump op (distance a) s'.around).bind _ = _
        rw [hjump]
        rfl
      · rw [← List.append_assoc, ← List.append_assoc]
        change s₁.bytes = _
        rw [hs₁]
        exact hpatch
    · cases hpatch
  · exact h.error (d := .jumpTooLarge) trivial herrors hstands

end Gives

/-- From `s` to `s'` the tokens up to `us` have been read and the code of the tree `e` has been appended. -/
def Yields (tail : List Token) (s s' : Builder) (us : List Token) (e : Expr) : Prop :=
  ∃ code, Gives tail s s' us e.code code code

end Builder

namespace Expression

open Builder

variable {n b count : Nat} {s s₀ : Builder} {t : Token} {tail ts us : List Token} {e left : Expr}
  {es : List Expr} {canAssign : Bool}

/-- Where a tree can be read, the parser of nested expressions yields its code. -/
def Agrees (n : Nat) : Prop :=
  ∀ {p : Power} {s : Builder} {tail ts us : List Token} {e : Expr},
    Reader.read n p ts = some (e, us) → Faces tail s ts → Yields tail s (within n p s).2 us e

theorem ahead_eq (hs : Faces tail s ts) (k : TokenKind) :
    Reader.ahead k ts = decide (s.current.kind = k) := by
  obtain ⟨t, us, rfl⟩ := List.exists_cons_of_ne_nil hs.more
  rw [hs.current]
  rfl

theorem accept_not {k : TokenKind} (hs : Faces tail s ts) (hk : Reader.ahead k ts = false) :
    accept k s = (false, s) := by
  rw [ahead_eq hs] at hk
  exact accept_of_ne (of_decide_eq_false hk)

theorem accept_ahead {k : TokenKind} (hs : Faces tail s ts) (hk : Reader.ahead k ts = true)
    (hnext : Reader.next? ts = some (t, us)) :
    ∃ s', accept k s = (true, s') ∧ ∀ {α : Type} (a : α), Gives tail s s' us (pure a) a [] := by
  obtain ⟨rfl, hne⟩ := Reader.next?_eq_some hnext
  rw [ahead_eq hs] at hk
  obtain ⟨s', hrun, -, h⟩ := hs.accept (hs.current ▸ of_decide_eq_true hk) hne
  exact ⟨s', hrun, h⟩

theorem assigns_not (hs : Faces tail s ts) (h : (canAssign && Reader.ahead .equal ts) ≠ true) :
    assigns canAssign s = (false, s) := by
  cases canAssign with
  | false => rfl
  | true => exact accept_not hs (by simpa using h)

theorem assigns_ahead (hs : Faces tail s ts) (h : (canAssign && Reader.ahead .equal ts) = true)
    (hnext : Reader.next? ts = some (t, us)) :
    ∃ s', assigns canAssign s = (true, s') ∧ ∀ {α : Type} (a : α), Gives tail s s' us (pure a) a [] := by
  obtain ⟨rfl, hequal⟩ := Bool.and_eq_true_iff.mp h
  exact accept_ahead hs hequal hnext

/-! ## Arguments -/

/-- A limit on what has been read is checked. -/
theorem check_limit {α β : Type} {s₁ : Builder} {g : Generate α} {a : α} {code : List UInt8} {c : Prop}
    [Decidable c] {d : Defect} (hd : d.IsStatic) (h : Gives tail s s₁ us g a code) (k : Build β) :
    ∃ s₂, (if c then error d >>= fun _ => k else k : Build β) s₁ = k s₂ ∧ Gives tail s s₂ us g a code ∧
      (s₂.errors = #[] → ¬ c) := by
  split
  · have herror : Gives tail s _ us (failure : Generate Unit) () [] := h.error hd rfl h.stands
    exact ⟨_, rfl, herror.fails rfl, fun hclean => nomatch (herror.code hclean).1⟩
  · rename_i hc
    exact ⟨s₁, rfl, h, fun _ => hc⟩

theorem argumentsFrom_gives (hn : Agrees n) (count : Nat)
    (h : Reader.argumentsFrom (Reader.read n) b ts = some (es, us)) (hs : Faces tail s ts) :
    (argumentsFrom (within n) b count s).1 = count + es.length ∧
      ∃ code, Gives tail s (argumentsFrom (within n) b count s).2 us (codeOfAll es) code code ∧
        ((argumentsFrom (within n) b count s).2.errors = #[] → count ≤ maxArguments →
          count + es.length ≤ maxArguments) := by
  induction b generalizing count s ts es with
  | zero => cases h
  | succ b ih =>
      simp only [Reader.argumentsFrom, Option.bind_eq_bind, Option.bind_eq_some_iff, Prod.exists] at h
      obtain ⟨e, us₁, hread, h⟩ := h
      obtain ⟨x, hx⟩ := hn hread hs
      have hrun : argumentsFrom (within n) (b + 1) count s = (if count = maxArguments then
          error .tooManyArguments >>= fun _ => accept .comma >>= fun more =>
            if more = true then argumentsFrom (within n) b (count + 1) else pure (count + 1)
        else accept .comma >>= fun more =>
          if more = true then argumentsFrom (within n) b (count + 1) else pure (count + 1) : Build Nat)
            (within n .assignment s).2 := rfl
      obtain ⟨s₂, hrun₂, hx₂, hlimit⟩ := check_limit (c := count = maxArguments) (d := .tooManyArguments)
        trivial hx (accept .comma >>= fun more =>
          if more = true then argumentsFrom (within n) b (count + 1) else pure (count + 1))
      rw [hrun, hrun₂]
      split at h
      · rename_i hcomma
        simp only [Option.bind_eq_some_iff, Prod.exists, Option.pure_def, Option.some.injEq,
          Prod.mk.injEq] at h
        obtain ⟨comma, us₂, hnext, es', us₃, hrest, rfl, rfl⟩ := h
        obtain ⟨s₃, haccept, hread₃⟩ := accept_ahead hx₂.stands hcomma hnext
        obtain ⟨hcount, ys, hys, hfits⟩ := ih (count + 1) hrest (hread₃ ()).stands
        rw [bind_of_run haccept, if_pos rfl, hcount, List.length_cons]
        refine ⟨Nat.add_right_comm .., x ++ ys, ?_, fun hclean hle => ?_⟩
        · rw [codeOfAll]
          exact hx₂.bind (((hread₃ ()).behind hys).answer (x ++ ·))
        · have hclean₂ := (hread₃ ()).clean (hys.clean hclean)
          have hle' := hfits hclean (Nat.lt_of_le_of_ne hle (hlimit hclean₂))
          omega
      · rename_i hcomma
        obtain ⟨rfl, rfl⟩ := Prod.mk.inj (Option.some.inj h)
        rw [bind_of_run (accept_not hx₂.stands (by simpa using hcomma))]
        refine ⟨rfl, x, ?_, fun hclean hle => Nat.lt_of_le_of_ne hle (hlimit hclean)⟩
        have hone : codeOfAll [e] = e.code := by
          rw [codeOfAll, codeOfAll]
          simp
        rw [hone]
        exact hx₂

/-- Arguments are read up to the parenthesis that closes them, and their number fits a byte. -/
theorem arguments_run (hn : Agrees n) (h : Reader.arguments n (Reader.read n) ts = some (es, us))
    (hs : Faces tail s ts) : ∃ count code s', arguments n (within n) s = (count, s') ∧
      Gives tail s s' us (codeOfAll es) code code ∧
      Gives tail s' s' us (Generate.argumentCount es.length) count [] := by
  simp only [Reader.arguments, Option.bind_eq_bind, Option.bind_eq_some_iff, Prod.exists, Option.pure_def,
    Option.some.injEq, Prod.mk.injEq] at h
  obtain ⟨es, us₁, hread, r, us₂, hclose, rfl, rfl⟩ := h
  obtain ⟨rfl, hne, hr⟩ := Reader.take?_eq_some hclose
  -- What has been read so far, and the limit on it.
  obtain ⟨code, s₁, hrun, hcode, hfits⟩ : ∃ code s₁,
      arguments n (within n) s = (min es.length maxArguments, (expect .argumentsClose s₁).2) ∧
        Gives tail s s₁ (r :: us₂) (codeOfAll es) code code ∧
        (s₁.errors = #[] → es.length ≤ maxArguments) := by
    have hrun : arguments n (within n) s = (do
        let count ← if Reader.ahead .rightParen ts = true then pure 0 else argumentsFrom (within n) n 0
        expect .argumentsClose
        return min count maxArguments : Build Nat) s := by
      rw [ahead_eq hs]
      rfl
    rw [hrun]
    split at hread
    · rename_i hempty
      obtain ⟨rfl, rfl⟩ := Prod.mk.inj (Option.some.inj hread)
      rw [if_pos hempty]
      exact ⟨[], s, rfl, hs.gives_refl [], fun _ => Nat.zero_le _⟩
    · rename_i hsome
      obtain ⟨hcount, code, hcode, hfits⟩ := argumentsFrom_gives hn 0 hread hs
      rw [if_neg hsome]
      refine ⟨code, _, ?_, hcode, fun hclean => by simpa using hfits hclean (Nat.zero_le _)⟩
      rw [← Nat.zero_add es.length, ← hcount]
      rfl
  obtain ⟨s', hexpect, -, hs'⟩ := hcode.stands.expect (e := .argumentsClose) hr hne
  have hall := (hcode.before (hs' code)).congr (List.append_nil code)
  refine ⟨min es.length maxArguments, code, s', by rw [hrun, hexpect], hall, hall.stands, fun e => .inl, id,
    fun hclean => ⟨?_, (List.append_nil _).symm⟩⟩
  have hle := hfits ((hs' ()).clean hclean)
  rw [Generate.argumentCount, if_pos hle, Nat.min_eq_left hle]
  rfl

/-! ## What begins an expression -/

theorem Faces.readNamed (hs : Faces tail s us) (name : String) :
    ∃ code, Gives tail s (readNamed name s).2 us (Generate.reading name) code code := by
  have hname := hs.resolve name
  have hemit := hname.stands.emitWith (resolve name s).1.getOp (resolve name s).1.operand
    (Generate.operation (resolve name s).1.getOp (resolve name s).1.operand)
  exact ⟨_, hname.bind hemit⟩

theorem emitConstant_yields (hs : Faces tail s us) (v : Value) (hv : e.code = (do
    let k ← Generate.constant v
    return Generate.operation .constant k)) : Yields tail s (emitConstant v s).2 us e := by
  have hconstant := hs.makeConstant v
  have hemit := hconstant.stands.emitWith .constant (makeConstant v s).1
    (Generate.operation .constant (makeConstant v s).1)
  exact ⟨_, hv ▸ hconstant.bind hemit⟩

theorem emit_yields (hs : Faces tail s us) (op : Opcode) (he : e.code = pure [op.toByte]) :
    Yields tail s (emit op s).2 us e :=
  ⟨_, he ▸ hs.emit op [op.toByte]⟩

theorem named_yields (hn : Agrees n) {name : String}
    (h : Reader.named (Reader.read n) canAssign name ts = some (e, us)) (hs : Faces tail s ts) :
    Yields tail s (named (within n) name canAssign s).2 us e := by
  have hname := hs.resolve name
  have hrun : named (within n) name canAssign s = (assigns canAssign >>= fun write =>
      if write = true then within n .assignment >>= fun _ =>
        emitWith (resolve name s).1.setOp (resolve name s).1.operand
      else emitWith (resolve name s).1.getOp (resolve name s).1.operand : Build Unit)
        (resolve name s).2 := rfl
  rw [hrun]
  rw [Reader.named] at h
  split at h
  · rename_i hassign
    simp only [Option.bind_eq_bind, Option.bind_eq_some_iff, Prod.exists, Option.pure_def,
      Option.some.injEq, Prod.mk.injEq] at h
    obtain ⟨t, us₁, hnext, e, us₂, hread, rfl, rfl⟩ := h
    obtain ⟨s₁, hrun₁, hs₁⟩ := assigns_ahead hname.stands hassign hnext
    obtain ⟨x, hx⟩ := hn hread (hs₁ ()).stands
    rw [bind_of_run hrun₁, if_pos rfl]
    have hemit := hx.stands.emitWith (resolve name s).1.setOp (resolve name s).1.operand
      (x ++ Generate.operation (resolve name s).1.setOp (resolve name s).1.operand)
    refine ⟨x ++ Generate.operation (resolve name s).1.setOp (resolve name s).1.operand, ?_⟩
    rw [Expr.code]
    exact hname.bind (((hs₁ ()).behind hx).bind hemit)
  · rename_i hassign
    obtain ⟨rfl, rfl⟩ := Prod.mk.inj (Option.some.inj h)
    rw [bind_of_run (assigns_not hname.stands hassign), if_neg (by simp)]
    have hemit := hname.stands.emitWith (resolve name s).1.getOp (resolve name s).1.operand
      (Generate.operation (resolve name s).1.getOp (resolve name s).1.operand)
    exact ⟨_, hname.bind hemit⟩

theorem grouping_yields (hn : Agrees n) {r : Token} {us₁ : List Token}
    (h : Reader.read n .assignment ts = some (e, us₁)) (hr : Reader.take? .rightParen us₁ = some (r, us))
    (hs : Faces tail s ts) : Yields tail s (grouping (within n) s).2 us (.grouping e) := by
  obtain ⟨rfl, hne, hr⟩ := Reader.take?_eq_some hr
  obtain ⟨x, hx⟩ := hn h hs
  obtain ⟨s', hexpect, -, hs'⟩ := hx.stands.expect (e := .groupClose) hr hne
  have hrun : grouping (within n) s = expect .groupClose (within n .assignment s).2 := rfl
  rw [hrun, hexpect]
  exact ⟨x, by rw [Expr.code]; exact (hx.before (hs' x)).congr (List.append_nil x)⟩

theorem unary_yields (hn : Agrees n) (op : UnaryOp) (h : Reader.read n .unary ts = some (e, us))
    (hs : Faces tail s ts) : Yields tail s (unary (within n) op.code s).2 us (.unary op e) := by
  obtain ⟨x, hx⟩ := hn h hs
  refine ⟨x ++ [op.code.toByte], ?_⟩
  rw [Expr.code]
  exact hx.bind (hx.stands.emit op.code (x ++ [op.code.toByte]))

theorem this_yields (hs : Faces tail s us) (hprevious : s.previous.text = "this") :
    Yields tail s (this s).2 us .this := by
  have hrun : Expression.this s = (if s.classes.isEmpty = true then error .thisOutsideClass
    else lastText >>= fun name => readNamed name : Build Unit) s := rfl
  rw [hrun]
  split
  · exact ⟨[], gives_error (d := .thisOutsideClass) trivial hs⟩
  · change Yields tail s (readNamed s.previous.text s).2 us .this
    rw [hprevious]
    obtain ⟨code, h⟩ := Faces.readNamed hs "this"
    exact ⟨code, by rw [Expr.code]; exact h⟩

/-! ### Members of superclasses -/

theorem constant_runs (hs : Faces tail s us) (v : Value) :
    ∃ k s', makeConstant v s = (k, s') ∧ Gives tail s s' us (Generate.constant v) k [] :=
  ⟨_, _, rfl, hs.makeConstant v⟩

theorem named_runs (hs : Faces tail s us) (name : String) :
    ∃ code s', readNamed name s = ((), s') ∧ Gives tail s s' us (Generate.reading name) code code :=
  (Faces.readNamed hs name).elim fun code h => ⟨code, _, rfl, h⟩

theorem emitWith_runs (hs : Faces tail s us) (op : Opcode) (operand : Nat) :
    ∃ s', emitWith op operand s = ((), s') ∧
      ∀ {α : Type} (a : α), Gives tail s s' us (pure a) a (Generate.operation op operand) :=
  ⟨_, rfl, hs.emitWith op operand⟩

theorem emitInvoke_runs (hs : Faces tail s us) (op : Opcode) (k count : Nat) :
    ∃ s', (emitWith op k >>= fun _ => emitByte count.toUInt8) s = ((), s') ∧
      ∀ {α : Type} (a : α), Gives tail s s' us (pure a) a (Generate.operation op k ++ [count.toUInt8]) := by
  obtain ⟨s₁, hrun, hs₁⟩ := emitWith_runs hs op k
  refine ⟨(emitByte count.toUInt8 s₁).2, by rw [bind_of_run hrun]; rfl, fun a => ?_⟩
  exact (hs₁ a).bind ((hs₁ a).stands.emitByte count.toUInt8 a)

theorem superName_yields (hn : Agrees n) (h : Reader.super n (Reader.read n) ts = some (e, us))
    (hs : Faces tail s ts) : Yields tail s (superName n s).2 us e := by
  simp only [Reader.super, Option.bind_eq_bind, Option.bind_eq_some_iff, Prod.exists] at h
  obtain ⟨dot, us₁, htake, name, us₂, htake', h⟩ := h
  obtain ⟨rfl, hne, hdot⟩ := Reader.take?_eq_some htake
  obtain ⟨rfl, hne', hname⟩ := Reader.take?_eq_some htake'
  obtain ⟨s₁, hrun₁, -, hs₁⟩ := hs.expect (e := .superDot) hdot hne
  obtain ⟨s₂, hrun₂, hprevious, hs₂⟩ := (hs₁ ()).stands.expect (e := .superclassMethodName) hname hne'
  obtain ⟨k, s₃, hrun₃, hk⟩ := constant_runs (hs₂ ()).stands (.string name.text)
  obtain ⟨this, s₄, hrun₄, hthis⟩ := named_runs hk.stands "this"
  have hrun : superName n s = superMember n k s₄ := by
    rw [superName, bind_of_run hrun₁, bind_of_run hrun₂, bind_of_run (lastText_run s₂), hprevious,
      nameConstant, bind_of_run hrun₃, bind_of_run hrun₄]
  rw [hrun, superMember]
  split at h
  · rename_i hcall
    simp only [Option.bind_eq_some_iff, Prod.exists, Option.pure_def, Option.some.injEq,
      Prod.mk.injEq] at h
    obtain ⟨l, us₃, hnext, as, us₄, has, rfl, rfl⟩ := h
    obtain ⟨s₅, hrun₅, hs₅⟩ := accept_ahead hthis.stands hcall hnext
    obtain ⟨count, ys, s₆, hrun₆, hys, hcount⟩ := arguments_run hn has (hs₅ ()).stands
    obtain ⟨superclass, s₇, hrun₇, hsuper⟩ := named_runs hys.stands "super"
    obtain ⟨s₈, hrun₈, hs₈⟩ := emitInvoke_runs hsuper.stands .superInvoke k count
    rw [bind_of_run hrun₅, if_pos rfl, bind_of_run hrun₆, bind_of_run hrun₇, hrun₈]
    have hop := hs₈ (this ++ ys ++ superclass ++ Generate.operation .superInvoke k ++ [count.toUInt8])
    refine ⟨this ++ ys ++ superclass ++ Generate.operation .superInvoke k ++ [count.toUInt8], ?_⟩
    rw [Expr.code]
    exact ((hs₁ ()).behind ((hs₂ ()).behind (hk.bind (hthis.bind
      (((hs₅ ()).behind hys).bind (hcount.bind (hsuper.bind hop))))))).congr (by simp)
  · rename_i hread
    obtain ⟨rfl, rfl⟩ := Prod.mk.inj (Option.some.inj h)
    obtain ⟨superclass, s₅, hrun₅, hsuper⟩ := named_runs hthis.stands "super"
    obtain ⟨s₆, hrun₆, hs₆⟩ := emitWith_runs hsuper.stands .getSuper k
    rw [bind_of_run (accept_not hthis.stands (by simpa using hread)), if_neg (by simp), bind_of_run hrun₅,
      hrun₆]
    have hop := hs₆ (this ++ superclass ++ Generate.operation .getSuper k)
    refine ⟨this ++ superclass ++ Generate.operation .getSuper k, ?_⟩
    rw [Expr.code]
    exact ((hs₁ ()).behind ((hs₂ ()).behind (hk.bind (hthis.bind (hsuper.bind hop))))).congr (by simp)

theorem super_yields (hn : Agrees n) (h : Reader.super n (Reader.read n) ts = some (e, us))
    (hs : Faces tail s ts) : Yields tail s (super n (within n) s).2 us e := by
  by_cases hclass : s.classes.head? = some true
  · rw [super_run hclass]
    exact superName_yields hn h hs
  · obtain ⟨d, hd, hrun⟩ := super_refused (n := n) hclass
    have herror := hs.fails_error () hd
    obtain ⟨code, hcode⟩ := superName_yields hn h herror.stands
    rw [hrun]
    exact ⟨code, (herror.then hcode).fails rfl⟩

/-- Tree and code begin alike. -/
theorem opening_yields (hn : Agrees n)
    (h : Reader.opening n (Reader.read n) canAssign t ts = some (e, us)) (hs : Faces tail s ts)
    (hprevious : s.previous = t) (hthis : t.kind = .kwThis → t.text = "this") :
    ∃ x, opening n (within n) canAssign t.kind = some x ∧ Yields tail s (x s).2 us e := by
  rw [Reader.opening] at h
  split at h
  · rename_i hk
    simp only [Option.bind_eq_bind, Option.bind_eq_some_iff, Prod.exists, Option.pure_def,
      Option.some.injEq, Prod.mk.injEq] at h
    obtain ⟨e, us₁, hread, r, us₂, hr, rfl, rfl⟩ := h
    exact ⟨_, by rw [hk]; rfl, grouping_yields hn hread hr hs⟩
  · rename_i hk
    simp only [Option.bind_eq_bind, Option.bind_eq_some_iff, Prod.exists, Option.pure_def,
      Option.some.injEq, Prod.mk.injEq] at h
    obtain ⟨e, us₁, hread, rfl, rfl⟩ := h
    exact ⟨_, by rw [hk]; rfl, unary_yields hn .negate hread hs⟩
  · rename_i hk
    simp only [Option.bind_eq_bind, Option.bind_eq_some_iff, Prod.exists, Option.pure_def,
      Option.some.injEq, Prod.mk.injEq] at h
    obtain ⟨e, us₁, hread, rfl, rfl⟩ := h
    exact ⟨_, by rw [hk]; rfl, unary_yields hn .not hread hs⟩
  · rename_i hk
    refine ⟨_, by rw [hk]; rfl, ?_⟩
    change Yields tail s (named (within n) s.previous.text canAssign s).2 us e
    rw [hprevious]
    exact named_yields hn h hs
  · rename_i hk
    obtain ⟨rfl, rfl⟩ := Prod.mk.inj (Option.some.inj h)
    refine ⟨_, by rw [hk]; rfl, ?_⟩
    change Yields tail s (emitConstant (.string s.previous.contents) s).2 ts _
    rw [hprevious]
    exact emitConstant_yields hs _ (by rw [Expr.code])
  · rename_i hk
    obtain ⟨m, hm, heq⟩ := Option.map_eq_some_iff.mp h
    obtain ⟨rfl, rfl⟩ := Prod.mk.inj heq
    refine ⟨number, by rw [hk]; rfl, ?_⟩
    rw [number_of_literal (hprevious ▸ hm)]
    exact emitConstant_yields hs _ (by rw [Expr.code])
  · rename_i hk
    obtain ⟨rfl, rfl⟩ := Prod.mk.inj (Option.some.inj h)
    exact ⟨_, by rw [hk]; rfl, emit_yields hs .litFalse (by rw [Expr.code]; rfl)⟩
  · rename_i hk
    obtain ⟨rfl, rfl⟩ := Prod.mk.inj (Option.some.inj h)
    exact ⟨_, by rw [hk]; rfl, emit_yields hs .litTrue (by rw [Expr.code]; rfl)⟩
  · rename_i hk
    obtain ⟨rfl, rfl⟩ := Prod.mk.inj (Option.some.inj h)
    exact ⟨_, by rw [hk]; rfl, emit_yields hs .litNil (by rw [Expr.code])⟩
  · rename_i hk
    exact ⟨_, by rw [hk]; rfl, super_yields hn h hs⟩
  · rename_i hk
    obtain ⟨rfl, rfl⟩ := Prod.mk.inj (Option.some.inj h)
    exact ⟨_, by rw [hk]; rfl, this_yields hs (by rw [hprevious, hthis hk])⟩
  · cases h

/-! ## What continues an expression -/

theorem property_yields (hn : Agrees n)
    (h : Reader.property n (Reader.read n) canAssign left ts = some (e, us)) {code : List UInt8}
    (hleft : Gives tail s₀ s ts left.code code code) :
    Yields tail s₀ (property n (within n) canAssign s).2 us e := by
  simp only [Reader.property, Option.bind_eq_bind, Option.bind_eq_some_iff, Prod.exists] at h
  obtain ⟨name, us₁, htake, h⟩ := h
  obtain ⟨rfl, hne, hname⟩ := Reader.take?_eq_some htake
  obtain ⟨s₁, hrun₁, hprevious, hs₁⟩ := hleft.stands.expect (e := .propertyName) hname hne
  obtain ⟨k, s₂, hrun₂, hk⟩ := constant_runs (hs₁ ()).stands (.string name.text)
  have hrun : property n (within n) canAssign s = member n canAssign k s₂ := by
    rw [property_eq, bind_of_run hrun₁, bind_of_run (lastText_run s₁), hprevious, nameConstant,
      bind_of_run hrun₂]
  rw [hrun, member]
  split at h
  · rename_i hassign
    simp only [Option.bind_eq_some_iff, Prod.exists, Option.pure_def, Option.some.injEq,
      Prod.mk.injEq] at h
    obtain ⟨t, us₂, hnext, e, us₃, hread, rfl, rfl⟩ := h
    obtain ⟨s₃, hrun₃, hs₃⟩ := assigns_ahead hk.stands hassign hnext
    obtain ⟨x, hx⟩ := hn hread (hs₃ ()).stands
    rw [bind_of_run hrun₃, if_pos rfl]
    have hop := hx.stands.emitWith .setProperty k (code ++ x ++ Generate.operation .setProperty k)
    refine ⟨code ++ x ++ Generate.operation .setProperty k, ?_⟩
    rw [Expr.code]
    exact (hleft.bind (((hs₁ ()).behind hk).bind (((hs₃ ()).behind hx).bind hop))).congr (by simp)
  · rename_i hassign
    rw [bind_of_run (assigns_not hk.stands hassign), if_neg (by simp)]
    split at h
    · rename_i hcall
      simp only [Option.bind_eq_some_iff, Prod.exists, Option.pure_def, Option.some.injEq,
        Prod.mk.injEq] at h
      obtain ⟨l, us₂, hnext, as, us₃, has, rfl, rfl⟩ := h
      obtain ⟨s₃, hrun₃, hs₃⟩ := accept_ahead hk.stands hcall hnext
      obtain ⟨count, ys, s₄, hrun₄, hys, hcount⟩ := arguments_run hn has (hs₃ ()).stands
      obtain ⟨s₅, hrun₅, hs₅⟩ := emitInvoke_runs hys.stands .invoke k count
      rw [bind_of_run hrun₃, if_pos rfl, bind_of_run hrun₄, hrun₅]
      have hop := hs₅ (code ++ ys ++ Generate.operation .invoke k ++ [count.toUInt8])
      refine ⟨code ++ ys ++ Generate.operation .invoke k ++ [count.toUInt8], ?_⟩
      rw [Expr.code]
      exact (hleft.bind (((hs₁ ()).behind hk).bind (((hs₃ ()).behind hys).bind
        (hcount.bind hop)))).congr (by simp)
    · rename_i hread
      obtain ⟨rfl, rfl⟩ := Prod.mk.inj (Option.some.inj h)
      rw [bind_of_run (accept_not hk.stands (by simpa using hread)), if_neg (by simp)]
      have hop := hk.stands.emitWith .getProperty k (code ++ Generate.operation .getProperty k)
      refine ⟨code ++ Generate.operation .getProperty k, ?_⟩
      rw [Expr.code]
      exact (hleft.bind (((hs₁ ()).behind hk).bind hop)).congr (by simp)

theorem call_yields (hn : Agrees n) (hproperty : left.isProperty = false)
    (h : Reader.arguments n (Reader.read n) ts = some (es, us)) {code : List UInt8}
    (hleft : Gives tail s₀ s ts left.code code code) :
    Yields tail s₀ (call n (within n) s).2 us (.call left es) := by
  obtain ⟨count, ys, s₁, hrun₁, hys, hcount⟩ := arguments_run hn h hleft.stands
  have hrun : call n (within n) s = emitWith .call count s₁ := by rw [call, bind_of_run hrun₁]
  have hcode : (Expr.call left es).code = (do
      let x ← left.code
      let ys ← codeOfAll es
      let count ← Generate.argumentCount es.length
      return x ++ ys ++ Generate.operation .call count) := by
    cases left with
    | get | super => cases hproperty
    | _ => rfl
  have hop := hys.stands.emitWith .call count (code ++ ys ++ Generate.operation .call count)
  rw [hrun]
  refine ⟨code ++ ys ++ Generate.operation .call count, ?_⟩
  rw [hcode]
  exact (hleft.bind (hys.bind (hcount.bind hop))).congr (by simp)

theorem operations_run (hs : Faces tail s us) (op : BinaryOp) {α : Type} (a : α) :
    Gives tail s ((operations op.kind).forM emit s).2 us (pure a) a op.bytes := by
  rw [BinaryOp.operations_kind, BinaryOp.bytes]
  have hop := hs.emit op.code a
  split
  · exact hop.before (hop.stands.emit .not a)
  · exact hop

theorem binary_yields (hn : Agrees n) {op : BinaryOp} (h : Reader.read n op.power.next ts = some (e, us))
    {code : List UInt8} (hleft : Gives tail s₀ s ts left.code code code) :
    Yields tail s₀ (binary (within n) op.kind s).2 us (.binary op left e) := by
  obtain ⟨y, hy⟩ := hn h hleft.stands
  have hops := operations_run hy.stands op (code ++ y ++ op.bytes)
  refine ⟨code ++ y ++ op.bytes, ?_⟩
  rw [Expr.code, binary, op.ofKind_kind]
  exact (hleft.bind (hy.bind hops)).congr (by simp)

/-- The jump leads over the right operand and the removal of the left one. -/
theorem and_yields (hn : Agrees n) (h : Reader.read n .and ts = some (e, us)) {code : List UInt8}
    (hleft : Gives tail s₀ s ts left.code code code) :
    Yields tail s₀ (and (within n) s).2 us (.and left e) := by
  obtain ⟨hj, hjump⟩ := hleft.stands.emitJump .jumpIfFalse ()
  have hpop := hjump.stands.emit .pop ()
  obtain ⟨y, hy⟩ := hn h hpop.stands
  have hright : Gives tail s _ us e.code y
      ([] ++ [Opcode.jumpIfFalse.toByte, 0xFF, 0xFF] ++ Opcode.pop.toByte :: y) :=
    hjump.behind (hpop.behind hy)
  obtain ⟨leap, -, hover⟩ := hright.patchJump (fun y => y.length + 1)
    (fun y leap => code ++ leap ++ Opcode.pop.toByte :: y) (fun _ => hj) rfl
  refine ⟨code ++ leap ++ Opcode.pop.toByte :: y, ?_⟩
  rw [Expr.code]
  exact (hleft.bind hover).congr (by simp)

/-- One jump leads over another one, and that one over the right operand and the removal of the left one. -/
theorem or_yields (hn : Agrees n) (h : Reader.read n .or ts = some (e, us)) {code : List UInt8}
    (hleft : Gives tail s₀ s ts left.code code code) :
    Yields tail s₀ (or (within n) s).2 us (.or left e) := by
  obtain ⟨hj, hjump⟩ := hleft.stands.emitJump .jumpIfFalse ()
  obtain ⟨hj', hjump'⟩ := hjump.stands.emitJump .jump ()
  have hjumps : Gives tail s _ ts (pure () : Generate Unit) ()
      ([] ++ [Opcode.jumpIfFalse.toByte, 0xFF, 0xFF] ++ [Opcode.jump.toByte, 0xFF, 0xFF]) :=
    hjump.behind hjump'
  obtain ⟨skip, hlen, hskip⟩ := hjumps.patchJump (fun _ => 3) (fun _ skip => skip) (fun _ => hj) rfl
  have hpop := hskip.stands.emit .pop skip
  obtain ⟨y, hy⟩ := hn h hpop.stands
  have hboth := (hskip.before hpop).bind (f := fun skip => e.code >>= fun y => pure (skip, y))
    (hy.answer fun y => (skip, y))
  have hcode : [] ++ skip ++ [Opcode.jump.toByte, 0xFF, 0xFF] ++ [Opcode.pop.toByte] ++ y =
      skip ++ [Opcode.jump.toByte, 0xFF, 0xFF] ++ Opcode.pop.toByte :: y := by simp
  have hright := hboth.congr hcode
  have hoffset : (within n .or (emit .pop _).2).2.errors = #[] →
      (emitJump .jump (emitJump .jumpIfFalse s).2).1 = s.bytes.length + skip.length + 1 := fun hclean => by
    have hclean' := hjump'.clean (hskip.clean (hpop.clean (hy.clean hclean)))
    rw [hj', (hjump.code hclean').2, hlen, List.length_append]
    rfl
  obtain ⟨leap, -, hover⟩ := hright.patchJump (fun a => a.2.length + 1)
    (fun a leap => code ++ a.1 ++ leap ++ Opcode.pop.toByte :: a.2) hoffset rfl
  refine ⟨code ++ skip ++ leap ++ Opcode.pop.toByte :: y, ?_⟩
  rw [Expr.code]
  simp only [bind_assoc, pure_bind] at hover
  exact (hleft.bind hover).congr (by simp)

/-- Tree and code go on alike. -/
theorem continuation_yields (hn : Agrees n)
    (h : Reader.continuation n (Reader.read n) canAssign left t ts = some (e, us)) {code : List UInt8}
    (hleft : Gives tail s₀ s ts left.code code code) :
    Yields tail s₀ (continuation n (within n) canAssign t.kind s).2 us e := by
  rw [Reader.continuation] at h
  split at h
  · rename_i hk
    cases hproperty : left.isProperty with
    | true =>
        rw [hproperty] at h
        cases h
    | false =>
        simp only [hproperty, Bool.false_eq_true, if_false, Option.bind_eq_bind, Option.pure_def,
          Option.bind_eq_some_iff, Prod.exists, Option.some.injEq, Prod.mk.injEq] at h
        obtain ⟨as, us₁, has, rfl, rfl⟩ := h
        rw [hk]
        exact call_yields hn hproperty has hleft
  · rename_i hk
    rw [hk]
    exact property_yields hn h hleft
  · rename_i hk
    simp only [Option.bind_eq_bind, Option.bind_eq_some_iff, Prod.exists, Option.pure_def,
      Option.some.injEq, Prod.mk.injEq] at h
    obtain ⟨e, us₁, hread, rfl, rfl⟩ := h
    rw [hk]
    exact and_yields hn hread hleft
  · rename_i hk
    simp only [Option.bind_eq_bind, Option.bind_eq_some_iff, Prod.exists, Option.pure_def,
      Option.some.injEq, Prod.mk.injEq] at h
    obtain ⟨e, us₁, hread, rfl, rfl⟩ := h
    rw [hk]
    exact or_yields hn hread hleft
  · simp only [Option.bind_eq_bind, Option.bind_eq_some_iff, Prod.exists, Option.pure_def,
      Option.some.injEq, Prod.mk.injEq] at h
    obtain ⟨op, hop, e, us₁, hread, rfl, rfl⟩ := h
    have hrun : continuation n (within n) canAssign op.kind = binary (within n) op.kind := by
      cases op <;> rfl
    rw [BinaryOp.kind_of_ofKind? hop, hrun]
    exact binary_yields hn hread hleft

theorem continues_run (p : Power) (s : Builder) :
    (do return p ≤ Power.ofKind (← get).current.kind : Build Bool) s =
      (decide (p ≤ Power.ofKind s.current.kind), s) :=
  rfl

/-- An operator that does not bind tightly enough stops the parser, as does anything that is none. -/
theorem rest_stops {p : Power} (hp : ¬ p ≤ Power.ofKind s.current.kind)
    (hequal : ¬ (p ≤ .assignment ∧ s.current.kind = .equal)) : rest n p b s = ((), s) := by
  have hassigns : assigns (p ≤ .assignment) s = (false, s) := by
    rw [assigns]
    split
    · exact accept_of_ne fun hkind => hequal ⟨of_decide_eq_true (by assumption), hkind⟩
    · rfl
  have hcond := continues_run p s
  rw [decide_eq_false hp] at hcond
  rw [rest, bind_of_run (repeatWhile_stop hcond), bind_of_run hassigns]
  rfl

theorem rest_continues {p : Power} (hp : p ≤ Power.ofKind s.current.kind) :
    rest n p (b + 1) s = rest n p b (continuation n (within n) (p ≤ .assignment)
      (advance s).2.previous.kind (advance s).2).2 := by
  have hcond := continues_run p s
  rw [decide_eq_true hp] at hcond
  have hbody : repeatWhile _ (do
      advance
      continuation n (within n) (p ≤ .assignment) (← get).previous.kind) (b + 1) s = _ :=
    repeatWhile_step hcond
  rw [rest, bind_run_congr hbody]
  rfl

theorem rest_yields (hn : Agrees n) {p : Power}
    (h : Reader.rest n (Reader.read n) p b left ts = some (e, us)) {code : List UInt8}
    (hleft : Gives tail s₀ s ts left.code code code) : Yields tail s₀ (rest n p b s).2 us e := by
  induction b generalizing left ts s code with
  | zero => cases h
  | succ b ih =>
      obtain _ | ⟨t, ts⟩ := ts
      · cases h
      rw [Reader.rest] at h
      have hcurrent := hleft.stands.current
      split at h
      · rename_i hp
        simp only [Option.bind_eq_bind, Option.bind_eq_some_iff, Prod.exists] at h
        obtain ⟨t', us₁, hnext, e', us₂, hcont, hrest⟩ := h
        obtain ⟨heq, hne⟩ := Reader.next?_eq_some hnext
        obtain ⟨rfl, rfl⟩ := List.cons.inj heq
        obtain ⟨s₁, hadvance, hprevious, hs₁⟩ := hleft.stands.advance hne
        have hrun : rest n p (b + 1) s =
            rest n p b (continuation n (within n) (p ≤ .assignment) t.kind s₁).2 := by
          rw [rest_continues (by rw [hcurrent]; exact hp), hadvance, hprevious]
        obtain ⟨code', hcode'⟩ := continuation_yields hn hcont ((hleft.before (hs₁ code)).congr
          (List.append_nil code))
        rw [hrun]
        exact ih hrest hcode'
      · rename_i hp
        split at h
        · cases h
        · rename_i hequal
          obtain ⟨rfl, rfl⟩ := Prod.mk.inj (Option.some.inj h)
          rw [rest_stops (by rw [hcurrent]; exact hp) (by rw [hcurrent]; exact hequal)]
          exact ⟨code, hleft⟩

/-- Where a tree can be read, the parser yields its code. -/
theorem within_yields (n : Nat) : Agrees n := by
  induction n with
  | zero =>
      intro p s tail ts us e h
      cases h
  | succ n ih =>
      intro p s tail ts us e h hs
      simp only [Reader.read, Option.bind_eq_bind, Option.bind_eq_some_iff, Prod.exists] at h
      obtain ⟨t, us₁, hnext, left, us₂, hopening, hrest⟩ := h
      obtain ⟨rfl, hne⟩ := Reader.next?_eq_some hnext
      obtain ⟨s₁, hadvance, hprevious, hs₁⟩ := hs.advance hne
      obtain ⟨x, hx, code, hcode⟩ := opening_yields ih hopening (hs₁ ()).stands hprevious
        (hs.this t (List.mem_cons_self ..))
      have hrun : within (n + 1) p s = rest n p n (x s₁).2 :=
        rule_of_opening hadvance (hprevious ▸ hx)
      rw [hrun]
      exact rest_yields ih hrest ((hs₁ ()).behind hcode)

/-- An expression is read up to a token that no expression goes on with, and what is appended is the code of
its tree, with the constants and captures that it refers to, unless it is reported that a rule is broken or
a limit passed. The tree is the only one that the tokens have. -/
theorem expression_gives_code {t : Token} {ts us : List Token} {e : Expr} {n : Nat} {s : Builder}
    (hd : Derives (.expression .assignment e) ts) (hend : ¬ Extends t) (hrest : s.rest = ts ++ t :: us)
    (hplain : ∀ u ∈ ts ++ [t], u.IsPlain) (hthis : ∀ u ∈ ts ++ [t], u.kind = .kwThis → u.text = "this")
    (hclean : s.errors = #[]) (hcalm : s.panicking = false) (hn : ts.length ≤ n) :
    let s' := (parse n .assignment s).2
    s'.rest = t :: us ∧ (∀ err ∈ s'.errors, err.IsStatic) ∧
      (s'.errors = #[] → ∃ code, e.code s.around = some (code, s'.around) ∧ s'.bytes = s.bytes ++ code) ∧
      ∀ e', Derives (.expression .assignment e') ts → e' = e := by
  intro s'
  have hlen : (ts ++ [t]).length ≤ n + 1 := by simpa using hn
  have hread := hd.read hlen (power_of_not_extends hend) (ne_equal_of_not_extends hend)
  have hs : Faces us s (ts ++ [t]) :=
    ⟨by simpa using hrest, List.append_ne_nil_of_right_ne_nil ts (List.cons_ne_nil t []), hplain, hthis,
      fun _ => hcalm⟩
  obtain ⟨code, hcode⟩ := within_yields (n + 1) hread hs
  refine ⟨hcode.stands.rest, fun err herr => (hcode.static err herr).resolve_left ?_,
    fun hclean' => ⟨code, hcode.code hclean'⟩, fun e' hd' => hd'.unique hd⟩
  rw [hclean]
  exact Array.not_mem_empty err

/-- The code of `true or nil == false;` without its end. -/
theorem expression_gives_code_or :
    let us : List Token := [⟨.kwOr, [], 1⟩, ⟨.kwNil, [], 1⟩, ⟨.equalEqual, [], 1⟩, ⟨.kwFalse, [], 1⟩]
    let ts : List Token := ⟨.kwTrue, [], 1⟩ :: us
    let t : Token := ⟨.semicolon, [], 1⟩
    let s : Builder := { Program.start 0 [] with current := ⟨.kwTrue, [], 1⟩, upcoming := us ++ [t] }
    let e := Expr.or (.boolean true) (.binary .equal .nil (.boolean false))
    let s' := (parse 5 .assignment s).2
    Derives (.expression .assignment e) ts ∧ ¬ Extends t ∧ s'.rest = [t] ∧ s'.errors = #[] ∧
      s'.bytes = s.bytes ++ [2, 27, 0, 3, 26, 0, 4, 4, 1, 3, 15] ∧
      ∃ code, e.code s.around = some (code, s'.around) ∧ s'.bytes = s.bytes ++ code := by
  intro us ts t s e s'
  have hd : Derives (.expression .assignment e) ts := by
    have htrue : Derives (.expression .primary (.boolean true)) [⟨.kwTrue, [], 1⟩] := .true rfl
    have hnil : Derives (.expression .primary .nil) [⟨.kwNil, [], 1⟩] := .nil rfl
    have hfalse : Derives (.expression .primary (.boolean false)) [⟨.kwFalse, [], 1⟩] := .false rfl
    have hequal := Derives.binary (t := ⟨.equalEqual, [], 1⟩) .equal rfl .equality
      (hnil.loosen (by decide) (by decide)) (hfalse.loosen (by decide) (by decide))
    have hor := Derives.or (t := ⟨.kwOr, [], 1⟩) rfl (htrue.loosen (by decide) (by decide))
      (hequal.loosen (by decide) (by decide))
    exact hor.loosen (by decide) (by decide)
  have hend : ¬ Extends t := not_extends rfl (by decide)
  have hall := expression_gives_code (n := 5) (s := s) hd hend rfl
    (by simp [us, ts, t, Token.IsPlain]) (by simp [us, ts, t]) rfl rfl (by decide)
  have hclean : s'.errors = #[] := by decide +kernel
  exact ⟨hd, hend, hall.1, hclean, by decide +kernel, hall.2.2.1 hclean⟩

end Expression

end LoxMachine
