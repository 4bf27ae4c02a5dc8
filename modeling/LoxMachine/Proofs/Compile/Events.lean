import LoxMachine.Program.Basic

/-!
# Events

What happens to the errors of a text while it is read: an error is reported, or the builder begins to
recover from its panic. A report that comes in a panic is lost, so the errors of a text are the first
reports behind its start and behind each recovery (`entries`).

A `Logged` action is an action of the builder together with the events that it causes, and with the proof
that these account for what becomes of the errors and of the tokens. Three actions cause events: a report,
reading on past text that is no token, and the end of a panic. Any other action is lifted by `silently`, and
only if it does nothing with errors and tokens at all (`Silent`).
-/

namespace LoxMachine

namespace Builder

/-- What happens to the errors of a builder. -/
inductive Event where
  /-- An error is reported, and kept unless the builder is panicking. -/
  | report (e : SourceError)
  /-- The builder begins to `synchronize`. -/
  | recover
deriving DecidableEq, Repr

/-- The reports that are kept, from a builder that is panicking or not. -/
def entries : Bool → List Event → List SourceError
  | _, [] => []
  | false, .report e :: es => e :: entries true es
  | true, .report _ :: es => entries true es
  | _, .recover :: es => entries false es

/-- Whether a builder is panicking behind these events. -/
def panics : Bool → List Event → Bool
  | p, [] => p
  | _, .report _ :: es => panics true es
  | _, .recover :: es => panics false es

section Events

variable {es es' : List Event} {p : Bool}

theorem entries_append (p : Bool) (es es' : List Event) :
    entries p (es ++ es') = entries p es ++ entries (panics p es) es' := by
  induction es generalizing p with
  | nil => rfl
  | cons e es ih => cases p <;> cases e <;> simp [entries, panics, ih]

theorem panics_append (p : Bool) (es es' : List Event) :
    panics p (es ++ es') = panics (panics p es) es' := by
  induction es generalizing p with
  | nil => rfl
  | cons e es ih => cases e <;> exact ih _

/-- Every report in a panic is behind another one that is kept. -/
theorem entries_ne_nil : entries false es ≠ [] ↔ ∃ e, .report e ∈ es := by
  induction es with
  | nil => simp [entries]
  | cons e es ih => cases e <;> simp [entries, ih]

/-- The first report that is kept. -/
theorem entries_eq_cons {e : SourceError} {rest : List SourceError} (h : entries p es = e :: rest) :
    ∃ before behind, es = before ++ .report e :: behind ∧ entries p before = [] ∧
      panics p before = false ∧ rest = entries true behind ∧ (p = true → .recover ∈ before) := by
  induction es generalizing p with
  | nil => cases p <;> cases h
  | cons event es ih =>
      cases event with
      | recover =>
          have hes : entries false es = e :: rest := by cases p <;> exact h
          obtain ⟨before, behind, rfl, hbefore, hpanics, hrest, -⟩ := ih hes
          exact ⟨.recover :: before, behind, rfl, by cases p <;> exact hbefore, hpanics, hrest,
            fun _ => List.mem_cons_self⟩
      | report e' =>
          cases p with
          | false =>
              obtain ⟨rfl, rfl⟩ := List.cons.inj h
              exact ⟨[], es, rfl, rfl, rfl, rfl, nofun⟩
          | true =>
              obtain ⟨before, behind, rfl, hbefore, hpanics, hrest, hrecover⟩ := ih h
              exact ⟨.report e' :: before, behind, rfl, hbefore, hpanics, hrest,
                fun hp => List.mem_cons_of_mem _ (hrecover hp)⟩

/-- Between two reports that are kept the builder recovers. -/
theorem recovers_between {xs ys : List SourceError} {e e' : SourceError}
    (h : entries p es = xs ++ e :: e' :: ys) :
    ∃ before between behind, es = before ++ .report e :: between ++ .report e' :: behind ∧
      entries p before = xs ∧ .recover ∈ between := by
  induction xs generalizing p es with
  | nil =>
      obtain ⟨before, behind, rfl, hbefore, -, hrest, -⟩ := entries_eq_cons h
      obtain ⟨between, behind, rfl, -, -, -, hrecover⟩ := entries_eq_cons hrest.symm
      exact ⟨before, between, behind, by simp, hbefore, hrecover rfl⟩
  | cons x xs ih =>
      obtain ⟨first, behind, rfl, hfirst, hpanics, hrest, -⟩ := entries_eq_cons h
      obtain ⟨before, between, behind, rfl, hbefore, hrecover⟩ := ih hrest.symm
      refine ⟨first ++ .report x :: before, between, behind, by simp, ?_, hrecover⟩
      rw [entries_append, hfirst, hpanics, entries, hbefore, List.nil_append]

end Events

/-! ## What events account for -/

/-- The events on the way from one builder to another account for the errors and the panic, and of text
that is no token, when it is read past, for a report. -/
structure Course (s : Builder) (es : List Event) (s' : Builder) : Prop where
  errors : s'.errors.toList = s.errors.toList ++ entries s.panicking es
  panicking : s'.panicking = panics s.panicking es
  scanned : ∃ passed, s.upcoming = passed ++ s'.upcoming ∧
    ∀ t ∈ passed, ∀ cause, t.kind = .error cause → .report (.scan t.line cause) ∈ es

/-- Builders that do not differ in what has to do with tokens and errors. -/
structure Level (s s' : Builder) : Prop where
  previous : s'.previous = s.previous
  current : s'.current = s.current
  upcoming : s'.upcoming = s.upcoming
  errors : s'.errors = s.errors
  panicking : s'.panicking = s.panicking

theorem Level.trans {s s' s'' : Builder} (h : Level s s') (h' : Level s' s'') : Level s s'' :=
  ⟨h'.previous.trans h.previous, h'.current.trans h.current, h'.upcoming.trans h.upcoming,
    h'.errors.trans h.errors, h'.panicking.trans h.panicking⟩

section Courses

variable {s s' s'' : Builder} {es es' : List Event}

theorem Level.course (h : Level s s') : Course s [] s' :=
  ⟨by simp [h.errors, entries], h.panicking, [], by simp [h.upcoming], by simp⟩

theorem Course.trans (h : Course s es s') (h' : Course s' es' s'') : Course s (es ++ es') s'' := by
  obtain ⟨passed, hpassed, hscanned⟩ := h.scanned
  obtain ⟨passed', hpassed', hscanned'⟩ := h'.scanned
  refine ⟨?_, ?_, passed ++ passed', ?_, fun t ht cause hkind => ?_⟩
  · rw [entries_append, h'.errors, h.errors, h.panicking, List.append_assoc]
  · rw [panics_append, h'.panicking, h.panicking]
  · rw [hpassed, hpassed', List.append_assoc]
  · rcases List.mem_append.mp ht with ht | ht
    · exact List.mem_append_left _ (hscanned t ht cause hkind)
    · exact List.mem_append_right _ (hscanned' t ht cause hkind)

theorem course_report (s : Builder) (e : SourceError) : Course s [.report e] (s.report e) := by
  rw [report]
  cases hp : s.panicking with
  | true => exact ⟨by simp [entries, hp], hp, [], rfl, by simp⟩
  | false => exact ⟨by simp [entries, hp], rfl, [], rfl, by simp⟩

/-- The reports of text that is no token, up to the next one. -/
def scanReports : List Token → List Event
  | [] => []
  | t :: upcoming =>
    match t.kind with
    | .error cause => .report (.scan t.line cause) :: scanReports upcoming
    | _ => []

theorem course_pull (s : Builder) (us : List Token) :
    Course { s with upcoming := us } (scanReports us) (s.pull us) := by
  induction us generalizing s with
  | nil => exact Level.course ⟨rfl, rfl, rfl, rfl, rfl⟩
  | cons t us ih =>
      rw [pull]
      split
      · rename_i cause hkind
        rw [scanReports, hkind]
        refine (?_ : Course _ [.report (.scan t.line cause)] _).trans (ih _)
        obtain ⟨herrors, hpanicking, -⟩ := course_report s (.scan t.line cause)
        refine ⟨herrors, hpanicking, [t], rfl, fun u hu cause' hkind' => ?_⟩
        obtain rfl := List.mem_singleton.mp hu
        obtain rfl := TokenKind.error.inj (hkind.symm.trans hkind')
        exact List.mem_singleton_self _
      · rename_i hkind
        have hnone : scanReports (t :: us) = [] := by
          rw [scanReports]
          split
          · exact absurd (by assumption) (hkind _)
          · rfl
        rw [hnone]
        refine ⟨by simp [entries], rfl, [t], rfl, fun u hu cause hkind' => ?_⟩
        obtain rfl := List.mem_singleton.mp hu
        exact absurd hkind' (hkind cause)

end Courses

/-! ## Silent actions -/

/-- An action that has to do with neither tokens nor errors. -/
class Silent {α : Type} (x : Build α) : Prop where
  level : ∀ s, Level s (x s).2

section Silent

variable {α β : Type}

instance (a : α) : Silent (pure a : Build α) :=
  ⟨fun _ => ⟨rfl, rfl, rfl, rfl, rfl⟩⟩

instance : Silent (get : Build Builder) :=
  ⟨fun _ => ⟨rfl, rfl, rfl, rfl, rfl⟩⟩

instance (f : Body → α × Body) : Silent (onBody f) :=
  ⟨fun _ => ⟨rfl, rfl, rfl, rfl, rfl⟩⟩

instance (f : Nat → Chunk → α × Chunk) : Silent (onChunk f) :=
  ⟨fun _ => ⟨rfl, rfl, rfl, rfl, rfl⟩⟩

instance (name : Option String) :
    Silent (modify fun s : Builder => { s with initializing := name } : Build PUnit) :=
  ⟨fun _ => ⟨rfl, rfl, rfl, rfl, rfl⟩⟩

instance (f : Builder → List Bool) :
    Silent (modify fun s : Builder => { s with classes := f s } : Build PUnit) :=
  ⟨fun _ => ⟨rfl, rfl, rfl, rfl, rfl⟩⟩

instance (name : String) : Silent (resolveOutside name) :=
  ⟨fun _ => ⟨rfl, rfl, rfl, rfl, rfl⟩⟩

instance (kind : BodyKind) (name : String) : Silent (openBody kind name) :=
  ⟨fun _ => ⟨rfl, rfl, rfl, rfl, rfl⟩⟩

instance : Silent closeBody := by
  refine ⟨fun s => ?_⟩
  change Level s (match s.outer with
    | [] => ((s.routine.function, s.body.captures), s)
    | body :: outer => _ : (Function × Array Capture) × Builder).2
  cases s.outer <;> exact ⟨rfl, rfl, rfl, rfl, rfl⟩

instance (x : Build α) (f : α → Build β) [hx : Silent x] [hf : ∀ a, Silent (f a)] : Silent (x >>= f) :=
  ⟨fun s => (hx.level s).trans ((hf _).level _)⟩

instance (p : Prop) [Decidable p] (x y : Build α) [hx : Silent x] [hy : Silent y] :
    Silent (if p then x else y) := by
  split
  · exact hx
  · exact hy

instance (xs : List α) (f : α → Build PUnit) [∀ a, Silent (f a)] : Silent (xs.forM f) := by
  induction xs with
  | nil => exact inferInstanceAs (Silent (pure PUnit.unit))
  | cons x xs ih => exact inferInstanceAs (Silent (f x >>= fun _ => xs.forM f))

instance (xs : Array α) (f : α → Build PUnit) [∀ a, Silent (f a)] : Silent (xs.forM f) := by
  have h : xs.forM f = xs.toList.forM f := by
    cases xs
    simp
  rw [h]
  infer_instance

instance (kind : TokenKind) : Silent (check kind) :=
  inferInstanceAs (Silent (get >>= fun s => pure (decide (s.current.kind = kind))))

instance : Silent lastText :=
  inferInstanceAs (Silent (get >>= fun s => pure s.previous.text))

instance : Silent inGlobalScope :=
  inferInstanceAs (Silent (get >>= fun s => pure (decide (s.body.depth = 0))))

instance : Silent here :=
  inferInstanceAs (Silent (get >>= fun s => pure s.body.chunk.size))

instance (b : UInt8) : Silent (emitByte b) :=
  inferInstanceAs (Silent (onChunk _))

instance (op : Opcode) : Silent (emit op) :=
  inferInstanceAs (Silent (onChunk _))

instance (op : Opcode) (n : Nat) : Silent (emitWith op n) :=
  inferInstanceAs (Silent (emit op >>= fun _ => emitByte n.toUInt8))

instance (op : Opcode) : Silent (emitJump op) :=
  inferInstanceAs (Silent (onChunk _))

instance : Silent emitReturn := by
  unfold emitReturn
  infer_instance

instance : Silent beginScope :=
  inferInstanceAs (Silent (onBody _))

instance : Silent endScope :=
  inferInstanceAs (Silent (onBody Body.leaveScope >>= fun gone =>
    gone.forM fun l => emit (if l.captured then .closeUpvalue else .pop)))

instance : Silent markInitialized := by
  unfold markInitialized
  infer_instance

instance (global : Nat) : Silent (defineVariable global) := by
  unfold defineVariable
  infer_instance

end Silent

end Builder

/-! ## Logged actions -/

open Builder

/-- An action of the builder with its events, which account for what it does. -/
structure Logged (α : Type) where
  act : Build α
  log : Builder → List Event
  course : ∀ s, Course s (log s) (act s).2

namespace Logged

variable {α β : Type}

instance : Monad Logged where
  pure a := ⟨pure a, fun _ => [], fun s => (Silent.level s).course⟩
  bind x f :=
    { act := x.act >>= fun a => (f a).act
      log := fun s => x.log s ++ (f (x.act s).1).log (x.act s).2
      course := fun s => (x.course s).trans ((f _).course _) }

/-- A silent action, which causes no event. -/
def silently (x : Build α) [Silent x] : Logged α :=
  ⟨x, fun _ => [], fun s => (Silent.level s).course⟩

/-- Where nothing is made of its answer, a silent action stands for itself. -/
instance (x : Build α) [Silent x] : CoeDep (Build α) x (Logged α) :=
  ⟨silently x⟩

/-- The builder as it is. -/
def read : Logged Builder :=
  silently get

end Logged

end LoxMachine
