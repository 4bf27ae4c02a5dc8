import LoxMachine.Proofs.Limits.Statements
import LoxMachine.Proofs.Verdict.Declarations

/-!
# Limits of functions

A function has a budget of its own (`Budget.inside`), which can be afforded if that of the function around it
can. When it ends, the function around it owes what it takes to make a closure: the captures that have been
made on the way, a constant, and the code.
-/

namespace LoxMachine

open Syntax (FunctionScope Scope Need Stmt slotOf?)

/-! ## What a function passes on -/

namespace Syntax.Need

variable {c : Scope} {n : Need} {ns ms : List Need} {k : Nat}

theorem captures_passing (c : Scope) (ns : List Need) :
    captures (c.passing ns) = FunctionScope.passed c.inner (captures ns) := by
  ext name
  simp only [captures, Scope.passing, FunctionScope.passed, List.mem_toFinset, Finset.mem_filter,
    List.mem_filterMap]
  constructor
  · rintro ⟨n, ⟨name', hname', hn⟩, hcapture⟩
    split at hn
    · obtain rfl := Option.some.inj hn
      obtain rfl := Option.some.inj hcapture
      exact ⟨hname', by assumption⟩
    · cases hn
  · rintro ⟨hname, hslot⟩
    exact ⟨.capture name, ⟨name, hname, if_pos hslot⟩, rfl⟩

theorem mem_passing (hn : n ∈ c.passing ns) : ∃ name, n = .capture name := by
  obtain ⟨name, -, hname⟩ := List.mem_filterMap.mp hn
  split at hname
  · exact ⟨name, (Option.some.inj hname).symm⟩
  · cases hname

theorem within_passing (hn : n.Within (c.passing ns)) : ∃ name, n = .capture name := by
  rcases hn with hn | ⟨hn, -⟩
  · exact mem_passing hn
  · exact nomatch (mem_passing hn).choose_spec

theorem FitsAll.passing (h : FitsAll ms) : FitsAll (ms ++ c.passing ns) := by
  intro n hn
  rcases within_append.mp hn with hn | hn
  · exact h n hn
  · obtain ⟨name, rfl⟩ := within_passing hn
    trivial

theorem NearAll.passing (h : NearAll ms) : NearAll (ms ++ c.passing ns) := by
  intro n hn
  rcases within_append.mp hn with hn | hn
  · exact h n hn
  · obtain ⟨name, rfl⟩ := within_passing hn
    trivial

theorem within_function : n.Within [.function k ns] ↔ n = .function k ns ∨ n.Within ns := by
  constructor
  · rintro (hn | ⟨hms, hn⟩)
    · exact .inl (List.mem_singleton.mp hn)
    · obtain ⟨rfl, rfl⟩ := Need.function.inj (List.mem_singleton.mp hms)
      exact .inr hn
  · rintro (rfl | hn)
    · exact .here List.mem_cons_self
    · exact .inside List.mem_cons_self hn

theorem FitsAll.function (h : FitsAll ms) (hns : FitsAll ns) (hfits : (Need.function k ns).Fits) :
    FitsAll (ms ++ [Need.function k ns]) := by
  intro n hn
  rcases within_append.mp hn with hn | hn
  · exact h n hn
  · rcases within_function.mp hn with rfl | hn
    · exact hfits
    · exact hns n hn

theorem NearAll.function (h : NearAll ms) (hns : NearAll ns) : NearAll (ms ++ [Need.function k ns]) := by
  intro n hn
  rcases within_append.mp hn with hn | hn
  · exact h n hn
  · rcases within_function.mp hn with rfl | hn
    · trivial
    · exact hns n hn

end Syntax.Need

theorem Chunk.Pays.passing {chunk : Chunk} {fresh : Nat} {ms : List Need} {c : Scope} {ns : List Need}
    (h : chunk.Pays fresh ms) : chunk.Pays fresh (ms ++ c.passing ns) := by
  have hall : ∀ n ∈ c.passing ns, ∃ name, n = .capture name := fun n => Need.mem_passing
  generalize c.passing ns = ps at hall
  induction ps generalizing ms with
  | nil => rwa [List.append_nil]
  | cons p ps ih =>
      obtain ⟨⟨name, rfl⟩, hps⟩ := List.forall_mem_cons.mp hall
      rw [List.append_cons]
      exact ih (h.skip rfl rfl rfl) hps

/-! ## Budgets of functions -/

namespace Budget

variable {B : Budget} {c : Scope} {spent ns todo : List Need} {k : Nat}

theorem mem_making (hwhole : B.whole = spent ++ (c.making k ns ++ todo)) : .function k ns ∈ B.whole := by
  simp [hwhole, Scope.making]

theorem fits_function (hwhole : B.whole = spent ++ (c.making k ns ++ todo)) (hafford : B.Affordable) :
    (Need.function k ns).Fits :=
  (B.promise hafford).fits _ (.here (mem_making hwhole))

/-- A function inside is within the budget of the function around it. -/
theorem bearable_inside (hB : B.around = c.outer) (hwhole : B.whole = spent ++ (c.making k ns ++ todo))
    (hafford : B.Affordable) : Bearable (c.inner :: c.outer) ns (spent :: B.spent) := by
  have hbearable := B.promise hafford
  have hmem := mem_making hwhole
  obtain ⟨-, hconstants, hcaptures⟩ := fits_function hwhole hafford
  have hsplit : B.whole = (spent ++ c.passing ns) ++
      (Need.function k ns :: Need.bytes 2 :: List.replicate (Need.captures ns).card (Need.bytes 2) ++ todo) := by
    simp [hwhole, Scope.making]
  have hprefix := Bearable.of_append (hsplit ▸ hbearable)
  have hpassed := hprefix.captures
  have haround := hprefix.around
  rw [Need.captures_append, Need.captures_passing] at hpassed haround
  exact ⟨fun n hn => hbearable.fits n (.inside hmem hn), fun n hn => hbearable.near n (.inside hmem hn),
    hconstants, hcaptures, hpassed, hB ▸ haround⟩

/-- The budget of a function that is made at the place `c`. -/
def inside (B : Budget) (c : Scope) (spent ns todo : List Need) (k : Nat) (hB : B.around = c.outer)
    (hwhole : B.whole = spent ++ (c.making k ns ++ todo)) : Budget where
  Affordable := B.Affordable
  whole := ns
  around := c.inner :: c.outer
  spent := spent :: B.spent
  promise := bearable_inside hB hwhole

end Budget

namespace Builder

variable {α β : Type} {B B' : Budget} {V : Builder → Prop} {c c' : Scope} {s s' : Builder} {us : List Token}
  {spent ns todo : List Need} {k : Nat} {R : α → Builder → Prop}

theorem Settles.budget {r : α × Builder} (h : Settles B' r R) (hB : B.Affordable → B'.Affordable) :
    Settles B r R := by
  cases h with
  | kept he hR => exact .kept he hR
  | broken he hafford => exact .broken he fun h => hafford (hB h)

/-- An action that reports nothing is accepted. -/
theorem Settles.accepted {x : Build α} (h : Settles B (x s) R) (hs : s.Sound) :
    Settles B (x s) fun a s' => R a s' ∧ Accepts x s a s' := by
  cases h with
  | kept he hR => exact .kept he ⟨hR, hs, rfl, he⟩
  | broken he hB => exact .broken he hB

theorem errors_errorAtCurrent_ne (hcalm : s.panicking = false) (d : Defect) :
    (errorAtCurrent d s).2.errors ≠ #[] := by
  intro hclean
  exact nomatch hcalm.symm.trans (errors_report hclean).2

/-- The open classes have nothing to do with what is owed. -/
theorem Owes.classes (hs : Owes B (Showing c) us todo s) (f : List Bool → List Bool) :
    Owes B (Showing { c with classes := f c.classes }) us todo { s with classes := f s.classes } :=
  have hstands := hs.stands.classes f
  hs.turned hstands.tokens hstands.shows rfl rfl rfl rfl

/-- Between statements any name may be read. -/
theorem Owes.read {name : String} (hB : B.around = c.outer)
    (hs : Owes B (Showing c) us (c.reading name ++ todo) s) :
    Settles B (Builder.readNamed name s) fun _ s' => Owes B (Showing c) us todo s' ∧ s'.previous = s.previous :=
  hs.readNamed hB fun hpending => nomatch hs.stands.shows.pending.symm.trans hpending

/-- Behind what is owed there may be nothing. -/
theorem Owes.only (h : Owes B V us todo s) : Owes B V us (todo ++ []) s := by
  rwa [List.append_nil]

/-- Where a function begins all that it needs is still to be made. -/
theorem Owes.openBody (kind : BodyKind) (name : String) (hB : B.around = c.outer) (hwhole : B.whole = spent ++ (c.making k ns ++ todo))
    (hcharged : Charged s.fresh B.around (s.body :: s.outer) (spent :: B.spent) ∅) (hs : s.Stands c us) :
    Owes (B.inside c spent ns todo k hB hwhole) (Showing (c.function kind [])) us ns
      (Builder.beginScope (Builder.openBody kind name s).2).2 := by
  have hstands : (Builder.beginScope (Builder.openBody kind name s).2).2.Stands (c.function kind []) us := by
    have hsound := Keeps.sound (x := Builder.openBody kind name) s hs.tokens.sound
    exact ⟨⟨Keeps.sound (x := Builder.beginScope) _ hsound, hs.tokens.clean, hs.tokens.rest, hs.tokens.plain⟩,
      ⟨(Body.shows_new kind name).enter, .cons hs.shows.body hs.shows.outer, hs.shows.classes,
        hs.shows.initializing, rfl⟩⟩
  refine ⟨hstands.tokens, hstands.shows, [], rfl, nofun, nofun, ?_⟩
  refine .inside (Chunk.pays_nil _) (Body.captured_new kind name _) ?_
  rw [← hB]
  exact hcharged

/-! ## Ends of functions -/

/-- A builder right behind a function inside, of which nothing but the closure is still to be made. -/
structure Returns (B : Budget) (c : Scope) (us : List Token) (k : Nat) (ns todo : List Need) (f : Function)
    (captures : Array Capture) (s : Builder) : Prop where
  stands : s.Stands c us
  fresh : s.fresh = f.index + 1
  captures : captures.size = (Need.captures ns).card
  fits : (Need.function k ns).Fits
  inside : Need.FitsAll ns ∧ Need.NearAll ns
  ledger : ∃ spent, B.whole = spent ++ (.function k ns :: todo) ∧ Need.FitsAll spent ∧ Need.NearAll spent ∧
    Charged f.index B.around (s.body :: s.outer) (spent :: B.spent) ∅

/-- The end of a function is code, and nothing else. -/
theorem emitReturn_made (s : Builder) : (Builder.emitReturn s).2.errors = s.errors ∧
    (Builder.emitReturn s).2.body.captures = s.body.captures ∧
    (Builder.emitReturn s).2.outer = s.outer ∧ (Builder.emitReturn s).2.fresh = s.fresh := by
  rw [emitReturn_run]
  split <;> exact ⟨rfl, rfl, rfl, rfl⟩

/-- Where a function ends it has all its constants and captures, and those around have theirs. -/
theorem Owes.closeBody {f : Function × Array Capture → Build β} {R : β → Builder → Prop}
    (hB : B.around = c.outer) (hwhole : B.whole = spent ++ (c.making k ns ++ todo))
    (h : Owes (B.inside c spent ns todo k hB hwhole) (Showing c') us [] s)
    (hfits : Need.FitsAll spent) (hnear : Need.NearAll spent) (houter : c'.outer = c.inner :: c.outer)
    (hclasses : c'.classes = c.classes) (hpending : c.pending = none) (hk : k ≤ Statement.maxParameters)
    (hf : ∀ g captures s', Returns B c us k ns
      (Need.bytes 2 :: List.replicate (Need.captures ns).card (Need.bytes 2) ++ todo) g captures s' →
      Settles B (f (g, captures) s') R) :
    Settles B ((Builder.emitReturn >>= fun _ => Builder.closeBody >>= f) s) R := by
  have hroom := h.tokens.sound.fits s.body List.mem_cons_self
  obtain ⟨ns', hns, hfits', hnear', hcharged⟩ := h.ledger
  obtain rfl : ns = ns' := hns.trans (List.append_nil ns')
  obtain ⟨herrors, hsame, hsameOuter, hfresh⟩ := emitReturn_made s
  have hat : (Builder.emitReturn s).2.At us := h.tokens.of_clean (herrors.trans h.clean)
  have hshows : (Builder.emitReturn s).2.Shows c' := Shows.stays h.view (Still.stays s)
  change Settles B ((Builder.closeBody >>= f) (Builder.emitReturn s).2) R
  generalize (Builder.emitReturn s).2 = s₁ at herrors hsame hsameOuter hfresh hat hshows
  have hbodies := hshows.outer
  rw [houter] at hbodies
  cases hsouter : s₁.outer with
  | nil =>
      rw [hsouter] at hbodies
      cases hbodies
  | cons b outer =>
      rw [hsouter] at hbodies hsameOuter
      rw [← hsameOuter, ← hfresh] at hcharged
      obtain ⟨hb, hrest⟩ := List.forall₂_cons.mp hbodies
      have hclose := closeBody_run hsouter
      have hcount := hcharged.captured.card
      have hconstants := hcharged.pays.count
      obtain _ | ⟨-, -, haround⟩ := hcharged
      rw [Finset.union_empty] at haround hcount
      have hsound := Keeps.sound (x := Builder.closeBody) _ hat.sound
      rw [hclose] at hsound
      rw [bind_of_run hclose]
      refine hf _ _ _ ⟨⟨⟨hsound, hat.clean, hat.rest, hat.plain⟩, ?_⟩, ?_, ?_, ?_, ⟨hfits', hnear'⟩, ?_⟩
      · exact ⟨hb, hrest, hshows.classes.trans hclasses, hshows.initializing, hpending⟩
      · simp [Builder.fresh, Builder.routine, Nat.add_assoc]
      · rw [hsame, hcount]
      · exact ⟨hk, hconstants ▸ hroom.constants, hcount ▸ hroom.captures⟩
      · refine ⟨spent ++ c.passing ns, by simp [hwhole, Scope.making], hfits.passing, hnear.passing, ?_⟩
        rw [hB]
        refine Charged.congr haround haround.pays.passing rfl ?_
        rw [Need.captures_append, Need.captures_passing, Finset.union_empty]

/-- A function is one constant more of the function around it. -/
theorem Returns.makeConstant {f : Function} {captures : Array Capture}
    (h : Returns B c us k ns todo f captures s) :
    Settles B (Builder.makeConstant (.function f) s) fun _ s' => Owes B (Showing c) us todo s' := by
  have hat := h.stands.tokens
  have hlater : (Builder.makeConstant (.function f) s).2.errors = #[] →
      (Builder.makeConstant (.function f) s).2.At us := hat.of_clean
  have hstays : s.Stays (Builder.makeConstant (.function f) s).2 := Still.stays s
  obtain ⟨spent, hwhole, hfits, hnear, hcharged⟩ := h.ledger
  have hbearable : B.Affordable → _ := fun hB => Budget.bearable hB hwhole
  rcases hcharged.pays.addFunction k ns with ⟨i, hi, hpays⟩ | ⟨hnone, hfull⟩
  · rw [makeConstant_of_some hi] at hlater hstays ⊢
    refine .kept hat.clean ⟨hlater hat.clean, Shows.stays h.stands.shows hstays, spent ++ [Need.function k ns],
      by simp [hwhole], hfits.function h.inside.1 h.fits, hnear.function h.inside.2, ?_⟩
    change Charged s.fresh _ _ _ _
    rw [h.fresh]
    refine (hcharged.mono (Nat.le_succ _)).congr hpays rfl ?_
    rw [Need.captures_append]
    exact congrArg (· ∪ ∅) (Finset.union_empty _)
  · rw [makeConstant_of_none hnone]
    have herror := errors_error_ne (s := { s with
      body := { s.body with chunk := (s.body.chunk.addConstant (.function f)).2 } })
      (hat.sound.calm hat.clean) .tooManyConstants
    exact .broken herror fun hB => absurd (hbearable hB).constants (Nat.not_le_of_lt hfull)

/-- Two bytes a capture. -/
theorem Owes.emitCaptures {captures : List Capture}
    (h : Owes B (Showing c) us (List.replicate captures.length (Need.bytes 2) ++ todo) s) :
    Settles B (captures.forM Statement.emitCapture s) fun _ s' => Owes B (Showing c) us todo s' := by
  have hlenient (k : Capture) : Lenient (Statement.emitCapture k) := by
    unfold Statement.emitCapture
    infer_instance
  have hstill (k : Capture) : Still (Statement.emitCapture k) := by
    unfold Statement.emitCapture
    infer_instance
  induction captures generalizing s with
  | nil => exact h.settles PUnit.unit
  | cons k captures ih =>
      change Settles B ((Statement.emitCapture k >>= fun _ => captures.forM Statement.emitCapture) s) _
      refine (h.longer (x := Statement.emitCapture k) rfl rfl rfl rfl rfl ?_).bind fun _ s' h' => ih h'
      change ((s.body.chunk.write _ _).write _ _).size = _
      rw [Chunk.size_write, Chunk.size_write]

/-- The closure of a function. -/
theorem Returns.closure {f : Function} {captures : Array Capture}
    (h : Returns B c us k ns (Need.bytes 2 :: List.replicate (Need.captures ns).card (Need.bytes 2) ++ todo) f
      captures s) :
    Settles B ((do
      Builder.emitWith .closure (← Builder.makeConstant (.function f))
      captures.forM Statement.emitCapture : Build Unit) s) fun _ s' => Owes B (Showing c) us todo s' := by
  refine h.makeConstant.bind fun i s₁ h₁ => (h₁.emitWith .closure i).bind fun _ s₂ h₂ => ?_
  rw [← h.captures, ← Array.length_toList] at h₂
  rw [show captures.forM Statement.emitCapture = captures.toList.forM Statement.emitCapture by
    cases captures; simp]
  exact h₂.emitCaptures

end Builder

end LoxMachine
