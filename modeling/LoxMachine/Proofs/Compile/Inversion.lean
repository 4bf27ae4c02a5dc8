import LoxMachine.Proofs.Compile.Accept

/-!
# What accepted actions do

`Accepts x s a s'`: the action `x` takes the sound builder `s` to `s'` with the answer `a`, and no
error has been reported by then. A sequence of actions is taken apart by `Accepts.bind`; the small
actions are inverted one by one.
-/

namespace LoxMachine.Builder

structure Accepts {α : Type} (x : Build α) (s : Builder) (a : α) (s' : Builder) : Prop where
  sound : s.Sound
  run : x s = (a, s')
  clean : s'.errors = #[]

/-- The tokens not yet read. -/
def rest (s : Builder) : List Token :=
  s.current :: s.upcoming

namespace Accepts

variable {α β : Type} {s s' s'' : Builder}

theorem sound' {x : Build α} [hx : Keeps x] {a : α} (h : Accepts x s a s') : s'.Sound := by
  have := hx.sound s h.sound
  rwa [h.run] at this

theorem bind_of {x : Build α} {f : α → Build β} {b : β} (h : Accepts (x >>= f) s b s'')
    (hx : Keeps x) (hf : ∀ a, Keeps (f a)) :
    ∃ a s', Accepts x s a s' ∧ Accepts (f a) s' b s'' := by
  have hs := hx.sound s h.sound
  have hrun : f (x s).1 (x s).2 = (b, s'') := h.run
  have hclean : (x s).2.errors = #[] := by
    refine (hf (x s).1).clean ?_
    rw [hrun]
    exact h.clean
  exact ⟨(x s).1, (x s).2, ⟨h.sound, rfl, hclean⟩, hs, hrun, h.clean⟩

theorem bind {x : Build α} {f : α → Build β} [hx : Keeps x] [hf : ∀ a, Keeps (f a)] {b : β}
    (h : Accepts (x >>= f) s b s'') : ∃ a s', Accepts x s a s' ∧ Accepts (f a) s' b s'' :=
  h.bind_of hx hf

/-- Looking at the builder changes nothing. -/
theorem get_bind {f : Builder → Build β} {b : β} (h : Accepts (get >>= f) s b s') :
    Accepts (f s) s b s' :=
  ⟨h.sound, h.run, h.clean⟩

theorem of_pure {a b : α} (h : Accepts (pure a : Build α) s b s') : b = a ∧ s' = s := by
  obtain ⟨rfl, rfl⟩ := Prod.mk.inj h.run
  exact ⟨rfl, rfl⟩

theorem of_get {b : Builder} (h : Accepts (get : Build Builder) s b s') : b = s ∧ s' = s := by
  obtain ⟨rfl, rfl⟩ := Prod.mk.inj h.run
  exact ⟨rfl, rfl⟩

theorem of_modify {f : Builder → Builder} {u : PUnit}
    (h : Accepts (modify f : Build PUnit) s u s') : s' = f s :=
  (Prod.mk.inj h.run).2.symm

theorem of_modifyGet {f : Builder → α × Builder} {a : α}
    (h : Accepts (modifyGet f : Build α) s a s') : f s = (a, s') :=
  h.run

theorem length_rest {x : Build α} [hx : Keeps x] {a : α} (h : Accepts x s a s') :
    s'.rest.length ≤ s.rest.length := by
  have := hx.upcoming s
  rw [h.run] at this
  exact Nat.succ_le_succ this

/-- The start of an accepted action has no error. -/
theorem clean_start {x : Build α} [hx : Keeps x] {a : α} (h : Accepts x s a s') :
    s.errors = #[] := by
  refine hx.clean (s := s) ?_
  rw [h.run]
  exact h.clean

/-! ## Errors -/

theorem not_errorAt {t : Token} {d : Defect} {u : Unit} : ¬ Accepts (errorAt t d) s u s' := by
  intro h
  have hstart := h.clean_start
  have hclean := h.clean
  rw [of_modify h] at hclean
  have := (errors_report hclean).2
  rw [h.sound.calm hstart] at this
  cases this

theorem not_error {d : Defect} {u : Unit} : ¬ Accepts (error d) s u s' := by
  intro h
  obtain ⟨_, _, -, h⟩ := h.bind
  exact not_errorAt h

theorem not_errorAtCurrent {d : Defect} {u : Unit} : ¬ Accepts (errorAtCurrent d) s u s' := by
  intro h
  obtain ⟨_, _, -, h⟩ := h.bind
  exact not_errorAt h

/-! ## Tokens -/

end Accepts

theorem pull_of_clean {s : Builder} {us : List Token} (hs : s.panicking = false)
    (h : (s.pull us).errors = #[]) :
    s.pull us = { s with upcoming := [] } ∧ us = [] ∨
      ∃ t upcoming, us = t :: upcoming ∧ s.pull us = { s with current := t, upcoming } := by
  cases us with
  | nil => exact .inl ⟨rfl, rfl⟩
  | cons t us =>
      rw [pull] at h ⊢
      split
      · rename_i herror
        simp only [herror] at h
        have := (errors_report (errors_pull h)).2
        rw [hs] at this
        cases this
      · exact .inr ⟨t, us, rfl, rfl⟩

/-- `s'` is `s` with its current token read. -/
structure Reads (s s' : Builder) : Prop where
  eq : s' = { s with previous := s.current, current := s'.current, upcoming := s'.upcoming }
  rest : s.current.kind ≠ .eof → s.rest = s.current :: s'.rest

namespace Accepts

variable {α β : Type} {s s' s'' : Builder}

theorem of_advance {u : Unit} (h : Accepts advance s u s') : s.Reads s' := by
  have hclean := h.clean
  have hcalm := h.sound.calm h.clean_start
  have heq := of_modify h
  rw [heq] at hclean
  rcases pull_of_clean (s := { s with previous := s.current }) hcalm hclean with ⟨heq', hnil⟩ | ⟨t, us, hus, heq'⟩
  · rw [heq'] at heq
    refine ⟨by rw [heq], fun hne => ?_⟩
    have := h.sound.ends
    rw [if_neg hne, hnil] at this
    obtain ⟨inner, last, hinner, -⟩ := this
    simp at hinner
  · rw [heq'] at heq
    refine ⟨by rw [heq], fun _ => ?_⟩
    rw [heq, Builder.rest, Builder.rest, hus]

theorem of_check {kind : TokenKind} {b : Bool} (h : Accepts (check kind) s b s') :
    s' = s ∧ b = decide (s.current.kind = kind) := by
  obtain ⟨_, _, hget, hpure⟩ := h.bind
  obtain ⟨rfl, rfl⟩ := of_get hget
  obtain ⟨rfl, rfl⟩ := of_pure hpure
  exact ⟨rfl, rfl⟩

theorem of_accept {kind : TokenKind} {b : Bool} (h : Accepts (accept kind) s b s') :
    b = true ∧ s.current.kind = kind ∧ s.Reads s' ∨ b = false ∧ s.current.kind ≠ kind ∧ s' = s := by
  obtain ⟨c, s₁, hcheck, h⟩ := h.bind
  obtain ⟨rfl, rfl⟩ := of_check hcheck
  split at h
  · obtain ⟨_, _, hadvance, h⟩ := h.bind
    obtain ⟨rfl, rfl⟩ := of_pure h
    exact .inl ⟨rfl, of_decide_eq_true (by assumption), of_advance hadvance⟩
  · obtain ⟨rfl, rfl⟩ := of_pure h
    exact .inr ⟨rfl, fun h => by simp_all, rfl⟩

theorem of_expect {e : Expectation} {u : Unit} (h : Accepts (expect e) s u s') :
    s.current.kind = e.kind ∧ s.Reads s' := by
  obtain ⟨b, s₁, haccept, h⟩ := h.bind
  rcases of_accept haccept with ⟨rfl, hkind, hreads⟩ | ⟨rfl, -, -⟩
  · obtain ⟨-, rfl⟩ := of_pure h
    exact ⟨hkind, hreads⟩
  · exact absurd h not_errorAtCurrent

theorem of_lastText {text : String} (h : Accepts lastText s text s') :
    s' = s ∧ text = s.previous.text := by
  obtain ⟨_, _, hget, hpure⟩ := h.bind
  obtain ⟨rfl, rfl⟩ := of_get hget
  obtain ⟨rfl, rfl⟩ := of_pure hpure
  exact ⟨rfl, rfl⟩

end Accepts

end LoxMachine.Builder
