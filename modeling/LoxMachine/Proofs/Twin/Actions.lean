import LoxMachine.Proofs.Twin.Store

/-!
# Actions on twins

Rules for one action on each of two machines (`Jointly`): both succeed, or both fail with the same
error. An action that breaks a rule of the machine is not looked at; no instruction of a program does.
-/

namespace LoxMachine

open Machine

/-- Two actions end alike: as `Q` says, or in the same error with the same output. -/
def Jointly {α β : Type} (Q : α → Machine → β → Machine → Prop) (x : Action α) (m : Machine)
    (y : Action β) (m' : Machine) : Prop :=
  match x m, y m' with
  | .error (.violation _) _, _ => True
  | _, .error (.violation _) _ => True
  | .ok a m₁, .ok b m₁' => Q a m₁ b m₁'
  | .error (.runtime e) m₁, .error (.runtime e') m₁' =>
    e = e' ∧ m₁.console.output = m₁'.console.output
  | _, _ => False

namespace Jointly

variable {α β γ δ : Type} {Q : γ → Machine → δ → Machine → Prop} {m m' m₁ m₁' : Machine}

theorem of_ok {x : Action γ} {y : Action δ} {a : γ} {b : δ} (hx : x m = .ok a m₁)
    (hy : y m' = .ok b m₁') (h : Q a m₁ b m₁') : Jointly Q x m y m' := by
  rw [Jointly, hx, hy]
  exact h

theorem of_error {x : Action γ} {y : Action δ} {e : RuntimeError} (hx : x m = .error (.runtime e) m₁)
    (hy : y m' = .error (.runtime e) m₁') (h : m₁.console.output = m₁'.console.output) :
    Jointly Q x m y m' := by
  rw [Jointly, hx, hy]
  exact ⟨rfl, h⟩

theorem fail {e : RuntimeError} (h : m.console.output = m'.console.output) :
    Jointly Q (Machine.fail e) m (Machine.fail e) m' :=
  of_error rfl rfl h

theorem of_violation {x : Action γ} {y : Action δ} {v : Violation} (hx : x m = .error (.violation v) m₁) :
    Jointly Q x m y m' := by
  rw [Jointly, hx]
  trivial

theorem of_violation_right {x : Action γ} {y : Action δ} {v : Violation}
    (hy : y m' = .error (.violation v) m₁') : Jointly Q x m y m' := by
  rw [Jointly, hy]
  cases x m with
  | ok => trivial
  | error e => cases e <;> trivial

theorem pure {a : γ} {b : δ} (h : Q a m b m') : Jointly Q (pure a) m (pure b) m' :=
  h

theorem bind {x : Action α} {y : Action β} {g : α → Action γ} {k : β → Action δ}
    (h : Jointly (fun a m₁ b m₁' => Jointly Q (g a) m₁ (k b) m₁') x m y m') :
    Jointly Q (x >>= g) m (y >>= k) m' := by
  unfold Jointly at *
  rw [bind_apply, bind_apply]
  cases hx : x m with
  | ok a m₁ =>
      cases hy : y m' with
      | ok b m₁' =>
          rw [hx, hy] at h
          exact h
      | error e m₁' =>
          rw [hx, hy] at h
          cases e with
          | runtime e => exact h.elim
          | violation v =>
              dsimp only
              cases g a m₁ with
              | ok => trivial
              | error e => cases e <;> trivial
  | error e m₁ =>
      cases hy : y m' with
      | ok b m₁' =>
          rw [hx, hy] at h
          cases e with
          | runtime e => exact h.elim
          | violation v => trivial
      | error e' m₁' =>
          rw [hx, hy] at h
          cases e with
          | violation v => trivial
          | runtime e =>
              cases e' with
              | violation v => trivial
              | runtime e' => exact h

theorem bind_ok {x : Action α} {y : Action β} {g : α → Action γ} {k : β → Action δ} {a : α} {b : β}
    (hx : x m = .ok a m₁) (hy : y m' = .ok b m₁') (h : Jointly Q (g a) m₁ (k b) m₁') :
    Jointly Q (x >>= g) m (y >>= k) m' :=
  bind (of_ok hx hy h)

end Jointly

section Amid

variable {α β : Type} {Q : α → Machine → β → Machine → Prop} {S : Scene} {n q q' : Nat} {B : Bond}
  {P : Pairing} {f f' : Frame} {fs fs' : List Frame} {m m' : Machine} {v v' : Value}
  {vs vs' : List Value}

theorem Amid.setValues (A : Amid S n B P f fs f' fs' m m') (h : B.Stacks vs vs') :
    Amid S n B P f fs f' fs' (m.setValues vs) (m'.setValues vs') where
  frames := A.frames
  frames' := A.frames'
  lineup := A.lineup
  values := by
    rw [values_setValues, values_setValues]
    exact h
  heaps := { A.heaps with }

/-- The same calls with other stores, globals and consoles. -/
theorem Amid.change (A : Amid S n B P f fs f' fs' m m') {B' : Bond} {m₁ m₁' : Machine} (hB : B.Le B')
    (h : Heaps S n B' m₁ m₁') (hframes : m₁.frames = m.frames) (hframes' : m₁'.frames = m'.frames)
    (hstack : m₁.stack = m.stack) (hstack' : m₁'.stack = m'.stack) :
    Amid S n B' P f fs f' fs' m₁ m₁' where
  frames := hframes.trans A.frames
  frames' := hframes'.trans A.frames'
  lineup := A.lineup.mono hB
  values := by
    have hvalues : m₁.values = m.values := congrArg (·.toList.reverse) hstack
    have hvalues' : m₁'.values = m'.values := congrArg (·.toList.reverse) hstack'
    rw [hvalues, hvalues']
    exact A.values.mono hB
  heaps := h

theorem Amid.moveTo (A : Amid S n B P f fs f' fs' m m') (q q' : Nat) {x : Action α} {y : Action β}
    (h : Jointly Q x (m.goto q) y (m'.goto q')) :
    Jointly Q (do Machine.moveTo q; x) m (do Machine.moveTo q'; y) m' :=
  .bind_ok (moveTo_apply A.frames q) (moveTo_apply A.frames' q') h

theorem Amid.frame (A : Amid S n B P f fs f' fs' m m') {g : Frame → Action α} {k : Frame → Action β}
    (h : Jointly Q (g f) m (k f') m') : Jointly Q (Machine.frame >>= g) m (Machine.frame >>= k) m' :=
  .bind_ok (frame_apply A.frames) (frame_apply A.frames') h

theorem Amid.push (A : Amid S n B P f fs f' fs' m m') {Q : Unit → Machine → Unit → Machine → Prop}
    (hv : B.Twin v v')
    (h : ∀ m₁ m₁', Amid S n B P f fs f' fs' m₁ m₁' → Q () m₁ () m₁') :
    Jointly Q (Machine.push v) m (Machine.push v') m' := by
  have hlength := A.values.length_eq
  by_cases hroom : m.values.length < maxStack
  · refine .of_ok ((push_apply m v).trans (if_pos hroom))
      ((push_apply m' v').trans (if_pos (hlength ▸ hroom))) (h _ _ ?_)
    exact A.setValues (.cons hv A.values)
  · exact .of_error ((push_apply m v).trans (if_neg hroom))
      ((push_apply m' v').trans (if_neg (hlength ▸ hroom))) A.heaps.output

/-- A push that ends an instruction. -/
theorem Amid.push_last (A : Amid S n B P f fs f' fs' m m') (hv : B.Twin v v')
    (h : Resembles S.left S.right n P f.ip f'.ip) :
    Jointly (fun _ m₁ _ m₁' => Twins S n m₁ m₁') (Machine.push v) m (Machine.push v') m' :=
  A.push hv fun _ _ A' => A'.twins h

theorem Bond.Stacks.uncons (h : B.Stacks vs vs') (hlen : 1 < vs.length) :
    ∃ v v' us us', vs = v :: us ∧ vs' = v' :: us' ∧ B.Twin v v' ∧ B.Stacks us us' := by
  cases h with
  | bottom => simp at hlen
  | cons hv h => exact ⟨_, _, _, _, rfl, rfl, hv, h⟩

theorem Amid.pop (A : Amid S n B P f fs f' fs' m m') (hlen : 1 < m.values.length)
    {g : Value → Action α} {k : Value → Action β}
    (h : ∀ v v' us us', m.values = v :: us → m'.values = v' :: us' → B.Twin v v' → B.Stacks us us' →
      Jointly Q (g v) (m.setValues us) (k v') (m'.setValues us')) :
    Jointly Q (Machine.pop >>= g) m (Machine.pop >>= k) m' := by
  obtain ⟨v, v', us, us', heq, heq', hv, hus⟩ := A.values.uncons hlen
  exact .bind_ok (pop_cons heq) (pop_cons heq') (h v v' us us' heq heq' hv hus)

theorem Amid.popClass (A : Amid S n B P f fs f' fs' m m') (hlen : 1 < m.values.length)
    {g : Class → Action α} {k : Class → Action β}
    (h : ∀ c us us', m.values = .cls c :: us → m'.values = .cls c :: us' → B.Stacks us us' →
      Jointly Q (g c) (m.setValues us) (k c) (m'.setValues us')) :
    Jointly Q (Machine.popClass >>= g) m (Machine.popClass >>= k) m' := by
  refine .bind (A.pop hlen fun v v' us us' heq heq' hv hus => ?_)
  cases hv with
  | fixed =>
      cases v with
      | cls c => exact .pure (h c us us' heq heq' hus)
      | _ => exact .of_violation rfl
  | made hmade =>
      cases A.heaps.linked _ _ hmade <;> exact .of_violation rfl

theorem Amid.peek (A : Amid S n B P f fs f' fs' m m') {d : Nat} (hlen : d + 1 < m.values.length)
    {g : Value → Action α} {k : Value → Action β}
    (h : ∀ v v', m.values[d]? = some v → m'.values[d]? = some v' → B.Twin v v' →
      Jointly Q (g v) m (k v') m') :
    Jointly Q (Machine.peek d >>= g) m (Machine.peek d >>= k) m' := by
  obtain ⟨v, v', heq, heq', hv⟩ := A.values.getElem? hlen
  refine .bind_ok (a := v) (b := v') ?_ ?_ (h v v' heq heq' hv)
  · rw [peek_values, heq]
  · rw [peek_values, heq']

theorem Amid.readSlot (A : Amid S n B P f fs f' fs' m m') {slot : Nat} (hpos : 0 < slot)
    {g : Value → Action α} {k : Value → Action β}
    (h : ∀ v v', B.Twin v v' → Jointly Q (g v) m (k v') m') :
    Jointly Q (Machine.readSlot slot >>= g) m (Machine.readSlot slot >>= k) m' := by
  by_cases hslot : slot < m.values.length
  · obtain ⟨v, v', heq, heq', hv⟩ := A.values.atSlot? hpos hslot
    refine .bind_ok (a := v) (b := v') ?_ ?_ (h v v' hv)
    · rw [readSlot_apply, heq]
    · rw [readSlot_apply, heq']
  · have hread : Machine.readSlot slot m = .error (.violation .stackUnderflow) m := by
      rw [readSlot_apply, atSlot?_eq_none.mpr (Nat.le_of_not_lt hslot)]
    exact .bind (.of_violation hread)

theorem Amid.writeSlot (A : Amid S n B P f fs f' fs' m m') {slot : Nat}
    {Q : Unit → Machine → Unit → Machine → Prop}
    (h : slot < m.values.length → Q () (m.setValues (setSlot m.values slot v)) ()
      (m'.setValues (setSlot m'.values slot v'))) :
    Jointly Q (Machine.writeSlot slot v) m (Machine.writeSlot slot v') m' := by
  by_cases hslot : slot < m.values.length
  · exact .of_ok ((writeSlot_apply slot v).trans (if_pos hslot))
      ((writeSlot_apply slot v').trans (if_pos (A.values.length_eq ▸ hslot))) (h hslot)
  · exact .of_violation ((writeSlot_apply slot v).trans (if_neg hslot))

theorem Amid.slotBelow (A : Amid S n B P f fs f' fs' m m') {d : Nat} (hlen : d < m.values.length)
    {g : Nat → Action α} {k : Nat → Action β}
    (h : Jointly Q (g (m.values.length - 1 - d)) m (k (m.values.length - 1 - d)) m') :
    Jointly Q (Machine.slotBelow d >>= g) m (Machine.slotBelow d >>= k) m' := by
  refine .bind_ok ((slotBelow_apply d).trans (if_pos hlen)) ?_ h
  rw [slotBelow_apply, A.values.length_eq, if_pos hlen]

/-- The cells of a captured variable that the two share. -/
theorem Amid.cell (A : Amid S n B P f fs f' fs' m m') {k k' : Nat} (hk : P.shares k k') {e e' : Violation}
    {g : Nat → Action α} {g' : Nat → Action β}
    (h : ∀ c c', B.cell c c' → Jointly Q (g c) m (g' c') m') :
    Jointly Q (Machine.orViolate f.closure.cells[k]? e >>= g) m
      (Machine.orViolate f'.closure.cells[k']? e' >>= g') m' := by
  obtain ⟨c, c', hc, hc', hcell⟩ := A.lineup.seat.cells k k' hk
  refine .bind_ok (a := c) (b := c') ?_ ?_ (h c c' hcell)
  · rw [orViolate_apply, hc]
  · rw [orViolate_apply, hc']

end Amid

end LoxMachine
