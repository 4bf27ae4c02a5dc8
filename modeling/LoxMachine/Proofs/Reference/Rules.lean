import LoxMachine.Proofs.Reference.Reflection
import LoxMachine.Proofs.Twin.Calls

/-!
# Actions on both machines

Rules for one action of the machine and the action of the machine of cells that goes with it
(`Echoes`): whatever the first does, the second does too. An action that breaks a rule of the machine
is not looked at; no instruction of a program does.
-/

namespace LoxMachine

open Machine

/-! ## Actions that go together -/

/-- When the action of the machine succeeds, so does that of the machine of cells, as `Q` says; when it
fails, the other one fails with the same error, in the same calls and with the same output and log. -/
def Echoes {α β : Type} (Q : α → Machine → β → CellMachine → Prop) (x : Action α) (m : Machine)
    (y : CellMachine.Action β) (s : CellMachine) : Prop :=
  match x m with
  | .ok a m₁ => ∃ b s₁, y s = .ok b s₁ ∧ Q a m₁ b s₁
  | .error (.runtime e) m₁ =>
    ∃ s₁, y s = .error (.runtime e) s₁ ∧ s₁.console = m₁.console ∧ s₁.trace = m₁.trace
  | .error (.violation _) _ => True

namespace CellMachine

variable {α β : Type} {x : Action α} {g : α → Action β} {s s₁ : CellMachine}

theorem bind_of_ok {a : α} (h : x s = .ok a s₁) : (x >>= g) s = g a s₁ := by
  change EStateM.bind x g s = _
  rw [EStateM.bind, h]

theorem bind_of_error {e : Fault} (h : x s = .error e s₁) : (x >>= g) s = .error e s₁ := by
  change EStateM.bind x g s = _
  rw [EStateM.bind, h]

theorem push_apply (v : Value) (s : CellMachine) :
    push v s =
      if s.stack.length < maxStack then
        .ok () { s with heap := s.heap.push v, stack := s.heap.size :: s.stack }
      else .error (.runtime .stackOverflow) s := by
  change (if _ then _ else _ : Action Unit) s = _
  split <;> rfl

variable {d n slot : Nat} {v : Value}

theorem read_apply (hv : s.heap[d]? = some v) : read d s = .ok v s := by
  change orViolate s.heap[d]? _ s = _
  rw [hv]
  rfl

theorem cellBelow_apply (hd : s.stack[n]? = some d) : cellBelow n s = .ok d s := by
  change orViolate s.stack[n]? _ s = _
  rw [hd]
  rfl

theorem cellAt_apply (hd : atSlot? s.stack slot = some d) : cellAt slot s = .ok d s := by
  change orViolate (atSlot? s.stack slot) _ s = _
  rw [hd]
  rfl

theorem peek_apply (hd : s.stack[n]? = some d) (hv : s.heap[d]? = some v) : peek n s = .ok v s :=
  (bind_of_ok (cellBelow_apply hd)).trans (read_apply hv)

theorem pop_apply (hd : s.stack[0]? = some d) (hv : s.heap[d]? = some v) :
    pop s = .ok v { s with stack := s.stack.drop 1 } :=
  bind_of_ok (peek_apply hd hv)

theorem frame_apply {f : Frame} {fs : List Frame} (h : s.frames = f :: fs) : frame s = .ok f s := by
  change orViolate s.frames.head? _ s = _
  rw [h]
  rfl

end CellMachine

namespace Echoes

variable {α β γ δ : Type} {Q : γ → Machine → δ → CellMachine → Prop} {m m₁ : Machine}
  {s s₁ : CellMachine}

theorem of_ok {x : Action γ} {y : CellMachine.Action δ} {a : γ} {b : δ} (hx : x m = .ok a m₁)
    (hy : y s = .ok b s₁) (h : Q a m₁ b s₁) : Echoes Q x m y s := by
  rw [Echoes, hx]
  exact ⟨b, s₁, hy, h⟩

theorem of_violation {x : Action γ} {y : CellMachine.Action δ} {v : Violation}
    (hx : x m = .error (.violation v) m₁) : Echoes Q x m y s := by
  rw [Echoes, hx]
  trivial

theorem of_error {x : Action γ} {y : CellMachine.Action δ} {e : RuntimeError}
    (hx : x m = .error (.runtime e) m₁) (hy : y s = .error (.runtime e) s₁)
    (hconsole : s₁.console = m₁.console) (htrace : s₁.trace = m₁.trace) : Echoes Q x m y s := by
  rw [Echoes, hx]
  exact ⟨s₁, hy, hconsole, htrace⟩

theorem pure {a : γ} {b : δ} (h : Q a m b s) : Echoes Q (pure a) m (pure b) s :=
  ⟨b, s, rfl, h⟩

theorem bind {x : Action α} {y : CellMachine.Action β} {g : α → Action γ}
    {j : β → CellMachine.Action δ}
    (h : Echoes (fun a m₁ b s₁ => Echoes Q (g a) m₁ (j b) s₁) x m y s) :
    Echoes Q (x >>= g) m (y >>= j) s := by
  unfold Echoes at *
  rw [bind_apply]
  cases hx : x m with
  | ok a m₁ =>
      rw [hx] at h
      obtain ⟨b, s₁, hy, h⟩ := h
      rw [CellMachine.bind_of_ok hy]
      exact h
  | error e m₁ =>
      rw [hx] at h
      cases e with
      | violation v => trivial
      | runtime e =>
          obtain ⟨s₁, hy, h⟩ := h
          exact ⟨s₁, CellMachine.bind_of_error hy, h⟩

theorem bind_ok {x : Action α} {y : CellMachine.Action β} {g : α → Action γ}
    {j : β → CellMachine.Action δ} {a : α} {b : β} (hx : x m = .ok a m₁) (hy : y s = .ok b s₁)
    (h : Echoes Q (g a) m₁ (j b) s₁) : Echoes Q (x >>= g) m (y >>= j) s :=
  bind (of_ok hx hy h)

theorem bind_left {x : Action α} {g : α → Action γ} {y : CellMachine.Action δ} {a : α}
    (hx : x m = .ok a m₁) (h : Echoes Q (g a) m₁ y s) : Echoes Q (x >>= g) m y s := by
  rw [Echoes, bind_apply, hx]
  exact h

theorem bind_right {x : Action γ} {y : CellMachine.Action β} {j : β → CellMachine.Action δ} {b : β}
    (hy : y s = .ok b s₁) (h : Echoes Q x m (j b) s₁) : Echoes Q x m (y >>= j) s := by
  rw [Echoes, CellMachine.bind_of_ok hy]
  exact h

theorem bind_violation {x : Action α} {g : α → Action γ} {y : CellMachine.Action δ} {v : Violation}
    (hx : x m = .error (.violation v) m₁) : Echoes Q (x >>= g) m y s := by
  rw [Echoes, bind_apply, hx]
  trivial

end Echoes

/-! ## Machines in the same state -/

/-- Both go on in the same state; more cells may stand for variables than before. -/
def Joined {α β : Type} (N : Naming) (_ : α) (m : Machine) (_ : β) (s : CellMachine) : Prop :=
  ∃ N' : Naming, N.Le N' ∧ Reflects N' 0 m s

namespace Reflects

variable {α β : Type} {Q : α → Machine → β → CellMachine → Prop} {N : Naming} {k n : Nat} {m : Machine}
  {s : CellMachine} {v v' : Value}

theorem joined {a : α} {b : β} (M : Reflects N k m s) : Joined N a m b s :=
  ⟨N, .refl N, M.le (Nat.zero_le k)⟩

theorem line_eq {f f' : Frame} (M : Reflects N k m s) (hf : N.SameCall f f') :
    Frame.line s.store f' = Frame.line m.store f := by
  rw [Frame.line, Frame.line, Store.chunk, Store.chunk, M.chunks, hf.closure.function, hf.ip]

theorem trace_eq (M : Reflects N k m s) : s.trace = m.trace := by
  rw [CellMachine.trace, Machine.trace]
  have hframes := M.frames
  generalize m.frames = fs, s.frames = fs' at hframes
  induction hframes with
  | nil => rfl
  | cons hf _ ih =>
      rw [List.map_cons, List.map_cons, ih, M.line_eq hf, hf.closure.function]

theorem fail {e : RuntimeError} (M : Reflects N k m s) :
    Echoes Q (Machine.fail e) m (CellMachine.fail e) s :=
  .of_error rfl rfl M.console M.trace_eq

/-! ## The stack -/

theorem push_apply {Q : Unit → Machine → Unit → CellMachine → Prop} (M : Reflects N k m s)
    (hv : N.Like v v') (h : ∀ m₁ s₁, Reflects N (k + 1) m₁ s₁ → Q () m₁ () s₁) :
    Echoes Q (Machine.push v) m (CellMachine.push v') s := by
  have hlength := M.length_eq
  by_cases hroom : m.values.length < maxStack
  · exact .of_ok ((Machine.push_apply m v).trans (if_pos hroom))
      ((CellMachine.push_apply v' s).trans (if_pos (hlength ▸ hroom))) (h _ _ (M.push hv))
  · exact .of_error ((Machine.push_apply m v).trans (if_neg hroom))
      ((CellMachine.push_apply v' s).trans (if_neg (hlength ▸ hroom))) M.console M.trace_eq

/-- A push that ends an instruction. -/
theorem push_last (M : Reflects N k m s) (hv : N.Like v v') :
    Echoes (Joined N) (Machine.push v) m (CellMachine.push v') s :=
  M.push_apply hv fun _ _ M₁ => M₁.joined

/-- The cell of a position holds what the position has. -/
theorem getElem? (M : Reflects N k m s) (hv : m.values[n]? = some v) :
    ∃ d v', s.stack[n]? = some d ∧ s.heap[d]? = some v' ∧ N.Like v v' := by
  obtain ⟨d, hd, v', hv', hlike⟩ := forall₂_getElem? M.values hv
  exact ⟨d, v', hd, hv', hlike⟩

theorem peek {g : Value → Action α} {j : Value → CellMachine.Action β} (M : Reflects N k m s)
    (h : ∀ v v', N.Like v v' → Echoes Q (g v) m (j v') s) :
    Echoes Q (Machine.peek n >>= g) m (CellMachine.peek n >>= j) s := by
  cases hv : m.values[n]? with
  | none => exact .bind (.of_violation (by rw [peek_values, hv]))
  | some v =>
      obtain ⟨d, v', hd, hv', hlike⟩ := M.getElem? hv
      exact .bind_ok (by rw [peek_values, hv]) (CellMachine.peek_apply hd hv') (h v v' hlike)

theorem pop {g : Value → Action α} {j : Value → CellMachine.Action β}
    (M : Reflects N (k + 1) m s)
    (h : ∀ v v' m₁ s₁, N.Like v v' → Reflects N k m₁ s₁ → Echoes Q (g v) m₁ (j v') s₁) :
    Echoes Q (Machine.pop >>= g) m (CellMachine.pop >>= j) s := by
  cases hvs : m.values with
  | nil => exact .bind (.of_violation (pop_nil m hvs))
  | cons v vs =>
      obtain ⟨d, v', hd, hv', hlike⟩ := M.getElem? (n := 0) (v := v) (by rw [hvs]; rfl)
      have M₁ := M.drop
      rw [hvs] at M₁
      exact .bind_ok (pop_cons hvs) (CellMachine.pop_apply hd hv') (h v v' _ _ hlike M₁)

theorem popClass {g : Class → Action α} {j : Class → CellMachine.Action β}
    (M : Reflects N (k + 1) m s)
    (h : ∀ c m₁ s₁, Reflects N k m₁ s₁ → Echoes Q (g c) m₁ (j c) s₁) :
    Echoes Q (Machine.popClass >>= g) m (CellMachine.popClass >>= j) s := by
  refine .bind (M.pop fun v v' m₁ s₁ hv M₁ => ?_)
  cases hv with
  | fixed =>
      cases v with
      | cls c => exact .pure (h c m₁ s₁ M₁)
      | _ => exact .of_violation rfl
  | closure | bound => exact .of_violation rfl

/-! ## Slots and cells -/

theorem slotBelow {g : Nat → Action α} {j : Nat → CellMachine.Action β} (M : Reflects N k m s)
    (h : ∀ slot d, atSlot? s.stack slot = some d → m.values.length - slot = n + 1 →
      Echoes Q (g slot) m (j d) s) :
    Echoes Q (Machine.slotBelow n >>= g) m (CellMachine.cellBelow n >>= j) s := by
  have hlength := M.length_eq
  by_cases hlt : n < m.values.length
  · obtain ⟨d, hd⟩ : ∃ d, s.stack[n]? = some d := ⟨_, List.getElem?_eq_getElem (by omega)⟩
    have hslot : atSlot? s.stack (m.values.length - 1 - n) = some d := by
      rw [atSlot?, List.getElem?_reverse (by omega), ← hd]
      congr 1
      omega
    exact .bind_ok ((slotBelow_apply n).trans (if_pos hlt)) (CellMachine.cellBelow_apply hd)
      (h _ d hslot (by omega))
  · exact .bind (.of_violation ((slotBelow_apply n).trans (if_neg hlt)))

theorem readSlot {slot : Nat} {g : Value → Action α} {j : Value → CellMachine.Action β}
    (M : Reflects N k m s) (h : ∀ v v', N.Like v v' → Echoes Q (g v) m (j v') s) :
    Echoes Q (Machine.readSlot slot >>= g) m
      (CellMachine.cellAt slot >>= fun d => CellMachine.read d >>= j) s := by
  by_cases hlt : slot < m.values.length
  · obtain ⟨d, hd⟩ := M.cell_of_slot hlt
    obtain ⟨v, hv, v', hv', hlike⟩ := M.holds hd
    refine .bind_right (CellMachine.cellAt_apply hd) ?_
    exact .bind_ok (by rw [readSlot_apply, hv]) (CellMachine.read_apply hv') (h v v' hlike)
  · have hbeyond : Machine.readSlot slot m = .error (.violation .stackUnderflow) m := by
      rw [readSlot_apply, atSlot?_eq_none.mpr (Nat.le_of_not_lt hlt)]
    exact .bind (.of_violation hbeyond)

/-- A value is put into a slot and into its cell. -/
theorem writeSlot {Q : Unit → Machine → Unit → CellMachine → Prop} {slot d : Nat} (M : Reflects N k m s)
    (hd : atSlot? s.stack slot = some d) (hv : N.Like v v')
    (h : ∀ m₁ s₁, Reflects N k m₁ s₁ → Q () m₁ () s₁) :
    Echoes Q (Machine.writeSlot slot v) m (CellMachine.write d v') s := by
  obtain ⟨u, hu, -⟩ := M.holds hd
  exact .of_ok ((writeSlot_apply slot v).trans (if_pos (lt_of_atSlot? hu))) rfl
    (h _ _ (M.assign hd hv))

/-! ## The running call -/

theorem moveTo_nil (h : m.frames = []) (p : Nat) :
    Machine.moveTo p m = .error (.violation .missingFrame) m := by
  simp only [Machine.moveTo, bind_apply, get_apply, h, violate_apply]

theorem moveTo {g : Unit → Action α} {j : Unit → CellMachine.Action β} (M : Reflects N k m s) (p : Nat)
    (h : ∀ m₁ s₁, Reflects N k m₁ s₁ → Echoes Q (g ()) m₁ (j ()) s₁) :
    Echoes Q (Machine.moveTo p >>= g) m (CellMachine.moveTo p >>= j) s := by
  cases hframes : m.frames with
  | nil => exact .bind (.of_violation (moveTo_nil hframes p))
  | cons f fs => exact .bind_ok (moveTo_apply hframes p) rfl (h _ _ (M.goto p))

/-- A jump that ends an instruction. -/
theorem jump (M : Reflects N k m s) (p : Nat) :
    Echoes (Joined N) (Machine.moveTo p) m (CellMachine.moveTo p) s := by
  cases hframes : m.frames with
  | nil => exact .of_violation (moveTo_nil hframes p)
  | cons f fs => exact .of_ok (moveTo_apply hframes p) rfl (M.goto p).joined

theorem frame {g : Frame → Action α} {j : Frame → CellMachine.Action β} (M : Reflects N k m s)
    (h : ∀ f f', N.SameCall f f' → Echoes Q (g f) m (j f') s) :
    Echoes Q (Machine.frame >>= g) m (CellMachine.frame >>= j) s := by
  have hframes := M.frames
  cases hfs : m.frames with
  | nil =>
      have hmissing : Machine.frame m = .error (.violation .missingFrame) m := by simp [Machine.frame, hfs]
      exact .bind (.of_violation hmissing)
  | cons f fs =>
      rw [hfs] at hframes
      obtain ⟨f', fs', hf, -, hfs'⟩ := List.forall₂_cons_left_iff.mp hframes
      exact .bind_ok (Machine.frame_apply hfs) (CellMachine.frame_apply hfs') (h f f' hf)

/-- A variable that the running closures share. -/
theorem cell {i : Nat} {f f' : Frame} (hf : N.SameCall f f') {e e' : Violation} {g : Nat → Action α}
    {j : Nat → CellMachine.Action β} (h : ∀ c d, N.pair c d → Echoes Q (g c) m (j d) s) :
    Echoes Q (Machine.orViolate f.closure.cells[i]? e >>= g) m
      (CellMachine.orViolate f'.closure.cells[i]? e' >>= j) s := by
  cases hc : f.closure.cells[i]? with
  | none => exact .bind (.of_violation rfl)
  | some c =>
      rw [← Array.getElem?_toList] at hc
      obtain ⟨d, hd, hcd⟩ := forall₂_getElem? hf.closure.cells hc
      rw [Array.getElem?_toList] at hd
      rw [hd]
      exact .bind_ok rfl rfl (h c d hcd)

end Reflects

end LoxMachine
