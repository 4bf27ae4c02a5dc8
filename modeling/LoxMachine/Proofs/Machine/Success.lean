import LoxMachine.Proofs.Machine.Cells

/-!
# Actions that succeed

What is known when an action of the machine has succeeded: what it found, and the machine it left.
An action that leaves the machine alone gives the two machines equal.
-/

namespace LoxMachine.Machine

variable {α β : Type} {x : Action α} {g : α → Action β} {m m' : Machine} {b : β} {v : Value}
  {u : Unit} {d slot : Nat}

theorem bind_eq_ok : (x >>= g) m = .ok b m' ↔ ∃ a m₁, x m = .ok a m₁ ∧ g a m₁ = .ok b m' := by
  rw [bind_apply]
  cases x m with
  | ok a m₁ =>
      constructor
      · exact fun h => ⟨a, m₁, rfl, h⟩
      · rintro ⟨_, _, ⟨⟩, h⟩
        exact h
  | error e m₁ =>
      constructor
      · exact nofun
      · rintro ⟨_, _, ⟨⟩, _⟩

theorem push_eq_ok {vs : List Value} (h : push v m = .ok u m') (hvs : m.values = vs) :
    m' = m.setValues (v :: vs) := by
  subst hvs
  rw [push_apply] at h
  split at h
  · cases h
    rfl
  · cases h

theorem pop_eq_ok (h : pop m = .ok v m') : ∃ vs, m.values = v :: vs ∧ m' = m.setValues vs := by
  cases hvs : m.values with
  | nil =>
      rw [pop_nil m hvs] at h
      cases h
  | cons w vs =>
      rw [pop_cons hvs] at h
      cases h
      exact ⟨vs, rfl, rfl⟩

theorem peek_eq_ok (h : peek d m = .ok v m') : m.values[d]? = some v ∧ m = m' := by
  rw [peek_values] at h
  cases hv : m.values[d]? with
  | none =>
      rw [hv] at h
      cases h
  | some w =>
      rw [hv] at h
      cases h
      exact ⟨rfl, rfl⟩

theorem values_of_top (h : m.values[0]? = some v) : ∃ vs, m.values = v :: vs := by
  cases hvs : m.values with
  | nil =>
      rw [hvs] at h
      cases h
  | cons w vs =>
      rw [hvs] at h
      obtain rfl := Option.some.inj h
      exact ⟨vs, rfl⟩

theorem readSlot_eq_ok (h : readSlot slot m = .ok v m') :
    atSlot? m.values slot = some v ∧ m = m' := by
  rw [readSlot_apply] at h
  cases hv : atSlot? m.values slot with
  | none =>
      rw [hv] at h
      cases h
  | some w =>
      rw [hv] at h
      cases h
      exact ⟨rfl, rfl⟩

theorem writeSlot_eq_ok {u : Unit} (h : writeSlot slot v m = .ok u m') :
    slot < m.values.length ∧ m' = m.setValues (setSlot m.values slot v) := by
  rw [writeSlot_apply] at h
  split at h
  · cases h
    exact ⟨by assumption, rfl⟩
  · cases h

theorem slotBelow_eq_ok {n : Nat} (h : slotBelow d m = .ok n m') :
    d < m.values.length ∧ n = m.values.length - 1 - d ∧ m = m' := by
  rw [slotBelow_apply] at h
  split at h
  · cases h
    exact ⟨by assumption, rfl, rfl⟩
  · cases h

/-- A value found on the stack lies below others. -/
theorem values_of_getElem? (h : m.values[d]? = some v) :
    ∃ above below, m.values = above ++ v :: below ∧ above.length = d := by
  obtain ⟨hlt, rfl⟩ := List.getElem?_eq_some_iff.mp h
  exact ⟨m.values.take d, m.values.drop (d + 1), by simp, List.length_take_of_le (Nat.le_of_lt hlt)⟩

theorem popClass_eq_ok {c : Class} (h : popClass m = .ok c m') :
    ∃ vs, m.values = .cls c :: vs ∧ m' = m.setValues vs := by
  obtain ⟨v, m₁, hpop, h⟩ := bind_eq_ok.mp h
  obtain ⟨vs, hvs, rfl⟩ := pop_eq_ok hpop
  cases v with
  | cls c' =>
      cases h
      exact ⟨vs, hvs, rfl⟩
  | _ => cases h

theorem method_eq_ok {c : Class} {name : String} {g : Closure}
    (h : method c name m = .ok g m') : m.store.method? c name = some g ∧ m = m' := by
  obtain ⟨_, _, ⟨⟩, h⟩ := bind_eq_ok.mp h
  cases hg : m.store.method? c name with
  | none =>
      rw [hg] at h
      cases h
  | some g' =>
      rw [hg] at h
      cases h
      exact ⟨rfl, rfl⟩

theorem bindMethod_eq_ok {c : Class} {name : String} (h : bindMethod c name m = .ok u m') :
    ∃ g r vs, m.store.method? c name = some g ∧ m.values = r :: vs ∧
      m' = { m with store := (m.store.newBound r g).2 }.setValues
        ((m.store.newBound r g).1 :: vs) := by
  obtain ⟨g, m₁, hmethod, h⟩ := bind_eq_ok.mp h
  obtain ⟨hg, rfl⟩ := method_eq_ok hmethod
  obtain ⟨r, m₂, hpop, h⟩ := bind_eq_ok.mp h
  obtain ⟨vs, hvs, rfl⟩ := pop_eq_ok hpop
  obtain ⟨_, _, ⟨⟩, h⟩ := bind_eq_ok.mp h
  obtain rfl := push_eq_ok h rfl
  exact ⟨g, r, vs, hg, hvs, by simp [values, Machine.setValues, Store.newBound]⟩

theorem closeFrom_eq_ok {vs : List Value} (h : closeFrom slot m = .ok u m')
    (hvs : m.values = vs) :
    (∀ x ∈ m.openCells.takeWhile (slot ≤ ·.1), x.1 < vs.length) ∧ m' = m.closed slot := by
  rw [closeFrom_apply] at h
  split at h
  · cases h
  · rename_i hnone
    cases h
    refine ⟨fun x hx => Nat.lt_of_not_le fun hle => hnone ?_, rfl⟩
    rw [← hvs, ← size_stack] at hle
    exact List.any_eq_true.mpr ⟨x, hx, decide_eq_true hle⟩

theorem truncate_eq_ok {vs : List Value} (h : truncate slot m = .ok u m') (hvs : m.values = vs) :
    m' = m.setValues (vs.drop (vs.length - slot)) := by
  subst hvs
  rw [truncate_apply] at h
  cases h
  rfl

theorem orViolate_eq_ok {o : Option β} {e : Violation} (h : orViolate o e m = .ok b m') :
    o = some b ∧ m = m' := by
  rw [orViolate_apply] at h
  cases o with
  | none => cases h
  | some a =>
      cases h
      exact ⟨rfl, rfl⟩

end LoxMachine.Machine
