import LoxMachine.Proofs.Twin.Actions

/-!
# Twins that call

Calls of twins, by whatever instruction. The functions that are entered resemble each other.
-/

namespace LoxMachine

open Machine

section Calls

variable {S : Scene} {n count : Nat} {B : Bond} {P : Pairing} {f f' : Frame} {fs fs' : List Frame}
  {m m' : Machine} {v v' : Value}

/-- Both go on alike. -/
abbrev Same (S : Scene) (n : Nat) (x : Action Unit) (m : Machine) (y : Action Unit) (m' : Machine) : Prop :=
  Jointly (fun _ m₁ _ m₁' => Twins S n m₁ m₁') x m y m'

theorem Heaps.alike {g g' : Closure} (h : Heaps S n B m m') (hg : B.made (.closure g) (.closure g')) :
    B.Alike S n g g' := by
  cases h.linked _ _ hg with
  | closure h => exact h

theorem Amid.call {g g' : Closure} (A : Amid S n B P f fs f' fs' m m')
    (hg : B.made (.closure g) (.closure g')) (hlen : count + 1 < m.values.length)
    (hresembles : Resembles S.left S.right n P f.ip f'.ip) :
    Same S n (Machine.call g count) m (Machine.call g' count) m' := by
  have hlength := A.values.length_eq
  obtain ⟨-, harity, G, hscript, hseat, hcode⟩ := A.heaps.alike hg
  have hleft := call_apply g count (m := m) (by omega)
  have hright := call_apply g' count (m := m') (by omega)
  by_cases hcount : count ≠ g.function.arity
  · rw [if_pos hcount] at hleft
    rw [← harity, if_pos hcount] at hright
    exact .of_error hleft hright A.heaps.output
  · rw [if_neg hcount] at hleft
    rw [← harity, if_neg hcount] at hright
    have hframes : m'.frames.length = m.frames.length := by
      rw [A.frames, A.frames', List.length_cons, List.length_cons, A.lineup.length_eq]
    by_cases hroom : m.frames.length < maxFrames
    · rw [if_pos hroom] at hleft
      rw [hframes, if_pos hroom] at hright
      refine .of_ok hleft hright ⟨B, G, ⟨g, 0, m.values.length - 1 - count⟩, f :: fs,
        ⟨g', 0, m'.values.length - 1 - count⟩, f' :: fs', ?_, hcode⟩
      exact {
        frames := by rw [A.frames]
        frames' := by rw [A.frames']
        lineup := .call hscript hseat (by change 0 < m.values.length - 1 - count; omega)
          (by rw [hlength]) hresembles A.lineup
        values := A.values
        heaps := { A.heaps with } }
    · rw [if_neg hroom] at hleft
      rw [hframes, if_neg hroom] at hright
      exact .of_error hleft hright A.heaps.output

/-- A look-up in tables of twins finds twins or nothing. -/
theorem rel_cases {α β : Type} {R : α → β → Prop} {x : Option α} {y : Option β} (h : Option.Rel R x y) :
    x = none ∧ y = none ∨ ∃ a b, x = some a ∧ y = some b ∧ R a b := by
  cases h with
  | none => exact .inl ⟨rfl, rfl⟩
  | some h => exact .inr ⟨_, _, rfl, rfl, h⟩

theorem Amid.construct (A : Amid S n B P f fs f' fs' m m') (c : Class) {slot : Nat}
    (hlen : count + 1 < m.values.length)
    (hresembles : Resembles S.left S.right n P f.ip f'.ip) :
    Same S n (Machine.construct c slot count) m (Machine.construct c slot count) m' := by
  -- The new object has the same number on both sides.
  obtain ⟨o, ho⟩ : ∃ o, o = (m.store.newObject c).1 := ⟨_, rfl⟩
  have hmake : make (·.newObject c) m = .ok o { m with store := (m.store.newObject c).2 } := by
    rw [ho]
    rfl
  have hmake' : make (·.newObject c) m' = .ok o { m' with store := (m'.store.newObject c).2 } := by
    rw [ho, Store.newObject, A.heaps.objects]
    rfl
  refine .bind_ok hmake hmake' ?_
  have A₁ := A.change (.refl B) (A.heaps.newObject c) rfl rfl rfl rfl
  refine .bind (A₁.writeSlot fun hslot => ?_)
  have A₂ := A₁.setValues (A₁.values.setSlot (.fixed (v := .object o) trivial) slot)
  refine .bind_ok rfl rfl ?_
  rcases rel_cases (A₂.heaps.methods c initName) with ⟨hnone, hnone'⟩ | ⟨g, g', hsome, hsome', hg⟩
  · rw [hnone, hnone']
    by_cases hcount : count ≠ 0
    · rw [if_pos hcount]
      exact .fail A₂.heaps.output
    · rw [if_neg hcount]
      exact .pure (A₂.twins hresembles)
  · rw [hsome, hsome']
    refine A₂.call hg ?_ hresembles
    rw [values_setValues, length_setSlot]
    exact hlen

/-- The clock shows both the same. -/
theorem Heaps.apply (h : Heaps S n B m m') (native : Native) (vs vs' : List Value) :
    m.store.apply native m.time vs = m'.store.apply native m'.time vs' ∧
      (m.store.apply native m.time vs).Fixed := by
  rw [Store.apply, Store.apply, h.natives.1, h.natives.2, h.time]
  cases hf : (#[clock] : Array NativeFunction)[native.id]? with
  | none => exact ⟨rfl, trivial⟩
  | some f =>
      obtain rfl : f = clock := by simpa using Array.mem_of_getElem? hf
      exact ⟨rfl, trivial⟩

theorem Amid.callNative (A : Amid S n B P f fs f' fs' m m') (native : Native) {slot : Nat}
    (hpos : 0 < slot) (hresembles : Resembles S.left S.right n P f.ip f'.ip) :
    Same S n (Machine.callNative native slot) m (Machine.callNative native slot) m' := by
  have hlength := A.values.length_eq
  have hpositive := A.values.pos
  obtain ⟨heq, hfixed⟩ := A.heaps.apply native (m.stack.extract (slot + 1)).toList
    (m'.stack.extract (slot + 1)).toList
  refine .bind_ok rfl rfl (.bind_ok (truncate_apply slot) (truncate_apply slot) ?_)
  have A₁ := A.setValues (A.values.drop (d := m.values.length - slot) (by omega))
  rw [hlength, ← heq]
  exact A₁.push_last (.fixed hfixed) hresembles

theorem Amid.callValue (A : Amid S n B P f fs f' fs' m m') (hv : B.Twin v v')
    (hlen : count + 1 < m.values.length)
    (hresembles : Resembles S.left S.right n P f.ip f'.ip) :
    Same S n (Machine.callValue v count) m (Machine.callValue v' count) m' := by
  refine A.slotBelow (by omega) ?_
  cases hv with
  | fixed hfixed =>
      cases v with
      | cls c => exact A.construct c hlen hresembles
      | native native => exact A.callNative native (by omega) hresembles
      | function | closure | bound => exact hfixed.elim
      | _ => exact .fail A.heaps.output
  | made hmade =>
      cases A.heaps.linked _ _ hmade with
      | closure => exact A.call hmade hlen hresembles
      | @bound _ _ r r' _ _ hr hc =>
          refine .bind (A.writeSlot fun hslot => ?_)
          have A₁ := A.setValues (A.values.setSlot hr (m.values.length - 1 - count))
          refine A₁.call hc ?_ hresembles
          rw [values_setValues, length_setSlot]
          exact hlen

theorem Amid.method {α β : Type} {Q : α → Machine → β → Machine → Prop}
    (A : Amid S n B P f fs f' fs' m m') (c : Class) (name : String)
    {g : Closure → Action α} {k : Closure → Action β}
    (h : ∀ a b, B.made (.closure a) (.closure b) → Jointly Q (g a) m (k b) m') :
    Jointly Q (Machine.method c name >>= g) m (Machine.method c name >>= k) m' := by
  refine .bind (.bind_ok rfl rfl ?_)
  rcases rel_cases (A.heaps.methods c name) with ⟨hnone, hnone'⟩ | ⟨a, b, hsome, hsome', hab⟩
  · rw [hnone, hnone']
    exact .fail A.heaps.output
  · rw [hsome, hsome']
    exact .pure (h a b hab)

theorem Amid.invokeFrom (A : Amid S n B P f fs f' fs' m m') (c : Class) (name : String)
    (hlen : count + 1 < m.values.length)
    (hresembles : Resembles S.left S.right n P f.ip f'.ip) :
    Same S n (Machine.invokeFrom c name count) m (Machine.invokeFrom c name count) m' :=
  A.method c name fun _ _ hab => A.call hab hlen hresembles

/-- Both push something that they have made. -/
theorem Amid.push_made (A : Amid S n B P f fs f' fs' m m') (hlinked : B.Linked S n v v')
    (hv : v.serial? = some m.store.nextId) (hv' : v'.serial? = some m'.store.nextId)
    (hresembles : Resembles S.left S.right n P f.ip f'.ip) :
    Same S n (Machine.push v) { m with store := { m.store with nextId := m.store.nextId + 1 } }
      (Machine.push v') { m' with store := { m'.store with nextId := m'.store.nextId + 1 } } := by
  have hheaps := A.heaps.make hlinked hv hv'
  exact Amid.push_last (A.change (B.le_with v v') hheaps rfl rfl rfl rfl) (.made (.inr ⟨rfl, rfl⟩)) hresembles

/-- Both make a bound method of twins. -/
theorem Amid.bindMethod (A : Amid S n B P f fs f' fs' m m') (c : Class) (name : String)
    (hlen : 1 < m.values.length) (hresembles : Resembles S.left S.right n P f.ip f'.ip) :
    Same S n (Machine.bindMethod c name) m (Machine.bindMethod c name) m' := by
  refine A.method c name fun g g' hg => A.pop hlen fun r r' us us' _ _ hr hus => ?_
  have A₁ := A.setValues hus
  exact .bind_ok rfl rfl (A₁.push_made (.bound hr hg) rfl rfl hresembles)

theorem Amid.invoke (A : Amid S n B P f fs f' fs' m m') (name : String)
    (hlen : count + 1 < m.values.length)
    (hresembles : Resembles S.left S.right n P f.ip f'.ip) :
    Same S n (Machine.invoke name count) m (Machine.invoke name count) m' := by
  refine A.peek hlen fun v v' _ _ hv => ?_
  cases hv with
  | fixed =>
      cases v with
      | object o =>
          refine .bind_ok rfl rfl ?_
          rcases rel_cases (A.heaps.fields o name) with ⟨hnone, hnone'⟩ | ⟨u, u', hsome, hsome', hu⟩
          · rw [hnone, hnone']
            exact A.invokeFrom o.cls name hlen hresembles
          · rw [hsome, hsome']
            refine A.slotBelow (by omega) (.bind (A.writeSlot fun hslot => ?_))
            have A₁ := A.setValues (A.values.setSlot hu (m.values.length - 1 - count))
            refine A₁.callValue hu ?_ hresembles
            rw [values_setValues, length_setSlot]
            exact hlen
      | _ => exact .fail A.heaps.output
  | made hmade =>
      cases A.heaps.linked _ _ hmade <;> exact .fail A.heaps.output

end Calls

end LoxMachine
