import LoxMachine.Proofs.Reference.Rules

/-!
# Calls on both machines

Calls, by whatever instruction: what is entered on the one side is entered on the other, and what lies
above the arguments goes alike.
-/

namespace LoxMachine

open Machine

namespace Reflects

variable {α β : Type} {Q : α → Machine → β → CellMachine → Prop} {N : Naming} {k count : Nat}
  {m : Machine} {s : CellMachine} {v v' : Value}

theorem call {g g' : Closure} (M : Reflects N k m s) (hg : N.Agree g g') :
    Echoes (Joined N) (Machine.call g count) m (CellMachine.call g' count) s := by
  have hlength := M.length_eq
  have hframes := M.frames.length_eq
  rw [Machine.call, CellMachine.call, hg.function]
  by_cases hcount : count ≠ g.function.arity
  · rw [if_pos hcount, if_pos hcount]
    exact .bind M.fail
  · rw [if_neg hcount, if_neg hcount]
    refine M.slotBelow fun slot d _ hslot => .bind_ok rfl rfl ?_
    rw [← hframes]
    by_cases hroom : m.frames.length < maxFrames
    · rw [if_pos hroom, if_pos hroom]
      have hbase : s.stack.length - 1 - count = slot := by omega
      have hentered : N.SameCall ⟨g, 0, slot⟩ ⟨g', 0, s.stack.length - 1 - count⟩ := ⟨hg, rfl, hbase⟩
      exact .of_ok rfl rfl (M.setFrames (.cons hentered M.frames)).joined
    · rw [if_neg hroom, if_neg hroom]
      exact M.fail

theorem construct (M : Reflects N k m s) (c : Class) {slot d : Nat}
    (hd : atSlot? s.stack slot = some d) :
    Echoes (Joined N) (Machine.construct c slot count) m (CellMachine.construct c d count) s := by
  -- The new object has the same number on both sides.
  have hobject : (s.store.newObject c).1 = (m.store.newObject c).1 := by
    rw [Store.newObject, Store.newObject, M.objects]
  have hmake : CellMachine.make (·.newObject c) s =
      .ok (m.store.newObject c).1 { s with store := (s.store.newObject c).2 } := by
    rw [← hobject]
    rfl
  refine .bind_ok rfl hmake (.bind ?_)
  refine (M.newObject c).writeSlot hd (.fixed trivial) fun m₁ s₁ M₁ => .bind_ok rfl rfl ?_
  rcases rel_cases (M₁.methods c initName) with ⟨hnone, hnone'⟩ | ⟨g, g', hsome, hsome', hg⟩
  · rw [hnone, hnone']
    by_cases hcount : count ≠ 0
    · rw [if_pos hcount, if_pos hcount]
      exact M₁.fail
    · rw [if_neg hcount, if_neg hcount]
      exact .pure M₁.joined
  · rw [hsome, hsome']
    exact M₁.call hg

/-- The functions of the host look at no cells. -/
theorem apply_eq (M : Reflects N k m s) (native : Native) (vs vs' : List Value) :
    s.store.apply native s.time vs' = m.store.apply native m.time vs ∧
      (m.store.apply native m.time vs).Fixed := by
  rw [Store.apply, Store.apply, M.natives.1, M.natives.2, M.time]
  cases hf : (#[clock] : Array NativeFunction)[native.id]? with
  | none => exact ⟨rfl, trivial⟩
  | some f =>
      obtain rfl : f = clock := by simpa using Array.mem_of_getElem? hf
      exact ⟨rfl, trivial⟩

theorem callNative (M : Reflects N (count + 1) m s) (native : Native) {slot : Nat}
    (hslot : m.values.length - slot = count + 1) :
    Echoes (Joined N) (Machine.callNative native slot) m (CellMachine.callNative native count) s := by
  have M₁ : Reflects N (0 + (count + 1)) m s := M.le (by omega)
  refine .bind_ok rfl rfl (.bind_ok (truncate_apply slot) rfl ?_)
  rw [hslot]
  obtain ⟨heq, hfixed⟩ := M.apply_eq native (m.stack.extract (slot + 1)).toList
    ((s.stack.take count).reverse.filterMap (s.heap[·]?))
  rw [heq]
  exact M₁.drop.push_last (.fixed hfixed)

theorem callValue (M : Reflects N (count + 1) m s) (hv : N.Like v v') :
    Echoes (Joined N) (Machine.callValue v count) m (CellMachine.callValue v' count) s := by
  refine M.slotBelow fun slot d hd hslot => ?_
  cases hv with
  | fixed hfixed =>
      cases v with
      | cls c => exact M.construct c hd
      | native native => exact M.callNative native hslot
      | function | closure | bound => exact hfixed.elim
      | _ => exact M.fail
  | closure hg => exact M.call hg
  | bound hr hg => exact .bind (M.writeSlot hd hr fun _ _ M₁ => M₁.call hg)

theorem method {g : Closure → Action α} {j : Closure → CellMachine.Action β} (M : Reflects N k m s)
    (c : Class) (name : String) (h : ∀ a b, N.Agree a b → Echoes Q (g a) m (j b) s) :
    Echoes Q (Machine.method c name >>= g) m (CellMachine.method c name >>= j) s := by
  refine .bind (.bind_ok rfl rfl ?_)
  rcases rel_cases (M.methods c name) with ⟨hnone, hnone'⟩ | ⟨a, b, hsome, hsome', hab⟩
  · rw [hnone, hnone']
    exact M.fail
  · rw [hsome, hsome']
    exact .pure (h a b hab)

theorem invokeFrom (M : Reflects N k m s) (c : Class) (name : String) :
    Echoes (Joined N) (Machine.invokeFrom c name count) m (CellMachine.invokeFrom c name count) s :=
  M.method c name fun _ _ hab => M.call hab

theorem bindMethod (M : Reflects N (k + 1) m s) (c : Class) (name : String) :
    Echoes (Joined N) (Machine.bindMethod c name) m (CellMachine.bindMethod c name) s := by
  refine M.method c name fun g g' hg => M.pop fun r r' m₁ s₁ hr M₁ => .bind_ok rfl rfl ?_
  rw [show (s₁.store.newBound r' g').1 = .bound m₁.store.nextId r' g' by
    rw [Store.newBound, M₁.nextId]]
  exact M₁.newId.push_last (.bound hr hg)

end Reflects

end LoxMachine
