import LoxMachine.Proofs.Machine.Effect
import LoxMachine.Proofs.Typing.Safety

/-!
# Captured variables along a run

While a variable is on the stack, closures share it through the one open cell of its slot. The list
of open cells keeps up with the stack (`Machine.Linked`): a cell never outlives its slot, and when
the slot goes, the cell takes the last value of the variable along.

Main statement: `Session.cells_follow_stack`, all this holds at each step of a run of compiled code.
-/

namespace LoxMachine

open Machine

/-! ## Open cells and slots -/

/-- The open cells are those that are listed, one for a slot, each in a slot of the stack. -/
structure Machine.Linked (m : Machine) : Prop where
  listed : ∀ c slot : Nat, m.store.cells[c]? = some (.inSlot slot) ↔ (slot, c) ∈ m.openCells
  single : ∀ slot c c' : Nat, (slot, c) ∈ m.openCells → (slot, c') ∈ m.openCells → c = c'
  below : ∀ slot c : Nat, (slot, c) ∈ m.openCells → slot < m.stack.size

/-- The next instruction assigns to the variable in a slot. -/
def Machine.Assigning (m : Machine) (slot : Nat) : Prop :=
  ∃ f fs ins q, m.frames = f :: fs ∧
    (m.store.chunk f.closure.function).instr? f.ip = some (ins, q) ∧
    ((∃ n, ins = .setLocal n ∧ slot = f.base + n) ∨
      ∃ i cell, ins = .setUpvalue i ∧ f.closure.cells[i]? = some cell ∧
        m.store.cells[cell]? = some (.inSlot slot))

section Linked

variable {m m' : Machine} {base slot c : Nat} {v : Value}

theorem Machine.Descending.eq_of_mem {l : List (Nat × Nat)} (h : Descending l) {c' : Nat}
    (hc : (slot, c) ∈ l) (hc' : (slot, c') ∈ l) : c = c' := by
  induction h with
  | nil => cases hc
  | @cons x l hx _ ih =>
      rcases List.mem_cons.mp hc with heq | hc <;> rcases List.mem_cons.mp hc' with heq' | hc'
      · exact (Prod.mk.inj (heq.trans heq'.symm)).2
      · have := hx _ hc'
        rw [← heq] at this
        exact absurd this (Nat.lt_irrefl _)
      · have := hx _ hc
        rw [← heq'] at this
        exact absurd this (Nat.lt_irrefl _)
      · exact ih hc hc'

theorem Steady.linked {w : World} {n : Nat} {Γ : List Slot} {x : Option String} {m : Machine}
    (h : Steady w n Γ x m.store m.globals m.openCells) (hlen : m.values.length = Γ.length) :
    m.Linked where
  listed := h.opened
  single _ _ _ := h.descending.eq_of_mem
  below slot c hmem := by
    rw [size_stack, hlen]
    exact h.lt_of_mem hmem

theorem Goes.linked {rs : Array Routine} {ℓ : Lineage} {n : Nat} (h : Goes rs ℓ n m) : m.Linked := by
  rcases h with ⟨w, f, fs, G, E, σ, Γ, -, -, R, -⟩ | h
  · exact R.steady.linked R.values.length_eq
  · obtain ⟨w, -, -, hs, -⟩ := h.steady
    rw [← h.openCells] at hs
    exact hs.linked (congrArg List.length h.values)

/-- Closing detaches the cells from a slot on, with the values in their slots, and keeps the
others. -/
theorem Machine.Linked.closed (hd : Descending m.openCells)
    (hlisted : ∀ c slot : Nat, m.store.cells[c]? = some (.inSlot slot) ↔ (slot, c) ∈ m.openCells)
    (hmem : (slot, c) ∈ m.openCells) (hv : atSlot? m.values slot = some v) (base : Nat) :
    base ≤ slot ∧ (m.closed base).store.cells[c]? = some (.closed v) ∨
      slot < base ∧ (slot, c) ∈ (m.closed base).openCells := by
  rcases Nat.lt_or_ge slot base with hlt | hge
  · exact .inr ⟨hlt, hd.mem_dropWhile.mpr ⟨hmem, hlt⟩⟩
  · refine .inl ⟨hge, closeCells_of_mem (hd.mem_takeWhile.mpr ⟨hmem, hge⟩) ?_ ?_ ?_⟩
    · intro slot' hmem'
      have := (hlisted c slot').mpr (hd.mem_takeWhile.mp hmem').1
      rw [(hlisted c slot).mpr hmem] at this
      cases this
      rfl
    · rw [getElem?_stack, hv]
    · exact (Array.getElem?_eq_some_iff.mp ((hlisted c slot).mpr hmem)).1

end Linked

/-! ## Steps -/

/-- What an instruction drops or replaces is shared with nobody. -/
theorem Flow.unshared {routines : Array Routine} {K : Layout → Env → Nat → Shape → Prop} {F : Layout}
    {E : Env} {q : Nat} {ins : Instr} {σ : Shape} (h : Flow routines K F E q ins σ) :
    ins.replaces ≤ σ.slots.length ∧ ∀ t ∈ σ.slots.take ins.replaces, t.shared = false := by
  have htop (top s : List Slot) (htop : ∀ t ∈ top, t.shared = false) :
      top.length ≤ (top ++ s).length ∧ ∀ t ∈ (top ++ s).take top.length, t.shared = false := by
    rw [List.take_left, List.length_append]
    exact ⟨Nat.le_add_right _ _, htop⟩
  have htemps (n : Nat) (x : Slot) (hx : x.shared = false) : ∀ t ∈ temps n ++ [x], t.shared = false := by
    intro t ht
    rcases List.mem_append.mp ht with ht | ht
    · rw [List.eq_of_mem_replicate ht]
    · rwa [List.mem_singleton.mp ht]
  cases h with
  | @operator op s hop h =>
      have := htop (temps op.takes) s fun t ht => (List.eq_of_mem_replicate ht) ▸ rfl
      rwa [List.length_replicate] at this
  | @call n s h =>
      have := htop (temps n ++ [.temp .any]) s (htemps n _ rfl)
      simpa [Instr.replaces] using this
  | @invoke name n s h =>
      have := htop (temps n ++ [.temp .any]) s (htemps n _ rfl)
      simpa [Instr.replaces] using this
  | @superInvoke name n c o s hc h =>
      have := htop (.temp (.is (.cls c)) :: (temps n ++ [.temp (.is (.object o))])) s
        (List.forall_mem_cons.mpr ⟨rfl, htemps n _ rfl⟩)
      simpa [Instr.replaces] using this
  | _ => simp [Instr.replaces]

/-- The next instruction of a live machine drops and replaces nothing that is shared. -/
theorem Live.next {rs : Array Routine} {ℓ : Lineage} {n : Nat} {m : Machine}
    (h : Live rs ℓ (n + 1) m) :
    ∃ f fs ins q, m.frames = f :: fs ∧
      (m.store.chunk f.closure.function).instr? f.ip = some (ins, q) ∧
      ∀ slot c : Nat, (slot, c) ∈ m.openCells → slot + ins.replaces < m.values.length := by
  obtain ⟨w, f, fs, G, E, σ, Γ, -, -, R, τ, ins, q, hle, hi, -, hflow⟩ := h
  refine ⟨f, fs, ins, q, R.frames, ?_, fun slot c hmem => ?_⟩
  · rw [Store.chunk, R.steady.chunks, Array.getD_eq_getD_getElem?, Array.getElem?_map, R.has.routine]
    exact hi
  · have R := R.weaken hle
    obtain ⟨hlen, hunshared⟩ := hflow.unshared
    obtain ⟨k, -, hslot⟩ := R.steady.shared slot c hmem
    rw [R.values.length_eq]
    by_contra hge
    rw [← List.take_append_drop ins.replaces τ.slots, List.append_assoc] at hslot hge
    set rest := τ.slots.drop ins.replaces ++ Γ
    have htake : (τ.slots.take ins.replaces).length = ins.replaces := List.length_take_of_le hlen
    rw [List.length_append, htake] at hge
    obtain ⟨d, rfl⟩ := Nat.exists_eq_add_of_le (show rest.length ≤ slot by omega)
    rw [atSlot?_append_left] at hslot
    cases hunshared _ (mem_of_atSlot? hslot)

section Slots

variable {α : Type}

/-- The slots below the top. -/
theorem atSlot?_tail {xs ys : List α} {x : α} {slot : Nat} (h : xs = x :: ys)
    (hslot : slot + 1 < xs.length) : slot < ys.length ∧ atSlot? ys slot = atSlot? xs slot := by
  subst h
  have hlt : slot < ys.length := by
    rw [List.length_cons] at hslot
    omega
  exact ⟨hlt, (atSlot?_append_right [x] ys hlt).symm⟩

/-- The slots below the base stay when the others are dropped. -/
theorem atSlot?_drop {xs : List α} {slot base : Nat} (hbase : slot < base) (hlt : slot < xs.length) :
    atSlot? (xs.drop (xs.length - base)) slot = atSlot? xs slot := by
  conv_rhs => rw [← List.take_append_drop (xs.length - base) xs]
  refine (atSlot?_append_right _ _ ?_).symm
  rw [List.length_drop]
  omega

end Slots

/-- Whatever a step does, a variable that closures share is still in its slot, with the value it had
unless the step assigns to it, or it has left with that value. -/
theorem Live.variable_stays {rs : Array Routine} {ℓ : Lineage} {n : Nat} {m m' : Machine}
    (h : Live rs ℓ (n + 1) m)
    (hrun : Machine.step m = .ok () m') {slot c : Nat} (hmem : (slot, c) ∈ m.openCells) :
    ∃ v, m.stack[slot]? = some v ∧ (m'.store.cells[c]? = some (.closed v) ∨
      (slot, c) ∈ m'.openCells ∧ (m'.stack[slot]? = some v ∨ m.Assigning slot)) := by
  have hlinked : m.Linked := Goes.linked (.inl h)
  have hdescending : Descending m.openCells := by
    obtain ⟨w, f, fs, G, E, σ, Γ, -, -, R, -⟩ := h
    exact R.steady.descending
  obtain ⟨f, fs, ins, q, hframes, hi, hbelow⟩ := h.next
  have hslot := hbelow slot c hmem
  obtain ⟨v, hv⟩ := atSlot?_isSome (show slot < m.values.length by omega)
  have hv' : m.stack[slot]? = some v := by rw [getElem?_stack, hv]
  refine ⟨v, hv', ?_⟩
  have heffect := effect_of_step hframes hi hrun
  by_cases hassign : ins.Assigns
  · refine .inr ?_
    cases heffect with
    | @setLocal k u us _ hvs hlt =>
        refine ⟨hmem, ?_⟩
        by_cases heq : slot = f.base + k
        · exact .inr ⟨f, fs, _, q, hframes, hi, .inl ⟨k, rfl, heq⟩⟩
        · refine .inl ?_
          rw [getElem?_stack, values_setValues, atSlot?_setSlot, if_neg (Ne.symm heq), hv]
    | @setClosed i cell old u us _ hcell hold hvs => exact ⟨hmem, .inl hv'⟩
    | @setOpen i cell slot' u us _ hcell hopen hvs hlt =>
        refine ⟨hmem, ?_⟩
        by_cases heq : slot' = slot
        · subst heq
          exact .inr ⟨f, fs, _, q, hframes, hi, .inr ⟨i, cell, rfl, hcell, hopen⟩⟩
        · refine .inl ?_
          rw [getElem?_stack, values_setValues, atSlot?_setSlot, if_neg heq, hv]
    | _ => exact hassign.elim
  by_cases hclose : ins.Closes
  · cases heffect with
    | @closeUpvalue u us _ hvs hcells =>
        rcases Linked.closed hdescending hlinked.listed hmem hv us.length with ⟨-, hc⟩ | ⟨hlt, hopen⟩
        · exact .inl hc
        · refine .inr ⟨hopen, .inl ?_⟩
          rw [getElem?_stack, values_setValues, ← hv, hvs]
          exact (atSlot?_append_right [u] us hlt).symm
    | @finish g u us _ hframes' hvs hcells =>
        obtain ⟨hlt, hus⟩ := atSlot?_tail hvs hslot
        rcases Linked.closed (m := { m with frames := [] }.setValues us) hdescending hlinked.listed
          hmem (by rw [values_setValues, hus, hv]) f.base with ⟨-, hc⟩ | ⟨hbase, hopen⟩
        · exact .inl hc
        · refine .inr ⟨hopen, .inl ?_⟩
          rw [getElem?_stack, values_setValues, atSlot?_drop hbase hlt, hus, hv]
    | @ret g g' fs' u us _ hframes' hvs hcells =>
        obtain ⟨hlt, hus⟩ := atSlot?_tail hvs hslot
        rcases Linked.closed (m := { m with frames := g' :: fs' }.setValues us) hdescending
          hlinked.listed hmem (by rw [values_setValues, hus, hv]) f.base with ⟨-, hc⟩ | ⟨hbase, hopen⟩
        · exact .inl hc
        · refine .inr ⟨hopen, .inl ?_⟩
          rw [getElem?_stack, values_setValues]
          exact atSlot?_cons_of_some (by rw [atSlot?_drop hbase hlt, hus, hv])
    | _ => exact hclose.elim
  · obtain ⟨⟨top, rest, top', hvs, hlen, hvs'⟩, hopen, -⟩ := heffect.replaced hassign hclose
    refine .inr ⟨hopen _ hmem, .inl ?_⟩
    have hrest : slot < rest.length := by
      rw [hvs, List.length_append, hlen] at hslot
      omega
    rw [getElem?_stack, hvs', atSlot?_append_right _ _ hrest, ← hv, hvs,
      atSlot?_append_right _ _ hrest]

/-- A variable that has left the stack does not come back to it. -/
theorem Live.closed_stays {rs : Array Routine} {ℓ : Lineage} {n : Nat} {m m' : Machine}
    (h : Live rs ℓ (n + 1) m)
    (hrun : Machine.step m = .ok () m') {c : Nat} {v : Value}
    (hc : m.store.cells[c]? = some (.closed v)) : ∃ v', m'.store.cells[c]? = some (.closed v') := by
  have hlinked : m.Linked := Goes.linked (.inl h)
  obtain ⟨f, fs, ins, q, hframes, hi, -⟩ := h.next
  have heffect := effect_of_step hframes hi hrun
  have hunlisted (slot base : Nat) : (slot, c) ∉ m.openCells.takeWhile (base ≤ ·.1) := by
    intro hmem
    have := (hlinked.listed c slot).mpr ((List.takeWhile_sublist _).subset hmem)
    rw [hc] at this
    cases this
  by_cases hassign : ins.Assigns
  · cases heffect with
    | setLocal | setOpen => exact ⟨v, hc⟩
    | @setClosed i cell old u us _ hcell hold hvs =>
        by_cases heq : cell = c
        · subst heq
          exact ⟨u, Array.getElem?_setIfInBounds_self_of_lt (Array.getElem?_eq_some_iff.mp hc).1⟩
        · exact ⟨v, (Array.getElem?_setIfInBounds_ne heq).trans hc⟩
    | _ => exact hassign.elim
  by_cases hclose : ins.Closes
  · cases heffect with
    | closeUpvalue | finish | ret =>
        exact ⟨v, (closeCells_of_not_mem fun slot => hunlisted slot _).trans hc⟩
    | _ => exact hclose.elim
  · exact ⟨v, (heffect.replaced hassign hclose).cells c _ hc⟩

/-- At each step of a run of compiled code the open cells are those of variables on the stack, one
for a slot; a variable that leaves the stack takes its last value into its cell, for good, and no
other variable gets its slot before that. -/
theorem Session.cells_follow_stack {m : Machine} (h : Session .running m) :
    m.Linked ∧ ∀ m', Machine.step m.traceStep = .ok () m' → m'.Linked ∧
      (∀ slot c : Nat, (slot, c) ∈ m.openCells → ∃ v, m.stack[slot]? = some v ∧
        (m'.store.cells[c]? = some (.closed v) ∨
          (slot, c) ∈ m'.openCells ∧ (m'.stack[slot]? = some v ∨ m.Assigning slot))) ∧
      ∀ (c : Nat) (v : Value), m.store.cells[c]? = some (.closed v) →
        ∃ v', m'.store.cells[c]? = some (.closed v') := by
  obtain ⟨rs, ℓ, hlive⟩ := h.sound
  have htrace : Live rs ℓ 1 m.traceStep := (hlive 1).traceStep
  refine ⟨Goes.linked (.inl (hlive 0)), fun m' hrun => ⟨?_, fun slot c hmem => ?_, fun c v hc => ?_⟩⟩
  · have hgoes := htrace.step
    rw [Fine, hrun] at hgoes
    exact hgoes.linked
  all_goals rw [m.alike_traceStep] at htrace hrun
  · exact htrace.variable_stays hrun hmem
  · exact htrace.closed_stays hrun hc

/-- A local variable that a function has captured, before the end of its scope and after it. -/
theorem Session.cells_follow_stack_shared :
    let source := "{ var x = nil; fun g() { return x; } x = true; }"
    let m := ((Machine.new {}).runSource 6 source).2
    m.openCells = [(1, 0)] ∧ m.Linked ∧
      ((Machine.new {}).runSource 7 source).2.store.cells[0]? = some (.closed (.boolean true)) := by
  intro source m
  have h : Session .running m :=
    .unfinished (.new {}) ⟨6, _, Prod.ext (by decide +kernel : Prod.fst _ = Ending.unfinished) rfl⟩
  exact ⟨by decide +kernel, (Session.cells_follow_stack h).1, by decide +kernel⟩

end LoxMachine
