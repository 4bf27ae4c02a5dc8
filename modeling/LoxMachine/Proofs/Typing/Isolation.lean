import LoxMachine.Proofs.Machine.Confined
import LoxMachine.Proofs.Typing.Sharing
import LoxMachine.Proofs.Typing.Underway

/-!
# Isolation of calls

Each frame owns the part of the stack from its base to the base of the next one, and only the running
frame changes its part: an instruction reads, writes and drops what lies from the base of its frame
on, and the captured variable it may go for. So a call, whatever it calls and however much that calls
in turn, leaves one value in place of the callee and nothing above it, and what lies below is as it
was but for captured variables that were assigned to.

Main statement: `Underway.isolates`.
-/

namespace LoxMachine

open Machine

/-! ## What an instruction changes -/

/-- Calls of a value or a method. -/
def Instr.Calls : Instr → Prop
  | .call _ | .invoke _ _ | .superInvoke _ _ => True
  | _ => False

/-- The next instruction goes for a captured variable in this slot. -/
def Machine.Touches (m : Machine) (slot : Nat) : Prop :=
  ∃ f fs ins q i cell, m.frames = f :: fs ∧
    (m.store.chunk f.closure.function).instr? f.ip = some (ins, q) ∧
    (ins = .getUpvalue i ∨ ins = .setUpvalue i) ∧
    f.closure.cells[i]? = some cell ∧ m.store.cells[cell]? = some (.inSlot slot)

/-- The next instruction assigns to a captured variable in this slot. -/
def Machine.Overwrites (m : Machine) (slot : Nat) : Prop :=
  ∃ f fs i q cell, m.frames = f :: fs ∧
    (m.store.chunk f.closure.function).instr? f.ip = some (.setUpvalue i, q) ∧
    f.closure.cells[i]? = some cell ∧ m.store.cells[cell]? = some (.inSlot slot)

/-- The states that a machine passes through, one step after the other, all of them with more than
`depth` frames. -/
inductive Machine.Within (depth : Nat) : Machine → List Machine → Machine → Prop
  | refl {m} : Within depth m [] m
  | step {m m' m'' ms} : depth < m.frames.length → m.Steps m' → Within depth m' ms m'' →
      Within depth m (m :: ms) m''

section Effects

variable {f : Frame} {fs : List Frame} {q : Nat} {ins : Instr} {m m' : Machine}

theorem Instr.replaces_le_pops (ins : Instr) : ins.replaces ≤ ins.pops := by
  cases ins <;> simp only [replaces, pops] <;> omega

/-- An instruction leaves the frame, or the frame goes on, perhaps below a new one. -/
theorem Effect.frames (h : Effect f q ins m m') (hframes : m.frames = f :: fs) :
    (∃ gs ip, m'.frames = gs ++ { f with ip } :: fs) ∨ ins = .ret ∧ m'.frames = fs := by
  have hgoto (p : Nat) : (m.goto p).frames = { f with ip := p } :: fs := frames_goto m p hframes
  cases h with
  | call _ _ hcall =>
      cases hcall with
      | closure | bound | construct => exact .inl ⟨[_], q, congrArg (_ :: ·) (hgoto q)⟩
      | create | native => exact .inl ⟨[], q, hgoto q⟩
  | invokeField _ _ _ hcall =>
      cases hcall with
      | closure | bound | construct => exact .inl ⟨[_], q, congrArg (_ :: ·) (hgoto q)⟩
      | create | native => exact .inl ⟨[], q, hgoto q⟩
  | invokeMethod _ _ _ hcall | superInvoke _ _ hcall =>
      obtain ⟨g, rfl⟩ := hcall.eq_entered
      exact .inl ⟨[_], q, congrArg (_ :: ·) (hgoto q)⟩
  | closure hcaptures => exact .inl ⟨[], q, frames_goto _ q (hcaptures.frames_eq.trans hframes)⟩
  | finish hframes' | ret hframes' =>
      exact .inr ⟨rfl, (List.cons.inj (hframes'.symm.trans hframes)).2⟩
  | jump | branch | loop => exact .inl ⟨[], _, hgoto _⟩
  | _ => exact .inl ⟨[], q, hgoto q⟩

/-- A call enters a frame at the callee, or has its answer there at once. -/
theorem Machine.Calling.frames {args rest : List Value} {v : Value} (h : Calling m args rest v m') :
    (∃ g, m'.frames = ⟨g, 0, rest.length⟩ :: m.frames) ∨
      m'.frames = m.frames ∧ m'.values.length = rest.length + 1 := by
  cases h with
  | closure | bound | construct => exact .inl ⟨_, rfl⟩
  | create | native => exact .inr ⟨rfl, congrArg List.length (values_setValues _ _)⟩

theorem Effect.calls (h : Effect f q ins m m') (hframes : m.frames = f :: fs) (hins : ins.Calls) :
    ∃ slot, slot + ins.pops = m.values.length ∧
      ((∃ g, m'.frames = ⟨g, 0, slot⟩ :: { f with ip := q } :: fs) ∨
        m'.frames = { f with ip := q } :: fs ∧ m'.values.length = slot + 1) := by
  have hgoto : (m.goto q).frames = { f with ip := q } :: fs := frames_goto m q hframes
  cases h with
  | @call n args callee rest _ _ hvs hlen hcall =>
      refine ⟨rest.length, ?_, hgoto ▸ hcall.frames⟩
      rw [hvs, List.length_append, List.length_cons, hlen, Instr.pops]
      omega
  | @invokeField name n args o v rest _ _ hvs hlen _ hcall =>
      refine ⟨rest.length, ?_, hgoto ▸ hcall.frames⟩
      rw [hvs, List.length_append, List.length_cons, hlen, Instr.pops]
      omega
  | @invokeMethod name n args o rest _ _ hvs hlen _ hcall =>
      obtain ⟨g, rfl⟩ := hcall.eq_entered
      refine ⟨rest.length, ?_, .inl ⟨g, congrArg (_ :: ·) hgoto⟩⟩
      rw [hvs, List.length_append, List.length_cons, hlen, Instr.pops]
      omega
  | @superInvoke name n c args r rest _ _ hvs hlen hcall =>
      obtain ⟨g, rfl⟩ := hcall.eq_entered
      refine ⟨rest.length, ?_, .inl ⟨g, congrArg (_ :: ·) hgoto⟩⟩
      rw [hvs, List.length_cons, List.length_append, List.length_cons, hlen, Instr.pops]
      omega
  | _ => exact hins.elim

/-- Below what an instruction takes only an assignment changes anything. -/
theorem Effect.untouched (h : Effect f q ins m m') {i : Nat} (hi : i + ins.pops < m.values.length)
    (hret : ins = .ret → i < f.base) :
    m'.stack[i]? = m.stack[i]? ∨ (∃ n, ins = .setLocal n ∧ i = f.base + n) ∨
      ∃ n cell, ins = .setUpvalue n ∧ f.closure.cells[n]? = some cell ∧
        m.store.cells[cell]? = some (.inSlot i) := by
  rw [getElem?_stack, getElem?_stack]
  have hset {slot : Nat} {v : Value} (hne : i ≠ slot) :
      atSlot? (setSlot m.values slot v) i = atSlot? m.values i := by
    rw [atSlot?_setSlot, if_neg (Ne.symm hne)]
  by_cases hassign : ins.Assigns
  · cases h with
    | @setLocal n v vs _ hvs hlt =>
        by_cases heq : i = f.base + n
        · exact .inr (.inl ⟨n, rfl, heq⟩)
        · rw [values_setValues]
          exact .inl (hset heq)
    | @setClosed n cell old v vs _ hcell hold hvs => exact .inl rfl
    | @setOpen n cell slot v vs _ hcell hopen hvs hlt =>
        by_cases heq : i = slot
        · subst heq
          exact .inr (.inr ⟨n, cell, rfl, hcell, hopen⟩)
        · rw [values_setValues]
          exact .inl (hset heq)
    | _ => exact hassign.elim
  refine .inl ?_
  by_cases hclose : ins.Closes
  · have hleave {v : Value} {vs : List Value} (hvs : m.values = v :: vs) (hbase : i < f.base)
        (hi : i + 1 < m.values.length) :
        atSlot? (vs.drop (vs.length - f.base)) i = atSlot? m.values i := by
      obtain ⟨hlt, hus⟩ := atSlot?_tail hvs hi
      rw [atSlot?_drop hbase hlt, hus]
    cases h with
    | @closeUpvalue v vs _ hvs _ =>
        rw [values_setValues]
        exact (atSlot?_tail hvs hi).2
    | @finish g v vs _ _ hvs _ =>
        rw [values_setValues]
        exact hleave hvs (hret rfl) hi
    | @ret g g' fs v vs _ _ hvs _ =>
        rw [values_setValues, ← hleave hvs (hret rfl) hi]
        refine atSlot?_append_right [v] _ ?_
        rw [hvs, List.length_cons] at hi
        rw [List.length_drop]
        have := hret rfl
        change i + 1 < _ at hi
        omega
    | _ => exact hclose.elim
  · obtain ⟨⟨top, rest, top', hvs, hlen, hvs'⟩, -, -⟩ := h.replaced hassign hclose
    have hrest : i < rest.length := by
      have := ins.replaces_le_pops
      rw [hvs, List.length_append, hlen] at hi
      omega
    rw [hvs', hvs, atSlot?_append_right _ _ hrest, atSlot?_append_right _ _ hrest]

/-- When a call is left, its answer is all there is from the callee on. -/
theorem Effect.left (h : Effect f q .ret m m') (hframes : m.frames = f :: fs) :
    m'.frames = fs ∧ (fs ≠ [] → ∃ v vs, m.values = v :: vs ∧
      m'.values = v :: vs.drop (vs.length - f.base)) := by
  cases h with
  | finish hframes' =>
      obtain ⟨-, rfl⟩ := List.cons.inj (hframes.symm.trans hframes')
      exact ⟨rfl, fun hfs => absurd rfl hfs⟩
  | ret hframes' hvs =>
      obtain ⟨-, rfl⟩ := List.cons.inj (hframes.symm.trans hframes')
      exact ⟨rfl, fun _ => ⟨_, _, hvs, values_setValues _ _⟩⟩

end Effects

/-! ## Bases -/

section Bases

variable {w : World} {n : Nat} {m : Machine} {f : Frame} {fs : List Frame} {G : Layout} {E : Env}
  {σ : Shape} {Γ : List Slot}

/-- Frames listed from the innermost one on, each with its base above that of the next one, and the
first one within a stack of this height. -/
def Based (height : Nat) (fs : List Frame) : Prop :=
  fs.Pairwise (fun f g => g.base < f.base) ∧ ∀ f ∈ fs, f.base < height

theorem Based.cons {height : Nat} (h : Based f.base fs) (hlt : f.base < height) :
    Based height (f :: fs) := by
  refine ⟨List.pairwise_cons.mpr ⟨h.2, h.1⟩, List.forall_mem_cons.mpr ⟨hlt, fun g hg => ?_⟩⟩
  exact Nat.lt_trans (h.2 g hg) hlt

theorem Calls.based (h : Calls w n fs Γ) : Based Γ.length fs := by
  induction h with
  | none => exact ⟨.nil, nofun⟩
  | @call f fs G E s Γ hhas hground hsafe hbase hcalls ih =>
      refine .cons (hbase ▸ ih) ?_
      rw [hbase, List.length_append]
      have := hground.length_pos
      omega

/-- What the next instruction takes lies above the base. -/
theorem Running.lt_values (R : Running w n m f fs G E σ Γ) {k : Nat}
    (hground : Grounded G.kind (σ.slots.drop k)) : f.base + k < m.values.length := by
  have := hground.length_pos
  rw [List.length_drop] at this
  rw [R.base, R.values.length_eq, List.length_append]
  omega

theorem Running.based (R : Running w n m f fs G E σ Γ) {k : Nat}
    (hground : Grounded G.kind (σ.slots.drop k)) : Based m.values.length m.frames := by
  have := R.lt_values hground
  rw [R.frames]
  exact .cons (R.base ▸ R.calls.based) (by omega)

end Bases

/-! ## Steps -/

section Run

variable {p : Program} {ℓ : Lineage} {m m' : Machine} {source : String} {f : Frame}
  {fs : List Frame}

theorem Underway.based (hp : Program.compile 0 source = .ok p) (h : Underway p ℓ m) :
    Based m.values.length m.frames := by
  by_cases hactive : m.frames = []
  · rw [hactive]
    exact ⟨.nil, nofun⟩
  · obtain ⟨w, f, fs, G, E, σ, Γ, ins, q, -, -, R, -, hground, -⟩ := (h.live hp hactive 1).view
    exact R.based hground

/-- A step is confined to the frame that takes it. -/
theorem Underway.spares (hp : Program.compile 0 source = .ok p) (h : Underway p ℓ m)
    (hframes : m.frames = f :: fs) {hidden : Nat → Option Value}
    (hhidden : ∀ i v, hidden i = some v → i < f.base ∧ ¬ m.Touches i) (time : Number)
    (console : Console) : Spares hidden f.base 0 Machine.step { m with time, console } := by
  have hnone {i : Nat} (hi : ¬ (i < f.base ∧ ¬ m.Touches i)) : hidden i = none := by
    cases hv : hidden i with
    | none => rfl
    | some v => exact absurd (hhidden i v hv) hi
  have hlive := (h.live hp (by rw [hframes]; exact List.cons_ne_nil _ _) 1).host time console
  obtain ⟨w, f', fs', G, E, σ, Γ, ins, q, -, -, R, hi, hground, -⟩ := hlive.view
  obtain ⟨rfl, rfl⟩ := List.cons.inj (hframes.symm.trans R.frames)
  have hroom := R.lt_values hground
  have hexec : Spares hidden f.base 0 (ins.exec q) ({ m with time, console }.goto (f.ip + 1)) := by
    refine Confined.exec (fun i hi => hnone fun h => absurd h.1 (Nat.not_lt_of_le hi))
      (frames_goto _ _ R.frames) (Nat.le_refl _) ?_ ?_ ?_
    · rw [stack_goto, size_stack]
      exact Nat.le_of_lt hroom
    · rintro op rfl
      exact Chunk.isOperator_of_instr? hi
    · rintro i cell slot hins hcell hslot
      exact hnone fun h => h.2 ⟨f, fs, ins, q, i, cell, hframes, hi, hins, hcell, hslot⟩
  have hstep := step_eq_exec R.frames hi
  have hstep' : Machine.step (({ m with time, console } : Machine).overlay hidden) = _ :=
    step_eq_exec (m := ({ m with time, console } : Machine).overlay hidden) R.frames hi
  refine ⟨?_, ?_⟩
  · rw [hstep, hstep']
    exact hexec.same
  · rw [hstep]
    exact hexec.room

/-- A step, seen from a frame in the stack of calls: the frame goes on, or it has been left and its
answer is in place of its callee. What lies below changes only by assignment. -/
theorem Underway.step_frame (gs : List Frame) (hp : Program.compile 0 source = .ok p)
    (h : Underway p ℓ m) (hframes : m.frames = gs ++ f :: fs) (hstep : m.Steps m') :
    ((∃ gs' ip, m'.frames = gs' ++ { f with ip } :: fs) ∨
      m'.frames = fs ∧ (fs ≠ [] → m'.stack.size = f.base + 1)) ∧
    ∀ i < f.base, m'.stack[i]? = m.stack[i]? ∨ m.Overwrites i := by
  have hlive := h.live hp hstep.frames_ne_nil 1
  obtain ⟨w, f', fs', G, E, σ, Γ, ins, q, -, -, R, hi, hground, -⟩ := hlive.view
  have hroom := R.lt_values hground
  have hbase : f.base ≤ f'.base := by
    have hpairwise := (R.based hground).1
    rw [R.frames] at hpairwise hframes
    cases gs with
    | nil => rw [(List.cons.inj hframes).1]
    | cons g gs =>
        obtain ⟨rfl, rfl⟩ := List.cons.inj hframes
        exact Nat.le_of_lt ((List.pairwise_cons.mp hpairwise).1 f (by simp))
  obtain ⟨time, console, heffect⟩ := hstep.effect R.frames hi
  refine ⟨?_, fun i hlt => ?_⟩
  · have hframes' := hframes.symm.trans R.frames
    rcases heffect.frames R.frames with ⟨gs', ip, heq⟩ | ⟨rfl, heq⟩
    · cases gs with
      | nil =>
          obtain ⟨rfl, rfl⟩ := List.cons.inj hframes'
          exact .inl ⟨gs', ip, heq⟩
      | cons g gs =>
          obtain ⟨-, rfl⟩ := List.cons.inj hframes'
          exact .inl ⟨gs' ++ { f' with ip } :: gs, f.ip, by rw [heq, List.append_assoc]; rfl⟩
    · cases gs with
      | nil =>
          obtain ⟨rfl, rfl⟩ := List.cons.inj hframes'
          refine .inr ⟨heq, fun hfs => ?_⟩
          obtain ⟨v, vs, hvs, hvs'⟩ := (heffect.left R.frames).2 hfs
          change f.base + 1 < m.values.length at hroom
          change m.values = v :: vs at hvs
          rw [hvs, List.length_cons] at hroom
          rw [size_stack, hvs', List.length_cons, List.length_drop]
          omega
      | cons g gs =>
          obtain ⟨-, rfl⟩ := List.cons.inj hframes'
          exact .inl ⟨gs, f.ip, heq⟩
  · have hroom' : i + ins.pops < m.values.length := by omega
    rcases heffect.untouched hroom' fun _ => Nat.lt_of_lt_of_le hlt hbase with
      hsame | ⟨n, -, heq⟩ | ⟨n, cell, rfl, hcell, hslot⟩
    · exact .inl hsame
    · omega
    · exact .inr ⟨f', fs', n, q, cell, R.frames, hi, hcell, hslot⟩

/-- A call enters a frame at the callee, or has its answer there at once. -/
theorem Machine.Steps.call {ins : Instr} {q : Nat} (hframes : m.frames = f :: fs)
    (hi : (m.store.chunk f.closure.function).instr? f.ip = some (ins, q)) (hins : ins.Calls)
    (hstep : m.Steps m') :
    ∃ slot, slot + ins.pops = m.stack.size ∧
      ((∃ g, m'.frames = ⟨g, 0, slot⟩ :: { f with ip := q } :: fs) ∨
        m'.frames = { f with ip := q } :: fs ∧ m'.stack.size = slot + 1) ∧
      ∀ i < slot, m'.stack[i]? = m.stack[i]? := by
  obtain ⟨time, console, heffect⟩ := hstep.effect hframes hi
  obtain ⟨slot, hslot, hgoes⟩ := heffect.calls hframes hins
  refine ⟨slot, hslot.trans (size_stack m).symm, ?_, fun i hlt => ?_⟩
  · rw [size_stack]
    exact hgoes
  · have hroom : i + ins.pops < m.values.length := by
      change slot + ins.pops = m.values.length at hslot
      omega
    rcases heffect.untouched hroom (by rintro rfl; exact hins.elim) with
      hsame | ⟨n, rfl, -⟩ | ⟨n, cell, rfl, -⟩
    · exact hsame
    · exact hins.elim
    · exact hins.elim

/-! ## Runs of steps -/

/-- A run as a sequence of states, all of them that deep. -/
theorem Machine.within_of_steps {depth n : Nat} {s : Nat → Machine}
    (hsteps : ∀ i < n, (s i).Steps (s (i + 1))) (hdeep : ∀ i < n, depth < (s i).frames.length) :
    Machine.Within depth (s 0) ((List.range n).map s) (s n) := by
  induction n generalizing s with
  | zero => exact .refl
  | succ n ih =>
      rw [List.range_succ_eq_map, List.map_cons, List.map_map]
      refine .step (hdeep 0 (Nat.succ_pos n)) (hsteps 0 (Nat.succ_pos n)) ?_
      exact ih (fun i hi => hsteps (i + 1) (Nat.succ_lt_succ hi))
        fun i hi => hdeep (i + 1) (Nat.succ_lt_succ hi)

/-- A run, seen from a frame, for as long as there is this frame. -/
theorem Underway.within {ms : List Machine} (gs : List Frame)
    (hp : Program.compile 0 source = .ok p) (h : Underway p ℓ m)
    (hw : Machine.Within fs.length m ms m') (hframes : m.frames = gs ++ f :: fs) :
    ((∃ gs' ip, m'.frames = gs' ++ { f with ip } :: fs) ∨
      m'.frames = fs ∧ (fs ≠ [] → m'.stack.size = f.base + 1)) ∧
    ∀ i < f.base, m'.stack[i]? = m.stack[i]? ∨ ∃ x ∈ ms, x.Overwrites i := by
  induction hw generalizing ℓ gs f with
  | refl => exact ⟨.inl ⟨gs, f.ip, hframes⟩, fun i _ => .inl rfl⟩
  | @step m m₁ m' ms hdepth hstep hw ih =>
      obtain ⟨hgoes, hstays⟩ := h.step_frame gs hp hframes hstep
      rcases hgoes with ⟨gs', ip, hframes'⟩ | ⟨hframes', hsize⟩
      · obtain ⟨hgoes', hstays'⟩ := ih gs' (h.next hstep) hframes'
        refine ⟨hgoes', fun i hi => ?_⟩
        rcases hstays' i hi, hstays i hi with ⟨hsame' | ⟨x, hx, hwrites⟩, hsame | hwrites⟩
        · exact .inl (hsame'.trans hsame)
        · exact .inr ⟨m, List.mem_cons_self, hwrites⟩
        · exact .inr ⟨x, List.mem_cons_of_mem _ hx, hwrites⟩
        · exact .inr ⟨m, List.mem_cons_self, hwrites⟩
      · cases hw with
        | refl =>
            refine ⟨.inr ⟨hframes', hsize⟩, fun i hi => ?_⟩
            exact (hstays i hi).imp_right fun hwrites => ⟨m, List.mem_cons_self, hwrites⟩
        | step hdepth' => exact absurd hdepth' (by rw [hframes']; exact Nat.lt_irrefl _)

/-- However many calls a call takes, it ends with one value in place of the callee. -/
theorem Underway.call {ins : Instr} {q : Nat} {m₁ : Machine} {ms : List Machine}
    (hp : Program.compile 0 source = .ok p) (h : Underway p ℓ m) (hframes : m.frames = f :: fs)
    (hi : (m.store.chunk f.closure.function).instr? f.ip = some (ins, q)) (hins : ins.Calls)
    (hstep : m.Steps m₁) (hw : Machine.Within m.frames.length m₁ ms m')
    (hlen : m'.frames.length = m.frames.length) :
    m'.frames = { f with ip := q } :: fs ∧
    ∃ slot, slot + ins.pops = m.stack.size ∧ m'.stack.size = slot + 1 ∧
      ∀ i < slot, m'.stack[i]? = m.stack[i]? ∨ ∃ x ∈ ms, x.Overwrites i := by
  obtain ⟨slot, hslot, hgoes, hsame⟩ := hstep.call hframes hi hins
  rw [hframes] at hw hlen
  rcases hgoes with ⟨g, hframes₁⟩ | ⟨hframes₁, hsize⟩
  · have hw : Machine.Within ({ f with ip := q } :: fs).length m₁ ms m' := hw
    obtain ⟨hgoes, hstays⟩ := (h.next hstep).within [] hp hw hframes₁
    rcases hgoes with ⟨gs', ip, hframes'⟩ | ⟨hframes', hsize⟩
    · simp only [hframes', List.length_append, List.length_cons] at hlen
      omega
    · refine ⟨hframes', slot, hslot, hsize (List.cons_ne_nil _ _), fun i hi => ?_⟩
      exact hsame i hi ▸ hstays i hi
  · cases hw with
    | refl => exact ⟨hframes₁, slot, hslot, hsize, fun i hi => .inl (hsame i hi)⟩
    | step hdepth => exact absurd hdepth (by rw [hframes₁]; exact Nat.lt_irrefl _)

/-- Frames have their bases in order, each within the stack. A step is confined to the frame that
takes it: whatever other values are hidden below the base, it does the same, and it changes nothing
there but a captured variable that it assigns to. And when a call has been executed, however many
calls it takes, the stack ends with one value in place of the callee; what lies below is as before,
but for captured variables that were assigned to on the way. -/
theorem Underway.isolates (hp : Program.compile 0 source = .ok p) (h : Underway p ℓ m) :
    m.frames.Pairwise (fun f g => g.base < f.base) ∧
    (∀ f ∈ m.frames, f.base < m.stack.size) ∧
    (∀ f fs hidden time console, m.frames = f :: fs →
      (∀ i v, hidden i = some v → i < f.base ∧ ¬ m.Touches i) →
      Spares hidden f.base 0 Machine.step { m with time, console }) ∧
    (∀ f fs m', m.frames = f :: fs → m.Steps m' →
      ∀ i < f.base, m'.stack[i]? = m.stack[i]? ∨ m.Overwrites i) ∧
    ∀ f fs ins q m₁ ms m', m.frames = f :: fs →
      (m.store.chunk f.closure.function).instr? f.ip = some (ins, q) → ins.Calls →
      m.Steps m₁ → Machine.Within m.frames.length m₁ ms m' → m'.frames.length = m.frames.length →
      m'.frames = { f with ip := q } :: fs ∧
      ∃ slot, slot + ins.pops = m.stack.size ∧ m'.stack.size = slot + 1 ∧
        ∀ i < slot, m'.stack[i]? = m.stack[i]? ∨ ∃ x ∈ ms, x.Overwrites i := by
  obtain ⟨hpairwise, hlt⟩ := h.based hp
  refine ⟨hpairwise, fun f hf => size_stack m ▸ hlt f hf,
    fun f fs hidden time console hframes hhidden => h.spares hp hframes hhidden time console,
    fun f fs m' hframes hstep => (h.step_frame [] hp hframes hstep).2,
    fun f fs ins q m₁ ms m' => h.call hp⟩

/-- A function that calls another one, which assigns to a variable two calls further out. -/
def nestedSource : String :=
  "{ fun f() { var a; fun g(b) { a = b; return a; } fun h(c) { return g(c); } h(true); } f(); }"

def nestedRun (budget : Nat) : Machine :=
  ((Machine.new {}).runSource budget nestedSource).2

/-- The call of `h` in `f`, and the assignment in `g` while `h` and `f` wait. -/
theorem Underway.isolates_nested : ∃ p ℓ ℓ' f fs slot, Program.compile 0 nestedSource = .ok p ∧
    Underway p ℓ (nestedRun 8) ∧ (nestedRun 8).frames = f :: fs ∧ fs.length = 1 ∧ 0 < f.base ∧
    Spares (fun i => if i < f.base then some .nil else none) f.base 0 Machine.step (nestedRun 8) ∧
    ((nestedRun 8).store.chunk f.closure.function).instr? f.ip = some (.call 1, 14) ∧
    (nestedRun 18).frames = { f with ip := 14 } :: fs ∧
    slot + 2 = (nestedRun 8).stack.size ∧ (nestedRun 18).stack.size = slot + 1 ∧
    (∀ i < slot, (nestedRun 18).stack[i]? = (nestedRun 8).stack[i]? ∨
      ∃ m ∈ (List.range 9).map fun n => nestedRun (9 + n), m.Overwrites i) ∧
    Underway p ℓ' (nestedRun 13) ∧ (nestedRun 13).frames.length = 4 ∧
    (nestedRun 13).frames.Pairwise (fun f g => g.base < f.base) ∧
    (nestedRun 13).stack[3]? = some .nil ∧ (nestedRun 14).stack[3]? = some (.boolean true) ∧
    (nestedRun 13).Overwrites 3 := by
  obtain ⟨hrun, hdeep, hdepth, hlen, hinstr, hpos, hbase, hinner, hbefore, hafter⟩ :
      ((Machine.new {}).runSource 18 nestedSource).1 = .unfinished ∧
      (∀ n < 9, 2 < (nestedRun (9 + n)).frames.length) ∧
      (nestedRun 8).frames.length = 2 ∧ (nestedRun 18).frames.length = 2 ∧
      ((nestedRun 8).frames.head?.bind fun f =>
        ((nestedRun 8).store.chunk f.closure.function).instr? f.ip) = some (.call 1, 14) ∧
      (nestedRun 8).frames.head?.any (0 < ·.base) = true ∧
      (nestedRun 13).frames.head?.map (·.base) = some 8 ∧ (nestedRun 13).frames.length = 4 ∧
      (nestedRun 13).stack[3]? = some .nil ∧ (nestedRun 14).stack[3]? = some (.boolean true) := by
    decide +kernel
  obtain ⟨p, hp, hunderway, hsteps⟩ := Underway.of_unfinished hrun
  have hcall : (nestedRun 8).Steps (nestedRun 9) := hsteps 8 (by decide)
  have hassign : (nestedRun 13).Steps (nestedRun 14) := hsteps 13 (by decide)
  have hwithin := Machine.within_of_steps (s := fun i => nestedRun (9 + i))
    (fun i hi => hsteps (9 + i) (by omega)) hdeep
  obtain ⟨ℓ, h⟩ : ∃ ℓ, Underway p ℓ (nestedRun 8) := hunderway 8 (by decide)
  obtain ⟨ℓ', h'⟩ : ∃ ℓ, Underway p ℓ (nestedRun 13) := hunderway 13 (by decide)
  obtain ⟨f, fs, hframes⟩ := List.exists_cons_of_ne_nil hcall.frames_ne_nil
  obtain ⟨g, gs, hframes'⟩ := List.exists_cons_of_ne_nil hassign.frames_ne_nil
  rw [hframes] at hinstr hpos
  rw [hframes'] at hbase
  have hbase : g.base = 8 := Option.some.inj hbase
  obtain ⟨hpairwise, -, -, hstep, -⟩ := Underway.isolates hp h'
  have hwrites := hstep g gs _ hframes' hassign 3 (by omega)
  obtain ⟨hreturns, slot, hslot, hsize, hstays⟩ := (Underway.isolates hp h).2.2.2.2 f fs _ _ _ _ _
    hframes hinstr trivial hcall (hdepth ▸ hwithin) (hlen.trans hdepth.symm)
  -- A call goes for no captured variable, so all that is below may be anything.
  have huntouched (i : Nat) : ¬ (nestedRun 8).Touches i := by
    rintro ⟨g, gs, ins, q, j, cell, hframes', hi, hins, -⟩
    obtain ⟨rfl, rfl⟩ := List.cons.inj (hframes.symm.trans hframes')
    obtain ⟨rfl, rfl⟩ := Prod.mk.inj (Option.some.inj (hinstr.symm.trans hi))
    rcases hins with hins | hins
    · cases hins
    · cases hins
  have hspares : Spares (fun i => if i < f.base then some .nil else none) f.base 0 Machine.step
      (nestedRun 8) := by
    refine (Underway.isolates hp h).2.2.1 f fs _ _ _ hframes fun i v hv => ⟨?_, huntouched i⟩
    by_contra hge
    rw [if_neg hge] at hv
    cases hv
  rw [hframes] at hdepth
  exact ⟨p, ℓ, ℓ', f, fs, slot, hp, h, hframes, Nat.succ.inj hdepth, of_decide_eq_true hpos, hspares,
    hinstr, hreturns, hslot, hsize, hstays, h', hinner, hpairwise, hbefore, hafter,
    hwrites.resolve_left fun hsame => nomatch hbefore.symm.trans (hsame.symm.trans hafter)⟩

end Run

end LoxMachine
