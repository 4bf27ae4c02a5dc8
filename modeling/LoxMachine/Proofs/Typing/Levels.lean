import LoxMachine.Proofs.Code.Heights
import LoxMachine.Proofs.Typing.Traces

/-!
# Heights amid a run

The stack of a running machine is as high as the function that runs has it there, above the base of
its call, and so it will be for each call that waits when the one that it waits for answers.

Main statement: `Levels.step`.
-/

namespace LoxMachine

open Machine

/-! ## What an instruction leaves -/

section Effects

variable {f : Frame} {fs : List Frame} {q : Nat} {ins : Instr} {m m' : Machine}

theorem Opcode.gives_of_operate {op : Opcode} {top results : List Value} {c c' : Console}
    (h : op.operate top c = some (results, c')) : results.length = op.gives := by
  unfold operate at h
  split at h <;> cases h <;> rfl

/-- What has become of a call: it has its answer, or the function is entered with its arguments. -/
inductive Machine.Entered (m : Machine) (base : Nat) (m' : Machine) : Prop where
  | answered : m'.frames = m.frames → m'.values.length = base + 1 → Entered m base m'
  | entered {c} : m'.frames = ⟨c, 0, base⟩ :: m.frames →
      m'.values.length = base + (c.function.arity + 1) → Entered m base m'

theorem Machine.Calling.entered {args rest : List Value} {v : Value} (h : Calling m args rest v m')
    (hvs : m.values = args ++ v :: rest) : m.Entered rest.length m' := by
  have hlength {w : Value} (c : Closure) (hlen : args.length = c.function.arity) :
      (args ++ w :: rest).length = rest.length + (c.function.arity + 1) := by
    rw [List.length_append, List.length_cons]
    omega
  cases h with
  | closure hlen => exact .entered rfl (by rw [values_entered, hvs, hlength _ hlen])
  | bound hlen => exact .entered rfl (by rw [values_entered, values_setValues, hlength _ hlen])
  | construct _ hlen => exact .entered rfl (by rw [values_entered, values_setValues, hlength _ hlen])
  | create | native => exact .answered rfl (by rw [values_setValues, List.length_cons])

theorem Machine.Invoking.entered {args rest : List Value} {c : Class} {name : String} {v : Value}
    (h : Invoking m args rest c name m') (hvs : m.values = args ++ v :: rest) :
    m.Entered rest.length m' := by
  cases h with
  | method _ hlen =>
      refine .entered rfl ?_
      rw [values_entered, hvs, List.length_append, List.length_cons]
      omega

theorem Effect.entered (h : Effect f q ins m m') (hins : ins.Calls) :
    ∃ base, base + 1 = ins.after m.values.length ∧ (m.goto q).Entered base m' := by
  have hbase {n : Nat} {args rest : List Value} {v : Value} (hvs : m.values = args ++ v :: rest)
      (hlen : args.length = n) : rest.length + 1 = m.values.length - (n + 1) + 1 := by
    rw [hvs, List.length_append, List.length_cons]
    omega
  cases h with
  | call hvs hlen hcall => exact ⟨_, hbase hvs hlen, hcall.entered hvs⟩
  | invokeField hvs hlen _ hcall =>
      refine ⟨_, hbase hvs hlen, ?_⟩
      cases hcall.entered (values_setValues _ _) with
      | answered hframes hlength => exact .answered hframes hlength
      | entered hframes hlength => exact .entered hframes hlength
  | invokeMethod hvs hlen _ hcall => exact ⟨_, hbase hvs hlen, hcall.entered hvs⟩
  | @superInvoke name n c args r rest _ _ hvs hlen hcall =>
      refine ⟨rest.length, ?_, ?_⟩
      · have hlength := congrArg List.length hvs
        simp only [List.length_cons, List.length_append] at hlength
        change _ = m.values.length - (n + 2) + 1
        omega
      · cases hcall.entered (values_setValues _ _) with
        | answered hframes hlength => exact .answered hframes hlength
        | entered hframes hlength => exact .entered hframes hlength
  | _ => exact hins.elim

/-- All other instructions leave the stack as high as they say. -/
theorem Effect.length_values (h : Effect f q ins m m') (hins : ¬ ins.Calls) (hret : ins ≠ .ret) :
    m'.values.length = ins.after m.values.length := by
  cases h with
  | call | invokeField | invokeMethod | superInvoke => exact absurd trivial hins
  | finish | ret => exact absurd rfl hret
  | operator hvs hop =>
      rw [Instr.after, Instr.pops, Instr.pushes, hvs, ← Opcode.length_of_operate hop,
        ← Opcode.gives_of_operate hop, values_setValues, List.length_append, List.length_append]
      omega
  | push | getLocal | getGlobal | getUpvalue | makeClass | closure =>
      rw [values_setValues, List.length_cons]
      rfl
  | jump | loop => rfl
  | pop hvs | closeUpvalue hvs | getField hvs | getMethod hvs | setProperty hvs | getSuper hvs | inherit hvs
  | method hvs =>
      rw [values_setValues, hvs]
      rfl
  | setLocal hvs | setOpen _ _ hvs =>
      rw [values_setValues, length_setSlot, hvs]
      rfl
  | defineGlobal hvs =>
      rw [hvs]
      exact congrArg List.length (values_setValues (m.goto q) _)
  | setGlobal hvs | setClosed _ _ hvs | branch hvs | stay hvs =>
      change m.values.length = m.values.length - 1 + 1
      rw [hvs]
      rfl

end Effects

/-! ## The stack of all calls -/

/-- A call is at an offset that its function can come to, and the stack has this height there. -/
def Frame.Stands (rs : Array Routine) (height : Nat → Nat) (f : Frame) : Prop :=
  ∃ r, rs[f.closure.function.index]? = some r ∧ r.Leveled height ∧ r.code.Reachable f.ip

/-- How high the stack is with these calls, the innermost one first; the outermost one is at `height`. -/
inductive Levels (rs : Array Routine) (height : Nat → Nat) : Nat → List Frame → Prop where
  | last {f} : f.Stands rs height → Levels rs height (f.base + height f.ip) [f]
  | call {f g fs inner} : f.Stands rs inner → Levels rs height (f.base + 1) (g :: fs) →
      Levels rs height (f.base + inner f.ip) (f :: g :: fs)

section Levels

variable {rs : Array Routine} {height : Nat → Nat} {ℓ ℓ' : Lineage} {n p q : Nat} {f g : Frame}
  {fs : List Frame} {ins : Instr} {m m' : Machine}

/-- The innermost call, wherever else it goes. -/
theorem Levels.view (h : Levels rs height n (f :: fs)) :
    ∃ inner, f.Stands rs inner ∧ n = f.base + inner f.ip ∧ ∀ p, Frame.Stands rs inner { f with ip := p } →
      Levels rs height (f.base + inner p) ({ f with ip := p } :: fs) := by
  cases h with
  | last hf => exact ⟨height, hf, rfl, fun p hp => .last hp⟩
  | @call _ _ _ inner hf h => exact ⟨inner, hf, rfl, fun p hp => .call (f := { f with ip := p }) hp h⟩

theorem Levels.eq_last (h : Levels rs height n [f]) : n = f.base + height f.ip := by
  cases h with
  | last => rfl

/-- The calls that wait. -/
theorem Levels.tail (h : Levels rs height n (f :: fs)) (hne : fs ≠ []) : Levels rs height (f.base + 1) fs := by
  cases h with
  | last => exact absurd rfl hne
  | call _ h => exact h

/-- What the next instruction needs and leaves. -/
theorem Frame.Stands.next (h : f.Stands rs height) {r : Routine}
    (hr : rs[f.closure.function.index]? = some r) (hi : r.code.instr? f.ip = some (ins, q)) :
    ins.pops ≤ height f.ip ∧ ∀ t ∈ ins.targets q, Frame.Stands rs height { f with ip := t } ∧
      height t = ins.after (height f.ip) := by
  obtain ⟨r', hr', hleveled, hreachable⟩ := h
  obtain rfl := Option.some.inj (hr'.symm.trans hr)
  obtain ⟨ins', q', hi', hpops, -, -, htargets⟩ := hleveled.instruction f.ip hreachable
  obtain ⟨rfl, rfl⟩ := Prod.mk.inj (Option.some.inj (hi.symm.trans hi'))
  exact ⟨hpops, fun t ht => ⟨⟨r', hr, hleveled, .step hreachable hi ht⟩, htargets t ht⟩⟩

theorem Instr.after_add (hpops : ins.pops ≤ n) (base : Nat) : ins.after (base + n) = base + ins.after n := by
  simp only [after]
  omega

/-- Each step leaves the stack as high as it is to be. -/
theorem Levels.step (h : Levels rs height m.values.length m.frames)
    (hrs : ∀ r ∈ rs, ∃ height, r.Leveled height) (hm : Live rs ℓ 1 m) (hm' : Live rs ℓ' 1 m')
    {u : Unit} (hstep : Machine.step m = .ok u m') : Levels rs height m'.values.length m'.frames := by
  obtain ⟨w, f, fs, G, E, σ, Γ, ins, q, rfl, -, R, hi, hground, -⟩ := hm.view
  have hr := R.has.routine
  have hcode : m.store.chunk f.closure.function = G.code := by
    rw [Store.chunk, R.steady.chunks, Array.getD_eq_getD_getElem?, Array.getElem?_map, hr]
    rfl
  have heffect := effect_of_step R.frames hi hstep
  rw [R.frames] at h
  obtain ⟨inner, hstands, hlength, hgo⟩ := h.view
  obtain ⟨hpops, hnext⟩ := hstands.next hr (hcode ▸ hi)
  have hafter : ins.after m.values.length = f.base + ins.after (inner f.ip) :=
    hlength ▸ Instr.after_add hpops f.base
  by_cases hret : ins = .ret
  · subst hret
    obtain ⟨hframes, hanswer⟩ := heffect.left R.frames
    have hne : fs ≠ [] := hframes ▸ hm'.frames_ne_nil
    obtain ⟨v, vs, hvs, hvs'⟩ := hanswer hne
    have hroom : f.base + 1 < m.values.length := R.lt_values hground
    rw [hvs, List.length_cons] at hroom
    have hheight : m'.values.length = f.base + 1 := by
      rw [hvs', List.length_cons, List.length_drop]
      omega
    rw [hframes, hheight]
    exact h.tail hne
  by_cases hcalls : ins.Calls
  · obtain ⟨base, hbase, hentered⟩ := heffect.entered hcalls
    have hq : q ∈ ins.targets q := by
      cases ins <;> first | exact List.mem_singleton_self q | exact hcalls.elim
    obtain ⟨hstands, hheight⟩ := hnext q hq
    have hrest : Levels w.routines height (base + 1) (m.goto q).frames := by
      rw [frames_goto m q R.frames, hbase, hafter, ← hheight]
      exact hgo q hstands
    cases hentered with
    | answered hframes hlength => rwa [hframes, hlength]
    | @entered c hframes hlength =>
        obtain ⟨w', g, gs, H, E', σ', Γ', hw, -, R', -⟩ := hm'
        obtain ⟨rfl, -⟩ := List.cons.inj (hframes.symm.trans R'.frames)
        have hroutine := hw ▸ R'.has.routine
        obtain ⟨called, hleveled⟩ := hrs _ (Array.mem_of_getElem? hroutine)
        rw [hframes, hlength, ← hleveled.entry]
        rw [frames_goto m q R.frames] at hrest ⊢
        exact .call (f := ⟨c, 0, base⟩) ⟨_, hroutine, hleveled, .start⟩ hrest
  · rcases heffect.moves R.frames with ⟨t, ht, hframes⟩ | ⟨h, -⟩ | ⟨h, -⟩
    · obtain ⟨hstands, hheight⟩ := hnext t ht
      rw [hframes, heffect.length_values hcalls hret, hafter, ← hheight]
      exact hgo t hstands
    · exact absurd h hcalls
    · exact absurd h hret

end Levels

end LoxMachine
