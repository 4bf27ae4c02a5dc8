import LoxMachine.Proofs.Compile.Lined
import LoxMachine.Proofs.Machine.Halting
import LoxMachine.Proofs.Machine.Intact
import LoxMachine.Proofs.Typing.Isolation

/-!
# Traces

All bytes of an instruction are of one line, and so the line that a trace tells of a frame is that of the
instruction in which the frame stands: the one that failed in the innermost frame, and in each other frame
the one by which it called the next.

Main statement: `Program.trace_tells`.
-/

namespace LoxMachine

open Machine

/-! ## Calls under way -/

namespace Machine

/-- A step from `m` to `m'` adds the offset of a call that it enters, and takes away that of the call
that it leaves. -/
def callsAfter (calls : List Nat) (m m' : Machine) : List Nat :=
  match m.frames with
  | [] => calls
  | f :: fs =>
    if fs.length + 1 < m'.frames.length then f.ip :: calls
    else if m'.frames.length < fs.length + 1 then calls.tail
    else calls

/-- The states that a run passes through until it ends, with the offsets of the calls under way, the
innermost first. -/
inductive Proceeds (start : Machine) : List Nat → Machine → Prop
  | start : Proceeds start [] start
  | step {calls m m'} : Proceeds start calls m → step m.traceStep = .ok () m' → m'.frames ≠ [] →
      Proceeds start (callsAfter calls m m') m'

/-- The code that a frame executes. -/
def codeOf (m : Machine) (f : Frame) : Chunk :=
  m.store.chunk f.closure.function

/-- The frame has executed the call at `o` and goes on behind it. -/
def CalledAt (m : Machine) (f : Frame) (o : Nat) : Prop :=
  ∃ ins, (m.codeOf f).instr? o = some (ins, f.ip) ∧ ins.Calls

/-- What a trace tells of a frame is its function, and the line of the instruction at `o`. -/
structure TellsOf (m : Machine) (f : Frame) (o : Nat) (t : TraceEntry) : Prop where
  function : t.function = f.closure.function.name
  line : (m.codeOf f).line? o = some t.line

/-- The trace tells of every frame: of the innermost one the line of the instruction at which it stands,
and of each other one that of its call. -/
structure Tells (m : Machine) (calls : List Nat) (trace : List TraceEntry) (f : Frame)
    (fs : List Frame) : Prop where
  frames : m.frames = f :: fs
  called : List.Forall₂ m.CalledAt fs calls
  lines : List.Forall₂ (fun x : Frame × Nat => m.TellsOf x.1 x.2) ((f, f.ip) :: fs.zip calls) trace

end Machine

/-! ## Where frames stand -/

section Frames

variable {f : Frame} {fs : List Frame} {q : Nat} {ins : Instr} {m m' : Machine}

/-- An instruction goes on at one of its targets, or enters a call, or leaves one. -/
theorem Effect.moves (h : Effect f q ins m m') (hframes : m.frames = f :: fs) :
    (∃ t ∈ ins.targets q, m'.frames = { f with ip := t } :: fs) ∨
      ins.Calls ∧ (∃ g slot, m'.frames = ⟨g, 0, slot⟩ :: { f with ip := q } :: fs) ∨
      ins = .ret ∧ m'.frames = fs := by
  have hgoto (p : Nat) : (m.goto p).frames = { f with ip := p } :: fs := frames_goto m p hframes
  by_cases hcalls : ins.Calls
  · obtain ⟨slot, -, ⟨g, hentered⟩ | ⟨hsame, -⟩⟩ := h.calls hframes hcalls
    · exact .inr (.inl ⟨hcalls, g, slot, hentered⟩)
    · refine .inl ⟨q, ?_, hsame⟩
      cases ins <;> first | exact List.mem_singleton_self q | exact hcalls.elim
  · cases h with
    | call | invokeField | invokeMethod | superInvoke => exact absurd trivial hcalls
    | finish hframes' | ret hframes' =>
        exact .inr (.inr ⟨rfl, (List.cons.inj (hframes'.symm.trans hframes)).2⟩)
    | closure hcaptures =>
        exact .inl ⟨q, List.mem_singleton_self q, frames_goto _ q (hcaptures.frames_eq.trans hframes)⟩
    | jump | loop => exact .inl ⟨_, List.mem_singleton_self _, hgoto _⟩
    | branch => exact .inl ⟨_, List.mem_cons_of_mem _ (List.mem_singleton_self _), hgoto _⟩
    | stay => exact .inl ⟨q, List.mem_cons_self, hgoto q⟩
    | _ => exact .inl ⟨q, List.mem_singleton_self q, hgoto q⟩

end Frames

/-- Instructions lead to instructions. -/
theorem Chunk.WellFormed.stop_of_target {c : Chunk} {count p q t : Nat} {ins : Instr}
    (h : c.WellFormed count) (hp : c.Stop p) (hi : c.instr? p = some (ins, q))
    (ht : t ∈ ins.targets q) : c.Stop t := by
  have hnext (h : t ∈ [q]) : c.Stop t := List.mem_singleton.mp h ▸ hp.of_instr? hi
  obtain ⟨op, hop, hfit⟩ := h.operation p hp (lt_size_of_instr? hi)
  obtain ⟨op', hop', hd⟩ := Option.bind_eq_some_iff.mp hi
  obtain rfl := Option.some.inj (hop.symm.trans hop')
  cases op with
  | jump =>
      obtain ⟨d, hdistance, heq⟩ := Option.map_eq_some_iff.mp hd
      obtain ⟨rfl, -⟩ := Prod.mk.inj heq
      obtain ⟨d', hd', hstop, -⟩ := hfit
      obtain rfl := Option.some.inj (hdistance.symm.trans hd')
      exact List.mem_singleton.mp ht ▸ hstop
  | jumpIfFalse =>
      obtain ⟨d, hdistance, heq⟩ := Option.map_eq_some_iff.mp hd
      obtain ⟨rfl, -⟩ := Prod.mk.inj heq
      obtain ⟨d', hd', hstop, -⟩ := hfit
      obtain rfl := Option.some.inj (hdistance.symm.trans hd')
      rcases List.mem_cons.mp ht with rfl | ht
      · exact hnext (List.mem_singleton_self _)
      · exact List.mem_singleton.mp ht ▸ hstop
  | loop =>
      obtain ⟨d', hd', hle, hstop, -⟩ := hfit
      simp only [decode, hd', if_pos hle, Option.some.injEq, Prod.mk.injEq] at hd
      obtain ⟨rfl, -⟩ := hd
      exact List.mem_singleton.mp ht ▸ hstop
  | constant | getLocal | setLocal | getUpvalue | setUpvalue | call | getGlobal | defineGlobal
  | setGlobal | getProperty | setProperty | getSuper | makeClass | method =>
      obtain ⟨_, -, heq⟩ := Option.map_eq_some_iff.mp hd
      obtain ⟨rfl, -⟩ := Prod.mk.inj heq
      exact hnext ht
  | invoke | superInvoke =>
      simp only [decode] at hd
      split at hd
      · obtain ⟨rfl, -⟩ := Prod.mk.inj (Option.some.inj hd)
        exact hnext ht
      · cases hd
  | closure =>
      simp only [decode] at hd
      split at hd
      · obtain ⟨_, -, heq⟩ := Option.map_eq_some_iff.mp hd
        obtain ⟨rfl, -⟩ := Prod.mk.inj heq
        exact hnext ht
      · cases hd
  | ret =>
      obtain ⟨rfl, -⟩ := Prod.mk.inj (Option.some.inj hd)
      cases ht
  | _ =>
      obtain ⟨rfl, -⟩ := Prod.mk.inj (Option.some.inj hd)
      exact hnext ht

/-- Within an instruction of lined code there is one line. -/
theorem Chunk.Lined.line?_within {c : Chunk} {o q ip : Nat} {ins : Instr} (h : c.Lined) (ho : c.Stop o)
    (hi : c.instr? o = some (ins, q)) (hlt : o < ip) (hle : ip ≤ q) :
    c.line? o = some ((c.line? (ip - 1)).getD 0) := by
  have hsize := lt_size_of_instr? hi
  have hline : c.line? (ip - 1) = c.line? o :=
    h.cut.line?_eq ho (by omega) (by rw [← eq_add_instructionLength hi]; omega)
  rw [hline, line?, Array.getElem?_eq_getElem hsize]
  rfl

/-! ## Every state of a run -/

section Run

variable {p : Program} {source : String} {ℓ : Lineage} {m m' start : Machine} {calls : List Nat}
  {f : Frame} {fs : List Frame}

theorem Underway.chunks (hp : Program.compile 0 source = .ok p) (h : Underway p ℓ m)
    (hactive : m.frames ≠ []) : m.store.chunks = p.routines.map (·.code) := by
  obtain ⟨w, f, fs, G, E, σ, Γ, hroutines, -, R, -⟩ := h.live hp hactive 0
  rw [R.steady.chunks, hroutines]

/-- Code with an instruction in it is that of a function of the program. -/
theorem Underway.routine (hp : Program.compile 0 source = .ok p) (h : Underway p ℓ m)
    (hactive : m.frames ≠ []) {o q : Nat} {ins : Instr}
    (hi : (m.codeOf f).instr? o = some (ins, q)) :
    ∃ r ∈ p.routines, r.code = m.codeOf f := by
  have hchunks := h.chunks hp hactive
  cases hindex : m.store.chunks[f.closure.function.index]? with
  | none =>
      have hlt := Chunk.lt_size_of_instr? hi
      rw [codeOf, Store.chunk, Array.getD_eq_getD_getElem?, hindex] at hlt
      cases hlt
  | some c =>
      have hc : m.codeOf f = c := by rw [codeOf, Store.chunk, Array.getD_eq_getD_getElem?, hindex]; rfl
      rw [hchunks, Array.getElem?_map, Option.map_eq_some_iff] at hindex
      obtain ⟨r, hr, rfl⟩ := hindex
      exact ⟨r, Array.mem_of_getElem? hr, hc.symm⟩

/-- Where the frames of a run stand. -/
structure Machine.Placed (m : Machine) (calls : List Nat) (f : Frame) (fs : List Frame) : Prop where
  frames : m.frames = f :: fs
  stop : (m.codeOf f).Stop f.ip
  called : List.Forall₂ (fun g o => (m.codeOf g).Stop o ∧ m.CalledAt g o) fs calls

theorem Machine.Placed.step (hp : Program.compile 0 source = .ok p) (h : Underway p ℓ m)
    (hplaced : m.Placed calls f fs) (hstep : step m.traceStep = .ok () m') (hactive : m'.frames ≠ []) :
    ∃ f' fs', m'.Placed (callsAfter calls m m') f' fs' := by
  have hframes := hplaced.frames
  have hnil : m.frames ≠ [] := by rw [hframes]; exact List.cons_ne_nil _ _
  obtain ⟨w, f', fs', G, E, σ, Γ, ins, q, -, -, R, hi, -⟩ := (h.live hp hnil 1).view
  obtain ⟨rfl, rfl⟩ := List.cons.inj (hframes.symm.trans R.frames)
  have hcode (g : Frame) : m'.codeOf g = m.codeOf g := by
    have := (h.next (steps_traceStep hstep)).chunks hp hactive
    rw [codeOf, codeOf, Store.chunk, Store.chunk, this, h.chunks hp hnil]
  obtain ⟨r, hr, hrcode⟩ := h.routine hp hnil hi
  have hwell := hrcode ▸ (Program.wellFormed_of_compile hp hr).1
  have hcalled : List.Forall₂ (fun g o => (m'.codeOf g).Stop o ∧ m'.CalledAt g o) fs calls :=
    hplaced.called.imp fun g o hg => by rwa [CalledAt, hcode]
  rw [m.alike_traceStep] at hstep
  have heffect := effect_of_step (m := { m with console := m.traceStep.console }) hframes hi hstep
  rw [callsAfter, hframes]
  dsimp only
  rcases heffect.moves hframes with ⟨t, ht, hsame⟩ | ⟨hins, g, slot, hentered⟩ | ⟨rfl, hleft⟩
  · rw [hsame, List.length_cons, if_neg (Nat.lt_irrefl _), if_neg (Nat.lt_irrefl _)]
    exact ⟨_, _, hsame, by rw [hcode]; exact hwell.stop_of_target hplaced.stop hi ht, hcalled⟩
  · rw [hentered, List.length_cons, List.length_cons, if_pos (Nat.lt_succ_self _)]
    refine ⟨_, _, hentered, .start, .cons ⟨?_, ins, ?_, hins⟩ hcalled⟩
    · rw [hcode]
      exact hplaced.stop
    · rw [hcode]
      exact hi
  · rw [hleft] at hactive ⊢
    rw [if_neg (by omega), if_pos (Nat.lt_succ_self _)]
    obtain ⟨g, gs, rfl⟩ := List.exists_cons_of_ne_nil hactive
    obtain ⟨o, os, ⟨hstop, ins, hins, -⟩, hrest, rfl⟩ := List.forall₂_cons_left_iff.mp hcalled
    exact ⟨g, gs, hleft, hstop.of_instr? hins, hrest⟩

/-- What a failure tells of the frames. -/
theorem Machine.Placed.tells (hp : Program.compile 0 source = .ok p) (h : Underway p ℓ m)
    (hplaced : m.Placed calls f fs) (hw : m.Working) {e : RuntimeError}
    (hstep : Machine.step m.traceStep = .error (.runtime e) m') : m.Tells calls m'.trace f fs := by
  have hframes := hplaced.frames
  have hnil : m.frames ≠ [] := by rw [hframes]; exact List.cons_ne_nil _ _
  obtain ⟨w, f', fs', G, E, σ, Γ, ins, q, -, -, R, hi, -⟩ := (h.live hp hnil 1).view
  obtain ⟨rfl, rfl⟩ := List.cons.inj (hframes.symm.trans R.frames)
  rw [m.alike_traceStep] at hstep
  obtain ⟨hchunks, ip, hlt, hle, hframes'⟩ := halts_of_step
    (m := { m with console := m.traceStep.console }) hframes hw.stack hi e m' hstep
  have hline {g : Frame} {o q ip : Nat} {ins : Instr} (ho : (m.codeOf g).Stop o)
      (hi : (m.codeOf g).instr? o = some (ins, q)) (hlt : o < ip) (hle : ip ≤ q) :
      m.TellsOf g o ⟨Frame.line m'.store { g with ip }, g.closure.function.name⟩ := by
    obtain ⟨r, hr, hcode⟩ := h.routine hp hnil hi
    refine ⟨rfl, ?_⟩
    have hchunk : m'.store.chunk g.closure.function = m.codeOf g := by
      rw [Store.chunk, hchunks]
      rfl
    rw [Frame.line, hchunk]
    exact (hcode ▸ Program.compile_lined hp r hr).line?_within ho hi hlt hle
  refine ⟨hframes, hplaced.called.imp fun g o hg => hg.2, ?_⟩
  rw [Machine.trace, hframes']
  refine .cons (hline hplaced.stop hi hlt hle) ?_
  have hcalled := hplaced.called
  clear hplaced hframes hframes' R
  induction hcalled with
  | nil => exact .nil
  | @cons g o gs os hg _ ih =>
      obtain ⟨hstop, ins, hins, -⟩ := hg
      exact .cons (hline hstop hins (Chunk.lt_of_instr? hins) (Nat.le_refl _)) ih

/-! ## Whole runs -/

theorem Machine.Proceeds.placed (hp : Program.compile 0 source = .ok p) (hstart : Underway p ℓ start)
    (hw : start.Working) (hplaced : start.Placed [] f fs) (h : Proceeds start calls m) :
    (∃ ℓ, Underway p ℓ m) ∧ m.Working ∧ ∃ f fs, m.Placed calls f fs := by
  induction h with
  | start => exact ⟨⟨ℓ, hstart⟩, hw, f, fs, hplaced⟩
  | step _ hstep hactive ih =>
      obtain ⟨⟨ℓ, h⟩, hw, f, fs, hplaced⟩ := ih
      refine ⟨⟨_, h.next (steps_traceStep hstep)⟩, ?_, hplaced.step hp h hstep hactive⟩
      exact (hw.traceStep.step_ok hstep).resolve_right fun hrest => hactive hrest.frames

/-- A run that fails has come to the instruction that failed. -/
theorem Machine.Proceeds.of_failed {budget : Nat} {e : RuntimeError} {trace : List TraceEntry}
    (h : Proceeds start calls m) (hrun : m.run budget = (.failed ⟨.runtime e, trace⟩, m')) :
    ∃ calls m failed, Proceeds start calls m ∧
      Machine.step m.traceStep = .error (.runtime e) failed ∧ trace = failed.trace := by
  have hkeeps {m m' : Machine} : (∃ calls, Proceeds start calls m) → Machine.step m.traceStep = .ok () m' →
      m'.frames ≠ [] → ∃ calls, Proceeds start calls m' := by
    rintro ⟨calls, h⟩ hstep hactive
    exact ⟨_, h.step hstep hactive⟩
  obtain ⟨m, failed, ⟨calls, h⟩, hstep, habort⟩ := fails_of_run hkeeps ⟨calls, h⟩ hrun
  obtain ⟨-, htrace⟩ := Failure.mk.inj (Outcome.failed.inj (Prod.mk.inj habort).1)
  exact ⟨calls, m, failed, h, hstep, htrace.symm⟩

/-- A function without parameters is entered. -/
theorem Machine.AtRest.enter_ok (hm : m.AtRest) {g : Function} (harity : g.arity = 0) :
    ∃ started f, Machine.enter g m = .ok () started ∧ started.frames = [f] ∧ f.ip = 0 := by
  rw [hm.enter_eq, call_apply _ 0 (by simp [values]), if_neg (by rw [harity]; exact not_not.mpr rfl),
    if_pos (by rw [hm.frames]; exact Nat.zero_lt_of_ne_zero (by decide))]
  exact ⟨_, _, rfl, by rw [hm.frames], rfl⟩

end Run

/-- For every text that is accepted, in the script and every function inside it all bytes of an
instruction are of one line, and lines never decrease. So the trace of a run that fails has an entry for
each frame, the innermost first: the first one with the line of the instruction that failed, and each
other one with the line of the instruction by which its frame called the next. -/
theorem Program.trace_tells {source : String} {p : Program} (hp : compile 0 source = .ok p) :
    (∀ r ∈ p.routines,
      (∀ o, r.code.Stop o → ∀ i, o ≤ i → i < o + r.code.instructionLength o →
        r.code.line? i = r.code.line? o) ∧
      ∀ i j x y, i ≤ j → r.code.line? i = some x → r.code.line? j = some y → x ≤ y) ∧
    ∀ console budget e trace m',
      (Machine.new console).runSource budget source = (.failed ⟨.runtime e, trace⟩, m') →
      ∃ loaded started calls m failed f fs,
        (Machine.new console).prepare source = (.ok p.main.function, loaded) ∧
        Machine.enter p.main.function loaded = .ok () started ∧ Proceeds started calls m ∧
        step m.traceStep = .error (.runtime e) failed ∧ m.Tells calls trace f fs := by
  refine ⟨fun r hr => ?_, fun console budget e trace m' hrun => ?_⟩
  · have hlined := compile_lined hp r hr
    exact ⟨fun o ho i hi hi' => hlined.cut.line?_eq ho hi hi', hlined.ascending⟩
  · obtain ⟨tree, -, -, -, hlaid⟩ := script_of_compile hp
    obtain ⟨console', hprepare⟩ := prepare_of_compile (m := Machine.new console) hp
    have hrest : (({ Machine.new console with console := console' } : Machine).load p).AtRest :=
      ⟨rfl, rfl, rfl⟩
    obtain ⟨started, f, henter, hframes, hip⟩ :=
      hrest.enter_ok (g := p.main.function) (by rw [hlaid.main])
    have hentered : Machine.enter p.main.function ((Machine.new console').load p) = .ok () started :=
      henter
    have hplaced : started.Placed [] f [] := ⟨hframes, hip ▸ .start, .nil⟩
    rw [runSource, hprepare] at hrun
    dsimp only at hrun
    rw [interpret, henter] at hrun
    obtain ⟨houtcome, -⟩ := Prod.mk.inj hrun
    dsimp only at houtcome
    cases hran : started.run budget with
    | mk o ended =>
        rw [hran] at houtcome
        cases o <;> cases houtcome
        obtain ⟨calls, m, failed, hreach, hstep, rfl⟩ := Proceeds.start.of_failed hran
        obtain ⟨⟨ℓ, h⟩, hw, f, fs, hplaced⟩ :=
          hreach.placed hp (.entered hentered) ((hrest.enter _).2 _ _ henter) hplaced
        exact ⟨_, started, calls, m, failed, f, fs, hprepare, henter, hreach, hstep,
          hplaced.tells hp h hw hstep⟩

/-- A function that fails on the second line. The other one calls it with a string that begins on the
fourth line, and the parentheses are closed on the sixth. -/
def failingSource : String :=
  "\x7b fun f(s) \x7b\nreturn -s;\n\x7d\nfun g() \x7b f(\"\n\"\n); \x7d\ng(); \x7d"

theorem Program.trace_tells_nested : ∃ p, compile 0 failingSource = .ok p ∧ ∃ m',
    (Machine.new {}).runSource 100 failingSource =
      (.failed ⟨.runtime .operandMustBeNumber, [⟨2, "f"⟩, ⟨6, "g"⟩, ⟨7, ""⟩]⟩, m') ∧
    ∃ started calls m failed f fs, Proceeds started calls m ∧
      step m.traceStep = .error (.runtime .operandMustBeNumber) failed ∧
      m.Tells calls [⟨2, "f"⟩, ⟨6, "g"⟩, ⟨7, ""⟩] f fs := by
  have hok : (compile 0 failingSource).isOk = true := by decide +kernel
  have hrun : ((Machine.new {}).runSource 100 failingSource).1 =
      .failed ⟨.runtime .operandMustBeNumber, [⟨2, "f"⟩, ⟨6, "g"⟩, ⟨7, ""⟩]⟩ := by decide +kernel
  cases hp : compile 0 failingSource with
  | error r =>
      rw [hp] at hok
      cases hok
  | ok p =>
      obtain ⟨_, started, calls, m, failed, f, fs, -, -, hreach, hstep, htells⟩ :=
        (trace_tells hp).2 {} 100 _ _ _ (Prod.ext hrun rfl)
      exact ⟨p, rfl, _, Prod.ext hrun rfl, started, calls, m, failed, f, fs, hreach, hstep, htells⟩

end LoxMachine
