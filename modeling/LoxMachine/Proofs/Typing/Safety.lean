import LoxMachine.Session
import LoxMachine.Proofs.Verdict.Script
import LoxMachine.Proofs.Typing.Runs
import LoxMachine.Proofs.Typing.Steps

/-!
# Compiled code breaks no rule

A session is a machine that is given texts and functions of the host, and that has not failed yet
(`Session`). Between two texts it is idle, and the code it has loaded stays safe; a text that is
accepted is entered with a safe script, and from there on every step finds the shapes it needs.

Main statements: `Session.runtime_of_failed`, whatever stops a text was done by the script and is no
broken rule of the machine; `Session.closed_of_idle`, the variables that closures share outlive the
runs that made them, as long as no text fails.
-/

namespace LoxMachine

open Machine

/-! ## Runs -/

section Runs

variable {rs : Array Routine} {ℓ : Lineage} {n : Nat} {m : Machine}

theorem Live.traceStep (h : Live rs ℓ n m) : Live rs ℓ n m.traceStep := by
  obtain ⟨w, f, fs, G, E, σ, Γ, hrs, hℓ, R, hsafe⟩ := h
  refine ⟨w, f, fs, G, E, σ, Γ, hrs, hℓ, ?_, hsafe⟩
  rw [Machine.traceStep]
  split
  · exact R
  · split
    · exact { R with }
    · exact R

theorem Live.frames_ne_nil (h : Live rs ℓ n m) : m.frames ≠ [] := by
  obtain ⟨w, f, fs, G, E, σ, Γ, -, -, R, -⟩ := h
  rw [R.frames]
  exact List.cons_ne_nil f fs

/-- A step of a live machine ends in a runtime error, or the machine lives on, or the run is over. -/
theorem step_cases (h : ∀ n, Live rs ℓ n m) :
    (∃ e m', step m = .error (.runtime e) m') ∨ ∃ m', step m = .ok () m' ∧
      (m'.frames ≠ [] ∧ (∀ n, Live rs (ℓ.next m) n m') ∨
        m'.frames = [] ∧ ∀ n, Idle rs (ℓ.next m) n m') := by
  have hstep (n : Nat) : Fine (fun _ => Goes rs (ℓ.next m) n) step m := (h (n + 1)).step
  simp only [Fine] at hstep
  cases hs : step m with
  | error fault m' =>
      rw [hs] at hstep
      cases fault with
      | runtime e => exact .inl ⟨e, m', rfl⟩
      | violation v => exact (hstep 0).elim
  | ok u m' =>
      rw [hs] at hstep
      refine .inr ⟨m', rfl, ?_⟩
      by_cases hdone : m'.frames = []
      · exact .inr ⟨hdone, fun n => (hstep n).resolve_left fun hlive => hlive.frames_ne_nil hdone⟩
      · exact .inl ⟨hdone, fun n => (hstep n).resolve_right fun hidle => hdone hidle.frames⟩

end Runs

/-- What is known about a machine when its run has ended in some way. -/
def Outcome.Sound (m : Machine) : Outcome → Prop
  | .finished => ∃ rs ℓ, ∀ n, Idle rs ℓ n m
  | .unfinished => ∃ rs ℓ, ∀ n, Live rs ℓ n m
  | .failed f => ∃ e, f.fault = .runtime e

theorem sound_run {rs : Array Routine} {ℓ : Lineage} {budget : Nat} {m : Machine}
    (h : ∀ n, Live rs ℓ n m) : (run budget m).1.Sound (run budget m).2 := by
  refine run_of_invariant (P := fun m => ∃ ℓ, ∀ n, Live rs ℓ n m) (Q := fun o m => o.Sound m) ?_ ?_ ?_ ?_
    ⟨ℓ, h⟩ budget
  · rintro m m' ⟨ℓ, h⟩ hstep hactive
    obtain ⟨e, m₁, hs⟩ | ⟨m₁, hs, ⟨-, hlive⟩ | ⟨hnil, -⟩⟩ := step_cases fun n => (h n).traceStep <;>
      cases hstep.symm.trans hs
    · exact ⟨_, hlive⟩
    · exact absurd hnil hactive
  · rintro m ⟨ℓ, h⟩
    exact ⟨rs, ℓ, h⟩
  · rintro m m' ⟨ℓ, h⟩ hstep hlast
    obtain ⟨e, m₁, hs⟩ | ⟨m₁, hs, ⟨hne, -⟩ | ⟨-, hidle⟩⟩ := step_cases fun n => (h n).traceStep <;>
      cases hstep.symm.trans hs
    · exact absurd hlast hne
    · exact ⟨rs, _, hidle⟩
  · rintro m m' e ⟨ℓ, h⟩ hstep
    obtain ⟨e, m₁, hs⟩ | ⟨m₁, hs, -⟩ := step_cases fun n => (h n).traceStep <;>
      cases hstep.symm.trans hs
    exact ⟨e, rfl⟩

/-! ## Entering a script -/

section Entering

variable {rs : Array Routine} {ℓ : Lineage} {n : Nat} {m : Machine}

/-- A function without arguments whose code is safe can be entered. -/
theorem Idle.enter {f : Function} {G : Layout} (h : Idle rs ℓ n m)
    (hf : Enters rs (Safe rs n) f G ⟨[], none⟩) (hkind : G.kind = .script) (harity : f.arity = 0) :
    Fine (fun _ => Live rs ℓ n) (enter f) m := by
  obtain ⟨w, rfl, rfl, hs, hd⟩ := h.steady
  set c : Closure := ⟨m.store.nextId, f, #[]⟩
  obtain ⟨params, b, hlen, -, hstart⟩ := hf.start (.closure c) (by rw [hkind]; trivial)
  obtain rfl := List.length_eq_zero_iff.mp (hlen.trans harity)
  refine .bind_ok rfl (.bind ?_)
  have hroom : (0 : Nat) < maxStack := by decide
  set m' : Machine := { m with store := { m.store with nextId := m.store.nextId + 1 } }
  have hpush : push (.closure c) m' = .ok () (m'.setValues [.closure c]) := by
    rw [push_apply, show m'.values = [] from h.values]
    exact if_pos hroom
  refine .of_ok hpush ?_
  have hcall : call c 0 (m'.setValues [.closure c]) =
      .ok () { m'.setValues [.closure c] with frames := [⟨c, 0, 0⟩] } := by
    rw [call_apply c 0 (by simp), if_neg (by simp [c, harity]), values_setValues,
      show (m'.setValues [Value.closure c]).frames = [] from h.frames]
    exact if_pos (by decide)
  let w' : World := { w with ids := m.store.nextId + 1 }
  have hle : w.Le w' :=
    ⟨fun _ _ => id, fun _ _ => id, Nat.le_succ_of_le hs.ids, Nat.le_refl _, fun _ _ => rfl,
      fun _ _ => rfl⟩
  have hhome : w.lineage.home m.store.nextId = none := by
    cases hhome : w.lineage.home m.store.nextId with
    | none => rfl
    | some p => exact absurd (hs.ordered.homes _ p hhome).1 (Nat.not_lt_of_le hs.ids)
  have hparent : w.lineage.parentOf m.store.nextId = none := by
    rw [Lineage.parentOf, hhome]
    rfl
  refine .of_ok hcall ⟨w', ⟨c, 0, 0⟩, [], G, ⟨[], none⟩, _, [], rfl, rfl, ?_, hstart⟩
  have hhas : c.Has w' G ⟨[], none⟩ := ⟨hf.routine, .nil, Nat.lt_succ_self _, hparent⟩
  have hslot : G.kind.slotKind (.closure c) = .any := by rw [hkind]; rfl
  exact {
    frames := rfl
    has := hhas
    base := rfl
    calls := .none
    values := by
      refine .cons ?_ .nil
      rw [hslot]
      exact ⟨G, ⟨[], none⟩, hhas, by rw [hkind]; exact id, hf⟩
    steady := by
      have hsteady : Steady w' n [] none m'.store m'.globals [] :=
        hs.newId.evolve hle rfl rfl (Nat.le_refl _) hs.classes
          ⟨hs.ordered.older, hs.ordered.unborn, fun id p hp =>
            ⟨Nat.lt_succ_of_lt (Nat.lt_of_lt_of_le (hs.ordered.homes id p hp).1 hs.ids),
              (hs.ordered.homes id p hp).2⟩⟩
      rw [← h.openCells] at hsteady
      exact hsteady.push _
    declaring := hd }

/-- Loading a program leaves the code before it in its place. -/
theorem Idle.load (h : Idle rs ℓ n m) (p : Program) : Idle (rs ++ p.routines) ℓ n (m.load p) where
  frames := h.frames
  values := h.values
  openCells := h.openCells
  steady := by
    obtain ⟨w, rfl, rfl, hs, hd⟩ := h.steady
    let w' : World := { w with routines := w.routines ++ p.routines }
    have hle : w.Le w' := by
      refine ⟨fun i r hr => ?_, fun _ _ => id, Nat.le_refl _, Nat.le_refl _, fun _ _ => rfl,
        fun _ _ => rfl⟩
      rw [show w'.routines[i]? = w.routines[i]? from
        Array.getElem?_append_left (Array.getElem?_eq_some_iff.mp hr).1, hr]
    refine ⟨w', rfl, rfl, ?_, hd⟩
    exact {
      chunks := by
        rw [show (m.load p).store.chunks = m.store.chunks ++ p.routines.map (·.code) from rfl,
          hs.chunks]
        exact Array.map_append.symm
      globals := fun name v hv hx => (hs.globals name v hv hx).mono hle
      methods := fun c name f hf => (hs.methods c name f hf).mono hle
      fields := fun o name v hv => (hs.fields o name v hv).mono hle
      natives := hs.natives
      size := hs.size
      closed := fun c v k hv hk => (hs.closed c v k hv hk).mono hle
      opened := hs.opened
      shared := hs.shared
      descending := hs.descending
      ids := hs.ids
      classes := hs.classes
      ordered := hs.ordered }

theorem Idle.size_chunks (h : Idle rs ℓ n m) : m.store.chunks.size = rs.size := by
  obtain ⟨w, rfl, -, hs, -⟩ := h.steady
  rw [hs.chunks, Array.size_map]

/-- A legal script can be entered once its code has been loaded. -/
theorem Idle.enter_script {p : Program} {tree : List Syntax.Stmt} (h : Idle rs ℓ n m)
    (hp : p.LaidOut rs.size tree) (hlegal : Syntax.legalAll .script tree) :
    Fine (fun _ => Live (rs ++ p.routines) ℓ n) (Machine.enter p.main.function) (m.load p) := by
  have hnested : p.KeptIn rs.size (rs ++ p.routines) := by
    intro k r hk
    rw [Array.getElem?_append_right (Nat.le_add_right _ _), Nat.add_sub_cancel_left,
      Program.routines, Array.getElem?_push_lt (Array.getElem?_eq_some_iff.mp hk).1]
    exact (Array.getElem?_eq_getElem _).symm.trans hk
  have hmain : (rs ++ p.routines)[rs.size + p.nested.size]? = some p.main := by
    rw [Array.getElem?_append_right (Nat.le_add_right _ _), Nat.add_sub_cancel_left,
      Program.routines, Array.getElem?_push_size]
  exact (h.load p).enter (enters_script hp hlegal hnested hmain n) rfl (by rw [hp.main])

end Entering

theorem sound_interpret {rs : Array Routine} {ℓ : Lineage} {budget : Nat} {m : Machine} {p : Program}
    {tree : List Syntax.Stmt} (h : ∀ n, Idle rs ℓ n m) (hp : p.LaidOut m.store.chunks.size tree)
    (hlegal : Syntax.legalAll .script tree) :
    ((m.load p).interpret budget p.main.function).1.Sound
      ((m.load p).interpret budget p.main.function).2 := by
  rw [(h 0).size_chunks] at hp
  have henter (n : Nat) := (h n).enter_script hp hlegal
  rw [interpret]
  simp only [Fine] at henter
  cases hrun : enter p.main.function (m.load p) with
  | error fault m' =>
      rw [hrun] at henter
      cases fault with
      | runtime e => exact ⟨e, rfl⟩
      | violation v => exact (henter 0).elim
  | ok u m' =>
      rw [hrun] at henter
      exact sound_run henter

/-! ## Sessions -/

/-- Whether a machine waits for a text or is running one. -/
inductive Stage where
  | idle | running

/-- The next turn of a machine runs a text or goes on with one, for any number of instructions. -/
def Turn (m : Machine) (e : Ending) (m' : Machine) : Stage → Prop
  | .idle => ∃ budget source, m.runSource budget source = (e, m')
  | .running => ∃ budget, m.resume budget = (e, m')

/-- A machine that has been given texts and functions of the host, none of the texts having failed.
At any time the host may set the clock and take what has been printed. -/
inductive Session : Stage → Machine → Prop where
  | new (console : Console) : Session .idle (.new console)
  | native {m f} (name : String) : Session .idle m → f.Modest → Session .idle (m.defineNative name f)
  | host {st m} (time : Number) (console : Console) : Session st m →
      Session st { m with time, console }
  | rejected {st m m' errors} : Session st m → Turn m (.rejected errors) m' st → Session .idle m'
  | completed {st m m'} : Session st m → Turn m .completed m' st → Session .idle m'
  | unfinished {st m m'} : Session st m → Turn m .unfinished m' st → Session .running m'

/-- What is known about a machine at each stage. -/
def Stage.Sound (m : Machine) : Stage → Prop
  | .idle => ∃ rs ℓ, ∀ n, Idle rs ℓ n m
  | .running => ∃ rs ℓ, ∀ n, Live rs ℓ n m

/-- What is known about a machine after a turn. -/
def Ending.Sound (m : Machine) : Ending → Prop
  | .completed | .rejected _ => Stage.idle.Sound m
  | .unfinished => Stage.running.Sound m
  | .failed f => ∃ e, f.fault = .runtime e

theorem Outcome.Sound.ending {o : Outcome} {m : Machine} (h : o.Sound m) :
    (Ending.ofOutcome o).Sound m := by
  cases o <;> exact h

/-- Nothing is written to the log that anything depends on. -/
theorem Idle.congr {rs : Array Routine} {ℓ : Lineage} {n : Nat} {m m' : Machine} (h : Idle rs ℓ n m) (hstore : m'.store = m.store)
    (hglobals : m'.globals = m.globals) (hstack : m'.stack = m.stack)
    (hframes : m'.frames = m.frames) (hopen : m'.openCells = m.openCells) : Idle rs ℓ n m' where
  frames := hframes.trans h.frames
  values := (congrArg (·.toList.reverse) hstack).trans h.values
  openCells := hopen.trans h.openCells
  steady := by
    rw [hstore, hglobals]
    exact h.steady

/-- Two machines that differ in what they have printed and logged at most. -/
def Machine.Alike (m m' : Machine) : Prop :=
  m' = { m with console := m'.console }

theorem Machine.Alike.trans {m m' m'' : Machine} (h : m.Alike m') (h' : m'.Alike m'') :
    m.Alike m'' := by
  rw [Alike] at *
  rw [h', h]

theorem Machine.alike_traceStep (m : Machine) : m.Alike m.traceStep := by
  rw [traceStep]
  split
  · rfl
  · split <;> rfl

theorem alike_recordListing (m : Machine) (title : String) (code : Chunk) :
    m.Alike (m.recordListing title code) := by
  rw [recordListing]
  split <;> rfl

theorem alike_recordRoutines (m : Machine) (rs : Array Routine) : m.Alike (m.recordRoutines rs) := by
  rw [recordRoutines]
  have hstart : m.Alike m := rfl
  refine Array.foldl_induction (motive := fun _ m' => m.Alike m') hstart fun i m' h => ?_
  exact h.trans (alike_recordListing _ _ _)

theorem alike_recordRejection (m : Machine) (r : Rejection) : m.Alike (m.recordRejection r) := by
  have hfold (errors : List SourceError) (m' : Machine) :
      m'.Alike (errors.foldl (fun m e => m.record .debug e.message) m') := by
    induction errors generalizing m' with
    | nil => rfl
    | cons e errors ih => exact (show m'.Alike (m'.record .debug e.message) from rfl).trans (ih _)
  exact ((alike_recordRoutines m r.sound).trans (hfold r.errors _)).trans rfl

theorem Machine.Alike.idle {rs : Array Routine} {ℓ : Lineage} {n : Nat} {m m' : Machine}
    (h : m.Alike m') (hm : Idle rs ℓ n m) : Idle rs ℓ n m' := by
  rw [Alike] at h
  refine hm.congr ?_ ?_ ?_ ?_ ?_ <;> rw [h]

theorem sound_runSource {budget : Nat} {m : Machine} {source : String} (h : Stage.idle.Sound m) :
    (m.runSource budget source).1.Sound (m.runSource budget source).2 := by
  rw [runSource, prepare]
  set m₁ := m.record .trace ("Got input string: " ++ source)
  have h₁ : m.Alike m₁ := rfl
  dsimp only
  obtain ⟨rs, ℓ, h⟩ := h
  cases hcompile : Program.compile m₁.store.chunks.size source with
  | error r => exact ⟨rs, ℓ, fun n => (h₁.trans (alike_recordRejection m₁ r)).idle (h n)⟩
  | ok p =>
      obtain ⟨tree, -, -, hlegal, hp⟩ := Program.script_of_compile hcompile
      dsimp only
      set m₂ := ((m₁.recordRoutines p.nested).recordListing "<script>" p.main.code).record .debug
        "Compiled script, running"
      have h₂ : m₁.Alike m₂ :=
        ((alike_recordRoutines m₁ _).trans (alike_recordListing _ _ _)).trans rfl
      have hstore : m₂.store = m₁.store := by rw [h₂]
      rw [← hstore] at hp
      exact (sound_interpret (fun n => (h₁.trans h₂).idle (h n)) hp hlegal).ending

theorem Turn.sound {st : Stage} {m m' : Machine} {e : Ending} (h : st.Sound m)
    (ht : Turn m e m' st) : e.Sound m' := by
  cases st with
  | idle =>
      obtain ⟨budget, source, hrun⟩ := ht
      have hsound : (m.runSource budget source).1.Sound (m.runSource budget source).2 :=
        sound_runSource h
      rwa [hrun] at hsound
  | running =>
      obtain ⟨budget, hrun⟩ := ht
      obtain ⟨rs, ℓ, h⟩ := h
      have hsound : (Ending.ofOutcome (run budget m).1).Sound (run budget m).2 := (sound_run h).ending
      rw [resume] at hrun
      obtain ⟨rfl, rfl⟩ := Prod.mk.inj hrun
      exact hsound

/-- A new function of the host is a global like any other. -/
theorem Idle.defineNative {rs : Array Routine} {ℓ : Lineage} {n : Nat} {m : Machine}
    (h : Idle rs ℓ n m) {f : NativeFunction} (hf : f.Modest) (name : String) :
    Idle rs ℓ n (m.defineNative name f) where
  frames := h.frames
  values := h.values
  openCells := h.openCells
  steady := by
    obtain ⟨w, hrs, hℓ, hs, hd⟩ := h.steady
    have hd' : Declaring w.lineage w.classes (m.defineNative name f).store.methods.size
        (m.defineNative name f).globals none := by
      cases hd with
      | none hcurrent hsize => exact .none hcurrent hsize
    refine ⟨w, hrs, hℓ, Steady.insertGlobal ?_ name (v := .native _) fun _ => trivial, hd'⟩
    refine { hs with natives := fun i g hg => ?_ }
    change (m.store.natives.push f)[i]? = some g at hg
    rw [Array.getElem?_push] at hg
    split at hg
    · obtain rfl := Option.some.inj hg
      exact hf
    · exact hs.natives i g hg

theorem idle_empty (n : Nat) (console : Console) : Idle #[] .start n { console } where
  frames := rfl
  values := rfl
  openCells := rfl
  steady := by
    refine ⟨⟨#[], #[], .start, 0, 0⟩, rfl, rfl, ?_, .none rfl rfl⟩
    exact {
      chunks := Array.map_empty.symm
      globals := fun name v hv _ => by simp at hv
      methods := fun c name f hf => by simp [Store.method?] at hf
      fields := fun o name v hv => by simp [Store.field?] at hv
      natives := fun i f hf => by simp at hf
      size := rfl
      closed := fun c v k hv hk => by simp at hv
      opened := fun c slot => by simp
      shared := fun slot c hmem => by cases hmem
      descending := .nil
      ids := Nat.le_refl _
      classes := Nat.le_refl _
      ordered := ⟨nofun, fun _ _ => ⟨rfl, rfl⟩, nofun⟩ }

theorem idle_new (n : Nat) (console : Console) : Idle #[] .start n (.new console) :=
  (idle_empty n console).defineNative (fun time _ => .inl (show (Value.number time).IsPlain from trivial))
    "clock"

theorem Session.sound {st : Stage} {m : Machine} (h : Session st m) : st.Sound m := by
  induction h with
  | new console => exact ⟨#[], .start, fun n => idle_new n console⟩
  | native name _ hf ih =>
      obtain ⟨rs, ℓ, ih⟩ := ih
      exact ⟨rs, ℓ, fun n => (ih n).defineNative hf name⟩
  | @host st m time console _ ih =>
      cases st with
      | idle =>
          obtain ⟨rs, ℓ, ih⟩ := ih
          exact ⟨rs, ℓ, fun n => (ih n).congr rfl rfl rfl rfl rfl⟩
      | running =>
          obtain ⟨rs, ℓ, ih⟩ := ih
          refine ⟨rs, ℓ, fun n => ?_⟩
          obtain ⟨w, f, fs, G, E, σ, Γ, hrs, hℓ, R, hsafe⟩ := ih n
          exact ⟨w, f, fs, G, E, σ, Γ, hrs, hℓ, { R with }, hsafe⟩
  | rejected _ ht ih => exact ht.sound ih
  | completed _ ht ih => exact ht.sound ih
  | unfinished _ ht ih => exact ht.sound ih

/-- When no text has failed, an idle machine has no variable that is still in a slot. -/
theorem Session.closed_of_idle {m : Machine} (h : Session .idle m) {c : Nat} {cell : Cell}
    (hcell : m.store.cells[c]? = some cell) : ∃ v, cell = .closed v := by
  cases cell with
  | closed v => exact ⟨v, rfl⟩
  | inSlot slot =>
      obtain ⟨rs, ℓ, hidle⟩ := h.sound
      obtain ⟨w, -, -, hs, -⟩ := (hidle 0).steady
      have hopen : (slot, c) ∈ [] := (hs.opened c slot).mp hcell
      cases hopen

/-- A text that fails leaves the variables that were captured in slots that no longer exist: what a
later text pushes there is what a closure then finds. -/
theorem Session.inSlot_of_failed :
    let first := (Machine.new {}).runSource 20 "{ var x = 1; fun g() { return x; } nil + 1; }"
    first.1 = .failed ⟨.runtime .operandsMustBeNumbers, [⟨1, ""⟩]⟩ ∧
      first.2.store.cells[0]? = some (.inSlot 1) ∧ first.2.stack = #[] := by
  decide +kernel

/-- Whatever stops a text in a session, after any number of instructions, was done by the script:
the machine breaks none of its own rules. -/
theorem Session.runtime_of_failed {st : Stage} {m m' : Machine} {f : Failure} (h : Session st m)
    (ht : Turn m (.failed f) m' st) : ∃ e, f.fault = .runtime e :=
  ht.sound h.sound

/-- A first text defines a function, a second one adds a number to another. -/
theorem Session.runtime_of_failed_sum :
    let first := (Machine.new {}).runSource 20 "fun f() {}"
    let second := first.2.runSource 20 "{ fun f() { return f + 1; } print f(); }"
    Session .idle first.2 ∧
      Turn first.2 (.failed ⟨.runtime .operandsMustBeNumbers, [⟨1, "f"⟩, ⟨1, ""⟩]⟩) second.2 .idle ∧
      ∃ e, Fault.runtime .operandsMustBeNumbers = .runtime e := by
  intro first second
  have hfirst : Session .idle first.2 :=
    .completed (.new {}) ⟨20, _, Prod.ext (by decide +kernel : first.1 = .completed) rfl⟩
  have hsecond : Turn first.2 (.failed ⟨.runtime .operandsMustBeNumbers, [⟨1, "f"⟩, ⟨1, ""⟩]⟩)
      second.2 .idle :=
    ⟨20, _, Prod.ext (by decide +kernel : second.1 = .failed ⟨.runtime .operandsMustBeNumbers, _⟩) rfl⟩
  exact ⟨hfirst, hsecond, Session.runtime_of_failed hfirst hsecond⟩

end LoxMachine
