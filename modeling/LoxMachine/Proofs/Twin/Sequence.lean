import LoxMachine.Proofs.Syntax.Concatenation
import LoxMachine.Proofs.Twin.Loops
import LoxMachine.Proofs.Typing.Levels

/-!
# One text after another

A machine that has run one text and then runs another one does what a new machine does that runs both as
one text. The code of the whole text resembles that of the first text up to a seam; there the stack holds
nothing but the script, and the rest of the code resembles that of the second text, entered anew.

Main statement: `Program.runs_sequence`.
-/

namespace LoxMachine

open Machine Syntax

/-! ## Up to the seam -/

section Seam

variable {rs : Array Routine} {height : Nat → Nat} {ℓ : Lineage} {k q q' budget : Nat} {f : Frame}
  {m m' : Machine}

theorem Levels.continues (hcontinues : m.Continues k m') (hrs : ∀ r ∈ rs, ∃ height, r.Leveled height)
    (hm : ∀ n, Live rs ℓ n m) (h : Levels rs height m.values.length m.frames) :
    Levels rs height m'.values.length m'.frames := by
  induction hcontinues generalizing ℓ with
  | refl => exact h
  | @step _ m m' _ hstep hne _ ih =>
      have hlive (n : Nat) := (hm n).traceStep
      rcases step_cases hlive with ⟨e, m₁, herror⟩ | ⟨m₁, hok, ⟨-, hlive'⟩ | ⟨hnil, -⟩⟩
      · cases herror.symm.trans hstep
      · cases hok.symm.trans hstep
        refine ih hlive' (Levels.step ?_ hrs (hlive 1) (hlive' 1) hstep)
        obtain ⟨c, heq, -, -⟩ := m.hushed_traceStep
        rw [heq]
        exact h
      · cases hok.symm.trans hstep
        exact absurd hnil hne

/-- Variables that are captured are in slots that there are. -/
theorem Machine.Alive.lt_of_open (h : m.Alive) {x : Nat × Nat} (hx : x ∈ m.openCells) :
    x.1 < m.values.length := by
  obtain ⟨rs, ℓ, h⟩ := h
  obtain ⟨w, f, fs, G, E, σ, Γ, -, -, R, -⟩ := h 0
  rw [R.values.length_eq]
  exact R.steady.lt_of_mem hx

/-- A script that has come to its end, and finishes. -/
theorem Machine.Alive.completes (h : m.Alive) (hframes : m.frames = [f])
    (hnil : (m.store.chunk f.closure.function).instr? f.ip = some (.push .nil, q))
    (hret : (m.store.chunk f.closure.function).instr? q = some (.ret, q'))
    (hrun : m.run budget = (.finished, m')) : ∃ m₁, m.Hushed m₁ ∧ m' = m₁.done f.base m.values := by
  cases budget with
  | zero => cases hrun
  | succ budget =>
      have hhushed := m.hushed_traceStep
      obtain ⟨c, heq, houtput, hbroken⟩ := hhushed
      rw [Machine.run] at hrun
      rcases h.step with ⟨e, m₂, hstep⟩ | ⟨m₂, hstep, halive⟩ <;> rw [hstep] at hrun
      · cases hrun
      · have htop : m.traceStep.frames = [f] := by rw [heq]; exact hframes
        have heffect := effect_of_step htop (by rw [heq]; exact hnil) hstep
        cases heffect with
        | push =>
            have hframes₂ : (m.traceStep.goto q).frames = [{ f with ip := q }] :=
              frames_goto _ _ (by rw [heq]; exact hframes)
            have hne : ((m.traceStep.goto q).setValues (.nil :: m.traceStep.values)).frames ≠ [] := by
              rw [frames_setValues, hframes₂]
              exact List.cons_ne_nil _ _
            have hreturn : (((m.traceStep.goto q).setValues (.nil :: m.traceStep.values)).store.chunk
                f.closure.function).instr? q = some (.ret, q') := by
              rw [heq]
              exact hret
            simp only [List.isEmpty_iff, hne, if_false] at hrun
            cases budget with
            | zero => cases hrun
            | succ budget =>
                obtain ⟨m₃, v, vs, hhushed, hvalues, -, hfinishes⟩ :=
                  (halive hne).finishes (f := { f with ip := q }) hframes₂ hreturn
                rw [hfinishes] at hrun
                obtain ⟨-, rfl⟩ := Prod.mk.inj hrun
                rw [values_setValues] at hvalues
                obtain ⟨-, rfl⟩ := List.cons.inj hvalues
                obtain ⟨c', rfl, houtput', hbroken'⟩ := hhushed
                rw [heq] at houtput' hbroken' ⊢
                exact ⟨{ m with console := c' }, ⟨c', rfl, houtput'.trans houtput, hbroken'.trans hbroken⟩, rfl⟩

end Seam

/-! ## Behind the seam -/

section Scenes

variable {S S' : Scene} {n : Nat} {B : Bond} {P : Pairing} {v v' : Value} {c c' : Closure} {m m' : Machine}

/-- More code is loaded. -/
theorem Bond.Seat.extend (h : B.Seat S P c c') (hleft : ∀ (i : Nat) (c : Chunk), S.left[i]? = some c → S'.left[i]? = some c)
    (hright : S'.right = S.right) : B.Seat S' P c c' where
  left := hleft _ _ h.left
  right := hright ▸ h.right
  cells := h.cells

theorem Bond.Linked.extend (h : B.Linked S n v v')
    (hleft : ∀ (i : Nat) (c : Chunk), S.left[i]? = some c → S'.left[i]? = some c)
    (hright : S'.right = S.right) : B.Linked S' n v v' := by
  cases h with
  | bound hr hc => exact .bound hr hc
  | closure h =>
      obtain ⟨P, hscript, hseat, hcode⟩ := h.code
      exact .closure ⟨h.name, h.arity, P, hscript, hseat.extend hleft hright,
        hcode.extend hleft fun i c hc => hright ▸ hc⟩

theorem Heaps.load (h : Heaps S n B m m') (p : Program) (hleft : S'.left = S.left ++ codes p.routines)
    (hright : S'.right = S.right) : Heaps S' n B (m.load p) m' :=
  { h with
    left := by
      rw [hleft, ← h.left]
      rfl
    right := h.right.trans hright.symm
    linked := fun v v' hv => by
      refine (h.linked v v' hv).extend (fun i c hc => ?_) hright
      rw [hleft, Array.getElem?_append_left (Array.getElem?_eq_some_iff.mp hc).1]
      exact hc }

/-- One of the two leaves its script, on which no shared variable lives any more. -/
theorem Heaps.rest (h : Heaps S n B m m') (hm : m.Tidy) (hlow : ∀ x ∈ m.openCells, x.1 = 0) (base : Nat)
    (vs : List Value) : Heaps S n B (m.done base vs) m' := by
  set m₁ : Machine := { m with frames := [] }.setValues vs with hm₁
  have hstore : (m₁.closed base).store = { m.store with cells := (m₁.closed base).store.cells } :=
    closeCells_eq _ _ _
  have hsame : Heaps S n B { m with store := { m.store with cells := (m₁.closed base).store.cells } } m' := by
    refine { h with cells := fun c c' hc => ?_ }
    obtain ⟨x, x', hx, hx', htwin⟩ := h.cells c c' hc
    refine ⟨_, x', Tidy.cell_closed (m := m₁) { hm with } hx, hx', ?_⟩
    cases htwin with
    | closed hv => exact .closed hv
    | inSlot hpos => exact absurd (hlow _ ((hm.opened _ _).mp hx)) (Nat.ne_of_gt hpos)
  rw [← hstore] at hsame
  exact { hsame with }

end Scenes

/-! ## The code of both texts -/

section Code

variable {p q r : Program} {tree tree' : List Stmt}

/-- The script of the first text next to that of the whole text, as far as the first one goes. -/
def seamPair (p r : Program) (k k' : Nat) : Pairing :=
  (Layout.script p.main.code).pair (Layout.script r.main.code) fun o o' => o = k ∧ o' = k'

/-- Where the first text ends in its own code, and where it ends in the code of the whole text. -/
structure SeamAt (p r : Program) (tree' : List Stmt) (k k' : Nat) : Prop where
  before : ∀ n, Resembles (codes p.routines) (codes r.routines) n (seamPair p r k k') 0 0
  behind : ∀ q : Program, q.LaidOut p.routines.size tree' →
    ∀ n, Resembles (codes (p.routines ++ q.routines)) (codes r.routines) n (scriptPair q r) 0 k'
  answer : ∃ l e, p.main.code.instr? k = some (.push .nil, l) ∧ p.main.code.instr? l = some (.ret, e)
  height : ∃ height, p.main.Leveled height ∧ height k = 1

theorem exists_seam (hp : p.LaidOut 0 tree) (hr : r.LaidOut 0 (tree ++ tree')) :
    ∃ k k', SeamAt p r tree' k k' := by
  have hkept (p : Program) : p.KeptIn 0 p.routines := by
    simpa using Program.keptIn_append #[] p
  obtain ⟨captured, k, l, hruns, hi, hret⟩ := hp.code _ (hkept p)
  obtain ⟨captured', k₂, l₂, hruns', hi', hret'⟩ := hr.code _ (hkept r)
  obtain ⟨k', L, hfirst, hsecond⟩ := runs_append hruns'
  have hnames : SameNames [⟨"", some 0, captured⟩] [⟨"", some 0, captured'⟩] := List.Forall₂.cons ⟨rfl, rfl⟩ .nil
  obtain ⟨hnames₁, hparallel⟩ := (Part.unfolds_refl tree).alike (places_scripts hnames) hruns hfirst
  refine ⟨k, k', fun n => hparallel _ n ?_, fun q hq n => ?_, ⟨l, _, hi, hret⟩, ?_⟩
  · cases n with
    | zero => trivial
    | succ n => exact ⟨k, k', .refl, .refl, .inl ⟨rfl, rfl, rfl⟩⟩
  · obtain ⟨captured₁, k₁, l₁, hruns₁, hi₁, hret₁⟩ := hq.code _ (q.keptIn_append p.routines)
    have hnames₂ : SameNames [⟨"", some 0, captured₁⟩] L := by
      cases hnames₁ with
      | cons hl hnil =>
          cases hnil
          exact List.Forall₂.cons hl .nil
    obtain ⟨-, hparallel₂⟩ := (Part.unfolds_refl tree').alike (places_scripts hnames₂) hruns₁ hsecond
    exact hparallel₂ _ n (resembles_answers hi₁ hret₁ hi' hret' n)
  · have hlen : [(⟨"", some 0, captured⟩ : Local)].length = p.main.function.arity + 1 := by rw [hp.main]; rfl
    exact Routine.leveled_behind (F := .script p.main.code) rfl rfl hlen hruns hi hret

end Code

/-! ## Both turns -/

/-- The machines are the same up to a renaming of the closures and bound methods that they have made, as
far as `n` instructions of the closures tell. -/
def Machine.Renamed (n : Nat) (m m' : Machine) : Prop :=
  ∃ S B, Heaps S n B m m'

/-- Runs that print the same, end alike and, if they finish, leave the same behind up to a renaming. -/
structure SameStop (n : Nat) (x y : Outcome × Machine) : Prop extends SameEnd x y where
  renamed : x.1 = .finished → x.2.Renamed n y.2

/-- The same of what has become of two texts. -/
structure SameTurn (n : Nat) (x y : Ending × Machine) : Prop where
  like : x.1.Like y.1
  output : x.2.console.output = y.2.console.output
  renamed : x.1 = .completed → x.2.Renamed n y.2

section Turns

variable {S : Scene} {n k j budget : Nat} {m m' : Machine}

theorem Machine.Renamed.symm (h : m.Renamed n m') : m'.Renamed n m :=
  have ⟨S, B, h⟩ := h
  ⟨S.flip, B.flip, h.flip⟩

theorem finished_of_completed {o : Outcome} (h : Ending.ofOutcome o = .completed) : o = .finished := by
  cases o with
  | finished => rfl
  | failed | unfinished => cases h

theorem Outcome.Like.symm {o o' : Outcome} (h : o.Like o') : o'.Like o := by
  cases h with
  | finished => exact .finished
  | failed hfault => exact .failed hfault.symm
  | unfinished => exact .unfinished

theorem SameStop.symm {x y : Outcome × Machine} (h : SameStop n x y) : SameStop n y x := by
  obtain ⟨o, m⟩ := x
  obtain ⟨o', m'⟩ := y
  refine ⟨⟨h.like.symm, h.output.symm⟩, fun hfinished => (h.renamed ?_).symm⟩
  obtain rfl : o' = .finished := hfinished
  have hlike : o.Like .finished := h.like
  cases hlike
  rfl

theorem SameStop.turn {x y : Outcome × Machine} (h : SameStop n x y) :
    SameTurn n (.ofOutcome x.1, x.2) (.ofOutcome y.1, y.2) where
  like := h.like.ending
  output := h.output
  renamed hcompleted := h.renamed (finished_of_completed hcompleted)

theorem Machine.Continues.unfinished (h : m.Continues k m') (hj : j < k) : (m.run j).1 = .unfinished := by
  induction h generalizing j with
  | refl => cases hj
  | step hstep hne _ ih =>
      cases j with
      | zero => rfl
      | succ j =>
          rw [Machine.run, hstep]
          simp only [List.isEmpty_iff, hne, if_false]
          exact ih (Nat.lt_of_succ_lt_succ hj)

theorem Twins.of_le (h : Twins S k m m') (hj : j ≤ k) : Twins S j m m' := by
  induction hj with
  | refl => exact h
  | step _ ih => exact ih h.succ

/-- Whatever the left twin does within a budget, the right one does within another one. -/
theorem Twins.stops (h : Twins S (budget + n) m m')
    (hexit : ∀ r r', S.scripts.exit r r' → BothAnswer S.scripts.left S.scripts.right r r')
    (hm : m.Alive) (hm' : m'.Alive) : ∃ budget', SameStop n (m.run budget) (m'.run budget') := by
  rcases h.run hm hm' with ⟨budget', hsame, hne⟩ | ⟨k, rest, k', m₁, m₁', rfl, hpasses, hpasses', hmeets⟩
  · exact ⟨budget', hsame, fun h => absurd h hne⟩
  · refine ⟨k' + rest, ?_⟩
    rw [hpasses.run, hpasses'.run]
    cases rest with
    | zero =>
        obtain ⟨B, f, f', A, -⟩ := hmeets
        exact ⟨⟨.unfinished, A.heaps.output⟩, nofun⟩
    | succ rest =>
        obtain ⟨m₂, m₂', B, hrun, hrun', hheaps⟩ :=
          hmeets.finishes hexit (hpasses.alive hm) (hpasses'.alive hm')
        rw [hrun, hrun']
        exact ⟨⟨.finished, hheaps.output⟩, fun _ => ⟨S, B, hheaps⟩⟩

end Turns

section Sequence

variable {console : Console} {source source' : String} {budget k k' : Nat} {m x y : Machine} {p q r : Program}
  {tree tree' : List Stmt}

theorem Machine.Hushed.load (h : m.Hushed x) (p : Program) : (m.load p).Hushed (x.load p) := by
  obtain ⟨c, rfl, houtput, hbroken⟩ := h
  exact ⟨c, rfl, houtput, hbroken⟩

/-- When the first text has been run, the machine that runs the whole text is where that text ends. -/
theorem SeamAt.before_run (hseam : SeamAt p r tree' k k') (hp : Program.compile 0 source = .ok p)
    (hr : Program.compile 0 source' = .ok r) (hx : (Machine.new console).Hushed x)
    (hy : (Machine.new console).Hushed y)
    (hrun : ((x.load p).begun p.main.function).run budget = (.finished, m)) (n : Nat) :
    ∃ j m' f B, ((y.load r).begun r.main.function).Continues j m' ∧ m'.frames = [f] ∧ f.ip = k' ∧ f.base = 0 ∧
      (codes r.routines)[f.closure.function.index]? = some r.main.code ∧ m'.values.length = 1 ∧
      Heaps ⟨codes p.routines, codes r.routines, seamPair p r k k'⟩ n B m m' := by
  set S : Scene := ⟨codes p.routines, codes r.routines, seamPair p r k k'⟩
  obtain ⟨tree₁, -, -, -, hlaid⟩ := Program.script_of_compile hp
  obtain ⟨tree₂, -, -, -, hlaid'⟩ := Program.script_of_compile hr
  have hlive {x : Machine} {p : Program} {source : String} (hx : (Machine.new console).Hushed x)
      (hp : Program.compile 0 source = .ok p) (n : Nat) :
      Live p.routines .start n ((x.load p).begun p.main.function) := by
    obtain ⟨c, rfl, -, -⟩ := hx
    have hroutines : #[] ++ p.routines = p.routines := Array.empty_append
    rw [← hroutines]
    exact live_begun (m := { Machine.new console with console := c })
      (fun n => (idle_new n console).congr rfl rfl rfl rfl rfl) hp n
  have hmain {p : Program} {tree : List Stmt} (h : p.LaidOut 0 tree) :
      (codes p.routines)[p.main.function.index]? = some p.main.code := by
    simpa using Program.LaidOut.code_main #[] h
  have hshares (i i' : Nat) : ¬ S.scripts.shares i i' := by
    rintro ⟨name, c, c', -, hk, -⟩
    cases hk
  have A := Heaps.amid_begun (n := budget + n) ((heaps_new console rfl rfl).hushed (hx.load p) (hy.load r))
    (S := S) rfl (hmain hlaid) (hmain hlaid') hshares
  have halive : ((x.load p).begun p.main.function).Alive := ⟨_, _, hlive hx hp⟩
  have halive' : ((y.load r).begun r.main.function).Alive := ⟨_, _, hlive hy hr⟩
  rcases (A.twins (hseam.before _)).run halive halive' with
    ⟨budget', -, hne⟩ | ⟨i, rest, j, m₁, m', rfl, hleft, hright, B, f, f', A', hf, hf'⟩
  · exact absurd (congrArg Prod.fst hrun) hne
  · obtain ⟨height, hleveled, hheight⟩ := hseam.height
    have halive₁ := hleft.alive halive
    have hbase : f.base = 0 ∧ f'.base = 0 := by
      cases A'.lineup with
      | script _ _ hbase hbase' => exact ⟨hbase, hbase'⟩
    -- At the seam there is nothing but the script on the stack.
    have hlength : m₁.values.length = 1 := by
      have hstart : Levels p.routines height ((x.load p).begun p.main.function).values.length
          ((x.load p).begun p.main.function).frames := by
        have hindex : p.routines[p.main.function.index]? = some p.main := by
          rw [hlaid.main, Program.routines]
          simp
        have hentry : height 0 = 1 := by rw [hleveled.entry, hlaid.main]
        have := Levels.last (f := ⟨⟨x.store.nextId, p.main.function, #[]⟩, 0, 0⟩) ⟨p.main, hindex, hleveled, .start⟩
        rw [hentry] at this
        exact this
      have hlevels := Levels.continues hleft (fun r hr => (Program.leveled_of_compile hp hr).1) (hlive hx hp) hstart
      rw [A'.frames] at hlevels
      rw [hlevels.eq_last, hbase.1, hf, hheight]
    obtain ⟨l, e, hnil, hret⟩ := hseam.answer
    obtain ⟨m₂, hhushed, rfl⟩ := halive₁.completes A'.frames (by rw [A'.chunks.1, hf]; exact hnil)
      (by rw [A'.chunks.1]; exact hret) (by rw [← hleft.run]; exact hrun)
    have htidy := (hhushed.alive halive₁).tidy
    refine ⟨j, m', f', B, hright, A'.frames', hf', hbase.2, A'.lineup.seat.right,
      A'.values.length_eq.trans hlength, ?_⟩
    refine (A'.heaps.hushed hhushed (.refl m')).rest htidy (fun x hx => ?_) _ _
    obtain ⟨c, rfl, -, -⟩ := hhushed
    have := halive₁.lt_of_open hx
    omega

/-- The second text, entered anew, is the twin of what is behind the seam. -/
theorem SeamAt.twins (hseam : SeamAt p r tree' k k') (hq : q.LaidOut p.routines.size tree') {f : Frame} {B : Bond}
    {n : Nat} (hframes : x.frames = [f]) (hip : f.ip = k') (hbase : f.base = 0)
    (hcode : (codes r.routines)[f.closure.function.index]? = some r.main.code) (hlength : x.values.length = 1)
    (hheaps : Heaps ⟨codes p.routines, codes r.routines, seamPair p r k k'⟩ n B m x) (hy : m.Hushed y) :
    let S : Scene := ⟨codes (p.routines ++ q.routines), codes r.routines, scriptPair q r⟩
    Twins S n ((y.load q).begun q.main.function) x ∧ Twins S.flip n x ((y.load q).begun q.main.function) := by
  intro S
  have hleft : S.left = codes p.routines ++ codes q.routines := Array.map_append
  have hloaded : Heaps S n B (y.load q) x := (hheaps.hushed hy (.refl x)).load q hleft rfl
  have hload := hloaded.begun q.main.function
  have hshares (i i' : Nat) : ¬ S.scripts.shares i i' := by
    rintro ⟨name, c, c', -, hk, -⟩
    cases hk
  have hvalues : ∃ v, x.values = [v] := List.length_eq_one_iff.mp hlength
  obtain ⟨v, hv⟩ := hvalues
  have A : Amid S n B S.scripts ⟨⟨(y.load q).store.nextId, q.main.function, #[]⟩, 0, 0⟩ [] f []
      ((y.load q).begun q.main.function) x := {
    frames := rfl
    frames' := hframes
    lineup := .script rfl ⟨hq.code_main p.routines, hcode, fun i i' h => absurd h (hshares i i')⟩ rfl hbase
    values := by
      rw [hv]
      exact .bottom _ _
    heaps := hload }
  have hresembles : Resembles S.left S.right n S.scripts 0 f.ip := hip ▸ hseam.behind q hq n
  exact ⟨A.twins hresembles, A.flip.twins hresembles.flip⟩

/-- To run one text and then another on one machine prints what a new machine prints that runs the first one,
a newline and the second one, and ends alike; what is left behind is the same up to a renaming. Whatever the
second text does within some number of instructions, the whole text does within some number of them, and
when the whole text ends, so does the second one. -/
theorem Program.runs_sequence (hp : Program.compile 0 source = .ok p)
    (hr : Program.compile 0 (source ++ "\n" ++ source') = .ok r)
    (hrun : (Machine.new console).runSource budget source = (.completed, m))
    (hq : Program.compile m.store.chunks.size source' = .ok q) :
    let both := source ++ "\n" ++ source'
    (∀ budget n, ∃ budget', SameTurn n (m.runSource budget source') ((Machine.new console).runSource budget' both)) ∧
      ∀ budget' n, ((Machine.new console).runSource budget' both).1 ≠ .unfinished →
        ∃ budget, SameTurn n (m.runSource budget source') ((Machine.new console).runSource budget' both) := by
  intro both
  obtain ⟨tree, hscript, hplain, -, hlaid⟩ := Program.script_of_compile hp
  obtain ⟨tree', hscript', -, -, hlaid'⟩ := Program.script_of_compile hq
  obtain ⟨tree'', hscript'', -, -, hlaid''⟩ := Program.script_of_compile hr
  obtain rfl := hscript.append hscript' hscript'' fun t ht => hplain t ht _
  have hidle : Stage.idle.Sound m := by
    have hnew : Stage.idle.Sound (Machine.new console) := ⟨#[], .start, fun n => idle_new n console⟩
    have hsound := @sound_runSource budget _ source hnew
    rwa [hrun] at hsound
  obtain ⟨hframes, hvalues⟩ : m.frames = [] ∧ m.values = [] :=
    have ⟨_, _, h⟩ := hidle
    ⟨(h 0).frames, (h 0).values⟩
  obtain ⟨x, hx, hrunx⟩ := runSource_begun (m := Machine.new console) hp rfl rfl
  obtain ⟨y, hy, hruny⟩ := runSource_begun (m := Machine.new console) hr rfl rfl
  obtain ⟨z, hz, hrunz⟩ := runSource_begun (m := m) hq hframes hvalues
  have hfinished : ((x.load p).begun p.main.function).run budget = (.finished, m) := by
    rw [hrunx] at hrun
    obtain ⟨hending, hm⟩ := Prod.mk.inj hrun
    exact Prod.ext (finished_of_completed hending) hm
  obtain ⟨k, k', hseam⟩ := exists_seam hlaid hlaid''
  have hbefore := hseam.before_run hp hr hx hy hfinished
  have hsize : m.store.chunks.size = p.routines.size := by
    obtain ⟨j, m', f, B, -, -, -, -, -, -, hheaps⟩ := hbefore 0
    rw [hheaps.left]
    exact Array.size_map
  rw [hsize] at hlaid'
  set S : Scene := ⟨codes (p.routines ++ q.routines), codes r.routines, scriptPair q r⟩
  have htwins (n : Nat) : ∃ j m', ((y.load r).begun r.main.function).Continues j m' ∧
      Twins S n ((z.load q).begun q.main.function) m' ∧ Twins S.flip n m' ((z.load q).begun q.main.function) := by
    obtain ⟨j, m', f, B, hcontinues, hframes, hip, hbase, hcode, hlength, hheaps⟩ := hbefore n
    exact ⟨j, m', hcontinues, hseam.twins hlaid' hframes hip hbase hcode hlength hheaps hz⟩
  have halive : ((z.load q).begun q.main.function).Alive := by
    have hcompile : Program.compile z.store.chunks.size source' = .ok q := by
      obtain ⟨c, rfl, -, -⟩ := hz
      exact hq
    exact alive_begun (hz.idle hidle) hcompile
  have halive' : ((y.load r).begun r.main.function).Alive := by
    have hnew : Stage.idle.Sound (Machine.new console) := ⟨#[], .start, fun n => idle_new n console⟩
    have hcompile : Program.compile y.store.chunks.size both = .ok r := by
      obtain ⟨c, rfl, -, -⟩ := hy
      exact hr
    exact alive_begun (hy.idle hnew) hcompile
  constructor
  · intro budget n
    obtain ⟨j, m', hcontinues, htwins, -⟩ := htwins (budget + n)
    obtain ⟨budget', hstop⟩ := htwins.stops (fun _ _ => id) halive (hcontinues.alive halive')
    refine ⟨j + budget', ?_⟩
    rw [hrunz, hruny, hcontinues.run]
    exact hstop.turn
  · intro budget' n hne
    obtain ⟨j, m', hcontinues, -, htwins⟩ := htwins (budget' + n)
    rw [hruny] at hne ⊢
    have hj : j ≤ budget' := by
      by_contra hlt
      exact hne (congrArg Ending.ofOutcome (hcontinues.unfinished (Nat.lt_of_not_le hlt)))
    obtain ⟨rest, rfl⟩ := Nat.exists_eq_add_of_le hj
    have hexit : ∀ o o', S.flip.scripts.exit o o' → BothAnswer S.flip.scripts.left S.flip.scripts.right o o' := by
      rintro o o' ⟨e, e', hi, hi'⟩
      exact ⟨e', e, hi', hi⟩
    have hrest : Twins S.flip (rest + n) m' ((z.load q).begun q.main.function) := htwins.of_le (by omega)
    obtain ⟨budget, hstop⟩ := hrest.stops hexit (hcontinues.alive halive') halive
    refine ⟨budget, ?_⟩
    rw [hrunz, hcontinues.run]
    exact hstop.symm.turn

/-- A text that calls a function that the text before it has declared. -/
theorem Program.runs_sequence_call :
    let source := "fun f() { return true; }"
    let source' := "print f();"
    let both := source ++ "\n" ++ source'
    let m := ((Machine.new {}).runSource 10 source).2
    ((Machine.new {}).runSource 10 source).1 = .completed ∧
      (∃ p q r, compile 0 source = .ok p ∧ compile m.store.chunks.size source' = .ok q ∧ compile 0 both = .ok r) ∧
      (∀ budget n, ∃ budget', SameTurn n (m.runSource budget source') ((Machine.new {}).runSource budget' both)) ∧
      ∀ budget' n, ((Machine.new {}).runSource budget' both).1 ≠ .unfinished →
        ∃ budget, SameTurn n (m.runSource budget source') ((Machine.new {}).runSource budget' both) := by
  intro source source' both m
  have hrun : ((Machine.new {}).runSource 10 source).1 = .completed := by decide +kernel
  have hcompile : (compile 0 source).map (fun _ => ()) = .ok () := by decide +kernel
  have hcompile' : (compile m.store.chunks.size source').map (fun _ => ()) = .ok () := by decide +kernel
  have hcompile'' : (compile 0 both).map (fun _ => ()) = .ok () := by decide +kernel
  obtain ⟨p, hp, -⟩ := exists_of_map_compile hcompile
  obtain ⟨q, hq, -⟩ := exists_of_map_compile hcompile'
  obtain ⟨r, hr, -⟩ := exists_of_map_compile hcompile''
  exact ⟨hrun, ⟨p, q, r, hp, hq, hr⟩, runs_sequence hp hr (Prod.ext hrun rfl) hq⟩

end Sequence

end LoxMachine
