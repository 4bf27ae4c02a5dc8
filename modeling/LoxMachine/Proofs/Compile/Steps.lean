import LoxMachine.Proofs.Compile.Inversion
import LoxMachine.Proofs.Code.Emission
import LoxMachine.Proofs.Code.Layout

/-!
# Progress of a builder

`Steps i s ts s'`: between `s` and `s'` the builder has read the tokens `ts` and kept what was there,
the code from `i` on included. `Completes routines F L i s`: a function that has been compiled to the
end, with code `F` and locals `L`, keeps what the builder `s` has of it from `i` on. What a builder
has emitted is in every function that completes it.
-/

namespace LoxMachine.Builder

open Chunk (Agree Patched)

/-! ## Functions compiled so far -/

theorem getElem?_push_of_some {α : Type} {xs : Array α} {k : Nat} {x y : α} (h : xs[k]? = some x) :
    (xs.push y)[k]? = some x := by
  rw [Array.getElem?_push, if_neg (Nat.ne_of_lt (Array.getElem?_eq_some_iff.mp h).1)]
  exact h

/-- One of the functions compiled so far, numbered from `firstIndex` on. -/
def Knows (firstIndex : Nat) (finished : Array Routine) (f : Function) : Prop :=
  ∃ k r, finished[k]? = some r ∧ r.function = f ∧ f.index = firstIndex + k

/-- What can be among the constants: numbers, texts and functions compiled so far. -/
def Admits (firstIndex : Nat) (finished : Array Routine) : Value → Prop
  | .number _ | .string _ => True
  | .function f => Knows firstIndex finished f
  | _ => False

/-- The functions compiled so far are laid out wherever they are kept, and all the functions among
the constants of the bodies are such functions. -/
structure Orderly (firstIndex : Nat) (finished : Array Routine) (code : Chunk) (outer : List Body) :
    Prop where
  own : ∀ v ∈ code.constants, Admits firstIndex finished v
  around : ∀ b ∈ outer, ∀ v ∈ b.chunk.constants, Admits firstIndex finished v
  inside : ∀ r ∈ finished, ∀ v ∈ r.code.constants, Admits firstIndex finished v
  laidOut : ∀ r ∈ finished, ∀ routines : Array Routine, (∀ (k : Nat) (r' : Routine),
    finished[k]? = some r' → routines[firstIndex + k]? = some r') → r.LaidOut routines

/-- Constants are added. -/
theorem Orderly.pool {firstIndex : Nat} {finished : Array Routine} {code code' : Chunk}
    {outer : List Body} (h : Orderly firstIndex finished code outer)
    (hc : ∀ v ∈ code'.constants, v ∈ code.constants ∨ Admits firstIndex finished v) :
    Orderly firstIndex finished code' outer :=
  { h with own := fun v hv => (hc v hv).elim (h.own v) id }

/-- The names that are followed outwards add no constants. -/
theorem Orderly.growAll {firstIndex : Nat} {finished : Array Routine} {code : Chunk}
    {outer outer' : List Body} (h : Orderly firstIndex finished code outer)
    (hg : Body.GrowAll outer outer') : Orderly firstIndex finished code outer' := by
  refine { h with around := fun b hb v hv => ?_ }
  obtain ⟨b₀, hb₀, hgrow⟩ := hg.of_mem hb
  exact h.around b₀ hb₀ v (hgrow.chunk ▸ hv)

/-- A body without constants is opened. -/
theorem Orderly.open {firstIndex : Nat} {finished : Array Routine} {code : Chunk} {b : Body}
    {outer : List Body} (h : Orderly firstIndex finished b.chunk outer)
    (hcode : code.constants = #[]) : Orderly firstIndex finished code (b :: outer) where
  own := fun v hv => by simp [hcode] at hv
  around := fun b' hb' => by
    rcases List.mem_cons.mp hb' with rfl | hb'
    · exact h.own
    · exact h.around b' hb'
  inside := h.inside
  laidOut := h.laidOut

theorem Knows.push {firstIndex : Nat} {finished : Array Routine} {f : Function}
    (h : Knows firstIndex finished f) (r : Routine) : Knows firstIndex (finished.push r) f := by
  obtain ⟨k, r', hk, hf, hindex⟩ := h
  exact ⟨k, r', getElem?_push_of_some hk, hf, hindex⟩

theorem Admits.push {firstIndex : Nat} {finished : Array Routine} {v : Value}
    (h : Admits firstIndex finished v) (r : Routine) : Admits firstIndex (finished.push r) v := by
  cases v with
  | function f => exact Knows.push h r
  | _ => exact h

/-- A body that is laid out is closed. -/
theorem Orderly.close {firstIndex : Nat} {finished : Array Routine} {b : Body} {outer : List Body}
    {r : Routine} (h : Orderly firstIndex finished r.code (b :: outer))
    (hr : ∀ routines : Array Routine, (∀ (k : Nat) (r' : Routine),
      (finished.push r)[k]? = some r' → routines[firstIndex + k]? = some r') → r.LaidOut routines) :
    Orderly firstIndex (finished.push r) b.chunk outer where
  own := fun v hv => (h.around b List.mem_cons_self v hv).push r
  around := fun b' hb' v hv => (h.around b' (List.mem_cons_of_mem _ hb') v hv).push r
  inside := fun r' hr' v hv => by
    rcases Array.mem_push.mp hr' with hr' | rfl
    · exact (h.inside r' hr' v hv).push r
    · exact (h.own v hv).push r'
  laidOut := fun r' hr' routines hroutines => by
    rcases Array.mem_push.mp hr' with hr' | rfl
    · exact h.laidOut r' hr' routines fun k r₀ hk => hroutines k r₀ (getElem?_push_of_some hk)
    · exact hr routines hroutines

/-! ## Steps -/

structure Steps (i : Nat) (s : Builder) (ts : List Token) (s' : Builder) : Prop where
  rest : s.rest = ts ++ s'.rest
  kind : s'.body.kind = s.body.kind
  name : s'.body.name = s.body.name
  arity : s'.body.arity = s.body.arity
  depth : s'.body.depth = s.body.depth
  locals : ∃ new old, s'.body.locals = new ++ old ∧ Body.Raised s.body.locals old
  captures : ∀ (k : Nat) (c : Capture), s.body.captures[k]? = some c → s'.body.captures[k]? = some c
  agree : Agree s.body.chunk s'.body.chunk i s.body.chunk.size
  size : s.body.chunk.size ≤ s'.body.chunk.size
  outer : Body.GrowAll s.outer s'.outer
  classes : s'.classes = s.classes
  firstIndex : s'.firstIndex = s.firstIndex
  finished : ∀ (k : Nat) (r : Routine), s.finished[k]? = some r → s'.finished[k]? = some r
  orderly : Orderly s.firstIndex s.finished s.body.chunk s.outer →
    Orderly s'.firstIndex s'.finished s'.body.chunk s'.outer

namespace Steps

variable {i : Nat} {s s' s'' : Builder} {ts ts' : List Token}

theorem refl (i : Nat) (s : Builder) : Steps i s [] s :=
  ⟨rfl, rfl, rfl, rfl, rfl, ⟨[], _, rfl, Body.Raised.refl _⟩, fun _ _ => id, Agree.refl _ _ _,
    Nat.le_refl _, Body.GrowAll.refl _, rfl, rfl, fun _ _ => id, id⟩

theorem mono {j : Nat} (h : Steps i s ts s') (hij : i ≤ j) : Steps j s ts s' :=
  { h with agree := h.agree.mono hij (Nat.le_refl _) }

theorem trans (h : Steps i s ts s') (h' : Steps i s' ts' s'') : Steps i s (ts ++ ts') s'' where
  rest := by rw [h.rest, h'.rest, List.append_assoc]
  kind := h'.kind.trans h.kind
  name := h'.name.trans h.name
  arity := h'.arity.trans h.arity
  depth := h'.depth.trans h.depth
  locals := by
    obtain ⟨new, old, heq, hr⟩ := h.locals
    obtain ⟨new', old', heq', hr'⟩ := h'.locals
    rw [heq] at hr'
    obtain ⟨new₁, old₁, rfl, -, hold⟩ := hr'.append
    exact ⟨new' ++ new₁, old₁, by rw [heq', List.append_assoc], hr.trans hold⟩
  captures := fun k c hc => h'.captures k c (h.captures k c hc)
  agree := h.agree.trans (h'.agree.mono (Nat.le_refl _) h.size)
  size := Nat.le_trans h.size h'.size
  outer := h.outer.trans h'.outer
  classes := h'.classes.trans h.classes
  firstIndex := h'.firstIndex.trans h.firstIndex
  finished := fun k r hr => h'.finished k r (h.finished k r hr)
  orderly := h'.orderly ∘ h.orderly

theorem length_rest (h : Steps i s ts s') : s.rest.length = ts.length + s'.rest.length := by
  rw [h.rest, List.length_append]

/-- Without tokens read the current one stays. -/
theorem current (h : Steps i s [] s') : s'.current = s.current :=
  (List.cons.inj h.rest).1.symm

theorem length_locals (h : Steps i s ts s') : s.body.locals.length ≤ s'.body.locals.length := by
  obtain ⟨new, old, heq, hr⟩ := h.locals
  rw [heq, List.length_append, hr.length]
  exact Nat.le_add_left _ _

/-- Where no local has been added, the locals are raised at most. -/
theorem raised (h : Steps i s ts s') (hlen : s'.body.locals.length = s.body.locals.length) :
    Body.Raised s.body.locals s'.body.locals := by
  obtain ⟨new, old, heq, hr⟩ := h.locals
  rw [heq, List.length_append, hr.length] at hlen
  obtain rfl : new = [] := List.eq_nil_of_length_eq_zero (by omega)
  rw [heq]
  exact hr

theorem of_reads (h : s.Reads s') (hne : s.current.kind ≠ .eof) (i : Nat) :
    Steps i s [s.current] s' := by
  have hrest := h.rest hne
  rw [h.eq] at hrest ⊢
  exact { refl i s with rest := hrest }

end Steps

theorem Reads.body {s s' : Builder} (h : s.Reads s') : s'.body = s.body := by
  rw [h.eq]

theorem Reads.previous {s s' : Builder} (h : s.Reads s') : s'.previous = s.current := by
  rw [h.eq]

/-- In a class with a superclass, some body around has a local variable for the superclass. -/
def SuperKnown (s : Builder) : Prop :=
  s.classes.head? = some true →
    ∃ b ∈ s.body :: s.outer, ∃ slot, Body.slot? "super" b.locals = some slot

theorem SuperKnown.congr {s s' : Builder} (h : s.SuperKnown)
    (hlocals : s'.body.locals = s.body.locals) (houter : s'.outer = s.outer)
    (hclasses : s'.classes = s.classes) : s'.SuperKnown := by
  intro hclass
  rw [hclasses] at hclass
  obtain ⟨b, hb, slot, hslot⟩ := h hclass
  rcases List.mem_cons.mp hb with rfl | hb
  · exact ⟨s'.body, List.mem_cons_self, slot, hlocals ▸ hslot⟩
  · exact ⟨b, List.mem_cons_of_mem _ (houter ▸ hb), slot, hslot⟩

theorem slot?_append {name : String} {old : List Local} {slot : Nat} (new : List Local)
    (h : Body.slot? name old = some slot) : ∃ slot', Body.slot? name (new ++ old) = some slot' := by
  induction new with
  | nil => exact ⟨slot, h⟩
  | cons l new ih =>
      rw [List.cons_append, Body.slot?]
      split
      · exact ⟨_, rfl⟩
      · exact ih

theorem Steps.superKnown {i : Nat} {s s' : Builder} {ts : List Token} (hs : Steps i s ts s')
    (h : s.SuperKnown) : s'.SuperKnown := by
  intro hclass
  rw [hs.classes] at hclass
  obtain ⟨b, hb, slot, hslot⟩ := h hclass
  rcases List.mem_cons.mp hb with rfl | hb
  · obtain ⟨new, old, heq, hr⟩ := hs.locals
    obtain ⟨slot', hslot'⟩ := slot?_append new ((hr.slot? _).trans hslot)
    exact ⟨s'.body, List.mem_cons_self, slot', heq ▸ hslot'⟩
  · obtain ⟨b', hb', hg⟩ := hs.outer.mem hb
    exact ⟨b', List.mem_cons_of_mem _ hb', slot, (hg.locals.slot? _).trans hslot⟩

/-! ## Completion -/

/-- The function that a builder is compiling, seen when it is complete. -/
structure Completes (routines : Array Routine) (F : Layout) (L : List Local) (i : Nat) (s : Builder) :
    Prop where
  code : Agree s.body.chunk F.code i s.body.chunk.size
  captured : ∀ (k : Nat) (name : String), s.body.capturedName? s.outer k = some name →
    F.captured[k]? = some name
  captures : ∀ (k : Nat) (c : Capture), s.body.captures[k]? = some c → F.captures[k]? = some c
  around : List.Forall₂ Body.Becomes s.outer F.around
  kind : F.kind = s.body.kind
  locals : Body.Raised s.body.locals L
  routines : ∀ (k : Nat) (r : Routine), s.finished[k]? = some r →
    routines[s.firstIndex + k]? = some r

namespace Completes

variable {routines : Array Routine} {F : Layout} {L : List Local} {i j : Nat} {s s' : Builder}
  {ts : List Token}

theorem mono (h : Completes routines F L i s) (hij : i ≤ j) : Completes routines F L j s :=
  { h with code := h.code.mono hij (Nat.le_refl _) }

theorem length (h : Completes routines F L i s) : L.length = s.body.locals.length :=
  h.locals.length

/-- What completes a builder completes it as it was before, with the locals of that time. -/
theorem before (h : Completes routines F L i s') (hs : Steps i s ts s') :
    Completes routines F (Body.oldest s.body.locals.length L) i s := by
  obtain ⟨new, old, heq, hr⟩ := hs.locals
  have hl := h.locals
  rw [heq] at hl
  obtain ⟨new', old', rfl, -, ho⟩ := hl.append
  rw [Body.oldest_append (ho.length.trans hr.length)]
  refine ⟨?_, fun k name hk => ?_, fun k c hc => h.captures k c (hs.captures k c hc),
    hs.outer.becomes h.around, h.kind.trans hs.kind, hr.trans ho, fun k r hk => ?_⟩
  · exact hs.agree.trans (h.code.mono (Nat.le_refl _) hs.size)
  · exact h.captured k name (Body.capturedName?_grows hs.captures hs.outer hk)
  · have := h.routines k r (hs.finished k r hk)
    rwa [hs.firstIndex] at this

theorem before_same (h : Completes routines F L i s') (hs : Steps i s ts s')
    (hlen : s'.body.locals.length = s.body.locals.length) : Completes routines F L i s := by
  have := h.before hs
  rwa [Body.oldest_length (h.length.trans hlen)] at this

theorem has (h : Completes routines F L i s) {p q : Nat} {ins : Instr} (hp : i ≤ p)
    (hins : s.body.chunk.instr? p = some (ins, q)) : F.At p ins q :=
  h.code.instr? hp (Chunk.le_size_of_instr? hins) hins

end Completes

/-! ## Emitting -/

/-- A builder with other code. -/
def withChunk (s : Builder) (c : Chunk) : Builder :=
  { s with body := { s.body with chunk := c } }

/-- `s'` is `s` with one more instruction. -/
structure Emits (s : Builder) (ins : Instr) (s' : Builder) : Prop where
  eq : s' = s.withChunk s'.body.chunk
  agree : Agree s.body.chunk s'.body.chunk 0 s.body.chunk.size
  instr : s'.body.chunk.instr? s.body.chunk.size = some (ins, s'.body.chunk.size)
  pool : ∀ v ∈ s'.body.chunk.constants,
    v ∈ s.body.chunk.constants ∨ Admits s.firstIndex s.finished v

theorem pool_of_eq {s : Builder} {c : Chunk} (h : c.constants = s.body.chunk.constants) (v : Value)
    (hv : v ∈ c.constants) : v ∈ s.body.chunk.constants ∨ Admits s.firstIndex s.finished v :=
  .inl (h ▸ hv)

theorem steps_withChunk {s : Builder} {c : Chunk} {i : Nat}
    (hagree : Agree s.body.chunk c i s.body.chunk.size) (hsize : s.body.chunk.size ≤ c.size)
    (hpool : ∀ v ∈ c.constants, v ∈ s.body.chunk.constants ∨ Admits s.firstIndex s.finished v) :
    Steps i s [] (s.withChunk c) :=
  { Steps.refl i s with agree := hagree, size := hsize, orderly := fun h => h.pool hpool }

namespace Emits

variable {s s' : Builder} {ins : Instr}

theorem steps (h : Emits s ins s') (i : Nat) : Steps i s [] s' := by
  rw [h.eq]
  exact steps_withChunk (h.agree.mono (Nat.zero_le i) (Nat.le_refl _))
    (Nat.le_of_lt (Chunk.lt_of_instr? h.instr)) h.pool

theorem locals (h : Emits s ins s') : s'.body.locals = s.body.locals := by
  rw [h.eq]
  rfl

theorem has (h : Emits s ins s') {routines : Array Routine} {F : Layout} {L : List Local} {i : Nat}
    (hc : Completes routines F L i s') (hi : i ≤ s.body.chunk.size) : F.At s.body.chunk.size ins s'.body.chunk.size :=
  hc.has hi h.instr

end Emits

/-! ## Pieces of code -/

/-- Steps that neither emit code nor declare anything. -/
structure Quiet (s : Builder) (ts : List Token) (s' : Builder) : Prop where
  steps : Steps 0 s ts s'
  size : s'.body.chunk.size = s.body.chunk.size
  locals : s'.body.locals.length = s.body.locals.length

theorem Reads.quiet {s s' : Builder} (h : s.Reads s') (hne : s.current.kind ≠ .eof) :
    Quiet s [s.current] s' :=
  ⟨.of_reads h hne 0, by rw [h.body], by rw [h.body]⟩

/-- Between `s` and `s'` code has been added that is as `P` says in every function that completes
`s'`; nothing is declared. -/
structure Adds (s : Builder) (ts : List Token) (s' : Builder)
    (P : Layout → List Local → (i j : Nat) → Prop) : Prop where
  steps : Steps 0 s ts s'
  locals : s'.body.locals.length = s.body.locals.length
  code : ∀ {routines F L i}, Completes routines F L i s' → i ≤ s.body.chunk.size →
    P F L s.body.chunk.size s'.body.chunk.size

section Adds

variable {s s' s'' : Builder} {ts ts' : List Token} {P Q : Layout → List Local → Nat → Nat → Prop}

theorem Quiet.trans (h : Quiet s ts s') (h' : Quiet s' ts' s'') : Quiet s (ts ++ ts') s'' :=
  ⟨h.steps.trans h'.steps, h'.size.trans h.size, h'.locals.trans h.locals⟩

theorem Adds.map (h : Adds s ts s' P) (f : ∀ F L i j, P F L i j → Q F L i j) : Adds s ts s' Q :=
  ⟨h.steps, h.locals, fun hc hi => f _ _ _ _ (h.code hc hi)⟩

theorem Adds.kind (h : Adds s ts s' P) :
    Adds s ts s' fun F L i j => F.kind = s.body.kind ∧ P F L i j :=
  ⟨h.steps, h.locals, fun hc hi => ⟨hc.kind.trans h.steps.kind, h.code hc hi⟩⟩

theorem Adds.trans (h : Adds s ts s' P) (h' : Adds s' ts' s'' Q) :
    Adds s (ts ++ ts') s'' fun F L i j => ∃ k, P F L i k ∧ Q F L k j :=
  ⟨h.steps.trans h'.steps, h'.locals.trans h.locals, fun hc hi =>
    ⟨_, h.code (hc.before_same (h'.steps.mono (Nat.zero_le _)) h'.locals) hi,
      h'.code hc (Nat.le_trans hi h.steps.size)⟩⟩

theorem Quiet.adds (h : Quiet s ts s') (h' : Adds s' ts' s'' P) : Adds s (ts ++ ts') s'' P := by
  refine ⟨h.steps.trans h'.steps, h'.locals.trans h.locals, fun hc hi => ?_⟩
  rw [← h.size] at hi ⊢
  exact h'.code hc hi

theorem Adds.quiet (h : Adds s ts s' P) (h' : Quiet s' ts' s'') : Adds s (ts ++ ts') s'' P := by
  refine ⟨h.steps.trans h'.steps, h'.locals.trans h.locals, fun hc hi => ?_⟩
  rw [h'.size]
  exact h.code (hc.before_same (h'.steps.mono (Nat.zero_le _)) h'.locals) hi

theorem Emits.adds {ins : Instr} (h : Emits s ins s') :
    Adds s [] s' fun F _ i j => F.At i ins j :=
  ⟨h.steps 0, by rw [h.locals], fun hc hi => h.has hc hi⟩

end Adds

end LoxMachine.Builder
