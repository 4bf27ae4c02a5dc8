import LoxMachine.Chunk.Listing
import LoxMachine.Proofs.Code.Blocks
import LoxMachine.Proofs.Compile.Script

/-!
# Well-formed code

The code of a function read byte by byte from its start, as a listing reads it. Wherever the reading
stops, stands an operation with operands that mean something, whether the code is ever executed or
not (`Chunk.WellFormed`).

Main statement: `Program.wellFormed_of_compile`, the code of every function of a compiled program is
well-formed.
-/

namespace LoxMachine

namespace Chunk

/-! ## Reading from the start -/

/-- The offsets at which a reading of the code stops. -/
inductive Stop (c : Chunk) : Nat → Prop where
  | start : Stop c 0
  | next {p} : Stop c p → p < c.size → Stop c (p + c.instructionLength p)

/-- The bytes behind an operation at `p` are operands for it, in a function with `count` captures. -/
def OperandsFit (c : Chunk) (count p : Nat) : Opcode → Prop
  | .constant => ∃ v, c.constantAt? (p + 1) = some v ∧ ((∃ n, v = .number n) ∨ ∃ s, v = .string s)
  | .getGlobal | .defineGlobal | .setGlobal | .getProperty | .setProperty | .getSuper | .makeClass
  | .method => ∃ s, c.constantAt? (p + 1) = some (.string s)
  | .invoke | .superInvoke =>
    (∃ s, c.constantAt? (p + 1) = some (.string s)) ∧ ∃ n, c.operand? (p + 2) = some n
  | .getLocal | .setLocal | .call => ∃ n, c.operand? (p + 1) = some n
  | .getUpvalue | .setUpvalue => ∃ n, c.operand? (p + 1) = some n ∧ n < count
  | .closure => ∃ f, c.constantAt? (p + 1) = some (.function f) ∧ ∀ k < f.captures,
    ∃ source index, c.operand? (p + 2 + 2 * k) = some source ∧
      c.operand? (p + 2 + 2 * k + 1) = some index ∧ (source = 0 ∧ index < count ∨ source = 1)
  | .jump | .jumpIfFalse =>
    ∃ d, c.pair? (p + 1) = some d ∧ c.Stop (p + 3 + d) ∧ p + 3 + d < c.size
  | .loop =>
    ∃ d, c.pair? (p + 1) = some d ∧ d ≤ p + 3 ∧ c.Stop (p + 3 - d) ∧ p + 3 - d < c.size
  | _ => True

structure WellFormed (c : Chunk) (count : Nat) : Prop where
  operation : ∀ p, c.Stop p → p < c.size →
    ∃ op, (c.byte? p).bind Opcode.ofByte? = some op ∧ c.OperandsFit count p op
  inside : ∀ p, c.Stop p → p ≤ c.size
  ends : c.Stop c.size
  last : ∃ p, c.Stop p ∧ p + 1 = c.size ∧ (c.byte? p).bind Opcode.ofByte? = some .ret
  lines : ∀ p < c.size, ∃ line, c.line? p = some line

variable {c : Chunk} {p q : Nat} {ins : Instr}

theorem lt_size_of_instr? (h : c.instr? p = some (ins, q)) : p < c.size :=
  Nat.lt_of_lt_of_le (lt_of_instr? h) (le_size_of_instr? h)

/-- A decoded instruction is as long as the listing takes it to be. -/
theorem eq_add_instructionLength (h : c.instr? p = some (ins, q)) :
    q = p + c.instructionLength p := by
  obtain ⟨op, hop, hd⟩ := Option.bind_eq_some_iff.mp h
  rw [instructionLength, hop]
  cases op with
  | constant | getLocal | setLocal | getUpvalue | setUpvalue | call | getGlobal | defineGlobal
  | setGlobal | getProperty | setProperty | getSuper | makeClass | method | jump | jumpIfFalse =>
      obtain ⟨_, -, heq⟩ := Option.map_eq_some_iff.mp hd
      exact (Prod.mk.inj heq).2.symm
  | loop =>
      simp only [decode] at hd
      split at hd
      · split at hd
        · exact (Prod.mk.inj (Option.some.inj hd)).2.symm
        · cases hd
      · cases hd
  | invoke | superInvoke =>
      simp only [decode] at hd
      split at hd
      · exact (Prod.mk.inj (Option.some.inj hd)).2.symm
      · cases hd
  | closure =>
      simp only [decode] at hd
      split at hd
      · rename_i f hf
        obtain ⟨_, -, heq⟩ := Option.map_eq_some_iff.mp hd
        obtain ⟨-, rfl⟩ := Prod.mk.inj heq
        obtain ⟨b, hb, hc⟩ := Option.bind_eq_some_iff.mp hf
        simp only [Operands.of, capturesAt, hb, Option.bind_some, hc, Nat.add_assoc]
      · cases hd
  | _ => exact (Prod.mk.inj (Option.some.inj hd)).2.symm

theorem Stop.of_instr? (h : c.Stop p) (hi : c.instr? p = some (ins, q)) : c.Stop q := by
  rw [eq_add_instructionLength hi]
  exact h.next (lt_size_of_instr? hi)

theorem ret_of_instr? (h : c.instr? p = some (.ret, q)) :
    q = p + 1 ∧ (c.byte? p).bind Opcode.ofByte? = some .ret := by
  obtain ⟨op, hop, hd⟩ := Option.bind_eq_some_iff.mp h
  refine ⟨?_, ?_⟩
  all_goals
    cases op <;> simp only [decode] at hd <;> (repeat' split at hd) <;>
      simp only [Option.map_eq_some_iff, Option.some.injEq, Prod.mk.injEq, reduceCtorEq, false_and,
        and_false, exists_false, true_and] at hd
  · exact hd.symm
  · exact hop

/-- Each capture of a closure is given by two bytes. -/
theorem captureBytes {n k : Nat} {cs : List Capture} (h : c.captures? n p = some cs) (hk : k < n) :
    ∃ source index, c.operand? (p + 2 * k) = some source ∧ c.operand? (p + 2 * k + 1) = some index ∧
      (source = 0 ∧ ⟨index, false⟩ ∈ cs ∨ source = 1) := by
  induction n generalizing p k cs with
  | zero => cases hk
  | succ n ih =>
      obtain ⟨source, index, rest, hsource, hindex, hrest, hbit, rfl⟩ := captures?_succ.mp h
      cases k with
      | zero =>
          refine ⟨source.toNat, index.toNat, by rw [operand?, Nat.mul_zero, Nat.add_zero, hsource]; rfl,
            by rw [operand?, Nat.mul_zero, Nat.add_zero, hindex]; rfl, ?_⟩
          rcases hbit with rfl | rfl
          · exact .inl ⟨rfl, List.mem_cons_self⟩
          · exact .inr rfl
      | succ k =>
          obtain ⟨source', index', hsource', hindex', hcase⟩ := ih hrest (Nat.lt_of_succ_lt_succ hk)
          have hp : p + 2 * (k + 1) = p + 2 + 2 * k := by omega
          rw [hp]
          exact ⟨source', index', hsource', hindex',
            hcase.imp (And.imp_right (List.mem_cons_of_mem _)) id⟩

/-- Operands of an instruction that is decoded, names captures that are there and leads to
instructions. -/
theorem operandsFit_of_instr? {count : Nat} (h : c.instr? p = some (ins, q))
    (hpool : ∀ v, c.constantAt? (p + 1) = some v → v.IsPlain →
      (∃ n, v = .number n) ∨ ∃ s, v = .string s)
    (hsound : ins.Sound count) (htargets : ∀ t ∈ ins.targets q, c.Stop t ∧ t < c.size) :
    ∃ op, (c.byte? p).bind Opcode.ofByte? = some op ∧ c.OperandsFit count p op := by
  have hname {p : Nat} {s : String} (hs : c.nameAt? p = some s) :
      c.constantAt? p = some (.string s) := by
    rw [nameAt?] at hs
    split at hs
    · rename_i hv
      obtain rfl := Option.some.inj hs
      exact hv
    · cases hs
  obtain ⟨op, hop, hd⟩ := Option.bind_eq_some_iff.mp h
  refine ⟨op, hop, ?_⟩
  cases op with
  | constant =>
      obtain ⟨v, hv, heq⟩ := Option.map_eq_some_iff.mp hd
      obtain ⟨rfl, -⟩ := Prod.mk.inj heq
      exact ⟨v, hv, hpool v hv hsound⟩
  | getGlobal | defineGlobal | setGlobal | getProperty | setProperty | getSuper | makeClass
  | method =>
      obtain ⟨s, hs, -⟩ := Option.map_eq_some_iff.mp hd
      exact ⟨s, hname hs⟩
  | getLocal | setLocal | call =>
      obtain ⟨n, hn, -⟩ := Option.map_eq_some_iff.mp hd
      exact ⟨n, hn⟩
  | getUpvalue | setUpvalue =>
      obtain ⟨n, hn, heq⟩ := Option.map_eq_some_iff.mp hd
      obtain ⟨rfl, -⟩ := Prod.mk.inj heq
      exact ⟨n, hn, hsound⟩
  | jump =>
      obtain ⟨d, hdist, heq⟩ := Option.map_eq_some_iff.mp hd
      obtain ⟨rfl, -⟩ := Prod.mk.inj heq
      exact ⟨d, hdist, htargets _ (List.mem_singleton_self _)⟩
  | jumpIfFalse =>
      obtain ⟨d, hdist, heq⟩ := Option.map_eq_some_iff.mp hd
      obtain ⟨rfl, -⟩ := Prod.mk.inj heq
      exact ⟨d, hdist, htargets _ (List.mem_cons_of_mem _ (List.mem_singleton_self _))⟩
  | loop =>
      simp only [decode] at hd
      split at hd
      · rename_i d hdist
        split at hd
        · rename_i hle
          obtain ⟨rfl, -⟩ := Prod.mk.inj (Option.some.inj hd)
          exact ⟨d, hdist, hle, htargets _ (List.mem_singleton_self _)⟩
        · cases hd
      · cases hd
  | invoke | superInvoke =>
      simp only [decode] at hd
      split at hd
      · rename_i s n hs hn
        exact ⟨⟨s, hname hs⟩, n, hn⟩
      · cases hd
  | closure =>
      simp only [decode] at hd
      split at hd
      · rename_i f hf
        obtain ⟨cs, hcs, heq⟩ := Option.map_eq_some_iff.mp hd
        obtain ⟨rfl, -⟩ := Prod.mk.inj heq
        refine ⟨f, hf, fun k hk => ?_⟩
        obtain ⟨source, index, hsource, hindex, hcase⟩ := captureBytes hcs hk
        exact ⟨source, index, hsource, hindex,
          hcase.imp (And.imp_right fun hmem => hsound _ hmem rfl) id⟩
      · cases hd
  | _ => trivial

end Chunk

/-! ## Functions that are laid out -/

namespace Layout

variable {F : Layout} {i j n m p : Nat} {ms : List (Nat × Nat)}

theorem Tiles.stop (h : F.Tiles i ms j) (hi : F.code.Stop i) : F.code.Stop j := by
  induction h with
  | nil => exact hi
  | cons hins _ ih => exact ih (hi.of_instr? hins)

theorem Tiles.le (h : F.Tiles i ms j) : i ≤ j := by
  induction h with
  | nil => exact Nat.le_refl _
  | cons hins _ ih => exact Nat.le_trans (Nat.le_of_lt (Chunk.lt_of_instr? hins)) ih

theorem Tiles.stop_of_mem (h : F.Tiles i ms j) (hi : F.code.Stop i) {x : Nat × Nat} (hx : x ∈ ms) :
    F.code.Stop x.1 ∧ x.1 < F.code.size := by
  induction h with
  | nil => cases hx
  | cons hins _ ih =>
      rcases List.mem_cons.mp hx with rfl | hx
      · exact ⟨hi, Chunk.lt_size_of_instr? hins⟩
      · exact ih (hi.of_instr? hins) hx

/-- Reading the code from the start stops at the instructions. -/
theorem Tiles.of_stop (h : F.Tiles 0 ms F.code.size) (hp : F.code.Stop p) :
    ∃ ms', F.Tiles p ms' F.code.size ∧ ∀ x ∈ ms', x ∈ ms := by
  induction hp with
  | start => exact ⟨ms, h, fun _ => id⟩
  | next _ hlt ih =>
      obtain ⟨ms', htiles, hsub⟩ := ih
      cases htiles with
      | nil => exact absurd hlt (Nat.lt_irrefl _)
      | cons hins htail =>
          rw [← Chunk.eq_add_instructionLength hins]
          exact ⟨_, htail, fun x hx => hsub x (List.mem_cons_of_mem _ hx)⟩

/-- Nothing leads behind the end of a function, for no instruction empties the stack. -/
theorem mem_of_mem_end (hx : (i, n) ∈ ms ++ [(j, 0)]) (hn : 0 < n) : (i, n) ∈ ms := by
  rcases List.mem_append.mp hx with hx | hx
  · exact hx
  · obtain ⟨-, rfl⟩ := Prod.mk.inj (List.mem_singleton.mp hx)
    cases hn

theorem settled_inside (hsettled : ∀ A : Nat × Nat → Prop, (∀ x ∈ ms ++ [(j, 0)], A x) →
    (∀ x ∈ [], A x) → ∀ x ∈ ms, F.Settled A x) : ∀ x ∈ ms, F.Settled (· ∈ ms) x := by
  intro x hx
  obtain ⟨ins, q, hins, hpops, hreach, hsound, htargets⟩ :=
    hsettled (· ∈ ms ++ [(j, 0)]) (fun _ => id) (fun y hy => by cases hy) x hx
  refine ⟨ins, q, hins, hpops, hreach, hsound, fun t ht => mem_of_mem_end (htargets t ht) ?_⟩
  simp only [Instr.after]
  omega

/-- The instructions of a whole function: each leads to others of them. -/
theorem Whole.marks {routines : Array Routine} {arity : Nat} (h : F.Whole routines arity)
    (hF : F.captured.length = F.captures.length) :
    ∃ ms, F.Tiles 0 ms F.code.size ∧ (0, arity + 1) ∈ ms ∧ ∀ x ∈ ms, F.Settled (· ∈ ms) x := by
  obtain ⟨ms, htiles, hstart, hsettled⟩ := h.block hF
  exact ⟨ms, htiles, mem_of_mem_end hstart (Nat.succ_pos arity), settled_inside hsettled⟩

end Layout

theorem Routine.LaidOut.wellFormed {routines : Array Routine} {r : Routine} (h : r.LaidOut routines)
    {firstIndex : Nat} {nested : Array Routine}
    (hpool : ∀ v ∈ r.code.constants, Builder.Admits firstIndex nested v) :
    r.code.WellFormed r.function.captures := by
  obtain ⟨F, hcode, hcaptures, hcaptured, hwhole⟩ := h
  obtain ⟨ms, htiles, -, hsettled⟩ := hwhole.marks (hcaptured.trans hcaptures.symm)
  rw [← hcode] at hpool ⊢
  rw [← hcaptures]
  refine ⟨fun p hp hlt => ?_, fun p hp => ?_, htiles.stop .start, ?_, fun p hp => ?_⟩
  · obtain ⟨ms', htiles', hsub⟩ := htiles.of_stop hp
    cases htiles' with
    | nil => exact absurd hlt (Nat.lt_irrefl _)
    | cons hins _ =>
        obtain ⟨ins, q, hins, -, -, hsound, htargets⟩ := hsettled _ (hsub _ List.mem_cons_self)
        refine Chunk.operandsFit_of_instr? hins (fun v hv hplain => ?_) hsound fun t ht =>
          htiles.stop_of_mem .start (htargets t ht)
        obtain ⟨b, -, hc⟩ := Option.bind_eq_some_iff.mp hv
        have := hpool v (Array.mem_of_getElem? hc)
        cases v with
        | number n => exact .inl ⟨n, rfl⟩
        | string s => exact .inr ⟨s, rfl⟩
        | boolean | nil => exact this.elim
        | _ => exact hplain.elim
  · obtain ⟨ms', htiles', -⟩ := htiles.of_stop hp
    exact htiles'.le
  · obtain ⟨d, ss, L₀, L₁, k, k', hlen, hruns, hresult, hret⟩ := hwhole
    obtain ⟨ms₀, htiles₀, -, -⟩ :=
      hruns.levels (hcaptured.trans hcaptures.symm) (hlen ▸ Nat.succ_pos _) []
    obtain ⟨hend, hop⟩ := Chunk.ret_of_instr? hret
    exact ⟨k', (htiles₀.stop .start).of_instr? hresult, hend.symm, hop⟩
  · exact ⟨_, by rw [Chunk.line?, Array.getElem?_eq_getElem hp, Option.map_some]⟩

/-- All functions of a program that is laid out are. -/
theorem Program.LaidOut.routine {firstIndex : Nat} {p : Program} {tree : List Syntax.Stmt}
    (h : p.LaidOut firstIndex tree) {routines : Array Routine} (hroutines : p.KeptIn firstIndex routines)
    {r : Routine} (hr : r ∈ p.routines) : r.LaidOut routines := by
  rcases Array.mem_push.mp hr with hr | rfl
  · exact h.nested r hr routines hroutines
  · obtain ⟨captured, k, l, hruns, hresult, hret⟩ := h.code routines hroutines
    refine ⟨.script p.main.code, rfl, by rw [h.main]; rfl, by rw [h.main]; rfl, 0, tree, _, _, k, l, ?_,
      hruns, hresult, hret⟩
    rw [h.main]
    rfl

/-- Somewhere the functions of a program can be kept. -/
theorem Program.exists_keptIn (firstIndex : Nat) (p : Program) :
    ∃ routines, p.KeptIn firstIndex routines := by
  refine ⟨Array.replicate firstIndex p.main ++ p.nested, fun k r hk => ?_⟩
  rw [Array.getElem?_append_right (by simp)]
  simp [hk]

/-- A function among the constants of a program is one of its functions. -/
theorem Program.LaidOut.exists_of_constant {firstIndex : Nat} {p : Program}
    {tree : List Syntax.Stmt} (h : p.LaidOut firstIndex tree) {r : Routine} (hr : r ∈ p.routines)
    {f : Function} (hf : .function f ∈ r.code.constants) : ∃ r' ∈ p.nested, r'.function = f := by
  obtain ⟨k, r', hk, hfunction, -⟩ := h.constants r hr _ hf
  exact ⟨r', Array.mem_of_getElem? hk, hfunction⟩

/-- The code of the script and of all functions inside it is well-formed, and the functions among
their constants are functions inside it. -/
theorem Program.wellFormed_of_compile {firstIndex : Nat} {source : String} {p : Program}
    (h : compile firstIndex source = .ok p) {r : Routine} (hr : r ∈ p.routines) :
    r.code.WellFormed r.function.captures ∧
      ∀ f, .function f ∈ r.code.constants → ∃ r' ∈ p.nested, r'.function = f := by
  obtain ⟨tree, ts, last, -, -, -, hlaid⟩ := compile_spec h
  obtain ⟨routines, hroutines⟩ := exists_keptIn firstIndex p
  exact ⟨(hlaid.routine hroutines hr).wellFormed (hlaid.constants r hr),
    fun f => hlaid.exists_of_constant hr⟩

/-- A function that makes closures, with a variable captured through a function between. -/
theorem Program.wellFormed_of_compile_counter :
    ∃ p, compile 0 "fun f(a) { fun g() { fun h() { return a; } return h; } return g; } f(1);" =
        .ok p ∧ p.nested.size = 3 ∧ p.main ∈ p.routines ∧ p.main.code.WellFormed 0 := by
  have hcompile : (compile 0
      "fun f(a) { fun g() { fun h() { return a; } return h; } return g; } f(1);").map
      (fun p => (p.nested.size, p.main.function.captures)) = .ok (3, 0) := by decide +kernel
  obtain ⟨p, hp, hsize⟩ := exists_of_map_compile hcompile
  obtain ⟨hnested, hcaptures⟩ := Prod.mk.inj hsize
  have hmain : p.main ∈ p.routines := Array.mem_push_self
  exact ⟨p, hp, hnested, hmain, hcaptures ▸ (wellFormed_of_compile hp hmain).1⟩

end LoxMachine
