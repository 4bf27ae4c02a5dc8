import LoxMachine.Proofs.Code.WellFormed

/-!
# Heights of the stack

Wherever an execution of a function comes to an offset, it has left the stack at the same height
there (`Routine.Leveled`).

Main statement: `Program.leveled_of_compile`, every function of a compiled program has such heights.
-/

namespace LoxMachine

/-- The offsets that an execution of the code can come to. -/
inductive Chunk.Reachable (c : Chunk) : Nat → Prop where
  | start : Reachable c 0
  | step {p q t ins} : Reachable c p → c.instr? p = some (ins, q) → t ∈ ins.targets q → Reachable c t

/-- A height for each offset that can be come to. A function starts with itself or its receiver and
its arguments on the stack. Each instruction leaves on the stack what it does not take and what it
puts there, the lowest slot is not taken by any but the last return, and the slots that are named are
there. -/
structure Routine.Leveled (r : Routine) (height : Nat → Nat) : Prop where
  entry : height 0 = r.function.arity + 1
  instruction : ∀ p, r.code.Reachable p → ∃ ins q, r.code.instr? p = some (ins, q) ∧
    ins.pops ≤ height p ∧ ins.InReach (height p) ∧
    (if ins = .ret then 2 ≤ height p else 1 ≤ ins.after (height p)) ∧
    ∀ t ∈ ins.targets q, height t = ins.after (height p)

namespace Layout

variable {F : Layout} {i j : Nat} {ms : List (Nat × Nat)}

theorem Tiles.le_of_mem (h : F.Tiles i ms j) {x : Nat × Nat} (hx : x ∈ ms) : i ≤ x.1 := by
  induction h with
  | nil => cases hx
  | cons hins _ ih =>
      rcases List.mem_cons.mp hx with rfl | hx
      · exact Nat.le_refl _
      · exact Nat.le_trans (Nat.le_of_lt (Chunk.lt_of_instr? hins)) (ih hx)

/-- No offset is marked twice. -/
theorem Tiles.exists_height (h : F.Tiles i ms j) :
    ∃ height : Nat → Nat, ∀ x ∈ ms, height x.1 = x.2 := by
  induction h with
  | nil => exact ⟨fun _ => 0, fun x hx => by cases hx⟩
  | @cons i n k ms j ins hins htail ih =>
      obtain ⟨height, hheight⟩ := ih
      refine ⟨fun p => if p = i then n else height p, fun x hx => ?_⟩
      rcases List.mem_cons.mp hx with rfl | hx
      · exact if_pos rfl
      · have hlt := Nat.lt_of_lt_of_le (Chunk.lt_of_instr? hins) (htail.le_of_mem hx)
        exact (if_neg (Nat.ne_of_gt hlt)).trans (hheight x hx)

/-- Whatever is reached is marked. -/
theorem marked_of_reachable {n p : Nat} (hstart : (0, n) ∈ ms)
    (hsettled : ∀ x ∈ ms, F.Settled (· ∈ ms) x) (hp : F.code.Reachable p) : ∃ h, (p, h) ∈ ms := by
  induction hp with
  | start => exact ⟨n, hstart⟩
  | step _ hins ht ih =>
      obtain ⟨h, hmem⟩ := ih
      obtain ⟨ins, q, hins', -, -, -, htargets⟩ := hsettled _ hmem
      obtain ⟨rfl, rfl⟩ := Prod.mk.inj (Option.some.inj (hins.symm.trans hins'))
      exact ⟨_, htargets _ ht⟩

end Layout

/-- A function that is laid out, with the height behind its statements. -/
theorem Routine.leveled_behind {routines : Array Routine} {r : Routine} {F : Layout} {d k k' : Nat}
    {ss : List Syntax.Stmt} {L₀ L₁ : List Local} (hcode : F.code = r.code)
    (hF : F.captured.length = F.captures.length) (hlen : L₀.length = r.function.arity + 1)
    (hruns : Layout.Runs routines F d L₀ (.code ss) 0 k L₁)
    (hresult : F.At k (Layout.implicitResult F.kind) k') (hret : F.At k' .ret F.code.size) :
    ∃ height, r.Leveled height ∧ height k = L₁.length := by
  have hL₀ : 0 < L₀.length := hlen ▸ Nat.succ_pos _
  have hL₁ := Nat.lt_of_lt_of_le hL₀ hruns.length_le
  obtain ⟨ms, htiles, hstart, hbehind, hsettled⟩ := (hruns.levels hF hL₀ []).cut
    ((Layout.block_implicitResult hresult hL₁).trans (.ret hret hL₁))
  have hsettled := Layout.settled_inside hsettled
  have hstart := Layout.mem_of_mem_end hstart hL₀
  obtain ⟨height, hheight⟩ := htiles.exists_height
  refine ⟨height, ⟨(hheight _ hstart).trans hlen, fun p hp => ?_⟩, hheight _ (Layout.mem_of_mem_end hbehind hL₁)⟩
  obtain ⟨n, hmem⟩ := Layout.marked_of_reachable hstart hsettled (hcode ▸ hp)
  obtain ⟨ins, q, hins, hpops, hreach, -, htargets⟩ := hsettled _ hmem
  have hn : height p = n := hheight _ hmem
  rw [hn]
  refine ⟨ins, q, hcode ▸ hins, Nat.le_of_lt hpops, hreach, ?_, fun t ht => hheight _ (htargets t ht)⟩
  split
  · rename_i hret
    rw [hret] at hpops
    exact hpops
  · simp only [Instr.after]
    omega

theorem Routine.LaidOut.leveled {routines : Array Routine} {r : Routine} (h : r.LaidOut routines) :
    ∃ height, r.Leveled height := by
  obtain ⟨F, hcode, hcaptures, hcaptured, d, ss, L₀, L₁, k, k', hlen, hruns, hresult, hret⟩ := h
  obtain ⟨height, hleveled, -⟩ :=
    leveled_behind hcode (hcaptured.trans hcaptures.symm) hlen hruns hresult hret
  exact ⟨height, hleveled⟩

/-- The script and all functions inside it leave the stack at the same height on every way to an
instruction. -/
theorem Program.leveled_of_compile {firstIndex : Nat} {source : String} {p : Program}
    (h : compile firstIndex source = .ok p) {r : Routine} (hr : r ∈ p.routines) :
    (∃ height, r.Leveled height) ∧
      ∀ f, .function f ∈ r.code.constants → ∃ r' ∈ p.nested, r'.function = f := by
  obtain ⟨tree, ts, last, -, -, -, hlaid⟩ := compile_spec h
  obtain ⟨routines, hroutines⟩ := exists_keptIn firstIndex p
  exact ⟨(hlaid.routine hroutines hr).leveled, fun f => hlaid.exists_of_constant hr⟩

/-- A loop with a variable that a closure captures in each round. -/
theorem Program.leveled_of_compile_rounds :
    ∃ p, compile 0 "for (var i = 0; i < 3; i = i + 1) { var k = i; fun f() { return k; } }" =
        .ok p ∧ p.nested.size = 1 ∧ p.main ∈ p.routines ∧ ∃ height, p.main.Leveled height := by
  have hcompile : (compile 0
      "for (var i = 0; i < 3; i = i + 1) { var k = i; fun f() { return k; } }").map
      (·.nested.size) = .ok 1 := by decide +kernel
  obtain ⟨p, hp, hnested⟩ := exists_of_map_compile hcompile
  have hmain : p.main ∈ p.routines := Array.mem_push_self
  exact ⟨p, hp, hnested, hmain, (leveled_of_compile hp hmain).1⟩

end LoxMachine
