import LoxMachine.Proofs.Meaning.Execution
import LoxMachine.Proofs.Twin.Loops
import LoxMachine.Proofs.Twin.Sequence

/-!
# Scripts mean what their trees say

The code of a plain script does what the evaluator does with its tree, in the same order, down to the
errors and what is printed before them.

Main statement: `Program.yields_iff`.
-/

namespace LoxMachine

open Machine Syntax

/-! ## Operators -/

namespace Syntax

theorem map_numbers (f : Number → Number → Value) (g : Value → Value) (a b : Value) :
    (numbers f a b).map g = numbers (fun a b => g (f a b)) a b := by
  rw [numbers.eq_def, numbers.eq_def]
  split <;> rfl

/-- An operator is what its operation makes, or the negation of that. -/
theorem BinaryOp.apply_eq (op : BinaryOp) (a b : Value) :
    op.apply a b =
      if op.negated then (op.positive.apply a b).map fun v => .boolean v.isFalsey
      else op.positive.apply a b := by
  have hnot (b : Bool) : (Value.boolean !b) = .boolean (Value.boolean b).isFalsey := by cases b <;> rfl
  cases op with
  | notEqual => exact congrArg Except.ok (hnot _)
  | greaterEqual | lessEqual =>
      change numbers _ a b = (numbers _ a b).map _
      simp only [map_numbers, hnot]
  | _ => rfl

end Syntax

/-! ## Names -/

/-- The names in the code are those of the memory. -/
def Lists (L : List Local) (M : Memory) : Prop :=
  ∀ name, Body.slot? name L = slotOf? name (M.names.flatten ++ [""])

theorem Lists.congr {L : List Local} {M M' : Memory} (h : Lists L M) (hnames : M'.names = M.names) :
    Lists L M' := by
  rwa [Lists, hnames]

/-- The locals between statements, inside `d` scopes, are the variables of the memory. -/
structure Mirrors (d : Nat) (L : List Local) (M : Memory) : Prop where
  names : L.map (·.name) = M.names.flatten ++ [""]
  initialized : ∀ l ∈ L, l.depth.isSome = true
  depth : M.names.length = d

namespace Mirrors

variable {d : Nat} {L : List Local} {M M' : Memory}

theorem congr (h : Mirrors d L M) (hnames : M'.names = M.names) : Mirrors d L M' where
  names := by rw [hnames, h.names]
  initialized := h.initialized
  depth := by rw [hnames, h.depth]

theorem lists (h : Mirrors d L M) : Lists L M := by
  intro name
  rw [Body.slot?_eq_slotOf? h.initialized, h.names]

/-- A variable without a value is not seen. -/
theorem initializing (h : Mirrors d L M) (x : String) (captured : Bool) :
    Lists (⟨x, none, captured⟩ :: L) M := by
  intro name
  rw [Body.slot?, if_neg (by simp [Body.Local.answersTo])]
  exact h.lists name

theorem enter (h : Mirrors d L M) : Mirrors (d + 1) L M.enter where
  names := h.names
  initialized := h.initialized
  depth := congrArg (· + 1) h.depth

end Mirrors

namespace Layout

variable {F : Layout} {L L' : List Local} {vs : List Value} {v : Value} {M M' : Memory} {m : Machine}
  {name : String} {a : Access} {i j k l d n : Nat}

/-! ## Expressions -/

/-- The value of an expression has been pushed. -/
def Pushed (F : Layout) (vs : List Value) (M : Memory) (j : Nat) (v : Value) (M' : Memory) (m : Machine) :
    Prop :=
  F.Holds (v :: vs) M' j m ∧ M'.names = M.names

theorem pushed_congr (hnames : M'.names = M.names) : F.Pushed vs M' j = F.Pushed vs M j := by
  funext v M₁ m
  rw [Pushed, Pushed, hnames]

theorem Finds.reads (h : F.Finds L name a) (hF : F.captured = []) (hne : name ≠ "") (hL : Lists L M)
    (hm : F.Holds vs M i m) (hi : F.At i a.get j) :
    CarriesOut n (F.Pushed vs M j) m (Memory.read name M) := by
  cases h with
  | «local» hslot =>
      rw [hL] at hslot
      obtain ⟨v, hget, hgo⟩ := hm.getLocal hi hne hslot
      rw [Memory.read_apply, hget]
      exact .advance hgo fun m' h' => .ok (.refl m') ⟨h', rfl⟩
  | captured _ hname =>
      rw [hF] at hname
      cases hname
  | global hslot =>
      rw [hL] at hslot
      rw [Memory.read_of_none hslot]
      exact .settle (hm.settles hi rfl (fun _ _ h' => h'.frames_ne_nil) fun m₁ h₁ => h₁.getGlobal name)
        fun v m' h' => ⟨h', rfl⟩

theorem Finds.writes (h : F.Finds L name a) (hF : F.captured = []) (hne : name ≠ "") (hL : Lists L M)
    (hm : F.Holds (v :: vs) M i m) (hi : F.At i a.set j) :
    CarriesOut n (fun _ => F.Pushed vs M j v) m (Memory.write name v M) := by
  cases h with
  | «local» hslot =>
      rw [hL] at hslot
      obtain ⟨M', hset, hnames, m', hgo, h'⟩ := hm.setLocal hi hne hslot
      rw [Memory.write_apply, hset]
      exact .ok hgo ⟨h', hnames⟩
  | captured _ hname =>
      rw [hF] at hname
      cases hname
  | global hslot =>
      rw [hL] at hslot
      have hset := Memory.set?_of_none (v := v) hslot
      have hgo := hm.settles hi rfl (fun _ _ h' => h'.frames_ne_nil) fun m₁ h₁ => h₁.setGlobal name
      rw [Memory.write_apply, hset]
      by_cases hname : M.globals.contains name = true
      · rw [if_pos hname] at hgo ⊢
        exact .advance hgo fun m' h' => .ok (.refl m') ⟨h', rfl⟩
      · rw [if_neg hname] at hgo ⊢
        exact .error hgo

/-- The operations of an operator make what it is defined to be. -/
theorem Holds.operates {op : BinaryOp} {x y : Value} (h : F.Holds (y :: x :: vs) M' i m)
    (hops : F.Operates (Expression.operations op.kind) i j) (hnames : M'.names = M.names) :
    CarriesOut n (F.Pushed vs M j) m (ofExcept (op.apply x y) M') := by
  rw [BinaryOp.operations_kind] at hops
  rw [BinaryOp.apply_eq]
  by_cases hnegated : op.negated = true
  · rw [if_pos hnegated] at hops ⊢
    obtain ⟨q, hi, r, hi', rfl⟩ := hops
    have hsettles := h.settles hi rfl (fun _ _ h' => h'.frames_ne_nil) fun m₁ h₁ => h₁.operate op
    cases hr : op.positive.apply x y with
    | error e =>
        rw [hr] at hsettles
        exact .error hsettles
    | ok v =>
        rw [hr] at hsettles
        refine .advance hsettles fun m₁ h₁ => ?_
        exact .advance (h₁.operator hi' fun _ h₂ => h₂.not) fun m₂ h₂ => .ok (.refl m₂) ⟨h₂, hnames⟩
  · rw [if_neg hnegated] at hops ⊢
    obtain ⟨q, hi, rfl⟩ := hops
    exact .settle (h.settles hi rfl (fun _ _ h' => h'.frames_ne_nil) fun m₁ h₁ => h₁.operate op)
      fun v m' h' => ⟨h', hnames⟩

/-- The code of an expression pushes its value. -/
theorem Loads.carries {es : List Expr} {e : Expr} (h : F.Loads L es i j) (hF : F.captured = [])
    (he : es = [e]) (hplain : e.IsPlain) (hL : Lists L M) (hm : F.Holds vs M i m) :
    CarriesOut n (F.Pushed vs M j) m (e.eval M) := by
  induction h generalizing e vs M m with
  | nothing => cases he
  | several => cases he
  | number hi | string hi | nil hi | boolean hi =>
      cases he
      exact .advance (hm.pushes hi) fun m' h' => .ok (.refl m') ⟨h', rfl⟩
  | grouping _ ih =>
      cases he
      have hcarries := ih rfl hplain hL hm
      exact hcarries
  | «variable» hid ha hi =>
      cases he
      exact ha.reads hF hid.1 hL hm hi
  | assign hid ha _ hi ih =>
      cases he
      refine .bind (ih rfl hplain hL hm) fun v M₁ m₁ ⟨h₁, hnames⟩ => ?_
      rw [← pushed_congr hnames]
      exact .bind (ha.writes hF hid.1 (hL.congr hnames) h₁ hi) fun _ M₂ m₂ h₂ => .ok (.refl m₂) h₂
  | @unary op _ _ _ _ _ hi ih =>
      cases he
      refine .bind (ih rfl hplain hL hm) fun v M₁ m₁ ⟨h₁, hnames⟩ => ?_
      exact .settle (h₁.settles hi rfl (fun _ _ h' => h'.frames_ne_nil) fun m₂ h₂ => h₂.unary op)
        fun v m' h' => ⟨h', hnames⟩
  | @binary op _ _ _ _ _ _ _ _ hops ih ih' =>
      cases he
      refine .bind (ih rfl hplain.1 hL hm) fun x M₁ m₁ ⟨h₁, hnames₁⟩ => ?_
      refine .bind (ih' rfl hplain.2 (hL.congr hnames₁) h₁) fun y M₂ m₂ ⟨h₂, hnames₂⟩ => ?_
      exact h₂.operates hops (hnames₂.trans hnames₁)
  | and _ hi hi' _ ih ih' =>
      cases he
      refine .bind (ih rfl hplain.1 hL hm) fun v M₁ m₁ ⟨h₁, hnames⟩ => ?_
      rw [← pushed_congr hnames]
      obtain ⟨m₂, hgo, h₂⟩ := h₁.branches hi
      refine .after hgo ?_
      by_cases hv : v.isFalsey = true
      · rw [if_pos hv] at h₂ ⊢
        exact .ok (.refl m₂) ⟨h₂, rfl⟩
      · rw [if_neg hv] at h₂ ⊢
        obtain ⟨m₃, hgo', h₃⟩ := h₂.drop hi'
        exact .after hgo' (ih' rfl hplain.2 (hL.congr hnames) h₃)
  | or _ hi hi' hi'' _ ih ih' =>
      cases he
      refine .bind (ih rfl hplain.1 hL hm) fun v M₁ m₁ ⟨h₁, hnames⟩ => ?_
      rw [← pushed_congr hnames]
      obtain ⟨m₂, hgo, h₂⟩ := h₁.branches hi
      refine .after hgo ?_
      by_cases hv : v.isFalsey = true
      · rw [if_pos hv] at h₂ ⊢
        obtain ⟨m₃, hgo', h₃⟩ := h₂.drop hi''
        exact .after hgo' (ih' rfl hplain.2 (hL.congr hnames) h₃)
      · rw [if_neg hv] at h₂ ⊢
        obtain ⟨m₃, hgo', h₃⟩ := h₂.jumps hi'
        exact .ok hgo' ⟨h₃, rfl⟩
  | this | «super» | get | set | call | invoke | superInvoke =>
      cases he
      exact hplain.elim

/-! ## Statements -/

/-- Statements have been executed. What they have declared is in the innermost block. -/
structure Done (F : Layout) (d : Nat) (L : List Local) (M : Memory) (j : Nat) (M' : Memory) (m : Machine) :
    Prop where
  holds : F.Holds [] M' j m
  mirrors : Mirrors d L M'
  outer : M'.names.tail = M.names.tail

theorem Done.start (hM : Mirrors d L M) (hm : F.Holds [] M i m) : F.Done d L M i M m :=
  ⟨hm, hM, rfl⟩

theorem Done.trans {M'' : Memory} (h : F.Done d L M i M' m) {m' : Machine} (h' : F.Done d L' M' j M'' m') :
    F.Done d L' M j M'' m' :=
  ⟨h'.holds, h'.mirrors, h'.outer.trans h.outer⟩

theorem Done.congr {M₁ : Memory} (h : F.Done d L M₁ i M' m) (hnames : M₁.names = M.names) :
    F.Done d L M i M' m :=
  { h with outer := h.outer.trans (congrArg List.tail hnames) }

theorem Done.move {m' : Machine} (h : F.Done d L M i M' m) (hm : F.Holds [] M' j m') :
    F.Done d L M j M' m' :=
  { h with holds := hm }

theorem Declares.carries (h : F.Declares d L name i j L') (hM : Mirrors d L M) (hm : F.Holds [v] M i m) :
    CarriesOut n (fun _ => F.Done d L' M j) m (.ok () (M.declare name v)) := by
  obtain ⟨globals, blocks, output⟩ := M
  cases h with
  | global hd hi =>
      obtain rfl : blocks = [] := by
        have := hM.depth
        rw [hd, Memory.names, List.length_map] at this
        exact List.length_eq_zero_iff.mp this
      refine .advance (hm.goesOn hi rfl fun _ h₁ => h₁.defineGlobal name) fun m' h' => ?_
      exact .ok (.refl m') ⟨h', hM.congr rfl, rfl⟩
  | «local» hd =>
      cases blocks with
      | nil => exact absurd hM.depth.symm hd
      | cons b bs =>
          refine .ok (.refl m) ⟨?_, ?_, rfl⟩
          · exact { hm with }
          · refine ⟨congrArg (name :: ·) hM.names, List.forall_mem_cons.mpr ⟨rfl, hM.initialized⟩, hM.depth⟩

/-- At the end of a block its variables are dropped. -/
theorem Done.leave {new : List Local} (h : F.Done (d + 1) (new ++ L) M.enter i M' m) (hM : Mirrors d L M)
    (hdrops : F.Drops new i j) : ∃ k m', m.Continues k m' ∧ F.Done d L M j M'.leave m' := by
  obtain ⟨globals, blocks, output⟩ := M'
  obtain ⟨b, bs, rfl⟩ : ∃ b bs, blocks = b :: bs := by
    have hlength : blocks.length = d + 1 := (List.length_map _).symm.trans h.mirrors.depth
    exact List.exists_cons_of_length_eq_add_one hlength
  have houter : bs.map (·.map Prod.fst) = M.names := h.outer
  have hlocals : new.map (·.name) = b.map Prod.fst := by
    have hnames := h.mirrors.names
    rw [List.map_append, hM.names, ← houter] at hnames
    change _ = (b.map Prod.fst ++ (bs.map (·.map Prod.fst)).flatten) ++ [""] at hnames
    rw [List.append_assoc] at hnames
    exact List.append_cancel_right hnames
  have hlength : (b.map Prod.snd).length = new.length := by
    rw [List.length_map, ← List.length_map Prod.fst, ← hlocals, List.length_map]
  have hholds : F.Holds (b.map Prod.snd) (Memory.leave ⟨globals, b :: bs, output⟩) i m := by
    obtain ⟨callee, hvalues⟩ := h.holds.values
    refine { h.holds with values := ⟨callee, ?_⟩ }
    rw [hvalues, List.nil_append, Memory.slots, Memory.slots, Memory.locals, List.flatten_cons, List.map_append,
      List.append_assoc]
    rfl
  obtain ⟨k, m', hgo, hm'⟩ := hholds.drops hdrops hlength
  exact ⟨k, m', hgo, hm', hM.congr houter, congrArg List.tail houter⟩

theorem inBlock_carries {new : List Local} {x : Eval Unit} (hM : Mirrors d L M)
    (h : CarriesOut n (fun _ => F.Done (d + 1) (new ++ L) M.enter i) m (x M.enter))
    (hdrops : F.Drops new i j) : CarriesOut n (fun _ => F.Done d L M j) m (inBlock x M) := by
  change CarriesOut n _ m ((x >>= fun _ => modify Memory.leave) M.enter)
  refine .bind h fun _ M' m' h' => ?_
  obtain ⟨k, m'', hgo, h''⟩ := h'.leave hM hdrops
  exact .ok hgo h''

/-- Where a condition holds, the machine goes on at `l`, and at `t` otherwise. -/
def Tested (F : Layout) (d : Nat) (L : List Local) (M : Memory) (l t : Nat) (b : Bool) : Memory → Machine → Prop :=
  F.Done d L M (if b then l else t)

theorem Loads.tests {c : Expr} {k' t t' : Nat} (h : F.Loads L [c] i k) (hi : F.At k (.jumpIfFalse t) k')
    (hi' : F.At k' .pop l) (hi'' : F.At t .pop t') (hF : F.captured = []) (hplain : c.IsPlain)
    (hM : Mirrors d L M) (hm : F.Holds [] M i m) :
    CarriesOut n (F.Tested d L M l t') m (Syntax.holds (some c) M) := by
  refine .bind (h.carries hF rfl hplain hM.lists hm) fun v M₁ m₁ ⟨h₁, hnames⟩ => ?_
  have hdone {j : Nat} {m₂ : Machine} (h₂ : F.Holds [] M₁ j m₂) : F.Done d L M j M₁ m₂ :=
    ⟨h₂, hM.congr hnames, congrArg List.tail hnames⟩
  obtain ⟨m₂, hgo, h₂⟩ := h₁.branches hi
  refine .after hgo ?_
  by_cases hv : v.isFalsey = true
  · rw [if_pos hv] at h₂
    rw [hv]
    obtain ⟨m₃, hgo', h₃⟩ := h₂.drop hi''
    exact .ok hgo' (hdone h₃)
  · rw [if_neg hv] at h₂
    rw [Bool.eq_false_iff.mpr hv]
    obtain ⟨m₃, hgo', h₃⟩ := h₂.drop hi'
    exact .ok hgo' (hdone h₃)

/-- The condition of a loop; without one the body comes next. -/
theorem LoopTest.carries {c : Option Expr} {exit p : Nat} (h : F.LoopTest L exit c i j)
    (hend : F.LoopEnd c exit p) (hF : F.captured = []) (hplain : OptionIsPlain c) (hM : Mirrors d L M)
    (hm : F.Holds [] M i m) : CarriesOut n (F.Tested d L M j p) m (Syntax.holds c M) := by
  cases h with
  | none => exact .ok (.refl m) (.start hM hm)
  | some hload hi hi' => exact hload.tests hi hi' hend hF (hplain _ rfl) hM hm

/-- The way from the condition of a loop to its body. -/
theorem LoopStep.body {step : Option Expr} {start next : Nat} (h : F.LoopStep L start step i j next)
    (hm : F.Holds [] M i m) : ∃ k m', m.Continues k m' ∧ F.Holds [] M j m' := by
  cases h with
  | none => exact ⟨0, m, .refl m, hm⟩
  | some hi _ _ _ => exact ⟨1, hm.jumps hi⟩

/-- Behind the body a loop goes back to its condition, by its step if it has one. -/
theorem LoopStep.carries {step : Option Expr} {start next q : Nat} (h : F.LoopStep L start step i j next)
    (hback : F.At k (.loop next) q) (hF : F.captured = []) (hplain : OptionIsPlain step)
    (hM : Mirrors d L M) (hm : F.Holds [] M k m) :
    CarriesOut n (fun _ M' m' => ∃ m'', m'.Continues 1 m'' ∧ F.Done d L M start M' m'') m
      (perform step M) := by
  obtain ⟨m₁, hgo, h₁⟩ := hm.loops hback
  cases h with
  | none => exact .ok (.refl m) ⟨m₁, hgo, .start hM h₁⟩
  | some _ hload hi hi' =>
      refine .after hgo (.bind (hload.carries hF rfl (hplain _ rfl) hM.lists h₁) ?_)
      intro v M₂ m₂ ⟨h₂, hnames⟩
      obtain ⟨m₃, hgo₃, h₃⟩ := h₂.drop hi
      obtain ⟨m₄, hgo₄, h₄⟩ := h₃.loops hi'
      exact .ok hgo₃ ⟨m₄, hgo₄, h₄, hM.congr hnames, congrArg List.tail hnames⟩

end Layout

namespace Syntax

theorem execAll_one (fuel : Nat) (s : Stmt) : execAll fuel [s] = s.exec fuel := by
  rw [execAll, execAll]
  exact bind_pure_unit

/-- A loop with clauses is a block in which its first clause comes before the loop proper. -/
theorem exec_for (fuel : Nat) (first : Option Stmt) (test step : Option Expr) (body : Stmt) :
    (Stmt.for first test step body).exec fuel =
      inBlock (execAll fuel first.toList >>= fun _ =>
        iterate (holds test) (do body.exec fuel; perform step) fuel) := by
  cases first with
  | none => rw [Stmt.exec, Option.toList_none, execAll, pure_bind]
  | some first => rw [Stmt.exec, Option.toList_some, execAll_one]

theorem plain_for {first : Option Stmt} {test step : Option Expr} {body : Stmt}
    (h : (Stmt.for first test step body).IsPlain) :
    AllPlain first.toList ∧ OptionIsPlain test ∧ OptionIsPlain step ∧ body.IsPlain := by
  cases first with
  | none => exact ⟨trivial, h⟩
  | some first => exact ⟨⟨h.1, trivial⟩, h.2⟩

end Syntax

namespace Layout

/-- The code of plain statements executes them. -/
theorem Runs.carries {routines : Array Routine} {fuel : Nat} {part : Part} {ss : List Stmt}
    (h : Runs routines F d L part i j L') (hF : F.captured = []) (hpart : part = .code ss)
    (hplain : AllPlain ss) (hM : Mirrors d L M) (hm : F.Holds [] M i m) :
    CarriesOut fuel (fun _ => F.Done d L' M j) m (execAll fuel ss M) := by
  induction h generalizing ss M m with
  | nothing =>
      cases hpart
      exact .ok (.refl m) (.start hM hm)
  | several _ _ ih ih' =>
      cases hpart
      obtain ⟨hfirst, hrest⟩ := hplain
      have hcarries := ih hF rfl ⟨hfirst, trivial⟩ hM hm
      rw [execAll_one] at hcarries
      refine .bind hcarries fun _ M₁ m₁ h₁ => ?_
      exact (ih' hF rfl hrest h₁.mirrors h₁.holds).weaken fun _ _ _ h₂ => h₁.trans h₂
  | expression hload hi =>
      cases hpart
      rw [execAll_one]
      refine .bind (hload.carries hF rfl hplain.1 hM.lists hm) fun v M₁ m₁ ⟨h₁, hnames⟩ => ?_
      obtain ⟨m₂, hgo, h₂⟩ := h₁.drop hi
      exact .ok hgo ⟨h₂, hM.congr hnames, congrArg List.tail hnames⟩
  | print hload hi =>
      cases hpart
      rw [execAll_one]
      refine .bind (hload.carries hF rfl hplain.1 hM.lists hm) fun v M₁ m₁ ⟨h₁, hnames⟩ => ?_
      refine .advance (h₁.operator hi fun _ h₂ => h₂.printTop) fun m₂ h₂ => ?_
      exact .ok (.refl m₂) ⟨h₂, hM.congr hnames, congrArg List.tail hnames⟩
  | assert hload hi =>
      cases hpart
      rw [execAll_one]
      refine .bind (hload.carries hF rfl hplain.1 hM.lists hm) fun v M₁ m₁ ⟨h₁, hnames⟩ => ?_
      exact .settle (h₁.settles hi rfl (fun _ _ h' => h'.frames_ne_nil) fun _ h₂ => h₂.assertTop)
        fun _ m₂ h₂ => ⟨h₂, hM.congr hnames, congrArg List.tail hnames⟩
  | var _ hi hdecl =>
      cases hpart
      rw [execAll_one]
      exact .advance (hm.pushes hi) fun m₁ h₁ => hdecl.carries hM h₁
  | varGlobal _ hd hload hi =>
      cases hpart
      rw [execAll_one]
      refine .bind (hload.carries hF rfl (hplain.1 _ rfl) hM.lists hm) fun v M₁ m₁ ⟨h₁, hnames⟩ => ?_
      exact ((Declares.global hd hi).carries (hM.congr hnames) h₁).weaken fun _ _ _ h₂ => h₂.congr hnames
  | varLocal _ hd hload =>
      cases hpart
      rw [execAll_one]
      refine .bind (hload.carries hF rfl (hplain.1 _ rfl) (hM.initializing _ _) hm) ?_
      intro v M₁ m₁ ⟨h₁, hnames⟩
      exact ((Declares.local hd).carries (hM.congr hnames) h₁).weaken fun _ _ _ h₂ => h₂.congr hnames
  | block _ hdrops ih =>
      cases hpart
      rw [execAll_one]
      exact inBlock_carries hM (ih hF rfl hplain.1 hM.enter { hm with }) hdrops
  | cond hload hi hi' _ hi'' hi₃ ih =>
      cases hpart
      rw [execAll_one]
      obtain ⟨⟨htest, hyes⟩, -⟩ := hplain
      refine .bind (hload.tests hi hi' hi₃ hF htest hM hm) fun b M₁ m₁ h₁ => ?_
      cases b with
      | false => exact .ok (.refl m₁) h₁
      | true =>
          have hcarries := ih hF rfl ⟨hyes, trivial⟩ h₁.mirrors h₁.holds
          rw [execAll_one] at hcarries
          refine hcarries.before fun _ M₂ m₂ h₂ => ?_
          obtain ⟨m₃, hgo, h₃⟩ := h₂.holds.jumps hi''
          exact ⟨1, m₃, hgo, (h₁.trans h₂).move h₃⟩
  | condElse hload hi hi' _ hi'' hi₃ _ ih ih' =>
      cases hpart
      rw [execAll_one]
      obtain ⟨⟨htest, hyes, hno⟩, -⟩ := hplain
      refine .bind (hload.tests hi hi' hi₃ hF htest hM hm) fun b M₁ m₁ h₁ => ?_
      cases b with
      | false =>
          have hcarries := ih' hF rfl ⟨hno, trivial⟩ h₁.mirrors h₁.holds
          rw [execAll_one] at hcarries
          exact hcarries.weaken fun _ M₂ m₂ h₂ => h₁.trans h₂
      | true =>
          have hcarries := ih hF rfl ⟨hyes, trivial⟩ h₁.mirrors h₁.holds
          rw [execAll_one] at hcarries
          refine hcarries.before fun _ M₂ m₂ h₂ => ?_
          obtain ⟨m₃, hgo, h₃⟩ := h₂.holds.jumps hi''
          exact ⟨1, m₃, hgo, (h₁.trans h₂).move h₃⟩
  | @«while» F d L c s i _ _ l _ _ j hload hi hi' _ hi'' hi₃ ih =>
      cases hpart
      rw [execAll_one]
      obtain ⟨⟨htest, hbody⟩, -⟩ := hplain
      refine .iterate (P := F.Done d L M i) (Q := F.Tested d L M l j) (fun M₁ m₁ h₁ => ?_)
        (fun M₁ m₁ h₁ => ?_) (Nat.le_refl fuel) (.start hM hm)
      · exact (hload.tests hi hi' hi₃ hF htest h₁.mirrors h₁.holds).weaken fun _ _ _ h₂ => h₁.trans h₂
      · have hcarries := ih hF rfl ⟨hbody, trivial⟩ h₁.mirrors h₁.holds
        rw [execAll_one] at hcarries
        refine hcarries.weaken fun _ M₂ m₂ h₂ => ?_
        obtain ⟨m₃, hgo, h₃⟩ := h₂.holds.loops hi''
        exact ⟨m₃, hgo, (h₁.trans h₂).move h₃⟩
  | @«for» F d L first c step s new i a b l next k exit p j _ htest hstep _ hi hend hdrops ih ih' =>
      cases hpart
      rw [execAll_one, exec_for]
      obtain ⟨hfirst, hc, hs, hbody⟩ := plain_for hplain.1
      refine inBlock_carries hM (.bind (ih hF rfl hfirst hM.enter { hm with }) fun _ M₁ m₁ h₁ => ?_) hdrops
      refine .iterate (P := F.Done (d + 1) (new ++ L) M.enter a)
        (Q := F.Tested (d + 1) (new ++ L) M.enter b p) (fun M₂ m₂ h₂ => ?_) (fun M₂ m₂ h₂ => ?_)
        (Nat.le_refl fuel) h₁
      · exact (htest.carries hend hF hc h₂.mirrors h₂.holds).weaken fun _ _ _ h₃ => h₂.trans h₃
      · obtain ⟨k, m₃, hgo, h₃⟩ := hstep.body h₂.holds
        have hcarries := ih' hF rfl ⟨hbody, trivial⟩ h₂.mirrors h₃
        rw [execAll_one] at hcarries
        refine .after hgo (.bind hcarries fun _ M₄ m₄ h₄ => ?_)
        refine (hstep.carries hi hF hs h₄.mirrors h₄.holds).weaken ?_
        rintro _ M₅ m₅ ⟨m₆, hgo', h₆⟩
        exact ⟨m₆, hgo', (h₂.trans h₄).trans h₆⟩
  | «return» | returnValue | functionGlobal | functionLocal | cls | subclass =>
      cases hpart
      exact hplain.1.elim
  | noMethods | methods | closure => cases hpart

end Layout

/-! ## The ends of runs -/

/-- What the end of a run says about the script. -/
inductive Ending.Gives : Ending → Except RuntimeError Unit → Prop where
  | completed : Gives .completed (.ok ())
  | failed {f e} : f.fault = .runtime e → Gives (.failed f) (.error e)

/-- Some budget suffices, within which all of `output` is printed and the run ends with `r`. -/
def Machine.Ends (m : Machine) (output : String) (r : Except RuntimeError Unit) : Prop :=
  ∃ budget, (Ending.ofOutcome (m.run budget).1).Gives r ∧ (m.run budget).2.console.output = output

section Ends

variable {m m' : Machine} {k q : Nat} {e : RuntimeError} {output output' : String}
  {r r' : Except RuntimeError Unit} {F : Layout} {vs : List Value} {M : Memory} {p : Nat}

theorem Machine.Continues.ends (h : m.Continues k m') (h' : m'.Ends output r) : m.Ends output r := by
  obtain ⟨budget, h'⟩ := h'
  refine ⟨k + budget, ?_⟩
  rwa [h.run]

theorem Machine.Fails.ends (h : m.Fails e output) : m.Ends output (.error e) := by
  obtain ⟨k, m₁, m₂, hgo, hstep, houtput⟩ := h
  refine hgo.ends ⟨1, ?_⟩
  rw [Machine.run, hstep]
  exact ⟨.failed rfl, (m₂.output_abort _).trans houtput⟩

/-- A run that has ended does nothing with a greater budget. -/
theorem Machine.run_of_ended {budget : Nat} (h : (m.run budget).1 ≠ .unfinished) (more : Nat) :
    m.run (budget + more) = m.run budget := by
  induction budget generalizing m with
  | zero => exact absurd rfl h
  | succ budget ih =>
      rw [Nat.add_right_comm]
      rw [Machine.run] at h ⊢
      rw [Machine.run]
      cases hstep : Machine.step m.traceStep with
      | error fault m₁ => rfl
      | ok u m₁ =>
          rw [hstep] at h
          dsimp only at h ⊢
          split
          · rfl
          · rename_i hne
            rw [if_neg hne] at h
            exact ih h

theorem Ending.Gives.ended {o : Outcome} (h : (Ending.ofOutcome o).Gives r) : o ≠ .unfinished := by
  rintro rfl
  cases h

theorem Ending.Gives.unique {e : Ending} (h : e.Gives r) (h' : e.Gives r') : r = r' := by
  cases h with
  | completed =>
      cases h'
      rfl
  | failed hf =>
      cases h' with
      | failed hf' =>
          cases hf.symm.trans hf'
          rfl

/-- A run ends in one way. -/
theorem Machine.Ends.unique (h : m.Ends output r) (h' : m.Ends output' r') : output = output' ∧ r = r' := by
  obtain ⟨b, hr, houtput⟩ := h
  obtain ⟨b', hr', houtput'⟩ := h'
  have hsame : m.run b = m.run b' := by
    rw [← run_of_ended hr.ended b', Nat.add_comm, run_of_ended hr'.ended]
  rw [hsame] at hr houtput
  exact ⟨houtput.symm.trans houtput', hr.unique hr'⟩

theorem Layout.Holds.ends (h : F.Holds vs M p m) (hm : m.Alive) (hi : F.At p .ret q) :
    m.Ends M.output (.ok ()) := by
  obtain ⟨c, hframes, hcode⟩ := h.frame
  have hi' : (m.store.chunk c.function).instr? p = some (.ret, q) := hcode ▸ hi
  obtain ⟨m₁, v, vs, hhushed, -, -, hrun⟩ := hm.finishes hframes hi'
  refine ⟨1, ?_⟩
  rw [hrun 0]
  exact ⟨.completed, hhushed.output_eq.trans h.output⟩

end Ends

/-! ## Scripts -/

/-- On a new machine, which logs from `level` on, the text prints `output` and ends with `r`. -/
def EndsWith (level : Option LogLevel) (source output : String) (r : Except RuntimeError Unit) : Prop :=
  ∃ budget, ((Machine.new { level }).runSource budget source).1.Gives r ∧
    ((Machine.new { level }).runSource budget source).2.console.output = output

namespace Program

variable {level : Option LogLevel} {source output : String} {p : Program} {tree : List Stmt}
  {r : Except RuntimeError Unit}

/-- A text that is accepted is run by a machine that holds the memory of its beginning. -/
theorem exists_begun (level : Option LogLevel) (hp : compile 0 source = .ok p) :
    ∃ m, m.Alive ∧ (Layout.script p.main.code).Holds [] .start 0 m ∧
      ∀ output r, EndsWith level source output r ↔ m.Ends output r := by
  obtain ⟨m, hm, hrun⟩ := runSource_begun (m := Machine.new { level }) hp rfl rfl
  have hidle : Stage.idle.Sound (Machine.new { level }) := ⟨#[], .start, fun n => idle_new n { level }⟩
  obtain ⟨tree, -, -, -, hlaid⟩ := script_of_compile hp
  have hmain := LaidOut.code_main #[] hlaid
  rw [Array.empty_append] at hmain
  refine ⟨(m.load p).begun p.main.function, ?_, ?_, fun output r => ?_⟩
  · obtain ⟨c, rfl, -, -⟩ := id hm
    exact alive_begun (hm.idle hidle) hp
  · obtain ⟨c, rfl, houtput, hbroken⟩ := hm
    refine ⟨⟨_, rfl, ?_⟩, ⟨_, rfl⟩, rfl, rfl, houtput, hbroken⟩
    change (#[] ++ p.routines.map Routine.code).getD p.main.function.index {} = p.main.code
    rw [Array.empty_append, Array.getD_eq_getD_getElem?, hmain]
    rfl
  · simp only [EndsWith, Machine.Ends, hrun]

/-- What becomes of a plain script is what the evaluator says, as far as it goes. -/
theorem evaluate_or_overflows (hp : compile 0 source = .ok p)
    (hscript : Script (Scanner.ofString source).tokens tree) (hplain : AllPlain tree) {m : Machine}
    (halive : m.Alive) (hm : (Layout.script p.main.code).Holds [] .start 0 m) (fuel : Nat) :
    m.Overflows ∨ (∃ r output, evaluate fuel tree = some (r, output) ∧ m.Ends output r) ∨
      evaluate fuel tree = none ∧ ∃ k m', fuel ≤ k ∧ m.Continues k m' := by
  obtain ⟨tree', hscript', -, -, hlaid⟩ := script_of_compile hp
  obtain rfl := hscript.unique hscript'
  obtain ⟨captured, k, l, hruns, hi, hret⟩ := hlaid.code _ (keptIn_append #[] p)
  have hmirrors : Mirrors 0 [⟨"", some 0, captured⟩] .start :=
    ⟨rfl, List.forall_mem_singleton.mpr rfl, rfl⟩
  have hcarries : CarriesOut fuel _ m (execAll fuel tree .start) := hruns.carries rfl rfl hplain hmirrors hm
  rw [evaluate]
  generalize execAll fuel tree .start = result at hcarries
  cases hcarries with
  | overflow h => exact .inl h
  | ok hgo hdone =>
      rcases hdone.holds.pushes hi with hover | ⟨m₁, hgo₁, h₁⟩
      · exact .inl (hgo.overflows hover)
      · have hgo := hgo.trans hgo₁
        exact .inr (.inl ⟨_, _, rfl, hgo.ends (h₁.ends (hgo.alive halive) hret)⟩)
  | error h => exact .inr (.inl ⟨_, _, rfl, h.ends⟩)
  | exhausted hk hgo => exact .inr (.inr ⟨rfl, _, _, hk, hgo⟩)

/-- A plain script prints and ends as the evaluator says, unless the stack of the machine overflows. -/
theorem yields_iff (hp : compile 0 source = .ok p)
    (hscript : Script (Scanner.ofString source).tokens tree) (hplain : AllPlain tree)
    (hfits : ∀ output, ¬ EndsWith level source output (.error .stackOverflow)) :
    EndsWith level source output r ↔ Yields tree output r := by
  obtain ⟨m, halive, hm, hends⟩ := exists_begun level hp
  have hcases (fuel : Nat) : (∃ r output, evaluate fuel tree = some (r, output) ∧ m.Ends output r) ∨
      evaluate fuel tree = none ∧ ∃ k m', fuel ≤ k ∧ m.Continues k m' := by
    refine (evaluate_or_overflows hp hscript hplain halive hm fuel).resolve_left ?_
    rintro ⟨output, hfails⟩
    exact hfits output ((hends _ _).mpr hfails.ends)
  rw [hends]
  constructor
  · intro h
    obtain ⟨budget, hr, -⟩ := id h
    rcases hcases (budget + 1) with ⟨r', output', heval, h'⟩ | ⟨-, k, m', hk, hgo⟩
    · obtain ⟨rfl, rfl⟩ := h.unique h'
      exact ⟨_, heval⟩
    · exact absurd (hgo.unfinished hk) hr.ended
  · rintro ⟨fuel, heval⟩
    rcases hcases fuel with ⟨r', output', heval', h'⟩ | ⟨hnone, -⟩
    · cases heval.symm.trans heval'
      exact h'
    · cases heval.symm.trans hnone

/-- A loop that prints its flag once. -/
theorem yields_iff_flag :
    let source := "for (var b = true; b; b = false) print b;"
    (∃ p, compile 0 source = .ok p) ∧ Script (Scanner.ofString source).tokens [flagLoop] ∧
      AllPlain [flagLoop] ∧ (∀ output, ¬ EndsWith none source output (.error .stackOverflow)) ∧
      Yields [flagLoop] "true\n" (.ok ()) ∧
      (EndsWith none source "true\n" (.ok ()) ↔ Yields [flagLoop] "true\n" (.ok ())) := by
  intro source
  have hcompile : (compile 0 source).map (fun _ => ()) = .ok () := by decide +kernel
  obtain ⟨p, hp, -⟩ := exists_of_map_compile hcompile
  have hplain : AllPlain [flagLoop] := by
    simp [AllPlain, flagLoop, Stmt.IsPlain, OptionIsPlain, Expr.IsPlain]
  have hyields : Yields [flagLoop] "true\n" (.ok ()) := ⟨2, by decide +kernel⟩
  have hrun : ((Machine.new {}).runSource 30 source).1 = .completed := by decide +kernel
  have hfits (output : String) : ¬ EndsWith none source output (.error .stackOverflow) := by
    intro h
    obtain ⟨m, -, -, hends⟩ := exists_begun none hp
    have hdone : EndsWith none source _ (.ok ()) := ⟨30, hrun ▸ .completed, rfl⟩
    cases (((hends _ _).mp h).unique ((hends _ _).mp hdone)).2
  exact ⟨⟨p, hp⟩, script_flag.1, hplain, hfits, hyields, yields_iff hp script_flag.1 hplain hfits⟩

end Program

end LoxMachine
