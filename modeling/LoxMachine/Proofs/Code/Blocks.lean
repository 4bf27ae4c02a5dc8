import LoxMachine.Proofs.Code.Layout
import LoxMachine.Proofs.Code.Emission

/-!
# Blocks of code

How high the stack is before each instruction of a function. A block is a piece of code, instruction
by instruction, with a height before each of them (`Block`): every way on from an instruction leads
to an instruction of the block, to its end or to one of some places outside, at the height that the
instruction leaves. Blocks are put together in the way the code of expressions and statements is.

Main statement: `Layout.Whole.block`, the code of a function is one block without ways out.
-/

namespace LoxMachine

open Syntax

/-! ## Instructions and the stack -/

namespace Instr

/-- How many values an instruction takes from the stack; what it only looks at counts as taken and
put back. -/
def pops : Instr → Nat
  | .push _ | .getLocal _ | .getGlobal _ | .getUpvalue _ | .jump _ | .loop _ | .closure .. |
    .makeClass _ => 0
  | .pop | .setLocal _ | .defineGlobal _ | .setGlobal _ | .setUpvalue _ | .getProperty _ |
    .jumpIfFalse _ | .closeUpvalue | .ret => 1
  | .setProperty _ | .getSuper _ | .inherit | .method _ => 2
  | .operator op => op.takes
  | .call n | .invoke _ n => n + 1
  | .superInvoke _ n => n + 2

/-- How many values an instruction puts on the stack. A call puts its result there. -/
def pushes : Instr → Nat
  | .pop | .defineGlobal _ | .jump _ | .loop _ | .closeUpvalue | .ret => 0
  | .operator op => op.gives
  | _ => 1

/-- The height of the stack after an instruction. -/
def after (ins : Instr) (height : Nat) : Nat :=
  height - ins.pops + ins.pushes

/-- Where the function goes on after an instruction; `next` is the offset behind it. -/
def targets (next : Nat) : Instr → List Nat
  | .jump target | .loop target => [target]
  | .jumpIfFalse target => [next, target]
  | .ret => []
  | _ => [next]

/-- The slots that an instruction names are there. A closure may capture the slot it will be in. -/
def InReach (height : Nat) : Instr → Prop
  | .getLocal n | .setLocal n => n < height
  | .closure _ cs => ∀ c ∈ cs, c.fromLocal = true → c.index ≤ height
  | _ => True

/-- The captures that an instruction names are there, and a constant is no object. -/
def Sound (count : Nat) : Instr → Prop
  | .push v => v.IsPlain
  | .getUpvalue n | .setUpvalue n => n < count
  | .closure _ cs => ∀ c ∈ cs, c.fromLocal = false → c.index < count
  | _ => True

end Instr

namespace Layout

/-- At an offset, with the stack so high, stands an instruction that finds what it needs and leads
to places in `A`. -/
def Settled (F : Layout) (A : Nat × Nat → Prop) (x : Nat × Nat) : Prop :=
  ∃ ins q, F.At x.1 ins q ∧ ins.pops < x.2 ∧ ins.InReach x.2 ∧ ins.Sound F.captures.length ∧
    ∀ t ∈ ins.targets q, A (t, ins.after x.2)

/-- The offsets of the instructions from one offset to another, each with a height. -/
inductive Tiles (F : Layout) : Nat → List (Nat × Nat) → Nat → Prop where
  | nil {i} : Tiles F i [] i
  | cons {i h k ms j ins} : F.At i ins k → Tiles F k ms j → Tiles F i ((i, h) :: ms) j

variable {F : Layout} {E E' : List (Nat × Nat)} {L L' : List Local}
  {i j k l m n o p q : Nat} {ins : Instr}

theorem Tiles.append {ms ms' : List (Nat × Nat)} (h : F.Tiles i ms k) (h' : F.Tiles k ms' j) :
    F.Tiles i (ms ++ ms') j := by
  induction h with
  | nil => exact h'
  | cons hi _ ih => exact .cons hi (ih h')

/-- The code from `i` to `j`, with the stack of height `n` before it and `m` behind it. Ways lead out
of it to the places in `E` only. -/
def Block (F : Layout) (E : List (Nat × Nat)) (i n j m : Nat) : Prop :=
  ∃ ms, F.Tiles i ms j ∧ (i, n) ∈ ms ++ [(j, m)] ∧
    ∀ A : Nat × Nat → Prop, (∀ x ∈ ms ++ [(j, m)], A x) → (∀ x ∈ E, A x) →
      ∀ x ∈ ms, F.Settled A x

/-! ## Putting blocks together -/

namespace Block

theorem refl (F : Layout) (E : List (Nat × Nat)) (i n : Nat) : F.Block E i n i n :=
  ⟨[], .nil, List.mem_singleton_self _, fun _ _ _ x hx => by cases hx⟩

theorem weaken (h : F.Block E i n j m) (hE : ∀ x ∈ E, x ∈ E') : F.Block E' i n j m := by
  obtain ⟨ms, htiles, hstart, hsettled⟩ := h
  exact ⟨ms, htiles, hstart, fun A hA hE' => hsettled A hA fun x hx => hE' x (hE x hx)⟩

/-- Ways out to where one of the next blocks begins are none any more. -/
theorem join₃ (h : F.Block ((k, m) :: (l, o) :: E) i n k m)
    (h' : F.Block ((k, m) :: (l, o) :: E) k m l o) (h'' : F.Block ((k, m) :: (l, o) :: E) l o j p) :
    F.Block E i n j p := by
  obtain ⟨ms, htiles, hstart, hsettled⟩ := h
  obtain ⟨ms', htiles', hstart', hsettled'⟩ := h'
  obtain ⟨ms'', htiles'', hstart'', hsettled''⟩ := h''
  have hthird {x : Nat × Nat} (hx : x ∈ ms'' ++ [(j, p)]) : x ∈ ms ++ (ms' ++ ms'') ++ [(j, p)] := by
    simp only [List.append_assoc]
    exact List.mem_append_right _ (List.mem_append_right _ hx)
  have hsecond {x : Nat × Nat} (hx : x ∈ ms' ++ [(l, o)]) : x ∈ ms ++ (ms' ++ ms'') ++ [(j, p)] := by
    rcases List.mem_append.mp hx with hx | hx
    · simp only [List.append_assoc]
      exact List.mem_append_right _ (List.mem_append_left _ hx)
    · rw [List.mem_singleton.mp hx]
      exact hthird hstart''
  have hfirst {x : Nat × Nat} (hx : x ∈ ms ++ [(k, m)]) : x ∈ ms ++ (ms' ++ ms'') ++ [(j, p)] := by
    rcases List.mem_append.mp hx with hx | hx
    · exact List.mem_append_left _ (List.mem_append_left _ hx)
    · rw [List.mem_singleton.mp hx]
      exact hsecond hstart'
  refine ⟨ms ++ (ms' ++ ms''), htiles.append (htiles'.append htiles''), hfirst hstart,
    fun A hA hE x hx => ?_⟩
  have hE' : ∀ y ∈ (k, m) :: (l, o) :: E, A y :=
    List.forall_mem_cons.mpr ⟨hA _ (hsecond hstart'),
      List.forall_mem_cons.mpr ⟨hA _ (hthird hstart''), hE⟩⟩
  rcases List.mem_append.mp hx with hx | hx
  · exact hsettled A (fun y hy => hA y (hfirst hy)) hE' x hx
  · rcases List.mem_append.mp hx with hx | hx
    · exact hsettled' A (fun y hy => hA y (hsecond hy)) hE' x hx
    · exact hsettled'' A (fun y hy => hA y (hthird hy)) hE' x hx

/-- A way out to where the next block begins is none any more. -/
theorem join (h : F.Block ((k, m) :: E) i n k m) (h' : F.Block ((k, m) :: E) k m j o) :
    F.Block E i n j o :=
  have hE : ∀ x ∈ (k, m) :: E, x ∈ (k, m) :: (j, o) :: E := fun x hx => by
    rcases List.mem_cons.mp hx with rfl | hx
    · exact List.mem_cons_self
    · exact List.mem_cons_of_mem _ (List.mem_cons_of_mem _ hx)
  join₃ (h.weaken hE) (h'.weaken hE) (.refl F _ j o)

/-- Two blocks, with the place at which they meet. -/
theorem cut (h : F.Block E i n k m) (h' : F.Block E k m j o) :
    ∃ ms, F.Tiles i ms j ∧ (i, n) ∈ ms ++ [(j, o)] ∧ (k, m) ∈ ms ++ [(j, o)] ∧
      ∀ A : Nat × Nat → Prop, (∀ x ∈ ms ++ [(j, o)], A x) → (∀ x ∈ E, A x) → ∀ x ∈ ms, F.Settled A x := by
  obtain ⟨ms, htiles, hstart, hsettled⟩ := h
  obtain ⟨ms', htiles', hstart', hsettled'⟩ := h'
  have hsecond {x : Nat × Nat} (hx : x ∈ ms' ++ [(j, o)]) : x ∈ ms ++ ms' ++ [(j, o)] := by
    rw [List.append_assoc]
    exact List.mem_append_right _ hx
  have hfirst {x : Nat × Nat} (hx : x ∈ ms ++ [(k, m)]) : x ∈ ms ++ ms' ++ [(j, o)] := by
    rcases List.mem_append.mp hx with hx | hx
    · exact List.mem_append_left _ (List.mem_append_left _ hx)
    · rw [List.mem_singleton.mp hx]
      exact hsecond hstart'
  refine ⟨ms ++ ms', htiles.append htiles', hfirst hstart, hsecond hstart', fun A hA hE x hx => ?_⟩
  rcases List.mem_append.mp hx with hx | hx
  · exact hsettled A (fun y hy => hA y (hfirst hy)) hE x hx
  · exact hsettled' A (fun y hy => hA y (hsecond hy)) hE x hx

theorem trans (h : F.Block E i n k m) (h' : F.Block E k m j o) : F.Block E i n j o :=
  join (h.weaken fun _ => List.mem_cons_of_mem _) (h'.weaken fun _ => List.mem_cons_of_mem _)

/-- A way out to the start of the block is none. -/
theorem again (h : F.Block ((i, n) :: E) i n j m) : F.Block E i n j m := by
  obtain ⟨ms, htiles, hstart, hsettled⟩ := h
  exact ⟨ms, htiles, hstart, fun A hA hE =>
    hsettled A hA (List.forall_mem_cons.mpr ⟨hA _ hstart, hE⟩)⟩

/-- A way out to the end of the block is none. -/
theorem exit (h : F.Block ((j, m) :: E) i n j m) : F.Block E i n j m :=
  join h (.refl F _ j m)

/-- A single instruction. What stands behind it may be reached from elsewhere only. -/
theorem single (hi : F.At i ins j) (hpops : ins.pops < n) (hreach : ins.InReach n)
    (hsound : ins.Sound F.captures.length)
    (htargets : ∀ t ∈ ins.targets j, (t, ins.after n) ∈ (j, m) :: E) : F.Block E i n j m := by
  refine ⟨[(i, n)], .cons hi .nil, List.mem_cons_self, fun A hA hE x hx => ?_⟩
  obtain rfl := List.mem_singleton.mp hx
  refine ⟨ins, j, hi, hpops, hreach, hsound, fun t ht => ?_⟩
  rcases List.mem_cons.mp (htargets t ht) with heq | hmem
  · rw [heq]
    exact hA _ (by simp)
  · exact hE _ hmem

/-- An instruction that goes on with the next one and names neither slots nor captures. -/
theorem plain (hi : F.At i ins j) (hpops : ins.pops < n) (hm : ins.after n = m)
    (hreach : ins.InReach n) (hsound : ins.Sound F.captures.length) (htargets : ins.targets j = [j]) :
    F.Block E i n j m := by
  refine single hi hpops hreach hsound fun t ht => ?_
  rw [htargets, List.mem_singleton] at ht
  rw [ht, hm]
  exact List.mem_cons_self

theorem jump (hi : F.At i (.jump k) j) (hn : 0 < n) (hk : (k, n) ∈ E) : F.Block E i n j m :=
  single hi hn trivial trivial fun t ht => by
    rw [List.mem_singleton.mp ht]
    exact List.mem_cons_of_mem _ hk

theorem loop (hi : F.At i (.loop k) j) (hn : 0 < n) (hk : (k, n) ∈ E) : F.Block E i n j m :=
  single hi hn trivial trivial fun t ht => by
    rw [List.mem_singleton.mp ht]
    exact List.mem_cons_of_mem _ hk

theorem jumpIfFalse (hi : F.At i (.jumpIfFalse k) j) (hn : 0 < n) (hk : (k, n + 1) ∈ E) :
    F.Block E i (n + 1) j (n + 1) :=
  single hi (Nat.succ_lt_succ hn) trivial trivial fun t ht => by
    rcases List.mem_pair.mp ht with rfl | rfl
    · exact List.mem_cons_self
    · exact List.mem_cons_of_mem _ hk

theorem pop (hi : F.At i .pop j) (hn : 0 < n) : F.Block E i (n + 1) j n :=
  plain hi (Nat.succ_lt_succ hn) rfl trivial trivial rfl

theorem ret (hi : F.At i .ret j) (hn : 0 < n) : F.Block E i (n + 1) j m :=
  single hi (Nat.succ_lt_succ hn) trivial trivial fun _ ht => by cases ht

/-- A condition that is false goes on behind the jump of the first branch. -/
theorem branch (hi : F.At i (.jumpIfFalse l) k) (hn : 0 < n)
    (hyes : F.Block ((l, n + 1) :: (j, m) :: E) k (n + 1) p m) (hm : 0 < m)
    (hp : F.At p (.jump j) l)
    (hno : F.Block ((l, n + 1) :: (j, m) :: E) l (n + 1) j m) : F.Block E i (n + 1) j m := by
  have htest : F.Block ((l, n + 1) :: (j, m) :: E) i (n + 1) k (n + 1) :=
    jumpIfFalse hi hn List.mem_cons_self
  have hend : F.Block ((l, n + 1) :: (j, m) :: E) p m l (n + 1) :=
    jump hp hm (List.mem_cons_of_mem _ List.mem_cons_self)
  exact exit (join (htest.trans (hyes.trans hend)) hno)

end Block

/-! ## Variables -/

/-- All locals that can be named are below a height. -/
def Below (L : List Local) (n : Nat) : Prop :=
  ∀ name slot, Body.slot? name L = some slot → slot < n

theorem below_length (L : List Local) : Below L L.length :=
  fun _ _ => Body.slot?_lt_length

theorem Below.mono (h : Below L n) (hnm : n ≤ m) : Below L m :=
  fun name slot hslot => Nat.lt_of_lt_of_le (h name slot hslot) hnm

/-- A local that is not initialized yet cannot be named. -/
theorem below_uninitialized (name : String) (captured : Bool) (L : List Local) :
    Below (⟨name, none, captured⟩ :: L) L.length := by
  intro name' slot h
  rw [Body.slot?, Body.Local.answersTo] at h
  simp only [Option.isSome_none, Bool.and_false, Bool.false_eq_true, if_false] at h
  exact Body.slot?_lt_length h

theorem Finds.get {name : String} {a : Access} (h : F.Finds L name a) (hL : Below L n) (hn : 0 < n)
    (hi : F.At i a.get j) : F.Block E i n j (n + 1) := by
  cases h with
  | «local» hslot => exact .plain hi hn rfl (hL _ _ hslot) trivial rfl
  | captured _ _ hc _ => exact .plain hi hn rfl trivial (List.getElem?_eq_some_iff.mp hc).1 rfl
  | global => exact .plain hi hn rfl trivial trivial rfl

theorem Finds.set {name : String} {a : Access} (h : F.Finds L name a) (hL : Below L n) (hn : 0 < n)
    (hi : F.At i a.set j) : F.Block E i (n + 1) j (n + 1) := by
  have hpops : 1 < n + 1 := Nat.succ_lt_succ hn
  cases h with
  | «local» hslot => exact .plain hi hpops rfl (Nat.lt_succ_of_lt (hL _ _ hslot)) trivial rfl
  | captured _ _ hc _ => exact .plain hi hpops rfl trivial (List.getElem?_eq_some_iff.mp hc).1 rfl
  | global => exact .plain hi hpops rfl trivial trivial rfl

/-! ## Expressions -/

theorem block_operates {op : BinaryOp} (h : F.Operates (Expression.operations op.kind) i j)
    (hn : 0 < n) : F.Block E i (n + 2) j (n + 1) := by
  have hnot {i j : Nat} (hi : F.At i (.operator .not) j) : F.Block E i (n + 1) j (n + 1) :=
    .plain hi (Nat.succ_lt_succ hn) rfl trivial trivial rfl
  have htwo : 2 < n + 2 := Nat.lt_add_of_pos_left hn
  cases op <;> obtain ⟨k, hi, h⟩ := h
  case notEqual | greaterEqual | lessEqual =>
    obtain ⟨l, hi', rfl⟩ := h
    exact (Block.plain hi htwo rfl trivial trivial rfl).trans (hnot hi')
  all_goals
    obtain rfl := h
    exact .plain hi htwo rfl trivial trivial rfl

/-- The code of expressions leaves their values on the stack. -/
theorem Loads.block {es : List Expr} (h : F.Loads L es i j) (hL : Below L n) (hn : 0 < n) :
    F.Block E i n j (n + es.length) := by
  have hone {n : Nat} (hn : 0 < n) : 1 < n + 1 := Nat.succ_lt_succ hn
  induction h generalizing n E with
  | nothing => exact .refl ..
  | @several _ e' es _ _ _ _ _ ih ih' =>
      have hrest := ih' (E := E) (hL.mono (Nat.le_succ n)) (Nat.succ_pos n)
      rw [Nat.succ_add_eq_add_succ] at hrest
      exact (ih hL hn).trans hrest
  | number hi | string hi | nil hi | boolean hi => exact .plain hi hn rfl trivial trivial rfl
  | grouping _ ih => exact ih hL hn
  | «variable» _ hf hi | this hf hi => exact hf.get hL hn hi
  | assign _ hf _ hi ih => exact (ih hL hn).trans (hf.set hL hn hi)
  | super hf hi hf' _ hi' hi'' =>
      refine (hf.get hL hn hi).trans ((hf'.get (hL.mono (Nat.le_succ n)) (Nat.succ_pos n) hi').trans ?_)
      exact .plain hi'' (Nat.lt_add_of_pos_left hn) rfl trivial trivial rfl
  | @unary op _ _ _ _ _ hi ih =>
      refine (ih hL hn).trans ?_
      cases op <;> exact .plain hi (hone hn) rfl trivial trivial rfl
  | binary _ _ hops ih ih' =>
      exact (ih hL hn).trans ((ih' (hL.mono (Nat.le_succ n)) (Nat.succ_pos n)).trans
        (block_operates hops hn))
  | and _ hi hpop _ ih ih' =>
      refine .exit ((ih hL hn).trans ((Block.jumpIfFalse hi hn List.mem_cons_self).trans ?_))
      exact (Block.pop hpop hn).trans (ih' hL hn)
  | @or _ _ _ _ _ l l' j _ hi hjump hpop _ ih ih' =>
      refine .exit ((ih hL hn).trans (.join (k := l) (m := n + 1) ?_ ?_))
      · exact (Block.jumpIfFalse hi hn List.mem_cons_self).trans
          (Block.jump hjump (Nat.succ_pos n) (List.mem_cons_of_mem _ List.mem_cons_self))
      · exact (Block.pop hpop hn).trans (ih' hL hn)
  | get _ hi ih => exact (ih hL hn).trans (.plain hi (hone hn) rfl trivial trivial rfl)
  | set _ _ hi ih ih' =>
      refine (ih hL hn).trans ((ih' (hL.mono (Nat.le_succ n)) (Nat.succ_pos n)).trans ?_)
      exact .plain hi (Nat.lt_add_of_pos_left hn) rfl trivial trivial rfl
  | call _ _ _ hi ih ih' | invoke _ _ hi ih ih' =>
      refine (ih hL hn).trans ((ih' (hL.mono (Nat.le_succ n)) (Nat.succ_pos n)).trans ?_)
      exact .plain hi (by simp only [Instr.pops]; omega)
        (by simp only [Instr.after, Instr.pops, Instr.pushes, List.length_singleton]; omega) trivial
        trivial rfl
  | superInvoke hf hi _ hf' _ hi' hi'' ih =>
      have hn' := Nat.succ_pos n
      refine (hf.get hL hn hi).trans ((ih (hL.mono (Nat.le_succ n)) hn').trans ?_)
      refine (hf'.get (hL.mono (by omega)) (by omega) hi').trans ?_
      exact .plain hi'' (by simp only [Instr.pops]; omega)
        (by simp only [Instr.after, Instr.pops, Instr.pushes, List.length_singleton]; omega) trivial
        trivial rfl

/-! ## Statements -/

theorem block_drops {new : List Local} (h : F.Drops new i j) (hn : 0 < n) :
    F.Block E i (n + new.length) j n := by
  induction new generalizing i with
  | nil =>
      obtain rfl := h
      exact .refl ..
  | cons l new ih =>
      obtain ⟨k, hi, hrest⟩ := h
      have hpops : 1 < n + new.length + 1 := by omega
      refine Block.trans ?_ (ih hrest)
      cases hl : l.captured
      all_goals
        rw [hl] at hi
        exact .plain hi hpops rfl trivial trivial rfl

theorem Declares.block {d : Nat} {name : String} (h : F.Declares d L name i j L')
    (hL : 0 < L.length) : F.Block E i (L.length + 1) j L'.length := by
  cases h with
  | global _ hi => exact .plain hi (Nat.succ_lt_succ hL) rfl trivial trivial rfl
  | «local» => exact .refl ..

/-- The variable that has just been declared. -/
theorem Declares.getOwn {d : Nat} {name : String} (h : F.Declares d L name i j L') (hn : L'.length ≤ n)
    (hL : 0 < L.length) (hi : F.At k (ownAccess d L name).get l) : F.Block E k n l (n + 1) := by
  rw [ownAccess] at hi
  cases h with
  | global h0 _ =>
      rw [if_pos h0] at hi
      exact .plain hi (Nat.lt_of_lt_of_le hL hn) rfl trivial trivial rfl
  | «local» h0 =>
      rw [if_neg h0] at hi
      exact .plain hi (Nat.lt_of_lt_of_le (Nat.succ_pos _) hn) rfl hn trivial rfl

theorem block_implicitResult {kind : BodyKind} (hi : F.At i (implicitResult kind) j) (hn : 0 < n) :
    F.Block E i n j (n + 1) := by
  cases kind with
  | initializer => exact .plain hi hn rfl hn trivial rfl
  | script | function | method => exact .plain hi hn rfl trivial trivial rfl

theorem Captures.closure {cs : List Capture} {names : List String} {g : Function}
    (h : List.Forall₂ (F.Captures L) cs names) (hcaptured : F.captured.length = F.captures.length)
    (hi : F.At i (.closure g cs) j) (hn : 0 < n) (hL : L.length ≤ n + 1) :
    F.Block E i n j (n + 1) := by
  have hlinked (c : Capture) (hc : c ∈ cs) : ∃ name, F.Captures L c name := by
    obtain ⟨k, hk, rfl⟩ := List.getElem_of_mem hc
    exact ⟨_, List.Forall₂.get h hk (h.length_eq ▸ hk)⟩
  refine .plain hi hn rfl (fun c hc hlocal => ?_) (fun c hc hlocal => ?_) rfl
  · obtain ⟨name, hname⟩ := hlinked c hc
    rw [Captures, if_pos hlocal] at hname
    obtain ⟨l, hl, -⟩ := hname
    have hlt := (List.getElem?_eq_some_iff.mp hl).1
    rw [List.length_reverse] at hlt
    omega
  · obtain ⟨name, hname⟩ := hlinked c hc
    rw [Captures, if_neg (by simp [hlocal])] at hname
    rw [← hcaptured]
    exact (List.getElem?_eq_some_iff.mp hname).1

theorem LoopTest.block {c : Option Expr} {exit : Nat} (h : F.LoopTest L exit c i j)
    (hL : 0 < L.length) : F.Block ((exit, L.length + 1) :: E) i L.length j L.length := by
  cases h with
  | none => exact .refl ..
  | some hc hi hpop =>
      refine (hc.block (below_length L) hL).trans (Block.trans ?_ (.pop hpop hL))
      exact .jumpIfFalse hi hL List.mem_cons_self

/-- The step and the body of a loop; the loop starts again at `i`. -/
theorem LoopStep.block {step : Option Expr} {next exit : Nat} (h : F.LoopStep L i step j k next)
    (hL : 0 < L.length) (hi : (i, L.length) ∈ E)
    (hbody : ∀ E, F.Block E k L.length l L.length) (hl : F.At l (.loop next) exit) :
    F.Block E j L.length exit m := by
  cases h with
  | none => exact (hbody E).trans (.loop hl hL hi)
  | @some e _ _ p p' _ hjump he hpop hback =>
      have hmem {x : Nat × Nat} (hx : x ∈ E) : x ∈ (next, L.length) :: (k, L.length) :: E :=
        List.mem_cons_of_mem _ (List.mem_cons_of_mem _ hx)
      refine .join₃ (k := next) (m := L.length) (l := k) (o := L.length) ?_ ?_ ?_
      · exact .jump hjump hL (List.mem_cons_of_mem _ List.mem_cons_self)
      · exact (he.block (below_length L) hL).trans ((Block.pop hpop hL).trans
          (.loop hback hL (hmem hi)))
      · exact (hbody _).trans (.loop hl hL List.mem_cons_self)

/-- A loop behind its first statement. -/
theorem block_for {c step : Option Expr} {exit next a b p : Nat} (hc : F.LoopTest L exit c a b)
    (hstep : F.LoopStep L a step b l next) (hL : 0 < L.length)
    (hbody : ∀ E, F.Block E l L.length m L.length) (hm : F.At m (.loop next) exit)
    (hend : F.LoopEnd c exit p) : F.Block E a L.length p L.length := by
  have hback {m : Nat} : F.Block ((exit, L.length + 1) :: (a, L.length) :: E) b L.length exit m :=
    hstep.block hL (List.mem_cons_of_mem _ List.mem_cons_self) hbody hm
  refine .again ?_
  cases c with
  | none =>
      obtain rfl := hend
      cases hc
      exact hstep.block hL List.mem_cons_self hbody hm
  | some c => exact .join ((hc.block hL).trans hback) (.pop hend hL)

end Layout

/-- What the code of a part of a function does to the height of the stack. -/
def Part.Levels (F : Layout) (L L' : List Local) (i j : Nat) : Part → Prop
  | .code _ => ∀ E, F.Block E i L.length j L'.length
  | .closure _ _ => ∀ E n, 0 < n → L.length ≤ n + 1 → F.Block E i n j (n + 1)
  | .methods _ => ∀ E n, L.length < n → F.Block E i n j n

namespace Layout

variable {F : Layout} {L L' : List Local} {i j d : Nat}

theorem Runs.levels {routines : Array Routine} {part : Part} (h : Runs routines F d L part i j L')
    (hF : F.captured.length = F.captures.length) (hL : 0 < L.length) : part.Levels F L L' i j := by
  have load {F : Layout} {L : List Local} {e : Expr} {i j : Nat} (he : F.Loads L [e] i j)
      (hL : 0 < L.length) {E : List (Nat × Nat)} : F.Block E i L.length j (L.length + 1) :=
    he.block (below_length L) hL
  have hone {n : Nat} (hn : 0 < n) : 1 < n + 1 := Nat.succ_lt_succ hn
  induction h with
  | nothing => exact fun E => .refl ..
  | several h _ ih ih' =>
      exact fun E => (ih hF hL E).trans (ih' hF (Nat.lt_of_lt_of_le hL h.length_le) E)
  | expression he hi => exact fun E => (load he hL).trans (.pop hi hL)
  | print he hi | assert he hi =>
      exact fun E => (load he hL).trans (.plain hi (hone hL) rfl trivial trivial rfl)
  | var _ hi hd => exact fun E => (Block.plain hi hL rfl trivial trivial rfl).trans (hd.block hL)
  | varGlobal _ _ he hi =>
      exact fun E => (load he hL).trans (.plain hi (hone hL) rfl trivial trivial rfl)
  | varLocal _ _ he => exact fun E => he.block (below_uninitialized _ _ _) hL
  | @block _ _ L _ new _ _ _ h hdrops ih =>
      intro E
      refine (ih hF hL E).trans ?_
      rw [List.length_append, Nat.add_comm]
      exact block_drops hdrops hL
  | cond hc hi hpop _ hjump hpop' ih =>
      exact fun E => (load hc hL).trans
        (.branch hi hL ((Block.pop hpop hL).trans (ih hF hL _)) hL hjump (.pop hpop' hL))
  | condElse hc hi hpop _ hjump hpop' _ ih ih' =>
      exact fun E => (load hc hL).trans
        (.branch hi hL ((Block.pop hpop hL).trans (ih hF hL _)) hL hjump
          ((Block.pop hpop' hL).trans (ih' hF hL _)))
  | @«while» F _ L _ _ i _ _ _ _ t j hc hi hpop _ hloop hpop' ih =>
      intro E
      have hback : F.Block ((t, L.length + 1) :: (i, L.length) :: E) i L.length t (L.length + 1) :=
        (load hc hL).trans ((Block.jumpIfFalse hi hL List.mem_cons_self).trans
          ((Block.pop hpop hL).trans ((ih hF hL _).trans
            (.loop hloop hL (List.mem_cons_of_mem _ List.mem_cons_self)))))
      exact .again (.join hback (.pop hpop' hL))
  | «for» hfirst hc hstep _ hm hend hdrops ih ih' =>
      intro E
      have hL' := Nat.lt_of_lt_of_le hL hfirst.length_le
      refine (ih hF hL E).trans ((block_for hc hstep hL' (ih' hF hL') hm hend).trans ?_)
      rw [List.length_append, Nat.add_comm]
      exact block_drops hdrops hL
  | «return» _ hi hret => exact fun E => (block_implicitResult hi hL).trans (.ret hret hL)
  | returnValue _ he hret => exact fun E => (load he hL).trans (.ret hret hL)
  | functionGlobal _ _ _ hi ih =>
      refine fun E => (ih hF hL E _ hL (Nat.le_succ _)).trans ?_
      exact .plain hi (hone hL) rfl trivial trivial rfl
  | functionLocal _ _ _ ih => exact fun E => ih hF (Nat.succ_pos _) E _ hL (Nat.le_refl _)
  | cls _ hi hd hown _ hpop ih =>
      intro E
      have hL' := Nat.lt_of_lt_of_le hL hd.length_le
      exact (Block.plain hi hL rfl trivial trivial rfl).trans ((hd.block hL).trans
        ((hd.getOwn (Nat.le_refl _) hL hown).trans
          ((ih hF hL' E _ (Nat.lt_succ_self _)).trans (.pop hpop hL'))))
  | @subclass _ _ _ _ _ _ _ _ _ _ _ _ _ _ _ _ _ _ L' _ hi hd _ hp hparent hown hinherit hown' _ hpop hdrops ih =>
      intro E
      have hL' := Nat.lt_of_lt_of_le hL hd.length_le
      have htwo : 2 < L'.length + 2 := Nat.lt_add_of_pos_left hL'
      have hparent := hp.get (E := E) (below_length L') hL' hparent
      have hinherit := (hd.getOwn (E := E) (Nat.le_succ _) hL hown).trans
        (.plain hinherit htwo rfl trivial trivial rfl)
      have hmethods := (hd.getOwn (E := E) (Nat.le_succ _) hL hown').trans
        (ih hF (Nat.succ_pos _) E _ (Nat.lt_succ_self _))
      refine (Block.plain hi hL rfl trivial trivial rfl).trans ((hd.block hL).trans ?_)
      exact hparent.trans (hinherit.trans
        (hmethods.trans ((Block.pop hpop (Nat.succ_pos _)).trans (block_drops hdrops hL'))))
  | noMethods => exact fun E n _ => .refl ..
  | methods _ hi _ ih ih' =>
      intro E n hn
      have hpos : 0 < n := Nat.zero_lt_of_lt hn
      refine (ih hF hL E n hpos (Nat.le_succ_of_le (Nat.le_of_lt hn))).trans ?_
      refine Block.trans ?_ (ih' hF hL E n hn)
      exact .plain hi (by simp only [Instr.pops]; omega)
        (by simp only [Instr.after, Instr.pops, Instr.pushes]; omega) trivial trivial rfl
  | closure _ _ hi _ _ hcs _ _ _ _ _ _ => exact fun E n hn hle => Captures.closure hcs hF hi hn hle

/-- The code of a whole function is one block, with the function and its arguments on the stack at
its start. -/
theorem Whole.block {routines : Array Routine} {arity : Nat} (h : F.Whole routines arity)
    (hF : F.captured.length = F.captures.length) :
    F.Block [] 0 (arity + 1) F.code.size 0 := by
  obtain ⟨d, ss, L₀, L₁, k, k', hlen, hruns, hresult, hret⟩ := h
  have hL₀ : 0 < L₀.length := hlen ▸ Nat.succ_pos arity
  have hL₁ := Nat.lt_of_lt_of_le hL₀ hruns.length_le
  rw [← hlen]
  exact (hruns.levels hF hL₀ []).trans ((block_implicitResult hresult hL₁).trans (.ret hret hL₁))

end Layout

end LoxMachine
