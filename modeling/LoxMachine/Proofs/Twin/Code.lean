import LoxMachine.Proofs.Code.Layout

/-!
# Code that resembles code

Two functions side by side (`Pairing`). `Resembles n` says of an offset in each of them that for `n`
instructions the one code does what the other does, up to jumps that only one of them takes, to the
numbers of captured variables and to where the functions made on the way lie in the store. Code that
resembles other code behind some instructions resembles it before them (`Parallel`).

Main statement: `Resembles.flip`, resemblance goes both ways.
-/

namespace LoxMachine

namespace Instr

/-- It goes on at `t`, whatever the state of the machine. -/
def Goes (ins : Instr) (t : Nat) : Prop :=
  ins = .jump t ∨ ins = .loop t

/-- It takes one value off the stack; whether it closes a captured variable is a matter of the
layout. -/
def Sheds (ins : Instr) : Prop :=
  ins = .pop ∨ ins = .closeUpvalue

/-- It means the same in every function. -/
def Portable : Instr → Prop
  | .push v => v.IsPlain
  | .pop | .closeUpvalue | .getGlobal _ | .defineGlobal _ | .setGlobal _ | .getProperty _
  | .setProperty _ | .getSuper _ | .operator _ | .call _ | .invoke _ _ | .superInvoke _ _
  | .makeClass _ | .inherit | .method _ => True
  | _ => False

end Instr

/-- Jumps that are taken in any case lead from `p` to the other offset. -/
inductive Chunk.Skips (c : Chunk) (p : Nat) : Nat → Prop where
  | refl : c.Skips p p
  | step {r r' q ins} : c.Skips p r → c.instr? r = some (ins, q) → ins.Goes r' → c.Skips p r'

/-- Two functions side by side. -/
structure Pairing where
  left : Chunk
  right : Chunk
  /-- Which captured variables of the two are the same variable. -/
  shares : Nat → Nat → Prop
  /-- Scripts hold nothing of use in slot zero. -/
  script : Prop
  /-- Where two scripts part. -/
  exit : Nat → Nat → Prop

/-- A variable of the function around, for each of the two. -/
inductive Pairing.Source (P : Pairing) : Capture → Capture → Prop where
  | local {slot} : (P.script → 0 < slot) → P.Source ⟨slot, true⟩ ⟨slot, true⟩
  | outer {n n'} : P.shares n n' → P.Source ⟨n, false⟩ ⟨n', false⟩

/-- Variables that the functions `G` share come from variables that those around them share. -/
def Pairing.Captures (P G : Pairing) (cs cs' : List Capture) : Prop :=
  ∀ n n', G.shares n n' → ∃ c c', cs[n]? = some c ∧ cs'[n']? = some c' ∧ P.Source c c'

section Resembles

variable (C C' : Array Chunk) (K : Pairing → Nat → Nat → Prop) (P : Pairing) (q q' : Nat)

/-- Two instructions do the same, and wherever they lead, `K` holds; the offsets behind them are `q`
and `q'`. -/
inductive Match : Instr → Instr → Prop where
  | portable {ins} : ins.Portable → K P q q' → Match ins ins
  | shed {ins ins'} : ins.Sheds → ins'.Sheds → K P q q' → Match ins ins'
  | getLocal {n} : (P.script → 0 < n) → K P q q' → Match (.getLocal n) (.getLocal n)
  | setLocal {n} : (P.script → 0 < n) → K P q q' → Match (.setLocal n) (.setLocal n)
  | getUpvalue {n n'} : P.shares n n' → K P q q' → Match (.getUpvalue n) (.getUpvalue n')
  | setUpvalue {n n'} : P.shares n n' → K P q q' → Match (.setUpvalue n) (.setUpvalue n')
  | go {ins ins' t t'} : ins.Goes t → ins'.Goes t' → K P t t' → Match ins ins'
  | jumpIfFalse {t t'} : K P t t' → K P q q' → Match (.jumpIfFalse t) (.jumpIfFalse t')
  | closure {f f' cs cs' G} : f.name = f'.name → f.arity = f'.arity → ¬ G.script →
      C[f.index]? = some G.left → C'[f'.index]? = some G.right → K G 0 0 → P.Captures G cs cs' →
      K P q q' → Match (.closure f cs) (.closure f' cs')
  | ret : ¬ P.script → Match .ret .ret

/-- What is next on both sides is the same. -/
def Pairing.Next (p p' : Nat) : Prop :=
  ∃ ins ins' q q', P.left.instr? p = some (ins, q) ∧ P.right.instr? p' = some (ins', q') ∧
    Match C C' K P q q' ins ins'

/-- For `n` instructions from `p` and `p'` on, the two do the same. -/
def Resembles : Nat → Pairing → Nat → Nat → Prop
  | 0, _, _, _ => True
  | n + 1, P, p, p' => ∃ r r', P.left.Skips p r ∧ P.right.Skips p' r' ∧
      (P.script ∧ P.exit r r' ∨ P.Next C C' (Resembles n) r r')

end Resembles

theorem Chunk.Skips.trans {c : Chunk} {p r s : Nat} (h : c.Skips p r) (h' : c.Skips r s) :
    c.Skips p s := by
  induction h' with
  | refl => exact h
  | step _ hi hgo ih => exact .step ih hi hgo

section Mono

variable {C C' D D' : Array Chunk} {K K' : Pairing → Nat → Nat → Prop} {P : Pairing}
  {n p p' q q' : Nat} {ins ins' : Instr}

theorem Match.mono (h : Match C C' K P q q' ins ins')
    (hC : ∀ (i : Nat) (c : Chunk), C[i]? = some c → D[i]? = some c)
    (hC' : ∀ (i : Nat) (c : Chunk), C'[i]? = some c → D'[i]? = some c)
    (hK : ∀ P p p', K P p p' → K' P p p') : Match D D' K' P q q' ins ins' := by
  cases h with
  | portable hins h => exact .portable hins (hK _ _ _ h)
  | shed hins hins' h => exact .shed hins hins' (hK _ _ _ h)
  | getLocal hn h => exact .getLocal hn (hK _ _ _ h)
  | setLocal hn h => exact .setLocal hn (hK _ _ _ h)
  | getUpvalue hn h => exact .getUpvalue hn (hK _ _ _ h)
  | setUpvalue hn h => exact .setUpvalue hn (hK _ _ _ h)
  | go hins hins' h => exact .go hins hins' (hK _ _ _ h)
  | jumpIfFalse ht h => exact .jumpIfFalse (hK _ _ _ ht) (hK _ _ _ h)
  | closure hname harity hG hf hf' hstart hcs h =>
      exact .closure hname harity hG (hC _ _ hf) (hC' _ _ hf') (hK _ _ _ hstart) hcs (hK _ _ _ h)
  | ret hscript => exact .ret hscript

theorem Pairing.Next.mono (h : P.Next C C' K p p')
    (hC : ∀ (i : Nat) (c : Chunk), C[i]? = some c → D[i]? = some c)
    (hC' : ∀ (i : Nat) (c : Chunk), C'[i]? = some c → D'[i]? = some c)
    (hK : ∀ P p p', K P p p' → K' P p p') : P.Next D D' K' p p' :=
  have ⟨ins, ins', q, q', hi, hi', hmatch⟩ := h
  ⟨ins, ins', q, q', hi, hi', hmatch.mono hC hC' hK⟩

/-- More code may be loaded. -/
theorem Resembles.extend (h : Resembles C C' n P p p')
    (hC : ∀ (i : Nat) (c : Chunk), C[i]? = some c → D[i]? = some c)
    (hC' : ∀ (i : Nat) (c : Chunk), C'[i]? = some c → D'[i]? = some c) : Resembles D D' n P p p' := by
  induction n generalizing P p p' with
  | zero => trivial
  | succ n ih =>
      obtain ⟨r, r', hskip, hskip', h⟩ := h
      exact ⟨r, r', hskip, hskip', h.imp_right fun h => h.mono hC hC' fun _ _ _ h => ih h⟩

theorem Resembles.succ (h : Resembles C C' (n + 1) P p p') : Resembles C C' n P p p' := by
  induction n generalizing P p p' with
  | zero => trivial
  | succ n ih =>
      obtain ⟨r, r', hskip, hskip', h⟩ := h
      exact ⟨r, r', hskip, hskip',
        h.imp_right fun h => h.mono (fun _ _ => id) (fun _ _ => id) fun _ _ _ h => ih h⟩

end Mono

theorem Resembles.of_next {C C' : Array Chunk} {P : Pairing} {n p p' : Nat}
    (h : P.Next C C' (Resembles C C' n) p p') : Resembles C C' (n + 1) P p p' :=
  ⟨p, p', .refl, .refl, .inr h⟩

/-! ## The other way round -/

def Pairing.flip (P : Pairing) : Pairing :=
  ⟨P.right, P.left, fun n n' => P.shares n' n, P.script, fun p p' => P.exit p' p⟩

section Flip

variable {C C' : Array Chunk} {K K' : Pairing → Nat → Nat → Prop} {P G : Pairing}
  {n p p' q q' : Nat} {ins ins' : Instr} {cs cs' : List Capture}

theorem Pairing.Captures.flip (h : P.Captures G cs cs') : P.flip.Captures G.flip cs' cs := by
  intro n n' hshares
  obtain ⟨c, c', hc, hc', hsource⟩ := h n' n hshares
  refine ⟨c', c, hc', hc, ?_⟩
  cases hsource with
  | «local» hslot => exact .local hslot
  | outer hshares => exact .outer hshares

theorem Match.flip (h : Match C C' K P q q' ins ins') (hK : ∀ P p p', K P p p' → K' P.flip p' p) :
    Match C' C K' P.flip q' q ins' ins := by
  cases h with
  | portable hins h => exact .portable hins (hK _ _ _ h)
  | shed hins hins' h => exact .shed hins' hins (hK _ _ _ h)
  | getLocal hn h => exact .getLocal hn (hK _ _ _ h)
  | setLocal hn h => exact .setLocal hn (hK _ _ _ h)
  | getUpvalue hn h => exact .getUpvalue hn (hK _ _ _ h)
  | setUpvalue hn h => exact .setUpvalue hn (hK _ _ _ h)
  | go hins hins' h => exact .go hins' hins (hK _ _ _ h)
  | jumpIfFalse ht h => exact .jumpIfFalse (hK _ _ _ ht) (hK _ _ _ h)
  | @closure _ _ _ _ G hname harity hG hf hf' hstart hcs h =>
      exact .closure (G := G.flip) hname.symm harity.symm hG hf' hf (hK _ _ _ hstart) hcs.flip
        (hK _ _ _ h)
  | ret hscript => exact .ret hscript

theorem Resembles.flip (h : Resembles C C' n P p p') : Resembles C' C n P.flip p' p := by
  induction n generalizing P p p' with
  | zero => trivial
  | succ n ih =>
      obtain ⟨r, r', hskip, hskip', h⟩ := h
      refine ⟨r', r, hskip', hskip, h.imp_right ?_⟩
      rintro ⟨ins, ins', q, q', hi, hi', hmatch⟩
      exact ⟨ins', ins, q', q, hi', hi, hmatch.flip fun _ _ _ h => ih h⟩

end Flip

/-! ## From behind some code to before it -/

/-- Code that is alike from `j` and `j'` on is alike from `i` and `i'` on. -/
def Parallel (C C' : Array Chunk) (P : Pairing) (i i' j j' : Nat) : Prop :=
  ∀ n, Resembles C C' n P j j' → Resembles C C' n P i i'

namespace Parallel

variable {C C' : Array Chunk} {P : Pairing} {i i' j j' k k' : Nat} {ins ins' : Instr}

theorem refl (i i' : Nat) : Parallel C C' P i i' i i' :=
  fun _ h => h

theorem trans (h : Parallel C C' P i i' k k') (h' : Parallel C C' P k k' j j') :
    Parallel C C' P i i' j j' :=
  fun n hn => h n (h' n hn)

/-- A pair of instructions that go on behind them. -/
theorem step (hi : P.left.instr? i = some (ins, j)) (hi' : P.right.instr? i' = some (ins', j'))
    (h : ∀ K : Pairing → Nat → Nat → Prop, K P j j' → Match C C' K P j j' ins ins') :
    Parallel C C' P i i' j j' := by
  rintro (_ | n) hn
  · trivial
  · exact .of_next ⟨ins, ins', j, j', hi, hi', h _ hn.succ⟩

theorem portable (hi : P.left.instr? i = some (ins, j)) (hi' : P.right.instr? i' = some (ins, j'))
    (hins : ins.Portable) : Parallel C C' P i i' j j' :=
  step hi hi' fun _ h => .portable hins h

/-- A pair of jumps. -/
theorem go (hi : P.left.instr? i = some (ins, k)) (hi' : P.right.instr? i' = some (ins', k'))
    (hgo : ins.Goes j) (hgo' : ins'.Goes j') : Parallel C C' P i i' j j' := by
  rintro (_ | n) hn
  · trivial
  · exact .of_next ⟨ins, ins', k, k', hi, hi', .go hgo hgo' hn.succ⟩

/-- Jumps that only one of the two takes. -/
theorem skip (hskip : P.left.Skips i j) (hskip' : P.right.Skips i' j') :
    Parallel C C' P i i' j j' := by
  rintro (_ | n) hn
  · trivial
  · obtain ⟨r, r', h, h', hn⟩ := hn
    exact ⟨r, r', hskip.trans h, hskip'.trans h', hn⟩

end Parallel

/-- A pair of branches, alike on both sides. -/
theorem Resembles.branch {C C' : Array Chunk} {P : Pairing} {n i i' j j' k k' : Nat}
    (hi : P.left.instr? i = some (.jumpIfFalse k, j))
    (hi' : P.right.instr? i' = some (.jumpIfFalse k', j')) (hk : Resembles C C' n P k k')
    (hj : Resembles C C' n P j j') : Resembles C C' n P i i' := by
  cases n with
  | zero => trivial
  | succ n => exact .of_next ⟨_, _, j, j', hi, hi', .jumpIfFalse hk.succ hj.succ⟩

/-- A pair of answers. -/
theorem Resembles.ret {C C' : Array Chunk} {P : Pairing} {i i' j j' : Nat} (hscript : ¬ P.script)
    (hi : P.left.instr? i = some (.ret, j)) (hi' : P.right.instr? i' = some (.ret, j')) (n : Nat) :
    Resembles C C' n P i i' := by
  cases n with
  | zero => trivial
  | succ n => exact .of_next ⟨_, _, j, j', hi, hi', .ret hscript⟩

end LoxMachine
