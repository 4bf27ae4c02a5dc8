import LoxMachine.Proofs.Limits.Accounts
import LoxMachine.Proofs.Verdict.Variables

/-!
# Keeping within limits

A text that breaks no rule is accepted if and only if it fits. So the builder is followed through the text
together with what the text needs: it `Owes` what has not been made yet, and each action takes off the front
of that what it brings about. An action `Settles` a budget if it reports nothing and leaves the builder owing
the rest, or if it reports an error and the budget cannot be afforded.
-/

namespace LoxMachine

open Syntax (FunctionScope Scope Need slotOf? placeIn? Expr)

/-! ## Budgets -/

/-- The needs `ns` of a function can be met, within functions that have needed `nss`. -/
structure Bearable (fs : List FunctionScope) (ns : List Need) (nss : List (List Need)) : Prop where
  fits : Need.FitsAll ns
  near : Need.NearAll ns
  constants : (Need.constants ns).card + Need.functions ns ≤ Chunk.maxConstants
  captures : (Need.captures ns).card ≤ Body.maxCaptures
  around : Roomy fs (Need.captures ns) nss

/-- What a function needs altogether, and what the functions around it have needed where it begins. -/
structure Budget where
  /-- The text fits. -/
  Affordable : Prop
  whole : List Need
  around : List FunctionScope
  spent : List (List Need)
  promise : Affordable → Bearable around whole spent

theorem Roomy.mono {fs : List FunctionScope} {nss : List (List Need)} {X Y : Finset String}
    (h : Roomy fs Y nss) (hXY : X ⊆ Y) : Roomy fs X nss := by
  induction fs generalizing nss X Y with
  | nil => trivial
  | cons f fs ih =>
      cases nss with
      | nil => trivial
      | cons ns nss =>
          have hsub : Need.captures ns ∪ FunctionScope.passed f X ⊆
              Need.captures ns ∪ FunctionScope.passed f Y :=
            Finset.union_subset_union_right (Finset.filter_subset_filter _ hXY)
          exact ⟨Nat.le_trans (Finset.card_le_card hsub) h.1, ih h.2 hsub⟩

/-- What needs no more than that can be met too. -/
theorem Bearable.of_append {fs : List FunctionScope} {ns ms : List Need} {nss : List (List Need)}
    (h : Bearable fs (ns ++ ms) nss) : Bearable fs ns nss := by
  have hconstants := h.constants
  have hcaptures := h.captures
  have hsub : Need.captures ns ⊆ Need.captures (ns ++ ms) := by
    rw [Need.captures_append]
    exact Finset.subset_union_left
  have hle : (Need.constants ns).card ≤ (Need.constants (ns ++ ms)).card := by
    rw [Need.constants_append]
    exact Finset.card_le_card Finset.subset_union_left
  rw [Need.functions_append] at hconstants
  refine ⟨fun n hn => h.fits n ?_, fun n hn => h.near n ?_, by omega,
    Nat.le_trans (Finset.card_le_card hsub) hcaptures, h.around.mono hsub⟩
  · exact Need.within_append.mpr (.inl hn)
  · exact Need.within_append.mpr (.inl hn)

namespace Budget

variable {B : Budget} {ns todo : List Need} {n : Need}

/-- What has been needed up to some point can be met. -/
theorem bearable (hB : B.Affordable) (hwhole : B.whole = ns ++ n :: todo) :
    Bearable B.around (ns ++ [n]) B.spent := by
  have h := B.promise hB
  rw [hwhole, List.append_cons] at h
  exact h.of_append

end Budget

namespace Builder

/-! ## Views -/

/-- What the builder knows of variables is what the text says. -/
structure Views (s : Builder) (c : Scope) : Prop where
  sees : s.Sees c
  slots : List.Forall₂ (fun b f => ∀ x, Body.slot? x b.locals = slotOf? x f.locals) (s.body :: s.outer)
    (c.inner :: c.outer)

/-- What is known of the scopes of a builder, and is not lost where they stay as they are. -/
class Stable (V : Builder → Prop) : Prop where
  stays : ∀ {s s'}, s.Stays s' → V s → V s'

/-- What says what names stand for. -/
class Sights (V : Builder → Prop) (c : outParam Scope) : Prop extends Stable V where
  views : ∀ {s}, V s → s.Views c

theorem Views.stays {s s' : Builder} {c : Scope} (h : s.Views c) (hs : s.Stays s') : s'.Views c := by
  refine ⟨h.sees.stays hs, ?_⟩
  have hall : List.Forall₂ Body.Alike (s.body :: s.outer) (s'.body :: s'.outer) := .cons hs.body hs.outer
  have hslots := h.slots
  generalize s.body :: s.outer = bs, s'.body :: s'.outer = bs', c.inner :: c.outer = fs at hall hslots
  induction hall generalizing fs with
  | nil => exact hslots
  | cons hb _ ih =>
      obtain _ | ⟨hf, hslots⟩ := hslots
      exact .cons (fun x => (hb.locals.slot? x).trans (hf x)) (ih _ hslots)

/-- A builder that shows a scope. -/
def Showing (c : Scope) (s : Builder) : Prop :=
  s.Shows c

/-- A builder behind the name of a variable that is declared. -/
def Lacking (c : Scope) (name : String) (s : Builder) : Prop :=
  s.Lacks c name

/-- A builder in front of the value of a variable. -/
def Awaiting (c : Scope) (name : String) (s : Builder) : Prop :=
  s.Views (c.initializing name) ∧ Lacks { s with initializing := none } c name

theorem forall₂_slots {bs : List Body} {fs : List FunctionScope} (h : List.Forall₂ Body.Shows bs fs) :
    List.Forall₂ (fun b f => ∀ x, Body.slot? x b.locals = slotOf? x f.locals) bs fs :=
  h.imp fun _ _ h x => h.slot? x

instance (c : Scope) : Sights (Showing c) c where
  stays hs h := Shows.stays h hs
  views h := ⟨Shows.sees h, .cons (fun x => h.body.slot? x) (forall₂_slots h.outer)⟩

instance (c : Scope) (name : String) : Stable (Lacking c name) where
  stays hs h := Lacks.stays h hs

instance (c : Scope) (name : String) : Sights (Awaiting c name) (c.initializing name) where
  stays hs h := by
    refine ⟨h.1.stays hs, Lacks.stays h.2 ?_⟩
    exact ⟨hs.body, hs.outer, hs.classes, rfl⟩
  views h := h.1

/-! ## Debts -/

/-- Where new functions get their indices from. -/
def fresh (s : Builder) : Nat :=
  s.firstIndex + s.finished.size

/-- The builder has these tokens left and is still to make what `todo` takes. -/
structure Owes (B : Budget) (V : Builder → Prop) (us : List Token) (todo : List Need) (s : Builder) : Prop
    where
  tokens : s.At us
  view : V s
  ledger : ∃ ns, B.whole = ns ++ todo ∧ Need.FitsAll ns ∧ Need.NearAll ns ∧
    Charged s.fresh B.around (s.body :: s.outer) (ns :: B.spent) ∅

/-- Nothing has been reported, and `R` holds, or there is an error, and the budget is too large. -/
inductive Settles {α : Type} (B : Budget) (r : α × Builder) (R : α → Builder → Prop) : Prop where
  | kept : r.2.errors = #[] → R r.1 r.2 → Settles B r R
  | broken : r.2.errors ≠ #[] → ¬ B.Affordable → Settles B r R

section Settles

variable {α β : Type} {B : Budget} {V : Builder → Prop} {c : Scope} {x : Build α} {f : α → Build β}
  {s s' : Builder} {R R₁ : α → Builder → Prop} {R' : β → Builder → Prop} {us vs : List Token} {t : Token}
  {todo : List Need} {n : Need} {name : String} {k d i j : Nat}

theorem Settles.bind [hf : ∀ a, Keeps (f a)] (hx : Settles B (x s) R)
    (hr : ∀ a s', R a s' → Settles B (f a s') R') : Settles B ((x >>= f) s) R' := by
  cases hx with
  | kept _ hR => exact hr _ _ hR
  | broken he hB => exact .broken (fun hclean => he ((hf (x s).1).clean hclean)) hB

theorem Settles.map {r : α × Builder} (h : Settles B r R) (hr : R r.1 r.2 → R₁ r.1 r.2) : Settles B r R₁ := by
  cases h with
  | kept he hR => exact .kept he (hr hR)
  | broken he hB => exact .broken he hB

theorem Owes.clean (h : Owes B V us todo s) : s.errors = #[] :=
  h.tokens.clean

theorem Owes.settles (h : Owes B V us todo s) (a : α) :
    Settles B (a, s) fun _ s' => Owes B V us todo s' :=
  .kept h.clean h

/-- A lenient action that reports nothing has read nothing. -/
theorem At.of_clean [Lenient x] (hs : s.At us) (hclean : (x s).2.errors = #[]) : (x s).2.At us := by
  cases Lenient.decides (x := x) hs with
  | exceeds h =>
      obtain ⟨e, he, -⟩ := h
      rw [hclean] at he
      exact absurd he (Array.not_mem_empty e)
  | accepts _ hat _ => exact hat
  | rejects hn => exact absurd trivial hn

/-- The code that has been made and the code that is still to be made are all the code. -/
theorem Owes.size (h : Owes B V us todo s) : s.body.chunk.size + Need.size todo = Need.size B.whole := by
  obtain ⟨ns, hwhole, -, -, hcharged⟩ := h.ledger
  rw [hcharged.pays.size, hwhole, Need.size_append]

/-- The need that comes next has been met, in these bodies. -/
theorem Owes.met [Stable V] {ns : List Need} (h : Owes B V us (n :: todo) s) (hs : s.Stays s') (hat : s'.At us)
    (hwhole : B.whole = ns ++ n :: todo) (hfunction : n.isFunction = false) (hfits : n.Fits) (hnear : n.Near)
    (hcharged : Charged s'.fresh B.around (s'.body :: s'.outer) ((ns ++ [n]) :: B.spent) ∅) :
    Owes B V us todo s' := by
  obtain ⟨ns', hwhole', hfitsAll, hnearAll, -⟩ := h.ledger
  obtain rfl := List.append_cancel_right (hwhole'.symm.trans hwhole)
  exact ⟨hat, Stable.stays hs h.view, ns' ++ [n], by simp [hwhole], hfitsAll.snoc hfunction hfits,
    hnearAll.snoc hfunction hnear, hcharged⟩

/-! ## Tokens -/

/-- Reading a token makes nothing. -/
theorem Owes.reads [Stable V] (h : Owes B V vs todo s) (hr : s.Reads s') (hat : s'.At us) :
    Owes B V us todo s' := by
  refine ⟨hat, Stable.stays hr.stays h.view, ?_⟩
  rw [hr.eq]
  exact h.ledger

theorem Owes.advance [Stable V] {f : Unit → Build β} (h : Owes B V (t :: us) todo s) (ht : t.kind ≠ .eof)
    (hf : ∀ s', Owes B V us todo s' → s'.previous = t → Settles B (f () s') R') :
    Settles B ((Builder.advance >>= f) s) R' := by
  obtain ⟨s', hrun, hr, hat, hp⟩ := h.tokens.advance ht
  rw [bind_of_run hrun]
  exact hf s' (h.reads hr hat) hp

theorem Owes.accept [Stable V] {k : TokenKind} {f : Bool → Build β} (h : Owes B V (t :: us) todo s)
    (hk : t.kind = k) (hne : k ≠ .eof)
    (hf : ∀ s', Owes B V us todo s' → s'.previous = t → Settles B (f true s') R') :
    Settles B ((Builder.accept k >>= f) s) R' := by
  obtain ⟨s', hrun, hr, hat, hp⟩ := h.tokens.accept hk hne
  rw [bind_of_run hrun]
  exact hf s' (h.reads hr hat) hp

theorem Settles.acceptNot {k : TokenKind} {f : Bool → Build β} (hk : s.current.kind ≠ k)
    (hf : Settles B (f false s) R') : Settles B ((Builder.accept k >>= f) s) R' := by
  rwa [bind_of_run (accept_of_ne hk)]

/-- The same where the current token is known by where it comes from. -/
theorem Owes.acceptNot {k : TokenKind} {f : Bool → Build β} (h : Owes B V us todo s)
    (hk : ∀ t ∈ us.head?, t.kind ≠ k) (hf : Settles B (f false s) R') :
    Settles B ((Builder.accept k >>= f) s) R' := by
  obtain ⟨t, us, rfl⟩ := h.tokens.exists_cons
  exact .acceptNot (h.tokens.current ▸ hk t rfl) hf

theorem Owes.expect [Stable V] {e : Expectation} {f : Unit → Build β} (h : Owes B V (t :: us) todo s)
    (hk : t.kind = e.kind) (hf : ∀ s', Owes B V us todo s' → s'.previous = t → Settles B (f () s') R') :
    Settles B ((Builder.expect e >>= f) s) R' := by
  obtain ⟨s', hrun, hr, hat, hp⟩ := h.tokens.expect hk
  rw [bind_of_run hrun]
  exact hf s' (h.reads hr hat) hp

theorem Owes.expectLast [Stable V] {e : Expectation} (h : Owes B V (t :: us) todo s)
    (hk : t.kind = e.kind) :
    Settles B (Builder.expect e s) fun _ s' => Owes B V us todo s' := by
  obtain ⟨s', hrun, hr, hat, -⟩ := h.tokens.expect hk
  rw [hrun]
  exact (h.reads hr hat).settles ()

/-! ## Code -/

/-- The code has got longer by `k` bytes, and nothing else has happened. -/
theorem Owes.grown [Stable V] (h : Owes B V us (.bytes k :: todo) s) (hs : s.Stays s') (hat : s'.At us)
    (hcaptures : s'.body.captures = s.body.captures) (houter : s'.outer = s.outer)
    (hfresh : s'.fresh = s.fresh) (hconstants : s'.body.chunk.constants = s.body.chunk.constants)
    (hsize : s'.body.chunk.size = s.body.chunk.size + k) : Owes B V us todo s' := by
  obtain ⟨ns, hwhole, -, -, hcharged⟩ := h.ledger
  refine h.met hs hat hwhole rfl trivial trivial ?_
  rw [hfresh, houter]
  exact hcharged.congr (hcharged.pays.longer hconstants hsize) hcaptures (by rw [Need.captures_snoc rfl])

/-- An action that makes the code longer. -/
theorem Owes.longer [Stable V] [Keeps x] [Still x] [Lenient x] (h : Owes B V us (.bytes k :: todo) s)
    (herrors : (x s).2.errors = s.errors) (hcaptures : (x s).2.body.captures = s.body.captures)
    (houter : (x s).2.outer = s.outer) (hfresh : (x s).2.fresh = s.fresh)
    (hconstants : (x s).2.body.chunk.constants = s.body.chunk.constants)
    (hsize : (x s).2.body.chunk.size = s.body.chunk.size + k) :
    Settles B (x s) fun _ s' => Owes B V us todo s' := by
  have hclean := herrors.trans h.clean
  exact .kept hclean
    (h.grown (Still.stays s) (h.tokens.of_clean hclean) hcaptures houter hfresh hconstants hsize)

theorem Owes.emitByte [Stable V] (h : Owes B V us (.bytes 1 :: todo) s) (b : UInt8) :
    Settles B (Builder.emitByte b s) fun _ s' => Owes B V us todo s' :=
  h.longer rfl rfl rfl rfl rfl (Chunk.size_write ..)

theorem Owes.emit [Stable V] (h : Owes B V us (.bytes 1 :: todo) s) (op : Opcode) :
    Settles B (Builder.emit op s) fun _ s' => Owes B V us todo s' :=
  h.emitByte op.toByte

theorem Owes.emitWith [Stable V] (h : Owes B V us (.bytes 2 :: todo) s) (op : Opcode) (n : Nat) :
    Settles B (Builder.emitWith op n s) fun _ s' => Owes B V us todo s' :=
  h.longer rfl rfl rfl rfl rfl (by
    change ((s.body.chunk.write _ _).write _ _).size = _
    rw [Chunk.size_write, Chunk.size_write])

/-- A jump is told by where its distance stands. -/
theorem Owes.emitJump [Stable V] (h : Owes B V us (.bytes 3 :: todo) s) (op : Opcode) :
    Settles B (Builder.emitJump op s) fun j s' =>
      Owes B V us todo s' ∧ j + 2 + Need.size todo = Need.size B.whole := by
  have hjump := h.longer (x := Builder.emitJump op) (k := 3) rfl rfl rfl rfl rfl (by
    change (((s.body.chunk.write _ _).write _ _).write _ _).size = _
    rw [Chunk.size_write, Chunk.size_write, Chunk.size_write])
  refine hjump.map fun howes => ⟨howes, ?_⟩
  have hsize := h.size
  change s.body.chunk.size + 1 + 2 + _ = _
  rw [Need.size_cons, Need.length] at hsize
  omega

theorem Owes.emitAll [Stable V] {γ : Type} {xs : List γ} (op : γ → Opcode)
    (h : Owes B V us (xs.map (fun _ => Need.bytes 1) ++ todo) s) :
    Settles B (xs.forM (fun a => Builder.emit (op a)) s) fun _ s' => Owes B V us todo s' := by
  induction xs generalizing s with
  | nil => exact h.settles PUnit.unit
  | cons a xs ih =>
      change Settles B ((Builder.emit (op a) >>= fun _ => xs.forM fun a => Builder.emit (op a)) s) _
      exact Settles.bind (Owes.emit h (op a)) fun _ s' h' => ih h'

/-! ## Limits -/

/-- Everything that is still owed is within a budget that can be afforded. -/
theorem Owes.promised (h : Owes B V us todo s) (hn : n ∈ todo) (hB : B.Affordable) : n.Fits ∧ n.Near := by
  obtain ⟨ns, hwhole, -⟩ := h.ledger
  have hbearable := B.promise hB
  rw [hwhole] at hbearable
  have hwithin : n.Within (ns ++ todo) := .here (List.mem_append_right _ hn)
  exact ⟨hbearable.fits n hwithin, hbearable.near n hwithin⟩

/-- A need that is checked when it comes up. -/
theorem Owes.check {R : α → Builder → Prop} {r : α × Builder} (h : Owes B V us (n :: todo) s)
    (hbroken : r.2.errors ≠ #[] → n.Fits → n.Near → False)
    (hkept : r.2.errors = #[] → R r.1 r.2) : Settles B r R := by
  by_cases hclean : r.2.errors = #[]
  · exact .kept hclean (hkept hclean)
  · refine .broken hclean fun hB => ?_
    obtain ⟨hfits, hnear⟩ := h.promised List.mem_cons_self hB
    exact hbroken hclean hfits hnear

/-- A need that is met without making anything. -/
theorem Owes.skip (h : Owes B V us (n :: todo) s) (hfits : n.Fits) (hnear : n.Near)
    (hconstant : n.constant? = none) (hcapture : n.capture? = none) (hfunction : n.isFunction = false)
    (hlength : n.length = 0) : Owes B V us todo s := by
  obtain ⟨ns, hwhole, hfitsAll, hnearAll, hcharged⟩ := h.ledger
  refine ⟨h.tokens, h.view, ns ++ [n], by simp [hwhole], hfitsAll.snoc hfunction hfits,
    hnearAll.snoc hfunction hnear, ?_⟩
  exact hcharged.congr (hcharged.pays.skip hconstant hfunction hlength) rfl (by rw [Need.captures_snoc hcapture])

/-- The bytes of the code may change. -/
theorem Owes.rewritten {s' : Builder} [Stable V] (h : Owes B V us todo s) (hs : s.Stays s')
    (hat : s'.At us) (hcaptures : s'.body.captures = s.body.captures) (houter : s'.outer = s.outer)
    (hfresh : s'.fresh = s.fresh) (hconstants : s'.body.chunk.constants = s.body.chunk.constants)
    (hsize : s'.body.chunk.size = s.body.chunk.size) : Owes B V us todo s' := by
  refine ⟨hat, Stable.stays hs h.view, ?_⟩
  obtain ⟨ns, hwhole, hfits, hnear, hcharged⟩ := h.ledger
  refine ⟨ns, hwhole, hfits, hnear, ?_⟩
  rw [hfresh, houter]
  exact hcharged.congr (hcharged.pays.rewritten hconstants hsize) hcaptures rfl

/-- Outside of a panic an error is reported. -/
theorem errors_error_ne (hcalm : s.panicking = false) (d : Defect) : (error d s).2.errors ≠ #[] := by
  intro hclean
  exact nomatch hcalm.symm.trans (errors_report hclean).2

/-- An error where the budget is too large, whatever follows. -/
theorem Settles.error {d : Defect} {g : Unit → Build α} [hg : ∀ a, Keeps (g a)]
    (hcalm : s.panicking = false) (hB : ¬ B.Affordable) : Settles B ((error d >>= g) s) R :=
  .broken (fun hclean => errors_error_ne hcalm d ((hg ()).clean hclean)) hB

theorem Owes.calm (h : Owes B V us todo s) : s.panicking = false :=
  h.tokens.sound.calm h.clean

/-! ## Jumps -/

/-- A jump is too long, or its distance is written into the code. -/
theorem Owes.leap [Stable V] {x : Build Unit} {ok : Bool} {chunk : Chunk} {e : Defect} {todo' : List Need}
    (h : Owes B V us (.leap d :: todo) s)
    (hrun : x s = (if ok = true then pure () else error e : Build Unit) { s with body := { s.body with chunk } })
    (hok : ok = true ↔ d ≤ Chunk.maxDistance)
    (hmade : Owes B V us todo s → (x s).2 = { s with body := { s.body with chunk } } →
      Owes B V us todo' (x s).2) :
    Settles B (x s) fun _ s' => Owes B V us todo' s' := by
  by_cases hnear : ok = true
  · rw [if_pos hnear] at hrun
    refine .kept ?_ (hmade (h.skip trivial (hok.mp hnear) rfl rfl rfl rfl) ?_)
    · rw [hrun]
      exact h.clean
    · rw [hrun]
      rfl
  · rw [if_neg hnear] at hrun
    rw [hrun]
    refine h.check (fun _ _ hd => hnear (hok.mpr hd)) fun hclean => ?_
    have hcalm : { s with body := { s.body with chunk } }.panicking = false := h.calm
    exact absurd hclean (errors_error_ne hcalm e)

/-- The distance of a jump is that of the code made since. -/
theorem Owes.patchJump [Stable V] (h : Owes B V us (.leap d :: todo) s)
    (hj : j + 2 + d + Need.size todo = Need.size B.whole) :
    Settles B (Builder.patchJump j s) fun _ s' => Owes B V us todo s' := by
  have hsize := h.size
  simp only [Need.size_cons, Need.length] at hsize
  have hdistance : s.body.chunk.size - j - 2 = d := by omega
  have hfits : (s.body.chunk.patchJump j).1 = true ↔ d ≤ Chunk.maxDistance := by
    rw [Chunk.patchJump, hdistance]
    split
    · exact iff_of_true rfl (by assumption)
    · exact iff_of_false (by simp) (by assumption)
  have hrun : Builder.patchJump j s = (if (s.body.chunk.patchJump j).1 = true then pure ()
      else Builder.error .jumpTooLarge : Build Unit)
      { s with body := { s.body with chunk := (s.body.chunk.patchJump j).2 } } := rfl
  refine h.leap hrun hfits fun h' heq => ?_
  have hat := h'.tokens.of_clean (x := Builder.patchJump j) (by rw [heq]; exact h.clean)
  refine h'.rewritten (Still.stays s) hat (by rw [heq]) (by rw [heq]) (by rw [heq]; rfl) ?_ ?_
  · rw [heq]
    exact constants_patchJump _ _
  · rw [heq, Chunk.patchJump]
    split
    · rw [Chunk.size_setByte, Chunk.size_setByte]
    · rfl

/-- A jump back leads over the code made since, itself included. -/
theorem Owes.emitLoop [Stable V] (h : Owes B V us (.leap d :: .bytes 3 :: todo) s)
    (hd : i + d + Need.size todo = Need.size B.whole) :
    Settles B (Builder.emitLoop i s) fun _ s' => Owes B V us todo s' := by
  have hsize := h.size
  simp only [Need.size_cons, Need.length] at hsize
  have hdistance : s.body.chunk.size + 3 - i = d := by omega
  have hfits : (s.body.chunk.writeLoop i s.previous.line).1 = true ↔ d ≤ Chunk.maxDistance := by
    rw [Chunk.writeLoop, hdistance]
    exact decide_eq_true_iff
  have hrun : Builder.emitLoop i s = (if (s.body.chunk.writeLoop i s.previous.line).1 = true then pure ()
      else Builder.error .loopTooLarge : Build Unit)
      { s with body := { s.body with chunk := (s.body.chunk.writeLoop i s.previous.line).2 } } := rfl
  refine h.leap hrun hfits fun h' heq => ?_
  have hat := h'.tokens.of_clean (x := Builder.emitLoop i) (by rw [heq]; exact h.clean)
  refine h'.grown (Still.stays s) hat (by rw [heq]) (by rw [heq]) (by rw [heq]; rfl) ?_ ?_
  · rw [heq]
    rfl
  · rw [heq, Chunk.writeLoop, Chunk.size_write, Chunk.size_write, Chunk.writeOp, Chunk.size_write]

/-- A place in the code is told by what is made behind it. -/
theorem Owes.here {f : Nat → Build β} (h : Owes B V us todo s)
    (hf : ∀ k, k + Need.size todo = Need.size B.whole → Settles B (f k s) R') :
    Settles B ((Builder.here >>= f) s) R' :=
  hf _ h.size

/-! ## Constants -/

/-- A constant takes a place of its own unless it has one. -/
theorem Owes.makeConstant [Stable V] {v : Value} (hv : ∀ f, v ≠ .function f)
    (h : Owes B V us (.constant v :: todo) s) :
    Settles B (Builder.makeConstant v s) fun _ s' => Owes B V us todo s' ∧ s'.previous = s.previous := by
  have hat : (Builder.makeConstant v s).2.errors = #[] → (Builder.makeConstant v s).2.At us :=
    h.tokens.of_clean
  have hstays : s.Stays (Builder.makeConstant v s).2 := Still.stays s
  obtain ⟨ns, hwhole, -, -, hcharged⟩ := h.ledger
  have hbearable : B.Affordable → _ := fun hB => Budget.bearable hB hwhole
  rcases hcharged.pays.addConstant hv with ⟨i, hi, hpays⟩ | ⟨hnone, hfull⟩
  · rw [makeConstant_of_some hi] at hat hstays ⊢
    refine .kept h.clean ⟨h.met hstays (hat h.clean) hwhole rfl trivial trivial ?_, rfl⟩
    exact hcharged.congr hpays rfl (by rw [Need.captures_snoc rfl])
  · rw [makeConstant_of_none hnone]
    have herror := errors_error_ne (s := { s with
      body := { s.body with chunk := (s.body.chunk.addConstant v).2 } }) h.calm .tooManyConstants
    exact .broken herror fun hB => absurd (hbearable hB).constants (Nat.not_le_of_lt hfull)

theorem Owes.nameConstant [Stable V] (h : Owes B V us (.constant (.string name) :: todo) s) :
    Settles B (Builder.nameConstant name s) fun _ s' => Owes B V us todo s' ∧ s'.previous = s.previous :=
  h.makeConstant nofun

theorem Owes.emitConstant [Stable V] {v : Value} (hv : ∀ f, v ≠ .function f)
    (h : Owes B V us (.constant v :: .bytes 2 :: todo) s) :
    Settles B (Builder.emitConstant v s) fun _ s' => Owes B V us todo s' :=
  (h.makeConstant hv).bind fun k _ h' => h'.1.emitWith .constant k

/-! ## Names -/

/-- The functions around a text that fits have room for a variable that the text needs from outside. -/
theorem Budget.roomy {ns : List Need} (hB : B.Affordable) (hwhole : B.whole = ns ++ .capture name :: todo) :
    (insert name (Need.captures ns ∪ ∅)).card ≤ Body.maxCaptures ∧
      Roomy B.around (insert name (Need.captures ns ∪ ∅)) B.spent := by
  have hbearable := Budget.bearable hB hwhole
  have hcaptures : Need.captures (ns ++ [Need.capture name]) = insert name (Need.captures ns ∪ ∅) := by
    rw [Need.captures_append, Finset.union_empty, Finset.insert_eq, Finset.union_comm]
    rfl
  rw [← hcaptures]
  exact ⟨hbearable.captures, hbearable.around⟩

/-- A name that may be used is resolved if there is room for what it takes. -/
theorem Owes.resolve [Sights V c] (hB : B.around = c.outer) (hallowed : c.pending = some name → c.place? name ≠ none)
    (h : Owes B V us (c.naming name ++ todo) s) :
    Settles B (Builder.resolve name s) fun _ s' => Owes B V us todo s' ∧ s'.previous = s.previous := by
  have hviews := Sights.views h.view
  obtain _ | ⟨hslot, hslots⟩ := hviews.slots
  cases hlocal : slotOf? name c.inner.locals with
  | some slot =>
      rw [resolve_of_slot ((hslot name).trans hlocal)]
      rw [Scope.naming_of_slot hlocal] at h
      exact .kept h.clean ⟨h, rfl⟩
  | none =>
      obtain ⟨ns, hwhole, -, -, hcharged⟩ := h.ledger
      have hresolves : Charged.Resolves s.fresh B.around name s.body s.outer ns B.spent ∅
          (Body.resolve name s.body s.outer) := hcharged.resolve (hB ▸ hslots)
      have hstays : s.Stays (resolveOutside name s).2 := Still.stays s
      have hlenient : Lenient (resolveOutside name) := lenient_of_silent fun _ => ⟨rfl, rfl⟩
      have hat : (resolveOutside name s).2.At us := h.tokens.of_clean h.clean
      have hrun : resolveOutside name s = ((Body.resolve name s.body s.outer).1, { s with
        body := (Body.resolve name s.body s.outer).2.1, outer := (Body.resolve name s.body s.outer).2.2 }) := rfl
      rw [resolve_of_no_slot ((hslot name).trans hlocal), bind_of_run hrun]
      rw [hrun] at hstays hat
      rw [hB] at hresolves
      generalize Body.resolve name s.body s.outer = r at hresolves hstays hat
      cases hresolves with
      | absent hnone =>
          have hplace := Scope.place?_of_absent hlocal hnone
          rw [Scope.naming_of_absent hplace] at h
          have hpending : ¬ s.isInitializing name = true := fun hpending =>
            hallowed ((hviews.sees.pending name).mp hpending) hplace
          change Settles B ((if s.isInitializing name = true then _ else _ : Build Variable) s) _
          rw [if_neg hpending]
          exact Settles.bind h.nameConstant fun k s' h' => .kept h'.1.clean h'
      | found hsome hcharged' =>
          rw [Scope.naming_of_outside hlocal hsome] at h hwhole
          refine .kept h.clean ⟨h.met hstays hat hwhole rfl trivial trivial ?_, rfl⟩
          rw [hB]
          refine hcharged'.congr (hcharged'.pays.skip rfl rfl rfl) rfl ?_
          rw [Need.captures_append, Finset.union_assoc]
          rfl
      | @full b' outer' hsome hfull =>
          rw [Scope.naming_of_outside hlocal hsome] at hwhole
          refine .broken ?_ fun hafford => hfull (hB ▸ Budget.roomy hafford hwhole)
          exact errors_error_ne (s := { s with body := b', outer := outer' }) h.calm .tooManyUpvalues

theorem Owes.readNamed [Sights V c] (hB : B.around = c.outer)
    (hallowed : c.pending = some name → c.place? name ≠ none) (h : Owes B V us (c.reading name ++ todo) s) :
    Settles B (Builder.readNamed name s) fun _ s' => Owes B V us todo s' ∧ s'.previous = s.previous := by
  rw [Scope.reading, List.append_assoc] at h
  refine (h.resolve hB hallowed).bind fun v s₁ h₁ => ?_
  exact (h₁.1.emitWith v.getOp v.operand).map fun h₂ => ⟨h₂, h₁.2⟩

/-- No variable is called as a receiver or a superclass is. -/
theorem Owes.readReserved [Sights V c] (hB : B.around = c.outer) (hname : ¬ Syntax.IsIdentifier name)
    (h : Owes B V us (c.reading name ++ todo) s) :
    Settles B (Builder.readNamed name s) fun _ s' => Owes B V us todo s' := by
  have hsees := (Sights.views h.view).sees
  exact (h.readNamed hB fun hpending => absurd (hsees.identifier name hpending) hname).map And.left

end Settles

end Builder

end LoxMachine
