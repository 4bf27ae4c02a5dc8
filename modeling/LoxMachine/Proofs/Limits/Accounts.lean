import Mathlib
import LoxMachine.Proofs.Compile.Bodies
import LoxMachine.Proofs.Limits.Needs

/-!
# Accounts of bodies

What the chunk and the captures of a body amount to, given what the function has needed so far. Equal
constants share an index and a variable is captured once, so the numbers of constants and captures are
those of different constants and of different names (`Chunk.Pays`, `Body.Captured`). A variable of a function
further out is captured by every function in between: `Charged` says of all bodies that they have just the
captures that they need, and `Roomy` that there is room for them.

Main statement: `Charged.resolve`, a name is resolved exactly if there is room for the captures that it takes.
-/

namespace LoxMachine

open Syntax (FunctionScope Need slotOf? placeIn?)

/-! ## Lists of needs -/

namespace Syntax.Need

variable {n : Need} {ns ms : List Need}

@[simp] theorem constants_nil : constants [] = ∅ := rfl

@[simp] theorem captures_nil : captures [] = ∅ := rfl

@[simp] theorem functions_nil : functions [] = 0 := rfl

@[simp] theorem size_nil : size [] = 0 := rfl

theorem constants_append (ns ms : List Need) : constants (ns ++ ms) = constants ns ∪ constants ms := by
  rw [constants, List.filterMap_append, List.toFinset_append]
  rfl

theorem captures_append (ns ms : List Need) : captures (ns ++ ms) = captures ns ∪ captures ms := by
  rw [captures, List.filterMap_append, List.toFinset_append]
  rfl

/-- What captures nothing leaves the captures alone. -/
theorem captures_snoc (h : n.capture? = none) : captures (ns ++ [n]) = captures ns := by
  simp [captures, h]

theorem functions_append (ns ms : List Need) : functions (ns ++ ms) = functions ns + functions ms :=
  List.countP_append

@[simp] theorem size_append (ns ms : List Need) : size (ns ++ ms) = size ns + size ms := by
  simp [size]

@[simp] theorem size_cons (n : Need) (ns : List Need) : size (n :: ns) = n.length + size ns := by
  simp [size]

@[simp] theorem within_nil : ¬ n.Within [] := by
  rintro (h | h) <;> cases h

theorem within_append : n.Within (ns ++ ms) ↔ n.Within ns ∨ n.Within ms := by
  constructor
  · rintro (h | ⟨h, hn⟩)
    · exact (List.mem_append.mp h).imp .here .here
    · exact (List.mem_append.mp h).imp (.inside · hn) (.inside · hn)
  · rintro ((h | ⟨h, hn⟩) | (h | ⟨h, hn⟩))
    · exact .here (List.mem_append_left _ h)
    · exact .inside (List.mem_append_left _ h) hn
    · exact .here (List.mem_append_right _ h)
    · exact .inside (List.mem_append_right _ h) hn

theorem within_singleton {m : Need} (hn : n.isFunction = false) : m.Within [n] ↔ m = n := by
  constructor
  · rintro (hm | ⟨hm, -⟩)
    · exact List.mem_singleton.mp hm
    · rw [← List.mem_singleton.mp hm] at hn
      cases hn
  · rintro rfl
    exact .here List.mem_cons_self

theorem FitsAll.snoc (h : FitsAll ns) (hn : n.isFunction = false) (hfits : n.Fits) :
    FitsAll (ns ++ [n]) := by
  intro m hm
  rcases within_append.mp hm with hm | hm
  · exact h m hm
  · exact (within_singleton hn).mp hm ▸ hfits

theorem NearAll.snoc (h : NearAll ns) (hn : n.isFunction = false) (hnear : n.Near) :
    NearAll (ns ++ [n]) := by
  intro m hm
  rcases within_append.mp hm with hm | hm
  · exact h m hm
  · exact (within_singleton hn).mp hm ▸ hnear

end Syntax.Need

/-! ## Constants -/

/-- The chunk of a function that has needed this: its code is as long, and its constants are those, apart
from its functions, which have indices below `fresh`. -/
structure Chunk.Pays (c : Chunk) (fresh : Nat) (ns : List Need) : Prop where
  size : c.size = Need.size ns
  constants : ∀ v, (∀ f, v ≠ .function f) → (v ∈ c.constants ↔ v ∈ Need.constants ns)
  functions : ∀ f, .function f ∈ c.constants → f.index < fresh
  count : c.constants.size = (Need.constants ns).card + Need.functions ns

namespace Chunk

variable {c : Chunk} {fresh : Nat} {ns : List Need} {v : Value} {f : Function} {n : Need}

theorem pays_nil (fresh : Nat) : ({} : Chunk).Pays fresh [] where
  size := rfl
  constants v _ := iff_of_false (Array.not_mem_empty v) (Finset.notMem_empty v)
  functions _ hf := absurd hf (Array.not_mem_empty _)
  count := rfl

theorem Pays.mono {fresh' : Nat} (h : c.Pays fresh ns) (hle : fresh ≤ fresh') : c.Pays fresh' ns :=
  { h with functions := fun f hf => Nat.lt_of_lt_of_le (h.functions f hf) hle }

/-- Needs that have nothing to do with the chunk. -/
theorem Pays.skip (h : c.Pays fresh ns) (hconstant : n.constant? = none) (hfunction : n.isFunction = false)
    (hlength : n.length = 0) : c.Pays fresh (ns ++ [n]) := by
  have hconstants : Need.constants (ns ++ [n]) = Need.constants ns := by
    simp [Need.constants, hconstant]
  refine ⟨?_, ?_, h.functions, ?_⟩
  · simp [h.size, hlength]
  · rw [hconstants]
    exact h.constants
  · rw [hconstants, h.count]
    simp [Need.functions, hfunction]

/-- The code gets longer. -/
theorem Pays.longer {c' : Chunk} {k : Nat} (h : c.Pays fresh ns) (hconstants : c'.constants = c.constants)
    (hsize : c'.size = c.size + k) : c'.Pays fresh (ns ++ [Need.bytes k]) := by
  refine ⟨?_, ?_, hconstants ▸ h.functions, ?_⟩
  · rw [hsize, h.size, Need.size_append]
    simp [Need.length]
  · rw [hconstants, Need.constants_append]
    simpa [Need.constants, Need.constant?] using h.constants
  · rw [hconstants, h.count, Need.constants_append, Need.functions_append]
    simp [Need.functions, Need.isFunction, show Need.constants [.bytes k] = ∅ from rfl]

/-- The bytes of a jump may change, not the length of the code. -/
theorem Pays.rewritten {c' : Chunk} (h : c.Pays fresh ns) (hconstants : c'.constants = c.constants)
    (hsize : c'.size = c.size) : c'.Pays fresh ns :=
  ⟨hsize.trans h.size, hconstants ▸ h.constants, hconstants ▸ h.functions, hconstants ▸ h.count⟩

theorem constants_append_constant (ns : List Need) (v : Value) :
    Need.constants (ns ++ [Need.constant v]) = insert v (Need.constants ns) := by
  rw [Need.constants_append, Finset.insert_eq, Finset.union_comm]
  rfl

theorem constants_append_function (ns : List Need) (k : Nat) (ms : List Need) :
    Need.constants (ns ++ [Need.function k ms]) = Need.constants ns := by
  rw [Need.constants_append]
  exact Finset.union_empty _

/-- A number or a text is one constant more, unless it has been needed before. -/
theorem Pays.addConstant (h : c.Pays fresh ns) (hv : ∀ f, v ≠ .function f) :
    (∃ i, (c.addConstant v).1 = some i ∧ (c.addConstant v).2.Pays fresh (ns ++ [Need.constant v])) ∨
      ((c.addConstant v).1 = none ∧ maxConstants <
        (Need.constants (ns ++ [Need.constant v])).card + Need.functions (ns ++ [Need.constant v])) := by
  have hfunctions : Need.functions (ns ++ [Need.constant v]) = Need.functions ns := by
    simp [Need.functions, Need.isFunction]
  have hsize : Need.size (ns ++ [Need.constant v]) = Need.size ns := by simp [Need.length]
  have hcount := h.count
  rw [Chunk.addConstant, constants_append_constant, hfunctions]
  cases hindex : c.constants.idxOf? v with
  | some i =>
      have hmem : v ∈ Need.constants ns :=
        (h.constants v hv).mp (Array.mem_of_getElem? (Body.getElem?_of_idxOf? hindex))
      refine .inl ⟨i, rfl, h.size.trans hsize.symm, ?_, h.functions, ?_⟩
      · rw [constants_append_constant, Finset.insert_eq_of_mem hmem]
        exact h.constants
      · rw [constants_append_constant, Finset.insert_eq_of_mem hmem, hfunctions]
        exact hcount
  | none =>
      have hnew := Array.idxOf?_eq_none_iff.mp hindex
      have hcard := Finset.card_insert_of_notMem fun hmem => hnew ((h.constants v hv).mpr hmem)
      dsimp only
      split
      · refine .inl ⟨_, rfl, h.size.trans hsize.symm, fun w hw => ?_, fun f hf => ?_, ?_⟩
        · rw [constants_append_constant, Array.mem_push, Finset.mem_insert, h.constants w hw, or_comm]
        · exact h.functions f ((Array.mem_push.mp hf).resolve_right fun heq => hv f heq.symm)
        · rw [Array.size_push, constants_append_constant, hcard, hfunctions, hcount]
          omega
      · exact .inr ⟨rfl, by omega⟩

/-- A function is one constant more. -/
theorem Pays.addFunction (h : c.Pays f.index ns) (k : Nat) (ms : List Need) :
    (∃ i, (c.addConstant (.function f)).1 = some i ∧
      (c.addConstant (.function f)).2.Pays (f.index + 1) (ns ++ [Need.function k ms])) ∨
      ((c.addConstant (.function f)).1 = none ∧ maxConstants <
        (Need.constants (ns ++ [Need.function k ms])).card + Need.functions (ns ++ [Need.function k ms])) := by
  have hfunctions : Need.functions (ns ++ [Need.function k ms]) = Need.functions ns + 1 := by
    simp [Need.functions, Need.isFunction]
  have hsize : Need.size (ns ++ [Need.function k ms]) = Need.size ns := by simp [Need.length]
  have hcount := h.count
  have hindex : c.constants.idxOf? (.function f) = none :=
    Array.idxOf?_eq_none_iff.mpr fun hmem => Nat.lt_irrefl _ (h.functions f hmem)
  rw [Chunk.addConstant, constants_append_function, hfunctions, hindex]
  dsimp only
  split
  · refine .inl ⟨_, rfl, h.size.trans hsize.symm, fun w hw => ?_, fun g hg => ?_, ?_⟩
    · rw [constants_append_function, Array.mem_push, or_iff_left (hw f), h.constants w hw]
    · rcases Array.mem_push.mp hg with hg | hg
      · exact Nat.lt_succ_of_lt (h.functions g hg)
      · obtain rfl := Value.function.inj hg
        exact Nat.lt_succ_self _
    · rw [Array.size_push, constants_append_function, hfunctions, hcount]
      omega
  · exact .inr ⟨rfl, by omega⟩

end Chunk

/-! ## Captures -/

namespace Body

variable {x y name : String} {Es : List Enclosing} {b : Body} {outer outer' bs : List Body}
  {X : Finset String} {k k' : Capture}

/-- A capture leads to one variable. -/
theorem Leads.name_eq (h : Leads x Es k) (h' : Leads y Es k) : x = y := by
  induction h with
  | here hslot =>
      obtain ⟨hslot'⟩ := h'
      obtain ⟨l, hl, rfl, -⟩ := slot?_localAt? hslot
      obtain ⟨l', hl', rfl, -⟩ := slot?_localAt? hslot'
      exact congrArg Local.name (Option.some.inj (hl.symm.trans hl'))
  | outwards _ hc _ ih =>
      obtain _ | ⟨-, hc', hleads⟩ := h'
      obtain rfl := Option.some.inj (hc.symm.trans hc')
      exact ih hleads

/-- A name takes one capture. -/
theorem Leads.capture_eq (hEs : ∀ E ∈ Es, E.captures.Nodup) (h : Leads x Es k) (h' : Leads x Es k') :
    k = k' := by
  induction h generalizing k' with
  | here hslot =>
      cases h' with
      | here hslot' => rw [Option.some.inj (hslot.symm.trans hslot')]
      | outwards hnone => exact nomatch hslot.symm.trans hnone
  | outwards hnone hc _ ih =>
      cases h' with
      | here hslot => exact nomatch hslot.symm.trans hnone
      | outwards _ hc' hleads =>
          obtain rfl := ih (fun E hE => hEs E (List.mem_cons_of_mem _ hE)) hleads
          have hlt := (List.getElem?_eq_some_iff.mp hc).1
          rw [(List.getElem?_inj hlt (hEs _ List.mem_cons_self)).mp (hc.trans hc'.symm)]

/-- The body has captures of the variables of these names, one each. -/
def Captured (b : Body) (outer : List Body) (X : Finset String) : Prop :=
  ∃ xs : List String, xs.Nodup ∧ xs.toFinset = X ∧
    List.Forall₂ (fun x k => Leads x (outer.map enclosing) k) xs b.captures.toList

theorem captured_new (kind : BodyKind) (name : String) (outer : List Body) :
    (Body.new kind name).Captured outer ∅ :=
  ⟨[], List.nodup_nil, rfl, .nil⟩

theorem Captured.card (h : b.Captured outer X) : X.card = b.captures.size := by
  obtain ⟨xs, hnodup, rfl, hleads⟩ := h
  rw [List.toFinset_card_of_nodup hnodup, hleads.length_eq, Array.length_toList]

theorem Captured.nodup (h : b.Captured outer X) : b.captures.toList.Nodup := by
  obtain ⟨xs, hnodup, -, hleads⟩ := h
  generalize b.captures.toList = ks at hleads
  induction hleads with
  | nil => exact List.nodup_nil
  | @cons x k xs ks hx hxs ih =>
      obtain ⟨hnew, hnodup⟩ := List.nodup_cons.mp hnodup
      refine List.nodup_cons.mpr ⟨fun hk => ?_, ih hnodup⟩
      obtain ⟨i, hi, heq⟩ := List.getElem_of_mem hk
      have hi' : i < xs.length := hxs.length_eq ▸ hi
      have hleads := (List.forall₂_iff_get.mp hxs).2 i hi' hi
      rw [List.get_eq_getElem, List.get_eq_getElem, heq] at hleads
      exact hnew (hx.name_eq hleads ▸ List.getElem_mem hi')

theorem Captured.growAll (h : b.Captured outer X) (hg : GrowAll outer outer') : b.Captured outer' X := by
  obtain ⟨xs, hnodup, heq, hleads⟩ := h
  exact ⟨xs, hnodup, heq, hleads.imp fun _ _ h => h.growAll hg⟩

theorem Captured.mem_iff (h : b.Captured outer X) (hEs : ∀ p ∈ outer, p.captures.toList.Nodup)
    (hk : Leads x (outer.map enclosing) k) : x ∈ X ↔ k ∈ b.captures := by
  have hEs' : ∀ E ∈ outer.map enclosing, E.captures.Nodup := by
    intro E hE
    obtain ⟨p, hp, rfl⟩ := List.mem_map.mp hE
    exact hEs p hp
  obtain ⟨xs, -, rfl, hleads⟩ := h
  rw [List.mem_toFinset, ← Array.mem_toList_iff]
  have hget := (List.forall₂_iff_get.mp hleads).2
  simp only [List.get_eq_getElem] at hget
  constructor
  · intro hx
    obtain ⟨i, hi, rfl⟩ := List.getElem_of_mem hx
    have hi' := hleads.length_eq ▸ hi
    rw [hk.capture_eq hEs' (hget i hi hi')]
    exact List.getElem_mem hi'
  · intro hmem
    obtain ⟨i, hi', rfl⟩ := List.getElem_of_mem hmem
    have hi := hleads.length_eq.symm ▸ hi'
    rw [hk.name_eq (hget i hi hi')]
    exact List.getElem_mem hi

/-- A variable is captured once, and only if there is room. -/
theorem Captured.link (h : b.Captured outer X) (hEs : ∀ p ∈ outer, p.captures.toList.Nodup)
    (hk : Leads x (outer.map enclosing) k) :
    (∃ i b', b.link k = (.found i, b') ∧ b'.Captured outer (insert x X)) ∨
      (∃ b', b.link k = (.full, b')) ∧ maxCaptures < (insert x X).card := by
  have hcard := h.card
  rw [Body.link, addCapture]
  cases hindex : b.captures.idxOf? k with
  | some i =>
      have hmem := (h.mem_iff hEs hk).mpr (Array.mem_of_getElem? (getElem?_of_idxOf? hindex))
      exact .inl ⟨i, b, rfl, by rwa [Finset.insert_eq_of_mem hmem]⟩
  | none =>
      have hnew : x ∉ X := fun hx => Array.idxOf?_eq_none_iff.mp hindex ((h.mem_iff hEs hk).mp hx)
      dsimp only
      by_cases hroom : b.captures.size < maxCaptures
      · rw [if_pos hroom]
        refine .inl ⟨_, _, rfl, ?_⟩
        obtain ⟨xs, hnodup, rfl, hleads⟩ := h
        have hx : x ∉ xs := fun hx => hnew (List.mem_toFinset.mpr hx)
        refine ⟨xs ++ [x], ?_, ?_, ?_⟩
        · exact (List.nodup_append_comm.mp (List.nodup_cons.mpr ⟨hx, hnodup⟩ : ([x] ++ xs).Nodup))
        · rw [List.toFinset_append, Finset.union_comm]
          rfl
        · rw [Array.toList_push]
          exact List.rel_append hleads (.cons hk .nil)
      · rw [if_neg hroom]
        refine .inr ⟨⟨b, rfl⟩, ?_⟩
        rw [Finset.card_insert_of_notMem hnew, hcard]
        omega

end Body

/-! ## All bodies -/

/-- What a function captures when one inside it captures `X`. -/
def FunctionScope.passed (f : FunctionScope) (X : Finset String) : Finset String :=
  X.filter fun x => slotOf? x f.locals = none

/-- The body that is compiled and those around it, in the scopes `fs`, have needed this much, and captured
what that takes; besides, the innermost one has captured `X`. -/
inductive Charged (fresh : Nat) :
    List FunctionScope → List Body → List (List Need) → Finset String → Prop where
  | script {b ns X} : b.chunk.Pays fresh ns → b.Captured [] (Need.captures ns ∪ X) →
      Charged fresh [] [b] [ns] X
  | inside {f fs b bs ns nss X} : b.chunk.Pays fresh ns → b.Captured bs (Need.captures ns ∪ X) →
      Charged fresh fs bs nss (FunctionScope.passed f (Need.captures ns ∪ X)) →
      Charged fresh (f :: fs) (b :: bs) (ns :: nss) X

/-- The functions around have room for what they capture if one inside captures `X`. -/
def Roomy : List FunctionScope → Finset String → List (List Need) → Prop
  | f :: fs, X, ns :: nss =>
    (Need.captures ns ∪ FunctionScope.passed f X).card ≤ Body.maxCaptures ∧
      Roomy fs (Need.captures ns ∪ FunctionScope.passed f X) nss
  | _, _, _ => True

namespace Charged

variable {fresh : Nat} {fs : List FunctionScope} {f : FunctionScope} {b : Body} {outer bs : List Body}
  {ns : List Need} {nss : List (List Need)} {X Y : Finset String} {name : String}

theorem pays (h : Charged fresh fs (b :: bs) (ns :: nss) X) : b.chunk.Pays fresh ns := by
  cases h <;> assumption

theorem captured (h : Charged fresh fs (b :: bs) (ns :: nss) X) :
    b.Captured bs (Need.captures ns ∪ X) := by
  cases h <;> assumption

theorem nodup (h : Charged fresh fs bs nss X) : ∀ b ∈ bs, b.captures.toList.Nodup := by
  induction h with
  | script _ hcaptured => exact List.forall_mem_singleton.mpr hcaptured.nodup
  | inside _ hcaptured _ ih => exact List.forall_mem_cons.mpr ⟨hcaptured.nodup, ih⟩

theorem mono {fresh' : Nat} (h : Charged fresh fs bs nss X) (hle : fresh ≤ fresh') :
    Charged fresh' fs bs nss X := by
  induction h with
  | script hpays hcaptured => exact .script (hpays.mono hle) hcaptured
  | inside hpays hcaptured _ ih => exact .inside (hpays.mono hle) hcaptured ih

/-- The innermost body may have needed something else, or be another one with as many captures. -/
theorem congr {b' : Body} {ns' : List Need} (h : Charged fresh fs (b :: bs) (ns :: nss) X)
    (hpays : b'.chunk.Pays fresh ns') (hcaptures : b'.captures = b.captures)
    (heq : Need.captures ns' ∪ Y = Need.captures ns ∪ X) :
    Charged fresh fs (b' :: bs) (ns' :: nss) Y := by
  have hcaptured {Z : Finset String} (h : b.Captured bs Z) : b'.Captured bs Z := by
    rwa [Body.Captured, hcaptures]
  cases h with
  | script _ hc => exact .script hpays (heq ▸ hcaptured hc)
  | inside _ hc houter => exact .inside hpays (heq ▸ hcaptured hc) (heq ▸ houter)

end Charged

/-! ## Names -/

theorem passed_insert_of_local {f : FunctionScope} {name : String} {slot : Nat}
    (h : slotOf? name f.locals = some slot) (X : Finset String) :
    FunctionScope.passed f (insert name X) = FunctionScope.passed f X := by
  rw [FunctionScope.passed, Finset.filter_insert, if_neg (by rw [h]; nofun)]
  rfl

theorem passed_insert_of_not_local {f : FunctionScope} {name : String} (h : slotOf? name f.locals = none)
    (X : Finset String) :
    FunctionScope.passed f (insert name X) = insert name (FunctionScope.passed f X) := by
  rw [FunctionScope.passed, Finset.filter_insert, if_pos h]
  rfl

/-- What has become of a name that is looked up in the functions around a body. -/
inductive Charged.Resolves (fresh : Nat) (fs : List FunctionScope) (name : String) (b : Body)
    (outer : List Body) (ns : List Need) (nss : List (List Need)) (X : Finset String) :
    Body.Resolution × Body × List Body → Prop where
  | absent : placeIn? name (fs.map FunctionScope.locals) = none →
      Resolves fresh fs name b outer ns nss X (.absent, b, outer)
  | found {i b' outer'} : placeIn? name (fs.map FunctionScope.locals) ≠ none →
      Charged fresh fs (b' :: outer') (ns :: nss) (insert name X) →
      Resolves fresh fs name b outer ns nss X (.found i, b', outer')
  | full {b' outer'} : placeIn? name (fs.map FunctionScope.locals) ≠ none →
      ¬ ((insert name (Need.captures ns ∪ X)).card ≤ Body.maxCaptures ∧
        Roomy fs (insert name (Need.captures ns ∪ X)) nss) →
      Resolves fresh fs name b outer ns nss X (.full, b', outer')

section Resolves

variable {fresh : Nat} {f : FunctionScope} {fs : List FunctionScope} {name : String} {b parent : Body}
  {outer : List Body} {ns : List Need} {nss : List (List Need)} {X : Finset String}

/-- The innermost body captures what holds the variable for it, unless it is full. -/
theorem Charged.linked {k : Capture} {bs : List Body} (hpays : b.chunk.Pays fresh ns)
    (hcaptured : b.Captured bs (Need.captures ns ∪ X))
    (hcharged : Charged fresh fs bs nss (FunctionScope.passed f (insert name (Need.captures ns ∪ X))))
    (hleads : Body.Leads name (bs.map Body.enclosing) k)
    (hplace : placeIn? name ((f :: fs).map FunctionScope.locals) ≠ none) :
    Charged.Resolves fresh (f :: fs) name b outer ns nss X ((b.link k).1, (b.link k).2, bs) := by
  rcases hcaptured.link hcharged.nodup hleads with ⟨i, b', hlink, hb'⟩ | ⟨⟨b', hlink⟩, hfull⟩
  · rw [hlink]
    have hchunk := (Body.link_spec hlink).1.chunk
    refine .found hplace (.inside (hchunk ▸ hpays) ?_ ?_)
    · rw [Finset.union_insert]
      exact hb'
    · rw [Finset.union_insert]
      exact hcharged
  · rw [hlink]
    exact .full hplace fun hroom => absurd hroom.1 (Nat.not_le_of_lt hfull)

/-- The nearest function around has the variable. -/
theorem Charged.resolves_of_local {slot : Nat} {locals : List Local}
    (h : Charged fresh (f :: fs) (b :: parent :: outer) (ns :: nss) X)
    (hparent : ∀ x, Body.slot? x parent.locals = slotOf? x f.locals)
    (hslot : Body.captureSlot? name parent.locals = some (slot, locals)) :
    Charged.Resolves fresh (f :: fs) name b (parent :: outer) ns nss X
      ((b.link ⟨slot, true⟩).1, (b.link ⟨slot, true⟩).2, { parent with locals } :: outer) := by
  have hlocal : slotOf? name f.locals = some slot := by
    rw [← hparent, ← Body.map_fst_captureSlot?, hslot]
    rfl
  have hraised := (Body.captureSlot?_spec hslot).1
  have hgrows : parent.Grows { parent with locals } :=
    ⟨rfl, rfl, rfl, rfl, rfl, hraised, fun _ _ => id⟩
  have hgrowAll : Body.GrowAll (parent :: outer) ({ parent with locals } :: outer) :=
    .cons hgrows (Body.GrowAll.refl outer)
  obtain _ | ⟨hpays, hcaptured, hcharged⟩ := h
  obtain _ | ⟨ns₁, nss⟩ := nss
  · cases hcharged
  refine Charged.linked hpays (hcaptured.growAll hgrowAll) ?_ (.here ?_) ?_
  · rw [passed_insert_of_local hlocal]
    exact hcharged.congr hcharged.pays rfl rfl
  · rw [Body.enclosing, hraised.slot?, hparent, hlocal]
  · rw [List.map_cons, Syntax.placeIn?_of_slot hlocal]
    simp

/-- The nearest function around has captured the variable itself. -/
theorem Charged.resolves_outwards {i : Nat} {parent' : Body} {outer' : List Body}
    (hpays : b.chunk.Pays fresh ns) (hcaptured : b.Captured (parent :: outer) (Need.captures ns ∪ X))
    (hcharged : Charged fresh fs (parent' :: outer') nss
      (insert name (FunctionScope.passed f (Need.captures ns ∪ X))))
    (hgrow : Body.Resolved name parent outer (.found i) parent' outer')
    (hlocal : slotOf? name f.locals = none) (hslot : Body.slot? name parent.locals = none)
    (hplace : placeIn? name ((f :: fs).map FunctionScope.locals) ≠ none) :
    Charged.Resolves fresh (f :: fs) name b (parent :: outer) ns nss X
      ((b.link ⟨i, false⟩).1, (b.link ⟨i, false⟩).2, parent' :: outer') := by
  obtain ⟨k, hk, hleads⟩ := hgrow.leads i rfl
  refine Charged.linked hpays (hcaptured.growAll (.cons hgrow.body hgrow.around)) ?_
    (.outwards ?_ ?_ hleads) hplace
  · rw [passed_insert_of_not_local hlocal]
    exact hcharged
  · rw [Body.enclosing, hgrow.body.locals.slot?, hslot]
  · rw [Body.enclosing, Array.getElem?_toList, hk]

/-- A name that leads to a variable outside is resolved if and only if all functions on the way have room for
it among their captures. -/
theorem Charged.resolve (h : Charged fresh fs (b :: outer) (ns :: nss) X)
    (hslots : List.Forall₂ (fun b f => ∀ x, Body.slot? x b.locals = slotOf? x f.locals) outer fs) :
    Charged.Resolves fresh fs name b outer ns nss X (Body.resolve name b outer) := by
  induction outer generalizing b ns nss fs X with
  | nil =>
      cases hslots
      exact .absent rfl
  | cons parent outer ih =>
      obtain _ | @⟨_, f, _, fs, hparent, houter⟩ := hslots
      rw [Body.resolve]
      cases hslot : Body.captureSlot? name parent.locals with
      | some found => exact h.resolves_of_local hparent hslot
      | none =>
          obtain _ | ⟨hpays, hcaptured, hcharged⟩ := h
          obtain _ | ⟨ns₁, nss⟩ := nss
          · cases hcharged
          have hslot := Body.captureSlot?_eq_none hslot
          have hlocal : slotOf? name f.locals = none := (hparent name).symm.trans hslot
          have hplace : placeIn? name ((f :: fs).map FunctionScope.locals) = _ :=
            Syntax.placeIn?_of_no_slot hlocal
          have hinner := ih hcharged houter
          have hgrow := Body.resolve_spec (rfl : Body.resolve name parent outer = _)
          dsimp only
          generalize Body.resolve name parent outer = r at hinner hgrow
          cases hinner with
          | absent hnone =>
              refine .absent ?_
              rw [hplace, hnone]
              rfl
          | full hsome hfull =>
              refine .full ?_ fun hroom => hfull ?_
              · rw [hplace]
                simpa using hsome
              · have hroom := hroom.2
                rw [Roomy, passed_insert_of_not_local hlocal, Finset.union_insert] at hroom
                exact hroom
          | found hsome hcharged' =>
              refine Charged.resolves_outwards hpays hcaptured hcharged' hgrow hlocal hslot ?_
              rw [hplace]
              simpa using hsome

end Resolves

end LoxMachine
