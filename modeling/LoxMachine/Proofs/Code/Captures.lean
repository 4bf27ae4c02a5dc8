import Mathlib.Data.List.Nodup
import LoxMachine.Proofs.Code.Resolution

/-!
# Captures of a name

Main statement: `Body.follows_resolve`.

A name that a body does not have itself is followed outwards through the bodies around it, up to the
nearest one with an initialized local of that name (`Nearest`). Each body on the way takes one capture
(`Takes`), which it may have already; it stays then in its place, and else comes to the end of the list
(`place`). What becomes of the bodies around is a `Passage`. The way is closed where a body would have to
take one capture more than there is room for (`Overflows`).
-/

namespace LoxMachine.Body

/-! ## The variable -/

/-- The innermost initialized local of that name is in this slot. -/
structure Innermost (name : String) (locals : List Local) (slot : Nat) : Prop where
  holds : ∃ l, localAt? locals slot = some l ∧ Local.answersTo l name = true
  above : ∀ s l, slot < s → localAt? locals s = some l → Local.answersTo l name = false

/-- No initialized local has that name. -/
def Lacking (name : String) (locals : List Local) : Prop :=
  ∀ l ∈ locals, Local.answersTo l name = false

/-- The nearest of these bodies with an initialized local of that name is number `level`, and the innermost one
there is in this slot. -/
structure Nearest (name : String) (outer : List Body) (level slot : Nat) : Prop where
  holds : ∃ p, outer[level]? = some p ∧ Innermost name p.locals slot
  nearer : ∀ n p, n < level → outer[n]? = some p → Lacking name p.locals

variable {name : String} {locals marked : List Local} {l : Local} {slot : Nat}

theorem lt_of_localAt? (h : localAt? locals slot = some l) : slot < locals.length := by
  have hlt := (List.getElem?_eq_some_iff.mp h).1
  rwa [List.length_reverse] at hlt

theorem mem_of_localAt? (h : localAt? locals slot = some l) : l ∈ locals :=
  List.mem_reverse.mp (List.mem_of_getElem? h)

theorem slot?_eq_none_iff : slot? name locals = none ↔ Lacking name locals := by
  induction locals with
  | nil => exact iff_of_true rfl fun _ => List.not_mem_nil.elim
  | cons l locals ih =>
      rw [slot?, Lacking, List.forall_mem_cons]
      cases hl : Local.answersTo l name with
      | true => exact iff_of_false (by simp) fun h => Bool.noConfusion h.1
      | false => exact ih.trans (and_iff_right rfl).symm

theorem innermost_of_slot? (h : slot? name locals = some slot) : Innermost name locals slot := by
  induction locals with
  | nil => cases h
  | cons l locals ih =>
      rw [slot?] at h
      split at h
      · rename_i hl
        obtain rfl := Option.some.inj h
        refine ⟨⟨l, by rw [localAt?_cons, if_pos rfl], hl⟩, fun s l' hs hl' => ?_⟩
        have hlt := lt_of_localAt? hl'
        rw [List.length_cons] at hlt
        omega
      · rename_i hl
        have hlt := slot?_lt_length h
        obtain ⟨⟨l', hl', hname⟩, habove⟩ := ih h
        refine ⟨⟨l', by rw [localAt?_cons, if_neg (Nat.ne_of_lt hlt), hl'], hname⟩, fun s k hs hk => ?_⟩
        rw [localAt?_cons] at hk
        split at hk
        · obtain rfl := Option.some.inj hk
          exact Bool.eq_false_iff.mpr hl
        · exact habove s k hs hk

theorem Innermost.not_lacking (h : Innermost name locals slot) : ¬ Lacking name locals := by
  obtain ⟨⟨l, hl, hname⟩, -⟩ := h
  exact fun hlacking => nomatch hname.symm.trans (hlacking l (mem_of_localAt? hl))

theorem Innermost.unique {slot' : Nat} (h : Innermost name locals slot) (h' : Innermost name locals slot') :
    slot = slot' := by
  obtain ⟨⟨l, hl, hname⟩, habove⟩ := h
  obtain ⟨⟨l', hl', hname'⟩, habove'⟩ := h'
  rcases Nat.lt_trichotomy slot slot' with hlt | rfl | hlt
  · exact nomatch hname'.symm.trans (habove slot' l' hlt hl')
  · rfl
  · exact nomatch hname.symm.trans (habove' slot l hlt hl)

/-! ## Marking it -/

/-- The local in the slot is marked as captured, and no other one changes. -/
theorem localAt?_of_captureSlot? (h : captureSlot? name locals = some (slot, marked)) (s : Nat) :
    localAt? marked s =
      (localAt? locals s).map fun l => if s = slot then { l with captured := true } else l := by
  induction locals generalizing marked with
  | nil => cases h
  | cons l locals ih =>
      rw [captureSlot?] at h
      split at h
      · obtain ⟨rfl, rfl⟩ := Prod.mk.inj (Option.some.inj h)
        rw [localAt?_cons, localAt?_cons]
        split
        · rw [Option.map_some]
        · rw [Option.map_id']
      · obtain ⟨⟨slot', locals'⟩, h', heq⟩ := Option.map_eq_some_iff.mp h
        obtain ⟨rfl, rfl⟩ := Prod.mk.inj heq
        have hlt : slot' < locals.length :=
          slot?_lt_length (by rw [← map_fst_captureSlot?, h', Option.map_some])
        rw [localAt?_cons, localAt?_cons, length_of_captureSlot? h']
        split
        · rename_i hs
          rw [Option.map_some, if_neg (by omega)]
        · exact ih h'

/-- A local that is marked can be marked again. -/
theorem captureSlot?_marked (h : captureSlot? name locals = some (slot, marked)) :
    captureSlot? name marked = some (slot, marked) := by
  induction locals generalizing slot marked with
  | nil => cases h
  | cons l locals ih =>
      rw [captureSlot?] at h
      split at h
      · rename_i hl
        obtain ⟨rfl, rfl⟩ := Prod.mk.inj (Option.some.inj h)
        exact if_pos hl
      · rename_i hl
        obtain ⟨⟨slot', locals'⟩, h', heq⟩ := Option.map_eq_some_iff.mp h
        obtain ⟨rfl, rfl⟩ := Prod.mk.inj heq
        rw [captureSlot?, if_neg hl, ih h', Option.map_some]

/-! ## Taking a capture -/

/-- The place of a capture, or the one it gets when it is added. -/
def place (b : Body) (c : Capture) : Nat :=
  b.captures.toList.idxOf c

/-- The body with the capture added if it does not have it. -/
def taking (b : Body) (c : Capture) : Body :=
  if c ∈ b.captures then b else { b with captures := b.captures.push c }

/-- With this capture, the body would have more different ones than there is room for. -/
def Exceeds (b : Body) (c : Capture) : Prop :=
  c ∉ b.captures ∧ maxCaptures ≤ b.captures.size

/-- A body that may have taken captures, while its locals were marked. -/
structure Extends (b b' : Body) : Prop where
  same : b' = { b with locals := b'.locals, captures := b'.captures }
  keeps : ∀ (i : Nat) (c : Capture), b.captures[i]? = some c → b'.captures[i]? = some c
  distinct : b.captures.toList.Nodup → b'.captures.toList.Nodup
  bounded : b.captures.size ≤ maxCaptures → b'.captures.size ≤ maxCaptures

variable {b b' parent : Body} {outer outer' : List Body} {c c' : Capture} {r : Resolution}

theorem Extends.refl (b : Body) : b.Extends b :=
  ⟨rfl, fun _ _ => id, id, id⟩

theorem idxOf?_eq_some_place (h : c ∈ b.captures) : b.captures.idxOf? c = some (b.place c) := by
  obtain ⟨i, hi⟩ := Option.ne_none_iff_exists'.mp (mt Array.idxOf?_eq_none_iff.mp (not_not_intro h))
  rw [place, List.idxOf_eq_getD_idxOf?, ← List.idxOf?_toArray, Array.toArray_toList, hi, Option.getD_some]

theorem place_eq_size (h : c ∉ b.captures) : b.place c = b.captures.size := by
  rw [place, List.idxOf_eq_length (mt Array.mem_toList_iff.mp h), Array.length_toList]

theorem link_of_exceeds (h : b.Exceeds c) : b.link c = (.full, b) := by
  rw [link, addCapture, Array.idxOf?_eq_none_iff.mpr h.1]
  simp only [if_neg (Nat.not_lt_of_le h.2)]

theorem link_of_not_exceeds (h : ¬ b.Exceeds c) : b.link c = (.found (b.place c), b.taking c) := by
  rw [link, addCapture]
  by_cases hmem : c ∈ b.captures
  · rw [idxOf?_eq_some_place hmem, taking, if_pos hmem]
  · have hroom : b.captures.size < maxCaptures := Nat.lt_of_not_le fun hle => h ⟨hmem, hle⟩
    rw [Array.idxOf?_eq_none_iff.mpr hmem, taking, if_neg hmem, place_eq_size hmem]
    simp only [if_pos hroom]

theorem mem_taking (b : Body) (c : Capture) : c ∈ (b.taking c).captures := by
  rw [taking]
  split
  · assumption
  · exact Array.mem_push_self

theorem taking_taking (b : Body) (c : Capture) : (b.taking c).taking c = b.taking c := by
  rw [taking, if_pos (mem_taking b c)]

theorem captures_taking_place (b : Body) (c : Capture) : (b.taking c).captures[b.place c]? = some c := by
  by_cases hmem : c ∈ b.captures
  · rw [taking, if_pos hmem]
    exact getElem?_of_idxOf? (idxOf?_eq_some_place hmem)
  · rw [taking, if_neg hmem, place_eq_size hmem]
    exact Array.getElem?_push_size

theorem place_taking (b : Body) (c : Capture) : (b.taking c).place c = b.place c := by
  by_cases hmem : c ∈ b.captures
  · rw [taking, if_pos hmem]
  · rw [taking, if_neg hmem, place_eq_size hmem, place, Array.toList_push,
      List.idxOf_append_of_notMem (mt Array.mem_toList_iff.mp hmem), List.idxOf_cons_self, Nat.add_zero,
      Array.length_toList]

theorem locals_taking (b : Body) (c : Capture) : (b.taking c).locals = b.locals := by
  rw [taking]
  split <;> rfl

theorem extends_taking (h : ¬ b.Exceeds c) : b.Extends (b.taking c) := by
  rw [taking]
  split
  · exact .refl b
  · rename_i hmem
    refine ⟨rfl, fun i k hk => ?_, fun hnodup => ?_, fun _ => ?_⟩
    · rw [Array.getElem?_push, if_neg (Nat.ne_of_lt (Array.getElem?_eq_some_iff.mp hk).1)]
      exact hk
    · rw [Array.toList_push]
      exact List.nodup_append_comm.mp (List.nodup_cons.mpr ⟨mt Array.mem_toList_iff.mp hmem, hnodup⟩)
    · rw [Array.size_push]
      exact Nat.lt_of_not_le fun hle => h ⟨hmem, hle⟩

/-! ## The way outwards -/

/-- The capture that a body inside these takes for a name. -/
inductive Takes (name : String) : List Body → Capture → Prop where
  | here {parent : Body} {outer : List Body} {slot : Nat} :
      Innermost name parent.locals slot → Takes name (parent :: outer) ⟨slot, true⟩
  | outwards {parent : Body} {outer : List Body} {c : Capture} :
      Lacking name parent.locals → Takes name outer c →
      Takes name (parent :: outer) ⟨parent.place c, false⟩

/-- Some body on the way from `b` to the variable has no room for the capture that it takes. -/
inductive Overflows (name : String) : Body → List Body → Prop where
  | here {b : Body} {outer : List Body} {c : Capture} :
      Takes name outer c → b.Exceeds c → Overflows name b outer
  | outwards {b parent : Body} {outer : List Body} :
      Lacking name parent.locals → Overflows name parent outer → Overflows name b (parent :: outer)

/-- A name is followed through the bodies `outer`: the capture that leads there, and what they become. -/
inductive Passage (name : String) : List Body → Capture → List Body → Prop where
  | here {parent : Body} {outer : List Body} {slot : Nat} {marked : List Local} :
      captureSlot? name parent.locals = some (slot, marked) →
      Passage name (parent :: outer) ⟨slot, true⟩ ({ parent with locals := marked } :: outer)
  | outwards {parent : Body} {outer : List Body} {c : Capture} {outer' : List Body} :
      captureSlot? name parent.locals = none → Passage name outer c outer' → ¬ parent.Exceeds c →
      Passage name (parent :: outer) ⟨parent.place c, false⟩ (parent.taking c :: outer')

theorem innermost_of_captureSlot? (h : captureSlot? name locals = some (slot, marked)) :
    Innermost name locals slot :=
  innermost_of_slot? (by rw [← map_fst_captureSlot?, h, Option.map_some])

theorem captureSlot?_eq_none_iff : captureSlot? name locals = none ↔ Lacking name locals := by
  rw [← slot?_eq_none_iff, ← map_fst_captureSlot?, Option.map_eq_none_iff]

theorem Takes.unique (h : Takes name outer c) (h' : Takes name outer c') : c = c' := by
  induction h generalizing c' with
  | here hslot =>
      cases h' with
      | here hslot' => rw [hslot.unique hslot']
      | outwards hlacking => exact absurd hlacking hslot.not_lacking
  | outwards hlacking _ ih =>
      cases h' with
      | here hslot => exact absurd hlacking hslot.not_lacking
      | outwards _ h' => rw [ih h']

theorem Takes.not_lacking (h : Takes name outer c) : ∃ p ∈ outer, ¬ Lacking name p.locals := by
  induction h with
  | here hslot => exact ⟨_, List.mem_cons_self, hslot.not_lacking⟩
  | outwards _ _ ih =>
      obtain ⟨p, hp, hnot⟩ := ih
      exact ⟨p, List.mem_cons_of_mem _ hp, hnot⟩

theorem Overflows.not_lacking (h : Overflows name b outer) : ∃ p ∈ outer, ¬ Lacking name p.locals := by
  induction h with
  | here htakes => exact htakes.not_lacking
  | outwards _ _ ih =>
      obtain ⟨p, hp, hnot⟩ := ih
      exact ⟨p, List.mem_cons_of_mem _ hp, hnot⟩

namespace Passage

theorem takes (h : Passage name outer c outer') : Takes name outer c := by
  induction h with
  | here hslot => exact .here (innermost_of_captureSlot? hslot)
  | outwards hnone _ _ ih => exact .outwards (captureSlot?_eq_none_iff.mp hnone) ih

/-- Behind a passage only the first body can lack room. -/
theorem exceeds_of_overflows (h : Passage name outer c outer') (ho : Overflows name b outer) : b.Exceeds c := by
  induction h generalizing b with
  | here hslot =>
      cases ho with
      | here htakes hexceeds => rwa [Takes.unique (.here (innermost_of_captureSlot? hslot)) htakes]
      | outwards hlacking => exact absurd hlacking (innermost_of_captureSlot? hslot).not_lacking
  | outwards hnone hpassage hroom ih =>
      cases ho with
      | here htakes hexceeds =>
          rwa [Takes.unique (.outwards (captureSlot?_eq_none_iff.mp hnone) hpassage.takes) htakes]
      | outwards _ ho => exact absurd (ih ho) hroom

/-- Following the name ends with the capture of the passage. -/
theorem resolve_eq (h : Passage name outer c outer') (b : Body) :
    resolve name b outer = ((b.link c).1, (b.link c).2, outer') := by
  induction h generalizing b with
  | here hslot => rw [resolve, hslot]
  | @outwards parent _ _ _ hnone _ hroom ih =>
      have hrest := ih parent
      rw [link_of_not_exceeds hroom] at hrest
      rw [resolve, hnone, hrest]

/-- The same way again. -/
theorem again (h : Passage name outer c outer') : Passage name outer' c outer' := by
  induction h with
  | here hslot => exact .here (captureSlot?_marked hslot)
  | @outwards parent _ c _ hnone _ _ ih =>
      have hnone' : captureSlot? name (parent.taking c).locals = none := by rwa [locals_taking]
      have hagain := Passage.outwards hnone' ih fun hexceeds => hexceeds.1 (mem_taking parent c)
      rwa [place_taking, taking_taking] at hagain

theorem extends_all (h : Passage name outer c outer') : List.Forall₂ Extends outer outer' := by
  induction h with
  | here => exact .cons ⟨rfl, fun _ _ => id, id, id⟩ (List.forall₂_same.mpr fun b _ => .refl b)
  | outwards _ _ hroom ih => exact .cons (extends_taking hroom) ih

end Passage

/-- A name that no body has leads nowhere and changes nothing. -/
theorem resolve_of_lacking (h : ∀ p ∈ outer, Lacking name p.locals) (b : Body) :
    resolve name b outer = (.absent, b, outer) := by
  induction outer generalizing b with
  | nil => rfl
  | cons parent outer ih =>
      obtain ⟨hparent, houter⟩ := List.forall_mem_cons.mp h
      rw [resolve, captureSlot?_eq_none_iff.mpr hparent, ih houter]

/-- A name leads nowhere, or through the bodies around, or to one of these that is full. -/
theorem passage_cases (name : String) (outer : List Body) :
    (∀ p ∈ outer, Lacking name p.locals) ∨ (∃ c outer', Passage name outer c outer') ∨
      ∀ b, Overflows name b outer ∧ ∃ outer', Body.resolve name b outer = (.full, b, outer') ∧
        List.Forall₂ Extends outer outer' := by
  induction outer with
  | nil => exact .inl nofun
  | cons parent outer ih =>
      cases hslot : captureSlot? name parent.locals with
      | some found => exact .inr (.inl ⟨_, _, .here hslot⟩)
      | none =>
          have hlacking := captureSlot?_eq_none_iff.mp hslot
          rcases ih with hnone | ⟨c, outer', hpassage⟩ | hfull
          · exact .inl (List.forall_mem_cons.mpr ⟨hlacking, hnone⟩)
          · by_cases hexceeds : parent.Exceeds c
            · refine .inr (.inr fun b => ⟨.outwards hlacking (.here hpassage.takes hexceeds),
                parent :: outer', ?_, .cons (.refl parent) hpassage.extends_all⟩)
              rw [resolve, hslot, hpassage.resolve_eq, link_of_exceeds hexceeds]
            · exact .inr (.inl ⟨_, _, .outwards hslot hpassage hexceeds⟩)
          · obtain ⟨hoverflows, outer', hresolve, hextends⟩ := hfull parent
            refine .inr (.inr fun b => ⟨.outwards hlacking hoverflows, parent :: outer', ?_,
              .cons (.refl parent) hextends⟩)
            rw [resolve, hslot, hresolve]

/-! ## Following a name -/

/-- The local in a slot of body number `n`. -/
def localIn? (bodies : List Body) (n slot : Nat) : Option Local :=
  (bodies[n]?).bind (localAt? ·.locals slot)

/-- One local is marked as captured, and no other one changes. -/
def Marks (outer outer' : List Body) (level slot : Nat) : Prop :=
  ∀ n s, localIn? outer' n s = (localIn? outer n s).map fun l =>
    if n = level ∧ s = slot then { l with captured := true } else l

theorem Marks.cons {p p' : Body} {level : Nat} (hp : p'.locals = p.locals)
    (h : Marks outer outer' level slot) : Marks (p :: outer) (p' :: outer') (level + 1) slot := by
  intro n s
  cases n with
  | zero =>
      change localAt? p'.locals s = (localAt? p.locals s).map _
      simp [hp]
  | succ n =>
      change localIn? outer' n s = (localIn? outer n s).map _
      rw [h n s]
      simp only [Nat.succ_inj]

/-- A passage leads to the nearest variable of that name, and marks it. -/
theorem Passage.leads (h : Passage name outer c outer') :
    ∃ level slot, Nearest name outer level slot ∧ Marks outer outer' level slot ∧
      ∀ (cs : List Capture) (k : Nat), cs[k]? = some c →
        Chain (cs :: outer'.map (·.captures.toList)) k level slot := by
  induction h with
  | @here parent outer slot marked hslot =>
      have hholds : ∃ p, (parent :: outer)[0]? = some p ∧ Innermost name p.locals slot :=
        ⟨parent, rfl, innermost_of_captureSlot? hslot⟩
      refine ⟨0, slot, ⟨hholds, nofun⟩, fun n s => ?_, fun _ _ => .here⟩
      cases n with
      | zero =>
          change localAt? marked s = (localAt? parent.locals s).map _
          rw [localAt?_of_captureSlot? hslot]
          simp only [true_and]
      | succ n =>
          change localIn? outer n s = (localIn? outer n s).map _
          simp
  | @outwards parent outer c outer' hnone _ _ ih =>
      obtain ⟨level, slot, ⟨⟨p, hp, hslot⟩, hnearer⟩, hmarks, hchain⟩ := ih
      refine ⟨level + 1, slot, ⟨⟨p, hp, hslot⟩, fun n q hn hq => ?_⟩,
        hmarks.cons (locals_taking parent c), fun cs k hk => .outwards hk (hchain _ _ ?_)⟩
      · cases n with
        | zero =>
            obtain rfl := Option.some.inj hq
            exact captureSlot?_eq_none_iff.mp hnone
        | succ n => exact hnearer n q (Nat.lt_of_succ_lt_succ hn) hq
      · rw [Array.getElem?_toList]
        exact captures_taking_place parent c

/-- What following a name outwards from `b` answers, and what it does to the bodies. -/
structure Follows (name : String) (b : Body) (outer : List Body) (r : Resolution) (b' : Body)
    (outer' : List Body) : Prop where
  /-- It fails when some body on the way has no room for one capture more. -/
  full_iff : r = .full ↔ Overflows name b outer
  /-- Otherwise it finds what there is. -/
  found_iff : r ≠ .full →
    ((∃ i, r = .found i) ↔ ∃ p ∈ outer, ∃ l ∈ p.locals, l.name = name ∧ l.depth.isSome)
  /-- It finds the nearest variable of that name, to which the captures lead then, and marks it alone. -/
  leads : ∀ i, r = .found i → ∃ level slot, Nearest name outer level slot ∧
    Chain ((b' :: outer').map (·.captures.toList)) i level slot ∧ Marks outer outer' level slot
  /-- The place of the capture can be told by a byte. -/
  byte : ∀ i, r = .found i → b.captures.size ≤ maxCaptures → i < maxCaptures
  /-- Captures keep their places, and no other part of a body changes. -/
  grows : List.Forall₂ Extends (b :: outer) (b' :: outer')
  own : b'.locals = b.locals
  absent : r = .absent → b' = b ∧ outer' = outer
  /-- When it has not failed, it can be done again: it answers the same and does nothing more. -/
  again : r ≠ .full → resolve name b' outer' = (r, b', outer')

theorem not_lacking_iff : ¬ Lacking name locals ↔ ∃ l ∈ locals, l.name = name ∧ l.depth.isSome := by
  simp only [Lacking, Local.answersTo, not_forall, Bool.not_eq_false, Bool.and_eq_true, beq_iff_eq,
    exists_prop]

theorem follows_absent (h : ∀ p ∈ outer, Lacking name p.locals) (b : Body) :
    Follows name b outer .absent b outer where
  full_iff := iff_of_false nofun fun ho =>
    have ⟨p, hp, hnot⟩ := ho.not_lacking
    hnot (h p hp)
  found_iff _ := iff_of_false nofun fun ⟨p, hp, hlocal⟩ => not_lacking_iff.mpr hlocal (h p hp)
  leads := nofun
  byte := nofun
  grows := List.forall₂_same.mpr fun b _ => .refl b
  own := rfl
  absent _ := ⟨rfl, rfl⟩
  again _ := resolve_of_lacking h b

theorem Passage.follows (h : Passage name outer c outer') (hroom : ¬ b.Exceeds c) :
    Follows name b outer (.found (b.place c)) (b.taking c) outer' := by
  obtain ⟨level, slot, hnearest, hmarks, hchain⟩ := h.leads
  have hplace := captures_taking_place b c
  have hextends := extends_taking hroom
  refine ⟨iff_of_false nofun fun ho => hroom (h.exceeds_of_overflows ho), fun _ => iff_of_true ⟨_, rfl⟩ ?_,
    fun i hi => ⟨level, slot, hnearest, ?_, hmarks⟩, fun i hi hsize => ?_, .cons hextends h.extends_all,
    locals_taking b c, nofun, fun _ => ?_⟩
  · obtain ⟨p, hp, hnot⟩ := h.takes.not_lacking
    exact ⟨p, hp, not_lacking_iff.mp hnot⟩
  · obtain rfl := Resolution.found.inj hi
    exact hchain _ _ (by rw [Array.getElem?_toList, hplace])
  · obtain rfl := Resolution.found.inj hi
    exact Nat.lt_of_lt_of_le (Array.getElem?_eq_some_iff.mp hplace).1 (hextends.bounded hsize)
  · rw [h.again.resolve_eq, link_of_not_exceeds fun hexceeds => hexceeds.1 (mem_taking b c), place_taking,
      taking_taking]

theorem follows_full (ho : Overflows name b outer) (hextends : List.Forall₂ Extends outer outer') :
    Follows name b outer .full b outer' where
  full_iff := iff_of_true rfl ho
  found_iff := fun h => absurd rfl h
  leads := nofun
  byte := nofun
  grows := .cons (.refl b) hextends
  own := rfl
  absent := nofun
  again := fun h => absurd rfl h

/-- A name is followed to the nearest variable that it can mean, or to the first body without room. -/
theorem follows_resolve (name : String) (b : Body) (outer : List Body) :
    Follows name b outer (resolve name b outer).1 (resolve name b outer).2.1 (resolve name b outer).2.2 := by
  rcases passage_cases name outer with hnone | ⟨c, outer', hpassage⟩ | hfull
  · rw [resolve_of_lacking hnone]
    exact follows_absent hnone b
  · rw [hpassage.resolve_eq]
    by_cases hexceeds : b.Exceeds c
    · rw [link_of_exceeds hexceeds]
      exact follows_full (.here hpassage.takes hexceeds) hpassage.extends_all
    · rw [link_of_not_exceeds hexceeds]
      exact hpassage.follows hexceeds
  · obtain ⟨hoverflows, outer', hresolve, hextends⟩ := hfull b
    rw [hresolve]
    exact follows_full hoverflows hextends

end LoxMachine.Body
