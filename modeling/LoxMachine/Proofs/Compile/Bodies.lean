import Mathlib.Data.List.Forall2
import LoxMachine.Program.Builder

/-!
# Nested bodies

What happens to the bodies around the one being compiled. Following a name outwards marks locals as
captured and adds captures, and changes nothing else (`Grows`). Each capture leads to a captured
local or to a capture of the body around it (`Wired`), so that it has a name (`captureName?`).

Main statement: `resolve_spec`, what resolving a name outwards does and finds.
-/

namespace LoxMachine

/-- The same variable, perhaps newly marked as captured. -/
structure Local.Raised (l l' : Local) : Prop where
  name : l'.name = l.name
  depth : l'.depth = l.depth
  captured : l.captured = true → l'.captured = true

namespace Body

/-- The same variables, some perhaps newly marked as captured. -/
def Raised : List Local → List Local → Prop :=
  List.Forall₂ Local.Raised

/-- The local in a slot. -/
def localAt? (locals : List Local) (slot : Nat) : Option Local :=
  locals.reverse[slot]?

theorem localAt?_cons (l : Local) (locals : List Local) (slot : Nat) :
    localAt? (l :: locals) slot =
      if slot = locals.length then some l else localAt? locals slot := by
  unfold localAt?
  rw [List.reverse_cons, List.getElem?_append, List.length_reverse]
  split
  · rw [if_neg (by omega)]
  · split
    · simp [*]
    · rw [List.getElem?_eq_none (by simp; omega), List.getElem?_eq_none (by simp; omega)]

/-! ## Raising -/

theorem Local.Raised.refl (l : Local) : Local.Raised l l :=
  ⟨rfl, rfl, id⟩

theorem Raised.refl (ls : List Local) : Raised ls ls :=
  List.forall₂_same.mpr fun l _ => Local.Raised.refl l

theorem forall₂_trans {α : Type} {R : α → α → Prop} (hR : ∀ x y z, R x y → R y z → R x z)
    {a b c : List α} (h : List.Forall₂ R a b) (h' : List.Forall₂ R b c) : List.Forall₂ R a c := by
  induction h generalizing c with
  | nil => exact h'
  | cons hx _ ih =>
      obtain _ | ⟨hy, ht⟩ := h'
      exact .cons (hR _ _ _ hx hy) (ih ht)

theorem Local.Raised.trans {a b c : Local} (h : a.Raised b) (h' : b.Raised c) : a.Raised c :=
  ⟨h'.name.trans h.name, h'.depth.trans h.depth, h'.captured ∘ h.captured⟩

theorem Raised.trans {a b c : List Local} (h : Raised a b) (h' : Raised b c) : Raised a c :=
  forall₂_trans (R := Local.Raised) (fun _ _ _ => Local.Raised.trans) h h'

theorem Raised.length {a b : List Local} (h : Raised a b) : b.length = a.length :=
  (List.Forall₂.length_eq h).symm

theorem Raised.mem {a b : List Local} (h : Raised a b) {l' : Local} (hl : l' ∈ b) :
    ∃ l ∈ a, l.Raised l' := by
  induction h with
  | nil => cases hl
  | cons hr _ ih =>
      rcases List.mem_cons.mp hl with rfl | hl
      · exact ⟨_, List.mem_cons_self, hr⟩
      · obtain ⟨l, hl, hr'⟩ := ih hl
        exact ⟨l, List.mem_cons_of_mem _ hl, hr'⟩

/-- Names are looked up alike. -/
theorem Raised.slot? {a b : List Local} (h : Raised a b) (name : String) :
    Body.slot? name b = Body.slot? name a := by
  induction h with
  | nil => rfl
  | cons hl ht ih =>
      rw [Body.slot?, Body.slot?, ih, Raised.length ht, Local.answersTo, Local.answersTo, hl.name,
        hl.depth]

theorem Raised.localAt? {a b : List Local} (h : Raised a b) {slot : Nat} {l : Local}
    (hl : Body.localAt? a slot = some l) : ∃ l', Body.localAt? b slot = some l' ∧ l.Raised l' := by
  induction h with
  | nil => simp [Body.localAt?] at hl
  | cons hr ht ih =>
      rw [localAt?_cons] at hl ⊢
      rw [Raised.length ht]
      split at hl
      · rename_i heq
        obtain rfl := Option.some.inj hl
        exact ⟨_, if_pos heq, hr⟩
      · rename_i hne
        obtain ⟨l', hl', hr'⟩ := ih hl
        exact ⟨l', (if_neg hne).trans hl', hr'⟩

/-- What stands behind the newest locals is raised along. -/
theorem Raised.append {new old b : List Local} (h : Raised (new ++ old) b) :
    ∃ new' old', b = new' ++ old' ∧ Raised new new' ∧ Raised old old' := by
  induction new generalizing b with
  | nil => exact ⟨[], b, rfl, .nil, h⟩
  | cons l new ih =>
      obtain _ | ⟨hl, ht⟩ := h
      obtain ⟨new', old', rfl, hn, ho⟩ := ih ht
      exact ⟨_ :: new', old', rfl, .cons hl hn, ho⟩

/-- The locals of the lowest `n` slots. -/
def oldest (n : Nat) (locals : List Local) : List Local :=
  locals.drop (locals.length - n)

theorem oldest_append {n : Nat} {new old : List Local} (h : old.length = n) :
    oldest n (new ++ old) = old := by
  rw [oldest, List.length_append, ← h, Nat.add_sub_cancel]
  exact List.drop_left

theorem oldest_cons {n : Nat} {l : Local} {old : List Local} (h : old.length = n) :
    oldest n (l :: old) = old :=
  (congrArg (oldest n) List.singleton_append).symm.trans (oldest_append h)

theorem oldest_length {n : Nat} {locals : List Local} (h : locals.length = n) :
    oldest n locals = locals := by
  rw [oldest, h, Nat.sub_self, List.drop_zero]

theorem length_oldest {n : Nat} {locals : List Local} (h : n ≤ locals.length) :
    (oldest n locals).length = n := by
  rw [oldest, List.length_drop]
  omega

theorem oldest_oldest {m n : Nat} {locals : List Local} (hmn : m ≤ n) (hn : n ≤ locals.length) :
    oldest m (oldest n locals) = oldest m locals := by
  rw [oldest, length_oldest hn, oldest, oldest, List.drop_drop]
  congr 1
  omega

theorem slot?_localAt? {name : String} {locals : List Local} {slot : Nat}
    (h : slot? name locals = some slot) :
    ∃ l, localAt? locals slot = some l ∧ l.name = name ∧ l.depth.isSome = true := by
  induction locals with
  | nil => cases h
  | cons l locals ih =>
      rw [slot?] at h
      rw [localAt?_cons]
      split at h
      · rename_i hl
        obtain rfl := Option.some.inj h
        rw [if_pos rfl]
        simp only [Local.answersTo, Bool.and_eq_true, beq_iff_eq] at hl
        exact ⟨l, rfl, hl⟩
      · rw [if_neg (Nat.ne_of_lt (slot?_lt_length h))]
        exact ih h

/-- Marking a local as captured raises it alone. -/
theorem captureSlot?_spec {name : String} {locals marked : List Local} {slot : Nat}
    (h : captureSlot? name locals = some (slot, marked)) :
    Raised locals marked ∧
      ∃ l, localAt? marked slot = some l ∧ l.name = name ∧ l.captured = true := by
  induction locals generalizing marked with
  | nil => cases h
  | cons l locals ih =>
      rw [captureSlot?] at h
      split at h
      · rename_i hl
        obtain ⟨rfl, rfl⟩ := Prod.mk.inj (Option.some.inj h)
        rw [Local.answersTo, Bool.and_eq_true, beq_iff_eq] at hl
        refine ⟨.cons ⟨rfl, rfl, fun _ => rfl⟩ (Raised.refl locals), { l with captured := true }, ?_,
          hl.1, rfl⟩
        rw [localAt?_cons, if_pos rfl]
      · obtain ⟨⟨slot', locals'⟩, h', heq⟩ := Option.map_eq_some_iff.mp h
        obtain ⟨rfl, rfl⟩ := Prod.mk.inj heq
        obtain ⟨hr, l', hl', hname, hcaptured⟩ := ih h'
        have hlt : slot' < locals'.length := by
          have := (List.getElem?_eq_some_iff.mp hl').1
          simpa using this
        refine ⟨.cons (Local.Raised.refl l) hr, l', ?_, hname, hcaptured⟩
        rw [localAt?_cons, if_neg (Nat.ne_of_lt hlt)]
        exact hl'

theorem captureSlot?_eq_none {name : String} {locals : List Local}
    (h : captureSlot? name locals = none) : slot? name locals = none := by
  rw [← map_fst_captureSlot?, h]
  rfl

/-! ## Growing -/

/-- What resolving names in the functions inside it does to a body. -/
structure Grows (b b' : Body) : Prop where
  kind : b'.kind = b.kind
  name : b'.name = b.name
  arity : b'.arity = b.arity
  chunk : b'.chunk = b.chunk
  depth : b'.depth = b.depth
  locals : Raised b.locals b'.locals
  captures : ∀ (i : Nat) (c : Capture), b.captures[i]? = some c → b'.captures[i]? = some c

theorem Grows.refl (b : Body) : Grows b b :=
  ⟨rfl, rfl, rfl, rfl, rfl, Raised.refl _, fun _ _ => id⟩

theorem Grows.trans {a b c : Body} (h : Grows a b) (h' : Grows b c) : Grows a c :=
  ⟨h'.kind.trans h.kind, h'.name.trans h.name, h'.arity.trans h.arity, h'.chunk.trans h.chunk,
    h'.depth.trans h.depth, h.locals.trans h'.locals, fun i c hc => h'.captures i c (h.captures i c hc)⟩

/-- Bodies that grow one by one. -/
def GrowAll : List Body → List Body → Prop :=
  List.Forall₂ Grows

theorem GrowAll.refl (bs : List Body) : GrowAll bs bs :=
  List.forall₂_same.mpr fun b _ => Grows.refl b

theorem GrowAll.trans {a b c : List Body} (h : GrowAll a b) (h' : GrowAll b c) : GrowAll a c :=
  forall₂_trans (R := Grows) (fun _ _ _ => Grows.trans) h h'

theorem GrowAll.mem {a b : List Body} (h : GrowAll a b) {x : Body} (hx : x ∈ a) :
    ∃ y ∈ b, Grows x y := by
  induction h with
  | nil => cases hx
  | cons hg _ ih =>
      rcases List.mem_cons.mp hx with rfl | hx
      · exact ⟨_, List.mem_cons_self, hg⟩
      · obtain ⟨y, hy, hg'⟩ := ih hx
        exact ⟨y, List.mem_cons_of_mem _ hy, hg'⟩

theorem GrowAll.of_mem {a b : List Body} (h : GrowAll a b) {y : Body} (hy : y ∈ b) :
    ∃ x ∈ a, Grows x y := by
  induction h with
  | nil => cases hy
  | cons hg _ ih =>
      rcases List.mem_cons.mp hy with rfl | hy
      · exact ⟨_, List.mem_cons_self, hg⟩
      · obtain ⟨x, hx, hg'⟩ := ih hy
        exact ⟨x, List.mem_cons_of_mem _ hx, hg'⟩

/-! ## Captures -/

/-- A capture leads to something in the body around it. -/
def Linked (parent : Body) (c : Capture) : Prop :=
  if c.fromLocal then ∃ l, localAt? parent.locals c.index = some l ∧ l.captured = true
  else c.index < parent.captures.size

/-- All captures of a body and of those around it lead somewhere. -/
def Wired (b : Body) : List Body → Prop
  | [] => b.captures = #[]
  | parent :: outer => (∀ c ∈ b.captures, Linked parent c) ∧ Wired parent outer

/-- The name of the variable that a capture leads to. -/
def captureName? : List Body → Capture → Option String
  | [], _ => none
  | parent :: outer, c =>
    if c.fromLocal then (localAt? parent.locals c.index).map (·.name)
    else (parent.captures[c.index]?).bind (captureName? outer)

/-- The name of a captured variable by its place in the list of captures. -/
def capturedName? (b : Body) (outer : List Body) (i : Nat) : Option String :=
  (b.captures[i]?).bind (captureName? outer)

theorem Linked.grows {parent parent' : Body} (h : Grows parent parent') {c : Capture}
    (hc : Linked parent c) : Linked parent' c := by
  unfold Linked at *
  split
  · rename_i hl
    obtain ⟨l, hl, hcaptured⟩ := if_pos hl ▸ hc
    obtain ⟨l', hl', hr⟩ := h.locals.localAt? hl
    exact ⟨l', hl', hr.captured hcaptured⟩
  · rename_i hl
    rw [if_neg hl] at hc
    have := h.captures c.index _ (Array.getElem?_eq_getElem hc)
    exact (Array.getElem?_eq_some_iff.mp this).1

theorem captureName?_growAll {outer outer' : List Body} (h : GrowAll outer outer') {c : Capture}
    {name : String} (hc : captureName? outer c = some name) :
    captureName? outer' c = some name := by
  induction h generalizing c with
  | nil => exact hc
  | cons hg _ ih =>
      rw [captureName?] at hc ⊢
      split
      · rename_i hl
        rw [if_pos hl] at hc
        obtain ⟨l, hl, rfl⟩ := Option.map_eq_some_iff.mp hc
        obtain ⟨l', hl', hr⟩ := hg.locals.localAt? hl
        rw [hl', Option.map_some, hr.name]
      · rename_i hl
        rw [if_neg hl] at hc
        obtain ⟨c', hc', hname⟩ := Option.bind_eq_some_iff.mp hc
        rw [hg.captures _ _ hc', Option.bind_some]
        exact ih hname

theorem capturedName?_grows {b b' : Body} {outer outer' : List Body}
    (hb : ∀ (i : Nat) (c : Capture), b.captures[i]? = some c → b'.captures[i]? = some c)
    (h : GrowAll outer outer') {i : Nat} {name : String}
    (hi : capturedName? b outer i = some name) : capturedName? b' outer' i = some name := by
  obtain ⟨c, hc, hname⟩ := Option.bind_eq_some_iff.mp hi
  rw [capturedName?, hb i c hc]
  exact captureName?_growAll h hname

/-- Every capture of a wired body has a name. -/
theorem Wired.capturedName? {b : Body} {outer : List Body} (h : Wired b outer) {i : Nat}
    (hi : i < b.captures.size) : ∃ name, Body.capturedName? b outer i = some name := by
  induction outer generalizing b i with
  | nil =>
      rw [Wired] at h
      rw [h] at hi
      exact absurd hi (Nat.not_lt_zero i)
  | cons parent outer ih =>
      obtain ⟨hlinked, hparent⟩ := h
      have hc := hlinked _ (Array.getElem_mem hi)
      rw [Body.capturedName?, Array.getElem?_eq_getElem hi, Option.bind_some, captureName?]
      unfold Linked at hc
      split at hc
      · rename_i hl
        obtain ⟨l, hat, -⟩ := hc
        exact ⟨l.name, by rw [if_pos hl, hat]; rfl⟩
      · rename_i hl
        rw [if_neg hl]
        exact ih hparent hc

/-! ## Chains of captures -/

/-- What the functions inside a function see of it: the locals it has where they begin, and its
captures. -/
structure Enclosing where
  locals : List Local
  captures : List Capture

def enclosing (b : Body) : Enclosing :=
  ⟨b.locals, b.captures.toList⟩

/-- The captures that a name takes on its way outwards through the functions around it: links
through functions without such a variable, and then the slot of the variable in the first function
that has one. -/
inductive Leads (name : String) : List Enclosing → Capture → Prop where
  | here {E Es slot} : slot? name E.locals = some slot → Leads name (E :: Es) ⟨slot, true⟩
  | outwards {E Es n c} : slot? name E.locals = none → E.captures[n]? = some c → Leads name Es c →
      Leads name (E :: Es) ⟨n, false⟩

/-- A body seen from inside, perhaps later, when it has grown. -/
structure Becomes (b : Body) (E : Enclosing) : Prop where
  locals : Raised b.locals E.locals
  captures : ∀ (n : Nat) (c : Capture), b.captures[n]? = some c → E.captures[n]? = some c

theorem becomes_enclosing (b : Body) : b.Becomes b.enclosing :=
  ⟨Raised.refl _, fun n c hc => by rw [enclosing, Array.getElem?_toList, hc]⟩

theorem becomes_enclosings (bs : List Body) : List.Forall₂ Becomes bs (bs.map enclosing) :=
  List.forall₂_map_right_iff.mpr (List.forall₂_same.mpr fun b _ => becomes_enclosing b)

theorem Grows.becomes {b b' : Body} {E : Enclosing} (h : Grows b b') (h' : b'.Becomes E) :
    b.Becomes E :=
  ⟨h.locals.trans h'.locals, fun n c hc => h'.captures n c (h.captures n c hc)⟩

theorem GrowAll.becomes {bs bs' : List Body} {Es : List Enclosing} (h : GrowAll bs bs')
    (h' : List.Forall₂ Becomes bs' Es) : List.Forall₂ Becomes bs Es := by
  induction h generalizing Es with
  | nil => exact h'
  | cons hg _ ih =>
      obtain _ | ⟨hb, ht⟩ := h'
      exact .cons (hg.becomes hb) (ih ht)

theorem becomes_of_mem {bs : List Body} {Es : List Enclosing} (h : List.Forall₂ Becomes bs Es)
    {E : Enclosing} (hE : E ∈ Es) : ∃ b ∈ bs, b.Becomes E := by
  induction h with
  | nil => cases hE
  | cons hb _ ih =>
      rcases List.mem_cons.mp hE with rfl | hE
      · exact ⟨_, List.mem_cons_self, hb⟩
      · obtain ⟨b, hmem, hb'⟩ := ih hE
        exact ⟨b, List.mem_cons_of_mem _ hmem, hb'⟩

theorem Leads.becomes {name : String} {bs : List Body} {Es : List Enclosing} {c : Capture}
    (h : Leads name (bs.map enclosing) c) (hb : List.Forall₂ Becomes bs Es) : Leads name Es c := by
  induction hb generalizing c with
  | nil => exact h
  | cons hE _ ih =>
      cases h with
      | here hslot => exact .here ((hE.locals.slot? name).trans hslot)
      | outwards hslot hc hleads =>
          rw [enclosing, Array.getElem?_toList] at hc
          exact .outwards ((hE.locals.slot? name).trans hslot) (hE.captures _ _ hc) (ih hleads)

theorem Leads.growAll {name : String} {bs bs' : List Body} {c : Capture}
    (h : Leads name (bs.map enclosing) c) (hg : GrowAll bs bs') :
    Leads name (bs'.map enclosing) c :=
  h.becomes (hg.becomes (becomes_enclosings bs'))

/-! ## Room -/

/-- Slots, captures and constants of a body can be numbered by a byte. -/
structure Fits (b : Body) : Prop where
  locals : b.locals.length ≤ maxLocals
  captures : b.captures.size ≤ maxCaptures
  constants : b.chunk.constants.size ≤ Chunk.maxConstants

theorem getElem?_of_idxOf? {α : Type} [BEq α] [LawfulBEq α] {xs : Array α} {a : α} {i : Nat}
    (h : xs.idxOf? a = some i) : xs[i]? = some a := by
  obtain ⟨j, hj, rfl⟩ := Option.map_eq_some_iff.mp h
  rw [Array.finIdxOf?_eq_some_iff] at hj
  rw [Array.getElem?_eq_getElem j.isLt, ← hj.1]
  rfl

theorem addCapture_spec {b b' : Body} {c : Capture} {r : Option Nat}
    (h : b.addCapture c = (r, b')) :
    Grows b b' ∧ (b.Fits → b'.Fits) ∧ (∀ x ∈ b'.captures, x ∈ b.captures ∨ x = c ∧ r.isSome) ∧
      ∀ i, r = some i → b'.captures[i]? = some c := by
  rw [addCapture] at h
  split at h
  · rename_i i hi
    obtain ⟨rfl, rfl⟩ := Prod.mk.inj h
    refine ⟨Grows.refl b, id, fun _ => Or.inl, fun j hj => ?_⟩
    obtain rfl := Option.some.inj hj
    exact getElem?_of_idxOf? hi
  · split at h
    · rename_i hroom
      obtain ⟨rfl, rfl⟩ := Prod.mk.inj h
      refine ⟨⟨rfl, rfl, rfl, rfl, rfl, Raised.refl _, fun i x hx => ?_⟩, fun hf => ?_, ?_, ?_⟩
      · have hlt := (Array.getElem?_eq_some_iff.mp hx).1
        rw [Array.getElem?_push, if_neg (Nat.ne_of_lt hlt)]
        exact hx
      · exact ⟨hf.locals, by rw [Array.size_push]; exact hroom, hf.constants⟩
      · intro x hx
        exact (Array.mem_push.mp hx).imp id fun h => ⟨h, rfl⟩
      · intro i hi
        obtain rfl := Option.some.inj hi
        exact Array.getElem?_push_size
    · obtain ⟨rfl, rfl⟩ := Prod.mk.inj h
      exact ⟨Grows.refl b, id, fun _ => Or.inl, fun _ hi => nomatch hi⟩

theorem link_spec {b b' : Body} {c : Capture} {r : Resolution} (h : b.link c = (r, b')) :
    Grows b b' ∧ (b.Fits → b'.Fits) ∧
      (∀ x ∈ b'.captures, x ∈ b.captures ∨ x = c) ∧ r ≠ .absent ∧
      ∀ i, r = .found i → b'.captures[i]? = some c := by
  rw [link] at h
  cases hadd : b.addCapture c with
  | mk found added =>
      obtain ⟨hg, hf, hm, hi⟩ := addCapture_spec hadd
      rw [hadd] at h
      cases found <;> obtain ⟨rfl, rfl⟩ := Prod.mk.inj h
      · exact ⟨hg, hf, fun x hx => (hm x hx).imp id And.left, nofun, nofun⟩
      · refine ⟨hg, hf, fun x hx => (hm x hx).imp id And.left, nofun, fun i heq => ?_⟩
        obtain rfl := Resolution.found.inj heq
        exact hi _ rfl

/-! ## Resolving -/

/-- Only the captures of a body have to lead somewhere. -/
theorem Wired.congr {b b' : Body} {outer : List Body} (h : b'.captures = b.captures)
    (hw : Wired b outer) : Wired b' outer := by
  cases outer with
  | nil => exact h.trans hw
  | cons parent outer => exact ⟨fun c hc => hw.1 c (h ▸ hc), hw.2⟩

/-- What resolving a name in the bodies around `b` does to the bodies, and what it finds. -/
structure Resolved (name : String) (b : Body) (outer : List Body) (r : Resolution) (b' : Body)
    (outer' : List Body) : Prop where
  body : Grows b b'
  around : GrowAll outer outer'
  fits : b.Fits → b'.Fits
  fitAll : (∀ x ∈ outer, x.Fits) → ∀ x ∈ outer', x.Fits
  wired : Wired b outer → Wired b' outer'
  found : ∀ i, r = .found i → capturedName? b' outer' i = some name
  leads : ∀ i, r = .found i →
    ∃ c, b'.captures[i]? = some c ∧ Leads name (outer'.map enclosing) c
  alone : outer = [] → r = .absent
  absent : r = .absent → ∀ x ∈ outer, slot? name x.locals = none

section Resolved

variable {name : String} {b parent parent' : Body} {outer outer' : List Body} {r : Resolution}

/-- The nearest body around has the variable. -/
theorem resolved_of_local {slot : Nat} {locals : List Local}
    (hslot : captureSlot? name parent.locals = some (slot, locals)) :
    Resolved name b (parent :: outer) (b.link ⟨slot, true⟩).1 (b.link ⟨slot, true⟩).2
      ({ parent with locals } :: outer) := by
  obtain ⟨hr, l, hl, rfl, hcaptured⟩ := captureSlot?_spec hslot
  obtain ⟨hg, hf, hm, hne, hi⟩ := link_spec (Prod.eta (b.link ⟨slot, true⟩)).symm
  have hparent : Grows parent { parent with locals } := ⟨rfl, rfl, rfl, rfl, rfl, hr, fun _ _ => id⟩
  refine ⟨hg, .cons hparent (GrowAll.refl outer), hf, fun hfit x hx => ?_, fun hw => ⟨fun c hc => ?_, ?_⟩,
    fun i heq => ?_, fun i heq => ⟨_, hi i heq, .here ?_⟩, nofun, fun heq => absurd heq hne⟩
  · rcases List.mem_cons.mp hx with rfl | hx
    · have := hfit parent List.mem_cons_self
      exact ⟨hr.length ▸ this.locals, this.captures, this.constants⟩
    · exact hfit x (List.mem_cons_of_mem _ hx)
  · rcases hm c hc with hc | rfl
    · exact (hw.1 c hc).grows hparent
    · exact ⟨l, hl, hcaptured⟩
  · exact Wired.congr (b := parent) rfl hw.2
  · rw [capturedName?, hi i heq, Option.bind_some, captureName?, if_pos rfl, hl]
    rfl
  · rw [enclosing, hr.slot?, ← map_fst_captureSlot?, hslot]
    rfl

theorem Resolved.fit_cons (h : Resolved name parent outer r parent' outer')
    (hfit : ∀ x ∈ parent :: outer, x.Fits) : ∀ x ∈ parent' :: outer', x.Fits := by
  intro x hx
  rcases List.mem_cons.mp hx with rfl | hx
  · exact h.fits (hfit parent List.mem_cons_self)
  · exact h.fitAll (fun y hy => hfit y (List.mem_cons_of_mem _ hy)) x hx

/-- The nearest body around captures the variable itself. -/
theorem Resolved.outwards {i : Nat} (h : Resolved name parent outer (.found i) parent' outer')
    (hslot : captureSlot? name parent.locals = none) :
    Resolved name b (parent :: outer) (b.link ⟨i, false⟩).1 (b.link ⟨i, false⟩).2 (parent' :: outer') := by
  obtain ⟨hg, hf, hm, hne, hj⟩ := link_spec (Prod.eta (b.link ⟨i, false⟩)).symm
  refine ⟨hg, .cons h.body h.around, hf, h.fit_cons, fun hw => ⟨fun c hc => ?_, h.wired hw.2⟩,
    fun j heq => ?_, fun j heq => ?_, nofun, fun heq => absurd heq hne⟩
  · rcases hm c hc with hc | rfl
    · exact (hw.1 c hc).grows h.body
    · obtain ⟨c', hc', -⟩ := Option.bind_eq_some_iff.mp (h.found i rfl)
      exact (Array.getElem?_eq_some_iff.mp hc').1
  · rw [capturedName?, hj j heq, Option.bind_some, captureName?, if_neg nofun]
    exact h.found i rfl
  · obtain ⟨c, hc, hleads⟩ := h.leads i rfl
    refine ⟨_, hj j heq, .outwards ?_ ?_ hleads⟩
    · rw [enclosing, h.body.locals.slot?]
      exact captureSlot?_eq_none hslot
    · rw [enclosing, Array.getElem?_toList, hc]

/-- The name leads nowhere, or a body on the way has no room. -/
theorem Resolved.unlinked (h : Resolved name parent outer r parent' outer')
    (hslot : captureSlot? name parent.locals = none) (hr : ∀ i, r ≠ .found i) :
    Resolved name b (parent :: outer) r b (parent' :: outer') := by
  refine ⟨Grows.refl b, .cons h.body h.around, id, h.fit_cons, fun hw => ⟨fun c hc => (hw.1 c hc).grows h.body,
    h.wired hw.2⟩, fun i heq => absurd heq (hr i), fun i heq => absurd heq (hr i), nofun, fun heq x hx => ?_⟩
  rcases List.mem_cons.mp hx with rfl | hx
  · exact captureSlot?_eq_none hslot
  · exact h.absent heq x hx

end Resolved

theorem resolve_spec {name : String} {b b' : Body} {outer outer' : List Body} {r : Resolution}
    (h : resolve name b outer = (r, b', outer')) : Resolved name b outer r b' outer' := by
  induction outer generalizing b r b' outer' with
  | nil =>
      simp only [resolve, Prod.mk.injEq] at h
      obtain ⟨rfl, rfl, rfl⟩ := h
      exact ⟨Grows.refl b, .nil, id, fun h => h, id, nofun, nofun, fun _ => rfl, fun _ => nofun⟩
  | cons parent outer ih =>
      rw [resolve] at h
      cases hslot : captureSlot? name parent.locals with
      | some found =>
          simp only [hslot, Prod.mk.injEq] at h
          obtain ⟨rfl, rfl, rfl⟩ := h
          exact resolved_of_local hslot
      | none =>
          have hparent := ih (rfl : resolve name parent outer = _)
          generalize resolve name parent outer = rest at h hparent
          obtain ⟨answer, parent', outer''⟩ := rest
          simp only [hslot] at h
          cases answer with
          | found i =>
              simp only [Prod.mk.injEq] at h
              obtain ⟨rfl, rfl, rfl⟩ := h
              exact hparent.outwards hslot
          | absent | full =>
              simp only [Prod.mk.injEq] at h
              obtain ⟨rfl, rfl, rfl⟩ := h
              exact hparent.unlinked hslot nofun

end Body

end LoxMachine
