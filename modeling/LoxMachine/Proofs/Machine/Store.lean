import LoxMachine.Machine.Run

/-!
# The store, looked up

What the methods of classes and the fields of objects are after each change of the store.
-/

namespace LoxMachine.Store

open Std (HashMap)

variable {α : Type} (s : Store)

/-- Looking a key up in a table that has been changed. -/
theorem lookup_modify (tables : Array (HashMap String α)) (i j : Nat)
    (f : HashMap String α → HashMap String α) (key : String) :
    ((tables.modify i f)[j]?).bind (·[key]?) =
      if i = j then (tables[j]?).bind (fun t => (f t)[key]?) else (tables[j]?).bind (·[key]?) := by
  rw [Array.getElem?_modify]
  split
  · rw [Option.bind_map]
    rfl
  · rfl

/-- A new table is as empty as one that is missing. -/
theorem lookup_push (tables : Array (HashMap String α)) (j : Nat) (key : String) :
    ((tables.push ∅)[j]?).bind (·[key]?) = (tables[j]?).bind (·[key]?) := by
  rw [Array.getElem?_push]
  split
  · subst j
    simp
  · rfl

@[simp] theorem method?_newClass (name : String) (c : Class) (key : String) :
    (s.newClass name).2.method? c key = s.method? c key :=
  lookup_push s.methods c.id key

@[simp] theorem field?_newObject (c : Class) (o : Object) (key : String) :
    (s.newObject c).2.field? o key = s.field? o key :=
  lookup_push s.fields o.id key

theorem method?_setMethod (c : Class) (name : String) (f : Closure) (c' : Class) (key : String) :
    (s.setMethod c name f).method? c' key =
      if c.id = c'.id ∧ c.id < s.methods.size ∧ name = key then some f else s.method? c' key := by
  rw [method?, setMethod, lookup_modify, method?]
  by_cases hid : c.id = c'.id
  · rw [if_pos hid, ← hid]
    by_cases hlt : c.id < s.methods.size
    · by_cases hname : name = key
      · simp [hlt, hname]
      · simp [hlt, hname, HashMap.getElem?_insert]
    · simp [hlt]
  · rw [if_neg hid, if_neg fun h => hid h.1]

theorem field?_setField (o : Object) (name : String) (v : Value) (o' : Object) (key : String) :
    (s.setField o name v).field? o' key =
      if o.id = o'.id ∧ o.id < s.fields.size ∧ name = key then some v else s.field? o' key := by
  rw [field?, setField, lookup_modify, field?]
  by_cases hid : o.id = o'.id
  · rw [if_pos hid, ← hid]
    by_cases hlt : o.id < s.fields.size
    · by_cases hname : name = key
      · simp [hlt, hname]
      · simp [hlt, hname, HashMap.getElem?_insert]
    · simp [hlt]
  · rw [if_neg hid, if_neg fun h => hid h.1]

/-- A class that inherits has the methods of its parent first. -/
theorem method?_inherit (parent child c : Class) (key : String) :
    (s.inherit parent child).method? c key =
      if child.id = c.id ∧ child.id < s.methods.size then
        (s.method? parent key).or (s.method? c key)
      else s.method? c key := by
  have hparent : (s.methods[parent.id]?.getD ∅)[key]? = s.method? parent key := by
    rw [method?]
    cases s.methods[parent.id]? <;> simp
  have hc : s.method? c key = (s.methods[c.id]?).bind (·[key]?) := rfl
  rw [method?, Store.inherit, lookup_modify, hc]
  by_cases hid : child.id = c.id
  · rw [if_pos hid, ← hid]
    by_cases hlt : child.id < s.methods.size
    · simp [hlt, HashMap.getElem?_union, hparent]
    · simp [hlt]
  · rw [if_neg hid, if_neg fun h => hid h.1]

end LoxMachine.Store
