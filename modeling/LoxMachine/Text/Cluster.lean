import LoxMachine.Unicode.BreakClass

/-!
# Clusters

Text is read in user-perceived characters: maximal runs of characters that belong together, such as
a letter with its accents, a carriage return with its line feed, a family of pictographs or a flag.
`clusters` cuts a text; whether two neighbours stay together depends on the classes of both and on
how the open cluster ends (`Ending`). The cut loses nothing (`flatten_clusters`) and makes no empty
cluster (`ne_nil_of_mem_clusters`).
-/

namespace LoxMachine.Text

open Unicode (BreakClass)

/-- The characters of one cluster, in order. -/
abbrev Cluster := List Char

/-! ## Where a cluster ends -/

/-- What the end of the open cluster still can join, beyond its last character. -/
inductive Ending where
  | plain
  /-- A pictograph and marks on it. -/
  | pictograph
  /-- The same and a joiner. -/
  | joinedPictograph
  /-- A consonant and marks on it, a linker among them or not. -/
  | conjunct (linked : Bool)
  /-- An odd number of flag halves. -/
  | halfFlag
deriving DecidableEq, Repr

def Ending.extend (e : Ending) : Ending :=
  match e with
  | .halfFlag | .joinedPictograph => .plain
  | e => e

def Ending.push (e : Ending) : BreakClass → Ending
  | .pictograph => .pictograph
  | .consonant => .conjunct false
  | .regional => if e = .halfFlag then .plain else .halfFlag
  | .extend => e.extend
  | .linker =>
    match e with
    | .conjunct _ => .conjunct true
    | e => e.extend
  | .nonJoiner =>
    match e with
    | .pictograph => .pictograph
    | _ => .plain
  | .joiner =>
    match e with
    | .pictograph => .joinedPictograph
    | .conjunct linked => .conjunct linked
    | _ => .plain
  | _ => .plain

/-- Whether no cut falls between a character of class `last`, which ends a cluster in `e`, and a
character of class `next`. -/
def joins (last : BreakClass) (e : Ending) (next : BreakClass) : Bool :=
  match last, next with
  | .carriageReturn, .lineFeed => true
  | .carriageReturn, _ | .lineFeed, _ | .control, _ => false
  | _, .carriageReturn | _, .lineFeed | _, .control => false
  | .hangulL, .hangulL | .hangulL, .hangulV | .hangulL, .hangulLV | .hangulL, .hangulLVT => true
  | .hangulLV, .hangulV | .hangulLV, .hangulT | .hangulV, .hangulV | .hangulV, .hangulT => true
  | .hangulLVT, .hangulT | .hangulT, .hangulT => true
  | _, .extend | _, .linker | _, .nonJoiner | _, .joiner | _, .spacing => true
  | .prepended, _ => true
  | _, .consonant => e = .conjunct true
  | _, .pictograph => e = .joinedPictograph
  | _, .regional => e = .halfFlag
  | _, _ => false

/-! ## Cutting a text -/

/-- A text being cut: the clusters found, last first, and the open one, its characters in reverse,
with the class of its last character. -/
structure Cutter where
  found : List Cluster := []
  openChars : List Char := []
  last : BreakClass := .control
  ending : Ending := .plain

namespace Cutter

def close (k : Cutter) : List Cluster :=
  if k.openChars.isEmpty then k.found else k.openChars.reverse :: k.found

def push (k : Cutter) (c : Char) : Cutter :=
  let next := BreakClass.of c
  if joins k.last k.ending next then
    { k with openChars := c :: k.openChars, last := next, ending := k.ending.push next }
  else
    { found := k.close, openChars := [c], last := next, ending := Ending.plain.push next }

end Cutter

def clusters (text : List Char) : List Cluster :=
  (text.foldl Cutter.push {}).close.reverse

/-! ## The cut loses nothing -/

theorem Cutter.flatten_close (k : Cutter) :
    k.close.reverse.flatten = k.found.reverse.flatten ++ k.openChars.reverse := by
  unfold Cutter.close
  split <;> simp_all

theorem Cutter.flatten_push (k : Cutter) (c : Char) :
    (k.push c).close.reverse.flatten = k.close.reverse.flatten ++ [c] := by
  rw [flatten_close, flatten_close]
  simp only [Cutter.push]
  split
  · simp
  · simp [flatten_close]

theorem Cutter.flatten_foldl (text : List Char) (k : Cutter) :
    (text.foldl Cutter.push k).close.reverse.flatten = k.close.reverse.flatten ++ text := by
  induction text generalizing k with
  | nil => simp
  | cons c text ih => rw [List.foldl_cons, ih, Cutter.flatten_push]; simp

theorem flatten_clusters (text : List Char) : (clusters text).flatten = text := by
  rw [clusters, Cutter.flatten_foldl]
  simp [Cutter.close]

theorem Cutter.ne_nil_of_mem_close {k : Cutter} (h : ∀ g ∈ k.found, g ≠ []) :
    ∀ g ∈ k.close, g ≠ [] := by
  unfold Cutter.close
  split
  · exact h
  · intro g hg
    rcases List.mem_cons.mp hg with rfl | hg
    · simp_all
    · exact h g hg

theorem Cutter.ne_nil_of_mem_foldl (text : List Char) {k : Cutter}
    (h : ∀ g ∈ k.found, g ≠ []) : ∀ g ∈ (text.foldl Cutter.push k).found, g ≠ [] := by
  induction text generalizing k with
  | nil => exact h
  | cons c text ih =>
    refine ih ?_
    simp only [Cutter.push]
    split
    · exact h
    · exact ne_nil_of_mem_close h

theorem ne_nil_of_mem_clusters {text : List Char} {g : Cluster} (h : g ∈ clusters text) :
    g ≠ [] :=
  Cutter.ne_nil_of_mem_close (Cutter.ne_nil_of_mem_foldl text (by simp)) g
    (List.mem_reverse.mp h)

end LoxMachine.Text
