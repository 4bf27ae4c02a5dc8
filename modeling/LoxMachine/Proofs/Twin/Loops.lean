import LoxMachine.Proofs.Syntax.Unambiguous
import LoxMachine.Proofs.Twin.Scripts

/-!
# Loops written out

A program runs like the same program with some of its `for` loops written out as `while` loops.

Main statement: `Program.follows_of_unfolds`.
-/

namespace LoxMachine

open Machine Syntax

/-! ## Loops written out -/

section Written

mutual

/-- Nothing need be written out. -/
theorem Part.unfolds_refl : (ss : List Stmt) → Part.Unfolds (.code ss) (.code ss)
  | [] => .nothing
  | [s] => unfolds_statement s
  | s :: t :: ss => .several (unfolds_statement s) (Part.unfolds_refl (t :: ss))

theorem unfolds_statement : (s : Stmt) → Part.Unfolds (.code [s]) (.code [s])
  | .expression _ | .print _ | .assert _ | .var _ _ | .return _ => .simple trivial
  | .block ss => .block (Part.unfolds_refl ss)
  | .cond _ s none => .cond (unfolds_statement s)
  | .cond _ s (some t) => .condElse (unfolds_statement s) (unfolds_statement t)
  | .while _ s => .while (unfolds_statement s)
  | .for none _ _ s => .for .nothing (unfolds_statement s)
  | .for (some first) _ _ s => .for (unfolds_statement first) (unfolds_statement s)
  | .function ⟨_, _, ss⟩ => .function (Part.unfolds_refl ss)
  | .cls _ _ fs => .cls (unfolds_methods fs)

theorem unfolds_methods : (fs : List (Fun Stmt)) → Part.Unfolds (.methods fs) (.methods fs)
  | [] => .noMethods
  | ⟨_, _, ss⟩ :: fs => .methods (Part.unfolds_refl ss) (unfolds_methods fs)

end

/-- What a `for` with a condition is written as. -/
theorem Syntax.Derives.written {first : Option Stmt} {c : Expr} {step : Option Expr} {s : Stmt}
    {ts us vs ws : List Token} {l r lb rb lb' rb' t semi : Token} (hfirst : Derives (.first first) ts)
    (hc : Derives (.optional (some c)) us) (hstep : Derives (.optional step) vs) (hs : Derives (.statement s) ws)
    (hlb : lb.kind = .leftBrace) (hrb : rb.kind = .rightBrace) (hlb' : lb'.kind = .leftBrace)
    (hrb' : rb'.kind = .rightBrace) (ht : t.kind = .kwWhile) (hl : l.kind = .leftParen)
    (hr : r.kind = .rightParen) (hsemi : semi.kind = .semicolon) :
    Derives (.statement (.asWhile first.toList c step s))
      (lb :: (first.elim [] (fun _ => ts) ++ (t :: l :: us ++
        r :: lb' :: (ws ++ step.elim [] fun _ => vs ++ [semi]) ++ [rb'])) ++ [rb]) := by
  have hround : Derives (.declarations (s :: step.toList.map .expression))
      (ws ++ step.elim [] fun _ => vs ++ [semi]) := by
    cases hstep with
    | absent => exact .declarations (.statement hs) .noDeclarations
    | present h =>
        have := Derives.declarations (.statement (.expression hsemi h)) .noDeclarations
        rw [List.append_nil] at this
        exact .declarations (.statement hs) this
  have hloop : Derives (.declarations [.while c (.block (s :: step.toList.map .expression))])
      (t :: l :: us ++ r :: lb' :: (ws ++ step.elim [] fun _ => vs ++ [semi]) ++ [rb']) := by
    cases hc with | present hc =>
    have := Derives.declarations (.statement (.while ht hl hr hc (.block hlb' hrb' hround))) .noDeclarations
    simpa using this
  refine .block hlb hrb ?_
  cases hfirst with
  | noFirst => exact hloop
  | firstVar h => exact .declarations h hloop
  | firstExpression h => exact .declarations (.statement h) hloop
end Written

/-! ## Runs of both -/

/-- Texts end alike: their traces may differ. -/
inductive Ending.Like : Ending → Ending → Prop where
  | completed : Like .completed .completed
  | failed {f g} : f.fault = g.fault → Like (.failed f) (.failed g)
  | unfinished : Like .unfinished .unfinished

/-- Whatever the first text prints and however it ends, within any number of instructions, the second
one prints the same and ends alike within some number of instructions. -/
def Machine.Follows (m : Machine) (source source' : String) : Prop :=
  ∀ budget, ∃ budget', (m.runSource budget source).1.Like (m.runSource budget' source').1 ∧
    (m.runSource budget source).2.console.output = (m.runSource budget' source').2.console.output

theorem Outcome.Like.ending {o o' : Outcome} (h : o.Like o') :
    (Ending.ofOutcome o).Like (Ending.ofOutcome o') := by
  cases h with
  | finished => exact .completed
  | failed hfault => exact .failed hfault
  | unfinished => exact .unfinished

/-- Two programs side by side, up to the last answers of their scripts. -/
structure Scene.Shows (S : Scene) (p p' : Program) : Prop where
  left : S.left = codes p.routines
  right : S.right = codes p'.routines
  script : S.scripts.script
  main : S.scripts.left = p.main.code
  main' : S.scripts.right = p'.main.code
  shares : ∀ k k', ¬ S.scripts.shares k k'
  exit : ∀ r r', S.scripts.exit r r' → BothAnswer S.scripts.left S.scripts.right r r'

section Runs

variable {S : Scene} {n : Nat} {m m' : Machine} {p p' : Program} {source source' : String}
  {tree tree' : List Stmt}

theorem Scene.Shows.flip (h : S.Shows p p') : S.flip.Shows p' p where
  left := h.right
  right := h.left
  script := h.script
  main := h.main'
  main' := h.main
  shares k k' := h.shares k' k
  exit r r' hexit :=
    have ⟨q, q', hi, hi'⟩ := h.exit r' r hexit
    ⟨q', q, hi', hi⟩

/-- Scripts that have come to their last answers end alike. -/
theorem Meets.sameEnd (h : Meets S n m m') (hS : S.Shows p p') (hm : m.Alive) (hm' : m'.Alive)
    (budget : Nat) : SameEnd (m.run budget) (m'.run budget) := by
  cases budget with
  | zero =>
      obtain ⟨B, f, f', A, -⟩ := h
      exact ⟨.unfinished, A.heaps.output⟩
  | succ budget =>
      obtain ⟨m₁, m₁', B, hrun, hrun', hheaps⟩ := h.finishes hS.exit hm hm'
      rw [hrun, hrun']
      exact ⟨.finished, hheaps.output⟩

theorem Program.LaidOut.code_main (rs : Array Routine) (h : p.LaidOut rs.size tree) :
    (codes (rs ++ p.routines))[p.main.function.index]? = some p.main.code := by
  have hindex : p.main.function.index = rs.size + p.nested.size := by rw [h.main]
  rw [Array.getElem?_map, hindex, Array.getElem?_append_right (Nat.le_add_right _ _),
    Nat.add_sub_cancel_left, Program.routines, Array.getElem?_push_size]
  rfl

theorem Program.keptIn_append (rs : Array Routine) (p : Program) :
    p.KeptIn rs.size (rs ++ p.routines) := by
  intro k r hk
  rw [Array.getElem?_append_right (Nat.le_add_right _ _), Nat.add_sub_cancel_left,
    Program.routines, Array.getElem?_push_lt (Array.getElem?_eq_some_iff.mp hk).1]
  exact (Array.getElem?_eq_getElem _).symm.trans hk

/-- Texts whose scripts resemble each other. -/
theorem Scene.Shows.follows (hS : S.Shows p p') (console : Console)
    (hp : Program.compile 0 source = .ok p) (hp' : Program.compile 0 source' = .ok p')
    (hcode : ∀ n, Resembles S.left S.right n S.scripts 0 0) :
    (Machine.new console).Follows source source' := by
  intro budget
  obtain ⟨m, hm, hrun⟩ := runSource_begun (m := Machine.new console) hp rfl rfl
  obtain ⟨m', hm', hrun'⟩ := runSource_begun (m := Machine.new console) hp' rfl rfl
  have hidle : Stage.idle.Sound (Machine.new console) := ⟨#[], .start, fun n => idle_new n console⟩
  have halive {m : Machine} {p : Program} {source : String} (hm : (Machine.new console).Hushed m)
      (hp : Program.compile 0 source = .ok p) : ((m.load p).begun p.main.function).Alive := by
    have hcompile : Program.compile m.store.chunks.size source = .ok p := by
      obtain ⟨c, rfl, -, -⟩ := hm
      exact hp
    exact alive_begun (hm.idle hidle) hcompile
  have hloaded {m : Machine} (hm : (Machine.new console).Hushed m) (p : Program) :
      ((Machine.new console).load p).Hushed (m.load p) := by
    obtain ⟨c, rfl, houtput, hbroken⟩ := hm
    exact ⟨c, rfl, houtput, hbroken⟩
  obtain ⟨tree, -, -, -, hlaid⟩ := Program.script_of_compile hp
  obtain ⟨tree', -, -, -, hlaid'⟩ := Program.script_of_compile hp'
  have hmain := Program.LaidOut.code_main #[] hlaid
  have hmain' := Program.LaidOut.code_main #[] hlaid'
  rw [Array.empty_append] at hmain hmain'
  have A := Heaps.amid_begun (n := budget + 0) ((heaps_new console hS.left.symm hS.right.symm).hushed
    (hloaded hm p) (hloaded hm' p')) hS.script (by rw [hS.left, hS.main]; exact hmain)
    (by rw [hS.right, hS.main']; exact hmain') hS.shares
  have hm := halive hm hp
  have hm' := halive hm' hp'
  have hend : ∃ budget', SameEnd (((m.load p).begun p.main.function).run budget)
      (((m'.load p').begun p'.main.function).run budget') := by
    rcases (A.twins (hcode _)).run hm hm' with
      ⟨budget', hsame, -⟩ | ⟨k, rest, k', m₁, m₁', rfl, hpasses, hpasses', hmeets⟩
    · exact ⟨budget', hsame⟩
    · refine ⟨k' + rest, ?_⟩
      rw [hpasses.run, hpasses'.run]
      exact hmeets.sameEnd hS (hpasses.alive hm) (hpasses'.alive hm') rest
  obtain ⟨budget', hsame⟩ := hend
  refine ⟨budget', ?_⟩
  rw [hrun, hrun']
  exact ⟨hsame.like.ending, hsame.output⟩

/-- Two scripts next to each other, up to their last answers. -/
def scriptPair (p p' : Program) : Pairing :=
  (Layout.script p.main.code).pair (Layout.script p'.main.code) (BothAnswer p.main.code p'.main.code)

theorem places_scripts {c c' : Chunk} {captured : Bool} {L : List Local}
    (h : SameNames [⟨"", some 0, captured⟩] L) :
    Places (.script c) (.script c') 0 0 [⟨"", some 0, captured⟩] L where
  beside := ⟨rfl, .nil⟩
  depth := Iff.rfl
  names := h
  bottom := fun _ => ⟨[], _, rfl, rfl⟩

/-- Behind their statements both scripts answer. -/
theorem resembles_answers {C C' : Array Chunk} {k l e k' l' e' : Nat}
    (hi : (Layout.script p.main.code).At k (.push .nil) l) (hret : (Layout.script p.main.code).At l .ret e)
    (hi' : (Layout.script p'.main.code).At k' (.push .nil) l')
    (hret' : (Layout.script p'.main.code).At l' .ret e') (n : Nat) : Resembles C C' n (scriptPair p p') k k' := by
  have hresult : Parallel C C' (scriptPair p p') k k' l l' := .portable hi hi' trivial
  refine hresult n ?_
  cases n with
  | zero => trivial
  | succ n => exact ⟨l, l', .refl, .refl, .inl ⟨rfl, _, _, hret, hret'⟩⟩

/-- Programs whose trees are the same up to some loops resemble each other. -/
theorem resembles_of_unfolds (h : p.LaidOut 0 tree) (h' : p'.LaidOut 0 tree')
    (hunfolds : Part.Unfolds (.code tree) (.code tree')) (n : Nat) :
    Resembles (codes p.routines) (codes p'.routines) n (scriptPair p p') 0 0 := by
  have hkept {p : Program} : p.KeptIn 0 p.routines := by
    simpa using Program.keptIn_append #[] p
  obtain ⟨captured, k, l, hruns, hi, hret⟩ := h.code _ hkept
  obtain ⟨captured', k', l', hruns', hi', hret'⟩ := h'.code _ hkept
  have hnames : SameNames [⟨"", some 0, captured⟩] [⟨"", some 0, captured'⟩] := List.Forall₂.cons ⟨rfl, rfl⟩ .nil
  exact (hunfolds.alike (places_scripts hnames) hruns hruns').2 _ n (resembles_answers hi hret hi' hret' n)

/-- A program prints the same and ends alike whether some of its `for` loops are written out or not, on a
machine of its own and whatever the number of instructions that it is given. The two go on for ever
together. -/
theorem Program.follows_of_unfolds (console : Console) (hp : Program.compile 0 source = .ok p)
    (hp' : Program.compile 0 source' = .ok p') (ht : Script (Scanner.ofString source).tokens tree)
    (ht' : Script (Scanner.ofString source').tokens tree')
    (hunfolds : Part.Unfolds (.code tree) (.code tree')) :
    (Machine.new console).Follows source source' ∧ (Machine.new console).Follows source' source := by
  obtain ⟨tree₁, ht₁, -, -, hlaid⟩ := Program.script_of_compile hp
  obtain ⟨tree₁', ht₁', -, -, hlaid'⟩ := Program.script_of_compile hp'
  obtain rfl := ht.unique ht₁
  obtain rfl := ht'.unique ht₁'
  have hcode := resembles_of_unfolds hlaid hlaid' hunfolds
  have hS : Scene.Shows ⟨codes p.routines, codes p'.routines, scriptPair p p'⟩ p p' := {
    left := rfl
    right := rfl
    script := rfl
    main := rfl
    main' := rfl
    shares := by
      rintro k k' ⟨name, c, c', -, hk, -⟩
      simp [Layout.script] at hk
    exit := fun r r' => id }
  exact ⟨hS.follows console hp hp' hcode, hS.flip.follows console hp' hp fun n => (hcode n).flip⟩

end Runs

/-- A token of these characters on the first line. -/
def ofChars (kind : TokenKind) (text : List Char) : Token :=
  ⟨kind, text.map ([·]), 1⟩

/-- A loop in which a flag is printed once. -/
def flagLoop : Stmt :=
  .for (some (.var "b" (some (.boolean true)))) (some (.variable "b"))
    (some (.assign "b" (.boolean false))) (.print (.variable "b"))

/-- The same loop, written out. -/
def flagWritten : Stmt :=
  .asWhile [.var "b" (some (.boolean true))] (.variable "b") (some (.assign "b" (.boolean false)))
    (.print (.variable "b"))

theorem script_flag :
    Script (Scanner.ofString "for (var b = true; b; b = false) print b;").tokens [flagLoop] ∧
      Script (Scanner.ofString "{ var b = true; while (b) { print b; b = false; } }").tokens [flagWritten] := by
  let b := ofChars .identifier ['b']
  let equal := ofChars .equal ['=']
  let semi := ofChars .semicolon [';']
  let l := ofChars .leftParen ['(']
  let r := ofChars .rightParen [')']
  let lb := ofChars .leftBrace ['\x7b']
  let rb := ofChars .rightBrace ['\x7d']
  let print := ofChars .kwPrint ['p', 'r', 'i', 'n', 't']
  let first := [ofChars .kwVar ['v', 'a', 'r'], b, equal, ofChars .kwTrue ['t', 'r', 'u', 'e'], semi]
  let step := [b, equal, ofChars .kwFalse ['f', 'a', 'l', 's', 'e']]
  have htokens : (Scanner.ofString "for (var b = true; b; b = false) print b;").tokens =
      (ofChars .kwFor ['f', 'o', 'r'] :: l :: first ++ [b] ++ semi :: step ++ r :: [print, b, semi]) ++
        [.eof 1] := by decide +kernel
  have htokens' : (Scanner.ofString "{ var b = true; while (b) { print b; b = false; } }").tokens =
      (lb :: (first ++ (ofChars .kwWhile ['w', 'h', 'i', 'l', 'e'] :: l :: [b] ++
        r :: lb :: ([print, b, semi] ++ (step ++ [semi])) ++ [rb])) ++ [rb]) ++ [.eof 1] := by decide +kernel
  have hvariable : Derives (.expression .assignment (.variable "b")) [b] :=
    (Derives.variable (t := b) rfl).loosen (by decide) (by decide)
  have hfirst : Derives (.first (some (.var "b" (some (.boolean true))))) first :=
    .firstVar (@Derives.varValue _ b equal semi _ _ rfl rfl rfl rfl ((Derives.true rfl).loosen (by decide) (by decide)))
  have hstep : Derives (.optional (some (.assign "b" (.boolean false)))) step :=
    .present (@Derives.assign b equal _ _ rfl rfl ((Derives.false rfl).loosen (by decide) (by decide)))
  have hbody : Derives (.statement (.print (.variable "b"))) [print, b, semi] :=
    @Derives.print print semi _ _ rfl rfl hvariable
  have hloop := @Derives.for (ofChars .kwFor ['f', 'o', 'r']) l semi r _ _ _ _ _ _ _ _ rfl rfl rfl rfl hfirst
    (.present hvariable) hstep hbody
  have hwritten := @Derives.written _ _ _ _ _ _ _ _ l r lb rb lb rb
    (ofChars .kwWhile ['w', 'h', 'i', 'l', 'e']) semi hfirst (.present hvariable) hstep hbody rfl rfl rfl rfl rfl rfl
    rfl rfl
  have halone {s : Stmt} {ts : List Token} (h : Derives (.statement s) ts) : Derives (.declarations [s]) ts := by
    simpa using Derives.declarations (.statement h) .noDeclarations
  exact ⟨⟨_, _, htokens, rfl, halone hloop⟩, ⟨_, _, htokens', rfl, halone hwritten⟩⟩

theorem Program.follows_of_unfolds_flag :
    let source := "for (var b = true; b; b = false) print b;"
    let source' := "{ var b = true; while (b) { print b; b = false; } }"
    (∃ p p', Program.compile 0 source = .ok p ∧ Program.compile 0 source' = .ok p') ∧
      Script (Scanner.ofString source).tokens [flagLoop] ∧
      Script (Scanner.ofString source').tokens [flagWritten] ∧
      (Part.code [flagLoop]).Unfolds (.code [flagWritten]) ∧
      (Machine.new {}).Follows source source' ∧ (Machine.new {}).Follows source' source := by
  intro source source'
  have hcompile : (Program.compile 0 source).map (fun _ => ()) = .ok () := by decide +kernel
  have hcompile' : (Program.compile 0 source').map (fun _ => ()) = .ok () := by decide +kernel
  obtain ⟨p, hp, -⟩ := Program.exists_of_map_compile hcompile
  obtain ⟨p', hp', -⟩ := Program.exists_of_map_compile hcompile'
  have hfirst : Part.Unfolds (.code [.var "b" (some (.boolean true))]) (.code [.var "b" (some (.boolean true))]) :=
    Part.unfolds_refl _
  have hunfolds : (Part.code [flagLoop]).Unfolds (.code [flagWritten]) :=
    @Part.Unfolds.written (some _) _ _ _ _ hfirst (unfolds_statement _)
  obtain ⟨hscript, hscript'⟩ := script_flag
  exact ⟨⟨p, p', hp, hp'⟩, hscript, hscript', hunfolds,
    Program.follows_of_unfolds {} hp hp' hscript hscript' hunfolds⟩

end LoxMachine
