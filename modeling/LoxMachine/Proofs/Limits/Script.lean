import LoxMachine.Proofs.Compile.Nesting
import LoxMachine.Proofs.Limits.Declarations
import LoxMachine.Proofs.Syntax.Unambiguous
import LoxMachine.Proofs.Verdict.Script

/-!
# Texts within limits

Main statement: `accepted_iff_fits`. A script that breaks no rule, with jumps that are short enough, is
accepted if and only if there is room for all that it needs: for the local variables at every point, for the
captures, constants and parameters of every function and for the arguments of every call. The program is then
laid out for the script, whatever of it is at a limit.
-/

namespace LoxMachine

open Builder Syntax Statement

namespace Program

section Limits

variable {s : Builder} {r : Token} {tokens ts : List Token} {tree : List Stmt}

/-- The budget of a script. -/
def budget (tree : List Stmt) : Budget where
  Affordable := Need.FitsAll (needsOfScript tree) ∧ Need.NearAll (needsOfScript tree)
  whole := needsOfAll .script tree
  around := []
  spent := []
  promise h := by
    have hinside {n : Need} (hn : n.Within (needsOfAll .script tree)) : n.Within (needsOfScript tree) :=
      .inside List.mem_cons_self hn
    obtain ⟨-, hconstants, hcaptures⟩ := h.1 (.function 0 (needsOfAll .script tree)) (.here List.mem_cons_self)
    exact ⟨fun n hn => h.1 n (hinside hn), fun n hn => h.2 n (hinside hn), hconstants, hcaptures, trivial⟩

theorem fresh_pull (s : Builder) (us : List Token) : (s.pull us).fresh = s.fresh := by
  induction us generalizing s with
  | nil => rfl
  | cons t us ih =>
      rw [pull]
      split
      · rw [ih, report]
        split <;> rfl
      · rfl

theorem watches_eof (hr : r.kind = .eof) : Watches (do return !(← accept .eof)) r := by
  have hrun (s : Builder) : (do return !(← accept .eof) : Build Bool) s =
      if s.current.kind = .eof then (false, (advance s).2) else (true, s) := by
    rw [accept_bind]
    split <;> rfl
  have hadvance (s : Builder) : (advance s).2 = { s with previous := s.current }.pull s.upcoming := rfl
  have happart (s : Builder) := pull_apart { s with previous := s.current } s.upcoming
  refine ⟨guards_eof hr, fun s => ?_, fun s => ?_, fun s => ?_⟩ <;> rw [hrun] <;> split
  · rw [hadvance, (happart s).1]
  · rfl
  · rw [hadvance, (happart s).2.1]
  · rfl
  · rw [hadvance, fresh_pull]
    rfl
  · rfl

/-- A script that ends without an error was within its limits. -/
theorem declarations_settles (hd : Derives (.declarations tree) ts) (hr : r.kind = .eof)
    (hlegal : legalAll .script tree) {n : Nat} (hn : (ts ++ [r]).length ≤ n)
    (hs : Owes (budget tree) (Showing .script) (ts ++ [r]) (needsOfAll .script tree) s) :
    Settles (budget tree) (declarations n s) fun _ _ => (budget tree).Affordable := by
  have hall : DeclarationsSettled tree ts := settled_of_derives hd
  refine (hall (watches_eof hr) (by rw [hr]; nofun) rfl hlegal (Nat.le_succ_of_le hn) hn hs.only).bind
    fun _ s₁ h₁ => ?_
  obtain ⟨ns, hwhole, hfits, hnear, hcharged⟩ := h₁.ledger
  obtain rfl : needsOfAll .script tree = ns := hwhole.trans (List.append_nil ns)
  have hroom := h₁.tokens.sound.fits s₁.body List.mem_cons_self
  have hcount := hcharged.captured.card
  rw [Finset.union_empty] at hcount
  have hself : (Need.function 0 (needsOfAll .script tree)).Fits :=
    ⟨Nat.zero_le _, hcharged.pays.count ▸ hroom.constants, hcount ▸ hroom.captures⟩
  refine .kept ((emitReturn_made s₁).1.trans h₁.clean) ⟨?_, ?_⟩
  · change Need.FitsAll ([] ++ [Need.function 0 (needsOfAll .script tree)])
    exact Need.FitsAll.function nofun hfits hself
  · change Need.NearAll ([] ++ [Need.function 0 (needsOfAll .script tree)])
    exact Need.NearAll.function nofun hnear

theorem owes_start (firstIndex : Nat) (tree : List Stmt) (hproper : ∀ t ∈ tokens, t.Proper) (hends : EndOnce tokens)
    (hplain : ∀ t ∈ tokens, t.IsPlain) :
    Owes (budget tree) (Showing .script) tokens (needsOfAll .script tree)
      ((start firstIndex []).pull tokens) := by
  have hstands := stands_start firstIndex hproper hends hplain
  refine ⟨hstands.tokens, hstands.shows, [], rfl, nofun, nofun, ?_⟩
  obtain ⟨hbody, houter, -⟩ := pull_apart (start firstIndex []) tokens
  rw [hbody, houter]
  exact .script (Chunk.pays_nil _) (Body.captured_new .script "" [])

end Limits

variable {firstIndex : Nat} {source : String} {p : Program} {tree : List Stmt}

/-- A script that breaks no rule is accepted if and only if it keeps within all limits. -/
theorem compile_iff_affordable (hscript : Script (Scanner.ofString source).tokens tree)
    (hlegal : legalAll .script tree) :
    (∃ p, compile firstIndex source = .ok p) ↔
      Need.FitsAll (needsOfScript tree) ∧ Need.NearAll (needsOfScript tree) := by
  obtain ⟨hproper, hends⟩ := Scanner.tokens_spec (Scanner.ofString source)
  obtain ⟨ts, last, heq, hlast, hd⟩ := hscript
  have hplain : ∀ t ∈ (Scanner.ofString source).tokens, t.IsPlain := by
    intro t ht cause hk
    rw [heq, List.mem_append, List.mem_singleton] at ht
    rcases ht with ht | rfl
    · exact hd.plain t ht cause hk
    · exact nomatch hlast.symm.trans hk
  have hstart := owes_start firstIndex tree hproper hends hplain
  rw [compile, ofTokens, script_run]
  rw [heq] at hstart ⊢
  have hsettles := declarations_settles hd hlast hlegal (Nat.le_refl _) hstart
  generalize declarations _ _ = r at hsettles
  cases hsettles with
  | kept hclean hafford => exact iff_of_true ⟨_, conclude_of_clean hclean⟩ hafford
  | broken herrors hafford =>
      refine iff_of_false ?_ hafford
      rintro ⟨p, hp⟩
      rw [conclude_of_errors herrors] at hp
      cases hp

/-- A script that breaks no rule, and whose jumps are short enough, is accepted if and only if there is room
for all that it needs. The program is then laid out for it: every operand is the index or count that is meant. -/
theorem accepted_iff_fits (hscript : Script (Scanner.ofString source).tokens tree)
    (hlegal : legalAll .script tree) (hnear : Need.NearAll (needsOfScript tree)) :
    ((∃ p, compile firstIndex source = .ok p) ↔ Need.FitsAll (needsOfScript tree)) ∧
      ∀ p, compile firstIndex source = .ok p → p.LaidOut firstIndex tree := by
  refine ⟨(compile_iff_affordable hscript hlegal).trans (and_iff_left hnear), fun p hp => ?_⟩
  obtain ⟨tree', hscript', -, -, hlaid⟩ := script_of_compile hp
  obtain rfl := hscript.unique hscript'
  exact hlaid

/-- A function with a parameter, a constant, a capture and a call. -/
theorem accepted_iff_fits_counter :
    ∃ tree, Script (Scanner.ofString "fun f(a) { fun g() { return a + 1; } return g(); } print f(2);").tokens tree ∧
      legalAll .script tree ∧ Need.NearAll (needsOfScript tree) ∧
      ((∃ p, compile 0 "fun f(a) { fun g() { return a + 1; } return g(); } print f(2);" = .ok p) ↔
        Need.FitsAll (needsOfScript tree)) ∧
      ∀ p, compile 0 "fun f(a) { fun g() { return a + 1; } return g(); } print f(2);" = .ok p →
        p.LaidOut 0 tree := by
  have hcompile : (compile 0 "fun f(a) { fun g() { return a + 1; } return g(); } print f(2);").map
      (fun _ => ()) = .ok () := by decide +kernel
  obtain ⟨p, hp, -⟩ := exists_of_map_compile hcompile
  obtain ⟨tree, hscript, -, hlegal, -⟩ := script_of_compile hp
  have hnear := ((compile_iff_affordable hscript hlegal).mp ⟨p, hp⟩).2
  exact ⟨tree, hscript, hlegal, hnear, accepted_iff_fits hscript hlegal hnear⟩

end Program

end LoxMachine
