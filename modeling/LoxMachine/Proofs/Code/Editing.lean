import LoxMachine.Proofs.Code.Emission

/-!
# Chunks in the making

A chunk is made by one operation after another (`Edit`), and everything an operation has promised stays
true under those that follow. A `Ledger` keeps a chunk together with the places that have been handed out:
of each forward jump where its distance stands and how long the code was when it was last filled in, and
of each loop where it stands and where it leads.

Main statements: `Ledger.jumps_land`, jumps and loops lead the machine where they were told to lead, and
`Chunk.constants_shared`, the constants of a chunk are numbered once and for all.
-/

namespace LoxMachine

/-- An operation on a chunk. An instruction without a distance is written byte by byte. -/
inductive Edit where
  | write (byte : UInt8) (line : Nat)
  | constant (v : Value)
  | jump (op : Opcode) (line : Nat)
  | patch (offset : Nat)
  | loop (start line : Nat)

namespace Chunk

def edit (c : Chunk) : Edit → Chunk
  | .write byte line => c.write byte line
  | .constant v => (c.addConstant v).2
  | .jump op line => (c.writeJump op line).2
  | .patch offset => (c.patchJump offset).2
  | .loop start line => (c.writeLoop start line).2

def edits (c : Chunk) (es : List Edit) : Chunk :=
  es.foldl edit c

/-! ## Bytes that are written -/

theorem size_writeJump (c : Chunk) (op : Opcode) (line : Nat) :
    (c.writeJump op line).2.size = c.size + 3 := by
  simp only [writeJump, writeOp, size_write]

theorem agree_writeJump (c : Chunk) (op : Opcode) (line : Nat) :
    Agree c (c.writeJump op line).2 0 c.size := by
  refine ⟨fun p _ hp => ?_, fun _ _ => id⟩
  rw [byte?_writeJump, if_neg (by omega), if_neg (by omega), if_neg (by omega)]

/-- A loop is three bytes on one line, whether it is near enough or not. -/
theorem writeLoop_eq (c : Chunk) (start line : Nat) :
    ∃ high low, c.writeLoop start line = (decide (c.size + 3 - start ≤ maxDistance),
      { c with code := c.code ++ #[(Opcode.loop.toByte, line), (high, line), (low, line)] }) := by
  let written := if decide (c.size + 3 - start ≤ maxDistance) then c.size + 3 - start else maxDistance
  refine ⟨highByte written, lowByte written, ?_⟩
  simp only [writeLoop, writeOp, write, Array.push_eq_append, Array.append_assoc]
  rfl

theorem size_writeLoop (c : Chunk) (start line : Nat) : (c.writeLoop start line).2.size = c.size + 3 := by
  obtain ⟨high, low, h⟩ := c.writeLoop_eq start line
  rw [h, size, Array.size_append]
  rfl

theorem agree_writeLoop (c : Chunk) (start line : Nat) :
    Agree c (c.writeLoop start line).2 0 c.size := by
  obtain ⟨high, low, h⟩ := c.writeLoop_eq start line
  refine ⟨fun p _ hp => ?_, fun k v hv => by rw [h]; exact hv⟩
  rw [h, byte?, Array.getElem?_append_left hp]
  rfl

/-- A distance is filled in if it is not too great; nothing else changes. -/
theorem patchJump_spec (c : Chunk) (offset : Nat) :
    ((c.patchJump offset).1 = true ↔ c.size - offset - 2 ≤ maxDistance) ∧
      ((c.patchJump offset).1 = true → Patched c offset (c.patchJump offset).2 ∧
        ∀ i, (c.patchJump offset).2.line? i = c.line? i) ∧
      ((c.patchJump offset).1 = false → (c.patchJump offset).2 = c) := by
  rw [patchJump]
  by_cases hfits : c.size - offset - 2 ≤ maxDistance
  · rw [if_pos hfits]
    refine ⟨iff_of_true rfl hfits, fun _ => ⟨patched_of_patchJump ?_, fun i => ?_⟩, by simp⟩
    · rw [patchJump, if_pos hfits]
    · rw [line?_setByte, line?_setByte]
  · rw [if_neg hfits]
    exact ⟨iff_of_false (by simp) hfits, by simp, fun _ => rfl⟩

/-! ## Jumps that a machine takes -/

/-- A machine that stands at `p` in this code goes to `target`, where a jump that has a condition is to be
taken. -/
def Leads (c : Chunk) (op : Opcode) (p target : Nat) : Prop :=
  ∀ (m : Machine) (f : Frame) (fs : List Frame), m.frames = f :: fs →
    m.store.chunk f.closure.function = c → f.ip = p →
    (op = .jumpIfFalse → ∃ v, m.fromTop? 0 = some v ∧ v.isFalsey = true) →
    Machine.step m = .ok () (m.goto target)

theorem leads_jump {c : Chunk} {p target next : Nat} (h : c.instr? p = some (.jump target, next)) :
    c.Leads .jump p target := by
  intro m f fs hframes hchunk hip _
  rw [Machine.step_eq_exec hframes (by rw [hchunk, hip]; exact h), Instr.exec,
    Machine.moveTo_goto hframes]

theorem leads_jumpIfFalse {c : Chunk} {p target next : Nat}
    (h : c.instr? p = some (.jumpIfFalse target, next)) : c.Leads .jumpIfFalse p target := by
  intro m f fs hframes hchunk hip htop
  obtain ⟨v, hv, hfalsey⟩ := htop rfl
  have htop' : (m.goto next).fromTop? 0 = some v := hv
  rw [Machine.step_eq_exec hframes (by rw [hchunk, hip]; exact h), Instr.exec, Machine.bind_apply,
    Machine.moveTo_goto hframes]
  simp only [Machine.bind_apply, Machine.peek_apply, htop', Machine.ite_apply, hfalsey, if_true,
    Machine.moveTo_goto hframes]

theorem leads_loop {c : Chunk} {p target next : Nat} (h : c.instr? p = some (.loop target, next)) :
    c.Leads .loop p target := by
  intro m f fs hframes hchunk hip _
  rw [Machine.step_eq_exec hframes (by rw [hchunk, hip]; exact h), Instr.exec,
    Machine.moveTo_goto hframes]

end Chunk

/-! ## Ledgers -/

/-- A forward jump that has been written. -/
structure Placeholder where
  op : Opcode
  /-- Where the distance stands. -/
  offset : Nat
  /-- How long the code was when the distance was last filled in. -/
  target : Option Nat := none
deriving DecidableEq

/-- A chunk in the making. -/
structure Ledger where
  chunk : Chunk
  jumps : List Placeholder := []
  /-- Where loops stand, and where they lead. -/
  loops : List (Nat × Nat) := []

def Placeholder.fill (j : Placeholder) (offset target : Nat) : Placeholder :=
  if j.offset = offset then { j with target := some target } else j

namespace Ledger

/-- What is to be kept in mind of an operation. -/
def edit (l : Ledger) (e : Edit) : Ledger :=
  { chunk := l.chunk.edit e
    jumps :=
      match e with
      | .jump op line => ⟨op, (l.chunk.writeJump op line).1, none⟩ :: l.jumps
      | .patch offset =>
        if (l.chunk.patchJump offset).1 then l.jumps.map (·.fill offset l.chunk.size) else l.jumps
      | _ => l.jumps
    loops :=
      match e with
      | .loop start line =>
        if (l.chunk.writeLoop start line).1 then (l.chunk.size, start) :: l.loops else l.loops
      | _ => l.loops }

/-- Only distances that stand open are filled in, and loops lead backwards. -/
def Allows (l : Ledger) : Edit → Prop
  | .patch offset => ∃ j ∈ l.jumps, j.offset = offset
  | .loop start _ => start ≤ l.chunk.size
  | _ => True

/-- The ledgers that begin with the chunk `c`, whatever it holds. -/
inductive From (c : Chunk) : Ledger → Prop where
  | start : From c ⟨c, [], []⟩
  | edit {l e} : From c l → l.Allows e → From c (l.edit e)

/-- A forward jump is three bytes of the code, and its distance is as the ledger says. -/
structure Holds (c : Chunk) (j : Placeholder) : Prop where
  pos : 0 < j.offset
  room : j.offset + 2 ≤ c.size
  op : c.byte? (j.offset - 1) = some j.op.toByte
  distance : ∀ t, j.target = some t → j.offset + 2 ≤ t ∧ c.pair? j.offset = some (t - j.offset - 2)

/-- Instructions stand apart: none reaches into three bytes from `p` on, or they are the same. -/
def Apart (p q : Nat) : Prop :=
  p = q ∨ p + 3 ≤ q ∨ q + 3 ≤ p

structure Kept (l : Ledger) : Prop where
  jumps : ∀ j ∈ l.jumps, Holds l.chunk j
  loops : ∀ x ∈ l.loops, l.chunk.instr? x.1 = some (.loop x.2, x.1 + 3)
  jumpsApart : ∀ j ∈ l.jumps, ∀ k ∈ l.jumps, Apart j.offset k.offset
  loopsApart : ∀ x ∈ l.loops, ∀ j ∈ l.jumps, x.1 + 3 < j.offset ∨ j.offset + 2 ≤ x.1

variable {c c' : Chunk} {l : Ledger} {e : Edit} {j : Placeholder}

theorem Holds.agree (h : Holds c j) (hagree : Chunk.Agree c c' 0 c.size) (hsize : c.size ≤ c'.size) :
    Holds c' j := by
  have hpos := h.pos
  have hroom := h.room
  refine ⟨hpos, by omega, ?_, fun t ht => ?_⟩
  · rw [hagree.byte? _ (Nat.zero_le _) (by omega), h.op]
  · obtain ⟨hle, hpair⟩ := h.distance t ht
    exact ⟨hle, hagree.pair? (Nat.zero_le _) (by omega) hpair⟩

/-- Whatever is written behind the code leaves the code as it is. -/
theorem Kept.agree (h : l.Kept) (hagree : Chunk.Agree l.chunk c' 0 l.chunk.size)
    (hsize : l.chunk.size ≤ c'.size) : Kept { l with chunk := c' } where
  jumps j hj := (h.jumps j hj).agree hagree hsize
  loops x hx := hagree.instr? (Nat.zero_le _) (Chunk.le_size_of_instr? (h.loops x hx)) (h.loops x hx)
  jumpsApart := h.jumpsApart
  loopsApart := h.loopsApart

theorem Kept.jump (h : l.Kept) (op : Opcode) (line : Nat) : (l.edit (.jump op line)).Kept := by
  have hsize := l.chunk.size_writeJump op line
  have hagree := l.chunk.agree_writeJump op line
  obtain ⟨hjumps, hloops, hjumpsApart, hloopsApart⟩ := h.agree hagree (by omega)
  have hnew : Holds (l.chunk.writeJump op line).2 ⟨op, l.chunk.size + 1, none⟩ := by
    refine ⟨Nat.succ_pos _, Nat.le_of_eq hsize.symm, ?_, nofun⟩
    rw [Nat.add_sub_cancel, Chunk.byte?_writeJump, if_neg (by omega), if_neg (by omega), if_pos rfl]
  have hbelow (k : Placeholder) (hk : k ∈ l.jumps) : k.offset + 3 ≤ l.chunk.size + 1 :=
    Nat.succ_le_succ (h.jumps k hk).room
  refine ⟨?_, hloops, ?_, ?_⟩
  · intro j hj
    rcases List.mem_cons.mp hj with rfl | hj
    · exact hnew
    · exact hjumps j hj
  · intro j hj k hk
    rcases List.mem_cons.mp hj with rfl | hj <;> rcases List.mem_cons.mp hk with rfl | hk
    · exact .inl rfl
    · exact .inr (.inr (hbelow k hk))
    · exact .inr (.inl (hbelow j hj))
    · exact hjumpsApart j hj k hk
  · intro x hx j hj
    rcases List.mem_cons.mp hj with rfl | hj
    · have := Chunk.le_size_of_instr? (h.loops x hx)
      exact .inl (Nat.lt_succ_of_le this)
    · exact hloopsApart x hx j hj

theorem Kept.loop (h : l.Kept) {start line : Nat} (hstart : start ≤ l.chunk.size) :
    (l.edit (.loop start line)).Kept := by
  have hsize := l.chunk.size_writeLoop start line
  obtain ⟨hjumps, hloops, hjumpsApart, hloopsApart⟩ :=
    h.agree (l.chunk.agree_writeLoop start line) (by omega)
  refine ⟨hjumps, ?_, hjumpsApart, ?_⟩
  all_goals
    intro x hx
    simp only [edit] at hx
  · split at hx
    · rename_i hnear
      rcases List.mem_cons.mp hx with rfl | hx
      · exact (Chunk.instr?_writeLoop hstart (Prod.ext hnear rfl)).1
      · exact hloops x hx
    · exact hloops x hx
  · split at hx
    · rcases List.mem_cons.mp hx with rfl | hx
      · exact fun j hj => .inr (h.jumps j hj).room
      · exact hloopsApart x hx
    · exact hloopsApart x hx

/-- The distance of a jump is filled in; other jumps and the loops are not touched. -/
theorem Kept.patch (h : l.Kept) {offset : Nat} (hoffset : ∃ j ∈ l.jumps, j.offset = offset) :
    (l.edit (.patch offset)).Kept := by
  obtain ⟨k, hk, rfl⟩ := hoffset
  obtain ⟨-, hnear, hfar⟩ := l.chunk.patchJump_spec k.offset
  cases hfits : (l.chunk.patchJump k.offset).1 with
  | false =>
      have hsame : l.edit (.patch k.offset) = l := by
        simp only [edit, Chunk.edit, hfits, hfar hfits, Bool.false_eq_true, if_false]
      rw [hsame]
      exact h
  | true =>
      obtain ⟨hpatched, -⟩ := hnear hfits
      have hroom := (h.jumps k hk).room
      have hmem (j : Placeholder) (hj : j ∈ (l.edit (.patch k.offset)).jumps) :
          ∃ i ∈ l.jumps, i.fill k.offset l.chunk.size = j := by
        simpa only [edit, hfits, if_true, List.mem_map] using hj
      have hfill (i : Placeholder) : (i.fill k.offset l.chunk.size).offset = i.offset ∧
          (i.fill k.offset l.chunk.size).op = i.op := by
        rw [Placeholder.fill]
        split <;> exact ⟨rfl, rfl⟩
      refine ⟨fun j hj => ?_, fun x hx => ?_, fun j hj j' hj' => ?_, fun x hx j hj => ?_⟩
      · obtain ⟨i, hi, rfl⟩ := hmem j hj
        have hi' := h.jumps i hi
        have hpos := hi'.pos
        obtain ⟨hoffset, hop⟩ := hfill i
        refine ⟨hoffset ▸ hpos, ?_, ?_, ?_⟩
        · rw [hoffset]
          exact Nat.le_trans hi'.room (Nat.le_of_eq hpatched.size.symm)
        · rw [hoffset, hop, ← hi'.op]
          refine hpatched.byte? _ ?_ ?_
          all_goals rcases h.jumpsApart i hi k hk with heq | hlt | hlt <;> omega
        · intro t ht
          rw [hoffset]
          rw [Placeholder.fill] at ht
          split at ht
          · rename_i heq
            obtain rfl := Option.some.inj ht
            rw [heq]
            exact ⟨hroom, hpatched.pair? hroom⟩
          · rename_i hne
            obtain ⟨hle, hpair⟩ := hi'.distance t ht
            refine ⟨hle, ?_⟩
            have hagree := (hpatched.agree (i := i.offset) (j := i.offset + 2) (by
              rcases h.jumpsApart i hi k hk with heq | hlt | hlt <;> omega))
            exact hagree.pair? (Nat.le_refl _) (Nat.lt_succ_self _) hpair
      · have hx' : x ∈ l.loops := hx
        refine (hpatched.agree (i := x.1) (j := x.1 + 3) ?_).instr? (Nat.le_refl _) (Nat.le_refl _) (h.loops x hx')
        rcases h.loopsApart x hx' k hk with hlt | hle <;> omega
      · obtain ⟨i, hi, rfl⟩ := hmem j hj
        obtain ⟨i', hi', rfl⟩ := hmem j' hj'
        rw [(hfill i).1, (hfill i').1]
        exact h.jumpsApart i hi i' hi'
      · obtain ⟨i, hi, rfl⟩ := hmem j hj
        rw [(hfill i).1]
        exact h.loopsApart x hx i hi

theorem Kept.edit (h : l.Kept) (he : l.Allows e) : (l.edit e).Kept := by
  cases e with
  | write byte line =>
      exact h.agree (l.chunk.agree_write byte line 0) (by rw [Chunk.edit, Chunk.size_write]; omega)
  | constant v =>
      refine h.agree (l.chunk.agree_addConstant v 0) (Nat.le_of_eq ?_)
      rw [Chunk.edit, Chunk.size, Chunk.size, Chunk.code_addConstant]
  | jump op line => exact h.jump op line
  | patch offset => exact h.patch he
  | loop start line => exact h.loop he

/-- Every operation keeps what the ones before it have promised. -/
theorem From.kept (h : From c l) : l.Kept := by
  induction h with
  | start => exact ⟨nofun, nofun, nofun, nofun⟩
  | edit _ he ih => exact ih.edit he

/-- A jump whose distance has been filled in leads to where the code ended at that time. -/
theorem Holds.leads (h : Holds c j) {t : Nat} (ht : j.target = some t) (hop : j.op = .jump ∨ j.op = .jumpIfFalse) :
    c.Leads j.op (j.offset - 1) t := by
  obtain ⟨hle, hpair⟩ := h.distance t ht
  have hpos := h.pos
  have hbehind : j.offset - 1 + 1 = j.offset := by omega
  have htarget : j.offset - 1 + 3 + (t - j.offset - 2) = t := by omega
  have hinstr := Chunk.instr?_eq_decode h.op
  rcases hop with hop | hop
  all_goals
    rw [hop, Chunk.decode, hbehind, hpair, Option.map_some, htarget] at hinstr
    rw [hop]
  · exact Chunk.leads_jump hinstr
  · exact Chunk.leads_jumpIfFalse hinstr

/-- Whatever operations a chunk has been made by, in whatever order: a distance can be filled in if it is not
too great, which changes no other byte, and from then on the jump leads to where the code ended; a loop is
three bytes, whose distance is right if it is not too great, and from then on it leads back to its start. -/
theorem jumps_land (h : From c l) :
    (∀ j ∈ l.jumps, j.offset + 2 ≤ l.chunk.size ∧
      ((l.chunk.patchJump j.offset).1 = true ↔ l.chunk.size - j.offset - 2 ≤ Chunk.maxDistance) ∧
      ((l.chunk.patchJump j.offset).1 = true →
        (l.chunk.patchJump j.offset).2.size = l.chunk.size ∧
        (∀ i, i ≠ j.offset → i ≠ j.offset + 1 → (l.chunk.patchJump j.offset).2.byte? i = l.chunk.byte? i) ∧
        (∀ i, (l.chunk.patchJump j.offset).2.line? i = l.chunk.line? i) ∧
        (l.chunk.patchJump j.offset).2.constants = l.chunk.constants) ∧
      ((l.chunk.patchJump j.offset).1 = false → (l.chunk.patchJump j.offset).2 = l.chunk) ∧
      ∀ t, j.target = some t → j.op = .jump ∨ j.op = .jumpIfFalse → l.chunk.Leads j.op (j.offset - 1) t) ∧
    (∀ start line, start ≤ l.chunk.size →
      ((l.chunk.writeLoop start line).1 = true ↔ l.chunk.size + 3 - start ≤ Chunk.maxDistance) ∧
      ∃ high low, (l.chunk.writeLoop start line).2 = { l.chunk with
        code := l.chunk.code ++ #[(Opcode.loop.toByte, line), (high, line), (low, line)] }) ∧
    ∀ x ∈ l.loops, l.chunk.Leads .loop x.1 x.2 := by
  have hkept := h.kept
  refine ⟨fun j hj => ?_, fun start line _ => ?_, fun x hx => Chunk.leads_loop (hkept.loops x hx)⟩
  · have hholds := hkept.jumps j hj
    obtain ⟨hfits, hnear, hfar⟩ := l.chunk.patchJump_spec j.offset
    refine ⟨hholds.room, hfits, fun hpatch => ?_, hfar, fun t ht hop => hholds.leads ht hop⟩
    obtain ⟨hpatched, hlines⟩ := hnear hpatch
    exact ⟨hpatched.size, hpatched.byte?, hlines, hpatched.constants⟩
  · obtain ⟨high, low, hloop⟩ := l.chunk.writeLoop_eq start line
    rw [hloop]
    exact ⟨decide_eq_true_iff, high, low, rfl⟩

/-- Two jumps that wait at the same time, the outer one filled in last and twice, and a loop. -/
theorem jumps_land_nested :
    let es : List Edit := [.jump .jumpIfFalse 1, .jump .jump 1, .write Opcode.pop.toByte 2, .patch 4, .patch 1,
      .loop 3 2, .patch 1]
    let l := es.foldl edit ⟨{}, [], []⟩
    From {} l ∧ l.chunk.Leads .jumpIfFalse 0 10 ∧ l.chunk.Leads .jump 3 7 ∧ l.chunk.Leads .loop 7 3 := by
  intro es l
  have h : From {} l := by
    refine .edit (.edit (.edit (.edit (.edit (.edit (.edit .start trivial) trivial) trivial) ?_) ?_) ?_) ?_
    · exact ⟨⟨.jump, 4, none⟩, by decide +kernel, rfl⟩
    · exact ⟨⟨.jumpIfFalse, 1, none⟩, by decide +kernel, rfl⟩
    · exact (by decide +kernel : 3 ≤ 7)
    · exact ⟨⟨.jumpIfFalse, 1, some 7⟩, by decide +kernel, rfl⟩
  obtain ⟨hjumps, -, hloops⟩ := jumps_land h
  obtain ⟨-, -, -, -, houter⟩ := hjumps ⟨.jumpIfFalse, 1, some 10⟩ (by decide +kernel)
  obtain ⟨-, -, -, -, hinner⟩ := hjumps ⟨.jump, 4, some 7⟩ (by decide +kernel)
  exact ⟨h, houter 10 rfl (.inr rfl), hinner 7 rfl (.inl rfl), hloops (7, 3) (by decide +kernel)⟩

end Ledger

/-! ## Constants -/

/-- Sameness of values to the bit, as opposed to the equality of the language. -/
def Value.identical : Value → Value → Bool
  | .number a, .number b => a.bits == b.bits
  | v, w => v.same w

/-- Unlike the equality of the language this is an equivalence: it tells apart whatever can be told apart. -/
theorem Value.identical_iff {v w : Value} : v.identical w = true ↔ v = w := by
  cases v <;> cases w
  case number.number a b =>
    obtain ⟨a⟩ := a
    obtain ⟨b⟩ := b
    simp [identical]
  all_goals simp [identical, same]

namespace Chunk

variable {c : Chunk} {v w : Value} {i : Nat} {e : Edit}

/-- A constant is found, or added, or there is no room for it. -/
theorem addConstant_cases (c : Chunk) (v : Value) :
    (∃ i, c.constants[i]? = some v ∧ c.addConstant v = (some i, c)) ∨
      (v ∉ c.constants ∧ c.constants.size < maxConstants ∧
        c.addConstant v = (some c.constants.size, { c with constants := c.constants.push v })) ∨
      (v ∉ c.constants ∧ maxConstants ≤ c.constants.size ∧ c.addConstant v = (none, c)) := by
  rw [addConstant]
  cases hindex : c.constants.idxOf? v with
  | some i => exact .inl ⟨i, Body.getElem?_of_idxOf? hindex, rfl⟩
  | none =>
      have hnew := Array.idxOf?_eq_none_iff.mp hindex
      by_cases hroom : c.constants.size < maxConstants
      · exact .inr (.inl ⟨hnew, hroom, if_pos hroom⟩)
      · exact .inr (.inr ⟨hnew, Nat.le_of_not_lt hroom, if_neg hroom⟩)

/-- No operation but one has to do with constants. -/
theorem constants_edit (c : Chunk) (e : Edit) :
    (c.edit e).constants = c.constants ∨ ∃ v, e = .constant v := by
  cases e with
  | write | jump => exact .inl rfl
  | constant v => exact .inr ⟨v, rfl⟩
  | patch offset =>
      refine .inl ?_
      obtain ⟨-, hnear, hfar⟩ := c.patchJump_spec offset
      cases hfits : (c.patchJump offset).1 with
      | true => exact (hnear hfits).1.constants
      | false => exact congrArg constants (hfar hfits)
  | loop start line =>
      obtain ⟨high, low, hloop⟩ := c.writeLoop_eq start line
      exact .inl (by rw [edit, hloop])

/-- A constant keeps its number. -/
theorem getElem?_edits (h : c.constants[i]? = some v) (es : List Edit) :
    (c.edits es).constants[i]? = some v := by
  induction es generalizing c with
  | nil => exact h
  | cons e es ih =>
      refine ih (c := c.edit e) ?_
      rcases c.constants_edit e with hsame | ⟨w, rfl⟩
      · rw [hsame]
        exact h
      · exact (c.agree_addConstant w 0).constant? i v h

/-- The constants are no more than a byte can number, and no two are identical. -/
structure Pooled (c : Chunk) : Prop where
  size : c.constants.size ≤ maxConstants
  distinct : ∀ (i j : Nat) (v w : Value), c.constants[i]? = some v → c.constants[j]? = some w →
    v.identical w = true → i = j

theorem Pooled.push (h : c.Pooled) (hnew : v ∉ c.constants) (hroom : c.constants.size < maxConstants) :
    Pooled { c with constants := c.constants.push v } := by
  have hold {i : Nat} {w : Value} (hw : (c.constants.push v)[i]? = some w) :
      i = c.constants.size ∧ w = v ∨ i ≠ c.constants.size ∧ c.constants[i]? = some w := by
    rw [Array.getElem?_push] at hw
    split at hw
    · rename_i hi
      exact .inl ⟨hi, (Option.some.inj hw).symm⟩
    · rename_i hi
      exact .inr ⟨hi, hw⟩
  refine ⟨by rw [Array.size_push]; exact hroom, fun i j w w' hw hw' hsame => ?_⟩
  obtain rfl := Value.identical_iff.mp hsame
  rcases hold hw with ⟨hi, rfl⟩ | ⟨hi, hw⟩ <;> rcases hold hw' with ⟨hj, heq⟩ | ⟨hj, hw'⟩
  · rw [hi, hj]
  · exact absurd (Array.mem_of_getElem? hw') hnew
  · exact absurd (heq ▸ Array.mem_of_getElem? hw) hnew
  · exact h.distinct i j w w hw hw' hsame

theorem Pooled.edit (h : c.Pooled) (e : Edit) : (c.edit e).Pooled := by
  rcases c.constants_edit e with hsame | ⟨v, rfl⟩
  · exact ⟨hsame ▸ h.size, hsame ▸ h.distinct⟩
  · rcases c.addConstant_cases v with ⟨i, -, hadd⟩ | ⟨hnew, hroom, hadd⟩ | ⟨-, -, hadd⟩ <;>
      rw [Chunk.edit, hadd]
    · exact h
    · exact h.push hnew hroom
    · exact h

theorem Pooled.edits (h : c.Pooled) (es : List Edit) : (c.edits es).Pooled := by
  induction es generalizing c with
  | nil => exact h
  | cons e es ih => exact ih (h.edit e)

theorem pooled_empty : Pooled {} :=
  ⟨Nat.zero_le _, fun i j v w hv => by simp at hv⟩

/-- Whatever operations a new chunk has been made by: its constants are at most as many as a byte can number
and no two are identical. A value that is to be a constant gets the number of the one that is identical to it,
or else the next number; it gets none just in case all are taken by others, and then nothing changes. A number
that has been given out stands for the same constant for ever. -/
theorem constants_shared (es : List Edit) :
    let c := ({} : Chunk).edits es
    c.constants.size ≤ maxConstants ∧
    (∀ (i j : Nat) (v w : Value), c.constants[i]? = some v → c.constants[j]? = some w →
      v.identical w = true → i = j) ∧
    (∀ v, match c.addConstant v with
      | (some i, c') => (∃ w, c'.constant? i.toUInt8 = some w ∧ w.identical v = true) ∧ i < maxConstants ∧
          ((∃ w, c.constants[i]? = some w ∧ w.identical v = true ∧ c' = c) ∨
            ((∀ w ∈ c.constants, w.identical v = false) ∧ i = c.constants.size ∧
              c' = { c with constants := c.constants.push v }))
      | (none, c') => c' = c) ∧
    (∀ v, (c.addConstant v).1 = none ↔
      c.constants.size = maxConstants ∧ ∀ w ∈ c.constants, w.identical v = false) ∧
    ∀ v i, (c.addConstant v).1 = some i → ∀ later : List Edit,
      ((c.addConstant v).2.edits later).constant? i.toUInt8 = (c.addConstant v).2.constant? i.toUInt8 := by
  intro c
  have hpooled : c.Pooled := pooled_empty.edits es
  have hother {v : Value} (hnew : v ∉ c.constants) : ∀ w ∈ c.constants, w.identical v = false := by
    intro w hw
    rw [Bool.eq_false_iff]
    intro hsame
    exact hnew (Value.identical_iff.mp hsame ▸ hw)
  have hbyte {i : Nat} (hi : i < maxConstants) : i.toUInt8.toNat = i := Nat.mod_eq_of_lt hi
  -- A value that gets a number is a constant by that number.
  have hfound {v : Value} {i : Nat} {c' : Chunk} (hadd : c.addConstant v = (some i, c')) :
      i < maxConstants ∧ c'.constant? i.toUInt8 = some v := by
    have hconstant := constants_addConstant hadd
    have hsize : c'.Pooled := by
      have := hpooled.edit (.constant v)
      rwa [Chunk.edit, hadd] at this
    have hlt : i < maxConstants :=
      Nat.lt_of_lt_of_le (Array.getElem?_eq_some_iff.mp hconstant).1 hsize.size
    exact ⟨hlt, by rw [constant?, hbyte hlt, hconstant]⟩
  refine ⟨hpooled.size, hpooled.distinct, fun v => ?_, fun v => ?_, fun v i hi later => ?_⟩
  · rcases c.addConstant_cases v with ⟨i, hi, hadd⟩ | ⟨hnew, -, hadd⟩ | ⟨-, -, hadd⟩
    · obtain ⟨hlt, hconstant⟩ := hfound hadd
      rw [hadd]
      exact ⟨⟨v, hconstant, Value.identical_iff.mpr rfl⟩, hlt, .inl ⟨v, hi, Value.identical_iff.mpr rfl, rfl⟩⟩
    · obtain ⟨hlt, hconstant⟩ := hfound hadd
      rw [hadd]
      exact ⟨⟨v, hconstant, Value.identical_iff.mpr rfl⟩, hlt, .inr ⟨hother hnew, rfl, rfl⟩⟩
    · rw [hadd]
  · rcases c.addConstant_cases v with ⟨i, hi, hadd⟩ | ⟨-, hroom, hadd⟩ | ⟨hnew, hfull, hadd⟩
    · refine iff_of_false (by rw [hadd]; nofun) fun hboth => ?_
      have hsame := hboth.2 v (Array.mem_of_getElem? hi)
      rw [Value.identical_iff.mpr rfl] at hsame
      cases hsame
    · exact iff_of_false (by rw [hadd]; nofun) fun hboth => Nat.lt_irrefl _ (hboth.1 ▸ hroom)
    · exact iff_of_true (by rw [hadd]) ⟨Nat.le_antisymm hpooled.size hfull, hother hnew⟩
  · obtain ⟨hlt, hconstant⟩ := hfound (Prod.ext hi rfl)
    rw [hconstant, constant?, hbyte hlt]
    rw [constant?, hbyte hlt] at hconstant
    exact getElem?_edits hconstant later

/-- Zero and minus zero are equal in the language, and constants of their own. -/
theorem constants_shared_zeros :
    let zero : Value := .number ⟨0⟩
    let minusZero : Value := .number ⟨0x8000000000000000⟩
    let c := ({} : Chunk).edits [.constant zero, .write 0 1, .constant minusZero]
    (c.addConstant zero).1 = some 0 ∧ (c.addConstant minusZero).1 = some 1 ∧
      ∀ later, ((c.addConstant minusZero).2.edits later).constant? 1 = some minusZero := by
  intro zero minusZero c
  have hzero : (c.addConstant zero).1 = some 0 := by decide +kernel
  have hminus : (c.addConstant minusZero).1 = some 1 := by decide +kernel
  have hconstant : (c.addConstant minusZero).2.constant? 1 = some minusZero := by decide +kernel
  obtain ⟨-, -, -, -, hkept⟩ := constants_shared [.constant zero, .write 0 1, .constant minusZero]
  exact ⟨hzero, hminus, fun later => (hkept minusZero 1 hminus later).trans hconstant⟩

end Chunk

end LoxMachine
