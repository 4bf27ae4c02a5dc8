import LoxMachine.Proofs.Typing.Running

/-!
# Calls of a running machine

Calling values and methods. The callee becomes slot zero of the new frame: for a method it is the
receiver.
-/

namespace LoxMachine

open Machine

namespace BodyKind

theorem receives_object (kind : BodyKind) (o : Object) : kind.Receives (.object o) := by
  cases kind <;> first | trivial | exact ⟨o, rfl⟩

theorem receives_of_not {kind : BodyKind} (h : ¬ kind.IsMethod) (v : Value) : kind.Receives v := by
  cases kind <;> first | trivial | exact absurd trivial h

end BodyKind

namespace Running

variable {w : World} {n : Nat} {m : Machine} {f : Frame} {fs : List Frame} {G : Layout} {E : Env}
  {σ : Shape} {Γ : List Slot} {k : Kind} {s : List Slot} {i : Nat} {v : Value}

/-! ## Entering a call -/

theorem fits_slotKind {kind : BodyKind} (hv : v.Ok w n) : Fits w n v (kind.slotKind v) := by
  cases kind <;> first | exact hv | exact ⟨rfl, hv⟩

/-- The callee and its arguments become the slots of the new frame. -/
theorem enter (R : Running w n m f fs G E ⟨temps i ++ .temp (.is v) :: s, none⟩ Γ)
    (hground : Grounded G.kind s) (hafter : Safe w.routines n G E f.ip ⟨.temp .any :: s, none⟩)
    {c : Closure} {H : Layout} {E' : Env} (hc : c.Has w H E') {params : List Slot} {b : Bool}
    (hlen : params.length = i) (hany : ∀ t ∈ params, t.kind = .any) :
    Running w n { m with frames := ⟨c, 0, (s ++ Γ).length⟩ :: m.frames } ⟨c, 0, (s ++ Γ).length⟩
      (f :: fs) H E' ⟨params ++ [⟨H.kind.slotKind v, b⟩], none⟩ (s ++ Γ) := by
  obtain ⟨ws, u, us, heq, hws, ⟨rfl, hu⟩, hus⟩ := R.split (temps i)
  have hwslen : ws.length = params.length := by
    rw [hws.length_eq, hlen, temps, List.length_replicate]
  have hvalues : Holds w n m.values (params ++ [⟨H.kind.slotKind u, b⟩] ++ (s ++ Γ)) := by
    rw [heq, List.append_assoc]
    exact List.rel_append (Holds.of_any hws.ok hwslen hany) (.cons (fits_slotKind hu) hus)
  have hsteady : Steady w n (params ++ [⟨H.kind.slotKind u, b⟩] ++ (s ++ Γ)) none m.store m.globals
      m.openCells := by
    have hs := R.steady
    rw [show temps i ++ Slot.temp (.is u) :: s ++ Γ = (temps i ++ [.temp (.is u)]) ++ (s ++ Γ) by
      simp] at hs
    refine hs.replace (fun t ht => ?_) _
    rcases List.mem_append.mp ht with ht | ht
    · rw [List.eq_of_mem_replicate ht]
    · rw [List.mem_singleton.mp ht]
  exact {
    frames := by rw [R.frames]
    has := hc
    base := rfl
    calls := .call R.has hground hafter R.base R.calls
    values := hvalues
    steady := hsteady
    declaring := R.declaring }

theorem call (R : Running w n m f fs G E ⟨temps i ++ .temp (.is v) :: s, none⟩ Γ)
    (hground : Grounded G.kind s) (hafter : Safe w.routines n G E f.ip ⟨.temp .any :: s, none⟩)
    {c : Closure} {P : BodyKind → Prop} (hc : c.Ok w n P) (hv : ∀ kind, P kind → kind.Receives v) :
    Fine (fun _ => Goes w.routines w.lineage n) (Machine.call c i) m := by
  have hlen := R.length_values
  simp only [List.length_append, temps, List.length_replicate, List.length_cons] at hlen
  obtain ⟨H, E', hhas, hP, henters⟩ := hc
  obtain ⟨params, b, hparams, hany, hstart⟩ := henters.start v (hv _ hP)
  rw [Fine, call_apply c i (by omega)]
  by_cases harity : i = c.function.arity
  · rw [if_neg (not_not.mpr harity)]
    by_cases hroom : m.frames.length < maxFrames
    · have hbase : m.values.length - 1 - i = (s ++ Γ).length := by
        rw [List.length_append]
        omega
      rw [if_pos hroom, hbase]
      exact Running.goes (R.enter hground hafter hhas (hparams.trans harity.symm) hany) hstart
    · rw [if_neg hroom]
      trivial
  · rw [if_pos harity]
    trivial

/-- Another value in place of the callee. -/
theorem writeCallee {α : Type} {Q : α → Machine → Prop} {g : PUnit → Action α} {v : Value}
    (R : Running w n m f fs G E ⟨temps i ++ .temp k :: s, none⟩ Γ) (hv : v.Ok w n)
    (h : ∀ m', Running w n m' f fs G E ⟨temps i ++ .temp (.is v) :: s, none⟩ Γ → Fine Q (g ⟨⟩) m') :
    Fine Q (writeSlot (s ++ Γ).length v >>= g) m := by
  obtain ⟨ws, u, us, heq, hws, hu, hus⟩ := R.split (temps i)
  have hlt : (s ++ Γ).length < m.values.length := by
    rw [heq, ← hus.length_eq, List.length_append, List.length_cons]
    omega
  refine .bind_ok ((writeSlot_apply _ _).trans (if_pos hlt)) (h _ ?_)
  have hslots (k : Kind) : temps i ++ Slot.temp k :: s = (temps i ++ [Slot.temp k]) ++ s := by simp
  rw [hslots] at R ⊢
  refine R.replace _ _ (fun t ht => ?_) ?_
  · rcases List.mem_append.mp ht with ht | ht
    · rw [List.eq_of_mem_replicate ht]
    · rw [List.mem_singleton.mp ht]
  · rw [← hslots, heq, ← hus.length_eq, setSlot_append, List.append_assoc]
    exact List.rel_append hws (.cons ⟨rfl, hv⟩ hus)

theorem slotBelow {α : Type} {Q : α → Machine → Prop} {g : Nat → Action α}
    (R : Running w n m f fs G E ⟨temps i ++ .temp k :: s, none⟩ Γ)
    (h : Fine Q (g (s ++ Γ).length) m) : Fine Q (Machine.slotBelow i >>= g) m := by
  have hlen := R.length_values
  simp only [List.length_append, temps, List.length_replicate, List.length_cons] at hlen
  have hslot : m.values.length - 1 - i = (s ++ Γ).length := by
    rw [List.length_append]
    omega
  refine .bind_ok ((slotBelow_apply _).trans (if_pos (by omega))) ?_
  rw [hslot]
  exact h

/-- The methods of classes can be called on objects. -/
theorem callMethod {o : Object} {c : Class} {name : String} {g : Closure}
    (R : Running w n m f fs G E ⟨temps i ++ .temp (.is (.object o)) :: s, none⟩ Γ)
    (hground : Grounded G.kind s) (hafter : Safe w.routines n G E f.ip ⟨.temp .any :: s, none⟩)
    (h : m.store.method? c name = some g) :
    Fine (fun _ => Goes w.routines w.lineage n) (Machine.call g i) m :=
  R.call hground hafter (R.steady.methods c name g h) fun kind _ => kind.receives_object o

theorem construct (R : Running w n m f fs G E ⟨temps i ++ .temp k :: s, none⟩ Γ)
    (hground : Grounded G.kind s) (hafter : Safe w.routines n G E f.ip ⟨.temp .any :: s, none⟩)
    (c : Class) :
    Fine (fun _ => Goes w.routines w.lineage n) (Machine.construct c (s ++ Γ).length i) m := by
  refine .bind_ok rfl ?_
  refine (R.setStore (R.steady.newObject c) rfl).writeCallee trivial fun m' R' => .bind_get ?_
  cases hmethod : m'.store.method? c initName with
  | some g => exact R'.callMethod hground hafter hmethod
  | none =>
      by_cases hcount : i = 0
      · subst hcount
        have hle : Shape.Le ⟨.temp (.is (.object (m.store.newObject c).1)) :: s, none⟩
            ⟨.temp .any :: s, none⟩ := ⟨.cons (Slot.le_any _ _) (slots_refl s), rfl⟩
        exact R'.goes (hafter.weaken hle)
      · rw [if_pos hcount]
        trivial

/-- A function of the host takes its arguments off the stack and leaves an answer. -/
theorem callNative (R : Running w n m f fs G E ⟨temps i ++ .temp k :: s, none⟩ Γ)
    (hafter : Safe w.routines n G E f.ip ⟨.temp .any :: s, none⟩) (native : Native) :
    Fine (fun _ => Goes w.routines w.lineage n) (Machine.callNative native (s ++ Γ).length) m := by
  obtain ⟨ws, v, us, heq, hws, -, hus⟩ := R.split (temps i)
  refine .bind_get ?_
  change Fine _ (truncate (s ++ Γ).length >>= fun _ => Machine.push _) m
  have hsplit : m.values = (ws ++ [v]) ++ us := by simp [heq]
  have hlen : m.values.length - (s ++ Γ).length = (ws ++ [v]).length := by
    rw [hsplit, ← hus.length_eq, List.length_append, Nat.add_sub_cancel]
  have hdrop : m.values.drop (m.values.length - (s ++ Γ).length) = us := by
    rw [hlen, hsplit, List.drop_left]
  refine .bind_ok (truncate_apply _) ?_
  rw [hdrop]
  have R' : Running w n (m.setValues us) f fs G E ⟨s, none⟩ Γ := by
    have hslots : temps i ++ Slot.temp k :: s = temps i ++ [Slot.temp k] ++ s := by simp
    rw [hslots] at R
    refine R.replace _ [] (fun t ht => ?_) hus
    rcases List.mem_append.mp ht with ht | ht
    · rw [List.eq_of_mem_replicate ht]
    · rw [List.mem_singleton.mp ht]
  refine R'.push (x := .temp .any) (R.steady.apply_ok native m.time fun u hu => ?_) hafter
  have htake : m.values.take (m.values.length - ((s ++ Γ).length + 1)) = ws := by
    have hws : m.values.length - ((s ++ Γ).length + 1) = ws.length := by
      rw [← Nat.sub_sub, hlen, List.length_append, List.length_singleton, Nat.add_sub_cancel]
    rw [hws, heq, List.take_left]
  rw [toList_extract_stack, htake] at hu
  exact hws.ok u (List.mem_reverse.mp hu)

theorem callValue (R : Running w n m f fs G E ⟨temps i ++ .temp (.is v) :: s, none⟩ Γ)
    (hground : Grounded G.kind s) (hafter : Safe w.routines n G E f.ip ⟨.temp .any :: s, none⟩)
    (hv : v.Ok w n) : Fine (fun _ => Goes w.routines w.lineage n) (Machine.callValue v i) m := by
  refine R.slotBelow ?_
  cases v with
  | closure c =>
      have hc : c.Ok w n fun kind => ¬ kind.IsMethod := hv
      exact R.call hground hafter hc fun _ hkind => BodyKind.receives_of_not hkind _
  | bound id receiver method =>
      obtain ⟨⟨o, rfl⟩, hmethod⟩ := hv
      refine R.writeCallee trivial fun m' R' => ?_
      exact R'.call hground hafter hmethod fun kind _ => kind.receives_object o
  | cls c => exact R.construct hground hafter c
  | native native => exact R.callNative hafter native
  | _ => trivial

theorem invokeFrom {o : Object}
    (R : Running w n m f fs G E ⟨temps i ++ .temp (.is (.object o)) :: s, none⟩ Γ)
    (hground : Grounded G.kind s) (hafter : Safe w.routines n G E f.ip ⟨.temp .any :: s, none⟩)
    (c : Class) (name : String) :
    Fine (fun _ => Goes w.routines w.lineage n) (Machine.invokeFrom c name i) m := by
  refine .bind (.bind_get ?_)
  cases hmethod : m.store.method? c name with
  | some g => exact R.callMethod hground hafter hmethod
  | none => trivial

theorem invoke (R : Running w n m f fs G E ⟨temps i ++ .temp .any :: s, none⟩ Γ)
    (hground : Grounded G.kind s) (hafter : Safe w.routines n G E f.ip ⟨.temp .any :: s, none⟩)
    (name : String) :
    Fine (fun _ => Goes w.routines w.lineage n) (Machine.invoke name i) m := by
  refine R.peek (temps i) List.length_replicate fun v hv hk => ?_
  cases v with
  | object o =>
      refine .bind_get ?_
      cases hfield : m.store.field? o name with
      | some u =>
          have hu := R.steady.fields o name u hfield
          exact R.slotBelow (R.writeCallee hu fun m' R' => R'.callValue hground hafter hu)
      | none => exact (hk (.is (.object o)) ⟨rfl, hv⟩).invokeFrom hground hafter o.cls name
  | _ => trivial

end Running

end LoxMachine
