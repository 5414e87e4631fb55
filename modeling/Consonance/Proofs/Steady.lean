import Consonance.Formula

/-!
# Computations without dead ends

Reading an argument and working with numbers can fail in many ways, but never at a dead
end.  Such a computation is *steady*.  The arithmetic of values, the order of values and
the reading of names are steady, and so is the building of a goal from a formula, whatever
the formula says.  What is left for dead ends are the operations of states.
-/

namespace Consonance

/-- A failure is a dead end. -/
def Failure.IsDeadEnd (f : Failure) : Prop := ∃ cause, f = .deadEnd cause

/-- A computation gives something with a property, or fails otherwise than at a dead end. -/
def Steady {α : Type} (r : Except Failure α) (P : α → Prop) : Prop :=
  match r with
  | .ok a => P a
  | .error f => ¬ f.IsDeadEnd

namespace Steady

variable {α β : Type} {r : Except Failure α} {P Q : α → Prop} {R : β → Prop}

theorem ok {a : α} (h : P a) : Steady (.ok a) P := h

theorem error {f : Failure} (h : ¬ f.IsDeadEnd) : Steady (.error f : Except Failure α) P := h

theorem mono (h : Steady r P) (hPQ : ∀ a, P a → Q a) : Steady r Q := by
  cases r with
  | ok a => exact hPQ a h
  | error f => exact h

theorem bind {k : α → Except Failure β} (h : Steady r P) (hk : ∀ a, P a → Steady (k a) R) :
    Steady (r >>= k) R := by
  cases r with
  | ok a => exact hk a h
  | error f => exact h

theorem ne_deadEnd (h : Steady r P) (cause : DeadEnd) : r ≠ .error (.deadEnd cause) := by
  rintro rfl
  exact h ⟨cause, rfl⟩

/-- A list of computations gives a list. -/
theorem mapM {f : α → Except Failure β} {l : List α} (h : ∀ a ∈ l, Steady (f a) R) :
    Steady (l.mapM f) fun bs => ∀ b ∈ bs, R b := by
  induction l with
  | nil => exact Steady.ok nofun
  | cons a rest ih =>
      obtain ⟨ha, hrest⟩ := List.forall_mem_cons.mp h
      rw [List.mapM_cons]
      refine ha.bind fun b hb => (ih hrest).bind fun bs hbs => ?_
      exact Steady.ok (List.forall_mem_cons.mpr ⟨hb, hbs⟩)

theorem forM {f : α → Except Failure PUnit} {l : List α} (h : ∀ a ∈ l, Steady (f a) fun _ => True) :
    Steady (l.forM f) fun _ => True := by
  induction l with
  | nil => exact Steady.ok trivial
  | cons a rest ih =>
      obtain ⟨ha, hrest⟩ := List.forall_mem_cons.mp h
      exact ha.bind fun _ _ => ih hrest

end Steady

/-! ## Failures -/

namespace Failure

/-- A failure to show a value is no dead end. -/
theorem not_isDeadEnd_ofTextFault (fault : Value.TextFault) : ¬ (ofTextFault fault).IsDeadEnd := by
  rintro ⟨cause, h⟩
  cases fault <;> cases h

/-- Wording a failure makes no dead end of it. -/
theorem IsDeadEnd.of_worded {f : Failure} (h : f.worded.IsDeadEnd) : f.IsDeadEnd := by
  unfold worded at h
  split at h
  · exact absurd h (not_isDeadEnd_ofTextFault _)
  · exact h

theorem steady_raise {α : Type} {P : α → Prop} {f : Failure} (h : ¬ f.IsDeadEnd) :
    Steady (raise f) P :=
  fun hworded => h hworded.of_worded

end Failure

/-! ## Numbers -/

namespace Quantity

theorem steady_toFloat (n : Int) : Steady (toFloat n) fun _ => True := by
  simp only [toFloat]
  split
  · trivial
  · exact Steady.error nofun

theorem steady_common (p q : Quantity) : Steady (common p q) fun _ => True := by
  have hfloat : ∀ (n : Int) (pair : Number.Binary64 → Pair),
      Steady (toFloat n >>= fun x => .ok (pair x)) fun _ => True :=
    fun n pair => (steady_toFloat n).bind fun _ _ => Steady.ok trivial
  cases p <;> cases q <;> first | trivial | exact hfloat _ _

theorem steady_combine (whole : Int → Int → Int)
    (floating : Number.Binary64 → Number.Binary64 → Number.Binary64) (p q : Quantity) :
    Steady (combine whole floating p q) fun _ => True := by
  refine (steady_common p q).bind fun pair _ => ?_
  cases pair <;> exact Steady.ok trivial

theorem steady_divide {whole : Int → Int → Except Failure Quantity}
    (hwhole : ∀ m n, Steady (whole m n) fun _ => True)
    (floating : Number.Binary64 → Number.Binary64 → Number.Binary64) (p q : Quantity) :
    Steady (divide whole floating p q) fun _ => True := by
  refine (steady_common p q).bind fun pair _ => ?_
  cases pair with
  | whole m n =>
      show Steady (if n = 0 then _ else _) _
      split
      · exact Steady.error nofun
      · exact hwhole m n
  | floating x y =>
      show Steady (if y.isZero then _ else _) _
      split
      · exact Steady.error nofun
      · exact Steady.ok trivial

theorem steady_quotient (m n : Int) : Steady (quotient m n) fun _ => True := by
  simp only [quotient]
  split
  · exact Steady.error nofun
  · exact Steady.ok trivial

theorem steady_apply (op : Operation) (p q : Quantity) : Steady (apply op p q) fun _ => True := by
  cases op with
  | add => exact steady_combine ..
  | sub => exact steady_combine ..
  | mul => exact steady_combine ..
  | div => exact steady_divide steady_quotient ..
  | floorDiv => exact steady_divide (fun _ _ => Steady.ok trivial) ..
  | mod => exact steady_divide (fun _ _ => Steady.ok trivial) ..

end Quantity

/-! ## Values -/

namespace Value

theorem steady_of_numeric? {op : Operation} {a b : Value} {r : Except Failure Value}
    (h : numeric? op a b = some r) : Steady r fun _ => True := by
  unfold numeric? at h
  split at h
  · cases h
    exact (Quantity.steady_apply ..).bind fun _ _ => Steady.ok trivial
  · cases h

theorem steady_calculate (op : Operation) (a b : Value) :
    Steady (calculate op a b) fun _ => True := by
  simp only [calculate]
  split
  next h => exact steady_of_numeric? h
  next => exact Steady.error nofun

theorem steady_sub (a b : Value) : Steady (sub a b) fun _ => True := steady_calculate ..

theorem steady_add (a b : Value) : Steady (add a b) fun _ => True := by
  simp only [add]
  split
  · exact Steady.ok trivial
  · exact Steady.ok trivial
  · exact (Quantity.steady_apply ..).bind fun _ _ => Steady.ok trivial
  · exact Steady.error nofun
  · exact Steady.error nofun
  · exact steady_calculate ..

/-- A count is looked at before what comes of it. -/
theorem steady_counted {bound : Prop} [Decidable bound] {outcome : Except Failure Value}
    (h : Steady outcome fun _ => True) :
    Steady (if bound then .error (.overflow .repetitions) else outcome) fun _ => True := by
  split
  · exact Steady.error nofun
  · exact h

theorem steady_of_repeated {count : Int} {v : Value} {r : Except Failure Value}
    (h : repeated count v = some r) : Steady r fun _ => True := by
  cases v with
  | text s =>
      cases h
      refine steady_counted ?_
      repeat' split
      all_goals first | exact Steady.ok trivial | exact Steady.error nofun
  | list xs =>
      cases h
      refine steady_counted ?_
      repeat' split
      all_goals first | exact Steady.ok trivial | exact Steady.error nofun
  | _ => cases h

theorem steady_of_whole?_bind {v w : Value} {r : Except Failure Value}
    (h : v.whole?.bind (repeated · w) = some r) : Steady r fun _ => True := by
  obtain ⟨_, -, hr⟩ := Option.bind_eq_some_iff.mp h
  exact steady_of_repeated hr

theorem steady_mul (a b : Value) : Steady (mul a b) fun _ => True := by
  simp only [mul]
  split
  next h => exact steady_of_numeric? h
  next =>
    repeat' split
    all_goals first | exact steady_of_whole?_bind ‹_› | exact Steady.error nofun

theorem steady_holds (c : Comparison) (a b : Value) : Steady (holds c a b) fun _ => True := by
  simp only [holds]
  repeat' split
  all_goals first | exact Steady.ok trivial | exact Steady.error nofun

theorem steady_requireMember (v : Value) : Steady v.requireMember fun _ => True := by
  fun_induction requireMember v with
  | case4 a b iha ihb => exact iha.bind fun _ _ => ihb
  | case6 => exact Steady.ok trivial
  | _ => exact Steady.error nofun

end Value

/-! ## Domains -/

namespace Domain

theorem steady_ofList (vs : List Value) : Steady (ofList vs) fun _ => True :=
  (Steady.forM fun v _ => v.steady_requireMember).bind fun _ _ => Steady.ok trivial

theorem steady_wholeEnd (v : Value) : Steady (wholeEnd v) fun _ => True := by
  simp only [wholeEnd]
  split
  · exact Steady.ok trivial
  · exact Steady.error nofun

theorem steady_between (lowest highest : Value) :
    Steady (between lowest highest) fun _ => True := by
  refine (Value.steady_add highest (.int 1)).bind fun past _ => ?_
  refine (steady_wholeEnd lowest).bind fun _ _ => ?_
  exact (steady_wholeEnd past).bind fun _ _ => Steady.ok trivial

theorem steady_requireOrdered (vs : List Value) : Steady (requireOrdered vs) fun _ => True := by
  fun_induction requireOrdered vs with
  | case1 => exact Steady.ok trivial
  | case2 => exact Steady.ok trivial
  | case3 v w rest ih => exact (Value.steady_holds .lt w v).bind fun _ _ => ih

theorem steady_toList (d : Domain) : Steady d.toList fun _ => True :=
  (steady_requireOrdered d.values).bind fun _ _ => Steady.ok trivial

end Domain

theorem State.steady_candidates (s : State) (t : Term) : Steady (s.candidates t) fun _ => True := by
  simp only [candidates]
  split
  · exact Steady.ok trivial
  · exact Domain.steady_toList _

theorem Admission.steady_allowed (a : Admission) : Steady a.allowed fun _ => True := by
  cases a with
  | interval lowest highest =>
      exact (Domain.steady_between ..).bind fun _ _ => Steady.ok trivial
  | domain vs => exact (Domain.steady_ofList vs).bind fun _ _ => Steady.ok trivial
  | values vs => exact Steady.ok trivial
  | passing c => exact Steady.ok trivial

/-! ## Names -/

theorem PitchClass.steady_ofValue (v : Value) : Steady (ofValue v) fun _ => True := by
  simp only [ofValue]
  split
  · exact Steady.ok trivial
  · split
    · exact Steady.ok trivial
    · exact Steady.error nofun
  · exact Failure.steady_raise nofun

theorem IntervalTable.steady_distanceOf (t : IntervalTable) (v : Value) :
    Steady (t.distanceOf v) fun _ => True := by
  simp only [distanceOf]
  split
  · split
    · exact Steady.ok trivial
    · exact Steady.error nofun
  · exact Failure.steady_raise nofun

theorem steady_resolveDistance (v : Value) : Steady (resolveDistance v) fun _ => True := by
  simp only [resolveDistance]
  split
  · exact Steady.ok trivial
  · exact (IntervalTable.steady_distanceOf ..).bind fun _ _ => Steady.ok trivial
  · split
    · exact Failure.steady_raise nofun
    · exact Steady.ok trivial
  · exact Steady.ok trivial
  · exact Failure.steady_raise nofun

namespace ChordQuality

theorem steady_ofTerm (t : Term) : Steady (ofTerm t) fun _ => True := by
  simp only [ofTerm]
  split
  · split
    · exact Steady.ok trivial
    · exact Steady.error nofun
  · exact Failure.steady_raise nofun

theorem steady_voicing (q : ChordQuality) (inversion : Nat) :
    Steady (q.voicing inversion) fun _ => True := by
  have hrotated : Steady (q.rotated inversion) fun _ => True :=
    (Steady.mapM fun tone _ => tone.steady_add (.int 12)).bind fun _ _ => Steady.ok trivial
  refine hrotated.bind fun tones _ => ?_
  split
  · refine (Value.steady_sub ..).bind fun _ _ => ?_
    split
    · exact (Value.steady_sub ..).bind fun _ _ => Steady.ok trivial
    · exact Steady.error nofun
  · exact Steady.error nofun

theorem steady_voicings (q : ChordQuality) : Steady q.voicings fun _ => True :=
  (Steady.mapM fun inversion _ => q.steady_voicing inversion).mono fun _ _ => trivial

end ChordQuality

end Consonance
