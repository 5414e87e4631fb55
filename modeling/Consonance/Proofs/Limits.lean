import Consonance.Proofs.Discrete
import Consonance.Proofs.Exactness
import Consonance.Proofs.Stream

/-!
# Limits

A search in full is the list of its rows and the failure that it ends with, if it does.  What a
limited search gives is said by these two alone: the rows up to the limit, or the failure if the
rows do not reach it (`run_limited`).

The same holds of portions.  What is left of a stream is known from how many answers have been
asked for (`Answers.LeftAfter`).  One portion keeps this (`Answers.LeftAfter.take`), and so each
portion is a piece of the whole (`portions_getElem?`).
-/

namespace Consonance

namespace Answers

variable {α : Type} {xs ys : Answers α} {asked n : Nat}

/-- The answers after the first ones, `n` of them or as many as there are.  They are lost if the
stream fails among them. -/
def piece (xs : Answers α) (first n : Nat) : Except Failure (List α) :=
  match xs.ending with
  | none => .ok ((xs.items.drop first).take n)
  | some f =>
    if first ≤ xs.items.length ∧ xs.items.length < first + n then .error f
    else .ok ((xs.items.drop first).take n)

/-- What is left of a stream after some answers have been asked for.  A failure is met once. -/
structure LeftAfter (xs : Answers α) (asked : Nat) (ys : Answers α) : Prop where
  items : ys.items = xs.items.drop asked
  ending : ys.ending = if asked ≤ xs.items.length then xs.ending else none

theorem leftAfter_zero (xs : Answers α) : xs.LeftAfter 0 xs :=
  ⟨rfl, (if_pos (Nat.zero_le _)).symm⟩

/-- Nothing is left of a stream of fewer answers. -/
theorem leftAfter_done (h : xs.items.length < asked) : xs.LeftAfter asked .done :=
  ⟨(List.drop_eq_nil_of_le h.le).symm, (if_neg (Nat.not_le.mpr h)).symm⟩

/-- As many answers as there are can be taken, and the others are left. -/
theorem takeAfter_of_le (earlier : List α) {xs : Unit → Answers α}
    (h : n ≤ (xs ()).items.length) :
    ∃ left, takeAfter earlier n xs = .ok (earlier.reverse ++ (xs ()).items.take n, left) ∧
      (left ()).items = (xs ()).items.drop n ∧ (left ()).ending = (xs ()).ending := by
  induction n generalizing earlier xs with
  | zero => exact ⟨xs, by simp [takeAfter], rfl, rfl⟩
  | succ n ih =>
      unfold takeAfter
      cases hxs : xs () with
      | done => simp [hxs, Answers.items] at h
      | raise f => simp [hxs, Answers.items] at h
      | next a rest =>
          simp only [hxs, Answers.items, List.length_cons, Nat.add_le_add_iff_right] at h
          obtain ⟨left, htake, hitems, hending⟩ := ih (a :: earlier) h
          refine ⟨left, ?_, hitems, hending⟩
          simpa [Answers.items] using htake

/-- A stream that ends before is taken in full. -/
theorem takeAfter_of_lt (earlier : List α) {xs : Unit → Answers α}
    (h : (xs ()).items.length < n) (hending : (xs ()).ending = none) :
    takeAfter earlier n xs = .ok (earlier.reverse ++ (xs ()).items, fun _ => .done) := by
  induction n generalizing earlier xs with
  | zero => exact absurd h (Nat.not_lt_zero _)
  | succ n ih =>
      unfold takeAfter
      cases hxs : xs () with
      | done => simp [Answers.items]
      | raise f => simp [hxs, Answers.ending] at hending
      | next a rest =>
          simp only [hxs, Answers.items, List.length_cons, Nat.add_lt_add_iff_right] at h
          rw [hxs] at hending
          simpa [Answers.items] using ih (a :: earlier) h hending

theorem piece_of_le (h : n ≤ xs.items.length - asked) :
    xs.piece asked n = .ok ((xs.items.drop asked).take n) := by
  unfold piece
  cases xs.ending with
  | none => rfl
  | some f => exact if_neg (by omega)

theorem piece_of_none (h : xs.items.length - asked < n) (hending : xs.ending = none) :
    xs.piece asked n = .ok (xs.items.drop asked) := by
  unfold piece
  rw [hending]
  exact congrArg Except.ok (List.take_of_length_le (by rw [List.length_drop]; exact h.le))

theorem piece_of_ending {f : Failure} (hasked : asked ≤ xs.items.length)
    (h : xs.items.length - asked < n) (hending : xs.ending = some f) :
    xs.piece asked n = .error f := by
  unfold piece
  rw [hending]
  exact if_pos ⟨hasked, by omega⟩

/-- Once more answers have been asked for than there are, nothing comes. -/
theorem piece_beyond (h : xs.items.length < asked) (n : Nat) : xs.piece asked n = .ok [] := by
  have hnone : xs.items.drop asked = [] := List.drop_eq_nil_of_le h.le
  unfold piece
  cases xs.ending with
  | none => rw [hnone, List.take_nil]
  | some f =>
      rw [hnone, List.take_nil]
      exact if_neg (by omega)

theorem eq_of_piece {as : List α} (h : xs.piece asked n = .ok as) :
    as = (xs.items.drop asked).take n := by
  unfold piece at h
  split at h
  · exact (Except.ok.inj h).symm
  · split at h
    · cases h
    · exact (Except.ok.inj h).symm

/-- What is taken from the rest of a stream is a piece of the stream, and then less is left. -/
theorem LeftAfter.take (stream : Unit → Answers α) (h : xs.LeftAfter asked (stream ())) (n : Nat) :
    (∃ as left, Answers.take n stream = .ok (as, left) ∧ xs.piece asked n = .ok as ∧
      xs.LeftAfter (asked + n) (left ())) ∨
    ∃ f, Answers.take n stream = .error f ∧ xs.piece asked n = .error f ∧
      xs.LeftAfter (asked + n) .done := by
  have hlength : (stream ()).items.length = xs.items.length - asked := by
    rw [h.items, List.length_drop]
  rcases Nat.lt_or_ge (stream ()).items.length n with hlt | hle
  · have hpast : xs.items.length < asked + n := by omega
    by_cases hasked : asked ≤ xs.items.length
    · have hsame : (stream ()).ending = xs.ending := h.ending.trans (if_pos hasked)
      cases hending : xs.ending with
      | none =>
          refine .inl ⟨_, _, takeAfter_of_lt [] hlt (hsame.trans hending), ?_, leftAfter_done hpast⟩
          rw [piece_of_none (hlength ▸ hlt) hending, h.items]
          rfl
      | some f =>
          exact .inr ⟨f, take_eq_error_iff.mpr ⟨hlt, hsame.trans hending⟩,
            piece_of_ending hasked (hlength ▸ hlt) hending, leftAfter_done hpast⟩
    · have hdone : (stream ()).ending = none := h.ending.trans (if_neg hasked)
      refine .inl ⟨_, _, takeAfter_of_lt [] hlt hdone, ?_, leftAfter_done hpast⟩
      rw [piece_beyond (Nat.not_le.mp hasked), h.items,
        List.drop_eq_nil_of_le (Nat.not_le.mp hasked).le]
      rfl
  · obtain ⟨left, htake, hitems, hending⟩ := takeAfter_of_le [] hle
    refine .inl ⟨_, left, htake, ?_, ⟨?_, ?_⟩⟩
    · rw [piece_of_le (hlength ▸ hle), h.items]
      rfl
    · rw [hitems, h.items, List.drop_drop]
    · rw [hending, h.ending]
      by_cases hasked : asked ≤ xs.items.length
      · rw [if_pos hasked, if_pos (by omega)]
      · rw [if_neg hasked, if_neg (by omega)]

end Answers

/-! ## Portions -/

/-- The number of rows that a value asks for. -/
def asksFor (size : Value) : Nat := (rowCount size).toOption.getD 0

/-- The number of rows that values ask for together. -/
def askedBy : List Value → Nat
  | [] => 0
  | size :: sizes => asksFor size + askedBy sizes

/-- The rows of a portion. -/
def delivered (portion : Except Failure (List Row)) : List Row := portion.toOption.getD []

section Portions

variable {xs : Answers Row} {asked : Nat}

/-- The first portion is a piece of the whole, and the others are taken from what it leaves. -/
theorem portions_cons (stream : Unit → Answers Row) (h : xs.LeftAfter asked (stream ()))
    (size : Value) (sizes : List Value) :
    ∃ left : Unit → Answers Row, portions stream (size :: sizes) =
        (rowCount size).bind (xs.piece asked) :: portions left sizes ∧
      xs.LeftAfter (asked + asksFor size) (left ()) := by
  cases hsize : rowCount size with
  | error f =>
      have hnone : asksFor size = 0 := by rw [asksFor, hsize]; rfl
      refine ⟨stream, ?_, hnone ▸ h⟩
      simp only [portions, hsize]
      rfl
  | ok n =>
      have hasks : asksFor size = n := by rw [asksFor, hsize]; rfl
      rcases h.take stream n with ⟨as, left, htake, hpiece, hleft⟩ | ⟨f, htake, hpiece, hleft⟩
      · refine ⟨left, ?_, hasks ▸ hleft⟩
        simp only [portions, hsize, htake]
        exact congrArg (· :: _) hpiece.symm
      · refine ⟨fun _ => .done, ?_, hasks ▸ hleft⟩
        simp only [portions, hsize, htake]
        exact congrArg (· :: _) hpiece.symm

/-- Each portion is a piece of the whole. -/
theorem portions_getElem? (stream : Unit → Answers Row) (h : xs.LeftAfter asked (stream ()))
    (sizes : List Value) (i : Nat) :
    (portions stream sizes)[i]? = sizes[i]?.map fun size =>
      (rowCount size).bind (xs.piece (asked + askedBy (sizes.take i))) := by
  induction sizes generalizing stream asked i with
  | nil => rfl
  | cons size sizes ih =>
      obtain ⟨left, hportions, hleft⟩ := portions_cons stream h size sizes
      rw [hportions]
      cases i with
      | zero => rfl
      | succ i => simpa [askedBy, Nat.add_assoc] using ih left hleft i

/-- The rows of a piece, or none if the stream fails among them. -/
theorem delivered_piece (xs : Answers Row) (asked n : Nat) :
    delivered (xs.piece asked n) = (xs.items.drop asked).take n ∨
      delivered (xs.piece asked n) = [] ∧ xs.items.drop (asked + n) = [] := by
  cases hpiece : xs.piece asked n with
  | ok as => exact .inl (Answers.eq_of_piece hpiece)
  | error f =>
      refine .inr ⟨rfl, List.drop_eq_nil_of_le (Nat.le_of_not_le fun hle => ?_)⟩
      have hall : n ≤ xs.items.length - asked := by omega
      exact nomatch hpiece.symm.trans (Answers.piece_of_le hall)

/-- The rows of the portions follow each other as they do in the whole. -/
theorem flatMap_portions_prefix (stream : Unit → Answers Row)
    (h : xs.LeftAfter asked (stream ())) (sizes : List Value) :
    (portions stream sizes).flatMap delivered <+: xs.items.drop asked := by
  induction sizes generalizing stream asked with
  | nil => exact List.nil_prefix
  | cons size sizes ih =>
      obtain ⟨left, hportions, hleft⟩ := portions_cons stream h size sizes
      have hrest := ih left hleft
      have hfirst : delivered ((rowCount size).bind (xs.piece asked)) =
            (xs.items.drop asked).take (asksFor size) ∨
          delivered ((rowCount size).bind (xs.piece asked)) = [] ∧
            xs.items.drop (asked + asksFor size) = [] := by
        rw [asksFor]
        cases rowCount size with
        | error f => exact .inl List.take_zero.symm
        | ok n => exact delivered_piece xs asked n
      rw [hportions, List.flatMap_cons]
      rcases hfirst with hfirst | ⟨hfirst, hnone⟩
      · have hboth := (List.prefix_append_right_inj
          ((xs.items.drop asked).take (asksFor size))).mpr hrest
        rw [← List.drop_drop, List.take_append_drop] at hboth
        rwa [hfirst]
      · rw [hnone, List.prefix_nil] at hrest
        rw [hfirst, hrest]
        exact List.nil_prefix

end Portions

/-! ## The rows of a search -/

section Search

variable {goal : Goal} {query : List Term} {space : PitchSpace}

theorem rowCount_whole {v : Value} {n : Nat} (h : v.whole? = some (n : Int))
    (hn : (n : Int) ≤ greatestCount) : rowCount v = .ok n := by
  rw [rowCount, h]
  exact if_pos ⟨Int.natCast_nonneg n, hn⟩

/-- A limited search takes a piece of the whole. -/
theorem run_eq_piece {limit : Value} {n : Nat} (h : limit.whole? = some (n : Int))
    (hn : (n : Int) ≤ greatestCount) :
    run goal query limit space = (solutions goal query space).piece 0 n := by
  have htaken : run goal query limit space = do
      return (← Answers.take n fun _ => solutions goal query space).1 := by
    have hsign : limit.holds .lt (.int 0) = .ok false := by
      rw [Value.holds_lt_zero h, decide_eq_false (by omega)]
    cases limit with
    | nothing => cases h
    | _ =>
        simp only [run, hsign, rowCount_whole h hn]
        rfl
  rw [htaken]
  rcases (Answers.leftAfter_zero (solutions goal query space)).take (fun _ => _) n with
    ⟨as, left, htake, hpiece, -⟩ | ⟨f, htake, hpiece, -⟩
  · rw [htake, hpiece]
    rfl
  · rw [htake, hpiece]
    rfl

/-- A limited search without a failure takes the first rows. -/
theorem run_eq_take (hending : (solutions goal query space).ending = none) {n : Int}
    (hn : 0 ≤ n) (hle : n ≤ greatestCount) :
    run goal query (.int n) space = .ok ((solutions goal query space).items.take n.toNat) := by
  obtain ⟨count, rfl⟩ := Int.eq_ofNat_of_zero_le hn
  rw [run_eq_piece rfl hle, Answers.piece, hending]
  rfl

/-- A search in full gives rows and may end with a failure.  A limited search gives the first of
these rows, and fails only if there are too few of them and the search in full fails.  Portions are
pieces of the rows, one after the other, and nothing comes after the end or the failure. -/
theorem run_limited (goal : Goal) (query : List Term) (space : PitchSpace) :
    let xs := solutions goal query space
    (run goal query .nothing space = match xs.ending with
      | none => .ok xs.items
      | some f => .error f) ∧
    (∀ (limit : Value) (n : Nat), limit.whole? = some (n : Int) → (n : Int) ≤ greatestCount →
      (n ≤ xs.items.length → run goal query limit space = .ok (xs.items.take n)) ∧
      (xs.items.length < n → run goal query limit space = match xs.ending with
        | none => .ok xs.items
        | some f => .error f)) ∧
    ∀ sizes : List Value,
      (portions (fun _ => xs) sizes).flatMap delivered <+: xs.items ∧
      ∀ i : Nat,
        (portions (fun _ => xs) sizes)[i]? = (sizes[i]?.map fun size =>
          (rowCount size).bind (xs.piece (askedBy (sizes.take i)))) ∧
        (xs.items.length < askedBy (sizes.take i) →
          (portions (fun _ => xs) sizes)[i]? = sizes[i]?.map fun size =>
            (rowCount size).map fun _ => []) := by
  intro xs
  refine ⟨Answers.all_eq xs, fun limit n hlimit hn => ⟨fun hle => ?_, fun hlt => ?_⟩,
    fun sizes => ⟨?_, fun i => ?_⟩⟩
  · rw [run_eq_piece hlimit hn]
    exact Answers.piece_of_le hle
  · rw [run_eq_piece hlimit hn]
    cases hending : xs.ending with
    | none => exact Answers.piece_of_none hlt hending
    | some f => exact Answers.piece_of_ending (Nat.zero_le _) hlt hending
  · exact flatMap_portions_prefix (fun _ => xs) (Answers.leftAfter_zero xs) sizes
  · have hportion := portions_getElem? (fun _ => xs) (Answers.leftAfter_zero xs) sizes i
    rw [Nat.zero_add] at hportion
    refine ⟨hportion, fun hbeyond => hportion.trans ?_⟩
    cases sizes[i]? with
    | none => rfl
    | some size =>
        simp only [Option.map_some]
        cases rowCount size with
        | error f => rfl
        | ok n => exact congrArg some (Answers.piece_beyond hbeyond n)

/-- A goal with one row and a failure behind it. -/
theorem run_limited_failing :
    let q : Term := .var (.named "q")
    let failure : Failure := .divisionByZero false
    let goal : Goal := .disjoin [.eq q (.int 1), .project fun _ => .error failure]
    let sizes : List Value := [.int 1, .int 1, .int 1]
    (solutions goal [q] .midi).items = [[.int 1]] ∧
      (solutions goal [q] .midi).ending = some failure ∧
      run goal [q] (.int 1) .midi = .ok [[.int 1]] ∧
      run goal [q] (.int 2) .midi = .error failure ∧
      (portions (fun _ => solutions goal [q] .midi) sizes)[1]? = some (.error failure) ∧
      (portions (fun _ => solutions goal [q] .midi) sizes)[2]? = some (.ok []) := by
  intro q failure goal sizes
  let s : State := (State.empty .midi).addBinding (.named "q") (.int 1)
  have hbound : Goal.eq q (.int 1) (.empty .midi) = .one s :=
    Goal.lift_of_ok (State.propagate_of_open (s := s) nofun)
  have hkept : Goal.eq q (.int 1) s = .one s := by
    have hequate : s.equate q (.int 1) = .ok s := by with_unfolding_all rfl
    exact Goal.lift_of_ok (bind_eq_ok.mpr ⟨s, hequate, State.propagate_of_open nofun⟩)
  have hstates : goal (.empty .midi) = .next s fun _ => .raise failure := by
    show (Goal.eq q (.int 1) (.empty .midi)).append _ = _
    rw [hbound]
    rfl
  have hlabel : Goal.label [q] s = .one s := by
    have hcandidates : s.candidates q = .ok [.int 1] := rfl
    have hboth : Goal.both (Goal.eq q (.int 1)) (Goal.label []) s = .one s := by
      rw [Goal.both, hkept, Answers.one_bind]
      rfl
    simp only [Goal.label, hcandidates, Answers.ofList, Answers.bind_next, Answers.bind_done]
    rw [Answers.append_none]
    exact hboth
  have hrows : solutions goal [q] .midi = .next [.int 1] fun _ => .raise failure := by
    rw [solutions, Goal.conjoin_cons, hstates, Answers.bind_next, Goal.conjoin_cons, hlabel]
    rfl
  have hitems : (solutions goal [q] .midi).items = [[.int 1]] := by rw [hrows]; rfl
  have hending : (solutions goal [q] .midi).ending = some failure := by rw [hrows]; rfl
  obtain ⟨-, hlimited, hportions⟩ := run_limited goal [q] .midi
  obtain ⟨-, hpiece⟩ := hportions sizes
  have hone := (hlimited (.int 1) 1 rfl (by decide)).1
  have htwo := (hlimited (.int 2) 2 rfl (by decide)).2
  rw [hitems] at hone htwo
  rw [hending] at htwo
  have hsecond := (hpiece 1).1
  have hthird := (hpiece 2).2
  rw [hitems] at hthird
  refine ⟨hitems, hending, hone (by decide), htwo (by decide), hsecond.trans ?_,
    hthird (by decide)⟩
  have hfails : (solutions goal [q] .midi).piece 1 1 = .error failure :=
    Answers.piece_of_ending (by rw [hitems]; decide) (by rw [hitems]; decide) hending
  exact congrArg some hfails

end Search

end Consonance
