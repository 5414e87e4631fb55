import Consonance.Proofs.Roles

/-!
# Values that are tried

A search looks up what is known of a term, and tries the values that an open one may take.
What a state knows is what every assignment of it says (`Poised.known`, `Poised.eval_eq`), and
the values that are tried are integers of the role of the term, among them those of all
assignments (`Poised.tries`).

A relation puts the terms that it has looked up in the place of its arguments.  Later states
do not tell them apart (`Later.walk_eq`), so giving a value to the one is giving it to the
other (`give_weighs`).

The query tries the values of all its variables in the end (`label_weighs`).  Each assignment
is found once there.
-/

namespace Consonance

/-- What is equated matters only by what it stands for. -/
theorem State.bind_congr {s : State} {a b : Term} (h : s.walk a = s.walk b) (c : Term) :
    s.bind a c = s.bind b c := by
  simp only [bind, equate, h]

namespace Setting

variable {σ : Setting} {V H K : Var → Prop} {k j : Nat} {s t : State} {r : Role} {n : Int}
  {a : Term} {x : Var}

/-! ## Known terms -/

/-- A variable that is known has been met. -/
theorem Poised.mem_of_walk (hs : σ.Poised V k s) (hx : σ.asked x)
    (hw : s.numbered.walk (.var x) = .int n) : V x := by
  by_contra hV
  have hopen := (hs.untouched x hV (.inl hx)).isOpen
  rw [hw] at hopen
  cases hopen

/-- A variable is known as an integer that a search gives its role. -/
theorem Poised.ranges_of_walk (hs : σ.Poised V k s) (hx : σ.asked x)
    (hw : s.numbered.walk (.var x) = .int n) : (σ.role x).Ranges σ.space n := by
  obtain ⟨ρ, hρ⟩ := hs.ready.wellFormed.coherent.exists_fits
  have heval := State.eval_walk hρ (.var x)
  rw [hw, Term.eval_int, Term.eval_var] at heval
  exact heval ▸ hs.ranges x (hs.mem_of_walk hx hw) ρ hρ

/-- What is known of a term is an integer that its role admits. -/
theorem Poised.known (hs : σ.Poised V k s) (ha : σ.Plays r a) {v : Value}
    (hv : s.walk a = .val v) :
    ∃ n, v = r.value n ∧ σ.values r n ∧ s.numbered.walk a.numbered = .int n := by
  have hnumbered := s.walk_numbered a
  have hvalue : ∃ n, v = r.value n ∧ v.numbered = .int n := by
    by_cases hr : r = .pitchClass
    · subst hr
      rcases hs.sorted.walk_classed ha.classed with ⟨x, hx, -⟩ | ⟨c, hc⟩
      · rw [hv] at hx
        cases hx
      · rw [hv] at hc
        cases hc
        exact ⟨c.toInt, by rw [Role.value, PitchClass.ofInt_toInt], rfl⟩
    · have hwalk := hs.sorted.walk_numeric (ha.numeric hr)
      rw [hv] at hwalk
      obtain ⟨n, rfl, -⟩ := hwalk
      exact ⟨n, (Role.value_of_ne hr n).symm, rfl⟩
  obtain ⟨n, rfl, hn⟩ := hvalue
  have hwalk : s.numbered.walk a.numbered = .int n := by rw [hnumbered, hv, Term.numbered, hn]
  refine ⟨n, rfl, ?_, hwalk⟩
  cases a with
  | val w =>
      have heq : Term.val w = .val (r.value n) := (Substitution.walk_val _ _).symm.trans hv
      cases heq
      by_cases hr : r = .pitchClass
      · subst hr
        have hrange : Role.pitchClass.Ranges σ.space (n % 12) := ⟨by omega, by omega⟩
        simp only [Role.value, Value.numbered, PitchClass.toInt_ofInt, Value.int.injEq] at hn
        exact σ.values_of_ranges _ n (hn ▸ hrange)
      · obtain ⟨m, hm, hvalues⟩ := ha.exists_int hr
        rw [Role.value_of_ne hr] at hm
        cases hm
        exact hvalues
  | var x =>
      exact σ.values_of_ranges r n (ha.1 ▸ hs.ranges_of_walk ha.2 hwalk)

/-- All assignments of a state say what it knows. -/
theorem Poised.eval_eq (ha : σ.Plays r a) (hw : s.numbered.walk a.numbered = .int n)
    {ρ : Assignment} (hρ : σ.Has s ρ) : a.eval ρ = n := by
  obtain ⟨ρ', hagree, hsolution⟩ := hρ
  have heval := State.eval_walk hsolution.fits a.numbered
  rw [hw, Term.eval_int, Term.eval_numbered, ha.eval_congr hagree] at heval
  exact heval.symm

/-! ## Open terms -/

/-- A variable that stands for a class is known once it has been met. -/
theorem Poised.class_known (hs : σ.Poised V k s) (hx : σ.Classes x) (hV : V x) :
    ∃ c, s.walk (.var x) = .val (.pitchClass c) := by
  rcases hs.sorted.bindings.walk_class hx with hopen | hknown
  · have hnumbered : s.numbered.walk (.var x) = .var x := by
      have hwalk := s.walk_numbered (.var x)
      change s.walk (.var x) = .var x at hopen
      rwa [hopen] at hwalk
    obtain ⟨d, hd⟩ := hs.encloses x hV x hnumbered
    exact absurd hx (hs.sorted.domains x d hd).1
  · exact hknown

variable (σ) in
/-- The integers that a search tries for a variable. -/
structure Tries (s : State) (x : Var) (ns : List Int) : Prop where
  candidates : s.candidates (.var x) = .ok (ns.map (σ.role x).value)
  nodup : ns.Nodup
  ranges : ∀ n ∈ ns, (σ.role x).Ranges σ.space n
  /-- The integer of every assignment is tried. -/
  complete : ∀ ρ, σ.Has s ρ → (σ.role x).Ranges σ.space (ρ x) → ρ x ∈ ns

theorem Poised.tries_known (hs : σ.Poised V k s) (hx : σ.asked x) {v : Value}
    (hw : s.walk (.var x) = .val v) : ∃ ns, σ.Tries s x ns := by
  have hplays : σ.Plays (σ.role x) (.var x) := ⟨rfl, hx⟩
  obtain ⟨n, rfl, -, hwalk⟩ := hs.known hplays hw
  refine ⟨[n], ?_, List.pairwise_singleton _ _, fun m hm => ?_, fun ρ hρ _ => ?_⟩
  · simp only [State.candidates, hw, List.map_cons, List.map_nil]
  · exact List.mem_singleton.mp hm ▸ hs.ranges_of_walk hx hwalk
  · exact List.mem_singleton.mpr (Poised.eval_eq hplays hwalk hρ)

/-- The values of an open variable are those of a domain, a stored one or that of all pitches. -/
theorem tries_of_domain (hr : σ.role x ≠ .pitchClass) {y : Var} (hw : s.walk (.var x) = .var y)
    {d : Domain} (hd : d.Integral) (hget : (s.stored? y).getD s.spaceDomain = d)
    (hrange : ∀ n : Int, n ∈ d → (σ.role x).Ranges σ.space n)
    (hcomplete : ∀ ρ, σ.Has s ρ → (σ.role x).Ranges σ.space (ρ x) → ρ x ∈ d) :
    ∃ ns, σ.Tries s x ns := by
  have hvalue : (σ.role x).value = Value.int := funext (Role.value_of_ne hr)
  have htoList := hd.toList
  obtain ⟨ns, hns, rfl⟩ := hd
  refine ⟨ns, ?_, hns.imp fun hlt => Int.ne_of_lt hlt, fun n hn => ?_, fun ρ hρ hin => ?_⟩
  · simp only [State.candidates, hw, hget, htoList, hvalue]
    rfl
  · exact hrange n (Domain.mem_ofInts.mpr hn)
  · exact Domain.mem_ofInts.mp (hcomplete ρ hρ hin)

/-- A variable that has been met has a domain of what it is in some assignment. -/
theorem Poised.tries_met (hs : σ.Poised V k s) (hV : V x) {y : Var}
    (hw : s.walk (.var x) = .var y) : ∃ ns, σ.Tries s x ns := by
  have hr : σ.role x ≠ .pitchClass := fun hclass => by
    obtain ⟨c, hc⟩ := hs.class_known hclass hV
    rw [hw] at hc
    cases hc
  have hwalk : s.numbered.walk (.var x) = .var y := by
    have hnumbered := s.walk_numbered (.var x)
    rwa [hw] at hnumbered
  obtain ⟨d, hd⟩ := hs.encloses x hV y hwalk
  rw [State.stored?_numbered] at hd
  refine tries_of_domain hr hw (hs.sorted.domains y d hd).2 (by rw [hd]; rfl) (fun n hn => ?_) ?_
  · have hlets : s.numbered.Lets (.var x) n := by
      refine (State.lets_of_var hwalk).mpr fun e he => ?_
      rw [State.stored?_numbered, hd] at he
      cases he
      exact hn
    obtain ⟨ρ, hρ, rfl⟩ := (hs.ready.wellFormed.coherent.lets_iff (a := .var x) trivial).mp hlets
    exact hs.ranges x hV ρ hρ
  · rintro ρ ⟨ρ', hagree, hρ'⟩ -
    have heval := State.eval_walk hρ'.fits (.var x)
    rw [hwalk, Term.eval_var, Term.eval_var, hagree x (hs.asked x hV)] at heval
    rw [← heval]
    exact hρ'.fits.domains y d hd

/-- A pitch that is still to come may be any pitch of the space. -/
theorem Poised.tries_unmet (hs : σ.Poised V k s) (hx : σ.asked x) (hV : ¬ V x)
    (hpitch : σ.role x = .pitch) {y : Var} (hw : s.walk (.var x) = .var y) :
    ∃ ns, σ.Tries s x ns := by
  have huntouched := hs.untouched x hV (.inl hx)
  have hxy : x = y := by
    have hnumbered := s.walk_numbered (.var x)
    rw [hw] at hnumbered
    exact Term.var.inj (huntouched.isOpen.symm.trans hnumbered)
  subst hxy
  have hbare : s.stored? x = none := huntouched.bare
  have hspace : ∀ n : Int, n ∈ s.spaceDomain ↔ (σ.role x).Ranges σ.space n := fun n =>
    hpitch ▸ mem_spaceDomain hs.space
  have hr : σ.role x ≠ .pitchClass := by
    rw [hpitch]
    exact Role.pitch_ne
  refine tries_of_domain hr hw s.integral_spaceDomain (by rw [hbare]; rfl) ?_ ?_
  · exact fun n => (hspace n).mp
  · exact fun ρ _ => (hspace (ρ x)).mpr

/-- The values that a variable may take are integers of its role, and those of all assignments
are among them. -/
theorem Poised.tries (hs : σ.Poised V k s) (hx : σ.asked x) (hmet : V x ∨ σ.role x = .pitch) :
    ∃ ns, σ.Tries s x ns := by
  cases hw : s.walk (.var x) with
  | val v => exact hs.tries_known hx hw
  | var y =>
      by_cases hV : V x
      · exact hs.tries_met hV hw
      · exact hs.tries_unmet hx hV (hmet.resolve_left hV) hw

/-! ## Terms that are looked up -/

variable (σ) in
/-- The same of a state that an earlier one has become. -/
def Later (s₀ : State) (H : Var → Prop) (k : Nat) (t : State) : Prop :=
  σ.Meets H k t ∧ State.Advances σ.integers s₀.numbered t.numbered

theorem Later.mono {s₀ : State} (h : σ.Later s₀ H k s) (hK : ∀ x, K x → H x) :
    σ.Later s₀ K k s :=
  ⟨h.1.mono hK, h.2⟩

theorem Meets.later (h : σ.Meets H k s) : σ.Later s H k s := ⟨h, .refl⟩

/-- What was looked up for a term still stands for it. -/
theorem Later.walk_eq {s₀ : State} (ht : σ.Later s₀ H k t) (h₀ : σ.Poised V j s₀)
    (ha : σ.Plays r a) : t.walk (s₀.walk a) = t.walk a := by
  obtain ⟨⟨W, -, ht⟩, hadvances⟩ := ht
  refine ht.sorted.walk_inj ?_ (hadvances.refines.walk_congr ?_)
  · by_cases hr : r = .pitchClass
    · subst hr
      refine .inr ⟨?_, ha.classed⟩
      rcases h₀.sorted.walk_classed ha.classed with ⟨x, hw, hx⟩ | ⟨c, hw⟩
      · exact hw ▸ hx
      · exact hw ▸ ⟨c, rfl⟩
    · exact .inl ⟨h₀.sorted.walk_numeric (ha.numeric hr), ha.numeric hr⟩
  · rw [← s₀.walk_numbered, h₀.ready.wellFormed.coherent.walk_walk]

/-- A term that is looked up gets an integer of its role. -/
theorem give_weighs {s₀ : State} (h₀ : σ.Poised V j s₀) (ha : σ.Plays r a)
    (hn : r.Ranges σ.space n) :
    σ.Weighs (σ.Later s₀ H k) (.eq (s₀.walk a) (.val (r.value n))) (σ.Later s₀ (a.joins H) k)
      (once fun ρ => a.eval ρ = n) := by
  refine Goal.lift_weighs fun t ht => ?_
  rw [State.bind_congr (ht.walk_eq h₀ ha)]
  obtain ⟨⟨W, hW, ht⟩, hadvances⟩ := ht
  refine (ht.give ha hn).finds (fun ρ ρ' hagree => by simp only [ha.eval_congr hagree]) ?_
  intro u _ hu hadvances'
  exact ⟨⟨_, fun x hx => hx.imp id (hW x), hu⟩, hadvances.trans hadvances'⟩

/-! ## Labelling -/

variable (σ) in
/-- The variables of `K` are known, beside those of `H` being met. -/
def Knows (K H : Var → Prop) (k : Nat) (s : State) : Prop :=
  σ.Meets H k s ∧ ∀ x, K x → ∃ n, s.numbered.walk (.var x) = .int n

theorem Poised.give_walk (hs : σ.Poised V k s) (ha : σ.Plays r a) (hn : r.Ranges σ.space n)
    (h : s.bind a (.val (r.value n)) = .ok t) : t.numbered.walk a.numbered = .int n := by
  have halike := hs.give_numbered ha hn
  rw [h] at halike
  generalize ho : s.numbered.bind a.numbered (.int n) = o at halike
  cases halike with
  | ok related =>
      rw [related.2] at ho
      exact hs.ready.bind_walk ha.isOver (integers_of_ranges hn) ho

/-- Labelling tries the values of the first term as alternatives. -/
theorem label_cons {rest : List Term} {vs : List Value} (h : s.candidates a = .ok vs) :
    Goal.label (a :: rest) s =
      Goal.disjoin (vs.map fun v => Goal.conjoin [.eq a (.val v), .label rest]) s := by
  have hall : ∀ vs : List Value,
      (Answers.ofList vs).bind (fun v => Goal.both (.eq a (.val v)) (.label rest) s) =
        Goal.disjoin (vs.map fun v => Goal.conjoin [.eq a (.val v), .label rest]) s := by
    intro vs
    induction vs with
    | nil => rfl
    | cons v vs ih =>
        rw [Answers.ofList, Answers.bind_next, ih]
        rfl
  simp only [Goal.label, h]
  exact hall vs

/-- A variable that was known before, or has just been given its integer. -/
theorem knows_give (hx : σ.asked x) (hn : (σ.role x).Ranges σ.space n) :
    σ.Weighs (σ.Knows K H k) (.eq (.var x) (.val ((σ.role x).value n)))
      (σ.Knows (fun y => y = x ∨ K y) H k) (once fun ρ => ρ x = n) := by
  have hplays : σ.Plays (σ.role x) (.var x) := ⟨rfl, hx⟩
  refine Goal.lift_weighs fun s hs => ?_
  obtain ⟨⟨V, hV, hs⟩, hknows⟩ := hs
  refine (hs.give hplays hn).finds (fun ρ ρ' hagree => by simp only [Term.eval_var, hagree x hx]) ?_
  intro t hr ht hadvances
  refine ⟨⟨_, fun y hy => .inr (hV y hy), ht⟩, ?_⟩
  rintro y (rfl | hy)
  · exact ⟨n, hs.give_walk hplays hn hr⟩
  · exact (hknows y hy).imp fun m hm => hadvances.walk_val hm

/-- A query for variables finds each assignment once, and knows the variables then. -/
theorem label_weighs {xs : List Var}
    (hxs : ∀ x ∈ xs, σ.asked x ∧ (H x ∨ σ.role x = .pitch)) :
    σ.Weighs (σ.Knows K H k) (.label (xs.map .var)) (σ.Knows (fun x => x ∈ xs ∨ K x) H k)
      fun ρ => (xs.map fun x => once (fun ρ => (σ.role x).Ranges σ.space (ρ x)) ρ).prod := by
  induction xs generalizing K with
  | nil =>
      refine Goal.succeed_weighs.mono (fun s hs => hs) fun s hs => ⟨hs.1, fun x hx => hs.2 x ?_⟩
      exact hx.resolve_left List.not_mem_nil
  | cons x rest ih =>
      obtain ⟨⟨hasked, hmet⟩, hrest⟩ := List.forall_mem_cons.mp hxs
      refine Goal.weighs_of_forall fun s hs => ?_
      obtain ⟨V, hV, hpoised⟩ := hs.1
      obtain ⟨ns, hns⟩ := hpoised.tries hasked (hmet.imp (hV x) id)
      refine Goal.weighs_at (label_cons hns.candidates) ?_
      rw [List.map_map]
      have hvalues := Goal.disjoin_map_weighs fun n hn =>
        Goal.conjoin_cons_weighs (knows_give (K := K) (H := H) (k := k) hasked (hns.ranges n hn))
          (Goal.conjoin_single_weighs (ih hrest))
      refine Goal.Weighs.congr (hvalues.mono (fun t (ht : t = s) => ht ▸ hs)
        fun t ht => ⟨ht.1, fun y hy => ht.2 y ?_⟩) ?_
      · simpa only [List.mem_cons, or_assoc, or_left_comm] using hy
      · rintro _ rfl ρ hρ
        -- The assignment has just one of the values.
        have honce : ns.Pairwise fun m n => ¬ (ρ x = m ∧ ρ x = n) :=
          hns.nodup.imp fun hne h => hne (h.1.symm.trans h.2)
        rw [List.sum_map_mul_right, sum_once (P := fun n ρ => ρ x = n) honce, List.map_cons,
          List.prod_cons]
        congr 1
        refine once_congr ⟨?_, fun hin => ⟨_, hns.complete ρ hρ hin, rfl⟩⟩
        rintro ⟨n, hn, heq⟩
        exact heq ▸ hns.ranges n hn

end Setting

end Consonance
