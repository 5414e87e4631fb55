import Consonance.Proofs.Blocking
import Consonance.Proofs.Labelling
import Consonance.Proofs.Quiescence

/-!
# Labelling splits a state

Labelling terms in a state gives other states, one for each row of integers that the terms take.
The solutions of the state are dealt out among these: each state has the solutions with its row
(`Reachable.label_splits`).

*Open terms.*  A term without a domain is tried with the pitches of the space, and whether it
has a domain is only seen when it is its turn, after the terms before it have been bound
(`State.PitchedInTurn`).  A solution is followed through the turns to the state that has it
(`Goal.exists_labelled`).

*Failures.*  A branch that cannot be bound is dropped if the dead end can be worded.  Its wording
shows integers that arise on the way (`State.Arises`), so the search goes through if these can
be written (`Goal.ending_label`).
-/

namespace Consonance

namespace State

variable {I : Int → Prop} {V : Var → Prop} {s u w : State} {t : Term} {ts : List Term} {n : Int}

/-! ## Integers that arise -/

/-- The integer arises when terms are labelled: it is in a state on the way, or it is a listed
term or one of the values that are tried, or propagation comes to it. -/
inductive Arises : State → List Term → Int → Prop where
  | occurs {s : State} {t : Term} {ts : List Term} {n : Int} (occurs : s.Occurs n) :
      Arises s (t :: ts) n
  | listed {s : State} {ts : List Term} {n : Int} : Arises s (.int n :: ts) n
  | tried {s : State} {t : Term} {ts : List Term} {n : Int} {values : List Value}
      (candidates : s.candidates t = .ok values) (mem : .int n ∈ values) : Arises s (t :: ts) n
  | involved {s w : State} {t : Term} {ts : List Term} {m n : Int} {values : List Value}
      (candidates : s.candidates t = .ok values) (mem : .int m ∈ values)
      (entered : s.equate t (.int m) = .ok w) (involves : w.Involves n) : Arises s (t :: ts) n
  | later {s u : State} {t : Term} {ts : List Term} {m n : Int} {values : List Value}
      (candidates : s.candidates t = .ok values) (mem : .int m ∈ values)
      (taken : s.bind t (.int m) = .ok u) (later : Arises u ts n) : Arises s (t :: ts) n

/-- What a bound term leaves is over integers still. -/
theorem WellFormed.equate (hs : s.WellFormed I) (ht : t.Over I) (hn : I n)
    (h : s.equate t (.int n) = .ok w) : w.WellFormed I := by
  have henters := equate_enters hs ht (Term.over_int hn)
  rw [h] at henters
  exact henters.1

/-- A branch is blocked with integers that arise. -/
theorem bind_blocked (hs : s.WellFormed fun _ => True) (ht : t.Over fun _ => True)
    {values : List Value} (hvalues : s.candidates t = .ok values) (hn : .int n ∈ values)
    {f : Failure} (h : s.bind t (.int n) = .error f) : f.Blocked (s.Arises (t :: ts)) := by
  have hblocked := post_blocked (c := .equal t (.int n)) hs ⟨ht, Term.over_int trivial⟩ h
  refine hblocked.mono fun m hm => ?_
  cases hm with
  | occurs occurs => exact .occurs occurs
  | listed listed =>
      rcases List.mem_cons.mp listed with rfl | listed
      · exact .listed
      · cases List.mem_singleton.mp listed
        exact .tried hvalues hn
  | involved entered involves => exact .involved hvalues hn entered involves

/-! ## Integers of terms with domains -/

/-- Where the terms have domains, what arises are integers of the set, and sums and differences of
two of them. -/
theorem Ready.derived_of_arises (hs : s.Ready I V) (hts : ∀ t ∈ ts, t.Among I V)
    (h : s.Arises ts n) : Derived I n := by
  have htried : ∀ {s : State} {t : Term} {values : List Value} {m : Int}, s.Ready I V →
      t.Among I V → s.candidates t = .ok values → .int m ∈ values → I m := by
    intro s t values m hs ht hvalues hm
    obtain ⟨ns, hns, -, hI, -⟩ := hs.candidates ht
    rw [Except.ok.inj (hvalues.symm.trans hns)] at hm
    obtain ⟨k, hk, heq⟩ := List.mem_map.mp hm
    cases heq
    exact hI _ hk
  induction h with
  | occurs occurs => exact .same (hs.wellFormed.occurs occurs)
  | listed =>
      obtain ⟨m, hm, hI⟩ := (List.forall_mem_cons.mp hts).1
      cases hm
      exact .same hI
  | tried candidates mem =>
      exact .same (htried hs (List.forall_mem_cons.mp hts).1 candidates mem)
  | involved candidates mem entered involves =>
      have ht := (List.forall_mem_cons.mp hts).1
      exact (hs.wellFormed.equate ht.isOver (htried hs ht candidates mem) entered).involves involves
  | @later s u t ts m n values candidates mem taken _ ih =>
      obtain ⟨ht, hrest⟩ := List.forall_mem_cons.mp hts
      have hpost := hs.post (c := .equal t (.int m)) ⟨ht, m, rfl, htried hs ht candidates mem⟩
      exact ih (hpost.ready taken) hrest

/-! ## Terms in turn -/

/-- When it is the turn of a term that is open and has no domain, its integer is a pitch of the
space. -/
def PitchedInTurn : State → List Term → Assignment → Prop
  | _, [], _ => True
  | s, t :: ts, ρ =>
    (¬ s.Confined t → t.eval ρ ∈ s.spaceDomain) ∧
      ∀ u, s.bind t (.int (t.eval ρ)) = .ok u → u.PitchedInTurn ts ρ

/-- An integer over which nothing is asked but that it is one. -/
theorem Ready.bind (hs : s.Ready (fun _ => True) fun _ => True)
    (ht : t.Among (fun _ => True) fun _ => True) (n : Int) :
    s.Posts (fun _ => True) (fun _ => True) (.posting (.equal t (.int n))) (s.bind t (.int n)) :=
  hs.post (c := .equal t (.int n)) ⟨ht, n, rfl, trivial⟩

/-- Terms that have domains are tried with these. -/
theorem Ready.pitchedInTurn (hs : s.Ready (fun _ => True) fun _ => True)
    (hts : ∀ t ∈ ts, t.Among (fun _ => True) fun _ => True) (hconfined : ∀ t ∈ ts, s.Confined t)
    (ρ : Assignment) : s.PitchedInTurn ts ρ := by
  induction ts generalizing s with
  | nil => trivial
  | cons t ts ih =>
      obtain ⟨ht, hrest⟩ := List.forall_mem_cons.mp hts
      obtain ⟨hfirst, hothers⟩ := List.forall_mem_cons.mp hconfined
      refine ⟨fun hbare => absurd hfirst hbare, fun u hu => ?_⟩
      have hbound := hs.bind ht (t.eval ρ)
      rw [hu] at hbound
      exact ih (Reaches.ready hbound) hrest fun a ha =>
        (Reaches.advances hbound).confined (hothers a ha)

end State

open State

namespace Goal

variable {s : State} {t : Term} {ts : List Term} {n : Int}

theorem label_value_of_ok {u : State} (h : s.bind t (.int n) = .ok u) :
    both (eq t (.int n)) (label ts) s = label ts u := by
  simp only [both, eq, lift, h, Answers.one_bind]

theorem label_value_of_deadEnd {cause : DeadEnd} (h : s.bind t (.int n) = .error (.deadEnd cause)) :
    both (eq t (.int n)) (label ts) s = .done := by
  simp only [both, eq, lift, h, Answers.bind_done]

/-- Labelling goes through if the integers that arise can be written. -/
theorem ending_label (hs : s.Ready (fun _ => True) fun _ => True)
    (hts : ∀ t ∈ ts, t.Among (fun _ => True) fun _ => True)
    (hwritable : ∀ n, s.Arises ts n → Number.isWritable n = true) :
    (label ts s).ending = none := by
  induction ts generalizing s with
  | nil => rfl
  | cons t ts ih =>
      obtain ⟨ht, hrest⟩ := List.forall_mem_cons.mp hts
      obtain ⟨ns, hvalues, -⟩ := hs.candidates ht
      rw [label_cons hvalues, Answers.ending_bind, Answers.ending_ofList, Option.or_none,
        Answers.items_ofList, List.findSome?_eq_none_iff]
      intro v hv
      obtain ⟨n, hn, rfl⟩ := List.mem_map.mp hv
      cases hr : s.bind t (.int n) with
      | ok u =>
          refine (congrArg Answers.ending (label_value_of_ok hr)).trans ?_
          exact ih ((hs.bind ht n).ready hr) hrest fun m hm => hwritable m (.later hvalues hv hr hm)
      | error f =>
          obtain ⟨cause, rfl⟩ :=
            (bind_blocked hs.wellFormed ht.isOver hvalues hv hr).exists_deadEnd hwritable
          exact congrArg Answers.ending (label_value_of_deadEnd hr)

/-- Labelling fails only if an integer that arises has too many digits. -/
theorem label_failure (hs : s.Ready (fun _ => True) fun _ => True)
    (hts : ∀ t ∈ ts, t.Among (fun _ => True) fun _ => True) {f : Failure}
    (h : (label ts s).ending = some f) : f.Unwritable (s.Arises ts) := by
  refine ⟨((label_gives hs hts).failure f h).1, by_contra fun hnone => ?_⟩
  have hwritable : ∀ n, s.Arises ts n → Number.isWritable n = true := fun n hn =>
    Bool.eq_true_of_not_eq_false fun hlong => hnone ⟨n, hn, hlong⟩
  exact nomatch h.symm.trans (ending_label hs hts hwritable)

/-- A solution is in one of the states. -/
theorem exists_labelled (hs : s.Ready (fun _ => True) fun _ => True)
    (hts : ∀ t ∈ ts, t.Among (fun _ => True) fun _ => True)
    (hending : (label ts s).ending = none) {ρ : Assignment} (hρ : s.Solution ρ)
    (hpitched : s.PitchedInTurn ts ρ) : ∃ u ∈ (label ts s).items, u.Solution ρ := by
  induction ts generalizing s with
  | nil => exact ⟨s, List.mem_singleton_self s, hρ⟩
  | cons t ts ih =>
      obtain ⟨ht, hrest⟩ := List.forall_mem_cons.mp hts
      obtain ⟨hpitch, hlater⟩ := hpitched
      obtain ⟨ns, hvalues, -, -, htried⟩ := hs.candidates ht
      have hn : .int (t.eval ρ) ∈ (Answers.ofList (ns.map Value.int)).items := by
        rw [Answers.items_ofList]
        refine List.mem_map_of_mem (htried ρ hρ fun a ha => ?_)
        exact List.mem_singleton.mp ha ▸ hpitch
      rw [label_cons hvalues] at hending ⊢
      obtain ⟨hthere, hmem⟩ := Answers.of_ending_bind hending hn
      have hbound := hs.bind ht (t.eval ρ)
      cases hr : s.bind t (.int (t.eval ρ)) with
      | ok u =>
          rw [hr] at hbound
          rw [label_value_of_ok hr] at hthere hmem
          have hu : u.Solution ρ := (Reaches.solution hbound ρ).mpr ⟨hρ, rfl⟩
          obtain ⟨w, hw, hwρ⟩ := ih (Reaches.ready hbound) hrest hthere hu (hlater u hr)
          exact ⟨w, hmem w hw, hwρ⟩
      | error f =>
          rw [hr] at hbound
          exact absurd rfl (hbound.2 ρ hρ)

end Goal

/-! ## Reachable states -/

section Reachable

variable {space : PitchSpace} {s : State} {ts : List Term}

theorem Term.Over.among {t : Term} (ht : t.Over fun _ => True) :
    t.Among (fun _ => True) fun _ => True := by
  cases t with
  | var x => trivial
  | val v => exact ht

theorem Reachable.ready (hs : Reachable space s) : s.Ready (fun _ => True) fun _ => True where
  wellFormed := hs.wellFormed
  settled c hc := (hs.quiet c hc).isOpen
  confined := .inl fun _ => trivial
  among c hc a ha := (hs.wellFormed.differences c hc a ha).isOver.among

/-- States that hold solutions by ascending rows share none. -/
theorem unique_of_ascending {us : List State} {rows : List (List Int)} {ρ : Assignment}
    (hrows : List.Forall₂ (fun u row => u.Solution ρ → ts.map (Term.eval ρ) = row) us rows)
    (hascending : rows.Pairwise (· < ·)) {i j : Fin us.length} (hi : us[i].Solution ρ)
    (hj : us[j].Solution ρ) : i = j := by
  have hlength := hrows.length_eq
  have hrow : ∀ k : Fin us.length, us[k].Solution ρ →
      rows.get (k.cast hlength) = ts.map (Term.eval ρ) := by
    intro k hk
    exact (List.Forall₂.get hrows k.isLt (k.cast hlength).isLt hk).symm
  have hinjective := List.nodup_iff_injective_get.mp hascending.nodup
  exact Fin.cast_injective hlength (hinjective ((hrow i hi).trans (hrow j hj).symm))

/-- Labelling terms in a reachable state gives states in which they are known.  The rows of their
integers strictly ascend, and each state has the solutions with its row.  So a solution in which
the terms that are tried with pitches are pitches is in exactly one of the states. -/
theorem Reachable.label_splits (hs : Reachable space s) (hts : ∀ t ∈ ts, t.Over fun _ => True)
    (hwritable : ∀ n, s.Arises ts n → Number.isWritable n = true) :
    ∃ (us : List State) (rows : List (List Int)), (Goal.label ts s).all = .ok us ∧
      List.Forall₂ (fun u row => ts.map u.walk = row.map Term.int ∧
        ∀ ρ, u.Solution ρ ↔ s.Solution ρ ∧ ts.map (Term.eval ρ) = row) us rows ∧
      rows.Pairwise (· < ·) ∧
      ∀ ρ, s.Solution ρ → s.PitchedInTurn ts ρ → ∃! i : Fin us.length, us[i].Solution ρ := by
  have hready := hs.ready
  have hamong : ∀ t ∈ ts, t.Among (fun _ => True) fun _ => True := fun t ht => (hts t ht).among
  have hending := Goal.ending_label hready hamong hwritable
  obtain ⟨rows, hlabels⟩ := (Goal.label_gives hready hamong).together hending
  refine ⟨(Goal.label ts s).items, rows, ?_, ?_, hlabels.ascending, fun ρ hρ hpitched => ?_⟩
  · rw [Answers.all_eq, hending]
  · exact hlabels.labelled.imp fun u row h => ⟨h.known, h.reaches.solution⟩
  · obtain ⟨u, hu, huρ⟩ := Goal.exists_labelled hready hamong hending hρ hpitched
    obtain ⟨i, hi, rfl⟩ := List.mem_iff_getElem.mp hu
    have hrows := hlabels.labelled.imp fun u row h (hu : u.Solution ρ) =>
      ((h.reaches.solution ρ).mp hu).2
    exact ⟨⟨i, hi⟩, huρ, fun j hj => unique_of_ascending hrows hlabels.ascending hj huρ⟩

/-- Two variables beyond the pitches, at a known distance.  One of them is listed twice. -/
theorem Reachable.label_splits_twice :
    let x := Var.named "x"
    let y := Var.named "y"
    let s : State := ⟨[], [(x, .ofInts [1, 2]), (y, .ofInts [201, 202])],
      [⟨.var y, .var x, .int 200⟩], .midi⟩
    let ts : List Term := [.var y, .int 7, .var x, .var y]
    let ρ : Assignment := fun z => if z = x then 1 else 201
    Reachable .midi s ∧ (∀ t ∈ ts, t.Over fun _ => True) ∧
      (∀ n, s.Arises ts n → Number.isWritable n = true) ∧ s.Solution ρ ∧ s.PitchedInTurn ts ρ ∧
      ∃ us, (Goal.label ts s).all = .ok us ∧ ∃! i : Fin us.length, us[i].Solution ρ := by
  intro x y s ts ρ
  let I : Int → Prop := fun n => n.natAbs < 1000
  let V : Var → Prop := fun z => z = x ∨ z = y
  let s₁ : State := ⟨[], [(x, .ofInts [1, 2])], [], .midi⟩
  let s₂ : State := ⟨[], [(x, .ofInts [1, 2]), (y, .ofInts [201, 202])], [], .midi⟩
  let c₁ : Constraint := .restricted (.var x) (.values [.int 1, .int 2])
  let c₂ : Constraint := .restricted (.var y) (.values [.int 201, .int 202])
  let c₃ : Constraint := .apart (.var y) (.var x) (.int 200)
  have h₁ : c₁.post (.empty .midi) = .ok s₁ := propagate_of_open (List.forall_mem_nil _)
  have h₂ : c₂.post s₁ = .ok s₂ := propagate_of_open (List.forall_mem_nil _)
  have h₃ : c₃.post s₂ = .ok s := propagate_of_pass (by with_unfolding_all rfl)
  have hc₁ : c₁.Integral := ⟨trivial, [1, 2], rfl, fun _ _ => trivial⟩
  have hc₂ : c₂.Integral := ⟨trivial, [201, 202], rfl, fun _ _ => trivial⟩
  have hc₃ : c₃.Integral := ⟨trivial, trivial, Term.over_int trivial⟩
  have hs₀ : Reachable .midi (.empty .midi) := .empty
  have hs₁ : Reachable .midi s₁ := .post hs₀ hc₁ h₁
  have hs₂ : Reachable .midi s₂ := .post hs₁ hc₂ h₂
  have hs : Reachable .midi s := .post hs₂ hc₃ h₃
  have hconfined : ∀ z, V z → s₂.Confined (.var z) := by
    rintro z (rfl | rfl) w hw <;> cases hw
    · exact ⟨.ofInts [1, 2], rfl⟩
    · exact ⟨.ofInts [201, 202], rfl⟩
  have hready : s.Ready I V := by
    have htakes₁ := post_takes (wellFormed_empty I .midi) (c := c₁)
      ⟨trivial, ⟨[1, 2], rfl, by decide⟩, nofun⟩
    rw [h₁] at htakes₁
    have htakes₂ := post_takes htakes₁.1 (c := c₂) ⟨trivial, ⟨[201, 202], rfl, by decide⟩, nofun⟩
    rw [h₂] at htakes₂
    have hready₂ : s₂.Ready I V := ⟨htakes₂.1, htakes₂.2.2.1, .inr hconfined, nofun⟩
    exact (hready₂.post (c := c₃) ⟨.inr rfl, .inl rfl, 200, rfl, by decide⟩).ready h₃
  have hamong : ∀ t ∈ ts, t.Among I V := by
    simp only [ts, List.forall_mem_cons]
    exact ⟨.inr rfl, ⟨7, rfl, by decide⟩, .inl rfl, .inr rfl, List.forall_mem_nil _⟩
  have hover : ∀ t ∈ ts, t.Over fun _ => True := fun t ht =>
    (hamong t ht).isOver.mono fun _ _ => trivial
  have hwritable : ∀ n, s.Arises ts n → Number.isWritable n = true := by
    intro n hn
    have hsmall : n.natAbs < 10 ^ 4 := by
      cases hready.derived_of_arises hamong hn with
      | same hm => exact Nat.lt_trans hm (by decide)
      | @sub m k hm hk =>
          change m.natAbs < 1000 at hm
          change k.natAbs < 1000 at hk
          omega
      | @add m k hm hk =>
          change m.natAbs < 1000 at hm
          change k.natAbs < 1000 at hk
          omega
    exact Number.isWritable_of_natAbs_lt (by decide) hsmall
  have hρ : s.Solution ρ := by
    have hasks : ∀ {s t : State} {c : Constraint}, s.WellFormed (fun _ => True) → c.Integral →
        c.post s = .ok t → (t.Solution ρ ↔ s.Solution ρ ∧ c.Asks s ρ) := by
      intro s t c hs hc h
      have htakes := post_takes hs (hc.scoped s)
      rw [h] at htakes
      exact htakes.2.2.2 ρ
    have hempty : (State.empty .midi).Solution ρ := ⟨⟨nofun, nofun⟩, nofun⟩
    have hx : ρ x = 1 := if_pos rfl
    have hy : ρ y = 201 := if_neg (by decide)
    have hallows₁ : Value.int (ρ x) ∈ [Value.int 1, .int 2] := hx ▸ List.mem_cons_self ..
    have hallows₂ : Value.int (ρ y) ∈ [Value.int 201, .int 202] := hy ▸ List.mem_cons_self ..
    have hdifference : ρ y - ρ x = 200 := by rw [hx, hy]; rfl
    have hρ₁ := (hasks hs₀.wellFormed hc₁ h₁).mpr ⟨hempty, hallows₁, nofun⟩
    have hρ₂ := (hasks hs₁.wellFormed hc₂ h₂).mpr ⟨hρ₁, hallows₂, nofun⟩
    exact (hasks hs₂.wellFormed hc₃ h₃).mpr ⟨hρ₂, hdifference⟩
  have hpitched : s.PitchedInTurn ts ρ := by
    have hknown : s.Confined (.int 7) := fun z hz => nomatch hz
    have hopen : ∀ z, V z → s.Confined (.var z) := hconfined
    refine hs.ready.pitchedInTurn (fun t ht => (hover t ht).among) ?_ ρ
    simp only [ts, List.forall_mem_cons]
    exact ⟨hopen y (.inr rfl), hknown, hopen x (.inl rfl), hopen y (.inr rfl),
      List.forall_mem_nil _⟩
  obtain ⟨us, -, hall, -, -, hunique⟩ := hs.label_splits hover hwritable
  exact ⟨hs, hover, hwritable, hρ, hpitched, us, hall, hunique ρ hρ hpitched⟩

end Reachable

end Consonance
