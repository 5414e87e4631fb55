import Consonance.Proofs.Posting

/-!
# Labelling

`Goal.label` gives terms the values they may take.  From a ready state it reaches one
state for each *row* of integers that the terms have in some solution, at most.  The
rows come in strictly ascending lexicographic order, so none comes twice, and every
row that the terms have in a solution is among them (`State.Labels`).

A term that is open and has no domain is tried with the pitches of the space only.
So what is found of such a term are its solutions among the pitches
(`State.Pitched`).
-/

namespace Consonance

namespace State

variable {I : Int → Prop} {V : Var → Prop} {s u : State}

/-- The open terms without a domain are pitches of the space. -/
def Pitched (s : State) (ts : List Term) (ρ : Assignment) : Prop :=
  ∀ t ∈ ts, ¬ s.Confined t → t.eval ρ ∈ s.spaceDomain

theorem Pitched.advances {t : State} (h : Advances I s t) {ts : List Term} {ρ : Assignment}
    (hρ : s.Pitched ts ρ) : t.Pitched ts ρ := by
  intro u hu hbare
  rw [spaceDomain, h.space]
  exact hρ u hu fun hconf => hbare (h.confined hconf)

/-- The values that a term may take. -/
theorem Ready.candidates (hs : s.Ready I V) {t : Term} (ht : t.Among I V) :
    ∃ ns : List Int, s.candidates t = .ok (ns.map Value.int) ∧ ns.Pairwise (· < ·) ∧
      (∀ n ∈ ns, I n) ∧ ∀ ρ, s.Solution ρ → s.Pitched [t] ρ → t.eval ρ ∈ ns := by
  cases hw : s.walk t with
  | val v =>
      obtain ⟨n, rfl, hn⟩ := hs.wellFormed.coherent.walk_int (fun _ h => h) ht.isOver hw
      refine ⟨[n], ?_, List.pairwise_singleton _ _, ?_, fun ρ hρ _ => ?_⟩
      · simp only [State.candidates, hw, List.map_cons, List.map_nil]
      · exact fun m hm => List.mem_singleton.mp hm ▸ hn
      · rw [← eval_walk hρ.fits, hw]
        exact List.mem_singleton.mpr rfl
  | var x =>
      -- The values are those of a domain of integers, the stored one or that of all pitches.
      have hlist : ∀ d : Domain, d.Over I → (s.stored? x).getD s.spaceDomain = d →
          (∀ ρ, s.Solution ρ → s.Pitched [t] ρ → ρ x ∈ d) →
          ∃ ns : List Int, s.candidates t = .ok (ns.map Value.int) ∧ ns.Pairwise (· < ·) ∧
            (∀ n ∈ ns, I n) ∧ ∀ ρ, s.Solution ρ → s.Pitched [t] ρ → t.eval ρ ∈ ns := by
        intro d hd hget hin
        have htoList := hd.integral.toList
        obtain ⟨ns, hns, rfl⟩ := hd.integral
        refine ⟨ns, ?_, hns, fun n hn => hd.mem n (Domain.mem_ofInts.mpr hn), fun ρ hρ hp => ?_⟩
        · simp only [State.candidates, hw, hget, htoList]
          rfl
        · rw [← eval_walk hρ.fits, hw]
          exact Domain.mem_ofInts.mp (hin ρ hρ hp)
      cases hd : s.stored? x with
      | some d =>
          refine hlist d (hs.wellFormed.coherent.domains x d hd) (by rw [hd]; rfl) fun ρ hρ _ => ?_
          exact hρ.fits.domains x d hd
      | none =>
          have hbare : ¬ s.Confined t := fun h => by
            obtain ⟨d, hd'⟩ := h x hw
            exact nomatch hd.symm.trans hd'
          have hall : ∀ n, I n := by
            have hscoped := hs.scoped ht
            rcases hs.confined with hall | hconf
            · exact hall
            · cases t with
              | val v => exact nomatch (Substitution.walk_val _ _).symm.trans hw
              | var y => exact absurd (hconf y ht) hbare
          have hspace : s.spaceDomain.Over I := ⟨s.integral_spaceDomain, fun n _ => hall n⟩
          refine hlist s.spaceDomain hspace (by rw [hd]; rfl) ?_
          intro ρ hρ hp
          have heval : t.eval ρ = ρ x := by rw [← eval_walk hρ.fits, hw, Term.eval_var]
          rw [← heval]
          exact hp t (List.mem_singleton.mpr rfl) hbare

theorem bindValue_walk {x : Var} {n : Int} {t : Term} (ht : s.walk t = .var x)
    (h : s.bindValue x (.int n) = .ok u) : u.walk t = .int n := by
  have hbound : (s.addBinding x (.int n)).walk t = .int n :=
    walk_addBinding_self (I := fun _ => True) (Term.over_int trivial) ht
  unfold bindValue at h
  split at h
  next =>
    cases h
    exact hbound
  next d _ =>
    obtain ⟨b, -, h⟩ := bind_eq_ok.mp h
    cases b with
    | true =>
        cases h
        exact hbound
    | false =>
        -- A value outside the domain is a failure, whether the domain is shown or not.
        simp only [Bool.false_eq_true, if_false] at h
        split at h
        · obtain ⟨_, -, h⟩ := bind_eq_ok.mp h
          cases h
        · cases h

/-- A variable is bound to another one, which may get a domain before. -/
theorem bindVar_eq {x y : Var} (h : s.bindVar x y = .ok u) :
    ∃ r : State, (r = s ∨ ∃ m, r = s.put y m) ∧ u = r.addBinding x (.var y) := by
  cases hd : s.stored? x with
  | none =>
      simp only [bindVar, hd] at h
      cases h
      exact ⟨s, .inl rfl, rfl⟩
  | some d =>
      have hmerged : ∀ m : Domain,
          (if m.isEmpty then Failure.raise (.deadEnd (.noSharedValue x y))
            else .ok ((s.put y m).addBinding x (.var y))) = .ok u →
          ∃ r : State, (r = s ∨ ∃ m, r = s.put y m) ∧ u = r.addBinding x (.var y) := by
        intro m hm
        split at hm
        next => cases hm
        next =>
          cases hm
          exact ⟨s.put y m, .inr ⟨m, rfl⟩, rfl⟩
      simp only [bindVar, hd] at h
      exact hmerged _ h

/-- Terms that were equated stand for the same from then on. -/
theorem equate_walk_eq (hs : s.Coherent I) {a b : Term} (ha : a.Over I) (hb : b.Over I)
    (h : s.equate a b = .ok u) : u.walk a = u.walk b := by
  have hsteps : Steps I s u := by
    have hyields := equate_yields hs (ha.mono fun _ => .same) (hb.mono fun _ => .same)
      (.inl hb) (.inl ha)
    rw [h] at hyields
    exact hyields.1
  cases hwa : s.walk a with
  | var x =>
      cases hwb : s.walk b with
      | var y =>
          simp only [equate, hwa, hwb, Substitution.binding?] at h
          by_cases hxy : x = y
          · simp only [if_pos hxy] at h
            cases h
            rw [hwa, hwb, hxy]
          · simp only [if_neg hxy] at h
            obtain ⟨r, hr, rfl⟩ := bindVar_eq h
            have hwalk : ∀ t, r.walk t = s.walk t := by
              intro t
              rcases hr with rfl | ⟨m, rfl⟩ <;> rfl
            have hover : (Term.var y).Over I := trivial
            have hne : r.walk b ≠ .var x := fun heq =>
              hxy (Term.var.inj (heq.symm.trans ((hwalk b).trans hwb)))
            rw [walk_addBinding_self hover ((hwalk a).trans hwa), walk_addBinding_ne hover hne,
              hwalk b, hwb]
      | val v =>
          obtain ⟨n, rfl, -⟩ := hs.walk_int (fun _ h => h) hb hwb
          simp only [equate, hwa, hwb, Substitution.binding?] at h
          rw [bindValue_walk hwa h, hsteps.walk_val hwb]
  | val v =>
      obtain ⟨m, rfl, -⟩ := hs.walk_int (fun _ h => h) ha hwa
      cases hwb : s.walk b with
      | var y =>
          simp only [equate, hwa, hwb, Substitution.binding?] at h
          rw [bindValue_walk hwb h, hsteps.walk_val hwa]
      | val w =>
          obtain ⟨n, rfl, -⟩ := hs.walk_int (fun _ h => h) hb hwb
          simp only [equate, hwa, hwb, Substitution.binding?, Value.same_int] at h
          by_cases hmn : m = n
          · subst hmn
            rw [hsteps.walk_val hwa, hsteps.walk_val hwb]
          · rw [if_neg (by simpa using hmn)] at h
            cases h

/-- A term that was equated with an integer is known. -/
theorem equate_walk (hs : s.Coherent I) {t : Term} (ht : t.Over I) {n : Int} (hn : I n)
    (h : s.equate t (.int n) = .ok u) : u.walk t = .int n :=
  (equate_walk_eq hs ht (Term.over_int hn) h).trans (Substitution.walk_val _ _)

theorem Ready.bind_walk (hs : s.Ready I V) {t : Term} (ht : t.Over I) {n : Int} (hn : I n)
    (h : s.bind t (.int n) = .ok u) : u.walk t = .int n := by
  obtain ⟨w, hw, hprop⟩ := bind_eq_ok.mp h
  have hcoh := hs.wellFormed.coherent
  have hscoped : s.Scoped I (.int n) := hs.scoped (u := .int n) ⟨n, rfl, hn⟩
  have hyields := equate_yields hcoh (ht.mono fun _ => .same)
    (hscoped.isOver.mono fun _ => .same) (.inl hscoped.isOver) (.inl ht)
  rw [hw] at hyields
  have htakes := propagate_takes (hs.wellFormed.steps hyields.1)
  rw [hprop] at htakes
  exact htakes.2.1.walk_val (equate_walk hcoh ht hn hw)

/-- The terms have the integers of a row, and nothing else is asked. -/
structure Labelled (I : Int → Prop) (V : Var → Prop) (s : State) (ts : List Term) (u : State)
    (row : List Int) : Prop where
  /-- The state holds the solutions with the row. -/
  reaches : s.Reaches I V (.asking fun ρ => ts.map (Term.eval ρ) = row) u
  known : ts.map u.walk = row.map Term.int

/-- The states hold the solutions by the rows that terms have in them. -/
structure Labels (I : Int → Prop) (V : Var → Prop) (s : State) (ts : List Term) (us : List State)
    (rows : List (List Int)) : Prop where
  labelled : List.Forall₂ (s.Labelled I V ts) us rows
  ascending : rows.Pairwise (· < ·)
  complete : ∀ ρ, s.Solution ρ → s.Pitched ts ρ → ts.map (Term.eval ρ) ∈ rows

/-- The same for the solutions that give the first term one integer. -/
structure LabelsFrom (I : Int → Prop) (V : Var → Prop) (s : State) (t : Term) (ts : List Term)
    (n : Int) (us : List State) (rows : List (List Int)) : Prop where
  labelled : List.Forall₂ (fun u row => s.Labelled I V (t :: ts) u (n :: row)) us rows
  ascending : rows.Pairwise (· < ·)
  complete : ∀ ρ, s.Solution ρ → s.Pitched ts ρ → t.eval ρ = n → ts.map (Term.eval ρ) ∈ rows

/-- The first term gets an integer, and the others are labelled after it. -/
theorem Labels.from {t : Term} {ts : List Term} {n : Int} {us : List State}
    {rows : List (List Int)} (hu : s.Reaches I V (.asking fun ρ => t.eval ρ = n) u)
    (hwalk : u.walk t = .int n) (h : u.Labels I V ts us rows) :
    s.LabelsFrom I V t ts n us rows := by
  have hlabelled : ∀ w row, u.Labelled I V ts w row → s.Labelled I V (t :: ts) w (n :: row) := by
    intro w row hw
    refine ⟨(hu.trans hw.reaches).congr (fun ρ _ => ?_) (fun c => or_self_iff.mp) nofun, ?_⟩
    · show t.eval ρ = n ∧ ts.map (Term.eval ρ) = row ↔ (t :: ts).map (Term.eval ρ) = n :: row
      rw [List.map_cons, List.cons.injEq]
    · rw [List.map_cons, List.map_cons, hw.known, hw.reaches.advances.walk_val hwalk]
  refine ⟨h.labelled.imp hlabelled, h.ascending, fun ρ hρ hp hn => ?_⟩
  exact h.complete ρ ((hu.solution ρ).mpr ⟨hρ, hn⟩) (hp.advances hu.advances)

/-- The integers of the first term are tried in ascending order. -/
theorem labels_cons {t : Term} {ts : List Term} {ns : List Int} (hns : ns.Pairwise (· < ·))
    {lss : List (List State)}
    (h : List.Forall₂ (fun n us => ∃ rows, s.LabelsFrom I V t ts n us rows) ns lss) :
    ∃ rows, List.Forall₂ (s.Labelled I V (t :: ts)) lss.flatten rows ∧
      rows.Pairwise (· < ·) ∧ (∀ row ∈ rows, ∃ n ∈ ns, ∃ rest, row = n :: rest) ∧
      ∀ ρ, s.Solution ρ → s.Pitched ts ρ → t.eval ρ ∈ ns → (t :: ts).map (Term.eval ρ) ∈ rows := by
  induction h with
  | nil => exact ⟨[], .nil, .nil, nofun, fun _ _ _ hn => nomatch hn⟩
  | @cons n us ns lss hfirst _ ih =>
      obtain ⟨hn, hns⟩ := List.pairwise_cons.mp hns
      obtain ⟨rows₁, h₁⟩ := hfirst
      obtain ⟨rows₂, hlabelled, hascending, hheads, hcomplete⟩ := ih hns
      refine ⟨rows₁.map (n :: ·) ++ rows₂, ?_, ?_, ?_, ?_⟩
      · exact List.rel_append (List.forall₂_map_right_iff.mpr h₁.labelled) hlabelled
      · refine List.pairwise_append.mpr ⟨?_, hascending, ?_⟩
        · refine List.pairwise_map.mpr (h₁.ascending.imp fun hlt => ?_)
          exact List.cons_lt_cons_iff.mpr (.inr ⟨rfl, hlt⟩)
        · intro row hrow row' hrow'
          obtain ⟨rest, -, rfl⟩ := List.mem_map.mp hrow
          obtain ⟨m, hm, rest', rfl⟩ := hheads row' hrow'
          exact List.cons_lt_cons_iff.mpr (.inl (hn m hm))
      · intro row hrow
        rcases List.mem_append.mp hrow with hrow | hrow
        · obtain ⟨rest, -, rfl⟩ := List.mem_map.mp hrow
          exact ⟨n, List.mem_cons_self .., rest, rfl⟩
        · obtain ⟨m, hm, rest, rfl⟩ := hheads row hrow
          exact ⟨m, List.mem_cons_of_mem _ hm, rest, rfl⟩
      · intro ρ hρ hp hmem
        rcases List.mem_cons.mp hmem with heq | hmem
        · refine List.mem_append_left _ (List.mem_map.mpr ⟨_, h₁.complete ρ hρ hp heq, ?_⟩)
          rw [List.map_cons, heq]
        · exact List.mem_append_right _ (hcomplete ρ hρ hp hmem)

end State

open State

/-- The first term gets one integer, and the others take each value they may take. -/
theorem Goal.label_value_gives {I : Int → Prop} {V : Var → Prop} {s : State} (hs : s.Ready I V)
    {t : Term} {ts : List Term} (ht : t.Among I V) {n : Int} (hn : I n)
    (hrest : ∀ u : State, u.Ready I V →
      (Goal.label ts u).Gives (Failure.Unwritable (Derived I)) (State.Ready I V)
        fun us => ∃ rows, u.Labels I V ts us rows) :
    (both (eq t (.int n)) (label ts) s).Gives (Failure.Unwritable (Derived I)) (Ready I V)
      fun us => ∃ rows, s.LabelsFrom I V t ts n us rows := by
  have hpost := hs.post (c := .equal t (.int n)) ⟨ht, n, rfl, hn⟩
  change s.Posts I V _ (s.bind t (.int n)) at hpost
  simp only [both, eq, lift]
  cases hr : s.bind t (.int n) with
  | ok u =>
      rw [hr] at hpost
      have hwalk := hs.bind_walk ht.isOver hn hr
      have hreaches : s.Reaches I V (.asking fun ρ => t.eval ρ = n) u := by
        refine Reaches.congr hpost (fun ρ _ => Iff.rfl) ?_ ?_
        · intro c hc
          cases hc
        · intro x hx
          cases hx
      simp only [Answers.one_bind]
      refine (hrest u hreaches.ready).mono fun us hus => ?_
      obtain ⟨rows, hrows⟩ := hus
      exact ⟨rows, hrows.from hreaches hwalk⟩
  | error f =>
      rw [hr] at hpost
      cases hpost.1 with
      | deadEnd cause =>
          refine Answers.gives_done ⟨[], .nil, .nil, fun ρ hρ _ heq => ?_⟩
          exact absurd heq (hpost.2 ρ hρ)
      | unwritable shows mem long => exact Answers.gives_raise ⟨rfl, _, mem, long⟩

/-- The values of the first term are tried one after the other. -/
theorem Goal.label_cons {s : State} {t : Term} {values : List Value}
    (h : s.candidates t = .ok values) (ts : List Term) :
    label (t :: ts) s =
      (Answers.ofList values).bind fun v => both (eq t (.val v)) (label ts) s := by
  simp only [label, h]

/-- Labelling terms in a ready state. -/
theorem Goal.label_gives {I : Int → Prop} {V : Var → Prop} {s : State} (hs : s.Ready I V)
    {ts : List Term} (hts : ∀ t ∈ ts, t.Among I V) :
    (Goal.label ts s).Gives (Failure.Unwritable (Derived I)) (State.Ready I V)
      fun us => ∃ rows, s.Labels I V ts us rows := by
  induction ts generalizing s with
  | nil =>
      refine Answers.gives_one hs ⟨[[]], ⟨.cons ⟨?_, rfl⟩ .nil, ?_, ?_⟩⟩
      · exact hs.reaches_self (fun _ => rfl) fun _ => id
      · exact List.pairwise_singleton _ _
      · exact fun ρ _ _ => List.mem_singleton.mpr rfl
  | cons t ts ih =>
      obtain ⟨ht, hrest⟩ := List.forall_mem_cons.mp hts
      obtain ⟨ns, hcandidates, hns, hI, hcomplete⟩ := hs.candidates ht
      have hvalues : ∀ v ∈ ns.map Value.int, ∃ n, v = .int n ∧ I n := by
        intro v hv
        obtain ⟨n, hn, rfl⟩ := List.mem_map.mp hv
        exact ⟨n, rfl, hI n hn⟩
      have hfrom : ∀ v, (∃ n, v = .int n ∧ I n) →
          (both (eq t (.val v)) (label ts) s).Gives (Failure.Unwritable (Derived I)) (Ready I V)
            fun us => ∀ n, v = .int n → ∃ rows, s.LabelsFrom I V t ts n us rows := by
        rintro v ⟨n, rfl, hn⟩
        refine (label_value_gives hs ht hn fun u hu => ih hu hrest).mono fun us hus m hm => ?_
        cases hm
        exact hus
      rw [label_cons hcandidates]
      refine ((Answers.gives_ofList hvalues).bind hfrom).mono fun us hus => ?_
      obtain ⟨as, lss, rfl, hlss, rfl⟩ := hus
      have hfirst := (List.forall₂_map_left_iff.mp hlss).imp fun n us hn => hn n rfl
      obtain ⟨rows, hlabelled, hascending, -, hrows⟩ := labels_cons hns hfirst
      refine ⟨rows, hlabelled, hascending, fun ρ hρ hp => ?_⟩
      refine hrows ρ hρ (fun u hu => hp u (List.mem_cons_of_mem _ hu)) (hcomplete ρ hρ ?_)
      exact fun u hu => hp u (List.mem_singleton.mp hu ▸ List.mem_cons_self ..)

end Consonance
