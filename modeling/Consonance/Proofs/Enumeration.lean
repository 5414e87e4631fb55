import Consonance.Proofs.Expansion
import Consonance.Proofs.Labelling

/-!
# A search lists the satisfying assignments

A formula is put *within* domains when each of its variables is restricted first, to
finitely many integers (`Formula.within`).  A query for these variables lists, for
each branch of the formula in turn, the rows of the assignments that satisfy the
branch, in strictly ascending lexicographic order.

There are three steps.  The restrictions give every variable a domain, which it keeps
(`State.Encloses`).  The formula then reaches one state for each branch that has
solutions.  Labelling makes all variables known, and a settled state has no difference
left then, so each row that is found does belong to a solution (`Ready.exists_solution`).
-/

namespace Consonance

namespace State

variable {I : Int → Prop} {V : Var → Prop} {s t u : State}

/-! ## Enclosed variables -/

/-- The variables are known or have domains. -/
def Encloses (V : Var → Prop) (s : State) : Prop := ∀ x, V x → s.Confined (.var x)

/-- Enclosed variables stay enclosed. -/
theorem Posts.encloses {W : Var → Prop} {A : Alternative} {r : Except Failure State}
    (h : s.Posts I W A r) (hV : s.Encloses V) (hr : r = .ok t) : t.Encloses V := by
  rw [hr] at h
  exact fun x hx => (Reaches.advances h).confined (hV x hx)

/-- A post that suspends nothing is ready for the variables of before. -/
theorem Posts.keep {W : Var → Prop} {A : Alternative} {r : Except Failure State}
    (h : s.Posts I W A r) (hs : s.Ready I V) (hV : s.Encloses V) (hnone : ∀ c, ¬ A.suspends c) :
    s.Posts I V A r := by
  cases r with
  | error f => exact h
  | ok t =>
      obtain ⟨hready, hadvances, hsolution, hsuspended, hconfined⟩ := h
      have hencloses : t.Encloses V := fun x hx => hadvances.confined (hV x hx)
      refine ⟨⟨hready.wellFormed, hready.settled, .inr hencloses, fun c hc => ?_⟩, hadvances,
        hsolution, hsuspended, hconfined⟩
      exact hs.among c ((hsuspended c hc).resolve_right (hnone c))

/-- A variable that a constraint leaves known or with a domain joins the enclosed ones. -/
theorem Ready.join (hs : s.Ready I V) (hV : s.Encloses V) {x : Var} {c : Constraint}
    (henters : s.Enters I c (c.enter s)) (hasks : ∀ ρ, c.Asks s ρ ↔ c.Holds ρ)
    (hposted : c.posted = []) (hconfines : ∀ y, (Alternative.posting c).confines y → y = x)
    (hconf : ∀ t, c.post s = .ok t → t.Confined (.var x)) {W : Var → Prop}
    (hW : ∀ y, W y ↔ y = x ∨ V y) :
    s.Posts I W (.posting c) (c.post s) ∧ ∀ t, c.post s = .ok t → t.Encloses W := by
  have htakes := henters.takes.congr fun ρ _ => hasks ρ
  cases hr : c.post s with
  | error f =>
      rw [hr] at htakes
      exact ⟨htakes, nofun⟩
  | ok t =>
      rw [hr] at htakes
      obtain ⟨hwf, hadv, hset, hiff⟩ := htakes
      have hx : t.Confined (.var x) := hconf t hr
      have hencloses : t.Encloses W := fun y hy => by
        rcases (hW y).mp hy with rfl | hy
        · exact hx
        · exact hadv.confined (hV y hy)
      have hsuspended : ∀ d ∈ t.differences, d ∈ s.differences := by
        intro d hd
        have hsub := (henters.sublist hr).subset hd
        rwa [hposted, List.append_nil] at hsub
      refine ⟨⟨⟨hwf, hset, .inr hencloses, fun d hd a ha => ?_⟩, hadv, hiff,
        fun d hd => .inl (hsuspended d hd), fun y hy => hconfines y hy ▸ hx⟩, fun u hu => ?_⟩
      · have hamong := hs.among d (hsuspended d hd) a ha
        cases a with
        | var y => exact (hW y).mpr (.inr hamong)
        | val v => exact hamong
      · cases hu
        exact hencloses

/-- A variable that is restricted joins the enclosed ones. -/
theorem Ready.restrict (hs : s.Ready I V) (hV : s.Encloses V) {x : Var} {allowed : Allowed}
    (hallowed : allowed.Over I) (htest : ¬ allowed.IsTest) {W : Var → Prop}
    (hW : ∀ y, W y ↔ y = x ∨ V y) :
    s.Posts I W (.posting (.restricted (.var x) allowed)) (s.restrict (.var x) allowed) ∧
      ∀ t, s.restrict (.var x) allowed = .ok t → t.Encloses W := by
  have hsupplies : s.Supplies I allowed := ⟨hallowed, fun h => absurd h htest⟩
  have hscoped : (Constraint.restricted (.var x) allowed).Scoped I s := ⟨trivial, hsupplies⟩
  refine hs.join hV (enter_spec hs.wellFormed hscoped) (fun ρ => ?_) rfl (fun y hy => ?_) ?_ hW
  · exact ⟨And.left, fun h => ⟨h, fun h' => absurd h' htest⟩⟩
  · obtain ⟨allowed', heq⟩ := hy
    cases heq
    rfl
  · exact fun t ht => restrict_confined hs.wellFormed trivial hsupplies ht

/-- A variable that is equated with an enclosed variable or an integer joins the enclosed
ones. -/
theorem Ready.equate (hs : s.Ready I V) (hV : s.Encloses V) {x : Var} {b : Term}
    (hb : b.Among I V) {W : Var → Prop} (hW : ∀ y, W y ↔ y = x ∨ V y) :
    s.Posts I W (.posting (.equal (.var x) b)) (s.bind (.var x) b) ∧
      ∀ t, s.bind (.var x) b = .ok t → t.Encloses W := by
  have hx : (Term.var x).Over I := trivial
  have hconfb : s.Confined b := by
    cases b with
    | var y => exact hV y hb
    | val v => exact fun y hy => nomatch (Substitution.walk_val _ _).symm.trans hy
  have henters := equate_enters hs.wellFormed hx hb.isOver
  refine hs.join hV henters (fun ρ => Iff.rfl) rfl nofun (fun t ht => ?_) hW
  obtain ⟨u, hu, hprop⟩ := bind_eq_ok.mp ht
  change Enters I s (.equal (.var x) b) (s.equate (.var x) b) at henters
  have hwalk := equate_walk_eq hs.wellFormed.coherent hx hb.isOver hu
  rw [hu] at henters
  obtain ⟨hwf, hadv, -, -⟩ := henters
  have hconfx : u.Confined (.var x) := by
    intro y hy
    exact hadv.confined hconfb y (hwalk.symm.trans hy)
  have htakes := propagate_takes hwf
  rw [hprop] at htakes
  exact htakes.2.1.confined hconfx

/-! ## Rows and solutions -/

/-- When all variables are known, there is no difference left to be met. -/
theorem Ready.exists_solution (hs : s.Ready I V)
    (hknown : ∀ x, V x → ∃ v, s.walk (.var x) = .val v) : ∃ ρ, s.Solution ρ := by
  obtain ⟨ρ, hρ⟩ := hs.wellFormed.coherent.exists_fits
  refine ⟨ρ, hρ, fun c hc => ?_⟩
  have hnone : s.openTerms c = 0 := by
    refine List.countP_eq_zero.mpr fun w hw => ?_
    obtain ⟨a, ha, rfl⟩ := List.mem_map.mp hw
    have hamong := hs.among c hc a ha
    cases a with
    | val v => simp [State.walk, Substitution.walk_val, Term.isVar]
    | var x =>
        obtain ⟨v, hv⟩ := hknown x hamong
        simp [hv, Term.isVar]
  have htwo := hs.settled c hc
  omega

/-- A list of rows holds, in ascending order, what some terms are in the solutions that an
alternative asks for. -/
structure Lists (s : State) (ts : List Term) (A : Alternative) (rows : List (List Int)) :
    Prop where
  /-- The rows come in strictly ascending order. -/
  ascending : rows.Pairwise (· < ·)
  /-- They are the rows of the solutions. -/
  mem_iff : ∀ row, row ∈ rows ↔ ∃ ρ, (s.Solution ρ ∧ A.holds ρ) ∧ ts.map (Term.eval ρ) = row

/-- Labelling all variables of a state lists its solutions. -/
theorem Labels.lists {ts : List Term} {us : List State} {rows : List (List Int)}
    {A : Alternative} (h : t.Labels I V ts us rows) (hall : ∀ x, V x → .var x ∈ ts)
    (hpitched : ∀ ρ, t.Pitched ts ρ) (ht : s.Reaches I V A t) : s.Lists ts A rows := by
  refine ⟨h.ascending, fun row => ⟨fun hrow => ?_, ?_⟩⟩
  · obtain ⟨u, -, hu⟩ := exists_of_forall₂ h.labelled hrow
    have hknown : ∀ x, V x → ∃ v, u.walk (.var x) = .val v := by
      intro x hx
      have hmem : u.walk (.var x) ∈ row.map Term.int :=
        hu.known ▸ List.mem_map.mpr ⟨_, hall x hx, rfl⟩
      obtain ⟨n, -, hn⟩ := List.mem_map.mp hmem
      exact ⟨.int n, hn.symm⟩
    obtain ⟨ρ, hρ⟩ := hu.reaches.ready.exists_solution hknown
    have htρ := (hu.reaches.solution ρ).mp hρ
    exact ⟨ρ, (ht.solution ρ).mp htρ.1, htρ.2⟩
  · rintro ⟨ρ, hρ, rfl⟩
    exact h.complete ρ ((ht.solution ρ).mpr hρ) (hpitched ρ)

/-- Each alternative has its own rows, and they come one after the other. -/
theorem Expands.lists {ts : List Term} {As : List Alternative} {us : List State}
    {wss : List (List State)} (h : s.Expands I V As us) (hall : ∀ x, V x → .var x ∈ ts)
    (hpitched : ∀ u ∈ us, ∀ ρ, u.Pitched ts ρ)
    (hwss : List.Forall₂ (fun u ws => ∃ rows, u.Labels I V ts ws rows) us wss) :
    ∃ blocks, List.Forall₂ (s.Lists ts) As blocks ∧
      List.Forall₂ (fun w row => ts.map w.walk = row.map Term.int) wss.flatten blocks.flatten := by
  induction h generalizing wss with
  | nil =>
      cases hwss
      exact ⟨[], .nil, .nil⟩
  | dead empty _ ih =>
      obtain ⟨blocks, hblocks, hrows⟩ := ih hpitched hwss
      refine ⟨[] :: blocks, .cons ⟨.nil, fun row => ⟨nofun, ?_⟩⟩ hblocks, hrows⟩
      rintro ⟨ρ, ⟨hρ, hA⟩, -⟩
      exact absurd hA (empty ρ hρ)
  | live reaches _ ih =>
      cases hwss with
      | cons hfirst hrest =>
          obtain ⟨rows, hlabels⟩ := hfirst
          obtain ⟨hpitch, hpitches⟩ := List.forall_mem_cons.mp hpitched
          obtain ⟨blocks, hblocks, hrows⟩ := ih hpitches hrest
          refine ⟨rows :: blocks, .cons (hlabels.lists hall hpitch reaches) hblocks, ?_⟩
          exact List.rel_append (hlabels.labelled.imp fun w row hw => hw.known) hrows

theorem empty_ready (space : PitchSpace) (h : (∀ n, I n) ∨ (empty space).Encloses V) :
    (empty space).Ready I V :=
  ⟨wellFormed_empty I space, nofun, h, nofun⟩

theorem empty_solution (space : PitchSpace) (ρ : Assignment) : (empty space).Solution ρ :=
  ⟨⟨Substitution.respects_nil ρ, nofun⟩, nofun⟩

end State

open State

/-! ## Formulas within domains -/

/-- The restrictions of some variables. -/
def Formula.restrictions (domains : List (Var × Admission)) : List Formula :=
  domains.map fun e => .inDomain (.var e.1) e.2

/-- The formula after restrictions of its variables. -/
def Formula.within (domains : List (Var × Admission)) (f : Formula) : Formula :=
  .conjoin (restrictions domains ++ [f])

/-- The restrictions give every variable a domain. -/
theorem Formula.restrictions_follow {I : Int → Prop} {domains : List (Var × Admission)}
    (h : ∀ e ∈ domains, e.2.Over I) :
    ∃ gs : List Goal,
      List.Forall₂ (fun g f => ∀ n, Formula.build f n = .ok (g, n)) gs (restrictions domains) ∧
      ∀ (V W : Var → Prop) (s : State), s.Ready I V → s.Encloses V →
        (∀ y, W y ↔ y ∈ domains.map Prod.fst ∨ V y) →
        (Goal.conjoin gs s).Gives (Failure.Unwritable (Derived I))
          (fun t => t.Ready I W ∧ t.Encloses W)
          (s.Expands I W [alternative (restrictions domains)]) := by
  induction domains with
  | nil =>
      refine ⟨[], .nil, fun V W s hs hV hW => ?_⟩
      have hVW : V = W := funext fun y => propext (by simp [hW y])
      subst hVW
      refine Answers.gives_one ⟨hs, hV⟩ (.live (hs.reaches_self (fun _ => nofun) ?_) .nil)
      rintro x ⟨a, ha⟩
      cases ha
  | cons e rest ih =>
      obtain ⟨he, hrest⟩ := List.forall_mem_cons.mp h
      obtain ⟨allowed, hallowed, hover, htest, hadmits⟩ := he.allowed
      obtain ⟨gs, hbuild, hgs⟩ := ih hrest
      refine ⟨.inDomain (.var e.1) allowed :: gs, .cons (fun n => ?_) hbuild, ?_⟩
      · simp only [build, hallowed]
        rfl
      · intro V W s hs hV hW
        obtain ⟨hposts, hencloses⟩ :=
          hs.restrict hV hover htest (W := fun y => y = e.1 ∨ V y) fun y => Iff.rfl
        have hfirst : (Goal.inDomain (.var e.1) allowed s).Gives (Failure.Unwritable (Derived I))
            (fun t => t.Ready I (fun y => y = e.1 ∨ V y) ∧ t.Encloses fun y => y = e.1 ∨ V y)
            (s.Expands I (fun y => y = e.1 ∨ V y) [alternative [.inDomain (.var e.1) e.2]]) := by
          refine (Goal.lift_gives (hposts.writes (.inDomain hadmits)) ?_).imp fun t => And.left
          exact hposts.kept fun t ht => ⟨hposts.ready ht, hencloses t ht⟩
        rw [Goal.conjoin_cons]
        refine (hfirst.bind fun t ht => hgs _ W t ht.1 ht.2 fun y => ?_).mono fun l hl => ?_
        · rw [hW y, List.map_cons, List.mem_cons, or_left_comm, or_assoc]
        · obtain ⟨ts, uss, hts, huss, rfl⟩ := hl
          have hboth := hts.product huss
          simp only [List.flatMap_cons, List.flatMap_nil, List.map_cons, List.map_nil,
            List.append_nil, ← alternative_append] at hboth
          exact hboth

/-- The goal of a formula within domains, and the states that it reaches. -/
theorem Formula.within_goal {I : Int → Prop} {domains : List (Var × Admission)} {G : Formula}
    (hdomains : ∀ e ∈ domains, e.2.Over I)
    (hG : G.Arithmetic I fun x => x ∈ domains.map Prod.fst) :
    ∃ goal : Goal, (within domains G).goal = .ok goal ∧ ∀ space : PitchSpace,
      (goal (.empty space)).Gives (Failure.Unwritable (Derived I))
        (State.Ready I fun x => x ∈ domains.map Prod.fst)
        ((State.empty space).Expands I (fun x => x ∈ domains.map Prod.fst)
          (G.branches.map fun b => alternative (restrictions domains ++ b))) := by
  obtain ⟨gs, hbuilds, hgs⟩ := restrictions_follow hdomains
  obtain ⟨g, hbuild, hg⟩ := hG.builds (J := Derived I) (K := fun _ => True) (fun _ => id)
    fun c hc s hs _ => (hs.post hc).kept fun _ _ => trivial
  refine ⟨Goal.conjoin (gs ++ [g]), ?_, fun space => ?_⟩
  · have hwhole := build_conjoin (List.rel_append hbuilds (.cons hbuild .nil)) 0
    show (((within domains G).build 0) >>= fun r => pure r.1) = _
    rw [within, hwhole]
    rfl
  · have hfirst := hgs (fun _ => False) (fun x => x ∈ domains.map Prod.fst) (.empty space)
      (empty_ready space (.inr nofun)) nofun fun y => by rw [or_false]
    rw [Goal.conjoin_append]
    have hsecond := hfirst.bind fun t ht => (hg t ht.1 trivial).imp fun u hu => hu.ready
    refine hsecond.mono fun l hl => ?_
    obtain ⟨ts, uss, hts, huss, rfl⟩ := hl
    have hproduct := hts.product huss
    simpa only [List.flatMap_cons, List.flatMap_nil, List.append_nil, List.map_map,
      Function.comp_def, ← alternative_append] using hproduct

/-- The restrictions are met when each variable is in its domain. -/
theorem Formula.together_restrictions {domains : List (Var × Admission)} {ρ : Assignment} :
    Together (restrictions domains) ρ ↔ ∀ e ∈ domains, e.2.Admits (ρ e.1) := by
  simp only [Together, restrictions, List.forall_mem_map]
  exact Iff.rfl

/-- The states in which a query for all variables ends hold one block of rows for each branch. -/
theorem Formula.within_lists {I : Int → Prop} {domains : List (Var × Admission)} {G : Formula}
    {query : List Term} (hquery : query = domains.map fun e => .var e.1)
    (hdomains : ∀ e ∈ domains, e.2.Over I)
    (hG : G.Arithmetic I fun x => x ∈ domains.map Prod.fst) :
    ∃ goal : Goal, (within domains G).goal = .ok goal ∧ ∀ space : PitchSpace,
      (Goal.conjoin [goal, .label query] (.empty space)).Gives
        (Failure.Unwritable (Derived I)) (State.Ready I fun x => x ∈ domains.map Prod.fst)
        fun l => ∃ blocks, List.Forall₂ ((State.empty space).Lists query)
            (G.branches.map fun b => alternative (restrictions domains ++ b)) blocks ∧
          List.Forall₂ (fun w row => query.map w.walk = row.map Term.int) l blocks.flatten := by
  obtain ⟨goal, hgoal, hgives⟩ := within_goal hdomains hG
  refine ⟨goal, hgoal, fun space => ?_⟩
  have hamong : ∀ t ∈ query, t.Among I fun x => x ∈ domains.map Prod.fst := by
    rw [hquery]
    intro t ht
    obtain ⟨e, he, rfl⟩ := List.mem_map.mp ht
    exact List.mem_map.mpr ⟨e, he, rfl⟩
  have hall : ∀ x, x ∈ domains.map Prod.fst → Term.var x ∈ query := by
    rw [hquery]
    intro x hx
    obtain ⟨e, he, rfl⟩ := List.mem_map.mp hx
    exact List.mem_map.mpr ⟨e, he, rfl⟩
  rw [Goal.conjoin_cons]
  refine ((hgives space).bind fun t ht => Goal.label_gives ht hamong).mono fun l hl => ?_
  obtain ⟨ts, uss, hts, huss, rfl⟩ := hl
  refine hts.lists hall (fun u hu ρ t ht hbare => ?_) huss
  -- The restrictions have given every variable a domain, so the space does not matter.
  rw [hquery] at ht
  obtain ⟨e, he, rfl⟩ := List.mem_map.mp ht
  obtain ⟨A, hA, hreaches⟩ := hts.exists_alternative hu
  obtain ⟨b, -, rfl⟩ := List.mem_map.mp hA
  refine absurd (hreaches.confined e.1 ⟨e.2, ?_⟩) hbare
  exact List.mem_append_left _ (List.mem_map.mpr ⟨e, he, rfl⟩)

/-- A query for all variables of a formula within domains lists, for each branch in turn, the
rows of the assignments that satisfy it, in strictly ascending order.  It fails only if an
integer of too many digits would have to be written. -/
theorem Formula.run_within {I : Int → Prop} {domains : List (Var × Admission)} {G : Formula}
    (hdomains : ∀ e ∈ domains, e.2.Over I)
    (hG : G.Arithmetic I fun x => x ∈ domains.map Prod.fst) (space : PitchSpace) :
    (∃ blocks : List (List (List Int)),
      List.Forall₂ (fun b block => block.Pairwise (· < ·) ∧ ∀ row : List Int, row ∈ block ↔
        ∃ ρ : Assignment, (∀ e ∈ domains, e.2.Admits (ρ e.1)) ∧ (∀ f ∈ b, f.Holds ρ) ∧
          domains.map (fun e => ρ e.1) = row) G.branches blocks ∧
      (within domains G).run (domains.map fun e => .var e.1) .nothing space =
        .ok (blocks.flatten.map fun row => row.map Term.int)) ∨
    (within domains G).run (domains.map fun e => .var e.1) .nothing space =
      .error (.invalid .unwritable) ∧ ∃ n, Derived I n ∧ Number.isWritable n = false := by
  obtain ⟨goal, hgoal, hlists⟩ := within_lists rfl hdomains hG
  let query : List Term := domains.map fun e => .var e.1
  have hrun : (within domains G).run query .nothing space =
      ((Goal.conjoin [goal, .label query] (.empty space)).map fun w => query.map w.walk).all := by
    simp only [Formula.run, hgoal]
    rfl
  rw [hrun]
  have hsearch := (hlists space).map (f := fun w => query.map w.walk)
  rcases hsearch.all with ⟨hrows, hok⟩ | ⟨f, hbad, herror⟩
  · obtain ⟨ws, ⟨blocks, hblocks, hws⟩, hitems⟩ := hrows
    refine .inl ⟨blocks, (List.forall₂_map_left_iff.mp hblocks).imp fun b block hb => ?_, ?_⟩
    · refine ⟨hb.ascending, fun row => (hb.mem_iff row).trans (exists_congr fun ρ => ?_)⟩
      have hholds : (alternative (restrictions domains ++ b)).holds ρ ↔
          (∀ e ∈ domains, e.2.Admits (ρ e.1)) ∧ ∀ f ∈ b, f.Holds ρ :=
        List.forall_mem_append.trans (and_congr_left' together_restrictions)
      rw [hholds, and_iff_right (empty_solution space ρ), and_assoc, List.map_map]
      rfl
    · rw [hok, hitems]
      have heq := List.forall₂_map_right_iff.mpr (List.forall₂_map_left_iff.mpr hws)
      rw [List.forall₂_eq_eq_eq] at heq
      exact congrArg Except.ok heq
  · obtain ⟨rfl, n, hn, hlong⟩ := hbad
    exact .inr ⟨herror, n, hn, hlong⟩

/-- A variable that may be zero or one, of which one is asked for. -/
theorem Formula.run_within_one :
    (∀ e ∈ [(Var.named "x", Admission.values [.int 0, .int 1])],
        e.2.Over fun n => n = 0 ∨ n = 1) ∧
      (Formula.eq (.var (.named "x")) (.int 1)).Arithmetic (fun n => n = 0 ∨ n = 1)
        (fun x => x ∈ [(Var.named "x", Admission.values [.int 0, .int 1])].map Prod.fst) ∧
      (within [(.named "x", .values [.int 0, .int 1])] (.eq (.var (.named "x")) (.int 1))).run
        [.var (.named "x")] .nothing .midi = .ok [[.int 1]] := by
  have hdomains : ∀ e ∈ [(Var.named "x", Admission.values [.int 0, .int 1])],
      e.2.Over fun n => n = 0 ∨ n = 1 := by
    intro e he
    rcases List.mem_singleton.mp he with rfl
    exact ⟨[0, 1], rfl, by simp⟩
  have hG : (Formula.eq (.var (.named "x")) (.int 1)).Arithmetic (fun n => n = 0 ∨ n = 1)
      (fun x => x ∈ [(Var.named "x", Admission.values [.int 0, .int 1])].map Prod.fst) :=
    .eq (List.mem_singleton.mpr rfl) ⟨1, rfl, .inr rfl⟩
  refine ⟨hdomains, hG, ?_⟩
  rcases run_within hdomains hG .midi with ⟨blocks, hblocks, hrun⟩ | ⟨-, n, hn, hlong⟩
  · obtain ⟨rows, _, ⟨hascending, hrows⟩, hnil, rfl⟩ := List.forall₂_cons_left_iff.mp hblocks
    cases hnil
    -- The only row is that of the assignment of one.
    have hone : ∀ row, row ∈ rows ↔ row = [1] := by
      intro row
      rw [hrows row]
      constructor
      · rintro ⟨ρ, -, hρ, rfl⟩
        have := hρ _ (List.mem_singleton.mpr rfl)
        simpa [Holds] using this
      · rintro rfl
        exact ⟨fun _ => 1, by simp [Admission.Admits], by simp [Holds], rfl⟩
    have hrows : rows = [[1]] := by
      have hnodup : rows.Nodup := by
        refine hascending.imp fun {row row'} hlt heq => ?_
        rw [heq] at hlt
        exact List.lt_irrefl row' hlt
      refine List.perm_singleton.mp ?_
      refine (List.perm_ext_iff_of_nodup hnodup (List.pairwise_singleton _ _)).mpr fun row => ?_
      rw [hone row, List.mem_singleton]
    rw [hrows] at hrun
    exact hrun
  · have hsmall : n.natAbs < 10 := by
      cases hn with
      | same h => omega
      | sub hm hk => omega
      | add hm hk => omega
    have hwritable : Number.isWritable n = true :=
      Number.isWritable_of_natAbs_lt (k := 1) (by decide) hsmall
    rw [hwritable] at hlong
    cases hlong

end Consonance
