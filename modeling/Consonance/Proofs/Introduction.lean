import Consonance.Proofs.Distances

/-!
# Goals that bring in their variables

A relation restricts its arguments itself, so a search of relations may start with nothing
known.  A goal *introduces* the variables of `W` after those of `V` when it leads from states in
which the variables of `V` have domains to states in which those of `W` have domains, one for
each of some properties of assignments that has solutions (`Goal.Introduces`).  The properties
are the ways in which the goal can hold, in the order in which it tries them.

Introductions follow the structure of a goal.  Along a conjunction every way of the first goal
goes together with every way of the rest, and a disjunction has the ways of its parts one after
the other.  When all variables of a query are introduced, its rows come in one ascending block
for each way (`Goal.Introduces.run`).  If the ways exclude each other, no row comes twice
(`Goal.Introduces.run_nodup`).
-/

namespace Consonance

/-- An alternative that asks for a property of assignments, whatever it leaves suspended. -/
def Alternative.loosely (P : Assignment → Prop) : Alternative :=
  ⟨P, fun _ => True, fun _ => False⟩

/-- The ways to hold of two goals together.  Those of the first one change slowest. -/
def waysOfBoth (Ps Qs : List (Assignment → Prop)) : List (Assignment → Prop) :=
  Ps.flatMap fun P => Qs.map fun Q ρ => P ρ ∧ Q ρ

theorem Term.joins_of_mem {t : Term} {V : Var → Prop} (h : ∀ x, t = .var x → V x) :
    t.joins V = V :=
  funext fun x => propext ⟨fun hx => hx.elim (h x) id, .inr⟩

namespace State

variable {I : Int → Prop} {V W : Var → Prop} {space : PitchSpace} {s t : State}

/-- A ready state of a search in a space, in which the variables have domains. -/
structure Enclosed (I : Int → Prop) (V : Var → Prop) (space : PitchSpace) (s : State) : Prop where
  ready : s.Ready I V
  encloses : s.Encloses V
  space : s.space = space

theorem enclosed_empty (I : Int → Prop) (space : PitchSpace) :
    (empty space).Enclosed I (fun _ => False) space :=
  ⟨empty_ready space (.inr fun _ => False.elim), fun _ => False.elim, rfl⟩

/-- Enclosed terms are known or have domains, so no value is tried that is not in one. -/
theorem Enclosed.pitched (hs : s.Enclosed I V space) {ts : List Term}
    (hts : ∀ t ∈ ts, t.Among I V) (ρ : Assignment) : s.Pitched ts ρ := by
  intro t ht hbare
  refine absurd ?_ hbare
  cases t with
  | var x => exact hs.encloses x (hts _ ht)
  | val v => exact fun y hy => nomatch (Substitution.walk_val _ _).symm.trans hy

theorem Posts.loosely {A : Alternative} {P : Assignment → Prop} {r : Except Failure State}
    (h : s.Posts I V A r) (hA : ∀ ρ, A.holds ρ ↔ P ρ) : s.Posts I V (.loosely P) r := by
  cases r with
  | error f => exact ⟨h.1, fun ρ hρ hP => h.2 ρ hρ ((hA ρ).mpr hP)⟩
  | ok t => exact Reaches.congr h (fun ρ _ => hA ρ) (fun _ _ => trivial) fun _ => False.elim

end State

namespace Goal

variable {I : Int → Prop} {U V W : Var → Prop} {space : PitchSpace} {g h : Goal}
  {P Q : Assignment → Prop} {Ps Qs : List (Assignment → Prop)}

/-- From states that enclose `V` the goal reaches states that enclose `W`, one for each way to
hold that has solutions. -/
def Introduces (I : Int → Prop) (space : PitchSpace) (V W : Var → Prop) (g : Goal)
    (Ps : List (Assignment → Prop)) : Prop :=
  ∀ s : State, s.Enclosed I V space →
    (g s).Gives (Failure.Unwritable (Derived I)) (State.Enclosed I W space)
      (s.Expands I W (Ps.map Alternative.loosely))

/-! ## Operations -/

theorem lift_introduces {operation : State → Except Failure State} {A : Alternative}
    (hP : ∀ ρ, A.holds ρ ↔ P ρ)
    (hposts : ∀ s : State, s.Enclosed I V space →
      s.Posts I W A (operation s) ∧ ∀ t, operation s = .ok t → t.Encloses W) :
    Introduces I space V W (lift operation) [P] := by
  intro s hs
  obtain ⟨hpost, hencloses⟩ := hposts s hs
  have hkept : State.Kept (Derived I) (State.Enclosed I W space) (operation s) := by
    refine hpost.kept fun t ht => ⟨hpost.ready ht, hencloses t ht, ?_⟩
    rw [ht] at hpost
    exact (State.Reaches.advances hpost).space.trans hs.space
  exact (lift_gives (hpost.loosely hP) hkept).imp fun t => And.left

/-- A restriction to integers introduces its term. -/
theorem inDomain_introduces {a : Term} (ha : a.Over I) {d : Domain} (hd : d.Over I) :
    Introduces I space V (a.joins V) (.inDomain a (.domain d)) [fun ρ => a.eval ρ ∈ d] := by
  have hover : (Allowed.domain d).Over I := ⟨hd.integral, hd.mem⟩
  refine lift_introduces (A := .posting (.restricted a (.domain d))) (fun ρ => Iff.rfl) ?_
  intro s hs
  cases a with
  | var x =>
      exact hs.ready.restrict hs.encloses hover id fun y => or_congr (by simp [eq_comm]) Iff.rfl
  | val v =>
      rw [Term.joins_val]
      have hpost := hs.ready.post (c := .restricted (.val v) (.domain d)) ⟨ha, hover, id⟩
      exact ⟨hpost, fun t => hpost.encloses hs.encloses⟩

/-- An equation with a term that is enclosed introduces its other term. -/
theorem eq_introduces {a b : Term} (ha : a.Over I) (hb : b.Among I V) :
    Introduces I space V (a.joins V) (.eq a b) [fun ρ => a.eval ρ = b.eval ρ] := by
  refine lift_introduces (A := .posting (.equal a b)) (fun ρ => Iff.rfl) fun s hs => ?_
  cases a with
  | var x => exact hs.ready.equate hs.encloses hb fun y => or_congr (by simp [eq_comm]) Iff.rfl
  | val v =>
      rw [Term.joins_val]
      have hpost := hs.ready.post (c := .equal (.val v) b) ⟨ha, hb⟩
      exact ⟨hpost, fun t => hpost.encloses hs.encloses⟩

/-- A difference introduces nothing. -/
theorem difference_introduces {a b d : Term} (ha : a.Among I V) (hb : b.Among I V)
    (hd : d.Among I V) :
    Introduces I space V V (.difference a b d) [fun ρ => a.eval ρ - b.eval ρ = d.eval ρ] := by
  refine lift_introduces (A := .posting (.apart a b d)) (fun ρ => Iff.rfl) fun s hs => ?_
  have hpost := hs.ready.post (c := .apart a b d) ⟨ha, hb, hd⟩
  exact ⟨hpost, fun t => hpost.encloses hs.encloses⟩

/-! ## Combinations -/

theorem Introduces.both (hg : g.Introduces I space U V Ps) (hh : h.Introduces I space V W Qs) :
    Introduces I space U W (fun s => (g s).bind h) (waysOfBoth Ps Qs) := by
  intro s hs
  refine ((hg s hs).bind hh).mono fun l hl => ?_
  obtain ⟨ts, uss, hts, huss, rfl⟩ := hl
  have hproduct := hts.product huss
  -- Both ask for the same assignments, and neither keeps account of what is suspended.
  rw [waysOfBoth, List.map_flatMap]
  simpa [List.flatMap_map, Function.comp_def, Alternative.both, Alternative.loosely] using hproduct

theorem conjoin_nil_introduces : Introduces I space V V (conjoin []) [fun _ => True] :=
  fun _ hs => Answers.gives_one hs
    (.live (hs.ready.reaches_self (fun _ => trivial) fun _ => id) .nil)

theorem conjoin_cons_introduces {gs : List Goal} (hg : g.Introduces I space U V Ps)
    (hgs : (conjoin gs).Introduces I space V W Qs) :
    (conjoin (g :: gs)).Introduces I space U W (waysOfBoth Ps Qs) := by
  have hcons : conjoin (g :: gs) = fun s => (g s).bind (conjoin gs) :=
    funext fun s => conjoin_cons g gs s
  rw [hcons]
  exact hg.both hgs

theorem disjoin_nil_introduces : Introduces I space V W (disjoin []) [] :=
  fun _ _ => Answers.gives_done .nil

theorem disjoin_cons_introduces {gs : List Goal} (hg : g.Introduces I space V W Ps)
    (hgs : (disjoin gs).Introduces I space V W Qs) :
    (disjoin (g :: gs)).Introduces I space V W (Ps ++ Qs) := by
  intro s hs
  show ((g s).append fun _ => disjoin gs s).Gives _ _ _
  refine ((hg s hs).append (hgs s hs)).mono fun l hl => ?_
  obtain ⟨ts, us, hts, hus, rfl⟩ := hl
  rw [List.map_append]
  exact hts.append hus

theorem disjoin_map_introduces {α : Type} {as : List α} {goal : α → Goal}
    {way : α → Assignment → Prop} (h : ∀ a ∈ as, (goal a).Introduces I space V W [way a]) :
    (disjoin (as.map goal)).Introduces I space V W (as.map way) := by
  induction as with
  | nil => exact disjoin_nil_introduces
  | cons a as ih =>
      obtain ⟨ha, has⟩ := List.forall_mem_cons.mp h
      exact disjoin_cons_introduces ha (ih has)

theorem project_introduces {build : State → Except Failure Goal}
    (h : ∀ s : State, s.space = space → ∃ g, build s = .ok g ∧ g.Introduces I space V W Ps) :
    (project build).Introduces I space V W Ps := by
  intro s hs
  obtain ⟨g, hbuild, hg⟩ := h s hs.space
  simp only [project, hbuild]
  exact hg s hs

/-- The ways to hold may be put differently. -/
theorem Introduces.congr (hg : g.Introduces I space V W Ps)
    (hPQ : List.Forall₂ (fun P Q => ∀ ρ, P ρ ↔ Q ρ) Ps Qs) : g.Introduces I space V W Qs := by
  have heq : List.Forall₂ (· = ·) Ps Qs := hPQ.imp fun P Q h => funext fun ρ => propext (h ρ)
  rw [List.forall₂_eq_eq_eq] at heq
  exact heq ▸ hg

theorem Introduces.congr_single (hg : g.Introduces I space V W [P]) (hPQ : ∀ ρ, P ρ ↔ Q ρ) :
    g.Introduces I space V W [Q] :=
  hg.congr (.cons hPQ .nil)

/-! ## Queries -/

/-- The states in which a query ends hold one block of rows for each way. -/
theorem Introduces.lists (hg : g.Introduces I space (fun _ => False) W Ps) {ts : List Term}
    (hts : ∀ t ∈ ts, t.Among I W) (hall : ∀ x, W x → .var x ∈ ts) :
    (conjoin [g, label ts] (.empty space)).Gives (Failure.Unwritable (Derived I))
      (State.Ready I W) fun l => ∃ blocks,
        List.Forall₂ ((State.empty space).Lists ts) (Ps.map Alternative.loosely) blocks ∧
          List.Forall₂ (fun w row => ts.map w.walk = row.map Term.int) l blocks.flatten := by
  rw [conjoin_cons]
  have hfirst := (hg _ (State.enclosed_empty I space)).with_each
  refine (hfirst.bind fun t ht => label_gives ht.ready hts).mono fun l hl => ?_
  obtain ⟨us, wss, ⟨hus, heach⟩, hwss, rfl⟩ := hl
  exact hus.lists hall (fun u hu => (heach u hu).pitched hts) hwss

/-- A query for all variables that a goal introduces lists, for each way of the goal in turn, the
rows of its assignments in ascending order.  It fails only if an integer of too many digits would
have to be written. -/
theorem Introduces.run (hg : g.Introduces I space (fun _ => False) W Ps) {ts : List Term}
    (hts : ∀ t ∈ ts, t.Among I W) (hall : ∀ x, W x → .var x ∈ ts) :
    (∃ blocks : List (List (List Int)),
      List.Forall₂ (fun P block => block.Pairwise (· < ·) ∧
        ∀ row, row ∈ block ↔ ∃ ρ, P ρ ∧ ts.map (Term.eval ρ) = row) Ps blocks ∧
      Consonance.run g ts .nothing space = .ok (blocks.flatten.map fun row => row.map Term.int)) ∨
    Consonance.run g ts .nothing space = .error (.invalid .unwritable) ∧
      ∃ n, Derived I n ∧ Number.isWritable n = false := by
  have hrun : Consonance.run g ts .nothing space =
      ((conjoin [g, label ts] (.empty space)).map fun w => ts.map w.walk).all := rfl
  rw [hrun]
  rcases ((hg.lists hts hall).map (f := fun w => ts.map w.walk)).all with
    ⟨⟨ws, ⟨blocks, hblocks, hws⟩, hitems⟩, hok⟩ | ⟨f, ⟨rfl, hlong⟩, herror⟩
  · refine .inl ⟨blocks, (List.forall₂_map_left_iff.mp hblocks).imp fun P block hb => ?_, ?_⟩
    · refine ⟨hb.ascending, fun row => (hb.mem_iff row).trans (exists_congr fun ρ => ?_)⟩
      exact and_congr_left' (and_iff_right (State.empty_solution space ρ))
    · rw [hok, hitems]
      have heq := List.forall₂_map_right_iff.mpr (List.forall₂_map_left_iff.mpr hws)
      rw [List.forall₂_eq_eq_eq] at heq
      exact congrArg Except.ok heq
  · exact .inr ⟨herror, hlong⟩

end Goal

/-! ## Ways that exclude each other -/

/-- Some ways to hold exclude each other, are about some variables only, and together say what a
property says. -/
structure Partition (V : Var → Prop) (Ps : List (Assignment → Prop)) (Q : Assignment → Prop) :
    Prop where
  covers : ∀ ρ, (∃ P ∈ Ps, P ρ) ↔ Q ρ
  exclusive : Ps.Pairwise fun P P' => ∀ ρ, P ρ → ¬ P' ρ
  visible : ∀ P ∈ Ps, ∀ ρ ρ' : Assignment, (∀ x, V x → ρ x = ρ' x) → P ρ → P ρ'

namespace Partition

variable {V : Var → Prop} {Ps Qs : List (Assignment → Prop)} {P Q R : Assignment → Prop}

/-- A property that is about some variables is a way of its own. -/
theorem single (h : ∀ ρ ρ' : Assignment, (∀ x, V x → ρ x = ρ' x) → P ρ → P ρ') :
    Partition V [P] P where
  covers ρ := by simp
  exclusive := List.pairwise_singleton _ _
  visible P' hP' := by
    rw [List.mem_singleton.mp hP']
    exact h

theorem congr (h : Partition V Ps Q) (hQR : ∀ ρ, Q ρ ↔ R ρ) : Partition V Ps R :=
  ⟨fun ρ => (h.covers ρ).trans (hQR ρ), h.exclusive, h.visible⟩

theorem mono {W : Var → Prop} (h : Partition V Ps Q) (hVW : ∀ x, V x → W x) : Partition W Ps Q :=
  ⟨h.covers, h.exclusive, fun P hP ρ ρ' hagree =>
    h.visible P hP ρ ρ' fun x hx => hagree x (hVW x hx)⟩

/-- Ways to hold together exclude each other when those of each side do. -/
theorem both (h : Partition V Ps Q) (h' : Partition V Qs R) :
    Partition V (waysOfBoth Ps Qs) fun ρ => Q ρ ∧ R ρ where
  covers ρ := by
    rw [← h.covers ρ, ← h'.covers ρ]
    simp only [waysOfBoth, List.mem_flatMap, List.mem_map]
    constructor
    · rintro ⟨_, ⟨P, hP, P', hP', rfl⟩, hρ, hρ'⟩
      exact ⟨⟨P, hP, hρ⟩, P', hP', hρ'⟩
    · rintro ⟨⟨P, hP, hρ⟩, P', hP', hρ'⟩
      exact ⟨_, ⟨P, hP, P', hP', rfl⟩, hρ, hρ'⟩
  exclusive := by
    rw [waysOfBoth, List.pairwise_flatMap]
    refine ⟨fun P _ => List.pairwise_map.mpr (h'.exclusive.imp fun hne ρ hρ hρ' => ?_), ?_⟩
    · exact hne ρ hρ.2 hρ'.2
    · refine h.exclusive.imp fun hne => ?_
      intro X hX Y hY ρ hρ hρ'
      obtain ⟨_, -, rfl⟩ := List.mem_map.mp hX
      obtain ⟨_, -, rfl⟩ := List.mem_map.mp hY
      exact hne ρ hρ.1 hρ'.1
  visible X hX ρ ρ' hagree hρ := by
    obtain ⟨P, hP, hX⟩ := List.mem_flatMap.mp hX
    obtain ⟨P', hP', rfl⟩ := List.mem_map.mp hX
    exact ⟨h.visible P hP ρ ρ' hagree hρ.1, h'.visible P' hP' ρ ρ' hagree hρ.2⟩

/-- Rows of ways that exclude each other do not come twice. -/
theorem nodup {ts : List Term} {blocks : List (List (List Int))} (h : Partition V Ps Q)
    (hall : ∀ x, V x → .var x ∈ ts)
    (hblocks : List.Forall₂ (fun P block => block.Pairwise (· < ·) ∧
      ∀ row, row ∈ block ↔ ∃ ρ, P ρ ∧ ts.map (Term.eval ρ) = row) Ps blocks) :
    blocks.flatten.Nodup ∧
      ∀ row, row ∈ blocks.flatten ↔ ∃ ρ, Q ρ ∧ ts.map (Term.eval ρ) = row := by
  obtain ⟨hcovers, hexclusive, hvisible⟩ := h
  simp only [← hcovers]
  clear hcovers
  induction hblocks with
  | nil => simp
  | @cons P block Ps blocks hblock _ ih =>
      obtain ⟨hP, hPs⟩ := List.pairwise_cons.mp hexclusive
      obtain ⟨hvisibleP, hvisiblePs⟩ := List.forall_mem_cons.mp hvisible
      obtain ⟨hnodup, hmem⟩ := ih hPs hvisiblePs
      refine ⟨?_, fun row => ?_⟩
      · rw [List.flatten_cons]
        refine List.nodup_append.mpr ⟨hblock.1.nodup, hnodup, ?_⟩
        rintro row hrow _ hrow' rfl
        obtain ⟨ρ, hρ, heq⟩ := (hblock.2 row).mp hrow
        obtain ⟨ρ', ⟨P', hP', hρ'⟩, heq'⟩ := (hmem row).mp hrow'
        -- The row fixes the variables, so one assignment would take both ways.
        have hagree : ∀ x, V x → ρ x = ρ' x := fun x hx =>
          List.map_inj_left.mp (heq.trans heq'.symm) _ (hall x hx)
        exact hP P' hP' ρ' (hvisibleP ρ ρ' hagree hρ) hρ'
      · rw [List.flatten_cons, List.mem_append, hblock.2 row, hmem row]
        simp only [List.exists_mem_cons_iff, or_and_right, exists_or]

end Partition

/-- Where the ways of a goal exclude each other, a query for its variables gives the row of each
assignment once. -/
theorem Goal.Introduces.run_nodup {I : Int → Prop} {W : Var → Prop} {space : PitchSpace}
    {g : Goal} {Ps : List (Assignment → Prop)} {Q : Assignment → Prop}
    (hg : g.Introduces I space (fun _ => False) W Ps) (hPs : Partition W Ps Q) {ts : List Term}
    (hts : ∀ t ∈ ts, t.Among I W) (hall : ∀ x, W x → .var x ∈ ts)
    (hwritable : ∀ n, Derived I n → Number.isWritable n = true) :
    ∃ rows : List (List Int),
      Consonance.run g ts .nothing space = .ok (rows.map fun row => row.map Term.int) ∧
      rows.Nodup ∧ ∀ row, row ∈ rows ↔ ∃ ρ, Q ρ ∧ ts.map (Term.eval ρ) = row := by
  rcases hg.run hts hall with ⟨blocks, hblocks, hrun⟩ | ⟨-, n, hn, hlong⟩
  · exact ⟨blocks.flatten, hrun, hPs.nodup hall hblocks⟩
  · rw [hwritable n hn] at hlong
    cases hlong

end Consonance
