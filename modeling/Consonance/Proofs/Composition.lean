import Consonance.Proofs.Confinement
import Consonance.Proofs.NoteTable

/-!
# Relations among other goals

Whatever goals come before a relation and after it, its arguments keep to the space: in every row
of a query the pitches among them are pitches of the space, the distances are distances of the
space, and a class, an octave and a pitch name one another (`Formula.run_confines`).

The goals may be any that are built from integers, names and variables (`Formula.Plain`).  A
relation confines its arguments itself, whatever is known of them when it is reached, and no later
goal undoes this.  A name among the arguments is read when the goal is built, so what the goal
confines is the number that the name stands for (`Role.Made`).
-/

namespace Consonance

open State

/-! ## Plain values -/

/-- The value is a whole number or a name, or it is absent. -/
inductive Value.Plain : Value → Prop where
  | whole {v : Value} {n : Int} (isWhole : v.whole? = some n) : Plain v
  | text (s : String) : Plain (.text s)
  | nothing : Plain .nothing

theorem Value.discrete_of_whole {v : Value} {n : Int} (h : v.whole? = some n) : v.Discrete := by
  rintro x rfl
  cases h

theorem Value.Plain.discrete {v : Value} (h : v.Plain) : v.Discrete := by
  cases h with
  | whole isWhole => exact discrete_of_whole isWhole
  | text s => exact nofun
  | nothing => exact nofun

/-- The term is a variable or a plain value. -/
def Term.Plain : Term → Prop
  | .var _ => True
  | .val v => v.Plain

theorem Term.Plain.discrete {t : Term} (h : t.Plain) : t.Discrete := by
  cases t with
  | var x => trivial
  | val v => exact Value.Plain.discrete h

theorem Term.plain_int (n : Int) : (Term.int n).Plain := Value.Plain.whole (Value.whole?_int n)

/-- The values of the restriction are plain. -/
def Admission.Plain : Admission → Prop
  | .domain vs => ∀ v ∈ vs, v.Plain
  | .values vs => ∀ v ∈ vs, v.Plain
  | _ => True

theorem Admission.Plain.discrete {a : Admission} {allowed : Allowed} (ha : a.Plain)
    (h : a.allowed = .ok allowed) : allowed.Discrete := by
  cases a with
  | interval lowest highest =>
      obtain ⟨d, hd, h⟩ := bind_eq_ok.mp h
      cases h
      obtain ⟨past, -, hd⟩ := bind_eq_ok.mp hd
      obtain ⟨first, -, hd⟩ := bind_eq_ok.mp hd
      obtain ⟨last, -, hd⟩ := bind_eq_ok.mp hd
      cases hd
      exact Domain.discrete_interval _ _
  | domain vs =>
      obtain ⟨d, hd, h⟩ := bind_eq_ok.mp h
      cases h
      exact fun v hv => (ha v (Domain.mem_of_mem_ofList hd hv)).discrete
  | values vs =>
      cases h
      exact fun v hv => (ha v hv).discrete
  | passing condition =>
      cases h
      trivial

/-- The formula is made of goals and relations over plain values and variables. -/
inductive Formula.Plain : Formula → Prop where
  | succeed : Plain .succeed
  | fail : Plain .fail
  | eq {a b : Term} (left : a.Plain) (right : b.Plain) : Plain (.eq a b)
  | inDomain {t : Term} {a : Admission} (term : t.Plain) (admission : a.Plain) :
      Plain (.inDomain t a)
  | difference {a b d : Term} (minuend : a.Plain) (subtrahend : b.Plain) (distance : d.Plain) :
      Plain (.difference a b d)
  | label (terms : List Term) : Plain (.label terms)
  | conjoin {parts : List Formula} (each : ∀ f ∈ parts, Plain f) : Plain (.conjoin parts)
  | disjoin {parts : List Formula} (each : ∀ f ∈ parts, Plain f) : Plain (.disjoin parts)
  | conde {clauses : List (List Formula)} (each : ∀ c ∈ clauses, ∀ f ∈ c, Plain f) :
      Plain (.conde clauses)
  | relation {f : Formula} (isRelation : f.IsRelation) (arguments : ∀ p ∈ f.places, p.2.Plain) :
      Plain f

/-! ## Arguments -/

/-- What the goal of a relation is made with for an argument: a variable for an absent one, and
else the argument itself or a number that it names. -/
structure Role.Made (r : Role) (a b : Term) : Prop where
  discrete : b.Discrete
  given : a ≠ .val .nothing → b = a ∨ ∃ v w n, a = .val v ∧ b = .val w ∧ w.whole? = some n ∧
    r.number? v = some n

namespace Role.Made

variable {r : Role} {a b : Term} {s : State} {space : PitchSpace} {n : Int}

theorem self (ha : a.Plain) : r.Made a a := ⟨ha.discrete, fun _ => .inl rfl⟩

theorem absent {b : Term} (hb : b.Discrete) : r.Made (.val .nothing) b :=
  ⟨hb, fun h => absurd rfl h⟩

/-- A constant of which a number is read. -/
theorem constant {v w : Value} (hw : w.whole? = some n) (hv : r.number? v = some n) :
    r.Made (.val v) (.val w) :=
  ⟨Value.discrete_of_whole hw, fun _ => .inr ⟨v, w, n, rfl, rfl, hw, hv⟩⟩

/-- The argument stands for the number that the goal finds. -/
theorem reads (h : r.Made a b) (ha : a ≠ .val .nothing) (hb : s.Reads r b n) : s.Reads r a n := by
  rcases h.given ha with rfl | ⟨v, w, m, rfl, rfl, hw, hv⟩
  · exact hb
  · obtain ⟨u, hu, hn⟩ := hb
    cases (Substitution.walk_val _ w).symm.trans hu
    have hmn : m = n := Option.some.inj ((number?_whole hw).symm.trans hn)
    exact ⟨v, Substitution.walk_val _ v, hmn ▸ hv⟩

/-- A known argument stands for a number in the range that the goal keeps it in. -/
theorem reads_of_within (h : r.Made a b) (ha : a ≠ .val .nothing)
    (hknown : ∃ v, s.walk a = .val v) (hwithin : s.Within (r.Confines space) b) :
    ∃ n, s.Reads r a n ∧ r.Ranges space n := by
  have hb : ∃ v, s.walk b = .val v := by
    rcases h.given ha with rfl | ⟨v, w, m, rfl, rfl, -⟩
    · exact hknown
    · exact ⟨w, Substitution.walk_val _ w⟩
  obtain ⟨v, hv⟩ := hb
  obtain ⟨n, hn, hranges⟩ := (within_val hv).mp hwithin
  exact ⟨n, h.reads ha ⟨v, hv, number?_whole hn⟩, hranges⟩

end Role.Made

/-! ### Names of distances -/

/-- The common table gives whole distances. -/
theorem IntervalTable.exists_of_distanceOf {v : Value} {q : Quantity}
    (h : common.distanceOf v = .ok q) : ∃ n : Int, q = .int n := by
  have hlookup : ∀ (names : List (String × Nat)) (key : String),
      (withWholes names).lookup key = some q → ∃ n : Int, q = .int n := by
    intro names key hkey
    obtain ⟨before, after, hbefore, -⟩ := List.lookup_eq_some_iff.mp hkey
    have hmem : (key, q) ∈ withWholes names :=
      hbefore ▸ List.mem_append_right _ (List.mem_cons_self ..)
    obtain ⟨entry, -, hentry⟩ := List.mem_map.mp hmem
    cases hentry
    exact ⟨_, rfl⟩
  unfold distanceOf at h
  split at h
  next s =>
    split at h
    next distance hfound =>
      cases h
      simp only [find?, Option.or_eq_some_iff] at hfound
      rcases hfound with (hfound | ⟨-, hfound⟩) | ⟨-, hfound⟩
      · exact hlookup _ _ hfound
      · exact hlookup _ _ hfound
      · exact hlookup _ _ hfound
    next => cases h
  next => cases h

/-- A plain distance is read as the number that it stands for. -/
theorem resolveDistance_plain {v w : Value} (hv : v.Plain) (h : resolveDistance v = .ok w) :
    ∃ n, w.whole? = some n ∧ Role.distance.number? v = some n := by
  cases hv with
  | @whole v n isWhole =>
      refine ⟨n, ?_, Role.number?_whole isWhole⟩
      cases v with
      | int m =>
          simp only [resolveDistance] at h
          split at h
          · cases h
          · cases h
            exact isWhole
      | pitchClass c =>
          cases h
          exact isWhole
      | truth b => cases h
      | _ => cases isWhole
  | text s =>
      have hread : Role.distance.number? (.text s) = w.whole? := by
        show (resolveDistance (.text s)).toOption.bind Value.whole? = _
        rw [h]
        rfl
      obtain ⟨q, hq, h⟩ := bind_eq_ok.mp h
      cases h
      obtain ⟨n, rfl⟩ := IntervalTable.exists_of_distanceOf hq
      exact ⟨n, rfl, hread⟩
  | nothing => cases h

namespace Builder

variable {a b : Term} {n m : Nat}

theorem openOr_made (r : Role) (ha : a.Plain) (h : openOr a n = .ok (b, m)) : r.Made a b := by
  unfold openOr at h
  split at h
  · cases h
    exact .absent trivial
  · cases h
    exact .self ha

theorem pitchClass_made (ha : a.Plain) (h : pitchClass a n = .ok (b, m)) :
    Role.pitchClass.Made a b := by
  unfold pitchClass at h
  split at h
  · cases h
    exact .absent trivial
  · cases h
    exact .self ha
  · cases h
    exact .self ha
  next s =>
    obtain ⟨⟨j, k⟩, hj, h⟩ := bind_eq_ok.mp h
    cases h
    obtain ⟨i, hi, hlift⟩ := bind_eq_ok.mp hj
    cases hlift
    exact .constant rfl (Role.number?_class hi (.refl _))
  · cases h

theorem distance_made (ha : a.Plain) (h : distance a n = .ok (b, m)) :
    Role.distance.Made a b := by
  unfold distance at h
  split at h
  · cases h
    exact .absent trivial
  · cases h
    exact .self ha
  next v _ =>
    obtain ⟨⟨w, k⟩, hw, h⟩ := bind_eq_ok.mp h
    cases h
    obtain ⟨w', hw', hlift⟩ := bind_eq_ok.mp hw
    cases hlift
    obtain ⟨n, hn, hread⟩ := resolveDistance_plain ha hw'
    exact .constant hn hread

end Builder

/-! ## What is left of a relation -/

namespace Formula

variable {space : PitchSpace} {f : Formula} {fs : List Formula} {g : Goal} {n m : Nat} {t : State}

/-- What the relation is made with for its arguments is confined, and what it is made with for a
note names a pitch of the space. -/
structure Keeps (space : PitchSpace) (f : Formula) (t : State) : Prop where
  confines : ∀ p ∈ f.places, p.1 = .pitch ∨ p.1 = .distance →
    ∃ b, p.1.Made p.2 b ∧ t.Within (p.1.Confines space) b
  names : ∀ c octave pitch, f = .note c octave pitch → ∃ c' octave' pitch',
    Role.pitchClass.Made c c' ∧ Role.octave.Made octave octave' ∧ Role.pitch.Made pitch pitch' ∧
      Relation.NamesPitch space c' octave' pitch' t

theorem enduring_keeps (space : PitchSpace) (f : Formula) : Enduring (f.Keeps space) := by
  intro s t h hkeeps
  refine ⟨fun p hp hr => ?_, fun c octave pitch hf => ?_⟩
  · obtain ⟨b, hmade, hwithin⟩ := hkeeps.confines p hp hr
    exact ⟨b, hmade, h.within _ (Role.lasting_confines _ _) b hwithin⟩
  · obtain ⟨c', octave', pitch', hc, ho, hp, hnames⟩ := hkeeps.names c octave pitch hf
    exact ⟨c', octave', pitch', hc, ho, hp, Relation.enduring_namesPitch s t h hnames⟩

/-- A pitch that is known to be one of the space is confined. -/
theorem within_of_reads {a : Term} {k : Int} (h : t.Reads .pitch a k)
    (hranges : Role.pitch.Ranges space k) : t.Within (Role.pitch.Confines space) a := by
  obtain ⟨v, hv, hk⟩ := h
  refine (within_val hv).mpr ⟨k, ?_, hranges⟩
  unfold Role.number? at hk
  split at hk
  next l hl => exact hl.trans hk
  next => cases hk

theorem keeps_note {c octave pitch : Term} (hargs : ∀ p ∈ (note c octave pitch).places, p.2.Plain)
    (h : Builder.note c octave pitch n = .ok (g, m)) :
    g.Leaves space ((note c octave pitch).Keeps space) := by
  simp only [places, List.forall_mem_cons] at hargs
  obtain ⟨hc, ho, hp, -⟩ := hargs
  obtain ⟨⟨c', k⟩, hc', h⟩ := bind_eq_ok.mp h
  obtain ⟨⟨octave', l⟩, ho', h⟩ := bind_eq_ok.mp h
  obtain ⟨⟨pitch', i⟩, hp', h⟩ := bind_eq_ok.mp h
  cases h
  have hc := Builder.pitchClass_made hc hc'
  have ho := Builder.openOr_made .octave ho ho'
  have hp := Builder.openOr_made .pitch hp hp'
  refine (Relation.leaves_note hc.discrete ho.discrete hp.discrete).mono fun t _ ht => ⟨?_, ?_⟩
  · simp only [places, List.forall_mem_cons]
    refine ⟨fun h => absurd h (by simp), fun h => absurd h (by simp),
      fun _ => ⟨pitch', hp, ?_⟩, List.forall_mem_nil _⟩
    obtain ⟨-, -, k, -, -, hreads, -, hranges⟩ := ht
    exact within_of_reads hreads hranges
  · intro c₁ octave₁ pitch₁ hf
    cases hf
    exact ⟨c', octave', pitch', hc, ho, hp, ht⟩

/-- The arguments of a relation of distances are confined if those that it is made with are. -/
theorem keeps_of_confined {d a b d' a' b' : Term}
    (hplaces : f.places = [(.distance, d), (.pitch, a), (.pitch, b)])
    (hd : Role.distance.Made d d') (ha : Role.pitch.Made a a') (hb : Role.pitch.Made b b')
    (ht : Relation.Confined space d' a' b' t) : f.Keeps space t := by
  obtain ⟨htd, hta, htb⟩ := ht
  refine ⟨?_, ?_⟩
  · simp only [hplaces, List.forall_mem_cons]
    exact ⟨fun _ => ⟨d', hd, htd⟩, fun _ => ⟨a', ha, hta⟩, fun _ => ⟨b', hb, htb⟩,
      List.forall_mem_nil _⟩
  · rintro c octave pitch rfl
    cases hplaces

/-- The goal of a relation of distances is made with a distance and two pitches. -/
theorem distances_made {make : Term → Term → Term → Goal} {d a b : Term} (hd : d.Plain)
    (ha : a.Plain) (hb : b.Plain)
    (h : (do
      let d ← Builder.distance d
      let a ← Builder.openOr a
      return make d a (← Builder.openOr b) : Builder Goal) n = .ok (g, m)) :
    ∃ d' a' b', Role.distance.Made d d' ∧ Role.pitch.Made a a' ∧ Role.pitch.Made b b' ∧
      g = make d' a' b' := by
  obtain ⟨⟨d', k⟩, hd', h⟩ := bind_eq_ok.mp h
  obtain ⟨⟨a', l⟩, ha', h⟩ := bind_eq_ok.mp h
  obtain ⟨⟨b', i⟩, hb', h⟩ := bind_eq_ok.mp h
  cases h
  exact ⟨d', a', b', Builder.distance_made hd hd', Builder.openOr_made .pitch ha ha',
    Builder.openOr_made .pitch hb hb', rfl⟩

/-- A relation of distances whose goal confines its arguments keeps to the space. -/
theorem keeps_distances {make : Term → Term → Term → Goal} {d a b : Term}
    (hplaces : f.places = [(.distance, d), (.pitch, a), (.pitch, b)])
    (hmake : ∀ {d a b : Term}, d.Discrete → a.Discrete → b.Discrete →
      (make d a b).Leaves space (Relation.Confined space d a b))
    (hargs : ∀ p ∈ f.places, p.2.Plain)
    (h : (do
      let d ← Builder.distance d
      let a ← Builder.openOr a
      return make d a (← Builder.openOr b) : Builder Goal) n = .ok (g, m)) :
    g.Leaves space (f.Keeps space) := by
  simp only [hplaces, List.forall_mem_cons] at hargs
  obtain ⟨hd, ha, hb, -⟩ := hargs
  obtain ⟨d', a', b', hd, ha, hb, rfl⟩ := distances_made hd ha hb h
  exact (hmake hd.discrete ha.discrete hb.discrete).mono fun t _ ht =>
    keeps_of_confined hplaces hd ha hb ht

/-- The arguments of a relation of pitches are confined if those that it is made with are. -/
theorem keeps_of_pitches {ts : List Term} (hplaces : f.places = ts.map fun a => (.pitch, a))
    (ht : ∀ a ∈ ts, ∃ b, Role.pitch.Made a b ∧ t.Within (Role.pitch.Confines space) b) :
    f.Keeps space t := by
  refine ⟨fun p hp _ => ?_, ?_⟩
  · rw [hplaces] at hp
    obtain ⟨a, ha, rfl⟩ := List.mem_map.mp hp
    exact ht a ha
  · rintro c octave pitch rfl
    -- A note has a class among its arguments, and these are pitches.
    have hc : (Role.pitchClass, c) ∈ ts.map fun a => (Role.pitch, a) :=
      hplaces ▸ List.mem_cons_self ..
    obtain ⟨a, -, ha⟩ := List.mem_map.mp hc
    cases ha

/-- The goal of a triad is made of two intervals over its root. -/
theorem keeps_spread {third fifth : Int} {a b c : Term}
    (hplaces : f.places = [a, b, c].map fun a => (.pitch, a))
    (hargs : ∀ p ∈ f.places, p.2.Plain)
    (h : Builder.spread third fifth a b c n = .ok (g, m)) : g.Leaves space (f.Keeps space) := by
  have hplain : ∀ a' ∈ [a, b, c], a'.Plain := fun a' ha' =>
    hargs (.pitch, a') (hplaces ▸ List.mem_map_of_mem ha')
  simp only [List.forall_mem_cons] at hplain
  obtain ⟨ha, hb, hc, -⟩ := hplain
  obtain ⟨⟨lower, k⟩, hlower, h⟩ := bind_eq_ok.mp h
  obtain ⟨⟨upper, l⟩, hupper, h⟩ := bind_eq_ok.mp h
  cases h
  obtain ⟨d₁, a₁, b₁, hd₁, ha₁, hb₁, rfl⟩ := distances_made (Term.plain_int third) ha hb hlower
  obtain ⟨d₂, a₂, c₂, hd₂, ha₂, hc₂, rfl⟩ := distances_made (Term.plain_int fifth) ha hc hupper
  have hfirst : (Relation.interval d₁ a₁ b₁).Leaves space _ :=
    Relation.leaves_interval hd₁.discrete ha₁.discrete hb₁.discrete
  have hsecond : (Goal.conjoin [Relation.interval d₂ a₂ c₂]).Leaves space _ :=
    Relation.leaves_interval hd₂.discrete ha₂.discrete hc₂.discrete
  refine (Goal.leaves_conjoin_cons Relation.enduring_confined hfirst hsecond).mono
    fun t _ ht => keeps_of_pitches hplaces ?_
  obtain ⟨⟨-, hta, htb⟩, ⟨-, -, htc⟩⟩ := ht
  simp only [List.forall_mem_cons]
  exact ⟨⟨a₁, ha₁, hta⟩, ⟨b₁, hb₁, htb⟩, ⟨c₂, hc₂, htc⟩, List.forall_mem_nil _⟩

theorem voicedChord_made {name : String} {q : ChordQuality} {root low middle high : Term}
    (hq : ChordQuality.ofName? name = some q) (hroot : root.Plain) (hlow : low.Plain)
    (hmiddle : middle.Plain) (hhigh : high.Plain)
    (h : Builder.voicedChord q root low middle high n = .ok (g, m)) :
    g.Leaves space fun t => ∀ a ∈ [root, low, middle, high],
      ∃ b, Role.pitch.Made a b ∧ t.Within (Role.pitch.Confines space) b := by
  obtain ⟨⟨root', n₁⟩, hroot', h⟩ := bind_eq_ok.mp h
  obtain ⟨⟨low', n₂⟩, hlow', h⟩ := bind_eq_ok.mp h
  obtain ⟨⟨middle', n₃⟩, hmiddle', h⟩ := bind_eq_ok.mp h
  obtain ⟨⟨high', n₄⟩, hhigh', h⟩ := bind_eq_ok.mp h
  obtain ⟨g', hg, h⟩ := bind_eq_ok.mp h
  cases h
  have hroot := Builder.openOr_made .pitch hroot hroot'
  have hlow := Builder.openOr_made .pitch hlow hlow'
  have hmiddle := Builder.openOr_made .pitch hmiddle hmiddle'
  have hhigh := Builder.openOr_made .pitch hhigh hhigh'
  refine (Relation.leaves_chord hq hroot.discrete hlow.discrete hmiddle.discrete hhigh.discrete
    hg).mono fun t _ ht => ?_
  simp only [Relation.AllPitches, List.forall_mem_cons] at ht
  obtain ⟨htr, htl, htm, hth, -⟩ := ht
  simp only [List.forall_mem_cons]
  exact ⟨⟨root', hroot, htr⟩, ⟨low', hlow, htl⟩, ⟨middle', hmiddle, htm⟩, ⟨high', hhigh, hth⟩,
    List.forall_mem_nil _⟩

/-- A relation confines its arguments, and a note names a pitch of the space. -/
theorem IsRelation.keeps (hf : f.IsRelation) (hargs : ∀ p ∈ f.places, p.2.Plain)
    (h : f.build n = .ok (g, m)) : g.Leaves space (f.Keeps space) := by
  cases hf with
  | note c octave pitch => exact keeps_note hargs h
  | interval d a b => exact keeps_distances rfl Relation.leaves_interval hargs h
  | above d low high => exact keeps_distances rfl Relation.leaves_above hargs h
  | majorTriad root third fifth => exact keeps_spread rfl hargs h
  | minorTriad root third fifth => exact keeps_spread rfl hargs h
  | @chord name q known root low middle high =>
      have hbuild : (Formula.chord (.val (.text name)) [root, low, middle, high]).build n =
          Builder.voicedChord q root low middle high n := by
        simp only [build, Builder.chord, ChordQuality.ofTerm, known]
        rfl
      rw [hbuild] at h
      simp only [places, List.map_cons, List.map_nil, List.forall_mem_cons] at hargs
      obtain ⟨hroot, hlow, hmiddle, hhigh, -⟩ := hargs
      exact (voicedChord_made known hroot hlow hmiddle hhigh h).mono fun t _ ht =>
        keeps_of_pitches rfl ht
  | @voices name q known low middle high =>
      have hbuild : (Formula.chord (.val (.text name)) [low, middle, high]).build n =
          Builder.voicedChord q (.val .nothing) low middle high n := by
        simp only [build, Builder.chord, ChordQuality.ofTerm, known]
        rfl
      rw [hbuild] at h
      simp only [places, List.map_cons, List.map_nil, List.forall_mem_cons] at hargs
      obtain ⟨hlow, hmiddle, hhigh, -⟩ := hargs
      have hroot : (Term.val .nothing).Plain := .nothing
      exact (voicedChord_made known hroot hlow hmiddle hhigh h).mono fun t _ ht =>
        keeps_of_pitches rfl (List.forall_mem_cons.mp ht).2

/-! ## Any formulas -/

theorem buildAll_cons_eq_ok {gs : List Goal} (h : buildAll (f :: fs) n = .ok (gs, m)) :
    ∃ g more k, f.build n = .ok (g, k) ∧ buildAll fs k = .ok (more, m) ∧ gs = g :: more := by
  obtain ⟨⟨g, k⟩, hg, h⟩ := bind_eq_ok.mp h
  obtain ⟨⟨more, l⟩, hmore, h⟩ := bind_eq_ok.mp h
  cases h
  exact ⟨g, more, k, hg, hmore, rfl⟩

theorem buildAll_eq_ok {gs : List Goal} (h : buildAll fs n = .ok (gs, m)) :
    ∀ g ∈ gs, ∃ f ∈ fs, ∃ k l, f.build k = .ok (g, l) := by
  induction fs generalizing n m gs with
  | nil =>
      cases h
      exact nofun
  | cons f rest ih =>
      obtain ⟨g, more, k, hg, hmore, rfl⟩ := buildAll_cons_eq_ok h
      refine List.forall_mem_cons.mpr ⟨⟨f, List.mem_cons_self .., n, k, hg⟩, fun g' hg' => ?_⟩
      obtain ⟨f', hf', hbuild⟩ := ih hmore g' hg'
      exact ⟨f', List.mem_cons_of_mem _ hf', hbuild⟩

theorem buildClauses_eq_ok {clauses : List (List Formula)} {gss : List (List Goal)}
    (h : buildClauses clauses n = .ok (gss, m)) :
    ∀ gs ∈ gss, ∃ c ∈ clauses, ∃ k l, buildAll c k = .ok (gs, l) := by
  induction clauses generalizing n m gss with
  | nil =>
      cases h
      exact nofun
  | cons c rest ih =>
      obtain ⟨⟨gs, k⟩, hgs, h⟩ := bind_eq_ok.mp h
      obtain ⟨⟨more, l⟩, hmore, h⟩ := bind_eq_ok.mp h
      cases h
      refine List.forall_mem_cons.mpr ⟨⟨c, List.mem_cons_self .., n, k, hgs⟩, fun gs' hgs' => ?_⟩
      obtain ⟨c', hc', hbuild⟩ := ih hmore gs' hgs'
      exact ⟨c', List.mem_cons_of_mem _ hc', hbuild⟩

/-- The goal of a plain formula tightens states. -/
theorem Plain.leaves (hf : f.Plain) (h : f.build n = .ok (g, m)) :
    g.Leaves space fun _ => True := by
  induction hf generalizing n m g with
  | succeed =>
      cases h
      exact Goal.leaves_succeed
  | fail =>
      cases h
      exact Goal.leaves_fail
  | eq left right =>
      cases h
      exact (Goal.leaves_eq left.discrete right.discrete).mono fun _ _ _ => trivial
  | inDomain term admission =>
      obtain ⟨⟨allowed, k⟩, hallowed, h⟩ := bind_eq_ok.mp h
      cases h
      obtain ⟨a, ha, hlift⟩ := bind_eq_ok.mp hallowed
      cases hlift
      exact Goal.leaves_inDomain (admission.discrete ha)
  | difference minuend subtrahend distance =>
      cases h
      exact Goal.leaves_difference minuend.discrete subtrahend.discrete distance.discrete
  | label terms =>
      cases h
      exact (Goal.leaves_label terms).mono fun _ _ _ => trivial
  | conjoin each ih =>
      obtain ⟨⟨gs, k⟩, hgs, h⟩ := bind_eq_ok.mp h
      cases h
      refine Goal.leaves_conjoin fun g hg => ?_
      obtain ⟨f, hf, k, l, hbuild⟩ := buildAll_eq_ok hgs g hg
      exact ih f hf hbuild
  | disjoin each ih =>
      obtain ⟨⟨gs, k⟩, hgs, h⟩ := bind_eq_ok.mp h
      cases h
      refine Goal.leaves_disjoin fun g hg => ?_
      obtain ⟨f, hf, k, l, hbuild⟩ := buildAll_eq_ok hgs g hg
      exact ih f hf hbuild
  | conde each ih =>
      obtain ⟨⟨gss, k⟩, hgss, h⟩ := bind_eq_ok.mp h
      cases h
      refine Goal.leaves_disjoin (List.forall_mem_map.mpr fun gs hgs => ?_)
      obtain ⟨c, hc, i, j, hclause⟩ := buildClauses_eq_ok hgss gs hgs
      refine Goal.leaves_conjoin fun g hg => ?_
      obtain ⟨f, hf, k, l, hbuild⟩ := buildAll_eq_ok hclause g hg
      exact ih c hc f hf hbuild
  | relation isRelation arguments =>
      exact (isRelation.keeps arguments h).mono fun _ _ _ => trivial

end Formula

/-! ## Rows -/

theorem Answers.mem_of_takeAfter {α : Type} {earlier l : List α} {n : Nat}
    {xs rest : Unit → Answers α} (h : takeAfter earlier n xs = .ok (l, rest)) :
    ∀ a ∈ l, a ∈ earlier ∨ a ∈ (xs ()).items := by
  induction n generalizing earlier xs with
  | zero =>
      cases h
      exact fun a ha => .inl (List.mem_reverse.mp ha)
  | succ n ih =>
      unfold takeAfter at h
      cases hxs : xs () with
      | done =>
          rw [hxs] at h
          cases h
          exact fun a ha => .inl (List.mem_reverse.mp ha)
      | raise f =>
          rw [hxs] at h
          cases h
      | next b more =>
          rw [hxs] at h
          intro a ha
          rcases ih h a ha with hearlier | hmore
          · rcases List.mem_cons.mp hearlier with rfl | hearlier
            · exact .inr (List.mem_cons_self ..)
            · exact .inl hearlier
          · exact .inr (List.mem_cons_of_mem _ hmore)

/-- A row shows the queried terms in a state that the labelled goal gives. -/
theorem exists_of_mem_run {goal : Goal} {query : List Term} {limit : Value} {space : PitchSpace}
    {rows : List Row} {row : Row} (h : run goal query limit space = .ok rows) (hrow : row ∈ rows) :
    ∃ t ∈ (Goal.conjoin [goal, .label query] (.empty space)).items, row = query.map t.walk := by
  have hmem : row ∈ (solutions goal query space).items := by
    unfold run at h
    split at h
    · rw [Answers.all_eq] at h
      split at h
      · cases h
        exact hrow
      · cases h
    · obtain ⟨b, -, h⟩ := bind_eq_ok.mp h
      split at h
      · cases h
      · obtain ⟨count, -, h⟩ := bind_eq_ok.mp h
        obtain ⟨⟨l, rest⟩, htake, h⟩ := bind_eq_ok.mp h
        cases h
        exact (Answers.mem_of_takeAfter htake row hrow).resolve_left List.not_mem_nil
  rw [solutions, Answers.items_map] at hmem
  obtain ⟨t, ht, rfl⟩ := List.mem_map.mp hmem
  exact ⟨t, ht, rfl⟩

namespace Formula

variable {space : PitchSpace} {f before after : Formula} {query : List Term} {row : Row}

/-- The arguments of a relation that a query asks for keep to the space in a row. -/
structure Confines (space : PitchSpace) (f : Formula) (query : List Term) (row : Row) : Prop where
  /-- Pitches and distances are numbers in the ranges of the space. -/
  ranges : List.Forall₂ (fun a u => ∀ r, (r, a) ∈ f.places → r = .pitch ∨ r = .distance →
    a ≠ .val .nothing → ∃ n, u.StandsFor r n ∧ r.Ranges space n) query row
  /-- A class in an octave is the pitch. -/
  names : ∀ c octave pitch, f = .note c octave pitch →
    (∀ a ∈ [c, octave, pitch], a ≠ .val .nothing) → ∀ u v w, (c, u) ∈ query.zip row →
      (octave, v) ∈ query.zip row → (pitch, w) ∈ query.zip row →
        ∃ j o p, u.StandsFor .pitchClass j ∧ v.StandsFor .octave o ∧ w.StandsFor .pitch p ∧
          p = j + 12 * (o + 1)

/-- In a state in which the queried terms are known, what the relation keeps is seen in the row. -/
theorem Keeps.confines_row {t : State} (h : f.Keeps space t)
    (hknown : ∀ a ∈ query, ∃ v, t.walk a = .val v) :
    f.Confines space query (query.map t.walk) := by
  refine ⟨?_, ?_⟩
  · rw [List.forall₂_map_right_iff, List.forall₂_same]
    intro a ha r hp hr hne
    obtain ⟨b, hmade, hwithin⟩ := h.confines (r, a) hp hr
    exact hmade.reads_of_within hne (hknown a ha) hwithin
  · intro c octave pitch hf hne u v w hu hv hw
    have hzip : ∀ {a u : Term}, (a, u) ∈ query.zip (query.map t.walk) → u = t.walk a := by
      intro a u hau
      rw [← List.map_prod_left_eq_zip] at hau
      obtain ⟨a', -, heq⟩ := List.mem_map.mp hau
      cases heq
      rfl
    simp only [List.forall_mem_cons] at hne
    obtain ⟨hc, ho, hp, -⟩ := hne
    obtain ⟨c', octave', pitch', hmc, hmo, hmp, j, o, p, hj, ho', hp', heq, -⟩ :=
      h.names c octave pitch hf
    rw [hzip hu, hzip hv, hzip hw]
    exact ⟨j, o, p, hmc.reads hc hj, hmo.reads ho ho', hmp.reads hp hp', heq⟩

/-- Whatever plain goals come before a relation and after it, in every row that a query gives its
arguments keep to the space. -/
theorem run_confines {limit : Value} {rows : List Row} (hbefore : before.Plain)
    (hafter : after.Plain) (hf : f.IsRelation) (hargs : ∀ p ∈ f.places, p.2.Plain)
    (hrun : (Formula.conjoin [before, f, after]).run query limit space = .ok rows)
    (hrow : row ∈ rows) : f.Confines space query row := by
  obtain ⟨goal, hgoal, hrun⟩ := bind_eq_ok.mp hrun
  obtain ⟨⟨g, n⟩, hbuild, hgoal⟩ := bind_eq_ok.mp hgoal
  cases hgoal
  obtain ⟨⟨gs, n⟩, hgs, hbuild⟩ := bind_eq_ok.mp hbuild
  cases hbuild
  obtain ⟨g₁, _, n₁, hg₁, hgs₁, rfl⟩ := buildAll_cons_eq_ok hgs
  obtain ⟨g₂, _, n₂, hg₂, hgs₂, rfl⟩ := buildAll_cons_eq_ok hgs₁
  obtain ⟨g₃, _, n₃, hg₃, hgs₃, rfl⟩ := buildAll_cons_eq_ok hgs₂
  cases hgs₃
  have hlast : (Goal.conjoin [g₃]).Leaves space fun _ => True := hafter.leaves hg₃
  have hmiddle := Goal.leaves_conjoin_cons (enduring_keeps space f) (hf.keeps hargs hg₂) hlast
  have hgoals := Goal.leaves_conjoin_cons enduring_true (hbefore.leaves hg₁) hmiddle
  have hlabel : (Goal.conjoin [Goal.label query]).Leaves space _ := Goal.leaves_label query
  have hkeeps := enduring_true.and ((enduring_keeps space f).and enduring_true)
  have hall := Goal.leaves_conjoin_cons hkeeps hgoals hlabel
  obtain ⟨t, ht, rfl⟩ := exists_of_mem_run hrun hrow
  obtain ⟨-, ⟨-, htkeeps, -⟩, hknown⟩ := (hall (.empty space) (discrete_empty space) rfl).each t ht
  exact htkeeps.confines_row hknown

/-- Among the notes of a class that is given by name is the one above the `C` in the middle of
MIDI. -/
theorem run_confines_flat :
    let c : Term := .val (.text "Db")
    let octave : Term := .var (.named "octave")
    let pitch : Term := .var (.named "pitch")
    let f : Formula := .note c octave pitch
    let row : Row := [c, .int 4, .int 61]
    ∃ rows, (Formula.conjoin [.disjoin [.fail, .succeed], f, .label [pitch]]).run
        [c, octave, pitch] .nothing .midi = .ok rows ∧ row ∈ rows ∧
      f.Confines .midi [c, octave, pitch] row := by
  intro c octave pitch f row
  have hq : NoteTerms c octave pitch :=
    ⟨⟨.ofInt 1, rfl⟩, trivial, trivial, by simp [Term.Distinct, c, octave, pitch]⟩
  have hwritable : ∀ n, NoteWrites .midi octave pitch n → Number.isWritable n = true := fun n =>
    writable_note_midi (fun _ hk => Term.noConfusion hk) fun _ hn => Term.noConfusion hn
  obtain ⟨goal, hgoal, htabulates⟩ := hq.tabulates hwritable
  have hrow : row ∈ noteRows .midi c octave pitch :=
    List.mem_map.mpr ⟨61, by decide +kernel, rfl⟩
  have hrun : (Formula.conjoin [.disjoin [.fail, .succeed], f, .label [pitch]]).run
      [c, octave, pitch] .nothing .midi = .ok (noteRows .midi c octave pitch) := by
    obtain ⟨⟨g, k⟩, hbuild, heq⟩ := bind_eq_ok.mp hgoal
    cases heq
    have hall : (Formula.conjoin [.disjoin [.fail, .succeed], f, .label [pitch]]).goal =
        .ok (Goal.conjoin [Goal.disjoin [Goal.fail, Goal.succeed], g, Goal.label [pitch]]) := by
      show (((f.build 0 >>= fun r => Except.ok (Goal.conjoin
        [Goal.disjoin [Goal.fail, Goal.succeed], r.1, Goal.label [pitch]], r.2)) :
          Except Failure (Goal × Nat)) >>= fun r => Except.ok r.1) = _
      rw [show f.build 0 = .ok (g, k) from hbuild]
      rfl
    have hlabelled := htabulates.label (show [pitch] ⊆ [c, octave, pitch] by simp)
    rw [Formula.run, hall]
    refine Goal.Tabulates.run (g := Goal.conjoin
      [Goal.disjoin [Goal.fail, Goal.succeed], g, Goal.label [pitch]]) ?_
    rw [Goal.Tabulates, Goal.conjoin_cons]
    show ((Answers.one (State.empty .midi)).bind (Goal.conjoin [g, Goal.label [pitch]])).Gives _ _ _
    rw [Answers.one_bind]
    exact hlabelled
  have hplain : ∀ p ∈ f.places, p.2.Plain := by
    simp only [f, places, List.forall_mem_cons]
    exact ⟨Value.Plain.text "Db", trivial, trivial, List.forall_mem_nil _⟩
  refine ⟨_, hrun, hrow, run_confines ?_ (.label _) (.note _ _ _) hplain hrun hrow⟩
  exact .disjoin (List.forall_mem_cons.mpr ⟨.fail, List.forall_mem_singleton.mpr .succeed⟩)

end Formula

end Consonance
