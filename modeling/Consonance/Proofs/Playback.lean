import Consonance.Midi.BlockChord
import Consonance.Proofs.Timing

/-!
# Playing a track

A player counts for each key how often it is held.  A strike adds one, and a release takes one
away (`Cue.holds`).  What is held after all cues up to a tick is what sounds then
(`Track.sounding`).

*Events that last.*  No key is released before it was struck, so what sounds at a tick are the
events that have started and not ended (`sounding_eq`).  Each strike belongs to an event that
starts there (`strikesWithin_eq`).

*Block chords.*  The events of a chord all start at a multiple of the length of a chord, one for
each different pitch (`chordEventsFrom_lays`).  So during the time of a solution its pitches
sound, each of them once, and nothing else does (`blockChordTrack_plays`).
-/

namespace Consonance.Midi

/-! ## What sounds at a tick -/

/-- How often a note of a channel is held after a cue.  A note that is not held stays so when it is
released. -/
def Cue.holds (channel note : Int) (held : Nat) (c : Cue) : Nat :=
  if c.message.moves true channel note then held + 1
  else if c.message.moves false channel note then held - 1
  else held

/-- How often a note of a channel sounds after the cues up to a tick. -/
def Track.sounding (t : Track) (channel note tick : Int) : Nat :=
  (t.cues.filter fun c => decide (c.tick ≤ tick)).foldl (Cue.holds channel note) 0

/-- How often a note of a channel is struck from one tick on and before another one. -/
def Track.strikesWithin (t : Track) (channel note first past : Int) : Nat :=
  t.cues.countP fun c => c.message.moves true channel note &&
    decide (first ≤ c.tick ∧ c.tick < past)

section Held

variable {channel note : Int}

theorem KeyMessage.not_moves (m : KeyMessage) (h : m.moves true channel note = true) :
    m.moves false channel note = false := by
  simp only [moves, Bool.and_eq_true, beq_iff_eq] at h
  rw [moves, h.1]
  rfl

/-- If no prefix releases a note more often than it is held, what is held at the end is what was
struck and not released. -/
theorem foldl_holds (channel note : Int) (l : List Cue) (held : Nat)
    (h : ∀ p, p <+: l → p.countP (fun c => c.message.moves false channel note) ≤
      held + p.countP fun c => c.message.moves true channel note) :
    l.foldl (Cue.holds channel note) held + l.countP (fun c => c.message.moves false channel note) =
      held + l.countP fun c => c.message.moves true channel note := by
  induction l generalizing held with
  | nil => rfl
  | cons c rest ih =>
      have hrest : ∀ p, p <+: rest →
          p.countP (fun c => c.message.moves false channel note) +
              (if c.message.moves false channel note then 1 else 0) ≤
            held + (p.countP (fun c => c.message.moves true channel note) +
              if c.message.moves true channel note then 1 else 0) := by
        intro p hp
        have hcons := h (c :: p) ((List.prefix_cons_inj c).mpr hp)
        rwa [List.countP_cons, List.countP_cons] at hcons
      rw [List.foldl_cons, List.countP_cons, List.countP_cons]
      cases hstrike : c.message.moves true channel note with
      | true =>
          have hrelease := c.message.not_moves hstrike
          simp only [hstrike, hrelease, if_true, Bool.false_eq_true, if_false, Nat.add_zero]
            at hrest ⊢
          have hheld : Cue.holds channel note held c = held + 1 := by
            rw [Cue.holds, if_pos hstrike]
          rw [hheld, ih (held + 1) fun p hp => by have := hrest p hp; omega]
          omega
      | false =>
          simp only [hstrike, Bool.false_eq_true, if_false, Nat.add_zero] at hrest ⊢
          cases hrelease : c.message.moves false channel note with
          | true =>
              simp only [hrelease, if_true] at hrest ⊢
              have hone := hrest [] List.nil_prefix
              have hheld : Cue.holds channel note held c = held - 1 := by
                rw [Cue.holds, if_neg (by simp [hstrike]), if_pos hrelease]
              have hend := ih (held - 1) fun p hp => by have := hrest p hp; omega
              rw [hheld]
              simp only [List.countP_nil] at hone
              omega
          | false =>
              simp only [hrelease, Bool.false_eq_true, if_false, Nat.add_zero] at hrest ⊢
              have hheld : Cue.holds channel note held c = held := by
                rw [Cue.holds, if_neg (by simp [hstrike]), if_neg (by simp [hrelease])]
              rw [hheld, ih held hrest]

/-- What sounds in a balanced track was struck and not released. -/
theorem sounding_add_releases {l : List Stroke} {tempo : Nat}
    (hordered : l.Pairwise fun a b => a.place ≤ b.place)
    (hbalanced : (timed tempo l).Balanced channel note) (tick : Int) :
    (timed tempo l).sounding channel note tick +
        l.countP (fun s => s.moves false channel note && decide (s.moment ≤ tick)) =
      l.countP fun s => s.moves true channel note && decide (s.moment ≤ tick) := by
  have hearlier : l.filter (fun s => decide (s.moment ≤ tick)) <+: l := by
    refine filter_prefix_of_pairwise hordered fun a b hle hb => decide_eq_true ?_
    have hb := of_decide_eq_true hb
    rcases Stroke.moment_le hle with hlt | ⟨heq, -⟩ <;> omega
  have hcues : (timed tempo l).cues.filter (fun c => decide (c.tick ≤ tick)) =
      (l.filter fun s => decide (s.moment ≤ tick)).map Stroke.cue := by
    rw [cues_timed, List.filter_map]
    rfl
  have hheld := foldl_holds channel note
    ((l.filter fun s => decide (s.moment ≤ tick)).map Stroke.cue) 0 fun p hp => by
      obtain ⟨q, hq, rfl⟩ := List.prefix_map_iff.mp hp
      rw [List.countP_map, List.countP_map, Nat.zero_add]
      exact (balanced_iff_prefixes (messages_timed tempo l)).mp hbalanced q (hq.trans hearlier)
  rw [List.countP_map, List.countP_map, List.countP_filter, List.countP_filter, Nat.zero_add,
    ← hcues] at hheld
  exact hheld

end Held

/-! ## Events that last -/

section Events

variable {events : List NoteEvent} {t : Track} {channel note : Int}

/-- An event that has started by a tick has ended by then or has not. -/
theorem countP_started (h : ∀ e ∈ events, e.onset ≤ e.finish) (channel note tick : Int) :
    events.countP (fun e => e.plays channel note && decide (e.onset ≤ tick)) =
      events.countP (fun e => e.plays channel note && decide (e.onset ≤ tick ∧ tick < e.finish)) +
        events.countP fun e => e.plays channel note && decide (e.finish ≤ tick) := by
  have hcount := countP_add_congr (l := events) (s := fun _ => false)
    (p := fun e => e.plays channel note && decide (e.onset ≤ tick ∧ tick < e.finish))
    (q := fun e => e.plays channel note && decide (e.finish ≤ tick))
    (r := fun e => e.plays channel note && decide (e.onset ≤ tick)) fun e he => by
      have hle := h e he
      cases e.plays channel note with
      | false => rfl
      | true =>
          simp only [Bool.true_and, decide_eq_true_iff, Bool.false_eq_true, if_false]
          split_ifs <;> omega
  rw [hcount, List.countP_eq_zero.mpr fun _ _ => Bool.false_ne_true, Nat.add_zero]

/-- What sounds at a tick are the events that have started by then and not ended. -/
theorem sounding_eq (haccepted : ∀ e ∈ events, e.Accepted) (hwhole : ∀ e ∈ events, e.Whole)
    (hlast : ∀ e ∈ events, e.onset < e.finish) (tempo : Nat) (channel note tick : Int) :
    (timed tempo (arrange (events.flatMap NoteEvent.bothStrokes))).sounding channel note tick =
      events.countP fun e =>
        e.plays channel note && decide (e.onset ≤ tick ∧ tick < e.finish) := by
  have hbalanced : (timed tempo (arrange (events.flatMap NoteEvent.bothStrokes))).Balanced
      channel note :=
    balanced_of_lasting haccepted hwhole hlast (messages_timed tempo _)
  have hsum := sounding_add_releases (pairwise_strokes hwhole) hbalanced tick
  have hstarted := countP_started (fun e he => (hlast e he).le) channel note tick
  rw [countP_arrange false fun n => decide (n ≤ tick),
    countP_arrange true fun n => decide (n ≤ tick)] at hsum
  simp only [cond_true, cond_false] at hsum
  omega

/-- The strikes within some time belong to the events that start then. -/
theorem strikesWithin_eq (tempo : Nat) (channel note first past : Int) :
    (timed tempo (arrange (events.flatMap NoteEvent.bothStrokes))).strikesWithin channel note
        first past =
      events.countP fun e =>
        e.plays channel note && decide (first ≤ e.onset ∧ e.onset < past) := by
  rw [Track.strikesWithin, cues_timed, List.countP_map]
  exact countP_arrange true fun n => decide (first ≤ n ∧ n < past)

end Events

/-! ## The events of block chords -/

/-- Solutions as a value. -/
def solutionsOf (solutions : List (List Int)) : Value :=
  .list (solutions.map fun pitches => .list (pitches.map .int))

/-- All pitches of the solutions are notes of a keyboard. -/
def Playable (solutions : List (List Int)) : Prop :=
  ∀ pitches ∈ solutions, ∀ n ∈ pitches, 0 ≤ n ∧ n ≤ 127

/-- A note of the chord that starts after `index` others. -/
def chordNote (velocity : Value) (ticks : Int) (index : Nat) (note : Int) : NoteEvent :=
  ⟨.int note, .int (index * ticks), .int ticks, velocity, .int 0⟩

theorem chordNote_plays (velocity : Value) (ticks : Int) (index : Nat) (n channel note : Int) :
    (chordNote velocity ticks index n).plays channel note =
      (decide (channel = 0) && n == note) := by
  rw [Bool.eq_iff_iff]
  simp only [NoteEvent.plays, chordNote, Value.whole?_int, Bool.and_eq_true, beq_iff_eq,
    Option.some.injEq, decide_eq_true_iff]
  exact and_congr_left' eq_comm

@[simp] theorem chordNote_onset (velocity : Value) (ticks : Int) (index : Nat) (n : Int) :
    (chordNote velocity ticks index n).onset = index * ticks := rfl

@[simp] theorem chordNote_finish (velocity : Value) (ticks : Int) (index : Nat) (n : Int) :
    (chordNote velocity ticks index n).finish = index * ticks + ticks := rfl

/-- The events are those of chords, the first of which has the given index.  A chord plays each of
its pitches once, and nothing else. -/
structure Lays (velocity : Value) (ticks : Int) (index : Nat) (solutions : List (List Int))
    (events : List NoteEvent) : Prop where
  each : ∀ e ∈ events, ∃ i n, (0 ≤ n ∧ n ≤ 127) ∧ e = chordNote velocity ticks i n
  count : ∀ (channel note : Int) (within : Int → Bool),
    events.countP (fun e => e.plays channel note && within e.onset) =
      (solutions.zipIdx index).countP fun chord =>
        decide (channel = 0 ∧ note ∈ chord.1) && within (chord.2 * ticks)

/-- The different pitches of a solution. -/
theorem distinctPitches_ints (pitches : List Int) :
    ∃ ns : List Int, ns.Nodup ∧ (∀ n, n ∈ ns ↔ n ∈ pitches) ∧
      distinctPitches (.list (pitches.map .int)) = .ok (ns.map .int) := by
  obtain ⟨d, hd, hintegral, hmem⟩ := Domain.ofList_ints pitches
  obtain ⟨ns, hns, rfl⟩ := hintegral
  refine ⟨ns, hns.nodup, fun n => Domain.mem_ofInts.symm.trans (hmem n), ?_⟩
  refine bind_eq_ok.mpr ⟨_, rfl, bind_eq_ok.mpr ⟨_, hd, ?_⟩⟩
  exact (Domain.integral_ofInts hns).toList

/-- What is made of a list is made one by one, up to the first member that is refused. -/
theorem mapM_of_ite {α β : Type} {P : α → Prop} [DecidablePred P] {f : α → Except Failure β}
    {g : α → β} {e : α → Failure} {l : List α}
    (h : ∀ a ∈ l, f a = if P a then .ok (g a) else .error (e a)) :
    (∀ a ∈ l, P a) ∧ l.mapM f = .ok (l.map g) ∨ ∃ a ∈ l, ¬ P a ∧ l.mapM f = .error (e a) := by
  induction l with
  | nil => exact .inl ⟨nofun, rfl⟩
  | cons a rest ih =>
      obtain ⟨ha, hrest⟩ := List.forall_mem_cons.mp h
      rw [List.mapM_cons]
      by_cases hP : P a
      · rw [if_pos hP] at ha
        rcases ih hrest with ⟨hall, hok⟩ | ⟨b, hb, hnot, herror⟩
        · refine .inl ⟨List.forall_mem_cons.mpr ⟨hP, hall⟩, ?_⟩
          exact bind_eq_ok.mpr ⟨_, ha, bind_eq_ok.mpr ⟨_, hok, rfl⟩⟩
        · refine .inr ⟨b, List.mem_cons_of_mem _ hb, hnot, ?_⟩
          exact bind_eq_error.mpr (.inr ⟨_, ha, bind_eq_error.mpr (.inl herror)⟩)
      · rw [if_neg hP] at ha
        exact .inr ⟨a, List.mem_cons_self .., hP, bind_eq_error.mpr (.inl ha)⟩

/-- A chord that comes before others. -/
theorem Lays.cons {velocity : Value} {ticks : Int} {index : Nat} {pitches ns : List Int}
    {solutions : List (List Int)} {events : List NoteEvent}
    (h : Lays velocity ticks (index + 1) solutions events) (hns : ∀ n ∈ ns, 0 ≤ n ∧ n ≤ 127)
    (hnodup : ns.Nodup) (hmem : ∀ n, n ∈ ns ↔ n ∈ pitches) :
    Lays velocity ticks index (pitches :: solutions)
      (ns.map (chordNote velocity ticks index) ++ events) := by
  refine ⟨?_, fun channel note within => ?_⟩
  · refine List.forall_mem_append.mpr ⟨fun e he => ?_, h.each⟩
    obtain ⟨n, hn, rfl⟩ := List.mem_map.mp he
    exact ⟨index, n, hns n hn, rfl⟩
  · have hchord : (ns.map (chordNote velocity ticks index)).countP
        (fun e => e.plays channel note && within e.onset) =
          if decide (channel = 0 ∧ note ∈ pitches) && within (index * ticks) then 1 else 0 := by
      have hnote : ns.count note = if note ∈ pitches then 1 else 0 := by
        simp only [hnodup.count, hmem]
      rw [List.countP_map]
      simp only [Function.comp_def, chordNote_plays, chordNote_onset]
      by_cases hchannel : channel = 0
      · cases within (index * ticks) with
        | false => simp
        | true => simpa [hchannel, ← List.count_eq_countP] using hnote
      · simp [hchannel]
    rw [List.countP_append, h.count, hchord, List.zipIdx_cons, List.countP_cons, Nat.add_comm]

section Chords

variable {velocity : Value} {strength ticks : Int} (hvelocity : velocity.whole? = some strength)
  (hstrength : 0 ≤ strength ∧ strength ≤ 127) (hticks : 1 ≤ ticks)

include hvelocity hstrength hticks

/-- A note of a chord can be made if its pitch is one of a keyboard. -/
theorem make_chordNote (index : Nat) (n : Int) :
    NoteEvent.make (.int n) (.int (index * ticks)) (.int ticks) velocity (.int 0) =
      if 0 ≤ n ∧ n ≤ 127 then .ok (chordNote velocity ticks index n)
      else Failure.raise (.invalid (.eventRange .pitch (.int n))) := by
  have hchannel : (0 : Int) ≤ 0 ∧ (0 : Int) ≤ 15 := by decide
  have hstart : 0 ≤ (index : Int) * ticks := Int.mul_nonneg (Int.natCast_nonneg _) (by omega)
  have hduration : 0 ≤ ticks := by omega
  rw [NoteEvent.make, NoteEvent.requireUpTo_whole (Value.whole?_int n),
    NoteEvent.requireUpTo_whole hvelocity, NoteEvent.requireUpTo_whole (Value.whole?_int 0),
    NoteEvent.requireNonnegative_whole (Value.whole?_int _),
    NoteEvent.requireNonnegative_whole (Value.whole?_int _), if_pos hstrength, if_pos hchannel,
    if_pos hstart, if_pos hduration]
  split_ifs <;> rfl

theorem chordEvents_ints (index : Nat) (pitches : List Int) :
    (∃ ns : List Int, (∀ n ∈ ns, 0 ≤ n ∧ n ≤ 127) ∧ ns.Nodup ∧ (∀ n, n ∈ ns ↔ n ∈ pitches) ∧
      chordEvents velocity ticks index (.list (pitches.map .int)) =
        .ok (ns.map (chordNote velocity ticks index))) ∨
    ∃ n ∈ pitches, ¬ (0 ≤ n ∧ n ≤ 127) ∧
      chordEvents velocity ticks index (.list (pitches.map .int)) =
        Failure.raise (.invalid (.eventRange .pitch (.int n))) := by
  obtain ⟨ns, hnodup, hmem, hdistinct⟩ := distinctPitches_ints pitches
  have hevents : chordEvents velocity ticks index (.list (pitches.map .int)) = ns.mapM fun n =>
      NoteEvent.make (.int n) (.int (index * ticks)) (.int ticks) velocity (.int 0) := by
    rw [chordEvents, hdistinct]
    exact List.mapM_map
  rw [hevents]
  rcases mapM_of_ite (l := ns) fun n _ => make_chordNote hvelocity hstrength hticks index n with
    ⟨hall, hok⟩ | ⟨n, hn, hout, herror⟩
  · exact .inl ⟨ns, hall, hnodup, hmem, hok⟩
  · exact .inr ⟨n, (hmem n).mp hn, hout, herror⟩

/-- The events of chords, unless there is a pitch that is no note of a keyboard. -/
theorem chordEventsFrom_lays (index : Nat) (solutions : List (List Int)) :
    (Playable solutions ∧ ∃ events, Lays velocity ticks index solutions events ∧
      chordEventsFrom velocity ticks index
        (solutions.map fun pitches => .list (pitches.map .int)) = .ok events) ∨
    ∃ pitches ∈ solutions, ∃ n ∈ pitches, ¬ (0 ≤ n ∧ n ≤ 127) ∧
      chordEventsFrom velocity ticks index
        (solutions.map fun pitches => .list (pitches.map .int)) =
          Failure.raise (.invalid (.eventRange .pitch (.int n))) := by
  induction solutions generalizing index with
  | nil => exact .inl ⟨nofun, [], ⟨nofun, fun _ _ _ => rfl⟩, rfl⟩
  | cons pitches rest ih =>
      rcases chordEvents_ints hvelocity hstrength hticks index pitches with
        ⟨ns, hns, hnodup, hmem, hchord⟩ | ⟨n, hn, hout, herror⟩
      · rcases ih (index + 1) with ⟨hplayable, events, hlays, hok⟩ | ⟨qs, hqs, n, hn, hout, herror⟩
        · refine .inl ⟨List.forall_mem_cons.mpr ⟨fun n hn => hns n ((hmem n).mpr hn), hplayable⟩,
            _, hlays.cons hns hnodup hmem, ?_⟩
          exact bind_eq_ok.mpr ⟨_, hchord, bind_eq_ok.mpr ⟨_, hok, rfl⟩⟩
        · refine .inr ⟨qs, List.mem_cons_of_mem _ hqs, n, hn, hout, ?_⟩
          exact bind_eq_error.mpr (.inr ⟨_, hchord, bind_eq_error.mpr (.inl herror)⟩)
      · exact .inr ⟨pitches, List.mem_cons_self .., n, hn, hout,
          bind_eq_error.mpr (.inl herror)⟩

end Chords

/-! ## Playing block chords -/

/-- Of numbered members only one has a given number. -/
theorem countP_zipIdx_at {α : Type} (p : α → Bool) (l : List α) (index i : Nat) :
    (l.zipIdx index).countP (fun a => p a.1 && decide (a.2 = index + i)) =
      if l[i]?.any p then 1 else 0 := by
  induction l generalizing index i with
  | nil => rfl
  | cons a rest ih =>
      rw [List.zipIdx_cons, List.countP_cons]
      cases i with
      | zero =>
          have hlater : (rest.zipIdx (index + 1)).countP
              (fun a => p a.1 && decide (a.2 = index + 0)) = 0 := by
            refine List.countP_eq_zero.mpr fun b hb hboth => ?_
            have hnumber := of_decide_eq_true (Bool.and_eq_true_iff.mp hboth).2
            have := List.le_snd_of_mem_zipIdx hb
            omega
          rw [hlater]
          simp
      | succ i =>
          have hnumber : index + (i + 1) = index + 1 + i := by omega
          have hhead : ¬ index = index + 1 + i := by omega
          rw [hnumber, ih]
          simp [hhead]

/-- A track that plays chords of one length, one after the other. -/
structure Track.PlaysChords (t : Track) (ticks : Int) (solutions : List (List Int)) : Prop where
  /-- While it is the turn of a chord, its pitches sound and no others. -/
  sounding : ∀ (i : Nat) (hi : i < solutions.length) (channel note tick : Int),
    i * ticks ≤ tick → tick < (i + 1) * ticks →
      t.sounding channel note tick = if channel = 0 ∧ note ∈ solutions[i] then 1 else 0
  /-- Each of them is struck once. -/
  strikes : ∀ (i : Nat) (hi : i < solutions.length) (channel note : Int),
    t.strikesWithin channel note (i * ticks) ((i + 1) * ticks) =
      if channel = 0 ∧ note ∈ solutions[i] then 1 else 0
  /-- After the last chord there is silence. -/
  silent : ∀ channel note tick : Int,
    solutions.length * ticks ≤ tick → t.sounding channel note tick = 0

namespace Lays

variable {velocity : Value} {strength ticks : Int} {solutions : List (List Int)}
  {events : List NoteEvent} (h : Lays velocity ticks 0 solutions events)

include h

/-- In the time of a chord the events that start are its pitches. -/
theorem count_at (within : Int → Bool) {i : Nat}
    (hwithin : ∀ j : Nat, within (j * ticks) = true ↔ j = i) (channel note : Int) :
    events.countP (fun e => e.plays channel note && within e.onset) =
      if channel = 0 ∧ note ∈ solutions[i]?.getD [] then 1 else 0 := by
  have hturn : ∀ j : Nat, within (j * ticks) = decide (j = i) := fun j =>
    Bool.eq_iff_iff.mpr ((hwithin j).trans decide_eq_true_iff.symm)
  have hat := countP_zipIdx_at (fun pitches => decide (channel = 0 ∧ note ∈ pitches)) solutions 0 i
  simp only [Nat.zero_add] at hat
  simp only [h.count, hturn, hat]
  cases solutions[i]? <;> simp

theorem finish_eq {e : NoteEvent} (he : e ∈ events) : e.finish = e.onset + ticks := by
  obtain ⟨i, n, -, rfl⟩ := h.each e he
  rw [chordNote_finish, chordNote_onset]

variable (hvelocity : velocity.whole? = some strength)
  (hstrength : 0 ≤ strength ∧ strength ≤ 127) (hticks : 1 ≤ ticks)

include hvelocity

theorem whole {e : NoteEvent} (he : e ∈ events) : e.Whole := by
  obtain ⟨i, n, -, rfl⟩ := h.each e he
  exact ⟨rfl, rfl, rfl, Option.isSome_of_eq_some hvelocity, rfl⟩

include hstrength hticks

theorem accepted {e : NoteEvent} (he : e ∈ events) : e.Accepted := by
  obtain ⟨i, n, hn, rfl⟩ := h.each e he
  exact (make_chordNote hvelocity hstrength hticks i n).trans (if_pos hn)

/-- What sounds at a tick are the pitches of the chord whose turn it is. -/
theorem sounding_turn {i : Nat} {tick : Int} (hturn : tick / ticks = i) (tempo : Nat)
    (channel note : Int) :
    (timed tempo (arrange (events.flatMap NoteEvent.bothStrokes))).sounding channel note tick =
      if channel = 0 ∧ note ∈ solutions[i]?.getD [] then 1 else 0 := by
  have hlast : ∀ e ∈ events, e.onset < e.finish := fun e he => by
    rw [h.finish_eq he]
    omega
  have hwithin : ∀ j : Nat,
      decide ((j : Int) * ticks ≤ tick ∧ tick < j * ticks + ticks) = true ↔ j = i := fun j => by
    rw [decide_eq_true_iff, ← Int.ediv_eq_iff_of_pos (by omega), hturn, Int.natCast_inj, eq_comm]
  rw [sounding_eq (fun _ => h.accepted hvelocity hstrength hticks) (fun _ => h.whole hvelocity)
    hlast, ← h.count_at (fun m => decide (m ≤ tick ∧ tick < m + ticks)) hwithin]
  exact List.countP_congr fun e he => by rw [h.finish_eq he]

/-- The track of the events of chords plays the chords. -/
theorem playsChords (tempo : Nat) :
    (timed tempo (arrange (events.flatMap NoteEvent.bothStrokes))).PlaysChords ticks
      solutions := by
  have hpositive : 0 < ticks := by omega
  refine ⟨fun i hi channel note tick hfirst hpast => ?_, fun i hi channel note => ?_,
    fun channel note tick hend => ?_⟩
  · have hturn : tick / ticks = i := by
      refine (Int.ediv_eq_iff_of_pos hpositive).mpr ⟨hfirst, ?_⟩
      rwa [Int.add_mul, Int.one_mul] at hpast
    simp [h.sounding_turn hvelocity hstrength hticks hturn, hi]
  · have hwithin : ∀ j : Nat,
        decide ((i : Int) * ticks ≤ j * ticks ∧ j * ticks < (i + 1) * ticks) = true ↔ j = i := by
      intro j
      rw [decide_eq_true_iff, Int.mul_le_mul_right hpositive, Int.mul_lt_mul_right hpositive]
      omega
    rw [strikesWithin_eq, h.count_at (fun m =>
      decide ((i : Int) * ticks ≤ m ∧ m < (i + 1) * ticks)) hwithin]
    simp [hi]
  · have hlater : (solutions.length : Int) ≤ tick / ticks :=
      (Int.le_ediv_iff_mul_le hpositive).mpr hend
    obtain ⟨i, hi⟩ := Int.eq_ofNat_of_zero_le (Int.le_trans (Int.natCast_nonneg _) hlater)
    have hnone : solutions[i]? = none := List.getElem?_eq_none (by omega)
    simp [h.sounding_turn hvelocity hstrength hticks hi, hnone]

end Lays

/-- A pitch that is no note of a keyboard is an invalid argument. -/
theorem raise_pitch (α : Type) (n : Int) :
    ∃ fault,
      (fault = .eventRange .pitch (.int n) ∨
        fault = .unwritable ∧ Number.isWritable n = false) ∧
      (Failure.raise (.invalid (.eventRange .pitch (.int n))) : Except Failure α) =
        .error (.invalid fault) := by
  have hfault : (Shown.plain (.int n)).fault? =
      if Number.isWritable n then none else some .unwritable := rfl
  cases hn : Number.isWritable n <;>
    simp [Failure.raise, Failure.worded, Failure.shown, Invalid.shown, hfault, hn,
      Failure.ofTextFault]

/-- The track of solutions plays them as chords, each for the same number of ticks.  A pitch that is
no note of a keyboard is refused instead. -/
theorem blockChordTrack_plays {p : Playing} {beatsPerMinute : Value} {ticks strength : Int}
    {tempo : Nat} (hticks : p.chordTicks = .ok ticks) (hlasts : 1 ≤ ticks)
    (hvelocity : p.velocity.whole? = some strength) (hstrength : 0 ≤ strength ∧ strength ≤ 127)
    (htempo : tempoOf beatsPerMinute = .ok tempo) (solutions : List (List Int)) :
    (Playable solutions → ∃ t, blockChordTrack p beatsPerMinute (solutionsOf solutions) = .ok t ∧
      t.PlaysChords ticks solutions) ∧
    (¬ Playable solutions → ∃ n fault, (∃ pitches ∈ solutions, n ∈ pitches) ∧
      ¬ (0 ≤ n ∧ n ≤ 127) ∧
      (fault = .eventRange .pitch (.int n) ∨
        fault = .unwritable ∧ Number.isWritable n = false) ∧
      blockChordTrack p beatsPerMinute (solutionsOf solutions) = .error (.invalid fault)) := by
  have hchords : blockChords p (solutionsOf solutions) = chordEventsFrom p.velocity ticks 0
      (solutions.map fun pitches => .list (pitches.map .int)) := by
    rw [blockChords, hticks]
    rfl
  rcases chordEventsFrom_lays hvelocity hstrength hlasts 0 solutions with
    ⟨hplayable, events, hlays, hevents⟩ | ⟨pitches, hpitches, n, hn, hout, herror⟩
  · refine ⟨fun _ => ?_, fun hnot => absurd hplayable hnot⟩
    refine ⟨_, bind_eq_ok.mpr ⟨_, hchords.trans hevents,
      track_whole (fun _ => hlays.whole hvelocity) htempo⟩, ?_⟩
    exact hlays.playsChords hvelocity hstrength hlasts tempo
  · refine ⟨fun hplayable => absurd (hplayable pitches hpitches n hn) hout, fun _ => ?_⟩
    obtain ⟨fault, hfault, hraise⟩ := raise_pitch (List NoteEvent) n
    exact ⟨n, fault, ⟨pitches, hpitches, hn⟩, hout, hfault,
      bind_eq_error.mpr (.inl (hchords.trans (herror.trans hraise)))⟩

/-- A note that sounds in two chords with silence between them, and in the one after these, and a
note that is too high. -/
theorem blockChordTrack_plays_held :
    Playing.chordTicks {} = .ok 480 ∧ tempoOf (.int 90) = .ok 666666 ∧
      (∃ t, blockChordTrack {} (.int 90) (solutionsOf [[64, 60, 64], [], [64], [64]]) = .ok t ∧
        t.sounding 0 64 479 = 1 ∧ t.sounding 0 64 480 = 0 ∧ t.sounding 0 64 1439 = 1 ∧
        t.strikesWithin 0 64 1440 1920 = 1 ∧ t.sounding 0 64 1920 = 0) ∧
      blockChordTrack {} (.int 90) (solutionsOf [[60], [128]]) =
        .error (.invalid (.eventRange .pitch (.int 128))) := by
  have hticks : Playing.chordTicks {} = .ok 480 := by with_unfolding_all rfl
  have htempo : tempoOf (.int 90) = .ok 666666 := by with_unfolding_all rfl
  have hplays := blockChordTrack_plays hticks (by decide) (Value.whole?_int 80) (by decide) htempo
  have hplayable : Playable [[64, 60, 64], [], [64], [64]] := by
    unfold Playable
    decide
  have hnot : ¬ Playable [[60], [128]] := by
    unfold Playable
    decide
  obtain ⟨t, ht, hchords⟩ := (hplays _).1 hplayable
  obtain ⟨n, fault, ⟨pitches, hpitches, hn⟩, hout, hfault, herror⟩ := (hplays _).2 hnot
  have hhigh : n = 128 := by
    simp only [List.mem_cons, List.not_mem_nil, or_false] at hpitches
    rcases hpitches with rfl | rfl
    · simp only [List.mem_singleton] at hn
      omega
    · exact List.mem_singleton.mp hn
  refine ⟨hticks, htempo, ⟨t, ht, ?_, ?_, ?_, ?_, ?_⟩, ?_⟩
  · exact hchords.sounding 0 (by decide) 0 64 479 (by decide) (by decide)
  · exact hchords.sounding 1 (by decide) 0 64 480 (by decide) (by decide)
  · exact hchords.sounding 2 (by decide) 0 64 1439 (by decide) (by decide)
  · exact hchords.strikes 3 (by decide) 0 64
  · exact hchords.silent 0 64 1920 (by decide)
  · subst hhigh
    rcases hfault with rfl | ⟨-, hlong⟩
    · exact herror
    · exact absurd hlong (by decide +kernel)

end Consonance.Midi
