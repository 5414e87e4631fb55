import Consonance.Proofs.Releases

/-!
# Ticks of a track

A track times each message from the one before.  The sums of these times give back the tick of
every message, counted from the start of the track.  A *cue* is a key message at its tick, and
the cues of a track are what a player does (`Track.cues`).

Events say what is to be done in a form of their own: a strike at the start and a release at the
end (`NoteEvent.cues`).  The track does this and nothing else.  Its cues are those of the events,
each as often as the events have it, and they are put in order: by tick, releases before
strikes, and by note (`exists_track_cues`).

What the times are taken from is a list of strokes in order.  So they are never negative, and
summing them up is the inverse of taking them (`cuesFrom_keysFrom`).
-/

namespace Consonance.Midi

/-- A key message at a tick, which is counted from the start of the track. -/
structure Cue where
  tick : Int
  message : KeyMessage

/-- A stroke as a cue. -/
def Stroke.cue (s : Stroke) : Cue := ⟨s.moment, s.message⟩

namespace Cue

/-- The note as an integer. -/
def note (c : Cue) : Int := c.message.note.whole?.getD 0

/-- The second cue may follow the first one: it is later, or at the same tick a strike after a
release, or of the same kind and no lower. -/
def MayPrecede (a b : Cue) : Prop :=
  a.tick < b.tick ∨ a.tick = b.tick ∧ (a.message.isOn = false ∧ b.message.isOn = true ∨
    a.message.isOn = b.message.isOn ∧ a.note ≤ b.note)

end Cue

/-- The place of a stroke in a track is that of its cue. -/
theorem Stroke.cue_mayPrecede {a b : Stroke} (h : a.place ≤ b.place) :
    a.cue.MayPrecede b.cue := by
  rcases Prod.Lex.toLex_le_toLex.mp h with hlt | ⟨htick, hrest⟩
  · exact .inl hlt
  · refine .inr ⟨htick, ?_⟩
    rcases Prod.Lex.toLex_le_toLex.mp hrest with hlt | ⟨hsame, hnote⟩
    · exact .inl (Bool.lt_iff.mp hlt)
    · exact .inr ⟨hsame, hnote⟩

/-- The cues of the messages that follow a tick. -/
def Track.cuesFrom (now : Int) : Track → List Cue
  | [] => []
  | m :: rest =>
    let tick := now + m.delta.whole?.getD 0
    match m.message with
    | .key k => ⟨tick, k⟩ :: cuesFrom tick rest
    | _ => cuesFrom tick rest

def Track.cues (t : Track) : List Cue := t.cuesFrom 0

/-- A strike at the start of the event and a release at its end. -/
def NoteEvent.cues (e : NoteEvent) : List Cue :=
  [⟨e.onset, ⟨true, e.channel, e.pitch, e.velocity⟩⟩,
    ⟨e.finish, ⟨false, e.channel, e.pitch, .int 0⟩⟩]

/-! ## Times between strokes -/

section Times

variable {now : Int} {l : List Stroke}

/-- The sums of the times are the ticks that they were taken from. -/
theorem cuesFrom_keysFrom (now : Int) (l : List Stroke) :
    Track.cuesFrom now (keysFrom now l ++ [⟨.int 0, .endOfTrack⟩]) = l.map Stroke.cue := by
  induction l generalizing now with
  | nil => rfl
  | cons s rest ih =>
      have htick : now + (s.moment - now) = s.moment := by omega
      simp only [keysFrom, List.cons_append, Track.cuesFrom, Value.whole?_int, Option.getD_some,
        htick, ih, List.map_cons]
      rfl

theorem cues_timed (tempo : Nat) (l : List Stroke) : (timed tempo l).cues = l.map Stroke.cue :=
  cuesFrom_keysFrom 0 l

/-- Strokes whose ticks never fall are timed by whole numbers that are not negative. -/
theorem keysFrom_nonneg (hnow : ∀ s ∈ l, now ≤ s.moment)
    (hl : l.Pairwise fun a b => a.moment ≤ b.moment) {m : TimedMessage} (hm : m ∈ keysFrom now l) :
    (∃ n : Int, 0 ≤ n ∧ m.delta = .int n) ∧ ∃ k, m.message = .key k := by
  induction l generalizing now with
  | nil => cases hm
  | cons s rest ih =>
      obtain ⟨hs, hrest⟩ := List.pairwise_cons.mp hl
      rcases List.mem_cons.mp hm with rfl | hm
      · exact ⟨⟨_, Int.sub_nonneg_of_le (hnow s (List.mem_cons_self ..)), rfl⟩, _, rfl⟩
      · exact ih hs hrest hm

end Times

/-! ## Tracks of events -/

section Events

variable {events : List NoteEvent}

/-- The strokes of events are their cues. -/
theorem cues_bothStrokes (events : List NoteEvent) :
    (events.flatMap NoteEvent.bothStrokes).map Stroke.cue = events.flatMap NoteEvent.cues := by
  rw [List.map_flatMap]
  rfl

/-- No stroke of accepted events comes before the start of the track. -/
theorem moment_nonneg (haccepted : ∀ e ∈ events, e.Accepted) (hwhole : ∀ e ∈ events, e.Whole)
    {s : Stroke} (hs : s ∈ arrange (events.flatMap NoteEvent.bothStrokes)) : 0 ≤ s.moment := by
  obtain ⟨e, he, hs⟩ := List.mem_flatMap.mp ((arrange_perm _).mem_iff.mp hs)
  obtain ⟨hstart, hend⟩ := (haccepted e he).onset_nonneg_le_finish (hwhole e he)
  rcases List.mem_cons.mp hs with rfl | hs
  · exact hstart
  · rcases List.mem_singleton.mp hs with rfl
    exact Int.le_trans hstart hend

/-- The track of events is the tempo, then messages of keys, each some ticks after the one
before, and then the end.  Its cues come in order, and they are the strikes and releases of the
events. -/
theorem exists_track_cues (haccepted : ∀ e ∈ events, e.Accepted) (hwhole : ∀ e ∈ events, e.Whole)
    {beatsPerMinute : Value} {tempo : Nat} (htempo : tempoOf beatsPerMinute = .ok tempo) :
    ∃ (keys t : Track), track events beatsPerMinute = .ok t ∧
      t = ⟨.int 0, .tempo tempo⟩ :: (keys ++ [⟨.int 0, .endOfTrack⟩]) ∧
      (∀ m ∈ keys, (∃ n : Int, 0 ≤ n ∧ m.delta = .int n) ∧ ∃ k, m.message = .key k) ∧
      t.cues.Pairwise Cue.MayPrecede ∧ t.cues.Perm (events.flatMap NoteEvent.cues) := by
  have hsorted := pairwise_strokes hwhole
  refine ⟨_, _, track_whole hwhole htempo, rfl, fun m hm => ?_, ?_, ?_⟩
  · refine keysFrom_nonneg (fun s => moment_nonneg haccepted hwhole) ?_ hm
    refine hsorted.imp fun h => ?_
    rcases Stroke.moment_le h with hlt | ⟨heq, -⟩ <;> omega
  · rw [cues_timed]
    exact List.pairwise_map.mpr (hsorted.imp Stroke.cue_mayPrecede)
  · rw [cues_timed, ← cues_bothStrokes]
    exact (arrange_perm _).map Stroke.cue

/-- Two notes that overlap, the later one given first. -/
theorem exists_track_cues_overlap :
    let e : NoteEvent := ⟨.int 64, .int 240, .int 480, .int 80, .int 0⟩
    let d : NoteEvent := ⟨.int 60, .int 0, .int 720, .int 100, .int 1⟩
    e.Accepted ∧ e.Whole ∧ d.Accepted ∧ d.Whole ∧ tempoOf (.int 120) = .ok 500000 ∧
      ∃ t, track [e, d] (.int 120) = .ok t ∧ t.cues.Pairwise Cue.MayPrecede ∧
        t.cues.Perm
          [⟨240, ⟨true, .int 0, .int 64, .int 80⟩⟩, ⟨720, ⟨false, .int 0, .int 64, .int 0⟩⟩,
            ⟨0, ⟨true, .int 1, .int 60, .int 100⟩⟩, ⟨720, ⟨false, .int 1, .int 60, .int 0⟩⟩] := by
  intro e d
  have haccepted : ∀ f ∈ [e, d], f.Accepted := by
    refine List.forall_mem_cons.mpr ⟨rfl, List.forall_mem_singleton.mpr rfl⟩
  have hwhole : ∀ f ∈ [e, d], f.Whole :=
    List.forall_mem_cons.mpr ⟨⟨rfl, rfl, rfl, rfl, rfl⟩,
      List.forall_mem_singleton.mpr ⟨rfl, rfl, rfl, rfl, rfl⟩⟩
  have htempo : tempoOf (.int 120) = .ok 500000 := by with_unfolding_all rfl
  obtain ⟨-, t, ht, -, -, hordered, hcues⟩ := exists_track_cues haccepted hwhole htempo
  exact ⟨rfl, ⟨rfl, rfl, rfl, rfl, rfl⟩, rfl, ⟨rfl, rfl, rfl, rfl, rfl⟩, htempo, t, ht, hordered,
    hcues⟩

end Events

end Consonance.Midi
