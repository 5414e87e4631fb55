import Consonance.Proofs.ChordAnswers
import Consonance.Proofs.NoteNames

/-!
# Printed pitches

A pitch is printed as a number, or as the name of a note with its class and octave.  Either text is
a pitch argument that stands for the pitch again, with any blanks around it.

Printing writes the digits of ASCII.  They are read back as the same number if they are not too many
(`Number.readIntegerChars_toString`), and make up the octave of a written note
(`WrittenNote.printed`).
-/

namespace Consonance

open Consonance.Text

/-! ## Decimal texts -/

namespace Number

theorem decimalValue?_of_isDigit {c : Char} (h : c.isDigit = true) :
    decimalValue? c = some (c.toNat - '0'.toNat) := by
  have hascii : c.toNat < 0x80 := by
    simp only [Char.isDigit, Bool.and_eq_true, decide_eq_true_eq, ge_iff_le,
      UInt32.le_iff_toNat_le] at h
    have hnine : c.toNat ≤ 57 := h.2
    omega
  rw [decimalValue?, if_pos hascii, if_pos h]

theorem isDigit_of_mem {n : Nat} {c : Char} (h : c ∈ Nat.toDigits 10 n) : c.isDigit = true :=
  Nat.isDigit_of_mem_toDigits (by decide) (by decide) h

theorem isDecimal_of_mem {n : Nat} {c : Char} (h : c ∈ Nat.toDigits 10 n) :
    isDecimal c = true := by
  rw [isDecimal, decimalValue?_of_isDigit (isDigit_of_mem h)]
  rfl

theorem toDigits_ne_nil (n : Nat) : Nat.toDigits 10 n ≠ [] :=
  List.ne_nil_of_length_pos Nat.length_toDigits_pos

/-- The digits of a number have the number as their value. -/
theorem ofDigits_toDigits (n : Nat) :
    ofDigits ((Nat.toDigits 10 n).filterMap decimalValue?) = n := by
  have hvalues : (Nat.toDigits 10 n).filterMap decimalValue? =
      (Nat.toDigits 10 n).map fun c => c.toNat - '0'.toNat := by
    rw [← List.filterMap_eq_map]
    exact List.filterMap_congr fun c hc => decimalValue?_of_isDigit (isDigit_of_mem hc)
  rw [hvalues, ofDigits, List.foldl_map, ← Nat.ofDigitChars_eq_foldl]
  exact Nat.ofDigitChars_toDigits (by decide) (by decide)

/-- A number that can be written has few enough digits to be read. -/
theorem length_toDigits_le {n : Int} (h : isWritable n = true) :
    (Nat.toDigits 10 n.natAbs).length ≤ digitLimit := by
  unfold isWritable writableBound at h
  have hpos : 0 < digitLimit := by decide
  -- The limit is not worked out, since the power is far too large.
  generalize digitLimit = limit at h hpos ⊢
  exact (Nat.length_toDigits_le_iff (by decide) hpos).mpr (of_decide_eq_true h)

/-- A printed integer is a minus if it is negative, and its digits. -/
theorem toList_toString (n : Int) : (toString n).toList =
    if n < 0 then '-' :: Nat.toDigits 10 n.natAbs else Nat.toDigits 10 n.natAbs := by
  rw [Int.toString_eq_repr, Int.repr_eq_if]
  by_cases hn : 0 ≤ n
  · have habs : n.toNat = n.natAbs := by omega
    rw [if_pos hn, if_neg (by omega), Nat.toList_repr, habs]
  · have habs : (-n).toNat = n.natAbs := by omega
    rw [if_neg hn, if_pos (by omega), String.toList_append, Nat.toList_repr, habs]
    rfl

theorem takeDigits_decimals {cs : List Char} (h : ∀ c ∈ cs, isDecimal c = true) :
    takeDigits true cs = ⟨cs.filterMap decimalValue?, true, []⟩ := by
  induction cs with
  | nil => rfl
  | cons c rest ih =>
      obtain ⟨hc, hrest⟩ := List.forall_mem_cons.mp h
      obtain ⟨d, hd⟩ := Option.isSome_iff_exists.mp hc
      simp only [takeDigits, hd, ih hrest, List.filterMap_cons]

theorem takeDigits_toDigits (n : Nat) : takeDigits false (Nat.toDigits 10 n) =
    ⟨(Nat.toDigits 10 n).filterMap decimalValue?, true, []⟩ := by
  have hdecimal : ∀ c ∈ Nat.toDigits 10 n, isDecimal c = true := fun c hc => isDecimal_of_mem hc
  cases hdigits : Nat.toDigits 10 n with
  | nil => exact absurd hdigits (toDigits_ne_nil n)
  | cons c rest =>
      rw [hdigits] at hdecimal
      obtain ⟨hc, hrest⟩ := List.forall_mem_cons.mp hdecimal
      obtain ⟨d, hd⟩ := Option.isSome_iff_exists.mp hc
      simp only [takeDigits, hd, takeDigits_decimals hrest, List.filterMap_cons]

/-- No character of a printed integer is a blank. -/
theorem isBlank_toString {n : Int} {c : Char} (hc : c ∈ (toString n).toList) :
    isBlank c = false := by
  have hoctave : isDecimal c = true ∨ c = '-' := by
    rw [toList_toString] at hc
    split at hc
    · rcases List.mem_cons.mp hc with rfl | hc
      · exact .inr rfl
      · exact .inl (isDecimal_of_mem hc)
    · exact .inl (isDecimal_of_mem hc)
  exact NoteName.isBlank_octave hoctave

/-- A printed integer starts with a digit or is negative and starts with a minus. -/
theorem takeSign_toString (n : Int) :
    takeSign (toString n).toList = (decide (n < 0), Nat.toDigits 10 n.natAbs) := by
  rw [toList_toString]
  by_cases hn : n < 0
  · rw [if_pos hn, decide_eq_true hn]
    rfl
  · rw [if_neg hn, decide_eq_false hn]
    unfold takeSign
    split
    next hdigits => exact absurd (isDigit_of_mem (hdigits ▸ List.mem_cons_self ..)) (by decide)
    next hdigits => exact absurd (isDigit_of_mem (hdigits ▸ List.mem_cons_self ..)) (by decide)
    next => rfl

/-- A printed integer is read back. -/
theorem readIntegerChars_toString {n : Int} (h : isWritable n = true) :
    readIntegerChars (toString n).toList = .ok n := by
  have hblank : (toString n).toList.dropWhile isIntegerBlank = (toString n).toList := by
    refine dropWhile_of_stop fun c hc => ?_
    rw [isIntegerBlank, isBlank_toString (List.mem_of_mem_head? hc), Bool.false_and]
  have hlength : ((Nat.toDigits 10 n.natAbs).filterMap decimalValue?).length ≤ digitLimit :=
    Nat.le_trans (List.length_filterMap_le _ _) (length_toDigits_le h)
  rw [readIntegerChars, hblank, takeSign_toString]
  simp only [takeDigits_toDigits, ofDigits_toDigits, Bool.not_true, Bool.false_eq_true, if_false,
    if_neg (Nat.not_lt.mpr hlength), List.all_nil, decide_eq_true_eq]
  refine congrArg Except.ok ?_
  split
  · omega
  · omega

end Number

/-! ## Texts as pitch arguments -/

theorem resolvePitch_of_numeral {s : String} {n : Int} (hs : isNumeral (strip s).toList = true)
    (hn : Value.integerOfText (strip s) = .ok n) : resolvePitch (.text s) = .ok (.int n) := by
  refine bind_eq_ok.mpr ⟨s, rfl, ?_⟩
  rw [if_pos hs]
  exact bind_eq_ok.mpr ⟨n, hn, rfl⟩

/-- A printed integer is written like a number. -/
theorem isNumeral_toString (n : Int) : isNumeral (toString n).toList = true := by
  have hdrop : (toString n).toList.dropWhile (· == '-') = Nat.toDigits 10 n.natAbs := by
    have hdigits : (Nat.toDigits 10 n.natAbs).dropWhile (· == '-') = Nat.toDigits 10 n.natAbs := by
      refine dropWhile_of_stop fun c hc => beq_eq_false_iff_ne.mpr ?_
      rintro rfl
      exact absurd (Number.isDigit_of_mem (List.mem_of_mem_head? hc)) (by decide)
    rw [Number.toList_toString]
    split
    · exact hdigits
    · exact hdigits
  rw [isNumeral, hdrop, Bool.and_eq_true, Bool.not_eq_true', List.isEmpty_eq_false_iff,
    List.all_eq_true]
  refine ⟨Number.toDigits_ne_nil _, fun c hc => ?_⟩
  rw [isDigitLike, Number.isDecimal_of_mem hc, Bool.true_or]

/-- A printed integer stands for itself, with any blanks around it. -/
theorem resolvePitch_toString {n : Int} (h : Number.isWritable n = true) {before after : String}
    (hbefore : ∀ c ∈ before.toList, isBlank c = true)
    (hafter : ∀ c ∈ after.toList, isBlank c = true) :
    resolvePitch (.text (before ++ toString n ++ after)) = .ok (.int n) := by
  have hne : (toString n).toList ≠ [] := by
    rw [Number.toList_toString]
    split
    · exact List.cons_ne_nil _ _
    · exact Number.toDigits_ne_nil _
  have hstrip : strip (before ++ toString n ++ after) = toString n := by
    rw [strip, String.toList_append, String.toList_append, List.append_assoc,
      stripChars_append hbefore hafter _ _ hne, String.ofList_toList]
    · exact fun c hc => Number.isBlank_toString (List.mem_of_mem_head? hc)
    · exact fun c hc => Number.isBlank_toString (List.mem_of_mem_getLast? hc)
  refine resolvePitch_of_numeral ?_ ?_
  · rw [hstrip]
    exact isNumeral_toString n
  · rw [hstrip, Value.integerOfText, Number.readInteger, Number.readIntegerChars_toString h]

namespace WrittenNote

variable {w : WrittenNote} {s : String} {c : PitchClass} {o : Int}

/-- The same name without the blanks around it. -/
def stripped (w : WrittenNote) : WrittenNote :=
  { w with before := [], after := [], before_blank := nofun, after_blank := nofun }

theorem chars_eq_stripped (w : WrittenNote) :
    w.chars = w.before ++ (w.stripped.chars ++ w.after) := by
  cases hnegative : w.negative with
  | true => simp [chars, signed, number, stripped, hnegative]
  | false => simp [chars, signed, number, stripped, hnegative]

/-- The name ends in a digit. -/
theorem getLast?_stripped (w : WrittenNote) : w.stripped.chars.getLast? = w.digits.getLast? := by
  have hend : ∃ front, w.stripped.chars = front ++ w.digits := by
    cases hnegative : w.negative with
    | true =>
        refine ⟨w.letter :: (w.accidentals ++ (w.between ++ ['-'])), ?_⟩
        simp [chars, signed, number, stripped, hnegative]
    | false =>
        refine ⟨w.letter :: (w.accidentals ++ w.between), ?_⟩
        simp [chars, signed, number, stripped, hnegative]
  obtain ⟨front, hfront⟩ := hend
  rw [hfront, List.getLast?_append_of_ne_nil _ w.digits_ne_nil]

theorem stripChars_chars (w : WrittenNote) : stripChars w.chars = w.stripped.chars := by
  rw [chars_eq_stripped]
  refine stripChars_append w.before_blank w.after_blank (fun c hc => ?_) (fun c hc => ?_) ?_
  · cases hc
    exact NoteName.isBlank_letter w.isLetter
  · rw [getLast?_stripped] at hc
    exact NoteName.isBlank_octave (.inl (w.isDecimal c (List.mem_of_mem_getLast? hc)))
  · exact List.cons_ne_nil _ _

/-- The name of a note stands for the pitch of its class in its octave. -/
theorem resolves (hs : w.chars = s.toList) (h : w.Names c o) :
    resolvePitch (.text s) = .ok (.int (c.toInt + 12 * (o + 1))) := by
  refine NoteName.resolves_of_read ((read_eq_ok_iff (w := w.stripped) ?_).mpr ?_)
  · rw [strip, String.toList_ofList, ← hs, stripChars_chars]
  · exact ⟨h.isName, h.short, h.octave_eq⟩

end WrittenNote

/-! ## Printed names -/

/-- The text consists of blanks. -/
def Text.Blank (s : String) : Prop := ∀ c ∈ s.toList, isBlank c = true

instance (s : String) : Decidable (Blank s) :=
  decidable_of_iff (s.toList.all isBlank = true) List.all_eq_true

theorem Text.blank_empty : Blank "" := by decide

namespace PitchClass

/-- Every name of a class is a capital letter of the scale and accidentals. -/
theorem exists_pieces {c : PitchClass} {name : String} (h : name ∈ c.names) :
    ∃ letter accidentals, name.toList = letter :: accidentals ∧
      NoteName.isLetter letter = true ∧ letter.toUpper = letter ∧
      ∀ a ∈ accidentals, NoteName.isAccidental a = true := by
  have htable : ∀ c ∈ all, ∀ name ∈ c.names,
      name.toList.head?.any (fun l => NoteName.isLetter l && l.toUpper == l) = true ∧
        name.toList.tail.all NoteName.isAccidental = true := by
    decide +kernel
  obtain ⟨hhead, htail⟩ := htable c c.mem_all name h
  rw [List.all_eq_true] at htail
  cases hname : name.toList with
  | nil => simp [hname] at hhead
  | cons letter accidentals =>
      rw [hname] at hhead htail
      simp only [List.head?_cons, Option.any_some, Bool.and_eq_true, beq_iff_eq] at hhead
      exact ⟨letter, accidentals, rfl, hhead.1, hhead.2, htail⟩

/-- Both spellings of a class are among its names. -/
theorem spellings_mem (c : PitchClass) :
    c.spelling.sharp ∈ c.names ∧ c.spelling.flat ∈ c.names := by
  have htable : ∀ c ∈ all, c.spelling.sharp ∈ c.names ∧ c.spelling.flat ∈ c.names := by
    decide +kernel
  exact htable c c.mem_all

end PitchClass

/-- The name of a class and a printed octave stand for the pitch of the class in the octave, with
any blanks around them. -/
theorem resolvePitch_name {c : PitchClass} {name : String} (hname : name ∈ c.names) {o : Int}
    (ho : Number.isWritable o = true) {before between after : String} (hbefore : Blank before)
    (hbetween : Blank between) (hafter : Blank after) :
    resolvePitch (.text (before ++ name ++ between ++ toString o ++ after)) =
      .ok (.int (c.toInt + 12 * (o + 1))) := by
  obtain ⟨letter, accidentals, hpieces, hletter, hupper, haccidentals⟩ :=
    PitchClass.exists_pieces hname
  let w : WrittenNote := {
    before := before.toList
    letter
    accidentals
    between := between.toList
    negative := decide (o < 0)
    digits := Nat.toDigits 10 o.natAbs
    after := after.toList
    before_blank := hbefore
    isLetter := hletter
    isAccidental := haccidentals
    between_blank := hbetween
    isDecimal := fun c hc => Number.isDecimal_of_mem hc
    digits_ne_nil := Number.toDigits_ne_nil _
    after_blank := hafter }
  have hsigned : w.signed = (toString o).toList ++ after.toList := by
    rw [Number.toList_toString]
    by_cases hnegative : o < 0
    · simp [WrittenNote.signed, WrittenNote.number, w, hnegative]
    · simp [WrittenNote.signed, WrittenNote.number, w, hnegative]
  have hclass : w.className = name := by
    rw [WrittenNote.className, ← String.ofList_toList (s := name), hpieces]
    exact congrArg (fun l => String.ofList (l :: accidentals)) hupper
  have hmagnitude : w.magnitude = o.natAbs := by
    rw [WrittenNote.magnitude, ← Number.ofDigits_eq]
    exact Number.ofDigits_toDigits _
  have hoctave : o = w.octave := by
    rw [WrittenNote.octave, hmagnitude]
    simp only [w, decide_eq_true_eq]
    split
    · omega
    · omega
  refine w.resolves ?_ ⟨hclass ▸ hname, Number.length_toDigits_le ho, hoctave⟩
  rw [WrittenNote.chars, hsigned]
  simp [w, hpieces]

/-- The octave of a pitch that can be written can be written. -/
theorem Number.isWritable_octaveOf {n : Int} (h : isWritable n = true) :
    isWritable (octaveOf n) = true := by
  unfold isWritable writableBound at h ⊢
  have hpos : 1 ≤ digitLimit := by decide
  generalize digitLimit = limit at h hpos ⊢
  have htwo : 2 < Nat.pow 10 limit :=
    Nat.lt_of_lt_of_le (m := Nat.pow 10 1) (by decide) (Nat.pow_le_pow_right (by decide) hpos)
  have hn := of_decide_eq_true h
  refine decide_eq_true ?_
  rw [octaveOf_eq]
  omega

/-- A text is what is left of it between the blanks that were taken off. -/
theorem Text.exists_blanks (s : String) :
    ∃ before after, s = before ++ strip s ++ after ∧ Blank before ∧ Blank after := by
  let rest := s.toList.dropWhile isBlank
  refine ⟨String.ofList (s.toList.takeWhile isBlank),
    String.ofList (rest.reverse.takeWhile isBlank).reverse, ?_, fun c hc => ?_, fun c hc => ?_⟩
  · have hrest : stripEnd rest ++ (rest.reverse.takeWhile isBlank).reverse = rest := by
      rw [stripEnd, ← List.reverse_append, List.takeWhile_append_dropWhile, List.reverse_reverse]
    rw [← String.toList_inj, String.toList_append, String.toList_append, strip,
      String.toList_ofList, String.toList_ofList, String.toList_ofList, stripChars,
      List.append_assoc, hrest, List.takeWhile_append_dropWhile]
  · rw [String.toList_ofList] at hc
    exact List.mem_takeWhile_imp hc
  · rw [String.toList_ofList] at hc
    exact List.mem_takeWhile_imp (List.mem_reverse.mp hc)

theorem Note.text_int (c : PitchClass) (o : Int) (duration : Fraction) (velocity : Value) :
    (Note.mk c (.int o) duration velocity).text = c.name ++ toString o := by
  simp only [Note.text, Value.plain, Value.quoted]

/-- A spelling of the class of a pitch and the printed octave of the pitch stand for it. -/
theorem resolvePitch_spelling {n : Int} (h : Number.isWritable n = true) {name : String}
    (hname : name ∈ (PitchClass.ofInt n).names) {before after : String} (hbefore : Blank before)
    (hafter : Blank after) :
    resolvePitch (.text (before ++ (name ++ toString (octaveOf n)) ++ after)) = .ok (.int n) := by
  have hread := resolvePitch_name hname (Number.isWritable_octaveOf h) hbefore blank_empty hafter
  have htext : before ++ name ++ "" ++ toString (octaveOf n) ++ after =
      before ++ (name ++ toString (octaveOf n)) ++ after := by
    simp only [String.append_empty, String.append_assoc]
  have hplace : (PitchClass.ofInt n).toInt + 12 * (octaveOf n + 1) = n := PitchSpace.place_ofInt n
  rw [htext, hplace] at hread
  exact hread

/-- Every printed pitch stands for itself.

A whole number stands for itself, and so do its decimal text and the name of its note, with a sharp
or with a flat, whatever blanks are around them.  Any name of a class and a printed octave stand for
the pitch of the class in the octave.  So the name of a solution and the text of a note stand for
the pitch that they were made from. -/
theorem resolvePitch_printed :
    (∀ n, Number.isWritable n = true → resolvePitch (.int n) = .ok (.int n) ∧
      ∀ text ∈ [toString n, (PitchClass.ofInt n).spelling.sharp ++ toString (octaveOf n),
          (PitchClass.ofInt n).spelling.flat ++ toString (octaveOf n)],
        ∀ before after, Blank before → Blank after →
          resolvePitch (.text (before ++ text ++ after)) = .ok (.int n)) ∧
    (∀ c name octave, PitchClass.ofValue (.text name) = .ok c →
      Number.isWritable octave = true →
        resolvePitch (.text (name ++ toString octave)) =
          .ok (.int (c.toInt + 12 * (octave + 1)))) ∧
    (∀ (space : PitchSpace) n, space.Has n → Number.isWritable n = true →
      (∃ note, NoteSolution.ofPitch space (.int n) = .ok note ∧
        resolvePitch (.text note.name) = .ok (.int n)) ∧
      ∀ duration velocity, 0 < duration.num → velocity.within 0 127 = .ok true →
        ∃ note, Note.ofKeyNumber space (.int n) duration velocity = .ok note ∧
          resolvePitch (.text note.text) = .ok (.int n)) := by
  have hname : ∀ n, Number.isWritable n = true →
      resolvePitch (.text ((PitchClass.ofInt n).name ++ toString (octaveOf n))) = .ok (.int n) := by
    intro n hn
    have hread := resolvePitch_spelling hn (PitchClass.spellings_mem (.ofInt n)).1 blank_empty
      blank_empty
    rwa [String.empty_append, String.append_empty] at hread
  refine ⟨fun n hn => ⟨rfl, fun text htext before after hbefore hafter => ?_⟩,
    fun c name octave hclass hoctave => ?_,
    fun space n hin hn => ⟨⟨_, NoteSolution.ofPitch_int hin, hname n hn⟩,
      fun duration velocity hduration hvelocity =>
        ⟨_, Note.ofKeyNumber_int hin hduration hvelocity, ?_⟩⟩⟩
  · obtain ⟨hsharp, hflat⟩ := PitchClass.spellings_mem (.ofInt n)
    simp only [List.mem_cons, List.not_mem_nil, or_false] at htext
    rcases htext with rfl | rfl | rfl
    · exact resolvePitch_toString hn hbefore hafter
    · exact resolvePitch_spelling hn hsharp hbefore hafter
    · exact resolvePitch_spelling hn hflat hbefore hafter
  · obtain ⟨before, after, hblanks, hbefore, hafter⟩ := exists_blanks name
    have hread := resolvePitch_name (PitchClass.ofValue_text_iff.mp hclass) hoctave hbefore hafter
      blank_empty
    rwa [← hblanks, String.append_empty] at hread
  · rw [Note.text_int]
    exact hname n hn

/-- A flat whose sign is a letter of the scale, in an octave below zero, and between blanks. -/
theorem resolvePitch_printed_flat :
    resolvePitch (.text (" " ++ "Bb-2" ++ "\t")) = .ok (.int (-2)) ∧
      resolvePitch (.text ("Cff" ++ toString (-1 : Int))) = .ok (.int 10) ∧
      ∃ note, NoteSolution.ofPitch .midi (.int 61) = .ok note ∧
        resolvePitch (.text note.name) = .ok (.int 61) := by
  obtain ⟨hprinted, hnamed, hnotes⟩ := resolvePitch_printed
  have hname : PitchClass.ofValue (.text "Cff") = .ok (.ofInt 10) :=
    PitchClass.ofValue_name (by decide +kernel)
  have hlow : Number.isWritable (-2) = true := Number.isWritable_of_lt_thousand (by decide)
  exact ⟨(hprinted (-2) hlow).2 "Bb-2" (by decide +kernel) " " "\t" (by decide) (by decide),
    hnamed (.ofInt 10) "Cff" (-1) hname (Number.isWritable_of_lt_thousand (by decide)),
    (hnotes .midi 61 (by decide +kernel) (Number.isWritable_of_lt_thousand (by decide))).1⟩

end Consonance
