import Mathlib.Data.List.Basic
import Consonance.Proofs.Stream
import Consonance.Tool

/-!
# Where exports lie

The file of an export is found by the path that joins the export directory and the name of the
export.  The name is a text of the caller, and its slashes and double dots count.  So the file
need not lie in the directory.

Where it lies follows from where the name leads on its own (`Location.ofPath_join`).  Every
directory that the name leads above its start takes one name off the export directory, and a name
from the root replaces the directory.  The file is inside just when the name takes none off that
it does not put back (`Path.StaysIn`).  A name without slashes is the name of a file in the
directory.
-/

namespace Consonance

namespace Location

variable {directory : List String} {l : Location}

/-- The location that a relative one becomes when it is found from a directory. -/
def rebase (directory : List String) (l : Location) : Location :=
  { l with
    above := l.above - directory.length
    names := directory.take (directory.length - l.above) ++ l.names }

@[simp] theorem step_absolute (l : Location) (name : String) :
    (l.step name).absolute = l.absolute := by
  unfold step
  split
  · split <;> rfl
  · rfl

theorem foldl_step_absolute (names : List String) (l : Location) :
    (names.foldl step l).absolute = l.absolute := by
  induction names generalizing l with
  | nil => rfl
  | cons name rest ih => rw [List.foldl_cons, ih, step_absolute]

@[simp] theorem ofPath_absolute (p : Path) : (ofPath p).absolute = p.absolute :=
  foldl_step_absolute p.names (start p)

/-- Names other than the double dot are put after one another. -/
theorem foldl_step_of_not_mem {names : List String} (h : ".." ∉ names) (l : Location) :
    names.foldl step l = { l with names := l.names ++ names } := by
  induction names generalizing l with
  | nil => rw [List.foldl_nil, List.append_nil]
  | cons name rest ih =>
      obtain ⟨hname, hrest⟩ := not_or.mp (List.mem_cons.not.mp h)
      rw [List.foldl_cons, ih hrest, step, if_neg (Ne.symm hname)]
      simp

/-- A step means the same from a directory. -/
theorem step_rebase (h : l.absolute = false) (name : String) :
    (l.rebase directory).step name = (l.step name).rebase directory := by
  by_cases hname : name = ".."
  · by_cases hl : l.names = []
    · -- The step leads above the start, and takes a name off the directory if one is left.
      by_cases hdir : l.above < directory.length
      · have htake : directory.take (directory.length - l.above) ≠ [] := by
          rw [Ne, List.take_eq_nil_iff, ← List.length_eq_zero_iff]
          omega
        have hup : l.above + 1 - directory.length = l.above - directory.length := by omega
        have hdrop : (directory.take (directory.length - l.above)).dropLast =
            directory.take (directory.length - (l.above + 1)) := by
          rw [List.dropLast_eq_take, List.length_take, List.take_take]
          congr 1
          omega
        simp [step, rebase, hname, hl, h, htake, hup, hdrop]
      · have hzero : directory.length - l.above = 0 := by omega
        have hsucc : directory.length - (l.above + 1) = 0 := by omega
        have hup : l.above + 1 - directory.length = l.above - directory.length + 1 := by omega
        simp [step, rebase, hname, hl, h, hzero, hsucc, hup]
    · simp [step, rebase, hname, hl, List.dropLast_append_of_ne_nil]
  · simp [step, rebase, hname]

theorem foldl_step_rebase (names : List String) (h : l.absolute = false) :
    names.foldl step (l.rebase directory) = (names.foldl step l).rebase directory := by
  induction names generalizing l with
  | nil => rfl
  | cons name rest ih =>
      rw [List.foldl_cons, List.foldl_cons, step_rebase h, ih ((step_absolute l name).trans h)]

/-- A relative path leads from a directory to where it leads on its own, taken from there. -/
theorem ofPath_join {base p : Path} (hbase : base.absolute = false) (hdots : ".." ∉ base.names)
    (hp : p.absolute = false) : ofPath (base.join p) = (ofPath p).rebase base.names := by
  have hjoin : base.join p = ⟨base.slashes, base.names ++ p.names⟩ := by simp [Path.join, hp]
  have hstart : base.names.foldl step (start (base.join p)) = (start p).rebase base.names := by
    rw [foldl_step_of_not_mem hdots]
    simp_all [start, rebase, Path.absolute]
  rw [ofPath, ofPath, ← foldl_step_rebase p.names hp, ← hstart, ← List.foldl_append, hjoin]

/-- An absolute path leads to the same place from every directory. -/
theorem ofPath_join_of_absolute {base p : Path} (hp : p.absolute = true) :
    ofPath (base.join p) = ofPath p := by
  rw [Path.join, if_pos hp]

theorem isInside_rebase :
    (l.rebase directory).isInside directory = true ↔ l.absolute = false ∧
      l.above ≤ directory.length ∧ directory.drop (directory.length - l.above) <+: l.names ∧
        l.above < l.names.length := by
  by_cases hup : l.above ≤ directory.length
  · have hlength : directory.length < directory.length - l.above + l.names.length ↔
        l.above < l.names.length := by omega
    have hprefix : directory <+: directory.take (directory.length - l.above) ++ l.names ↔
        directory.drop (directory.length - l.above) <+: l.names := by
      conv_lhs => lhs; rw [← List.take_append_drop (directory.length - l.above) directory]
      exact List.prefix_append_right_inj _
    simp [isInside, rebase, hup, hlength, hprefix, Nat.sub_eq_zero_of_le, and_assoc]
  · have hpos : l.above - directory.length ≠ 0 := by omega
    simp [isInside, rebase, hup, hpos]

end Location

namespace Path

/-- Found from the directory, the path leads into it.  It is relative, and the names that it
takes off the directory are put back by the first of its own, with others after them. -/
def StaysIn (directory : List String) (p : Path) : Prop :=
  let l := Location.ofPath p
  l.absolute = false ∧ l.above ≤ directory.length ∧
    directory.drop (directory.length - l.above) <+: l.names ∧ l.above < l.names.length

instance (directory : List String) (p : Path) : Decidable (p.StaysIn directory) :=
  inferInstanceAs (Decidable (_ ∧ _ ∧ _ ∧ _))

/-- A path stays in a directory if it leads inside from there. -/
theorem isInside_join_iff {base p : Path} (hbase : base.absolute = false)
    (hdots : ".." ∉ base.names) :
    (Location.ofPath (base.join p)).isInside base.names = true ↔ p.StaysIn base.names := by
  cases hp : p.absolute with
  | false => rw [Location.ofPath_join hbase hdots hp, Location.isInside_rebase, StaysIn]
  | true =>
      rw [Location.ofPath_join_of_absolute hp]
      simp [Location.isInside, StaysIn, hp]

example : ¬ (ofText "../x.mid").StaysIn ["output"] ∧ ¬ (ofText "/tmp/x.mid").StaysIn ["output"] ∧
    (ofText "../output/x.mid").StaysIn ["output"] := by decide +kernel

theorem pieces_of_not_mem {s : List Char} (h : '/' ∉ s) : pieces s = [s] := by
  induction s with
  | nil => rfl
  | cons c rest ih =>
      obtain ⟨hc, hrest⟩ := not_or.mp (List.mem_cons.not.mp h)
      rw [pieces, ih hrest]
      exact if_neg (Ne.symm hc)

/-- A text without slashes is a path of one name, if it is a name at all. -/
theorem ofText_of_not_mem {s : String} (h : '/' ∉ s.toList) (hname : isName s.toList = true) :
    ofText s = ⟨0, [s]⟩ := by
  have hslashes : s.toList.takeWhile (· == '/') = [] := by
    cases hs : s.toList with
    | nil => rfl
    | cons c rest =>
        have hc : c ≠ '/' := fun hc => h (hs ▸ hc ▸ List.mem_cons_self)
        simp [hc]
  simp [ofText, hslashes, pieces_of_not_mem h, hname]

end Path

namespace Store

variable {α : Type} {s s' : Store α} {l : Location} {p : Path} {content : α}

/-- Following names, if it succeeds, leads where the names lead. -/
theorem follow_eq {names : List String} {l' : Location} (h : s.follow l names = .ok l') :
    l' = names.foldl Location.step l := by
  induction names generalizing l with
  | nil => exact (Except.ok.inj h).symm
  | cons name rest ih =>
      rw [follow] at h
      split at h
      · split at h
        · cases h
        · exact ih h
      · split at h <;> cases h

theorem locate_eq (h : s.locate p = .ok l) : l = .ofPath p := by
  -- Of the branches only one gives a location.
  cases hfollow : s.follow (.start p) p.names with
  | error fault =>
      simp only [locate, hfollow] at h
      repeat' split at h
      all_goals cases h
  | ok l' =>
      simp only [locate, hfollow] at h
      repeat' split at h
      all_goals cases h
      exact follow_eq hfollow

/-- A file is written where its path leads, and nowhere else. -/
theorem write_eq (h : s.write p content = .ok s') :
    s' = { s with files := put (.ofPath p) content s.files } := by
  obtain ⟨l, hl, h⟩ := bind_eq_ok.mp h
  rw [← locate_eq hl]
  exact (Except.ok.inj h).symm

theorem find?_put_ne {l' : Location} (h : l' ≠ l) (content : α) (files : List (Location × α)) :
    ((put l content files).find? fun file => file.1 == l') =
      files.find? fun file => file.1 == l' := by
  induction files with
  | nil => simp [put, Ne.symm h]
  | cons file rest ih =>
      rw [put]
      split
      · rename_i hfile
        rw [List.find?_cons_of_neg (by simpa using Ne.symm h),
          List.find?_cons_of_neg (by simpa [hfile] using Ne.symm h)]
      · rw [List.find?_cons, List.find?_cons, ih]

/-- Making a directory leaves the files as they are. -/
theorem files_makeDirectory (h : s.makeDirectory p = .ok s') : s'.files = s.files := by
  rw [makeDirectory] at h
  split at h
  · cases h
  · rw [← Except.ok.inj h, addDirectory]
    split <;> rfl

end Store

namespace Tool

/-- An export that succeeds writes one file, at the path that it reports. -/
theorem exportFile_eq {config : Config} {q : ChordQuery} {outputName tempo : Value}
    {files files' : Exports} {fields : List (String × Value)}
    (h : exportFile config q outputName tempo files = .ok (fields, files')) :
    ∃ name bytes, outputName.requirePlain = .ok name ∧
      files'.files = Store.put (.ofPath (exportPath name)) bytes files.files ∧
        ∃ others, fields = ("path", .text (exportPath name).text) :: others := by
  unfold exportFile at h
  obtain ⟨limit, -, h⟩ := bind_eq_ok.mp h
  obtain ⟨space, -, h⟩ := bind_eq_ok.mp h
  obtain ⟨solutions, -, h⟩ := bind_eq_ok.mp h
  obtain ⟨track, -, h⟩ := bind_eq_ok.mp h
  obtain ⟨bytes, -, h⟩ := bind_eq_ok.mp h
  obtain ⟨name, hname, h⟩ := bind_eq_ok.mp h
  obtain ⟨made, hmade, h⟩ := bind_eq_ok.mp h
  obtain ⟨written, hwritten, h⟩ := bind_eq_ok.mp h
  obtain ⟨rfl, rfl⟩ := Prod.mk.inj (Except.ok.inj h)
  refine ⟨name, bytes, hname, ?_, _, rfl⟩
  rw [Store.write_eq hwritten, Store.files_makeDirectory hmade]

/-- A name without slashes is the name of a file in the export directory. -/
theorem ofPath_exportPath {name : String} (h : '/' ∉ name.toList) :
    Location.ofPath (exportPath name) =
      ⟨false, 0, exportDirectory.names ++ [name ++ ".mid"]⟩ := by
  have hslash : '/' ∉ (name ++ ".mid").toList := by simpa using h
  have hname : Path.isName (name ++ ".mid").toList = true := by
    simp [Path.isName, List.append_eq_cons_iff]
  have hup : name ++ ".mid" ≠ ".." := by
    intro hup
    have hmid : ['.', 'm', 'i', 'd'] <:+ ['.', '.'] :=
      ⟨name.toList, by simpa using congrArg String.toList hup⟩
    exact absurd hmid (by decide)
  have hlocation : Location.ofPath (.ofText (name ++ ".mid")) = ⟨false, 0, [name ++ ".mid"]⟩ := by
    simp [Path.ofText_of_not_mem hslash hname, Location.ofPath, Location.start, Location.step,
      Path.absolute, hup]
  rw [exportPath, Location.ofPath_join (by decide +kernel) (by decide +kernel), hlocation]
  · simp [Location.rebase]
  · rw [← Location.ofPath_absolute, hlocation]

/-- An answer starts with its status. -/
theorem take_status (status : String) (c : Char)
    (h : (Json.quoteText status).toList.take 2 = ['"', c]) (fields : List (String × Value)) :
    (Json.write (Json.object (("status", .text status) :: fields))).toList.take 13 =
      "\x7b\"status\": \"".toList ++ [c] := by
  have hkey : (Json.keyText (.text "status")).toList = "\"status\"".toList := by decide +kernel
  obtain ⟨rest, hrest⟩ : ∃ rest, (Json.quoteText status).toList = '"' :: c :: rest :=
    ⟨_, by rw [← List.take_append_drop 2 (Json.quoteText status).toList, h]; rfl⟩
  cases fields <;>
    simp [Json.write, Json.object, Json.pieces, Json.fieldPieces, hkey, hrest]

/-- An answer tells a call that succeeded from one that failed. -/
theorem answer_ok_ne_error (fields : List (String × Value)) (f : Failure) :
    answer (.ok fields) ≠ answer (.error f) := by
  intro h
  have htake := congrArg (fun text : String => text.toList.take 13) h
  have hok := take_status "success" 's' (by decide +kernel) fields
  have herror := take_status "error" 'e' (by decide +kernel) [("message", .text f.message)]
  exact absurd (hok.symm.trans (htake.trans herror)) (by decide)

variable {config : Config} {quality outputName root low limit tempo : Value}
  {files files' : Exports} {text : String}

/-- A call that reports success is an export that succeeds. -/
theorem exportFile_of_run
    (h : run config files .exportChords [quality, outputName, root, low, limit, tempo] =
      .ok (text, files'))
    (hs : ∃ fields, text = answer (.ok fields)) :
    ∃ fields, text = answer (.ok fields) ∧
      exportFile config ⟨quality, root, low, .nothing, .nothing, limit⟩ outputName tempo files =
        .ok (fields, files') := by
  obtain ⟨fields, rfl⟩ := hs
  cases hexport : exportFile config ⟨quality, root, low, .nothing, .nothing, limit⟩ outputName
      tempo files with
  | error f =>
      simp only [run, hexport, Except.ok.injEq, Prod.mk.injEq] at h
      exact absurd h.1.symm (answer_ok_ne_error fields f)
  | ok result =>
      simp only [run, hexport, Except.ok.injEq, Prod.mk.injEq] at h
      exact ⟨result.1, h.1.symm, by rw [← h.2]⟩

/-- Where exports lie.  For every configuration, all arguments and all files there are before, a
call that reports success writes one file, where the path leads that it reports, and leaves every
other file as it was.  The file lies inside the export directory just when the name, with its
ending, stays in the directory.  A name without slashes always does. -/
theorem exportChords_inside_iff
    (h : run config files .exportChords [quality, outputName, root, low, limit, tempo] =
      .ok (text, files'))
    (hs : ∃ fields, text = answer (.ok fields)) :
    ∃ name bytes, outputName.requirePlain = .ok name ∧
      (∃ others, text = answer (.ok (("path", .text (exportPath name).text) :: others))) ∧
      files'.content? (.ofPath (exportPath name)) = some bytes ∧
      (∀ l, l ≠ .ofPath (exportPath name) → files'.content? l = files.content? l) ∧
      ((Location.ofPath (exportPath name)).isInside exportDirectory.names = true ↔
        (Path.ofText (name ++ ".mid")).StaysIn exportDirectory.names) ∧
      ('/' ∉ name.toList → Location.ofPath (exportPath name) =
        ⟨false, 0, exportDirectory.names ++ [name ++ ".mid"]⟩) := by
  obtain ⟨fields, htext, hexport⟩ := exportFile_of_run h hs
  obtain ⟨name, bytes, hname, hfiles, others, rfl⟩ := exportFile_eq hexport
  refine ⟨name, bytes, hname, ⟨others, htext⟩, ?_, fun l hl => ?_, ?_, ofPath_exportPath⟩
  · rw [Store.content?, hfiles, Store.content?_put_self]
  · rw [Store.content?, hfiles, Store.find?_put_ne hl, Store.content?]
  · exact Path.isInside_join_iff (by decide +kernel) (by decide +kernel)

/-- The name leads to the parent of the export directory.  No chord has so high a voice, and a file
without chords is written.  The call reports success, and the file lies beside the directory. -/
theorem exportChords_inside_iff_parent :
    ∃ text files', run .standard {} .exportChords
        [.text "major", .text "../x", .nothing, .int 200, .nothing, .int 90] = .ok (text, files') ∧
      (∃ fields, text = answer (.ok fields)) ∧
      ¬ (Path.ofText ("../x" ++ ".mid")).StaysIn exportDirectory.names ∧
      (Location.ofPath (exportPath "../x")).isInside exportDirectory.names = false ∧
      Location.ofPath (exportPath "../x") = ⟨false, 0, ["x.mid"]⟩ ∧
      ∃ bytes, files'.content? ⟨false, 0, ["x.mid"]⟩ = some bytes := by
  have hok : (exportFile .standard
      ⟨.text "major", .nothing, .int 200, .nothing, .nothing, .nothing⟩ (.text "../x")
      (.int 90) {}).isOk = true := by decide +kernel
  cases hexport : exportFile .standard
      ⟨.text "major", .nothing, .int 200, .nothing, .nothing, .nothing⟩ (.text "../x")
      (.int 90) {} with
  | error f => simp [hexport, Except.isOk, Except.toBool] at hok
  | ok result =>
      have hrun : run .standard {} .exportChords
          [.text "major", .text "../x", .nothing, .int 200, .nothing, .int 90] =
            .ok (answer (.ok result.1), result.2) := by
        simp only [run, hexport]
      have hlocation : Location.ofPath (exportPath "../x") = ⟨false, 0, ["x.mid"]⟩ := by
        decide +kernel
      have hstays : ¬ (Path.ofText ("../x" ++ ".mid")).StaysIn exportDirectory.names := by
        decide +kernel
      obtain ⟨name, bytes, hname, -, hcontent, -, hinside, -⟩ :=
        exportChords_inside_iff hrun ⟨result.1, rfl⟩
      obtain rfl : "../x" = name := Except.ok.inj hname
      exact ⟨_, _, hrun, ⟨_, rfl⟩, hstays, Bool.eq_false_iff.mpr fun h => hstays (hinside.mp h),
        hlocation, bytes, hlocation ▸ hcontent⟩

end Tool

end Consonance
