import Consonance.Proofs.Configurations
import Consonance.Proofs.PitchedAnswers
import Consonance.Server

/-!
# What a server hands to its tools

A request is a line of JSON, and every argument that it sends is of a kind that JSON has
(`Request.sends`).  Pitch classes and intervals are not among them.

However a server was configured, its configuration could have been made from fields, and no line
changes it (`Server.Reached.exists_fields`).  So the answers of the query tools, which assume both,
are those of every server to every request.
-/

namespace Consonance

/-- The value is of a kind that JSON has, and so are its parts. -/
inductive Value.IsJson : Value → Prop where
  | nothing : IsJson .nothing
  | truth (b : Bool) : IsJson (.truth b)
  | int (n : Int) : IsJson (.int n)
  | float (x : Number.Binary64) : IsJson (.float x)
  | text (s : String) : IsJson (.text s)
  | list {items : List Value} (each : ∀ v ∈ items, IsJson v) : IsJson (.list items)
  | record {fields : List (Value × Value)} (each : ∀ f ∈ fields, IsJson f.2) :
      IsJson (.record fields)

theorem Value.IsJson.isSent {v : Value} (h : v.IsJson) : v.IsSent := by
  cases h <;> trivial

namespace Json

variable {v : Value} {cs rest : List Char} {items : List Value} {fields : List (Value × Value)}

theorem readNumber_json (h : readNumber cs = some (v, rest)) : v.IsJson := by
  have hmagnitude : ∀ {negative : Bool} {cs : List Char},
      readMagnitude negative cs = some (v, rest) → v.IsJson := by
    intro negative cs h
    simp only [readMagnitude] at h
    split at h
    · cases h
    · split at h
      · cases h
        exact .float _
      · cases h
        exact .int _
  unfold readNumber at h
  split at h
  · exact hmagnitude h
  · exact hmagnitude h

theorem readAtom_json (h : readAtom cs = some (v, rest)) : v.IsJson := by
  unfold readAtom at h
  split at h
  · cases h
    exact .nothing
  · cases h
    exact .truth true
  · cases h
    exact .truth false
  · cases h
    exact .float _
  · cases h
    exact .float _
  · cases h
    exact .float _
  · exact readNumber_json h

theorem putField_json (key : String) (hv : v.IsJson) (h : ∀ f ∈ fields, f.2.IsJson) :
    ∀ f ∈ putField key v fields, f.2.IsJson := by
  induction fields with
  | nil => exact List.forall_mem_singleton.mpr hv
  | cons f fields ih =>
      obtain ⟨hf, hfields⟩ := List.forall_mem_cons.mp h
      unfold putField
      split
      · split
        · exact List.forall_mem_cons.mpr ⟨hv, hfields⟩
        · exact List.forall_mem_cons.mpr ⟨hf, ih hfields⟩
      · exact List.forall_mem_cons.mpr ⟨hf, ih hfields⟩

/-- What is read at a depth, if it is read, is JSON. -/
structure ReadsJson (depth : Nat) : Prop where
  value : ∀ {cs v rest}, readValue depth cs = some (v, rest) → v.IsJson
  items : ∀ {cs items rest}, readItems depth cs = some (items, rest) → ∀ v ∈ items, v.IsJson
  fields : ∀ {earlier cs fields rest}, (∀ f ∈ earlier, f.2.IsJson) →
    readFields earlier depth cs = some (fields, rest) → ∀ f ∈ fields, f.2.IsJson

namespace ReadsJson

variable {depth : Nat}

theorem value_succ (hd : ReadsJson depth) (h : readValue (depth + 1) cs = some (v, rest)) :
    v.IsJson := by
  unfold readValue at h
  split at h
  · obtain ⟨⟨s, after⟩, -, h⟩ := Option.bind_eq_some_iff.mp h
    cases h
    exact .text s
  · split at h
    · cases h
      exact .list (List.forall_mem_nil _)
    · obtain ⟨⟨items, after⟩, hitems, h⟩ := Option.bind_eq_some_iff.mp h
      cases h
      exact .list (hd.items hitems)
  · split at h
    · split at h
      · split at h
        · cases h
          exact .record (List.forall_mem_nil _)
        · obtain ⟨⟨fields, after⟩, hfields, h⟩ := Option.bind_eq_some_iff.mp h
          cases h
          exact .record (hd.fields (List.forall_mem_nil _) hfields)
      · cases h
    · exact readAtom_json h
  · cases h

theorem items_succ (hd : ReadsJson depth) (h : readItems (depth + 1) cs = some (items, rest)) :
    ∀ v ∈ items, v.IsJson := by
  unfold readItems at h
  obtain ⟨⟨v, after⟩, hv, h⟩ := Option.bind_eq_some_iff.mp h
  have hfirst := hd.value hv
  dsimp only at h
  split at h
  · obtain ⟨⟨others, after⟩, hothers, h⟩ := Option.bind_eq_some_iff.mp h
    cases h
    exact List.forall_mem_cons.mpr ⟨hfirst, hd.items hothers⟩
  · cases h
    exact List.forall_mem_singleton.mpr hfirst
  · cases h

theorem fields_succ (hd : ReadsJson depth) {earlier : List (Value × Value)}
    (hearlier : ∀ f ∈ earlier, f.2.IsJson)
    (h : readFields earlier (depth + 1) cs = some (fields, rest)) : ∀ f ∈ fields, f.2.IsJson := by
  unfold readFields at h
  split at h
  · obtain ⟨⟨key, after⟩, -, h⟩ := Option.bind_eq_some_iff.mp h
    dsimp only at h
    split at h
    · obtain ⟨⟨v, after⟩, hv, h⟩ := Option.bind_eq_some_iff.mp h
      have hput := putField_json key (hd.value hv) hearlier
      dsimp only at h
      split at h
      · split at h
        · exact hd.fields hput h
        · split at h
          · cases h
            exact hput
          · cases h
      · cases h
    · cases h
  · cases h

end ReadsJson

theorem readsJson (depth : Nat) : ReadsJson depth := by
  induction depth with
  | zero =>
      constructor
      · intro cs v rest h
        simp [readValue] at h
      · intro cs items rest h
        simp [readItems] at h
      · intro earlier cs fields rest _ h
        simp [readFields] at h
  | succ depth ih => exact ⟨ih.value_succ, ih.items_succ, ih.fields_succ⟩

theorem read_json {s : String} (h : read s = some v) : v.IsJson := by
  obtain ⟨⟨w, rest⟩, hw, h⟩ := Option.bind_eq_some_iff.mp h
  dsimp only at h
  split at h
  · cases h
    exact (readsJson _).value hw
  · cases h

end Json

/-! ## Arguments -/

theorem Value.mem_of_field? {key : String} {fields : List (Value × Value)} {v : Value}
    (h : field? key fields = some v) : ∃ k, (k, v) ∈ fields := by
  induction fields with
  | nil => cases h
  | cons f fields ih =>
      have hlater : field? key fields = some v → ∃ k, (k, v) ∈ f :: fields := fun h =>
        (ih h).imp fun k hk => List.mem_cons_of_mem f hk
      unfold field? at h
      split at h
      · split at h
        · cases h
          exact ⟨_, List.mem_cons_self ..⟩
        · exact hlater h
      · exact hlater h

/-- Arguments are given or are the defaults of their parameters. -/
theorem Parameter.mem_of_bind {parameters : List Parameter} {given : List (Value × Value)}
    {args : List Value} (h : bind parameters given = .ok args) :
    ∀ v ∈ args, (∃ k, (k, v) ∈ given) ∨ ∃ p ∈ parameters, p.default? = some v := by
  unfold bind at h
  split at h
  · intro v hv
    obtain ⟨p, hp, hargument⟩ := Domain.exists_of_mapM h hv
    unfold argument at hargument
    split at hargument
    next w hw =>
      cases hargument
      rcases Option.or_eq_some_iff.mp hw with hgiven | ⟨-, hdefault⟩
      · exact .inl (Value.mem_of_field? hgiven)
      · exact .inr ⟨p, hp, hdefault⟩
    next => cases hargument
  · cases h

/-- The defaults of a tool are of kinds that JSON has. -/
theorem Tool.default_sent (t : Tool) : ∀ p ∈ t.parameters, ∀ v, p.default? = some v → v.IsSent := by
  cases t <;> simp [Tool.parameters, Parameter.required, Parameter.optional, Value.IsSent]

/-- The arguments that a tool is handed for a request are of kinds that JSON has.  They are parts of
the line or the defaults of their parameters. -/
theorem Request.sends {line : String} {r : Request} {args : List Value}
    (h : Request.ofLine? line = some r)
    (hargs : Parameter.bind r.tool.parameters r.arguments = .ok args) : ∀ v ∈ args, v.IsSent := by
  obtain ⟨w, hread, hw⟩ := Option.bind_eq_some_iff.mp h
  have hgiven : ∀ f ∈ r.arguments, f.2.IsJson := by
    have hjson := Json.read_json hread
    unfold ofValue? at hw
    split at hw
    next fields =>
      split at hw
      next name given hname hgiven =>
        obtain ⟨t, -, hr⟩ := Option.map_eq_some_iff.mp hw
        subst hr
        cases hjson with
        | record each =>
            cases hfield : Value.field? "args" fields with
            | none =>
                rw [hfield] at hgiven
                cases hgiven
                exact List.forall_mem_nil _
            | some v =>
                rw [hfield] at hgiven
                obtain ⟨k, hk⟩ := Value.mem_of_field? hfield
                have hv := each _ hk
                cases hgiven
                cases hv with
                | record each => exact each
      next => cases hw
    next => cases hw
  intro v hv
  rcases Parameter.mem_of_bind hargs v hv with ⟨k, hk⟩ | ⟨p, hp, hdefault⟩
  · exact (hgiven _ hk).isSent
  · exact r.tool.default_sent p hp v hdefault

/-! ## Servers -/

namespace Server

variable {env : Environment} {files : Store String} {s : Server}

/-- The servers that lines lead to, one after the other, from the server that is started. -/
inductive Reached (env : Environment) (files : Store String) : Server → Prop where
  | start {s : Server} (started : Server.start env files = .ok s) : Reached env files s
  | answer {s : Server} (reached : Reached env files s) (line : String) :
      Reached env files (s.answerLine line).2

/-- A line leaves the configuration as it is. -/
theorem config_answerLine (s : Server) (line : String) :
    (s.answerLine line).2.config = s.config := by
  unfold answerLine
  split
  next r _ =>
    split
    next answered hanswered =>
      obtain ⟨⟨text, exports⟩, -, hserver⟩ := bind_eq_ok.mp hanswered
      cases hserver
      rfl
    next => rfl
  next => rfl

/-- The configuration of a server can be made from fields, whatever lines it has answered. -/
theorem Reached.exists_fields (h : Reached env files s) :
    ∃ fields, Config.ofFields fields = .ok s.config := by
  induction h with
  | start started =>
      obtain ⟨config, hconfig, hstarted⟩ := bind_eq_ok.mp started
      cases hstarted
      exact Config.exists_fields hconfig
  | @answer s reached line ih =>
      rw [config_answerLine]
      exact ih

end Server

end Consonance
