import Telemetry.Proofs.Grammar
import Telemetry.Proofs.Outcome
import Telemetry.Metric.Batch

/-! Records read from any layout. What a record is read as does not depend on the white space in its
text, on the order of its members and on members with other names, nor on whether it is an object or
a list of its values; and it is not read at all if it has a member twice. -/

namespace Telemetry

namespace Json

variable {members members' : List (Quoted × Json)} {named named' : List (String × Json)}

theorem member?_perm (name : String) (h : named.Perm named') :
    member? name named = member? name named' := by
  have hfilter := h.filter (·.1 == name)
  unfold member?
  generalize named.filter (·.1 == name) = xs at hfilter ⊢
  generalize named'.filter (·.1 == name) = ys at hfilter ⊢
  rcases xs with _ | ⟨x, _ | ⟨x', xs⟩⟩
  · rw [hfilter.nil_eq]
  · rw [List.singleton_perm.1 hfilter]
  · rcases ys with _ | ⟨y, _ | ⟨y', ys⟩⟩
    · exact absurd hfilter.length_eq (by simp)
    · exact absurd hfilter.length_eq (by simp)
    · rfl

theorem member?_insert {name s : String} (hs : s ≠ name) (v : Json)
    (before after : List (String × Json)) :
    member? name (before ++ (s, v) :: after) = member? name (before ++ after) := by
  simp [member?, List.filter_append, hs]

theorem member?_eq_none {name : String} (h : 1 < named.countP (·.1 == name)) :
    member? name named = none := by
  rw [List.countP_eq_length_filter] at h
  unfold member?
  split
  · next hnil => simp [hnil] at h
  · next hone => simp [hone] at h
  · rfl

theorem namedMembers?_append (members members' : List (Quoted × Json)) :
    namedMembers? (members ++ members') = (namedMembers? members).bind fun named =>
      (namedMembers? members').map (named ++ ·) := by
  simp only [namedMembers?, List.mapM_append, Option.map_eq_bind]
  rfl

theorem namedMembers?_cons {name : Quoted} {s : String} (hname : name.text? = some s) (v : Json)
    (members : List (Quoted × Json)) :
    namedMembers? ((name, v) :: members) = (namedMembers? members).map ((s, v) :: ·) := by
  simp only [namedMembers?, List.mapM_cons, hname, Option.map_eq_bind]
  rfl

theorem countP_namedMembers? (h : namedMembers? members = some named) (s : String) :
    named.countP (·.1 == s) = members.countP (·.1.text? == some s) := by
  induction members generalizing named with
  | nil =>
    obtain rfl := Option.some.inj h
    rfl
  | cons m members ih =>
    obtain ⟨name, v⟩ := m
    cases hname : name.text? with
    | none => simp [namedMembers?, hname] at h
    | some s' =>
      rw [namedMembers?_cons hname] at h
      obtain ⟨named', hnamed', rfl⟩ := Option.map_eq_some_iff.1 h
      rw [List.countP_cons, List.countP_cons, ih hnamed', hname]
      simp

variable (names : List String)

theorem fields?_object (members : List (Quoted × Json)) : (object members).fields? names =
    (namedMembers? members).bind fun named => names.mapM (member? · named) := rfl

theorem fields?_perm (h : members.Perm members') :
    (object members).fields? names = (object members').fields? names := by
  rw [fields?_object, fields?_object]
  obtain ⟨hnone, hnone'⟩ | ⟨named, named', hnamed, hnamed', hperm⟩ :
      (namedMembers? members = none ∧ namedMembers? members' = none) ∨ ∃ named named',
        namedMembers? members = some named ∧ namedMembers? members' = some named' ∧
          named.Perm named' := mapM_perm h
  · rw [hnone, hnone']
  · simp only [hnamed, hnamed', Option.bind_some, member?_perm _ hperm]

theorem fields?_insert {name : Quoted} {s : String} (hname : name.text? = some s) (hs : s ∉ names)
    (v : Json) (before after : List (Quoted × Json)) :
    (object (before ++ (name, v) :: after)).fields? names = (object (before ++ after)).fields? names := by
  rw [fields?_object, fields?_object, namedMembers?_append, namedMembers?_append,
    namedMembers?_cons hname]
  cases namedMembers? before with
  | none => rfl
  | some named =>
    cases namedMembers? after with
    | none => rfl
    | some named' =>
      simp only [Option.bind_some, Option.map_some]
      refine mapM_congr (List.forall₂_same.2 fun field hfield => ?_)
      have hne : s ≠ field := fun h => hs (h ▸ hfield)
      exact member?_insert hne v named named'

/-- No field may be there twice. -/
theorem fields?_eq_none {s : String} (hs : s ∈ names)
    (h : 1 < members.countP (·.1.text? == some s)) : (object members).fields? names = none := by
  rw [fields?_object]
  cases hnamed : namedMembers? members with
  | none => rfl
  | some named =>
    rw [← countP_namedMembers? hnamed] at h
    exact mapM_eq_none_iff.2 ⟨s, hs, member?_eq_none h⟩

theorem namedMembers?_of_map {fields : List String}
    (h : members.map (·.1.text?) = fields.map some) :
    namedMembers? members = some (fields.zip (members.map (·.2))) := by
  induction members generalizing fields with
  | nil =>
    obtain rfl := List.map_eq_nil_iff.1 h.symm
    rfl
  | cons m members ih =>
    obtain ⟨s, fields, rfl⟩ := List.exists_cons_of_ne_nil fun hnil : fields = [] => by simp [hnil] at h
    obtain ⟨hname, hrest⟩ := List.cons.inj h
    obtain ⟨name, v⟩ := m
    rw [namedMembers?_cons hname, ih hrest]
    rfl

/-- The first of the names have the values, and the others have none. -/
theorem mapM_member?_zip {names : List String} (hnames : names.Nodup) {vs : List Json}
    (hvs : vs.length ≤ names.length) : names.mapM (member? · (names.zip vs)) =
      some (vs.map some ++ List.replicate (names.length - vs.length) none) := by
  induction names generalizing vs with
  | nil =>
    obtain rfl := List.length_eq_zero_iff.1 (Nat.le_zero.1 hvs)
    rfl
  | cons s names ih =>
    obtain ⟨hs, hnames⟩ := List.nodup_cons.1 hnames
    rcases vs with _ | ⟨v, vs⟩
    · have hnil : ([] : List Json).length ≤ names.length := Nat.zero_le _
      have hrest := ih hnames hnil
      simp only [List.zip_nil_right] at hrest ⊢
      rw [List.mapM_cons, hrest]
      rfl
    · have hfirst : member? s ((s, v) :: names.zip vs) = some (some v) := by
        have hfilter : (names.zip vs).filter (·.1 == s) = [] := by
          refine List.filter_eq_nil_iff.2 fun m hm hsame => hs ?_
          exact beq_iff_eq.1 hsame ▸ (List.of_mem_zip hm).1
        simp [member?, hfilter]
      have hothers : names.mapM (member? · ((s, v) :: names.zip vs)) =
          names.mapM (member? · (names.zip vs)) := by
        refine mapM_congr (List.forall₂_same.2 fun name hname => ?_)
        have hne : s ≠ name := fun h => hs (h ▸ hname)
        exact member?_insert hne v [] (names.zip vs)
      rw [List.zip_cons_cons, List.mapM_cons, hfirst, hothers,
        ih hnames (Nat.le_of_succ_le_succ hvs)]
      simp

theorem fields?_listed (hnames : names.Nodup)
    (h : members.map (·.1.text?) = (names.take members.length).map some) :
    (array (members.map (·.2))).fields? names = (object members).fields? names := by
  have hlength : members.length ≤ names.length := by simpa using congrArg List.length h
  have hvs : (members.map (·.2)).length ≤ names.length := by rwa [List.length_map]
  have hzip : names.zip (members.map (·.2)) =
      (names.take members.length).zip (members.map (·.2)) := by
    rw [List.zip_eq_zip_take_min, Nat.min_eq_right hvs, List.take_length, List.length_map]
  rw [fields?_object, namedMembers?_of_map h, ← hzip, Option.bind_some, mapM_member?_zip hnames hvs]
  exact if_pos hvs

end Json

namespace Record

open Json (Quoted)

/-- Ways to lay out the same record. -/
inductive Relaid : Json → Json → Prop
  | refl (e : Json) : Relaid e e
  | symm {e e' : Json} (h : Relaid e e') : Relaid e' e
  | trans {e e' e'' : Json} (h : Relaid e e') (h' : Relaid e' e'') : Relaid e e''
  | permuted {members members' : List (Quoted × Json)} (h : members.Perm members') :
    Relaid (.object members) (.object members')
  | inserted {name : Quoted} {s : String} (hname : name.text? = some s) (hs : s ∉ fieldNames)
    (v : Json) (before after : List (Quoted × Json)) :
    Relaid (.object (before ++ after)) (.object (before ++ (name, v) :: after))
  | listed {members : List (Quoted × Json)}
    (h : members.map (·.1.text?) = (fieldNames.take members.length).map some) :
    Relaid (.array (members.map (·.2))) (.object members)

theorem Relaid.fields?_eq {e e' : Json} (h : Relaid e e') :
    e.fields? fieldNames = e'.fields? fieldNames := by
  induction h with
  | refl e => rfl
  | symm _ ih => exact ih.symm
  | trans _ _ ih ih' => exact ih.trans ih'
  | permuted h => exact Json.fields?_perm fieldNames h
  | inserted hname hs v before after => exact (Json.fields?_insert fieldNames hname hs v before after).symm
  | listed h => exact Json.fields?_listed fieldNames (by decide) h

theorem Relaid.ofJson?_eq {e e' : Json} (h : Relaid e e') : ofJson? e = ofJson? e' := by
  rw [ofJson?, ofJson?, h.fields?_eq]

/-- A field is there more than once. -/
def Repeats (members : List (Quoted × Json)) : Prop :=
  ∃ s ∈ fieldNames, 1 < members.countP (·.1.text? == some s)

theorem Repeats.ofJson?_eq {members : List (Quoted × Json)} (h : Repeats members) :
    ofJson? (.object members) = none := by
  obtain ⟨s, hs, hcount⟩ := h
  rw [ofJson?, Json.fields?_eq_none fieldNames hs hcount]

theorem parse?_of_written {e : Json} {text : List UInt8} (h : e.Written text) :
    parse? text = ofJson? e := by
  rw [parse?, Json.parse?_eq_some_iff.2 h]
  rfl

end Record

namespace Batch

theorem records?_of_written {es : List Json} {text : List UInt8} (h : (Json.array es).Written text) :
    records? text = es.mapM Record.ofJson? := by
  rw [records?, Json.parse?_eq_some_iff.2 h]
  rfl

end Batch

namespace Record

open Json (Quoted quoted utf8)

/-- A record is read alike from whatever text of whatever layout, and not at all with a field that is
there twice; and so is each record of a batch. -/
theorem reading_ignores_layout :
    (∀ (e e' : Json) (text text' : List UInt8), Relaid e e' → e.Written text → e'.Written text' →
      parse? text = parse? text') ∧
    (∀ (members : List (Quoted × Json)) (text : List UInt8), Repeats members →
      (Json.object members).Written text → parse? text = none) ∧
    (∀ (es es' : List Json) (text text' : List UInt8), List.Forall₂ Relaid es es' →
      (Json.array es).Written text → (Json.array es').Written text' →
        Batch.records? text = Batch.records? text' ∧ Batch.decode text = Batch.decode text') ∧
    ∀ (es : List Json) (members : List (Quoted × Json)) (text : List UInt8),
      Json.object members ∈ es → Repeats members → (Json.array es).Written text →
        Batch.decode text = .error .malformed := by
  refine ⟨fun e e' text text' h htext htext' => ?_, fun members text h htext => ?_,
    fun es es' text text' h htext htext' => ?_, fun es members text hmem h htext => ?_⟩
  · rw [parse?_of_written htext, parse?_of_written htext', h.ofJson?_eq]
  · rw [parse?_of_written htext, h.ofJson?_eq]
  · have hrecords : Batch.records? text = Batch.records? text' := by
      rw [Batch.records?_of_written htext, Batch.records?_of_written htext']
      exact mapM_congr (h.imp fun _ _ he => he.ofJson?_eq)
    exact ⟨hrecords, by rw [Batch.decode, Batch.decode, hrecords]⟩
  · have hrecords : Batch.records? text = none := by
      rw [Batch.records?_of_written htext]
      exact mapM_eq_none_iff.2 ⟨_, hmem, h.ofJson?_eq⟩
    rw [Batch.decode, hrecords]

/-- A gauge in three layouts, the second of them with a member that is not a field and holds what
looks like one, and a record that has its name twice; then two of these in batches. -/
theorem gauge_is_read_from_any_layout :
    let plain := utf8 "\x7b\"id\":\"a\",\"type\":\"gauge\",\"value\":2.5\x7d"
    let moved := utf8 "\t\x7b \"value\": 2.5, \"note\": [\x7b\"id\": []\x7d, \"\\\"\x7d\"],
      \"type\": \"gauge\", \"id\": \"a\"\x7d "
    let list := utf8 "[\"a\", \"gauge\", 2.5]"
    let twice := utf8 "\x7b\"id\":\"a\",\"\\u0069d\":\"b\"\x7d"
    let reading : Real64 := .ofDecimal ⟨false, 25, -1⟩
    let gauge : Record := ⟨"a", "gauge", some reading, none⟩
    parse? plain = some gauge ∧ parse? moved = some gauge ∧ parse? list = some gauge ∧
      parse? twice = none ∧
      Batch.decode ('['.toUInt8 :: list ++ [']'.toUInt8]) = .ok [⟨"a", .gauge reading⟩] ∧
      Batch.decode ('['.toUInt8 :: twice ++ [']'.toUInt8]) = .error .malformed := by
  intro plain moved list twice reading gauge
  obtain ⟨alike, refused, batchesAlike, batchRefused⟩ := reading_ignores_layout
  let name : Quoted × Json := (quoted "id", .string (quoted "a"))
  let again : Quoted × Json := ([.unit 0x69, .byte 0x64], .string (quoted "b"))
  let kind : Quoted × Json := (quoted "type", .string (quoted "gauge"))
  let value : Quoted × Json := (quoted "value", .number ⟨⟨false, 25, -1⟩, false⟩)
  let note : Json := .array [.object [(quoted "id", .array [])], .string (.byte 34 :: quoted "\x7d")]
  have hplain : (Json.object [name, kind, value]).Written plain := Json.parse?_eq_some_iff.1 rfl
  have hmoved : (Json.object [value, (quoted "note", note), kind, name]).Written moved :=
    Json.parse?_eq_some_iff.1 rfl
  have hlist : (Json.array ([name, kind, value].map (·.2))).Written list := Json.parse?_eq_some_iff.1 rfl
  have htwice : (Json.object [name, again]).Written twice := Json.parse?_eq_some_iff.1 rfl
  have hmove : Relaid (.object [name, kind, value])
      (.object [value, (quoted "note", note), kind, name]) :=
    .trans (.permuted (List.reverse_perm _).symm)
      (.inserted (Json.text_quoted "note") (by decide) note [value] [kind, name])
  have hlisted : Relaid (.array ([name, kind, value].map (·.2))) (.object [name, kind, value]) :=
    .listed rfl
  have hrepeats : Repeats [name, again] := ⟨"id", by decide, by decide⟩
  have hread : parse? plain = some gauge := by decide +kernel
  have hbatch : Batch.decode ('['.toUInt8 :: plain ++ [']'.toUInt8]) =
      .ok [⟨"a", .gauge reading⟩] := by decide +kernel
  refine ⟨hread, ?_, ?_, ?_, ?_, ?_⟩
  · exact (alike _ _ _ _ hmove hplain hmoved).symm.trans hread
  · exact (alike _ _ _ _ hlisted hlist hplain).trans hread
  · exact refused _ _ hrepeats htwice
  · have hsame := batchesAlike _ _ _ _ (.cons hlisted .nil) hlist.bracketed hplain.bracketed
    exact hsame.2.trans hbatch
  · exact batchRefused _ _ _ List.mem_cons_self hrepeats htwice.bracketed

end Record
end Telemetry
