import Telemetry.Proofs.RecordText
import Telemetry.Proofs.Grammar
import Telemetry.Metric.Batch

/-! Batches read back. The text of a batch has the tokens of its records with commas between them, which
are those of the list of them, and the records give the metrics as far as they can be read. A metric
cannot be read if it has no name or if it is a gauge without a finite value, and no text of a batch
gives such a metric. -/

namespace Telemetry

open Json (Reads Token)

theorem Json.Reads.intercalate {xss : List (List UInt8)} {tss : List (List Token)}
    (h : List.Forall₂ Reads xss tss) :
    Reads ([','.toUInt8].intercalate xss) ([.comma].intercalate tss) := by
  have hcomma : Reads [','.toUInt8] [.comma] := fun _ => rfl
  cases h with
  | nil => exact .nil
  | cons hfirst hrest =>
    rw [Text.intercalate_cons, Text.intercalate_cons]
    refine hfirst.append ?_
    induction hrest with
    | nil => exact .nil
    | cons hx _ ih =>
      rw [List.flatMap_cons, List.flatMap_cons]
      exact (hcomma.append hx).append ih

theorem Record.tokens_json (id type : String) (value delta : Option (Option Json.Number)) :
    (json id type value delta).tokens = tokens id type value delta := by
  rcases value with _ | _ | _ <;> rcases delta with _ | _ | _ <;>
    simp [json, tokens, memberTokens, Json.ofNumber?, Json.numberToken, Json.tokens_object,
      Json.memberTokens, Json.tokens, Text.intercalate_cons]

namespace Batch

theorem parse?_write (records : List Record) :
    ∃ values, Json.parse? (write records) = some (.array values) ∧
      values.mapM Record.ofJson? = some (records.map Record.legible) := by
  have hrecords : ∃ values : List Json,
      values.mapM Record.ofJson? = some (records.map Record.legible) ∧
        List.Forall₂ Reads (records.map Record.write) (values.map Json.tokens) := by
    induction records with
    | nil => exact ⟨[], rfl, .nil⟩
    | cons r records ih =>
      obtain ⟨values, hvalues, hreads⟩ := ih
      obtain ⟨value, delta, hnumbers, hrecord⟩ := r.reads_write
      rw [← Record.tokens_json] at hrecord
      refine ⟨Record.json r.id r.type value delta :: values, ?_, .cons hrecord hreads⟩
      rw [List.mapM_cons, Record.ofJson_json hnumbers, hvalues]
      rfl
  obtain ⟨values, hvalues, hreads⟩ := hrecords
  have hopen : Reads ['['.toUInt8] [.openBracket] := fun _ => rfl
  have hclose : Reads [']'.toUInt8] [.closeBracket] := fun _ => rfl
  have htext : Reads (write records) (Json.array values).tokens := by
    rw [Json.tokens_array]
    exact (hopen.append (.intercalate hreads)).append hclose
  exact ⟨values, htext.parse?_eq, hvalues⟩

theorem records?_write (records : List Record) :
    records? (write records) = some (records.map Record.legible) := by
  obtain ⟨values, hparse, hvalues⟩ := parse?_write records
  rw [records?, hparse]
  exact hvalues

end Batch

/-- A metric that can be read from its record: one with a name and, if it is a gauge, a finite value. -/
def Metric.Legible (m : Metric) : Prop := m.name ≠ "" ∧ ∀ x, m.value = .gauge x → x.isFinite

theorem Metric.legible_of_validate {m : Metric} (h : m.validate = .ok ()) : m.Legible := by
  obtain ⟨hname, hgauge⟩ := Metric.validate_eq_ok_iff.1 h
  exact ⟨hname, fun x hx => (hgauge x hx).2⟩

namespace Record

/-- A metric is read from what its record has become, or the name is missing, or else the value. -/
theorem toMetric_legible (m : Metric) :
    (m.Legible ∧ (ofMetric m).legible.toMetric = .ok m) ∨
      (¬m.Legible ∧ (ofMetric m).legible.toMetric =
        .error (if m.name = "" then .emptyName else .missingValue m.name .gauge)) := by
  obtain ⟨name, value⟩ := m
  by_cases hname : name = ""
  · refine Or.inr ⟨fun h => h.1 hname, ?_⟩
    cases value <;> simp [legible, ofMetric, toMetric, key, Kind.parse_name, hname, bind, Except.bind]
  · have hempty : name.isEmpty = false := by simpa using hname
    cases value with
    | gauge x =>
      cases hx : x.isFinite with
      | true =>
        refine Or.inl ⟨⟨hname, fun y hy => Value.gauge.inj hy ▸ hx⟩, ?_⟩
        rw [legible_eq_self (by simp [ofMetric, hx])]
        exact toMetric_ofMetric hname
      | false =>
        refine Or.inr ⟨fun h => by simp [h.2 x rfl] at hx, ?_⟩
        simp [legible, ofMetric, toMetric, key, Kind.parse_name, hempty, hname, Option.filter_some, hx,
          bind, Except.bind]
    | counter n =>
      refine Or.inl ⟨⟨hname, by simp⟩, ?_⟩
      exact toMetric_ofMetric hname

theorem isFinite_of_ofJson? {v : Json} {r : Record} (h : ofJson? v = some r) :
    ∀ x ∈ r.value, x.isFinite := by
  have hnumber {n : Json.Number} {x : Real64} (hn : n.real? = some x) : x.isFinite := by
    simp only [Json.Number.real?, Option.ite_none_right_eq_some, Option.some.injEq] at hn
    exact hn.2 ▸ hn.1
  unfold ofJson? at h
  split at h
  · next value _ _ =>
    simp only [Option.bind_eq_bind, Option.bind_eq_some_iff, Option.some.injEq] at h
    obtain ⟨_, -, _, -, x, hx, _, -, rfl⟩ := h
    rintro y rfl
    cases value with
    | none => simp [Json.fieldOr] at hx
    | some w =>
      cases w with
      | number n =>
        simp only [Json.fieldOr, Json.optionalReal?, Option.map_eq_some_iff] at hx
        obtain ⟨z, hz, hzy⟩ := hx
        exact Option.some.inj hzy ▸ hnumber hz
      | _ => simp [Json.fieldOr, Json.optionalReal?] at hx
  · simp at h

theorem legible_of_toMetric {r : Record} (hr : ∀ x ∈ r.value, x.isFinite) {m : Metric}
    (h : r.toMetric = .ok m) : m.Legible := by
  unfold toMetric at h
  obtain ⟨⟨kind, name⟩, hkey, h⟩ := bind_eq_ok_iff.1 h
  have hname : name ≠ "" := by
    unfold key at hkey
    obtain ⟨_, -, hkey⟩ := bind_eq_ok_iff.1 hkey
    split_ifs at hkey with hempty
    obtain ⟨-, rfl⟩ := Prod.mk.inj (Except.ok.inj hkey)
    simpa using hempty
  cases kind with
  | gauge =>
    cases hvalue : r.value with
    | none => simp [hvalue] at h
    | some x =>
      simp only [hvalue, Option.map_some, Except.ok.injEq] at h
      subst h
      exact ⟨hname, fun y hy => Value.gauge.inj hy ▸ hr x hvalue⟩
  | counter =>
    cases hdelta : r.delta with
    | none => simp [hdelta] at h
    | some n =>
      simp only [hdelta, Option.map_some, Except.ok.injEq] at h
      subst h
      exact ⟨hname, by simp⟩

end Record

namespace Batch

theorem mapM_legible {metrics : List Metric} (h : ∀ m ∈ metrics, m.Legible) :
    ((metrics.map Record.ofMetric).map Record.legible).mapM Record.toMetric = .ok metrics := by
  induction metrics with
  | nil => rfl
  | cons m ms ih =>
    obtain ⟨-, hm⟩ := (Record.toMetric_legible m).resolve_right fun hm => hm.1 (h m (by simp))
    rw [List.map_cons, List.map_cons, List.mapM_cons, hm, ih fun m hm => h m (by simp [hm])]
    rfl

theorem decode_encode_of_legible {metrics : List Metric} (h : ∀ m ∈ metrics, m.Legible) :
    decode (encode metrics) = .ok metrics := by
  rw [decode, encode, records?_write]
  simp only [mapM_legible h]

theorem decode_encode {metrics : List Metric} (h : ∀ m ∈ metrics, m.validate = .ok ()) :
    decode (encode metrics) = .ok metrics :=
  decode_encode_of_legible fun m hm => Metric.legible_of_validate (h m hm)

/-- The first metric that cannot be read is the one that the batch is refused for. -/
theorem decode_encode_of_illegible {before after : List Metric} {m : Metric}
    (hbefore : ∀ b ∈ before, b.Legible) (hm : ¬m.Legible) :
    decode (encode (before ++ m :: after)) =
      .error (.invalid (if m.name = "" then .emptyName else .missingValue m.name .gauge)) := by
  obtain ⟨-, hfault⟩ := (Record.toMetric_legible m).resolve_left fun h => hm h.1
  have hmapM : (((before ++ m :: after).map Record.ofMetric).map Record.legible).mapM
      Record.toMetric = .error (if m.name = "" then .emptyName else .missingValue m.name .gauge) := by
    rw [List.map_append, List.map_append, List.mapM_append, mapM_legible hbefore, List.map_cons,
      List.map_cons, List.mapM_cons, hfault]
    rfl
  rw [decode, encode, records?_write]
  simp only [hmapM]

/-- Whatever text a batch is read from, its metrics can be read again. -/
theorem legible_of_decode {bytes : List UInt8} {metrics : List Metric}
    (h : decode bytes = .ok metrics) : ∀ m ∈ metrics, m.Legible := by
  unfold decode at h
  split at h
  · cases h
  · next records hrecords =>
    split at h
    · next read hread =>
      obtain rfl := Except.ok.inj h
      unfold records? at hrecords
      obtain ⟨v, -, hv⟩ := Option.bind_eq_some_iff.1 hrecords
      split at hv
      · intro m hm
        obtain ⟨r, hr, hmetric⟩ := exists_of_mem_mapM_ok hread hm
        obtain ⟨item, -, hitem⟩ := exists_of_mem_mapM_some hv hr
        exact Record.legible_of_toMetric (Record.isFinite_of_ofJson? hitem) hmetric
      · cases hv
    · cases h

/-- The round trip of a batch. It ends where it began just if every metric of the batch can be read;
else the first that cannot is told, for its name or else for the value that a gauge is without. What
is read from any text at all makes the round trip. -/
theorem batches_round_trip :
    (∀ metrics, decode (encode metrics) = .ok metrics ↔ ∀ m ∈ metrics, m.Legible) ∧
    (∀ before m after, (∀ b ∈ before, b.Legible) → ¬m.Legible →
      decode (encode (before ++ m :: after)) =
        .error (.invalid (if m.name = "" then .emptyName else .missingValue m.name .gauge))) ∧
    Kind.gauge.field = "value" ∧
    ∀ bytes metrics, decode bytes = .ok metrics →
      (∀ m ∈ metrics, m.Legible) ∧ decode (encode metrics) = .ok metrics := by
  refine ⟨fun metrics => ⟨legible_of_decode, decode_encode_of_legible⟩, ?_, rfl, ?_⟩
  · intro before m after hbefore hm
    exact decode_encode_of_illegible hbefore hm
  · intro bytes metrics h
    have hlegible := legible_of_decode h
    exact ⟨hlegible, decode_encode_of_legible hlegible⟩

/-- A batch that is spelt in another way, and the same with a gauge that is no number and a counter
without a name behind it. -/
theorem foreign_spelling_round_trips :
    let text := Json.utf8
      "[ \x7b\"value\": -0.0, \"type\": \" GAUGE\", \"id\": \"a\"\x7d, [\"b\", \"counter\", null, 7] ]"
    let metrics : List Metric := [⟨"a", .gauge (.ofMagnitude true 0)⟩, ⟨"b", .counter 7⟩]
    decode text = .ok metrics ∧ decode (encode metrics) = .ok metrics ∧
      decode (encode (metrics ++ [⟨"c", .gauge .nan⟩, ⟨"", .counter 1⟩])) =
        .error (.invalid (.missingValue "c" .gauge)) := by
  intro text metrics
  obtain ⟨-, refused, -, again⟩ := batches_round_trip
  have hread : decode text = .ok metrics := by decide +kernel
  obtain ⟨hlegible, hagain⟩ := again _ _ hread
  have hnan : ¬(⟨"c", .gauge .nan⟩ : Metric).Legible := fun h => absurd (h.2 .nan rfl) (by decide)
  exact ⟨hread, hagain, refused _ _ _ hlegible hnan⟩

end Batch
end Telemetry
