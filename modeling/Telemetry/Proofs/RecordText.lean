import Telemetry.Proofs.NumberText
import Telemetry.Proofs.Merge
import Telemetry.Proofs.Rows
import Telemetry.Metric.Record

/-! Records read back. The text of a record is an object whose members the scanner and the parser give
back one by one, so a record is the same after it was written and read, whatever characters its name
has, but for a value that is no finite number: that is written as null, which is no value. The record
of a metric gives the metric. -/

namespace Telemetry

namespace Json

/-- The token of a number that may be null, and the value that it is. -/
def numberToken : Option Number → Token
  | some n => .number n
  | none => .null

def ofNumber? : Option Number → Json
  | some n => .number n
  | none => .null

theorem reads_writeReal (x : Real64) {stop : UInt8} {t : Token} (hstop : Closes stop t) :
    ∃ n, optionalReal? (ofNumber? n) = some (if x.isFinite then some x else none) ∧
      Reads (writeReal x ++ [stop]) [numberToken n, t] := by
  cases hx : x.isFinite with
  | true =>
    obtain ⟨n, hn, htext, hreal⟩ := exists_numeral_real numberStyle hx
    refine ⟨some n.number, by simp [ofNumber?, optionalReal?, hreal], ?_⟩
    rw [writeReal, if_pos hx, ← htext]
    exact reads_numeral hn hstop
  | false =>
    have hnull : Reads (utf8 "null") [.null] := fun _ => rfl
    have hclose : Reads [stop] [t] := fun done => by simp [Scanner.step, Scanner.idle, hstop.begin]
    refine ⟨none, by simp [ofNumber?, optionalReal?], ?_⟩
    rw [writeReal, if_neg (by simp [hx])]
    exact hnull.append hclose

theorem reads_writeInt (i : Int64) {stop : UInt8} {t : Token} (hstop : Closes stop t) :
    ∃ n, optionalInt64? (ofNumber? n) = some (some i) ∧
      Reads (writeInt i.toInt ++ [stop]) [numberToken n, t] := by
  obtain ⟨n, hn, htext, hint⟩ := exists_numeral_int i.toInt
  have hself : Text.int64? i.toInt = some i := Text.int64?_eq_some_iff.2 rfl
  refine ⟨some n.number, by simp [ofNumber?, optionalInt64?, hint, hself], ?_⟩
  rw [← htext]
  exact reads_numeral hn hstop

end Json

namespace Record

open Json (Reads Number Token quoted numberToken ofNumber?)

/-- The tokens of a number behind other members. -/
def memberTokens (name : String) (n : Option Number) : List Token :=
  [.comma, .string (quoted name), .colon, numberToken n]

def tokens (id type : String) (value delta : Option (Option Number)) : List Token :=
  [Token.openBrace, .string (quoted "id"), .colon, .string (quoted id), .comma,
    .string (quoted "type"), .colon, .string (quoted type)] ++
  (value.elim [] (memberTokens "value") ++ (delta.elim [] (memberTokens "delta") ++ [.closeBrace]))

def json (id type : String) (value delta : Option (Option Number)) : Json :=
  .object ((quoted "id", .string (quoted id)) :: (quoted "type", .string (quoted type)) ::
    (value.elim [] (fun n => [(quoted "value", ofNumber? n)]) ++
      delta.elim [] (fun n => [(quoted "delta", ofNumber? n)])))

theorem foldlM_tokens (id type : String) (value delta : Option (Option Number))
    (stack : List Json.Frame) :
    (tokens id type value delta).foldlM Json.Parse.step (.value stack) =
      some (.after (json id type value delta) stack) := by
  rcases value with _ | _ | _ <;> rcases delta with _ | _ | _ <;> rfl

/-- What a record is once it was written and read: a value that is no finite number is none. -/
def legible (r : Record) : Record := { r with value := r.value.filter Real64.isFinite }

theorem legible_eq_self {r : Record} (hr : ∀ x ∈ r.value, x.isFinite) : r.legible = r := by
  obtain ⟨id, type, x, i⟩ := r
  cases x with
  | none => rfl
  | some x => simp [legible, hr x rfl]

/-- The members of a record read as its numbers. -/
structure Numbers (r : Record) (value delta : Option (Option Number)) : Prop where
  value : Json.fieldOr none Json.optionalReal? (value.map ofNumber?) = some r.legible.value
  delta : Json.fieldOr none Json.optionalInt64? (delta.map ofNumber?) = some r.delta

theorem fields_json (id type : String) (value delta : Option (Option Number)) :
    (json id type value delta).fields? fieldNames = some [some (.string (quoted id)),
      some (.string (quoted type)), value.map ofNumber?, delta.map ofNumber?] := by
  cases value <;> cases delta <;>
    simp [json, Json.fields?, Json.namedMembers?, Json.text_quoted, fieldNames, Json.member?]

theorem ofJson_json {r : Record} {value delta : Option (Option Number)}
    (h : r.Numbers value delta) : ofJson? (json r.id r.type value delta) = some r.legible := by
  have htext (s : String) : Json.fieldOr "" Json.text? (some (.string (quoted s))) = some s :=
    Json.text_quoted s
  simp only [ofJson?, fields_json, htext, h.value, h.delta]
  rfl

theorem reads_head (r : Record) :
    Reads (Json.utf8 "\x7b\"id\":" ++ Json.writeText r.id ++ Json.utf8 ",\"type\":" ++
      Json.writeText r.type) [.openBrace, .string (quoted "id"), .colon, .string (quoted r.id),
        .comma, .string (quoted "type"), .colon, .string (quoted r.type)] := by
  have hid : Reads (Json.utf8 "\x7b\"id\":") [.openBrace, .string (quoted "id"), .colon] :=
    fun _ => rfl
  have htype : Reads (Json.utf8 ",\"type\":") [.comma, .string (quoted "type"), .colon] :=
    fun _ => rfl
  exact ((hid.append (Json.reads_writeText r.id)).append htype).append (Json.reads_writeText r.type)

/-- Each number is read together with what closes it. -/
theorem reads_write (r : Record) :
    ∃ value delta, r.Numbers value delta ∧ Reads r.write (tokens r.id r.type value delta) := by
  have hvalue : Reads (Json.utf8 ",\"value\":") [.comma, .string (quoted "value"), .colon] :=
    fun _ => rfl
  have hdelta : Reads (Json.utf8 ",\"delta\":") [.comma, .string (quoted "delta"), .colon] :=
    fun _ => rfl
  have hdelta' : Reads (Json.utf8 "\"delta\":") [.string (quoted "delta"), .colon] :=
    fun _ => rfl
  have hbrace : Reads ['\x7d'.toUInt8] [.closeBrace] := fun _ => rfl
  have hend : Json.utf8 "\x7d" = ['\x7d'.toUInt8] := rfl
  have hfilter (x : Real64) : (some x).filter Real64.isFinite = if x.isFinite then some x else none :=
    Option.filter_some ..
  have hhead := r.reads_head
  obtain ⟨id, type, x, i⟩ := r
  cases x with
  | none =>
    cases i with
    | none =>
      refine ⟨none, none, ⟨rfl, rfl⟩, ?_⟩
      simpa [write, tokens, memberTokens, hend] using hhead.append hbrace
    | some i =>
      obtain ⟨n, hn, hreads⟩ := Json.reads_writeInt i Json.closes_brace
      refine ⟨none, some n, ⟨rfl, hn⟩, ?_⟩
      simpa [write, tokens, memberTokens, hend] using (hhead.append hdelta).append hreads
  | some x =>
    cases i with
    | none =>
      obtain ⟨n, hn, hreads⟩ := Json.reads_writeReal x Json.closes_brace
      refine ⟨some n, none, ⟨hn.trans (congrArg some (hfilter x).symm), rfl⟩, ?_⟩
      simpa [write, tokens, memberTokens, hend] using (hhead.append hvalue).append hreads
    | some i =>
      obtain ⟨n, hn, hreads⟩ := Json.reads_writeReal x Json.closes_comma
      obtain ⟨k, hk, hreads'⟩ := Json.reads_writeInt i Json.closes_brace
      refine ⟨some n, some k, ⟨hn.trans (congrArg some (hfilter x).symm), hk⟩, ?_⟩
      have hcomma : Json.utf8 ",\"delta\":" = ','.toUInt8 :: Json.utf8 "\"delta\":" := rfl
      have hall := (((hhead.append hvalue).append hreads).append hdelta').append hreads'
      simpa [write, tokens, memberTokens, hend, hcomma] using hall

theorem parse_write_legible (r : Record) : parse? r.write = some r.legible := by
  obtain ⟨value, delta, hnumbers, hreads⟩ := r.reads_write
  simp [parse?, Json.parse?, hreads.scan_eq, Json.ofTokens?, foldlM_tokens, Json.Parse.finish?,
    ofJson_json hnumbers]

theorem parse_write {r : Record} (hr : ∀ x ∈ r.value, x.isFinite) : parse? r.write = some r := by
  rw [parse_write_legible, legible_eq_self hr]

theorem isFinite_ofMetric {m : Metric} (hm : m.validate = .ok ()) :
    ∀ x ∈ (ofMetric m).value, x.isFinite := by
  obtain ⟨-, hgauge⟩ := Metric.validate_eq_ok_iff.1 hm
  obtain ⟨name, value⟩ := m
  cases value with
  | gauge x =>
    intro y hy
    obtain rfl := Option.some.inj hy
    exact (hgauge x rfl).2
  | counter n => simp [ofMetric]

theorem toMetric_ofMetric {m : Metric} (hm : m.name ≠ "") : (ofMetric m).toMetric = .ok m := by
  obtain ⟨name, value⟩ := m
  have hname : name.isEmpty = false := by simpa using hm
  cases value <;> simp [ofMetric, toMetric, key, Kind.parse_name, hname, bind, Except.bind]

end Record
end Telemetry
