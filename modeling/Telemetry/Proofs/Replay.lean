import Telemetry.Proofs.Cuts
import Telemetry.Proofs.Gains
import Telemetry.Proofs.Lines

/-! A backup replayed line by line. Its lines are blank, hold a metric or are at fault, and the replay
goes as far as the first of the last kind: the store is what the metrics before it lead to, one by
one, and the error is the fault with the number of its line. -/

namespace Telemetry

namespace Text

/-- The lines of a text. Each ends with a line feed, which a carriage return may precede, but the last
one may end with the text. -/
inductive HasLines : List UInt8 → List (List UInt8) → Prop
  | nil : HasLines [] []
  | last {line : List UInt8} (ne : line ≠ []) (h : 10 ∉ line) : HasLines line [line]
  | feed {line rest : List UInt8} {lines : List (List UInt8)} (h : 10 ∉ line)
    (hreturn : line.getLast? ≠ some 13) (more : HasLines rest lines) :
    HasLines (line ++ 10 :: rest) (line :: lines)
  | returnFeed {line rest : List UInt8} {lines : List (List UInt8)} (h : 10 ∉ line)
    (more : HasLines rest lines) : HasLines (line ++ 13 :: 10 :: rest) (line :: lines)

theorem splitFrom_ne_nil (part bytes : List UInt8) : splitFrom 10 part bytes ≠ [] := by
  induction bytes generalizing part with
  | nil => simp [splitFrom]
  | cons b bytes ih =>
    rw [splitFrom]
    split_ifs
    · simp
    · exact ih _

theorem lineBytes_feed {line : List UInt8} (h : 10 ∉ line) (rest : List UInt8) :
    lineBytes (line ++ 10 :: rest) = chomp 13 line :: lineBytes rest := by
  have hsplit : splitOn 10 (line ++ 10 :: rest) = line :: splitOn 10 rest := splitFrom_line h [] rest
  obtain ⟨part, parts, hparts⟩ := List.exists_cons_of_ne_nil (splitFrom_ne_nil [] rest)
  simp only [lineBytes, linesWith, hsplit]
  rw [show splitOn 10 rest = part :: parts from hparts, List.dropLast_cons_of_ne_nil (by simp),
    List.getLast?_cons_cons, List.map_cons]
  split <;> rfl

theorem chomp_append_return (line : List UInt8) : chomp 13 (line ++ [13]) = line := by
  simp [chomp]

theorem lineBytes_last {line : List UInt8} (ne : line ≠ []) (h : 10 ∉ line) :
    lineBytes line = [line] := by
  have hsplit : splitOn 10 line = [line] := by
    have hone : ([10].intercalate [line]).splitOn 10 = [line] :=
      List.splitOn_intercalate 10 (by simpa using h) (by simp)
    rwa [List.intercalate_singleton, ← splitOn_eq] at hone
  obtain ⟨b, line, rfl⟩ := List.exists_cons_of_ne_nil ne
  simp [lineBytes, linesWith, hsplit]

theorem HasLines.eq_lineBytes {bytes : List UInt8} {lines : List (List UInt8)}
    (h : HasLines bytes lines) : lineBytes bytes = lines := by
  induction h with
  | nil => rfl
  | last ne h => exact lineBytes_last ne h
  | feed h hreturn more ih => rw [lineBytes_feed h, chomp_eq_self hreturn, ih]
  | @returnFeed line rest lines h more ih =>
    have hfeed : 10 ∉ line ++ [13] := by simpa using h
    have := lineBytes_feed hfeed rest
    rwa [List.append_assoc, List.singleton_append, chomp_append_return, ih] at this

theorem exists_hasLines (bytes : List UInt8) : ∃ lines, HasLines bytes lines := by
  induction hn : bytes.length using Nat.strong_induction_on generalizing bytes with
  | _ n ih =>
    subst hn
    by_cases hfeed : 10 ∈ bytes
    · obtain ⟨line, rest, rfl, hline⟩ := List.eq_append_cons_of_mem hfeed
      obtain ⟨lines, hlines⟩ := ih rest.length (by simp; omega) rest rfl
      by_cases hreturn : line.getLast? = some 13
      · obtain ⟨line, rfl⟩ := List.getLast?_eq_some_iff.1 hreturn
        refine ⟨line :: lines, ?_⟩
        rw [List.append_assoc, List.singleton_append]
        exact .returnFeed (fun h => hline (by simp [h])) hlines
      · exact ⟨_, .feed hline hreturn hlines⟩
    · by_cases hnil : bytes = []
      · exact ⟨[], hnil ▸ .nil⟩
      · exact ⟨_, .last hnil hfeed⟩

/-- Every text has its lines, and one list of them. -/
theorem hasLines_iff {bytes : List UInt8} {lines : List (List UInt8)} :
    HasLines bytes lines ↔ lineBytes bytes = lines := by
  refine ⟨HasLines.eq_lineBytes, ?_⟩
  rintro rfl
  obtain ⟨lines, h⟩ := exists_hasLines bytes
  rwa [h.eq_lineBytes]

end Text

theorem Json.fromUTF8?_eq_some_iff {bytes : List UInt8} {text : String} :
    String.fromUTF8? (Bytes.ofList bytes) = some text ↔ bytes = utf8 text := by
  constructor
  · intro h
    unfold String.fromUTF8? at h
    split at h
    · next hvalid =>
      obtain rfl := Option.some.inj h
      exact (Bytes.toList_ofList bytes).symm
    · cases h
  · rintro rfl
    exact fromUTF8_utf8 text

namespace Backup

/-- A line that is a text of nothing but white space. -/
def IsBlank (bytes : List UInt8) : Prop :=
  ∃ text, bytes = Json.utf8 text ∧ ∀ c ∈ text.toList, Text.isBlank c

/-- A line that is a text with more than white space in it. -/
def IsText (bytes : List UInt8) : Prop := (∃ text, bytes = Json.utf8 text) ∧ ¬IsBlank bytes

/-- The metric that a line holds. -/
def Holds (bytes : List UInt8) (m : Metric) : Prop :=
  IsText bytes ∧ ∃ record, Record.parse? bytes = some record ∧ record.toMetric = .ok m

/-- What is wrong with a line by itself. -/
inductive Unusable (path : String) (line : ℕ) (bytes : List UInt8) : Error → Prop
  | io (h : ∀ text, bytes ≠ Json.utf8 text) : Unusable path line bytes (.io path)
  | malformed (h : IsText bytes) (hrecord : Record.parse? bytes = none) :
    Unusable path line bytes (.malformed path line)
  | invalid {record : Record} {why : Rejection} (h : IsText bytes)
    (hrecord : Record.parse? bytes = some record) (hmetric : record.toMetric = .error why) :
    Unusable path line bytes (.invalid path line why)

/-- What is wrong with a line when it is the next to be replayed into a store. -/
inductive Fault (path : String) (line : ℕ) (s : Store) (bytes : List UInt8) : Error → Prop
  | unusable {e : Error} (h : Unusable path line bytes e) : Fault path line s bytes e
  | refused {m : Metric} {why : Storage.Error} (h : Holds bytes m) (hstore : s.restore m = .error why) :
    Fault path line s bytes (.refused path line why)

/-- Blank lines aside, the lines hold these metrics. -/
inductive Held : List (List UInt8) → List Metric → Prop
  | nil : Held [] []
  | blank {bytes : List UInt8} {lines : List (List UInt8)} {ms : List Metric} (h : IsBlank bytes)
    (more : Held lines ms) : Held (bytes :: lines) ms
  | record {bytes : List UInt8} {lines : List (List UInt8)} {m : Metric} {ms : List Metric}
    (h : Holds bytes m) (more : Held lines ms) : Held (bytes :: lines) (m :: ms)

/-- The lines hold metrics that a store takes one by one. -/
structure Replayed (s : Store) (lines : List (List UInt8)) (ms : List Metric) (s' : Store) : Prop where
  held : Held lines ms
  stored : ms.foldlM Store.restore s = .ok s'

theorem isBlank_utf8_iff {text : String} :
    IsBlank (Json.utf8 text) ↔ Text.trim text.toList = [] := by
  rw [Text.trim_eq_nil_iff]
  refine ⟨?_, fun h => ⟨text, rfl, h⟩⟩
  rintro ⟨other, hsame, h⟩
  have hread := (Json.fromUTF8_utf8 text).symm.trans (Json.fromUTF8?_eq_some_iff.2 hsame)
  obtain rfl := Option.some.inj hread
  exact h

instance : DecidablePred IsBlank := fun bytes =>
  match h : String.fromUTF8? (Bytes.ofList bytes) with
  | some text => decidable_of_iff (Text.trim text.toList = []) <| by
      rw [Json.fromUTF8?_eq_some_iff.1 h, isBlank_utf8_iff]
  | none => isFalse fun ⟨text, htext, _⟩ => by
      rw [Json.fromUTF8?_eq_some_iff.2 htext] at h
      cases h

section

variable {path : String} {line : ℕ} {bytes : List UInt8}

theorem readLine_cases (path : String) (line : ℕ) (bytes : List UInt8) :
    (∀ text, bytes ≠ Json.utf8 text) ∧ readLine path line bytes = .error (.io path) ∨
      IsBlank bytes ∧ readLine path line bytes = .ok none ∨
      IsText bytes ∧ readLine path line bytes = match Record.parse? bytes with
        | none => .error (.malformed path line)
        | some record =>
          match record.toMetric with
          | .ok m => .ok (some m)
          | .error why => .error (.invalid path line why) := by
  unfold readLine
  rcases htext : String.fromUTF8? (Bytes.ofList bytes) with _ | text
  · refine Or.inl ⟨fun text h => ?_, rfl⟩
    rw [Json.fromUTF8?_eq_some_iff.2 h] at htext
    cases htext
  · obtain rfl := Json.fromUTF8?_eq_some_iff.1 htext
    by_cases hblank : Text.trim text.toList = []
    · exact Or.inr (Or.inl ⟨isBlank_utf8_iff.2 hblank, if_pos hblank⟩)
    · exact Or.inr (Or.inr ⟨⟨⟨text, rfl⟩, mt isBlank_utf8_iff.1 hblank⟩, if_neg hblank⟩)

theorem readLine_eq_none_iff : readLine path line bytes = .ok none ↔ IsBlank bytes := by
  rcases readLine_cases path line bytes with ⟨htext, hread⟩ | ⟨hblank, hread⟩ | ⟨⟨-, hblank⟩, hread⟩
  · simp only [hread, reduceCtorEq, false_iff]
    exact fun ⟨text, h, _⟩ => htext text h
  · simp only [hread, hblank]
  · simp only [hread, hblank, iff_false]
    rcases Record.parse? bytes with _ | record
    · simp
    · rcases hmetric : record.toMetric with _ | m <;> simp [hmetric]

theorem readLine_eq_some_iff {m : Metric} :
    readLine path line bytes = .ok (some m) ↔ Holds bytes m := by
  rcases readLine_cases path line bytes with ⟨htext, hread⟩ | ⟨hblank, hread⟩ | ⟨htext, hread⟩
  · simp only [hread, reduceCtorEq, false_iff]
    exact fun ⟨⟨⟨text, h⟩, _⟩, _⟩ => htext text h
  · simp only [hread, Except.ok.injEq, reduceCtorEq, false_iff]
    exact fun ⟨⟨_, h⟩, _⟩ => h hblank
  · simp only [hread, Holds, htext, true_and]
    rcases Record.parse? bytes with _ | record
    · simp
    · rcases hmetric : record.toMetric with _ | m <;> simp [hmetric]

theorem readLine_eq_error_iff {e : Error} :
    readLine path line bytes = .error e ↔ Unusable path line bytes e := by
  rcases readLine_cases path line bytes with ⟨htext, hread⟩ | ⟨hblank, hread⟩ | ⟨htext, hread⟩
  · rw [hread, Except.error.injEq]
    constructor
    · rintro rfl
      exact .io htext
    · rintro (_ | ⟨⟨⟨text, h⟩, _⟩, _⟩ | ⟨⟨⟨text, h⟩, _⟩, _⟩)
      · rfl
      · exact absurd h (htext text)
      · exact absurd h (htext text)
  · simp only [hread, reduceCtorEq, false_iff]
    obtain ⟨text, htext, -⟩ := id hblank
    rintro (h | ⟨⟨_, h⟩, _⟩ | ⟨⟨_, h⟩, _⟩)
    · exact h text htext
    · exact h hblank
    · exact h hblank
  · rw [hread]
    constructor
    · intro h
      split at h
      · next hrecord =>
        obtain rfl := Except.error.inj h
        exact .malformed htext hrecord
      · next record hrecord =>
        split at h
        · cases h
        · next why hmetric =>
          obtain rfl := Except.error.inj h
          exact .invalid htext hrecord hmetric
    · rintro (h | ⟨_, hrecord⟩ | ⟨_, hrecord, hmetric⟩)
      · obtain ⟨⟨text, hsame⟩, -⟩ := htext
        exact absurd hsame (h text)
      · simp only [hrecord]
      · simp only [hrecord, hmetric]

end

theorem Held.length_eq {lines : List (List UInt8)} {ms : List Metric} (h : Held lines ms) :
    ms.length = lines.countP (¬IsBlank ·) := by
  induction h with
  | nil => rfl
  | blank hblank more ih => rw [List.countP_cons_of_neg (by simpa using hblank), ih]
  | record hholds more ih =>
    rw [List.countP_cons_of_pos (by simpa using hholds.1.2), List.length_cons, ih]

theorem Replayed.blank {s s' : Store} {bytes : List UInt8} {lines : List (List UInt8)}
    {ms : List Metric} (h : IsBlank bytes) (more : Replayed s lines ms s') :
    Replayed s (bytes :: lines) ms s' := ⟨.blank h more.held, more.stored⟩

theorem Replayed.record {s s₁ s' : Store} {bytes : List UInt8} {lines : List (List UInt8)}
    {m : Metric} {ms : List Metric} (h : Holds bytes m) (hstore : s.restore m = .ok s₁)
    (more : Replayed s₁ lines ms s') : Replayed s (bytes :: lines) (m :: ms) s' where
  held := .record h more.held
  stored := by
    rw [List.foldlM_cons, hstore]
    exact more.stored

theorem Replayed.cons_cases {s s' : Store} {bytes : List UInt8} {lines : List (List UInt8)}
    {ms : List Metric} (h : Replayed s (bytes :: lines) ms s') :
    IsBlank bytes ∧ Replayed s lines ms s' ∨
      ∃ m rest s₁, ms = m :: rest ∧ Holds bytes m ∧ s.restore m = .ok s₁ ∧
        Replayed s₁ lines rest s' := by
  obtain ⟨hheld, hstored⟩ := h
  cases hheld with
  | blank hblank more => exact Or.inl ⟨hblank, more, hstored⟩
  | record hholds more =>
    rw [List.foldlM_cons, bind_eq_ok_iff] at hstored
    obtain ⟨s₁, hs₁, hrest⟩ := hstored
    exact Or.inr ⟨_, _, s₁, rfl, hholds, hs₁, more, hrest⟩

theorem Replayed.nil_iff {s s' : Store} {ms : List Metric} :
    Replayed s [] ms s' ↔ ms = [] ∧ s' = s := by
  constructor
  · rintro ⟨_ | _, hstored⟩
    exact ⟨rfl, (Except.ok.inj hstored).symm⟩
  · rintro ⟨rfl, rfl⟩
    exact ⟨.nil, rfl⟩

section

variable {path : String} {line count : ℕ} {s s' : Store} {bytes : List UInt8}

theorem replay_blank (h : IsBlank bytes) (lines : List (List UInt8)) :
    replay path line count s (bytes :: lines) = replay path (line + 1) count s lines := by
  rw [replay, readLine_eq_none_iff.2 h]

theorem replay_record {m : Metric} (h : Holds bytes m) (hstore : s.restore m = .ok s')
    (lines : List (List UInt8)) :
    replay path line count s (bytes :: lines) = replay path (line + 1) (count + 1) s' lines := by
  rw [replay, readLine_eq_some_iff.2 h]
  simp only [replayMetric, hstore]

theorem replay_fault {e : Error} (h : Fault path line s bytes e) (lines : List (List UInt8)) :
    replay path line count s (bytes :: lines) = (s, .error e) := by
  rw [replay]
  cases h with
  | unusable h => rw [readLine_eq_error_iff.2 h]
  | refused h hstore =>
    rw [readLine_eq_some_iff.2 h]
    simp only [replayMetric, hstore]

theorem line_cases (path : String) (line : ℕ) (s : Store) (bytes : List UInt8) :
    IsBlank bytes ∨ (∃ m s', Holds bytes m ∧ s.restore m = .ok s') ∨
      ∃ e, Fault path line s bytes e := by
  rcases hread : readLine path line bytes with e | _ | m
  · exact Or.inr (Or.inr ⟨e, .unusable (readLine_eq_error_iff.1 hread)⟩)
  · exact Or.inl (readLine_eq_none_iff.1 hread)
  · have hholds := readLine_eq_some_iff.1 hread
    rcases hstore : s.restore m with why | s'
    · exact Or.inr (Or.inr ⟨_, .refused hholds hstore⟩)
    · exact Or.inr (Or.inl ⟨m, s', hholds, hstore⟩)

theorem replay_append {before : List (List UInt8)} {ms : List Metric} (h : Replayed s before ms s')
    (after : List (List UInt8)) :
    replay path line count s (before ++ after) =
      replay path (line + before.length) (count + ms.length) s' after := by
  induction before generalizing line count s ms with
  | nil =>
    obtain ⟨rfl, rfl⟩ := Replayed.nil_iff.1 h
    rfl
  | cons bytes before ih =>
    rw [List.cons_append, List.length_cons, Nat.add_comm before.length, ← Nat.add_assoc]
    rcases h.cons_cases with ⟨hblank, hmore⟩ | ⟨m, rest, s₁, rfl, hholds, hstore, hmore⟩
    · rw [replay_blank hblank, ih hmore]
    · rw [replay_record hholds hstore, ih hmore, List.length_cons, Nat.add_comm rest.length,
        Nat.add_assoc count]

theorem replay_all {lines : List (List UInt8)} {ms : List Metric} (h : Replayed s lines ms s') :
    replay path line count s lines = (s', .ok (count + ms.length)) := by
  have hrun : replay path line count s (lines ++ []) = _ := replay_append h []
  rwa [List.append_nil] at hrun

/-- All lines are replayed, or those before the first that is at fault. -/
theorem replayed_cases (path : String) (line : ℕ) (s : Store) (lines : List (List UInt8)) :
    (∃ ms s', Replayed s lines ms s') ∨
      ∃ before bytes after ms s' e, lines = before ++ bytes :: after ∧ Replayed s before ms s' ∧
        Fault path (line + before.length) s' bytes e := by
  induction lines generalizing line s with
  | nil => exact Or.inl ⟨[], s, .nil, rfl⟩
  | cons bytes lines ih =>
    rcases line_cases path line s bytes with hblank | ⟨m, s₁, hholds, hstore⟩ | ⟨e, hfault⟩
    · rcases ih (line + 1) s with ⟨ms, s', h⟩ | ⟨before, bad, after, ms, s', e, rfl, h, hfault⟩
      · exact Or.inl ⟨ms, s', h.blank hblank⟩
      · refine Or.inr ⟨bytes :: before, bad, after, ms, s', e, rfl, h.blank hblank, ?_⟩
        rwa [List.length_cons, Nat.add_comm before.length, ← Nat.add_assoc]
    · rcases ih (line + 1) s₁ with ⟨ms, s', h⟩ | ⟨before, bad, after, ms, s', e, rfl, h, hfault⟩
      · exact Or.inl ⟨m :: ms, s', h.record hholds hstore⟩
      · refine Or.inr ⟨bytes :: before, bad, after, m :: ms, s', e, rfl,
          h.record hholds hstore, ?_⟩
        rwa [List.length_cons, Nat.add_comm before.length, ← Nat.add_assoc]
    · exact Or.inr ⟨[], bytes, lines, [], s, e, rfl, ⟨.nil, rfl⟩, hfault⟩

variable {lines : List (List UInt8)}

theorem replay_eq_ok_iff {n : ℕ} :
    replay path line count s lines = (s', .ok n) ↔
      ∃ ms, Replayed s lines ms s' ∧ n = count + ms.length := by
  constructor
  · intro h
    rcases replayed_cases path line s lines with
      ⟨ms, s₁, hall⟩ | ⟨before, bytes, after, ms, s₁, e, rfl, hbefore, hfault⟩
    · obtain ⟨rfl, hn⟩ := Prod.mk.inj (h.symm.trans (replay_all hall))
      exact ⟨ms, hall, Except.ok.inj hn⟩
    · rw [replay_append hbefore, replay_fault hfault] at h
      cases h
  · rintro ⟨ms, hall, rfl⟩
    exact replay_all hall

theorem replay_eq_error_iff {e : Error} :
    replay path line count s lines = (s', .error e) ↔
      ∃ before bytes after ms, lines = before ++ bytes :: after ∧ Replayed s before ms s' ∧
        Fault path (line + before.length) s' bytes e := by
  constructor
  · intro h
    rcases replayed_cases path line s lines with
      ⟨ms, s₁, hall⟩ | ⟨before, bytes, after, ms, s₁, e₁, rfl, hbefore, hfault⟩
    · rw [replay_all hall] at h
      cases h
    · rw [replay_append hbefore, replay_fault hfault] at h
      cases h
      exact ⟨before, bytes, after, ms, rfl, hbefore, hfault⟩
  · rintro ⟨before, bytes, after, ms, rfl, hbefore, hfault⟩
    rw [replay_append hbefore, replay_fault hfault]

end

theorem foldlM_restore {s s' : Store} {ms : List Metric} (h : ms.foldlM Store.restore s = .ok s')
    (watcher : Option Channel) :
    ms.foldlM Repository.restore ⟨s, watcher⟩ = .ok ⟨s', watcher⟩ := by
  induction ms generalizing s with
  | nil =>
    obtain rfl := Except.ok.inj h
    rfl
  | cons m ms ih =>
    rw [List.foldlM_cons, bind_eq_ok_iff] at h
    obtain ⟨s₁, hs₁, h⟩ := h
    rw [List.foldlM_cons, Repository.restore, hs₁]
    exact ih h

/-- A backup is replayed up to its first line that is at fault. If there is none, the answer is how
many of its lines are not blank; otherwise it is the fault, with the number of the line if it has one,
and the store is what the metrics of the lines before it lead to. These metrics are gained as they
are: the poll counter takes only its own, and no watcher is told. Without a file nothing happens. -/
theorem restore_stops_at_first_fault (path : String) (d : Directory) (s : Store) :
    (d.entry path = .absent → restore path d s = (s, .ok 0)) ∧
    (d.entry path = .unreadable → restore path d s = (s, .error (.io path))) ∧
    (∀ content : ByteArray, ∃! lines, Text.HasLines (Bytes.toList content) lines) ∧
    (∀ content lines, d.entry path = .file content → Text.HasLines (Bytes.toList content) lines →
      (∀ s' n, restore path d s = (s', .ok n) ↔
        n = lines.countP (¬IsBlank ·) ∧ ∃ ms, Replayed s lines ms s') ∧
      (∀ s' e, restore path d s = (s', .error e) ↔
        ∃ before bytes after ms, lines = before ++ bytes :: after ∧ Replayed s before ms s' ∧
          Fault path (before.length + 1) s' bytes e)) ∧
    ∀ lines ms s', Replayed s lines ms s' → s.Gains ms s' ∧
      ∀ watcher, ms.foldlM Repository.restore ⟨s, watcher⟩ = .ok ⟨s', watcher⟩ := by
  refine ⟨fun h => ?_, fun h => ?_, fun content => ?_, fun content lines h hlines => ?_,
    fun lines ms s' h => ⟨Store.gains_of_foldlM h.stored, foldlM_restore h.stored⟩⟩
  · rw [restore, h]
  · rw [restore, h]
  · exact ⟨_, Text.hasLines_iff.2 rfl, fun lines hlines => (Text.hasLines_iff.1 hlines).symm⟩
  · have hreplay : restore path d s = replay path 1 0 s lines := by
      rw [restore, h, ← Text.hasLines_iff.1 hlines]
    rw [hreplay]
    constructor
    · intro s' n
      rw [replay_eq_ok_iff]
      constructor
      · rintro ⟨ms, hall, rfl⟩
        exact ⟨by rw [Nat.zero_add, hall.held.length_eq], ms, hall⟩
      · rintro ⟨rfl, ms, hall⟩
        exact ⟨ms, hall, by rw [Nat.zero_add, hall.held.length_eq]⟩
    · intro s' e
      simp only [replay_eq_error_iff, Nat.add_comm 1]

/-- The third of four lines would make a gauge of a counter: the first one, in front of a carriage
return, is replayed, and the last one is not. -/
theorem gauge_line_is_at_fault :
    let first := Json.utf8 "\x7b\"id\":\"hits\",\"type\":\"counter\",\"delta\":2\x7d"
    let blank := Json.utf8 " \t\u00a0"
    let bad := Json.utf8 "\x7b\"id\":\"hits\",\"type\":\"gauge\",\"value\":0\x7d"
    let final := Json.utf8 "\x7b\"id\":\"late\",\"type\":\"counter\",\"delta\":1\x7d"
    let content := Bytes.ofList (first ++ 13 :: 10 :: (blank ++ 10 :: (bad ++ 10 :: final)))
    let d : Directory := ⟨[("kept", content)], []⟩
    let s : Store := .memory [("hits", .counter 1)]
    d.entry "kept" = .file content ∧
      Text.HasLines (Bytes.toList content) [first, blank, bad, final] ∧
      Replayed s [first, blank] [⟨"hits", .counter 2⟩] (.memory [("hits", .counter 3)]) ∧
      restore "kept" d s = (.memory [("hits", .counter 3)],
        .error (.refused "kept" 3 (.rejected (.kindMismatch "hits" .counter .gauge)))) := by
  intro first blank bad final content d s
  have hentry : d.entry "kept" = .file content := rfl
  have hlines : Text.HasLines (Bytes.toList content) [first, blank, bad, final] :=
    Text.hasLines_iff.2 (by decide)
  have hread : readLine "kept" 1 first = .ok (some ⟨"hits", .counter 2⟩) := by decide
  have hreadBad : readLine "kept" 3 bad = .ok (some ⟨"hits", .gauge .zero⟩) := by decide
  have hfirst : Holds first ⟨"hits", .counter 2⟩ := readLine_eq_some_iff.1 hread
  have hbad : Holds bad ⟨"hits", .gauge .zero⟩ := readLine_eq_some_iff.1 hreadBad
  have hreplayed : Replayed s [first, blank] [⟨"hits", .counter 2⟩] (.memory [("hits", .counter 3)]) :=
    .record hfirst rfl (.blank (by decide) ⟨.nil, rfl⟩)
  obtain ⟨-, -, -, outcome, -⟩ := restore_stops_at_first_fault "kept" d s
  refine ⟨hentry, hlines, hreplayed, ((outcome content _ hentry hlines).2 _ _).2 ?_⟩
  exact ⟨[first, blank], bad, [final], _, rfl, hreplayed, .refused hbad rfl⟩

end Backup
end Telemetry
