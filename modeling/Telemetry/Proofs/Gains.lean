import Telemetry.Proofs.Accounts
import Telemetry.Proofs.Validity

/-! What a store gains by metrics that are restored, whatever is in it, the rows of a foreign database
included. One of them touches its own name and no other, the poll counter neither: a gauge replaces
what is there, a counter adds to it, and a new name takes the value as it is. So over a run a name
has the last of its gauges, or what it held with the sum of its counters. -/

namespace Telemetry

open Storage (Error)

theorem Table.upsert_eq_ok {t t' : Table} {m : Metric} (h : t.upsert m = .ok t') :
    ∃ row, t' = t.insert m.name row ∧
      (t.find? m.name = none ∧ row = .ofMetric m ∨
        ∃ old, t.find? m.name = some old ∧ old.kind = some m.kind.name ∧
          old.change m.value = .ok row) := by
  obtain ⟨-, -, h⟩ := bind_eq_ok_iff.1 h
  obtain ⟨⟨t₁, changed⟩, hexecute, h⟩ := bind_eq_ok_iff.1 h
  unfold execute at hexecute
  split at hexecute
  · next hnone =>
    obtain ⟨rfl, rfl⟩ := Prod.mk.inj (Except.ok.inj hexecute)
    obtain rfl := Except.ok.inj h
    exact ⟨_, rfl, Or.inl ⟨hnone, rfl⟩⟩
  · next old hold =>
    split_ifs at hexecute with hkind
    · obtain ⟨row, hrow, hpair⟩ := map_eq_ok_iff.1 hexecute
      obtain ⟨rfl, rfl⟩ := Prod.mk.inj hpair
      obtain rfl := Except.ok.inj h
      exact ⟨row, rfl, Or.inr ⟨old, hold, hkind, hrow⟩⟩
    · -- no row was changed, which ends in a refusal
      obtain ⟨rfl, rfl⟩ := Prod.mk.inj (Except.ok.inj hexecute)
      simp only [↓reduceIte] at h
      obtain ⟨_, _, h⟩ := bind_eq_ok_iff.1 h
      cases h

namespace Row

theorem read_eq_ok_iff {r : Row} {v : Value} :
    r.read = .ok (some v) ↔ r.kind = some v.kind.name ∧
      match v with
      | .gauge x => r.value = some x
      | .counter n => r.delta = some n := by
  obtain ⟨kind, value, delta⟩ := r
  have hne : Kind.counter.name ≠ Kind.gauge.name := by decide
  rcases kind with _ | kind
  · simp [read]
  · simp only [read, Option.some.injEq]
    split_ifs with hgauge hcounter
    · subst hgauge
      cases v <;> simp [Value.kind, hne.symm]
    · subst hcounter
      cases v <;> simp [Value.kind, hne]
    · cases v <;> simp [Value.kind, hgauge, hcounter]

end Row

namespace Store

/-- What a store gains by one metric, as the names of it show. -/
structure Merges (s : Store) (m : Metric) (s' : Store) : Prop where
  shown : s'.shown = s.shown
  names : ∀ name ∈ s'.names, name = m.name ∨ name ∈ s.names
  other : ∀ name, name ≠ m.name → s'.metric name = s.metric name
  kind : ∀ stored, s.metric m.name = .ok stored → stored.kind = m.kind
  gauge : ∀ x, m.value = .gauge x → s'.metric m.name = .ok ⟨m.name, s.shown (.gauge x)⟩
  counter : ∀ d n, m.value = .counter d → s.metric m.name = .ok ⟨m.name, .counter n⟩ →
    ∃ sum : Int64, s'.metric m.name = .ok ⟨m.name, .counter sum⟩ ∧ sum.toInt = n.toInt + d.toInt
  fresh : m.name ∉ s.names → s'.metric m.name = .ok ⟨m.name, s.shown m.value⟩

theorem merges_memory {v v' : Memory} {m : Metric} (h : v.merge m = .ok v') :
    (memory v).Merges m (memory v') := by
  obtain ⟨x, rfl, hx⟩ := Memory.merge_eq_ok_iff.1 h
  have written {value : Value} (hvalue : x = value) :
      (memory (v.insert m.name x)).metric m.name = .ok ⟨m.name, value⟩ :=
    metric_memory_eq_ok_iff.2 ⟨by rw [SortedMap.find?_insert, if_pos rfl, hvalue], rfl⟩
  refine ⟨rfl, fun name hname => ?_, fun name hne => ?_, fun stored hstored => ?_, fun y hy => ?_,
    fun d n hd hn => ?_, fun hnew => ?_⟩
  · obtain ⟨e, he, rfl⟩ := List.mem_map.1 hname
    rcases SortedMap.mem_insert he with rfl | he
    · exact Or.inl rfl
    · exact Or.inr (List.mem_map_of_mem he)
  · simp only [metric, Memory.metric?, SortedMap.find?_insert, if_neg hne]
  · obtain ⟨hfound, -⟩ := metric_memory_eq_ok_iff.1 hstored
    rcases hx with ⟨hnone, -⟩ | ⟨_, hsome, hmerge⟩
    · rw [hnone] at hfound
      cases hfound
    · obtain rfl := Option.some.inj (hfound.symm.trans hsome)
      rcases Value.merge_eq_ok_iff.1 hmerge with ⟨_, _, hs, hi, -⟩ | ⟨_, _, _, hs, hi, -, -⟩ <;>
        simp only [Metric.kind, hs, hi, Value.kind]
  · refine written ?_
    rw [hy] at hx
    rcases hx with ⟨-, rfl⟩ | ⟨_, -, hmerge⟩
    · rfl
    · rcases Value.merge_eq_ok_iff.1 hmerge with ⟨_, _, -, hi, rfl⟩ | ⟨_, _, _, -, hi, -, -⟩
      · exact hi.symm
      · cases hi
  · obtain ⟨hfound, -⟩ := metric_memory_eq_ok_iff.1 hn
    rw [hd] at hx
    rcases hx with ⟨hnone, -⟩ | ⟨_, hsome, hmerge⟩
    · rw [hnone] at hfound
      cases hfound
    · obtain rfl := Option.some.inj (hfound.symm.trans hsome)
      obtain ⟨sum, hx, hsum⟩ := Value.merge_counter_eq_ok_iff.1 hmerge
      exact ⟨sum, written hx, hsum⟩
  · have habsent : v.find? m.name = none :=
      SortedMap.find?_eq_none_iff.2 fun e he hname => hnew (hname ▸ List.mem_map_of_mem he)
    have hvalue : x = m.value := by
      rcases hx with ⟨-, hvalue⟩ | ⟨_, hsome, -⟩
      · exact hvalue
      · rw [habsent] at hsome
        cases hsome
    rw [written hvalue]
    cases m.value <;> rfl

theorem ofRow_eq_of_read {name : String} {row : Row} {v : Value} (h : row.read = .ok (some v)) :
    ofRow (name, row) = .ok (some ⟨name, v⟩) :=
  ofRow_eq_ok_iff.2 ⟨rfl, h⟩

theorem merges_database {path : Option String} {version : ℤ} {t t' : Table} {m : Metric}
    (h : t.upsert m = .ok t') :
    (database path ⟨version, some t⟩).Merges m (database path ⟨version, some t'⟩) := by
  obtain ⟨row, rfl, hrow⟩ := Table.upsert_eq_ok h
  have written {value : Value} (hvalue : row.read = .ok (some value)) :
      (database path ⟨version, some (t.insert m.name row)⟩).metric m.name =
        .ok ⟨m.name, value⟩ :=
    metric_database_eq_ok_iff.2
      ⟨row, by rw [SortedMap.find?_insert, if_pos rfl], ofRow_eq_of_read hvalue⟩
  have stored {v : Value} {name : String}
      (hv : (database path ⟨version, some t⟩).metric m.name = .ok ⟨name, v⟩) :
      ∃ old, t.find? m.name = some old ∧ old.kind = some m.kind.name ∧
        old.change m.value = .ok row ∧ old.read = .ok (some v) := by
    obtain ⟨old, hold, hread⟩ := metric_database_eq_ok_iff.1 hv
    rcases hrow with ⟨hnone, -⟩ | ⟨_, hsome, hkind, hchange⟩
    · rw [hnone] at hold
      cases hold
    · obtain rfl := Option.some.inj (hsome.symm.trans hold)
      exact ⟨_, hsome, hkind, hchange, (ofRow_eq_ok_iff.1 hread).2⟩
  refine ⟨rfl, fun name hname => ?_, fun name hne => ?_, fun m' hm' => ?_, fun y hy => ?_,
    fun d n hd hn => ?_, fun hnew => ?_⟩
  · obtain ⟨e, he, rfl⟩ := List.mem_map.1 hname
    rcases SortedMap.mem_insert he with rfl | he
    · exact Or.inl rfl
    · exact Or.inr (List.mem_map_of_mem he)
  · simp only [metric, Database.metric, SortedMap.find?_insert, if_neg hne]
  · obtain ⟨name, v⟩ := m'
    obtain ⟨old, -, hkind, -, hread⟩ := stored hm'
    exact Kind.name_injective
      (Option.some.inj ((Row.read_eq_ok_iff.1 hread).1.symm.trans hkind))
  · refine written (Row.read_eq_ok_iff.2 ?_)
    rcases hrow with ⟨-, rfl⟩ | ⟨old, -, hkind, hchange⟩
    · simp [Row.ofMetric, hy, shown, Value.kind]
    · rw [hy] at hchange
      obtain rfl := Except.ok.inj hchange
      rw [Metric.kind, hy] at hkind
      exact ⟨hkind, rfl⟩
  · obtain ⟨old, -, hkind, hchange, hread⟩ := stored hn
    have hdelta : old.delta = some n := (Row.read_eq_ok_iff.1 hread).2
    rw [hd, Row.change, hdelta] at hchange
    simp only at hchange
    split at hchange
    · next sum hsum =>
      obtain rfl := Except.ok.inj hchange
      rw [Metric.kind, hd] at hkind
      exact ⟨sum, written (Row.read_eq_ok_iff.2 ⟨hkind, rfl⟩), Text.int64?_eq_some_iff.1 hsum⟩
    · cases hchange
  · have habsent : t.find? m.name = none :=
      SortedMap.find?_eq_none_iff.2 fun e he hname => hnew (hname ▸ List.mem_map_of_mem he)
    rcases hrow with ⟨-, rfl⟩ | ⟨old, hsome, -⟩
    · exact written (read_ofMetric m.name m.value path ⟨version, some t⟩)
    · rw [habsent] at hsome
      cases hsome

theorem merges_of_restore {s s' : Store} {m : Metric} (h : s.restore m = .ok s') : s.Merges m s' := by
  cases s with
  | memory v =>
    rw [restore, Memory.restore_eq_replay] at h
    rcases hreplay : v.replay m with why | v'
    · rw [hreplay] at h
      cases h
    · rw [hreplay] at h
      obtain rfl := Except.ok.inj h
      obtain ⟨-, -, hmerge⟩ := bind_eq_ok_iff.1 hreplay
      exact merges_memory hmerge
  | database path content =>
    obtain ⟨content', hrestore, rfl⟩ := map_eq_ok_iff.1 h
    obtain ⟨-, -, hupsert⟩ := bind_eq_ok_iff.1 hrestore
    obtain ⟨version, table⟩ := content
    rcases table with _ | t
    · cases hupsert
    · obtain ⟨t', ht', hcontent⟩ := bind_eq_ok_iff.1 hupsert
      obtain rfl := Except.ok.inj hcontent
      exact merges_database ht'

/-- What a store gains by a list of metrics, as the names of it show. -/
structure Gains (s : Store) (ms : List Metric) (s' : Store) : Prop where
  other : ∀ name, history name ms = [] → s'.metric name = s.metric name
  kind : ∀ name stored, s.metric name = .ok stored → ∀ v ∈ history name ms, v.kind = stored.kind
  gauge : ∀ name x, (history name ms).getLast? = some (.gauge x) →
    s'.metric name = .ok ⟨name, s.shown (.gauge x)⟩
  counter : ∀ name n, s.metric name = .ok ⟨name, .counter n⟩ →
    ∃ sum : Int64, s'.metric name = .ok ⟨name, .counter sum⟩ ∧
      sum.toInt = n.toInt + booked name ms
  fresh : ∀ name, name ∉ s.names → (∃ d, .counter d ∈ history name ms) →
    ∃ sum : Int64, s'.metric name = .ok ⟨name, .counter sum⟩ ∧ sum.toInt = booked name ms

theorem Gains.nil (s : Store) : s.Gains [] s where
  other := fun _ _ => rfl
  kind := fun _ _ _ _ hv => absurd hv List.not_mem_nil
  gauge := fun _ _ h => by cases h
  counter := fun _ n hn => ⟨n, hn, by simp [booked, history]⟩
  fresh := fun _ _ ⟨_, hd⟩ => absurd hd List.not_mem_nil

theorem history_cons (name : String) (m : Metric) (ms : List Metric) :
    history name (m :: ms) = if m.name = name then m.value :: history name ms else history name ms := by
  by_cases h : m.name = name <;> simp [history, h]

theorem booked_singleton (m : Metric) : booked m.name [m] = m.value.delta := by
  simp [booked, history]

theorem booked_cons_ne {name : String} {m : Metric} (h : m.name ≠ name) (ms : List Metric) :
    booked name (m :: ms) = booked name ms := by
  rw [booked, history_cons, if_neg h, booked]

theorem name_of_metric {s : Store} {name : String} {m : Metric} (h : s.metric name = .ok m) :
    m.name = name := by
  rcases s with values | ⟨path, version, _ | t⟩
  · exact (metric_memory_eq_ok_iff.1 h).2
  · cases h
  · obtain ⟨row, -, hrow⟩ := metric_database_eq_ok_iff.1 h
    exact (ofRow_eq_ok_iff.1 hrow).1.symm

theorem Merges.exists_metric {s s' : Store} {m stored : Metric} (h : s.Merges m s')
    (hstored : s.metric m.name = .ok stored) :
    ∃ after, s'.metric m.name = .ok after ∧ after.kind = m.kind := by
  have hkind := h.kind stored hstored
  have hname := name_of_metric hstored
  obtain ⟨name, value⟩ := stored
  obtain rfl : name = m.name := hname
  rcases hm : m.value with x | d
  · exact ⟨_, h.gauge x hm, by rw [Metric.kind, kind_shown, Metric.kind, hm]⟩
  · rcases value with x | n
    · rw [Metric.kind, Metric.kind, hm] at hkind
      cases hkind
    · obtain ⟨sum, hsum, -⟩ := h.counter d n hm hstored
      exact ⟨_, hsum, by rw [Metric.kind, Metric.kind, hm]; rfl⟩

theorem Gains.cons {s s₁ s' : Store} {m : Metric} {ms : List Metric} (h : s.Merges m s₁)
    (rest : s₁.Gains ms s') : s.Gains (m :: ms) s' where
  other := by
    intro name hname
    rw [history_cons] at hname
    split_ifs at hname with hm
    rw [rest.other name hname, h.other name (Ne.symm hm)]
  kind := by
    intro name stored hstored v hv
    rw [history_cons] at hv
    split_ifs at hv with hm
    · subst hm
      have hkind := h.kind stored hstored
      rcases List.mem_cons.1 hv with rfl | hv
      · exact hkind.symm
      · obtain ⟨after, hafter, hsame⟩ := h.exists_metric hstored
        rw [rest.kind _ after hafter v hv, hsame, hkind]
    · rw [← h.other name (Ne.symm hm)] at hstored
      exact rest.kind name stored hstored v hv
  gauge := by
    intro name x hlast
    rw [← h.shown]
    rw [history_cons] at hlast
    split_ifs at hlast with hm
    · subst hm
      by_cases hnil : history m.name ms = []
      · rw [hnil] at hlast
        rw [rest.other _ hnil, h.gauge x (Option.some.inj hlast), h.shown]
      · rw [List.getLast?_cons_of_ne_nil hnil] at hlast
        exact rest.gauge _ x hlast
    · exact rest.gauge name x hlast
  counter := by
    intro name n hn
    by_cases hm : m.name = name
    · subst hm
      rcases hvalue : m.value with x | d
      · have hkind := h.kind _ hn
        rw [Metric.kind, Metric.kind, hvalue] at hkind
        cases hkind
      · obtain ⟨first, hfirst, hadd⟩ := h.counter d n hvalue hn
        obtain ⟨sum, hsum, hrest⟩ := rest.counter _ first hfirst
        refine ⟨sum, hsum, ?_⟩
        rw [hrest, hadd, booked_cons, booked_singleton, hvalue, Value.delta, add_assoc]
    · rw [← h.other name (Ne.symm hm)] at hn
      rw [booked_cons_ne hm]
      exact rest.counter name n hn
  fresh := by
    rintro name hnew ⟨d, hd⟩
    by_cases hm : m.name = name
    · subst hm
      have hfirst := h.fresh hnew
      rcases hvalue : m.value with x | e
      · -- a counter behind a gauge would not have been accepted
        rw [history_cons, if_pos rfl, hvalue] at hd
        rw [hvalue] at hfirst
        have hkind := rest.kind _ _ hfirst (.counter d) (by simpa using hd)
        rw [Metric.kind, kind_shown] at hkind
        cases hkind
      · rw [hvalue] at hfirst
        obtain ⟨sum, hsum, hrest⟩ := rest.counter _ e hfirst
        refine ⟨sum, hsum, ?_⟩
        rw [hrest, booked_cons, booked_singleton, hvalue, Value.delta]
    · rw [history_cons, if_neg hm] at hd
      rw [booked_cons_ne hm]
      have hstill : name ∉ s₁.names := fun hname =>
        (h.names name hname).elim (fun h => hm h.symm) hnew
      exact rest.fresh name hstill ⟨d, hd⟩

theorem gains_of_foldlM {s s' : Store} {ms : List Metric} (h : ms.foldlM restore s = .ok s') :
    s.Gains ms s' := by
  induction ms generalizing s with
  | nil =>
    obtain rfl := Except.ok.inj h
    exact .nil _
  | cons m ms ih =>
    rw [List.foldlM_cons, bind_eq_ok_iff] at h
    obtain ⟨s₁, hs₁, h⟩ := h
    exact (ih h).cons (merges_of_restore hs₁)

end Store
end Telemetry
