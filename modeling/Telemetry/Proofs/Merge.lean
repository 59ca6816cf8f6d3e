import Telemetry.Proofs.Staging

/-! What merging a value does: a gauge replaces a gauge, a counter adds to a counter exactly, and
anything else is refused. A metric that passes its own check is a merge away from being stored. -/

namespace Telemetry

theorem Text.int64?_eq_some_iff {n : ℤ} {i : Int64} : int64? n = some i ↔ i.toInt = n := by
  have hmin : Int64.minValue.toInt = -2 ^ 63 := rfl
  have hmax : Int64.maxValue.toInt = 2 ^ 63 - 1 := rfl
  unfold int64?
  rw [hmin, hmax]
  constructor
  · intro h
    split_ifs at h with hn
    obtain rfl := Option.some.inj h
    exact Int64.toInt_ofInt_of_le (by omega) (by omega)
  · rintro rfl
    have hlow := Int64.le_toInt i
    have hhigh := Int64.toInt_lt i
    rw [if_pos (by omega), Int64.ofInt_toInt]

theorem Value.merge_counter_eq_ok_iff {name : String} {n d : Int64} {v : Value} :
    merge name (.counter n) (.counter d) = .ok v ↔
      ∃ s : Int64, v = .counter s ∧ s.toInt = n.toInt + d.toInt := by
  simp only [merge, ← Text.int64?_eq_some_iff]
  cases Text.int64? (n.toInt + d.toInt) with
  | some s => simp [eq_comm]
  | none => simp

theorem Value.merge_eq_ok_iff {name : String} {stored incoming v : Value} :
    stored.merge name incoming = .ok v ↔
      (∃ x y, stored = .gauge x ∧ incoming = .gauge y ∧ v = .gauge y) ∨
      ∃ n d s, stored = .counter n ∧ incoming = .counter d ∧ v = .counter s ∧
        s.toInt = n.toInt + d.toInt := by
  cases stored with
  | gauge x => cases incoming <;> simp [merge, eq_comm]
  | counter n =>
    cases incoming with
    | gauge y => simp [merge]
    | counter d => simp [merge_counter_eq_ok_iff]

theorem Metric.validate_eq_ok_iff {m : Metric} :
    m.validate = .ok () ↔
      m.name ≠ "" ∧ ∀ x, m.value = .gauge x → m.name ≠ pollCount ∧ x.isFinite := by
  obtain ⟨name, value⟩ := m
  unfold validate
  by_cases h : name = ""
  · simp [h]
  have nonempty : name.isEmpty = false := by simpa using h
  simp only [nonempty, Bool.false_eq_true, if_false]
  cases value with
  | counter n => simp [h]
  | gauge x => split_ifs <;> simp [*]

theorem Metric.validate_tick : tick.validate = .ok () := rfl

namespace Memory

theorem merge_eq_ok_iff {v v' : Memory} {m : Metric} :
    v.merge m = .ok v' ↔ ∃ x, v' = v.insert m.name x ∧
      ((v.find? m.name = none ∧ x = m.value) ∨
        ∃ stored, v.find? m.name = some stored ∧ stored.merge m.name m.value = .ok x) := by
  unfold merge
  cases h : v.find? m.name with
  | none => simp [bind, Except.bind, eq_comm]
  | some stored =>
    simp only [bind_eq_ok_iff, Except.ok.injEq, reduceCtorEq, false_and, false_or,
      Option.some.injEq, exists_eq_left']
    exact exists_congr fun x => and_comm.trans (and_congr_left' eq_comm)

theorem merge_gauge {v : Memory} {name : String} (h : ∀ n, v.find? name ≠ some (.counter n))
    (x : Real64) : v.merge ⟨name, .gauge x⟩ = .ok (v.insert name (.gauge x)) := by
  rw [merge_eq_ok_iff]
  refine ⟨_, rfl, ?_⟩
  cases hf : v.find? name with
  | none => exact Or.inl ⟨rfl, rfl⟩
  | some stored =>
    cases stored with
    | gauge y => exact Or.inr ⟨_, rfl, rfl⟩
    | counter n => exact absurd hf (h n)

theorem merge_tick_overflow {v : Memory}
    (h : v.find? pollCount = some (.counter Int64.maxValue)) :
    v.merge .tick = .error (.counterOverflow pollCount Int64.maxValue 1) := by
  unfold merge
  rw [show (Metric.tick).name = pollCount from rfl, h]
  rfl

end Memory
end Telemetry
