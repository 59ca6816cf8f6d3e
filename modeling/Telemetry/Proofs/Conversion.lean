import Telemetry.Proofs.Merge
import Telemetry.Metric.Batch

/-! Records on their way to metrics. The kind of a record is looked at first, then its name and then the
value for its kind, so a record is a metric, or it has no name, or something else is wrong with it. A
list of records is as good as the first of them that is no metric. -/

namespace Telemetry

def Kind.Names (text : String) : Prop := ∃ k, parse text = .ok k

theorem Kind.parse_eq_error {text : String} {why : Rejection} (h : parse text = .error why) :
    why = .unknownKind text := by
  unfold parse at h
  simp only at h
  split_ifs at h
  exact (Except.error.inj h).symm

theorem Value.parse_eq_error {k : Kind} {text : String} {why : Rejection}
    (h : parse k text = .error why) : why = .invalidValue k text := by
  unfold parse at h
  simp only at h
  split at h
  · cases h
  · exact (Except.error.inj h).symm

namespace Record

def carried (r : Record) : Kind → Option Value
  | .gauge => r.value.map .gauge
  | .counter => r.delta.map .counter

/-- A record of a metric: its kind is known, it has a name and the value for its kind. -/
def Whole (r : Record) : Prop := ∃ k x, Kind.parse r.type = .ok k ∧ r.id ≠ "" ∧ r.carried k = some x

/-- A record whose kind is known, but that has no name. -/
def Nameless (r : Record) : Prop := Kind.Names r.type ∧ r.id = ""

/-- A record whose kind is not known, or that has a name, but not the value for its kind. -/
def Faulty (r : Record) : Prop :=
  ¬Kind.Names r.type ∨ r.id ≠ "" ∧ ∃ k, Kind.parse r.type = .ok k ∧ r.carried k = none

variable {r : Record}

theorem key_eq_ok_iff {k : Kind} {name : String} :
    r.key = .ok (k, name) ↔ Kind.parse r.type = .ok k ∧ r.id ≠ "" ∧ name = r.id := by
  simp only [key, bind_eq_ok_iff]
  by_cases hid : r.id = ""
  · simp [hid]
  · have hnonempty : r.id.isEmpty = false := by simpa using hid
    simp only [hnonempty, Bool.false_eq_true, if_false, Except.ok.injEq, Prod.mk.injEq, ne_eq, hid,
      not_false_eq_true, true_and]
    constructor
    · rintro ⟨_, hk, rfl, rfl⟩
      exact ⟨hk, rfl⟩
    · rintro ⟨hk, rfl⟩
      exact ⟨k, hk, rfl, rfl⟩

theorem key_eq_emptyName_iff : r.key = .error .emptyName ↔ r.Nameless := by
  simp only [key, bind_eq_error_iff, Nameless, Kind.Names]
  have hkind : Kind.parse r.type ≠ .error .emptyName := by
    intro h
    exact absurd (Kind.parse_eq_error h) nofun
  by_cases hid : r.id = ""
  · simp [hid, hkind]
  · simp [hid, hkind]

theorem key_eq_other_iff :
    (∃ why, r.key = .error why ∧ why ≠ .emptyName) ↔ ¬Kind.Names r.type := by
  simp only [key, bind_eq_error_iff, Kind.Names]
  constructor
  · rintro ⟨why, h | ⟨k, hk, h⟩, hwhy⟩ ⟨k', hk'⟩
    · cases h.symm.trans hk'
    · split_ifs at h
      exact hwhy (Except.error.inj h).symm
  · intro h
    obtain ⟨why, hwhy⟩ : ∃ why, Kind.parse r.type = .error why := by
      match hk : Kind.parse r.type with
      | .ok k => exact absurd ⟨k, hk⟩ h
      | .error why => exact ⟨why, rfl⟩
    refine ⟨why, Or.inl hwhy, ?_⟩
    rw [Kind.parse_eq_error hwhy]
    exact nofun

theorem toMetric_eq (r : Record) :
    r.toMetric = r.key >>= fun (k, name) =>
      match r.carried k with
      | some x => .ok ⟨name, x⟩
      | none => .error (.missingValue name k) := by
  unfold toMetric
  refine bind_congr fun found => ?_
  rcases found with ⟨_ | _, name⟩ <;> rfl

theorem toMetric_eq_ok_iff {m : Metric} :
    r.toMetric = .ok m ↔ ∃ k x, Kind.parse r.type = .ok k ∧ r.id ≠ "" ∧ r.carried k = some x ∧
      m = ⟨r.id, x⟩ := by
  rw [toMetric_eq, bind_eq_ok_iff]
  constructor
  · rintro ⟨⟨k, name⟩, hkey, h⟩
    obtain ⟨hk, hid, rfl⟩ := key_eq_ok_iff.1 hkey
    simp only at h
    split at h
    · next x hx => exact ⟨k, x, hk, hid, hx, (Except.ok.inj h).symm⟩
    · cases h
  · rintro ⟨k, x, hk, hid, hx, rfl⟩
    refine ⟨(k, r.id), key_eq_ok_iff.2 ⟨hk, hid, rfl⟩, ?_⟩
    simp only [hx]

theorem exists_toMetric_iff : (∃ m, r.toMetric = .ok m) ↔ r.Whole := by
  simp only [toMetric_eq_ok_iff, Whole]
  constructor
  · rintro ⟨-, k, x, hk, hid, hx, -⟩
    exact ⟨k, x, hk, hid, hx⟩
  · rintro ⟨k, x, hk, hid, hx⟩
    exact ⟨_, k, x, hk, hid, hx, rfl⟩

theorem toMetric_eq_emptyName_iff : r.toMetric = .error .emptyName ↔ r.Nameless := by
  rw [toMetric_eq, bind_eq_error_iff, key_eq_emptyName_iff, or_iff_left]
  rintro ⟨⟨k, name⟩, -, h⟩
  simp only at h
  split at h <;> cases h

theorem toMetric_eq_other_iff :
    (∃ why, r.toMetric = .error why ∧ why ≠ .emptyName) ↔ r.Faulty := by
  simp only [toMetric_eq, bind_eq_error_iff, or_and_right, exists_or, key_eq_other_iff, Faulty]
  refine or_congr_right ?_
  constructor
  · rintro ⟨why, ⟨⟨k, name⟩, hkey, h⟩, -⟩
    obtain ⟨hk, hid, rfl⟩ := key_eq_ok_iff.1 hkey
    simp only at h
    split at h
    · cases h
    · next hx => exact ⟨hid, k, hk, hx⟩
  · rintro ⟨hid, k, hk, hx⟩
    refine ⟨.missingValue r.id k, ⟨(k, r.id), key_eq_ok_iff.2 ⟨hk, hid, rfl⟩, ?_⟩, nofun⟩
    simp only [hx]

end Record

namespace Batch

/-- Of a list of records the first one that is no metric is one of these. -/
def FirstFails (P : Record → Prop) (records : List Record) : Prop :=
  ∃ before r after, records = before ++ r :: after ∧ (∀ b ∈ before, b.Whole) ∧ P r

variable {records : List Record}

theorem mapM_toMetric_eq_emptyName_iff :
    records.mapM Record.toMetric = .error .emptyName ↔ FirstFails Record.Nameless records := by
  simp only [mapM_eq_error_iff, Record.exists_toMetric_iff, Record.toMetric_eq_emptyName_iff,
    FirstFails]

theorem mapM_toMetric_eq_other_iff :
    (∃ why, records.mapM Record.toMetric = .error why ∧ why ≠ .emptyName) ↔
      FirstFails Record.Faulty records := by
  simp only [mapM_eq_error_iff, Record.exists_toMetric_iff, FirstFails, ← Record.toMetric_eq_other_iff]
  constructor
  · rintro ⟨why, ⟨before, r, after, hrecords, hbefore, hr⟩, hwhy⟩
    exact ⟨before, r, after, hrecords, hbefore, why, hr, hwhy⟩
  · rintro ⟨before, r, after, hrecords, hbefore, why, hr, hwhy⟩
    exact ⟨why, ⟨before, r, after, hrecords, hbefore, hr⟩, hwhy⟩

end Batch

end Telemetry
