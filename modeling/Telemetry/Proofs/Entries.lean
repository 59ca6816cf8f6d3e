import Telemetry.Proofs.Merge
import Telemetry.Proofs.Rows

/-! An accepted call is a list of valid entries merged one after the other: the metrics it hands
over, each gauge that counts followed by its tick. So whatever merging valid entries keeps, every
run of calls keeps, on either kind of store. -/

namespace Telemetry

/-- A metric and the tick for it. -/
def Metric.counted (m : Metric) : List Metric :=
  match m.kind with
  | .gauge => [m, tick]
  | .counter => [m]

/-- What an accepted call merges, in order. -/
def Write.entries : Write → List Metric
  | set m => m.counted
  | setAll batch => batch.flatMap Metric.counted
  | restore m => [m]

namespace Memory

/-- The entries are valid and merge one after the other, from `v` to `v'`. -/
structure Posted (v : Memory) (entries : List Metric) (v' : Memory) : Prop where
  valid : ∀ m ∈ entries, m.validate = .ok ()
  merged : entries.foldlM merge v = .ok v'

theorem Posted.nil (v : Memory) : v.Posted [] v := ⟨by simp, rfl⟩

theorem Posted.append {v v' v'' : Memory} {es fs : List Metric} (he : v.Posted es v')
    (hf : v'.Posted fs v'') : v.Posted (es ++ fs) v'' := by
  refine ⟨fun m hm => ?_, foldlM_append_eq_ok_iff.2 ⟨v', he.merged, hf.merged⟩⟩
  rcases List.mem_append.1 hm with hm | hm
  · exact he.valid m hm
  · exact hf.valid m hm

theorem Posted.single {v v' : Memory} {m : Metric} (hm : m.validate = .ok ())
    (h : v.merge m = .ok v') : v.Posted [m] v' := by
  refine ⟨by simpa using hm, ?_⟩
  rw [List.foldlM_cons, h]
  rfl

theorem replay_posted {v v' : Memory} {m : Metric} (h : v.replay m = .ok v') : v.Posted [m] v' := by
  obtain ⟨_, hm, h⟩ := bind_eq_ok_iff.1 h
  exact .single hm h

theorem write_posted {v v' : Memory} {m : Metric} (h : v.write m = .ok v') :
    v.Posted m.counted v' := by
  obtain ⟨_, hm, h⟩ := bind_eq_ok_iff.1 h
  obtain ⟨w, hw, h⟩ := bind_eq_ok_iff.1 h
  unfold Metric.counted
  cases hk : m.kind with
  | gauge =>
    rw [hk] at h
    exact (Posted.single hm hw).append (.single Metric.validate_tick h)
  | counter =>
    rw [hk] at h
    cases h
    exact .single hm hw

theorem foldlM_write_posted {v v' : Memory} {batch : List Metric}
    (h : batch.foldlM write v = .ok v') : v.Posted (batch.flatMap Metric.counted) v' := by
  induction batch generalizing v with
  | nil =>
    cases h
    exact .nil _
  | cons m batch ih =>
    rw [List.foldlM_cons, bind_eq_ok_iff] at h
    obtain ⟨w, hw, h⟩ := h
    rw [List.flatMap_cons]
    exact (write_posted hw).append (ih h)

theorem apply_posted {v v' : Memory} {w : Write} (h : v.apply w = .ok v') :
    v.Posted w.entries v' := by
  cases w with
  | set m => exact write_posted ((set_eq_write v m).symm.trans h)
  | setAll batch => exact foldlM_write_posted ((setAll_eq_foldlM v batch).symm.trans h)
  | restore m => exact replay_posted ((restore_eq_replay v m).symm.trans h)

end Memory

namespace Repository

theorem after_posted {r : Repository} {s : Store} {v : Memory} (h : r.store = s.holding v)
    (ws : List Write) :
    ∃ v', (r.after ws).store = s.holding v' ∧
      v.Posted ((r.accepted ws).flatMap Write.entries) v' := by
  induction ws generalizing r v with
  | nil => exact ⟨v, h, .nil v⟩
  | cons w ws ih =>
    rw [after_cons, accepted]
    have run := Store.apply_holding s v w
    rw [← h] at run
    rcases run.outcome with ⟨why, -, hs⟩ | ⟨v₁, t, hv, hs, rfl⟩
    · have refused : r.apply w = .error (.rejected why) := by rw [apply_eq_map, hs]; rfl
      rw [call_eq_error_iff.2 refused, refused]
      exact ih h
    · have done : r.apply w = .ok (r.wrote w (s.holding v₁)) := by rw [apply_eq_map, hs]; rfl
      rw [call_eq_ok_iff.2 done, done]
      obtain ⟨v', hstore, hposted⟩ := ih (store_wrote r w (s.holding v₁))
      exact ⟨v', hstore, (Memory.apply_posted hv).append hposted⟩

end Repository
end Telemetry
