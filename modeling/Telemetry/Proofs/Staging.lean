import Mathlib.Data.String.Basic
import Telemetry.Storage.Memory
import Telemetry.Proofs.Outcome
import Telemetry.Proofs.SortedMap

/-! Writes merged straight into one map, and that staging them over the committed values does the
same. What is staged looks up as the map that its commit would leave, so every staged merge is a
merge into that map: it fails for the same reason or leads to the map committed next. -/

namespace Telemetry

namespace Memory

/-- Merges a metric into what is stored under its name. -/
def merge (v : Memory) (m : Metric) : Except Rejection Memory := do
  let value ← match v.find? m.name with
    | some stored => stored.merge m.name m.value
    | none => .ok m.value
  .ok (v.insert m.name value)

/-- A write that checks the metric, merges it and then counts it if it is a gauge. -/
def write (v : Memory) (m : Metric) : Except Rejection Memory := do
  m.validate
  let v ← v.merge m
  match m.kind with
  | .gauge => v.merge .tick
  | .counter => .ok v

def replay (v : Memory) (m : Metric) : Except Rejection Memory := do
  m.validate
  v.merge m

end Memory

namespace Staged

open SortedMap (Sorted sorted_insert insert_insert insert_comm find?_insert)

theorem foldl_insert_comm (base changes : Memory) {name : String} (v : Value)
    (h : ∀ e ∈ changes, e.1 ≠ name) :
    changes.foldl (fun b e => b.insert e.1 e.2) (base.insert name v) =
      SortedMap.insert name v (changes.foldl (fun b e => b.insert e.1 e.2) base) := by
  induction changes generalizing base with
  | nil => rfl
  | cons e rest ih =>
    simp only [List.foldl_cons]
    rw [insert_comm base (h e (by simp)) e.2 v, ih _ fun e he => h e (by simp [he])]

theorem commit_insert {s : Staged} (h : Sorted s.changes) (name : String) (v : Value) :
    commit { s with changes := s.changes.insert name v } = s.commit.insert name v := by
  obtain ⟨base, changes⟩ := s
  simp only [commit] at h ⊢
  induction changes generalizing base with
  | nil => rfl
  | cons e rest ih =>
    obtain ⟨n, w⟩ := e
    obtain ⟨hhead, hrest⟩ := List.pairwise_cons.1 h
    simp only [SortedMap.insert]
    split_ifs with hlt heq
    · -- the new change comes before all others, none of which has its name
      have hne : ∀ e ∈ (n, w) :: rest, e.1 ≠ name := by
        intro e he
        rcases List.mem_cons.1 he with rfl | he
        · exact hlt.ne'
        · exact (hlt.trans (hhead e he)).ne'
      exact foldl_insert_comm base _ v hne
    · subst heq
      simp only [List.foldl_cons]
      rw [← foldl_insert_comm _ rest v fun e he => (hhead e he).ne', insert_insert]
    · exact ih _ hrest

theorem find?_commit {s : Staged} (h : Sorted s.changes) (name : String) :
    s.commit.find? name = s.find? name := by
  obtain ⟨base, changes⟩ := s
  simp only [commit, find?] at h ⊢
  induction changes generalizing base with
  | nil => rfl
  | cons e rest ih =>
    obtain ⟨n, w⟩ := e
    obtain ⟨hhead, hrest⟩ := List.pairwise_cons.1 h
    rw [List.foldl_cons, ih _ hrest, find?_insert]
    by_cases hn : name = n
    · subst hn
      have absent : SortedMap.find? rest name = none :=
        SortedMap.find?_eq_none_iff.2 fun e he => (hhead e he).ne'
      rw [absent]
      simp [SortedMap.find?]
    · simp [SortedMap.find?, List.lookup_cons, beq_false_of_ne hn, hn]

/-- What is staged stands for the map that its commit leaves. -/
structure Shows (s : Staged) (v : Memory) : Prop where
  sorted : Sorted s.changes
  commit : s.commit = v

theorem shows_start (v : Memory) : Shows ⟨v, []⟩ v := ⟨SortedMap.sorted_nil, rfl⟩

theorem merge_alike {s : Staged} {v : Memory} (h : s.Shows v) (m : Metric) :
    Alike id Shows (s.merge m) (v.merge m) := by
  obtain ⟨hs, rfl⟩ := h
  have keep (value : Value) : Shows { s with changes := s.changes.insert m.name value }
      (s.commit.insert m.name value) := ⟨sorted_insert hs _ _, commit_insert hs _ _⟩
  simp only [merge, Memory.merge]
  rw [find?_commit hs]
  cases s.find? m.name with
  | none => exact .ok (keep _)
  | some stored =>
    refine (Alike.refl (stored.merge m.name m.value)).bind ?_
    rintro value _ rfl
    exact .ok (keep value)

theorem write_alike {s : Staged} {v : Memory} (h : s.Shows v) (m : Metric) :
    Alike id Shows (s.write m) (v.write m) := by
  refine (Alike.refl m.validate).bind fun _ _ _ => (merge_alike h m).bind fun s v h => ?_
  cases m.kind with
  | gauge => exact merge_alike h .tick
  | counter => exact .ok h

theorem replay_alike {s : Staged} {v : Memory} (h : s.Shows v) (m : Metric) :
    Alike id Shows (s.replay m) (v.replay m) :=
  (Alike.refl m.validate).bind fun _ _ _ => merge_alike h m

end Staged

namespace Memory

theorem stage_eq {v : Memory} {stages : Staged → Except Rejection Staged}
    {r : Except Rejection Memory} (h : Alike id Staged.Shows (stages ⟨v, []⟩) r) :
    v.stage stages = r := by
  unfold stage
  generalize stages ⟨v, []⟩ = staged at h ⊢
  cases h with
  | error why => rfl
  | ok h => rw [← h.commit]; rfl

theorem set_eq_write (v : Memory) (m : Metric) : v.set m = v.write m :=
  stage_eq (Staged.write_alike (Staged.shows_start v) m)

theorem setAll_eq_foldlM (v : Memory) (batch : List Metric) :
    v.setAll batch = batch.foldlM write v :=
  stage_eq (Alike.foldlM (fun _ _ m h => Staged.write_alike h m) batch (Staged.shows_start v))

theorem restore_eq_replay (v : Memory) (m : Metric) : v.restore m = v.replay m :=
  stage_eq (Staged.replay_alike (Staged.shows_start v) m)

end Memory
end Telemetry
