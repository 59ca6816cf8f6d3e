import Mathlib.Data.List.Induction
import Telemetry.Host.Cores
import Telemetry.Proofs.Outcome

/-! What the share of a core is measured against. A sampler remembers the counters of the last look
that could be read, without their labels, so a core is measured against the one that stood in its
place then. That is the core itself as long as it keeps its place among the lines. -/

namespace Telemetry.Host

namespace CoreTimes

/-- A line of a core as its label and its counters. -/
def labelled? (line : List Char) : Option (String × CoreTimes) :=
  match Text.words line, ofLine line with
  | label :: _, .ok (some times) => some (String.ofList label, times)
  | _, _ => none

def entries (content : String) : List (String × CoreTimes) :=
  (Text.lines content.toList).filterMap labelled?

theorem map_labelled?_of_ofLine {line : List Char} {found : Option CoreTimes}
    (h : ofLine line = .ok found) : (labelled? line).map (·.2) = found := by
  unfold labelled?
  cases hw : Text.words line with
  | nil =>
    simp only [ofLine, hw, Except.ok.injEq] at h
    exact h
  | cons label fields =>
    rw [h]
    cases found <;> rfl

theorem filterMap_of_mapM_ofLine {lines : List (List Char)} {found : List (Option CoreTimes)}
    (h : lines.mapM ofLine = .ok found) :
    found.filterMap id = (lines.filterMap labelled?).map (·.2) := by
  induction lines generalizing found with
  | nil =>
    obtain rfl := Except.ok.inj h
    rfl
  | cons line lines ih =>
    rw [List.mapM_cons] at h
    obtain ⟨first, hfirst, h⟩ := bind_eq_ok_iff.1 h
    obtain ⟨rest, hrest, h⟩ := bind_eq_ok_iff.1 h
    obtain rfl := Except.ok.inj h
    have hentry := map_labelled?_of_ofLine hfirst
    cases he : labelled? line with
    | none =>
      obtain rfl : none = first := by rw [← hentry, he]; rfl
      simpa [he] using ih hrest
    | some e =>
      obtain rfl : some e.2 = first := by rw [← hentry, he]; rfl
      simpa [he] using ih hrest

theorem eq_map_entries_of_parse {content : String} {cores : List CoreTimes}
    (h : parse content = .ok cores) : cores = (entries content).map (·.2) := by
  obtain ⟨found, hfound, h⟩ := bind_eq_ok_iff.1 h
  rw [entries, ← filterMap_of_mapM_ofLine hfound]
  split at h
  · cases h
  · exact (Except.ok.inj h).symm

end CoreTimes

namespace Sampler

open CoreTimes (entries)

/-- The sampler after one more look, whether it could be read or not. -/
def look (s : Sampler) (content : String) : Sampler :=
  match s.sample content with
  | .ok r => r.1
  | .error _ => s

def after (s : Sampler) (contents : List String) : Sampler := contents.foldl look s

/-- The entries of the last of the looks that could be read; none if there was no such look. -/
def lastEntries (contents : List String) : List (String × CoreTimes) :=
  match contents.reverse.find? fun c => (CoreTimes.parse c).toBool with
  | some content => entries content
  | none => []

theorem sample_of_parse (s : Sampler) {content : String} {cores : List CoreTimes}
    (h : CoreTimes.parse content = .ok cores) :
    s.sample content = .ok (⟨cores⟩, cores.mapIdx fun i now => gauge s.earlier now i) := by
  rw [sample, h]
  rfl

theorem look_of_error (s : Sampler) {content : String} {why : Error}
    (h : CoreTimes.parse content = .error why) : s.look content = s := by
  rw [look, sample, h]
  rfl

theorem after_concat (s : Sampler) (contents : List String) (content : String) :
    s.after (contents ++ [content]) = (s.after contents).look content := by
  rw [after, List.foldl_append]
  rfl

theorem lastEntries_concat (contents : List String) (content : String) :
    lastEntries (contents ++ [content]) =
      if (CoreTimes.parse content).toBool then entries content else lastEntries contents := by
  cases h : (CoreTimes.parse content).toBool <;> simp [lastEntries, h]

/-- A look that can be read is remembered, and one that cannot be read changes nothing. -/
theorem earlier_after (contents : List String) :
    (start.after contents).earlier = (lastEntries contents).map (·.2) := by
  induction contents using List.reverseRecOn with
  | nil => rfl
  | append_singleton contents content ih =>
    rw [after_concat, lastEntries_concat]
    cases h : CoreTimes.parse content with
    | error why =>
      rw [look_of_error _ h]
      exact ih
    | ok cores =>
      rw [look, sample_of_parse _ h]
      exact CoreTimes.eq_map_entries_of_parse h

def own (earlier : List (String × CoreTimes)) (label : String) : CoreTimes :=
  (earlier.lookup label).getD .zero

/-- A label stands in the same place as the last time, or is new behind all that stood there. -/
def KeepsPlace (earlier : List (String × CoreTimes)) (i : ℕ) (label : String) : Prop :=
  earlier[i]?.map (·.1) = some label ∨ earlier.length ≤ i ∧ label ∉ earlier.map (·.1)

theorem lookup_of_mem {entries : List (String × CoreTimes)} {label : String} {times : CoreTimes}
    (hlabels : (entries.map (·.1)).Nodup) (h : (label, times) ∈ entries) :
    entries.lookup label = some times := by
  induction entries with
  | nil => cases h
  | cons e entries ih =>
    obtain ⟨hnew, hlabels⟩ := List.nodup_cons.1 hlabels
    rcases List.mem_cons.1 h with rfl | h
    · exact List.lookup_cons_self
    · have other : label ≠ e.1 := by
        rintro rfl
        exact hnew (List.mem_map.2 ⟨_, h, rfl⟩)
      rw [List.lookup_cons, beq_false_of_ne other]
      exact ih hlabels h

theorem getD_eq_own {earlier : List (String × CoreTimes)} (hlabels : (earlier.map (·.1)).Nodup)
    {i : ℕ} {label : String} (h : KeepsPlace earlier i label) :
    (earlier.map (·.2)).getD i .zero = own earlier label := by
  rw [List.getD_eq_getElem?_getD, List.getElem?_map, own]
  rcases h with hplace | ⟨hend, hnew⟩
  · obtain ⟨⟨_, times⟩, hentry, rfl⟩ := Option.map_eq_some_iff.1 hplace
    rw [hentry, lookup_of_mem hlabels (List.mem_of_getElem? hentry)]
    rfl
  · have absent : earlier.lookup label = none := by
      rw [List.lookup_eq_none_iff]
      intro e he
      simpa using fun h : label = e.1 => hnew (h ▸ List.mem_map_of_mem he)
    rw [List.getElem?_eq_none hend, absent]
    rfl

/-- The share of a core is measured against the counters that stood in its place the last time that
the file could be read. They are its own if it has kept its place. -/
theorem cores_are_measured_by_place (contents : List String) {content : String}
    {cores : List CoreTimes} (h : CoreTimes.parse content = .ok cores) :
    ∃ gauges, (start.after contents).sample content = .ok (⟨cores⟩, gauges) ∧
      gauges.length = (entries content).length ∧
      ∀ i label now, (entries content)[i]? = some (label, now) →
        gauges[i]? = some ⟨"CPUutilization" ++ toString (i + 1), .gauge (now.utilization
          (((lastEntries contents).map (·.2)).getD i .zero))⟩ ∧
        (((lastEntries contents).map (·.1)).Nodup → KeepsPlace (lastEntries contents) i label →
          gauges[i]? = some ⟨"CPUutilization" ++ toString (i + 1), .gauge (now.utilization
            (own (lastEntries contents) label))⟩) := by
  refine ⟨_, sample_of_parse _ h, ?_, ?_⟩
  · rw [List.length_mapIdx, CoreTimes.eq_map_entries_of_parse h, List.length_map]
  intro i label now hentry
  have hnow : cores[i]? = some now := by
    rw [CoreTimes.eq_map_entries_of_parse h, List.getElem?_map, hentry]
    rfl
  have place : (cores.mapIdx fun i now => gauge (start.after contents).earlier now i)[i]? =
      some ⟨"CPUutilization" ++ toString (i + 1), .gauge (now.utilization
        (((lastEntries contents).map (·.2)).getD i .zero))⟩ := by
    rw [List.getElem?_mapIdx, hnow, earlier_after]
    rfl
  refine ⟨place, fun hlabels hkeeps => ?_⟩
  rw [place, getD_eq_own hlabels hkeeps]

/-- The second of three cores goes offline. The first is measured against its own counters. The
third, which was busy all the time since, is measured against those of the second and is said to be
idle. -/
theorem remaining_core_is_measured_against_another :
    let before := "cpu0 0 0 0 100\ncpu1 100 0 0 0\ncpu2 0 0 0 100\n"
    let content := "cpu0 0 0 0 100\ncpu2 100 0 0 100\n"
    ∃ cores gauges, CoreTimes.parse content = .ok cores ∧
      (start.after [before]).sample content = .ok (⟨cores⟩, gauges) ∧
      gauges[0]? = some ⟨"CPUutilization1", .gauge (CoreTimes.utilization ⟨100, 100⟩
        (own (lastEntries [before]) "cpu0"))⟩ ∧
      (entries content)[1]? = some ("cpu2", ⟨100, 200⟩) ∧
      gauges[1]? = some ⟨"CPUutilization2", .gauge .zero⟩ ∧
      CoreTimes.utilization ⟨100, 200⟩ (own (lastEntries [before]) "cpu2") = .ofNat 100 := by
  intro before content
  have hparse : CoreTimes.parse content = .ok [⟨100, 100⟩, ⟨100, 200⟩] := by decide
  obtain ⟨gauges, hsample, -, hgauges⟩ := cores_are_measured_by_place [before] hparse
  have hfirst : (entries content)[0]? = some ("cpu0", ⟨100, 100⟩) := by decide
  have hentry : (entries content)[1]? = some ("cpu2", ⟨100, 200⟩) := by decide
  have hlabels : ((lastEntries [before]).map (·.1)).Nodup := by decide
  have hplace : KeepsPlace (lastEntries [before]) 0 "cpu0" := Or.inl (by decide)
  refine ⟨_, gauges, hparse, hsample, (hgauges 0 _ _ hfirst).2 hlabels hplace, hentry, ?_,
    by decide +kernel⟩
  rw [(hgauges 1 _ _ hentry).1]
  decide +kernel

end Sampler
end Telemetry.Host
