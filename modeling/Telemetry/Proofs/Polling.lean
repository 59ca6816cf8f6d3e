import Telemetry.Proofs.Accounts
import Telemetry.Proofs.Sources

/-! What polls leave in memory. Nothing else is written there, so it holds gauges and the count of
them, and a batch of gauges is refused for the values in it or for the count alone. A poll therefore
lands whole or not at all, and it lands unless a load average is not finite. -/

namespace Telemetry

theorem Value.le_delta (value : Value) : -2 ^ 63 ≤ value.delta := by
  cases value with
  | gauge x => simp [delta]
  | counter n => exact Int64.le_toInt n

theorem Metric.ne_pollCount {m : Metric} (hk : m.kind = .gauge) (hm : m.validate = .ok ()) :
    m.name ≠ pollCount := by
  obtain ⟨name, value⟩ := m
  cases value with
  | counter n => cases hk
  | gauge x => exact ((Metric.validate_eq_ok_iff.1 hm).2 x rfl).1

namespace Memory

/-- Nothing but gauges and the count of them. -/
def Polled (v : Memory) : Prop :=
  ∀ name value, v.find? name = some value → (value.kind = .counter ↔ name = pollCount)

def counted (v : Memory) : ℤ :=
  match v.find? pollCount with
  | some value => value.delta
  | none => 0

theorem polled_empty : Polled .empty := fun _ _ h => by cases h

variable {v w v' : Memory} {name : String} {x : Real64}

theorem Polled.insert (hv : v.Polled) {value : Value}
    (h : value.kind = .counter ↔ name = pollCount) : Polled (v.insert name value) := by
  intro key found hfound
  rw [SortedMap.find?_insert] at hfound
  split_ifs at hfound with hkey
  · obtain rfl := Option.some.inj hfound
    rw [hkey]
    exact h
  · exact hv key found hfound

theorem Polled.merge_tick_eq_ok_iff (hv : v.Polled) :
    v.merge .tick = .ok v' ↔
      ∃ count : Int64, count.toInt = v.counted + 1 ∧ v' = v.insert pollCount (.counter count) := by
  have hname : (Metric.tick).name = pollCount := rfl
  have hone : (1 : Int64).toInt = 1 := rfl
  rw [merge_eq_ok_iff, counted, hname]
  cases hf : v.find? pollCount with
  | none =>
    simp only [true_and, reduceCtorEq, false_and, exists_false, or_false]
    constructor
    · rintro ⟨x, rfl, rfl⟩
      exact ⟨1, rfl, rfl⟩
    · rintro ⟨count, hcount, rfl⟩
      obtain rfl : count = 1 := Int64.toInt_inj.1 hcount
      exact ⟨_, rfl, rfl⟩
  | some value =>
    cases value with
    | gauge x => exact absurd ((hv _ _ hf).2 rfl) nofun
    | counter n =>
      simp only [reduceCtorEq, false_and, false_or, Option.some.injEq, exists_eq_left',
        Metric.tick, Value.merge_counter_eq_ok_iff, Value.delta, hone]
      grind

theorem counted_insert_gauge (hname : name ≠ pollCount) (v : Memory) (x : Real64) :
    counted (v.insert name (.gauge x)) = v.counted := by
  rw [counted, counted, SortedMap.find?_insert, if_neg (Ne.symm hname)]

theorem counted_insert_count (v : Memory) (count : Int64) :
    counted (v.insert pollCount (.counter count)) = count.toInt := by
  rw [counted, SortedMap.find?_insert, if_pos rfl]
  rfl

theorem Polled.write_gauge_eq_ok_iff (hv : v.Polled)
    (hm : (Metric.mk name (.gauge x)).validate = .ok ()) :
    v.write ⟨name, .gauge x⟩ = .ok v' ↔ ∃ count : Int64, count.toInt = v.counted + 1 ∧
      v' = (v.insert name (.gauge x)).insert pollCount (.counter count) := by
  have hname : name ≠ pollCount := Metric.ne_pollCount rfl hm
  have free (n : Int64) : v.find? name ≠ some (.counter n) := fun hn => hname ((hv _ _ hn).1 rfl)
  have hgauge : Polled (v.insert name (.gauge x)) := hv.insert (iff_of_false nofun hname)
  have hwrite : v.write ⟨name, .gauge x⟩ = merge (v.insert name (.gauge x)) .tick := by
    rw [write, hm, merge_gauge free]
    rfl
  rw [hwrite, hgauge.merge_tick_eq_ok_iff, counted_insert_gauge hname]

/-- What there is once a batch of gauges has landed: all of them and their count, and else what
there was before. -/
structure Lands (v : Memory) (batch : List Metric) (v' : Memory) : Prop where
  polled : v'.Polled
  counted : v'.counted = v.counted + batch.length
  stored : (batch.map (·.name)).Nodup → ∀ m ∈ batch, v'.find? m.name = some m.value
  others : ∀ name, (∀ m ∈ batch, m.name ≠ name) → name ≠ pollCount → v'.find? name = v.find? name

theorem Polled.lands_nil (hv : v.Polled) : v.Lands [] v where
  polled := hv
  counted := by simp
  stored := by simp
  others := fun _ _ _ => rfl

variable {m : Metric} {batch : List Metric}

theorem Lands.cons (hname : m.name ≠ pollCount) (h : v.Lands [m] w) (hrest : w.Lands batch v') :
    v.Lands (m :: batch) v' where
  polled := hrest.polled
  counted := by
    rw [hrest.counted, h.counted]
    push_cast [List.length_cons, List.length_nil]
    omega
  stored := by
    intro hnames e he
    obtain ⟨hnew, hnames⟩ := List.nodup_cons.1 hnames
    rcases List.mem_cons.1 he with rfl | he
    · have hlater : ∀ f ∈ batch, f.name ≠ e.name := fun f hf hfe =>
        hnew (List.mem_map.2 ⟨f, hf, hfe⟩)
      rw [hrest.others _ hlater hname]
      exact h.stored (List.nodup_singleton _) _ (List.mem_singleton_self _)
    · exact hrest.stored hnames e he
  others := by
    intro name hbatch hne
    rw [List.forall_mem_cons] at hbatch
    rw [hrest.others name hbatch.2 hne, h.others name (by simpa using hbatch.1) hne]

theorem Polled.lands_of_write (hv : v.Polled) (hk : m.kind = .gauge) (hm : m.validate = .ok ())
    (h : v.write m = .ok v') : v.Lands [m] v' := by
  obtain ⟨name, value⟩ := m
  cases value with
  | counter n => cases hk
  | gauge x =>
    have hname : name ≠ pollCount := Metric.ne_pollCount hk hm
    obtain ⟨count, hcount, rfl⟩ := (hv.write_gauge_eq_ok_iff hm).1 h
    have hgauge : Polled (v.insert name (.gauge x)) := hv.insert (iff_of_false nofun hname)
    refine ⟨hgauge.insert (iff_of_true rfl rfl), ?_, fun _ e he => ?_, fun key hkey hne => ?_⟩
    · rw [counted_insert_count, hcount]
      rfl
    · obtain rfl := List.mem_singleton.1 he
      rw [SortedMap.find?_insert, if_neg hname, SortedMap.find?_insert, if_pos rfl]
    · have hother : key ≠ name := Ne.symm (hkey _ (List.mem_singleton_self _))
      rw [SortedMap.find?_insert, if_neg hne, SortedMap.find?_insert, if_neg hother]

theorem exists_count (v : Memory) (room : v.counted < Int64.maxValue.toInt) :
    ∃ count : Int64, count.toInt = v.counted + 1 := by
  have hmax : Int64.maxValue.toInt = 2 ^ 63 - 1 := rfl
  have hleast : -2 ^ 63 ≤ v.counted := by
    unfold counted
    cases v.find? pollCount with
    | none => decide
    | some value => exact value.le_delta
  exact ⟨Int64.ofInt (v.counted + 1), Int64.toInt_ofInt_of_le (by omega) (by omega)⟩

theorem Polled.exists_write (hv : v.Polled) (hk : m.kind = .gauge) (hm : m.validate = .ok ())
    (room : v.counted < Int64.maxValue.toInt) : ∃ v', v.write m = .ok v' := by
  obtain ⟨name, value⟩ := m
  cases value with
  | counter n => cases hk
  | gauge x =>
    obtain ⟨count, hcount⟩ := v.exists_count room
    exact ⟨_, (hv.write_gauge_eq_ok_iff hm).2 ⟨count, hcount, rfl⟩⟩

/-- A batch of valid gauges is accepted if all of them can be counted. -/
theorem Polled.exists_setAll (hv : v.Polled) (hk : ∀ m ∈ batch, m.kind = .gauge)
    (hm : ∀ m ∈ batch, m.validate = .ok ())
    (room : v.counted + batch.length ≤ Int64.maxValue.toInt) : ∃ v', v.setAll batch = .ok v' := by
  simp only [setAll_eq_foldlM]
  induction batch generalizing v with
  | nil => exact ⟨v, rfl⟩
  | cons m batch ih =>
    rw [List.forall_mem_cons] at hk hm
    rw [List.length_cons] at room
    obtain ⟨w, hw⟩ := hv.exists_write hk.1 hm.1 (by omega)
    have hfirst := hv.lands_of_write hk.1 hm.1 hw
    have hcounted : w.counted = v.counted + 1 := hfirst.counted
    obtain ⟨v', hv'⟩ := ih hfirst.polled hk.2 hm.2 (by omega)
    exact ⟨v', by rw [List.foldlM_cons, hw]; exact hv'⟩

theorem validate_of_setAll (h : v.setAll batch = .ok v') (hm : m ∈ batch) : m.validate = .ok () :=
  (apply_posted (show v.apply (.setAll batch) = .ok v' from h)).valid m (mem_entries.2 (Or.inl hm))

theorem Polled.lands_of_setAll (hv : v.Polled) (hk : ∀ m ∈ batch, m.kind = .gauge)
    (h : v.setAll batch = .ok v') : v.Lands batch v' := by
  have hm : ∀ m ∈ batch, m.validate = .ok () := fun m => validate_of_setAll h
  rw [setAll_eq_foldlM] at h
  induction batch generalizing v with
  | nil =>
    cases h
    exact hv.lands_nil
  | cons m batch ih =>
    rw [List.foldlM_cons, bind_eq_ok_iff] at h
    obtain ⟨w, hw, h⟩ := h
    rw [List.forall_mem_cons] at hk hm
    have hfirst := hv.lands_of_write hk.1 hm.1 hw
    have hname : m.name ≠ pollCount := Metric.ne_pollCount hk.1 hm.1
    exact hfirst.cons hname (ih hfirst.polled hk.2 h hm.2)

/-- A batch of gauges that can all be counted is refused for a gauge that is not valid. -/
theorem Polled.exists_invalid_of_setAll (hv : v.Polled) (hk : ∀ m ∈ batch, m.kind = .gauge)
    (room : v.counted + batch.length ≤ Int64.maxValue.toInt) {why : Rejection}
    (h : v.setAll batch = .error why) : ∃ m ∈ batch, m.validate = .error why := by
  rw [setAll_eq_foldlM, foldlM_eq_error_iff] at h
  obtain ⟨before, m, after, w, rfl, hbefore, hw⟩ := h
  rw [← setAll_eq_foldlM] at hbefore
  simp only [List.forall_mem_append, List.forall_mem_cons] at hk
  simp only [List.length_append, List.length_cons, Nat.cast_add, Nat.cast_one] at room
  have hlanded := hv.lands_of_setAll hk.1 hbefore
  refine ⟨m, by simp, ?_⟩
  cases hm : m.validate with
  | ok =>
    have hcounted := hlanded.counted
    obtain ⟨w', hw'⟩ := hlanded.polled.exists_write hk.2.1 hm (by omega)
    rw [hw'] at hw
    cases hw
  | error reason =>
    rw [write, hm] at hw
    cases hw
    rfl

end Memory

namespace Host

/-- What a poll comes upon: the files, and a number from outside. -/
structure Look where
  directory : Directory
  random : Real64

namespace Poller

/-- The poller after one more poll, whatever came of it. -/
def next (p : Poller) (root : String) (look : Look) : Poller :=
  (p.poll look.directory root look.random).1

def after (p : Poller) (root : String) (looks : List Look) : Poller :=
  looks.foldl (fun p look => p.next root look) p

variable {p p' : Poller} {root : String} {look : Look} {batch : List Metric}
  {answer : Except Rejection Unit}

theorem poll_cases (h : p.poll look.directory root look.random = (p', batch, answer)) :
    batch = (collect look.directory root look.random p.sampler).2 ∧
      p'.sampler = (collect look.directory root look.random p.sampler).1 ∧
      ((p.memory.setAll batch = .ok p'.memory ∧ answer = .ok ()) ∨
        ∃ why, p.memory.setAll batch = .error why ∧ p'.memory = p.memory ∧ answer = .error why) := by
  unfold poll at h
  simp only at h
  split at h
  · next memory hset =>
    cases h
    exact ⟨rfl, rfl, Or.inl ⟨hset, rfl⟩⟩
  · next why hset =>
    cases h
    exact ⟨rfl, rfl, Or.inr ⟨why, hset, rfl, rfl⟩⟩

theorem polled_next (hp : p.memory.Polled) (root : String) (look : Look) :
    (p.next root look).memory.Polled := by
  obtain ⟨⟨p', batch, answer⟩, h⟩ : ∃ r, p.poll look.directory root look.random = r := ⟨_, rfl⟩
  obtain ⟨hbatch, -, hset⟩ := poll_cases h
  rw [next, h]
  rcases hset with ⟨hset, -⟩ | ⟨why, -, hmemory, -⟩
  · refine (hp.lands_of_setAll (fun m hm => ?_) hset).polled
    rw [hbatch] at hm
    exact (mem_collect.1 hm).kind
  · rw [hmemory]
    exact hp

theorem polled_after (hp : p.memory.Polled) (root : String) (looks : List Look) :
    (p.after root looks).memory.Polled := by
  induction looks generalizing p with
  | nil => exact hp
  | cons look looks ih => exact ih (polled_next hp root look)

/-- How a poll ends: all that is on offer lands at once unless a load average is not finite, and
then nothing does. -/
structure Ends (p : Poller) (root : String) (look : Look) (p' : Poller) (batch : List Metric)
    (answer : Except Rejection Unit) : Prop where
  collected (m : Metric) : m ∈ batch ↔ Offers look.directory root look.random p.sampler m
  valid : (∀ m ∈ batch, m.validate = .ok ()) ↔
    ∀ load, Reads look.directory root "loadavg" Load.parse load → load.IsFinite
  landed : (∀ load, Reads look.directory root "loadavg" Load.parse load → load.IsFinite) →
    p.memory.counted + batch.length ≤ Int64.maxValue.toInt →
      answer = .ok () ∧ p'.memory.counted = p.memory.counted + batch.length ∧
        (∀ m ∈ batch, p'.memory.find? m.name = some m.value) ∧
        ∀ name, (∀ m ∈ batch, m.name ≠ name) → name ≠ pollCount →
          p'.memory.find? name = p.memory.find? name
  refused (load : Load) : Reads look.directory root "loadavg" Load.parse load → ¬load.IsFinite →
    p'.memory = p.memory ∧ ∃ why, answer = .error why ∧
      (p.memory.counted + batch.length ≤ Int64.maxValue.toInt →
        ∃ m ∈ load.metrics, ¬FiniteGauge m ∧ why = .invalidValue .gauge m.value.text)
  remembered (cores : List CoreTimes) :
    Reads look.directory root "stat" CoreTimes.parse cores → p'.sampler = ⟨cores⟩
  forgot : (∀ cores, ¬Reads look.directory root "stat" CoreTimes.parse cores) →
    p'.sampler = p.sampler

theorem nodup_names (h : batch = (collect look.directory root look.random p.sampler).2) :
    (batch.map (·.name)).Nodup := by
  obtain ⟨n, hnames⟩ := names_collect look.directory root look.random p.sampler
  rw [h]
  exact (nodup_namesOnOffer n).sublist hnames

theorem valid_iff (hrandom : look.random.isFinite) :
    (∀ m, Offers look.directory root look.random p.sampler m → m.validate = .ok ()) ↔
      ∀ load, Reads look.directory root "loadavg" Load.parse load → load.IsFinite := by
  constructor
  · intro h load hload
    refine (Load.isFinite_iff load).2 fun m hm => ?_
    have offered : Offers look.directory root look.random p.sampler m := .load hload hm
    rcases offered.validate with ⟨-, hfinite⟩ | ⟨hinvalid, -⟩
    · exact hfinite
    · rw [h m offered] at hinvalid
      cases hinvalid
  · intro h m offered
    rcases offered.validate with ⟨hvalid, -⟩ | ⟨-, hinfinite⟩
    · exact hvalid
    · rcases offered.finiteGauge_or hrandom with hfinite | ⟨load, hload, hm⟩
      · exact absurd hfinite hinfinite
      · exact absurd ((Load.isFinite_iff load).1 (h load hload) m hm) hinfinite

/-- Whatever happened to a new poller before, a poll that comes upon a finite number lands whole or
not at all, and it is the load averages that decide. -/
theorem infinite_load_averages_cost_the_poll (root : String) (looks : List Look) (look : Look)
    (hrandom : look.random.isFinite) {p' : Poller} {batch : List Metric}
    {answer : Except Rejection Unit}
    (h : (start.after root looks).poll look.directory root look.random = (p', batch, answer)) :
    Ends (start.after root looks) root look p' batch answer := by
  have hp : (start.after root looks).memory.Polled := polled_after Memory.polled_empty root looks
  obtain ⟨hbatch, hsampler, hset⟩ := poll_cases h
  generalize start.after root looks = p at *
  have collected (m : Metric) : m ∈ batch ↔ Offers look.directory root look.random p.sampler m := by
    rw [hbatch, mem_collect]
  have hkind : ∀ m ∈ batch, m.kind = .gauge := fun m hm => ((collected m).1 hm).kind
  have valid : (∀ m ∈ batch, m.validate = .ok ()) ↔
      ∀ load, Reads look.directory root "loadavg" Load.parse load → load.IsFinite := by
    simp only [collected]
    exact valid_iff hrandom
  refine ⟨collected, valid, fun hloads room => ?_, fun load hload hnot => ?_, ?_, ?_⟩
  · -- all are valid and can be counted
    obtain ⟨v, hv⟩ := hp.exists_setAll hkind (valid.2 hloads) room
    rcases hset with ⟨hset, hanswer⟩ | ⟨why, hset, -, -⟩
    · have landed := hp.lands_of_setAll hkind hset
      exact ⟨hanswer, landed.counted, landed.stored (nodup_names hbatch), landed.others⟩
    · rw [hv] at hset
      cases hset
  · rcases hset with ⟨hset, -⟩ | ⟨why, hset, hmemory, hanswer⟩
    · have hvalid := valid.1 fun m hm => Memory.validate_of_setAll hset hm
      exact absurd (hvalid load hload) hnot
    · refine ⟨hmemory, why, hanswer, fun room => ?_⟩
      obtain ⟨m, hm, hwhy⟩ := hp.exists_invalid_of_setAll hkind room hset
      have offered := (collected m).1 hm
      rcases offered.validate with ⟨hvalid, -⟩ | ⟨hinvalid, hinfinite⟩
      · rw [hvalid] at hwhy
        cases hwhy
      · rcases offered.finiteGauge_or hrandom with hfinite | ⟨other, hother, hm⟩
        · exact absurd hfinite hinfinite
        · obtain rfl := hother.unique hload
          exact ⟨m, hm, hinfinite, Except.error.inj (hwhy.symm.trans hinvalid)⟩
  · intro cores hcores
    rw [hsampler, sampler_collect, pollCores_of_reads hcores]
  · intro hcores
    rw [hsampler, sampler_collect, pollCores_of_not_reads hcores]

/-- The second of two polls comes upon an infinite load average. The memory of the host that it
has read as well is not stored. -/
theorem memory_reading_is_lost :
    let first : Look := ⟨⟨[("/proc/loadavg", "0.5 0.25 0.125 1/100 42\n".toUTF8),
      ("/proc/meminfo", "MemTotal: 1000 kB\nMemFree: 10 kB\n".toUTF8)], ["/proc"]⟩, .zero⟩
    let second : Look := ⟨⟨[("/proc/loadavg", "inf 0 0".toUTF8),
      ("/proc/meminfo", "MemTotal: 2000 kB\nMemFree: 10 kB\n".toUTF8)], ["/proc"]⟩, .zero⟩
    let p := start.after "/proc" [first]
    ∃ p' batch why, p.poll second.directory "/proc" second.random = (p', batch, .error why) ∧
      ⟨"TotalMemory", .gauge (.ofNat 2048000)⟩ ∈ batch ∧
      p.memory.find? "TotalMemory" = some (.gauge (.ofNat 1024000)) ∧
      p'.memory.find? "TotalMemory" = some (.gauge (.ofNat 1024000)) := by
  intro first second p
  have hload : Reads first.directory "/proc" "loadavg" Load.parse
      ⟨⟨0x3fe0000000000000⟩, ⟨0x3fd0000000000000⟩, ⟨0x3fc0000000000000⟩⟩ :=
    ⟨"0.5 0.25 0.125 1/100 42\n", by decide, by decide +kernel⟩
  have hinfinite : Reads second.directory "/proc" "loadavg" Load.parse
      ⟨.infinity false, .zero, .zero⟩ := ⟨"inf 0 0", by decide, by decide +kernel⟩
  have hbefore : Reads first.directory "/proc" "meminfo" MemoryInfo.parse
      ⟨1024000, 10240, none⟩ :=
    ⟨"MemTotal: 1000 kB\nMemFree: 10 kB\n", by decide, by decide +kernel⟩
  have hnow : Reads second.directory "/proc" "meminfo" MemoryInfo.parse ⟨2048000, 10240, none⟩ :=
    ⟨"MemTotal: 2000 kB\nMemFree: 10 kB\n", by decide, by decide +kernel⟩
  obtain ⟨⟨p₁, batch₁, answer₁⟩, h₁⟩ :
    ∃ r, start.poll first.directory "/proc" first.random = r := ⟨_, rfl⟩
  obtain ⟨⟨p₂, batch₂, answer₂⟩, h₂⟩ :
    ∃ r, p.poll second.directory "/proc" second.random = r := ⟨_, rfl⟩
  have ends₁ := infinite_load_averages_cost_the_poll "/proc" [] first (by decide) h₁
  have ends₂ := infinite_load_averages_cost_the_poll "/proc" [first] second (by decide) h₂
  -- the first poll lands
  have hlength : (start.poll first.directory "/proc" first.random).2.1.length = 6 := by
    decide +kernel
  rw [h₁] at hlength
  have room : Memory.counted .empty + batch₁.length ≤ Int64.maxValue.toInt := by
    rw [hlength]
    decide
  have hfinite : ∀ load, Reads first.directory "/proc" "loadavg" Load.parse load →
      load.IsFinite := by
    intro load h
    obtain rfl := h.unique hload
    decide
  obtain ⟨-, -, hstored, -⟩ := ends₁.landed hfinite room
  have htotal := hstored _ ((ends₁.collected _).2 (.memory hbefore (.head _)))
  have hp : p = p₁ := by
    change start.next "/proc" first = p₁
    rw [next, h₁]
  rw [← hp] at htotal
  -- and the second does not
  obtain ⟨hkept, why, rfl, -⟩ := ends₂.refused _ hinfinite (by decide)
  refine ⟨p₂, batch₂, why, h₂, (ends₂.collected _).2 (.memory hnow (.head _)), htotal, ?_⟩
  rw [hkept]
  exact htotal

end Poller
end Host
end Telemetry
