import Telemetry.Host.Poll
import Telemetry.Proofs.Magnitude
import Telemetry.Proofs.Merge
import Telemetry.Proofs.Outcome

/-! What a look at the host collects. Each source that can be read offers its metrics, under names
that no other source has. Quantities and counters have 64 bits, so their gauges are finite; load
averages are whatever number the file has. -/

namespace Telemetry

theorem Text.unsigned?_lt {bound : ℕ} {cs : List Char} {n : ℕ} (h : unsigned? bound cs = some n) :
    n < bound := by
  have below {m : ℕ} (h : (if m < bound then some m else none) = some n) : n < bound := by
    split_ifs at h with hm
    obtain rfl := Option.some.inj h
    exact hm
  unfold unsigned? at h
  split at h
  all_goals
    obtain ⟨m, -, h⟩ := Option.bind_eq_some_iff.1 h
    exact below h

namespace Host

open scoped List

variable {d : Directory} {root : String} {random : Real64} {s : Sampler} {α : Type}

/-- A source can be read, and says this. -/
def Reads (d : Directory) (root file : String) (parse : String → Except Error α) (info : α) : Prop :=
  ∃ content, d.readText? (root ++ "/" ++ file) = some content ∧ parse content = .ok info

theorem Reads.unique {file : String} {parse : String → Except Error α} {info other : α}
    (h : Reads d root file parse info) (ho : Reads d root file parse other) : info = other := by
  obtain ⟨content, hcontent, hparse⟩ := h
  obtain ⟨content', hcontent', hparse'⟩ := ho
  obtain rfl := Option.some.inj (hcontent.symm.trans hcontent')
  exact Except.ok.inj (hparse.symm.trans hparse')

/-- What the sources that can be read have to offer at a look. -/
inductive Offers (d : Directory) (root : String) (random : Real64) (s : Sampler) : Metric → Prop
  | memory {info : MemoryInfo} {m : Metric} (h : Reads d root "meminfo" MemoryInfo.parse info)
    (hm : m ∈ info.metrics) : Offers d root random s m
  | process {info : ProcessInfo} {m : Metric}
    (h : Reads d root "self/status" ProcessInfo.parse info) (hm : m ∈ info.metrics) :
    Offers d root random s m
  | load {load : Load} {m : Metric} (h : Reads d root "loadavg" Load.parse load)
    (hm : m ∈ load.metrics) : Offers d root random s m
  | core {cores : List CoreTimes} {i : ℕ} {now : CoreTimes}
    (h : Reads d root "stat" CoreTimes.parse cores) (hnow : cores[i]? = some now) :
    Offers d root random s (Sampler.gauge s.earlier now i)
  | random : Offers d root random s ⟨"RandomValue", .gauge random⟩

section

variable {file : String} {parse : String → Except Error α} {metrics : α → List Metric}

theorem readSource_eq_ok_iff {content : String} :
    readSource d root file = .ok content ↔ d.readText? (root ++ "/" ++ file) = some content := by
  unfold readSource
  cases d.readText? (root ++ "/" ++ file) <;> simp

theorem readSource_bind_eq_ok_iff {info : α} :
    (readSource d root file).bind parse = .ok info ↔ Reads d root file parse info := by
  simp only [Reads, ← readSource_eq_ok_iff]
  exact bind_eq_ok_iff

theorem mem_metricsOr_iff {r : Except Error (List Metric)} {m : Metric} :
    m ∈ metricsOr r ↔ ∃ ms, r = .ok ms ∧ m ∈ ms := by
  cases r <;> simp [metricsOr, Except.toOption]

theorem mem_metricsOr_source {m : Metric} :
    m ∈ metricsOr ((readSource d root file).bind fun c => (parse c).map metrics) ↔
      ∃ info, Reads d root file parse info ∧ m ∈ metrics info := by
  simp only [mem_metricsOr_iff, readSource_bind_eq_ok_iff, Reads, map_eq_ok_iff]
  grind

end

section

variable {cores : List CoreTimes}

theorem pollCores_of_reads (h : Reads d root "stat" CoreTimes.parse cores) (s : Sampler) :
    pollCores d root s = (⟨cores⟩, cores.mapIdx fun i now => Sampler.gauge s.earlier now i) := by
  obtain ⟨content, hcontent, hparse⟩ := h
  rw [pollCores, readSource_eq_ok_iff.2 hcontent, Except.bind, Sampler.sample, hparse]
  rfl

theorem pollCores_of_not_reads (h : ∀ cores, ¬Reads d root "stat" CoreTimes.parse cores)
    (s : Sampler) : pollCores d root s = (s, []) := by
  unfold pollCores
  cases hr : (readSource d root "stat").bind s.sample with
  | error why => rfl
  | ok r =>
    obtain ⟨content, hcontent, hsample⟩ := readSource_bind_eq_ok_iff.1 hr
    obtain ⟨cores, hparse, -⟩ := bind_eq_ok_iff.1 hsample
    exact absurd ⟨content, hcontent, hparse⟩ (h cores)

end

theorem mem_pollCores {m : Metric} :
    m ∈ (pollCores d root s).2 ↔ ∃ cores, Reads d root "stat" CoreTimes.parse cores ∧
      ∃ i now, cores[i]? = some now ∧ m = Sampler.gauge s.earlier now i := by
  by_cases h : ∃ cores, Reads d root "stat" CoreTimes.parse cores
  · obtain ⟨cores, h⟩ := h
    rw [pollCores_of_reads h, List.mem_mapIdx]
    constructor
    · rintro ⟨i, hi, rfl⟩
      exact ⟨cores, h, i, cores[i], List.getElem?_eq_getElem hi, rfl⟩
    · rintro ⟨other, ho, i, now, hnow, rfl⟩
      obtain rfl := ho.unique h
      obtain ⟨hi, rfl⟩ := List.getElem?_eq_some_iff.1 hnow
      exact ⟨i, hi, rfl⟩
  · rw [pollCores_of_not_reads (not_exists.1 h)]
    simpa using fun cores hc => absurd ⟨cores, hc⟩ h

theorem sampler_collect : (collect d root random s).1 = (pollCores d root s).1 := rfl

theorem mem_collect {m : Metric} : m ∈ (collect d root random s).2 ↔ Offers d root random s m := by
  simp only [collect, List.mem_append, mem_metricsOr_source, mem_pollCores, List.mem_singleton]
  constructor
  · rintro ((((⟨info, h, hm⟩ | ⟨info, h, hm⟩) | ⟨load, h, hm⟩) | ⟨cores, h, i, now, hnow, rfl⟩) | rfl)
    · exact .memory h hm
    · exact .process h hm
    · exact .load h hm
    · exact .core h hnow
    · exact .random
  · rintro (⟨h, hm⟩ | ⟨h, hm⟩ | ⟨h, hm⟩ | ⟨h, hnow⟩ | _)
    · exact Or.inl (Or.inl (Or.inl (Or.inl ⟨_, h, hm⟩)))
    · exact Or.inl (Or.inl (Or.inl (Or.inr ⟨_, h, hm⟩)))
    · exact Or.inl (Or.inl (Or.inr ⟨_, h, hm⟩))
    · exact Or.inl (Or.inr ⟨_, h, _, _, hnow, rfl⟩)
    · exact Or.inr rfl

section

variable {keys : List String} {found : SortedMap ℕ}

theorem quantity?_lt {raw : List Char} {n : ℕ} (h : quantity? raw = some n) : n < 2 ^ 64 := by
  unfold quantity? at h
  split at h
  · cases h
  · exact Text.unsigned?_lt h
  · obtain ⟨m, -, h⟩ := Option.bind_eq_some_iff.1 h
    split_ifs at h with hunit
    obtain rfl := Option.some.inj h
    exact hunit.2

/-- All that was found is a number of 64 bits. -/
def Bounded (found : SortedMap ℕ) : Prop := ∀ name n, found.find? name = some n → n < 2 ^ 64

theorem readLine_bounded {file : String} {line : List Char} {found' : SortedMap ℕ}
    (hfound : Bounded found) (h : readLine file keys found line = .ok found') : Bounded found' := by
  unfold readLine at h
  cases hcut : Text.splitOnce? ':' line with
  | none =>
    rw [hcut] at h
    obtain rfl := Except.ok.inj h
    exact hfound
  | some cut =>
    simp only [hcut] at h
    split_ifs at h with hkey
    · cases hq : quantity? cut.2 with
      | none => simp [hq] at h
      | some n =>
        simp only [hq, Except.ok.injEq] at h
        subst h
        intro name m hm
        rw [SortedMap.find?_insert] at hm
        split_ifs at hm
        · obtain rfl := Option.some.inj hm
          exact quantity?_lt hq
        · exact hfound name m hm
    · obtain rfl := Except.ok.inj h
      exact hfound

theorem readKeys_bounded {file content : String}
    (h : readKeys file keys content = .ok found) : Bounded found := by
  have start : Bounded [] := fun _ _ hm => by cases hm
  exact foldlM_keeps (fun _ _ _ _ hfound => readLine_bounded hfound) start h

end

/-- A gauge that a store takes for its value. -/
def FiniteGauge (m : Metric) : Prop := ∃ x : Real64, m.value = .gauge x ∧ x.isFinite

theorem finiteGauge_gaugeOfNat (name : String) {n : ℕ} (hn : n < 2 ^ 64) :
    FiniteGauge (gaugeOfNat name n) := ⟨_, rfl, (Real64.ofNat_lt (by decide) hn).1⟩

theorem MemoryInfo.finiteGauge_metrics {content : String} {info : MemoryInfo}
    (h : parse content = .ok info) : ∀ m ∈ info.metrics, FiniteGauge m := by
  obtain ⟨found, hfound, h⟩ := bind_eq_ok_iff.1 h
  have hbounded := readKeys_bounded hfound
  split at h
  · next total free htotal hfree =>
    obtain rfl := Except.ok.inj h
    intro m hm
    simp only [metrics, List.mem_append, List.mem_cons, List.not_mem_nil, or_false,
      Option.mem_toList, Option.map_eq_some_iff] at hm
    rcases hm with (rfl | rfl) | ⟨available, havailable, rfl⟩
    · exact finiteGauge_gaugeOfNat _ (hbounded _ _ htotal)
    · exact finiteGauge_gaugeOfNat _ (hbounded _ _ hfree)
    · exact finiteGauge_gaugeOfNat _ (hbounded _ _ havailable)
  · cases h

theorem Bounded.getD {found : SortedMap ℕ} (h : Bounded found) (name : String) :
    (found.find? name).getD 0 < 2 ^ 64 := by
  cases hf : found.find? name with
  | none => exact Nat.two_pow_pos 64
  | some n => exact h name n hf

theorem ProcessInfo.finiteGauge_metrics {content : String} {info : ProcessInfo}
    (h : parse content = .ok info) : ∀ m ∈ info.metrics, FiniteGauge m := by
  obtain ⟨found, hfound, h⟩ := bind_eq_ok_iff.1 h
  have hbounded := readKeys_bounded hfound
  split at h
  · next resident hresident =>
    obtain rfl := Except.ok.inj h
    intro m hm
    simp only [metrics, List.mem_cons, List.not_mem_nil, or_false] at hm
    rcases hm with rfl | rfl | rfl | rfl
    · exact finiteGauge_gaugeOfNat _ (hbounded _ _ hresident)
    all_goals exact finiteGauge_gaugeOfNat _ (hbounded.getD _)
  · cases h

namespace CoreTimes

theorem total_lt_of_ofFields {label : List Char} {fields : List (List Char)} {times : CoreTimes}
    (h : ofFields label fields = .ok times) : times.total < 2 ^ 64 := by
  unfold ofFields at h
  split at h
  · cases h
  · split at h
    · obtain rfl := Except.ok.inj h
      exact (Nat.min_le_right _ _).trans_lt (by decide)
    · cases h

theorem total_lt_of_ofLine {line : List Char} {times : CoreTimes}
    (h : ofLine line = .ok (some times)) : times.total < 2 ^ 64 := by
  unfold ofLine at h
  split at h
  · cases h
  · split_ifs at h with hlabel
    · obtain ⟨found, hfound, hsome⟩ := map_eq_ok_iff.1 h
      obtain rfl := Option.some.inj hsome
      exact total_lt_of_ofFields hfound
    · cases h

theorem total_lt_of_parse {content : String} {cores : List CoreTimes}
    (h : parse content = .ok cores) {times : CoreTimes} (ht : times ∈ cores) :
    times.total < 2 ^ 64 := by
  obtain ⟨found, hfound, h⟩ := bind_eq_ok_iff.1 h
  split at h
  · cases h
  · obtain rfl := Except.ok.inj h
    obtain ⟨line, -, hline⟩ := exists_of_mem_mapM_ok hfound (by simpa using ht)
    exact total_lt_of_ofLine hline

theorem isFinite_utilization {now : CoreTimes} (h : now.total < 2 ^ 64) (earlier : CoreTimes) :
    (now.utilization earlier).isFinite := by
  unfold utilization
  simp only
  split_ifs with hzero
  · rfl
  · exact Real64.isFinite_share (by decide) (by decide : 100 < 2 ^ 7)
      (show _ < 2 ^ 64 by omega) (Nat.pos_of_ne_zero hzero)

end CoreTimes

/-- No load average is infinite or no number. -/
def Load.IsFinite (l : Load) : Prop := l.one.isFinite ∧ l.five.isFinite ∧ l.fifteen.isFinite

instance : DecidablePred Load.IsFinite := fun _ => inferInstanceAs (Decidable (_ ∧ _))

theorem Load.isFinite_iff (l : Load) : l.IsFinite ↔ ∀ m ∈ l.metrics, FiniteGauge m := by
  simp [IsFinite, metrics, FiniteGauge]

/-- What is on offer is finite, if it is no load average and the number from outside is finite. -/
theorem Offers.finiteGauge_or {m : Metric} (h : Offers d root random s m)
    (hrandom : random.isFinite) :
    FiniteGauge m ∨ ∃ load, Reads d root "loadavg" Load.parse load ∧ m ∈ load.metrics := by
  cases h with
  | memory h hm =>
    obtain ⟨content, -, hparse⟩ := h
    exact Or.inl (MemoryInfo.finiteGauge_metrics hparse m hm)
  | process h hm =>
    obtain ⟨content, -, hparse⟩ := h
    exact Or.inl (ProcessInfo.finiteGauge_metrics hparse m hm)
  | load h hm => exact Or.inr ⟨_, h, hm⟩
  | core h hnow =>
    obtain ⟨content, -, hparse⟩ := h
    have hbound := CoreTimes.total_lt_of_parse hparse (List.mem_of_getElem? hnow)
    exact Or.inl ⟨_, rfl, CoreTimes.isFinite_utilization hbound _⟩
  | random => exact Or.inl ⟨_, rfl, hrandom⟩

section

def MemoryInfo.names : List String := ["TotalMemory", "FreeMemory", "AvailableMemory"]

def ProcessInfo.names : List String :=
  ["ProcessResident", "ProcessVirtual", "ProcessPeakVirtual", "ProcessThreads"]

def Load.names : List String := ["LoadAverage1", "LoadAverage5", "LoadAverage15"]

/-- The names of the metrics that are there once. -/
def plainNames : List String := MemoryInfo.names ++ ProcessInfo.names ++ Load.names

def coreName (i : ℕ) : String := "CPUutilization" ++ toString (i + 1)

/-- All names that a look at `n` cores can have, in the order of its metrics. -/
def namesOnOffer (n : ℕ) : List String :=
  plainNames ++ (List.range n).map coreName ++ ["RandomValue"]

theorem coreName_injective : Function.Injective coreName := by
  intro i j h
  have hdigits : toString (i + 1) = toString (j + 1) := by simpa [coreName] using h
  have hnumber := congrArg String.toNat? hdigits
  simpa using hnumber

theorem head_coreName (i : ℕ) : (coreName i).toList.head? = some 'C' := by
  simp [coreName]

theorem nodup_namesOnOffer (n : ℕ) : (namesOnOffer n).Nodup := by
  -- only the names of cores begin with that letter
  have plain : ∀ name ∈ plainNames, name.toList.head? ≠ some 'C' := by decide
  have hplain : plainNames.Nodup := by decide
  have hcores : ((List.range n).map coreName).Nodup := List.nodup_range.map coreName_injective
  refine (hplain.append hcores ?_).append (List.nodup_singleton _) ?_
  · intro name hname hcore
    obtain ⟨i, -, rfl⟩ := List.mem_map.1 hcore
    exact plain _ hname (head_coreName i)
  · intro name hname hrandom
    obtain rfl := List.mem_singleton.1 hrandom
    rcases List.mem_append.1 hname with hname | hcore
    · exact absurd hname (by decide)
    · obtain ⟨i, -, hi⟩ := List.mem_map.1 hcore
      exact absurd (head_coreName i) (by rw [hi]; decide)

theorem ne_of_mem_namesOnOffer {n : ℕ} {name : String} (h : name ∈ namesOnOffer n) :
    name ≠ "" ∧ name ≠ pollCount := by
  have plain : ∀ name ∈ plainNames ++ ["RandomValue"], name ≠ "" ∧ name ≠ pollCount := by decide
  simp only [namesOnOffer, List.mem_append, List.mem_map] at h
  rcases h with (h | ⟨i, -, rfl⟩) | h
  · exact plain name (List.mem_append_left _ h)
  · have hhead := head_coreName i
    constructor
    all_goals
      intro he
      rw [he] at hhead
      exact absurd hhead (by decide)
  · exact plain name (List.mem_append_right _ h)

theorem MemoryInfo.names_metrics (info : MemoryInfo) : info.metrics.map (·.name) <+ names := by
  unfold metrics
  cases info.available <;> simp [gaugeOfNat, names]

theorem ProcessInfo.names_metrics (info : ProcessInfo) : info.metrics.map (·.name) <+ names :=
  .refl _

theorem Load.names_metrics (load : Load) : load.metrics.map (·.name) <+ names := .refl _

variable (d : Directory) (root : String)

theorem names_metricsOr (file : String) (parse : String → Except Error α)
    {metrics : α → List Metric} {names : List String}
    (h : ∀ info, (metrics info).map (·.name) <+ names) :
    (metricsOr ((readSource d root file).bind fun c => (parse c).map metrics)).map (·.name) <+
      names := by
  cases hr : (readSource d root file).bind fun c => (parse c).map metrics with
  | error why => exact List.nil_sublist names
  | ok ms =>
    obtain ⟨content, -, hms⟩ := bind_eq_ok_iff.1 hr
    obtain ⟨info, -, rfl⟩ := map_eq_ok_iff.1 hms
    exact h info

theorem names_pollCores (s : Sampler) :
    ∃ n, (pollCores d root s).2.map (·.name) = (List.range n).map coreName := by
  by_cases h : ∃ cores, Reads d root "stat" CoreTimes.parse cores
  · obtain ⟨cores, h⟩ := h
    refine ⟨cores.length, ?_⟩
    rw [pollCores_of_reads h]
    refine List.ext_getElem (by simp) fun i hi _ => ?_
    simp [Sampler.gauge, coreName]
  · refine ⟨0, ?_⟩
    rw [pollCores_of_not_reads (not_exists.1 h)]
    rfl

theorem names_collect (random : Real64) (s : Sampler) :
    ∃ n, (collect d root random s).2.map (·.name) <+ namesOnOffer n := by
  obtain ⟨n, hcores⟩ := names_pollCores d root s
  have hmemory := names_metricsOr d root "meminfo" MemoryInfo.parse MemoryInfo.names_metrics
  have hprocess :=
    names_metricsOr d root "self/status" ProcessInfo.parse ProcessInfo.names_metrics
  have hload := names_metricsOr d root "loadavg" Load.parse Load.names_metrics
  refine ⟨n, ?_⟩
  simp only [collect, List.map_append, hcores]
  exact (((hmemory.append hprocess).append hload).append (.refl _)).append (.refl _)

end

theorem Offers.name {m : Metric} (h : Offers d root random s m) :
    m.name ≠ "" ∧ m.name ≠ pollCount := by
  obtain ⟨n, hnames⟩ := names_collect d root random s
  exact ne_of_mem_namesOnOffer (hnames.subset (List.mem_map_of_mem (mem_collect.2 h)))

theorem Offers.kind {m : Metric} (h : Offers d root random s m) : m.kind = .gauge := by
  have memory (info : MemoryInfo) : ∀ m ∈ info.metrics, m.kind = .gauge := by
    simp [MemoryInfo.metrics, gaugeOfNat, Metric.kind, Value.kind, or_imp, forall_and]
  have process (info : ProcessInfo) : ∀ m ∈ info.metrics, m.kind = .gauge := by
    simp [ProcessInfo.metrics, gaugeOfNat, Metric.kind, Value.kind]
  have load (load : Load) : ∀ m ∈ load.metrics, m.kind = .gauge := by
    simp [Load.metrics, Metric.kind, Value.kind]
  cases h with
  | memory h hm => exact memory _ m hm
  | process h hm => exact process _ m hm
  | load h hm => exact load _ m hm
  | core h hnow => rfl
  | random => rfl

theorem Offers.validate {m : Metric} (h : Offers d root random s m) :
    m.validate = .ok () ∧ FiniteGauge m ∨
      m.validate = .error (.invalidValue .gauge m.value.text) ∧ ¬FiniteGauge m := by
  obtain ⟨hname, hcount⟩ := h.name
  have hk := h.kind
  obtain ⟨name, value⟩ := m
  cases value with
  | counter n => cases hk
  | gauge x =>
    have hempty : name.isEmpty = false := by simpa using hname
    have hreserved : name ≠ pollCount := hcount
    by_cases hx : x.isFinite
    · exact Or.inl ⟨by simp [Metric.validate, hempty, hreserved, hx], x, rfl, hx⟩
    · refine Or.inr ⟨by simp [Metric.validate, hempty, hreserved, hx], ?_⟩
      rintro ⟨y, hy, hfinite⟩
      obtain rfl := Value.gauge.inj hy
      exact hx hfinite

end Host
end Telemetry
